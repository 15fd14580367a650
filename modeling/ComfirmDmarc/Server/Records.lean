import ComfirmDmarc.Base

/-!
# Server -- the records of a connection

The records `src/base.h` declares for the SMTP server, and the functions that
make fresh ones (`request.c`, `response.c`). What `malloc` returns is not
cleared, so a fresh request is built over whatever the block held before.
-/

namespace ComfirmDmarc.Server

open CMemory

/-- The connection event types. -/
inductive ConnStatus
  | started
  | reading
  | error
  | writing
  | closed
  | inactive
  deriving DecidableEq, Repr

/-- The part of `config` a connection reads. The write step sends chunks of
`writeBufferSize` bytes and does not end when that is not positive. -/
structure Config where
  hostname : Bytes
  serverName : Bytes
  readBufferSize : Int
  writeBufferSize : Nat
  dataBufferSize : Int
  writeBufferSize_pos : 0 < writeBufferSize

/-- `config_load_default`. -/
def Config.default : Config where
  hostname := bytes "dmarc.amail.io"
  serverName := bytes "Comfirm DMARC Server"
  readBufferSize := 4046
  writeBufferSize := 131072
  dataBufferSize := 40000
  writeBufferSize_pos := by decide

/-! ## Requests -/

/-- `request`. `data` holds the `data_len` bytes stored so far; `body` is
`none` for `NULL` and otherwise the allocated block. -/
structure Request where
  headers : Vector Hdr headerMaxLen
  headerCount : Nat
  body : Option Bytes
  bodyLen : Nat
  inData : Bool
  data : Bytes
  dataAlloc : Nat
  quit : Bool
  process : Bool
  deriving DecidableEq

/-- The request of zero bytes. -/
def Request.zero : Request :=
  { headers := Vector.replicate _ ⟨Vector.replicate _ 0, Vector.replicate _ 0⟩
    headerCount := 0
    body := none
    bodyLen := 0
    inData := false
    data := []
    dataAlloc := 0
    quit := false
    process := false }

/-- `request_init` over the block `mem`: the header arrays and
`header_count` keep what was there. -/
def requestInit (mem : Request) : Request :=
  { mem with
    body := none
    bodyLen := 0
    inData := false
    dataAlloc := 0
    data := []
    quit := false
    process := false }

/-! ## Responses -/

/-- `response`. -/
structure Response where
  data : Bytes
  dataAlloc : Nat
  deriving DecidableEq

/-- `response_init`. -/
def responseInit : Response := ⟨[], 0⟩

/-- `response_append` of a C string. -/
def responseAppend (resp : Response) (data : Bytes) : Response :=
  { data := resp.data ++ data
    dataAlloc :=
      if resp.dataAlloc ≤ resp.data.length + data.length + 1 then
        resp.data.length + data.length + 512
      else resp.dataAlloc }

@[simp] theorem responseInit_data : responseInit.data = [] := rfl

@[simp] theorem responseAppend_data (resp : Response) (data : Bytes) :
    (responseAppend resp data).data = resp.data ++ data := rfl

/-- The text and its terminator always fit the allocation. -/
theorem responseAppend_fits (resp : Response) (data : Bytes) :
    (responseAppend resp data).data.length < (responseAppend resp data).dataAlloc := by
  simp only [responseAppend, List.length_append]
  split <;> omega

/-! ## Connections -/

/-- `connection`. `readBuffer` is the memory from `read_buffer` on, of which
the first `bufferLen` bytes have been received. -/
structure Connection where
  status : ConnStatus
  request : Option Request
  response : Option Response
  readBuffer : Option Bytes
  bufferLen : Nat
  deriving DecidableEq

/-- `connection_start`. -/
def connectionStart (mem : Request) : Connection where
  status := .started
  request := some (requestInit mem)
  response := some responseInit
  readBuffer := none
  bufferLen := 0

/-- `connection_reset`. -/
def connectionReset : Connection where
  status := .inactive
  request := none
  response := none
  readBuffer := none
  bufferLen := 0

end ComfirmDmarc.Server
