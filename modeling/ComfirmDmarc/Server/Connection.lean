import ComfirmDmarc.Server.ParseCommands
import ComfirmDmarc.Server.ParseData
import ComfirmDmarc.Queue.PersistedQueue

/-!
# Server -- `connection_handle`

One event of a connection, as the worker loop hands it to `connection.c`: the
welcome, the read, the write and the closing, in the order of the function.
What the function finds outside of the connection (the socket, what `malloc`
returns, the state of the worker's queue) is an argument of the event.

A dereference of `NULL` or a write outside of an array ends the step with a
`Fault`: what C does from there on is undefined.
-/

namespace ComfirmDmarc.Server

open CMemory Queue

/-! ## Outside of the connection -/

/-- What one event finds outside of the connection. -/
structure Env where
  /-- the pending bytes of the socket; `none` when `read` fails -/
  recv : Option Bytes
  /-- the memory from a fresh read buffer on -/
  readMem : Bytes
  /-- how many bytes the `k`-th `send` takes of `n`; `none` when it fails -/
  send : Nat → Nat → Option Nat
  /-- the block of a fresh request -/
  requestMem : Request
  /-- the block of a fresh mail -/
  mailMem : Mail
  /-- the allocated bytes behind the stored DATA content -/
  dataTail : Bytes

/-- A peer that takes everything that is sent to it. -/
def sendAll (_ n : Nat) : Option Nat := some n

inductive Fault
  | nullPointer
  | nullBody
  | headerAccess
  | mailHeader (index : Nat)
  deriving DecidableEq, Repr

/-- A connection with the worker's queue, the bytes that went out and the
mails that `pq_enqueue` took. -/
structure World where
  conn : Connection
  queue : QueueFile Mail
  sent : Bytes
  added : List Mail

/-! ## The mail object -/

/-- The copy of the body into the mail. -/
def copyBody (m : Mail) (req : Request) : Except Fault Mail :=
  if req.bodyLen < bodyMaxLen then
    match req.body with
    | none => .error .nullBody
    | some body => .ok { m with body := memcpy m.body (body.take (req.bodyLen + 1)) }
  else .ok { m with body := m.body.setIfInBounds 0 0 }

/-- The copy loop over the indices `is`. -/
def copyHeaders (headers : Vector Hdr headerMaxLen) (m : Mail) : List Nat → Except Fault Mail
  | [] => .ok m
  | i :: is =>
    if h : i < headerMaxLen then
      copyHeaders headers { m with headers := m.headers.set i headers[i] } is
    else .error (.mailHeader i)

/-- The mail object that `connection_handle` makes of a parsed request. -/
def createMail (mem : Mail) (req : Request) : Except Fault Mail := do
  let m ← copyBody mem req
  copyHeaders req.headers { m with headerCount := req.headerCount } (List.range req.headerCount)

/-- Parse the stored content and queue the mail it makes. -/
def processData (env : Env) (req : Request) (w : World) : Except Fault (Request × World) :=
  let (req, accesses) := requestParseData req env.dataTail
  if ¬∀ a ∈ accesses, a.InRange then .error .headerAccess
  else if 0 < req.headerCount then do
    let m ← createMail env.mailMem req
    let (code, queue) := pqEnqueue w.queue m
    .ok (req, { w with queue := queue, added := if code = 0 then w.added ++ [m] else w.added })
  -- missing headers: the `CONN_ERROR` set here is overwritten by the caller
  else .ok (req, w)

/-! ## The blocks of `connection_handle` -/

/-- The welcome message. -/
def welcome (conf : Config) (w : World) : Except Fault World :=
  if w.conn.status = .started then
    match w.conn.response with
    | none => .error .nullPointer
    | some resp =>
      let parts := [bytes "220 ", conf.hostname, bytes " SMTP ", conf.serverName, bytes "\r\n"]
      .ok { w with conn := { w.conn with
        response := some (parts.foldl responseAppend resp), status := .writing } }
  else .ok w

/-- Parse the received bytes, with the memory `ahead` behind them. -/
def parseStep (conf : Config) (env : Env) (w : World) (data ahead : Bytes) :
    Except Fault World :=
  match w.conn.request, w.conn.response with
  | some req, some resp =>
    let s := requestParseCommands conf req resp data ahead
    let conn := { w.conn with request := some s.request, response := some s.response }
    if s.error then .ok { w with conn := { conn with status := .error } }
    else if s.request.process then do
      let (req, w) ← processData env s.request w
      .ok { w with conn := { conn with request := some req, status := .writing } }
    else .ok { w with conn := { conn with status := .writing } }
  | _, _ => .error .nullPointer

/-- Reading from the client. -/
def readStep (conf : Config) (env : Env) (w : World) : Except Fault World :=
  if w.conn.status = .reading then
    let conn := if w.conn.bufferLen = 0 then { w.conn with readBuffer := some env.readMem }
      else w.conn
    match conn.readBuffer with
    | none => .error .nullPointer
    | some mem =>
      let space := conf.readBufferSize - conn.bufferLen
      -- `read` takes as many of the pending bytes as there is space
      match if 0 < space then env.recv.map (·.take space.toNat) else none with
      | none => .ok { w with conn := { conn with status := .error } }
      | some got =>
        let len := conn.bufferLen + got.length
        let mem := mem.take conn.bufferLen ++ got ++ mem.drop len
        let w := { w with conn := { conn with readBuffer := some mem, bufferLen := len } }
        if 0 < len then parseStep conf env w (mem.take len) (mem.drop len) else .ok w
  else .ok w

/-- The chunked `send` loop, from the `k`-th call on: what went out, and
whether no call failed. -/
def sendChunks (conf : Config) (send : Nat → Nat → Option Nat) (k : Nat) (data : Bytes) :
    Bytes × Bool :=
  if data = [] then ([], true)
  else
    let size := min data.length conf.writeBufferSize
    match send k size with
    | none => ([], false)
    | some sent =>
      let next := sendChunks conf send (k + 1) (data.drop size)
      ((data.take size).take sent ++ next.1, next.2)
termination_by data.length
decreasing_by
  have := conf.writeBufferSize_pos
  have := List.length_pos_iff.mpr ‹_›
  simp only [List.length_drop]
  omega

/-- The bytes of a response that go out, and whether no `send` failed. -/
def sendResponse (conf : Config) (send : Nat → Nat → Option Nat) (data : Bytes) : Bytes × Bool :=
  if data.length ≤ conf.writeBufferSize then
    match send 0 data.length with
    | none => ([], false)
    | some sent => (data.take sent, true)
  else sendChunks conf send 0 data

/-- Writing to the socket. -/
def writeStep (conf : Config) (env : Env) (w : World) : Except Fault World :=
  if w.conn.status = .writing then
    match w.conn.request, w.conn.response with
    | some req, some resp =>
      let out := sendResponse conf env.send resp.data
      let w := { w with sent := w.sent ++ out.1 }
      if out.2 then
        .ok { w with conn :=
          { status := if req.quit then .closed else .reading
            request := some (if req.inData then req else requestInit env.requestMem)
            response := some responseInit
            readBuffer := none
            bufferLen := 0 } }
      else .ok { w with conn := { w.conn with status := .error } }
    | _, _ => .error .nullPointer
  else .ok w

/-- The error, closing and reset blocks. -/
def closeStep (w : World) : World :=
  if w.conn.status = .error ∨ w.conn.status = .closed ∨ w.conn.status = .inactive then
    { w with conn := connectionReset }
  else w

/-- `connection_handle`. -/
def connectionHandle (conf : Config) (env : Env) (w : World) : Except Fault World := do
  let w ← welcome conf w
  let w ← readStep conf env w
  let w ← writeStep conf env w
  return closeStep w

/-! ## The worker loop -/

/-- An event of `worker_server` for a connection slot: the peer closed, or
there is something to read. The queue is the state the event finds it in. -/
structure Event where
  closed : Bool
  env : Env
  queue : QueueFile Mail

/-- The body of the loop in `worker_server`. -/
def workerEvent (conf : Config) (ev : Event) (w : World) : Except Fault World :=
  let conn :=
    if ev.closed then { w.conn with status := .closed }
    else if w.conn.status = .inactive then
      { connectionStart ev.env.requestMem with status := .reading }
    else w.conn
  connectionHandle conf ev.env { w with conn := conn, queue := ev.queue }

/-- The worker loop as a step relation; a fault has no step. -/
def Step (conf : Config) (w : World) (ev : Event) (w' : World) : Prop :=
  workerEvent conf ev w = .ok w'

end ComfirmDmarc.Server
