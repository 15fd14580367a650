import ComfirmDmarc.Base
import Mathlib.Logic.Function.Basic

/-!
# Queue -- `lib-pq/persisted_queue.c`

The queue file and the functions that open, fill and drain it. The file is
mapped `MAP_SHARED`, so every store of an operation goes to the one file that
all processes see: `pqEnqueue` and `pqDequeue` are given as the list of stores
they make, in program order, together with the code they return. Opening a
queue never writes to an existing file.

The payload type is a parameter: the operations copy `sizeof(mail)` bytes and
look at none of them.
-/

namespace ComfirmDmarc.Queue

variable {α : Type}

/-! ## The file -/

/-- `pq_ref_shared`: the header at the start of the file. -/
structure PqRefShared where
  writeOffset : Int
  readOffset : Int
  messageCount : Int
  messageMaxCount : Int
  memorySize : Int
  deriving DecidableEq, Repr

/-- `sizeof(pq_ref_shared)`: four `int`s and a `long`. -/
def sizeofPqRefShared : Int := 24

/-- A queue file: its `st_size`, its header and its message slots. -/
structure QueueFile (α : Type) where
  size : Int
  shared : PqRefShared
  slots : Int → α

/-- What `open(O_TRUNC)` and the stretching write leave: a file of zero bytes,
whose slots hold the all-zero message `zero`. -/
def QueueFile.zeroed (size : Int) (zero : α) : QueueFile α :=
  ⟨size, ⟨0, 0, 0, 0, 0⟩, fun _ => zero⟩

/-! ## Return codes -/

def pqMemMapOpenFileError : Int := -1000
def pqMemMapLseekStrechError : Int := -1001
def pqMemMapEofWriteByteError : Int := -1002
def pqMemMapMappingError : Int := -1003
def pqMemMapInaccurateMessageSize : Int := -1005
def pqMessageSizeReachedError : Int := -2000
def pqMessageQueueEmptyError : Int := -2001
def pqSemaphoreError : Int := -4000

/-! ## Opening -/

/-- Which system calls succeed while a queue is being opened. -/
structure SysCalls where
  openOk : Bool
  writeOk : Bool
  mmapOk : Bool
  semgetOk : Bool

/-- No system call fails for a reason of its own. -/
def SysCalls.allOk : SysCalls := ⟨true, true, true, true⟩

/-- `pq_ref`: what a process keeps about a queue it opened, here the length it
mapped. -/
structure PqRef where
  mappedLen : Int
  deriving DecidableEq

/-- `file_size`: `st_size` converted to `int`, or -1 for a missing file. -/
def fileSize : Option (QueueFile α) → Int
  | none => -1
  | some f => toInt f.size

/-- The offset comparison of `pq_open`, in `size_t` arithmetic. -/
def sizeMatches (f : QueueFile α) (messageMaxCount : Int) : Bool :=
  toSize (toInt f.size) == toSize (sizeofPqRefShared + toSize (sizeofMail * messageMaxCount))

/-- `pq_open` on a file that exists: a handle or an error code. -/
def pqOpen (sys : SysCalls) (f : QueueFile α) (messageMaxCount : Int) : Except Int PqRef :=
  if fileSize (some f) ≠ -1 ∧ sizeMatches f messageMaxCount = false then
    .error pqMemMapInaccurateMessageSize
  else if sys.openOk = false then .error pqMemMapOpenFileError
  else if sys.mmapOk = false then .error pqMemMapMappingError
  -- the length leaves out the header
  else .ok ⟨toSize (messageMaxCount * sizeofMail)⟩

/-- `pq_init`: the handle or error code, and the file it leaves behind. -/
def pqInit (sys : SysCalls) (zero : α) (file : Option (QueueFile α)) (messageMaxCount : Int) :
    Except Int PqRef × Option (QueueFile α) :=
  match file with
  | none =>
    let memorySize := toInt (toSize (messageMaxCount * sizeofMail))
    let mapped := toSize (sizeofPqRefShared + memorySize)
    if sys.openOk = false then (.error pqMemMapOpenFileError, none)
    -- `pq_get_mapped_memory`: stretch to the last byte, then map
    else if Int.bmod mapped (2 ^ 64) - 1 < 0 then
      (.error pqMemMapLseekStrechError, some (.zeroed 0 zero))
    else if sys.writeOk = false then
      (.error pqMemMapEofWriteByteError, some (.zeroed 0 zero))
    else if sys.mmapOk = false then
      (.error pqMemMapMappingError, some (.zeroed mapped zero))
    else
      let f : QueueFile α :=
        { size := mapped, shared := ⟨0, 0, 0, messageMaxCount, memorySize⟩, slots := fun _ => zero }
      if sys.semgetOk = false then (.error pqSemaphoreError, some f)
      else (.ok ⟨mapped⟩, some f)
  | some f =>
    match pqOpen sys f messageMaxCount with
    | .error e => (.error e, some f)
    | .ok ref => if sys.semgetOk = false then (.error pqSemaphoreError, some f) else (.ok ref, some f)

/-! ## Operations -/

/-- One store to the shared mapping. -/
inductive Store (α : Type)
  | slot (index : Int) (message : α)
  | writeOffset (v : Int)
  | readOffset (v : Int)
  | messageCount (v : Int)

def Store.apply (f : QueueFile α) : Store α → QueueFile α
  | .slot i m => { f with slots := Function.update f.slots i m }
  | .writeOffset v => { f with shared := { f.shared with writeOffset := v } }
  | .readOffset v => { f with shared := { f.shared with readOffset := v } }
  | .messageCount v => { f with shared := { f.shared with messageCount := v } }

def applyStores (f : QueueFile α) (ss : List (Store α)) : QueueFile α :=
  ss.foldl Store.apply f

/-- The stores of an enqueue that finds room. The offset is stored twice: the
pre-increment stores the raw successor, the assignment its remainder. -/
def enqueueStores (f : QueueFile α) (source : α) : List (Store α) :=
  let next := toInt (f.shared.writeOffset + 1)
  [.slot f.shared.writeOffset source,
   .writeOffset next,
   .writeOffset (next.tmod f.shared.messageMaxCount),
   .messageCount (toInt (f.shared.messageCount + 1))]

/-- `pq_enqueue`, between its `semaphore_wait` and `semaphore_post`. -/
def pqEnqueue (f : QueueFile α) (source : α) : Int × QueueFile α :=
  if f.shared.messageMaxCount ≤ f.shared.messageCount then (pqMessageSizeReachedError, f)
  else (0, applyStores f (enqueueStores f source))

/-- The stores of a dequeue that finds a message. -/
def dequeueStores (f : QueueFile α) : List (Store α) :=
  let next := toInt (f.shared.readOffset + 1)
  [.readOffset next,
   .readOffset (next.tmod f.shared.messageMaxCount),
   .messageCount (toInt (f.shared.messageCount - 1))]

/-- `pq_dequeue`, between its `semaphore_wait` and `semaphore_post`: the code,
the message copied to `destination`, and the file. -/
def pqDequeue (f : QueueFile α) : Int × Option α × QueueFile α :=
  if f.shared.messageCount ≤ 0 then (pqMessageQueueEmptyError, none, f)
  else (0, some (f.slots f.shared.readOffset), applyStores f (dequeueStores f))

/-! ## Small facts about stores -/

@[simp] theorem applyStores_nil (f : QueueFile α) : applyStores f [] = f := rfl

@[simp] theorem applyStores_cons (f : QueueFile α) (s : Store α) (ss : List (Store α)) :
    applyStores f (s :: ss) = applyStores (s.apply f) ss := rfl

/-- A call that fails leaves the file alone. -/
theorem pqEnqueue_of_ne_zero {f : QueueFile α} {m : α} (h : (pqEnqueue f m).1 ≠ 0) :
    (pqEnqueue f m).2 = f := by
  unfold pqEnqueue at h ⊢
  split <;> simp_all

theorem pqDequeue_of_ne_zero {f : QueueFile α} (h : (pqDequeue f).1 ≠ 0) :
    (pqDequeue f).2 = (none, f) := by
  unfold pqDequeue at h ⊢
  split <;> simp_all

end ComfirmDmarc.Queue
