import ComfirmDmarc.Lib.Blocks
import ComfirmDmarc.Server.Session

/-!
# Server -- who owns the blocks of a connection slot

`connection.c` once more, with the pointers of a slot in place of what they
point to: which block each one holds, and when it is freed. The slots come out
of `malloc`, so that their pointers hold anything before the first
`connection_start`.

What the parser and the peer decide in an event is an argument of the event
here; `slotEvent_represents` ties them to what `workerEvent` makes of its bytes.
-/

namespace ComfirmDmarc.Server.Ownership

open CMemory Blocks

/-! ## The code -/

/-- `connection`: the fields that decide about its blocks. -/
structure Slot where
  status : ConnStatus
  bufferLen : Nat
  readBuffer : Ptr
  request : Ptr
  response : Ptr
  deriving DecidableEq, Repr

structure SlotState where
  slot : Slot
  heap : Heap

/-- What an event does to a slot. -/
structure SlotEvent where
  /-- the peer closed -/
  closed : Bool
  alloc : Allocator
  /-- what `read` returns, `none` for -1 -/
  read : Option Nat
  /-- `request_parse_commands` returns 0 -/
  parsed : Bool
  /-- `in_data` and `quit` of the request behind it -/
  inData : Bool
  quit : Bool
  /-- no `send` returns -1 -/
  sent : Bool

/-- A slot of `connection_setup`, over the block `mem`. -/
def connectionSetup (mem : Slot) : SlotState := ⟨{ mem with status := .inactive }, .empty⟩

/-- `connection_start`. -/
def connectionStart (alloc : Allocator) (s : SlotState) : SlotState :=
  let heap := ((s.heap.overwrite s.slot.readBuffer).overwrite s.slot.response).overwrite s.slot.request
  let response := heap.malloc alloc
  let request := response.2.malloc alloc
  { slot :=
      { status := .started
        bufferLen := 0
        readBuffer := null
        request := request.1
        response := response.1 }
    heap := request.2 }

/-- `connection_reset`. -/
def connectionReset (s : SlotState) : Except Blocks.Fault SlotState := do
  let heap ← s.heap.freeUnlessNull s.slot.readBuffer
  let heap ← heap.freeUnlessNull s.slot.request
  let heap ← heap.freeUnlessNull s.slot.response
  return ⟨⟨.inactive, 0, null, null, null⟩, heap⟩

/-- The welcome message. -/
def welcome (s : SlotState) : Except Blocks.Fault SlotState :=
  if s.slot.status = .started then do
    s.heap.use s.slot.response
    return { s with slot := { s.slot with status := .writing } }
  else return s

/-- Reading from the client. -/
def readStep (conf : Config) (ev : SlotEvent) (s : SlotState) : Except Blocks.Fault SlotState :=
  if s.slot.status = .reading then
    let s :=
      if s.slot.bufferLen = 0 then
        let block := (s.heap.overwrite s.slot.readBuffer).malloc ev.alloc
        ⟨{ s.slot with readBuffer := block.1 }, block.2⟩
      else s
    match if 0 < conf.readBufferSize - s.slot.bufferLen then ev.read else none with
    | none => return { s with slot := { s.slot with status := .error } }
    | some n =>
      let s := { s with slot := { s.slot with bufferLen := s.slot.bufferLen + n } }
      if 0 < s.slot.bufferLen then do
        s.heap.use s.slot.readBuffer
        s.heap.use s.slot.request
        s.heap.use s.slot.response
        return { s with slot := { s.slot with status := if ev.parsed then .writing else .error } }
      else return s
  else return s

/-- The request behind a write: a new one, unless it is in the middle of DATA. -/
def renewRequest (ev : SlotEvent) (request : Ptr) (heap : Heap) :
    Except Blocks.Fault (Ptr × Heap) :=
  if ev.inData then return (request, heap)
  else do
    let heap ← heap.free request
    return heap.malloc ev.alloc

/-- Writing to the socket. -/
def writeStep (ev : SlotEvent) (s : SlotState) : Except Blocks.Fault SlotState :=
  if s.slot.status = .writing then do
    s.heap.use s.slot.response
    if ev.sent then
      s.heap.use s.slot.request
      let request ← renewRequest ev s.slot.request s.heap
      let heap ← request.2.free s.slot.response
      let response := heap.malloc ev.alloc
      let heap ← response.2.freeUnlessNull s.slot.readBuffer
      return ⟨⟨if ev.quit then .closed else .reading, 0, null, request.1, response.1⟩, heap⟩
    else return { s with slot := { s.slot with status := .error } }
  else return s

/-- The error, closing and reset blocks. -/
def closeStep (s : SlotState) : Except Blocks.Fault SlotState :=
  if s.slot.status = .error ∨ s.slot.status = .closed ∨ s.slot.status = .inactive then
    connectionReset s
  else return s

/-- `connection_handle`. -/
def connectionHandle (conf : Config) (ev : SlotEvent) (s : SlotState) :
    Except Blocks.Fault SlotState := do
  let s ← welcome s
  let s ← readStep conf ev s
  let s ← writeStep ev s
  closeStep s

/-- The body of the loop in `worker_server`. -/
def slotEvent (conf : Config) (ev : SlotEvent) (s : SlotState) : Except Blocks.Fault SlotState :=
  let s :=
    if ev.closed then { s with slot := { s.slot with status := .closed } }
    else if s.slot.status = .inactive then
      let s := connectionStart ev.alloc s
      { s with slot := { s.slot with status := .reading } }
    else s
  connectionHandle conf ev s

/-! ## Between events -/

/-- An event that reads nothing and does not fail. -/
def ReadsNothing (conf : Config) (ev : SlotEvent) : Prop :=
  ev.closed = false ∧ 0 < conf.readBufferSize ∧ ev.read = some 0

/-- The connection goes on behind the event. -/
def keepsOpen (conf : Config) (ev : SlotEvent) : Bool :=
  !ev.closed &&
    match if 0 < conf.readBufferSize then ev.read else none with
    | none => false
    | some 0 => true
    | some _ => ev.parsed && ev.sent && !ev.quit

/-- The blocks a slot holds. -/
def Slot.pointers (slot : Slot) : List Ptr := Heap.blocks [slot.readBuffer, slot.request, slot.response]

/-- What holds between events even when reads left buffers behind. -/
structure Tidy (s : SlotState) : Prop where
  owns : s.heap.Owns s.slot.pointers
  state : (s.slot.status = .inactive ∧ s.slot.pointers = []) ∨
    (s.slot.status = .reading ∧ s.slot.bufferLen = 0 ∧ s.slot.request ≠ null ∧
      s.slot.response ≠ null)

/-! ## The blocks of `connection_handle` -/

/-- The slot of a connection that was reset. -/
def resetSlot : Slot := ⟨.inactive, 0, null, null, null⟩

/-- A slot that owns its blocks can be reset. -/
theorem connectionReset_ok {s : SlotState} (h : s.heap.Owns s.slot.pointers) :
    ∃ s', connectionReset s = .ok s' ∧ s'.slot = resetSlot ∧ s'.heap.lost = s.heap.lost := by
  obtain ⟨h1, hfree1, hlost1, ho1⟩ := Heap.Owns.freeUnlessNull h
  obtain ⟨h2, hfree2, hlost2, ho2⟩ := ho1.freeUnlessNull
  obtain ⟨h3, hfree3, hlost3, -⟩ := ho2.freeUnlessNull
  refine ⟨⟨resetSlot, h3⟩, ?_, rfl, by rw [hlost3, hlost2, hlost1]⟩
  simp only [connectionReset, hfree1, hfree2, hfree3, bind, Except.bind, pure, Except.pure]
  rfl

theorem closeStep_closes {s : SlotState} (h : s.heap.Owns s.slot.pointers)
    (hstatus : s.slot.status = .error ∨ s.slot.status = .closed ∨ s.slot.status = .inactive) :
    ∃ s', closeStep s = .ok s' ∧ s'.slot = resetSlot ∧ s'.heap.lost = s.heap.lost := by
  rw [closeStep, if_pos hstatus]
  exact connectionReset_ok h

/-- What the write block leaves behind. -/
structure Written (ev : SlotEvent) (s s' : SlotState) : Prop where
  owns : s'.heap.Owns s'.slot.pointers
  lost : s'.heap.lost = s.heap.lost
  failed : ev.sent = false → s'.slot.status = .error
  sent : ev.sent = true → s'.slot.status = (if ev.quit then .closed else .reading) ∧
    s'.slot.bufferLen = 0 ∧ s'.slot.readBuffer = null ∧ s'.slot.request ≠ null ∧
      s'.slot.response ≠ null

theorem renewRequest_ok {h : Heap} {request : Ptr} {ps : List Ptr} (ho : h.Owns (request :: ps))
    (ev : SlotEvent) :
    ∃ r, renewRequest ev request h = .ok r ∧ r.2.Owns (r.1 :: ps) ∧ r.2.lost = h.lost := by
  rw [renewRequest]
  cases ev.inData with
  | true => exact ⟨(request, h), rfl, ho, rfl⟩
  | false =>
    obtain ⟨hfree, ho'⟩ := ho.free
    refine ⟨_, ?_, ho'.malloc ev.alloc, rfl⟩
    rw [if_neg (by decide), hfree]
    rfl

theorem writeStep_writing {ev : SlotEvent} {s : SlotState} (hs : s.slot.status = .writing)
    (h : s.heap.Owns [s.slot.readBuffer, s.slot.request, s.slot.response]) :
    ∃ s', writeStep ev s = .ok s' ∧ Written ev s s' := by
  have hresp : s.heap.use s.slot.response = .ok () := h.use (by simp)
  have hreq : s.heap.use s.slot.request = .ok () := h.use (by simp)
  rw [writeStep, if_pos hs, hresp]
  cases hsent : ev.sent with
  | false =>
    refine ⟨_, rfl, ?_, rfl, fun _ => rfl, fun hno => absurd hsent (by simp [hno])⟩
    show s.heap.Owns (Heap.blocks _)
    rw [h.blocks_eq]
    exact h
  | true =>
    -- the request first, then the response, then the buffer
    have hperm : ([s.slot.readBuffer] ++ [s.slot.request, s.slot.response]).Perm
        ([s.slot.request, s.slot.response] ++ [s.slot.readBuffer]) := List.perm_append_comm
    obtain ⟨request, hrenew, ho1, hlost1⟩ := renewRequest_ok (h.perm hperm) ev
    obtain ⟨hfree, ho2⟩ := (ho1.perm (List.Perm.swap _ _ _)).free
    have ho3 := (ho2.malloc ev.alloc).perm (List.reverse_perm [s.slot.readBuffer, request.1, _])
    have hreq' : request.1 ≠ null := ho3.ne_null (by simp)
    have hresp' : (request.2.erase s.slot.response |>.malloc ev.alloc).1 ≠ null :=
      ho3.ne_null (by simp)
    rw [← ho3.blocks_eq] at ho3
    obtain ⟨heap, hfree', hlost, ho4⟩ := ho3.freeUnlessNull
    refine ⟨⟨⟨if ev.quit then .closed else .reading, 0, null, request.1, _⟩, heap⟩, ?_, ?_, ?_,
      fun hno => by simp [hno] at hsent, fun _ => ⟨rfl, rfl, rfl, hreq', hresp'⟩⟩
    · simp only [bind, Except.bind, pure, Except.pure, if_true, hreq, hrenew, hfree, hfree']
    · simpa [Slot.pointers, Heap.blocks] using ho4
    · rw [hlost, ← hlost1]
      rfl

/-- The write and close blocks, on a connection that answers. -/
theorem answer_ok (ev : SlotEvent) {s : SlotState} (hs : s.slot.status = .writing)
    (h : s.heap.Owns [s.slot.readBuffer, s.slot.request, s.slot.response]) :
    ∃ s', (do
        let s ← writeStep ev s
        closeStep s) = .ok s' ∧ Tidy s' ∧ s'.slot.readBuffer = null ∧ s'.heap.lost = s.heap.lost ∧
      s'.slot.status = if ev.sent && !ev.quit then .reading else .inactive := by
  obtain ⟨s1, hwrite, hw⟩ := writeStep_writing hs h
  rw [hwrite]
  show ∃ s', closeStep s1 = .ok s' ∧ _
  by_cases hopen : ev.sent = true ∧ ev.quit = false
  -- the answer was sent: the slot waits for the next read
  · obtain ⟨hstatus, hlen, hbuffer, hreq, hresp⟩ := hw.sent hopen.1
    rw [hopen.2, if_neg (by decide)] at hstatus
    refine ⟨s1, ?_, ⟨hw.owns, .inr ⟨hstatus, hlen, hreq, hresp⟩⟩, hbuffer, hw.lost, ?_⟩
    · rw [closeStep, if_neg (by simp [hstatus])]
      rfl
    · simp [hstatus, hopen]
  -- it failed or the client quits: the close block resets the slot
  · have hclose : s1.slot.status = .error ∨ s1.slot.status = .closed ∨ s1.slot.status = .inactive := by
      cases hsent : ev.sent with
      | false => exact .inl (hw.failed hsent)
      | true =>
        have hquit : ev.quit = true := by simpa [hsent] using hopen
        exact .inr (.inl (by rw [(hw.sent hsent).1, if_pos hquit]))
    obtain ⟨s2, hreset, hslot, hlost⟩ := closeStep_closes hw.owns hclose
    refine ⟨s2, hreset, ⟨?_, .inl ⟨?_, ?_⟩⟩, ?_, hlost.trans hw.lost, ?_⟩
    · rw [hslot]
      exact .nil _
    · rw [hslot]
      rfl
    · rw [hslot]
      rfl
    · rw [hslot]
      rfl
    · rw [hslot, if_neg (by simpa using hopen)]
      rfl

/-- A connection that waits, with its request and its response. Whatever is in
`read_buffer` is overwritten. -/
structure Waits (s : SlotState) : Prop where
  status : s.slot.status = .reading
  bufferLen : s.slot.bufferLen = 0
  owns : s.heap.Owns [s.slot.request, s.slot.response]

/-- A connection behind an event. -/
structure Landed (conf : Config) (ev : SlotEvent) (s s' : SlotState) : Prop where
  tidy : Tidy s'
  status : s'.slot.status = if keepsOpen conf ev then .reading else .inactive
  readBuffer : s'.slot.readBuffer ≠ null ↔ ReadsNothing conf ev
  lost : s'.heap.lost =
    if ev.closed then s.heap.lost else (s.heap.overwrite s.slot.readBuffer).lost

theorem tidy_of_reset {s : SlotState} (h : s.slot = resetSlot) : Tidy s := by
  refine ⟨?_, .inl ⟨?_, ?_⟩⟩
  · rw [h]
    exact .nil _
  · rw [h]
    rfl
  · rw [h]
    rfl

theorem landed_of_reset {conf : Config} {ev : SlotEvent} {s s' : SlotState}
    (hslot : s'.slot = resetSlot) (hkeeps : keepsOpen conf ev = false)
    (hsome : ¬ReadsNothing conf ev)
    (hlost : s'.heap.lost =
      if ev.closed then s.heap.lost else (s.heap.overwrite s.slot.readBuffer).lost) :
    Landed conf ev s s' := by
  refine ⟨tidy_of_reset hslot, ?_, ?_, hlost⟩
  · rw [hslot, hkeeps]
    rfl
  · rw [hslot]
    exact ⟨fun hne => absurd rfl hne, fun h => absurd h hsome⟩

/-- The block of a read. -/
def readBlock (ev : SlotEvent) (s : SlotState) : Ptr × Heap :=
  (s.heap.overwrite s.slot.readBuffer).malloc ev.alloc

theorem Waits.readBlock {s : SlotState} (h : Waits s) (ev : SlotEvent) :
    (readBlock ev s).2.Owns [(readBlock ev s).1, s.slot.request, s.slot.response] :=
  (h.owns.overwrite s.slot.readBuffer).malloc ev.alloc

theorem readStep_waits (conf : Config) (ev : SlotEvent) {s : SlotState} (h : Waits s) :
    readStep conf ev s =
      match if 0 < conf.readBufferSize then ev.read else none with
      | none =>
        .ok ⟨{ s.slot with readBuffer := (readBlock ev s).1, status := .error }, (readBlock ev s).2⟩
      | some 0 => .ok ⟨{ s.slot with readBuffer := (readBlock ev s).1 }, (readBlock ev s).2⟩
      | some (n + 1) => .ok ⟨{ s.slot with
          readBuffer := (readBlock ev s).1
          bufferLen := n + 1
          status := if ev.parsed then .writing else .error }, (readBlock ev s).2⟩ := by
  have hown := h.readBlock ev
  have hbuffer := hown.use (p := (readBlock ev s).1) (by simp)
  have hrequest := hown.use (p := s.slot.request) (by simp)
  have hresponse := hown.use (p := s.slot.response) (by simp)
  have hsize : conf.readBufferSize - ((0 : Nat) : Int) = conf.readBufferSize := by simp
  simp only [readBlock] at hbuffer hrequest hresponse ⊢
  rw [readStep, if_pos h.status]
  simp only [h.bufferLen, if_true, hsize]
  cases hgot : if 0 < conf.readBufferSize then ev.read else none with
  | none => rfl
  | some n =>
    cases n with
    | zero =>
      simp only [Nat.add_zero, Nat.lt_irrefl, if_false]
      rfl
    | succ n =>
      simp only [bind, Except.bind, pure, Except.pure, Nat.zero_add]
      rw [hbuffer, hrequest, hresponse, if_pos (Nat.succ_pos n)]

/-- An error behind the read closes the connection. -/
theorem error_lands {conf : Config} {ev : SlotEvent} (hopen : ev.closed = false) {s : SlotState}
    (h : Waits s) (n : Nat) (hkeeps : keepsOpen conf ev = false) (hsome : ¬ReadsNothing conf ev) :
    ∃ s', closeStep ⟨{ s.slot with
        readBuffer := (readBlock ev s).1
        bufferLen := n
        status := .error }, (readBlock ev s).2⟩ = .ok s' ∧ Landed conf ev s s' := by
  have hown := h.readBlock ev
  have hpointers : (readBlock ev s).2.Owns
      (Heap.blocks [(readBlock ev s).1, s.slot.request, s.slot.response]) := by
    rw [hown.blocks_eq]
    exact hown
  obtain ⟨s', hclose, hslot, hlost⟩ := closeStep_closes (s := ⟨{ s.slot with
    readBuffer := (readBlock ev s).1
    bufferLen := n
    status := .error }, (readBlock ev s).2⟩) hpointers (.inl rfl)
  refine ⟨s', hclose, landed_of_reset hslot hkeeps hsome ?_⟩
  rw [hlost, hopen]
  rfl

/-- **A data event**, on a connection that waits. -/
theorem connectionHandle_waits (conf : Config) {ev : SlotEvent} (hopen : ev.closed = false)
    {s : SlotState} (h : Waits s) :
    ∃ s', connectionHandle conf ev s = .ok s' ∧ Landed conf ev s s' := by
  have hwelcome : welcome s = .ok s := by
    rw [welcome, if_neg (by rw [h.status]; decide)]
    rfl
  have hown := h.readBlock ev
  have hlost : (readBlock ev s).2.lost =
      if ev.closed then s.heap.lost else (s.heap.overwrite s.slot.readBuffer).lost := by
    rw [hopen]
    rfl
  rw [connectionHandle, hwelcome]
  simp only [bind, Except.bind]
  rw [readStep_waits conf ev h]
  cases hgot : if 0 < conf.readBufferSize then ev.read else none with
  | none =>
    -- the read failed
    refine error_lands hopen h s.slot.bufferLen (by simp [keepsOpen, hgot]) ?_
    rintro ⟨-, hsize, hzero⟩
    simp [hsize, hzero] at hgot
  | some n =>
    have hroom : 0 < conf.readBufferSize ∧ ev.read = some n := by
      split at hgot
      · exact ⟨‹_›, hgot⟩
      · simp at hgot
    cases n with
    | zero =>
      -- the connection stays as it is, with one more buffer
      refine ⟨⟨{ s.slot with readBuffer := (readBlock ev s).1 }, (readBlock ev s).2⟩, ?_, ?_⟩
      · simp only [writeStep, h.status, closeStep]
        rfl
      · refine ⟨⟨?_, .inr ⟨h.status, h.bufferLen, hown.ne_null (by simp), hown.ne_null (by simp)⟩⟩,
          ?_, ?_, hlost⟩
        · show Heap.Owns _ (Heap.blocks _)
          rw [hown.blocks_eq]
          exact hown
        · simp [keepsOpen, hopen, hgot, h.status]
        · exact ⟨fun _ => ⟨hopen, hroom⟩, fun _ => hown.ne_null (by simp)⟩
    | succ n =>
      have hsome : ¬ReadsNothing conf ev := by
        rintro ⟨-, -, hzero⟩
        simp [hzero] at hroom
      cases hparsed : ev.parsed with
      | false =>
        exact error_lands hopen h (n + 1) (by simp [keepsOpen, hgot, hparsed]) hsome
      | true =>
        obtain ⟨s', hanswer, htidy, hbuffer, hlost', hstatus⟩ := answer_ok ev (s := ⟨{ s.slot with
          readBuffer := (readBlock ev s).1
          bufferLen := n + 1
          status := .writing }, (readBlock ev s).2⟩) rfl hown
        refine ⟨s', hanswer, htidy, ?_, ?_, hlost'.trans hlost⟩
        · simp [keepsOpen, hopen, hgot, hparsed, hstatus]
        · exact ⟨fun hne => absurd hbuffer hne, fun hz => absurd hz hsome⟩

/-! ## Events -/

/-- `connection_start` makes a connection that waits, whatever the slot held. -/
theorem waits_start (alloc : Allocator) (s : SlotState) :
    let s' := connectionStart alloc s
    Waits { s' with slot := { s'.slot with status := .reading } } :=
  ⟨rfl, rfl, (((Heap.Owns.nil _).malloc alloc).malloc alloc)⟩

/-- The first data event of a connection, on a slot that holds no block. -/
theorem slotEvent_start (conf : Config) {ev : SlotEvent} (hopen : ev.closed = false)
    {s : SlotState} (hstatus : s.slot.status = .inactive) (hbuffer : s.slot.readBuffer ∉ s.heap.live)
    (hrequest : s.slot.request ∉ s.heap.live) (hresponse : s.slot.response ∉ s.heap.live) :
    ∃ s', slotEvent conf ev s = .ok s' ∧ Landed conf ev s s' := by
  obtain ⟨s', hevent, hland⟩ := connectionHandle_waits conf hopen (waits_start ev.alloc s)
  refine ⟨s', ?_, hland.tidy, hland.status, hland.readBuffer, ?_⟩
  · rw [slotEvent, hopen, if_neg (by decide), if_pos hstatus]
    exact hevent
  · have hlost := hland.lost
    have hnull : ((connectionStart ev.alloc s).heap.overwrite
        (connectionStart ev.alloc s).slot.readBuffer) = (connectionStart ev.alloc s).heap :=
      Heap.overwrite_null _
    simp only [hopen, Bool.false_eq_true, if_false] at hlost ⊢
    rw [hlost, hnull, Heap.overwrite_of_not_live hbuffer]
    simp only [connectionStart, Heap.overwrite_of_not_live hbuffer,
      Heap.overwrite_of_not_live hresponse, Heap.overwrite_of_not_live hrequest]
    rfl

theorem pointers_eq_nil_iff {slot : Slot} :
    slot.pointers = [] ↔ slot.readBuffer = null ∧ slot.request = null ∧ slot.response = null := by
  simp [Slot.pointers, Heap.blocks]

/-- **An event**, on a slot between events. -/
theorem slotEvent_tidy (conf : Config) (ev : SlotEvent) {s : SlotState} (h : Tidy s) :
    ∃ s', slotEvent conf ev s = .ok s' ∧ Landed conf ev s s' := by
  cases hclosed : ev.closed with
  | true =>
    obtain ⟨s', hclose, hslot, hlost⟩ := closeStep_closes
      (s := { s with slot := { s.slot with status := .closed } }) h.owns (.inr (.inl rfl))
    refine ⟨s', ?_, landed_of_reset hslot (by simp [keepsOpen, hclosed]) ?_ ?_⟩
    · rw [slotEvent, hclosed, if_pos rfl]
      exact hclose
    · rintro ⟨hopen, -⟩
      simp [hclosed] at hopen
    · rw [hlost, hclosed, if_pos rfl]
  | false =>
    rcases h.state with ⟨hstatus, hnone⟩ | ⟨hstatus, hlen, hreq, hresp⟩
    · obtain ⟨hbuffer, hreq, hresp⟩ := pointers_eq_nil_iff.mp hnone
      have hnull := s.heap.null_not_live
      exact slotEvent_start conf hclosed hstatus (hbuffer ▸ hnull) (hreq ▸ hnull) (hresp ▸ hnull)
    · have hown : s.heap.Owns [s.slot.request, s.slot.response] := by
        have hpointers : s.slot.pointers =
            Heap.blocks [s.slot.readBuffer] ++ [s.slot.request, s.slot.response] := by
          simp [Slot.pointers, Heap.blocks, List.filter_cons, hreq, hresp]
          split <;> rfl
        refine h.owns.sublist ?_
        rw [hpointers]
        exact List.sublist_append_right _ _
      rw [slotEvent, hclosed, if_neg (by decide), if_neg (by rw [hstatus]; decide)]
      exact connectionHandle_waits conf hclosed ⟨hstatus, hlen, hown⟩

end ComfirmDmarc.Server.Ownership
