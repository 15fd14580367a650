import ComfirmDmarc.Server.SlotEvents

/-!
# Server -- the invariant of a connection slot

Which slots are sound at every point of their events, and that the pointers of
a slot are those of the connection that `workerEvent` computes with.
-/

namespace ComfirmDmarc.Server.Ownership

open CMemory Blocks

/-! ## The invariant of a slot -/

/-- **A slot between events**: without a connection it holds no pointer; with
one its request and its response are there and nothing is left of the last
read. No pointer of it was overwritten while its block was in use. -/
structure Sound (s : SlotState) : Prop where
  status : s.slot.status = .inactive ∨ s.slot.status = .reading
  inactive : s.slot.status = .inactive →
    s.slot.readBuffer = null ∧ s.slot.request = null ∧ s.slot.response = null
  reading : s.slot.status = .reading →
    s.slot.request ∈ s.heap.live ∧ s.slot.response ∈ s.heap.live ∧
      s.slot.readBuffer = null ∧ s.slot.bufferLen = 0
  lost : s.heap.lost = []

/-- **The slot is sound at every point of the events**, and none of them frees
or uses what is not a block of the connection. -/
def AlwaysSound (conf : Config) (s : SlotState) : List SlotEvent → Prop
  | [] => Sound s
  | ev :: evs => Sound s ∧ ∃ s', slotEvent conf ev s = .ok s' ∧ AlwaysSound conf s' evs

/-- The memory of the slot was zero. -/
def Cleared (mem : Slot) : Prop :=
  mem.readBuffer = null ∧ mem.request = null ∧ mem.response = null

/-! ## Runs of events -/

/-- What is sound is tidy, and left no buffer behind. -/
theorem sound_iff {s : SlotState} (h : Tidy s) :
    Sound s ↔ s.slot.readBuffer = null ∧ s.heap.lost = [] := by
  constructor
  · intro hs
    refine ⟨?_, hs.lost⟩
    rcases hs.status with hstatus | hstatus
    · exact (hs.inactive hstatus).1
    · exact (hs.reading hstatus).2.2.1
  · rintro ⟨hbuffer, hlost⟩
    rcases h.state with ⟨hstatus, hnone⟩ | ⟨hstatus, hlen, hreq, hresp⟩
    · refine ⟨.inl hstatus, fun _ => pointers_eq_nil_iff.mp hnone, fun hr => ?_, hlost⟩
      rw [hstatus] at hr
      cases hr
    · refine ⟨.inr hstatus, fun hi => ?_, fun _ => ⟨?_, ?_, hbuffer, hlen⟩, hlost⟩
      · rw [hstatus] at hi
        cases hi
      · exact h.owns.live _ (by simp [Slot.pointers, Heap.blocks, hreq])
      · exact h.owns.live _ (by simp [Slot.pointers, Heap.blocks, hresp])

/-- **One event**: a sound slot stays sound unless the event reads nothing. -/
theorem sound_step {conf : Config} {ev : SlotEvent} {s s' : SlotState} (h : Landed conf ev s s')
    (hlost : (s.heap.overwrite s.slot.readBuffer).lost = []) (hlost' : s.heap.lost = []) :
    Sound s' ↔ ¬ReadsNothing conf ev := by
  rw [sound_iff h.tidy, ← h.readBuffer, not_not]
  refine ⟨And.left, fun hbuffer => ⟨hbuffer, ?_⟩⟩
  rw [h.lost]
  split
  · exact hlost'
  · exact hlost

/-- **A run**: from a sound slot, the events keep it sound exactly when none of
them reads nothing. -/
theorem alwaysSound_iff (conf : Config) {s : SlotState} (h : Tidy s) (hs : Sound s)
    (evs : List SlotEvent) : AlwaysSound conf s evs ↔ ∀ ev ∈ evs, ¬ReadsNothing conf ev := by
  induction evs generalizing s with
  | nil => simpa [AlwaysSound] using hs
  | cons ev evs ih =>
    obtain ⟨s', hevent, hland⟩ := slotEvent_tidy conf ev h
    obtain ⟨hbuffer, hlost⟩ := (sound_iff h).mp hs
    have hstep := sound_step hland (by rw [hbuffer, Heap.overwrite_null, hlost]) hlost
    rw [List.forall_mem_cons, AlwaysSound, ← hstep]
    constructor
    · rintro ⟨-, s'', hevent', hrest⟩
      obtain rfl : s' = s'' := Except.ok.inj (hevent.symm.trans hevent')
      have hs' : Sound s' := by
        cases evs with
        | nil => exact hrest
        | cons ev' evs => exact hrest.1
      exact ⟨hs', (ih hland.tidy hs').mp hrest⟩
    · rintro ⟨hs', hrest⟩
      exact ⟨hs, s', hevent, (ih hland.tidy hs').mpr hrest⟩

theorem tidy_setup {mem : Slot} (h : Cleared mem) : Tidy (connectionSetup mem) := by
  have hnone : (connectionSetup mem).slot.pointers = [] := pointers_eq_nil_iff.mpr h
  refine ⟨?_, .inl ⟨rfl, hnone⟩⟩
  rw [hnone]
  exact .nil _

/-- A slot that was not cleared and is closed first: its garbage is freed. -/
theorem slotEvent_closed_garbage (conf : Config) {ev : SlotEvent} (hclosed : ev.closed = true)
    {mem : Slot} (h : ¬Cleared mem) (s : SlotState) :
    slotEvent conf ev (connectionSetup mem) ≠ .ok s := by
  have hfree : ∀ p, Heap.empty.freeUnlessNull p =
      if p = null then .ok Heap.empty else .error (.invalidFree p) := fun p => rfl
  have hreset : slotEvent conf ev (connectionSetup mem) =
      connectionReset ⟨{ mem with status := .closed }, .empty⟩ := by
    rw [slotEvent, hclosed, if_pos rfl]
    rfl
  rw [hreset, connectionReset]
  simp only [hfree, bind, Except.bind]
  by_cases hbuffer : mem.readBuffer = null
  · by_cases hrequest : mem.request = null
    · have hresponse : mem.response ≠ null := fun hr => h ⟨hbuffer, hrequest, hr⟩
      simp [hbuffer, hrequest, hresponse, hfree]
    · simp [hbuffer, hrequest, hfree]
  · simp [hbuffer]

theorem sound_setup_iff (mem : Slot) : Sound (connectionSetup mem) ↔ Cleared mem := by
  constructor
  · exact fun hs => hs.inactive rfl
  · exact fun h => (sound_iff (tidy_setup h)).mpr ⟨h.1, rfl⟩

/-- A slot with its memory, over all of its events. -/
theorem alwaysSound_setup_iff (conf : Config) (mem : Slot) (evs : List SlotEvent) :
    AlwaysSound conf (connectionSetup mem) evs ↔
      Cleared mem ∧ ∀ ev ∈ evs, ¬ReadsNothing conf ev := by
  constructor
  · intro h
    have hcleared : Cleared mem := by
      refine (sound_setup_iff mem).mp ?_
      cases evs with
      | nil => exact h
      | cons ev evs => exact h.1
    have hs := (sound_setup_iff mem).mpr hcleared
    exact ⟨hcleared, (alwaysSound_iff conf (tidy_setup hcleared) hs evs).mp h⟩
  · rintro ⟨h, hevs⟩
    exact (alwaysSound_iff conf (tidy_setup h) ((sound_setup_iff mem).mpr h) evs).mpr hevs

/-- The first event of a slot lands over zero memory, or if it does not close. -/
theorem slotEvent_first (conf : Config) {mem : Slot} {ev : SlotEvent}
    (h : Cleared mem ∨ ev.closed = false) :
    ∃ s, slotEvent conf ev (connectionSetup mem) = .ok s ∧
      Landed conf ev (connectionSetup mem) s := by
  rcases h with h | h
  · exact slotEvent_tidy conf ev (tidy_setup h)
  · exact slotEvent_start conf h rfl (Finset.notMem_empty _) (Finset.notMem_empty _)
      (Finset.notMem_empty _)

/-- A slot from its first event on. -/
theorem alwaysSound_first_iff (conf : Config) (mem : Slot) (ev : SlotEvent) (evs : List SlotEvent) :
    (∃ s, slotEvent conf ev (connectionSetup mem) = .ok s ∧ AlwaysSound conf s evs) ↔
      (Cleared mem ∨ ev.closed = false) ∧ ∀ e ∈ ev :: evs, ¬ReadsNothing conf e := by
  have hlost : ((connectionSetup mem).heap.overwrite (connectionSetup mem).slot.readBuffer).lost = [] := by
    rw [Heap.overwrite_of_not_live (Finset.notMem_empty _)]
    rfl
  constructor
  · rintro ⟨s, hevent, hrest⟩
    have hor : Cleared mem ∨ ev.closed = false := by
      -- a closing event over other memory frees a pointer that is none
      by_contra hno
      rw [not_or, Bool.not_eq_false] at hno
      exact slotEvent_closed_garbage conf hno.2 hno.1 s hevent
    obtain ⟨s', hevent', hl⟩ := slotEvent_first conf hor
    obtain rfl : s' = s := Except.ok.inj (hevent'.symm.trans hevent)
    have hs : Sound s' := by
      cases evs with
      | nil => exact hrest
      | cons ev' evs => exact hrest.1
    refine ⟨hor, List.forall_mem_cons.mpr ⟨(sound_step hl hlost rfl).mp hs, ?_⟩⟩
    exact (alwaysSound_iff conf hl.tidy hs evs).mp hrest
  · rintro ⟨hor, hevs⟩
    obtain ⟨s, hevent, hl⟩ := slotEvent_first conf hor
    obtain ⟨hfirst, hevs⟩ := List.forall_mem_cons.mp hevs
    have hs := (sound_step hl hlost rfl).mpr hfirst
    exact ⟨s, hevent, (alwaysSound_iff conf hl.tidy hs evs).mpr hevs⟩

/-- **A slot is sound at every point of its events exactly when its memory was
zero and no event reads nothing**; and from its first event on, when its memory
was zero or that event is not a closing one, and no event reads nothing. -/
theorem slot_sound_iff (conf : Config) (mem : Slot) :
    (∀ evs, AlwaysSound conf (connectionSetup mem) evs ↔
      Cleared mem ∧ ∀ ev ∈ evs, ¬ReadsNothing conf ev) ∧
    (∀ ev evs, (∃ s, slotEvent conf ev (connectionSetup mem) = .ok s ∧ AlwaysSound conf s evs) ↔
      (Cleared mem ∨ ev.closed = false) ∧ ∀ e ∈ ev :: evs, ¬ReadsNothing conf e) :=
  ⟨alwaysSound_setup_iff conf mem, alwaysSound_first_iff conf mem⟩

section Examples

/-- A slot whose memory was zero. -/
def zeroSlot : Slot := ⟨.inactive, 0, null, null, null⟩

/-- An event whose `read` returns 0. -/
def emptyRead : SlotEvent := ⟨false, .upward, some 0, true, false, false, true⟩

/-- The peer closes the connection. -/
def peerClosed : SlotEvent := ⟨true, .upward, none, false, false, false, false⟩

/-- A `read` of nothing leaves its buffer in the slot, and closing a slot before
its first `connection_start` frees what its memory held. -/
theorem slot_unsound :
    ¬AlwaysSound .default (connectionSetup zeroSlot) [emptyRead] ∧
      slotEvent .default peerClosed (connectionSetup { zeroSlot with request := 64 }) =
        .error (.invalidFree 64) := by
  refine ⟨fun h => ?_, rfl⟩
  have hcleared : Cleared zeroSlot := ⟨rfl, rfl, rfl⟩
  have hevs := (alwaysSound_iff .default (tidy_setup hcleared) h.1 [emptyRead]).mp h
  exact hevs emptyRead (by simp) ⟨rfl, by decide, rfl⟩

end Examples

/-! ## The slot of a connection and what it holds -/

/-- The pointers of the slot are those of the connection's objects. -/
structure Represents (s : SlotState) (c : Connection) : Prop where
  status : s.slot.status = c.status
  bufferLen : c.status = .reading → s.slot.bufferLen = c.bufferLen
  readBuffer : s.slot.readBuffer = null ↔ c.readBuffer = none
  request : s.slot.request = null ↔ c.request = none
  response : s.slot.response = null ↔ c.response = none

/-- What the parser and the peer decide in an event. -/
def slotEventOf (conf : Config) (alloc : Allocator) (ev : Event) (c : Connection) : SlotEvent :=
  let got := received conf ev.env
  let d := dialogue conf (ahead ev.env (got.getD [])) (startRequest ev.env c) (got.getD [])
  { closed := ev.closed
    alloc := alloc
    read := got.map List.length
    parsed := !d.error
    inData := d.request.inData
    quit := d.request.quit
    sent := (sendResponse conf ev.env.send d.replies.flatten).2 }

theorem represents_of_tidy {s : SlotState} (h : Tidy s) {c : Connection} (hc : Between c)
    (hstatus : s.slot.status = c.status) (hbuffer : s.slot.readBuffer = null ↔ c.readBuffer = none) :
    Represents s c := by
  rcases hc with rfl | ⟨req, hw⟩
  · have hinactive : s.slot.status = .inactive := hstatus
    rcases h.state with ⟨-, hnone⟩ | ⟨hreading, -⟩
    · obtain ⟨-, hreq, hresp⟩ := pointers_eq_nil_iff.mp hnone
      have hopen : Server.connectionReset.status ≠ .reading := by decide
      exact ⟨hstatus, fun hr => absurd hr hopen, hbuffer, by simp [hreq, Server.connectionReset],
        by simp [hresp, Server.connectionReset]⟩
    · rw [hinactive] at hreading
      cases hreading
  · rw [hw.status] at hstatus
    rcases h.state with ⟨hinactive, -⟩ | ⟨-, hlen, hreq, hresp⟩
    · rw [hstatus] at hinactive
      cases hinactive
    · exact ⟨by rw [hstatus, hw.status], fun _ => by rw [hlen, hw.bufferLen], hbuffer,
        by simp [hreq, hw.request], by simp [hresp, hw.response]⟩

theorem conn_answer (conf : Config) (env : Env) (req : Request) (replies : List Bytes) (w : World) :
    let sent := (sendResponse conf env.send replies.flatten).2
    (answer conf env req replies w).conn.status =
        (if sent && !req.quit then .reading else .inactive) ∧
      (answer conf env req replies w).conn.readBuffer = none := by
  simp only [answer, nextConnection]
  generalize (sendResponse conf env.send replies.flatten).2 = sent
  cases sent <;> cases req.quit <;> simp [Server.connectionReset]

/-- What a read of something leaves of the connection. -/
theorem conn_handleRead {conf : Config} {env : Env} {req : Request} {got : Bytes} {w w' : World}
    (hready : Ready req) (h : handleRead conf env req got w = .ok w') :
    let d := dialogue conf (ahead env got) req got
    let sent := (sendResponse conf env.send d.replies.flatten).2
    w'.conn.status = (if !d.error && sent && !d.request.quit then .reading else .inactive) ∧
      w'.conn.readBuffer = none := by
  have hd := hready.inDialogue.dialogue conf (ahead env got) got
  simp only [handleRead, conclude] at h ⊢
  generalize dialogue conf (ahead env got) req got = d at h hd ⊢
  cases herror : d.error with
  | true =>
    rw [herror, if_pos rfl, Except.ok.injEq] at h
    rw [← h]
    exact ⟨rfl, rfl⟩
  | false =>
    rw [herror, if_neg (by decide)] at h
    cases hprocess : d.request.process with
    | false =>
      rw [hprocess, if_neg (by decide), Except.ok.injEq] at h
      rw [← h]
      exact conn_answer conf env d.request d.replies w
    | true =>
      rw [hprocess, if_pos rfl] at h
      cases hp : processData env d.request w with
      | error e =>
        rw [hp] at h
        cases h
      | ok p =>
        rw [hp] at h
        have hquit : p.1.quit = d.request.quit :=
          processData_quit (show processData env d.request w = .ok (p.1, p.2) from hp)
        rw [← Except.ok.inj h, ← hquit]
        exact conn_answer conf env p.1 d.replies p.2

/-- What an event leaves of the connection. -/
theorem conn_event {conf : Config} (alloc : Allocator) {ev : Event} {w w' : World}
    (hw : Between w.conn) (hstep : Step conf w ev w') :
    w'.conn.status =
        (if keepsOpen conf (slotEventOf conf alloc ev w.conn) then .reading else .inactive) ∧
      (w'.conn.readBuffer = none ↔ ¬ReadsNothing conf (slotEventOf conf alloc ev w.conn)) := by
  have hsize : (if 0 < conf.readBufferSize then (received conf ev.env).map List.length else none) =
      (received conf ev.env).map List.length := by
    rw [received]
    split <;> rfl
  have hready := hw.ready ev.env
  simp only [keepsOpen, ReadsNothing, slotEventOf, hsize]
  rw [Step, workerEvent_eq conf ev w hw, eventRead] at hstep
  cases hclosed : ev.closed with
  | true =>
    rw [hclosed, if_pos rfl, Except.ok.injEq] at hstep
    rw [← hstep]
    exact ⟨rfl, by simp [Server.connectionReset]⟩
  | false =>
    rw [hclosed, if_neg (by decide)] at hstep
    cases hgot : received conf ev.env with
    | none =>
      rw [hgot] at hstep
      rw [← Except.ok.inj hstep]
      exact ⟨rfl, by simp [Server.connectionReset]⟩
    | some got =>
      rw [hgot] at hstep
      -- something was read, so there was room
      have hroom : 0 < conf.readBufferSize := by
        rw [received] at hgot
        split at hgot
        · assumption
        · cases hgot
      cases got with
      | nil =>
        rw [← Except.ok.inj hstep]
        exact ⟨rfl, by simp [hroom]⟩
      | cons c got =>
        obtain ⟨hstatus, hbuffer⟩ := conn_handleRead hready hstep
        refine ⟨hstatus, ?_⟩
        rw [hbuffer]
        simp

/-- **The slot model is what `workerEvent` does to the pointers**: an event of
the worker is matched by the event of the slot that has its outcome. -/
theorem slotEvent_represents {conf : Config} (alloc : Allocator) {ev : Event} {w w' : World}
    {s : SlotState} (hw : Between w.conn) (hs : Tidy s) (hstep : Step conf w ev w') :
    ∃ s', slotEvent conf (slotEventOf conf alloc ev w.conn) s = .ok s' ∧ Tidy s' ∧
      Represents s' w'.conn := by
  obtain ⟨s', hevent, hland⟩ := slotEvent_tidy conf (slotEventOf conf alloc ev w.conn) hs
  obtain ⟨hstatus, hbuffer⟩ := conn_event alloc hw hstep
  refine ⟨s', hevent, hland.tidy, represents_of_tidy hland.tidy (between_step hw hstep) ?_ ?_⟩
  · rw [hland.status, hstatus]
  · rw [hbuffer, ← hland.readBuffer, not_not]

/-- Every run of a connection is one of its slot. -/
theorem run_represents {conf : Config} (alloc : Allocator) {w w' : World} {evs : List Event}
    (hw : w.conn = Server.connectionReset) (hrun : Transition.Run (Step conf) w evs w') :
    ∃ sevs s', Transition.Run (fun s sev s' => slotEvent conf sev s = .ok s')
      (connectionSetup zeroSlot) sevs s' ∧ Represents s' w'.conn := by
  have hstart : Tidy (connectionSetup zeroSlot) ∧ Between w.conn ∧
      Represents (connectionSetup zeroSlot) w.conn := by
    have htidy : Tidy (connectionSetup zeroSlot) := tidy_setup ⟨rfl, rfl, rfl⟩
    exact ⟨htidy, .inl hw, represents_of_tidy htidy (.inl hw) (by rw [hw]; rfl)
      (by rw [hw]; simp [connectionSetup, zeroSlot, Server.connectionReset])⟩
  have hstep : ∀ (w : World) (ev : Event) (w' : World) (s : SlotState),
      Tidy s ∧ Between w.conn ∧ Represents s w.conn → Step conf w ev w' →
        ∃ sev s', True ∧ slotEvent conf sev s = .ok s' ∧
          Tidy s' ∧ Between w'.conn ∧ Represents s' w'.conn := by
    rintro w ev w' s ⟨htidy, hbetween, -⟩ h
    obtain ⟨s', hevent, htidy', hrep⟩ := slotEvent_represents alloc hbetween htidy h
    exact ⟨_, s', trivial, hevent, htidy', between_step hbetween h, hrep⟩
  obtain ⟨sevs, s', -, hrun', -, -, hrep⟩ := hrun.simulate (L := fun _ _ => True)
    (R := fun w s => Tidy s ∧ Between w.conn ∧ Represents s w.conn) hstep hstart
  exact ⟨sevs, s', hrun', hrep⟩

end ComfirmDmarc.Server.Ownership
