import ComfirmDmarc.Queue.Refinement

/-!
# Queue -- processes killed in the middle of a call

Stores into the shared mapping outlive the process that made them, so a
process killed inside `pq_enqueue` or `pq_dequeue` leaves a prefix of the
call's stores behind. The offset of a call is stored before `message_count`,
and nothing repairs the header when the file is opened again: `SafeKill` is
the exact condition under which the queue survives.
-/

namespace ComfirmDmarc.Queue

open Transition

variable {α : Type}

/-! ## Prefixes of a call -/

/-- A call a process can be killed in. -/
inductive PendingCall (α : Type)
  | enqueue (source : α)
  | dequeue

/-- The stores the call makes on `f`. -/
def PendingCall.stores (f : QueueFile α) : PendingCall α → List (Store α)
  | .enqueue source =>
    if f.shared.messageMaxCount ≤ f.shared.messageCount then [] else enqueueStores f source
  | .dequeue => if f.shared.messageCount ≤ 0 then [] else dequeueStores f

/-- The file the completed call leaves. -/
def PendingCall.complete (f : QueueFile α) : PendingCall α → QueueFile α
  | .enqueue source => (pqEnqueue f source).2
  | .dequeue => (pqDequeue f).2.2

/-- The file left by a process killed after `k` stores of the call. -/
def PendingCall.killed (f : QueueFile α) (c : PendingCall α) (k : Nat) : QueueFile α :=
  applyStores f ((c.stores f).take k)

theorem PendingCall.applyStores_stores (f : QueueFile α) (c : PendingCall α) :
    applyStores f (c.stores f) = c.complete f := by
  cases c with
  | enqueue source =>
    simp only [stores, complete, pqEnqueue]
    split <;> rfl
  | dequeue =>
    simp only [stores, complete, pqDequeue]
    split <;> rfl

/-- When the kill does no harm: the call stores nothing, the process dies
before the first offset store or after the last store, or the ring has one
slot and both offset stores are done. -/
def SafeKill (N : Int) (f : QueueFile α) : PendingCall α → Nat → Prop
  | .enqueue _, k => f.shared.messageCount = N ∨ k ≤ 1 ∨ 4 ≤ k ∨ (N = 1 ∧ k = 3)
  | .dequeue, k => f.shared.messageCount = 0 ∨ k = 0 ∨ 3 ≤ k ∨ (N = 1 ∧ k = 2)

/-- **What a kill must not break**: the next `pq_init` opens the file, its
header is a healthy ring, it holds what was held before the call or what is
held after it, and every later run follows the FIFO law from there. -/
def CrashAtomic (N : Int) (zero : α) (f : QueueFile α) (c : PendingCall α) (k : Nat) : Prop :=
  ∃ ref f', pqInit .allOk zero (some (c.killed f k)) N = (.ok ref, some f') ∧
    RingInv N f' ∧
    (contents N f' = contents N f ∨ contents N f' = contents N (c.complete f)) ∧
    ∀ p cs w, Run (Step N zero) (World.start p ref f') cs w →
      BoundedFifo.left (cs.map Call.event) ++ contents N w.file
        = contents N f' ++ BoundedFifo.entered (cs.map Call.event)

/-! ## The file after each store -/

theorem applyStores_size (f : QueueFile α) (ss : List (Store α)) :
    (applyStores f ss).size = f.size := by
  induction ss generalizing f with
  | nil => rfl
  | cons s ss ih =>
    rw [applyStores_cons, ih]
    cases s <;> rfl

/-- In a ring of `N` slots only the ring of one slot maps an offset to itself. -/
theorem next_eq_self_iff {N o : Int} (h0 : 0 ≤ o) (h : o < N) : (o + 1) % N = o ↔ N = 1 := by
  constructor
  · intro heq
    rcases Int.lt_or_eq_of_le (Int.add_one_le_iff.mpr h) with hlt | hend
    · rw [Int.emod_eq_of_lt (by omega) hlt] at heq
      omega
    · rw [hend, Int.emod_self] at heq
      omega
  · rintro rfl
    omega

/-- A healthy header has one write offset. -/
theorem RingInv.writeOffset_iff {N : Int} {f : QueueFile α} (hI : RingInv N f) (v : Int) :
    RingInv N ((Store.writeOffset v).apply f) ↔ v = f.shared.writeOffset := by
  constructor
  · intro h
    rw [hI.writeEq]
    exact h.writeEq
  · rintro rfl
    exact ⟨hI.1, hI.2, hI.3, hI.4, hI.5, hI.6, hI.7, hI.8⟩

/-- A healthy header has one read offset. -/
theorem RingInv.readOffset_iff {N : Int} {f : QueueFile α} (hI : RingInv N f) (v : Int) :
    RingInv N ((Store.readOffset v).apply f) ↔ v = f.shared.readOffset := by
  constructor
  · intro h
    have heq : f.shared.writeOffset = (v + f.shared.messageCount) % N := h.writeEq
    have h0 : 0 ≤ v := h.readNonneg
    have hlt : v < N := h.readLt
    rw [hI.writeEq, Int.emod_eq_emod_iff_emod_sub_eq_zero] at heq
    have hmod : (f.shared.readOffset - v) % N = 0 := by
      rw [← heq]
      congr 1
      omega
    have hr0 := hI.readNonneg
    have hr := hI.readLt
    obtain ⟨q, hq⟩ := Int.dvd_of_emod_eq_zero hmod
    have hq0 : q = 0 := by
      rcases Int.lt_trichotomy q 0 with hneg | hz | hpos
      · have := Int.mul_le_mul_of_nonneg_left (show q ≤ -1 by omega) (show 0 ≤ N by omega)
        omega
      · exact hz
      · have := Int.mul_le_mul_of_nonneg_left (show 1 ≤ q by omega) (show 0 ≤ N by omega)
        omega
    subst hq0
    omega
  · rintro rfl
    exact ⟨hI.1, hI.2, hI.3, hI.4, hI.5, hI.6, hI.7, hI.8⟩

/-- The ring after the message is copied and before any offset moves. -/
theorem RingInv.slot_written {N : Int} {f : QueueFile α} (hI : RingInv N f) (m : α)
    (hroom : f.shared.messageCount < N) :
    RingInv N ((Store.slot f.shared.writeOffset m).apply f) ∧
      contents N ((Store.slot f.shared.writeOffset m).apply f) = contents N f := by
  refine ⟨⟨hI.1, hI.2, hI.3, hI.4, hI.5, hI.6, hI.7, hI.8⟩, ?_⟩
  have hc := hI.countNonneg
  simp only [contents, Store.apply, hI.writeOffset_eq_slot]
  exact RingBuffer.contents_update _ (by omega) m

/-! ## The kill points of each call -/

section Killed

variable {N : Int} {f : QueueFile α} (hN : Fits N) (hI : RingInv N f)
include hN hI

theorem enqueue_killed (m : α) (hroom : f.shared.messageCount < N) (k : Nat) :
    RingInv N (PendingCall.killed f (.enqueue m) k) ↔ k ≤ 1 ∨ 4 ≤ k ∨ (N = 1 ∧ k = 3) := by
  obtain ⟨hslot, -⟩ := hI.slot_written m hroom
  have hstores : (PendingCall.enqueue m).stores f = enqueueStores f m := by
    rw [PendingCall.stores, if_neg (by rw [hI.maxCount]; omega)]
  have hraw : toInt (f.shared.writeOffset + 1) = f.shared.writeOffset + 1 :=
    toInt_of_range (by have := hI.writeNonneg; omega)
      (by have := hI.writeLt; have := hN.lt; omega)
  have hnext := next_offset hN hI.writeNonneg hI.writeLt
  rw [hI.maxCount.symm] at hnext
  match k with
  -- nothing is stored, then the slot only, then the raw offset, then
  -- the wrapped one; with the counter the call is complete
  | 0 => exact ⟨fun _ => by omega, fun _ => hI⟩
  | 1 =>
    refine ⟨fun _ => by omega, fun _ => ?_⟩
    rw [PendingCall.killed, hstores]
    exact hslot
  | 2 =>
    have hcut : PendingCall.killed f (.enqueue m) 2
        = (Store.writeOffset (toInt (f.shared.writeOffset + 1))).apply
            ((Store.slot f.shared.writeOffset m).apply f) := by
      rw [PendingCall.killed, hstores]
      rfl
    have hwo : ((Store.slot f.shared.writeOffset m).apply f).shared.writeOffset
        = f.shared.writeOffset := rfl
    rw [hcut, hslot.writeOffset_iff, hraw, hwo]
    omega
  | 3 =>
    have hcut : PendingCall.killed f (.enqueue m) 3
        = (Store.writeOffset ((f.shared.writeOffset + 1) % N)).apply
            ((Store.slot f.shared.writeOffset m).apply f) := by
      rw [PendingCall.killed, hstores, ← hI.maxCount, ← hnext]
      rfl
    have hwo : ((Store.slot f.shared.writeOffset m).apply f).shared.writeOffset
        = f.shared.writeOffset := rfl
    rw [hcut, hslot.writeOffset_iff, hwo, next_eq_self_iff hI.writeNonneg hI.writeLt]
    omega
  | k + 4 =>
    have hall : PendingCall.killed f (.enqueue m) (k + 4) = (pqEnqueue f m).2 := by
      rw [PendingCall.killed, List.take_of_length_le (by rw [hstores]; simp [enqueueStores]),
        PendingCall.applyStores_stores]
      rfl
    rw [hall]
    exact ⟨fun _ => by omega, fun _ => (pqEnqueue_room hN hI m hroom).2.1⟩

theorem dequeue_killed (hsome : 0 < f.shared.messageCount) (k : Nat) :
    RingInv N (PendingCall.killed f .dequeue k) ↔ k = 0 ∨ 3 ≤ k ∨ (N = 1 ∧ k = 2) := by
  have hstores : PendingCall.dequeue.stores f = dequeueStores f := by
    rw [PendingCall.stores, if_neg (by omega)]
  have hraw : toInt (f.shared.readOffset + 1) = f.shared.readOffset + 1 :=
    toInt_of_range (by have := hI.readNonneg; omega)
      (by have := hI.readLt; have := hN.lt; omega)
  have hnext := next_offset hN hI.readNonneg hI.readLt
  rw [hI.maxCount.symm] at hnext
  match k with
  -- the same without a slot
  | 0 => exact ⟨fun _ => by omega, fun _ => hI⟩
  | 1 =>
    have hcut : PendingCall.killed f .dequeue 1
        = (Store.readOffset (toInt (f.shared.readOffset + 1))).apply f := by
      rw [PendingCall.killed, hstores]
      rfl
    rw [hcut, hI.readOffset_iff, hraw]
    omega
  | 2 =>
    have hcut : PendingCall.killed f .dequeue 2
        = (Store.readOffset ((f.shared.readOffset + 1) % N)).apply f := by
      rw [PendingCall.killed, hstores, ← hI.maxCount, ← hnext]
      rfl
    rw [hcut, hI.readOffset_iff, next_eq_self_iff hI.readNonneg hI.readLt]
    omega
  | k + 3 =>
    have hall : PendingCall.killed f .dequeue (k + 3) = (pqDequeue f).2.2 := by
      rw [PendingCall.killed, List.take_of_length_le (by rw [hstores]; simp [dequeueStores]),
        PendingCall.applyStores_stores]
      rfl
    obtain ⟨x, -, -, hI', -⟩ := pqDequeue_some hN hI hsome
    rw [hall]
    exact ⟨fun _ => by omega, fun _ => hI'⟩

/-- A kill leaves a healthy header exactly at the safe points. -/
theorem killed_ringInv_iff (c : PendingCall α) (k : Nat) :
    RingInv N (c.killed f k) ↔ SafeKill N f c k := by
  cases c with
  | enqueue m =>
    rcases Int.lt_or_eq_of_le hI.countLe with hlt | heq
    · rw [enqueue_killed hN hI m hlt]
      simp only [SafeKill]
      omega
    · have hsame : PendingCall.killed f (.enqueue m) k = f := by
        simp [PendingCall.killed, PendingCall.stores, hI.maxCount, heq]
      rw [hsame]
      exact ⟨fun _ => .inl heq, fun _ => hI⟩
  | dequeue =>
    rcases Int.lt_or_eq_of_le hI.countNonneg with hlt | heq
    · rw [dequeue_killed hN hI hlt]
      simp only [SafeKill]
      omega
    · have hsame : PendingCall.killed f .dequeue k = f := by
        simp [PendingCall.killed, PendingCall.stores, ← heq]
      rw [hsame]
      exact ⟨fun _ => .inl heq.symm, fun _ => hI⟩

omit hN in
/-- At a safe point an enqueue has happened as a whole or not at all. -/
theorem enqueue_killed_contents (m : α) {k : Nat} (hsafe : SafeKill N f (.enqueue m) k) :
    contents N (PendingCall.killed f (.enqueue m) k) = contents N f ∨
      f.shared.messageCount < N ∧
      contents N (PendingCall.killed f (.enqueue m) k) = contents N (pqEnqueue f m).2 := by
  rcases Int.lt_or_eq_of_le hI.countLe with hroom | hfull
  · obtain ⟨-, hslot⟩ := hI.slot_written m hroom
    have hstores : (PendingCall.enqueue m).stores f = enqueueStores f m := by
      rw [PendingCall.stores, if_neg (by rw [hI.maxCount]; omega)]
    rcases hsafe with h | h | h | ⟨-, rfl⟩
    · omega
    · left
      match k, h with
      | 0, _ => rfl
      | 1, _ =>
        rw [PendingCall.killed, hstores]
        exact hslot
    · right
      rw [PendingCall.killed, List.take_of_length_le (by rw [hstores]; simpa [enqueueStores] using h),
        PendingCall.applyStores_stores]
      exact ⟨hroom, rfl⟩
    · left
      rw [PendingCall.killed, hstores]
      exact hslot
  · left
    simp [PendingCall.killed, PendingCall.stores, hI.maxCount, hfull]

/-- At a safe point a dequeue has happened as a whole or not at all. -/
theorem dequeue_killed_contents {k : Nat} (hsafe : SafeKill N f .dequeue k) :
    contents N (PendingCall.killed f .dequeue k) = contents N f ∨
      0 < f.shared.messageCount ∧
      contents N (PendingCall.killed f .dequeue k) = contents N (pqDequeue f).2.2 := by
  rcases Int.lt_or_eq_of_le hI.countNonneg with hsome | hnone
  · have hstores : PendingCall.dequeue.stores f = dequeueStores f := by
      rw [PendingCall.stores, if_neg (by omega)]
    rcases hsafe with h | rfl | h | ⟨hone, rfl⟩
    · omega
    · exact .inl rfl
    · right
      rw [PendingCall.killed, List.take_of_length_le (by rw [hstores]; simpa [dequeueStores] using h),
        PendingCall.applyStores_stores]
      exact ⟨hsome, rfl⟩
    · left
      have hnext := next_offset hN hI.readNonneg hI.readLt
      rw [(next_eq_self_iff hI.readNonneg hI.readLt).mpr hone, ← hI.maxCount] at hnext
      have hcut : PendingCall.killed f .dequeue 2
          = (Store.readOffset f.shared.readOffset).apply f := by
        rw [PendingCall.killed, hstores]
        simp only [dequeueStores, List.take_succ_cons, List.take_zero, applyStores_cons,
          applyStores_nil, Store.apply, hnext]
      rw [hcut]
      rfl
  · left
    simp [PendingCall.killed, PendingCall.stores, ← hnone]

end Killed

/-! ## Runs with kills -/

/-- A completed call, or the death of a process after `k` stores of a call. -/
inductive Label (α : Type)
  | call (c : Call α)
  | kill (p : Nat) (c : PendingCall α) (k : Nat)

/-- The calls of `Step`, and kills at any store of a call. -/
inductive CrashStep (N : Int) (zero : α) : World α → Label α → World α → Prop
  | call {w w' : World α} {c : Call α} : Step N zero w c w' → CrashStep N zero w (.call c) w'
  | kill {w : World α} {p : Nat} {ref : PqRef} (c : PendingCall α) (k : Nat) :
      w.handles p = some ref →
      CrashStep N zero w (.kill p c k) ⟨c.killed w.file k, Function.update w.handles p none⟩

/-- Every kill hits a safe point. -/
def KillsSafely (N : Int) (w : World α) : Label α → Prop
  | .call _ => True
  | .kill _ c k => SafeKill N w.file c k

/-- What a label can show of the queue: a killed call happened or did not. -/
inductive Shows : Label α → BoundedFifo.Event α → Prop
  | call (c : Call α) : Shows (.call c) c.event
  | undone (p : Nat) (c : PendingCall α) (k : Nat) : Shows (.kill p c k) .tau
  | enqueued (p : Nat) (m : α) (k : Nat) : Shows (.kill p (.enqueue m) k) (.enq m true)
  | dequeued (p : Nat) (x : α) (k : Nat) : Shows (.kill p .dequeue k) (.deq (some x))

/-- The state a healthy queue file keeps between calls and kills. -/
structure Healthy (N : Int) (w : World α) : Prop where
  ring : RingInv N w.file
  size : w.file.size = sizeofPqRefShared + N * sizeofMail

theorem step_size {N : Int} {zero : α} {w w' : World α} {c : Call α}
    (h : Step N zero w c w') : w'.file.size = w.file.size := by
  cases h with
  | enqueue m _ =>
    simp only [pqEnqueue]
    split
    · rfl
    · exact applyStores_size _ _
  | dequeue _ =>
    simp only [pqDequeue]
    split
    · rfl
    · exact applyStores_size _ _
  | close _ => rfl
  | init sys _ hf =>
    rw [pqInit_keeps_file] at hf
    cases hf
    rfl

/-- **A call, or a kill at a safe point, is one step of the bounded FIFO.** -/
theorem crashStep_refines {N : Int} (hN : Fits N) {zero : α} {w w' : World α} {l : Label α}
    (hw : Healthy N w) (h : Guarded (KillsSafely N) (CrashStep N zero) w l w') :
    Healthy N w' ∧ ∃ e, Shows l e ∧
      BoundedFifo.Step N.toNat (contents N w.file) e (contents N w'.file) := by
  obtain ⟨hok, hstep⟩ := h
  cases hstep with
  | call hcall =>
    obtain ⟨hI', hfifo⟩ := step_refines hN hw.ring hcall
    exact ⟨⟨hI', (step_size hcall).trans hw.size⟩, _, .call _, hfifo⟩
  | @kill p ref c k _ =>
    have hI' := (killed_ringInv_iff hN hw.ring c k).mpr hok
    refine ⟨⟨hI', (applyStores_size _ _).trans hw.size⟩, ?_⟩
    cases c with
    | enqueue m =>
      rcases enqueue_killed_contents hw.ring m hok with hsame | ⟨hroom, hdone⟩
      · refine ⟨.tau, .undone p _ k, ?_⟩
        simp only [hsame]
        exact .tau _
      · refine ⟨.enq m true, .enqueued p m k, ?_⟩
        simp only [hdone, (pqEnqueue_room hN hw.ring m hroom).2.2]
        have hlen := contents_length N w.file
        have := hw.ring.countNonneg
        exact .enq _ m (by omega)
    | dequeue =>
      rcases dequeue_killed_contents hN hw.ring hok with hsame | ⟨hsome, hdone⟩
      · refine ⟨.tau, .undone p _ k, ?_⟩
        simp only [hsame]
        exact .tau _
      · obtain ⟨x, -, -, -, hcont⟩ := pqDequeue_some hN hw.ring hsome
        refine ⟨.deq (some x), .dequeued p x k, ?_⟩
        simp only [hdone, hcont]
        exact .deq x _

/-- The kill points that do no harm, from any healthy state. -/
theorem crashAtomic_iff {N : Int} (hN : Fits N) (zero : α) {w : World α} (hw : Healthy N w)
    (c : PendingCall α) (k : Nat) : CrashAtomic N zero w.file c k ↔ SafeKill N w.file c k := by
  obtain ⟨ref, hopen⟩ := pqInit_reopens zero hN
    (f := c.killed w.file k) ((applyStores_size _ _).trans hw.size)
  constructor
  · rintro ⟨ref', f', hinit, hI', -, -⟩
    rw [hopen] at hinit
    cases hinit
    exact (killed_ringInv_iff hN hw.ring c k).mp hI'
  · intro hsafe
    have hI' := (killed_ringInv_iff hN hw.ring c k).mpr hsafe
    refine ⟨ref, _, hopen, hI', ?_, fun p cs v hrun => ?_⟩
    · cases c with
      | enqueue m => exact (enqueue_killed_contents hw.ring m hsafe).imp id And.right
      | dequeue => exact (dequeue_killed_contents hN hw.ring hsafe).imp id And.right
    · exact BoundedFifo.run_conserves (run_refines hN hI' hrun).2

/-- **Crash atomicity, exactly.** In every run of calls and kills in which each
kill hits a safe point the header stays a healthy ring and the FIFO law holds;
and in each state reached so, a kill is atomic if and only if its point is
safe. -/
theorem crash_atomic_iff_safe_kill {N : Int} (hN : Fits N) (zero : Mail) (p : Nat) :
    ∃ ref f, pqInit .allOk zero none N = (.ok ref, some f) ∧
      ∀ ls w, Run (Guarded (KillsSafely N) (CrashStep N zero)) (World.start p ref f) ls w →
        RingInv N w.file ∧
        (∃ es, List.Forall₂ Shows ls es ∧
          BoundedFifo.left es ++ contents N w.file = BoundedFifo.entered es) ∧
        ∀ c k, CrashAtomic N zero w.file c k ↔ SafeKill N w.file c k := by
  refine ⟨_, _, pqInit_creates zero hN, fun ls w hrun => ?_⟩
  obtain ⟨es, q, hshows, hfifo, hw, rfl⟩ := hrun.simulate
    (R := fun w q => Healthy N w ∧ q = contents N w.file)
    (fun s l t q ⟨hs, hq⟩ hstep =>
      have ⟨hs', e, he, hstep'⟩ := crashStep_refines hN hs hstep
      ⟨e, _, he, hq ▸ hstep', hs', rfl⟩)
    ⟨⟨created_ringInv zero hN, rfl⟩, rfl⟩
  refine ⟨hw.ring, ⟨es, hshows, ?_⟩, fun c k => crashAtomic_iff hN zero hw c k⟩
  have hlaw := BoundedFifo.run_conserves hfifo
  rwa [show contents N (World.start p ⟨sizeofPqRefShared + N * sizeofMail⟩
    (created zero N)).file = [] from created_contents zero N, List.nil_append] at hlaw

theorem crash_atomic_iff_safe_kill_two :
    ∃ ref f, pqInit .allOk Mail.zero none 2 = (.ok ref, some f) ∧
      ∀ ls w, Run (Guarded (KillsSafely 2) (CrashStep 2 Mail.zero)) (World.start 0 ref f) ls w →
        ∀ c k, CrashAtomic 2 Mail.zero w.file c k ↔ SafeKill 2 w.file c k := by
  obtain ⟨ref, f, h, hruns⟩ :=
    crash_atomic_iff_safe_kill (N := 2) ⟨by decide, by decide⟩ Mail.zero 0
  exact ⟨ref, f, h, fun ls w hrun => (hruns ls w hrun).2.2⟩

/-- A producer killed between `write_offset` and `message_count`, on a queue of
two slots that was just created: the offset has moved, the count has not. -/
theorem enqueue_killed_before_count :
    ∃ ref f, pqInit .allOk Mail.zero none 2 = (.ok ref, some f) ∧
      ¬ CrashAtomic 2 Mail.zero f (.enqueue Mail.zero) 3 := by
  have hN : Fits 2 := ⟨by decide, by decide⟩
  refine ⟨_, _, pqInit_creates Mail.zero hN, ?_⟩
  have hw : Healthy 2 (World.start 0 ⟨sizeofPqRefShared + 2 * sizeofMail⟩ (created Mail.zero 2)) :=
    ⟨created_ringInv Mail.zero hN, rfl⟩
  intro h
  have hsafe : SafeKill 2 (created Mail.zero 2) (.enqueue Mail.zero) 3 :=
    (crashAtomic_iff hN Mail.zero hw (.enqueue Mail.zero) 3).mp h
  simp [SafeKill, created] at hsafe

end ComfirmDmarc.Queue
