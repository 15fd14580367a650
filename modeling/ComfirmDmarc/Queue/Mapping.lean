import ComfirmDmarc.Queue.Refinement

/-!
# Queue -- the mapped length

`pq_init` maps a queue file in two ways: the create path asks for the header
and all slots, `pq_open` for the slots alone. The operations address the slots
behind the header in both cases, and `pq_close` unmaps what the header of the
file says.
-/

namespace ComfirmDmarc.Queue

open Transition

variable {α : Type}

/-! ## The bytes of a mapping -/

/-- The bytes `[lo, hi)` of a mapping. -/
structure ByteRange where
  lo : Int
  hi : Int
  deriving DecidableEq, Repr

/-- A range that lies inside of the first `len` bytes. -/
def ByteRange.Within (r : ByteRange) (len : Int) : Prop := 0 ≤ r.lo ∧ r.hi ≤ len

/-- The bytes of slot `k`. -/
def slotRange (k : Int) : ByteRange :=
  ⟨sizeofPqRefShared + k * sizeofMail, sizeofPqRefShared + (k + 1) * sizeofMail⟩

/-- The slot that `pq_enqueue` copies to. -/
def enqueueSlot (f : QueueFile α) : Option Int :=
  if f.shared.messageMaxCount ≤ f.shared.messageCount then none else some f.shared.writeOffset

/-- The slot that `pq_dequeue` copies from. -/
def dequeueSlot (f : QueueFile α) : Option Int :=
  if f.shared.messageCount ≤ 0 then none else some f.shared.readOffset

theorem pqEnqueue_slots (f : QueueFile α) (m : α) :
    (pqEnqueue f m).2.slots =
      match enqueueSlot f with
      | none => f.slots
      | some k => Function.update f.slots k m := by
  unfold pqEnqueue enqueueSlot
  split
  · rfl
  · rfl

theorem pqDequeue_destination (f : QueueFile α) :
    (pqDequeue f).2.1 = (dequeueSlot f).map f.slots := by
  unfold pqDequeue dequeueSlot
  split
  · rfl
  · rfl

/-- The byte ranges that the next call of `pq_enqueue` or `pq_dequeue` copies. -/
def copiedRanges (f : QueueFile α) : List ByteRange :=
  ((enqueueSlot f).toList ++ (dequeueSlot f).toList).map slotRange

/-- The length that `pq_close` unmaps. -/
def closeLen (f : QueueFile α) : Int := toSize (sizeofPqRefShared + f.shared.memorySize)

/-! ## What a handle owes -/

/-- **The mapping of a handle covers the queue**: its length is that of the
header and all slots, and in every state that calls of any processes lead to,
the copies lie inside of it and `pq_close` unmaps exactly it. -/
structure CoversQueue (N : Int) (zero : α) (ref : PqRef) (f : QueueFile α) : Prop where
  mapped : ref.mappedLen = sizeofPqRefShared + N * sizeofMail
  copies : ∀ handles cs w, Run (Step N zero) ⟨f, handles⟩ cs w →
    ∀ r ∈ copiedRanges w.file, r.Within ref.mappedLen
  unmaps : ∀ handles cs w, Run (Step N zero) ⟨f, handles⟩ cs w → closeLen w.file = ref.mappedLen

/-- A slot below the capacity lies in the mapping of the whole queue. -/
theorem slotRange_within {N k : Int} (h0 : 0 ≤ k) (h : k < N) :
    (slotRange k).Within (sizeofPqRefShared + N * sizeofMail) := by
  simp only [ByteRange.Within, slotRange, sizeofPqRefShared, show sizeofMail = 31044 from rfl]
  omega

/-- In a mapping that leaves out the header, the last slot sticks out. -/
theorem slotRange_within_slots_iff {N k : Int} (h0 : 0 ≤ k) :
    (slotRange k).Within (N * sizeofMail) ↔ k < N - 1 := by
  simp only [ByteRange.Within, slotRange, sizeofPqRefShared, show sizeofMail = 31044 from rfl]
  omega

theorem RingInv.copiedRanges_within {N : Int} {f : QueueFile α} (hI : RingInv N f) :
    ∀ r ∈ copiedRanges f, r.Within (sizeofPqRefShared + N * sizeofMail) := by
  intro r hr
  simp only [copiedRanges, List.mem_map, List.mem_append, Option.mem_toList] at hr
  obtain ⟨k, hk, rfl⟩ := hr
  rcases hk with hk | hk
  · simp only [enqueueSlot, Option.ite_none_left_eq_some, Option.some.injEq] at hk
    obtain ⟨-, rfl⟩ := hk
    exact slotRange_within hI.writeNonneg hI.writeLt
  · simp only [dequeueSlot, Option.ite_none_left_eq_some, Option.some.injEq] at hk
    obtain ⟨-, rfl⟩ := hk
    exact slotRange_within hI.readNonneg hI.readLt

/-- No call changes the size in the header. -/
theorem step_memorySize {N : Int} {zero : α} {w w' : World α} {c : Call α}
    (h : Step N zero w c w') : w'.file.shared.memorySize = w.file.shared.memorySize := by
  cases h with
  | enqueue m _ =>
    unfold pqEnqueue
    split
    · rfl
    · rfl
  | dequeue _ =>
    unfold pqDequeue
    split
    · rfl
    · rfl
  | close _ => rfl
  | init sys _ hf =>
    rw [pqInit_keeps_file] at hf
    cases hf
    rfl

/-- What every state after the creation of a queue keeps. -/
structure CreatedInv (N : Int) (f : QueueFile α) : Prop where
  ring : RingInv N f
  memorySize : f.shared.memorySize = N * sizeofMail

theorem run_createdInv {N : Int} (hN : Fits N) {zero : α} {w w' : World α} {cs : List (Call α)}
    (hI : CreatedInv N w.file) (h : Run (Step N zero) w cs w') : CreatedInv N w'.file := by
  refine h.invariant (P := fun w => CreatedInv N w.file) ?_ hI
  intro s c t hs hstep
  exact ⟨(step_refines hN hs.ring hstep).1, (step_memorySize hstep).trans hs.memorySize⟩

theorem Fits.mapped_range {N : Int} (hN : Fits N) :
    0 ≤ N * sizeofMail ∧ sizeofPqRefShared + N * sizeofMail < 2 ^ 64 := by
  obtain ⟨h1, h2⟩ := hN
  simp only [sizeofPqRefShared, show sizeofMail = 31044 from rfl] at h2 ⊢
  omega

theorem CreatedInv.closeLen_eq {N : Int} (hN : Fits N) {f : QueueFile α} (h : CreatedInv N f) :
    closeLen f = sizeofPqRefShared + N * sizeofMail := by
  obtain ⟨hpos, hlt⟩ := hN.mapped_range
  rw [closeLen, h.memorySize]
  exact toSize_of_range (by simp only [sizeofPqRefShared]; omega) hlt

/-- A handle from the create path, whatever succeeded on the way. -/
theorem pqInit_none_ok {sys : SysCalls} {zero : α} {N : Int} (hN : Fits N) {ref : PqRef}
    {f : QueueFile α} (h : pqInit sys zero none N = (.ok ref, some f)) :
    ref = ⟨sizeofPqRefShared + N * sizeofMail⟩ ∧ f = created zero N := by
  have hcreates := pqInit_creates zero hN
  simp only [pqInit, SysCalls.allOk] at h hcreates
  split_ifs at h hcreates
  all_goals
    simp only [Prod.mk.injEq, Except.ok.injEq, Option.some.injEq, reduceCtorEq, false_and]
      at h hcreates
  exact ⟨h.1.symm.trans hcreates.1, h.2.symm.trans hcreates.2⟩

/-- A handle from `pq_open` maps the slots alone. -/
theorem pqInit_some_ok {sys : SysCalls} {zero : α} {N : Int} (hN : Fits N) {ref : PqRef}
    {g f : QueueFile α} (h : pqInit sys zero (some g) N = (.ok ref, some f)) :
    ref = ⟨N * sizeofMail⟩ := by
  obtain ⟨hpos, hlt⟩ := hN.mapped_range
  have hlen : toSize (N * sizeofMail) = N * sizeofMail :=
    toSize_of_range hpos (by simp only [sizeofPqRefShared] at hlt; omega)
  simp only [pqInit, pqOpen, hlen] at h
  split_ifs at h
  all_goals simp_all

/-- **The mapped length covers the queue exactly on the create path.** -/
theorem pqInit_coversQueue_iff {N : Int} (hN : Fits N) (sys : SysCalls) (zero : Mail)
    (file : Option (QueueFile Mail)) {ref : PqRef} {f : QueueFile Mail}
    (hinit : pqInit sys zero file N = (.ok ref, some f)) :
    CoversQueue N zero ref f ↔ file = none := by
  constructor
  · intro hcovers
    cases file with
    | none => rfl
    | some g =>
      have hmapped := hcovers.mapped
      rw [pqInit_some_ok hN hinit] at hmapped
      simp only [sizeofPqRefShared] at hmapped
      omega
  · rintro rfl
    obtain ⟨rfl, rfl⟩ := pqInit_none_ok hN hinit
    have hcreated : CreatedInv N (created zero N) := ⟨created_ringInv zero hN, rfl⟩
    refine ⟨rfl, ?_, ?_⟩
    · intro handles cs w hrun
      exact (run_createdInv hN hcreated hrun).ring.copiedRanges_within
    · intro handles cs w hrun
      exact (run_createdInv hN hcreated hrun).closeLen_eq hN

theorem pqInit_coversQueue_two :
    CoversQueue 2 Mail.zero ⟨62112⟩ (created Mail.zero 2) := by
  have hN : Fits 2 := ⟨by decide, by decide⟩
  exact (pqInit_coversQueue_iff hN .allOk Mail.zero none (pqInit_creates Mail.zero hN)).mpr rfl

/-- A queue of one slot, opened again: the mapping ends before its slot does. -/
theorem pqInit_reopened_short :
    ¬∀ (N : Int) (sys : SysCalls) (file : Option (QueueFile Mail)) (ref : PqRef)
      (f : QueueFile Mail), Fits N → pqInit sys Mail.zero file N = (.ok ref, some f) →
      CoversQueue N Mail.zero ref f := by
  intro h
  have hN : Fits 1 := ⟨by decide, by decide⟩
  obtain ⟨ref, hinit⟩ := pqInit_reopens Mail.zero hN (f := created Mail.zero 1) rfl
  have hmapped := (h 1 .allOk _ _ _ hN hinit).mapped
  rw [pqInit_some_ok hN hinit] at hmapped
  exact absurd hmapped (by decide)

end ComfirmDmarc.Queue
