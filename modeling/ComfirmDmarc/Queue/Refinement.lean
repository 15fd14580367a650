import ComfirmDmarc.Queue.PersistedQueue
import ComfirmDmarc.Lib.BoundedFifo
import ComfirmDmarc.Lib.RingBuffer

/-!
# Queue -- the persisted queue is a bounded FIFO

The ring invariant of the file header, the list of messages the file holds,
and one specification lemma for each operation. A `World` is the file and the
handles of any number of processes; its runs are simulated by runs of the
bounded FIFO.
-/

namespace ComfirmDmarc.Queue

open Transition

variable {α : Type}

/-! ## The ring invariant -/

/-- **The header of a healthy queue file** of capacity `N`. -/
structure RingInv (N : Int) (f : QueueFile α) : Prop where
  maxCount : f.shared.messageMaxCount = N
  countNonneg : 0 ≤ f.shared.messageCount
  countLe : f.shared.messageCount ≤ N
  readNonneg : 0 ≤ f.shared.readOffset
  readLt : f.shared.readOffset < N
  writeNonneg : 0 ≤ f.shared.writeOffset
  writeLt : f.shared.writeOffset < N
  writeEq : f.shared.writeOffset = (f.shared.readOffset + f.shared.messageCount) % N

/-- The messages a queue file holds, oldest first. -/
def contents (N : Int) (f : QueueFile α) : List α :=
  RingBuffer.contents f.slots N f.shared.readOffset f.shared.messageCount.toNat

theorem contents_length (N : Int) (f : QueueFile α) :
    (contents N f).length = f.shared.messageCount.toNat := by
  simp [contents]

/-- A capacity whose slots fit an `int`, as `pq_init` computes them. -/
def Fits (N : Int) : Prop := 1 ≤ N ∧ N * sizeofMail < 2 ^ 31

theorem Fits.lt {N : Int} (h : Fits N) : N < 2 ^ 31 - 1 := by
  have := h.2
  simp only [show sizeofMail = 31044 from rfl] at this
  omega

/-- The offset an operation stores last: one slot on, wrapped. -/
theorem next_offset {N o : Int} (hN : Fits N) (h0 : 0 ≤ o) (h : o < N) :
    (toInt (o + 1)).tmod N = (o + 1) % N := by
  have := hN.lt
  rw [toInt_of_range (by omega) (by omega), Int.tmod_eq_emod_of_nonneg (by omega)]

/-! ## The operations -/

/-- The slot an enqueue writes is the one after the last held message. -/
theorem RingInv.writeOffset_eq_slot {N : Int} {f : QueueFile α} (hI : RingInv N f) :
    f.shared.writeOffset
      = RingBuffer.slot N f.shared.readOffset f.shared.messageCount.toNat := by
  have := hI.countNonneg
  rw [RingBuffer.slot, Int.toNat_of_nonneg this, ← hI.writeEq]

theorem pqEnqueue_full {N : Int} {f : QueueFile α} (hI : RingInv N f) (m : α)
    (h : f.shared.messageCount = N) : pqEnqueue f m = (pqMessageSizeReachedError, f) := by
  simp [pqEnqueue, hI.maxCount, h]

theorem pqDequeue_empty {f : QueueFile α} (h : f.shared.messageCount = 0) :
    pqDequeue f = (pqMessageQueueEmptyError, none, f) := by
  simp [pqDequeue, h]

section Operations

variable {N : Int} {f : QueueFile α} (hN : Fits N) (hI : RingInv N f)
include hN hI

theorem applyStores_enqueueStores (m : α) (hroom : f.shared.messageCount < N) :
    applyStores f (enqueueStores f m) =
      { f with
        shared :=
          { f.shared with
            writeOffset := (f.shared.writeOffset + 1) % N
            messageCount := f.shared.messageCount + 1 }
        slots := Function.update f.slots f.shared.writeOffset m } := by
  have hlt := hN.lt
  have hcount : toInt (f.shared.messageCount + 1) = f.shared.messageCount + 1 :=
    toInt_of_range (by have := hI.countNonneg; omega) (by omega)
  simp only [enqueueStores, applyStores_cons, applyStores_nil, Store.apply, hI.maxCount,
    next_offset hN hI.writeNonneg hI.writeLt, hcount]

theorem applyStores_dequeueStores (hsome : 0 < f.shared.messageCount) :
    applyStores f (dequeueStores f) =
      { f with
        shared :=
          { f.shared with
            readOffset := (f.shared.readOffset + 1) % N
            messageCount := f.shared.messageCount - 1 } } := by
  have hlt := hN.lt
  have hcount : toInt (f.shared.messageCount - 1) = f.shared.messageCount - 1 :=
    toInt_of_range (by omega) (by have := hI.countLe; omega)
  simp only [dequeueStores, applyStores_cons, applyStores_nil, Store.apply, hI.maxCount,
    next_offset hN hI.readNonneg hI.readLt, hcount]

theorem pqEnqueue_room (m : α) (hroom : f.shared.messageCount < N) :
    (pqEnqueue f m).1 = 0 ∧ RingInv N (pqEnqueue f m).2 ∧
      contents N (pqEnqueue f m).2 = contents N f ++ [m] := by
  have hpos : 0 < N := by have := hN.1; omega
  have hc := hI.countNonneg
  have hret : pqEnqueue f m = (0, applyStores f (enqueueStores f m)) := by
    rw [pqEnqueue, if_neg (by rw [hI.maxCount]; omega)]
  rw [hret, applyStores_enqueueStores hN hI m hroom]
  refine ⟨rfl, ?_, ?_⟩
  · constructor
    · exact hI.maxCount
    · show 0 ≤ f.shared.messageCount + 1
      omega
    · show f.shared.messageCount + 1 ≤ N
      omega
    · exact hI.readNonneg
    · exact hI.readLt
    · exact Int.emod_nonneg _ (by omega)
    · exact Int.emod_lt_of_pos _ hpos
    · show (f.shared.writeOffset + 1) % N = (f.shared.readOffset + (f.shared.messageCount + 1)) % N
      rw [hI.writeEq, Int.emod_add_emod, Int.add_assoc]
  · have hnat : (f.shared.messageCount + 1).toNat = f.shared.messageCount.toNat + 1 := by omega
    simp only [contents, hnat, hI.writeOffset_eq_slot]
    exact RingBuffer.contents_push _ (by omega) m

theorem pqDequeue_some (hsome : 0 < f.shared.messageCount) :
    ∃ x, (pqDequeue f).1 = 0 ∧ (pqDequeue f).2.1 = some x ∧ RingInv N (pqDequeue f).2.2 ∧
      contents N f = x :: contents N (pqDequeue f).2.2 := by
  have hpos : 0 < N := by have := hN.1; omega
  have hret : pqDequeue f
      = (0, some (f.slots f.shared.readOffset), applyStores f (dequeueStores f)) := by
    rw [pqDequeue, if_neg (by omega)]
  rw [hret, applyStores_dequeueStores hN hI hsome]
  refine ⟨_, rfl, rfl, ?_, ?_⟩
  · constructor
    · exact hI.maxCount
    · show 0 ≤ f.shared.messageCount - 1
      omega
    · show f.shared.messageCount - 1 ≤ N
      have := hI.countLe
      omega
    · exact Int.emod_nonneg _ (by omega)
    · exact Int.emod_lt_of_pos _ hpos
    · exact hI.writeNonneg
    · exact hI.writeLt
    · show f.shared.writeOffset
        = ((f.shared.readOffset + 1) % N + (f.shared.messageCount - 1)) % N
      rw [hI.writeEq, Int.emod_add_emod]
      congr 1
      omega
  · have hnat : f.shared.messageCount.toNat = (f.shared.messageCount - 1).toNat + 1 := by omega
    simp only [contents]
    rw [hnat, RingBuffer.contents_pop _ hI.readNonneg hI.readLt]

/-- An enqueue fails exactly on a queue that holds `N` messages. -/
theorem pqEnqueue_fails_iff (m : α) :
    (pqEnqueue f m).1 ≠ 0 ↔ ((contents N f).length : Int) = N := by
  have hc := hI.countNonneg
  have hl := hI.countLe
  rw [contents_length]
  rcases Int.lt_or_eq_of_le hl with hlt | heq
  · simp only [(pqEnqueue_room hN hI m hlt).1]
    omega
  · rw [pqEnqueue_full hI m heq]
    simp only [pqMessageSizeReachedError]
    omega

/-- A dequeue fails exactly on a queue that holds no message. -/
theorem pqDequeue_fails_iff : (pqDequeue f).1 ≠ 0 ↔ contents N f = [] := by
  have hc := hI.countNonneg
  rcases Int.lt_or_eq_of_le hc with hlt | heq
  · obtain ⟨x, hret, -, -, hcont⟩ := pqDequeue_some hN hI hlt
    simp [hret, hcont]
  · rw [pqDequeue_empty heq.symm]
    have : contents N f = [] := by
      rw [← List.length_eq_zero_iff, contents_length]
      omega
    simp [this, pqMessageQueueEmptyError]

end Operations

/-! ## Creation and reopening -/

def created (zero : α) (N : Int) : QueueFile α :=
  { size := sizeofPqRefShared + N * sizeofMail
    shared := ⟨0, 0, 0, N, N * sizeofMail⟩
    slots := fun _ => zero }

theorem pqInit_creates (zero : α) {N : Int} (hN : Fits N) :
    pqInit .allOk zero none N =
      (.ok ⟨sizeofPqRefShared + N * sizeofMail⟩, some (created zero N)) := by
  have hpos : 0 ≤ N * sizeofMail := by
    have := hN.1
    simp only [show sizeofMail = 31044 from rfl]
    omega
  have hlt := hN.2
  have hmem : toInt (toSize (N * sizeofMail)) = N * sizeofMail := by
    rw [toSize_of_range hpos (by omega), toInt_of_range hpos hlt]
  have hmap : toSize (sizeofPqRefShared + N * sizeofMail) = sizeofPqRefShared + N * sizeofMail :=
    toSize_of_range (by simp only [sizeofPqRefShared]; omega) (by simp only [sizeofPqRefShared]; omega)
  have hseek : ¬ Int.bmod (sizeofPqRefShared + N * sizeofMail) (2 ^ 64) - 1 < 0 := by
    rw [Int.bmod_eq_of_le (by simp only [sizeofPqRefShared]; omega)
      (by simp only [sizeofPqRefShared]; omega)]
    simp only [sizeofPqRefShared]
    omega
  simp only [pqInit, hmem, hmap, SysCalls.allOk, if_neg hseek, created]
  simp

theorem created_ringInv (zero : α) {N : Int} (hN : Fits N) : RingInv N (created zero N) := by
  have := hN.1
  constructor <;> simp [created] <;> omega

theorem created_contents (zero : α) (N : Int) : contents N (created zero N) = [] := rfl

/-- Opening a file of the right size succeeds and leaves the file alone. -/
theorem pqInit_reopens (zero : α) {N : Int} (hN : Fits N) {f : QueueFile α}
    (hsize : f.size = sizeofPqRefShared + N * sizeofMail) :
    ∃ ref, pqInit .allOk zero (some f) N = (.ok ref, some f) := by
  have hpos : 0 ≤ sizeofMail * N := by
    have := hN.1
    simp only [show sizeofMail = 31044 from rfl]
    omega
  have hlt := hN.2
  rw [Int.mul_comm] at hsize hlt
  have hmatch : sizeMatches f N = true := by
    have hbound : sizeofMail * N + sizeofPqRefShared < 2 ^ 31 := by
      simp only [show sizeofMail = 31044 from rfl, sizeofPqRefShared] at hlt ⊢
      omega
    have hint : toInt f.size = f.size := by
      rw [hsize]
      exact toInt_of_range (by simp only [sizeofPqRefShared]; omega) (by omega)
    rw [sizeMatches, hint, hsize, toSize_of_range hpos (by omega)]
    exact beq_self_eq_true _
  refine ⟨⟨toSize (N * sizeofMail)⟩, ?_⟩
  simp [pqInit, pqOpen, hmatch, SysCalls.allOk]

/-- However the opening of an existing file ends, the file stays as it was. -/
theorem pqInit_keeps_file (sys : SysCalls) (zero : α) (f : QueueFile α) (N : Int) :
    (pqInit sys zero (some f) N).2 = some f := by
  simp only [pqInit]
  split
  · rfl
  · split <;> rfl

/-! ## Processes sharing the file -/

/-- The queue file and the handles the processes hold on it. -/
structure World (α : Type) where
  file : QueueFile α
  handles : Nat → Option PqRef

/-- A call a process made, with what it returned. -/
inductive Call (α : Type)
  | enqueue (p : Nat) (source : α) (ret : Int)
  | dequeue (p : Nat) (ret : Int) (destination : Option α)
  | close (p : Nat)
  | init (p : Nat) (ret : Except Int PqRef)

/-- One atomic call of one process on a queue of capacity `N`. `zero` is the
message of zero bytes, which `pq_init` would put in a new file. -/
inductive Step (N : Int) (zero : α) : World α → Call α → World α → Prop
  | enqueue {w : World α} {p : Nat} {ref : PqRef} (m : α) : w.handles p = some ref →
      Step N zero w (.enqueue p m (pqEnqueue w.file m).1)
        { w with file := (pqEnqueue w.file m).2 }
  | dequeue {w : World α} {p : Nat} {ref : PqRef} : w.handles p = some ref →
      Step N zero w (.dequeue p (pqDequeue w.file).1 (pqDequeue w.file).2.1)
        { w with file := (pqDequeue w.file).2.2 }
  | close {w : World α} {p : Nat} {ref : PqRef} : w.handles p = some ref →
      Step N zero w (.close p) { w with handles := Function.update w.handles p none }
  | init {w : World α} {p : Nat} (sys : SysCalls) {f : QueueFile α} : w.handles p = none →
      (pqInit sys zero (some w.file) N).2 = some f →
      Step N zero w (.init p (pqInit sys zero (some w.file) N).1)
        ⟨f, Function.update w.handles p (pqInit sys zero (some w.file) N).1.toOption⟩

/-- The world after process `p` created the queue. -/
def World.start (p : Nat) (ref : PqRef) (f : QueueFile α) : World α :=
  ⟨f, Function.update (fun _ => none) p (some ref)⟩

/-- What a call shows of the queue. -/
def Call.event : Call α → BoundedFifo.Event α
  | .enqueue _ m ret => .enq m (ret == 0)
  | .dequeue _ _ destination => .deq destination
  | .close _ => .tau
  | .init _ _ => .tau

/-- **One call is one step of the bounded FIFO**, and keeps the ring. -/
theorem step_refines {N : Int} (hN : Fits N) {zero : α} {w w' : World α} {c : Call α}
    (hI : RingInv N w.file) (h : Step N zero w c w') :
    RingInv N w'.file ∧
      BoundedFifo.Step N.toNat (contents N w.file) c.event (contents N w'.file) := by
  have h1 := hN.1
  have hlen := contents_length N w.file
  cases h with
  | @enqueue p ref m _ =>
    rcases Int.lt_or_eq_of_le hI.countLe with hlt | heq
    · obtain ⟨hret, hI', hcont⟩ := pqEnqueue_room hN hI m hlt
      refine ⟨hI', ?_⟩
      simp only [Call.event, hret, hcont]
      exact .enq _ m (by have := hI.countNonneg; omega)
    · simp only [pqEnqueue_full hI m heq]
      exact ⟨hI, .full _ m (by omega)⟩
  | dequeue _ =>
    rcases Int.lt_or_eq_of_le hI.countNonneg with hlt | heq
    · obtain ⟨x, -, hx, hI', hcont⟩ := pqDequeue_some hN hI hlt
      refine ⟨hI', ?_⟩
      simp only [Call.event, hx, hcont]
      exact .deq x _
    · simp only [pqDequeue_empty heq.symm, Call.event]
      have hnil : contents N w.file = [] := by
        rw [← List.length_eq_zero_iff]
        omega
      rw [hnil]
      exact ⟨hI, .empty⟩
  | close _ => exact ⟨hI, .tau _⟩
  | @init p sys f _ hf =>
    rw [pqInit_keeps_file] at hf
    cases hf
    exact ⟨hI, .tau _⟩

/-- Whole runs: the ring is kept and the bounded FIFO follows every call. -/
theorem run_refines {N : Int} (hN : Fits N) {zero : α} {w w' : World α} {cs : List (Call α)}
    (hI : RingInv N w.file) (h : Run (Step N zero) w cs w') :
    RingInv N w'.file ∧
      Run (BoundedFifo.Step N.toNat) (contents N w.file) (cs.map Call.event)
        (contents N w'.file) := by
  obtain ⟨q, hrun, hI', rfl⟩ := h.simulate_map
    (R := fun w q => RingInv N w.file ∧ q = contents N w.file) (f := Call.event)
    (fun s i t a ⟨hs, ha⟩ hstep =>
      have hr := step_refines hN hs hstep
      ⟨_, ha ▸ hr.2, hr.1, rfl⟩) ⟨hI, rfl⟩
  exact ⟨hI', hrun⟩

/-- **The persisted queue refines the bounded FIFO.** `pq_init` creates the
queue, and in every run of calls from there the header stays a healthy ring,
each operation fails exactly when the FIFO is full or empty and then changes
nothing, and the dequeued messages followed by the held ones are the enqueued
ones. -/
theorem pq_refines_bounded_fifo {N : Int} (hN : Fits N) (zero : Mail) (p : Nat) :
    ∃ ref f, pqInit .allOk zero none N = (.ok ref, some f) ∧
      ∀ cs w, Run (Step N zero) (World.start p ref f) cs w →
        RingInv N w.file ∧
        (∀ m, ((pqEnqueue w.file m).1 ≠ 0 ↔ ((contents N w.file).length : Int) = N) ∧
          ((pqEnqueue w.file m).1 ≠ 0 → (pqEnqueue w.file m).2 = w.file)) ∧
        ((pqDequeue w.file).1 ≠ 0 ↔ contents N w.file = []) ∧
        ((pqDequeue w.file).1 ≠ 0 → (pqDequeue w.file).2.2 = w.file) ∧
        Run (BoundedFifo.Step N.toNat) [] (cs.map Call.event) (contents N w.file) ∧
        BoundedFifo.left (cs.map Call.event) ++ contents N w.file
          = BoundedFifo.entered (cs.map Call.event) := by
  refine ⟨_, _, pqInit_creates zero hN, fun cs w hrun => ?_⟩
  obtain ⟨hI, hfifo⟩ := run_refines hN (created_ringInv zero hN) hrun
  have hstart : contents N (World.start p ⟨sizeofPqRefShared + N * sizeofMail⟩
      (created zero N)).file = [] := created_contents zero N
  rw [hstart] at hfifo
  refine ⟨hI, fun m => ⟨pqEnqueue_fails_iff hN hI m, pqEnqueue_of_ne_zero⟩,
    pqDequeue_fails_iff hN hI, fun h => ?_, hfifo, ?_⟩
  · rw [pqDequeue_of_ne_zero h]
  · simpa using BoundedFifo.run_conserves hfifo

theorem pq_refines_bounded_fifo_two :
    ∃ ref f, pqInit .allOk Mail.zero none 2 = (.ok ref, some f) ∧
      ∀ cs w, Run (Step 2 Mail.zero) (World.start 0 ref f) cs w →
        BoundedFifo.left (cs.map Call.event) ++ contents 2 w.file
          = BoundedFifo.entered (cs.map Call.event) := by
  obtain ⟨ref, f, h, hruns⟩ := pq_refines_bounded_fifo (N := 2) ⟨by decide, by decide⟩ Mail.zero 0
  exact ⟨ref, f, h, fun cs w hrun => (hruns cs w hrun).2.2.2.2.2⟩

end ComfirmDmarc.Queue
