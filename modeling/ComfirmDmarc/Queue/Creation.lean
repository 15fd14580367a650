import ComfirmDmarc.Queue.Mapping
import ComfirmDmarc.Queue.Sizes

/-!
# Queue -- a creation that is cut short

The create path of `pq_init`, a system call or a store at a time. A process
that is killed on the way leaves the file as the steps before made it, and the
next `pq_init` looks at nothing of it but its size: from the stretching write
to the store of `message_max_count` the file has the right size and a header
without a capacity.
-/

namespace ComfirmDmarc.Queue

open Transition

variable {α : Type}

/-! ## The create path -/

/-- The steps of the create path. -/
inductive CreateStep
  | openFile
  | lseek
  | writeByte
  | mmap
  | storeMemorySize
  | storeMessageMaxCount
  | msync
  | semget
  | semaphoreInit
  deriving DecidableEq, Repr

/-- The steps in the order of the source. -/
def createSteps : List CreateStep :=
  [.openFile, .lseek, .writeByte, .mmap, .storeMemorySize, .storeMessageMaxCount, .msync, .semget,
    .semaphoreInit]

/-- What a step does to the file of a queue of capacity `N`. The stores go to
the shared mapping; seeking, mapping, flushing and the semaphore leave the file
as it is. -/
def CreateStep.apply (zero : α) (N : Int) (file : Option (QueueFile α)) :
    CreateStep → Option (QueueFile α)
  | .openFile => some (.zeroed 0 zero)
  | .writeByte =>
    file.map fun f => { f with
      size := toSize (sizeofPqRefShared + toInt (toSize (N * sizeofMail))) }
  | .storeMemorySize =>
    file.map fun f => { f with
      shared := { f.shared with memorySize := toInt (toSize (N * sizeofMail)) } }
  | .storeMessageMaxCount =>
    file.map fun f => { f with shared := { f.shared with messageMaxCount := N } }
  | .lseek => file
  | .mmap => file
  | .msync => file
  | .semget => file
  | .semaphoreInit => file

/-- The file that a process leaves that is killed after `k` of the steps. -/
def createKilled (zero : α) (N : Int) (k : Nat) : Option (QueueFile α) :=
  (createSteps.take k).foldl (CreateStep.apply zero N) none

/-- **The steps are those of `pq_init`**: together they make its file. -/
theorem createKilled_all (zero : α) {N : Int} (hN : Fits N) {k : Nat} (hk : 6 ≤ k) :
    createKilled zero N k = some (created zero N) := by
  have hlen : createSteps.length = 9 := rfl
  obtain ⟨hpos, hlt⟩ := hN.mapped_range
  have hmem : toInt (toSize (N * sizeofMail)) = N * sizeofMail := by
    rw [toSize_of_range hpos (by simp only [sizeofPqRefShared] at hlt; omega),
      toInt_of_range hpos hN.2]
  have hmap : toSize (sizeofPqRefShared + N * sizeofMail) = sizeofPqRefShared + N * sizeofMail :=
    toSize_of_range (by simp only [sizeofPqRefShared]; omega) hlt
  have hsteps : ∀ j, createKilled zero N (6 + j) = createKilled zero N 6 := by
    intro j
    rcases j with _ | _ | _ | j
    · rfl
    · rfl
    · rfl
    · rw [createKilled, List.take_of_length_le (by rw [hlen]; omega)]
      rfl
  obtain ⟨j, rfl⟩ := Nat.exists_eq_add_of_le hk
  rw [hsteps j]
  simp only [createKilled, createSteps, List.take_succ_cons, List.take_zero, List.foldl_cons,
    List.foldl_nil, CreateStep.apply, Option.map_some, QueueFile.zeroed, hmem, hmap]
  rfl

theorem createKilled_complete (zero : α) {N : Int} (hN : Fits N) :
    createKilled zero N createSteps.length = (pqInit .allOk zero none N).2 := by
  rw [createKilled_all zero hN (by decide), pqInit_creates zero hN]

/-! ## Starting again -/

/-- **What a killed creation must leave**: however the system calls of the next
`pq_init` go, it returns an error, or a queue whose header says its capacity
and its size, and in every run from there the queue follows the empty bounded
FIFO of that capacity. -/
def Recoverable (N : Int) (zero : α) (file : Option (QueueFile α)) : Prop :=
  ∀ (sys : SysCalls) (ref : PqRef), (pqInit sys zero file N).1 = .ok ref →
    ∃ f, (pqInit sys zero file N).2 = some f ∧
      f.shared.messageMaxCount = N ∧ f.shared.memorySize = N * sizeofMail ∧
      ∀ p cs w, Run (Step N zero) (World.start p ref f) cs w →
        Run (BoundedFifo.Step N.toNat) [] (cs.map Call.event) (contents N w.file)

/-- A file that `pq_open` takes has passed its size check. -/
theorem pqInit_some_passes {sys : SysCalls} {zero : α} {f : QueueFile α} {N : Int} {ref : PqRef}
    (h : (pqInit sys zero (some f) N).1 = .ok ref) : PassesSizeCheck f N := by
  intro hbad
  have hopen : pqOpen sys f N = .error pqMemMapInaccurateMessageSize := by
    rw [pqOpen, if_pos hbad]
  simp only [pqInit, hopen] at h
  cases h

theorem Fits.capacity_range {N : Int} (hN : Fits N) : 1 ≤ N ∧ N < 2 ^ 31 := by
  have := hN.lt
  exact ⟨hN.1, by omega⟩

/-- The complete file of a queue is as good as a new one. -/
theorem created_follows {N : Int} (hN : Fits N) (zero : α) (ref : PqRef) (p : Nat)
    {cs : List (Call α)} {w : World α}
    (h : Run (Step N zero) (World.start p ref (created zero N)) cs w) :
    Run (BoundedFifo.Step N.toNat) [] (cs.map Call.event) (contents N w.file) := by
  have hrun := (run_refines hN (created_ringInv zero hN) h).2
  have hstart : contents N (World.start p ref (created zero N)).file = [] := created_contents zero N
  rwa [hstart] at hrun

theorem recoverable_missing {N : Int} (hN : Fits N) (zero : α) : Recoverable N zero none := by
  intro sys ref hok
  cases hfile : (pqInit sys zero none N).2 with
  | none =>
    simp only [pqInit] at hok hfile
    split_ifs at hok hfile
  | some f =>
    obtain ⟨-, rfl⟩ := pqInit_none_ok hN (Prod.ext hok hfile)
    exact ⟨_, rfl, rfl, rfl, fun p cs w hrun => created_follows hN zero ref p hrun⟩

theorem recoverable_created {N : Int} (hN : Fits N) (zero : α) :
    Recoverable N zero (some (created zero N)) := by
  intro sys ref _
  exact ⟨_, pqInit_keeps_file sys zero _ N, rfl, rfl,
    fun p cs w hrun => created_follows hN zero ref p hrun⟩

/-- A file without bytes is refused. -/
theorem recoverable_empty {N : Int} (hN : Fits N) (zero : α) :
    Recoverable N zero (some (.zeroed 0 zero)) := by
  intro sys ref hok
  obtain ⟨h1, hlt⟩ := hN.capacity_range
  exact absurd (pqInit_some_passes hok) (not_passes_empty zero h1 hlt)

/-- A file of the right size is taken, whatever capacity its header has. -/
theorem not_recoverable {N : Int} (hN : Fits N) (zero : α) {f : QueueFile α}
    (hsize : f.size = sizeofPqRefShared + N * sizeofMail) (hcount : f.shared.messageMaxCount ≠ N) :
    ¬Recoverable N zero (some f) := by
  intro h
  obtain ⟨ref, hinit⟩ := pqInit_reopens zero hN hsize
  obtain ⟨g, hg, hmax, -⟩ := h .allOk ref (congrArg Prod.fst hinit)
  rw [pqInit_keeps_file] at hg
  obtain rfl := Option.some.inj hg
  exact hcount hmax

/-- The half-made file: all of its bytes, and no capacity. -/
theorem createKilled_half (zero : α) {N : Int} (hN : Fits N) {k : Nat} (h3 : 3 ≤ k) (h6 : k < 6) :
    ∃ f, createKilled zero N k = some f ∧ f.size = sizeofPqRefShared + N * sizeofMail ∧
      f.shared.messageMaxCount = 0 := by
  obtain ⟨hpos, hlt⟩ := hN.mapped_range
  have hsize : toSize (sizeofPqRefShared + toInt (toSize (N * sizeofMail))) =
      sizeofPqRefShared + N * sizeofMail := by
    rw [toSize_of_range hpos (by simp only [sizeofPqRefShared] at hlt; omega),
      toInt_of_range hpos hN.2]
    exact toSize_of_range (by simp only [sizeofPqRefShared]; omega) hlt
  obtain rfl | rfl | rfl : k = 3 ∨ k = 4 ∨ k = 5 := by omega
  · exact ⟨_, rfl, hsize, rfl⟩
  · exact ⟨_, rfl, hsize, rfl⟩
  · exact ⟨_, rfl, hsize, rfl⟩

/-- **A killed creation is recoverable exactly if** the kill comes before the
stretching write, or after the capacity is stored. -/
theorem createKilled_recoverable_iff {N : Int} (hN : Fits N) (zero : Mail) (k : Nat) :
    Recoverable N zero (createKilled zero N k) ↔ k < 3 ∨ 6 ≤ k := by
  constructor
  · intro h
    by_contra hmid
    obtain ⟨f, hf, hsize, hmax⟩ := createKilled_half zero hN (k := k) (by omega) (by omega)
    rw [hf] at h
    refine not_recoverable hN zero hsize ?_ h
    rw [hmax]
    have := hN.1
    omega
  · rintro (hearly | hlate)
    · obtain rfl | rfl | rfl : k = 0 ∨ k = 1 ∨ k = 2 := by omega
      · exact recoverable_missing hN zero
      · exact recoverable_empty hN zero
      · exact recoverable_empty hN zero
    · rw [createKilled_all zero hN hlate]
      exact recoverable_created hN zero

section Examples

theorem createKilled_recoverable_iff_one :
    Recoverable 1 Mail.zero (createKilled Mail.zero 1 2) ↔ (2 < 3 ∨ 6 ≤ 2) :=
  createKilled_recoverable_iff (N := 1) ⟨by decide, by decide⟩ Mail.zero 2

/-- Killed before the header is stored, a queue of one slot comes back with
room for none: every mail is refused. -/
theorem half_created_queue_full :
    ¬Recoverable 1 Mail.zero (createKilled Mail.zero 1 4) ∧
      ∀ f ∈ createKilled Mail.zero 1 4, ∀ m, pqEnqueue f m = (pqMessageSizeReachedError, f) := by
  have hN : Fits 1 := ⟨by decide, by decide⟩
  obtain ⟨f, hf, hsize, hmax⟩ := createKilled_half Mail.zero hN (k := 4) (by decide) (by decide)
  constructor
  · rw [hf]
    refine not_recoverable hN Mail.zero hsize ?_
    rw [hmax]
    decide
  · intro g hg m
    obtain rfl : f = g := Option.some.inj (hf.symm.trans hg)
    obtain rfl := Option.some.inj hf
    rfl

end Examples

end ComfirmDmarc.Queue
