import ComfirmDmarc.Queue.Refinement

/-!
# Queue -- how large the queue file gets

`pq_init` forms the size of the slots in `size_t`, keeps it in an `int`, and
adds the header to it in `size_t` again; `pq_open` compares a file size that
went through an `int` with the size in `size_t`. This module says for every
`queue_size` what comes of it.
-/

namespace ComfirmDmarc.Queue

variable {α : Type}

/-- The `queue_size` of `config_load_default`. -/
def defaultQueueSize : Int := 100000

/-- The largest capacity whose slots fit an `int`. -/
def largestQueue : Int := 69175

/-- The size check of `pq_open` lets a file through. -/
def PassesSizeCheck (f : QueueFile α) (N : Int) : Prop :=
  ¬(fileSize (some f) ≠ -1 ∧ sizeMatches f N = false)

/-- **What `pq_init` owes a configured size**, on a missing file: an error and
no file that a later start would take for a queue, or a file of the size and
with the header that the capacity calls for; and the size that is configured by
default is not refused. -/
structure SizesQueue (sys : SysCalls) (zero : α) (N : Int) : Prop where
  outcome :
    (∃ e, (pqInit sys zero none N).1 = .error e ∧
      ∀ f ∈ (pqInit sys zero none N).2, ¬PassesSizeCheck f N) ∨
    ∃ ref f, pqInit sys zero none N = (.ok ref, some f) ∧
      f.size = 24 + 31044 * N ∧ f.shared.messageMaxCount = N ∧
      f.shared.memorySize = 31044 * N ∧ PassesSizeCheck f N
  default : sys = .allOk → N = defaultQueueSize → ∃ ref, (pqInit sys zero none N).1 = .ok ref

/-! ## Conversions -/

/-- The `int` that holds the size of the slots. -/
theorem memorySize_eq {N : Int} (h1 : 1 ≤ N) (hlt : N < 2 ^ 31) :
    toInt (toSize (N * sizeofMail)) = toInt (31044 * N) := by
  rw [show sizeofMail = 31044 from rfl, Int.mul_comm,
    toSize_of_range (by omega) (by omega)]

/-- What is converted to a `size_t` and back to a `long` is what it was. -/
theorem bmod_toSize {x : Int} (h0 : -2 ^ 62 ≤ x) (h : x < 2 ^ 62) :
    Int.bmod (toSize x) (2 ^ 64) = x := by
  rw [toSize, show (2 ^ 64 : Int) = ((2 ^ 64 : Nat) : Int) from rfl, Int.emod_bmod]
  exact Int.bmod_eq_of_le (by omega) (by omega)

/-- The size comparison, for capacities that an `int` holds. -/
theorem sizeMatches_iff (f : QueueFile α) {N : Int} (h1 : 1 ≤ N) (hlt : N < 2 ^ 31) :
    sizeMatches f N = true ↔ toInt f.size = 24 + 31044 * N := by
  obtain ⟨hlow, hhigh, -⟩ := toInt_spec f.size
  have hslots : toSize (sizeofMail * N) = 31044 * N := by
    rw [show sizeofMail = 31044 from rfl]
    exact toSize_of_range (by omega) (by omega)
  rw [sizeMatches, beq_iff_eq, hslots, show sizeofPqRefShared = 24 from rfl,
    toSize_of_range (x := 24 + 31044 * N) (by omega) (by omega), toSize]
  omega

theorem passesSizeCheck_iff (f : QueueFile α) {N : Int} (h1 : 1 ≤ N) (hlt : N < 2 ^ 31) :
    PassesSizeCheck f N ↔ toInt f.size = -1 ∨ toInt f.size = 24 + 31044 * N := by
  have hmatch := sizeMatches_iff f h1 hlt
  rw [PassesSizeCheck, fileSize, not_and_or, Bool.not_eq_false, hmatch, ne_eq, not_not]

/-! ## The create path -/

/-- **`pq_init` on a missing file**, by what the size of the slots wraps to. -/
theorem pqInit_missing (sys : SysCalls) (zero : α) {N : Int} (h1 : 1 ≤ N) (hlt : N < 2 ^ 31) :
    pqInit sys zero none N =
      if sys.openOk = false then (.error pqMemMapOpenFileError, none)
      else if 24 + toInt (31044 * N) ≤ 0 then
        (.error pqMemMapLseekStrechError, some (.zeroed 0 zero))
      else if sys.writeOk = false then
        (.error pqMemMapEofWriteByteError, some (.zeroed 0 zero))
      else if sys.mmapOk = false then
        (.error pqMemMapMappingError, some (.zeroed (24 + toInt (31044 * N)) zero))
      else
        (if sys.semgetOk = false then .error pqSemaphoreError
          else .ok ⟨24 + toInt (31044 * N)⟩,
         some ⟨24 + toInt (31044 * N), ⟨0, 0, 0, N, toInt (31044 * N)⟩, fun _ => zero⟩) := by
  obtain ⟨hlow, hhigh, -⟩ := toInt_spec (31044 * N)
  have hmapped := bmod_toSize (x := 24 + toInt (31044 * N)) (by omega) (by omega)
  simp only [pqInit, memorySize_eq h1 hlt, show sizeofPqRefShared = 24 from rfl, hmapped]
  by_cases hopen : sys.openOk = false
  · rw [if_pos hopen, if_pos hopen]
  rw [if_neg hopen, if_neg hopen]
  by_cases hseek : 24 + toInt (31044 * N) ≤ 0
  · rw [if_pos hseek, if_pos (by omega)]
  -- from here on the size is positive, and survives the conversion
  rw [if_neg hseek, if_neg (by omega), toSize_of_range (by omega) (by omega)]
  by_cases hsem : sys.semgetOk = false
  · simp only [if_pos hsem]
  · simp only [if_neg hsem]

/-- A file without bytes is no queue. -/
theorem not_passes_empty (zero : α) {N : Int} (h1 : 1 ≤ N) (hlt : N < 2 ^ 31) :
    ¬PassesSizeCheck (.zeroed 0 zero) N := by
  rw [passesSizeCheck_iff _ h1 hlt, show toInt (QueueFile.zeroed 0 zero).size = 0 from rfl]
  omega

/-- A file of the mapped size passes the check exactly if the capacity fits. -/
theorem passes_mapped_iff {f : QueueFile α} {N : Int} (h1 : 1 ≤ N) (hlt : N < 2 ^ 31)
    (hsize : f.size = 24 + toInt (31044 * N)) :
    PassesSizeCheck f N ↔ N ≤ largestQueue := by
  obtain ⟨hlow, hhigh, hdvd⟩ := toInt_spec (31044 * N)
  obtain ⟨hflow, hfhigh, hfdvd⟩ := toInt_spec f.size
  rw [passesSizeCheck_iff f h1 hlt, largestQueue]
  omega

theorem memorySize_of_le {N : Int} (h1 : 1 ≤ N) (h : N ≤ largestQueue) :
    toInt (31044 * N) = 31044 * N := by
  rw [largestQueue] at h
  exact toInt_of_range (by omega) (by omega)

/-- What the outcome of a call owes the configured size. -/
def SizesOutcome (N : Int) (r : Except Int PqRef × Option (QueueFile α)) : Prop :=
  (∃ e, r.1 = .error e ∧ ∀ f ∈ r.2, ¬PassesSizeCheck f N) ∨
    ∃ ref f, r = (.ok ref, some f) ∧ f.size = 24 + 31044 * N ∧ f.shared.messageMaxCount = N ∧
      f.shared.memorySize = 31044 * N ∧ PassesSizeCheck f N

theorem sizesOutcome_error_iff {N e : Int} {file : Option (QueueFile α)} :
    SizesOutcome N (.error e, file) ↔ ∀ f ∈ file, ¬PassesSizeCheck f N := by
  constructor
  · rintro (⟨_, -, hleft⟩ | ⟨ref, f, hok, -⟩)
    · exact hleft
    · cases hok
  · exact fun hleft => .inl ⟨e, rfl, hleft⟩

/-- A file that is left behind by an error passes exactly if the capacity fits. -/
theorem sizesOutcome_mapped_iff {N e : Int} {f : QueueFile α} (h1 : 1 ≤ N) (hlt : N < 2 ^ 31)
    (hsize : f.size = 24 + toInt (31044 * N)) :
    SizesOutcome N (.error e, some f) ↔ ¬N ≤ largestQueue := by
  rw [sizesOutcome_error_iff, ← passes_mapped_iff h1 hlt hsize]
  constructor
  · intro hleft
    exact hleft f rfl
  · intro hpass g hg
    obtain rfl := Option.some.inj hg
    exact hpass

/-- The queue that is made is right exactly if the capacity fits. -/
theorem sizesOutcome_ok_iff {N : Int} {ref : PqRef} {f : QueueFile α} (h1 : 1 ≤ N)
    (hlt : N < 2 ^ 31) (hsize : f.size = 24 + toInt (31044 * N))
    (hmax : f.shared.messageMaxCount = N) (hmem : f.shared.memorySize = toInt (31044 * N)) :
    SizesOutcome N (.ok ref, some f) ↔ N ≤ largestQueue := by
  rw [← passes_mapped_iff h1 hlt hsize]
  constructor
  · rintro (⟨_, herror, -⟩ | ⟨ref', g, hok, -, -, -, hpass⟩)
    · cases herror
    · obtain rfl := Option.some.inj (Prod.mk.inj hok).2
      exact hpass
  · intro hpass
    have hexact := memorySize_of_le h1 ((passes_mapped_iff h1 hlt hsize).mp hpass)
    exact .inr ⟨ref, f, rfl, by rw [hsize, hexact], hmax, by rw [hmem, hexact], hpass⟩

/-- **The outcome, call by call.** -/
theorem sizesOutcome_iff (sys : SysCalls) (zero : α) {N : Int} (h1 : 1 ≤ N) (hlt : N < 2 ^ 31) :
    SizesOutcome N (pqInit sys zero none N) ↔
      sys.openOk = false ∨ 24 + toInt (31044 * N) ≤ 0 ∨ sys.writeOk = false ∨
        (N ≤ largestQueue ↔ sys.mmapOk = true ∧ sys.semgetOk = true) := by
  have hempty : ∀ e, SizesOutcome N (.error e, some (QueueFile.zeroed 0 zero)) := by
    intro e
    rw [sizesOutcome_error_iff]
    intro f hf
    obtain rfl := Option.some.inj hf
    exact not_passes_empty zero h1 hlt
  rw [pqInit_missing sys zero h1 hlt]
  by_cases hopen : sys.openOk = false
  · rw [if_pos hopen, sizesOutcome_error_iff]
    exact iff_of_true (by simp) (.inl hopen)
  rw [if_neg hopen, or_iff_right hopen]
  by_cases hseek : 24 + toInt (31044 * N) ≤ 0
  · rw [if_pos hseek]
    exact iff_of_true (hempty _) (.inl hseek)
  rw [if_neg hseek, or_iff_right hseek]
  by_cases hwrite : sys.writeOk = false
  · rw [if_pos hwrite]
    exact iff_of_true (hempty _) (.inl hwrite)
  rw [if_neg hwrite, or_iff_right hwrite]
  -- the file has its size now, and whether it is one depends on the capacity
  by_cases hmmap : sys.mmapOk = false
  · rw [if_pos hmmap, sizesOutcome_mapped_iff h1 hlt rfl]
    simp [hmmap]
  rw [if_neg hmmap]
  rw [Bool.not_eq_false] at hmmap
  by_cases hsem : sys.semgetOk = false
  · rw [if_pos hsem, sizesOutcome_mapped_iff h1 hlt rfl]
    simp [hsem]
  · rw [if_neg hsem, sizesOutcome_ok_iff h1 hlt rfl rfl rfl]
    simp [hmmap, hsem]

/-- **The sizes come out right exactly if** a call fails before the file is
stretched, or the size wraps to one that cannot be stretched to, or the
capacity is small enough and no later call fails, or it is too large and one
does; which leaves out the size that is configured by default. -/
theorem sizesQueue_iff (sys : SysCalls) (zero : α) (N : Int) (h1 : 1 ≤ N) (hlt : N < 2 ^ 31) :
    SizesQueue sys zero N ↔
      ¬(sys = .allOk ∧ N = defaultQueueSize) ∧
      (sys.openOk = false ∨ 24 + toInt (31044 * N) ≤ 0 ∨ sys.writeOk = false ∨
        (N ≤ largestQueue ↔ sys.mmapOk = true ∧ sys.semgetOk = true)) := by
  constructor
  · intro h
    refine ⟨?_, (sizesOutcome_iff sys zero h1 hlt).mp h.outcome⟩
    -- the default wraps to a negative size
    rintro ⟨rfl, rfl⟩
    obtain ⟨ref, href⟩ := h.default rfl rfl
    have hneg : 24 + toInt (31044 * defaultQueueSize) ≤ 0 := by decide
    rw [pqInit_missing .allOk zero h1 hlt, if_neg (by decide), if_pos hneg] at href
    cases href
  · rintro ⟨hdefault, h⟩
    exact ⟨(sizesOutcome_iff sys zero h1 hlt).mpr h, fun hsys hN => absurd ⟨hsys, hN⟩ hdefault⟩

section Examples

theorem sizesQueue_iff_two :
    SizesQueue .allOk Mail.zero 2 ↔
      ¬(SysCalls.allOk = .allOk ∧ (2 : Int) = defaultQueueSize) ∧
      (SysCalls.allOk.openOk = false ∨ 24 + toInt (31044 * 2) ≤ 0 ∨
        SysCalls.allOk.writeOk = false ∨
        ((2 : Int) ≤ largestQueue ↔
          SysCalls.allOk.mmapOk = true ∧ SysCalls.allOk.semgetOk = true)) :=
  sizesQueue_iff .allOk Mail.zero 2 (by decide) (by decide)

/-- A `queue_size` of 138351 makes a queue of 1172 bytes, and the one that is
configured by default none. -/
theorem wrapped_queue_accepted :
    ¬SizesQueue .allOk Mail.zero 138351 ∧ ¬SizesQueue .allOk Mail.zero defaultQueueSize := by
  constructor
  · intro h
    have hinit := pqInit_missing .allOk Mail.zero (N := 138351) (by decide) (by decide)
    rw [if_neg (by decide), if_neg (by decide), if_neg (by decide), if_neg (by decide),
      if_neg (by decide)] at hinit
    rcases h.outcome with ⟨e, herr, -⟩ | ⟨ref, f, hok, hsize, -⟩
    · rw [hinit] at herr
      cases herr
    · rw [hinit] at hok
      obtain ⟨-, hf⟩ := Prod.mk.inj hok
      obtain rfl := Option.some.inj hf
      exact absurd hsize (by decide)
  · intro h
    obtain ⟨ref, href⟩ := h.default rfl rfl
    rw [pqInit_missing _ _ (by decide) (by decide), if_neg (by decide), if_pos (by decide)] at href
    cases href

end Examples

end ComfirmDmarc.Queue
