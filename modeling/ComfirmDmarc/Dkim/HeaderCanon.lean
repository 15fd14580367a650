import ComfirmDmarc.Lib.CMemory
import Mathlib.Data.List.DropRight

/-!
# Dkim -- `relaxed_header_canon`

The relaxed canonicalisation of header fields in `firm-dkim.c`. Each pass over
a value works in place: it reads at `e` and writes what it keeps at
`new_len ≤ e`. The passes are shown to compute what they say on the value as a
text.
-/

namespace ComfirmDmarc.Dkim

open CMemory

/-! ## The code -/

/-- `stringpair`: a header field. -/
structure StringPair where
  key : Bytes
  value : Bytes
  deriving DecidableEq, Repr

/-- SP or TAB. -/
def isWsp (c : UInt8) : Bool := c == 32 || c == 9

/-- `tolower`, in the C locale. -/
def tolower (c : UInt8) : UInt8 := if 65 ≤ c ∧ c ≤ 90 then c + 32 else c

/-- The pass that removes CRLF, over the block `value`. -/
def unfoldLoop (valLen : Nat) (value : Bytes) (e newLen : Nat) : Bytes × Nat :=
  if e < valLen then
    if ¬(value.getD e 0 = 13 ∧ value.getD (e + 1) 0 = 10) then
      unfoldLoop valLen (value.set newLen (value.getD e 0)) (e + 1) (newLen + 1)
    else unfoldLoop valLen value (e + 2) newLen
  else (value, newLen)
termination_by valLen - e

/-- The pass that turns every run of blanks into one SP. -/
def squeezeLoop (valLen : Nat) (value : Bytes) (e newLen : Nat) : Bytes × Nat :=
  if e < valLen then
    let value := if value.getD e 0 = 9 then value.set e 32 else value
    let c := value.getD e 0
    if e = 0 ∨ ¬(value.getD (e - 1) 0 = 32 ∧ c = 32) then
      squeezeLoop valLen (value.set newLen c) (e + 1) (newLen + 1)
    else squeezeLoop valLen value (e + 1) newLen
  else (value, newLen)
termination_by valLen - e

/-- A pass over a value: the loop, and the terminator stored behind what it
kept. -/
def pass (loop : Nat → Bytes → Nat → Nat → Bytes × Nat) (value : Bytes) : Bytes :=
  let r := loop value.length (value ++ [0]) 0 0
  str (r.1.set r.2 0)

/-- `rtrim`: drop blanks from the end one by one. -/
def rtrim (s : Bytes) : Bytes := s.rdropWhile isWsp

/-- `ltrim`. -/
def ltrim (s : Bytes) : Bytes := s.dropWhile isWsp

/-- What `relaxed_header_canon` makes of one value. -/
def relaxedValue (value : Bytes) : Bytes :=
  ltrim (rtrim (pass squeezeLoop (pass unfoldLoop value)))

/-- `relaxed_header_canon`. -/
def relaxedHeaderCanon (headers : List StringPair) : List StringPair :=
  headers.map fun h => ⟨h.key.map tolower, relaxedValue h.value⟩

/-! ## What the passes compute -/

/-- The text without its CRLF pairs. -/
def removeCrlf : Bytes → Bytes
  | [] => []
  | c :: s => if c = 13 ∧ s.head? = some 10 then removeCrlf s.tail else c :: removeCrlf s
termination_by s => s.length

/-- TAB becomes SP. -/
def detab (c : UInt8) : UInt8 := if c = 9 then 32 else c

/-- The text with its runs of blanks squeezed, behind a blank or not. -/
def squeeze (blank : Bool) : Bytes → Bytes
  | [] => []
  | c :: s =>
    if blank = true ∧ detab c = 32 then squeeze true s
    else detab c :: squeeze (detab c == 32) s

theorem getD_append_cons (front : Bytes) (c : UInt8) (rest : Bytes) {i : Nat}
    (hi : i = front.length) : (front ++ c :: rest).getD i 0 = c := by
  subst hi
  simp

/-- The invariant of the CRLF pass: `out` is kept, `gap` lies between the write
and the read position, `rest` is still to be read. -/
theorem unfoldLoop_eq (valLen e newLen : Nat) (out gap rest : Bytes) (hn : newLen = out.length)
    (he : e = out.length + gap.length) (hv : valLen = e + rest.length) :
    ∃ junk, junk ≠ [] ∧ unfoldLoop valLen (out ++ gap ++ (rest ++ [0])) e newLen =
      (out ++ removeCrlf rest ++ junk, (out ++ removeCrlf rest).length) := by
  have hfront : e = (out ++ gap).length := by simpa using he
  fun_induction removeCrlf rest generalizing e newLen out gap with
  | case1 =>
    refine ⟨gap ++ [0], by simp, ?_⟩
    rw [unfoldLoop]
    simp [hn, hv]
  | case2 c s h ih =>
    -- CR LF: the read position moves on alone, the gap grows
    obtain ⟨rfl, hhead⟩ := h
    obtain ⟨s, rfl⟩ : ∃ s', s = 10 :: s' := by
      cases s with
      | nil => simp at hhead
      | cons d s => exact ⟨s, by simpa using hhead⟩
    simp only [List.length_cons] at hv
    have h0 : (out ++ gap ++ (13 :: 10 :: s ++ [0])).getD e 0 = 13 :=
      getD_append_cons _ _ _ hfront
    have h1 : (out ++ gap ++ (13 :: 10 :: s ++ [0])).getD (e + 1) 0 = 10 := by
      have := getD_append_cons (out ++ gap ++ [13]) 10 (s ++ [0]) (i := e + 1)
        (by simp; omega)
      simpa using this
    rw [unfoldLoop, if_pos (by omega), if_neg (by rw [h0, h1]; simp)]
    have hcrlf := ih (e + 2) newLen out (gap ++ [13, 10]) hn (by simp; omega)
      (by simp; omega) (by simp; omega)
    simpa using hcrlf
  | case3 c s h ih =>
    simp only [List.length_cons] at hv
    have h0 : (out ++ gap ++ (c :: s ++ [0])).getD e 0 = c := getD_append_cons _ _ _ hfront
    have h1 : ¬(c = 13 ∧ (out ++ gap ++ (c :: s ++ [0])).getD (e + 1) 0 = 10) := by
      rintro ⟨rfl, h10⟩
      apply h
      refine ⟨rfl, ?_⟩
      cases s with
      | nil =>
        have := getD_append_cons (out ++ gap ++ [13]) 0 [] (i := e + 1) (by simp; omega)
        simp_all
      | cons d s =>
        have := getD_append_cons (out ++ gap ++ [13]) d (s ++ [0]) (i := e + 1) (by simp; omega)
        simp_all
    -- any other byte is written behind `out`
    obtain ⟨gap', hgap, hset, -⟩ := set_compact out gap c (s ++ [0])
    have hkeep := ih (e + 1) (newLen + 1) (out ++ [c]) gap' (by simp [hn])
      (by simp; omega) (by omega) (by simp; omega)
    rw [unfoldLoop, if_pos (by omega), h0, if_pos h1, hn, List.cons_append, hset, ← hn]
    simpa using hkeep

/-- Squeezing, likewise; `blank` says what the byte before the read position
is. -/
theorem squeezeLoop_eq (valLen e newLen : Nat) (out gap rest : Bytes) (blank : Bool)
    (hn : newLen = out.length) (he : e = out.length + gap.length) (hv : valLen = e + rest.length)
    (hblank : blank = true ↔ (out ++ gap).getLast? = some 32) :
    ∃ junk, junk ≠ [] ∧ squeezeLoop valLen (out ++ gap ++ (rest ++ [0])) e newLen =
      (out ++ squeeze blank rest ++ junk, (out ++ squeeze blank rest).length) := by
  have hfront : e = (out ++ gap).length := by simpa using he
  induction rest generalizing e newLen out gap blank with
  | nil =>
    refine ⟨gap ++ [0], by simp, ?_⟩
    rw [squeezeLoop]
    simp [hn, hv, squeeze]
  | cons c s ih =>
    simp only [List.length_cons] at hv
    have htab : (if (out ++ gap ++ (c :: s ++ [0])).getD e 0 = 9 then
        (out ++ gap ++ (c :: s ++ [0])).set e 32 else out ++ gap ++ (c :: s ++ [0])) =
        out ++ gap ++ (detab c :: (s ++ [0])) := by
      rw [List.cons_append, getD_append_cons _ _ _ hfront, detab, hfront, set_length_append]
      split <;> rfl
    have hcur : (out ++ gap ++ (detab c :: (s ++ [0]))).getD e 0 = detab c :=
      getD_append_cons _ _ _ hfront
    -- the byte before the read position is the last one of `out ++ gap`
    have hprev : (e = 0 ∨ ¬((out ++ gap ++ (detab c :: (s ++ [0]))).getD (e - 1) 0 = 32 ∧
        detab c = 32)) ↔ ¬(blank = true ∧ detab c = 32) := by
      rw [hblank]
      cases hlast : (out ++ gap).getLast? with
      | none =>
        have hnil : out ++ gap = [] := List.getLast?_eq_none_iff.mp hlast
        simp [hfront, hnil]
      | some p =>
        obtain ⟨front, hp⟩ := List.getLast?_eq_some_iff.mp hlast
        have he0 : e ≠ 0 := by simp [hfront, hp]
        have hget : (out ++ gap ++ (detab c :: (s ++ [0]))).getD (e - 1) 0 = p := by
          have hi : e - 1 = front.length := by simp [hfront, hp]
          rw [hp, List.append_assoc, List.singleton_append]
          exact getD_append_cons _ _ _ hi
        rw [hget]
        simp [he0]
    rw [squeezeLoop, if_pos (by omega)]
    simp only [htab, hcur]
    by_cases hkeep : blank = true ∧ detab c = 32
    · rw [if_neg (hprev.not.mpr (not_not.mpr hkeep)), squeeze, if_pos hkeep]
      have := ih (e + 1) newLen out (gap ++ [detab c]) true hn (by simp; omega) (by omega)
        (by simp [hkeep.2]) (by simp; omega)
      simpa using this
    · rw [if_pos (hprev.mpr hkeep), squeeze, if_neg hkeep]
      obtain ⟨gap', hgap, hset, hlast⟩ := set_compact out gap (detab c) (s ++ [0])
      have := ih (e + 1) (newLen + 1) (out ++ [detab c]) gap' (detab c == 32)
        (by simp [hn]) (by simp; omega) (by omega) (by rw [hlast]; simp) (by simp; omega)
      rw [hn, hset, ← hn]
      simpa using this

theorem removeCrlf_cons {c : UInt8} (h : c ≠ 13) (s : Bytes) :
    removeCrlf (c :: s) = c :: removeCrlf s := by
  rw [removeCrlf, if_neg fun h' => h h'.1]

theorem removeCrlf_of_not_mem {s : Bytes} (h : (13 : UInt8) ∉ s) : removeCrlf s = s := by
  induction s with
  | nil => rw [removeCrlf]
  | cons c s ih =>
    have hc : c ≠ 13 := fun heq => h (heq ▸ List.mem_cons_self)
    rw [removeCrlf_cons hc, ih fun hs => h (List.mem_cons_of_mem _ hs)]

theorem removeCrlf_subset (s : Bytes) : ∀ c ∈ removeCrlf s, c ∈ s := by
  fun_induction removeCrlf s with
  | case1 => simp
  | case2 c s h ih =>
    intro d hd
    exact List.mem_cons_of_mem _ (List.mem_of_mem_tail (ih d hd))
  | case3 c s h ih =>
    intro d hd
    rcases List.mem_cons.mp hd with rfl | hd
    · exact List.mem_cons_self
    · exact List.mem_cons_of_mem _ (ih d hd)

theorem squeeze_nul {s : Bytes} (h : (0 : UInt8) ∉ s) (blank : Bool) :
    (0 : UInt8) ∉ squeeze blank s := by
  induction s generalizing blank with
  | nil => simp [squeeze]
  | cons c s ih =>
    have hc : detab c ≠ 0 := by
      rw [detab]
      split
      · decide
      · exact fun h0 => h (h0 ▸ List.mem_cons_self)
    have hs : (0 : UInt8) ∉ s := fun h0 => h (List.mem_cons_of_mem _ h0)
    rw [squeeze]
    split
    · exact ih hs _
    · simp only [List.mem_cons, not_or]
      exact ⟨hc.symm, ih hs _⟩

/-- **The CRLF pass removes the CRLFs.** -/
theorem pass_unfoldLoop {s : Bytes} (h : (0 : UInt8) ∉ s) :
    pass unfoldLoop s = removeCrlf s := by
  obtain ⟨junk, hjunk, heq⟩ := unfoldLoop_eq s.length 0 0 [] [] s rfl rfl (by simp)
  simp only [List.nil_append] at heq
  rw [pass, heq]
  exact str_set_length (fun h0 => h (removeCrlf_subset s 0 h0)) hjunk

/-- **The blank pass squeezes the blanks.** -/
theorem pass_squeezeLoop {s : Bytes} (h : (0 : UInt8) ∉ s) :
    pass squeezeLoop s = squeeze false s := by
  obtain ⟨junk, hjunk, heq⟩ :=
    squeezeLoop_eq s.length 0 0 [] [] s false rfl rfl (by simp) (by simp)
  simp only [List.nil_append] at heq
  rw [pass, heq]
  exact str_set_length (squeeze_nul h false) hjunk

/-- The relaxed value of a text. -/
theorem relaxedValue_eq {s : Bytes} (h : (0 : UInt8) ∉ s) :
    relaxedValue s = ltrim (rtrim (squeeze false (removeCrlf s))) := by
  rw [relaxedValue, pass_unfoldLoop h,
    pass_squeezeLoop fun h0 => h (removeCrlf_subset s 0 h0)]

/-- What the passes keep is not longer than what they read. -/
theorem length_removeCrlf_le (s : Bytes) : (removeCrlf s).length ≤ s.length := by
  fun_induction removeCrlf s with
  | case1 => exact Nat.le_refl _
  | case2 c s hcrlf ih =>
    rw [List.length_tail] at ih
    rw [List.length_cons]
    omega
  | case3 c s hother ih =>
    rw [List.length_cons, List.length_cons]
    omega

theorem length_squeeze_le (blank : Bool) (s : Bytes) : (squeeze blank s).length ≤ s.length := by
  induction s generalizing blank with
  | nil => exact Nat.le_refl _
  | cons c s ih =>
    rw [squeeze]
    split
    · exact (ih true).trans (Nat.le_succ _)
    · exact Nat.succ_le_succ (ih _)

theorem length_relaxedValue_le {s : Bytes} (h : (0 : UInt8) ∉ s) :
    (relaxedValue s).length ≤ s.length := by
  rw [relaxedValue_eq h]
  calc (ltrim (rtrim (squeeze false (removeCrlf s)))).length
      ≤ (rtrim (squeeze false (removeCrlf s))).length := (List.dropWhile_suffix _).length_le
    _ ≤ (squeeze false (removeCrlf s)).length := (List.rdropWhile_prefix _ _).length_le
    _ ≤ (removeCrlf s).length := length_squeeze_le false _
    _ ≤ s.length := length_removeCrlf_le s

/-! ## The relaxed value, read from left to right -/

/-- What the last byte read was: nothing but blanks so far, a byte of a word,
or a blank behind a word. -/
inductive Gap
  | start
  | word
  | gap
  deriving DecidableEq

/-- The words of a text with one SP between them. -/
def joinWords : Gap → Bytes → Bytes
  | _, [] => []
  | st, c :: s =>
    if isWsp c then joinWords (if st = .start then .start else .gap) s
    else if st = .gap then 32 :: c :: joinWords .word s
    else c :: joinWords .word s

theorem joinWords_wsp {c : UInt8} (h : isWsp c = true) (st : Gap) (s : Bytes) :
    joinWords st (c :: s) = joinWords (if st = .start then .start else .gap) s := by
  rw [joinWords, if_pos h]

theorem joinWords_word {c : UInt8} (h : ¬isWsp c = true) (st : Gap) (s : Bytes) :
    joinWords st (c :: s) = if st = .gap then 32 :: c :: joinWords .word s
      else c :: joinWords .word s := by
  rw [joinWords, if_neg h]

theorem mem_joinWords {c : UInt8} {st : Gap} {s : Bytes} (h : c ∈ joinWords st s) :
    c = 32 ∨ c ∈ s := by
  induction s generalizing st with
  | nil => simp [joinWords] at h
  | cons d s ih =>
    by_cases hd : isWsp d = true
    · rw [joinWords_wsp hd] at h
      exact (ih h).imp_right (List.mem_cons_of_mem _)
    · have hcases : c = 32 ∨ c = d ∨ c ∈ joinWords .word s := by
        rw [joinWords_word hd] at h
        split at h <;> simp only [List.mem_cons] at h <;> tauto
      rcases hcases with h32 | rfl | hs
      · exact .inl h32
      · exact .inr List.mem_cons_self
      · exact (ih hs).imp_right (List.mem_cons_of_mem _)

theorem isWsp_detab (c : UInt8) : isWsp c = true ↔ detab c = 32 := by
  simp only [isWsp, detab, Bool.or_eq_true, beq_iff_eq]
  split <;> simp_all

theorem detab_of_not_isWsp {c : UInt8} (h : ¬isWsp c = true) : detab c = c := by
  simp only [isWsp, Bool.or_eq_true, beq_iff_eq, not_or] at h
  rw [detab, if_neg h.2]

theorem squeeze_word {c : UInt8} (h : ¬isWsp c = true) (blank : Bool) (s : Bytes) :
    squeeze blank (c :: s) = c :: squeeze false s := by
  have hd : ¬detab c = 32 := fun hd => h ((isWsp_detab c).mpr hd)
  have hne : (c == 32) = false := by
    rw [← detab_of_not_isWsp h]
    simpa using hd
  rw [squeeze, if_neg fun hb => hd hb.2, detab_of_not_isWsp h, hne]

theorem rtrim_cons (c : UInt8) (s : Bytes) :
    rtrim (c :: s) = if rtrim s = [] ∧ isWsp c = true then [] else c :: rtrim s := by
  simp only [rtrim, List.rdropWhile, List.reverse_cons, List.dropWhile_append,
    List.reverse_eq_nil_iff, List.isEmpty_iff]
  by_cases hnil : s.reverse.dropWhile isWsp = []
  · by_cases hc : isWsp c = true <;> simp [hnil, hc]
  · simp [hnil]

theorem rtrim_cons_of_not_isWsp {c : UInt8} (h : ¬isWsp c = true) (s : Bytes) :
    rtrim (c :: s) = c :: rtrim s := by
  rw [rtrim_cons, if_neg fun hc => h hc.2]

/-- Behind a blank that was kept. -/
theorem rtrim_squeeze_gap (s : Bytes) :
    rtrim (32 :: squeeze true s) = joinWords .gap s ∧
      rtrim (squeeze false s) = joinWords .word s := by
  induction s with
  | nil => exact ⟨by decide, by decide⟩
  | cons c s ih =>
    obtain ⟨hgap, hword⟩ := ih
    by_cases hc : isWsp c = true
    · have hd : detab c = 32 := (isWsp_detab c).mp hc
      constructor
      · simpa [squeeze, hd, joinWords, hc] using hgap
      · simpa [squeeze, hd, joinWords, hc] using hgap
    · constructor
      · rw [squeeze_word hc, rtrim_cons, rtrim_cons_of_not_isWsp hc, hword]
        simp [joinWords, hc]
      · rw [squeeze_word hc, rtrim_cons_of_not_isWsp hc, hword]
        simp [joinWords, hc]

theorem ltrim_joinWords_gap (s : Bytes) : ltrim (joinWords .gap s) = joinWords .start s := by
  induction s with
  | nil => rfl
  | cons c s ih =>
    by_cases hc : isWsp c = true
    · simpa [joinWords, hc] using ih
    · simp [joinWords, hc, ltrim, show isWsp 32 = true from rfl]

/-- **Squeezing and trimming join the words.** -/
theorem ltrim_rtrim_squeeze (s : Bytes) : ltrim (rtrim (squeeze false s)) = joinWords .start s := by
  rw [(rtrim_squeeze_gap s).2]
  cases s with
  | nil => rfl
  | cons c s =>
    by_cases hc : isWsp c = true
    · have := ltrim_joinWords_gap s
      simpa [joinWords, hc] using this
    · simp [joinWords, hc, ltrim]

/-- **The relaxed value of a text** is its words after the CRLFs are removed,
with one SP between them. -/
theorem relaxedValue_eq_joinWords {s : Bytes} (h : (0 : UInt8) ∉ s) :
    relaxedValue s = joinWords .start (removeCrlf s) := by
  rw [relaxedValue_eq h, ltrim_rtrim_squeeze]

/-! ## A value in two parts -/

/-- No CRLF lies across a byte that is no LF. -/
theorem removeCrlf_append_cons (u : Bytes) {c : UInt8} (hc : c ≠ 10) (v : Bytes) :
    removeCrlf (u ++ c :: v) = removeCrlf u ++ removeCrlf (c :: v) := by
  fun_induction removeCrlf u with
  | case1 => rfl
  | case2 d s h ih =>
    obtain ⟨rfl, hlf⟩ := h
    cases s with
    | nil => simp at hlf
    | cons e s =>
      obtain rfl : e = 10 := by simpa using hlf
      have hpair : ∀ t, removeCrlf (13 :: 10 :: t) = removeCrlf t := by
        intro t
        rw [removeCrlf, if_pos ⟨rfl, rfl⟩, List.tail_cons]
      rw [List.cons_append, List.cons_append, hpair]
      exact ih
  | case3 d s h ih =>
    have hno : ¬(d = 13 ∧ (s ++ c :: v).head? = some 10) := by
      rintro ⟨hd, hlf⟩
      cases s with
      | nil => exact hc (by simpa using hlf)
      | cons e s => exact h ⟨hd, by simpa using hlf⟩
    rw [List.cons_append, removeCrlf, if_neg hno, ih]
    rfl

/-- Behind a byte of a word, the words go on as in that word. -/
theorem joinWords_append_cons {c : UInt8} (hc : ¬isWsp c = true) (st : Gap) (u v : Bytes) :
    joinWords st (u ++ c :: v) = joinWords st (u ++ [c]) ++ joinWords .word v := by
  induction u generalizing st with
  | nil =>
    rw [List.nil_append, List.nil_append, joinWords_word hc, joinWords_word hc]
    split <;> simp [joinWords]
  | cons d u ih =>
    by_cases hd : isWsp d = true
    · rw [List.cons_append, List.cons_append, joinWords_wsp hd, joinWords_wsp hd, ih]
    · rw [List.cons_append, List.cons_append, joinWords_word hd, joinWords_word hd, ih]
      split <;> simp

/-- A byte of a word is kept where it stands. -/
theorem joinWords_concat {c : UInt8} (hc : ¬isWsp c = true) (st : Gap) (u : Bytes) :
    ∃ x, joinWords st (u ++ [c]) = x ++ [c] ∧ ∀ d ∈ x, d = 32 ∨ d ∈ u := by
  induction u generalizing st with
  | nil =>
    rw [List.nil_append, joinWords_word hc]
    split
    · exact ⟨[32], rfl, by simp⟩
    · exact ⟨[], rfl, by simp⟩
  | cons d u ih =>
    by_cases hd : isWsp d = true
    · obtain ⟨x, hx, hmem⟩ := ih (if st = .start then .start else .gap)
      refine ⟨x, by rw [List.cons_append, joinWords_wsp hd, hx], fun e he => ?_⟩
      exact (hmem e he).imp_right (List.mem_cons_of_mem _)
    · obtain ⟨x, hx, hmem⟩ := ih .word
      have hmem' : ∀ e ∈ d :: x, e = 32 ∨ e ∈ d :: u := by
        intro e he
        rcases List.mem_cons.mp he with rfl | he
        · exact .inr List.mem_cons_self
        · exact (hmem e he).imp_right (List.mem_cons_of_mem _)
      rw [List.cons_append, joinWords_word hd, hx]
      split
      · refine ⟨32 :: d :: x, rfl, fun e he => ?_⟩
        rcases List.mem_cons.mp he with rfl | he
        · exact .inl rfl
        · exact hmem' e he
      · exact ⟨d :: x, rfl, hmem'⟩

/-! ## Lower case -/

theorem tolower_tolower (c : UInt8) : tolower (tolower c) = tolower c := by
  simp only [tolower]
  split_ifs with h1 h2
  · simp only [UInt8.le_iff_toNat_le, UInt8.toNat_add, UInt8.reduceToNat] at h1 h2
    omega
  · rfl
  · rfl

theorem tolower_eq_zero {c : UInt8} : tolower c = 0 ↔ c = 0 := by
  simp only [tolower, ← UInt8.toNat_inj]
  split_ifs with h
  · simp only [UInt8.le_iff_toNat_le, UInt8.toNat_add, UInt8.reduceToNat] at h ⊢
    omega
  · rfl

/-! ## Runs of blanks -/

/-- The text with every run of blanks replaced by one SP. -/
def oneBlank : Bytes → Bytes
  | [] => []
  | c :: s => if isWsp c then 32 :: oneBlank (s.dropWhile isWsp) else c :: oneBlank s
termination_by s => s.length
decreasing_by
  · have := (List.dropWhile_suffix (l := s) isWsp).length_le
    simp only [List.length_cons]
    omega
  · simp

/-- Squeezing replaces the runs; behind a blank, the run that is under way is
dropped. -/
theorem squeeze_eq_oneBlank (s : Bytes) :
    squeeze false s = oneBlank s ∧ squeeze true s = oneBlank (s.dropWhile isWsp) := by
  induction s with
  | nil => exact ⟨by rw [squeeze, oneBlank], by rw [squeeze, List.dropWhile_nil, oneBlank]⟩
  | cons c s ih =>
    obtain ⟨hword, hgap⟩ := ih
    by_cases hc : isWsp c = true
    · have hd : detab c = 32 := (isWsp_detab c).mp hc
      constructor
      · simp [squeeze, oneBlank, hd, hc, hgap]
      · simp [squeeze, hd, hc, hgap]
    · constructor
      · rw [squeeze_word hc, oneBlank, if_neg hc, hword]
      · rw [squeeze_word hc, List.dropWhile_cons_of_neg hc, oneBlank, if_neg hc, hword]

end ComfirmDmarc.Dkim
