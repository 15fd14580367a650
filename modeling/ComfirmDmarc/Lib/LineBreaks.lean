import Mathlib.Data.List.Basic
import Mathlib.Algebra.Ring.Nat

/-!
# Texts in lines

A loop that goes through a text with a column counter, and breaks the line
behind each stop element and behind a line of full width. The text is cut into
lines (`lines`); what the loop makes of a break, a line end in the output or
the end of a buffer, is up to its user. `Broken` says which cuts it can be.
-/

namespace LineBreaks

variable {α : Type*}

/-! ## The loop -/

/-- The lines of a text that starts in column `col`. -/
def lines (stop : α → Bool) (width col : Nat) : List α → List (List α)
  | [] => [[]]
  | c :: s =>
    if stop c ∨ col + 1 = width then [c] :: lines stop width 0 s
    else (lines stop width (col + 1) s).modifyHead (c :: ·)

/-- The loop with an output: `brk` is stored at each break. -/
def breakLines (stop : α → Bool) (width : Nat) (brk : List α) (col : Nat) : List α → List α
  | [] => []
  | c :: s =>
    if stop c ∨ col + 1 = width then c :: (brk ++ breakLines stop width brk 0 s)
    else c :: breakLines stop width brk (col + 1) s

/-- The positions that loop stores to, `off` being the next one, for a break of
`n` elements; the terminator comes last. -/
def writes (stop : α → Bool) (width n col off : Nat) : List α → List Nat
  | [] => [off]
  | c :: s =>
    if stop c ∨ col + 1 = width then
      off :: (List.range' (off + 1) n ++ writes stop width n 0 (off + 1 + n) s)
    else off :: writes stop width n (col + 1) (off + 1) s

/-! ## The cut -/

/-- **A cut into lines**: a stop, or the last column, ends each of them but the
last one, and neither stands anywhere else. -/
inductive Broken (stop : α → Bool) (width : Nat) : Nat → List (List α) → Prop
  | last {col : Nat} {line : List α} (plain : ∀ c ∈ line, stop c = false)
      (short : col + line.length < width) : Broken stop width col [line]
  | line {col : Nat} {line : List α} {c : α} {rest : List (List α)}
      (plain : ∀ c ∈ line, stop c = false)
      (ends : stop c = true ∨ col + line.length + 1 = width)
      (fits : col + line.length < width) (next : Broken stop width 0 rest) :
      Broken stop width col ((line ++ [c]) :: rest)

section

variable {stop : α → Bool} {width : Nat}

variable (stop width) in
theorem exists_lines (col : Nat) (s : List α) :
    ∃ line rest, lines stop width col s = line :: rest := by
  induction s generalizing col with
  | nil => exact ⟨[], [], rfl⟩
  | cons c s ih =>
    rw [lines]
    split
    · exact ⟨_, _, rfl⟩
    · obtain ⟨line, rest, h⟩ := ih (col + 1)
      exact ⟨c :: line, rest, by rw [h, List.modifyHead_cons]⟩

/-- The first line of a text has an element. -/
theorem head_lines_ne_nil {col : Nat} {s line : List α} {rest : List (List α)} (hs : s ≠ [])
    (h : lines stop width col s = line :: rest) : line ≠ [] := by
  obtain ⟨c, s, rfl⟩ := List.exists_cons_of_ne_nil hs
  obtain ⟨line', rest', h'⟩ := exists_lines stop width (col + 1) s
  rw [lines, h', List.modifyHead_cons] at h
  split at h
  · exact (List.cons.inj h).1 ▸ List.cons_ne_nil _ _
  · exact (List.cons.inj h).1 ▸ List.cons_ne_nil _ _

variable (stop width) in
/-- The lines make up the text. -/
theorem flatten_lines (col : Nat) (s : List α) : (lines stop width col s).flatten = s := by
  induction s generalizing col with
  | nil => rfl
  | cons c s ih =>
    rw [lines]
    split
    · rw [List.flatten_cons, ih, List.singleton_append]
    · have hnext := ih (col + 1)
      obtain ⟨line, rest, h⟩ := exists_lines stop width (col + 1) s
      rw [h, List.flatten_cons] at hnext
      rw [h, List.modifyHead_cons, List.flatten_cons, List.cons_append, hnext]

/-- What stands in front of the first break belongs to the first line. -/
theorem lines_append {col : Nat} {t : List α} (plain : ∀ c ∈ t, stop c = false)
    (short : col + t.length < width) (rest : List α) :
    lines stop width col (t ++ rest) =
      (lines stop width (col + t.length) rest).modifyHead (t ++ ·) := by
  induction t generalizing col with
  | nil =>
    obtain ⟨line, ls, h⟩ := exists_lines stop width col rest
    rw [List.nil_append, List.length_nil, Nat.add_zero, h]
    rfl
  | cons c t ih =>
    rw [List.length_cons] at short
    have hc := plain c List.mem_cons_self
    have hnext := ih (fun d hd => plain d (List.mem_cons_of_mem _ hd))
      (show col + 1 + t.length < width by omega)
    obtain ⟨line, ls, h⟩ := exists_lines stop width (col + 1 + t.length) rest
    rw [List.cons_append, lines, if_neg (by simp [hc]; omega), hnext, List.length_cons,
      show col + (t.length + 1) = col + 1 + t.length by omega, h]
    rfl

/-- The first line, up to its break. -/
theorem lines_append_line {col : Nat} {t : List α} {c : α} (plain : ∀ d ∈ t, stop d = false)
    (ends : stop c = true ∨ col + t.length + 1 = width) (fits : col + t.length < width)
    (rest : List α) :
    lines stop width col (t ++ c :: rest) = (t ++ [c]) :: lines stop width 0 rest := by
  rw [lines_append plain fits, lines, if_pos ends]
  rfl

/-- A full line. -/
theorem lines_append_full {col : Nat} {t : List α} (hne : t ≠ [])
    (plain : ∀ d ∈ t, stop d = false) (full : col + t.length = width) (rest : List α) :
    lines stop width col (t ++ rest) = t :: lines stop width 0 rest := by
  have ht := List.dropLast_append_getLast hne
  have hlen : t.dropLast.length + 1 = t.length := by
    rw [← congrArg List.length ht, List.length_append, List.length_singleton]
  have hline : lines stop width col (t.dropLast ++ t.getLast hne :: rest) =
      (t.dropLast ++ [t.getLast hne]) :: lines stop width 0 rest :=
    lines_append_line (fun d hd => plain d (List.dropLast_subset t hd)) (.inr (by omega))
      (by omega) rest
  rwa [← List.singleton_append, ← List.append_assoc, ht] at hline

/-- An element in front of the first line that does not end it. -/
theorem Broken.cons {col : Nat} {c : α} {line : List α} {rest : List (List α)}
    (h : Broken stop width (col + 1) (line :: rest)) (hc : stop c = false) :
    Broken stop width col ((c :: line) :: rest) := by
  have hplain : ∀ {t : List α}, (∀ d ∈ t, stop d = false) → ∀ d ∈ c :: t, stop d = false :=
    fun ht => List.forall_mem_cons.mpr ⟨hc, ht⟩
  cases h with
  | last plain short => exact .last (hplain plain) (by rw [List.length_cons]; omega)
  | line plain ends fits next =>
    refine Broken.line (hplain plain) (ends.imp_right ?_) ?_ next
    · intro hfull
      rw [List.length_cons]
      omega
    · rw [List.length_cons]
      omega

theorem broken_lines {col : Nat} (hcol : col < width) (s : List α) :
    Broken stop width col (lines stop width col s) := by
  induction s generalizing col with
  | nil => exact .last (by simp) (by simpa using hcol)
  | cons c s ih =>
    rw [lines]
    split
    · next hbreak =>
      have hnext := ih (show 0 < width by omega)
      exact @Broken.line α stop width col [] c _ (by simp) hbreak hcol hnext
    · next hbreak =>
      rw [not_or] at hbreak
      have hnext := ih (show col + 1 < width by omega)
      obtain ⟨line, rest, h⟩ := exists_lines stop width (col + 1) s
      rw [h] at hnext ⊢
      exact hnext.cons (by simpa using hbreak.1)

/-- No line is wider than the width. -/
theorem Broken.length_le {col : Nat} {ls : List (List α)} (h : Broken stop width col ls) :
    ∀ line ∈ ls, line.length ≤ width := by
  induction h with
  | last plain short =>
    intro line hline
    rw [List.mem_singleton.mp hline]
    omega
  | line plain ends fits next ih =>
    refine List.forall_mem_cons.mpr ⟨?_, ih⟩
    rw [List.length_append, List.length_singleton]
    omega

/-- Something stands in front of each break. -/
theorem Broken.ne_nil {col : Nat} {ls : List (List α)} (h : Broken stop width col ls) :
    ∀ line ∈ ls.dropLast, line ≠ [] := by
  induction h with
  | last plain short => simp
  | line plain ends fits next ih =>
    cases next with
    | last => simp
    | line =>
      rw [List.dropLast_cons_cons]
      exact List.forall_mem_cons.mpr ⟨by simp, ih⟩

/-- **Without stops each line is full**, but the last one, which is not. -/
theorem Broken.full {ls : List (List α)} (h : Broken stop width 0 ls)
    (hplain : ∀ c ∈ ls.flatten, stop c = false) :
    (∀ line ∈ ls.dropLast, line.length = width) ∧ ∀ line ∈ ls.getLast?, line.length < width := by
  generalize hcol : 0 = col at h
  induction h with
  | last plain short =>
    subst hcol
    simpa using short
  | @line col line c rest plain ends fits next ih =>
    subst hcol
    rw [List.flatten_cons] at hplain
    have hc : stop c = false := hplain c (by simp)
    obtain ⟨hfull, hlast⟩ := ih (fun d hd => hplain d (List.mem_append_right _ hd)) rfl
    have hwidth : (line ++ [c]).length = width := by
      rw [List.length_append, List.length_singleton]
      rcases ends with hstop | hend
      · rw [hc] at hstop
        cases hstop
      · omega
    obtain ⟨next', rest', rfl⟩ : ∃ next' rest', rest = next' :: rest' := by
      cases next with
      | last => exact ⟨_, _, rfl⟩
      | line => exact ⟨_, _, rfl⟩
    rw [List.dropLast_cons_cons, List.getLast?_cons_cons]
    exact ⟨List.forall_mem_cons.mpr ⟨hwidth, hfull⟩, hlast⟩

/-! ## The output -/

/-- **The output is the lines with the breaks between them.** -/
theorem breakLines_eq (brk : List α) (col : Nat) (s : List α) :
    breakLines stop width brk col s = brk.intercalate (lines stop width col s) := by
  induction s generalizing col with
  | nil => rfl
  | cons c s ih =>
    rw [breakLines, lines]
    split
    · rw [ih]
      obtain ⟨line, rest, h⟩ := exists_lines stop width 0 s
      rw [h, List.intercalate_cons_cons]
      simp
    · rw [ih]
      obtain ⟨line, rest, h⟩ := exists_lines stop width (col + 1) s
      rw [h, List.modifyHead_cons]
      cases rest with
      | nil => simp
      | cons next rest => simp [List.intercalate_cons_cons]

variable (stop width) in
theorem length_breakLines (brk : List α) (col : Nat) (s : List α) :
    (breakLines stop width brk col s).length + brk.length =
      s.length + brk.length * (lines stop width col s).length := by
  induction s generalizing col with
  | nil => simp [breakLines, lines]
  | cons c s ih =>
    rw [breakLines, lines]
    split
    · have := ih 0
      simp only [List.length_cons, List.length_append, Nat.mul_add]
      omega
    · have := ih (col + 1)
      simp only [List.length_cons, List.length_modifyHead]
      omega

variable (stop width) in
/-- There are no more breaks than elements. -/
theorem length_lines_le (col : Nat) (s : List α) :
    (lines stop width col s).length ≤ s.length + 1 := by
  induction s generalizing col with
  | nil => simp [lines]
  | cons c s ih =>
    rw [lines]
    split
    · have := ih 0
      simp only [List.length_cons]
      omega
    · have := ih (col + 1)
      simp only [List.length_modifyHead, List.length_cons]
      omega

/-- **How many lines a text takes**: one more for each stop, and for each full
width of the pieces between the stops. -/
theorem length_lines {col : Nat} (hcol : col < width) {s piece : List α} {pieces : List (List α)}
    (hs : s.splitOnP stop = piece :: pieces) :
    (lines stop width col s).length =
      s.countP stop + (col + piece.length) / width +
        (pieces.map fun piece => piece.length / width).sum + 1 := by
  induction s generalizing col piece pieces with
  | nil =>
    rw [List.splitOnP_nil] at hs
    cases hs
    simp [lines, Nat.div_eq_of_lt hcol]
  | cons c s ih =>
    obtain ⟨piece', pieces', hs'⟩ := List.exists_cons_of_ne_nil (List.splitOnP_ne_nil stop s)
    rw [List.splitOnP_cons_eq_if_modifyHead, hs'] at hs
    have hpos : 0 < width := by omega
    by_cases hc : stop c = true
    · -- the line ends here, and no more of its piece is left
      rw [if_pos hc] at hs
      cases hs
      have hcolumn : (col + ([] : List α).length) / width = 0 := Nat.div_eq_of_lt hcol
      rw [lines, if_pos (.inl hc), List.length_cons, ih hpos hs', List.countP_cons_of_pos hc,
        hcolumn, Nat.zero_add, List.map_cons, List.sum_cons]
      omega
    · rw [if_neg hc, List.modifyHead_cons] at hs
      cases hs
      rw [List.countP_cons_of_neg hc, List.length_cons, lines]
      by_cases hfull : col + 1 = width
      · have hline : (col + (piece'.length + 1)) / width = piece'.length / width + 1 := by
          rw [show col + (piece'.length + 1) = piece'.length + width by omega,
            Nat.add_div_right _ hpos]
        rw [if_pos (.inr hfull), List.length_cons, ih hpos hs', hline, Nat.zero_add]
        omega
      · rw [if_neg (by simp [hc, hfull]), List.length_modifyHead,
          ih (show col + 1 < width by omega) hs',
          show col + 1 + piece'.length = col + (piece'.length + 1) by omega]

/-! ## The positions -/

/-- **One position after the other**, up to that of the terminator. -/
theorem writes_eq (brk : List α) (col off : Nat) (s : List α) :
    writes stop width brk.length col off s =
      List.range' off ((breakLines stop width brk col s).length + 1) := by
  induction s generalizing col off with
  | nil => rfl
  | cons c s ih =>
    rw [writes, breakLines]
    split
    · have hrange := List.range'_append_1 (s := off + 1) (m := brk.length)
        (n := (breakLines stop width brk 0 s).length + 1)
      rw [ih, hrange, List.length_cons, List.length_append, List.range'_succ, Nat.add_assoc]
    · rw [ih, List.length_cons, ← List.range'_succ]

theorem writes_lt_iff (brk : List α) (col : Nat) (s : List α) (size : Nat) :
    (∀ i ∈ writes stop width brk.length col 0 s, i < size) ↔
      (breakLines stop width brk col s).length < size := by
  rw [writes_eq]
  simp only [List.mem_range'_1, Nat.zero_le, true_and, Nat.zero_add]
  constructor
  · intro h
    exact h _ (Nat.lt_succ_self _)
  · intro h i hi
    omega

end

end LineBreaks
