import ComfirmDmarc.Dkim.TagList

/-!
# Dkim -- `wrap`

The word wrap of `firm-dkim.c`: a new line behind every SP, and behind the
76th byte of a line. A word that fits a line is the same in canonical form; a
longer one has a SP in it there.
-/

namespace ComfirmDmarc.Dkim

open CMemory

/-! ## The code -/

/-- The loop of `wrap`. -/
def wrap (lcount : Nat) : Bytes → Bytes
  | [] => []
  | c :: s =>
    if c = 32 ∨ lcount = 75 then c :: 13 :: 10 :: 9 :: wrap 0 s
    else c :: wrap (lcount + 1) s

/-! ## Words -/

/-- Neither blanks nor line breaks. -/
def Word (w : Bytes) : Prop := w ≠ [] ∧ ∀ c ∈ w, c ≠ 0 ∧ isFolding c = false

/-- The words, with a SP behind each. -/
def spaced (words : List Bytes) : Bytes := (words.map (· ++ [32])).flatten

@[simp] theorem spaced_nil : spaced [] = [] := rfl

@[simp] theorem spaced_cons (w : Bytes) (words : List Bytes) :
    spaced (w :: words) = w ++ 32 :: spaced words := by
  simp [spaced]

theorem Word.not_isWsp {w : Bytes} (h : Word w) : ∀ c ∈ w, isWsp c = false := by
  intro c hc
  have hfold := (h.2 c hc).2
  simp only [isFolding, Bool.or_eq_false_iff] at hfold
  simp only [isWsp, Bool.or_eq_false_iff]
  exact hfold.1.1

theorem Word.ne_space {w : Bytes} (h : Word w) : ∀ c ∈ w, c ≠ 32 := by
  rintro c hc rfl
  exact absurd (h.not_isWsp 32 hc) (by decide)

theorem Word.ne_cr {w : Bytes} (h : Word w) : ∀ c ∈ w, c ≠ 13 := by
  rintro c hc rfl
  exact absurd (h.2 13 hc).2 (by decide)

theorem forall_mem_spaced {words : List Bytes} {p : UInt8 → Prop} (h32 : p 32)
    (h : ∀ w ∈ words, ∀ c ∈ w, p c) : ∀ c ∈ spaced words, p c := by
  induction words with
  | nil => simp
  | cons w words ih =>
    intro c hc
    rw [spaced_cons, List.mem_append, List.mem_cons] at hc
    rcases hc with hc | rfl | hc
    · exact h w List.mem_cons_self c hc
    · exact h32
    · exact ih (fun w' hw' => h w' (List.mem_cons_of_mem _ hw')) c hc

/-! ## The wrapped text -/

/-- Behind a SP the counter starts again. -/
theorem wrap_space (lcount : Nat) (t rest : Bytes) :
    wrap lcount (t ++ 32 :: rest) = wrap lcount t ++ 32 :: 13 :: 10 :: 9 :: wrap 0 rest := by
  induction t generalizing lcount with
  | nil => simp [wrap]
  | cons c t ih =>
    rw [List.cons_append, wrap, wrap]
    split
    · simp [ih]
    · simp [ih]

theorem wrap_spaced (words : List Bytes) (rest : Bytes) :
    wrap 0 (spaced words ++ rest) =
      (words.map fun w => wrap 0 w ++ [32, 13, 10, 9]).flatten ++ wrap 0 rest := by
  induction words with
  | nil => rfl
  | cons w words ih =>
    rw [spaced_cons, List.append_assoc, List.cons_append, wrap_space, ih]
    simp

theorem mem_wrap {lcount : Nat} {s : Bytes} {c : UInt8} (h : c ∈ wrap lcount s) :
    c ∈ s ∨ c = 13 ∨ c = 10 ∨ c = 9 := by
  induction s generalizing lcount with
  | nil => simp [wrap] at h
  | cons d s ih =>
    rw [wrap] at h
    split at h
    · simp only [List.mem_cons] at h
      rcases h with rfl | rfl | rfl | rfl | h
      · simp
      · simp
      · simp
      · simp
      · exact (ih h).imp_left (List.mem_cons_of_mem _)
    · rcases List.mem_cons.mp h with rfl | h
      · simp
      · exact (ih h).imp_left (List.mem_cons_of_mem _)

/-- Three bytes more for each SP and each full line. -/
theorem wrap_length_le {lcount : Nat} (h : lcount ≤ 75) (s : Bytes) :
    (wrap lcount s).length ≤ s.length + 3 * (s.count 32 + (s.length + lcount) / 76) := by
  induction s generalizing lcount with
  | nil => simp [wrap]
  | cons c s ih =>
    have hrest := ih (show 0 ≤ 75 by omega)
    rw [wrap]
    split
    · next hbreak =>
      simp only [List.length_cons]
      rcases hbreak with rfl | rfl
      · rw [List.count_cons_self]
        omega
      · have := List.count_le_count_cons (a := (32 : UInt8)) (b := c) (l := s)
        omega
    · next hbreak =>
      have hnext := ih (show lcount + 1 ≤ 75 by omega)
      rw [List.count_cons_of_ne (by tauto)]
      simp only [List.length_cons]
      omega

/-- A word that ends in front of the 76th byte is not touched. -/
theorem wrap_of_short {lcount : Nat} {w : Bytes} (hw : ∀ c ∈ w, c ≠ 32)
    (h : w.length + lcount ≤ 75) (rest : Bytes) :
    wrap lcount (w ++ rest) = w ++ wrap (lcount + w.length) rest := by
  induction w generalizing lcount with
  | nil => simp
  | cons c w ih =>
    rw [List.length_cons] at h
    have hc : ¬(c = 32 ∨ lcount = 75) := by
      rintro (rfl | h75)
      · exact hw 32 List.mem_cons_self rfl
      · omega
    rw [List.cons_append, wrap, if_neg hc,
      ih (fun d hd => hw d (List.mem_cons_of_mem _ hd)) (by omega), List.length_cons,
      List.cons_append, show lcount + 1 + w.length = lcount + (w.length + 1) by omega]

/-- How much of a wrapped word is stored: two bytes more for each new line. -/
theorem withoutBlanks_wrap_length {lcount : Nat} {w : Bytes} (hw : ∀ c ∈ w, isWsp c = false)
    (h : lcount ≤ 75) :
    (withoutBlanks (wrap lcount w)).length = w.length + 2 * ((w.length + lcount) / 76) := by
  induction w generalizing lcount with
  | nil =>
    rw [List.length_nil, show (0 + lcount) / 76 = 0 by omega]
    rfl
  | cons c w ih =>
    have hc := hw c List.mem_cons_self
    have hrest : ∀ d ∈ w, isWsp d = false := fun d hd => hw d (List.mem_cons_of_mem _ hd)
    have h32 : c ≠ 32 := by
      rintro rfl
      exact absurd hc (by decide)
    have hkeep : ∀ s, (withoutBlanks (c :: s)).length = (withoutBlanks s).length + 1 := by
      intro s
      rw [withoutBlanks_cons, if_neg (by rw [hc]; decide), List.length_cons]
    rw [wrap]
    by_cases h75 : lcount = 75
    · have hline : ∀ s, withoutBlanks (13 :: 10 :: 9 :: s) = 13 :: 10 :: withoutBlanks s := by
        intro s
        rw [withoutBlanks_cons, if_neg (by decide), withoutBlanks_cons, if_neg (by decide),
          withoutBlanks_cons, if_pos (by decide)]
      rw [if_pos (.inr h75), hkeep, hline, List.length_cons, List.length_cons,
        ih hrest (by omega), List.length_cons]
      omega
    · rw [if_neg (by tauto), hkeep, ih hrest (by omega), List.length_cons]
      omega

/-! ## Its canonical form -/

/-- The wrapped text without its CRLFs. -/
def tabbed (lcount : Nat) : Bytes → Bytes
  | [] => []
  | c :: s => if c = 32 ∨ lcount = 75 then c :: 9 :: tabbed 0 s else c :: tabbed (lcount + 1) s

theorem removeCrlf_wrap {s : Bytes} (h : (13 : UInt8) ∉ s) (lcount : Nat) :
    removeCrlf (wrap lcount s) = tabbed lcount s := by
  induction s generalizing lcount with
  | nil => rw [wrap, tabbed, removeCrlf]
  | cons c s ih =>
    simp only [List.mem_cons, not_or] at h
    have hpair : ∀ t, removeCrlf (13 :: 10 :: t) = removeCrlf t := by
      intro t
      rw [removeCrlf, if_pos ⟨rfl, rfl⟩, List.tail_cons]
    rw [wrap, tabbed]
    split
    · rw [removeCrlf_cons (Ne.symm h.1), hpair, removeCrlf_cons (by decide), ih h.2]
    · rw [removeCrlf_cons (Ne.symm h.1), ih h.2]

/-- A word in canonical form, when it is wrapped: a SP behind each full line,
but for the end of the word. -/
def broken (lcount : Nat) : Bytes → Bytes
  | [] => []
  | c :: s => if lcount = 75 ∧ s ≠ [] then c :: 32 :: broken 0 s else c :: broken (lcount + 1) s

theorem broken_of_fits {lcount : Nat} {w : Bytes} (h : w.length + lcount ≤ 76) :
    broken lcount w = w := by
  induction w generalizing lcount with
  | nil => rfl
  | cons c w ih =>
    rw [List.length_cons] at h
    have hlast : ¬(lcount = 75 ∧ w ≠ []) := by
      rintro ⟨h75, hne⟩
      have := List.length_pos_iff.mpr hne
      omega
    rw [broken, if_neg hlast, ih (by omega)]

/-- A longer word has a SP behind the first line. -/
theorem broken_of_long {lcount : Nat} {w : Bytes} (h : lcount ≤ 75) (hlong : 76 < w.length + lcount) :
    ∃ rest, broken lcount w = w.take (76 - lcount) ++ 32 :: rest := by
  induction w generalizing lcount with
  | nil =>
    rw [List.length_nil] at hlong
    omega
  | cons c w ih =>
    rw [List.length_cons] at hlong
    rw [broken]
    by_cases h75 : lcount = 75
    · have hne : w ≠ [] := List.length_pos_iff.mp (by omega)
      subst h75
      exact ⟨broken 0 w, by rw [if_pos ⟨rfl, hne⟩]; rfl⟩
    · obtain ⟨rest, hrest⟩ := ih (show lcount + 1 ≤ 75 by omega) (by omega)
      refine ⟨rest, ?_⟩
      rw [if_neg fun hc => h75 hc.1, hrest, show 76 - lcount = 76 - (lcount + 1) + 1 by omega,
        List.take_succ_cons, List.cons_append]

theorem broken_length {lcount : Nat} {w : Bytes} (h : lcount ≤ 75) (hne : w ≠ []) :
    (broken lcount w).length = w.length + (w.length + lcount - 1) / 76 := by
  induction w generalizing lcount with
  | nil => exact absurd rfl hne
  | cons c w ih =>
    rw [broken]
    by_cases hw : w = []
    · subst hw
      simp only [ne_eq, not_true_eq_false, and_false, if_false, broken, List.length_cons,
        List.length_nil]
      omega
    · have hpos := List.length_pos_iff.mpr hw
      by_cases h75 : lcount = 75
      · rw [if_pos ⟨h75, hw⟩, List.length_cons, List.length_cons, ih (by omega) hw,
          List.length_cons]
        omega
      · rw [if_neg fun hc => h75 hc.1, List.length_cons, ih (by omega) hw, List.length_cons]
        omega

theorem broken_append {lcount : Nat} {w : Bytes} (h : w.length + lcount ≤ 75) (rest : Bytes) :
    broken lcount (w ++ rest) = w ++ broken (lcount + w.length) rest := by
  induction w generalizing lcount with
  | nil => simp
  | cons c w ih =>
    rw [List.length_cons] at h
    rw [List.cons_append, broken, if_neg (by omega), ih (by omega), List.length_cons,
      List.cons_append, show lcount + 1 + w.length = lcount + (w.length + 1) by omega]

/-- **A word of the wrapped text**, with nothing behind it or a SP. -/
theorem joinWords_tabbed {w rest : Bytes} (hw : Word w) (hrest : rest = [] ∨ rest.head? = some 32)
    (g : Gap) (lcount : Nat) :
    joinWords g (tabbed lcount (w ++ rest)) =
      (if g = .gap then [32] else []) ++ broken lcount w ++ joinWords .gap (tabbed 0 rest) := by
  -- what follows the word does not depend on the counter
  have hbehind : ∀ n, joinWords .word (tabbed n rest) = joinWords .gap (tabbed 0 rest) := by
    intro n
    rcases hrest with rfl | hhead
    · rfl
    · obtain ⟨rest, rfl⟩ : ∃ tail, rest = 32 :: tail := ⟨_, List.eq_cons_of_mem_head? hhead⟩
      rw [tabbed, tabbed, if_pos (.inl rfl), if_pos (.inl rfl), joinWords_wsp (by decide),
        joinWords_wsp (by decide)]
      rfl
  have hbehindGap : joinWords .gap (tabbed 0 rest) = joinWords .word (9 :: tabbed 0 rest) := by
    rw [joinWords_wsp (by decide)]
    rfl
  obtain ⟨hne, hchars⟩ := hw
  induction w generalizing g lcount with
  | nil => exact absurd rfl hne
  | cons c w ih =>
    have hword : Word (c :: w) := ⟨hne, hchars⟩
    have hc : ¬isWsp c = true := by rw [hword.not_isWsp c List.mem_cons_self]; decide
    have h32 : c ≠ 32 := hword.ne_space c List.mem_cons_self
    have hrestChars : ∀ d ∈ w, d ≠ 0 ∧ isFolding d = false :=
      fun d hd => hchars d (List.mem_cons_of_mem _ hd)
    have hfirst : ∀ s, joinWords g (c :: s) = (if g = .gap then [32] else []) ++ c :: joinWords .word s := by
      intro s
      rw [joinWords_word hc]
      split <;> simp
    by_cases h75 : lcount = 75
    · rw [List.cons_append, tabbed, if_pos (.inr h75), hfirst]
      by_cases hnil : w = []
      · subst hnil
        simp [broken, ← hbehindGap]
      · have hbroken : broken lcount (c :: w) = c :: 32 :: broken 0 w := by
          rw [broken, if_pos ⟨h75, hnil⟩]
        have hnext := ih .gap 0 hnil hrestChars
        rw [if_pos rfl] at hnext
        have hline : joinWords .word (9 :: tabbed 0 (w ++ rest)) =
            32 :: (broken 0 w ++ joinWords .gap (tabbed 0 rest)) := by
          rw [joinWords_wsp (by decide)]
          simpa using hnext
        rw [hline, hbroken]
        simp
    · have hbroken : broken lcount (c :: w) = c :: broken (lcount + 1) w := by
        rw [broken, if_neg fun h => h75 h.1]
      rw [List.cons_append, tabbed, if_neg (by tauto), hfirst, hbroken]
      by_cases hnil : w = []
      · subst hnil
        simp [broken, hbehind]
      · have hnext := ih .word (lcount + 1) hnil hrestChars
        rw [if_neg (by decide)] at hnext
        rw [hnext]
        simp

theorem spaced_plain {words : List Bytes} {last : Bytes} (hwords : ∀ w ∈ words, Word w)
    (hlast : Word last) : ∀ c ∈ spaced words ++ last, c ≠ 0 ∧ c ≠ 13 := by
  intro c hc
  rcases List.mem_append.mp hc with hc | hc
  · exact forall_mem_spaced (p := fun c => c ≠ 0 ∧ c ≠ 13) (by decide)
      (fun w hw d hd => ⟨((hwords w hw).2 d hd).1, (hwords w hw).ne_cr d hd⟩) c hc
  · exact ⟨(hlast.2 c hc).1, hlast.ne_cr c hc⟩

theorem wrap_nul {words : List Bytes} {last : Bytes} (hwords : ∀ w ∈ words, Word w)
    (hlast : Word last) : (0 : UInt8) ∉ wrap 0 (spaced words ++ last) := by
  intro h0
  rcases mem_wrap h0 with h | h | h | h
  · exact (spaced_plain hwords hlast 0 h).1 rfl
  all_goals exact absurd h (by decide)

/-- **Wrapped words in canonical form.** -/
theorem relaxedValue_wrap {words : List Bytes} {last : Bytes} (hwords : ∀ w ∈ words, Word w)
    (hlast : Word last) :
    relaxedValue (wrap 0 (spaced words ++ last)) =
      spaced (words.map (broken 0)) ++ broken 0 last := by
  rw [relaxedValue_eq_joinWords (wrap_nul hwords hlast),
    removeCrlf_wrap fun h => (spaced_plain hwords hlast 13 h).2 rfl]
  -- behind the first word, every word follows a gap
  have hgap : ∀ g, joinWords g (tabbed 0 (spaced words ++ last)) =
      (if g = .gap then [32] else []) ++ (spaced (words.map (broken 0)) ++ broken 0 last) := by
    induction words with
    | nil =>
      intro g
      have hend := joinWords_tabbed hlast (.inl rfl) g 0
      rw [List.append_nil] at hend
      simpa [tabbed, joinWords] using hend
    | cons w words ih =>
      intro g
      have hnext := ih (fun w' hw' => hwords w' (List.mem_cons_of_mem _ hw')) .gap
      rw [if_pos rfl] at hnext
      have hbehind : joinWords .gap (tabbed 0 (32 :: (spaced words ++ last))) =
          32 :: (spaced (words.map (broken 0)) ++ broken 0 last) := by
        rw [tabbed, if_pos (.inl rfl), joinWords_wsp (by decide), joinWords_wsp (by decide)]
        simpa using hnext
      rw [spaced_cons, List.append_assoc, List.cons_append,
        joinWords_tabbed (hwords w List.mem_cons_self) (.inr rfl) g 0, hbehind]
      simp
  simpa using hgap .start

/-- **Words that stand in their wrapped text fit their lines.** -/
theorem fits_of_isPrefix {words : List Bytes} (hwords : ∀ w ∈ words, ∀ c ∈ w, c ≠ 32) {x y : Bytes}
    (h : spaced words ++ x <+: spaced (words.map (broken 0)) ++ y) : ∀ w ∈ words, w.length ≤ 76 := by
  induction words with
  | nil => simp
  | cons w words ih =>
    rw [spaced_cons, List.map_cons, spaced_cons, List.append_assoc, List.append_assoc,
      List.cons_append, List.cons_append] at h
    have hw : w.length ≤ 76 := by
      by_contra hlong
      obtain ⟨rest, hrest⟩ := broken_of_long (w := w) (show 0 ≤ 75 by omega) (by omega)
      -- the byte behind the first line would be the SP
      obtain ⟨c, t, ht⟩ : ∃ c t, w.drop 76 = c :: t :=
        List.exists_cons_of_length_pos (by rw [List.length_drop]; omega)
      have hsplit : w = w.take 76 ++ c :: t := by rw [← ht, List.take_append_drop]
      have hmem : c ∈ w := by
        rw [hsplit]
        simp
      rw [hrest] at h
      nth_rewrite 1 [hsplit] at h
      rw [List.append_assoc, List.append_assoc, List.prefix_append_right_inj, List.cons_append,
        List.cons_append, List.cons_prefix_cons] at h
      exact hwords w List.mem_cons_self c hmem h.1
    rw [broken_of_fits (by omega), List.prefix_append_right_inj, List.cons_prefix_cons] at h
    intro w' hw'
    rcases List.mem_cons.mp hw' with rfl | hw'
    · exact hw
    · exact ih (fun v hv => hwords v (List.mem_cons_of_mem _ hv)) h.2 w' hw'

end ComfirmDmarc.Dkim
