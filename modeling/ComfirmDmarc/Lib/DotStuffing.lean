import Mathlib.Data.List.Infix

/-!
# Dot-stuffed lines

A text of CRLF-terminated lines is sent with a dot in front of every line that
starts with one, and ends with the line of a single dot. No other place of the
transmission looks like its end.
-/

namespace DotStuffing

abbrev Line := List UInt8

def crlf : List UInt8 := [13, 10]

/-- What follows the last line but its CRLF. -/
def endOfText : List UInt8 := [13, 10, 46, 13, 10]

def stuffLine (l : Line) : Line := if l.head? = some 46 then 46 :: l else l

/-- The lines with CRLF between them. -/
def joinLines : List Line → List UInt8
  | [] => []
  | [l] => l
  | l :: l' :: ls => l ++ crlf ++ joinLines (l' :: ls)

/-- The stuffed lines and the end of the text. -/
def transmit (ls : List Line) : List UInt8 := joinLines (ls.map stuffLine) ++ endOfText

/-- A line holds no CRLF. -/
def IsLine (l : Line) : Prop := ¬crlf <:+: l

theorem stuffLine_length (l : Line) :
    (stuffLine l).length = l.length + if l.head? = some 46 then 1 else 0 := by
  unfold stuffLine
  split <;> simp

theorem joinLines_length_le (ls : List Line) :
    (joinLines ls).length ≤ (joinLines (ls.map stuffLine)).length ∧
      ((joinLines ls).length = (joinLines (ls.map stuffLine)).length →
        ∀ l ∈ ls, l.head? ≠ some 46) := by
  fun_induction joinLines ls with
  | case1 => simp
  | case2 l =>
    simp only [List.map_cons, List.map_nil, joinLines, stuffLine_length]
    refine ⟨by omega, fun h l' hl' => ?_⟩
    obtain rfl := List.mem_singleton.mp hl'
    intro hdot
    rw [if_pos hdot] at h
    omega
  | case3 l l' ls ih =>
    simp only [List.map_cons, joinLines, List.length_append, stuffLine_length] at ih ⊢
    refine ⟨by omega, fun h => ?_⟩
    rw [List.forall_mem_cons]
    refine ⟨fun hdot => ?_, ih.2 (by omega)⟩
    rw [if_pos hdot] at h
    omega

/-- **Stuffing changes a text exactly if a line starts with a dot.** -/
theorem joinLines_stuffed_iff (ls : List Line) :
    joinLines (ls.map stuffLine) = joinLines ls ↔ ∀ l ∈ ls, l.head? ≠ some 46 := by
  constructor
  · intro h
    exact (joinLines_length_le ls).2 (by rw [h])
  · intro h
    have hid : ls.map stuffLine = ls.map id := List.map_congr_left fun l hl => if_neg (h l hl)
    rw [hid, List.map_id]

/-- Stuffing adds no CRLF to a line. -/
theorem IsLine.stuffLine {l : Line} (h : IsLine l) : IsLine (stuffLine l) := by
  unfold DotStuffing.stuffLine
  split
  · intro hin
    rcases List.infix_cons_iff.mp hin with hpre | hin
    · exact absurd (List.cons_prefix_cons.mp hpre).1 (by decide)
    · exact h hin
  · exact h

/-- The first CRLF behind a line is the one that ends it. -/
theorem IsLine.append_crlf {l x a y : List UInt8} (h : IsLine l)
    (heq : l ++ crlf ++ x = a ++ crlf ++ y) :
    (a = l ∧ y = x) ∨ ∃ a', a = l ++ crlf ++ a' ∧ x = a' ++ crlf ++ y := by
  induction l generalizing a with
  | nil =>
    cases a with
    | nil => exact .inl ⟨rfl, by simpa [crlf] using heq.symm⟩
    | cons p a =>
      cases a with
      | nil => simp [crlf] at heq
      | cons q a =>
        simp only [crlf, List.nil_append, List.cons_append, List.cons.injEq] at heq
        obtain ⟨rfl, rfl, hx⟩ := heq
        exact .inr ⟨a, by simp [crlf], by simpa [crlf] using hx⟩
  | cons c l ih =>
    have hl : IsLine l := fun hin => h (List.infix_cons hin)
    cases a with
    | nil =>
      -- the line would start with the CRLF
      cases l with
      | nil => simp [crlf] at heq
      | cons d l =>
        simp only [crlf, List.nil_append, List.cons_append, List.cons.injEq] at heq
        exact absurd ⟨[], l, by simp [crlf, heq.1, heq.2.1]⟩ h
    | cons p a =>
      simp only [List.cons_append, List.cons.injEq] at heq
      obtain ⟨rfl, heq⟩ := heq
      rcases ih hl heq with ⟨rfl, rfl⟩ | ⟨a', rfl, rfl⟩
      · exact .inl ⟨rfl, rfl⟩
      · exact .inr ⟨a', rfl, rfl⟩

/-- A stuffed line is no single dot, whatever follows it. -/
theorem stuffLine_ne_dot (l : Line) (x y : List UInt8) :
    stuffLine l ++ crlf ++ x ≠ [46, 13, 10] ++ y := by
  unfold stuffLine
  split
  · rename_i hdot
    cases l with
    | nil => simp at hdot
    | cons c l =>
      obtain rfl := Option.some.inj hdot
      simp
  · rename_i hdot
    cases l with
    | nil => simp [crlf]
    | cons c l =>
      intro h
      exact hdot (by simpa using (List.cons.inj h).1)

/-- **The end of a transmission is its only one.** -/
theorem transmit_end_unique {ls : List Line} (hne : ls ≠ []) (hls : ∀ l ∈ ls, IsLine l)
    {a r : List UInt8} (h : transmit ls = a ++ endOfText ++ r) : r = [] := by
  have hmark : endOfText = crlf ++ [46, 13, 10] := rfl
  induction ls generalizing a with
  | nil => exact absurd rfl hne
  | cons l ls ih =>
    obtain ⟨hl, hls⟩ := List.forall_mem_cons.mp hls
    cases ls with
    | nil =>
      have heq : stuffLine l ++ crlf ++ [46, 13, 10] = a ++ crlf ++ ([46, 13, 10] ++ r) := by
        simpa [transmit, joinLines, hmark] using h
      rcases hl.stuffLine.append_crlf heq with ⟨-, hr⟩ | ⟨a', -, hx⟩
      · simpa using hr
      -- behind the line there is no room for another end
      · have := congrArg List.length hx
        simp [crlf] at this
        omega
    | cons l' ls =>
      have heq : stuffLine l ++ crlf ++ transmit (l' :: ls) = a ++ crlf ++ ([46, 13, 10] ++ r) := by
        simpa [transmit, joinLines, hmark] using h
      rcases hl.stuffLine.append_crlf heq with ⟨-, hr⟩ | ⟨a', -, hx⟩
      · refine absurd hr.symm ?_
        cases ls with
        | nil =>
          have := stuffLine_ne_dot l' [46, 13, 10] r
          simpa [transmit, joinLines, hmark] using this
        | cons l'' ls =>
          have := stuffLine_ne_dot l' (transmit (l'' :: ls)) r
          simpa [transmit, joinLines, hmark] using this
      · exact ih (a := a') (by simp) hls (by rw [hx, hmark]; simp)

end DotStuffing
