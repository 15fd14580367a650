import ComfirmDmarc.Lib.CMemory
import Mathlib.Data.List.GetD
import Mathlib.Data.List.Nodup

/-!
# Base64

The base64 text of a list of bytes: four digits for every three bytes, the last
ones padded. Texts of lists of one length are as long as each other and tell
the lists apart.
-/

namespace Base64

open CMemory

def alphabet : Bytes := bytes "ABCDEFGHIJKLMNOPQRSTUVWXYZabcdefghijklmnopqrstuvwxyz0123456789+/"

/-- The digit for a value below 64. -/
def digit (n : Nat) : UInt8 := alphabet.getD n 0

def pad : UInt8 := 61

/-- The text of a list of bytes. -/
def encode : Bytes → Bytes
  | [] => []
  | [a] => [digit (a.toNat / 4), digit (a.toNat % 4 * 16), pad, pad]
  | [a, b] =>
    [digit (a.toNat / 4), digit (a.toNat % 4 * 16 + b.toNat / 16), digit (b.toNat % 16 * 4), pad]
  | a :: b :: c :: s =>
    digit (a.toNat / 4) :: digit (a.toNat % 4 * 16 + b.toNat / 16) ::
      digit (b.toNat % 16 * 4 + c.toNat / 64) :: digit (c.toNat % 64) :: encode s

theorem alphabet_length : alphabet.length = 64 := by
  rw [alphabet, bytes_ofList]
  rfl

theorem alphabet_nodup : alphabet.Nodup := by
  rw [alphabet, bytes_ofList]
  decide

theorem digit_eq_getElem {n : Nat} (h : n < 64) : digit n = alphabet.get ⟨n, alphabet_length.symm ▸ h⟩ :=
  List.getD_eq_getElem _ _ _

theorem digit_inj : ∀ m < 64, ∀ n < 64, digit m = digit n → m = n := by
  intro m hm n hn h
  rw [digit_eq_getElem hm, digit_eq_getElem hn] at h
  exact alphabet_nodup.getElem_inj_iff.mp h

theorem encode_length (s : Bytes) : (encode s).length = (s.length + 2) / 3 * 4 := by
  fun_induction encode s with
  | case1 => rfl
  | case2 a => simp
  | case3 a b => simp
  | case4 a b c s ih =>
    simp only [List.length_cons, ih]
    omega

/-- The first byte and the first digits. -/
theorem byte_eq_of_digits {a a' m m' : Nat} (ha : a < 256) (ha' : a' < 256) (hm : m < 16)
    (hm' : m' < 16) (h0 : digit (a / 4) = digit (a' / 4))
    (h1 : digit (a % 4 * 16 + m) = digit (a' % 4 * 16 + m')) : a = a' ∧ m = m' := by
  have e0 := digit_inj (a / 4) (by omega) (a' / 4) (by omega) h0
  have e1 := digit_inj (a % 4 * 16 + m) (by omega) (a' % 4 * 16 + m') (by omega) h1
  omega

/-- **The text tells lists of one length apart.** -/
theorem encode_inj {s s' : Bytes} (hlen : s.length = s'.length) (h : encode s = encode s') :
    s = s' := by
  fun_induction encode s generalizing s' with
  | case1 => exact (List.length_eq_zero_iff.mp hlen.symm).symm
  | case2 a =>
    obtain ⟨a', rfl⟩ := List.length_eq_one_iff.mp hlen.symm
    simp only [encode, List.cons.injEq, and_true] at h
    have ha := @byte_eq_of_digits a.toNat a'.toNat 0 0 a.toNat_lt a'.toNat_lt (by omega) (by omega)
      h.1 h.2
    rw [UInt8.toNat_inj.mp ha.1]
  | case3 a b =>
    obtain ⟨a', b', rfl⟩ := List.length_eq_two.mp hlen.symm
    have hb := b.toNat_lt
    have hb' := b'.toNat_lt
    simp only [encode, List.cons.injEq, and_true] at h
    obtain ⟨ha, hhigh⟩ := byte_eq_of_digits a.toNat_lt a'.toNat_lt (by omega) (by omega) h.1 h.2.1
    have hlow := digit_inj _ (by omega) _ (by omega) h.2.2
    rw [UInt8.toNat_inj.mp ha, UInt8.toNat_inj.mp (show b.toNat = b'.toNat by omega)]
  | case4 a b c s ih =>
    match s', hlen with
    | a' :: b' :: c' :: s', hlen =>
      have hb := b.toNat_lt
      have hb' := b'.toNat_lt
      have hc := c.toNat_lt
      have hc' := c'.toNat_lt
      simp only [encode, List.cons.injEq] at h
      obtain ⟨ha, hhigh⟩ :=
        byte_eq_of_digits a.toNat_lt a'.toNat_lt (by omega) (by omega) h.1 h.2.1
      have hmid := digit_inj _ (by omega) _ (by omega) h.2.2.1
      have hlow := digit_inj _ (by omega) _ (by omega) h.2.2.2.1
      rw [UInt8.toNat_inj.mp ha, UInt8.toNat_inj.mp (show b.toNat = b'.toNat by omega),
        UInt8.toNat_inj.mp (show c.toNat = c'.toNat by omega),
        ih (by simpa using hlen) h.2.2.2.2]

theorem digit_mem {n : Nat} (h : n < 64) : digit n ∈ alphabet := by
  rw [digit_eq_getElem h]
  exact List.get_mem _ _

theorem mem_encode {s : Bytes} {c : UInt8} (h : c ∈ encode s) : c ∈ alphabet ∨ c = pad := by
  fun_induction encode s with
  | case1 => simp at h
  | case2 a =>
    have ha := a.toNat_lt
    simp only [List.mem_cons, List.not_mem_nil, or_false] at h
    rcases h with rfl | rfl | rfl | rfl
    · exact .inl (digit_mem (by omega))
    · exact .inl (digit_mem (by omega))
    · exact .inr rfl
    · exact .inr rfl
  | case3 a b =>
    have ha := a.toNat_lt
    have hb := b.toNat_lt
    simp only [List.mem_cons, List.not_mem_nil, or_false] at h
    rcases h with rfl | rfl | rfl | rfl
    · exact .inl (digit_mem (by omega))
    · exact .inl (digit_mem (by omega))
    · exact .inl (digit_mem (by omega))
    · exact .inr rfl
  | case4 a b c s ih =>
    have ha := a.toNat_lt
    have hb := b.toNat_lt
    have hc := c.toNat_lt
    simp only [List.mem_cons] at h
    rcases h with rfl | rfl | rfl | rfl | h
    · exact .inl (digit_mem (by omega))
    · exact .inl (digit_mem (by omega))
    · exact .inl (digit_mem (by omega))
    · exact .inl (digit_mem (by omega))
    · exact ih h

theorem digit_ne_pad {n : Nat} (h : n < 64) : digit n ≠ pad := by
  have hpad : pad ∉ alphabet := by
    rw [alphabet, bytes_ofList]
    decide
  intro heq
  exact hpad (heq ▸ digit_mem h)

/-- At most one byte stands behind padding. -/
theorem length_behind_pad {s u v : Bytes} (h : encode s = u ++ pad :: v) : v.length ≤ 1 := by
  have hne : ∀ {n : Nat}, n < 64 → ∀ {w x}, digit n :: w ≠ [] ++ pad :: x := fun hn _ _ heq =>
    digit_ne_pad hn (List.cons.inj heq).1
  fun_induction encode s generalizing u with
  | case1 => exact absurd h (by simp)
  | case2 a =>
    have ha := a.toNat_lt
    cases u with
    | nil => exact absurd h (hne (by omega))
    | cons d u =>
      cases u with
      | nil => exact absurd (List.cons.inj h).2 (hne (by omega))
      | cons d' u =>
        have hlen := congrArg List.length h
        simp only [List.length_cons, List.length_append, List.length_nil] at hlen
        omega
  | case3 a b =>
    have ha := a.toNat_lt
    have hb := b.toNat_lt
    cases u with
    | nil => exact absurd h (hne (by omega))
    | cons d u =>
      have hlen := congrArg List.length h
      cases u with
      | nil => exact absurd (List.cons.inj h).2 (hne (by omega))
      | cons d' u =>
        simp only [List.length_cons, List.length_append, List.length_nil] at hlen
        omega
  | case4 a b c s ih =>
    have ha := a.toNat_lt
    have hb := b.toNat_lt
    have hc := c.toNat_lt
    rcases u with _ | ⟨d0, _ | ⟨d1, _ | ⟨d2, _ | ⟨d3, u⟩⟩⟩⟩
    · exact absurd h (hne (by omega))
    · exact absurd (List.cons.inj h).2 (hne (by omega))
    · exact absurd (List.cons.inj (List.cons.inj h).2).2 (hne (by omega))
    · exact absurd (List.cons.inj (List.cons.inj (List.cons.inj h).2).2).2 (hne (by omega))
    · simp only [List.cons_append, List.cons.injEq] at h
      exact ih h.2.2.2.2
/-- Digits and padding are no line breaks. -/
theorem encode_no_break (s : Bytes) : ∀ c ∈ encode s, c ≠ 0 ∧ c ≠ 10 ∧ c ≠ 13 := by
  have hdigits : ∀ c ∈ alphabet, c ≠ 0 ∧ c ≠ 10 ∧ c ≠ 13 := by
    have hall : alphabet.all (fun c => c != 0 && (c != 10 && c != 13)) = true := by
      rw [alphabet, bytes_ofList]
      rfl
    simpa using hall
  intro c hc
  rcases mem_encode hc with hdigit | rfl
  · exact hdigits c hdigit
  · decide

/-! ## Lines -/

/-- A text in lines of 64 bytes. -/
def lines (s : Bytes) : Bytes := if s = [] then [] else s.take 64 ++ 10 :: lines (s.drop 64)
termination_by s.length
decreasing_by
  rename_i hne
  have := List.length_pos_iff.mpr hne
  rw [List.length_drop]
  omega

/-- The lines of a text without line breaks: an LF ends the last one, and the
text is what is left without them. -/
theorem lines_spec {s : Bytes} (h : ∀ c ∈ s, c ≠ 0 ∧ c ≠ 10 ∧ c ≠ 13) (hne : s ≠ []) :
    ∃ body, lines s = body ++ [10] ∧ (0 : UInt8) ∉ body ∧
      (body.filter fun c => c ≠ 13 ∧ c ≠ 10) = s := by
  have hkeep : ∀ t : Bytes, (∀ c ∈ t, c ≠ 0 ∧ c ≠ 10 ∧ c ≠ 13) →
      (t.filter fun c => c ≠ 13 ∧ c ≠ 10) = t := by
    intro t ht
    exact List.filter_eq_self.mpr fun c hc => by simpa using ⟨(ht c hc).2.2, (ht c hc).2.1⟩
  have htake : ∀ c ∈ s.take 64, c ≠ 0 ∧ c ≠ 10 ∧ c ≠ 13 := fun c hc => h c (List.mem_of_mem_take hc)
  fun_induction lines s with
  | case1 => exact absurd rfl hne
  | case2 s hs ih =>
    by_cases hlast : s.drop 64 = []
    · rw [hlast, lines, if_pos rfl]
      have hall : s.take 64 = s := by
        rw [← List.take_append_drop 64 s, hlast, List.append_nil, List.take_take]
        rfl
      rw [hall]
      exact ⟨s, rfl, fun h0 => (h 0 h0).1 rfl, hkeep s h⟩
    · have hdrop : ∀ c ∈ s.drop 64, c ≠ 0 ∧ c ≠ 10 ∧ c ≠ 13 :=
        fun c hc => h c (List.mem_of_mem_drop hc)
      obtain ⟨body, hbody, hnul, hfilter⟩ := ih hdrop hlast
        fun c hc => hdrop c (List.mem_of_mem_take hc)
      refine ⟨s.take 64 ++ 10 :: body, by rw [hbody]; simp, ?_, ?_⟩
      · simp only [List.mem_append, List.mem_cons, not_or]
        exact ⟨fun h0 => (htake 0 h0).1 rfl, by decide, hnul⟩
      · rw [List.filter_append, hkeep _ htake, List.filter_cons_of_neg (by simp), hfilter,
          List.take_append_drop]

end Base64
