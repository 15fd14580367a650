import ComfirmDmarc.Lib.Json

/-!
# JSON string literals over characters

The grammar of a string literal, as a relation between its characters and the
text it stands for, and the UTF-8 bytes of both. A literal stands for one text
only.
-/

namespace JsonText

open CMemory

/-! ## UTF-8 -/

/-- The UTF-8 bytes of a text. -/
def encode (s : List Char) : Bytes := s.flatMap String.utf8EncodeChar

@[simp] theorem encode_nil : encode [] = [] := rfl

@[simp] theorem encode_cons (c : Char) (s : List Char) :
    encode (c :: s) = String.utf8EncodeChar c ++ encode s := rfl

theorem encode_append (s t : List Char) : encode (s ++ t) = encode s ++ encode t :=
  List.flatMap_append

/-- An ASCII character is its own byte. -/
theorem utf8EncodeChar_ascii {c : Char} (h : c.toNat < 128) :
    String.utf8EncodeChar c = [UInt8.ofNat c.toNat] := by
  have hle : c.val.toNat ≤ 127 := Nat.le_of_lt_succ h
  rw [String.utf8EncodeChar, if_pos hle]
  rfl

/-- No byte of another character is ASCII. -/
theorem utf8EncodeChar_high {c : Char} (h : ¬c.toNat < 128) {b : UInt8}
    (hb : b ∈ String.utf8EncodeChar c) : 128 ≤ b := by
  have hgt : ¬c.val.toNat ≤ 127 := fun hle => h (Nat.lt_succ_of_le hle)
  rw [String.utf8EncodeChar, if_neg hgt] at hb
  have hbyte : ∀ n, 128 ≤ n → n < 256 → 128 ≤ UInt8.ofNat n := by
    intro n hlow hhigh
    rw [UInt8.le_iff_toNat_le, UInt8.toNat_ofNat_of_lt' hhigh]
    exact hlow
  split_ifs at hb
  · simp only [List.mem_cons, List.not_mem_nil, or_false] at hb
    rcases hb with rfl | rfl <;> exact hbyte _ (by omega) (by omega)
  · simp only [List.mem_cons, List.not_mem_nil, or_false] at hb
    rcases hb with rfl | rfl | rfl <;> exact hbyte _ (by omega) (by omega)
  · simp only [List.mem_cons, List.not_mem_nil, or_false] at hb
    rcases hb with rfl | rfl | rfl | rfl <;> exact hbyte _ (by omega) (by omega)

/-! ## The grammar -/

/-- The quotation mark. -/
def quote : Char := Char.ofNat 34

/-- The backslash. -/
def slash : Char := Char.ofNat 92

/-- The characters behind a backslash, other than `u`, with what they stand
for. -/
def escapes : List (Char × Char) :=
  [(quote, quote), (slash, slash), ('/', '/'), ('b', Char.ofNat 8), ('f', Char.ofNat 12),
    ('n', Char.ofNat 10), ('r', Char.ofNat 13), ('t', Char.ofNat 9)]

def hexChar (c : Char) : Option Nat :=
  if 48 ≤ c.toNat ∧ c.toNat ≤ 57 then some (c.toNat - 48)
  else if 65 ≤ c.toNat ∧ c.toNat ≤ 70 then some (c.toNat - 55)
  else if 97 ≤ c.toNat ∧ c.toNat ≤ 102 then some (c.toNat - 87)
  else none

/-- The UTF-16 code unit of four digits. -/
def codeUnit (a b c d : Char) : Option Nat := do
  return (((← hexChar a) * 16 + (← hexChar b)) * 16 + (← hexChar c)) * 16 + (← hexChar d)

/-- `StringChars t s`: the characters `t` between two quotation marks stand for
the text `s`. -/
inductive StringChars : List Char → List Char → Prop
  | nil : StringChars [] []
  | plain {c : Char} {t s : List Char} : 32 ≤ c.toNat → c ≠ quote → c ≠ slash → StringChars t s →
      StringChars (c :: t) (c :: s)
  | escape {e x : Char} {t s : List Char} : (e, x) ∈ escapes → StringChars t s →
      StringChars (slash :: e :: t) (x :: s)
  | unicode {a b c d x : Char} {t s : List Char} : codeUnit a b c d = some x.toNat →
      StringChars t s → StringChars (slash :: 'u' :: a :: b :: c :: d :: t) (x :: s)
  | pair {a b c d a' b' c' d' x : Char} {high low : Nat} {t s : List Char} :
      codeUnit a b c d = some high → 0xD800 ≤ high → high < 0xDC00 →
      codeUnit a' b' c' d' = some low → 0xDC00 ≤ low → low < 0xE000 →
      x.toNat = 0x10000 + (high - 0xD800) * 0x400 + (low - 0xDC00) → StringChars t s →
      StringChars (slash :: 'u' :: a :: b :: c :: d :: slash :: 'u' :: a' :: b' :: c' :: d' :: t)
        (x :: s)

/-- A string literal that stands for `s`. -/
def IsLiteral (l s : List Char) : Prop := ∃ t, l = quote :: t ++ [quote] ∧ StringChars t s

/-- No character is half a surrogate pair. -/
theorem not_surrogate (x : Char) : ¬(0xD800 ≤ x.toNat ∧ x.toNat < 0xE000) := by
  have hvalid : x.toNat < 0xD800 ∨ (0xDFFF < x.toNat ∧ x.toNat < 0x110000) := x.valid
  omega

theorem escapes_unique {e x x' : Char} (h : (e, x) ∈ escapes) (h' : (e, x') ∈ escapes) : x = x' := by
  have hall : ∀ p ∈ escapes, ∀ q ∈ escapes, p.1 = q.1 → p.2 = q.2 := by decide
  exact hall _ h _ h' rfl

theorem not_escape_u {x : Char} : ('u', x) ∉ escapes := by
  have hall : ∀ p ∈ escapes, p.1 ≠ 'u' := by decide
  exact fun h => hall _ h rfl

theorem char_eq_of_toNat {x y : Char} (h : x.toNat = y.toNat) : x = y :=
  Char.ext (UInt32.toNat.inj h)

/-- **Characters of a literal stand for one text.** -/
theorem StringChars.unique {t s s' : List Char} (h : StringChars t s) (h' : StringChars t s') :
    s = s' := by
  induction h generalizing s' with
  | nil =>
    cases h'
    rfl
  | plain _ _ hslash _ ih =>
    cases h' with
    | plain _ _ _ h' => rw [ih h']
    | escape _ _ => exact absurd rfl hslash
    | unicode _ _ => exact absurd rfl hslash
    | pair _ _ _ _ _ _ _ _ => exact absurd rfl hslash
  | escape he _ ih =>
    cases h' with
    | plain _ _ hslash _ => exact absurd rfl hslash
    | escape he' h' => rw [ih h', escapes_unique he he']
    | unicode _ _ => exact absurd he not_escape_u
    | pair _ _ _ _ _ _ _ _ => exact absurd he not_escape_u
  | @unicode a b c d x t s hx _ ih =>
    cases h' with
    | plain _ _ hslash _ => exact absurd rfl hslash
    | escape he' _ => exact absurd he' not_escape_u
    | @unicode _ _ _ _ x' _ _ hx' h' =>
      rw [ih h', char_eq_of_toNat (Option.some.inj (hx.symm.trans hx'))]
    | pair hhigh hlow hlt _ _ _ _ _ =>
      -- the unit of a character is no half of a pair
      have heq := Option.some.inj (hx.symm.trans hhigh)
      exact absurd ⟨heq ▸ hlow, by omega⟩ (not_surrogate x)
  | @pair a b c d a' b' c' d' x high low t s hhigh hlow hlt hlow' hge hlt' hx _ ih =>
    cases h' with
    | plain _ _ hslash _ => exact absurd rfl hslash
    | escape he' _ => exact absurd he' not_escape_u
    | @unicode _ _ _ _ x' _ _ hx' _ =>
      have heq := Option.some.inj (hx'.symm.trans hhigh)
      exact absurd ⟨heq ▸ hlow, by omega⟩ (not_surrogate x')
    | pair hhigh' _ _ hlow'' _ _ hx' h' =>
      obtain rfl := Option.some.inj (hhigh.symm.trans hhigh')
      obtain rfl := Option.some.inj (hlow'.symm.trans hlow'')
      rw [ih h', char_eq_of_toNat (hx.trans hx'.symm)]

theorem IsLiteral.unique {l s s' : List Char} (h : IsLiteral l s) (h' : IsLiteral l s') : s = s' := by
  obtain ⟨t, rfl, ht⟩ := h
  obtain ⟨t', heq, ht'⟩ := h'
  obtain rfl : t = t' := List.append_cancel_right (List.cons.inj heq).2
  exact ht.unique ht'

end JsonText
