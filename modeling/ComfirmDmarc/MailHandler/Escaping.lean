import ComfirmDmarc.Lib.JsonStrings
import ComfirmDmarc.MailHandler.ToJson

/-!
# Mail handler -- `json_escape`

The function of `mailhandler.c` that makes the contents of a report fit for a
JSON string. It escapes the backslash and the three control characters that an
XML text can hold, and leaves quotation marks as they are.
-/

namespace ComfirmDmarc.MailHandler

open CMemory JsonText

/-! ## Texts of a report -/

/-- A character of an XML document. -/
def isXmlChar (c : Char) : Bool :=
  c.toNat == 9 || c.toNat == 10 || c.toNat == 13 ||
    (32 ≤ c.toNat && c.toNat != 0xFFFE && c.toNat != 0xFFFF)

/-- **A faithful JSON string**, for the text `s`: between two quotation marks the
escaped text is a literal that stands for `s` and for nothing else; a reader
gets the bytes of `s` and stops at the closing mark, whatever follows it; and
escaping at most doubles the length. -/
structure Faithful (s : List Char) : Prop where
  literal : ∃ t, jsonEscape (encode s) = encode t ∧
    IsLiteral (quote :: t ++ [quote]) s ∧ ∀ s', IsLiteral (quote :: t ++ [quote]) s' → s' = s
  closes : ∀ rest, scanString (jsonEscape (encode s) ++ 34 :: rest) = some (encode s, rest)
  length_le : (jsonEscape (encode s)).length ≤ 2 * (encode s).length

/-! ## Escaping characters -/

/-- What `json_escape` makes of a character. -/
def escapeChar (c : Char) : List Char :=
  if c.toNat = 9 then [slash, 't']
  else if c.toNat = 10 then [slash, 'n']
  else if c.toNat = 92 then [slash, slash]
  else if c.toNat = 13 then [slash, 'r']
  else [c]

theorem escapeByte_high {b : UInt8} (h : 128 ≤ b) : escapeByte b = [b] := by
  have hne : ∀ a : UInt8, a < 128 → b ≠ a := by
    rintro a ha rfl
    exact absurd h (UInt8.not_le.mpr ha)
  rw [escapeByte, if_neg (hne 9 (by decide)), if_neg (hne 10 (by decide)),
    if_neg (hne 92 (by decide)), if_neg (hne 13 (by decide))]

/-- Bytes of an ASCII character are compared as the character is. -/
theorem ofNat_eq_iff {c : Char} (h : c.toNat < 128) {n : Nat} (hn : n < 128) :
    UInt8.ofNat c.toNat = UInt8.ofNat n ↔ c.toNat = n := by
  rw [← UInt8.toNat_inj, UInt8.toNat_ofNat_of_lt' (Nat.lt_trans h (by decide)),
    UInt8.toNat_ofNat_of_lt' (Nat.lt_trans hn (by decide))]

/-- **Escaping bytes is escaping characters.** -/
theorem escape_utf8 (c : Char) :
    (String.utf8EncodeChar c).flatMap escapeByte = encode (escapeChar c) := by
  by_cases h : c.toNat < 128
  · have h9 : UInt8.ofNat c.toNat = 9 ↔ c.toNat = 9 := ofNat_eq_iff h (n := 9) (by decide)
    have h10 : UInt8.ofNat c.toNat = 10 ↔ c.toNat = 10 := ofNat_eq_iff h (n := 10) (by decide)
    have h92 : UInt8.ofNat c.toNat = 92 ↔ c.toNat = 92 := ofNat_eq_iff h (n := 92) (by decide)
    have h13 : UInt8.ofNat c.toNat = 13 ↔ c.toNat = 13 := ofNat_eq_iff h (n := 13) (by decide)
    rw [utf8EncodeChar_ascii h, List.flatMap_singleton, escapeByte, escapeChar]
    simp only [h9, h10, h92, h13]
    split_ifs
    · rfl
    · rfl
    · rfl
    · rfl
    · rw [encode_cons, encode_nil, List.append_nil, utf8EncodeChar_ascii h]
  · have hplain : escapeChar c = [c] := by
      rw [escapeChar, if_neg (by omega), if_neg (by omega), if_neg (by omega), if_neg (by omega)]
    rw [hplain, encode_cons, encode_nil, List.append_nil]
    -- every byte is left as it is
    have hall : ∀ b ∈ String.utf8EncodeChar c, escapeByte b = [b] :=
      fun b hb => escapeByte_high (utf8EncodeChar_high h hb)
    generalize String.utf8EncodeChar c = bs at hall
    induction bs with
    | nil => rfl
    | cons b bs ih =>
      rw [List.flatMap_cons, hall b List.mem_cons_self, ih fun d hd => hall d (List.mem_cons_of_mem _ hd)]
      rfl

theorem jsonEscape_encode (s : List Char) :
    jsonEscape (encode s) = encode (s.flatMap escapeChar) := by
  induction s with
  | nil => rfl
  | cons c s ih =>
    rw [encode_cons, jsonEscape, List.flatMap_append, escape_utf8, List.flatMap_cons,
      encode_append]
    rw [jsonEscape] at ih
    rw [ih]

/-- The bytes of an XML text are those of texts. -/
theorem isCharByte_encode {s : List Char} (hs : ∀ c ∈ s, isXmlChar c = true) {b : UInt8}
    (hb : b ∈ encode s) : isCharByte b = true := by
  obtain ⟨c, hc, hbc⟩ := List.mem_flatMap.mp hb
  by_cases h : c.toNat < 128
  · rw [utf8EncodeChar_ascii h, List.mem_singleton] at hbc
    have hxml := hs c hc
    simp only [isXmlChar, Bool.or_eq_true, beq_iff_eq, Bool.and_eq_true, decide_eq_true_eq] at hxml
    rcases hxml with ((h9 | h10) | h13) | ⟨⟨h32, -⟩, -⟩
    · rw [hbc, h9]
      rfl
    · rw [hbc, h10]
      rfl
    · rw [hbc, h13]
      rfl
    · have hle : (32 : UInt8) ≤ b := by
        rw [hbc, UInt8.le_iff_toNat_le, UInt8.toNat_ofNat_of_lt' (Nat.lt_trans h (by decide))]
        exact h32
      simp [isCharByte, hle]
  · have hle := utf8EncodeChar_high h hbc
    have hlow : (32 : UInt8) ≤ b := UInt8.le_trans (by decide) hle
    simp [isCharByte, hlow]

/-- A quotation mark is a byte of its own. -/
theorem quote_mem_encode (s : List Char) : 34 ∈ encode s ↔ quote ∈ s := by
  rw [encode, List.mem_flatMap]
  constructor
  · rintro ⟨c, hc, hb⟩
    by_cases h : c.toNat < 128
    · rw [utf8EncodeChar_ascii h, List.mem_singleton] at hb
      have hcode : c.toNat = 34 := (ofNat_eq_iff h (n := 34) (by decide)).mp hb.symm
      rwa [char_eq_of_toNat (x := c) (y := quote) hcode] at hc
    · exact absurd (utf8EncodeChar_high h hb) (by decide)
  · exact fun h => ⟨quote, h, by decide⟩

/-! ## When the string is faithful -/

/-- Escaped characters of a text without quotation marks stand for it. -/
theorem stringChars_escape {s : List Char} (hs : ∀ c ∈ s, isXmlChar c = true)
    (hquote : quote ∉ s) : StringChars (s.flatMap escapeChar) s := by
  induction s with
  | nil => exact .nil
  | cons c s ih =>
    have hrest := ih (fun d hd => hs d (List.mem_cons_of_mem _ hd))
      fun h => hquote (List.mem_cons_of_mem _ h)
    have hc : c ≠ quote := fun h => hquote (h ▸ List.mem_cons_self)
    have hxml := hs c List.mem_cons_self
    rw [List.flatMap_cons, escapeChar]
    split_ifs with h9 h10 h92 h13
    · rw [char_eq_of_toNat (x := c) (y := Char.ofNat 9) h9]
      exact .escape (by decide) hrest
    · rw [char_eq_of_toNat (x := c) (y := Char.ofNat 10) h10]
      exact .escape (by decide) hrest
    · rw [char_eq_of_toNat (x := c) (y := slash) h92]
      exact .escape (by decide) hrest
    · rw [char_eq_of_toNat (x := c) (y := Char.ofNat 13) h13]
      exact .escape (by decide) hrest
    · refine .plain ?_ hc (fun h => h92 (by rw [h]; rfl)) hrest
      simp only [isXmlChar, h9, h10, h13, Bool.or_eq_true, beq_iff_eq, Bool.and_eq_true,
        decide_eq_true_eq, false_or] at hxml
      exact hxml.1.1

theorem length_jsonEscape_le (s : Bytes) : (jsonEscape s).length ≤ 2 * s.length := by
  induction s with
  | nil => exact Nat.le_refl _
  | cons c s ih =>
    have hc : (escapeByte c).length ≤ 2 := by
      rw [escapeByte]
      split_ifs <;> simp
    rw [jsonEscape, List.flatMap_cons, List.length_append, List.length_cons]
    rw [jsonEscape] at ih
    omega

/-- A quotation mark ends the string that is read. -/
theorem scanString_jsonEscape_quote {s : Bytes} (hchars : ∀ c ∈ s, isCharByte c = true)
    (hquote : 34 ∈ s) (rest : Bytes) :
    ∃ front behind, s = front ++ 34 :: behind ∧
      scanString (jsonEscape s ++ 34 :: rest) = some (front, jsonEscape behind ++ 34 :: rest) := by
  obtain ⟨front, behind, rfl, hfront⟩ := List.eq_append_cons_of_mem hquote
  refine ⟨front, behind, rfl, ?_⟩
  have htext := isStringText_jsonEscape (s := front)
    (fun c hc => hchars c (List.mem_append_left _ hc)) hfront (jsonEscape behind ++ 34 :: rest)
  have hquoted : escapeByte 34 = [34] := by decide
  rw [jsonEscape, List.flatMap_append, List.flatMap_cons, hquoted]
  rw [jsonEscape, jsonEscape] at htext
  rw [jsonEscape, ← htext]
  simp

/-- Of a text with a quotation mark only the front is read. -/
theorem not_faithful_of_quote {s : List Char} (hs : ∀ c ∈ s, isXmlChar c = true)
    (hquote : quote ∈ s) : ¬Faithful s := by
  intro h
  have hbytes : ∀ b ∈ encode s, isCharByte b = true := fun b hb => isCharByte_encode hs hb
  obtain ⟨front, behind, hsplit, hscan⟩ :=
    scanString_jsonEscape_quote hbytes ((quote_mem_encode s).mpr hquote) []
  have hread := h.closes []
  rw [hscan, Option.some.injEq, Prod.mk.injEq] at hread
  have hlen := congrArg List.length (hread.1.trans hsplit)
  rw [List.length_append, List.length_cons] at hlen
  omega

/-- **The string is faithful exactly if the text has no quotation mark.** -/
theorem jsonEscape_faithful_iff (s : List Char) (hs : ∀ c ∈ s, isXmlChar c = true) :
    Faithful s ↔ quote ∉ s := by
  constructor
  · intro h hquote
    exact not_faithful_of_quote hs hquote h
  · intro hquote
    have hbytes : ∀ b ∈ encode s, isCharByte b = true := fun b hb => isCharByte_encode hs hb
    have hchars := stringChars_escape hs hquote
    have hliteral : IsLiteral (quote :: s.flatMap escapeChar ++ [quote]) s := ⟨_, rfl, hchars⟩
    refine ⟨⟨s.flatMap escapeChar, jsonEscape_encode s, hliteral, fun s' h' => h'.unique hliteral⟩,
      ?_, length_jsonEscape_le (encode s)⟩
    exact isStringText_jsonEscape hbytes fun h => hquote ((quote_mem_encode s).mp h)

section Examples

theorem jsonEscape_faithful_iff_tab :
    Faithful [Char.ofNat 9, 'a'] ↔ quote ∉ [Char.ofNat 9, 'a'] :=
  jsonEscape_faithful_iff [Char.ofNat 9, 'a'] (by simp [isXmlChar])

/-- A text with a quotation mark closes its string and adds a member. -/
theorem quote_injects_member :
    let s := [quote, ',', quote, 'k', quote, ':', quote, 'v']
    (∀ c ∈ s, isXmlChar c = true) ∧ ¬Faithful s ∧
      scanString (jsonEscape (encode s) ++ [34]) = some ([], encode s.tail ++ [34]) := by
  intro s
  have hs : ∀ c ∈ s, isXmlChar c = true := by simp [s, isXmlChar, quote]
  exact ⟨hs, not_faithful_of_quote hs List.mem_cons_self, rfl⟩

end Examples

end ComfirmDmarc.MailHandler
