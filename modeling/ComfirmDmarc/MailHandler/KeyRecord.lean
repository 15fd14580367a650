import ComfirmDmarc.MailHandler.ValidateDkim

/-!
# MailHandler -- the key record behind its length bytes

TXT RDATA is a sequence of character-strings, each with a length byte in front
of it. `dns_gettxt` drops two values of a byte, 183 and 218, wherever they
stand, and keeps the length bytes with all other values in the text. The octets
of RDATA are told apart here, and the record is recovered when the length bytes
that are kept stand where the parser passes over them.
-/

namespace ComfirmDmarc.MailHandler

open CMemory Dkim

/-! ## Key records -/

/-- Folding white space: SP, TAB, CR and LF. -/
def isFws (c : UInt8) : Bool := c == 32 || c == 9 || c == 13 || c == 10

def stripFws (s : Bytes) : Bytes := s.filter fun c => !isFws c

/-- A letter, a digit or `_`. -/
def isNameChar (c : UInt8) : Bool :=
  (48 ≤ c && c ≤ 57) || (65 ≤ c && c ≤ 90) || c == 95 || (97 ≤ c && c ≤ 122)

/-- A printable byte other than `;`, or white space. -/
def isValueChar (c : UInt8) : Bool := (33 ≤ c && c ≤ 126 && c != 59) || isFws c

/-- A tag as it stands in a record: `name=value` with white space around the
name. -/
structure KeyTag where
  lead : Bytes
  name : Bytes
  mid : Bytes
  value : Bytes
  lead_fws : ∀ c ∈ lead, isFws c = true
  name_ne : name ≠ []
  name_chars : ∀ c ∈ name, isNameChar c = true
  mid_fws : ∀ c ∈ mid, isFws c = true
  value_chars : ∀ c ∈ value, isValueChar c = true

/-- What stands between two `;`: a tag, or white space as behind the last one. -/
inductive Segment
  | tag (t : KeyTag)
  | blank (ws : Bytes) (ws_fws : ∀ c ∈ ws, isFws c = true)

def Segment.text : Segment → Bytes
  | .tag t => t.lead ++ t.name ++ t.mid ++ 61 :: t.value
  | .blank ws _ => ws

/-- The tag of the parser that a segment is meant for. -/
def Segment.named : Segment → Option DnsTag
  | .tag t => if t.name = [107] then some .k else if t.name = [112] then some .p else none
  | .blank _ _ => none

def Segment.value : Segment → Bytes
  | .tag t => t.value
  | .blank _ _ => []

def recordText (record : List Segment) : Bytes := [59].intercalate (record.map Segment.text)

/-- The value of a tag, without white space. -/
def keyValue (record : List Segment) (t : DnsTag) : Bytes :=
  stripFws (((record.find? fun s => s.named = some t).map Segment.value).getD [])

/-- **A key record**: both tags once, with values that fit their buffers. -/
structure KeyRecord (record : List Segment) : Prop where
  once : ∀ t, record.countP (fun s => s.named = some t) = 1
  fits : ∀ t, (keyValue record t).length < dkimRecordMaxLen

/-! ## Character-strings -/

/-- An octet of RDATA: of the text, or the length of a character-string. -/
inductive Octet
  | text (c : UInt8)
  | len (c : UInt8)
  deriving DecidableEq, Repr

def Octet.byte : Octet → UInt8
  | .text c => c
  | .len c => c

def Octet.text? : Octet → Option UInt8
  | .text c => some c
  | .len _ => none

def octets (strings : List Bytes) : List Octet :=
  strings.flatMap fun s => .len (UInt8.ofNat s.length) :: s.map .text

def rdata (strings : List Bytes) : Bytes := (octets strings).map Octet.byte

/-- A text cut into character-strings. -/
structure CutOf (text : Bytes) (strings : List Bytes) : Prop where
  flatten : strings.flatten = text
  len : ∀ s ∈ strings, s.length ≤ 255

/-- **The record is recovered**: `dkim_parse_dns` finds its values in what
`dns_gettxt` extracts, over any memory. -/
def Recovered (record : List Segment) (strings : List Bytes) : Prop :=
  ∀ mem, ∃ txt, dnsGettxt (.record nsCIn nsTTxt (rdata strings)) = some txt ∧
    ∀ t, (dkimParseDns mem txt).text t = keyValue record t

/-! ## Where the length bytes that are kept stand -/

/-- The octets that `dns_gettxt` keeps. -/
def kept (strings : List Bytes) : List Octet :=
  (octets strings).filter fun o => o.byte ≠ 183 ∧ o.byte ≠ 218

/-- The kept octets of each segment. -/
def segments (strings : List Bytes) : List (List Octet) := (kept strings).splitOn (.text 59)

/-- The octets in front of the `=` of a segment. -/
def nameOctets (seg : List Octet) : List Octet := seg.takeWhile (· ≠ .text 61)

/-- The octets behind it. -/
def valueOctets (seg : List Octet) : List Octet := (seg.dropWhile (· ≠ .text 61)).tail

/-- The kept length bytes leave the outside of the values alone: the name of
each of the two tags stands right in front of its `=` and nothing like a tag
before that, no length byte closes its value, and nothing like a tag stands in
the other segments. -/
def OutsideClean (s : Segment) (seg : List Octet) : Prop :=
  match s.named with
  | some t =>
    (nameOctets seg).getLast? = some (.text t.char) ∧
      NoTag ((nameOctets seg).dropLast.map Octet.byte) ∧ .len 59 ∉ valueOctets seg
  | none => NoTag (seg.map Octet.byte)

/-- The parser drops every kept length byte inside of the value, and all of its
white space. -/
def InsideClean (s : Segment) (seg : List Octet) : Prop :=
  s.named ≠ none →
    (∀ c, Octet.len c ∈ valueOctets seg → TagScan.isBlank c = true) ∧
      ∀ c ∈ s.value, c ≠ 13 ∧ c ≠ 10

/-! ## The segments of the kept octets -/

theorem isFws_plain {c : UInt8} (h : isFws c = true) :
    c ≠ 59 ∧ c ≠ 61 ∧ c ≠ 0 ∧ c ≠ 183 ∧ c ≠ 218 := by
  refine ⟨?_, ?_, ?_, ?_, ?_⟩
  all_goals
    rintro rfl
    exact absurd h (by decide)

theorem isNameChar_plain {c : UInt8} (h : isNameChar c = true) :
    c ≠ 59 ∧ c ≠ 61 ∧ c ≠ 0 ∧ c ≠ 183 ∧ c ≠ 218 := by
  refine ⟨?_, ?_, ?_, ?_, ?_⟩
  all_goals
    rintro rfl
    exact absurd h (by decide)

theorem isValueChar_plain {c : UInt8} (h : isValueChar c = true) :
    c ≠ 59 ∧ c ≠ 0 ∧ c ≠ 183 ∧ c ≠ 218 := by
  refine ⟨?_, ?_, ?_, ?_⟩
  all_goals
    rintro rfl
    exact absurd h (by decide)

theorem Segment.text_plain (s : Segment) :
    ∀ c ∈ s.text, c ≠ 59 ∧ c ≠ 0 ∧ c ≠ 183 ∧ c ≠ 218 := by
  intro c hc
  cases s with
  | tag t =>
    simp only [Segment.text, List.mem_append, List.mem_cons] at hc
    rcases hc with ((hc | hc) | hc) | rfl | hc
    · exact (isFws_plain (t.lead_fws c hc)).imp_right And.right
    · exact (isNameChar_plain (t.name_chars c hc)).imp_right And.right
    · exact (isFws_plain (t.mid_fws c hc)).imp_right And.right
    · decide
    · exact isValueChar_plain (t.value_chars c hc)
  | blank ws hws => exact (isFws_plain (hws c hc)).imp_right And.right

/-- The text among some octets. -/
def texts (os : List Octet) : Bytes := os.filterMap Octet.text?

@[simp] theorem texts_nil : texts [] = [] := rfl

@[simp] theorem texts_cons_text (c : UInt8) (os : List Octet) :
    texts (.text c :: os) = c :: texts os := rfl

@[simp] theorem texts_cons_len (c : UInt8) (os : List Octet) :
    texts (.len c :: os) = texts os := rfl

@[simp] theorem texts_append (os os' : List Octet) : texts (os ++ os') = texts os ++ texts os' := by
  simp [texts]

theorem mem_texts {c : UInt8} {os : List Octet} : c ∈ texts os ↔ .text c ∈ os := by
  induction os with
  | nil => simp
  | cons o os ih => cases o <;> simp [ih]

theorem texts_octets (strings : List Bytes) : texts (octets strings) = strings.flatten := by
  induction strings with
  | nil => rfl
  | cons s strings ih =>
    have hs : texts (s.map .text) = s := by
      induction s with
      | nil => rfl
      | cons c s ih => simp [ih]
    rw [octets, List.flatMap_cons, List.cons_append, texts_cons_len, texts_append, hs,
      List.flatten_cons, ← ih]
    rfl

theorem texts_kept {strings : List Bytes} (h : ∀ c ∈ strings.flatten, c ≠ 183 ∧ c ≠ 218) :
    texts (kept strings) = strings.flatten := by
  rw [← texts_octets] at h ⊢
  rw [kept]
  generalize octets strings = os at h ⊢
  induction os with
  | nil => rfl
  | cons o os ih =>
    cases o with
    | text c =>
      simp only [texts_cons_text, List.mem_cons, forall_eq_or_imp] at h
      have hkeep : (Octet.text c).byte ≠ 183 ∧ (Octet.text c).byte ≠ 218 := h.1
      simp only [List.filter_cons, decide_eq_true hkeep, if_true]
      rw [texts_cons_text, ih h.2, texts_cons_text]
    | len c =>
      rw [List.filter_cons]
      split
      · rw [texts_cons_len, ih h, texts_cons_len]
      · rw [ih h, texts_cons_len]

/-- Cutting octets at the `;` of the text cuts the text. -/
theorem texts_splitOn (os : List Octet) :
    (os.splitOn (.text 59)).map texts = (texts os).splitOn 59 := by
  simp only [List.splitOn_eq_splitOnP]
  induction os with
  | nil => rfl
  | cons o os ih =>
    rw [List.splitOnP_cons_eq_if_modifyHead]
    obtain ⟨f, fs, hf⟩ := List.exists_cons_of_ne_nil (List.splitOnP_ne_nil (· == Octet.text 59) os)
    rw [hf] at ih ⊢
    cases o with
    | text c =>
      rw [texts_cons_text, List.splitOnP_cons_eq_if_modifyHead, ← ih]
      by_cases hc : c = 59
      · simp [hc]
      · simp [hc]
    | len c => simp [← ih]

theorem recordText_plain (record : List Segment) :
    ∀ c ∈ recordText record, c ≠ 0 ∧ c ≠ 183 ∧ c ≠ 218 := by
  induction record with
  | nil => simp [recordText]
  | cons s record ih =>
    intro c hc
    rw [recordText] at hc
    cases record with
    | nil =>
      rw [List.map_cons, List.map_nil, List.intercalate_singleton] at hc
      exact (s.text_plain c hc).2
    | cons s' record =>
      rw [List.map_cons, List.map_cons, List.intercalate_cons_cons, List.mem_append,
        List.mem_append, List.mem_singleton] at hc
      rcases hc with (hc | rfl) | hc
      · exact (s.text_plain c hc).2
      · decide
      · exact ih c hc

theorem segments_texts {record : List Segment} (hne : record ≠ []) {strings : List Bytes}
    (hcut : CutOf (recordText record) strings) :
    (segments strings).map texts = record.map Segment.text := by
  have hplain : ∀ c ∈ strings.flatten, c ≠ 183 ∧ c ≠ 218 := by
    rw [hcut.flatten]
    exact fun c hc => (recordText_plain record c hc).2
  rw [segments, texts_splitOn, texts_kept hplain, hcut.flatten, recordText,
    List.splitOn_intercalate]
  · intro u hu
    obtain ⟨s, -, rfl⟩ := List.mem_map.mp hu
    exact fun h59 => (s.text_plain 59 h59).1 rfl
  · simpa using hne

end ComfirmDmarc.MailHandler
