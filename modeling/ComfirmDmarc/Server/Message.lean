import ComfirmDmarc.Server.HeaderBounds
import Mathlib.Data.List.Forall2

/-!
# Server -- messages

What a mail is made of, as text: header fields whose values may be folded, a
blank line, and a body. `request_parse_data` gives back the names, the values
with their folds taken out, and the body.
-/

namespace ComfirmDmarc.Server

open CMemory Queue

/-! ## Text of a message -/

/-- `Unfolds raw v`: `raw` is the text of a header value, free of NUL, in which
CR occurs only in folds, and `v` is that text without the folds. A fold is a
CRLF and one blank. -/
inductive Unfolds : Bytes → Bytes → Prop
  | nil : Unfolds [] []
  | char {c : UInt8} {raw v : Bytes} :
      c ≠ 0 → c ≠ 13 → Unfolds raw v → Unfolds (c :: raw) (c :: v)
  | fold {blank : UInt8} {raw v : Bytes} :
      blank = 9 ∨ blank = 32 → Unfolds raw v → Unfolds (13 :: 10 :: blank :: raw) v

theorem Unfolds.nul_not_mem {raw v : Bytes} (h : Unfolds raw v) : (0 : UInt8) ∉ v := by
  induction h with
  | nil => simp
  | char h0 _ _ ih =>
    intro hmem
    rcases List.mem_cons.mp hmem with heq | hmem
    · exact h0 heq.symm
    · exact ih hmem
  | fold _ _ ih => exact ih

theorem Unfolds.cr_not_mem {raw v : Bytes} (h : Unfolds raw v) : (13 : UInt8) ∉ v := by
  induction h with
  | nil => simp
  | char _ h13 _ ih => simpa using ⟨Ne.symm h13, ih⟩
  | fold _ _ ih => exact ih

theorem Unfolds.nul_not_mem_raw {raw v : Bytes} (h : Unfolds raw v) : (0 : UInt8) ∉ raw := by
  induction h with
  | nil => simp
  | char h0 _ _ ih => simpa using ⟨Ne.symm h0, ih⟩
  | fold hblank _ ih => rcases hblank with rfl | rfl <;> simpa using ih

/-- A header field as it is sent: name, the byte after the colon, raw value;
and the value without its folds. -/
structure Field where
  name : Bytes
  sep : UInt8
  raw : Bytes
  value : Bytes

def Field.render (f : Field) : Bytes := f.name ++ 58 :: f.sep :: f.raw ++ [13, 10]

/-- A header name: no NUL, CR, blank or colon, and no TAB in front. -/
structure IsName (name : Bytes) : Prop where
  bytes : ∀ c ∈ name, c ≠ 0 ∧ c ≠ 13 ∧ c ≠ 32 ∧ c ≠ 58
  head : name.head? ≠ some 9

structure Field.WellFormed (f : Field) : Prop where
  name : IsName f.name
  value : Unfolds f.raw f.value

/-- The lengths of a field the server keeps whole. -/
def Field.Short (f : Field) : Prop :=
  f.name.length < keyMaxLen ∧ f.value.length < valueMaxLen

/-- The text of a message. -/
def renderMessage (fields : List Field) (body : Bytes) : Bytes :=
  fields.flatMap Field.render ++ 13 :: 10 :: body

/-! ## Tokens of a message -/

theorem blankLine_of_ne {cur : UInt8} (h : cur ≠ 13) (rest tail : Bytes) :
    blankLine cur rest tail = false := by
  have : startsWith (cur :: rest ++ tail) (bytes "\r\n\r\n") = false := by
    rw [Bool.eq_false_iff, ne_eq, startsWith_iff]
    rintro ⟨t, ht⟩
    exact h (List.cons.inj ht).1.symm
  rw [blankLine, this, Bool.and_false]

theorem startsWith_crlf {cur : UInt8} (h : cur ≠ 13) (mem : Bytes) (blank : UInt8) :
    ¬startsWith (cur :: mem) [13, 10, blank] = true := by
  rw [startsWith_iff]
  rintro ⟨t, ht⟩
  exact h (List.cons.inj ht).1.symm

theorem bytes_fold_tab : bytes "\r\n\t" = [13, 10, 9] := by decide

theorem bytes_fold_blank : bytes "\r\n " = [13, 10, 32] := by decide

/-- A fold starts here: a CRLF and a blank. -/
def StartsFold (mem : Bytes) : Prop :=
  ∃ blank more, (blank = 9 ∨ blank = 32) ∧ mem = 13 :: 10 :: blank :: more

/-- A blank line starts here: two CRLFs, the last LF of which may be the first
byte behind the content. -/
def StartsBlankLine (content tail : Bytes) : Prop :=
  3 ≤ content.length ∧ [13, 10, 13, 10] <+: content ++ tail

theorem startsFold_iff (mem : Bytes) :
    StartsFold mem ↔
      startsWith mem (bytes "\r\n\t") = true ∨ startsWith mem (bytes "\r\n ") = true := by
  rw [startsWith_iff, startsWith_iff, bytes_fold_tab, bytes_fold_blank]
  constructor
  · rintro ⟨blank, more, rfl | rfl, rfl⟩
    · exact .inl ⟨more, rfl⟩
    · exact .inr ⟨more, rfl⟩
  · rintro (⟨more, rfl⟩ | ⟨more, rfl⟩)
    · exact ⟨9, more, .inl rfl, rfl⟩
    · exact ⟨32, more, .inr rfl, rfl⟩

theorem startsBlankLine_iff (rest tail : Bytes) :
    StartsBlankLine (13 :: rest) tail ↔ blankLine 13 rest tail = true := by
  have hcrlf : bytes "\r\n\r\n" = [13, 10, 13, 10] := by decide
  rw [StartsBlankLine, blankLine, Bool.and_eq_true, decide_eq_true_eq, startsWith_iff, hcrlf]
  rfl

theorem not_startsFold {c : UInt8} (h9 : c ≠ 9) (h32 : c ≠ 32) (more : Bytes) :
    ¬StartsFold (13 :: 10 :: c :: more) := by
  rintro ⟨blank, more', hblank, heq⟩
  obtain rfl : c = blank := by simpa using (List.cons.inj (List.cons.inj (List.cons.inj heq).2).2).1
  rcases hblank with rfl | rfl
  · exact h9 rfl
  · exact h32 rfl

/-- A fold is not the start of a blank line. -/
theorem StartsFold.not_blankLine {content tail : Bytes} (h : StartsFold (content ++ tail)) :
    ¬StartsBlankLine content tail := by
  rintro ⟨-, hprefix⟩
  obtain ⟨blank, more, hblank, heq⟩ := h
  rw [heq] at hprefix
  obtain ⟨t, ht⟩ := hprefix
  simp only [List.cons_append, List.cons.injEq, true_and] at ht
  rcases hblank with rfl | rfl
  · exact absurd ht.1 (by decide)
  · exact absurd ht.1 (by decide)

/-- The token at a CR: the memory that is compared starts behind the first CRLF
of a blank line. -/
theorem lexeme_cr (isKey : Bool) {rest tail : Bytes} {i : Nat}
    (hi : (if blankLine 13 rest tail then 2 else 0) = i) :
    (StartsFold ((13 :: rest ++ tail).drop i) → lexeme isKey 13 rest tail = (.fold, i + 2)) ∧
      (¬StartsFold ((13 :: rest ++ tail).drop i) → lexeme isKey 13 rest tail = (.lineEnd, i + 1)) := by
  have hcolon : ¬((13 : UInt8) = 58 ∧ isKey = true) := by simp
  rw [startsFold_iff]
  simp only [lexeme, hi, if_neg hcolon, if_true]
  exact ⟨fun h => if_pos h, fun h => if_neg h⟩

/-- The token at a byte that is not CR. -/
theorem lexeme_of_ne {cur : UInt8} (h : cur ≠ 13) (isKey : Bool) (rest tail : Bytes) :
    lexeme isKey cur rest tail =
      if cur = 58 ∧ isKey then (.colon, 1)
      else if cur = 0 then (.skip, 0)
      else if isKey then if cur = 32 then (.skip, 0) else (.keyChar cur, 0)
      else (.valueChar cur, 0) := by
  have htab := startsWith_crlf h (rest ++ tail) 9
  have hblank := startsWith_crlf h (rest ++ tail) 32
  simp [lexeme, blankLine_of_ne h, bytes_fold_tab, bytes_fold_blank, htab, hblank, h]

theorem scan_of_ne {cur : UInt8} (h : cur ≠ 13) (tail : Bytes) (isKey : Bool) (rest : Bytes) :
    scan tail isKey (cur :: rest) =
      (let t := lexeme isKey cur rest tail
       let sc := scan tail (t.1.nextIsKey isKey) (rest.drop t.2)
       { sc with tokens := t.1 :: sc.tokens }) := by
  rw [scan, blankLine_of_ne h]
  rfl

/-- `ts` in front of the tokens of a scan. -/
def Scan.push (ts : List Token) (sc : Scan) : Scan := { sc with tokens := ts ++ sc.tokens }

theorem scan_name (tail more : Bytes) (name : Bytes)
    (h : ∀ c ∈ name, c ≠ 0 ∧ c ≠ 13 ∧ c ≠ 32 ∧ c ≠ 58) :
    scan tail true (name ++ more) = (scan tail true more).push (name.map .keyChar) := by
  induction name with
  | nil => rfl
  | cons c name ih =>
    obtain ⟨h0, h13, h32, h58⟩ := h c List.mem_cons_self
    rw [List.cons_append, scan_of_ne h13, lexeme_of_ne h13]
    simp only [h58, h0, h32, false_and, if_false, if_true, Token.nextIsKey, List.drop_zero]
    rw [ih fun c hc => h c (List.mem_cons_of_mem _ hc)]
    rfl

theorem scan_colon (tail more : Bytes) (sep : UInt8) :
    scan tail true (58 :: sep :: more) = (scan tail false more).push [.colon] := by
  rw [scan_of_ne (by decide), lexeme_of_ne (by decide)]
  rfl

/-- The tokens of a value: its bytes, with folds in between. -/
inductive ValueTokens : List Token → Bytes → Prop
  | nil : ValueTokens [] []
  | char (c : UInt8) {ts : List Token} {v : Bytes} :
      ValueTokens ts v → ValueTokens (.valueChar c :: ts) (c :: v)
  | fold {ts : List Token} {v : Bytes} : ValueTokens ts v → ValueTokens (.fold :: ts) v

/-- A CR that starts a fold. -/
theorem scan_startsFold {tail rest : Bytes} (isKey : Bool) (h : StartsFold (13 :: rest ++ tail)) :
    scan tail isKey (13 :: rest) = (scan tail isKey (rest.drop 2)).push [.fold] := by
  have hb : blankLine 13 rest tail = false := by
    rw [Bool.eq_false_iff, ne_eq, ← startsBlankLine_iff]
    exact h.not_blankLine
  rw [scan, hb, (lexeme_cr isKey (i := 0) (by rw [hb]; rfl)).1 h]
  rfl

/-- A CR that ends a line, together with the byte behind it. -/
theorem scan_endsLine {tail rest : Bytes} (isKey : Bool) (hfold : ¬StartsFold (13 :: rest ++ tail))
    (hblank : ¬StartsBlankLine (13 :: rest) tail) :
    scan tail isKey (13 :: rest) = (scan tail true (rest.drop 1)).push [.lineEnd] := by
  have hb : blankLine 13 rest tail = false := by
    rw [Bool.eq_false_iff, ne_eq, ← startsBlankLine_iff]
    exact hblank
  rw [scan, hb, (lexeme_cr isKey (i := 0) (by rw [hb]; rfl)).2 hfold]
  rfl

/-- The blank line: its second CRLF is a fold where a blank follows. -/
theorem scan_startsBlankLine {tail rest : Bytes} (isKey : Bool)
    (h : StartsBlankLine (13 :: rest) tail) :
    (StartsFold ((rest ++ tail).drop 1) → scan tail isKey (13 :: rest) = ⟨[.fold], true, rest.drop 4⟩) ∧
      (¬StartsFold ((rest ++ tail).drop 1) →
        scan tail isKey (13 :: rest) = ⟨[.lineEnd], true, rest.drop 3⟩) := by
  have hb := (startsBlankLine_iff rest tail).mp h
  obtain ⟨hfold, hend⟩ := lexeme_cr isKey (i := 2) (by rw [hb]; rfl)
  rw [scan, if_pos hb]
  constructor
  · intro hf
    rw [hfold hf]
  · intro hf
    rw [hend hf]

theorem scan_fold {blank : UInt8} (h : blank = 9 ∨ blank = 32) (tail : Bytes) (isKey : Bool)
    (more : Bytes) :
    scan tail isKey (13 :: 10 :: blank :: more) = (scan tail isKey more).push [.fold] :=
  scan_startsFold isKey ⟨blank, more ++ tail, h, rfl⟩

theorem scan_value (tail more : Bytes) {raw v : Bytes} (h : Unfolds raw v) :
    ∃ ts, ValueTokens ts v ∧
      scan tail false (raw ++ more) = (scan tail false more).push ts := by
  induction h with
  | nil => exact ⟨[], .nil, rfl⟩
  | @char c raw v h0 h13 _ ih =>
    obtain ⟨ts, hts, heq⟩ := ih
    refine ⟨.valueChar c :: ts, .char c hts, ?_⟩
    rw [List.cons_append, scan_of_ne h13, lexeme_of_ne h13]
    simp only [h0, Bool.false_eq_true, and_false, if_false, Token.nextIsKey, List.drop_zero, heq]
    rfl
  | @fold blank raw v hblank _ ih =>
    obtain ⟨ts, hts, heq⟩ := ih
    refine ⟨.fold :: ts, .fold hts, ?_⟩
    rw [List.cons_append, List.cons_append, List.cons_append, scan_fold hblank, heq]
    rfl

/-- The end of a header line that another line follows. -/
theorem scan_lineEnd (tail more : Bytes) (isKey : Bool) {c : UInt8} (h9 : c ≠ 9) (h13 : c ≠ 13)
    (h32 : c ≠ 32) :
    scan tail isKey (13 :: 10 :: c :: more) =
      (scan tail true (c :: more)).push [.lineEnd] := by
  refine scan_endsLine isKey (not_startsFold h9 h32 (more ++ tail)) ?_
  rintro ⟨-, t, ht⟩
  simp only [List.cons_append, List.cons.injEq, true_and] at ht
  exact h13 ht.1.symm

/-- The end of the last header line. -/
theorem scan_blankLine (tail body : Bytes) (isKey : Bool) {c : UInt8} (h9 : c ≠ 9) (h32 : c ≠ 32) :
    scan tail isKey (13 :: 10 :: 13 :: 10 :: c :: body) = ⟨[.lineEnd], true, c :: body⟩ := by
  have hblank : StartsBlankLine (13 :: 10 :: 13 :: 10 :: c :: body) tail :=
    ⟨by simp, c :: body ++ tail, rfl⟩
  exact (scan_startsBlankLine isKey hblank).2 (not_startsFold h9 h32 (body ++ tail))

/-- The tokens of a field: its name, a colon, its value and a line end. -/
def FieldTokens (f : Field) (ts : List Token) : Prop :=
  ∃ vs, ValueTokens vs f.value ∧ ts = f.name.map .keyChar ++ .colon :: (vs ++ [.lineEnd])

/-- A field, up to the CRLF that ends it. -/
theorem scan_field_body (tail more : Bytes) {f : Field} (h : f.WellFormed) :
    ∃ vs, ValueTokens vs f.value ∧
      scan tail true (f.render ++ more) =
        (scan tail false (13 :: 10 :: more)).push (f.name.map .keyChar ++ .colon :: vs) := by
  obtain ⟨vs, hvs, heq⟩ := scan_value tail (13 :: 10 :: more) h.value
  refine ⟨vs, hvs, ?_⟩
  have hrender : f.render ++ more = f.name ++ (58 :: f.sep :: (f.raw ++ 13 :: 10 :: more)) := by
    simp [Field.render]
  rw [hrender, scan_name _ _ _ h.name.bytes, scan_colon, heq]
  simp [Scan.push]

/-- A header line does not start like a fold or a blank line. -/
theorem IsName.line_head {name : Bytes} (h : IsName name) (more : Bytes) :
    ∃ c rest, name ++ 58 :: more = c :: rest ∧ c ≠ 9 ∧ c ≠ 13 ∧ c ≠ 32 := by
  cases name with
  | nil => exact ⟨58, more, rfl, by decide⟩
  | cons c name =>
    obtain ⟨-, h13, h32, -⟩ := h.bytes c List.mem_cons_self
    exact ⟨c, _, rfl, fun h9 => h.head (by simp [h9]), h13, h32⟩

theorem Field.render_head {f : Field} (h : f.WellFormed) :
    ∃ c rest, f.render = c :: rest ∧ c ≠ 9 ∧ c ≠ 13 ∧ c ≠ 32 := by
  obtain ⟨c, rest, heq, hc⟩ := h.name.line_head (f.sep :: f.raw ++ [13, 10])
  exact ⟨c, rest, by rw [← heq]; simp [Field.render], hc⟩

/-- Fields that another line follows. -/
theorem scan_fields (tail more : Bytes) {c : UInt8} (h9 : c ≠ 9) (h13 : c ≠ 13) (h32 : c ≠ 32)
    (fields : List Field) (hwf : ∀ f ∈ fields, f.WellFormed) :
    ∃ tss, List.Forall₂ FieldTokens fields tss ∧
      scan tail true (fields.flatMap Field.render ++ c :: more) =
        (scan tail true (c :: more)).push tss.flatten := by
  induction fields with
  | nil => exact ⟨[], .nil, rfl⟩
  | cons f fields ih =>
    have hfs : ∀ g ∈ fields, g.WellFormed := fun g hg => hwf g (List.mem_cons_of_mem _ hg)
    obtain ⟨tss, htss, hscan⟩ := ih hfs
    obtain ⟨vs, hvs, heq⟩ := scan_field_body tail (fields.flatMap Field.render ++ c :: more)
      (hwf f List.mem_cons_self)
    refine ⟨(f.name.map .keyChar ++ .colon :: (vs ++ [.lineEnd])) :: tss,
      .cons ⟨vs, hvs, rfl⟩ htss, ?_⟩
    -- what follows the line of `f` is another field, or `c`
    obtain ⟨d, rest, hd, hd9, hd13, hd32⟩ : ∃ d rest,
        fields.flatMap Field.render ++ c :: more = d :: rest ∧ d ≠ 9 ∧ d ≠ 13 ∧ d ≠ 32 := by
      cases fields with
      | nil => exact ⟨c, more, rfl, h9, h13, h32⟩
      | cons g gs =>
        obtain ⟨d, rest, hg, hd⟩ := Field.render_head (hfs g List.mem_cons_self)
        exact ⟨d, rest ++ (gs.flatMap Field.render ++ c :: more), by simp [hg], hd⟩
    rw [List.flatMap_cons, List.append_assoc, heq]
    rw [hd] at hscan ⊢
    rw [scan_lineEnd tail _ false hd9 hd13 hd32, hscan]
    simp [Scan.push]

/-- **The scan of a message**: the tokens of its fields, then the body. -/
theorem scan_message (tail body : Bytes) {c : UInt8} (h9 : c ≠ 9) (h32 : c ≠ 32)
    (fields : List Field) (hne : fields ≠ []) (hwf : ∀ f ∈ fields, f.WellFormed) :
    ∃ tss, List.Forall₂ FieldTokens fields tss ∧
      scan tail true (renderMessage fields (c :: body)) = ⟨tss.flatten, true, c :: body⟩ := by
  obtain ⟨init, f, rfl⟩ := List.eq_nil_or_concat' fields |>.resolve_left hne
  have hf : f.WellFormed := hwf f (by simp)
  obtain ⟨d, rest, hd, hd9, hd13, hd32⟩ := Field.render_head hf
  obtain ⟨tss, htss, hscan⟩ := scan_fields tail (rest ++ 13 :: 10 :: c :: body) hd9 hd13 hd32 init
    fun g hg => hwf g (List.mem_append_left _ hg)
  obtain ⟨vs, hvs, heq⟩ := scan_field_body tail (13 :: 10 :: c :: body) hf
  refine ⟨tss ++ [f.name.map .keyChar ++ .colon :: (vs ++ [.lineEnd])],
    List.rel_append htss (.cons ⟨vs, hvs, rfl⟩ .nil), ?_⟩
  have hrender : renderMessage (init ++ [f]) (c :: body)
      = init.flatMap Field.render ++ d :: (rest ++ 13 :: 10 :: c :: body) := by
    simp [renderMessage, hd]
  have hlast : d :: (rest ++ 13 :: 10 :: c :: body) = f.render ++ 13 :: 10 :: c :: body := by
    simp [hd]
  rw [hrender, hscan, hlast, heq, scan_blankLine tail body false h9 h32]
  simp [Scan.push]

/-! ## What the tokens of a field store -/

/-- The bytes of a header array. -/
def HdrField.bytesOf (h : Hdr) : HdrField → Bytes
  | .key => h.key.toList
  | .value => h.value.toList

theorem storeByte_bytesOf (h : Hdr) (i : Nat) (c : UInt8) (f : HdrField) :
    f.bytesOf (storeByte h i c f) = (f.bytesOf h).set i c := by
  cases f <;> exact toList_setIfInBounds _ _ _

theorem storeByte_bytesOf_ne (h : Hdr) (i : Nat) (c : UInt8) {f g : HdrField} (hne : f ≠ g) :
    g.bytesOf (storeByte h i c f) = g.bytesOf h := by
  cases f <;> cases g <;> first | rfl | exact absurd rfl hne

/-- Store a character if there is room for it and a terminator. -/
def putChar (f : HdrField) (s : HeaderState) (c : UInt8) : HeaderState :=
  if s.curLen < f.maxLen - 1 then { s.store f c with curLen := s.curLen + 1 } else s

theorem foldl_keyChars (name : Bytes) (s : HeaderState) :
    (name.map Token.keyChar).foldl HeaderState.apply s = name.foldl (putChar .key) s := by
  rw [List.foldl_map]
  rfl

theorem ValueTokens.foldl {ts : List Token} {v : Bytes} (h : ValueTokens ts v)
    (s : HeaderState) : ts.foldl HeaderState.apply s = v.foldl (putChar .value) s := by
  induction h generalizing s with
  | nil => rfl
  | char c _ ih => exact ih _
  | fold _ ih => exact ih s

/-- The bytes `bs` written into a header array from index `i` on. -/
def writeField (f : HdrField) (h : Hdr) (i : Nat) : Bytes → Hdr
  | [] => h
  | c :: bs => writeField f (storeByte h i c f) (i + 1) bs

theorem writeField_bytesOf_ne {f g : HdrField} (hne : f ≠ g) (h : Hdr) (i : Nat) (bs : Bytes) :
    g.bytesOf (writeField f h i bs) = g.bytesOf h := by
  induction bs generalizing h i with
  | nil => rfl
  | cons c bs ih => rw [writeField, ih, storeByte_bytesOf_ne h i c hne]

/-- Writing behind the bytes `front` that are there already. -/
theorem writeField_bytesOf (f : HdrField) (h : Hdr) (front old bs : Bytes)
    (hfront : f.bytesOf h = front ++ old) (hlen : bs.length ≤ old.length) :
    f.bytesOf (writeField f h front.length bs) = front ++ bs ++ old.drop bs.length := by
  induction bs generalizing h front old with
  | nil => simp [writeField, hfront]
  | cons c bs ih =>
    cases old with
    | nil => simp at hlen
    | cons o old =>
      have hset : f.bytesOf (storeByte h front.length c f) = (front ++ [c]) ++ old := by
        rw [storeByte_bytesOf, hfront, set_length_append]
        simp
      have := ih (storeByte h front.length c f) (front ++ [c]) old hset (by simpa using hlen)
      rw [writeField]
      simpa using this

theorem HdrField.length_bytesOf (f : HdrField) (h : Hdr) : (f.bytesOf h).length = f.maxLen := by
  cases f <;> simp [HdrField.bytesOf, HdrField.maxLen]

/-- A string and its terminator at the start of a header array. -/
theorem str_writeField (f : HdrField) (h : Hdr) {bs : Bytes} (hlen : bs.length < f.maxLen)
    (hnul : (0 : UInt8) ∉ bs) : str (f.bytesOf (writeField f h 0 (bs ++ [0]))) = bs := by
  have hw := writeField_bytesOf f h [] (f.bytesOf h) (bs ++ [0]) rfl
    (by rw [HdrField.length_bytesOf, List.length_append]; exact hlen)
  rw [show ([] : Bytes).length = 0 from rfl] at hw
  rw [hw]
  simp only [List.nil_append, List.append_assoc, List.singleton_append]
  exact str_append_nul hnul _

theorem writeField_append (f : HdrField) (h : Hdr) (i : Nat) (bs cs : Bytes) :
    writeField f h i (bs ++ cs) = writeField f (writeField f h i bs) (i + bs.length) cs := by
  induction bs generalizing h i with
  | nil => rfl
  | cons b bs ih =>
    rw [List.cons_append, writeField, ih, writeField, List.length_cons, Nat.add_right_comm,
      Nat.add_assoc]

theorem foldl_putChar (f : HdrField) (bs : Bytes) (s : HeaderState)
    (hlt : s.headerCount < headerMaxLen) (hlen : s.curLen + bs.length < f.maxLen) :
    let s' := bs.foldl (putChar f) s
    s'.headerCount = s.headerCount ∧ s'.isKey = s.isKey ∧ s'.curLen = s.curLen + bs.length ∧
      s'.headers = s.headers.set s.headerCount
        (writeField f s.headers[s.headerCount] s.curLen bs) := by
  induction bs generalizing s with
  | nil => exact ⟨rfl, rfl, rfl, by simp [writeField]⟩
  | cons c bs ih =>
    simp only [List.length_cons] at hlen
    have hput : putChar f s c = { s.store f c with curLen := s.curLen + 1 } :=
      if_pos (by omega)
    obtain ⟨hcount, hkey, hcur, hheaders⟩ := ih { s.store f c with curLen := s.curLen + 1 } hlt
      (by show s.curLen + 1 + bs.length < f.maxLen; omega)
    rw [List.foldl_cons, hput]
    refine ⟨hcount, hkey, by rw [hcur]; simp; omega, ?_⟩
    rw [hheaders]
    simp only [HeaderState.store, dif_pos hlt, Vector.set_set, Vector.getElem_set_self, writeField]

/-- A string and the terminator that the token after it stores. -/
theorem store_string (f : HdrField) {bs : Bytes} (s : HeaderState) (hcur : s.curLen = 0)
    (hlt : s.headerCount < headerMaxLen) (hlen : bs.length < f.maxLen) :
    let s' := (bs.foldl (putChar f) s).store f 0
    s'.headerCount = s.headerCount ∧
      s'.headers = s.headers.set s.headerCount
        (writeField f s.headers[s.headerCount] 0 (bs ++ [0])) := by
  obtain ⟨hcount, -, hcur', hheaders⟩ := foldl_putChar f bs s hlt (by omega)
  generalize bs.foldl (putChar f) s = s1 at hcount hcur' hheaders
  have hlt1 : s1.headerCount < headerMaxLen := by omega
  refine ⟨hcount, ?_⟩
  simp only [HeaderState.store, hheaders, hcount, hcur', hcur, dif_pos hlt, Vector.set_set,
    Vector.getElem_set_self, writeField_append, writeField]

/-- **One field fills one header** with its name and its unfolded value. -/
theorem foldl_field {f : Field} (hwf : f.WellFormed) (hshort : f.Short) {ts : List Token}
    (hts : FieldTokens f ts) (s : HeaderState) (hcur : s.curLen = 0)
    (hlt : s.headerCount < headerMaxLen) :
    let s' := ts.foldl HeaderState.apply s
    s'.headerCount = s.headerCount + 1 ∧ s'.curLen = 0 ∧
      ∃ h : Hdr, s'.headers = s.headers.set s.headerCount h ∧
        h.keyStr = f.name ∧ h.valueStr = f.value := by
  obtain ⟨vs, hvs, rfl⟩ := hts
  have hnul : (0 : UInt8) ∉ f.name := fun h0 => (hwf.name.bytes 0 h0).1 rfl
  obtain ⟨hcount1, hheaders1⟩ := store_string .key s hcur hlt hshort.1
  generalize hh1 : writeField .key s.headers[s.headerCount] 0 (f.name ++ [0]) = h1 at hheaders1
  generalize hs1 : (f.name.foldl (putChar .key) s).store .key 0 = s1 at hcount1 hheaders1
  -- the colon starts the value
  generalize hs2 : { s1 with isKey := false, curLen := 0 } = s2
  have hcount2 : s2.headerCount = s.headerCount := by rw [← hs2]; exact hcount1
  have hlt2 : s2.headerCount < headerMaxLen := by omega
  obtain ⟨hcount3, hheaders3⟩ := store_string .value s2 (by rw [← hs2]) hlt2 hshort.2
  generalize hs3 : f.value.foldl (putChar .value) s2 = s3 at hcount3 hheaders3
  have hlt3 : s3.headerCount < headerMaxLen := by
    rw [HeaderState.store_headerCount] at hcount3
    omega
  have hend : (f.name.map Token.keyChar ++ Token.colon :: (vs ++ [Token.lineEnd])).foldl
      HeaderState.apply s = { s3.store .value 0 with
        curLen := 0, isKey := true, headerCount := s3.headerCount + 1 } := by
    rw [List.foldl_append, foldl_keyChars, List.foldl_cons, List.foldl_append, hvs.foldl]
    simp only [HeaderState.apply, hs1, hs2, hs3, List.foldl_cons, List.foldl_nil, if_pos hlt3]
    rfl
  have hheaders2 : s2.headers = s.headers.set s.headerCount h1 := by
    rw [← hs2]
    exact hheaders1
  rw [hend]
  refine ⟨by show s3.headerCount + 1 = _; rw [← hcount2, ← hcount3]; rfl, rfl,
    writeField .value h1 0 (f.value ++ [0]), ?_, ?_, ?_⟩
  · show (s3.store .value 0).headers = _
    simp only [hheaders3, hheaders2, hcount2, Vector.set_set, Vector.getElem_set_self]
  · show str (HdrField.key.bytesOf _) = f.name
    rw [writeField_bytesOf_ne (by decide), ← hh1]
    exact str_writeField .key _ hshort.1 hnul
  · exact str_writeField .value _ hshort.2 hwf.value.nul_not_mem

/-- The headers before the current one stay. -/
theorem foldl_headers_lt (ts : List Token) (s : HeaderState) {i : Nat} (hi : i < headerMaxLen)
    (hlt : i < s.headerCount) :
    (ts.foldl HeaderState.apply s).headers[i] = s.headers[i] := by
  induction ts generalizing s with
  | nil => rfl
  | cons t ts ih =>
    have hcount : s.headerCount ≤ (s.apply t).headerCount := by
      rw [HeaderState.apply_headerCount, Token.countLine]
      split <;> omega
    have hstore : ∀ f c, (s.store f c).headers[i] = s.headers[i] := by
      intro f c
      simp only [HeaderState.store]
      split
      · exact Vector.getElem_set_ne _ _ (by omega)
      · rfl
    rw [List.foldl_cons, ih _ (by omega)]
    cases t <;> simp only [HeaderState.apply]
    case colon => exact hstore _ _
    all_goals
      split
      · exact hstore _ _
      · rfl

/-- Header `i` of `headers` is the field `f`. -/
def Holds (headers : Vector Hdr headerMaxLen) (i : Nat) (f : Field) : Prop :=
  ∃ h : i < headerMaxLen, headers[i].keyStr = f.name ∧ headers[i].valueStr = f.value

/-- **The fields of a message fill one header each.** -/
theorem foldl_fields {fields : List Field} {tss : List (List Token)}
    (hts : List.Forall₂ FieldTokens fields tss) (hwf : ∀ f ∈ fields, f.WellFormed)
    (hshort : ∀ f ∈ fields, f.Short) (s : HeaderState) (hcur : s.curLen = 0)
    (hroom : s.headerCount + fields.length ≤ headerMaxLen) :
    let s' := tss.flatten.foldl HeaderState.apply s
    s'.headerCount = s.headerCount + fields.length ∧ s'.curLen = 0 ∧
      ∀ j (hj : j < fields.length), Holds s'.headers (s.headerCount + j) fields[j] := by
  induction hts generalizing s with
  | nil => exact ⟨rfl, hcur, fun j hj => nomatch hj⟩
  | @cons f ts fields tss hf _ ih =>
    simp only [List.length_cons] at hroom
    have hlt : s.headerCount < headerMaxLen := by omega
    obtain ⟨hcount, hcur', h, hheaders, hname, hvalue⟩ :=
      foldl_field (hwf f List.mem_cons_self) (hshort f List.mem_cons_self) hf s hcur hlt
    obtain ⟨hcount', hcur'', hnew⟩ := ih (fun g hg => hwf g (List.mem_cons_of_mem _ hg))
      (fun g hg => hshort g (List.mem_cons_of_mem _ hg)) (ts.foldl HeaderState.apply s) hcur'
      (by omega)
    rw [List.flatten_cons, List.foldl_append]
    refine ⟨by rw [hcount', hcount, List.length_cons]; omega, hcur'', ?_⟩
    intro j hj
    cases j with
    | zero =>
      -- the fields behind it leave the first one alone
      have hkeep := foldl_headers_lt tss.flatten (ts.foldl HeaderState.apply s) hlt (by omega)
      simp only [hheaders, Vector.getElem_set_self] at hkeep
      refine ⟨hlt, ?_⟩
      simp only [Nat.add_zero, hkeep]
      exact ⟨hname, hvalue⟩
    | succ j =>
      have := hnew j (by simpa using hj)
      rw [hcount, Nat.add_assoc, Nat.add_comm 1 j] at this
      exact this

/-! ## Parsing a message -/

theorem headersFit_append {lines : Nat} (hlt : lines < headerMaxLen) {ts : List Token}
    (hts : Token.lineEnd ∉ ts) (rest : List Token) (h : HeadersFit lines rest) :
    HeadersFit lines (ts ++ rest) := by
  induction ts with
  | nil => exact h
  | cons t ts ih =>
    have hne : t ≠ .lineEnd := fun heq => hts (heq ▸ List.mem_cons_self)
    refine ⟨fun _ => hlt, ?_⟩
    rw [Token.countLine, if_neg hne]
    exact ih fun hmem => hts (List.mem_cons_of_mem _ hmem)

theorem ValueTokens.lineEnd_not_mem {ts : List Token} {v : Bytes} (h : ValueTokens ts v) :
    Token.lineEnd ∉ ts := by
  induction h with
  | nil => simp
  | char c _ ih => simpa using ih
  | fold _ ih => simpa using ih

theorem headersFit_fields {fields : List Field} {tss : List (List Token)}
    (hts : List.Forall₂ FieldTokens fields tss) (lines : Nat)
    (hroom : lines + fields.length ≤ headerMaxLen) : HeadersFit lines tss.flatten := by
  induction hts generalizing lines with
  | nil => exact hroom
  | @cons f ts fields tss hf _ ih =>
    simp only [List.length_cons] at hroom
    obtain ⟨vs, hvs, rfl⟩ := hf
    have hlt : lines < headerMaxLen := by omega
    have hfront : Token.lineEnd ∉ f.name.map Token.keyChar ++ Token.colon :: vs := by
      simpa using hvs.lineEnd_not_mem
    have := headersFit_append hlt hfront (Token.lineEnd :: tss.flatten)
      ⟨nofun, ih (lines + 1) (by omega)⟩
    simpa using this

/-- A message the server can keep whole, followed in memory by `more`: one to
`HEADER_MAX_LEN` short fields and a body that does not look like a fold. -/
structure Keepable (fields : List Field) (rest : Bytes) : Prop where
  ne_nil : fields ≠ []
  length_le : fields.length ≤ headerMaxLen
  wellFormed : ∀ f ∈ fields, f.WellFormed
  short : ∀ f ∈ fields, f.Short
  body : ∃ c body, rest = c :: body ∧ c ≠ 9 ∧ c ≠ 32

/-- **What `request_parse_data` makes of a message**: every field in its
header, everything behind the blank line in the body. -/
theorem requestParseData_message {fields : List Field} {rest : Bytes} (h : Keepable fields rest)
    (req : Request) (tail : Bytes) (hdata : req.data = renderMessage fields rest) :
    let r := (requestParseData req tail).1
    r.headerCount = fields.length ∧ (∀ j (hj : j < fields.length), Holds r.headers j fields[j]) ∧
      r.body = some (rest ++ [0]) ∧ r.bodyLen = rest.length ∧
      ∀ a ∈ (requestParseData req tail).2, a.InRange := by
  obtain ⟨c, body, rfl, h9, h32⟩ := h.body
  obtain ⟨tss, htss, hscan⟩ := scan_message tail body h9 h32 fields h.ne_nil h.wellFormed
  rw [← hdata] at hscan
  replace hscan : scanData req.data tail = ⟨tss.flatten, true, c :: body⟩ := hscan
  obtain ⟨hcount, -, hholds⟩ := foldl_fields htss h.wellFormed h.short (.init req.headers) rfl
    (by simpa [HeaderState.init] using h.length_le)
  have hbody : HasBody req.data tail := by simp [HasBody, hscan]
  obtain ⟨hb, hlen⟩ := requestParseData_body req tail hbody
  have hfit : HeadersFit 0 (scanData req.data tail).tokens := by
    rw [hscan]
    exact headersFit_fields htss 0 (by simpa using h.length_le)
  refine ⟨?_, ?_, by rw [hb, hscan], by rw [hlen, hscan], ((accesses_inRange_iff req tail).mpr hfit).1⟩
  · rw [requestParseData_headerCount, finalState, hscan, hcount]
    simp [HeaderState.init]
  · intro j hj
    rw [requestParseData_headers, finalState, hscan]
    simpa [HeaderState.init] using hholds j hj

end ComfirmDmarc.Server
