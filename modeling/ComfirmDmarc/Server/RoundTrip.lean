import ComfirmDmarc.Server.HeaderText

/-!
# Server -- header fields read back

What `request_parse_data` makes of fields that were written out as lines
`name: value`: every name and every value, each cut where its array is full.
-/

namespace ComfirmDmarc.Server

open CMemory

/-! ## Fields -/

/-- A header field of a mail. -/
structure MailField where
  name : Bytes
  value : Bytes
  name_ne : name ≠ []
  name_chars : ∀ c ∈ name, 33 ≤ c ∧ c ≤ 126 ∧ c ≠ 58
  value_chars : ∀ c ∈ value, c ≠ 0 ∧ c ≠ 13 ∧ c ≠ 10

/-- The line of a field. -/
def MailField.render (f : MailField) : Bytes := f.name ++ bytes ": " ++ f.value ++ bytes "\r\n"

/-- The content of a mail. -/
def renderMail (fields : List MailField) (body : Bytes) : Bytes :=
  fields.flatMap MailField.render ++ bytes "\r\n" ++ body

/-- What the arrays of a header have room for. -/
def MailField.kept (f : MailField) : HeaderText :=
  ⟨f.name.take (keyMaxLen - 1), f.value.take (valueMaxLen - 1)⟩

/-- The first `header_count` headers as strings. -/
def Request.headerTexts (req : Request) : List HeaderText :=
  (req.headers.toList.take req.headerCount).map fun h => ⟨h.keyStr, h.valueStr⟩

/-- The field, with a blank behind its colon and no folds. -/
def MailField.toField (f : MailField) : Field := ⟨f.name, 32, f.value, f.value⟩

theorem Unfolds.self {v : Bytes} (h : ∀ c ∈ v, c ≠ 0 ∧ c ≠ 13) : Unfolds v v := by
  induction v with
  | nil => exact .nil
  | cons c v ih =>
    obtain ⟨h0, h13⟩ := h c List.mem_cons_self
    exact .char h0 h13 (ih fun d hd => h d (List.mem_cons_of_mem _ hd))

theorem MailField.toField_wellFormed (f : MailField) : f.toField.WellFormed where
  name := by
    have hchars : ∀ c ∈ f.name, 33 ≤ c := fun c hc => (f.name_chars c hc).1
    refine ⟨fun c hc => ⟨?_, ?_, ?_, (f.name_chars c hc).2.2⟩, fun h9 => ?_⟩
    · rintro rfl
      exact absurd (hchars 0 hc) (by decide)
    · rintro rfl
      exact absurd (hchars 13 hc) (by decide)
    · rintro rfl
      exact absurd (hchars 32 hc) (by decide)
    · exact absurd (hchars 9 (List.mem_of_head? h9)) (by decide)
  value := .self fun c hc => ⟨(f.value_chars c hc).1, (f.value_chars c hc).2.1⟩

theorem renderMail_eq (fields : List MailField) (body : Bytes) :
    renderMail fields body = renderMessage (fields.map MailField.toField) body := by
  have hrender : ∀ f : MailField, f.render = f.toField.render := by
    intro f
    simp [MailField.render, Field.render, MailField.toField,
      show bytes ": " = [58, 32] from by decide, show bytes "\r\n" = [13, 10] from by decide]
  rw [renderMail, renderMessage, List.flatMap_map,
    show MailField.render = fun f => f.toField.render from funext hrender]
  simp [show bytes "\r\n" = [13, 10] from by decide]

/-! ## Reading a field -/

/-- Bytes are stored up to the last but one of the array. -/
theorem foldl_pushByte (f : HdrField) (bs : Bytes) {s : Bytes} (hs : s.length ≤ f.maxLen - 1) :
    bs.foldl (pushByte f) s = (s ++ bs).take (f.maxLen - 1) := by
  induction bs generalizing s with
  | nil => rw [List.foldl_nil, List.append_nil, List.take_of_length_le hs]
  | cons c bs ih =>
    rw [List.foldl_cons, pushByte]
    by_cases hroom : s.length < f.maxLen - 1
    · rw [if_pos hroom, ih (by rw [List.length_append, List.length_singleton]; omega)]
      simp
    · -- the array is full, and nothing more goes in
      rw [if_neg hroom, ih hs, List.take_append_of_le_length (by omega),
        List.take_append_of_le_length (by omega)]

theorem foldl_read_keyChars (name : Bytes) (r : LineReading) :
    (name.map Token.keyChar).foldl LineReading.read r =
      { r with line := { r.line with key := name.foldl (pushByte .key) r.line.key } } := by
  induction name generalizing r with
  | nil => rfl
  | cons c name ih =>
    rw [List.map_cons, List.foldl_cons, ih]
    rfl

theorem ValueTokens.foldl_read {ts : List Token} {v : Bytes} (h : ValueTokens ts v)
    (r : LineReading) :
    ts.foldl LineReading.read r =
      { r with line := { r.line with value := v.foldl (pushByte .value) r.line.value } } := by
  induction h generalizing r with
  | nil => rfl
  | char c _ ih =>
    rw [List.foldl_cons, ih]
    rfl
  | fold _ ih => exact ih r

/-- **A field is read as one line.** -/
theorem foldl_read_field {f : Field} {ts : List Token} (h : FieldTokens f ts)
    (done : List HeaderText) :
    ts.foldl LineReading.read ⟨done, ⟨[], []⟩⟩ =
      ⟨done ++ [⟨f.name.take (keyMaxLen - 1), f.value.take (valueMaxLen - 1)⟩], ⟨[], []⟩⟩ := by
  obtain ⟨vs, hvs, rfl⟩ := h
  have hkey := foldl_pushByte .key f.name (s := []) (Nat.zero_le _)
  have hvalue := foldl_pushByte .value f.value (s := []) (Nat.zero_le _)
  rw [List.foldl_append, foldl_read_keyChars, List.foldl_cons, List.foldl_append, LineReading.read,
    hvs.foldl_read, hkey, hvalue]
  rfl

theorem foldl_read_fields {fields : List Field} {tss : List (List Token)}
    (h : List.Forall₂ FieldTokens fields tss) (done : List HeaderText) :
    tss.flatten.foldl LineReading.read ⟨done, ⟨[], []⟩⟩ =
      ⟨done ++ fields.map fun f => ⟨f.name.take (keyMaxLen - 1), f.value.take (valueMaxLen - 1)⟩,
        ⟨[], []⟩⟩ := by
  induction h generalizing done with
  | nil => simp
  | @cons f ts fields tss hf _ ih =>
    rw [List.flatten_cons, List.foldl_append, foldl_read_field hf, ih]
    simp

/-- Every line of a field has its colon. -/
theorem colons_fields {fields : List Field} {tss : List (List Token)}
    (h : List.Forall₂ FieldTokens fields tss) : Colons true tss.flatten := by
  have hvalue : ∀ {vs : List Token} {v : Bytes}, ValueTokens vs v → ∀ rest,
      Colons false rest → Colons false (vs ++ rest) := by
    intro vs v hvs rest hrest
    induction hvs with
    | nil => exact hrest
    | char c _ ih => exact ⟨nofun, ih⟩
    | fold _ ih => exact ⟨nofun, ih⟩
  have hname : ∀ (name : Bytes) (rest : List Token), Colons true rest →
      Colons true (name.map Token.keyChar ++ rest) := by
    intro name rest hrest
    induction name with
    | nil => exact hrest
    | cons c name ih => exact ⟨nofun, ih⟩
  induction h with
  | nil => trivial
  | @cons f ts fields tss hf _ ih =>
    obtain ⟨vs, hvs, rfl⟩ := hf
    rw [List.flatten_cons, List.append_assoc, List.cons_append, List.append_assoc]
    exact hname _ _ ⟨nofun, hvalue hvs _ ⟨fun _ => rfl, ih⟩⟩

/-! ## Reading a mail back -/

theorem MailField.toFields_ne {fields : List MailField} (h : 1 ≤ fields.length) :
    fields.map MailField.toField ≠ [] := by
  rw [ne_eq, List.map_eq_nil_iff]
  rintro rfl
  exact absurd h (by decide)

theorem MailField.toFields_wellFormed (fields : List MailField) :
    ∀ f ∈ fields.map MailField.toField, f.WellFormed := by
  intro f hf
  obtain ⟨g, -, rfl⟩ := List.mem_map.mp hf
  exact g.toField_wellFormed

/-- What the parser owes a mail: a header for each of its fields, every value
ended by its terminator, and the body whole. -/
structure SeparatesBody (r : Request) (fields : List MailField) (body : Bytes) : Prop where
  headerCount : r.headerCount = fields.length
  headers : r.headerTexts = fields.map MailField.kept
  bodyBlock : r.body = some (body ++ [0])
  bodyLen : r.bodyLen = body.length

/-- The tokens of a mail whose body does not start with a blank. -/
theorem scan_renderMail (tail : Bytes) {fields : List MailField} (hone : 1 ≤ fields.length)
    {c : UInt8} (h9 : c ≠ 9) (h32 : c ≠ 32) (body : Bytes) :
    ∃ tss, List.Forall₂ FieldTokens (fields.map MailField.toField) tss ∧
      scanData (renderMail fields (c :: body)) tail = ⟨tss.flatten, true, c :: body⟩ := by
  rw [renderMail_eq]
  exact scan_message tail body h9 h32 _ (MailField.toFields_ne hone)
    (MailField.toFields_wellFormed fields)

/-- The headers of such a mail, and that no store was out of range. -/
theorem requestParseData_headerTexts (req : Request) (tail : Bytes) {fields : List MailField}
    (hmax : fields.length ≤ headerMaxLen) {tss : List (List Token)} {rest : Bytes}
    (htss : List.Forall₂ FieldTokens (fields.map MailField.toField) tss)
    (hscan : scanData req.data tail = ⟨tss.flatten, true, rest⟩) :
    (requestParseData req tail).1.headerCount = fields.length ∧
      (requestParseData req tail).1.headerTexts = fields.map MailField.kept ∧
      ∀ a ∈ (requestParseData req tail).2, a.InRange := by
  have hfit : HeadersFit 0 (scanData req.data tail).tokens := by
    rw [hscan]
    exact headersFit_fields htss 0 (by simpa using hmax)
  have hcolons : Colons true (scanData req.data tail).tokens := by
    rw [hscan]
    exact colons_fields htss
  -- the arrays hold the lines that the tokens give
  have hholds := (Holding.init req.headers).foldl (scan_moded tail true req.data)
    (scan_noNul tail true req.data) hfit hcolons
  have hlines : ((scanData req.data tail).tokens.foldl LineReading.read ⟨[], ⟨[], []⟩⟩).done =
      fields.map MailField.kept := by
    rw [hscan, foldl_read_fields htss, List.nil_append, List.map_map]
    rfl
  have hcount : (requestParseData req tail).1.headerCount = fields.length := by
    rw [requestParseData_headerCount, finalState, hholds.count, hlines, List.length_map]
  refine ⟨hcount, ?_, ((accesses_inRange_iff req tail).mpr hfit).1⟩
  rw [Request.headerTexts, hcount, requestParseData_headers]
  refine List.ext_getElem ?_ fun i hi hi' => ?_
  · rw [List.length_map, List.length_take, Vector.length_toList, List.length_map]
    exact Nat.min_eq_left hmax
  · have hlt : i < fields.length := by simpa using hi'
    have hroom : i < headerMaxLen := by omega
    have hd : i < ((scanData req.data tail).tokens.foldl LineReading.read ⟨[], ⟨[], []⟩⟩).done.length := by
      rw [hlines]
      exact hi'
    have hline := hholds.lines i hroom hd
    have hkept : ((scanData req.data tail).tokens.foldl LineReading.read ⟨[], ⟨[], []⟩⟩).done[i] =
        (fields.map MailField.kept)[i] := by
      simp only [hlines]
    rw [hkept] at hline
    rw [List.getElem_map, List.getElem_take, Vector.getElem_toList]
    show HeaderText.mk (finalState req tail).headers[i].keyStr
      (finalState req tail).headers[i].valueStr = _
    rw [finalState, hline.keyStr_eq, hline.valueStr_eq]

/-- **Parsing inverts rendering**: the first `HEADER_MAX_LEN` fields or fewer
are read back in order, each up to the limits of its arrays, and no store is
out of range. -/
theorem requestParseData_renderMail (req : Request) (tail : Bytes) (fields : List MailField)
    (body : Bytes) (hone : 1 ≤ fields.length) (hmax : fields.length ≤ headerMaxLen)
    (hbody : ∃ c ∈ body.head?, c ≠ 32 ∧ c ≠ 9 ∧ c ≠ 13) (hdata : req.data = renderMail fields body) :
    (requestParseData req tail).1.headerCount = fields.length ∧
      (requestParseData req tail).1.headerTexts = fields.map MailField.kept ∧
      ∀ a ∈ (requestParseData req tail).2, a.InRange := by
  obtain ⟨c, hc, h32, h9, -⟩ := hbody
  obtain ⟨body, rfl⟩ : ∃ rest, body = c :: rest := ⟨_, List.eq_cons_of_mem_head? hc⟩
  obtain ⟨tss, htss, hscan⟩ := scan_renderMail tail hone h9 h32 body
  rw [← hdata] at hscan
  exact requestParseData_headerTexts req tail hmax htss hscan

/-! ## Where the body starts

At the blank line the index has moved on to its second CRLF when the loop
looks for a fold. A body that starts with a blank makes it one.
-/

/-- The blank line before a body that starts with a blank. -/
theorem scan_blankLine_fold {blank : UInt8} (h : blank = 9 ∨ blank = 32) (tail body : Bytes)
    (isKey : Bool) :
    scan tail isKey (13 :: 10 :: 13 :: 10 :: blank :: body) = ⟨[.fold], true, body⟩ := by
  have hblank : StartsBlankLine (13 :: 10 :: 13 :: 10 :: blank :: body) tail :=
    ⟨by simp, blank :: body ++ tail, rfl⟩
  exact (scan_startsBlankLine isKey hblank).1 ⟨blank, body ++ tail, h, rfl⟩

/-- One line end for each field. -/
theorem count_lineEnd {fields : List Field} {tss : List (List Token)}
    (h : List.Forall₂ FieldTokens fields tss) : tss.flatten.count .lineEnd = fields.length := by
  induction h with
  | nil => rfl
  | @cons f ts fields tss hf _ ih =>
    obtain ⟨vs, hvs, rfl⟩ := hf
    have hname : (f.name.map Token.keyChar).count Token.lineEnd = 0 :=
      List.count_eq_zero.mpr (by simp)
    have hvalue : vs.count Token.lineEnd = 0 := List.count_eq_zero.mpr hvs.lineEnd_not_mem
    rw [List.flatten_cons, List.count_append, ih, List.count_append, hname, List.count_cons,
      List.count_append, hvalue, List.count_singleton_self, List.length_cons]
    simp [Nat.add_comm]

/-- The last field before such a body is not counted. -/
theorem headerCount_blank_body (req : Request) (tail : Bytes) {fields : List MailField}
    (hone : 1 ≤ fields.length) {blank : UInt8} (h : blank = 9 ∨ blank = 32) (body : Bytes)
    (hdata : req.data = renderMail fields (blank :: body)) :
    (requestParseData req tail).1.headerCount + 1 = fields.length := by
  obtain ⟨init, f, hsplit⟩ := List.eq_nil_or_concat' (fields.map MailField.toField)
    |>.resolve_left (MailField.toFields_ne hone)
  have hwf := MailField.toFields_wellFormed fields
  rw [hsplit] at hwf
  have hf : f.WellFormed := hwf f (by simp)
  obtain ⟨d, rest, hd, hd9, hd13, hd32⟩ := Field.render_head hf
  obtain ⟨tss, htss, hscan⟩ := scan_fields tail (rest ++ 13 :: 10 :: blank :: body) hd9 hd13 hd32
    init fun g hg => hwf g (List.mem_append_left _ hg)
  obtain ⟨vs, hvs, heq⟩ := scan_field_body tail (13 :: 10 :: blank :: body) hf
  have hrender : req.data = init.flatMap Field.render ++ d :: (rest ++ 13 :: 10 :: blank :: body) := by
    rw [hdata, renderMail_eq, hsplit]
    simp [renderMessage, hd]
  have hlast : d :: (rest ++ 13 :: 10 :: blank :: body) = f.render ++ 13 :: 10 :: blank :: body := by
    simp [hd]
  -- the tokens end with a fold where the last line end should be
  have htokens : (scanData req.data tail).tokens =
      tss.flatten ++ (f.name.map Token.keyChar ++ Token.colon :: vs ++ [Token.fold]) := by
    rw [scanData, hrender, hscan, hlast, heq, scan_blankLine_fold h]
    simp [Scan.push]
  have hnone : (f.name.map Token.keyChar ++ Token.colon :: vs ++ [Token.fold]).count
      Token.lineEnd = 0 :=
    List.count_eq_zero.mpr (by simpa using hvs.lineEnd_not_mem)
  have hlen : fields.length = init.length + 1 := by
    have := congrArg List.length hsplit
    simpa using this
  rw [requestParseData_headerCount, finalState, foldl_headerCount, htokens, List.count_append,
    count_lineEnd htss, hnone, hlen]
  simp [HeaderState.init]

/-- **A body is kept apart from the headers exactly if it does not start with a
blank.** -/
theorem requestParseData_separates_iff (req : Request) (tail : Bytes) (fields : List MailField)
    (body : Bytes) (hone : 1 ≤ fields.length) (hmax : fields.length ≤ headerMaxLen)
    (hbody : body ≠ []) (hdata : req.data = renderMail fields body) :
    SeparatesBody (requestParseData req tail).1 fields body ↔
      body.head? ≠ some 32 ∧ body.head? ≠ some 9 := by
  obtain ⟨c, body, rfl⟩ := List.exists_cons_of_ne_nil hbody
  rw [List.head?_cons, ne_eq, ne_eq, Option.some.injEq, Option.some.injEq]
  constructor
  · intro hsep
    by_contra hblank
    have hc : c = 9 ∨ c = 32 := by
      by_cases h9 : c = 9
      · exact .inl h9
      · exact .inr (by_contra fun h32 => hblank ⟨h32, h9⟩)
    have hcount := headerCount_blank_body req tail hone hc body hdata
    rw [hsep.headerCount] at hcount
    omega
  · rintro ⟨h32, h9⟩
    obtain ⟨tss, htss, hscan⟩ := scan_renderMail tail hone h9 h32 body
    rw [← hdata] at hscan
    obtain ⟨hcount, htexts, -⟩ := requestParseData_headerTexts req tail hmax htss hscan
    have hhas : HasBody req.data tail := by simp [HasBody, hscan]
    obtain ⟨hb, hlen⟩ := requestParseData_body req tail hhas
    exact ⟨hcount, htexts, by rw [hb, hscan], by rw [hlen, hscan]⟩

section Examples

/-- `Subject: a: b`. -/
def subjectField : MailField where
  name := bytes "Subject"
  value := bytes "a: b"
  name_ne := by decide
  name_chars := by decide +kernel
  value_chars := by decide +kernel

theorem requestParseData_renderMail_subject :
    let req := { Request.zero with data := renderMail [subjectField] (bytes "x") }
    (requestParseData req []).1.headerCount = 1 ∧
      (requestParseData req []).1.headerTexts = [⟨bytes "Subject", bytes "a: b"⟩] ∧
      ∀ a ∈ (requestParseData req []).2, a.InRange :=
  requestParseData_renderMail _ [] [subjectField] (bytes "x") (by decide) (by decide)
    ⟨120, by decide, by decide⟩ rfl

theorem requestParseData_separates_iff_subject :
    let req := { Request.zero with data := renderMail [subjectField] (bytes "x") }
    SeparatesBody (requestParseData req []).1 [subjectField] (bytes "x") ↔
      (bytes "x").head? ≠ some 32 ∧ (bytes "x").head? ≠ some 9 :=
  requestParseData_separates_iff _ [] [subjectField] (bytes "x") (by decide) (by decide)
    (by decide) rfl

/-- The body ` hi` costs the mail its only header. -/
theorem indented_body_not_separated :
    let req := { Request.zero with data := renderMail [subjectField] (bytes " hi") }
    ¬SeparatesBody (requestParseData req []).1 [subjectField] (bytes " hi") := by
  intro req hsep
  have hone : 1 ≤ [subjectField].length := Nat.le_refl 1
  have hcount := headerCount_blank_body req [] hone (.inr rfl) (bytes "hi") rfl
  rw [hsep.headerCount] at hcount
  exact absurd hcount (by decide)

end Examples

end ComfirmDmarc.Server
