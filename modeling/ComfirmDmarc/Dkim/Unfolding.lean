import ComfirmDmarc.Dkim.HeaderCanon
import ComfirmDmarc.Server.Message

/-!
# Dkim -- two unfolders

The server stores a header value without its folds, and a fold there is a CRLF
with the blank behind it. DKIM removes the CRLF only. The two agree, after
canonicalisation, except where a fold has no other blank next to it and stands
between two words, and where the value does not start with a blank: the parser
skips the byte behind the colon, whatever it is.
-/

namespace ComfirmDmarc.Dkim

open CMemory Server

/-! ## Folds between words -/

/-- A byte of a word: neither a blank nor part of a CRLF. -/
def WordByte (c : UInt8) : Prop := isWsp c = false ∧ c ≠ 10 ∧ c ≠ 13

/-- The text starts with a word. -/
def StartsWord (raw : Bytes) : Prop := ∃ c s, raw = c :: s ∧ WordByte c

/-- The text starts with one or more folds of one blank each, and then a word. -/
inductive FoldsThenWord : Bytes → Prop
  | last {blank : UInt8} {raw : Bytes} :
      isWsp blank = true → StartsWord raw → FoldsThenWord (13 :: 10 :: blank :: raw)
  | more {blank : UInt8} {raw : Bytes} :
      isWsp blank = true → FoldsThenWord raw → FoldsThenWord (13 :: 10 :: blank :: raw)

/-- **Two words with nothing but such folds between them.** -/
inductive LossyFold : Bytes → Prop
  | here {c : UInt8} {raw : Bytes} : WordByte c → FoldsThenWord raw → LossyFold (c :: raw)
  | later {c : UInt8} {raw : Bytes} : LossyFold raw → LossyFold (c :: raw)

theorem lossyFold_cons_iff (c : UInt8) (raw : Bytes) :
    LossyFold (c :: raw) ↔ LossyFold raw ∨ (WordByte c ∧ FoldsThenWord raw) := by
  constructor
  · intro h
    cases h with
    | here hc hf => exact .inr ⟨hc, hf⟩
    | later h => exact .inl h
  · rintro (h | ⟨hc, hf⟩)
    · exact .later h
    · exact .here hc hf

theorem lossyFold_cons_of_not_word {c : UInt8} (h : ¬WordByte c) (raw : Bytes) :
    LossyFold (c :: raw) ↔ LossyFold raw := by
  rw [lossyFold_cons_iff]
  exact ⟨fun h' => h'.resolve_right fun hc => h hc.1, .inl⟩

theorem wordByte_iff {c : UInt8} (h10 : c ≠ 10) (h13 : c ≠ 13) :
    WordByte c ↔ ¬isWsp c = true := by
  simp [WordByte, h10, h13]

theorem not_wordByte_of_isWsp {c : UInt8} (h : isWsp c = true) : ¬WordByte c :=
  fun hw => by simp [hw.1] at h

theorem lossyFold_fold_iff {blank : UInt8} (h : isWsp blank = true) (raw : Bytes) :
    LossyFold (13 :: 10 :: blank :: raw) ↔ LossyFold raw := by
  rw [lossyFold_cons_of_not_word (fun hw => hw.2.2 rfl),
    lossyFold_cons_of_not_word (fun hw => hw.2.1 rfl),
    lossyFold_cons_of_not_word (not_wordByte_of_isWsp h)]

theorem foldsThenWord_fold_iff {blank : UInt8} (h : isWsp blank = true) (raw : Bytes) :
    FoldsThenWord (13 :: 10 :: blank :: raw) ↔ StartsWord raw ∨ FoldsThenWord raw := by
  constructor
  · intro hf
    cases hf with
    | last _ hw => exact .inl hw
    | more _ hf => exact .inr hf
  · rintro (hw | hf)
    · exact .last h hw
    · exact .more h hf

theorem not_foldsThenWord_cons {c : UInt8} (h13 : c ≠ 13) (raw : Bytes) :
    ¬FoldsThenWord (c :: raw) := by
  intro h
  cases h <;> exact h13 rfl

theorem startsWord_cons_iff (c : UInt8) (raw : Bytes) : StartsWord (c :: raw) ↔ WordByte c := by
  constructor
  · rintro ⟨d, s, heq, hw⟩
    obtain ⟨rfl, -⟩ := List.cons.inj heq
    exact hw
  · exact fun hw => ⟨c, raw, rfl, hw⟩

theorem isWsp_of_blank {blank : UInt8} (h : blank = 9 ∨ blank = 32) : isWsp blank = true := by
  rcases h with rfl | rfl <;> rfl

/-! ## Reading both texts -/

theorem removeCrlf_crlf (s : Bytes) : removeCrlf (13 :: 10 :: s) = removeCrlf s := by
  rw [removeCrlf, if_pos ⟨rfl, rfl⟩]
  rfl

/-- DKIM reads `raw` without its CRLFs, the server left `v`. Both are in the
same state, or DKIM has seen only folds behind a word. -/
theorem joinWords_unfold {raw v : Bytes} (h : Unfolds raw v) (h10 : (10 : UInt8) ∉ v) :
    (∀ st, st ≠ .word →
      (joinWords st (removeCrlf raw) = joinWords st v ↔ ¬LossyFold raw)) ∧
    (joinWords .word (removeCrlf raw) = joinWords .word v ↔
      ¬LossyFold raw ∧ ¬FoldsThenWord raw) ∧
    (joinWords .gap (removeCrlf raw) = joinWords .word v ↔
      ¬LossyFold raw ∧ ¬FoldsThenWord raw ∧ ¬StartsWord raw) := by
  induction h with
  | nil =>
    have hl : ¬LossyFold [] := nofun
    have hf : ¬FoldsThenWord [] := nofun
    have hs : ¬StartsWord [] := nofun
    rw [removeCrlf]
    simp [hl, hf, hs, joinWords]
  | @char c raw v h0 h13 _ ih =>
    obtain ⟨hsame, hword, hbehind⟩ := ih fun hv => h10 (List.mem_cons_of_mem _ hv)
    have hc10 : c ≠ 10 := fun heq => h10 (heq ▸ List.mem_cons_self)
    have hfolds := not_foldsThenWord_cons h13 raw
    rw [removeCrlf_cons h13, startsWord_cons_iff]
    by_cases hc : isWsp c = true
    -- a blank: both sides go on from a gap
    · have hw := not_wordByte_of_isWsp hc
      have hgap := hsame .gap (by simp)
      rw [lossyFold_cons_of_not_word hw]
      simp only [joinWords_wsp hc, hfolds, hw, not_false_eq_true, and_true]
      refine ⟨?_, hgap, hgap⟩
      intro st hst
      exact hsame _ (by split <;> simp)
    -- a byte of a word: what follows must not begin with a fold
    · have hw : WordByte c := (wordByte_iff hc10 h13).mpr hc
      have hlossy : ¬LossyFold (c :: raw) ↔ ¬LossyFold raw ∧ ¬FoldsThenWord raw := by
        rw [lossyFold_cons_iff, not_or, not_and]
        exact ⟨fun h' => ⟨h'.1, h'.2 hw⟩, fun h' => ⟨h'.1, fun _ => h'.2⟩⟩
      have h32 : (32 : UInt8) ≠ c := fun heq => hc (heq ▸ rfl)
      simp only [joinWords_word hc, hfolds, hlossy, not_false_eq_true, and_true]
      refine ⟨?_, ?_, ?_⟩
      · intro st hst
        rw [← hword]
        split <;> simp
      · simpa using hword
      · simp [h32, hw]
  | @fold blank raw v hblank _ ih =>
    obtain ⟨hsame, hword, hbehind⟩ := ih h10
    -- the fold is a gap on the left and nothing on the right
    have hb := isWsp_of_blank hblank
    have h13 : blank ≠ 13 := by rcases hblank with rfl | rfl <;> decide
    have hs : ¬StartsWord (13 :: 10 :: blank :: raw) := by
      rw [startsWord_cons_iff]
      exact fun hw => hw.2.2 rfl
    rw [removeCrlf_crlf, removeCrlf_cons h13, lossyFold_fold_iff hb, foldsThenWord_fold_iff hb]
    simp only [joinWords_wsp hb, hs, not_false_eq_true, and_true]
    refine ⟨?_, ?_, ?_⟩
    · intro st hst
      have : (if st = .start then .start else .gap) = st := by
        cases st <;> simp at hst ⊢
      rw [this]
      exact hsame st hst
    · rw [show (if Gap.word = .start then Gap.start else .gap) = .gap from rfl, hbehind, not_or,
        and_comm (a := ¬StartsWord raw)]
    · rw [show (if Gap.gap = .start then Gap.start else .gap) = .gap from rfl, hbehind, not_or,
        and_comm (a := ¬StartsWord raw)]

/-! ## The value the server stores -/

/-- The text behind the CRLF of a field: another header line, or the blank line
of a body that does not start with a blank. -/
def FieldBoundary (more : Bytes) : Prop :=
  ∃ d rest, more = d :: rest ∧ d ≠ 9 ∧ d ≠ 32 ∧
    (d = 13 → ∃ e rest', rest = 10 :: e :: rest' ∧ e ≠ 9 ∧ e ≠ 32)

theorem scan_boundary (tail : Bytes) {more : Bytes} (h : FieldBoundary more) (isKey : Bool) :
    ∃ ts, (scan tail isKey (13 :: 10 :: more)).tokens = .lineEnd :: ts := by
  obtain ⟨d, rest, rfl, h9, h32, h13⟩ := h
  by_cases hd : d = 13
  · obtain ⟨e, rest', rfl, he9, he32⟩ := h13 hd
    subst hd
    exact ⟨[], by rw [scan_blankLine tail rest' isKey he9 he32]⟩
  · exact ⟨_, by rw [scan_lineEnd tail rest isKey h9 hd h32]; rfl⟩

/-- A field in a stored content: the fields before it, its name and raw value,
and what follows its CRLF. -/
structure FieldContext where
  before : List Field
  name : Bytes
  more : Bytes
  room : before.length < headerMaxLen
  wellFormed : ∀ f ∈ before, f.WellFormed
  short : ∀ f ∈ before, f.Short
  isName : IsName name
  nameShort : name.length < keyMaxLen
  boundary : FieldBoundary more

/-- The content around a raw value. -/
def FieldContext.content (ctx : FieldContext) (raw : Bytes) : Bytes :=
  ctx.before.flatMap Field.render ++ (ctx.name ++ 58 :: (raw ++ 13 :: 10 :: ctx.more))

/-- The value `request_parse_data` stores for the field. -/
def storedValue (ctx : FieldContext) (req : Request) (tail raw : Bytes) : Bytes :=
  (getElem (requestParseData { req with data := ctx.content raw } tail).1.headers
    ctx.before.length ctx.room).valueStr

/-- The scan up to the name of the field, and the state it starts in. -/
theorem scan_context (ctx : FieldContext) (req : Request) (tail raw : Bytes) :
    ∃ tss : List (List Token),
      scan tail true (ctx.content raw) =
        (scan tail true (58 :: (raw ++ 13 :: 10 :: ctx.more))).push
          (tss.flatten ++ ctx.name.map .keyChar) ∧
      let s := tss.flatten.foldl HeaderState.apply (.init req.headers)
      s.headerCount = ctx.before.length ∧ s.curLen = 0 := by
  obtain ⟨d, rest, hd, hd9, hd13, hd32⟩ := ctx.isName.line_head (raw ++ 13 :: 10 :: ctx.more)
  obtain ⟨tss, htss, hscan⟩ := scan_fields tail rest hd9 hd13 hd32 ctx.before ctx.wellFormed
  obtain ⟨hcount, hcur, -⟩ := foldl_fields htss ctx.wellFormed ctx.short (.init req.headers) rfl
    (by simpa [HeaderState.init] using ctx.room.le)
  refine ⟨tss, ?_, by simpa [HeaderState.init] using hcount, hcur⟩
  rw [FieldContext.content, hd, hscan, ← hd, scan_name _ _ _ ctx.isName.bytes]
  simp [Scan.push]

/-- **A value whose first byte is not CR** is stored without that byte and
without its folds. -/
theorem storedValue_of_ne (ctx : FieldContext) (req : Request) (tail : Bytes) {c : UInt8}
    {raw v : Bytes} (h : Unfolds raw v) (hlen : v.length < valueMaxLen) :
    storedValue ctx req tail (c :: raw) = v := by
  obtain ⟨tss, hscan, hcount, hcur⟩ := scan_context ctx req tail (c :: raw)
  obtain ⟨vs, hvs, hvalue⟩ := scan_value tail (13 :: 10 :: ctx.more) h
  obtain ⟨ts, hend⟩ := scan_boundary tail ctx.boundary false
  let f : Field := ⟨ctx.name, c, raw, v⟩
  have hwf : f.WellFormed := ⟨ctx.isName, h⟩
  generalize hs : tss.flatten.foldl HeaderState.apply (.init req.headers) = s at hcount hcur
  have hlt : s.headerCount < headerMaxLen := by rw [hcount]; exact ctx.room
  obtain ⟨fts, hfts, htokens⟩ : ∃ fts, FieldTokens f fts ∧
      (scanData (ctx.content (c :: raw)) tail).tokens = tss.flatten ++ (fts ++ ts) := by
    refine ⟨_, ⟨vs, hvs, rfl⟩, ?_⟩
    rw [scanData, hscan, List.cons_append, scan_colon, hvalue]
    simp [Scan.push, hend, f]
  obtain ⟨hcount', -, hdr, hheaders, -, hval⟩ :=
    foldl_field hwf ⟨ctx.nameShort, hlen⟩ hfts s hcur hlt
  have hkeep := foldl_headers_lt ts (fts.foldl HeaderState.apply s) ctx.room (by omega)
  simp only [hheaders, Vector.getElem_set, hcount, if_true] at hkeep
  rw [storedValue]
  simp only [requestParseData_headers, finalState, htokens, List.foldl_append, hs, hkeep]
  exact hval

/-! ## A value that starts with CR

The parser skips the CR as the byte behind the colon, and the LF becomes the
first byte of the value. It stays there whatever follows.
-/

/-- Header `k` has LF as the first byte of its value, and is finished or in its
value. -/
structure StartsWithLf (k : Nat) (s : HeaderState) : Prop where
  lt : k < headerMaxLen
  first : s.headers[k].value.toList.head? = some 10
  behind : k < s.headerCount ∨ (s.headerCount = k ∧ s.isKey = false ∧ 0 < s.curLen)

theorem head?_storeByte (h : Hdr) (i : Nat) (c : UInt8) {b : UInt8}
    (hhead : h.value.toList.head? = some b) (hi : 0 < i) :
    (storeByte h i c .value).value.toList.head? = some b := by
  rw [show (storeByte h i c .value).value.toList = h.value.toList.set i c from
    toList_setIfInBounds _ _ _]
  cases hl : h.value.toList with
  | nil => simp [hl] at hhead
  | cons a l =>
    obtain ⟨i, rfl⟩ : ∃ j, i = j + 1 := ⟨i - 1, by omega⟩
    simpa [hl] using hhead

theorem StartsWithLf.apply {k : Nat} {s : HeaderState} (h : StartsWithLf k s) {t : Token}
    (ht : t.AllowedIn s.isKey) : StartsWithLf k (s.apply t) := by
  obtain ⟨hlt, hfirst, hbehind⟩ := h
  obtain hdone | ⟨hcount, hkey, hcur⟩ := hbehind
  · -- a later header is being read
    have hkeep := foldl_headers_lt [t] s hlt hdone
    simp only [List.foldl_cons, List.foldl_nil] at hkeep
    refine ⟨hlt, by rw [hkeep]; exact hfirst, .inl ?_⟩
    rw [HeaderState.apply_headerCount, Token.countLine]
    split <;> omega
  · have hstore : ∀ c, (s.store .value c).headers[k].value.toList.head? = some 10 := by
      intro c
      have hlt' : s.headerCount < headerMaxLen := by omega
      simp only [HeaderState.store, dif_pos hlt', Vector.getElem_set, if_pos hcount]
      refine head?_storeByte _ _ _ ?_ hcur
      simpa [hcount] using hfirst
    cases t with
    | colon => simp [Token.AllowedIn, hkey] at ht
    | keyChar c => simp [Token.AllowedIn, hkey] at ht
    | fold => exact ⟨hlt, hfirst, .inr ⟨hcount, hkey, hcur⟩⟩
    | skip => exact ⟨hlt, hfirst, .inr ⟨hcount, hkey, hcur⟩⟩
    | lineEnd =>
      simp only [HeaderState.apply, if_pos (show s.headerCount < headerMaxLen by omega)]
      exact ⟨hlt, hstore 0, .inl (by show k < s.headerCount + 1; omega)⟩
    | valueChar c =>
      simp only [HeaderState.apply]
      split
      · exact ⟨hlt, hstore c, .inr ⟨hcount, hkey, Nat.succ_pos _⟩⟩
      · exact ⟨hlt, hfirst, .inr ⟨hcount, hkey, hcur⟩⟩

theorem StartsWithLf.foldl {k : Nat} {s : HeaderState} (h : StartsWithLf k s) {ts : List Token}
    (hts : Moded s.isKey ts) : StartsWithLf k (ts.foldl HeaderState.apply s) := by
  induction ts generalizing s with
  | nil => exact h
  | cons t ts ih =>
    obtain ⟨ht, hts⟩ := hts
    refine ih (h.apply ht) ?_
    rw [HeaderState.apply_isKey]
    exact hts

/-- LF as the first byte of a value. -/
theorem startsWithLf_valueChar {s : HeaderState} (hlt : s.headerCount < headerMaxLen)
    (hkey : s.isKey = false) (hcur : s.curLen = 0) :
    StartsWithLf s.headerCount (s.apply (.valueChar 10)) := by
  have hlen : s.curLen < valueMaxLen - 1 := by rw [hcur]; decide
  have happly : s.apply (.valueChar 10) = { s.store .value 10 with curLen := s.curLen + 1 } := by
    simp only [HeaderState.apply, if_pos hlen]
  rw [happly]
  refine ⟨hlt, ?_, .inr ⟨rfl, hkey, Nat.succ_pos _⟩⟩
  simp only [HeaderState.store, dif_pos hlt, Vector.getElem_set_self, storeByte, hcur,
    toList_setIfInBounds]
  cases hl : s.headers[s.headerCount].value.toList with
  | nil =>
    have hsize : s.headers[s.headerCount].value.toList.length = valueMaxLen := by simp
    rw [hl] at hsize
    exact absurd hsize (by decide)
  | cons a l => rfl

/-- **A value that is empty or starts with a fold** is stored with LF as its
first byte. -/
theorem storedValue_of_cr (ctx : FieldContext) (req : Request) (tail raw : Bytes)
    (h : ∃ more, raw ++ 13 :: 10 :: ctx.more = 13 :: 10 :: more) :
    (storedValue ctx req tail raw).head? = some 10 := by
  obtain ⟨tss, hscan, hcount, hcur⟩ := scan_context ctx req tail raw
  obtain ⟨more, hmore⟩ := h
  generalize hs : tss.flatten.foldl HeaderState.apply (.init req.headers) = s at hcount hcur
  have hlt : s.headerCount < headerMaxLen := by rw [hcount]; exact ctx.room
  -- the tokens behind the colon
  have hlf : scan tail false (10 :: more) = (scan tail false more).push [.valueChar 10] := by
    rw [scan_of_ne (by decide), lexeme_of_ne (by decide)]
    rfl
  have htokens : (scanData (ctx.content raw) tail).tokens =
      tss.flatten ++ (ctx.name.map .keyChar ++ .colon :: .valueChar 10 ::
        (scan tail false more).tokens) := by
    rw [scanData, hscan, hmore, scan_colon, hlf]
    simp [Scan.push]
  obtain ⟨hcount1, -⟩ := store_string .key s hcur hlt ctx.nameShort
  generalize hs2 : ((ctx.name.foldl (putChar .key) s)).apply .colon = s2
  have hcount2 : s2.headerCount = ctx.before.length := by rw [← hs2, ← hcount]; exact hcount1
  have hkey2 : s2.isKey = false := by rw [← hs2]; rfl
  have hstart := startsWithLf_valueChar (s := s2) (by omega) hkey2 (by rw [← hs2]; rfl)
  have hmoded : Moded (s2.apply (.valueChar 10)).isKey (scan tail false more).tokens := by
    rw [HeaderState.apply_isKey, hkey2]
    exact scan_moded tail false more
  have hfinal := hstart.foldl hmoded
  rw [hcount2] at hfinal
  have hfirst := hfinal.first
  rw [storedValue]
  simp only [requestParseData_headers, finalState, htokens, List.foldl_append, List.foldl_cons,
    foldl_keyChars, hs, hs2]
  rw [Hdr.valueStr, str, List.head?_takeWhile, hfirst]
  rfl

/-! ## The agreement -/

theorem countP_joinWords (st : Gap) (s : Bytes) :
    (joinWords st s).countP (fun c => !isWsp c) = s.countP (fun c => !isWsp c) := by
  induction s generalizing st with
  | nil => rfl
  | cons c s ih =>
    by_cases hc : isWsp c = true
    · rw [joinWords_wsp hc, ih]
      simp [hc]
    · rw [joinWords_word hc]
      split <;> simp [ih, hc, show isWsp 32 = true from rfl]

theorem countP_removeCrlf {raw v : Bytes} (h : Unfolds raw v) :
    (removeCrlf raw).countP (fun c => !isWsp c) = v.countP (fun c => !isWsp c) := by
  induction h with
  | nil => rw [removeCrlf]
  | char h0 h13 _ ih => rw [removeCrlf_cons h13, List.countP_cons, List.countP_cons, ih]
  | @fold blank raw v hblank _ ih =>
    have h13 : blank ≠ 13 := by rcases hblank with rfl | rfl <;> decide
    rw [removeCrlf_crlf, removeCrlf_cons h13, List.countP_cons, ih]
    simp [isWsp_of_blank hblank]

theorem lf_not_mem_removeCrlf {raw v : Bytes} (h : Unfolds raw v) (h10 : (10 : UInt8) ∉ v) :
    (10 : UInt8) ∉ removeCrlf raw := by
  induction h with
  | nil => rwa [removeCrlf]
  | char _ h13 _ ih =>
    rw [removeCrlf_cons h13]
    simp only [List.mem_cons, not_or] at h10 ⊢
    exact ⟨h10.1, ih h10.2⟩
  | @fold blank raw v hblank _ ih =>
    have h13 : blank ≠ 13 := by rcases hblank with rfl | rfl <;> decide
    have hlf : (10 : UInt8) ≠ blank := by rcases hblank with rfl | rfl <;> decide
    rw [removeCrlf_crlf, removeCrlf_cons h13]
    simp only [List.mem_cons, not_or]
    exact ⟨hlf, ih h10⟩

/-- A stored value that starts with LF never agrees. -/
theorem relaxedValue_of_lf {s raw v : Bytes} (hs : (0 : UInt8) ∉ s) (hhead : s.head? = some 10)
    (h : Unfolds raw v) (h10 : (10 : UInt8) ∉ v) : relaxedValue s ≠ relaxedValue raw := by
  rw [relaxedValue_eq_joinWords hs, relaxedValue_eq_joinWords h.nul_not_mem_raw]
  obtain ⟨s, rfl⟩ : ∃ s', s = 10 :: s' := by
    cases s with
    | nil => simp at hhead
    | cons c s => exact ⟨s, by simpa using hhead⟩
  intro heq
  have hmem : (10 : UInt8) ∈ joinWords .start (removeCrlf (10 :: s)) := by
    rw [removeCrlf_cons (by decide), joinWords_word (by decide)]
    simp
  rw [heq] at hmem
  rcases mem_joinWords hmem with h32 | hraw
  · exact absurd h32 (by decide)
  · exact lf_not_mem_removeCrlf h h10 hraw

/-- The text starts with a blank. -/
def StartsBlank (raw : Bytes) : Prop := ∃ c s, raw = c :: s ∧ isWsp c = true

theorem startsBlank_cons_iff (c : UInt8) (s : Bytes) :
    StartsBlank (c :: s) ↔ isWsp c = true := by
  constructor
  · rintro ⟨d, t, heq, hd⟩
    obtain ⟨rfl, -⟩ := List.cons.inj heq
    exact hd
  · exact fun hc => ⟨c, s, rfl, hc⟩

/-- **The two unfolders agree exactly** on values that start with a blank and
have no fold that is all there is between two words. -/
theorem relaxedValue_storedValue_iff (ctx : FieldContext) (req : Request) (tail : Bytes)
    {raw v : Bytes} (h : Unfolds raw v) (h10 : (10 : UInt8) ∉ v) (hlen : v.length < valueMaxLen) :
    relaxedValue (storedValue ctx req tail raw) = relaxedValue raw ↔
      StartsBlank raw ∧ ¬LossyFold raw := by
  have hraw := h
  have hnul : (0 : UInt8) ∉ storedValue ctx req tail raw := not_mem_str _
  cases h with
  | nil =>
    have hlf := storedValue_of_cr ctx req tail [] ⟨ctx.more, rfl⟩
    have hno : ¬StartsBlank [] := nofun
    simp [relaxedValue_of_lf hnul hlf hraw h10, hno]
  | @fold blank raw v hblank h =>
    have hlf := storedValue_of_cr ctx req tail (13 :: 10 :: blank :: raw) ⟨_, rfl⟩
    have hno : ¬StartsBlank (13 :: 10 :: blank :: raw) := by
      rw [startsBlank_cons_iff]
      decide
    simp [relaxedValue_of_lf hnul hlf hraw h10, hno]
  | @char c raw v h0 h13 h =>
    simp only [List.mem_cons, not_or, List.length_cons] at h10 hlen
    have hstored := storedValue_of_ne ctx req tail (c := c) h (by omega)
    rw [hstored, relaxedValue_eq_joinWords h.nul_not_mem,
      relaxedValue_eq_joinWords hraw.nul_not_mem_raw, removeCrlf_of_not_mem h.cr_not_mem,
      removeCrlf_cons h13, startsBlank_cons_iff]
    by_cases hc : isWsp c = true
    · -- the byte the parser skips is a blank
      obtain ⟨hsame, -⟩ := joinWords_unfold h h10.2
      rw [joinWords_wsp hc, if_pos rfl, eq_comm, hsame .start (by simp),
        lossyFold_cons_of_not_word (not_wordByte_of_isWsp hc)]
      simp [hc]
    · -- the parser skips a byte of a word, so one is missing
      have hne : joinWords .start v ≠ joinWords .start (c :: removeCrlf raw) := by
        intro heq
        have hcount := congrArg (List.countP fun c => !isWsp c) heq
        rw [countP_joinWords, countP_joinWords, List.countP_cons, countP_removeCrlf h] at hcount
        simp [hc] at hcount
      simp [hne, hc]

/-- A field `S` that is alone in its mail. -/
def subjectContext : FieldContext where
  before := []
  name := bytes "S"
  more := bytes "\r\nbody"
  room := by decide
  wellFormed := nofun
  short := nofun
  isName := ⟨by simp [bytes], by decide⟩
  nameShort := by decide
  boundary := ⟨13, bytes "\nbody", by decide, by decide, by decide, fun _ =>
    ⟨98, bytes "ody", by decide, by decide, by decide⟩⟩

/-- `S: a` with the fold behind a blank: `a b` on both sides. -/
theorem relaxedValue_storedValue_blank :
    relaxedValue (storedValue subjectContext .zero [] [32, 97, 32, 13, 10, 32, 98]) =
      relaxedValue [32, 97, 32, 13, 10, 32, 98] := by
  have hunfolds : Unfolds [32, 97, 32, 13, 10, 32, 98] [32, 97, 32, 98] :=
    .char (by decide) (by decide) (.char (by decide) (by decide) (.char (by decide) (by decide)
      (.fold (.inr rfl) (.char (by decide) (by decide) .nil))))
  refine (relaxedValue_storedValue_iff subjectContext .zero [] hunfolds (by decide)
    (by decide)).mpr ⟨⟨32, _, rfl, rfl⟩, ?_⟩
  intro hlossy
  rw [lossyFold_cons_of_not_word (not_wordByte_of_isWsp rfl), lossyFold_cons_iff,
    lossyFold_cons_of_not_word (not_wordByte_of_isWsp rfl), lossyFold_fold_iff rfl,
    lossyFold_cons_iff] at hlossy
  rcases hlossy with (hnil | ⟨-, hnil⟩) | ⟨-, hblank⟩
  · exact nomatch hnil
  · exact nomatch hnil
  · exact not_foldsThenWord_cons (by decide) _ hblank

/-- `S: a` with the fold right behind the word: the server keeps `ab`. -/
theorem storedValue_loses_fold :
    ¬∀ (ctx : FieldContext) (req : Request) (tail raw v : Bytes), Unfolds raw v →
      (10 : UInt8) ∉ v → v.length < valueMaxLen →
      relaxedValue (storedValue ctx req tail raw) = relaxedValue raw := by
  intro h
  have hunfolds : Unfolds [97, 13, 10, 32, 98] [97, 98] :=
    .char (by decide) (by decide) (.fold (.inr rfl) (.char (by decide) (by decide) .nil))
  have hboth := h subjectContext .zero [] [32, 97, 13, 10, 32, 98] [32, 97, 98]
    (.char (by decide) (by decide) hunfolds) (by decide) (by decide)
  rw [storedValue_of_ne subjectContext .zero [] hunfolds (by decide)] at hboth
  exact absurd hboth (by decide +kernel)

end ComfirmDmarc.Dkim
