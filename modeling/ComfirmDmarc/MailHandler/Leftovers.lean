import ComfirmDmarc.MailHandler.ValidateDkim
import ComfirmDmarc.Server.Delivery
import ComfirmDmarc.Server.HeaderText
import ComfirmDmarc.Server.MissingBody

/-!
# MailHandler -- what was in memory before

A request is built over blocks that `malloc` does not clear, and so is the mail
that is made of it. Two runs of the parser over the same stored content and
different blocks give the same strings when every header line has a colon. A
line without one leaves its key unterminated, and what the mail handler reads
there, and behind a value, is what the block held before.
-/

namespace ComfirmDmarc.MailHandler

open CMemory Server Dkim

/-! ## Two runs over the same content -/

/-- The request that `request_parse_data` makes over the header arrays
`headers`, with `tail` behind the stored content. -/
def parsedOver (req : Request) (headers : Vector Hdr headerMaxLen) (tail : Bytes) : Request :=
  (requestParseData { req with headers := headers } tail).1

/-- **Nothing of the old memory is in the headers**, whatever the header arrays
held: the parser stays in its arrays, every key and every value it reports is a
string in its array and the same one in any two runs, and so are the mail that
is queued and what `validate_dkim` makes of it. -/
structure NoLeftovers (req : Request) (tail : Bytes) : Prop where
  bounds : ∀ headers, HeaderIndexBounds { req with headers := headers } tail
  terminated : ∀ headers i (hi : i < headerMaxLen), i < (parsedOver req headers tail).headerCount →
    (0 : UInt8) ∈ (parsedOver req headers tail).headers[i].key.toList ∧
      (0 : UInt8) ∈ (parsedOver req headers tail).headers[i].value.toList
  count : ∀ headers headers',
    (parsedOver req headers tail).headerCount = (parsedOver req headers' tail).headerCount
  strings : ∀ headers headers' i (hi : i < headerMaxLen),
    i < (parsedOver req headers tail).headerCount →
      (parsedOver req headers tail).headers[i].keyStr =
          (parsedOver req headers' tail).headers[i].keyStr ∧
        (parsedOver req headers tail).headers[i].valueStr =
          (parsedOver req headers' tail).headers[i].valueStr
  mail : ∀ headers headers' tail' mem mem' m m',
    createMail mem (parsedOver req headers tail) = .ok m →
      createMail mem' (parsedOver req headers' tail') = .ok m' → mailText m = mailText m'
  decision : ∀ headers headers' tail' mem mem' m m',
    createMail mem (parsedOver req headers tail) = .ok m →
      createMail mem' (parsedOver req headers' tail') = .ok m' →
        ∀ {Key : Type} (ssl : OpenSsl Key) (dns : Bytes → DnsAnswer) (blocks : Blocks),
          validateDkim ssl dns blocks m = validateDkim ssl dns blocks m'

/-! ## The memory behind the content -/

theorem startsWith_append {d lit : Bytes} (h : lit.length ≤ d.length) (tail : Bytes) :
    startsWith (d ++ tail) lit = startsWith d lit := by
  rw [Bool.eq_iff_iff, startsWith_iff, startsWith_iff]
  constructor
  · exact fun hp => List.prefix_of_prefix_length_le hp (List.prefix_append d tail) h
  · exact fun hp => hp.trans (List.prefix_append d tail)

theorem length_crlfcrlf : (bytes "\r\n\r\n").length = 4 := by decide +kernel

theorem length_fold : (bytes "\r\n\t").length = 3 ∧ (bytes "\r\n ").length = 3 := by decide +kernel

/-- Five bytes are enough for the comparisons of an iteration. -/
theorem lexeme_tail {cur : UInt8} {rest : Bytes} (h : 5 ≤ (cur :: rest).length) (isKey : Bool)
    (tail tail' : Bytes) :
    blankLine cur rest tail = blankLine cur rest tail' ∧
      lexeme isKey cur rest tail = lexeme isKey cur rest tail' := by
  have hblank : blankLine cur rest tail = blankLine cur rest tail' := by
    have h4 : (bytes "\r\n\r\n").length ≤ (cur :: rest).length := by
      rw [length_crlfcrlf]
      omega
    rw [blankLine, blankLine, startsWith_append h4, startsWith_append h4]
  have hahead : ∀ i lit, i ≤ 2 → lit.length = 3 →
      startsWith ((cur :: rest ++ tail).drop i) lit =
        startsWith ((cur :: rest ++ tail').drop i) lit := by
    intro i lit hi hlit
    have hlen : lit.length ≤ ((cur :: rest).drop i).length := by
      rw [List.length_drop]
      omega
    have hi' : i ≤ (cur :: rest).length := by omega
    rw [List.drop_append_of_le_length hi', List.drop_append_of_le_length hi',
      startsWith_append hlen, startsWith_append hlen]
  refine ⟨hblank, ?_⟩
  simp only [lexeme, hblank]
  have hi : (if blankLine cur rest tail' = true then 2 else 0) ≤ 2 := by
    split <;> omega
  rw [hahead _ _ hi length_fold.1, hahead _ _ hi length_fold.2]

/-- In front of a body there are five bytes. -/
theorem scan_long {tail : Bytes} {isKey : Bool} {d : Bytes}
    (h : (scan tail isKey d).blank = true) (hrest : (scan tail isKey d).rest ≠ []) :
    5 ≤ d.length := by
  fun_induction scan tail isKey d with
  | case1 isKey => exact absurd rfl hrest
  | case2 isKey cur rest t hblank =>
    -- the blank line and a byte behind it
    have hskip : 3 ≤ t.2 := by
      simp only [t, lexeme, hblank, if_true]
      have hcur : cur = 13 := by
        by_contra hne
        rw [blankLine_of_ne hne] at hblank
        cases hblank
      simp only [hcur, show ¬((13 : UInt8) = 58 ∧ isKey = true) by simp, if_false, if_true]
      split <;> simp
    have hlen := List.length_pos_of_ne_nil hrest
    rw [List.length_drop] at hlen
    rw [List.length_cons]
    omega
  | case3 isKey cur rest t hblank sc ih =>
    have := ih h hrest
    rw [List.length_drop] at this
    rw [List.length_cons]
    omega

/-- **A content with a body is read without looking behind it.** -/
theorem scan_tail {tail : Bytes} (tail' : Bytes) {isKey : Bool} {d : Bytes}
    (h : (scan tail isKey d).blank = true) (hrest : (scan tail isKey d).rest ≠ []) :
    scan tail' isKey d = scan tail isKey d := by
  have hlong := scan_long h hrest
  fun_induction scan tail isKey d with
  | case1 isKey => exact absurd rfl hrest
  | case2 isKey cur rest t hblank =>
    obtain ⟨hb, hl⟩ := lexeme_tail hlong isKey tail tail'
    rw [scan, ← hb, ← hl, if_pos hblank]
  | case3 isKey cur rest t hblank sc ih =>
    obtain ⟨hb, hl⟩ := lexeme_tail hlong isKey tail tail'
    rw [scan, ← hb, ← hl, if_neg hblank]
    simp only [t] at ih ⊢
    rw [ih h hrest (scan_long h hrest)]

/-! ## The mail that is queued -/

/-- The body that fits into a mail, as a string. -/
def keptBody (rest : Bytes) : Bytes := if rest.length < bodyMaxLen then str rest else []

/-- What a mail takes over from its request. -/
theorem createMail_strings {mem m : Mail} {req : Request} (hm : createMail mem req = .ok m) :
    m.headerCount = req.headerCount ∧ req.headerCount ≤ headerMaxLen ∧
      mailHeaders m = (req.headers.toList.take req.headerCount).map
        fun h => ⟨h.keyStr, h.valueStr⟩ := by
  rw [createMail] at hm
  cases hbody : copyBody mem req with
  | error e => simp [hbody, bind, Except.bind] at hm
  | ok m1 =>
    simp only [hbody, bind, Except.bind] at hm
    have hlt := copyHeaders_lt hm
    obtain ⟨m', hm', hcount, -, hget⟩ := copyHeaders_ok req.headers
      { m1 with headerCount := req.headerCount } (List.range req.headerCount) hlt
    obtain rfl : m' = m := Except.ok.inj (hm'.symm.trans hm)
    have hle : req.headerCount ≤ headerMaxLen := by
      by_contra hgt
      have := hlt headerMaxLen (List.mem_range.mpr (by omega))
      omega
    refine ⟨hcount, hle, ?_⟩
    have hsame : m'.headers.toList.take m'.headerCount =
        req.headers.toList.take req.headerCount := by
      rw [hcount]
      refine List.ext_getElem (by simp) fun i hi hi' => ?_
      have hi'' : i < req.headerCount := lt_of_lt_of_le (by simpa using hi) (Nat.min_le_left _ _)
      rw [List.getElem_take, List.getElem_take, Vector.getElem_toList, Vector.getElem_toList,
        hget i (lt_of_lt_of_le hi'' hle), if_pos (List.mem_range.mpr hi'')]
    rw [mailHeaders, hsame]

/-- The body of a mail whose request has one. -/
theorem createMail_body {mem m : Mail} {req : Request} {rest : Bytes}
    (hbody : req.body = some (rest ++ [0])) (hlen : req.bodyLen = rest.length)
    (hm : createMail mem req = .ok m) : m.bodyStr = keptBody rest := by
  rw [keptBody]
  by_cases hfits : rest.length < bodyMaxLen
  · obtain ⟨m', hm', -, -, hstr⟩ :=
      createMail_message mem (createMail_strings hm).2.1 hbody hlen hfits
    obtain rfl : m' = m := Except.ok.inj (hm'.symm.trans hm)
    rw [if_pos hfits, hstr]
  · -- too long for a mail, and left out
    have hcopy : copyBody mem req = .ok { mem with body := mem.body.setIfInBounds 0 0 } := by
      rw [copyBody, if_neg (by rw [hlen]; exact hfits)]
    rw [createMail, hcopy] at hm
    have hlt := copyHeaders_lt hm
    obtain ⟨m', hm', -, hbody', -⟩ := copyHeaders_ok req.headers
      { mem with body := mem.body.setIfInBounds 0 0, headerCount := req.headerCount }
      (List.range req.headerCount) hlt
    obtain rfl : m' = m := Except.ok.inj (hm'.symm.trans hm)
    rw [if_neg hfits, Mail.bodyStr, hbody', toList_setIfInBounds]
    obtain ⟨c, back, hmem⟩ := List.exists_cons_of_length_pos (l := mem.body.toList)
      (by rw [Vector.length_toList]; decide)
    rw [hmem]
    rfl

/-- A stored content whose mail is made has a body. -/
theorem hasBody_of_createMail {conf : Config} {req : Request} (h : Stored conf req)
    {headers : Vector Hdr headerMaxLen} {tail : Bytes} {mem m : Mail}
    (hm : createMail mem (parsedOver req headers tail) = .ok m) : HasBody req.data tail := by
  by_contra hno
  obtain ⟨hbody, hlen⟩ := requestParseData_no_body { req with headers := headers } tail hno
  obtain ⟨-, start, reads, hreq⟩ := h
  have hdialogue : InDialogue req := by
    rw [hreq]
    exact receive_inDialogue (Ready.init start).inDialogue reads
  have hnull : createMail mem (parsedOver req headers tail) = .error .nullBody := by
    refine (createMail_nullBody_iff mem _).mpr ⟨?_, ?_⟩
    · rw [parsedOver, hlen]
      show req.bodyLen < bodyMaxLen
      rw [hdialogue.bodyLen]
      decide
    · rw [parsedOver, hbody]
      exact hdialogue.body
  rw [hnull] at hm
  cases hm

theorem parsedOver_headers (req : Request) (headers : Vector Hdr headerMaxLen) (tail : Bytes) :
    (parsedOver req headers tail).headers =
      ((scanData req.data tail).tokens.foldl HeaderState.apply (.init headers)).headers :=
  requestParseData_headers { req with headers := headers } tail

theorem parsedOver_headerCount (req : Request) (headers : Vector Hdr headerMaxLen) (tail : Bytes) :
    (parsedOver req headers tail).headerCount =
      ((scanData req.data tail).tokens.foldl HeaderState.apply (.init headers)).headerCount :=
  requestParseData_headerCount { req with headers := headers } tail

/-- The header lines, whatever the arrays held. -/
theorem parsedOver_holding {req : Request} {tail : Bytes}
    (hfit : HeadersFit 0 (scanData req.data tail).tokens)
    (hcolon : Colons true (scanData req.data tail).tokens) (headers : Vector Hdr headerMaxLen) :
    Holding ((scanData req.data tail).tokens.foldl HeaderState.apply (.init headers))
      ((scanData req.data tail).tokens.foldl LineReading.read ⟨[], ⟨[], []⟩⟩) :=
  (Holding.init headers).foldl (scan_moded tail true req.data) (scan_noNul tail true req.data)
    hfit hcolon

/-- **The strings of a mail are those of its content**: its header lines, and
what is kept of its body. -/
theorem mailText_eq {conf : Config} {req : Request} (h : Stored conf req) {tail : Bytes}
    (hfit : HeadersFit 0 (scanData req.data tail).tokens)
    (hcolon : Colons true (scanData req.data tail).tokens) {headers : Vector Hdr headerMaxLen}
    {mem m : Mail} (hm : createMail mem (parsedOver req headers tail) = .ok m) :
    mailText m =
      ⟨(readLines (scanData req.data tail).tokens).length,
        (readLines (scanData req.data tail).tokens).map fun t => ⟨t.key, t.value⟩,
        keptBody (scanData req.data tail).rest⟩ := by
  have hhas := hasBody_of_createMail h hm
  obtain ⟨hcount, hle, hheaders⟩ := createMail_strings hm
  have hhold := parsedOver_holding hfit hcolon headers
  obtain ⟨hb, hlen⟩ := requestParseData_body { req with headers := headers } tail hhas
  have hlines : (parsedOver req headers tail).headerCount =
      (readLines (scanData req.data tail).tokens).length := by
    rw [parsedOver_headerCount, hhold.count, readLines]
  rw [mailText, hcount, hlines, hheaders, createMail_body hb hlen hm]
  congr 1
  refine List.ext_getElem (by simp [hlines]; omega) fun i hi hi' => ?_
  have hi'' : i < (readLines (scanData req.data tail).tokens).length := by simpa using hi'
  have hline := hhold.lines i (by omega) hi''
  rw [List.getElem_map, List.getElem_map, List.getElem_take, Vector.getElem_toList]
  simp only [parsedOver_headers]
  rw [hline.keyStr_eq, hline.valueStr_eq]
  rfl

/-- Arrays without a terminator. -/
def filledHeaders : Vector Hdr headerMaxLen :=
  Vector.replicate _ ⟨Vector.replicate _ 1, Vector.replicate _ 1⟩

theorem keysOpen_filled : KeysOpen (.init filledHeaders) := by
  intro i hi _ _ hmem
  have helem : (HeaderState.init filledHeaders).headers[i] =
      ⟨Vector.replicate _ 1, Vector.replicate _ 1⟩ := by
    simp [HeaderState.init, filledHeaders]
  rw [helem] at hmem
  simp [HdrField.bytesOf] at hmem

/-- Where the old memory stays out, every header line has a colon. -/
theorem clean_of_noLeftovers {req : Request} {tail : Bytes} (hno : NoLeftovers req tail) :
    HeadersFit 0 (scanData req.data tail).tokens ∧ Colons true (scanData req.data tail).tokens := by
  have hfit : HeadersFit 0 (scanData req.data tail).tokens :=
    (headerIndexBounds_iff_fit { req with headers := req.headers } tail).mp (hno.bounds req.headers)
  refine ⟨hfit, ?_⟩
  -- else a key stays open over arrays without a terminator
  by_contra hcolon
  obtain ⟨i, hi, hlt, hopen⟩ := foldl_open keysOpen_filled (scan_moded tail true req.data)
    (scan_noNul tail true req.data) hfit hcolon
  rw [← parsedOver_headerCount] at hlt
  have hterm := (hno.terminated filledHeaders i hi hlt).1
  simp only [parsedOver_headers] at hterm
  exact hopen hterm

section Clean

variable {req : Request} {tail : Bytes} (hfit : HeadersFit 0 (scanData req.data tail).tokens)
  (hcolon : Colons true (scanData req.data tail).tokens)
include hfit hcolon

theorem headerCount_of_clean (headers headers' : Vector Hdr headerMaxLen) :
    (parsedOver req headers tail).headerCount = (parsedOver req headers' tail).headerCount := by
  rw [parsedOver_headerCount, parsedOver_headerCount, (parsedOver_holding hfit hcolon headers).count,
    (parsedOver_holding hfit hcolon headers').count]

/-- Each header holds its line, whatever the arrays held before. -/
theorem holdsLine_of_clean (headers : Vector Hdr headerMaxLen) (i : Nat) (hi : i < headerMaxLen)
    (hlt : i < (parsedOver req headers tail).headerCount) :
    ∃ t, (readLines (scanData req.data tail).tokens)[i]? = some t ∧
      HoldsLine (parsedOver req headers tail).headers[i] t := by
  have hhold := parsedOver_holding hfit hcolon headers
  have hd : i < (readLines (scanData req.data tail).tokens).length := by
    rw [parsedOver_headerCount, hhold.count] at hlt
    exact hlt
  refine ⟨_, List.getElem?_eq_getElem hd, ?_⟩
  simp only [parsedOver_headers]
  exact hhold.lines i hi hd

/-- The mails of two runs have the same strings. -/
theorem mailText_congr {conf : Config} (h : Stored conf req)
    {headers headers' : Vector Hdr headerMaxLen} {tail' : Bytes} {mem mem' m m' : Mail}
    (hm : createMail mem (parsedOver req headers tail) = .ok m)
    (hm' : createMail mem' (parsedOver req headers' tail') = .ok m') : mailText m = mailText m' := by
  -- with a body, the second run reads the same tokens
  obtain ⟨hblank, hrest⟩ := hasBody_of_createMail h hm
  have hscan : scanData req.data tail' = scanData req.data tail := scan_tail tail' hblank hrest
  rw [mailText_eq h hfit hcolon hm,
    mailText_eq h (by rw [hscan]; exact hfit) (by rw [hscan]; exact hcolon) hm', hscan]

theorem noLeftovers_of_clean {conf : Config} (h : Stored conf req) : NoLeftovers req tail := by
  refine ⟨fun headers => ?_, ?_, headerCount_of_clean hfit hcolon, ?_, ?_, ?_⟩
  · exact (headerIndexBounds_iff_fit { req with headers := headers } tail).mpr hfit
  · intro headers i hi hlt
    obtain ⟨t, -, hline⟩ := holdsLine_of_clean hfit hcolon headers i hi hlt
    obtain ⟨back, hback⟩ := hline.key.bytes
    obtain ⟨back', hback'⟩ := hline.value.bytes
    constructor
    · show (0 : UInt8) ∈ HdrField.key.bytesOf _
      rw [hback]
      simp
    · show (0 : UInt8) ∈ HdrField.value.bytesOf _
      rw [hback']
      simp
  · intro headers headers' i hi hlt
    obtain ⟨t, ht, hline⟩ := holdsLine_of_clean hfit hcolon headers i hi hlt
    rw [headerCount_of_clean hfit hcolon headers headers'] at hlt
    obtain ⟨t', ht', hline'⟩ := holdsLine_of_clean hfit hcolon headers' i hi hlt
    obtain rfl : t = t' := Option.some.inj (ht.symm.trans ht')
    rw [hline.keyStr_eq, hline.valueStr_eq, hline'.keyStr_eq, hline'.valueStr_eq]
    exact ⟨rfl, rfl⟩
  · intro headers headers' tail' mem mem' m m' hm hm'
    exact mailText_congr hfit hcolon h hm hm'
  · intro headers headers' tail' mem mem' m m' hm hm' Key ssl dns blocks
    exact validateDkim_congr ssl dns blocks (mailText_congr hfit hcolon h hm hm')

end Clean

/-- **The old memory stays out of the headers exactly when there are few header
lines and every one that is ended has a colon.** -/
theorem noLeftovers_iff {conf : Config} {req : Request} (h : Stored conf req) (tail : Bytes) :
    NoLeftovers req tail ↔ FewLines req.data tail ∧ LinesHaveColons req.data tail := by
  rw [fewLines_iff, linesHaveColons_iff]
  constructor
  · exact clean_of_noLeftovers
  · rintro ⟨hfit, hcolon⟩
    exact noLeftovers_of_clean hfit hcolon h

theorem noLeftovers_shortMail :
    NoLeftovers (receive .default (requestInit .zero) [(shortMail, [])]) [0, 0] := by
  have hstored : Stored .default (receive .default (requestInit .zero) [(shortMail, [])]) :=
    ⟨by decide +kernel, _, _, rfl⟩
  have htokens : (scanData (receive .default (requestInit .zero) [(shortMail, [])]).data
      [0, 0]).tokens = [.keyChar 65, .colon, .valueChar 98, .lineEnd] := by decide +kernel
  rw [noLeftovers_iff hstored, fewLines_iff, linesHaveColons_iff, htokens]
  exact ⟨by simp [HeadersFit, Token.stores, Token.countLine, headerMaxLen], by decide⟩

/-- A mail whose first header line has no colon. -/
def noColonMail : Bytes := bytes "DATA\r\nA\r\nB: c\r\n\r\nd\r\n.\r\n"

theorem noColonMail_leftovers :
    ¬∀ (conf : Config) (req : Request) (tail : Bytes), Stored conf req → NoLeftovers req tail := by
  intro h
  have hstored : Stored .default (receive .default (requestInit .zero) [(noColonMail, [])]) :=
    ⟨by decide +kernel, _, _, rfl⟩
  have hstrings := (h _ _ [0, 0] hstored).strings filledHeaders Request.zero.headers 0
    (by decide) (by decide +kernel)
  exact absurd hstrings.1 (by decide +kernel)

end ComfirmDmarc.MailHandler
