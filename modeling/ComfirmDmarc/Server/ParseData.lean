import ComfirmDmarc.Server.Records

/-!
# Server -- `request_parse_data`

The loop of `request.c` that cuts the stored DATA content into header fields
and finds the body, one iteration at a time. Memory is `data ++ tail`: the
`data_len` stored bytes and whatever the allocation holds behind them, which
the comparisons of the loop can look at.

Every access through `headers[header_count]` is recorded. One that is out of
range is undefined behaviour in C; here it stores nothing, and the record is
what tells it apart.
-/

namespace ComfirmDmarc.Server

open CMemory

/-! ## Header accesses -/

inductive HdrField
  | key
  | value
  deriving DecidableEq, Repr

/-- The length of the array behind a field. -/
def HdrField.maxLen : HdrField → Nat
  | .key => keyMaxLen
  | .value => valueMaxLen

/-- A write to `headers[header]->field[index]`. -/
structure HdrAccess where
  header : Nat
  field : HdrField
  index : Nat
  deriving DecidableEq, Repr

def HdrAccess.InRange (a : HdrAccess) : Prop :=
  a.header < headerMaxLen ∧ a.index < a.field.maxLen

instance (a : HdrAccess) : Decidable a.InRange := inferInstanceAs (Decidable (_ ∧ _))

def storeByte (h : Hdr) (index : Nat) (c : UInt8) : HdrField → Hdr
  | .key => { h with key := h.key.setIfInBounds index c }
  | .value => { h with value := h.value.setIfInBounds index c }

/-! ## The loop -/

/-- The local variables of `request_parse_data`, and the accesses made so far,
latest first. -/
structure HeaderState where
  headers : Vector Hdr headerMaxLen
  headerCount : Nat
  done : Bool
  isKey : Bool
  curLen : Nat
  accesses : List HdrAccess

/-- `headers[header_count]->field[cur_len] = c`. -/
def HeaderState.store (s : HeaderState) (field : HdrField) (c : UInt8) : HeaderState :=
  { s with
    headers :=
      if h : s.headerCount < headerMaxLen then
        s.headers.set s.headerCount (storeByte s.headers[s.headerCount] s.curLen c field)
      else s.headers
    accesses := ⟨s.headerCount, field, s.curLen⟩ :: s.accesses }

/-- The test for the blank line at `cur :: rest`; its fourth byte may be the
first one behind the data. -/
def blankLine (cur : UInt8) (rest tail : Bytes) : Bool :=
  decide (2 < (cur :: rest).length) && startsWith (cur :: rest ++ tail) (bytes "\r\n\r\n")

/-- One iteration at `cur :: rest`, and how many bytes it skips besides the
`++i` of the loop. `cur` is read before the blank line moves the index, the
comparisons for folding are made after it. -/
def headerStep (s : HeaderState) (cur : UInt8) (rest tail : Bytes) : HeaderState × Nat :=
  let blank := blankLine cur rest tail
  let s := if blank then { s with done := true } else s
  let i := if blank then 2 else 0
  let ahead := (cur :: rest ++ tail).drop i
  if cur = 58 ∧ s.isKey then  -- ':'
    ({ s.store .key 0 with isKey := false, curLen := 0 }, i + 1)
  else if startsWith ahead (bytes "\r\n\t") ∨ startsWith ahead (bytes "\r\n ") then
    (s, i + 2)
  else if cur = 13 then  -- '\r'
    let s := if s.headerCount < headerMaxLen then s.store .value 0 else s
    ({ s with curLen := 0, isKey := true, headerCount := s.headerCount + 1 }, i + 1)
  else if cur ≠ 0 then
    if s.isKey then
      if cur ≠ 32 ∧ s.curLen < keyMaxLen - 1 then  -- ' '
        ({ s.store .key cur with curLen := s.curLen + 1 }, i)
      else (s, i)
    else if s.curLen < valueMaxLen - 1 then
      ({ s.store .value cur with curLen := s.curLen + 1 }, i)
    else (s, i)
  else (s, i)

/-- The loop: its final state and the bytes from the final index on. -/
def headerLoop (tail : Bytes) (s : HeaderState) : Bytes → HeaderState × Bytes
  | [] => (s, [])
  | cur :: rest =>
    if s.done then (s, cur :: rest)
    else
      let next := headerStep s cur rest tail
      headerLoop tail next.1 (rest.drop next.2)
termination_by data => data.length
decreasing_by
  simp only [List.length_drop, List.length_cons]
  omega

def HeaderState.init (headers : Vector Hdr headerMaxLen) : HeaderState :=
  ⟨headers, 0, false, true, 0, []⟩

/-- `request_parse_data`: the request, and the header accesses it made. -/
def requestParseData (req : Request) (tail : Bytes) : Request × List HdrAccess :=
  let (s, rest) := headerLoop tail (.init req.headers) req.data
  let req := { req with headers := s.headers, headerCount := s.headerCount }
  if rest ≠ [] ∧ s.done then
    ({ req with bodyLen := rest.length, body := some (rest ++ [0]) }, s.accesses)
  else (req, s.accesses)

/-! ## The loop reads tokens

What an iteration does to the counters depends on the bytes only through the
branch it takes. `lexeme` names the branch, `scan` all branches of a run; the
counters are a fold over them.
-/

/-- The branch an iteration takes. -/
inductive Token
  | colon
  | fold
  | lineEnd
  | keyChar (c : UInt8)
  | valueChar (c : UInt8)
  | skip
  deriving DecidableEq, Repr

/-- The branch taken at `cur :: rest`, and the bytes skipped. -/
def lexeme (isKey : Bool) (cur : UInt8) (rest tail : Bytes) : Token × Nat :=
  let i := if blankLine cur rest tail then 2 else 0
  let ahead := (cur :: rest ++ tail).drop i
  if cur = 58 ∧ isKey then (.colon, i + 1)
  else if startsWith ahead (bytes "\r\n\t") ∨ startsWith ahead (bytes "\r\n ") then (.fold, i + 2)
  else if cur = 13 then (.lineEnd, i + 1)
  else if cur = 0 then (.skip, i)
  else if isKey then if cur = 32 then (.skip, i) else (.keyChar cur, i)
  else (.valueChar cur, i)

/-- Whether a key is being read after a token. -/
def Token.nextIsKey (isKey : Bool) : Token → Bool
  | .colon => false
  | .lineEnd => true
  | _ => isKey

/-- The tokens of a header section, whether a blank line ended it, and the
bytes after it. -/
structure Scan where
  tokens : List Token
  blank : Bool
  rest : Bytes
  deriving DecidableEq, Repr

def scan (tail : Bytes) (isKey : Bool) : Bytes → Scan
  | [] => ⟨[], false, []⟩
  | cur :: rest =>
    let t := lexeme isKey cur rest tail
    if blankLine cur rest tail then ⟨[t.1], true, rest.drop t.2⟩
    else
      let sc := scan tail (t.1.nextIsKey isKey) (rest.drop t.2)
      { sc with tokens := t.1 :: sc.tokens }
termination_by data => data.length
decreasing_by
  simp only [List.length_drop, List.length_cons]
  omega

/-- What a token does to the loop's variables. -/
def HeaderState.apply (s : HeaderState) : Token → HeaderState
  | .colon => { s.store .key 0 with isKey := false, curLen := 0 }
  | .fold => s
  | .lineEnd =>
    let s := if s.headerCount < headerMaxLen then s.store .value 0 else s
    { s with curLen := 0, isKey := true, headerCount := s.headerCount + 1 }
  | .keyChar c =>
    if s.curLen < keyMaxLen - 1 then { s.store .key c with curLen := s.curLen + 1 } else s
  | .valueChar c =>
    if s.curLen < valueMaxLen - 1 then { s.store .value c with curLen := s.curLen + 1 } else s
  | .skip => s

@[simp] theorem HeaderState.store_isKey (s : HeaderState) (f : HdrField) (c : UInt8) :
    (s.store f c).isKey = s.isKey := rfl

@[simp] theorem HeaderState.store_done (s : HeaderState) (f : HdrField) (c : UInt8) :
    (s.store f c).done = s.done := rfl

@[simp] theorem HeaderState.store_headerCount (s : HeaderState) (f : HdrField) (c : UInt8) :
    (s.store f c).headerCount = s.headerCount := rfl

@[simp] theorem HeaderState.store_curLen (s : HeaderState) (f : HdrField) (c : UInt8) :
    (s.store f c).curLen = s.curLen := rfl

@[simp] theorem HeaderState.store_accesses (s : HeaderState) (f : HdrField) (c : UInt8) :
    (s.store f c).accesses = ⟨s.headerCount, f, s.curLen⟩ :: s.accesses := rfl

theorem HeaderState.apply_isKey (s : HeaderState) (t : Token) :
    (s.apply t).isKey = t.nextIsKey s.isKey := by
  cases t <;> simp only [HeaderState.apply, Token.nextIsKey] <;> split <;> rfl

theorem HeaderState.apply_done (s : HeaderState) (t : Token) : (s.apply t).done = s.done := by
  cases t <;> simp only [HeaderState.apply, HeaderState.store] <;> split <;> rfl

theorem HeaderState.apply_with_done (s : HeaderState) (b : Bool) (t : Token) :
    ({ s with done := b }).apply t = { s.apply t with done := b } := by
  cases t <;> simp only [HeaderState.apply, HeaderState.store] <;> split <;> rfl

/-- An iteration applies the token at its position. -/
theorem headerStep_eq_apply (s : HeaderState) (cur : UInt8) (rest tail : Bytes) :
    headerStep s cur rest tail =
      ((if blankLine cur rest tail then { s with done := true } else s).apply
          (lexeme s.isKey cur rest tail).1,
        (lexeme s.isKey cur rest tail).2) := by
  have hkey : (if blankLine cur rest tail then { s with done := true } else s).isKey
      = s.isKey := by
    split <;> rfl
  simp only [headerStep, lexeme]
  -- the branches of the source in their order
  generalize (if blankLine cur rest tail then { s with done := true } else s) = s' at hkey ⊢
  rw [hkey]
  by_cases hcolon : cur = 58 ∧ s.isKey
  · simp only [if_pos hcolon, HeaderState.apply]
  rw [if_neg hcolon, if_neg hcolon]
  by_cases hfold : startsWith ((cur :: rest ++ tail).drop
      (if blankLine cur rest tail then 2 else 0)) (bytes "\r\n\t")
      ∨ startsWith ((cur :: rest ++ tail).drop
      (if blankLine cur rest tail then 2 else 0)) (bytes "\r\n ")
  · simp only [if_pos hfold, HeaderState.apply]
  rw [if_neg hfold, if_neg hfold]
  by_cases hcr : cur = 13
  · simp only [if_pos hcr, HeaderState.apply]
  rw [if_neg hcr, if_neg hcr]
  by_cases hnul : cur = 0
  · simp [hnul, HeaderState.apply]
  rw [if_pos hnul, if_neg hnul]
  cases s.isKey with
  | true =>
    by_cases hsp : cur = 32
    · simp [hsp, HeaderState.apply]
    · simp only [hsp, ne_eq, not_false_eq_true, true_and, if_true, if_false, HeaderState.apply]
      by_cases hlen : s'.curLen < keyMaxLen - 1
      · simp only [if_pos hlen]
      · simp only [if_neg hlen]
  | false =>
    simp only [Bool.false_eq_true, if_false, HeaderState.apply]
    by_cases hlen : s'.curLen < valueMaxLen - 1
    · simp only [if_pos hlen]
    · simp only [if_neg hlen]

theorem headerLoop_of_done (tail : Bytes) (s : HeaderState) (data : Bytes) (hs : s.done = true) :
    headerLoop tail s data = (s, data) := by
  cases data with
  | nil => rw [headerLoop]
  | cons cur rest => rw [headerLoop, if_pos hs]

/-- **The loop is a fold over the tokens of the data.** -/
theorem headerLoop_eq (tail : Bytes) (s : HeaderState) (data : Bytes) (hs : s.done = false) :
    headerLoop tail s data =
      ({ (scan tail s.isKey data).tokens.foldl HeaderState.apply s with
          done := (scan tail s.isKey data).blank },
        (scan tail s.isKey data).rest) := by
  fun_induction headerLoop tail s data with
  | case1 s =>
    rw [scan]
    simp [← hs]
  | case2 s cur rest hdone => simp [hs] at hdone
  | case3 s cur rest hdone next ih =>
    have hnext : next = _ := headerStep_eq_apply s cur rest tail
    rw [scan]
    by_cases hb : blankLine cur rest tail = true
    · rw [if_pos hb, HeaderState.apply_with_done] at hnext
      rw [if_pos hb, hnext, headerLoop_of_done _ _ _ rfl]
      rfl
    · rw [if_neg hb] at hnext ⊢
      have hdone' : next.1.done = false := by
        rw [hnext]
        exact (HeaderState.apply_done s _).trans hs
      rw [ih hdone', hnext, HeaderState.apply_isKey]
      rfl

/-- The tokens of a stored content, read from the start of a header line. -/
abbrev scanData (data tail : Bytes) : Scan := scan tail true data

/-- The loop's variables once `request_parse_data` has read the tokens. -/
def finalState (req : Request) (tail : Bytes) : HeaderState :=
  (scanData req.data tail).tokens.foldl HeaderState.apply (.init req.headers)

/-- The header section ends with a blank line and something follows it. -/
def HasBody (data tail : Bytes) : Prop :=
  (scanData data tail).blank = true ∧ (scanData data tail).rest ≠ []

instance (data tail : Bytes) : Decidable (HasBody data tail) :=
  inferInstanceAs (Decidable (_ ∧ _))

theorem requestParseData_eq (req : Request) (tail : Bytes) :
    requestParseData req tail =
      (let req' := { req with
          headers := (finalState req tail).headers
          headerCount := (finalState req tail).headerCount }
       if HasBody req.data tail then
        { req' with
          bodyLen := (scanData req.data tail).rest.length
          body := some ((scanData req.data tail).rest ++ [0]) }
       else req',
       (finalState req tail).accesses) := by
  have hkey : (HeaderState.init req.headers).isKey = true := rfl
  simp only [requestParseData, headerLoop_eq tail (.init req.headers) req.data rfl, hkey]
  by_cases h : HasBody req.data tail
  · rw [if_pos ⟨h.2, h.1⟩, if_pos h]
    rfl
  · rw [if_neg (fun h' => h ⟨h'.2, h'.1⟩), if_neg h]
    rfl

theorem requestParseData_headerCount (req : Request) (tail : Bytes) :
    (requestParseData req tail).1.headerCount = (finalState req tail).headerCount := by
  rw [requestParseData_eq]
  show (if _ then _ else _ : Request).headerCount = _
  split <;> rfl

theorem requestParseData_headers (req : Request) (tail : Bytes) :
    (requestParseData req tail).1.headers = (finalState req tail).headers := by
  rw [requestParseData_eq]
  show (if _ then _ else _ : Request).headers = _
  split <;> rfl

theorem requestParseData_accesses (req : Request) (tail : Bytes) :
    (requestParseData req tail).2 = (finalState req tail).accesses := by
  rw [requestParseData_eq]

theorem requestParseData_body (req : Request) (tail : Bytes) (h : HasBody req.data tail) :
    (requestParseData req tail).1.body = some ((scanData req.data tail).rest ++ [0]) ∧
      (requestParseData req tail).1.bodyLen = (scanData req.data tail).rest.length := by
  rw [requestParseData_eq]
  simp [h]

theorem requestParseData_no_body (req : Request) (tail : Bytes) (h : ¬HasBody req.data tail) :
    (requestParseData req tail).1.body = req.body ∧
      (requestParseData req tail).1.bodyLen = req.bodyLen := by
  rw [requestParseData_eq]
  simp [h]

end ComfirmDmarc.Server
