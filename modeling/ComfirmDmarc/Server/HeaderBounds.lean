import ComfirmDmarc.Server.Connection

/-!
# Server -- where the header parser stores

The counters of `request_parse_data` stay within their arrays exactly as long
as the header section has no more than `HEADER_MAX_LEN` lines. Only the branch
that ends a line tests the limit; the branches that store a key or a value do
not.
-/

namespace ComfirmDmarc.Server

open CMemory Queue

/-! ## Counting lines -/

/-- The tokens that store through `headers[header_count]` unchecked. -/
def Token.stores : Token → Bool
  | .colon | .keyChar _ | .valueChar _ => true
  | .fold | .lineEnd | .skip => false

/-- The number of ended lines after a token. -/
def Token.countLine (lines : Nat) (t : Token) : Nat :=
  if t = .lineEnd then lines + 1 else lines

/-- At most `HEADER_MAX_LEN` lines: after `lines` ended lines, the tokens
end at most as many as there is room for, and name no header after those. -/
def HeadersFit (lines : Nat) : List Token → Prop
  | [] => lines ≤ headerMaxLen
  | t :: ts => (t.stores = true → lines < headerMaxLen) ∧ HeadersFit (t.countLine lines) ts

instance decHeadersFit (lines : Nat) : (ts : List Token) → Decidable (HeadersFit lines ts)
  | [] => inferInstanceAs (Decidable (lines ≤ headerMaxLen))
  | t :: ts =>
    have := decHeadersFit (t.countLine lines) ts
    inferInstanceAs (Decidable ((t.stores = true → lines < headerMaxLen) ∧
      HeadersFit (t.countLine lines) ts))

/-- The tokens a mode of the parser can produce. -/
def Token.AllowedIn (isKey : Bool) : Token → Prop
  | .colon | .keyChar _ => isKey = true
  | .valueChar _ => isKey = false
  | _ => True

def Moded (isKey : Bool) : List Token → Prop
  | [] => True
  | t :: ts => t.AllowedIn isKey ∧ Moded (t.nextIsKey isKey) ts

theorem lexeme_allowedIn (isKey : Bool) (cur : UInt8) (rest tail : Bytes) :
    (lexeme isKey cur rest tail).1.AllowedIn isKey := by
  unfold lexeme
  by_cases hcolon : cur = 58 ∧ isKey = true
  · rw [if_pos hcolon]
    exact hcolon.2
  simp only [if_neg hcolon]
  cases isKey with
  | true => split_ifs <;> simp_all [Token.AllowedIn]
  | false => split_ifs <;> simp_all [Token.AllowedIn]

theorem scan_moded (tail : Bytes) (isKey : Bool) (data : Bytes) :
    Moded isKey (scan tail isKey data).tokens := by
  fun_induction scan tail isKey data with
  | case1 isKey => trivial
  | case2 isKey cur rest t hblank => exact ⟨lexeme_allowedIn _ _ _ _, trivial⟩
  | case3 isKey cur rest t hblank sc ih => exact ⟨lexeme_allowedIn _ _ _ _, ih⟩

/-! ## What a token stores -/

theorem HeaderState.apply_headerCount (s : HeaderState) (t : Token) :
    (s.apply t).headerCount = t.countLine s.headerCount := by
  cases t with
  | lineEnd => simp only [HeaderState.apply, Token.countLine, if_true]; split <;> rfl
  | colon => rfl
  | fold => rfl
  | skip => rfl
  | keyChar c => simp only [HeaderState.apply]; split <;> rfl
  | valueChar c => simp only [HeaderState.apply]; split <;> rfl

theorem foldl_headerCount (ts : List Token) (s : HeaderState) :
    (ts.foldl HeaderState.apply s).headerCount = s.headerCount + ts.count .lineEnd := by
  induction ts generalizing s with
  | nil => rfl
  | cons t ts ih =>
    rw [List.foldl_cons, ih, HeaderState.apply_headerCount, List.count_cons]
    simp only [Token.countLine, beq_iff_eq]
    split <;> omega

/-- A token makes no access, or one at the current counters. -/
theorem HeaderState.apply_accesses (s : HeaderState) (t : Token) :
    (s.apply t).accesses = s.accesses ∨
      ∃ f, (s.apply t).accesses = ⟨s.headerCount, f, s.curLen⟩ :: s.accesses := by
  cases t with
  | colon => exact .inr ⟨.key, rfl⟩
  | fold => exact .inl rfl
  | lineEnd =>
    simp only [HeaderState.apply]
    split
    · exact .inr ⟨.value, rfl⟩
    · exact .inl rfl
  | keyChar c =>
    simp only [HeaderState.apply]
    split
    · exact .inr ⟨.key, rfl⟩
    · exact .inl rfl
  | valueChar c =>
    simp only [HeaderState.apply]
    split
    · exact .inr ⟨.value, rfl⟩
    · exact .inl rfl
  | skip => exact .inl rfl

theorem mem_accesses_foldl {a : HdrAccess} (ts : List Token) {s : HeaderState}
    (h : a ∈ s.accesses) : a ∈ (ts.foldl HeaderState.apply s).accesses := by
  induction ts generalizing s with
  | nil => exact h
  | cons t ts ih =>
    apply ih
    obtain heq | ⟨f, heq⟩ := s.apply_accesses t
    · rw [heq]
      exact h
    · rw [heq]
      exact List.mem_cons_of_mem _ h

/-! ## The counters -/

/-- **The counters of the loop are in range**, and once all headers are full
the parser is at the start of a line. -/
structure HeaderInv (s : HeaderState) : Prop where
  curLen : s.curLen < if s.isKey then keyMaxLen else valueMaxLen
  full : headerMaxLen ≤ s.headerCount → s.isKey = true ∧ s.curLen = 0
  inRange : ∀ a ∈ s.accesses, a.InRange

theorem HeaderInv.init (headers : Vector Hdr headerMaxLen) : HeaderInv (.init headers) where
  curLen := show 0 < keyMaxLen by decide
  full := fun _ => ⟨rfl, rfl⟩
  inRange := fun _ h => nomatch h

/-- A store while there is a header to store to. -/
theorem HeaderInv.store {s : HeaderState} (h : HeaderInv s) (f : HdrField) (c : UInt8)
    (hlt : s.headerCount < headerMaxLen) (hlen : s.curLen < f.maxLen) :
    ∀ a ∈ (s.store f c).accesses, a.InRange := by
  intro a ha
  rw [HeaderState.store_accesses, List.mem_cons] at ha
  obtain rfl | ha := ha
  · exact ⟨hlt, hlen⟩
  · exact h.inRange a ha

theorem HeaderInv.apply {s : HeaderState} (h : HeaderInv s) {t : Token}
    (ht : t.AllowedIn s.isKey) (hfit : t.stores = true → s.headerCount < headerMaxLen) :
    HeaderInv (s.apply t) := by
  have hcur := h.curLen
  cases t with
  | fold => exact h
  | skip => exact h
  | colon =>
    have hlt := hfit rfl
    have hkey : s.isKey = true := ht
    rw [hkey] at hcur
    exact ⟨show 0 < valueMaxLen by decide, fun hfull => absurd hfull (Nat.not_le.mpr hlt),
      h.store .key 0 hlt hcur⟩
  | lineEnd =>
    simp only [HeaderState.apply]
    refine ⟨show 0 < keyMaxLen by decide, fun _ => ⟨rfl, rfl⟩, ?_⟩
    split
    · rename_i hlt
      refine h.store .value 0 hlt ?_
      -- a line may end before its colon: the key limit is the smaller one
      show s.curLen < valueMaxLen
      have hle : keyMaxLen ≤ valueMaxLen := by decide
      split at hcur <;> omega
    · exact h.inRange
  | keyChar c =>
    have hlt := hfit rfl
    have hkey : s.isKey = true := ht
    simp only [HeaderState.apply]
    split
    · rename_i hlen
      refine ⟨?_, fun hfull => absurd hfull (Nat.not_le.mpr hlt), h.store .key c hlt ?_⟩
      · simp only [HeaderState.store_isKey, hkey, if_true]
        omega
      · show s.curLen < keyMaxLen
        omega
    · exact h
  | valueChar c =>
    have hlt := hfit rfl
    have hkey : s.isKey = false := ht
    simp only [HeaderState.apply]
    split
    · rename_i hlen
      refine ⟨?_, fun hfull => absurd hfull (Nat.not_le.mpr hlt), h.store .value c hlt ?_⟩
      · simp only [HeaderState.store_isKey, hkey, Bool.false_eq_true, if_false]
        omega
      · show s.curLen < valueMaxLen
        omega
    · exact h

/-- A store when all headers are full leaves the arrays. -/
theorem HeaderInv.apply_full {s : HeaderState} (h : HeaderInv s) {t : Token}
    (ht : t.AllowedIn s.isKey) (hstores : t.stores = true)
    (hfull : headerMaxLen ≤ s.headerCount) :
    ∃ a ∈ (s.apply t).accesses, ¬a.InRange := by
  obtain ⟨hkey, hlen⟩ := h.full hfull
  have hout : ∀ f, ¬(HdrAccess.mk s.headerCount f s.curLen).InRange :=
    fun f hin => absurd hin.1 (Nat.not_lt.mpr hfull)
  cases t with
  | colon => exact ⟨_, List.mem_cons_self, hout .key⟩
  | keyChar c =>
    simp only [HeaderState.apply, hlen, show 0 < keyMaxLen - 1 by decide, if_true]
    exact ⟨_, List.mem_cons_self, by simpa [hlen] using hout .key⟩
  | valueChar c =>
    have hvalue : s.isKey = false := ht
    simp [hkey] at hvalue
  | fold => simp [Token.stores] at hstores
  | lineEnd => simp [Token.stores] at hstores
  | skip => simp [Token.stores] at hstores

/-- **All accesses are in range exactly when the lines fit.** -/
theorem foldl_inRange_iff (ts : List Token) (s : HeaderState) (h : HeaderInv s)
    (hts : Moded s.isKey ts) :
    ((∀ a ∈ (ts.foldl HeaderState.apply s).accesses, a.InRange) ∧
        (ts.foldl HeaderState.apply s).headerCount ≤ headerMaxLen) ↔
      HeadersFit s.headerCount ts := by
  induction ts generalizing s with
  | nil => exact ⟨fun hin => hin.2, fun hle => ⟨h.inRange, hle⟩⟩
  | cons t ts ih =>
    obtain ⟨ht, hts⟩ := hts
    rw [List.foldl_cons, HeadersFit, ← HeaderState.apply_headerCount]
    by_cases hfit : t.stores = true → s.headerCount < headerMaxLen
    · have hts' : Moded (s.apply t).isKey ts := by
        rw [HeaderState.apply_isKey]
        exact hts
      rw [ih (s.apply t) (h.apply ht hfit) hts']
      exact ⟨fun hin => ⟨hfit, hin⟩, fun hin => hin.2⟩
    · -- the access this token makes stays in the record
      have hstores : t.stores = true := by
        by_contra hno
        exact hfit fun hyes => absurd hyes hno
      have hfull : headerMaxLen ≤ s.headerCount := by
        by_contra hlt
        exact hfit fun _ => Nat.not_le.mp hlt
      obtain ⟨a, ha, hout⟩ := h.apply_full ht hstores hfull
      constructor
      · intro hin
        exact absurd (hin.1 a (mem_accesses_foldl ts ha)) hout
      · intro hin
        exact absurd hin.1 hfit

/-! ## The copy loop -/

theorem copyHeaders_ok (headers : Vector Hdr headerMaxLen) (m : Mail) (is : List Nat)
    (h : ∀ i ∈ is, i < headerMaxLen) :
    ∃ m', copyHeaders headers m is = .ok m' ∧ m'.headerCount = m.headerCount ∧
      m'.body = m.body ∧
      ∀ i (hi : i < headerMaxLen), m'.headers[i] = if i ∈ is then headers[i] else m.headers[i] := by
  induction is generalizing m with
  | nil => exact ⟨m, rfl, rfl, rfl, fun i hi => by simp⟩
  | cons j js ih =>
    have hj : j < headerMaxLen := h j List.mem_cons_self
    obtain ⟨m', hm', hcount, hbody, hget⟩ :=
      ih { m with headers := m.headers.set j headers[j] } fun i hi => h i (List.mem_cons_of_mem _ hi)
    refine ⟨m', ?_, hcount, hbody, ?_⟩
    · rw [copyHeaders, dif_pos hj]
      exact hm'
    · intro i hi
      rw [hget i hi, Vector.getElem_set]
      by_cases hij : j = i
      · subst hij
        simp
      · simp [hij, Ne.symm hij]

/-- Every store of `request_parse_data` is in range, it reports at most
`HEADER_MAX_LEN` headers, and the copy loop over them stays in the mail. -/
def HeaderIndexBounds (req : Request) (tail : Bytes) : Prop :=
  (∀ a ∈ (requestParseData req tail).2, a.InRange) ∧
    (requestParseData req tail).1.headerCount ≤ headerMaxLen ∧
    ∀ (m : Mail) (i : Nat),
      copyHeaders (requestParseData req tail).1.headers m
        (List.range (requestParseData req tail).1.headerCount) ≠ .error (.mailHeader i)

/-- Every store is in range, and few headers are reported, exactly when the
tokens fit. -/
theorem accesses_inRange_iff (req : Request) (tail : Bytes) :
    ((∀ a ∈ (requestParseData req tail).2, a.InRange) ∧
      (requestParseData req tail).1.headerCount ≤ headerMaxLen) ↔
      HeadersFit 0 (scanData req.data tail).tokens := by
  rw [requestParseData_accesses, requestParseData_headerCount]
  exact foldl_inRange_iff (scanData req.data tail).tokens (.init req.headers)
    (.init req.headers) (scan_moded tail true req.data)

/-- The copy loop adds nothing to the two conditions. -/
theorem headerIndexBounds_iff_fit (req : Request) (tail : Bytes) :
    HeaderIndexBounds req tail ↔ HeadersFit 0 (scanData req.data tail).tokens := by
  rw [← accesses_inRange_iff, HeaderIndexBounds]
  constructor
  · rintro ⟨hin, hcount, -⟩
    exact ⟨hin, hcount⟩
  · rintro ⟨hin, hcount⟩
    refine ⟨hin, hcount, ?_⟩
    intro m i herr
    obtain ⟨m', hok, -⟩ := copyHeaders_ok (requestParseData req tail).1.headers m
      (List.range (requestParseData req tail).1.headerCount)
      fun j hj => lt_of_lt_of_le (List.mem_range.mp hj) hcount
    rw [hok] at herr
    exact nomatch herr

end ComfirmDmarc.Server
