import ComfirmDmarc.Dkim.Coverage
import ComfirmDmarc.Server.HeaderBounds

/-!
# Dkim -- the headers of a queued mail

What the verifier gets is what the SMTP server stored. `request_parse_data`
ends a line at every CR that does not fold it, so it never stores one: in the
memory it was given, the only CRs are those that were there before.
-/

namespace ComfirmDmarc.Dkim

open CMemory Server

/-! ## What is stored -/

/-- Header arrays without a CR. -/
def NoCr (headers : Vector Hdr headerMaxLen) : Prop :=
  ∀ i (hi : i < headerMaxLen), (13 : UInt8) ∉ headers[i].value.toList

theorem storeByte_noCr {h : Hdr} (hcr : (13 : UInt8) ∉ h.value.toList) (i : Nat) {c : UInt8}
    (hc : c ≠ 13) (f : HdrField) : (13 : UInt8) ∉ (storeByte h i c f).value.toList := by
  cases f with
  | key => exact hcr
  | value =>
    rw [storeByte, toList_setIfInBounds]
    intro hmem
    rcases List.mem_or_eq_of_mem_set hmem with hold | hnew
    · exact hcr hold
    · exact hc hnew.symm

theorem store_noCr {s : HeaderState} (h : NoCr s.headers) (f : HdrField) {c : UInt8}
    (hc : c ≠ 13) : NoCr (s.store f c).headers := by
  intro i hi
  rw [HeaderState.store]
  by_cases hlt : s.headerCount < headerMaxLen
  · simp only [hlt, dif_pos]
    rw [Vector.getElem_set]
    split
    · exact storeByte_noCr (h _ hlt) _ hc f
    · exact h i hi
  · simp only [hlt, dif_neg, not_false_eq_true]
    exact h i hi

theorem apply_noCr {s : HeaderState} (h : NoCr s.headers) {t : Token}
    (hk : t ≠ .keyChar 13) (hv : t ≠ .valueChar 13) : NoCr (s.apply t).headers := by
  cases t with
  | colon => exact store_noCr h .key (by decide)
  | fold => exact h
  | lineEnd =>
    simp only [HeaderState.apply]
    split
    · exact store_noCr h .value (by decide)
    · exact h
  | keyChar c =>
    have hc : c ≠ 13 := fun he => hk (by rw [he])
    simp only [HeaderState.apply]
    split
    · exact store_noCr h .key hc
    · exact h
  | valueChar c =>
    have hc : c ≠ 13 := fun he => hv (by rw [he])
    simp only [HeaderState.apply]
    split
    · exact store_noCr h .value hc
    · exact h
  | skip => exact h

theorem scan_no_cr (tail : Bytes) (isKey : Bool) (data : Bytes) :
    ∀ t ∈ (scan tail isKey data).tokens, t ≠ .keyChar 13 ∧ t ≠ .valueChar 13 := by
  have hlexeme : ∀ (isKey : Bool) (cur : UInt8) (rest : Bytes),
      (lexeme isKey cur rest tail).1 ≠ .keyChar 13 ∧
        (lexeme isKey cur rest tail).1 ≠ .valueChar 13 := by
    intro isKey cur rest
    rw [lexeme]
    split_ifs <;> simp_all
  fun_induction scan tail isKey data with
  | case1 => simp
  | case2 isKey cur rest t hblank =>
    intro u hu
    rw [List.mem_singleton.mp hu]
    exact hlexeme isKey cur rest
  | case3 isKey cur rest t hblank sc ih =>
    intro u hu
    rcases List.mem_cons.mp hu with rfl | hu
    · exact hlexeme isKey cur rest
    · exact ih u hu

theorem requestParseData_noCr (req : Request) (tail : Bytes) (h : NoCr req.headers) :
    NoCr (requestParseData req tail).1.headers := by
  rw [requestParseData_headers, finalState]
  have htokens := scan_no_cr tail true req.data
  suffices hfold : ∀ (ts : List Token) (s : HeaderState), NoCr s.headers →
      (∀ t ∈ ts, t ≠ .keyChar 13 ∧ t ≠ .valueChar 13) → NoCr (ts.foldl HeaderState.apply s).headers
    from hfold _ (.init req.headers) h htokens
  intro ts
  induction ts with
  | nil => exact fun s hs _ => hs
  | cons t ts ih =>
    intro s hs hts
    obtain ⟨hk, hv⟩ := hts t List.mem_cons_self
    exact ih _ (apply_noCr hs hk hv) fun u hu => hts u (List.mem_cons_of_mem _ hu)

/-! ## What the verifier gets -/

theorem copyHeaders_lt {headers : Vector Hdr headerMaxLen} {m m' : Mail} {is : List Nat}
    (h : copyHeaders headers m is = .ok m') : ∀ i ∈ is, i < headerMaxLen := by
  induction is generalizing m with
  | nil => simp
  | cons j js ih =>
    rw [copyHeaders] at h
    split at h
    · rename_i hj
      intro i hi
      rcases List.mem_cons.mp hi with rfl | hi
      · exact hj
      · exact ih h i hi
    · cases h

/-- The headers `validate_dkim` makes of a mail. -/
def mailHeaders (m : Mail) : List StringPair :=
  (m.headers.toList.take m.headerCount).map fun h => ⟨h.keyStr, h.valueStr⟩

/-- The mail with these texts, over arrays of zero bytes. -/
def mailOf (headers : List StringPair) (body : Bytes) : Mail where
  headers := memcpy Mail.zero.headers (headers.map fun h => Hdr.ofStrings h.key h.value)
  headerCount := headers.length
  body := memcpy Mail.zero.body (body ++ [0])

/-- The texts of a header fit its arrays. -/
structure StringPair.Fits (h : StringPair) : Prop where
  key_nul : (0 : UInt8) ∉ h.key
  value_nul : (0 : UInt8) ∉ h.value
  key_len : h.key.length < keyMaxLen
  value_len : h.value.length < valueMaxLen

theorem StringPair.Fits.read {h : StringPair} (hfits : h.Fits) :
    (Hdr.ofStrings h.key h.value).keyStr = h.key ∧
      (Hdr.ofStrings h.key h.value).valueStr = h.value := by
  have hk := hfits.key_len
  have hv := hfits.value_len
  constructor
  · rw [Hdr.keyStr, Hdr.ofStrings, memcpy_toList _ (by simpa [Nat.succ_le_iff] using hk), List.append_assoc,
      List.singleton_append, str_append_nul hfits.key_nul]
  · rw [Hdr.valueStr, Hdr.ofStrings, memcpy_toList _ (by simpa [Nat.succ_le_iff] using hv), List.append_assoc,
      List.singleton_append, str_append_nul hfits.value_nul]

/-- The texts are read back. -/
theorem mailHeaders_mailOf {headers : List StringPair} (hcount : headers.length ≤ headerMaxLen)
    (hfits : ∀ h ∈ headers, h.Fits) (body : Bytes) : mailHeaders (mailOf headers body) = headers := by
  rw [mailHeaders, mailOf, memcpy_toList _ (by simpa using hcount),
    List.take_append_of_le_length (by simp), List.take_of_length_le (by simp), List.map_map]
  conv_rhs => rw [← List.map_id headers]
  refine List.map_congr_left fun h hh => ?_
  obtain ⟨hk, hv⟩ := (hfits h hh).read
  rw [Function.comp, hk, hv]
  rfl

theorem bodyStr_mailOf (headers : List StringPair) {body : Bytes} (hnul : (0 : UInt8) ∉ body)
    (hlen : body.length < bodyMaxLen) : (mailOf headers body).bodyStr = body := by
  rw [Mail.bodyStr, mailOf, memcpy_toList _ (by simpa [Nat.succ_le_iff] using hlen), List.append_assoc,
    List.singleton_append, str_append_nul hnul]

/-- **The values of a queued mail hold no CR**, when the memory the server
wrote them into held none. -/
theorem createMail_noCr {mem m : Mail} {req : Request} {tail : Bytes} (h : NoCr req.headers)
    (hm : createMail mem (requestParseData req tail).1 = .ok m) :
    ∀ hdr ∈ mailHeaders m, (0 : UInt8) ∉ hdr.value ∧ (13 : UInt8) ∉ hdr.value := by
  have hstored := requestParseData_noCr req tail h
  generalize (requestParseData req tail).1 = r at hstored hm
  rw [createMail] at hm
  cases hbody : copyBody mem r with
  | error e => simp [hbody, bind, Except.bind] at hm
  | ok m1 =>
    simp only [hbody, bind, Except.bind] at hm
    have hlt := copyHeaders_lt hm
    obtain ⟨m', hm', hcount, -, hget⟩ := copyHeaders_ok r.headers
      { m1 with headerCount := r.headerCount } (List.range r.headerCount) hlt
    obtain rfl : m' = m := Except.ok.inj (hm'.symm.trans hm)
    intro hdr hmem
    obtain ⟨a, ha, rfl⟩ := List.mem_map.mp hmem
    obtain ⟨i, hi, rfl⟩ := List.getElem_of_mem ha
    have hi' : i < r.headerCount := by
      rw [List.length_take, hcount] at hi
      exact lt_of_lt_of_le hi (Nat.min_le_left _ _)
    have hmax : i < headerMaxLen := hlt i (List.mem_range.mpr hi')
    have helem : (m'.headers.toList.take m'.headerCount)[i] = r.headers[i] := by
      rw [List.getElem_take, Vector.getElem_toList, hget i hmax,
        if_pos (List.mem_range.mpr hi')]
    refine ⟨not_mem_str _, fun h13 => hstored i hmax ?_⟩
    rw [← helem]
    exact (List.takeWhile_sublist _).subset h13

/-- The signature header of a queued mail is one the verifier's guarantees
hold for. -/
theorem SignedMail.no_cr_of_queued {signed : SignedMail} {mem m : Mail} {req : Request}
    {tail : Bytes} (h : NoCr req.headers)
    (hm : createMail mem (requestParseData req tail).1 = .ok m)
    (hheaders : signed.headers = mailHeaders m) : (13 : UInt8) ∉ signed.sig.value := by
  have hmem : signed.sig ∈ signed.headers := List.mem_of_find?_eq_some signed.found
  rw [hheaders] at hmem
  exact (createMail_noCr h hm signed.sig hmem).2

end ComfirmDmarc.Dkim
