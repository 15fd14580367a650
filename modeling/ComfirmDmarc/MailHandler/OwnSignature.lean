import ComfirmDmarc.Dkim.Agreement
import ComfirmDmarc.MailHandler.HonestMail

/-!
# MailHandler -- mails signed by `dkim_create`

`dkim_create` signs with `rsa-sha1`, and `dkim_check_compability` wants
`rsa-sha256`. The field that the signer returns is broken into lines, and
`request_parse_data` takes the line breaks away again. Either way it is read tag
by tag, so the verifier sees the algorithm that is written in it.
-/

namespace ComfirmDmarc.MailHandler

open CMemory Dkim

/-! ## A tag list in lines -/

/-- A way to break a text into lines: it only adds white space, leaves a short
word alone, and starts again behind a `;` and a SP. -/
structure LineBreaking (lines : Bytes → Bytes) : Prop where
  adds : ∀ {u c}, c ∈ lines u → c ∈ u ∨ isFolding c = true
  short : ∀ {w rest}, (∀ c ∈ w, c ≠ 32) → w.length ≤ 75 → ∃ rest', lines (w ++ rest) = w ++ rest'
  whole : ∀ {w}, (∀ c ∈ w, c ≠ 32) → w.length ≤ 75 → lines w = w
  semicolon : ∀ u rest, ∃ gap, (∀ c ∈ gap, isFolding c = true) ∧
    lines (u ++ 59 :: 32 :: rest) = lines u ++ 59 :: (gap ++ lines rest)

/-- `wrap` behind a `;` and a SP. -/
theorem wrap_semicolon (lcount : Nat) (u rest : Bytes) :
    ∃ gap, (∀ c ∈ gap, isFolding c = true) ∧
      wrap lcount (u ++ 59 :: 32 :: rest) = wrap lcount u ++ 59 :: (gap ++ wrap 0 rest) := by
  induction u generalizing lcount with
  | nil =>
    by_cases h75 : lcount = 75
    · exact ⟨[13, 10, 9, 32, 13, 10, 9], by simp [isFolding], by simp [wrap, h75]⟩
    · exact ⟨[32, 13, 10, 9], by simp [isFolding], by simp [wrap, h75]⟩
  | cons c u ih =>
    rw [List.cons_append, wrap, wrap]
    split
    · obtain ⟨gap, hgap, heq⟩ := ih 0
      exact ⟨gap, hgap, by rw [heq]; rfl⟩
    · obtain ⟨gap, hgap, heq⟩ := ih (lcount + 1)
      exact ⟨gap, hgap, by rw [heq]; rfl⟩

theorem lineBreaking_wrap : LineBreaking (wrap 0) where
  adds h := by
    rcases mem_wrap h with h | rfl | rfl | rfl
    · exact .inl h
    all_goals exact .inr rfl
  short hw hlen := ⟨_, wrap_of_short hw (by omega) _⟩
  whole hw hlen := by simpa [wrap] using wrap_of_short hw (by omega) []
  semicolon := wrap_semicolon 0

/-- The text on one line. -/
theorem lineBreaking_id : LineBreaking id where
  adds h := .inl h
  short _ _ := ⟨_, rfl⟩
  whole _ _ := rfl
  semicolon _ _ := ⟨[32], by simp [isFolding], rfl⟩

namespace LineBreaking

variable {lines : Bytes → Bytes} (hlines : LineBreaking lines)

include hlines

theorem not_mem {c : UInt8} (hc : isFolding c = false) {u : Bytes} (hu : c ∉ u) : c ∉ lines u := by
  intro h
  rcases hlines.adds h with h | h
  · exact hu h
  · exact absurd h (by rw [hc]; decide)

/-- **A list in lines is read tag by tag.** -/
theorem seenIn_lines {u : Bytes} (hu : (59 : UInt8) ∉ u) (rest : Bytes) :
    seenIn (lines (u ++ 59 :: 32 :: rest)) = (seen (lines u)).toList ++ seenIn (lines rest) := by
  obtain ⟨gap, hgap, heq⟩ := hlines.semicolon u rest
  rw [heq, seenIn_semicolon, seenIn_folding hgap, seenIn_plain (hlines.not_mem (by decide) hu)]

/-- A known tag is read as itself. -/
theorem seen_known (t : Tag) (x : Bytes) :
    ∃ y, seen (lines (t.name ++ 61 :: x)) = some (t, y) := by
  have hplain : (∀ c ∈ t.name ++ [61], c ≠ 32) ∧ (t.name ++ [61]).length ≤ 75 := by
    cases t <;> decide +kernel
  obtain ⟨y, hy⟩ : ∃ y, lines (t.name ++ [61] ++ x) = t.name ++ [61] ++ y :=
    hlines.short hplain.1 hplain.2
  rw [List.append_assoc, List.singleton_append, List.append_assoc, List.singleton_append] at hy
  exact ⟨_, by rw [hy, seen_name]⟩

end LineBreaking

/-- What is read stands in the text. -/
theorem seen_some_part {u x : Bytes} {t : Tag} (h : seen u = some (t, x)) :
    t.name ++ [61] <:+: u := by
  induction u with
  | nil => cases h
  | cons c u ih =>
    rw [seen] at h
    cases htag : tagAt (c :: u) with
    | none =>
      rw [htag] at h
      exact (ih h).trans (List.suffix_cons c u).isInfix
    | some p =>
      obtain ⟨t', skip⟩ := p
      rw [htag] at h
      obtain rfl : t' = t := congrArg Prod.fst (Option.some.inj h)
      exact (startsWith_iff.mp (tagAt_some_name htag).1).isInfix

/-! ## The field of the signer -/

/-- A letter that is no digit does not stand in a number. -/
theorem not_mem_number {c : UInt8} (hc : 57 < c) (x : Int) : c ∉ decimal (toInt x) := by
  intro h
  rw [UInt8.lt_iff_toNat_lt] at hc
  rcases (decimal_spec (toInt_natAbs x)).2 c h with rfl | ⟨-, hle⟩
  · exact absurd hc (by decide)
  · rw [UInt8.le_iff_toNat_le] at hle
    omega

/-- The field, tag by tag, with the text of the signature behind it. -/
theorem dkimString_tags (selector domain : Bytes) (bodyLen ts : Int) (list bh text : Bytes) :
    dkimString selector domain bodyLen ts list bh ++ text =
      (Tag.v.name ++ 61 :: bytes "1") ++ 59 :: 32 :: (bytes "a=rsa-sha1" ++
        59 :: 32 :: ((Tag.s.name ++ 61 :: selector) ++ 59 :: 32 :: ((Tag.d.name ++ 61 :: domain) ++
        59 :: 32 :: ((108 :: 61 :: decimal bodyLen) ++ 59 :: 32 :: ((116 :: 61 :: decimal ts) ++
        59 :: 32 :: ((Tag.c.name ++ 61 :: bytes "relaxed/relaxed") ++
        59 :: 32 :: ((Tag.h.name ++ 61 :: list) ++ 59 :: 32 :: ((Tag.bh.name ++ 61 :: bh) ++
        59 :: 32 :: (Tag.b.name ++ 61 :: text))))))))) := by
  simp [dkimString, Tag.name, bytes]

/-- **The algorithm that is read in the field of the signer**, in whatever lines
it comes. -/
theorem lastValue_algorithm {lines : Bytes → Bytes} (hlines : LineBreaking lines)
    {selector domain list bh text : Bytes} (bodyLen ts : Int)
    (hselector : (59 : UInt8) ∉ selector) (hdomain : (59 : UInt8) ∉ domain)
    (hlist : (59 : UInt8) ∉ list) (hbh : (59 : UInt8) ∉ bh) (htext : (59 : UInt8) ∉ text) :
    lastValue .a (seenIn (lines
        (dkimString selector domain (toInt bodyLen) (toInt ts) list bh ++ text))) =
      some (bytes "rsa-sha1") := by
  have hname : ∀ (t : Tag) {x : Bytes}, (59 : UInt8) ∉ x → (59 : UInt8) ∉ t.name ++ 61 :: x := by
    intro t x hx
    have ht : (59 : UInt8) ∉ t.name := by cases t <;> decide
    simp [ht, hx]
  have hnumber : ∀ {name : UInt8} (x : Int), name ≠ 59 →
      (59 : UInt8) ∉ name :: 61 :: decimal (toInt x) := by
    intro name x hne
    simp [hne.symm, not_mem_number (show 57 < 59 by decide) x]
  have halgorithm : seen (lines (bytes "a=rsa-sha1")) = some (.a, bytes "rsa-sha1") := by
    rw [hlines.whole (by decide +kernel) (by decide +kernel)]
    exact seen_name .a (bytes "rsa-sha1")
  -- nothing behind the second tag is read as `a=`
  have hother : ∀ {t : Tag} (x : Bytes), t ≠ .a →
      lastValue .a (seen (lines (t.name ++ 61 :: x))).toList = none := by
    intro t x ht
    obtain ⟨y, hy⟩ := hlines.seen_known t x
    rw [hy, Option.toList_some, lastValue_singleton, if_neg ht]
  have hunknown : ∀ {name : UInt8} (x : Int), name ≠ 97 →
      lastValue .a (seen (lines (name :: 61 :: decimal (toInt x)))).toList = none := by
    intro name x hne
    cases hseen : seen (lines (name :: 61 :: decimal (toInt x))) with
    | none => rfl
    | some p =>
      have hno : (97 : UInt8) ∉ lines (name :: 61 :: decimal (toInt x)) := by
        refine hlines.not_mem (by decide) ?_
        simp [hne.symm, not_mem_number (show 57 < 97 by decide) x]
      rw [Option.toList_some, lastValue_singleton, if_neg]
      intro hp
      obtain ⟨t, y⟩ := p
      obtain rfl : t = .a := hp
      exact hno ((seen_some_part hseen).subset (by decide))
  rw [dkimString_tags, hlines.seenIn_lines (hname .v (by decide)), hlines.seenIn_lines (by decide),
    hlines.seenIn_lines (hname .s hselector), hlines.seenIn_lines (hname .d hdomain),
    hlines.seenIn_lines (hnumber bodyLen (by decide)), hlines.seenIn_lines (hnumber ts (by decide)),
    hlines.seenIn_lines (hname .c (by decide)), hlines.seenIn_lines (hname .h hlist),
    hlines.seenIn_lines (hname .bh hbh), seenIn_plain (hlines.not_mem (by decide) (hname .b htext)),
    halgorithm]
  simp only [Option.toList_some, lastValue_append, lastValue_singleton]
  simp [hother, hunknown]

/-- What `dkim_create` returns. -/
theorem dkimCreate_value {Key PrivateKey : Type} {ssl : OpenSsl Key} {signer : Signer PrivateKey}
    {headers : List StringPair} {body pkey domain selector value : Bytes} {ts : Int}
    (h : dkimCreate ssl signer headers body pkey domain selector ts = .ok (some value)) :
    ∃ sig, sig ≠ [] ∧ value = wrap 0 (dkimString selector domain (toInt (relaxedBodyCanon body).length)
      (toInt ts) (headerList [] (relaxedHeaderCanon headers))
      (base64Encode ssl (signer.sha1 (relaxedBodyCanon body)).toList) ++ base64Encode ssl sig) := by
  rw [dkimCreate] at h
  cases hkey : signer.readPrivate pkey with
  | none => simp [hkey] at h
  | some key =>
    simp only [hkey] at h
    split at h
    · cases h
    · split at h
      · cases h
      · split at h
        · cases h
        · next sig hsig =>
          split at h
          · cases h
          · exact ⟨sig, signer.rsaSign_ne_nil _ _ _ hsig, (Option.some.inj (Except.ok.inj h)).symm⟩

/-- The line breaks of `wrap` can be taken away. -/
theorem wrap_inj {lcount : Nat} {s s' : Bytes} (h : wrap lcount s = wrap lcount s') : s = s' := by
  induction s generalizing lcount s' with
  | nil =>
    cases s' with
    | nil => rfl
    | cons d s' =>
      rw [wrap, wrap] at h
      split at h <;> cases h
  | cons c s ih =>
    cases s' with
    | nil =>
      rw [wrap, wrap] at h
      split at h <;> cases h
    | cons d s' =>
      have hcd : c = d := by
        rw [wrap, wrap] at h
        split at h <;> split at h <;> exact (List.cons.inj h).1
      subst hcd
      rw [wrap, wrap] at h
      split at h
      · exact congrArg (c :: ·) (ih (by simpa using h))
      · exact congrArg (c :: ·) (ih (List.cons.inj h).2)

/-- A text of tags that are told apart: neither NUL nor `;`. -/
def OneTag (s : Bytes) : Prop := (0 : UInt8) ∉ s ∧ (59 : UInt8) ∉ s

theorem oneTag_encode (s : Bytes) : OneTag (Base64.encode s) :=
  ⟨fun h => (encode_plain s 0 h).1 rfl, fun h => (encode_plain s 59 h).2.1 rfl⟩

/-- A byte below the capital letters is in lower case. -/
theorem tolower_eq_low {c d : UInt8} (hd : d < 65) (h : tolower c = d) : c = d := by
  unfold tolower at h
  split at h
  · next hc =>
    exfalso
    rw [UInt8.le_iff_toNat_le, UInt8.le_iff_toNat_le] at hc
    rw [← h, UInt8.lt_iff_toNat_lt, UInt8.toNat_add] at hd
    simp only [UInt8.reduceToNat] at hc hd
    omega
  · exact h

theorem oneTag_headerList {headers : List StringPair} (h : ∀ hdr ∈ headers, OneTag hdr.key) :
    OneTag (headerList [] (relaxedHeaderCanon headers)) := by
  have hkeys : ∀ d : UInt8, d < 65 → d ≠ 58 → (∀ hdr ∈ headers, d ∉ hdr.key) →
      d ∉ headerList [] (relaxedHeaderCanon headers) := by
    intro d hlow hcolon hno hmem
    rcases mem_headerList hmem with hmem | hmem | ⟨g, hg, hmem⟩
    · cases hmem
    · exact hcolon hmem
    · obtain ⟨hdr, hhdr, rfl⟩ := List.mem_map.mp hg
      obtain ⟨c, hc, hcd⟩ := List.mem_map.mp hmem
      obtain rfl := tolower_eq_low hlow hcd
      exact hno hdr hhdr hc
  exact ⟨hkeys 0 (by decide) (by decide) fun hdr hhdr => (h hdr hhdr).1,
    hkeys 59 (by decide) (by decide) fun hdr hhdr => (h hdr hhdr).2⟩

theorem dkimString_nul {selector domain list bh text : Bytes} (bodyLen ts : Int)
    (hselector : OneTag selector) (hdomain : OneTag domain) (hlist : OneTag list) (hbh : OneTag bh)
    (htext : OneTag text) :
    (0 : UInt8) ∉ dkimString selector domain (toInt bodyLen) (toInt ts) list bh ++ text := by
  have hnumber : ∀ x : Int, (0 : UInt8) ∉ decimal (toInt x) := fun x h =>
    (decimal_toInt_plain x 0 h).1 rfl
  rw [dkimString_tags]
  simp [Tag.name, bytes, hselector.1, hdomain.1, hlist.1, hbh.1, htext.1, hnumber]

/-! ## The verifier -/

/-- **The field names the algorithm that the verifier refuses**, as the signer
returns it and without its line breaks. -/
theorem unsupported_own {Key PrivateKey : Type} {ssl : OpenSsl Key} (hssl : ssl.EncodesBase64)
    {signer : Signer PrivateKey} {headers : List StringPair}
    {body pkey domain selector value : Bytes} {ts : Int}
    (hcreated : dkimCreate ssl signer headers body pkey domain selector ts = .ok (some value))
    (hselector : OneTag selector) (hdomain : OneTag domain) (hnames : ∀ h ∈ headers, OneTag h.key)
    {field : Bytes} (hfield : field = value ∨ wrap 0 field = value) :
    (0 : UInt8) ∉ field ∧ Unsupported field := by
  obtain ⟨sig, hsig, hvalue⟩ := dkimCreate_value hcreated
  have hhash : (signer.sha1 (relaxedBodyCanon body)).toList ≠ [] := by
    rw [← List.length_pos_iff, Vector.length_toList]
    decide
  rw [base64Encode_eq hssl hhash, base64Encode_eq hssl hsig] at hvalue
  have hlist := oneTag_headerList hnames
  have hbh := oneTag_encode (signer.sha1 (relaxedBodyCanon body)).toList
  have htext := oneTag_encode sig
  -- in either form the field is the text of the signer, in lines or not
  obtain ⟨lines, hlines, heq⟩ : ∃ lines, LineBreaking lines ∧ field = lines
      (dkimString selector domain (toInt (relaxedBodyCanon body).length) (toInt ts)
        (headerList [] (relaxedHeaderCanon headers))
        (Base64.encode (signer.sha1 (relaxedBodyCanon body)).toList) ++ Base64.encode sig) := by
    rcases hfield with rfl | hfield
    · exact ⟨_, lineBreaking_wrap, hvalue⟩
    · exact ⟨_, lineBreaking_id, wrap_inj (hfield.trans hvalue)⟩
  refine ⟨?_, .inl ⟨bytes "rsa-sha1", ?_, by decide⟩⟩
  · rw [heq]
    exact hlines.not_mem (by decide) (dkimString_nul _ _ hselector hdomain hlist hbh htext)
  · rw [signatureValues, readTags_seenIn, List.nil_append, heq]
    exact lastValue_algorithm hlines _ _ hselector.2 hdomain.2 hlist.2 hbh.2 htext.2

/-- **No mail that `dkim_create` signed passes `validate_dkim`**: whatever the
headers, the body and the key of the signer, a mail whose signature header is
the field that it returned, folded or unfolded, is not accepted, whatever the
key record, the rest of the mail and the memory of the verifier. -/
theorem own_signature_refused {Key PrivateKey VerifierKey : Type} {ssl : OpenSsl Key}
    (hssl : ssl.EncodesBase64) {signer : Signer PrivateKey} {headers : List StringPair}
    {body pkey domain selector value : Bytes} {ts : Int}
    (hcreated : dkimCreate ssl signer headers body pkey domain selector ts = .ok (some value))
    (hselector : OneTag selector) (hdomain : OneTag domain) (hnames : ∀ h ∈ headers, OneTag h.key)
    {field : Bytes} (hfield : field = value ∨ wrap 0 field = value)
    (verifier : OpenSsl VerifierKey) (dns : Bytes → DnsAnswer) (blocks : Blocks) {message : Mail}
    (hmessage : (findSignature (mailHeaders message)).map StringPair.value = some field)
    {retval : Int} (h : validateDkim verifier dns blocks message = .ok retval) : retval = 0 := by
  obtain ⟨hnul, hunsupported⟩ := unsupported_own hssl hcreated hselector hdomain hnames hfield
  have hcheck := hunsupported.check hnul blocks.header
  obtain ⟨sig, hsig, rfl⟩ := Option.map_eq_some_iff.mp hmessage
  have hparsed : dkimGetHeader blocks.header.buffers (mailHeaders message) =
      some (dkimParseHeader blocks.header.buffers sig.value) := by
    rw [dkimGetHeader, hsig, Option.map_some]
  have hrefused := fun publicKey => dkimValidate_of_refused verifier blocks.strMem
    (mailHeaders message) message.bodyStr publicKey hcheck
  rw [validateDkim] at h
  split at h
  · cases h
  · simp only [hparsed] at h
    change validateSignature verifier dns blocks (mailHeaders message) message.bodyStr
      (blocks.header.parse sig.value).text = .ok retval at h
    rw [validateSignature] at h
    split at h
    · exact (Except.ok.inj h).symm
    · dsimp only at h
      rw [hrefused] at h
      split at h
      · split at h
        · cases h
        · exact (Except.ok.inj h).symm
      · exact (Except.ok.inj h).symm

section Examples

/-- The mail `hi`, signed with the short key. -/
def ownMail : Mail :=
  mailOf [signedHeader, ⟨bytes "DKIM-Signature", shortSigning.value⟩] (bytes "hi\r\n")

/-- The texts of the mail are short, and its `h=` asks for one field. -/
theorem shortSigning_facts : signedHeader.Fits ∧
    (0 : UInt8) ∉ bytes "DKIM-Signature" ∧ (bytes "DKIM-Signature").length < keyMaxLen ∧
    shortSigning.value.length < valueMaxLen ∧
    lastValue .h (signatureValues shortSigning.value) = some (bytes "from") ∧
    (includeHeaders [signedHeader, ⟨bytes "DKIM-Signature", shortSigning.value⟩]
      (bytes "from")).length ≤ incHeadersMax := by
  have hsigned : signedHeader.Fits := ⟨by decide, by decide, by decide, by decide⟩
  have hasked : lastValue .h (signatureValues (wrap 0 (unsignedField ++ Base64.encode shortKey.sig))) =
      some (bytes "from") := by decide +kernel
  refine ⟨hsigned, by decide, by decide, shortSigning.short, hasked, ?_⟩
  have hnames : headerNames [] (bytes "from") = [bytes "from"] := by decide
  rw [includeHeaders, hnames, List.flatMap_singleton]
  exact (List.length_filter_le _ _).trans (by simp [incHeadersMax])

theorem mailHeaders_ownMail :
    mailHeaders ownMail = [signedHeader, ⟨bytes "DKIM-Signature", shortSigning.value⟩] := by
  obtain ⟨hsigned, hnul, hlen, hshort, -⟩ := shortSigning_facts
  refine mailHeaders_mailOf (by simp [headerMaxLen]) (fun h hh => ?_) _
  rcases List.mem_cons.mp hh with rfl | hh
  · exact hsigned
  · obtain rfl := List.mem_singleton.mp hh
    exact ⟨hnul, shortSigning.value_nul signerSsl_encodesBase64, hlen, hshort⟩

theorem findSignature_ownMail : findSignature (mailHeaders ownMail) =
    some ⟨bytes "DKIM-Signature", shortSigning.value⟩ := by
  rw [mailHeaders_ownMail]
  simp [findSignature, signedHeader, show bytes "from" ≠ bytes "DKIM-Signature" by decide]

theorem shortSigning_oneTag : OneTag (bytes "k") ∧ OneTag (bytes "a.se") ∧
    ∀ h ∈ shortSigning.headers, OneTag h.key := by
  have hnames : ∀ h ∈ [signedHeader], OneTag h.key := by simp [OneTag, signedHeader, bytes]
  exact ⟨by simp [OneTag, bytes], by simp [OneTag, bytes], hnames⟩

/-- The key record is found, and the check of the algorithm is made. -/
theorem validateDkim_ownMail : validateDkim paySsl payDns .zero ownMail = .ok 0 := by
  obtain ⟨hselector, hdomain, hnames⟩ := shortSigning_oneTag
  obtain ⟨hnul, hunsupported⟩ := unsupported_own signerSsl_encodesBase64 shortSigning.created
    hselector hdomain hnames (.inl rfl)
  have hcheck := hunsupported.check hnul Blocks.zero.header
  obtain ⟨txt, htxt, hvalues⟩ := payRecord_recovered Blocks.zero.record
  have hstrings := recordString_eq payRecord_keyRecord hvalues Blocks.zero.behindRecord
  have hrsa : keyValue payRecord .k = bytes "rsa" := by decide +kernel
  obtain ⟨-, -, -, -, hasked, hslots⟩ := shortSigning_facts
  have hparsed : dkimGetHeader Blocks.zero.header.buffers (mailHeaders ownMail) =
      some (dkimParseHeader Blocks.zero.header.buffers shortSigning.value) := by
    rw [dkimGetHeader, findSignature_ownMail, Option.map_some]
  have hh : (Blocks.zero.header.parse shortSigning.value).text .h = bytes "from" := by
    rw [Blocks.zero.header.parse_text hnul hasked]
    decide +kernel
  rw [validateDkim, if_neg (by decide)]
  simp only [hparsed]
  change validateSignature paySsl payDns .zero (mailHeaders ownMail) ownMail.bodyStr
    (Blocks.zero.header.parse shortSigning.value).text = _
  rw [validateSignature, payDns, htxt]
  simp only [hstrings, hrsa]
  rw [dkimValidate_of_refused _ _ _ _ _ hcheck, hh, mailHeaders_ownMail,
    if_neg (Nat.not_lt.mpr hslots)]
  rfl

/-- The mail is refused although the key of its record is read. -/
theorem own_signature_refused_shortKey :
    paySsl.readPubkey (publicKeyPem (keyValue payRecord .p)) = some () ∧
      ∃ retval, validateDkim paySsl payDns .zero ownMail = .ok retval ∧ retval = 0 := by
  have hread : paySsl.readPubkey (publicKeyPem (keyValue payRecord .p)) = some () := by
    decide +kernel
  obtain ⟨hselector, hdomain, hnames⟩ := shortSigning_oneTag
  have hfound : (findSignature (mailHeaders ownMail)).map StringPair.value =
      some shortSigning.value := by
    rw [findSignature_ownMail, Option.map_some]
  exact ⟨hread, 0, validateDkim_ownMail, own_signature_refused signerSsl_encodesBase64
    shortSigning.created hselector hdomain hnames (.inl rfl) paySsl payDns .zero hfound
    validateDkim_ownMail⟩

end Examples

end ComfirmDmarc.MailHandler
