import ComfirmDmarc.Dkim.Validate

/-!
# Dkim -- tags that are missing

`dkim_check_compability` means to refuse a signature without one of the tags,
but the buffers of a `dkim_header` are arrays and never `NULL`: what it compares
for a tag that was not read is what the block held before. The texts here are
the C strings of the whole block, which run on into the next buffer, and behind
the block, where a buffer has no terminator.
-/

namespace ComfirmDmarc.Dkim

open CMemory

/-! ## The block -/

/-- What `malloc` returns for a `dkim_header`, and the memory behind it. -/
structure HeaderBlock where
  buffers : DkimHeader
  behind : Bytes

/-- The buffers in their order in the block. -/
def Tag.all : List Tag := [.v, .a, .c, .d, .s, .h, .bh, .b]

/-- The C string that starts at a buffer of the block. -/
def HeaderBlock.text (block : HeaderBlock) (t : Tag) : Bytes :=
  str (((Tag.all.dropWhile (· ≠ t)).map fun u => (block.buffers u).toList).flatten ++ block.behind)

/-- `dkim_parse_header` in a block. -/
def HeaderBlock.parse (block : HeaderBlock) (sig : Bytes) : HeaderBlock :=
  { block with buffers := dkimParseHeader block.buffers sig }

/-- The values of a signature, in the order they are read. -/
def signatureValues (sig : Bytes) : List (Tag × Bytes) := (readTags ⟨[], none⟩ sig).all

theorem Tag.dropWhile_all (t : Tag) : ∃ ts, Tag.all.dropWhile (· ≠ t) = t :: ts := by
  cases t <;> exact ⟨_, rfl⟩

/-- A tag that was read ends in its buffer. -/
theorem HeaderBlock.parse_text (block : HeaderBlock) {sig x : Bytes} (hsig : (0 : UInt8) ∉ sig)
    {t : Tag} (hx : lastValue t (signatureValues sig) = some x) :
    (block.parse sig).text t = x.take (dkimValueMaxLen - 1) := by
  have htext := dkimParseHeader_text block.buffers hsig t
  rw [bufferText, show lastValue t (readTags ⟨[], none⟩ sig).all = some x from hx] at htext
  obtain ⟨ts, hts⟩ := Tag.dropWhile_all t
  have hlen : (str (dkimParseHeader block.buffers sig t).toList).length <
      (dkimParseHeader block.buffers sig t).toList.length := by
    rw [← DkimHeader.text, htext, Vector.length_toList, List.length_take, dkimValueMaxLen]
    omega
  rw [HeaderBlock.text, HeaderBlock.parse, hts, List.map_cons, List.flatten_cons,
    List.append_assoc, str_append_of_lt hlen]
  exact htext

/-- A tag that was not read: the parser leaves its buffer alone. -/
theorem dkimParseHeader_text_of_missing (mem : DkimHeader) {sig : Bytes} (hsig : (0 : UInt8) ∉ sig)
    {t : Tag} (ht : lastValue t (signatureValues sig) = none) :
    (dkimParseHeader mem sig).text t = mem.text t := by
  rw [dkimParseHeader_text mem hsig, bufferText,
    show lastValue t (readTags ⟨[], none⟩ sig).all = none from ht]

/-! ## What a refusal has to be -/

/-- A mail with the signature `sig`, and what the verifier is called with. -/
structure VerifierCall (sig : Bytes) where
  headers : List StringPair
  body : Bytes
  strMem : Bytes
  publicKey : Bytes
  found : (findSignature headers).map StringPair.value = some sig

/-- `dkim_validate` on the header that is parsed in `block`. -/
def VerifierCall.run {Key : Type} {sig : Bytes} (ssl : OpenSsl Key) (call : VerifierCall sig)
    (block : HeaderBlock) : Except Fault Int :=
  dkimValidate ssl call.strMem call.headers call.body (block.parse sig).text call.publicKey

/-- **The signature is refused whatever the memory holds**: the check fails, the
verifier never answers that the signature is right, and what it does is the
same over every two blocks. -/
structure Refused {Key : Type} (ssl : OpenSsl Key) (sig : Bytes) : Prop where
  check : ∀ block : HeaderBlock, dkimCheckCompability (block.parse sig).text = false
  answer : ∀ (call : VerifierCall sig) block retval, call.run ssl block = .ok retval → retval = 0
  independent : ∀ (call : VerifierCall sig) block block', block.behind = block'.behind →
    call.run ssl block = call.run ssl block'

/-- A tag occurs, and its last value does not start as the code wants it. -/
def Mismatches (sig : Bytes) (t : Tag) (wanted : Bytes) : Prop :=
  ∃ x, lastValue t (signatureValues sig) = some x ∧ startsWith x wanted = false

/-- The algorithm or the canonicalisation that occurs is not supported. -/
def Unsupported (sig : Bytes) : Prop :=
  Mismatches sig .a (bytes "rsa-sha256") ∨ Mismatches sig .c (bytes "relaxed/relaxed")

theorem startsWith_take {x lit : Bytes} {n : Nat} (h : lit.length ≤ n) :
    startsWith (x.take n) lit = startsWith x lit := by
  rw [Bool.eq_iff_iff, startsWith_iff, startsWith_iff]
  exact ⟨fun hp => hp.trans (List.take_prefix n x), fun hp => List.prefix_take_iff.mpr ⟨hp, h⟩⟩

theorem Unsupported.check {sig : Bytes} (hsig : (0 : UInt8) ∉ sig) (h : Unsupported sig)
    (block : HeaderBlock) : dkimCheckCompability (block.parse sig).text = false := by
  rw [dkimCheckCompability, Bool.and_eq_false_iff]
  rcases h with ⟨x, hx, hno⟩ | ⟨x, hx, hno⟩
  · left
    rw [block.parse_text hsig hx, startsWith_take (by simp [bytes, dkimValueMaxLen])]
    exact hno
  · right
    rw [block.parse_text hsig hx, startsWith_take (by simp [bytes, dkimValueMaxLen])]
    exact hno

/-- What `dkim_validate` does with a header that the check refuses. -/
theorem dkimValidate_of_refused {Key : Type} (ssl : OpenSsl Key) (mem : Bytes)
    (headers : List StringPair) (body : Bytes) {dh : Tag → Bytes} (publicKey : Bytes)
    (h : dkimCheckCompability dh = false) :
    dkimValidate ssl mem headers body dh publicKey =
      if incHeadersMax < (includeHeaders headers (dh .h)).length then .error .incHeaders
      else .ok 0 := by
  simp [dkimValidate, h]

/-! ## Memory that gets a signature through -/

/-- A buffer that holds `x`. -/
def bufferOf (x : Bytes) : Vector UInt8 dkimValueMaxLen := memcpy (Vector.replicate _ 0) x

theorem bufferOf_str {x : Bytes} (h : (0 : UInt8) ∉ x) (hlen : x.length < dkimValueMaxLen) :
    str (bufferOf x).toList = x := by
  rw [bufferOf, memcpy_toList _ hlen.le, Vector.toList_replicate, List.drop_replicate,
    show dkimValueMaxLen - x.length = dkimValueMaxLen - x.length - 1 + 1 by omega,
    List.replicate_succ, str_append_nul h]

/-- The block that holds what the check wants, and `names` as the header list. -/
def luckyBlock (names : Bytes) : HeaderBlock where
  buffers
    | .a => bufferOf (bytes "rsa-sha256")
    | .c => bufferOf (bytes "relaxed/relaxed")
    | .h => bufferOf names
    | _ => bufferOf []
  behind := []

/-- What such a block shows for a tag that does not occur. -/
theorem luckyBlock_text {names sig x : Bytes} (hsig : (0 : UInt8) ∉ sig) {t : Tag}
    (ht : lastValue t (signatureValues sig) = none)
    (hbuf : (luckyBlock names).buffers t = bufferOf x) (hx : (0 : UInt8) ∉ x)
    (hlen : x.length < dkimValueMaxLen) : ((luckyBlock names).parse sig).text t = x := by
  have htext := dkimParseHeader_text_of_missing (luckyBlock names).buffers hsig ht
  rw [DkimHeader.text, DkimHeader.text, hbuf, bufferOf_str hx hlen] at htext
  obtain ⟨ts, hts⟩ := Tag.dropWhile_all t
  rw [HeaderBlock.text, HeaderBlock.parse, hts, List.map_cons, List.flatten_cons,
    List.append_assoc, str_append_of_lt (by rw [htext, Vector.length_toList]; exact hlen), htext]

/-- A tag passes over a lucky block unless it occurs with another value. -/
theorem luckyBlock_startsWith {names sig wanted : Bytes} (hsig : (0 : UInt8) ∉ sig) {t : Tag}
    (hbuf : (luckyBlock names).buffers t = bufferOf wanted) (hw : (0 : UInt8) ∉ wanted)
    (hlen : wanted.length < dkimValueMaxLen) (h : ¬Mismatches sig t wanted) :
    startsWith (((luckyBlock names).parse sig).text t) wanted = true := by
  cases ht : lastValue t (signatureValues sig) with
  | none =>
    rw [luckyBlock_text hsig ht hbuf hw hlen, startsWith_iff]
  | some x =>
    rw [HeaderBlock.parse_text _ hsig ht, startsWith_take (by rw [dkimValueMaxLen] at *; omega)]
    by_contra hno
    exact h ⟨x, ht, by simpa using hno⟩

theorem luckyBlock_check {names sig : Bytes} (hsig : (0 : UInt8) ∉ sig) (h : ¬Unsupported sig) :
    dkimCheckCompability ((luckyBlock names).parse sig).text = true := by
  rw [Unsupported, not_or] at h
  rw [dkimCheckCompability, Bool.and_eq_true]
  exact ⟨luckyBlock_startsWith hsig rfl (by simp [bytes]) (by simp [bytes, dkimValueMaxLen]) h.1,
    luckyBlock_startsWith hsig rfl (by simp [bytes]) (by simp [bytes, dkimValueMaxLen]) h.2⟩

/-- A header list that names the signature header 51 times. -/
def manyNames : Bytes := (List.replicate 50 [100, 58]).flatten ++ [100]

theorem headerNames_manyNames : headerNames [] manyNames = List.replicate 51 [100] := by
  rfl

theorem manyNames_fits : (0 : UInt8) ∉ manyNames ∧ manyNames.length < dkimValueMaxLen := by
  simp [manyNames, dkimValueMaxLen]

/-- A mail with nothing but the signature. -/
def bareCall (sig : Bytes) : VerifierCall sig where
  headers := [⟨bytes "DKIM-Signature", sig⟩]
  body := []
  strMem := []
  publicKey := []
  found := by simp [findSignature]

theorem includeHeaders_manyNames (sig : Bytes) :
    (includeHeaders (bareCall sig).headers manyNames).length = 51 := by
  have hname : startsWith ((bytes "DKIM-Signature").map tolower) [100] = true := by
    rw [bytes_ofList]
    rfl
  rw [includeHeaders, headerNames_manyNames]
  simp [bareCall, hname]

/-- **A signature is refused whatever the memory holds exactly when it names an
algorithm or a canonicalisation that is not supported**, and has a header
list. No other tag that is missing makes the code refuse. -/
theorem refused_iff {Key : Type} (ssl : OpenSsl Key) {sig : Bytes} (hsig : (0 : UInt8) ∉ sig) :
    Refused ssl sig ↔ Unsupported sig ∧ lastValue .h (signatureValues sig) ≠ none := by
  constructor
  · intro href
    have hun : Unsupported sig := by
      by_contra hno
      exact absurd (href.check (luckyBlock [])) (by rw [luckyBlock_check hsig hno]; decide)
    refine ⟨hun, fun hh => ?_⟩
    -- two blocks that differ in the header list alone
    have hsame := href.independent (bareCall sig) (luckyBlock manyNames) (luckyBlock []) rfl
    rw [VerifierCall.run, VerifierCall.run, dkimValidate_of_refused _ _ _ _ _ (hun.check hsig _),
      dkimValidate_of_refused _ _ _ _ _ (hun.check hsig _),
      luckyBlock_text hsig hh rfl manyNames_fits.1 manyNames_fits.2,
      luckyBlock_text hsig hh rfl (by simp) (by decide), includeHeaders_manyNames,
      if_pos (by decide), includeHeaders, headerNames] at hsame
    exact absurd hsame (by simp [incHeadersMax])
  · rintro ⟨hun, hh⟩
    obtain ⟨x, hx⟩ := Option.ne_none_iff_exists'.mp hh
    have hrun : ∀ (call : VerifierCall sig) (block : HeaderBlock), call.run ssl block =
        if incHeadersMax < (includeHeaders call.headers (x.take (dkimValueMaxLen - 1))).length then
          .error .incHeaders
        else .ok 0 := by
      intro call block
      rw [VerifierCall.run, dkimValidate_of_refused _ _ _ _ _ (hun.check hsig block),
        block.parse_text hsig hx]
    refine ⟨hun.check hsig, ?_, ?_⟩
    · intro call block retval hret
      rw [hrun] at hret
      split_ifs at hret
      exact (Except.ok.inj hret).symm
    · intro call block block' _
      rw [hrun, hrun]

/-! ## A signature without a version -/

/-- A signature with every tag but `v`. -/
def noVersion : Bytes := bytes "a=rsa-sha256; c=relaxed/relaxed; d=a.se; s=k; h=from; bh=Zg==; b=Zg=="

/-- A signature for an algorithm that is not supported, and nothing signed. -/
def oldAlgorithm : Bytes := bytes "v=1; a=rsa-sha1; c=relaxed/relaxed; d=a.se; s=k; h=from; bh=Zg=="

/-- OpenSSL that knows no key. -/
def noKeys : OpenSsl Unit where
  sha256 _ := Vector.replicate _ 0
  rsaVerify _ _ _ := 0
  readPubkey _ := none
  bioRead _ := []
  bioWrite _ := []

theorem refused_oldAlgorithm : Refused noKeys oldAlgorithm :=
  (refused_iff noKeys (by decide +kernel)).mpr
    ⟨.inl ⟨bytes "rsa-sha1", by decide +kernel, by decide +kernel⟩, by decide +kernel⟩

/-- The check passes, over any memory, a signature that has no version. -/
theorem noVersion_not_refused :
    ¬∀ (Key : Type) (ssl : OpenSsl Key) (sig : Bytes), (0 : UInt8) ∉ sig →
      (∃ t, lastValue t (signatureValues sig) = none) → Refused ssl sig := by
  intro h
  have hsig : (0 : UInt8) ∉ noVersion := by decide +kernel
  have href := h Unit noKeys noVersion hsig ⟨.v, by decide +kernel⟩
  have hcheck := href.check (luckyBlock [])
  have ha : lastValue .a (signatureValues noVersion) = some (bytes "rsa-sha256") := by
    decide +kernel
  have hc : lastValue .c (signatureValues noVersion) = some (bytes "relaxed/relaxed") := by
    decide +kernel
  rw [dkimCheckCompability, HeaderBlock.parse_text _ hsig ha, HeaderBlock.parse_text _ hsig hc]
    at hcheck
  exact absurd hcheck (by decide +kernel)

end ComfirmDmarc.Dkim
