import ComfirmDmarc.MailHandler.Loop
import ComfirmDmarc.MailHandler.ValidateDkim

/-!
# MailHandler -- the letter case of header names

The lookups of the signed headers and the canonicaliser lower the header names
first; the lookups of `DKIM-Signature` and `Content-Transfer-Encoding` compare
them with `strcmp`. Two mails whose header names differ in case only are
treated alike as far as these two lookups stop at the same header.
-/

namespace ComfirmDmarc.MailHandler

open CMemory Dkim

/-! ## Mails that differ in case -/

/-- A header field under its lower-case name. -/
def lower (h : StringPair) : StringPair := ⟨h.key.map tolower, h.value⟩

/-- **The header names differ in letter case only.** -/
structure CaseVariant (m m' : Mail) : Prop where
  headerCount : m.headerCount = m'.headerCount
  headers : (mailHeaders m).map lower = (mailHeaders m').map lower
  body : m.bodyStr = m'.bodyStr

/-! ## The lookups -/

def dkimSignature : Bytes := bytes "DKIM-Signature"

def contentTransferEncoding : Bytes := bytes "Content-Transfer-Encoding"

/-- The loops that compare with `strcmp`. -/
def exactIndex (name : Bytes) (headers : List StringPair) : Option Nat :=
  headers.findIdx? fun h => h.key = name

/-- Which headers the loop over a name in `dh->h` includes. -/
def includedAt (name : Bytes) (headers : List StringPair) : List Bool :=
  headers.map fun h => startsWith (h.key.map tolower) name

/-- **The mails are treated alike**, whatever the DNS, the libraries and
`malloc` come back with: the decision, the decoded content and every lookup are
the same. -/
structure TreatedAlike (m m' : Mail) : Prop where
  validate : ∀ {Key : Type} (ssl : OpenSsl Key) (dns : Bytes → DnsAnswer) (blocks : Blocks),
    validateDkim ssl dns blocks m = validateDkim ssl dns blocks m'
  decode : ∀ base64Decode, decodeContent base64Decode m = decodeContent base64Decode m'
  signature : exactIndex dkimSignature (mailHeaders m) = exactIndex dkimSignature (mailHeaders m')
  encoding : exactIndex contentTransferEncoding (mailHeaders m) =
    exactIndex contentTransferEncoding (mailHeaders m')
  signed : ∀ name, includedAt name (mailHeaders m) = includedAt name (mailHeaders m')

/-- The header that such a loop stops at. -/
def IsFirst (name : Bytes) (headers : List StringPair) (i : Nat) : Prop :=
  (∃ h, headers[i]? = some h ∧ h.key = name) ∧ ∀ g ∈ headers.take i, g.key ≠ name

/-- The same header is the first one that is written as `name`. -/
def SameFirst (name : Bytes) (m m' : Mail) : Prop :=
  ∀ i, IsFirst name (mailHeaders m) i ↔ IsFirst name (mailHeaders m') i

/-- A header has the name, in some case. -/
def HasName (name : Bytes) (m : Mail) : Prop :=
  ∃ h ∈ mailHeaders m, h.key.map tolower = name.map tolower

/-! ## What lowering the names keeps -/

theorem exactIndex_eq_some_iff {name : Bytes} {headers : List StringPair} {i : Nat} :
    exactIndex name headers = some i ↔ IsFirst name headers i := by
  rw [exactIndex]
  induction headers generalizing i with
  | nil => simp [IsFirst]
  | cons h headers ih =>
    rw [List.findIdx?_cons]
    by_cases hkey : h.key = name
    · -- the loop stops here
      rw [if_pos (by simpa using hkey)]
      cases i with
      | zero => simp [IsFirst, hkey]
      | succ i => simp [IsFirst, hkey]
    · rw [if_neg (by simpa using hkey)]
      cases i with
      | zero => simp [IsFirst, hkey]
      | succ i => simpa [IsFirst, hkey] using ih

theorem exactIndex_eq_iff {name : Bytes} {m m' : Mail} :
    exactIndex name (mailHeaders m) = exactIndex name (mailHeaders m') ↔ SameFirst name m m' := by
  constructor
  · intro h i
    rw [← exactIndex_eq_some_iff, h, exactIndex_eq_some_iff]
  · intro h
    refine Option.ext fun i => ?_
    rw [exactIndex_eq_some_iff, h i, exactIndex_eq_some_iff]

section Lowered

variable {headers headers' : List StringPair} (h : headers.map lower = headers'.map lower)
include h

theorem includedAt_congr (name : Bytes) : includedAt name headers = includedAt name headers' := by
  have hmap : ∀ hs, includedAt name hs = (hs.map lower).map fun g => startsWith g.key name := by
    intro hs
    rw [includedAt, List.map_map]
    rfl
  rw [hmap, hmap, h]

theorem includeHeaders_congr (names : Bytes) :
    (includeHeaders headers names).map lower = (includeHeaders headers' names).map lower := by
  have hmap : ∀ hs, (includeHeaders hs names).map lower =
      (headerNames [] names).flatMap fun name =>
        (hs.map lower).filter fun g => startsWith g.key name := by
    intro hs
    rw [includeHeaders, List.map_flatMap]
    refine congrArg (List.flatMap · (headerNames [] names)) (funext fun name => ?_)
    rw [List.filter_map]
    rfl
  rw [hmap, hmap, h]

/-- The canonicaliser sees the lower-case names only. -/
theorem relaxedHeaderCanon_congr : relaxedHeaderCanon headers = relaxedHeaderCanon headers' := by
  have hmap : ∀ hs, relaxedHeaderCanon hs = relaxedHeaderCanon (hs.map lower) := by
    intro hs
    simp only [relaxedHeaderCanon, List.map_map]
    refine List.map_congr_left fun g _ => ?_
    simp [lower, tolower_tolower]
  rw [hmap, h, ← hmap]

/-- A loop that stops at the same place finds the same header. -/
theorem find_exact_congr {name : Bytes} (hfirst : exactIndex name headers = exactIndex name headers') :
    headers.find? (fun g => g.key = name) = headers'.find? (fun g => g.key = name) := by
  have hbind : ∀ hs, List.find? (fun g : StringPair => g.key = name) hs =
      (exactIndex name hs).bind (hs[·]?) := fun hs => List.find?_eq_bind_findIdx?_getElem?
  rw [hbind, hbind, ← hfirst]
  cases hi : exactIndex name headers with
  | none => rfl
  | some i =>
    obtain ⟨⟨g, hg, hkey⟩, -⟩ := exactIndex_eq_some_iff.mp hi
    obtain ⟨⟨g', hg', hkey'⟩, -⟩ := exactIndex_eq_some_iff.mp (hfirst ▸ hi)
    have hlower : lower g = lower g' := by
      have hget := congrArg (·[i]?) h
      simpa [List.getElem?_map, hg, hg'] using hget
    rw [Option.bind_some, Option.bind_some, hg, hg']
    refine congrArg some ?_
    cases g
    cases g'
    simp only [lower, StringPair.mk.injEq] at hlower
    rw [StringPair.mk.injEq]
    exact ⟨hkey.trans hkey'.symm, hlower.2⟩

theorem dkimValidate_congr {Key : Type} (ssl : OpenSsl Key) (mem body : Bytes)
    (hfirst : exactIndex dkimSignature headers = exactIndex dkimSignature headers')
    (dh : Tag → Bytes) (publicKey : Bytes) :
    dkimValidate ssl mem headers body dh publicKey =
      dkimValidate ssl mem headers' body dh publicKey := by
  have hlen : (includeHeaders headers (dh .h)).length = (includeHeaders headers' (dh .h)).length := by
    simpa using congrArg List.length (includeHeaders_congr h (dh .h))
  have hsig : findSignature headers = findSignature headers' := find_exact_congr h hfirst
  have hsigned : ∀ sig, signedHeaders headers (dh .h) sig = signedHeaders headers' (dh .h) sig := by
    intro sig
    refine relaxedHeaderCanon_congr ?_
    rw [List.map_append, List.map_append, includeHeaders_congr h]
  simp only [dkimValidate, hlen, hsig, hsigned]

end Lowered

/-- **`validate_dkim` depends on the names through their lower-case letters,
and on where the first `DKIM-Signature` stands.** -/
theorem validateDkim_caseVariant {Key : Type} (ssl : OpenSsl Key) (dns : Bytes → DnsAnswer)
    (blocks : Blocks) {m m' : Mail} (h : CaseVariant m m')
    (hfirst : exactIndex dkimSignature (mailHeaders m) = exactIndex dkimSignature (mailHeaders m')) :
    validateDkim ssl dns blocks m = validateDkim ssl dns blocks m' := by
  have hget : dkimGetHeader blocks.header.buffers (mailHeaders m) =
      dkimGetHeader blocks.header.buffers (mailHeaders m') := by
    rw [dkimGetHeader, dkimGetHeader,
      show findSignature (mailHeaders m) = findSignature (mailHeaders m') from
        find_exact_congr h.headers hfirst]
  have hvalidate : ∀ dh, validateSignature ssl dns blocks (mailHeaders m) m.bodyStr dh =
      validateSignature ssl dns blocks (mailHeaders m') m'.bodyStr dh := by
    intro dh
    simp only [validateSignature, h.body,
      dkimValidate_congr h.headers ssl blocks.strMem m'.bodyStr hfirst]
  simp only [validateDkim, h.headerCount, hget, hvalidate]

/-- `decode_content`, on the strings of the mail. -/
theorem decodeContent_eq (base64Decode : Bytes → Bytes × Int) (m : Mail) :
    decodeContent base64Decode m =
      match (mailHeaders m).find? (fun h => h.key = contentTransferEncoding) with
      | none => .crash
      | some h => if h.value = bytes "base64" then .got (base64Decode m.bodyStr) else .null := by
  rw [decodeContent, mailHeaders, List.find?_map]
  have hpred : ((fun h => decide (h.key = contentTransferEncoding)) ∘
      fun h : Hdr => (⟨h.keyStr, h.valueStr⟩ : StringPair)) =
        fun h => decide (h.keyStr = bytes "Content-Transfer-Encoding") := rfl
  rw [hpred]
  cases (m.headers.toList.take m.headerCount).find?
      fun h => decide (h.keyStr = bytes "Content-Transfer-Encoding") with
  | none => rfl
  | some h => rfl

theorem decodeContent_caseVariant (base64Decode : Bytes → Bytes × Int) {m m' : Mail}
    (h : CaseVariant m m')
    (hfirst : exactIndex contentTransferEncoding (mailHeaders m) =
      exactIndex contentTransferEncoding (mailHeaders m')) :
    decodeContent base64Decode m = decodeContent base64Decode m' := by
  rw [decodeContent_eq, decodeContent_eq, find_exact_congr h.headers hfirst, h.body]

/-! ## Writing a name in another case -/

/-- The header with its name in lower case. -/
def lowerKey (h : Hdr) : Hdr := { h with key := h.key.map tolower }

/-- The header with its name written as `name`. -/
def writeKey (name : Bytes) (h : Hdr) : Hdr :=
  if h.keyStr.map tolower = name.map tolower then { h with key := memcpy h.key name } else h

def recase (f : Hdr → Hdr) (m : Mail) : Mail := { m with headers := m.headers.map f }

theorem lowerKey_keyStr (h : Hdr) : (lowerKey h).keyStr = h.keyStr.map tolower := by
  rw [Hdr.keyStr, Hdr.keyStr, lowerKey, Vector.toList_map, str, str, List.takeWhile_map]
  congr 2
  funext c
  simp [tolower_eq_zero]

theorem writeKey_keyStr {name : Bytes} (hnul : (0 : UInt8) ∉ name) (hlen : name.length < keyMaxLen)
    {h : Hdr} (hname : h.keyStr.map tolower = name.map tolower) : (writeKey name h).keyStr = name := by
  have hsame : (str h.key.toList).length = name.length := by
    simpa [Hdr.keyStr] using congrArg List.length hname
  -- the old terminator stays behind the new name
  have hshort : (str h.key.toList).length < h.key.toList.length := by
    rw [hsame, Vector.length_toList]
    exact hlen
  obtain ⟨rest, hrest⟩ := exists_terminator hshort
  have hdrop : h.key.toList.drop name.length = 0 :: rest := by
    rw [hrest, ← hsame, List.drop_left]
  rw [writeKey, if_pos hname, Hdr.keyStr, memcpy_toList _ (le_of_lt hlen), hdrop,
    str_append_nul hnul]

/-- A mail is a variant of itself with its names written in another case. -/
theorem caseVariant_recase {f : Hdr → Hdr} (m : Mail)
    (hkey : ∀ h, (f h).keyStr.map tolower = h.keyStr.map tolower)
    (hvalue : ∀ h, (f h).value = h.value) : CaseVariant m (recase f m) := by
  refine ⟨rfl, ?_, rfl⟩
  simp only [mailHeaders, recase, Vector.toList_map, ← List.map_take, List.map_map]
  refine List.map_congr_left fun h _ => ?_
  simp [lower, hkey, Hdr.valueStr, hvalue]

theorem caseVariant_lowerKey (m : Mail) : CaseVariant m (recase lowerKey m) := by
  refine caseVariant_recase m (fun h => ?_) fun _ => rfl
  rw [lowerKey_keyStr, List.map_map]
  exact List.map_congr_left fun c _ => tolower_tolower c

theorem caseVariant_writeKey {name : Bytes} (hnul : (0 : UInt8) ∉ name)
    (hlen : name.length < keyMaxLen) (m : Mail) : CaseVariant m (recase (writeKey name) m) := by
  refine caseVariant_recase m (fun h => ?_) fun h => ?_
  · by_cases hname : h.keyStr.map tolower = name.map tolower
    · rw [writeKey_keyStr hnul hlen hname, hname]
    · rw [writeKey, if_neg hname]
  · rw [writeKey]
    split <;> rfl

/-- A name with a capital letter is never found among lower-case names. -/
theorem exactIndex_lowerKey {name : Bytes} (hcapital : name.map tolower ≠ name) (m : Mail) :
    exactIndex name (mailHeaders (recase lowerKey m)) = none := by
  rw [exactIndex, List.findIdx?_eq_none_iff]
  intro h hmem
  simp only [mailHeaders, recase, Vector.toList_map, ← List.map_take, List.map_map,
    List.mem_map] at hmem
  obtain ⟨g, -, rfl⟩ := hmem
  have hne : (lowerKey g).keyStr ≠ name := by
    rw [lowerKey_keyStr]
    rintro rfl
    apply hcapital
    rw [List.map_map]
    exact List.map_congr_left fun c _ => tolower_tolower c
  simpa using hne

/-- The header that has the name in some case is found once it is written
exactly so. -/
theorem exactIndex_writeKey {name : Bytes} (hnul : (0 : UInt8) ∉ name)
    (hlen : name.length < keyMaxLen) {m : Mail} (h : HasName name m) :
    exactIndex name (mailHeaders (recase (writeKey name) m)) ≠ none := by
  obtain ⟨hdr, hmem, hname⟩ := h
  obtain ⟨g, hg, rfl⟩ := List.mem_map.mp hmem
  rw [exactIndex, Ne, List.findIdx?_eq_none_iff]
  intro hnone
  have hfound := hnone ⟨(writeKey name g).keyStr, (writeKey name g).valueStr⟩ (by
    simp only [mailHeaders, recase, Vector.toList_map, ← List.map_take, List.map_map, List.mem_map]
    exact ⟨g, hg, rfl⟩)
  rw [writeKey_keyStr hnul hlen hname] at hfound
  simp at hfound

/-- Two variants of a mail that has the name are not searched alike. -/
theorem exists_variant {name : Bytes} (hnul : (0 : UInt8) ∉ name) (hlen : name.length < keyMaxLen)
    (hcapital : name.map tolower ≠ name) {m : Mail} (h : HasName name m) :
    ∃ m', CaseVariant m m' ∧
      exactIndex name (mailHeaders m) ≠ exactIndex name (mailHeaders m') := by
  cases hfound : exactIndex name (mailHeaders m) with
  | some i =>
    exact ⟨recase lowerKey m, caseVariant_lowerKey m, by simp [exactIndex_lowerKey hcapital]⟩
  | none =>
    exact ⟨recase (writeKey name) m, caseVariant_writeKey hnul hlen m,
      (exactIndex_writeKey hnul hlen h).symm⟩

/-- Without the name, no variant of the mail is searched differently. -/
theorem exactIndex_of_not_hasName {name : Bytes} {m m' : Mail} (h : CaseVariant m m')
    (hno : ¬HasName name m) : exactIndex name (mailHeaders m) = exactIndex name (mailHeaders m') := by
  have hnone : ∀ headers : List StringPair, headers.map lower = (mailHeaders m).map lower →
      exactIndex name headers = none := by
    intro headers heq
    rw [exactIndex, List.findIdx?_eq_none_iff]
    intro g hg
    have hmem : lower g ∈ (mailHeaders m).map lower := heq ▸ List.mem_map_of_mem hg
    obtain ⟨g', hg', hlower⟩ := List.mem_map.mp hmem
    have hne : g.key ≠ name := by
      rintro rfl
      exact hno ⟨g', hg', congrArg StringPair.key hlower⟩
    simpa using hne
  rw [hnone _ rfl, hnone _ h.headers.symm]

/-! ## When the case of the names does not matter -/

/-- **Two mails whose names differ in case are treated alike exactly when both
`strcmp` lookups stop at the same header**; and all of them are, whatever the
variant, exactly when the mail has neither of the two names in any case. -/
theorem treatedAlike_iff (m : Mail) :
    (∀ m', CaseVariant m m' →
      (TreatedAlike m m' ↔ SameFirst dkimSignature m m' ∧ SameFirst contentTransferEncoding m m')) ∧
    ((∀ m', CaseVariant m m' → TreatedAlike m m') ↔
      ¬HasName dkimSignature m ∧ ¬HasName contentTransferEncoding m) := by
  have halike : ∀ m', CaseVariant m m' →
      exactIndex dkimSignature (mailHeaders m) = exactIndex dkimSignature (mailHeaders m') →
      exactIndex contentTransferEncoding (mailHeaders m) =
        exactIndex contentTransferEncoding (mailHeaders m') → TreatedAlike m m' := by
    intro m' hvariant hsig henc
    exact ⟨fun ssl dns blocks => validateDkim_caseVariant ssl dns blocks hvariant hsig,
      fun decode => decodeContent_caseVariant decode hvariant henc, hsig, henc,
      includedAt_congr hvariant.headers⟩
  constructor
  · intro m' hvariant
    rw [← exactIndex_eq_iff, ← exactIndex_eq_iff]
    exact ⟨fun h => ⟨h.signature, h.encoding⟩, fun h => halike m' hvariant h.1 h.2⟩
  · constructor
    · intro h
      constructor
      · intro hname
        obtain ⟨m', hvariant, hne⟩ :=
          exists_variant (by decide +kernel) (by decide +kernel) (by decide +kernel) hname
        exact hne (h m' hvariant).signature
      · intro hname
        obtain ⟨m', hvariant, hne⟩ :=
          exists_variant (by decide +kernel) (by decide +kernel) (by decide +kernel) hname
        exact hne (h m' hvariant).encoding
    · rintro ⟨hsig, henc⟩ m' hvariant
      exact halike m' hvariant (exactIndex_of_not_hasName hvariant hsig)
        (exactIndex_of_not_hasName hvariant henc)

section Examples

/-- A mail with a body of `QQ==` and one header. -/
def encodedMail (name : Bytes) : Mail :=
  { Mail.zero with
    headers := Mail.zero.headers.set 0 (Hdr.ofStrings name (bytes "base64"))
    headerCount := 1
    body := memcpy Mail.zero.body (bytes "QQ==") }

/-- The content of the second mail is not decoded: `strcmp` reads a null pointer. -/
theorem encoding_in_other_case :
    CaseVariant (encodedMail contentTransferEncoding)
        (encodedMail (bytes "Content-transfer-encoding")) ∧
      ¬TreatedAlike (encodedMail contentTransferEncoding)
        (encodedMail (bytes "Content-transfer-encoding")) := by
  have hcount : ∀ name, (encodedMail name).headerCount = 1 := fun _ => rfl
  have hbody : ∀ name, (encodedMail name).bodyStr = (encodedMail []).bodyStr := fun _ => rfl
  refine ⟨⟨by rw [hcount, hcount], by decide +kernel, by rw [hbody, ← hbody]⟩, fun h => ?_⟩
  have hdecode := h.decode fun _ => ([], 0)
  have hgot : decodeContent (fun _ => ([], 0)) (encodedMail contentTransferEncoding) =
      .got ([], 0) := by decide +kernel
  have hcrash : decodeContent (fun _ => ([], 0))
      (encodedMail (bytes "Content-transfer-encoding")) = .crash := by decide +kernel
  rw [hgot, hcrash] at hdecode
  cases hdecode

end Examples

end ComfirmDmarc.MailHandler
