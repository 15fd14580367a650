import ComfirmDmarc.Dkim.BodyCanon
import ComfirmDmarc.Dkim.HeaderCopies
import ComfirmDmarc.Dkim.Selection
import ComfirmDmarc.Dkim.SignatureRemoval
import ComfirmDmarc.Dkim.Unfolding
import ComfirmDmarc.MailHandler.KeyRecovery

/-!
# MailHandler -- mails that are signed as the standard says

A mail whose signature header is a tag list with the hash of the relaxed body
and a signature of the relaxed headers. When the tag list is read right, the
selection and the canonical forms are those of the standard and the texts fit
their blocks, `validate_dkim` accepts the mail.
-/

namespace ComfirmDmarc.MailHandler

open CMemory Dkim

/-! ## The value of `b=` -/

/-- A SP in a joined text has a word behind it. -/
theorem length_suffix_le (g : Gap) (s : Bytes) :
    ∀ q, q <:+ joinWords g s → q.length ≤ 2 * q.countP fun c => !isWsp c := by
  induction s generalizing g with
  | nil =>
    intro q h
    rw [joinWords, List.suffix_nil] at h
    simp [h]
  | cons c s ih =>
    by_cases hc : isWsp c = true
    · rw [joinWords_wsp hc]
      exact ih _
    · have hwhole := ih .word _ (List.suffix_refl _)
      have hcount : ((c :: joinWords .word s).countP fun c => !isWsp c) =
          ((joinWords .word s).countP fun c => !isWsp c) + 1 :=
        List.countP_cons_of_pos (by simpa using hc)
      intro q h
      have hshort : q <:+ c :: joinWords .word s → q.length ≤ 2 * q.countP fun c => !isWsp c := by
        intro h
        rcases List.suffix_cons_iff.mp h with rfl | h
        · rw [hcount, List.length_cons]
          omega
        · exact ih .word q h
      rw [joinWords_word hc] at h
      split at h
      · rcases List.suffix_cons_iff.mp h with rfl | h
        · rw [List.countP_cons_of_neg (by decide), hcount, List.length_cons, List.length_cons]
          omega
        · exact hshort h
      · exact hshort h

theorem withoutBlanks_joinWords (g : Gap) (s : Bytes) :
    withoutBlanks (joinWords g s) = withoutBlanks s := by
  induction s generalizing g with
  | nil => rw [joinWords]
  | cons c s ih =>
    by_cases hc : isWsp c = true
    · rw [joinWords_wsp hc, ih, withoutBlanks_cons, if_pos hc]
    · rw [joinWords_word hc]
      split
      · rw [withoutBlanks_cons, if_pos (by decide), withoutBlanks_cons, if_neg hc, ih,
          withoutBlanks_cons, if_neg hc]
      · rw [withoutBlanks_cons, if_neg hc, ih, withoutBlanks_cons, if_neg hc]

theorem withoutBlanks_canonicalB {f : SignatureField} (hcr : (13 : UInt8) ∉ f.b.value) :
    withoutBlanks f.canonicalB = withoutBlanks f.b.value := by
  rw [SignatureField.canonicalB, removeCrlf_of_not_mem hcr, withoutBlanks_joinWords]

/-- **A signature without line breaks is cut off**, wherever it has blanks: its
digits are too many for a `b=` to be found in what is searched of them. -/
theorem cutsAtB_of_base64 {f : SignatureField} (hback : f.back = []) (hclosing : f.closing = false)
    {signature : Bytes} (hne : signature ≠ []) (hb : withoutBlanks f.b.value = Base64.encode signature)
    (hcr : (13 : UInt8) ∉ f.b.value) (hshort : (Base64.encode signature).length < dkimValueMaxLen) :
    f.CutsAtB := by
  have hcanonical : f.canonicalB = joinWords .word f.b.value := by
    rw [SignatureField.canonicalB, removeCrlf_of_not_mem hcr]
  have hdigits : withoutBlanks f.canonicalB = Base64.encode signature := by
    rw [withoutBlanks_canonicalB hcr, hb]
  have hlong : 4 ≤ (Base64.encode signature).length := by
    have := List.length_pos_iff.mpr hne
    rw [Base64.encode_length]
    omega
  have hstored : f.storedLen = (Base64.encode signature).length := by
    rw [SignatureField.storedLen_of_last hback, hb]
    omega
  have hle : (Base64.encode signature).length ≤ f.canonicalB.length := by
    rw [← hdigits]
    exact List.length_filter_le _ _
  refine ⟨hback, hclosing, by omega, ?_⟩
  rw [hstored]
  rintro ⟨p, q, hpq⟩
  -- behind the `=` of a `b=` stands one more byte of padding at most, and a SP in front of it
  have hsplit : p ++ bytes "b=" ++
      (q ++ f.canonicalB.drop (f.canonicalB.length + 1 - (Base64.encode signature).length)) =
        f.canonicalB := by
    rw [← List.append_assoc, hpq, List.take_append_drop]
  generalize q ++ f.canonicalB.drop _ = rest at hsplit
  have hpad : Base64.encode signature =
      (withoutBlanks p ++ [98]) ++ Base64.pad :: withoutBlanks rest := by
    rw [← hdigits, ← hsplit]
    simp [withoutBlanks, bytes, isWsp, Base64.pad]
  have hbehind := Base64.length_behind_pad hpad
  have hrest := length_suffix_le .word f.b.value rest
    ⟨p ++ bytes "b=", by rw [hsplit, hcanonical]⟩
  rw [List.countP_eq_length_filter] at hrest
  have hlen := congrArg List.length hsplit
  have htake := congrArg List.length hpq
  have hb2 : (bytes "b=").length = 2 := by decide
  simp only [List.length_append, List.length_take, hb2] at hlen htake
  have hfilter : (rest.filter fun c => !isWsp c).length = (withoutBlanks rest).length := rfl
  omega

/-! ## Mails that are signed -/

/-- A tag of the list has the value `x`, but for folding. -/
def Gives (tags : List SigTag) (t : Tag) (x : Bytes) : Prop :=
  ∃ k ∈ tags, k.name = t.name ∧ withoutFolding k.value = x

theorem gives_of_mem {tags : List SigTag} {t : Tag} {x : Bytes}
    (h : (t.name, x) ∈ tags.map fun k => (k.name, withoutFolding k.value)) : Gives tags t x := by
  obtain ⟨k, hk, heq⟩ := List.mem_map.mp h
  obtain ⟨hname, hvalue⟩ := Prod.mk.inj heq
  exact ⟨k, hk, hname, hvalue⟩

/-- The tag without its value. -/
def clearedTag (k : SigTag) : SigTag := { k with value := [], value_chars := by simp }

/-- The header fields that the standard selects for `h=`. -/
def chosen (headers : List StringPair) (names : Bytes) : List StringPair :=
  (selection headers names).filterMap (headers[·]?)

/-- **The text that is signed**: the relaxed form of the selected header fields
and of the signature header, in which `b=` is empty. -/
def signedText (headers : List StringPair) (names : Bytes) (tags : List SigTag) (b : SigTag) :
    Bytes :=
  let signature : StringPair :=
    ⟨bytes "dkim-signature", listText (tags ++ [clearedTag b]) false⟩
  headerStr ((chosen headers names ++ [signature]).map relaxedField)

/-- **A mail that is signed as the standard says**, for `rsa-sha256`: the
signature header has the tags `tags` and then `b=`, and it is the first one. -/
structure HonestMail {Key : Type} (ssl : OpenSsl Key) (key : Key) where
  headers : List StringPair
  body : Bytes
  tags : List SigTag
  b : SigTag
  selector : Bytes
  domain : Bytes
  names : Bytes
  signature : Bytes
  found : findSignature headers = some ⟨bytes "DKIM-Signature", listText (tags ++ [b]) false⟩
  b_name : b.name = bytes "b"
  once : ∀ k ∈ tags, k.name ≠ bytes "b"
  gives_algorithm : Gives tags .a (bytes "rsa-sha256")
  gives_canonicalization : Gives tags .c (bytes "relaxed/relaxed")
  gives_selector : Gives tags .s selector
  gives_domain : Gives tags .d domain
  gives_names : Gives tags .h names
  gives_bodyHash : Gives tags .bh (Base64.encode (ssl.sha256 (relaxedBody body)).toList)
  gives_signature : withoutFolding b.value = Base64.encode signature
  signature_ne : signature ≠ []
  verifies : ssl.rsaVerify (ssl.sha256 (signedText headers names tags b)) signature key = 1

namespace HonestMail

variable {Key : Type} {ssl : OpenSsl Key} {key : Key} (m : HonestMail ssl key)

def allTags : List SigTag := m.tags ++ [m.b]

/-- The value of the signature header. -/
def value : Bytes := listText m.allTags false

def selected : List StringPair := chosen m.headers m.names

/-- **The mail that the verifier understands**: the tag list is short and read
right, each name is found or absent, the canonical forms are those of the
standard, and the headers fit their slots and their block. -/
structure Understood : Prop where
  short : m.value.length < dkimValueMaxLen
  reads : ReadsRight m.allTags
  names : NamesSound m.headers m.names
  slots : m.selected.length < incHeadersMax
  room : (headerText m.selected m.value).length ≤ 1500 * (m.selected.length + 1)
  headers_nul : ∀ h ∈ m.headers, (0 : UInt8) ∉ h.value
  headers_folds : ∀ h ∈ m.headers, FoldsOnly h.value
  headers_names : ∀ h ∈ m.headers, ¬EndsInBlank h.key
  body_nul : (0 : UInt8) ∉ m.body
  body_lines : CrOnlyInCrlf m.body

/-- The signature header as a list with one tag `b=`. -/
def field : SignatureField where
  front := m.tags.map fun k => ⟨k, [], nil_folding⟩
  b := m.b
  back := []
  closing := false
  b_name := m.b_name
  once := by
    intro k hk
    rw [List.append_nil, List.mem_map] at hk
    obtain ⟨k', hk', rfl⟩ := hk
    exact m.once k' hk'

end HonestMail

/-- A tag list in front of its last tag. -/
theorem listText_concat (tags : List SigTag) (k : SigTag) :
    listText (tags ++ [k]) false = (tags.map fun g => g.text ++ [59]).flatten ++ k.text := by
  have hplain : ∀ tags : List SigTag, listText tags false = [59].intercalate (tags.map SigTag.text) :=
    fun _ => List.append_nil _
  rw [hplain]
  induction tags with
  | nil => simp
  | cons g tags ih =>
    have hne : (tags ++ [k]).map SigTag.text ≠ [] := by simp
    obtain ⟨x, xs, hx⟩ := List.exists_cons_of_ne_nil hne
    rw [List.cons_append, List.map_cons, hx, List.intercalate_cons_cons, ← hx, ih]
    simp

namespace HonestMail

variable {Key : Type} {ssl : OpenSsl Key} {key : Key} (m : HonestMail ssl key)

theorem field_value : m.field.value = m.value := by
  rw [value, allTags, listText_concat, SignatureField.value_eq]
  simp [field, SignatureField.after, SpacedTag.text, SigTag.text, Function.comp_def]

theorem field_deleted : m.field.deleted = listText (m.tags ++ [clearedTag m.b]) false := by
  rw [listText_concat, SignatureField.deleted, SignatureField.withB]
  simp [field, SignatureField.before, SignatureField.after, SpacedTag.text, SigTag.text, clearedTag,
    m.b_name, Function.comp_def, bytes]

/-! ### What is read -/

end HonestMail

/-- A list of tags that the parser knows, each once and without line breaks, is
read right. -/
theorem readsRight_of_known {tags : List SigTag} (hknown : ∀ k ∈ tags, ∃ t : Tag, k.name = t.name)
    (honce : (tags.map SigTag.name).Nodup)
    (hlines : ∀ k ∈ tags, ∀ c ∈ k.value, c ≠ 13 ∧ c ≠ 10) : ReadsRight tags where
  absent k hk t x hseen := by
    obtain ⟨t', ht'⟩ := hknown k hk
    rw [SigTag.seen_text k ht', Option.some.injEq, Prod.mk.injEq] at hseen
    exact ⟨k, hk, hseen.1 ▸ ht'⟩
  present front k back t htags hname := by
    subst htags
    have hnone : lastValue t (back.filterMap fun g => seen g.text) = none := by
      by_contra hne
      obtain ⟨x, hx⟩ := Option.ne_none_iff_exists'.mp hne
      obtain ⟨g, hg, hseen⟩ := List.mem_filterMap.mp (mem_of_lastValue hx)
      obtain ⟨t', ht'⟩ := hknown g (by simp [hg])
      rw [SigTag.seen_text g ht', Option.some.injEq, Prod.mk.injEq] at hseen
      have hsame : k.name = g.name := by rw [hname, ht', hseen.1]
      rw [List.map_append, List.map_cons, List.nodup_append, List.nodup_cons] at honce
      exact honce.2.1.1 (hsame ▸ List.mem_map_of_mem hg)
    rw [hnone]
    exact hlines k (by simp)

/-- **A list that is read right gives the value of each of its tags.** -/
theorem lastValue_of_gives {tags : List SigTag} (hreads : ReadsRight tags) {t : Tag} {x : Bytes}
    (h : Gives tags t x) : lastValue t (tags.filterMap fun k => seen k.text) = some x := by
  obtain ⟨k, hk, hname, hx⟩ := h
  obtain ⟨front, back, rfl⟩ := List.append_of_mem hk
  have hpresent := hreads.present front k back t rfl hname
  rw [lastValue_of_split hname]
  cases hlater : lastValue t (back.filterMap fun g => seen g.text) with
  | none =>
    rw [hlater] at hpresent
    rw [Option.getD_none, (withoutBlanks_eq_withoutFolding_iff _).mpr hpresent, hx]
  | some y =>
    rw [hlater] at hpresent
    rw [Option.getD_some, hpresent, hx]

/-- The buffers after a list that is read right. -/
theorem parse_of_gives {tags : List SigTag} (hshort : (listText tags false).length < dkimValueMaxLen)
    (hreads : ReadsRight tags) {t : Tag} {x : Bytes} (h : Gives tags t x) (block : HeaderBlock) :
    (block.parse (listText tags false)).text t = x ∧
      (dkimParseHeader block.buffers (listText tags false)).text t = x := by
  have hlast := lastValue_of_gives hreads h
  have hvalues : lastValue t (signatureValues (listText tags false)) = some x := by
    rw [signatureValues, readTags_listText, List.nil_append, hlast]
  have hlen : x.length < dkimValueMaxLen := by
    obtain ⟨k, hk, -, rfl⟩ := h
    have hle : (withoutFolding k.value).length ≤ k.value.length := List.length_filter_le _ _
    have htext := text_length_le hk false
    rw [SigTag.text, List.length_append, List.length_cons] at htext
    omega
  refine ⟨?_, ?_⟩
  · rw [HeaderBlock.parse_text block (listText_nul tags false) hvalues,
      List.take_of_length_le (by omega)]
  · rw [dkimParseHeader_listText hshort, hlast, Option.getD_some]

/-- **The headers that are selected are those of the standard**, where each name
is found or absent. -/
theorem includeHeaders_of_sound {headers : List StringPair} {names : Bytes}
    (h : NamesSound headers names) : includeHeaders headers names = chosen headers names := by
  have hsame := (taken_eq_wanted_iff headers names).mpr h
  have heq : incHeaders headers names = selection headers names := by
    rw [incHeaders_eq, selection_eq]
    exact List.flatMap_congr fun j _ => hsame j
  rw [includeHeaders_eq, heq, chosen]

/-- A fold does not lie across a `=`. -/
theorem foldsOnly_of_append {u v : Bytes} (h : FoldsOnly (u ++ 61 :: v)) : FoldsOnly (u ++ [61]) := by
  intro front s hs
  have hlast : (13 :: s).getLast? = some 61 := by
    have := congrArg List.getLast? hs
    rw [List.getLast?_append_cons] at this
    simpa using this.symm
  have hfold := h front (s ++ v) (by
    rw [← List.cons_append, ← List.append_assoc, ← hs]
    simp)
  -- the LF and the blank stand in front of the `=`
  cases s with
  | nil => cases hlast
  | cons c s =>
    cases s with
    | nil =>
      obtain rfl : c = 61 := by simpa using hlast
      simp at hfold
    | cons d s => simpa using hfold

namespace HonestMail

variable {Key : Type} {ssl : OpenSsl Key} {key : Key} (m : HonestMail ssl key)

/-- The signature header on its way. -/
theorem mem_signature : (⟨bytes "DKIM-Signature", m.value⟩ : StringPair) ∈ m.headers :=
  List.mem_of_find?_eq_some m.found

theorem selected_subset : ∀ h ∈ m.selected, h ∈ m.headers := by
  intro h hh
  obtain ⟨i, -, hi⟩ := List.mem_filterMap.mp hh
  exact List.mem_of_getElem? hi

theorem headerText_deleted : headerText m.selected m.field.deleted = m.field.cut m.selected := by
  rw [SignatureField.deleted, SignatureField.headerText_withB _ _ (by simp)]
  simp [field, SignatureField.after, removeCrlf, joinWords]

/-- **The text that is signed, as the verifier builds it**: up to `b=`. -/
theorem signedText_eq (h : m.Understood) :
    signedText m.headers m.names m.tags m.b = m.field.cut m.selected := by
  have hmem : ∀ {P : StringPair → Prop}, (∀ hdr ∈ m.headers, P hdr) →
      P ⟨bytes "dkim-signature", m.field.deleted⟩ →
      ∀ hdr ∈ m.selected ++ [⟨bytes "dkim-signature", m.field.deleted⟩], P hdr := by
    intro P hheaders hsig hdr hhdr
    rcases List.mem_append.mp hhdr with hsel | hlast
    · exact hheaders hdr (m.selected_subset hdr hsel)
    · obtain rfl := List.mem_singleton.mp hlast
      exact hsig
  have hfolds : FoldsOnly m.field.deleted := by
    have hvalue := h.headers_folds _ m.mem_signature
    rw [← m.field_value] at hvalue
    have hcut : m.field.deleted = (m.field.before ++ bytes "b") ++ [61] ∧
        m.field.value = (m.field.before ++ bytes "b") ++ 61 :: m.b.value := by
      simp [SignatureField.deleted, SignatureField.value, SignatureField.withB,
        SignatureField.after, field, bytes]
    rw [hcut.2] at hvalue
    rw [hcut.1]
    exact foldsOnly_of_append hvalue
  have hname : ¬EndsInBlank (bytes "dkim-signature") := by
    unfold EndsInBlank
    decide
  have hcanon := (relaxedHeaderCanon_eq_iff
    (hmem h.headers_nul (m.field.withB_nul (by simp))) (hmem h.headers_folds hfolds)).mpr
      (hmem h.headers_names hname)
  rw [← m.headerText_deleted, headerText, hcanon, field_deleted]
  rfl

/-! ### What is hashed -/

theorem gives_all {t : Tag} {x : Bytes} (h : Gives m.tags t x) : Gives m.allTags t x := by
  obtain ⟨k, hk, hname, hx⟩ := h
  exact ⟨k, List.mem_append_left _ hk, hname, hx⟩

theorem gives_b : Gives m.allTags .b (Base64.encode m.signature) :=
  ⟨m.b, by simp [allTags], m.b_name, m.gives_signature⟩

/-- The last tag has no line break in it. -/
theorem b_plain (h : m.Understood) : ∀ c ∈ m.b.value, c ≠ 13 ∧ c ≠ 10 := by
  have hpresent := h.reads.present m.tags m.b [] .b rfl m.b_name
  rwa [List.filterMap_nil, lastValue_nil] at hpresent

theorem signature_pos : 0 < (Base64.encode m.signature).length := by
  have := List.length_pos_iff.mpr m.signature_ne
  rw [Base64.encode_length]
  omega

/-- The last tag in canonical form. -/
theorem withoutBlanks_b (h : m.Understood) :
    withoutBlanks m.b.value = Base64.encode m.signature ∧ (13 : UInt8) ∉ m.b.value := by
  have hplain := m.b_plain h
  refine ⟨?_, fun h13 => (hplain 13 h13).1 rfl⟩
  rw [← m.gives_signature]
  exact (withoutBlanks_eq_withoutFolding_iff _).mpr hplain

theorem cutsAtB (h : m.Understood) : m.field.CutsAtB := by
  have hlen : (Base64.encode m.signature).length < dkimValueMaxLen := by
    have hfilter : (Base64.encode m.signature).length ≤ m.b.value.length := by
      rw [← m.gives_signature]
      exact List.length_filter_le _ _
    have htext := text_length_le (show m.b ∈ m.allTags by simp [allTags]) false
    rw [SigTag.text, List.length_append, List.length_cons] at htext
    have hshort := h.short
    rw [value] at hshort
    omega
  obtain ⟨hdigits, hcr⟩ := m.withoutBlanks_b h
  exact cutsAtB_of_base64 rfl rfl m.signature_ne hdigits hcr hlen

/-- **The verifier hashes the text that is signed**, whatever its memory holds. -/
theorem removeSignature_eq (h : m.Understood) (block : HeaderBlock) (mem : Bytes) :
    removeSignature (headerText m.selected m.value) mem ((block.parse m.value).text .b).length =
      signedText m.headers m.names m.tags m.b := by
  obtain ⟨hblock, hbuffer⟩ := parse_of_gives h.short h.reads m.gives_b block
  have hback : m.field.back = [] := rfl
  have hclosing : m.field.closing = false := rfl
  have hhashed := (SignatureField.hashedText_iff_of_last hback hclosing block.buffers mem m.selected).mpr
    (.inl (m.cutsAtB h))
  rw [hashedText, field_value, headerText_deleted, ← m.signedText_eq h] at hhashed
  rwa [value, hblock, ← hbuffer, ← value]

/-- The signature is found in front of the end of the block. -/
theorem signatureEnd_fits (h : m.Understood) (block : HeaderBlock) (mem : Bytes) :
    ¬(signatureEnd (headerText m.selected m.value) mem
      ((block.parse m.value).text .b).length).any (1500 * (m.selected.length + 1) ≤ · + 1) := by
  have hremoved := m.removeSignature_eq h block mem
  rw [removeSignature, m.signedText_eq h] at hremoved
  have htext : headerText m.selected m.value = m.field.cut m.selected ++ m.field.canonicalB := by
    rw [← m.field_value, SignatureField.value, SignatureField.headerText_withB _ _ m.field.b_nul]
    simp [SignatureField.canonicalB, field, SignatureField.after]
  have hpos : 0 < m.field.canonicalB.length := by
    obtain ⟨hdigits, hcr⟩ := m.withoutBlanks_b h
    have hcanonical : withoutBlanks m.field.canonicalB = Base64.encode m.signature :=
      (withoutBlanks_canonicalB hcr).trans hdigits
    have hle : (withoutBlanks m.field.canonicalB).length ≤ m.field.canonicalB.length :=
      List.length_filter_le _ _
    rw [hcanonical] at hle
    exact lt_of_lt_of_le m.signature_pos hle
  have hroom := h.room
  rw [htext, List.length_append] at hroom
  cases hend : signatureEnd (headerText m.selected m.value) mem
      ((block.parse m.value).text .b).length with
  | none => simp
  | some i =>
    rw [hend] at hremoved
    have hlt : i < (headerText m.selected m.value ++ mem).length :=
      ((findB_eq_some_iff.mp hend).2.1).lt_length
    have hlen := congrArg List.length hremoved
    rw [List.length_take_of_le hlt] at hlen
    simp only [Option.any_some, decide_eq_true_eq]
    omega

/-! ### The verifier -/

/-- `BIO_f_base64` reads a wrapped text back. -/
theorem base64Decode_encode {signature : Bytes}
    (hread : ssl.bioRead (base64Wrap 0 (Base64.encode signature)) = signature) :
    base64Decode ssl (Base64.encode signature) = signature := by
  have hlen : signature.length ≤ (base64Wrap 0 (Base64.encode signature)).length := by
    have hwrap := length_le_base64Wrap 0 (Base64.encode signature)
    rw [Base64.encode_length] at hwrap
    omega
  rw [base64Decode, hread, List.take_of_length_le hlen]

/-- **`dkim_validate` accepts a mail that it understands.** -/
theorem dkimValidate_eq (h : m.Understood) (hssl : ssl.EncodesHash)
    (hread : ssl.bioRead (base64Wrap 0 (Base64.encode m.signature)) = m.signature)
    {publicKey : Bytes} (hkey : ssl.readPubkey publicKey = some key) (block : HeaderBlock)
    (strMem : Bytes) :
    dkimValidate ssl strMem m.headers m.body (block.parse m.value).text publicKey = .ok 1 := by
  have hdh : ∀ {t : Tag} {x : Bytes}, Gives m.tags t x → (block.parse m.value).text t = x :=
    fun ht => (parse_of_gives h.short h.reads (m.gives_all ht) block).1
  have hb : (block.parse m.value).text .b = Base64.encode m.signature :=
    (parse_of_gives h.short h.reads m.gives_b block).1
  have hincluded : includeHeaders m.headers ((block.parse m.value).text .h) = m.selected := by
    rw [hdh m.gives_names]
    exact includeHeaders_of_sound h.names
  have hcheck : dkimCheckCompability (block.parse m.value).text = true := by
    rw [dkimCheckCompability, hdh m.gives_algorithm, hdh m.gives_canonicalization]
    decide
  have hbody : dkimValidateBodyHash ssl (block.parse m.value).text m.body = true := by
    rw [dkimValidateBodyHash, hdh m.gives_bodyHash, base64Encode_hash hssl, bodyDigest,
      relaxedBodyCanon_eq h.body_nul h.body_lines, startsWith_iff]
  have hslots := h.slots
  have htext : headerStr (signedHeaders m.headers ((block.parse m.value).text .h)
      ⟨bytes "DKIM-Signature", m.value⟩) = headerText m.selected m.value := by
    rw [signedHeaders, hincluded, headerText]
  have hfound : findSignature m.headers = some ⟨bytes "DKIM-Signature", m.value⟩ := m.found
  rw [dkimValidate]
  simp only [hincluded, hcheck, hbody, hfound, htext, not_true_eq_false, if_false]
  rw [if_neg (by omega), if_neg (by omega), verifyHeaderStr]
  have hroom : ¬(1500 * (m.selected.length + 1) < (headerText m.selected m.value).length ∨
      (signatureEnd (headerText m.selected m.value)
        (strMem.drop (headerText m.selected m.value).length)
        ((block.parse m.value).text .b).length).any (1500 * (m.selected.length + 1) ≤ · + 1)) := by
    rintro (hlong | hend)
    · exact absurd h.room (Nat.not_le.mpr hlong)
    · exact m.signatureEnd_fits h block _ hend
  simp only [if_neg hroom, m.removeSignature_eq h block]
  rw [hb, base64Decode_encode hread, if_neg m.signature_ne]
  simp only [hkey, m.verifies]

end HonestMail

/-! ## The key record -/

/-- The buffers of a record that was recovered end inside of themselves. -/
theorem recordString_eq {record : List Segment} (hrecord : KeyRecord record) {dr : DkimRecord}
    (htext : ∀ t, dr.text t = keyValue record t) (behind : Bytes) (t : DnsTag) :
    recordString dr behind t = keyValue record t := by
  have hshort : ∀ t, (str (dr t).toList).length < (dr t).toList.length := by
    intro t
    have hfits := hrecord.fits t
    rw [← htext t, DkimRecord.text] at hfits
    rwa [Vector.length_toList]
  cases t with
  | k => rw [recordString, List.append_assoc, str_append_of_lt (hshort .k), ← htext, DkimRecord.text]
  | p => rw [recordString, str_append_of_lt (hshort .p), ← htext, DkimRecord.text]

/-- `validate_dkim` on a mail that it understands, when the key record is
recovered. -/
theorem HonestMail.validateDkim_eq {Key : Type} {ssl : OpenSsl Key} {key : Key}
    (m : HonestMail ssl key) (h : m.Understood) (hssl : ssl.EncodesHash)
    (hread : ssl.bioRead (base64Wrap 0 (Base64.encode m.signature)) = m.signature)
    {dns : Bytes → DnsAnswer} {record : List Segment} {strings : List Bytes}
    (hdns : dns (m.selector ++ bytes "._domainkey." ++ m.domain) =
      .record nsCIn nsTTxt (rdata strings))
    (hrecord : KeyRecord record) (hrecovered : Recovered record strings)
    (hrsa : keyValue record .k = bytes "rsa")
    (hkey : ssl.readPubkey (publicKeyPem (keyValue record .p)) = some key)
    {message : Mail} (hcount : message.headerCount ≤ headerMaxLen)
    (hheaders : mailHeaders message = m.headers) (hbody : message.bodyStr = m.body)
    (blocks : Blocks) : validateDkim ssl dns blocks message = .ok 1 := by
  obtain ⟨txt, htxt, hvalues⟩ := hrecovered blocks.record
  have hstrings := recordString_eq hrecord hvalues blocks.behindRecord
  have hdh : ∀ {t : Tag} {x : Bytes}, Gives m.tags t x →
      (blocks.header.parse m.value).text t = x :=
    fun ht => (parse_of_gives h.short h.reads (m.gives_all ht) blocks.header).1
  have hparsed : dkimGetHeader blocks.header.buffers m.headers =
      some (dkimParseHeader blocks.header.buffers m.value) := by
    rw [dkimGetHeader, m.found]
    rfl
  have hdomain : keyDomain (blocks.header.parse m.value).text =
      m.selector ++ bytes "._domainkey." ++ m.domain := by
    rw [keyDomain, hdh m.gives_selector, hdh m.gives_domain]
  have haccepted := m.dkimValidate_eq h hssl hread hkey blocks.header blocks.strMem
  rw [validateDkim, if_neg (Nat.not_lt.mpr hcount)]
  simp only [hheaders, hbody, hparsed]
  change validateSignature ssl dns blocks m.headers m.body (blocks.header.parse m.value).text = _
  rw [validateSignature, hdomain, hdns, htxt]
  simp only [hstrings, hrsa, haccepted]
  rfl

/-- **A mail that is signed as the standard says is accepted**, when the
verifier understands it and the key record of its domain is recovered: whatever
the memory holds, `validate_dkim` returns 1. -/
theorem honest_mail_accepted {Key : Type} {ssl : OpenSsl Key} {key : Key} (m : HonestMail ssl key)
    (h : m.Understood) (hssl : ssl.EncodesHash)
    (hread : ssl.bioRead (base64Wrap 0 (Base64.encode m.signature)) = m.signature)
    {dns : Bytes → DnsAnswer} {record : List Segment} {strings : List Bytes}
    (hdns : dns (m.selector ++ bytes "._domainkey." ++ m.domain) =
      .record nsCIn nsTTxt (rdata strings))
    (hrecord : KeyRecord record) (hrecovered : Recovered record strings)
    (hrsa : keyValue record .k = bytes "rsa")
    (hkey : ssl.readPubkey (publicKeyPem (keyValue record .p)) = some key)
    {message : Mail} (hcount : message.headerCount ≤ headerMaxLen)
    (hheaders : mailHeaders message = m.headers) (hbody : message.bodyStr = m.body)
    (blocks : Blocks) : validateDkim ssl dns blocks message = .ok 1 :=
  m.validateDkim_eq h hssl hread hdns hrecord hrecovered hrsa hkey hcount hheaders hbody blocks

section Examples

/-- The characters that a tag may have, behind a gap. -/
def TagChars (lead name value : Bytes) : Prop :=
  (∀ c ∈ lead, isFolding c = true) ∧ name ≠ [] ∧
    (∀ c ∈ name, c ≠ 0 ∧ c ≠ 59 ∧ c ≠ 61 ∧ isFolding c = false) ∧ ∀ c ∈ value, c ≠ 0 ∧ c ≠ 59

instance (lead name value : Bytes) : Decidable (TagChars lead name value) :=
  inferInstanceAs (Decidable ((∀ c ∈ lead, isFolding c = true) ∧ name ≠ [] ∧
    (∀ c ∈ name, c ≠ 0 ∧ c ≠ 59 ∧ c ≠ 61 ∧ isFolding c = false) ∧ ∀ c ∈ value, c ≠ 0 ∧ c ≠ 59))

def sigTag (lead name value : Bytes) (h : TagChars lead name value) : SigTag :=
  ⟨lead, name, value, h.1, h.2.1, h.2.2.1, h.2.2.2⟩

/-- The tags of the mail `pay 10`. -/
def payTags : List SigTag :=
  [sigTag [] (bytes "v") (bytes "1") (by decide +kernel),
    sigTag [32] (bytes "a") (bytes "rsa-sha256") (by decide +kernel),
    sigTag [32] (bytes "c") (bytes "relaxed/relaxed") (by decide +kernel),
    sigTag [32] (bytes "d") (bytes "a.se") (by decide +kernel),
    sigTag [32] (bytes "s") (bytes "k") (by decide +kernel),
    sigTag [32] (bytes "h") (bytes "from") (by decide +kernel),
    sigTag [32] (bytes "bh") (Base64.encode demoHash.toList) (by decide +kernel)]

def payB : SigTag := sigTag [32] (bytes "b") (Base64.encode demoSignature) (by decide +kernel)

/-- The headers of the mail, of which the first one is signed. -/
def payHeaders : List StringPair :=
  [⟨bytes "From", bytes "a@a.se"⟩,
    ⟨bytes "DKIM-Signature", demoTags ++ Base64.encode demoSignature⟩]

/-- The key of `a.se`, without its lines. -/
def payKey : Bytes :=
  [77, 70, 119, 119, 68, 81, 89, 74, 75, 111, 90, 73, 104, 118, 99, 78, 65, 81, 69, 66, 66, 81,
    65, 68, 83, 119, 65, 119, 83, 65, 74, 66, 65, 76, 107, 53, 100, 67, 57, 122, 115, 47, 102,
    79, 67, 108, 87, 102, 52, 65, 66, 99, 114, 121, 121, 56, 112, 56, 70, 85, 47, 105, 105, 74,
    68, 104, 74, 73, 75, 71, 73, 68, 120, 105, 65, 109, 69, 65, 115, 82, 116, 99, 51, 68, 72,
    104, 102, 106, 56, 100, 108, 83, 102, 116, 104, 113, 72, 104, 114, 57, 75, 102, 102, 121,
    110, 85, 108, 98, 70, 121, 120, 71, 100, 106, 76, 75, 100, 79, 56, 67, 65, 119, 69, 65, 65,
    81, 61, 61]

/-- OpenSSL that reads the key, in the lines that the mail handler makes of it. -/
def paySsl : OpenSsl Unit :=
  { demoSsl with readPubkey := fun text => if text = publicKeyPem payKey then some () else none }

/-- The tags are known, each is given once, and the list is the header of the signed mail. -/
theorem payTags_facts :
    listText (payTags ++ [payB]) false = demoTags ++ Base64.encode demoSignature ∧
      (listText (payTags ++ [payB]) false).length < dkimValueMaxLen ∧
      (∀ k ∈ payTags, k.name ≠ bytes "b") ∧
      withoutFolding payB.value = Base64.encode demoSignature ∧
      (∀ k ∈ payTags ++ [payB], ∃ t ∈ Tag.all, k.name = t.name) ∧
      ((payTags ++ [payB]).map SigTag.name).Nodup ∧
      (∀ k ∈ payTags ++ [payB], ∀ c ∈ k.value, c ≠ 13 ∧ c ≠ 10) ∧
      (payTags.map fun k => (k.name, withoutFolding k.value)) =
        [(Tag.v.name, bytes "1"), (Tag.a.name, bytes "rsa-sha256"),
          (Tag.c.name, bytes "relaxed/relaxed"), (Tag.d.name, bytes "a.se"),
          (Tag.s.name, bytes "k"), (Tag.h.name, bytes "from"),
          (Tag.bh.name, Base64.encode demoHash.toList)] := by
  decide +kernel

theorem payValue : listText (payTags ++ [payB]) false = demoTags ++ Base64.encode demoSignature :=
  payTags_facts.1

/-- The signed text, what `h=` selects, and the fields of the mail. -/
theorem payHeaders_facts :
    signedText payHeaders (bytes "from") payTags payB =
        bytes "from:a@a.se\r\ndkim-signature:" ++ demoTags ∧
      relaxedBody (bytes "pay 10\r\n") = bytes "pay 10\r\n" ∧
      (bytes "from").splitOn 58 = [bytes "from"] ∧ headerNames [] (bytes "from") = [bytes "from"] ∧
      chosen payHeaders (bytes "from") = [⟨bytes "From", bytes "a@a.se"⟩] ∧
      (∀ e < payHeaders.length,
        startsWith (nameAt payHeaders e) (bytes "from") = true ↔ e = 0) ∧
      nameAt payHeaders 0 = bytes "from" ∧
      (∀ h ∈ payHeaders, (0 : UInt8) ∉ h.key ∧ (0 : UInt8) ∉ h.value ∧ (13 : UInt8) ∉ h.value ∧
        h.key.length < keyMaxLen ∧ h.value.length < valueMaxLen ∧
        h.key.getLast?.any isWsp = false) ∧
      (0 : UInt8) ∉ bytes "pay 10\r\n" := by
  decide +kernel

theorem paySignedText : signedText payHeaders (bytes "from") payTags payB =
    bytes "from:a@a.se\r\ndkim-signature:" ++ demoTags :=
  payHeaders_facts.1

/-- The hash of the body is in `bh=`. -/
theorem payBody : paySsl.sha256 (relaxedBody (bytes "pay 10\r\n")) = demoHash := by
  rw [payHeaders_facts.2.1]
  rfl

theorem payFound : findSignature payHeaders =
    some ⟨bytes "DKIM-Signature", listText (payTags ++ [payB]) false⟩ := by
  rw [payValue]
  simp [findSignature, payHeaders, show bytes "From" ≠ bytes "DKIM-Signature" by decide]

/-- The key verifies the signature. -/
theorem payVerifies : paySsl.rsaVerify
    (paySsl.sha256 (signedText payHeaders (bytes "from") payTags payB)) demoSignature () = 1 := by
  have hverify : demoSsl.rsaVerify demoHeaderHash demoSignature () = 1 := by simp [demoSsl]
  rw [paySignedText, show paySsl.sha256 = demoSsl.sha256 from rfl, demoSsl_header]
  exact hverify

theorem payGives : Gives payTags .a (bytes "rsa-sha256") ∧
    Gives payTags .c (bytes "relaxed/relaxed") ∧ Gives payTags .s (bytes "k") ∧
    Gives payTags .d (bytes "a.se") ∧ Gives payTags .h (bytes "from") ∧
    Gives payTags .bh (Base64.encode demoHash.toList) := by
  have hvalues := payTags_facts.2.2.2.2.2.2.2
  refine ⟨?_, ?_, ?_, ?_, ?_, ?_⟩ <;> exact gives_of_mem (by rw [hvalues]; simp)

def payMail : HonestMail paySsl () where
  headers := payHeaders
  body := bytes "pay 10\r\n"
  tags := payTags
  b := payB
  selector := bytes "k"
  domain := bytes "a.se"
  names := bytes "from"
  signature := demoSignature
  found := payFound
  b_name := rfl
  once := payTags_facts.2.2.1
  gives_algorithm := payGives.1
  gives_canonicalization := payGives.2.1
  gives_selector := payGives.2.2.1
  gives_domain := payGives.2.2.2.1
  gives_names := payGives.2.2.2.2.1
  gives_bodyHash := payBody.symm ▸ payGives.2.2.2.2.2
  gives_signature := payTags_facts.2.2.2.1
  signature_ne := List.cons_ne_nil _ _
  verifies := payVerifies

theorem payMail_reads : ReadsRight payMail.allTags := by
  obtain ⟨-, -, -, -, hnames, honce, hlines, -⟩ := payTags_facts
  refine readsRight_of_known (fun k hk => ?_) honce hlines
  obtain ⟨t, -, ht⟩ := hnames k hk
  exact ⟨t, ht⟩

theorem payMail_names : NamesSound payMail.headers payMail.names := by
  obtain ⟨-, -, hsplit, hnames, -, hfirst, hname0, -⟩ := payHeaders_facts
  intro j name read hname hread
  cases j with
  | zero =>
    obtain rfl : bytes "from" = name := by simpa [payMail, hsplit] using hname
    obtain rfl : bytes "from" = read := by simpa [payMail, hnames] using hread
    exact .inl ⟨⟨by decide, by simp, 0, by decide, hname0, fun e he => (hfirst e he).mp⟩, rfl⟩
  | succ j => simp [payMail, hsplit] at hname

/-- The values of the headers have no line breaks. -/
theorem payMail_folds : ∀ h ∈ payMail.headers, FoldsOnly h.value := by
  intro h hh front s hvalue
  obtain ⟨-, -, hcr, -⟩ := payHeaders_facts.2.2.2.2.2.2.2.1 h hh
  exact absurd (hvalue ▸ by simp) hcr

theorem payMail_lines : CrOnlyInCrlf payMail.body := by
  have hall : ∀ i < 8, (bytes "pay 10\r\n")[i]? = some (13 : UInt8) →
      (bytes "pay 10\r\n")[i + 1]? = some (10 : UInt8) := by decide
  intro i hi
  obtain ⟨hlt, -⟩ := List.getElem?_eq_some_iff.mp hi
  exact hall i hlt hi

theorem payMail_room : (headerText payMail.selected payMail.value).length ≤
    1500 * (payMail.selected.length + 1) := by
  have hvalue : payMail.value = demoTags ++ Base64.encode demoSignature := payValue
  have hselected : payMail.selected = [⟨bytes "From", bytes "a@a.se"⟩] :=
    payHeaders_facts.2.2.2.2.1
  obtain ⟨⟨hcr, hfrom, -⟩, hroom, -⟩ := demo_reads.1
  rw [← demoMail_dh [] signed_nul] at hfrom
  have htext := demoMail_text signed_nul hcr hfrom
  rw [SignedMail.text, hfrom, signedHeaders, demoMail_included] at htext
  rw [headerText, hselected, hvalue, List.length_singleton]
  change headerStr (relaxedHeaderCanon ([⟨bytes "From", bytes "a@a.se"⟩] ++
    [⟨bytes "dkim-signature", demoTags ++ Base64.encode demoSignature⟩])) = _ at htext
  rw [htext]
  exact hroom

theorem payMail_understood : payMail.Understood where
  short := payTags_facts.2.1
  reads := payMail_reads
  names := payMail_names
  slots := by
    show (chosen payHeaders (bytes "from")).length < incHeadersMax
    rw [payHeaders_facts.2.2.2.2.1]
    decide
  room := payMail_room
  headers_nul h hh := (payHeaders_facts.2.2.2.2.2.2.2.1 h hh).2.1
  headers_folds := payMail_folds
  headers_names h hh := by
    obtain ⟨-, -, -, -, -, hkey⟩ := payHeaders_facts.2.2.2.2.2.2.2.1 h hh
    rw [EndsInBlank, hkey]
    decide
  body_nul := payHeaders_facts.2.2.2.2.2.2.2.2
  body_lines := payMail_lines

/-- The characters that a tag of a key record may have. -/
def KeyTagChars (name value : Bytes) : Prop :=
  name ≠ [] ∧ (∀ c ∈ name, isNameChar c = true) ∧ ∀ c ∈ value, isValueChar c = true

instance (name value : Bytes) : Decidable (KeyTagChars name value) :=
  inferInstanceAs (Decidable
    (name ≠ [] ∧ (∀ c ∈ name, isNameChar c = true) ∧ ∀ c ∈ value, isValueChar c = true))

def keyTag (name value : Bytes) (h : KeyTagChars name value) : Segment :=
  MailHandler.plainTag name value h.1 h.2.1 h.2.2

/-- `k=rsa;p=…` -/
def payRecord : List Segment :=
  [keyTag [107] (bytes "rsa") (by decide +kernel), keyTag [112] payKey (by decide +kernel)]

theorem payRecord_keyRecord : KeyRecord payRecord where
  once t := by cases t <;> decide +kernel
  fits t := by cases t <;> decide +kernel

/-- The record in one character-string, the length of which is kept. -/
theorem payRecord_recovered : Recovered payRecord [recordText payRecord] := by
  have htxt : dnsGettxt (.record nsCIn nsTTxt (rdata [recordText payRecord])) =
      some (136 :: recordText payRecord) := by decide +kernel
  intro mem
  refine ⟨_, htxt, fun t => ?_⟩
  have hread : recordValues (136 :: recordText payRecord) =
      [(.k, bytes "rsa"), (.p, payKey)] := by
    have hsplit : 136 :: recordText payRecord = [136] ++ DnsTag.char .k :: 61 :: (bytes "rsa" ++
        59 :: DnsTag.char .p :: 61 :: payKey) := by decide +kernel
    rw [hsplit, recordValues_skip (by decide +kernel) (by decide), recordValues_char,
      TagScan.values_field _ _ _ (by decide +kernel), ← recordValues, recordValues_char,
      TagScan.values_lastField _ _ _ (by decide +kernel)]
    decide +kernel
  have hlast : TagScan.lastValue t [(.k, bytes "rsa"), (.p, payKey)] =
      some (keyValue payRecord t) := by cases t <;> decide +kernel
  have hfits := payRecord_keyRecord.fits t
  rw [dkimParseDns_text mem (by decide +kernel), hread, hlast, TagScan.held,
    List.take_of_length_le (by omega)]

/-- The resolver finds the record. -/
def payDns (_ : Bytes) : DnsAnswer := .record nsCIn nsTTxt (rdata [recordText payRecord])

theorem payHeaders_fit : ∀ h ∈ payHeaders, h.Fits := by
  intro h hh
  obtain ⟨hk, hv, -, hklen, hvlen, -⟩ := payHeaders_facts.2.2.2.2.2.2.2.1 h hh
  exact ⟨hk, hv, hklen, hvlen⟩

/-- What `BIO_f_base64` makes of the signature. -/
theorem payRead : paySsl.bioRead (base64Wrap 0 (Base64.encode payMail.signature)) =
    payMail.signature := by
  decide +kernel

theorem paySsl_encodesHash : paySsl.EncodesHash := fun _ => rfl

/-- The mail `pay 10` is accepted. -/
theorem honest_mail_accepted_pay :
    validateDkim paySsl payDns .zero (mailOf payHeaders (bytes "pay 10\r\n")) = .ok 1 := by
  have hheaders := mailHeaders_mailOf (by decide) payHeaders_fit (bytes "pay 10\r\n")
  have hbody : (mailOf payHeaders (bytes "pay 10\r\n")).bodyStr = bytes "pay 10\r\n" :=
    bodyStr_mailOf payHeaders (by decide) (by decide)
  have hkey : paySsl.readPubkey (publicKeyPem (keyValue payRecord .p)) = some () := by
    decide +kernel
  exact honest_mail_accepted payMail payMail_understood paySsl_encodesHash payRead rfl
    payRecord_keyRecord payRecord_recovered (by decide +kernel) hkey (by decide) hheaders hbody .zero

end Examples

end ComfirmDmarc.MailHandler
