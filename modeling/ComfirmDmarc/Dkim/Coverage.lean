import ComfirmDmarc.Dkim.Validate
import ComfirmDmarc.Dkim.TagReading

/-!
# Dkim -- what a signature covers

The verifier acts on tags that it reads from the whole `DKIM-Signature` value,
but it hashes that value only up to the last `b=` it finds. What is read behind
that cut, and what is not read at all, is not determined by the hashed octets;
everything else is.
-/

namespace ComfirmDmarc.Dkim

open CMemory

/-! ## One call of the verifier -/

/-- A mail with a signature header, and the blocks that `malloc` returns for
`dkim_header` and `header_str`. -/
structure SignedMail where
  headers : List StringPair
  body : Bytes
  dhMem : DkimHeader
  strMem : Bytes
  sig : StringPair
  found : findSignature headers = some sig
  nul : (0 : UInt8) ∉ sig.value

namespace SignedMail

/-- The header that `dkim_get_header` parses. -/
def dh (m : SignedMail) : DkimHeader := dkimParseHeader m.dhMem m.sig.value

theorem dkimGetHeader_eq (m : SignedMail) : dkimGetHeader m.dhMem m.headers = some m.dh := by
  rw [dkimGetHeader, m.found]
  rfl

/-- `header_str` before the old signature is removed. -/
def text (m : SignedMail) : Bytes := headerStr (signedHeaders m.headers (m.dh.text .h) m.sig)

/-- The string that is hashed. -/
def hashed (m : SignedMail) : Bytes :=
  removeSignature m.text (m.strMem.drop m.text.length) (m.dh.text .b).length

/-- The decoded signature. -/
def signature {Key : Type} (ssl : OpenSsl Key) (m : SignedMail) : Bytes :=
  base64Decode ssl (m.dh.text .b)

/-- `dkim_validate` returns non-zero. -/
def Accepted {Key : Type} (ssl : OpenSsl Key) (publicKey : Bytes) (m : SignedMail) : Prop :=
  ∃ retval, dkimValidate ssl m.strMem m.headers m.body m.dh.text publicKey = .ok retval ∧ retval ≠ 0

/-! ## Covered and uncovered tags -/

/-- The canonical value of the signature header. -/
def canonical (m : SignedMail) : Bytes := relaxedValue m.sig.value

/-- How much of the canonical value is hashed. -/
def coveredLen (m : SignedMail) : Nat := m.hashed.length - (m.text.length - m.canonical.length)

def covered (m : SignedMail) : Bytes := m.canonical.take m.coveredLen

def behind (m : SignedMail) : Bytes := m.canonical.drop m.coveredLen

/-- What is read from the covered octets. -/
def coveredReading (m : SignedMail) : Reading := readTags ⟨[], none⟩ m.covered

/-- The values that end behind the covered octets. -/
def laterValues (m : SignedMail) : List (Tag × Bytes) :=
  (readTags ⟨[], m.coveredReading.cur⟩ m.behind).all

/-- **The covered octets do not determine the tag**: its value ends behind
them, or there is none. -/
def Uncovered (m : SignedMail) (t : Tag) : Prop :=
  lastValue t m.laterValues ≠ none ∨ lastValue t m.coveredReading.done = none

/-- What is read for a tag. -/
def tagText (m : SignedMail) (t : Tag) : Bytes :=
  bufferText m.dhMem (m.coveredReading.done ++ m.laterValues) t

end SignedMail

/-! ## The hashed string -/

/-- The loop stops here: `b=` ends at `j`. -/
def EndsB (text : Bytes) (j : Nat) : Prop := 1 < j ∧ text.getD j 0 = 61 ∧ text.getD (j - 1) 0 = 98

theorem findB_eq_some_iff {text : Bytes} {i j : Nat} :
    findB text i = some j ↔ j ≤ i ∧ EndsB text j ∧ ∀ k, j < k → k ≤ i → ¬EndsB text k := by
  induction i with
  | zero =>
    refine ⟨nofun, ?_⟩
    rintro ⟨hle, ⟨hone, -⟩, -⟩
    omega
  | succ i ih =>
    rw [findB]
    by_cases hfound : 1 < i + 1 ∧ text.getD (i + 1) 0 = 61 ∧ text.getD i 0 = 98
    · rw [if_pos hfound]
      constructor
      · intro h
        obtain rfl : i + 1 = j := by simpa using h
        exact ⟨le_refl _, hfound, fun k hk hle => by omega⟩
      · rintro ⟨hle, -, hnone⟩
        rcases Nat.le_succ_iff.mp hle with hlt | rfl
        · exact absurd hfound (hnone (i + 1) (by omega) (le_refl _))
        · rfl
    · rw [if_neg hfound, ih]
      constructor
      · rintro ⟨hle, hends, hnone⟩
        refine ⟨by omega, hends, fun k hk hle' => ?_⟩
        rcases Nat.le_succ_iff.mp hle' with hlt | rfl
        · exact hnone k hk hlt
        · exact hfound
      · rintro ⟨hle, hends, hnone⟩
        rcases Nat.le_succ_iff.mp hle with hlt | rfl
        · exact ⟨hlt, hends, fun k hk hle' => hnone k hk (by omega)⟩
        · exact absurd hends hfound

theorem findB_eq_none_iff {text : Bytes} {i : Nat} :
    findB text i = none ↔ ∀ k ≤ i, ¬EndsB text k := by
  constructor
  · intro h k hk hends
    -- the greatest such place would have been found
    induction i with
    | zero => exact absurd hends.1 (by omega)
    | succ i ih =>
      rw [findB] at h
      split at h
      · cases h
      · next hno =>
        rcases Nat.le_succ_iff.mp hk with hlt | rfl
        · exact ih h hlt
        · exact hno hends
  · intro h
    cases hfind : findB text i with
    | none => rfl
    | some j =>
      obtain ⟨hle, hends, -⟩ := findB_eq_some_iff.mp hfind
      exact absurd hends (h j hle)

theorem EndsB.lt_length {text : Bytes} {j : Nat} (h : EndsB text j) : j < text.length := by
  by_contra hge
  have hnone := h.2.1
  rw [List.getD_eq_default _ _ (by omega)] at hnone
  exact absurd hnone (by decide)

theorem EndsB.suffix_take {text : Bytes} {j : Nat} (h : EndsB text j) :
    [98, 61] <:+ text.take (j + 1) := by
  have hlt := h.lt_length
  obtain ⟨hone, heq, hb⟩ := h
  obtain ⟨i, rfl⟩ : ∃ i, j = i + 1 := ⟨j - 1, by omega⟩
  rw [Nat.add_sub_cancel] at hb
  rw [List.getD_eq_getElem _ _ hlt] at heq
  rw [List.getD_eq_getElem _ _ (by omega)] at hb
  refine ⟨text.take i, ?_⟩
  rw [← List.take_concat_get' text (i + 1) hlt, ← List.take_concat_get' text i (by omega), heq, hb]
  simp

/-- A text is cut behind a `b=`, or not at all. -/
theorem removeSignature_shape (text mem : Bytes) {bLen : Nat} (hb : 0 < bLen) :
    ∃ n ≤ text.length, removeSignature text mem bLen = text.take n ∧
      (n = text.length ∨ [98, 61] <:+ text.take n) := by
  rw [removeSignature]
  cases hfind : signatureEnd text mem bLen with
  | none => exact ⟨text.length, le_refl _, by simp, .inl rfl⟩
  | some j =>
    obtain ⟨hle, hends, -⟩ := findB_eq_some_iff.mp hfind
    have hlt : j < text.length := by
      have := hends.1
      omega
    have htake : (text ++ mem).take (j + 1) = text.take (j + 1) :=
      List.take_append_of_le_length (by omega)
    exact ⟨j + 1, hlt, htake, .inr (htake ▸ hends.suffix_take)⟩

/-- The lines in front of the last header. -/
def frontLines (headers : List StringPair) : Bytes := (headers.map fun h => h.line ++ crlf).flatten

theorem headerStr_concat (headers : List StringPair) (h : StringPair) :
    headerStr (headers ++ [h]) = frontLines headers ++ h.line := by
  induction headers with
  | nil => rfl
  | cons g headers ih =>
    have hcons : headerStr (g :: (headers ++ [h])) = g.line ++ crlf ++ headerStr (headers ++ [h]) := by
      cases headers <;> rfl
    rw [List.cons_append, hcons, ih]
    simp [frontLines]

theorem frontLines_end (headers : List StringPair) :
    frontLines headers = [] ∨ crlf <:+ frontLines headers := by
  rcases List.eq_nil_or_concat headers with rfl | ⟨front, h, rfl⟩
  · exact .inl rfl
  · refine .inr ⟨frontLines front ++ h.line, ?_⟩
    simp [frontLines]

/-- The name of the signature header in the hashed string. -/
def signatureName : Bytes := bytes "dkim-signature:"

/-- **The header string of a mail**: the lines in front of the signature header,
its name and its canonical value. -/
theorem headerStr_signature (included : List StringPair) (value : Bytes) :
    headerStr (relaxedHeaderCanon (included ++ [⟨bytes "dkim-signature", value⟩])) =
      frontLines (relaxedHeaderCanon included) ++ signatureName ++ relaxedValue value := by
  have hsig : relaxedHeaderCanon (included ++ [⟨bytes "dkim-signature", value⟩]) =
      relaxedHeaderCanon included ++ [⟨bytes "dkim-signature", relaxedValue value⟩] := by
    rw [relaxedHeaderCanon, List.map_append]
    rfl
  rw [hsig, headerStr_concat, StringPair.line, List.append_assoc]
  congr 1

/-- The lines in front of the signature header, and its canonical value. -/
theorem SignedMail.text_eq (m : SignedMail) :
    ∃ lines, (lines = [] ∨ crlf <:+ lines) ∧ m.text = lines ++ signatureName ++ m.canonical :=
  ⟨_, frontLines_end (relaxedHeaderCanon (includeHeaders m.headers (m.dh.text .h))),
    headerStr_signature _ _⟩

/-- A signature that is accepted is not empty. -/
theorem SignedMail.Accepted.signature_ne_nil {Key : Type} {ssl : OpenSsl Key} {publicKey : Bytes}
    {m : SignedMail} (h : m.Accepted ssl publicKey) :
    m.signature ssl ≠ [] ∧ dkimValidateBodyHash ssl m.dh.text m.body = true := by
  obtain ⟨retval, hrun, hne⟩ := h
  simp only [dkimValidate, verifyHeaderStr, m.found] at hrun
  split_ifs at hrun with h1 h2 h3 h4 h5 h6
  all_goals
    first
      | exact absurd (Except.ok.inj hrun).symm hne
      | exact ⟨h6, by simpa using h3⟩

theorem SignedMail.Accepted.b_pos {Key : Type} {ssl : OpenSsl Key} {publicKey : Bytes}
    {m : SignedMail} (h : m.Accepted ssl publicKey) : 0 < (m.dh.text .b).length := by
  refine List.length_pos_iff.mpr fun hnil => h.signature_ne_nil.1 ?_
  simp [SignedMail.signature, base64Decode, hnil, base64Wrap]

/-- **The shape of the hashed string**: the covered octets stand behind the
name of the signature header, and end in `b=` where anything is behind them. -/
theorem SignedMail.hashed_eq {m : SignedMail} (hb : 0 < (m.dh.text .b).length)
    (hcovered : m.covered ≠ []) :
    ∃ lines, (lines = [] ∨ crlf <:+ lines) ∧ m.hashed = lines ++ signatureName ++ m.covered ∧
      (m.behind = [] ∨ [98, 61] <:+ m.covered) := by
  obtain ⟨lines, hlines, htext⟩ := m.text_eq
  obtain ⟨n, hn, hhashed, hcut⟩ := removeSignature_shape m.text (m.strMem.drop m.text.length) hb
  have hhashed : m.hashed = m.text.take n := hhashed
  have hlen : m.coveredLen = n - (lines ++ signatureName).length := by
    rw [SignedMail.coveredLen, hhashed, List.length_take, htext, List.length_append] at *
    omega
  have hpos : 0 < m.coveredLen := by
    by_contra h0
    apply hcovered
    rw [SignedMail.covered, show m.coveredLen = 0 by omega, List.take_zero]
  have heq : m.text.take n = lines ++ signatureName ++ m.covered := by
    rw [htext, List.take_append, List.take_of_length_le (by omega), ← hlen, SignedMail.covered]
  refine ⟨lines, hlines, by rw [hhashed, heq], ?_⟩
  rcases hcut with hfull | hsuffix
  · left
    rw [SignedMail.behind, List.drop_eq_nil_iff, hlen, hfull, htext, List.length_append]
    omega
  · right
    rw [heq] at hsuffix
    by_cases htwo : 2 ≤ m.covered.length
    · exact List.suffix_of_suffix_length_le hsuffix (List.suffix_append _ _) htwo
    · -- a single octet would stand behind the colon
      obtain ⟨c, hc⟩ : ∃ c, m.covered = [c] := List.length_eq_one_iff.mp (by
        have := List.length_pos_iff.mpr hcovered
        omega)
      have hcolon : [58, c] <:+ lines ++ signatureName ++ m.covered := by
        rw [hc, show signatureName = bytes "dkim-signature" ++ [58] by decide]
        exact ⟨lines ++ bytes "dkim-signature", by simp⟩
      have hsame := List.suffix_of_suffix_length_le hsuffix hcolon (le_refl 2)
      exact absurd (hsame.eq_of_length rfl) (by simp)

/-- **Two hashed strings that are equal cover the same octets**: no line break
stands in a signature header, so it starts at the same place in both. -/
theorem covered_unique {lines lines' c c' : Bytes} (hlines' : lines' = [] ∨ crlf <:+ lines')
    (hcr : (13 : UInt8) ∉ c) (hle : lines.length ≤ lines'.length)
    (h : lines ++ signatureName ++ c = lines' ++ signatureName ++ c') : c = c' := by
  have hfront : lines <+: lines ++ signatureName ++ c := by
    rw [List.append_assoc]
    exact List.prefix_append _ _
  have hfront' : lines' <+: lines ++ signatureName ++ c := by
    rw [h, List.append_assoc]
    exact List.prefix_append _ _
  -- the longer front goes on where the shorter one ends
  obtain ⟨more, rfl⟩ := List.prefix_of_prefix_length_le hfront hfront' hle
  rw [List.append_assoc, List.append_assoc, List.append_assoc, List.append_cancel_left_eq] at h
  rcases List.eq_nil_or_concat' more with rfl | ⟨front, e, rfl⟩
  · simpa using h
  · exfalso
    -- else its CRLF would lie inside the name or inside `c`
    have hend : crlf <:+ lines ++ (front ++ [e]) := by
      rcases hlines' with hnil | hend
      · simp at hnil
      · simpa using hend
    have hmem : ∀ d ∈ front ++ [e], d ∈ signatureName ++ c := by
      intro d hd
      rw [h]
      exact List.mem_append_left _ hd
    cases front with
    | nil =>
      have hd : (signatureName ++ c).head? = some e := by rw [h]; rfl
      have he : e = 10 := by
        obtain ⟨g, hg⟩ := hend
        have hlast := congrArg List.getLast? hg
        simpa [crlf] using hlast.symm
      rw [he, show (signatureName ++ c).head? = some 100 from rfl] at hd
      exact absurd hd (by decide)
    | cons d front =>
      have hcrlf : crlf <:+ d :: front ++ [e] :=
        List.suffix_of_suffix_length_le hend (List.suffix_append _ _) (by simp [crlf])
      have h13 : (13 : UInt8) ∈ signatureName ++ c := hmem 13 (hcrlf.subset (by simp [crlf]))
      rcases List.mem_append.mp h13 with hname | hc
      · exact absurd hname (by decide)
      · exact hcr hc

/-! ## What the tags are read from -/

theorem SignedMail.canonical_eq {m : SignedMail} (hcr : (13 : UInt8) ∉ m.sig.value) :
    m.canonical = joinWords .start m.sig.value := by
  rw [SignedMail.canonical, relaxedValue_eq_joinWords m.nul, removeCrlf_of_not_mem hcr]

theorem SignedMail.covered_no_cr {m : SignedMail} (hcr : (13 : UInt8) ∉ m.sig.value) :
    (13 : UInt8) ∉ m.covered := by
  intro h13
  have hmem := List.mem_of_mem_take h13
  rw [m.canonical_eq hcr] at hmem
  rcases mem_joinWords hmem with h32 | hvalue
  · exact absurd h32 (by decide)
  · exact hcr hvalue

/-- **The buffers hold what is read from the covered octets and then from the
others.** -/
theorem SignedMail.dh_text {m : SignedMail} (hcr : (13 : UInt8) ∉ m.sig.value)
    (hb : 0 < (m.dh.text .b).length) (t : Tag) : m.dh.text t = m.tagText t := by
  have hread : readTags ⟨[], none⟩ m.sig.value = readTags ⟨[], none⟩ (m.covered ++ m.behind) := by
    rw [SignedMail.covered, SignedMail.behind, List.take_append_drop, m.canonical_eq hcr,
      readTags_joinWords]
  have hparts : readTags ⟨[], none⟩ (m.covered ++ m.behind) =
      readTags m.coveredReading m.behind := by
    rw [SignedMail.coveredReading]
    by_cases hcovered : m.covered = []
    · rw [hcovered, List.nil_append, show readTags ⟨[], none⟩ [] = ⟨[], none⟩ by rw [readTags]]
    · obtain ⟨lines, -, -, hnone | hend⟩ := m.hashed_eq hb hcovered
      · rw [hnone, List.append_nil, show ∀ r, readTags r [] = r by intro r; rw [readTags]]
      · exact readTags_append _ hend _
  have hdone := readTags_done m.coveredReading.done ⟨[], m.coveredReading.cur⟩ m.behind
  rw [List.append_nil] at hdone
  rw [SignedMail.dh, dkimParseHeader_text m.dhMem m.nul, hread, hparts,
    show m.coveredReading = ⟨m.coveredReading.done, m.coveredReading.cur⟩ from rfl, hdone,
    SignedMail.tagText, SignedMail.laterValues, Reading.all, Reading.all, List.append_assoc]

/-- A covered tag stands in the covered octets, whatever the memory holds. -/
theorem SignedMail.tagText_of_covered {m : SignedMail} {t : Tag} (h : ¬m.Uncovered t) :
    m.covered ≠ [] ∧ ∃ x, lastValue t m.coveredReading.done = some x ∧
      m.tagText t = x.take (dkimValueMaxLen - 1) := by
  simp only [SignedMail.Uncovered, not_or, not_not] at h
  obtain ⟨hlater, hdone⟩ := h
  constructor
  · intro hnil
    rw [SignedMail.coveredReading, hnil, readTags] at hdone
    exact hdone rfl
  · obtain ⟨x, hx⟩ := Option.ne_none_iff_exists'.mp hdone
    refine ⟨x, hx, ?_⟩
    rw [SignedMail.tagText, bufferText, lastValue_append, hlater, hx]
    rfl

/-- **Covered tags are determined** by the hashed string. -/
theorem tagText_eq_of_covered {m m' : SignedMail} (hcr : (13 : UInt8) ∉ m.sig.value)
    (hcr' : (13 : UInt8) ∉ m'.sig.value) (hb : 0 < (m.dh.text .b).length)
    (hb' : 0 < (m'.dh.text .b).length) (hhashed : m.hashed = m'.hashed) {t : Tag}
    (h : ¬m.Uncovered t) (h' : ¬m'.Uncovered t) : m.tagText t = m'.tagText t := by
  obtain ⟨hne, x, hx, htext⟩ := SignedMail.tagText_of_covered h
  obtain ⟨hne', x', hx', htext'⟩ := SignedMail.tagText_of_covered h'
  obtain ⟨lines, hlines, heq, -⟩ := m.hashed_eq hb hne
  obtain ⟨lines', hlines', heq', -⟩ := m'.hashed_eq hb' hne'
  have hcovered : m.covered = m'.covered := by
    have hsame := heq.symm.trans (hhashed.trans heq')
    rcases Nat.le_total lines.length lines'.length with hle | hle
    · exact covered_unique hlines' (m.covered_no_cr hcr) hle hsame
    · exact (covered_unique hlines (m'.covered_no_cr hcr') hle hsame.symm).symm
  rw [SignedMail.coveredReading, ← hcovered] at hx'
  rw [htext, htext']
  have : some x = some x' := hx.symm.trans hx'
  rw [Option.some.inj this]

/-! ## The body hash -/

/-- `BIO_f_base64` on a hash: its text on one line. -/
def OpenSsl.EncodesHash {Key : Type} (ssl : OpenSsl Key) : Prop :=
  ∀ hash : Vector UInt8 32, ssl.bioWrite hash.toList = Base64.encode hash.toList ++ [10]

theorem base64Encode_hash {Key : Type} {ssl : OpenSsl Key} (hssl : ssl.EncodesHash)
    (hash : Vector UInt8 32) : base64Encode ssl hash.toList = Base64.encode hash.toList := by
  have hbreak := Base64.encode_no_break hash.toList
  rw [base64Encode, hssl, List.dropLast_concat, str_eq_self fun h0 => (hbreak 0 h0).1 rfl]
  exact List.filter_eq_self.mpr fun c hc => by simpa using ⟨(hbreak c hc).2.2, (hbreak c hc).2.1⟩

/-- **One `bh` accepts bodies of one hash only.** -/
theorem bodyDigest_unique {Key : Type} {ssl : OpenSsl Key} (hssl : ssl.EncodesHash)
    {dh dh' : Tag → Bytes} {body body' : Bytes} (h : dkimValidateBodyHash ssl dh body = true)
    (h' : dkimValidateBodyHash ssl dh' body' = true) (hbh : dh .bh = dh' .bh) :
    bodyDigest ssl body = bodyDigest ssl body' := by
  rw [dkimValidateBodyHash, base64Encode_hash hssl, startsWith_iff] at h h'
  rw [← hbh] at h'
  have hlen : (bodyDigest ssl body).toList.length = (bodyDigest ssl body').toList.length := by
    rw [Vector.length_toList, Vector.length_toList]
  have htext : Base64.encode (bodyDigest ssl body).toList =
      Base64.encode (bodyDigest ssl body').toList :=
    (List.prefix_of_prefix_length_le h h' (by
      rw [Base64.encode_length, Base64.encode_length, hlen])).eq_of_length (by
      rw [Base64.encode_length, Base64.encode_length, hlen])
  exact Vector.toList_inj.mp (Base64.encode_inj hlen htext)

/-! ## The tags the verifier acts on -/

def actedOn : List Tag := [.bh, .h, .a, .c, .d, .s]

/-- **What a signature covers**: of two accepted mails with the same hashed
string and the same signature, the tags agree, and with them the hashes of the
canonical bodies, exactly when those tags agree that the covered octets of one
of the mails do not determine. -/
theorem signature_covers_iff {Key : Type} (ssl : OpenSsl Key) (hssl : ssl.EncodesHash)
    (publicKey : Bytes) (m m' : SignedMail) (hcr : (13 : UInt8) ∉ m.sig.value)
    (hcr' : (13 : UInt8) ∉ m'.sig.value) (hacc : m.Accepted ssl publicKey)
    (hacc' : m'.Accepted ssl publicKey) (hhashed : m.hashed = m'.hashed)
    (_hsignature : m.signature ssl = m'.signature ssl) :
    ((∀ t ∈ actedOn, m.dh.text t = m'.dh.text t) ∧
        bodyDigest ssl m.body = bodyDigest ssl m'.body) ↔
      ∀ t ∈ actedOn, m.Uncovered t ∨ m'.Uncovered t → m.tagText t = m'.tagText t := by
  have htext : ∀ t, m.dh.text t = m.tagText t := m.dh_text hcr hacc.b_pos
  have htext' : ∀ t, m'.dh.text t = m'.tagText t := m'.dh_text hcr' hacc'.b_pos
  constructor
  · rintro ⟨h, -⟩ t ht -
    rw [← htext, ← htext', h t ht]
  · intro h
    have hagree : ∀ t ∈ actedOn, m.dh.text t = m'.dh.text t := by
      intro t ht
      rw [htext, htext']
      by_cases hun : m.Uncovered t ∨ m'.Uncovered t
      · exact h t ht hun
      · rw [not_or] at hun
        exact tagText_eq_of_covered hcr hcr' hacc.b_pos hacc'.b_pos hhashed hun.1 hun.2
    exact ⟨hagree, bodyDigest_unique hssl hacc.signature_ne_nil.2 hacc'.signature_ne_nil.2
      (hagree .bh (by simp [actedOn]))⟩

/-! ## A mail that was signed, and one that was not -/

/-- The hashes of `pay 10`, of `pay 9000` and of the signed header string, and
the signature of the last under `demoKey`. -/
def demoHash : Vector UInt8 32 :=
  ⟨#[157, 194, 165, 9, 108, 79, 249, 239, 177, 219, 56, 211, 211, 131, 211, 142, 210, 205, 142, 243,
    210, 161, 82, 76, 8, 121, 39, 177, 102, 175, 229, 244], rfl⟩

def demoHashForged : Vector UInt8 32 :=
  ⟨#[100, 53, 96, 135, 229, 15, 11, 191, 179, 59, 2, 61, 236, 39, 68, 130, 82, 98, 204, 191, 58, 207,
    245, 164, 163, 29, 210, 197, 121, 204, 108, 166], rfl⟩

def demoHeaderHash : Vector UInt8 32 :=
  ⟨#[252, 198, 208, 78, 242, 114, 82, 173, 62, 143, 253, 72, 194, 122, 133, 187, 7, 130, 29, 84, 48,
    124, 33, 74, 25, 25, 204, 44, 44, 147, 239, 234], rfl⟩

def demoSignature : Bytes :=
  [2, 51, 102, 83, 216, 192, 11, 57, 63, 20, 232, 67, 8, 155, 116, 7, 87, 46, 238, 29, 48, 192, 200,
    40, 56, 193, 177, 20, 49, 159, 223, 147, 82, 24, 142, 147, 18, 109, 180, 11, 246, 68, 46, 136,
    86, 106, 205, 191, 231, 243, 160, 9, 148, 180, 231, 75, 192, 137, 226, 199, 219, 131, 182, 187]

def demoKey : Bytes :=
  bytes "-----BEGIN PUBLIC KEY-----\nMFwwDQYJKoZIhvcNAQEBBQADSwAwSAJBALk5dC9zs/fOClWf4ABcryy8p8FU/iiJ\nDhJIKGIDxiAmEAsRtc3DHhfj8dlSfthqHhr9KffynUlbFyxGdjLKdO8CAwEAAQ==\n-----END PUBLIC KEY-----\n"

/-- The signed part of the signature header. -/
def demoTags : Bytes :=
  bytes "v=1; a=rsa-sha256; c=relaxed/relaxed; d=a.se; s=k; h=from; bh=ncKlCWxP+e+x2zjT04PTjtLNjvPSoVJMCHknsWav5fQ=; b="

/-- OpenSSL as far as these mails need it. -/
def demoSsl : OpenSsl Unit where
  sha256 text :=
    if text = bytes "pay 10\r\n" then demoHash
    else if text = bytes "pay 9000\r\n" then demoHashForged
    else if text = bytes "from:a@a.se\r\ndkim-signature:" ++ demoTags then demoHeaderHash
    else Vector.replicate _ 0
  rsaVerify hash signature _ := if hash = demoHeaderHash ∧ signature = demoSignature then 1 else 0
  readPubkey text := if text = demoKey then some () else none
  bioRead text :=
    if text.filter (fun c => c ≠ 13 ∧ c ≠ 10) = Base64.encode demoSignature then demoSignature else []
  bioWrite text := Base64.encode text ++ [10]

theorem demoSsl_encodesHash : demoSsl.EncodesHash := fun _ => rfl

/-- The base64 texts of the signature and of the hashes of the two bodies. -/
theorem demo_texts :
    Base64.encode demoSignature =
        bytes "AjNmU9jACzk/FOhDCJt0B1cu7h0wwMgoOMGxFDGf35NSGI6TEm20C/ZELohWas2/5/OgCZS050vAieLH24O2uw==" ∧
      Base64.encode demoHash.toList = bytes "ncKlCWxP+e+x2zjT04PTjtLNjvPSoVJMCHknsWav5fQ=" ∧
      Base64.encode demoHashForged.toList = bytes "ZDVgh+UPC7+zOwI97CdEglJizL86z/Wkox3SxXnMbKY=" := by
  decide +kernel

theorem signed_nul : (0 : UInt8) ∉ demoTags ++ Base64.encode demoSignature := by
  have htags : (0 : UInt8) ∉ demoTags := by
    rw [demoTags, bytes_ofList]
    simp
  rw [List.mem_append, not_or]
  exact ⟨htags, fun h => (Base64.encode_no_break _ 0 h).1 rfl⟩

theorem forged_nul : (0 : UInt8) ∉ demoTags ++ Base64.encode demoSignature ++
    bytes "; bh=ZDVgh+UPC7+zOwI97CdEglJizL86z/Wkox3SxXnMbKY=" := by
  rw [List.mem_append, not_or, bytes_ofList]
  exact ⟨signed_nul, by simp⟩

theorem folded_nul : (0 : UInt8) ∉ demoTags ++ (Base64.encode demoSignature).take 40 ++
    32 :: (Base64.encode demoSignature).drop 40 := by
  have h := signed_nul
  rw [← List.take_append_drop 40 (Base64.encode demoSignature)] at h
  simpa only [List.mem_append, List.mem_cons, not_or, show (0 : UInt8) ≠ 32 by decide,
    not_false_eq_true, true_and, and_assoc] using h

/-- A mail with the signature `sig`, over memory of zero bytes. -/
def demoMail (sig body : Bytes) (h : (0 : UInt8) ∉ sig) : SignedMail where
  headers := [⟨bytes "From", bytes "a@a.se"⟩, ⟨bytes "DKIM-Signature", sig⟩]
  body := body
  dhMem := fun _ => Vector.replicate _ 0
  strMem := []
  sig := ⟨bytes "DKIM-Signature", sig⟩
  found := by simp [findSignature, show bytes "From" ≠ bytes "DKIM-Signature" by decide]
  nul := h

def signedMail : SignedMail :=
  demoMail (demoTags ++ Base64.encode demoSignature) (bytes "pay 10\r\n") signed_nul

/-- The signed mail with a second `bh=` behind the signature. -/
def forgedMail : SignedMail :=
  demoMail (demoTags ++ Base64.encode demoSignature ++
    bytes "; bh=ZDVgh+UPC7+zOwI97CdEglJizL86z/Wkox3SxXnMbKY=") (bytes "pay 9000\r\n") forged_nul

/-- The signed mail with a blank in the signature. -/
def foldedMail : SignedMail :=
  demoMail (demoTags ++ (Base64.encode demoSignature).take 40 ++
    32 :: (Base64.encode demoSignature).drop 40) (bytes "pay 10\r\n") folded_nul

instance (m : SignedMail) (t : Tag) : Decidable (m.Uncovered t) :=
  inferInstanceAs (Decidable (_ ∨ _))

theorem demoMail_dh {sig : Bytes} (body : Bytes) (h : (0 : UInt8) ∉ sig) :
    (demoMail sig body h).dh.text =
      bufferText (fun _ => Vector.replicate _ 0) (readTags ⟨[], none⟩ sig).all :=
  funext (dkimParseHeader_text _ h)

theorem demoMail_included (sig body : Bytes) (h : (0 : UInt8) ∉ sig) :
    includeHeaders (demoMail sig body h).headers (bytes "from") =
      [⟨bytes "From", bytes "a@a.se"⟩] := by
  have hnames : headerNames [] (bytes "from") = [bytes "from"] := by
    rw [bytes_ofList]
    rfl
  have hfrom : startsWith ((bytes "From").map tolower) (bytes "from") = true := by
    rw [bytes_ofList, bytes_ofList]
    rfl
  have hsig : startsWith ((bytes "DKIM-Signature").map tolower) (bytes "from") = false := by
    rw [bytes_ofList, bytes_ofList]
    rfl
  simp [includeHeaders, hnames, demoMail, hfrom, hsig]

/-- The header string of such a mail. -/
theorem demoMail_text {sig body : Bytes} (h : (0 : UInt8) ∉ sig) (hcr : (13 : UInt8) ∉ sig)
    (hfrom : (demoMail sig body h).dh.text .h = bytes "from") :
    (demoMail sig body h).text = bytes "from:a@a.se\r\ndkim-signature:" ++ joinWords .start sig := by
  have hsig : relaxedValue sig = joinWords .start sig := by
    rw [relaxedValue_eq_joinWords h, removeCrlf_of_not_mem hcr]
  have hvalue : relaxedValue (bytes "a@a.se") = bytes "a@a.se" := by
    rw [bytes_ofList, relaxedValue_eq_joinWords (by simp), removeCrlf_of_not_mem (by simp)]
    rfl
  have hline : (bytes "From").map tolower ++ 58 :: bytes "a@a.se" ++ crlf ++
      (bytes "dkim-signature").map tolower ++ [58] = bytes "from:a@a.se\r\ndkim-signature:" := by
    repeat rw [bytes_ofList]
    rfl
  rw [SignedMail.text, hfrom, signedHeaders, demoMail_included, relaxedHeaderCanon, ← hline]
  simp [headerStr, StringPair.line, hvalue, hsig, demoMail]

/-- What makes such a mail pass. -/
def Passes (sig body : Bytes) : Prop :=
  let dh := bufferText (fun _ => Vector.replicate _ 0) (readTags ⟨[], none⟩ sig).all
  (13 : UInt8) ∉ sig ∧ dh .h = bytes "from" ∧ dkimCheckCompability dh = true ∧
    dkimValidateBodyHash demoSsl dh body = true ∧
    verifyHeaderStr demoSsl [] (bytes "from:a@a.se\r\ndkim-signature:" ++ joinWords .start sig) 2 dh
      demoKey = .ok 1

instance (sig body : Bytes) : Decidable (Passes sig body) :=
  inferInstanceAs (Decidable (_ ∧ _ ∧ _ ∧ _ ∧ _))

theorem demoMail_accepted {sig body : Bytes} (h : (0 : UInt8) ∉ sig) (hpass : Passes sig body) :
    (demoMail sig body h).Accepted demoSsl demoKey := by
  obtain ⟨hcr, hfrom, hcompat, hbody, hverify⟩ := hpass
  have hdh := demoMail_dh body h
  rw [← hdh] at hfrom hcompat hbody hverify
  refine ⟨1, ?_, by decide⟩
  have htext := demoMail_text h hcr hfrom
  rw [SignedMail.text, hfrom] at htext
  have hmax : ¬incHeadersMax < 1 ∧ ¬incHeadersMax ≤ 1 := by decide
  simp only [dkimValidate, hfrom, demoMail_included, List.length_singleton, hmax.1, hmax.2,
    if_false, hcompat, not_true_eq_false, show dkimValidateBodyHash demoSsl
      (demoMail sig body h).dh.text (demoMail sig body h).body = true from hbody,
    (demoMail sig body h).found, htext]
  exact hverify

/-- What is read from such a signature, and what the cut leaves of the text. -/
def Reads (sig bh : Bytes) : Prop :=
  let dh := bufferText (fun _ => Vector.replicate _ 0) (readTags ⟨[], none⟩ sig).all
  let text := bytes "from:a@a.se\r\ndkim-signature:" ++ joinWords .start sig
  ((13 : UInt8) ∉ sig ∧ dh .h = bytes "from" ∧ dkimCheckCompability dh = true ∧ dh .bh = bh ∧
      dh .b = bytes "AjNmU9jACzk/FOhDCJt0B1cu7h0wwMgoOMGxFDGf35NSGI6TEm20C/ZELohWas2/5/OgCZS050vAieLH24O2uw==") ∧
    (text.length ≤ 1500 * 2 ∧ ¬(signatureEnd text [] (dh .b).length).any (1500 * 2 ≤ · + 1) ∧
      removeSignature text [] (dh .b).length = bytes "from:a@a.se\r\ndkim-signature:" ++ demoTags)

instance (sig bh : Bytes) : Decidable (Reads sig bh) :=
  inferInstanceAs (Decidable ((_ ∧ _ ∧ _ ∧ _ ∧ _) ∧ _ ∧ _ ∧ _))

/-- The line breaks of `base64_wrap` are all that it adds. -/
theorem base64Wrap_filter {p : UInt8 → Bool} (h13 : p 13 = false) (h10 : p 10 = false)
    (lcount : Nat) (s : Bytes) : (base64Wrap lcount s).filter p = s.filter p := by
  induction s generalizing lcount with
  | nil => rfl
  | cons c s ih =>
    rw [base64Wrap]
    split
    · simp only [List.filter_cons, h13, h10, ih]
      rfl
    · simp only [List.filter_cons, ih]

theorem length_le_base64Wrap (lcount : Nat) (s : Bytes) :
    s.length ≤ (base64Wrap lcount s).length := by
  induction s generalizing lcount with
  | nil => exact le_refl _
  | cons c s ih =>
    rw [base64Wrap]
    split
    · have := ih 0
      simp only [List.length_cons]
      omega
    · simpa using ih (lcount + 1)

theorem demoSsl_decode : base64Decode demoSsl (Base64.encode demoSignature) = demoSignature := by
  have hfilter : (base64Wrap 0 (Base64.encode demoSignature)).filter (fun c => c ≠ 13 ∧ c ≠ 10) =
      Base64.encode demoSignature := by
    rw [base64Wrap_filter rfl rfl]
    refine List.filter_eq_self.mpr fun c hc => ?_
    have hbreak := Base64.encode_no_break _ c hc
    simpa using ⟨hbreak.2.2, hbreak.2.1⟩
  have hroom : demoSignature.length ≤ (base64Wrap 0 (Base64.encode demoSignature)).length := by
    refine le_trans ?_ (length_le_base64Wrap 0 _)
    rw [Base64.encode_length]
    omega
  simp only [base64Decode, demoSsl]
  rw [if_pos hfilter, List.take_of_length_le hroom]

theorem demoSsl_header :
    demoSsl.sha256 (bytes "from:a@a.se\r\ndkim-signature:" ++ demoTags) = demoHeaderHash := by
  have hlong : ∀ short : Bytes, short.length ≤ 10 →
      bytes "from:a@a.se\r\ndkim-signature:" ++ demoTags ≠ short := by
    rintro short hshort rfl
    rw [demoTags, bytes_ofList, bytes_ofList] at hshort
    simp at hshort
  have hne := hlong (bytes "pay 10\r\n") (by simp [bytes])
  have hne' := hlong (bytes "pay 9000\r\n") (by simp [bytes])
  simp only [demoSsl, if_neg hne, if_neg hne', if_true]

/-- The signature of the text that was signed is accepted. -/
theorem Reads.verify {sig bh : Bytes} (h : Reads sig bh) :
    verifyHeaderStr demoSsl [] (bytes "from:a@a.se\r\ndkim-signature:" ++ joinWords .start sig) 2
      (bufferText (fun _ => Vector.replicate _ 0) (readTags ⟨[], none⟩ sig).all) demoKey = .ok 1 := by
  obtain ⟨⟨-, -, -, -, hb⟩, hlen, hend, hcut⟩ := h
  have hfault := not_or.mpr ⟨Nat.not_lt.mpr hlen, hend⟩
  have hne : demoSignature ≠ [] := nofun
  have hkey : demoSsl.readPubkey demoKey = some () := by simp only [demoSsl, if_true]
  have hverify : demoSsl.rsaVerify demoHeaderHash demoSignature () = 1 := by
    simp only [demoSsl, and_self, if_true]
  simp only [verifyHeaderStr, List.drop_nil]
  rw [if_neg hfault, hcut, hb, ← demo_texts.1, demoSsl_decode, if_neg hne, hkey]
  simp only [demoSsl_header, hverify]

theorem Reads.passes {sig body : Bytes} {hash : Vector UInt8 32}
    (h : Reads sig (Base64.encode hash.toList)) (hbody : bodyDigest demoSsl body = hash) :
    Passes sig body := by
  refine ⟨h.1.1, h.1.2.1, h.1.2.2.1, ?_, h.verify⟩
  rw [dkimValidateBodyHash, hbody, base64Encode_hash demoSsl_encodesHash, startsWith_iff, h.1.2.2.2.1]

/-- What is read from the three signatures. -/
theorem demo_reads :
    Reads (demoTags ++ Base64.encode demoSignature) (Base64.encode demoHash.toList) ∧
      Reads (demoTags ++ (Base64.encode demoSignature).take 40 ++
        32 :: (Base64.encode demoSignature).drop 40) (Base64.encode demoHash.toList) ∧
      Reads (demoTags ++ Base64.encode demoSignature ++
        bytes "; bh=ZDVgh+UPC7+zOwI97CdEglJizL86z/Wkox3SxXnMbKY=")
          (Base64.encode demoHashForged.toList) := by
  unfold Reads
  rw [demo_texts.2.1, demo_texts.2.2, demo_texts.1, demoTags]
  repeat rw [bytes_ofList]
  decide +kernel

theorem demoMail_hashed {sig bh : Bytes} (body : Bytes) (h : (0 : UInt8) ∉ sig)
    (hreads : Reads sig bh) :
    (demoMail sig body h).hashed = bytes "from:a@a.se\r\ndkim-signature:" ++ demoTags := by
  have hfrom : (demoMail sig body h).dh.text .h = bytes "from" := by
    rw [demoMail_dh]
    exact hreads.1.2.1
  rw [SignedMail.hashed, demoMail_text h hreads.1.1 hfrom, demoMail_dh]
  exact hreads.2.2.2

theorem demo_bodies : bodyDigest demoSsl (bytes "pay 10\r\n") = demoHash ∧
    bodyDigest demoSsl (bytes "pay 9000\r\n") = demoHashForged := by
  decide +kernel

theorem signedMail_passes : Passes (demoTags ++ Base64.encode demoSignature) (bytes "pay 10\r\n") :=
  demo_reads.1.passes demo_bodies.1

theorem foldedMail_passes : Passes (demoTags ++ (Base64.encode demoSignature).take 40 ++
    32 :: (Base64.encode demoSignature).drop 40) (bytes "pay 10\r\n") :=
  demo_reads.2.1.passes demo_bodies.1

theorem forgedMail_passes : Passes (demoTags ++ Base64.encode demoSignature ++
    bytes "; bh=ZDVgh+UPC7+zOwI97CdEglJizL86z/Wkox3SxXnMbKY=") (bytes "pay 9000\r\n") :=
  demo_reads.2.2.passes demo_bodies.2

/-- The tags are read from what is covered; behind it there is the signature only. -/
theorem demo_covered :
    ∀ rest ∈ [Base64.encode demoSignature,
        (Base64.encode demoSignature).take 40 ++ 32 :: (Base64.encode demoSignature).drop 40],
      joinWords .start (demoTags ++ rest) = demoTags ++ rest ∧
      ∀ t ∈ actedOn,
        lastValue t (readTags ⟨[], (readTags ⟨[], none⟩ demoTags).cur⟩ rest).all = none ∧
          lastValue t (readTags ⟨[], none⟩ demoTags).done ≠ none := by
  rw [demo_texts.1, demoTags]
  repeat rw [bytes_ofList]
  decide +kernel

/-- The covered part of the value, and what is behind it. -/
theorem demoMail_cut {sig bh rest : Bytes} (body : Bytes) (h : (0 : UInt8) ∉ sig)
    (hreads : Reads sig bh) (hjoin : joinWords .start sig = demoTags ++ rest) :
    (demoMail sig body h).covered = demoTags ∧ (demoMail sig body h).behind = rest := by
  have hcanonical : (demoMail sig body h).canonical = demoTags ++ rest := by
    have hvalue : relaxedValue sig = joinWords .start sig := by
      rw [relaxedValue_eq_joinWords h, removeCrlf_of_not_mem hreads.1.1]
    exact hvalue.trans hjoin
  have hfrom : (demoMail sig body h).dh.text .h = bytes "from" := by
    rw [demoMail_dh]
    exact hreads.1.2.1
  have hlen : (demoMail sig body h).coveredLen = demoTags.length := by
    rw [SignedMail.coveredLen, demoMail_hashed body h hreads, demoMail_text h hreads.1.1 hfrom, hjoin,
      hcanonical, List.length_append, List.length_append]
    omega
  rw [SignedMail.covered, SignedMail.behind, hlen, hcanonical]
  exact ⟨List.take_left, List.drop_left⟩

theorem demoMail_covered {sig bh rest : Bytes} (body : Bytes) (h : (0 : UInt8) ∉ sig)
    (hreads : Reads sig bh) (hsig : sig = demoTags ++ rest)
    (hrest : rest ∈ [Base64.encode demoSignature,
      (Base64.encode demoSignature).take 40 ++ 32 :: (Base64.encode demoSignature).drop 40])
    {t : Tag} (ht : t ∈ actedOn) : ¬(demoMail sig body h).Uncovered t := by
  obtain ⟨hjoin, hvalues⟩ := demo_covered rest hrest
  have hjoin : joinWords .start sig = demoTags ++ rest := by rw [hsig, hjoin]
  obtain ⟨hcovered, hbehind⟩ := demoMail_cut body h hreads hjoin
  obtain ⟨hlater, hdone⟩ := hvalues t ht
  rw [SignedMail.Uncovered, SignedMail.laterValues, SignedMail.coveredReading, hcovered, hbehind,
    hlater, not_or]
  exact ⟨fun h => h rfl, hdone⟩

theorem signature_covers_foldedMail :
    (∀ t ∈ actedOn, signedMail.dh.text t = foldedMail.dh.text t) ∧
      bodyDigest demoSsl signedMail.body = bodyDigest demoSsl foldedMail.body := by
  have hacc : signedMail.Accepted demoSsl demoKey := demoMail_accepted _ signedMail_passes
  have hacc' : foldedMail.Accepted demoSsl demoKey := demoMail_accepted _ foldedMail_passes
  have hhashed : signedMail.hashed = foldedMail.hashed := by
    rw [signedMail, demoMail_hashed _ _ demo_reads.1, foldedMail, demoMail_hashed _ _ demo_reads.2.1]
  have hb : signedMail.dh.text .b = foldedMail.dh.text .b := by
    rw [signedMail, demoMail_dh, foldedMail, demoMail_dh]
    exact demo_reads.1.1.2.2.2.2.trans demo_reads.2.1.1.2.2.2.2.symm
  have hsignature : signedMail.signature demoSsl = foldedMail.signature demoSsl := by
    rw [SignedMail.signature, SignedMail.signature, hb]
  refine (signature_covers_iff demoSsl demoSsl_encodesHash demoKey signedMail foldedMail
    signedMail_passes.1 foldedMail_passes.1 hacc hacc' hhashed hsignature).mpr ?_
  -- the covered octets determine all of the tags
  intro t ht huncovered
  have hsigned : ¬signedMail.Uncovered t :=
    demoMail_covered _ signed_nul demo_reads.1 rfl (by simp) ht
  have hfolded : ¬foldedMail.Uncovered t :=
    demoMail_covered _ folded_nul demo_reads.2.1 (List.append_assoc _ _ _) (by simp) ht
  exact absurd huncovered (not_or.mpr ⟨hsigned, hfolded⟩)

/-- **The signature of one mail lets another one pass**: the second `bh=` is
what the verifier acts on, and it is not covered. -/
theorem forgedMail_accepted :
    ¬∀ (Key : Type) (ssl : OpenSsl Key) (publicKey : Bytes) (m m' : SignedMail), ssl.EncodesHash →
      m.Accepted ssl publicKey → m'.Accepted ssl publicKey → m.hashed = m'.hashed →
      m.signature ssl = m'.signature ssl → ∀ t ∈ actedOn, m.dh.text t = m'.dh.text t := by
  intro h
  have hhashed : signedMail.hashed = forgedMail.hashed := by
    rw [signedMail, demoMail_hashed _ _ demo_reads.1, forgedMail, demoMail_hashed _ _ demo_reads.2.2]
  have hb : signedMail.dh.text .b = forgedMail.dh.text .b := by
    rw [signedMail, demoMail_dh, forgedMail, demoMail_dh]
    exact demo_reads.1.1.2.2.2.2.trans demo_reads.2.2.1.2.2.2.2.symm
  have hsignature : signedMail.signature demoSsl = forgedMail.signature demoSsl := by
    rw [SignedMail.signature, SignedMail.signature, hb]
  have hbh := h Unit demoSsl demoKey signedMail forgedMail demoSsl_encodesHash
    (demoMail_accepted _ signedMail_passes) (demoMail_accepted _ forgedMail_passes) hhashed
    hsignature .bh (by simp [actedOn])
  rw [signedMail, demoMail_dh, forgedMail, demoMail_dh] at hbh
  have hhash := demo_reads.1.1.2.2.2.1.symm.trans (hbh.trans demo_reads.2.2.1.2.2.2.1)
  have hlist := Base64.encode_inj (by rw [Vector.length_toList, Vector.length_toList]) hhash
  simp [demoHash, demoHashForged] at hlist

end ComfirmDmarc.Dkim
