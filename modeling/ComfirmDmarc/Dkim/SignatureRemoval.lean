import ComfirmDmarc.Dkim.Coverage
import ComfirmDmarc.Dkim.TagList

/-!
# Dkim -- removing the old signature

The standard deletes the value of `b=` and keeps the rest of the signature
field. The verifier looks for `b=` backwards, from as many bytes in front of
the end as the signature has without blanks, and drops everything behind it.
-/

namespace ComfirmDmarc.Dkim

open CMemory

/-! ## Where the text is cut -/

/-- A text with `b=` in it, of which the part up to there should be left. -/
structure CutPoint (cut : Bytes) : Prop where
  b : [98, 61] <:+ cut
  long : 2 < cut.length

theorem CutPoint.endsB {cut : Bytes} (h : CutPoint cut) (rest : Bytes) :
    EndsB (cut ++ rest) (cut.length - 1) := by
  obtain ⟨front, rfl⟩ := h.b
  have hlong := h.long
  simp only [List.length_append, List.length_cons, List.length_nil] at hlong ⊢
  refine ⟨by omega, ?_, ?_⟩
  · simp
  · simp

/-- **What is left of a text behind whose `b=` the signature `y` stands**: the
part up to the `b=`, exactly when the search starts no lower than there and
finds no other one, or when there is nothing behind it and no cut is made. -/
theorem removeSignature_eq_iff {cut : Bytes} (h : CutPoint cut) (y mem : Bytes) (bLen : Nat) :
    removeSignature (cut ++ y) mem bLen = cut ↔
      (bLen ≤ y.length + 1 ∧
        ∀ j, cut.length ≤ j → j ≤ (cut ++ y).length - bLen → ¬EndsB (cut ++ y ++ mem) j) ∨
      (y = [] ∧ ∀ j ≤ (cut ++ y).length - bLen, ¬EndsB (cut ++ y ++ mem) j) := by
  have hends := h.endsB (y ++ mem)
  rw [← List.append_assoc] at hends
  have hlong := h.long
  have hlen : (cut ++ y).length = cut.length + y.length := List.length_append
  rw [removeSignature, signatureEnd]
  constructor
  · intro heq
    cases hfind : findB (cut ++ y ++ mem) ((cut ++ y).length - bLen) with
    | none =>
      rw [hfind] at heq
      exact .inr ⟨by simpa using heq, findB_eq_none_iff.mp hfind⟩
    | some j =>
      rw [hfind] at heq
      obtain ⟨hle, hj, hnone⟩ := findB_eq_some_iff.mp hfind
      have hjlen := congrArg List.length heq
      rw [List.length_take] at hjlen
      have hlt := hj.lt_length
      have hone := hj.1
      exact .inl ⟨by omega, fun k hk hk' => hnone k (by omega) hk'⟩
  · rintro (⟨hle, hnone⟩ | ⟨rfl, hnone⟩)
    · have hfind : findB (cut ++ y ++ mem) ((cut ++ y).length - bLen) = some (cut.length - 1) :=
        findB_eq_some_iff.mpr ⟨by omega, hends, fun k hk hk' => hnone k (by omega) hk'⟩
      rw [hfind]
      show (cut ++ y ++ mem).take (cut.length - 1 + 1) = cut
      rw [show cut.length - 1 + 1 = cut.length by omega, List.append_assoc, List.take_left]
    · rw [findB_eq_none_iff.mpr hnone, List.append_nil]

theorem pair_infix_iff {a b : UInt8} {y : Bytes} :
    [a, b] <:+: y ↔ ∃ i, y[i]? = some a ∧ y[i + 1]? = some b := by
  constructor
  · rintro ⟨s, t, rfl⟩
    exact ⟨s.length, by simp, by simp⟩
  · rintro ⟨i, ha, hb⟩
    obtain ⟨hi, ha⟩ := List.getElem?_eq_some_iff.mp ha
    obtain ⟨hi', hb⟩ := List.getElem?_eq_some_iff.mp hb
    refine ⟨y.take i, y.drop (i + 2), ?_⟩
    conv_rhs => rw [← List.take_append_drop i y, List.drop_eq_getElem_cons hi,
      List.drop_eq_getElem_cons hi', ha, hb]
    simp

theorem not_endsB_iff {cut : Bytes} (h : CutPoint cut) {y : Bytes} (mem : Bytes) {bLen : Nat}
    (hle : bLen ≤ y.length + 1) (hempty : bLen = 0 → y = []) :
    (∀ j, cut.length ≤ j → j ≤ (cut ++ y).length - bLen → ¬EndsB (cut ++ y ++ mem) j) ↔
      ¬[98, 61] <:+: y.take (y.length + 1 - bLen) := by
  have hlen : (cut ++ y).length = cut.length + y.length := List.length_append
  have hlong := h.long
  -- behind the cut the bytes are those of `y`
  have hget : ∀ i < y.length, (cut ++ y ++ mem).getD (cut.length + i) 0 = y.getD i 0 := by
    intro i hi
    rw [List.append_assoc, List.getD_append_right _ _ _ _ (by omega), Nat.add_sub_cancel_left,
      List.getD_append _ _ _ _ hi]
  rw [pair_infix_iff]
  constructor
  · rintro hnone ⟨i, hb, heq⟩
    rw [List.getElem?_take] at hb heq
    split at heq
    · next hi =>
      rw [if_pos (by omega)] at hb
      obtain ⟨hi', -⟩ := List.getElem?_eq_some_iff.mp heq
      refine hnone (cut.length + (i + 1)) (by omega) (by omega) ⟨by omega, ?_, ?_⟩
      · rw [hget _ hi', List.getD_eq_getElem?_getD, heq]
        rfl
      · rw [show cut.length + (i + 1) - 1 = cut.length + i by omega, hget _ (by omega),
          List.getD_eq_getElem?_getD, hb]
        rfl
    · cases heq
  · rintro hno j hj hle' ⟨-, heq, hb⟩
    rcases Nat.eq_or_lt_of_le hj with rfl | hlt
    · -- in front of the first byte of `y` stands a `=`
      have hlast := (h.endsB (y ++ mem)).2.1
      rw [← List.append_assoc, hb] at hlast
      cases hlast
    · obtain ⟨i, rfl⟩ : ∃ i, j = cut.length + (i + 1) := ⟨j - cut.length - 1, by omega⟩
      have hi : i + 1 < y.length := by
        by_cases hzero : bLen = 0
        · rw [hempty hzero, List.append_nil] at hle'
          omega
        · omega
      rw [hget _ hi] at heq
      rw [show cut.length + (i + 1) - 1 = cut.length + i by omega, hget _ (by omega)] at hb
      refine hno ⟨i, ?_, ?_⟩
      · rw [List.getElem?_take_of_lt (by omega), ← hb, List.getD_eq_getElem?_getD,
          List.getElem?_eq_getElem (by omega)]
        rfl
      · rw [List.getElem?_take_of_lt (by omega), ← heq, List.getD_eq_getElem?_getD,
          List.getElem?_eq_getElem hi]
        rfl

/-! ## A signature field -/

/-- A tag of a list, with folding white space in front of its `=` too. -/
structure SpacedTag extends SigTag where
  gap : Bytes
  gap_folding : ∀ c ∈ gap, isFolding c = true

def SpacedTag.text (k : SpacedTag) : Bytes := k.lead ++ k.name ++ k.gap ++ 61 :: k.value

/-- A tag list with one tag `b=`, and a `;` behind the last tag or not. -/
structure SignatureField where
  front : List SpacedTag
  b : SigTag
  back : List SpacedTag
  closing : Bool
  b_name : b.name = bytes "b"
  once : ∀ k ∈ front ++ back, k.name ≠ bytes "b"

namespace SignatureField

/-- What stands in front of `b=`. -/
def before (f : SignatureField) : Bytes := (f.front.map fun k => k.text ++ [59]).flatten ++ f.b.lead

/-- What stands behind the value of `b=`. -/
def after (f : SignatureField) : Bytes :=
  (f.back.map fun k => 59 :: k.text).flatten ++ if f.closing then [59] else []

/-- The list with another value of `b=`. -/
def withB (f : SignatureField) (v : Bytes) : Bytes := f.before ++ bytes "b=" ++ v ++ f.after

/-- The value of the signature header. -/
def value (f : SignatureField) : Bytes := f.withB f.b.value

/-- The value with nothing behind `b=`. -/
def deleted (f : SignatureField) : Bytes := f.withB []

/-- The canonical text of the value of `b=`, as it stands behind it. -/
def canonicalB (f : SignatureField) : Bytes := joinWords .word (removeCrlf f.b.value)

/-- How long the value is that the parser stores for `b=`: without blanks, and
from a later tag if one is read as `b=`. -/
def storedLen (f : SignatureField) : Nat :=
  min (dkimValueMaxLen - 1)
    ((lastValue .b (f.back.filterMap fun k => seen k.text)).getD (withoutBlanks f.b.value)).length

end SignatureField

/-! ### How the parser reads it -/

theorem SpacedTag.text_plain (k : SpacedTag) : ∀ c ∈ k.text, c ≠ 59 ∧ c ≠ 0 := by
  have hfolding : ∀ c, isFolding c = true → c ≠ 59 ∧ c ≠ 0 := by
    intro c hc
    constructor
    all_goals
      rintro rfl
      exact absurd hc (by decide)
  intro c hc
  simp only [SpacedTag.text, List.mem_append, List.mem_cons] at hc
  rcases hc with ((hc | hc) | hc) | rfl | hc
  · exact hfolding c (k.lead_folding c hc)
  · exact ⟨(k.name_chars c hc).2.1, (k.name_chars c hc).1⟩
  · exact hfolding c (k.gap_folding c hc)
  · decide
  · exact ⟨(k.value_chars c hc).2, (k.value_chars c hc).1⟩

theorem SpacedTag.no_semicolon (k : SpacedTag) : (59 : UInt8) ∉ k.text :=
  fun h59 => (k.text_plain 59 h59).1 rfl

theorem readTags_front (front : List SpacedTag) (done : List (Tag × Bytes)) (rest : Bytes) :
    readTags ⟨done, none⟩ ((front.map fun k => k.text ++ [59]).flatten ++ rest) =
      readTags ⟨done ++ front.filterMap fun k => seen k.text, none⟩ rest := by
  induction front generalizing done with
  | nil => simp
  | cons k front ih =>
    have hcons : ((k :: front).filterMap fun k => seen k.text) =
        (seen k.text).toList ++ front.filterMap fun k => seen k.text := by
      rw [List.filterMap_cons]
      cases seen k.text <;> rfl
    have hread := readTags_seen k.no_semicolon done
      ((front.map fun k => k.text ++ [59]).flatten ++ rest)
    rw [hcons, ← List.append_assoc, ← ih, ← hread]
    simp

theorem readTags_back (back : List SpacedTag) (closing : Bool) {u : Bytes} (hu : (59 : UInt8) ∉ u)
    (done : List (Tag × Bytes)) :
    (readTags ⟨done, none⟩
        (u ++ ((back.map fun k => 59 :: k.text).flatten ++ if closing then [59] else []))).all =
      done ++ (seen u).toList ++ back.filterMap fun k => seen k.text := by
  induction back generalizing u done with
  | nil =>
    cases closing with
    | true => simp [readTags_seen hu, readTags, Reading.all]
    | false => simp [readTags_seen_last hu]
  | cons k back ih =>
    have hcons : ((k :: back).filterMap fun k => seen k.text) =
        (seen k.text).toList ++ back.filterMap fun k => seen k.text := by
      rw [List.filterMap_cons]
      cases seen k.text <;> rfl
    rw [List.map_cons, List.flatten_cons, List.append_assoc, List.cons_append, readTags_seen hu,
      ih k.no_semicolon, hcons, List.append_assoc]

namespace SignatureField

/-- The text in front of the value of `b=`, the value and what follows. -/
theorem value_eq (f : SignatureField) :
    f.value = (f.front.map fun k => k.text ++ [59]).flatten ++ (f.b.text ++ f.after) := by
  rw [value, withB, before, SigTag.text, f.b_name]
  simp [show bytes "b=" = [98, 61] from rfl, show bytes "b" = [98] from rfl]

theorem withB_nul (f : SignatureField) {v : Bytes} (hv : (0 : UInt8) ∉ v) :
    (0 : UInt8) ∉ f.withB v := by
  have htags : ∀ k : SpacedTag, (0 : UInt8) ∉ k.text := fun k h0 => (k.text_plain 0 h0).2 rfl
  have hlead : (0 : UInt8) ∉ f.b.lead := fun h0 => absurd (f.b.lead_folding 0 h0) (by decide)
  have hclose : (0 : UInt8) ∉ if f.closing then [59] else [] := by cases f.closing <;> decide
  simp only [withB, before, after, List.mem_append, List.mem_flatten, List.mem_map, not_or,
    not_exists, not_and]
  refine ⟨⟨⟨⟨?_, hlead⟩, by decide⟩, hv⟩, ?_, hclose⟩
  · rintro _ ⟨k, -, rfl⟩
    simpa using htags k
  · rintro _ ⟨k, -, rfl⟩
    simpa using htags k

theorem value_nul (f : SignatureField) : (0 : UInt8) ∉ f.value :=
  f.withB_nul fun h0 => (f.b.value_chars 0 h0).1 rfl

/-- **What the parser stores for `b=`**, as long as `storedLen` says. -/
theorem dkimParseHeader_b (f : SignatureField) (mem : DkimHeader) :
    ((dkimParseHeader mem f.value).text .b).length = f.storedLen := by
  have hb : (59 : UInt8) ∉ f.b.text := fun h59 => (f.b.text_plain 59 h59).1 rfl
  have hseen : (seen f.b.text).toList = [(.b, withoutBlanks f.b.value)] := by
    rw [f.b.seen_text (show f.b.name = Tag.name .b from f.b_name)]
    rfl
  rw [dkimParseHeader_text mem f.value_nul, f.value_eq, readTags_front, after, readTags_back _ _ hb,
    hseen, bufferText, lastValue_append, lastValue_append, lastValue_singleton, if_pos rfl,
    storedLen]
  cases lastValue .b (f.back.filterMap fun k => seen k.text) <;> simp

/-! ### Its canonical text -/

/-- The canonical text up to `b=`. -/
def canonicalFront (f : SignatureField) : Bytes := joinWords .start (removeCrlf f.before ++ [98, 61])

/-- **The canonical text of the list**, in front of the value of `b=` and
behind it. -/
theorem relaxedValue_withB (f : SignatureField) {v : Bytes} (hv : (0 : UInt8) ∉ v) :
    relaxedValue (f.withB v) = f.canonicalFront ++ joinWords .word (removeCrlf (v ++ f.after)) := by
  have hsplit : f.withB v = f.before ++ 98 :: 61 :: (v ++ f.after) := by
    rw [withB, show bytes "b=" = [98, 61] from rfl]
    simp
  have hwords := joinWords_append_cons (c := 61) (by decide) .start (removeCrlf f.before ++ [98])
    (removeCrlf (v ++ f.after))
  rw [relaxedValue_eq_joinWords (f.withB_nul hv), hsplit, removeCrlf_append_cons _ (by decide),
    removeCrlf_cons (by decide), removeCrlf_cons (by decide), canonicalFront]
  simpa using hwords

theorem canonicalFront_b (f : SignatureField) : [98, 61] <:+ f.canonicalFront := by
  obtain ⟨x, hx, -⟩ := joinWords_concat (c := 98) (by decide) .start (removeCrlf f.before)
  have hwords := joinWords_append_cons (c := 98) (by decide) .start (removeCrlf f.before) [61]
  refine ⟨x, ?_⟩
  rw [canonicalFront, hwords, hx, joinWords_word (by decide)]
  simp [joinWords]

end SignatureField

/-! ## What is hashed, and what should be -/

/-- The string of the selected headers and the signature header. -/
def headerText (selected : List StringPair) (value : Bytes) : Bytes :=
  headerStr (relaxedHeaderCanon (selected ++ [⟨bytes "dkim-signature", value⟩]))

/-- What the verifier hashes; `mem` lies behind the header string in its
block. -/
def hashedText (dhMem : DkimHeader) (mem : Bytes) (selected : List StringPair) (value : Bytes) :
    Bytes :=
  removeSignature (headerText selected value) mem ((dkimParseHeader dhMem value).text .b).length

theorem SignedMail.hashed_eq_hashedText (m : SignedMail) :
    m.hashed = hashedText m.dhMem (m.strMem.drop m.text.length)
      (includeHeaders m.headers (m.dh.text .h)) m.sig.value := rfl

theorem removeSignature_take (text mem : Bytes) (bLen : Nat) :
    ∃ k, removeSignature text mem bLen = (text ++ mem).take k := by
  rw [removeSignature]
  cases signatureEnd text mem bLen with
  | some j => exact ⟨j + 1, rfl⟩
  | none => exact ⟨text.length, by simp⟩

/-- No byte is removed: nothing is found, or `b=` at the very end. -/
theorem removeSignature_eq_self_iff {text : Bytes} (hlong : 2 < text.length) (mem : Bytes)
    (bLen : Nat) :
    removeSignature text mem bLen = text ↔
      (∀ j ≤ text.length - bLen, ¬EndsB (text ++ mem) j) ∨ (bLen ≤ 1 ∧ [98, 61] <:+ text) := by
  by_cases hend : [98, 61] <:+ text
  · have hself := removeSignature_eq_iff ⟨hend, hlong⟩ [] mem bLen
    have hcut : CutPoint text := ⟨hend, hlong⟩
    simp only [List.append_nil, List.length_nil, true_and] at hself
    rw [hself]
    constructor
    · rintro (⟨hle, -⟩ | hnone)
      · exact .inr ⟨by omega, hend⟩
      · exact .inl hnone
    · rintro (hnone | ⟨hle, -⟩)
      · exact .inr hnone
      · -- above the last byte stands no `=` behind a `b`
        refine .inl ⟨by omega, fun j hj hle' hends => ?_⟩
        obtain rfl : j = text.length := by omega
        have hlast := (hcut.endsB mem).2.1
        rw [hends.2.2] at hlast
        cases hlast
  · rw [removeSignature, signatureEnd]
    constructor
    · intro heq
      left
      cases hfind : findB (text ++ mem) (text.length - bLen) with
      | none => exact findB_eq_none_iff.mp hfind
      | some j =>
        rw [hfind] at heq
        exfalso
        apply hend
        obtain ⟨-, hends, -⟩ := findB_eq_some_iff.mp hfind
        have hsuffix := hends.suffix_take
        rwa [show (text ++ mem).take (j + 1) = text from heq] at hsuffix
    · rintro (hnone | ⟨-, hend'⟩)
      · rw [findB_eq_none_iff.mpr hnone]
      · exact absurd hend' hend

/-! ## When the two agree -/

namespace SignatureField

/-- `b=` is the last tag, and the search starts no lower than its value and
meets no other `b=` in it. -/
def CutsAtB (f : SignatureField) : Prop :=
  f.back = [] ∧ f.closing = false ∧ f.storedLen ≤ f.canonicalB.length + 1 ∧
    ¬bytes "b=" <:+: f.canonicalB.take (f.canonicalB.length + 1 - f.storedLen)

/-- The canonical text has no value to delete, and nothing else is cut. -/
def NothingToDelete (f : SignatureField) (selected : List StringPair) (mem : Bytes) : Prop :=
  relaxedValue f.value = relaxedValue f.deleted ∧
    ((∀ j ≤ (headerText selected f.value).length - f.storedLen,
        ¬EndsB (headerText selected f.value ++ mem) j) ∨
      (f.storedLen ≤ 1 ∧ bytes "b=" <:+ headerText selected f.value))

/-- The header string up to `b=`. -/
def cut (f : SignatureField) (selected : List StringPair) : Bytes :=
  frontLines (relaxedHeaderCanon selected) ++ signatureName ++ f.canonicalFront

theorem cut_point (f : SignatureField) (selected : List StringPair) : CutPoint (f.cut selected) := by
  have hname : signatureName.length = 15 := by simp [signatureName, bytes]
  refine ⟨f.canonicalFront_b.trans (List.suffix_append _ _), ?_⟩
  simp only [cut, List.length_append]
  omega

theorem headerText_withB (f : SignatureField) (selected : List StringPair) {v : Bytes}
    (hv : (0 : UInt8) ∉ v) :
    headerText selected (f.withB v) =
      f.cut selected ++ joinWords .word (removeCrlf (v ++ f.after)) := by
  rw [headerText, headerStr_signature, f.relaxedValue_withB hv, cut]
  simp

theorem b_nul (f : SignatureField) : (0 : UInt8) ∉ f.b.value := fun h0 => (f.b.value_chars 0 h0).1 rfl

/-- What is hashed, out of the two parts of the header string. -/
theorem hashedText_eq (f : SignatureField) (dhMem : DkimHeader) (mem : Bytes)
    (selected : List StringPair) :
    hashedText dhMem mem selected f.value =
      removeSignature (headerText selected f.value) mem f.storedLen := by
  rw [hashedText, f.dkimParseHeader_b]

theorem hashedText_of_nothingToDelete {f : SignatureField} {mem : Bytes}
    {selected : List StringPair} (h : f.NothingToDelete selected mem) (dhMem : DkimHeader) :
    hashedText dhMem mem selected f.value = headerText selected f.deleted := by
  obtain ⟨hsame, hself⟩ := h
  have htext : headerText selected f.deleted = headerText selected f.value := by
    rw [headerText, headerText, headerStr_signature, headerStr_signature, hsame]
  have hlong : 2 < (headerText selected f.value).length := by
    rw [value, f.headerText_withB selected f.b_nul, List.length_append]
    exact Nat.lt_add_right _ (f.cut_point selected).long
  rw [f.hashedText_eq, htext]
  exact (removeSignature_eq_self_iff hlong mem f.storedLen).mpr hself

theorem joinWords_of_isWsp {s : Bytes} (h : ∀ c ∈ s, isWsp c = true) (st : Gap) :
    joinWords st s = [] := by
  induction s generalizing st with
  | nil => rfl
  | cons c s ih =>
    rw [joinWords_wsp (h c List.mem_cons_self)]
    exact ih (fun d hd => h d (List.mem_cons_of_mem _ hd)) _

theorem storedLen_of_last {f : SignatureField} (h : f.back = []) :
    f.storedLen = min (dkimValueMaxLen - 1) (withoutBlanks f.b.value).length := by
  rw [storedLen, h]
  rfl

/-- **`b=` is the last tag.** -/
theorem hashedText_iff_of_last {f : SignatureField} (hback : f.back = [])
    (hclosing : f.closing = false) (dhMem : DkimHeader) (mem : Bytes)
    (selected : List StringPair) :
    hashedText dhMem mem selected f.value = headerText selected f.deleted ↔
      f.CutsAtB ∨ f.NothingToDelete selected mem := by
  have hafter : f.after = [] := by simp [after, hback, hclosing]
  have hvalue : headerText selected f.value = f.cut selected ++ f.canonicalB := by
    rw [value, f.headerText_withB selected f.b_nul, hafter, List.append_nil, canonicalB]
  have hdeleted : headerText selected f.deleted = f.cut selected := by
    rw [deleted, f.headerText_withB selected List.not_mem_nil, hafter, List.append_nil,
      removeCrlf_of_not_mem List.not_mem_nil, joinWords, List.append_nil]
  have hempty : f.storedLen = 0 → f.canonicalB = [] := by
    intro hzero
    have hnil : withoutBlanks f.b.value = [] := by
      have hmax : 0 < dkimValueMaxLen - 1 := by decide
      rw [storedLen_of_last hback] at hzero
      exact List.length_eq_zero_iff.mp (by omega)
    refine joinWords_of_isWsp (fun c hc => ?_) _
    have hblank := List.filter_eq_nil_iff.mp hnil c (removeCrlf_subset _ c hc)
    simpa using hblank
  constructor
  · intro heq
    rw [f.hashedText_eq, hvalue, hdeleted, removeSignature_eq_iff (f.cut_point selected)] at heq
    rcases heq with ⟨hle, hnone⟩ | ⟨hnil, hnone⟩
    · exact .inl ⟨hback, hclosing, hle,
        (not_endsB_iff (f.cut_point selected) mem hle hempty).mp hnone⟩
    · refine .inr ⟨?_, .inl ?_⟩
      · rw [value, deleted, f.relaxedValue_withB f.b_nul, f.relaxedValue_withB List.not_mem_nil]
        rw [canonicalB] at hnil
        rw [hafter, List.append_nil, hnil, List.append_nil, List.append_nil,
          removeCrlf_of_not_mem List.not_mem_nil, joinWords, List.append_nil]
      · rwa [hvalue]
  · rintro (⟨-, -, hle, hno⟩ | hnothing)
    · rw [f.hashedText_eq, hvalue, hdeleted, removeSignature_eq_iff (f.cut_point selected)]
      exact .inl ⟨hle, (not_endsB_iff (f.cut_point selected) mem hle hempty).mpr hno⟩
    · exact hashedText_of_nothingToDelete hnothing dhMem

/-- **Something follows `b=`**: then its value is kept. -/
theorem hashedText_iff_of_after {f : SignatureField} (hlast : ¬(f.back = [] ∧ f.closing = false))
    (dhMem : DkimHeader) (mem : Bytes) (selected : List StringPair) :
    hashedText dhMem mem selected f.value = headerText selected f.deleted ↔
      f.NothingToDelete selected mem := by
  refine ⟨fun heq => ?_, fun h => hashedText_of_nothingToDelete h dhMem⟩
  obtain ⟨rest, hafter⟩ : ∃ rest, f.after = 59 :: rest := by
    cases hback : f.back with
    | cons k back => exact ⟨_, by rw [after, hback, List.map_cons, List.flatten_cons]; rfl⟩
    | nil =>
      have hclosing : f.closing = true := by simpa [hback] using hlast
      exact ⟨[], by simp [after, hback, hclosing]⟩
  -- the words of the value, and those behind the `;`
  obtain ⟨x, hx, hmem⟩ := joinWords_concat (c := 59) (by decide) .word (removeCrlf f.b.value)
  have hnosemi : (59 : UInt8) ∉ x := by
    intro h59
    rcases hmem 59 h59 with h32 | hvalue
    · exact absurd h32 (by decide)
    · exact (f.b.value_chars 59 (removeCrlf_subset _ 59 hvalue)).2 rfl
  have hwords : ∀ v, removeCrlf (v ++ f.after) = removeCrlf v ++ 59 :: removeCrlf rest := by
    intro v
    rw [hafter, removeCrlf_append_cons _ (by decide), removeCrlf_cons (by decide)]
  have hvalue : headerText selected f.value =
      f.cut selected ++ (x ++ 59 :: joinWords .word (removeCrlf rest)) := by
    rw [value, f.headerText_withB selected f.b_nul, hwords, joinWords_append_cons (by decide), hx,
      List.append_assoc]
    rfl
  have hdeleted : headerText selected f.deleted =
      f.cut selected ++ 59 :: joinWords .word (removeCrlf rest) := by
    rw [deleted, f.headerText_withB selected List.not_mem_nil, hwords,
      joinWords_append_cons (by decide), removeCrlf_of_not_mem List.not_mem_nil, List.nil_append,
      joinWords_word (by decide)]
    rfl
  have hnil : x = [] := by
    obtain ⟨k, hk⟩ := removeSignature_take (headerText selected f.value) mem f.storedLen
    have hprefix : f.cut selected ++ 59 :: joinWords .word (removeCrlf rest) <+:
        f.cut selected ++ (x ++ 59 :: joinWords .word (removeCrlf rest)) ++ mem := by
      rw [← hdeleted, ← heq, f.hashedText_eq, hk, hvalue]
      exact List.take_prefix _ _
    rw [List.append_assoc, List.prefix_append_right_inj] at hprefix
    cases x with
    | nil => rfl
    | cons c x =>
      obtain ⟨rfl, -⟩ : 59 = c ∧ _ := by simpa using hprefix
      exact absurd List.mem_cons_self hnosemi
  have htext : headerText selected f.value = headerText selected f.deleted := by
    rw [hvalue, hdeleted, hnil, List.nil_append]
  have hlong : 2 < (headerText selected f.value).length := by
    rw [hvalue, List.length_append]
    exact Nat.lt_add_right _ (f.cut_point selected).long
  refine ⟨?_, ?_⟩
  · rw [headerText, headerText, headerStr_signature, headerStr_signature] at htext
    exact List.append_cancel_left htext
  · rw [f.hashedText_eq, ← htext] at heq
    exact (removeSignature_eq_self_iff hlong mem f.storedLen).mp heq

end SignatureField

/-- **What is hashed is the header string without the signature** exactly when
`b=` is the last tag and is found, or when there is no signature to delete. -/
theorem hashedText_eq_deleted_iff (f : SignatureField) (dhMem : DkimHeader) (mem : Bytes)
    (selected : List StringPair) :
    hashedText dhMem mem selected f.value = headerText selected f.deleted ↔
      f.CutsAtB ∨ f.NothingToDelete selected mem := by
  by_cases hlast : f.back = [] ∧ f.closing = false
  · exact SignatureField.hashedText_iff_of_last hlast.1 hlast.2 dhMem mem selected
  · rw [SignatureField.hashedText_iff_of_after hlast]
    constructor
    · exact .inr
    · rintro (⟨hback, hclosing, -⟩ | hnothing)
      · exact absurd ⟨hback, hclosing⟩ hlast
      · exact hnothing

section Examples

theorem nil_folding : ∀ c ∈ ([] : Bytes), isFolding c = true := by simp

/-- `b=QUJD;s=x`. -/
def selectorBehind : SignatureField where
  front := []
  b := plainTag (bytes "b") (bytes "QUJD") (by decide) (by decide +kernel) (by decide +kernel)
  back := [⟨plainTag (bytes "s") (bytes "x") (by decide) (by decide +kernel) (by decide +kernel),
    [], nil_folding⟩]
  closing := false
  b_name := rfl
  once := by
    intro k hk
    obtain rfl := List.mem_singleton.mp hk
    decide +kernel

/-- The selector behind the signature is cut off with it. -/
theorem tag_behind_signature :
    ¬∀ (f : SignatureField) (dhMem : DkimHeader) (mem : Bytes) (selected : List StringPair),
      hashedText dhMem mem selected f.value = headerText selected f.deleted := by
  intro h
  have hall := h selectorBehind clearedHeader [] []
  rw [SignatureField.hashedText_iff_of_after (by simp [selectorBehind])] at hall
  have hsame := hall.1
  rw [relaxedValue_eq_joinWords selectorBehind.value_nul,
    removeCrlf_of_not_mem (by decide), relaxedValue_eq_joinWords (by decide),
    removeCrlf_of_not_mem (by decide)] at hsame
  exact absurd hsame (by decide)

end Examples

end ComfirmDmarc.Dkim
