import ComfirmDmarc.Dkim.Agreement
import ComfirmDmarc.Dkim.Base64Wrap
import ComfirmDmarc.Dkim.VerifierBounds

/-!
# Dkim -- the signer's buffers

What `dkim_create` writes to `header_list`, `dkim` and `header_str`, and `wrap`
to its result. The size of `dkim` is computed from what is printed to it; the
other three are guesses, 200 bytes a name, 1500 bytes a header and three bytes a
character, and it is counted here for which headers and strings they hold.
-/

namespace ComfirmDmarc.Dkim

open CMemory

/-! ## The code -/

/-- The loop of `wrap` and the terminator behind it, by the indices of `tmp`
that are stored to. -/
def wrapWrites (lcount tmpLen : Nat) : Bytes → List Nat
  | [] => [tmpLen]
  | c :: s =>
    if c = 32 ∨ lcount = 75 then
      tmpLen :: (tmpLen + 1) :: (tmpLen + 2) :: (tmpLen + 3) :: wrapWrites 0 (tmpLen + 4) s
    else tmpLen :: wrapWrites (lcount + 1) (tmpLen + 1) s

/-- The loop that fills `header_list`, from `header_list_len` on: each `sprintf`
stores a terminator, too. -/
def listWrites (headerListLen : Nat) : List StringPair → List StrWrite
  | [] => []
  | h :: hs =>
    if headerListLen ≠ 0 then
      ⟨headerListLen, 2⟩ :: ⟨headerListLen + 1, h.key.length + 1⟩ ::
        listWrites (headerListLen + 1 + h.key.length) hs
    else ⟨headerListLen, h.key.length + 1⟩ :: listWrites (headerListLen + h.key.length) hs

/-- The format of `dkim_string`. -/
def dkimTemplate : Bytes :=
  bytes "v=1; a=rsa-sha1; s=%s; d=%s; l=%d; t=%d; c=relaxed/relaxed; h=%s; bh=%s; b="

/-- The size of `dkim`. -/
def dkimSize (selector domain headerList bh : Bytes) : Nat :=
  dkimTemplate.length + selector.length + domain.length + 16 + 16 + headerList.length + bh.length + 1

/-- What a call of `dkim_create` writes, for `headerc` headers: to `header_list`,
to `dkim` with its terminator, to `header_str`, and the string that `wrap` gets. -/
structure SignerRun where
  headerc : Nat
  listWrites : List StrWrite
  dkimWritten : Nat
  dkimSize : Nat
  strWrites : List StrWrite
  wrapped : Option Bytes

section

variable {Key PrivateKey : Type} (ssl : OpenSsl Key) (signer : Signer PrivateKey) (junk : Bytes)
  (headers : List StringPair) (body pkey domain selector : Bytes) (ts : Int)

/-- The string in `header_list`. Nothing is stored there when there are no
headers; `junk` is what is found then. -/
def headerListText : Bytes := if headers = [] then junk else headerList [] (relaxedHeaderCanon headers)

/-- The base64 digits of the body's hash. -/
def bodyHashText : Bytes := base64Encode ssl (signer.sha1 (relaxedBodyCanon body)).toList

/-- `dkim`, up to the `b=`. -/
def signerField : Bytes :=
  dkimString selector domain (toInt (relaxedBodyCanon body).length) (toInt ts)
    (headerListText junk headers) (bodyHashText ssl signer body)

/-- The headers of `header_str`. -/
def signerHeaders : List StringPair :=
  relaxedHeaderCanon headers ++
    [⟨bytes "dkim-signature", signerField ssl signer junk headers body domain selector ts⟩]

/-- `dkim_create`. -/
def signerRun : SignerRun :=
  match signer.readPrivate pkey with
  | none => ⟨headers.length, [], 0, 0, [], none⟩
  | some rsaPrivate =>
    let dkim := signerField ssl signer junk headers body domain selector ts
    let signed := signerHeaders ssl signer junk headers body domain selector ts
    ⟨headers.length, listWrites 0 (relaxedHeaderCanon headers), dkim.length + 1,
      dkimSize selector domain (headerListText junk headers) (bodyHashText ssl signer body),
      stringWrites 0 signed,
      (signer.rsaSign (signer.sha1 (headerStr signed)) rsaPrivate).map fun sig =>
        dkim ++ base64Encode ssl sig⟩

end

/-- **Every write of the run lies in its block.** -/
structure SignerRun.InBounds (run : SignerRun) : Prop where
  list : ∀ w ∈ run.listWrites, w.offset + w.length ≤ 200 * run.headerc
  dkim : run.dkimWritten ≤ run.dkimSize
  str : ∀ w ∈ run.strWrites, w.offset + w.length ≤ 1500 * (run.headerc + 1)
  wrap : ∀ s ∈ run.wrapped, ∀ i ∈ wrapWrites 0 0 s, i < 3 * s.length + 1

/-! ## `wrap` -/

/-- The line break of `wrap`. -/
def wrapBreak : Bytes := [13, 10, 9]

/-- How many lines are broken: one for each SP, and one for each 76 bytes of the
words between them. -/
def wrapBreaks (s : Bytes) : Nat :=
  s.count 32 + ((s.splitOn 32).map fun word => word.length / 76).sum

theorem wrap_eq_breakLines (lcount : Nat) (s : Bytes) :
    wrap lcount s = LineBreaks.breakLines (· == 32) 76 wrapBreak lcount s := by
  induction s generalizing lcount with
  | nil => rfl
  | cons c s ih =>
    rw [wrap, LineBreaks.breakLines, ih 0, ih (lcount + 1)]
    simp only [break_iff]
    rfl

theorem wrapWrites_eq_writes (lcount tmpLen : Nat) (s : Bytes) :
    wrapWrites lcount tmpLen s = LineBreaks.writes (· == 32) 76 wrapBreak.length lcount tmpLen s := by
  induction s generalizing lcount tmpLen with
  | nil => rfl
  | cons c s ih =>
    rw [wrapWrites, LineBreaks.writes, ih 0, ih (lcount + 1)]
    simp only [break_iff]
    rfl

/-- **Three bytes more for each break**, exactly. -/
theorem wrap_length (s : Bytes) : (wrap 0 s).length = s.length + 3 * wrapBreaks s := by
  have hlen := LineBreaks.length_breakLines (· == 32) 76 wrapBreak 0 s
  obtain ⟨word, words, hwords⟩ := List.exists_cons_of_ne_nil (List.splitOnP_ne_nil (· == 32) s)
  have hlines := LineBreaks.length_lines (show 0 < 76 by decide) hwords
  have hbreak : wrapBreak.length = 3 := rfl
  rw [← wrap_eq_breakLines, hbreak, hlines] at hlen
  rw [wrapBreaks, List.count, List.splitOn, hwords, List.map_cons, List.sum_cons]
  omega

theorem wrapWrites_lt_iff (s : Bytes) :
    (∀ i ∈ wrapWrites 0 0 s, i < 3 * s.length + 1) ↔ 3 * wrapBreaks s ≤ 2 * s.length := by
  rw [wrapWrites_eq_writes, LineBreaks.writes_lt_iff, ← wrap_eq_breakLines, wrap_length]
  omega

/-! ## `header_list` -/

/-- **The loop writes up to the terminator of the list**, and no further. -/
theorem listWrites_inside_iff (list : Bytes) (hs : List StringPair) (size : Nat) :
    ((∀ w ∈ listWrites list.length hs, w.offset + w.length ≤ size) ∧ list.length < size) ↔
      (headerList list hs).length < size := by
  induction hs generalizing list with
  | nil => simp [listWrites, headerList]
  | cons h hs ih =>
    rw [listWrites, headerList]
    by_cases hlist : list = []
    · subst hlist
      have hnext := ih h.key
      rw [if_neg (by simp), if_pos rfl, ← hnext, List.forall_mem_cons]
      simp only [List.length_nil, Nat.zero_add]
      constructor
      · rintro ⟨⟨hkey, hrest⟩, -⟩
        exact ⟨hrest, hkey⟩
      · rintro ⟨hrest, hkey⟩
        exact ⟨⟨hkey, hrest⟩, by omega⟩
    · have hnext := ih (list ++ 58 :: h.key)
      have hlen : (list ++ 58 :: h.key).length = list.length + 1 + h.key.length := by
        rw [List.length_append, List.length_cons]
        omega
      rw [hlen] at hnext
      rw [if_pos (by simpa using hlist), if_neg hlist, ← hnext, List.forall_mem_cons,
        List.forall_mem_cons]
      constructor
      · rintro ⟨⟨-, hkey, hrest⟩, -⟩
        have hend : list.length + 1 + (h.key.length + 1) ≤ size := hkey
        exact ⟨hrest, by omega⟩
      · rintro ⟨hrest, hkey⟩
        exact ⟨⟨show list.length + 2 ≤ size by omega,
          show list.length + 1 + (h.key.length + 1) ≤ size by omega, hrest⟩, by omega⟩

/-- The bytes of the names, with a colon behind each but the last; the first
ones have none where they are empty. -/
def namesLength (headers : List StringPair) : Nat :=
  (headers.map fun h => h.key.length).sum + ((headers.dropWhile fun h => h.key = []).length - 1)

theorem length_headerList (headers : List StringPair) :
    (headerList [] headers).length = namesLength headers := by
  induction headers with
  | nil => rfl
  | cons h headers ih =>
    rw [headerList, if_pos rfl, namesLength, List.map_cons, List.sum_cons]
    by_cases hkey : h.key = []
    · rw [List.dropWhile_cons_of_pos (by simpa using hkey), hkey, ih, namesLength]
      simp
    · have hcolons : (headers.map fun h => 58 :: h.key).flatten.length =
          (headers.map fun h => h.key.length).sum + headers.length := by
        rw [List.length_flatten, List.map_map]
        simp [Function.comp_def]
      rw [List.dropWhile_cons_of_neg (by simpa using hkey), headerList_append hkey,
        List.length_append, hcolons, List.length_cons]
      omega

theorem namesLength_singleton (key value : Bytes) : namesLength [⟨key, value⟩] = key.length := by
  have hcolons : (List.dropWhile (fun h : StringPair => h.key = []) [⟨key, value⟩]).length ≤ 1 :=
    (List.dropWhile_sublist _).length_le
  rw [namesLength, Nat.sub_eq_zero_of_le hcolons]
  rfl

/-- The names in lower case are as long. -/
theorem namesLength_relaxedHeaderCanon (headers : List StringPair) :
    namesLength (relaxedHeaderCanon headers) = namesLength headers := by
  rw [namesLength, relaxedHeaderCanon, List.map_map, List.dropWhile_map, List.length_map, namesLength]
  simp [Function.comp_def]

/-! ## `dkim` -/

theorem dkimTemplate_length : dkimTemplate.length = 75 := by
  rw [dkimTemplate, bytes_ofList]
  rfl

theorem dkimString_length (selector domain : Bytes) (bodyLen ts : Int) (headerList bh : Bytes) :
    (dkimString selector domain bodyLen ts headerList bh).length =
      63 + selector.length + domain.length + (decimal bodyLen).length + (decimal ts).length +
        headerList.length + bh.length := by
  have hparts : (bytes "v=1; a=rsa-sha1; s=").length = 19 ∧ (bytes "; d=").length = 4 ∧
      (bytes "; l=").length = 4 ∧ (bytes "; t=").length = 4 ∧
      (bytes "; c=relaxed/relaxed; h=").length = 23 ∧ (bytes "; bh=").length = 5 ∧
      (bytes "; b=").length = 4 := by decide
  obtain ⟨hv, hd, hl, ht, hh, hbh, hb⟩ := hparts
  simp only [dkimString, List.length_append, hv, hd, hl, ht, hh, hbh, hb]
  omega

/-- **The formatted string always fits**: a number takes 11 bytes at most. -/
theorem dkimString_fits (selector domain : Bytes) (bodyLen ts : Int) (headerList bh : Bytes) :
    (dkimString selector domain (toInt bodyLen) (toInt ts) headerList bh).length + 1 ≤
      dkimSize selector domain headerList bh := by
  have hl := (decimal_spec (toInt_natAbs bodyLen)).1
  have ht := (decimal_spec (toInt_natAbs ts)).1
  rw [dkimString_length, dkimSize, dkimTemplate_length]
  omega

/-! ## `header_str` -/

/-- The bytes of the headers in canonical form, each with its colon and its line
break. -/
def fieldsLength (headers : List StringPair) : Nat :=
  (headers.map fun h => h.key.length + (relaxedValue h.value).length + 3).sum

/-- Bytes that are no blanks are joined as they are. -/
theorem joinWords_of_no_wsp {s : Bytes} (hs : ∀ c ∈ s, isWsp c = false) {st : Gap} (hst : st ≠ .gap) :
    joinWords st s = s := by
  induction s generalizing st with
  | nil => rw [joinWords]
  | cons c s ih =>
    rw [List.forall_mem_cons] at hs
    rw [joinWords_word (by simp [hs.1]), if_neg hst, ih hs.2 (by decide)]

/-- A value without blanks is canonical. -/
theorem relaxedValue_word {w : Bytes} (h : Word w) : relaxedValue w = w := by
  have hnul : (0 : UInt8) ∉ w := fun h0 => (h.2 0 h0).1 rfl
  rw [relaxedValue_eq_joinWords hnul, removeCrlf_of_not_mem fun hcr => h.ne_cr 13 hcr rfl]
  exact joinWords_of_no_wsp h.not_isWsp (by decide)

theorem length_headerStr_concat (headers : List StringPair) (last : StringPair) :
    (headerStr (relaxedHeaderCanon headers ++ [last])).length =
      fieldsLength headers + (last.key.length + 1 + last.value.length) := by
  induction headers with
  | nil => exact (length_line last).trans (Nat.zero_add _).symm
  | cons h headers ih =>
    have hcrlf : crlf.length = 2 := rfl
    have hfields : fieldsLength (h :: headers) =
        h.key.length + (relaxedValue h.value).length + 3 + fieldsLength headers := by
      rw [fieldsLength, List.map_cons, List.sum_cons, fieldsLength]
    have hline : (⟨h.key.map tolower, relaxedValue h.value⟩ : StringPair).line.length =
        h.key.length + 1 + (relaxedValue h.value).length := by
      rw [length_line, List.length_map]
    rw [relaxedHeaderCanon] at ih
    rw [relaxedHeaderCanon, List.map_cons, List.cons_append, headerStr_cons _ (by simp),
      List.length_append, List.length_append, ih, hline, hfields, hcrlf]
    omega

/-! ## When the signer stays in its blocks -/

/-- How much `strlen(header_list)` finds. -/
def listLength (junk : Bytes) (headers : List StringPair) : Nat :=
  if headers = [] then junk.length else namesLength headers

/-- **Names short enough** for 200 bytes each, a terminator behind the last. -/
def NamesFit (headers : List StringPair) : Prop :=
  headers = [] ∨ namesLength headers < 200 * headers.length

/-- The bytes of `header_str`: the headers, and the field with its 28 digits of
the body hash but without a signature. -/
def textLength (junk : Bytes) (headers : List StringPair) (body domain selector : Bytes) (ts : Int) :
    Nat :=
  fieldsLength headers + (106 + selector.length + domain.length +
    (decimal (toInt (relaxedBodyCanon body).length)).length + (decimal (toInt ts)).length +
    listLength junk headers)

theorem length_headerListText (junk : Bytes) (headers : List StringPair) :
    (headerListText junk headers).length = listLength junk headers := by
  rw [headerListText, listLength]
  split
  · rfl
  · rw [length_headerList, namesLength_relaxedHeaderCanon]

theorem listWrites_relaxed_iff (headers : List StringPair) :
    (∀ w ∈ listWrites 0 (relaxedHeaderCanon headers), w.offset + w.length ≤ 200 * headers.length) ↔
      NamesFit headers := by
  have hinside := listWrites_inside_iff [] (relaxedHeaderCanon headers) (200 * headers.length)
  rw [length_headerList, namesLength_relaxedHeaderCanon, List.length_nil] at hinside
  rw [NamesFit]
  by_cases hne : headers = []
  · subst hne
    exact iff_of_true nofun (.inl rfl)
  · have hpos : 0 < 200 * headers.length := by
      have := List.length_pos_iff.mpr hne
      omega
    rw [← hinside, or_iff_right hne]
    exact (and_iff_left hpos).symm

section

variable {Key PrivateKey : Type} {ssl : OpenSsl Key} (hssl : ssl.EncodesBase64)
  (signer : Signer PrivateKey) (junk : Bytes) (headers : List StringPair)
  (body pkey domain selector : Bytes) (ts : Int)

include hssl

/-- The digits of a hash. -/
theorem length_bodyHashText : (bodyHashText ssl signer body).length = 28 := by
  have hlen : (signer.sha1 (relaxedBodyCanon body)).toList.length = 20 := Vector.length_toList
  rw [bodyHashText, base64Encode_eq hssl (List.length_pos_iff.mp (by omega)), Base64.encode_length,
    hlen]

theorem length_headerStr_signerHeaders :
    (headerStr (signerHeaders ssl signer junk headers body domain selector ts)).length =
      textLength junk headers body domain selector ts := by
  have hname : (bytes "dkim-signature").length = 14 := by decide
  rw [signerHeaders, length_headerStr_concat, signerField, dkimString_length, length_headerListText,
    length_bodyHashText hssl, hname, textLength]
  omega

theorem strWrites_iff :
    (∀ w ∈ stringWrites 0 (signerHeaders ssl signer junk headers body domain selector ts),
        w.offset + w.length ≤ 1500 * (headers.length + 1)) ↔
      textLength junk headers body domain selector ts ≤ 1500 * (headers.length + 1) := by
  have hne : signerHeaders ssl signer junk headers body domain selector ts ≠ [] := by
    simp [signerHeaders]
  rw [stringWrites_inside_iff hne, length_headerStr_signerHeaders hssl, Nat.zero_add]

/-- The run, by the lengths of what it is given. -/
theorem signerRun_inBounds_iff_lengths :
    (signerRun ssl signer junk headers body pkey domain selector ts).InBounds ↔
      ((signer.readPrivate pkey).isSome → NamesFit headers ∧
          textLength junk headers body domain selector ts ≤ 1500 * (headers.length + 1)) ∧
        ∀ s ∈ (signerRun ssl signer junk headers body pkey domain selector ts).wrapped,
          3 * wrapBreaks s ≤ 2 * s.length := by
  unfold signerRun
  cases hkey : signer.readPrivate pkey with
  | none => exact iff_of_true ⟨nofun, Nat.le_refl 0, nofun, nofun⟩ ⟨nofun, nofun⟩
  | some rsaPrivate =>
    constructor
    · intro h
      exact ⟨fun _ => ⟨(listWrites_relaxed_iff headers).mp h.list,
          (strWrites_iff hssl signer junk headers body domain selector ts).mp h.str⟩,
        fun s hs => (wrapWrites_lt_iff s).mp (h.wrap s hs)⟩
    · rintro ⟨hblocks, hwrap⟩
      obtain ⟨hnames, htext⟩ := hblocks rfl
      exact ⟨(listWrites_relaxed_iff headers).mpr hnames, dkimString_fits _ _ _ _ _ _,
        (strWrites_iff hssl signer junk headers body domain selector ts).mpr htext,
        fun s hs => (wrapWrites_lt_iff s).mpr (hwrap s hs)⟩

/-- **The writes of `wrap` stay in its block exactly when** the breaks of its
string are no more than two for three bytes, **and those of the signer in its
blocks exactly when** the names fit, the text of the headers fits, and that
holds of the field with its signature. -/
theorem signerRun_inBounds_iff :
    (∀ s : Bytes, (∀ i ∈ wrapWrites 0 0 s, i < 3 * s.length + 1) ↔
        3 * wrapBreaks s ≤ 2 * s.length) ∧
      ((signerRun ssl signer junk headers body pkey domain selector ts).InBounds ↔
        ((signer.readPrivate pkey).isSome → NamesFit headers ∧
            textLength junk headers body domain selector ts ≤ 1500 * (headers.length + 1)) ∧
          ∀ s ∈ (signerRun ssl signer junk headers body pkey domain selector ts).wrapped,
            3 * wrapBreaks s ≤ 2 * s.length) :=
  ⟨wrapWrites_lt_iff,
    signerRun_inBounds_iff_lengths hssl signer junk headers body pkey domain selector ts⟩

end

theorem not_error_ok {ε α : Type} (x : α) : ¬∃ fault : ε, Except.ok x = .error fault := by
  intro h
  obtain ⟨fault, hfault⟩ := h
  cases hfault

section

variable {Key PrivateKey : Type} {ssl : OpenSsl Key} (hssl : ssl.EncodesBase64)
  (signer : Signer PrivateKey) (junk : Bytes) {headers : List StringPair} (hne : headers ≠ [])
  (body pkey domain selector : Bytes) (ts : Int)

include hssl hne

omit hssl in
/-- The call, by the strings of the run. -/
theorem dkimCreate_eq {rsaPrivate : PrivateKey} (hkey : signer.readPrivate pkey = some rsaPrivate) :
    let field := signerField ssl signer junk headers body domain selector ts
    let text := headerStr (signerHeaders ssl signer junk headers body domain selector ts)
    dkimCreate ssl signer headers body pkey domain selector ts =
      if 200 * headers.length ≤ (headerListText junk headers).length then .error .headerList
      else if 1500 * (headers.length + 1) < text.length then .error .headerStr
      else (signer.rsaSign (signer.sha1 text) rsaPrivate).elim (.ok none) fun sig =>
        if 3 * (field ++ base64Encode ssl sig).length <
            (wrap 0 (field ++ base64Encode ssl sig)).length then .error .wrap
        else .ok (some (wrap 0 (field ++ base64Encode ssl sig))) := by
  have hlist : headerList [] (relaxedHeaderCanon headers) = headerListText junk headers := by
    rw [headerListText, if_neg hne]
  have hfield : dkimString selector domain (toInt (relaxedBodyCanon body).length) (toInt ts)
      (headerListText junk headers) (base64Encode ssl (signer.sha1 (relaxedBodyCanon body)).toList) =
        signerField ssl signer junk headers body domain selector ts := rfl
  have hheaders : relaxedHeaderCanon headers ++
      [⟨bytes "dkim-signature", signerField ssl signer junk headers body domain selector ts⟩] =
        signerHeaders ssl signer junk headers body domain selector ts := rfl
  simp only [dkimCreate, hkey, hlist, hfield, hheaders]
  congr 2
  generalize signer.rsaSign _ rsaPrivate = signature
  cases signature with
  | none => simp only [Option.elim_none]
  | some sig => simp only [Option.elim_some]

/-- **A call of the signer ends in a fault exactly when its run leaves a block**,
as long as there is a header. -/
theorem dkimCreate_error_iff :
    (∃ fault, dkimCreate ssl signer headers body pkey domain selector ts = .error fault) ↔
      ¬(signerRun ssl signer junk headers body pkey domain selector ts).InBounds := by
  have hnames : 200 * headers.length ≤ (headerListText junk headers).length ↔ ¬NamesFit headers := by
    rw [length_headerListText, listLength, if_neg hne, NamesFit, or_iff_right hne, Nat.not_lt]
  rw [signerRun_inBounds_iff_lengths hssl]
  cases hkey : signer.readPrivate pkey with
  | none =>
    rw [dkimCreate, signerRun, hkey]
    refine iff_of_false (not_error_ok none) (not_not.mpr ⟨fun h => ?_, fun s hs => ?_⟩)
    · cases h
    · cases hs
  | some rsaPrivate =>
    have hwrapped : (signerRun ssl signer junk headers body pkey domain selector ts).wrapped =
        (signer.rsaSign (signer.sha1 (headerStr
          (signerHeaders ssl signer junk headers body domain selector ts))) rsaPrivate).map fun sig =>
            signerField ssl signer junk headers body domain selector ts ++ base64Encode ssl sig := by
      rw [signerRun, hkey]
    rw [dkimCreate_eq signer junk hne body pkey domain selector ts hkey, hwrapped,
      length_headerStr_signerHeaders hssl]
    by_cases hlist : NamesFit headers
    · rw [if_neg (mt hnames.mp (not_not.mpr hlist))]
      by_cases htext : textLength junk headers body domain selector ts ≤ 1500 * (headers.length + 1)
      · rw [if_neg (Nat.not_lt.mpr htext)]
        cases signer.rsaSign (signer.sha1 (headerStr
            (signerHeaders ssl signer junk headers body domain selector ts))) rsaPrivate with
        | none =>
          refine iff_of_false (not_error_ok none) (not_not.mpr ⟨fun _ => ⟨hlist, htext⟩, fun s hs => ?_⟩)
          cases hs
        | some sig =>
          -- the field with its signature is wrapped
          rw [Option.elim_some, Option.map_some, wrap_length]
          generalize signerField ssl signer junk headers body domain selector ts ++
            base64Encode ssl sig = s
          by_cases hwrap : 3 * wrapBreaks s ≤ 2 * s.length
          · rw [if_neg (by omega)]
            refine iff_of_false (not_error_ok _)
              (not_not.mpr ⟨fun _ => ⟨hlist, htext⟩, fun s' hs' => ?_⟩)
            rw [← Option.some.inj hs']
            exact hwrap
          · rw [if_pos (by omega)]
            exact iff_of_true ⟨_, rfl⟩ fun h => hwrap (h.2 s rfl)
      · rw [if_pos (Nat.not_le.mp htext)]
        exact iff_of_true ⟨_, rfl⟩ fun h => htext (h.1 rfl).2
    · rw [if_pos (hnames.mpr hlist)]
      exact iff_of_true ⟨_, rfl⟩ fun h => hlist (h.1 rfl).1

end

section Examples

theorem signerRun_inBounds_iff_shortKey :
    (∀ s : Bytes, (∀ i ∈ wrapWrites 0 0 s, i < 3 * s.length + 1) ↔
        3 * wrapBreaks s ≤ 2 * s.length) ∧
      ((signerRun signerSsl shortKey.signer [] [signedHeader] (bytes "hi\r\n") shortKey.pem
          (bytes "a.se") (bytes "k") 1300000000).InBounds ↔
        ((shortKey.signer.readPrivate shortKey.pem).isSome → NamesFit [signedHeader] ∧
            textLength [] [signedHeader] (bytes "hi\r\n") (bytes "a.se") (bytes "k") 1300000000 ≤
              1500 * ([signedHeader].length + 1)) ∧
          ∀ s ∈ (signerRun signerSsl shortKey.signer [] [signedHeader] (bytes "hi\r\n") shortKey.pem
              (bytes "a.se") (bytes "k") 1300000000).wrapped,
            3 * wrapBreaks s ≤ 2 * s.length) :=
  signerRun_inBounds_iff signerSsl_encodesBase64 shortKey.signer [] [signedHeader] (bytes "hi\r\n")
    shortKey.pem (bytes "a.se") (bytes "k") 1300000000

/-- A header whose name has `n` bytes. -/
def longName (n : Nat) : List StringPair := [⟨List.replicate n 120, [49]⟩]

/-- A header whose value has `n` bytes. -/
def longValue (n : Nat) : List StringPair := [⟨bytes "from", List.replicate n 118⟩]

theorem not_namesFit_longName {n : Nat} (h : 200 ≤ n) : ¬NamesFit (longName n) := by
  rintro (hnil | hlt)
  · cases hnil
  · rw [longName, namesLength_singleton, List.length_replicate, List.length_singleton] at hlt
    omega

theorem lt_textLength_longValue {n : Nat} (hn : 0 < n) (junk body domain selector : Bytes) (ts : Int) :
    n < textLength junk (longValue n) body domain selector ts := by
  have hword : Word (List.replicate n 118) := by
    refine ⟨List.length_pos_iff.mp (by rwa [List.length_replicate]), fun c hc => ?_⟩
    rw [List.eq_of_mem_replicate hc]
    decide
  rw [textLength, fieldsLength, longValue, List.map_cons, List.sum_cons, relaxedValue_word hword,
    List.length_replicate]
  omega

/-- The long name is written behind `header_list`, the long value behind
`header_str`, and the terminator of a wrapped SP behind its block. -/
theorem long_names_and_values_overflow :
    (¬(signerRun signerSsl shortKey.signer [] (longName 200) (bytes "hi\r\n") shortKey.pem
        (bytes "a.se") (bytes "k") 1300000000).InBounds) ∧
      (¬(signerRun signerSsl shortKey.signer [] (longValue 3000) (bytes "hi\r\n") shortKey.pem
        (bytes "a.se") (bytes "k") 1300000000).InBounds) ∧
      ¬∀ i ∈ wrapWrites 0 0 [32], i < 3 * ([32] : Bytes).length + 1 := by
  have hkey : (shortKey.signer.readPrivate shortKey.pem).isSome = true := by
    rw [shortKey.readPrivate_pem, Option.isSome_some]
  refine ⟨fun h => ?_, fun h => ?_, by decide⟩
  · have hblocks := (signerRun_inBounds_iff_lengths signerSsl_encodesBase64 _ _ _ _ _ _ _ _).mp h
    exact not_namesFit_longName (Nat.le_refl 200) (hblocks.1 hkey).1
  · have hblocks := (signerRun_inBounds_iff_lengths signerSsl_encodesBase64 _ _ _ _ _ _ _ _).mp h
    have hlt := lt_textLength_longValue (show 0 < 3000 by decide) [] (bytes "hi\r\n") (bytes "a.se")
      (bytes "k") 1300000000
    exact absurd (hblocks.1 hkey).2 (Nat.not_le.mpr hlt)

end Examples

end ComfirmDmarc.Dkim
