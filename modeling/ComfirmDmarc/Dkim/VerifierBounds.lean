import ComfirmDmarc.Dkim.MissingTags
import ComfirmDmarc.Dkim.QueuedMail

/-!
# Dkim -- the verifier's arrays

`dkim_validate` puts the headers it finds for the names in `h=` in the 50 slots
of `inc_headers`, and their canonical text in a block of 1500 bytes a header.
What it writes to the two is recorded. The block is always large enough; the
slots are counted by names and headers together, and nothing limits that.
-/

namespace ComfirmDmarc.Dkim

open CMemory

/-! ## The code -/

/-- `inc_headers` on the way: the slots written so far, and `inc_headerc`. -/
structure IncHeaders where
  slots : List Nat
  count : Nat

namespace IncHeaders

/-- `inc_headers[inc_headerc++] = new_header`. -/
def add (inc : IncHeaders) : IncHeaders := ⟨inc.slots ++ [inc.count], inc.count + 1⟩

/-- The loop through all mail headers, for one name. -/
def find (headers : List StringPair) (inc : IncHeaders) (name : Bytes) : IncHeaders :=
  headers.foldl (fun inc h => if startsWith (h.key.map tolower) name then inc.add else inc) inc

/-- The loop over the names in `dh->h`. -/
def findAll (headers : List StringPair) (h : Bytes) : IncHeaders :=
  (headerNames [] h).foldl (find headers) ⟨[], 0⟩

end IncHeaders

/-- A write of `length` bytes to `header_str`. -/
structure StrWrite where
  offset : Nat
  length : Nat

/-- The loop that makes a string of all headers, from `header_str_len` on. The
terminator of the line break is copied too. -/
def stringWrites (headerStrLen : Nat) : List StringPair → List StrWrite
  | [] => []
  | h :: hs =>
    let colon := headerStrLen + h.key.length
    let lineEnd := colon + 1 + h.value.length
    [⟨headerStrLen, h.key.length⟩, ⟨colon, 1⟩, ⟨colon + 1, h.value.length⟩] ++
      if hs = [] then [] else ⟨lineEnd, 3⟩ :: stringWrites (lineEnd + 2) hs

/-- The terminator that is stored behind the `=` of the old signature. -/
def cutWrite (text mem : Bytes) (bLen : Nat) : List StrWrite :=
  ((signatureEnd text (mem.drop text.length) bLen).map fun i => ⟨i + 1, 1⟩).toList

/-- What a call of `dkim_validate` writes: the slots of `inc_headers`, and in
the block of `1500 * headerCount` bytes. -/
structure VerifierRun where
  slots : List Nat
  headerCount : Nat
  writes : List StrWrite

/-- `dkim_validate`, up to the decoding of the signature. -/
def verifierRun {Key : Type} (ssl : OpenSsl Key) (mem : Bytes) (headers : List StringPair)
    (body : Bytes) (dh : Tag → Bytes) : VerifierRun :=
  let inc := IncHeaders.findAll headers (dh .h)
  if ¬dkimCheckCompability dh then ⟨inc.slots, inc.count, []⟩
  else if ¬dkimValidateBodyHash ssl dh body then ⟨inc.slots, inc.count, []⟩
  else
    let inc := inc.add
    match findSignature headers with
    | none => ⟨inc.slots, inc.count, []⟩
    | some sig =>
      let signed := signedHeaders headers (dh .h) sig
      ⟨inc.slots, inc.count,
        stringWrites 0 signed ++ cutWrite (headerStr signed) mem (dh .b).length⟩

/-- **Every write of the run lies in its array.** -/
structure VerifierRun.InBounds (run : VerifierRun) : Prop where
  slots : ∀ i ∈ run.slots, i < incHeadersMax
  writes : ∀ w ∈ run.writes, w.offset + w.length ≤ 1500 * run.headerCount

/-! ## What `validate_dkim` can pass -/

/-- The strings of a mail and of its signature, which end in their arrays. -/
structure VerifierInput (headers : List StringPair) (dh : Tag → Bytes) : Prop where
  headers_le : headers.length ≤ headerMaxLen
  key_lt : ∀ h ∈ headers, h.key.length < keyMaxLen
  value_lt : ∀ h ∈ headers, h.value.length < valueMaxLen
  value_nul : ∀ h ∈ headers, (0 : UInt8) ∉ h.value
  h_lt : (dh .h).length < dkimValueMaxLen

theorem length_str_lt {n : Nat} {array : Vector UInt8 n} (h : (0 : UInt8) ∈ array.toList) :
    (str array.toList).length < n := by
  simpa using str_length_lt h

/-- A value that was read is cut to its buffer. -/
theorem HeaderBlock.parse_h_lt (block : HeaderBlock) {sig : Bytes} (hsig : (0 : UInt8) ∉ sig)
    {x : Bytes} (hx : lastValue .h (signatureValues sig) = some x) :
    ((block.parse sig).text .h).length < dkimValueMaxLen := by
  rw [block.parse_text hsig hx, List.length_take, dkimValueMaxLen]
  omega

/-- **The headers of a mail and the signature that is parsed from them** are
such an input, when the arrays of the mail have a terminator. -/
theorem VerifierInput.of_mail {m : Mail}
    (hterm : ∀ h ∈ m.headers.toList, (0 : UInt8) ∈ h.key.toList ∧ (0 : UInt8) ∈ h.value.toList)
    (block : HeaderBlock) {sig : Bytes} (hsig : (0 : UInt8) ∉ sig) {x : Bytes}
    (hx : lastValue .h (signatureValues sig) = some x) :
    VerifierInput (mailHeaders m) (block.parse sig).text where
  headers_le := by
    rw [mailHeaders, List.length_map, List.length_take, Vector.length_toList]
    exact Nat.min_le_right _ _
  key_lt := by
    intro h hmem
    obtain ⟨hdr, hhdr, rfl⟩ := List.mem_map.mp hmem
    exact length_str_lt (hterm hdr (List.mem_of_mem_take hhdr)).1
  value_lt := by
    intro h hmem
    obtain ⟨hdr, hhdr, rfl⟩ := List.mem_map.mp hmem
    exact length_str_lt (hterm hdr (List.mem_of_mem_take hhdr)).2
  value_nul := by
    intro h hmem
    obtain ⟨hdr, -, rfl⟩ := List.mem_map.mp hmem
    exact not_mem_str _
  h_lt := block.parse_h_lt hsig hx

/-! ## The slots -/

/-- How many headers the names in `h=` have, a header counted for each name that
its lower-case name starts with. -/
def matchCount (headers : List StringPair) (h : Bytes) : Nat :=
  ((headerNames [] h).map fun name =>
    headers.countP fun hdr => startsWith (hdr.key.map tolower) name).sum

namespace IncHeaders

/-- The slots are written one after the other. -/
def Filled (inc : IncHeaders) : Prop := inc.slots = List.range inc.count

theorem Filled.add {inc : IncHeaders} (h : inc.Filled) : inc.add.Filled := by
  rw [Filled, IncHeaders.add, h, List.range_succ]

/-- **One name**: a slot for each header that matches. -/
theorem find_spec (headers : List StringPair) {inc : IncHeaders} (h : inc.Filled) (name : Bytes) :
    (inc.find headers name).Filled ∧
      (inc.find headers name).count =
        inc.count + headers.countP fun hdr => startsWith (hdr.key.map tolower) name := by
  unfold find
  induction headers generalizing inc with
  | nil => exact ⟨h, rfl⟩
  | cons hdr headers ih =>
    rw [List.foldl_cons, List.countP_cons]
    by_cases hmatch : startsWith (hdr.key.map tolower) name = true
    · rw [if_pos hmatch, if_pos hmatch]
      obtain ⟨hfilled, hcount⟩ := ih h.add
      refine ⟨hfilled, hcount.trans ?_⟩
      show inc.count + 1 + _ = inc.count + (_ + 1)
      omega
    · rw [if_neg hmatch, if_neg hmatch]
      exact ih h

/-- **All names.** -/
theorem findAll_spec (headers : List StringPair) (h : Bytes) :
    (findAll headers h).Filled ∧ (findAll headers h).count = matchCount headers h := by
  suffices hrun : ∀ (names : List Bytes) (inc : IncHeaders), inc.Filled →
      (names.foldl (find headers) inc).Filled ∧
        (names.foldl (find headers) inc).count = inc.count + (names.map fun name =>
          headers.countP fun hdr => startsWith (hdr.key.map tolower) name).sum by
    obtain ⟨hfilled, hcount⟩ := hrun (headerNames [] h) ⟨[], 0⟩ rfl
    exact ⟨hfilled, hcount.trans (Nat.zero_add _)⟩
  intro names
  induction names with
  | nil => exact fun inc hinc => ⟨hinc, rfl⟩
  | cons name names ih =>
    intro inc hinc
    obtain ⟨hfilled, hcount⟩ := find_spec headers hinc name
    obtain ⟨hrest, hsum⟩ := ih _ hfilled
    rw [List.foldl_cons, List.map_cons, List.sum_cons]
    exact ⟨hrest, by rw [hsum, hcount, Nat.add_assoc]⟩

theorem Filled.slots_lt_iff {inc : IncHeaders} (h : inc.Filled) (n : Nat) :
    (∀ i ∈ inc.slots, i < n) ↔ inc.count ≤ n := by
  rw [h]
  constructor
  · intro hall
    by_contra hlt
    exact absurd (hall n (List.mem_range.mpr (by omega))) (Nat.lt_irrefl n)
  · intro hle i hi
    exact (List.mem_range.mp hi).trans_le hle

end IncHeaders

/-- As many headers are included as slots are filled. -/
theorem length_includeHeaders (headers : List StringPair) (h : Bytes) :
    (includeHeaders headers h).length = matchCount headers h := by
  rw [includeHeaders, matchCount, List.length_flatMap]
  simp only [List.countP_eq_length_filter]

/-! ## The block -/

theorem headerStr_cons (h : StringPair) {hs : List StringPair} (hne : hs ≠ []) :
    headerStr (h :: hs) = h.line ++ crlf ++ headerStr hs := by
  cases hs with
  | nil => exact absurd rfl hne
  | cons g gs => rfl

theorem length_line (h : StringPair) : h.line.length = h.key.length + 1 + h.value.length := by
  rw [StringPair.line, List.length_append, List.length_cons]
  omega

/-- The text of some headers has at least one byte. -/
theorem headerStr_pos {hs : List StringPair} (hne : hs ≠ []) : 0 < (headerStr hs).length := by
  cases hs with
  | nil => exact absurd rfl hne
  | cons h hs =>
    by_cases hnil : hs = []
    · rw [hnil, headerStr, length_line]
      omega
    · rw [headerStr_cons h hnil, List.length_append, List.length_append, length_line]
      omega

/-- **The loop writes up to the end of the text**, and no further. -/
theorem stringWrites_inside_iff {hs : List StringPair} (hne : hs ≠ []) (off size : Nat) :
    (∀ w ∈ stringWrites off hs, w.offset + w.length ≤ size) ↔
      off + (headerStr hs).length ≤ size := by
  induction hs generalizing off with
  | nil => exact absurd rfl hne
  | cons h hs ih =>
    rw [stringWrites]
    by_cases hnil : hs = []
    · rw [hnil, if_pos rfl, headerStr, length_line]
      simp only [List.append_nil, List.forall_mem_cons, List.not_mem_nil, false_imp_iff,
        implies_true, and_true]
      omega
    · rw [if_neg hnil, headerStr_cons h hnil, List.length_append, List.length_append, length_line]
      simp only [List.cons_append, List.nil_append, List.forall_mem_cons, ih hnil]
      have hpos := headerStr_pos hnil
      have hcrlf : crlf.length = 2 := rfl
      omega

/-- The old signature is cut off inside of the text or just behind it. -/
theorem cutWrite_le {text mem : Bytes} {bLen : Nat} {w : StrWrite}
    (hw : w ∈ cutWrite text mem bLen) : w.offset + w.length ≤ text.length + 2 := by
  rw [cutWrite, Option.mem_toList, Option.map_eq_some_iff] at hw
  obtain ⟨i, hi, rfl⟩ := hw
  have hle := (findB_eq_some_iff.mp hi).1
  show i + 1 + 1 ≤ text.length + 2
  omega

theorem dkimSignature_short : (bytes "dkim-signature").length < keyMaxLen := by decide

/-- The headers as they are written are as short as those that came in. -/
theorem signedHeaders_short {headers : List StringPair} {dh : Tag → Bytes}
    (hin : VerifierInput headers dh) {sig : StringPair} (hsig : sig ∈ headers) {h : StringPair}
    (hmem : h ∈ signedHeaders headers (dh .h) sig) :
    h.key.length < keyMaxLen ∧ h.value.length < valueMaxLen := by
  rw [signedHeaders, relaxedHeaderCanon] at hmem
  obtain ⟨raw, hraw, rfl⟩ := List.mem_map.mp hmem
  suffices hshort : raw.key.length < keyMaxLen ∧ raw.value.length < valueMaxLen ∧
      (0 : UInt8) ∉ raw.value by
    obtain ⟨hkey, hvalue, hnul⟩ := hshort
    exact ⟨by rwa [List.length_map], (length_relaxedValue_le hnul).trans_lt hvalue⟩
  rcases List.mem_append.mp hraw with hinc | hlast
  · -- one of the headers of the mail
    obtain ⟨name, -, hfound⟩ := List.mem_flatMap.mp hinc
    have hold := List.mem_of_mem_filter hfound
    exact ⟨hin.key_lt raw hold, hin.value_lt raw hold, hin.value_nul raw hold⟩
  · rw [List.mem_singleton.mp hlast]
    exact ⟨dkimSignature_short, hin.value_lt sig hsig, hin.value_nul sig hsig⟩

/-- **The text of short headers takes 1153 bytes for each**, with the line
break that the last one lacks. -/
theorem length_headerStr_le {hs : List StringPair} (hne : hs ≠ [])
    (hshort : ∀ h ∈ hs, h.key.length < keyMaxLen ∧ h.value.length < valueMaxLen) :
    (headerStr hs).length + 2 ≤ 1153 * hs.length := by
  induction hs with
  | nil => exact absurd rfl hne
  | cons h hs ih =>
    obtain ⟨hkey, hvalue⟩ := hshort h List.mem_cons_self
    rw [keyMaxLen] at hkey
    rw [valueMaxLen] at hvalue
    by_cases hnil : hs = []
    · rw [hnil, headerStr, length_line, List.length_singleton]
      omega
    · have hrest := ih hnil fun g hg => hshort g (List.mem_cons_of_mem _ hg)
      have hcrlf : crlf.length = 2 := rfl
      rw [headerStr_cons h hnil, List.length_append, List.length_append, length_line,
        List.length_cons]
      omega

theorem length_signedHeaders (headers : List StringPair) (h : Bytes) (sig : StringPair) :
    (signedHeaders headers h sig).length = matchCount headers h + 1 := by
  rw [signedHeaders, relaxedHeaderCanon, List.length_map, List.length_append,
    length_includeHeaders, List.length_singleton]

theorem signedHeaders_ne_nil (headers : List StringPair) (h : Bytes) (sig : StringPair) :
    signedHeaders headers h sig ≠ [] := by
  rw [← List.length_pos_iff, length_signedHeaders]
  exact Nat.succ_pos _

/-- **Every write to the block lies in it**, for any number of headers. -/
theorem signedHeaders_writes_le {headers : List StringPair} {dh : Tag → Bytes}
    (hin : VerifierInput headers dh) {sig : StringPair} (hsig : sig ∈ headers) (mem : Bytes)
    (bLen : Nat) :
    ∀ w ∈ stringWrites 0 (signedHeaders headers (dh .h) sig) ++
        cutWrite (headerStr (signedHeaders headers (dh .h) sig)) mem bLen,
      w.offset + w.length ≤ 1500 * (matchCount headers (dh .h) + 1) := by
  have hne := signedHeaders_ne_nil headers (dh .h) sig
  have hlen := length_headerStr_le hne fun h => signedHeaders_short hin hsig
  rw [length_signedHeaders] at hlen
  intro w hw
  rcases List.mem_append.mp hw with hstring | hcut
  · exact (stringWrites_inside_iff hne 0 _).mpr (by omega) w hstring
  · have := cutWrite_le hcut
    omega

/-! ## The run and the call -/

/-- Whether the header of the signature gets a slot too. -/
def Checked {Key : Type} (ssl : OpenSsl Key) (dh : Tag → Bytes) (body : Bytes) : Prop :=
  dkimCheckCompability dh = true ∧ dkimValidateBodyHash ssl dh body = true

/-- The writes to the block for the signature header `sig` lie in it. -/
def BlockInside (mem : Bytes) (headers : List StringPair) (dh : Tag → Bytes) (sig : StringPair) :
    Prop :=
  ∀ w ∈ stringWrites 0 (signedHeaders headers (dh .h) sig) ++
      cutWrite (headerStr (signedHeaders headers (dh .h) sig)) mem (dh .b).length,
    w.offset + w.length ≤ 1500 * (matchCount headers (dh .h) + 1)

/-- The run, by what it counts. -/
theorem inBounds_iff_counts {Key : Type} (ssl : OpenSsl Key) (mem : Bytes)
    (headers : List StringPair) (body : Bytes) (dh : Tag → Bytes) :
    (verifierRun ssl mem headers body dh).InBounds ↔
      matchCount headers (dh .h) ≤ incHeadersMax ∧
        (Checked ssl dh body → matchCount headers (dh .h) < incHeadersMax ∧
          ∀ sig, findSignature headers = some sig → BlockInside mem headers dh sig) := by
  obtain ⟨hfilled, hcount⟩ := IncHeaders.findAll_spec headers (dh .h)
  have hslots := hfilled.slots_lt_iff incHeadersMax
  have hsigSlots := hfilled.add.slots_lt_iff incHeadersMax
  have hsigCount : (IncHeaders.findAll headers (dh .h)).add.count =
      matchCount headers (dh .h) + 1 := congrArg (· + 1) hcount
  rw [hcount] at hslots
  rw [hsigCount] at hsigSlots
  have hunchecked : ∀ count,
      VerifierRun.InBounds ⟨(IncHeaders.findAll headers (dh .h)).slots, count, []⟩ ↔
        matchCount headers (dh .h) ≤ incHeadersMax :=
    fun count => ⟨fun h => hslots.mp h.slots, fun h => ⟨hslots.mpr h, nofun⟩⟩
  unfold verifierRun
  by_cases hcompat : dkimCheckCompability dh = true
  · by_cases hhash : dkimValidateBodyHash ssl dh body = true
    · -- the signature header is added
      rw [if_neg (not_not.mpr hcompat), if_neg (not_not.mpr hhash)]
      cases hsig : findSignature headers with
      | none =>
        constructor
        · intro h
          have hlt := hsigSlots.mp h.slots
          exact ⟨Nat.le_of_succ_le hlt, fun _ => ⟨hlt, nofun⟩⟩
        · intro h
          exact ⟨hsigSlots.mpr (h.2 ⟨hcompat, hhash⟩).1, nofun⟩
      | some sig =>
        constructor
        · intro h
          have hlt := hsigSlots.mp h.slots
          refine ⟨Nat.le_of_succ_le hlt, fun _ => ⟨hlt, fun _ heq => ?_⟩⟩
          rw [← Option.some.inj heq, BlockInside, ← hsigCount]
          exact h.writes
        · intro h
          obtain ⟨hlt, hblock⟩ := h.2 ⟨hcompat, hhash⟩
          refine ⟨hsigSlots.mpr hlt, ?_⟩
          have hinside := hblock sig rfl
          rw [BlockInside, ← hsigCount] at hinside
          exact hinside
    · rw [if_neg (not_not.mpr hcompat), if_pos hhash, hunchecked]
      exact ⟨fun h => ⟨h, fun hc => absurd hc.2 hhash⟩, And.left⟩
  · rw [if_pos hcompat, hunchecked]
    exact ⟨fun h => ⟨h, fun hc => absurd hc.1 hcompat⟩, And.left⟩

/-- The writes to the block, against the check that ends a call of the
verifier. -/
theorem writes_inside_iff {hs : List StringPair} (hne : hs ≠ []) (mem : Bytes) (bLen size : Nat) :
    (∀ w ∈ stringWrites 0 hs ++ cutWrite (headerStr hs) mem bLen, w.offset + w.length ≤ size) ↔
      ¬(size < (headerStr hs).length ∨
        (signatureEnd (headerStr hs) (mem.drop (headerStr hs).length) bLen).any
          (size ≤ · + 1)) := by
  rw [List.forall_mem_append, stringWrites_inside_iff hne, Nat.zero_add, cutWrite, not_or,
    Nat.not_lt]
  refine and_congr_right fun _ => ?_
  cases signatureEnd (headerStr hs) (mem.drop (headerStr hs).length) bLen with
  | none => simp
  | some i =>
    simp only [Option.map_some, Option.toList_some, List.mem_singleton, forall_eq, Option.any_some,
      decide_eq_true_eq]
    omega

/-- What the verifier does with the text ends in a fault only where the text or
the cut leaves the block. -/
theorem verifyHeaderStr_error_iff {Key : Type} (ssl : OpenSsl Key) (mem text : Bytes) (count : Nat)
    (dh : Tag → Bytes) (publicKey : Bytes) :
    (∃ fault, fault ≠ .noSignature ∧
        verifyHeaderStr ssl mem text count dh publicKey = .error fault) ↔
      (1500 * count < text.length ∨
        (signatureEnd text (mem.drop text.length) (dh .b).length).any (1500 * count ≤ · + 1)) := by
  unfold verifyHeaderStr
  by_cases hover : 1500 * count < text.length ∨
      (signatureEnd text (mem.drop text.length) (dh .b).length).any (1500 * count ≤ · + 1)
  · rw [if_pos hover]
    exact iff_of_true ⟨.headerStr, by decide, rfl⟩ hover
  · rw [if_neg hover]
    refine iff_of_false ?_ hover
    rintro ⟨fault, -, herror⟩
    by_cases hsig : base64Decode ssl (dh .b) = []
    · rw [if_pos hsig] at herror
      cases herror
    · rw [if_neg hsig] at herror
      split at herror <;> cases herror

/-- **A call of the verifier ends in a fault of one of the two arrays exactly
when its run leaves one.** -/
theorem dkimValidate_overflows_iff {Key : Type} (ssl : OpenSsl Key) (mem : Bytes)
    (headers : List StringPair) (body : Bytes) (dh : Tag → Bytes) (publicKey : Bytes) :
    (∃ fault, fault ≠ .noSignature ∧
        dkimValidate ssl mem headers body dh publicKey = .error fault) ↔
      ¬(verifierRun ssl mem headers body dh).InBounds := by
  rw [inBounds_iff_counts]
  unfold dkimValidate
  simp only [length_includeHeaders]
  by_cases hfull : incHeadersMax < matchCount headers (dh .h)
  · -- the slots run out in the loops
    rw [if_pos hfull]
    exact iff_of_true ⟨.incHeaders, by decide, rfl⟩ fun h => absurd h.1 (Nat.not_le.mpr hfull)
  · rw [if_neg hfull]
    have hle := Nat.not_lt.mp hfull
    by_cases hcompat : dkimCheckCompability dh = true
    · by_cases hhash : dkimValidateBodyHash ssl dh body = true
      · rw [if_neg (not_not.mpr hcompat), if_neg (not_not.mpr hhash)]
        by_cases hlast : incHeadersMax ≤ matchCount headers (dh .h)
        · -- there is none left for the signature header
          rw [if_pos hlast]
          exact iff_of_true ⟨.incHeaders, by decide, rfl⟩
            fun h => absurd (h.2 ⟨hcompat, hhash⟩).1 (Nat.not_lt.mpr hlast)
        · rw [if_neg hlast]
          cases hsig : findSignature headers with
          | none =>
            refine iff_of_false ?_ (not_not.mpr ⟨hle, fun _ => ⟨Nat.not_le.mp hlast, nofun⟩⟩)
            rintro ⟨fault, hne, herror⟩
            exact hne (Except.error.inj herror).symm
          | some sig =>
            rw [verifyHeaderStr_error_iff, ← not_iff_not, not_not,
              ← writes_inside_iff (signedHeaders_ne_nil headers (dh .h) sig)]
            constructor
            · intro h
              exact ⟨hle, fun _ => ⟨Nat.not_le.mp hlast, fun _ heq => Option.some.inj heq ▸ h⟩⟩
            · intro h
              exact (h.2 ⟨hcompat, hhash⟩).2 sig rfl
      · rw [if_neg (not_not.mpr hcompat), if_pos hhash]
        exact iff_of_false nofun (not_not.mpr ⟨hle, fun hc => absurd hc.2 hhash⟩)
    · rw [if_pos hcompat]
      exact iff_of_false nofun (not_not.mpr ⟨hle, fun hc => absurd hc.1 hcompat⟩)

/-! ## When the verifier stays in its arrays -/

/-- **Every write lies in its array exactly when the headers that match have
slots**, 50 of them, or 49 where the signature is checked further and takes one
itself. -/
theorem verifierRun_inBounds_iff {Key : Type} (ssl : OpenSsl Key) (mem : Bytes)
    {headers : List StringPair} (body : Bytes) {dh : Tag → Bytes} (hin : VerifierInput headers dh) :
    (verifierRun ssl mem headers body dh).InBounds ↔
      matchCount headers (dh .h) ≤ incHeadersMax ∧
        (Checked ssl dh body → matchCount headers (dh .h) < incHeadersMax) := by
  rw [inBounds_iff_counts]
  have hblock : ∀ sig, findSignature headers = some sig → BlockInside mem headers dh sig :=
    fun sig hsig => signedHeaders_writes_le hin (List.mem_of_find?_eq_some hsig) mem _
  constructor
  · intro h
    exact ⟨h.1, fun hc => (h.2 hc).1⟩
  · intro h
    exact ⟨h.1, fun hc => ⟨h.2 hc, hblock⟩⟩

section Examples

/-- A signature whose `h=` names `from` once. -/
def fromSignature : Bytes := bytes "h=from"

/-- A mail with a header of that name. -/
def fromHeaders : List StringPair :=
  [⟨bytes "From", bytes "a@a.se"⟩, ⟨bytes "DKIM-Signature", fromSignature⟩]

/-- A signature that names `d` 51 times. -/
def repeatedName : Bytes := 104 :: 61 :: manyNames

/-- A mail with no other header. -/
def repeatedHeaders : List StringPair := [⟨bytes "DKIM-Signature", repeatedName⟩]

/-- A block of zero bytes. -/
def zeroBlock : HeaderBlock := ⟨fun _ => Vector.replicate _ 0, []⟩

theorem fromHeaders_input : VerifierInput fromHeaders (zeroBlock.parse fromSignature).text where
  headers_le := by decide
  key_lt := by decide
  value_lt := by decide
  value_nul := by decide
  h_lt := by
    have hread : lastValue .h (signatureValues fromSignature) = some (bytes "from") := by
      decide +kernel
    exact zeroBlock.parse_h_lt (by decide) hread

theorem verifierRun_inBounds_iff_from :
    (verifierRun demoSsl [] fromHeaders [] (zeroBlock.parse fromSignature).text).InBounds ↔
      matchCount fromHeaders ((zeroBlock.parse fromSignature).text .h) ≤ incHeadersMax ∧
        (Checked demoSsl (zeroBlock.parse fromSignature).text [] →
          matchCount fromHeaders ((zeroBlock.parse fromSignature).text .h) < incHeadersMax) :=
  verifierRun_inBounds_iff demoSsl [] [] fromHeaders_input

/-- The header of the signature matches all 51 names, and the last one writes
behind the slots. -/
theorem repeated_name_overflows :
    dkimGetHeader zeroBlock.buffers repeatedHeaders = some (zeroBlock.parse repeatedName).buffers ∧
      VerifierInput repeatedHeaders (zeroBlock.parse repeatedName).text ∧
      ¬(verifierRun demoSsl [] repeatedHeaders [] (zeroBlock.parse repeatedName).text).InBounds := by
  have hnul : (0 : UInt8) ∉ repeatedName := by
    rw [repeatedName, List.mem_cons, List.mem_cons, not_or, not_or]
    exact ⟨by decide, by decide, manyNames_fits.1⟩
  have hread : lastValue .h (signatureValues repeatedName) = some manyNames := by
    decide +kernel
  have htext : (zeroBlock.parse repeatedName).text .h = manyNames :=
    (zeroBlock.parse_text hnul hread).trans
      (List.take_of_length_le (Nat.le_pred_of_lt manyNames_fits.2))
  have hfound : findSignature repeatedHeaders = some ⟨bytes "DKIM-Signature", repeatedName⟩ :=
    List.find?_cons_of_pos (by decide)
  refine ⟨?_, ?_, fun h => ?_⟩
  · rw [dkimGetHeader, hfound]
    rfl
  · exact ⟨by decide, by decide, by decide, by simpa [repeatedHeaders] using hnul,
      zeroBlock.parse_h_lt hnul hread⟩
  · have hle := ((inBounds_iff_counts demoSsl [] repeatedHeaders [] _).mp h).1
    have hmatch : repeatedHeaders.countP
        (fun hdr => startsWith (hdr.key.map tolower) [100]) = 1 := by decide
    rw [htext, matchCount, headerNames_manyNames, List.map_replicate, hmatch, List.sum_replicate_nat]
      at hle
    exact absurd hle (by decide)

end Examples

end ComfirmDmarc.Dkim
