import ComfirmDmarc.MailHandler.KeyRecord
import Mathlib.Data.List.Forall2

/-!
# MailHandler -- reading the key back

`dkim_parse_dns` on what `dns_gettxt` extracts, segment by segment: where the
length bytes leave the outside of the values alone, each segment gives the
value that its octets make up, which is the one of the record when the parser
drops the length bytes inside of it, too.
-/

namespace ComfirmDmarc.MailHandler

open CMemory Dkim

/-! ## What the parser reads -/

/-- What is read in a segment whose outside is clean. -/
def contribution (s : Segment) (seg : List Octet) : List (DnsTag × Bytes) :=
  match s.named with
  | some t => [(t, ((valueOctets seg).map Octet.byte).filter fun c => !TagScan.isBlank c)]
  | none => []

/-- A segment with its octets. -/
structure Pairs (s : Segment) (seg : List Octet) : Prop where
  texts_eq : texts seg = s.text
  clean : OutsideClean s seg

theorem Segment.named_text {s : Segment} {t : DnsTag} (h : s.named = some t) :
    ∃ lead mid, s.text = lead ++ t.char :: mid ++ 61 :: s.value ∧
      (61 : UInt8) ∉ lead ++ t.char :: mid := by
  cases s with
  | blank ws hws => simp [Segment.named] at h
  | tag k =>
    have hname : k.name = [t.char] := by
      simp only [Segment.named] at h
      split_ifs at h with h1 h2
      · rw [h1, ← Option.some.inj h]
        rfl
      · rw [h2, ← Option.some.inj h]
        rfl
    refine ⟨k.lead, k.mid, by simp [Segment.text, Segment.value, hname], ?_⟩
    intro h61
    rw [List.mem_append, List.mem_cons] at h61
    rcases h61 with h61 | h61 | h61
    · exact (isFws_plain (k.lead_fws 61 h61)).2.1 rfl
    · exact t.char_ne_eq h61.symm
    · exact (isFws_plain (k.mid_fws 61 h61)).2.1 rfl

/-- The octets of a segment with a `=`. -/
theorem octets_split {seg : List Octet} (h : .text 61 ∈ seg) :
    seg = nameOctets seg ++ .text 61 :: valueOctets seg := by
  have hne : seg.dropWhile (· ≠ .text 61) ≠ [] := by
    intro hnil
    have hall := List.dropWhile_eq_nil_iff.mp hnil _ h
    simp at hall
  obtain ⟨o, os, hos⟩ := List.exists_cons_of_ne_nil hne
  have ho : o = .text 61 := by
    have hhead := List.head_dropWhile_not (fun o : Octet => decide (o ≠ .text 61)) hne
    simp only [hos, List.head_cons] at hhead
    simpa using hhead
  subst ho
  rw [nameOctets, valueOctets, hos, List.tail_cons, ← hos, List.takeWhile_append_dropWhile]

/-- The text of a value. -/
theorem Pairs.value_texts {s : Segment} {seg : List Octet} (h : Pairs s seg) {t : DnsTag}
    (hs : s.named = some t) :
    seg = nameOctets seg ++ .text 61 :: valueOctets seg ∧ texts (valueOctets seg) = s.value := by
  obtain ⟨lead, mid, htext, hno⟩ := Segment.named_text hs
  have hmem : .text 61 ∈ seg := by
    rw [← mem_texts, h.texts_eq, htext]
    simp
  have hsplit := octets_split hmem
  refine ⟨hsplit, ?_⟩
  have heq := h.texts_eq
  rw [hsplit, texts_append, texts_cons_text, htext] at heq
  -- both sides are cut at their first `=`
  have hname : (61 : UInt8) ∉ texts (nameOctets seg) := by
    rw [mem_texts, nameOctets]
    intro h61
    have := List.mem_takeWhile_imp h61
    simp at this
  have hcut : ∀ (a b : Bytes), (61 : UInt8) ∉ a →
      (a ++ 61 :: b).dropWhile (· ≠ 61) = 61 :: b := by
    intro a b ha
    rw [List.dropWhile_append_of_pos, List.dropWhile_cons_of_neg (by simp)]
    intro c hc
    have : c ≠ 61 := fun he => ha (he ▸ hc)
    simpa using this
  have hdrop := congrArg (List.dropWhile (· ≠ 61)) heq
  rw [hcut _ _ hname, hcut _ _ hno] at hdrop
  exact (List.cons_inj_right _).mp hdrop

/-- A value has no `;` of its own, and no length byte that looks like one. -/
theorem Pairs.no_semicolon {s : Segment} {seg : List Octet} (h : Pairs s seg) {t : DnsTag}
    (hs : s.named = some t) : (59 : UInt8) ∉ (valueOctets seg).map Octet.byte := by
  have hclean := h.clean
  simp only [OutsideClean, hs] at hclean
  intro h59
  obtain ⟨o, ho, hbyte⟩ := List.mem_map.mp h59
  cases o with
  | text c =>
    have hc : c = 59 := hbyte
    have hvalue : (59 : UInt8) ∈ s.text := by
      obtain ⟨lead, mid, htext, -⟩ := Segment.named_text hs
      rw [htext, ← (h.value_texts hs).2]
      have : (59 : UInt8) ∈ texts (valueOctets seg) := by rw [mem_texts, ← hc]; exact ho
      simp [this]
    exact (s.text_plain 59 hvalue).1 rfl
  | len c =>
    have hc : c = 59 := hbyte
    rw [hc] at ho
    exact hclean.2.2 ho

/-- The bytes of a segment of one of the two tags. -/
theorem Pairs.bytes_eq {s : Segment} {seg : List Octet} (h : Pairs s seg) {t : DnsTag}
    (hs : s.named = some t) :
    ∃ junk, NoTag junk ∧
      seg.map Octet.byte = junk ++ t.char :: 61 :: (valueOctets seg).map Octet.byte := by
  have hclean := h.clean
  simp only [OutsideClean, hs] at hclean
  obtain ⟨hlast, hjunk, -⟩ := hclean
  obtain ⟨front, hfront⟩ := List.getLast?_eq_some_iff.mp hlast
  rw [hfront, List.dropLast_concat] at hjunk
  refine ⟨_, hjunk, ?_⟩
  have hsplit := (h.value_texts hs).1
  rw [hfront] at hsplit
  conv_lhs => rw [hsplit]
  simp [Octet.byte]

/-- A segment with more behind it. -/
theorem Pairs.read {s : Segment} {seg : List Octet} (h : Pairs s seg) (rest : Bytes) :
    recordValues (seg.map Octet.byte ++ 59 :: rest) = contribution s seg ++ recordValues rest := by
  cases hs : s.named with
  | none =>
    have hclean := h.clean
    simp only [OutsideClean, hs] at hclean
    rw [recordValues_skip hclean (by simp), recordValues_semicolon, contribution, hs]
    rfl
  | some t =>
    obtain ⟨junk, hjunk, hbytes⟩ := h.bytes_eq hs
    rw [hbytes, List.append_assoc, recordValues_skip hjunk (by simpa using t.char_ne_eq),
      List.cons_append, List.cons_append, recordValues_char,
      TagScan.values_field _ _ _ (h.no_semicolon hs), contribution, hs]
    rfl

/-- The last segment. -/
theorem Pairs.read_last {s : Segment} {seg : List Octet} (h : Pairs s seg) :
    recordValues (seg.map Octet.byte) = contribution s seg := by
  have hnil : recordValues [] = [] := by rw [recordValues, TagScan.values]; rfl
  cases hs : s.named with
  | none =>
    have hclean := h.clean
    simp only [OutsideClean, hs] at hclean
    have hskip : recordValues (seg.map Octet.byte ++ []) = recordValues [] :=
      recordValues_skip hclean (by simp)
    rw [List.append_nil] at hskip
    rw [hskip, hnil, contribution, hs]
  | some t =>
    obtain ⟨junk, hjunk, hbytes⟩ := h.bytes_eq hs
    rw [hbytes, recordValues_skip hjunk (by simpa using t.char_ne_eq), recordValues_char,
      TagScan.values_lastField _ _ _ (h.no_semicolon hs), contribution, hs]
    rfl

/-- What is read in a record whose segments are clean outside. -/
def contributions (record : List Segment) (segs : List (List Octet)) : List (DnsTag × Bytes) :=
  (List.zipWith contribution record segs).flatten

/-- **The record is read segment by segment.** -/
theorem recordValues_segments {record : List Segment} {segs : List (List Octet)}
    (h : List.Forall₂ Pairs record segs) (hne : record ≠ []) :
    recordValues (([.text 59].intercalate segs).map Octet.byte) = contributions record segs := by
  induction h with
  | nil => exact absurd rfl hne
  | @cons s seg record segs hpair hrest ih =>
    cases hrest with
    | nil =>
      rw [List.intercalate_singleton, hpair.read_last, contributions]
      simp
    | @cons s' seg' record segs hpair' hrest =>
      rw [List.intercalate_cons_cons, List.map_append, List.map_append, List.append_assoc]
      have hsemi : [Octet.text 59].map Octet.byte = [59] := rfl
      rw [hsemi, List.singleton_append, hpair.read, ih (List.cons_ne_nil _ _)]
      rfl

/-! ## The value of a tag -/

/-- What is read as the value of a segment. -/
def received (seg : List Octet) : Bytes :=
  ((valueOctets seg).map Octet.byte).filter fun c => !TagScan.isBlank c

theorem lastValue_contributions_none {record : List Segment} {segs : List (List Octet)}
    (h : List.Forall₂ Pairs record segs) {t : DnsTag}
    (hno : record.countP (fun s => s.named = some t) = 0) :
    TagScan.lastValue t (contributions record segs) = none := by
  induction h with
  | nil => rfl
  | @cons s seg record segs _ _ ih =>
    rw [List.countP_cons] at hno
    split_ifs at hno with hs
    rw [contributions, List.zipWith_cons_cons, List.flatten_cons, TagScan.lastValue_append,
      ← contributions, ih (by omega), Option.none_or, contribution]
    have hs' : s.named ≠ some t := by simpa using hs
    split
    · next u hu =>
      have hut : u ≠ t := fun he => hs' (he ▸ hu)
      simp [TagScan.lastValue, hut]
    · rfl

/-- The last value of a tag that occurs once is what is received in its segment. -/
theorem lastValue_contributions {record : List Segment} {segs : List (List Octet)}
    (h : List.Forall₂ Pairs record segs) {t : DnsTag}
    (honce : record.countP (fun s => s.named = some t) = 1) :
    ∃ s seg, (s, seg) ∈ record.zip segs ∧ s.named = some t ∧ Pairs s seg ∧
      keyValue record t = stripFws s.value ∧
      TagScan.lastValue t (contributions record segs) = some (received seg) := by
  induction h with
  | nil => simp at honce
  | @cons s seg record segs hpair hrest ih =>
    rw [contributions, List.zipWith_cons_cons, List.flatten_cons, TagScan.lastValue_append,
      ← contributions, List.zip_cons_cons]
    rw [List.countP_cons] at honce
    by_cases hs : s.named = some t
    · rw [if_pos (by simpa using hs)] at honce
      refine ⟨s, seg, List.mem_cons_self, hs, hpair, by simp [keyValue, hs], ?_⟩
      rw [lastValue_contributions_none hrest (by omega), Option.none_or, contribution, hs]
      simp [TagScan.lastValue, received]
    · rw [if_neg (by simpa using hs)] at honce
      obtain ⟨u, useg, hmem, hnamed, hupair, hvalue, hlast⟩ := ih (by omega)
      refine ⟨u, useg, List.mem_cons_of_mem _ hmem, hnamed, hupair, ?_, by rw [hlast]; rfl⟩
      rw [← hvalue, keyValue, keyValue, List.find?_cons_of_neg (by simpa using hs)]

theorem isFws_of_isBlank {c : UInt8} (h : TagScan.isBlank c = true) : isFws c = true := by
  simp only [TagScan.isBlank, Bool.or_eq_true, beq_iff_eq] at h
  rcases h with rfl | rfl <;> decide

/-- The two white space bytes that are no blanks for the parser. -/
theorem isFws_iff {c : UInt8} :
    isFws c = true ↔ TagScan.isBlank c = true ∨ c = 13 ∨ c = 10 := by
  simp [isFws, TagScan.isBlank, or_assoc]

theorem length_stripFws_le (os : List Octet) :
    (stripFws (texts os)).length ≤
      ((os.map Octet.byte).filter fun c => !TagScan.isBlank c).length := by
  induction os with
  | nil => simp [stripFws]
  | cons o os ih =>
    rw [List.map_cons, List.filter_cons]
    cases o with
    | text c =>
      rw [texts_cons_text, stripFws, List.filter_cons, ← stripFws, Octet.byte]
      by_cases hb : TagScan.isBlank c = true
      · simpa [hb, isFws_of_isBlank hb] using ih
      · cases hf : isFws c
        · simpa [hb] using ih
        · simpa [hb] using ih.trans (Nat.le_succ _)
    | len c =>
      rw [texts_cons_len, Octet.byte]
      split
      · exact ih.trans (by simp)
      · exact ih

/-- The octets of a value give its text without white space exactly when their
length bytes are blanks and the text has no CR or LF. -/
theorem strip_octets_iff (os : List Octet) :
    ((os.map Octet.byte).filter fun c => !TagScan.isBlank c) = stripFws (texts os) ↔
      (∀ c, Octet.len c ∈ os → TagScan.isBlank c = true) ∧ ∀ c ∈ texts os, c ≠ 13 ∧ c ≠ 10 := by
  induction os with
  | nil => simp [stripFws]
  | cons o os ih =>
    have hle := length_stripFws_le os
    rw [List.map_cons, List.filter_cons]
    cases o with
    | text c =>
      rw [texts_cons_text, stripFws, List.filter_cons, ← stripFws, Octet.byte]
      by_cases hb : TagScan.isBlank c = true
      · have hc : c ≠ 13 ∧ c ≠ 10 := by
          constructor
          all_goals
            rintro rfl
            exact absurd hb (by decide)
        simp [hb, isFws_of_isBlank hb, ih, hc]
      · by_cases hf : isFws c = true
        · -- CR or LF stays in what the parser stores
          have hc : c = 13 ∨ c = 10 := (isFws_iff.mp hf).resolve_left hb
          have hlonger : ∀ s, c :: s = stripFws (texts os) →
              s = ((os.map Octet.byte).filter fun c => !TagScan.isBlank c) → False := by
            rintro s hs rfl
            have := congrArg List.length hs
            rw [List.length_cons] at this
            omega
          constructor
          · intro heq
            exact (hlonger _ (by simpa [hb, hf] using heq) rfl).elim
          · rintro ⟨-, htext⟩
            have := htext c List.mem_cons_self
            tauto
        · have hc : c ≠ 13 ∧ c ≠ 10 := by
            constructor
            all_goals
              rintro rfl
              exact hf (by decide)
          simp [hb, hf, ih, hc]
    | len c =>
      -- a length byte is in no text, so it has to be dropped
      rw [texts_cons_len, Octet.byte]
      by_cases hb : TagScan.isBlank c = true
      · simp [hb, ih]
      · constructor
        · intro heq
          have := congrArg List.length heq
          rw [if_pos (by simpa using hb), List.length_cons] at this
          omega
        · rintro ⟨hlen, -⟩
          exact absurd (hlen c List.mem_cons_self) hb

/-! ## Recovery -/

/-- What `dns_gettxt` copies has no NUL when no character-string is empty. -/
theorem no_nul_kept {record : List Segment} {strings : List Bytes}
    (hcut : CutOf (recordText record) strings) (hfull : ∀ s ∈ strings, s ≠ []) :
    (0 : UInt8) ∉ (kept strings).map Octet.byte := by
  intro h0
  obtain ⟨o, ho, hbyte⟩ := List.mem_map.mp h0
  have ho := List.mem_of_mem_filter ho
  rw [octets, List.mem_flatMap] at ho
  obtain ⟨s, hs, ho⟩ := ho
  rcases List.mem_cons.mp ho with rfl | ho
  · -- a length between 1 and 255 is no NUL
    have hlen := hcut.len s hs
    have hpos := List.length_pos_of_ne_nil (hfull s hs)
    have hnat := congrArg UInt8.toNat hbyte
    rw [Octet.byte, UInt8.toNat_ofNat_of_lt' (show s.length < 256 by omega)] at hnat
    have hzero : s.length = 0 := hnat
    omega
  · obtain ⟨c, hc, rfl⟩ := List.mem_map.mp ho
    have hplain := recordText_plain record c
      (by rw [← hcut.flatten]; exact List.mem_flatten.mpr ⟨s, hs, hc⟩)
    exact hplain.1 hbyte

theorem copyRdata_rdata (strings : List Bytes) :
    copyRdata (rdata strings) = (kept strings).map Octet.byte := by
  rw [copyRdata, rdata, kept, List.filter_map]
  rfl

theorem dnsGettxt_rdata {record : List Segment} {strings : List Bytes}
    (hcut : CutOf (recordText record) strings) (hfull : ∀ s ∈ strings, s ≠ []) :
    dnsGettxt (.record nsCIn nsTTxt (rdata strings)) = some ((kept strings).map Octet.byte) := by
  rw [dnsGettxt, if_pos ⟨rfl, rfl⟩, copyRdata_rdata, str_append_nul (no_nul_kept hcut hfull)]

theorem KeyRecord.ne_nil {record : List Segment} (h : KeyRecord record) : record ≠ [] := by
  rintro rfl
  exact absurd (h.once .k) (by simp)

theorem pairs_segments {record : List Segment} (hne : record ≠ []) {strings : List Bytes}
    (hcut : CutOf (recordText record) strings)
    (hclean : List.Forall₂ OutsideClean record (segments strings)) :
    List.Forall₂ Pairs record (segments strings) := by
  have htexts : List.Forall₂ (fun s seg => texts seg = s.text) record (segments strings) := by
    have heq := segments_texts hne hcut
    rw [← List.forall₂_eq_eq_eq, List.forall₂_map_left_iff, List.forall₂_map_right_iff] at heq
    exact heq.flip
  exact htexts.mp (fun _ _ => Pairs.mk) hclean

/-- The two tags have a segment each. -/
theorem parsed_text {record : List Segment} (hrecord : KeyRecord record) {strings : List Bytes}
    (hcut : CutOf (recordText record) strings) (hfull : ∀ s ∈ strings, s ≠ [])
    (hout : List.Forall₂ OutsideClean record (segments strings)) (mem : DkimRecord) (t : DnsTag) :
    ∃ s seg, (s, seg) ∈ record.zip (segments strings) ∧ s.named = some t ∧ Pairs s seg ∧
      keyValue record t = stripFws s.value ∧
      (dkimParseDns mem ((kept strings).map Octet.byte)).text t =
        (received seg).take (dkimRecordMaxLen - 1) := by
  have hpairs := pairs_segments hrecord.ne_nil hcut hout
  obtain ⟨s, seg, hmem, hs, hpair, hvalue, hlast⟩ := lastValue_contributions hpairs (hrecord.once t)
  refine ⟨s, seg, hmem, hs, hpair, hvalue, ?_⟩
  rw [dkimParseDns_text mem (no_nul_kept hcut hfull)]
  have hall : recordValues ((kept strings).map Octet.byte) =
      contributions record (segments strings) := by
    rw [← recordValues_segments hpairs hrecord.ne_nil, segments, List.intercalate_splitOn]
  rw [hall, hlast, TagScan.held]

theorem received_eq_iff {s : Segment} {seg : List Octet} (hpair : Pairs s seg) {t : DnsTag}
    (hs : s.named = some t) : received seg = stripFws s.value ↔ InsideClean s seg := by
  have htexts := (hpair.value_texts hs).2
  rw [received, ← htexts, strip_octets_iff, htexts, InsideClean, hs]
  simp

/-- A segment of a tag that occurs once is the one of that tag. -/
theorem mem_zip_unique {record : List Segment} {segs : List (List Octet)} {t : DnsTag}
    (honce : record.countP (fun s => s.named = some t) = 1) {s u : Segment}
    {seg useg : List Octet} (hmem : (s, seg) ∈ record.zip segs) (hs : s.named = some t)
    (humem : (u, useg) ∈ record.zip segs) (hu : u.named = some t) : (s, seg) = (u, useg) := by
  induction record generalizing segs with
  | nil => simp at hmem
  | cons r record ih =>
    cases segs with
    | nil => simp at hmem
    | cons rseg segs =>
      rw [List.countP_cons] at honce
      rw [List.zip_cons_cons] at hmem humem
      -- behind a segment of the tag there is no other one
      have hnone : r.named = some t → ∀ v vseg, (v, vseg) ∈ record.zip segs → v.named ≠ some t := by
        intro hr v vseg hv hvnamed
        rw [if_pos (by simpa using hr)] at honce
        have hzero : record.countP (fun s => s.named = some t) = 0 := by omega
        rw [List.countP_eq_zero] at hzero
        exact hzero v (List.of_mem_zip hv).1 (by simpa using hvnamed)
      rcases List.mem_cons.mp hmem with heq | hmem'
      · cases heq
        rcases List.mem_cons.mp humem with hueq | humem'
        · exact hueq.symm
        · exact absurd hu (hnone hs _ _ humem')
      · rcases List.mem_cons.mp humem with hueq | humem'
        · cases hueq
          exact absurd hs (hnone hu _ _ hmem')
        · have hr : r.named ≠ some t := fun hr => hnone hr _ _ hmem' hs
          rw [if_neg (by simpa using hr)] at honce
          exact ih (by omega) hmem' humem'

/-- **A record is recovered when the length bytes that are kept stand where the
parser passes over them**, and, among the records that leave the outside of the
values alone, only then. -/
theorem recovered_of_clean {record : List Segment} (hrecord : KeyRecord record)
    {strings : List Bytes} (hcut : CutOf (recordText record) strings)
    (hfull : ∀ s ∈ strings, s ≠ [])
    (hout : List.Forall₂ OutsideClean record (segments strings)) :
    (List.Forall₂ InsideClean record (segments strings) → Recovered record strings) ∧
    ((∀ s seg, (s, seg) ∈ record.zip (segments strings) → s.named ≠ none →
        (received seg).length < dkimRecordMaxLen) →
      Recovered record strings → List.Forall₂ InsideClean record (segments strings)) := by
  have hlen := hout.length_eq
  constructor
  · intro hin mem
    refine ⟨_, dnsGettxt_rdata hcut hfull, fun t => ?_⟩
    obtain ⟨s, seg, hmem, hs, hpair, hvalue, htext⟩ := parsed_text hrecord hcut hfull hout mem t
    have hreceived : received seg = keyValue record t := by
      rw [hvalue]
      exact (received_eq_iff hpair hs).mpr (List.forall₂_zip hin hmem)
    have hfits := hrecord.fits t
    rw [htext, hreceived, List.take_of_length_le (by omega)]
  · intro hroom hrec
    rw [List.forall₂_iff_zip]
    refine ⟨hlen, fun {u useg} humem => ?_⟩
    cases hu : u.named with
    | none => exact fun hne => absurd hu hne
    | some t =>
      -- over zero memory; the value does not depend on it
      obtain ⟨txt, htxt, hvalues⟩ := hrec fun _ => Vector.replicate _ 0
      rw [dnsGettxt_rdata hcut hfull, Option.some.injEq] at htxt
      obtain ⟨s, seg, hmem, hs, hpair, hvalue, htext⟩ :=
        parsed_text hrecord hcut hfull hout (fun _ => Vector.replicate _ 0) t
      have hsame : (s, seg) = (u, useg) := mem_zip_unique (hrecord.once t) hmem hs humem hu
      cases hsame
      have hfits := hroom u useg humem (by simp [hu])
      have hreceived := hvalues t
      rw [← htxt, htext, hvalue, List.take_of_length_le (by omega)] at hreceived
      exact (received_eq_iff hpair hs).mp hreceived

section Examples

/-- A tag without white space around its name. -/
def plainTag (name value : Bytes) (hne : name ≠ []) (hname : ∀ c ∈ name, isNameChar c = true)
    (hvalue : ∀ c ∈ value, isValueChar c = true) : Segment :=
  .tag ⟨[], name, [], value, by simp, hne, hname, by simp, hvalue⟩

/-- `k=rsa;p=ABCDEFGHIJ` -/
def rsaRecord : List Segment :=
  [plainTag [107] (bytes "rsa") (by decide) (by decide +kernel) (by decide +kernel),
    plainTag [112] (bytes "ABCDEFGHIJ") (by decide) (by decide +kernel) (by decide +kernel)]

theorem keyRecord_rsaRecord : KeyRecord rsaRecord where
  once t := by cases t <;> decide +kernel
  fits t := by cases t <;> decide +kernel

/-- A second character-string of nine bytes: its length byte is a TAB. -/
theorem recovered_of_clean_tab :
    Recovered rsaRecord [bytes "k=rsa;p=A", bytes "BCDEFGHIJ"] := by
  have hsegs : segments [bytes "k=rsa;p=A", bytes "BCDEFGHIJ"] =
      [.len 9 :: (bytes "k=rsa").map .text,
        (bytes "p=A").map .text ++ .len 9 :: (bytes "BCDEFGHIJ").map .text] := by decide +kernel
  have hcut : CutOf (recordText rsaRecord) [bytes "k=rsa;p=A", bytes "BCDEFGHIJ"] :=
    ⟨by decide +kernel, by decide +kernel⟩
  refine (recovered_of_clean keyRecord_rsaRecord hcut (by decide +kernel) ?_).1 ?_
  · rw [hsegs]
    refine .cons ?_ (.cons ?_ .nil)
    · exact ⟨by decide +kernel, by decide +kernel, by decide +kernel⟩
    · exact ⟨by decide +kernel, by decide +kernel, by decide +kernel⟩
  · have hk : valueOctets (.len 9 :: (bytes "k=rsa").map .text) = (bytes "rsa").map .text := by
      decide +kernel
    have hp : valueOctets ((bytes "p=A").map .text ++ .len 9 :: (bytes "BCDEFGHIJ").map .text) =
        .text 65 :: .len 9 :: (bytes "BCDEFGHIJ").map .text := by decide +kernel
    rw [hsegs]
    refine .cons (fun _ => ⟨fun c hc => ?_, by decide +kernel⟩)
      (.cons (fun _ => ⟨fun c hc => ?_, by decide +kernel⟩) .nil)
    · rw [hk] at hc
      simp at hc
    · rw [hp] at hc
      have h9 : c = 9 := by simpa using hc
      rw [h9]
      decide

/-- One byte of the key in a second character-string. -/
theorem key_not_recovered :
    KeyRecord rsaRecord ∧ CutOf (recordText rsaRecord) [bytes "k=rsa;p=ABCDEFGHI", bytes "J"] ∧
      ¬Recovered rsaRecord [bytes "k=rsa;p=ABCDEFGHI", bytes "J"] := by
  refine ⟨keyRecord_rsaRecord, ⟨by decide +kernel, by decide +kernel⟩, fun h => ?_⟩
  obtain ⟨txt, htxt, hvalues⟩ := h fun _ => Vector.replicate _ 0
  have htxt' : txt = 17 :: bytes "k=rsa;p=ABCDEFGHI" ++ 1 :: bytes "J" := by
    have : dnsGettxt (.record nsCIn nsTTxt (rdata [bytes "k=rsa;p=ABCDEFGHI", bytes "J"])) =
        some (17 :: bytes "k=rsa;p=ABCDEFGHI" ++ 1 :: bytes "J") := by decide +kernel
    rw [this] at htxt
    exact (Option.some.inj htxt).symm
  have hp := hvalues .p
  rw [htxt', dkimParseDns_text _ (by decide +kernel)] at hp
  have hread : recordValues (17 :: bytes "k=rsa;p=ABCDEFGHI" ++ 1 :: bytes "J") =
      [(.k, bytes "rsa"), (.p, bytes "ABCDEFGHI" ++ 1 :: bytes "J")] := by
    have hsplit : 17 :: bytes "k=rsa;p=ABCDEFGHI" ++ 1 :: bytes "J" =
        [17] ++ DnsTag.char .k :: 61 :: (bytes "rsa" ++
          59 :: DnsTag.char .p :: 61 :: (bytes "ABCDEFGHI" ++ 1 :: bytes "J")) := by decide +kernel
    rw [hsplit, recordValues_skip (by decide +kernel) (by decide), recordValues_char,
      TagScan.values_field _ _ _ (by decide +kernel), ← recordValues, recordValues_char,
      TagScan.values_lastField _ _ _ (by decide +kernel)]
    decide +kernel
  rw [hread] at hp
  exact absurd hp (by decide +kernel)

end Examples

end ComfirmDmarc.MailHandler
