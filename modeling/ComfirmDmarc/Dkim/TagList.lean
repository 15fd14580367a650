import ComfirmDmarc.Dkim.TagReading

/-!
# Dkim -- tag lists

A `DKIM-Signature` value as it is meant: tags `name=value` with `;` between
them, and folding white space in front of a name and anywhere in a value. The
parser looks for the names that it knows at every byte outside of a value, so
what it reads in a tag that it does not know is up to the text of that tag.
-/

namespace ComfirmDmarc.Dkim

open CMemory

/-! ## Tag lists -/

/-- Folding white space: SP, TAB, CR and LF. -/
def isFolding (c : UInt8) : Bool := c == 32 || c == 9 || c == 13 || c == 10

def withoutFolding (s : Bytes) : Bytes := s.filter fun c => !isFolding c

def withoutBlanks (s : Bytes) : Bytes := s.filter fun c => !isWsp c

/-- A tag as it stands in a list. -/
structure SigTag where
  lead : Bytes
  name : Bytes
  value : Bytes
  lead_folding : ∀ c ∈ lead, isFolding c = true
  name_ne : name ≠ []
  name_chars : ∀ c ∈ name, c ≠ 0 ∧ c ≠ 59 ∧ c ≠ 61 ∧ isFolding c = false
  value_chars : ∀ c ∈ value, c ≠ 0 ∧ c ≠ 59

def SigTag.text (k : SigTag) : Bytes := k.lead ++ k.name ++ 61 :: k.value

/-- The text of a list, with a `;` behind the last tag or not. -/
def listText (tags : List SigTag) (closing : Bool) : Bytes :=
  [59].intercalate (tags.map SigTag.text) ++ if closing then [59] else []

/-- The name of a tag that the parser knows. -/
def Tag.name : Tag → Bytes
  | .v => bytes "v"
  | .a => bytes "a"
  | .c => bytes "c"
  | .d => bytes "d"
  | .s => bytes "s"
  | .h => bytes "h"
  | .bh => bytes "bh"
  | .b => bytes "b"

/-- What the parser reads between two `;`: the first known name with a `=`
behind it, and what follows. -/
def seen : Bytes → Option (Tag × Bytes)
  | [] => none
  | c :: s =>
    match tagAt (c :: s) with
    | some (t, skip) => some (t, withoutBlanks (s.drop skip))
    | none => seen s

/-! ## What is read between two `;` -/

/-- The bytes that start a tag are its name and a `=`. -/
theorem tagAt_some_name {here : Bytes} {t : Tag} {skip : Nat} (h : tagAt here = some (t, skip)) :
    startsWith here (t.name ++ [61]) = true ∧ skip = t.name.length := by
  rw [tagAt] at h
  split_ifs at h with hv ha hc hd hs hbh hb hh
  all_goals
    simp only [Option.some.injEq, Prod.mk.injEq] at h
    obtain ⟨rfl, rfl⟩ := h
    exact ⟨‹_›, rfl⟩

theorem tagAt_of_isFolding {c : UInt8} (hc : isFolding c = true) (s : Bytes) :
    tagAt (c :: s) = none := by
  have hname : ∀ t : Tag, ∀ d ∈ (t.name ++ [61]).head?, isFolding d = false := by
    intro t
    cases t <;> simp [Tag.name, bytes, isFolding]
  cases htag : tagAt (c :: s) with
  | none => rfl
  | some p =>
    obtain ⟨hstart, -⟩ := tagAt_some_name (show tagAt (c :: s) = some (p.1, p.2) from htag)
    have hhead := hname p.1
    cases hlit : p.1.name ++ [61] with
    | nil => simp at hlit
    | cons x lit =>
      rw [hlit, startsWith_cons, Bool.and_eq_true, beq_iff_eq] at hstart
      rw [hlit] at hhead
      have := hhead x rfl
      rw [hstart.1, hc] at this
      cases this

theorem startsWith_semicolon {lit : Bytes} (u : Bytes) (hlit : (59 : UInt8) ∉ lit) (rest : Bytes) :
    startsWith (u ++ 59 :: rest) lit = startsWith u lit := by
  induction lit generalizing u with
  | nil => cases u <;> rfl
  | cons x lit ih =>
    simp only [List.mem_cons, not_or] at hlit
    cases u with
    | nil =>
      rw [List.nil_append, startsWith_cons, beq_false_of_ne (Ne.symm hlit.1), Bool.false_and]
      rfl
    | cons c u => rw [List.cons_append, startsWith_cons, startsWith_cons, ih u hlit.2]

theorem tagAt_semicolon (u rest : Bytes) : tagAt (u ++ 59 :: rest) = tagAt u := by
  refine tagAt_congr fun lit hlit => startsWith_semicolon u (fun h => ?_) rest
  exact ((tagTexts_spec lit hlit).2 59 h).2 rfl

theorem withoutBlanks_cons (c : UInt8) (s : Bytes) :
    withoutBlanks (c :: s) = if isWsp c = true then withoutBlanks s else c :: withoutBlanks s := by
  rw [withoutBlanks, List.filter_cons]
  by_cases hc : isWsp c = true <;> simp [hc, withoutBlanks]

/-- Inside a value up to its `;`. -/
theorem readTags_value {v : Bytes} (hv : (59 : UInt8) ∉ v) (done : List (Tag × Bytes)) (t : Tag)
    (x rest : Bytes) :
    readTags ⟨done, some (t, x)⟩ (v ++ 59 :: rest) =
      readTags ⟨done ++ [(t, x ++ withoutBlanks v)], none⟩ rest := by
  induction v generalizing x with
  | nil =>
    rw [List.nil_append, readTags]
    simp [Reading.next, withoutBlanks]
  | cons c v ih =>
    simp only [List.mem_cons, not_or] at hv
    rw [List.cons_append, readTags]
    simp only [Reading.next, if_neg (Ne.symm hv.1), withoutBlanks_cons]
    split
    · exact ih hv.2 x
    · rw [ih hv.2 (x ++ [c]), List.append_assoc, List.singleton_append]

/-- Inside the last value. -/
theorem readTags_lastValue {v : Bytes} (hv : (59 : UInt8) ∉ v) (done : List (Tag × Bytes)) (t : Tag)
    (x : Bytes) :
    (readTags ⟨done, some (t, x)⟩ v).all = done ++ [(t, x ++ withoutBlanks v)] := by
  induction v generalizing x with
  | nil => simp [readTags, Reading.all, withoutBlanks]
  | cons c v ih =>
    simp only [List.mem_cons, not_or] at hv
    rw [readTags]
    simp only [Reading.next, if_neg (Ne.symm hv.1), withoutBlanks_cons]
    split
    · exact ih hv.2 x
    · rw [ih hv.2 (x ++ [c]), List.append_assoc, List.singleton_append]

/-- **Each stretch between two `;` is read on its own.** -/
theorem readTags_seen {u : Bytes} (hu : (59 : UInt8) ∉ u) (done : List (Tag × Bytes))
    (rest : Bytes) :
    readTags ⟨done, none⟩ (u ++ 59 :: rest) = readTags ⟨done ++ (seen u).toList, none⟩ rest := by
  induction u with
  | nil =>
    have hsemi : tagAt (59 :: rest) = none := tagAt_semicolon [] rest
    rw [List.nil_append, readTags]
    simp [hsemi, seen]
  | cons c u ih =>
    simp only [List.mem_cons, not_or] at hu
    have htag := tagAt_semicolon (c :: u) rest
    rw [List.cons_append] at htag
    rw [List.cons_append, readTags, seen]
    simp only [htag]
    cases hfound : tagAt (c :: u) with
    | none => exact ih hu.2
    | some p =>
      obtain ⟨hstart, hskip⟩ := tagAt_some_name (show tagAt (c :: u) = some (p.1, p.2) from hfound)
      have hlen := (startsWith_iff.mp hstart).length_le
      simp only [List.length_append, List.length_cons, List.length_nil] at hlen
      simp only [List.drop_append_of_le_length (show p.2 ≤ u.length by omega)]
      rw [readTags_value fun h59 => hu.2 (List.mem_of_mem_drop h59)]
      rfl

theorem readTags_seen_last {u : Bytes} (hu : (59 : UInt8) ∉ u) (done : List (Tag × Bytes)) :
    (readTags ⟨done, none⟩ u).all = done ++ (seen u).toList := by
  induction u with
  | nil => simp [readTags, Reading.all, seen]
  | cons c u ih =>
    simp only [List.mem_cons, not_or] at hu
    rw [readTags, seen]
    cases hfound : tagAt (c :: u) with
    | none => exact ih hu.2
    | some p =>
      dsimp only
      rw [readTags_lastValue fun h59 => hu.2 (List.mem_of_mem_drop h59)]
      rfl

/-- The values that are read in the stretches of a text between its `;`. -/
def seenIn (s : Bytes) : List (Tag × Bytes) := (s.splitOn 59).filterMap seen

theorem seenIn_semicolon (u v : Bytes) : seenIn (u ++ 59 :: v) = seenIn u ++ seenIn v := by
  rw [seenIn, List.splitOn_append_cons_self, List.filterMap_append]
  rfl

theorem seenIn_plain {u : Bytes} (hu : (59 : UInt8) ∉ u) : seenIn u = (seen u).toList := by
  rw [seenIn, List.splitOn_eq_singleton hu, List.filterMap_cons, List.filterMap_nil]
  cases seen u <;> rfl

/-- **Every text is read stretch by stretch.** -/
theorem readTags_seenIn (s : Bytes) (done : List (Tag × Bytes)) :
    (readTags ⟨done, none⟩ s).all = done ++ seenIn s := by
  induction hn : s.length using Nat.strong_induction_on generalizing s done with
  | _ n ih =>
  by_cases hs : (59 : UInt8) ∈ s
  · obtain ⟨u, v, rfl, hu⟩ := List.eq_append_cons_of_mem hs
    rw [List.length_append, List.length_cons] at hn
    rw [readTags_seen hu, ih v.length (by omega) v _ rfl, seenIn_semicolon, seenIn_plain hu,
      List.append_assoc]
  · rw [readTags_seen_last hs, seenIn_plain hs]

/-- Folding white space in front of a name is skipped. -/
theorem seen_folding {lead : Bytes} (hlead : ∀ c ∈ lead, isFolding c = true) (s : Bytes) :
    seen (lead ++ s) = seen s := by
  induction lead with
  | nil => rfl
  | cons c lead ih =>
    rw [List.cons_append, seen, tagAt_of_isFolding (hlead c List.mem_cons_self)]
    exact ih fun d hd => hlead d (List.mem_cons_of_mem _ hd)

theorem seenIn_folding {lead : Bytes} (hlead : ∀ c ∈ lead, isFolding c = true) (s : Bytes) :
    seenIn (lead ++ s) = seenIn s := by
  have hsemi : (59 : UInt8) ∉ lead := fun h59 => absurd (hlead 59 h59) (by decide)
  by_cases hs : (59 : UInt8) ∈ s
  · obtain ⟨u, v, rfl, hu⟩ := List.eq_append_cons_of_mem hs
    rw [← List.append_assoc, seenIn_semicolon, seenIn_semicolon, seenIn_plain hu,
      seenIn_plain (by simp [hsemi, hu]), seen_folding hlead]
  · rw [seenIn_plain hs, seenIn_plain (by simp [hsemi, hs]), seen_folding hlead]

theorem seen_name (t : Tag) (s : Bytes) : seen (t.name ++ 61 :: s) = some (t, withoutBlanks s) := by
  cases t <;> rfl

theorem SigTag.text_plain (k : SigTag) : ∀ c ∈ k.text, c ≠ 59 ∧ c ≠ 0 := by
  intro c hc
  simp only [SigTag.text, List.mem_append, List.mem_cons] at hc
  rcases hc with (hc | hc) | rfl | hc
  · have hfold := k.lead_folding c hc
    constructor
    all_goals
      rintro rfl
      exact absurd hfold (by decide)
  · exact ⟨(k.name_chars c hc).2.1, (k.name_chars c hc).1⟩
  · decide
  · exact ⟨(k.value_chars c hc).2, (k.value_chars c hc).1⟩

/-- **A tag list is read tag by tag.** -/
theorem readTags_listText (tags : List SigTag) (closing : Bool) (done : List (Tag × Bytes)) :
    (readTags ⟨done, none⟩ (listText tags closing)).all =
      done ++ tags.filterMap fun k => seen k.text := by
  induction tags generalizing done with
  | nil =>
    cases closing with
    | true =>
      rw [listText, List.map_nil, List.intercalate_nil, if_pos rfl, List.nil_append,
        ← List.nil_append [59], readTags_seen (by simp), readTags]
      simp [Reading.all, seen]
    | false =>
      rw [listText, List.map_nil, List.intercalate_nil, if_neg (by simp), List.append_nil, readTags]
      simp [Reading.all]
  | cons k tags ih =>
    have hk : (59 : UInt8) ∉ k.text := fun h59 => (k.text_plain 59 h59).1 rfl
    have hcons : ((k :: tags).filterMap fun k => seen k.text) =
        (seen k.text).toList ++ tags.filterMap fun k => seen k.text := by
      rw [List.filterMap_cons]
      cases seen k.text <;> rfl
    rw [hcons]
    cases tags with
    | nil =>
      rw [listText, List.map_singleton, List.intercalate_singleton, List.filterMap_nil,
        List.append_nil]
      cases closing with
      | true =>
        rw [if_pos rfl, readTags_seen hk, readTags]
        simp [Reading.all]
      | false =>
        rw [if_neg (by simp), List.append_nil, readTags_seen_last hk]
    | cons k' tags =>
      have htext : listText (k :: k' :: tags) closing =
          k.text ++ 59 :: listText (k' :: tags) closing := by
        simp [listText, List.intercalate_cons_cons]
      rw [htext, readTags_seen hk, ih, List.append_assoc]

/-- A known tag is read as itself. -/
theorem SigTag.seen_text (k : SigTag) {t : Tag} (h : k.name = t.name) :
    seen k.text = some (t, withoutBlanks k.value) := by
  rw [SigTag.text, List.append_assoc, seen_folding k.lead_folding, h, seen_name]

/-! ## The buffers of a tag list -/

/-- What the buffer of a tag should hold: its value without folding white
space, or what was there before. -/
def expectedText (mem : DkimHeader) (tags : List SigTag) (t : Tag) : Bytes :=
  match tags.find? fun k => k.name = t.name with
  | some k => withoutFolding k.value
  | none => mem.text t

/-- **The parser understands the list**, whatever `malloc` left in its block. -/
def ParsesList (tags : List SigTag) (closing : Bool) : Prop :=
  ∀ mem t, (dkimParseHeader mem (listText tags closing)).text t = expectedText mem tags t

/-- What the parser reads is right: nothing is read for a tag that the list
does not have, and a tag that it has keeps its value, which has no line breaks,
or gets the same value from an unknown tag behind it. -/
structure ReadsRight (tags : List SigTag) : Prop where
  absent : ∀ k ∈ tags, ∀ t x, seen k.text = some (t, x) → ∃ g ∈ tags, g.name = t.name
  present : ∀ front k back t, tags = front ++ k :: back → k.name = t.name →
    match lastValue t (back.filterMap fun g => seen g.text) with
    | none => ∀ c ∈ k.value, c ≠ 13 ∧ c ≠ 10
    | some x => x = withoutFolding k.value

theorem withoutBlanks_eq_withoutFolding_iff (v : Bytes) :
    withoutBlanks v = withoutFolding v ↔ ∀ c ∈ v, c ≠ 13 ∧ c ≠ 10 := by
  have hsplit : withoutFolding v = (withoutBlanks v).filter fun c => c ≠ 13 ∧ c ≠ 10 := by
    rw [withoutFolding, withoutBlanks, List.filter_filter]
    refine List.filter_congr fun c _ => ?_
    rw [Bool.eq_iff_iff]
    simp [isFolding, isWsp]
    tauto
  rw [hsplit, eq_comm, List.filter_eq_self]
  constructor
  · intro h c hc
    by_cases hb : isWsp c = true
    · constructor
      all_goals
        rintro rfl
        exact absurd hb (by decide)
    · exact of_decide_eq_true (h c (List.mem_filter.mpr ⟨hc, by simpa using hb⟩))
  · intro h c hc
    exact decide_eq_true (h c (List.mem_filter.mp hc).1)

theorem seen_length_le {u : Bytes} {t : Tag} {x : Bytes} (h : seen u = some (t, x)) :
    x.length ≤ u.length := by
  induction u with
  | nil => simp [seen] at h
  | cons c u ih =>
    rw [seen] at h
    split at h
    · next t' skip _ =>
      obtain ⟨rfl, rfl⟩ : t' = t ∧ withoutBlanks (u.drop skip) = x := by simpa using h
      have hfilter : (withoutBlanks (u.drop skip)).length ≤ (u.drop skip).length :=
        List.length_filter_le _ _
      rw [List.length_drop] at hfilter
      rw [List.length_cons]
      omega
    · rw [List.length_cons]
      exact Nat.le_succ_of_le (ih h)

theorem seenIn_length_le {s : Bytes} {t : Tag} {x : Bytes} (h : (t, x) ∈ seenIn s) :
    x.length ≤ s.length := by
  induction hn : s.length using Nat.strong_induction_on generalizing s with
  | _ n ih =>
  by_cases hs : (59 : UInt8) ∈ s
  · obtain ⟨u, v, rfl, hu⟩ := List.eq_append_cons_of_mem hs
    rw [List.length_append, List.length_cons] at hn
    rw [seenIn_semicolon, seenIn_plain hu, List.mem_append, Option.mem_toList] at h
    rcases h with h | h
    · exact le_trans (seen_length_le h) (by omega)
    · exact le_trans (ih v.length (by omega) h rfl) (by omega)
  · rw [seenIn_plain hs, Option.mem_toList] at h
    rw [← hn]
    exact seen_length_le h

theorem listText_cons_length (k : SigTag) (tags : List SigTag) (closing : Bool) :
    k.text.length ≤ (listText (k :: tags) closing).length ∧
      (listText tags closing).length ≤ (listText (k :: tags) closing).length := by
  cases tags with
  | nil => simp [listText]
  | cons k' tags =>
    simp only [listText, List.map_cons, List.intercalate_cons_cons, List.length_append]
    omega

theorem text_length_le {tags : List SigTag} {k : SigTag} (h : k ∈ tags) (closing : Bool) :
    k.text.length ≤ (listText tags closing).length := by
  induction tags with
  | nil => simp at h
  | cons g tags ih =>
    obtain ⟨hhead, htail⟩ := listText_cons_length g tags closing
    rcases List.mem_cons.mp h with rfl | h
    · exact hhead
    · exact (ih h).trans htail

theorem listText_nul (tags : List SigTag) (closing : Bool) : (0 : UInt8) ∉ listText tags closing := by
  have htags : (0 : UInt8) ∉ [59].intercalate (tags.map SigTag.text) := by
    induction tags with
    | nil => simp
    | cons k tags ih =>
      have hk : (0 : UInt8) ∉ k.text := fun h0 => (k.text_plain 0 h0).2 rfl
      cases tags with
      | nil => simpa using hk
      | cons k' tags =>
        rw [List.map_cons, List.map_cons, List.intercalate_cons_cons]
        simp only [List.mem_append, not_or]
        exact ⟨⟨hk, by decide⟩, ih⟩
  rw [listText, List.mem_append, not_or]
  exact ⟨htags, by cases closing <;> decide⟩

theorem mem_of_lastValue {t : Tag} {values : List (Tag × Bytes)} {x : Bytes}
    (h : lastValue t values = some x) : (t, x) ∈ values := by
  rw [lastValue, Option.map_eq_some_iff] at h
  obtain ⟨p, hp, rfl⟩ := h
  have hmem := List.mem_reverse.mp (List.mem_of_find?_eq_some hp)
  have ht : p.1 = t := by simpa using List.find?_some hp
  rw [← ht]
  exact hmem

theorem lastValue_ne_none {t : Tag} {values : List (Tag × Bytes)} {x : Bytes} (h : (t, x) ∈ values) :
    lastValue t values ≠ none := by
  intro hnone
  rw [lastValue, Option.map_eq_none_iff, List.find?_eq_none] at hnone
  have := hnone (t, x) (List.mem_reverse.mpr h)
  simp at this

/-- The buffers after a list that is short enough. -/
theorem dkimParseHeader_listText {tags : List SigTag} {closing : Bool}
    (hlen : (listText tags closing).length < dkimValueMaxLen) (mem : DkimHeader) (t : Tag) :
    (dkimParseHeader mem (listText tags closing)).text t =
      (lastValue t (tags.filterMap fun k => seen k.text)).getD (mem.text t) := by
  rw [dkimParseHeader_text mem (listText_nul tags closing), readTags_listText, List.nil_append,
    bufferText]
  cases hlast : lastValue t (tags.filterMap fun k => seen k.text) with
  | none => rfl
  | some x =>
    obtain ⟨k, hk, hx⟩ := List.mem_filterMap.mp (mem_of_lastValue hlast)
    have hle := (seen_length_le hx).trans (text_length_le hk closing)
    exact List.take_of_length_le (by omega)

/-- The value of a tag of the list, or what an unknown tag behind it gives. -/
theorem lastValue_of_split {front back : List SigTag} {k : SigTag} {t : Tag} (h : k.name = t.name) :
    lastValue t ((front ++ k :: back).filterMap fun g => seen g.text) =
      some ((lastValue t (back.filterMap fun g => seen g.text)).getD (withoutBlanks k.value)) := by
  rw [List.filterMap_append, List.filterMap_cons, k.seen_text h, lastValue_append]
  dsimp only
  rw [← List.singleton_append, lastValue_append, lastValue_singleton, if_pos rfl]
  cases lastValue t (back.filterMap fun g => seen g.text) <;> rfl

/-- Memory with an empty string in every buffer, and with another string. -/
def clearedHeader : DkimHeader := fun _ => Vector.replicate _ 0

def markedHeader : DkimHeader := fun _ => memcpy (Vector.replicate _ 0) [1]

theorem clearedHeader_text (t : Tag) : clearedHeader.text t = [] := by
  rw [DkimHeader.text, clearedHeader]
  simp [str, dkimValueMaxLen]

theorem markedHeader_text (t : Tag) : markedHeader.text t = [1] := by
  have hrest : (Vector.replicate dkimValueMaxLen (0 : UInt8)).toList.drop 1 =
      0 :: List.replicate (dkimValueMaxLen - 2) 0 := by
    rw [Vector.toList_replicate, List.drop_replicate]
    rfl
  rw [DkimHeader.text, markedHeader, memcpy_toList _ (by decide), List.length_singleton, hrest]
  exact str_append_nul (by decide) _

/-- **The parser understands a list exactly when it reads it right.** -/
theorem parsesList_iff {tags : List SigTag} {closing : Bool} (honce : (tags.map SigTag.name).Nodup)
    (hlen : (listText tags closing).length < dkimValueMaxLen) :
    ParsesList tags closing ↔ ReadsRight tags := by
  -- a tag that the list has: which value is the last one
  have hpresent : ∀ (front : List SigTag) (k : SigTag) (back : List SigTag) (t : Tag),
      tags = front ++ k :: back → k.name = t.name → ∀ mem,
      ((dkimParseHeader mem (listText tags closing)).text t = expectedText mem tags t ↔
        match lastValue t (back.filterMap fun g => seen g.text) with
        | none => ∀ c ∈ k.value, c ≠ 13 ∧ c ≠ 10
        | some x => x = withoutFolding k.value) := by
    intro front k back t hsplit hname mem
    have hfront : ∀ g ∈ front, g.name ≠ t.name := by
      intro g hg hgname
      rw [hsplit, List.map_append, List.map_cons] at honce
      have hdisj := (List.nodup_append.mp honce).2.2 g.name (List.mem_map_of_mem hg) k.name
        List.mem_cons_self
      exact hdisj (hgname.trans hname.symm)
    have hfind : tags.find? (fun g => g.name = t.name) = some k := by
      rw [hsplit, List.find?_append, List.find?_cons_of_pos (by simpa using hname),
        List.find?_eq_none.mpr fun g hg => by simpa using hfront g hg]
      rfl
    rw [dkimParseHeader_listText hlen, expectedText, hfind, hsplit, lastValue_of_split hname,
      Option.getD_some]
    cases lastValue t (back.filterMap fun g => seen g.text) with
    | none => exact withoutBlanks_eq_withoutFolding_iff k.value
    | some x => exact Iff.rfl
  constructor
  · intro h
    refine ⟨?_, fun front k back t hsplit hname =>
      (hpresent front k back t hsplit hname clearedHeader).mp (h clearedHeader t)⟩
    intro k hk t x hx
    by_contra hno
    have hfind : tags.find? (fun g => g.name = t.name) = none :=
      List.find?_eq_none.mpr fun g hg hgname => hno ⟨g, hg, by simpa using hgname⟩
    have hmem : (t, x) ∈ tags.filterMap fun k => seen k.text := List.mem_filterMap.mpr ⟨k, hk, hx⟩
    obtain ⟨y, hy⟩ := Option.ne_none_iff_exists'.mp (lastValue_ne_none hmem)
    -- the same text would be in two memories
    have hcleared := h clearedHeader t
    have hmarked := h markedHeader t
    rw [dkimParseHeader_listText hlen, expectedText, hfind, hy, Option.getD_some] at hcleared hmarked
    rw [clearedHeader_text] at hcleared
    rw [markedHeader_text] at hmarked
    exact absurd (hcleared.symm.trans hmarked) (by decide)
  · intro h mem t
    cases hfind : tags.find? fun g => g.name = t.name with
    | some k =>
      obtain ⟨hname, front, back, hsplit, -⟩ := List.find?_eq_some_iff_append.mp hfind
      have hname : k.name = t.name := by simpa using hname
      exact (hpresent front k back t hsplit hname mem).mpr (h.present front k back t hsplit hname)
    | none =>
      rw [dkimParseHeader_listText hlen, expectedText, hfind]
      cases hlast : lastValue t (tags.filterMap fun k => seen k.text) with
      | none => rfl
      | some x =>
        obtain ⟨k, hk, hx⟩ := List.mem_filterMap.mp (mem_of_lastValue hlast)
        obtain ⟨g, hg, hgname⟩ := h.absent k hk t x hx
        exact absurd (by simpa using hgname) (List.find?_eq_none.mp hfind g hg)

section Examples

/-- A tag without white space. -/
def plainTag (name value : Bytes) (hne : name ≠ [])
    (hname : ∀ c ∈ name, c ≠ 0 ∧ c ≠ 59 ∧ c ≠ 61 ∧ isFolding c = false)
    (hvalue : ∀ c ∈ value, c ≠ 0 ∧ c ≠ 59) : SigTag where
  lead := []
  name := name
  value := value
  lead_folding := by simp
  name_ne := hne
  name_chars := hname
  value_chars := hvalue

/-- The domain `google.com`. -/
def domainTag : SigTag :=
  plainTag (bytes "d") (bytes "google.com") (by decide) (by decide +kernel) (by decide +kernel)

/-- A tag that the parser does not know, with `s=` in its value. -/
def copiedTag : SigTag :=
  plainTag (bytes "z") (bytes "s=20") (by decide) (by decide +kernel) (by decide +kernel)

theorem parsesList_iff_domain : ParsesList [domainTag] false ↔ ReadsRight [domainTag] :=
  parsesList_iff (by simp) (by simp [listText, SigTag.text, domainTag, plainTag, bytes, dkimValueMaxLen])

/-- A selector is read out of a tag that has nothing to do with it. -/
theorem unknown_tag_is_read :
    ¬∀ (tags : List SigTag) (closing : Bool), (tags.map SigTag.name).Nodup →
      (listText tags closing).length < dkimValueMaxLen → ParsesList tags closing := by
  intro h
  have hall := h [copiedTag] false (by simp) (by decide) markedHeader .s
  rw [dkimParseHeader_listText (by decide)] at hall
  have hseen : lastValue .s ([copiedTag].filterMap fun k => seen k.text) = some (bytes "20") := by
    decide
  have hexpected : expectedText markedHeader [copiedTag] .s = [1] := markedHeader_text .s
  rw [hseen, hexpected] at hall
  exact absurd hall (by decide)

end Examples

end ComfirmDmarc.Dkim
