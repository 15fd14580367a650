import ComfirmDmarc.Dkim.HeaderCanon
import ComfirmDmarc.Lib.Strings

/-!
# Dkim -- the headers that `relaxed_header_canon` makes

`relaxed_header_canon` over the strings in memory: it copies every name and
value into blocks of its own, and works on these copies. The copies hold what
the list-level `relaxedHeaderCanon` says, and the headers of the caller are as
they were. The reference also removes the blanks behind a name.
-/

namespace ComfirmDmarc.Dkim

open CMemory Blocks

/-! ## The code -/

/-- A `stringpair`, by the pointers in it. -/
structure PairPtr where
  key : Ptr
  value : Ptr

/-- The header field in memory. -/
def pairAt (m : Strings) (h : PairPtr) : StringPair := ⟨m.text h.key, m.text h.value⟩

/-- The loop that copies all headers. -/
def newHeaders (a : Allocator) : List PairPtr → Strings → Except Blocks.Fault (List PairPtr × Strings)
  | [], m => .ok ([], m)
  | h :: hs, m => do
    let key ← m.read h.key
    let value ← m.read h.value
    let (newKey, m) := m.copy a key
    let (newValue, m) := m.copy a value
    let (new, m) ← newHeaders a hs m
    return (⟨newKey, newValue⟩ :: new, m)

/-- `rtrim` and `ltrim` of a value; `ltrim` frees the string that it is given. -/
def trimValue (a : Allocator) (value : Ptr) (m : Strings) : Except Blocks.Fault (Ptr × Strings) := do
  let m ← m.modify value rtrim
  let start ← m.read value
  let (n, m) := m.copy a (ltrim start)
  let m ← m.free value
  return (n, m)

def trimValues (a : Allocator) : List PairPtr → Strings → Except Blocks.Fault (List PairPtr × Strings)
  | [], m => .ok ([], m)
  | h :: hs, m => do
    let (value, m) ← trimValue a h.value m
    let (new, m) ← trimValues a hs m
    return (⟨h.key, value⟩ :: new, m)

/-- `relaxed_header_canon` over the strings in memory. -/
def relaxedHeaderCanonIn (a : Allocator) (headers : List PairPtr) (m : Strings) :
    Except Blocks.Fault (List PairPtr × Strings) := do
  let (new, m) ← newHeaders a headers m
  let m ← m.modifyAll (new.map PairPtr.key) (·.map tolower)
  let m ← m.modifyAll (new.map PairPtr.value) (pass unfoldLoop)
  let m ← m.modifyAll (new.map PairPtr.value) (pass squeezeLoop)
  trimValues a new m

/-! ## The copies -/

/-- **Headers of their own**: `new` is in blocks that `m₀` did not have, and
`m₀` is unchanged. -/
structure Copies (m₀ m : Strings) (new : List PairPtr) : Prop where
  unchanged : m₀.Unchanged m
  owns : m.heap.Owns (new.map PairPtr.key ++ new.map PairPtr.value)
  fresh : ∀ p ∈ new.map PairPtr.key ++ new.map PairPtr.value, p ∉ m₀.heap.live

theorem newHeaders_eq (a : Allocator) {headers : List PairPtr} {m : Strings}
    (hlive : ∀ h ∈ headers, h.key ∈ m.heap.live ∧ h.value ∈ m.heap.live) :
    ∃ new m', newHeaders a headers m = .ok (new, m') ∧ Copies m m' new ∧
      new.map (pairAt m') = headers.map (pairAt m) := by
  induction headers generalizing m with
  | nil => exact ⟨[], m, rfl, ⟨fun p hp => ⟨hp, rfl⟩, Heap.Owns.nil _, by simp⟩, rfl⟩
  | cons h hs ih =>
    obtain ⟨⟨hkey, hvalue⟩, hrest⟩ := List.forall_mem_cons.mp hlive
    -- the two copies of this header, and the others behind them
    obtain ⟨k, m1, hk, hkNew, hkLive, hkText, hm1⟩ := m.copy_spec a (m.text h.key)
    obtain ⟨v, m2, hv, hvNew, hvLive, hvText, hm2⟩ := m1.copy_spec a (m.text h.value)
    have hm := hm1.trans hm2
    obtain ⟨new, m', hrun, hcopies, htexts⟩ := ih (m := m2) fun g hg =>
      ⟨(hm _ (hrest g hg).1).1, (hm _ (hrest g hg).2).1⟩
    obtain ⟨hk2, hkText2⟩ := hm2 k hkLive
    have hkv : k ≠ v := fun heq => hvNew (heq ▸ hkLive)
    refine ⟨⟨k, v⟩ :: new, m', ?_, ⟨hm.trans hcopies.unchanged, ?_, ?_⟩, ?_⟩
    · rw [newHeaders, Strings.read_eq hkey, Strings.read_eq hvalue]
      simp only [bind, Except.bind, pure, Except.pure, hk, hv, hrun]
    · -- the blocks of this header are in use when the others are made
      have hcons : m'.heap.Owns (k :: v :: (new.map PairPtr.key ++ new.map PairPtr.value)) := by
        refine ⟨List.nodup_cons.mpr ⟨?_, List.nodup_cons.mpr ⟨?_, hcopies.owns.nodup⟩⟩, ?_⟩
        · intro hmem
          rcases List.mem_cons.mp hmem with rfl | hmem
          · exact hkv rfl
          · exact hcopies.fresh k hmem hk2
        · exact fun hmem => hcopies.fresh v hmem hvLive
        · intro p hp
          rcases List.mem_cons.mp hp with rfl | hp
          · exact (hcopies.unchanged p hk2).1
          · rcases List.mem_cons.mp hp with rfl | hp
            · exact (hcopies.unchanged p hvLive).1
            · exact hcopies.owns.live p hp
      refine hcons.perm (List.Perm.cons k ?_)
      exact List.perm_middle.symm
    · intro p hp
      have hcases : p = k ∨ p = v ∨ p ∈ new.map PairPtr.key ++ new.map PairPtr.value := by
        simpa [or_assoc, or_left_comm] using hp
      rcases hcases with rfl | rfl | hp
      · exact hkNew
      · exact fun hlive => hvNew (hm1 _ hlive).1
      · exact fun hlive => hcopies.fresh p hp (hm _ hlive).1
    · have hothers : hs.map (pairAt m2) = hs.map (pairAt m) := by
        refine List.map_congr_left fun g hg => ?_
        rw [pairAt, pairAt, (hm _ (hrest g hg).1).2, (hm _ (hrest g hg).2).2]
      have hthis : pairAt m' ⟨k, v⟩ = pairAt m h := by
        rw [pairAt, pairAt, (hcopies.unchanged k hk2).2, (hcopies.unchanged v hvLive).2, hkText2,
          hkText, hvText, str_eq_self (m.nul _), str_eq_self (m.nul _)]
      rw [List.map_cons, List.map_cons, htexts, hothers, hthis]

/-- A loop over some of the copies. -/
theorem Copies.modifyAll {m₀ m : Strings} {new : List PairPtr} (h : Copies m₀ m new) {ps : List Ptr}
    (hps : ps.Sublist (new.map PairPtr.key ++ new.map PairPtr.value)) (f : Bytes → Bytes) :
    ∃ m', m.modifyAll ps f = .ok m' ∧ Copies m₀ m' new ∧
      (∀ p ∈ ps, m'.text p = str (f (m.text p))) ∧ ∀ p ∉ ps, m'.text p = m.text p := by
  obtain ⟨m', hrun, hheap, hin, hout⟩ := Strings.modifyAll_eq f (h.owns.sublist hps)
  refine ⟨m', hrun, ⟨?_, hheap ▸ h.owns, h.fresh⟩, hin, hout⟩
  intro p hp
  obtain ⟨hlive, htext⟩ := h.unchanged p hp
  refine ⟨hheap ▸ hlive, ?_⟩
  rw [hout p fun hmem => h.fresh p (hps.subset hmem) hp, htext]

/-- The loop over the names. -/
theorem Copies.modifyKeys {m₀ m : Strings} {new : List PairPtr} (h : Copies m₀ m new)
    (f : Bytes → Bytes) :
    ∃ m', m.modifyAll (new.map PairPtr.key) f = .ok m' ∧ Copies m₀ m' new ∧
      new.map (pairAt m') =
        (new.map (pairAt m)).map fun p => { p with key := str (f p.key) } := by
  obtain ⟨-, -, hdisj⟩ := List.nodup_append.mp h.owns.nodup
  obtain ⟨m', hrun, hcopies, hin, hout⟩ := h.modifyAll (List.sublist_append_left _ _) f
  refine ⟨m', hrun, hcopies, ?_⟩
  rw [List.map_map]
  refine List.map_congr_left fun g hg => ?_
  have hkey : g.key ∈ new.map PairPtr.key := List.mem_map_of_mem hg
  have hvalue : g.value ∈ new.map PairPtr.value := List.mem_map_of_mem hg
  rw [pairAt, hin _ hkey, hout _ fun hmem => hdisj _ hmem _ hvalue rfl]
  rfl

/-- A loop over the values. -/
theorem Copies.modifyValues {m₀ m : Strings} {new : List PairPtr} (h : Copies m₀ m new)
    (f : Bytes → Bytes) :
    ∃ m', m.modifyAll (new.map PairPtr.value) f = .ok m' ∧ Copies m₀ m' new ∧
      new.map (pairAt m') =
        (new.map (pairAt m)).map fun p => { p with value := str (f p.value) } := by
  obtain ⟨-, -, hdisj⟩ := List.nodup_append.mp h.owns.nodup
  obtain ⟨m', hrun, hcopies, hin, hout⟩ := h.modifyAll (List.sublist_append_right _ _) f
  refine ⟨m', hrun, hcopies, ?_⟩
  rw [List.map_map]
  refine List.map_congr_left fun g hg => ?_
  have hkey : g.key ∈ new.map PairPtr.key := List.mem_map_of_mem hg
  have hvalue : g.value ∈ new.map PairPtr.value := List.mem_map_of_mem hg
  rw [pairAt, hin _ hvalue, hout _ fun hmem => hdisj _ hkey _ hmem rfl]
  rfl

/-- A value is trimmed into a block of its own, and the block it was in is
given back. -/
theorem trimValue_eq (a : Allocator) {m : Strings} {value : Ptr} (hlive : value ∈ m.heap.live) :
    ∃ v m', trimValue a value m = .ok (v, m') ∧ v ∉ m.heap.live ∧ v ∈ m'.heap.live ∧
      m'.text v = ltrim (rtrim (m.text value)) ∧
      ∀ p ∈ m.heap.live, p ≠ value → p ∈ m'.heap.live ∧ m'.text p = m.text p := by
  have hnul : (0 : UInt8) ∉ rtrim (m.text value) := fun h0 =>
    m.nul _ ((List.rdropWhile_prefix _ _).subset h0)
  have hnul' : (0 : UInt8) ∉ ltrim (rtrim (m.text value)) := fun h0 =>
    hnul ((List.dropWhile_suffix _).subset h0)
  have htext1 : (m.update value (rtrim (m.text value))).text value = rtrim (m.text value) := by
    rw [Strings.update_text_self, str_eq_self hnul]
  obtain ⟨v, m2, hcopy, hvNew, hvLive, hvText, hframe⟩ :=
    (m.update value (rtrim (m.text value))).copy_spec a (ltrim (rtrim (m.text value)))
  have hread : (m.update value (rtrim (m.text value))).read value = .ok (rtrim (m.text value)) := by
    rw [Strings.read_eq (show value ∈ (m.update _ _).heap.live from hlive), htext1]
  have hne : v ≠ value := fun heq => hvNew (heq ▸ hlive)
  refine ⟨v, { m2 with heap := m2.heap.erase value }, ?_, hvNew, ?_, ?_, ?_⟩
  · rw [trimValue, Strings.modify_eq hlive]
    simp only [bind, Except.bind, pure, Except.pure, hread, hcopy,
      Strings.free_eq (hframe _ hlive).1]
  · exact Finset.mem_erase.mpr ⟨hne, hvLive⟩
  · rw [hvText, str_eq_self hnul']
  · intro p hp hpne
    obtain ⟨hp2, htext2⟩ := hframe p hp
    exact ⟨Finset.mem_erase.mpr ⟨hpne, hp2⟩, htext2.trans (Strings.update_text_of_ne _ hpne)⟩

theorem trimValues_eq (a : Allocator) {new : List PairPtr} {m : Strings}
    (hvalues : m.heap.Owns (new.map PairPtr.value))
    (hkeys : ∀ h ∈ new, h.key ∈ m.heap.live ∧ h.key ∉ new.map PairPtr.value) :
    ∃ new' m', trimValues a new m = .ok (new', m') ∧
      new'.map (pairAt m') =
        (new.map (pairAt m)).map (fun p => { p with value := ltrim (rtrim p.value) }) ∧
      ∀ p ∈ m.heap.live, p ∉ new.map PairPtr.value → p ∈ m'.heap.live ∧ m'.text p = m.text p := by
  induction new generalizing m with
  | nil => exact ⟨[], m, rfl, rfl, fun p hp _ => ⟨hp, rfl⟩⟩
  | cons h hs ih =>
    rw [List.map_cons] at hvalues
    obtain ⟨hnotin, hnodup⟩ := List.nodup_cons.mp hvalues.nodup
    obtain ⟨⟨hkeyLive, hkeyOut⟩, hkeysRest⟩ := List.forall_mem_cons.mp hkeys
    rw [List.map_cons, List.mem_cons, not_or] at hkeyOut
    obtain ⟨v, m1, htrim, hvNew, hvLive, hvText, hkeep⟩ :=
      trimValue_eq a (hvalues.live h.value List.mem_cons_self)
    -- the other headers are where they were
    have hne : ∀ g ∈ hs, g.value ≠ h.value := fun g hg heq =>
      hnotin (heq ▸ List.mem_map_of_mem hg)
    have hvalueLive : ∀ g ∈ hs, g.value ∈ m.heap.live := fun g hg =>
      hvalues.live _ (List.mem_cons_of_mem _ (List.mem_map_of_mem hg))
    have hkeyNe : ∀ g ∈ hs, g.key ≠ h.value ∧ g.key ∉ hs.map PairPtr.value := by
      intro g hg
      have hout := (hkeysRest g hg).2
      rw [List.map_cons, List.mem_cons, not_or] at hout
      exact hout
    have howns : m1.heap.Owns (hs.map PairPtr.value) := by
      refine ⟨hnodup, fun p hp => ?_⟩
      obtain ⟨g, hg, rfl⟩ := List.mem_map.mp hp
      exact (hkeep _ (hvalueLive g hg) (hne g hg)).1
    obtain ⟨new', m', hrun, htexts, hframe⟩ := ih howns fun g hg =>
      ⟨(hkeep _ (hkeysRest g hg).1 (hkeyNe g hg).1).1, (hkeyNe g hg).2⟩
    refine ⟨⟨h.key, v⟩ :: new', m', ?_, ?_, ?_⟩
    · rw [trimValues, htrim]
      simp only [bind, Except.bind, pure, Except.pure, hrun]
    · have hvOut : v ∉ hs.map PairPtr.value := by
        intro hmem
        obtain ⟨g, hg, heq⟩ := List.mem_map.mp hmem
        exact hvNew (heq ▸ hvalueLive g hg)
      have hthis : pairAt m' ⟨h.key, v⟩ =
          ⟨m.text h.key, ltrim (rtrim (m.text h.value))⟩ := by
        obtain ⟨hkey1, hkeyText⟩ := hkeep _ hkeyLive hkeyOut.1
        rw [pairAt, (hframe _ hkey1 hkeyOut.2).2, hkeyText, (hframe _ hvLive hvOut).2, hvText]
      have hothers : hs.map (pairAt m1) = hs.map (pairAt m) := by
        refine List.map_congr_left fun g hg => ?_
        rw [pairAt, pairAt, (hkeep _ (hkeysRest g hg).1 (hkeyNe g hg).1).2,
          (hkeep _ (hvalueLive g hg) (hne g hg)).2]
      rw [List.map_cons, htexts, hothers, hthis]
      rfl
    · intro p hp hout
      rw [List.map_cons, List.mem_cons, not_or] at hout
      obtain ⟨hp1, htext⟩ := hkeep p hp hout.1
      obtain ⟨hp', htext'⟩ := hframe p hp1 hout.2
      exact ⟨hp', htext'.trans htext⟩

/-- **The canonical headers in memory are those of the list-level function**,
and the headers of the caller are unchanged. -/
theorem relaxedHeaderCanonIn_eq (a : Allocator) {headers : List PairPtr} {m : Strings}
    (hlive : ∀ h ∈ headers, h.key ∈ m.heap.live ∧ h.value ∈ m.heap.live) :
    ∃ new m', relaxedHeaderCanonIn a headers m = .ok (new, m') ∧
      new.map (pairAt m') = relaxedHeaderCanon (headers.map (pairAt m)) ∧ m.Unchanged m' := by
  obtain ⟨new, m1, hcopy, hcopies1, htexts1⟩ := newHeaders_eq a hlive
  obtain ⟨m2, hlower, hcopies2, htexts2⟩ := hcopies1.modifyKeys (·.map tolower)
  obtain ⟨m3, hunfold, hcopies3, htexts3⟩ := hcopies2.modifyValues (pass unfoldLoop)
  obtain ⟨m4, hsqueeze, hcopies4, htexts4⟩ := hcopies3.modifyValues (pass squeezeLoop)
  obtain ⟨-, -, hdisj⟩ := List.nodup_append.mp hcopies4.owns.nodup
  obtain ⟨new', m', htrim, htexts, hframe⟩ := trimValues_eq a
    (hcopies4.owns.sublist (List.sublist_append_right _ _)) fun g hg =>
      ⟨hcopies4.owns.live _ (List.mem_append_left _ (List.mem_map_of_mem hg)),
        fun hmem => hdisj _ (List.mem_map_of_mem hg) _ hmem rfl⟩
  refine ⟨new', m', ?_, ?_, ?_⟩
  · rw [relaxedHeaderCanonIn, hcopy]
    simp only [bind, Except.bind, hlower, hunfold, hsqueeze, htrim]
  · rw [htexts, htexts4, htexts3, htexts2, htexts1, relaxedHeaderCanon]
    simp only [List.map_map]
    refine List.map_congr_left fun h _ => ?_
    have hkey : (0 : UInt8) ∉ (m.text h.key).map tolower := by
      intro h0
      obtain ⟨c, hc, heq⟩ := List.mem_map.mp h0
      exact m.nul h.key (tolower_eq_zero.mp heq ▸ hc)
    have hpass : ∀ loop s, str (pass loop s) = pass loop s := fun _ _ =>
      str_eq_self (not_mem_str _)
    simp only [Function.comp, pairAt, hpass, str_eq_self hkey, relaxedValue]
  · intro p hp
    obtain ⟨hlive4, htext4⟩ := hcopies4.unchanged p hp
    obtain ⟨hlive', htext'⟩ := hframe p hlive4 fun hmem =>
      hcopies4.fresh p (List.mem_append_right _ hmem) hp
    exact ⟨hlive', htext'.trans htext4⟩

/-! ## The reference -/

/-- The value without the CRLFs of its folds. -/
def removeFolds : Bytes → Bytes
  | [] => []
  | c :: s =>
    if c = 13 ∧ s.head? = some 10 ∧ s.tail.head?.any isWsp = true then removeFolds s.tail
    else c :: removeFolds s
termination_by s => s.length

/-- A CR stands in a fold only: an LF and a blank follow it. -/
def FoldsOnly (value : Bytes) : Prop :=
  ∀ front s, value = front ++ 13 :: s → s.head? = some 10 ∧ s.tail.head?.any isWsp = true

/-- **The relaxed form of a header field.** -/
def relaxedField (h : StringPair) : StringPair :=
  ⟨rtrim (h.key.map tolower), ltrim (rtrim (oneBlank (removeFolds h.value)))⟩

/-- A name has blanks in front of the colon. -/
def EndsInBlank (key : Bytes) : Prop := key.getLast?.any isWsp = true

/-- The call gives the headers `texts`, and leaves the headers of the caller
alone. -/
def CanonicalisesTo (a : Allocator) (headers : List PairPtr) (m : Strings)
    (texts : List StringPair) : Prop :=
  ∃ new m', relaxedHeaderCanonIn a headers m = .ok (new, m') ∧ new.map (pairAt m') = texts ∧
    m.Unchanged m'

theorem removeFolds_eq {value : Bytes} (h : FoldsOnly value) : removeFolds value = removeCrlf value := by
  fun_induction removeCrlf value with
  | case1 => rw [removeFolds]
  | case2 c s hcrlf ih =>
    obtain ⟨rfl, hlf⟩ := hcrlf
    rw [removeFolds, if_pos ⟨rfl, h [] s rfl⟩]
    refine ih fun front t ht => h (13 :: 10 :: front) t ?_
    cases s with
    | nil => simp at hlf
    | cons d s =>
      obtain rfl : d = 10 := by simpa using hlf
      rw [List.tail_cons] at ht
      rw [ht]
      rfl
  | case3 c s hcrlf ih =>
    rw [removeFolds, if_neg fun hc => hcrlf ⟨hc.1, hc.2.1⟩]
    rw [ih fun front t ht => h (c :: front) t (by rw [ht]; rfl)]

theorem isWsp_tolower (c : UInt8) : isWsp (tolower c) = isWsp c := by
  by_cases h : 65 ≤ c ∧ c ≤ 90
  · rw [tolower, if_pos h]
    simp only [UInt8.le_iff_toNat_le, UInt8.reduceToNat] at h
    have hne : ∀ d : UInt8, d.toNat = 32 ∨ d.toNat = 9 → c + 32 ≠ d ∧ c ≠ d := by
      intro d hd
      simp only [ne_eq, ← UInt8.toNat_inj, UInt8.toNat_add, UInt8.reduceToNat]
      omega
    obtain ⟨h1, h2⟩ := hne 32 (.inl rfl)
    obtain ⟨h3, h4⟩ := hne 9 (.inr rfl)
    rw [isWsp, isWsp, beq_false_of_ne h1, beq_false_of_ne h2, beq_false_of_ne h3,
      beq_false_of_ne h4]
  · rw [tolower, if_neg h]

theorem rtrim_eq_self_iff (s : Bytes) : rtrim s = s ↔ ¬s.getLast?.any isWsp = true := by
  rcases List.eq_nil_or_concat' s with rfl | ⟨front, c, rfl⟩
  · simp [rtrim]
  · by_cases hc : isWsp c = true
    · have hlt : (rtrim (front ++ [c])).length < (front ++ [c]).length := by
        rw [rtrim, List.rdropWhile_concat_pos _ _ _ hc]
        have := (List.rdropWhile_prefix isWsp front).length_le
        rw [List.length_append, List.length_singleton]
        omega
      have hne : rtrim (front ++ [c]) ≠ front ++ [c] := fun heq => by
        rw [heq] at hlt
        omega
      simp [hne, hc]
    · simp [rtrim, List.rdropWhile_concat_neg _ _ _ hc, hc]

theorem relaxedValue_eq_reference {value : Bytes} (hnul : (0 : UInt8) ∉ value)
    (hfolds : FoldsOnly value) :
    relaxedValue value = ltrim (rtrim (oneBlank (removeFolds value))) := by
  rw [relaxedValue_eq hnul, (squeeze_eq_oneBlank _).1, removeFolds_eq hfolds]

/-- The list-level function is the reference, but for blanks behind a name. -/
theorem relaxedHeaderCanon_eq_iff {headers : List StringPair}
    (hnul : ∀ h ∈ headers, (0 : UInt8) ∉ h.value) (hfolds : ∀ h ∈ headers, FoldsOnly h.value) :
    relaxedHeaderCanon headers = headers.map relaxedField ↔
      ∀ h ∈ headers, ¬EndsInBlank h.key := by
  rw [relaxedHeaderCanon, List.map_inj_left]
  refine forall₂_congr fun h hmem => ?_
  have hlast : (h.key.map tolower).getLast?.any isWsp = h.key.getLast?.any isWsp := by
    cases hkey : h.key.getLast? with
    | none => simp [List.getLast?_map, hkey]
    | some c => simp [List.getLast?_map, hkey, isWsp_tolower]
  rw [relaxedField, StringPair.mk.injEq, relaxedValue_eq_reference (hnul h hmem) (hfolds h hmem),
    eq_comm, rtrim_eq_self_iff, hlast, EndsInBlank, and_iff_left rfl]

/-- **`relaxed_header_canon` computes the relaxed form exactly when no name has
blanks in front of the colon.** -/
theorem canonicalises_iff (a : Allocator) {headers : List PairPtr} {m : Strings}
    (hlive : ∀ h ∈ headers, h.key ∈ m.heap.live ∧ h.value ∈ m.heap.live)
    (hfolds : ∀ h ∈ headers, FoldsOnly (m.text h.value)) :
    CanonicalisesTo a headers m ((headers.map (pairAt m)).map relaxedField) ↔
      ∀ h ∈ headers, ¬EndsInBlank (m.text h.key) := by
  obtain ⟨new, m', hrun, htexts, hunchanged⟩ := relaxedHeaderCanonIn_eq a hlive
  have hlist := @relaxedHeaderCanon_eq_iff (headers.map (pairAt m))
    (List.forall_mem_map.mpr fun h _ => m.nul h.value)
    (List.forall_mem_map.mpr fun h hmem => hfolds h hmem)
  rw [List.forall_mem_map] at hlist
  rw [← show _ ↔ ∀ h ∈ headers, ¬EndsInBlank (m.text h.key) from hlist]
  constructor
  · rintro ⟨new', m'', hrun', htexts', -⟩
    rw [hrun] at hrun'
    cases hrun'
    exact htexts.symm.trans htexts'
  · intro heq
    exact ⟨new, m', hrun, htexts.trans heq, hunchanged⟩

section Examples

/-- One header in memory. -/
def oneHeader (key value : Bytes) : Strings where
  heap := ⟨{1, 2}, [], by decide⟩
  text p := str (if p = 1 then key else value)
  nul _ := not_mem_str _

theorem oneHeader_live (key value : Bytes) : ∀ h ∈ [PairPtr.mk 1 2],
    h.key ∈ (oneHeader key value).heap.live ∧ h.value ∈ (oneHeader key value).heap.live := by
  intro h hmem
  rw [List.mem_singleton] at hmem
  rw [hmem]
  exact ⟨Finset.mem_insert_self _ _, Finset.mem_insert_of_mem (Finset.mem_singleton_self _)⟩

theorem foldsOnly_x : FoldsOnly (bytes "x") := by
  intro front s h
  have hmem : (13 : UInt8) ∈ bytes "x" := h ▸ by simp
  exact absurd hmem (by decide)

theorem canonicalises_iff_subject :
    CanonicalisesTo .upward [⟨1, 2⟩] (oneHeader (bytes "Subject") (bytes "x"))
        (([⟨1, 2⟩].map (pairAt (oneHeader (bytes "Subject") (bytes "x")))).map relaxedField) ↔
      ∀ h ∈ [PairPtr.mk 1 2], ¬EndsInBlank ((oneHeader (bytes "Subject") (bytes "x")).text h.key) :=
  canonicalises_iff .upward (oneHeader_live _ _) (by
    intro h hmem
    rw [List.mem_singleton] at hmem
    rw [hmem]
    exact foldsOnly_x)

/-- The blank between the name and the colon is kept. -/
theorem blank_behind_name :
    ¬∀ (a : Allocator) (headers : List PairPtr) (m : Strings),
      (∀ h ∈ headers, h.key ∈ m.heap.live ∧ h.value ∈ m.heap.live) →
      (∀ h ∈ headers, FoldsOnly (m.text h.value)) →
      CanonicalisesTo a headers m ((headers.map (pairAt m)).map relaxedField) := by
  intro h
  obtain ⟨new', m'', hrun', htexts', -⟩ := h .upward [⟨1, 2⟩]
    (oneHeader (bytes "Subject ") (bytes "x")) (oneHeader_live _ _) (by
      intro g hmem
      rw [List.mem_singleton] at hmem
      rw [hmem]
      exact foldsOnly_x)
  obtain ⟨new, m', hrun, htexts, -⟩ := relaxedHeaderCanonIn_eq .upward
    (oneHeader_live (bytes "Subject ") (bytes "x"))
  rw [hrun] at hrun'
  cases hrun'
  have hkeys := congrArg (List.map StringPair.key) (htexts.symm.trans htexts')
  exact absurd hkeys (by decide)

end Examples

end ComfirmDmarc.Dkim
