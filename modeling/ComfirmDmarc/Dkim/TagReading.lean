import ComfirmDmarc.Dkim.SignatureHeader

/-!
# Dkim -- reading tags in parts

Reading the tags of a text does not depend on how blanks are spread over it,
and the text may be read in two parts where the first ends in `b=`: no tag lies
across such a cut.
-/

namespace ComfirmDmarc.Dkim

open CMemory

/-! ## The texts that start a tag -/

def tagTexts : List Bytes :=
  [bytes "v=", bytes "a=", bytes "c=", bytes "d=", bytes "s=", bytes "bh=", bytes "b=", bytes "h="]

theorem tagTexts_spec : ∀ lit ∈ tagTexts, lit.length ≤ 3 ∧ ∀ c ∈ lit, isWsp c = false ∧ c ≠ 59 := by
  decide +kernel

/-- The same tag starts where the same texts do. -/
theorem tagAt_congr {here here' : Bytes}
    (h : ∀ lit ∈ tagTexts, startsWith here lit = startsWith here' lit) : tagAt here = tagAt here' := by
  simp only [tagTexts, List.forall_mem_cons] at h
  obtain ⟨hv, ha, hc, hd, hs, hbh, hb, hh, -⟩ := h
  simp only [tagAt, hv, ha, hc, hd, hs, hbh, hb, hh]

/-! ## Blanks do not matter -/

/-- Every tag is a text of at most three bytes without blanks. -/
theorem tagAt_some {here : Bytes} {t : Tag} {skip : Nat} (h : tagAt here = some (t, skip)) :
    ∃ lit : Bytes, startsWith here lit = true ∧ lit.length = skip + 1 ∧
      ∀ c ∈ lit, isWsp c = false := by
  rw [tagAt] at h
  split_ifs at h with hv ha hc hd hs hbh hb hh
  all_goals
    simp only [Option.some.injEq, Prod.mk.injEq] at h
    obtain ⟨-, rfl⟩ := h
    exact ⟨_, ‹_›, by decide, fun c hc => ((tagTexts_spec _ (by simp [tagTexts])).2 c hc).1⟩

theorem startsWith_cons (c x : UInt8) (s lit : Bytes) :
    startsWith (c :: s) (x :: lit) = (x == c && startsWith s lit) := rfl

theorem tagAt_of_isWsp {c : UInt8} (hc : isWsp c = true) (s : Bytes) : tagAt (c :: s) = none := by
  cases htag : tagAt (c :: s) with
  | none => rfl
  | some p =>
    obtain ⟨lit, hstart, hlen, hlit⟩ := tagAt_some (show tagAt (c :: s) = some (p.1, p.2) from htag)
    cases lit with
    | nil => exact absurd hlen (by simp)
    | cons x lit =>
      rw [startsWith_cons, Bool.and_eq_true, beq_iff_eq] at hstart
      have hx := hlit x List.mem_cons_self
      rw [hstart.1, hc] at hx
      exact nomatch hx

/-- A blank is skipped. -/
theorem readTags_of_isWsp {c : UInt8} (hc : isWsp c = true) (r : Reading) (s : Bytes) :
    readTags r (c :: s) = readTags r s := by
  rw [readTags]
  split
  · have hend : c ≠ 59 := by
      rintro rfl
      exact absurd hc (by decide)
    rw [Reading.next, if_neg hend, if_pos hc]
  · rw [tagAt_of_isWsp hc]

/-- Words without blanks are found in a text with its blanks squeezed. -/
theorem startsWith_joinWords {lit : Bytes} (hlit : ∀ c ∈ lit, isWsp c = false) (s : Bytes) :
    startsWith (joinWords .word s) lit = startsWith s lit ∧
      (startsWith s lit = true →
        (joinWords .word s).drop lit.length = joinWords .word (s.drop lit.length)) := by
  induction lit generalizing s with
  | nil => exact ⟨rfl, fun _ => rfl⟩
  | cons x lit ih =>
    have hx : isWsp x = false := hlit x List.mem_cons_self
    cases s with
    | nil => exact ⟨rfl, fun hyes => by cases hyes⟩
    | cons c s =>
      by_cases hc : isWsp c = true
      · have hno : startsWith (c :: s) (x :: lit) = false := by
          rw [startsWith_cons, Bool.and_eq_false_iff]
          left
          rw [beq_eq_false_iff_ne]
          rintro rfl
          rw [hc] at hx
          exact nomatch hx
        refine ⟨?_, fun hyes => by simp [hno] at hyes⟩
        rw [hno, joinWords, if_pos hc]
        -- what follows a blank starts with a blank, or is empty
        have hgap : ∀ s, startsWith (joinWords .gap s) (x :: lit) = false := by
          intro s
          induction s with
          | nil => rfl
          | cons d s ihs =>
            rw [joinWords]
            split
            · exact ihs
            · rw [if_pos rfl, startsWith_cons, Bool.and_eq_false_iff]
              left
              rw [beq_eq_false_iff_ne]
              rintro rfl
              exact absurd hx (by decide)
        exact hgap s
      · obtain ⟨hstart, hdrop⟩ := ih (fun d hd => hlit d (List.mem_cons_of_mem _ hd)) s
        rw [joinWords, if_neg hc, if_neg (by decide), startsWith_cons, startsWith_cons, hstart]
        refine ⟨rfl, fun hyes => ?_⟩
        rw [Bool.and_eq_true] at hyes
        exact hdrop hyes.2

theorem tagAt_joinWords (c : UInt8) (s : Bytes) : tagAt (c :: joinWords .word s) = tagAt (c :: s) := by
  have hsame : ∀ lit : Bytes, (∀ d ∈ lit, isWsp d = false) →
      startsWith (c :: joinWords .word s) lit = startsWith (c :: s) lit := by
    intro lit hlit
    cases lit with
    | nil => rfl
    | cons x lit =>
      rw [startsWith_cons, startsWith_cons,
        (startsWith_joinWords (fun d hd => hlit d (List.mem_cons_of_mem _ hd)) s).1]
  exact tagAt_congr fun lit hlit => hsame lit fun d hd => ((tagTexts_spec lit hlit).2 d hd).1

/-- **Joining the words does not change what is read.** -/
theorem readTags_joinWords (r : Reading) (g : Gap) (s : Bytes) :
    readTags r (joinWords g s) = readTags r s := by
  induction hn : s.length using Nat.strong_induction_on generalizing r g s with
  | _ n ih =>
  cases s with
  | nil => rfl
  | cons c s =>
    simp only [List.length_cons] at hn
    by_cases hc : isWsp c = true
    · rw [joinWords, if_pos hc, readTags_of_isWsp hc]
      exact ih s.length (by omega) r _ s rfl
    · have hword : readTags r (c :: joinWords .word s) = readTags r (c :: s) := by
        rw [readTags, readTags]
        split
        · exact ih s.length (by omega) _ _ s rfl
        · rw [tagAt_joinWords]
          split
          · rename_i t skip htag
            obtain ⟨lit, hstart, hlen, hlit⟩ := tagAt_some htag
            cases lit with
            | nil => exact absurd hlen (by simp)
            | cons x lit =>
              rw [startsWith_cons, Bool.and_eq_true] at hstart
              have hdrop := (startsWith_joinWords
                (fun d hd => hlit d (List.mem_cons_of_mem _ hd)) s).2 hstart.2
              rw [show skip = lit.length by simpa using hlen.symm, hdrop]
              exact ih (s.drop lit.length).length (by simp; omega) _ _ _ rfl
          · exact ih s.length (by omega) _ _ s rfl
      rw [joinWords, if_neg hc]
      split
      · rw [readTags_of_isWsp (by decide), hword]
      · exact hword

/-! ## A text in two parts -/

theorem startsWith_append_of_le {u lit : Bytes} (h : lit.length ≤ u.length) (x : Bytes) :
    startsWith (u ++ x) lit = startsWith u lit := by
  rw [Bool.eq_iff_iff, startsWith_iff, startsWith_iff]
  exact ⟨fun hpre => List.prefix_of_prefix_length_le hpre (List.prefix_append u x) h,
    fun hpre => hpre.trans (List.prefix_append u x)⟩

/-- No tag starts in a part that ends in `b=` and ends behind it. -/
theorem tagAt_append {part u : Bytes} (hpart : [98, 61] <:+ part) (hu : u <:+ part) (hne : u ≠ [])
    (x : Bytes) : tagAt (u ++ x) = tagAt u := by
  match u, hne with
  | [c], _ =>
    obtain ⟨front, rfl⟩ := hpart
    obtain rfl : c = 61 := by
      obtain ⟨g, hg⟩ := hu
      have hlast := congrArg List.getLast? hg
      simpa using hlast
    rfl
  | [c, d], _ =>
    obtain ⟨front, rfl⟩ := hpart
    have h2 : [c, d] = [98, 61] :=
      (List.suffix_of_suffix_length_le hu (List.suffix_append front [98, 61]) (by simp)).eq_of_length
        rfl
    rw [h2]
    rfl
  | c :: d :: e :: u, _ =>
    refine tagAt_congr fun lit hlit => startsWith_append_of_le ?_ x
    have hlen := (tagTexts_spec lit hlit).1
    simp only [List.length_cons]
    omega

/-- **Reading goes on behind a part that ends in `b=`.** -/
theorem readTags_append (r : Reading) {part : Bytes} (hpart : [98, 61] <:+ part) (x : Bytes) :
    readTags r (part ++ x) = readTags (readTags r part) x := by
  suffices h : ∀ u, u <:+ part → ∀ r, readTags r (u ++ x) = readTags (readTags r u) x from
    h part List.suffix_rfl r
  intro u hu r
  fun_induction readTags r u with
  | case1 r => rfl
  | case2 r c rest t v hcur ih =>
    rw [List.cons_append, readTags, hcur]
    exact ih ((List.suffix_cons c rest).trans hu)
  | case3 r c rest hcur t skip htag ih =>
    obtain ⟨lit, hstart, hlen, -⟩ := tagAt_some htag
    have hle : skip ≤ rest.length := by
      have := (startsWith_iff.mp hstart).length_le
      simp only [List.length_cons] at this
      omega
    have htag' := tagAt_append hpart hu (by simp) x
    rw [htag, List.cons_append] at htag'
    rw [List.cons_append, readTags, hcur]
    simp only [htag']
    rw [List.drop_append_of_le_length hle]
    exact ih (((List.drop_suffix skip rest).trans (List.suffix_cons c rest)).trans hu)
  | case4 r c rest hcur htag ih =>
    have htag' := tagAt_append hpart hu (by simp) x
    rw [htag, List.cons_append] at htag'
    rw [List.cons_append, readTags, hcur]
    simp only [htag']
    exact ih ((List.suffix_cons c rest).trans hu)

/-- The values read before only stand in front. -/
theorem readTags_done (values : List (Tag × Bytes)) (r : Reading) (sig : Bytes) :
    readTags ⟨values ++ r.done, r.cur⟩ sig =
      ⟨values ++ (readTags r sig).done, (readTags r sig).cur⟩ := by
  fun_induction readTags r sig with
  | case1 r => rw [readTags]
  | case2 r c rest t v hcur ih =>
    have hnext : (Reading.mk (values ++ r.done) r.cur).next t v c =
        ⟨values ++ (r.next t v c).done, (r.next t v c).cur⟩ := by
      simp only [Reading.next]
      split_ifs <;> simp
    rw [readTags]
    simp only [hcur] at hnext ⊢
    rw [hnext]
    exact ih
  | case3 r c rest hcur t skip htag ih =>
    rw [readTags]
    simp only [hcur, htag]
    exact ih
  | case4 r c rest hcur htag ih =>
    rw [readTags]
    simp only [hcur, htag]
    rw [← hcur]
    exact ih

end ComfirmDmarc.Dkim
