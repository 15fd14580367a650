import ComfirmDmarc.Dkim.BodyCanon
import ComfirmDmarc.Dkim.HeaderCopies
import Mathlib.Logic.Relation

/-!
# Dkim -- white space that changes on the way

What relays do to the white space of a mail: they fold a header value anew,
and they change the blanks in and behind the lines of the body and the empty
lines at its end. The canonicalisers of `firm-dkim.c` make the same text of a
value, and of a body, before and after every such change.
-/

namespace ComfirmDmarc.Dkim

open CMemory

/-! ## The changes -/

/-- A run of SP and TAB. -/
structure Blanks (w : Bytes) : Prop where
  ne_nil : w ≠ []
  blank : ∀ c ∈ w, isWsp c = true

/-- White space that a value may be folded at. -/
inductive Spacing : Bytes → Prop
  | blank {c : UInt8} : isWsp c = true → Spacing [c]
  | fold {c : UInt8} : isWsp c = true → Spacing [13, 10, c]
  | append {u v : Bytes} : Spacing u → Spacing v → Spacing (u ++ v)

/-- **One change of a header value.** -/
inductive ValueEdit : Bytes → Bytes → Prop
  | refold (u v : Bytes) {w w' : Bytes} : Spacing w → Spacing w' →
      ValueEdit (u ++ w ++ v) (u ++ w' ++ v)
  | lead (v : Bytes) {w : Bytes} : Spacing w → ValueEdit v (w ++ v)
  | trail (v : Bytes) {w : Bytes} : Spacing w → ValueEdit v (v ++ w)

/-- **One change of a body.** -/
inductive BodyEdit : Bytes → Bytes → Prop
  | blanks (u v : Bytes) {w w' : Bytes} : Blanks w → Blanks w' →
      BodyEdit (u ++ w ++ v) (u ++ w' ++ v)
  | lineEnd (u v : Bytes) {w : Bytes} : Blanks w →
      BodyEdit (u ++ crlf ++ v) (u ++ w ++ crlf ++ v)
  | lineBreak (u v : Bytes) : u.getLast? ≠ some 13 → BodyEdit (u ++ 10 :: v) (u ++ crlf ++ v)
  | lastLine (u : Bytes) {w : Bytes} : Blanks w → BodyEdit u (u ++ w)
  | emptyLine (u : Bytes) : BodyEdit u (u ++ crlf)

/-! ## White space and NUL -/

theorem isWsp_ne {c : UInt8} (h : isWsp c = true) : c ≠ 0 ∧ c ≠ 10 ∧ c ≠ 13 := by
  simp only [isWsp, Bool.or_eq_true, beq_iff_eq] at h
  rcases h with rfl | rfl
  · decide
  · decide

theorem Blanks.nul {w : Bytes} (h : Blanks w) : (0 : UInt8) ∉ w :=
  fun h0 => (isWsp_ne (h.blank 0 h0)).1 rfl

theorem Spacing.nul {w : Bytes} (h : Spacing w) : (0 : UInt8) ∉ w := by
  induction h with
  | blank hc => simpa using (isWsp_ne hc).1.symm
  | fold hc => simpa using (isWsp_ne hc).1.symm
  | append _ _ ihu ihv => simpa using ⟨ihu, ihv⟩

theorem ValueEdit.nul_iff {v v' : Bytes} (h : ValueEdit v v') : (0 : UInt8) ∈ v ↔ (0 : UInt8) ∈ v' := by
  cases h with
  | refold u v hw hw' => simp [hw.nul, hw'.nul]
  | lead v hw => simp [hw.nul]
  | trail v hw => simp [hw.nul]

theorem BodyEdit.nul_iff {b b' : Bytes} (h : BodyEdit b b') : (0 : UInt8) ∈ b ↔ (0 : UInt8) ∈ b' := by
  cases h with
  | blanks u v hw hw' => simp [hw.nul, hw'.nul]
  | lineEnd u v hw => simp [hw.nul]
  | lineBreak u v hu => simp [crlf]
  | lastLine u hw => simp [hw.nul]
  | emptyLine u => simp [crlf]

/-! ## Words -/

/-- Texts that go on with the same words, whatever is in front of them, do so
behind any text. -/
theorem joinWords_append_congr {s t : Bytes} (h : ∀ g, joinWords g s = joinWords g t) (u : Bytes) :
    ∀ g, joinWords g (u ++ s) = joinWords g (u ++ t) := by
  induction u with
  | nil => exact h
  | cons c u ih =>
    intro g
    by_cases hc : isWsp c = true
    · rw [List.cons_append, List.cons_append, joinWords_wsp hc, joinWords_wsp hc, ih]
    · rw [List.cons_append, List.cons_append, joinWords_word hc, joinWords_word hc, ih]

theorem joinWords_blanks {w : Bytes} (hw : Blanks w) (g : Gap) (s : Bytes) :
    joinWords g (w ++ s) = joinWords (if g = .start then .start else .gap) s := by
  obtain ⟨hne, hblank⟩ := hw
  induction w generalizing g with
  | nil => exact absurd rfl hne
  | cons c w ih =>
    rw [List.cons_append, joinWords_wsp (hblank c List.mem_cons_self)]
    by_cases hnil : w = []
    · rw [hnil, List.nil_append]
    · rw [ih _ hnil fun d hd => hblank d (List.mem_cons_of_mem _ hd)]
      by_cases hg : g = .start
      · rw [if_pos hg, if_pos rfl]
      · rw [if_neg hg, if_neg (by decide)]

/-- One run of blanks is as good as another. -/
theorem joinWords_refold {w w' : Bytes} (hw : Blanks w) (hw' : Blanks w') (g : Gap) (u v : Bytes) :
    joinWords g (u ++ w ++ v) = joinWords g (u ++ w' ++ v) := by
  rw [List.append_assoc, List.append_assoc]
  exact joinWords_append_congr (fun g => by rw [joinWords_blanks hw, joinWords_blanks hw']) u g

theorem joinWords_trail {w : Bytes} (hw : Blanks w) (g : Gap) (u : Bytes) :
    joinWords g (u ++ w) = joinWords g u := by
  have hnone : ∀ g, joinWords g w = joinWords g [] := by
    intro g
    have hblank := joinWords_blanks hw g []
    rw [List.append_nil, joinWords] at hblank
    rw [hblank, joinWords]
  rw [joinWords_append_congr hnone, List.append_nil]

/-! ## Header values -/

/-- The blanks that a spacing leaves where it stands. -/
theorem Spacing.removeCrlf_eq {w : Bytes} (h : Spacing w) :
    ∃ b, Blanks b ∧ ∀ u v, removeCrlf (u ++ w ++ v) = removeCrlf u ++ b ++ removeCrlf v := by
  induction h with
  | @blank c hc =>
    obtain ⟨-, hlf, hcr⟩ := isWsp_ne hc
    refine ⟨[c], ⟨by simp, by simpa using hc⟩, fun u v => ?_⟩
    rw [List.append_assoc, List.singleton_append, removeCrlf_append_cons u hlf, removeCrlf_cons hcr,
      List.append_assoc, List.singleton_append]
  | @fold c hc =>
    obtain ⟨-, hlf, hcr⟩ := isWsp_ne hc
    refine ⟨[c], ⟨by simp, by simpa using hc⟩, fun u v => ?_⟩
    have hpair : removeCrlf (13 :: 10 :: c :: v) = c :: removeCrlf v := by
      rw [removeCrlf, if_pos ⟨rfl, rfl⟩, List.tail_cons, removeCrlf_cons hcr]
    rw [List.append_assoc, List.cons_append, List.cons_append, List.singleton_append,
      removeCrlf_append_cons u (by decide), hpair, List.append_assoc, List.singleton_append]
  | @append x y _ _ ihx ihy =>
    obtain ⟨b, hb, hx⟩ := ihx
    obtain ⟨d, hd, hy⟩ := ihy
    refine ⟨b ++ d, ⟨by simp [hb.ne_nil], ?_⟩, fun u v => ?_⟩
    · intro c hc
      exact (List.mem_append.mp hc).elim (hb.blank c) (hd.blank c)
    · have hsecond := hy [] v
      rw [List.nil_append, removeCrlf, List.nil_append] at hsecond
      rw [← List.append_assoc u, List.append_assoc (u ++ x), hx, hsecond]
      simp only [List.append_assoc]

/-- **The relaxed value does not change with the folding.** -/
theorem ValueEdit.relaxedValue_eq {v v' : Bytes} (h : ValueEdit v v') (hv : (0 : UInt8) ∉ v) :
    relaxedValue v = relaxedValue v' := by
  have hv' : (0 : UInt8) ∉ v' := fun h0 => hv (h.nul_iff.mpr h0)
  rw [relaxedValue_eq_joinWords hv, relaxedValue_eq_joinWords hv']
  cases h with
  | refold u v hw hw' =>
    obtain ⟨b, hb, hleft⟩ := hw.removeCrlf_eq
    obtain ⟨b', hb', hright⟩ := hw'.removeCrlf_eq
    rw [hleft, hright]
    exact joinWords_refold hb hb' .start _ _
  | @lead _ w hw =>
    obtain ⟨b, hb, hleft⟩ := hw.removeCrlf_eq
    have hfront := hleft [] v
    rw [List.nil_append, removeCrlf, List.nil_append] at hfront
    rw [hfront, joinWords_blanks hb, if_pos rfl]
  | @trail _ w hw =>
    obtain ⟨b, hb, hleft⟩ := hw.removeCrlf_eq
    have hback := hleft v []
    rw [List.append_nil, removeCrlf, List.append_nil] at hback
    rw [hback, joinWords_trail hb]

/-! ## Lines of the body -/

/-- The words of a line, behind a SP when it starts with a blank. -/
theorem squeeze_rtrim (s : Bytes) :
    squeeze false (rtrim s) = joinWords .word s ∧
      (if rtrim s = [] then [] else 32 :: squeeze true (rtrim s)) = joinWords .gap s := by
  induction s with
  | nil => exact ⟨rfl, rfl⟩
  | cons c s ih =>
    obtain ⟨hword, hgap⟩ := ih
    by_cases hc : isWsp c = true
    · have hd : detab c = 32 := (isWsp_detab c).mp hc
      have hword' : joinWords .word (c :: s) = joinWords .gap s := joinWords_wsp hc .word s
      have hgap' : joinWords .gap (c :: s) = joinWords .gap s := joinWords_wsp hc .gap s
      rw [rtrim_cons, hword', hgap', ← hgap]
      by_cases hnil : rtrim s = []
      · simp [hnil, hc, squeeze]
      · simp [hnil, squeeze, hd]
    · rw [rtrim_cons_of_not_isWsp hc, squeeze_word hc, squeeze_word hc, joinWords_word hc,
        joinWords_word hc, hword]
      exact ⟨rfl, rfl⟩

theorem relaxedBodyCanonLine_words {line : Bytes} (h : (0 : UInt8) ∉ line) :
    relaxedBodyCanonLine line = joinWords .word line := by
  rw [relaxedBodyCanonLine_eq h, ← (squeeze_eq_oneBlank _).1, (squeeze_rtrim line).1]

theorem dropCr_nul {line : Bytes} (h : (0 : UInt8) ∉ line) : (0 : UInt8) ∉ dropCr line :=
  fun h0 => h (dropCr_subset line 0 h0)

/-- The CR of a line stands behind its blanks. -/
theorem dropCr_blanks {w : Bytes} (hw : Blanks w) (l x : Bytes) :
    dropCr (l ++ w ++ x) = l ++ w ++ dropCr x := by
  rcases List.eq_nil_or_concat' x with rfl | ⟨x, c, rfl⟩
  · obtain ⟨y, c, rfl⟩ := (List.eq_nil_or_concat' w).resolve_left hw.ne_nil
    have hc : c ≠ 13 := (isWsp_ne (hw.blank c (by simp))).2.2
    simp [dropCr, ← List.append_assoc, hc]
  · rw [dropCr, dropCr, ← List.append_assoc, List.getLast?_concat, List.getLast?_concat]
    split
    · rw [List.dropLast_concat, List.dropLast_concat]
    · rw [List.append_assoc]

/-! ## The loop over the body -/

theorem bodyLines_lf (line v : Bytes) :
    bodyLines line (10 :: v) = relaxedBodyCanonLine (dropCr line) ++ crlf ++ bodyLines [] v := by
  rw [bodyLines, if_pos rfl, dropCr]

theorem bodyLines_cons {c : UInt8} (hc : c ≠ 10) (line v : Bytes) :
    bodyLines line (c :: v) = bodyLines (line ++ [c]) v := by
  rw [bodyLines, if_neg hc]

/-- Bytes in front of the LF are put to the open line. -/
theorem bodyLines_open {w : Bytes} (hw : (10 : UInt8) ∉ w) (line v : Bytes) :
    bodyLines line (w ++ v) = bodyLines (line ++ w) v := by
  induction w generalizing line with
  | nil => simp
  | cons c w ih =>
    simp only [List.mem_cons, not_or] at hw
    rw [List.cons_append, bodyLines_cons (Ne.symm hw.1), ih hw.2, List.append_assoc,
      List.singleton_append]

theorem bodyLines_crlf (line v : Bytes) :
    bodyLines line (crlf ++ v) = relaxedBodyCanonLine line ++ crlf ++ bodyLines [] v := by
  have hopen := bodyLines_open (show (10 : UInt8) ∉ [13] by decide) line (10 :: v)
  rw [List.singleton_append] at hopen
  rw [crlf, List.cons_append, List.cons_append, List.nil_append, hopen, bodyLines_lf, dropCr,
    List.getLast?_concat, if_pos rfl, List.dropLast_concat, crlf]

/-- Open lines that come out alike, whatever is put to them. -/
theorem bodyLines_congr {l l' : Bytes}
    (hclosed : ∀ x, (0 : UInt8) ∉ x →
      relaxedBodyCanonLine (dropCr (l ++ x)) = relaxedBodyCanonLine (dropCr (l' ++ x)))
    (hlast : ∀ x, (0 : UInt8) ∉ x → bodyLines (l ++ x) [] = bodyLines (l' ++ x) [])
    {v : Bytes} (hv : (0 : UInt8) ∉ v) : bodyLines l v = bodyLines l' v := by
  induction v generalizing l l' with
  | nil =>
    have hend := hlast [] (by simp)
    rwa [List.append_nil, List.append_nil] at hend
  | cons c v ih =>
    simp only [List.mem_cons, not_or] at hv
    by_cases hc : c = 10
    · have hline := hclosed [] (by simp)
      rw [List.append_nil, List.append_nil] at hline
      rw [hc, bodyLines_lf, bodyLines_lf, hline]
    · rw [bodyLines_cons hc, bodyLines_cons hc]
      refine ih (fun x hx => ?_) (fun x hx => ?_) hv.2
      · rw [List.append_assoc, List.append_assoc]
        exact hclosed (c :: x) (by simpa using ⟨hv.1, hx⟩)
      · rw [List.append_assoc, List.append_assoc]
        exact hlast (c :: x) (by simpa using ⟨hv.1, hx⟩)

theorem rtrimLines_append_congr {s t : Bytes} (h : rtrimLines s = rtrimLines t) (p : Bytes) :
    rtrimLines (p ++ s) = rtrimLines (p ++ t) := by
  have hsplit : ∀ s, rtrimLines (p ++ s) =
      if rtrimLines s = [] then rtrimLines p else p ++ rtrimLines s := by
    intro s
    simp only [rtrimLines, List.rdropWhile, List.reverse_append, List.dropWhile_append,
      List.isEmpty_iff, List.reverse_eq_nil_iff]
    split
    · rfl
    · simp
  rw [hsplit, hsplit, h]

/-- Texts that come out alike behind any open line do so behind any text. -/
theorem bodyLines_append_congr {s t : Bytes}
    (h : ∀ line, (0 : UInt8) ∉ line → rtrimLines (bodyLines line s) = rtrimLines (bodyLines line t))
    {u line : Bytes} (hu : (0 : UInt8) ∉ u) (hline : (0 : UInt8) ∉ line) :
    rtrimLines (bodyLines line (u ++ s)) = rtrimLines (bodyLines line (u ++ t)) := by
  induction u generalizing line with
  | nil => exact h line hline
  | cons c u ih =>
    simp only [List.mem_cons, not_or] at hu
    by_cases hc : c = 10
    · rw [hc, List.cons_append, List.cons_append, bodyLines_lf, bodyLines_lf]
      exact rtrimLines_append_congr (ih hu.2 (by simp)) _
    · rw [List.cons_append, List.cons_append, bodyLines_cons hc, bodyLines_cons hc]
      exact ih hu.2 (by simpa using ⟨hline, hu.1⟩)

/-- Blanks in a line. -/
theorem bodyLines_refold {w w' : Bytes} (hw : Blanks w) (hw' : Blanks w') {line v : Bytes}
    (hline : (0 : UInt8) ∉ line) (hv : (0 : UInt8) ∉ v) :
    bodyLines line (w ++ v) = bodyLines line (w' ++ v) := by
  have hlf : ∀ {w}, Blanks w → (10 : UInt8) ∉ w := fun hw h => (isWsp_ne (hw.blank 10 h)).2.1 rfl
  have hcanon : ∀ x, (0 : UInt8) ∉ x →
      relaxedBodyCanonLine (line ++ w ++ x) = relaxedBodyCanonLine (line ++ w' ++ x) := by
    intro x hx
    rw [relaxedBodyCanonLine_words (by simpa using ⟨hline, hw.nul, hx⟩),
      relaxedBodyCanonLine_words (by simpa using ⟨hline, hw'.nul, hx⟩)]
    exact joinWords_refold hw hw' .word line x
  rw [bodyLines_open (hlf hw), bodyLines_open (hlf hw')]
  refine bodyLines_congr (fun x hx => ?_) (fun x hx => ?_) hv
  · rw [dropCr_blanks hw, dropCr_blanks hw']
    exact hcanon _ (dropCr_nul hx)
  · rw [bodyLines, bodyLines, if_neg (by simp [hw.ne_nil]), if_neg (by simp [hw'.ne_nil]),
      hcanon x hx]

theorem bodyLines_lineBreak {line : Bytes} (h : line.getLast? ≠ some 13) (v : Bytes) :
    bodyLines line (10 :: v) = bodyLines line (crlf ++ v) := by
  rw [bodyLines_lf, bodyLines_crlf, dropCr, if_neg h]

/-- **The relaxed body does not change with the white space.** -/
theorem BodyEdit.relaxedBodyCanon_eq {b b' : Bytes} (h : BodyEdit b b') (hb : (0 : UInt8) ∉ b) :
    relaxedBodyCanon b = relaxedBodyCanon b' := by
  have htrail : ∀ {w line : Bytes}, Blanks w → (0 : UInt8) ∉ line →
      relaxedBodyCanonLine (line ++ w) = relaxedBodyCanonLine line := by
    intro w line hw hline
    rw [relaxedBodyCanonLine_words (by simpa using ⟨hline, hw.nul⟩),
      relaxedBodyCanonLine_words hline, joinWords_trail hw]
  have hlf : ∀ {w}, Blanks w → (10 : UInt8) ∉ w := fun hw h => (isWsp_ne (hw.blank 10 h)).2.1 rfl
  -- an open line without bytes comes out as nothing, or as an empty line
  have hempty : ∀ line, (0 : UInt8) ∉ line →
      rtrimLines (bodyLines line []) = rtrimLines (relaxedBodyCanonLine line ++ crlf) := by
    intro line hline
    rw [bodyLines]
    by_cases hnil : line = []
    · rw [if_pos hnil, hnil, relaxedBodyCanonLine_words (by simp), joinWords]
      rfl
    · rw [if_neg hnil]
  have hlines : rtrimLines (bodyLines [] b) = rtrimLines (bodyLines [] b') := by
    cases h with
    | blanks u v hw hw' =>
      simp only [List.mem_append, not_or] at hb
      rw [List.append_assoc, List.append_assoc]
      exact bodyLines_append_congr
        (fun line hline => by rw [bodyLines_refold hw hw' hline hb.2]) hb.1.1 (by simp)
    | lineEnd u v hw =>
      simp only [List.mem_append, not_or] at hb
      simp only [List.append_assoc]
      refine bodyLines_append_congr (fun line hline => ?_) hb.1.1 (by simp)
      rw [bodyLines_open (hlf hw), bodyLines_crlf, bodyLines_crlf, htrail hw hline]
    | lineBreak u v hcr =>
      simp only [List.append_assoc]
      simp only [List.mem_append, not_or] at hb
      rcases List.eq_nil_or_concat' u with rfl | ⟨u, c, rfl⟩
      · rw [List.nil_append, List.nil_append, bodyLines_lineBreak (by simp)]
      · rw [List.getLast?_concat] at hcr
        rw [List.append_assoc, List.append_assoc, List.singleton_append, List.singleton_append]
        refine bodyLines_append_congr (fun line _ => ?_) (fun h0 => hb.1 (by simp [h0])) (by simp)
        by_cases hc : c = 10
        · have hblank := @bodyLines_lineBreak [] (by simp) v
          rw [hc, bodyLines_lf line, bodyLines_lf line, hblank]
        · have hopen := @bodyLines_lineBreak (line ++ [c]) (by rwa [List.getLast?_concat]) v
          rw [bodyLines_cons hc, bodyLines_cons hc, hopen]
    | @lastLine _ w hw =>
      have hback := @bodyLines_append_congr [] w (fun line hline => by
        have hopen := bodyLines_open (hlf hw) line []
        rw [List.append_nil] at hopen
        rw [hopen, hempty line hline, hempty _ (by simpa using ⟨hline, hw.nul⟩), htrail hw hline])
        b [] hb (by simp)
      rwa [List.append_nil] at hback
    | emptyLine =>
      have hback := @bodyLines_append_congr [] crlf (fun line hline => by
        have hline' := bodyLines_crlf line []
        rw [List.append_nil, bodyLines, if_pos rfl, List.append_nil] at hline'
        rw [hline', hempty line hline]) b [] hb (by simp)
      rwa [List.append_nil] at hback
  rw [relaxedBodyCanon, relaxedBodyCanon, hlines]

/-! ## Any number of changes -/

/-- Changes that are made or undone, one after the other. -/
def ValueEdits : Bytes → Bytes → Prop := Relation.EqvGen ValueEdit

def BodyEdits : Bytes → Bytes → Prop := Relation.EqvGen BodyEdit

theorem ValueEdits.keeps {v v' : Bytes} (h : ValueEdits v v') :
    ((0 : UInt8) ∈ v ↔ (0 : UInt8) ∈ v') ∧
      ((0 : UInt8) ∉ v → relaxedValue v = relaxedValue v') := by
  induction h with
  | rel v v' h => exact ⟨h.nul_iff, h.relaxedValue_eq⟩
  | refl v => exact ⟨Iff.rfl, fun _ => rfl⟩
  | symm v v' _ ih => exact ⟨ih.1.symm, fun hv => (ih.2 fun h0 => hv (ih.1.mp h0)).symm⟩
  | trans v v' v'' _ _ ih ih' =>
    exact ⟨ih.1.trans ih'.1, fun hv => (ih.2 hv).trans (ih'.2 fun h0 => hv (ih.1.mpr h0))⟩

theorem BodyEdits.keeps {b b' : Bytes} (h : BodyEdits b b') :
    ((0 : UInt8) ∈ b ↔ (0 : UInt8) ∈ b') ∧
      ((0 : UInt8) ∉ b → relaxedBodyCanon b = relaxedBodyCanon b') := by
  induction h with
  | rel b b' h => exact ⟨h.nul_iff, h.relaxedBodyCanon_eq⟩
  | refl b => exact ⟨Iff.rfl, fun _ => rfl⟩
  | symm b b' _ ih => exact ⟨ih.1.symm, fun hb => (ih.2 fun h0 => hb (ih.1.mp h0)).symm⟩
  | trans b b' b'' _ _ ih ih' =>
    exact ⟨ih.1.trans ih'.1, fun hb => (ih.2 hb).trans (ih'.2 fun h0 => hb (ih.1.mpr h0))⟩

/-! ## Every text can be brought to its relaxed form -/

theorem FoldsOnly.tail {c : UInt8} {s : Bytes} (h : FoldsOnly (c :: s)) : FoldsOnly s :=
  fun front t ht => h (c :: front) t (by rw [ht, List.cons_append])

/-- A fold at the front of a value. -/
theorem FoldsOnly.fold {s : Bytes} (h : FoldsOnly (13 :: s)) :
    ∃ d t, isWsp d = true ∧ s = 10 :: d :: t := by
  obtain ⟨hlf, hblank⟩ := h [] s rfl
  obtain ⟨s, rfl⟩ := List.head?_eq_some_iff.mp hlf
  cases s with
  | nil => simp at hblank
  | cons d t => exact ⟨d, t, by simpa using hblank, rfl⟩

theorem removeCrlf_fold {d : UInt8} (hd : isWsp d = true) (t : Bytes) :
    removeCrlf (13 :: 10 :: d :: t) = d :: removeCrlf t := by
  rw [removeCrlf, if_pos ⟨rfl, rfl⟩, List.tail_cons, removeCrlf_cons (isWsp_ne hd).2.2]

/-- Behind a word, and behind white space that is under way. -/
theorem valueEdits_words (s : Bytes) (h : FoldsOnly s) :
    (∀ u, ValueEdits (u ++ s) (u ++ joinWords .word (removeCrlf s))) ∧
      ∀ u w, Spacing w → ValueEdits (u ++ w ++ s) (u ++ joinWords .gap (removeCrlf s)) := by
  match s with
  | [] =>
    rw [removeCrlf, joinWords, joinWords]
    refine ⟨fun u => .refl _, fun u w hw => ?_⟩
    rw [List.append_nil, List.append_nil]
    exact .symm _ _ (.rel _ _ (.trail u hw))
  | c :: s =>
    by_cases hc : isWsp c = true
    · obtain ⟨-, hgap⟩ := valueEdits_words s h.tail
      have hblank : ∀ g, joinWords g (removeCrlf (c :: s)) =
          joinWords (if g = .start then .start else .gap) (removeCrlf s) := by
        intro g
        rw [removeCrlf_cons (isWsp_ne hc).2.2, joinWords_wsp hc]
      rw [hblank, hblank, if_neg (by decide), if_neg (by decide)]
      refine ⟨fun u => ?_, fun u w hw => ?_⟩
      · have hedit := hgap u [c] (.blank hc)
        rwa [List.append_assoc, List.singleton_append] at hedit
      · have hedit := hgap u (w ++ [c]) (.append hw (.blank hc))
        rwa [List.append_assoc, List.append_assoc, List.singleton_append, ← List.append_assoc] at hedit
    · by_cases hcr : c = 13
      · subst hcr
        obtain ⟨d, t, hd, rfl⟩ := h.fold
        obtain ⟨-, hgap⟩ := valueEdits_words t h.tail.tail.tail
        have hfold : ∀ g, joinWords g (removeCrlf (13 :: 10 :: d :: t)) =
            joinWords (if g = .start then .start else .gap) (removeCrlf t) := by
          intro g
          rw [removeCrlf_fold hd, joinWords_wsp hd]
        rw [hfold, hfold, if_neg (by decide), if_neg (by decide)]
        refine ⟨fun u => ?_, fun u w hw => ?_⟩
        · have hedit := hgap u [13, 10, d] (.fold hd)
          rwa [List.append_assoc] at hedit
        · have hedit := hgap u (w ++ [13, 10, d]) (.append hw (.fold hd))
          rwa [List.append_assoc, List.append_assoc, ← List.append_assoc u] at hedit
      · obtain ⟨hword, -⟩ := valueEdits_words s h.tail
        rw [removeCrlf_cons hcr, joinWords_word hc, joinWords_word hc, if_neg (by decide), if_pos rfl]
        have hedit : ∀ u, ValueEdits (u ++ c :: s) (u ++ c :: joinWords .word (removeCrlf s)) := by
          intro u
          have hnext := hword (u ++ [c])
          rwa [List.append_assoc, List.append_assoc, List.singleton_append,
            List.singleton_append] at hnext
        have hspace : Spacing [32] := .blank rfl
        refine ⟨hedit, fun u w hw => .trans _ _ _ (.rel _ _ (.refold u (c :: s) hw hspace)) ?_⟩
        have hnext := hedit (u ++ [32])
        rwa [List.append_assoc u [32] (c :: joinWords .word (removeCrlf s)),
          List.singleton_append] at hnext
termination_by s.length

/-- **A value and its relaxed form.** -/
theorem valueEdits_relaxed {s : Bytes} (h : FoldsOnly s) :
    ValueEdits s (joinWords .start (removeCrlf s)) := by
  match s with
  | [] =>
    rw [removeCrlf, joinWords]
    exact .refl _
  | c :: s =>
    by_cases hc : isWsp c = true
    · rw [removeCrlf_cons (isWsp_ne hc).2.2, joinWords_wsp hc, if_pos rfl]
      have hlead : ValueEdit s ([c] ++ s) := .lead s (.blank hc)
      exact .trans _ _ _ (.symm _ _ (.rel _ _ hlead)) (valueEdits_relaxed h.tail)
    · by_cases hcr : c = 13
      · subst hcr
        obtain ⟨d, t, hd, rfl⟩ := h.fold
        rw [removeCrlf_fold hd, joinWords_wsp hd, if_pos rfl]
        have hlead : ValueEdit t ([13, 10, d] ++ t) := .lead t (.fold hd)
        exact .trans _ _ _ (.symm _ _ (.rel _ _ hlead)) (valueEdits_relaxed h.tail.tail.tail)
      · rw [removeCrlf_cons hcr, joinWords_word hc, if_neg (by decide)]
        exact (valueEdits_words s h.tail).1 [c]
termination_by s.length

/-- The line up to its CRLF, behind a word and behind blanks. -/
theorem bodyEdits_words (s v : Bytes) :
    (∀ u, BodyEdits (u ++ s ++ crlf ++ v) (u ++ joinWords .word s ++ crlf ++ v)) ∧
      ∀ u w, Blanks w → BodyEdits (u ++ w ++ s ++ crlf ++ v) (u ++ joinWords .gap s ++ crlf ++ v) := by
  induction s with
  | nil =>
    rw [joinWords, joinWords]
    refine ⟨fun u => .refl _, fun u w hw => ?_⟩
    rw [List.append_nil, List.append_nil]
    exact .symm _ _ (.rel _ _ (.lineEnd u v hw))
  | cons c s ih =>
    obtain ⟨hword, hgap⟩ := ih
    by_cases hc : isWsp c = true
    · have hone : Blanks [c] := ⟨by simp, by simpa using hc⟩
      rw [joinWords_wsp hc, joinWords_wsp hc, if_neg (by decide), if_neg (by decide)]
      refine ⟨fun u => ?_, fun u w hw => ?_⟩
      · have hedit := hgap u [c] hone
        rwa [List.append_assoc u, List.singleton_append] at hedit
      · have hrun : Blanks (w ++ [c]) :=
          ⟨by simp, fun d hd => (List.mem_append.mp hd).elim (hw.blank d) (hone.blank d)⟩
        have hedit := hgap u (w ++ [c]) hrun
        rwa [List.append_assoc u, List.append_assoc w, List.singleton_append, ← List.append_assoc u]
          at hedit
    · rw [joinWords_word hc, joinWords_word hc, if_neg (by decide), if_pos rfl]
      have hedit : ∀ u, BodyEdits (u ++ c :: s ++ crlf ++ v)
          (u ++ c :: joinWords .word s ++ crlf ++ v) := by
        intro u
        have hnext := hword (u ++ [c])
        rwa [List.append_assoc u [c] s, List.append_assoc u [c], List.singleton_append,
          List.singleton_append] at hnext
      have hspace : Blanks [32] := ⟨by simp, by simp [isWsp]⟩
      refine ⟨hedit, fun u w hw => .trans _ (u ++ [32] ++ c :: s ++ crlf ++ v) _ ?_ ?_⟩
      · have hblanks : BodyEdit (u ++ w ++ (c :: s ++ crlf ++ v)) (u ++ [32] ++ (c :: s ++ crlf ++ v)) :=
          .blanks u (c :: s ++ crlf ++ v) hw hspace
        simp only [← List.append_assoc] at hblanks
        exact .rel _ _ hblanks
      · have hnext := hedit (u ++ [32])
        rwa [List.append_assoc u [32] (c :: joinWords .word s), List.singleton_append] at hnext

/-- **The lines one by one**: `u` is done with and `line` is open. -/
theorem bodyEdits_lines {u line body : Bytes} (hu : u.getLast? ≠ some 13)
    (hnul : (0 : UInt8) ∉ line ++ body) (hlf : (10 : UInt8) ∉ line)
    (hcr : CrOnlyInCrlf (line ++ body)) :
    BodyEdits (u ++ line ++ body) (u ++ bodyLines line body) := by
  induction body generalizing u line with
  | nil =>
    rw [List.append_nil] at hnul ⊢
    rw [bodyLines]
    by_cases hline : line = []
    · rw [if_pos hline, hline]
      exact .refl _
    · rw [if_neg hline, relaxedBodyCanonLine_words hnul]
      have hwords := (bodyEdits_words line []).1 u
      rw [List.append_nil, List.append_nil, List.append_assoc u (joinWords .word line)] at hwords
      exact .trans _ _ _ (.rel _ _ (.emptyLine _)) hwords
  | cons c body ih =>
    have hparts := hnul
    simp only [List.mem_append, List.mem_cons, not_or] at hparts
    by_cases hc : c = 10
    · subst hc
      have hrest : CrOnlyInCrlf ([] ++ body) := by
        have hsplit : line ++ 10 :: body = (line ++ [10]) ++ body := by simp
        exact (hsplit ▸ hcr).suffix
      have hdropped : (0 : UInt8) ∉ dropCr line := dropCr_nul hparts.1
      have hwords := (bodyEdits_words (dropCr line) body).1 u
      have hnext := @ih (u ++ joinWords .word (dropCr line) ++ crlf) [] (by simp [crlf])
        (by simpa using hparts.2.2) (by simp) hrest
      rw [List.append_nil] at hnext
      have hbreak : BodyEdits (u ++ line ++ 10 :: body) (u ++ dropCr line ++ crlf ++ body) := by
        rcases List.eq_nil_or_concat' line with rfl | ⟨l, d, rfl⟩
        · rw [List.append_nil]
          have hedit : BodyEdits (u ++ 10 :: body) (u ++ crlf ++ body) :=
            .rel _ _ (.lineBreak u body hu)
          simpa [dropCr] using hedit
        · by_cases hd : d = 13
          · rw [hd, dropCr, List.getLast?_concat, if_pos rfl, List.dropLast_concat, crlf]
            have hsame : u ++ (l ++ [13]) ++ 10 :: body = u ++ l ++ [13, 10] ++ body := by simp
            rw [hsame]
            exact .refl _
          · have hlast : (l ++ [d]).getLast? ≠ some 13 := by
              rw [List.getLast?_concat]
              simpa using hd
            rw [dropCr, if_neg hlast]
            refine .rel _ _ (.lineBreak _ body ?_)
            rw [← List.append_assoc, List.getLast?_concat]
            simpa using hd
      rw [bodyLines_lf, relaxedBodyCanonLine_words hdropped]
      have hchain : BodyEdits (u ++ line ++ 10 :: body)
          (u ++ joinWords .word (dropCr line) ++ crlf ++ bodyLines [] body) :=
        .trans _ _ _ hbreak (.trans _ _ _ hwords hnext)
      rw [← List.append_assoc u, ← List.append_assoc u]
      exact hchain
    · rw [bodyLines_cons hc]
      have hnext := @ih u (line ++ [c]) hu (by simpa using hnul)
        (by simpa using ⟨hlf, Ne.symm hc⟩) (by simpa using hcr)
      simpa using hnext

/-- The empty lines at the end. -/
theorem bodyEdits_end (lines : List Bytes) :
    BodyEdits (withCrlf lines)
      (if lines.rdropWhile List.isEmpty = [] then crlf
        else withCrlf (lines.rdropWhile List.isEmpty)) := by
  induction lines using List.reverseRecOn with
  | nil =>
    rw [List.rdropWhile_nil, if_pos rfl]
    exact .rel _ _ (.emptyLine [])
  | append_singleton lines l ih =>
    by_cases hl : l = []
    · rw [withCrlf_concat, hl, List.nil_append, List.rdropWhile_concat_pos _ _ _ (by rfl)]
      exact .trans _ _ _ (.symm _ _ (.rel _ _ (.emptyLine _))) ih
    · rw [List.rdropWhile_concat_neg _ _ _ (by simpa using hl), if_neg (by simp)]
      exact .refl _

/-- **A body and its relaxed form.** -/
theorem bodyEdits_relaxed {body : Bytes} (hnul : (0 : UInt8) ∉ body) (hcr : CrOnlyInCrlf body) :
    BodyEdits body (relaxedBodyCanon body) := by
  obtain ⟨tail, htail, heq⟩ := @withCrlf_pieces [] body (by simp) hnul (by simpa using hcr)
  have hlines := @bodyEdits_lines [] [] body (by simp) (by simpa using hnul) (by simp)
    (by simpa using hcr)
  rw [List.nil_append, List.nil_append, List.nil_append] at hlines
  have hpieces : BodyEdits (bodyLines [] body) (withCrlf ((pieces 10 [] body).map relaxedLine)) := by
    rw [heq]
    rcases htail with rfl | rfl
    · rw [List.append_nil]
      exact .refl _
    · exact .rel _ _ (.emptyLine _)
  have hend := bodyEdits_end ((pieces 10 [] body).map relaxedLine)
  rw [pieces_eq_splitOn] at hpieces hend
  rw [relaxedBodyCanon_eq hnul hcr]
  exact .trans _ _ _ hlines (.trans _ _ _ hpieces hend)

/-- **The canonicalisers forget white space, and nothing else**: two values, and
two bodies, have the same relaxed form exactly when changes of white space make
one of the other. -/
theorem relaxed_eq_iff_edits :
    (∀ v v', (0 : UInt8) ∉ v → (0 : UInt8) ∉ v' → FoldsOnly v → FoldsOnly v' →
      (relaxedValue v = relaxedValue v' ↔ ValueEdits v v')) ∧
    ∀ b b', (0 : UInt8) ∉ b → (0 : UInt8) ∉ b' → CrOnlyInCrlf b → CrOnlyInCrlf b' →
      (relaxedBodyCanon b = relaxedBodyCanon b' ↔ BodyEdits b b') := by
  constructor
  · intro v v' hv hv' hfolds hfolds'
    refine ⟨fun h => ?_, fun h => h.keeps.2 hv⟩
    rw [relaxedValue_eq_joinWords hv, relaxedValue_eq_joinWords hv'] at h
    have hleft := valueEdits_relaxed hfolds
    rw [h] at hleft
    exact .trans _ _ _ hleft (.symm _ _ (valueEdits_relaxed hfolds'))
  · intro b b' hb hb' hcr hcr'
    refine ⟨fun h => ?_, fun h => h.keeps.2 hb⟩
    have hleft := bodyEdits_relaxed hb hcr
    rw [h] at hleft
    exact .trans _ _ _ hleft (.symm _ _ (bodyEdits_relaxed hb' hcr'))

/-- Blanks in a value, and behind a line. -/
theorem relaxed_eq_iff_edits_blanks :
    (relaxedValue (bytes "a b") = relaxedValue (bytes " a \tb") ↔
      ValueEdits (bytes "a b") (bytes " a \tb")) ∧
    (relaxedBodyCanon (bytes "a  b") = relaxedBodyCanon (bytes "a b ") ↔
      BodyEdits (bytes "a  b") (bytes "a b ")) := by
  have hfolds : ∀ {v : Bytes}, (13 : UInt8) ∉ v → FoldsOnly v :=
    fun hv front s hs => absurd (hs ▸ by simp) hv
  have hlines : ∀ {b : Bytes}, (13 : UInt8) ∉ b → CrOnlyInCrlf b :=
    fun hb i hi => absurd (List.mem_of_getElem? hi) hb
  exact ⟨relaxed_eq_iff_edits.1 _ _ (by decide) (by decide) (hfolds (by decide)) (hfolds (by decide)),
    relaxed_eq_iff_edits.2 _ _ (by decide) (by decide) (hlines (by decide)) (hlines (by decide))⟩

end ComfirmDmarc.Dkim
