import ComfirmDmarc.Dkim.Validate

/-!
# Dkim -- `relaxed_body_canon`

The body canonicaliser of `firm-dkim.c` with the block it writes to. It cuts
the body at every LF, puts each line behind the ones before it, and trims the
line breaks at the end of the whole. This is compared with a reference that
works on a list of lines.
-/

namespace ComfirmDmarc.Dkim

open CMemory

/-! ## The code -/

/-- `new_body`: its block, and `new_body_len`. -/
structure NewBody where
  block : Bytes
  len : Nat

/-- The copy of a line, from `offset` up to `stop`, and of its CRLF. -/
def appendLine (body : Bytes) (offset stop : Nat) (nb : NewBody) : Option NewBody := do
  let line := relaxedBodyCanonLine ((body.drop offset).take (stop - offset))
  let block ← writeAt nb.block nb.len line
  let block ← writeAt block (nb.len + line.length) crlf
  return ⟨block, nb.len + line.length + 2⟩

/-- The loop over the body; it ends with the line that is still open at
`offset`. -/
def bodyLoop (body : Bytes) (i offset : Nat) (nb : NewBody) : Option NewBody :=
  if i < body.length then
    if body.getD i 0 = 10 then
      let isR := 0 < i ∧ body.getD (i - 1) 0 = 13
      -- `i--` in front of the copy and `i++` behind it
      (appendLine body offset (if isR then i - 1 else i) nb).bind fun nb =>
        bodyLoop body (i + 1) (i + 1) nb
    else bodyLoop body (i + 1) offset nb
  else if offset < body.length then appendLine body offset i nb
  else some nb
termination_by body.length - i

theorem str_length_set_lt {block : Bytes} {i : Nat} (h : i < (str block).length) :
    (str (block.set i 0)).length ≤ i := by
  have hlt : i < block.length :=
    Nat.lt_of_lt_of_le h (List.takeWhile_prefix _).length_le
  have hsplit : block.set i 0 = block.take i ++ 0 :: block.drop (i + 1) :=
    List.set_eq_take_append_cons_drop.trans (if_pos hlt)
  rw [hsplit, str_append_zero, str]
  refine le_trans (List.takeWhile_prefix _).length_le ?_
  rw [List.length_take]
  exact Nat.min_le_left _ _

/-- `rtrim_lines` in its block. -/
def rtrimLinesIn (block : Bytes) : Bytes :=
  let len := (str block).length
  if h : 0 < len ∧ (block.getD (len - 1) 0 = 13 ∨ block.getD (len - 1) 0 = 10) then
    rtrimLinesIn (block.set (len - 1) 0)
  else block
termination_by (str block).length
decreasing_by
  have := @str_length_set_lt block ((str block).length - 1) (by omega)
  omega

/-- `relaxed_body_canon` with its block; `none` when it writes outside. -/
def relaxedBodyCanonIn (mem body : Bytes) : Option Bytes := do
  let nb ← bodyLoop body 0 0 ⟨mem, 0⟩
  let block ← writeAt nb.block nb.len [0]
  let block := rtrimLinesIn block
  let newBodyLen := (str block).length
  let block ← writeAt block newBodyLen [13]
  let block ← writeAt block (newBodyLen + 1) [10]
  writeAt block (newBodyLen + 2) [0]

/-! ## The reference -/

/-- The line without the CR in front of its LF. -/
def dropCr (line : Bytes) : Bytes := if line.getLast? = some 13 then line.dropLast else line

/-- A line of the relaxed form. -/
def relaxedLine (line : Bytes) : Bytes := oneBlank (rtrim (dropCr line))

/-- The lines of the relaxed form. -/
def relaxedLines (body : Bytes) : List Bytes :=
  ((body.splitOn 10).map relaxedLine).rdropWhile List.isEmpty

/-- Lines, each with its CRLF. -/
def withCrlf (lines : List Bytes) : Bytes := (lines.map (· ++ crlf)).flatten

/-- **The relaxed form of a body.** -/
def relaxedBody (body : Bytes) : Bytes :=
  if relaxedLines body = [] then crlf else withCrlf (relaxedLines body)

/-- Every CR is followed by an LF. -/
def CrOnlyInCrlf (body : Bytes) : Prop :=
  ∀ i, body[i]? = some (13 : UInt8) → body[i + 1]? = some (10 : UInt8)

/-! ## The lines are written one behind the other -/

theorem relaxedBodyCanonLine_eq {line : Bytes} (h : (0 : UInt8) ∉ line) :
    relaxedBodyCanonLine line = oneBlank (rtrim line) := by
  have hnul : (0 : UInt8) ∉ rtrim line := fun h0 =>
    h ((List.rdropWhile_prefix _ _).subset h0)
  rw [relaxedBodyCanonLine, pass_squeezeLoop hnul, (squeeze_eq_oneBlank _).1]

theorem oneBlank_length_le (s : Bytes) : (oneBlank s).length ≤ s.length := by
  fun_induction oneBlank s with
  | case1 => simp
  | case2 c s h ih =>
    have := (List.dropWhile_suffix (l := s) isWsp).length_le
    simp only [List.length_cons]
    omega
  | case3 c s h ih => simpa using ih

theorem relaxedBodyCanonLine_length_le {line : Bytes} (h : (0 : UInt8) ∉ line) :
    (relaxedBodyCanonLine line).length ≤ line.length := by
  rw [relaxedBodyCanonLine_eq h]
  exact le_trans (oneBlank_length_le _) (List.rdropWhile_prefix _ _).length_le

/-- A line grows by one byte at most, and the last one by two. -/
theorem bodyLines_length_le {line body : Bytes} (hline : (0 : UInt8) ∉ line)
    (hbody : (0 : UInt8) ∉ body) :
    (bodyLines line body).length ≤ 2 * (line.length + body.length) + 1 := by
  induction body generalizing line with
  | nil =>
    rw [bodyLines]
    split
    · simp
    · rename_i hne
      have hpos := List.length_pos_iff.mpr hne
      have hle := relaxedBodyCanonLine_length_le hline
      simp only [List.length_append, crlf, List.length_cons, List.length_nil]
      omega
  | cons c body ih =>
    simp only [List.mem_cons, not_or] at hbody
    rw [bodyLines]
    split
    · have hnext := @ih [] (by simp) hbody.2
      have hle : (relaxedBodyCanonLine (if line.getLast? = some 13 then line.dropLast
          else line)).length ≤ line.length := by
        split
        · refine le_trans (relaxedBodyCanonLine_length_le fun h0 => ?_) (List.dropLast_sublist _).length_le
          exact hline (List.dropLast_subset _ h0)
        · exact relaxedBodyCanonLine_length_le hline
      simp only [List.length_append, crlf, List.length_cons, List.length_nil] at hnext ⊢
      omega
    · have hnext := @ih (line ++ [c]) (by simpa using ⟨hline, hbody.1⟩) hbody.2
      simp only [List.length_append, List.length_cons, List.length_nil] at hnext ⊢
      omega

/-- A line goes behind what is written already. -/
theorem appendLine_eq {body line done free : Bytes} {offset stop : Nat}
    (hline : (body.drop offset).take (stop - offset) = line)
    (hroom : (relaxedBodyCanonLine line ++ crlf).length ≤ free.length) :
    appendLine body offset stop ⟨done ++ free, done.length⟩ =
      some ⟨done ++ (relaxedBodyCanonLine line ++ crlf) ++
          free.drop (relaxedBodyCanonLine line ++ crlf).length,
        (done ++ (relaxedBodyCanonLine line ++ crlf)).length⟩ := by
  have hlen : crlf.length = 2 := rfl
  rw [List.length_append, hlen] at hroom
  have hfirst : writeAt (done ++ free) done.length (relaxedBodyCanonLine line) =
      some (done ++ relaxedBodyCanonLine line ++ free.drop (relaxedBodyCanonLine line).length) :=
    writeAt_append (by omega)
  have hsecond := @writeAt_append (done ++ relaxedBodyCanonLine line) crlf
    (free.drop (relaxedBodyCanonLine line).length) (by simp [hlen]; omega)
  rw [List.length_append] at hsecond
  rw [appendLine, hline]
  simp only [hfirst, hsecond, Option.bind_eq_bind, Option.bind_some, Option.pure_def]
  simp only [List.length_append, hlen, List.drop_drop, List.append_assoc, Nat.add_assoc]

/-- The byte in front of the read position is a CR exactly when the open line
ends in one: in front of that line there is an LF, or nothing. -/
theorem isR_iff {front line rest : Bytes} (hfront : front = [] ∨ front.getLast? = some 10) :
    (0 < (front ++ line).length ∧
        (front ++ line ++ rest).getD ((front ++ line).length - 1) 0 = 13) ↔
      line.getLast? = some 13 := by
  have hlast : ∀ pre : Bytes, ∀ p : UInt8, (pre ++ [p] ++ rest).getD ((pre ++ [p]).length - 1) 0 = p := by
    intro pre p
    rw [List.append_assoc, List.singleton_append]
    exact getD_append_cons pre p rest (by simp)
  rcases List.eq_nil_or_concat' line with rfl | ⟨pre, p, rfl⟩
  · rcases hfront with rfl | hlf
    · simp
    · obtain ⟨pre, rfl⟩ := List.getLast?_eq_some_iff.mp hlf
      rw [List.append_nil, hlast]
      simp
  · rw [← List.append_assoc, hlast]
    simp only [List.getLast?_concat, Option.some.injEq, and_iff_right_iff_imp]
    intro _
    rw [List.length_append, List.length_singleton]
    omega

/-- **The loop writes the lines**, as far as there is room for them: `front` is
done with, `line` is open and `rest` is still to be read. -/
theorem bodyLoop_eq {front line rest done free : Bytes}
    (hfront : front = [] ∨ front.getLast? = some 10)
    (hroom : (bodyLines line rest).length ≤ free.length) :
    bodyLoop (front ++ line ++ rest) (front ++ line).length front.length
        ⟨done ++ free, done.length⟩ =
      some ⟨done ++ bodyLines line rest ++ free.drop (bodyLines line rest).length,
        (done ++ bodyLines line rest).length⟩ := by
  induction rest generalizing front line done free with
  | nil =>
    rw [bodyLines] at hroom
    rw [bodyLoop, if_neg (by simp), bodyLines]
    by_cases hline : line = []
    · simp [hline]
    · have hpos := List.length_pos_iff.mpr hline
      rw [if_neg hline] at hroom
      rw [if_pos (by simp; omega), if_neg hline]
      exact appendLine_eq (by simp) hroom
  | cons c rest ih =>
    have hcur : (front ++ line ++ c :: rest).getD (front ++ line).length 0 = c :=
      getD_append_cons _ _ _ rfl
    rw [bodyLoop, if_pos (by simp), hcur, bodyLines]
    rw [bodyLines] at hroom
    by_cases hc : c = 10
    · subst hc
      rw [if_pos rfl] at hroom
      rw [if_pos rfl, if_pos rfl]
      simp only [isR_iff hfront]
      have hstop : ((front ++ line ++ 10 :: rest).drop front.length).take
          ((if line.getLast? = some 13 then (front ++ line).length - 1
            else (front ++ line).length) - front.length) =
          if line.getLast? = some 13 then line.dropLast else line := by
        rw [List.append_assoc, List.drop_left]
        split
        · rw [List.length_append, show front.length + line.length - 1 - front.length =
            line.length - 1 by omega, List.take_append_of_le_length (by omega),
            List.dropLast_eq_take]
        · simp
      generalize (if line.getLast? = some 13 then line.dropLast else line) = out at *
      have hfirst : (relaxedBodyCanonLine out ++ crlf).length ≤ free.length := by
        rw [List.length_append] at hroom
        omega
      rw [appendLine_eq hstop hfirst, Option.bind_some]
      have hnext := @ih (front ++ line ++ [10]) [] (done ++ (relaxedBodyCanonLine out ++ crlf))
        (free.drop (relaxedBodyCanonLine out ++ crlf).length)
        (.inr (by simp)) (by
          rw [List.length_append] at hroom
          rw [List.length_drop]
          omega)
      rw [List.append_nil] at hnext
      simpa [List.append_assoc, Nat.add_assoc] using hnext
    · rw [if_neg hc] at hroom
      rw [if_neg hc, if_neg hc]
      have hnext := @ih front (line ++ [c]) done free hfront hroom
      simpa [List.append_assoc, Nat.add_assoc] using hnext

/-! ## The text of the lines -/

theorem CrOnlyInCrlf.suffix {front body : Bytes} (h : CrOnlyInCrlf (front ++ body)) :
    CrOnlyInCrlf body := by
  intro i hi
  have hnext := h (front.length + i) (by rw [List.getElem?_append_right (by omega)]; simpa using hi)
  rw [List.getElem?_append_right (by omega)] at hnext
  simpa [Nat.add_sub_cancel_left, Nat.add_assoc] using hnext

/-- In front of the first LF, a CR is the last byte. -/
theorem CrOnlyInCrlf.not_mem_dropLast {line body : Bytes} (h : CrOnlyInCrlf (line ++ body))
    (hlf : (10 : UInt8) ∉ line) : (13 : UInt8) ∉ line.dropLast := by
  intro hmem
  obtain ⟨i, hi, hget⟩ := List.getElem_of_mem hmem
  rw [List.length_dropLast] at hi
  rw [List.getElem_dropLast] at hget
  have hlt : i < line.length := by omega
  have hnext := h i (by rw [List.getElem?_append_left hlt, List.getElem?_eq_getElem hlt, hget])
  rw [List.getElem?_append_left (by omega)] at hnext
  exact hlf (List.mem_of_getElem? hnext)

theorem CrOnlyInCrlf.not_mem_dropCr {line body : Bytes} (h : CrOnlyInCrlf (line ++ body))
    (hlf : (10 : UInt8) ∉ line) : (13 : UInt8) ∉ dropCr line := by
  have hfront := h.not_mem_dropLast hlf
  rw [dropCr]
  split
  · exact hfront
  · rename_i hlast
    intro hmem
    rcases List.eq_nil_or_concat' line with rfl | ⟨pre, p, rfl⟩
    · simp at hmem
    · rw [List.dropLast_concat] at hfront
      rw [List.getLast?_concat, Option.some.injEq] at hlast
      rcases List.mem_append.mp hmem with hpre | hp
      · exact hfront hpre
      · exact hlast (List.mem_singleton.mp hp).symm

/-- A text that ends without an LF does not end in a CR. -/
theorem CrOnlyInCrlf.dropCr_eq {line : Bytes} (h : CrOnlyInCrlf line) : dropCr line = line := by
  rw [dropCr, if_neg]
  intro hlast
  rw [List.getLast?_eq_getElem?] at hlast
  have hpos : 0 < line.length := by
    by_contra h0
    simp [show line = [] by simpa using h0] at hlast
  have hnext := h _ hlast
  rw [show line.length - 1 + 1 = line.length by omega] at hnext
  simp at hnext

theorem mem_oneBlank {c : UInt8} {s : Bytes} (h : c ∈ oneBlank s) : c = 32 ∨ c ∈ s := by
  fun_induction oneBlank s with
  | case1 => simp at h
  | case2 d s hd ih =>
    rcases List.mem_cons.mp h with h32 | hs
    · exact .inl h32
    · exact (ih hs).imp_right fun hm =>
        List.mem_cons_of_mem _ ((List.dropWhile_suffix _).subset hm)
  | case3 d s hd ih =>
    rcases List.mem_cons.mp h with rfl | hs
    · exact .inr List.mem_cons_self
    · exact (ih hs).imp_right (List.mem_cons_of_mem _)

theorem mem_relaxedLine {c : UInt8} {line : Bytes} (h : c ∈ relaxedLine line) :
    c = 32 ∨ c ∈ dropCr line :=
  (mem_oneBlank h).imp_right fun hm => (List.rdropWhile_prefix _ _).subset hm

theorem dropCr_subset (line : Bytes) : ∀ c ∈ dropCr line, c ∈ line := by
  intro c hc
  rw [dropCr] at hc
  split at hc
  · exact List.dropLast_subset _ hc
  · exact hc

/-- No line break is left in a line. -/
theorem pieces_no_break {line body : Bytes} (hlf : (10 : UInt8) ∉ line)
    (hcr : CrOnlyInCrlf (line ++ body)) :
    ∀ l ∈ (pieces 10 line body).map relaxedLine, (13 : UInt8) ∉ l ∧ (10 : UInt8) ∉ l := by
  have hone : ∀ line body : Bytes, (10 : UInt8) ∉ line → CrOnlyInCrlf (line ++ body) →
      (13 : UInt8) ∉ relaxedLine line ∧ (10 : UInt8) ∉ relaxedLine line := by
    intro line body hlf hcr
    constructor
    · intro h13
      exact (mem_relaxedLine h13).elim (by decide) (hcr.not_mem_dropCr hlf)
    · intro h10
      exact (mem_relaxedLine h10).elim (by decide) fun hm => hlf (dropCr_subset _ _ hm)
  induction body generalizing line with
  | nil =>
    intro l hl
    rw [pieces_nil, List.map_singleton, List.mem_singleton] at hl
    rw [hl]
    exact hone line [] hlf hcr
  | cons c body ih =>
    by_cases hc : c = 10
    · subst hc
      rw [pieces_sep, List.map_cons, List.forall_mem_cons]
      refine ⟨hone line _ hlf hcr, ih (by simp) ?_⟩
      rw [show line ++ 10 :: body = (line ++ [10]) ++ body by simp] at hcr
      exact hcr.suffix
    · rw [pieces_cons hc]
      refine ih ?_ (by simpa using hcr)
      simp only [List.mem_append, List.mem_singleton, not_or]
      exact ⟨hlf, fun h => hc h.symm⟩

/-- The loop writes the relaxed lines, but for an empty piece at the end. -/
theorem withCrlf_pieces {line body : Bytes} (hline : (0 : UInt8) ∉ line) (hbody : (0 : UInt8) ∉ body)
    (hcr : CrOnlyInCrlf (line ++ body)) :
    ∃ tail, (tail = [] ∨ tail = crlf) ∧
      withCrlf ((pieces 10 line body).map relaxedLine) = bodyLines line body ++ tail := by
  induction body generalizing line with
  | nil =>
    rw [List.append_nil] at hcr
    rw [pieces_nil, bodyLines]
    by_cases hnil : line = []
    · refine ⟨crlf, .inr rfl, ?_⟩
      rw [hnil, if_pos rfl]
      simp [withCrlf, relaxedLine, dropCr, rtrim, oneBlank]
    · refine ⟨[], .inl rfl, ?_⟩
      rw [if_neg hnil, relaxedBodyCanonLine_eq hline]
      simp [withCrlf, relaxedLine, hcr.dropCr_eq]
  | cons c body ih =>
    simp only [List.mem_cons, not_or] at hbody
    rw [bodyLines]
    by_cases hc : c = 10
    · subst hc
      have hsplit : line ++ 10 :: body = (line ++ [10]) ++ body := by simp
      obtain ⟨tail, htail, heq⟩ := @ih [] (by simp) hbody.2 (hsplit ▸ hcr).suffix
      refine ⟨tail, htail, ?_⟩
      have hnul : (0 : UInt8) ∉ dropCr line := fun h0 => hline (dropCr_subset _ _ h0)
      have hfirst : relaxedBodyCanonLine (if line.getLast? = some 13 then line.dropLast else line) =
          relaxedLine line := relaxedBodyCanonLine_eq hnul
      have hcons : ∀ l ls, withCrlf (l :: ls) = l ++ crlf ++ withCrlf ls := fun _ _ => rfl
      rw [pieces_sep, List.map_cons, hcons, if_pos rfl, hfirst, heq]
      simp only [List.append_assoc]
    · rw [pieces_cons hc, if_neg hc]
      exact ih (by simpa using ⟨hline, hbody.1⟩) hbody.2 (by simpa using hcr)

/-! ## The line breaks at the end -/

theorem withCrlf_concat (lines : List Bytes) (l : Bytes) :
    withCrlf (lines ++ [l]) = withCrlf lines ++ (l ++ crlf) := by
  simp [withCrlf]

theorem rtrimLines_append_crlf (s : Bytes) : rtrimLines (s ++ crlf) = rtrimLines s := by
  rw [rtrimLines, crlf, show s ++ [13, 10] = s ++ [13] ++ [10] by simp,
    List.rdropWhile_concat_pos _ _ _ (by decide), List.rdropWhile_concat_pos _ _ _ (by decide)]
  rfl

/-- **Trimming the line breaks drops the empty lines at the end**, and the
CRLF of the line before them. -/
theorem rtrimLines_withCrlf {lines : List Bytes}
    (h : ∀ l ∈ lines, (13 : UInt8) ∉ l ∧ (10 : UInt8) ∉ l) :
    rtrimLines (withCrlf lines) ++ crlf =
      if lines.rdropWhile List.isEmpty = [] then crlf
      else withCrlf (lines.rdropWhile List.isEmpty) := by
  induction lines using List.reverseRecOn with
  | nil => rfl
  | append_singleton lines l ih =>
    have hlines := ih fun l' hl' => h l' (List.mem_append_left _ hl')
    rw [withCrlf_concat]
    by_cases hl : l = []
    · rw [hl, List.nil_append, rtrimLines_append_crlf, hlines,
        List.rdropWhile_concat_pos _ _ _ (by rfl)]
    · rw [List.rdropWhile_concat_neg _ _ _ (by simpa using hl), if_neg (by simp)]
      obtain ⟨pre, p, rfl⟩ := (List.eq_nil_or_concat' l).resolve_left hl
      have hp := h (pre ++ [p]) (by simp)
      simp only [List.mem_append, List.mem_singleton, not_or] at hp
      have hkeep : rtrimLines (withCrlf lines ++ (pre ++ [p])) =
          withCrlf lines ++ (pre ++ [p]) := by
        rw [← List.append_assoc, rtrimLines, List.rdropWhile_concat_neg]
        simpa using ⟨Ne.symm hp.1.2, Ne.symm hp.2.2⟩
      rw [← List.append_assoc, rtrimLines_append_crlf, hkeep, withCrlf_concat, List.append_assoc]

/-- **The text that the code computes is the relaxed form.** -/
theorem relaxedBodyCanon_eq {body : Bytes} (hbody : (0 : UInt8) ∉ body) (hcr : CrOnlyInCrlf body) :
    relaxedBodyCanon body = relaxedBody body := by
  obtain ⟨tail, htail, heq⟩ := @withCrlf_pieces [] body (by simp) hbody (by simpa using hcr)
  have htrim : rtrimLines (bodyLines [] body) = rtrimLines (bodyLines [] body ++ tail) := by
    rcases htail with rfl | rfl
    · rw [List.append_nil]
    · rw [rtrimLines_append_crlf]
  rw [relaxedBodyCanon, htrim, ← heq,
    rtrimLines_withCrlf (pieces_no_break (by simp) (by simpa using hcr)), pieces_eq_splitOn]
  rfl

/-! ## The block -/

theorem relaxedBodyCanonLine_nul {line : Bytes} (h : (0 : UInt8) ∉ line) :
    (0 : UInt8) ∉ relaxedBodyCanonLine line := by
  intro h0
  rw [relaxedBodyCanonLine_eq h] at h0
  rcases mem_oneBlank h0 with h32 | hm
  · exact absurd h32 (by decide)
  · exact h ((List.rdropWhile_prefix _ _).subset hm)

theorem bodyLines_nul {line body : Bytes} (hline : (0 : UInt8) ∉ line) (hbody : (0 : UInt8) ∉ body) :
    (0 : UInt8) ∉ bodyLines line body := by
  have hcrlf : (0 : UInt8) ∉ crlf := by decide
  induction body generalizing line with
  | nil =>
    rw [bodyLines]
    split
    · simp
    · simpa using ⟨relaxedBodyCanonLine_nul hline, hcrlf⟩
  | cons c body ih =>
    simp only [List.mem_cons, not_or] at hbody
    rw [bodyLines]
    split
    · have hopen : (0 : UInt8) ∉ if line.getLast? = some 13 then line.dropLast else line :=
        fun h0 => hline (dropCr_subset line 0 h0)
      simp only [List.mem_append, not_or]
      exact ⟨⟨relaxedBodyCanonLine_nul hopen, hcrlf⟩, ih (by simp) hbody.2⟩
    · exact ih (by simpa using ⟨hline, hbody.1⟩) hbody.2

/-- What the loop writes ends in a CRLF. -/
theorem bodyLines_end (line body : Bytes) :
    bodyLines line body = [] ∨ ∃ text, bodyLines line body = text ++ crlf := by
  induction body generalizing line with
  | nil =>
    rw [bodyLines]
    split
    · exact .inl rfl
    · exact .inr ⟨_, rfl⟩
  | cons c body ih =>
    rw [bodyLines]
    split
    · right
      rcases ih [] with hnil | ⟨text, htext⟩
      · exact ⟨_, by rw [hnil, List.append_nil]⟩
      · exact ⟨_, by rw [htext, ← List.append_assoc]⟩
    · exact ih _

theorem rtrimLines_bodyLines_length_le {body : Bytes} (hbody : (0 : UInt8) ∉ body) :
    (rtrimLines (bodyLines [] body)).length ≤ 2 * body.length := by
  have hle := @bodyLines_length_le [] body (by simp) hbody
  rcases bodyLines_end [] body with hnil | ⟨text, htext⟩
  · rw [hnil]
    simp [rtrimLines]
  · have htrim : (rtrimLines text).length ≤ text.length := (List.rdropWhile_prefix _ _).length_le
    have hlen : crlf.length = 2 := rfl
    rw [htext, rtrimLines_append_crlf]
    rw [htext, List.length_append, hlen, List.length_nil] at hle
    omega

/-- The terminators stored over the line breaks, one after the other from the
end of the text. -/
theorem rtrimLinesIn_eq {text : Bytes} (htext : (0 : UInt8) ∉ text) (rest : Bytes) :
    ∃ rest', rtrimLinesIn (text ++ 0 :: rest) = rtrimLines text ++ 0 :: rest' ∧
      (rtrimLines text).length + rest'.length = text.length + rest.length := by
  induction text using List.reverseRecOn generalizing rest with
  | nil =>
    refine ⟨rest, ?_, rfl⟩
    have hstr : str ([] ++ 0 :: rest) = [] := str_append_nul (by simp) rest
    rw [rtrimLinesIn, hstr, dif_neg (by simp)]
    rfl
  | append_singleton text c ih =>
    have hstr : str (text ++ [c] ++ 0 :: rest) = text ++ [c] := str_append_nul htext rest
    have hlast : (text ++ [c] ++ 0 :: rest).getD ((text ++ [c]).length - 1) 0 = c := by
      rw [List.append_assoc, List.singleton_append]
      exact getD_append_cons text c _ (by simp)
    rw [rtrimLinesIn, hstr, hlast]
    by_cases hc : c = 13 ∨ c = 10
    · have hset : (text ++ [c] ++ 0 :: rest).set ((text ++ [c]).length - 1) 0 =
          text ++ 0 :: 0 :: rest := by
        rw [List.append_assoc, List.singleton_append, show (text ++ [c]).length - 1 = text.length by
          simp, set_length_append]
      have htrim : rtrimLines (text ++ [c]) = rtrimLines text :=
        List.rdropWhile_concat_pos _ _ _ (by simpa using hc)
      obtain ⟨rest', heq, hlen⟩ := ih (fun h0 => htext (List.mem_append_left _ h0)) (0 :: rest)
      refine ⟨rest', ?_, ?_⟩
      · rw [dif_pos ⟨by simp, hc⟩, hset, heq, htrim]
      · rw [htrim, hlen]
        simp only [List.length_cons, List.length_append, List.length_nil]
        omega
    · have htrim : rtrimLines (text ++ [c]) = text ++ [c] :=
        List.rdropWhile_concat_neg _ _ _ (by simpa using hc)
      refine ⟨rest, ?_, by rw [htrim]⟩
      rw [dif_neg fun h => hc h.2, htrim]

/-- The block holds the text of the code: every write lies inside. -/
theorem relaxedBodyCanonIn_eq {mem body : Bytes} (hbody : (0 : UInt8) ∉ body)
    (hmem : mem.length = 2 * body.length + 3) :
    (relaxedBodyCanonIn mem body).map str = some (relaxedBodyCanon body) := by
  have hle := @bodyLines_length_le [] body (by simp) hbody
  rw [List.length_nil] at hle
  have hnul := @bodyLines_nul [] body (by simp) hbody
  have hloop := @bodyLoop_eq [] [] body [] mem (.inl rfl) (by omega)
  simp only [List.nil_append, List.length_nil] at hloop
  have htrimLe := rtrimLines_bodyLines_length_le hbody
  rw [relaxedBodyCanonIn, relaxedBodyCanon]
  generalize bodyLines [] body = text at *
  -- the terminator behind the lines
  obtain ⟨f, free, hfree⟩ : ∃ f free, mem.drop text.length = f :: free :=
    List.exists_cons_of_length_pos (by rw [List.length_drop]; omega)
  have hfreeLen := congrArg List.length hfree
  rw [List.length_drop, List.length_cons] at hfreeLen
  have hterm : writeAt (text ++ f :: free) text.length [0] = some (text ++ 0 :: free) := by
    rw [writeAt_append (by simp)]
    simp
  -- the line breaks at the end of the text
  obtain ⟨rest, hrest, hlen⟩ := rtrimLinesIn_eq hnul free
  have hnul' : (0 : UInt8) ∉ rtrimLines text := fun h0 =>
    hnul ((List.rdropWhile_prefix _ _).subset h0)
  generalize rtrimLines text = kept at *
  obtain ⟨a, b, rest, rfl⟩ : ∃ a b rest', rest = a :: b :: rest' := by
    match rest, hlen with
    | a :: b :: rest', _ => exact ⟨a, b, rest', rfl⟩
    | [_], hlen => exact absurd hlen (by simp; omega)
    | [], hlen => exact absurd hlen (by simp; omega)
  have hcr : writeAt (kept ++ 0 :: a :: b :: rest) kept.length [13] =
      some (kept ++ 13 :: a :: b :: rest) := by
    rw [writeAt_append (by simp)]
    simp
  have hlf : writeAt (kept ++ 13 :: a :: b :: rest) (kept.length + 1) [10] =
      some (kept ++ 13 :: 10 :: b :: rest) := by
    have := @writeAt_append (kept ++ [13]) [10] (a :: b :: rest) (by simp)
    simpa using this
  have hnulAt : writeAt (kept ++ 13 :: 10 :: b :: rest) (kept.length + 2) [0] =
      some (kept ++ 13 :: 10 :: 0 :: rest) := by
    have := @writeAt_append (kept ++ [13, 10]) [0] (b :: rest) (by simp)
    simpa using this
  have hstr : str (kept ++ 13 :: 10 :: 0 :: rest) = kept ++ crlf := by
    have := str_append_nul (s := kept ++ crlf) (by simpa [crlf] using hnul') rest
    simpa [crlf] using this
  rw [hloop]
  simp only [Option.bind_eq_bind, Option.bind_some, hfree, hterm, hrest, str_append_nul hnul', hcr,
    hlf, hnulAt, Option.map_some, hstr]

/-- **`relaxed_body_canon` computes the relaxed form of the body**, whatever
`malloc` left in its block, and writes inside the block only. -/
theorem relaxedBodyCanonIn_relaxedBody {mem body : Bytes} (hbody : (0 : UInt8) ∉ body)
    (hcr : CrOnlyInCrlf body) (hmem : mem.length = 2 * body.length + 3) :
    (relaxedBodyCanonIn mem body).map str = some (relaxedBody body) := by
  rw [relaxedBodyCanonIn_eq hbody hmem, relaxedBodyCanon_eq hbody hcr]

theorem crOnlyInCrlf_line : CrOnlyInCrlf (bytes "a \r\n\r\n") := by
  have hall : ∀ i < 6, (bytes "a \r\n\r\n")[i]? = some (13 : UInt8) →
      (bytes "a \r\n\r\n")[i + 1]? = some (10 : UInt8) := by decide
  intro i hi
  obtain ⟨hlt, -⟩ := List.getElem?_eq_some_iff.mp hi
  exact hall i hlt hi

/-- A line with a blank at its end and an empty line. -/
theorem relaxedBodyCanonIn_line :
    (relaxedBodyCanonIn (List.replicate 15 1) (bytes "a \r\n\r\n")).map str =
      some (relaxedBody (bytes "a \r\n\r\n")) :=
  relaxedBodyCanonIn_relaxedBody (by decide) crOnlyInCrlf_line (by decide)

end ComfirmDmarc.Dkim
