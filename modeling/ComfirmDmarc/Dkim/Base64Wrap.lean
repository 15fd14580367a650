import ComfirmDmarc.Dkim.Validate
import ComfirmDmarc.Lib.LineBreaks

/-!
# Dkim -- `base64_wrap`

What `base64_wrap` makes of any string, and where in its block of `len * 3 + 1`
bytes it does. The loop is the one that breaks lines behind a SP and behind the
76th byte; a byte and its break take three bytes, so the block always does.
-/

namespace ComfirmDmarc.Dkim

open CMemory

/-! ## The code -/

/-- The loop of `base64_wrap` and the terminator behind it, by the indices of
`tmp` that are stored to. -/
def base64WrapWrites (lcount tmpLen : Nat) : Bytes → List Nat
  | [] => [tmpLen]
  | c :: s =>
    if c = 32 ∨ lcount = 75 then
      tmpLen :: (tmpLen + 1) :: (tmpLen + 2) :: base64WrapWrites 0 (tmpLen + 3) s
    else tmpLen :: base64WrapWrites (lcount + 1) (tmpLen + 1) s

/-! ## Its lines -/

/-- The lines of the output. -/
def base64Lines (s : Bytes) : List Bytes := LineBreaks.lines (· == 32) 76 0 s

theorem break_iff (c : UInt8) (lcount : Nat) :
    ((c == 32) = true ∨ lcount + 1 = 76) ↔ (c = 32 ∨ lcount = 75) := by
  rw [beq_iff_eq, Nat.succ_inj]

theorem base64Wrap_eq_breakLines (lcount : Nat) (s : Bytes) :
    base64Wrap lcount s = LineBreaks.breakLines (· == 32) 76 crlf lcount s := by
  induction s generalizing lcount with
  | nil => rfl
  | cons c s ih =>
    rw [base64Wrap, LineBreaks.breakLines, ih 0, ih (lcount + 1)]
    simp only [break_iff]
    rfl

theorem base64WrapWrites_eq_writes (lcount tmpLen : Nat) (s : Bytes) :
    base64WrapWrites lcount tmpLen s =
      LineBreaks.writes (· == 32) 76 crlf.length lcount tmpLen s := by
  induction s generalizing lcount tmpLen with
  | nil => rfl
  | cons c s ih =>
    rw [base64WrapWrites, LineBreaks.writes, ih 0, ih (lcount + 1)]
    simp only [break_iff]
    rfl

/-- Two bytes more for each byte, at most. -/
theorem length_base64Wrap_le (s : Bytes) : (base64Wrap 0 s).length ≤ 3 * s.length := by
  have hlen := LineBreaks.length_breakLines (· == 32) 76 crlf 0 s
  have hle := LineBreaks.length_lines_le (· == 32) 76 0 s
  have hcrlf : crlf.length = 2 := rfl
  rw [← base64Wrap_eq_breakLines, hcrlf] at hlen
  omega

/-- **`base64_wrap` only inserts line breaks**: the output is the string in
lines of 76 bytes at most, a CRLF behind each but the last. Without SPs these
lines are full, and the last one is not. Nothing is stored outside of the
block. -/
theorem base64Wrap_inserts_breaks (s : Bytes) :
    ∃ lines : List Bytes,
      (lines.flatten = s ∧ base64Wrap 0 s = crlf.intercalate lines) ∧
      ((∀ line ∈ lines.dropLast, line ≠ []) ∧ ∀ line ∈ lines, line.length ≤ 76) ∧
      ((32 : UInt8) ∉ s → (∀ line ∈ lines.dropLast, line.length = 76) ∧
        ∀ line ∈ lines.getLast?, line.length < 76) ∧
      (base64Wrap 0 s).length ≤ 3 * s.length ∧
      ∀ i ∈ base64WrapWrites 0 0 s, i < 3 * s.length + 1 := by
  have hbroken : LineBreaks.Broken (· == 32) 76 0 (base64Lines s) :=
    LineBreaks.broken_lines (by decide) s
  have hflatten : (base64Lines s).flatten = s := LineBreaks.flatten_lines _ _ 0 s
  refine ⟨base64Lines s, ⟨hflatten, ?_⟩, ⟨hbroken.ne_nil, hbroken.length_le⟩, ?_,
    length_base64Wrap_le s, ?_⟩
  · rw [base64Wrap_eq_breakLines, LineBreaks.breakLines_eq, base64Lines]
  · intro hspace
    refine hbroken.full fun c hc => ?_
    rw [hflatten] at hc
    exact beq_eq_false_iff_ne.mpr fun h32 => hspace (h32 ▸ hc)
  · rw [base64WrapWrites_eq_writes, LineBreaks.writes_lt_iff, ← base64Wrap_eq_breakLines]
    exact Nat.lt_succ_of_le (length_base64Wrap_le s)

end ComfirmDmarc.Dkim
