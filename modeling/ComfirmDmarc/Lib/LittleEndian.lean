import ComfirmDmarc.Lib.CMemory
import Mathlib.Algebra.Ring.Nat

/-!
# Little-endian numbers and records of fields

Numbers as their bytes, lowest first, and a block of bytes cut into fields of
given widths, the way a record of byte arrays lies in memory.
-/

namespace CMemory

/-- The number of some bytes, lowest first. -/
def ofLE (bs : Bytes) : Nat := bs.foldr (fun b n => b.toNat + 256 * n) 0

/-- The lowest bytes of a number, `width` of them. -/
def toLE (width n : Nat) : Bytes := (List.range width).map fun i => UInt8.ofNat (n / 256 ^ i)

@[simp] theorem ofLE_nil : ofLE [] = 0 := rfl

@[simp] theorem ofLE_cons (b : UInt8) (bs : Bytes) : ofLE (b :: bs) = b.toNat + 256 * ofLE bs := rfl

@[simp] theorem length_toLE (width n : Nat) : (toLE width n).length = width := by
  simp [toLE]

theorem toLE_succ (width n : Nat) :
    toLE (width + 1) n = UInt8.ofNat n :: toLE width (n / 256) := by
  rw [toLE, List.range_succ_eq_map, List.map_cons, List.map_map, Nat.pow_zero, Nat.div_one]
  refine congrArg _ (List.map_congr_left fun i _ => ?_)
  rw [Function.comp_apply, Nat.pow_succ', Nat.div_div_eq_div_mul]

/-- **The bytes of a number give it back.** -/
theorem ofLE_toLE {width n : Nat} (h : n < 256 ^ width) : ofLE (toLE width n) = n := by
  induction width generalizing n with
  | zero =>
    rw [Nat.pow_zero] at h
    rw [Nat.lt_one_iff.mp h]
    rfl
  | succ width ih =>
    rw [Nat.pow_succ] at h
    rw [toLE_succ, ofLE_cons, ih (Nat.div_lt_of_lt_mul (by omega)), UInt8.toNat_ofNat']
    omega

theorem ofLE_lt (bs : Bytes) : ofLE bs < 256 ^ bs.length := by
  induction bs with
  | nil => exact Nat.one_pos
  | cons b bs ih =>
    rw [ofLE_cons, List.length_cons, Nat.pow_succ]
    have := b.toNat_lt
    omega

/-! ## Fields -/

/-- The fields of a record of byte arrays, by their widths. -/
def cutFields : List Nat → Bytes → List Bytes
  | [], _ => []
  | width :: widths, bs => bs.take width :: cutFields widths (bs.drop width)

/-- **Cutting a record gives its fields**, whatever follows it. -/
theorem cutFields_flatten (fields : List Bytes) (rest : Bytes) :
    cutFields (fields.map List.length) (fields.flatten ++ rest) = fields := by
  induction fields with
  | nil => rfl
  | cons field fields ih =>
    rw [List.map_cons, List.flatten_cons, List.append_assoc, cutFields, List.take_left' rfl,
      List.drop_left' rfl, ih]

theorem cutFields_length_le (widths : List Nat) (bs : Bytes) (i : Nat) :
    ((cutFields widths bs).getD i []).length ≤ widths.getD i 0 := by
  induction widths generalizing bs i with
  | nil => simp [cutFields]
  | cons width widths ih =>
    cases i with
    | zero => exact List.length_take_le ..
    | succ i => simpa [cutFields] using ih (bs.drop width) i

end CMemory
