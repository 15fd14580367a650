import ComfirmDmarc.Lib.CMemory
import Mathlib.Algebra.Ring.Int.Defs
import Mathlib.Algebra.Ring.Nat

/-!
# Base -- the shared types of the server

The constants and records of `src/base.h` that the queue, the SMTP server and
the mail handler pass to each other. Sizes are those of the 64-bit System V
ABI: 32-bit `int`, 64-bit `long`, no padding inside `mail`.
-/

namespace ComfirmDmarc

open CMemory

/-! ## Limits of `base.h` -/

def keyMaxLen : Nat := 128

def valueMaxLen : Nat := 1024

def headerMaxLen : Nat := 20

def bodyMaxLen : Nat := 8000

/-! ## Machine integers -/

/-- The value an `int` holds after a conversion or an addition wrapped. -/
def toInt (x : Int) : Int := Int.bmod x (2 ^ 32)

/-- The value a `size_t` holds. -/
def toSize (x : Int) : Int := x % 2 ^ 64

theorem toInt_of_range {x : Int} (h0 : 0 ≤ x) (h : x < 2 ^ 31) : toInt x = x := by
  exact Int.bmod_eq_of_le (by omega) (by omega)

/-- The range of an `int`, and that it differs from `x` by a multiple of `2 ^ 32`. -/
theorem toInt_spec (x : Int) :
    -2 ^ 31 ≤ toInt x ∧ toInt x < 2 ^ 31 ∧ (2 ^ 32 : Int) ∣ x - toInt x := by
  have hlow := Int.le_bmod (x := x) (m := 2 ^ 32) (by decide)
  have hhigh := Int.bmod_lt (x := x) (m := 2 ^ 32) (by decide)
  refine ⟨?_, ?_, Int.dvd_self_sub_bmod⟩
  · rw [toInt]
    omega
  · rw [toInt]
    omega

theorem toSize_of_range {x : Int} (h0 : 0 ≤ x) (h : x < 2 ^ 64) : toSize x = x :=
  Int.emod_eq_of_lt h0 h

/-! ## Mails -/

/-- `hdr`: one header field, as two fixed arrays. -/
structure Hdr where
  key : Vector UInt8 keyMaxLen
  value : Vector UInt8 valueMaxLen
  deriving DecidableEq

/-- `mail`: what the server queues and the mail handler takes out. -/
structure Mail where
  headers : Vector Hdr headerMaxLen
  headerCount : Nat
  body : Vector UInt8 bodyMaxLen
  deriving DecidableEq

/-- The mail of zero bytes. -/
def Mail.zero : Mail :=
  ⟨Vector.replicate _ ⟨Vector.replicate _ 0, Vector.replicate _ 0⟩, 0, Vector.replicate _ 0⟩

/-- A header field with the given strings, over arrays of zero bytes. -/
def Hdr.ofStrings (key value : Bytes) : Hdr :=
  ⟨memcpy (Vector.replicate _ 0) (key ++ [0]), memcpy (Vector.replicate _ 0) (value ++ [0])⟩

/-- The C string in a header's `key`. -/
def Hdr.keyStr (h : Hdr) : Bytes := str h.key.toList

/-- The C string in a header's `value`. -/
def Hdr.valueStr (h : Hdr) : Bytes := str h.value.toList

/-- The C string in a mail's `body`. -/
def Mail.bodyStr (m : Mail) : Bytes := str m.body.toList

/-- `sizeof(mail)`: the header arrays, the `int` and the body. -/
def sizeofMail : Int := headerMaxLen * (keyMaxLen + valueMaxLen) + 4 + bodyMaxLen

example : sizeofMail = 31044 := rfl

end ComfirmDmarc
