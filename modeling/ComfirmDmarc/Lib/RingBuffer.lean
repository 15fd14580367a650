import Mathlib.Data.List.Basic
import Mathlib.Data.List.Range
import Mathlib.Logic.Function.Basic

/-!
# Ring buffers

The list held by a circular buffer: `count` elements that start at slot
`start` of `cap` slots and wrap around. Slots are a total function on the
integers, as addresses are, so that a read needs no bound of its own.
-/

namespace RingBuffer

variable {α : Type*}

/-- The slot `k` places after `start`. -/
def slot (cap start : Int) (k : Nat) : Int := (start + k) % cap

/-- The elements of the ring, oldest first. -/
def contents (slots : Int → α) (cap start : Int) (count : Nat) : List α :=
  (List.range count).map fun k => slots (slot cap start k)

@[simp] theorem contents_length (slots : Int → α) (cap start : Int) (count : Nat) :
    (contents slots cap start count).length = count := by
  simp [contents]

theorem slot_zero {cap start : Int} (h0 : 0 ≤ start) (h : start < cap) :
    slot cap start 0 = start := by
  simpa [slot] using Int.emod_eq_of_lt h0 h

/-- Moving the start on by one slot shifts the positions by one. -/
theorem slot_succ_start (cap start : Int) (k : Nat) :
    slot cap ((start + 1) % cap) k = slot cap start (k + 1) := by
  simp only [slot, Int.emod_add_emod]
  congr 1
  push_cast
  omega

/-- Two positions less than one round apart are different slots. -/
theorem slot_ne {cap start : Int} {i j : Nat} (hij : i < j) (hj : (j : Int) < i + cap) :
    slot cap start i ≠ slot cap start j := by
  intro h
  have hdvd : cap ∣ (start + j) - (start + i) :=
    Int.dvd_of_emod_eq_zero (Int.emod_eq_emod_iff_emod_sub_eq_zero.mp h.symm)
  have hpos : 0 < (start + j) - (start + i) := by omega
  have := Int.le_of_dvd hpos hdvd
  omega

/-- Appending: a write to the slot after the last one is seen at the end. -/
theorem contents_push (slots : Int → α) {cap start : Int} {count : Nat}
    (hcount : (count : Int) < cap) (x : α) :
    contents (Function.update slots (slot cap start count) x) cap start (count + 1)
      = contents slots cap start count ++ [x] := by
  simp only [contents, List.range_succ, List.map_append, List.map_cons, List.map_nil,
    Function.update_self]
  congr 1
  apply List.map_congr_left
  intro k hk
  have hlt : k < count := List.mem_range.mp hk
  exact Function.update_of_ne (slot_ne hlt (by omega)) _ _

/-- A write to the slot after the last one is not seen while the count stays. -/
theorem contents_update (slots : Int → α) {cap start : Int} {count : Nat}
    (hcount : (count : Int) < cap) (x : α) :
    contents (Function.update slots (slot cap start count) x) cap start count
      = contents slots cap start count := by
  have h := @contents_push α slots cap start count hcount x
  simp only [contents, List.range_succ, List.map_append, List.map_cons, List.map_nil,
    Function.update_self] at h
  exact List.append_cancel_right h

/-- Taking: the ring is its first slot followed by the ring one slot on. -/
theorem contents_pop (slots : Int → α) {cap start : Int} (h0 : 0 ≤ start) (h : start < cap)
    (count : Nat) :
    contents slots cap start (count + 1)
      = slots start :: contents slots cap ((start + 1) % cap) count := by
  simp only [contents, List.range_succ_eq_map, List.map_cons, List.map_map, slot_zero h0 h]
  congr 1
  apply List.map_congr_left
  intro k _
  simp [slot_succ_start]

end RingBuffer
