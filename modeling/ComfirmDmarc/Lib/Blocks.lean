import Mathlib.Data.Finset.Lattice.Fold
import Mathlib.Data.List.Perm.Basic
import Mathlib.Order.Lattice.Nat

/-!
# `malloc` and `free`

Blocks by their addresses, without what they hold: which of them are in use,
and which pointers were overwritten while their block was. A `free` of anything
else than a block in use is a fault, and so is an access to it. Which address
`malloc` returns is up to an `Allocator`, whose answers are fresh.
-/

namespace Blocks

/-- An address. -/
abbrev Ptr := Nat

/-- `NULL`. -/
def null : Ptr := 0

/-- A `malloc` that never fails. -/
structure Allocator where
  pick : Finset Ptr → Ptr
  fresh : ∀ live, pick live ∉ live
  ne_null : ∀ live, pick live ≠ null

/-- The allocator that goes up through the addresses. -/
def Allocator.upward : Allocator where
  pick live := live.sup id + 1
  fresh live h := by
    have hle : live.sup id + 1 ≤ live.sup id := Finset.le_sup (f := id) h
    exact Nat.not_succ_le_self _ hle
  ne_null _ := Nat.succ_ne_zero _

structure Heap where
  live : Finset Ptr
  lost : List Ptr
  null_not_live : null ∉ live

inductive Fault
  | invalidFree (p : Ptr)
  | invalidUse (p : Ptr)
  deriving DecidableEq, Repr

namespace Heap

/-- A heap without blocks. -/
def empty : Heap := ⟨∅, [], Finset.notMem_empty _⟩

def insert (p : Ptr) (hp : p ≠ null) (h : Heap) : Heap :=
  { h with
    live := Insert.insert p h.live
    null_not_live := by simp [h.null_not_live, hp.symm] }

def erase (p : Ptr) (h : Heap) : Heap :=
  { h with
    live := h.live.erase p
    null_not_live := fun hnull => h.null_not_live (Finset.mem_of_mem_erase hnull) }

def malloc (a : Allocator) (h : Heap) : Ptr × Heap :=
  (a.pick h.live, h.insert (a.pick h.live) (a.ne_null h.live))

def free (p : Ptr) (h : Heap) : Except Fault Heap :=
  if p ∈ h.live then .ok (h.erase p) else .error (.invalidFree p)

/-- `free(NULL)` does nothing. -/
def freeUnlessNull (p : Ptr) (h : Heap) : Except Fault Heap :=
  if p = null then .ok h else h.free p

/-- An access to the block behind a pointer. -/
def use (p : Ptr) (h : Heap) : Except Fault Unit :=
  if p ∈ h.live then .ok () else .error (.invalidUse p)

/-- A variable that holds `p` gets another value. -/
def overwrite (p : Ptr) (h : Heap) : Heap :=
  if p ∈ h.live then { h with lost := h.lost ++ [p] } else h

/-- The pointers are those of different blocks in use. -/
structure Owns (h : Heap) (ps : List Ptr) : Prop where
  nodup : ps.Nodup
  live : ∀ p ∈ ps, p ∈ h.live

variable {h : Heap} {p : Ptr} {ps qs : List Ptr}

theorem Owns.nil (h : Heap) : h.Owns [] := ⟨List.nodup_nil, by simp⟩

theorem Owns.ne_null (ho : h.Owns ps) (hp : p ∈ ps) : p ≠ null := fun heq =>
  h.null_not_live (heq ▸ ho.live p hp)

theorem Owns.perm (ho : h.Owns ps) (hperm : ps.Perm qs) : h.Owns qs where
  nodup := hperm.nodup_iff.mp ho.nodup
  live p hp := ho.live p (hperm.mem_iff.mpr hp)

theorem Owns.sublist (ho : h.Owns ps) (hsub : qs.Sublist ps) : h.Owns qs where
  nodup := ho.nodup.sublist hsub
  live p hp := ho.live p (hsub.subset hp)

theorem overwrite_live (h : Heap) (p : Ptr) : (h.overwrite p).live = h.live := by
  rw [overwrite]
  split <;> rfl

@[simp] theorem overwrite_null (h : Heap) : h.overwrite null = h := if_neg h.null_not_live

theorem overwrite_of_not_live (hp : p ∉ h.live) : h.overwrite p = h := if_neg hp

theorem Owns.overwrite (ho : h.Owns ps) (p : Ptr) : (h.overwrite p).Owns ps :=
  ⟨ho.nodup, fun q hq => by rw [overwrite_live]; exact ho.live q hq⟩

/-- A fresh block is one more that is owned. -/
theorem Owns.malloc (ho : h.Owns ps) (a : Allocator) :
    (h.malloc a).2.Owns ((h.malloc a).1 :: ps) where
  nodup := List.nodup_cons.mpr ⟨fun hp => a.fresh h.live (ho.live _ hp), ho.nodup⟩
  live q hq := by
    rcases List.mem_cons.mp hq with rfl | hq
    · exact Finset.mem_insert_self _ _
    · exact Finset.mem_insert_of_mem (ho.live q hq)

/-- An owned block can be given back, once. -/
theorem Owns.free (ho : h.Owns (p :: ps)) : h.free p = .ok (h.erase p) ∧ (h.erase p).Owns ps := by
  have hnodup := List.nodup_cons.mp ho.nodup
  refine ⟨if_pos (ho.live p List.mem_cons_self), hnodup.2, fun q hq => ?_⟩
  refine Finset.mem_erase.mpr ⟨fun heq => hnodup.1 (heq ▸ hq), ?_⟩
  exact ho.live q (List.mem_cons_of_mem _ hq)

theorem Owns.use (ho : h.Owns ps) (hp : p ∈ ps) : h.use p = .ok () := if_pos (ho.live p hp)

/-- The pointers among `ps` that are not `NULL`. -/
def blocks (ps : List Ptr) : List Ptr := ps.filter (· ≠ null)

theorem Owns.blocks_eq (ho : h.Owns ps) : blocks ps = ps :=
  List.filter_eq_self.mpr fun q hq => by simpa using ho.ne_null hq

theorem Owns.freeUnlessNull (ho : h.Owns (blocks (p :: ps))) :
    ∃ h', h.freeUnlessNull p = .ok h' ∧ h'.lost = h.lost ∧ h'.Owns (blocks ps) := by
  rw [Heap.freeUnlessNull]
  by_cases hp : p = null
  · rw [if_pos hp]
    exact ⟨h, rfl, rfl, by simpa [blocks, hp] using ho⟩
  · rw [if_neg hp]
    have hcons : blocks (p :: ps) = p :: blocks ps := by simp [blocks, hp]
    rw [hcons] at ho
    exact ⟨_, ho.free.1, rfl, ho.free.2⟩

end Heap

end Blocks
