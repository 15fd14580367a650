import ComfirmDmarc.Lib.Blocks
import ComfirmDmarc.Lib.CMemory
import Mathlib.Logic.Function.Basic

/-!
# C strings in blocks

A heap whose blocks hold C strings. What lies behind the terminator of a string
is not kept. Reading or changing a string is an access to its block, and a
fault where the block is not in use.
-/

namespace Blocks

open CMemory

/-- A heap, and the string in each block. -/
structure Strings where
  heap : Heap
  text : Ptr → Bytes
  nul : ∀ p, (0 : UInt8) ∉ text p

namespace Strings

/-- The strings with another one at `p`. -/
def update (p : Ptr) (s : Bytes) (m : Strings) : Strings :=
  { m with
    text := Function.update m.text p (str s)
    nul := by
      intro q
      by_cases hq : q = p
      · subst hq
        rw [Function.update_self]
        exact not_mem_str s
      · rw [Function.update_of_ne hq]
        exact m.nul q }

/-- Reading a string. -/
def read (p : Ptr) (m : Strings) : Except Fault Bytes := do
  m.heap.use p
  return m.text p

/-- A string that is changed in its block. -/
def modify (p : Ptr) (f : Bytes → Bytes) (m : Strings) : Except Fault Strings := do
  m.heap.use p
  return m.update p (f (m.text p))

/-- A fresh block with a string copied into it. -/
def copy (a : Allocator) (s : Bytes) (m : Strings) : Ptr × Strings :=
  let r := m.heap.malloc a
  (r.1, { m with heap := r.2 }.update r.1 s)

def free (p : Ptr) (m : Strings) : Except Fault Strings := do
  let heap ← m.heap.free p
  return { m with heap := heap }

/-- A loop that changes the strings at `ps`, one after the other. -/
def modifyAll (ps : List Ptr) (f : Bytes → Bytes) (m : Strings) : Except Fault Strings :=
  ps.foldlM (fun m p => m.modify p f) m

variable {m : Strings} {p q : Ptr} {s : Bytes}

@[simp] theorem update_heap (m : Strings) : (m.update p s).heap = m.heap := rfl

theorem update_text_self (m : Strings) : (m.update p s).text p = str s :=
  Function.update_self _ _ _

theorem update_text_of_ne (m : Strings) (h : q ≠ p) : (m.update p s).text q = m.text q :=
  Function.update_of_ne h _ _

theorem read_eq (h : p ∈ m.heap.live) : m.read p = .ok (m.text p) := by
  rw [read, Heap.use, if_pos h]
  rfl

theorem modify_eq (h : p ∈ m.heap.live) (f : Bytes → Bytes) :
    m.modify p f = .ok (m.update p (f (m.text p))) := by
  rw [modify, Heap.use, if_pos h]
  rfl

theorem free_eq (h : p ∈ m.heap.live) : m.free p = .ok { m with heap := m.heap.erase p } := by
  rw [free, Heap.free, if_pos h]
  rfl

/-- Blocks that were in use are, and hold the same strings. -/
def Unchanged (m m' : Strings) : Prop :=
  ∀ p ∈ m.heap.live, p ∈ m'.heap.live ∧ m'.text p = m.text p

theorem Unchanged.trans {m m' m'' : Strings} (h : Unchanged m m') (h' : Unchanged m' m'') :
    Unchanged m m'' := by
  intro p hp
  obtain ⟨hlive, htext⟩ := h p hp
  obtain ⟨hlive', htext'⟩ := h' p hlive
  exact ⟨hlive', htext'.trans htext⟩

/-- **A copy is in a block that was not in use**, and leaves the others alone. -/
theorem copy_spec (a : Allocator) (m : Strings) (s : Bytes) :
    ∃ p m', m.copy a s = (p, m') ∧ p ∉ m.heap.live ∧ p ∈ m'.heap.live ∧ m'.text p = str s ∧
      Unchanged m m' := by
  refine ⟨_, _, rfl, a.fresh _, Finset.mem_insert_self _ _, update_text_self _, ?_⟩
  intro p hp
  refine ⟨Finset.mem_insert_of_mem hp, update_text_of_ne _ ?_⟩
  rintro rfl
  exact a.fresh _ hp

/-- **The loop changes each string once**, and no other one. -/
theorem modifyAll_eq {ps : List Ptr} (f : Bytes → Bytes) (hps : m.heap.Owns ps) :
    ∃ m', m.modifyAll ps f = .ok m' ∧ m'.heap = m.heap ∧
      (∀ p ∈ ps, m'.text p = str (f (m.text p))) ∧ ∀ p ∉ ps, m'.text p = m.text p := by
  induction ps generalizing m with
  | nil => exact ⟨m, rfl, rfl, by simp, by simp⟩
  | cons p ps ih =>
    obtain ⟨hp, hnodup⟩ := List.nodup_cons.mp hps.nodup
    have hnext : (m.update p (f (m.text p))).heap.Owns ps :=
      ⟨hnodup, fun q hq => hps.live q (List.mem_cons_of_mem _ hq)⟩
    obtain ⟨m', hrun, hheap, hin, hout⟩ := ih hnext
    refine ⟨m', ?_, hheap, ?_, ?_⟩
    · rw [modifyAll, List.foldlM_cons, modify_eq (hps.live p List.mem_cons_self)]
      exact hrun
    · intro q hq
      rcases List.mem_cons.mp hq with rfl | hq
      · rw [hout q hp, update_text_self]
      · have hne : q ≠ p := fun heq => hp (heq ▸ hq)
        rw [hin q hq, update_text_of_ne _ hne]
    · intro q hq
      simp only [List.mem_cons, not_or] at hq
      rw [hout q hq.2, update_text_of_ne _ hq.1]

end Strings

end Blocks
