import Mathlib.Data.Finset.Insert
import Mathlib.Data.Finset.Erase
import Mathlib.Data.List.Count

/-!
# Lifetimes of resources

A program as the trace of what it does with its resources, each under the name
it has in the program: a name is in use from an `acquire` to the next `release`.
A trace is disciplined when it touches and gives back only what is in use.
-/

namespace Lifetimes

inductive Op (R : Type*)
  | acquire (r : R)
  | use (r : R)
  | release (r : R)
  deriving DecidableEq

variable {R : Type*} [DecidableEq R]

/-- What is in use behind an operation. -/
def Op.apply (live : Finset R) : Op R → Finset R
  | .acquire r => insert r live
  | .use _ => live
  | .release r => live.erase r

def liveAfter (live : Finset R) (ops : List (Op R)) : Finset R := ops.foldl Op.apply live

/-- **No use and no release of what is not in use**, at any point of a trace. -/
structure Disciplined (ops : List (Op R)) : Prop where
  used : ∀ front r back, ops = front ++ .use r :: back → r ∈ liveAfter ∅ front
  released : ∀ front r back, ops = front ++ .release r :: back → r ∈ liveAfter ∅ front

/-- What an operation needs. -/
def Op.Allowed (live : Finset R) : Op R → Prop
  | .acquire _ => True
  | .use r => r ∈ live
  | .release r => r ∈ live

/-- A trace that can be run when `live` is in use. -/
def RunsFrom (live : Finset R) : List (Op R) → Prop
  | [] => True
  | op :: ops => op.Allowed live ∧ RunsFrom (op.apply live) ops

@[simp] theorem liveAfter_nil (live : Finset R) : liveAfter live [] = live := rfl

@[simp] theorem liveAfter_cons (live : Finset R) (op : Op R) (ops : List (Op R)) :
    liveAfter live (op :: ops) = liveAfter (op.apply live) ops := rfl

theorem liveAfter_append (live : Finset R) (front back : List (Op R)) :
    liveAfter live (front ++ back) = liveAfter (liveAfter live front) back := List.foldl_append

theorem runsFrom_append {live : Finset R} {front back : List (Op R)} :
    RunsFrom live (front ++ back) ↔ RunsFrom live front ∧ RunsFrom (liveAfter live front) back := by
  induction front generalizing live with
  | nil => simp [RunsFrom]
  | cons op front ih => rw [List.cons_append, RunsFrom, RunsFrom, ih, liveAfter_cons, and_assoc]

/-- Running a trace checks every operation where it stands. -/
theorem runsFrom_iff {live : Finset R} {ops : List (Op R)} :
    RunsFrom live ops ↔ ∀ front op back, ops = front ++ op :: back → op.Allowed (liveAfter live front) := by
  constructor
  · rintro h front op back rfl
    rw [runsFrom_append] at h
    exact h.2.1
  · intro h
    induction ops generalizing live with
    | nil => trivial
    | cons op ops ih =>
      refine ⟨h [] op ops rfl, ih fun front op' back heq => ?_⟩
      exact h (op :: front) op' back (by rw [heq]; rfl)

theorem disciplined_iff {ops : List (Op R)} : Disciplined ops ↔ RunsFrom ∅ ops := by
  rw [runsFrom_iff]
  constructor
  · intro h front op back heq
    cases op with
    | acquire r => trivial
    | use r => exact h.used front r back heq
    | release r => exact h.released front r back heq
  · intro h
    exact ⟨fun front r back heq => h front (.use r) back heq,
      fun front r back heq => h front (.release r) back heq⟩

/-- What is not acquired again is released at most once. -/
theorem count_release_le {live : Finset R} {ops : List (Op R)} (h : RunsFrom live ops) {r : R}
    (hr : .acquire r ∉ ops) : ops.count (.release r) ≤ if r ∈ live then 1 else 0 := by
  induction ops generalizing live with
  | nil => simp
  | cons op ops ih =>
    obtain ⟨hop, hops⟩ := h
    simp only [List.mem_cons, not_or] at hr
    have hrest := ih hops hr.2
    cases op with
    | acquire s =>
      have hne : r ≠ s := fun heq => hr.1 (by rw [heq])
      simpa [Op.apply, hne] using hrest
    | use s =>
      have hrest : ops.count (.release r) ≤ if r ∈ live then 1 else 0 := hrest
      simpa using hrest
    | release s =>
      by_cases heq : s = r
      · subst heq
        have hlive : s ∈ live := hop
        simpa [Op.apply, hlive] using hrest
      · have hne : (Op.release s == Op.release r) = false := by simpa using heq
        rw [List.count_cons, hne]
        by_cases hlive : r ∈ live
        · simpa [Op.apply, hlive, Ne.symm heq] using hrest
        · simpa [Op.apply, hlive] using hrest

end Lifetimes
