import ComfirmDmarc.Lib.Transition

/-!
# The bounded FIFO

What a queue of capacity `cap` is for, over an arbitrary type of elements: the
state is the list of held elements, oldest first. An `enq` that finds the
queue full and a `deq` that finds it empty are answered and change nothing;
`tau` is an internal step of an implementation. `run_conserves` is the FIFO
law of whole runs: what was taken out, followed by what is held, is what was
held at the start followed by what was put in.
-/

namespace BoundedFifo

open Transition

variable {α : Type*}

/-- One observed operation with its answer. -/
inductive Event (α : Type*)
  | enq (x : α) (accepted : Bool)
  | deq (answer : Option α)
  | tau

/-- The elements an observation put in. -/
def Event.entered : Event α → List α
  | .enq x true => [x]
  | _ => []

/-- The elements an observation took out. -/
def Event.left : Event α → List α
  | .deq (some x) => [x]
  | _ => []

def entered (es : List (Event α)) : List α := es.flatMap Event.entered

def left (es : List (Event α)) : List α := es.flatMap Event.left

/-- The bounded FIFO as a step relation. -/
inductive Step (cap : Nat) : List α → Event α → List α → Prop
  | enq (q : List α) (x : α) : q.length < cap → Step cap q (.enq x true) (q ++ [x])
  | full (q : List α) (x : α) : q.length = cap → Step cap q (.enq x false) q
  | deq (x : α) (q : List α) : Step cap (x :: q) (.deq (some x)) q
  | empty : Step cap [] (.deq none) []
  | tau (q : List α) : Step cap q .tau q

@[simp] theorem entered_nil : entered ([] : List (Event α)) = [] := rfl

@[simp] theorem left_nil : left ([] : List (Event α)) = [] := rfl

@[simp] theorem entered_cons (e : Event α) (es : List (Event α)) :
    entered (e :: es) = e.entered ++ entered es := by simp [entered]

@[simp] theorem left_cons (e : Event α) (es : List (Event α)) :
    left (e :: es) = e.left ++ left es := by simp [left]

theorem step_conserves {cap : Nat} {q q' : List α} {e : Event α} (h : Step cap q e q') :
    e.left ++ q' = q ++ e.entered := by
  cases h <;> simp [Event.left, Event.entered]

/-- **The FIFO law**: no element is lost, duplicated or reordered in a run. -/
theorem run_conserves {cap : Nat} {q q' : List α} {es : List (Event α)}
    (h : Run (Step cap) q es q') : left es ++ q' = q ++ entered es := by
  induction h with
  | nil => simp
  | @cons q r q' e es hstep _ ih =>
    rw [left_cons, entered_cons, List.append_assoc, ih, ← List.append_assoc,
      step_conserves hstep, List.append_assoc]

end BoundedFifo
