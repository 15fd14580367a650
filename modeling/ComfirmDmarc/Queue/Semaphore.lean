import ComfirmDmarc.Lib.Transition
import Mathlib.Data.Set.Card

/-!
# Queue -- the semaphore around the queue operations

`pq_enqueue` and `pq_dequeue` run between `semaphore_wait` and
`semaphore_post` on the one semaphore with key `SEM_KEY`, which every
`pq_init` sets to 1 again. The processes are interleaved step by step; a
process that has a handle may be in its critical section or not.
-/

namespace ComfirmDmarc.Queue.Semaphore

open Transition

/-! ## The semaphore calls -/

/-- `semaphore_init`: `SETALL` to 1, whatever the value was. -/
def semaphoreInit (_ : Option Nat) : Nat := 1

/-- `semaphore_wait`: blocks (`none`) until the value can be decremented. -/
def semaphoreWait : Nat → Option Nat
  | 0 => none
  | v + 1 => some v

/-- `semaphore_post`. -/
def semaphorePost (v : Nat) : Nat := v + 1

/-! ## Processes -/

/-- How far a process is: before its `pq_init`, with a handle, or between
`semaphore_wait` and `semaphore_post`. -/
inductive Pc
  | start
  | ready
  | critical
  deriving DecidableEq

/-- The semaphore (none before the first `semget`) and all processes. -/
structure State where
  sem : Option Nat
  pc : Nat → Pc

/-- The steps a process takes. -/
inductive Action
  | init (p : Nat)
  | wait (p : Nat)
  | post (p : Nat)

/-- One step of one process. The body of an operation touches neither the
semaphore nor the position of a process, so it is the stay in `critical`. -/
inductive Step : State → Action → State → Prop
  | init {s : State} {p : Nat} : s.pc p = .start →
      Step s (.init p) ⟨some (semaphoreInit s.sem), Function.update s.pc p .ready⟩
  | wait {s : State} {p v v' : Nat} : s.pc p = .ready → s.sem = some v →
      semaphoreWait v = some v' → Step s (.wait p) ⟨some v', Function.update s.pc p .critical⟩
  | post {s : State} {p v : Nat} : s.pc p = .critical → s.sem = some v →
      Step s (.post p) ⟨some (semaphorePost v), Function.update s.pc p .ready⟩

/-- No process has started and the semaphore does not exist. -/
def State.initial : State := ⟨none, fun _ => .start⟩

/-! ## Mutual exclusion -/

/-- The processes in a critical section. -/
def State.inside (s : State) : Set Nat := {p | s.pc p = .critical}

/-- **What the semaphore is for**: at most one process is inside, and value
and processes inside add up to 1 once the semaphore exists. -/
structure Exclusive (s : State) : Prop where
  atMostOne : ∀ p q, p ∈ s.inside → q ∈ s.inside → p = q
  balance : ∀ v, s.sem = some v → v + s.inside.ncard = 1

/-- The condition on a step: no `pq_init` while a process is inside. -/
def InitsAlone (s : State) : Action → Prop
  | .init _ => s.inside = ∅
  | _ => True

theorem exclusive_of_empty {s : State} (h : s.inside = ∅) (hv : ∀ v, s.sem = some v → v = 1) :
    Exclusive s where
  atMostOne p q hp _ := by
    rw [h] at hp
    cases hp
  balance v hs := by rw [h, hv v hs, Set.ncard_empty]

theorem exclusive_of_singleton {s : State} {p : Nat} (h : s.inside = {p})
    (hv : ∀ v, s.sem = some v → v = 0) : Exclusive s where
  atMostOne q r hq hr := by
    rw [h] at hq hr
    rw [hq, hr]
  balance v hs := by rw [h, hv v hs, Set.ncard_singleton]

/-- An exclusive state has nobody inside or exactly one process. -/
theorem Exclusive.inside_cases {s : State} (h : Exclusive s) :
    s.inside = ∅ ∨ ∃ p, s.inside = {p} := by
  rcases s.inside.eq_empty_or_nonempty with hempty | ⟨p, hp⟩
  · exact .inl hempty
  · refine .inr ⟨p, ?_⟩
    ext q
    exact ⟨fun hq => h.atMostOne q p hq hp, fun hq => hq ▸ hp⟩

/-- Moving one process changes nobody else's place. -/
theorem inside_update (sem : Option Nat) (pc : Nat → Pc) (p : Nat) (pc' : Pc) :
    State.inside ⟨sem, Function.update pc p pc'⟩
      = {q | if q = p then pc' = .critical else pc q = .critical} := by
  ext q
  by_cases hq : q = p
  · subst hq
    simp [State.inside]
  · simp [State.inside, hq]

theorem init_inside {s : State} {p : Nat} (hp : s.pc p = .start) (sem : Option Nat) :
    State.inside ⟨sem, Function.update s.pc p .ready⟩ = s.inside := by
  rw [inside_update]
  ext q
  by_cases hq : q = p
  · subst hq
    simp [State.inside, hp]
  · simp [State.inside, hq]

theorem wait_exclusive {s : State} {p v v' : Nat} (h : Exclusive s) (hs : s.sem = some v)
    (hv : semaphoreWait v = some v') :
    Exclusive ⟨some v', Function.update s.pc p .critical⟩ := by
  have hbal := h.balance v hs
  cases v with
  | zero => simp [semaphoreWait] at hv
  | succ n =>
    cases hv
    have hempty : s.inside = ∅ := by
      rcases h.inside_cases with he | ⟨q, hq⟩
      · exact he
      · rw [hq, Set.ncard_singleton] at hbal
        omega
    apply exclusive_of_singleton (p := p)
    · rw [inside_update]
      ext q
      by_cases hq : q = p
      · simp [hq]
      · have : q ∉ s.inside := by simp [hempty]
        simpa [hq, State.inside] using this
    · rintro v' ⟨⟩
      omega

theorem post_exclusive {s : State} {p v : Nat} (h : Exclusive s) (hp : s.pc p = .critical)
    (hs : s.sem = some v) : Exclusive ⟨some (semaphorePost v), Function.update s.pc p .ready⟩ := by
  have hbal := h.balance v hs
  have hone : s.inside = {p} := by
    ext q
    exact ⟨fun hq => h.atMostOne q p hq hp, fun hq => hq ▸ hp⟩
  rw [hone, Set.ncard_singleton] at hbal
  apply exclusive_of_empty
  · rw [inside_update]
    ext q
    by_cases hq : q = p
    · simp [hq]
    · have : q ∉ s.inside := by simp [hone, hq]
      simpa [hq, State.inside] using this
  · rintro v' ⟨⟩
    simp only [semaphorePost]
    omega

/-- **One step**: from an exclusive state every step leads to an exclusive
state, except a `pq_init` while a process is inside. -/
theorem step_exclusive_iff {s s' : State} {a : Action} (h : Exclusive s) (hstep : Step s a s') :
    Exclusive s' ↔ InitsAlone s a := by
  cases hstep with
  | @init p hp =>
    constructor
    · intro h'
      have hbal := h'.balance 1 rfl
      rw [init_inside hp] at hbal
      rcases h.inside_cases with he | ⟨q, hq⟩
      · exact he
      · rw [hq, Set.ncard_singleton] at hbal
        omega
    · intro hempty
      apply exclusive_of_empty
      · rw [init_inside hp]
        exact hempty
      · rintro v ⟨⟩
        rfl
  | wait _ hs hv => exact ⟨fun _ => trivial, fun _ => wait_exclusive h hs hv⟩
  | post hp hs => exact ⟨fun _ => trivial, fun _ => post_exclusive h hp hs⟩

theorem initial_inside : State.initial.inside = ∅ := by
  ext q
  simp [State.inside, State.initial]

theorem initial_exclusive : Exclusive State.initial :=
  exclusive_of_empty initial_inside (by rintro v ⟨⟩)

/-- **Mutual exclusion, exactly.** A run in which each `pq_init` happens while
no process is inside keeps mutual exclusion and the balance of the semaphore;
and the next step of such a run keeps them if and only if it is no `pq_init`
that finds a process inside. -/
theorem exclusive_iff_inits_alone {as : List Action} {s : State}
    (hrun : Run (Guarded InitsAlone Step) State.initial as s) :
    Exclusive s ∧ ∀ a s', Step s a s' → (Exclusive s' ↔ InitsAlone s a) := by
  have hs : Exclusive s := hrun.invariant (P := Exclusive)
    (fun s a s' h hstep => (step_exclusive_iff h hstep.2).mpr hstep.1) initial_exclusive
  exact ⟨hs, fun a s' hstep => step_exclusive_iff hs hstep⟩

/-- Two processes that take turns; a third one must not start while the second is inside. -/
theorem exclusive_iff_inits_alone_turns :
    ∃ s, Run (Guarded InitsAlone Step) State.initial
        [.init 0, .init 1, .wait 0, .post 0, .wait 1] s ∧
      1 ∈ s.inside ∧ Exclusive s ∧ ∀ s', Step s (.init 2) s' → ¬Exclusive s' := by
  have hempty : State.inside ⟨some 1, Function.update State.initial.pc 0 .ready⟩ = ∅ :=
    (init_inside rfl _).trans initial_inside
  obtain ⟨s, hrun, hin⟩ : ∃ s, Run (Guarded InitsAlone Step) State.initial
      [.init 0, .init 1, .wait 0, .post 0, .wait 1] s ∧ 1 ∈ s.inside :=
    ⟨_, .cons ⟨initial_inside, .init rfl⟩ (.cons ⟨hempty, .init (by simp [State.initial])⟩
      (.cons ⟨trivial, .wait (v := 1) (by simp) rfl rfl⟩
        (.cons ⟨trivial, .post (v := 0) (by simp) rfl⟩
          (.single ⟨trivial, .wait (v := 1) (by simp) rfl rfl⟩)))), by simp [State.inside]⟩
  obtain ⟨hexclusive, hnext⟩ := exclusive_iff_inits_alone hrun
  refine ⟨s, hrun, hin, hexclusive, fun s' hstep h' => ?_⟩
  have halone : s.inside = ∅ := (hnext (.init 2) s' hstep).mp h'
  rw [halone] at hin
  exact hin

/-- Process 0 is inside when process 1 runs `pq_init`; then both are. -/
theorem init_lets_two_inside :
    ∃ s, Run Step State.initial [.init 0, .wait 0, .init 1, .wait 1] s ∧
      0 ∈ s.inside ∧ 1 ∈ s.inside ∧ ¬ Exclusive s := by
  refine ⟨_, .cons (.init rfl) (.cons (.wait (v := 1) (by simp) rfl rfl)
    (.cons (.init (by simp [State.initial])) (.cons (.wait (v := 1) (by simp) rfl rfl) (.nil _)))),
    by simp [State.inside], by simp [State.inside], ?_⟩
  intro h
  have := h.atMostOne 0 1 (by simp [State.inside]) (by simp [State.inside])
  omega

end ComfirmDmarc.Queue.Semaphore
