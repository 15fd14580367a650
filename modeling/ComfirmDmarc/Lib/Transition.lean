import Mathlib.Data.List.Forall2

/-!
# Runs of a labelled transition system

A step relation `step : σ → ι → σ → Prop` over arbitrary states and labels,
and the finite runs it has. A run keeps its labels, so that a statement can
speak about what was observed on the way. `Guarded` restricts a step relation
to the steps that meet a condition on the state before and the label: a run of
the guarded relation is a run whose steps all meet the condition.
-/

namespace Transition

variable {σ τ ι κ : Type*}

/-- A finite run, with its labels in order. -/
inductive Run (step : σ → ι → σ → Prop) : σ → List ι → σ → Prop
  | nil (s : σ) : Run step s [] s
  | cons {s t u : σ} {i : ι} {is : List ι} :
      step s i t → Run step t is u → Run step s (i :: is) u

/-- The steps of `step` whose source state and label meet `ok`. -/
def Guarded (ok : σ → ι → Prop) (step : σ → ι → σ → Prop) (s : σ) (i : ι) (t : σ) : Prop :=
  ok s i ∧ step s i t

namespace Run

variable {step : σ → ι → σ → Prop}

theorem single {s t : σ} {i : ι} (h : step s i t) : Run step s [i] t :=
  .cons h (.nil t)

theorem mono {step' : σ → ι → σ → Prop} (hsub : ∀ s i t, step s i t → step' s i t)
    {s t : σ} {is : List ι} (h : Run step s is t) : Run step' s is t := by
  induction h with
  | nil s => exact .nil s
  | cons hs _ ih => exact .cons (hsub _ _ _ hs) ih

theorem append {s t u : σ} {is js : List ι} (h : Run step s is t) (h' : Run step t js u) :
    Run step s (is ++ js) u := by
  induction h with
  | nil _ => exact h'
  | cons hs _ ih => exact .cons hs (ih h')

/-- A run whose labels meet the condition in every state. -/
theorem guarded {ok : σ → ι → Prop} {s t : σ} {is : List ι} (h : Run step s is t)
    (hok : ∀ i ∈ is, ∀ s, ok s i) : Run (Guarded ok step) s is t := by
  induction h with
  | nil s => exact .nil s
  | cons hs _ ih =>
    rw [List.forall_mem_cons] at hok
    exact .cons ⟨hok.1 _, hs⟩ (ih hok.2)

/-- Where a step has one result, a run has one end. -/
theorem unique (hstep : ∀ s i t t', step s i t → step s i t' → t = t') {s t t' : σ} {is : List ι}
    (h : Run step s is t) (h' : Run step s is t') : t = t' := by
  induction h with
  | nil _ =>
    cases h'
    rfl
  | cons hs _ ih =>
    cases h' with
    | cons hs' hrest =>
      obtain rfl := hstep _ _ _ _ hs hs'
      exact ih hrest

/-- A property that holds at the start and that every step keeps holds at the
end of every run. -/
theorem invariant {P : σ → Prop} (hstep : ∀ s i t, P s → step s i t → P t)
    {s t : σ} {is : List ι} (h : Run step s is t) (hs : P s) : P t := by
  induction h with
  | nil _ => exact hs
  | cons h1 _ ih => exact ih (hstep _ _ _ hs h1)

/-- A property of labels that every step from an invariant has holds of every
label of a run. -/
theorem labels {P : σ → Prop} {Q : ι → Prop} (hstep : ∀ s i t, P s → step s i t → P t ∧ Q i)
    {s t : σ} {is : List ι} (h : Run step s is t) (hs : P s) : ∀ i ∈ is, Q i := by
  induction h with
  | nil _ => simp
  | cons h1 _ ih =>
    obtain ⟨ht, hi⟩ := hstep _ _ _ hs h1
    simpa [hi] using ih ht

/-- Forward simulation: when every step from related states is matched by a
step of the other system that keeps the relation, every run is matched by a
run, label for label. -/
theorem simulate {step' : τ → κ → τ → Prop} {R : σ → τ → Prop} {L : ι → κ → Prop}
    (hstep : ∀ s i t a, R s a → step s i t → ∃ j b, L i j ∧ step' a j b ∧ R t b)
    {s t : σ} {is : List ι} (h : Run step s is t) {a : τ} (ha : R s a) :
    ∃ js b, List.Forall₂ L is js ∧ Run step' a js b ∧ R t b := by
  induction h generalizing a with
  | nil _ => exact ⟨[], a, .nil, .nil a, ha⟩
  | cons h1 _ ih =>
    obtain ⟨j, b, hL, hb, hR⟩ := hstep _ _ _ _ ha h1
    obtain ⟨js, c, hLs, hc, hR'⟩ := ih hR
    exact ⟨j :: js, c, .cons hL hLs, .cons hb hc, hR'⟩

/-- Forward simulation where the label of the step is a function of the label
it matches. -/
theorem simulate_map {step' : τ → κ → τ → Prop} {R : σ → τ → Prop} {f : ι → κ}
    (hstep : ∀ s i t a, R s a → step s i t → ∃ b, step' a (f i) b ∧ R t b)
    {s t : σ} {is : List ι} (h : Run step s is t) {a : τ} (ha : R s a) :
    ∃ b, Run step' a (is.map f) b ∧ R t b := by
  obtain ⟨js, b, hL, hb, hR⟩ := h.simulate (L := fun i j => f i = j)
    (fun s i t a hs hi => let ⟨b, hb, hR⟩ := hstep s i t a hs hi; ⟨f i, b, rfl, hb, hR⟩) ha
  rw [← List.forall₂_map_left_iff, List.forall₂_eq_eq_eq] at hL
  subst hL
  exact ⟨b, hb, hR⟩

end Run

end Transition
