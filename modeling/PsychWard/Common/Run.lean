import Mathlib.Data.List.Basic

/-!
# Runs of a labelled transition relation

`Run step s es t` says that the events `es`, taken one after the other from `s`, can lead to `t`.
Runs are closed under prefixes, so a property of the last state of every run is a property of every
state a run passes through.

`guarded step cond` keeps the steps whose event meets `cond` in the state before it. A run of the
guarded relation is a run all of whose steps meet the condition, and `Run.invariant` is the rule for
what such runs keep true.
-/

namespace PsychWard

variable {σ ε : Type*}

/-- The events `es` lead from `s` to the last state of the run. -/
inductive Run (step : σ → ε → σ → Prop) (s : σ) : List ε → σ → Prop
  | nil : Run step s [] s
  | snoc {es : List ε} {e : ε} {t u : σ} (h : Run step s es t) (he : step t e u) :
      Run step s (es ++ [e]) u

/-- The steps of `step` whose event meets `cond` in the state it is taken from. -/
def guarded (step : σ → ε → σ → Prop) (cond : σ → ε → Prop) (s : σ) (e : ε) (t : σ) : Prop :=
  cond s e ∧ step s e t

namespace Run

variable {step step' : σ → ε → σ → Prop} {cond : σ → ε → Prop} {s t u : σ} {es es' : List ε}

/-- What one step preserves, a whole run preserves. -/
theorem invariant {I : σ → Prop} (hstep : ∀ t e u, I t → step t e u → I u)
    (h : Run step s es t) (h0 : I s) : I t := by
  induction h with
  | nil => exact h0
  | snoc _ he ih => exact hstep _ _ _ ih he

theorem mono (hstep : ∀ t e u, step t e u → step' t e u) (h : Run step s es t) :
    Run step' s es t := by
  induction h with
  | nil => exact .nil
  | snoc _ he ih => exact .snoc ih (hstep _ _ _ he)

/-- A run whose steps all meet a condition is a run. -/
theorem of_guarded (h : Run (guarded step cond) s es t) : Run step s es t :=
  h.mono fun _ _ _ he => he.2

theorem trans (h : Run step s es t) (h' : Run step t es' u) : Run step s (es ++ es') u := by
  induction h' with
  | nil => simpa using h
  | snoc _ he ih => rw [← List.append_assoc]; exact .snoc ih he

/-- Where a step has one outcome, so has a run. -/
theorem deterministic (hstep : ∀ s e t u, step s e t → step s e u → t = u) (h : Run step s es t)
    (h' : Run step s es u) : t = u := by
  induction h generalizing u with
  | nil =>
    generalize hl : ([] : List ε) = l at h'
    cases h' with
    | nil => rfl
    | snoc => exact absurd hl.symm (by simp)
  | @snoc es e t t' _ he ih =>
    generalize hl : es ++ [e] = l at h'
    cases h' with
    | nil => exact absurd hl (by simp)
    | snoc hrun he' =>
      obtain ⟨rfl, hlast⟩ := List.append_inj' hl rfl
      obtain rfl := List.singleton_inj.mp hlast
      obtain rfl := ih hrun
      exact hstep _ _ _ _ he he'

theorem single {e : ε} (he : step s e t) : Run step s [e] t := by
  rw [← List.nil_append [e]]
  exact .snoc .nil he

theorem cons {e : ε} (he : step s e t) (h : Run step t es u) : Run step s (e :: es) u :=
  (single he).trans h

/-- A run goes through a state between any two parts of its events. -/
theorem split (h : Run step s (es ++ es') u) : ∃ t, Run step s es t ∧ Run step t es' u := by
  generalize hl : es ++ es' = l at h
  induction h generalizing es' with
  | nil =>
    obtain ⟨rfl, rfl⟩ := List.append_eq_nil_iff.mp hl
    exact ⟨s, .nil, .nil⟩
  | snoc h he ih =>
    rcases List.eq_nil_or_concat es' with rfl | ⟨es'', e, rfl⟩
    · rw [List.append_nil] at hl
      exact ⟨_, hl ▸ .snoc h he, .nil⟩
    · rw [List.concat_eq_append] at hl ⊢
      rw [← List.append_assoc] at hl
      obtain ⟨hinit, heq⟩ := List.append_inj' hl rfl
      obtain rfl := List.singleton_inj.mp heq
      obtain ⟨t, ht, hu⟩ := ih hinit
      exact ⟨t, ht, .snoc hu he⟩

end Run

/-! ## Runs of an executable step -/

/-- Run a partial step function over a list of events; `none` when a step is not enabled. -/
def runSteps (step : σ → ε → Option σ) (s : σ) : List ε → Option σ
  | [] => some s
  | e :: es => (step s e).bind fun t => runSteps step t es

/-- What the step function computes is a run of the relation it induces. -/
theorem Run.of_runSteps {step : σ → ε → Option σ} {s t : σ} {es : List ε}
    (h : runSteps step s es = some t) : Run (fun s e t => step s e = some t) s es t := by
  induction es generalizing s with
  | nil => obtain rfl := Option.some.inj h; exact .nil
  | cons e es ih =>
    obtain ⟨u, hu, hrest⟩ := Option.bind_eq_some_iff.mp h
    exact .cons hu (ih hrest)

end PsychWard
