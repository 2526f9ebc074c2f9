/-
Runs of a machine with labelled steps.

`step s e` is the state after the event `e` in the state `s`, if `e` can happen
there.  `Along P s es` says that every step of the run `es` from `s` meets `P`.

* `run_append` — a run, and how it goes on;
* `Along.of_invariant` — what an invariant that the steps preserve gives along a
  run;
* `Along.at` — a property of the run at one of its steps.
-/
import Mathlib.Data.Option.Basic

universe u v

namespace LabelledRun

section

variable {σ : Type u} {ε : Type v} (step : σ → ε → Option σ)

/-- The state after the events, if they can happen one after the other. -/
def run (s : σ) (es : List ε) : Option σ := es.foldlM step s

/-- Every step of the run meets `P`. -/
def Along (P : σ → ε → Prop) : σ → List ε → Prop
  | _, [] => True
  | s, e :: es => ∀ s', step s e = some s' → P s e ∧ Along P s' es

end

variable {σ : Type u} {ε : Type v} {step : σ → ε → Option σ}

/-- Whether a run meets `P` can be seen by going through it. -/
instance Along.decidable (P : σ → ε → Prop) [∀ s e, Decidable (P s e)] :
    ∀ s es, Decidable (Along step P s es)
  | _, [] => inferInstanceAs (Decidable True)
  | s, e :: es =>
    match h : step s e with
    | none => isTrue fun s' hs' => absurd (h.symm.trans hs') (Option.some_ne_none s').symm
    | some s' =>
      have := Along.decidable P s' es
      decidable_of_iff (P s e ∧ Along step P s' es)
        ⟨fun hstep _ hs'' => Option.some.inj (h.symm.trans hs'') ▸ hstep, fun hall => hall s' h⟩

theorem run_nil (s : σ) : run step s [] = some s := rfl

theorem run_cons (s : σ) (e : ε) (es : List ε) :
    run step s (e :: es) = (step s e).bind fun s' => run step s' es := by
  rw [run, List.foldlM_cons]
  rfl

theorem run_append (s : σ) (es es' : List ε) :
    run step s (es ++ es') = (run step s es).bind fun s' => run step s' es' := by
  rw [run, List.foldlM_append]
  rfl

theorem run_trans {s s' s'' : σ} {es es' : List ε} (h : run step s es = some s')
    (h' : run step s' es' = some s'') : run step s (es ++ es') = some s'' := by
  rw [run_append, h]
  exact h'

theorem run_step {s s' s'' : σ} {e : ε} {es : List ε} (h : step s e = some s')
    (h' : run step s' es = some s'') : run step s (e :: es) = some s'' := by
  rw [run_cons, h]
  exact h'

/-- An invariant that the steps preserve which meet `P` holds along every run of
such steps, and with it what it says of them. -/
theorem Along.of_invariant {P Q : σ → ε → Prop} {Inv : σ → Prop}
    (hstep : ∀ s e s', Inv s → P s e → step s e = some s' → Inv s')
    (hevent : ∀ s e s', Inv s → step s e = some s' → Q s e) {s : σ} (hinv : Inv s) {es : List ε}
    (h : Along step P s es) : Along step Q s es := by
  induction es generalizing s with
  | nil => exact trivial
  | cons e es ih =>
    intro s' hs'
    obtain ⟨hp, hrest⟩ := h s' hs'
    exact ⟨hevent s e s' hinv hs', ih (hstep s e s' hinv hp hs') hrest⟩

/-- A property along a run holds at each of its steps. -/
theorem Along.at {P : σ → ε → Prop} {s s₁ s₂ : σ} {es es' : List ε} {e : ε}
    (h : Along step P s (es ++ e :: es')) (hrun : run step s es = some s₁)
    (hstep : step s₁ e = some s₂) : P s₁ e := by
  induction es generalizing s with
  | nil =>
    obtain rfl := Option.some.inj hrun
    exact (h s₂ hstep).1
  | cons e' es ih =>
    rw [run_cons] at hrun
    obtain ⟨s', hs', hrest⟩ := Option.bind_eq_some_iff.mp hrun
    exact ih (h s' hs').2 hrest

end LabelledRun
