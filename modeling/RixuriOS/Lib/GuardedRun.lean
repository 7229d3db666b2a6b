import Mathlib

/-!
# Runs whose steps satisfy a guard

A partial step function on states, and the finite runs all of whose steps pass a
test that may look at the state the step starts from.
-/

namespace GuardedRun

variable {σ α : Type*}

/-- The state after the given steps, if each of them passes the guard and is
defined. -/
def runIf (step : σ → α → Option σ) (ok : σ → α → Bool) : List α → σ → Option σ
  | [], s => some s
  | a :: acts, s => if ok s a then (step s a).bind (runIf step ok acts) else none

variable {step : σ → α → Option σ} {ok : σ → α → Bool}

theorem runIf_invariant {P : σ → Prop}
    (hstep : ∀ s a s', P s → ok s a = true → step s a = some s' → P s')
    {acts : List α} {s s' : σ} (hs : P s) (hrun : runIf step ok acts s = some s') : P s' := by
  induction acts generalizing s with
  | nil =>
    cases hrun
    exact hs
  | cons a acts ih =>
    rw [runIf] at hrun
    split_ifs at hrun with hok
    obtain ⟨s₁, hs₁, hrest⟩ := Option.bind_eq_some_iff.1 hrun
    exact ih (hstep s a s₁ hs hok hs₁) hrest

/-- The states that guarded steps reach, for a guard that need not be decidable. -/
inductive Reaches (step : σ → α → Option σ) (allowed : σ → α → Prop) (s₀ : σ) : σ → Prop
  | refl : Reaches step allowed s₀ s₀
  | tail {s s' : σ} {a : α} : Reaches step allowed s₀ s → allowed s a → step s a = some s' →
      Reaches step allowed s₀ s'

end GuardedRun
