import Mathlib

/-!
# Loops that may fail

A checking loop is a `foldlM` in the exception monad. Its success is described
without its intermediate states when one round succeeds exactly on the elements
with a property and then updates the state by a function.
-/

namespace ExceptLoop

open List

universe u

variable {ε α : Type*} {σ τ : Type u}

@[simp] theorem bind_eq_ok {x : Except ε σ} {g : σ → Except ε τ} {b : τ} :
    (x >>= g) = .ok b ↔ ∃ a, x = .ok a ∧ g a = .ok b := by
  cases x <;> simp [bind, Except.bind]

variable {l : List α} {body : σ → α → Except ε σ}

theorem foldlM_cons_eq_ok {x : α} {st st' : σ} :
    (x :: l).foldlM body st = .ok st' ↔
      ∃ st₁, body st x = .ok st₁ ∧ l.foldlM body st₁ = .ok st' := by
  rw [foldlM_cons, bind_eq_ok]

/-- A loop whose rounds succeed exactly on the elements with the property `ok`. -/
theorem foldlM_eq_ok (ok : α → Prop) (g : σ → α → σ)
    (hbody : ∀ x ∈ l, ∀ st st', body st x = .ok st' ↔ ok x ∧ st' = g st x) (st st' : σ) :
    l.foldlM body st = .ok st' ↔ (∀ x ∈ l, ok x) ∧ st' = l.foldl g st := by
  induction l generalizing st with
  | nil => simp [pure, Except.pure, eq_comm]
  | cons x l ih =>
    have hx := hbody x mem_cons_self
    have hl := ih fun y hy => hbody y (mem_cons_of_mem _ hy)
    simp only [foldlM_cons_eq_ok, hx, hl, forall_mem_cons, foldl_cons]
    constructor
    · rintro ⟨st₁, ⟨h, rfl⟩, hs, rfl⟩
      exact ⟨⟨h, hs⟩, rfl⟩
    · rintro ⟨⟨h, hs⟩, rfl⟩
      exact ⟨_, ⟨h, rfl⟩, hs, rfl⟩

theorem foldlM_unit_eq_ok {body : α → Except ε Unit} {u : Unit} :
    l.foldlM (fun _ x => body x) () = .ok u ↔ ∀ x ∈ l, body x = .ok () := by
  have hbody : ∀ x ∈ l, ∀ st st' : Unit,
      (fun (_ : Unit) x => body x) st x = .ok st' ↔ body x = .ok () ∧ st' = () := by simp
  rw [foldlM_eq_ok _ (fun _ _ => ()) hbody () u]
  simp

theorem foldl_count_eq (p : α → Bool) (l : List α) (n : Nat) :
    l.foldl (fun m x => if p x then m + 1 else m) n = n + l.countP p := by
  induction l generalizing n with
  | nil => rfl
  | cons x l ih =>
    rw [foldl_cons, ih, countP_cons]
    split_ifs <;> omega

end ExceptLoop
