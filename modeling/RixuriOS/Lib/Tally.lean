import Mathlib

/-!
# Counting the entries of a table

The number of entries of a finite table that satisfy a test, and how it moves
when one entry is overwritten.
-/

namespace Tally

variable {ι α : Type*} [Fintype ι] [DecidableEq ι]

def tally (p : α → Bool) (f : ι → α) : Nat := (Finset.univ.filter fun x => p (f x) = true).card

variable {p : α → Bool} {f : ι → α} {x y : ι} {v : α}

omit [DecidableEq ι] in
theorem tally_pos (h : p (f x) = true) : 0 < tally p f :=
  Finset.card_pos.2 ⟨x, by simp [h]⟩

omit [DecidableEq ι] in
theorem tally_eq_zero (h : ∀ x, p (f x) = false) : tally p f = 0 := by
  simp [tally, h]

theorem two_le_tally (hne : x ≠ y) (hx : p (f x) = true) (hy : p (f y) = true) : 2 ≤ tally p f := by
  have hpair : ({x, y} : Finset ι) ⊆ Finset.univ.filter fun x => p (f x) = true := by
    intro z hz
    rw [Finset.mem_insert, Finset.mem_singleton] at hz
    obtain rfl | rfl := hz
    · simpa using hx
    · simpa using hy
  have hcard := Finset.card_le_card hpair
  rwa [Finset.card_pair hne] at hcard

omit [DecidableEq ι] in
theorem tally_congr {g : ι → α} (h : ∀ x, p (f x) = p (g x)) : tally p f = tally p g := by
  simp [tally, h]

omit [DecidableEq ι] in
theorem tally_split (p q : α → Bool) (f : ι → α) :
    tally p f = tally (fun a => p a && !q a) f + tally (fun a => p a && q a) f := by
  have hcard := Finset.card_filter_add_card_filter_not
    (s := Finset.univ.filter fun x => p (f x) = true) (p := fun x => q (f x) = true)
  simp only [Finset.filter_filter] at hcard
  simp only [tally, Bool.and_eq_true, Bool.not_eq_true']
  simp only [Bool.not_eq_true] at hcard
  omega

/-- Overwriting an entry takes away what it counted for and adds what the new one
counts for. -/
theorem tally_update (p : α → Bool) (f : ι → α) (x : ι) (v : α) :
    tally p (Function.update f x v) + (p (f x)).toNat = tally p f + (p v).toNat := by
  have hsplit (g : ι → α) (hg : ∀ y, y ≠ x → g y = f y) :
      tally p g = ((Finset.univ.erase x).filter fun y => p (f y) = true).card + (p (g x)).toNat := by
    have hinsert : (Finset.univ : Finset ι) = insert x (Finset.univ.erase x) := by simp
    have hrest : (Finset.univ.erase x).filter (fun y => p (g y) = true) =
        (Finset.univ.erase x).filter fun y => p (f y) = true := by
      refine Finset.filter_congr fun y hy => ?_
      rw [hg y (Finset.ne_of_mem_erase hy)]
    unfold tally
    rw [hinsert, Finset.filter_insert]
    cases hx : p (g x) with
    | true =>
      rw [if_pos rfl, Finset.card_insert_of_notMem (by simp), Finset.erase_insert_eq_erase, hrest]
      simp
    | false =>
      rw [if_neg (by simp), Finset.erase_insert_eq_erase, hrest]
      simp
  rw [hsplit f fun _ _ => rfl, hsplit (Function.update f x v) fun y hy => by simp [hy]]
  rw [Function.update_self]
  omega

end Tally
