import Mathlib

/-!
# Bitmaps stored in machine words

Bit `p` of a bitmap is bit `p % w` of its word number `p / w`. `test`, `set` and
`clear` are related by `test_set` and `test_clear`, so that a client never has to
look inside a word; `ctz` is the position of the lowest set bit of a word. The
finite set `members` of the set bits below a bound is what counters count.
-/

namespace WordBitmap

open Function

variable {w : Nat}

abbrev Bitmap (w : Nat) := Nat → BitVec w

def test (m : Bitmap w) (p : Nat) : Bool := (m (p / w)).getLsbD (p % w)

def set (m : Bitmap w) (p : Nat) : Bitmap w :=
  update m (p / w) (m (p / w) ||| BitVec.twoPow w (p % w))

def clear (m : Bitmap w) (p : Nat) : Bitmap w :=
  update m (p / w) (m (p / w) &&& ~~~BitVec.twoPow w (p % w))

def ctz (x : BitVec w) : Nat := ((List.range w).find? fun i => x.getLsbD i).getD w

private theorem div_mod_inj {p q : Nat} (hd : q / w = p / w) (hm : q % w = p % w) : q = p := by
  rw [← Nat.div_add_mod q w, hd, hm, Nat.div_add_mod]

section

variable [NeZero w]

@[simp] theorem test_set (m : Bitmap w) (p q : Nat) :
    test (set m p) q = (decide (q = p) || test m q) := by
  have hw : p % w < w := Nat.mod_lt _ (Nat.pos_of_neZero w)
  unfold test set
  by_cases hd : q / w = p / w
  · rw [hd, update_self, BitVec.getLsbD_or, BitVec.getLsbD_twoPow, Bool.or_comm]
    congr 1
    by_cases hm : q % w = p % w
    · simp [hw, div_mod_inj hd hm]
    · have hne : q ≠ p := fun h => hm (by rw [h])
      simp [hne, Ne.symm hm]
  have hne : q ≠ p := fun h => hd (by rw [h])
  rw [update_of_ne hd]
  simp [hne]

@[simp] theorem test_clear (m : Bitmap w) (p q : Nat) :
    test (clear m p) q = (decide (q ≠ p) && test m q) := by
  have hw : p % w < w := Nat.mod_lt _ (Nat.pos_of_neZero w)
  have hq : q % w < w := Nat.mod_lt _ (Nat.pos_of_neZero w)
  unfold test clear
  by_cases hd : q / w = p / w
  · rw [hd, update_self, BitVec.getLsbD_and, BitVec.getLsbD_not,
      BitVec.getLsbD_twoPow, Bool.and_comm]
    congr 1
    by_cases hm : q % w = p % w
    · simp [hw, div_mod_inj hd hm]
    · have hne : q ≠ p := fun h => hm (by rw [h])
      simp [hne, hq, Ne.symm hm]
  have hne : q ≠ p := fun h => hd (by rw [h])
  rw [update_of_ne hd]
  simp [hne]

theorem test_foldl_set (l : List Nat) (m : Bitmap w) (q : Nat) :
    test (l.foldl set m) q = (decide (q ∈ l) || test m q) := by
  induction l generalizing m with
  | nil => simp
  | cons p l ih => simp [ih, Bool.or_assoc, Bool.or_left_comm]

theorem getLsbD_word (m : Bitmap w) {k i : Nat} (hi : i < w) :
    (m k).getLsbD i = test m (k * w + i) := by
  have hd : (k * w + i) / w = k := by
    rw [Nat.add_comm, Nat.add_mul_div_right _ _ (Nat.pos_of_neZero w), Nat.div_eq_of_lt hi, Nat.zero_add]
  have hm : (k * w + i) % w = i := by
    rw [Nat.mul_comm, Nat.mul_add_mod, Nat.mod_eq_of_lt hi]
  rw [test, hd, hm]

end

theorem ctz_spec {x : BitVec w} (h : x ≠ 0) :
    ctz x < w ∧ x.getLsbD (ctz x) = true ∧ ∀ i < ctz x, x.getLsbD i = false := by
  unfold ctz
  cases hf : (List.range w).find? fun i => x.getLsbD i with
  | none =>
    refine absurd (BitVec.eq_of_getLsbD_eq fun i hi => ?_) h
    have := List.find?_eq_none.1 hf i (List.mem_range.2 hi)
    simpa using this
  | some i =>
  obtain ⟨hx, as, bs, hab, hlow⟩ := List.find?_eq_some_iff_append.1 hf
  have hi : i < w := List.mem_range.1 (hab ▸ by simp)
  refine ⟨hi, hx, fun j hj => ?_⟩
  have hlen : as.length = i := by
    have h1 : (List.range w)[as.length]? = some i := by rw [hab]; simp
    rw [List.getElem?_eq_some_iff] at h1
    obtain ⟨_, h1⟩ := h1
    simpa using h1
  have hmem : j ∈ as := by
    have h1 : (List.range w)[j]? = some j := List.getElem?_range (hj.trans hi)
    rw [hab, List.getElem?_append_left (by rw [hlen]; exact hj)] at h1
    exact List.mem_of_getElem? h1
  simpa using hlow j hmem

def members (m : Bitmap w) (n : Nat) : Finset Nat := (Finset.range n).filter fun p => test m p

@[simp] theorem mem_members {m : Bitmap w} {n p : Nat} :
    p ∈ members m n ↔ p < n ∧ test m p = true := by
  simp [members]

theorem members_set [NeZero w] (m : Bitmap w) {n p : Nat} (hp : p < n) :
    members (set m p) n = insert p (members m n) := by
  ext q
  simp only [mem_members, test_set, Finset.mem_insert, Bool.or_eq_true, decide_eq_true_eq]
  constructor
  · rintro ⟨hq, rfl | h⟩
    · exact .inl rfl
    · exact .inr ⟨hq, h⟩
  rintro (rfl | ⟨hq, h⟩)
  · exact ⟨hp, .inl rfl⟩
  · exact ⟨hq, .inr h⟩

end WordBitmap
