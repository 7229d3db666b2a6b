import RixuriOS.Mm.Vmm

/-!
# The bits of a page-table entry

An entry is a frame number in the bits 12 to 51 and flags outside of them. The
lemmas here let the rest of the development speak about frames and flags only.
-/

namespace RixuriOS.Mm

namespace Entry

@[simp] theorem present_and (a b : Entry) : Entry.present (a &&& b) = (a.present && b.present) :=
  BitVec.getLsbD_and

@[simp] theorem present_or (a b : Entry) : Entry.present (a ||| b) = (a.present || b.present) :=
  BitVec.getLsbD_or

@[simp] theorem present_not (a : Entry) : Entry.present (~~~a) = !a.present := by
  simp [present]

@[simp] theorem writable_and (a b : Entry) : Entry.writable (a &&& b) = (a.writable && b.writable) :=
  BitVec.getLsbD_and

@[simp] theorem writable_or (a b : Entry) : Entry.writable (a ||| b) = (a.writable || b.writable) :=
  BitVec.getLsbD_or

@[simp] theorem writable_not (a : Entry) : Entry.writable (~~~a) = !a.writable := by
  simp [writable]

@[simp] theorem user_and (a b : Entry) : Entry.user (a &&& b) = (a.user && b.user) :=
  BitVec.getLsbD_and

@[simp] theorem user_or (a b : Entry) : Entry.user (a ||| b) = (a.user || b.user) :=
  BitVec.getLsbD_or

@[simp] theorem user_not (a : Entry) : Entry.user (~~~a) = !a.user := by
  simp [user]

@[simp] theorem ps_and (a b : Entry) : Entry.ps (a &&& b) = (a.ps && b.ps) :=
  BitVec.getLsbD_and

@[simp] theorem ps_or (a b : Entry) : Entry.ps (a ||| b) = (a.ps || b.ps) :=
  BitVec.getLsbD_or

@[simp] theorem owned_and (a b : Entry) : Entry.owned (a &&& b) = (a.owned && b.owned) :=
  BitVec.getLsbD_and

@[simp] theorem owned_or (a b : Entry) : Entry.owned (a ||| b) = (a.owned || b.owned) :=
  BitVec.getLsbD_or

@[simp] theorem owned_not (a : Entry) : Entry.owned (~~~a) = !a.owned := by
  simp [owned]

@[simp] theorem nx_and (a b : Entry) : Entry.nx (a &&& b) = (a.nx && b.nx) :=
  BitVec.getLsbD_and

@[simp] theorem nx_or (a b : Entry) : Entry.nx (a ||| b) = (a.nx || b.nx) :=
  BitVec.getLsbD_or

@[simp] theorem nx_not (a : Entry) : Entry.nx (~~~a) = !a.nx := by
  simp [nx]

@[simp] theorem ptePresent_bits :
    ptePresent.present = true ∧ ptePresent.writable = false ∧ ptePresent.user = false ∧
      ptePresent.ps = false ∧ ptePresent.owned = false ∧ ptePresent.nx = false := by
  decide

@[simp] theorem pteWrite_bits :
    pteWrite.present = false ∧ pteWrite.writable = true ∧ pteWrite.user = false ∧
      pteWrite.ps = false ∧ pteWrite.owned = false ∧ pteWrite.nx = false := by
  decide

@[simp] theorem pteUser_bits :
    pteUser.present = false ∧ pteUser.writable = false ∧ pteUser.user = true ∧
      pteUser.ps = false ∧ pteUser.owned = false ∧ pteUser.nx = false := by
  decide

@[simp] theorem pteOwned_bits :
    pteOwned.present = false ∧ pteOwned.writable = false ∧ pteOwned.user = false ∧
      pteOwned.ps = false ∧ pteOwned.owned = true ∧ pteOwned.nx = false := by
  decide

theorem getLsbD_pageMask (i : Nat) : pageMask.getLsbD i = (decide (12 ≤ i) && decide (i < 52)) := by
  by_cases hi : i < 64
  · have hall : ∀ j : Fin 64,
        pageMask.getLsbD j.val = (decide (12 ≤ j.val) && decide (j.val < 52)) := by decide
    exact hall ⟨i, hi⟩
  rw [BitVec.getLsbD_of_ge _ _ (by omega)]
  simp only [Bool.false_eq, Bool.and_eq_false_iff, decide_eq_false_iff_not]
  exact .inr (by omega)

theorem testBit_phys (e : Entry) (i : Nat) :
    e.phys.testBit i = (e.getLsbD i && (decide (12 ≤ i) && decide (i < 52))) := by
  have h : e.phys.testBit i = (e &&& pageMask).getLsbD i := rfl
  rw [h, BitVec.getLsbD_and, getLsbD_pageMask]

theorem testBit_frame (e : Entry) (i : Nat) :
    e.frame.testBit i = (e.getLsbD (i + 12) && decide (i < 40)) := by
  rw [frame, show pageSize = 2 ^ 12 from rfl, Nat.testBit_div_two_pow, testBit_phys]
  congr 1
  rw [decide_eq_true (by omega), Bool.true_and]
  exact decide_eq_decide.2 (by omega)

theorem phys_eq (e : Entry) : e.phys = e.frame * pageSize := by
  apply Nat.eq_of_testBit_eq
  intro i
  rw [show pageSize = 2 ^ 12 from rfl, Nat.testBit_mul_two_pow, testBit_frame, testBit_phys]
  by_cases hi : 12 ≤ i
  · rw [show i - 12 + 12 = i by omega]
    simp only [hi, decide_true, Bool.true_and]
    congr 1
    exact decide_eq_decide.2 (by omega)
  · simp [hi]

theorem frame_congr {e e' : Entry} (h : e &&& pageMask = e' &&& pageMask) : e.frame = e'.frame := by
  rw [frame, frame, phys, phys, h]

theorem frame_or (e : Entry) {f : Entry} (hf : f &&& pageMask = 0) :
    Entry.frame (e ||| f) = e.frame := by
  refine frame_congr (BitVec.eq_of_getLsbD_eq fun i _ => ?_)
  have hi : (f.getLsbD i && pageMask.getLsbD i) = false := by
    rw [← BitVec.getLsbD_and, hf]
    exact BitVec.getLsbD_zero
  rw [BitVec.getLsbD_and, BitVec.getLsbD_and, BitVec.getLsbD_or, Bool.and_or_distrib_right, hi,
    Bool.or_false]

theorem frame_lt (e : Entry) : e.frame < 2 ^ 40 := by
  refine Nat.lt_pow_two_of_testBit _ fun i hi => ?_
  rw [testBit_frame, decide_eq_false (by omega), Bool.and_false]

end Entry

/-- The bits of an entry for the frame `p`: the flags, outside of the frame's own bits. -/
theorem getLsbD_mkEntry {p : Nat} (hp : p < 2 ^ 40) (f : Entry) {i : Nat} (hi : i < 12 ∨ 52 ≤ i) :
    (mkEntry (p * pageSize) f).getLsbD i = f.getLsbD i := by
  rw [mkEntry, BitVec.getLsbD_or, BitVec.getLsbD_ofNat, show pageSize = 2 ^ 12 from rfl,
    Nat.testBit_mul_two_pow]
  obtain hi | hi := hi
  · rw [decide_eq_false (by omega : ¬12 ≤ i)]
    simp
  have : p < 2 ^ (i - 12) := hp.trans_le (Nat.pow_le_pow_right (by decide) (by omega))
  rw [Nat.testBit_lt_two_pow this]
  simp

theorem frame_mkEntry {p : Nat} (hp : p < 2 ^ 40) {f : Entry} (hf : f &&& pageMask = 0) :
    (mkEntry (p * pageSize) f).frame = p := by
  apply Nat.eq_of_testBit_eq
  intro i
  rw [Entry.testBit_frame, mkEntry, BitVec.getLsbD_or, BitVec.getLsbD_ofNat,
    show pageSize = 2 ^ 12 from rfl, Nat.testBit_mul_two_pow, Nat.add_sub_cancel]
  by_cases hi : i < 40
  · have hbit : (f &&& pageMask).getLsbD (i + 12) = false := by rw [hf]; simp
    rw [BitVec.getLsbD_and, Entry.getLsbD_pageMask, decide_eq_true (by omega),
      decide_eq_true (by omega : i + 12 < 52), Bool.and_true, Bool.and_true] at hbit
    rw [hbit, decide_eq_true hi, decide_eq_true (by omega : i + 12 < 64),
      decide_eq_true (by omega : i + 12 ≥ 12)]
    simp
  · have : p < 2 ^ i := hp.trans_le (Nat.pow_le_pow_right (by decide) (by omega))
    rw [Nat.testBit_lt_two_pow this, decide_eq_false hi, Bool.and_false]

section

variable {p : Nat} (hp : p < 2 ^ 40) (f : Entry)

include hp

theorem present_mkEntry : (mkEntry (p * pageSize) f).present = f.present :=
  getLsbD_mkEntry hp f (.inl (by decide))

theorem writable_mkEntry : (mkEntry (p * pageSize) f).writable = f.writable :=
  getLsbD_mkEntry hp f (.inl (by decide))

theorem user_mkEntry : (mkEntry (p * pageSize) f).user = f.user :=
  getLsbD_mkEntry hp f (.inl (by decide))

theorem ps_mkEntry : (mkEntry (p * pageSize) f).ps = f.ps :=
  getLsbD_mkEntry hp f (.inl (by decide))

theorem owned_mkEntry : (mkEntry (p * pageSize) f).owned = f.owned :=
  getLsbD_mkEntry hp f (.inl (by decide))

theorem nx_mkEntry : (mkEntry (p * pageSize) f).nx = f.nx :=
  getLsbD_mkEntry hp f (.inr (by decide))

end

end RixuriOS.Mm
