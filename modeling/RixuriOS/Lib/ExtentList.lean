import Mathlib

/-!
# Lists of extents

An extent is a run of consecutive block numbers. A list of extents denotes the
list `blocks` of the block numbers it covers, in logical order, and `locate`
finds the block at a logical position by walking over the extents without
building that list. `locate_eq_getElem?` says that the two agree, so facts about
positions can be moved to facts about lists.
-/

namespace ExtentList

open List

structure Extent where
  start : Nat
  len : Nat
  deriving DecidableEq, Repr

def blocks (l : List Extent) : List Nat := l.flatMap fun e => range' e.start e.len

def total : List Extent → Nat
  | [] => 0
  | e :: l => e.len + total l

def locate : List Extent → Nat → Option Nat
  | [], _ => none
  | e :: l, pos => if pos < e.len then some (e.start + pos) else locate l (pos - e.len)

variable {l : List Extent}

@[simp] theorem blocks_nil : blocks [] = [] := rfl

theorem blocks_cons (e : Extent) (l : List Extent) :
    blocks (e :: l) = range' e.start e.len ++ blocks l := rfl

theorem length_blocks (l : List Extent) : (blocks l).length = total l := by
  induction l with
  | nil => rfl
  | cons e l ih => rw [blocks_cons, length_append, length_range', ih, total]

theorem mem_blocks {s : Nat} : s ∈ blocks l ↔ ∃ e ∈ l, e.start ≤ s ∧ s < e.start + e.len := by
  simp [blocks, mem_range'_1]

theorem end_le_of_blocks {n : Nat} (h : ∀ s ∈ blocks l, s < n) {e : Extent} (he : e ∈ l)
    (h0 : e.len ≠ 0) : e.start + e.len ≤ n := by
  have := h (e.start + (e.len - 1)) (mem_blocks.2 ⟨e, he, by omega, by omega⟩)
  omega

theorem locate_eq_getElem? (l : List Extent) (pos : Nat) : locate l pos = (blocks l)[pos]? := by
  induction l generalizing pos with
  | nil => rfl
  | cons e l ih =>
    rw [locate, blocks_cons]
    by_cases h : pos < e.len
    · rw [if_pos h, List.getElem?_append_left (by simpa using h), List.getElem?_range' h]
      simp
    · rw [if_neg h, List.getElem?_append_right (by simpa using Nat.le_of_not_lt h), ih,
        length_range']

theorem locate_isSome_iff (l : List Extent) (pos : Nat) :
    (locate l pos).isSome ↔ pos < total l := by
  rw [locate_eq_getElem?, ← length_blocks, Option.isSome_iff_ne_none, ne_eq,
    List.getElem?_eq_none_iff, Nat.not_le]

theorem total_le_of_locate {l : List Extent} {pos n : Nat} (h : locate l pos = none) (hn : pos ≤ n) :
    total l ≤ n := by
  have hno : ¬pos < total l := by
    rw [← locate_isSome_iff, h]
    simp
  omega

theorem locate_mem {pos s : Nat} (h : locate l pos = some s) : s ∈ blocks l := by
  rw [locate_eq_getElem?] at h
  exact mem_of_getElem? h

theorem locate_inj (hl : (blocks l).Nodup) {p q s : Nat} (hp : locate l p = some s)
    (hq : locate l q = some s) : p = q := by
  rw [locate_eq_getElem?] at hp hq
  obtain ⟨hp', hps⟩ := List.getElem?_eq_some_iff.1 hp
  obtain ⟨hq', hqs⟩ := List.getElem?_eq_some_iff.1 hq
  exact (hl.getElem_inj_iff).1 (hps.trans hqs.symm)

/-! ## Extents without a common block -/

def Extent.Apart (a b : Extent) : Prop :=
  a.len = 0 ∨ b.len = 0 ∨ a.start + a.len ≤ b.start ∨ b.start + b.len ≤ a.start

theorem Extent.Apart.symm {a b : Extent} (h : a.Apart b) : b.Apart a := by
  unfold Extent.Apart at *
  omega

theorem Extent.apart_iff {a b : Extent} :
    a.Apart b ↔ ∀ s, a.start ≤ s → s < a.start + a.len → b.start ≤ s → ¬s < b.start + b.len := by
  constructor
  · intro h s
    unfold Extent.Apart at h
    omega
  intro h
  have ha := h a.start
  have hb := h b.start
  unfold Extent.Apart
  omega

theorem disjoint_blocks_iff {l' : List Extent} :
    (blocks l).Disjoint (blocks l') ↔ ∀ a ∈ l, ∀ b ∈ l', a.Apart b := by
  simp only [disjoint_left, mem_blocks, Extent.apart_iff]
  constructor
  · intro h a ha b hb s h1 h2 h3 h4
    exact h ⟨a, ha, h1, h2⟩ ⟨b, hb, h3, h4⟩
  · rintro h s ⟨a, ha, h1, h2⟩ ⟨b, hb, h3, h4⟩
    exact h a ha b hb s h1 h2 h3 h4

theorem nodup_blocks_iff : (blocks l).Nodup ↔ l.Pairwise Extent.Apart := by
  induction l with
  | nil => simp
  | cons e l ih =>
    have hone : range' e.start e.len = blocks [e] := by simp [blocks]
    rw [blocks_cons, nodup_append', pairwise_cons, ih, hone, disjoint_blocks_iff]
    simp [blocks, nodup_range', and_comm]

end ExtentList
