import Mathlib

/-!
# Families of keyed lists

Lists whose elements carry a key, one list for each index. A list in which no key
occurs twice is a finite map, and looking up a key in it does not depend on the
order of the list. `Binds L d e L'` says that the family `L'` has the element `e`
more than `L`, in the list with the index `d`, and `Moves` that an element has been
moved to another key, in place of the element that had it.
-/

namespace KeyedLists

open List

variable {ι α κ : Type*}

/-- One element more, in one of the lists. -/
structure Binds (L : ι → List α) (d : ι) (e : α) (L' : ι → List α) : Prop where
  perm : (L' d).Perm (e :: L d)
  other : ∀ j, j ≠ d → L' j = L j

def Unique (key : α → κ) (L : ι → List α) : Prop := ∀ d, ((L d).map key).Nodup

variable [DecidableEq κ] (key : α → κ)

def find (l : List α) (a : κ) : Option α := l.find? fun e => key e = a

variable {key} {l l' : List α} {a : κ} {e : α}

theorem find_cons : find key (e :: l) a = if key e = a then some e else find key l a := by
  rw [find, find?_cons]
  by_cases h : key e = a <;> simp [h, find]

theorem find_eq_none_iff : find key l a = none ↔ a ∉ l.map key := by
  simp [find, find?_eq_none]

theorem find_eq_some_iff (hnd : (l.map key).Nodup) : find key l a = some e ↔ e ∈ l ∧ key e = a := by
  refine ⟨fun h => ⟨mem_of_find?_eq_some h, by simpa using find?_some h⟩, ?_⟩
  rintro ⟨he, rfl⟩
  induction l with
  | nil => cases he
  | cons b l ih =>
    rw [map_cons, nodup_cons] at hnd
    rw [find_cons]
    rcases mem_cons.1 he with rfl | he
    · rw [if_pos rfl]
    · have hne : key b ≠ key e := fun hb => hnd.1 (hb ▸ mem_map_of_mem he)
      rw [if_neg hne, ih hnd.2 he]

theorem find_perm (hperm : l.Perm l') (hnd : (l.map key).Nodup) : find key l a = find key l' a := by
  have hnd' : (l'.map key).Nodup := (hperm.map key).nodup_iff.1 hnd
  refine Option.ext fun e => ?_
  rw [find_eq_some_iff hnd, find_eq_some_iff hnd', hperm.mem_iff]

section

variable {L L' : ι → List α} {d j : ι} (h : Binds L d e L')

include h

omit [DecidableEq κ] in
theorem Binds.mem_after {b : α} (hb : b ∈ L j) : b ∈ L' j := by
  by_cases hj : j = d
  · subst hj
    exact h.perm.mem_iff.2 (mem_cons_of_mem _ hb)
  · rwa [h.other j hj]

omit [DecidableEq κ] in
theorem Binds.mem_cases {b : α} (hb : b ∈ L' j) : b = e ∨ b ∈ L j := by
  by_cases hj : j = d
  · subst hj
    exact mem_cons.1 (h.perm.mem_iff.1 hb)
  · rw [h.other j hj] at hb
    exact .inr hb

theorem Binds.unique (hu : Unique key L) (hnew : find key (L d) (key e) = none) :
    Unique key L' := by
  intro j
  by_cases hj : j = d
  · subst hj
    rw [(h.perm.map key).nodup_iff, map_cons, nodup_cons]
    exact ⟨find_eq_none_iff.1 hnew, hu j⟩
  · rw [h.other j hj]
    exact hu j

omit [DecidableEq κ] in
theorem Binds.unique_before (hu : Unique key L') : Unique key L := by
  intro j
  by_cases hj : j = d
  · subst hj
    have hnd := hu j
    rw [(h.perm.map key).nodup_iff, map_cons, nodup_cons] at hnd
    exact hnd.2
  · rw [← h.other j hj]
    exact hu j

theorem Binds.find_before (hu : Unique key L') : find key (L d) (key e) = none := by
  have hnd := hu d
  rw [(h.perm.map key).nodup_iff, map_cons, nodup_cons] at hnd
  exact find_eq_none_iff.2 hnd.1

theorem Binds.find_other (hu : Unique key L') (hne : j = d → a ≠ key e) :
    find key (L' j) a = find key (L j) a := by
  by_cases hj : j = d
  · subst hj
    rw [find_perm h.perm (hu j), find_cons, if_neg (Ne.symm (hne rfl))]
  · rw [h.other j hj]

end

/-! ## Moving an element -/

omit [DecidableEq κ] in
def Drops (L : ι → List α) (d : ι) : Option α → (ι → List α) → Prop
  | none, L' => L' = L
  | some e, L' => Binds L' d e L

/-- The element `old` of the list `d₁` has become the element `new` of the list `d₂`,
where it has taken the place of `rep`. -/
structure Moves (key : α → κ) (L : ι → List α) (d₁ : ι) (old : α) (d₂ : ι) (new : α)
    (rep : Option α) (L' : ι → List α) : Prop where
  chain : ∃ L₁ L₂, Binds L₁ d₁ old L ∧ Drops L₁ d₂ rep L₂ ∧ Binds L₂ d₂ new L'
  taken : ∀ e, rep = some e → key e = key new
  free : rep = none → find key (L d₂) (key new) = none
  differ : d₁ = d₂ → key old ≠ key new

section

variable {L L' : ι → List α} {d d₁ d₂ j : ι} {old new : α} {rep : Option α}

omit [DecidableEq κ] in
theorem Drops.mem_before (h : Drops L d rep L') {b : α} (hb : b ∈ L' j) : b ∈ L j := by
  cases rep with
  | none => exact h ▸ hb
  | some e => exact Binds.mem_after h hb

omit [DecidableEq κ] in
theorem Drops.unique_after (h : Drops L d rep L') (hu : Unique key L) : Unique key L' := by
  cases rep with
  | none => exact h ▸ hu
  | some e => exact Binds.unique_before h hu

variable (h : Moves key L d₁ old d₂ new rep L')

include h

theorem Moves.mem_cases {b : α} (hb : b ∈ L' j) : b = new ∨ b ∈ L j := by
  obtain ⟨L₁, L₂, hold, hdrop, hnew⟩ := h.chain
  exact (hnew.mem_cases hb).imp_right fun hb => hold.mem_after (hdrop.mem_before hb)

variable (hu : Unique key L)

include hu

theorem Moves.unique : Unique key L' := by
  obtain ⟨L₁, L₂, hold, hdrop, hnew⟩ := h.chain
  have hu₁ := hold.unique_before hu
  refine hnew.unique (hdrop.unique_after hu₁) ?_
  cases rep with
  | none =>
    rw [hdrop, ← h.free rfl]
    exact (hold.find_other hu fun hd => Ne.symm (h.differ hd.symm)).symm
  | some e =>
    rw [← h.taken e rfl]
    exact Binds.find_before hdrop hu₁

end

end KeyedLists
