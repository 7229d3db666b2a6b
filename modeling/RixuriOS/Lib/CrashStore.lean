import Mathlib

/-!
# Block stores that may lose power

A store maps block numbers to contents. Requests reach it in order, but only a
flush makes the writes before it durable: when the power goes, the writes
issued since the last completed flush persist as an arbitrary subset, each of
them as a whole. `Crash d ws reqs d'` says that a store with durable contents
`d` and unflushed writes `ws`, cut off somewhere inside the requests `reqs`,
comes back with the contents `d'`.
-/

namespace CrashStore

open List

abbrev Disk (β : Type*) := Nat → β

def upd {β : Type*} (d : Disk β) (s : Nat) (b : β) : Disk β :=
  fun x => if x = s then b else d x

inductive Req (β : Type*) where
  | write (s : Nat) (b : β)
  | flush

def applyWrites {β : Type*} (d : Disk β) : List (Nat × β) → Disk β
  | [] => d
  | w :: ws => applyWrites (upd d w.1 w.2) ws

/-- The durable contents and the unflushed writes after a list of requests. -/
def settle {β : Type*} : Disk β → List (Nat × β) → List (Req β) → Disk β × List (Nat × β)
  | d, ws, [] => (d, ws)
  | d, ws, .write s b :: rs => settle d (ws ++ [(s, b)]) rs
  | d, ws, .flush :: rs => settle (applyWrites d ws) [] rs

def applyReqs {β : Type*} (d : Disk β) : List (Req β) → Disk β
  | [] => d
  | .write s b :: rs => applyReqs (upd d s b) rs
  | .flush :: rs => applyReqs d rs

/-- The contents a store can come back with when it is cut off somewhere inside
the requests `reqs`, having the durable contents `d` and the unflushed writes
`ws` at their start. -/
inductive Crash {β : Type*} : Disk β → List (Nat × β) → List (Req β) → Disk β → Prop where
  | cut {d : Disk β} {ws sub : List (Nat × β)} {reqs : List (Req β)} :
      sub.Sublist ws → Crash d ws reqs (applyWrites d sub)
  | write {d d' : Disk β} {ws : List (Nat × β)} {s : Nat} {b : β} {reqs : List (Req β)} :
      Crash d (ws ++ [(s, b)]) reqs d' → Crash d ws (.write s b :: reqs) d'
  | flush {d d' : Disk β} {ws : List (Nat × β)} {reqs : List (Req β)} :
      Crash (applyWrites d ws) [] reqs d' → Crash d ws (.flush :: reqs) d'

section

variable {β : Type*} {d d' : Disk β} {ws vs : List (Nat × β)} {s t : Nat} {b : β}
  {reqs reqs' : List (Req β)}

@[simp] theorem upd_same : upd d s b s = b := if_pos rfl

theorem upd_other (h : t ≠ s) : upd d s b t = d t := if_neg h

theorem applyWrites_append : applyWrites d (ws ++ vs) = applyWrites (applyWrites d ws) vs := by
  induction ws generalizing d with
  | nil => rfl
  | cons w ws ih => exact ih

theorem applyWrites_other (h : ∀ w ∈ ws, w.1 ≠ t) : applyWrites d ws t = d t := by
  induction ws generalizing d with
  | nil => rfl
  | cons w ws ih =>
    have hw : t ≠ w.1 := fun he => h w mem_cons_self he.symm
    rw [applyWrites, ih fun v hv => h v (mem_cons_of_mem _ hv), upd_other hw]

/-- After a list of writes a block holds what the list says, whatever it held
before, if the list names it at all. -/
theorem applyWrites_congr (h : (∃ w ∈ ws, w.1 = t) ∨ d t = d' t) :
    applyWrites d ws t = applyWrites d' ws t := by
  induction ws generalizing d d' with
  | nil =>
    rcases h with ⟨w, hw, _⟩ | h
    · cases hw
    · exact h
  | cons w ws ih =>
    apply ih
    by_cases hw : t = w.1
    · right
      rw [hw, upd_same, upd_same]
    rcases h with ⟨v, hv, rfl⟩ | h
    · rcases mem_cons.1 hv with rfl | hv
      · exact absurd rfl hw
      · exact Or.inl ⟨v, hv, rfl⟩
    · right
      rw [upd_other hw, upd_other hw, h]

theorem applyReqs_append : applyReqs d (reqs ++ reqs') = applyReqs (applyReqs d reqs) reqs' := by
  induction reqs generalizing d with
  | nil => rfl
  | cons r reqs ih => cases r <;> exact ih

theorem Crash.append (h : Crash d ws (reqs ++ reqs') d') :
    Crash d ws reqs d' ∨
      Crash (settle d ws reqs).1 (settle d ws reqs).2 reqs' d' := by
  induction reqs generalizing d ws with
  | nil => exact Or.inr h
  | cons r reqs ih =>
    cases h with
    | cut hsub => exact Or.inl (Crash.cut hsub)
    | write h =>
      rcases ih h with h | h
      · exact Or.inl (Crash.write h)
      · exact Or.inr h
    | flush h =>
      rcases ih h with h | h
      · exact Or.inl (Crash.flush h)
      · exact Or.inr h

theorem Crash.of_nil (h : Crash d ws [] d') : ∃ sub, sub.Sublist ws ∧ d' = applyWrites d sub := by
  cases h with
  | cut hsub => exact ⟨_, hsub, rfl⟩

/-- Writes change the block `t` if and only if the last one of them to it has other contents. -/
theorem applyWrites_ne_iff : applyWrites d ws t ≠ d t ↔
    ∃ front w back, ws = front ++ w :: back ∧ (∀ v ∈ back, v.1 ≠ w.1) ∧ w.1 = t ∧ d t ≠ w.2 := by
  constructor
  · intro h
    induction ws using List.reverseRecOn with
    | nil => exact absurd rfl h
    | append_singleton ws v ih =>
      rw [applyWrites_append] at h
      by_cases hv : v.1 = t
      · refine ⟨ws, v, [], rfl, by simp, hv, ?_⟩
        rw [applyWrites, applyWrites, ← hv, upd_same] at h
        exact hv ▸ h.symm
      · rw [applyWrites, applyWrites, upd_other (Ne.symm hv)] at h
        obtain ⟨front, w, back, rfl, hback, hw, hne⟩ := ih h
        refine ⟨front, w, back ++ [v], by simp, fun u hu => ?_, hw, hne⟩
        obtain hu | hu := mem_append.1 hu
        · exact hback u hu
        · rw [mem_singleton.1 hu, hw]
          exact hv
  · rintro ⟨front, w, back, rfl, hback, rfl, hne⟩
    rw [applyWrites_append, applyWrites, applyWrites_other hback, upd_same]
    exact hne.symm

/-- Writing a list again over some of its writes has the effect of writing it
once. -/
theorem applyWrites_absorb (h : vs ⊆ ws) :
    applyWrites (applyWrites d vs) ws = applyWrites d ws := by
  funext t
  apply applyWrites_congr
  by_cases ht : ∃ w ∈ ws, w.1 = t
  · exact Or.inl ht
  · exact Or.inr (applyWrites_other fun w hw he => ht ⟨w, h hw, he⟩)

theorem Crash.of_writes (h : Crash d ws (vs.map fun w => .write w.1 w.2) d') :
    ∃ sub, sub.Sublist (ws ++ vs) ∧ d' = applyWrites d sub := by
  induction vs generalizing ws with
  | nil =>
    rw [append_nil]
    exact h.of_nil
  | cons w vs ih =>
    cases h with
    | cut hsub => exact ⟨_, hsub.trans (sublist_append_left _ _), rfl⟩
    | write h =>
      obtain ⟨sub, hsub, hd⟩ := ih h
      exact ⟨sub, by rwa [append_assoc] at hsub, hd⟩

theorem settle_writes : settle d ws (vs.map fun w => .write w.1 w.2) = (d, ws ++ vs) := by
  induction vs generalizing ws with
  | nil => rw [append_nil]; rfl
  | cons w vs ih =>
    rw [map_cons, settle, ih, append_assoc]
    rfl

theorem applyReqs_writes : applyReqs d (ws.map fun w => .write w.1 w.2) = applyWrites d ws := by
  induction ws generalizing d with
  | nil => rfl
  | cons w ws ih => exact ih

/-- One write followed by a flush, with nothing unflushed before: the block has
its old or its new contents, or the cut comes later. -/
theorem Crash.write_flush (h : Crash d [] (.write s b :: .flush :: reqs) d') :
    d' = d ∨ Crash (upd d s b) [] reqs d' := by
  cases h with
  | cut hsub =>
    rw [sublist_nil] at hsub
    exact Or.inl (by rw [hsub]; rfl)
  | write h =>
  cases h with
  | cut hsub =>
    rcases sublist_singleton.1 hsub with rfl | rfl
    · exact Or.inl rfl
    · exact Or.inr (Crash.cut (List.Sublist.refl []))
  | flush h => exact Or.inr h

end

end CrashStore
