import Mathlib

/-!
# Graphs with counted links

A graph is given by the list `out d` of the links that leave each node `d`, and
the node `tgt e` to which a link leads. `inDegree` counts the links to a node over
a list of nodes, and `Leads` is the edge relation. Both are followed through the
addition and the removal of one link.
-/

namespace LinkGraph

open List

variable {ε : Type} (tgt : ε → Nat)

def inDegree (nodes : List Nat) (out : Nat → List ε) (k : Nat) : Nat :=
  (nodes.map fun d => (out d).countP fun e => tgt e = k).sum

def Leads (out : Nat → List ε) (d k : Nat) : Prop := ∃ e ∈ out d, tgt e = k

variable {tgt} {nodes : List Nat} {out out' : Nat → List ε}

theorem inDegree_congr (h : ∀ d ∈ nodes, out' d = out d) (k : Nat) :
    inDegree tgt nodes out' k = inDegree tgt nodes out k := by
  unfold inDegree
  congr 1
  exact map_congr_left fun d hd => by rw [h d hd]

theorem inDegree_insert (hn : nodes.Nodup) {d : Nat} (hd : d ∈ nodes) {e : ε}
    (hperm : (out' d).Perm (e :: out d)) (hother : ∀ j ∈ nodes, j ≠ d → out' j = out j) (k : Nat) :
    inDegree tgt nodes out' k = inDegree tgt nodes out k + if tgt e = k then 1 else 0 := by
  obtain ⟨l₁, l₂, rfl⟩ := append_of_mem hd
  rw [nodup_middle, nodup_cons] at hn
  have hrest : ∀ j ∈ l₁ ++ l₂, out' j = out j := by
    intro j hj
    refine hother j ?_ ?_
    · rw [mem_append] at hj
      rw [mem_append, mem_cons]
      tauto
    · rintro rfl
      exact hn.1 hj
  have h₁ : inDegree tgt l₁ out' k = inDegree tgt l₁ out k :=
    inDegree_congr (fun j hj => hrest j (by simp [hj])) k
  have h₂ : inDegree tgt l₂ out' k = inDegree tgt l₂ out k :=
    inDegree_congr (fun j hj => hrest j (by simp [hj])) k
  rw [inDegree] at h₁ h₂
  simp only [inDegree, map_append, map_cons, sum_append, sum_cons,
    hperm.countP_eq, countP_cons, h₁, h₂, decide_eq_true_eq]
  omega

theorem inDegree_eq_zero_iff {k : Nat} :
    inDegree tgt nodes out k = 0 ↔ ∀ d ∈ nodes, ¬Leads tgt out d k := by
  induction nodes with
  | nil => simp [inDegree]
  | cons d l ih =>
    have hcons : inDegree tgt (d :: l) out k =
        (out d).countP (fun e => tgt e = k) + inDegree tgt l out k := by simp [inDegree]
    rw [hcons, Nat.add_eq_zero_iff, ih, forall_mem_cons, countP_eq_zero]
    simp [Leads]

theorem reach_mono {root k : Nat} (h : Relation.ReflTransGen (Leads tgt out) root k)
    (hsub : ∀ d, ∀ e ∈ out d, e ∈ out' d) : Relation.ReflTransGen (Leads tgt out') root k := by
  have hlead : Leads tgt out ≤ Leads tgt out' := fun d _ ⟨e, he, hk⟩ => ⟨e, hsub d e he, hk⟩
  exact Relation.ReflTransGen.mono hlead _ _ h

/-- Without the links to a node from which no link leaves, the other nodes can
still be reached. -/
theorem reach_of_leaf {root k x : Nat} (h : Relation.ReflTransGen (Leads tgt out) root k)
    (hleaf : out x = []) (hsub : ∀ d, ∀ e ∈ out d, tgt e ≠ x → e ∈ out' d) (hk : k ≠ x) :
    Relation.ReflTransGen (Leads tgt out') root k := by
  induction h with
  | refl => exact .refl
  | @tail d k _ hlead ih =>
    obtain ⟨e, he, rfl⟩ := hlead
    have hd : d ≠ x := by
      rintro rfl
      rw [hleaf] at he
      cases he
    exact (ih hd).tail ⟨e, hsub d e he hk, rfl⟩

end LinkGraph
