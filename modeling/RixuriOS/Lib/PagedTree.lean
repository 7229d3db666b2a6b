import Mathlib

/-!
# Radix trees stored in pages

A table is a page with `n` entries, and an entry may link to a table one level
below. `nodes child n m h t` lists the tables of the tree of height `h` whose root
is the page `t`, each with its height, in post order; a tree of height 0 is a
single table whose entries are the leaves. An address is a function `ix` that
gives the index used at every height.

`Focus` describes the surroundings of the table that an address passes through at
height `k`: what is outside of that table's own subtree is untouched by any change
of memory inside of it.
-/

namespace PagedTree

open List Option

variable {E : Type*} {child : E → Option Nat} {n : Nat}

abbrev Mem (E : Type*) := Nat → Nat → E

variable (child n) in
def nodes (m : Mem E) : Nat → Nat → List (Nat × Nat)
  | 0, t => [(0, t)]
  | h + 1, t =>
    ((range n).flatMap fun i =>
      match child (m t i) with
      | some q => nodes m h q
      | none => []) ++ [(h + 1, t)]

variable (child n) in
def below (m : Mem E) (h : Nat) (e : E) : List (Nat × Nat) :=
  match child e with
  | some q => nodes child n m h q
  | none => []

variable (child) in
/-- The table that the address `ix` passes through at height `k`, starting at the table `t` of
height `k + d`. -/
def node (m : Mem E) (ix : Nat → Nat) (k : Nat) : Nat → Nat → Option Nat
  | 0, t => some t
  | d + 1, t =>
    match child (m t (ix (k + d + 1))) with
    | some q => node m ix k d q
    | none => none

variable (child) in
/-- The leaf entry at the address `ix`, if all tables on the way are there. -/
def leafAt (m : Mem E) (ix : Nat → Nat) (h t : Nat) : Option E :=
  (node child m ix 0 h t).map fun q => m q (ix 0)

theorem nodes_succ (m : Mem E) (h t : Nat) :
    nodes child n m (h + 1) t =
      ((range n).flatMap fun i => below child n m h (m t i)) ++ [(h + 1, t)] := rfl

theorem node_succ (m : Mem E) (ix : Nat → Nat) (k d t : Nat) :
    node child m ix k (d + 1) t = (child (m t (ix (k + d + 1)))).bind (node child m ix k d) := by
  rw [node]
  cases child (m t (ix (k + d + 1))) <;> rfl

theorem mem_nodes_self (m : Mem E) (h t : Nat) : (h, t) ∈ nodes child n m h t := by
  cases h with
  | zero => simp [nodes]
  | succ h => simp [nodes_succ]

variable {m m' : Mem E} {d h i k p q t : Nat} {x : Nat × Nat} {ix jx : Nat → Nat}

theorem mem_nodes_of_below (hi : i < n) (hx : x ∈ below child n m h (m t i)) :
    x ∈ nodes child n m (h + 1) t := by
  rw [nodes_succ]
  exact mem_append_left _ (mem_flatMap.2 ⟨i, mem_range.2 hi, hx⟩)

theorem nodes_of_no_child (h : Nat) (hc : ∀ i < n, child (m t i) = none) :
    nodes child n m h t = [(h, t)] := by
  cases h with
  | zero => rfl
  | succ h =>
  have : ((range n).flatMap fun i => below child n m h (m t i)) = [] :=
    flatMap_eq_nil_iff.2 fun i hi => by rw [below, hc i (mem_range.1 hi)]
  rw [nodes_succ, this, nil_append]

theorem nodes_congr (hm : ∀ x ∈ nodes child n m h t, m' x.2 = m x.2) :
    nodes child n m' h t = nodes child n m h t := by
  induction h generalizing t with
  | zero => rfl
  | succ h ih =>
    have ht : m' t = m t := hm _ (mem_nodes_self m (h + 1) t)
    rw [nodes_succ, nodes_succ, ht]
    congr 1
    refine flatMap_congr fun i hi => ?_
    have hsub := fun x hx => hm x (mem_nodes_of_below (mem_range.1 hi) hx)
    unfold below at hsub ⊢
    cases hc : child (m t i) with
    | none => rfl
    | some q =>
      rw [hc] at hsub
      exact ih hsub

theorem below_congr {e : E} (hm : ∀ x ∈ below child n m h e, m' x.2 = m x.2) :
    below child n m' h e = below child n m h e := by
  unfold below at hm ⊢
  cases hc : child e with
  | none => rfl
  | some q =>
    rw [hc] at hm
    exact nodes_congr hm

theorem mem_nodes_of_node (hix : ∀ j, ix j < n) (h : node child m ix k d t = some q) :
    (k, q) ∈ nodes child n m (k + d) t := by
  induction d generalizing t with
  | zero =>
    obtain rfl : t = q := by simpa [node] using h
    exact mem_nodes_self m k t
  | succ d ih =>
    rw [node_succ] at h
    obtain ⟨r, hr, h⟩ := bind_eq_some_iff.1 h
    refine mem_nodes_of_below (hix (k + d + 1)) ?_
    rw [below, hr]
    exact ih h

theorem node_congr (hix : ∀ j, ix j < n) (hm : ∀ x ∈ nodes child n m (k + d) t, m' x.2 = m x.2) :
    node child m' ix k d t = node child m ix k d t := by
  induction d generalizing t with
  | zero => rfl
  | succ d ih =>
    have ht : m' t = m t := hm _ (mem_nodes_self m (k + d + 1) t)
    rw [node_succ, node_succ, ht]
    have hsub := fun x hx => hm x (mem_nodes_of_below (hix (k + d + 1)) hx)
    unfold below at hsub
    cases hc : child (m t (ix (k + d + 1))) with
    | none => rfl
    | some q =>
      rw [hc] at hsub
      exact ih hsub

theorem leafAt_congr (hix : ∀ j, ix j < n) (hm : ∀ x ∈ nodes child n m h t, m' x.2 = m x.2) :
    leafAt child m' ix h t = leafAt child m ix h t := by
  have hz : 0 + h = h := Nat.zero_add h
  unfold leafAt
  rw [node_congr (n := n) hix (k := 0) (d := h) (t := t) (by rw [hz]; exact hm)]
  cases hq : node child m ix 0 h t with
  | none => rfl
  | some q =>
  have := hm (0, q) (by have := mem_nodes_of_node hix hq; rwa [hz] at this)
  simp only at this
  simp [this]

theorem leafAt_succ (m : Mem E) (ix : Nat → Nat) (h t : Nat) :
    leafAt child m ix (h + 1) t = (child (m t (ix (h + 1)))).bind (leafAt child m ix h) := by
  unfold leafAt
  rw [node_succ, Nat.zero_add]
  cases child (m t (ix (h + 1))) <;> rfl

theorem node_extend {r : Nat} (hq : node child m ix (k + 1) d t = some q)
    (hr : child (m q (ix (k + 1))) = some r) : node child m ix k (d + 1) t = some r := by
  induction d generalizing t with
  | zero =>
    obtain rfl : t = q := by simpa [node] using hq
    rw [node_succ, Nat.add_zero, hr]
    rfl
  | succ d ih =>
    rw [node_succ] at hq
    obtain ⟨s, hs, hq⟩ := bind_eq_some_iff.1 hq
    rw [node_succ, show k + (d + 1) + 1 = k + 1 + d + 1 by omega, hs]
    exact ih hq

theorem leafAt_of_node (hq : node child m ix k d t = some q)
    (hj : ∀ j, k < j → j ≤ k + d → jx j = ix j) :
    leafAt child m jx (k + d) t = leafAt child m jx k q := by
  induction d generalizing t with
  | zero =>
    obtain rfl : t = q := by simpa [node] using hq
    rfl
  | succ d ih =>
    rw [node_succ] at hq
    obtain ⟨s, hs, hq⟩ := bind_eq_some_iff.1 hq
    change leafAt child m jx (k + d + 1) t = _
    rw [leafAt_succ, hj (k + d + 1) (by omega) (by omega), hs]
    exact ih hq fun j h1 h2 => hj j h1 (by omega)

/-! ### The surroundings of a table -/

variable (child n) in
/-- The tables `pre` and `post` surround the subtree of the table `q` that the address `ix` passes
through at height `k`. -/
structure Focus (m : Mem E) (ix : Nat → Nat) (k d t q : Nat) (pre post : List (Nat × Nat)) :
    Prop where
  nodes_eq : ∀ m' : Mem E, (∀ x ∈ pre ++ post, m' x.2 = m x.2) →
    nodes child n m' (k + d) t = pre ++ nodes child n m' k q ++ post
  node_eq : ∀ m' : Mem E, (∀ x ∈ pre ++ post, m' x.2 = m x.2) → node child m' ix k d t = some q
  leaf_on : ∀ m' : Mem E, (∀ x ∈ pre ++ post, m' x.2 = m x.2) →
    ∀ jx : Nat → Nat, (∀ j, k < j → j ≤ k + d → jx j = ix j) →
      leafAt child m' jx (k + d) t = leafAt child m' jx k q
  leaf_off : ∀ m' : Mem E, (∀ x ∈ pre ++ post, m' x.2 = m x.2) →
    ∀ jx : Nat → Nat, (∀ j, jx j < n) → (∃ j, k < j ∧ j ≤ k + d ∧ jx j ≠ ix j) →
      leafAt child m' jx (k + d) t = leafAt child m jx (k + d) t

theorem flatMap_range_split {β : Type*} (f : Nat → List β) (hi : i < n) :
    (range n).flatMap f =
      (range i).flatMap f ++ f i ++ (range' (i + 1) (n - (i + 1))).flatMap f := by
  have hsplit : range n = range i ++ i :: range' (i + 1) (n - (i + 1)) := by
    have happ := List.range'_append_1 (s := 0) (m := i) (n := n - (i + 1) + 1)
    rw [Nat.zero_add, show i + (n - (i + 1) + 1) = n by omega, List.range'_succ] at happ
    rw [range_eq_range', ← happ, range_eq_range']
  rw [hsplit]
  simp

theorem exists_focus (hix : ∀ j, ix j < n) (h : node child m ix k d t = some q) :
    ∃ pre post, Focus child n m ix k d t q pre post := by
  induction d generalizing t with
  | zero =>
    obtain rfl : t = q := by simpa [node] using h
    exact ⟨[], [], fun m' _ => by simp, fun m' _ => rfl, fun m' _ jx _ => rfl,
      fun m' _ jx _ ⟨j, h1, h2, _⟩ => by omega⟩
  | succ d ih =>
    rw [node_succ] at h
    obtain ⟨r, hr, h⟩ := bind_eq_some_iff.1 h
    obtain ⟨pre, post, hf⟩ := ih h
    -- the siblings of the child on the way, and the table `t` itself, are outside
    let i := ix (k + d + 1)
    let left := (range i).flatMap fun j => below child n m (k + d) (m t j)
    let right := (range' (i + 1) (n - (i + 1))).flatMap fun j =>
      below child n m (k + d) (m t j)
    refine ⟨left ++ pre, post ++ (right ++ [(k + d + 1, t)]), ?_⟩
    have hleft : ∀ j < i, ∀ x ∈ below child n m (k + d) (m t j), x ∈ left := fun j hj x hx =>
      mem_flatMap.2 ⟨j, mem_range.2 hj, hx⟩
    have hright : ∀ j, i < j → j < n → ∀ x ∈ below child n m (k + d) (m t j), x ∈ right :=
      fun j hj hn x hx => mem_flatMap.2 ⟨j, mem_range'_1.2 ⟨by omega, by omega⟩, hx⟩
    have hsplit : ∀ m' : Mem E,
        (∀ x ∈ left ++ pre ++ (post ++ (right ++ [(k + d + 1, t)])), m' x.2 = m x.2) →
        m' t = m t ∧ (∀ x ∈ pre ++ post, m' x.2 = m x.2) ∧
        ∀ j < n, j ≠ i → ∀ x ∈ below child n m (k + d) (m t j), m' x.2 = m x.2 := by
      intro m' hm
      refine ⟨hm (k + d + 1, t) (by simp), fun x hx => hm x ?_, fun j hj hne x hx => hm x ?_⟩
      · simp only [mem_append] at hx ⊢
        tauto
      simp only [mem_append]
      obtain hlt | hgt := Nat.lt_or_gt_of_ne hne
      · exact .inl (.inl (hleft j hlt x hx))
      · exact .inr (.inr (.inl (hright j hgt hj x hx)))
    constructor
    · intro m' hm
      obtain ⟨ht, hin, hout⟩ := hsplit m' hm
      have hbelow : ∀ j < n, j ≠ i → below child n m' (k + d) (m t j) =
          below child n m (k + d) (m t j) := fun j hj hne => below_congr (hout j hj hne)
      have hmid : below child n m' (k + d) (m t i) = pre ++ nodes child n m' k q ++ post := by
        rw [below, hr]
        exact hf.nodes_eq m' hin
      have hl : ((range i).flatMap fun j => below child n m' (k + d) (m t j)) = left :=
        flatMap_congr fun j hj => hbelow j ((mem_range.1 hj).trans (hix _))
          (mem_range.1 hj).ne
      have hrt : ((range' (i + 1) (n - (i + 1))).flatMap fun j =>
          below child n m' (k + d) (m t j)) = right :=
        flatMap_congr fun j hj => by
          have := mem_range'_1.1 hj
          have := hix (k + d + 1)
          exact hbelow j (by omega) (by omega)
      change nodes child n m' (k + d + 1) t = _
      rw [nodes_succ, ht, flatMap_range_split _ (hix (k + d + 1)), hl, hmid, hrt]
      simp
    · intro m' hm
      obtain ⟨ht, hin, -⟩ := hsplit m' hm
      rw [node_succ, ht, hr]
      exact hf.node_eq m' hin
    · intro m' hm jx hj
      obtain ⟨ht, hin, -⟩ := hsplit m' hm
      change leafAt child m' jx (k + d + 1) t = _
      rw [leafAt_succ, ht, hj (k + d + 1) (by omega) (by omega), hr]
      exact hf.leaf_on m' hin jx fun j h1 h2 => hj j h1 (by omega)
    intro m' hm jx hjx ⟨j, h1, h2, hne⟩
    obtain ⟨ht, hin, hout⟩ := hsplit m' hm
    change leafAt child m' jx (k + d + 1) t = leafAt child m jx (k + d + 1) t
    rw [leafAt_succ, leafAt_succ, ht]
    by_cases htop : jx (k + d + 1) = i
    · have hjne : j ≠ k + d + 1 := fun he => hne (he ▸ htop)
      rw [htop, hr]
      exact hf.leaf_off m' hin jx hjx ⟨j, h1, by omega, hne⟩
    have := hout _ (hjx (k + d + 1)) htop
    unfold below at this
    cases hc : child (m t (jx (k + d + 1))) with
    | none => rfl
    | some r' =>
      rw [hc] at this
      exact leafAt_congr hjx this

/-! ### Changing one entry -/

def setEntry (m : Mem E) (q i : Nat) (e : E) : Mem E :=
  Function.update m q (Function.update (m q) i e)

theorem setEntry_of_ne (m : Mem E) (i : Nat) (e : E) (h : p ≠ q) :
    setEntry m q i e p = m p := Function.update_of_ne h _ _

theorem setEntry_self (m : Mem E) (q i : Nat) (e : E) : setEntry m q i e q i = e := by
  simp [setEntry]

@[simp] theorem setEntry_eq_self (m : Mem E) (q i : Nat) : setEntry m q i (m q i) = m := by
  simp [setEntry]

theorem setEntry_other (m : Mem E) {j : Nat} (e : E) (h : j ≠ i) :
    setEntry m q i e q j = m q j := by
  simp [setEntry, h]

variable (child n) in
def tables (m : Mem E) (h t : Nat) : List Nat := (nodes child n m h t).map Prod.snd

theorem mem_tables : p ∈ tables child n m h t ↔ ∃ k, (k, p) ∈ nodes child n m h t := by
  simp [tables]

theorem mem_tables_succ :
    p ∈ tables child n m (h + 1) t ↔
      p = t ∨ ∃ i < n, ∃ q, child (m t i) = some q ∧ p ∈ tables child n m h q := by
  simp only [tables, nodes_succ, map_append, mem_append, map_cons, map_nil,
    mem_singleton, map_flatMap, mem_flatMap, mem_range, below]
  rw [or_comm]
  refine or_congr Iff.rfl (exists_congr fun i => and_congr_right fun _ => ?_)
  cases child (m t i) with
  | none => simp
  | some q => simp

/-- Relinking entries to empty tables, or cutting them off, adds only these tables. -/
theorem mem_tables_of_relink (new : Nat → Prop) (hnew : ∀ q, new q → ∀ i < n, child (m' q i) = none)
    (hlink : ∀ t, ¬new t → ∀ i < n, child (m' t i) = child (m t i) ∨ child (m' t i) = none ∨
      ∃ q, child (m' t i) = some q ∧ new q) (hp : p ∈ tables child n m' h t) :
    p ∈ tables child n m h t ∨ new p := by
  induction h generalizing t with
  | zero => exact .inl hp
  | succ h ih =>
    rw [mem_tables_succ] at hp ⊢
    obtain rfl | ⟨i, hi, q, hq, hp⟩ := hp
    · exact .inl (.inl rfl)
    by_cases ht : new t
    · rw [hnew t ht i hi] at hq
      cases hq
    obtain hs | hs | ⟨q', hs, hq'⟩ := hlink t ht i hi
    · exact (ih hp).imp_left fun hp => .inr ⟨i, hi, q, hs.symm.trans hq, hp⟩
    · cases hs.symm.trans hq
    -- an empty table is all there is below it
    cases hq.symm.trans hs
    rw [tables, nodes_of_no_child h (hnew q hq')] at hp
    rw [map_singleton, mem_singleton] at hp
    exact .inr (hp ▸ hq')

variable {y : Nat × Nat} {post pre : List (Nat × Nat)}

theorem eq_of_snd_eq (hnd : (tables child n m h t).Nodup) (hx : x ∈ nodes child n m h t)
    (hy : y ∈ nodes child n m h t) (he : x.2 = y.2) : x = y :=
  inj_on_of_nodup_map hnd hx hy he

/-- Two addresses use the same indices at the heights from `k + 1` to `k + d`. -/
def AgreeAbove (ix jx : Nat → Nat) (k d : Nat) : Prop := ∀ j, k < j → j ≤ k + d → jx j = ix j

theorem node_of_agree (h : AgreeAbove ix jx k d) (t : Nat) :
    node child m jx k d t = node child m ix k d t := by
  induction d generalizing t with
  | zero => rfl
  | succ d ih =>
    rw [node_succ, node_succ, h (k + d + 1) (by omega) (by omega)]
    exact congrArg _ (funext (ih fun j h1 h2 => h j h1 (by omega)))

theorem not_agreeAbove (h : ¬AgreeAbove ix jx k d) : ∃ j, k < j ∧ j ≤ k + d ∧ jx j ≠ ix j := by
  simpa [AgreeAbove] using h

theorem Focus.outside (hf : Focus child n m ix k d t q pre post)
    (hnd : (tables child n m (k + d) t).Nodup) (hx : x ∈ pre ++ post)
    (hy : y ∈ nodes child n m k q) : x.2 ≠ y.2 := by
  rw [tables, hf.nodes_eq m fun _ _ => rfl] at hnd
  simp only [map_append, nodup_append, mem_append, List.mem_map] at hnd
  obtain ⟨⟨-, -, h1⟩, -, h2⟩ := hnd
  obtain hx | hx := mem_append.1 hx
  · exact h1 _ ⟨x, hx, rfl⟩ _ ⟨y, hy, rfl⟩
  · exact fun he => h2 _ (.inr ⟨y, hy, rfl⟩) _ ⟨x, hx, rfl⟩ he.symm

/-- Replacing an entry of a table of height `k + 1` replaces what is below that entry. -/
structure Replaced (m m' : Mem E) (ix : Nat → Nat) (k d t i : Nat) (e e' : E)
    (child : E → Option Nat) (n : Nat) (pre post : List (Nat × Nat)) : Prop where
  before : nodes child n m (k + 1 + d) t = pre ++ below child n m k e ++ post
  after : nodes child n m' (k + 1 + d) t = pre ++ below child n m k e' ++ post
  leaf_on : ∀ jx : Nat → Nat, AgreeAbove ix jx (k + 1) d → jx (k + 1) = i → (∀ j, jx j < n) →
    leafAt child m' jx (k + 1 + d) t = (child e').bind (leafAt child m jx k)
  leaf_off : ∀ jx : Nat → Nat, ¬(AgreeAbove ix jx (k + 1) d ∧ jx (k + 1) = i) →
    (∀ j, jx j < n) → leafAt child m' jx (k + 1 + d) t = leafAt child m jx (k + 1 + d) t

theorem nodes_setEntry (hix : ∀ j, ix j < n) (hnd : (tables child n m (k + 1 + d) t).Nodup)
    (hq : node child m ix (k + 1) d t = some q) (hi : i < n) :
    ∃ pre post, ∀ e', (∀ x ∈ below child n m k e', x.2 ≠ q) →
      Replaced m (setEntry m q i e') ix k d t i (m q i) e' child n pre post ∧
      node child (setEntry m q i e') ix (k + 1) d t = some q := by
  obtain ⟨pre, post, hf⟩ := exists_focus hix hq
  let left := (range i).flatMap fun j => below child n m k (m q j)
  let right := (range' (i + 1) (n - (i + 1))).flatMap fun j => below child n m k (m q j)
  refine ⟨pre ++ left, right ++ [(k + 1, q)] ++ post, fun e' he' => ?_⟩
  have hself : nodes child n m (k + 1) q =
      left ++ below child n m k (m q i) ++ right ++ [(k + 1, q)] := by
    rw [nodes_succ, flatMap_range_split _ hi]
  -- the table `q` is neither around itself nor below itself
  have hout : ∀ x ∈ pre ++ post, x.2 ≠ q := fun x hx => by
    have := hf.outside hnd hx (mem_nodes_self m (k + 1) q)
    exact this
  have hagree : ∀ x ∈ pre ++ post, setEntry m q i e' x.2 = m x.2 := fun x hx =>
    setEntry_of_ne m i e' (hout x hx)
  have hbelow : ∀ j < n, ∀ x ∈ below child n m k (m q j), x.2 ≠ q := by
    intro j hj x hx
    rw [tables, hf.nodes_eq m fun _ _ => rfl, nodes_succ] at hnd
    simp only [map_append, nodup_append, mem_append, List.mem_map,
      map_cons, map_nil, mem_singleton] at hnd
    exact hnd.1.2.1.2.2 _ ⟨x, mem_flatMap.2 ⟨j, mem_range.2 hj, hx⟩, rfl⟩ _ rfl
  have hsame : ∀ j < n, below child n (setEntry m q i e') k (m q j) =
      below child n m k (m q j) := fun j hj =>
    below_congr fun x hx => setEntry_of_ne m i e' (hbelow j hj x hx)
  have hnew : below child n (setEntry m q i e') k e' = below child n m k e' :=
    below_congr fun x hx => setEntry_of_ne m i e' (he' x hx)
  have hself' : nodes child n (setEntry m q i e') (k + 1) q =
      left ++ below child n m k e' ++ right ++ [(k + 1, q)] := by
    rw [nodes_succ, flatMap_range_split _ hi, setEntry_self, hnew]
    congr 2
    · congr 1
      refine flatMap_congr fun j hj => ?_
      have hj := mem_range.1 hj
      rw [setEntry_other m e' hj.ne, hsame j (hj.trans hi)]
    refine flatMap_congr fun j hj => ?_
    have hj := mem_range'_1.1 hj
    rw [setEntry_other m e' (by omega), hsame j (by omega)]
  refine ⟨⟨?_, ?_, fun jx hag hj hjx => ?_, fun jx hno hjx => ?_⟩, hf.node_eq _ hagree⟩
  · rw [hf.nodes_eq m fun _ _ => rfl, hself]
    simp
  · rw [hf.nodes_eq _ hagree, hself']
    simp
  · rw [hf.leaf_on _ hagree jx hag, leafAt_succ, hj, setEntry_self]
    cases hc : child e' with
    | none => rfl
    | some r =>
      refine leafAt_congr hjx fun x hx => setEntry_of_ne m i e' (he' x ?_)
      rwa [below, hc]
  by_cases hag : AgreeAbove ix jx (k + 1) d
  · have hj : jx (k + 1) ≠ i := fun hj => hno ⟨hag, hj⟩
    rw [hf.leaf_on _ hagree jx hag, hf.leaf_on m (fun _ _ => rfl) jx hag, leafAt_succ,
      leafAt_succ, setEntry_other m e' hj]
    have hb := hbelow (jx (k + 1)) (hjx _)
    unfold below at hb
    cases hc : child (m q (jx (k + 1))) with
    | none => rfl
    | some r =>
      rw [hc] at hb
      exact leafAt_congr hjx fun x hx => setEntry_of_ne m i e' (hb x hx)
  · exact hf.leaf_off _ hagree jx hjx (not_agreeAbove hag)

theorem nodes_setLeaf (hix : ∀ j, ix j < n) (hnd : (tables child n m d t).Nodup)
    (hq : node child m ix 0 d t = some q) (i : Nat) (e' : E) :
    nodes child n (setEntry m q i e') d t = nodes child n m d t ∧
    (∀ jx : Nat → Nat, AgreeAbove ix jx 0 d → jx 0 = i →
      leafAt child (setEntry m q i e') jx d t = some e') ∧
    ∀ jx : Nat → Nat, ¬(AgreeAbove ix jx 0 d ∧ jx 0 = i) → (∀ j, jx j < n) →
      leafAt child (setEntry m q i e') jx d t = leafAt child m jx d t := by
  obtain ⟨pre, post, hf⟩ := exists_focus hix hq
  have hagree : ∀ x ∈ pre ++ post, setEntry m q i e' x.2 = m x.2 := fun x hx =>
    setEntry_of_ne m i e' (hf.outside (by rwa [Nat.zero_add]) hx (mem_nodes_self m 0 q))
  have hz : 0 + d = d := Nat.zero_add d
  refine ⟨?_, fun jx hag hj => ?_, fun jx hno hjx => ?_⟩
  · have h1 := hf.nodes_eq _ hagree
    have h2 := hf.nodes_eq m fun _ _ => rfl
    rw [hz] at h1 h2
    rw [h1, h2]
    rfl
  · have h1 := hf.leaf_on _ hagree jx hag
    rw [hz] at h1
    rw [h1, leafAt, node, map_some, hj, setEntry_self]
  by_cases hag : AgreeAbove ix jx 0 d
  · have hj : jx 0 ≠ i := fun hj => hno ⟨hag, hj⟩
    have h1 := hf.leaf_on _ hagree jx hag
    have h2 := hf.leaf_on m (fun _ _ => rfl) jx hag
    rw [hz] at h1 h2
    rw [h1, h2, leafAt, leafAt, node, node, map_some, map_some, setEntry_other m e' hj]
  · have h1 := hf.leaf_off _ hagree jx hjx (not_agreeAbove hag)
    rwa [hz] at h1

/-! ### Pages owned by leaves -/

variable {own : E → Option Nat}

variable (n own) in
def leafPages (m : Mem E) (x : Nat × Nat) : List Nat :=
  if x.1 = 0 then (range n).flatMap fun i => (own (m x.2 i)).toList else []

variable (child n own) in
def ownedPages (m : Mem E) (h t : Nat) : List Nat :=
  (nodes child n m h t).flatMap (leafPages n own m)

theorem leafPages_congr (h : x.1 ≠ 0 ∨ m' x.2 = m x.2) :
    leafPages n own m' x = leafPages n own m x := by
  unfold leafPages
  split
  · rename_i h0
    rw [h.resolve_left fun hne => hne h0]
  · rfl

variable (own) in
theorem ownedPages_congr (hm : ∀ x ∈ nodes child n m h t, m' x.2 = m x.2) :
    ownedPages child n own m' h t = ownedPages child n own m h t := by
  unfold ownedPages
  rw [nodes_congr hm]
  exact flatMap_congr fun x hx => leafPages_congr (.inr (hm x hx))

theorem mem_ownedPages :
    p ∈ ownedPages child n own m h t ↔
      ∃ q, (0, q) ∈ nodes child n m h t ∧ ∃ i < n, own (m q i) = some p := by
  simp only [ownedPages, leafPages, mem_flatMap]
  constructor
  · rintro ⟨⟨k, q⟩, hq, hp⟩
    split at hp
    · rename_i h0
      obtain ⟨i, hi, hp⟩ := mem_flatMap.1 hp
      simp only at h0
      exact ⟨q, h0 ▸ hq, i, mem_range.1 hi, mem_toList.1 hp⟩
    · cases hp
  rintro ⟨q, hq, i, hi, hp⟩
  refine ⟨(0, q), hq, ?_⟩
  rw [if_pos rfl]
  exact mem_flatMap.2 ⟨i, mem_range.2 hi, mem_toList.2 hp⟩

variable (own) in
theorem count_ownedPages_setLeaf (hix : ∀ j, ix j < n) (hnd : (tables child n m d t).Nodup)
    (hq : node child m ix 0 d t = some q) (hi : i < n) (e' : E) (p : Nat) :
    (ownedPages child n own (setEntry m q i e') d t).count p + (own (m q i)).toList.count p =
      (ownedPages child n own m d t).count p + (own e').toList.count p := by
  obtain ⟨pre, post, hf⟩ := exists_focus hix hq
  have hz : 0 + d = d := Nat.zero_add d
  have hout : ∀ x ∈ pre ++ post, setEntry m q i e' x.2 = m x.2 := fun x hx =>
    setEntry_of_ne m i e' (hf.outside (by rwa [hz]) hx (mem_nodes_self m 0 q))
  have hnodes := hf.nodes_eq m fun _ _ => rfl
  rw [hz] at hnodes
  have hsame : ∀ l : List (Nat × Nat), (∀ x ∈ l, x ∈ pre ++ post) →
      l.flatMap (leafPages n own (setEntry m q i e')) = l.flatMap (leafPages n own m) :=
    fun l hl => flatMap_congr fun x hx => leafPages_congr (.inr (hout x (hl x hx)))
  have hrow : (leafPages n own (setEntry m q i e') (0, q)).count p + (own (m q i)).toList.count p =
      (leafPages n own m (0, q)).count p + (own e').toList.count p := by
    simp only [leafPages, if_true]
    rw [flatMap_range_split _ hi, flatMap_range_split _ hi, setEntry_self]
    have hl : ((range i).flatMap fun j => (own (setEntry m q i e' q j)).toList) =
        (range i).flatMap fun j => (own (m q j)).toList :=
      flatMap_congr fun j hj => by rw [setEntry_other m e' (mem_range.1 hj).ne]
    have hr : ((range' (i + 1) (n - (i + 1))).flatMap fun j =>
        (own (setEntry m q i e' q j)).toList) =
        (range' (i + 1) (n - (i + 1))).flatMap fun j => (own (m q j)).toList :=
      flatMap_congr fun j hj => by
        have := mem_range'_1.1 hj
        rw [setEntry_other m e' (by omega)]
    rw [hl, hr]
    simp only [count_append]
    omega
  unfold ownedPages
  rw [(nodes_setLeaf hix hnd hq i e').1, hnodes]
  simp only [nodes, flatMap_append, flatMap_cons, flatMap_nil, append_nil, count_append]
  rw [hsame pre fun x hx => mem_append_left _ hx,
    hsame post fun x hx => mem_append_right _ hx]
  omega

variable (own) in
/-- Replacing an entry of a higher table leaves the owned pages of the other tables alone. -/
theorem Replaced.owned_after {e' : E}
    (h : Replaced m (setEntry m q i e') ix k d t i (m q i) e' child n pre post)
    (hq : ∀ x ∈ pre ++ below child n m k e' ++ post, x.1 = 0 → x.2 ≠ q) :
    ownedPages child n own (setEntry m q i e') (k + 1 + d) t =
      (pre ++ below child n m k e' ++ post).flatMap (leafPages n own m) := by
  unfold ownedPages
  rw [h.after]
  refine flatMap_congr fun x hx => leafPages_congr ?_
  by_cases h0 : x.1 = 0
  · exact .inr (setEntry_of_ne m i e' (hq x hx h0))
  · exact .inl h0

end PagedTree
