import RixuriOS.Process.UserTree

/-!
# Changes of one table entry

The functions of `vmm.c` change an address space in three ways: a fresh empty
table is linked, an empty table is cut off and given back, and a leaf entry is
replaced. Each of the three keeps `UserTree`.
-/

namespace RixuriOS.Process

open Mm PagedTree List Option Machine

variable {p r pt : Nat} {x : Nat × Nat} {ix jx : Nat → Nat} {f : Entry}

theorem tables_eq (m : Machine) (root : Nat) :
    tables child tableEntries m.mem 3 root = (tree m root).map Prod.snd := rfl

theorem ownedPages_eq (m : Machine) (root : Nat) :
    ownedPages child tableEntries own m.mem 3 root =
      (tree m root).flatMap (leafPages tableEntries own m.mem) := rfl

theorem root_mem_tree (m : Machine) (root : Nat) : (3, root) ∈ tree m root :=
  mem_nodes_self m.mem 3 root

variable {m m' : Machine} {d k q root va : Nat} {e' : Entry}

theorem mem_pages_of_tree (hx : x ∈ tree m root) : x.2 ∈ pages m root :=
  mem_append_left _ (List.mem_map.2 ⟨x, hx, rfl⟩)

theorem ne_of_outside (hp : p ∉ pages m root) (hx : x ∈ tree m root) :
    x.2 ≠ p := fun he => hp (he ▸ mem_pages_of_tree hx)

theorem mem_tree_of_node (hk : k + d = 3) (hq : node child m.mem (index va) k d root = some q) :
    (k, q) ∈ tree m root := by
  have := mem_nodes_of_node (index_lt va) hq
  rwa [hk] at this

section

variable (h : UserTree m root)

include h

theorem UserTree.nodup_tables : (tables child tableEntries m.mem 3 root).Nodup :=
  (nodup_append.1 h.nodup).1

theorem UserTree.eq_of_snd {y : Nat × Nat} (hx : x ∈ tree m root) (hy : y ∈ tree m root)
    (he : x.2 = y.2) : x = y :=
  eq_of_snd_eq h.nodup_tables hx hy he

theorem UserTree.ne_of_owned (hx : x ∈ tree m root)
    (hp : p ∈ ownedPages child tableEntries own m.mem 3 root) : p ≠ x.2 := fun he =>
  (nodup_append.1 h.nodup).2.2 x.2 (List.mem_map.2 ⟨x, hx, rfl⟩) p hp he.symm

theorem UserTree.not_mem_of_free (hp : p ∈ m.pmm.freeSet) : p ∉ pages m root :=
  fun hc => (h.live p hc).not_free hp

theorem UserTree.height_eq_three (hq : (k, q) ∈ tree m root) (he : q = root) : k = 3 :=
  congrArg Prod.fst (h.eq_of_snd hq (root_mem_tree m root) he)

end

section

variable (hm : ∀ x ∈ tree m root, m'.mem x.2 = m.mem x.2)

include hm

theorem tree_congr : tree m' root = tree m root := nodes_congr hm

theorem pages_congr : pages m' root = pages m root := by
  rw [pages, pages, ownedPages_congr own hm, tables_eq, tables_eq, tree_congr hm]

end

theorem leafVal_congr (hix : ValidIndex ix)
    (hm : ∀ x ∈ tree m root, m'.mem x.2 = m.mem x.2) : leafVal m' root ix = leafVal m root ix :=
  congrArg (Option.getD · 0) (leafAt_congr hix hm)

variable {mem : PagedTree.Mem Entry} {i t : Nat}

theorem leafAt_of_absent (hq : node child mem ix (k + 1) d t = some q)
    (hag : AgreeAbove ix jx (k + 1) d) (hj : jx (k + 1) = ix (k + 1))
    (ha : (mem q (ix (k + 1))).present = false) : leafAt child mem jx (k + 1 + d) t = none := by
  rw [leafAt_of_node hq hag, leafAt_succ, hj, child_of_absent ha]
  rfl

theorem leafAt_of_zero (h0 : ∀ i < tableEntries, mem t i = 0) (jx : Nat → Nat)
    (hjx : ValidIndex jx) (k : Nat) : (leafAt child mem jx k t).getD 0 = 0 := by
  cases k with
  | zero => simp [leafAt, node, h0 _ (hjx 0)]
  | succ k =>
    rw [leafAt_succ, h0 _ (hjx (k + 1)), child_of_absent rfl]
    rfl

/-! ### Replacing a link -/

private theorem mem_of_mem_replaced {α : Type*} {pre post new : List α} (old : List α) {x : α}
    (hx : x ∈ pre ++ new ++ post) : x ∈ pre ++ old ++ post ∨ x ∈ new := by
  simp only [mem_append] at hx ⊢
  tauto

structure Relinked (m m' : Machine) (root va k d q : Nat) (mem1 : PagedTree.Mem Entry) (e' : Entry)
    (old new : List (Nat × Nat)) : Prop where
  lists : ∃ pre post, tree m root = pre ++ old ++ post ∧ tree m' root = pre ++ new ++ post
  owned : ownedPages child tableEntries own m'.mem 3 root =
    ownedPages child tableEntries own m.mem 3 root
  perm : (pages m' root ++ old.map Prod.snd).Perm (pages m root ++ new.map Prod.snd)
  node_eq : node child m'.mem (index va) (k + 1) d root = some q
  leaf_on : ∀ jx, ValidIndex jx → AgreeAbove (index va) jx (k + 1) d →
    jx (k + 1) = index va (k + 1) →
    leafAt child m'.mem jx 3 root = (child e').bind (leafAt child mem1 jx k)
  leaf_off : ∀ jx, ValidIndex jx →
    ¬(AgreeAbove (index va) jx (k + 1) d ∧ jx (k + 1) = index va (k + 1)) →
    leafAt child m'.mem jx 3 root = leafAt child m.mem jx 3 root

section

variable {mem1 : PagedTree.Mem Entry} {old new : List (Nat × Nat)} (h : UserTree m root)
  (hk : k + 1 + d = 3) (hq : node child m.mem (index va) (k + 1) d root = some q)
  (hmem1 : ∀ x ∈ tree m root, mem1 x.2 = m.mem x.2)
  (hm' : m'.mem = setEntry mem1 q (index va (k + 1)) e')

include h hk hq hmem1 hm'

theorem UserTree.relink
    (hold : below child tableEntries m.mem k (m.mem q (index va (k + 1))) = old)
    (hnew : below child tableEntries mem1 k e' = new) (hnewq : ∀ x ∈ new, x.2 ≠ q)
    (hold0 : old.flatMap (leafPages tableEntries own m.mem) = [])
    (hnew0 : new.flatMap (leafPages tableEntries own mem1) = []) :
    Relinked m m' root va k d q mem1 e' old new := by
  have hqt : (k + 1, q) ∈ tree m root := mem_tree_of_node hk hq
  have hnodes1 : nodes child tableEntries mem1 3 root = tree m root := nodes_congr hmem1
  have hq1 : node child mem1 (index va) (k + 1) d root = some q := by
    rw [← hq]
    exact node_congr (index_lt va) (by rw [hk]; exact hmem1)
  have hnd1 : (tables child tableEntries mem1 (k + 1 + d) root).Nodup := by
    rw [tables, hk, hnodes1]
    exact h.nodup_tables
  have hold1 : below child tableEntries mem1 k (mem1 q (index va (k + 1))) = old := by
    rw [← hold, hmem1 _ hqt]
    refine below_congr fun x hx => hmem1 x ?_
    have hsub := mem_nodes_of_below (t := q) (index_lt va (k + 1)) hx
    obtain ⟨pre, post, hf⟩ := exists_focus (index_lt va) hq
    have := hf.nodes_eq m.mem fun _ _ => rfl
    rw [hk] at this
    rw [tree, this]
    exact mem_append_left _ (mem_append_right _ hsub)
  obtain ⟨pre, post, hrep⟩ := nodes_setEntry (index_lt va) hnd1 hq1 (index_lt va (k + 1))
  obtain ⟨hrep, hq'⟩ := hrep e' (by rw [hnew]; exact hnewq)
  have hbefore : tree m root = pre ++ old ++ post := by
    rw [← hnodes1, ← hk, hrep.before, hold1]
  have hafter : tree m' root = pre ++ new ++ post := by
    rw [tree, hm', ← hk, hrep.after, hnew]
  -- the tables around the link are no leaf tables at `q`, so they own what they owned
  have howned : ownedPages child tableEntries own m'.mem 3 root =
      ownedPages child tableEntries own m.mem 3 root := by
    have hq0 : ∀ x ∈ pre ++ new ++ post, x.1 = 0 → x.2 ≠ q := by
      intro x hx h0 he
      obtain hx' | hx' := mem_of_mem_replaced old hx
      · rw [← hbefore] at hx'
        rw [h.eq_of_snd hx' hqt he] at h0
        cases h0
      · exact hnewq x hx' he
    have hafter' := hrep.owned_after own (by rw [hnew]; exact hq0)
    rw [hnew, hk] at hafter'
    have hpre : pre.flatMap (leafPages tableEntries own mem1) =
        pre.flatMap (leafPages tableEntries own m.mem) :=
      flatMap_congr fun x hx => leafPages_congr (.inr (hmem1 x (by simp [hbefore, hx])))
    have hpost : post.flatMap (leafPages tableEntries own mem1) =
        post.flatMap (leafPages tableEntries own m.mem) :=
      flatMap_congr fun x hx => leafPages_congr (.inr (hmem1 x (by simp [hbefore, hx])))
    rw [hm', hafter', ownedPages_eq, hbefore]
    simp only [flatMap_append, hold0, hnew0, hpre, hpost]
  refine ⟨⟨pre, post, hbefore, hafter⟩, howned, ?_, by rw [hm']; exact hq', fun jx hjx hag hj => ?_,
    fun jx hjx hno => ?_⟩
  · rw [pages, pages, howned, tables_eq, tables_eq, hbefore, hafter, perm_iff_count]
    intro p
    simp only [map_append, count_append]
    omega
  · have := hrep.leaf_on jx hag hj hjx
    rwa [hk, ← hm'] at this
  have := hrep.leaf_off jx hno hjx
  rw [hk, ← hm'] at this
  exact this.trans (leafAt_congr hjx hmem1)

theorem UserTree.shape_relink (hr : Relinked m m' root va k d q mem1 e' old new)
    (hnewq : ∀ x ∈ new, x.2 ≠ q) (he' : EntryOk (k + 1) (index va (k + 1)) e')
    (hnew : ∀ x ∈ new, ∀ i < tableEntries, EntryOk x.1 i (mem1 x.2 i)) :
    ∀ x ∈ tree m' root, ∀ i < tableEntries, EntryOk x.1 i (m'.mem x.2 i) := by
  have hqt : (k + 1, q) ∈ tree m root := mem_tree_of_node hk hq
  obtain ⟨pre, post, hbefore, hafter⟩ := hr.lists
  intro x hx i hi
  rw [hafter] at hx
  rw [hm']
  obtain hx' | hx' := mem_of_mem_replaced old hx
  · rw [← hbefore] at hx'
    by_cases hxq : x.2 = q
    · obtain rfl := h.eq_of_snd hx' hqt hxq
      by_cases hii : i = index va (k + 1)
      · rw [hii, setEntry_self]
        exact he'
      · rw [setEntry_other _ _ hii, hmem1 _ hx']
        exact h.shape _ hx' i hi
    · rw [setEntry_of_ne _ _ _ hxq, hmem1 x hx']
      exact h.shape x hx' i hi
  · rw [setEntry_of_ne _ _ _ (hnewq x hx')]
    exact hnew x hx' i hi

theorem UserTree.borrowed_relink (hva : userSlot (index va 3) = true) (hi : userSlot i = false) :
    m'.mem root i = m.mem root i := by
  have hqt : (k + 1, q) ∈ tree m root := mem_tree_of_node hk hq
  have hroot : mem1 root = m.mem root := hmem1 _ (root_mem_tree m root)
  rw [hm']
  by_cases hqroot : q = root
  · have hk3 : k + 1 = 3 := h.height_eq_three hqt hqroot
    rw [hqroot, setEntry_other, hroot]
    rintro rfl
    rw [hk3, hva] at hi
    cases hi
  · rw [setEntry_of_ne _ _ _ (Ne.symm hqroot), hroot]

end

/-- A change of the tables that no leaf shows and that keeps the owned pages with their content. -/
structure Quiet (m m' : Machine) (root : Nat) : Prop where
  evolves : Evolves m m' root []
  leaf : ∀ jx, ValidIndex jx → leafVal m' root jx = leafVal m root jx
  owned : ownedPages child tableEntries own m'.mem 3 root =
    ownedPages child tableEntries own m.mem 3 root
  data : ∀ p ∈ ownedPages child tableEntries own m.mem 3 root, m'.mem p = m.mem p

theorem Quiet.refl (hok : m.Ok) (h : UserTree m root) :
    Quiet m m root := ⟨.refl hok h, fun _ _ => rfl, rfl, fun _ _ => rfl⟩

theorem Quiet.trans {m'' : Machine} (h : Quiet m m' root) (h' : Quiet m' m'' root) :
    Quiet m m'' root :=
  ⟨h.evolves.trans h'.evolves, fun jx hjx => (h'.leaf jx hjx).trans (h.leaf jx hjx),
    h'.owned.trans h.owned, fun p hp => (h'.data p (by rwa [h.owned])).trans (h.data p hp)⟩

/-! ### Linking a fresh table -/

def attached (m : Machine) (q i r : Nat) (f : Entry) : Machine :=
  ((m.grab r).fill r fun _ => 0).write q i (mkEntry (r * pageSize) f)

structure LinkFlags (f : Entry) : Prop where
  present : f.present = true
  user : f.user = true
  small : f.ps = false
  frame : f &&& pageMask = 0

theorem maxPages_le : maxPages ≤ 2 ^ 40 := by decide

theorem LinkFlags.child_eq (hf : LinkFlags f) (hr : r < maxPages) :
    child (mkEntry (r * pageSize) f) = some r := by
  have hr' := hr.trans_le maxPages_le
  simp [child, present_mkEntry hr', user_mkEntry hr', ps_mkEntry hr', frame_mkEntry hr' hf.frame,
    hf.present, hf.user, hf.small]

theorem LinkFlags.entryOk (hf : LinkFlags f) (hr : r < maxPages) {h : Nat}
    (hi : (h != 3 || userSlot i) = true) : EntryOk h i (mkEntry (r * pageSize) f) := by
  have hr' := hr.trans_le maxPages_le
  refine ⟨fun hp => ?_, fun _ => ?_, fun _ _ => ?_⟩
  · rw [present_mkEntry hr', hf.present] at hp
    cases hp
  · rw [user_mkEntry hr', hf.user, hi]
  · rw [ps_mkEntry hr', hf.small]

theorem userIndex (hva : userSlot (index va 3) = true) (k : Nat) :
    (k != 3 || userSlot (index va k)) = true := by
  by_cases hk : k = 3
  · rw [hk, hva, Bool.or_true]
  · simp [hk]

theorem UserTree.attach (hok : m.Ok) (h : UserTree m root) (hk : k + 1 + d = 3)
    (hva : userSlot (index va 3) = true) (hq : node child m.mem (index va) (k + 1) d root = some q)
    (habs : (m.mem q (index va (k + 1))).present = false) (hr : r ∈ m.pmm.freeSet)
    (hf : LinkFlags f) :
    Quiet m (attached m q (index va (k + 1)) r f) root ∧
    node child (attached m q (index va (k + 1)) r f).mem (index va) k (d + 1) root = some r := by
  have hrlt := (Pmm.mem_freeSet.1 hr).1
  have hrout := h.not_mem_of_free hr
  have hqt : (k + 1, q) ∈ tree m root := mem_tree_of_node hk hq
  have hqr : q ≠ r := ne_of_outside hrout hqt
  generalize hm' : attached m q (index va (k + 1)) r f = m'
  -- clearing the fresh page is not visible in the tree
  let mem1 := Function.update m.mem r fun _ => (0 : Entry)
  have hmem1 : ∀ x ∈ tree m root, mem1 x.2 = m.mem x.2 := fun x hx =>
    Function.update_of_ne (ne_of_outside hrout hx) _ _
  have hmem : m'.mem = setEntry mem1 q (index va (k + 1)) (mkEntry (r * pageSize) f) := by
    rw [← hm']
    rfl
  have hzero : ∀ i, mem1 r i = 0 := fun i => by simp [mem1]
  have hchild := hf.child_eq hrlt
  have hnewq : ∀ x ∈ [(k, r)], x.2 ≠ q := by simpa using Ne.symm hqr
  have hrel : Relinked m m' root va k d q mem1 (mkEntry (r * pageSize) f) [] [(k, r)] := by
    refine h.relink hk hq hmem1 hmem ?_ ?_ hnewq rfl ?_
    · rw [below, child_of_absent habs]
    · rw [below, hchild]
      exact nodes_of_no_child k fun i _ => by rw [hzero]; rfl
    rw [flatMap_singleton]
    unfold leafPages
    split
    · exact flatMap_eq_nil_iff.2 fun i _ => by rw [hzero]; rfl
    · rfl
  have hperm : (pages m' root).Perm (r :: pages m root) := by
    have := hrel.perm
    rw [map_nil, append_nil, map_cons] at this
    exact this.trans (perm_append_singleton r _)
  have hpmm : m'.pmm = m.pmm.take r := by rw [← hm']; rfl
  have hlive : ∀ p ∈ r :: pages m root, m'.pmm.Live p := by
    intro p hp
    rw [hpmm]
    obtain rfl | hp := mem_cons.1 hp
    · exact ⟨hrlt, (Pmm.mem_freeSet.1 hr).2.1, by simp, hok.wf.unreserved hr⟩
    · have hl := h.live p hp
      exact ⟨hl.lt, hl.managed, by simp [hl.used], hl.unreserved⟩
  have hkeep : ∀ p, p ≠ q → p ≠ r → m'.mem p = m.mem p := fun p hpq hpr => by
    rw [hmem, setEntry_of_ne _ _ _ hpq]
    exact Function.update_of_ne hpr _ _
  refine ⟨⟨⟨?_, ⟨?_, fun p hp => hlive p (hperm.subset hp), ?_⟩, by rw [← hm']; rfl,
    fun i hi => h.borrowed_relink hk hq hmem1 hmem hva hi, fun p => by rw [hpmm]; rfl,
    fun p => by rw [hpmm]; rfl, fun p hp hfr _ => ?_, fun p hp => ?_, fun p hp => ?_,
    fun p hp => ?_, fun p => ?_⟩, fun jx hjx => ?_, hrel.owned, fun p hp => ?_⟩,
    node_extend hrel.node_eq (by rw [hmem, setEntry_self]; exact hchild)⟩
  · rw [← hm']
    exact ⟨(hok.grab hr).wf, (hok.grab hr).zero⟩
  · exact hperm.nodup_iff.2 (nodup_cons.2 ⟨hrout, h.nodup⟩)
  · refine h.shape_relink hk hq hmem1 hmem hrel hnewq (hf.entryOk hrlt (userIndex hva (k + 1))) ?_
    intro x hx i _
    obtain rfl := mem_singleton.1 hx
    rw [hzero]
    exact entryOk_zero _ _
  · have hpr : p ≠ r := fun he => hfr (he ▸ hr)
    have hpq : p ≠ q := fun he => ne_of_outside hp hqt he.symm
    exact ⟨hkeep p hpq hpr, by rw [hpmm]; simp [hpr]⟩
  · obtain rfl | hp := mem_cons.1 (hperm.subset hp)
    · exact .inr (.inl hr)
    · exact .inl hp
  · have hin := hperm.symm.subset (a := p)
    rw [hpmm, Pmm.freeSet_take, Finset.mem_erase]
    obtain hp | hp | hp := hp
    · exact .inl (hin (mem_cons_of_mem r hp))
    · by_cases hpr : p = r
      · exact .inl (hin (hpr ▸ mem_cons_self))
      · exact .inr ⟨hpr, hp⟩
    · cases hp
  · rw [← hm'] at hp
    obtain rfl | hp := mem_cons.1 hp
    · exact .inr (.inr (.inl hr))
    · exact .inl hp
  · rw [hperm.count_eq p, ← hm']
    simp only [attached, write_returned, fill_returned, grab_returned,
      write_allocated, fill_allocated, grab_allocated, count_nil,
      count_cons]
    omega
  · unfold leafVal
    by_cases hon : AgreeAbove (index va) jx (k + 1) d ∧ jx (k + 1) = index va (k + 1)
    · have hold := leafAt_of_absent hq hon.1 hon.2 habs
      rw [hk] at hold
      rw [hold, hrel.leaf_on jx hjx hon.1 hon.2, hchild]
      exact leafAt_of_zero (fun i _ => hzero i) jx hjx k
    · rw [hrel.leaf_off jx hjx hon]
  · exact hkeep p (h.ne_of_owned hqt hp) fun he => hrout (he ▸ mem_append_right _ hp)

/-! ### Cutting off an empty table -/

def detached (m : Machine) (q i r : Nat) : Machine := (m.write q i 0).drop r

theorem UserTree.detach (hok : m.Ok) (h : UserTree m root) (hk : k + 1 + d = 3)
    (hva : userSlot (index va 3) = true) (hq : node child m.mem (index va) (k + 1) d root = some q)
    (hr : child (m.mem q (index va (k + 1))) = some r)
    (hempty : ∀ i < tableEntries, (m.mem r i).present = false) :
    Quiet m (detached m q (index va (k + 1)) r) root := by
  have hqt : (k + 1, q) ∈ tree m root := mem_tree_of_node hk hq
  have hrt : (k, r) ∈ tree m root := mem_tree_of_node (by omega) (node_extend hq hr)
  have hrl : m.pmm.Live r := h.live r (mem_pages_of_tree hrt)
  have hzero : ∀ i < tableEntries, m.mem r i = 0 := fun i hi =>
    (h.shape _ hrt i hi).absent (hempty i hi)
  generalize hm' : detached m q (index va (k + 1)) r = m'
  have hmem : m'.mem = setEntry m.mem q (index va (k + 1)) 0 := by rw [← hm']; rfl
  have hmem1 : ∀ x ∈ tree m root, m.mem x.2 = m.mem x.2 := fun _ _ => rfl
  have hrel : Relinked m m' root va k d q m.mem 0 [(k, r)] [] := by
    refine h.relink hk hq hmem1 hmem ?_ rfl (by simp) ?_ rfl
    · rw [below, hr]
      exact nodes_of_no_child k fun i hi => child_of_absent (hempty i hi)
    rw [flatMap_singleton]
    unfold leafPages
    split
    · exact flatMap_eq_nil_iff.2 fun i hi => by
        rw [own_of_absent (hempty i (mem_range.1 hi))]
        rfl
    · rfl
  have hperm : (r :: pages m' root).Perm (pages m root) := by
    have := hrel.perm
    rw [map_nil, append_nil, map_cons] at this
    exact (perm_append_singleton r _).symm.trans this
  have hnd := hperm.nodup_iff.2 h.nodup
  have hsub : ∀ p ∈ pages m' root, p ∈ pages m root := fun p hp =>
    hperm.subset (mem_cons_of_mem r hp)
  have hpmm : m'.pmm = m.pmm.give r := by rw [← hm']; rfl
  refine ⟨⟨?_, ⟨(nodup_cons.1 hnd).2, fun p hp => ?_, ?_⟩, by rw [← hm']; rfl,
    fun i hi => h.borrowed_relink hk hq hmem1 hmem hva hi, fun p => by rw [hpmm]; rfl,
    fun p => by rw [hpmm]; rfl, fun p hp _ _ => ?_, fun p hp => .inl (hsub p hp), fun p hp => ?_,
    fun p hp => .inl (by rwa [← hm'] at hp), fun p => ?_⟩, fun jx hjx => ?_, hrel.owned,
    fun p hp => ?_⟩
  · rw [← hm']
    exact ⟨(hok.drop hrl).wf, (hok.drop hrl).zero⟩
  · have hl := h.live p (hsub p hp)
    have hpr : p ≠ r := fun he => (nodup_cons.1 hnd).1 (he ▸ hp)
    rw [hpmm]
    exact ⟨hl.lt, hl.managed, by simp [hl.used, hpr], hl.unreserved⟩
  · exact h.shape_relink hk hq hmem1 hmem hrel (by simp) (entryOk_zero _ _) (by simp)
  · have hpq : p ≠ q := fun he => ne_of_outside hp hqt he.symm
    have hpr : p ≠ r := fun he => ne_of_outside hp hrt he.symm
    exact ⟨by rw [hmem, setEntry_of_ne _ _ _ hpq], by rw [hpmm]; simp [hpr]⟩
  · rw [hpmm, Pmm.freeSet_give hrl.lt hrl.managed, Finset.mem_insert]
    obtain hp | hp | hp := hp
    · obtain hpr | hp := mem_cons.1 (hperm.symm.subset hp)
      · exact .inr (.inl hpr)
      · exact .inl hp
    · exact .inr (.inr hp)
    · cases hp
  · have := hperm.count_eq p
    rw [count_cons] at this
    rw [← this, ← hm']
    simp only [detached, drop_returned, write_returned, drop_allocated,
      write_allocated, count_nil, count_cons]
    omega
  · unfold leafVal
    by_cases hon : AgreeAbove (index va) jx (k + 1) d ∧ jx (k + 1) = index va (k + 1)
    · have hold := (leafAt_of_node hq hon.1).trans (leafAt_succ m.mem jx k q)
      rw [hk, hon.2, hr] at hold
      rw [hold, hrel.leaf_on jx hjx hon.1 hon.2, child_of_absent rfl]
      exact (leafAt_of_zero hzero jx hjx k).symm
    · rw [hrel.leaf_off jx hjx hon]
  · rw [hmem, setEntry_of_ne _ _ _ (h.ne_of_owned hqt hp)]

/-! ### Replacing a leaf -/

def SameAddress (ix jx : Nat → Nat) : Prop := ∀ j ≤ 3, jx j = ix j

theorem sameAddress_iff : SameAddress ix jx ↔ AgreeAbove ix jx 0 3 ∧ jx 0 = ix 0 := by
  constructor
  · exact fun h => ⟨fun j _ hj => h j (by omega), h 0 (by omega)⟩
  rintro ⟨h, h0⟩ j hj
  obtain rfl | hpos := Nat.eq_zero_or_pos j
  · exact h0
  · exact h j hpos (by omega)

theorem leafVal_same (h : SameAddress ix jx) : leafVal m root jx = leafVal m root ix := by
  obtain ⟨hag, h0⟩ := sameAddress_iff.1 h
  rw [leafVal, leafVal, leafAt, leafAt, node_of_agree hag, h0]

/-- The leaves at addresses other than `va` are the same in both states. -/
abbrev SameElsewhere (m m' : Machine) (root va : Nat) : Prop :=
  ∀ jx, ValidIndex jx → ¬SameAddress (index va) jx → leafVal m' root jx = leafVal m root jx

/-- Replacing a leaf entry by `e'` keeps the tables and exchanges the owned page. -/
structure LeafSet (m m' : Machine) (root va pt : Nat) (e' : Entry) : Prop where
  tree_eq : tree m' root = tree m root
  count : ∀ p, (pages m' root).count p + (own (m.mem pt (index va 0))).toList.count p =
    (pages m root).count p + (own e').toList.count p
  leaf_same : ∀ jx : Nat → Nat, SameAddress (index va) jx → leafVal m' root jx = e'
  leaf_other : SameElsewhere m m' root va
  shape : ∀ x ∈ tree m' root, ∀ i < tableEntries, EntryOk x.1 i (m'.mem x.2 i)
  borrowed : ∀ i, userSlot i = false → m'.mem root i = m.mem root i
  outside : ∀ p, p ∉ pages m root → m'.mem p = m.mem p

theorem UserTree.setLeaf (h : UserTree m root) (hq : node child m.mem (index va) 0 3 root = some pt)
    (hm' : m'.mem = setEntry m.mem pt (index va 0) e') (he' : EntryOk 0 (index va 0) e') :
    LeafSet m m' root va pt e' := by
  have hqt : (0, pt) ∈ tree m root := mem_tree_of_node rfl hq
  obtain ⟨hnodes, hon, hoff⟩ := nodes_setLeaf (index_lt va) h.nodup_tables hq (index va 0) e'
  have htree : tree m' root = tree m root := by rw [tree, hm', hnodes]; rfl
  refine ⟨htree, fun p => ?_, fun jx hs => ?_, fun jx hjx hs => ?_, fun x hx i hi => ?_,
    fun i _ => ?_, fun p hp => ?_⟩
  · have := count_ownedPages_setLeaf own (index_lt va) h.nodup_tables hq (index_lt va 0)
      e' p
    rw [pages, pages, tables_eq, tables_eq, htree, count_append, count_append, hm']
    omega
  · obtain ⟨h1, h2⟩ := sameAddress_iff.1 hs
    rw [leafVal, hm', hon jx h1 h2]
    rfl
  · rw [leafVal, hm', hoff jx (fun hc => hs (sameAddress_iff.2 hc)) hjx]
    rfl
  · rw [htree] at hx
    rw [hm']
    by_cases hxq : x.2 = pt
    · obtain rfl := h.eq_of_snd hx hqt hxq
      by_cases hii : i = index va 0
      · rw [hii, setEntry_self]
        exact he'
      · rw [setEntry_other _ _ hii]
        exact h.shape _ hx i hi
    · rw [setEntry_of_ne _ _ _ hxq]
      exact h.shape x hx i hi
  · have hne : root ≠ pt := fun he => by
      have := h.height_eq_three hqt he.symm
      cases this
    rw [hm', setEntry_of_ne _ _ _ hne]
  · rw [hm', setEntry_of_ne _ _ _ (Ne.symm (ne_of_outside hp hqt))]

theorem leafVal_of_node (hq : node child m.mem (index va) 0 3 root = some pt) :
    leafVal m root (index va) = m.mem pt (index va 0) := by
  rw [leafVal, leafAt, hq]
  rfl

/-- Mapping a page: an absent leaf is replaced, and the address space takes over what the new one
owns. -/
theorem UserTree.evolves_map (hok : m.Ok) (h : UserTree m root)
    (hq : node child m.mem (index va) 0 3 root = some pt)
    (habs : (m.mem pt (index va 0)).present = false) (he' : EntryOk 0 (index va 0) e')
    (hown : ∀ p, own e' = some p → p ∉ pages m root ∧ m.pmm.Live p) :
    Evolves m (m.write pt (index va 0) e') root (own e').toList := by
  have hs := h.setLeaf hq (m.write_mem pt (index va 0) e') he'
  have hcount : ∀ p, (pages (m.write pt (index va 0) e') root).count p =
      (pages m root).count p + (own e').toList.count p := fun p => by
    have := hs.count p
    rwa [own_of_absent habs, toList_none, count_nil, Nat.add_zero] at this
  have hmem : ∀ p ∈ pages (m.write pt (index va 0) e') root,
      p ∈ pages m root ∨ own e' = some p := by
    intro p hp
    have hpos := count_pos_iff.2 hp
    rw [hcount] at hpos
    by_cases hin : p ∈ pages m root
    · exact .inl hin
    · rw [count_eq_zero.2 hin, Nat.zero_add] at hpos
      exact .inr (mem_toList.1 (count_pos_iff.1 hpos))
  refine ⟨⟨hok.wf, hok.zero⟩, ⟨?_, fun p hp => ?_, hs.shape⟩, rfl, hs.borrowed, fun _ => rfl,
    fun _ => rfl, fun p hp _ _ => ⟨hs.outside p hp, rfl⟩, fun p hp => ?_, fun p hp => ?_,
    fun p hp => .inl hp, fun p => ?_⟩
  · rw [nodup_iff_count_le_one]
    intro p
    rw [hcount]
    have h1 := nodup_iff_count_le_one.1 h.nodup p
    have h2 : (own e').toList.count p ≤ 1 := by
      cases own e' with
      | none => simp
      | some r => rw [toList_some]; exact (count_le_length).trans (by simp)
    by_cases hpo : own e' = some p
    · rw [count_eq_zero.2 (hown p hpo).1]
      omega
    · rw [count_eq_zero.2 fun hc => hpo (mem_toList.1 hc)]
      omega
  · obtain hp | hp := hmem p hp
    · exact h.live p hp
    · exact (hown p hp).2
  · exact (hmem p hp).imp_right fun hp => .inr (mem_toList.2 hp)
  · have hin : 0 < (pages m root).count p + (own e').toList.count p →
        p ∈ pages (m.write pt (index va 0) e') root := fun hpos =>
      count_pos_iff.1 (by rw [hcount]; exact hpos)
    obtain hp | hp | hp := hp
    · exact .inl (hin (Nat.add_pos_left (count_pos_iff.2 hp) _))
    · exact .inr hp
    · exact .inl (hin (Nat.add_pos_right _ (count_pos_iff.2 hp)))
  have := hcount p
  rw [write_returned, write_allocated]
  omega

/-- Mapping a page keeps the owned pages with their content, and so the page that is taken over. -/
theorem UserTree.data_map (h : UserTree m root)
    (hq : node child m.mem (index va) 0 3 root = some pt)
    (habs : (m.mem pt (index va 0)).present = false)
    (hown : ∀ p, own e' = some p → p ∉ pages m root)
    (hp : p ∈ ownedPages child tableEntries own m.mem 3 root ∨ own e' = some p) :
    p ∈ ownedPages child tableEntries own (m.write pt (index va 0) e').mem 3 root ∧
      (m.write pt (index va 0) e').mem p = m.mem p := by
  have hqt : (0, pt) ∈ tree m root := mem_tree_of_node rfl hq
  have hcount := count_ownedPages_setLeaf own (index_lt va) h.nodup_tables hq
    (index_lt va 0) e' p
  rw [own_of_absent habs, toList_none, count_nil, Nat.add_zero] at hcount
  refine ⟨count_pos_iff.1 ?_, setEntry_of_ne m.mem _ _ ?_⟩
  · rw [write_mem, hcount]
    obtain hp | hp := hp
    · exact Nat.add_pos_left (count_pos_iff.2 hp) _
    · exact Nat.add_pos_right _ (count_pos_iff.2 (mem_toList.2 hp))
  obtain hp | hp := hp
  · exact h.ne_of_owned hqt hp
  · exact fun he => ne_of_outside (hown p hp) hqt he.symm

section

variable (hok : m.Ok) (h : UserTree m root) (hq : node child m.mem (index va) 0 3 root = some pt)

include hok h hq

theorem UserTree.evolves_update (he' : EntryOk 0 (index va 0) e')
    (hown : own e' = own (m.mem pt (index va 0))) :
    Evolves m (m.write pt (index va 0) e') root [] := by
  have hs := h.setLeaf hq (m.write_mem pt (index va 0) e') he'
  have hcount : ∀ p, (pages (m.write pt (index va 0) e') root).count p =
      (pages m root).count p := fun p => by
    have := hs.count p
    rw [hown] at this
    omega
  have hperm := perm_iff_count.2 hcount
  exact ⟨⟨hok.wf, hok.zero⟩, ⟨hperm.nodup_iff.2 h.nodup, fun p hp => h.live p (hperm.subset hp),
    hs.shape⟩, rfl, hs.borrowed, fun _ => rfl, fun _ => rfl,
    fun p hp _ _ => ⟨hs.outside p hp, rfl⟩, fun p hp => .inl (hperm.subset hp),
    fun p hp => hp.imp (hperm.symm.subset ·) fun hp => hp.resolve_right (by simp),
    fun p hp => .inl hp, fun p => by rw [hcount p]; simp⟩

theorem UserTree.evolves_unmap :
    (own (m.mem pt (index va 0)) = none → Evolves m (m.write pt (index va 0) 0) root []) ∧
    ∀ r, own (m.mem pt (index va 0)) = some r →
      Evolves m ((m.write pt (index va 0) 0).drop r) root [] := by
  have hs := h.setLeaf hq (m.write_mem pt (index va 0) 0) (entryOk_zero _ _)
  have hown0 : own 0 = none := rfl
  refine ⟨fun hnone => h.evolves_update hok hq (entryOk_zero _ _) (hown0.trans hnone.symm),
    fun r hr => ?_⟩
  have hrl : r ∈ pages m root := by
    refine mem_append_right _ (mem_ownedPages.2 ⟨pt, ?_, index va 0, index_lt va 0, hr⟩)
    exact mem_tree_of_node rfl hq
  have hpages : pages ((m.write pt (index va 0) 0).drop r) root =
      pages (m.write pt (index va 0) 0) root := rfl
  have hperm : (r :: pages (m.write pt (index va 0) 0) root).Perm (pages m root) := by
    rw [perm_iff_count]
    intro p
    have := hs.count p
    rw [hr, hown0, toList_some, toList_none, count_nil, count_singleton] at this
    rw [count_cons]
    omega
  have hnd := hperm.nodup_iff.2 h.nodup
  have hsub : ∀ p ∈ pages (m.write pt (index va 0) 0) root, p ∈ pages m root := fun p hp =>
    hperm.subset (mem_cons_of_mem r hp)
  have hok' := hok.drop (h.live r hrl)
  refine ⟨⟨hok'.wf, hok'.zero⟩, ⟨(nodup_cons.1 hnd).2, fun p hp => ?_, hs.shape⟩, rfl,
    hs.borrowed, fun _ => rfl, fun _ => rfl, fun p hp _ _ => ⟨hs.outside p hp, ?_⟩,
    fun p hp => .inl (hsub p hp), fun p hp => ?_, fun p hp => .inl hp, fun p => ?_⟩
  · have hl := h.live p (hsub p hp)
    have hpr : p ≠ r := fun he => (nodup_cons.1 hnd).1 (he ▸ hp)
    exact ⟨hl.lt, hl.managed, by simp [hl.used, hpr], hl.unreserved⟩
  · have hpr : p ≠ r := fun he => hp (he ▸ hrl)
    simp [hpr]
  · have hl := h.live r hrl
    rw [drop_pmm, write_pmm, Pmm.freeSet_give hl.lt hl.managed, Finset.mem_insert]
    obtain hp | hp | hp := hp
    · obtain hpr | hp := mem_cons.1 (hperm.symm.subset hp)
      · exact .inr (.inl hpr)
      · exact .inl hp
    · exact .inr (.inr hp)
    · cases hp
  have := hperm.count_eq p
  rw [count_cons] at this
  rw [← this, hpages]
  rw [drop_returned, write_returned, drop_allocated, write_allocated, count_nil, count_cons]
  omega

end

end RixuriOS.Process
