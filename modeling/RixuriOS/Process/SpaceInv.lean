import RixuriOS.Process.Lifecycle

/-!
# An address space in use

`SpaceInv m0 root m held` says that the address space `root` of the state `m` was
built from pages that were free in an earlier state `m0`, and that its user still
holds the pages `held`. Every operation on the address space keeps this, and
destroying the address space restores the allocator of `m0`.
-/

namespace RixuriOS.Process

open Mm PagedTree List Function Pmm

/-- The address space `root` was built since the state `m0`, and its user holds the pages `held`. -/
structure SpaceInv (m0 : Machine) (root : Nat) (m : Machine) (held : List Nat) : Prop where
  ok : m.Ok
  tree : UserTree m root
  borrows : Borrows m root
  kernelPml4 : m.kernelPml4 = m0.kernelPml4
  kernel : ptr m0.kernelPml4 ∉ m0.pmm.freeSet
  managed : ∀ p, m.pmm.managed p = m0.pmm.managed p
  reserved : ∀ p, m.pmm.reserved p = m0.pmm.reserved p
  held_nodup : held.Nodup
  held_live : ∀ p ∈ held, m.pmm.Live p ∧ p ∉ pages m root
  /-- What was in use stays as it was and is never taken. -/
  foreign : ∀ p, p ∉ m0.pmm.freeSet →
    m.mem p = m0.mem p ∧ m.pmm.used p = m0.pmm.used p ∧ p ∉ pages m root ∧ p ∉ held
  kept : ∀ p ∈ m0.pmm.freeSet, p ∈ pages m root ∨ p ∈ m.pmm.freeSet ∨ p ∈ held

variable {m m0 : Machine} {p root : Nat} {held : List Nat}

theorem SpaceInv.not_free (h : SpaceInv m0 root m held) (hp : p ∉ m0.pmm.freeSet) :
    p ∉ m.pmm.freeSet := by
  intro hc
  obtain ⟨hlt, hm, hu⟩ := mem_freeSet.1 hc
  exact hp (mem_freeSet.2 ⟨hlt, (h.managed p).symm.trans hm, (h.foreign p hp).2.1.symm.trans hu⟩)

variable {m' : Machine} {held' : List Nat} {q : Nat}

theorem SpaceInv.evolve {gain : List Nat} (h : SpaceInv m0 root m held)
    (hev : Evolves m m' root gain) (hheld : held.Perm (gain ++ held')) :
    SpaceInv m0 root m' held' := by
  have hnd : (gain ++ held').Nodup := hheld.nodup_iff.1 h.held_nodup
  have hgain : ∀ p ∈ gain, p ∈ held := fun p hp => hheld.symm.subset (mem_append_left _ hp)
  have hin : ∀ p ∈ held', p ∈ held ∧ p ∉ gain := fun p hp =>
    ⟨hheld.symm.subset (mem_append_right _ hp), fun hc =>
      (nodup_append.1 hnd).2.2 p hc p hp rfl⟩
  have hout : ∀ p, p ∉ m0.pmm.freeSet → p ∉ pages m root ∧ p ∉ m.pmm.freeSet ∧ p ∉ gain :=
    fun p hp => ⟨(h.foreign p hp).2.2.1, h.not_free hp, fun hc => (h.foreign p hp).2.2.2 (hgain p hc)⟩
  have hmem : ∀ p, p ∉ m0.pmm.freeSet → m'.mem p = m0.mem p ∧ m'.pmm.used p = m0.pmm.used p :=
    fun p hp => by
      obtain ⟨h1, h2, h3⟩ := hout p hp
      obtain ⟨h4, h5⟩ := hev.outside p h1 h2 h3
      exact ⟨h4.trans (h.foreign p hp).1, h5.trans (h.foreign p hp).2.1⟩
  have hk := hev.kernelPml4.trans h.kernelPml4
  refine ⟨hev.ok, hev.tree, ⟨?_, fun i hi hs hp => ?_⟩, hk, h.kernel,
    fun p => (hev.managed p).trans (h.managed p), fun p => (hev.reserved p).trans (h.reserved p),
    (nodup_append.1 hnd).2.1, fun p hp => ?_, fun p hp => ?_, fun p hp => ?_⟩
  · rw [hev.kernelPml4]
    exact h.borrows.kernel
  · have hold := h.borrows.slots i hi hs (by rw [← hev.borrowed i hs]; exact hp)
    simp only [hev.borrowed i hs, hold, wanted, hk, (hmem _ h.kernel).1, h.kernelPml4,
      (h.foreign _ h.kernel).1]
  · obtain ⟨hph, hpg⟩ := hin p hp
    obtain ⟨hl, hpages⟩ := h.held_live p hph
    refine ⟨hev.live hl hpages hpg, fun hc => ?_⟩
    obtain hc | hc | hc := hev.fresh p hc
    · exact hpages hc
    · exact hl.not_free hc
    · exact hpg hc
  · obtain ⟨h1, h2, h3⟩ := hout p hp
    refine ⟨(hmem p hp).1, (hmem p hp).2, fun hc => ?_, fun hc => ?_⟩
    · exact (hev.fresh p hc).elim h1 fun hc => hc.elim h2 h3
    · exact (h.foreign p hp).2.2.2 (hin p hc).1
  obtain hc | hc | hc := h.kept p hp
  · exact (hev.kept p (.inl hc)).imp_right .inl
  · exact (hev.kept p (.inr (.inl hc))).imp_right .inl
  obtain hc | hc := mem_append.1 (hheld.subset hc)
  · exact (hev.kept p (.inr (.inr hc))).imp_right .inl
  · exact .inr (.inr hc)

def SameTables (m m' : Machine) (r : Nat) : Prop := ∀ x ∈ tree m r, m'.mem x.2 = m.mem x.2

theorem UserTree.same {r : Nat} (h : UserTree m r) (hs : SameTables m m' r)
    (hlive : ∀ p ∈ pages m r, m'.pmm.Live p) : UserTree m' r := by
  refine ⟨by rw [pages_congr hs]; exact h.nodup, fun p hp => ?_, fun x hx => ?_⟩
  · rw [pages_congr hs] at hp
    exact hlive p hp
  rw [tree_congr hs] at hx
  rw [hs x hx]
  exact h.shape x hx

/-- The allocator hands out free pages or gets held pages back. -/
structure Rehold (m m' : Machine) (held held' : List Nat) : Prop where
  ok : m'.Ok
  nodup : held'.Nodup
  managed : ∀ p, m'.pmm.managed p = m.pmm.managed p
  reserved : ∀ p, m'.pmm.reserved p = m.pmm.reserved p
  used : ∀ p, p ∉ held → p ∉ m.pmm.freeSet → m'.pmm.used p = m.pmm.used p
  held_used : ∀ p ∈ held', m'.pmm.used p = true ∧ (p ∈ held ∨ p ∈ m.pmm.freeSet)

theorem Rehold.live (h : Rehold m m' held held') (hp : p ∉ held) (hl : m.pmm.Live p) :
    m'.pmm.Live p :=
  ⟨hl.lt, (h.managed p).trans hl.managed, (h.used p hp hl.not_free).trans hl.used,
    (h.reserved p).trans hl.unreserved⟩

section

variable (hok : m.Ok) (hlive : ∀ p ∈ held, m.pmm.Live p) (hnd : held.Nodup)

include hok hlive

theorem Rehold.held_live (h : Rehold m m' held held') (hp : p ∈ held') : m'.pmm.Live p := by
  obtain ⟨hu, hc | hc⟩ := h.held_used p hp
  · have hl := hlive p hc
    exact ⟨hl.lt, (h.managed p).trans hl.managed, hu, (h.reserved p).trans hl.unreserved⟩
  · obtain ⟨hlt, hm, -⟩ := mem_freeSet.1 hc
    exact ⟨hlt, (h.managed p).trans hm, hu, (h.reserved p).trans (hok.wf.unreserved hc)⟩

include hnd

theorem rehold_same (hpmm : m'.pmm = m.pmm) : Rehold m m' held held := by
  refine ⟨⟨hpmm ▸ hok.wf, hpmm ▸ hok.zero⟩, hnd, ?_, ?_, ?_, fun p hp => ⟨?_, .inl hp⟩⟩
  all_goals rw [hpmm]
  · exact fun _ => rfl
  · exact fun _ => rfl
  · exact fun _ _ _ => rfl
  · exact (hlive p hp).used

theorem rehold_take (hp : p ∈ m.pmm.freeSet) (hpmm : m'.pmm = m.pmm.take p) :
    Rehold m m' held (p :: held) := by
  refine ⟨⟨hpmm ▸ hok.wf.take hp, hpmm ▸ hok.zero⟩,
    nodup_cons.2 ⟨fun hc => (hlive p hc).not_free hp, hnd⟩, fun q => by rw [hpmm]; rfl,
    fun q => by rw [hpmm]; rfl, fun q _ hq => ?_, fun q hq => ?_⟩
  · have : q ≠ p := fun he => hq (he ▸ hp)
    rw [hpmm]
    simp [this]
  rw [hpmm]
  obtain rfl | hq := mem_cons.1 hq
  · exact ⟨by simp, .inr hp⟩
  · exact ⟨by simp [(hlive q hq).used], .inl hq⟩

theorem rehold_release (hp : p ∈ held) (hpmm : m'.pmm = m.pmm.give p) :
    Rehold m m' held (held.erase p) := by
  have hdrop := hok.drop (hlive p hp)
  refine ⟨⟨hpmm ▸ hdrop.wf, hpmm ▸ hdrop.zero⟩, hnd.erase p, fun q => by rw [hpmm]; rfl,
    fun q => by rw [hpmm]; rfl, fun q hq _ => ?_, fun q hq => ?_⟩
  · have : q ≠ p := fun he => hq (he ▸ hp)
    rw [hpmm]
    simp [this]
  obtain ⟨hne, hq⟩ := hnd.mem_erase_iff.1 hq
  rw [hpmm]
  exact ⟨by simp [hne, (hlive q hq).used], .inl hq⟩

end

section

variable (h : SpaceInv m0 root m held)

include h

theorem SpaceInv.reheld (hm : Rehold m m' held held') (hk : m'.kernelPml4 = m.kernelPml4)
    (hmem : ∀ p, p ∉ held' → m'.mem p = m.mem p)
    (hcover : ∀ p, p ∈ m.pmm.freeSet ∨ p ∈ held → p ∈ m'.pmm.freeSet ∨ p ∈ held') :
    SpaceInv m0 root m' held' := by
  have hout : ∀ p ∈ held', p ∉ pages m root := fun p hp =>
    (hm.held_used p hp).2.elim (fun hc => (h.held_live p hc).2) h.tree.not_mem_of_free
  have hforeign : ∀ p, p ∉ m0.pmm.freeSet → p ∉ held' := fun p hp hc =>
    (hm.held_used p hc).2.elim (h.foreign p hp).2.2.2 (h.not_free hp)
  have htables : SameTables m m' root := fun x hx =>
    hmem x.2 fun hc => hout x.2 hc (mem_pages_of_tree hx)
  have hpages := pages_congr htables
  have hroot := htables _ (root_mem_tree m root)
  refine ⟨hm.ok, h.tree.same htables fun p hp => ?_,
    ⟨by rw [hk]; exact h.borrows.kernel, fun i hi hs hp => ?_⟩, hk.trans h.kernelPml4, h.kernel,
    fun p => (hm.managed p).trans (h.managed p), fun p => (hm.reserved p).trans (h.reserved p),
    hm.nodup, fun p hp => ⟨?_, by rw [hpages]; exact hout p hp⟩, fun p hp => ?_, fun p hp => ?_⟩
  · exact hm.live (fun hc => (h.held_live p hc).2 hp) (h.tree.live p hp)
  · rw [hroot] at hp ⊢
    rw [h.borrows.slots i hi hs hp, wanted, wanted, hk, h.kernelPml4, hmem _ (hforeign _ h.kernel)]
  · exact hm.held_live h.ok (fun p hp => (h.held_live p hp).1) hp
  · obtain ⟨h1, h2, h3, h4⟩ := h.foreign p hp
    refine ⟨(hmem p (hforeign p hp)).trans h1, (hm.used p h4 (h.not_free hp)).trans h2, ?_,
      hforeign p hp⟩
    rw [hpages]
    exact h3
  · rw [hpages]
    exact (h.kept p hp).imp_right (hcover p)

theorem SpaceInv.take (hp : p ∈ m.pmm.freeSet) (hpmm : m'.pmm = m.pmm.take p)
    (hk : m'.kernelPml4 = m.kernelPml4) (hmem : ∀ q, q ≠ p → m'.mem q = m.mem q) :
    SpaceInv m0 root m' (p :: held) := by
  refine h.reheld (rehold_take h.ok (fun q hq => (h.held_live q hq).1) h.held_nodup hp hpmm) hk
    (fun q hq => hmem q fun he => hq (he ▸ mem_cons_self)) fun q hq => ?_
  rw [hpmm, freeSet_take, Finset.mem_erase, mem_cons]
  obtain hq | hq := hq
  · by_cases hqp : q = p
    · exact .inr (.inl hqp)
    · exact .inl ⟨hqp, hq⟩
  · exact .inr (.inr hq)

theorem SpaceInv.release (hp : p ∈ held) (hpmm : m'.pmm = m.pmm.give p)
    (hk : m'.kernelPml4 = m.kernelPml4) (hmem : m'.mem = m.mem) :
    SpaceInv m0 root m' (held.erase p) := by
  have hl := (h.held_live p hp).1
  refine h.reheld (rehold_release h.ok (fun q hq => (h.held_live q hq).1) h.held_nodup hp hpmm) hk
    (fun q _ => by rw [hmem]) fun q hq => ?_
  rw [hpmm, freeSet_give hl.lt hl.managed, Finset.mem_insert, h.held_nodup.mem_erase_iff]
  obtain hq | hq := hq
  · exact .inl (.inr hq)
  by_cases hqp : q = p
  · exact .inl (.inl hqp)
  · exact .inr ⟨hqp, hq⟩

theorem SpaceInv.destroy_free (hp : p ∈ pages m root ∨ p ∈ m.pmm.freeSet) :
    p ∈ (addressSpaceDestroy m (root * pageSize)).pmm.freeSet := by
  have hperm := subtreePages_perm m root
  rw [addressSpaceDestroy_eq h.ok h.tree h.borrows, mem_freeSet, dropAll_used, dropAll_managed]
  obtain hp | hp := hp
  · have hl := h.tree.live p hp
    exact ⟨hl.lt, hl.managed, by simp [hperm.symm.subset hp]⟩
  · obtain ⟨hlt, hm, hu⟩ := mem_freeSet.1 hp
    exact ⟨hlt, hm, by simp [hu]⟩

end

theorem SpaceInv.destroy (h : SpaceInv m0 root m []) :
    Restored m0 (addressSpaceDestroy m (root * pageSize)) := by
  have hperm := subtreePages_perm m root
  have hd : Droppable m (subtreePages m.mem 3 root) :=
    Droppable.perm ⟨h.tree.nodup, h.tree.live⟩ hperm
  rw [addressSpaceDestroy_eq h.ok h.tree h.borrows]
  refine ⟨ok_dropAll h.ok hd, by rw [dropAll_kernelPml4]; exact h.kernelPml4, fun p => ?_,
    fun p => by rw [dropAll_managed]; exact h.managed p,
    fun p => by rw [dropAll_reserved]; exact h.reserved p,
    fun p hp => by rw [dropAll_mem]; exact (h.foreign p hp).1⟩
  rw [dropAll_used]
  by_cases hp : p ∈ m0.pmm.freeSet
  · rw [(mem_freeSet.1 hp).2.2]
    obtain hc | hc | hc := h.kept p hp
    · simp [hperm.symm.subset hc]
    · simp [(mem_freeSet.1 hc).2.2]
    · cases hc
  obtain ⟨-, hu, hout, -⟩ := h.foreign p hp
  have : p ∉ subtreePages m.mem 3 root := fun hc => hout (hperm.subset hc)
  simp [this, hu]

theorem spaceInv_created (hok : m0.Ok) (hkt : ptr m0.kernelPml4 ∉ m0.pmm.freeSet) {r : Nat}
    (hr : r ∈ m0.pmm.freeSet) {row : Nat → Entry} (hkernel : ptr m0.kernelPml4 ≠ 0)
    (hrow : ∀ i < tableEntries, row i = if userSlot i then 0 else wanted m0 i) :
    SpaceInv m0 r ((m0.grab r).fill r row) [] := by
  have hpages := pages_created (r := r) hrow
  refine ⟨⟨(hok.grab hr).wf, (hok.grab hr).zero⟩, userTree_created hrow hok hr,
    borrows_created hrow hr hkt hkernel, rfl, hkt, fun _ => rfl, fun _ => rfl, nodup_nil,
    by simp, fun p hp => ?_, fun p hp => ?_⟩
  · have hpr : p ≠ r := fun he => hp (he ▸ hr)
    exact ⟨update_of_ne hpr _ _, by simp [hpr], by simpa [hpages] using hpr, by simp⟩
  rw [hpages, mem_singleton, Machine.fill_pmm, Machine.grab_pmm, freeSet_take, Finset.mem_erase]
  by_cases hpr : p = r
  · exact .inl hpr
  · exact .inr (.inl ⟨hpr, hp⟩)

/-! ### A new page -/

theorem SpaceInv.giveBack (h : SpaceInv m0 root m [q]) :
    SpaceInv m0 root (m.freePage (q * pageSize)) [] := by
  have hq : q ∈ [q] := mem_singleton_self q
  rw [Machine.freePage_live (h.held_live q hq).1]
  simpa using h.release hq (m.drop_pmm q) rfl rfl

/-- The outcome of `address_space_map` for a page `q` that was just allocated and filled. -/
inductive FreshMapped (m0 : Machine) (root : Nat) (m : Machine) (q : Nat) (row : Nat → Entry)
    (va : Nat) (flags : Entry) : Int × Machine → Prop
  | refused (m' : Machine) (hinv : SpaceInv m0 root m' [q])
      (hleaf : ∀ jx, ValidIndex jx → leafVal m' root jx = leafVal m root jx) :
      FreshMapped m0 root m q row va flags (-1, m')
  | done (m' : Machine) (hinv : SpaceInv m0 root m' [])
      (hsame : leafVal m' root (index va) = leafEntry (q * pageSize) (mapFlags flags true))
      (hother : SameElsewhere m m' root va)
      (hnew : q ∈ userPages m' root ∧ m'.mem q = row)
      (hdata : ∀ p ∈ userPages m root, p ∈ userPages m' root ∧ m'.mem p = m.mem p) :
      FreshMapped m0 root m q row va flags (0, m')

theorem SpaceInv.mapFresh (h : SpaceInv m0 root m []) (hq : q ∈ m.pmm.freeSet) (row : Nat → Entry)
    (va : Nat) (flags : Entry) :
    FreshMapped m0 root m q row va flags
      (addressSpaceMap ((m.grab q).fill q row) (root * pageSize) va (q * pageSize) flags) := by
  have hqlt := (mem_freeSet.1 hq).1.trans_le maxPages_le
  have hinv1 : SpaceInv m0 root ((m.grab q).fill q row) [q] :=
    h.take hq rfl rfl fun p hpq => update_of_ne hpq _ _
  obtain ⟨hql, hqout⟩ := hinv1.held_live q (mem_singleton_self q)
  have hspec := mapPage_spec hinv1.ok hinv1.tree va (q * pageSize) flags true
    fun _ => ⟨q, rfl, hql, hqout⟩
  have hown : own (leafEntry (q * pageSize) (mapFlags flags true)) = some q := by
    rw [own_leafEntry hqlt (present_mapFlags _ _), owned_mapFlags]
    rfl
  -- the fresh page is invisible in the tables
  have htables : ∀ x ∈ Process.tree m root, ((m.grab q).fill q row).mem x.2 = m.mem x.2 :=
    fun x hx => update_of_ne (ne_of_outside (h.tree.not_mem_of_free hq) hx) _ _
  change Mapped _ _ _ _ _ (addressSpaceMap _ _ _ _ flags) at hspec
  generalize addressSpaceMap ((m.grab q).fill q row) (root * pageSize) va (q * pageSize) flags = res
    at hspec
  obtain ⟨m2, hquiet⟩ | ⟨m2, -, -, -, hev, hsame, hother, hdata, -⟩ := hspec
  · refine .refused m2 (hinv1.evolve hquiet.evolves (.refl _)) fun jx hjx => ?_
    rw [hquiet.leaf jx hjx, leafVal_congr hjx htables]
  rw [hown] at hev hdata
  refine .done m2 (hinv1.evolve hev (.refl _)) hsame (fun jx hjx hne => ?_) ?_ fun p hpo => ?_
  · rw [hother jx hjx hne, leafVal_congr hjx htables]
  · obtain ⟨h1, h2⟩ := hdata q (.inr rfl)
    exact ⟨h1, h2.trans (update_self ..)⟩
  obtain ⟨h1, h2⟩ := hdata p (.inl (by rw [userPages, ownedPages_congr own htables]; exact hpo))
  refine ⟨h1, h2.trans (update_of_ne (fun he => ?_) _ _)⟩
  exact h.tree.not_mem_of_free hq (he ▸ mem_append_right _ hpo)

end RixuriOS.Process
