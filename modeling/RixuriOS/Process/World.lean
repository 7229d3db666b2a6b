import RixuriOS.Process.Spaces

/-!
# What the address spaces of all processes have in common

Next to `Spaces`, two things hold of the address spaces of a running system. The
kernel's PML4 lies outside of all of them, and the slots borrowed from it are up to
date. And every mapped page is owned by the address space or is one of the pages
`shared`, under flags that do not allow both writing and executing.
-/

namespace RixuriOS.Process

open Mm PagedTree List

variable {roots' : List Nat} {r p : Nat}

/-- A leaf maps an owned or a shared page, and is not both writable and executable. -/
def LeafOk (shared : List Nat) (e : Entry) : Prop :=
  e.present = true → (e.owned = true ∨ e.frame ∈ shared) ∧ (e.writable = true → e.nx = true)

variable {held roots shared : List Nat} {m m' : Machine}

theorem LeafOk.mono {shared' : List Nat} (hsub : ∀ p ∈ shared, p ∈ shared') {e : Entry}
    (h : LeafOk shared e) : LeafOk shared' e := fun hp =>
  ⟨(h hp).1.imp_right (hsub _), (h hp).2⟩

theorem leafOk_zero (shared : List Nat) : LeafOk shared 0 := fun hp => by
  simp [Entry.present] at hp

theorem leafOk_leafEntry {q : Nat} (hq : q < 2 ^ 40) {flags : Entry} {owned : Bool}
    (hpage : owned = true ∨ q ∈ shared) (hflags : flags.writable = true → flags.nx = true) :
    LeafOk shared (leafEntry (q * pageSize) (mapFlags flags owned)) := by
  intro _
  rw [owned_leafEntry hq, owned_mapFlags, frame_leafEntry hq, writable_leafEntry hq,
    writable_mapFlags, nx_leafEntry hq, nx_mapFlags]
  exact ⟨hpage, hflags⟩

theorem leaf_of_other {P : Entry → Prop} {va : Nat} (h : ∀ v, P (leafVal m r (index v)))
    (hother : SameElsewhere m m' r va)
    (hnew : P (leafVal m' r (index va))) (v : Nat) : P (leafVal m' r (index v)) := by
  by_cases hs : SameAddress (index va) (index v)
  · rw [leafVal_same hs]
    exact hnew
  · rw [hother _ (index_lt v) hs]
    exact h v

theorem Borrows.congr (h : Borrows m r) (hk : m'.kernelPml4 = m.kernelPml4)
    (hrow : m'.mem (ptr m.kernelPml4) = m.mem (ptr m.kernelPml4))
    (hslots : ∀ i, userSlot i = false → m'.mem r i = m.mem r i) : Borrows m' r := by
  refine ⟨by rw [hk]; exact h.kernel, fun i hi hs hp => ?_⟩
  rw [hslots i hs] at hp ⊢
  rw [h.slots i hi hs hp, wanted, wanted, hk, hrow]

/-- The address spaces `roots` of a running system. -/
structure World (m : Machine) (roots held shared : List Nat) : Prop where
  kernel_used : ptr m.kernelPml4 ∉ m.pmm.freeSet
  kernel_apart : ∀ r ∈ roots, ptr m.kernelPml4 ∉ pages m r
  kernel_held : ptr m.kernelPml4 ∉ held
  borrows : ∀ r ∈ roots, Borrows m r
  shared_held : ∀ p ∈ shared, p ∈ held
  leaf : ∀ r ∈ roots, ∀ va, LeafOk shared (leafVal m r (index va))

section

variable {held' shared' : List Nat} (h : World m roots held shared)

include h

namespace World

theorem still (hk : m'.kernelPml4 = m.kernelPml4)
    (hrow : m'.mem (ptr m.kernelPml4) = m.mem (ptr m.kernelPml4))
    (hfree : ptr m.kernelPml4 ∉ m'.pmm.freeSet) (hheld : ptr m.kernelPml4 ∉ held')
    (htables : ∀ r ∈ roots, SameTables m m' r) (hshared : ∀ p ∈ shared', p ∈ held')
    (hmono : ∀ p ∈ shared, p ∈ shared') : World m' roots held' shared' := by
  refine ⟨by rw [hk]; exact hfree, fun r hr => ?_, by rw [hk]; exact hheld, fun r hr => ?_, hshared,
    fun r hr va => ?_⟩
  · rw [hk, pages_congr (htables r hr)]
    exact h.kernel_apart r hr
  · refine (h.borrows r hr).congr hk hrow fun i _ => ?_
    rw [htables r hr _ (root_mem_tree m r)]
  · rw [leafVal_same_tables (htables r hr)]
    exact (h.leaf r hr va).mono hmono

theorem perm (hp : held'.Perm held) : World m roots held' shared :=
  { h with
    kernel_held := fun hc => h.kernel_held (hp.subset hc)
    shared_held := fun p hps => hp.symm.subset (h.shared_held p hps) }

theorem reorder (hp : roots'.Perm roots) : World m roots' held shared :=
  ⟨h.kernel_used, fun r hr => h.kernel_apart r (hp.subset hr), h.kernel_held,
    fun r hr => h.borrows r (hp.subset hr), h.shared_held, fun r hr => h.leaf r (hp.subset hr)⟩

theorem share (hmono : ∀ p ∈ shared, p ∈ shared') (hsub : ∀ p ∈ shared', p ∈ held) :
    World m roots held shared' :=
  { h with shared_held := hsub, leaf := fun r hr va => (h.leaf r hr va).mono hmono }

theorem write (htables : ∀ r ∈ roots, ∀ x ∈ tree m r, x.2 ≠ p) (hp : ptr m.kernelPml4 ≠ p)
    (hpmm : m'.pmm = m.pmm) (hk : m'.kernelPml4 = m.kernelPml4)
    (hmem : ∀ q, q ≠ p → m'.mem q = m.mem q) : World m' roots held shared :=
  h.still hk (hmem _ hp) (by rw [hpmm]; exact h.kernel_used) h.kernel_held
    (fun r hr x hx => hmem _ (htables r hr x hx)) h.shared_held fun _ hq => hq

theorem surrender (hr : r ∈ roots) (hsub : ∀ r' ∈ roots', r' ∈ roots) :
    World m roots' (pages m r ++ held) shared := by
  refine ⟨h.kernel_used, fun r' hr' => h.kernel_apart r' (hsub r' hr'), fun hc => ?_,
    fun r' hr' => h.borrows r' (hsub r' hr'), fun p hp => ?_, fun r' hr' => h.leaf r' (hsub r' hr')⟩
  · exact (mem_append.1 hc).elim (h.kernel_apart r hr) h.kernel_held
  · exact mem_append_right _ (h.shared_held p hp)

variable (hs : Spaces m roots held)

include hs

theorem take (hp : p ∈ m.pmm.freeSet) (hpmm : m'.pmm = m.pmm.take p)
    (hk : m'.kernelPml4 = m.kernelPml4) (hmem : ∀ q, q ≠ p → m'.mem q = m.mem q) :
    World m' roots (p :: held) shared := by
  have hne : ptr m.kernelPml4 ≠ p := fun he => h.kernel_used (he ▸ hp)
  refine h.still hk (hmem _ hne) ?_ ?_ (fun r hr x hx => hmem _ ?_) (fun q hq => ?_)
    fun _ hq => hq
  · rw [hpmm, Pmm.freeSet_take]
    exact fun hc => h.kernel_used (Finset.mem_of_mem_erase hc)
  · exact fun hc => (mem_cons.1 hc).elim hne h.kernel_held
  · exact ne_of_outside ((hs.tree r hr).not_mem_of_free hp) hx
  · exact mem_cons_of_mem _ (h.shared_held q hq)

theorem takeRange {start count : Nat} (hr : Finset.Ico start (start + count) ⊆ m.pmm.freeSet)
    (hpmm : m'.pmm = m.pmm.takeRange start count) (hk : m'.kernelPml4 = m.kernelPml4)
    (hmem : ∀ q, q ∉ range' start count → m'.mem q = m.mem q) :
    World m' roots (range' start count ++ held) shared := by
  have hfree : ∀ q ∈ range' start count, q ∈ m.pmm.freeSet := fun q hq =>
    hr (Finset.mem_Ico.2 (mem_range'_1.1 hq))
  have hkr : ptr m.kernelPml4 ∉ range' start count := fun hc => h.kernel_used (hfree _ hc)
  refine h.still hk (hmem _ hkr) ?_ ?_ (fun r hr x hx => hmem _ fun hc => ?_) (fun q hq => ?_)
    fun _ hq => hq
  · rw [hpmm, Pmm.freeSet_takeRange]
    exact fun hc => h.kernel_used (Finset.mem_sdiff.1 hc).1
  · exact fun hc => (mem_append.1 hc).elim hkr h.kernel_held
  · exact (hs.tree r hr).not_mem_of_free (hfree _ hc) (mem_pages_of_tree hx)
  · exact mem_append_right _ (h.shared_held q hq)

theorem release (hp : p ∈ held) (hns : p ∉ shared) (hpmm : m'.pmm = m.pmm.give p)
    (hk : m'.kernelPml4 = m.kernelPml4) (hmem : m'.mem = m.mem) :
    World m' roots (held.erase p) shared := by
  have hl := (hs.held_live p hp).1
  have hne : ptr m.kernelPml4 ≠ p := fun he => h.kernel_held (he ▸ hp)
  refine h.still hk (by rw [hmem]) ?_ (fun hc => h.kernel_held (mem_of_mem_erase hc))
    (fun r hr x hx => by rw [hmem]) (fun q hq => ?_) fun _ hq => hq
  · rw [hpmm, Pmm.freeSet_give hl.lt hl.managed, Finset.mem_insert]
    exact fun hc => hc.elim hne h.kernel_used
  · have hqp : q ≠ p := fun he => hns (he ▸ hq)
    exact (mem_erase_of_ne hqp).2 (h.shared_held q hq)

theorem fill (hp : p ∈ held) (row : Nat → Entry) : World (m.fill p row) roots held shared :=
  h.write (fun r hr _ hx => ne_of_outside ((hs.held_live p hp).2 r hr) hx)
    (fun he => h.kernel_held (he ▸ hp)) rfl rfl fun _ hq => Function.update_of_ne hq _ _

theorem restored (hm : Restored m m') : World m' roots held shared := by
  refine h.still hm.kernelPml4 (hm.mem _ h.kernel_used) (by rw [hm.freeSet]; exact h.kernel_used)
    h.kernel_held (fun r hr x hx => hm.mem _ ?_) h.shared_held fun _ hq => hq
  exact ((hs.tree r hr).live _ (mem_pages_of_tree hx)).not_free

theorem evolve (hr : r ∈ roots) {gain : List Nat} (hev : Evolves m m' r gain)
    (hheld : held.Perm (gain ++ held')) (hshared : ∀ p ∈ shared, p ∈ held')
    (hleaf : ∀ va, LeafOk shared (leafVal m' r (index va))) : World m' roots held' shared := by
  have hgain : ptr m.kernelPml4 ∉ gain := fun hc =>
    h.kernel_held (hheld.symm.subset (mem_append_left _ hc))
  have hrow := (hev.outside _ (h.kernel_apart r hr) h.kernel_used hgain).1
  have htables : ∀ r' ∈ roots, r' ≠ r → SameTables m m' r' := fun r' hr' hne =>
    hs.sameTables hr hev hheld hr' hne
  refine ⟨?_, fun r' hr' => ?_, ?_, fun r' hr' => ?_, hshared, fun r' hr' va => ?_⟩
  · rw [hev.kernelPml4]
    exact fun hc => (hev.free_or hc).elim (h.kernel_apart r hr) fun hc => hc.elim h.kernel_used hgain
  · rw [hev.kernelPml4]
    by_cases hrr : r' = r
    · subst hrr
      exact fun hc => (hev.fresh _ hc).elim (h.kernel_apart r' hr) fun hc =>
        hc.elim h.kernel_used hgain
    · rw [pages_congr (htables r' hr' hrr)]
      exact h.kernel_apart r' hr'
  · rw [hev.kernelPml4]
    exact fun hc => h.kernel_held (hheld.symm.subset (mem_append_right _ hc))
  · refine (h.borrows r' hr').congr hev.kernelPml4 hrow fun i hi => ?_
    by_cases hrr : r' = r
    · subst hrr
      exact hev.borrowed i hi
    · rw [htables r' hr' hrr _ (root_mem_tree m r')]
  by_cases hrr : r' = r
  · subst hrr
    exact hleaf va
  · rw [leafVal_same_tables (htables r' hr' hrr)]
    exact h.leaf r' hr' va

theorem create (hinv : SpaceInv m r m' [])
    (hleaf : ∀ va, LeafOk shared (leafVal m' r (index va))) :
    World m' (r :: roots) held shared := by
  have hold : World m' roots held shared := by
    refine h.still hinv.kernelPml4 (hinv.foreign _ h.kernel_used).1 (hinv.not_free h.kernel_used)
      h.kernel_held (fun r' hr' x hx => (hinv.foreign _ ?_).1) h.shared_held fun _ hq => hq
    exact ((hs.tree r' hr').live _ (mem_pages_of_tree hx)).not_free
  refine ⟨hold.kernel_used, forall_mem_cons.2 ⟨?_, hold.kernel_apart⟩, hold.kernel_held,
    forall_mem_cons.2 ⟨hinv.borrows, hold.borrows⟩, hold.shared_held,
    forall_mem_cons.2 ⟨hleaf, hold.leaf⟩⟩
  rw [hinv.kernelPml4]
  exact (hinv.foreign _ h.kernel_used).2.2.1

end World

end

theorem World.dropAll {l : List Nat} (h : World m roots (l ++ held) shared)
    (hs : Spaces m roots (l ++ held)) (hns : ∀ p ∈ l, p ∉ shared) :
    World (Process.dropAll m l) roots held shared := by
  induction l generalizing m with
  | nil => exact h
  | cons p l ih =>
    have hp : p ∈ p :: l ++ held := mem_append_left held mem_cons_self
    have hw := h.release hs hp (hns p mem_cons_self) (m.drop_pmm p) rfl rfl
    have hsp := hs.release hp (m.drop_pmm p) rfl
    rw [cons_append, erase_cons_head] at hw hsp
    exact ih (m := m.drop p) hw hsp fun q hq => hns q (mem_cons_of_mem _ hq)

theorem World.destroy (h : World m roots held shared) (hs : Spaces m roots held) (hr : r ∈ roots)
    (hnd : roots'.Nodup) (hsub : ∀ r' ∈ roots', r' ∈ roots ∧ r' ≠ r) :
    Spaces (addressSpaceDestroy m (r * pageSize)) roots' held ∧
      World (addressSpaceDestroy m (r * pageSize)) roots' held shared ∧
      (addressSpaceDestroy m (r * pageSize)).mem = m.mem := by
  have hperm : (subtreePages m.mem 3 r ++ held).Perm (pages m r ++ held) :=
    (subtreePages_perm m r).append_right held
  have hsp := (hs.surrender hr hnd hsub).perm hperm
  have hw := (h.surrender hr fun r' hr' => (hsub r' hr').1).perm hperm
  rw [addressSpaceDestroy_eq hs.ok (hs.tree r hr) (h.borrows r hr)]
  refine ⟨hsp.dropAll, hw.dropAll hsp fun p hp hc => ?_, dropAll_mem _ _⟩
  exact (hs.held_live p (h.shared_held p hc)).2 r hr ((subtreePages_perm m r).subset hp)

end RixuriOS.Process
