import RixuriOS.Mm.PmmRun
import RixuriOS.Process.SpaceInv

/-!
# Several address spaces

`Spaces m roots held` says that the address spaces with the PML4 frames `roots`
are well formed and share no page, and that the pages `held` are handed out to
somebody else. An operation on one address space leaves the tables of the others
alone.
-/

namespace RixuriOS.Process

open Mm PagedTree List

structure Spaces (m : Machine) (roots held : List Nat) : Prop where
  ok : m.Ok
  tree : ∀ r ∈ roots, UserTree m r
  nodup : roots.Nodup
  apart : ∀ r ∈ roots, ∀ r' ∈ roots, r ≠ r' → ∀ p ∈ pages m r, p ∉ pages m r'
  held_nodup : held.Nodup
  held_live : ∀ p ∈ held, m.pmm.Live p ∧ ∀ r ∈ roots, p ∉ pages m r

variable {m m' : Machine} {r : Nat} {held roots : List Nat}

section

variable {held' : List Nat} (h : Spaces m roots held)

include h

namespace Spaces

theorem handed {p : Nat} (hp : p ∈ held) : m.pmm.Live p := (h.held_live p hp).1

theorem reheld (hm : Rehold m m' held held') (htables : ∀ r ∈ roots, SameTables m m' r) :
    Spaces m' roots held' := by
  have hpages : ∀ r ∈ roots, pages m' r = pages m r := fun r hr => pages_congr (htables r hr)
  refine ⟨hm.ok, fun r hr => (h.tree r hr).same (htables r hr) fun p hp => ?_, h.nodup,
    fun r hr r' hr' hne => ?_, hm.nodup, fun p hp =>
      ⟨hm.held_live h.ok (fun _ => h.handed) hp, fun r hr => ?_⟩⟩
  · exact hm.live (fun hc => (h.held_live p hc).2 r hr hp) ((h.tree r hr).live p hp)
  · rw [hpages r hr, hpages r' hr']
    exact h.apart r hr r' hr' hne
  rw [hpages r hr]
  exact (hm.held_used p hp).2.elim (fun hc => (h.held_live p hc).2 r hr)
    (h.tree r hr).not_mem_of_free

theorem rewritten (hpmm : m'.pmm = m.pmm) (htables : ∀ r ∈ roots, SameTables m m' r) :
    Spaces m' roots held :=
  h.reheld (rehold_same h.ok (fun _ => h.handed) h.held_nodup hpmm) htables

variable {p : Nat}

theorem take (hp : p ∈ m.pmm.freeSet) (hpmm : m'.pmm = m.pmm.take p)
    (hmem : ∀ q, q ≠ p → m'.mem q = m.mem q) : Spaces m' roots (p :: held) :=
  h.reheld (rehold_take h.ok (fun _ => h.handed) h.held_nodup hp hpmm) fun r hr _ hx =>
    hmem _ (ne_of_outside ((h.tree r hr).not_mem_of_free hp) hx)

theorem release (hp : p ∈ held) (hpmm : m'.pmm = m.pmm.give p) (hmem : m'.mem = m.mem) :
    Spaces m' roots (held.erase p) :=
  h.reheld (rehold_release h.ok (fun _ => h.handed) h.held_nodup hp hpmm) fun _ _ _ _ => by
    rw [hmem]

theorem takeRange {start count : Nat} (hr : Finset.Ico start (start + count) ⊆ m.pmm.freeSet)
    (hpmm : m'.pmm = m.pmm.takeRange start count)
    (hmem : ∀ q, q ∉ range' start count → m'.mem q = m.mem q) :
    Spaces m' roots (range' start count ++ held) := by
  have hfree : ∀ q ∈ range' start count, q ∈ m.pmm.freeSet := fun q hq =>
    hr (Finset.mem_Ico.2 (mem_range'_1.1 hq))
  refine h.reheld ⟨⟨hpmm ▸ h.ok.wf.takeRange hr, hpmm ▸ h.ok.zero⟩,
    nodup_append.2 ⟨nodup_range', h.held_nodup, ?_⟩, fun q => by rw [hpmm]; rfl,
    fun q => by rw [hpmm]; rfl, fun q _ hq => ?_, fun q hq => ?_⟩ fun r hr x hx =>
      hmem _ fun hc => (h.tree r hr).not_mem_of_free (hfree _ hc) (mem_pages_of_tree hx)
  · rintro q hq _ hq' rfl
    exact (h.held_live q hq').1.not_free (hfree q hq)
  · have : ¬(start ≤ q ∧ q < start + count) := fun hc => hq (hr (Finset.mem_Ico.2 hc))
    rw [hpmm, Pmm.used_takeRange, decide_eq_false this, Bool.false_or]
  rw [hpmm, Pmm.used_takeRange]
  obtain hq | hq := mem_append.1 hq
  · exact ⟨by simp [mem_range'_1.1 hq], .inr (hfree q hq)⟩
  · exact ⟨by simp [(h.held_live q hq).1.used], .inl hq⟩

theorem fill (hp : p ∈ held) (row : Nat → Entry) : Spaces (m.fill p row) roots held :=
  h.rewritten rfl fun r hr _ hx =>
    Function.update_of_ne (ne_of_outside ((h.held_live p hp).2 r hr) hx) _ _

theorem perm (hp : held'.Perm held) : Spaces m roots held' :=
  ⟨h.ok, h.tree, h.nodup, h.apart, hp.nodup_iff.2 h.held_nodup,
    fun p hpl => h.held_live p (hp.subset hpl)⟩

theorem reorder {roots' : List Nat} (hp : roots'.Perm roots) : Spaces m roots' held :=
  ⟨h.ok, fun r hr => h.tree r (hp.subset hr), hp.nodup_iff.2 h.nodup,
    fun r hr r' hr' => h.apart r (hp.subset hr) r' (hp.subset hr'), h.held_nodup,
    fun p hpl => ⟨(h.held_live p hpl).1, fun r hr => (h.held_live p hpl).2 r (hp.subset hr)⟩⟩

variable {gain : List Nat} (hr : r ∈ roots) (hev : Evolves m m' r gain)
  (hheld : held.Perm (gain ++ held'))

include hr hev hheld

/-- An operation on the address space `r` that takes over `gain` does not touch the others. -/
theorem others {r' : Nat} (hr' : r' ∈ roots) (hne : r' ≠ r) (hp : p ∈ pages m r') :
    m'.mem p = m.mem p ∧ m'.pmm.used p = m.pmm.used p := by
  refine hev.outside p (h.apart r' hr' r hr hne p hp) ((h.tree r' hr').live p hp).not_free fun hc => ?_
  exact (h.held_live p (hheld.symm.subset (mem_append_left _ hc))).2 r' hr' hp

theorem sameTables {r' : Nat} (hr' : r' ∈ roots) (hne : r' ≠ r) : SameTables m m' r' :=
  fun _ hx => (h.others hr hev hheld hr' hne (mem_pages_of_tree hx)).1

theorem evolve : Spaces m' roots held' := by
  have hnd : (gain ++ held').Nodup := hheld.nodup_iff.1 h.held_nodup
  have hgain : ∀ p ∈ gain, p ∈ held := fun p hp => hheld.symm.subset (mem_append_left _ hp)
  have hin : ∀ p ∈ held', p ∈ held ∧ p ∉ gain := fun p hp =>
    ⟨hheld.symm.subset (mem_append_right _ hp), fun hc =>
      (nodup_append.1 hnd).2.2 p hc p hp rfl⟩
  have hpages : ∀ r' ∈ roots, r' ≠ r → pages m' r' = pages m r' := fun r' hr' hne =>
    pages_congr (h.sameTables hr hev hheld hr' hne)
  -- new pages of `r` come from the allocator or from `gain`
  have hnew : ∀ p, (p ∉ pages m r) → p ∉ m.pmm.freeSet → p ∉ gain → p ∉ pages m' r :=
    fun p h1 h2 h3 hc => (hev.fresh p hc).elim h1 fun hc => hc.elim h2 h3
  have hout : ∀ r' ∈ roots, r' ≠ r → ∀ p ∈ pages m r', p ∉ pages m' r := fun r' hr' hne p hp => by
    refine hnew p (h.apart r' hr' r hr hne p hp) ((h.tree r' hr').live p hp).not_free fun hc => ?_
    exact (h.held_live p (hgain p hc)).2 r' hr' hp
  refine ⟨hev.ok, fun r' hr' => ?_, h.nodup, fun r1 hr1 r2 hr2 hne p hp => ?_,
    (nodup_append.1 hnd).2.1, fun p hp => ?_⟩
  · by_cases hrr : r' = r
    · exact hrr ▸ hev.tree
    refine (h.tree r' hr').same (h.sameTables hr hev hheld hr' hrr) fun p hp => ?_
    have hl := (h.tree r' hr').live p hp
    exact ⟨hl.lt, (hev.managed p).trans hl.managed,
      (h.others hr hev hheld hr' hrr hp).2.trans hl.used, (hev.reserved p).trans hl.unreserved⟩
  · by_cases h1 : r1 = r
    · subst h1
      rw [hpages r2 hr2 hne.symm]
      exact fun hc => hout r2 hr2 hne.symm p hc hp
    rw [hpages r1 hr1 h1] at hp
    by_cases h2 : r2 = r
    · subst h2
      exact hout r1 hr1 h1 p hp
    · rw [hpages r2 hr2 h2]
      exact h.apart r1 hr1 r2 hr2 hne p hp
  obtain ⟨hph, hpg⟩ := hin p hp
  obtain ⟨hl, hpout⟩ := h.held_live p hph
  refine ⟨hev.live hl (hpout r hr) hpg, fun r' hr' => ?_⟩
  by_cases hrr : r' = r
  · subst hrr
    exact hnew p (hpout r' hr') hl.not_free hpg
  · rw [hpages r' hr' hrr]
    exact hpout r' hr'

end Spaces

end

theorem Spaces.create {m0 : Machine} (h : Spaces m0 roots held) (hinv : SpaceInv m0 r m []) :
    Spaces m (r :: roots) held := by
  have hout : ∀ r' ∈ roots, ∀ p ∈ pages m0 r', p ∉ m0.pmm.freeSet := fun r' hr' p hp =>
    ((h.tree r' hr').live p hp).not_free
  have htables : ∀ r' ∈ roots, SameTables m0 m r' := fun r' hr' x hx =>
    (hinv.foreign _ (hout r' hr' _ (mem_pages_of_tree hx))).1
  have hpages : ∀ r' ∈ roots, pages m r' = pages m0 r' := fun r' hr' => pages_congr (htables r' hr')
  have hlive : ∀ p, m0.pmm.Live p → m.pmm.Live p := fun p hl =>
    ⟨hl.lt, (hinv.managed p).trans hl.managed, (hinv.foreign p hl.not_free).2.1.trans hl.used,
      (hinv.reserved p).trans hl.unreserved⟩
  have hfar : ∀ r' ∈ roots, ∀ p ∈ pages m r', p ∉ pages m r := fun r' hr' p hp => by
    rw [hpages r' hr'] at hp
    exact (hinv.foreign p (hout r' hr' p hp)).2.2.1
  have hroot : ∀ r', r' ∈ pages m r' := fun r' => mem_pages_of_tree (root_mem_tree m r')
  refine ⟨hinv.ok, fun r' hr' => ?_, nodup_cons.2 ⟨fun hc => hfar r hc r (hroot r) (hroot r),
    h.nodup⟩, fun r1 hr1 r2 hr2 hne p hp => ?_, h.held_nodup, fun p hp => ?_⟩
  · obtain rfl | hr' := mem_cons.1 hr'
    · exact hinv.tree
    · exact (h.tree r' hr').same (htables r' hr') fun p hp => hlive p ((h.tree r' hr').live p hp)
  · obtain h1 | h1 := mem_cons.1 hr1
    · obtain h2 | h2 := mem_cons.1 hr2
      · exact absurd (h1.trans h2.symm) hne
      · exact fun hc => hfar r2 h2 p hc (h1 ▸ hp)
    obtain h2 | h2 := mem_cons.1 hr2
    · exact h2 ▸ hfar r1 h1 p hp
    rw [hpages r1 h1] at hp
    rw [hpages r2 h2]
    exact h.apart r1 h1 r2 h2 hne p hp
  obtain ⟨hl, hpout⟩ := h.held_live p hp
  refine ⟨hlive p hl, fun r' hr' => ?_⟩
  obtain rfl | hr' := mem_cons.1 hr'
  · exact (hinv.foreign p hl.not_free).2.2.1
  · rw [hpages r' hr']
    exact hpout r' hr'

theorem Spaces.restored (h : Spaces m roots held) (hm : Restored m m') : Spaces m' roots held := by
  refine h.reheld ⟨hm.ok, h.held_nodup, hm.managed, hm.reserved, fun p _ _ => hm.used p,
    fun p hp => ⟨(hm.used p).trans (h.handed hp).used, .inl hp⟩⟩ fun r hr x hx => hm.mem _ ?_
  exact ((h.tree r hr).live _ (mem_pages_of_tree hx)).not_free

theorem Spaces.surrender (h : Spaces m roots held) (hr : r ∈ roots) {roots' : List Nat}
    (hnd : roots'.Nodup) (hsub : ∀ r' ∈ roots', r' ∈ roots ∧ r' ≠ r) :
    Spaces m roots' (pages m r ++ held) := by
  refine ⟨h.ok, fun r' hr' => h.tree r' (hsub r' hr').1, hnd, fun r1 h1 r2 h2 =>
    h.apart r1 (hsub r1 h1).1 r2 (hsub r2 h2).1, ?_, fun p hp => ?_⟩
  · refine nodup_append.2 ⟨(h.tree r hr).nodup, h.held_nodup, ?_⟩
    rintro p hp _ hp' rfl
    exact (h.held_live p hp').2 r hr hp
  obtain hp | hp := mem_append.1 hp
  · exact ⟨(h.tree r hr).live p hp, fun r' hr' =>
      h.apart r hr r' (hsub r' hr').1 (hsub r' hr').2.symm p hp⟩
  · exact ⟨(h.held_live p hp).1, fun r' hr' => (h.held_live p hp).2 r' (hsub r' hr').1⟩

theorem Spaces.dropAll {l : List Nat} (h : Spaces m roots (l ++ held)) :
    Spaces (Process.dropAll m l) roots held := by
  induction l generalizing m with
  | nil => exact h
  | cons p l ih =>
    refine ih (m := m.drop p) ?_
    have := h.release (mem_append_left held mem_cons_self) (m.drop_pmm p) rfl
    rwa [cons_append, erase_cons_head] at this

theorem leafVal_same_tables (hs : SameTables m m' r) (va : Nat) :
    leafVal m' r (index va) = leafVal m r (index va) :=
  leafVal_congr (index_lt va) hs

end RixuriOS.Process
