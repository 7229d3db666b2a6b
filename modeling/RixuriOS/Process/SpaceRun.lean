import RixuriOS.Process.SpaceInv
import RixuriOS.Mm.PmmRun

/-!
# The life of an address space

A run of calls on one address space, from its creation to its destruction. The
caller takes pages from the allocator, holds them, and hands them over to the
address space by mapping them as owned; it may also map any page as shared. Over
the whole run, every page that the address space took is given back once.
-/

namespace RixuriOS

namespace Mm

/-- After `pmm_init` and any calls of the allocator, page 0 is never handed out. -/
theorem ok_of_pmmInit (h : Handoff) (cs : List Call) (mem : PagedTree.Mem Entry)
    (kernelPml4 : Nat) (allocated returned : List Nat) :
    Machine.Ok ⟨runCalls (pmmInit h) cs, mem, kernelPml4, allocated, returned⟩ :=
  have hi := initial_pmmInit h
  ⟨(runEffect hi.wf cs).wf, (runEffect hi.wf cs).withheld (hi.low 0 (by decide))⟩

end Mm

namespace Process

open Mm PagedTree List

/-! ### The tables of the kernel -/

def kernelChild (e : Entry) : Option Nat := if e.present && !e.ps then some e.frame else none

def kernelTables (m : Machine) : List Nat :=
  tables kernelChild tableEntries m.mem 3 (ptr m.kernelPml4)

theorem kernelPml4_mem (m : Machine) : ptr m.kernelPml4 ∈ kernelTables m :=
  mem_tables.2 ⟨3, mem_nodes_self m.mem 3 _⟩

/-! ### Operations -/

/-- An address space in use: the pages its user holds, and the pages mapped so far, as owned and
as shared. -/
structure Session where
  machine : Machine
  held : List Nat
  owned : List Nat
  shared : List Nat

inductive SpaceOp
  /-- Allocate a page. -/
  | take
  /-- Give back a page that is held. -/
  | release (p : Nat)
  /-- Map a page that is held, as owned. -/
  | map (va p : Nat) (flags : Entry)
  /-- Map any page, as shared. -/
  | mapShared (va pa : Nat) (flags : Entry)
  | updateFlags (va : Nat) (flags : Entry)
  | unmap (va : Nat)

def Session.withPmm (s : Session) (pmm : Pmm) : Machine := { s.machine with pmm }

def SpaceOp.exec (as : Nat) (s : Session) : SpaceOp → Session
  | take =>
    let (pa, pmm) := pmmAllocPage s.machine.pmm
    if pa = 0 then s else { s with machine := s.withPmm pmm, held := pa / pageSize :: s.held }
  | release p =>
    if p ∈ s.held then
      { s with
        machine := s.withPmm (pmmFreePage s.machine.pmm (p * pageSize))
        held := s.held.erase p }
    else s
  | map va p flags =>
    if p ∈ s.held then
      let (r, m) := addressSpaceMap s.machine as va (p * pageSize) flags
      if r = 0 then { s with machine := m, held := s.held.erase p, owned := p :: s.owned }
      else { s with machine := m }
    else s
  | mapShared va pa flags =>
    let (r, m) := addressSpaceMapShared s.machine as va pa flags
    { s with machine := m, shared := if r = 0 then pa / pageSize :: s.shared else s.shared }
  | updateFlags va flags => { s with machine := (addressSpaceUpdateFlags s.machine as va flags).2 }
  | unmap va => { s with machine := (addressSpaceUnmap s.machine as va).2 }

def runSpace (as : Nat) (s : Session) (ops : List SpaceOp) : Session :=
  ops.foldl (SpaceOp.exec as) s

/-- What holds between creation and destruction, with `m0` the state before the creation: every
page is accounted for. -/
structure Accounted (m0 : Machine) (root : Nat) (s : Session) : Prop where
  inv : SpaceInv m0 root s.machine s.held
  /-- Only pages that were free are taken. -/
  taken : ∀ p, p ∈ s.machine.allocated ∨ p ∈ s.owned → p ∈ m0.pmm.freeSet
  balance : ∀ p, s.machine.returned.count p + (pages s.machine root).count p =
    s.machine.allocated.count p + s.owned.count p

variable {m0 : Machine} {root : Nat} {s : Session}

theorem Accounted.evolve (h : Accounted m0 root s) {m' : Machine} {gain held : List Nat}
    (hev : Evolves s.machine m' root gain) (hheld : s.held.Perm (gain ++ held))
    (shared : List Nat) : Accounted m0 root ⟨m', held, gain ++ s.owned, shared⟩ := by
  have hgain : ∀ p ∈ gain, p ∈ s.held := fun p hp => hheld.symm.subset (mem_append_left _ hp)
  have hfree : ∀ p, p ∈ pages s.machine root ∨ p ∈ s.machine.pmm.freeSet ∨ p ∈ gain →
      p ∈ m0.pmm.freeSet := fun p hp => by
    by_contra hc
    obtain ⟨-, -, h1, h2⟩ := h.inv.foreign p hc
    exact hp.elim h1 fun hp => hp.elim (h.inv.not_free hc) fun hp => h2 (hgain p hp)
  refine ⟨h.inv.evolve hev hheld, fun p hp => ?_, fun p => ?_⟩
  · obtain hp | hp := hp
    · exact (hev.source p hp).elim (fun hp => h.taken p (.inl hp)) (hfree p)
    · exact (mem_append.1 hp).elim (fun hp => hfree p (.inr (.inr hp)))
        fun hp => h.taken p (.inr hp)
  have h1 := h.balance p
  have h2 := hev.balance p
  simp only [count_append]
  omega

theorem Accounted.take {as : Nat} (h : Accounted m0 root s) :
    Accounted m0 root (SpaceOp.exec as s .take) := by
  have ha := pmmAllocPageBelow_spec s.machine.pmm maxPhys
  unfold SpaceOp.exec pmmAllocPage
  generalize pmmAllocPageBelow s.machine.pmm maxPhys = r at ha
  obtain ⟨p, hp, -, -⟩ | - := ha
  · have hp0 := h.inv.ok.ne_zero hp
    simp only [if_neg (page_mul_ne_zero hp0), page_mul_div]
    exact ⟨h.inv.take hp rfl rfl fun _ _ => rfl, h.taken, h.balance⟩
  · exact h

theorem Accounted.release {as : Nat} (h : Accounted m0 root s) (p : Nat) :
    Accounted m0 root (SpaceOp.exec as s (.release p)) := by
  rw [SpaceOp.exec]
  split
  · rename_i hp
    have hgive : pmmFreePage s.machine.pmm (p * pageSize) = s.machine.pmm.give p :=
      congrArg Machine.pmm (Machine.freePage_live (h.inv.held_live p hp).1)
    rw [hgive]
    exact ⟨h.inv.release hp rfl rfl rfl, h.taken, h.balance⟩
  · exact h

/-- What `map_page` takes over, by its return value. -/
theorem Mapped.evolves {m : Machine} {va pa : Nat} {flags : Entry} {owned : Bool}
    {r : Int × Machine} (h : Mapped m root va pa (mapFlags flags owned) r) :
    Evolves m r.2 root (if owned ∧ r.1 = 0 then [pa / pageSize] else []) := by
  obtain ⟨m', hq⟩ | ⟨m', -, -, ⟨p, hp, rfl⟩, hev, -, -⟩ := h
  · simpa using hq.evolves
  rw [own_leafEntry hp (present_mapFlags _ _), owned_mapFlags] at hev
  cases owned with
  | false => simpa using hev
  | true => simpa [page_mul_div] using hev

theorem Accounted.step (h : Accounted m0 root s) (op : SpaceOp) :
    Accounted m0 root (op.exec (root * pageSize) s) := by
  have hok := h.inv.ok
  have htree := h.inv.tree
  cases op with
  | take => exact h.take
  | release p => exact h.release p
  | map va p flags =>
    simp only [SpaceOp.exec]
    split
    · rename_i hp
      obtain ⟨hl, hout⟩ := h.inv.held_live p hp
      have hev := (mapPage_spec hok htree va (p * pageSize) flags true fun _ =>
        ⟨p, rfl, hl, hout⟩).evolves
      rw [page_mul_div] at hev
      split
      · rename_i hr
        rw [if_pos ⟨rfl, hr⟩] at hev
        exact h.evolve hev (perm_cons_erase hp) _
      rename_i hr
      rw [if_neg fun hc => hr hc.2] at hev
      exact h.evolve hev (.refl _) _
    · exact h
  | mapShared va pa flags =>
    have hev := (mapPage_spec hok htree va pa flags false (by simp)).evolves
    simp only [Bool.false_eq_true, false_and, if_false] at hev
    exact h.evolve hev (.refl _) _
  | updateFlags va flags =>
    have hspec := addressSpaceUpdateFlags_spec hok htree va flags
    rw [SpaceOp.exec]
    generalize addressSpaceUpdateFlags s.machine (root * pageSize) va flags = r at hspec
    obtain ⟨m', hq⟩ | ⟨m', -, -, -, hev, -, -⟩ := hspec
    · exact h.evolve hq.evolves (.refl _) _
    · exact h.evolve hev (.refl _) _
  | unmap va =>
    have hspec := addressSpaceUnmap_spec hok htree va
    rw [SpaceOp.exec]
    generalize addressSpaceUnmap s.machine (root * pageSize) va = r at hspec
    obtain _ | ⟨pt, -, -, -, -, hev, -, -⟩ := hspec
    · exact h
    · exact h.evolve hev (.refl _) _

theorem Accounted.run (h : Accounted m0 root s) (ops : List SpaceOp) :
    Accounted m0 root (runSpace (root * pageSize) s ops) := by
  induction ops generalizing s with
  | nil => exact h
  | cons op ops ih => exact ih (h.step op)

/-! ### From creation to destruction -/

theorem accounted_create (hok : m0.Ok) (hallocated : m0.allocated = [])
    (hreturned : m0.returned = []) (hkernel : ptr m0.kernelPml4 ∉ m0.pmm.freeSet)
    (hcreate : (addressSpaceCreate m0).1 = 0) :
    ∃ root, (addressSpaceCreate m0).2.1 = root * pageSize ∧
      Accounted m0 root ⟨(addressSpaceCreate m0).2.2, [], [], []⟩ ∧
      ∀ va, leafVal (addressSpaceCreate m0).2.2 root (index va) = 0 := by
  have hspec := addressSpaceCreate_spec hok hkernel
  generalize addressSpaceCreate m0 = c at hcreate hspec
  cases hspec with
  | failed rc hrc => exact absurd hcreate hrc
  | done r hr row hk hrow =>
  refine ⟨r, rfl, ⟨spaceInv_created hok hkernel hr hk hrow, fun p hp => ?_, fun p => ?_⟩,
    fun va => leafVal_created hrow (index_lt va)⟩
  · simp only [Machine.fill_allocated, Machine.grab_allocated, hallocated, mem_singleton,
      not_mem_nil, or_false] at hp
    exact hp ▸ hr
  · simp [pages_created (r := r) hrow, hallocated, hreturned]

/-- From `address_space_create` to `address_space_destroy`, every page that was allocated for the
address space and every page mapped as owned is given back as often as it was taken, and is free in
the end unless its user has it again. Nothing else is given back: no page that was only shared and
no table of the kernel. -/
theorem space_returns_pages {m0 : Machine} (hok : m0.Ok) (hallocated : m0.allocated = [])
    (hreturned : m0.returned = []) (hkernel : ∀ p ∈ kernelTables m0, p ∉ m0.pmm.freeSet)
    (hcreate : (addressSpaceCreate m0).1 = 0) (ops : List SpaceOp) :
    let c := addressSpaceCreate m0
    let s := runSpace c.2.1 ⟨c.2.2, [], [], []⟩ ops
    let m := addressSpaceDestroy s.machine c.2.1
    (∀ p, m.returned.count p = m.allocated.count p + s.owned.count p) ∧
      (∀ p, p ∈ m.allocated ∨ p ∈ s.owned → p ∈ m.pmm.freeSet ∨ p ∈ s.held) ∧
      (∀ p ∈ s.shared, p ∉ m.allocated → p ∉ s.owned → p ∉ m.returned) ∧
      ∀ p ∈ kernelTables m0, p ∉ m.returned ∧ m.mem p = m0.mem p := by
  obtain ⟨root, hroot, hstart, -⟩ := accounted_create hok hallocated hreturned
    (hkernel _ (kernelPml4_mem m0)) hcreate
  have hend := hstart.run ops
  rw [← hroot] at hend
  intro c s m
  have hinv := hend.inv
  have hm : m = dropAll s.machine (subtreePages s.machine.mem 3 root) := by
    rw [← addressSpaceDestroy_eq hinv.ok hinv.tree hinv.borrows, ← hroot]
  have halloc : m.allocated = s.machine.allocated := by rw [hm, dropAll_allocated]
  have hcount : ∀ p, m.returned.count p = m.allocated.count p + s.owned.count p := fun p => by
    rw [halloc, ← hend.balance p, hm, dropAll_returned, count_append, count_reverse,
      (subtreePages_perm s.machine root).count_eq, Nat.add_comm]
  have hnot : ∀ p, p ∉ m.allocated → p ∉ s.owned → p ∉ m.returned := fun p h1 h2 => by
    rw [← count_eq_zero, hcount, count_eq_zero.2 h1, count_eq_zero.2 h2]
  refine ⟨hcount, fun p hp => ?_, fun p _ => hnot p, fun p hp => ⟨?_, ?_⟩⟩
  · rw [halloc] at hp
    have hdestroy : ∀ q, q ∈ pages s.machine root ∨ q ∈ s.machine.pmm.freeSet →
        q ∈ m.pmm.freeSet := fun q hq => by
      have := hinv.destroy_free hq
      rwa [← hroot] at this
    obtain hc | hc | hc := hinv.kept p (hend.taken p hp)
    · exact .inl (hdestroy p (.inl hc))
    · exact .inl (hdestroy p (.inr hc))
    · exact .inr hc
  · exact hnot p (fun hc => hkernel p hp (hend.taken p (.inl (by rwa [halloc] at hc))))
      fun hc => hkernel p hp (hend.taken p (.inr hc))
  · rw [hm, dropAll_mem]
    exact (hinv.foreign p (hkernel p hp)).1

def bootMachine : Machine where
  pmm := pmmInit (sampleBoot 0x102000)
  mem := fun _ _ => 0
  kernelPml4 := 0x104000
  allocated := []
  returned := []

theorem bootMachine_pmm : bootMachine.pmm = pmmInit (sampleBoot 0x102000) := by
  rw [bootMachine]

theorem bootMachine_ok : bootMachine.Ok := ok_of_pmmInit (sampleBoot 0x102000) [] _ _ _ _

theorem kernelTables_bootMachine : kernelTables bootMachine = [0x104] := by
  have hn : nodes kernelChild tableEntries bootMachine.mem 3 0x104 = [(3, 0x104)] :=
    nodes_of_no_child 3 fun i _ => (by decide : kernelChild 0 = none)
  rw [kernelTables, tables, show ptr bootMachine.kernelPml4 = 0x104 by decide, hn]
  rfl

theorem bootMachine_kernel : ∀ p ∈ kernelTables bootMachine, p ∉ bootMachine.pmm.freeSet := by
  intro p hp
  rw [kernelTables_bootMachine, mem_singleton] at hp
  rw [hp, bootMachine_pmm]
  have hi := initial_pmmInit (sampleBoot 0x102000)
  have hmarked : MarkedBytes 0x104000 0x2000 0x104 :=
    ⟨by decide, by decide, by decide, by decide, by decide⟩
  have hwithheld := hi.ranges ⟨0x104000, 0x2000⟩ (by simp [Handoff.ranges, sampleBoot]) _ hmarked
  exact Pmm.Withheld.not_free hi.wf hwithheld

set_option maxRecDepth 20000 in
theorem space_returns_pages_bootMachine :
    let c := addressSpaceCreate bootMachine
    let s := runSpace c.2.1 ⟨c.2.2, [], [], []⟩
      [.take, .map 0x8000000000 0x101 pteWrite, .mapShared 0x8000001000 0x300000 0,
        .unmap 0x8000000000]
    c.1 = 0 ∧ ∀ p, (addressSpaceDestroy s.machine c.2.1).returned.count p =
      (addressSpaceDestroy s.machine c.2.1).allocated.count p + s.owned.count p := by
  have hc : (addressSpaceCreate bootMachine).1 = 0 := by decide +kernel
  exact ⟨hc, (space_returns_pages bootMachine_ok rfl rfl bootMachine_kernel hc _).1⟩

end Process

end RixuriOS
