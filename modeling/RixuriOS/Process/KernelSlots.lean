import RixuriOS.Process.SpaceRun

/-!
# Borrowed kernel slots

Every address space carries a copy of the kernel's PML4 slots, and
`address_space_destroy` tells borrowed slots from slots of its own by comparing
the copy with the kernel's entry. This module follows histories in which the
kernel changes its tables, address spaces are created and brought up to date,
and the processor sets accessed bits. Destroying an address space then leaves
the kernel's tables alone as long as its copy matches.
-/

namespace RixuriOS.Process

open Mm PagedTree List Function Machine

structure Host where
  machine : Machine
  spaces : List Nat

inductive SlotEvent
  /-- The kernel links a new table at `t[i]`, or adds the user flag there: `ensure_table`. -/
  | link (t i : Nat) (flags : Entry)
  /-- The kernel changes the flags of the link at `t[i]`. -/
  | setFlags (t i : Nat) (flags : Entry)
  | create
  | sync (r : Nat)
  /-- The processor sets the accessed bit of `t[i]`. -/
  | accessed (t i : Nat)

def withFlags (e flags : Entry) : Entry := e &&& pageMask ||| flags &&& ~~~pageMask

def SlotEvent.exec (s : Host) : SlotEvent → Host
  | link t i flags =>
    if t ∈ kernelTables s.machine then { s with machine := (ensureTable s.machine t i flags).2 }
    else s
  | setFlags t i flags =>
    let e := s.machine.mem t i
    if t ∈ kernelTables s.machine ∧ kernelChild e = some e.frame then
      { s with machine := s.machine.write t i (withFlags e flags) }
    else s
  | create =>
    let (r, as, m) := addressSpaceCreate s.machine
    ⟨m, if r = 0 then as / pageSize :: s.spaces else s.spaces⟩
  | sync r =>
    if r ∈ s.spaces then { s with machine := (addressSpaceSyncKernel s.machine (r * pageSize)).2 }
    else s
  | accessed t i =>
    let e := s.machine.mem t i
    if (t ∈ kernelTables s.machine ∨ t ∈ s.spaces) ∧ e.present = true then
      { s with machine := s.machine.write t i (e ||| pteAccessed) }
    else s

def runEvents (s : Host) (es : List SlotEvent) : Host := es.foldl SlotEvent.exec s

/-- The kernel's tables are in use, and the address spaces are no tables of the kernel and only
borrow slots. -/
structure HostInv (s : Host) : Prop where
  ok : s.machine.Ok
  kernel : ∀ p ∈ kernelTables s.machine, p ∉ s.machine.pmm.freeSet
  live : ∀ r ∈ s.spaces, s.machine.pmm.Live r
  apart : ∀ r ∈ s.spaces, r ∉ kernelTables s.machine
  borrowed : ∀ r ∈ s.spaces, ∀ i < tableEntries, (s.machine.mem r i).user = false
  pml4 : ∀ r ∈ s.spaces, ptr s.machine.kernelPml4 ≠ 0

/-! ### Changes of the kernel's tables -/

variable {s : Host} {r : Nat}

variable {e : Entry} {m m' : Machine} {i t : Nat}

theorem kernelChild_or {f : Entry} (hp : f.present = false) (hps : f.ps = false)
    (hf : f &&& pageMask = 0) : kernelChild (e ||| f) = kernelChild e := by
  simp [kernelChild, hp, hps, Entry.frame_or e hf]

theorem frame_withFlags (e flags : Entry) : (withFlags e flags).frame = e.frame := by
  have h1 : e &&& pageMask &&& pageMask = e &&& pageMask := by rw [BitVec.and_assoc, BitVec.and_self]
  have h2 : flags &&& ~~~pageMask &&& pageMask = 0 := by
    rw [BitVec.and_assoc, show ~~~pageMask &&& pageMask = 0#64 by decide, BitVec.and_zero]
    rfl
  rw [withFlags, Entry.frame_or _ h2, Entry.frame_congr h1]

theorem kernelChild_withFlags (e flags : Entry) :
    kernelChild (withFlags e flags) = some e.frame ∨ kernelChild (withFlags e flags) = none := by
  unfold kernelChild
  split
  · exact .inl (by rw [frame_withFlags])
  · exact .inr rfl

theorem kernelTables_subset (hk : m'.kernelPml4 = m.kernelPml4)
    (hlink : ∀ t, ∀ i < tableEntries,
      kernelChild (m'.mem t i) = kernelChild (m.mem t i) ∨ kernelChild (m'.mem t i) = none)
    {p : Nat} (hp : p ∈ kernelTables m') : p ∈ kernelTables m := by
  unfold kernelTables at hp
  rw [hk] at hp
  exact (mem_tables_of_relink (m := m.mem) (fun _ => False) (by simp)
    (fun t _ i hi => (hlink t i hi).imp_right .inl) hp).resolve_right id

theorem kernelTables_congr (hk : m'.kernelPml4 = m.kernelPml4)
    (hm : ∀ p ∈ kernelTables m, m'.mem p = m.mem p) : kernelTables m' = kernelTables m := by
  have hn : nodes kernelChild tableEntries m'.mem 3 (ptr m.kernelPml4) =
      nodes kernelChild tableEntries m.mem 3 (ptr m.kernelPml4) :=
    nodes_congr fun x hx => hm x.2 (mem_tables.2 ⟨x.1, hx⟩)
  unfold kernelTables tables
  rw [hk, hn]

theorem HostInv.write (h : HostInv s)
    (hchild : kernelChild e = kernelChild (s.machine.mem t i) ∨ kernelChild e = none)
    (huser : t ∈ s.spaces → i < tableEntries → e.user = false) :
    HostInv { s with machine := s.machine.write t i e } := by
  have hsub : ∀ p ∈ kernelTables (s.machine.write t i e), p ∈ kernelTables s.machine := by
    intro p hp
    refine kernelTables_subset (write_kernelPml4 s.machine t i e) (fun t' j _ => ?_) hp
    rw [write_mem]
    by_cases ht : t' = t
    · subst ht
      by_cases hj : j = i
      · subst hj
        rw [setEntry_self]
        exact hchild
      · exact .inl (by rw [setEntry_other _ _ hj])
    · exact .inl (by rw [setEntry_of_ne _ _ _ ht])
  refine ⟨⟨h.ok.wf, h.ok.zero⟩, fun p hp => h.kernel p (hsub p hp), h.live,
    fun r hr hc => h.apart r hr (hsub r hc), fun r hr j hj => ?_, h.pml4⟩
  change (setEntry s.machine.mem t i e r j).user = false
  by_cases hrt : r = t
  · subst hrt
    by_cases hji : j = i
    · subst hji
      rw [setEntry_self]
      exact huser hr hj
    · rw [setEntry_other _ _ hji]
      exact h.borrowed r hr j hj
  · rw [setEntry_of_ne _ _ _ hrt]
    exact h.borrowed r hr j hj

theorem HostInv.link (h : HostInv s) (ht : t ∈ kernelTables s.machine) (flags : Entry) :
    HostInv { s with machine := (ensureTable s.machine t i flags).2 } := by
  have htout : t ∉ s.spaces := fun hc => h.apart t hc ht
  unfold ensureTable
  simp only
  split
  · split
    · refine h.write (.inl ?_) fun hc => absurd hc htout
      exact kernelChild_or (by simp) (by simp) (by decide)
    · exact h
  obtain ⟨ha, -⟩ | ⟨r, hr, hr0, ha⟩ := allocPage_cases h.ok
  · rw [ha]
    exact h
  have hrlt : r < 2 ^ 40 := (Pmm.mem_freeSet.1 hr).1.trans_le maxPages_le
  rw [ha]
  rw [if_neg (page_mul_ne_zero hr0), page_mul_div]
  generalize hm' : ((s.machine.grab r).fill r fun _ => 0).write t i (mkEntry (r * pageSize)
    (ptePresent ||| pteWrite ||| flags &&& pteUser)) = m'
  have hrk : r ∉ kernelTables s.machine := fun hc => h.kernel r hc hr
  have htr : t ≠ r := fun he => hrk (he ▸ ht)
  have hmem : ∀ p, p ≠ t → p ≠ r → m'.mem p = s.machine.mem p := fun p hpt hpr => by
    rw [← hm', write_mem, setEntry_of_ne _ _ _ hpt]
    exact update_of_ne hpr _ _
  have hrow : ∀ j, m'.mem r j = 0 := fun j => by
    rw [← hm', write_mem, setEntry_of_ne _ _ _ htr.symm]
    simp
  have hpmm : m'.pmm = s.machine.pmm.take r := by rw [← hm']; rfl
  have hsub : ∀ p ∈ kernelTables m', p ∈ kernelTables s.machine ∨ p = r := by
    intro p hp
    have hk : m'.kernelPml4 = s.machine.kernelPml4 := by rw [← hm']; rfl
    unfold kernelTables at hp
    rw [hk] at hp
    refine mem_tables_of_relink (fun q => q = r) (fun q hq j _ => ?_)
      (fun t' ht' j _ => ?_) hp
    · rw [hq, hrow]
      rfl
    by_cases htt : t' = t
    · subst htt
      by_cases hji : j = i
      · refine .inr (.inr ⟨r, ?_, rfl⟩)
        subst hji
        rw [← hm', write_mem, setEntry_self, kernelChild, present_mkEntry hrlt,
          ps_mkEntry hrlt, frame_mkEntry hrlt]
        · simp
        · rw [and_pteUser]
          split <;> decide
      refine .inl ?_
      rw [← hm', write_mem, setEntry_other _ _ hji]
      simp [ht']
    · exact .inl (by rw [hmem t' htt ht'])
  have hner : ∀ r' ∈ s.spaces, r' ≠ r := fun r' hr' he => (h.live r' hr').not_free (he ▸ hr)
  refine ⟨?_, fun p hp => ?_, fun r' hr' => ?_, fun r' hr' hc => ?_, fun r' hr' j hj => ?_, ?_⟩
  · rw [← hm']
    exact ⟨(h.ok.grab hr).wf, (h.ok.grab hr).zero⟩
  · rw [hpmm, Pmm.freeSet_take, Finset.mem_erase]
    rintro ⟨hpr, hpf⟩
    exact h.kernel p ((hsub p hp).resolve_right hpr) hpf
  · have hl := h.live r' hr'
    rw [hpmm]
    exact ⟨hl.lt, hl.managed, by simp [hl.used], hl.unreserved⟩
  · exact (hsub r' hc).elim (h.apart r' hr') (hner r' hr')
  · rw [hmem r' (fun he => htout (he ▸ hr')) (hner r' hr')]
    exact h.borrowed r' hr' j hj
  · rw [← hm']
    exact h.pml4

/-! ### Address spaces -/

theorem HostInv.of_row (h : HostInv s) (hr : r ∉ kernelTables s.machine) {row : Nat → Entry}
    (huser : r ∈ s.spaces → ∀ i < tableEntries, (row i).user = false) :
    HostInv { s with machine := s.machine.fill r row } := by
  have hk : kernelTables (s.machine.fill r row) = kernelTables s.machine :=
    kernelTables_congr (fill_kernelPml4 s.machine r row) fun p hp => by
      rw [fill_mem, update_of_ne]
      exact fun he => hr (he ▸ hp)
  refine ⟨⟨h.ok.wf, h.ok.zero⟩, fun p hp => ?_, h.live, fun r' hr' => ?_, fun r' hr' i hi => ?_,
    h.pml4⟩
  · rw [hk] at hp
    exact h.kernel p hp
  · rw [hk]
    exact h.apart r' hr'
  by_cases hrr : r' = r
  · subst hrr
    simpa using huser hr' i hi
  · simpa [hrr] using h.borrowed r' hr' i hi

theorem HostInv.create (h : HostInv s) : HostInv (SlotEvent.exec s .create) := by
  have hkt := h.kernel _ (kernelPml4_mem s.machine)
  have hspec := addressSpaceCreate_spec h.ok hkt
  rw [SlotEvent.exec]
  generalize addressSpaceCreate s.machine = c at hspec
  obtain ⟨rc, hrc, m', hm', -⟩ | ⟨r, hr, row, hkernel, hrow⟩ := hspec
  · simp only [if_neg hrc]
    have hk := kernelTables_congr hm'.kernelPml4 fun p hp => hm'.mem p (h.kernel p hp)
    refine ⟨hm'.ok, fun p hp => ?_, fun r hr => ?_, fun r hr => ?_, fun r hr i hi => ?_,
      fun r hr => ?_⟩
    · rw [hm'.freeSet]
      rw [hk] at hp
      exact h.kernel p hp
    · have hl := h.live r hr
      exact ⟨hl.lt, (hm'.managed r).trans hl.managed, (hm'.used r).trans hl.used,
        (hm'.reserved r).trans hl.unreserved⟩
    · rw [hk]
      exact h.apart r hr
    · rw [hm'.mem r (h.live r hr).not_free]
      exact h.borrowed r hr i hi
    · rw [hm'.kernelPml4]
      exact h.pml4 r hr
  have hrk : r ∉ kernelTables s.machine := fun hc => h.kernel r hc hr
  have hk : kernelTables ((s.machine.grab r).fill r row) = kernelTables s.machine :=
    kernelTables_congr rfl fun p hp => by
      rw [fill_mem, update_of_ne, grab_mem]
      exact fun he => hrk (he ▸ hp)
  have hinv := spaceInv_created h.ok hkt hr hkernel hrow
  simp only [if_true, page_mul_div]
  refine ⟨hinv.ok, fun p hp => ?_, fun r' hr' => ?_, fun r' hr' => ?_, fun r' hr' i hi => ?_,
    fun _ _ => hkernel⟩
  · rw [hk] at hp
    exact hinv.not_free (h.kernel p hp)
  · obtain rfl | hr' := mem_cons.1 hr'
    · exact hinv.tree.live_root
    · have hl := h.live r' hr'
      exact ⟨hl.lt, hl.managed, by simp [hl.used], hl.unreserved⟩
  · rw [hk]
    obtain rfl | hr' := mem_cons.1 hr'
    · exact hrk
    · exact h.apart r' hr'
  obtain rfl | hr' := mem_cons.1 hr'
  · rw [fill_mem, update_self, hrow i hi]
    split
    · rfl
    unfold wanted
    split
    · exact user_borrowed _
    · rfl
  have hne : r' ≠ r := fun he => (h.live r' hr').not_free (he ▸ hr)
  rw [fill_mem, update_of_ne hne]
  exact h.borrowed r' hr' i hi

/-- `address_space_sync_kernel` rewrites slots of the PML4 without the user flag. -/
theorem syncSlots_spec (table kt : Nat) (is : List Nat) (changed : Nat) (m : Machine) :
    ∃ n row, syncSlots table kt is changed m = (n, m.fill table row) ∧
      ∀ i, row i = m.mem table i ∨ (row i).user = false := by
  induction is generalizing changed m with
  | nil => exact ⟨changed, m.mem table, by simp [syncSlots, Machine.fill], fun _ => .inl rfl⟩
  | cons i is ih =>
    unfold syncSlots
    split
    · exact ih changed m
    simp only
    generalize hw : (if (m.mem kt i).present then borrowed (m.mem kt i) else 0) = want
    split
    · exact ih changed m
    split
    · exact ih changed m
    split
    · have huser : want.user = false := by
        rw [← hw]
        split
        · exact user_borrowed _
        · rfl
      obtain ⟨n, row, he, hrow⟩ := ih (changed + 1) (m.write table i want)
      refine ⟨n, row, ?_, fun j => ?_⟩
      · rw [he]
        simp [Machine.fill, Machine.write, setEntry]
      obtain hj | hj := hrow j
      · by_cases hji : j = i
        · subst hji
          rw [write_mem, setEntry_self] at hj
          exact .inr (hj ▸ huser)
        · rw [write_mem, setEntry_other _ _ hji] at hj
          exact .inl hj
      · exact .inr hj
    · exact ih changed m

theorem HostInv.sync (h : HostInv s) (hr : r ∈ s.spaces) :
    HostInv { s with machine := (addressSpaceSyncKernel s.machine (r * pageSize)).2 } := by
  have hl := h.live r hr
  have hptr := ptr_frame (h.ok.ne_zero_of_live hl) hl.lt
  unfold addressSpaceSyncKernel
  split
  · exact h
  split
  · exact h
  split
  · exact h
  rw [hptr]
  obtain ⟨n, row, he, hrow⟩ := syncSlots_spec r (ptr s.machine.kernelPml4) (range tableEntries) 0
    s.machine
  rw [he]
  exact h.of_row (h.apart r hr) fun _ i hi =>
    (hrow i).elim (fun he => he ▸ h.borrowed r hr i hi) id

theorem HostInv.step (h : HostInv s) (e : SlotEvent) : HostInv (e.exec s) := by
  cases e with
  | link t i flags =>
    rw [SlotEvent.exec]
    split
    · rename_i ht
      exact h.link ht flags
    · exact h
  | setFlags t i flags =>
    rw [SlotEvent.exec]
    split
    · rename_i ht
      refine h.write ?_ fun hc => absurd ht.1 (h.apart t hc)
      rw [ht.2]
      exact kernelChild_withFlags _ flags
    · exact h
  | create => exact h.create
  | sync r =>
    rw [SlotEvent.exec]
    split
    · rename_i hr
      exact h.sync hr
    · exact h
  | accessed t i =>
    rw [SlotEvent.exec]
    split
    · rename_i ht
      refine h.write (.inl (kernelChild_or (by decide) (by decide) (by decide))) fun hc hi => ?_
      rw [Entry.user_or, h.borrowed t hc i hi]
      decide
    · exact h

theorem HostInv.run (h : HostInv s) (es : List SlotEvent) : HostInv (runEvents s es) := by
  induction es generalizing s with
  | nil => exact h
  | cons e es ih => exact ih (h.step e)

/-! ### Destroying -/

def SlotsMatch (m : Machine) (r : Nat) : Prop :=
  ∀ i < tableEntries, (m.mem r i).present = true → m.mem r i = wanted m i

/-- With matching slots `address_space_destroy` only gives the PML4 back. -/
theorem HostInv.destroy (h : HostInv s) (hr : r ∈ s.spaces) (hmatch : SlotsMatch s.machine r) :
    addressSpaceDestroy s.machine (r * pageSize) = s.machine.drop r := by
  have hl := h.live r hr
  have hr0 := h.ok.ne_zero_of_live hl
  have hptr := ptr_frame hr0 hl.lt
  have hslot : ∀ i ∈ range tableEntries, destroySlot (r * pageSize) s.machine i = s.machine := by
    intro i hi
    have hi := mem_range.1 hi
    unfold destroySlot
    simp only [hptr, h.borrowed r hr i hi, Bool.false_eq_true, if_false]
    split
    · rfl
    · rename_i hp
      rw [if_pos ⟨h.pml4 r hr, hmatch i hi (by simpa using hp)⟩]
  have hloop : (range tableEntries).foldl (destroySlot (r * pageSize)) s.machine = s.machine := by
    generalize range tableEntries = is at hslot
    induction is with
    | nil => rfl
    | cons i is ih =>
      rw [foldl_cons, hslot i mem_cons_self]
      exact ih fun j hj => hslot j (mem_cons_of_mem _ hj)
  unfold addressSpaceDestroy
  rw [if_neg (page_mul_ne_zero hr0)]
  rw [hptr, if_neg hr0, hloop]
  exact freePage_live hl

/-- After any history, destroying an address space whose slots match the kernel's frees no table
that the kernel reaches. -/
theorem destroy_spares_kernel {m0 : Machine} (hok : m0.Ok)
    (hkernel : ∀ p ∈ kernelTables m0, p ∉ m0.pmm.freeSet) (es : List SlotEvent) {r : Nat}
    (hr : r ∈ (runEvents ⟨m0, []⟩ es).spaces)
    (hmatch : SlotsMatch (runEvents ⟨m0, []⟩ es).machine r) :
    let m := (runEvents ⟨m0, []⟩ es).machine
    let m' := addressSpaceDestroy m (r * pageSize)
    m'.returned = r :: m.returned ∧
      ∀ p ∈ kernelTables m, p ≠ r ∧ p ∉ m'.pmm.freeSet := by
  have hstart : HostInv ⟨m0, []⟩ :=
    ⟨hok, hkernel, by simp, by simp, by simp, by simp⟩
  have h := hstart.run es
  intro m m'
  have hl := h.live r hr
  have hm' : m' = m.drop r := h.destroy hr hmatch
  refine ⟨by rw [hm']; rfl, fun p hp => ?_⟩
  have hpr : p ≠ r := fun he => h.apart r hr (he ▸ hp)
  refine ⟨hpr, ?_⟩
  rw [hm', drop_pmm, Pmm.freeSet_give hl.lt hl.managed, Finset.mem_insert, not_or]
  exact ⟨hpr, h.kernel p hp⟩

/-- The kernel of `bootMachine` gets a table for its slot 300, and an address space is created. -/
def borrowedSlot : List SlotEvent := [.link 0x104 300 0, .create]

set_option maxRecDepth 20000 in
theorem destroy_spares_kernel_borrowedSlot :
    0x100 ∈ kernelTables (runEvents ⟨bootMachine, []⟩ borrowedSlot).machine ∧
      0x100 ∉ (addressSpaceDestroy (runEvents ⟨bootMachine, []⟩ borrowedSlot).machine
        (0x101 * pageSize)).pmm.freeSet := by
  have hk : 0x100 ∈ kernelTables (runEvents ⟨bootMachine, []⟩ borrowedSlot).machine := by
    decide +kernel
  refine ⟨hk, ((destroy_spares_kernel bootMachine_ok bootMachine_kernel borrowedSlot ?_ ?_).2 _ hk).2⟩
  · decide +kernel
  · unfold SlotsMatch
    decide +kernel

set_option maxRecDepth 20000 in
/-- Once the processor has set the accessed bit in the copy of the slot, the copy no longer looks
borrowed, and the kernel's table is freed. -/
theorem destroy_frees_kernel_table :
    let s := runEvents ⟨bootMachine, []⟩ (borrowedSlot ++ [.accessed 0x101 300])
    0x101 ∈ s.spaces ∧ 0x100 ∈ kernelTables s.machine ∧
      0x100 ∈ (addressSpaceDestroy s.machine (0x101 * pageSize)).pmm.freeSet := by
  refine ⟨by decide +kernel, by decide +kernel, Pmm.mem_freeSet.2 ⟨by decide, ?_, ?_⟩⟩
  · decide +kernel
  · decide +kernel

end RixuriOS.Process
