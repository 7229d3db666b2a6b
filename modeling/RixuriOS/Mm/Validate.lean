import RixuriOS.Mm.Entry

/-!
# Validating a page table before it is loaded

`vmm_validate_pml4` reads every table that it can reach from a root and refuses
tables with bad entries; the tables may be shared or point back to each other.
`vmm_walk_in_pml4` follows one address through memory on its own. Heights count
from the page tables up: 3 for the PML4, the source's level 0.
-/

namespace RixuriOS.Mm

structure MmioReg where
  va : Nat
  pages : Nat

def mmioVaRegistered (regs : List MmioReg) (va : Nat) : Bool :=
  regs.any fun r => r.va ≤ va ∧ va - r.va < r.pages * 0x1000

abbrev ptAllowedFlags : Entry := 0x80000000000003FF#64

/-- `(e&(RIXURI_PTE_PWT|RIXURI_PTE_PCD))==(RIXURI_PTE_PWT|RIXURI_PTE_PCD)`. -/
def Entry.uncached (e : Entry) : Bool := e &&& (ptePwt ||| ptePcd) = ptePwt ||| ptePcd

/-- The address of a page in memory that the kernel can read; `vmm_phys_ptr` is not null. -/
def physOk (pa : Nat) : Bool := pa ≠ 0 && pa % pageSize = 0 && pa < maxPhys

variable (mem : PagedTree.Mem Entry) (regs : List MmioReg)

/-- `child_va`: the first address that the table behind the entry `i` translates. -/
def childVa (h va i : Nat) : Nat :=
  let va := (va + i * 2 ^ (12 + 9 * h)) % 2 ^ 64
  if h = 3 ∧ i &&& 0x100 ≠ 0 then va ||| 0xFFFF000000000000 else va

def checkEntry (child : Nat → Nat → Int) (h va i : Nat) (e : Entry) : Int :=
  if !e.present then 0
  else if e &&& ~~~(pageMask ||| ptAllowedFlags) ≠ 0 then -4
  else if h = 2 ∧ e.ps then if e.phys % 2 ^ 30 ≠ 0 then -6 else 0
  else if h = 1 ∧ e.ps then if e.phys % 2 ^ 21 ≠ 0 then -7 else 0
  else if e.phys = 0 ∨ e.phys ≥ maxPhys then
    if h = 0 ∧ e.phys ≠ 0 ∧ !e.user ∧ e.uncached ∧ mmioVaRegistered regs (va + i * 0x1000) then 0
    else -5
  else if h = 0 then 0
  else child e.phys (childVa h va i)

/-- The first value that is not 0, for the 512 entries of a table. -/
def firstError (check : Nat → Int) : Int :=
  (((List.range tableEntries).map check).find? (· ≠ 0)).getD 0

def checkTable (child : Nat → Nat → Int) (h phys va : Nat) (seen : List Nat) : Int :=
  if !physOk phys then -1
  else if phys ∈ seen then -8
  else if seen.length ≥ 8 then -2
  else firstError fun i => checkEntry regs child h va i (mem (phys / pageSize) i)

/-- `pt_validate_table`. Below a page table is the level that it refuses. -/
def ptValidateTable : Nat → Nat → Nat → List Nat → Int
  | 0, phys, va, seen => checkTable mem regs (fun _ _ => -1) 0 phys va seen
  | h + 1, phys, va, seen =>
    checkTable mem regs (fun base va => ptValidateTable h base va (phys :: seen)) (h + 1) phys va
      seen

/-- `vmm_validate_pml4`. Its tests of the high bits and of the pointer cannot fail for a root in
memory. -/
def vmmValidatePml4 (root : Nat) : Int :=
  if !physOk root then -1
  else if !(mem (root / pageSize) 0).present then -4
  else ptValidateTable mem regs 3 root 0 []

structure Walk where
  pml4e : Entry := 0
  pdpte : Entry := 0
  pde : Entry := 0
  pte : Entry := 0
  phys : Nat := 0
  flags : Entry := 0

def vmmWalkInPml4 (root va : Nat) : Int × Walk :=
  if !physOk root ∨ !canonical48 va then (-1, {}) else
  let pml4e := mem (root / pageSize) (index va 3)
  let w : Walk := { pml4e }
  if !pml4e.present then (1, w) else
  if !physOk pml4e.phys then (-1, w) else
  let pdpte := mem pml4e.frame (index va 2)
  let w := { w with pdpte }
  if !pdpte.present then (1, w) else
  let hugeFlags := ptePresent ||| pteWrite ||| pteUser ||| pteNx
  if pdpte.ps then (0, { w with phys := pdpte.phys + va % 2 ^ 30, flags := pdpte &&& hugeFlags })
  else
  if !physOk pdpte.phys then (-1, w) else
  let pde := mem pdpte.frame (index va 1)
  let w := { w with pde }
  if !pde.present then (1, w) else
  if pde.ps then (0, { w with phys := pde.phys + va % 2 ^ 21, flags := pde &&& hugeFlags }) else
  if !physOk pde.phys then (-1, w) else
  let pte := mem pde.frame (index va 0)
  let w := { w with pte }
  if !pte.present then (1, w) else
  (0, { w with phys := pte.phys + va % pageSize, flags := pte &&& (hugeFlags ||| pteOwned) })

variable {mem regs} {h phys va i : Nat} {seen : List Nat} {e : Entry} {child : Nat → Nat → Int}

theorem firstError_eq_zero {check : Nat → Int} (hz : firstError check = 0) (hi : i < tableEntries) :
    check i = 0 := by
  by_contra hne
  unfold firstError at hz
  cases hfind : ((List.range tableEntries).map check).find? (· ≠ 0) with
  | none =>
    rw [List.find?_eq_none] at hfind
    exact hfind _ (List.mem_map_of_mem (List.mem_range.2 hi)) (by simpa using hne)
  | some x =>
    rw [hfind] at hz
    simpa [show x = 0 from hz] using List.find?_some hfind

/-- The pages of entries are aligned, so that being in range is all there is to check. -/
theorem physOk_phys (e : Entry) : physOk e.phys = (e.phys ≠ 0 && e.phys < maxPhys) := by
  have halign : e.phys % pageSize = 0 := by rw [e.phys_eq, Nat.mul_mod_left]
  simp [physOk, halign]

/-- A present entry that passes and is no large page leads to a page in range or is a window. -/
theorem checkEntry_eq_zero (hz : checkEntry regs child h va i e = 0) (hp : e.present = true)
    (hps : (h = 1 ∨ h = 2) → e.ps = false) :
    (h = 0 ∧ e.user = false ∧ e.uncached = true ∧
        mmioVaRegistered regs (va + i * 0x1000) = true) ∨
      (physOk e.phys = true ∧ (h ≠ 0 → child e.phys (childVa h va i) = 0)) := by
  have h2 : ¬(h = 2 ∧ e.ps = true) := fun hh => by simp [hps (.inr hh.1)] at hh
  have h1 : ¬(h = 1 ∧ e.ps = true) := fun hh => by simp [hps (.inl hh.1)] at hh
  unfold checkEntry at hz
  rw [if_neg (by simp [hp]), if_neg (show ¬(h = 2 ∧ e.ps = true) from h2), if_neg h1] at hz
  split_ifs at hz with hbits hrange hwindow hleaf
  · exact .inl ⟨hwindow.1, by simpa using hwindow.2.2.1, hwindow.2.2.2⟩
  all_goals
    rw [not_or, Nat.not_le] at hrange
    refine .inr ⟨by simpa [physOk_phys] using hrange, fun hne => ?_⟩
  · exact absurd hleaf hne
  · exact hz

theorem checkTable_eq_zero (hz : checkTable mem regs child h phys va seen = 0)
    (hi : i < tableEntries) : checkEntry regs child h va i (mem (phys / pageSize) i) = 0 := by
  unfold checkTable at hz
  split_ifs at hz
  exact firstError_eq_zero hz hi

theorem ptValidateTable_of_mem (hmem : phys ∈ seen) :
    ptValidateTable mem regs h phys va seen ≠ 0 := by
  cases h <;> rw [ptValidateTable, checkTable, if_pos hmem] <;> split_ifs <;> decide

/-- One level down: an entry of a table that passes is absent, a large page, or leads to a table
that passes. -/
theorem ptValidateTable_child (hz : ptValidateTable mem regs (h + 1) phys va seen = 0)
    (hi : i < tableEntries) (hp : (mem (phys / pageSize) i).present = true)
    (hps : (h + 1 = 1 ∨ h + 1 = 2) → (mem (phys / pageSize) i).ps = false) :
    physOk (mem (phys / pageSize) i).phys = true ∧
      ptValidateTable mem regs h (mem (phys / pageSize) i).phys (childVa (h + 1) va i)
        (phys :: seen) = 0 := by
  rw [ptValidateTable] at hz
  obtain ⟨hzero, -⟩ | ⟨hok, hnext⟩ := checkEntry_eq_zero (checkTable_eq_zero hz hi) hp hps
  · omega
  · exact ⟨hok, hnext (by omega)⟩

theorem childVa_top (hi : i < 512) :
    childVa 3 0 i = i * 549755813888 + if 256 ≤ i then 0xFFFF000000000000 else 0 := by
  have hhigh : (i &&& 0x100 ≠ 0) = (256 ≤ i) := by
    rw [show 0x100 = 2 ^ 8 from rfl, Nat.and_two_pow, Nat.testBit_eq_decide_div_mod_eq]
    simp only [Nat.reducePow, ne_eq, mul_eq_zero, Bool.toNat_eq_zero, decide_eq_false_iff_not,
      OfNat.ofNat_ne_zero, or_false, not_not, eq_iff_iff]
    omega
  have hsmall : i * 549755813888 < 2 ^ 48 := by omega
  have hor := Nat.two_pow_add_eq_or_of_lt hsmall 65535
  simp only [childVa, hhigh, true_and, Nat.zero_add, Nat.reduceMul, Nat.reduceAdd, Nat.reducePow]
  simp only [Nat.reduceMul, Nat.reducePow] at hor
  rw [Nat.mod_eq_of_lt (by omega), Nat.or_comm, ← hor]
  split_ifs <;> omega

/-- The addresses that the validator counts up to are those of the pages. -/
theorem childVa_index (hva : va < 2 ^ 64) (hc : canonical48 va = true) :
    childVa 1 (childVa 2 (childVa 3 0 (index va 3)) (index va 2)) (index va 1) +
      index va 0 * 0x1000 = va - va % pageSize := by
  have htop : index va 3 < 512 := Nat.mod_lt _ (by decide)
  rw [childVa_top htop]
  simp only [canonical48, Bool.or_eq_true, decide_eq_true_eq] at hc
  split_ifs with hhigh
  · simp only [childVa, index, pageSize, Nat.reduceEqDiff, false_and, if_false, Nat.reduceMul,
      Nat.reduceAdd, Nat.reducePow] at *
    omega
  simp only [childVa, index, pageSize, Nat.reduceEqDiff, false_and, if_false, Nat.reduceMul,
    Nat.reduceAdd, Nat.reducePow] at *
  omega

/-- A validated table is walked without an error for every canonical address. A 4 KiB page that the
walk reports is in memory or an uncached page of the kernel in a registered window. The validator
is total: a table that leads back to one on its path is refused. -/
theorem validated_walks (mem : PagedTree.Mem Entry) (regs : List MmioReg) (root : Nat)
    (hv : vmmValidatePml4 mem regs root = 0) :
    (∀ va < 2 ^ 64, canonical48 va = true →
      let w := vmmWalkInPml4 mem root va
      (w.1 = 0 ∨ w.1 = 1) ∧ (w.1 = 0 → w.2.pte.present = true → w.2.phys < maxPhys ∨
        (w.2.pte.user = false ∧ w.2.pte.uncached = true ∧
          mmioVaRegistered regs (va - va % pageSize) = true))) ∧
    ∀ h phys va seen, phys ∈ seen → ptValidateTable mem regs h phys va seen ≠ 0 := by
  refine ⟨fun va hva hc => ?_, fun _ _ _ _ => ptValidateTable_of_mem⟩
  have hix : ∀ h, index va h < tableEntries := fun h => Nat.mod_lt _ (by decide)
  have hzero : Entry.present 0#64 = false := by decide
  unfold vmmValidatePml4 at hv
  split_ifs at hv with hroot hfirst
  rw [Bool.not_eq_true', Bool.not_eq_false] at hroot
  obtain ⟨e4, he4⟩ : ∃ e, mem (root / pageSize) (index va 3) = e := ⟨_, rfl⟩
  obtain ⟨e3, he3⟩ : ∃ e, mem (e4.phys / pageSize) (index va 2) = e := ⟨_, rfl⟩
  obtain ⟨e2, he2⟩ : ∃ e, mem (e3.phys / pageSize) (index va 1) = e := ⟨_, rfl⟩
  obtain ⟨e1, he1⟩ : ∃ e, mem (e2.phys / pageSize) (index va 0) = e := ⟨_, rfl⟩
  simp only [vmmWalkInPml4, Entry.frame, hroot, hc, he4, he3, he2, he1, Bool.not_true,
    Bool.false_eq_true, or_self, if_false]
  by_cases hp4 : e4.present = true
  swap
  · simp [hp4]
  obtain ⟨hok3, hz3⟩ := ptValidateTable_child hv (hix 3) (he4 ▸ hp4) (by omega)
  rw [he4] at hok3 hz3
  by_cases hp3 : e3.present = true
  swap
  · simp [hp4, hok3, hp3]
  by_cases hps3 : e3.ps = true
  · simp [hp4, hok3, hp3, hps3, hzero]
  obtain ⟨hok2, hz2⟩ := ptValidateTable_child hz3 (hix 2) (he3 ▸ hp3)
    fun _ => he3 ▸ Bool.eq_false_iff.2 hps3
  rw [he3] at hok2 hz2
  by_cases hp2 : e2.present = true
  swap
  · simp [hp4, hok3, hp3, hps3, hok2, hp2]
  by_cases hps2 : e2.ps = true
  · simp [hp4, hok3, hp3, hps3, hok2, hp2, hps2, hzero]
  obtain ⟨hok1, hz1⟩ := ptValidateTable_child hz2 (hix 1) (he2 ▸ hp2)
    fun _ => he2 ▸ Bool.eq_false_iff.2 hps2
  rw [he2] at hok1 hz1
  by_cases hp1 : e1.present = true
  swap
  · simp [hp4, hok3, hp3, hps3, hok2, hp2, hps2, hok1, hp1]
  have hleaf := checkEntry_eq_zero (checkTable_eq_zero hz1 (hix 0)) (he1 ▸ hp1) (by omega)
  rw [childVa_index hva hc, he1] at hleaf
  simp only [hp4, hok3, hp3, hps3, hok2, hp2, hps2, hok1, hp1, Bool.not_true, Bool.false_eq_true,
    if_false, true_or, true_and, forall_const]
  obtain ⟨-, hwindow⟩ | ⟨hok, -⟩ := hleaf
  · exact .inr hwindow
  rw [physOk_phys] at hok
  have hrange : e1.phys < maxPhys := by simpa using (Bool.and_eq_true_iff.1 hok).2
  have halign := e1.phys_eq
  simp only [pageSize, maxPhys] at *
  exact .inl (by omega)

def chainMem : PagedTree.Mem Entry := fun t i =>
  if i = 0 ∧ 1 ≤ t ∧ t ≤ 4 then BitVec.ofNat 64 ((t + 1) * 4096 + 3) else 0

theorem validated_walks_chain : vmmValidatePml4 chainMem [] 0x1000 = 0 ∧
    ((vmmWalkInPml4 chainMem 0x1000 0x123).1 = 0 ∨ (vmmWalkInPml4 chainMem 0x1000 0x123).1 = 1) := by
  have hv : vmmValidatePml4 chainMem [] 0x1000 = 0 := by decide +kernel
  exact ⟨hv, ((validated_walks chainMem [] 0x1000 hv).1 0x123 (by decide) (by decide)).1⟩

end RixuriOS.Mm
