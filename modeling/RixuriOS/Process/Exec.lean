import RixuriOS.Elf.Loader
import RixuriOS.Process.Clone
import RixuriOS.Process.World

/-!
# New address spaces for processes

`process_create_user`, `process_fork` and `process_exec_user_with_args`: an address
space is created or cloned, gets its stack, its image and its arguments, and is
destroyed again when one of these steps fails. `Building` is what holds of an
address space on the way.

The process table is not modelled here: `slot` says whether `process_create_locked`
finds room for a process.
-/

namespace RixuriOS.Process

open Mm PagedTree ByteCodec Elf List

def userStackTop : Nat := 0x7FFFFFFFF000

def userStackPages : Nat := 32

def userStackBase : Nat := userStackTop - userStackPages * pageSize

def kernelStackPages : Nat := 8

def processArgMax : Nat := 16

def processArgTextMax : Nat := 128

def mapUserStack (as : Nat) (m : Machine) : Int × Machine :=
  forSlots (fun i m =>
    let (r, _, m) := mapNewPage as (userStackBase + i * pageSize) (pteWrite ||| pteUser ||| pteNx) m
    (r, m)) (List.range userStackPages) m

def allocKernelStack (m : Machine) : Nat × Machine :=
  let (ks, pmm) := pmmAllocPages m.pmm kernelStackPages
  let m := { m with pmm }
  if ks = 0 then (0, m) else
  (ks, (List.range kernelStackPages).foldl (fun m i => m.fill (ks / pageSize + i) fun _ => 0) m)

/-! ### Arguments -/

def stackWriteBytes (as : Nat) : Nat → List Byte → Machine → Int × Machine
  | _, [], m => (0, m)
  | address, b :: bs, m =>
    let pa := addressSpaceTranslate m as address
    if pa = 0 then (-1, m) else stackWriteBytes as (address + 1) bs (m.poke pa b)

def stackWrite (as address : Nat) (source : List Byte) (m : Machine) : Int × Machine :=
  -- `USER_STACK_TOP - address` wraps
  if address < userStackBase ∨ source.length > (2 ^ 64 + userStackTop - address) % 2 ^ 64 then (-1, m)
  else stackWriteBytes as address source m

def stackWriteU64 (as address value : Nat) (m : Machine) : Int × Machine :=
  stackWrite as address ((List.range 8).map (byteOf value)) m

/-- `stack_copy_string`: the address of the copy, which is the new stack pointer. -/
def stackCopyString (as sp : Nat) (source : List Byte) (m : Machine) : Option Nat × Machine :=
  let text := source.takeWhile (· ≠ 0)
  if text.length ≥ processArgTextMax ∨ sp < userStackBase + text.length + 1 then (none, m) else
  let sp := sp - (text.length + 1)
  let (r, m) := stackWrite as sp text m
  if r ≠ 0 then (none, m) else
  let (r, m) := stackWrite as (sp + text.length) [0] m
  if r ≠ 0 then (none, m) else (some sp, m)

/-- A loop of `stack_build_args` that copies strings, the last one first: the stack pointer and the
addresses in order. -/
def stackCopyStrings (as : Nat) :
    List (List Byte) → Nat → List Nat → Machine → Option (Nat × List Nat) × Machine
  | [], sp, addresses, m => (some (sp, addresses), m)
  | s :: ss, sp, addresses, m =>
    match stackCopyString as sp s m with
    | (none, m) => (none, m)
    | (some sp, m) => stackCopyStrings as ss sp (sp :: addresses) m

/-- The words that `stack_build_args` pushes, in order: padding, the empty auxiliary vector, the
environment, the arguments and their number. -/
def stackVector (argAddress envAddress : List Nat) : List Nat :=
  (if (argAddress.length + envAddress.length + 5) % 2 = 1 then [0] else []) ++ [0, 0] ++
    (0 :: envAddress.reverse) ++ (0 :: argAddress.reverse) ++ [argAddress.length]

def stackPush (as : Nat) : List Nat → Nat → Machine → Option Nat × Machine
  | [], sp, m => (some sp, m)
  | w :: ws, sp, m =>
    let (r, m) := stackWriteU64 as (sp - 8) w m
    if r ≠ 0 then (none, m) else stackPush as ws (sp - 8) m

def stackBuildArgs (as : Nat) (argv envp : List (List Byte)) (m : Machine) : Option Nat × Machine :=
  if argv.length > processArgMax ∨ envp.length > processArgMax then (none, m) else
  match stackCopyStrings as argv.reverse userStackTop [] m with
  | (none, m) => (none, m)
  | (some (sp, argAddress), m) =>
    match stackCopyStrings as envp.reverse sp [] m with
    | (none, m) => (none, m)
    | (some (sp, envAddress), m) =>
      let sp := sp / 16 * 16
      let words := argv.length + envp.length + 5
      if sp < userStackBase ∨ words + words % 2 > (sp - userStackBase) / 8 then (none, m) else
      stackPush as (stackVector argAddress envAddress) sp m

/-! ### Processes -/

/-- What a new process gets: its address space and its kernel stack. -/
structure NewProcess where
  space : Nat
  kernelStack : Nat

def processCreateUser (slot : Bool) (f : Image) (m : Machine) :
    Option (NewProcess × Nat) × Machine :=
  if f.size = 0 ∨ !slot then (none, m) else
  let (r, as, m) := addressSpaceCreate m
  if r ≠ 0 then (none, addressSpaceDestroy m as) else
  let (r, m) := mapUserStack as m
  if r ≠ 0 then (none, addressSpaceDestroy m as) else
  match elfLoadImage f as m with
  | (none, m) => (none, addressSpaceDestroy m as)
  | (some elf, m) =>
    let (ks, m) := allocKernelStack m
    if ks = 0 then (none, addressSpaceDestroy m as) else (some (⟨as, ks⟩, elf.entry), m)

def processFork (slot : Bool) (parent userRip userRsp : Nat) (m : Machine) :
    Option NewProcess × Machine :=
  if userRip = 0 ∨ userRsp = 0 ∨ parent = 0 ∨ !slot then (none, m) else
  let (r, child, m) := addressSpaceClone m parent
  if r ≠ 0 then (none, addressSpaceDestroy m child) else
  let (ks, m) := allocKernelStack m
  if ks = 0 then (none, addressSpaceDestroy m child) else (some ⟨child, ks⟩, m)

structure Execed where
  space : Nat
  entry : Nat
  userStack : Nat

/-- `process_exec_user_with_args` for a process with the address space `as` and `threads` threads. -/
def processExecUserWithArgs (as threads : Nat) (f : Image) (argv envp : List (List Byte))
    (m : Machine) : Option Execed × Machine :=
  if f.size = 0 ∨ argv.length > processArgMax ∨ envp.length > processArgMax ∨ as = 0 ∨ threads > 1
  then (none, m) else
  let (r, replacement, m) := addressSpaceCreate m
  if r ≠ 0 then (none, m) else
  let (r, m) := mapUserStack replacement m
  if r ≠ 0 then (none, addressSpaceDestroy m replacement) else
  match elfLoadImage f replacement m with
  | (none, m) => (none, addressSpaceDestroy m replacement)
  | (some elf, m) =>
    match stackBuildArgs replacement argv envp m with
    | (none, m) => (none, addressSpaceDestroy m replacement)
    | (some userStack, m) => (some ⟨replacement, elf.entry, userStack⟩, addressSpaceDestroy m as)

/-! ### An address space on the way -/

/-- The address space `r` was built since the state `m0`; it maps only pages of its own, none of
them both writable and executable. -/
structure Building (m0 : Machine) (r : Nat) (m : Machine) : Prop where
  inv : SpaceInv m0 r m []
  leaf : ∀ va, LeafOk [] (leafVal m r (index va))

variable {m : Machine} {bs : List Byte} {r : Nat}

theorem forSlots_inv {P : Machine → Prop} {body : Nat → Machine → Int × Machine} {is : List Nat}
    (hbody : ∀ i ∈ is, ∀ m, P m → P (body i m).2) (h : P m) : P (forSlots body is m).2 := by
  induction is generalizing m with
  | nil => exact h
  | cons i is ih =>
    have hstep := hbody i mem_cons_self m h
    unfold forSlots
    generalize body i m = res at hstep
    obtain ⟨r, m'⟩ := res
    simp only
    split
    · exact hstep
    · exact ih (fun j hj => hbody j (mem_cons_of_mem _ hj)) hstep

section

variable {m0 : Machine} (h : Building m0 r m)

include h

theorem Building.owned (va : Nat) (hp : (leafVal m r (index va)).present = true) :
    (leafVal m r (index va)).frame ∈ userPages m r :=
  h.inv.tree.owned_of_leaf hp ((h.leaf va hp).1.resolve_right (by simp))

variable {p : Nat}

theorem Building.write (hp : p ∈ userPages m r) (i : Nat)
    (e : Entry) : Building m0 r (m.write p i e) := by
  have hin : p ∈ pages m r := mem_append_right _ hp
  have htables : SameTables m (m.write p i e) r := fun x hx =>
    setEntry_of_ne m.mem i e (h.inv.tree.ne_of_owned hx hp).symm
  have hforeign : ∀ q, q ∉ m0.pmm.freeSet → (m.write p i e).mem q = m.mem q := fun q hq =>
    setEntry_of_ne m.mem i e fun he => (h.inv.foreign q hq).2.2.1 (he ▸ hin)
  have hpages : pages (m.write p i e) r = pages m r := pages_congr htables
  refine ⟨⟨⟨h.inv.ok.wf, h.inv.ok.zero⟩, h.inv.tree.same htables h.inv.tree.live, ?_,
    h.inv.kernelPml4, h.inv.kernel, h.inv.managed, h.inv.reserved, nodup_nil, by simp,
    fun q hq => ?_, fun q hq => ?_⟩, fun va => ?_⟩
  · refine h.inv.borrows.congr rfl ?_ fun i _ => by rw [htables _ (root_mem_tree m r)]
    exact hforeign _ (by rw [h.inv.kernelPml4]; exact h.inv.kernel)
  · rw [hpages, hforeign q hq]
    exact h.inv.foreign q hq
  · rw [hpages]
    exact h.inv.kept q hq
  · rw [leafVal_same_tables htables]
    exact h.leaf va

theorem Building.pokes (hp : p ∈ userPages m r) {pa : Nat}
    (hlow : p * pageSize ≤ pa) (hhigh : pa + bs.length ≤ (p + 1) * pageSize) :
    Building m0 r (m.pokes pa bs) := by
  induction bs generalizing m pa with
  | nil => exact h
  | cons b bs ih =>
    rw [length_cons] at hhigh
    have hpage : pa / pageSize = p := by
      unfold pageSize at *
      omega
    have hstep : Building m0 r (m.poke pa b) := h.write (hpage ▸ hp) _ _
    have hsame : SameTables m (m.poke pa b) r := fun x hx =>
      setEntry_of_ne m.mem _ _ (hpage ▸ (h.inv.tree.ne_of_owned hx hp).symm)
    refine ih hstep ?_ (by omega) (by omega)
    rw [userPages, ownedPages_congr own hsame]
    exact hp

theorem Building.evolve {m' : Machine} {va : Nat} (hev : Evolves m m' r [])
    (hother : SameElsewhere m m' r va) (hnew : LeafOk [] (leafVal m' r (index va))) :
    Building m0 r m' :=
  ⟨h.inv.evolve hev (.refl _), leaf_of_other h.leaf hother hnew⟩

end

inductive Placed (m0 : Machine) (r : Nat) : Int × Nat × Machine → Prop
  | failed (rc : Int) (hrc : rc ≠ 0) (pa : Nat) (m : Machine) (h : Building m0 r m) :
      Placed m0 r (rc, pa, m)
  | done (q : Nat) (m : Machine) (h : Building m0 r m)
      (hq : q ∈ userPages m r) : Placed m0 r (0, q * pageSize, m)

section

variable {m0 : Machine} (h : Building m0 r m) (va : Nat) (flags : Entry)
  (hflags : flags.writable = true → flags.nx = true)

include h hflags

theorem mapNewPage_spec : Placed m0 r (mapNewPage (r * pageSize) va flags m) := by
  unfold mapNewPage
  obtain ⟨ha, -⟩ | ⟨q, hq, hq0, ha⟩ := Machine.allocPage_cases h.inv.ok
  · rw [ha]
    exact .failed _ (by decide) _ m h
  have hne := page_mul_ne_zero hq0
  have hspec := h.inv.mapFresh hq (fun _ => 0) va flags
  rw [ha]
  simp only [if_neg hne, page_mul_div]
  generalize addressSpaceMap ((m.grab q).fill q fun _ => 0) (r * pageSize) va (q * pageSize) flags = res
    at hspec
  obtain ⟨m', hinv, hleaf⟩ | ⟨m', hinv, hsame, hother, ⟨hnew, -⟩, -⟩ := hspec
  · refine .failed _ (by decide) _ _ ⟨hinv.giveBack, fun v => ?_⟩
    change LeafOk [] (leafVal m' r (index v))
    rw [hleaf _ (index_lt v)]
    exact h.leaf v
  refine .done q m' ⟨hinv, leaf_of_other h.leaf hother ?_⟩ hnew
  rw [hsame]
  exact leafOk_leafEntry ((Pmm.mem_freeSet.1 hq).1.trans_le maxPages_le) (.inl rfl) hflags

theorem placePage_spec : Placed m0 r (placePage (r * pageSize) va flags m) := by
  unfold placePage
  simp only
  split
  · exact mapNewPage_spec h va flags hflags
  split
  · exact .failed _ (by decide) _ m h
  have hspec := addressSpaceUpdateFlags_spec h.inv.ok h.inv.tree va flags
  generalize addressSpaceUpdateFlags m (r * pageSize) va flags = res at hspec
  obtain ⟨m', hq⟩ | ⟨m', hva, hslot, ⟨hp, -⟩, hev, hsame, hother⟩ := hspec
  · refine .failed (-1) (by decide) _ m' ⟨h.inv.evolve hq.evolves (.refl _), fun v => ?_⟩
    rw [hq.leaf _ (index_lt v)]
    exact h.leaf v
  have hlt := Entry.frame_lt (leafVal m r (index va))
  have hb : Building m0 r m' := h.evolve hev hother <| by
    rw [hsame]
    exact leafOk_leafEntry hlt (.inl rfl) hflags
  have howned := hb.owned va (by rw [hsame, present_leafEntry hlt, present_mapFlags])
  rw [hsame, frame_leafEntry hlt] at howned
  rw [translate_div h.inv.ok h.inv.tree (lt_of_userVa hva) hslot hp]
  exact .done _ m' hb howned

end

/-! ### Loading -/

section

variable {m0 : Machine}

theorem copySegment_building (h : Building m0 r m) {q : Nat}
    (hq : q ∈ userPages m r) (f : Image) (ph : Phdr) (va : Nat) :
    Building m0 r (copySegment f ph va (q * pageSize) m) := by
  -- the copied bytes lie between the ends of the page
  have hlow : va ≤ if ph.vaddr > va then ph.vaddr else va := by split <;> omega
  have hhigh : (if ph.stop < va + pageSize then ph.stop else va + pageSize) ≤ va + pageSize := by
    split <;> omega
  unfold copySegment
  generalize (if ph.vaddr > va then ph.vaddr else va) = start at hlow
  generalize (if ph.stop < va + pageSize then ph.stop else va + pageSize) = stop at hhigh
  simp only
  split
  · split
    · refine h.pokes hq (Nat.le_add_right _ _) ?_
      rw [slice, length_map, length_range]
      rw [Nat.succ_mul]
      omega
    · exact h
  · exact h

theorem loadPage_building (h : Building m0 r m) (f : Image) {ph : Phdr}
    (hflags : (ph.writable && ph.executable) = false) (va : Nat) :
    Building m0 r (loadPage f (r * pageSize) ph va m).2 := by
  have hwx : ph.wanted.writable = true → ph.wanted.nx = true := by
    rw [writable_wanted, nx_wanted]
    intro hw
    rw [hw, Bool.true_and] at hflags
    rw [hflags]
    rfl
  have hspec := placePage_spec h va _ hwx
  unfold loadPage
  generalize placePage (r * pageSize) va ph.wanted m = res at hspec
  obtain ⟨rc, hrc, pa, m', h'⟩ | ⟨q, m', h', hq⟩ := hspec
  · simp only [if_pos hrc]
    exact h'
  · simp only [ne_eq, not_true_eq_false, if_false]
    exact copySegment_building h' hq f ph va

theorem elfLoadImage_building (h : Building m0 r m) (f : Image) :
    Building m0 r (elfLoadImage f (r * pageSize) m).2 := by
  unfold elfLoadImage
  split
  · exact h
  rename_i header hv
  split
  · exact h
  split
  · exact h
  have hloop : Building m0 r
      (forSlots (loadSegment f (r * pageSize)) (List.range header.phnum) m).2 := by
    refine forSlots_inv (P := Building m0 r) (fun i hi m h => ?_) h
    unfold loadSegment
    split
    · exact h
    rename_i ph hph
    split
    · exact h
    rename_i hload
    refine forSlots_inv (P := Building m0 r) (fun va _ m h => loadPage_building h f ?_ va) h
    exact elf64Validate_flags hv (mem_range.1 hi) hph (not_not.1 hload)
  generalize forSlots (loadSegment f (r * pageSize)) (List.range header.phnum) m = res at hloop
  obtain ⟨rc, m'⟩ := res
  simp only
  split
  · exact hloop
  · exact hloop

theorem mapUserStack_building (h : Building m0 r m) :
    Building m0 r (mapUserStack (r * pageSize) m).2 := by
  refine forSlots_inv (fun i _ m h => ?_) h
  have hspec := mapNewPage_spec h (userStackBase + i * pageSize)
    (pteWrite ||| pteUser ||| pteNx) (by decide)
  generalize mapNewPage (r * pageSize) (userStackBase + i * pageSize)
    (pteWrite ||| pteUser ||| pteNx) m = res at hspec
  obtain ⟨rc, hrc, pa, m', h'⟩ | ⟨q, m', h', hq⟩ := hspec
  · exact h'
  · exact h'

/-! ### The stack -/

section

variable (h : Building m0 r m)

include h

theorem stackWriteBytes_building {address : Nat} (hlow : userStackBase ≤ address)
    (hhigh : address + bs.length ≤ userStackTop) :
    Building m0 r (stackWriteBytes (r * pageSize) address bs m).2 := by
  induction bs generalizing m address with
  | nil => exact h
  | cons b bs ih =>
    rw [length_cons] at hhigh
    unfold stackWriteBytes
    simp only
    split
    · exact h
    rename_i hpa
    have hlt : address < 2 ^ 47 := by
      unfold userStackTop at hhigh
      omega
    have hslot : userPml4Ok address = true := by
      have : index address 3 = 255 := by
        unfold userStackBase userStackTop userStackPages pageSize at hlow
        unfold userStackTop at hhigh
        unfold index
        omega
      rw [userPml4Ok, this]
      decide
    have hp : (leafVal m r (index address)).present = true := by
      by_contra hc
      rw [addressSpaceTranslate, walkPte_eq h.inv.ok h.inv.tree hlt hslot] at hpa
      simp [hc] at hpa
    refine ih ?_ (by omega) (by omega)
    rw [translate_eq h.inv.ok h.inv.tree hlt hslot hp]
    refine h.write ?_ _ _
    have hmod : address % pageSize < pageSize := Nat.mod_lt _ (by decide)
    rw [Nat.mul_comm, Nat.mul_add_div (by decide), Nat.div_eq_of_lt hmod, Nat.add_zero]
    exact h.owned _ hp

theorem stackWrite_building (address : Nat) (haddr : address ≤ userStackTop) (source : List Byte) :
    Building m0 r (stackWrite (r * pageSize) address source m).2 := by
  unfold stackWrite
  split
  · exact h
  rename_i hargs
  rw [not_or, not_lt] at hargs
  refine stackWriteBytes_building h hargs.1 ?_
  unfold userStackTop at *
  omega

variable {sp : Nat}

theorem stackCopyString_building (hsp : sp ≤ userStackTop) (source : List Byte) :
    Building m0 r (stackCopyString (r * pageSize) sp source m).2 ∧
      ∀ sp', (stackCopyString (r * pageSize) sp source m).1 = some sp' → sp' ≤ userStackTop := by
  unfold stackCopyString
  simp only
  generalize source.takeWhile (· ≠ 0) = text
  split
  · exact ⟨h, by simp⟩
  rename_i hargs
  rw [not_or, not_lt] at hargs
  have h1 := stackWrite_building h (sp - (text.length + 1)) (by omega) text
  generalize stackWrite (r * pageSize) (sp - (text.length + 1)) text m = res at h1
  obtain ⟨rc, m1⟩ := res
  simp only
  split
  · exact ⟨h1, by simp⟩
  have h2 := stackWrite_building h1 (sp - (text.length + 1) + text.length) (by omega) [0]
  generalize stackWrite (r * pageSize) (sp - (text.length + 1) + text.length) [0] m1 = res at h2
  obtain ⟨rc, m2⟩ := res
  simp only
  split
  · exact ⟨h2, by simp⟩
  refine ⟨h2, fun sp' he => ?_⟩
  cases he
  omega

theorem stackCopyStrings_building (hsp : sp ≤ userStackTop) (strings : List (List Byte))
    (acc : List Nat) :
    Building m0 r (stackCopyStrings (r * pageSize) strings sp acc m).2 ∧
      ∀ x, (stackCopyStrings (r * pageSize) strings sp acc m).1 = some x → x.1 ≤ userStackTop := by
  induction strings generalizing sp acc m with
  | nil =>
    refine ⟨h, fun x he => ?_⟩
    cases he
    exact hsp
  | cons s ss ih =>
    obtain ⟨h1, hsp1⟩ := stackCopyString_building h hsp s
    unfold stackCopyStrings
    generalize stackCopyString (r * pageSize) sp s m = res at h1 hsp1
    obtain ⟨_ | sp', m1⟩ := res
    · exact ⟨h1, by simp⟩
    · exact ih h1 (hsp1 sp' rfl) (sp' :: acc)

theorem stackPush_building (hsp : sp ≤ userStackTop) (words : List Nat) :
    Building m0 r (stackPush (r * pageSize) words sp m).2 := by
  induction words generalizing sp m with
  | nil => exact h
  | cons w ws ih =>
    have h1 := stackWrite_building h (sp - 8) (by omega)
      ((List.range 8).map (byteOf w))
    unfold stackPush stackWriteU64
    generalize stackWrite (r * pageSize) (sp - 8) ((List.range 8).map (byteOf w)) m = res at h1
    obtain ⟨rc, m1⟩ := res
    simp only
    split
    · exact h1
    · exact ih h1 (by omega)

theorem stackBuildArgs_building (argv envp : List (List Byte)) :
    Building m0 r (stackBuildArgs (r * pageSize) argv envp m).2 := by
  unfold stackBuildArgs
  split
  · exact h
  obtain ⟨h1, hsp1⟩ := stackCopyStrings_building h (le_refl userStackTop) argv.reverse []
  generalize stackCopyStrings (r * pageSize) argv.reverse userStackTop [] m = res at h1 hsp1
  obtain ⟨_ | ⟨sp1, args⟩, m1⟩ := res
  · exact h1
  obtain ⟨h2, hsp2⟩ := stackCopyStrings_building h1 (hsp1 _ rfl) envp.reverse []
  simp only
  generalize stackCopyStrings (r * pageSize) envp.reverse sp1 [] m1 = res at h2 hsp2
  obtain ⟨_ | ⟨sp2, envs⟩, m2⟩ := res
  · exact h2
  simp only
  split
  · exact h2
  · exact stackPush_building h2 ((Nat.div_mul_le_self _ _).trans (hsp2 _ rfl)) _

end

end

/-! ### Processes -/

theorem fillAll_spec (l : List Nat) (row : Nat → Entry) (m : Machine) :
    (l.foldl (fun m p => m.fill p row) m).pmm = m.pmm ∧
      (l.foldl (fun m p => m.fill p row) m).kernelPml4 = m.kernelPml4 ∧
      ∀ q, q ∉ l → (l.foldl (fun m p => m.fill p row) m).mem q = m.mem q := by
  induction l generalizing m with
  | nil => exact ⟨rfl, rfl, fun _ _ => rfl⟩
  | cons p l ih =>
    obtain ⟨h1, h2, h3⟩ := ih (m.fill p row)
    refine ⟨h1, h2, fun q hq => ?_⟩
    rw [mem_cons, not_or] at hq
    exact (h3 q hq.2).trans (Function.update_of_ne hq.1 _ _)

/-- `pmm_alloc_pages` for a kernel stack takes a range of pages, which are cleared, or fails. -/
inductive KernelStack (m : Machine) : Nat × Machine → Prop
  | failed : KernelStack m (0, m)
  | done (start : Nat) (m' : Machine)
      (hrange : Finset.Ico start (start + kernelStackPages) ⊆ m.pmm.freeSet)
      (hstart : start * pageSize ≠ 0)
      (hpmm : m'.pmm = m.pmm.takeRange start kernelStackPages)
      (hk : m'.kernelPml4 = m.kernelPml4)
      (hmem : ∀ q, q ∉ range' start kernelStackPages → m'.mem q = m.mem q) :
      KernelStack m (start * pageSize, m')

theorem allocKernelStack_spec (hok : m.Ok) : KernelStack m (allocKernelStack m) := by
  have hspec := pmmAllocPages_spec m.pmm kernelStackPages
  unfold allocKernelStack
  generalize pmmAllocPages m.pmm kernelStackPages = res at hspec
  obtain ⟨start, hrange, -⟩ | - := hspec
  · simp only [page_mul_div]
    split
    · rename_i h0
      obtain rfl : start = 0 := (Nat.mul_eq_zero.1 h0).resolve_right (by decide)
      exact absurd rfl (hok.ne_zero (hrange (Finset.mem_Ico.2 ⟨le_refl _, by decide⟩)))
    rename_i hne
    obtain ⟨h1, h2, h3⟩ := fillAll_spec (range' start kernelStackPages) (fun _ => 0)
      { m with pmm := m.pmm.takeRange start kernelStackPages }
    rw [List.range'_eq_map_range, foldl_map] at h1 h2 h3
    exact .done start _ hrange hne h1 h2 h3
  · exact .failed

section

variable {roots held shared : List Nat} (hs : Spaces m roots held) (hw : World m roots held shared)

include hs hw

theorem World.mapped_used (hr : r ∈ roots) {jx : Nat → Nat} (hjx : ValidIndex jx)
    (hp : (leafVal m r jx).present = true) : (leafVal m r jx).frame ∉ m.pmm.freeSet := by
  have hsame : leafVal m r jx = leafVal m r (index (addressOf jx)) :=
    leafVal_same (sameAddress_addressOf hjx)
  rw [hsame] at hp ⊢
  obtain ho | hc := (hw.leaf r hr _ hp).1
  · have howned := (hs.tree r hr).owned_of_leaf hp ho
    exact ((hs.tree r hr).live _ (mem_append_right _ howned)).not_free
  · exact (hs.held_live _ (hw.shared_held _ hc)).1.not_free

theorem addressSpaceCreate_building :
    (∃ rc m', rc ≠ 0 ∧ addressSpaceCreate m = (rc, 0, m') ∧ Restored m m') ∨
      ∃ r m', addressSpaceCreate m = (0, r * pageSize, m') ∧ Building m r m' := by
  have hcreate := addressSpaceCreate_spec hs.ok hw.kernel_used
  generalize addressSpaceCreate m = c at hcreate
  obtain ⟨rc, hrc, m', hm', -⟩ | ⟨r, hr, row, hkernel, hrow⟩ := hcreate
  · exact .inl ⟨rc, m', hrc, rfl, hm'⟩
  refine .inr ⟨r, _, rfl, spaceInv_created hs.ok hw.kernel_used hr hkernel hrow, fun va => ?_⟩
  rw [leafVal_created hrow (index_lt va)]
  exact leafOk_zero _

end

/-- A call that adds an address space and a kernel stack to a system, or that fails and leaves
everything as it was. -/
inductive Spawned (m : Machine) (roots held shared : List Nat) : Option NewProcess → Machine → Prop
  | failed (m' : Machine) (hm' : Restored m m') : Spawned m roots held shared none m'
  | done (r start : Nat) (m' : Machine)
      (hs : Spaces m' (r :: roots) (range' start kernelStackPages ++ held))
      (hw : World m' (r :: roots) (range' start kernelStackPages ++ held) shared)
      (htables : ∀ r' ∈ roots, SameTables m m' r') :
      Spawned m roots held shared (some ⟨r * pageSize, start * pageSize⟩) m'

/-- `process_exec_user_with_args` replaces the address space `old`, or leaves everything as it
was. -/
inductive ExecOutcome (m : Machine) (roots held shared : List Nat) (old : Nat) :
    Option Execed × Machine → Prop
  | failed (m' : Machine) (hm' : Restored m m') : ExecOutcome m roots held shared old (none, m')
  | done (r entry userStack : Nat) (m' : Machine) (hnew : r ∉ roots)
      (hspaces : ∀ roots' : List Nat, roots'.Nodup →
        (∀ r' ∈ roots', r' ∈ r :: roots ∧ r' ≠ old) →
        Spaces m' roots' held ∧ World m' roots' held shared)
      (htables : ∀ r' ∈ roots, SameTables m m' r') :
      ExecOutcome m roots held shared old (some ⟨r * pageSize, entry, userStack⟩, m')

section

variable {roots held shared : List Nat} (hs : Spaces m roots held) (hw : World m roots held shared)

include hs hw

theorem spawned_allocKernelStack {m1 : Machine} (hinv : SpaceInv m r m1 [])
    (hleaf : ∀ va, LeafOk shared (leafVal m1 r (index va))) :
    Spawned m roots held shared
      (if (allocKernelStack m1).1 = 0 then none else some ⟨r * pageSize, (allocKernelStack m1).1⟩)
      (if (allocKernelStack m1).1 = 0 then addressSpaceDestroy (allocKernelStack m1).2 (r * pageSize)
        else (allocKernelStack m1).2) := by
  have hs1 := hs.create hinv
  have hw1 := hw.create hs hinv hleaf
  have hstack := allocKernelStack_spec hinv.ok
  generalize allocKernelStack m1 = res at hstack
  obtain _ | ⟨start, m2, hrange, hne, hpmm, hk, hmem⟩ := hstack
  · simp only [if_true]
    exact .failed _ hinv.destroy
  simp only [if_neg hne]
  refine .done r start m2 (hs1.takeRange hrange hpmm hmem) (hw1.takeRange hs1 hrange hpmm hk hmem)
    fun r' hr' x hx => ?_
  have hlive := (hs.tree r' hr').live _ (mem_pages_of_tree hx)
  refine (hmem _ fun hc => hinv.not_free hlive.not_free ?_).trans (hinv.foreign _ hlive.not_free).1
  exact hrange (Finset.mem_Ico.2 (mem_range'_1.1 hc))

theorem processCreateUser_spec (slot : Bool) (f : Image) :
    Spawned m roots held shared ((processCreateUser slot f m).1.map Prod.fst)
      (processCreateUser slot f m).2 := by
  unfold processCreateUser
  split
  · exact .failed m (.refl hs.ok)
  obtain ⟨rc, m1, hrc, hc, hm1⟩ | ⟨r, m1, hc, h1⟩ := addressSpaceCreate_building hs hw
  · rw [hc]
    simp only [if_pos hrc, addressSpaceDestroy, if_true]
    exact .failed m1 hm1
  rw [hc]
  simp only [ne_eq, not_true_eq_false, if_false]
  have h2 := mapUserStack_building h1
  generalize mapUserStack (r * pageSize) m1 = res at h2
  obtain ⟨rc, m2⟩ := res
  simp only
  split
  · exact .failed _ h2.inv.destroy
  have h3 := elfLoadImage_building h2 f
  generalize elfLoadImage f (r * pageSize) m2 = res at h3
  obtain ⟨_ | elf, m3⟩ := res
  · exact .failed _ h3.inv.destroy
  have hstack := spawned_allocKernelStack hs hw h3.inv fun va =>
    (h3.leaf va).mono (by simp)
  simp only
  split_ifs at hstack ⊢ <;> exact hstack

theorem processFork_spec (slot : Bool) {parent : Nat} (hparent : parent ∈ roots)
    (userRip userRsp : Nat) :
    Spawned m roots held shared (processFork slot (parent * pageSize) userRip userRsp m).1
      (processFork slot (parent * pageSize) userRip userRsp m).2 := by
  unfold processFork
  split
  · exact .failed m (.refl hs.ok)
  have hclone := addressSpaceClone_spec (hs.tree parent hparent) hs.ok
    (fun jx hjx hp => hw.mapped_used hs hparent hjx hp) hw.kernel_used
  generalize addressSpaceClone m (parent * pageSize) = c at hclone
  obtain ⟨rc, hrc, m1, hm1⟩ | ⟨r, m1, hinv, hcopy⟩ := hclone
  · simp only [if_pos hrc, addressSpaceDestroy, if_true]
    exact .failed m1 hm1
  simp only [ne_eq, not_true_eq_false, if_false]
  have hleaf : ∀ va, LeafOk shared (leafVal m1 r (index va)) := fun va => by
    obtain ⟨habs, hpres⟩ := hcopy _ (index_lt va)
    cases hp : (leafVal m parent (index va)).present with
    | false =>
      rw [habs hp]
      exact leafOk_zero _
    | true =>
    obtain ⟨q, hq, he, -⟩ := hpres hp
    have hqlt := (hinv.tree.live q (mem_append_right _ hq)).lt.trans_le maxPages_le
    rw [he]
    refine leafOk_leafEntry hqlt (.inl rfl) fun hwr => ?_
    rw [Entry.writable_and, show cloneFlags.writable = true by decide, Bool.and_true] at hwr
    rw [Entry.nx_and, show cloneFlags.nx = true by decide, Bool.and_true]
    exact (hw.leaf parent hparent va hp).2 hwr
  have hstack := spawned_allocKernelStack hs hw hinv hleaf
  split_ifs at hstack ⊢ <;> exact hstack

theorem processExecUserWithArgs_spec {old : Nat} (hold : old ∈ roots) (threads : Nat) (f : Image)
    (argv envp : List (List Byte)) :
    ExecOutcome m roots held shared old
      (processExecUserWithArgs (old * pageSize) threads f argv envp m) := by
  unfold processExecUserWithArgs
  split
  · exact .failed m (.refl hs.ok)
  obtain ⟨rc, m1, hrc, hc, hm1⟩ | ⟨r, m1, hc, h1⟩ := addressSpaceCreate_building hs hw
  · rw [hc]
    simp only [if_pos hrc]
    exact .failed m1 hm1
  rw [hc]
  simp only [ne_eq, not_true_eq_false, if_false]
  have h2 := mapUserStack_building h1
  generalize mapUserStack (r * pageSize) m1 = res at h2
  obtain ⟨rc, m2⟩ := res
  simp only
  split
  · exact .failed _ h2.inv.destroy
  have h3 := elfLoadImage_building h2 f
  generalize elfLoadImage f (r * pageSize) m2 = res at h3
  obtain ⟨_ | elf, m3⟩ := res
  · exact .failed _ h3.inv.destroy
  have h4 := stackBuildArgs_building h3 argv envp
  simp only
  generalize stackBuildArgs (r * pageSize) argv envp m3 = res at h4
  obtain ⟨_ | userStack, m4⟩ := res
  · exact .failed _ h4.inv.destroy
  have hs4 := hs.create h4.inv
  have hw4 := hw.create hs h4.inv fun va => (h4.leaf va).mono (by simp)
  have hmem := (hw4.destroy hs4 (mem_cons_of_mem r hold) nodup_nil (by simp)).2.2
  refine .done r elf.entry userStack _ (nodup_cons.1 hs4.nodup).1 (fun roots' hnd hsub => ?_)
    fun r' hr' x hx => ?_
  · obtain ⟨hsp, hwp, -⟩ := hw4.destroy hs4 (mem_cons_of_mem r hold) hnd hsub
    exact ⟨hsp, hwp⟩
  · rw [hmem]
    exact (h4.inv.foreign _ ((hs.tree r' hr').live _ (mem_pages_of_tree hx)).not_free).1

end

end RixuriOS.Process
