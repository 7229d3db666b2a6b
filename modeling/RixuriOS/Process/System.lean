import RixuriOS.Process.Exec
import RixuriOS.Process.SharedMemory

/-!
# Processes and their system calls

A run of the system calls that change address spaces: a process is created, forks,
executes another image, moves its break, and creates, maps and unmaps shared memory.
Between the calls a process may store to its own memory. No page of a process is ever
both writable and executable, unless the flags passed to `shm_map` ask for it.

A call runs to its end before the next one, except `process_brk`, which the model of
`Brk` takes one statement at a time.
-/

namespace RixuriOS.Process

open Mm PagedTree ByteCodec Elf List Function

variable {m m' : Machine} {va : Nat} {flags : Entry}

/-- The leaf entry that the CPU finds for an access from user mode: every table on the way has to be
open to the user. -/
def userLeaf (m : Machine) (va : Nat) : Nat → Nat → Option Entry
  | 0, table =>
    let e := m.mem table (index va 0)
    if e.present && e.user then some e else none
  | h + 1, table =>
    let e := m.mem table (index va (h + 1))
    if !(e.present && e.user) then none
    else if h + 1 ≤ 2 && e.ps then some e
    else userLeaf m va h e.frame

variable {r root : Nat} {e : Entry} {s : BrkState}

theorem leafAt_of_userLeaf (h : UserTree m root) {k d t : Nat} (hk : k + d = 3)
    (ht : node child m.mem (index va) k d root = some t) (he : userLeaf m va k t = some e) :
    leafAt child m.mem (index va) k t = some e ∧ e.present = true := by
  induction k generalizing d t with
  | zero =>
    unfold userLeaf at he
    simp only at he
    split at he
    · rename_i hpu
      cases he
      exact ⟨rfl, (Bool.and_eq_true _ _ ▸ hpu).1⟩
    · cases he
  | succ k ih =>
    have hshape := h.shape _ (mem_tree_of_node hk ht) _ (index_lt va (k + 1))
    unfold userLeaf at he
    simp only at he hshape
    split at he
    · cases he
    rename_i hpu
    rw [Bool.not_eq_true', Bool.not_eq_false, Bool.and_eq_true] at hpu
    have hps := hshape.small hpu.1 hpu.2
    have hc : child (m.mem t (index va (k + 1))) = some (m.mem t (index va (k + 1))).frame := by
      simp [child, hpu.1, hpu.2, hps]
    rw [hps, Bool.and_false, if_neg (by decide)] at he
    rw [leafAt_succ, hc]
    exact ih (by omega) (node_extend ht hc) he

theorem leafVal_of_userLeaf (h : UserTree m root) (he : userLeaf m va 3 root = some e) :
    leafVal m root (index va) = e ∧ e.present = true := by
  obtain ⟨hl, hp⟩ := leafAt_of_userLeaf h (k := 3) (d := 0) rfl rfl he
  exact ⟨by rw [leafVal, hl]; rfl, hp⟩

structure System where
  brk : BrkState
  objects : ShmTable

/-- A system call with its arguments. `slot` and `out` tell whether there is room for a process and
whether the address for a result can be written. -/
inductive Syscall
  | createUser (slot : Bool) (f : Image)
  | exec (pid threads : Nat) (f : Image) (argv envp : List (List Byte))
  | fork (pid : Nat) (slot : Bool) (userRip userRsp : Nat)
  | brk (pid requested : Nat) (out : Bool)
  /-- The next statement of `process_brk`. -/
  | brkNext
  | shmCreate (size : Nat) (out : Bool)
  | shmMap (pid id va : Nat) (flags : Entry)
  | shmUnmap (pid id va : Nat)
  /-- A process stores a word at an address of its own. -/
  | store (pid va : Nat) (w : Entry)

namespace System

def withMachine (s : System) (m : Machine) : System := { s with brk := { s.brk with machine := m } }

def addProcess (s : System) (x : NewProcess) (heap : Nat) (m : Machine) : System :=
  { s with
    brk :=
      { s.brk with
        machine := m
        procs := s.brk.procs ++ [⟨x.space / pageSize, heap, heap⟩]
        others := range' (x.kernelStack / pageSize) kernelStackPages ++ s.brk.others } }

def createUser (s : System) (slot : Bool) (f : Image) : System :=
  match processCreateUser slot f s.brk.machine with
  | (none, m) => s.withMachine m
  | (some (x, _), m) => s.addProcess x userHeapBase m

def fork (s : System) (pid : Nat) (slot : Bool) (userRip userRsp : Nat) : System :=
  match processFork slot (s.brk.space pid) userRip userRsp s.brk.machine with
  | (none, m) => s.withMachine m
  | (some x, m) => s.addProcess x 0 m

def exec (s : System) (pid threads : Nat) (f : Image) (argv envp : List (List Byte)) : System :=
  match processExecUserWithArgs (s.brk.space pid) threads f argv envp s.brk.machine with
  | (none, m) => s.withMachine m
  | (some x, m) =>
    { s with
      brk :=
        { s.brk with
          machine := m
          procs := s.brk.procs.set pid ⟨x.space / pageSize, userHeapBase, userHeapBase⟩ } }

/-- `RIX_SYS_SHM_CREATE`: an object whose id cannot be returned is destroyed again. -/
def shmCreate (s : System) (size : Nat) (out : Bool) : System :=
  match Process.shmCreate s.objects size s.brk.machine with
  | (none, objects, m) => { s.withMachine m with objects }
  | (some id, objects, m) =>
    let frames := (objects id).pages.map (· / pageSize)
    if out then
      { brk := { s.brk with machine := m, others := frames ++ s.brk.others }, objects }
    else
      let (_, objects, m) := shmDestroy objects id m
      { s.withMachine m with objects }

def shmMap (s : System) (pid id va : Nat) (flags : Entry) : System :=
  match s.objects.lookup id with
  | none => s
  | some o =>
    let (r, m) := Process.shmMap o (s.brk.space pid) va flags s.brk.machine
    let o := if r = 0 then { o with refs := (o.refs + 1) % 2 ^ 32 } else o
    { s.withMachine m with objects := update s.objects id o }

def shmUnmap (s : System) (pid id va : Nat) : System :=
  match s.objects.lookup id with
  | none => s
  | some o =>
    let (r, m) := Process.shmUnmap o (s.brk.space pid) va s.brk.machine
    let o := if r = 0 then { o with refs := o.refs - 1 } else o
    { s.withMachine m with objects := update s.objects id o }

def store (s : System) (pid va : Nat) (w : Entry) : System :=
  match s.brk.procs[pid]? with
  | none => s
  | some p =>
    match userLeaf s.brk.machine va 3 p.root with
    | none => s
    | some e =>
      if e.writable then s.withMachine (s.brk.machine.write e.frame (va % pageSize / 8) w) else s

end System

/-- The effect of a system call. While `process_brk` runs, the process lock keeps the others out. -/
def System.dispatch (s : System) (c : Syscall) : System :=
  match s.brk.pc, c with
  | _, .brkNext => { s with brk := s.brk.next }
  | .idle, .createUser slot f => s.createUser slot f
  | .idle, .exec pid threads f argv envp => s.exec pid threads f argv envp
  | .idle, .fork pid slot userRip userRsp => s.fork pid slot userRip userRsp
  | .idle, .brk pid requested out => { s with brk := s.brk.call pid requested out }
  | .idle, .shmCreate size out => s.shmCreate size out
  | .idle, .shmMap pid id va flags => s.shmMap pid id va flags
  | .idle, .shmUnmap pid id va => s.shmUnmap pid id va
  | .idle, .store pid va w => s.store pid va w
  | _, _ => s

def runSyscalls (s : System) (cs : List Syscall) : System := cs.foldl System.dispatch s

/-! ### Between two calls -/

structure IdleInv (s : BrkState) : Prop where
  idle : s.pc = .idle
  inv : BrkInv s
  world : World s.machine (s.procs.map Proc.root) s.others s.others

theorem BrkState.with_idle (h : s.pc = .idle) (m : Machine) (others : List Nat) :
    ({ s with machine := m, others := others } : BrkState) =
      { s with machine := m, others := others, pc := .idle } := by
  cases s
  subst h
  rfl

section

variable (h : IdleInv s)

include h

theorem IdleInv.spaces : Spaces s.machine (s.procs.map Proc.root) s.others := by
  have := h.inv.spaces
  rwa [h.idle] at this

variable {others' : List Nat}

theorem IdleInv.still (hspaces : Spaces m' (s.procs.map Proc.root) others')
    (hworld : World m' (s.procs.map Proc.root) others' others')
    (htables : ∀ r ∈ s.procs.map Proc.root, SameTables s.machine m' r) :
    IdleInv { s with machine := m', others := others' } := by
  refine ⟨h.idle, ?_, hworld⟩
  rw [BrkState.with_idle h.idle]
  exact h.inv.still m' .idle hspaces htables trivial (fun _ _ _ _ hc => by rw [h.idle]; exact hc)
    s.result

theorem IdleInv.restored (hm : Restored s.machine m') : IdleInv { s with machine := m' } :=
  h.still (h.spaces.restored hm) (h.world.restored h.spaces hm) fun r hr _ hx =>
    hm.mem _ ((h.spaces.tree r hr).live _ (mem_pages_of_tree hx)).not_free

theorem IdleInv.evolve {pid : Nat} {p : Proc} (hp : s.procs[pid]? = some p)
    (hev : Evolves s.machine m' p.root [])
    (hleaf : ∀ va, LeafOk s.others (leafVal m' p.root (index va)))
    (hheap : ∀ va, HeapLeaf s.machine p.root va → HeapLeaf m' p.root va) :
    IdleInv { s with machine := m' } := by
  refine ⟨h.idle, ?_, h.world.evolve h.spaces (root_mem hp) hev (.refl _) (fun _ hq => hq) hleaf⟩
  rw [BrkState.with_idle h.idle]
  refine h.inv.evolve hp .idle hev (by rw [h.idle]; rfl) trivial (fun hb va h1 h2 h3 => ?_)
    fun _ _ _ _ hc => by rw [h.idle]; exact hc
  exact hheap va (h.inv.heap pid p hp hb va h1 h2 (by rw [h.idle]; exact h3))

/-- The processes change: what stays keeps its tables, and a new heap is empty. -/
theorem IdleInv.procs (procs' : List Proc) (hspaces : Spaces m' (procs'.map Proc.root) others')
    (hworld : World m' (procs'.map Proc.root) others' others')
    (hprocs : ∀ (pid : Nat) (p : Proc), procs'[pid]? = some p → (s.procs[pid]? = some p ∧
      SameTables s.machine m' p.root) ∨ p.heapBase = 0 ∨ (p.heapBase = userHeapBase ∧
      p.heapBreak = userHeapBase)) :
    IdleInv { s with machine := m', procs := procs', others := others' } := by
  refine ⟨h.idle, ⟨by simp only [h.idle]; exact hspaces, fun p hp hb => ?_, by simp only [h.idle]; trivial,
    fun pid p hp hb va h1 h2 h3 => ?_⟩, hworld⟩
  · obtain ⟨pid, hpid⟩ := List.getElem?_of_mem hp
    obtain ⟨hold, -⟩ | h0 | ⟨h1, h2⟩ := hprocs pid p hpid
    · exact h.inv.bounds p (mem_of_getElem? hold) hb
    · exact absurd h0 hb
    · exact ⟨h1, h2.ge, by rw [h2]; decide⟩
  rw [h.idle] at h3
  obtain ⟨hold, hs⟩ | h0 | ⟨-, hbreak⟩ := hprocs pid p hp
  · rw [HeapLeaf, leafVal_same_tables hs]
    exact h.inv.heap pid p hold hb va h1 h2 (by rw [h.idle]; exact h3)
  · exact absurd h0 hb
  rw [BrkPc.Covers, hbreak] at h3
  have : pageEnd userHeapBase = userHeapBase := by decide
  omega

end

/-! ### Shared memory -/

def Unowned (m : Machine) (r va : Nat) : Prop := own (leafVal m r (index va)) = none

/-- What mapping and unmapping shared pages in the address space `r` keeps. -/
structure SharedStep (s : BrkState) (r : Nat) (m' : Machine) : Prop where
  inv : IdleInv { s with machine := m' }
  unowned : ∀ va, Unowned s.machine r va → Unowned m' r va

theorem SharedStep.trans {m1 m2 : Machine} (h1 : SharedStep s r m1)
    (h2 : SharedStep { s with machine := m1 } r m2) : SharedStep s r m2 :=
  ⟨h2.inv, fun va hva => h2.unowned va (h1.unowned va hva)⟩

theorem HeapLeaf.not_unowned (h : HeapLeaf m r va) : ¬Unowned m r va := by
  rw [Unowned, own, h.1, h.2]
  simp

section

variable (h : IdleInv s) {pid : Nat} {p : Proc} (hp : s.procs[pid]? = some p)

include h hp

theorem IdleInv.setLeaf (hev : Evolves s.machine m' p.root [])
    (hother : SameElsewhere s.machine m' p.root va)
    (hold : Unowned s.machine p.root va) (hnew : Unowned m' p.root va)
    (hok : LeafOk s.others (leafVal m' p.root (index va))) : SharedStep s p.root m' := by
  have hroot := root_mem hp
  refine ⟨h.evolve hp hev (leaf_of_other (h.world.leaf p.root hroot) hother hok) fun v hv => ?_,
    fun v hv => ?_⟩
  · have hns : ¬SameAddress (index va) (index v) := fun hs => by
      rw [Unowned, ← leafVal_same hs] at hold
      exact hv.not_unowned hold
    rw [HeapLeaf, hother _ (index_lt v) hns]
    exact hv
  by_cases hs : SameAddress (index va) (index v)
  · rw [Unowned, leafVal_same hs]
    exact hnew
  · rw [Unowned, hother _ (index_lt v) hs]
    exact hv

theorem IdleInv.mapShared {q : Nat} (hq : q ∈ s.others) (va : Nat)
    (hflags : flags.writable = true → flags.nx = true) :
    SharedStep s p.root
        (addressSpaceMapShared s.machine (p.root * pageSize) va (q * pageSize) flags).2 ∧
      ((addressSpaceMapShared s.machine (p.root * pageSize) va (q * pageSize) flags).1 = 0 →
        Unowned (addressSpaceMapShared s.machine (p.root * pageSize) va (q * pageSize) flags).2
          p.root va) := by
  have hroot := root_mem hp
  have hqlt := (h.spaces.held_live q hq).1.lt.trans_le maxPages_le
  have hspec := mapPage_spec h.spaces.ok (h.spaces.tree _ hroot) va (q * pageSize) flags false
    (by simp)
  change Mapped _ _ _ _ _ (addressSpaceMapShared _ _ _ _ _) at hspec
  generalize addressSpaceMapShared s.machine (p.root * pageSize) va (q * pageSize) flags = res at hspec
  obtain ⟨m', hquiet⟩ | ⟨m', -, -, -, hev, hsame, hother, -, habs⟩ := hspec
  · refine ⟨⟨h.evolve hp hquiet.evolves (fun v => ?_) fun v hv => ?_, fun v hv => ?_⟩, by simp⟩
    · rw [hquiet.leaf _ (index_lt v)]
      exact h.world.leaf p.root hroot v
    · rw [HeapLeaf, hquiet.leaf _ (index_lt v)]
      exact hv
    · rw [Unowned, hquiet.leaf _ (index_lt v)]
      exact hv
  have hown : own (leafEntry (q * pageSize) (mapFlags flags false)) = none := by
    rw [own_leafEntry hqlt (present_mapFlags _ _), owned_mapFlags]
    rfl
  have hnew : Unowned m' p.root va := by
    rw [Unowned, hsame]
    exact hown
  rw [hown] at hev
  refine ⟨h.setLeaf hp hev hother (own_of_absent habs) hnew ?_, fun _ => hnew⟩
  rw [hsame]
  exact leafOk_leafEntry hqlt (.inr hq) hflags

theorem IdleInv.unmapShared
    (hun : userVa va = true → userPml4Ok va = true → Unowned s.machine p.root va) :
    SharedStep s p.root (addressSpaceUnmap s.machine (p.root * pageSize) va).2 := by
  have hspec := addressSpaceUnmap_spec h.spaces.ok (h.spaces.tree _ (root_mem hp)) va
  generalize addressSpaceUnmap s.machine (p.root * pageSize) va = res at hspec
  obtain - | ⟨pt, hva, hslot, -, -, hev, hsame, hother⟩ := hspec
  · exact ⟨h, fun _ hv => hv⟩
  refine h.setLeaf hp hev hother (hun hva hslot) ?_ ?_
  · rw [Unowned, hsame]
    exact own_of_absent (by decide)
  · rw [hsame]
    exact leafOk_zero _

theorem unmapLoop_step {at_ : Nat → Nat} (is : List Nat)
    (hun : ∀ i ∈ is, userVa (at_ i) = true → userPml4Ok (at_ i) = true →
      Unowned s.machine p.root (at_ i)) :
    SharedStep s p.root
      (is.foldl (fun m i => (addressSpaceUnmap m (p.root * pageSize) (at_ i)).2) s.machine) := by
  induction is generalizing s with
  | nil => exact ⟨h, fun _ hv => hv⟩
  | cons i is ih =>
    have hstep := h.unmapShared hp (hun i mem_cons_self)
    exact hstep.trans (ih hstep.inv hp fun j hj h1 h2 =>
      hstep.unowned _ (hun j (mem_cons_of_mem _ hj) h1 h2))

theorem shmMapPages_step (hflags : flags.writable = true → flags.nx = true) {pages : List Nat}
    (hpages : ∀ pa ∈ pages, ∃ q ∈ s.others, pa = q * pageSize) (done : Nat)
    (hdone : ∀ i < done, Unowned s.machine p.root (va + i * pageSize)) :
    SharedStep s p.root (shmMapPages (p.root * pageSize) va flags pages done s.machine).2 := by
  induction pages generalizing s done with
  | nil => exact ⟨h, fun _ hv => hv⟩
  | cons pa rest ih =>
    obtain ⟨q, hq, rfl⟩ := hpages pa mem_cons_self
    obtain ⟨hstep, hmapped⟩ := h.mapShared hp hq (va + done * pageSize) hflags
    unfold shmMapPages
    generalize addressSpaceMapShared s.machine (p.root * pageSize) (va + done * pageSize)
      (q * pageSize) flags = res at hstep hmapped
    obtain ⟨rc, m1⟩ := res
    simp only at hstep hmapped ⊢
    split
    · refine hstep.trans (unmapLoop_step hstep.inv hp _ fun i hi _ _ => hstep.unowned _ (hdone i ?_))
      exact mem_range.1 hi
    rename_i hrc
    refine hstep.trans (ih hstep.inv hp (fun pa hpa => hpages pa (mem_cons_of_mem _ hpa))
      (done + 1) fun i hi => ?_)
    obtain hlt | rfl := Nat.lt_succ_iff_lt_or_eq.1 hi
    · exact hstep.unowned _ (hdone i hlt)
    · exact hmapped (not_not.1 hrc)

theorem shmMap_step (o : ShmObject) (va : Nat) (hflags : flags.writable = true → flags.nx = true)
    (hpages : ∀ pa ∈ o.pages, ∃ q ∈ s.others, pa = q * pageSize) :
    IdleInv { s with machine := (shmMap o (p.root * pageSize) va flags s.machine).2 } := by
  unfold shmMap
  split
  · exact h
  · exact (shmMapPages_step h hp hflags hpages 0 (by simp)).inv

theorem shmUnmap_step (o : ShmObject) (va : Nat) :
    IdleInv { s with machine := (shmUnmap o (p.root * pageSize) va s.machine).2 } := by
  unfold shmUnmap
  split
  · exact h
  simp only
  split
  · exact h
  rename_i hall
  rw [Bool.not_eq_true', Bool.not_eq_false, all_eq_true] at hall
  -- the checks say that no page of the process itself is mapped there
  have hun : ∀ i ∈ List.range o.pages.length, userVa ((va + i * pageSize) % 2 ^ 64) = true →
      userPml4Ok ((va + i * pageSize) % 2 ^ 64) = true →
      Unowned s.machine p.root ((va + i * pageSize) % 2 ^ 64) := fun i hi hva hslot => by
    have hm := hall i hi
    simp only [shmMapped, Bool.and_eq_true, Bool.not_eq_true'] at hm
    have howned := hm.1.2
    rw [queryFlags_owned h.spaces.ok (h.spaces.tree _ (root_mem hp)) (lt_of_userVa hva) hslot]
      at howned
    rw [Unowned, own, howned, Bool.and_false]
    rfl
  have hloop : SharedStep s p.root (forSlots
      (fun i m => addressSpaceUnmap m (p.root * pageSize) ((va + i * pageSize) % 2 ^ 64))
      (List.range o.pages.length) s.machine).2 := by
    generalize List.range o.pages.length = is at hun
    clear hall
    induction is generalizing s with
    | nil => exact ⟨h, fun _ hv => hv⟩
    | cons i is ih =>
      have hstep := h.unmapShared hp (hun i mem_cons_self)
      unfold forSlots
      generalize addressSpaceUnmap s.machine (p.root * pageSize) ((va + i * pageSize) % 2 ^ 64) = res
        at hstep
      obtain ⟨rc, m1⟩ := res
      simp only at hstep ⊢
      split
      · exact hstep
      · exact hstep.trans (ih hstep.inv hp fun j hj h1 h2 =>
          hstep.unowned _ (hun j (mem_cons_of_mem _ hj) h1 h2))
  exact hloop.inv

end

/-! ### The heap -/

/-- `process_brk` keeps the mapped pages as they have to be. -/
theorem BrkInv.next_world (h : BrkInv s)
    (hw : World s.machine (s.procs.map Proc.root) (s.pc.pages ++ s.others) s.others) :
    World s.next.machine (s.next.procs.map Proc.root) (s.next.pc.pages ++ s.next.others)
      s.next.others := by
  have hs := h.spaces
  have hdiv := page_mul_div
  cases hpc : s.pc with
  | idle =>
    rw [hpc] at hw
    simp only [BrkState.next, hpc]
    exact hw
  | grow g va =>
    rw [hpc] at hw hs
    simp only [BrkState.next, hpc]
    split
    · obtain ⟨ha, -⟩ | ⟨q, hq, hq0, ha⟩ := Machine.allocPage_cases h.spaces.ok
      · rw [ha]
        exact hw
      have hne := page_mul_ne_zero hq0
      rw [ha]
      simp only [if_neg hne, BrkPc.pages, hdiv]
      exact hw.take hs hq rfl rfl fun _ _ => rfl
    · rw [map_root_finish]
      exact hw
  | clear g va pa =>
    rw [hpc] at hw hs
    simp only [BrkState.next, hpc]
    exact hw.fill hs mem_cons_self _
  | map g va pa =>
    obtain ⟨p, q, hp, rfl, hl, hspec⟩ := h.map_spec hpc
    rw [hpc] at hw hs
    simp only [BrkPc.pages, hdiv] at hw hs
    simp only [BrkState.next, hpc, space_eq hp]
    generalize addressSpaceMap s.machine (p.root * pageSize) va (q * pageSize)
      BrkState.heapFlags = res at hspec
    obtain ⟨m', hquiet⟩ | ⟨m', -, -, -, hev, hsame, hother, -, -⟩ := hspec
    · simp only [BrkPc.pages, hdiv, ne_eq, Int.reduceNeg, Int.reduceEq, not_false_eq_true, if_true]
      refine hw.evolve hs (root_mem hp) hquiet.evolves (.refl _)
        (fun _ hq => mem_cons_of_mem _ hq) fun v => ?_
      rw [hquiet.leaf _ (index_lt v)]
      exact hw.leaf _ (root_mem hp) v
    have hqlt := hl.lt.trans_le maxPages_le
    rw [own_leafEntry hqlt (present_mapFlags _ _), owned_mapFlags] at hev
    refine hw.evolve hs (root_mem hp) hev (.refl _) (fun _ hq => hq)
      (leaf_of_other (hw.leaf _ (root_mem hp)) hother ?_)
    rw [hsame]
    exact leafOk_leafEntry hqlt (.inl rfl) (by decide)
  | giveUp g va pa =>
    have hok := h.pc
    rw [hpc] at hw hs hok
    obtain ⟨q, rfl⟩ : ∃ q, pa = q * pageSize :=
      ⟨pa / pageSize, by have := hok.2.2; unfold pageSize at *; omega⟩
    simp only [BrkPc.pages, hdiv] at hw hs
    have hq : q ∈ [q] ++ s.others := mem_cons_self
    have hns : q ∉ s.others := fun hc =>
      (nodup_append.1 hs.held_nodup).2.2 q mem_cons_self q hc rfl
    simp only [BrkState.next, hpc, Machine.freePage_live (hs.held_live q hq).1]
    have := hw.release hs hq hns (s.machine.drop_pmm q) rfl rfl
    rwa [singleton_append, erase_cons_head] at this
  | translate pid fin va stop =>
    rw [hpc] at hw
    simp only [BrkState.next, hpc]
    split
    · exact hw
    cases fin with
    | rollback => exact hw
    | shrink requested =>
      simp only [map_root_finish]
      exact hw
  | unmap pid fin va stop pa =>
    have hok := h.pc
    rw [hpc] at hw hs hok
    obtain ⟨p, hp, -⟩ := hok.1.proc
    have hspec := addressSpaceUnmap_spec hs.ok (hs.tree _ (root_mem hp)) va
    simp only [BrkState.next, hpc, space_eq hp]
    generalize addressSpaceUnmap s.machine (p.root * pageSize) va = res at hspec
    obtain - | ⟨pt, -, -, -, -, hev, hsame, hother⟩ := hspec
    · exact hw
    refine hw.evolve hs (root_mem hp) hev (.refl _) (fun _ hq => hq)
      (leaf_of_other (hw.leaf _ (root_mem hp)) hother ?_)
    rw [hsame]
    exact leafOk_zero _
  | free pid fin va stop pa =>
    have hok := h.pc
    rw [hpc] at hw hok
    obtain ⟨-, -, q, hq, rfl⟩ := hok
    simp only [BrkState.next, hpc]
    split
    · have hpmm := Machine.freePage_free hq
      exact hw.still rfl rfl (by rw [hpmm]; exact hw.kernel_used) hw.kernel_held
        (fun _ _ _ _ => rfl) hw.shared_held fun _ hq => hq
    · exact hw

theorem BrkState.next_others (s : BrkState) : s.next.others = s.others := by
  unfold BrkState.next
  cases s.pc with
  | idle => rfl
  | grow g va =>
    simp only
    split
    · split <;> rfl
    · rfl
  | translate pid fin va stop =>
    simp only
    split
    · rfl
    · cases fin <;> rfl
  | _ => rfl

theorem BrkState.call_world (s : BrkState) (pid requested : Nat) (out : Bool) :
    (s.call pid requested out).machine = s.machine ∧ (s.call pid requested out).others = s.others ∧
      (s.call pid requested out).procs.map Proc.root = s.procs.map Proc.root ∧
      (s.call pid requested out).pc.pages = [] := by
  unfold BrkState.call
  split
  · exact ⟨rfl, rfl, rfl, rfl⟩
  split
  · exact ⟨rfl, rfl, rfl, rfl⟩
  split
  · exact ⟨rfl, rfl, rfl, rfl⟩
  split
  · exact ⟨rfl, rfl, rfl, rfl⟩
  simp only
  split
  · exact ⟨rfl, rfl, rfl, rfl⟩
  split
  · exact ⟨rfl, rfl, rfl, rfl⟩
  · exact ⟨rfl, rfl, map_root_finish _ _ _, rfl⟩

/-! ### Runs -/

structure SysInv (s : System) : Prop where
  brk : BrkInv s.brk
  world : World s.brk.machine (s.brk.procs.map Proc.root) (s.brk.pc.pages ++ s.brk.others) s.brk.others
  /-- The pages of an object belong to no process. -/
  objects : ∀ id, (s.objects id).used = true → ∀ pa ∈ (s.objects id).pages,
    ∃ q ∈ s.brk.others, pa = q * pageSize

theorem IdleInv.sysInv (h : IdleInv s) {objects : ShmTable}
    (hobjects : ∀ id, (objects id).used = true → ∀ pa ∈ (objects id).pages,
      ∃ q ∈ s.others, pa = q * pageSize) : SysInv ⟨s, objects⟩ :=
  ⟨h.inv, by simp only [h.idle]; exact h.world, hobjects⟩

section

variable {s : System} (h : SysInv s) (hidle : s.brk.pc = .idle)

include h hidle

namespace SysInv

theorem idleInv : IdleInv s.brk := by
  have hw := h.world
  rw [hidle] at hw
  exact ⟨hidle, h.brk, hw⟩

omit hidle in
theorem withMachine (hm : IdleInv { s.brk with machine := m }) : SysInv (s.withMachine m) :=
  hm.sysInv h.objects

theorem addProcess {x : NewProcess} {heap : Nat} (hheap : heap = 0 ∨ heap = userHeapBase)
    (hx : Spawned s.brk.machine (s.brk.procs.map Proc.root) s.brk.others s.brk.others (some x) m) :
    SysInv (s.addProcess x heap m) := by
  have hi := h.idleInv hidle
  obtain _ | ⟨r, start, m, hs, hw, htables⟩ := hx
  have hdiv := page_mul_div
  have hroots : (s.brk.procs ++ [(⟨r, heap, heap⟩ : Proc)]).map Proc.root =
      s.brk.procs.map Proc.root ++ [r] := by simp
  have hperm : (s.brk.procs.map Proc.root ++ [r]).Perm (r :: s.brk.procs.map Proc.root) :=
    perm_append_singleton _ _
  unfold System.addProcess
  simp only [hdiv]
  refine IdleInv.sysInv (hi.procs (s.brk.procs ++ [⟨r, heap, heap⟩]) ?_ ?_
    fun pid p hp => ?_) fun id hu pa hpa => ?_
  · rw [hroots]
    exact hs.reorder hperm
  · rw [hroots]
    exact (hw.reorder hperm).share (fun _ hq => mem_append_right _ hq) fun _ hq => hq
  · rw [List.getElem?_append] at hp
    split at hp
    · exact .inl ⟨hp, htables _ (root_mem hp)⟩
    right
    obtain rfl : (⟨r, heap, heap⟩ : Proc) = p := by
      rw [List.getElem?_singleton] at hp
      split at hp
      · exact Option.some.inj hp
      · cases hp
    exact hheap.imp id fun he => ⟨he, he⟩
  · obtain ⟨q, hq, he⟩ := h.objects id hu pa hpa
    exact ⟨q, mem_append_right _ hq, he⟩

theorem createUser (slot : Bool) (f : Image) : SysInv (s.createUser slot f) := by
  have hi := h.idleInv hidle
  have hspec := processCreateUser_spec hi.spaces hi.world slot f
  unfold System.createUser
  generalize processCreateUser slot f s.brk.machine = res at hspec
  obtain ⟨_ | ⟨x, entry⟩, m⟩ := res
  · obtain ⟨_, hm⟩ := hspec
    exact h.withMachine (hi.restored hm)
  · exact h.addProcess hidle (.inr rfl) hspec

theorem fork (pid : Nat) (slot : Bool) (userRip userRsp : Nat) :
    SysInv (s.fork pid slot userRip userRsp) := by
  have hi := h.idleInv hidle
  unfold System.fork
  cases hp : s.brk.procs[pid]? with
  | none =>
    have : processFork slot (s.brk.space pid) userRip userRsp s.brk.machine =
        (none, s.brk.machine) := by
      simp [processFork, BrkState.space, hp]
    rw [this]
    exact h
  | some p =>
    rw [space_eq hp]
    have hspec := processFork_spec hi.spaces hi.world slot (root_mem hp) userRip userRsp
    generalize processFork slot (p.root * pageSize) userRip userRsp s.brk.machine = res at hspec
    obtain ⟨_ | x, m⟩ := res
    · obtain ⟨_, hm⟩ := hspec
      exact h.withMachine (hi.restored hm)
    · exact h.addProcess hidle (.inl rfl) hspec

theorem exec (pid threads : Nat) (f : Image) (argv envp : List (List Byte)) :
    SysInv (s.exec pid threads f argv envp) := by
  have hi := h.idleInv hidle
  unfold System.exec
  cases hp : s.brk.procs[pid]? with
  | none =>
    have : processExecUserWithArgs (s.brk.space pid) threads f argv envp s.brk.machine =
        (none, s.brk.machine) := by
      simp [processExecUserWithArgs, BrkState.space, hp]
    rw [this]
    exact h
  | some p =>
    rw [space_eq hp]
    have hspec := processExecUserWithArgs_spec hi.spaces hi.world (root_mem hp) threads f argv envp
    generalize processExecUserWithArgs (p.root * pageSize) threads f argv envp s.brk.machine = res
      at hspec
    obtain ⟨m, hm⟩ | ⟨r, entry, userStack, m, hnew, hspaces, htables⟩ := hspec
    · exact h.withMachine (hi.restored hm)
    have hdiv := page_mul_div r
    have hroots : (s.brk.procs.set pid ⟨r, userHeapBase, userHeapBase⟩).map Proc.root =
        (s.brk.procs.map Proc.root).set pid r := by rw [map_set]
    -- the address space that is replaced is nobody else's
    have hsub : ∀ r' ∈ (s.brk.procs.map Proc.root).set pid r,
        r' ∈ r :: s.brk.procs.map Proc.root ∧ r' ≠ p.root := fun r' hr' => by
      obtain ⟨i, hi'⟩ := List.getElem?_of_mem hr'
      have hold : (s.brk.procs.map Proc.root)[pid]? = some p.root := by
        rw [List.getElem?_map, hp]
        rfl
      rw [List.getElem?_set] at hi'
      split at hi'
      · split at hi'
        · cases hi'
          exact ⟨mem_cons_self, fun he => hnew (he ▸ mem_of_getElem? hold)⟩
        · cases hi'
      rename_i hne
      refine ⟨mem_cons_of_mem _ (mem_of_getElem? hi'), fun he => hne ?_⟩
      obtain ⟨hlt, -⟩ := List.getElem?_eq_some_iff.1 hold
      exact (List.getElem?_inj hlt hi.spaces.nodup).1 (hold.trans (he ▸ hi'.symm))
    obtain ⟨hs, hw⟩ := hspaces _ (hi.spaces.nodup.set hnew) hsub
    simp only [hdiv]
    refine IdleInv.sysInv (hi.procs (s.brk.procs.set pid ⟨r, userHeapBase, userHeapBase⟩)
      (by rw [hroots]; exact hs) (by rw [hroots]; exact hw) fun pid' p' hp' => ?_) h.objects
    rw [List.getElem?_set] at hp'
    split at hp'
    · split at hp'
      · cases hp'
        exact .inr (.inr ⟨rfl, rfl⟩)
      · cases hp'
    · exact .inl ⟨hp', htables _ (root_mem hp')⟩

theorem shmCreate (size : Nat) (out : Bool) : SysInv (s.shmCreate size out) := by
  have hi := h.idleInv hidle
  have hspec := shmCreate_spec s.objects hi.spaces hi.world size
  have htables : ∀ {m' : Machine}, m'.mem = s.brk.machine.mem →
      ∀ r ∈ s.brk.procs.map Proc.root, SameTables s.brk.machine m' r := fun hmem _ _ _ _ => by
    rw [hmem]
  unfold System.shmCreate
  generalize Process.shmCreate s.objects size s.brk.machine = res at hspec
  obtain ⟨objects', m', hs, hw, hmem, hobjects⟩ | ⟨id, size', l, m', hid, hs, hw, hmem⟩ := hspec
  · refine (hi.still hs hw (htables hmem)).sysInv fun id hu => ?_
    have he := hobjects id hu
    rw [he] at hu ⊢
    exact h.objects id hu
  simp only
  split
  · have hframes : (l.map (· * pageSize)).map (· / pageSize) = l := by
      rw [map_map]
      refine (map_congr_left fun q _ => ?_).trans (map_id l)
      exact page_mul_div _
    rw [update_self, hframes]
    refine (hi.still hs (hw.share (fun _ hq => mem_append_right _ hq) fun _ hq => hq)
      (htables hmem)).sysInv fun id' hu pa hpa => ?_
    by_cases he : id' = id
    · subst he
      rw [update_self] at hpa
      obtain ⟨q, hq, rfl⟩ := mem_map.1 hpa
      exact ⟨q, mem_append_left _ hq, rfl⟩
    rw [update_of_ne he] at hu hpa
    obtain ⟨q, hq, hpa⟩ := h.objects id' hu pa hpa
    exact ⟨q, mem_append_right _ hq, hpa⟩
  obtain ⟨m2, hd, hs2, hw2, hmem2⟩ := shmDestroy_spec hid hs hw (update_self ..)
  rw [hd]
  simp only
  refine (hi.still hs2 hw2 (htables (hmem2.trans hmem))).sysInv fun id' hu pa hpa => ?_
  by_cases he : id' = id
  · subst he
    rw [update_self] at hu
    cases hu
  · rw [update_of_ne he, update_of_ne he] at hu hpa
    exact h.objects id' hu pa hpa

omit hidle in
theorem objects_refs {id : Nat} {o o' : ShmObject} (ho : s.objects.lookup id = some o)
    (hpages : o'.pages = o.pages) (id' : Nat)
    (hu : (update s.objects id o' id').used = true) (pa : Nat)
    (hpa : pa ∈ (update s.objects id o' id').pages) :
    ∃ q ∈ s.brk.others, pa = q * pageSize := by
  obtain ⟨hused, rfl⟩ := ShmTable.lookup_eq_some ho
  by_cases he : id' = id
  · subst he
    rw [update_self, hpages] at hpa
    exact h.objects id' hused pa hpa
  · rw [update_of_ne he] at hu hpa
    exact h.objects id' hu pa hpa

theorem shmMap (pid id va : Nat) (hflags : flags.writable = true → flags.nx = true) :
    SysInv (s.shmMap pid id va flags) := by
  have hi := h.idleInv hidle
  unfold System.shmMap
  cases ho : s.objects.lookup id with
  | none => exact h
  | some o =>
  have hm : IdleInv { s.brk with
      machine := (Process.shmMap o (s.brk.space pid) va flags s.brk.machine).2 } := by
    cases hp : s.brk.procs[pid]? with
    | none =>
      rw [Process.shmMap, if_pos (.inl (by rw [BrkState.space, hp]))]
      exact hi
    | some p =>
      rw [space_eq hp]
      obtain ⟨hused, rfl⟩ := ShmTable.lookup_eq_some ho
      exact shmMap_step hi hp _ va hflags (h.objects id hused)
  simp only
  generalize Process.shmMap o (s.brk.space pid) va flags s.brk.machine = res at hm
  obtain ⟨rc, m⟩ := res
  refine hm.sysInv (h.objects_refs ho ?_)
  split <;> rfl

theorem shmUnmap (pid id va : Nat) : SysInv (s.shmUnmap pid id va) := by
  have hi := h.idleInv hidle
  unfold System.shmUnmap
  cases ho : s.objects.lookup id with
  | none => exact h
  | some o =>
  have hm : IdleInv { s.brk with
      machine := (Process.shmUnmap o (s.brk.space pid) va s.brk.machine).2 } := by
    cases hp : s.brk.procs[pid]? with
    | none =>
      rw [Process.shmUnmap, if_pos (.inl (by rw [BrkState.space, hp]))]
      exact hi
    | some p =>
      rw [space_eq hp]
      exact shmUnmap_step hi hp o va
  simp only
  generalize Process.shmUnmap o (s.brk.space pid) va s.brk.machine = res at hm
  obtain ⟨rc, m⟩ := res
  refine hm.sysInv (h.objects_refs ho ?_)
  split <;> rfl

theorem store (pid va : Nat) (w : Entry) : SysInv (s.store pid va w) := by
  have hi := h.idleInv hidle
  unfold System.store
  split
  · exact h
  rename_i p hp
  split
  · exact h
  rename_i e he
  split
  · have hroot := root_mem hp
    have htree := hi.spaces.tree _ hroot
    obtain ⟨hv, hpr⟩ := leafVal_of_userLeaf htree he
    subst hv
    generalize hq : (leafVal s.brk.machine p.root (index va)).frame = q
    have hpage : q ∈ userPages s.brk.machine p.root ∨
        q ∈ s.brk.others := by
      subst hq
      exact (hi.world.leaf _ hroot va hpr).1.imp_left (htree.owned_of_leaf hpr)
    have htables : ∀ r ∈ s.brk.procs.map Proc.root, ∀ x ∈ tree s.brk.machine r, x.2 ≠ q := by
      intro r hr x hx
      obtain ho | ho := hpage
      · by_cases hrr : r = p.root
        · subst hrr
          exact (htree.ne_of_owned hx ho).symm
        · exact ne_of_outside (hi.spaces.apart p.root hroot r hr (Ne.symm hrr) q
            (mem_append_right _ ho)) hx
      · exact ne_of_outside ((hi.spaces.held_live q ho).2 r hr) hx
    have hkernel : ptr s.brk.machine.kernelPml4 ≠ q := by
      rintro rfl
      exact hpage.elim (fun ho => hi.world.kernel_apart _ hroot (mem_append_right _ ho))
        hi.world.kernel_held
    have hmem : ∀ p, p ≠ q → (s.brk.machine.write q (va % pageSize / 8) w).mem p =
        s.brk.machine.mem p := fun p hpq => setEntry_of_ne _ _ _ hpq
    refine h.withMachine (hi.still
      (hi.spaces.rewritten rfl fun r hr x hx => hmem _ (htables r hr x hx))
      (hi.world.write htables hkernel rfl rfl hmem) fun r hr x hx => hmem _ (htables r hr x hx))
  · exact h

theorem call (pid requested : Nat) (out : Bool) :
    SysInv { s with brk := s.brk.call pid requested out } := by
  obtain ⟨hm, ho, hr, hpages⟩ := BrkState.call_world s.brk pid requested out
  refine ⟨h.brk.call hidle pid requested out, ?_, ?_⟩
  · rw [hm, ho, hr, hpages]
    exact (h.idleInv hidle).world
  · rw [ho]
    exact h.objects

end SysInv

end

theorem SysInv.next {s : System} (h : SysInv s) : SysInv { s with brk := s.brk.next } := by
  refine ⟨h.brk.step .next trivial, h.brk.next_world h.world, ?_⟩
  rw [BrkState.next_others]
  exact h.objects

/-- The flags that a call asks for do not allow both writing and executing. -/
def Syscall.SafeFlags : Syscall → Prop
  | shmMap _ _ _ flags => flags.writable = true → flags.nx = true
  | _ => True

theorem SysInv.step {s : System} (h : SysInv s) (c : Syscall) (hc : c.SafeFlags) :
    SysInv (s.dispatch c) := by
  unfold System.dispatch
  split
  · exact h.next
  · rename_i hidle
    exact h.createUser hidle _ _
  · rename_i hidle
    exact h.exec hidle _ _ _ _ _
  · rename_i hidle
    exact h.fork hidle _ _ _ _
  · rename_i hidle
    exact h.call hidle _ _ _
  · rename_i hidle
    exact h.shmCreate hidle _ _
  · rename_i hidle
    exact h.shmMap hidle _ _ _ hc
  · rename_i hidle
    exact h.shmUnmap hidle _ _ _
  · rename_i hidle
    exact h.store hidle _ _ _
  · exact h

theorem SysInv.run {s : System} (h : SysInv s) {cs : List Syscall} (hcs : ∀ c ∈ cs, c.SafeFlags) :
    SysInv (runSyscalls s cs) := by
  induction cs generalizing s with
  | nil => exact h
  | cons c cs ih =>
    exact ih (h.step c (hcs c mem_cons_self)) fun c hc => hcs c (mem_cons_of_mem _ hc)

/-- No object of shared memory exists, every heap is empty, and every process maps only pages of its
own or of the pages `others`, none of them both writable and executable. -/
structure SystemStart (s : System) : Prop where
  brk : BrkStart s.brk
  world : World s.brk.machine (s.brk.procs.map Proc.root) s.brk.others s.brk.others
  objects : ∀ id, (s.objects id).used = false

theorem SystemStart.inv {s : System} (h : SystemStart s) : SysInv s := by
  refine ⟨h.brk.inv, by rw [h.brk.idle]; exact h.world, fun id hu => ?_⟩
  rw [h.objects id] at hu
  cases hu

/-- Whatever system calls processes make and whatever they store, no page that a process can reach
is both writable and executable, as long as the flags passed to `shm_map` do not ask for it. -/
theorem user_pages_write_xor_execute {s : System} (hs : SystemStart s) {cs : List Syscall}
    (hcs : ∀ c ∈ cs, c.SafeFlags) {p : Proc} (hp : p ∈ (runSyscalls s cs).brk.procs) {va : Nat}
    {e : Entry} (he : userLeaf (runSyscalls s cs).brk.machine va 3 p.root = some e) :
    ¬(e.writable = true ∧ e.nx = false) := by
  have h := hs.inv.run hcs
  have hroot : p.root ∈ (runSyscalls s cs).brk.procs.map Proc.root := mem_map.2 ⟨p, hp, rfl⟩
  obtain ⟨hv, hpr⟩ := leafVal_of_userLeaf (h.brk.spaces.tree _ hroot) he
  rintro ⟨hw, hn⟩
  have := (h.world.leaf _ hroot va (by rw [hv]; exact hpr)).2 (by rw [hv]; exact hw)
  rw [hv, hn] at this
  cases this

def oneProcessSystem : System := ⟨oneProcess, fun _ => ⟨false, 0, 0, []⟩⟩

def mapOnePage (flags : Entry) : List Syscall :=
  [.shmCreate pageSize true, .shmMap 0 1 0x8000000000 flags]

set_option maxRecDepth 20000 in
theorem oneProcessSystem_start : SystemStart oneProcessSystem := by
  have hc : (addressSpaceCreate bootMachine).1 = 0 := by decide +kernel
  have has : (addressSpaceCreate bootMachine).2.1 = 0x100 * pageSize := by decide +kernel
  have hkernel := bootMachine_kernel _ (kernelPml4_mem bootMachine)
  obtain ⟨root, hroot, hacc, hzero⟩ := accounted_create bootMachine_ok rfl rfl hkernel hc
  obtain rfl : 0x100 = root := Nat.eq_of_mul_eq_mul_right (show 0 < pageSize by decide)
    (has.symm.trans hroot)
  have hempty : Spaces bootMachine [] [] :=
    ⟨bootMachine_ok, by simp, nodup_nil, by simp, nodup_nil, by simp⟩
  have hworld : World bootMachine [] [] [] := ⟨hkernel, by simp, by simp, by simp, by simp, by simp⟩
  have hmachine : oneProcess.machine = (addressSpaceCreate bootMachine).2.2 := by
    rw [oneProcess]
  have hleaf : ∀ va, LeafOk [] (leafVal oneProcess.machine 0x100 (index va)) := by
    intro va
    rw [hmachine, hzero va]
    exact leafOk_zero _
  have hinv : SpaceInv bootMachine 0x100 oneProcess.machine [] := by
    rw [hmachine]
    simpa only using hacc.inv
  exact ⟨oneProcess_start, hworld.create hempty hinv hleaf, fun _ => rfl⟩

set_option maxRecDepth 20000 in
/-- A page that is mapped to be written cannot be executed. -/
theorem user_pages_write_xor_execute_oneProcess :
    ∃ e, userLeaf (runSyscalls oneProcessSystem (mapOnePage (pteWrite ||| pteNx))).brk.machine
        0x8000000000 3 0x100 = some e ∧ e.writable = true ∧
      ¬(e.writable = true ∧ e.nx = false) := by
  have hroots : (runSyscalls oneProcessSystem (mapOnePage (pteWrite ||| pteNx))).brk.procs.map
      Proc.root = [0x100] := by decide +kernel
  have hleaf : (userLeaf (runSyscalls oneProcessSystem (mapOnePage (pteWrite ||| pteNx))).brk.machine
      0x8000000000 3 0x100).map Entry.writable = some true := by decide +kernel
  obtain ⟨p, hp, hr⟩ := mem_map.1 (hroots ▸ mem_singleton_self 0x100)
  obtain ⟨e, he, hw⟩ := Option.map_eq_some_iff.1 hleaf
  refine ⟨e, he, hw, user_pages_write_xor_execute oneProcessSystem_start ?_ hp (hr ▸ he)⟩
  simp only [mapOnePage, forall_mem_cons, Syscall.SafeFlags, not_mem_nil, false_implies,
    implies_true, and_true, true_and]
  decide

set_option maxRecDepth 20000 in
/-- `shm_map` takes the flags as they are: without the no-execute bit, the process can write the page
and execute it. -/
theorem shmMap_writable_executable :
    (runSyscalls oneProcessSystem (mapOnePage pteWrite)).brk.procs.map Proc.root = [0x100] ∧
      (userLeaf (runSyscalls oneProcessSystem (mapOnePage pteWrite)).brk.machine
        0x8000000000 3 0x100).map (fun e => (e.writable, e.nx)) = some (true, false) := by
  refine ⟨by decide +kernel, by decide +kernel⟩

/-! ### Isolation -/

theorem SysInv.leaf_frame {s : System} (h : SysInv s) {p : Proc} (hp : p ∈ s.brk.procs)
    {e : Entry} (he : userLeaf s.brk.machine va 3 p.root = some e) :
    e.frame ∈ userPages s.brk.machine p.root ∨ e.frame ∈ s.brk.others := by
  have hroot : p.root ∈ s.brk.procs.map Proc.root := mem_map_of_mem hp
  have htree := h.brk.spaces.tree _ hroot
  obtain ⟨rfl, hpr⟩ := leafVal_of_userLeaf htree he
  exact (h.world.leaf _ hroot va hpr).1.imp_left (htree.owned_of_leaf hpr)

/-- After any system calls, a page that a process reaches is in use and is no table of an address
space, and if another process reaches it, it belongs to no process. -/
theorem pages_isolated {s : System} (hs : SystemStart s) (cs : List Syscall)
    (hcs : ∀ c ∈ cs, c.SafeFlags) :
    let t := (runSyscalls s cs).brk
    ∀ p ∈ t.procs, ∀ va e, userLeaf t.machine va 3 p.root = some e →
      e.frame ∉ t.machine.pmm.freeSet ∧ ∀ p' ∈ t.procs,
        (∀ x ∈ tree t.machine p'.root, x.2 ≠ e.frame) ∧
        ∀ va' e', userLeaf t.machine va' 3 p'.root = some e' → e'.frame = e.frame →
          p' = p ∨ e.frame ∈ t.others := by
  intro t p hp va e he
  have h := hs.inv.run hcs
  have hsp := h.brk.spaces
  have hroot : ∀ {p}, p ∈ t.procs → p.root ∈ t.procs.map Proc.root := mem_map_of_mem
  obtain hw | ho := h.leaf_frame hp he
  · have hin : e.frame ∈ pages t.machine p.root := mem_append_right _ hw
    have htree := hsp.tree _ (hroot hp)
    refine ⟨(htree.live _ hin).not_free, fun p' hp' => ?_⟩
    by_cases heq : p' = p
    · exact ⟨fun x hx => (htree.ne_of_owned (heq ▸ hx) hw).symm, fun _ _ _ _ => .inl heq⟩
    have hne : p.root ≠ p'.root := fun hr =>
      heq (inj_on_of_nodup_map hsp.nodup hp' hp hr.symm)
    have hout := hsp.apart _ (hroot hp) _ (hroot hp') hne _ hin
    refine ⟨fun _ => ne_of_outside hout, fun _ _ he' hf => .inr ?_⟩
    rw [← hf] at hout ⊢
    exact (h.leaf_frame hp' he').resolve_left fun hc => hout (mem_append_right _ hc)
  · obtain ⟨hl, hout⟩ := hsp.held_live _ (mem_append_right _ ho)
    exact ⟨hl.not_free, fun p' hp' =>
      ⟨fun _ => ne_of_outside (hout _ (hroot hp')), fun _ _ _ _ => .inr ho⟩⟩

set_option maxRecDepth 20000 in
/-- A process that maps a page of shared memory forks, and the child gets a page of its own. -/
theorem pages_isolated_fork :
    let t := (runSyscalls oneProcessSystem
      (mapOnePage (pteWrite ||| pteNx) ++ [.fork 0 true 1 1])).brk
    t.procs.map Proc.root = [0x100, 0x108] ∧
      (userLeaf t.machine 0x8000000000 3 0x100).isSome ∧
      (userLeaf t.machine 0x8000000000 3 0x108).isSome ∧
      ∀ p ∈ t.procs, ∀ va e, userLeaf t.machine va 3 p.root = some e → ∀ p' ∈ t.procs, ∀ va' e',
        userLeaf t.machine va' 3 p'.root = some e' → e'.frame = e.frame →
          p' = p ∨ e.frame ∈ t.others := by
  have hsafe : ∀ c ∈ mapOnePage (pteWrite ||| pteNx) ++ [.fork 0 true 1 1], c.SafeFlags :=
    forall_mem_cons.2 ⟨trivial, forall_mem_cons.2 ⟨fun _ => by decide, forall_mem_singleton.2 trivial⟩⟩
  exact ⟨by decide +kernel, by decide +kernel, by decide +kernel, fun p hp va e he p' hp' =>
    ((pages_isolated oneProcessSystem_start _ hsafe p hp va e he).2 p' hp').2⟩

end RixuriOS.Process
