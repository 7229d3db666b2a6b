import RixuriOS.Process.Spaces
import RixuriOS.Process.SpaceRun

/-!
# The heap of a process

`process_brk` runs under the process lock, but the page allocator is open to other
users at any time. The model takes one statement of `process_brk` at a time, so that
other users can be handed pages in between. They may be handed any free page, not
only the lowest one: a call of `pmm_alloc_page` in the middle of
`address_space_map` can then be moved before or behind it.

`address_space_unmap` already gives back the page of the heap, and `process_brk`
gives it back once more. The second time is harmless as long as nobody was handed
the page in between.
-/

namespace RixuriOS.Process

open Mm PagedTree List Option

def userHeapBase : Nat := 0x8001000000

def userHeapLimit : Nat := 0x8002000000

def pageEnd (a : Nat) : Nat := (a + pageSize - 1) / pageSize * pageSize

/-- What `process_brk` uses of a process: the frame of its PML4 and its heap. -/
structure Proc where
  root : Nat
  heapBase : Nat
  heapBreak : Nat

/-- A heap that grows: the process, the requested break and the pages to map. -/
structure Growth where
  pid : Nat
  requested : Nat
  start : Nat
  stop : Nat

/-- Why pages of the heap are unmapped. -/
inductive DropEnd
  | rollback
  | shrink (requested : Nat)

variable {pid pa stop : Nat} {p : Proc} {g : Growth} {fin : DropEnd}

inductive BrkPc
  | idle
  /-- `pa = pmm_alloc_page()`. -/
  | grow (g : Growth) (va : Nat)
  /-- `zero_page(pa)`. -/
  | clear (g : Growth) (va pa : Nat)
  /-- `address_space_map(va, pa)`. -/
  | map (g : Growth) (va pa : Nat)
  /-- `pmm_free_page(pa)` after `address_space_map` failed. -/
  | giveUp (g : Growth) (va pa : Nat)
  /-- `pa = address_space_translate(va)`. -/
  | translate (pid : Nat) (fin : DropEnd) (va stop : Nat)
  /-- `address_space_unmap(va)`. -/
  | unmap (pid : Nat) (fin : DropEnd) (va stop pa : Nat)
  /-- `if (pa) pmm_free_page(pa)`. -/
  | free (pid : Nat) (fin : DropEnd) (va stop pa : Nat)

/-- The state of the machine, with the pages of other users of the allocator and the result of the
last call: the return value and the break it reported. -/
structure BrkState where
  machine : Machine
  procs : List Proc
  others : List Nat
  pc : BrkPc
  result : Int × Nat

inductive BrkEvent
  /-- A process calls `process_brk`; `out` tells whether there is a place for the result. -/
  | call (pid requested : Nat) (out : Bool)
  /-- `process_brk` executes its next statement. -/
  | next
  /-- `pmm_alloc_page` hands the page `p` to another user. -/
  | other (p : Nat)

namespace BrkState

def space (s : BrkState) (pid : Nat) : Nat :=
  match s.procs[pid]? with
  | some p => p.root * pageSize
  | none => 0

def fail (s : BrkState) (rc : Int) : BrkState := { s with pc := .idle, result := (rc, 0) }

def finish (s : BrkState) (pid requested : Nat) : BrkState :=
  { s with
    procs := s.procs.modify pid fun p => { p with heapBreak := requested }
    pc := .idle
    result := (0, requested) }

def heapFlags : Entry := ptePresent ||| pteWrite ||| pteUser ||| pteNx ||| pteOwned

def call (s : BrkState) (pid requested : Nat) (out : Bool) : BrkState :=
  match s.procs[pid]? with
  | none => s.fail (-1)
  | some p =>
    if p.root = 0 ∨ p.heapBase = 0 ∨ !out then s.fail (-1)
    else if requested = 0 then { s with pc := .idle, result := (0, p.heapBreak) }
    else if requested < p.heapBase ∨ requested > userHeapLimit then s.fail (-2)
    else
      let oldPageEnd := pageEnd p.heapBreak
      let newPageEnd := pageEnd requested
      if newPageEnd > oldPageEnd then
        { s with pc := .grow ⟨pid, requested, oldPageEnd, newPageEnd⟩ oldPageEnd }
      else if newPageEnd < oldPageEnd then
        { s with pc := .translate pid (.shrink requested) newPageEnd oldPageEnd }
      else s.finish pid requested

def next (s : BrkState) : BrkState :=
  match s.pc with
  | .idle => s
  | .grow g va =>
    if va < g.stop then
      let (pa, m) := s.machine.allocPage
      if pa = 0 then { s with machine := m, pc := .translate g.pid .rollback g.start va }
      else { s with machine := m, pc := .clear g va pa }
    else s.finish g.pid g.requested
  | .clear g va pa =>
    { s with machine := s.machine.fill (pa / pageSize) fun _ => 0, pc := .map g va pa }
  | .map g va pa =>
    let (r, m) := addressSpaceMap s.machine (s.space g.pid) va pa heapFlags
    { s with machine := m, pc := if r ≠ 0 then .giveUp g va pa else .grow g (va + pageSize) }
  | .giveUp g va pa =>
    { s with machine := s.machine.freePage pa, pc := .translate g.pid .rollback g.start va }
  | .translate pid fin va stop =>
    if va < stop then
      { s with pc := .unmap pid fin va stop (addressSpaceTranslate s.machine (s.space pid) va) }
    else
      match fin with
      | .rollback => s.fail (-3)
      | .shrink requested => s.finish pid requested
  | .unmap pid fin va stop pa =>
    { s with
      machine := (addressSpaceUnmap s.machine (s.space pid) va).2
      pc := .free pid fin va stop pa }
  | .free pid fin va stop pa =>
    { s with
      machine := if pa ≠ 0 then s.machine.freePage pa else s.machine
      pc := .translate pid fin (va + pageSize) stop }

def isFree (s : BrkState) (p : Nat) : Bool :=
  p < maxPages && s.machine.pmm.managed p && !s.machine.pmm.used p

def other (s : BrkState) (p : Nat) : BrkState :=
  if s.isFree p then
    { s with machine := { s.machine with pmm := s.machine.pmm.take p }, others := p :: s.others }
  else s

end BrkState

def BrkEvent.exec (s : BrkState) : BrkEvent → BrkState
  | call pid requested out =>
    match s.pc with
    | .idle => s.call pid requested out
    | _ => s
  | next => s.next
  | other p => s.other p

def runBrk (s : BrkState) (es : List BrkEvent) : BrkState := es.foldl BrkEvent.exec s

/-! ### The invariant -/

def DropEnd.low (p : Proc) : DropEnd → Nat
  | rollback => pageEnd p.heapBreak
  | shrink requested => pageEnd requested

/-- The page that `process_brk` holds between its statements. -/
def BrkPc.pages : BrkPc → List Nat
  | clear _ _ pa => [pa / pageSize]
  | map _ _ pa => [pa / pageSize]
  | giveUp _ _ pa => [pa / pageSize]
  | _ => []

def BrkPc.Covers (pid : Nat) (p : Proc) (va : Nat) : BrkPc → Prop
  | idle => va < pageEnd p.heapBreak
  | grow g v => if pid = g.pid then va < v else va < pageEnd p.heapBreak
  | clear g v _ => if pid = g.pid then va < v else va < pageEnd p.heapBreak
  | map g v _ => if pid = g.pid then va < v else va < pageEnd p.heapBreak
  | giveUp g v _ => if pid = g.pid then va < v else va < pageEnd p.heapBreak
  | translate q fin v stop =>
    if pid = q then va < fin.low p ∨ (v ≤ va ∧ va < stop) else va < pageEnd p.heapBreak
  | unmap q fin v stop _ =>
    if pid = q then va < fin.low p ∨ (v ≤ va ∧ va < stop) else va < pageEnd p.heapBreak
  | free q fin v stop _ =>
    if pid = q then va < fin.low p ∨ (v + pageSize ≤ va ∧ va < stop)
    else va < pageEnd p.heapBreak

/-- A growing heap stands at the page `va`. -/
structure Growth.At (g : Growth) (procs : List Proc) (va : Nat) : Prop where
  proc : ∃ p, procs[g.pid]? = some p ∧ p.heapBase ≠ 0 ∧ g.start = pageEnd p.heapBreak
  stop_eq : g.stop = pageEnd g.requested
  base_le : userHeapBase ≤ g.requested
  le_limit : g.requested ≤ userHeapLimit
  start_le : g.start ≤ va
  le_stop : va ≤ g.stop
  aligned : va % pageSize = 0

/-- Pages of the heap of `pid` are unmapped from `va` to `stop`. -/
structure DropAt (procs : List Proc) (pid : Nat) (fin : DropEnd) (va stop : Nat) : Prop where
  proc : ∃ p, procs[pid]? = some p ∧ p.heapBase ≠ 0 ∧ fin.low p ≤ va
  fin_ok : ∀ requested, fin = .shrink requested →
    userHeapBase ≤ requested ∧ requested ≤ userHeapLimit
  base_le : userHeapBase ≤ va
  le_stop : va ≤ stop
  stop_le : stop ≤ userHeapLimit
  aligned : va % pageSize = 0
  stop_aligned : stop % pageSize = 0

def BrkPc.Ok (m : Machine) (procs : List Proc) : BrkPc → Prop
  | idle => True
  | grow g va => g.At procs va
  | clear g va pa => g.At procs va ∧ va < g.stop ∧ pa % pageSize = 0
  | map g va pa => g.At procs va ∧ va < g.stop ∧ pa % pageSize = 0
  | giveUp g va pa => g.At procs va ∧ va < g.stop ∧ pa % pageSize = 0
  | translate pid fin va stop => DropAt procs pid fin va stop
  | unmap pid fin va stop pa => DropAt procs pid fin va stop ∧ va < stop ∧
      ∀ p, procs[pid]? = some p → pa = (leafVal m p.root (index va)).frame * pageSize
  | free pid fin va stop pa => DropAt procs pid fin va stop ∧ va < stop ∧
      ∃ q ∈ m.pmm.freeSet, pa = q * pageSize

def HeapLeaf (m : Machine) (root va : Nat) : Prop :=
  (leafVal m root (index va)).present = true ∧ (leafVal m root (index va)).owned = true

/-- The address spaces and the other users do not overlap, and every heap consists of pages that its
address space owns. -/
structure BrkInv (s : BrkState) : Prop where
  spaces : Spaces s.machine (s.procs.map Proc.root) (s.pc.pages ++ s.others)
  bounds : ∀ p ∈ s.procs, p.heapBase ≠ 0 → p.heapBase = userHeapBase ∧
    userHeapBase ≤ p.heapBreak ∧ p.heapBreak ≤ userHeapLimit
  pc : s.pc.Ok s.machine s.procs
  heap : ∀ pid p, s.procs[pid]? = some p → p.heapBase ≠ 0 → ∀ va, va % pageSize = 0 →
    userHeapBase ≤ va → s.pc.Covers pid p va → HeapLeaf s.machine p.root va

/-- The page that `process_brk` is about to give back for the second time. -/
def BrkPc.pending : BrkPc → Option Nat
  | free _ _ _ _ pa => some (pa / pageSize)
  | _ => none

/-- Nobody is handed the pending page. -/
def Calm (s : BrkState) : BrkEvent → Prop
  | .other p => s.pc.pending ≠ some p
  | _ => True

instance (s : BrkState) : (e : BrkEvent) → Decidable (Calm s e)
  | .other p => inferInstanceAs (Decidable (s.pc.pending ≠ some p))
  | .call _ _ _ => inferInstanceAs (Decidable True)
  | .next => inferInstanceAs (Decidable True)

def CalmRun : BrkState → List BrkEvent → Prop
  | _, [] => True
  | s, e :: es => Calm s e ∧ CalmRun (e.exec s) es

instance decidableCalmRun : (s : BrkState) → (es : List BrkEvent) → Decidable (CalmRun s es)
  | _, [] => inferInstanceAs (Decidable True)
  | s, e :: es =>
    have := decidableCalmRun (e.exec s) es
    inferInstanceAs (Decidable (Calm s e ∧ CalmRun (e.exec s) es))

/-! ### Addresses of the heap -/

theorem pageEnd_mod (a : Nat) : pageEnd a % pageSize = 0 := Nat.mul_mod_left _ _

theorem le_pageEnd (a : Nat) : a ≤ pageEnd a := by
  unfold pageEnd pageSize
  omega

theorem pageEnd_le_limit {a : Nat} (h : a ≤ userHeapLimit) : pageEnd a ≤ userHeapLimit := by
  unfold userHeapLimit at *
  unfold pageEnd pageSize
  omega

section

variable {va : Nat} (hbase : userHeapBase ≤ va) (hlimit : va < userHeapLimit)

include hbase hlimit

theorem userVa_heap (haligned : va % pageSize = 0) : userVa va = true := by
  unfold userHeapBase at hbase
  unfold userHeapLimit at hlimit
  simp only [userVa, haligned, Bool.and_eq_true, decide_eq_true_eq, beq_self_eq_true, and_true]
  omega

theorem userPml4Ok_heap : userPml4Ok va = true := by
  have : index va 3 = 1 := by
    unfold userHeapBase at hbase
    unfold userHeapLimit at hlimit
    rw [index]
    omega
  rw [userPml4Ok, this]
  decide

end

variable {va : Nat} {s : BrkState}

theorem not_sameAddress {v : Nat} (hva : va % pageSize = 0) (hv : v % pageSize = 0)
    (hva' : va < 2 ^ 47) (hv' : v < 2 ^ 47) (hne : va ≠ v) : ¬SameAddress (index v) (index va) := by
  intro hs
  have h0 := hs 0 (by decide)
  have h1 := hs 1 (by decide)
  have h2 := hs 2 (by decide)
  have h3 := hs 3 (by decide)
  simp only [index, Nat.reduceMul, Nat.reduceAdd, Nat.reducePow] at h0 h1 h2 h3
  unfold pageSize at *
  omega

/-! ### Steps -/

theorem space_eq (hp : s.procs[pid]? = some p) : s.space pid = p.root * pageSize := by
  rw [BrkState.space, hp]

theorem root_mem (hp : s.procs[pid]? = some p) : p.root ∈ s.procs.map Proc.root :=
  mem_map.2 ⟨p, mem_of_getElem? hp, rfl⟩

theorem map_root_finish (s : BrkState) (pid requested : Nat) :
    (s.finish pid requested).procs.map Proc.root = s.procs.map Proc.root := by
  refine ext_getElem? fun i => ?_
  simp only [BrkState.finish, List.getElem?_map, List.getElem?_modify]
  by_cases hi : pid = i
  · simp only [hi, if_true, Option.map_eq_map, Option.map_map]
    rfl
  · simp [hi]

section

variable (h : BrkInv s)

include h

namespace BrkInv

theorem root_ne {pid' : Nat} {p' : Proc} (hp : s.procs[pid]? = some p)
    (hp' : s.procs[pid']? = some p') (hne : pid' ≠ pid) : p'.root ≠ p.root := by
  intro he
  obtain ⟨hlt, -⟩ := List.getElem?_eq_some_iff.1 hp'
  refine hne ((List.getElem?_inj (by rwa [length_map]) h.spaces.nodup).1 ?_)
  rw [List.getElem?_map, List.getElem?_map, hp, hp', map_some, map_some, he]

theorem evolve (hp : s.procs[pid]? = some p) {m' : Machine} {gain : List Nat} (pc' : BrkPc)
    (hev : Evolves s.machine m' p.root gain)
    (hheld : (s.pc.pages ++ s.others).Perm (gain ++ (pc'.pages ++ s.others)))
    (hpc : pc'.Ok m' s.procs)
    (hself : p.heapBase ≠ 0 → ∀ va, va % pageSize = 0 → userHeapBase ≤ va → pc'.Covers pid p va → HeapLeaf m' p.root va)
    (hcovers : ∀ pid' p' va, pid' ≠ pid → pc'.Covers pid' p' va → s.pc.Covers pid' p' va) :
    BrkInv { s with machine := m', pc := pc' } := by
  have hroot := root_mem hp
  refine ⟨h.spaces.evolve hroot hev hheld, h.bounds, hpc, fun pid' p' hp' hb va h1 h2 h3 => ?_⟩
  by_cases hpp : pid' = pid
  · subst hpp
    cases hp.symm.trans hp'
    exact hself hb va h1 h2 h3
  have hs := h.spaces.sameTables hroot hev hheld (root_mem hp') (h.root_ne hp hp' hpp)
  rw [HeapLeaf, leafVal_same_tables hs]
  exact h.heap pid' p' hp' hb va h1 h2 (hcovers pid' p' va hpp h3)

theorem still (m' : Machine) (pc' : BrkPc) {others' : List Nat}
    (hspaces : Spaces m' (s.procs.map Proc.root) (pc'.pages ++ others'))
    (htables : ∀ r ∈ s.procs.map Proc.root, SameTables s.machine m' r) (hpc : pc'.Ok m' s.procs)
    (hcovers : ∀ pid p va, s.procs[pid]? = some p → pc'.Covers pid p va → s.pc.Covers pid p va)
    (result : Int × Nat) :
    BrkInv { s with machine := m', others := others', pc := pc', result := result } := by
  refine ⟨hspaces, h.bounds, hpc, fun pid p hp hb va h1 h2 h3 => ?_⟩
  rw [HeapLeaf, leafVal_same_tables (htables _ (root_mem hp))]
  exact h.heap pid p hp hb va h1 h2 (hcovers pid p va hp h3)

theorem returns (hpages : s.pc.pages = []) (result : Int × Nat)
    (hcovers : ∀ pid p va, s.procs[pid]? = some p → va < pageEnd p.heapBreak →
      s.pc.Covers pid p va) : BrkInv { s with pc := .idle, result := result } := by
  have hspaces := h.spaces
  rw [hpages] at hspaces
  exact h.still s.machine .idle hspaces (fun _ _ _ _ => rfl) trivial hcovers result

theorem finish (hp : s.procs[pid]? = some p) (hpages : s.pc.pages = []) {requested : Nat}
    (hbase : userHeapBase ≤ requested) (hlimit : requested ≤ userHeapLimit)
    (hself : ∀ va, va < pageEnd requested → s.pc.Covers pid p va)
    (hcovers : ∀ pid' p' va, pid' ≠ pid → va < pageEnd p'.heapBreak → s.pc.Covers pid' p' va) :
    BrkInv (s.finish pid requested) := by
  have hget : ∀ pid' p', (s.procs.modify pid fun p => { p with heapBreak := requested })[pid']? =
      some p' → (pid' = pid ∧ p' = { p with heapBreak := requested }) ∨
        (pid' ≠ pid ∧ s.procs[pid']? = some p') := by
    intro pid' p' hp'
    rw [List.getElem?_modify] at hp'
    by_cases hi : pid = pid'
    · subst hi
      rw [hp] at hp'
      simp only [if_true, Option.map_eq_map, map_some, some.injEq] at hp'
      exact .inl ⟨rfl, hp'.symm⟩
    · simp only [if_neg hi, Option.map_eq_map, Option.map_id'] at hp'
      exact .inr ⟨Ne.symm hi, hp'⟩
  have hspaces := h.spaces
  rw [hpages] at hspaces
  refine ⟨by rw [map_root_finish]; exact hspaces, fun p' hp' hb => ?_, trivial,
    fun pid' p' hp' hb va h1 h2 h3 => ?_⟩
  · obtain ⟨i, hi⟩ := List.getElem?_of_mem hp'
    obtain ⟨-, rfl⟩ | ⟨-, hi⟩ := hget i p' hi
    · exact ⟨(h.bounds p (mem_of_getElem? hp) hb).1, hbase, hlimit⟩
    · exact h.bounds p' (mem_of_getElem? hi) hb
  obtain ⟨rfl, rfl⟩ | ⟨hne, hi⟩ := hget pid' p' hp'
  · exact h.heap pid' p hp hb va h1 h2 (hself va h3)
  · exact h.heap pid' p' hi hb va h1 h2 (hcovers pid' p' va hne h3)

theorem call (hidle : s.pc = .idle) (pid requested : Nat) (out : Bool) :
    BrkInv (s.call pid requested out) := by
  have hpages : s.pc.pages = [] := by rw [hidle]; rfl
  have hreturn : ∀ result, BrkInv { s with pc := .idle, result := result } := fun result =>
    h.returns hpages result fun _ _ _ _ hva => by rw [hidle]; exact hva
  unfold BrkState.call
  split
  · exact hreturn _
  rename_i p hp
  split
  · exact hreturn _
  rename_i hargs
  simp only [not_or] at hargs
  obtain ⟨-, hb, -⟩ := hargs
  split
  · exact hreturn _
  split
  · exact hreturn _
  rename_i hreq
  simp only [not_or, not_lt] at hreq
  obtain ⟨hbase, hbreak, hlimit⟩ := h.bounds p (mem_of_getElem? hp) hb
  have hreqbase : userHeapBase ≤ requested := hbase ▸ hreq.1
  have hspaces := h.spaces
  rw [hpages] at hspaces
  simp only
  split
  · rename_i hgrow
    refine h.still s.machine (.grow _ _) hspaces (fun _ _ _ _ => rfl) ⟨⟨p, hp, hb, rfl⟩, rfl, hreqbase, hreq.2, le_refl _,
      hgrow.le, pageEnd_mod _⟩ (fun pid' p' va hp' hc => ?_) s.result
    rw [hidle]
    simp only [BrkPc.Covers] at hc ⊢
    split at hc
    · rename_i heq
      subst heq
      cases hp.symm.trans hp'
      exact hc
    · exact hc
  split
  · rename_i hshrink
    refine h.still s.machine (.translate pid (.shrink requested) _ _) hspaces (fun _ _ _ _ => rfl) ⟨⟨p, hp, hb, le_refl _⟩, fun r hr => ?_,
      hreqbase.trans (le_pageEnd _), hshrink.le, pageEnd_le_limit hlimit, pageEnd_mod _,
      pageEnd_mod _⟩ (fun pid' p' va hp' hc => ?_) s.result
    · cases hr
      exact ⟨hreqbase, hreq.2⟩
    rw [hidle]
    simp only [BrkPc.Covers, DropEnd.low] at hc ⊢
    split at hc
    · rename_i heq
      subst heq
      cases hp.symm.trans hp'
      omega
    · exact hc
  rename_i h1 h2
  refine h.finish hp hpages hreqbase hreq.2 (fun va hva => ?_) fun pid' p' va _ hva => ?_
  · rw [hidle]
    rw [BrkPc.Covers]
    omega
  · rw [hidle]
    exact hva

theorem startRollback (hat : g.At s.procs va)
    (hcovers : ∀ pid p v, s.procs[pid]? = some p → (if pid = g.pid then v < va else v < pageEnd p.heapBreak) → s.pc.Covers pid p v)
    {m' : Machine} (hspaces : Spaces m' (s.procs.map Proc.root) s.others)
    (htables : ∀ r ∈ s.procs.map Proc.root, SameTables s.machine m' r) :
    BrkInv { s with machine := m', pc := .translate g.pid .rollback g.start va } := by
  obtain ⟨p, hp, hb, hstart⟩ := hat.proc
  refine h.still m' (.translate g.pid .rollback g.start va) hspaces htables
    ⟨⟨p, hp, hb, hstart.ge⟩, by simp, ?_, hat.start_le, ?_, ?_, hat.aligned⟩ ?_ s.result
  · rw [hstart]
    exact (h.bounds p (mem_of_getElem? hp) hb).2.1.trans (le_pageEnd _)
  · exact hat.le_stop.trans (hat.stop_eq ▸ pageEnd_le_limit hat.le_limit)
  · rw [hstart]
    exact pageEnd_mod _
  intro pid' p' v hp' hc
  refine hcovers pid' p' v hp' ?_
  rw [BrkPc.Covers, DropEnd.low] at hc
  split
  · rename_i heq
    subst heq
    cases hp.symm.trans hp'
    have := hat.start_le
    rw [if_pos rfl] at hc
    omega
  · rename_i hne
    rwa [if_neg hne] at hc

theorem grow (hpc : s.pc = .grow g va) : BrkInv s.next := by
  have hat : g.At s.procs va := by
    have := h.pc
    rwa [hpc] at this
  obtain ⟨p, hp, hb, hstart⟩ := hat.proc
  have hspaces := h.spaces
  rw [hpc] at hspaces
  unfold BrkState.next
  rw [hpc]
  simp only
  split
  · rename_i hlt
    obtain ⟨ha, -⟩ | ⟨q, hq, hq0, ha⟩ := Machine.allocPage_cases h.spaces.ok
    · rw [ha]
      exact h.startRollback hat (fun pid' p' v _ hc => by rw [hpc]; exact hc) hspaces
        fun _ _ _ _ => rfl
    have hne := page_mul_ne_zero hq0
    have hdiv := page_mul_div q
    rw [ha]
    rw [if_neg hne]
    refine h.still (s.machine.grab q) (.clear g va (q * pageSize)) ?_ (fun _ _ _ _ => rfl)
      ⟨hat, hlt, Nat.mul_mod_left _ _⟩ (fun _ _ _ _ hc => ?_) s.result
    · rw [BrkPc.pages, hdiv]
      exact hspaces.take hq rfl fun _ _ => rfl
    · rw [hpc]
      exact hc
  rename_i hge
  have hva : va = g.stop := le_antisymm hat.le_stop (not_lt.1 hge)
  refine h.finish hp (by rw [hpc]; rfl) hat.base_le hat.le_limit (fun v hv => ?_)
    fun pid' p' v hne hv => ?_
  · rw [hpc]
    simp only [BrkPc.Covers, if_true, hva, hat.stop_eq]
    exact hv
  rw [hpc]
  rw [BrkPc.Covers, if_neg hne]
  exact hv

theorem clear (hpc : s.pc = .clear g va pa) : BrkInv s.next := by
  have hok := h.pc
  have hspaces := h.spaces
  rw [hpc] at hok hspaces
  unfold BrkState.next
  rw [hpc]
  have hheld : pa / pageSize ∈ (BrkPc.clear g va pa).pages ++ s.others := mem_cons_self
  refine h.still _ (.map g va pa) (hspaces.fill hheld _) (fun r hr x hx => ?_) hok
    (fun _ _ _ _ hc => ?_) s.result
  · exact Function.update_of_ne (ne_of_outside ((hspaces.held_live _ hheld).2 r hr) hx) _ _
  · rw [hpc]
    exact hc

/-- What `address_space_map` does for the next page of a growing heap. -/
theorem map_spec (hpc : s.pc = .map g va pa) :
    ∃ p q, s.procs[g.pid]? = some p ∧ pa = q * pageSize ∧ s.machine.pmm.Live q ∧
      Mapped s.machine p.root va pa (mapFlags BrkState.heapFlags true)
        (addressSpaceMap s.machine (p.root * pageSize) va pa BrkState.heapFlags) := by
  have hok := h.pc
  have hspaces := h.spaces
  rw [hpc] at hok hspaces
  obtain ⟨hat, hlt, haligned⟩ := hok
  obtain ⟨p, hp, -⟩ := hat.proc
  obtain ⟨q, rfl⟩ : ∃ q, pa = q * pageSize := ⟨pa / pageSize, by unfold pageSize at *; omega⟩
  have hheld : q ∈ (BrkPc.map g va (q * pageSize)).pages ++ s.others := by
    rw [BrkPc.pages, page_mul_div]
    exact mem_cons_self
  obtain ⟨hl, hout⟩ := hspaces.held_live q hheld
  exact ⟨p, q, hp, rfl, hl, mapPage_spec h.spaces.ok (h.spaces.tree _ (root_mem hp)) va _ _ true
    fun _ => ⟨q, rfl, hl, hout _ (root_mem hp)⟩⟩

theorem map (hpc : s.pc = .map g va pa) : BrkInv s.next := by
  have hok := h.pc
  rw [hpc] at hok
  obtain ⟨hat, hlt, haligned⟩ := hok
  obtain ⟨p, hp, hb, hstart⟩ := hat.proc
  obtain ⟨p', q, hp', rfl, hl, hspec⟩ := h.map_spec hpc
  cases hp.symm.trans hp'
  have hdiv := page_mul_div q
  unfold BrkState.next
  rw [hpc]
  simp only [space_eq hp]
  have hold : ∀ v, v % pageSize = 0 → userHeapBase ≤ v → v < va → HeapLeaf s.machine p.root v :=
    fun v h1 h2 h3 => h.heap g.pid p hp hb v h1 h2 (by rw [hpc]; simpa [BrkPc.Covers] using h3)
  generalize addressSpaceMap s.machine (p.root * pageSize) va (q * pageSize) BrkState.heapFlags = r
    at hspec
  obtain ⟨m', hq⟩ | ⟨m', -, -, -, hev, hsame, hother, -, -⟩ := hspec
  · refine h.evolve hp (.giveUp g va (q * pageSize)) hq.evolves (by rw [hpc]; rfl)
      ⟨hat, hlt, haligned⟩ (fun _ v h1 h2 h3 => ?_) fun pid' p' v hne hc => ?_
    · simp only [BrkPc.Covers, if_true] at h3
      rw [HeapLeaf, hq.leaf _ (index_lt v)]
      exact hold v h1 h2 h3
    · rw [hpc]
      exact hc
  have hqlt := hl.lt.trans_le maxPages_le
  have hown : own (leafEntry (q * pageSize) (mapFlags BrkState.heapFlags true)) = some q := by
    rw [own_leafEntry hqlt (present_mapFlags _ _), owned_mapFlags]
    rfl
  have hnew : HeapLeaf m' p.root va := by
    rw [HeapLeaf, hsame, present_leafEntry hqlt, present_mapFlags, owned_leafEntry hqlt,
      owned_mapFlags]
    exact ⟨rfl, rfl⟩
  rw [hown] at hev
  have hle : va + pageSize ≤ g.stop := by
    have h1 := hat.aligned
    have h2 : g.stop % pageSize = 0 := hat.stop_eq ▸ pageEnd_mod _
    unfold pageSize at *
    omega
  refine h.evolve hp (.grow g (va + pageSize)) hev ?_
    ⟨hat.proc, hat.stop_eq, hat.base_le, hat.le_limit, ?_, hle, ?_⟩ (fun _ v h1 h2 h3 => ?_)
    fun pid' p' v hne hc => ?_
  · rw [hpc]
    rw [BrkPc.pages, hdiv]
    rfl
  · exact hat.start_le.trans (Nat.le_add_right _ _)
  · rw [Nat.add_mod_right]
    exact hat.aligned
  · simp only [BrkPc.Covers, if_true] at h3
    by_cases hs : SameAddress (index va) (index v)
    · rw [HeapLeaf, leafVal_same hs]
      exact hnew
    rw [HeapLeaf, hother _ (index_lt v) hs]
    refine hold v h1 h2 ?_
    have hne : v ≠ va := by
      rintro rfl
      exact hs (.refl _)
    have h4 := hat.aligned
    unfold pageSize at *
    omega
  rw [hpc]
  simp only [BrkPc.Covers, if_neg hne] at hc ⊢
  exact hc

theorem giveUp (hpc : s.pc = .giveUp g va pa) : BrkInv s.next := by
  have hok := h.pc
  have hspaces := h.spaces
  rw [hpc] at hok hspaces
  obtain ⟨hat, hlt, haligned⟩ := hok
  obtain ⟨p, hp, hb, hstart⟩ := hat.proc
  obtain ⟨q, rfl⟩ : ∃ q, pa = q * pageSize := ⟨pa / pageSize, by unfold pageSize at *; omega⟩
  have hdiv := page_mul_div q
  rw [BrkPc.pages, hdiv] at hspaces
  have hheld : q ∈ [q] ++ s.others := mem_cons_self
  unfold BrkState.next
  rw [hpc]
  simp only [Machine.freePage_live (hspaces.held_live q hheld).1]
  have hrel := hspaces.release hheld (s.machine.drop_pmm q) rfl
  rw [singleton_append, erase_cons_head] at hrel
  exact h.startRollback hat (fun pid' p' v _ hc => by rw [hpc]; exact hc) hrel fun _ _ _ _ => rfl

theorem translate (hpc : s.pc = .translate pid fin va stop) : BrkInv s.next := by
  have hat : DropAt s.procs pid fin va stop := by
    have := h.pc
    rwa [hpc] at this
  obtain ⟨p, hp, hb, hlow⟩ := hat.proc
  have hspaces := h.spaces
  rw [hpc] at hspaces
  unfold BrkState.next
  rw [hpc]
  simp only [space_eq hp]
  split
  · rename_i hlt
    have hlimit := hlt.trans_le hat.stop_le
    have hleaf : HeapLeaf s.machine p.root va := by
      refine h.heap pid p hp hb va hat.aligned hat.base_le ?_
      rw [hpc]
      simp only [BrkPc.Covers, if_true]
      exact .inr ⟨le_refl _, hlt⟩
    refine h.still s.machine (.unmap pid fin va stop _) hspaces (fun _ _ _ _ => rfl)
      ⟨hat, hlt, fun p' hp' => ?_⟩ (fun _ _ _ _ hc => by rw [hpc]; exact hc) s.result
    cases hp.symm.trans hp'
    rw [translate_eq h.spaces.ok (h.spaces.tree _ (root_mem hp))
      (lt_of_userVa (userVa_heap hat.base_le hlimit hat.aligned))
      (userPml4Ok_heap hat.base_le hlimit) hleaf.1, hat.aligned, Nat.add_zero]
  rename_i hge
  cases fin with
  | rollback =>
    refine h.returns (by rw [hpc]; rfl) _ fun pid' p' v hp' hv => ?_
    rw [hpc]
    rw [BrkPc.Covers, DropEnd.low]
    split
    · exact .inl hv
    · exact hv
  | shrink requested =>
    obtain ⟨h1, h2⟩ := hat.fin_ok requested rfl
    refine h.finish hp (by rw [hpc]; rfl) h1 h2 (fun v hv => ?_) fun pid' p' v hne hv => ?_
    · rw [hpc]
      simp only [BrkPc.Covers, if_true, DropEnd.low]
      exact .inl hv
    rw [hpc]
    rw [BrkPc.Covers, if_neg hne]
    exact hv

theorem unmap (hpc : s.pc = .unmap pid fin va stop pa) : BrkInv s.next := by
  have hok := h.pc
  rw [hpc] at hok
  obtain ⟨hat, hlt, hpa⟩ := hok
  obtain ⟨p, hp, hb, hlow⟩ := hat.proc
  have hlimit := hlt.trans_le hat.stop_le
  have hva := userVa_heap hat.base_le hlimit hat.aligned
  have hleaf : HeapLeaf s.machine p.root va := by
    refine h.heap pid p hp hb va hat.aligned hat.base_le ?_
    rw [hpc]
    simp only [BrkPc.Covers, if_true]
    exact .inr ⟨le_refl _, hlt⟩
  have htree := h.spaces.tree _ (root_mem hp)
  have hspec := addressSpaceUnmap_spec h.spaces.ok htree va
  unfold BrkState.next
  rw [hpc]
  simp only [space_eq hp]
  generalize addressSpaceUnmap s.machine (p.root * pageSize) va = r at hspec
  obtain ⟨habs⟩ | ⟨pt, -, -, hn, -, hev, -, hother⟩ := hspec
  · have := habs hva (userPml4Ok_heap hat.base_le hlimit)
    rw [hleaf.1] at this
    cases this
  generalize hfr : (leafVal s.machine p.root (index va)).frame = q
  -- the page is owned, so it goes back to the allocator
  have hfree : q ∈ (unmapped s.machine va pt (leafVal s.machine p.root (index va))).pmm.freeSet := by
    have hq : q ∈ pages s.machine p.root :=
      hfr ▸ mem_append_right _ (htree.owned_of_leaf hleaf.1 hleaf.2)
    have hl := htree.live q hq
    rw [unmapped, if_pos hleaf.2, hfr, Machine.drop_pmm, Machine.write_pmm,
      Pmm.freeSet_give hl.lt hl.managed]
    exact Finset.mem_insert_self _ _
  refine h.evolve hp (.free pid fin va stop pa) hev (by rw [hpc]; rfl)
    ⟨hat, hlt, q, hfree, (hpa p hp).trans (by rw [hfr])⟩ (fun _ v h1 h2 h3 => ?_)
    fun pid' p' v hne hc => ?_
  · simp only [BrkPc.Covers, if_true] at h3
    have hvs : v < va ∨ va + pageSize ≤ v := by omega
    have hvlt : v < userHeapLimit := by
      have := hat.stop_le
      omega
    have hne : v ≠ va := by
      unfold pageSize at hvs
      omega
    have hns := not_sameAddress h1 hat.aligned (lt_of_userVa (userVa_heap h2 hvlt h1))
      (lt_of_userVa hva) hne
    rw [HeapLeaf, hother _ (index_lt v) hns]
    refine h.heap pid p hp hb v h1 h2 ?_
    rw [hpc]
    simp only [BrkPc.Covers, if_true]
    omega
  rw [hpc]
  simp only [BrkPc.Covers, if_neg hne] at hc ⊢
  exact hc

/-- The second `pmm_free_page` finds the page free and is refused. -/
theorem free (hpc : s.pc = .free pid fin va stop pa) : BrkInv s.next := by
  have hok := h.pc
  have hspaces := h.spaces
  rw [hpc] at hok hspaces
  obtain ⟨hat, hlt, q, hq, rfl⟩ := hok
  obtain ⟨p, hp, hb, hlow⟩ := hat.proc
  have hle : va + pageSize ≤ stop := by
    have h1 := hat.aligned
    have h2 := hat.stop_aligned
    unfold pageSize at *
    omega
  have hmod : (va + pageSize) % pageSize = 0 := by
    rw [Nat.add_mod_right]
    exact hat.aligned
  have hpc' : BrkPc.Ok s.machine s.procs (.translate pid fin (va + pageSize) stop) :=
    ⟨⟨p, hp, hb, hlow.trans (Nat.le_add_right _ _)⟩, hat.fin_ok,
      hat.base_le.trans (Nat.le_add_right _ _), hle, hat.stop_le, hmod, hat.stop_aligned⟩
  have hcovers : ∀ pid' p' v, s.procs[pid']? = some p' →
      BrkPc.Covers pid' p' v (.translate pid fin (va + pageSize) stop) → s.pc.Covers pid' p' v :=
    fun pid' p' v _ hc => by rw [hpc]; exact hc
  unfold BrkState.next
  rw [hpc]
  simp only
  split
  · have hpmm := Machine.freePage_free hq
    exact h.still (s.machine.freePage (q * pageSize)) (.translate pid fin (va + pageSize) stop)
      (hspaces.rewritten hpmm fun _ _ _ _ => rfl) (fun _ _ _ _ => rfl) hpc' hcovers s.result
  · exact h.still s.machine (.translate pid fin (va + pageSize) stop) hspaces (fun _ _ _ _ => rfl)
      hpc' hcovers s.result

theorem other {p : Nat} (hcalm : Calm s (.other p)) : BrkInv (s.other p) := by
  unfold BrkState.other
  split
  · rename_i hfree
    simp only [BrkState.isFree, Bool.and_eq_true, decide_eq_true_eq, Bool.not_eq_true'] at hfree
    have hp : p ∈ s.machine.pmm.freeSet := Pmm.mem_freeSet.2 ⟨hfree.1.1, hfree.1.2, hfree.2⟩
    have htake : Spaces { s.machine with pmm := s.machine.pmm.take p } (s.procs.map Proc.root)
        (p :: (s.pc.pages ++ s.others)) := h.spaces.take hp rfl fun _ _ => rfl
    refine h.still _ s.pc (htake.perm perm_middle) (fun _ _ _ _ => rfl) ?_ (fun _ _ _ _ hc => hc)
      s.result
    have hok := h.pc
    unfold Calm at hcalm
    cases hpc : s.pc with
    | free pid fin va stop pa =>
      rw [hpc] at hok hcalm
      obtain ⟨hat, hlt, q, hq, rfl⟩ := hok
      refine ⟨hat, hlt, q, ?_, rfl⟩
      rw [Pmm.freeSet_take, Finset.mem_erase]
      refine ⟨fun he => hcalm ?_, hq⟩
      rw [BrkPc.pending, page_mul_div, he]
    | _ =>
      rw [hpc] at hok
      exact hok
  · exact h

theorem step (e : BrkEvent) (hcalm : Calm s e) : BrkInv (e.exec s) := by
  cases e with
  | call pid requested out =>
    unfold BrkEvent.exec
    simp only
    cases hpc : s.pc with
    | idle => exact h.call hpc pid requested out
    | _ => exact h
  | next =>
    change BrkInv s.next
    cases hpc : s.pc with
    | idle =>
      unfold BrkState.next
      rw [hpc]
      exact h
    | grow g va => exact h.grow hpc
    | clear g va pa => exact h.clear hpc
    | map g va pa => exact h.map hpc
    | giveUp g va pa => exact h.giveUp hpc
    | translate pid fin va stop => exact h.translate hpc
    | unmap pid fin va stop pa => exact h.unmap hpc
    | free pid fin va stop pa => exact h.free hpc
  | other p => exact h.other hcalm

end BrkInv

end

theorem BrkInv.run (h : BrkInv s) {es : List BrkEvent} (hcalm : CalmRun s es) :
    BrkInv (runBrk s es) := by
  induction es generalizing s with
  | nil => exact h
  | cons e es ih => exact ih (h.step e hcalm.1) hcalm.2

structure BrkStart (s : BrkState) : Prop where
  spaces : Spaces s.machine (s.procs.map Proc.root) s.others
  idle : s.pc = .idle
  heaps : ∀ p ∈ s.procs, p.heapBase ≠ 0 → p.heapBase = userHeapBase ∧ p.heapBreak = userHeapBase

theorem BrkStart.inv (h : BrkStart s) : BrkInv s := by
  refine ⟨by rw [h.idle]; exact h.spaces, fun p hp hb => ?_, by rw [h.idle]; trivial,
    fun pid p hp hb va _ h2 h3 => ?_⟩
  · obtain ⟨h1, h2⟩ := h.heaps p hp hb
    exact ⟨h1, h2.ge, by rw [h2]; decide⟩
  rw [h.idle] at h3
  rw [BrkPc.Covers, (h.heaps p (mem_of_getElem? hp) hb).2] at h3
  have : pageEnd userHeapBase = userHeapBase := by decide
  omega

/-- Whatever the calls of `process_brk` and the allocations of other users, no page of another user
and no page of an address space is made free, as long as nobody is handed a page of the heap between
`address_space_unmap` and the `pmm_free_page` behind it. -/
theorem brk_frees_own_pages {s : BrkState} (hstart : BrkStart s) {es : List BrkEvent}
    (hcalm : CalmRun s es) :
    (∀ p ∈ (runBrk s es).others, p ∉ (runBrk s es).machine.pmm.freeSet) ∧
      ∀ proc ∈ (runBrk s es).procs, ∀ p ∈ pages (runBrk s es).machine proc.root,
        p ∉ (runBrk s es).machine.pmm.freeSet := by
  have h := hstart.inv.run hcalm
  refine ⟨fun p hp => (h.spaces.held_live p (mem_append_right _ hp)).1.not_free,
    fun proc hproc p hp => ?_⟩
  exact ((h.spaces.tree _ (mem_map.2 ⟨proc, hproc, rfl⟩)).live p hp).not_free

def oneProcess : BrkState where
  machine := (addressSpaceCreate bootMachine).2.2
  procs := [⟨0x100, userHeapBase, userHeapBase⟩]
  others := []
  pc := .idle
  result := (0, 0)

/-- The heap grows by one page and shrinks again, up to the statement behind
`address_space_unmap`. -/
def growAndUnmap : List BrkEvent :=
  [.call 0 (userHeapBase + 1) true, .next, .next, .next, .next,
    .call 0 userHeapBase true, .next, .next]

set_option maxRecDepth 20000 in
theorem oneProcess_start : BrkStart oneProcess := by
  have hc : (addressSpaceCreate bootMachine).1 = 0 := by decide +kernel
  have has : (addressSpaceCreate bootMachine).2.1 = 0x100 * pageSize := by decide +kernel
  obtain ⟨root, hroot, hacc, -⟩ := accounted_create bootMachine_ok rfl rfl
    (bootMachine_kernel _ (kernelPml4_mem bootMachine)) hc
  obtain rfl : 0x100 = root := Nat.eq_of_mul_eq_mul_right (show 0 < pageSize by decide)
    (has.symm.trans hroot)
  have hempty : Spaces bootMachine [] [] :=
    ⟨bootMachine_ok, by simp, nodup_nil, by simp, nodup_nil, by simp⟩
  exact ⟨hempty.create hacc.inv, rfl, by simp [oneProcess]⟩

set_option maxRecDepth 20000 in
/-- Another user is handed a different page in the meantime. -/
theorem brk_frees_own_pages_oneProcess :
    0x108 ∈ (runBrk oneProcess (growAndUnmap ++ [.other 0x108, .next])).others ∧
      0x108 ∉ (runBrk oneProcess (growAndUnmap ++ [.other 0x108, .next])).machine.pmm.freeSet := by
  have ho : 0x108 ∈ (runBrk oneProcess (growAndUnmap ++ [.other 0x108, .next])).others := by
    decide +kernel
  have hcalm : CalmRun oneProcess (growAndUnmap ++ [.other 0x108, .next]) := by decide +kernel
  exact ⟨ho, (brk_frees_own_pages oneProcess_start hcalm).1 _ ho⟩

set_option maxRecDepth 20000 in
/-- When `pmm_alloc_page` hands out the unmapped page at this point, `process_brk` frees it. -/
theorem brk_frees_foreign_page :
    (pmmAllocPage (runBrk oneProcess growAndUnmap).machine.pmm).1 = 0x101 * pageSize ∧
      0x101 ∈ (runBrk oneProcess (growAndUnmap ++ [.other 0x101, .next])).others ∧
      0x101 ∈ (runBrk oneProcess (growAndUnmap ++ [.other 0x101, .next])).machine.pmm.freeSet := by
  refine ⟨by decide +kernel, by decide +kernel, Pmm.mem_freeSet.2 ⟨by decide, ?_, ?_⟩⟩
  · decide +kernel
  · decide +kernel

end RixuriOS.Process
