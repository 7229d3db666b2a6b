import RixuriOS.Process.Brk
import RixuriOS.Process.World

/-!
# Shared memory

`ipc/shared_memory.c`. An object is a list of pages that processes map as shared.
`shm_map` takes the flags of the pages from its caller.
-/

namespace RixuriOS.Process

open Mm PagedTree List Function Machine

variable {m : Machine} {roots held l : List Nat}

def shmMax : Nat := 64

def shmMaxPages : Nat := 256

/-- `shm_object_t`, with the addresses of the pages that are in use. -/
structure ShmObject where
  used : Bool
  refs : Nat
  size : Nat
  pages : List Nat

abbrev ShmTable := Nat → ShmObject

def ShmTable.lookup (objects : ShmTable) (id : Nat) : Option ShmObject :=
  if id < shmMax ∧ (objects id).used then some (objects id) else none

theorem ShmTable.lookup_eq_some {objects : ShmTable} {id : Nat} {o : ShmObject}
    (h : objects.lookup id = some o) : (objects id).used = true ∧ objects id = o := by
  obtain ⟨hc, ho⟩ := Option.ite_none_right_eq_some.1 h
  exact ⟨hc.2, Option.some.inj ho⟩

def shmAlloc : Nat → List Nat → Machine → Option (List Nat) × Machine
  | 0, pages, m => (some pages, m)
  | n + 1, pages, m =>
    let (pa, m) := m.allocPage
    if pa = 0 then (none, pages.foldl freePage m) else shmAlloc n (pages ++ [pa]) m

def shmCreate (objects : ShmTable) (size : Nat) (m : Machine) : Option Nat × ShmTable × Machine :=
  if size = 0 ∨ size > shmMaxPages * pageSize then (none, objects, m) else
  let pages := (size + pageSize - 1) / pageSize
  match (range' 1 (shmMax - 1)).find? fun i => !(objects i).used with
  | none => (none, objects, m)
  | some i =>
    match shmAlloc pages [] m with
    | (none, m) =>
      (none, update objects i { objects i with used := false, refs := 0, size := 0 }, m)
    | (some l, m) => (some i, update objects i ⟨true, 0, pages * pageSize, l⟩, m)

def shmDestroy (objects : ShmTable) (id : Nat) (m : Machine) : Int × ShmTable × Machine :=
  match objects.lookup id with
  | none => (-1, objects, m)
  | some o =>
    if o.refs ≠ 0 then (-1, objects, m) else
    (0, update objects id { o with used := false, size := 0 },
      (o.pages.filter (· ≠ 0)).foldl freePage m)

def shmMapPages (as va : Nat) (flags : Entry) : List Nat → Nat → Machine → Int × Machine
  | [], _, m => (0, m)
  | pa :: rest, done, m =>
    let (r, m) := addressSpaceMapShared m as (va + done * pageSize) pa flags
    if r ≠ 0 then
      (-1, (range done).foldl
        (fun m i => (addressSpaceUnmap m as (va + i * pageSize)).2) m)
    else shmMapPages as va flags rest (done + 1) m

def shmMap (o : ShmObject) (as va : Nat) (flags : Entry) (m : Machine) : Int × Machine :=
  if as = 0 ∨ va = 0 ∨ va % pageSize ≠ 0 ∨ va < 0x8000000000 ∨ va ≥ 0x800000000000 ∨
      o.size > 0x800000000000 - va then (-1, m)
  else shmMapPages as va flags o.pages 0 m

def shmMapped (m : Machine) (as va pa : Nat) : Bool :=
  let flags := addressSpaceQueryFlags m as va
  flags.present && !flags.owned && addressSpaceTranslate m as va == pa

def shmUnmap (o : ShmObject) (as va : Nat) (m : Machine) : Int × Machine :=
  if as = 0 ∨ va = 0 ∨ va % pageSize ≠ 0 then (-1, m) else
  let at_ := fun i => (va + i * pageSize) % 2 ^ 64
  if !(range o.pages.length).all fun i => shmMapped m as (at_ i) (o.pages.getD i 0) then (-1, m)
  else forSlots (fun i m => addressSpaceUnmap m as (at_ i)) (range o.pages.length) m

/-! ### Pages of an object -/

theorem freeAll_spec {shared : List Nat} (hs : Spaces m roots (l ++ held))
    (hw : World m roots (l ++ held) shared) (hns : ∀ p ∈ l, p ∉ shared) :
    Spaces ((l.map (· * pageSize)).foldl freePage m) roots held ∧
      World ((l.map (· * pageSize)).foldl freePage m) roots held shared ∧
      ((l.map (· * pageSize)).foldl freePage m).mem = m.mem := by
  have hd : ∀ {m : Machine} {l : List Nat}, Droppable m l →
      (l.map (· * pageSize)).foldl freePage m = dropAll m l := by
    intro m l hd
    induction l generalizing m with
    | nil => rfl
    | cons p l ih =>
      rw [map_cons, foldl_cons, freePage_live (hd.live p mem_cons_self)]
      exact ih (Droppable.right (l := [p]) hd)
  have hdrop : Droppable m l := ⟨(nodup_append.1 hs.held_nodup).1, fun p hp =>
    (hs.held_live p (mem_append_left _ hp)).1⟩
  rw [hd hdrop]
  exact ⟨hs.dropAll, hw.dropAll hs hns, dropAll_mem _ _⟩

inductive ShmAlloced (m : Machine) (roots held shared : List Nat) :
    Option (List Nat) × Machine → Prop
  | failed (m' : Machine) (hs : Spaces m' roots held) (hw : World m' roots held shared)
      (hmem : m'.mem = m.mem) : ShmAlloced m roots held shared (none, m')
  | done (l : List Nat) (m' : Machine) (hs : Spaces m' roots (l ++ held))
      (hw : World m' roots (l ++ held) shared) (hmem : m'.mem = m.mem) :
      ShmAlloced m roots held shared (some (l.map (· * pageSize)), m')

theorem shmAlloc_spec {shared : List Nat} (n : Nat) (hs : Spaces m roots (l ++ held))
    (hw : World m roots (l ++ held) shared) (hns : ∀ p ∈ shared, p ∈ held) :
    ShmAlloced m roots held shared (shmAlloc n (l.map (· * pageSize)) m) := by
  induction n generalizing m l with
  | zero => exact .done l m hs hw rfl
  | succ n ih =>
    unfold shmAlloc
    obtain ⟨ha, -⟩ | ⟨q, hq, hq0, ha⟩ := allocPage_cases hs.ok
    · rw [ha]
      simp only [if_true]
      obtain ⟨h1, h2, h3⟩ := freeAll_spec hs hw fun p hp hc =>
        (nodup_append.1 hs.held_nodup).2.2 p hp p (hns p hc) rfl
      exact .failed _ h1 h2 h3
    have hne := page_mul_ne_zero hq0
    have hperm : ((l ++ [q]) ++ held).Perm (q :: (l ++ held)) := by
      rw [append_assoc, singleton_append]
      exact perm_middle
    rw [ha]
    simp only [if_neg hne]
    have hs' : Spaces (m.grab q) roots (q :: (l ++ held)) := hs.take hq rfl fun _ _ => rfl
    have hw' : World (m.grab q) roots (q :: (l ++ held)) shared :=
      hw.take hs hq rfl rfl fun _ _ => rfl
    have hrest := ih (hs'.perm hperm) (hw'.perm hperm)
    rw [map_append, map_singleton] at hrest
    generalize shmAlloc n (l.map (· * pageSize) ++ [q * pageSize]) (m.grab q) = res at hrest
    obtain ⟨m', h1, h2, h3⟩ | ⟨l', m', h1, h2, h3⟩ := hrest
    · exact .failed m' h1 h2 h3
    · exact .done l' m' h1 h2 h3

inductive ShmCreated (objects : ShmTable) (m : Machine) (roots held : List Nat) :
    Option Nat × ShmTable × Machine → Prop
  | failed (objects' : ShmTable) (m' : Machine) (hs : Spaces m' roots held)
      (hw : World m' roots held held) (hmem : m'.mem = m.mem)
      (hobjects : ∀ id, (objects' id).used = true → objects' id = objects id) :
      ShmCreated objects m roots held (none, objects', m')
  | done (id size : Nat) (l : List Nat) (m' : Machine) (hid : id < shmMax)
      (hs : Spaces m' roots (l ++ held)) (hw : World m' roots (l ++ held) held)
      (hmem : m'.mem = m.mem) :
      ShmCreated objects m roots held
        (some id, update objects id ⟨true, 0, size, l.map (· * pageSize)⟩, m')

theorem shmCreate_spec (objects : ShmTable) (hs : Spaces m roots held)
    (hw : World m roots held held) (size : Nat) :
    ShmCreated objects m roots held (shmCreate objects size m) := by
  unfold shmCreate
  split
  · exact .failed objects m hs hw rfl fun _ _ => rfl
  simp only
  split
  · exact .failed objects m hs hw rfl fun _ _ => rfl
  rename_i i hi
  have hlt : i < shmMax := by
    have := (mem_range'_1.1 (mem_of_find?_eq_some hi)).2
    unfold shmMax at *
    omega
  have halloc := shmAlloc_spec ((size + pageSize - 1) / pageSize) (l := []) hs hw fun _ hp => hp
  rw [map_nil] at halloc
  generalize shmAlloc ((size + pageSize - 1) / pageSize) [] m = res at halloc
  obtain ⟨m', h1, h2, h3⟩ | ⟨l, m', h1, h2, h3⟩ := halloc
  · refine .failed _ m' h1 h2 h3 fun id hu => ?_
    by_cases he : id = i
    · rw [he, Function.update_self] at hu
      cases hu
    · rw [Function.update_of_ne he]
  · exact .done i _ l m' hlt h1 h2 h3

theorem shmDestroy_spec {objects : ShmTable} {id size : Nat} (hid : id < shmMax)
    (hs : Spaces m roots (l ++ held)) (hw : World m roots (l ++ held) held)
    (hobject : objects id = ⟨true, 0, size, l.map (· * pageSize)⟩) :
    ∃ m', shmDestroy objects id m =
        (0, update objects id ⟨false, 0, 0, l.map (· * pageSize)⟩, m') ∧
      Spaces m' roots held ∧ World m' roots held held ∧ m'.mem = m.mem := by
  have hfilter : (l.map (· * pageSize)).filter (· ≠ 0) = l.map (· * pageSize) := by
    refine filter_eq_self.2 fun pa hpa => ?_
    obtain ⟨q, hq, rfl⟩ := mem_map.1 hpa
    have hl := (hs.held_live q (mem_append_left _ hq)).1
    exact decide_eq_true (page_mul_ne_zero (hs.ok.ne_zero_of_live hl))
  refine ⟨(l.map (· * pageSize)).foldl freePage m, ?_, freeAll_spec hs hw fun p hp hc => ?_⟩
  · have hlookup : objects.lookup id = some ⟨true, 0, size, l.map (· * pageSize)⟩ := by
      simp [ShmTable.lookup, hid, hobject]
    rw [shmDestroy, hlookup]
    change (0, _, ((l.map (· * pageSize)).filter (· ≠ 0)).foldl freePage m) = _
    rw [hfilter]
  · exact (nodup_append.1 hs.held_nodup).2.2 p hp p hc rfl

end RixuriOS.Process
