import RixuriOS.Rixfs.Journal

/-!
# Allocating and freeing sectors

The bitmap allocators, the extent list of an inode as `append_extent` grows it,
and `rixfs_truncate` with the loops that grow and shrink a file. Each bitmap bit
is changed by a journaled write of its own; the inode is written at the end.
-/

namespace RixuriOS.Rixfs

open ByteCodec CrashStore ExtentList

def firstFree (f : Fs) : List Nat → Except Int (Option Nat)
  | [] => .ok none
  | a :: l =>
    match bitGet f a with
    | .error _ => .error (-1)
    | .ok true => firstFree f l
    | .ok false => .ok (some a)

def takeSector (f : Fs) (a : Nat) : Except Int Nat × Fs :=
  let r := bit f a true
  if r.1 ≠ 0 then (.error (-2), r.2)
  else (.ok a, { r.2 with super := { r.2.super with freeHint := u64 (a + 1) } })

/-- The sectors in the order in which `alloc_sec` looks at them: from the hint to
the end, then from the start of the data area to the hint. -/
def scanOrder (f : Fs) : List Nat :=
  let ds := f.super.dataStartSector
  let s := if f.super.freeHint < ds then ds else f.super.freeHint
  List.range' s (f.super.totalSectors - s) ++ List.range' ds (s - ds)

def allocSec (f : Fs) : Except Int Nat × Fs :=
  match firstFree f (scanOrder f) with
  | .error e => (.error e, f)
  | .ok none => (.error (-3), f)
  | .ok (some a) => takeSector f a

/-- The sectors next to the extents of a file, each end before each start. -/
def nearSectors (f : Fs) (l : List Extent) : List Nat :=
  l.flatMap fun e =>
    if e.len = 0 then []
    else [u64 (e.start + e.len), u64 (e.start + (2 ^ 64 - 1))].filter fun a =>
      f.super.dataStartSector ≤ a ∧ a < f.super.totalSectors

def allocSecNear (f : Fs) (l : List Extent) : Except Int Nat × Fs :=
  match firstFree f (nearSectors f l) with
  | .error e => (.error e, f)
  | .ok none => allocSec f
  | .ok (some a) => takeSector f a

def clampMetaHint (f : Fs) : Fs :=
  if f.metaHint = 0 ∨ f.super.totalSectors < f.metaHint then
    { f with metaHint := f.super.totalSectors }
  else f

def topOrder (f : Fs) : List Nat :=
  let ds := f.super.dataStartSector
  let h := if f.metaHint < ds + 1 then f.super.totalSectors else f.metaHint
  (List.range' ds (h - ds)).reverse

def allocTop (f : Fs) : Except Int Nat × Fs :=
  match firstFree f (topOrder f) with
  | .error e => (.error e, f)
  | .ok none => allocSec f
  | .ok (some a) =>
    let r := bit f a true
    if r.1 ≠ 0 then (.error (-2), r.2) else (.ok a, { r.2 with metaHint := a })

/-- `alloc_sec_top`; the list is empty when the caller passes no inode. -/
def allocSecTop (f : Fs) (l : List Extent) : Except Int Nat × Fs :=
  if f.mounted = false then (.error (-1), f)
  else
    match firstFree f (nearSectors f l) with
    | .error e => (.error e, f)
    | .ok none => allocTop (clampMetaHint f)
    | .ok (some a) => takeSector f a

/-- The first loop of `append_extent`: extend the first extent that ends at `s`,
or use the first empty slot, whichever comes first. -/
def extendExtent (s : Nat) : List Extent → Option (List Extent)
  | [] => none
  | e :: l =>
    if e.len = 0 then some (⟨s, 1⟩ :: l)
    else if u64 (e.start + e.len) = s then some (⟨e.start, u64 (e.len + 1)⟩ :: l)
    else (extendExtent s l).map (e :: ·)

/-- The second loop of `append_extent`: put `s` in front of the extent that
starts behind it. -/
def prependExtent (s : Nat) : List Extent → Option (List Extent)
  | [] => none
  | e :: l =>
    if e.len ≠ 0 ∧ e.start = u64 (s + 1) then some (⟨s, u64 (e.len + 1)⟩ :: l)
    else (prependExtent s l).map (e :: ·)

def appendExtent (l : List Extent) (s : Nat) : Option (List Extent) :=
  match extendExtent s l with
  | some l' => some l'
  | none => prependExtent s l

def extentSectors (l : List Extent) : List Nat :=
  l.flatMap fun e => (List.range e.len).map fun j => u64 (e.start + j)

theorem extentSectors_eq_blocks {l : List Extent}
    (h : ∀ e ∈ l, e.len ≠ 0 → e.start + e.len ≤ 2 ^ 64) : extentSectors l = blocks l := by
  induction l with
  | nil => rfl
  | cons e l ih =>
    obtain ⟨he, hl⟩ := List.forall_mem_cons.1 h
    rw [blocks_cons, ← ih hl]
    rw [extentSectors, List.flatMap_cons]
    congr 1
    rw [List.range'_eq_map_range]
    apply List.map_congr_left
    intro j hj
    rw [List.mem_range] at hj
    exact Nat.mod_eq_of_lt (by have := he (by omega); omega)

def clearBits (f : Fs) : List Nat → Int × Fs
  | [] => (0, f)
  | s :: l =>
    let r := bit f s false
    if r.1 ≠ 0 then (-1, r.2) else clearBits r.2 l

def freeInodeData (f : Fs) (i : Inode) : Int × Fs := clearBits f (extentSectors i.extents)

/-- The sectors that the rollback of `grow` walks over: extent by extent from
the first slot, each from its end. -/
def rollbackOrder (l : List Extent) : List Nat :=
  l.flatMap fun e => (List.range e.len).map fun j => u64 (e.start + (e.len - 1 - j))

/-- The rollback of `grow`: clear the bits of the first `n` sectors of the list
that lie in the data area. -/
def rollback (f : Fs) : List Nat → Nat → Fs
  | _, 0 => f
  | [], _ + 1 => f
  | s :: l, n + 1 =>
    if f.super.dataStartSector ≤ s then rollback (bit f s false).2 l n else rollback f l (n + 1)

def growLoop : Nat → Nat → List Extent → Fs → Except Int (List Extent) × Fs
  | 0, _, l, f => (.ok l, f)
  | n + 1, added, l, f =>
    let r := allocSecNear f l
    match r.1 with
    | .error _ => (.error (-1), rollback r.2 (rollbackOrder l) added)
    | .ok s =>
      match appendExtent l s with
      | none => (.error (-2), rollback (bit r.2 s false).2 (rollbackOrder l) added)
      | some l' => growLoop n (added + 1) l' r.2

def sectorsFor (ss n : Nat) : Nat := u64 (n + ss - 1) / ss

def grow (f : Fs) (i : Inode) (bytes : Nat) : Except Int Inode × Fs :=
  if bytes = 0 then (.ok { i with size := 0 }, f)
  else
    let old := sectorsFor f.dev.sectorSize i.size
    let new := sectorsFor f.dev.sectorSize bytes
    let r := growLoop (new - old) 0 i.extents f
    match r.1 with
    | .error e => (.error e, r.2)
    | .ok l => (.ok { i with extents := l, size := bytes }, r.2)

/-- The loop of `rixfs_truncate` over the extents of a file that keeps the first
`keep` sectors, of which the extents before this one hold `seen`. -/
def shrinkLoop (keep : Nat) : List Extent → Nat → Fs → Except Int (List Extent) × Fs
  | [], _, f => (.ok [], f)
  | e :: l, seen, f =>
    if e.len = 0 then
      let r := shrinkLoop keep l seen f
      (r.1.map (e :: ·), r.2)
    else if keep ≤ seen then
      let c := clearBits f (extentSectors [e])
      if c.1 ≠ 0 then (.error (-5), c.2)
      else
        let r := shrinkLoop keep l (u64 (seen + e.len)) c.2
        (r.1.map (⟨0, 0⟩ :: ·), r.2)
    else if keep < u64 (seen + e.len) then
      let cut := u64 (seen + e.len) - keep
      let c := clearBits f ((List.range cut).map fun j => u64 (e.start + (e.len - 1 - j)))
      if c.1 ≠ 0 then (.error (-6), c.2)
      else
        let r := shrinkLoop keep l (u64 (seen + e.len)) c.2
        (r.1.map (⟨e.start, e.len - cut⟩ :: ·), r.2)
    else
      let r := shrinkLoop keep l (u64 (seen + e.len)) f
      (r.1.map (e :: ·), r.2)

def truncate (f : Fs) (ino ns : Nat) : Int × Fs :=
  if f.mounted = false then (-1, f)
  else
    match readInode f ino with
    | .error _ => (-2, f)
    | .ok i =>
      if i.fmt ≠ ifreg ∧ i.fmt ≠ iflnk then (-3, f)
      else if i.size < ns then
        let r := grow f i ns
        match r.1 with
        | .error _ => (-4, r.2)
        | .ok i' => writeInode r.2 ino i'
      else
        let r := shrinkLoop (sectorsFor f.dev.sectorSize ns) i.extents 0 f
        match r.1 with
        | .error e => (e, r.2)
        | .ok l => writeInode r.2 ino { i with extents := l, size := ns }

end RixuriOS.Rixfs
