import RixuriOS.Rixfs.Directory

/-!
# The checker and the bitmap repair

`fsck` mounts a device and checks every inode, the reachability of all inodes
from the root, the number of allocated sectors and the link counts.
`fsckRepair` runs the same structural checks without looking at the bitmap and
then rewrites the bitmap from the extents of the inodes.
-/

namespace RixuriOS.Rixfs

open ByteCodec CrashStore ExtentList

/-- `bitmap_test`. The flag `fsck_repair_ignore_bitmap` makes every sector used. -/
def bitmapTest (f : Fs) (ignore : Bool) (sec : Nat) : Except Int Bool :=
  let p := bitmapPos f sec
  if ignore then .ok true
  else if f.super.totalSectors ≤ sec ∨ f.super.bitmapSector + f.super.bitmapSectors ≤ p.1 then
    .error (-1)
  else
    match f.dev.rd p.1 with
    | none => .error (-1)
    | some b => .ok (testBit (b p.2) sec)

def extentOverlap (a b : Extent) : Bool :=
  if a.len = 0 ∨ b.len = 0 then false
  else if a.start < b.start then decide (b.start - a.start < a.len)
  else decide (a.start - b.start < b.len)

def selfOverlap : List Extent → Bool
  | [] => false
  | e :: l => l.any (extentOverlap e) || selfOverlap l

def checkPrior (f : Fs) (l : List Extent) : List Nat → Int
  | [] => 0
  | k :: ks =>
    match readInode f k with
    | .error _ => -10
    | .ok other =>
      if other.inode = 0 then checkPrior f l ks
      else if l.any fun a => other.extents.any (extentOverlap a) then -9
      else checkPrior f l ks

def checkBits (f : Fs) (ignore : Bool) : Nat → Nat → Nat → Except Int Nat
  | 0, _, refs => .ok refs
  | n + 1, s, refs =>
    match bitmapTest f ignore s with
    | .ok true => checkBits f ignore n (s + 1) (refs + 1)
    | _ => .error (-5)

/-- The loop of `check_inode` over the extents, with the number of sectors seen
in this inode and in all inodes. -/
def checkExtents (f : Fs) (ignore : Bool) : List Extent → Nat → Nat → Except Int (Nat × Nat)
  | [], total, refs => .ok (total, refs)
  | e :: l, total, refs =>
    if e.len = 0 then checkExtents f ignore l total refs
    else if e.start < f.super.dataStartSector ∨ f.super.totalSectors ≤ e.start ∨
        f.super.totalSectors - e.start < e.len then .error (-3)
    else if 2 ^ 64 - 1 - total < e.len then .error (-4)
    else
      match checkBits f ignore e.len e.start refs with
      | .error e => .error e
      | .ok refs' => checkExtents f ignore l (total + e.len) refs'

/-- The loop `for(;;) { rixfs_readdir ... }` of the checker over the entries of a
directory; `bad` is the result when `rixfs_readdir` fails. -/
def forEntries {σ : Type} (f : Fs) (ino : Nat) (bad : Int) (body : σ → Dirent → Except Int σ) :
    Nat → Nat → σ → Except Int σ
  | 0, _, st => .ok st
  | n + 1, off, st =>
    match readdir f ino off (nameMax + 1) with
    | .error _ => .error bad
    | .ok none => .ok st
    | .ok (some item) =>
      match body st item.ent with
      | .error e => .error e
      | .ok st' => forEntries f ino bad body n item.next st'

/-- Run a loop over all entries of the directory `dir`. Every entry moves the
offset, so that the size of the directory is enough fuel. -/
def overEntries {σ : Type} (f : Fs) (ino : Nat) (dir : Inode) (bad : Int)
    (body : σ → Dirent → Except Int σ) (st : σ) : Except Int σ :=
  forEntries f ino bad body (dir.size + 1) 0 st

def expectedType (i : Inode) : Nat :=
  if i.fmt = ifdir then dirTypeDir else if i.fmt = iflnk then dirTypeSymlink else dirTypeFile

def checkEntry (f : Fs) (e : Dirent) : Except Int Unit :=
  if e.inode = 0 ∨ f.super.inodeCount < e.inode then .error (-8)
  else
    match readInode f e.inode with
    | .error _ => .error (-8)
    | .ok child =>
      if child.inode = 0 then .error (-8)
      else if e.type ≠ expectedType child then .error (-8)
      else .ok ()

def checkInode (f : Fs) (ignore : Bool) (ino refs : Nat) : Except Int Nat :=
  match readInode f ino with
  | .error _ => .error (-1)
  | .ok i =>
    if i.inode = 0 then .ok refs
    else if i.fmt ≠ ifreg ∧ i.fmt ≠ ifdir ∧ i.fmt ≠ iflnk then .error (-2)
    else if selfOverlap i.extents then .error (-9)
    else if checkPrior f i.extents (List.range' 1 (ino - 1)) ≠ 0 then
      .error (checkPrior f i.extents (List.range' 1 (ino - 1)))
    else
      match checkExtents f ignore i.extents 0 refs with
      | .error e => .error e
      | .ok (total, refs') =>
        let needed := u64 (i.size + (f.dev.sectorSize - 1)) / f.dev.sectorSize
        if i.fmt = ifreg ∧ total < needed then .error (-6)
        else if i.fmt = ifdir then
          match overEntries f ino i (-7) (fun _ e => checkEntry f e) () with
          | .error e => .error e
          | .ok _ => .ok refs'
        else .ok refs'

def countLinksIn (f : Fs) (target : Nat) (links dir : Nat) : Except Int Nat :=
  match readInode f dir with
  | .error _ => .error (-1)
  | .ok i =>
    if i.inode = 0 ∨ i.fmt ≠ ifdir then .ok links
    else
      overEntries f dir i (-2) (fun n e =>
        if e.inode = target then (if n = 2 ^ 32 - 1 then .error (-3) else .ok (n + 1))
        else .ok n) links

def inodeLinkCount (f : Fs) (target : Nat) : Except Int Nat :=
  (List.range' 1 f.super.inodeCount).foldlM (countLinksIn f target) 0

/-- The inodes that `check_reachable` has seen; its bit array holds one bit for
each inode number. -/
abbrev Seen := Nat → Bool

/-- Visit one entry: the inode becomes seen, and the flag says that something
changed. -/
def visitEntry (f : Fs) (st : Seen × Bool) (e : Dirent) : Except Int (Seen × Bool) :=
  if e.inode = 0 ∨ f.super.inodeCount < e.inode then .error (-3)
  else if st.1 e.inode then .ok st
  else .ok (Function.update st.1 e.inode true, true)

def visitDir (f : Fs) (st : Seen × Bool) (dir : Nat) : Except Int (Seen × Bool) :=
  if st.1 dir = false then .ok st
  else
    match readInode f dir with
    | .error _ => .error (-2)
    | .ok i => if i.fmt ≠ ifdir then .ok st else overEntries f dir i (-3) (visitEntry f) st

/-- The `while(changed)` loop of `check_reachable`. Every round but the last one
sees a new inode. -/
def reachLoop (f : Fs) : Nat → Seen → Except Int Seen
  | 0, seen => .ok seen
  | n + 1, seen =>
    match (List.range' 1 f.super.inodeCount).foldlM (visitDir f) (seen, false) with
    | .error e => .error e
    | .ok (seen', changed) => if changed then reachLoop f n seen' else .ok seen'

def allSeen (f : Fs) (seen : Seen) : List Nat → Except Int Unit
  | [] => .ok ()
  | k :: ks =>
    match readInode f k with
    | .error _ => .error (-4)
    | .ok i => if i.inode ≠ 0 ∧ seen k = false then .error (-5) else allSeen f seen ks

/-- `check_reachable`, for at most 65535 inodes: the bit array has room for the
numbers up to 65535. -/
def checkReachable (f : Fs) : Except Int Unit :=
  if f.super.inodeCount = 0 ∨ 65536 < f.super.inodeCount then .error (-1)
  else
    match reachLoop f (f.super.inodeCount + 1) (fun k => k = f.super.rootInode) with
    | .error e => .error e
    | .ok seen => allSeen f seen (List.range' 1 f.super.inodeCount)

def countAllocated (f : Fs) (ignore : Bool) : Except Int Nat :=
  if f.super.totalSectors ≤ f.super.dataStartSector then .error (-1)
  else
    (List.range' f.super.dataStartSector
        (f.super.totalSectors - f.super.dataStartSector)).foldlM (fun n s =>
      match bitmapTest f ignore s with
      | .error _ => .error (-2)
      | .ok used => .ok (if used then n + 1 else n)) 0

def fsckInode (f : Fs) (st : Nat × Nat) (ino : Nat) : Except Int (Nat × Nat) :=
  match readInode f ino with
  | .error _ => .error (-4)
  | .ok i =>
    if i.inode = 0 then .ok st
    else if i.inode ≠ ino then .error (-5)
    else
      match checkInode f false ino st.2 with
      | .error e => .error (-10 + e)
      | .ok refs => .ok (st.1 + 1, refs)

def rootOk (f : Fs) : Bool :=
  match readInode f f.super.rootInode with
  | .error _ => false
  | .ok root => root.inode = f.super.rootInode ∧ root.fmt = ifdir

def fsckLinks (f : Fs) : List Nat → Int
  | [] => 0
  | k :: ks =>
    match readInode f k with
    | .error _ => -21
    | .ok i =>
      if i.inode = 0 ∨ k = f.super.rootInode then fsckLinks f ks
      else
        match inodeLinkCount f k with
        | .error _ => -22
        | .ok links =>
          if links = 0 then -23
          else if i.fmt ≠ ifdir ∧ i.links ≠ links then -24
          else fsckLinks f ks

/-- `rixfs_fsck` on a mounted file system: its code, the number of checked inodes
and the number of referenced sectors. -/
def fsckMounted (f : Fs) : Except Int (Nat × Nat) :=
  let inodes := List.range' 1 f.super.inodeCount
  if f.super.rootInode = 0 ∨ f.super.inodeCount < f.super.rootInode then .error (-3)
  else
    match inodes.foldlM (fsckInode f) (0, 0) with
    | .error e => .error e
    | .ok (checked, refs) =>
      if rootOk f = false then .error (-20)
      else if checkReachable f ≠ .ok () then .error (-25)
      else if countAllocated f false ≠ .ok refs then .error (-26)
      else if fsckLinks f inodes ≠ 0 then .error (fsckLinks f inodes)
      else .ok (checked, refs)

/-- `rixfs_fsck`: the result, and the device, which a replay may have changed. -/
def fsck (d : Device) : Except Int (Nat × Nat) × Device :=
  let r := rixfsMount d 0
  if r.1 ≠ 0 then (.error (-2), r.2.dev) else (fsckMounted r.2, r.2.dev)

/-! ## Repair -/

def repairInode (f : Fs) (refs ino : Nat) : Except Int Nat :=
  match readInode f ino with
  | .error _ => .error (-2)
  | .ok i =>
    if i.inode = 0 then .ok refs
    else if i.inode ≠ ino then .error (-3)
    else
      match checkInode f true ino refs with
      | .error _ => .error (-3)
      | .ok refs' => .ok refs'

def repairLinks (f : Fs) : List Nat → Int
  | [] => 0
  | k :: ks =>
    match readInode f k with
    | .error _ => -5
    | .ok i =>
      if i.inode = 0 ∨ k = f.super.rootInode then repairLinks f ks
      else
        match inodeLinkCount f k with
        | .error _ => -6
        | .ok links =>
          if links = 0 ∨ (i.fmt ≠ ifdir ∧ i.links ≠ links) then -6 else repairLinks f ks

def repairValidateStructure (f : Fs) : Except Int Unit :=
  let inodes := List.range' 1 f.super.inodeCount
  if f.super.rootInode = 0 ∨ f.super.inodeCount < f.super.rootInode then .error (-1)
  else
    match inodes.foldlM (repairInode f) 0 with
    | .error e => .error e
    | .ok _ =>
      if rootOk f = false ∨ checkReachable f ≠ .ok () then .error (-4)
      else if repairLinks f inodes ≠ 0 then .error (repairLinks f inodes)
      else .ok ()

/-- Set the bit of the sector `s` in the bitmap sector that starts with the bit
`first`. -/
def wantBit (b : Buf) (first s : Nat) : Buf := putBit b ((s - first) / 8) s true

def wantMeta (f : Fs) (first last : Nat) : Buf :=
  (List.range' first (last - first)).foldl
    (fun b s => if s < f.super.dataStartSector then wantBit b first s else b) zeroBuf

def wantInode (f : Fs) (first last : Nat) (b : Buf) (ino : Nat) : Except Int Buf :=
  match readInode f ino with
  | .error _ => .error (-7)
  | .ok i =>
    if i.inode = 0 then .ok b
    else .ok ((extentSectors i.extents).foldl
      (fun b s => if first ≤ s ∧ s < last then wantBit b first s else b) b)

def bitDiff (x y : Byte) : Nat :=
  ((List.range 8).filter fun k => (x ^^^ y) &&& (1 <<< k) ≠ 0).length

def sectorDiff (ss : Nat) (x y : Buf) : Nat := ((List.range ss).map fun i => bitDiff (x i) (y i)).sum

/-- The contents that `rixfs_fsck_repair` wants in the bitmap sector number `bs`. -/
def wantSector (f : Fs) (bs : Nat) : Except Int Buf :=
  let ss := f.dev.sectorSize
  let first := bs * ss * 8
  let last := if f.super.totalSectors < first + ss * 8 then f.super.totalSectors
    else first + ss * 8
  (List.range' 1 f.super.inodeCount).foldlM (wantInode f first last) (wantMeta f first last)

def repairLoop : List Nat → Nat → Fs → Except Int Nat × Fs
  | [], changed, f => (.ok changed, f)
  | bs :: l, changed, f =>
    let ss := f.dev.sectorSize
    match f.dev.rd (f.super.bitmapSector + bs) with
    | none => (.error (-6), f)
    | some cur =>
      match wantSector f bs with
      | .error e => (.error e, f)
      | .ok want =>
        let changed' := changed + sectorDiff ss cur want
        if ∃ i, i < ss ∧ cur i ≠ want i then
          match f.dev.wr (f.super.bitmapSector + bs) want with
          | none => (.error (-8), f)
          | some d => repairLoop l changed' { f with dev := d }
        else repairLoop l changed' f

def fsckRepair (d : Device) : Except Int Nat × Device :=
  if d.sectorSize = 0 ∨ 4096 < d.sectorSize then (.error (-1), d)
  else
    let m := rixfsMount d 0
    let f := m.2
    if m.1 ≠ 0 then (.error (-2), f.dev)
    else if repairValidateStructure f ≠ .ok () then (.error (-3), f.dev)
    else if f.super.bitmapSectors = 0 ∨
        u64 (f.super.bitmapSectors * d.sectorSize) < f.super.totalSectors / 8 then
      (.error (-4), f.dev)
    else
      let r := repairLoop (List.range f.super.bitmapSectors) 0 f
      match r.1 with
      | .error e => (.error e, r.2.dev)
      | .ok changed => (.ok changed, r.2.dev.flush)

end RixuriOS.Rixfs
