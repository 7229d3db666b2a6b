import RixuriOS.Rixfs.Mount

/-!
# Inodes and file data

Reading an inode of the table, mapping a logical sector of a file through its
direct extents, and the loop of `io_file` that reads or writes a byte range of
a file sector by sector.
-/

namespace RixuriOS.Rixfs

open ByteCodec CrashStore ExtentList

def inodeLocation (f : Fs) (ino : Nat) : Except Int (Nat × Nat) :=
  if f.mounted = false ∨ ino = 0 ∨ f.super.inodeCount < ino then .error (-1)
  else
    let x := u64 ((ino - 1) * inodeSize)
    let o := x % f.dev.sectorSize
    if f.dev.sectorSize < o + inodeSize then .error (-2)
    else .ok (u64 (f.super.inodeTableSector + x / f.dev.sectorSize), o)

def readInode (f : Fs) (ino : Nat) : Except Int Inode :=
  if f.mounted = false then .error (-1)
  else
    match inodeLocation f ino with
    | .error _ => .error (-2)
    | .ok (s, o) =>
      match f.dev.rd s with
      | none => .error (-1)
      | some b => .ok (loadInode b o)

/-- `extent_map`: the sector of the logical sector `pos`. Empty extents are
skipped. -/
def extentMap : List Extent → Nat → Option Nat
  | [], _ => none
  | e :: es, pos =>
    if e.len = 0 then extentMap es pos
    else if pos < e.len then
      if 2 ^ 64 - 1 - pos < e.start then none else some (e.start + pos)
    else extentMap es (pos - e.len)

def copyBytes (dst : Buf) (done : Nat) (src : Buf) (at' n : Nat) : Buf := fun k =>
  if done ≤ k ∧ k < done + n then src (at' + (k - done)) else dst k

/-- The checks of `io_file` for a nonempty range, and the inode it goes on
with. -/
def ioPrepare (f : Fs) (ino off size : Nat) : Except Int Inode :=
  if 2 ^ 64 - 1 - size < off then .error (-2)
  else
    match readInode f ino with
    | .error _ => .error (-3)
    | .ok i =>
      if i.inode ≠ ino ∨ i.size < off ∨ i.size - off < size then .error (-4) else .ok i

def ioBegin (ss off ls : Nat) : Nat := if ls = off / ss then off % ss else 0

def ioEnd (ss off size ls : Nat) : Nat :=
  if ls = (off + size - 1) / ss then (off + size - 1) % ss + 1 else ss

def readLoop (f : Fs) (i : Inode) (off size : Nat) : Nat → Nat → Buf → Nat → Except Int Buf
  | 0, _, buf, _ => .ok buf
  | n + 1, ls, buf, done =>
    match extentMap i.extents ls with
    | none => .error (-6)
    | some ps =>
      if f.super.totalSectors ≤ ps then .error (-6)
      else
        match f.dev.rd ps with
        | none => .error (-7)
        | some t =>
          let lo := ioBegin f.dev.sectorSize off ls
          let len := ioEnd f.dev.sectorSize off size ls - lo
          readLoop f i off size n (ls + 1) (copyBytes buf done t lo len) (done + len)

def writeLoop (i : Inode) (off size : Nat) (data : Buf) : Nat → Nat → Nat → Fs → Int × Fs
  | 0, _, _, f => (0, f)
  | n + 1, ls, done, f =>
    match extentMap i.extents ls with
    | none => (-6, f)
    | some ps =>
      if f.super.totalSectors ≤ ps then (-6, f)
      else
        match f.dev.rd ps with
        | none => (-7, f)
        | some t =>
          let lo := ioBegin f.dev.sectorSize off ls
          let len := ioEnd f.dev.sectorSize off size ls - lo
          match f.dev.wr ps (copyBytes t lo data done len) with
          | none => (-8, f)
          | some d => writeLoop i off size data n (ls + 1) (done + len) { f with dev := d }

def ioSectors (ss off size : Nat) : Nat := (off + size - 1) / ss + 1 - off / ss

/-- `rixfs_read`: the first `size` bytes of the result are the bytes read. -/
def rixfsRead (f : Fs) (ino off size : Nat) : Except Int Buf :=
  if f.mounted = false then .error (-1)
  else if size = 0 then .ok zeroBuf
  else
    match ioPrepare f ino off size with
    | .error e => .error e
    | .ok i =>
      readLoop f i off size (ioSectors f.dev.sectorSize off size) (off / f.dev.sectorSize)
        zeroBuf 0

def rixfsWrite (f : Fs) (ino off : Nat) (data : Buf) (size : Nat) : Int × Fs :=
  if f.mounted = false then (-1, f)
  else if size = 0 then (0, f)
  else
    match ioPrepare f ino off size with
    | .error e => (e, f)
    | .ok i =>
      writeLoop i off size data (ioSectors f.dev.sectorSize off size) (off / f.dev.sectorSize) 0 f

end RixuriOS.Rixfs
