import RixuriOS.Rixfs.Alloc

/-!
# Directories

The readers of a directory walk over its records by their record sizes: a record
with inode zero is a hole, and a hole of size zero skips a sector. The writers
pack records into the tail of the last sector, reuse a sector that holds nothing,
or add a sector. A removed entry keeps its record size and loses its inode.
-/

namespace RixuriOS.Rixfs

open ByteCodec CrashStore ExtentList

def slash : Byte := 0x2F

def dot : Byte := 0x2E

def nameLoop : List Byte → Nat → Option Nat
  | [], x => some x
  | c :: cs, x => if c = slash ∨ nameMax < x + 1 then none else nameLoop cs (x + 1)

def nameValid (name : CString) : Option Nat :=
  if name.bytes = [] ∨ name.bytes.head? = some slash then none else nameLoop name.bytes 0

/-- `valid_name` of the operations, which also refuses `.` and `..`. -/
def validName (name : CString) : Option Nat :=
  if name.bytes = [] ∨ name.bytes.head? = some slash ∨ name.bytes = [dot] ∨
      name.bytes = [dot, dot] then none
  else nameLoop name.bytes 0

def readEnt (f : Fs) (ino off : Nat) : Except Int Dirent :=
  match rixfsRead f ino off direntMinSize with
  | .error _ => .error (-1)
  | .ok b => .ok (loadDirent b 0)

def readDirInode (f : Fs) (ino : Nat) : Option Inode :=
  match readInode f ino with
  | .error _ => none
  | .ok dir => if dir.inode ≠ ino ∨ dir.fmt ≠ ifdir then none else some dir

/-- The bounds that the readers check for a record in use, with `left` bytes of
the directory from its offset on. -/
def recordBad (e : Dirent) (left : Nat) : Prop :=
  e.recordSize < direntMinSize ∨ left < e.recordSize ∨
    e.recordSize - direntMinSize < e.nameLength

instance (e : Dirent) (left : Nat) : Decidable (recordBad e left) :=
  inferInstanceAs (Decidable (_ ∨ _ ∨ _))

def holeStep (ss left : Nat) (e : Dirent) : Option Nat :=
  if e.recordSize = 0 then (if left < ss then none else some ss)
  else if left < e.recordSize then none else some e.recordSize

/-- The loop of `rixfs_lookup_name` from the offset `off` on. Every round moves
the offset, so that the size of the directory is enough fuel. -/
def lookupLoop (f : Fs) (ino size : Nat) (name : List Byte) : Nat → Nat → Except Int (Nat × Nat)
  | 0, _ => .error (-8)
  | n + 1, off =>
    if size ≤ off then .error (-8)
    else if size - off < direntMinSize then .error (-4)
    else
      match readEnt f ino off with
      | .error _ => .error (-5)
      | .ok e =>
        if e.inode = 0 then
          match holeStep f.dev.sectorSize (size - off) e with
          | none => .error (-6)
          | some k => lookupLoop f ino size name n (off + k)
        else if recordBad e (size - off) then .error (-6)
        else if e.nameLength = name.length then
          match rixfsRead f ino (off + direntMinSize) name.length with
          | .error _ => .error (-7)
          | .ok b =>
            if slice b 0 name.length = name then .ok (e.inode, e.type)
            else lookupLoop f ino size name n (off + e.recordSize)
        else lookupLoop f ino size name n (off + e.recordSize)

/-- `rixfs_lookup_name`: the inode and the type byte of the first entry with this
name. -/
def lookupName (f : Fs) (ino : Nat) (name : CString) : Except Int (Nat × Nat) :=
  if f.mounted = false then .error (-1)
  else
    match nameValid name with
    | none => .error (-2)
    | some _ =>
      match readDirInode f ino with
      | none => .error (-3)
      | some dir => lookupLoop f ino dir.size name.bytes dir.size 0

/-- What `rixfs_readdir` delivers: the offset behind the record, its header and
its name. -/
structure DirItem where
  next : Nat
  ent : Dirent
  name : List Byte

/-- The loop of `rixfs_readdir`; `none` is the return value one. -/
def readdirLoop (f : Fs) (ino size cap : Nat) : Nat → Nat → Except Int (Option DirItem)
  | 0, _ => .ok none
  | n + 1, off =>
    if size ≤ off then .ok none
    else if size - off < direntMinSize then .error (-3)
    else
      match readEnt f ino off with
      | .error _ => .error (-3)
      | .ok e =>
        if e.inode = 0 then
          match holeStep f.dev.sectorSize (size - off) e with
          | none => .error (-4)
          | some k => readdirLoop f ino size cap n (off + k)
        else if recordBad e (size - off) then .error (-4)
        else if cap < e.nameLength + 1 then .error (-5)
        else
          match rixfsRead f ino (off + direntMinSize) e.nameLength with
          | .error _ => .error (-6)
          | .ok b => .ok (some ⟨off + e.recordSize, e, slice b 0 e.nameLength⟩)

def readdir (f : Fs) (ino off cap : Nat) : Except Int (Option DirItem) :=
  if f.mounted = false ∨ cap < 2 then .error (-1)
  else
    match readDirInode f ino with
    | none => .error (-2)
    | some dir => readdirLoop f ino dir.size cap dir.size off

def dirSector : List Extent → Nat → Option Nat
  | [], _ => none
  | e :: l, pos => if pos < e.len then some (u64 (e.start + pos)) else dirSector l (pos - e.len)

/-- Clear the inode of the record at the offset `off` of a directory. The write
is neither journaled nor flushed. -/
def clearEntry (f : Fs) (dir : Inode) (off : Nat) : Int × Fs :=
  let ss := f.dev.sectorSize
  match dirSector dir.extents (off / ss) with
  | none => (-7, f)
  | some s =>
    match f.dev.rd s with
    | none => (-1, f)
    | some b =>
      match f.dev.wr s (clear b (off % ss) 8) with
      | none => (-1, f)
      | some d => (0, { f with dev := d })

def removeLoop (f : Fs) (ino : Nat) (dir : Inode) (name : List Byte) : Nat → Nat → Int × Fs
  | 0, _ => (-9, f)
  | n + 1, off =>
    if dir.size ≤ off then (-9, f)
    else
      match readEnt f ino off with
      | .error _ => (-4, f)
      | .ok e =>
        if e.inode = 0 then
          match holeStep f.dev.sectorSize (dir.size - off) e with
          | none => (-5, f)
          | some k => removeLoop f ino dir name n (off + k)
        else if recordBad e (dir.size - off) then (-5, f)
        else if e.nameLength = name.length then
          match rixfsRead f ino (off + direntMinSize) name.length with
          | .error _ => (-6, f)
          | .ok b =>
            if slice b 0 name.length = name then clearEntry f dir off
            else removeLoop f ino dir name n (off + e.recordSize)
        else removeLoop f ino dir name n (off + e.recordSize)

def removeName (f : Fs) (ino : Nat) (name : CString) : Int × Fs :=
  if f.mounted = false then (-1, f)
  else
    match nameValid name with
    | none => (-2, f)
    | some _ =>
      match readDirInode f ino with
      | none => (-3, f)
      | some dir => removeLoop f ino dir name.bytes dir.size 0

/-! ## Writing records -/

/-- `dir_write_at`: a record header and its name at the offset `at'`. The flags
keep their bytes. -/
def dirWriteAt (b : Buf) (at' ino rs type : Nat) (name : List Byte) : Buf :=
  splice (store (store (store (store b at' 8 ino) (at' + 8) 2 rs) (at' + 10) 1 type) (at' + 11) 1
    name.length) (at' + direntMinSize) name

/-- `dir_place`: a record in the `avail` bytes at `at'`, followed by a hole if one
fits into what is left. -/
def dirPlace (b : Buf) (at' avail ino type : Nat) (name : List Byte) : Buf :=
  let need := direntMinSize + name.length
  let left := avail - need
  if direntMinSize ≤ left then
    store (clear (dirWriteAt b at' ino need type name) (at' + need) left) (at' + need + 8) 2 left
  else dirWriteAt b at' ino avail type name

/-- The outcome of `dir_tail_fit`: a sector with the new record, no room, or a
sector that is not a chain of records. -/
inductive TailFit where
  | staged (b : Buf)
  | full
  | corrupt

def tailPlace (b : Buf) (ino type : Nat) (name : List Byte) (lastOff : Nat) (last : Dirent) :
    TailFit :=
  let need := direntMinSize + name.length
  if last.inode = 0 then
    if last.recordSize < need then .full
    else .staged (dirPlace b lastOff last.recordSize ino type name)
  else
    let tru := direntMinSize + last.nameLength
    if last.recordSize < tru then .corrupt
    else if last.recordSize - tru < need then .full
    else .staged (dirPlace (store b (lastOff + 8) 2 tru) (lastOff + tru) (last.recordSize - tru)
      ino type name)

/-- The bytes of a sector from `off` on are zero. -/
def zeroFrom (b : Buf) (ss off : Nat) : Prop := ∀ i, i < ss → off ≤ i → b i = 0

instance (b : Buf) (ss off : Nat) : Decidable (zeroFrom b ss off) :=
  inferInstanceAs (Decidable (∀ i, i < ss → off ≤ i → b i = 0))

def noRecord : Dirent := ⟨0, 0, 0, 0, 0⟩

/-- The loop of `dir_tail_fit`; `last` is the record before the offset `off`, and
`have'` says that there is one. -/
def tailLoop (b : Buf) (ss ino type : Nat) (name : List Byte) :
    Nat → Nat → Nat → Dirent → Bool → TailFit
  | 0, _, _, _, _ => .corrupt
  | n + 1, off, lastOff, last, have' =>
    let need := direntMinSize + name.length
    if ss ≤ off then (if off ≠ ss then .corrupt else tailPlace b ino type name lastOff last)
    else if ss < off + direntMinSize then .corrupt
    else
      let e := loadDirent b off
      if e.recordSize = 0 then
        if ¬zeroFrom b ss off then .corrupt
        else if have' = false then .staged (dirWriteAt b 0 ino ss type name)
        else if ss - off < need then .full
        else .staged (dirPlace b off (ss - off) ino type name)
      else if e.recordSize < direntMinSize ∨ ss < off + e.recordSize then .corrupt
      else if e.inode ≠ 0 ∧ e.recordSize - direntMinSize < e.nameLength then .corrupt
      else tailLoop b ss ino type name n (off + e.recordSize) off e true

def dirTailFit (b : Buf) (ss ino type : Nat) (name : List Byte) : TailFit :=
  if ss < direntMinSize + name.length then .full
  else tailLoop b ss ino type name (ss + 1) 0 0 noRecord false

/-- A sector that holds no entry: one hole over the whole sector, or only zeros. -/
def sectorUnused (b : Buf) (ss : Nat) : Prop :=
  load b 0 8 = 0 ∧ (load b 8 2 = ss ∨ zeroFrom b ss 0)

instance (b : Buf) (ss : Nat) : Decidable (sectorUnused b ss) :=
  inferInstanceAs (Decidable (_ ∧ _))

/-- The first of `n` logical sectors from `pos` on that holds no entry. -/
def findUnused (f : Fs) (l : List Extent) : Nat → Nat → Except Int (Option Nat)
  | 0, _ => .ok none
  | n + 1, pos =>
    match dirSector l pos with
    | none => .error (-3)
    | some s =>
      match f.dev.rd s with
      | none => .error (-3)
      | some b =>
        if sectorUnused b f.dev.sectorSize then .ok (some s) else findUnused f l n (pos + 1)

/-- Write a record over a whole sector whose other bytes are those of `b`, the
last step of `dir_append`. -/
def dirFill (f : Fs) (s : Nat) (b : Buf) (ino type : Nat) (name : List Byte) : Int × Fs :=
  journalWrite f s (dirWriteAt b 0 ino f.dev.sectorSize type name)

def dirReuse (f : Fs) (dir : Inode) (s : Nat) (grows : Bool) (ino type : Nat) (name : List Byte) :
    Except Int Inode × Fs :=
  match f.dev.rd s with
  | none => (.error (-6), f)
  | some b =>
    let r := dirFill f s b ino type name
    if r.1 ≠ 0 then (.error (-7), r.2)
    else
      (.ok (if grows then { dir with size := u64 (dir.size + f.dev.sectorSize) } else dir), r.2)

def dirExtend (f : Fs) (dir : Inode) (ino type : Nat) (name : List Byte) :
    Except Int Inode × Fs :=
  let a := allocSecTop f dir.extents
  match a.1 with
  | .error _ => (.error (-4), a.2)
  | .ok s =>
    match appendExtent dir.extents s with
    | none => (.error (-5), (bit a.2 s false).2)
    | some l =>
      let r := dirFill a.2 s zeroBuf ino type name
      if r.1 ≠ 0 then (.error (-7), (bit r.2 s false).2)
      else
        (.ok { dir with extents := l, size := u64 (dir.size + f.dev.sectorSize) }, r.2)

def dirGrow (f : Fs) (dir : Inode) (ino type : Nat) (name : List Byte) : Except Int Inode × Fs :=
  let sectors := dir.size / f.dev.sectorSize
  match findUnused f dir.extents sectors 0 with
  | .error e => (.error e, f)
  | .ok (some s) => dirReuse f dir s false ino type name
  | .ok none =>
    match dirSector dir.extents sectors with
    | some s => dirReuse f dir s (sectors = 0) ino type name
    | none => dirExtend f dir ino type name

/-- `dir_append`: add an entry to a directory. The result is the changed inode,
which the caller writes. -/
def dirAppend (f : Fs) (dir : Inode) (ino type : Nat) (name : List Byte) :
    Except Int Inode × Fs :=
  let ss := f.dev.sectorSize
  if 65535 < ss ∨ nameMax < name.length ∨ dir.size % ss ≠ 0 then (.error (-1), f)
  else if dir.size / ss = 0 then dirGrow f dir ino type name
  else
    match dirSector dir.extents (dir.size / ss - 1) with
    | none => (.error (-3), f)
    | some s =>
      match f.dev.rd s with
      | none => (.error (-3), f)
      | some b =>
        match dirTailFit b ss ino type name with
        | .staged b' =>
          let r := journalWrite f s b'
          if r.1 ≠ 0 then (.error (-7), r.2) else (.ok dir, r.2)
        | .corrupt => (.error (-3), f)
        | .full => dirGrow f dir ino type name

end RixuriOS.Rixfs
