import RixuriOS.Rixfs.Directory

/-!
# File system operations

Formatting a device and the operations on names: create, mkdir, symlink, link,
unlink and rmdir. Each of them is a sequence of separately journaled writes, with
a rollback where the source has one.
-/

namespace RixuriOS.Rixfs

open ByteCodec CrashStore ExtentList

def freeInodeIn (f : Fs) : List Nat → Except Int Nat
  | [] => .error (-2)
  | k :: l =>
    match readInode f k with
    | .error _ => .error (-1)
    | .ok i => if i.inode = 0 then .ok k else freeInodeIn f l

def allocInode (f : Fs) : Except Int Nat := freeInodeIn f (List.range' 1 f.super.inodeCount)

def newInode (ino mode uid gid : Nat) : Inode :=
  { Inode.zero with
    inode := ino
    mode := mode
    uid := uid
    gid := gid
    generation := 1
    links := 1 }

/-- Enter the inode `ino` into the directory `d`: read the directory, append the
entry and write the directory back. The second component is false when the entry
was not made, in which case the caller rolls back. -/
def enter (f : Fs) (d ino type : Nat) (name : List Byte) : Int × Bool × Fs :=
  match readInode f d with
  | .error _ => (-1, false, f)
  | .ok dir =>
    let a := dirAppend f dir ino type name
    match a.1 with
    | .error _ => (-1, false, a.2)
    | .ok dir' =>
      let w := writeInode a.2 d dir'
      (w.1, true, w.2)

def create (f : Fs) (d : Nat) (name : CString) (mode uid gid : Nat) : Except Int Nat × Fs :=
  match validName name with
  | none => (.error (-1), f)
  | some _ =>
    match lookupName f d name with
    | .ok _ => (.error (-2), f)
    | .error _ =>
      match allocInode f with
      | .error _ => (.error (-3), f)
      | .ok ino =>
        let w := writeInode f ino (newInode ino (ifreg ||| (mode &&& 0o7777)) uid gid)
        if w.1 ≠ 0 then (.error (-4), w.2)
        else
          let e := enter w.2 d ino dirTypeFile name.bytes
          if e.2.1 = false then (.error (-5), (writeInode e.2.2 ino Inode.zero).2)
          else if e.1 ≠ 0 then (.error (-6), e.2.2)
          else (.ok ino, e.2.2)

def mkdir (f : Fs) (d : Nat) (name : CString) (mode uid gid : Nat) : Except Int Nat × Fs :=
  match validName name with
  | none => (.error (-1), f)
  | some _ =>
    match lookupName f d name with
    | .ok _ => (.error (-2), f)
    | .error _ =>
      match allocInode f with
      | .error _ => (.error (-3), f)
      | .ok ino =>
        let a := allocSecTop f []
        match a.1 with
        | .error _ => (.error (-4), a.2)
        | .ok sec =>
          let i := { newInode ino (ifdir ||| (mode &&& 0o7777)) uid gid with
            extents := [⟨sec, 1⟩, ⟨0, 0⟩, ⟨0, 0⟩, ⟨0, 0⟩] }
          let w := writeInode a.2 ino i
          if w.1 ≠ 0 then (.error (-5), (bit w.2 sec false).2)
          else
            let e := enter w.2 d ino dirTypeDir name.bytes
            if e.2.1 = false then
              (.error (-6), (writeInode (freeInodeData e.2.2 i).2 ino Inode.zero).2)
            else if e.1 ≠ 0 then (.error (-7), e.2.2)
            else (.ok ino, e.2.2)

/-- `rixfs_symlink`. The rollbacks free the data of the inode as it was when it
was first written, which has none. -/
def symlink (f : Fs) (d : Nat) (name target : CString) (uid gid : Nat) : Except Int Nat × Fs :=
  let tl := target.bytes.length
  match validName name with
  | none => (.error (-1), f)
  | some _ =>
    if target.bytes = [] ∨ symlinkTargetMax < tl then (.error (-1), f)
    else
      match lookupName f d name with
      | .ok _ => (.error (-2), f)
      | .error _ =>
        match allocInode f with
        | .error _ => (.error (-3), f)
        | .ok ino =>
          let i := newInode ino (iflnk ||| 0o777) uid gid
          let w := writeInode f ino i
          if w.1 ≠ 0 then (.error (-4), w.2)
          else
            let undo := fun g => (writeInode (freeInodeData g i).2 ino Inode.zero).2
            let t := truncate w.2 ino tl
            if t.1 ≠ 0 then (.error (-5), undo t.2)
            else
              let u := rixfsWrite t.2 ino 0 (splice zeroBuf 0 target.bytes) tl
              if u.1 ≠ 0 then (.error (-5), undo u.2)
              else
                let e := enter u.2 d ino dirTypeSymlink name.bytes
                if e.2.1 = false then (.error (-6), undo e.2.2)
                else if e.1 ≠ 0 then (.error (-7), e.2.2)
                else (.ok ino, e.2.2)

def link (f : Fs) (source d : Nat) (name : CString) (type : Nat) : Int × Fs :=
  match validName name with
  | none => (-1, f)
  | some _ =>
    match lookupName f d name with
    | .ok _ => (-2, f)
    | .error _ =>
      match readInode f source with
      | .error _ => (-3, f)
      | .ok i =>
        if i.inode = 0 then (-3, f)
        else if i.fmt = ifdir then (-4, f)
        else if i.links = 2 ^ 32 - 1 then (-5, f)
        else
          let e := enter f d source type name.bytes
          if e.2.1 = false then (-6, e.2.2)
          else if e.1 ≠ 0 then (-7, e.2.2)
          else
            writeInode e.2.2 source
              { i with links := if i.links = 0 then 2 else i.links + 1 }

def unlink (f : Fs) (d : Nat) (name : CString) : Int × Fs :=
  match validName name with
  | none => (-1, f)
  | some _ =>
    match lookupName f d name with
    | .error _ => (-2, f)
    | .ok (ino, _) =>
      if ino = f.super.rootInode then (-3, f)
      else
        match readInode f ino with
        | .error _ => (-4, f)
        | .ok i =>
          if i.fmt = ifdir then (-5, f)
          else
            let r := removeName f d name
            if r.1 ≠ 0 then (-6, r.2)
            else if 1 < i.links then writeInode r.2 ino { i with links := i.links - 1 }
            else
              let c := freeInodeData r.2 i
              if c.1 ≠ 0 then (-7, c.2) else writeInode c.2 ino Inode.zero

def directoryEmpty (f : Fs) (ino : Nat) : Int :=
  match readdir f ino 0 (nameMax + 1) with
  | .error _ => -1
  | .ok none => 0
  | .ok (some _) => -2

def rmdir (f : Fs) (d : Nat) (name : CString) : Int × Fs :=
  match validName name with
  | none => (-1, f)
  | some _ =>
    match lookupName f d name with
    | .error _ => (-2, f)
    | .ok (ino, _) =>
      if ino = f.super.rootInode then (-3, f)
      else
        match readInode f ino with
        | .error _ => (-4, f)
        | .ok i =>
          if i.fmt ≠ ifdir then (-5, f)
          else if directoryEmpty f ino ≠ 0 then (-6, f)
          else
            let c := freeInodeData f i
            if c.1 ≠ 0 then (-7, c.2)
            else
              let r := removeName c.2 d name
              if r.1 ≠ 0 then (-8, r.2) else writeInode r.2 ino Inode.zero

/-! ## Formatting -/

def zeroSectors (d : Device) : List Nat → Option Device
  | [] => some d
  | s :: l =>
    match d.wr s zeroBuf with
    | none => none
    | some d' => zeroSectors d' l

def setBits (f : Fs) : List Nat → Int × Fs
  | [] => (0, f)
  | s :: l =>
    let r := bit f s true
    if r.1 ≠ 0 then (-6, r.2) else setBits r.2 l

def rootInodeOf (sec : Nat) : Inode :=
  { Inode.zero with
    inode := 1
    mode := ifdir ||| 0o755
    generation := 1
    extents := [⟨sec, 1⟩, ⟨0, 0⟩, ⟨0, 0⟩, ⟨0, 0⟩] }

def formatTree (f : Fs) : Int × Device :=
  let m := setBits f (List.range f.super.dataStartSector)
  if m.1 ≠ 0 then (-6, m.2.dev)
  else
    let a := allocSec m.2
    match a.1 with
    | .error _ => (-7, a.2.dev)
    | .ok root =>
      let w := writeInode a.2 1 (rootInodeOf root)
      if w.1 ≠ 0 then (-8, w.2.dev)
      else
        match w.2.dev.wr root zeroBuf with
        | none => (-9, w.2.dev)
        | some d => (0, d)

def format (d : Device) (ic : Nat) : Int × Device :=
  if d.sectorSize < 512 ∨ 4096 < d.sectorSize ∨ d.sectorCount < 128 ∨ ic < 8 then (-1, d)
  else
    let sb := formatSuper d.sectorSize d.sectorCount ic
    if d.sectorCount ≤ sb.dataStartSector + 1 then (-2, d)
    else
      match d.wr 0 (storeSuper sb) with
      | none => (-4, d)
      | some d₁ =>
        match zeroSectors d₁ (List.range' 1 (sb.dataStartSector - 1)) with
        | none => (-5, d₁)
        | some d₂ =>
          formatTree { dev := d₂, super := sb, mounted := true, metaHint := 0 }

end RixuriOS.Rixfs
