import RixuriOS.Rixfs.Rename
import RixuriOS.Vfs.Descriptors
import RixuriOS.Vfs.Lookup

/-!
# Files and names

The calls of `vfs/vfs.c` on the mounted root. Each of them runs under the VFS lock
and is one step. A successful lookup leaves its result in the one static
`path_node`, except for the path `/`, whose node is the static node of the root: the
caller gets a pointer to one of the two.
-/

namespace RixuriOS.Vfs

open ByteCodec Rixfs

structure State where
  fs : Fs
  rootNode : Vnode
  pathNode : Vnode
  tables : Tables

inductive NodeRef
  | root | path
  deriving DecidableEq

def State.deref (s : State) : NodeRef → Vnode
  | .root => s.rootNode
  | .path => s.pathNode

def State.setFs (s : State) (f : Fs) : State := { s with fs := f }

def State.setTables (s : State) (t : Tables) : State := { s with tables := t }

/-- `vfs_lookup_locked`, and `vfs_lookup_nofollow_locked` with `follow` false. -/
def vfsLookup (s : State) (c : Caller) (follow : Bool) (path : List Byte) :
    Except Int NodeRef × State :=
  match normalizePath c.cwd path with
  | none => (.error (-1), s)
  | some norm =>
    if norm = [slash] then (.ok .root, s)
    else
      match lookupPath s.fs c follow norm with
      | .error e => (.error e, s)
      | .ok v => (.ok .path, { s with pathNode := v })

/-! ### Opening -/

def oWronly : UInt32 := 1

def oRdwr : UInt32 := 2

def oCreat : UInt32 := 4

def oTrunc : UInt32 := 8

def oCloexec : UInt32 := 128

def wantsWrite (flags : UInt32) : Bool := flags &&& (oWronly ||| oRdwr) ≠ 0

def NodeType.fdType : NodeType → FdType
  | .dir => .dir
  | .file => .file
  | .symlink => .symlink
  | .device => .device

/-- The access that `vfs_open` asks for: writing alone, when a flag asks to write. -/
def openAccess (type : NodeType) (flags : UInt32) : Nat :=
  if type = .dir then accessRead ||| accessExec
  else if wantsWrite flags then accessWrite
  else accessRead

def openNode (s : State) (c : Caller) (ps : Fin processMax) (node : Vnode) (flags : UInt32) :
    Int × Option (Fin fdMax) × State :=
  if node.type ≠ .file ∧ node.type ≠ .dir then (-8, none, s)
  else if wantsWrite flags ∧ node.type = .dir then (-9, none, s)
  else
    let r := permissionAllowed s.fs c node (openAccess node.type flags)
    if r ≠ 0 then (r, none, s)
    else
      match openFd s.tables ps node.type.fdType node.inode (wantsWrite flags)
          (flags &&& oAppend ≠ 0) (flags &&& oCloexec ≠ 0) with
      | none => (-10, none, s)
      | some (fd, t) =>
        if flags &&& oTrunc = 0 then (0, some fd, s.setTables t)
        else
          let dropped := t.setFd (ps, fd) { t.fds (ps, fd) with used := false }
          if !wantsWrite flags ∨ node.type ≠ .file then (-11, none, s.setTables dropped)
          else
            let w := truncate s.fs node.inode 0
            if w.1 ≠ 0 then (-11, none, (s.setFs w.2).setTables dropped)
            else (0, some fd, (s.setFs w.2).setTables t)

/-- The directory in which a call makes or removes an entry: the parent of the path,
which has to be a directory that the caller may write and search. The codes are those
of the call for a path that cannot be split and for a parent that is no directory. -/
def parentDir (s : State) (c : Caller) (badSplit badParent : Int) (path : List Byte) :
    Except Int (Vnode × List Byte) × State :=
  match splitParent c.cwd path with
  | none => (.error badSplit, s)
  | some (parent, name) =>
    let l := vfsLookup s c true parent
    match l.1 with
    | .error e => (.error (if e = errPermission then errPermission else badParent), l.2)
    | .ok ref =>
      let node := l.2.deref ref
      if node.type ≠ .dir then (.error badParent, l.2)
      else
        let r := permissionAllowed l.2.fs c node (accessWrite ||| accessExec)
        if r ≠ 0 then (.error r, l.2) else (.ok (node, name), l.2)

def openCreate (s : State) (c : Caller) (path : List Byte) (mode : Nat) : Int × State :=
  let p := parentDir s c (-3) (-4) path
  match p.1 with
  | .error e => (e, p.2)
  | .ok (node, name) =>
    let w := create p.2.fs node.inode (toCString name) mode c.uid c.gid
    match w.1 with
    | .error _ => (-6, p.2.setFs w.2)
    | .ok _ => (0, p.2.setFs w.2)

/-- The lookups of `vfs_open`: a copy of the node that the path names, which is created
if it is missing and the flags ask for it. -/
def openTarget (s : State) (c : Caller) (path : List Byte) (flags : UInt32) (mode : Nat) :
    Except Int Vnode × State :=
  let l := vfsLookup s c true path
  match l.1 with
  | .ok ref => (.ok (l.2.deref ref), l.2)
  | .error e =>
    if e = errPermission then (.error errPermission, l.2)
    else if flags &&& oCreat = 0 then (.error (-2), l.2)
    else
      let w := openCreate l.2 c path mode
      if w.1 ≠ 0 then (.error w.1, w.2)
      else
        let l' := vfsLookup w.2 c true path
        match l'.1 with
        | .error _ => (.error (-7), l'.2)
        | .ok ref => (.ok (l'.2.deref ref), l'.2)

def vfsOpen (s : State) (c : Caller) (pid : Nat) (path : List Byte) (flags : UInt32) (mode : Nat) :
    Int × Option (Fin fdMax) × State :=
  match pidSlot pid with
  | none => (-1, none, s)
  | some ps =>
    let t := openTarget s c path flags mode
    match t.1 with
    | .error e => (e, none, t.2)
    | .ok node => openNode t.2 c ps node flags

/-! ### Reading and writing -/

def fdSlot (pid : Nat) (fd : Int) : Option (Fin processMax × Fin fdMax) :=
  (pidSlot pid).bind fun ps => (fdIndex fd).map fun i => (ps, i)

/-- `vfs_read` on a descriptor that is not the read end of a pipe. -/
def readFile (s : State) (x : Fin processMax × Fin fdMax) (size : Nat) :
    Int × List Byte × State :=
  let fd := s.tables.fds x
  if fd.type ≠ .file then (-2, [], s)
  else
    match readInode s.fs fd.inode with
    | .error _ => (-4, [], s)
    | .ok i =>
      if i.size ≤ fd.offset then (0, [], s)
      else
        let n := min size (i.size - fd.offset)
        match rixfsRead s.fs i.inode fd.offset n with
        | .error _ => (-5, [], s)
        | .ok b =>
          (0, slice b 0 n, s.setTables (s.tables.setFd x { fd with offset := fd.offset + n }))

def vfsRead (s : State) (pid : Nat) (fd : Int) (size : Nat) : Int × List Byte × State :=
  match fdSlot pid fd with
  | none => (-1, [], s)
  | some x =>
    if (s.tables.fds x).used = false then (-1, [], s)
    else
      match vfsReadPipe s.tables x size with
      | some r => (r.1, r.2.1.map UInt8.toBitVec, s.setTables r.2.2)
      | none => readFile s x size

/-- The file part of `vfs_write`: the file with the inode `i` grows if the data goes
over its end, and then the data is written at the offset `off`. -/
def writeAt (f : Fs) (i : Inode) (off : Nat) (data : List Byte) : Int × Fs :=
  let stop := off + data.length
  if 2 ^ 64 ≤ stop then (-5, f)
  else
    let g := if i.size < stop then truncate f i.inode stop else (0, f)
    if g.1 ≠ 0 then (-6, g.2)
    else if data = [] then (0, g.2)
    else
      let w := rixfsWrite g.2 i.inode off (splice zeroBuf 0 data) data.length
      (if w.1 ≠ 0 then -7 else 0, w.2)

def writeFile (s : State) (x : Fin processMax × Fin fdMax) (data : List Byte) :
    Int × Nat × State :=
  let fd := s.tables.fds x
  if fd.writable = false ∨ fd.type ≠ .file then (-2, 0, s)
  else
    match readInode s.fs fd.inode with
    | .error _ => (-4, 0, s)
    | .ok i =>
      let off := if fd.append then i.size else fd.offset
      let w := writeAt s.fs i off data
      if w.1 ≠ 0 then (w.1, 0, s.setFs w.2)
      else
        (0, data.length,
          (s.setFs w.2).setTables (s.tables.setFd x { fd with offset := off + data.length }))

def vfsWrite (s : State) (pid : Nat) (fd : Int) (data : List Byte) : Int × Nat × State :=
  match fdSlot pid fd with
  | none => (-1, 0, s)
  | some x =>
    if (s.tables.fds x).used = false then (-1, 0, s)
    else
      match vfsWritePipe s.tables x (data.map UInt8.ofBitVec) with
      | some r => (r.1, r.2.1, s.setTables r.2.2)
      | none => writeFile s x data

/-- What a seek is relative to; the other values of `whence` are refused. -/
def seekBase (s : State) (fd : Fd) (whence : Int) : Except Int Nat :=
  if whence = 0 then .ok 0
  else if whence = 1 then .ok fd.offset
  else if whence = 2 then
    match readInode s.fs fd.inode with
    | .error _ => .error (-4)
    | .ok i => .ok i.size
  else .error (-5)

/-- `vfs_seek`, with `offset` an `int64_t`: the new offset. -/
def vfsSeek (s : State) (pid : Nat) (fd : Int) (offset whence : Int) :
    Int × Nat × State :=
  match fdSlot pid fd with
  | none => (-1, 0, s)
  | some x =>
    let d := s.tables.fds x
    if d.used = false then (-1, 0, s)
    else if d.isPipe then (-2, 0, s)
    else if d.type ≠ .file then (-3, 0, s)
    else
      match seekBase s d whence with
      | .error e => (e, 0, s)
      | .ok base =>
        let next := (base : Int) + offset
        if next < 0 ∨ 2 ^ 64 ≤ next then (-6, 0, s)
        else
          (0, next.toNat, s.setTables (s.tables.setFd x { d with offset := next.toNat }))

/-! ### Attributes -/

def vfsStat (s : State) (c : Caller) (path : List Byte) : Except Int Vnode × State :=
  let l := vfsLookup s c true path
  (l.1.map l.2.deref, l.2)

/-- A call that looks a path up, asks for a permission on its node and then rewrites
the inode. -/
def onNode (s : State) (c : Caller) (path : List Byte) (allowed : Vnode → Int)
    (edit : Fs → Nat → Int × Fs) : Int × State :=
  let l := vfsLookup s c true path
  match l.1 with
  | .error e => (e, l.2)
  | .ok ref =>
    let node := l.2.deref ref
    if allowed node ≠ 0 then (allowed node, l.2)
    else
      let w := edit l.2.fs node.inode
      (w.1, l.2.setFs w.2)

/-- Read an inode, change it, and write it back under the number it holds. -/
def editInode (change : Inode → Inode) (f : Fs) (ino : Nat) : Int × Fs :=
  match readInode f ino with
  | .error _ => (-5, f)
  | .ok i => writeInode f i.inode (change i)

def vfsChmod (s : State) (c : Caller) (path : List Byte) (mode : Nat) : Int × State :=
  if 0o7777 < mode then (-1, s)
  else
    onNode s c path
      (fun node =>
        if c.uid = 0 ∧ c.dacOverride = false then errPermission
        else if c.uid ≠ 0 ∧ c.uid ≠ node.uid then errPermission
        else 0)
      (editInode fun i => { i with mode := (i.mode &&& ifmt) ||| (mode &&& 0o7777) })

def vfsChown (s : State) (c : Caller) (path : List Byte) (uid gid : Nat) : Int × State :=
  let privileged := c.uid = 0 ∧ c.dacOverride
  onNode s c path
    (fun node =>
      if ¬privileged ∧ c.uid ≠ node.uid then errPermission
      else if ¬privileged ∧ (uid ≠ c.uid ∨ (c.inGroup gid = false ∧ gid ≠ c.gid)) then
        errPermission
      else 0)
    (editInode fun i =>
      if i.uid ≠ uid ∨ i.gid ≠ gid then
        { i with
          uid := uid
          gid := gid
          mode := if privileged then i.mode else i.mode &&& (2 ^ 32 - 1 - 0o6000) }
      else i)

def aclMutationAllowed (c : Caller) (node : Vnode) : Int :=
  if c.uid = 0 then if c.aclAdmin then 0 else errPermission
  else if c.uid = node.uid then 0
  else errPermission

def vfsSetAcl (s : State) (c : Caller) (path : List Byte) (a : Acl) : Int × State :=
  onNode s c path (aclMutationAllowed c) fun f ino => setAcl f ino a

def vfsClearAcl (s : State) (c : Caller) (path : List Byte) : Int × State :=
  onNode s c path (aclMutationAllowed c) clearAcl

/-! ### Names -/

def onEntry (s : State) (c : Caller) (badParent : Int) (path : List Byte)
    (edit : Fs → Nat → CString → Int × Fs) : Int × State :=
  let p := parentDir s c (-1) badParent path
  match p.1 with
  | .error e => (e, p.2)
  | .ok (node, name) =>
    let w := edit p.2.fs node.inode (toCString name)
    (w.1, p.2.setFs w.2)

def madeInode (w : Except Int Nat × Fs) : Int × Fs :=
  match w.1 with
  | .error e => (e, w.2)
  | .ok _ => (0, w.2)

def vfsMkdir (s : State) (c : Caller) (path : List Byte) (mode uid gid : Nat) : Int × State :=
  onEntry s c (-2) path fun f d name => madeInode (mkdir f d name mode uid gid)

def vfsSymlink (s : State) (c : Caller) (target path : List Byte) : Int × State :=
  onEntry s c (-2) path fun f d name => madeInode (symlink f d name (toCString target) c.uid c.gid)

def vfsUnlink (s : State) (c : Caller) (path : List Byte) : Int × State :=
  onEntry s c (-2) path unlink

def vfsRmdir (s : State) (c : Caller) (path : List Byte) : Int × State :=
  onEntry s c (-2) path rmdir

/-- `vfs_link`. The source is not followed, and the new entry says that it is a
regular file. -/
def vfsLink (s : State) (c : Caller) (oldPath newPath : List Byte) : Int × State :=
  if splitParent c.cwd newPath = none then (-1, s)
  else
    let l := vfsLookup s c false oldPath
    match l.1 with
    | .error _ => (-2, l.2)
    | .ok ref =>
      let source := l.2.deref ref
      if source.type ≠ .file ∧ source.type ≠ .symlink then (-3, l.2)
      else
        onEntry l.2 c (-4) newPath fun f d name => link f source.inode d name dirTypeFile

def movable (v : Vnode) : Prop := v.type = .file ∨ v.type = .symlink

instance (v : Vnode) : Decidable (movable v) := inferInstanceAs (Decidable (_ ∨ _))

def renameParent (s : State) (c : Caller) (parent : List Byte) : Except Int NodeRef × State :=
  let l := vfsLookup s c true parent
  match l.1 with
  | .error e => (.error (if e = errPermission then e else -1), l.2)
  | .ok ref => if (l.2.deref ref).type ≠ .dir then (.error (-1), l.2) else (.ok ref, l.2)

def renameEntry (s : State) (c : Caller) (oldPath newPath : List Byte) (oldDir : Nat)
    (oldName : List Byte) (newDir : Nat) (newName : List Byte) : Int × State :=
  let l := vfsLookup s c false oldPath
  match l.1 with
  | .error _ => (-1, l.2)
  | .ok ref =>
    if ¬movable (l.2.deref ref) then (-1, l.2)
    else
      let l' := vfsLookup l.2 c false newPath
      let go :=
        let w := rename l'.2.fs oldDir (toCString oldName) newDir (toCString newName) true
        (w.1, l'.2.setFs w.2)
      match l'.1 with
      | .ok ref => if ¬movable (l'.2.deref ref) then (errExists, l'.2) else go
      | .error e =>
        if e = errPermission then (e, l'.2) else if e ≠ -2 then (-1, l'.2) else go

/-- `vfs_rename`. The permission check of the old parent reads its node after the
second lookup. -/
def vfsRename (s : State) (c : Caller) (oldPath newPath : List Byte) : Int × State :=
  match splitParent c.cwd oldPath, splitParent c.cwd newPath with
  | some (oldParent, oldName), some (newParent, newName) =>
    let l := renameParent s c oldParent
    match l.1 with
    | .error e => (e, l.2)
    | .ok oldRef =>
      let oldDir := (l.2.deref oldRef).inode
      let l' := renameParent l.2 c newParent
      match l'.1 with
      | .error e => (e, l'.2)
      | .ok newRef =>
        let allowed := fun ref =>
          permissionAllowed l'.2.fs c (l'.2.deref ref) (accessWrite ||| accessExec)
        if allowed oldRef ≠ 0 ∨ allowed newRef ≠ 0 then (errPermission, l'.2)
        else
          renameEntry l'.2 c oldPath newPath oldDir oldName (l'.2.deref newRef).inode newName
  | _, _ => (-1, s)

end RixuriOS.Vfs
