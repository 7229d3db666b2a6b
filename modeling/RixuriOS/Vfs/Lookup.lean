import RixuriOS.Process.Table
import RixuriOS.Vfs.Path

/-!
# Permissions and path lookup

`permission_allowed` and `lookup_rixfs_path_ex` of `vfs/vfs.c`, with the access
control lists of `rixfs_ops.c`. A lookup walks from the root inode over the
components of a normalized path. A symbolic link on the way makes it start again
with a rebuilt path, at most eight times. The root file system is mounted.
-/

namespace RixuriOS

namespace Rixfs

open ByteCodec

def aclVersion : Nat := 1

def aclNone : Nat := 2 ^ 32 - 1

def aclPermMask : Nat := 7

def inodeFlagAcl : Nat := 1

structure Acl where
  version : Nat
  user : Nat
  userPerm : Nat
  group : Nat
  groupPerm : Nat
  mask : Nat
  deriving DecidableEq

def Inode.acl (i : Inode) : Acl :=
  if i.flags &&& inodeFlagAcl = 0 then ⟨aclVersion, aclNone, 0, aclNone, 0, aclPermMask⟩
  else
    ⟨aclVersion, i.aclUser, i.aclUserPerm &&& aclPermMask, i.aclGroup,
      i.aclGroupPerm &&& aclPermMask, i.aclMask &&& aclPermMask⟩

def getAcl (f : Fs) (ino : Nat) : Except Int Acl :=
  match readInode f ino with
  | .error _ => .error (-2)
  | .ok i => .ok i.acl

/-- `x & ~RIXFS_ACL_PERM_MASK` for a 32-bit value. -/
def aclExtra (x : Nat) : Nat := u32 x / 8

def aclValid (a : Acl) : Int :=
  if a.version ≠ aclVersion then -1
  else if a.user ≠ aclNone ∧ aclExtra a.userPerm ≠ 0 then -2
  else if a.group ≠ aclNone ∧ aclExtra a.groupPerm ≠ 0 then -3
  else if aclExtra a.mask ≠ 0 then -4
  else 0

def setAcl (f : Fs) (ino : Nat) (a : Acl) : Int × Fs :=
  if aclValid a ≠ 0 then (-1, f)
  else
    match readInode f ino with
    | .error _ => (-2, f)
    | .ok i =>
      writeInode f ino
        { i with
          flags := i.flags ||| inodeFlagAcl
          aclUser := a.user
          aclUserPerm := a.userPerm &&& aclPermMask
          aclGroup := a.group
          aclGroupPerm := a.groupPerm &&& aclPermMask
          aclMask := a.mask &&& aclPermMask }

def clearAcl (f : Fs) (ino : Nat) : Int × Fs :=
  match readInode f ino with
  | .error _ => (-2, f)
  | .ok i =>
    writeInode f ino
      { i with
        flags := i.flags &&& (2 ^ 32 - 1 - inodeFlagAcl)
        aclUser := aclNone
        aclUserPerm := 0
        aclGroup := aclNone
        aclGroupPerm := 0
        aclMask := aclPermMask }

end Rixfs

namespace ProcTable

def capDacOverride : Capabilities := 1 <<< 0

def capAclAdmin : Capabilities := 1 <<< 5

def processUid (t : Table) (pid : Nat) : Nat :=
  match lookup t pid with
  | none => 2 ^ 32 - 1
  | some i => (t.table i).uid.toNat

def processGid (t : Table) (pid : Nat) : Nat :=
  match lookup t pid with
  | none => 2 ^ 32 - 1
  | some i => (t.table i).gid.toNat

def processInGroup (t : Table) (pid gid : Nat) : Bool :=
  match lookup t pid with
  | none => false
  | some i =>
    (t.table i).gid.toNat = gid ||
      (List.range (t.supplementaryCounts i)).any fun g =>
        (t.supplementaryGroups i g).toNat = gid

end ProcTable

namespace Vfs

open ByteCodec Rixfs ProcTable

structure Caller where
  uid : Nat
  gid : Nat
  inGroup : Nat → Bool
  dacOverride : Bool
  aclAdmin : Bool
  cwd : Option (List Byte)

/-- The answers of the process table about the process `pid` with the working
directory `cwd`. -/
def callerOf (t : Table) (pid : Nat) (cwd : Option (List Byte)) : Caller where
  uid := processUid t pid
  gid := processGid t pid
  inGroup := processInGroup t pid
  dacOverride := hasCapability t pid capDacOverride
  aclAdmin := hasCapability t pid capAclAdmin
  cwd := cwd

inductive NodeType
  | dir | file | symlink | device
  deriving DecidableEq, Repr

structure Vnode where
  inode : Nat
  type : NodeType
  mode : Nat
  uid : Nat
  gid : Nat
  size : Nat
  deriving DecidableEq

def accessRead : Nat := 4

def accessWrite : Nat := 2

def accessExec : Nat := 1

def errPermission : Int := -13

def errExists : Int := -17

def errLoop : Int := -40

/-- The permission bits that `permission_allowed` gives to a caller who is not the
owner of the node. -/
def Caller.aclBits (c : Caller) (node : Vnode) (a : Acl) : Nat :=
  if a.version = aclVersion ∧ a.user ≠ aclNone ∧ a.user = c.uid then
    (a.userPerm &&& aclPermMask) &&& (a.mask &&& aclPermMask)
  else if a.version = aclVersion ∧ a.group ≠ aclNone ∧ c.inGroup a.group then
    (a.groupPerm &&& aclPermMask) &&& (a.mask &&& aclPermMask)
  else if c.inGroup node.gid then (node.mode >>> 3) &&& 7
  else node.mode &&& 7

/-- The bits of the class of the caller; none when the list of the inode cannot be
read. -/
def classBits (f : Fs) (c : Caller) (node : Vnode) : Option Nat :=
  if c.uid = node.uid then some ((node.mode >>> 6) &&& 7)
  else
    match getAcl f node.inode with
    | .error _ => none
    | .ok a => some (c.aclBits node a)

def permissionAllowed (f : Fs) (c : Caller) (node : Vnode) (access : Nat) : Int :=
  if c.uid = 0 ∧ c.dacOverride then 0
  else
    match classBits f c node with
    | none => errPermission
    | some bits => if bits &&& access = access then 0 else errPermission

def direntType (t : Nat) : NodeType :=
  if t = dirTypeDir then .dir
  else if t = dirTypeFile then .file
  else if t = dirTypeSymlink then .symlink
  else .device

def vnodeOf (ino : Nat) (i : Inode) (t : NodeType) : Vnode where
  inode := ino
  type := t
  mode := i.mode
  uid := i.uid
  gid := i.gid
  size := i.size

def linkTarget (f : Fs) (ino : Nat) (i : Inode) : Option (List Byte) :=
  if pathMax ≤ i.size then none
  else if i.size = 0 then some []
  else
    match rixfsRead f ino 0 i.size with
    | .error _ => none
    | .ok b => some (cstr (slice b 0 i.size))

def withSlash (l : List Byte) : List Byte := if l.getLast? = some slash then l else l ++ [slash]

/-- The path with the component at the offset `off` of `work`, a link to `target`,
replaced; `rest` is what follows it. -/
def rebuild (work : List Byte) (off : Nat) (target rest : List Byte) : List Byte :=
  let front := (work.take off).rdropWhile (· = slash)
  let base :=
    if target.head? = some slash then target
    else withSlash (if front = [] then [slash] else front) ++ target
  if rest = [] then base else withSlash base ++ rest

def followLink (f : Fs) (c : Caller) (work : List Byte) (off ino : Nat) (i : Inode)
    (rest : List Byte) : Option (List Byte) :=
  (linkTarget f ino i).bind fun target =>
    let rebuilt := rebuild work off target rest
    if pathMax ≤ rebuilt.length then none else normalizePath c.cwd rebuilt

/-- Where the walk over the components ends: at a node, or at a symbolic link, with
the path to start again. -/
inductive WalkEnd
  | found (v : Vnode)
  | restart (work : List Byte)

/-- The loop of `lookup_rixfs_path_ex` from the component at the offset `off` of
`work` in the directory `cur` on. Every round passes at least one byte. -/
def walkLoop (f : Fs) (c : Caller) (follow : Bool) (work : List Byte) :
    Nat → Vnode → Nat → Except Int WalkEnd
  | 0, _, _ => .error (-1)
  | n + 1, cur, off =>
    if permissionAllowed f c cur accessExec ≠ 0 then .error errPermission
    else
      let name := (work.drop off).takeWhile (· ≠ slash)
      if name = [] ∨ vfsNameMax < name.length then .error (-1)
      else
        match lookupName f cur.inode (toCString name) with
        | .error _ => .error (-2)
        | .ok (next, t) =>
          match readInode f next with
          | .error _ => .error (-1)
          | .ok i =>
            let rest := (work.drop (off + name.length)).dropWhile (· = slash)
            if t = dirTypeSymlink ∧ (follow ∨ rest ≠ []) then
              match followLink f c work off next i rest with
              | none => .error (-1)
              | some work' => .ok (.restart work')
            else if rest = [] then .ok (.found (vnodeOf next i (direntType t)))
            else if i.fmt ≠ ifdir then .error (-1)
            else walkLoop f c follow work n (vnodeOf next i .dir) (work.length - rest.length)

def maxSymlinks : Nat := 8

/-- `lookup_rixfs_path_ex` with `n` starts left. -/
def lookupStart (f : Fs) (c : Caller) (follow : Bool) : Nat → List Byte → Except Int Vnode
  | 0, _ => .error errLoop
  | n + 1, work =>
    match readInode f f.super.rootInode with
    | .error _ => .error (-1)
    | .ok i =>
      let cur := vnodeOf f.super.rootInode i .dir
      if work = [slash] then .ok cur
      else
        match walkLoop f c follow work work.length cur 1 with
        | .error e => .error e
        | .ok (.found v) => .ok v
        | .ok (.restart work') => lookupStart f c follow n work'

def lookupPath (f : Fs) (c : Caller) (follow : Bool) (path : List Byte) : Except Int Vnode :=
  if pathMax ≤ path.length then .error (-1) else lookupStart f c follow (maxSymlinks + 1) path

end Vfs

end RixuriOS
