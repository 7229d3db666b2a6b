import RixuriOS.Vfs.Files

/-!
# Runs of the VFS

Any processes make calls of `vfs/vfs.c` in any order. A call names the process it is
made for and, where it checks permissions, carries what the VFS asks about the caller.
-/

namespace RixuriOS.Vfs

open ByteCodec Rixfs

def Call.onTables : Call → Bool
  | .open .. | .read .. | .write .. => false
  | _ => true

inductive Op
  | open (c : Caller) (pid : Nat) (path : List Byte) (flags : UInt32) (mode : Nat)
  | read (pid : Nat) (fd : Int) (size : Nat)
  | write (pid : Nat) (fd : Int) (data : List Byte)
  | seek (pid : Nat) (fd : Int) (offset whence : Int)
  | chmod (c : Caller) (path : List Byte) (mode : Nat)
  | chown (c : Caller) (path : List Byte) (uid gid : Nat)
  | setAcl (c : Caller) (path : List Byte) (acl : Acl)
  | clearAcl (c : Caller) (path : List Byte)
  | mkdir (c : Caller) (path : List Byte) (mode uid gid : Nat)
  | symlink (c : Caller) (target path : List Byte)
  | unlink (c : Caller) (path : List Byte)
  | rmdir (c : Caller) (path : List Byte)
  | link (c : Caller) (oldPath newPath : List Byte)
  | rename (c : Caller) (oldPath newPath : List Byte)
  | descriptors (call : Call)

/-- The return value of a call and the state after it. The calls on the tables are
reported as successful, whatever they return. -/
def Op.perform (s : State) : Op → Int × State
  | .open c pid path flags mode =>
    let r := vfsOpen s c pid path flags mode
    (r.1, r.2.2)
  | .read pid fd size =>
    let r := vfsRead s pid fd size
    (r.1, r.2.2)
  | .write pid fd data =>
    let r := vfsWrite s pid fd data
    (r.1, r.2.2)
  | .seek pid fd offset whence =>
    let r := vfsSeek s pid fd offset whence
    (r.1, r.2.2)
  | .chmod c path mode => vfsChmod s c path mode
  | .chown c path uid gid => vfsChown s c path uid gid
  | .setAcl c path acl => vfsSetAcl s c path acl
  | .clearAcl c path => vfsClearAcl s c path
  | .mkdir c path mode uid gid => vfsMkdir s c path mode uid gid
  | .symlink c target path => vfsSymlink s c target path
  | .unlink c path => vfsUnlink s c path
  | .rmdir c path => vfsRmdir s c path
  | .link c oldPath newPath => vfsLink s c oldPath newPath
  | .rename c oldPath newPath => vfsRename s c oldPath newPath
  | .descriptors call => (0, if call.onTables then s.setTables (call.apply s.tables) else s)

/-! ### The tables after a call -/

section

variable (s : State) (c : Caller)

theorem vfsLookup_tables (follow : Bool) (path : List Byte) :
    (vfsLookup s c follow path).2.tables = s.tables := by
  unfold vfsLookup
  split
  · rfl
  split_ifs
  · rfl
  split <;> rfl

theorem parentDir_tables (badSplit badParent : Int) (path : List Byte) :
    (parentDir s c badSplit badParent path).2.tables = s.tables := by
  unfold parentDir
  split
  · rfl
  next parent name _ =>
    have h := vfsLookup_tables s c true parent
    dsimp only
    split
    · exact h
    · split_ifs <;> exact h

theorem onEntry_tables (badParent : Int) (path : List Byte) (edit : Fs → Nat → CString → Int × Fs) :
    (onEntry s c badParent path edit).2.tables = s.tables := by
  have h := parentDir_tables s c (-1) badParent path
  rw [onEntry]
  split <;> exact h

theorem onNode_tables (path : List Byte) (allowed : Vnode → Int) (edit : Fs → Nat → Int × Fs) :
    (onNode s c path allowed edit).2.tables = s.tables := by
  have h := vfsLookup_tables s c true path
  simp only [onNode]
  split
  · exact h
  · split_ifs <;> exact h

theorem renameParent_tables (parent : List Byte) :
    (renameParent s c parent).2.tables = s.tables := by
  have h := vfsLookup_tables s c true parent
  rw [renameParent]
  split
  · exact h
  · split_ifs <;> exact h

theorem vfsLink_tables (oldPath newPath : List Byte) :
    (vfsLink s c oldPath newPath).2.tables = s.tables := by
  have h := vfsLookup_tables s c false oldPath
  simp only [vfsLink]
  split_ifs
  · rfl
  split
  · exact h
  split_ifs
  · exact h
  · exact (onEntry_tables _ _ _ _ _).trans h

theorem renameEntry_tables (oldPath newPath : List Byte) (oldDir : Nat) (oldName : List Byte)
    (newDir : Nat) (newName : List Byte) :
    (renameEntry s c oldPath newPath oldDir oldName newDir newName).2.tables = s.tables := by
  have h := vfsLookup_tables s c false oldPath
  have h' := (vfsLookup_tables (vfsLookup s c false oldPath).2 c false newPath).trans h
  simp only [renameEntry]
  split
  · exact h
  split
  · exact h
  split
  · split <;> exact h'
  · split_ifs <;> exact h'

theorem vfsRename_tables (oldPath newPath : List Byte) :
    (vfsRename s c oldPath newPath).2.tables = s.tables := by
  simp only [vfsRename]
  split
  · next oldParent oldName newParent newName _ _ =>
      have h := renameParent_tables s c oldParent
      have h' := (renameParent_tables (renameParent s c oldParent).2 c newParent).trans h
      split
      · exact h
      split
      · exact h'
      split_ifs
      · exact h'
      · exact (renameEntry_tables _ _ _ _ _ _ _ _).trans h'
  · rfl

end

end RixuriOS.Vfs
