import RixuriOS.Vfs.Files

/-!
# What opening a path checks

A lookup changes nothing but the static node, and what it finds does not depend on
that node. `vfs_open` hands out a descriptor only for a node on which
`permission_allowed` has granted the access that the flags ask for.
-/

namespace RixuriOS.Vfs

open ByteCodec Rixfs

variable {v : Vnode} {flags : UInt32} {mode : Nat}

variable {s s' : State} {c : Caller} {path : List Byte} {follow : Bool}

def Names (s : State) (c : Caller) (path : List Byte) (v : Vnode) : Prop :=
  (vfsStat s c path).1 = .ok v

structure SameFiles (s s' : State) : Prop where
  fs : s'.fs = s.fs
  rootNode : s'.rootNode = s.rootNode
  tables : s'.tables = s.tables

theorem SameFiles.trans {s₁ s₂ s₃ : State} (h : SameFiles s₁ s₂) (h' : SameFiles s₂ s₃) :
    SameFiles s₁ s₃ :=
  ⟨h'.fs.trans h.fs, h'.rootNode.trans h.rootNode, h'.tables.trans h.tables⟩

theorem vfsLookup_sameFiles (s : State) (c : Caller) (follow : Bool) (path : List Byte) :
    SameFiles s (vfsLookup s c follow path).2 := by
  unfold vfsLookup
  cases normalizePath c.cwd path with
  | none => exact ⟨rfl, rfl, rfl⟩
  | some norm =>
  dsimp only
  split_ifs
  · exact ⟨rfl, rfl, rfl⟩
  · cases lookupPath s.fs c follow norm <;> exact ⟨rfl, rfl, rfl⟩

theorem vfsStat_congr (h : SameFiles s s') : (vfsStat s' c path).1 = (vfsStat s c path).1 := by
  simp only [vfsStat, vfsLookup]
  cases normalizePath c.cwd path with
  | none => rfl
  | some norm =>
  by_cases hroot : norm = [slash]
  · simp only [hroot, if_true, Except.map, State.deref, h.rootNode]
  · simp only [hroot, if_false, h.fs]
    cases lookupPath s.fs c true norm <;> rfl

theorem names_of_lookup {ref : NodeRef} (h : (vfsLookup s c true path).1 = .ok ref) :
    Names s c path ((vfsLookup s c true path).2.deref ref) := by
  rw [Names, vfsStat, h]
  rfl

/-! ### Permission bits -/

variable {f : Fs} {rc : Int}

theorem permissionAllowed_eq_zero {access : Nat} :
    permissionAllowed f c v access = 0 ↔
      (c.uid = 0 ∧ c.dacOverride) ∨ ∃ bits, classBits f c v = some bits ∧ bits &&& access = access := by
  unfold permissionAllowed
  by_cases hroot : c.uid = 0 ∧ c.dacOverride = true
  · simp [hroot]
  rw [if_neg hroot]
  cases hbits : classBits f c v with
  | none => simp [hroot, errPermission]
  | some bits =>
  by_cases hb : bits &&& access = access
  · simp [hb]
  · simp [hroot, hb, errPermission]

theorem permissionAllowed_mono {a b : Nat} (hab : b &&& a = b) (h : permissionAllowed f c v a = 0) :
    permissionAllowed f c v b = 0 := by
  rw [permissionAllowed_eq_zero] at h ⊢
  refine h.imp_right ?_
  rintro ⟨bits, hbits, ha⟩
  refine ⟨bits, hbits, ?_⟩
  calc bits &&& b = bits &&& (b &&& a) := by rw [hab]
    _ = b &&& (bits &&& a) := by rw [← Nat.and_assoc, Nat.and_comm bits b, Nat.and_assoc]
    _ = b := by rw [ha, hab]

/-! ### Opening -/

variable {i : Fin fdMax} {ps : Fin processMax}

theorem openFd_eq_some {t t' : Tables} {type : FdType} {inode : Nat} {w a e : Bool}
    (h : openFd t ps type inode w a e = some (i, t')) :
    (t.fds (ps, i)).used = false ∧ t' = t.setFd (ps, i) ⟨true, type, w, a, e, inode, 0, none, false⟩ := by
  unfold openFd at h
  obtain ⟨j, hj, hjt⟩ := Option.map_eq_some_iff.1 h
  cases hjt
  have := List.find?_some hj
  rw [Bool.and_eq_true, Bool.not_eq_true'] at this
  exact ⟨this.2, rfl⟩

/-- What `vfs_open` has done when it hands out the descriptor `i` for the node `v`. -/
structure Opened (s : State) (c : Caller) (ps : Fin processMax) (v : Vnode) (flags : UInt32)
    (i : Fin fdMax) (s' : State) : Prop where
  type : v.type = .file ∨ v.type = .dir
  writing : wantsWrite flags = true → v.type = .file
  allowed : permissionAllowed s.fs c v (openAccess v.type flags) = 0
  unused : (s.tables.fds (ps, i)).used = false
  rootNode : s'.rootNode = s.rootNode
  pathNode : s'.pathNode = s.pathNode
  tables : s'.tables = s.tables.setFd (ps, i)
    ⟨true, v.type.fdType, wantsWrite flags, flags &&& oAppend ≠ 0, flags &&& oCloexec ≠ 0, v.inode,
      0, none, false⟩
  fs : flags &&& oTrunc = 0 ∧ s'.fs = s.fs ∨
    v.type = .file ∧ wantsWrite flags = true ∧ truncate s.fs v.inode 0 = (0, s'.fs)

theorem openNode_eq_some (h : openNode s c ps v flags = (rc, some i, s')) :
    Opened s c ps v flags i s' := by
  unfold openNode at h
  split at h
  · simp at h
  split at h
  · simp at h
  dsimp only at h
  split at h
  · simp at h
  rename_i hperm
  have htype' : v.type = .file ∨ v.type = .dir := by tauto
  have hwriting : wantsWrite flags = true → v.type = .file := by tauto
  have hallowed := not_not.1 hperm
  cases hfd : openFd s.tables ps v.type.fdType v.inode (wantsWrite flags) (flags &&& oAppend ≠ 0)
      (flags &&& oCloexec ≠ 0) with
  | none =>
    rw [hfd] at h
    simp at h
  | some p =>
  obtain ⟨j, t⟩ := p
  rw [hfd] at h
  obtain ⟨hunused, ht⟩ := openFd_eq_some hfd
  dsimp only at h
  split at h
  · rename_i htrunc
    cases h
    exact ⟨htype', hwriting, hallowed, hunused, rfl, rfl, ht, .inl ⟨htrunc, rfl⟩⟩
  split at h
  · simp at h
  rename_i hbad
  split_ifs at h with hw
  · simp at h
  cases h
  rw [Bool.not_eq_true', not_or, Bool.not_eq_false, not_not] at hbad
  refine ⟨htype', hwriting, hallowed, hunused, rfl, rfl, ht, .inr ⟨hbad.2, hbad.1, ?_⟩⟩
  exact Prod.ext (not_not.1 hw) rfl

/-- The state in which `vfs_open` has found the node: nothing has happened but lookups,
or the file has been created. -/
inductive Reaches (s : State) (c : Caller) (path : List Byte) (flags : UInt32) (mode : Nat) :
    State → Prop
  | found {s₁ : State} : SameFiles s s₁ → Reaches s c path flags mode s₁
  | created {s₀ s₁ : State} : SameFiles s s₀ → flags &&& oCreat ≠ 0 →
      (openCreate s₀ c path mode).1 = 0 → SameFiles (openCreate s₀ c path mode).2 s₁ →
      Reaches s c path flags mode s₁

theorem openTarget_eq_ok (h : openTarget s c path flags mode = (.ok v, s')) :
    Reaches s c path flags mode s' ∧ Names s' c path v := by
  have hnames : ∀ {s : State} {ref : NodeRef}, (vfsLookup s c true path).1 = .ok ref →
      Names (vfsLookup s c true path).2 c path ((vfsLookup s c true path).2.deref ref) := by
    intro s ref href
    rw [Names, vfsStat_congr (vfsLookup_sameFiles s c true path)]
    exact names_of_lookup href
  rw [openTarget] at h
  have hsame := vfsLookup_sameFiles s c true path
  cases hl : (vfsLookup s c true path).1 with
  | ok ref =>
    rw [hl] at h
    cases h
    exact ⟨.found hsame, hnames hl⟩
  | error e =>
  simp only [hl] at h
  split at h
  · simp at h
  split at h
  · simp at h
  rename_i hcreat
  split_ifs at h with hmade
  · simp at h
  cases hl' : (vfsLookup (openCreate (vfsLookup s c true path).2 c path mode).2 c true path).1 with
  | error e => simp [hl'] at h
  | ok ref =>
  rw [hl'] at h
  cases h
  exact ⟨.created hsame hcreat (not_not.1 hmade) (vfsLookup_sameFiles _ c true path), hnames hl'⟩

/-- When `vfs_open` hands out a descriptor, it is for the node that the path names, and
`permission_allowed` has granted the access. -/
theorem vfsOpen_eq_some {pid : Nat} (h : vfsOpen s c pid path flags mode = (rc, some i, s')) :
    ∃ ps v s₁, pidSlot pid = some ps ∧ openTarget s c path flags mode = (.ok v, s₁) ∧
      Opened s₁ c ps v flags i s' := by
  unfold vfsOpen at h
  cases hps : pidSlot pid with
  | none => simp [hps] at h
  | some ps =>
  rcases ht : openTarget s c path flags mode with ⟨e | v, s₁⟩
  · simp [hps, ht] at h
  · rw [hps, ht] at h
    exact ⟨ps, v, s₁, rfl, rfl, openNode_eq_some h⟩

/-- Without `RIX_VFS_O_CREAT` nothing but lookups precedes the check. -/
theorem Reaches.sameFiles (h : Reaches s c path flags mode s') (hcreat : flags &&& oCreat = 0) :
    SameFiles s s' := by
  cases h with
  | found hs => exact hs
  | created _ hc _ _ => exact absurd hcreat hc

/-! ### A file system with one file -/

/-- The node of the root after `vfs_mount_root`: apart from the inode number, it is the
one of `vfs_init`. -/
def mountedRoot (f : Fs) : Vnode := ⟨f.super.rootInode, .dir, 0o755, 0, 0, 0⟩

def noDescriptors : Tables where
  fds _ := ⟨false, .none, false, false, false, 0, 0, none, false⟩
  pipes _ := ⟨⟨⟨fun _ => 0, 0, 0, 0, false⟩, false, false, 0, 0⟩, false, 0⟩

def mountRoot (f : Fs) : State := ⟨f, mountedRoot f, mountedRoot f, noDescriptors⟩

/-- A mounted image of 128 sectors. Its root directory, in sector 21, has the one entry
`x`, for the regular file `i` with the inode number 2, whose data is in sector 22. -/
def oneFile (i : Inode) (data : Buf) : Fs where
  dev :=
    { sectorSize := 512
      sectorCount := 128
      disk := fun s =>
        if s = 0 then storeSuper (formatSuper 512 128 8)
        else if s = 1 then
          storeInode (storeInode zeroBuf 0 { rootInodeOf 21 with size := 512 }) 128 i
        else if s = 3 then fun k => if k < 2 then 255 else if k = 2 then 0x7F else 0
        else if s = 21 then dirWriteAt zeroBuf 0 2 512 dirTypeFile [0x78]
        else if s = 22 then data
        else zeroBuf
      log := [] }
  super := formatSuper 512 128 8
  mounted := true
  metaHint := 0

def fileInode (mode uid gid size : Nat) : Inode :=
  { newInode 2 (ifreg ||| mode) uid gid with
    size := size
    extents := [⟨22, 1⟩, ⟨0, 0⟩, ⟨0, 0⟩, ⟨0, 0⟩] }

def xPath : List Byte := [slash, 0x78]

end RixuriOS.Vfs
