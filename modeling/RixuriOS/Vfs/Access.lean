import RixuriOS.Lib.GuardedRun
import RixuriOS.Vfs.Calls
import RixuriOS.Vfs.Lineage
import RixuriOS.Vfs.Opening

/-!
# Permissions behind a descriptor

Reading and writing check no permission: they rely on what `vfs_open` has checked. A
run of the VFS is traced together with the `vfs_open` behind each descriptor. A
descriptor that can write has passed the check for writing. One that was opened to
write was never checked for reading, but it can be read.
-/

namespace RixuriOS.Vfs

open ByteCodec Rixfs GuardedRun Function

/-- A successful `vfs_open`: the caller, the node, and the file system at the time of
the permission check. -/
structure Opening where
  caller : Caller
  node : Vnode
  fs : Fs

def Opening.Passed (o : Opening) (access : Nat) : Prop :=
  permissionAllowed o.fs o.caller o.node access = 0

abbrev Origins := Fin processMax × Fin fdMax → Option Opening

/-- The descriptor that a `vfs_open` hands out, with the opening. -/
def opening (s : State) (c : Caller) (pid : Nat) (path : List Byte) (flags : UInt32) (mode : Nat) :
    Option ((Fin processMax × Fin fdMax) × Opening) :=
  match pidSlot pid, (vfsOpen s c pid path flags mode).2.1, openTarget s c path flags mode with
  | some ps, some i, (.ok v, s₁) => some ((ps, i), ⟨c, v, s₁.fs⟩)
  | _, _, _ => none

def Op.origins (s : State) (o : Origins) : Op → Origins
  | .open c pid path flags mode =>
    match opening s c pid path flags mode with
    | some (x, p) => update o x (some p)
    | none => o
  | .descriptors call => if call.onTables then fun x => o (call.source s.tables x) else o
  | _ => o

structure Traced where
  state : State
  origins : Origins

def Traced.step (t : Traced) (op : Op) : Option Traced :=
  some ⟨(op.perform t.state).2, op.origins t.state t.origins⟩

/-- A `vfs_open` that asks to write would pass the check for reading as well. -/
def readChecked (t : Traced) : Op → Bool
  | .open c _ path flags mode =>
    match openTarget t.state c path flags mode with
    | (.ok v, s₁) => !wantsWrite flags || permissionAllowed s₁.fs c v accessRead = 0
    | _ => true
  | _ => true

/-- The opening `o` is behind the descriptor `fd`. -/
structure Backs (o : Opening) (fd : Fd) : Prop where
  inode : o.node.inode = fd.inode
  write : fd.writable = true → o.Passed accessWrite
  read : o.Passed accessRead

/-- Behind every descriptor for a file or a directory there is an opening. -/
def Backed (t : Traced) : Prop :=
  ∀ x, (t.state.tables.fds x).used = true → (t.state.tables.fds x).isPipe = false →
    ∃ o, t.origins x = some o ∧ Backs o (t.state.tables.fds x)

structure Fd.SameFile (fd fd' : Fd) : Prop where
  used : fd'.used = fd.used
  type : fd'.type = fd.type
  writable : fd'.writable = fd.writable
  inode : fd'.inode = fd.inode

theorem Fd.SameFile.refl (fd : Fd) : fd.SameFile fd := ⟨rfl, rfl, rfl, rfl⟩

variable {fd fd' : Fd} {s : State}

theorem Fd.SameFile.isPipe (h : fd.SameFile fd') : fd'.isPipe = fd.isPipe := by
  simp only [Fd.isPipe, h.type]

theorem Fd.SameObject.sameFile (h : fd.SameObject fd') : fd.SameFile fd' :=
  ⟨h.used, h.type, h.writable, h.inode⟩

theorem Backs.congr {o : Opening} (h : Backs o fd) (hs : fd.SameFile fd') : Backs o fd' :=
  ⟨h.inode.trans hs.inode.symm, fun hw => h.write (hs.writable.symm.trans hw), h.read⟩

theorem sameFile_setOffset (t : Tables) (y : Fin processMax × Fin fdMax) (off : Nat)
    (x : Fin processMax × Fin fdMax) :
    (t.fds x).SameFile ((t.setFd y { t.fds y with offset := off }).fds x) := by
  by_cases hxy : x = y
  · subst hxy
    simp only [Tables.setFd, update_self]
    exact ⟨rfl, rfl, rfl, rfl⟩
  · simp only [Tables.setFd, update_of_ne hxy]
    exact .refl _

variable {x : Fin processMax × Fin fdMax}

variable {t : Tables} {n pid : Nat} {op : Op} {s' : State} {c : Caller} {v : Vnode} {flags : UInt32}

theorem vfsReadPipe_fds {r : Int × List UInt8 × Tables} (h : vfsReadPipe t x n = some r) :
    r.2.2.fds = t.fds := by
  unfold vfsReadPipe at h
  split_ifs at h
  split at h <;> cases h <;> rfl

theorem vfsWritePipe_fds {buf : List UInt8} {r : Int × Nat × Tables}
    (h : vfsWritePipe t x buf = some r) : r.2.2.fds = t.fds := by
  unfold vfsWritePipe at h
  split_ifs at h
  split at h <;> cases h <;> rfl

theorem readFile_sameFile (s : State) (y : Fin processMax × Fin fdMax) (n : Nat)
    (x : Fin processMax × Fin fdMax) :
    (s.tables.fds x).SameFile ((readFile s y n).2.2.tables.fds x) := by
  simp only [readFile]
  split_ifs
  · exact .refl _
  split
  · exact .refl _
  split_ifs
  · exact .refl _
  split
  · exact .refl _
  · exact sameFile_setOffset ..

theorem writeFile_sameFile (s : State) (y : Fin processMax × Fin fdMax) (data : List Byte)
    (x : Fin processMax × Fin fdMax) :
    (s.tables.fds x).SameFile ((writeFile s y data).2.2.tables.fds x) := by
  simp only [writeFile]
  split
  · exact .refl _
  split
  · exact .refl _
  next i _ =>
    generalize (if (s.tables.fds y).append = true then i.size else (s.tables.fds y).offset) = off
    split
    · exact .refl _
    · exact sameFile_setOffset ..

/-- The calls that are no `vfs_open` and touch more than the tables leave every
descriptor what it is. -/
theorem perform_sameFile (s : State)
    (hopen : ∀ c pid path flags mode, op ≠ .open c pid path flags mode)
    (htables : ∀ call, op ≠ .descriptors call) (x : Fin processMax × Fin fdMax) :
    (s.tables.fds x).SameFile ((op.perform s).2.tables.fds x) := by
  have hsame : ∀ {s' : State}, s'.tables.fds = s.tables.fds →
      (s.tables.fds x).SameFile (s'.tables.fds x) := fun h => h ▸ .refl _
  cases op with
  | «open» c pid path flags mode => exact absurd rfl (hopen c pid path flags mode)
  | descriptors call => exact absurd rfl (htables call)
  | chmod c path mode =>
    refine hsame ?_
    rw [Op.perform, vfsChmod]
    split
    · rfl
    · rw [onNode_tables]
  | chown | setAcl | clearAcl => exact hsame (congrArg Tables.fds (onNode_tables ..))
  | mkdir | symlink | unlink | rmdir => exact hsame (congrArg Tables.fds (onEntry_tables ..))
  | link => exact hsame (congrArg Tables.fds (vfsLink_tables ..))
  | rename => exact hsame (congrArg Tables.fds (vfsRename_tables ..))
  | read pid fd size =>
    rw [Op.perform, vfsRead]
    split
    · exact .refl _
    split
    · exact .refl _
    split
    · next r hr => exact hsame (vfsReadPipe_fds hr)
    · exact readFile_sameFile ..
  | write pid fd data =>
    rw [Op.perform, vfsWrite]
    split
    · exact .refl _
    split
    · exact .refl _
    split
    · next r hr => exact hsame (vfsWritePipe_fds hr)
    · exact writeFile_sameFile ..
  | seek pid fd offset whence =>
  simp only [Op.perform, vfsSeek]
  split
  · exact .refl _
  split
  · exact .refl _
  split
  · exact .refl _
  split
  · exact .refl _
  split
  · exact .refl _
  split
  · exact .refl _
  · exact sameFile_setOffset ..

/-! ### Opening -/

theorem openTarget_tables (s : State) (c : Caller) (path : List Byte) (flags : UInt32) (mode : Nat) :
    (openTarget s c path flags mode).2.tables = s.tables := by
  have h := vfsLookup_tables s c true path
  have hw : (openCreate (vfsLookup s c true path).2 c path mode).2.tables = s.tables := by
    have hp := (parentDir_tables (vfsLookup s c true path).2 c (-3) (-4) path).trans h
    simp only [openCreate]
    split
    · exact hp
    · split <;> exact hp
  simp only [openTarget]
  split
  · exact h
  split
  · exact h
  split
  · exact h
  split
  · exact hw
  split <;> exact (vfsLookup_tables ..).trans hw

variable {ps : Fin processMax}

/-- A `vfs_open` that fails leaves the descriptors in use alone. -/
theorem openNode_closes {rc : Int} (h : openNode s c ps v flags = (rc, none, s')) :
    Closes s.tables s'.tables := by
  have hkeep : ∀ {rc₁ : Int} {s₁ : State}, (rc₁, none, s₁) = (rc, (none : Option (Fin fdMax)), s') →
      Closes s.tables s₁.tables → Closes s.tables s'.tables := by
    rintro rc₁ s₁ ⟨⟩ h
    exact h
  unfold openNode at h
  split at h
  · exact hkeep h (.refl _)
  split at h
  · exact hkeep h (.refl _)
  dsimp only at h
  split at h
  · exact hkeep h (.refl _)
  cases hfd : openFd s.tables ps v.type.fdType v.inode (wantsWrite flags) (flags &&& oAppend ≠ 0)
      (flags &&& oCloexec ≠ 0) with
  | none =>
    rw [hfd] at h
    exact hkeep h (.refl _)
  | some p =>
  obtain ⟨j, t⟩ := p
  rw [hfd] at h
  obtain ⟨-, ht⟩ := openFd_eq_some hfd
  dsimp only at h
  -- the descriptor that was filled in is given back
  have hdrop : Closes s.tables (t.setFd (ps, j) { t.fds (ps, j) with used := false }) := by
    intro x hx
    by_cases hxj : x = (ps, j)
    · simp [hxj, Tables.setFd] at hx
    · simp [ht, Tables.setFd, hxj]
  split at h
  · simp at h
  split at h
  · exact hkeep h hdrop
  split_ifs at h with hw
  · exact hkeep h hdrop
  simp at h

/-- What `vfs_open` does to the descriptors: it hands out one for the target, or none. -/
theorem vfsOpen_cases (s : State) (c : Caller) (pid : Nat) (path : List Byte) (flags : UInt32)
    (mode : Nat) :
    (opening s c pid path flags mode = none ∧
      Closes s.tables (vfsOpen s c pid path flags mode).2.2.tables) ∨
    ∃ ps i v s₁, openTarget s c path flags mode = (.ok v, s₁) ∧
      opening s c pid path flags mode = some ((ps, i), ⟨c, v, s₁.fs⟩) ∧
      Opened s₁ c ps v flags i (vfsOpen s c pid path flags mode).2.2 := by
  rcases hr : vfsOpen s c pid path flags mode with ⟨rc, i | i, s'⟩
  · refine .inl ⟨?_, ?_⟩
    · unfold opening
      rw [hr]
      cases pidSlot pid <;> rfl
    have ht := openTarget_tables s c path flags mode
    unfold vfsOpen at hr
    split at hr
    · obtain ⟨-, -, rfl⟩ := hr
      exact .refl _
    next ps _ =>
      dsimp only at hr
      split at hr
      · obtain ⟨-, -, rfl⟩ := hr
        rw [ht]
        exact .refl _
      · rw [← ht]
        exact openNode_closes hr
  obtain ⟨ps, v, s₁, hps, htarget, hopened⟩ := vfsOpen_eq_some hr
  refine .inr ⟨ps, i, v, s₁, htarget, ?_, hopened⟩
  rw [opening, hps, hr, htarget]

/-! ### Runs -/

theorem Opened.backs {i : Fin fdMax} (h : Opened s c ps v flags i s')
    (hread : wantsWrite flags = true → permissionAllowed s.fs c v accessRead = 0) :
    Backs ⟨c, v, s.fs⟩ (s'.tables.fds (ps, i)) := by
  have hallowed := h.allowed
  rw [h.tables]
  simp only [Tables.setFd, update_self]
  refine ⟨rfl, fun hw => ?_, ?_⟩
  · rw [h.writing hw, openAccess, if_neg (by simp), if_pos hw] at hallowed
    exact hallowed
  by_cases hw : wantsWrite flags = true
  · exact hread hw
  · refine permissionAllowed_mono ?_ hallowed
    rcases h.type with ht | ht <;> simp only [ht, openAccess, hw] <;> decide

theorem Backed.step {t t' : Traced} (h : Backed t) (hguard : readChecked t op = true)
    (hstep : t.step op = some t') : Backed t' := by
  cases hstep
  intro x hu hpipe
  have hkeep : (∀ c pid path flags mode, op ≠ .open c pid path flags mode) →
      (∀ call, op ≠ .descriptors call) → ∃ o, t.origins x = some o ∧
        Backs o ((op.perform t.state).2.tables.fds x) := by
    intro hopen htables
    have hsame := perform_sameFile t.state hopen htables x
    rw [hsame.used] at hu
    rw [hsame.isPipe] at hpipe
    obtain ⟨o, ho, hback⟩ := h x hu hpipe
    exact ⟨o, ho, hback.congr hsame⟩
  cases op with
  | «open» c pid path flags mode =>
    rw [Op.perform, Op.origins] at hu hpipe ⊢
    rcases vfsOpen_cases t.state c pid path flags mode with ⟨hnone, hclose⟩ | ⟨ps, i, v, s₁, ht, hs, ho⟩
    · rw [hclose x hu] at hpipe ⊢
      rw [hnone]
      rw [hclose x hu] at hu
      exact h x hu hpipe
    rw [hs]
    dsimp only
    by_cases hx : x = (ps, i)
    · subst hx
      rw [update_self]
      refine ⟨_, rfl, ho.backs fun hw => ?_⟩
      simpa [readChecked, ht, hw] using hguard
    have heq : (vfsOpen t.state c pid path flags mode).2.2.tables.fds x =
        t.state.tables.fds x := by
      have := openTarget_tables t.state c path flags mode
      rw [ht] at this
      rw [ho.tables, this]
      simp [Tables.setFd, hx]
    rw [heq] at hu hpipe ⊢
    rw [update_of_ne hx]
    exact h x hu hpipe
  | descriptors call =>
    rw [Op.perform, Op.origins] at hu hpipe ⊢
    by_cases hcall : call.onTables = true
    · rw [if_pos hcall] at hu hpipe ⊢
      rw [if_pos hcall]
      obtain ⟨hsource, hsame⟩ := copyOf_source call
        (by rintro ps type ino w a e rfl; simp [Call.onTables] at hcall) hpipe hu
      obtain ⟨o, ho, hback⟩ := h _ hsource (hsame.sameFile.isPipe.symm.trans hpipe)
      exact ⟨o, ho, hback.congr hsame.sameFile⟩
    rw [if_neg hcall] at hu hpipe ⊢
    rw [if_neg hcall]
    exact h x hu hpipe
  | read | write | seek | chmod | chown | setAcl | clearAcl | mkdir | symlink | unlink | rmdir | link
  | rename => exact hkeep (by simp) (by simp)

theorem backed_of_unused (h : ∀ x, (s.tables.fds x).used = false) (o : Origins) :
    Backed ⟨s, o⟩ := fun x hu _ => absurd hu (by simp [h x])

theorem vfsRead_used {fd : Int} (hx : fdSlot pid fd = some x) (h : (vfsRead s pid fd n).2.1 ≠ []) :
    (s.tables.fds x).used = true := by
  by_contra hu
  rw [Bool.not_eq_true] at hu
  simp [vfsRead, hx, hu] at h

/-- A `vfs_write` that changes the file system goes through a descriptor for a file that
was opened to write. -/
theorem vfsWrite_writable {fd : Int} {data : List Byte} (hx : fdSlot pid fd = some x)
    (h : (vfsWrite s pid fd data).2.2.fs ≠ s.fs) :
    (s.tables.fds x).used = true ∧ (s.tables.fds x).writable = true ∧
      (s.tables.fds x).type = .file := by
  simp only [vfsWrite, hx] at h
  split_ifs at h with hu
  · exact absurd rfl h
  cases hp : vfsWritePipe s.tables x (data.map UInt8.ofBitVec) with
  | some r =>
    rw [hp] at h
    exact absurd rfl h
  | none =>
  rw [hp, writeFile] at h
  by_cases hw : (s.tables.fds x).writable = false ∨ (s.tables.fds x).type ≠ .file
  · rw [if_pos hw] at h
    exact absurd rfl h
  · simp only [not_or, Bool.not_eq_false, not_not] at hu hw
    exact ⟨hu, hw⟩

/-- In every run in which whoever opens a file to write may read it as well, the bytes
that come through a descriptor are those of an inode for which its opener has passed
the check for reading, and a write through it changes the file system only if the
opener has passed the check for writing. -/
theorem descriptor_access_checked {s : State} (hstart : ∀ x, (s.tables.fds x).used = false)
    {ops : List Op} {t : Traced}
    (hrun : runIf Traced.step readChecked ops ⟨s, fun _ => none⟩ = some t) {pid : Nat} {fd : Int}
    {x : Fin processMax × Fin fdMax} (hx : fdSlot pid fd = some x) :
    (∀ n, (t.state.tables.fds x).type = .file → (vfsRead t.state pid fd n).2.1 ≠ [] →
      ∃ o, t.origins x = some o ∧ o.node.inode = (t.state.tables.fds x).inode ∧
        o.Passed accessRead) ∧
    ∀ data, (vfsWrite t.state pid fd data).2.2.fs ≠ t.state.fs →
      ∃ o, t.origins x = some o ∧ o.node.inode = (t.state.tables.fds x).inode ∧
        o.Passed accessWrite := by
  have hback := runIf_invariant (fun _ _ _ h hg hs => Backed.step h hg hs)
    (backed_of_unused hstart _) hrun
  refine ⟨fun n htype hread => ?_, fun data hwrite => ?_⟩
  · obtain ⟨o, ho, hb⟩ := hback x (vfsRead_used hx hread) (by simp [Fd.isPipe, htype])
    exact ⟨o, ho, hb.inode, hb.read⟩
  obtain ⟨hu, hw, htype⟩ := vfsWrite_writable hx hwrite
  obtain ⟨o, ho, hb⟩ := hback x hu (by simp [Fd.isPipe, htype])
  exact ⟨o, ho, hb.inode, hb.write hw⟩

def plainUser : Caller := ⟨1000, 1000, fun g => g = 1000, false, false, none⟩

def abFile (mode : Nat) : State :=
  mountRoot (oneFile (fileInode mode 0 0 2) (splice zeroBuf 0 [0x61, 0x62]))

def openBoth : List Op := [.open plainUser 1 xPath oRdwr 0]

/-- A file that everybody may read and write, opened for both. -/
theorem descriptor_access_checked_666 : ∃ t x,
    runIf Traced.step readChecked openBoth ⟨abFile 0o666, fun _ => none⟩ = some t ∧
      fdSlot 1 3 = some x ∧ (vfsRead t.state 1 3 2).2.1 = [0x61, 0x62] ∧
      ∃ o, t.origins x = some o ∧ o.Passed accessRead := by
  have hrun : (runIf Traced.step readChecked openBoth ⟨abFile 0o666, fun _ => none⟩).map
      (fun t => ((vfsRead t.state 1 3 2).2.1, (t.state.tables.fds (1, 3)).type)) =
        some ([0x61, 0x62], .file) := by decide +kernel
  obtain ⟨t, ht, hbytes⟩ := Option.map_eq_some_iff.1 hrun
  obtain ⟨hbytes, htype⟩ := Prod.mk.inj hbytes
  have hx : fdSlot 1 3 = some (1, 3) := by decide
  obtain ⟨o, ho, -, hread⟩ := (descriptor_access_checked (fun _ => rfl) ht hx).1 2 htype
    (by rw [hbytes]; simp)
  exact ⟨t, (1, 3), ht, hx, hbytes, o, ho, hread⟩

/-- A file that everybody may write and nobody may read, opened for both: its bytes come
through the descriptor. -/
theorem vfsOpen_rdwr_skips_read_check :
    ((runIf Traced.step (fun _ _ => true) openBoth ⟨abFile 0o222, fun _ => none⟩).map fun t =>
      ((vfsRead t.state 1 3 2).2.1, (t.origins (1, 3)).map fun o =>
        (o.node.inode, permissionAllowed o.fs o.caller o.node accessRead))) =
      some ([0x61, 0x62], some (2, errPermission)) := by decide +kernel

end RixuriOS.Vfs
