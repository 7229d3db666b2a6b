import RixuriOS.Process.Exec
import RixuriOS.Vfs.Opening

/-!
# The execve system call

`RIX_SYS_EXECVE` of `syscall/syscall.c`: the path is looked up, opened, read into
the buffer of the process and handed to `process_exec_user_with_args`. The file is
opened like any other one, so that the only permission asked for is the one to read.

The strings have been copied from user space. Whether the loader accepts the image,
which depends on the image and on the memory at hand, and whether the new address
space can be activated, are arguments of the call.
-/

namespace RixuriOS.Syscall

open ByteCodec Rixfs Vfs ProcTable Elf Process

def maxExecImage : Nat := 131072

def vfsResult (rc : Int) : Int :=
  if rc = 0 then 0
  else if rc = errPermission then -13
  else if rc = errExists then -17
  else if rc = errLoop then -40
  else -22

/-- What the call reads and changes: the VFS, the process table, and
`exec_image_buffers`. -/
structure Kernel where
  vfs : State
  procs : Table
  buffers : Nat → Buf

/-- `process_exec_user_with_args` for an image, its arguments and its environment: the
new address space, unless the image is refused. -/
abbrev Install := Image → List (List Byte) → List (List Byte) → Option Execed

def execImage (k : Kernel) (self : Nat) (install : Install) (activates : Bool) (node : Vnode)
    (bytes : List Byte) (argv envp : List (List Byte)) : Int × Option Execed × Kernel :=
  let setuidBit : Bool := node.mode &&& 0o4000 ≠ 0
  let setgidBit : Bool := node.mode &&& 0o2000 ≠ 0
  let buffer := splice (k.buffers self) 0 bytes
  let k := { k with buffers := Function.update k.buffers self buffer }
  match install ⟨buffer, bytes.length⟩ argv (if setuidBit || setgidBit then [] else envp) with
  | none => (-22, none, k)
  | some e =>
    let a := applyExecCredentials k.procs self (.ofNat node.uid) (.ofNat node.gid) setuidBit
      setgidBit
    let k := { k with procs := a.2 }
    if a.1 ≠ 0 ∨ activates = false then (-22, some e, k)
    else
      (0, some e, { k with vfs := k.vfs.setTables (vfsCloseCloexec k.vfs.tables self).2 })

/-- `RIX_SYS_EXECVE` by the process `self`: the return value, and the new address space
if the image has been replaced. -/
def execve (k : Kernel) (self : Nat) (cwd : Option (List Byte)) (install : Install)
    (activates : Bool) (path : List Byte) (argv envp : List (List Byte)) :
    Int × Option Execed × Kernel :=
  let c := callerOf k.procs self cwd
  let st := vfsStat k.vfs c path
  match st.1 with
  | .error rc => (vfsResult rc, none, { k with vfs := st.2 })
  | .ok node =>
    let o := vfsOpen st.2 c self path 0 0
    match o.2.1 with
    | none => (vfsResult o.1, none, { k with vfs := o.2.2 })
    | some fd =>
      let r := Vfs.vfsRead o.2.2 self fd.val maxExecImage
      let k := { k with vfs := r.2.2.setTables (vfsClose r.2.2.tables self fd.val).2 }
      if r.1 ≠ 0 then (-14, none, k)
      else execImage k self install activates node r.2.1 argv envp

theorem and_accessRead {b : Nat} : b &&& accessRead = accessRead ↔ b.testBit 2 = true := by
  rw [show accessRead = 2 ^ 2 from rfl, Nat.and_two_pow]
  cases b.testBit 2 <;> simp

theorem and_accessExec {b : Nat} : b &&& accessExec = accessExec ↔ b.testBit 0 = true := by
  rw [show accessExec = 2 ^ 0 from rfl, Nat.and_two_pow]
  cases b.testBit 0 <;> simp

/-- The entry of the mode or of the access control list that applies to the caller has
the bit for reading only together with the one for executing, or the caller is the
superuser, who needs no entry. -/
def ReadWithExec (f : Fs) (c : Caller) (v : Vnode) : Prop :=
  (c.uid = 0 ∧ c.dacOverride) ∨
    ∀ bits, classBits f c v = some bits → bits.testBit 2 → bits.testBit 0

/-- Reading is allowed only together with executing, read off the entry of the caller. -/
theorem readWithExec_iff {f : Fs} {c : Caller} {v : Vnode}
    (hread : permissionAllowed f c v accessRead = 0) :
    ReadWithExec f c v ↔ permissionAllowed f c v accessExec = 0 := by
  rw [permissionAllowed_eq_zero] at hread ⊢
  rcases hread with hroot | ⟨bits, hbits, hr⟩
  · exact iff_of_true (.inl hroot) (.inl hroot)
  refine or_congr_right ⟨fun h => ?_, ?_⟩
  · exact ⟨bits, hbits, and_accessExec.2 (h bits hbits (and_accessRead.1 hr))⟩
  · rintro ⟨bits', hbits', he⟩ bits'' hbits'' -
    cases hbits'.symm.trans hbits''
    exact and_accessExec.1 he

/-- The process can look the path up, open it for reading and read from it. -/
def Loads (s : State) (c : Caller) (self : Nat) (path : List Byte) : Prop :=
  (∃ node, Names s c path node) ∧
    ∃ rc fd s', vfsOpen (vfsStat s c path).2 c self path 0 0 = (rc, some fd, s') ∧
      (Vfs.vfsRead s' self fd.val maxExecImage).1 = 0

/-- `vfs_open` asks for the permission to read, of the file that the path names. -/
theorem Loads.reads {s : State} {c : Caller} {self : Nat} {path : List Byte}
    (h : Loads s c self path) :
    ∃ v, Names s c path v ∧ permissionAllowed s.fs c v accessRead = 0 := by
  obtain ⟨-, rc, fd, s', ho, -⟩ := h
  have hsame : SameFiles s (vfsStat s c path).2 := vfsLookup_sameFiles s c true path
  obtain ⟨ps, v, s₁, -, htarget, hopened⟩ := vfsOpen_eq_some ho
  obtain ⟨hreach, hnames⟩ := openTarget_eq_ok htarget
  have hall := hsame.trans (hreach.sameFiles rfl)
  have hallowed := hopened.allowed
  rw [hall.fs] at hallowed
  refine ⟨v, (vfsStat_congr hall).symm.trans hnames, permissionAllowed_mono ?_ hallowed⟩
  rcases hopened.type with ht | ht <;> rw [ht] <;> decide

section

variable {k : Kernel} {self : Nat} {cwd : Option (List Byte)} {install : Install}
  {activates : Bool} {path : List Byte} {argv envp : List (List Byte)} {e : Execed}

theorem execve_loads (h : (execve k self cwd install activates path argv envp).2.1 = some e) :
    Loads k.vfs (callerOf k.procs self cwd) self path := by
  rw [execve] at h
  generalize callerOf k.procs self cwd = c at h ⊢
  cases hst : (vfsStat k.vfs c path).1 with
  | error rc => simp [hst] at h
  | ok node =>
  rw [hst] at h
  rcases ho : vfsOpen (vfsStat k.vfs c path).2 c self path 0 0 with ⟨rc, fd | fd, s'⟩
  · simp [ho] at h
  refine ⟨⟨node, hst⟩, rc, fd, s', ho, ?_⟩
  by_contra hr
  simp [ho, hr] at h

/-- Nothing but the loader can refuse a file that has been read. -/
theorem execve_of_loads (h : Loads k.vfs (callerOf k.procs self cwd) self path) :
    (execve k self cwd (fun _ _ _ => some e) activates path argv envp).2.1 = some e := by
  rw [execve]
  generalize callerOf k.procs self cwd = c at h ⊢
  obtain ⟨⟨node, hst⟩, rc, fd, s', ho, hr⟩ := h
  simp only [show (vfsStat k.vfs c path).1 = .ok node from hst, ho, hr, ne_eq, not_true_eq_false,
    if_false, execImage]
  split_ifs <;> rfl

end

/-- Whatever image the loaders accept, `execve` replaces the image only by a file that the
caller may execute, exactly if the entry that applies to the caller does not allow to
read the file without executing it, or the file cannot be read at all. -/
theorem execve_exec_allowed (k : Kernel) (self : Nat) (cwd : Option (List Byte))
    (path : List Byte) :
    (∀ install activates argv envp,
      (execve k self cwd install activates path argv envp).2.1.isSome →
        ∃ v, Names k.vfs (callerOf k.procs self cwd) path v ∧
          permissionAllowed k.vfs.fs (callerOf k.procs self cwd) v accessExec = 0) ↔
      (Loads k.vfs (callerOf k.procs self cwd) self path →
        ∀ v, Names k.vfs (callerOf k.procs self cwd) path v →
          ReadWithExec k.vfs.fs (callerOf k.procs self cwd) v) := by
  constructor
  · intro hexec hloads v hv
    obtain ⟨w, hw, hread⟩ := hloads.reads
    cases hw.symm.trans hv
    have hrun := @execve_of_loads _ _ _ true _ [] [] ⟨0, 0, 0⟩ hloads
    obtain ⟨w, hw, he⟩ := hexec _ _ _ _ (Option.isSome_of_mem hrun)
    cases hw.symm.trans hv
    exact (readWithExec_iff hread).2 he
  · intro hfile install activates argv envp hrun
    obtain ⟨e, he⟩ := Option.isSome_iff_exists.1 hrun
    have hloads := execve_loads he
    obtain ⟨v, hv, hread⟩ := hloads.reads
    exact ⟨v, hv, (readWithExec_iff hread).1 (hfile hloads v hv)⟩

def loopImage : Image where
  bytes := storeFields zeroBuf 0
    [⟨0, 8, 0x00010102464C457F⟩, ⟨18, 2, 62⟩, ⟨20, 4, 1⟩, ⟨24, 8, userVaMin⟩, ⟨32, 8, 64⟩,
      ⟨52, 2, ehdrSize⟩, ⟨54, 2, phdrSize⟩, ⟨56, 2, 1⟩, ⟨64, 4, ptLoad⟩, ⟨68, 4, 5⟩, ⟨72, 8, 120⟩,
      ⟨80, 8, userVaMin⟩, ⟨96, 8, 2⟩, ⟨104, 8, 2⟩, ⟨120, 2, 0xFEEB⟩]
  size := 122

/-- A machine with memory enough for every image that `elf64_validate` accepts. -/
def installValid : Install := fun f _ _ =>
  (elf64Validate f).map fun h => ⟨0x100000, h.entry, userStackTop⟩

/-- The process 1 belongs to an ordinary user, and the file `/x` with the mode `mode` and
the bytes of `loopImage` belongs to the superuser. -/
def userKernel (mode : Nat) : Kernel where
  vfs := mountRoot (oneFile (fileInode mode 0 0 loopImage.size) loopImage.bytes)
  procs :=
    { processInit with
      table := fun i =>
        if i.val = 1 then
          { ProcTable.Proc.cleared with pid := 1, state := .running, uid := 1000, gid := 1000 }
        else .cleared }
  buffers _ := zeroBuf

def ordinaryUser (mode : Nat) : Caller := callerOf (userKernel mode).procs 1 none

/-- A user executes a file with the mode 0644, which no user may execute. -/
theorem execve_ignores_exec :
    (execve (userKernel 0o644) 1 none installValid true xPath [] []).1 = 0 ∧
      (execve (userKernel 0o644) 1 none installValid true xPath [] []).2.1.isSome = true ∧
      Names (userKernel 0o644).vfs (ordinaryUser 0o644) xPath
        ⟨2, .file, ifreg ||| 0o644, 0, 0, 122⟩ ∧
      permissionAllowed (userKernel 0o644).vfs.fs (ordinaryUser 0o644)
        ⟨2, .file, ifreg ||| 0o644, 0, 0, 122⟩ accessExec = errPermission := by
  unfold Names
  exact ⟨by decide +kernel, by decide +kernel, by decide +kernel, by decide +kernel⟩

end RixuriOS.Syscall
