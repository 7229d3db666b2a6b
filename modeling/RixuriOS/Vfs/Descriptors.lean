import RixuriOS.Ipc.Pipe

/-!
# Descriptor tables

The descriptor part of `vfs/vfs.c`: the table of 64 descriptors of each of the 128
processes, the 32 pipe slots, and the calls that create, copy and close
descriptors. Every call runs under the VFS lock and is one step. A pointer to the
pipe of a slot is the slot's number. The wait queues of a slot are not part of this
model: waking them changes no table.
-/

namespace RixuriOS.Vfs

open Ipc

abbrev processMax : Nat := 128

abbrev fdMax : Nat := 64

abbrev pipeMax : Nat := 32

def stdioReserved : Nat := 3

def oAppend : UInt32 := 16

def fdCloexec : UInt32 := 1

/-- The `type` of a descriptor: those of `rix_vfs_type_t`, the two ends of a pipe, and
`none` for the zero of a table entry that was never used. -/
inductive FdType
  | none | dir | file | symlink | device | pipeRead | pipeWrite
  deriving DecidableEq, Repr

structure Fd where
  used : Bool
  type : FdType
  writable : Bool
  append : Bool
  cloexec : Bool
  inode : Nat
  offset : Nat
  pipe : Option (Fin pipeMax)
  pipeWrite : Bool
  deriving DecidableEq

def Fd.isPipe (fd : Fd) : Bool := fd.type = .pipeRead ∨ fd.type = .pipeWrite

/-- What closing leaves in a table entry: only two fields are reset. -/
def Fd.cleared (fd : Fd) : Fd := { fd with used := false, cloexec := false }

structure PipeSlot where
  pipe : Pipe
  used : Bool
  refs : Nat

structure Tables where
  fds : Fin processMax × Fin fdMax → Fd
  pipes : Fin pipeMax → PipeSlot

def Tables.setFd (t : Tables) (x : Fin processMax × Fin fdMax) (fd : Fd) : Tables :=
  { t with fds := Function.update t.fds x fd }

def Tables.setSlot (t : Tables) (i : Fin pipeMax) (s : PipeSlot) : Tables :=
  { t with pipes := Function.update t.pipes i s }

def pidSlot (pid : Nat) : Option (Fin processMax) :=
  if h : pid < processMax then some ⟨pid, h⟩ else none

def fdIndex (fd : Int) : Option (Fin fdMax) :=
  if h : 0 ≤ fd ∧ fd < fdMax then some ⟨fd.toNat, by omega⟩ else none

def vfsInit (t : Tables) : Tables where
  fds x := { t.fds x with used := false }
  pipes i := { t.pipes i with used := false }

def freeFd (t : Tables) (ps : Fin processMax) (lo : Nat) : Option (Fin fdMax) :=
  (List.finRange fdMax).find? fun i => lo ≤ i.val && !(t.fds (ps, i)).used

/-- The descriptor that `vfs_open` fills in, for a node of type `type`; `none` when no
descriptor is free. -/
def openFd (t : Tables) (ps : Fin processMax) (type : FdType) (inode : Nat)
    (writable append cloexec : Bool) : Option (Fin fdMax × Tables) :=
  (freeFd t ps stdioReserved).map fun i =>
    (i, t.setFd (ps, i)
      { used := true, type, writable, append, cloexec, inode, offset := 0, pipe := none
        pipeWrite := false })

def pipeEnd (i : Fin pipeMax) (write : Bool) : Fd where
  used := true
  type := if write then .pipeWrite else .pipeRead
  writable := write
  append := false
  cloexec := false
  inode := 0
  offset := 0
  pipe := some i
  pipeWrite := write

/-- `vfs_pipe`: the return value, and the two descriptors on success. -/
def vfsPipe (t : Tables) (pid : Nat) : Int × Option (Fin fdMax × Fin fdMax) × Tables :=
  match pidSlot pid with
  | none => (-1, none, t)
  | some ps =>
    match freeFd t ps stdioReserved with
    | none => (-2, none, t)
    | some r =>
      match freeFd t ps (r + 1) with
      | none => (-2, none, t)
      | some w =>
        match (List.finRange pipeMax).find? fun i => !(t.pipes i).used with
        | none => (-3, none, t)
        | some i =>
          (0, some (r, w),
            ((t.setSlot i { pipe := pipeInit (t.pipes i).pipe, used := true, refs := 2 }).setFd
              (ps, r) (pipeEnd i false)).setFd (ps, w) (pipeEnd i true))

/-- The part of `retain_fd` for the slot that the descriptor names. -/
def PipeSlot.retain (s : PipeSlot) (write : Bool) : Except Int PipeSlot :=
  if s.refs = uint8Max then .error (-2)
  else
    match if write then pipeRetainWrite s.pipe else pipeRetainRead s.pipe with
    | none => .error (-3)
    | some p => .ok { s with pipe := p, refs := s.refs + 1 }

/-- `retain_fd`. The copy it makes is `source` itself, so only the slots are returned. -/
def retainFd (t : Tables) (source : Fd) : Except Int Tables :=
  if !source.used then .error (-1)
  else if source.isPipe then
    match source.pipe with
    | none => .error (-4)
    | some i =>
      if (t.pipes i).used then ((t.pipes i).retain source.pipeWrite).map (t.setSlot i)
      else .error (-4)
  else .ok t

/-- Giving back one reference to the pipe of a slot; `none` when the pipe refuses. -/
def PipeSlot.release (s : PipeSlot) (write : Bool) : Option PipeSlot :=
  (if write then pipeCloseWrite s.pipe else pipeCloseRead s.pipe).map fun p =>
    { pipe := p, refs := s.refs - 1, used := s.used && s.refs - 1 ≠ 0 }

/-- The slots after giving back the reference of a pipe descriptor; `none` when there is
no used slot for it or the pipe refuses. -/
def releaseFd (t : Tables) (fd : Fd) : Option Tables :=
  fd.pipe.bind fun i =>
    if (t.pipes i).used then ((t.pipes i).release fd.pipeWrite).map (t.setSlot i) else none

/-- `vfs_close_locked`; `none` for a return value of -1, which changes nothing. -/
def closeLocked (t : Tables) (ps : Fin processMax) (i : Fin fdMax) : Option Tables :=
  let fd := t.fds (ps, i)
  if !fd.used then none
  else
    (if fd.isPipe then releaseFd t fd else some t).map fun t' =>
      t'.setFd (ps, i) fd.cleared

/-- A call of `vfs_close_locked` whose result is ignored. -/
def closeAny (t : Tables) (ps : Fin processMax) (i : Fin fdMax) : Tables :=
  (closeLocked t ps i).getD t

def vfsClose (t : Tables) (pid : Nat) (fd : Int) : Int × Tables :=
  match pidSlot pid, fdIndex fd with
  | some ps, some i =>
    match closeLocked t ps i with
    | some t' => (0, t')
    | none => (-1, t)
  | _, _ => (-1, t)

/-- The part that `vfs_dup` and `vfs_dup_min` share: the copy goes to the first unused
descriptor from `lo` on. -/
def dupFrom (t : Tables) (ps : Fin processMax) (i : Fin fdMax) (lo : Nat) :
    Int × Option (Fin fdMax) × Tables :=
  match freeFd t ps lo with
  | none => (-2, none, t)
  | some j =>
    match retainFd t (t.fds (ps, i)) with
    | .error _ => (-2, none, t)
    | .ok t' => (0, some j, t'.setFd (ps, j) { t.fds (ps, i) with cloexec := false })

def vfsDup (t : Tables) (pid : Nat) (oldFd : Int) : Int × Option (Fin fdMax) × Tables :=
  match pidSlot pid, fdIndex oldFd with
  | some ps, some i => if (t.fds (ps, i)).used then dupFrom t ps i 0 else (-1, none, t)
  | _, _ => (-1, none, t)

def vfsDupMin (t : Tables) (pid : Nat) (oldFd minimumFd : Int) :
    Int × Option (Fin fdMax) × Tables :=
  match pidSlot pid, fdIndex oldFd, fdIndex minimumFd with
  | some ps, some i, some lo =>
    if (t.fds (ps, i)).used then dupFrom t ps i lo else (-1, none, t)
  | _, _, _ => (-1, none, t)

def vfsDupTo (t : Tables) (pid : Nat) (oldFd newFd : Int) : Int × Tables :=
  match pidSlot pid, fdIndex oldFd, fdIndex newFd with
  | some ps, some i, some j =>
    if !(t.fds (ps, i)).used then (-1, t)
    else if i = j then (0, t)
    else
      match retainFd t (t.fds (ps, i)) with
      | .error _ => (-2, t)
      | .ok t' =>
        let copy := { t.fds (ps, i) with cloexec := false }
        if (t'.fds (ps, j)).used then
          match closeLocked t' ps j with
          | some t'' => (0, t''.setFd (ps, j) copy)
          -- the reference taken for the copy is given back
          | none => (-3, if copy.isPipe then (releaseFd t' copy).getD t' else t')
        else (0, t'.setFd (ps, j) copy)
  | _, _, _ => (-1, t)

def vfsSetFdFlags (t : Tables) (pid : Nat) (fd : Int) (flags : UInt32) : Int × Tables :=
  match pidSlot pid, fdIndex fd with
  | some ps, some i =>
    if !(t.fds (ps, i)).used ∨ flags &&& ~~~oAppend ≠ 0 then (-1, t)
    else (0, t.setFd (ps, i) { t.fds (ps, i) with append := flags &&& oAppend ≠ 0 })
  | _, _ => (-1, t)

def vfsSetCloexec (t : Tables) (pid : Nat) (fd : Int) (flags : UInt32) : Int × Tables :=
  match pidSlot pid, fdIndex fd with
  | some ps, some i =>
    if !(t.fds (ps, i)).used ∨ flags &&& ~~~fdCloexec ≠ 0 then (-1, t)
    else (0, t.setFd (ps, i) { t.fds (ps, i) with cloexec := flags &&& fdCloexec ≠ 0 })
  | _, _ => (-1, t)

def vfsCloseCloexec (t : Tables) (pid : Nat) : Int × Tables :=
  match pidSlot pid with
  | none => (-1, t)
  | some ps =>
    (0, (List.finRange fdMax).foldl
      (fun t i =>
        if (t.fds (ps, i)).used && (t.fds (ps, i)).cloexec then closeAny t ps i else t) t)

/-- The loop of `vfs_clone_fds`; `copied` lists the bits set in the mask, in order. -/
def cloneLoop (parent child : Fin processMax) :
    List (Fin fdMax) → List (Fin fdMax) → Tables → Int × Tables
  | [], _, t => (0, t)
  | i :: rest, copied, t =>
    let undo := copied.foldl (fun t j => closeAny t child j) t
    if (t.fds (parent, i)).used then
      if (t.fds (child, i)).used then (-2, undo)
      else
        match retainFd t (t.fds (parent, i)) with
        | .error _ => (-3, undo)
        | .ok t' =>
          cloneLoop parent child rest (copied ++ [i]) (t'.setFd (child, i) (t.fds (parent, i)))
    else cloneLoop parent child rest copied t

def vfsCloneFds (t : Tables) (parentPid childPid : Nat) : Int × Tables :=
  match pidSlot parentPid, pidSlot childPid with
  | some parent, some child =>
    if parentPid = childPid then (-1, t)
    else cloneLoop parent child (List.finRange fdMax) [] t
  | _, _ => (-1, t)

def closePipesLoop (ps : Fin processMax) (keep0 keep1 : Int) :
    List (Fin fdMax) → Tables → Int × Tables
  | [], t => (0, t)
  | i :: rest, t =>
    if !(t.fds (ps, i)).used ∨ (i : Int) = keep0 ∨ (i : Int) = keep1 then
      closePipesLoop ps keep0 keep1 rest t
    else if (t.fds (ps, i)).isPipe then
      match closeLocked t ps i with
      | none => (-1, t)
      | some t' => closePipesLoop ps keep0 keep1 rest t'
    else closePipesLoop ps keep0 keep1 rest t

def vfsClosePipesExcept (t : Tables) (pid : Nat) (keep0 keep1 : Int) : Int × Tables :=
  match pidSlot pid with
  | none => (-1, t)
  | some ps =>
    if keep0 < -1 ∨ (fdMax : Int) ≤ keep0 ∨ keep1 < -1 ∨ (fdMax : Int) ≤ keep1 then (-1, t)
    else closePipesLoop ps keep0 keep1 (List.finRange fdMax) t

def closeAllLoop (ps : Fin processMax) : List (Fin fdMax) → Int → Tables → Int × Tables
  | [], rc, t => (rc, t)
  | i :: rest, rc, t =>
    if (t.fds (ps, i)).used then
      match closeLocked t ps i with
      | none => closeAllLoop ps rest (-1) t
      | some t' => closeAllLoop ps rest rc t'
    else closeAllLoop ps rest rc t

def vfsCloseAll (t : Tables) (pid : Nat) : Int × Tables :=
  match pidSlot pid with
  | none => (-1, t)
  | some ps => closeAllLoop ps (List.finRange fdMax) 0 t

/-- The pipe part of `vfs_read`: the bytes the reader gets. `none` when the descriptor is
not the read end of a pipe. -/
def vfsReadPipe (t : Tables) (x : Fin processMax × Fin fdMax) (n : Nat) :
    Option (Int × List UInt8 × Tables) :=
  if (t.fds x).used ∧ (t.fds x).type = .pipeRead then
    match (t.fds x).pipe with
    | none => some (-1, [], t)
    | some i =>
      let r := pipeRead (t.pipes i).pipe n
      some (r.1, r.2.1, t.setSlot i { t.pipes i with pipe := r.2.2 })
  else none

/-- The pipe part of `vfs_write`: the number of bytes written. `none` when the descriptor
is not the write end of a pipe. -/
def vfsWritePipe (t : Tables) (x : Fin processMax × Fin fdMax) (buf : List UInt8) :
    Option (Int × Nat × Tables) :=
  if (t.fds x).used ∧ (t.fds x).type = .pipeWrite then
    match (t.fds x).pipe with
    | none => some (-1, 0, t)
    | some i =>
      let r := Ipc.pipeWrite (t.pipes i).pipe buf
      some (r.1, r.2.1, t.setSlot i { t.pipes i with pipe := r.2.2 })
  else none

inductive Call
  | open (pid : Fin processMax) (type : FdType) (inode : Nat) (writable append cloexec : Bool)
  | pipe (pid : Nat)
  | dup (pid : Nat) (oldFd : Int)
  | dupMin (pid : Nat) (oldFd minimumFd : Int)
  | dupTo (pid : Nat) (oldFd newFd : Int)
  | setFdFlags (pid : Nat) (fd : Int) (flags : UInt32)
  | setCloexec (pid : Nat) (fd : Int) (flags : UInt32)
  | cloneFds (parentPid childPid : Nat)
  | close (pid : Nat) (fd : Int)
  | closeCloexec (pid : Nat)
  | closePipesExcept (pid : Nat) (keep0 keep1 : Int)
  | closeAll (pid : Nat)
  | read (x : Fin processMax × Fin fdMax) (n : Nat)
  | write (x : Fin processMax × Fin fdMax) (buf : List UInt8)

/-- The tables after one call. `vfs_open` accepts only files and directories. -/
def Call.apply (t : Tables) : Call → Tables
  | .open ps type inode writable append cloexec =>
    if type = .file ∨ type = .dir then
      ((openFd t ps type inode writable append cloexec).map Prod.snd).getD t
    else t
  | .pipe pid => (vfsPipe t pid).2.2
  | .dup pid oldFd => (vfsDup t pid oldFd).2.2
  | .dupMin pid oldFd minimumFd => (vfsDupMin t pid oldFd minimumFd).2.2
  | .dupTo pid oldFd newFd => (vfsDupTo t pid oldFd newFd).2
  | .setFdFlags pid fd flags => (vfsSetFdFlags t pid fd flags).2
  | .setCloexec pid fd flags => (vfsSetCloexec t pid fd flags).2
  | .cloneFds parentPid childPid => (vfsCloneFds t parentPid childPid).2
  | .close pid fd => (vfsClose t pid fd).2
  | .closeCloexec pid => (vfsCloseCloexec t pid).2
  | .closePipesExcept pid keep0 keep1 => (vfsClosePipesExcept t pid keep0 keep1).2
  | .closeAll pid => (vfsCloseAll t pid).2
  | .read x n => ((vfsReadPipe t x n).map fun r => r.2.2).getD t
  | .write x buf => ((vfsWritePipe t x buf).map fun r => r.2.2).getD t

def callRun (t : Tables) (calls : List Call) : Tables := calls.foldl Call.apply t

end RixuriOS.Vfs
