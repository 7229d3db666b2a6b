import RixuriOS.Lib.GuardedRun
import RixuriOS.Rixfs.Formatted
import RixuriOS.Rixfs.OwnedRename

/-!
# Runs of calls

The calls on a mounted image, the images that successful calls reach from a fresh
one, and what a change of size or a write leaves alone on all of them.
-/

namespace RixuriOS.Rixfs

open ByteCodec CrashStore ExtentList LinkGraph GuardedRun

inductive Call where
  | create (d : Nat) (name : CString) (mode uid gid : Nat)
  | mkdir (d : Nat) (name : CString) (mode uid gid : Nat)
  | symlink (d : Nat) (name target : CString) (uid gid : Nat)
  | link (source d : Nat) (name : CString) (type : Nat)
  | unlink (d : Nat) (name : CString)
  | rmdir (d : Nat) (name : CString)
  | rename (oldDir : Nat) (oldName : CString) (newDir : Nat) (newName : CString) (replace : Bool)
  | truncate (k n : Nat)
  | write (k off : Nat) (data : Buf) (size : Nat)
  | setAcl (k : Nat) (a : Acl)
  | clearAcl (k : Nat)
  | writeInode (k : Nat) (i : Inode)
  | remount (metaHint : Nat)

def whenOk (r : Except Int Nat × Fs) : Option Fs :=
  match r.1 with
  | .ok _ => some r.2
  | .error _ => none

def whenZero (r : Int × Fs) : Option Fs := if r.1 = 0 then some r.2 else none

variable {f g : Fs} {r : Int × Fs} {k : Nat}

theorem whenOk_eq_some {r : Except Int Nat × Fs} (h : whenOk r = some g) :
    ∃ k, r.1 = .ok k ∧ r.2 = g := by
  obtain ⟨c, g'⟩ := r
  cases c with
  | error c => cases h
  | ok k => exact ⟨k, rfl, Option.some.inj h⟩

theorem whenZero_eq_some (h : whenZero r = some g) : r.1 = 0 ∧ r.2 = g := by
  rw [whenZero] at h
  split_ifs at h with hzero
  exact ⟨hzero, Option.some.inj h⟩

theorem whenZero_eq (h : whenZero r = some g) : r = (0, g) :=
  Prod.ext (whenZero_eq_some h).1 (whenZero_eq_some h).2

def next (f : Fs) : Call → Option Fs
  | .create d name mode uid gid => whenOk (create f d name mode uid gid)
  | .mkdir d name mode uid gid => whenOk (mkdir f d name mode uid gid)
  | .symlink d name target uid gid => whenOk (symlink f d name target uid gid)
  | .link source d name type => whenZero (link f source d name type)
  | .unlink d name => whenZero (unlink f d name)
  | .rmdir d name => whenZero (rmdir f d name)
  | .rename oldDir oldName newDir newName replace =>
    whenZero (rename f oldDir oldName newDir newName replace)
  | .truncate k n => whenZero (truncate f k n)
  | .write k off data size => whenZero (rixfsWrite f k off data size)
  | .setAcl k a => whenZero (setAcl f k a)
  | .clearAcl k => whenZero (clearAcl f k)
  | .writeInode k i => whenZero (writeInode f k i)
  | .remount metaHint => whenZero (rixfsMount f.dev metaHint)

theorem next_create {d mode uid gid : Nat} {name : CString}
    (hrun : (create f d name mode uid gid).1 = .ok k) :
    next f (.create d name mode uid gid) = some (create f d name mode uid gid).2 := by
  rw [next, whenOk, hrun]

theorem next_write {off size : Nat} {data : Buf} (hrun : (rixfsWrite f k off data size).1 = 0) :
    next f (.write k off data size) = some (rixfsWrite f k off data size).2 := if_pos hrun

/-- The image is the one that formatting the device leaves, as it is mounted. -/
def Started (d : Device) (ic : Nat) (f : Fs) : Prop :=
  ∃ d' metaHint, format d ic = (0, d') ∧ rixfsMount d' metaHint = (0, f)

/-- A plain write of an inode keeps its sectors, as the changes of mode and owner do. -/
def KeepsSectors (f : Fs) : Call → Prop
  | .writeInode k i => ∃ i', readInode f k = .ok i' ∧ i.extents = i'.extents
  | _ => True

theorem Sound.next (h : Sound f) {c : Call} (hkeep : KeepsSectors f c) (hrun : next f c = some g) :
    Sound g := by
  cases c with
  | create d name mode uid gid =>
    obtain ⟨k, hk, rfl⟩ := whenOk_eq_some hrun
    exact h.of_create hk
  | mkdir d name mode uid gid =>
    obtain ⟨k, hk, rfl⟩ := whenOk_eq_some hrun
    exact h.of_mkdir hk
  | symlink d name target uid gid =>
    obtain ⟨k, hk, rfl⟩ := whenOk_eq_some hrun
    exact h.of_symlink hk
  | link source d name type =>
    obtain ⟨hcode, rfl⟩ := whenZero_eq_some hrun
    exact h.of_link hcode
  | unlink d name =>
    obtain ⟨hcode, rfl⟩ := whenZero_eq_some hrun
    exact h.of_unlink hcode
  | rmdir d name =>
    obtain ⟨hcode, rfl⟩ := whenZero_eq_some hrun
    exact h.of_rmdir hcode
  | rename oldDir oldName newDir newName replace =>
    exact (h.of_rename (whenZero_eq hrun)).1
  | truncate k n =>
    exact (h.of_truncate (whenZero_eq hrun)).1
  | write k off data size =>
    obtain ⟨-, rfl⟩ := whenZero_eq_some hrun
    exact (h.of_write k off data size).1
  | setAcl k a =>
    obtain ⟨hcode, rfl⟩ := whenZero_eq_some hrun
    exact h.of_setAcl hcode
  | clearAcl k =>
    obtain ⟨hcode, rfl⟩ := whenZero_eq_some hrun
    exact h.of_clearAcl hcode
  | writeInode k i =>
    obtain ⟨i', hread, hext⟩ := hkeep
    obtain ⟨-, rfl⟩ := h.ready.readInode_done hread
    exact h.of_rewrite (whenZero_eq hrun) hext
  | remount metaHint =>
  obtain ⟨-, rfl⟩ := whenZero_eq_some hrun
  obtain ⟨hready, hgeo, hview⟩ := h.ready.remount metaHint
  rw [h.ready.rixfsMount_eq]
  refine ⟨hready, ?_⟩
  rw [hgeo, hview]
  exact h.owned

section

variable {d : Device} {ic : Nat} (h : Started d ic f)
  (hgeo : FormatGeometry d.sectorSize d.sectorCount ic) (haligned : inodeSize ∣ d.sectorSize)

include h hgeo haligned

theorem Started.blank : Ready f ∧ f.geo.ss = d.sectorSize ∧ f.geo.tot = d.sectorCount ∧
    ∃ s, Blank f.geo f.view s := by
  obtain ⟨d', metaHint, hformat, hmount⟩ := h
  obtain ⟨g, s, rfl, hg, hss, htot, hblank⟩ := format_ok hgeo haligned hformat
  rw [hg.rixfsMount_eq, Prod.mk.injEq] at hmount
  obtain ⟨hready, hgeo', hview⟩ := hg.remount metaHint
  rw [← hmount.2]
  refine ⟨hready, ?_⟩
  rw [hgeo', hview]
  exact ⟨hss, htot, s, hblank⟩

theorem Started.tree : Ready f ∧ Tree f.geo f.view := by
  obtain ⟨hready, -, -, s, hblank⟩ := h.blank hgeo haligned
  exact ⟨hready, hblank.tree hready.on.superOk.inodePos hready.tot_lt⟩

end

theorem Reaches.sound {d : Device} {ic : Nat} {f₀ : Fs}
    (hgeo : FormatGeometry d.sectorSize d.sectorCount ic) (haligned : inodeSize ∣ d.sectorSize)
    (hstart : Started d ic f₀) (hrun : Reaches next KeepsSectors f₀ f) : Sound f := by
  induction hrun with
  | refl =>
    obtain ⟨hready, htree⟩ := hstart.tree hgeo haligned
    exact ⟨hready, htree.safe.owned⟩
  | tail _ hkeep hstep ih => exact ih.next hkeep hstep

/-! ## What a write leaves alone -/

/-- On every image that successful calls reach from a fresh one, a change of size and
a write leave every other inode and its bytes alone. -/
theorem truncate_write_frame {d : Device} {ic : Nat}
    (hgeo : FormatGeometry d.sectorSize d.sectorCount ic) (haligned : inodeSize ∣ d.sectorSize)
    {f₀ f g : Fs} (hstart : Started d ic f₀) (hrun : Reaches next KeepsSectors f₀ f) {k j : Nat}
    (hcall : (∃ n, next f (.truncate k n) = some g) ∨
      ∃ off data size, next f (.write k off data size) = some g) (hj : j ≠ k) :
    readInode g j = readInode f j ∧
      ∀ off size, rixfsRead g j off size = rixfsRead f j off size := by
  have h := Reaches.sound hgeo haligned hstart hrun
  rcases hcall with ⟨n, hcall⟩ | ⟨off, data, size, hcall⟩
  · exact (h.of_truncate (whenZero_eq hcall)).2.reads h hj
  · obtain ⟨-, rfl⟩ := whenZero_eq_some hcall
    exact (h.of_write k off data size).2.reads h hj

def bareDevice : Device where
  sectorSize := 512
  sectorCount := 128
  disk := fun _ => zeroBuf
  log := []

def bareImage (ic : Nat) : Fs := (rixfsMount (format bareDevice ic).2 0).2

def nameA : CString := ⟨[97], by decide⟩

def oneFile (ic : Nat) : Fs := (create (bareImage ic) 1 nameA 0o644 0 0).2

def OneFileRuns (ic : Nat) : Prop :=
  (format bareDevice ic).1 = 0 ∧ (rixfsMount (format bareDevice ic).2 0).1 = 0 ∧
    (create (bareImage ic) 1 nameA 0o644 0 0).1 = .ok 2 ∧ (truncate (oneFile ic) 2 512).1 = 0

section

variable {ic : Nat} (h : OneFileRuns ic)

include h

theorem OneFileRuns.started : Started bareDevice ic (bareImage ic) :=
  ⟨_, 0, Prod.ext h.1 rfl, Prod.ext h.2.1 rfl⟩

theorem OneFileRuns.reaches {allowed : Fs → Call → Prop}
    (hc : allowed (bareImage ic) (.create 1 nameA 0o644 0 0)) :
    Reaches next allowed (bareImage ic) (oneFile ic) :=
  Reaches.refl.tail hc (next_create h.2.2.1)

theorem OneFileRuns.truncate :
    next (oneFile ic) (.truncate 2 512) = some (truncate (oneFile ic) 2 512).2 :=
  if_pos h.2.2.2

end

theorem oneFileRuns : OneFileRuns 8 := by
  unfold OneFileRuns
  decide +kernel

theorem truncate_write_frame_oneFile :
    OneFileRuns 8 ∧ readInode (truncate (oneFile 8) 2 512).2 1 = readInode (oneFile 8) 1 :=
  ⟨oneFileRuns, (truncate_write_frame formatGeometry_fresh (by decide) oneFileRuns.started
    (oneFileRuns.reaches trivial) (.inl ⟨512, oneFileRuns.truncate⟩) (by decide)).1⟩

/-- With so many inodes that their bytes wrap, the inode table and the bitmap share a
sector: the sector that the file takes is marked in the record of the root. -/
theorem truncate_changes_root :
    ∃ f₀ f g, Started bareDevice (2 ^ 57 - 1) f₀ ∧ Reaches next KeepsSectors f₀ f ∧
      next f (.truncate 2 512) = some g ∧ (readInode f 1).map Inode.inode = .ok 1 ∧
      (rixfsRead f 1 0 16).isOk = true ∧ readInode g 1 ≠ readInode f 1 ∧
      (rixfsRead g 1 0 16).isOk = false := by
  have hruns : OneFileRuns (2 ^ 57 - 1) ∧
      (readInode (oneFile (2 ^ 57 - 1)) 1).map Inode.inode = .ok 1 ∧
      (rixfsRead (oneFile (2 ^ 57 - 1)) 1 0 16).isOk = true ∧
      readInode (truncate (oneFile (2 ^ 57 - 1)) 2 512).2 1 ≠ readInode (oneFile (2 ^ 57 - 1)) 1 ∧
      (rixfsRead (truncate (oneFile (2 ^ 57 - 1)) 2 512).2 1 0 16).isOk = false := by
    unfold OneFileRuns
    decide +kernel
  exact ⟨_, _, _, hruns.1.started, hruns.1.reaches trivial, hruns.1.truncate, hruns.2⟩

end RixuriOS.Rixfs
