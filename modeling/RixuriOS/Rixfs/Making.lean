import RixuriOS.Rixfs.Tree

/-!
# Operations that make an entry

`rixfs_create`, `rixfs_mkdir` and `rixfs_link` on an image with the tree
invariant: when they succeed the invariant holds again, and when they fail the
inodes, the bitmap and the data area are as before.
-/

namespace RixuriOS.Rixfs

open ByteCodec CrashStore ExtentList LinkGraph List View

variable {n t mode type : Nat} {name : CString}

/-- An image between operations. The device has at most `2 ^ 64` bytes, so that the
size of a directory cannot wrap. -/
structure Good (f : Fs) : Prop where
  ready : Ready f
  tree : Tree f.geo f.view
  bytes : f.geo.tot * f.geo.ss ≤ 2 ^ 64

variable {f : Fs} {i : Inode} {d k : Nat}

variable {es : List Effect} {w : Fs}

theorem Good.after {g : Fs} (h : Good f) (he : Effects f es g)
    (htree : Tree f.geo (f.view.after es)) : Good g ∧ g.geo = f.geo ∧ g.view = f.view.after es := by
  obtain ⟨hg, hgeo, hview⟩ := he.spec h.ready
  rw [← hview] at htree
  exact ⟨⟨hg, hgeo.symm ▸ htree, hgeo.symm ▸ h.bytes⟩, hgeo, hview⟩

/-- An operation has gone from `f` to `g`, with `Core` after every write and, if
`safe` holds, with `Safe`. It has kept the invariant and reached a goal if `ok` holds,
and it has changed nothing otherwise. -/
def AttemptTo (f : Fs) (safe ok : Prop) (goal : View → Prop) (g : Fs) : Prop :=
  ∃ es, Effects f es g ∧ Always (Core f.geo) f.view es ∧
    (safe → Always (Safe f.geo) f.view es) ∧
    (ok → Tree f.geo (f.view.after es) ∧ goal (f.view.after es)) ∧
    (¬ok → f.view.after es = f.view)

section

variable {g : Fs} {safe ok : Prop} {goal : View → Prop}

theorem AttemptTo.refused (h : Good f) (hok : ¬ok) : AttemptTo f safe ok goal f :=
  ⟨[], .nil f, h.tree.core, fun _ => h.tree.safe, fun hk => absurd hk hok, fun _ => rfl⟩

theorem AttemptTo.of_safe (he : Effects f es g) (hs : Always (Safe f.geo) f.view es)
    (hok : ok → Tree f.geo (f.view.after es) ∧ goal (f.view.after es))
    (hno : ¬ok → f.view.after es = f.view) : AttemptTo f safe ok goal g :=
  ⟨es, he, hs.mono fun _ h => h.core, fun _ => hs, hok, hno⟩

theorem AttemptTo.good (h : Good f) (ha : AttemptTo f safe ok goal g) (hok : ok) :
    Good g ∧ g.geo = f.geo ∧ goal g.view := by
  obtain ⟨es, heff, -, -, hdone, -⟩ := ha
  obtain ⟨htree, hgoal⟩ := hdone hok
  obtain ⟨hg, hgeo, hview⟩ := h.after heff htree
  exact ⟨hg, hgeo, hview ▸ hgoal⟩

end

/-! ## Names -/

theorem nameLoop_eq_some {l : List Byte} {x : Nat} (hx : x ≤ nameMax) (h : nameLoop l x = some n) :
    n = x + l.length ∧ n ≤ nameMax := by
  induction l generalizing x with
  | nil =>
    cases h
    exact ⟨rfl, hx⟩
  | cons c l ih =>
    rw [nameLoop] at h
    split_ifs at h with hc
    obtain ⟨hn, hle⟩ := ih (by omega) h
    exact ⟨by rw [hn, length_cons]; omega, hle⟩

/-- A name that the operations accept is one that the readers accept. -/
theorem nameValid_of_validName (h : validName name = some n) : nameValid name = some n := by
  rw [validName] at h
  split_ifs at h with hbad
  rw [nameValid, if_neg (by tauto), h]

theorem validName_length (h : validName name = some n) : name.bytes.length ≤ nameMax := by
  rw [validName] at h
  split_ifs at h
  obtain ⟨h1, h2⟩ := nameLoop_eq_some (Nat.zero_le _) h
  omega

/-! ## New inodes -/

def Inode.clipOwner (i : Inode) : Inode := { i with uid := u32 i.uid, gid := u32 i.gid }

theorem Inode.wrap_clipOwner (h : i.clipOwner.Fits) : i.wrap = i.clipOwner := by
  have hsame : i.wrap = i.clipOwner.wrap := by
    simp [Inode.wrap, Inode.clipOwner, Inode.ext, u32]
  rw [hsame, h.wrap_eq]

theorem View.apply_newIno (v : View) (k : Nat) (hi : i.clipOwner.Fits) :
    v.apply (.ino k i) = v.setIno k i.clipOwner := by
  rw [View.apply, Inode.wrap_clipOwner hi]

theorem fmt_mode (ht : t &&& ifmt = t) (mode : Nat) : (t ||| (mode &&& 0o7777)) &&& ifmt = t := by
  have hperm : mode &&& 0o7777 &&& ifmt = 0 := by
    rw [Nat.and_assoc]
    exact Nat.and_zero mode
  rw [Nat.and_or_distrib_right, ht, hperm, Nat.or_zero]

theorem mode_lt (ht : t < 2 ^ 32) (mode : Nat) : t ||| (mode &&& 0o7777) < 2 ^ 32 :=
  Nat.or_lt_two_pow ht (lt_of_le_of_lt Nat.and_le_right (by decide))

theorem newInode_fits {ino uid gid : Nat} (hino : ino < 2 ^ 64) (hmode : mode < 2 ^ 32)
    {l : List Extent} (hl : l.length = 4) (hfit : ExtentsFit l) (hn : n < 2 ^ 64) :
    ((newInode ino mode uid gid).resize l n).clipOwner.Fits where
  inode := hino
  mode := hmode
  uid := Nat.mod_lt _ (by norm_num)
  gid := Nat.mod_lt _ (by norm_num)
  flags := Nat.two_pow_pos 32
  size := hn
  generation := Nat.one_lt_two_pow (by norm_num)
  slots := hl
  extents := hfit
  links := Nat.one_lt_two_pow (by norm_num)
  aclUser := Nat.two_pow_pos 32
  aclUserPerm := Nat.two_pow_pos 32
  aclGroup := Nat.two_pow_pos 32
  aclGroupPerm := Nat.two_pow_pos 32
  aclMask := Nat.two_pow_pos 32

theorem Ready.allocInode_ok (h : Ready f) (hk : allocInode f = .ok k) :
    1 ≤ k ∧ k ≤ f.geo.ic ∧ ¬f.view.Live k := by
  have hloop : ∀ l, (∀ j ∈ l, 1 ≤ j ∧ j ≤ f.geo.ic) → freeInodeIn f l = .ok k →
      1 ≤ k ∧ k ≤ f.geo.ic ∧ ¬f.view.Live k := by
    intro l hl hfree
    induction l with
    | nil => cases hfree
    | cons j l ih =>
      obtain ⟨hj, hl⟩ := forall_mem_cons.1 hl
      rw [freeInodeIn, h.readInode_ok hj.1 hj.2] at hfree
      simp only [] at hfree
      split_ifs at hfree with h0
      · cases hfree
        exact ⟨hj.1, hj.2, fun hlive => hlive h0⟩
      · exact ih hl hfree
  refine hloop _ (fun j hj => ?_) hk
  rw [mem_range'_1] at hj
  have hic : f.geo.ic = f.super.inodeCount := rfl
  omega

theorem zero_fits : Inode.zero.Fits := by
  constructor <;> simp [Inode.zero]

theorem Ready.ic_lt (h : Ready f) : f.geo.ic < 2 ^ 64 := by
  have hbytes : f.geo.ic * 128 < 2 ^ 64 := h.superOk.inodeBytes
  omega

/-! ## One new inode -/

@[simp] theorem View.mark_nil (v : View) (c : Bool) : v.mark c [] = v :=
  View.ext rfl (by funext s; simp) rfl

theorem View.setIno_setIno (v : View) (k : Nat) (i j : Inode) :
    (v.setIno k i).setIno k j = v.setIno k j := View.ext (Function.update_idem ..) rfl rfl

/-- A new inode with one link is in balance once it has been entered. -/
theorem Entered.tree {g : Geo} {v v' : View} {e : Entry} (h : Entered g v d e v')
    (ht : TreeBut g v e.ino) (hc : Core g v') (hd : (v.ino d).fmt = ifdir) (hde : d ≠ e.ino)
    (hcount : v.linkCount g e.ino = 0) (hlinks : (v.ino e.ino).links = 1) : Tree g v' := by
  refine (h.treeBut ht hc hd rfl).tree (fun _ => ⟨fun _ => ?_, fun _ => ?_⟩)
    fun _ => h.rooted (ht.rooted d hd hde)
  · rw [h.linkCount ht.core hd, hcount, if_pos rfl, h.links, hlinks, ite_self]
  · rw [h.links, hlinks]

theorem expectedType_lt (i : Inode) : expectedType i < 2 ^ 8 := by
  rw [expectedType]
  split_ifs <;> decide

structure Fresh (g : Geo) (v : View) (k : Nat) (i : Inode) (ns : List Nat) : Prop where
  dead : ¬v.Live k
  shape : Shape g k i
  free : ∀ s ∈ ns, Free g v s
  blocks : (blocks i.extents).Perm ns
  dir : i.fmt = ifdir → i.size = 0 ∧ total i.extents = 1
  links : i.links = 1

section

variable {g : Geo} {v : View} {ns : List Nat}

section

variable (h : Fresh g v k i ns)

include h

theorem Fresh.live : ((v.mark true ns).setIno k i).Live k := by
  have := h.shape.low
  rw [View.Live, setIno_ino_self, h.shape.self]
  omega

theorem Fresh.sameEntries (hc : Core g v) : SameEntries g v ((v.mark true ns).setIno k i) :=
  hc.sameEntries_newIno h.dead fun hd => (h.dir hd).1

/-- The view is as before when the new inode has been cleared and its sectors
have been freed. -/
theorem Fresh.undo (hc : Core g v) :
    (((v.mark true ns).setIno k i).mark false ns).setIno k Inode.zero = v := by
  refine View.ext ?_ ?_ rfl
  · funext j
    by_cases hj : j = k
    · rw [hj, setIno_ino_self, hc.dead k h.dead]
    · rw [setIno_ino_ne _ _ _ hj, mark_ino, setIno_ino_ne _ _ _ hj]
      rfl
  funext s
  by_cases hs : s ∈ ns
  · simp [hs, (h.free s hs).clear]
  · simp [hs]

end

theorem Safe.always_setAll_true (h : Safe g v) (ns : List Nat) :
    Always (Safe g) v (setAll true ns) := by
  induction ns generalizing v with
  | nil => exact h
  | cons s ns ih => exact ⟨h, ih (h.setBit_true s)⟩

end

/-- `w` has the new inode `i`, and no entry refers to it yet. -/
structure Pending (f : Fs) (k : Nat) (i : Inode) (w : Fs) : Prop where
  dead : ¬f.view.Live k
  ready : Ready w
  geo : w.geo = f.geo
  but : TreeBut f.geo w.view k
  count : w.view.linkCount f.geo k = 0
  self : w.view.ino k = i
  live : w.view.Live k
  links : i.links = 1
  same : SameEntries f.geo f.view w.view

theorem Fresh.pending (hf : Good f) {ns : List Nat} (h : Fresh f.geo f.view k i ns)
    (hw : Ready w) (hgeo : w.geo = f.geo)
    (hview : w.view = (f.view.mark true ns).setIno k i) : Pending f k i w := by
  obtain ⟨hbut, hcount⟩ := hf.tree.newIno h.dead h.shape h.free h.blocks h.dir
  have hlive := h.live
  have hsame := h.sameEntries hf.tree.core
  rw [← hview] at hbut hcount hlive hsame
  exact ⟨h.dead, hw, hgeo, hbut, hcount, by rw [hview, setIno_ino_self], hlive, h.links, hsame⟩

/-- Writing a new inode whose sectors are marked. -/
theorem Fresh.write (hf : Good f) {a : Fs} {ns : List Nat}
    (h : Fresh f.geo f.view k i.clipOwner ns) (ha : Effects f (setAll true ns) a) :
    ∃ w, writeInode a k i = (0, w) ∧ Effects f (setAll true ns ++ [.ino k i]) w ∧
      w.view = (f.view.mark true ns).setIno k i.clipOwner ∧ Pending f k i.clipOwner w ∧
      Always (Safe f.geo) f.view (setAll true ns ++ [.ino k i]) := by
  obtain ⟨w, hwrite, hdo⟩ := ha.writeInode_ok hf.ready h.shape.low h.shape.high i
  have hall := ha.append hdo.effects
  obtain ⟨hw, hgeo, hafter⟩ := hall.spec hf.ready
  have hview := hafter
  rw [after_append, after_setAll, after_cons, after_nil, apply_newIno _ _ h.shape.fits] at hview
  have hpending := h.pending hf hw hgeo hview
  have hmarked := hf.tree.safe.always_setAll_true ns
  refine ⟨w, hwrite, hall, hview, hpending, hmarked.append ⟨hmarked.last, ?_⟩⟩
  change Safe f.geo ((f.view.after _).after [.ino k i])
  rw [← after_append, ← hafter]
  exact hpending.but.safe

/-- The last part of the making operations: entering the new inode completes the tree, or
changes nothing. -/
theorem Pending.enter_spec (hf : Good f) (h : Pending f k i w) (hd : (f.view.ino d).fmt = ifdir)
    (htype : type = expectedType i) (hname : name.bytes.length ≤ nameMax) :
    (∃ g es, enter w d k type name.bytes = (0, true, g) ∧ Effects w es g ∧
        Always (Safe f.geo) w.view es ∧ Tree f.geo (w.view.after es) ∧
        Bound f.geo f.view d ⟨k, type, name.bytes⟩ (w.view.after es)) ∨
      ∃ g es, enter w d k type name.bytes = (-1, false, g) ∧ Effects w es g ∧
        Neutral f.geo w.view es := by
  have hshape := h.but.core.shape k h.live
  have hlow := hshape.low
  have hdw := h.same.dirs d hd
  have hdk : d ≠ k := by
    rintro rfl
    exact h.dead (hf.tree.core.live_of_dir hd)
  have hvalid : w.view.Valid ⟨k, type, name.bytes⟩ :=
    ⟨⟨by simp only; omega, lt_of_le_of_lt hshape.high hf.ready.ic_lt, htype ▸ expectedType_lt _,
      hname, name.nonzero⟩, h.live, h.self.symm ▸ htype⟩
  have hent := h.ready.enter_spec (h.geo.symm ▸ h.but.safe) (h.geo.symm ▸ hf.bytes) hdw hvalid
  rw [h.geo] at hent
  rcases hent with ⟨g, es, hrun, heff, halways, hent⟩ | hno
  · have htree := hent.tree h.but halways.last.core hdw hdk h.count (h.self.symm ▸ h.links)
    exact .inl ⟨g, es, hrun, heff, halways, htree, h.same.bound hent.bound⟩
  · exact .inr hno

/-! ## Creating a file -/

theorem fresh_empty (h : Good f) (hk : allocInode f = .ok k) (ht : t = ifreg ∨ t = iflnk)
    (hfmt : mode &&& ifmt = t) (hmode : mode < 2 ^ 32) (uid gid : Nat) :
    Fresh f.geo f.view k (newInode k mode uid gid).clipOwner [] := by
  obtain ⟨h1, h2, hdead⟩ := h.ready.allocInode_ok hk
  have hss := h.ready.ss_bounds
  have hblocks : blocks (newInode k mode uid gid).clipOwner.extents = [] := by
    simp [newInode, Inode.clipOwner, Inode.zero, blocks]
  have hnot : (newInode k mode uid gid).clipOwner.fmt ≠ ifdir := by
    intro hd
    have hd : mode &&& ifmt = ifdir := hd
    rw [hfmt] at hd
    rcases ht with ht | ht <;> rw [ht] at hd <;> cases hd
  refine ⟨hdead, ⟨h1, h2, rfl, ?_, ?_, ?_, ?_, fun _ => ⟨?_, Nat.zero_le _⟩⟩, by simp, ?_,
    fun hd => absurd hd hnot, rfl⟩
  · exact newInode_fits (l := Inode.zero.extents) (n := 0) (lt_of_le_of_lt h2 h.ready.ic_lt) hmode
      rfl zero_fits.extents (by norm_num)
  · have hfmt' : (newInode k mode uid gid).clipOwner.fmt = t := hfmt
    rw [hfmt']
    rcases ht with rfl | rfl
    · exact .inl rfl
    · exact .inr (.inr rfl)
  · intro s hs
    rw [hblocks] at hs
    cases hs
  · rw [hblocks]
    exact .nil
  · rw [← length_blocks, hblocks]
    change 0 = (0 + (f.geo.ss - 1)) / f.geo.ss
    rw [Nat.zero_add, Nat.div_eq_of_lt (by omega)]
  · rw [hblocks]

theorem Good.create_bound (h : Good f) (hd : (f.view.ino d).fmt = ifdir) (name : CString)
    (mode uid gid : Nat) :
    AttemptTo f True (∃ k, (create f d name mode uid gid).1 = .ok k)
      (fun v => ∃ k, (create f d name mode uid gid).1 = .ok k ∧
        Bound f.geo f.view d ⟨k, dirTypeFile, name.bytes⟩ v)
      (create f d name mode uid gid).2 := by
  have hsafe := h.tree.safe
  rw [create]
  cases hname : validName name with
  | none => exact .refused h (by simp)
  | some n =>
  cases hlook : lookupName f d name with
  | ok r => exact .refused h (by simp)
  | error c =>
  cases halloc : allocInode f with
  | error c => exact .refused h (by simp)
  | ok k =>
  have hfresh := fresh_empty h halloc (.inl rfl) (fmt_mode (t := ifreg) rfl mode)
    (mode_lt (by decide) mode) uid gid
  obtain ⟨w, hwrite, hpre, hview, hpending, halways⟩ := hfresh.write h (.nil f)
  have hafter := (hpre.spec h.ready).2.2
  have htype : dirTypeFile =
      expectedType (newInode k (ifreg ||| (mode &&& 0o7777)) uid gid).clipOwner := by
    have hfmt : (newInode k (ifreg ||| (mode &&& 0o7777)) uid gid).clipOwner.fmt = ifreg :=
      fmt_mode rfl mode
    rw [expectedType, hfmt]
    rfl
  simp only [hwrite]
  rcases hpending.enter_spec h hd htype (validName_length hname) with
    ⟨g, es, hrun, heff, hes, htree, hbound⟩ | ⟨g, es, hrun, heff, hes⟩
  · rw [hrun]
    refine .of_safe (hpre.append heff) (halways.append (hafter ▸ hes)) (fun _ => ?_)
      fun hno => absurd ⟨k, rfl⟩ hno
    rw [after_append, ← hafter]
    exact ⟨htree, k, rfl, hbound⟩
  obtain ⟨g', hundo, hdo⟩ := (hpre.append heff).writeInode_ok h.ready hfresh.shape.low
    hfresh.shape.high Inode.zero
  rw [hrun, hundo]
  have hback : (w.view.after es).after [.ino k Inode.zero] = f.view := by
    rw [hes.after_eq, after_cons, after_nil, apply_ino _ _ zero_fits, hview]
    exact hfresh.undo h.tree.core
  have hsafe' := hpending.but.safe.always_neutral hes
  refine .of_safe (hpre.append (heff.append hdo.effects)) (halways.append ?_)
    (fun hok => by simp at hok) fun _ => ?_
  · rw [← hafter]
    exact hsafe'.append ⟨hsafe'.last, (congrArg (Safe f.geo) hback).mpr hsafe⟩
  · rw [after_append, ← hafter, after_append, hback]

/-! ## Making a directory -/

def oneSector (s : Nat) : List Extent := [⟨s, 1⟩, ⟨0, 0⟩, ⟨0, 0⟩, ⟨0, 0⟩]

theorem blocks_oneSector (s : Nat) : blocks (oneSector s) = [s] := by simp [oneSector, blocks]

theorem fresh_dir (h : Good f) {s : Nat} (hk : allocInode f = .ok k) (hs : Free f.geo f.view s)
    (hfmt : mode &&& ifmt = ifdir) (hmode : mode < 2 ^ 32) (uid gid : Nat) :
    Fresh f.geo f.view k ((newInode k mode uid gid).resize (oneSector s) 0).clipOwner [s] := by
  obtain ⟨h1, h2, hdead⟩ := h.ready.allocInode_ok hk
  have hlt : s < 2 ^ 64 := lt_trans hs.high h.ready.tot_lt
  have hext : ((newInode k mode uid gid).resize (oneSector s) 0).clipOwner.extents =
    oneSector s := rfl
  have hd : ((newInode k mode uid gid).resize (oneSector s) 0).clipOwner.fmt = ifdir := hfmt
  refine ⟨hdead, ⟨h1, h2, rfl, ?_, .inr (.inl hd), ?_, ?_, fun hne => absurd hd hne⟩,
    by simpa using hs, ?_, fun _ => ⟨rfl, ?_⟩, rfl⟩
  · refine newInode_fits (lt_of_le_of_lt h2 h.ready.ic_lt) hmode rfl ?_ (by norm_num)
    simpa [oneSector, ExtentsFit] using hlt
  · intro t ht
    rw [hext, blocks_oneSector, mem_singleton] at ht
    rw [ht]
    exact ⟨hs.low, hs.high⟩
  · rw [hext, blocks_oneSector]
    exact nodup_singleton s
  · rw [hext, blocks_oneSector]
  · rw [hext, ← length_blocks, blocks_oneSector]
    rfl

theorem View.apply_bit_true (v : View) (s : Nat) : v.apply (.bit s true) = v.mark true [s] :=
  after_setAll v true [s]

/-- `rixfs_mkdir`. When the entry cannot be made, the sector is freed before the
inode is cleared. -/
theorem Good.mkdir_bound (h : Good f) (hd : (f.view.ino d).fmt = ifdir) (name : CString)
    (mode uid gid : Nat) :
    AttemptTo f ((mkdir f d name mode uid gid).1 ≠ .error (-6))
      (∃ k, (mkdir f d name mode uid gid).1 = .ok k)
      (fun v => ∃ k, (mkdir f d name mode uid gid).1 = .ok k ∧
        Bound f.geo f.view d ⟨k, dirTypeDir, name.bytes⟩ v)
      (mkdir f d name mode uid gid).2 := by
  have hsafe := h.tree.safe
  rw [mkdir]
  cases hname : validName name with
  | none => exact .refused h (by simp)
  | some n =>
  cases hlook : lookupName f d name with
  | ok r => exact .refused h (by simp)
  | error c =>
  cases halloc : allocInode f with
  | error c => exact .refused h (by simp)
  | ok k =>
  have htakes := h.ready.allocSecTop_takes []
  simp only []
  generalize allocSecTop f [] = a at htakes
  cases htakes with
  | error heff =>
    exact .of_safe heff hsafe (fun hok => by simp at hok) fun _ => rfl
  | @ok s a hs heff₀ =>
  have hfresh := fresh_dir h halloc hs (fmt_mode (t := ifdir) rfl mode)
    (mode_lt (by decide) mode) uid gid
  have htype : dirTypeDir = expectedType
      ((newInode k (ifdir ||| (mode &&& 0o7777)) uid gid).resize (oneSector s) 0).clipOwner := by
    have hfmt : ((newInode k (ifdir ||| (mode &&& 0o7777)) uid gid).resize (oneSector s)
      0).clipOwner.fmt = ifdir := fmt_mode rfl mode
    rw [expectedType, hfmt]
    rfl
  obtain ⟨i, hi⟩ : ∃ i, i = { newInode k (ifdir ||| (mode &&& 0o7777)) uid gid with
    extents := [⟨s, 1⟩, ⟨0, 0⟩, ⟨0, 0⟩, ⟨0, 0⟩] } := ⟨_, rfl⟩
  have hi' : (newInode k (ifdir ||| (mode &&& 0o7777)) uid gid).resize (oneSector s) 0 = i :=
    hi.symm
  have hblocks : blocks i.extents = [s] := hi ▸ blocks_oneSector s
  simp only [← hi]
  rw [hi'] at hfresh htype
  obtain ⟨w, hwrite, hpre, hview, hpending, halways⟩ := hfresh.write h heff₀
  have hafter := (hpre.spec h.ready).2.2
  rw [hwrite]
  rcases hpending.enter_spec h hd htype (validName_length hname) with
    ⟨g, es, hrun, heff, hes, htree, hbound⟩ | ⟨g, es, hrun, heff, hes⟩
  · rw [hrun]
    refine .of_safe (hpre.append heff) (halways.append (hafter ▸ hes)) (fun _ => ?_)
      fun hno => absurd ⟨k, rfl⟩ hno
    rw [after_append, ← hafter]
    exact ⟨htree, k, rfl, hbound⟩
  obtain ⟨hg, hgeo, -⟩ := (hpre.append heff).spec h.ready
  obtain ⟨g₁, hfree, heff₁⟩ := hg.freeInodeData_ok (i := i) (hgeo ▸ hfresh.shape.area)
  rw [hblocks] at heff₁
  obtain ⟨g₂, hundo, hdo⟩ := ((hpre.append heff).append heff₁).writeInode_ok h.ready
    hfresh.shape.low hfresh.shape.high Inode.zero
  rw [hrun, hfree, hundo]
  have hback : w.view.after (setAll false [s] ++ [.ino k Inode.zero]) = f.view := by
    rw [after_append, after_setAll, after_cons, after_nil, apply_ino _ _ zero_fits, hview]
    exact hfresh.undo h.tree.core
  refine ⟨_, hpre.append (heff.append (heff₁.append hdo.effects)), ?_,
    fun hne => by simp at hne, fun hok => by simp at hok, fun _ => ?_⟩
  · refine (halways.mono fun _ hs => hs.core).append ?_
    rw [← hafter]
    refine ((hpending.but.safe.always_neutral hes).mono fun _ hs => hs.core).append ?_
    rw [hes.after_eq]
    exact ⟨hpending.but.core, hpending.but.core.setBit s false,
      (congrArg (Core f.geo) hback).mpr h.tree.core⟩
  · rw [after_append, ← hafter, after_append, hes.after_eq, hback]

/-! ## Making a link -/

/-- `rixfs_link` to an inode that is not a directory, with its type. -/
theorem Good.link_bound (h : Good f) {source : Nat} (hd : (f.view.ino d).fmt = ifdir)
    (htype : type = expectedType (f.view.ino source)) (name : CString) :
    AttemptTo f True ((link f source d name type).1 = 0)
      (Bound f.geo f.view d ⟨source, type, name.bytes⟩) (link f source d name type).2 := by
  have hsafe := h.tree.safe
  rw [link]
  cases hname : validName name with
  | none => exact .refused h (by simp)
  | some n =>
  cases hlook : lookupName f d name with
  | ok r => exact .refused h (by simp)
  | error c =>
  by_cases hrange : 1 ≤ source ∧ source ≤ f.super.inodeCount
  swap
  · rw [h.ready.readInode_error hrange]
    exact .refused h (by simp)
  rw [h.ready.readInode_ok hrange.1 hrange.2]
  simp only []
  by_cases h0 : (f.view.ino source).inode = 0
  · rw [if_pos h0]
    exact .refused h (by simp)
  rw [if_neg h0]
  split
  · exact .refused h (by simp)
  rename_i hdir
  split
  · exact .refused h (by simp)
  have hne : source ≠ d := fun he => hdir (he ▸ hd)
  have hlinks := (h.tree.core.shape source h0).fits.links
  have hpos := (h.tree.linked source h0).pos hdir
  have hvalid : f.view.Valid ⟨source, type, name.bytes⟩ :=
    ⟨⟨by simp only; omega, lt_of_le_of_lt hrange.2 h.ready.ic_lt, htype ▸ expectedType_lt _,
      validName_length hname, name.nonzero⟩, h0, htype⟩
  rcases h.ready.enter_spec hsafe h.bytes hd hvalid with
    ⟨g, es, hrun, heff, hes, hent⟩ | ⟨g, es, hrun, heff, hes⟩
  · obtain ⟨g', hwrite, hdo⟩ := heff.writeInode_ok h.ready hrange.1 hrange.2
      { f.view.ino source with links := (f.view.ino source).links + 1 }
    rw [hrun]
    rw [if_neg (by omega : ¬(f.view.ino source).links = 0)]
    rw [hwrite]
    have hbut := hent.treeBut (h.tree.but source) hes.last.core hd rfl
    have hsame : (f.view.after es).ino source = f.view.ino source := hent.otherIno _ hne
    have hlive : (f.view.after es).Live source := (hent.live source).2 h0
    obtain ⟨hfits, hbut', hcount⟩ := hbut.setLinks hlive
      (n := (f.view.ino source).links + 1) (by omega) (by rw [hsame])
    have htree : Tree f.geo ((f.view.after es).setIno source _) :=
      hbut'.tree (fun _ => ⟨fun hroot => ?_, fun _ => ?_⟩) fun hd' => ?_
    · refine .of_safe (heff.append hdo.effects) (hes.append ?_) (fun _ => ?_)
        fun hno => absurd rfl hno
      · refine ⟨hes.last, ?_⟩
        rw [apply_ino _ _ hfits]
        exact htree.safe
      rw [after_append, after_cons, after_nil, apply_ino _ _ hfits]
      have hfile' : ((f.view.after es).ino source).fmt ≠ ifdir := by
        rw [hsame]
        exact hdir
      have hkept := sameEntries_setFile (g := f.geo) (c := true) (l := [])
        (i := { f.view.ino source with links := (f.view.ino source).links + 1 }) hfile'
        (by rw [hsame]; rfl)
      rw [View.mark_nil] at hkept
      exact ⟨htree, hent.bound.same hkept⟩
    · rw [hcount, hent.linkCount h.tree.core hd, if_pos rfl,
        (h.tree.linked source h0).count hroot, setIno_ino_self, if_neg hdir]
      exact (if_neg hdir).symm
    · rw [setIno_ino_self]
      exact Nat.le_add_left _ _
    · rw [setIno_ino_self] at hd'
      exact absurd hd' hdir
  rw [hrun]
  exact .of_safe heff (hsafe.always_neutral hes) (fun hok => by simp at hok)
    fun _ => hes.after_eq

end RixuriOS.Rixfs
