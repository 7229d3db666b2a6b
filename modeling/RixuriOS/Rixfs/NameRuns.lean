import RixuriOS.Rixfs.Names
import RixuriOS.Rixfs.Runs

/-!
# The names of a run

The directories of the images that calls reach from a fresh one are finite maps, as
long as nobody writes into a directory past the operations on names. The operations
that make and remove names change one binding of one directory.
-/

namespace RixuriOS.Rixfs

open ByteCodec CrashStore ExtentList LinkGraph KeyedLists GuardedRun

/-! ## Proper calls -/

/-- A call that the callers of the file system make: new entries go into directories
and carry the type of their inode, data goes into files, sizes are those of files,
and a write of an inode in use keeps all but its attributes. -/
def Proper (f : Fs) : Call → Prop
  | .create d _ _ _ _ => f.IsDir d
  | .mkdir d _ _ _ _ => f.IsDir d
  | .symlink d _ _ _ _ => f.IsDir d
  | .link source d _ type => f.IsDir d ∧ type = expectedType (f.inodeAt source)
  | .truncate _ n => n ≤ 2 ^ 63
  | .write k _ _ _ => ¬f.IsDir k
  | .setAcl k _ => f.Live k
  | .clearAcl k => f.Live k
  | .writeInode k i => f.Live k ∧ SameData i (f.inodeAt k) ∧ i.links = (f.inodeAt k).links
  | _ => True

def entryMade (f : Fs) : Call → Option (Nat × Entry)
  | .create d name mode uid gid =>
    (create f d name mode uid gid).1.toOption.map fun k => (d, ⟨k, dirTypeFile, name.bytes⟩)
  | .mkdir d name mode uid gid =>
    (mkdir f d name mode uid gid).1.toOption.map fun k => (d, ⟨k, dirTypeDir, name.bytes⟩)
  | .symlink d name target uid gid =>
    (symlink f d name target uid gid).1.toOption.map fun k =>
      (d, ⟨k, dirTypeSymlink, name.bytes⟩)
  | .link source d name type => some (d, ⟨source, type, name.bytes⟩)
  | _ => none

def nameRemoved : Call → Option (Nat × CString)
  | .unlink d name => some (d, name)
  | .rmdir d name => some (d, name)
  | _ => none

structure Neat (f : Fs) : Prop where
  good : Good f
  named : Named f.geo f.view

/-- A call has kept the invariant and has changed the entries as it should. -/
structure Changed (f : Fs) (c : Call) (g : Fs) : Prop where
  neat : Neat g
  geo : g.geo = f.geo
  made : ∀ d e, entryMade f c = some (d, e) → Bound f.geo f.view d e g.view
  removed : ∀ d name, nameRemoved c = some (d, name) → Unbound f d name g.view

/-! ## Each call -/

def Unused (f : Fs) (d : Nat) (name : CString) : Prop :=
  (∃ n, validName name = some n) ∧ ∃ c, lookupName f d name = .error c

variable {k : Nat} {i : Inode} {f : Fs}

section

variable {d : Nat} {name : CString}

variable {P : Prop} {gid mode uid : Nat}

theorem unused_of (hrun : P) (hbad : validName name = none → ¬P)
    (hused : ∀ n r, validName name = some n → lookupName f d name = .ok r → ¬P) :
    Unused f d name := by
  cases hname : validName name with
  | none => exact absurd hrun (hbad hname)
  | some n =>
  cases hlook : lookupName f d name with
  | ok r => exact absurd hrun (hused n r hname hlook)
  | error c => exact ⟨⟨n, hname⟩, c, hlook⟩

theorem create_unused (hrun : (create f d name mode uid gid).1 = .ok k) : Unused f d name :=
  unused_of hrun (fun hn => by simp [create, hn]) fun n r hn hl => by simp [create, hn, hl]

theorem mkdir_unused (hrun : (mkdir f d name mode uid gid).1 = .ok k) : Unused f d name :=
  unused_of hrun (fun hn => by simp [mkdir, hn]) fun n r hn hl => by simp [mkdir, hn, hl]

theorem symlink_unused {target : CString} (hrun : (symlink f d name target uid gid).1 = .ok k) :
    Unused f d name :=
  unused_of hrun (fun hn => by simp [symlink, hn]) fun n r hn hl => by
    rw [symlink, hn, hl]
    split_ifs <;> simp

theorem link_unused {source type : Nat} (hrun : (link f source d name type).1 = 0) :
    Unused f d name :=
  unused_of hrun (fun hn => by simp [link, hn]) fun n r hn hl => by simp [link, hn, hl]

theorem dir_of_used (h : Ready f) (name : CString) (hrun : P)
    (hunused : ∀ c, lookupName f d name = .error c → ¬P) : f.IsDir d := by
  cases hlook : lookupName f d name with
  | error c => exact absurd hrun (hunused c hlook)
  | ok r => exact h.dir_of_lookup hlook

theorem unlink_dir (h : Ready f) (hrun : (unlink f d name).1 = 0) : f.IsDir d :=
  dir_of_used h name hrun fun c hl => by cases hn : validName name <;> simp [unlink, hn, hl]

theorem rmdir_dir (h : Ready f) (hrun : (rmdir f d name).1 = 0) : f.IsDir d :=
  dir_of_used h name hrun fun c hl => by cases hn : validName name <;> simp [rmdir, hn, hl]

end

theorem SameData.wrap {j : Inode} (h : SameData i j) (hlinks : i.links = j.links) (hfits : j.Fits) :
    SameData i.wrap j ∧ i.wrap.links = j.links ∧ i.wrap.Fits := by
  refine ⟨⟨?_, ?_, ?_, ?_⟩, ?_, ?_⟩
  · change u64 i.inode = j.inode
    rw [h.inode, u64, Nat.mod_eq_of_lt hfits.inode]
  · rw [← h.fmt]
    change u32 i.mode &&& ifmt = i.mode &&& ifmt
    rw [u32, ← Nat.and_two_pow_sub_one_eq_mod, Nat.and_assoc]
    congr 1
  · change u64 i.size = j.size
    rw [h.size, u64, Nat.mod_eq_of_lt hfits.size]
  · rw [Inode.wrap_extents (h.extents ▸ hfits.slots) (h.extents ▸ hfits.extents), h.extents]
  · change u32 i.links = j.links
    rw [hlinks, u32, Nat.mod_eq_of_lt hfits.links]
  · rw [← loadInode_storeInode zeroBuf 0]
    exact loadInode_fits _ _

section

variable {g : Fs} (h : Neat f)

include h

variable {d : Nat} {name : CString}

theorem Neat.bind {c : Call} {t : Nat} (hd : f.IsDir d) (hunused : Unused f d name)
    (hmade : entryMade f c = some (d, ⟨k, t, name.bytes⟩)) (hremoved : nameRemoved c = none)
    (hg : Good g) (hgeo : g.geo = f.geo)
    (hbound : Bound f.geo f.view d ⟨k, t, name.bytes⟩ g.view) : Changed f c g := by
  obtain ⟨⟨n, hname⟩, _, hlook⟩ := hunused
  refine ⟨⟨hg, ?_⟩, hgeo, fun d' e he => ?_, by simp [hremoved]⟩
  · rw [hgeo]
    exact hbound.named h.named (h.good.tree.core.free_of_lookup h.good.ready hname hd hlook)
      (lookable_of_validName hname)
  · cases hmade.symm.trans he
    exact hbound

theorem Neat.unbind {c : Call} (hremoved : nameRemoved c = some (d, name))
    (hmade : entryMade f c = none) (hg : Good g) (hgeo : g.geo = f.geo)
    (hunbound : Unbound f d name g.view) : Changed f c g := by
  refine ⟨⟨hg, ?_⟩, hgeo, by simp [hmade], fun d' name' he => ?_⟩
  · obtain ⟨k, t, -, hbound⟩ := hunbound
    rw [hgeo]
    exact hbound.named_before h.named
  · cases hremoved.symm.trans he
    exact hunbound

theorem Neat.same (hg : Good g) (hgeo : g.geo = f.geo) (hsame : SameEntries f.geo f.view g.view) :
    Neat g := by
  refine ⟨hg, ?_⟩
  rw [hgeo]
  exact hsame.named h.named

theorem Neat.rewrite (hrun : writeInode f k i = (0, g)) (hk : f.Live k)
    (hi : SameData i (f.view.ino k)) (hlinks : i.links = (f.view.ino k).links) :
    Neat g ∧ g.geo = f.geo := by
  have hdo := h.good.ready.writeInode_done hrun
  obtain ⟨hsame, hlinks', hfits⟩ := hi.wrap hlinks (h.good.ready.ino_fits k)
  obtain ⟨htree, hkept⟩ := h.good.tree.setAttrs hk.2.2 hsame hlinks' hfits
  obtain ⟨hg, hgeo, hview⟩ := h.good.after hdo.effects htree
  exact ⟨h.same hg hgeo (hview ▸ hkept), hgeo⟩

theorem Neat.of_setAcl {a : Acl} (hk : f.Live k) (hrun : (setAcl f k a).1 = 0) :
    Neat (setAcl f k a).2 ∧ (setAcl f k a).2.geo = f.geo := by
  rw [setAcl] at hrun ⊢
  split_ifs at hrun ⊢ with hvalid
  · simp at hrun
  cases hread : readInode f k with
  | error c => simp [hread] at hrun
  | ok i =>
  obtain ⟨-, rfl⟩ := h.good.ready.readInode_done hread
  simp only [hread] at hrun ⊢
  exact h.rewrite (Prod.ext hrun rfl) hk ⟨rfl, rfl, rfl, rfl⟩ rfl

theorem Neat.of_clearAcl (hk : f.Live k) (hrun : (clearAcl f k).1 = 0) :
    Neat (clearAcl f k).2 ∧ (clearAcl f k).2.geo = f.geo := by
  rw [clearAcl] at hrun ⊢
  cases hread : readInode f k with
  | error c => simp [hread] at hrun
  | ok i =>
  obtain ⟨-, rfl⟩ := h.good.ready.readInode_done hread
  simp only [hread] at hrun ⊢
  exact h.rewrite (Prod.ext hrun rfl) hk ⟨rfl, rfl, rfl, rfl⟩ rfl

end

theorem Neat.next {g : Fs} (h : Neat f) {c : Call} (hc : Proper f c) (hrun : next f c = some g) :
    Changed f c g := by
  cases c with
  | create d name mode uid gid =>
    obtain ⟨k, hk, rfl⟩ := whenOk_eq_some hrun
    obtain ⟨hg, hgeo, k', hk', hbound⟩ :=
      (h.good.create_bound hc name mode uid gid).good h.good ⟨k, hk⟩
    exact h.bind hc (create_unused hk) (by rw [entryMade, hk']; rfl) rfl hg hgeo hbound
  | mkdir d name mode uid gid =>
    obtain ⟨k, hk, rfl⟩ := whenOk_eq_some hrun
    obtain ⟨hg, hgeo, k', hk', hbound⟩ :=
      (h.good.mkdir_bound hc name mode uid gid).good h.good ⟨k, hk⟩
    exact h.bind hc (mkdir_unused hk) (by rw [entryMade, hk']; rfl) rfl hg hgeo hbound
  | symlink d name target uid gid =>
    obtain ⟨k, hk, rfl⟩ := whenOk_eq_some hrun
    obtain ⟨es, heff, hok, -⟩ := h.good.symlink_bound hc name target uid gid
    obtain ⟨htree, hbound⟩ := hok k hk
    obtain ⟨hg, hgeo, hview⟩ := h.good.after heff htree
    rw [← hview] at hbound
    exact h.bind hc (symlink_unused hk) (by rw [entryMade, hk]; rfl) rfl hg hgeo hbound
  | link source d name type =>
    obtain ⟨hcode, rfl⟩ := whenZero_eq_some hrun
    obtain ⟨hg, hgeo, hbound⟩ := (h.good.link_bound hc.1 hc.2 name).good h.good hcode
    exact h.bind hc.1 (link_unused hcode) rfl rfl hg hgeo hbound
  | unlink d name =>
    obtain ⟨hcode, rfl⟩ := whenZero_eq_some hrun
    obtain ⟨hg, hgeo, hunbound⟩ :=
      (h.good.unlink_bound (unlink_dir h.good.ready hcode) name).good h.good hcode
    exact h.unbind rfl rfl hg hgeo hunbound
  | rmdir d name =>
    obtain ⟨hcode, rfl⟩ := whenZero_eq_some hrun
    obtain ⟨hg, hgeo, hunbound⟩ :=
      (h.good.rmdir_bound (rmdir_dir h.good.ready hcode) name).good h.good hcode
    exact h.unbind rfl rfl hg hgeo hunbound
  | rename oldDir oldName newDir newName replace =>
    by_cases hsame : oldDir = newDir ∧ oldName.bytes = newName.bytes
    · obtain rfl := rename_same (whenZero_eq hrun) hsame
      exact ⟨h, rfl, nofun, nofun⟩
    · obtain ⟨k, t, rep, hout⟩ := h.good.rename_outcome (whenZero_eq hrun) hsame
      exact ⟨⟨hout.good, hout.named h.named⟩, hout.geo, nofun, nofun⟩
  | truncate k n =>
    obtain ⟨hcode, rfl⟩ := whenZero_eq_some hrun
    obtain ⟨hg, hgeo, hsame⟩ :=
      (h.good.truncate_same k hc fun hne => absurd hcode hne).good h.good hcode
    exact ⟨h.same hg hgeo hsame, hgeo, nofun, nofun⟩
  | write k off data size =>
    obtain ⟨-, rfl⟩ := whenZero_eq_some hrun
    obtain ⟨es, heff, htree, hsame⟩ := h.good.write_same hc off data size
    obtain ⟨hg, hgeo, hview⟩ := h.good.after heff htree
    exact ⟨h.same hg hgeo (hview ▸ hsame), hgeo, nofun, nofun⟩
  | setAcl k a =>
    obtain ⟨hcode, rfl⟩ := whenZero_eq_some hrun
    obtain ⟨hneat, hgeo⟩ := h.of_setAcl hc hcode
    exact ⟨hneat, hgeo, nofun, nofun⟩
  | clearAcl k =>
    obtain ⟨hcode, rfl⟩ := whenZero_eq_some hrun
    obtain ⟨hneat, hgeo⟩ := h.of_clearAcl hc hcode
    exact ⟨hneat, hgeo, nofun, nofun⟩
  | writeInode k i =>
    obtain ⟨hk, hi, hlinks⟩ := hc
    obtain ⟨hneat, hgeo⟩ := h.rewrite (whenZero_eq hrun) hk hi hlinks
    exact ⟨hneat, hgeo, nofun, nofun⟩
  | remount metaHint =>
    obtain ⟨-, rfl⟩ := whenZero_eq_some hrun
    obtain ⟨hready, hgeo, hview⟩ := h.good.ready.remount metaHint
    rw [h.good.ready.rixfsMount_eq]
    refine ⟨⟨⟨hready, ?_, ?_⟩, ?_⟩, hgeo, nofun, nofun⟩
    · rw [hgeo, hview]
      exact h.good.tree
    · rw [hgeo]
      exact h.good.bytes
    · rw [hgeo, hview]
      exact h.named

/-! ## Runs -/

/-- The entries that `rixfs_readdir` delivers for each directory; an inode that is no
directory has none. -/
def Lists (f : Fs) (L : Nat → List Entry) : Prop :=
  ∀ j, if f.IsDir j then Enumerates f j 0 (L j) else L j = []

theorem Good.lists (h : Good f) : Lists f (f.view.listing f.geo.ss) := by
  intro j
  split_ifs with hj
  · exact h.tree.core.enumerates h.ready hj
  · exact if_neg hj

section

variable {d : Device} {ic : Nat} (hgeo : FormatGeometry d.sectorSize d.sectorCount ic)
  (haligned : inodeSize ∣ d.sectorSize) (hbytes : d.sectorCount * d.sectorSize ≤ 2 ^ 64)
  {f₀ : Fs} (hstart : Started d ic f₀)

include hgeo haligned hbytes hstart

theorem Started.neat : Neat f₀ := by
  obtain ⟨hready, hss, htot, s, hblank⟩ := hstart.blank hgeo haligned
  refine ⟨⟨hready, hblank.tree hready.on.superOk.inodePos hready.tot_lt, ?_⟩, fun j => ?_,
    fun j e he => ?_⟩
  · rw [hss, htot]
    exact hbytes
  · rw [hblank.listing]
    exact .nil
  · rw [hblank.listing] at he
    cases he

theorem Reaches.neat (hrun : Reaches next Proper f₀ f) : Neat f := by
  induction hrun with
  | refl => exact hstart.neat hgeo haligned hbytes
  | tail _ hproper hstep ih => exact (ih.next hproper hstep).neat

/-- On every image that proper calls reach from a fresh one, the entries of a
directory are a map without duplicate names, which a lookup reads. A call that makes
a name adds the one binding it was asked for, and a call that removes a name takes
away the one binding of that name. -/
theorem directories_are_maps (hrun : Reaches next Proper f₀ f) :
    ∃ L, Lists f L ∧ (∀ j, ((L j).map Entry.name).Nodup) ∧
      (∀ j, f.IsDir j → ∀ name k t,
        lookupName f j name = .ok (k, t) ↔ (⟨k, t, name.bytes⟩ : Entry) ∈ L j) ∧
      ∀ c g, Proper f c → next f c = some g → ∃ L', Lists g L' ∧
        (∀ d e, entryMade f c = some (d, e) → Binds L d e L') ∧
        ∀ d name, nameRemoved c = some (d, name) →
          ∃ e, e.name = name.bytes ∧ Binds L' d e L := by
  have h := Reaches.neat hgeo haligned hbytes hstart hrun
  refine ⟨_, h.good.lists, h.named.unique, fun j hj name k t =>
    h.named.lookupName_iff h.good.ready h.good.tree.core hj name k t, fun c g hproper hstep => ?_⟩
  have hc := h.next hproper hstep
  refine ⟨_, hc.neat.good.lists, fun d e he => ?_, fun d name hname => ?_⟩
  · rw [hc.geo]
    exact (hc.made d e he).binds
  obtain ⟨k, t, -, hbound⟩ := hc.removed d name hname
  rw [hc.geo]
  exact ⟨_, rfl, hbound.binds⟩

/-- On every such image a sector belongs to at most one inode, the bitmap marks exactly the sectors
of inodes, every directory is reached from the root, and any inode but the root has as many entries
as it counts links, a directory one. -/
theorem reached_image_exact (hrun : Reaches next Proper f₀ f) :
    (∀ j k s, s ∈ f.view.blocksOf j → s ∈ f.view.blocksOf k → j = k) ∧
    (∀ s, f.geo.ds ≤ s → s < f.geo.tot →
      (bitGet f s = .ok true ↔ ∃ k, s ∈ f.view.blocksOf k)) ∧
    ∃ L, Lists f L ∧ ∀ k, f.Live k →
      (f.IsDir k → Relation.ReflTransGen (Leads Entry.ino L) f.geo.root k) ∧
      (k ≠ f.geo.root → inDegree Entry.ino (List.range' 1 f.geo.ic) L k =
        if f.IsDir k then 1 else (f.inodeAt k).links) := by
  have h := (Reaches.neat hgeo haligned hbytes hstart hrun).good
  refine ⟨h.tree.core.apart, fun s hlow hs => ?_, _, h.lists, fun k hk =>
    ⟨h.tree.rooted k, (h.tree.linked k hk.2.2).count⟩⟩
  rw [h.ready.bitGet_ok hs, Except.ok.injEq]
  exact h.tree.exact' s hlow hs

end

theorem Started.reaches_oneFile {ic : Nat} (h : Started bareDevice ic (bareImage ic))
    (hgeo : FormatGeometry 512 128 ic) (hruns : OneFileRuns ic) :
    Reaches next Proper (bareImage ic) (oneFile ic) := by
  obtain ⟨-, -, -, s, hblank⟩ := h.blank hgeo (by decide)
  exact hruns.reaches (show (bareImage ic).IsDir 1 from hblank.isDir)

theorem directories_are_maps_oneFile :
    ∃ L, Lists (oneFile 8) L ∧ ∀ j, ((L j).map Entry.name).Nodup := by
  obtain ⟨L, hlists, hnodup, -⟩ := directories_are_maps formatGeometry_fresh (by decide)
    (by decide) oneFileRuns.started
    (oneFileRuns.started.reaches_oneFile formatGeometry_fresh oneFileRuns)
  exact ⟨L, hlists, hnodup⟩

theorem reached_image_exact_oneFile : ∃ k, 21 ∈ (oneFile 8).view.blocksOf k :=
  ((reached_image_exact formatGeometry_fresh (by decide) (by decide) oneFileRuns.started
    (oneFileRuns.started.reaches_oneFile formatGeometry_fresh oneFileRuns)).2.1 21
    (by decide +kernel) (by decide +kernel)).1 (by decide +kernel)

def nameB : CString := ⟨[98], by decide⟩

def twoFiles : Fs := (create (oneFile 8) 1 nameB 0o644 0 0).2

/-- The root directory of `twoFiles` after a write of the letter `a` over the name of
the second file. -/
def renamedByWrite : Fs := (rixfsWrite twoFiles 1 33 (fun _ => 97) 1).2

/-- `rixfs_write` accepts a directory: two of its entries may then have one name. -/
theorem write_duplicates_name :
    ∃ f₀ f l, Started bareDevice 8 f₀ ∧ Reaches next (fun _ _ => True) f₀ f ∧ f.IsDir 1 ∧
      Enumerates f 1 0 l ∧ ¬(l.map Entry.name).Nodup := by
  have hruns : (create (oneFile 8) 1 nameB 0o644 0 0).1 = .ok 3 ∧
      (rixfsWrite twoFiles 1 33 (fun _ => 97) 1).1 = 0 ∧ renamedByWrite.IsDir 1 ∧
      enumerate renamedByWrite 1 3 0 = some [⟨2, dirTypeFile, [97]⟩, ⟨3, dirTypeFile, [97]⟩] := by
    decide +kernel
  obtain ⟨hcreate, hwrite, hdir, hlist⟩ := hruns
  refine ⟨bareImage 8, renamedByWrite, _, oneFileRuns.started, ?_, hdir, enumerate_eq_some hlist,
    by decide⟩
  have htwo : Reaches next (fun _ _ => True) (bareImage 8) twoFiles :=
    (oneFileRuns.reaches trivial).tail trivial (next_create hcreate)
  exact htwo.tail trivial (next_write hwrite)

end RixuriOS.Rixfs
