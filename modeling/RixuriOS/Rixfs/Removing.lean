import RixuriOS.Rixfs.Making

/-!
# Operations that remove an entry

`rixfs_unlink` and `rixfs_rmdir` on an image with the tree invariant. Both free
the sectors of the inode while it is still live, so that the bitmap is ahead of
the inode table for a while; `Core` holds throughout.
-/

namespace RixuriOS.Rixfs

open ByteCodec CrashStore ExtentList LinkGraph List

variable {d : Nat} {f : Fs}

def View.without (v : View) (it : Item) : View :=
  v.setData it.sec (clear (v.data it.sec) it.record.off 8)

variable {g : Geo} {v : View} {e : Entry} {k : Nat}

theorem Core.clearRecord (hc : Core g v) (hd : (v.ino d).fmt = ifdir) {s : Nat}
    (hs : s ∈ dirSectors g.ss (v.ino d)) {r : Rec} (hr : r ∈ records (v.data s) g.ss g.ss 0)
    (he : r.toEntry = some e) :
    Core g (v.setData s (clear (v.data s) r.off 8)) ∧
      Removed g v d e (v.setData s (clear (v.data s) r.off 8)) := by
  have hsd := mem_blocksOf_of_dirSectors hs
  obtain ⟨hchained, hperm⟩ := entriesOf_clear ((hc.dir d hd).chained s hs) hr he
  have hnd := (hc.shape d (hc.live_of_dir hd)).nodup
  constructor
  · refine hc.setData fun k hk hks => ⟨hchained, fun x hx => ?_⟩
    have hkd := hc.apart k d s (mem_blocksOf_of_dirSectors hks) hsd
    rw [hkd] at hk hks
    exact hc.valid d x (mem_listing.2 ⟨hk, s, hks, hperm.mem_iff.2 (mem_cons_of_mem _ hx)⟩)
  · exact ⟨rfl, rfl, listing_setData_remove hnd hd hs hperm,
      fun j hj => listing_setData (hc.block_ne hsd hj)⟩

section

variable (h : Ready f) (hc : Core f.geo f.view) (hd : (f.view.ino d).fmt = ifdir)

include h hc hd

variable {it : Item} {name : CString} {n : Nat}

theorem Core.remove (hit : it ∈ f.view.items f.geo.ss (f.view.ino d))
    (he : it.record.toEntry = some e) :
    Core f.geo (f.view.without it) ∧ Removed f.geo f.view d e (f.view.without it) :=
  have hplace := (hc.isDirectory hd).item_place h hit
  hc.clearRecord hd hplace.1 hplace.2.2.2 he

theorem Core.lookup_found (hname : validName name = some n) {t : Nat}
    (hlook : lookupName f d name = .ok (k, t)) :
    ∃ it, (f.view.items f.geo.ss (f.view.ino d)).find? (Item.named name.bytes) = some it ∧
      it ∈ f.view.items f.geo.ss (f.view.ino d) ∧
      it.record.toEntry = some ⟨k, t, name.bytes⟩ ∧
      (⟨k, t, name.bytes⟩ : Entry) ∈ f.view.listing f.geo.ss d := by
  rw [(hc.isDirectory hd).lookupName_eq h (nameValid_of_validName hname)] at hlook
  cases hfind : (f.view.items f.geo.ss (f.view.ino d)).find? (Item.named name.bytes) with
  | none => simp [hfind] at hlook
  | some it =>
  rw [hfind, Except.ok.injEq, Prod.mk.injEq] at hlook
  have hmem := mem_of_find?_eq_some hfind
  have hnamed := find?_some hfind
  rw [Item.named, decide_eq_true_eq, ne_eq] at hnamed
  have hentry : it.record.toEntry = some ⟨k, t, name.bytes⟩ := by
    rw [Rec.toEntry, if_neg hnamed.1, hlook.1, hlook.2, hnamed.2]
  refine ⟨it, rfl, hmem, hentry, ?_⟩
  rw [View.listing, if_pos hd, View.entries_eq]
  exact mem_filterMap.2 ⟨it, hmem, hentry⟩

theorem Core.removeName_ok (hname : validName name = some n)
    (hfind : (f.view.items f.geo.ss (f.view.ino d)).find? (Item.named name.bytes) = some it) :
    ∃ g, removeName f d name = (0, g) ∧
      Does f (.raw it.sec (clear (f.view.data it.sec) it.record.off 8)) g := by
  have hdir := hc.isDirectory hd
  rw [hdir.removeName_eq h (nameValid_of_validName hname), hfind]
  exact hdir.clearEntry_ok h (mem_of_find?_eq_some hfind)

end

theorem Core.always_setAll (h : Core g v) (c : Bool) (l : List Nat) :
    Always (Core g) v (setAll c l) := by
  induction l generalizing v with
  | nil => exact h
  | cons s l ih => exact ⟨h, ih (h.setBit s c)⟩

/-- The name refers to an inode that has other names, or that has no sectors. -/
def KeepsData (f : Fs) (d : Nat) (name : CString) : Prop :=
  ∀ k t, lookupName f d name = .ok (k, t) →
    1 < (f.view.ino k).links ∨ f.view.blocksOf k = []

/-- The view lacks the entry that a lookup of the name has found. -/
def Unbound (f : Fs) (d : Nat) (name : CString) (v : View) : Prop :=
  ∃ k t, lookupName f d name = .ok (k, t) ∧ Bound f.geo v d ⟨k, t, name.bytes⟩ f.view

theorem Good.unlink_bound (h : Good f) (hd : (f.view.ino d).fmt = ifdir) (name : CString) :
    AttemptTo f (KeepsData f d name) ((unlink f d name).1 = 0) (Unbound f d name)
      (unlink f d name).2 := by
  have hc := h.tree.core
  rw [unlink]
  cases hname : validName name with
  | none => exact .refused h (by simp)
  | some n =>
  cases hlook : lookupName f d name with
  | error c => exact .refused h (by simp)
  | ok r =>
  obtain ⟨k, t⟩ := r
  simp only []
  split
  · exact .refused h (by simp)
  rename_i hroot
  obtain ⟨it, hfind, hit, hentry, hmem⟩ := hc.lookup_found h.ready hd hname hlook
  have hlive : f.view.Live k := (hc.valid d _ hmem).live
  have hshape := hc.shape k hlive
  rw [h.ready.readInode_ok hshape.low hshape.high]
  simp only []
  split
  · exact .refused h (by simp)
  rename_i hdir
  obtain ⟨r, hremove, hdo⟩ := hc.removeName_ok h.ready hd hname hfind
  obtain ⟨hr, hgeo, hview⟩ := hdo.spec h.ready
  obtain ⟨hcore, hremoved⟩ := hc.remove h.ready hd hit hentry
  have hleaf : f.view.listing f.geo.ss k = [] := if_neg hdir
  have hbut : TreeBut f.geo (f.view.without it) k := hremoved.treeBut h.tree hcore hd hleaf
  have hcount := hremoved.linkCount hcore hd k
  rw [if_pos rfl, (h.tree.linked k hlive).count hroot, if_neg hdir] at hcount
  simp only [hremove, ne_eq, not_true_eq_false, if_false]
  split
  · rename_i hlinks
    obtain ⟨i, hi⟩ : ∃ i, i = { f.view.ino k with links := (f.view.ino k).links - 1 } := ⟨_, rfl⟩
    obtain ⟨hfits, htree⟩ := hbut.dropLink hlive hdir hcount.symm hlinks hi
    obtain ⟨g, hwrite, hdo'⟩ := hdo.effects.writeInode_ok h.ready hshape.low hshape.high i
    rw [← hi, hwrite]
    have hkept : SameEntries f.geo ((f.view.without it).setIno k i) (f.view.without it) := by
      have hback := sameEntries_setFile_back (g := f.geo) (v := f.view.without it) (c := true)
        (l := []) hdir (by rw [hi]; rfl : i.fmt = (f.view.ino k).fmt)
      rwa [View.mark_nil] at hback
    rw [← View.apply_ino _ _ hfits] at htree hkept
    have hsafe : Safe f.geo (f.view.without it) := ⟨hcore, h.tree.safe.covered⟩
    exact .of_safe (.cons hdo hdo'.effects) ⟨h.tree.safe, hsafe, htree.safe⟩
      (fun _ => ⟨htree, k, t, hlook, hkept.bound hremoved.bound⟩) fun hno => absurd rfl hno
  rename_i hlinks
  obtain ⟨c, hfree, heff⟩ := hr.freeInodeData_ok (i := f.view.ino k) (hgeo ▸ hshape.area)
  obtain ⟨g, hwrite, hdo'⟩ := (Effects.cons hdo heff).writeInode_ok h.ready hshape.low hshape.high
    Inode.zero
  have hleaf' : (f.view.without it).listing f.geo.ss k = [] := if_neg hdir
  have htree := hbut.clearIno hroot (by omega) hleaf'
  have hkept := sameEntries_clearIno (l := (f.view.without it).blocksOf k) hleaf'
  have hafter : ((f.view.without it).after (setAll false (f.view.blocksOf k))).apply
      (.ino k Inode.zero) =
      ((f.view.without it).mark false ((f.view.without it).blocksOf k)).setIno k Inode.zero := by
    rw [after_setAll, View.apply_ino _ _ zero_fits]
    rfl
  rw [← hafter] at htree hkept
  simp only [hfree, hwrite, not_true_eq_false, if_false]
  refine ⟨_, .cons hdo (heff.append hdo'.effects), And.intro hc ?_, fun hkeep => ?_, fun _ => ?_,
    fun hno => absurd trivial hno⟩
  · refine (hcore.always_setAll false _).append (And.intro ?_ htree.core)
    rw [after_setAll]
    exact hcore.mark _ _
  · have hnil : f.view.blocksOf k = [] := (hkeep k t hlook).resolve_left hlinks
    have hnil' : blocks (f.view.ino k).extents = [] := hnil
    rw [hnil] at htree
    rw [hnil']
    exact ⟨h.tree.safe, ⟨hcore, h.tree.safe.covered⟩, htree.safe⟩
  · rw [View.after_cons, View.after_append]
    exact ⟨htree, k, t, hlook, hkept.bound hremoved.bound⟩

/-! ## Removing a directory -/

theorem Core.listing_of_empty (h : Ready f) (hc : Core f.geo f.view)
    (hk : (f.view.ino k).fmt = ifdir) (hempty : directoryEmpty f k = 0) :
    f.view.listing f.geo.ss k = [] := by
  have hdir := hc.isDirectory hk
  rw [directoryEmpty, hdir.readdir_eq h (hdir.reads h)] at hempty
  cases hfind : (f.view.items f.geo.ss (f.view.ino k)).find? Item.inUse with
  | some it => simp [hfind] at hempty
  | none =>
  rw [View.listing, if_pos hk, View.entries_eq, filterMap_eq_nil_iff]
  intro it hit
  have hnot := find?_eq_none.1 hfind it hit
  rw [Item.inUse, decide_eq_true_eq, ne_eq, not_not] at hnot
  exact if_pos hnot

theorem Good.rmdir_bound (h : Good f) (hd : (f.view.ino d).fmt = ifdir) (name : CString) :
    AttemptTo f ((rmdir f d name).1 ≠ 0) ((rmdir f d name).1 = 0) (Unbound f d name)
      (rmdir f d name).2 := by
  have hc := h.tree.core
  rw [rmdir]
  cases hname : validName name with
  | none => exact .refused h (by simp)
  | some n =>
  cases hlook : lookupName f d name with
  | error c => exact .refused h (by simp)
  | ok r =>
  obtain ⟨k, t⟩ := r
  simp only []
  split
  · exact .refused h (by simp)
  rename_i hroot
  obtain ⟨it, hfind, hit, hentry, hmem⟩ := hc.lookup_found h.ready hd hname hlook
  have hlive : f.view.Live k := (hc.valid d _ hmem).live
  have hshape := hc.shape k hlive
  rw [h.ready.readInode_ok hshape.low hshape.high]
  simp only []
  split
  · exact .refused h (by simp)
  rename_i hdir
  split
  · exact .refused h (by simp)
  rename_i hempty
  rw [not_not] at hdir hempty
  have hleaf := hc.listing_of_empty h.ready hdir hempty
  obtain ⟨c, hfree, heff⟩ := h.ready.freeInodeData_ok (i := f.view.ino k) hshape.area
  obtain ⟨hcr, hgeo, hview⟩ := heff.spec h.ready
  rw [after_setAll] at hview
  have hcc : Core c.geo c.view := by
    rw [hgeo, hview]
    exact hc.mark _ _
  -- the removal reads inodes and directory sectors, which are as before
  have hino : c.view.ino = f.view.ino := by rw [hview]; rfl
  have hdata : c.view.data = f.view.data := by rw [hview]; rfl
  have hitems : c.view.items c.geo.ss (c.view.ino d) = f.view.items f.geo.ss (f.view.ino d) := by
    rw [hgeo, hino, View.items, View.items, hdata]
  obtain ⟨r, hremove, hdo⟩ := hcc.removeName_ok hcr (hino.symm ▸ hd) hname (hitems.symm ▸ hfind)
  obtain ⟨g, hwrite, hdo'⟩ := (heff.append hdo.effects).writeInode_ok h.ready hshape.low
    hshape.high Inode.zero
  obtain ⟨hcore, hremoved⟩ := hc.remove h.ready hd hit hentry
  have hbut : TreeBut f.geo (f.view.without it) k := hremoved.treeBut h.tree hcore hd hleaf
  have hcount := hremoved.linkCount hcore hd k
  rw [if_pos rfl, (h.tree.linked k hlive).count hroot, if_pos hdir] at hcount
  have hleaf' : (f.view.without it).listing f.geo.ss k = [] := by
    have hkd : k ≠ d := by
      rintro rfl
      rw [hleaf] at hmem
      cases hmem
    rw [hremoved.other k hkd, hleaf]
  have htree := hbut.clearIno hroot (by omega) hleaf'
  have hkept := sameEntries_clearIno (l := (f.view.without it).blocksOf k) hleaf'
  have hafter : ((f.view.after (setAll false (f.view.blocksOf k))).apply
      (.raw it.sec (clear (c.view.data it.sec) it.record.off 8))).apply (.ino k Inode.zero) =
      ((f.view.without it).mark false ((f.view.without it).blocksOf k)).setIno k Inode.zero := by
    rw [after_setAll, View.apply_ino _ _ zero_fits, hdata]
    rfl
  rw [← hafter] at htree hkept
  simp only [hfree, hremove, hwrite, ne_eq, not_true_eq_false, if_false]
  refine ⟨_, heff.append (.cons hdo hdo'.effects), ?_, False.elim, fun _ => ?_,
    fun hno => absurd trivial hno⟩
  · refine (hc.always_setAll false _).append (And.intro ?_ (And.intro ?_ htree.core))
    · rw [after_setAll]
      exact hc.mark _ _
    · rw [after_setAll, hdata]
      exact hcore.mark false (blocks (f.view.ino k).extents)
  · rw [View.after_append]
    exact ⟨htree, k, t, hlook, hkept.bound hremoved.bound⟩

end RixuriOS.Rixfs
