import RixuriOS.Lib.KeyedLists
import RixuriOS.Rixfs.Enter

/-!
# The tree between operations

`Tree` is the invariant that holds between operations: on top of `Core`, the
bitmap marks exactly the sectors of the inodes, the link counts are the numbers of
entries, and every directory can be reached from the root. Inside an operation one
inode may be out of balance; `TreeBut x` leaves out what concerns the links of `x`.
-/

namespace RixuriOS.Rixfs

open ByteCodec CrashStore ExtentList LinkGraph KeyedLists List

variable {ns l : List Nat} {c : Bool}

def View.linkCount (v : View) (g : Geo) (k : Nat) : Nat :=
  inDegree Entry.ino (range' 1 g.ic) (v.listing g.ss) k

def Exact (g : Geo) (v : View) : Prop :=
  ∀ s, g.ds ≤ s → s < g.tot → (v.bit s = true ↔ ∃ k, s ∈ v.blocksOf k)

/-- The links of the inode `k` are in balance: a directory has one entry, and any
other inode has as many as it counts. -/
structure Linked (g : Geo) (v : View) (k : Nat) : Prop where
  count : k ≠ g.root → v.linkCount g k = if (v.ino k).fmt = ifdir then 1 else (v.ino k).links
  pos : (v.ino k).fmt ≠ ifdir → 1 ≤ (v.ino k).links

def Rooted (g : Geo) (v : View) (k : Nat) : Prop :=
  Relation.ReflTransGen (Leads Entry.ino (v.listing g.ss)) g.root k

/-- The invariant apart from the links of the inode `x`. -/
structure TreeBut (g : Geo) (v : View) (x : Nat) : Prop where
  core : Core g v
  exact' : Exact g v
  linked : ∀ k, v.Live k → k ≠ x → Linked g v k
  rooted : ∀ k, (v.ino k).fmt = ifdir → k ≠ x → Rooted g v k

structure Tree (g : Geo) (v : View) : Prop where
  core : Core g v
  exact' : Exact g v
  linked : ∀ k, v.Live k → Linked g v k
  rooted : ∀ k, (v.ino k).fmt = ifdir → Rooted g v k

variable {g : Geo} {v : View} {x : Nat}

theorem Tree.but (h : Tree g v) (x : Nat) : TreeBut g v x :=
  ⟨h.core, h.exact', fun k hk _ => h.linked k hk, fun k hk _ => h.rooted k hk⟩

theorem TreeBut.tree (h : TreeBut g v x) (hlinked : v.Live x → Linked g v x)
    (hrooted : (v.ino x).fmt = ifdir → Rooted g v x) : Tree g v := by
  refine ⟨h.core, h.exact', fun k hk => ?_, fun k hk => ?_⟩
  · by_cases hkx : k = x
    · exact hkx ▸ hlinked (hkx ▸ hk)
    · exact h.linked k hk hkx
  by_cases hkx : k = x
  · exact hkx ▸ hrooted (hkx ▸ hk)
  · exact h.rooted k hk hkx

theorem TreeBut.safe (h : TreeBut g v x) : Safe g v := by
  refine ⟨h.core, fun k s hs => ?_⟩
  have harea := (h.core.shape k (h.core.live_of_block hs)).area s hs
  exact (h.exact' s harea.1 harea.2).2 ⟨k, hs⟩

theorem Tree.safe (h : Tree g v) : Safe g v := (h.but g.root).safe

/-! ## What the parts depend on -/

section

variable {v' : View}

theorem linkCount_congr (h : ∀ d, v'.listing g.ss d = v.listing g.ss d) (k : Nat) :
    v'.linkCount g k = v.linkCount g k := inDegree_congr (fun d _ => h d) k

variable {k : Nat}

theorem rooted_congr (h : ∀ d, v'.listing g.ss d = v.listing g.ss d) (hk : Rooted g v k) :
    Rooted g v' k := reach_mono hk fun d e he => by rwa [h d]

/-- The balance of an inode after a change that keeps its kind, its count and the
number of its entries. -/
theorem Linked.congr (h : Linked g v k) (hcount : v'.linkCount g k = v.linkCount g k)
    (hfmt : (v'.ino k).fmt = (v.ino k).fmt) (hlinks : (v'.ino k).links = (v.ino k).links) :
    Linked g v' k := by
  refine ⟨fun hk => ?_, fun hk => ?_⟩
  · rw [hcount, hfmt, hlinks]
    exact h.count hk
  · rw [hlinks]
    exact h.pos (hfmt ▸ hk)

theorem mem_inodes {g : Geo} (h1 : 1 ≤ k) (hk : k ≤ g.ic) :
    k ∈ range' 1 g.ic := mem_range'_1.2 ⟨h1, by omega⟩

theorem Core.dir_mem (h : Core g v) {d : Nat} (hd : (v.ino d).fmt = ifdir) : d ∈ range' 1 g.ic :=
  mem_inodes (h.isDirectory hd).low (h.isDirectory hd).high

theorem Core.linkCount_dead (h : Core g v) (hk : ¬v.Live k) : v.linkCount g k = 0 := by
  rw [View.linkCount, inDegree_eq_zero_iff]
  rintro d - ⟨e, he, rfl⟩
  exact hk (h.valid d e he).live

theorem Core.not_named (h : Core g v) (hk : v.linkCount g k = 0) :
    ∀ d, ∀ e ∈ v.listing g.ss d, e.ino ≠ k := by
  intro d e he hek
  rw [View.linkCount, inDegree_eq_zero_iff] at hk
  have hd := (mem_listing.1 he).1
  exact hk d (h.dir_mem hd) ⟨e, he, hek⟩

end

/-! ## Adding and removing an entry -/

section

variable {v' : View} {d : Nat} {e : Entry}

theorem linkCount_insert (h : Core g v) (hd : (v.ino d).fmt = ifdir)
    (hperm : (v'.listing g.ss d).Perm (e :: v.listing g.ss d))
    (hother : ∀ j, j ≠ d → v'.listing g.ss j = v.listing g.ss j) (k : Nat) :
    v'.linkCount g k = v.linkCount g k + if e.ino = k then 1 else 0 :=
  inDegree_insert nodup_range' (h.dir_mem hd) hperm (fun j _ hj => hother j hj) k

section

variable (h : Entered g v d e v')

include h

namespace Entered

theorem linkCount (hc : Core g v) (hd : (v.ino d).fmt = ifdir) (k : Nat) :
    v'.linkCount g k = v.linkCount g k + if e.ino = k then 1 else 0 :=
  linkCount_insert hc hd h.listing h.otherListing k

theorem subset (j : Nat) : ∀ a ∈ v.listing g.ss j, a ∈ v'.listing g.ss j := by
  intro a ha
  by_cases hj : j = d
  · rw [hj] at ha ⊢
    exact h.listing.mem_iff.2 (mem_cons_of_mem _ ha)
  · rwa [h.otherListing j hj]

theorem fmt (j : Nat) : (v'.ino j).fmt = (v.ino j).fmt := by
  by_cases hj : j = d
  · obtain ⟨l, n, hl⟩ := h.dir
    rw [hj, hl, Inode.resize_fmt]
  · rw [h.otherIno j hj]

theorem links (j : Nat) : (v'.ino j).links = (v.ino j).links := by
  by_cases hj : j = d
  · obtain ⟨l, n, hl⟩ := h.dir
    rw [hj, hl, Inode.resize_links]
  · rw [h.otherIno j hj]

theorem live (j : Nat) : v'.Live j ↔ v.Live j := by
  unfold View.Live
  by_cases hj : j = d
  · obtain ⟨l, n, hl⟩ := h.dir
    rw [hj, hl, Inode.resize_inode]
  · rw [h.otherIno j hj]

theorem exact' (hx : Exact g v) : Exact g v' := by
  intro s h1 h2
  obtain ⟨ns, hperm, hfree, hbit⟩ := h.blocks
  have hother : ∀ k, k ≠ d → v'.blocksOf k = v.blocksOf k := fun k hk => by
    rw [View.blocksOf, View.blocksOf, h.otherIno k hk]
  rw [hbit, Bool.or_eq_true, decide_eq_true_eq, hx s h1 h2]
  constructor
  · rintro (⟨k, hk⟩ | hs)
    · by_cases hkd : k = d
      · exact ⟨d, hperm.mem_iff.2 (mem_append_right _ (hkd ▸ hk))⟩
      · exact ⟨k, (hother k hkd).symm ▸ hk⟩
    · exact ⟨d, hperm.mem_iff.2 (mem_append_left _ hs)⟩
  rintro ⟨k, hk⟩
  by_cases hkd : k = d
  · rw [hkd] at hk
    rcases mem_append.1 (hperm.mem_iff.1 hk) with hs | hs
    · exact .inr hs
    · exact .inl ⟨d, hs⟩
  · exact .inl ⟨k, hother k hkd ▸ hk⟩

theorem treeBut (ht : TreeBut g v x) (hc : Core g v') (hd : (v.ino d).fmt = ifdir)
    (hx : e.ino = x) : TreeBut g v' x := by
  refine ⟨hc, h.exact' ht.exact', fun k hk hkx => ?_, fun k hk hkx => ?_⟩
  · refine (ht.linked k ((h.live k).1 hk) hkx).congr ?_ (h.fmt k) (h.links k)
    rw [h.linkCount ht.core hd, hx, if_neg (Ne.symm hkx), Nat.add_zero]
  · exact reach_mono (ht.rooted k (h.fmt k ▸ hk) hkx) h.subset

theorem rooted (hd : Rooted g v d) : Rooted g v' e.ino :=
  (reach_mono hd h.subset).tail ⟨e, h.listing.mem_iff.2 mem_cons_self, rfl⟩

end Entered

end

end

/-- The view after the entry `e` has been taken out of the directory `d`. -/
structure Removed (g : Geo) (v : View) (d : Nat) (e : Entry) (v' : View) : Prop where
  ino : v'.ino = v.ino
  bit : v'.bit = v.bit
  listing : (v.listing g.ss d).Perm (e :: v'.listing g.ss d)
  other : ∀ j, j ≠ d → v'.listing g.ss j = v.listing g.ss j

section

variable {v' : View} {d : Nat} {e : Entry}

theorem Removed.linkCount (h : Removed g v d e v') (hc : Core g v') (hd : (v.ino d).fmt = ifdir)
    (k : Nat) : v.linkCount g k = v'.linkCount g k + if e.ino = k then 1 else 0 :=
  linkCount_insert hc (h.ino.symm ▸ hd) h.listing (fun j hj => (h.other j hj).symm) k

theorem Removed.subset (h : Removed g v d e v') (j : Nat) :
    ∀ a ∈ v.listing g.ss j, a.ino ≠ e.ino → a ∈ v'.listing g.ss j := by
  intro a ha hne
  by_cases hj : j = d
  · rw [hj] at ha ⊢
    rcases mem_cons.1 (h.listing.mem_iff.1 ha) with rfl | ha
    · exact absurd rfl hne
    · exact ha
  · rwa [h.other j hj]

/-- Removing an entry for an inode without entries of its own keeps everything
else in balance. -/
theorem Removed.treeBut (h : Removed g v d e v') (ht : Tree g v) (hc : Core g v')
    (hd : (v.ino d).fmt = ifdir) (hleaf : v.listing g.ss e.ino = []) : TreeBut g v' e.ino := by
  refine ⟨hc, fun s h1 h2 => ?_, fun k hk hke => ?_, fun k hk hke => ?_⟩
  · simp only [View.blocksOf, h.ino, h.bit]
    exact ht.exact' s h1 h2
  · rw [View.Live, h.ino] at hk
    refine (ht.linked k hk).congr ?_ (by rw [h.ino]) (by rw [h.ino])
    have hcount := h.linkCount hc hd k
    rw [if_neg (Ne.symm hke), Nat.add_zero] at hcount
    exact hcount.symm
  · rw [h.ino] at hk
    exact reach_of_leaf (ht.rooted k hk) hleaf h.subset hke

end

/-! ## The entries as a whole -/

/-- The entries are the same, and the directories of `v` are directories of `v'`. -/
structure SameEntries (g : Geo) (v v' : View) : Prop where
  listing : ∀ j, v'.listing g.ss j = v.listing g.ss j
  dirs : ∀ j, (v.ino j).fmt = ifdir → (v'.ino j).fmt = ifdir

/-- The entry `e` of the directory `d` has come in, and the directories of `v` are
directories of `v'`. -/
structure Bound (g : Geo) (v : View) (d : Nat) (e : Entry) (v' : View) : Prop where
  binds : Binds (v.listing g.ss) d e (v'.listing g.ss)
  dirs : ∀ j, (v.ino j).fmt = ifdir → (v'.ino j).fmt = ifdir

section

variable {v' v'' : View} {d : Nat} {e : Entry}

theorem SameEntries.trans (h : SameEntries g v v') (h' : SameEntries g v' v'') :
    SameEntries g v v'' :=
  ⟨fun j => (h'.listing j).trans (h.listing j), fun j hj => h'.dirs j (h.dirs j hj)⟩

theorem SameEntries.bound (h : SameEntries g v v') (h' : Bound g v' d e v'') :
    Bound g v d e v'' := by
  have hsame : v'.listing g.ss = v.listing g.ss := funext h.listing
  exact ⟨hsame ▸ h'.binds, fun j hj => h'.dirs j (h.dirs j hj)⟩

theorem Bound.same (h : Bound g v d e v') (h' : SameEntries g v' v'') : Bound g v d e v'' := by
  have hsame : v''.listing g.ss = v'.listing g.ss := funext h'.listing
  exact ⟨hsame.symm ▸ h.binds, fun j hj => h'.dirs j (h.dirs j hj)⟩

theorem Entered.bound (h : Entered g v d e v') : Bound g v d e v' :=
  ⟨⟨h.listing, h.otherListing⟩, fun j hj => (h.fmt j).trans hj⟩

theorem Removed.bound (h : Removed g v d e v') : Bound g v' d e v :=
  ⟨⟨h.listing, fun j hj => (h.other j hj).symm⟩, fun j hj => by rwa [h.ino] at hj⟩

end

/-! ## Making, changing and clearing an inode -/

section

variable {k : Nat} {i : Inode}

@[simp] theorem View.mark_bit (v : View) (c : Bool) (l : List Nat) (s : Nat) :
    (v.mark c l).bit s = if s ∈ l then c else v.bit s := rfl

theorem Core.mark (h : Core g v) (c : Bool) (l : List Nat) : Core g (v.mark c l) := by
  rw [← after_setAll]
  induction l generalizing v with
  | nil => exact h
  | cons s l ih => exact ih (h.setBit s c)

theorem Core.sameEntries_newIno (h : Core g v) (hk : ¬v.Live k)
    (hdir : i.fmt = ifdir → i.size = 0) : SameEntries g v ((v.mark true ns).setIno k i) := by
  have hnot : (v.ino k).fmt ≠ ifdir := fun hd => hk (h.live_of_dir hd)
  refine ⟨fun j => listing_setIno (v := v.mark true ns) ?_ j, fun j hj => ?_⟩
  · rw [View.listing, View.mark_ino, if_neg hnot]
    split_ifs with hd
    · simp [View.entries, dirSectors, hdir hd]
    · rfl
  have hjk : j ≠ k := by
    rintro rfl
    exact hnot hj
  rwa [View.setIno_ino_ne _ _ _ hjk]

theorem sameEntries_clearIno (hleaf : v.listing g.ss k = []) :
    SameEntries g ((v.mark false l).setIno k Inode.zero) v := by
  refine ⟨fun j => (listing_setIno (v := v.mark false l) ?_ j).symm, fun j hj => ?_⟩
  · rw [if_neg fmt_zero]
    exact hleaf.symm
  by_cases hjk : j = k
  · rw [hjk, View.setIno_ino_self] at hj
    exact absurd hj fmt_zero
  · rwa [View.setIno_ino_ne _ _ _ hjk] at hj

theorem sameEntries_setFile (hfile : (v.ino k).fmt ≠ ifdir) (hfmt : i.fmt = (v.ino k).fmt) :
    SameEntries g v ((v.mark c l).setIno k i) := by
  refine ⟨fun j => listing_setIno (v := v.mark c l) ?_ j, fun j hj => ?_⟩
  · rw [View.listing, View.mark_ino, hfmt, if_neg hfile, if_neg hfile]
  have hjk : j ≠ k := by
    rintro rfl
    exact hfile hj
  rwa [View.setIno_ino_ne _ _ _ hjk]

theorem sameEntries_setFile_back (hfile : (v.ino k).fmt ≠ ifdir) (hfmt : i.fmt = (v.ino k).fmt) :
    SameEntries g ((v.mark c l).setIno k i) v := by
  refine ⟨fun j => ((sameEntries_setFile hfile hfmt).listing j).symm, fun j hj => ?_⟩
  by_cases hjk : j = k
  · rw [hjk, View.setIno_ino_self, hfmt] at hj
    exact absurd hj hfile
  · rwa [View.setIno_ino_ne _ _ _ hjk] at hj

theorem Tree.newIno (h : Tree g v) (hk : ¬v.Live k) (hi : Shape g k i) (hns : ∀ s ∈ ns, Free g v s)
    (hblocks : (blocks i.extents).Perm ns)
    (hdir : i.fmt = ifdir → i.size = 0 ∧ total i.extents = 1) :
    TreeBut g ((v.mark true ns).setIno k i) k ∧
      ((v.mark true ns).setIno k i).linkCount g k = 0 := by
  have hfresh : ∀ s ∈ blocks i.extents, ∀ j, s ∉ v.blocksOf j := fun s hs j =>
    h.safe.not_mem_of_free (hns s (hblocks.mem_iff.1 hs)) j
  have hempty : i.fmt = ifdir → (v.mark true ns).entries g.ss i = [] := fun hd => by
    simp [View.entries, dirSectors, (hdir hd).1]
  have hcore : Core g ((v.mark true ns).setIno k i) := by
    refine (h.core.mark true ns).setIno hi (fun hl => absurd hl hk) (fun j _ s hs => hfresh s hs j)
      fun hd => ⟨⟨hi.area, ?_, .inr (hdir hd), ?_⟩, ?_⟩
    · rw [(hdir hd).1, Nat.zero_div, Nat.zero_mul]
    · intro s hs
      simp [dirSectors, (hdir hd).1] at hs
    · simp [hempty hd]
  have hkept : SameEntries g v ((v.mark true ns).setIno k i) :=
    h.core.sameEntries_newIno hk fun hd => (hdir hd).1
  have hlisting := hkept.listing
  refine ⟨⟨hcore, fun s h1 h2 => ?_, fun j hj hjk => ?_, fun j hj hjk => ?_⟩, ?_⟩
  · have hbit : ((v.mark true ns).setIno k i).bit s = if s ∈ ns then true else v.bit s := rfl
    rw [hbit]
    split_ifs with hs
    · refine iff_of_true rfl ⟨k, ?_⟩
      rw [blocksOf_setIno_self]
      exact hblocks.mem_iff.2 hs
    rw [h.exact' s h1 h2]
    constructor
    · rintro ⟨j, hj⟩
      have hjk : j ≠ k := fun hjk => hk (hjk ▸ h.core.live_of_block hj)
      exact ⟨j, by rw [blocksOf_setIno_ne hjk]; exact hj⟩
    rintro ⟨j, hj⟩
    by_cases hjk : j = k
    · rw [hjk, blocksOf_setIno_self] at hj
      exact absurd (hblocks.mem_iff.1 hj) hs
    · rw [blocksOf_setIno_ne hjk] at hj
      exact ⟨j, hj⟩
  · rw [View.Live, View.setIno_ino_ne _ _ _ hjk] at hj
    exact (h.linked j hj).congr (linkCount_congr hlisting j)
      (by rw [View.setIno_ino_ne _ _ _ hjk]; rfl) (by rw [View.setIno_ino_ne _ _ _ hjk]; rfl)
  · rw [View.setIno_ino_ne _ _ _ hjk] at hj
    exact rooted_congr hlisting (h.rooted j hj)
  · rw [linkCount_congr hlisting]
    exact h.core.linkCount_dead hk

structure SameData (i j : Inode) : Prop where
  inode : i.inode = j.inode
  fmt : i.fmt = j.fmt
  size : i.size = j.size
  extents : i.extents = j.extents

theorem TreeBut.setAttrs (h : TreeBut g v k) (hk : v.Live k) (hi : SameData i (v.ino k))
    (hfits : i.Fits) : TreeBut g (v.setIno k i) k ∧ SameEntries g v (v.setIno k i) := by
  have hshape := h.core.shape k hk
  have hnew : Shape g k i := by
    refine ⟨hshape.low, hshape.high, hi.inode.trans hshape.self, hfits, hi.fmt ▸ hshape.fmt,
      hi.extents ▸ hshape.area, hi.extents ▸ hshape.nodup, fun hne => ?_⟩
    rw [hi.extents, hi.size]
    exact hshape.size (hi.fmt ▸ hne)
  have hsec : dirSectors g.ss i = dirSectors g.ss (v.ino k) := by
    rw [dirSectors, hi.extents, hi.size]
    rfl
  have hent : v.entries g.ss i = v.entries g.ss (v.ino k) := by rw [View.entries, hsec]; rfl
  have hcore : Core g (v.setIno k i) := by
    refine h.core.setIno hnew (fun _ => hi.fmt) (fun j hj s hs => ?_) fun hd => ⟨?_, ?_⟩
    · rw [hi.extents] at hs
      exact h.core.block_ne hs hj
    · obtain ⟨h1, h2, h3, h4⟩ := h.core.dir k (hi.fmt ▸ hd)
      exact ⟨hi.extents ▸ h1, hi.size ▸ h2, by rw [hi.size, hi.extents]; exact h3, hsec ▸ h4⟩
    intro e he
    refine h.core.valid k e ?_
    rw [View.listing, if_pos (hi.fmt ▸ hd), ← hent]
    exact he
  have hlisting : ∀ j, (v.setIno k i).listing g.ss j = v.listing g.ss j :=
    listing_setIno (by rw [View.listing, hi.fmt, hent])
  have hblocks : ∀ j, (v.setIno k i).blocksOf j = v.blocksOf j := by
    intro j
    by_cases hj : j = k
    · rw [hj, blocksOf_setIno_self, hi.extents]
      rfl
    · exact blocksOf_setIno_ne hj
  refine ⟨⟨hcore, fun s h1 h2 => ?_, fun j hj hjk => ?_, fun j hj hjk => ?_⟩, hlisting,
    fun j hj => ?_⟩
  · simp only [hblocks]
    exact h.exact' s h1 h2
  · rw [View.Live, View.setIno_ino_ne _ _ _ hjk] at hj
    exact (h.linked j hj hjk).congr (linkCount_congr hlisting j)
      (by rw [View.setIno_ino_ne _ _ _ hjk]) (by rw [View.setIno_ino_ne _ _ _ hjk])
  · rw [View.setIno_ino_ne _ _ _ hjk] at hj
    exact rooted_congr hlisting (h.rooted j hj hjk)
  by_cases hjk : j = k
  · rw [hjk] at hj ⊢
    rw [View.setIno_ino_self, hi.fmt]
    exact hj
  · rwa [View.setIno_ino_ne _ _ _ hjk]

theorem Tree.setAttrs (h : Tree g v) (hk : v.Live k) (hi : SameData i (v.ino k))
    (hlinks : i.links = (v.ino k).links) (hfits : i.Fits) :
    Tree g (v.setIno k i) ∧ SameEntries g v (v.setIno k i) := by
  obtain ⟨hbut, hsame⟩ := (h.but k).setAttrs hk hi hfits
  refine ⟨hbut.tree (fun _ => ?_) fun hd => ?_, hsame⟩
  · refine (h.linked k hk).congr (linkCount_congr hsame.listing k) ?_ ?_
    · rw [View.setIno_ino_self, hi.fmt]
    · rw [View.setIno_ino_self, hlinks]
  · rw [View.setIno_ino_self, hi.fmt] at hd
    exact rooted_congr hsame.listing (h.rooted k hd)

theorem TreeBut.setLinks (h : TreeBut g v k) (hk : v.Live k) {n : Nat} (hn : n < 2 ^ 32)
    (hi : i = { v.ino k with links := n }) :
    i.Fits ∧ TreeBut g (v.setIno k i) k ∧ (v.setIno k i).linkCount g k = v.linkCount g k := by
  have hfits : i.Fits := by
    obtain ⟨h1, h2, h3, h4, h5, h6, h7, h8, h9, h10, h11, h12, h13, h14, h15⟩ :=
      (h.core.shape k hk).fits
    rw [hi]
    exact ⟨h1, h2, h3, h4, h5, h6, h7, h8, h9, hn, h11, h12, h13, h14, h15⟩
  obtain ⟨hbut, hsame⟩ := h.setAttrs hk (i := i) (by rw [hi]; exact ⟨rfl, rfl, rfl, rfl⟩) hfits
  exact ⟨hfits, hbut, linkCount_congr hsame.listing k⟩

theorem TreeBut.dropLink (h : TreeBut g v k) (hk : v.Live k) (hfile : (v.ino k).fmt ≠ ifdir)
    (hcount : v.linkCount g k + 1 = (v.ino k).links) (hlinks : 1 < (v.ino k).links)
    (hi : i = { v.ino k with links := (v.ino k).links - 1 }) :
    i.Fits ∧ Tree g (v.setIno k i) := by
  have hmax := (h.core.shape k hk).fits.links
  obtain ⟨hfits, hbut, hsame⟩ := h.setLinks hk (n := (v.ino k).links - 1) (by omega) hi
  refine ⟨hfits, hbut.tree (fun _ => ⟨fun _ => ?_, fun _ => ?_⟩) fun hd => ?_⟩
  · rw [hsame, View.setIno_ino_self, hi]
    refine Eq.trans ?_ (if_neg hfile).symm
    change v.linkCount g k = (v.ino k).links - 1
    omega
  · rw [View.setIno_ino_self, hi]
    change 1 ≤ (v.ino k).links - 1
    omega
  · rw [View.setIno_ino_self, hi] at hd
    exact absurd hd hfile

theorem TreeBut.clearIno (h : TreeBut g v k) (hroot : k ≠ g.root) (hcount : v.linkCount g k = 0)
    (hleaf : v.listing g.ss k = []) :
    Tree g ((v.mark false (v.blocksOf k)).setIno k Inode.zero) := by
  have hzero : blocks Inode.zero.extents = [] := by simp [Inode.zero, blocks]
  have hcore : Core g ((v.mark false (v.blocksOf k)).setIno k Inode.zero) :=
    (h.core.mark false _).clearIno hroot (h.core.not_named hcount)
  have hlisting := fun j => ((sameEntries_clearIno (l := v.blocksOf k) hleaf).listing j).symm
  refine ⟨hcore, fun s h1 h2 => ?_, fun j hj => ?_, fun j hj => ?_⟩
  · have hbit : ((v.mark false (v.blocksOf k)).setIno k Inode.zero).bit s =
        if s ∈ v.blocksOf k then false else v.bit s := rfl
    have hblocks : ∀ j, s ∈ ((v.mark false (v.blocksOf k)).setIno k Inode.zero).blocksOf j ↔
        j ≠ k ∧ s ∈ v.blocksOf j := by
      intro j
      by_cases hj : j = k
      · rw [hj, blocksOf_setIno_self, hzero]
        simp
      · rw [blocksOf_setIno_ne hj]
        exact ⟨fun hs => ⟨hj, hs⟩, fun hs => hs.2⟩
    rw [hbit]
    simp only [hblocks]
    split_ifs with hs
    · refine iff_of_false (by simp) ?_
      rintro ⟨j, hj, hsj⟩
      exact h.core.block_ne hs hj hsj
    rw [h.exact' s h1 h2]
    constructor
    · rintro ⟨j, hj⟩
      exact ⟨j, fun hjk => hs (hjk ▸ hj), hj⟩
    · rintro ⟨j, -, hj⟩
      exact ⟨j, hj⟩
  · have hjk : j ≠ k := by
      rintro rfl
      rw [View.Live, View.setIno_ino_self] at hj
      exact hj rfl
    rw [View.Live, View.setIno_ino_ne _ _ _ hjk] at hj
    exact (h.linked j hj hjk).congr (linkCount_congr hlisting j)
      (by rw [View.setIno_ino_ne _ _ _ hjk]; rfl) (by rw [View.setIno_ino_ne _ _ _ hjk]; rfl)
  have hjk : j ≠ k := by
    rintro rfl
    rw [View.setIno_ino_self] at hj
    exact fmt_zero hj
  rw [View.setIno_ino_ne _ _ _ hjk] at hj
  exact rooted_congr hlisting (h.rooted j hj hjk)

theorem Tree.resize (h : Tree g v) (hfile : (v.ino k).fmt ≠ ifdir) {l : List Extent} {n : Nat}
    (hi : i = (v.ino k).resize l n) (hnew : Shape g k i)
    (hapart : ∀ j, j ≠ k → ∀ s ∈ blocks l, s ∉ v.blocksOf j)
    (hbits : ∀ s, g.ds ≤ s → s < g.tot → ((v.mark c ns).bit s = true ↔ s ∈ blocks l ∨ ∃ j, j ≠ k ∧ s ∈ v.blocksOf j)) :
    Tree g ((v.mark c ns).setIno k i) := by
  have hfmt : i.fmt = (v.ino k).fmt := by rw [hi, Inode.resize_fmt]
  have hcore : Core g ((v.mark c ns).setIno k i) := by
    refine (h.core.mark c ns).setIno hnew (fun _ => hfmt) (fun j hj s hs => ?_) fun hd => ?_
    · rw [hi] at hs
      exact hapart j hj s hs
    · exact absurd (hfmt ▸ hd) hfile
  have hlisting := (sameEntries_setFile (g := g) (c := c) (l := ns) hfile hfmt).listing
  have hino : ∀ j, (((v.mark c ns).setIno k i).ino j).fmt = (v.ino j).fmt ∧
      (((v.mark c ns).setIno k i).ino j).links = (v.ino j).links ∧
      (((v.mark c ns).setIno k i).ino j).inode = (v.ino j).inode := by
    intro j
    by_cases hj : j = k
    · rw [hj, View.setIno_ino_self, hi]
      exact ⟨rfl, rfl, rfl⟩
    · rw [View.setIno_ino_ne _ _ _ hj]
      exact ⟨rfl, rfl, rfl⟩
  refine ⟨hcore, fun s h1 h2 => ?_, fun j hj => ?_, fun j hj => ?_⟩
  · refine (hbits s h1 h2).trans ⟨?_, ?_⟩
    · rintro (hs | ⟨j, hj, hs⟩)
      · refine ⟨k, ?_⟩
        rw [blocksOf_setIno_self, hi]
        exact hs
      refine ⟨j, ?_⟩
      rw [blocksOf_setIno_ne hj]
      exact hs
    rintro ⟨j, hs⟩
    by_cases hj : j = k
    · rw [hj, blocksOf_setIno_self, hi] at hs
      exact .inl hs
    · rw [blocksOf_setIno_ne hj] at hs
      exact .inr ⟨j, hj, hs⟩
  · rw [View.Live, (hino j).2.2] at hj
    exact (h.linked j hj).congr (linkCount_congr hlisting j) (hino j).1 (hino j).2.1
  · rw [(hino j).1] at hj
    exact rooted_congr hlisting (h.rooted j hj)

theorem TreeBut.setData {s : Nat} {b : Buf} (h : TreeBut g v x) (hs : s ∈ v.blocksOf k)
    (hfile : (v.ino k).fmt ≠ ifdir) :
    TreeBut g (v.setData s b) x ∧ ∀ j, (v.setData s b).listing g.ss j = v.listing g.ss j := by
  have hnot : ∀ j, (v.ino j).fmt = ifdir → s ∉ v.blocksOf j := by
    intro j hj hsj
    rw [h.core.apart j k s hsj hs] at hj
    exact hfile hj
  have hcore : Core g (v.setData s b) :=
    h.core.setData fun j hj hjs => absurd (mem_blocksOf_of_dirSectors hjs) (hnot j hj)
  have hlisting : ∀ j, (v.setData s b).listing g.ss j = v.listing g.ss j := by
    intro j
    by_cases hj : (v.ino j).fmt = ifdir
    · exact listing_setData (hnot j hj)
    · rw [View.listing, View.listing, View.setData_ino, if_neg hj, if_neg hj]
  exact ⟨⟨hcore, h.exact', fun j hj hjx => (h.linked j hj hjx).congr
    (linkCount_congr hlisting j) rfl rfl, fun j hj hjx => rooted_congr hlisting
    (h.rooted j hj hjx)⟩, hlisting⟩

end

end RixuriOS.Rixfs
