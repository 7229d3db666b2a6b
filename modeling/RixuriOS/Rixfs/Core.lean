import RixuriOS.Lib.LinkGraph
import RixuriOS.Rixfs.Append

/-!
# What every write keeps

`Core` collects the facts about an image that hold after every single write of
every operation, not only between operations: live inodes are well formed, no
sector belongs to two inodes, directories are chains of records, and every entry
names a live inode with its type. The bitmap and the link counts are not part of
it. For each kind of write there is one lemma that says when it keeps `Core`.
-/

namespace RixuriOS.Rixfs

open ByteCodec CrashStore ExtentList LinkGraph List View

namespace View

def Live (v : View) (k : Nat) : Prop := (v.ino k).inode ≠ 0

def blocksOf (v : View) (k : Nat) : List Nat := blocks (v.ino k).extents

def listing (v : View) (ss k : Nat) : List Entry :=
  if (v.ino k).fmt = ifdir then v.entries ss (v.ino k) else []

structure Valid (v : View) (e : Entry) : Prop where
  fits : e.Fits
  live : v.Live e.ino
  type : e.type = expectedType (v.ino e.ino)

end View

structure Shape (g : Geo) (k : Nat) (i : Inode) : Prop where
  low : 1 ≤ k
  high : k ≤ g.ic
  self : i.inode = k
  fits : i.Fits
  fmt : i.fmt = ifreg ∨ i.fmt = ifdir ∨ i.fmt = iflnk
  area : InArea g i.extents
  nodup : (blocks i.extents).Nodup
  size : i.fmt ≠ ifdir → total i.extents = (i.size + (g.ss - 1)) / g.ss ∧ i.size ≤ 2 ^ 63

structure Core (g : Geo) (v : View) : Prop where
  root : (v.ino g.root).fmt = ifdir
  dead : ∀ k, ¬v.Live k → v.ino k = Inode.zero
  shape : ∀ k, v.Live k → Shape g k (v.ino k)
  apart : ∀ j k s, s ∈ v.blocksOf j → s ∈ v.blocksOf k → j = k
  dir : ∀ k, (v.ino k).fmt = ifdir → DirOk g v (v.ino k)
  valid : ∀ k, ∀ e ∈ v.listing g.ss k, v.Valid e

theorem fmt_zero : Inode.zero.fmt ≠ ifdir := by decide

variable {j k s ss : Nat} {e : Entry}

section

variable {g : Geo} {v : View} (h : Core g v)

include h

theorem Core.live_of_dir (hk : (v.ino k).fmt = ifdir) : v.Live k := by
  intro h0
  rw [h.dead k (fun hl => hl h0)] at hk
  exact fmt_zero hk

theorem Core.live_of_block (hs : s ∈ v.blocksOf k) : v.Live k := by
  intro h0
  rw [View.blocksOf, h.dead k (fun hl => hl h0)] at hs
  simp [Inode.zero, blocks] at hs

theorem Core.isDirectory (hk : (v.ino k).fmt = ifdir) : IsDirectory g v k :=
  have hs := h.shape k (h.live_of_dir hk)
  ⟨hs.low, hs.high, hs.self, hk, h.dir k hk⟩

theorem Core.block_ne (hs : s ∈ v.blocksOf k) (hjk : j ≠ k) : s ∉ v.blocksOf j :=
  fun hj => hjk (h.apart j k s hj hs)

end

theorem mem_blocksOf_of_dirSectors {v : View} (hs : s ∈ dirSectors ss (v.ino k)) :
    s ∈ v.blocksOf k := mem_of_mem_take hs

/-! ## A write to a data sector -/

section

variable {g : Geo} {v : View} {b : Buf}

theorem entries_setData {i : Inode} (hs : s ∉ dirSectors ss i) :
    (v.setData s b).entries ss i = v.entries ss i := by
  refine flatMap_congr fun t ht => ?_
  have hts : t ≠ s := by
    rintro rfl
    exact hs ht
  simp [hts]

theorem dirOk_setData {i : Inode} (hi : DirOk g v i)
    (hs : s ∈ dirSectors g.ss i → Chained g.ss b) : DirOk g (v.setData s b) i := by
  refine ⟨hi.area, hi.size, hi.covers, fun t ht => ?_⟩
  by_cases hts : t = s
  · subst hts
    simpa using hs ht
  · simpa [hts] using hi.chained t ht

theorem listing_setData (hs : s ∉ v.blocksOf k) :
    (v.setData s b).listing ss k = v.listing ss k := by
  have hino : (v.setData s b).ino k = v.ino k := rfl
  rw [View.listing, View.listing, hino, entries_setData fun hm => hs (mem_of_mem_take hm)]

theorem mem_listing :
    e ∈ v.listing ss k ↔ (v.ino k).fmt = ifdir ∧
      ∃ t ∈ dirSectors ss (v.ino k), e ∈ entriesOf ss (v.data t) := by
  rw [View.listing]
  split_ifs with hk
  · simp [View.entries, hk]
  · simp [hk]

/-- A write to a data sector keeps the core if the sector is not a directory
sector, or if it is then a chain of valid entries. -/
theorem Core.setData (h : Core g v)
    (hb : ∀ k, (v.ino k).fmt = ifdir → s ∈ dirSectors g.ss (v.ino k) →
      Chained g.ss b ∧ ∀ e ∈ entriesOf g.ss b, v.Valid e) : Core g (v.setData s b) := by
  refine ⟨h.root, h.dead, h.shape, h.apart,
    fun k hk => dirOk_setData (h.dir k hk) fun hs => (hb k hk hs).1, fun k e he => ?_⟩
  have hvalid : v.Valid e → (v.setData s b).Valid e := fun hv => ⟨hv.fits, hv.live, hv.type⟩
  obtain ⟨hk, t, ht, he⟩ := mem_listing.1 he
  by_cases hts : t = s
  · subst hts
    rw [setData_data_self] at he
    exact hvalid ((hb k hk ht).2 e he)
  · rw [setData_data_ne _ _ _ hts] at he
    exact hvalid (h.valid k e (mem_listing.2 ⟨hk, t, ht, he⟩))

section

variable {d : Nat} (hnd : (v.blocksOf d).Nodup) (hd : (v.ino d).fmt = ifdir)
  (hs : s ∈ dirSectors ss (v.ino d))

include hnd hd hs

theorem listing_setData_add (hperm : (entriesOf ss b).Perm (e :: entriesOf ss (v.data s))) :
    ((v.setData s b).listing ss d).Perm (e :: v.listing ss d) := by
  have hino : (v.setData s b).ino d = v.ino d := rfl
  rw [View.listing, View.listing, hino, if_pos hd, if_pos hd]
  refine perm_flatMap_of_mem (hnd.sublist (take_sublist _ _)) hs (fun t _ hts => ?_) ?_
  · simp [hts]
  · simpa using hperm

theorem listing_setData_remove (hperm : (entriesOf ss (v.data s)).Perm (e :: entriesOf ss b)) :
    (v.listing ss d).Perm (e :: (v.setData s b).listing ss d) := by
  have hino : (v.setData s b).ino d = v.ino d := rfl
  rw [View.listing, View.listing, hino, if_pos hd, if_pos hd]
  refine perm_flatMap_of_mem (hnd.sublist (take_sublist _ _)) hs (fun t _ hts => ?_) ?_
  · simp [hts]
  · simpa using hperm

end

end

/-! ## A write to the bitmap -/

theorem Core.setBit {g : Geo} {v : View} (h : Core g v) (s : Nat) (c : Bool) :
    Core g (v.setBit s c) :=
  ⟨h.root, h.dead, h.shape, h.apart, fun k hk => ⟨(h.dir k hk).area, (h.dir k hk).size,
    (h.dir k hk).covers, (h.dir k hk).chained⟩, fun k e he =>
    ⟨(h.valid k e he).fits, (h.valid k e he).live, (h.valid k e he).type⟩⟩

/-! ## A write to an inode -/

section

variable {g : Geo} {v : View} {i : Inode}

theorem listing_setIno_ne (hj : j ≠ k) : (v.setIno k i).listing ss j = v.listing ss j := by
  rw [View.listing, View.listing, setIno_ino_ne _ _ _ hj]
  rfl

theorem listing_setIno_self :
    (v.setIno k i).listing ss k = if i.fmt = ifdir then v.entries ss i else [] := by
  rw [View.listing, setIno_ino_self]
  rfl

theorem listing_setIno (hi : (if i.fmt = ifdir then v.entries ss i else []) = v.listing ss k)
    (j : Nat) : (v.setIno k i).listing ss j = v.listing ss j := by
  by_cases hj : j = k
  · rw [hj, listing_setIno_self, hi]
  · exact listing_setIno_ne hj

theorem blocksOf_setIno_ne (hj : j ≠ k) : (v.setIno k i).blocksOf j = v.blocksOf j := by
  rw [View.blocksOf, View.blocksOf, setIno_ino_ne _ _ _ hj]

theorem blocksOf_setIno_self : (v.setIno k i).blocksOf k = blocks i.extents := by
  rw [View.blocksOf, setIno_ino_self]

theorem valid_setIno (hi : i.inode ≠ 0) (hfmt : v.Live k → i.fmt = (v.ino k).fmt) (he : v.Valid e) :
    (v.setIno k i).Valid e := by
  refine ⟨he.fits, ?_, ?_⟩
  · by_cases hek : e.ino = k
    · rw [View.Live, hek, setIno_ino_self]
      exact hi
    · rw [View.Live, setIno_ino_ne _ _ _ hek]
      exact he.live
  rw [he.type]
  by_cases hek : e.ino = k
  · have hlive := he.live
    rw [hek] at hlive ⊢
    rw [setIno_ino_self, expectedType, expectedType, hfmt hlive]
  · rw [setIno_ino_ne _ _ _ hek]

/-- Writing a well-formed inode keeps the core, if its kind stays as it was and
its sectors belong to no other inode. -/
theorem Core.setIno (h : Core g v) (hi : Shape g k i)
    (hfmt : v.Live k → i.fmt = (v.ino k).fmt)
    (hapart : ∀ j, j ≠ k → ∀ s ∈ blocks i.extents, s ∉ v.blocksOf j)
    (hdir : i.fmt = ifdir → DirOk g v i ∧ ∀ e ∈ v.entries g.ss i, v.Valid e) :
    Core g (v.setIno k i) := by
  have hpos : i.inode ≠ 0 := by
    have := hi.low
    rw [hi.self]
    omega
  refine ⟨?_, ?_, ?_, ?_, ?_, ?_⟩
  · by_cases hk : g.root = k
    · rw [hk, setIno_ino_self, hfmt, ← hk]
      · exact h.root
      · exact hk ▸ h.live_of_dir h.root
    · rw [setIno_ino_ne _ _ _ hk]
      exact h.root
  · intro j hj
    by_cases hjk : j = k
    · subst hjk
      rw [View.Live, setIno_ino_self] at hj
      exact absurd hpos hj
    rw [View.Live, setIno_ino_ne _ _ _ hjk] at hj
    rw [setIno_ino_ne _ _ _ hjk]
    exact h.dead j hj
  · intro j hj
    by_cases hjk : j = k
    · subst hjk
      rwa [setIno_ino_self]
    rw [View.Live, setIno_ino_ne _ _ _ hjk] at hj
    rw [setIno_ino_ne _ _ _ hjk]
    exact h.shape j hj
  · intro j j' s hs hs'
    by_cases hjk : j = k <;> by_cases hjk' : j' = k
    · rw [hjk, hjk']
    · rw [hjk, blocksOf_setIno_self] at hs
      rw [blocksOf_setIno_ne hjk'] at hs'
      exact absurd hs' (hapart j' hjk' s hs)
    · rw [hjk', blocksOf_setIno_self] at hs'
      rw [blocksOf_setIno_ne hjk] at hs
      exact absurd hs (hapart j hjk s hs')
    rw [blocksOf_setIno_ne hjk] at hs
    rw [blocksOf_setIno_ne hjk'] at hs'
    exact h.apart j j' s hs hs'
  · intro j hj
    by_cases hjk : j = k
    · subst hjk
      rw [setIno_ino_self] at hj ⊢
      have hok := (hdir hj).1
      exact ⟨hok.area, hok.size, hok.covers, hok.chained⟩
    rw [setIno_ino_ne _ _ _ hjk] at hj ⊢
    have hok := h.dir j hj
    exact ⟨hok.area, hok.size, hok.covers, hok.chained⟩
  intro j e he
  apply valid_setIno hpos hfmt
  by_cases hjk : j = k
  · rw [hjk, listing_setIno_self] at he
    split_ifs at he with hd
    · exact (hdir hd).2 e he
    · cases he
  · rw [listing_setIno_ne hjk] at he
    exact h.valid j e he

theorem Core.clearIno (h : Core g v) (hroot : k ≠ g.root)
    (hno : ∀ j, ∀ e ∈ v.listing g.ss j, e.ino ≠ k) : Core g (v.setIno k Inode.zero) := by
  have hzero : blocks Inode.zero.extents = [] := by simp [Inode.zero, blocks]
  have hlisting : ∀ j, ∀ e ∈ (v.setIno k Inode.zero).listing g.ss j, e ∈ v.listing g.ss j := by
    intro j e he
    by_cases hjk : j = k
    · rw [hjk, listing_setIno_self, if_neg fmt_zero] at he
      cases he
    · rwa [listing_setIno_ne hjk] at he
  have hlive : ∀ j, (v.setIno k Inode.zero).Live j → j ≠ k ∧ v.Live j := by
    intro j hj
    have hjk : j ≠ k := by
      rintro rfl
      rw [View.Live, setIno_ino_self] at hj
      exact hj rfl
    rw [View.Live, setIno_ino_ne _ _ _ hjk] at hj
    exact ⟨hjk, hj⟩
  have hblocks : ∀ j, ∀ s ∈ (v.setIno k Inode.zero).blocksOf j, s ∈ v.blocksOf j := by
    intro j s hs
    by_cases hjk : j = k
    · rw [hjk, blocksOf_setIno_self, hzero] at hs
      cases hs
    · rwa [blocksOf_setIno_ne hjk] at hs
  refine ⟨?_, ?_, ?_, fun j j' s hs hs' => h.apart j j' s (hblocks j s hs) (hblocks j' s hs'),
    ?_, ?_⟩
  · rw [setIno_ino_ne _ _ _ (Ne.symm hroot)]
    exact h.root
  · intro j hj
    by_cases hjk : j = k
    · rw [hjk, setIno_ino_self]
    rw [View.Live, setIno_ino_ne _ _ _ hjk] at hj
    rw [setIno_ino_ne _ _ _ hjk]
    exact h.dead j hj
  · intro j hj
    obtain ⟨hjk, hj⟩ := hlive j hj
    rw [setIno_ino_ne _ _ _ hjk]
    exact h.shape j hj
  · intro j hj
    have hjk : j ≠ k := by
      rintro rfl
      rw [setIno_ino_self] at hj
      exact fmt_zero hj
    rw [setIno_ino_ne _ _ _ hjk] at hj ⊢
    have hok := h.dir j hj
    exact ⟨hok.area, hok.size, hok.covers, hok.chained⟩
  intro j e he
  have he := hlisting j e he
  have hek := hno j e he
  have hv := h.valid j e he
  refine ⟨hv.fits, ?_, ?_⟩
  · rw [View.Live, setIno_ino_ne _ _ _ hek]
    exact hv.live
  · rw [setIno_ino_ne _ _ _ hek]
    exact hv.type

end

end RixuriOS.Rixfs
