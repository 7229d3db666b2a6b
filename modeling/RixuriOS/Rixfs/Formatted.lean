import RixuriOS.Rixfs.Making
import RixuriOS.Rixfs.Transaction

/-!
# A fresh image

What `rixfs_format` leaves on the device, as long as its arithmetic does not wrap:
an image that can be mounted, with an empty root directory in one sector of the
data area and no other inode. Mounting an image that has nothing to redo gives
back the view that it was left with.
-/

namespace RixuriOS.Rixfs

open ByteCodec CrashStore ExtentList LinkGraph List

/-! ## Mounting again -/

section

variable {f : Fs} (h : Ready f) (metaHint : Nat)

include h

theorem Ready.agree_mountHandle : Agree f (mountHandle f.dev metaHint) := by
  refine ⟨h.mounted.symm, rfl, rfl, ?_, fun _ _ => rfl⟩
  rw [h.on.super]
  rfl

theorem Ready.rixfsMount_eq : rixfsMount f.dev metaHint = (0, mountHandle f.dev metaHint) := by
  have hjournal : (loadSuper (f.dev.disk 0)).journalSector = f.super.journalSector := by
    rw [h.on.super]
  refine rixfsMount_of_noMagic metaHint h.on.sectorLow h.on.sectorHigh h.on.check ?_
  rw [hjournal]
  exact h.quiet

theorem Ready.remount : Ready (mountHandle f.dev metaHint) ∧
    (mountHandle f.dev metaHint).geo = f.geo ∧ (mountHandle f.dev metaHint).view = f.view :=
  have hagree := h.agree_mountHandle metaHint
  ⟨hagree.ready h h.quiet, hagree.geo, hagree.view h h.quiet⟩

end

/-! ## The steps of formatting -/

variable {d d' : Device} {l : List Nat} {f : Fs} {ic : Nat}

theorem zeroSectors_ok (hl : ∀ s ∈ l, s < d.sectorCount) :
    ∃ d', zeroSectors d l = some d' ∧ d'.sectorSize = d.sectorSize ∧
      d'.sectorCount = d.sectorCount ∧
      ∀ s, d'.disk s = if s ∈ l then zeroBuf else d.disk s := by
  induction l generalizing d with
  | nil => exact ⟨d, rfl, rfl, rfl, by simp⟩
  | cons t l ih =>
    obtain ⟨ht, hl⟩ := forall_mem_cons.1 hl
    obtain ⟨d', hrun, hsize, hcount, hdisk⟩ := ih (d := d.put t zeroBuf) hl
    refine ⟨d', ?_, hsize, hcount, fun s => ?_⟩
    · rw [zeroSectors, Device.wr_of_lt ht]
      exact hrun
    rw [hdisk, Device.put_disk]
    by_cases hst : s = t
    · simp [hst, upd]
    · simp [hst, upd]

theorem Ready.setBits_ok (h : Ready f) (hl : ∀ s ∈ l, s < f.geo.tot) :
    ∃ g, setBits f l = (0, g) ∧ Effects f (setAll true l) g := by
  induction l generalizing f with
  | nil => exact ⟨f, rfl, .nil f⟩
  | cons s l ih =>
    obtain ⟨hs, hl⟩ := forall_mem_cons.1 hl
    obtain ⟨g, hbit, hdo⟩ := h.bit_ok hs true
    obtain ⟨hg, hgeo, -⟩ := hdo.spec h
    obtain ⟨g', hrest, heff⟩ := ih hg (hgeo.symm ▸ hl)
    refine ⟨g', ?_, .cons hdo heff⟩
    rw [setBits, hbit]
    exact hrest

theorem loadInode_zeroBuf (o : Nat) : loadInode zeroBuf o = Inode.zero := by
  simp [loadInode, Inode.zero]

theorem testBit_zero (s : Nat) : testBit 0 s = false := by
  rw [testBit_eq_getLsbD]
  simp

structure Wiped (f : Fs) : Prop where
  ready : Ready f
  root : f.geo.root = 1
  ino : ∀ k, f.view.ino k = Inode.zero
  bit : ∀ s, f.view.bit s = false

/-- The handle on which `rixfs_format` builds the root directory. -/
def formatHandle (d : Device) (sb : Superblock) : Fs :=
  { dev := d, super := sb, mounted := true, metaHint := 0 }

theorem wiped_of_cleared (hgeo : FormatGeometry d.sectorSize d.sectorCount ic)
    (haligned : inodeSize ∣ d.sectorSize) (hsize : d'.sectorSize = d.sectorSize)
    (hcount : d'.sectorCount = d.sectorCount)
    (hsuper : d'.disk 0 = storeSuper (formatSuper d.sectorSize d.sectorCount ic))
    (hzero : ∀ s, 1 ≤ s → s < (formatSuper d.sectorSize d.sectorCount ic).dataStartSector →
      d'.disk s = zeroBuf) :
    Wiped (formatHandle d' (formatSuper d.sectorSize d.sectorCount ic)) := by
  have hregions := regions_formatSuper hgeo
  have hready : Ready (formatHandle d' (formatSuper d.sectorSize d.sectorCount ic)) := by
    refine ⟨⟨⟨rfl, hsize ▸ hgeo.sectorLow, hsize ▸ hgeo.sectorHigh, ?_, ?_⟩, ?_⟩, hsize ▸ haligned,
      ?_⟩
    · rw [← hsize, ← hcount] at hgeo
      have hcheck := checkSuper_format (d := d') hgeo
      rwa [hsize, hcount, ← hsuper] at hcheck
    · have hload : loadSuper (d'.disk 0) = formatSuper d.sectorSize d.sectorCount ic := by
        rw [hsuper, loadSuper_storeSuper, hgeo.wrap_eq]
      rw [formatHandle, hload]
    · change Regions d'.sectorSize d'.sectorCount _
      rw [hsize, hcount]
      exact hregions
    have h1 := hregions.tablePos
    have h2 := le_trans (Nat.le_add_right _ _) hregions.tableLe
    have h3 := hregions.bitmapLe
    have h4 := hregions.journalLe
    have hjs : (formatSuper d.sectorSize d.sectorCount ic).journalSectors = 17 := rfl
    change NoMagic (d'.disk (formatSuper d.sectorSize d.sectorCount ic).journalSector)
    rw [hzero _ (by omega) (by omega)]
    exact noMagic_zeroBuf
  have horder : (formatSuper d.sectorSize d.sectorCount ic).journalSector + 1 <
    (formatSuper d.sectorSize d.sectorCount ic).dataStartSector := hready.order.2.1
  refine ⟨hready, rfl, fun k => ?_, fun s => ?_⟩
  · by_cases hk : 1 ≤ k ∧ k ≤ (formatSuper d.sectorSize d.sectorCount ic).inodeCount
    · have hlt := hready.slot_lt_journal hk.1 hk.2
      have hpos := slot_ne_zero hready.toLaid k
      rw [hready.view_ino hk.1 hk.2]
      have hdisk := hzero _ (Nat.one_le_iff_ne_zero.2 hpos)
        (lt_trans hlt (lt_of_le_of_lt (Nat.le_succ _) horder))
      exact (congrArg (loadInode · _) hdisk).trans (loadInode_zeroBuf _)
    · exact hready.view_ino_outside hk
  by_cases hs : s < d'.sectorCount
  · have hpos := hready.bitmapPos_sector hs
    have hdisk := hzero _ (le_trans hready.superOk.bitmapPos hpos.1)
      (lt_trans hpos.2 (lt_of_le_of_lt (Nat.le_succ _) horder))
    have hbit : Fs.bitOf (formatHandle d' (formatSuper d.sectorSize d.sectorCount ic)) s = false :=
      (congrArg (fun b : Buf => testBit (b _) s) hdisk).trans (testBit_zero s)
    simp only [Fs.view, hbit, Bool.and_false]
  · exact Bool.and_eq_false_imp.2 fun hlt => absurd (of_decide_eq_true hlt) hs

/-! ## The fresh image -/

/-- The view of a fresh image, with the root directory in the sector `s`. -/
structure Blank (g : Geo) (v : View) (s : Nat) : Prop where
  root : g.root = 1
  low : g.ds ≤ s
  high : s < g.tot
  ino : v.ino 1 = rootInodeOf s
  other : ∀ k, k ≠ 1 → v.ino k = Inode.zero
  bit : ∀ t, g.ds ≤ t → (v.bit t = true ↔ t = s)

theorem rootInodeOf_fits {s : Nat} (hs : s < 2 ^ 64) : (rootInodeOf s).Fits := by
  constructor <;> simp [rootInodeOf, Inode.zero, ifdir]
  exact hs

theorem blocks_rootInodeOf (s : Nat) : blocks (rootInodeOf s).extents = [s] := blocks_oneSector s

theorem fmt_rootInodeOf (s : Nat) : (rootInodeOf s).fmt = ifdir := by
  change (ifdir ||| 0o755) &&& ifmt = ifdir
  decide

theorem Wiped.formatTree_ok (h : Wiped f) (hrun : formatTree f = (0, d)) :
    ∃ g s, d = g.dev ∧ Ready g ∧ g.geo = f.geo ∧ Blank g.geo g.view s := by
  have horder := h.ready.order
  obtain ⟨m, hm, hmeff⟩ := h.ready.setBits_ok (l := range f.super.dataStartSector)
    fun s hs => lt_trans (mem_range.1 hs) horder.2.2
  obtain ⟨hmr, hmgeo, hmview⟩ := hmeff.spec h.ready
  rw [after_setAll] at hmview
  rw [formatTree, hm] at hrun
  simp only [ne_eq, not_true_eq_false, if_false] at hrun
  have htakes := hmr.allocSec_takes
  generalize allocSec m = a at htakes hrun
  cases htakes with
  | error heff =>
    rw [Prod.mk.injEq] at hrun
    cases hrun.1
  | @ok s a hs heff =>
  obtain ⟨har, hageo, haview⟩ := heff.spec hmr
  have hic : 1 ≤ a.geo.ic := har.superOk.inodePos
  obtain ⟨w, hwrite, hdo⟩ := har.writeInode_ok le_rfl hic (rootInodeOf s)
  obtain ⟨hwr, hwgeo, hwview⟩ := hdo.spec har
  have hwgeo' : w.geo = f.geo := hwgeo.trans (hageo.trans hmgeo)
  have hlow : f.geo.ds ≤ s := hmgeo ▸ hs.low
  have hhigh : s < f.geo.tot := hmgeo ▸ hs.high
  have hwlow : w.geo.ds ≤ s := hwgeo'.symm ▸ hlow
  have hwhigh : s < w.geo.tot := hwgeo'.symm ▸ hhigh
  obtain ⟨d', hwr', hdo'⟩ := wr_data hwlow hwhigh zeroBuf
  obtain ⟨hg, hggeo, hgview⟩ := hdo'.spec hwr
  simp only [hwrite, not_true_eq_false, if_false, hwr', Prod.mk.injEq, true_and] at hrun
  have hggeo' := hggeo.trans hwgeo'
  refine ⟨_, s, hrun.symm, hg, hggeo', ?_⟩
  have hfits := rootInodeOf_fits (lt_trans hhigh h.ready.tot_lt)
  rw [hggeo', hgview, View.apply_raw, hwview, View.apply_ino _ _ hfits, haview, View.after_cons,
    View.after_nil, View.apply_bit, hmview]
  refine ⟨h.root, hlow, hhigh, ?_, fun k hk => ?_, fun t ht => ?_⟩
  · simp
  · simp [hk, h.ino]
  have hnot : t ∉ range f.super.dataStartSector := fun hm =>
    absurd (mem_range.1 hm) (Nat.not_lt.2 ht)
  by_cases hts : t = s
  · simp [hts]
  · simp [hts, hnot, h.bit]

theorem format_ok (hgeo : FormatGeometry d.sectorSize d.sectorCount ic)
    (haligned : inodeSize ∣ d.sectorSize) (hrun : format d ic = (0, d')) :
    ∃ g s, d' = g.dev ∧ Ready g ∧ g.dev.sectorSize = d.sectorSize ∧
      g.dev.sectorCount = d.sectorCount ∧ Blank g.geo g.view s := by
  rw [format] at hrun
  split_ifs at hrun with hbad
  · cases (Prod.mk.inj hrun).1
  by_cases hroom : d.sectorCount ≤ (formatSuper d.sectorSize d.sectorCount ic).dataStartSector + 1
  · rw [if_pos hroom, Prod.mk.injEq] at hrun
    cases hrun.1
  rw [if_neg hroom] at hrun
  obtain ⟨d₂, hzero, hsize, hcount, hdisk⟩ := zeroSectors_ok
    (d := d.put 0 (storeSuper (formatSuper d.sectorSize d.sectorCount ic)))
    (l := range' 1 ((formatSuper d.sectorSize d.sectorCount ic).dataStartSector - 1))
    fun s hs => by
      rw [mem_range'_1] at hs
      rw [Device.put_sectorCount]
      omega
  rw [Device.wr_of_lt (by omega)] at hrun
  simp only [hzero] at hrun
  have hwiped := wiped_of_cleared hgeo haligned hsize hcount
    (by rw [hdisk, if_neg (by simp), Device.put_disk, upd_same])
    fun s h1 hs => by
      rw [hdisk]
      exact if_pos (mem_range'_1.2 ⟨h1, by omega⟩)
  obtain ⟨g, s, hd, hg, hgeo', hblank⟩ := hwiped.formatTree_ok hrun
  exact ⟨g, s, hd, hg, (congrArg Geo.ss hgeo').trans hsize, (congrArg Geo.tot hgeo').trans hcount,
    hblank⟩

section

variable {g : Geo} {v : View} {s : Nat} (h : Blank g v s)

include h

theorem Blank.isDir : (v.ino 1).fmt = ifdir := by
  rw [h.ino]
  exact fmt_rootInodeOf s

theorem Blank.size : (v.ino 1).size = 0 := by
  rw [h.ino]
  rfl

variable {k : Nat}

theorem Blank.eq_root_of_live (hk : v.Live k) : k = 1 := by
  by_contra hne
  rw [View.Live, h.other k hne] at hk
  exact hk rfl

theorem Blank.eq_root_of_dir (hk : (v.ino k).fmt = ifdir) : k = 1 := by
  by_contra hne
  rw [h.other k hne] at hk
  exact fmt_zero hk

theorem Blank.dirSectors : dirSectors g.ss (v.ino 1) = [] := by
  simp [Rixfs.dirSectors, h.size]

theorem Blank.listing (k : Nat) : v.listing g.ss k = [] := by
  rw [View.listing]
  split_ifs with hk
  · rw [h.eq_root_of_dir hk, View.entries, h.dirSectors]
    rfl
  · rfl

theorem Blank.mem_blocksOf {t : Nat} : t ∈ v.blocksOf k ↔ k = 1 ∧ t = s := by
  by_cases hk : k = 1
  · rw [View.blocksOf, hk, h.ino, blocks_rootInodeOf]
    simp
  · rw [View.blocksOf, h.other k hk]
    simp [Inode.zero, blocks, hk]

theorem Blank.core (hic : 1 ≤ g.ic) (htot : g.tot < 2 ^ 64) : Core g v := by
  have harea : InArea g (v.ino 1).extents := by
    intro t ht
    rw [(h.mem_blocksOf.1 ht).2]
    exact ⟨h.low, h.high⟩
  refine ⟨?_, fun k hk => ?_, fun k hk => ?_, fun j k t hj hk => ?_, fun k hk => ?_,
    fun k e he => ?_⟩
  · rw [h.root]
    exact h.isDir
  · refine h.other k fun hk1 => hk ?_
    rw [View.Live, hk1, h.ino]
    exact one_ne_zero
  · rw [h.eq_root_of_live hk]
    refine ⟨le_rfl, hic, by rw [h.ino]; rfl, ?_, .inr (.inl h.isDir), harea, ?_,
      fun hne => absurd h.isDir hne⟩
    · rw [h.ino]
      exact rootInodeOf_fits (lt_trans h.high htot)
    · rw [h.ino, blocks_rootInodeOf]
      exact nodup_singleton s
  · rw [(h.mem_blocksOf.1 hj).1, (h.mem_blocksOf.1 hk).1]
  · rw [h.eq_root_of_dir hk]
    refine ⟨harea, by rw [h.size, Nat.zero_div, Nat.zero_mul], .inr ⟨h.size, ?_⟩, ?_⟩
    · rw [← length_blocks, h.ino, blocks_rootInodeOf]
      rfl
    · rw [h.dirSectors]
      simp
  · rw [h.listing] at he
    cases he

theorem Blank.tree (hic : 1 ≤ g.ic) (htot : g.tot < 2 ^ 64) : Tree g v := by
  refine ⟨h.core hic htot, fun t h1 _ => ?_, fun k hk => ?_, fun k hk => ?_⟩
  · rw [h.bit t h1]
    simp only [h.mem_blocksOf, exists_eq_left]
  · rw [h.eq_root_of_live hk]
    exact ⟨fun hne => absurd h.root.symm hne, fun hne => absurd h.isDir hne⟩
  · rw [h.eq_root_of_dir hk, ← h.root]
    exact .refl

end

end RixuriOS.Rixfs
