import RixuriOS.Rixfs.Geometry

/-!
# The regions that a mount accepts

The mount looks at each region of the superblock on its own: the inode table,
the bitmap and the journal start after sector 0, and the sectors it computes for
them end before the data. It compares no region with another except for the
first sectors of journal and bitmap, it does not relate the length of the bitmap
to the device, and the sum that rounds the inode table up can wrap. The regions
are apart when the superblock passes the comparisons that are left out.
-/

namespace RixuriOS.Rixfs

open ByteCodec CrashStore

namespace Superblock

def tableSectors (sb : Superblock) : Nat :=
  (sb.inodeCount * inodeSize + (sb.sectorSize - 1)) / sb.sectorSize

def tableRegion (sb : Superblock) : Set Nat :=
  Set.Ico sb.inodeTableSector (sb.inodeTableSector + sb.tableSectors)

def bitmapRegion (sb : Superblock) : Set Nat :=
  Set.Ico sb.bitmapSector (sb.bitmapSector + sb.bitmapSectors)

def journalRegion (sb : Superblock) : Set Nat :=
  Set.Ico sb.journalSector (sb.journalSector + sb.journalSectors)

def bitSector (sb : Superblock) (s : Nat) : Nat := sb.bitmapSector + s / 8 / sb.sectorSize

def layout (sb : Superblock) : Nat × Nat × Nat × Nat × Nat × Nat :=
  (sb.inodeTableSector, sb.bitmapSector, sb.bitmapSectors, sb.journalSector, sb.journalSectors,
    sb.dataStartSector)

structure RegionsApart (sb : Superblock) : Prop where
  tableBitmap : Disjoint sb.tableRegion sb.bitmapRegion
  tableJournal : Disjoint sb.tableRegion sb.journalRegion
  bitmapJournal : Disjoint sb.bitmapRegion sb.journalRegion
  superFree : 0 ∉ sb.tableRegion ∪ sb.bitmapRegion ∪ sb.journalRegion
  beforeData : sb.tableRegion ∪ sb.bitmapRegion ∪ sb.journalRegion ⊆ Set.Iio sb.dataStartSector
  covers : ∀ s < sb.totalSectors, sb.bitSector s ∈ sb.bitmapRegion

/-- The comparisons of the fields that `rixfs_mount` does not make. -/
structure Spaced (sb : Superblock) : Prop where
  tableBitmap : sb.inodeTableSector + sb.tableSectors ≤ sb.bitmapSector ∨
    sb.bitmapSector + sb.bitmapSectors ≤ sb.inodeTableSector
  tableJournal : sb.inodeTableSector + sb.tableSectors ≤ sb.journalSector ∨
    sb.journalSector + sb.journalSectors ≤ sb.inodeTableSector
  bitmapJournal : sb.bitmapSector + sb.bitmapSectors ≤ sb.journalSector
  tableData : sb.inodeTableSector + sb.tableSectors ≤ sb.dataStartSector
  covers : sb.totalSectors ≤ sb.bitmapSectors * (8 * sb.sectorSize)

variable {sb : Superblock}

theorem covers_iff (hss : 0 < sb.sectorSize) :
    (∀ s < sb.totalSectors, sb.bitSector s ∈ sb.bitmapRegion) ↔
      sb.totalSectors ≤ sb.bitmapSectors * (8 * sb.sectorSize) := by
  have hbit (s : Nat) : sb.bitSector s ∈ sb.bitmapRegion ↔
      s < sb.bitmapSectors * (8 * sb.sectorSize) := by
    rw [bitSector, bitmapRegion, Set.mem_Ico, Nat.div_div_eq_div_mul, Nat.add_lt_add_iff_left,
      Nat.div_lt_iff_lt_mul (by omega)]
    exact and_iff_right (Nat.le_add_right _ _)
  simp only [hbit]
  constructor
  · intro h
    by_contra hlt
    exact absurd (h _ (Nat.lt_of_not_le hlt)) (Nat.lt_irrefl _)
  · exact fun h s hs => hs.trans_le h

theorem regionsApart_iff {ss count : Nat} (h : SuperOk ss count sb) (hss : 0 < ss) :
    sb.RegionsApart ↔ sb.Spaced := by
  have hpos : 0 < sb.tableSectors := by
    have := h.inodePos
    rw [tableSectors, h.sectorSize, inodeSize]
    exact Nat.div_pos (by omega) hss
  have hsize : 0 < sb.sectorSize := h.sectorSize ▸ hss
  obtain ⟨-, -, htable, -, -, -, -, hbitmap, hbits, hbitmapLe, hge, htwo, hjournalLe, -, -⟩ := h
  constructor
  · rintro ⟨h1, h2, h3, -, h5, h6⟩
    rw [tableRegion, bitmapRegion, Set.Ico_disjoint_Ico] at h1
    rw [tableRegion, journalRegion, Set.Ico_disjoint_Ico] at h2
    rw [bitmapRegion, journalRegion, Set.Ico_disjoint_Ico] at h3
    have hlast : sb.inodeTableSector + (sb.tableSectors - 1) ∈ sb.tableRegion :=
      Set.mem_Ico.2 ⟨Nat.le_add_right _ _, by omega⟩
    have hdata := Set.mem_Iio.1 (h5 (.inl (.inl hlast)))
    exact ⟨by omega, by omega, by omega, by omega, (covers_iff hsize).1 h6⟩
  · rintro ⟨h1, h2, h3, h4, h5⟩
    refine ⟨?_, ?_, ?_, ?_, ?_, (covers_iff hsize).2 h5⟩
    · rw [tableRegion, bitmapRegion, Set.Ico_disjoint_Ico]
      omega
    · rw [tableRegion, journalRegion, Set.Ico_disjoint_Ico]
      omega
    · rw [bitmapRegion, journalRegion, Set.Ico_disjoint_Ico]
      omega
    · simp only [tableRegion, bitmapRegion, journalRegion, Set.mem_union, Set.mem_Ico]
      omega
    · intro t
      simp only [tableRegion, bitmapRegion, journalRegion, Set.mem_union, Set.mem_Ico, Set.mem_Iio]
      omega

end Superblock

/-- For every device that `rixfs_mount` accepts the regions are apart if and only if the
superblock passes the comparisons that the mount leaves out. -/
theorem mount_regions_apart {d : Device} {metaHint : Nat}
    (hmount : (rixfsMount d metaHint).1 = 0) :
    (rixfsMount d metaHint).2.super.RegionsApart ↔ (loadSuper (d.disk 0)).Spaced := by
  have heq : rixfsMount d metaHint = (0, (rixfsMount d metaHint).2) := by rw [← hmount]
  obtain ⟨hlow, -, hcheck, -⟩ := of_rixfsMount heq
  rw [rixfsMount_super heq]
  exact Superblock.regionsApart_iff (superOk_of_check hcheck) (by omega)

theorem mount_regions_apart_fresh : (rixfsMount freshDevice 0).2.super.RegionsApart := by
  have hsuper : (loadSuper (freshDevice.disk 0)) = formatSuper 512 128 8 := freshDevice_super 0
  refine (mount_regions_apart (by decide +kernel)).2 ?_
  rw [hsuper]
  exact ⟨.inl (by decide), .inl (by decide), by decide, by decide, by decide⟩

/-- A superblock of 8192 sectors that places table, bitmap and journal at sector 1
and has a single sector of bitmap. -/
def stackedBase : Superblock :=
  { formatBase 512 8192 8 with
    bitmapSector := 1
    bitmapSectors := 1
    journalSector := 1
    journalSectors := 2
    dataStartSector := 3 }

def stackedImage : Device where
  sectorSize := 512
  sectorCount := 8192
  disk := upd (fun _ => zeroBuf) 0
    (storeSuper { stackedBase with checksum := hash64 (storeSuper stackedBase) superSize })
  log := []

/-- The mount accepts the stacked regions: the first sector of the table is the
first sector of bitmap and journal, and the sectors from 4096 on have no bit. -/
theorem mount_accepts_stacked_regions :
    (rixfsMount stackedImage 0).1 = 0 ∧
      1 ∈ (rixfsMount stackedImage 0).2.super.tableRegion ∧
      1 ∈ (rixfsMount stackedImage 0).2.super.bitmapRegion ∧
      1 ∈ (rixfsMount stackedImage 0).2.super.journalRegion ∧
      4096 < (rixfsMount stackedImage 0).2.super.totalSectors ∧
      (rixfsMount stackedImage 0).2.super.bitSector 4096 ∉
        (rixfsMount stackedImage 0).2.super.bitmapRegion ∧
      ¬(rixfsMount stackedImage 0).2.super.RegionsApart := by
  have hmount : (rixfsMount stackedImage 0).1 = 0 := by decide +kernel
  have hsuper : ((rixfsMount stackedImage 0).2.super.layout,
      (rixfsMount stackedImage 0).2.super.inodeCount, (rixfsMount stackedImage 0).2.super.sectorSize,
      (rixfsMount stackedImage 0).2.super.totalSectors) =
      ((1, 1, 1, 1, 2, 3), 8, 512, 8192) := by decide +kernel
  generalize (rixfsMount stackedImage 0).2.super = sb at *
  simp only [Superblock.layout, Prod.mk.injEq] at hsuper
  obtain ⟨⟨e1, e2, e3, e4, e5, e6⟩, e7, e8, e9⟩ := hsuper
  have htable : 1 ∈ sb.tableRegion := by
    simp [Superblock.tableRegion, Superblock.tableSectors, e1, e7, e8, inodeSize]
  have hbitmap : 1 ∈ sb.bitmapRegion := by simp [Superblock.bitmapRegion, e2, e3]
  refine ⟨hmount, htable, hbitmap, by simp [Superblock.journalRegion, e4, e5], by omega, ?_, ?_⟩
  · simp [Superblock.bitSector, Superblock.bitmapRegion, e2, e3, e8]
  · exact fun h => Set.disjoint_left.1 h.tableBitmap htable hbitmap

end RixuriOS.Rixfs
