import RixuriOS.Rixfs.SameReads
import RixuriOS.Rixfs.JournalCrash

/-!
# The regions of an image

The order of the regions that `rixfs_format` lays out: superblock, inode table,
bitmap, journal, data. It places the sector of every inode and of every bitmap
bit, and it separates them from each other and from the file data.
-/

namespace RixuriOS.Rixfs

open ByteCodec CrashStore ExtentList

/-- The regions of a superblock, in the order of `rixfs_format` and without
overlap, with a bitmap that covers the device. -/
structure Regions (ss count : Nat) (sb : Superblock) : Prop where
  tablePos : 0 < sb.inodeTableSector
  tableLe : sb.inodeTableSector + (sb.inodeCount * inodeSize + (ss - 1)) / ss ≤ sb.bitmapSector
  bitmapLe : sb.bitmapSector + sb.bitmapSectors ≤ sb.journalSector
  journalLe : sb.journalSector + sb.journalSectors ≤ sb.dataStartSector
  covers : count ≤ sb.bitmapSectors * ss * 8
  bytes : sb.bitmapSectors * ss < 2 ^ 64

theorem regions_formatSuper {ss count ic : Nat} (h : FormatGeometry ss count ic) :
    Regions ss count (formatSuper ss count ic) := by
  have h1 := h.sectorLow
  have h2 := h.sectorHigh
  have h3 := h.countLt
  have h4 : ic * 128 + ss < 2 ^ 64 := h.inodeBytes
  have htable : formatInodeSectors ss ic = (ic * 128 + (ss - 1)) / ss := by
    rw [formatInodeSectors, inodeSize, u64, Nat.mod_eq_of_lt (by omega),
      Nat.add_sub_assoc (by omega)]
  have hbitmap : formatBitmapSectors ss count = (count + 8 * ss - 1) / (8 * ss) := by
    rw [formatBitmapSectors, u64, Nat.mod_eq_of_lt (by omega)]
  have hlow : count ≤ formatBitmapSectors ss count * (8 * ss) := by
    have hlt := Nat.lt_mul_div_succ (count + 8 * ss - 1) (show 0 < 8 * ss by omega)
    rw [hbitmap, Nat.mul_comm]
    rw [Nat.mul_add, Nat.mul_one] at hlt
    omega
  have hhigh : formatBitmapSectors ss count * (8 * ss) ≤ count + 8 * ss - 1 := by
    rw [hbitmap]
    exact Nat.div_mul_le_self _ _
  have hcomm : formatBitmapSectors ss count * (8 * ss) =
      formatBitmapSectors ss count * ss * 8 := by ring
  refine ⟨?_, ?_, ?_, ?_, ?_, ?_⟩ <;>
    simp only [formatSuper, formatBase, inodeSize, htable, journalTxMaxEntries] at * <;> omega

theorem extentMap_mem {l : List Extent} {pos s : Nat} (h : extentMap l pos = some s) :
    s ∈ blocks l := by
  induction l generalizing pos with
  | nil => cases h
  | cons e l ih =>
    rw [extentMap] at h
    rw [blocks_cons, List.mem_append, List.mem_range'_1]
    split_ifs at h with h1 h2 h3
    · exact Or.inr (ih h)
    · cases h
      exact Or.inl ⟨by omega, by omega⟩
    · exact Or.inr (ih h)

def Fs.slot (f : Fs) (k : Nat) : Nat × Nat :=
  (f.super.inodeTableSector + (k - 1) * inodeSize / f.dev.sectorSize,
    (k - 1) * inodeSize % f.dev.sectorSize)

/-- A mounted image with ordered regions: the setting of all further results. -/
structure Laid (f : Fs) : Prop where
  on : MountedOn f
  regions : Regions f.dev.sectorSize f.dev.sectorCount f.super

section

variable {f : Fs} (h : Laid f)

include h

theorem Laid.superOk : SuperOk f.dev.sectorSize f.dev.sectorCount f.super := h.on.superOk

theorem Laid.mounted : f.mounted = true := h.on.mounted

theorem Laid.total : f.super.totalSectors = f.dev.sectorCount := h.superOk.totalSectors

theorem Laid.count_lt : f.dev.sectorCount < 2 ^ 64 := by
  rw [← h.total, h.on.super]
  exact load_lt _ _ 8

theorem Laid.sectorSize_pos : 0 < f.dev.sectorSize := by
  have := h.on.sectorLow
  omega

theorem Laid.slot_lt {k : Nat} (h1 : 1 ≤ k) (hk : k ≤ f.super.inodeCount) :
    (f.slot k).1 < f.super.bitmapSector := by
  have hss := h.sectorSize_pos
  have ht := h.regions.tableLe
  have hlt : (k - 1) * inodeSize / f.dev.sectorSize <
      (f.super.inodeCount * inodeSize + (f.dev.sectorSize - 1)) / f.dev.sectorSize := by
    have hle : (k - 1) * inodeSize + f.dev.sectorSize ≤
        f.super.inodeCount * inodeSize + (f.dev.sectorSize - 1) := by
      have : (k - 1) * 128 + 128 ≤ f.super.inodeCount * 128 := by omega
      rw [inodeSize]
      omega
    calc (k - 1) * inodeSize / f.dev.sectorSize
        < ((k - 1) * inodeSize + f.dev.sectorSize) / f.dev.sectorSize := by
          rw [Nat.add_div_right _ hss]
          exact Nat.lt_succ_self _
      _ ≤ _ := Nat.div_le_div_right hle
  rw [Fs.slot]
  omega

theorem Laid.inodeLocation_eq (k : Nat) :
    inodeLocation f k =
      if k = 0 ∨ f.super.inodeCount < k then .error (-1)
      else if f.dev.sectorSize < (f.slot k).2 + inodeSize then .error (-2)
      else .ok (f.slot k) := by
  have hm := h.mounted
  rw [inodeLocation]
  simp only [hm, Bool.true_eq_false, false_or]
  by_cases hrange : k = 0 ∨ f.super.inodeCount < k
  · rw [if_pos hrange, if_pos hrange]
  rw [if_neg hrange, if_neg hrange]
  have hx : u64 ((k - 1) * inodeSize) = (k - 1) * inodeSize := by
    have hbytes : f.super.inodeCount * 128 < 2 ^ 64 := h.superOk.inodeBytes
    exact Nat.mod_eq_of_lt (by simp only [inodeSize]; omega)
  have hs : u64 (f.super.inodeTableSector + (k - 1) * inodeSize / f.dev.sectorSize) =
      f.super.inodeTableSector + (k - 1) * inodeSize / f.dev.sectorSize := by
    have hlt : f.super.inodeTableSector + (k - 1) * inodeSize / f.dev.sectorSize <
        f.super.bitmapSector := h.slot_lt (k := k) (by omega) (by omega)
    have hcount := h.count_lt
    have hds := h.superOk.dataLt
    have hbm := h.regions.bitmapLe
    have hj := h.regions.journalLe
    exact Nat.mod_eq_of_lt (by omega)
  rw [hx, hs]
  rfl

end

end RixuriOS.Rixfs
