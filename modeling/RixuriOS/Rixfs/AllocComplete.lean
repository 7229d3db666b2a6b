import RixuriOS.Rixfs.AllocSpec

/-!
# The allocators find every free sector

`alloc_sec`, `alloc_sec_near` and `alloc_sec_top` look at the sectors of the data
area in three orders, but each of them ends with a scan of the whole area. So they
fail only when nothing is free, and otherwise they set one bit.
-/

namespace RixuriOS.Rixfs

open ByteCodec CrashStore ExtentList List

/-- The result of an allocator: a sector of the data area whose bit was clear and is
now set, with every other bit as before, or a failure with every sector of the data
area allocated. -/
def Allocates (f : Fs) (r : Except Int Nat × Fs) : Prop :=
  match r.1 with
  | .ok s => f.super.dataStartSector ≤ s ∧ s < f.super.totalSectors ∧
      bitGet f s = .ok false ∧ bitGet r.2 s = .ok true ∧
      ∀ t, t ≠ s → bitGet r.2 t = bitGet f t
  | .error _ => ∀ s, f.super.dataStartSector ≤ s → s < f.super.totalSectors →
      bitGet f s = .ok true

theorem bitGet_hinted (f : Fs) (free metaHint s : Nat) :
    bitGet (f.hinted free metaHint) s = bitGet f s := rfl

theorem Allocates.of_hinted {f : Fs} (free : Nat) {metaHint : Nat} {r : Except Int Nat × Fs}
    (h : Allocates (f.hinted free metaHint) r) : Allocates f r := h

section

variable {f : Fs} (h : Mapped f)

include h

theorem Mapped.hinted (free metaHint : Nat) : Mapped (f.hinted free metaHint) := by
  refine ⟨⟨h.on.mounted, h.on.sectorLow, h.on.sectorHigh, h.on.check, ?_⟩, h.bitmapLe, h.covers⟩
  have hsuper := h.on.super
  rw [Fs.hinted]
  rw [hsuper]

variable {s : Nat} {l : List Nat}

theorem Mapped.bit_set (hs : s < f.dev.sectorCount) :
    ∃ g, bit f s true = (0, g) ∧ bitGet g s = .ok true ∧
      ∀ t, t ≠ s → bitGet g t = bitGet f t := by
  have hpos := h.bitmapPos_lt hs
  have htot := h.on.superOk.totalSectors
  have hmap := h.on.superOk.bitmapLe
  have hbitmap := h.bitmapLe
  have hdata := h.on.superOk.dataLt
  have hout : ¬f.super.inJournal (bitmapPos f s).1 := by
    rintro ⟨hge, -⟩
    omega
  set b := putBit (f.dev.disk (bitmapPos f s).1) (bitmapPos f s).2 s true with hb
  have hget : ∀ t, (bitmapPos f t).1 < f.super.bitmapSector + f.super.bitmapSectors →
      bitGet (f.jw (bitmapPos f s).1 b) t = .ok
        (testBit ((if (bitmapPos f t).1 = (bitmapPos f s).1 then b
          else f.dev.disk (bitmapPos f t).1) (bitmapPos f t).2) t) := by
    intro t ht
    have hbm : bitmapPos (f.jw (bitmapPos f s).1 b) t = bitmapPos f t := rfl
    have hstart : (f.jw (bitmapPos f s).1 b).super.bitmapSector = f.super.bitmapSector := rfl
    have hlen : (f.jw (bitmapPos f s).1 b).super.bitmapSectors = f.super.bitmapSectors := rfl
    have hrd : (f.jw (bitmapPos f s).1 b).dev.rd (bitmapPos f t).1 =
        some ((f.jw (bitmapPos f s).1 b).dev.disk (bitmapPos f t).1) :=
      Device.rd_of_lt (show _ < f.dev.sectorCount by omega)
    rw [bitGet, hbm, hrd, hstart, hlen]
    rw [if_neg (Nat.not_le.2 ht), jw_disk b (by omega) (by omega)]
  refine ⟨f.jw (bitmapPos f s).1 b, ?_, ?_, fun t hts => ?_⟩
  · simp only [bit, h.on.mounted, Bool.true_eq_false, false_or, h.bitmapPos_rd hs]
    rw [if_neg (by omega), if_neg (by omega)]
    exact journalWrite_eq (h.on.journalReady (by omega) hout) _
  · rw [hget s hpos, if_pos rfl, hb, testBit_putBit, if_pos ⟨rfl, rfl⟩]
  by_cases ht : (bitmapPos f t).1 < f.super.bitmapSector + f.super.bitmapSectors
  · have hold : bitGet f t =
        .ok (testBit (f.dev.disk (bitmapPos f t).1 (bitmapPos f t).2) t) := by
      rw [bitGet]
      rw [if_neg (Nat.not_le.2 ht), Device.rd_of_lt (by omega)]
    rw [hget t ht, hold]
    split_ifs with hsame
    · have hno : ¬((bitmapPos f t).2 = (bitmapPos f s).2 ∧ t % 8 = s % 8) := fun he =>
        hts (bitmapPos_inj (Prod.ext hsame he.1) he.2)
      rw [hb, testBit_putBit, if_neg hno, hsame]
    · rfl
  have hno : ∀ g : Fs, g.super.bitmapSector = f.super.bitmapSector →
      g.super.bitmapSectors = f.super.bitmapSectors → bitmapPos g t = bitmapPos f t →
      bitGet g t = .error (-1) := by
    intro g h1 h2 h3
    rw [bitGet, h1, h2, h3]
    exact if_pos (Nat.not_lt.1 ht)
  rw [hno f rfl rfl rfl, hno (f.jw (bitmapPos f s).1 b) rfl rfl rfl]

theorem Mapped.firstFree_eq (hl : ∀ s ∈ l, s < f.dev.sectorCount) :
    firstFree f l = .ok (l.find? fun s => f.bitOf s = false) := by
  induction l with
  | nil => rfl
  | cons s l ih =>
    obtain ⟨hs, hl'⟩ := forall_mem_cons.1 hl
    rw [firstFree, h.bitGet_eq hs, find?_cons]
    cases f.bitOf s with
    | true => exact ih hl'
    | false => rfl

/-- A scan of sectors of the data area. What it finds is taken; if it finds nothing,
another allocator goes on, or the scan has seen the whole area. -/
theorem Mapped.scan_allocates (hl : ∀ s ∈ l, f.super.dataStartSector ≤ s ∧ s < f.super.totalSectors)
    {other : Except Int Nat × Fs} {take : Nat → Except Int Nat × Fs}
    (hother : (∀ s ∈ l, bitGet f s = .ok true) → Allocates f other)
    (htake : ∀ s, s < f.dev.sectorCount → ∃ g, take s = (.ok s, g) ∧
      ∀ t, bitGet g t = bitGet (bit f s true).2 t) :
    Allocates f (match firstFree f l with
      | .error e => (.error e, f)
      | .ok none => other
      | .ok (some s) => take s) := by
  have htot := h.on.superOk.totalSectors
  have hdev : ∀ s ∈ l, s < f.dev.sectorCount := fun s hs => htot ▸ (hl s hs).2
  rw [h.firstFree_eq hdev]
  cases hfind : l.find? fun s => f.bitOf s = false with
  | none =>
    refine hother fun s hs => ?_
    have hused := find?_eq_none.1 hfind s hs
    rw [decide_eq_true_eq, Bool.not_eq_false] at hused
    rw [h.bitGet_eq (hdev s hs), hused]
  | some s =>
    have hmem := mem_of_find?_eq_some hfind
    have hclear : decide (f.bitOf s = false) = true :=
      find?_some (p := fun s => f.bitOf s = false) hfind
    rw [decide_eq_true_eq] at hclear
    obtain ⟨g, hrun, hbits⟩ := htake s (hdev s hmem)
    obtain ⟨g', hbit, hset, hsame⟩ := h.bit_set (hdev s hmem)
    rw [hbit] at hbits
    simp only [Allocates, hrun]
    refine ⟨(hl s hmem).1, (hl s hmem).2, ?_, ?_, fun t ht => ?_⟩
    · rw [h.bitGet_eq (hdev s hmem), hclear]
    · rw [hbits, hset]
    · rw [hbits, hsame t ht]

theorem Mapped.takeSector_eq (hs : s < f.dev.sectorCount) :
    ∃ g, takeSector f s = (.ok s, g) ∧ ∀ t, bitGet g t = bitGet (bit f s true).2 t := by
  obtain ⟨g, hbit, -⟩ := h.bit_set hs
  rw [takeSector, hbit]
  exact ⟨_, rfl, fun t => bitGet_hinted g (u64 (s + 1)) g.metaHint t⟩

section

variable (hfree : f.super.freeHint ≤ f.super.totalSectors)

include hfree

theorem Mapped.allocSec_allocates : Allocates f (allocSec f) := by
  have hmem : ∀ s, s ∈ scanOrder f ↔
      f.super.dataStartSector ≤ s ∧ s < f.super.totalSectors := by
    intro s
    simp only [scanOrder, mem_append, mem_range'_1]
    split_ifs <;> omega
  refine h.scan_allocates (fun s hs => (hmem s).1 hs) (fun hall s h1 h2 => ?_) fun s hs =>
    h.takeSector_eq hs
  exact hall s ((hmem s).2 ⟨h1, h2⟩)

theorem Mapped.allocSecNear_allocates (l : List Extent) : Allocates f (allocSecNear f l) :=
  h.scan_allocates (fun _ hs => mem_nearSectors hs) (fun _ => h.allocSec_allocates hfree)
    fun _ hs => h.takeSector_eq hs

theorem Mapped.allocTop_allocates (hmeta : f.metaHint ≤ f.super.totalSectors) :
    Allocates f (allocTop f) := by
  refine h.scan_allocates (fun s hs => ?_) (fun _ => h.allocSec_allocates hfree) fun s hs => ?_
  · rw [topOrder, mem_reverse, mem_range'_1] at hs
    split_ifs at hs <;> omega
  obtain ⟨g, hbit, -⟩ := h.bit_set hs
  rw [hbit]
  exact ⟨_, rfl, fun t => bitGet_hinted g g.super.freeHint s t⟩

theorem Mapped.allocSecTop_allocates (hmeta : f.metaHint ≤ f.super.totalSectors) (l : List Extent) :
    Allocates f (allocSecTop f l) := by
  rw [allocSecTop, h.on.mounted, if_neg (by simp)]
  refine h.scan_allocates (fun _ hs => mem_nearSectors hs) (fun _ => ?_) fun _ hs =>
    h.takeSector_eq hs
  rw [clampMetaHint]
  split_ifs
  · exact Allocates.of_hinted f.super.freeHint
      ((h.hinted _ f.super.totalSectors).allocTop_allocates hfree le_rfl)
  · exact h.allocTop_allocates hfree hmeta

end

end

/-- The three allocators, for every contents of the bitmap, on an image whose bitmap
covers the device and ends before the journal. The extents of the inode may be
anything. -/
theorem alloc_complete (f : Fs) (h : Mapped f) (hfree : f.super.freeHint ≤ f.super.totalSectors)
    (hmeta : f.metaHint ≤ f.super.totalSectors) (l : List Extent) :
    Allocates f (allocSec f) ∧ Allocates f (allocSecNear f l) ∧ Allocates f (allocSecTop f l) :=
  ⟨h.allocSec_allocates hfree, h.allocSecNear_allocates hfree l,
    h.allocSecTop_allocates hfree hmeta l⟩

theorem freshDevice_mapped (metaHint : Nat) : Mapped (mountHandle freshDevice metaHint) := by
  have hregions : Regions 512 freshDevice.sectorCount (mountHandle freshDevice metaHint).super := by
    rw [freshDevice_super]
    exact regions_formatSuper formatGeometry_fresh
  exact ⟨freshDevice_mountedOn metaHint, hregions.bitmapLe, hregions.covers⟩

theorem alloc_complete_fresh :
    (allocSecNear (mountHandle freshDevice 128) [⟨30, 2⟩]).1 = .ok 32 ∧
      Allocates (mountHandle freshDevice 128) (allocSecNear (mountHandle freshDevice 128) [⟨30, 2⟩]) := by
  refine ⟨by decide +kernel, (alloc_complete _ (freshDevice_mapped 128) ?_ ?_ _).2.1⟩
  · decide +kernel
  · decide +kernel

/-- A device of 8192 sectors whose superblock gives the bitmap one sector, which
has bits for the first 4096, and a free hint above them. -/
def shortBitmapDevice : Device :=
  let sb := { formatBase 512 8192 8 with bitmapSectors := 1, freeHint := 5000 }
  { sectorSize := 512
    sectorCount := 8192
    disk := upd (fun _ => zeroBuf) 0
      (storeSuper { sb with checksum := hash64 (storeSuper sb) superSize })
    log := [] }

/-- The mount accepts this device, and the allocator fails on it although the first
sector of the data area is free. -/
theorem allocSec_fails_short :
    (rixfsMount shortBitmapDevice 0).1 = 0 ∧
      let f := (rixfsMount shortBitmapDevice 0).2
      f.super.freeHint ≤ f.super.totalSectors ∧ f.metaHint ≤ f.super.totalSectors ∧
        (allocSec f).1 = .error (-1) ∧ bitGet f f.super.dataStartSector = .ok false := by
  decide +kernel

end RixuriOS.Rixfs
