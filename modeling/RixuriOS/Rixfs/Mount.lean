import RixuriOS.Rixfs.Layout

/-!
# Mounting and journal replay

`rixfsMount` checks the superblock and then runs `journalReplay`, which redoes
a committed journal record: a transaction of up to sixteen sectors, or a single
sector. A header sector that carries neither magic number means that there is
nothing to redo.
-/

namespace RixuriOS.Rixfs

open ByteCodec CrashStore ExtentList

variable {d : Device} {f : Fs}

def Superblock.inJournal (sb : Superblock) (t : Nat) : Prop :=
  sb.journalSector ≤ t ∧ t - sb.journalSector < sb.journalSectors

instance (sb : Superblock) (t : Nat) : Decidable (sb.inJournal t) :=
  inferInstanceAs (Decidable (_ ∧ _))

/-- Redo the entries of a transaction from number `i` on: copy each payload
sector to its target after its checksum has been compared. -/
def replayEntries (js : Nat) : Nat → List (Nat × Nat) → Device → Int × Device
  | _, [], d => (0, d)
  | i, (target, sum) :: rest, d =>
    match d.rd (js + 1 + i) with
    | none => (-6, d)
    | some b =>
      if hash64 b d.sectorSize ≠ sum then (-6, d)
      else
        match d.wr target b with
        | none => (-6, d)
        | some d' => replayEntries js (i + 1) rest d'

def retireHeader (d : Device) (js : Nat) : Int × Device :=
  match d.wr js zeroBuf with
  | none => (-1, d)
  | some d' => (0, d'.flush)

def txEntries (b : Buf) : List (Nat × Nat) :=
  (List.range (load b 16 4)).map fun i => (load b (24 + i * 16) 8, load b (32 + i * 16) 8)

def replayTransaction (f : Fs) (b : Buf) : Int × Fs :=
  let js := f.super.journalSector
  let count := load b 16 4
  if count = 0 ∨ journalTxMaxEntries < count ∨ f.super.journalSectors < count + 1 ∨
      f.dev.sectorSize < 24 + count * 16 then (-4, f)
  else if ∃ e ∈ txEntries b, f.super.totalSectors ≤ e.1 ∨ f.super.inJournal e.1 then (-5, f)
  else
    let r := replayEntries js 0 (txEntries b) f.dev
    if r.1 ≠ 0 then (r.1, { f with dev := r.2 })
    else
      let z := retireHeader r.2.flush js
      (z.1, { f with dev := z.2 })

def replaySector (f : Fs) (b : Buf) : Int × Fs :=
  let js := f.super.journalSector
  let target := load b 8 8
  let sequence := load b 16 8
  let stored := load b 32 8
  if sequence = 0 ∨ f.super.totalSectors ≤ target ∨ f.super.inJournal target then (-7, f)
  else
    match f.dev.rd (js + 1) with
    | none => (-8, f)
    | some data =>
      if hash64 data f.dev.sectorSize ≠ stored then (-8, f)
      else
        match f.dev.wr target data with
        | none => (-8, f)
        | some d =>
          let z := retireHeader d.flush js
          (z.1, { f with dev := z.2 })

def journalReplay (f : Fs) : Int × Fs :=
  let js := f.super.journalSector
  if f.super.journalSectors < 2 then (0, f)
  else if f.super.totalSectors ≤ js ∨ f.super.totalSectors - js < f.super.journalSectors then
    (-1, f)
  else
    match f.dev.rd js with
    | none => (-3, f)
    | some b =>
      if load b 0 8 = journalTxMagic then replayTransaction f b
      else if load b 0 8 ≠ journalMagic then (0, f)
      else replaySector f b

/-- The checks of `rixfs_mount` on the superblock in the sector `b`: zero, or the
code that the mount returns. -/
def checkSuper (d : Device) (b : Buf) : Int :=
  let sb := loadSuper b
  let inodeBytes := u64 (sb.inodeCount * inodeSize)
  let inodeSectors := u64 (inodeBytes + (d.sectorSize - 1)) / d.sectorSize
  if sb.magic ≠ rixfsMagic ∨ sb.version ≠ rixfsVersion ∨ sb.headerSize < 64 ∨
      superSize < sb.headerSize ∨ sb.checksum ≠ hash64 (clear b checksumOff 8) superSize then -5
  else if sb.sectorSize ≠ d.sectorSize ∨ sb.totalSectors ≠ d.sectorCount ∨
      sb.inodeTableSector = 0 ∨ sb.inodeCount = 0 ∨ sb.rootInode = 0 ∨
      sb.inodeCount < sb.rootInode ∨ sb.totalSectors ≤ sb.dataStartSector ∨
      sb.bitmapSector = 0 ∨ sb.bitmapSectors = 0 ∨ sb.journalSector < sb.bitmapSector ∨
      sb.journalSectors < 2 then -6
  else if inodeBytes / inodeSize ≠ sb.inodeCount then -7
  else if sb.dataStartSector < sb.inodeTableSector ∨
      sb.dataStartSector - sb.inodeTableSector < inodeSectors ∨
      sb.dataStartSector < sb.bitmapSector ∨
      sb.dataStartSector - sb.bitmapSector < sb.bitmapSectors ∨
      sb.dataStartSector < sb.journalSector ∨
      sb.dataStartSector - sb.journalSector < sb.journalSectors then -8
  else 0

/-- `rixfs_unmount`: the handle forgets its superblock. The device stays in the
model's record only so that its contents are not lost. -/
def unmount (f : Fs) : Fs := { f with mounted := false, super := loadSuper zeroBuf }

/-- `rixfs_mount`. The metadata hint of the handle is not initialised by it, so
that it keeps the value `metaHint` the handle had before. -/
def rixfsMount (d : Device) (metaHint : Nat) : Int × Fs :=
  let fresh : Fs := { dev := d, super := loadSuper zeroBuf, mounted := false, metaHint := metaHint }
  if d.sectorSize < 512 ∨ 4096 < d.sectorSize ∨ d.sectorCount = 0 then (-1, fresh)
  else
    match d.rd 0 with
    | none => (-3, fresh)
    | some b =>
      if checkSuper d b ≠ 0 then (checkSuper d b, fresh)
      else
        let r := journalReplay { fresh with super := loadSuper b, mounted := true }
        if r.1 ≠ 0 then (-9, unmount r.2) else (0, r.2)

def formatInodeSectors (ss ic : Nat) : Nat := u64 (ic * inodeSize + ss - 1) / ss

def formatBitmapSectors (ss count : Nat) : Nat := u64 (count + 8 * ss - 1) / (8 * ss)

def formatBase (ss count ic : Nat) : Superblock :=
  let js := 1 + formatInodeSectors ss ic + formatBitmapSectors ss count
  { magic := rixfsMagic
    version := rixfsVersion
    headerSize := superSize
    sectorSize := ss
    flags := 0
    totalSectors := count
    inodeTableSector := 1
    inodeCount := ic
    dataStartSector := js + journalTxMaxEntries + 1
    rootInode := 1
    generation := 1
    checksum := 0
    bitmapSector := 1 + formatInodeSectors ss ic
    bitmapSectors := formatBitmapSectors ss count
    journalSector := js
    journalSectors := journalTxMaxEntries + 1
    freeHint := js + journalTxMaxEntries + 1
    journalGeneration := 0 }

def formatSuper (ss count ic : Nat) : Superblock :=
  { formatBase ss count ic with checksum := hash64 (storeSuper (formatBase ss count ic)) superSize }

def NoMagic (b : Buf) : Prop := load b 0 8 ≠ journalTxMagic ∧ load b 0 8 ≠ journalMagic

theorem noMagic_zeroBuf : NoMagic zeroBuf := by
  simp [NoMagic, journalTxMagic, journalMagic]

/-- A mounted file system whose device carries the superblock it was mounted
from; only the two counters that live in memory may have moved on. -/
structure MountedOn (f : Fs) : Prop where
  mounted : f.mounted = true
  sectorLow : 512 ≤ f.dev.sectorSize
  sectorHigh : f.dev.sectorSize ≤ 4096
  check : checkSuper f.dev (f.dev.disk 0) = 0
  super : f.super = { loadSuper (f.dev.disk 0) with
    freeHint := f.super.freeHint, journalGeneration := f.super.journalGeneration }

theorem retireHeader_of_lt {js : Nat} (h : js < d.sectorCount) :
    retireHeader d js = (0, (d.put js zeroBuf).flush) := by
  rw [retireHeader, Device.wr_of_lt h]

/-! ## What an accepted superblock says -/

structure SuperOk (ss count : Nat) (sb : Superblock) : Prop where
  sectorSize : sb.sectorSize = ss
  totalSectors : sb.totalSectors = count
  tablePos : 0 < sb.inodeTableSector
  inodePos : 0 < sb.inodeCount
  rootPos : 0 < sb.rootInode
  rootLe : sb.rootInode ≤ sb.inodeCount
  dataLt : sb.dataStartSector < count
  bitmapPos : 0 < sb.bitmapSector
  bitmapSectorsPos : 0 < sb.bitmapSectors
  bitmapLe : sb.bitmapSector + sb.bitmapSectors ≤ sb.dataStartSector
  journalGe : sb.bitmapSector ≤ sb.journalSector
  journalTwo : 2 ≤ sb.journalSectors
  journalLe : sb.journalSector + sb.journalSectors ≤ sb.dataStartSector
  inodeBytes : sb.inodeCount * inodeSize < 2 ^ 64
  tableLe : sb.inodeTableSector +
    u64 (sb.inodeCount * inodeSize + (ss - 1)) / ss ≤ sb.dataStartSector

variable {count ic metaHint ss : Nat}

theorem SuperOk.withHints {sb : Superblock} (h : SuperOk ss count sb) (hint gen : Nat) :
    SuperOk ss count { sb with freeHint := hint, journalGeneration := gen } :=
  ⟨h.1, h.2, h.3, h.4, h.5, h.6, h.7, h.8, h.9, h.10, h.11, h.12, h.13, h.14, h.15⟩

theorem superOk_of_check {b : Buf} (h : checkSuper d b = 0) :
    SuperOk d.sectorSize d.sectorCount (loadSuper b) := by
  rw [checkSuper] at h
  split_ifs at h with h5 h6 h7 h8
  have hbytes : (loadSuper b).inodeCount * inodeSize < 2 ^ 64 := by
    simp only [not_not, u64, inodeSize] at h7 ⊢
    omega
  have hwrap : u64 ((loadSuper b).inodeCount * inodeSize) = (loadSuper b).inodeCount * inodeSize :=
    Nat.mod_eq_of_lt hbytes
  rw [hwrap] at h8
  simp only [not_or, Nat.not_lt, not_not] at h6 h8
  exact ⟨by omega, by omega, by omega, by omega, by omega, by omega, by omega, by omega, by omega,
    by omega, by omega, by omega, by omega, hbytes, by omega⟩

theorem MountedOn.superOk (h : MountedOn f) :
    SuperOk f.dev.sectorSize f.dev.sectorCount f.super := by
  rw [h.super]
  exact (superOk_of_check h.check).withHints _ _

/-! ## The superblock of a fresh image -/

/-- A geometry that `rixfs_format` accepts and for which its arithmetic does not
wrap. -/
structure FormatGeometry (ss count ic : Nat) : Prop where
  sectorLow : 512 ≤ ss
  sectorHigh : ss ≤ 4096
  countLt : count + 8 * ss < 2 ^ 64
  inodePos : 0 < ic
  inodeBytes : ic * inodeSize + ss < 2 ^ 64
  dataLt : (formatBase ss count ic).dataStartSector < count

theorem FormatGeometry.wrap_eq (h : FormatGeometry ss count ic) :
    (formatSuper ss count ic).wrap = formatSuper ss count ic := by
  have h1 := h.sectorHigh
  have h2 := h.countLt
  have h3 : ic * 128 + ss < 2 ^ 64 := h.inodeBytes
  have h4 := h.dataLt
  have hsum := hash64_lt (storeSuper (formatBase ss count ic)) superSize
  have hjs : (formatBase ss count ic).dataStartSector =
      1 + formatInodeSectors ss ic + formatBitmapSectors ss count + 16 + 1 := rfl
  have hm : u64 rixfsMagic = rixfsMagic := by decide
  simp only [Superblock.wrap, formatSuper, formatBase, hm, Superblock.mk.injEq, true_and]
  simp only [u64, u32, rixfsVersion, superSize, journalTxMaxEntries] at hsum ⊢
  refine ⟨?_, ?_, ?_, ?_, ?_, ?_, ?_, ?_, ?_, ?_, ?_, ?_, ?_, ?_, ?_, ?_, ?_⟩ <;>
    first
    | exact Nat.mod_eq_of_lt hsum
    | exact Nat.mod_eq_of_lt (by omega)

theorem checkSuper_format (h : FormatGeometry d.sectorSize d.sectorCount ic) :
    checkSuper d (storeSuper (formatSuper d.sectorSize d.sectorCount ic)) = 0 := by
  have hload : loadSuper (storeSuper (formatSuper d.sectorSize d.sectorCount ic)) =
      formatSuper d.sectorSize d.sectorCount ic := by rw [loadSuper_storeSuper, h.wrap_eq]
  have hsum : hash64 (clear (storeSuper (formatSuper d.sectorSize d.sectorCount ic)) checksumOff 8)
      superSize = (formatSuper d.sectorSize d.sectorCount ic).checksum := by
    rw [clear_storeSuper]
    rfl
  have h1 := h.sectorLow
  have h2 := h.countLt
  have h3 : ic * 128 + d.sectorSize < 2 ^ 64 := h.inodeBytes
  have h4 := h.dataLt
  have h5 := h.inodePos
  have hjs : (formatBase d.sectorSize d.sectorCount ic).dataStartSector =
      1 + formatInodeSectors d.sectorSize ic + formatBitmapSectors d.sectorSize d.sectorCount +
        16 + 1 := rfl
  have hbytes : u64 (ic * 128) = ic * 128 := Nat.mod_eq_of_lt (by omega)
  have htable : u64 (ic * 128 + (d.sectorSize - 1)) / d.sectorSize =
      formatInodeSectors d.sectorSize ic := by
    rw [formatInodeSectors, inodeSize, Nat.add_sub_assoc (by omega)]
  have hbm : 0 < formatBitmapSectors d.sectorSize d.sectorCount := by
    rw [formatBitmapSectors, u64, Nat.mod_eq_of_lt (by omega)]
    exact Nat.div_pos (by omega) (by omega)
  rw [checkSuper, hload, hsum]
  simp only [formatSuper, formatBase, inodeSize, hbytes, htable, rixfsMagic, rixfsVersion,
    superSize, journalTxMaxEntries]
  split_ifs with h5 h6
  · simp at h5
  · simp only [ne_eq, not_true_eq_false, false_or] at h6
    omega
  · omega
  · omega
  · rfl

/-! ## Mounting without a journal record -/

theorem journalReplay_of_noMagic (hok : SuperOk f.dev.sectorSize f.dev.sectorCount f.super)
    (hm : NoMagic (f.dev.disk f.super.journalSector)) : journalReplay f = (0, f) := by
  have h1 := hok.journalLe
  have h2 := hok.dataLt
  have h3 := hok.totalSectors
  have h4 := hok.journalTwo
  have hrd : f.dev.rd f.super.journalSector = some (f.dev.disk f.super.journalSector) :=
    if_pos (by omega)
  unfold journalReplay
  rw [if_neg (by omega), if_neg (by omega), hrd]
  simp only [if_neg hm.1, if_pos hm.2]

def mountHandle (d : Device) (metaHint : Nat) : Fs :=
  { dev := d, super := loadSuper (d.disk 0), mounted := true, metaHint := metaHint }

theorem rixfsMount_of_check (metaHint : Nat) (hlow : 512 ≤ d.sectorSize)
    (hhigh : d.sectorSize ≤ 4096) (hcheck : checkSuper d (d.disk 0) = 0) :
    rixfsMount d metaHint =
      if (journalReplay (mountHandle d metaHint)).1 ≠ 0 then
        (-9, unmount (journalReplay (mountHandle d metaHint)).2)
      else (0, (journalReplay (mountHandle d metaHint)).2) := by
  have hpos : 0 < d.sectorCount :=
    Nat.lt_of_le_of_lt (Nat.zero_le _) (superOk_of_check hcheck).dataLt
  have hrd : d.rd 0 = some (d.disk 0) := if_pos hpos
  rw [rixfsMount]
  rw [if_neg (by omega), hrd]
  simp only [hcheck, ne_eq, not_true_eq_false, if_false]
  rfl

/-- A successful mount that had nothing to redo leaves a handle on the device it
was given. -/
theorem mountedOn_mountHandle (hlow : 512 ≤ d.sectorSize) (hhigh : d.sectorSize ≤ 4096)
    (hcheck : checkSuper d (d.disk 0) = 0) (metaHint : Nat) : MountedOn (mountHandle d metaHint) :=
  ⟨rfl, hlow, hhigh, hcheck, rfl⟩

theorem rixfsMount_of_noMagic (metaHint : Nat) (hlow : 512 ≤ d.sectorSize)
    (hhigh : d.sectorSize ≤ 4096) (hcheck : checkSuper d (d.disk 0) = 0)
    (hm : NoMagic (d.disk (loadSuper (d.disk 0)).journalSector)) :
    rixfsMount d metaHint = (0, mountHandle d metaHint) := by
  rw [rixfsMount_of_check metaHint hlow hhigh hcheck,
    journalReplay_of_noMagic (f := mountHandle d metaHint) (superOk_of_check hcheck) hm,
    if_neg (by simp)]

theorem journalReplay_super (f : Fs) : (journalReplay f).2 = { f with dev := (journalReplay f).2.dev } := by
  unfold journalReplay
  simp only [replayTransaction, replaySector]
  split_ifs <;> try rfl
  split
  · rfl
  split_ifs <;> try rfl
  split
  · rfl
  · split_ifs <;> try rfl
    split <;> rfl

theorem of_rixfsMount (h : rixfsMount d metaHint = (0, f)) :
    512 ≤ d.sectorSize ∧ d.sectorSize ≤ 4096 ∧ checkSuper d (d.disk 0) = 0 ∧
      journalReplay (mountHandle d metaHint) = (0, f) := by
  have hsize : ¬(d.sectorSize < 512 ∨ 4096 < d.sectorSize ∨ d.sectorCount = 0) := by
    intro hbad
    rw [rixfsMount, if_pos hbad, Prod.mk.injEq] at h
    cases h.1
  have hcheck : checkSuper d (d.disk 0) = 0 := by
    by_contra hne
    simp only [rixfsMount, if_neg hsize, Device.rd_of_lt (show 0 < d.sectorCount by omega),
      if_pos hne, Prod.mk.injEq] at h
    exact hne h.1
  rw [rixfsMount_of_check metaHint (by omega) (by omega) hcheck] at h
  refine ⟨by omega, by omega, hcheck, ?_⟩
  split_ifs at h with hz
  · cases (Prod.mk.inj h).1
  · rw [← (Prod.mk.inj h).2, ← not_not.1 hz]

theorem rixfsMount_super (h : rixfsMount d metaHint = (0, f)) :
    f = { dev := f.dev, super := loadSuper (d.disk 0), mounted := true, metaHint := metaHint } := by
  obtain ⟨-, -, -, hreplay⟩ := of_rixfsMount h
  have hsuper := journalReplay_super (mountHandle d metaHint)
  rw [hreplay] at hsuper
  exact hsuper

end RixuriOS.Rixfs
