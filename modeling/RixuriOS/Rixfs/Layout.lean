import RixuriOS.Lib.ByteCodec
import RixuriOS.Lib.CrashStore
import RixuriOS.Lib.ExtentList

/-!
# On-disk records of RixFS

The block device with the requests it has completed, the FNV hash of the
sectors, and the packed records of the file system: the superblock in sector 0,
the 128-byte inodes of the inode table and the 16-byte directory entry headers.
Every integer is a natural number. Arithmetic that can wrap in the C types is
written with `u64`.

A request inside the device succeeds (the device is reliable), and the scratch
pages that the code takes from the page allocator are buffers here.
-/

namespace RixuriOS.Rixfs

open ByteCodec CrashStore ExtentList List

def u64 (n : Nat) : Nat := n % 2 ^ 64

def u32 (n : Nat) : Nat := n % 2 ^ 32

/-- A `rix_block_device_t`: its geometry, its contents, and the writes and
flushes it has completed, oldest first. -/
structure Device where
  sectorSize : Nat
  sectorCount : Nat
  disk : Disk Buf
  log : List (Req Buf)

namespace Device

/-- Read one sector; `block_submit` refuses a sector outside the device. -/
def rd (d : Device) (s : Nat) : Option Buf :=
  if s < d.sectorCount then some (d.disk s) else none

@[simps -fullyApplied sectorCount sectorSize disk]
def put (d : Device) (s : Nat) (b : Buf) : Device :=
  { d with disk := upd d.disk s b, log := d.log ++ [.write s b] }

def wr (d : Device) (s : Nat) (b : Buf) : Option Device :=
  if s < d.sectorCount then some (d.put s b) else none

@[simps -fullyApplied sectorCount sectorSize disk]
def flush (d : Device) : Device := { d with log := d.log ++ [.flush] }

theorem rd_of_lt {d : Device} {s : Nat} (h : s < d.sectorCount) : d.rd s = some (d.disk s) :=
  if_pos h

theorem wr_of_lt {d : Device} {s : Nat} (h : s < d.sectorCount) (b : Buf) :
    d.wr s b = some (d.put s b) := if_pos h

end Device

/-- `hash64`, and the identical `checksum` of the mount code: FNV over the first
`n` bytes. -/
def hash64 (b : Buf) : Nat → Nat
  | 0 => 1469598103934665603
  | n + 1 => u64 ((hash64 b n ^^^ (b n).toNat) * 1099511628211)

def rixfsMagic : Nat := 0x5249584653465331
def rixfsVersion : Nat := 1
def inodeSize : Nat := 128
def nameMax : Nat := 255
def journalTxMaxEntries : Nat := 16
def journalMagic : Nat := 0x524A4E4C56310001
def journalTxMagic : Nat := 0x5254584A4E4C5631
def ifmt : Nat := 0xF000
def iflnk : Nat := 0xA000
def ifreg : Nat := 0x8000
def ifdir : Nat := 0x4000
def symlinkTargetMax : Nat := 1024
def dirTypeDir : Nat := 1
def dirTypeFile : Nat := 2
def dirTypeSymlink : Nat := 3
def direntMinSize : Nat := 16

/-- `rixfs_superblock_t`, without its reserved bytes. -/
structure Superblock where
  magic : Nat
  version : Nat
  headerSize : Nat
  sectorSize : Nat
  flags : Nat
  totalSectors : Nat
  inodeTableSector : Nat
  inodeCount : Nat
  dataStartSector : Nat
  rootInode : Nat
  generation : Nat
  checksum : Nat
  bitmapSector : Nat
  bitmapSectors : Nat
  journalSector : Nat
  journalSectors : Nat
  freeHint : Nat
  journalGeneration : Nat
  deriving DecidableEq

def superSize : Nat := 512

def checksumOff : Nat := 72

def loadSuper (b : Buf) : Superblock where
  magic := load b 0 8
  version := load b 8 4
  headerSize := load b 12 4
  sectorSize := load b 16 4
  flags := load b 20 4
  totalSectors := load b 24 8
  inodeTableSector := load b 32 8
  inodeCount := load b 40 8
  dataStartSector := load b 48 8
  rootInode := load b 56 8
  generation := load b 64 8
  checksum := load b 72 8
  bitmapSector := load b 80 8
  bitmapSectors := load b 88 8
  journalSector := load b 96 8
  journalSectors := load b 104 8
  freeHint := load b 112 8
  journalGeneration := load b 120 8

/-- The fields of the packed superblock. The checksum is listed last, because it
is computed over the record in which it is still zero. -/
def superFields (sb : Superblock) : List Field :=
  [⟨0, 8, sb.magic⟩, ⟨8, 4, sb.version⟩, ⟨12, 4, sb.headerSize⟩, ⟨16, 4, sb.sectorSize⟩,
    ⟨20, 4, sb.flags⟩, ⟨24, 8, sb.totalSectors⟩, ⟨32, 8, sb.inodeTableSector⟩,
    ⟨40, 8, sb.inodeCount⟩, ⟨48, 8, sb.dataStartSector⟩, ⟨56, 8, sb.rootInode⟩,
    ⟨64, 8, sb.generation⟩, ⟨80, 8, sb.bitmapSector⟩, ⟨88, 8, sb.bitmapSectors⟩,
    ⟨96, 8, sb.journalSector⟩, ⟨104, 8, sb.journalSectors⟩, ⟨112, 8, sb.freeHint⟩,
    ⟨120, 8, sb.journalGeneration⟩, ⟨72, 8, sb.checksum⟩]

def storeSuper (sb : Superblock) : Buf := storeFields zeroBuf 0 (superFields sb)

structure Inode where
  inode : Nat
  mode : Nat
  uid : Nat
  gid : Nat
  flags : Nat
  size : Nat
  generation : Nat
  extents : List Extent
  links : Nat
  aclUser : Nat
  aclUserPerm : Nat
  aclGroup : Nat
  aclGroupPerm : Nat
  aclMask : Nat
  deriving DecidableEq

namespace Inode

def zero : Inode where
  inode := 0
  mode := 0
  uid := 0
  gid := 0
  flags := 0
  size := 0
  generation := 0
  extents := [⟨0, 0⟩, ⟨0, 0⟩, ⟨0, 0⟩, ⟨0, 0⟩]
  links := 0
  aclUser := 0
  aclUserPerm := 0
  aclGroup := 0
  aclGroupPerm := 0
  aclMask := 0

def fmt (i : Inode) : Nat := i.mode &&& ifmt

def ext (i : Inode) (k : Nat) : Extent := i.extents.getD k ⟨0, 0⟩

end Inode

def loadInode (b : Buf) (o : Nat) : Inode where
  inode := load b o 8
  mode := load b (o + 8) 4
  uid := load b (o + 12) 4
  gid := load b (o + 16) 4
  flags := load b (o + 20) 4
  size := load b (o + 24) 8
  generation := load b (o + 32) 8
  extents := [⟨load b (o + 40) 8, load b (o + 72) 8⟩, ⟨load b (o + 48) 8, load b (o + 80) 8⟩,
    ⟨load b (o + 56) 8, load b (o + 88) 8⟩, ⟨load b (o + 64) 8, load b (o + 96) 8⟩]
  links := load b (o + 104) 4
  aclUser := load b (o + 108) 4
  aclUserPerm := load b (o + 112) 4
  aclGroup := load b (o + 116) 4
  aclGroupPerm := load b (o + 120) 4
  aclMask := load b (o + 124) 4

def inodeFields (i : Inode) : List Field :=
  [⟨0, 8, i.inode⟩, ⟨8, 4, i.mode⟩, ⟨12, 4, i.uid⟩, ⟨16, 4, i.gid⟩, ⟨20, 4, i.flags⟩,
    ⟨24, 8, i.size⟩, ⟨32, 8, i.generation⟩,
    ⟨40, 8, (i.ext 0).start⟩, ⟨48, 8, (i.ext 1).start⟩, ⟨56, 8, (i.ext 2).start⟩,
    ⟨64, 8, (i.ext 3).start⟩,
    ⟨72, 8, (i.ext 0).len⟩, ⟨80, 8, (i.ext 1).len⟩, ⟨88, 8, (i.ext 2).len⟩,
    ⟨96, 8, (i.ext 3).len⟩,
    ⟨104, 4, i.links⟩, ⟨108, 4, i.aclUser⟩, ⟨112, 4, i.aclUserPerm⟩, ⟨116, 4, i.aclGroup⟩,
    ⟨120, 4, i.aclGroupPerm⟩, ⟨124, 4, i.aclMask⟩]

def storeInode (b : Buf) (o : Nat) (i : Inode) : Buf := storeFields b o (inodeFields i)

/-- `rixfs_dirent_disk_t`: the header of a directory record. -/
structure Dirent where
  inode : Nat
  recordSize : Nat
  type : Nat
  nameLength : Nat
  flags : Nat
  deriving DecidableEq

def loadDirent (b : Buf) (o : Nat) : Dirent where
  inode := load b o 8
  recordSize := load b (o + 8) 2
  type := load b (o + 10) 1
  nameLength := load b (o + 11) 1
  flags := load b (o + 12) 4

/-- A `rixfs_t`: the device under it, the superblock in memory (of which the
code changes `freeHint` and `journalGeneration`), and the metadata hint. -/
structure Fs where
  dev : Device
  super : Superblock
  mounted : Bool
  metaHint : Nat

/-- A C string: the bytes before its terminator. -/
structure CString where
  bytes : List Byte
  nonzero : ∀ c ∈ bytes, c ≠ 0

def cstr (l : List Byte) : List Byte := l.takeWhile (· ≠ 0)

/-! ## Records read back -/

theorem hash64_lt (b : Buf) (n : Nat) : hash64 b n < 2 ^ 64 := by
  cases n with
  | zero =>
    change 1469598103934665603 < 2 ^ 64
    decide
  | succ n => exact Nat.mod_lt _ (by decide)

theorem superFields_apart (sb : Superblock) :
    ((superFields sb).map fun f => (f.off, f.width)).Pairwise fun p q => apart p q := by
  change List.Pairwise _ [(0, 8), (8, 4), (12, 4), (16, 4), (20, 4), (24, 8), (32, 8), (40, 8),
    (48, 8), (56, 8), (64, 8), (80, 8), (88, 8), (96, 8), (104, 8), (112, 8), (120, 8), (72, 8)]
  decide

def Superblock.wrap (sb : Superblock) : Superblock where
  magic := u64 sb.magic
  version := u32 sb.version
  headerSize := u32 sb.headerSize
  sectorSize := u32 sb.sectorSize
  flags := u32 sb.flags
  totalSectors := u64 sb.totalSectors
  inodeTableSector := u64 sb.inodeTableSector
  inodeCount := u64 sb.inodeCount
  dataStartSector := u64 sb.dataStartSector
  rootInode := u64 sb.rootInode
  generation := u64 sb.generation
  checksum := u64 sb.checksum
  bitmapSector := u64 sb.bitmapSector
  bitmapSectors := u64 sb.bitmapSectors
  journalSector := u64 sb.journalSector
  journalSectors := u64 sb.journalSectors
  freeHint := u64 sb.freeHint
  journalGeneration := u64 sb.journalGeneration

theorem loadSuper_storeSuper (sb : Superblock) : loadSuper (storeSuper sb) = sb.wrap := by
  have h : ∀ f ∈ superFields sb, load (storeSuper sb) f.off f.width = f.value % 256 ^ f.width := by
    intro f hf
    have hload := load_storeFields zeroBuf 0 _ (superFields_apart sb) hf
    rwa [Nat.zero_add] at hload
  simp only [superFields, forall_mem_cons, not_mem_nil, false_imp_iff, implies_true, and_true] at h
  obtain ⟨h0, h1, h2, h3, h4, h5, h6, h7, h8, h9, h10, h11, h12, h13, h14, h15, h16, h17⟩ := h
  simp only [loadSuper, h0, h1, h2, h3, h4, h5, h6, h7, h8, h9, h10, h11, h12, h13, h14, h15,
    h16, h17]
  rfl

/-- Clearing the checksum of a packed superblock gives the record over which the
checksum is computed. -/
theorem clear_storeSuper (sb : Superblock) :
    clear (storeSuper sb) checksumOff 8 = storeSuper { sb with checksum := 0 } := by
  have hlast : ∀ b v, clear (store b 72 8 v) 72 8 = store b 72 8 0 := by
    intro b v
    funext i
    by_cases hi : 72 ≤ i ∧ i < 72 + 8
    · rw [clear_of_mem hi.1 hi.2, store_of_mem hi.1 hi.2]
      simp [byteOf]
    · rw [clear_of_not_mem hi, store, store, if_neg hi, if_neg hi]
  exact hlast _ sb.checksum

theorem inodeFields_apart (i : Inode) :
    ((inodeFields i).map fun f => (f.off, f.width)).Pairwise fun p q => apart p q := by
  change List.Pairwise _ [(0, 8), (8, 4), (12, 4), (16, 4), (20, 4), (24, 8), (32, 8), (40, 8),
    (48, 8), (56, 8), (64, 8), (72, 8), (80, 8), (88, 8), (96, 8), (104, 4), (108, 4), (112, 4),
    (116, 4), (120, 4), (124, 4)]
  decide

namespace Inode

def wrap (i : Inode) : Inode where
  inode := u64 i.inode
  mode := u32 i.mode
  uid := u32 i.uid
  gid := u32 i.gid
  flags := u32 i.flags
  size := u64 i.size
  generation := u64 i.generation
  extents := [⟨u64 (i.ext 0).start, u64 (i.ext 0).len⟩, ⟨u64 (i.ext 1).start, u64 (i.ext 1).len⟩,
    ⟨u64 (i.ext 2).start, u64 (i.ext 2).len⟩, ⟨u64 (i.ext 3).start, u64 (i.ext 3).len⟩]
  links := u32 i.links
  aclUser := u32 i.aclUser
  aclUserPerm := u32 i.aclUserPerm
  aclGroup := u32 i.aclGroup
  aclGroupPerm := u32 i.aclGroupPerm
  aclMask := u32 i.aclMask

structure Fits (i : Inode) : Prop where
  inode : i.inode < 2 ^ 64
  mode : i.mode < 2 ^ 32
  uid : i.uid < 2 ^ 32
  gid : i.gid < 2 ^ 32
  flags : i.flags < 2 ^ 32
  size : i.size < 2 ^ 64
  generation : i.generation < 2 ^ 64
  slots : i.extents.length = 4
  extents : ∀ e ∈ i.extents, e.start < 2 ^ 64 ∧ e.len < 2 ^ 64
  links : i.links < 2 ^ 32
  aclUser : i.aclUser < 2 ^ 32
  aclUserPerm : i.aclUserPerm < 2 ^ 32
  aclGroup : i.aclGroup < 2 ^ 32
  aclGroupPerm : i.aclGroupPerm < 2 ^ 32
  aclMask : i.aclMask < 2 ^ 32

end Inode

theorem loadInode_storeInode (b : Buf) (o : Nat) (i : Inode) :
    loadInode (storeInode b o i) o = i.wrap := by
  have h : ∀ f ∈ inodeFields i,
      load (storeInode b o i) (o + f.off) f.width = f.value % 256 ^ f.width :=
    fun f hf => load_storeFields b o _ (inodeFields_apart i) hf
  simp only [inodeFields, forall_mem_cons, not_mem_nil, false_imp_iff, implies_true,
    and_true, Nat.add_zero] at h
  obtain ⟨h0, h1, h2, h3, h4, h5, h6, h7, h8, h9, h10, h11, h12, h13, h14, h15, h16, h17, h18,
    h19, h20⟩ := h
  simp only [loadInode, h0, h1, h2, h3, h4, h5, h6, h7, h8, h9, h10, h11, h12, h13, h14, h15,
    h16, h17, h18, h19, h20]
  rfl

theorem loadInode_congr {b b' : Buf} {o : Nat} (h : ∀ i, o ≤ i → i < o + 128 → b i = b' i) :
    loadInode b o = loadInode b' o := by
  have hl : ∀ k n, k + n ≤ 128 → load b (o + k) n = load b' (o + k) n := by
    intro k n hk
    apply load_congr
    intro i hi hi'
    exact h i (by omega) (by omega)
  have h0 : load b o 8 = load b' o 8 := hl 0 8 (by omega)
  simp only [loadInode, h0, hl _ _ (show 8 + 4 ≤ 128 by omega),
    hl _ _ (show 12 + 4 ≤ 128 by omega), hl _ _ (show 16 + 4 ≤ 128 by omega),
    hl _ _ (show 20 + 4 ≤ 128 by omega), hl _ _ (show 24 + 8 ≤ 128 by omega),
    hl _ _ (show 32 + 8 ≤ 128 by omega), hl _ _ (show 40 + 8 ≤ 128 by omega),
    hl _ _ (show 48 + 8 ≤ 128 by omega), hl _ _ (show 56 + 8 ≤ 128 by omega),
    hl _ _ (show 64 + 8 ≤ 128 by omega), hl _ _ (show 72 + 8 ≤ 128 by omega),
    hl _ _ (show 80 + 8 ≤ 128 by omega), hl _ _ (show 88 + 8 ≤ 128 by omega),
    hl _ _ (show 96 + 8 ≤ 128 by omega), hl _ _ (show 104 + 4 ≤ 128 by omega),
    hl _ _ (show 108 + 4 ≤ 128 by omega), hl _ _ (show 112 + 4 ≤ 128 by omega),
    hl _ _ (show 116 + 4 ≤ 128 by omega), hl _ _ (show 120 + 4 ≤ 128 by omega),
    hl _ _ (show 124 + 4 ≤ 128 by omega)]

theorem storeInode_outside (b : Buf) (o : Nat) (i : Inode) {k : Nat}
    (h : k < o ∨ o + 128 ≤ k) : storeInode b o i k = b k := by
  apply storeFields_outside
  simp only [inodeFields, forall_mem_cons, not_mem_nil, false_imp_iff, implies_true, and_true]
  omega

theorem loadInode_fits (b : Buf) (o : Nat) : (loadInode b o).Fits := by
  have h8 : ∀ k, load b k 8 < 2 ^ 64 := fun k => load_lt b k 8
  have h4 : ∀ k, load b k 4 < 2 ^ 32 := fun k => load_lt b k 4
  constructor <;>
    simp only [loadInode, forall_mem_cons, not_mem_nil, false_imp_iff, implies_true,
      and_self, length_cons, length_nil, h8, h4]

theorem Inode.Fits.wrap_eq {i : Inode} (h : i.Fits) : i.wrap = i := by
  obtain ⟨e0, e1, e2, e3, he⟩ : ∃ e0 e1 e2 e3, i.extents = [e0, e1, e2, e3] := by
    match hl : i.extents, h.slots with
    | [e0, e1, e2, e3], _ => exact ⟨e0, e1, e2, e3, rfl⟩
  have hx := h.extents
  simp only [he, forall_mem_cons, not_mem_nil, false_imp_iff, implies_true, and_true] at hx
  obtain ⟨⟨a0, b0⟩, ⟨a1, b1⟩, ⟨a2, b2⟩, ⟨a3, b3⟩⟩ := hx
  obtain ⟨hi, hm, hu, hg, hf, hs, hgen, -, -, hl, h1, h2, h3, h4, h5⟩ := h
  cases i
  simp_all [Inode.wrap, Inode.ext, u64, u32, Nat.mod_eq_of_lt]

end RixuriOS.Rixfs
