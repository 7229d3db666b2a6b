import RixuriOS.Rixfs.FsckSpec
import RixuriOS.Rixfs.Operations

/-!
# Soundness of the checker

An image on which `rixfs_fsck` returns zero is consistent. The checker compares
only two numbers, of the allocated and of the referenced sectors. Since no two extents
share a sector and every referenced sector is allocated, equal numbers mean that the
allocated sectors are the referenced ones.
-/

namespace RixuriOS.Rixfs

open ByteCodec CrashStore ExtentList List

/-- A consistent image: the extents of the live inodes lie in the data area
without overlaps, the bitmap marks exactly their sectors, every live inode is
reachable, the link counts are right, and so are the types of the entries. -/
structure Consistent (f : Fs) : Prop where
  inData : ∀ k, f.Live k → ∀ e ∈ (f.inodeAt k).extents, e.len ≠ 0 → InData f e
  within : ∀ k, f.Live k → (f.inodeAt k).extents.Pairwise Extent.Apart
  across : ∀ j k, f.Live j → f.Live k → j ≠ k →
    ∀ a ∈ (f.inodeAt j).extents, ∀ b ∈ (f.inodeAt k).extents, a.Apart b
  bits : ∀ s, f.super.dataStartSector ≤ s → s < f.super.totalSectors →
    (f.used s ↔ ∃ k, f.Live k ∧ s ∈ blocks (f.inodeAt k).extents)
  reach : ∀ k, f.Live k → f.Reachable k
  listable : ∀ d, f.Live d → f.IsDir d → f.Listable d
  links : ∀ k, f.Live k → ¬f.IsDir k → (f.inodeAt k).links = f.linkEntries k
  types : ∀ d, f.Live d → f.IsDir d → ∀ e ∈ f.entries d,
    f.Live e.inode ∧ e.type = expectedType (f.inodeAt e.inode)

section

variable {f : Fs} {ignore : Bool}

variable {k : Nat}

theorem Fs.Live.mem (h : f.Live k) : k ∈ range' 1 f.super.inodeCount := by
  have h1 := h.1
  have h2 := h.2.1
  exact mem_range'_1.2 ⟨h1, by omega⟩

theorem StructOk.inode (h : StructOk f ignore) (hk : f.Live k) :
    readInode f k = .ok (f.inodeAt k) ∧ (f.inodeAt k).inode = k ∧
      InodeOk f ignore k (f.inodeAt k) := by
  obtain ⟨i, hread, hok⟩ := h.slots k hk.mem
  have hne := hk.2.2
  rw [inodeAt_of_ok hread] at hne ⊢
  exact ⟨hread, (hok hne).1, (hok hne).2⟩

variable {j : Nat}

theorem StructOk.apart_of_lt (h : StructOk f ignore) (hj : f.Live j) (hk : f.Live k) (hlt : j < k) :
    ∀ a ∈ (f.inodeAt k).extents, ∀ b ∈ (f.inodeAt j).extents, a.Apart b := by
  obtain ⟨-, -, hok⟩ := h.inode hk
  have h1 := hj.1
  obtain ⟨i, hread, hap⟩ := hok.prior j (mem_range'_1.2 ⟨h1, by omega⟩)
  have hne := hj.2.2
  rw [inodeAt_of_ok hread] at hne ⊢
  exact hap hne

theorem StructOk.apart (h : StructOk f ignore) (hj : f.Live j) (hk : f.Live k) (hne : j ≠ k) :
    ∀ a ∈ (f.inodeAt j).extents, ∀ b ∈ (f.inodeAt k).extents, a.Apart b := by
  intro a ha b hb
  rcases Nat.lt_or_gt_of_ne hne with hlt | hlt
  · exact (h.apart_of_lt hj hk hlt b hb a ha).symm
  · exact h.apart_of_lt hk hj hlt a ha b hb

end

def Fs.refSectors (f : Fs) : List Nat :=
  (range' 1 f.super.inodeCount).flatMap fun k =>
    if (f.inodeAt k).inode = 0 then [] else blocks (f.inodeAt k).extents

variable {f : Fs} {s : Nat} {ignore : Bool}

theorem mem_refSectors : s ∈ f.refSectors ↔ ∃ k, f.Live k ∧ s ∈ blocks (f.inodeAt k).extents := by
  simp only [Fs.refSectors, mem_flatMap, mem_range'_1]
  constructor
  · rintro ⟨k, hk, hs⟩
    split_ifs at hs with h0
    · cases hs
    · exact ⟨k, ⟨hk.1, by omega, h0⟩, hs⟩
  · rintro ⟨k, hk, hs⟩
    exact ⟨k, mem_range'_1.1 hk.mem, by rwa [if_neg hk.2.2]⟩

theorem length_refSectors (f : Fs) : f.refSectors.length = f.allRefs := by
  rw [Fs.refSectors, length_flatMap, Fs.allRefs]
  congr 1
  apply map_congr_left
  intro k _
  rw [Fs.refs]
  split_ifs
  · rfl
  · exact length_blocks _

theorem StructOk.nodup_refSectors (h : StructOk f ignore) : f.refSectors.Nodup := by
  rw [Fs.refSectors, nodup_flatMap]
  constructor
  · intro k hk
    split_ifs with h0
    · exact nodup_nil
    have hlive : f.Live k := by
      have := mem_range'_1.1 hk
      exact ⟨this.1, by omega, h0⟩
    exact nodup_blocks_iff.2 (h.inode hlive).2.2.self
  refine List.Pairwise.imp_of_mem ?_ (nodup_range' (n := f.super.inodeCount))
  intro j k hj hk hne
  rw [Function.onFun]
  split_ifs with hj0 hk0 <;> try simp
  have hj' := mem_range'_1.1 hj
  have hk' := mem_range'_1.1 hk
  exact disjoint_blocks_iff.2 (h.apart ⟨hj'.1, by omega, hj0⟩ ⟨hk'.1, by omega, ‹_›⟩ hne)

/-- Equal numbers of allocated and of referenced sectors mean that these are the
same sectors. -/
theorem StructOk.used_iff (h : StructOk f false) (hcount : countAllocated f false = .ok f.allRefs)
    (hlo : f.super.dataStartSector ≤ s) (hhi : s < f.super.totalSectors) :
    f.used s ↔ s ∈ f.refSectors := by
  obtain ⟨-, -, hnum⟩ := countAllocated_eq_ok.1 hcount
  set area := range' f.super.dataStartSector
    (f.super.totalSectors - f.super.dataStartSector) with harea
  have hmem : ∀ x, x ∈ area.filter (fun s => bitmapTest f false s = .ok true) ↔
      (f.super.dataStartSector ≤ x ∧ x < f.super.totalSectors) ∧ f.used x := by
    intro x
    rw [harea, mem_filter, mem_range'_1, decide_eq_true_eq, Fs.used]
    constructor
    · rintro ⟨h1, h2⟩
      exact ⟨⟨h1.1, by omega⟩, h2⟩
    · rintro ⟨h1, h2⟩
      exact ⟨⟨h1.1, by omega⟩, h2⟩
  have hsub : f.refSectors ⊆ area.filter (fun s => bitmapTest f false s = .ok true) := by
    intro x hx
    obtain ⟨k, hk, hb⟩ := mem_refSectors.1 hx
    obtain ⟨-, -, hok⟩ := h.inode hk
    obtain ⟨e, he, h1, h2⟩ := mem_blocks.1 hb
    have hin := hok.inData e he (by omega)
    unfold InData at hin
    exact (hmem x).2 ⟨⟨by omega, by omega⟩, hok.bits x hb⟩
  have hperm : f.refSectors.Perm (area.filter (fun s => bitmapTest f false s = .ok true)) := by
    apply (subperm_of_subset h.nodup_refSectors hsub).perm_of_length_le
    rw [length_refSectors, hnum, countP_eq_length_filter]
  rw [hperm.mem_iff, hmem]
  exact ⟨fun hu => ⟨⟨hlo, hhi⟩, hu⟩, fun hu => hu.2⟩

theorem StructOk.refSectors_inData (h : StructOk f ignore) (hs : s ∈ f.refSectors) :
    f.super.dataStartSector ≤ s ∧ s < f.super.totalSectors := by
  obtain ⟨k, hk, hb⟩ := mem_refSectors.1 hs
  obtain ⟨e, he, h1, h2⟩ := mem_blocks.1 hb
  have hin := (h.inode hk).2.2.inData e he (by omega)
  unfold InData at hin
  omega

/-- Conversely, a bitmap that marks exactly the referenced sectors has the number
of allocated sectors that the checker expects. -/
theorem StructOk.countAllocated_eq (h : StructOk f ignore)
    (hds : f.super.dataStartSector < f.super.totalSectors)
    (htest : ∀ s, f.super.dataStartSector ≤ s → s < f.super.totalSectors →
      ∃ u, bitmapTest f false s = .ok u)
    (hused : ∀ s, f.super.dataStartSector ≤ s → s < f.super.totalSectors →
      (f.used s ↔ s ∈ f.refSectors)) : countAllocated f false = .ok f.allRefs := by
  refine countAllocated_eq_ok.2 ⟨hds, ?_, ?_⟩
  · intro s hs
    rw [mem_range'_1] at hs
    exact htest s hs.1 (by omega)
  rw [← length_refSectors, countP_eq_length_filter]
  apply List.Perm.length_eq
  rw [perm_ext_iff_of_nodup h.nodup_refSectors (List.Nodup.filter _ nodup_range')]
  intro s
  rw [mem_filter, mem_range'_1, decide_eq_true_eq]
  constructor
  · intro hs
    have hin := h.refSectors_inData hs
    exact ⟨⟨hin.1, by omega⟩, (hused s hin.1 hin.2).2 hs⟩
  · rintro ⟨h1, hu⟩
    exact (hused s h1.1 (by omega)).1 hu

theorem checkEntry_eq_ok {e : Dirent} (h : checkEntry f e = .ok ()) :
    f.Live e.inode ∧ e.type = expectedType (f.inodeAt e.inode) := by
  unfold checkEntry at h
  split_ifs at h with hrange
  cases hread : readInode f e.inode with
  | error c => simp [hread] at h
  | ok child =>
  simp only [hread] at h
  split_ifs at h with h0 htype
  rw [Fs.Live, inodeAt_of_ok hread]
  exact ⟨⟨by omega, by omega, h0⟩, not_not.1 htype⟩

variable {r : Nat × Nat} {d : Device}

theorem consistent_of_fsckMounted (h : fsckMounted f = .ok r) : Consistent f := by
  obtain ⟨hs, hcount⟩ := fsckMounted_isOk.1 ⟨r, h⟩
  constructor
  · exact fun k hk => (hs.inode hk).2.2.inData
  · exact fun k hk => (hs.inode hk).2.2.self
  · exact fun j k hj hk hne => hs.apart hj hk hne
  · intro s hlo hhi
    rw [hs.used_iff hcount hlo hhi, mem_refSectors]
  · exact fun k hk => reachable_of_checkReachable hs.reach hk
  · exact fun d hd hdir => ((hs.inode hd).2.2.dir hdir).1
  · intro k hk hdir
    obtain ⟨hread, -, -⟩ := hs.inode hk
    have hroot : k ≠ f.super.rootInode := by
      rintro rfl
      have hroot := hs.root
      rw [rootOk, hread] at hroot
      exact hdir (of_decide_eq_true hroot).2
    obtain ⟨i, hread', hlinks⟩ := hs.links k hk.mem
    have hi := inodeAt_of_ok hread'
    have hne := hk.2.2
    rw [Fs.IsDir] at hdir
    rw [hi] at hne hdir ⊢
    exact (hlinks hne hroot).2.2.2 hdir
  · intro d hd hdir e he
    exact checkEntry_eq_ok (((hs.inode hd).2.2.dir hdir).2 e he)

theorem fsck_of_mount (h : rixfsMount d 0 = (0, f)) : fsck d = (fsckMounted f, f.dev) := by
  rw [fsck, h]
  rw [if_neg (by simp)]

theorem mount_of_fsck (h : (fsck d).1 = .ok r) :
    rixfsMount d 0 = (0, (rixfsMount d 0).2) ∧ fsckMounted (rixfsMount d 0).2 = .ok r := by
  rw [fsck] at h
  by_cases hmount : (rixfsMount d 0).1 = 0
  · rw [if_neg (by simpa using hmount)] at h
    exact ⟨by rw [← hmount], h⟩
  · rw [if_pos hmount] at h
    cases h

/-- The checker is sound: if it returns zero, the image it has mounted is
consistent. That image is the device itself, unless its journal held a record
that the mount has redone. The bound on the inode count is the size of the bit
array in which the checker marks what it has reached. -/
theorem fsck_sound (d : Device) {r : Nat × Nat} (h : (fsck d).1 = .ok r)
    (_hcount : (loadSuper (d.disk 0)).inodeCount ≤ 65535) :
    ∃ f, rixfsMount d 0 = (0, f) ∧ (fsck d).2 = f.dev ∧ f.super = loadSuper (d.disk 0) ∧
      (NoMagic (d.disk (loadSuper (d.disk 0)).journalSector) → f.dev = d) ∧ Consistent f := by
  obtain ⟨heq, hok⟩ := mount_of_fsck h
  refine ⟨_, heq, ?_, congrArg Fs.super (rixfsMount_super heq), ?_, consistent_of_fsckMounted hok⟩
  · rw [fsck_of_mount heq]
  intro hm
  obtain ⟨hlow, hhigh, hcheck, -⟩ := of_rixfsMount heq
  rw [rixfsMount_of_noMagic 0 hlow hhigh hcheck hm]
  rfl

/-- An image of 128 sectors whose root directory, in sector 21, has one entry `x`, of the
type `type`, for the inode `i` with the number 2. The sectors up to 22 are allocated. -/
def namedImage (type : Nat) (i : Inode) : Device where
  sectorSize := 512
  sectorCount := 128
  disk := fun s =>
    if s = 0 then storeSuper (formatSuper 512 128 8)
    else if s = 1 then storeInode (storeInode zeroBuf 0 { rootInodeOf 21 with size := 512 }) 128 i
    else if s = 3 then fun k => if k < 2 then 255 else if k = 2 then 0x7F else 0
    else if s = 21 then dirWriteAt zeroBuf 0 2 512 type [0x78]
    else zeroBuf
  log := []

def namedInode (format size : Nat) : Inode :=
  { newInode 2 (format ||| 0o644) 0 0 with
    size := size
    extents := [⟨0, 0⟩, ⟨22, 1⟩, ⟨0, 0⟩, ⟨0, 0⟩] }

theorem fsck_namedImage :
    (fsck (namedImage dirTypeFile (namedInode ifreg 300))).1 = .ok (2, 2) := by
  decide +kernel

theorem fsck_sound_named :
    let d := namedImage dirTypeFile (namedInode ifreg 300)
    (fsck d).1 = .ok (2, 2) ∧ ∃ f, rixfsMount d 0 = (0, f) ∧ Consistent f := by
  intro d
  obtain ⟨f, hmount, -, -, -, hf⟩ := fsck_sound d fsck_namedImage (by decide +kernel)
  exact ⟨fsck_namedImage, f, hmount, hf⟩

end RixuriOS.Rixfs
