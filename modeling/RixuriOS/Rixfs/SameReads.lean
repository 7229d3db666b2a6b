import RixuriOS.Rixfs.FsckSpec

/-!
# Images that read alike

The structural checks look at an image only through its inodes and through the
bytes of its directories. Two mounted images that agree on these pass or fail
the checks together, whatever their bitmaps, journals and hints are.
-/

namespace RixuriOS.Rixfs

open ByteCodec CrashStore ExtentList ExceptLoop

/-- Two mounted images with the same geometry, inodes and file contents. -/
structure SameReads (f g : Fs) : Prop where
  mounted : f.mounted = g.mounted
  sectorSize : f.dev.sectorSize = g.dev.sectorSize
  totalSectors : f.super.totalSectors = g.super.totalSectors
  dataStartSector : f.super.dataStartSector = g.super.dataStartSector
  inodeCount : f.super.inodeCount = g.super.inodeCount
  rootInode : f.super.rootInode = g.super.rootInode
  inode : ∀ k, readInode f k = readInode g k
  read : ∀ k off n, rixfsRead f k off n = rixfsRead g k off n

variable {i : Inode} {k : Nat}

section

variable {f g : Fs} (h : SameReads f g)

include h

namespace SameReads

theorem readEnt (k off : Nat) : readEnt f k off = readEnt g k off := by
  rw [Rixfs.readEnt, Rixfs.readEnt, h.read]

theorem readDirInode (k : Nat) : readDirInode f k = readDirInode g k := by
  rw [Rixfs.readDirInode, Rixfs.readDirInode, h.inode]

theorem readdirLoop (k size cap n off : Nat) :
    readdirLoop f k size cap n off = readdirLoop g k size cap n off := by
  induction n generalizing off with
  | zero => rfl
  | succ n ih => simp only [Rixfs.readdirLoop, h.readEnt, h.read, h.sectorSize, ih]

theorem readdir (k off cap : Nat) : readdir f k off cap = readdir g k off cap := by
  simp only [Rixfs.readdir, h.mounted, h.readDirInode, h.readdirLoop]

theorem inodeAt (k : Nat) : f.inodeAt k = g.inodeAt k := by
  rw [Fs.inodeAt, Fs.inodeAt, h.inode]

theorem live (k : Nat) : f.Live k ↔ g.Live k := by
  rw [Fs.Live, Fs.Live, h.inodeAt, h.inodeCount]

theorem isDir (k : Nat) : f.IsDir k ↔ g.IsDir k := by
  rw [Fs.IsDir, Fs.IsDir, h.inodeAt]

theorem dirItems (k n off : Nat) : dirItems f k n off = dirItems g k n off := by
  induction n generalizing off with
  | zero => rfl
  | succ n ih => simp only [Rixfs.dirItems, h.readdir, ih]

theorem entries (k : Nat) : f.entries k = g.entries k := by
  rw [Fs.entries, Fs.entries, h.inodeAt, h.dirItems]

theorem listable (k : Nat) : f.Listable k ↔ g.Listable k := by
  rw [Fs.Listable, Fs.Listable, h.inodeAt, h.dirItems]

theorem linkEntries (k : Nat) : f.linkEntries k = g.linkEntries k := by
  simp only [Fs.linkEntries, h.inodeCount, h.live, h.isDir, h.entries]

theorem overEntries {σ : Type} (k : Nat) (i : Inode) (bad : Int)
    (body : σ → Dirent → Except Int σ) (st : σ) :
    overEntries f k i bad body st = overEntries g k i bad body st := by
  have hloop : ∀ n off st,
      forEntries f k bad body n off st = forEntries g k bad body n off st := by
    intro n
    induction n with
    | zero => exact fun off st => rfl
    | succ n ih =>
      intro off st
      simp only [forEntries, h.readdir, ih]
  exact hloop _ _ _

theorem visitDir : visitDir f = visitDir g := by
  have hentry : visitEntry f = visitEntry g := by
    funext st e
    simp only [visitEntry, h.inodeCount]
  funext st d
  simp only [Rixfs.visitDir, h.inode, h.overEntries, hentry]

theorem reachLoop (n : Nat) (seen : Seen) : reachLoop f n seen = reachLoop g n seen := by
  induction n generalizing seen with
  | zero => rfl
  | succ n ih => simp only [Rixfs.reachLoop, h.visitDir, h.inodeCount, ih]

theorem allSeen (seen : Seen) (l : List Nat) : allSeen f seen l = allSeen g seen l := by
  induction l with
  | nil => rfl
  | cons k l ih => simp only [Rixfs.allSeen, h.inode, ih]

theorem checkReachable : checkReachable f = checkReachable g := by
  simp only [Rixfs.checkReachable, h.inodeCount, h.rootInode, h.reachLoop, h.allSeen]

theorem checkEntry (e : Dirent) : checkEntry f e = checkEntry g e := by
  simp only [Rixfs.checkEntry, h.inodeCount, h.inode]

theorem slotListable (k : Nat) : SlotListable f k ↔ SlotListable g k := by
  simp only [SlotListable, h.inode, h.live, h.isDir, h.listable]

theorem linksOk (k : Nat) : LinksOk f k ↔ LinksOk g k := by
  simp only [LinksOk, h.inode, h.inodeCount, h.rootInode, h.slotListable, h.linkEntries]

variable {ignore ignore' : Bool}

theorem inodeOk (hok : InodeOk f ignore k i)
    (hbits : ∀ s ∈ blocks i.extents, bitmapTest g ignore' s = .ok true) :
    InodeOk g ignore' k i := by
  refine ⟨hok.fmt, hok.self, ?_, ?_, hok.total, hbits, ?_, ?_⟩
  · intro j hj
    have hap := hok.prior j hj
    rwa [ApartFrom, h.inode] at hap
  · intro e he hne
    have hin := hok.inData e he hne
    rwa [InData, h.dataStartSector, h.totalSectors] at hin
  · rw [← h.sectorSize]
    exact hok.size
  intro hd
  obtain ⟨hl, hall⟩ := hok.dir hd
  rw [h.entries] at hall
  refine ⟨(h.listable k).1 hl, fun e he => ?_⟩
  rw [← h.checkEntry]
  exact hall e he

/-- The structural checks carry over to an image that reads alike, if its bitmap
marks the sectors of the live inodes or is ignored. -/
theorem structOk (hok : StructOk f ignore) (hbits : ∀ k, g.Live k →
      ∀ s ∈ blocks (g.inodeAt k).extents, bitmapTest g ignore' s = .ok true) :
    StructOk g ignore' := by
  have hc := h.inodeCount
  refine ⟨?_, ?_, ?_, ?_, ?_, ?_⟩
  · rw [← h.rootInode]
    exact hok.rootPos
  · rw [← h.rootInode, ← hc]
    exact hok.rootLe
  · intro k hk
    rw [← hc] at hk
    obtain ⟨i, hread, hi⟩ := hok.slots k hk
    have hread' : Rixfs.readInode g k = .ok i := by rw [← h.inode, hread]
    refine ⟨i, hread', fun hne => ⟨(hi hne).1, h.inodeOk (hi hne).2 ?_⟩⟩
    have hk' := List.mem_range'_1.1 hk
    have hlive : g.Live k := by
      rw [Fs.Live, inodeAt_of_ok hread', ← hc]
      exact ⟨hk'.1, by omega, hne⟩
    have hb := hbits k hlive
    rwa [inodeAt_of_ok hread'] at hb
  · have hroot := hok.root
    rwa [rootOk, h.rootInode, h.inode] at hroot
  · rw [← h.checkReachable]
    exact hok.reach
  intro k hk
  rw [← h.linksOk]
  rw [← hc] at hk
  exact hok.links k hk

end SameReads

end

/-! ## Images with the same sectors -/

theorem readLoop_congr {f g : Fs} (hss : f.dev.sectorSize = g.dev.sectorSize)
    (htot : f.super.totalSectors = g.super.totalSectors)
    (hrd : ∀ pos s, extentMap i.extents pos = some s → s < f.super.totalSectors →
      f.dev.rd s = g.dev.rd s)
    (off size n ls : Nat) (buf : Buf) (done : Nat) :
    readLoop f i off size n ls buf done = readLoop g i off size n ls buf done := by
  induction n generalizing ls buf done with
  | zero => rfl
  | succ n ih =>
    simp only [readLoop]
    cases hmap : extentMap i.extents ls with
    | none => rfl
    | some ps =>
    simp only [← htot, ← hss, ih]
    split_ifs with hlt
    · rfl
    · rw [hrd ls ps hmap (by omega)]

/-- Two handles on devices of the same size with the same superblock, up to the
two counters that live in memory. -/
structure SameGeometry (f g : Fs) : Prop where
  mounted : f.mounted = g.mounted
  sectorSize : f.dev.sectorSize = g.dev.sectorSize
  sectorCount : f.dev.sectorCount = g.dev.sectorCount
  super : g.super = { f.super with
    freeHint := g.super.freeHint, journalGeneration := g.super.journalGeneration }

namespace SameGeometry

theorem refl (f : Fs) : SameGeometry f f := ⟨rfl, rfl, rfl, rfl⟩

section

variable {f g : Fs} (h : SameGeometry f g)

include h

theorem inodeLocation (k : Nat) : inodeLocation f k = inodeLocation g k := by
  rw [Rixfs.inodeLocation, Rixfs.inodeLocation, h.super, h.mounted, h.sectorSize]

theorem totalSectors : f.super.totalSectors = g.super.totalSectors := by
  rw [h.super]

theorem dataStartSector : f.super.dataStartSector = g.super.dataStartSector := by
  rw [h.super]

theorem inodeCount : f.super.inodeCount = g.super.inodeCount := by
  rw [h.super]

theorem rootInode : f.super.rootInode = g.super.rootInode := by
  rw [h.super]

theorem rd {s : Nat} (hs : s < f.dev.sectorCount → f.dev.disk s = g.dev.disk s) :
    f.dev.rd s = g.dev.rd s := by
  rw [Device.rd, Device.rd, ← h.sectorCount]
  split_ifs with hlt
  · rw [hs hlt]
  · rfl

theorem readInode
    (ht : ∀ s o, Rixfs.inodeLocation f k = .ok (s, o) → f.dev.disk s = g.dev.disk s) :
    readInode f k = readInode g k := by
  rw [Rixfs.readInode, Rixfs.readInode, ← h.mounted, ← h.inodeLocation]
  cases hloc : Rixfs.inodeLocation f k with
  | error e => rfl
  | ok p =>
    obtain ⟨s, o⟩ := p
    simp only [h.rd fun _ => ht s o hloc]

theorem readLoop
    (hd : ∀ pos s, extentMap i.extents pos = some s → s < f.super.totalSectors →
      f.dev.disk s = g.dev.disk s)
    (off size n ls : Nat) (buf : Buf) (done : Nat) :
    readLoop f i off size n ls buf done = readLoop g i off size n ls buf done :=
  readLoop_congr h.sectorSize h.totalSectors
    (fun pos s hmap hlt => h.rd fun _ => hd pos s hmap hlt) off size n ls buf done

/-- Images with the same sectors of the inode table and of the live inodes read
alike. -/
theorem sameReads
    (ht : ∀ k s o, Rixfs.inodeLocation f k = .ok (s, o) → f.dev.disk s = g.dev.disk s)
    (hd : ∀ k i, Rixfs.readInode f k = .ok i → i.inode = k → ∀ pos s,
      extentMap i.extents pos = some s → s < f.super.totalSectors →
      f.dev.disk s = g.dev.disk s) : SameReads f g := by
  have hinode : ∀ k, Rixfs.readInode f k = Rixfs.readInode g k := fun k => h.readInode (ht k)
  refine ⟨h.mounted, h.sectorSize, h.totalSectors, h.dataStartSector, h.inodeCount, h.rootInode,
    hinode, ?_⟩
  intro k off n
  simp only [rixfsRead, ioPrepare, ← hinode, ← h.mounted, ← h.sectorSize]
  split_ifs <;> try rfl
  cases hread : Rixfs.readInode f k with
  | error e => rfl
  | ok i =>
  simp only
  split_ifs with hbad
  · rfl
  · exact h.readLoop (hd k i hread (by omega)) _ _ _ _ _ _

end

end SameGeometry

end RixuriOS.Rixfs
