import RixuriOS.Lib.ExtentBytes
import RixuriOS.Rixfs.FsckSound
import RixuriOS.Rixfs.Listing
import RixuriOS.Rixfs.Replay

/-!
# Reading and writing a range of bytes

`io_file` walks over the logical sectors of a range and copies a part of each of
them. Its two loops read and write the bytes that the extents of the inode put at
the positions of the range, and nothing else.
-/

namespace RixuriOS.Rixfs

open ByteCodec CrashStore ExtentList Option Device

/-! ## One step of the loop -/

/-- The loop is at the logical sector `ls` of the range with `done` bytes behind it. -/
structure IoAt (ss off size ls done : Nat) : Prop where
  first : off / ss ≤ ls
  last : ls ≤ (off + size - 1) / ss
  pos : ls * ss + ioBegin ss off ls = off + done

def ioLen (ss off size ls : Nat) : Nat := ioEnd ss off size ls - ioBegin ss off ls

section

variable {ss off size ls done : Nat}

theorem ioAt_start (ss off : Nat) (hsize : 0 < size) : IoAt ss off size (off / ss) 0 := by
  refine ⟨le_rfl, Nat.div_le_div_right (by omega), ?_⟩
  rw [ioBegin, if_pos rfl, Nat.mul_comm]
  exact Nat.div_add_mod off ss

theorem ioBegin_le (off ls : Nat) (hss : 0 < ss) : ioBegin ss off ls ≤ ss := by
  rw [ioBegin]
  split_ifs
  · exact (Nat.mod_lt off hss).le
  · exact Nat.zero_le ss

section

variable (h : IoAt ss off size ls done)

include h

theorem IoAt.begin_le (hsize : 0 < size) (hlast : ls = (off + size - 1) / ss) :
    ioBegin ss off ls ≤ (off + size - 1) % ss + 1 := by
  have hpos := h.pos
  have hdiv := Nat.div_add_mod (off + size - 1) ss
  have hdiv' := Nat.div_add_mod off ss
  rw [← hlast, Nat.mul_comm] at hdiv
  rw [ioBegin] at hpos ⊢
  split_ifs at hpos ⊢ with hfirst
  · rw [← hfirst, Nat.mul_comm] at hdiv'
    omega
  · omega

theorem IoAt.done_last (hsize : 0 < size) (hlast : ls = (off + size - 1) / ss) :
    done + ioLen ss off size ls = size := by
  have hpos := h.pos
  have hle := h.begin_le hsize hlast
  have hdiv := Nat.div_add_mod (off + size - 1) ss
  rw [← hlast, Nat.mul_comm] at hdiv
  rw [ioLen, ioEnd, if_pos hlast]
  omega

theorem IoAt.bounds (hss : 0 < ss) (hsize : 0 < size) :
    ioBegin ss off ls + ioLen ss off size ls ≤ ss ∧ done + ioLen ss off size ls ≤ size := by
  by_cases hlast : ls = (off + size - 1) / ss
  · have hle := h.begin_le hsize hlast
    have hmod := Nat.mod_lt (off + size - 1) hss
    refine ⟨?_, (h.done_last hsize hlast).le⟩
    rw [ioLen, ioEnd, if_pos hlast]
    omega
  have hpos := h.pos
  have hle := ioBegin_le off ls hss
  have hdiv := Nat.div_add_mod (off + size - 1) ss
  have hlt : ls * ss + ss ≤ (off + size - 1) / ss * ss := by
    rw [← Nat.succ_mul]
    exact Nat.mul_le_mul_right ss (Nat.lt_of_le_of_ne h.last hlast)
  rw [Nat.mul_comm] at hdiv
  rw [ioLen, ioEnd, if_neg hlast]
  omega

theorem IoAt.next (hss : 0 < ss) (hlast : ls < (off + size - 1) / ss) :
    IoAt ss off size (ls + 1) (done + ioLen ss off size ls) := by
  have hpos := h.pos
  have hfirst := h.first
  have hle := ioBegin_le off ls hss
  refine ⟨by omega, hlast, ?_⟩
  rw [ioLen, ioEnd, if_neg (Nat.ne_of_lt hlast), ioBegin, if_neg (by omega), Nat.succ_mul]
  omega

end

end

variable {done ls n off size ss : Nat} {f : Fs} {i : Inode} {l : List Extent}

/-- A byte of the part of a sector that the range covers, by its position in the
file. -/
theorem IoAt.split (h : IoAt ss off size ls done) {j : Nat} (hss : 0 < ss) (hsize : 0 < size)
    (h1 : done ≤ j) (h2 : j < done + ioLen ss off size ls) :
    (off + j) / ss = ls ∧ (off + j) % ss = ioBegin ss off ls + (j - done) := by
  have hpos := h.pos
  obtain ⟨hle, -⟩ := h.bounds hss hsize
  have heq : off + j = ls * ss + (ioBegin ss off ls + (j - done)) := by omega
  rw [heq, Nat.add_comm, Nat.add_mul_div_right _ _ hss, Nat.add_mul_mod_self_right,
    Nat.div_eq_of_lt (by omega), Nat.mod_eq_of_lt (by omega)]
  omega

/-- Conversely, a position in the sector `ls` is in the range if its byte is in the
part of the sector. -/
theorem IoAt.mem (h : IoAt ss off size ls done) {p : Nat} (hp : p / ss = ls) :
    (ioBegin ss off ls ≤ p % ss ∧ p % ss < ioBegin ss off ls + ioLen ss off size ls) ↔
      off + done ≤ p ∧ p < off + (done + ioLen ss off size ls) := by
  have hpos := h.pos
  have hdiv := Nat.div_add_mod p ss
  rw [hp, Nat.mul_comm] at hdiv
  omega

/-! ## The reading loop -/

/-- The handle can read and write the sectors of a list of extents. -/
structure Accessible (f : Fs) (l : List Extent) : Prop where
  sectorPos : 0 < f.dev.sectorSize
  wide : ∀ s ∈ blocks l, s < 2 ^ 64
  low : ∀ s ∈ blocks l, s < f.super.totalSectors
  high : ∀ s ∈ blocks l, s < f.dev.sectorCount

theorem readLoop_spec (h : Accessible f i.extents) (hsize : 0 < size)
    (hat : IoAt f.dev.sectorSize off size ls done)
    (hn : ls + n = (off + size - 1) / f.dev.sectorSize) (buf : Buf) :
    if (off + size - 1) / f.dev.sectorSize < total i.extents then
      ∃ b, readLoop f i off size (n + 1) ls buf done = .ok b ∧
        (∀ j, done ≤ j → j < size →
          some (b j) = byteAt f.dev.sectorSize f.dev.disk i.extents (off + j)) ∧
        ∀ j, j < done → b j = buf j
    else readLoop f i off size (n + 1) ls buf done = .error (-6) := by
  have hss := h.sectorPos
  induction n generalizing ls done buf with
  | zero =>
    rw [Nat.add_zero] at hn
    rw [readLoop, extentMap_eq_locate h.wide]
    cases hloc : locate i.extents ls with
    | none =>
      have hno := total_le_of_locate hloc hn.le
      rw [if_neg hno.not_gt]
    | some s =>
    have hmem := locate_mem hloc
    have hyes : (off + size - 1) / f.dev.sectorSize < total i.extents := by
      rw [← hn, ← locate_isSome_iff, hloc]
      rfl
    have hdone := hat.done_last hsize hn
    rw [if_pos hyes]
    simp only [if_neg (Nat.not_le.2 (h.low s hmem)), rd_of_lt (h.high s hmem), readLoop]
    refine ⟨_, rfl, fun j h1 h2 => ?_, fun j hj => ?_⟩
    · obtain ⟨hdiv, hmod⟩ := hat.split hss hsize h1 (by omega)
      rw [byteAt, hdiv, hloc, map_some, hmod, copyBytes]
      rw [if_pos ⟨h1, by rw [ioLen] at hdone; omega⟩]
    · rw [copyBytes, if_neg (by omega)]
  | succ n ih =>
    have hlt : ls < (off + size - 1) / f.dev.sectorSize := by omega
    have hnext := hat.next hss hlt
    rw [readLoop, extentMap_eq_locate h.wide]
    cases hloc : locate i.extents ls with
    | none =>
      have hno := total_le_of_locate hloc hlt.le
      rw [if_neg hno.not_gt]
    | some s =>
    have hmem := locate_mem hloc
    simp only [if_neg (Nat.not_le.2 (h.low s hmem)), rd_of_lt (h.high s hmem)]
    have hrest := ih hnext (by omega) (copyBytes buf done (f.dev.disk s)
      (ioBegin f.dev.sectorSize off ls) (ioLen f.dev.sectorSize off size ls))
    split_ifs at hrest ⊢ with hcov
    swap
    · exact hrest
    obtain ⟨b, hrun, hread, hkeep⟩ := hrest
    refine ⟨b, hrun, fun j h1 h2 => ?_, fun j hj => ?_⟩
    · by_cases hj : j < done + ioLen f.dev.sectorSize off size ls
      · obtain ⟨hdiv, hmod⟩ := hat.split hss hsize h1 hj
        rw [hkeep j hj, byteAt, hdiv, hloc, map_some, hmod, copyBytes, if_pos ⟨h1, hj⟩]
      · exact hread j (by omega) h2
    · rw [hkeep j (by omega), copyBytes, if_neg (by omega)]

/-! ## The writing loop -/

/-- What a write of the range from its byte number `done` on does to the disk and
what it returns. -/
structure Wrote (ss : Nat) (l : List Extent) (off size done : Nat) (data : Buf) (d d' : Disk Buf)
    (rc : Int) : Prop where
  code : rc = if (off + size - 1) / ss < total l then 0 else -6
  outside : ∀ s, (∀ q, off / ss ≤ q → q ≤ (off + size - 1) / ss → locate l q ≠ some s) →
    d' s = d s
  kept : ∀ p, p < off + done ∨ off + size ≤ p → byteAt ss d' l p = byteAt ss d l p
  written : rc = 0 → ∀ j, done ≤ j → j < size → byteAt ss d' l (off + j) = some (data j)

structure SameHandle (f g : Fs) : Prop where
  mounted : g.mounted = f.mounted
  super : g.super = f.super
  metaHint : g.metaHint = f.metaHint
  sectorSize : g.dev.sectorSize = f.dev.sectorSize
  sectorCount : g.dev.sectorCount = f.dev.sectorCount

variable {g : Fs} {d d' : Disk Buf} {rc : Int} {k : Nat}

theorem Accessible.congr (h : Accessible f l) (hg : SameHandle f g) : Accessible g l := by
  refine ⟨?_, h.wide, fun s hs => ?_, fun s hs => ?_⟩
  · rw [hg.sectorSize]
    exact h.sectorPos
  · rw [hg.super]
    exact h.low s hs
  · rw [hg.sectorCount]
    exact h.high s hs

section

variable {data : Buf} {s : Nat}

def writePart (d : Disk Buf) (ss off size ls done : Nat) (data : Buf) (s : Nat) : Disk Buf :=
  upd d s (copyBytes (d s) (ioBegin ss off ls) data done (ioLen ss off size ls))

variable (hat : IoAt ss off size ls done) (hnd : (blocks l).Nodup) (hloc : locate l ls = some s)

include hat hnd hloc

theorem byteAt_writePart (p : Nat) :
    byteAt ss (writePart d ss off size ls done data s) l p =
      if off + done ≤ p ∧ p < off + (done + ioLen ss off size ls) ∧ p / ss = ls then
        some (data (p - off))
      else byteAt ss d l p := by
  rw [writePart, byteAt_upd hnd hloc]
  by_cases hp : p / ss = ls
  · have hmem := hat.mem hp
    have hpos := hat.pos
    have hdiv := Nat.div_add_mod p ss
    rw [hp, Nat.mul_comm] at hdiv
    rw [if_pos hp, copyBytes]
    by_cases hin : ioBegin ss off ls ≤ p % ss ∧ p % ss < ioBegin ss off ls + ioLen ss off size ls
    · obtain ⟨h1, h2⟩ := hmem.1 hin
      have hidx : done + (p % ss - ioBegin ss off ls) = p - off := by omega
      rw [if_pos hin, if_pos ⟨h1, h2, hp⟩, hidx]
    · rw [if_neg hin, if_neg fun hr => hin (hmem.2 ⟨hr.1, hr.2.1⟩), byteAt, hp, hloc,
        map_some]
  · rw [if_neg hp, if_neg fun hr => hp hr.2.2]

theorem wrote_last (hss : 0 < ss) (hsize : 0 < size) (hlast : ls = (off + size - 1) / ss)
    (hcov : ls < total l) :
    Wrote ss l off size done data d (writePart d ss off size ls done data s) 0 := by
  have hdone := hat.done_last hsize hlast
  refine ⟨by rw [← hlast, if_pos hcov], fun t ht => upd_other ?_, fun p hp => ?_,
    fun _ j h1 h2 => ?_⟩
  · rintro rfl
    exact ht ls hat.first hat.last hloc
  · rw [byteAt_writePart hat hnd hloc, if_neg (by omega)]
  · obtain ⟨hdiv, -⟩ := hat.split hss hsize h1 (by omega)
    rw [byteAt_writePart hat hnd hloc, if_pos ⟨by omega, by omega, hdiv⟩, Nat.add_sub_cancel_left]

theorem Wrote.cons (hss : 0 < ss) (hsize : 0 < size) (h : Wrote ss l off size (done + ioLen ss
      off size ls) data (writePart d ss off size ls done data s) d' rc) :
    Wrote ss l off size done data d d' rc := by
  obtain ⟨-, hle⟩ := hat.bounds hss hsize
  refine ⟨h.code, fun t ht => ?_, fun p hp => ?_, fun h0 j h1 h2 => ?_⟩
  · rw [h.outside t ht]
    refine upd_other ?_
    rintro rfl
    exact ht ls hat.first hat.last hloc
  · rw [h.kept p (by omega), byteAt_writePart hat hnd hloc, if_neg (by omega)]
  by_cases hj : j < done + ioLen ss off size ls
  · obtain ⟨hdiv, -⟩ := hat.split hss hsize h1 hj
    rw [h.kept (off + j) (by omega), byteAt_writePart hat hnd hloc,
      if_pos ⟨by omega, by omega, hdiv⟩, Nat.add_sub_cancel_left]
  · exact h.written h0 j (by omega) h2

end

theorem writeLoop_spec (hnd : (blocks i.extents).Nodup) (hsize : 0 < size) (data : Buf)
    (h : Accessible f i.extents) (hat : IoAt f.dev.sectorSize off size ls done)
    (hn : ls + n = (off + size - 1) / f.dev.sectorSize) :
    let r := writeLoop i off size data (n + 1) ls done f
    SameHandle f r.2 ∧
      Wrote f.dev.sectorSize i.extents off size done data f.dev.disk r.2.dev.disk r.1 := by
  have hss := h.sectorPos
  induction n generalizing f ls done with
  | zero =>
    rw [Nat.add_zero] at hn
    rw [writeLoop, extentMap_eq_locate h.wide]
    cases hloc : locate i.extents ls with
    | none =>
      have hno := total_le_of_locate hloc hn.le
      refine ⟨⟨rfl, rfl, rfl, rfl, rfl⟩, ⟨by rw [if_neg hno.not_gt], fun _ _ => rfl, fun _ _ => rfl,
        fun h0 => ?_⟩⟩
      cases h0
    | some s =>
      have hmem := locate_mem hloc
      have hcov : ls < total i.extents := by
        rw [← locate_isSome_iff, hloc]
        rfl
      simp only [if_neg (Nat.not_le.2 (h.low s hmem)), rd_of_lt (h.high s hmem),
        wr_of_lt (h.high s hmem)]
      exact ⟨⟨rfl, rfl, rfl, rfl, rfl⟩, wrote_last hat hnd hloc hss hsize hn hcov⟩
  | succ n ih =>
    have hlt : ls < (off + size - 1) / f.dev.sectorSize := by omega
    have hnext := hat.next hss hlt
    rw [writeLoop, extentMap_eq_locate h.wide]
    cases hloc : locate i.extents ls with
    | none =>
      have hno := total_le_of_locate hloc hlt.le
      refine ⟨⟨rfl, rfl, rfl, rfl, rfl⟩, ⟨by rw [if_neg hno.not_gt], fun _ _ => rfl, fun _ _ => rfl,
        fun h0 => ?_⟩⟩
      cases h0
    | some s =>
      have hmem := locate_mem hloc
      simp only [if_neg (Nat.not_le.2 (h.low s hmem)), rd_of_lt (h.high s hmem),
        wr_of_lt (h.high s hmem)]
      have hsame : SameHandle f { f with dev := f.dev.put s (copyBytes (f.dev.disk s)
          (ioBegin f.dev.sectorSize off ls) data done (ioLen f.dev.sectorSize off size ls)) } :=
        ⟨rfl, rfl, rfl, rfl, rfl⟩
      have hn' : ls + 1 + n = (off + size - 1) / f.dev.sectorSize := by omega
      obtain ⟨hg, hwrote⟩ := ih (h.congr hsame) hnext hn' h.sectorPos
      refine ⟨?_, Wrote.cons hat hnd hloc hss hsize hwrote⟩
      exact ⟨hg.mounted, hg.super, hg.metaHint, hg.sectorSize, hg.sectorCount⟩

/-! ## The two calls -/

theorem readInode_fits (h : readInode f k = .ok i) : i.Fits := by
  rw [readInode] at h
  split_ifs at h
  cases hloc : inodeLocation f k with
  | error e => simp [hloc] at h
  | ok p =>
  rw [hloc] at h
  cases hrd : f.dev.rd p.1 with
  | none => simp [hrd] at h
  | some b =>
  simp only [hrd, Except.ok.injEq] at h
  rw [← h]
  exact loadInode_fits _ _

section

variable (hm : f.mounted = true) (hread : readInode f k = .ok i) (hself : i.inode = k)
  (hacc : Accessible f i.extents) (hle : off + size ≤ i.size)

include hread hself hle in
theorem ioPrepare_ok (hsize : 0 < size) : ioPrepare f k off size = .ok i := by
  have hfit := (readInode_fits hread).size
  rw [ioPrepare, if_neg (by omega), hread]
  simp only []
  rw [if_neg (by omega)]

theorem covered_iff (hss : 0 < ss) (hsize : 0 < size) :
    (off + size - 1) / ss < n ↔ off + size ≤ n * ss := by
  rw [Nat.div_lt_iff_lt_mul hss]
  omega

theorem ioSectors_eq (off ss : Nat) (hsize : 0 < size) :
    ioSectors ss off size = (off + size - 1) / ss - off / ss + 1 ∧
      off / ss + ((off + size - 1) / ss - off / ss) = (off + size - 1) / ss := by
  have hle : off / ss ≤ (off + size - 1) / ss := Nat.div_le_div_right (by omega)
  rw [ioSectors]
  omega

include hm hread hself hacc hle

theorem rixfsRead_bytes (hsize : 0 < size) :
    if off + size ≤ total i.extents * f.dev.sectorSize then
      ∃ b, rixfsRead f k off size = .ok b ∧
        ∀ j, j < size → some (b j) = byteAt f.dev.sectorSize f.dev.disk i.extents (off + j)
    else rixfsRead f k off size = .error (-6) := by
  obtain ⟨hnum, hlast⟩ := ioSectors_eq off f.dev.sectorSize hsize
  have hloop := readLoop_spec hacc hsize (ioAt_start f.dev.sectorSize off hsize) hlast zeroBuf
  have hrun : rixfsRead f k off size = readLoop f i off size
      ((off + size - 1) / f.dev.sectorSize - off / f.dev.sectorSize + 1)
      (off / f.dev.sectorSize) zeroBuf 0 := by
    rw [rixfsRead, hm, if_neg (by simp), if_neg (Nat.ne_of_gt hsize),
      ioPrepare_ok hread hself hle hsize]
    rw [hnum]
  rw [hrun]
  simp only [covered_iff hacc.sectorPos hsize] at hloop
  split_ifs at hloop ⊢ with hcov
  · obtain ⟨b, hb, hbytes, -⟩ := hloop
    exact ⟨b, hb, fun j hj => hbytes j (Nat.zero_le j) hj⟩
  · exact hloop

theorem rixfsWrite_bytes (hnd : (blocks i.extents).Nodup) (hsize : 0 < size) (data : Buf) :
    let r := rixfsWrite f k off data size
    SameHandle f r.2 ∧
      Wrote f.dev.sectorSize i.extents off size 0 data f.dev.disk r.2.dev.disk r.1 := by
  obtain ⟨hnum, hlast⟩ := ioSectors_eq off f.dev.sectorSize hsize
  have hloop := writeLoop_spec hnd hsize data hacc (ioAt_start f.dev.sectorSize off hsize) hlast
  rw [rixfsWrite, hm, if_neg (by simp), if_neg (by omega), ioPrepare_ok hread hself hle hsize]
  rw [hnum]
  exact hloop

end

theorem map_range_eq_contents (hss : 0 < ss) {b : Buf}
    (h : ∀ j, j < size → some (b j) = byteAt ss d l (off + j)) :
    (List.range size).map b = ((contents ss d l).drop off).take size := by
  refine List.ext_getElem? fun j => ?_
  by_cases hj : j < size
  · rw [List.getElem?_map, List.getElem?_range hj, List.getElem?_take_of_lt hj,
      List.getElem?_drop, contents_getElem? hss, map_some, h j hj]
  · rw [List.getElem?_eq_none (by simpa using hj),
      List.getElem?_eq_none (by rw [List.length_take]; omega)]

/-- The inode `i` in the slot `k` has its extents in the data area, without overlaps
and outside of its own sector of the inode table. -/
structure InRange (f : Fs) (k : Nat) (i : Inode) : Prop where
  read : readInode f k = .ok i
  self : i.inode = k
  apart : i.extents.Pairwise Extent.Apart
  area : ∀ s ∈ blocks i.extents, f.super.dataStartSector ≤ s ∧ s < f.super.totalSectors
  table : ∀ s o, inodeLocation f k = .ok (s, o) → s ∉ blocks i.extents

section

variable (hf : MountedOn f) (h : InRange f k i)

include hf h

theorem InRange.accessible : Accessible f i.extents := by
  have htot := hf.superOk.totalSectors
  have hwide : f.super.totalSectors < 2 ^ 64 := by
    rw [hf.super]
    exact load_lt _ _ 8
  refine ⟨?_, fun s hs => lt_trans (h.area s hs).2 hwide, fun s hs => (h.area s hs).2,
    fun s hs => htot ▸ (h.area s hs).2⟩
  have := hf.sectorLow
  omega

omit hf in
theorem InRange.readInode_wrote (hg : SameHandle f g)
    (houtside : ∀ s, s ∉ blocks i.extents → g.dev.disk s = f.dev.disk s) :
    readInode g k = .ok i := by
  have hgeo : SameGeometry f g :=
    ⟨hg.mounted.symm, hg.sectorSize.symm, hg.sectorCount.symm, by rw [hg.super]⟩
  rw [← h.read]
  refine (hgeo.readInode fun s o hloc => ?_).symm
  exact (houtside s (h.table s o hloc)).symm

end

theorem Wrote.outside_blocks {data : Buf} (h : Wrote ss l off size done data d d' rc) {s : Nat}
    (hs : s ∉ blocks l) : d' s = d s :=
  h.outside s fun _ _ _ hloc => hs (locate_mem hloc)

/-- Writing and reading a range of a file whose extents hold its size: the write
succeeds and is read back, the other bytes of the file and the sectors that the range
does not touch stay as they were, and a read delivers the sectors of the extents,
one after the other and cut to the range. -/
theorem rixfsWrite_read (f : Fs) (hf : MountedOn f) (k : Nat) (i : Inode) (h : InRange f k i)
    (hcov : i.size ≤ total i.extents * f.dev.sectorSize) (off size : Nat)
    (hle : off + size ≤ i.size) (data : Buf) :
    let r := rixfsWrite f k off data size
    let ss := f.dev.sectorSize
    r.1 = 0 ∧
      (∃ b, rixfsRead r.2 k off size = .ok b ∧ ∀ j, j < size → b j = data j) ∧
      (∀ p, p < off ∨ off + size ≤ p →
        (contents ss r.2.dev.disk i.extents)[p]? = (contents ss f.dev.disk i.extents)[p]?) ∧
      (∀ s, (∀ q, off / ss ≤ q → q ≤ (off + size - 1) / ss → (blocks i.extents)[q]? ≠ some s) →
        r.2.dev.disk s = f.dev.disk s) ∧
      ∃ b, rixfsRead f k off size = .ok b ∧
        (List.range size).map b = ((contents ss f.dev.disk i.extents).drop off).take size := by
  intro r ss
  have hacc := h.accessible hf
  have hss : 0 < ss := hacc.sectorPos
  have hnd := nodup_blocks_iff.2 h.apart
  rcases Nat.eq_zero_or_pos size with rfl | hsize
  · have hread : ∀ g : Fs, g.mounted = true → rixfsRead g k off 0 = .ok zeroBuf := by
      intro g hg
      rw [rixfsRead, hg, if_neg (by simp), if_pos rfl]
    have hr : r = (0, f) := by
      change rixfsWrite f k off data 0 = _
      rw [rixfsWrite, hf.mounted, if_neg (by simp), if_pos rfl]
    rw [hr]
    refine ⟨rfl, ⟨_, hread f hf.mounted, fun j hj => by omega⟩, fun _ _ => rfl, fun _ _ => rfl,
      _, hread f hf.mounted, by simp⟩
  obtain ⟨hsame, hwrote⟩ := rixfsWrite_bytes hf.mounted h.read h.self hacc hle hnd hsize data
  have hreach : off + size ≤ total i.extents * f.dev.sectorSize := le_trans hle hcov
  have hzero : r.1 = 0 := by
    rw [hwrote.code, if_pos ((covered_iff hss hsize).2 hreach)]
  refine ⟨hzero, ?_, fun p hp => ?_, fun s hs => ?_, ?_⟩
  · have hagain := h.readInode_wrote hsame fun s hs => hwrote.outside_blocks hs
    have hbytes := rixfsRead_bytes (hsame.mounted.trans hf.mounted) hagain h.self
      (hacc.congr hsame) hle hsize
    rw [hsame.sectorSize, if_pos hreach] at hbytes
    obtain ⟨b, hrun, hb⟩ := hbytes
    refine ⟨b, hrun, fun j hj => ?_⟩
    exact some.inj ((hb j hj).trans (hwrote.written hzero j (Nat.zero_le j) hj))
  · rw [contents_getElem? hss, contents_getElem? hss]
    exact hwrote.kept p (by omega)
  · refine hwrote.outside s fun q h1 h2 => ?_
    rw [locate_eq_getElem?]
    exact hs q h1 h2
  have hbytes := rixfsRead_bytes hf.mounted h.read h.self hacc hle hsize
  rw [if_pos hreach] at hbytes
  obtain ⟨b, hrun, hb⟩ := hbytes
  exact ⟨b, hrun, map_range_eq_contents hss hb⟩

theorem namedImage_mountedOn (type : Nat) (i : Inode) (metaHint : Nat) :
    MountedOn (mountHandle (namedImage type i) metaHint) := by
  have hdisk : (namedImage type i).disk 0 = storeSuper (formatSuper 512 128 8) := by
    simp only [namedImage, if_true]
  refine mountedOn_mountHandle (le_refl 512) (by simp [namedImage]) ?_ metaHint
  rw [hdisk]
  exact checkSuper_format (d := namedImage type i) formatGeometry_fresh

theorem namedImage_mount (type : Nat) (i : Inode) :
    rixfsMount (namedImage type i) 0 = (0, mountHandle (namedImage type i) 0) := by
  have h := namedImage_mountedOn type i 0
  have hdisk : (namedImage type i).disk 0 = storeSuper (formatSuper 512 128 8) := by
    simp only [namedImage, if_true]
  have hjs : (loadSuper ((namedImage type i).disk 0)).journalSector = 4 := by
    rw [hdisk, loadSuper_storeSuper, formatGeometry_fresh.wrap_eq]
    decide
  have hzero : (namedImage type i).disk 4 = zeroBuf := by
    simp [namedImage]
  refine rixfsMount_of_noMagic 0 h.sectorLow h.sectorHigh h.check ?_
  rw [hjs, hzero]
  exact noMagic_zeroBuf

theorem inRange_namedImage :
    InRange (mountHandle (namedImage dirTypeFile (namedInode ifreg 300)) 0) 2
      (namedInode ifreg 300) := by
  refine ⟨by decide +kernel, rfl, nodup_blocks_iff.1 (by decide), by decide +kernel, fun s o h => ?_⟩
  have hloc : inodeLocation (mountHandle (namedImage dirTypeFile (namedInode ifreg 300)) 0) 2 =
      .ok (1, 128) := by decide +kernel
  rw [hloc] at h
  cases h
  decide

theorem rixfsWrite_read_named :
    let f := mountHandle (namedImage dirTypeFile (namedInode ifreg 300)) 0
    let r := rixfsWrite f 2 100 (fun j => BitVec.ofNat 8 j) 50
    r.1 = 0 ∧ ∃ b, rixfsRead r.2 2 100 50 = .ok b ∧ ∀ j, j < 50 → b j = BitVec.ofNat 8 j := by
  intro f r
  obtain ⟨hrc, hback, -⟩ := rixfsWrite_read f (namedImage_mountedOn _ _ 0) 2 _ inRange_namedImage
    (by decide) 100 50 (by decide) fun j => BitVec.ofNat 8 j
  exact ⟨hrc, hback⟩

/-- The extents of this file lie in the data area and are disjoint, but they have fewer
bytes than the inode records: a write inside the recorded size fails, after it
has overwritten the sector that the file has. -/
theorem rixfsWrite_beyond_extents :
    let i := namedInode ifreg 600
    let f := mountHandle (namedImage dirTypeFile i) 0
    let r := rixfsWrite f 2 0 (fun _ => 7) 600
    readInode f 2 = .ok i ∧ i.extents.Pairwise Extent.Apart ∧
      (∀ s ∈ blocks i.extents, f.super.dataStartSector ≤ s ∧ s < f.super.totalSectors) ∧
      0 + 600 ≤ i.size ∧ r.1 = -6 ∧ r.2.dev.disk 22 0 = 7 := by
  intro i f r
  refine ⟨by decide +kernel, nodup_blocks_iff.1 (by decide), ?_⟩
  decide +kernel

/-! ## What a clean check says about reading -/

theorem rixfsMount_geometry {d : Device} {metaHint : Nat} (h : rixfsMount d metaHint = (0, f)) :
    f.dev.sectorSize = d.sectorSize ∧ f.dev.sectorCount = d.sectorCount := by
  obtain ⟨-, -, -, hreplay⟩ := of_rixfsMount h
  have hplan := journalReplay_eq_plan (mountHandle d metaHint)
  rw [hreplay, Prod.mk.injEq] at hplan
  have hdev : (mountHandle d metaHint).dev = d := rfl
  rw [hplan.2, ← hdev]
  exact ⟨Device.after_sectorSize _ _, after_sectorCount _ _⟩

theorem accessible_of_fsck {d : Device} (hmount : rixfsMount d 0 = (0, f)) (hok : Consistent f)
    (hk : f.Live k) : Accessible f (f.inodeAt k).extents := by
  obtain ⟨hsize, hcount⟩ := rixfsMount_geometry hmount
  obtain ⟨hlow, -, hcheck, -⟩ := of_rixfsMount hmount
  have hsuper : f.super = loadSuper (d.disk 0) := congrArg Fs.super (rixfsMount_super hmount)
  have htot : f.super.totalSectors = d.sectorCount := by
    rw [hsuper]
    exact (superOk_of_check hcheck).totalSectors
  have hwide : f.super.totalSectors < 2 ^ 64 := by
    rw [hsuper]
    exact load_lt _ _ 8
  have hin : ∀ s ∈ blocks (f.inodeAt k).extents, s < f.super.totalSectors := by
    intro s hs
    obtain ⟨e, he, hlo, hhi⟩ := mem_blocks.1 hs
    have hdata := (hok.inData k hk e he (by omega)).2
    omega
  refine ⟨by omega, fun s hs => ?_, hin, fun s hs => ?_⟩
  · have := hin s hs
    omega
  · have := hin s hs
    omega

theorem le_of_needed (hss : 0 < ss) (hfit : size + (ss - 1) < 2 ^ 64)
    (h : u64 (size + (ss - 1)) / ss ≤ n) : size ≤ n * ss := by
  rw [u64, Nat.mod_eq_of_lt hfit] at h
  have hlt := (Nat.div_lt_iff_lt_mul hss).1 (Nat.lt_succ_of_le h)
  rw [Nat.succ_mul] at hlt
  omega

/-- After a clean check a range inside the size of a file or symlink can be read if and only if
it is empty or the extents reach to its end. Those of a regular file reach to the end of the
file, unless its size wraps when it is rounded to sectors; the checker does not compare the
size of a symlink with its extents. -/
theorem rixfsRead_of_fsck (d : Device) (r : Nat × Nat) (h : (fsck d).1 = .ok r) :
    ∃ f, rixfsMount d 0 = (0, f) ∧ ∀ k, f.Live k →
      let i := f.inodeAt k
      let ss := f.dev.sectorSize
      (∀ off size, off + size ≤ i.size → ((∃ b, rixfsRead f k off size = .ok b) ↔
        size = 0 ∨ off + size ≤ total i.extents * ss)) ∧
      (i.fmt = ifreg → i.size + (ss - 1) < 2 ^ 64 → i.size ≤ total i.extents * ss) := by
  obtain ⟨hmount, hmounted⟩ := mount_of_fsck h
  refine ⟨_, hmount, fun k hk => ?_⟩
  generalize (rixfsMount d 0).2 = f at hmount hmounted hk ⊢
  intro i ss
  have hok := consistent_of_fsckMounted hmounted
  obtain ⟨hread, hself, hinode⟩ := (fsckMounted_isOk.1 ⟨r, hmounted⟩).1.inode hk
  have hacc := accessible_of_fsck hmount hok hk
  have hm : f.mounted = true := congrArg Fs.mounted (rixfsMount_super hmount)
  refine ⟨fun off size hle => ?_, fun hreg hfit => ?_⟩
  · rcases Nat.eq_zero_or_pos size with rfl | hsize
    · refine iff_of_true ⟨zeroBuf, ?_⟩ (.inl rfl)
      rw [rixfsRead, hm, if_neg (by simp), if_pos rfl]
    have hbytes := rixfsRead_bytes hm hread hself hacc hle hsize
    split_ifs at hbytes with hcov
    · obtain ⟨b, hb, -⟩ := hbytes
      exact iff_of_true ⟨b, hb⟩ (.inr hcov)
    · refine iff_of_false ?_ (not_or.2 ⟨hsize.ne', hcov⟩)
      simp [hbytes]
  · exact le_of_needed hacc.sectorPos hfit (hinode.size hreg)

theorem rixfsRead_of_fsck_named :
    let d := namedImage dirTypeFile (namedInode ifreg 300)
    (fsck d).1 = .ok (2, 2) ∧ ∃ f b, rixfsMount d 0 = (0, f) ∧ rixfsRead f 2 100 200 = .ok b := by
  intro d
  have hmount := namedImage_mount dirTypeFile (namedInode ifreg 300)
  have hfsck : (fsck d).1 = .ok (2, 2) := by
    rw [fsck_of_mount hmount]
    decide +kernel
  obtain ⟨f, hf, hread⟩ := rixfsRead_of_fsck d (2, 2) hfsck
  obtain rfl : f = mountHandle d 0 := (congrArg Prod.snd hf).symm.trans (congrArg Prod.snd hmount)
  obtain ⟨hiff, -⟩ := hread 2 (by decide +kernel)
  obtain ⟨b, hb⟩ := (hiff 100 200 (by decide +kernel)).2 (.inr (by decide +kernel))
  exact ⟨hfsck, _, b, hmount, hb⟩

/-- A symlink of 600 bytes with one sector passes the check, and its last bytes
cannot be read. -/
theorem rixfsRead_fails_after_fsck :
    let d := namedImage dirTypeSymlink (namedInode iflnk 600)
    let f := (rixfsMount d 0).2
    (fsck d).1 = .ok (2, 2) ∧ (rixfsMount d 0).1 = 0 ∧ f.Live 2 ∧ (f.inodeAt 2).fmt = iflnk ∧
      500 + 100 ≤ (f.inodeAt 2).size ∧ (rixfsRead f 2 500 100).isOk = false := by
  intro d f
  have hmount := namedImage_mount dirTypeSymlink (namedInode iflnk 600)
  have hf : f = mountHandle d 0 := congrArg Prod.snd hmount
  rw [fsck_of_mount hmount, hf]
  exact ⟨by decide +kernel, congrArg Prod.fst hmount, by decide +kernel⟩

end RixuriOS.Rixfs
