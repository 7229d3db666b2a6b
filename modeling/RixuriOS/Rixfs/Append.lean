import RixuriOS.Rixfs.AllocSpec

/-!
# Adding an entry to a directory

`dir_append` puts the entry into a sector that the directory has, into the spare
sector of a fresh directory, or into a new sector, and returns the inode that the
caller writes. When it fails it leaves everything as it was.
-/

namespace RixuriOS.Rixfs

open ByteCodec CrashStore ExtentList List

structure OnlyEntry (ss : Nat) (e : Entry) (b : Buf) : Prop where
  chained : Chained ss b
  entries : entriesOf ss b = [e]

/-- The outcome of `dir_append`: the new inode of the directory, or an error. -/
inductive Appended (f : Fs) (dir : Inode) (e : Entry) : Except Int Inode × Fs → Prop where
  | inside {s : Nat} {b : Buf} {g : Fs} (hs : s ∈ dirSectors f.geo.ss dir)
      (hadd : AddsEntry f.geo.ss e (f.view.data s) b) (he : Effects f [.data s b] g) :
      Appended f dir e (.ok dir, g)
  | spare {s : Nat} {b : Buf} {g : Fs} (h0 : dir.size = 0) (hs : blocks dir.extents = [s])
      (hb : OnlyEntry f.geo.ss e b) (he : Effects f [.data s b] g) :
      Appended f dir e (.ok { dir with size := u64 (dir.size + f.geo.ss) }, g)
  | extend {s : Nat} {l : List Extent} {b : Buf} {g : Fs}
      (hfull : dir.size / f.geo.ss = total dir.extents) (hs : Free f.geo f.view s)
      (hl : appendExtent dir.extents s = some l) (hb : OnlyEntry f.geo.ss e b)
      (he : Effects f [.bit s true, .data s b] g) :
      Appended f dir e (.ok { dir with extents := l, size := u64 (dir.size + f.geo.ss) }, g)
  | refused {c : Int} {es : List Effect} {g : Fs} (hn : Neutral f.geo f.view es)
      (he : Effects f es g) : Appended f dir e (.error c, g)

section

variable {f : Fs} (h : Ready f)

include h

theorem Ready.ss_bounds : 512 ≤ f.geo.ss ∧ f.geo.ss ≤ 4096 := ⟨h.on.sectorLow, h.on.sectorHigh⟩

theorem Ready.findUnused_eq {l : List Extent} (hl : InArea f.geo l) {n pos : Nat}
    (hn : pos + n ≤ total l) :
    findUnused f l n pos = .ok ((((blocks l).drop pos).take n).find? fun s =>
      sectorUnused (f.view.data s) f.geo.ss) := by
  induction n generalizing pos with
  | zero => simp [findUnused]
  | succ n ih =>
    have hpos : pos < (blocks l).length := by
      rw [length_blocks]
      omega
    have hloc : dirSector l pos = some (blocks l)[pos] := by
      rw [dirSector_eq_locate (hl.lt_u64 h), locate_eq_getElem?, List.getElem?_eq_getElem hpos]
    have hs := hl _ (getElem_mem hpos)
    rw [findUnused, hloc]
    simp only [rd_data hs.1 hs.2]
    rw [drop_eq_getElem_cons hpos, take_succ_cons, find?_cons, ih (by omega)]
    by_cases hu : sectorUnused (f.view.data (blocks l)[pos]) f.geo.ss
    · refine (if_pos hu).trans ?_
      simp only [hu, decide_true]
    · refine (if_neg hu).trans ?_
      simp only [hu, decide_false]

variable {dir : Inode} {e : Entry} (he : e.Fits)

include he

theorem Ready.whole_only (b : Buf) :
    OnlyEntry f.geo.ss e (dirWriteAt b 0 e.ino f.geo.ss e.type e.name) := by
  have hss := h.ss_bounds
  have hname := he.name
  rw [nameMax] at hname
  obtain ⟨r, hr, hre⟩ := seg_dirWriteAt he b (a := 0) (z := f.geo.ss) (by omega) (by
    rw [Entry.need, direntMinSize]
    omega)
  rw [Nat.sub_zero] at hr
  refine ⟨⟨_, hr⟩, ?_⟩
  rw [hr.entriesOf_eq]
  simp [entriesIn, hre]

omit he in
theorem Ready.dirFill_ok {s : Nat} (h1 : f.geo.ds ≤ s) (hs : s < f.geo.tot) (b : Buf)
    (ino type : Nat) (name : List Byte) :
    ∃ g, dirFill f s b ino type name = (0, g) ∧
      Does f (.data s (dirWriteAt b 0 ino f.geo.ss type name)) g :=
  h.journalWrite_ok h1 hs _

theorem Ready.dirExtend_spec (hfull : dir.size / f.geo.ss = total dir.extents) :
    Appended f dir e (dirExtend f dir e.ino e.type e.name) := by
  have htakes := h.allocSecTop_takes dir.extents
  rw [dirExtend]
  generalize allocSecTop f dir.extents = r at htakes
  cases htakes with
  | error heff => exact .refused (.inl rfl) heff
  | @ok s f₁ hs heff =>
  obtain ⟨h₁, hgeo, hview⟩ := heff.spec h
  have hs₁ : s < f₁.geo.tot := by rw [hgeo]; exact hs.high
  have hds₁ : f₁.geo.ds ≤ s := by rw [hgeo]; exact hs.low
  cases happ : appendExtent dir.extents s with
  | none =>
    obtain ⟨f₂, hbit, hdo⟩ := h₁.bit_ok hs₁ false
    simp only [happ, hbit]
    exact .refused (.inr ⟨s, hs, rfl⟩) (heff.append hdo.effects)
  | some l =>
    obtain ⟨g, hfill, hdo⟩ := h₁.dirFill_ok hds₁ hs₁ zeroBuf e.ino e.type e.name
    have honly := h₁.whole_only he zeroBuf
    simp only [happ, hfill]
    rw [hgeo] at hdo honly
    exact .extend hfull hs happ honly (heff.append hdo.effects)

/-- The part of `dir_append` after the tail of the last sector has been tried. -/
theorem Ready.dirGrow_spec (hdir : DirOk f.geo f.view dir) :
    Appended f dir e (dirGrow f dir e.ino e.type e.name) := by
  have hss : f.dev.sectorSize = f.geo.ss := rfl
  have hle : dir.size / f.geo.ss ≤ total dir.extents := by
    rcases hdir.covers with hc | ⟨h0, -⟩
    · exact le_of_eq hc
    · simp [h0]
  rw [dirGrow]
  rw [hss]
  rw [h.findUnused_eq hdir.area (by omega), drop_zero]
  cases hfind : (dirSectors f.geo.ss dir).find? fun s => sectorUnused (f.view.data s) f.geo.ss with
  | some s =>
    obtain ⟨hu, l₁, l₂, heq, -⟩ := find?_eq_some_iff_append.1 hfind
    have hmem : s ∈ dirSectors f.geo.ss dir := by
      rw [heq]
      simp
    obtain ⟨h1, h2⟩ := hdir.area s (mem_of_mem_take hmem)
    obtain ⟨g, hfill, hdo⟩ := h.dirFill_ok h1 h2 (f.view.data s) e.ino e.type e.name
    have honly := h.whole_only he (f.view.data s)
    have hempty := entriesOf_of_unused (hdir.chained s hmem) (of_decide_eq_true hu)
    rw [dirSectors] at hfind
    simp only [hfind, dirReuse, rd_data h1 h2, hfill]
    refine .inside hmem ⟨honly.chained, ?_⟩ hdo.effects
    rw [honly.entries, hempty]
    rfl
  | none =>
    rw [dirSectors] at hfind
    rw [hfind]
    rw [dirSector_eq_locate (hdir.area.lt_u64 h), locate_eq_getElem?]
    rcases hdir.covers with hc | ⟨h0, h1⟩
    · rw [hc, List.getElem?_eq_none (by rw [length_blocks])]
      exact h.dirExtend_spec he hc
    obtain ⟨s, hs⟩ : ∃ s, blocks dir.extents = [s] :=
      length_eq_one_iff.1 (by rw [length_blocks, h1])
    have harea := hdir.area s (by rw [hs]; simp)
    obtain ⟨g, hfill, hdo⟩ := h.dirFill_ok harea.1 harea.2 (f.view.data s) e.ino e.type e.name
    have hz : dir.size / f.geo.ss = 0 := by rw [h0, Nat.zero_div]
    simp only [hz, hs, List.getElem?_cons_zero, dirReuse, rd_data harea.1 harea.2, hfill,
      decide_true]
    exact .spare h0 hs (h.whole_only he _) hdo.effects

theorem Ready.dirAppend_spec (hdir : DirOk f.geo f.view dir) :
    Appended f dir e (dirAppend f dir e.ino e.type e.name) := by
  have hbounds := h.ss_bounds
  have hss : f.dev.sectorSize = f.geo.ss := rfl
  have hmod : dir.size % f.geo.ss = 0 := by
    rw [hdir.size, Nat.mul_mod_left]
  rw [dirAppend]
  rw [hss]
  have hname := he.name
  rw [if_neg (by omega)]
  split_ifs with hz
  · exact h.dirGrow_spec he hdir
  have hc : dir.size / f.geo.ss = total dir.extents := by
    rcases hdir.covers with hc | ⟨h0, -⟩
    · exact hc
    · rw [h0, Nat.zero_div] at hz
      exact absurd rfl hz
  have hlt : dir.size / f.geo.ss - 1 < (blocks dir.extents).length := by
    rw [length_blocks]
    omega
  rw [dirSector_eq_locate (hdir.area.lt_u64 h), locate_eq_getElem?, List.getElem?_eq_getElem hlt]
  generalize hs : (blocks dir.extents)[dir.size / f.geo.ss - 1] = s
  have hmem : s ∈ dirSectors f.geo.ss dir := by
    rw [← hs, dirSectors, mem_take_iff_getElem]
    exact ⟨_, by omega, rfl⟩
  obtain ⟨h1, h2⟩ := hdir.area s (mem_of_mem_take hmem)
  simp only [rd_data h1 h2]
  rcases dirTailFit_spec he (by omega) (by omega) (hdir.chained s hmem) with hfull | ⟨b, hb, hadd⟩
  · rw [hfull]
    exact h.dirGrow_spec he hdir
  obtain ⟨g, hwrite, hdo⟩ := h.journalWrite_ok h1 h2 b
  simp only [hb, hwrite]
  exact .inside hmem hadd hdo.effects

end

end RixuriOS.Rixfs
