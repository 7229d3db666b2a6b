import RixuriOS.Rixfs.Removing

/-!
# Operations on the data of a file

`rixfs_truncate` and `rixfs_write` on an image with the tree invariant, and
`rixfs_symlink`, which uses both. A growth that fails after some sectors have been
added rolls back by position: it clears the bits of the first sectors of the
extent list, which are the added ones only if there were none before.
-/

namespace RixuriOS.Rixfs

open ByteCodec CrashStore ExtentList LinkGraph List View

variable {f : Fs}

def Geo.sectors (g : Geo) (n : Nat) : Nat := (n + (g.ss - 1)) / g.ss

variable {k n : Nat}

theorem Geo.sectors_mono (g : Geo) {m : Nat} (h : m ≤ n) : g.sectors m ≤ g.sectors n :=
  Nat.div_le_div_right (by omega)

theorem Ready.sectorsFor_eq (h : Ready f) (hn : n ≤ 2 ^ 63) :
    sectorsFor f.dev.sectorSize n = f.geo.sectors n := by
  have hss := h.ss_bounds
  have hdev : f.dev.sectorSize = f.geo.ss := rfl
  have hsum : n + f.geo.ss - 1 = n + (f.geo.ss - 1) := by omega
  rw [sectorsFor, hdev, u64, Nat.mod_eq_of_lt (by omega), Geo.sectors, hsum]

structure IsFile (v : View) (k : Nat) : Prop where
  live : v.Live k
  fmt : (v.ino k).fmt ≠ ifdir

/-- What `rixfs_truncate` asks of an inode. -/
def Sizable (v : View) (k : Nat) : Prop := ¬((v.ino k).fmt ≠ ifreg ∧ (v.ino k).fmt ≠ iflnk)

theorem Core.isFile {g : Geo} {v : View} (hc : Core g v) (hkind : Sizable v k) : IsFile v k where
  live h0 := hkind (by rw [hc.dead k fun hl => hl h0]; decide)
  fmt hd := hkind (by rw [hd]; decide)

/-- The outcome of `rixfs_truncate` of the file `k` to the length `n`. -/
inductive Resized (f : Fs) (k n : Nat) : Int × Fs → Prop where
  | grown {bs : List Nat} {l : List Extent} {g g' : Fs} (hk : Sizable f.view k)
      (hlt : (f.view.ino k).size < n) (hbs : bs.length = sectorsFor f.dev.sectorSize n -
        sectorsFor f.dev.sectorSize (f.view.ino k).size)
      (hadds : Adds f (f.view.ino k).extents bs l g)
      (hdo : Does g (.ino k ((f.view.ino k).resize l n)) g') : Resized f k n (0, g')
  | shrunk {fs : List Nat} {l : List Extent} {g g' : Fs} (hk : Sizable f.view k)
      (hle : n ≤ (f.view.ino k).size)
      (hfs : fs.Perm ((f.view.blocksOf k).drop (sectorsFor f.dev.sectorSize n)))
      (hl : blocks l = (f.view.blocksOf k).take (sectorsFor f.dev.sectorSize n))
      (hslots : l.length = (f.view.ino k).extents.length) (hfit : ExtentsFit l)
      (heff : Effects f (setAll false fs) g)
      (hdo : Does g (.ino k ((f.view.ino k).resize l n)) g') : Resized f k n (0, g')
  | failed {bs : List Nat} {l : List Extent} {es : List Effect} {g g' : Fs}
      (hk : Sizable f.view k) (hbs : bs.length < sectorsFor f.dev.sectorSize n -
        sectorsFor f.dev.sectorSize (f.view.ino k).size)
      (hadds : Adds f (f.view.ino k).extents bs l g) (hn : Neutral g.geo g.view es)
      (heff : Effects g es g') :
      Resized f k n (-4, rollback g' (rollbackOrder l) bs.length)
  | refused {c : Int} (hc : c ≠ 0) : Resized f k n (c, f)

theorem Ready.truncate_resized (h : Ready f) (k n : Nat) (hok : Sizable f.view k →
    InArea f.geo (f.view.ino k).extents ∧ (f.view.blocksOf k).Nodup) :
    Resized f k n (truncate f k n) := by
  have hfits := h.ino_fits k
  rw [truncate, h.mounted, if_neg (by simp)]
  by_cases hrange : 1 ≤ k ∧ k ≤ f.super.inodeCount
  swap
  · rw [h.readInode_error hrange]
    exact .refused (by decide)
  rw [h.readInode_ok hrange.1 hrange.2]
  simp only []
  split
  · exact .refused (by decide)
  rename_i hkind
  obtain ⟨harea, hnodup⟩ := hok hkind
  -- both directions end with the write of the inode
  have hfinish {es : List Effect} {g : Fs} (he : Effects f es g) (l : List Extent) : ∃ g',
      writeInode g k { f.view.ino k with extents := l, size := n } = (0, g') ∧
        Does g (.ino k ((f.view.ino k).resize l n)) g' :=
    he.writeInode_ok h hrange.1 hrange.2 ((f.view.ino k).resize l n)
  split_ifs with hlt
  · rw [grow, if_neg (by omega)]
    simp only []
    rcases h.growLoop_spec harea hfits.extents (sectorsFor f.dev.sectorSize n -
        sectorsFor f.dev.sectorSize (f.view.ino k).size) 0 with
      ⟨bs, l, g, hrun, hlen, hadds⟩ | ⟨bs, l, g, es, g', e, hrun, hlen, hadds, hes, heff⟩
    · obtain ⟨g', hwrite, hdo⟩ := hfinish hadds.effects l
      simp only [hrun, hwrite]
      exact .grown hkind hlt hlen hadds hdo
    · rw [hrun, Nat.zero_add]
      exact .failed hkind hlen hadds hes heff
  have hbound := total_le_area harea hnodup
  have htot := h.tot_lt
  obtain ⟨l, g, fs, hrun, heff, hperm, hl, hslots, hfit⟩ := h.shrinkLoop_ok harea
    hfits.extents (sectorsFor f.dev.sectorSize n) 0 (by omega)
  rw [Nat.sub_zero] at hperm hl
  obtain ⟨g', hwrite, hdo⟩ := hfinish heff l
  simp only [hrun, hwrite]
  exact .shrunk hkind (Nat.not_lt.1 hlt) hperm hl hslots hfit heff hdo

section

variable (h : Ready f) (hc : Core f.geo f.view) (hn : n ≤ 2 ^ 63)

include h hc

theorem Ready.core_resized (k n : Nat) : Resized f k n (truncate f k n) :=
  h.truncate_resized k n fun hkind =>
    have hshape := hc.shape k (hc.isFile hkind).live
    ⟨hshape.area, hshape.nodup⟩

include hn

theorem Ready.sectors_sub (hk : IsFile f.view k) : sectorsFor f.dev.sectorSize n -
    sectorsFor f.dev.sectorSize (f.view.ino k).size =
      f.geo.sectors n - f.geo.sectors (f.view.ino k).size := by
  rw [h.sectorsFor_eq hn, h.sectorsFor_eq ((hc.shape k hk.live).size hk.fmt).2]

theorem Ready.total_grown (hk : IsFile f.view k) (hlt : (f.view.ino k).size < n) {bs : List Nat}
    {l : List Extent} {g : Fs} (hadds : Adds f (f.view.ino k).extents bs l g)
    (hbs : bs.length = sectorsFor f.dev.sectorSize n -
      sectorsFor f.dev.sectorSize (f.view.ino k).size) : total l = f.geo.sectors n := by
  have hmono := f.geo.sectors_mono hlt.le
  have htotal : total (f.view.ino k).extents = f.geo.sectors (f.view.ino k).size :=
    ((hc.shape k hk.live).size hk.fmt).1
  rw [h.sectors_sub hc hn hk] at hbs
  rw [← length_blocks, hadds.perm.length_eq, length_append, hbs, length_blocks, htotal]
  omega

end

/-! ## The tree after a change of size -/

variable {bs : List Nat} {g : Fs} {es : List Effect} {i : Inode} {off size : Nat}

section

variable {g : Geo} {v : View} {l : List Extent}

variable {ns : List Nat}

theorem mark_mark_free {ns' : List Nat} (hfree : ∀ s ∈ ns, v.bit s = false) (hperm : ns'.Perm ns) :
    (v.mark true ns).mark false ns' = v := by
  refine View.ext rfl ?_ rfl
  funext s
  by_cases hs : s ∈ ns
  · simp [hperm.mem_iff.2 hs, hfree s hs]
  · have hs' : s ∉ ns' := fun hs' => hs (hperm.mem_iff.1 hs')
    simp [hs, hs']

theorem Safe.always_setAll_false (h : Safe g v) (hns : ∀ s ∈ ns, ∀ j, s ∉ v.blocksOf j) :
    Always (Safe g) v (setAll false ns) := by
  induction ns generalizing v with
  | nil => exact h
  | cons s ns ih =>
    obtain ⟨hs, hns⟩ := forall_mem_cons.1 hns
    exact ⟨h, ih (h.setBit_false hs) hns⟩

theorem Tree.grown (h : Tree g v) (hk : IsFile v k) (hfree : ∀ s ∈ bs, Free g v s) (hnd : bs.Nodup)
    (hperm : (blocks l).Perm (bs ++ v.blocksOf k)) (hslots : l.length = (v.ino k).extents.length)
    (hfit : ExtentsFit l) (htotal : total l = g.sectors n) (hn : n ≤ 2 ^ 63) :
    ((v.ino k).resize l n).Fits ∧
      Tree g ((v.mark true bs).setIno k ((v.ino k).resize l n)) := by
  have hshape := h.core.shape k hk.live
  have hfresh : ∀ s ∈ bs, ∀ j, s ∉ v.blocksOf j := fun s hs => h.safe.not_mem_of_free (hfree s hs)
  have harea : InArea g l := by
    intro s hs
    rcases mem_append.1 (hperm.mem_iff.1 hs) with hs | hs
    · exact ⟨(hfree s hs).low, (hfree s hs).high⟩
    · exact hshape.area s hs
  have hnd' : (blocks l).Nodup := by
    rw [hperm.nodup_iff, nodup_append']
    exact ⟨hnd, hshape.nodup, fun s hs hs' => hfresh s hs k hs'⟩
  have hnew : Shape g k ((v.ino k).resize l n) :=
    hshape.resize hslots hfit (by omega) harea hnd' fun _ => ⟨htotal, hn⟩
  refine ⟨hnew.fits, h.resize hk.fmt rfl hnew (fun j hj s hs hsj => ?_) fun s h1 h2 => ?_⟩
  · rcases mem_append.1 (hperm.mem_iff.1 hs) with hs | hs
    · exact hfresh s hs j hsj
    · exact h.core.block_ne hs hj hsj
  rw [mark_bit, hperm.mem_iff, mem_append]
  split_ifs with hs
  · simp [hs]
  rw [h.exact' s h1 h2, or_iff_right hs]
  constructor
  · rintro ⟨j, hj⟩
    by_cases hjk : j = k
    · exact .inl (hjk ▸ hj)
    · exact .inr ⟨j, hjk, hj⟩
  rintro (hs | ⟨j, -, hj⟩)
  · exact ⟨k, hs⟩
  · exact ⟨j, hj⟩

theorem Tree.shrunk (h : Tree g v) (hk : IsFile v k) {fs : List Nat}
    (hfs : fs.Perm ((v.blocksOf k).drop (g.sectors n)))
    (hl : blocks l = (v.blocksOf k).take (g.sectors n))
    (hslots : l.length = (v.ino k).extents.length) (hfit : ExtentsFit l)
    (hle : n ≤ (v.ino k).size) :
    ((v.ino k).resize l n).Fits ∧
      Tree g ((v.mark false fs).setIno k ((v.ino k).resize l n)) := by
  have hshape := h.core.shape k hk.live
  obtain ⟨htot, hsize⟩ := hshape.size hk.fmt
  have hmem : ∀ s, s ∈ v.blocksOf k ↔ s ∈ blocks l ∨ s ∈ fs := fun s => by
    rw [hl, hfs.mem_iff, ← mem_append, take_append_drop]
  have hdisj : ∀ s ∈ blocks l, s ∉ fs := by
    intro s hs hs'
    rw [hl] at hs
    rw [hfs.mem_iff] at hs'
    exact disjoint_take_drop hshape.nodup le_rfl hs hs'
  have hmono := g.sectors_mono hle
  have htotal : total l = g.sectors n := by
    rw [← length_blocks, hl, length_take]
    change min _ (blocks (v.ino k).extents).length = _
    rw [length_blocks, htot]
    exact Nat.min_eq_left hmono
  have hnew : Shape g k ((v.ino k).resize l n) := by
    refine hshape.resize hslots hfit (by have := hshape.fits.size; omega)
      (fun s hs => hshape.area s ((hmem s).2 (.inl hs))) ?_ fun _ => ⟨htotal, by omega⟩
    rw [hl]
    exact hshape.nodup.sublist (take_sublist _ _)
  refine ⟨hnew.fits, h.resize hk.fmt rfl hnew (fun j hj s hs => ?_) fun s h1 h2 => ?_⟩
  · exact h.core.block_ne ((hmem s).2 (.inl hs)) hj
  rw [mark_bit]
  split_ifs with hs
  · refine iff_of_false (by simp) ?_
    rintro (hs' | ⟨j, hj, hs'⟩)
    · exact hdisj s hs' hs
    · exact h.core.block_ne ((hmem s).2 (.inr hs)) hj hs'
  rw [h.exact' s h1 h2]
  constructor
  · rintro ⟨j, hj⟩
    by_cases hjk : j = k
    · rw [hjk] at hj
      exact .inl (((hmem s).1 hj).resolve_right hs)
    · exact .inr ⟨j, hjk, hj⟩
  rintro (hs' | ⟨j, -, hj⟩)
  · exact ⟨k, (hmem s).2 (.inl hs')⟩
  · exact ⟨j, hj⟩

end

/-! ## Truncating -/

/-- A growth whose rollback would clear the right bits: the file had no sectors,
or it needs at most one more. -/
def CleanGrowth (f : Fs) (k n : Nat) : Prop :=
  f.view.blocksOf k = [] ∨ f.geo.sectors n ≤ f.geo.sectors (f.view.ino k).size + 1

theorem Safe.failed_growth {g' : Fs} (h : Ready f) (hs : Safe f.geo f.view) {l : List Extent}
    (harea : InArea f.geo (f.view.ino k).extents)
    (hbs : bs.length < f.geo.sectors n - f.geo.sectors (f.view.ino k).size)
    (hadds : Adds f (f.view.ino k).extents bs l g) (hes : Neutral g.geo g.view es)
    (heff : Effects g es g') (hclean : CleanGrowth f k n) :
    ∃ es', Effects f es' (rollback g' (rollbackOrder l) bs.length) ∧
      Always (Safe f.geo) f.view es' ∧ f.view.after es' = f.view := by
  obtain ⟨hg, hgeo, hview⟩ := hadds.effects.spec h
  obtain ⟨hg', hgeo', -⟩ := heff.spec hg
  have hl := hadds.inArea harea
  have hroll := rollbackOrder_perm (hl.lt_u64 h)
  have hrollback := hg'.rollback_effects (l := rollbackOrder l) bs.length fun s hs' => by
    rw [hgeo', hgeo]
    exact hl s (hroll.mem_iff.1 hs')
  have htake : ((rollbackOrder l).take bs.length).Perm bs := by
    rcases hclean with hnil | hone
    · have hperm : (rollbackOrder l).Perm bs := by
        refine hroll.trans (hadds.perm.trans ?_)
        rw [show blocks (f.view.ino k).extents = [] from hnil, append_nil]
      rwa [← hperm.length_eq, take_length]
    · have hzero : bs = [] := length_eq_zero_iff.1 (by omega)
      rw [hzero, length_nil, take_zero]
  rw [after_setAll] at hview
  have hsafe : Safe f.geo g.view := by
    rw [hview, ← after_setAll]
    exact (hs.always_setAll_true bs).last
  have hneutral : Neutral f.geo g.view es := hgeo ▸ hes
  have hback : (f.view.mark true bs).mark false ((rollbackOrder l).take bs.length) = f.view :=
    mark_mark_free (fun s hs' => (hadds.free s hs').clear) htake
  refine ⟨_, hadds.effects.append (heff.append hrollback), (hs.always_setAll_true bs).append ?_, ?_⟩
  · rw [after_setAll, ← hview]
    refine (hsafe.always_neutral hneutral).append ?_
    rw [hes.after_eq]
    refine hsafe.always_setAll_false fun s hs' j => ?_
    rw [hview]
    exact hs.not_mem_of_free (hadds.free s (htake.mem_iff.1 hs')) j
  · rw [after_append, after_setAll, after_append, ← hview, hes.after_eq, after_setAll, hview, hback]

theorem Good.truncate_same (h : Good f) (k : Nat) (hn : n ≤ 2 ^ 63)
    (hclean : (truncate f k n).1 ≠ 0 → CleanGrowth f k n) :
    AttemptTo f (f.geo.sectors (f.view.ino k).size ≤ f.geo.sectors n) ((truncate f k n).1 = 0)
      (SameEntries f.geo f.view) (truncate f k n).2 := by
  have hres := h.ready.core_resized h.tree.core k n
  generalize truncate f k n = r at hclean hres
  cases hres with
  | refused hc => exact .refused h hc
  | @grown bs l _ _ hkind hlt hbs hadds hdo =>
    have hk := h.tree.core.isFile hkind
    have htotal := h.ready.total_grown h.tree.core hn hk hlt hadds hbs
    obtain ⟨hfits, htree⟩ := h.tree.grown hk hadds.free hadds.nodup hadds.perm hadds.slots
      hadds.fit htotal hn
    have hkept := sameEntries_setFile (g := f.geo) (c := true) (l := bs)
      (i := (f.view.ino k).resize l n) hk.fmt rfl
    rw [← after_setAll, ← apply_ino _ _ hfits] at htree hkept
    refine .of_safe (hadds.effects.append hdo.effects)
      ((h.tree.safe.always_setAll_true _).append
        (And.intro (h.tree.safe.always_setAll_true _).last htree.safe)) (fun _ => ?_)
      fun hno => absurd rfl hno
    rw [after_append]
    exact ⟨htree, hkept⟩
  | @shrunk fs l _ _ hkind hle hfs hl hslots hfit heff hdo =>
    have hk := h.tree.core.isFile hkind
    rw [h.ready.sectorsFor_eq hn] at hfs hl
    obtain ⟨hfits, htree⟩ := h.tree.shrunk hk hfs hl hslots hfit hle
    have hkept := sameEntries_setFile (g := f.geo) (c := false) (l := fs)
      (i := (f.view.ino k).resize l n) hk.fmt rfl
    rw [← after_setAll, ← apply_ino _ _ hfits] at htree hkept
    refine ⟨_, heff.append hdo.effects, (h.tree.core.always_setAll false _).append
      (And.intro (h.tree.core.always_setAll false _).last htree.core), fun hkeep => ?_,
      fun _ => ?_, fun hno => absurd rfl hno⟩
    · have hnil : fs = [] := by
        have htotal : total (f.view.ino k).extents = f.geo.sectors (f.view.ino k).size :=
          ((h.tree.core.shape k hk.live).size hk.fmt).1
        have hlen : (f.view.blocksOf k).length = f.geo.sectors (f.view.ino k).size := by
          rw [← htotal, ← length_blocks]
          rfl
        rw [drop_eq_nil_of_le (by omega)] at hfs
        exact hfs.eq_nil
      subst hnil
      exact And.intro h.tree.safe htree.safe
    · rw [after_append]
      exact ⟨htree, hkept⟩
  | failed hkind hbs hadds hes heff =>
    have hk := h.tree.core.isFile hkind
    have hshape := h.tree.core.shape k hk.live
    rw [h.ready.sectors_sub h.tree.core hn hk] at hbs
    obtain ⟨es', heff', halways, hsame⟩ := h.tree.safe.failed_growth h.ready hshape.area hbs
      hadds hes heff (hclean (by simp))
    exact .of_safe heff' halways (fun hok => by simp at hok) fun _ => hsame

/-! ## Writing -/

def RawOn (l : List Nat) (es : List Effect) : Prop := ∀ e ∈ es, ∃ s ∈ l, ∃ b, e = .raw s b

theorem Ready.writeLoop_spec (h : Ready f) (harea : InArea f.geo i.extents) (off size : Nat)
    (data : Buf) (n ls done : Nat) :
    (∃ es, Effects f es (writeLoop i off size data n ls done f).2 ∧ RawOn (blocks i.extents) es) ∧
      (ls + n ≤ total i.extents → (writeLoop i off size data n ls done f).1 = 0) := by
  induction n generalizing f ls done with
  | zero => exact ⟨⟨[], .nil f, by simp [RawOn]⟩, fun _ => rfl⟩
  | succ n ih =>
    have htot := h.total
    rw [writeLoop, extentMap_eq_locate (harea.lt_u64 h)]
    cases hloc : locate i.extents ls with
    | none =>
      refine ⟨⟨[], .nil f, by simp [RawOn]⟩, fun hle => ?_⟩
      have hsome := (locate_isSome_iff i.extents ls).2 (by omega)
      rw [hloc] at hsome
      cases hsome
    | some s =>
      have hs := harea s (locate_mem hloc)
      have hlt : ¬f.super.totalSectors ≤ s := by
        rw [htot]
        exact Nat.not_le.2 hs.2
      obtain ⟨d, hwr, hdo⟩ := wr_data hs.1 hs.2
        (copyBytes (f.view.data s) (ioBegin f.dev.sectorSize off ls) data done
          (ioEnd f.dev.sectorSize off size ls - ioBegin f.dev.sectorSize off ls))
      obtain ⟨hg, hgeo, -⟩ := hdo.spec h
      simp only [if_neg hlt, rd_data hs.1 hs.2, hwr]
      obtain ⟨⟨es, heff, hraw⟩, hzero⟩ := ih hg (hgeo ▸ harea) (ls + 1)
        (done + (ioEnd f.dev.sectorSize off size ls - ioBegin f.dev.sectorSize off ls))
      refine ⟨⟨_, .cons hdo heff, ?_⟩, fun hle => hzero (by omega)⟩
      exact forall_mem_cons.2 ⟨⟨s, locate_mem hloc, _, rfl⟩, hraw⟩

theorem ioSectors_le {g : Geo} (hss : 0 < g.ss) (hsize : 0 < size) (hle : off + size ≤ n) :
    off / g.ss + ioSectors g.ss off size ≤ g.sectors n := by
  have hmono : off / g.ss ≤ (off + size - 1) / g.ss := Nat.div_le_div_right (by omega)
  have hlast : (off + size - 1) / g.ss + 1 ≤ g.sectors n := by
    rw [Geo.sectors, Nat.le_div_iff_mul_le hss, Nat.add_mul, Nat.one_mul]
    have := Nat.div_mul_le_self (off + size - 1) g.ss
    omega
  rw [ioSectors]
  omega

/-- What `rixfs_write` has checked before it writes. -/
theorem Ready.ioPrepare_ok (h : Ready f) (hrun : ioPrepare f k off size = .ok i) :
    i = f.view.ino k ∧ i.inode = k := by
  rw [ioPrepare] at hrun
  split_ifs at hrun with hover
  by_cases hrange : 1 ≤ k ∧ k ≤ f.super.inodeCount
  swap
  · rw [h.readInode_error hrange] at hrun
    cases hrun
  rw [h.readInode_ok hrange.1 hrange.2] at hrun
  simp only [] at hrun
  split_ifs at hrun with hbad
  cases hrun
  exact ⟨rfl, by omega⟩

theorem Ready.rixfsWrite_raw (h : Ready f) (harea : InArea f.geo (f.view.ino k).extents) (off : Nat)
    (data : Buf) (size : Nat) :
    ∃ es, Effects f es (rixfsWrite f k off data size).2 ∧ RawOn (f.view.blocksOf k) es := by
  have hnil : ∃ es, Effects f es f ∧ RawOn (f.view.blocksOf k) es :=
    ⟨[], .nil f, by simp [RawOn]⟩
  rw [rixfsWrite, h.mounted, if_neg (by simp)]
  split_ifs with h0
  · exact hnil
  cases hprep : ioPrepare f k off size with
  | error e => exact hnil
  | ok i =>
    obtain ⟨rfl, -⟩ := h.ioPrepare_ok hprep
    exact (h.writeLoop_spec harea off size data _ _ 0).1

/-- `rixfs_write` writes sectors of the file only, and succeeds inside of it. -/
theorem Ready.rixfsWrite_spec (h : Ready f) (hc : Core f.geo f.view)
    (hfile : (f.view.ino k).fmt ≠ ifdir) (off : Nat) (data : Buf) (size : Nat) :
    (∃ es, Effects f es (rixfsWrite f k off data size).2 ∧ RawOn (f.view.blocksOf k) es) ∧
      (f.view.Live k → off + size ≤ (f.view.ino k).size →
        (rixfsWrite f k off data size).1 = 0) := by
  refine ⟨h.rixfsWrite_raw (fun s hs => (hc.shape k (hc.live_of_block hs)).area s hs) off data size,
    fun hlive hle => ?_⟩
  have hshape := hc.shape k hlive
  have hsize := hshape.fits.size
  rw [rixfsWrite, h.mounted, if_neg (by simp)]
  split_ifs with h0
  · rfl
  have hprep : ioPrepare f k off size = .ok (f.view.ino k) := by
    rw [ioPrepare, if_neg (by omega), h.readInode_ok hshape.low hshape.high]
    simp only [hshape.self]
    rw [if_neg (by omega)]
  have htotal : total (f.view.ino k).extents = f.geo.sectors (f.view.ino k).size :=
    (hshape.size hfile).1
  rw [hprep]
  refine (h.writeLoop_spec hshape.area off size data _ _ 0).2 ?_
  rw [htotal]
  exact ioSectors_le (g := f.geo) h.sectorSize_pos (by omega) hle

theorem TreeBut.after_raw {g : Geo} {v : View} {x : Nat} (h : TreeBut g v x)
    (hfile : (v.ino k).fmt ≠ ifdir) (hes : RawOn (v.blocksOf k) es) :
    TreeBut g (v.after es) x ∧ (v.after es).ino = v.ino ∧
      ∀ j, (v.after es).listing g.ss j = v.listing g.ss j := by
  induction es generalizing v with
  | nil => exact ⟨h, rfl, fun _ => rfl⟩
  | cons e es ih =>
    obtain ⟨⟨s, hs, b, rfl⟩, hrest⟩ := forall_mem_cons.1 hes
    obtain ⟨hbut, hlisting⟩ := h.setData (b := b) hs hfile
    obtain ⟨hafter, hino, hlist⟩ := ih hbut hfile hrest
    exact ⟨hafter, hino, fun j => (hlist j).trans (hlisting j)⟩

/-- `rixfs_write` to an inode that is not a directory keeps the tree and its entries. -/
theorem Good.write_same (h : Good f) (hfile : (f.view.ino k).fmt ≠ ifdir) (off : Nat) (data : Buf)
    (size : Nat) :
    ∃ es, Effects f es (rixfsWrite f k off data size).2 ∧ Tree f.geo (f.view.after es) ∧
      SameEntries f.geo f.view (f.view.after es) := by
  obtain ⟨⟨es, heff, hraw⟩, -⟩ := h.ready.rixfsWrite_spec h.tree.core hfile off data size
  obtain ⟨hbut, hino, hlisting⟩ := (h.tree.but k).after_raw hfile hraw
  refine ⟨es, heff, hbut.tree (fun hl => ?_) fun hd => ?_, hlisting, fun j hj => ?_⟩
  · rw [View.Live, hino] at hl
    exact (h.tree.linked k hl).congr (linkCount_congr hlisting k) (by rw [hino]) (by rw [hino])
  · rw [hino] at hd
    exact absurd hd hfile
  · rwa [hino]

/-! ## Making a symbolic link -/

theorem Pending.raw {w u : Fs} (h : Pending f k i w) (hfile : (w.view.ino k).fmt ≠ ifdir)
    (he : Effects w es u) (hraw : RawOn (w.view.blocksOf k) es) : Pending f k i u := by
  obtain ⟨hu, hgeo, hview⟩ := he.spec h.ready
  obtain ⟨hbut, hino, hlisting⟩ := h.but.after_raw hfile hraw
  have hcount := (linkCount_congr hlisting k).trans h.count
  have hlive := h.live
  rw [← hview] at hbut hino hlisting hcount
  rw [View.Live, ← hino] at hlive
  exact ⟨h.dead, hu, hgeo.trans h.geo, hbut, hcount, hino ▸ h.self, hlive, h.links,
    h.same.trans ⟨hlisting, fun j hj => by rwa [hino]⟩⟩

/-- The rollback of `rixfs_symlink` frees the data of the inode as it was first
written, which is none, and clears the inode. -/
theorem Ready.symlink_undo (h : Ready g) {mode uid gid : Nat} (h1 : 1 ≤ k) (hk : k ≤ g.geo.ic) :
    Effects g [.ino k Inode.zero]
      (writeInode (freeInodeData g (newInode k mode uid gid)).2 k Inode.zero).2 := by
  have hnil : blocks (newInode k mode uid gid).extents = [] := by
    simp [newInode, Inode.zero, blocks]
  obtain ⟨g₁, hfree, heff⟩ := h.freeInodeData_ok (i := newInode k mode uid gid) (by
    intro s hs
    rw [hnil] at hs
    cases hs)
  obtain ⟨g₂, hwrite, hdo⟩ := heff.writeInode_ok h h1 hk Inode.zero
  rw [hnil] at heff
  rw [hfree, hwrite]
  exact heff.append hdo.effects

/-- `rixfs_symlink`. When the entry cannot be made, the error is `-6` and the
sectors of the target stay allocated. -/
theorem Good.symlink_bound (h : Good f) {d : Nat} (hd : (f.view.ino d).fmt = ifdir)
    (name target : CString) (uid gid : Nat) :
    ∃ es, Effects f es (symlink f d name target uid gid).2 ∧
      (∀ k, (symlink f d name target uid gid).1 = .ok k → Tree f.geo (f.view.after es) ∧
        Bound f.geo f.view d ⟨k, dirTypeSymlink, name.bytes⟩ (f.view.after es)) ∧
      ((∃ c, (symlink f d name target uid gid).1 = .error c ∧ c ≠ -6) →
        f.view.after es = f.view) := by
  have hrefused : ∀ c : Int, ∃ es, Effects f es f ∧
      (∀ k, (Except.error c : Except Int Nat) = .ok k → Tree f.geo (f.view.after es) ∧
        Bound f.geo f.view d ⟨k, dirTypeSymlink, name.bytes⟩ (f.view.after es)) ∧
      ((∃ c', (Except.error c : Except Int Nat) = .error c' ∧ c' ≠ -6) →
        f.view.after es = f.view) := fun c =>
    ⟨[], .nil f, fun _ hok => by simp at hok, fun _ => rfl⟩
  rw [symlink]
  cases hname : validName name with
  | none => exact hrefused _
  | some m =>
  simp only []
  split
  · exact hrefused _
  rename_i htarget
  cases hlook : lookupName f d name with
  | ok r => exact hrefused _
  | error c =>
  cases halloc : allocInode f with
  | error c => exact hrefused _
  | ok k =>
  rw [not_or, Nat.not_lt] at htarget
  have hlen : 0 < target.bytes.length := length_pos_iff.2 htarget.1
  have hmax : target.bytes.length ≤ 2 ^ 63 := le_trans htarget.2 (by decide)
  have hfmt : (iflnk ||| 0o777) &&& ifmt = iflnk := by decide
  have hfresh := fresh_empty h halloc (.inr rfl) hfmt (by decide) uid gid
  obtain ⟨w, hwrite, hpre, hview, hpending, -⟩ := hfresh.write h (.nil f)
  rw [mark_nil] at hview
  -- the rollback after the writes `es`
  have hundo : ∀ {g : Fs} {es : List Effect}, Effects w es g → ∃ es', Effects f es'
        (writeInode (freeInodeData g (newInode k (iflnk ||| 0o777) uid gid)).2 k Inode.zero).2 ∧
      (w.view.after es = w.view → f.view.after es' = f.view) := by
    intro g es heff
    have hall := hpre.append heff
    obtain ⟨hg, hgeo, -⟩ := hall.spec h.ready
    refine ⟨_, hall.append (hg.symlink_undo hfresh.shape.low (hgeo ▸ hfresh.shape.high)),
      fun hsame => ?_⟩
    rw [after_append, after_append, ← (hpre.spec h.ready).2.2, hsame, after_cons, after_nil,
      apply_ino _ _ zero_fits, hview, setIno_setIno]
    exact setIno_of_eq (h.tree.core.dead k hfresh.dead)
  have hcore : Core w.geo w.view := hpending.geo ▸ hpending.but.core
  have hres := hpending.ready.core_resized hcore k target.bytes.length
  simp only [hwrite, ne_eq, not_true_eq_false, if_false]
  generalize truncate w k target.bytes.length = t at hres
  cases hres with
  | refused hc =>
    obtain ⟨es, heff, hsame⟩ := hundo (.nil w)
    simp only [hc, not_false_eq_true, if_true]
    exact ⟨es, heff, fun _ hok => by simp at hok, fun _ => hsame rfl⟩
  | shrunk hk hle =>
    rw [hpending.self] at hle
    exact absurd hle (Nat.not_le.2 hlen)
  | failed hkind hbs hadds hes heff =>
    rw [hpending.ready.sectors_sub hcore hmax (hcore.isFile hkind)] at hbs
    have hnil : w.view.blocksOf k = [] := by
      rw [blocksOf, hpending.self]
      simp [newInode, Inode.clipOwner, Inode.zero, blocks]
    have harea : InArea w.geo (w.view.ino k).extents := fun s hs => by
      rw [show blocks (w.view.ino k).extents = [] from hnil] at hs
      cases hs
    have hsafe' : Safe w.geo w.view := hpending.geo ▸ hpending.but.safe
    obtain ⟨es', heff', -, hsame'⟩ := hsafe'.failed_growth hpending.ready harea hbs hadds hes heff (.inl hnil)
    obtain ⟨es, heff, hsame⟩ := hundo heff'
    exact ⟨es, heff, fun _ hok => by simp at hok, fun _ => hsame hsame'⟩
  | @grown bs l g g' hkind hlt hbs hadds hdo' =>
    have hk := hcore.isFile hkind
    have htotal := hpending.ready.total_grown hcore hmax hk hlt hadds hbs
    have hext : blocks (w.view.ino k).extents = [] := by
      rw [hpending.self]
      simp [newInode, Inode.clipOwner, Inode.zero, blocks]
    have hperm : (blocks l).Perm bs := by
      have hadd := hadds.perm
      rwa [hext, append_nil] at hadd
    have hfree : ∀ s ∈ bs, Free f.geo f.view s := fun s hs => by
      obtain ⟨h1, h2, h3⟩ := hadds.free s hs
      rw [hpending.geo] at h1 h2
      rw [hview] at h3
      exact ⟨h1, h2, h3⟩
    -- the inode with the sectors of the target is as fresh as the one before
    have hnew : Fresh f.geo f.view k ((w.view.ino k).resize l target.bytes.length) bs := by
      have hshape : Shape f.geo k (w.view.ino k) := hpending.self ▸ hfresh.shape
      refine ⟨hfresh.dead, hshape.resize hadds.slots hadds.fit (by omega) (fun s hs => ?_) ?_
        fun _ => ⟨hpending.geo ▸ htotal, hmax⟩, hfree, hperm, fun hdir => absurd hdir hk.fmt, ?_⟩
      · exact ⟨(hfree s (hperm.mem_iff.1 hs)).low, (hfree s (hperm.mem_iff.1 hs)).high⟩
      · exact hperm.nodup_iff.2 hadds.nodup
      · rw [Inode.resize_links, hpending.self]
        rfl
    have hgrow := hadds.effects.append hdo'.effects
    obtain ⟨hg', hgeo', hview'⟩ := hgrow.spec hpending.ready
    rw [after_append, after_setAll, after_cons, after_nil, apply_ino _ _ hnew.shape.fits] at hview'
    nth_rewrite 1 [hview] at hview'
    have hgrown := hnew.pending h hg' (hgeo'.trans hpending.geo)
      (hview'.trans (setIno_setIno (f.view.mark true bs) _ _ _))
    have hfile : (g'.view.ino k).fmt ≠ ifdir := by
      rw [hgrown.self]
      exact hk.fmt
    obtain ⟨⟨es₂, heff₂, hraw⟩, hzero⟩ := hg'.rixfsWrite_spec (hgrown.geo ▸ hgrown.but.core) hfile 0
      (splice zeroBuf 0 target.bytes) target.bytes.length
    have hzero := hzero hgrown.live (by rw [hgrown.self, Inode.resize_size]; omega)
    have hwritten := hgrown.raw hfile heff₂ hraw
    simp only [not_true_eq_false, if_false, hzero]
    generalize (rixfsWrite g' k 0 (splice zeroBuf 0 target.bytes) target.bytes.length).2 = u
      at heff₂ hwritten
    have htype : dirTypeSymlink = expectedType ((w.view.ino k).resize l target.bytes.length) := by
      have hfmt : ((w.view.ino k).resize l target.bytes.length).fmt = iflnk := by
        rw [Inode.resize_fmt, hpending.self]
        exact fmt_mode (t := iflnk) rfl 0o777
      rw [expectedType, hfmt]
      rfl
    have hwhole := hgrow.append heff₂
    rcases hwritten.enter_spec h hd htype (validName_length hname) with
      ⟨g₃, es₃, hrun, heff₃, -, htree, hbound⟩ | ⟨g₃, es₃, hrun, heff₃, -⟩
    · have hall := hpre.append hwhole
      rw [hrun]
      refine ⟨_, hall.append heff₃, fun j hj => ?_, fun hno => by simp at hno⟩
      cases hj
      rw [after_append, ← (hall.spec h.ready).2.2]
      exact ⟨htree, hbound⟩
    obtain ⟨es, heff, -⟩ := hundo (hwhole.append heff₃)
    rw [hrun]
    exact ⟨es, heff, fun _ hok => by simp at hok, fun hno => by simp at hno⟩

end RixuriOS.Rixfs
