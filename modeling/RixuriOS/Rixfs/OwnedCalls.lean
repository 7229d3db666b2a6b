import RixuriOS.Rixfs.Owned
import RixuriOS.Vfs.Lookup

/-!
# Calls keep the owners of sectors

Every call that succeeds on a sound image leaves a sound image, whatever its
arguments are: the directory may be a file or a free slot, the entries that a
lookup finds may have been forged by a write to the directory, and a length may be
close to the end of the numbers.
-/

namespace RixuriOS.Rixfs

open ByteCodec CrashStore ExtentList LinkGraph ExceptLoop View

variable {k d uid gid : Nat} {name : CString}

variable {f g : Fs}

theorem Ready.readInode_done (h : Ready f) {i : Inode} (hrun : readInode f k = .ok i) :
    (1 ≤ k ∧ k ≤ f.geo.ic) ∧ i = f.view.ino k := by
  by_cases hk : 1 ≤ k ∧ k ≤ f.super.inodeCount
  · rw [h.readInode_ok hk.1 hk.2] at hrun
    exact ⟨hk, (Except.ok.inj hrun).symm⟩
  · rw [h.readInode_error hk] at hrun
    cases hrun

/-! ## Changing the size and the data of a file -/

/-- What a change of size leaves alone: the other inodes and the data area. -/
structure OthersKept (f : Fs) (k : Nat) (g : Fs) : Prop where
  ready : Ready g
  geo : g.geo = f.geo
  ino : ∀ j, j ≠ k → g.view.ino j = f.view.ino j
  data : ∀ j, j ≠ k → ∀ s ∈ f.view.blocksOf j, g.view.data s = f.view.data s

variable {j mode n : Nat} {v : View}

/-- Reading an inode and its bytes depends on its record and its sectors only. -/
theorem Sound.reads_eq (h : Sound f) (hg : Ready g) (hgeo : g.geo = f.geo)
    (hino : g.view.ino j = f.view.ino j)
    (hdata : ∀ s ∈ f.view.blocksOf j, g.view.data s = f.view.data s) :
    readInode g j = readInode f j ∧
      ∀ off size, rixfsRead g j off size = rixfsRead f j off size := by
  have hss : g.dev.sectorSize = f.dev.sectorSize := congrArg Geo.ss hgeo
  have hic : g.super.inodeCount = f.super.inodeCount := congrArg Geo.ic hgeo
  have htot : g.super.totalSectors = f.super.totalSectors := by
    rw [hg.on.superOk.totalSectors, h.ready.on.superOk.totalSectors]
    exact congrArg Geo.tot hgeo
  have hread : readInode g j = readInode f j := by
    by_cases hk : 1 ≤ j ∧ j ≤ f.super.inodeCount
    · rw [hg.readInode_ok hk.1 (hic ▸ hk.2), h.ready.readInode_ok hk.1 hk.2, hino]
    · rw [hg.readInode_error (hic.symm ▸ hk), h.ready.readInode_error hk]
  refine ⟨hread, fun off size => ?_⟩
  have hprep : ioPrepare g j off size = ioPrepare f j off size := by rw [ioPrepare, ioPrepare, hread]
  rw [rixfsRead, rixfsRead, hprep, hg.mounted, h.ready.mounted, hss]
  cases hok : ioPrepare f j off size with
  | error c => rfl
  | ok i =>
  obtain ⟨rfl, -⟩ := h.ready.ioPrepare_ok hok
  have hloop := readLoop_congr hss htot (i := f.view.ino j) fun pos s hmap _ => by
    rw [extentMap_eq_locate ((h.owned.area j).lt_u64 h.ready)] at hmap
    have hs := locate_mem hmap
    obtain ⟨hlow, hhigh⟩ := h.owned.area j s hs
    have hlow' : g.geo.ds ≤ s := hgeo.symm ▸ hlow
    have hhigh' : s < g.geo.tot := hgeo.symm ▸ hhigh
    rw [rd_data hlow hhigh, rd_data hlow' hhigh', hdata s hs]
  simp only [hloop]

theorem OthersKept.reads (h : Sound f) (hkept : OthersKept f k g) (hj : j ≠ k) :
    readInode g j = readInode f j ∧
      ∀ off size, rixfsRead g j off size = rixfsRead f j off size :=
  h.reads_eq hkept.ready hkept.geo (hkept.ino j hj) (hkept.data j hj)

theorem Sound.of_resized (h : Sound f) {l : List Extent} {ns : List Nat} {c : Bool} {a : Fs}
    (heff : Effects f (setAll c ns) a) (hdo : Does a (.ino k ((f.view.ino k).resize l n)) g)
    (hslots : l.length = (f.view.ino k).extents.length) (hfit : ExtentsFit l)
    (hown : ∀ i : Inode, i.extents = l → Owned f.geo ((f.view.mark c ns).setIno k i)) :
    Sound g ∧ OthersKept f k g := by
  have hext : ((f.view.ino k).resize l n).wrap.extents = l :=
    Inode.wrap_extents (hslots.trans (h.ready.ino_fits k).slots) hfit
  obtain ⟨hg, hgeo, hview⟩ := (heff.append hdo.effects).spec h.ready
  rw [after_append, after_setAll] at hview
  have hfinal : g.view = (f.view.mark c ns).setIno k ((f.view.ino k).resize l n).wrap := hview
  refine ⟨⟨hg, ?_⟩, hg, hgeo, fun j hj => ?_, fun j _ s _ => ?_⟩
  · rw [hgeo, hfinal]
    exact hown _ hext
  · rw [hfinal, setIno_ino_ne _ _ _ hj, mark_ino]
  · rw [hfinal, setIno_data, mark_data]

theorem Sound.of_truncate (h : Sound f) (hrun : truncate f k n = (0, g)) :
    Sound g ∧ OthersKept f k g := by
  have hres := h.ready.truncate_resized k n fun _ => ⟨h.owned.area k, h.owned.nodup k⟩
  rw [hrun] at hres
  generalize hr : ((0 : Int), g) = r at hres
  cases hres with
  | refused hc => exact absurd (congrArg Prod.fst hr).symm hc
  | failed => simp at hr
  | grown _ _ _ hadds hdo =>
    obtain rfl := (Prod.mk.inj hr).2
    refine h.of_resized hadds.effects hdo hadds.slots hadds.fit fun i hi => ?_
    exact h.owned.gain hadds.nodup hadds.free (by rw [hi]; exact hadds.perm)
  | @shrunk fs l _ _ _ _ hfs hl hslots hfit heff hdo =>
  obtain rfl := (Prod.mk.inj hr).2
  refine h.of_resized heff hdo hslots hfit fun i hi => h.owned.release ?_
  rw [hi, hl]
  refine List.Perm.trans ?_ (hfs.symm.append_right _)
  exact (List.Perm.of_eq (List.take_append_drop _ _).symm).trans List.perm_append_comm

theorem after_raw {l : List Nat} {es : List Effect} (hes : RawOn l es) :
    (v.after es).ino = v.ino ∧ (v.after es).bit = v.bit ∧
      ∀ s, s ∉ l → (v.after es).data s = v.data s := by
  induction es generalizing v with
  | nil => exact ⟨rfl, rfl, fun _ _ => rfl⟩
  | cons e es ih =>
    obtain ⟨⟨s, hs, b, rfl⟩, hrest⟩ := List.forall_mem_cons.1 hes
    obtain ⟨hino, hbit, hdata⟩ := ih (v := v.setData s b) hrest
    refine ⟨hino, hbit, fun t ht => (hdata t ht).trans (setData_data_ne _ _ _ ?_)⟩
    rintro rfl
    exact ht hs

/-- A write keeps the inodes and the sectors of the other inodes, even when it fails
halfway. -/
theorem Sound.of_write (h : Sound f) (k off : Nat) (data : Buf) (size : Nat) :
    Sound (rixfsWrite f k off data size).2 ∧ OthersKept f k (rixfsWrite f k off data size).2 := by
  obtain ⟨es, heff, hraw⟩ := h.ready.rixfsWrite_raw (h.owned.area k) off data size
  obtain ⟨hg, hgeo, hview⟩ := heff.spec h.ready
  obtain ⟨hino, hbit, hdata⟩ := after_raw (v := f.view) hraw
  refine ⟨h.after heff (h.owned.of_tables hino hbit), hg, hgeo, fun j _ => ?_, fun j hj s hs => ?_⟩
  · rw [hview, hino]
  · rw [hview]
    exact hdata s fun hk => hj (h.owned.apart j k s hs hk)

/-! ## Making entries -/

theorem Sound.of_create (h : Sound f) (hrun : (create f d name mode uid gid).1 = .ok k) :
    Sound (create f d name mode uid gid).2 := by
  rw [create] at hrun ⊢
  cases hname : validName name with
  | none => simp [hname] at hrun
  | some n =>
  cases hlook : lookupName f d name with
  | ok r => simp [hname, hlook] at hrun
  | error c =>
  cases halloc : allocInode f with
  | error c => simp [hname, hlook, halloc] at hrun
  | ok ino =>
  simp only [hname, hlook, halloc] at hrun ⊢
  generalize hwrite : writeInode f ino (newInode ino (ifreg ||| (mode &&& 0o7777)) uid gid) = w
    at hrun ⊢
  obtain ⟨c, w⟩ := w
  split_ifs at hrun ⊢ with h1 h2 h3
  rw [not_not] at h1 h3
  simp only at h1
  subst h1
  have hw := h.of_writeEmpty hwrite rfl
  exact (hw.of_enter h2 h3).sound

theorem Sound.of_mkdir (h : Sound f) (hrun : (mkdir f d name mode uid gid).1 = .ok k) :
    Sound (mkdir f d name mode uid gid).2 := by
  rw [mkdir] at hrun ⊢
  cases hname : validName name with
  | none => simp [hname] at hrun
  | some n =>
  cases hlook : lookupName f d name with
  | ok r => simp [hname, hlook] at hrun
  | error c =>
  cases halloc : allocInode f with
  | error c => simp [hname, hlook, halloc] at hrun
  | ok ino =>
  have htakes := h.ready.allocSecTop_takes []
  simp only [hname, hlook, halloc] at hrun ⊢
  generalize allocSecTop f [] = a at htakes hrun ⊢
  cases htakes with
  | error heff => simp at hrun
  | @ok s a hs heff =>
  obtain ⟨ha, hgeo, hview⟩ := heff.spec h.ready
  obtain ⟨i, hi⟩ : ∃ i, i = { newInode ino (ifdir ||| (mode &&& 0o7777)) uid gid with
    extents := [⟨s, 1⟩, ⟨0, 0⟩, ⟨0, 0⟩, ⟨0, 0⟩] } := ⟨_, rfl⟩
  simp only [← hi] at hrun ⊢
  generalize hwrite : writeInode a ino i = w at hrun ⊢
  obtain ⟨c, w⟩ := w
  split_ifs at hrun ⊢ with h1 h2 h3
  rw [not_not] at h1 h3
  simp only at h1
  subst h1
  have hext : i.wrap.extents = oneSector s := by
    have hlt : s < 2 ^ 64 := lt_trans hs.high h.ready.tot_lt
    have hfit : ExtentsFit (oneSector s) := by simpa [oneSector, ExtentsFit] using hlt
    rw [Inode.wrap_extents (by rw [hi]; rfl) (by rw [hi]; exact hfit), hi]
    rfl
  have hdo := ha.writeInode_done hwrite
  have hw : Sound w := by
    refine h.after (heff.append hdo.effects) ?_
    have htake : Owned f.geo ((f.view.mark true [s]).setIno ino i.wrap) := by
      refine h.owned.take (by simpa using hs) ?_ ?_
      · rw [hext, blocks_oneSector]
        exact List.nodup_singleton s
      · rw [hext, blocks_oneSector]
        exact fun t ht => .inl ht
    rwa [← apply_bit_true] at htake
  exact (hw.of_enter h2 h3).sound

theorem Sound.of_symlink (h : Sound f) {target : CString}
    (hrun : (symlink f d name target uid gid).1 = .ok k) :
    Sound (symlink f d name target uid gid).2 := by
  rw [symlink] at hrun ⊢
  cases hname : validName name with
  | none => simp [hname] at hrun
  | some n =>
  simp only [hname] at hrun ⊢
  split_ifs at hrun ⊢ with htarget
  cases hlook : lookupName f d name with
  | ok r => simp [hlook] at hrun
  | error c =>
  cases halloc : allocInode f with
  | error c => simp [hlook, halloc] at hrun
  | ok ino =>
  simp only [hlook, halloc] at hrun ⊢
  generalize hwrite : writeInode f ino (newInode ino (iflnk ||| 0o777) uid gid) = w at hrun ⊢
  obtain ⟨c, w⟩ := w
  generalize htrunc : truncate w ino target.bytes.length = t at hrun ⊢
  obtain ⟨c', t⟩ := t
  split_ifs at hrun ⊢ with h1 h2 h3 h4 h5
  rw [not_not] at h1 h2 h5
  simp only at h1 h2
  subst h1 h2
  have hw := h.of_writeEmpty hwrite rfl
  have ht := (hw.of_truncate htrunc).1
  have hu := (ht.of_write ino 0 (splice zeroBuf 0 target.bytes) target.bytes.length).1
  exact (hu.of_enter h4 h5).sound

theorem Sound.of_link (h : Sound f) {source type : Nat} (hrun : (link f source d name type).1 = 0) :
    Sound (link f source d name type).2 := by
  rw [link] at hrun ⊢
  cases hname : validName name with
  | none => simp [hname] at hrun
  | some n =>
  cases hlook : lookupName f d name with
  | ok r => simp [hname, hlook] at hrun
  | error c =>
  cases hread : readInode f source with
  | error c => simp [hname, hlook, hread] at hrun
  | ok i =>
  obtain ⟨-, rfl⟩ := h.ready.readInode_done hread
  have hfits := h.ready.ino_fits source
  simp only [hname, hlook, hread] at hrun ⊢
  generalize (if (f.view.ino source).links = 0 then 2 else (f.view.ino source).links + 1) = m
    at hrun ⊢
  split_ifs at hrun ⊢ with h1 h2 h3 h4 h5
  iterate 5 simp at hrun
  rw [not_not] at h5
  have hent := h.of_enter h4 h5
  obtain ⟨i, hi⟩ : ∃ i, i = { f.view.ino source with links := m } := ⟨_, rfl⟩
  have hext : i.extents = (f.view.ino source).extents := by rw [hi]
  rw [← hi] at hrun ⊢
  generalize hwrite : writeInode (enter f d source type name.bytes).2.2 source i = w at hrun ⊢
  obtain ⟨c, w⟩ := w
  simp only at hrun
  subst hrun
  refine hent.sound.of_writeInode hwrite ?_ ?_ ?_ fun s hs => ?_
  · rw [hext]
    exact hfits.slots
  · rw [hext]
    exact hfits.extents
  · rw [hext]
    exact h.owned.nodup source
  rw [hext] at hs
  by_cases hsd : source = d
  · subst hsd
    exact hent.keeps s hs
  · rw [blocksOf, hent.other source hsd]
    exact hs

/-! ## Removing entries -/

section

variable (h : Ready f)

include h

variable {dir : Inode} {off : Nat}

theorem Ready.clearEntry_done (harea : InArea f.geo dir.extents)
    (hrun : clearEntry f dir off = (0, g)) : ∃ s b, Effects f [.raw s b] g := by
  rw [clearEntry] at hrun
  cases hsec : dirSector dir.extents (off / f.dev.sectorSize) with
  | none => simp [hsec] at hrun
  | some s =>
  have hs := harea s (h.dirSector_mem harea hsec)
  obtain ⟨d, hwr, hdo⟩ := wr_data hs.1 hs.2 (clear (f.view.data s) (off % f.dev.sectorSize) 8)
  simp only [hsec, rd_data hs.1 hs.2, hwr, Prod.mk.injEq, true_and] at hrun
  exact ⟨s, _, hrun ▸ hdo.effects⟩

theorem Ready.removeLoop_done (harea : InArea f.geo dir.extents) {ino : Nat} {name : List Byte}
    (hrun : removeLoop f ino dir name n off = (0, g)) : ∃ s b, Effects f [.raw s b] g := by
  induction n generalizing off with
  | zero => simp [removeLoop] at hrun
  | succ n ih =>
    rw [removeLoop] at hrun
    split_ifs at hrun with hend
    · simp at hrun
    cases hent : readEnt f ino off with
    | error c => simp [hent] at hrun
    | ok e =>
    simp only [hent] at hrun
    split_ifs at hrun with hzero hbad hlen
    · cases hstep : holeStep f.dev.sectorSize (dir.size - off) e with
      | none => simp [hstep] at hrun
      | some k =>
        rw [hstep] at hrun
        exact ih hrun
    · simp at hrun
    · cases hread : rixfsRead f ino (off + direntMinSize) name.length with
      | error c => simp [hread] at hrun
      | ok b =>
        simp only [hread] at hrun
        split_ifs at hrun
        · exact h.clearEntry_done harea hrun
        · exact ih hrun
    · exact ih hrun

theorem Ready.removeName_done (harea : ∀ k, InArea f.geo (f.view.ino k).extents)
    (hrun : removeName f d name = (0, g)) : ∃ s b, Effects f [.raw s b] g := by
  rw [removeName, h.mounted, if_neg (by simp)] at hrun
  cases hname : nameValid name with
  | none => simp [hname] at hrun
  | some n =>
  cases hdir : readDirInode f d with
  | none => simp [hname, hdir] at hrun
  | some dir =>
  have hino : dir = f.view.ino d := by
    rw [readDirInode] at hdir
    cases hread : readInode f d with
    | error c => simp [hread] at hdir
    | ok i =>
    simp only [hread] at hdir
    split_ifs at hdir
    rw [← Option.some.inj hdir]
    exact (h.readInode_done hread).2
  rw [hname, hdir] at hrun
  exact h.removeLoop_done (hino ▸ harea d) hrun

end

theorem Owned.clear {g : Geo} (h : Owned g v) (k : Nat) :
    Owned g ((v.mark false (v.blocksOf k)).setIno k Inode.zero) := by
  refine h.release ?_
  simp [Inode.zero, blocks]

theorem Sound.of_unlink (h : Sound f) (hrun : (unlink f d name).1 = 0) :
    Sound (unlink f d name).2 := by
  rw [unlink] at hrun ⊢
  cases hname : validName name with
  | none => simp [hname] at hrun
  | some n =>
  cases hlook : lookupName f d name with
  | error c => simp [hname, hlook] at hrun
  | ok r =>
  obtain ⟨k, t⟩ := r
  cases hread : readInode f k with
  | error c =>
    simp only [hname, hlook, hread] at hrun
    split_ifs at hrun <;> simp at hrun
  | ok i =>
  obtain ⟨-, rfl⟩ := h.ready.readInode_done hread
  simp only [hname, hlook, hread] at hrun ⊢
  generalize hremove : removeName f d name = r at hrun ⊢
  obtain ⟨c, r⟩ := r
  split_ifs at hrun ⊢ with h1 h2 h3 h4 h5
  iterate 3 simp at hrun
  all_goals
    rw [not_not] at h3
    simp only at h3
    subst h3
    obtain ⟨s, b, heff⟩ := h.ready.removeName_done h.owned.area hremove
    have hr := h.after heff (h.owned.of_tables rfl rfl)
    obtain ⟨-, hgeo, hview⟩ := heff.spec h.ready
    have hino : r.view.ino = f.view.ino := by rw [hview]; rfl
  · generalize hwrite : writeInode r k
      { f.view.ino k with links := (f.view.ino k).links - 1 } = w at hrun ⊢
    obtain ⟨c, w⟩ := w
    simp only at hrun
    subst hrun
    refine hr.of_rewrite hwrite ?_
    rw [hino]
  · simp at hrun
  obtain ⟨c, hfree, heff'⟩ := hr.ready.freeInodeData_ok (i := f.view.ino k)
    (by rw [hgeo]; exact h.owned.area k)
  obtain ⟨hc, -, -⟩ := heff'.spec hr.ready
  rw [hfree] at hrun ⊢
  generalize hwrite : writeInode c k Inode.zero = w at hrun ⊢
  obtain ⟨c', w⟩ := w
  simp only at hrun
  subst hrun
  have hdo := hc.writeInode_done hwrite
  refine hr.after (heff'.append hdo.effects) ?_
  rw [after_append, after_setAll, after_cons, after_nil, apply_ino _ _ zero_fits]
  have hclear := hr.owned.clear k
  rwa [blocksOf, hino] at hclear

theorem Sound.of_rmdir (h : Sound f) (hrun : (rmdir f d name).1 = 0) :
    Sound (rmdir f d name).2 := by
  rw [rmdir] at hrun ⊢
  cases hname : validName name with
  | none => simp [hname] at hrun
  | some n =>
  cases hlook : lookupName f d name with
  | error c => simp [hname, hlook] at hrun
  | ok r =>
  obtain ⟨k, t⟩ := r
  cases hread : readInode f k with
  | error c =>
    simp only [hname, hlook, hread] at hrun
    split_ifs at hrun <;> simp at hrun
  | ok i =>
  obtain ⟨-, rfl⟩ := h.ready.readInode_done hread
  obtain ⟨c, hfree, heff⟩ := h.ready.freeInodeData_ok (i := f.view.ino k) (h.owned.area k)
  obtain ⟨hc, hgeo, hview⟩ := heff.spec h.ready
  rw [after_setAll] at hview
  simp only [hname, hlook, hread, hfree] at hrun ⊢
  generalize hremove : removeName c d name = r at hrun ⊢
  obtain ⟨e, r⟩ := r
  split_ifs at hrun ⊢ with h1 h2 h3 h4 h5
  iterate 5 simp at hrun
  rw [not_not] at h5
  simp only at h5
  subst h5
  have harea : ∀ j, InArea c.geo (c.view.ino j).extents := fun j => by
    rw [hgeo, hview]
    exact h.owned.area j
  obtain ⟨s, b, heff'⟩ := hc.removeName_done harea hremove
  obtain ⟨hr, -, -⟩ := heff'.spec hc
  generalize hwrite : writeInode r k Inode.zero = w at hrun ⊢
  obtain ⟨e, w⟩ := w
  simp only at hrun
  subst hrun
  have hdo := hr.writeInode_done hwrite
  refine h.after (heff.append (heff'.append hdo.effects)) ?_
  refine (h.owned.clear k).of_tables ?_ ?_
  all_goals
    rw [after_append, after_setAll, after_append, after_cons, after_nil,
      after_cons, after_nil, apply_ino _ _ zero_fits]
    rfl

/-! ## Access control lists -/

theorem Sound.of_setAcl (h : Sound f) {a : Acl} (hrun : (setAcl f k a).1 = 0) :
    Sound (setAcl f k a).2 := by
  rw [setAcl] at hrun ⊢
  split_ifs at hrun ⊢ with hvalid
  · simp at hrun
  cases hread : readInode f k with
  | error c => simp [hread] at hrun
  | ok i =>
  obtain ⟨-, rfl⟩ := h.ready.readInode_done hread
  simp only [hread] at hrun ⊢
  exact h.of_rewrite (Prod.ext hrun rfl) rfl

theorem Sound.of_clearAcl (h : Sound f) (hrun : (clearAcl f k).1 = 0) : Sound (clearAcl f k).2 := by
  rw [clearAcl] at hrun ⊢
  cases hread : readInode f k with
  | error c => simp [hread] at hrun
  | ok i =>
  obtain ⟨-, rfl⟩ := h.ready.readInode_done hread
  simp only [hread] at hrun ⊢
  exact h.of_rewrite (Prod.ext hrun rfl) rfl

end RixuriOS.Rixfs
