import RixuriOS.Rixfs.OwnedCalls

/-!
# A rename keeps the owners of sectors

The staged image of a rename is followed with `Owned` alone: the directories may
hold records that a write has forged, so that the entries found need not be entries
of a tree.
-/

namespace RixuriOS.Rixfs

open ByteCodec CrashStore ExtentList LinkGraph ExceptLoop View

/-! ## The checks -/

variable {name : List Byte} {newDir oldDir s : Nat} {f : Fs}

section

variable (h : Sound f)

include h

variable {d pos : Nat}

theorem Sound.findEntryLoop_mem {n off : Nat}
    (hrun : findEntryLoop f d (f.view.ino d) name n off = .ok (s, pos)) :
    s ∈ f.view.blocksOf d := by
  induction n generalizing off with
  | zero => simp [findEntryLoop] at hrun
  | succ n ih =>
    rw [findEntryLoop] at hrun
    split_ifs at hrun with hend
    cases hread : readdir f d off (nameMax + 1) with
    | error c => simp [hread] at hrun
    | ok r =>
    cases r with
    | none => simp [hread] at hrun
    | some item =>
    simp only [hread] at hrun
    split_ifs at hrun with hname
    · cases hsec : dirSector (f.view.ino d).extents
          ((item.next - item.ent.recordSize) / f.dev.sectorSize) with
      | none => simp [hsec] at hrun
      | some t =>
        rw [hsec, Except.ok.injEq, Prod.mk.injEq] at hrun
        rw [← hrun.1]
        exact h.ready.dirSector_mem (h.owned.area _) hsec
    · exact ih hrun

theorem Sound.renameFindEntry_mem {name : CString}
    (hrun : renameFindEntry f d name = .ok (s, pos)) : s ∈ f.view.blocksOf d := by
  rw [renameFindEntry] at hrun
  cases hread : readInode f d with
  | error c => simp [hread] at hrun
  | ok i =>
  obtain ⟨-, rfl⟩ := h.ready.readInode_done hread
  simp only [hread] at hrun
  split_ifs at hrun with hfmt
  exact h.findEntryLoop_mem hrun

end

/-- What the checks of a rename establish on any sound image. -/
structure Picked (f : Fs) (oldDir newDir : Nat) (a : RenameArgs) : Prop where
  source : a.sourceSector ∈ f.view.blocksOf oldDir
  parent : a.newParent = f.view.ino newDir
  dir : (f.view.ino newDir).fmt = ifdir
  replaced : ∀ x i s off, a.replaced = some (x, i, s, off) →
    i = f.view.ino x ∧ (f.view.ino x).fmt ≠ ifdir ∧ s ∈ f.view.blocksOf newDir

variable {oldName : CString} {a : RenameArgs} {p : Changes × Nat}

section

variable (h : Sound f) {newName : CString} {replace : Bool}

include h

theorem Sound.renameDest_mem {k : Nat} {r : Option (Nat × Inode × Nat × Nat)}
    (hrun : renameDest f k newDir newName replace = .ok r) :
    ∀ x i s off, r = some (x, i, s, off) →
      i = f.view.ino x ∧ (f.view.ino x).fmt ≠ ifdir ∧ s ∈ f.view.blocksOf newDir := by
  rintro x i s off rfl
  obtain ⟨hnone, -⟩ | ⟨y, t, j, s', off', hq, -, -, hread, hfind⟩ := renameDest_cases hrun
  · cases hnone
  cases hq
  obtain ⟨hi, hfile⟩ := h.ready.readFileInode_some hread
  exact ⟨hi, hi ▸ hfile, h.renameFindEntry_mem hfind⟩

theorem Sound.renameCheck_picked
    (hrun : renameCheck f oldDir oldName newDir newName replace = .ok a) :
    Picked f oldDir newDir a := by
  have hchecks := renameCheck_cases hrun
  have hparent := (h.ready.readInode_done hchecks.parent).2
  exact ⟨h.renameFindEntry_mem hchecks.entry, hparent, hparent ▸ hchecks.dir,
    h.renameDest_mem hchecks.dest⟩

end

/-! ## The stages -/

/-- The staged image has the inodes and the bits of the image on the device, and its
data outside of the two directories. -/
structure Untouched (f : Fs) (oldDir newDir : Nat) (cs : Changes) (v : View) : Prop where
  stage : Stage f cs v
  ino : v.ino = f.view.ino
  bit : v.bit = f.view.bit
  data : ∀ s, s ∉ f.view.blocksOf oldDir → s ∉ f.view.blocksOf newDir → v.data s = f.view.data s

/-- The staged image after the new entry has been placed. -/
structure Staged (f : Fs) (oldDir newDir : Nat) (cs : Changes) (v : View) : Prop where
  stage : Stage f cs v
  owned : Owned f.geo v
  ino : ∀ j, j ≠ newDir → v.ino j = f.view.ino j
  data : ∀ s, f.view.bit s = true → s ∉ f.view.blocksOf oldDir → s ∉ f.view.blocksOf newDir →
    v.data s = f.view.data s

section

variable (h : Sound f) {cs cs' : Changes} {v : View} (hv : Untouched f oldDir newDir cs v)

include h hv

theorem Untouched.change (hs : s ∈ f.view.blocksOf oldDir ∨ s ∈ f.view.blocksOf newDir)
    {c : Buf → Buf} (hrun : renameChange f cs s c = .ok cs') :
    ∃ v', Untouched f oldDir newDir cs' v' := by
  obtain ⟨hlow, hhigh⟩ : f.geo.ds ≤ s ∧ s < f.geo.tot :=
    hs.elim (h.owned.area oldDir s) (h.owned.area newDir s)
  refine ⟨_, hv.stage.change_data h.ready hlow hhigh hrun, hv.ino, hv.bit, fun t hold hnew => ?_⟩
  rw [setData_data_ne, hv.data t hold hnew]
  rintro rfl
  exact hs.elim hold hnew

theorem Untouched.owned : Owned f.geo v := h.owned.of_tables hv.ino hv.bit

theorem Untouched.staged : Staged f oldDir newDir cs v :=
  ⟨hv.stage, hv.owned h, fun j _ => by rw [hv.ino], fun s _ => hv.data s⟩

variable (ha : Picked f oldDir newDir a)

include ha

theorem Untouched.tail (name : List Byte) :
    ∃ v', Untouched f oldDir newDir (stageTail f cs a name).1 v' := by
  rw [stageTail]
  split_ifs with hz
  · exact ⟨v, hv⟩
  cases hsec : dirSector a.newParent.extents (a.newParent.size / f.dev.sectorSize - 1) with
  | none => exact ⟨v, hv⟩
  | some s =>
  rw [ha.parent] at hsec
  have hmem := h.ready.dirSector_mem (h.owned.area _) hsec
  obtain ⟨hlow, hhigh⟩ := h.owned.area newDir s hmem
  simp only []
  cases hget : renameChangeGet f cs s with
  | error c => exact ⟨v, hv⟩
  | ok cs' =>
  have hst := (hv.stage.get (h.ready.target_data hlow hhigh) hget).1
  simp only []
  cases dirTailFit (changeData cs' s) f.dev.sectorSize a.sourceInode a.sourceType name with
  | full => exact ⟨v, hst, hv.ino, hv.bit, hv.data⟩
  | corrupt => exact ⟨v, hst, hv.ino, hv.bit, hv.data⟩
  | staged b =>
    refine hv.change h (.inr hmem) (c := fun _ => b) ?_
    rw [renameChange, hget]

theorem Untouched.sector (hrun : stageSector f cs newDir a name = .ok p) :
    ∃ v', Staged f oldDir newDir p.1 v' := by
  have hfits := h.ready.ino_fits newDir
  have hself : v.ino newDir = f.view.ino newDir := by rw [hv.ino]
  rw [stageSector] at hrun
  cases hslot : renameFindEmptySlot f newDir with
  | error c => simp [hslot] at hrun
  | ok r =>
  cases r with
  | some s =>
    have hs : s ∈ f.view.blocksOf newDir := by
      rw [renameFindEmptySlot] at hslot
      cases hread : readInode f newDir with
      | error c => simp [hread] at hslot
      | ok i =>
      obtain ⟨-, rfl⟩ := h.ready.readInode_done hread
      simp only [hread] at hslot
      split_ifs at hslot with hbad
      exact h.ready.findUnused_mem (h.owned.area newDir) hslot
    cases hdirent : stageDirent f cs s a name with
    | error c => simp [hslot, hdirent, Except.map] at hrun
    | ok cs₁ =>
    simp only [hslot, hdirent, Except.map] at hrun
    cases hrun
    obtain ⟨v', hv'⟩ := hv.change h (.inr hs) (stageDirent_ok h.ready hdirent).2
    exact ⟨v', hv'.staged h⟩
  | none =>
    rw [hslot, ha.parent] at hrun
    cases hspare : (if (f.view.ino newDir).size = 0 then dirSector (f.view.ino newDir).extents 0
        else none) with
    | some s =>
      have hs : s ∈ f.view.blocksOf newDir := by
        split_ifs at hspare
        exact h.ready.dirSector_mem (h.owned.area newDir) hspare
      obtain ⟨hlow, hhigh⟩ := h.owned.area newDir s hs
      simp only [hspare, bind_eq_ok] at hrun
      obtain ⟨cs₁, hrun₁, cs₂, hrun₂, hp⟩ := hrun
      cases hp
      have hst₁ := hv.stage.change_inode h.ready hrun₁
      have hst₂ := hst₁.change_data h.ready hlow hhigh (stageDirent_ok h.ready hrun₂).2
      refine ⟨_, hst₂, ?_, fun j hj => ?_, fun t _ hold hnew => ?_⟩
      · refine Owned.of_tables ((hv.owned h).reuse (k := newDir) ?_) rfl rfl
        rw [hself]
        exact Inode.wrap_extents hfits.slots hfits.extents
      · rw [setData_ino, setIno_ino_ne _ _ _ hj, hv.ino]
      rw [setData_data_ne, setIno_data, hv.data t hold hnew]
      rintro rfl
      exact hnew hs
    | none =>
      simp only [hspare, bind_eq_ok] at hrun
      obtain ⟨s, hfree, cs₁, hrun₁, hrun⟩ := hrun
      split_ifs at hrun with hover
      cases happ : appendExtent (f.view.ino newDir).extents s with
      | none => simp [happ] at hrun
      | some l =>
      simp only [happ, bind_eq_ok] at hrun
      obtain ⟨cs₂, hrun₂, cs₃, hrun₃, hp⟩ := hrun
      cases hp
      obtain ⟨hlt, hrun₃⟩ := stageDirent_ok h.ready hrun₃
      have hfree := h.ready.renameFindFreeSector_ok hfree hlt
      obtain ⟨hperm, hlen⟩ := appendExtent_perm h.ready.tot_lt hfree.high
        (fun t ht => (h.owned.area newDir t ht).2) happ
      have hext : ((f.view.ino newDir).resize l
          (u64 ((f.view.ino newDir).size + f.dev.sectorSize))).wrap.extents = l :=
        Inode.wrap_extents (hlen.trans hfits.slots)
          (appendExtent_fit (lt_trans hfree.high h.ready.tot_lt) hfits.extents happ)
      have hst₁ := hv.stage.change_bit h.ready hlt hrun₁
      have hst₂ := hst₁.change_inode h.ready hrun₂
      have hst₃ := hst₂.change_data h.ready hfree.low hlt hrun₃
      refine ⟨_, hst₃, ?_, fun j hj => ?_, fun t ht hold hnew => ?_⟩
      · have hgain := (hv.owned h).gain (k := newDir) (i := ((f.view.ino newDir).resize l
            (u64 ((f.view.ino newDir).size + f.dev.sectorSize))).wrap)
          (List.nodup_singleton s)
          (by simpa using (⟨hfree.low, hfree.high, hv.bit ▸ hfree.clear⟩ : Free f.geo v s))
          (by rw [hext, blocksOf, hself]; exact hperm)
        rw [← apply_bit_true] at hgain
        exact hgain.of_tables rfl rfl
      · rw [setData_ino, setIno_ino_ne _ _ _ hj, setBit_ino, hv.ino]
      rw [setData_data_ne, setIno_data, setBit_data, hv.data t hold hnew]
      rintro rfl
      rw [hfree.clear] at ht
      cases ht

end

theorem Staged.replaced (h : Sound f) {x : Nat} {cs cs' : Changes} {v : View}
    (hst : Staged f oldDir newDir cs v) (hx : x ≠ newDir)
    (hrun : stageReplaced f cs x (f.view.ino x) = .ok cs') :
    ∃ v', Stage f cs' v' ∧ Owned f.geo v' ∧ v'.data = v.data := by
  have hfits := h.ready.ino_fits x
  have hself := hst.ino x hx
  rw [stageReplaced] at hrun
  split_ifs at hrun with hlinks
  · refine ⟨_, hst.stage.change_inode h.ready hrun, hst.owned.reuse ?_, rfl⟩
    rw [hself]
    exact Inode.wrap_extents hfits.slots hfits.extents
  rw [bind_eq_ok] at hrun
  obtain ⟨cs₁, hfree, hrun⟩ := hrun
  rw [(h.owned.area x).extentSectors_eq h.ready] at hfree
  have hst₁ := hst.stage.free h.ready (fun s hs => (h.owned.area x s hs).2) hfree
  have hst₂ := hst₁.change_inode h.ready hrun
  rw [zero_fits.wrap_eq] at hst₂
  have hclear := hst.owned.clear x
  rw [blocksOf, hself] at hclear
  exact ⟨_, hst₂, hclear, rfl⟩

theorem Picked.stage (h : Sound f) (ha : Picked f oldDir newDir a)
    (hrun : renameStage f newDir a name = .ok p) :
    ∃ v, Stage f p.1 v ∧ Owned f.geo v ∧ ∀ s, f.view.bit s = true →
      s ∉ f.view.blocksOf oldDir → s ∉ f.view.blocksOf newDir → v.data s = f.view.data s := by
  obtain ⟨cs₁, cs₂, q, hrun₁, hrun₂, hq, hrun₃⟩ := renameStage_ok hrun
  have hnil : Untouched f oldDir newDir [] f.view :=
    ⟨Stage.nil h.ready, rfl, rfl, fun _ _ _ => rfl⟩
  obtain ⟨v₁, hv₁⟩ := hnil.change h (.inl ha.source) hrun₁
  obtain ⟨v₂, hv₂⟩ : ∃ v₂, Untouched f oldDir newDir cs₂ v₂ := by
    cases hrep : a.replaced with
    | none =>
      rw [hrep, Except.ok.injEq] at hrun₂
      exact ⟨v₁, hrun₂ ▸ hv₁⟩
    | some r =>
      obtain ⟨x, i, s, off⟩ := r
      rw [hrep] at hrun₂
      exact hv₁.change h (.inr (ha.replaced x i s off hrep).2.2) hrun₂
  obtain ⟨v₃, hv₃⟩ := hv₂.tail h ha name
  obtain ⟨v, hst⟩ : ∃ v, Staged f oldDir newDir q.1 v := by
    split_ifs at hq
    · cases hq
      exact ⟨v₃, hv₃.staged h⟩
    · exact hv₃.sector h ha hq
  cases hrep : a.replaced with
  | none =>
    rw [hrep, Except.ok.injEq] at hrun₃
    exact ⟨v, hrun₃ ▸ hst.stage, hst.owned, hst.data⟩
  | some r =>
  obtain ⟨x, i, s, off⟩ := r
  obtain ⟨rfl, hfile, -⟩ := ha.replaced x i s off hrep
  have hx : x ≠ newDir := by
    rintro rfl
    exact hfile ha.dir
  rw [hrep] at hrun₃
  obtain ⟨v', hst', hown, hdata⟩ := hst.replaced h hx hrun₃
  exact ⟨v', hst', hown, hdata ▸ hst.data⟩

/-! ## The call -/

/-- A rename that succeeds keeps the owners of sectors and the data of all inodes
apart from the two directories. -/
theorem Sound.of_rename {g : Fs} (h : Sound f) {newName : CString} {replace : Bool}
    (hrun : rename f oldDir oldName newDir newName replace = (0, g)) :
    Sound g ∧ ∀ j, j ≠ oldDir → j ≠ newDir → ∀ s ∈ f.view.blocksOf j,
      g.view.data s = f.view.data s := by
  by_cases hsame : oldDir = newDir ∧ oldName.bytes = newName.bytes
  · obtain rfl := rename_same hrun hsame
    exact ⟨h, fun _ _ _ _ _ => rfl⟩
  obtain ⟨m, n, a, p, -, -, hcheck, hstage, hcode, heff⟩ := rename_ok hrun hsame
  obtain ⟨v, hst, hown, hdata⟩ := (h.renameCheck_picked hcheck).stage h hstage
  rcases journalWriteTransaction_eq h.ready hst.targets with ⟨hfit, htx⟩ | ⟨-, htx⟩
  · obtain ⟨hready, hgeo, hview⟩ := hst.tx h.ready hfit
    rw [htx] at heff
    obtain ⟨hg, hgeo', hview'⟩ := heff.spec hready
    rw [after_nil, hview] at hview'
    rw [hgeo] at hgeo'
    refine ⟨⟨hg, ?_⟩, fun j hold hnew s hs => ?_⟩
    · rw [hgeo', hview']
      exact hown
    rw [hview']
    exact hdata s (h.owned.covered j s hs) (fun ht => hold (h.owned.apart j oldDir s hs ht))
      fun ht => hnew (h.owned.apart j newDir s hs ht)
  · simp [htx] at hcode

end RixuriOS.Rixfs
