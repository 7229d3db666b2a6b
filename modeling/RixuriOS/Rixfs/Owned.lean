import RixuriOS.Rixfs.RenameSpec
import RixuriOS.Rixfs.Resizing

/-!
# Who owns a sector

Whatever calls succeed on an image, with sensible arguments or without, every
sector of an inode lies in the data area, is marked as allocated, and belongs to
no other inode. `Owned` says this of every slot of the inode table, in use or not,
and nothing else: directories may hold any bytes, sizes need not match sectors, and
entries may name anything.
-/

namespace RixuriOS.Rixfs

open ByteCodec CrashStore ExtentList LinkGraph ExceptLoop List View

variable {s : Nat} {i : Inode}

/-- The sectors of the inodes are theirs alone. -/
structure Owned (g : Geo) (v : View) : Prop where
  area : ∀ k, InArea g (v.ino k).extents
  nodup : ∀ k, (v.blocksOf k).Nodup
  apart : ∀ j k s, s ∈ v.blocksOf j → s ∈ v.blocksOf k → j = k
  covered : Covered v

theorem Safe.owned {g : Geo} {v : View} (h : Safe g v) : Owned g v := by
  refine ⟨fun k s hs => (h.core.shape k (h.core.live_of_block hs)).area s hs, fun k => ?_,
    h.core.apart, h.covered⟩
  by_cases hk : v.Live k
  · exact (h.core.shape k hk).nodup
  · rw [blocksOf, h.core.dead k hk]
    simp [Inode.zero, blocks]

section

variable {g : Geo} {v v' : View} {k : Nat}

section

variable (h : Owned g v)

include h

theorem Owned.not_mem_of_free (hs : Free g v s) : s ∉ v.blocksOf k := by
  intro hk
  have hbit := h.covered k s hk
  rw [hs.clear] at hbit
  cases hbit

/-- The sectors of one inode change: what it has afterwards it had before, or it was
free, and no bit of another inode is cleared. -/
theorem Owned.change (hother : ∀ j, j ≠ k → v'.ino j = v.ino j) (hnd : (v'.blocksOf k).Nodup)
    (hfrom : ∀ s ∈ v'.blocksOf k, s ∈ v.blocksOf k ∨ Free g v s)
    (hself : ∀ s ∈ v'.blocksOf k, v'.bit s = true)
    (hbit : ∀ s, s ∉ v.blocksOf k → v.bit s = true → v'.bit s = true) : Owned g v' := by
  have hblocks : ∀ j, j ≠ k → v'.blocksOf j = v.blocksOf j := fun j hj => by
    rw [blocksOf, blocksOf, hother j hj]
  have hapart : ∀ j s, j ≠ k → s ∈ v.blocksOf j → s ∉ v'.blocksOf k := by
    intro j s hj hs hk
    rcases hfrom s hk with hold | hfree
    · exact hj (h.apart j k s hs hold)
    · exact h.not_mem_of_free hfree hs
  refine ⟨fun j s hs => ?_, fun j => ?_, fun i j s hi hj => ?_, fun j s hs => ?_⟩
  · by_cases hj : j = k
    · rw [hj] at hs
      rcases hfrom s hs with hold | hfree
      · exact h.area k s hold
      · exact ⟨hfree.low, hfree.high⟩
    · rw [hother j hj] at hs
      exact h.area j s hs
  · by_cases hj : j = k
    · rw [hj]
      exact hnd
    · rw [hblocks j hj]
      exact h.nodup j
  · by_cases hik : i = k <;> by_cases hjk : j = k
    · rw [hik, hjk]
    · rw [hik] at hi
      rw [hblocks j hjk] at hj
      exact absurd hi (hapart j s hjk hj)
    · rw [hjk] at hj
      rw [hblocks i hik] at hi
      exact absurd hj (hapart i s hik hi)
    rw [hblocks i hik] at hi
    rw [hblocks j hjk] at hj
    exact h.apart i j s hi hj
  by_cases hj : j = k
  · rw [hj] at hs
    exact hself s hs
  · rw [hblocks j hj] at hs
    exact hbit s (fun hk => hj (h.apart j k s hs hk)) (h.covered j s hs)

theorem Owned.of_tables (hino : v'.ino = v.ino) (hbit : v'.bit = v.bit) : Owned g v' := by
  have hblocks : ∀ k, v'.blocksOf k = v.blocksOf k := fun k => by
    rw [blocksOf, blocksOf, hino]
  refine ⟨fun k => hino ▸ h.area k, fun k => hblocks k ▸ h.nodup k, fun j k s hj hk => ?_,
    fun k s hs => ?_⟩
  · rw [hblocks] at hj hk
    exact h.apart j k s hj hk
  rw [hblocks] at hs
  rw [hbit]
  exact h.covered k s hs

theorem Owned.setIno (hnd : (blocks i.extents).Nodup)
    (hsub : ∀ s ∈ blocks i.extents, s ∈ v.blocksOf k) : Owned g (v.setIno k i) := by
  refine h.change (k := k) (fun j hj => setIno_ino_ne _ _ _ hj) ?_ (fun s hs => ?_)
    (fun s hs => ?_) fun s _ hs => hs
  · rw [blocksOf_setIno_self]
    exact hnd
  · rw [blocksOf_setIno_self] at hs
    exact .inl (hsub s hs)
  · rw [blocksOf_setIno_self] at hs
    exact h.covered k s (hsub s hs)

theorem Owned.reuse (hext : i.extents = (v.ino k).extents) : Owned g (v.setIno k i) := by
  refine h.setIno ?_ fun s hs => ?_
  · rw [hext]
    exact h.nodup k
  · rwa [hext] at hs

theorem Owned.take {ns : List Nat} (hfree : ∀ s ∈ ns, Free g v s) (hnd : (blocks i.extents).Nodup)
    (hfrom : ∀ s ∈ blocks i.extents, s ∈ ns ∨ s ∈ v.blocksOf k) :
    Owned g ((v.mark true ns).setIno k i) := by
  refine h.change (k := k) (fun j hj => setIno_ino_ne _ _ _ hj) ?_ (fun s hs => ?_)
    (fun s hs => ?_) fun s _ hs => ?_
  · rw [blocksOf_setIno_self]
    exact hnd
  · rw [blocksOf_setIno_self] at hs
    exact (hfrom s hs).elim (fun hs => .inr (hfree s hs)) .inl
  · rw [blocksOf_setIno_self] at hs
    rw [setIno_bit, mark_bit]
    split_ifs with hmem
    · rfl
    · exact h.covered k s ((hfrom s hs).resolve_left hmem)
  rw [setIno_bit, mark_bit]
  split_ifs
  · rfl
  · exact hs

/-- The inode `k` keeps its sectors and gets free ones. -/
theorem Owned.gain {ns : List Nat} (hns : ns.Nodup) (hfree : ∀ s ∈ ns, Free g v s)
    (hperm : (blocks i.extents).Perm (ns ++ v.blocksOf k)) :
    Owned g ((v.mark true ns).setIno k i) := by
  refine h.take hfree ?_ fun s hs => mem_append.1 (hperm.mem_iff.1 hs)
  rw [hperm.nodup_iff, nodup_append']
  exact ⟨hns, h.nodup k, fun s hs => h.not_mem_of_free (hfree s hs)⟩

theorem Owned.release {fs : List Nat} (hperm : (v.blocksOf k).Perm (fs ++ blocks i.extents)) :
    Owned g ((v.mark false fs).setIno k i) := by
  have hnd := h.nodup k
  rw [hperm.nodup_iff, nodup_append'] at hnd
  refine h.change (k := k) (fun j hj => setIno_ino_ne _ _ _ hj) ?_ (fun s hs => ?_)
    (fun s hs => ?_) fun s hk hs => ?_
  · rw [blocksOf_setIno_self]
    exact hnd.2.1
  · rw [blocksOf_setIno_self] at hs
    exact .inl (hperm.mem_iff.2 (mem_append_right _ hs))
  · rw [blocksOf_setIno_self] at hs
    rw [setIno_bit, mark_bit, if_neg fun hmem => hnd.2.2 hmem hs]
    exact h.covered k s (hperm.mem_iff.2 (mem_append_right _ hs))
  rw [setIno_bit, mark_bit, if_neg fun hmem => hk (hperm.mem_iff.2 (mem_append_left _ hmem))]
  exact hs

end

end

/-- An image on which every sector has at most one owner. -/
structure Sound (f : Fs) : Prop where
  ready : Ready f
  owned : Owned f.geo f.view

variable {f g : Fs} {k : Nat}

theorem Sound.after (h : Sound f) {es : List Effect} (he : Effects f es g)
    (ho : Owned f.geo (f.view.after es)) : Sound g := by
  obtain ⟨hg, hgeo, hview⟩ := he.spec h.ready
  refine ⟨hg, ?_⟩
  rw [hgeo, hview]
  exact ho

/-! ## Writing an inode -/

theorem Inode.wrap_extents (hlen : i.extents.length = 4) (hfit : ExtentsFit i.extents) :
    i.wrap.extents = i.extents := by
  have hfits : ({ Inode.zero with extents := i.extents } : Inode).Fits := by
    obtain ⟨h1, h2, h3, h4, h5, h6, h7, -, -, h10, h11, h12, h13, h14, h15⟩ := zero_fits
    exact ⟨h1, h2, h3, h4, h5, h6, h7, hlen, hfit, h10, h11, h12, h13, h14, h15⟩
  have hwrap := congrArg Inode.extents hfits.wrap_eq
  exact hwrap

theorem Ready.writeInode_done (h : Ready f) (hrun : writeInode f k i = (0, g)) :
    Does f (.ino k i) g := by
  by_cases hk : 1 ≤ k ∧ k ≤ f.super.inodeCount
  · obtain ⟨g', hrun', hdo⟩ := h.writeInode_ok hk.1 hk.2 i
    rw [hrun] at hrun'
    rwa [(Prod.mk.inj hrun').2]
  have hloc : inodeLocation f k = .error (-1) := by
    rw [h.inodeLocation_eq, if_pos (by omega)]
  rw [writeInode, hloc, Prod.mk.injEq] at hrun
  cases hrun.1

section

variable (h : Sound f) (hrun : writeInode f k i = (0, g))

include h hrun

theorem Sound.of_writeInode (hlen : i.extents.length = 4) (hfit : ExtentsFit i.extents)
    (hnd : (blocks i.extents).Nodup) (hsub : ∀ s ∈ blocks i.extents, s ∈ f.view.blocksOf k) :
    Sound g := by
  have hext := Inode.wrap_extents hlen hfit
  refine h.after (h.ready.writeInode_done hrun).effects (h.owned.setIno ?_ ?_)
  · rw [hext]
    exact hnd
  · rw [hext]
    exact hsub

theorem Sound.of_writeEmpty (hext : i.extents = Inode.zero.extents) : Sound g := by
  have hnil : blocks i.extents = [] := by
    rw [hext]
    simp [Inode.zero, blocks]
  refine h.of_writeInode hrun (hext ▸ zero_fits.slots) (hext ▸ zero_fits.extents) ?_ ?_
  · rw [hnil]
    exact .nil
  · rw [hnil]
    simp

theorem Sound.of_rewrite (hext : i.extents = (f.view.ino k).extents) : Sound g := by
  have hfits := h.ready.ino_fits k
  refine h.after (h.ready.writeInode_done hrun).effects (h.owned.reuse ?_)
  rw [Inode.wrap_extents (hext ▸ hfits.slots) (hext ▸ hfits.extents), hext]

end

/-! ## Adding an entry -/

section

variable (h : Ready f) {dir : Inode} (harea : InArea f.geo dir.extents)

include h harea

theorem Ready.dirSector_mem {pos : Nat} (hs : dirSector dir.extents pos = some s) :
    s ∈ blocks dir.extents := by
  rw [dirSector_eq_locate (harea.lt_u64 h)] at hs
  exact locate_mem hs

theorem Ready.findUnused_mem {n pos : Nat} (hs : findUnused f dir.extents n pos = .ok (some s)) :
    s ∈ blocks dir.extents := by
  induction n generalizing pos with
  | zero => simp [findUnused] at hs
  | succ n ih =>
    rw [findUnused] at hs
    cases hsec : dirSector dir.extents pos with
    | none => simp [hsec] at hs
    | some t =>
    have ht := h.dirSector_mem harea hsec
    simp only [hsec, rd_data (harea t ht).1 (harea t ht).2] at hs
    split_ifs at hs
    · cases hs
      exact ht
    · exact ih hs

end

/-- The outcome of `dir_append` for an inode that may hold anything: the entry lies in
a sector of the inode, or in a free one that it gets. -/
inductive Placed (f : Fs) (dir : Inode) : Except Int Inode × Fs → Prop where
  | kept {s n : Nat} {b : Buf} {g : Fs} (he : Effects f [.data s b] g) :
      Placed f dir (.ok (dir.resize dir.extents n), g)
  | added {s n : Nat} {l : List Extent} {b : Buf} {g : Fs} (hs : Free f.geo f.view s)
      (hl : appendExtent dir.extents s = some l) (he : Effects f [.bit s true, .data s b] g) :
      Placed f dir (.ok (dir.resize l n), g)
  | failed {c : Int} {g : Fs} : Placed f dir (.error c, g)

section

variable (h : Ready f) {dir : Inode}

include h

theorem Ready.dirReuse_placed (hs : f.geo.ds ≤ s ∧ s < f.geo.tot) (grows : Bool) (ino type : Nat)
    (name : List Byte) : Placed f dir (dirReuse f dir s grows ino type name) := by
  obtain ⟨g, hfill, hdo⟩ := h.dirFill_ok hs.1 hs.2 (f.view.data s) ino type name
  simp only [dirReuse, rd_data hs.1 hs.2, hfill, ne_eq, not_true_eq_false, if_false]
  cases grows with
  | true => exact .kept hdo.effects
  | false => exact .kept (n := dir.size) hdo.effects

theorem Ready.dirExtend_placed (ino type : Nat) (name : List Byte) :
    Placed f dir (dirExtend f dir ino type name) := by
  have htakes := h.allocSecTop_takes dir.extents
  rw [dirExtend]
  generalize allocSecTop f dir.extents = r at htakes
  cases htakes with
  | error heff => exact .failed
  | @ok s f₁ hs heff =>
  obtain ⟨h₁, hgeo, -⟩ := heff.spec h
  cases happ : appendExtent dir.extents s with
  | none =>
    simp only [happ]
    exact .failed
  | some l =>
    obtain ⟨g, hfill, hdo⟩ := h₁.dirFill_ok (s := s) (by rw [hgeo]; exact hs.low)
      (by rw [hgeo]; exact hs.high) zeroBuf ino type name
    simp only [happ, hfill]
    exact .added hs happ (heff.append hdo.effects)

variable (harea : InArea f.geo dir.extents)

include harea

theorem Ready.dirGrow_placed (ino type : Nat) (name : List Byte) :
    Placed f dir (dirGrow f dir ino type name) := by
  rw [dirGrow]
  cases hfind : findUnused f dir.extents (dir.size / f.dev.sectorSize) 0 with
  | error c => exact .failed
  | ok r =>
  cases r with
  | some s => exact h.dirReuse_placed (harea s (h.findUnused_mem harea hfind)) false ino type name
  | none =>
  simp only []
  cases hsec : dirSector dir.extents (dir.size / f.dev.sectorSize) with
  | some s => exact h.dirReuse_placed (harea s (h.dirSector_mem harea hsec)) _ ino type name
  | none => exact h.dirExtend_placed ino type name

theorem Ready.dirAppend_placed (ino type : Nat) (name : List Byte) :
    Placed f dir (dirAppend f dir ino type name) := by
  rw [dirAppend]
  simp only []
  split_ifs with hbad hz
  · exact .failed
  · exact h.dirGrow_placed harea ino type name
  cases hsec : dirSector dir.extents (dir.size / f.dev.sectorSize - 1) with
  | none => exact .failed
  | some s =>
  have hs := harea _ (h.dirSector_mem harea hsec)
  simp only [rd_data hs.1 hs.2]
  cases dirTailFit (f.view.data s) f.dev.sectorSize ino type name with
  | corrupt => exact .failed
  | full => exact h.dirGrow_placed harea ino type name
  | staged b =>
  obtain ⟨g, hwrite, hdo⟩ := h.journalWrite_ok hs.1 hs.2 b
  simp only [hwrite, ne_eq, not_true_eq_false, if_false]
  exact .kept (n := dir.size) hdo.effects

end

/-- What entering a name leaves of the inodes: the directory keeps its sectors. -/
structure EnteredIn (f : Fs) (d : Nat) (g : Fs) : Prop where
  sound : Sound g
  other : ∀ j, j ≠ d → g.view.ino j = f.view.ino j
  keeps : ∀ s ∈ f.view.blocksOf d, s ∈ g.view.blocksOf d

theorem Sound.of_enter (h : Sound f) {d ino type : Nat} {name : List Byte}
    (hmade : ¬(enter f d ino type name).2.1 = false) (hcode : (enter f d ino type name).1 = 0) :
    EnteredIn f d (enter f d ino type name).2.2 := by
  generalize hrun : enter f d ino type name = r at hmade hcode
  obtain ⟨c, made, g⟩ := r
  simp only [Bool.not_eq_false] at hmade hcode
  subst hmade hcode
  simp only
  by_cases hk : 1 ≤ d ∧ d ≤ f.super.inodeCount
  swap
  · simp [enter, h.ready.readInode_error hk] at hrun
  have hfits := h.ready.ino_fits d
  have happ := h.ready.dirAppend_placed (h.owned.area d) ino type name
  rw [enter, h.ready.readInode_ok hk.1 hk.2] at hrun
  simp only [] at hrun
  generalize dirAppend f (f.view.ino d) ino type name = r at happ hrun
  cases happ with
  | failed => simp at hrun
  | @kept s n b a he =>
    obtain ⟨ha, -, hview⟩ := he.spec h.ready
    simp only [Prod.mk.injEq, true_and] at hrun
    have hdo := ha.writeInode_done (Prod.ext hrun.1 hrun.2)
    obtain ⟨-, -, hview'⟩ := hdo.spec ha
    have hext : ((f.view.ino d).resize (f.view.ino d).extents n).wrap.extents =
      (f.view.ino d).extents := Inode.wrap_extents hfits.slots hfits.extents
    rw [hview] at hview'
    refine ⟨h.after (he.append hdo.effects) ?_, fun j hj => ?_, fun t ht => ?_⟩
    · have hdata : Owned f.geo (f.view.setData s b) := h.owned.of_tables rfl rfl
      exact hdata.reuse hext
    · rw [hview']
      exact setIno_ino_ne _ _ _ hj
    rw [hview']
    refine (blocksOf_setIno_self (v := f.view.after [.data s b])).symm ▸ ?_
    rw [hext]
    exact ht
  | @added s n l b a hs hl he =>
    obtain ⟨ha, -, hview⟩ := he.spec h.ready
    simp only [Prod.mk.injEq, true_and] at hrun
    have hdo := ha.writeInode_done (Prod.ext hrun.1 hrun.2)
    obtain ⟨-, -, hview'⟩ := hdo.spec ha
    obtain ⟨hperm, hlen⟩ := appendExtent_perm h.ready.tot_lt hs.high
      (fun t ht => (h.owned.area d t ht).2) hl
    have hext : ((f.view.ino d).resize l n).wrap.extents = l :=
      Inode.wrap_extents (hlen.trans hfits.slots)
        (appendExtent_fit (lt_trans hs.high h.ready.tot_lt) hfits.extents hl)
    rw [hview] at hview'
    refine ⟨h.after (he.append hdo.effects) ?_, fun j hj => ?_, fun t ht => ?_⟩
    · have hgain := h.owned.gain (k := d) (i := ((f.view.ino d).resize l n).wrap)
        (nodup_singleton s) (by simpa using hs) (by rw [hext]; exact hperm)
      rw [← apply_bit_true] at hgain
      exact hgain.of_tables rfl rfl
    · rw [hview']
      exact setIno_ino_ne _ _ _ hj
    rw [hview']
    refine (blocksOf_setIno_self (v := f.view.after [.bit s true, .data s b])).symm ▸ ?_
    rw [hext]
    exact hperm.mem_iff.2 (mem_cons_of_mem _ ht)

end RixuriOS.Rixfs
