import RixuriOS.Rixfs.Core
import RixuriOS.Rixfs.Operations

/-!
# Entering a name

The operations that make an entry share three steps: read the directory, append
the entry, write the directory back. `enter_spec` says that this either adds the
entry and nothing else, or changes nothing, and that `Core` holds after each of
its writes.
-/

namespace RixuriOS.Rixfs

open ByteCodec CrashStore ExtentList LinkGraph List View

variable {s k : Nat} {b : Buf}

/-- A property holds before a list of writes and after each of them. -/
def Always (P : View → Prop) : View → List Effect → Prop
  | v, [] => P v
  | v, e :: es => P v ∧ Always P (v.apply e) es

section

variable {P Q : View → Prop} {v : View} {es es' : List Effect}

theorem Always.last (h : Always P v es) : P (v.after es) := by
  induction es generalizing v with
  | nil => exact h
  | cons e es ih => exact ih h.2

theorem Always.append (h : Always P v es) (h' : Always P (v.after es) es') :
    Always P v (es ++ es') := by
  induction es generalizing v with
  | nil => exact h'
  | cons e es ih => exact ⟨h.1, ih h.2 h'⟩

theorem Always.mono (hPQ : ∀ w, P w → Q w) (h : Always P v es) : Always Q v es := by
  induction es generalizing v with
  | nil => exact hPQ _ h
  | cons e es ih => exact ⟨hPQ _ h.1, ih h.2⟩

end

def Covered (v : View) : Prop := ∀ k, ∀ s ∈ v.blocksOf k, v.bit s = true

/-- The core, with no sector in use that is marked as free. -/
structure Safe (g : Geo) (v : View) : Prop where
  core : Core g v
  covered : Covered v

variable {i : Inode} {l : List Extent} {g : Geo}

section

variable {v : View}

section

variable (h : Safe g v)

include h

theorem Safe.not_mem_of_free (hs : Free g v s) (k : Nat) : s ∉ v.blocksOf k := by
  intro hk
  have := h.covered k s hk
  rw [hs.clear] at this
  cases this

theorem Safe.setBit_true (s : Nat) : Safe g (v.setBit s true) := by
  refine ⟨h.core.setBit s true, fun k t ht => ?_⟩
  by_cases hts : t = s
  · rw [hts, setBit_bit_self]
  · rw [setBit_bit_ne _ _ _ hts]
    exact h.covered k t ht

theorem Safe.setBit_false (hs : ∀ k, s ∉ v.blocksOf k) : Safe g (v.setBit s false) := by
  refine ⟨h.core.setBit s false, fun k t ht => ?_⟩
  have hts : t ≠ s := by
    rintro rfl
    exact hs k ht
  rw [setBit_bit_ne _ _ _ hts]
  exact h.covered k t ht

theorem Safe.setIno (hcore : Core g (v.setIno k i))
    (hi : ∀ s ∈ blocks i.extents, v.bit s = true) : Safe g (v.setIno k i) := by
  refine ⟨hcore, fun j s hs => ?_⟩
  by_cases hjk : j = k
  · rw [hjk, blocksOf_setIno_self] at hs
    exact hi s hs
  · rw [blocksOf_setIno_ne hjk] at hs
    exact h.covered j s hs

theorem Safe.setData (hcore : Core g (v.setData s b)) : Safe g (v.setData s b) := ⟨hcore, h.covered⟩

theorem Safe.always_neutral {es : List Effect} (hes : Neutral g v es) : Always (Safe g) v es := by
  rcases hes with rfl | ⟨s, hs, rfl⟩
  · exact h
  · exact ⟨h, h.setBit_true s, (h.setBit_true s).setBit_false (h.not_mem_of_free hs)⟩

end

end

theorem View.setIno_of_eq {v : View} (h : v.ino k = i) : v.setIno k i = v :=
  View.ext (by rw [← h]; exact Function.update_eq_self k v.ino) rfl rfl

@[simp] theorem View.apply_bit (v : View) (s : Nat) (c : Bool) :
    v.apply (.bit s c) = v.setBit s c := rfl

@[simp] theorem View.apply_data (v : View) (s : Nat) (b : Buf) :
    v.apply (.data s b) = v.setData s b := rfl

@[simp] theorem View.apply_raw (v : View) (s : Nat) (b : Buf) :
    v.apply (.raw s b) = v.setData s b := rfl

theorem View.apply_ino (v : View) (k : Nat) (hi : i.Fits) : v.apply (.ino k i) = v.setIno k i := by
  rw [View.apply, hi.wrap_eq]

/-! ## Resizing an inode -/

@[simps -fullyApplied extents size inode links]
def Inode.resize (i : Inode) (l : List Extent) (n : Nat) : Inode :=
  { i with extents := l, size := n }

@[simp] theorem Inode.resize_fmt (i : Inode) (l : List Extent) (n : Nat) :
    (i.resize l n).fmt = i.fmt := rfl

theorem Inode.Fits.resize (h : i.Fits) (hl : l.length = i.extents.length) (hfit : ExtentsFit l)
    {n : Nat} (hn : n < 2 ^ 64) : (i.resize l n).Fits where
  inode := h.inode
  mode := h.mode
  uid := h.uid
  gid := h.gid
  flags := h.flags
  size := hn
  generation := h.generation
  slots := hl.trans h.slots
  extents := hfit
  links := h.links
  aclUser := h.aclUser
  aclUserPerm := h.aclUserPerm
  aclGroup := h.aclGroup
  aclGroupPerm := h.aclGroupPerm
  aclMask := h.aclMask

theorem Shape.resize (h : Shape g k i) (hl : l.length = i.extents.length) (hfit : ExtentsFit l)
    {n : Nat} (hn : n < 2 ^ 64) (harea : InArea g l) (hnd : (blocks l).Nodup)
    (hsize : i.fmt ≠ ifdir → total l = (n + (g.ss - 1)) / g.ss ∧ n ≤ 2 ^ 63) :
    Shape g k (i.resize l n) :=
  ⟨h.low, h.high, h.self, h.fits.resize hl hfit hn, h.fmt, harea, hnd, hsize⟩

theorem total_le_area (harea : InArea g l) (hnd : (blocks l).Nodup) : total l ≤ g.tot - g.ds := by
  have hsub : blocks l ⊆ range' g.ds (g.tot - g.ds) := by
    intro s hs
    have := harea s hs
    exact mem_range'_1.2 ⟨this.1, by omega⟩
  have hlen := (subperm_of_subset hnd hsub).length_le
  rwa [length_blocks, length_range'] at hlen

/-! ## The entry -/

/-- The view after the entry `e` has been added to the directory `d`. -/
structure Entered (g : Geo) (v : View) (d : Nat) (e : Entry) (v' : View) : Prop where
  listing : (v'.listing g.ss d).Perm (e :: v.listing g.ss d)
  dir : ∃ l n, v'.ino d = (v.ino d).resize l n
  otherIno : ∀ j, j ≠ d → v'.ino j = v.ino j
  otherListing : ∀ j, j ≠ d → v'.listing g.ss j = v.listing g.ss j
  blocks : ∃ ns, (v'.blocksOf d).Perm (ns ++ v.blocksOf d) ∧ (∀ s ∈ ns, Free g v s) ∧
    ∀ s, v'.bit s = (v.bit s || decide (s ∈ ns))

theorem dirSectors_of_full (hfull : i.size / g.ss = total i.extents) :
    dirSectors g.ss i = blocks i.extents := by
  rw [dirSectors, hfull, ← length_blocks, take_length]

section

variable {v : View} (h : Safe g v) {d : Nat}

include h

theorem Safe.dir_unique (hs : s ∈ v.blocksOf d) (hk : s ∈ dirSectors g.ss (v.ino k)) : k = d :=
  h.core.apart k d s (mem_blocksOf_of_dirSectors hk) hs

variable (hd : (v.ino d).fmt = ifdir) {e : Entry} (he : v.Valid e)

include hd he

theorem Safe.enter_inside (hs : s ∈ dirSectors g.ss (v.ino d))
    (hb : AddsEntry g.ss e (v.data s) b) :
    Always (Safe g) v [.data s b, .ino d (v.ino d)] ∧
      Entered g v d e (v.after [.data s b, .ino d (v.ino d)]) := by
  have hsd := mem_blocksOf_of_dirSectors hs
  have hshape := h.core.shape d (h.core.live_of_dir hd)
  have hsame : (v.setData s b).apply (.ino d (v.ino d)) = v.setData s b := by
    rw [View.apply_ino _ _ hshape.fits]
    exact View.setIno_of_eq rfl
  have hcore : Core g (v.setData s b) := by
    refine h.core.setData fun k hk hks => ⟨hb.chained, fun x hx => ?_⟩
    rw [h.dir_unique hsd hks] at hk hks
    rw [hb.entries, mem_append, mem_singleton] at hx
    rcases hx with hx | rfl
    · exact h.core.valid d x (mem_listing.2 ⟨hk, s, hks, hx⟩)
    · exact he
  have hperm : (entriesOf g.ss b).Perm (e :: entriesOf g.ss (v.data s)) := by
    rw [hb.entries]
    exact perm_append_singleton _ _
  have hsafe : Safe g (v.setData s b) := h.setData hcore
  simp only [Always, after_cons, after_nil, View.apply_data, hsame]
  exact ⟨⟨h, hsafe, hsafe⟩, listing_setData_add hshape.nodup hd hs hperm, ⟨_, _, rfl⟩,
    fun _ _ => rfl, fun j hj => listing_setData (h.core.block_ne hsd hj), [], .refl _, by simp,
    by simp⟩

theorem Safe.enter_spare (h0 : (v.ino d).size = 0) (hs : blocks (v.ino d).extents = [s])
    (hb : OnlyEntry g.ss e b) (hss : 0 < g.ss) (hlt : g.ss < 2 ^ 64)
    (hi : i = (v.ino d).resize (v.ino d).extents g.ss) :
    Always (Safe g) v [.data s b, .ino d i] ∧
      Entered g v d e (v.after [.data s b, .ino d i]) := by
  have hsd : s ∈ v.blocksOf d := by
    rw [blocksOf, hs]
    simp
  have hshape := h.core.shape d (h.core.live_of_dir hd)
  have hnew : Shape g d i := hi ▸
    hshape.resize rfl hshape.fits.extents hlt hshape.area hshape.nodup fun hne => absurd hd hne
  have hfmt : i.fmt = (v.ino d).fmt := by rw [hi, Inode.resize_fmt]
  have hold : dirSectors g.ss (v.ino d) = [] := by simp [dirSectors, h0]
  have hsec : dirSectors g.ss i = [s] := by
    rw [hi, dirSectors, Inode.resize_size, Nat.div_self hss]
    simp [hs]
  have hcore₁ : Core g (v.setData s b) := by
    refine h.core.setData fun k _ hks => ?_
    rw [h.dir_unique hsd hks, hold] at hks
    cases hks
  have hentries : (v.setData s b).entries g.ss i = [e] := by
    rw [View.entries, hsec]
    simpa using hb.entries
  have hdir : DirOk g (v.setData s b) i := by
    refine ⟨hnew.area, ?_, .inl ?_, ?_⟩
    · rw [hi, Inode.resize_size, Nat.div_self hss, Nat.one_mul]
    · rw [hi, Inode.resize_size, Inode.resize_extents, Nat.div_self hss, ← length_blocks, hs]
      rfl
    · rw [hsec]
      simpa using hb.chained
  have hcore₂ : Core g ((v.setData s b).setIno d i) := by
    refine hcore₁.setIno hnew (fun _ => hfmt) (fun j hj t ht => ?_) fun _ => ⟨hdir, ?_⟩
    · rw [hi] at ht
      exact h.core.block_ne ht hj
    · rw [hentries]
      simpa using ⟨he.fits, he.live, he.type⟩
  have hsafe₁ : Safe g (v.setData s b) := h.setData hcore₁
  have hsafe₂ := hsafe₁.setIno hcore₂ fun t ht => by
    rw [hi] at ht
    exact h.covered d t ht
  simp only [Always, after_cons, after_nil, View.apply_data, View.apply_ino _ _ hnew.fits]
  refine ⟨⟨h, hsafe₁, hsafe₂⟩, ?_, ⟨(v.ino d).extents, g.ss, ?_⟩, fun j hj => ?_, fun j hj => ?_,
    [], ?_, by simp, by simp⟩
  · rw [listing_setIno_self, hfmt, if_pos hd, hentries, View.listing, if_pos hd, View.entries, hold]
    rfl
  · rw [setIno_ino_self, hi]
  · rw [setIno_ino_ne _ _ _ hj, setData_ino]
  · rw [listing_setIno_ne hj, listing_setData (h.core.block_ne hsd hj)]
  · rw [blocksOf_setIno_self, hi]
    rfl

theorem Safe.enter_extend (hfull : (v.ino d).size / g.ss = total (v.ino d).extents)
    (hs : Free g v s) (hl : appendExtent (v.ino d).extents s = some l) (hb : OnlyEntry g.ss e b)
    (htot : g.tot < 2 ^ 64) (hpos : 0 < g.ss) (hds : 0 < g.ds) (hbytes : g.tot * g.ss ≤ 2 ^ 64)
    (hi : i = (v.ino d).resize l ((v.ino d).size + g.ss)) :
    i.size < 2 ^ 64 ∧ Always (Safe g) v [.bit s true, .data s b, .ino d i] ∧
      Entered g v d e (v.after [.bit s true, .data s b, .ino d i]) := by
  have hshape := h.core.shape d (h.core.live_of_dir hd)
  have hok := h.core.dir d hd
  have hfresh := h.not_mem_of_free hs
  obtain ⟨hperm, hlen⟩ := appendExtent_perm htot hs.high (fun t ht => (hshape.area t ht).2) hl
  have harea : InArea g l := by
    intro t ht
    rcases mem_cons.1 (hperm.mem_iff.1 ht) with rfl | ht
    · exact ⟨hs.low, hs.high⟩
    · exact hshape.area t ht
  have hnd : (blocks l).Nodup := hperm.nodup_iff.2 (nodup_cons.2 ⟨hfresh d, hshape.nodup⟩)
  have htl : total l = total (v.ino d).extents + 1 := by
    rw [← length_blocks, ← length_blocks, hperm.length_eq, length_cons]
  have hsize : (v.ino d).size + g.ss = total l * g.ss := by
    rw [hok.size, hfull, htl, Nat.succ_mul]
  have hlt : (v.ino d).size + g.ss < 2 ^ 64 := by
    have hle := total_le_area harea hnd
    have hlow := hs.low
    have hhigh := hs.high
    calc (v.ino d).size + g.ss = total l * g.ss := hsize
      _ ≤ (g.tot - 1) * g.ss := Nat.mul_le_mul_right _ (by omega)
      _ < g.tot * g.ss := Nat.mul_lt_mul_of_pos_right (by omega) hpos
      _ ≤ 2 ^ 64 := hbytes
  have hnew : Shape g d i := hi ▸ hshape.resize hlen
    (appendExtent_fit (lt_trans hs.high htot) hshape.fits.extents hl) hlt harea hnd
    fun hne => absurd hd hne
  have hfmt : i.fmt = (v.ino d).fmt := by rw [hi, Inode.resize_fmt]
  have hdiv : i.size / g.ss = total i.extents := by
    rw [hi, Inode.resize_size, Inode.resize_extents, hsize, Nat.mul_div_cancel _ hpos]
  have hsec : (dirSectors g.ss i).Perm (s :: dirSectors g.ss (v.ino d)) := by
    rw [dirSectors_of_full hdiv, dirSectors_of_full hfull, hi]
    exact hperm
  have hsafe₁ : Safe g (v.setBit s true) := h.setBit_true s
  have hcore₂ : Core g ((v.setBit s true).setData s b) :=
    hsafe₁.core.setData fun k _ hks => absurd (mem_blocksOf_of_dirSectors hks) (hfresh k)
  have hsafe₂ := hsafe₁.setData hcore₂
  have hdata : ∀ t ∈ dirSectors g.ss (v.ino d),
      ((v.setBit s true).setData s b).data t = v.data t := by
    intro t ht
    have hts : t ≠ s := by
      rintro rfl
      exact hfresh d (mem_blocksOf_of_dirSectors ht)
    rw [setData_data_ne _ _ _ hts, setBit_data]
  have hentries : (((v.setBit s true).setData s b).entries g.ss i).Perm
      (e :: v.entries g.ss (v.ino d)) := by
    refine (hsec.flatMap_right _).trans ?_
    rw [flatMap_cons, setData_data_self, hb.entries, View.entries,
      flatMap_congr fun t ht => by rw [hdata t ht]]
    rfl
  have hdir : DirOk g ((v.setBit s true).setData s b) i := by
    refine ⟨hnew.area, ?_, .inl hdiv, fun t ht => ?_⟩
    · rw [hi, Inode.resize_size, hsize, Nat.mul_div_cancel _ hpos]
    rcases mem_cons.1 (hsec.mem_iff.1 ht) with rfl | ht
    · simpa using hb.chained
    · rw [hdata t ht]
      exact hok.chained t ht
  have hvalid : ∀ x, v.Valid x → ((v.setBit s true).setData s b).Valid x := fun x hx =>
    ⟨hx.fits, hx.live, hx.type⟩
  have hcore₃ : Core g (((v.setBit s true).setData s b).setIno d i) := by
    refine hcore₂.setIno hnew (fun _ => hfmt) (fun j hj t ht => ?_) fun _ => ⟨hdir, fun x hx => ?_⟩
    · rw [hi, Inode.resize_extents] at ht
      rcases mem_cons.1 (hperm.mem_iff.1 ht) with rfl | ht
      · exact hfresh j
      · exact h.core.block_ne ht hj
    rcases mem_cons.1 (hentries.mem_iff.1 hx) with rfl | hx
    · exact hvalid x he
    · refine hvalid x (h.core.valid d x ?_)
      rwa [View.listing, if_pos hd]
  have hsafe₃ := hsafe₂.setIno hcore₃ fun t ht => by
    rw [hi, Inode.resize_extents] at ht
    rcases mem_cons.1 (hperm.mem_iff.1 ht) with rfl | ht
    · simp
    · exact hsafe₂.covered d t ht
  refine ⟨hnew.fits.size, ?_⟩
  simp only [Always, after_cons, after_nil, View.apply_data, View.apply_bit,
    View.apply_ino _ _ hnew.fits]
  refine ⟨⟨h, hsafe₁, hsafe₂, hsafe₃⟩, ?_, ⟨l, (v.ino d).size + g.ss, ?_⟩, fun j hj => ?_,
    fun j hj => ?_, [s], ?_, by simpa using hs, fun t => ?_⟩
  · rw [listing_setIno_self, hfmt, if_pos hd, View.listing, if_pos hd]
    exact hentries
  · rw [setIno_ino_self, hi]
  · rw [setIno_ino_ne _ _ _ hj]
    rfl
  · have hj' : s ∉ (v.setBit s true).blocksOf j := hfresh j
    rw [listing_setIno_ne hj, listing_setData hj']
    rfl
  · rw [blocksOf_setIno_self, hi]
    exact hperm
  by_cases hts : t = s
  · simp [hts]
  · simp [hts]

end

theorem Ready.enter_spec {f : Fs} (h : Ready f) (hs : Safe f.geo f.view)
    (hbytes : f.geo.tot * f.geo.ss ≤ 2 ^ 64) {d : Nat} (hd : (f.view.ino d).fmt = ifdir)
    {e : Entry} (he : f.view.Valid e) :
    (∃ g es, enter f d e.ino e.type e.name = (0, true, g) ∧ Effects f es g ∧
        Always (Safe f.geo) f.view es ∧ Entered f.geo f.view d e (f.view.after es)) ∨
      ∃ g es, enter f d e.ino e.type e.name = (-1, false, g) ∧ Effects f es g ∧
        Neutral f.geo f.view es := by
  have hdir := hs.core.isDirectory hd
  have hbounds := h.ss_bounds
  have horder := h.order
  have happ := h.dirAppend_spec he.fits hdir.ok
  rw [enter, h.readInode_ok hdir.low hdir.high]
  simp only []
  generalize dirAppend f (f.view.ino d) e.ino e.type e.name = r at happ
  cases happ with
  | refused hn heff => exact .inr ⟨_, _, rfl, heff, hn⟩
  | inside hsec hadd heff =>
    obtain ⟨hg, hgeo, -⟩ := heff.spec h
    have hic : d ≤ (Fs.geo _).ic := hgeo ▸ hdir.high
    obtain ⟨k, hw, hdo⟩ := hg.writeInode_ok hdir.low hic (f.view.ino d)
    refine .inl ⟨k, _, ?_, heff.append hdo.effects, hs.enter_inside hd he hsec hadd⟩
    simp only [hw]
  | spare h0 hsec hb heff =>
    obtain ⟨hg, hgeo, -⟩ := heff.spec h
    have hic : d ≤ (Fs.geo _).ic := hgeo ▸ hdir.high
    obtain ⟨k, hw, hdo⟩ := hg.writeInode_ok hdir.low hic
      { f.view.ino d with size := u64 ((f.view.ino d).size + f.geo.ss) }
    refine .inl ⟨k, _, by simp only [hw], heff.append hdo.effects,
      hs.enter_spare hd he h0 hsec hb (by omega) (by omega) ?_⟩
    rw [h0, Nat.zero_add, u64, Nat.mod_eq_of_lt (by omega)]
    rfl
  | @extend s l b g hfull hfree hl hb heff =>
    obtain ⟨hg, hgeo, -⟩ := heff.spec h
    have hic : d ≤ (Fs.geo _).ic := hgeo ▸ hdir.high
    have hds : 0 < f.geo.ds := lt_of_le_of_lt (Nat.zero_le _) horder.2.1
    obtain ⟨hlt, hext⟩ := hs.enter_extend hd he hfull hfree hl hb h.tot_lt (by omega) hds hbytes rfl
    rw [Inode.resize_size] at hlt
    obtain ⟨k, hw, hdo⟩ := hg.writeInode_ok hdir.low hic
      ((f.view.ino d).resize l ((f.view.ino d).size + f.geo.ss))
    refine .inl ⟨k, _, ?_, heff.append hdo.effects, hext⟩
    rw [u64, Nat.mod_eq_of_lt hlt]
    exact congrArg (fun w => (w.1, true, w.2)) hw

end RixuriOS.Rixfs
