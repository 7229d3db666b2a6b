import RixuriOS.Rixfs.Removing
import RixuriOS.Rixfs.Transaction

/-!
# What a rename does

A rename takes the source entry out of its directory, takes the destination out
if it is replaced, enters the source under its new name, and drops one link of the
replaced inode, all in staged sectors. `Short v w` says that the view is a tree in
which the inode `k` lacks `w k` entries: the stages of a rename go from nothing
lacking through one or two lacking entries back to none.
-/

namespace RixuriOS.Rixfs

open ByteCodec CrashStore ExtentList LinkGraph ExceptLoop KeyedLists List View

/-! ## Trees with missing entries -/

variable {x k s : Nat} {cs' : Changes} {p : Changes × Nat} {c : Int}

/-- The tree invariant with `w k` entries missing for the inode `k`. -/
structure Short (g : Geo) (v : View) (w : Nat → Nat) : Prop where
  core : Core g v
  exact' : Exact g v
  count : ∀ k, v.Live k → k ≠ g.root →
    v.linkCount g k + w k = if (v.ino k).fmt = ifdir then 1 else (v.ino k).links
  pos : ∀ k, v.Live k → (v.ino k).fmt ≠ ifdir → 1 ≤ (v.ino k).links
  rooted : ∀ k, (v.ino k).fmt = ifdir → Rooted g v k

section

variable {g : Geo} {v v' : View} {w : Nat → Nat} {d : Nat} {e : Entry}

theorem Tree.short (h : Tree g v) : Short g v fun _ => 0 :=
  ⟨h.core, h.exact', fun k hk => (h.linked k hk).count, fun k hk => (h.linked k hk).pos, h.rooted⟩

theorem Short.tree (h : Short g v fun _ => 0) : Tree g v :=
  ⟨h.core, h.exact', fun k hk => ⟨h.count k hk, h.pos k hk⟩, h.rooted⟩

theorem Short.treeBut (h : Short g v fun k => if x = k then 1 else 0) : TreeBut g v x := by
  refine ⟨h.core, h.exact', fun k hk hkx => ⟨fun hroot => ?_, h.pos k hk⟩,
    fun k hk _ => h.rooted k hk⟩
  have hcount := h.count k hk hroot
  rwa [if_neg (Ne.symm hkx), Nat.add_zero] at hcount

theorem Short.safe (h : Short g v w) : Safe g v := by
  refine ⟨h.core, fun k s hs => ?_⟩
  have harea := (h.core.shape k (h.core.live_of_block hs)).area s hs
  exact (h.exact' s harea.1 harea.2).2 ⟨k, hs⟩

theorem Short.removed (h : Short g v w) (hr : Removed g v d e v') (hc : Core g v')
    (hd : (v.ino d).fmt = ifdir) (hfile : (v.ino e.ino).fmt ≠ ifdir) :
    Short g v' fun k => w k + if e.ino = k then 1 else 0 := by
  refine ⟨hc, fun s h1 h2 => ?_, fun k hk hroot => ?_, fun k hk => ?_, fun k hk => ?_⟩
  · simp only [blocksOf, hr.ino, hr.bit]
    exact h.exact' s h1 h2
  · rw [View.Live, hr.ino] at hk
    have hcount := h.count k hk hroot
    rw [hr.linkCount hc hd] at hcount
    rw [hr.ino, ← hcount]
    omega
  · rw [View.Live, hr.ino] at hk
    rw [hr.ino]
    exact h.pos k hk
  rw [hr.ino] at hk
  have hleaf : v.listing g.ss e.ino = [] := if_neg hfile
  refine reach_of_leaf (h.rooted k hk) hleaf hr.subset ?_
  rintro rfl
  exact hfile hk

theorem Short.entered (h : Short g v fun k => w k + if e.ino = k then 1 else 0)
    (hent : Entered g v d e v') (hc : Core g v') (hd : (v.ino d).fmt = ifdir) : Short g v' w := by
  refine ⟨hc, hent.exact' h.exact', fun k hk hroot => ?_, fun k hk => ?_, fun k hk => ?_⟩
  · have hcount := h.count k ((hent.live k).1 hk) hroot
    rw [hent.linkCount h.core hd, hent.fmt, hent.links, ← hcount]
    omega
  · rw [hent.fmt, hent.links]
    exact h.pos k ((hent.live k).1 hk)
  · rw [hent.fmt] at hk
    exact reach_mono (h.rooted k hk) hent.subset

end

/-! ## Finding the entries -/

theorem cstr_of_nonzero {l : List Byte} (h : ∀ c ∈ l, c ≠ 0) : cstr l = l :=
  takeWhile_eq_self_iff.2 fun c hc => by simpa using h c hc

variable {name : List Byte} {f g : Fs} {cs : Changes} {a : RenameArgs} {v : View}
  {newDir oldDir : Nat} {newName oldName : CString} {replace : Bool}

variable {d n : Nat} {i : Inode}

section

variable (h : Ready f) (hd : IsDirectory f.geo f.view d)

include h hd

theorem IsDirectory.findEntryLoop_eq {off : Nat} {l : List Item}
    (hr : Reads f d (f.view.ino d).size off l)
    (hl : ∀ it ∈ l, it ∈ f.view.items f.geo.ss (f.view.ino d))
    (hn : (f.view.ino d).size - off ≤ n) :
    findEntryLoop f d (f.view.ino d) name n off =
      match l.find? (Item.named name) with
      | some it => .ok (it.sec, it.pos)
      | none => .error (-8) := by
  induction n generalizing off l with
  | zero =>
    have hsize := hr.le
    cases hr with
    | done => rfl
    | item hin _ _ _ _ _ =>
      have hmin : direntMinSize = 16 := rfl
      omega
  | succ n ih =>
    rw [findEntryLoop]
    split_ifs with hend
    · cases hr with
      | done => rfl
      | item hin _ _ _ _ _ =>
        have hmin : direntMinSize = 16 := rfl
        omega
    rw [hd.readdir_eq h hr]
    cases hfind : l.find? Item.inUse with
    | none =>
      have hno : l.find? (Item.named name) = none := by
        rw [find?_eq_none] at hfind ⊢
        intro it hit hnamed
        rw [Item.named, decide_eq_true_eq] at hnamed
        exact hfind it hit (by simpa [Item.inUse] using hnamed.1)
      rw [hno]
      rfl
    | some it =>
      obtain ⟨hin, l₁, l₂, rfl, hl₁⟩ := find?_eq_some_iff_append.1 hfind
      have hmem : it ∈ l₁ ++ it :: l₂ := mem_append_right l₁ mem_cons_self
      have hok := (hr.mem hmem).1
      have hle := hr.mem hmem
      have hsize := hok.size
      have hmin : direntMinSize = 16 := rfl
      obtain ⟨-, -, hsec, -⟩ := hd.item_place h (hl it hmem)
      have hskip : l₁.find? (Item.named name) = none := by
        rw [find?_eq_none]
        intro x hx hnamed
        rw [Item.named, decide_eq_true_eq] at hnamed
        have := hl₁ x hx
        simp [Item.inUse, hnamed.1] at this
      have hss : f.dev.sectorSize = f.geo.ss := rfl
      simp only [Option.map_some, cstr_of_nonzero hok.clean, Nat.add_sub_cancel, hss, hsec,
        List.find?_append, hskip, Option.none_or]
      rw [Item.inUse, decide_eq_true_eq] at hin
      split_ifs with hname
      · rw [List.find?_cons_of_pos (by simp [Item.named, hname, hin])]
      · rw [List.find?_cons_of_neg (by simp [Item.named, hname])]
        exact ih hr.tail (fun x hx => hl x (by simp [hx])) (by omega)

theorem IsDirectory.renameFindEntry_eq (name : CString) :
    renameFindEntry f d name =
      match (f.view.items f.geo.ss (f.view.ino d)).find? (Item.named name.bytes) with
      | some it => .ok (it.sec, it.pos)
      | none => .error (-8) := by
  rw [renameFindEntry, h.readInode_ok hd.low hd.high]
  simp only [hd.fmt, ne_eq, not_true_eq_false, if_false]
  exact hd.findEntryLoop_eq h (hd.reads h) (fun _ hit => hit) (by omega)

end

structure Found (f : Fs) (d : Nat) (e : Entry) (it : Item) : Prop where
  dir : (f.view.ino d).fmt = ifdir
  mem : it ∈ f.view.items f.geo.ss (f.view.ino d)
  entry : it.record.toEntry = some e
  valid : f.view.Valid e

theorem Core.found (h : Ready f) (hc : Core f.geo f.view) (hd : (f.view.ino d).fmt = ifdir)
    {name : CString} (hname : validName name = some n) {t : Nat}
    (hlook : lookupName f d name = .ok (k, t)) :
    ∃ it, renameFindEntry f d name = .ok (it.sec, it.pos) ∧ Found f d ⟨k, t, name.bytes⟩ it := by
  obtain ⟨it, hfind, hit, hentry, hmem⟩ := hc.lookup_found h hd hname hlook
  refine ⟨it, ?_, hd, hit, hentry, hc.valid d _ hmem⟩
  rw [(hc.isDirectory hd).renameFindEntry_eq h, hfind]

/-! ## The new entry -/

/-- The changes `cs` are staged, and they add the entry `e` of the directory `d` to
the view `v`. -/
def StagedEntry (f : Fs) (v : View) (d : Nat) (e : Entry) (cs : Changes) : Prop :=
  ∃ v', Stage f cs v' ∧ Safe f.geo v' ∧ Entered f.geo v d e v'

section

variable (h : Ready f) (hst : Stage f cs v) (hsafe : Safe f.geo v) (hd : (v.ino d).fmt = ifdir)
  (hparent : a.newParent = v.ino d) (he : v.Valid ⟨a.sourceInode, a.sourceType, name⟩)

include h hst hsafe hd he

theorem Stage.entry_inside {b : Buf} (hs : s ∈ dirSectors f.geo.ss (v.ino d))
    (hb : AddsEntry f.geo.ss ⟨a.sourceInode, a.sourceType, name⟩ (v.data s) b)
    (hrun : renameChange f cs s (fun _ => b) = .ok cs') :
    StagedEntry f v d ⟨a.sourceInode, a.sourceType, name⟩ cs' := by
  obtain ⟨halways, hent⟩ := hsafe.enter_inside hd he hs hb
  have hshape := hsafe.core.shape d (hsafe.core.live_of_dir hd)
  have hsame : v.after [.data s b, .ino d (v.ino d)] = v.setData s b := by
    rw [after_cons, after_cons, after_nil, apply_ino _ _ hshape.fits]
    exact setIno_of_eq rfl
  have hlast := halways.last
  rw [hsame] at hlast hent
  obtain ⟨h1, h2⟩ := hshape.area s (mem_blocksOf_of_dirSectors hs)
  exact ⟨_, hst.change_data h h1 h2 hrun, hlast, hent⟩

include hparent

theorem Stage.tail :
    (stageTail f cs a name).2 = true ∧
        StagedEntry f v d ⟨a.sourceInode, a.sourceType, name⟩ (stageTail f cs a name).1 ∨
      (stageTail f cs a name).2 = false ∧ Stage f (stageTail f cs a name).1 v := by
  have hdir := hsafe.core.dir d hd
  have hbounds := h.ss_bounds
  have hss : f.dev.sectorSize = f.geo.ss := rfl
  rw [stageTail]
  rw [hparent, hss]
  split_ifs with hz
  · exact .inr ⟨rfl, hst⟩
  have hmod : (v.ino d).size / f.geo.ss * f.geo.ss = (v.ino d).size := hdir.size.symm
  have hpos : 1 ≤ (v.ino d).size / f.geo.ss := by
    refine Nat.one_le_iff_ne_zero.2 fun h0 => hz (.inl ?_)
    rw [h0, Nat.zero_mul] at hmod
    exact hmod.symm
  have hc : (v.ino d).size / f.geo.ss = total (v.ino d).extents := by
    rcases hdir.covers with hc | ⟨h0, -⟩
    · exact hc
    · exact absurd (.inl h0) hz
  have hlt : (v.ino d).size / f.geo.ss - 1 < (blocks (v.ino d).extents).length := by
    rw [length_blocks]
    omega
  rw [dirSector_eq_locate (hdir.area.lt_u64 h), locate_eq_getElem?, List.getElem?_eq_getElem hlt]
  generalize hs : (blocks (v.ino d).extents)[(v.ino d).size / f.geo.ss - 1] = s
  have hmem : s ∈ dirSectors f.geo.ss (v.ino d) := by
    rw [← hs, dirSectors, mem_take_iff_getElem]
    exact ⟨_, by omega, rfl⟩
  obtain ⟨h1, h2⟩ := hdir.area s (mem_of_mem_take hmem)
  simp only []
  cases hget : renameChangeGet f cs s with
  | error c => exact .inr ⟨rfl, hst⟩
  | ok cs₁ =>
  obtain ⟨hst₁, hin⟩ := hst.get (h.target_data h1 h2) hget
  have hdata : changeData cs₁ s = v.data s := hst₁.data_eq h1 h2 hin
  simp only [hdata]
  rcases dirTailFit_spec he.fits (by omega) (by omega) (hdir.chained s hmem) with
    hfull | ⟨b, hb, hadd⟩
  · simp only [hfull]
    exact .inr ⟨trivial, hst₁⟩
  simp only [hb]
  refine .inl ⟨trivial, hst.entry_inside h hsafe hd he hmem hadd ?_⟩
  rw [renameChange, hget]

end

theorem stageDirent_ok (h : Ready f) (hrun : stageDirent f cs s a name = .ok cs') :
    s < f.geo.tot ∧ renameChange f cs s
      (fun _ => dirWriteAt zeroBuf 0 a.sourceInode f.geo.ss a.sourceType name) = .ok cs' := by
  rw [stageDirent] at hrun
  cases hget : renameChangeGet f cs s with
  | error c => simp [hget] at hrun
  | ok cs₁ =>
  rw [hget] at hrun
  constructor
  · rw [renameChangeGet, h.total] at hget
    split_ifs at hget with hle
    · exact Nat.not_le.1 hle
    · exact Nat.not_le.1 hle
  rw [renameWriteDirent] at hrun
  split_ifs at hrun with hss
  cases hloop : direntNameLoop f.dev.sectorSize name 0 with
  | none => simp [hloop] at hrun
  | some x =>
  rw [hloop] at hrun
  rw [renameChange, hget]
  exact hrun

theorem Ready.renameFindFreeSector_ok (h : Ready f) {l : List Extent}
    (hrun : renameFindFreeSector f l = .ok s) (hs : s < f.geo.tot) : Free f.geo f.view s := by
  rw [renameFindFreeSector] at hrun
  cases hfirst : firstFree f (renameFreeOrder f l) with
  | error c => simp [hfirst] at hrun
  | ok r =>
  cases r with
  | none => simp [hfirst] at hrun
  | some t =>
  rw [hfirst] at hrun
  cases hrun
  obtain ⟨hmem, hclear⟩ := h.firstFree_some hfirst
  refine ⟨?_, hs, hclear hs⟩
  have hds : f.geo.ds = f.super.dataStartSector := rfl
  simp only [renameFreeOrder, scanOrder, mem_append, mem_reverse, mem_range'_1] at hmem
  rcases hmem with (hnear | hmem) | hmem
  · exact (mem_nearSectors hnear).1
  · exact hmem.1
  · split_ifs at hmem <;> omega

section

variable (h : Ready f) (hst : Stage f cs v) (hsafe : Safe f.geo v) (hd : (v.ino d).fmt = ifdir)
  (hparent : a.newParent = v.ino d) (he : v.Valid ⟨a.sourceInode, a.sourceType, name⟩)

include h hst hsafe hd hparent he

/-- The entry in a whole sector. The search for it looks at the image on the
device, on which the sectors without entries are as in the staged one. -/
theorem Stage.sector (hbytes : f.geo.tot * f.geo.ss ≤ 2 ^ 64) (hino : v.ino d = f.view.ino d)
    (hbit : v.bit = f.view.bit)
    (hdata : ∀ s ∈ dirSectors f.geo.ss (v.ino d), sectorUnused (f.view.data s) f.geo.ss → v.data s = f.view.data s)
    (hrun : stageSector f cs d a name = .ok p) :
    StagedEntry f v d ⟨a.sourceInode, a.sourceType, name⟩ p.1 := by
  have hisdir := hsafe.core.isDirectory hd
  have hdir := hisdir.ok
  have hbounds := h.ss_bounds
  have horder := h.order
  have hss : f.dev.sectorSize = f.geo.ss := rfl
  have hmod : (v.ino d).size % f.geo.ss = 0 := by rw [hdir.size, Nat.mul_mod_left]
  have hle : 0 + (v.ino d).size / f.geo.ss ≤ total (v.ino d).extents := by
    rcases hdir.covers with hc | ⟨h0, -⟩
    · omega
    · simp [h0]
  have honly := h.whole_only he.fits zeroBuf
  have hslot : renameFindEmptySlot f d = .ok ((dirSectors f.geo.ss (v.ino d)).find? fun s =>
      sectorUnused (f.view.data s) f.geo.ss) := by
    rw [renameFindEmptySlot, h.readInode_ok hisdir.low hisdir.high, ← hino]
    simp only [hss, hd, hmod, ne_eq, not_true_eq_false, or_self, if_false]
    exact h.findUnused_eq hdir.area hle
  rw [stageSector, hslot] at hrun
  rw [hparent, hss] at hrun
  cases hfind : (dirSectors f.geo.ss (v.ino d)).find? fun s =>
      sectorUnused (f.view.data s) f.geo.ss with
  | some s =>
    rw [hfind] at hrun
    obtain ⟨hu, l₁, l₂, heq, -⟩ := find?_eq_some_iff_append.1 hfind
    have hmem : s ∈ dirSectors f.geo.ss (v.ino d) := by
      rw [heq]
      simp
    have hunused := of_decide_eq_true hu
    have hsame := hdata s hmem hunused
    have hempty : entriesOf f.geo.ss (v.data s) = [] :=
      entriesOf_of_unused (hdir.chained s hmem) (hsame.symm ▸ hunused)
    cases hdirent : stageDirent f cs s a name with
    | error c => simp [hdirent, Except.map] at hrun
    | ok cs₁ =>
    simp only [hdirent, Except.map] at hrun
    cases hrun
    refine hst.entry_inside h hsafe hd he hmem ⟨honly.chained, ?_⟩ (stageDirent_ok h hdirent).2
    rw [honly.entries, hempty]
    rfl
  | none =>
    rw [hfind] at hrun
    rw [dirSector_eq_locate (hdir.area.lt_u64 h), locate_eq_getElem?] at hrun
    by_cases hspare : (v.ino d).size = 0 ∧ total (v.ino d).extents = 1
    · obtain ⟨h0, h1⟩ := hspare
      obtain ⟨s, hs⟩ : ∃ s, blocks (v.ino d).extents = [s] :=
        length_eq_one_iff.1 (by rw [length_blocks, h1])
      simp only [if_pos h0, hs, List.getElem?_cons_zero, bind_eq_ok] at hrun
      obtain ⟨cs₁, hrun₁, cs₂, hrun₂, hp⟩ := hrun
      cases hp
      obtain ⟨halways, hent⟩ := hsafe.enter_spare hd he h0 hs honly (by omega) (by omega) rfl
      have hsize : u64 ((v.ino d).size + f.geo.ss) = f.geo.ss := by
        rw [h0, Nat.zero_add]
        exact Nat.mod_eq_of_lt (by omega)
      rw [hsize] at hrun₁
      have hds := (hdir.area s (by rw [hs]; simp)).1
      obtain ⟨hlt, hrun₂⟩ := stageDirent_ok h hrun₂
      have hst₁ := hst.change_inode h hrun₁
      exact ⟨_, hst₁.change_data h hds hlt hrun₂, halways.last, hent⟩
    have hfull : (v.ino d).size / f.geo.ss = total (v.ino d).extents :=
      hdir.covers.resolve_right hspare
    have hnone : (if (v.ino d).size = 0 then (blocks (v.ino d).extents)[0]? else none) = none := by
      split_ifs with h0
      · rw [h0, Nat.zero_div, ← length_blocks] at hfull
        exact List.getElem?_eq_none (by omega)
      · rfl
    simp only [hnone, bind_eq_ok] at hrun
    obtain ⟨s, hfree, cs₁, hrun₁, hrun⟩ := hrun
    split_ifs at hrun with hover
    cases happ : appendExtent (v.ino d).extents s with
    | none => simp [happ] at hrun
    | some l =>
    simp only [happ, bind_eq_ok] at hrun
    obtain ⟨cs₂, hrun₂, cs₃, hrun₃, hp⟩ := hrun
    cases hp
    obtain ⟨hlt, hrun₃⟩ := stageDirent_ok h hrun₃
    have hfree := h.renameFindFreeSector_ok hfree hlt
    have hfree' : Free f.geo v s := ⟨hfree.low, hfree.high, hbit ▸ hfree.clear⟩
    have hds : 0 < f.geo.ds := lt_of_le_of_lt (Nat.zero_le _) horder.2.1
    obtain ⟨hsize, halways, hent⟩ := hsafe.enter_extend hd he hfull hfree' happ honly
      h.tot_lt (by omega) hds hbytes rfl
    rw [Inode.resize_size] at hsize
    have hwrap : u64 ((v.ino d).size + f.geo.ss) = (v.ino d).size + f.geo.ss :=
      Nat.mod_eq_of_lt hsize
    rw [hwrap] at hrun₂
    have hst₁ := hst.change_bit h hlt hrun₁
    have hst₂ := hst₁.change_inode h hrun₂
    exact ⟨_, hst₂.change_data h hfree.low hlt hrun₃, halways.last, hent⟩

end

/-! ## The replaced inode -/

theorem Stage.free (h : Ready f) (hst : Stage f cs v) {l : List Nat} (hl : ∀ s ∈ l, s < f.geo.tot)
    (hrun : stageFree f cs l = .ok cs') : Stage f cs' (v.mark false l) := by
  rw [← after_setAll]
  induction l generalizing cs v with
  | nil =>
    cases hrun
    exact hst
  | cons s l ih =>
    rw [stageFree, bind_eq_ok] at hrun
    obtain ⟨cs₁, hrun₁, hrun⟩ := hrun
    exact ih (hst.change_bit h (hl s mem_cons_self) hrun₁)
      (fun t ht => hl t (mem_cons_of_mem _ ht)) hrun

/-- The inode `x` has lost a link, or it has been freed with its sectors. -/
structure Dropped (g : Geo) (v : View) (x : Nat) (v' : View) : Prop where
  listing : ∀ j, v'.listing g.ss j = v.listing g.ss j
  dirs : ∀ j, (v'.ino j).fmt = ifdir ↔ (v.ino j).fmt = ifdir
  other : ∀ j, j ≠ x → v'.ino j = v.ino j
  self : 1 < (v.ino x).links ∧ v'.ino x = { v.ino x with links := (v.ino x).links - 1 } ∨
    ¬1 < (v.ino x).links ∧ v'.ino x = Inode.zero ∧ ∀ s ∈ v.blocksOf x, v'.bit s = false

theorem dropped_setLinks {g : Geo} (hfile : (v.ino x).fmt ≠ ifdir) (hlinks : 1 < (v.ino x).links)
    (hi : i = { v.ino x with links := (v.ino x).links - 1 }) : Dropped g v x (v.setIno x i) := by
  have hfmt : i.fmt = (v.ino x).fmt := by rw [hi]; rfl
  have hto := sameEntries_setFile (g := g) (c := true) (l := []) hfile hfmt
  have hback := sameEntries_setFile_back (g := g) (c := true) (l := []) hfile hfmt
  rw [mark_nil] at hto hback
  refine ⟨hto.listing, fun j => ⟨hback.dirs j, hto.dirs j⟩,
    fun j hj => setIno_ino_ne _ _ _ hj, .inl ⟨hlinks, ?_⟩⟩
  rw [setIno_ino_self, hi]

theorem dropped_clearIno {g : Geo} (hfile : (v.ino x).fmt ≠ ifdir) (hlinks : ¬1 < (v.ino x).links) :
    Dropped g v x ((v.mark false (v.blocksOf x)).setIno x Inode.zero) := by
  have hleaf : v.listing g.ss x = [] := if_neg hfile
  have hback := sameEntries_clearIno (g := g) (l := v.blocksOf x) hleaf
  refine ⟨fun j => (hback.listing j).symm, fun j => ⟨hback.dirs j, fun hj => ?_⟩,
    fun j hj => setIno_ino_ne _ _ _ hj,
    .inr ⟨hlinks, setIno_ino_self .., fun s hs => ?_⟩⟩
  · have hjx : j ≠ x := by
      rintro rfl
      exact hfile hj
    rwa [setIno_ino_ne _ _ _ hjx]
  · rw [setIno_bit, mark_bit, if_pos hs]

theorem Stage.replaced (h : Ready f) (hst : Stage f cs v)
    (hshort : Short f.geo v fun k => if x = k then 1 else 0) (hx : v.Live x)
    (hfile : (v.ino x).fmt ≠ ifdir) (hrun : stageReplaced f cs x (v.ino x) = .ok cs') :
    ∃ v', Stage f cs' v' ∧ Tree f.geo v' ∧ Dropped f.geo v x v' := by
  have hbut := hshort.treeBut
  have hshape := hbut.core.shape x hx
  have hroot : x ≠ f.geo.root := by
    rintro rfl
    exact hfile hbut.core.root
  have hcount := hshort.count x hx hroot
  rw [if_pos rfl, if_neg hfile] at hcount
  rw [stageReplaced] at hrun
  split_ifs at hrun with hlinks
  · obtain ⟨hfits, htree⟩ := hbut.dropLink hx hfile hcount hlinks rfl
    have hst' := hst.change_inode h hrun
    rw [hfits.wrap_eq] at hst'
    exact ⟨_, hst', htree, dropped_setLinks hfile hlinks rfl⟩
  rw [bind_eq_ok] at hrun
  obtain ⟨cs₁, hfree, hrun⟩ := hrun
  rw [hshape.area.extentSectors_eq h] at hfree
  have hst₁ := hst.free h (fun s hs => (hshape.area s hs).2) hfree
  have hst₂ := hst₁.change_inode h hrun
  rw [zero_fits.wrap_eq] at hst₂
  exact ⟨_, hst₂, hbut.clearIno hroot (by omega) (if_neg hfile), dropped_clearIno hfile hlinks⟩

/-! ## The checks -/

/-- What the checks of a rename have found: a file, and perhaps another file that
it replaces. -/
structure Checked (f : Fs) (oldDir newDir : Nat) (oldName newName : List Byte) (a : RenameArgs) :
    Prop where
  source : ∃ it, Found f oldDir ⟨a.sourceInode, a.sourceType, oldName⟩ it ∧
    a.sourceSector = it.sec ∧ a.sourceOffset = it.pos
  file : (f.view.ino a.sourceInode).fmt ≠ ifdir
  parent : a.newParent = f.view.ino newDir
  replaced : ∀ r, a.replaced = some r → r.1 ≠ a.sourceInode ∧ r.2.1 = f.view.ino r.1 ∧
    (f.view.ino r.1).fmt ≠ ifdir ∧
    ∃ t it, Found f newDir ⟨r.1, t, newName⟩ it ∧ r.2.2 = (it.sec, it.pos)

theorem Ready.readFileInode_some (h : Ready f) (hrun : readFileInode f k = some i) :
    i = f.view.ino k ∧ i.fmt ≠ ifdir := by
  rw [readFileInode] at hrun
  by_cases hk : 1 ≤ k ∧ k ≤ f.super.inodeCount
  · rw [h.readInode_ok hk.1 hk.2] at hrun
    simp only [] at hrun
    split_ifs at hrun with hfmt
    cases hrun
    refine ⟨rfl, fun hdir => hfmt ?_⟩
    rw [hdir]
    decide
  · simp [h.readInode_error hk] at hrun

section

variable (h : Ready f) (hc : Core f.geo f.view) (hnew : (f.view.ino newDir).fmt = ifdir)
  (hnewName : validName newName = some n)

include h hc hnew hnewName

theorem renameDest_ok {r : Option (Nat × Inode × Nat × Nat)}
    (hrun : renameDest f k newDir newName replace = .ok r) :
    ∀ q, r = some q → q.1 ≠ k ∧ q.2.1 = f.view.ino q.1 ∧ (f.view.ino q.1).fmt ≠ ifdir ∧
      ∃ t it, Found f newDir ⟨q.1, t, newName.bytes⟩ it ∧ q.2.2 = (it.sec, it.pos) := by
  rintro q rfl
  obtain ⟨hnone, -⟩ | ⟨x, t, i, s, off, hq, hlook, hne, hread, hentry⟩ := renameDest_cases hrun
  · cases hnone
  cases hq
  obtain ⟨hi, hfile⟩ := h.readFileInode_some hread
  obtain ⟨it, hfind, hfound⟩ := hc.found h hnew hnewName hlook
  exact ⟨hne, hi, hi ▸ hfile, t, it, hfound, Except.ok.inj (hentry.symm.trans hfind)⟩

theorem renameCheck_ok {m : Nat} (hold : (f.view.ino oldDir).fmt = ifdir)
    (holdName : validName oldName = some m)
    (hrun : renameCheck f oldDir oldName newDir newName replace = .ok a) :
    Checked f oldDir newDir oldName.bytes newName.bytes a := by
  have hchecks := renameCheck_cases hrun
  obtain ⟨i, hread⟩ := hchecks.file
  obtain ⟨hi, hfile⟩ := h.readFileInode_some hread
  obtain ⟨it, hfind, hfound⟩ := hc.found h hold holdName hchecks.source
  have hplace := Prod.mk.inj (Except.ok.inj (hchecks.entry.symm.trans hfind))
  have hd₂ := hc.isDirectory hnew
  have hparent := Except.ok.inj (hchecks.parent.symm.trans (h.readInode_ok hd₂.low hd₂.high))
  exact ⟨⟨it, hfound, hplace.1, hplace.2⟩, hi ▸ hfile, hparent,
    renameDest_ok h hc hnew hnewName hchecks.dest⟩

end

/-! ## The stages together -/

theorem renameStage_ok (hrun : renameStage f newDir a name = .ok p) :
    ∃ cs₁ cs₂ q, renameClear f [] a.sourceSector a.sourceOffset = .ok cs₁ ∧
      (match a.replaced with
        | none => Except.ok cs₁
        | some (_, _, s, off) => renameClear f cs₁ s off) = .ok cs₂ ∧
      (if (stageTail f cs₂ a name).2 then .ok ((stageTail f cs₂ a name).1, 0)
        else stageSector f (stageTail f cs₂ a name).1 newDir a name) = .ok q ∧
      (match a.replaced with
        | none => Except.ok q.1
        | some (ino, i, _, _) => stageReplaced f q.1 ino i) = .ok p.1 := by
  rw [renameStage, bind_eq_ok] at hrun
  obtain ⟨cs₁, hrun₁, hrun⟩ := hrun
  cases hrep : a.replaced with
  | none =>
    simp only [hrep, bind_eq_ok, Except.ok.injEq, exists_eq_left'] at hrun
    refine ⟨cs₁, cs₁, ?_⟩
    split_ifs at hrun ⊢ with htail
    · simp only [bind_eq_ok, Except.ok.injEq, exists_eq_left'] at hrun
      cases hrun
      exact ⟨_, hrun₁, rfl, rfl, rfl⟩
    simp only [bind_eq_ok, Except.ok.injEq, exists_eq_left'] at hrun
    obtain ⟨q, hq, hp⟩ := hrun
    cases hp
    exact ⟨q, hrun₁, rfl, hq, rfl⟩
  | some r =>
    obtain ⟨x, i, s, off⟩ := r
    simp only [hrep, bind_eq_ok] at hrun
    obtain ⟨cs₂, hrun₂, hrun⟩ := hrun
    refine ⟨cs₁, cs₂, ?_⟩
    split_ifs at hrun ⊢ with htail
    · simp only [bind_eq_ok, Except.ok.injEq, exists_eq_left'] at hrun
      obtain ⟨cs₃, hrun₃, hp⟩ := hrun
      cases hp
      exact ⟨_, hrun₁, hrun₂, rfl, hrun₃⟩
    simp only [bind_eq_ok] at hrun
    obtain ⟨q, hq, cs₃, hrun₃, hp⟩ := hrun
    cases hp
    exact ⟨q, hrun₁, hrun₂, hq, hrun₃⟩

/-- The entries that the replaced inode lacks once its entry is gone. -/
def RenameArgs.missing (a : RenameArgs) (k : Nat) : Nat :=
  match a.replaced with
  | none => 0
  | some r => if r.1 = k then 1 else 0

/-- The entry that the rename replaces, if any. -/
structure RenameArgs.Replaces (a : RenameArgs) (newName : List Byte) (rep : Option Entry) : Prop where
  ino : a.replaced.map Prod.fst = rep.map Entry.ino
  name : ∀ e, rep = some e → e.name = newName

structure Cleared (f : Fs) (newDir : Nat) (a : RenameArgs) (v : View) : Prop where
  short : Short f.geo v fun k => a.missing k + if a.sourceInode = k then 1 else 0
  ino : v.ino = f.view.ino
  bit : v.bit = f.view.bit
  data : ∀ s ∈ dirSectors f.geo.ss (v.ino newDir), sectorUnused (f.view.data s) f.geo.ss →
    v.data s = f.view.data s

theorem Found.sec_ne (h : Ready f) (hc : Core f.geo f.view) {e : Entry} {it : Item}
    (hf : Found f d e it) (hu : sectorUnused (f.view.data s) f.geo.ss) : s ≠ it.sec := by
  rintro rfl
  have hdir := hc.isDirectory hf.dir
  obtain ⟨hsec, -, -, hrec⟩ := hdir.item_place h hf.mem
  have hempty := entriesOf_of_unused (hdir.ok.chained _ hsec) hu
  have hmem : e ∈ entriesOf f.geo.ss (f.view.data it.sec) :=
    mem_filterMap.2 ⟨it.record, hrec, hf.entry⟩
  rw [hempty] at hmem
  cases hmem

section

variable (h : Good f) {oldName newName : List Byte} (ha : Checked f oldDir newDir oldName newName a)

include h ha

theorem Checked.cleared {cs₁ cs₂ : Changes}
    (hrun₁ : renameClear f [] a.sourceSector a.sourceOffset = .ok cs₁)
    (hrun₂ : (match a.replaced with
      | none => Except.ok cs₁
      | some (_, _, s, off) => renameClear f cs₁ s off) = .ok cs₂) :
    ∃ v rep, Stage f cs₂ v ∧ Cleared f newDir a v ∧ a.Replaces newName rep ∧
      ∃ L, Binds L oldDir ⟨a.sourceInode, a.sourceType, oldName⟩ (f.view.listing f.geo.ss) ∧
        Drops L newDir rep (v.listing f.geo.ss) := by
  have hr := h.ready
  have hc := h.tree.core
  obtain ⟨it, hfound, hsec, hoff⟩ := ha.source
  have hdir := hc.isDirectory hfound.dir
  obtain ⟨hs, hmod, -, hrec⟩ := hdir.item_place hr hfound.mem
  obtain ⟨h1, h2⟩ := hdir.ok.area it.sec (mem_of_mem_take hs)
  rw [hsec, hoff] at hrun₁
  have hst₁ : Stage f cs₁ (f.view.without it) := by
    have hst := (Stage.nil hr).change_data hr h1 h2 hrun₁
    change Stage f cs₁ (f.view.setData it.sec
      (clear (f.view.data it.sec) (it.pos % f.geo.ss) 8)) at hst
    rwa [hmod] at hst
  obtain ⟨hcore₁, hremoved₁⟩ := hc.clearRecord hfound.dir hs hrec hfound.entry
  have hshort₁ := h.tree.short.removed hremoved₁ hcore₁ hfound.dir ha.file
  have hdata₁ : ∀ s, sectorUnused (f.view.data s) f.geo.ss →
      (f.view.without it).data s = f.view.data s := fun s hu =>
    setData_data_ne _ _ _ (hfound.sec_ne hr hc hu)
  cases hrep : a.replaced with
  | none =>
    rw [hrep] at hrun₂
    cases hrun₂
    refine ⟨_, none, hst₁, ⟨?_, rfl, rfl, fun s _ hu => hdata₁ s hu⟩,
      ⟨by rw [hrep]; rfl, by simp⟩, _, hremoved₁.bound.binds, rfl⟩
    simp only [RenameArgs.missing, hrep]
    exact hshort₁
  | some r =>
    obtain ⟨x, i, s, off⟩ := r
    obtain ⟨hne, -, hfile, t, it', hfound', hplace⟩ := ha.replaced _ hrep
    cases hplace
    rw [hrep] at hrun₂
    have hdir' := hc.isDirectory hfound'.dir
    obtain ⟨hs', hmod', -, hrec'⟩ := hdir'.item_place hr hfound'.mem
    obtain ⟨h1', h2'⟩ := hdir'.ok.area it'.sec (mem_of_mem_take hs')
    have hrec₁ : it'.record ∈ records ((f.view.without it).data it'.sec) f.geo.ss f.geo.ss 0 := by
      by_cases hsame : it'.sec = it.sec
      · rw [hsame] at hrec' ⊢
        rw [View.without, setData_data_self]
        refine mem_records_clear (hdir.ok.chained _ hs) hrec hrec' ?_
        intro heq
        have hentry := hfound'.entry
        rw [heq, hfound.entry, Option.some.injEq, Entry.mk.injEq] at hentry
        exact hne hentry.1.symm
      · rwa [View.without, setData_data_ne _ _ _ hsame]
    obtain ⟨hcore₂, hremoved₂⟩ := hcore₁.clearRecord hfound'.dir hs' hrec₁ hfound'.entry
    have hst₂ := hst₁.change_data hr h1' h2' hrun₂
    have hss : f.dev.sectorSize = f.geo.ss := rfl
    rw [hss, hmod'] at hst₂
    refine ⟨_, some ⟨x, t, newName⟩, hst₂, ⟨?_, rfl, rfl, fun s _ hu => ?_⟩,
      ⟨by rw [hrep]; rfl, by simp⟩, _, hremoved₁.bound.binds, hremoved₂.bound.binds⟩
    · have hshort₂ := hshort₁.removed hremoved₂ hcore₂ hfound'.dir hfile
      simp only [RenameArgs.missing, hrep]
      have hw : (fun k => (if x = k then 1 else 0) + if a.sourceInode = k then 1 else 0) =
          fun k => (0 + if a.sourceInode = k then 1 else 0) + if x = k then 1 else 0 := by
        funext k
        rw [Nat.zero_add, Nat.add_comm]
      rw [hw]
      exact hshort₂
    · rw [setData_data_ne _ _ _ (hfound'.sec_ne hr hc hu)]
      exact hdata₁ s hu

section

variable (hnew : (f.view.ino newDir).fmt = ifdir) (hlen : newName.length ≤ nameMax)
  (hclean : ∀ c ∈ newName, c ≠ 0) (hrun : renameStage f newDir a newName = .ok p)

include hnew hlen hclean hrun

/-- A staged rename moves the entry and leads to a tree again. -/
theorem Checked.stage_moved :
    ∃ v rep, Stage f p.1 v ∧ Tree f.geo v ∧ a.Replaces newName rep ∧
      ∃ L₁ L₂, Binds L₁ oldDir ⟨a.sourceInode, a.sourceType, oldName⟩ (f.view.listing f.geo.ss) ∧
        Drops L₁ newDir rep L₂ ∧
        Binds L₂ newDir ⟨a.sourceInode, a.sourceType, newName⟩ (v.listing f.geo.ss) := by
  have hr := h.ready
  obtain ⟨cs₁, cs₂, q, hrun₁, hrun₂, hq, hrun₃⟩ := renameStage_ok hrun
  obtain ⟨v, rep, hst, hv, hrep', L, hold, hdrop⟩ := ha.cleared h hrun₁ hrun₂
  obtain ⟨it, hfound, -, -⟩ := ha.source
  have hdir : (v.ino newDir).fmt = ifdir := by
    rw [hv.ino]
    exact hnew
  have hparent : a.newParent = v.ino newDir := by
    rw [hv.ino]
    exact ha.parent
  have hvalid : v.Valid ⟨a.sourceInode, a.sourceType, newName⟩ := by
    obtain ⟨hfits, hlive, htype⟩ := hfound.valid
    refine ⟨⟨hfits.pos, hfits.ino, hfits.type, hlen, hclean⟩, ?_, ?_⟩
    · rw [View.Live, hv.ino]
      exact hlive
    · rw [hv.ino]
      exact htype
  have hsafe := hv.short.safe
  have hentry : StagedEntry f v newDir ⟨a.sourceInode, a.sourceType, newName⟩ q.1 := by
    rcases hst.tail hr hsafe hdir hparent hvalid with ⟨htrue, hstaged⟩ | ⟨hfalse, hst'⟩
    · rw [if_pos htrue] at hq
      cases hq
      exact hstaged
    · rw [if_neg (by simp [hfalse])] at hq
      exact hst'.sector hr hsafe hdir hparent hvalid h.bytes (by rw [hv.ino]) hv.bit hv.data hq
  obtain ⟨v', hst', hsafe', hent⟩ := hentry
  have hshort : Short f.geo v' a.missing := hv.short.entered hent hsafe'.core hdir
  cases hrep : a.replaced with
  | none =>
    rw [hrep, Except.ok.injEq] at hrun₃
    rw [← hrun₃]
    have hzero : a.missing = fun _ => 0 := by
      funext k
      rw [RenameArgs.missing, hrep]
    rw [hzero] at hshort
    obtain rfl : rep = none := by simpa [hrep] using hrep'.ino
    exact ⟨v', none, hst', hshort.tree, hrep', L, _, hold, hdrop, hent.bound.binds⟩
  | some r =>
    obtain ⟨x, i, s, off⟩ := r
    obtain ⟨-, hi, hfile, t, it', hfound', -⟩ := ha.replaced _ hrep
    rw [hrep] at hrun₃
    have hone : a.missing = fun k => if x = k then 1 else 0 := by
      funext k
      rw [RenameArgs.missing, hrep]
    rw [hone] at hshort
    have hxd : x ≠ newDir := by
      rintro rfl
      exact hfile hnew
    have hsame : v'.ino x = f.view.ino x := by
      rw [hent.otherIno x hxd, hv.ino]
    have hi : i = v'.ino x := hi.trans hsame.symm
    have hlive : v'.Live x := by
      rw [View.Live, hsame]
      exact hfound'.valid.live
    rw [hi] at hrun₃
    obtain ⟨w, hstw, htree, hdropped⟩ :=
      hst'.replaced hr hshort hlive (by rw [hsame]; exact hfile) hrun₃
    have hlistw : w.listing f.geo.ss = v'.listing f.geo.ss := funext hdropped.listing
    refine ⟨w, rep, hstw, htree, hrep', L, _, hold, hdrop, ?_⟩
    rw [hlistw]
    exact hent.bound.binds

end

end

/-! ## The call -/

theorem renameDest_error (hrun : renameDest f k newDir newName replace = .error c) : c ≠ 0 := by
  rw [renameDest] at hrun
  repeat' split at hrun
  all_goals cases hrun <;> decide

theorem renameCheck_error (hrun : renameCheck f oldDir oldName newDir newName replace = .error c) :
    c ≠ 0 := by
  rw [renameCheck] at hrun
  repeat' split at hrun
  any_goals cases hrun <;> decide
  cases hrun
  exact renameDest_error ‹_›

theorem rename_same (hrun : rename f oldDir oldName newDir newName replace = (0, g))
    (hsame : oldDir = newDir ∧ oldName.bytes = newName.bytes) : f = g := by
  rw [rename] at hrun
  cases holdName : validName oldName with
  | none => simp [holdName] at hrun
  | some m =>
  cases hnewName : validName newName with
  | none => simp [holdName, hnewName] at hrun
  | some n =>
  simp only [holdName, hnewName, if_pos hsame] at hrun
  split_ifs at hrun with hbad
  · simp at hrun
  · exact (Prod.mk.inj hrun).2

theorem rename_ok (hrun : rename f oldDir oldName newDir newName replace = (0, g))
    (hne : ¬(oldDir = newDir ∧ oldName.bytes = newName.bytes)) :
    ∃ m n a p, validName oldName = some m ∧ validName newName = some n ∧
      renameCheck f oldDir oldName newDir newName replace = .ok a ∧
      renameStage f newDir a newName.bytes = .ok p ∧ (journalWriteTransaction f p.1).1 = 0 ∧
      Effects (journalWriteTransaction f p.1).2 [] g := by
  rw [rename] at hrun
  cases holdName : validName oldName with
  | none => simp [holdName] at hrun
  | some m =>
  cases hnewName : validName newName with
  | none => simp [holdName, hnewName] at hrun
  | some n =>
  simp only [holdName, hnewName, if_neg hne] at hrun
  split_ifs at hrun with hbad
  · simp at hrun
  cases hcheck : renameCheck f oldDir oldName newDir newName replace with
  | error c =>
    rw [hcheck, Prod.mk.injEq] at hrun
    exact absurd hrun.1 (renameCheck_error hcheck)
  | ok a =>
  rw [hcheck] at hrun
  cases hstage : renameStage f newDir a newName.bytes with
  | error c => simp [hstage] at hrun
  | ok p =>
  obtain ⟨cs, s⟩ := p
  refine ⟨m, n, a, (cs, s), rfl, rfl, rfl, hstage, ?_⟩
  simp only [hstage] at hrun
  split_ifs at hrun with hhint
  · simp only [Prod.mk.injEq, true_and] at hrun
    exact ⟨hhint.1, hrun ▸ .hint (u64 (s + 1)) _ (.nil _)⟩
  · rw [hrun]
    exact ⟨rfl, .nil g⟩

end RixuriOS.Rixfs
