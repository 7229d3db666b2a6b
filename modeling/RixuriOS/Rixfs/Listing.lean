import RixuriOS.Rixfs.Records
import RixuriOS.Rixfs.View

/-!
# Reading a directory

The readers of a directory see its records one after the other, sector by sector
in the order of the extents. `Reads f k size off l` says what they see from the
offset `off` on. A directory whose sectors are chains of records is read to its
end, a lookup finds the first entry with a name, and removing a name clears the
record that the lookup finds.
-/

namespace RixuriOS.Rixfs

open ByteCodec CrashStore ExtentList List

/-! ## Mapping a logical sector -/

def InArea (g : Geo) (l : List Extent) : Prop := ∀ s ∈ blocks l, g.ds ≤ s ∧ s < g.tot

variable {p n ss left : Nat} {i : Inode} {b : Buf} {r : Rec}

variable {l : List Extent} {k : Nat} {f : Fs}

theorem extentMap_eq_locate (h : ∀ s ∈ blocks l, s < 2 ^ 64) (pos : Nat) :
    extentMap l pos = locate l pos := by
  induction l generalizing pos with
  | nil => rfl
  | cons e l ih =>
    have hl := ih fun s hs => h s (by rw [blocks_cons]; exact mem_append_right _ hs)
    rw [extentMap, locate]
    split_ifs with h0 h1 h2 h3
    · omega
    · rw [hl, h0, Nat.sub_zero]
    · have hmem : e.start + pos ∈ blocks (e :: l) := by
        rw [blocks_cons]
        exact mem_append_left _ (mem_range'_1.2 ⟨by omega, by omega⟩)
      have := h _ hmem
      omega
    · rfl
    · exact hl _

theorem dirSector_eq_locate (h : ∀ s ∈ blocks l, s < 2 ^ 64) (pos : Nat) :
    dirSector l pos = locate l pos := by
  induction l generalizing pos with
  | nil => rfl
  | cons e l ih =>
    have hl := ih fun s hs => h s (by rw [blocks_cons]; exact mem_append_right _ hs)
    rw [dirSector, locate]
    split_ifs with h1
    · have hmem : e.start + pos ∈ blocks (e :: l) := by
        rw [blocks_cons]
        exact mem_append_left _ (mem_range'_1.2 ⟨by omega, by omega⟩)
      rw [u64, Nat.mod_eq_of_lt (h _ hmem)]
    · exact hl _

variable {lo off s : Nat} {α : Type}

section

variable (h : Ready f)

include h

theorem Ready.tot_lt : f.geo.tot < 2 ^ 64 := h.count_lt

theorem InArea.lt_u64 (hl : InArea f.geo l) : ∀ s ∈ blocks l, s < 2 ^ 64 :=
  fun s hs => lt_trans (hl s hs).2 h.tot_lt

theorem Ready.read_sector (h1 : 1 ≤ k) (hk : k ≤ f.geo.ic) (hi : f.view.ino k = i)
    (hself : i.inode = k) (harea : InArea f.geo i.extents) {o : Nat}
    (hloc : locate i.extents p = some s) (hlen : 0 < n) (hin : o + n ≤ f.geo.ss)
    (hsize : p * f.geo.ss + o + n ≤ i.size) :
    ∃ b, rixfsRead f k (p * f.geo.ss + o) n = .ok b ∧
      ∀ j, j < n → b j = f.view.data s (o + j) := by
  have hs := harea s (locate_mem hloc)
  have hss : f.geo.ss = f.dev.sectorSize := rfl
  have hpos := h.sectorSize_pos
  have hfit : i.size < 2 ^ 64 := hi ▸ (h.ino_fits k).size
  have hdiv : (p * f.dev.sectorSize + o) / f.dev.sectorSize = p := by
    rw [Nat.add_comm, Nat.add_mul_div_right _ _ hpos, Nat.div_eq_of_lt (by omega), Nat.zero_add]
  have hmod : (p * f.dev.sectorSize + o) % f.dev.sectorSize = o := by
    rw [Nat.add_comm, Nat.add_mul_mod_self_right, Nat.mod_eq_of_lt (by omega)]
  have hend : p * f.dev.sectorSize + o + n - 1 = p * f.dev.sectorSize + (o + n - 1) := by
    omega
  have hdiv' : (p * f.dev.sectorSize + o + n - 1) / f.dev.sectorSize = p := by
    rw [hend, Nat.add_comm, Nat.add_mul_div_right _ _ hpos, Nat.div_eq_of_lt (by omega),
      Nat.zero_add]
  have hmod' : (p * f.dev.sectorSize + o + n - 1) % f.dev.sectorSize = o + n - 1 := by
    rw [hend, Nat.add_comm, Nat.add_mul_mod_self_right, Nat.mod_eq_of_lt (by omega)]
  have hprep : ioPrepare f k (p * f.dev.sectorSize + o) n = .ok i := by
    rw [hss] at hsize
    rw [ioPrepare, if_neg (by omega), h.readInode_ok h1 hk, hi]
    simp only
    rw [if_neg (by omega)]
  have hmap : extentMap i.extents p = some s := by
    rw [extentMap_eq_locate (harea.lt_u64 h), hloc]
  have htot := h.total
  have hrd : f.dev.rd s = some (f.view.data s) := rd_data hs.1 hs.2
  refine ⟨copyBytes zeroBuf 0 (f.view.data s) o n, ?_, ?_⟩
  · rw [hss, rixfsRead, h.mounted, if_neg (by simp), if_neg (by omega), hprep]
    simp only [ioSectors, hdiv, hdiv']
    rw [Nat.add_sub_cancel_left, readLoop, hmap]
    simp only
    rw [if_neg (by rw [htot]; exact Nat.not_le.2 hs.2), hrd]
    simp only [ioBegin, ioEnd, hdiv, hdiv', hmod, hmod', if_true, readLoop]
    congr 2
    omega
  intro j hj
  rw [copyBytes]
  rw [if_pos (by omega), Nat.sub_zero]

end

/-! ## The records as the readers see them -/

structure Item where
  pos : Nat
  sec : Nat
  record : Rec

variable {it : Item}

def Item.inUse (it : Item) : Bool := it.record.ent.inode ≠ 0

def Item.named (name : List Byte) (it : Item) : Bool :=
  it.record.ent.inode ≠ 0 ∧ it.record.name = name

/-- From the offset `off` to `size`, the directory `k` consists of the records `l`,
and reading them succeeds. -/
inductive Reads (f : Fs) (k size : Nat) : Nat → List Item → Prop where
  | done : Reads f k size size []
  | item {it : Item} {l : List Item}
      (hin : it.pos + direntMinSize ≤ size)
      (hent : readEnt f k it.pos = .ok it.record.ent)
      (hok : it.record.Ok)
      (hlen : it.record.ent.nameLength ≤ nameMax)
      (hname : it.record.ent.inode ≠ 0 →
        ∃ b, rixfsRead f k (it.pos + direntMinSize) it.record.ent.nameLength = .ok b ∧
          slice b 0 it.record.ent.nameLength = it.record.name)
      (hrest : Reads f k size (it.pos + it.record.ent.recordSize) l) :
      Reads f k size it.pos (it :: l)

/-- The records of a list of sectors, of which the first has the number `p` in the
directory. -/
def itemsFrom (ss : Nat) (data : Nat → Buf) : Nat → List Nat → List Item
  | _, [] => []
  | p, s :: l =>
    (records (data s) ss ss 0).map (fun r => ⟨p * ss + r.off, s, r⟩) ++
      itemsFrom ss data (p + 1) l

def dirSectors (ss : Nat) (i : Inode) : List Nat := (blocks i.extents).take (i.size / ss)

def View.items (v : View) (ss : Nat) (i : Inode) : List Item :=
  itemsFrom ss v.data 0 (dirSectors ss i)

def View.entries (v : View) (ss : Nat) (i : Inode) : List Entry :=
  (dirSectors ss i).flatMap fun s => entriesOf ss (v.data s)

/-- A directory as the operations keep it: its size covers whole sectors, all of
its sectors if it has any entries at all, and these are chains of records. -/
structure DirOk (g : Geo) (v : View) (i : Inode) : Prop where
  area : InArea g i.extents
  size : i.size = i.size / g.ss * g.ss
  covers : i.size / g.ss = total i.extents ∨ i.size = 0 ∧ total i.extents = 1
  chained : ∀ s ∈ dirSectors g.ss i, Chained g.ss (v.data s)

theorem Reads.le {size : Nat} {l : List Item} (h : Reads f k size off l) : off ≤ size := by
  induction h with
  | done => exact le_rfl
  | item hin _ _ _ _ _ => omega

section

variable (h : Ready f) (h1 : 1 ≤ k) (hk : k ≤ f.geo.ic)

include h h1 hk

theorem reads_sector (hino : f.view.ino k = i) (hself : i.inode = k)
    (harea : InArea f.geo i.extents) (hloc : locate i.extents p = some s)
    (hsize : (p + 1) * f.geo.ss ≤ i.size) {recs : List Rec}
    (hseg : Seg (f.view.data s) lo f.geo.ss recs) {l : List Item}
    (hrest : Reads f k i.size ((p + 1) * f.geo.ss) l) :
    Reads f k i.size (p * f.geo.ss + lo)
      (recs.map (fun r => ⟨p * f.geo.ss + r.off, s, r⟩) ++ l) := by
  have hmul : (p + 1) * f.geo.ss = p * f.geo.ss + f.geo.ss := Nat.succ_mul _ _
  generalize hhi : f.geo.ss = hi at hseg
  induction hseg with
  | nil lo =>
    rw [map_nil, nil_append, ← hhi, ← hmul]
    exact hrest
  | @cons lo hi recs hok hseg ih =>
    subst hhi
    have hle := hseg.le
    have hrs := hok.size
    have hmin : direntMinSize = 16 := rfl
    rw [map_cons, cons_append]
    obtain ⟨b, hread, hb⟩ := h.read_sector h1 hk hino hself harea hloc (o := lo)
      (n := direntMinSize) (by omega) (by omega) (by omega)
    have hent : readEnt f k (p * f.geo.ss + lo) = .ok (recAt (f.view.data s) lo).ent := by
      rw [readEnt, hread, recAt_ent]
      simp only [Except.ok.injEq]
      rw [loadDirent_congr (c := fun j => f.view.data s (lo + j)) fun j _ hj => hb j (by omega)]
      simp only [loadDirent, load_shift, Nat.zero_add, Nat.add_zero]
    refine @Reads.item f k i.size ⟨p * f.geo.ss + lo, s, recAt (f.view.data s) lo⟩ _
      ?_ hent hok ?_ ?_ ?_
    · simp only
      omega
    · have := load_lt (f.view.data s) (lo + 11) 1
      simp only [recAt_ent, loadDirent, nameMax]
      omega
    · intro h0
      have hname := hok.name h0
      rw [recAt_ent] at h0 hname hle hrs ⊢
      have hslice : (recAt (f.view.data s) lo).name =
          slice (f.view.data s) (lo + direntMinSize) (loadDirent (f.view.data s) lo).nameLength := by
        simp [recAt, h0]
      rcases Nat.eq_zero_or_pos (loadDirent (f.view.data s) lo).nameLength with hz | hz
      · refine ⟨zeroBuf, ?_, ?_⟩
        · rw [hz, rixfsRead, h.mounted]
          simp
        · rw [hslice, hz]
          rfl
      obtain ⟨c, hread', hc⟩ := h.read_sector h1 hk hino hself harea hloc
        (o := lo + direntMinSize) hz (by omega) (by omega)
      refine ⟨c, ?_, ?_⟩
      · rw [Nat.add_assoc]
        exact hread'
      · rw [hslice, slice_congr (c := fun j => f.view.data s (lo + direntMinSize + j))
          fun j _ hj => hc j (by omega), slice_shift, Nat.add_zero]
    simp only
    rw [Nat.add_assoc]
    exact ih rfl

theorem reads_sectors (hino : f.view.ino k = i) (hself : i.inode = k) (hdir : DirOk f.geo f.view i)
    {l : List Nat} (hl : (dirSectors f.geo.ss i).drop p = l)
    (hp : p ≤ (dirSectors f.geo.ss i).length) :
    Reads f k i.size (p * f.geo.ss) (itemsFrom f.geo.ss f.view.data p l) := by
  have hlen : (dirSectors f.geo.ss i).length = i.size / f.geo.ss := by
    have hcov := hdir.covers
    rw [dirSectors, length_take, length_blocks]
    rcases hcov with hcov | ⟨h0, h1⟩
    · omega
    · rw [h0, Nat.zero_div]
      omega
  induction l generalizing p with
  | nil =>
    have hge : (dirSectors f.geo.ss i).length ≤ p := drop_eq_nil_iff.1 hl
    have hpe : p = i.size / f.geo.ss := by omega
    rw [itemsFrom, hpe, ← hdir.size]
    exact .done
  | cons s l ih =>
    have hlt : p < (dirSectors f.geo.ss i).length := by
      by_contra hge
      rw [drop_eq_nil_iff.2 (by omega)] at hl
      cases hl
    rw [drop_eq_getElem_cons hlt] at hl
    obtain ⟨hs, hl⟩ := List.cons.inj hl
    have hloc : locate i.extents p = some s := by
      rw [locate_eq_getElem?, ← hs]
      simp only [dirSectors] at hlt ⊢
      rw [getElem_take, List.getElem?_eq_getElem]
    obtain ⟨recs, hseg⟩ := hdir.chained s (hs ▸ getElem_mem hlt)
    have hsize : (p + 1) * f.geo.ss ≤ i.size := by
      rw [hdir.size]
      exact Nat.mul_le_mul_right _ (by omega)
    rw [itemsFrom, hseg.records_eq (by omega)]
    have hreads := reads_sector h h1 hk hino hself hdir.area hloc hsize hseg
      (ih hl (by omega))
    rwa [Nat.add_zero] at hreads

theorem DirOk.reads (hself : (f.view.ino k).inode = k) (hdir : DirOk f.geo f.view (f.view.ino k)) :
    Reads f k (f.view.ino k).size 0 (f.view.items f.geo.ss (f.view.ino k)) := by
  have hreads := reads_sectors h h1 hk rfl hself hdir (p := 0) rfl (Nat.zero_le _)
  rwa [Nat.zero_mul] at hreads

end

/-! ## The loops of the readers -/

section

variable {size : Nat} {l : List Item} {name : List Byte}

theorem holeStep_eq {e : Dirent} (h : direntMinSize ≤ e.recordSize) (hle : e.recordSize ≤ left) :
    holeStep ss left e = some e.recordSize := by
  rw [direntMinSize] at h
  rw [holeStep, if_neg (by omega), if_neg (by omega)]

theorem Reads.not_recordBad (hok : it.record.Ok) (hle : it.record.ent.recordSize ≤ left)
    (h0 : it.record.ent.inode ≠ 0) : ¬recordBad it.record.ent left := by
  have hsize := hok.size
  have hname := hok.name h0
  rintro (h | h | h) <;> omega

/-- The body of the loops that search a name, at a record: it goes on behind a record with another
name. -/
theorem search_step {bad₁ bad₂ bad₃ hit : α} {next : Nat → α} (hok : it.record.Ok)
    (hle : it.record.ent.recordSize ≤ left) (hname : it.record.ent.inode ≠ 0 →
      ∃ b, rixfsRead f k (it.pos + direntMinSize) it.record.ent.nameLength = .ok b ∧
      slice b 0 it.record.ent.nameLength = it.record.name) :
    (if it.record.ent.inode = 0 then
      match holeStep f.dev.sectorSize left it.record.ent with
      | none => bad₁
      | some n => next (it.pos + n)
    else if recordBad it.record.ent left then bad₂
    else if it.record.ent.nameLength = name.length then
      match rixfsRead f k (it.pos + direntMinSize) name.length with
      | .error _ => bad₃
      | .ok b =>
        if slice b 0 name.length = name then hit else next (it.pos + it.record.ent.recordSize)
    else next (it.pos + it.record.ent.recordSize)) =
      if Item.named name it then hit else next (it.pos + it.record.ent.recordSize) := by
  by_cases h0 : it.record.ent.inode = 0
  · rw [if_pos h0, holeStep_eq hok.size hle, if_neg (by simp [Item.named, h0])]
  obtain ⟨b, hread, hb⟩ := hname h0
  rw [if_neg h0, if_neg (Reads.not_recordBad hok hle h0)]
  have hblen : it.record.name.length = it.record.ent.nameLength := by rw [← hb, slice_length]
  split_ifs with hnl hnamed hnamed
  · rw [← hnl, hread]
    simp only
    rw [hb, if_pos (by simpa [Item.named, h0] using hnamed)]
  · rw [← hnl, hread]
    simp only
    rw [hb, if_neg (by simpa [Item.named, h0] using hnamed)]
  · have heq : it.record.name = name := by simpa [Item.named, h0] using hnamed
    exact absurd (by rw [← hblen, heq]) hnl
  · rfl

theorem Reads.lookupLoop_eq (h : Reads f k size off l) (hn : size - off ≤ n) :
    lookupLoop f k size name n off =
      match l.find? (Item.named name) with
      | some it => .ok (it.record.ent.inode, it.record.ent.type)
      | none => .error (-8) := by
  induction h generalizing n with
  | done =>
    cases n with
    | zero => rfl
    | succ n => rw [lookupLoop, if_pos le_rfl]; rfl
  | @item it l hin hent hok hlen hname hrest ih =>
    have hle := hrest.le
    have hsize := hok.size
    have hmin : direntMinSize = 16 := rfl
    obtain ⟨n, rfl⟩ : ∃ m, n = m + 1 := ⟨n - 1, by omega⟩
    rw [lookupLoop, if_neg (by omega), if_neg (by omega), hent]
    refine (search_step hok (by omega) hname).trans ?_
    rw [ih (by omega), find?_cons]
    cases Item.named name it <;> rfl

theorem Reads.readdirLoop_eq (h : Reads f k size off l) (hn : size - off ≤ n) :
    readdirLoop f k size (nameMax + 1) n off =
      .ok ((l.find? Item.inUse).map fun it =>
        ⟨it.pos + it.record.ent.recordSize, it.record.ent, it.record.name⟩) := by
  induction h generalizing n with
  | done =>
    cases n with
    | zero => rfl
    | succ n => rw [readdirLoop, if_pos le_rfl]; rfl
  | @item it l hin hent hok hlen hname hrest ih =>
    have hle := hrest.le
    have hsize := hok.size
    have hmin : direntMinSize = 16 := rfl
    obtain ⟨n, rfl⟩ : ∃ m, n = m + 1 := ⟨n - 1, by omega⟩
    rw [readdirLoop, if_neg (by omega), if_neg (by omega), hent]
    simp only
    by_cases h0 : it.record.ent.inode = 0
    · rw [if_pos h0, holeStep_eq hsize (by omega)]
      simp only
      rw [ih (by omega), List.find?_cons_of_neg (by simp [Item.inUse, h0])]
    obtain ⟨b, hread, hb⟩ := hname h0
    rw [if_neg h0, if_neg (Reads.not_recordBad hok (by omega) h0), if_neg (by omega), hread,
      List.find?_cons_of_pos (by simp [Item.inUse, h0])]
    simp only [hb, Option.map_some]

theorem Reads.tail {l l' : List Item} (h : Reads f k size off (l ++ it :: l')) :
    Reads f k size (it.pos + it.record.ent.recordSize) l' := by
  induction l generalizing off with
  | nil => cases h with | item _ _ _ _ _ hrest => exact hrest
  | cons _ l ih => cases h with | item _ _ _ _ _ hrest => exact ih hrest

theorem Reads.mem (h : Reads f k size off l) (hit : it ∈ l) :
    it.record.Ok ∧ off ≤ it.pos ∧ it.pos + it.record.ent.recordSize ≤ size := by
  induction h with
  | done => cases hit
  | item hin hent hok hlen hname hrest ih =>
    rcases mem_cons.1 hit with rfl | hit
    · exact ⟨hok, le_rfl, hrest.le⟩
    · obtain ⟨h1, h2, h3⟩ := ih hit
      exact ⟨h1, by omega, h3⟩

theorem Reads.removeLoop_eq {dir : Inode} (h : Reads f k dir.size off l) (hn : dir.size - off ≤ n) :
    removeLoop f k dir name n off =
      match l.find? (Item.named name) with
      | some it => clearEntry f dir it.pos
      | none => (-9, f) := by
  induction h generalizing n with
  | done =>
    cases n with
    | zero => rfl
    | succ n => rw [removeLoop, if_pos le_rfl]; rfl
  | @item it l hin hent hok hlen hname hrest ih =>
    have hle := hrest.le
    have hsize := hok.size
    have hmin : direntMinSize = 16 := rfl
    obtain ⟨n, rfl⟩ : ∃ m, n = m + 1 := ⟨n - 1, by omega⟩
    rw [removeLoop, if_neg (by omega), hent]
    refine (search_step hok (by omega) hname).trans ?_
    rw [ih (by omega), find?_cons]
    cases Item.named name it <;> rfl

end

/-! ## The records of a directory and its entries -/

theorem records_mem_off {hi : Nat} (h : r ∈ records b hi n lo) : r.off < hi := by
  induction n generalizing lo with
  | zero => simp [records] at h
  | succ n ih =>
    rw [records] at h
    split_ifs at h with hle
    · cases h
    rcases mem_cons.1 h with rfl | h
    · exact Nat.not_le.1 hle
    · exact ih h

theorem mem_itemsFrom {data : Nat → Buf} {l : List Nat} (h : it ∈ itemsFrom ss data p l) :
    ∃ j, l[j]? = some it.sec ∧ it.pos = (p + j) * ss + it.record.off ∧ it.record.off < ss ∧
      it.record ∈ records (data it.sec) ss ss 0 := by
  induction l generalizing p with
  | nil => cases h
  | cons s l ih =>
    rw [itemsFrom, mem_append, mem_map] at h
    rcases h with ⟨r, hr, rfl⟩ | h
    · exact ⟨0, rfl, rfl, records_mem_off hr, hr⟩
    obtain ⟨j, hj, hpos, hoff, hrec⟩ := ih h
    refine ⟨j + 1, hj, ?_, hoff, hrec⟩
    rw [hpos]
    ring

theorem filterMap_itemsFrom (ss : Nat) (data : Nat → Buf) (p : Nat) (l : List Nat) :
    (itemsFrom ss data p l).filterMap (fun it => it.record.toEntry) =
      l.flatMap fun s => entriesOf ss (data s) := by
  induction l generalizing p with
  | nil => rfl
  | cons s l ih =>
    rw [itemsFrom, filterMap_append, ih, filterMap_map, flatMap_cons]
    rfl

theorem View.entries_eq (v : View) (ss : Nat) (i : Inode) :
    v.entries ss i = (v.items ss i).filterMap fun it => it.record.toEntry :=
  (filterMap_itemsFrom ss v.data 0 _).symm

/-! ## The calls -/

/-- The inode `k` is a live directory that can be read and written. -/
structure IsDirectory (g : Geo) (v : View) (k : Nat) : Prop where
  low : 1 ≤ k
  high : k ≤ g.ic
  self : (v.ino k).inode = k
  fmt : (v.ino k).fmt = ifdir
  ok : DirOk g v (v.ino k)

section

variable (h : Ready f) (hd : IsDirectory f.geo f.view k)

include h hd

namespace IsDirectory

theorem readDirInode_eq : readDirInode f k = some (f.view.ino k) := by
  rw [readDirInode, h.readInode_ok hd.low hd.high]
  simp [hd.self, hd.fmt]

theorem reads : Reads f k (f.view.ino k).size 0 (f.view.items f.geo.ss (f.view.ino k)) :=
  hd.ok.reads h hd.low hd.high hd.self

variable {name : CString}

theorem lookupName_eq (hname : nameValid name = some n) :
    lookupName f k name =
      match (f.view.items f.geo.ss (f.view.ino k)).find? (Item.named name.bytes) with
      | some it => .ok (it.record.ent.inode, it.record.ent.type)
      | none => .error (-8) := by
  rw [lookupName, h.mounted, hname, hd.readDirInode_eq h]
  exact (hd.reads h).lookupLoop_eq (Nat.sub_le _ _)

theorem removeName_eq (hname : nameValid name = some n) :
    removeName f k name =
      match (f.view.items f.geo.ss (f.view.ino k)).find? (Item.named name.bytes) with
      | some it => clearEntry f (f.view.ino k) it.pos
      | none => (-9, f) := by
  rw [removeName, h.mounted, hname, hd.readDirInode_eq h]
  exact (hd.reads h).removeLoop_eq (Nat.sub_le _ _)

theorem readdir_eq {l : List Item} (hr : Reads f k (f.view.ino k).size off l) :
    readdir f k off (nameMax + 1) = .ok ((l.find? Item.inUse).map fun it =>
      ⟨it.pos + it.record.ent.recordSize, it.record.ent, it.record.name⟩) := by
  rw [readdir, h.mounted, if_neg (by simp [nameMax]), hd.readDirInode_eq h]
  exact hr.readdirLoop_eq (Nat.sub_le _ _)

theorem item_place (hit : it ∈ f.view.items f.geo.ss (f.view.ino k)) :
    it.sec ∈ dirSectors f.geo.ss (f.view.ino k) ∧ it.pos % f.geo.ss = it.record.off ∧
      dirSector (f.view.ino k).extents (it.pos / f.geo.ss) = some it.sec ∧
      it.record ∈ records (f.view.data it.sec) f.geo.ss f.geo.ss 0 := by
  obtain ⟨j, hj, hpos, hoff, hrec⟩ := mem_itemsFrom hit
  have hss : 0 < f.geo.ss := h.sectorSize_pos
  rw [Nat.zero_add] at hpos
  refine ⟨mem_of_getElem? hj, ?_, ?_, hrec⟩
  · rw [hpos, Nat.add_comm, Nat.add_mul_mod_self_right, Nat.mod_eq_of_lt hoff]
  rw [dirSector_eq_locate (hd.ok.area.lt_u64 h), locate_eq_getElem?, hpos, Nat.add_comm,
    Nat.add_mul_div_right _ _ hss, Nat.div_eq_of_lt hoff, Nat.zero_add]
  rw [dirSectors, List.getElem?_take] at hj
  split_ifs at hj
  exact hj

theorem clearEntry_ok (hit : it ∈ f.view.items f.geo.ss (f.view.ino k)) :
    ∃ g, clearEntry f (f.view.ino k) it.pos = (0, g) ∧
      Does f (.raw it.sec (clear (f.view.data it.sec) it.record.off 8)) g := by
  obtain ⟨hsec, hmod, hdir, -⟩ := hd.item_place h hit
  obtain ⟨h1, h2⟩ := hd.ok.area it.sec (mem_of_mem_take hsec)
  obtain ⟨d, hwr, hdo⟩ := wr_data h1 h2 (clear (f.view.data it.sec) it.record.off 8)
  refine ⟨_, ?_, hdo⟩
  have hss : f.dev.sectorSize = f.geo.ss := rfl
  simp only [clearEntry, hss, hdir, hmod, rd_data h1 h2, hwr]

end IsDirectory

end

/-! ## Changing one sector -/

theorem perm_flatMap_of_mem {β : Type} {l : List α} (hl : l.Nodup) {s : α} (hs : s ∈ l)
    {f g : α → List β} (hfg : ∀ t ∈ l, t ≠ s → f t = g t) {e : β} (hperm : (f s).Perm (e :: g s)) :
    (l.flatMap f).Perm (e :: l.flatMap g) := by
  obtain ⟨l₁, l₂, rfl⟩ := append_of_mem hs
  rw [nodup_middle, nodup_cons] at hl
  have h₁ : l₁.flatMap f = l₁.flatMap g := by
    refine flatMap_congr fun t ht => hfg t (by simp [ht]) ?_
    rintro rfl
    exact hl.1 (by simp [ht])
  have h₂ : l₂.flatMap f = l₂.flatMap g := by
    refine flatMap_congr fun t ht => hfg t (by simp [ht]) ?_
    rintro rfl
    exact hl.1 (by simp [ht])
  rw [flatMap_append, flatMap_append, flatMap_cons, flatMap_cons, h₁, h₂]
  exact ((hperm.append_right _).append_left _).trans perm_middle

theorem entriesOf_clear (hb : Chained ss b) (hr : r ∈ records b ss ss 0) {e : Entry}
    (he : r.toEntry = some e) :
    Chained ss (clear b r.off 8) ∧
      (entriesOf ss b).Perm (e :: entriesOf ss (clear b r.off 8)) := by
  obtain ⟨l, hseg⟩ := hb
  rw [hseg.records_eq (by omega)] at hr
  obtain ⟨l₁, l₂, rfl⟩ := append_of_mem hr
  have hcl := hseg.clear
  refine ⟨⟨_, hcl⟩, ?_⟩
  rw [hseg.entriesOf_eq, hcl.entriesOf_eq, entriesIn_append, entriesIn_append]
  have hold : entriesIn (r :: l₂) = e :: entriesIn l₂ := by
    simp [entriesIn, he]
  have hnew : entriesIn (⟨r.off, { r.ent with inode := 0 }, []⟩ :: l₂) = entriesIn l₂ := by
    simp [entriesIn, Rec.toEntry]
  rw [hold, hnew]
  exact perm_middle

theorem mem_records_clear (hb : Chained ss b) {q : Rec} (hr : r ∈ records b ss ss 0)
    (hq : q ∈ records b ss ss 0) (hne : q ≠ r) : q ∈ records (clear b r.off 8) ss ss 0 := by
  obtain ⟨l, hseg⟩ := hb
  rw [hseg.records_eq (by omega)] at hr hq
  obtain ⟨l₁, l₂, rfl⟩ := append_of_mem hr
  rw [hseg.clear.records_eq (by omega)]
  rw [mem_append, mem_cons] at hq ⊢
  tauto

end RixuriOS.Rixfs
