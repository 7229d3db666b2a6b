import RixuriOS.Rixfs.Directory

/-!
# The records of a directory sector

A sector of a directory is a chain of records that ends exactly at the end of
the sector. `Seg b lo hi l` says that the bytes from `lo` to `hi` are the records
`l`. It depends on these bytes only, so that a write into one record can be
followed through its segment. The writers of the directory code keep the chain,
and they change the entries of the sector by one: `dirPlace` and `dirTailFit` add
one, clearing the inode of a record removes one.
-/

namespace RixuriOS.Rixfs

open ByteCodec CrashStore ExtentList List

structure Entry where
  ino : Nat
  type : Nat
  name : List Byte
  deriving DecidableEq

/-- A record of a sector: its offset, its header, and its name if it is in use. -/
structure Rec where
  off : Nat
  ent : Dirent
  name : List Byte

def recAt (b : Buf) (off : Nat) : Rec :=
  let e := loadDirent b off
  ⟨off, e, if e.inode = 0 then [] else slice b (off + direntMinSize) e.nameLength⟩

def Rec.toEntry (r : Rec) : Option Entry :=
  if r.ent.inode = 0 then none else some ⟨r.ent.inode, r.ent.type, r.name⟩

/-- A record that the readers accept, with a name that is a C string. -/
structure Rec.Ok (r : Rec) : Prop where
  size : direntMinSize ≤ r.ent.recordSize
  name : r.ent.inode ≠ 0 → r.ent.nameLength ≤ r.ent.recordSize - direntMinSize
  clean : ∀ c ∈ r.name, c ≠ 0

/-- The bytes from `lo` to `hi` are the records `l`. -/
inductive Seg (b : Buf) : Nat → Nat → List Rec → Prop where
  | nil (lo : Nat) : Seg b lo lo []
  | cons {lo hi : Nat} {l : List Rec} :
      (recAt b lo).Ok → Seg b (lo + (recAt b lo).ent.recordSize) hi l →
      Seg b lo hi (recAt b lo :: l)

def entriesIn (l : List Rec) : List Entry := l.filterMap Rec.toEntry

variable {b : Buf} {lo hi off n ss a z : Nat} {l l' : List Rec} {r : Rec} {e : Entry}

@[simp] theorem recAt_off (b : Buf) (off : Nat) : (recAt b off).off = off := rfl

@[simp] theorem recAt_ent (b : Buf) (off : Nat) : (recAt b off).ent = loadDirent b off := rfl

theorem entriesIn_append (l l' : List Rec) : entriesIn (l ++ l') = entriesIn l ++ entriesIn l' :=
  filterMap_append

theorem Seg.le (h : Seg b lo hi l) : lo ≤ hi := by
  induction h with
  | nil => exact le_rfl
  | cons _ _ ih => omega

theorem Seg.append {mid : Nat} (h : Seg b lo mid l) (h' : Seg b mid hi l') :
    Seg b lo hi (l ++ l') := by
  induction h with
  | nil => exact h'
  | cons hok _ ih => exact .cons hok (ih h')

theorem Seg.split (h : Seg b lo hi (l ++ l')) : ∃ mid, Seg b lo mid l ∧ Seg b mid hi l' := by
  induction l generalizing lo with
  | nil => exact ⟨lo, .nil lo, h⟩
  | cons r l ih =>
    rw [cons_append] at h
    cases h with
    | cons hok hrest =>
      obtain ⟨mid, h1, h2⟩ := ih hrest
      exact ⟨mid, .cons hok h1, h2⟩

theorem Seg.single (h : Seg b lo hi [r]) : r = recAt b lo ∧ r.Ok ∧ lo + r.ent.recordSize = hi := by
  cases h with
  | cons hok hrest =>
    cases hrest with
    | nil => exact ⟨rfl, hok, rfl⟩

theorem Seg.of_ok (h : (recAt b lo).Ok) (hhi : lo + (recAt b lo).ent.recordSize = hi) :
    Seg b lo hi [recAt b lo] := by
  subst hhi
  exact .cons h (.nil _)

theorem Seg.unique (h : Seg b lo hi l) (h' : Seg b lo hi l') : l = l' := by
  induction h generalizing l' with
  | nil =>
    cases h' with
    | nil => rfl
    | cons hok hrest =>
    have := hrest.le
    have := hok.size
    simp only [direntMinSize] at *
    omega
  | cons hok hrest ih =>
    cases h' with
    | nil =>
      have := hrest.le
      have := hok.size
      simp only [direntMinSize] at *
      omega
    | cons _ hrest' => rw [ih hrest']

theorem loadDirent_congr {c : Buf} (h : ∀ i, off ≤ i → i < off + direntMinSize → b i = c i) :
    loadDirent b off = loadDirent c off := by
  have hl : ∀ k n, k + n ≤ 16 → load b (off + k) n = load c (off + k) n := by
    intro k n hk
    apply load_congr
    intro i hi hi'
    exact h i (by omega) (by simp only [direntMinSize]; omega)
  have h0 : load b off 8 = load c off 8 := hl 0 8 (by omega)
  simp only [loadDirent, h0, hl _ _ (show 8 + 2 ≤ 16 by omega),
    hl _ _ (show 10 + 1 ≤ 16 by omega), hl _ _ (show 11 + 1 ≤ 16 by omega),
    hl _ _ (show 12 + 4 ≤ 16 by omega)]

variable {b' : Buf} {i : Nat} {name : List Byte}

theorem recAt_congr (hok : (recAt b off).Ok)
    (h : ∀ i, off ≤ i → i < off + (recAt b off).ent.recordSize → b i = b' i) :
    recAt b' off = recAt b off := by
  have hsize := hok.size
  have hent : loadDirent b' off = loadDirent b off :=
    (loadDirent_congr fun i hi hi' => h i hi (by omega)).symm
  simp only [recAt, hent]
  by_cases h0 : (loadDirent b off).inode = 0
  · simp [h0]
  have hname := hok.name h0
  simp only [recAt_ent] at *
  simp only [h0, if_false, Rec.mk.injEq, true_and]
  apply slice_congr
  intro i hi hi'
  exact (h i (by omega) (by omega)).symm

theorem Seg.congr (hseg : Seg b lo hi l) (h : ∀ i, lo ≤ i → i < hi → b i = b' i) :
    Seg b' lo hi l := by
  induction hseg with
  | nil lo => exact .nil lo
  | @cons lo hi l hok hrest ih =>
    have hle := hrest.le
    have hrec : recAt b' lo = recAt b lo :=
      recAt_congr hok fun i hi hi' => h i hi (by omega)
    rw [← hrec] at hok ⊢
    refine .cons hok ?_
    rw [hrec]
    exact ih fun i hi hi' => h i (by omega) hi'

/-! ## The records as a function -/

def records (b : Buf) (hi : Nat) : Nat → Nat → List Rec
  | 0, _ => []
  | n + 1, lo =>
    if hi ≤ lo then [] else recAt b lo :: records b hi n (lo + (recAt b lo).ent.recordSize)

theorem Seg.records_eq (h : Seg b lo hi l) (hn : hi - lo ≤ n) : records b hi n lo = l := by
  induction h generalizing n with
  | nil lo =>
    cases n with
    | zero => rfl
    | succ n => rw [records, if_pos le_rfl]
  | @cons lo hi l hok hrest ih =>
    have hle := hrest.le
    have hsize := hok.size
    rw [direntMinSize] at hsize
    cases n with
    | zero => omega
    | succ n =>
      rw [records, if_neg (by omega), ih (by omega)]

def entriesOf (ss : Nat) (b : Buf) : List Entry := entriesIn (records b ss ss 0)

def Chained (ss : Nat) (b : Buf) : Prop := ∃ l, Seg b 0 ss l

theorem Seg.entriesOf_eq (h : Seg b 0 ss l) : entriesOf ss b = entriesIn l := by
  rw [entriesOf, h.records_eq (by omega)]

/-! ## Removing an entry -/

theorem loadDirent_clear (b : Buf) (off : Nat) :
    loadDirent (clear b off 8) off = { loadDirent b off with inode := 0 } := by
  simp only [loadDirent, load_clear_same]
  rw [load_clear_disjoint _ (by omega), load_clear_disjoint _ (by omega),
    load_clear_disjoint _ (by omega), load_clear_disjoint _ (by omega)]

theorem recAt_clear (b : Buf) (off : Nat) :
    recAt (clear b off 8) off = ⟨off, { loadDirent b off with inode := 0 }, []⟩ := by
  simp [recAt, loadDirent_clear]

/-- Clearing the inode of a record makes a hole of the same size of it. -/
theorem Seg.clear (h : Seg b lo hi (l ++ r :: l')) :
    Seg (ByteCodec.clear b r.off 8) lo hi
      (l ++ ⟨r.off, { r.ent with inode := 0 }, []⟩ :: l') := by
  obtain ⟨mid, h1, h2⟩ := h.split
  cases h2 with
  | cons hok hrest =>
    have hsize := hok.size
    rw [direntMinSize] at hsize
    have hout : ∀ i, i < mid ∨ mid + (recAt b mid).ent.recordSize ≤ i →
        b i = ByteCodec.clear b mid 8 i := by
      intro i hi
      rw [clear_of_not_mem]
      omega
    refine (h1.congr fun i _ hi => hout i (.inl hi)).append ?_
    rw [recAt_off, recAt_ent, ← recAt_clear]
    have hrs : (recAt (ByteCodec.clear b mid 8) mid).ent.recordSize =
        (recAt b mid).ent.recordSize := by rw [recAt_clear, recAt_ent]
    refine .cons ⟨?_, ?_, ?_⟩ ?_
    · rw [hrs]
      exact hok.size
    · rw [recAt_clear]
      simp
    · rw [recAt_clear]
      simp
    · rw [hrs]
      exact hrest.congr fun i hi _ => hout i (.inr hi)

/-! ## Writing a record -/

theorem loadDirent_dirWriteAt (b : Buf) (at' ino rs type : Nat) (name : List Byte) :
    loadDirent (dirWriteAt b at' ino rs type name) at' =
      ⟨ino % 2 ^ 64, rs % 2 ^ 16, type % 2 ^ 8, name.length % 2 ^ 8, load b (at' + 12) 4⟩ := by
  have hsplice : ∀ k n c, k + n ≤ 16 →
      load (splice c (at' + direntMinSize) name) (at' + k) n = load c (at' + k) n := by
    intro k n c hk
    apply load_splice_disjoint
    rw [direntMinSize]
    omega
  have h0 := fun c => hsplice 0 8 c (by omega)
  rw [Nat.add_zero] at h0
  simp only [loadDirent, dirWriteAt, h0, hsplice _ _ _ (show 8 + 2 ≤ 16 by omega),
    hsplice _ _ _ (show 10 + 1 ≤ 16 by omega), hsplice _ _ _ (show 11 + 1 ≤ 16 by omega),
    hsplice _ _ _ (show 12 + 4 ≤ 16 by omega), Dirent.mk.injEq]
  refine ⟨?_, ?_, ?_, ?_, ?_⟩
  · rw [load_store_disjoint _ _ (by omega), load_store_disjoint _ _ (by omega),
      load_store_disjoint _ _ (by omega), load_store_same]
    norm_num
  · rw [load_store_disjoint _ _ (by omega), load_store_disjoint _ _ (by omega), load_store_same]
    norm_num
  · rw [load_store_disjoint _ _ (by omega), load_store_same]
    norm_num
  · rw [load_store_same]
    norm_num
  · rw [load_store_disjoint _ _ (by omega), load_store_disjoint _ _ (by omega),
      load_store_disjoint _ _ (by omega), load_store_disjoint _ _ (by omega)]

theorem dirWriteAt_outside (b : Buf) (at' ino rs type : Nat) (name : List Byte)
    (hi : i < at' ∨ at' + (direntMinSize + name.length) ≤ i) :
    dirWriteAt b at' ino rs type name i = b i := by
  rw [direntMinSize] at hi
  rw [dirWriteAt, splice_of_not_mem (by simp only [direntMinSize]; omega)]
  rcases hi with hi | hi
  · rw [store_of_lt (by omega), store_of_lt (by omega), store_of_lt (by omega),
      store_of_lt (by omega)]
  · rw [store_of_ge (by omega), store_of_ge (by omega), store_of_ge (by omega),
      store_of_ge (by omega)]

structure Entry.Fits (e : Entry) : Prop where
  pos : e.ino ≠ 0
  ino : e.ino < 2 ^ 64
  type : e.type < 2 ^ 8
  name : e.name.length ≤ nameMax
  clean : ∀ c ∈ e.name, c ≠ 0

def Entry.need (e : Entry) : Nat := direntMinSize + e.name.length

theorem recAt_dirWriteAt (he : e.Fits) (b : Buf) (at' : Nat) (hrs : n < 2 ^ 16) :
    recAt (dirWriteAt b at' e.ino n e.type e.name) at' =
      ⟨at', ⟨e.ino, n, e.type, e.name.length, load b (at' + 12) 4⟩, e.name⟩ := by
  have hname : e.name.length < 2 ^ 8 := by
    have := he.name
    rw [nameMax] at this
    omega
  have hload : loadDirent (dirWriteAt b at' e.ino n e.type e.name) at' =
      ⟨e.ino, n, e.type, e.name.length, load b (at' + 12) 4⟩ := by
    rw [loadDirent_dirWriteAt, Nat.mod_eq_of_lt he.ino, Nat.mod_eq_of_lt hrs,
      Nat.mod_eq_of_lt he.type, Nat.mod_eq_of_lt hname]
  simp only [recAt, hload, he.pos, if_false]
  rw [dirWriteAt, slice_splice_same]

theorem seg_dirWriteAt (he : e.Fits) (b : Buf) (hhi : z < 2 ^ 16) (hfit : a + e.need ≤ z) :
    ∃ r, Seg (dirWriteAt b a e.ino (z - a) e.type e.name) a z [r] ∧ r.toEntry = some e := by
  have hrec := recAt_dirWriteAt he b a (n := z - a) (by omega)
  have hneed : direntMinSize + e.name.length ≤ z - a := by
    rw [Entry.need] at hfit
    omega
  refine ⟨_, Seg.of_ok ⟨?_, ?_, ?_⟩ ?_, ?_⟩
  · rw [hrec]
    exact le_trans (Nat.le_add_right _ _) hneed
  · rw [hrec]
    intro _
    exact Nat.le_sub_of_add_le' hneed
  · rw [hrec]
    exact he.clean
  · rw [hrec]
    rw [Entry.need] at hfit
    exact Nat.add_sub_of_le (by omega)
  · rw [hrec]
    simp [Rec.toEntry, he.pos]

theorem recAt_hole (b : Buf) (at' : Nat) (hn : n < 2 ^ 16) (h16 : direntMinSize ≤ n) :
    (recAt (store (ByteCodec.clear b at' n) (at' + 8) 2 n) at').ent.inode = 0 ∧
      (recAt (store (ByteCodec.clear b at' n) (at' + 8) 2 n) at').ent.recordSize = n := by
  rw [direntMinSize] at h16
  rw [recAt_ent, loadDirent]
  constructor
  · rw [load_store_disjoint _ _ (by omega), load_eq_zero_iff]
    intro i hi hi'
    exact clear_of_mem hi (by omega)
  · rw [load_store_same]
    exact Nat.mod_eq_of_lt hn

theorem seg_hole (b : Buf) (hhi : z < 2 ^ 16) (hle : a + direntMinSize ≤ z) :
    ∃ r, Seg (store (ByteCodec.clear b a (z - a)) (a + 8) 2 (z - a)) a z [r] ∧
      r.toEntry = none := by
  obtain ⟨hino, hrs⟩ := recAt_hole b a (n := z - a) (by omega) (by omega)
  refine ⟨_, Seg.of_ok ⟨?_, ?_, ?_⟩ ?_, ?_⟩
  · rw [hrs]
    omega
  · intro hne
    exact absurd hino hne
  · rw [recAt_ent] at hino
    simp [recAt, hino]
  · rw [hrs]
    omega
  · rw [Rec.toEntry]
    rw [if_pos hino]

theorem dirPlace_outside (b : Buf) {at' : Nat} (ino type : Nat)
    (hfit : at' + (direntMinSize + name.length) ≤ hi) (hi' : i < at' ∨ hi ≤ i) :
    dirPlace b at' (hi - at') ino type name i = b i := by
  rw [dirPlace]
  split_ifs with hleft
  · simp only [direntMinSize] at *
    have hst : ∀ c v, store c (at' + (16 + name.length) + 8) 2 v i = c i := by
      intro c v
      rcases hi' with h | h
      · exact store_of_lt (by omega)
      · exact store_of_ge (by omega)
    rw [hst, clear_of_not_mem (by omega)]
    exact dirWriteAt_outside _ _ _ _ _ _ (by simp only [direntMinSize]; omega)
  · exact dirWriteAt_outside _ _ _ _ _ _ (by omega)

/-- A record placed into the bytes from `a` to `z` leaves a segment with this
entry. -/
theorem seg_dirPlace (he : e.Fits) (b : Buf) (hhi : z < 2 ^ 16) (hfit : a + e.need ≤ z) :
    ∃ l, Seg (dirPlace b a (z - a) e.ino e.type e.name) a z l ∧ entriesIn l = [e] := by
  have hneed : e.need = direntMinSize + e.name.length := rfl
  rw [dirPlace, ← hneed]
  split_ifs with hleft
  · have hmid : z - a - e.need = z - (a + e.need) := by omega
    obtain ⟨r, hr, hre⟩ := seg_dirWriteAt he b (a := a) (z := a + e.need) (by omega) le_rfl
    obtain ⟨q, hq, hqe⟩ := seg_hole (dirWriteAt b a e.ino e.need e.type e.name)
      (a := a + e.need) hhi (by omega)
    rw [Nat.add_sub_cancel_left] at hr
    rw [hmid]
    refine ⟨[r] ++ [q], (hr.congr fun i hi hi' => ?_).append hq, ?_⟩
    · rw [store_of_lt (by omega), clear_of_not_mem (by omega)]
    · simp [entriesIn, hre, hqe]
  · obtain ⟨r, hr, hre⟩ := seg_dirWriteAt he b hhi hfit
    exact ⟨[r], hr, by simp [entriesIn, hre]⟩

theorem recAt_shrink {o : Nat} (hn : n < 2 ^ 16) :
    recAt (store b (o + 8) 2 n) o =
      ⟨o, { loadDirent b o with recordSize := n },
        if (loadDirent b o).inode = 0 then []
        else slice b (o + direntMinSize) (loadDirent b o).nameLength⟩ := by
  have hload : loadDirent (store b (o + 8) 2 n) o =
      { loadDirent b o with recordSize := n } := by
    rw [loadDirent, Dirent.mk.injEq]
    refine ⟨load_store_disjoint _ _ (by omega), ?_, load_store_disjoint _ _ (by omega),
      load_store_disjoint _ _ (by omega), load_store_disjoint _ _ (by omega)⟩
    rw [load_store_same]
    exact Nat.mod_eq_of_lt hn
  rw [recAt, hload]
  by_cases h0 : (loadDirent b o).inode = 0
  · simp [h0]
  simp only [h0, if_false, Rec.mk.injEq, true_and]
  apply slice_congr
  intro i hi hi'
  rw [direntMinSize] at hi hi'
  exact store_of_ge (by omega)

theorem seg_shrink (hok : (recAt b lo).Ok) (h0 : (recAt b lo).ent.inode ≠ 0)
    (hhi : lo + (direntMinSize + (recAt b lo).ent.nameLength) = z) (hlt : z < 2 ^ 16) :
    ∃ r, Seg (store b (lo + 8) 2 (z - lo)) lo z [r] ∧ r.toEntry = (recAt b lo).toEntry := by
  have hn : z - lo < 2 ^ 16 := by omega
  have hrec := recAt_shrink (b := b) (o := lo) hn
  rw [recAt_ent] at h0 hhi
  rw [if_neg h0] at hrec
  refine ⟨_, Seg.of_ok ⟨?_, ?_, ?_⟩ ?_, ?_⟩
  · rw [hrec]
    change direntMinSize ≤ z - lo
    omega
  · rw [hrec]
    intro _
    change (loadDirent b lo).nameLength ≤ z - lo - direntMinSize
    omega
  · have hclean := hok.clean
    rw [hrec]
    simpa [recAt, h0] using hclean
  · rw [hrec]
    change lo + (z - lo) = z
    omega
  · rw [hrec]
    simp [Rec.toEntry, recAt, h0]

/-! ## The tail of a sector -/

/-- The sector `b'` is a chain with the entries of `b` and the entry `e`. -/
structure AddsEntry (ss : Nat) (e : Entry) (b b' : Buf) : Prop where
  chained : Chained ss b'
  entries : entriesOf ss b' = entriesOf ss b ++ [e]

theorem tailPlace_spec (he : e.Fits) (hss : ss < 2 ^ 16) (h : Seg b 0 ss (l ++ [r])) :
    tailPlace b e.ino e.type e.name r.off r.ent = .full ∨
      ∃ b', tailPlace b e.ino e.type e.name r.off r.ent = .staged b' ∧ AddsEntry ss e b b' := by
  obtain ⟨mid, hl, hr⟩ := h.split
  obtain ⟨rfl, hok, hend⟩ := hr.single
  have hneed : e.need = direntMinSize + e.name.length := rfl
  have hold : entriesOf ss b = entriesIn l ++ entriesIn [recAt b mid] := by
    rw [h.entriesOf_eq, entriesIn_append]
  -- whatever is written behind `mid` keeps the records before it
  have hkeep : ∀ {b' : Buf} {l' : List Rec}, (∀ i, i < mid → b i = b' i) → Seg b' mid ss l' →
      entriesIn l' = entriesIn [recAt b mid] ++ [e] → AddsEntry ss e b b' := by
    intro b' l' hb hseg hent
    have hall : Seg b' 0 ss (l ++ l') := (hl.congr fun i _ hi => hb i hi).append hseg
    refine ⟨⟨_, hall⟩, ?_⟩
    rw [hall.entriesOf_eq, entriesIn_append, hent, hold, append_assoc]
  simp only [tailPlace, recAt_off, ← hneed]
  split
  · rename_i h0
    split_ifs with hsmall
    · exact .inl rfl
    have hrs : (recAt b mid).ent.recordSize = ss - mid := by omega
    obtain ⟨l', hseg, hent⟩ := seg_dirPlace he b hss (a := mid) (by omega)
    refine .inr ⟨_, rfl, ?_⟩
    rw [hrs]
    refine hkeep (fun i hi => ?_) hseg ?_
    · exact (dirPlace_outside b _ _ (by omega) (.inl hi)).symm
    rw [hent]
    simp only [entriesIn, filterMap_cons, Rec.toEntry, if_pos h0]
    rfl
  rename_i h0
  have hname := hok.name h0
  have hsize := hok.size
  set tru := direntMinSize + (recAt b mid).ent.nameLength with htru
  have htle : tru ≤ (recAt b mid).ent.recordSize := by omega
  rw [if_neg (by omega)]
  split_ifs with hsmall
  · exact .inl rfl
  have hrs : (recAt b mid).ent.recordSize - tru = ss - (mid + tru) := by omega
  obtain ⟨q, hq, hqe⟩ := seg_shrink hok h0 (z := mid + tru) rfl (by omega)
  rw [Nat.add_sub_cancel_left] at hq
  obtain ⟨l', hseg, hent⟩ := seg_dirPlace he (store b (mid + 8) 2 tru) hss
    (a := mid + tru) (by omega)
  refine .inr ⟨_, rfl, ?_⟩
  rw [hrs]
  have hfit : mid + tru + (direntMinSize + e.name.length) ≤ ss := by omega
  have hplace := fun i hi => dirPlace_outside (store b (mid + 8) 2 tru) e.ino e.type hfit
    (i := i) (.inl hi)
  refine hkeep (fun i hi => ?_) ((hq.congr fun i _ hi => (hplace i hi).symm).append hseg) ?_
  · rw [hplace i (by omega), store_of_lt (by omega)]
  · rw [entriesIn_append, hent]
    simp only [entriesIn, filterMap_cons, hqe]

/-- The loop of `dir_tail_fit` reaches the end of the chain and goes on with its
last record. -/
theorem tailLoop_eq {ino type : Nat} (h : Seg b off ss l) (hn : ss - off < n) (lastOff : Nat)
    (last : Dirent) (have' : Bool) :
    tailLoop b ss ino type name n off lastOff last have' =
      tailPlace b ino type name (l.getLastD ⟨lastOff, last, []⟩).off
        (l.getLastD ⟨lastOff, last, []⟩).ent := by
  induction h generalizing n lastOff last have' with
  | nil lo =>
    obtain ⟨n, rfl⟩ : ∃ m, n = m + 1 := ⟨n - 1, by omega⟩
    rw [tailLoop, if_pos le_rfl, if_neg (by simp)]
    rfl
  | @cons lo hi l hok hrest ih =>
    obtain ⟨n, rfl⟩ : ∃ m, n = m + 1 := ⟨n - 1, by omega⟩
    have hle := hrest.le
    have hsize := hok.size
    have hname := hok.name
    have hmin : direntMinSize = 16 := rfl
    rw [recAt_ent] at hle hsize hname
    have hin : ¬((loadDirent b lo).inode ≠ 0 ∧
        (loadDirent b lo).recordSize - direntMinSize < (loadDirent b lo).nameLength) := by
      rintro ⟨h1, h2⟩
      have := hname h1
      omega
    rw [tailLoop]
    simp only []
    rw [if_neg (by omega), if_neg (by omega), if_neg (by omega), if_neg (by omega), if_neg hin,
      ← recAt_ent, ih (by rw [recAt_ent]; omega)]
    cases l with
    | nil => rfl
    | cons r l => rfl

theorem dirTailFit_spec (he : e.Fits) (hpos : 0 < ss) (hss : ss < 2 ^ 16) (h : Chained ss b) :
    dirTailFit b ss e.ino e.type e.name = .full ∨
      ∃ b', dirTailFit b ss e.ino e.type e.name = .staged b' ∧ AddsEntry ss e b b' := by
  obtain ⟨l, hseg⟩ := h
  obtain ⟨l, r, rfl⟩ : ∃ l' r, l = l' ++ [r] := by
    rcases eq_nil_or_concat l with rfl | ⟨l', r, rfl⟩
    · cases hseg
      omega
    · exact ⟨l', r, by simp⟩
  rw [dirTailFit]
  split_ifs with hsmall
  · exact .inl rfl
  · rw [tailLoop_eq hseg (by omega)]
    simpa using tailPlace_spec he hss hseg

/-! ## Sectors without entries -/

/-- A sector that `dir_append` takes for unused has no entry. -/
theorem entriesOf_of_unused (h : Chained ss b) (hu : sectorUnused b ss) : entriesOf ss b = [] := by
  obtain ⟨l, hseg⟩ := h
  obtain ⟨h0, hrest⟩ := hu
  rw [hseg.entriesOf_eq]
  cases hseg with
  | nil => rfl
  | cons hok hseg =>
  have hsize := hok.size
  have hle := hseg.le
  have hrs : (recAt b 0).ent.recordSize = load b 8 2 := rfl
  have hino : (loadDirent b 0).inode = 0 := h0
  rw [direntMinSize] at hsize
  rcases hrest with hrest | hrest
  · rw [Nat.zero_add, hrs, hrest] at hseg
    have hnil := hseg.unique (.nil _)
    rw [hnil]
    simp [entriesIn, Rec.toEntry, hino]
  have hz : load b 8 2 = 0 := by
    rw [load_eq_zero_iff]
    intro i hi hi'
    exact hrest i (by omega) (by omega)
  omega

end RixuriOS.Rixfs
