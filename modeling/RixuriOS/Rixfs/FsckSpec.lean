import RixuriOS.Lib.ExceptLoop
import RixuriOS.Rixfs.Fsck

/-!
# What the checks of the checker mean

Each loop of `check_inode`, of the link count and of the allocation count
succeeds exactly when a property of the image holds, and then returns a number
that is described without the loop.
-/

namespace RixuriOS.Rixfs

open ByteCodec CrashStore ExtentList ExceptLoop List

namespace Fs

def inodeAt (f : Fs) (k : Nat) : Inode :=
  match readInode f k with
  | .ok i => i
  | .error _ => Inode.zero

def Live (f : Fs) (k : Nat) : Prop :=
  1 ≤ k ∧ k ≤ f.super.inodeCount ∧ (f.inodeAt k).inode ≠ 0

instance (f : Fs) (k : Nat) : Decidable (f.Live k) := inferInstanceAs (Decidable (_ ∧ _ ∧ _))

def used (f : Fs) (s : Nat) : Prop := bitmapTest f false s = .ok true

end Fs

/-- The entries that repeated calls of `rixfs_readdir` deliver from the offset
`off` on, and whether the calls end with the end of the directory. -/
def dirItems (f : Fs) (ino : Nat) : Nat → Nat → List Dirent × Bool
  | 0, _ => ([], true)
  | n + 1, off =>
    match readdir f ino off (nameMax + 1) with
    | .error _ => ([], false)
    | .ok none => ([], true)
    | .ok (some item) =>
      (item.ent :: (dirItems f ino n item.next).1, (dirItems f ino n item.next).2)

namespace Fs

def entries (f : Fs) (k : Nat) : List Dirent := (dirItems f k ((f.inodeAt k).size + 1) 0).1

def Listable (f : Fs) (k : Nat) : Prop := (dirItems f k ((f.inodeAt k).size + 1) 0).2 = true

def IsDir (f : Fs) (k : Nat) : Prop := (f.inodeAt k).fmt = ifdir

instance (f : Fs) (k : Nat) : Decidable (f.IsDir k) := inferInstanceAs (Decidable (_ = _))

def linkEntries (f : Fs) (k : Nat) : Nat :=
  ((range' 1 f.super.inodeCount).map fun d =>
    if f.Live d ∧ f.IsDir d then (f.entries d).countP (fun e => e.inode = k) else 0).sum

/-- The inode `k` can be reached from the root through directory entries. -/
inductive Reachable (f : Fs) : Nat → Prop where
  | root : Reachable f f.super.rootInode
  | entry {d : Nat} {e : Dirent} :
      Reachable f d → f.IsDir d → e ∈ f.entries d → Reachable f e.inode

end Fs

variable {f : Fs} {d k m n refs' t : Nat} {i : Inode} {ignore : Bool} {l : List Nat}

theorem inodeAt_of_ok (h : readInode f k = .ok i) : f.inodeAt k = i := by
  rw [Fs.inodeAt, h]

/-! ## Loops over directory entries -/

variable {σ : Type} {ino : Nat} {bad : Int} {body : σ → Dirent → Except Int σ} {st st' : σ}

theorem forEntries_eq_ok {off : Nat} :
    forEntries f ino bad body n off st = .ok st' ↔
      (dirItems f ino n off).2 = true ∧ (dirItems f ino n off).1.foldlM body st = .ok st' := by
  induction n generalizing off st with
  | zero => simp [forEntries, dirItems, pure, Except.pure]
  | succ n ih =>
    rw [forEntries, dirItems]
    cases readdir f ino off (nameMax + 1) with
    | error e => simp
    | ok r =>
    cases r with
    | none => simp [pure, Except.pure]
    | some item =>
    simp only [foldlM_cons_eq_ok]
    cases body st item.ent with
    | error e => simp
    | ok st₁ => simp [ih]

theorem overEntries_eq_ok (h : readInode f ino = .ok i) :
    overEntries f ino i bad body st = .ok st' ↔
      f.Listable ino ∧ (f.entries ino).foldlM body st = .ok st' := by
  rw [Fs.Listable, Fs.entries, inodeAt_of_ok h]
  exact forEntries_eq_ok

/-! ## Extents -/

theorem extentOverlap_eq_false {a b : Extent} : extentOverlap a b = false ↔ a.Apart b := by
  unfold extentOverlap Extent.Apart
  split_ifs with h1 h2
  · simp only [true_iff]
    omega
  · rw [decide_eq_false_iff_not]
    omega
  · rw [decide_eq_false_iff_not]
    omega

theorem selfOverlap_eq_false {l : List Extent} :
    selfOverlap l = false ↔ l.Pairwise Extent.Apart := by
  induction l with
  | nil => simp [selfOverlap]
  | cons e l ih =>
    rw [selfOverlap, Bool.or_eq_false_iff, ih, pairwise_cons]
    simp [any_eq_false, extentOverlap_eq_false]

def ApartFrom (f : Fs) (l : List Extent) (k : Nat) : Prop :=
  ∃ i, readInode f k = .ok i ∧ (i.inode ≠ 0 → ∀ a ∈ l, ∀ b ∈ i.extents, a.Apart b)

theorem checkPrior_eq_zero {l : List Extent} {ks : List Nat} :
    checkPrior f l ks = 0 ↔ ∀ k ∈ ks, ApartFrom f l k := by
  induction ks with
  | nil => simp [checkPrior]
  | cons k ks ih =>
    rw [checkPrior, forall_mem_cons, ApartFrom]
    cases readInode f k with
    | error e => simp
    | ok i =>
    have hany : (l.any fun a => i.extents.any (extentOverlap a)) = true ↔
        ¬∀ a ∈ l, ∀ b ∈ i.extents, a.Apart b := by
      simp [← extentOverlap_eq_false]
    simp only [Except.ok.injEq, exists_eq_left']
    by_cases hi : i.inode = 0
    · simp [hi, ih]
    by_cases ho : (l.any fun a => i.extents.any (extentOverlap a)) = true
    · have hno := hany.1 ho
      rw [if_neg hi, if_pos ho]
      exact iff_of_false (by decide) fun h => hno (h.1 hi)
    have hyes := not_not.1 (mt hany.2 ho)
    rw [if_neg hi, if_neg ho, ih]
    exact ⟨fun h => ⟨fun _ => hyes, h⟩, fun h => h.2⟩

theorem checkBits_eq_ok {s refs : Nat} :
    checkBits f ignore n s refs = .ok refs' ↔
      (∀ x ∈ range' s n, bitmapTest f ignore x = .ok true) ∧ refs' = refs + n := by
  induction n generalizing s refs with
  | zero => simp [checkBits, eq_comm]
  | succ n ih =>
    rw [checkBits, List.range'_succ, forall_mem_cons]
    cases bitmapTest f ignore s with
    | error e => simp
    | ok b =>
    cases b with
    | false => simp
    | true =>
      simp only [ih, true_and]
      rw [Nat.add_right_comm refs 1 n, Nat.add_assoc]

def InData (f : Fs) (e : Extent) : Prop :=
  f.super.dataStartSector ≤ e.start ∧ e.start + e.len ≤ f.super.totalSectors

theorem checkExtents_eq_ok {l : List Extent} {t' refs : Nat} (ht : t < 2 ^ 64) :
    checkExtents f ignore l t refs = .ok (t', refs') ↔
      (∀ e ∈ l, e.len ≠ 0 → InData f e) ∧ t + total l < 2 ^ 64 ∧
      (∀ s ∈ blocks l, bitmapTest f ignore s = .ok true) ∧
      t' = t + total l ∧ refs' = refs + total l := by
  induction l generalizing t refs with
  | nil =>
    simp only [checkExtents, total, Nat.add_zero, Except.ok.injEq, Prod.mk.injEq, blocks_nil,
      not_mem_nil, false_imp_iff, implies_true, true_and, ht]
    rw [eq_comm, eq_comm (a := refs)]
  | cons e l ih =>
    rw [checkExtents, forall_mem_cons, blocks_cons, forall_mem_append, total]
    by_cases he : e.len = 0
    · rw [if_pos he, ih ht]
      simp [he]
    rw [if_neg he]
    by_cases hin : InData f e
    · have hb := hin
      unfold InData at hb
      rw [if_neg (by omega)]
      by_cases hbig : t + e.len < 2 ^ 64
      · rw [if_neg (by omega)]
        cases hbits : checkBits f ignore e.len e.start refs with
        | error c =>
          have hno : ¬∀ x ∈ range' e.start e.len, bitmapTest f ignore x = .ok true := by
            intro hall
            rw [checkBits_eq_ok.2 ⟨hall, rfl⟩] at hbits
            cases hbits
          exact iff_of_false (by simp) fun h => hno h.2.2.1.1
        | ok r =>
          obtain ⟨hall, rfl⟩ := checkBits_eq_ok.1 hbits
          simp only [ih hbig, he, not_false_eq_true, hin, implies_true, true_and,
            ← Nat.add_assoc, ne_eq, and_iff_right hall]
      rw [if_pos (by omega)]
      simp only [reduceCtorEq, false_iff]
      rintro ⟨-, h, -⟩
      omega
    have hb := hin
    unfold InData at hb
    rw [if_pos (by omega)]
    simp [he, hin]

/-! ## One inode -/

/-- What `check_inode` checks for the inode `i` in the slot `k`. -/
structure InodeOk (f : Fs) (ignore : Bool) (k : Nat) (i : Inode) : Prop where
  fmt : i.fmt = ifreg ∨ i.fmt = ifdir ∨ i.fmt = iflnk
  self : i.extents.Pairwise Extent.Apart
  prior : ∀ j ∈ range' 1 (k - 1), ApartFrom f i.extents j
  inData : ∀ e ∈ i.extents, e.len ≠ 0 → InData f e
  total : total i.extents < 2 ^ 64
  bits : ∀ s ∈ blocks i.extents, bitmapTest f ignore s = .ok true
  size : i.fmt = ifreg →
    u64 (i.size + (f.dev.sectorSize - 1)) / f.dev.sectorSize ≤ ExtentList.total i.extents
  dir : i.fmt = ifdir → f.Listable k ∧ ∀ e ∈ f.entries k, checkEntry f e = .ok ()

theorem checkInode_eq_ok {refs : Nat} (hread : readInode f k = .ok i) (hi : i.inode ≠ 0) :
    checkInode f ignore k refs = .ok refs' ↔
      InodeOk f ignore k i ∧ refs' = refs + total i.extents := by
  simp only [checkInode, hread, if_neg hi]
  split
  · rename_i hfmt
    refine iff_of_false (by simp) ?_
    rintro ⟨hok, -⟩
    rcases hok.fmt with h | h | h
    · exact hfmt.1 h
    · exact hfmt.2.1 h
    · exact hfmt.2.2 h
  split
  · rename_i hself
    refine iff_of_false (by simp) ?_
    rintro ⟨hok, -⟩
    rw [selfOverlap_eq_false.2 hok.self] at hself
    cases hself
  rename_i hself
  rw [Bool.not_eq_true, selfOverlap_eq_false] at hself
  split
  · rename_i hprior
    exact iff_of_false (by simp) fun h => hprior (checkPrior_eq_zero.2 h.1.prior)
  rename_i hprior
  rw [not_not, checkPrior_eq_zero] at hprior
  cases hext : checkExtents f ignore i.extents 0 refs with
  | error e =>
    refine iff_of_false (by simp) ?_
    rintro ⟨hok, -⟩
    rw [(checkExtents_eq_ok (by decide)).2 ⟨hok.inData, by rw [Nat.zero_add]; exact hok.total,
      hok.bits, rfl, rfl⟩] at hext
    cases hext
  | ok r =>
    obtain ⟨t, refs₁⟩ := r
    obtain ⟨hin, htot, hbits, rfl, rfl⟩ := (checkExtents_eq_ok (by decide)).1 hext
    rw [Nat.zero_add] at htot ⊢
    simp only
    split
    · rename_i hsize
      exact iff_of_false (by simp) fun h => absurd (h.1.size hsize.1) (Nat.not_le.2 hsize.2)
    rename_i hsize
    have hsize' : i.fmt = ifreg →
        u64 (i.size + (f.dev.sectorSize - 1)) / f.dev.sectorSize ≤ total i.extents :=
      fun h => Nat.le_of_not_lt fun hlt => hsize ⟨h, hlt⟩
    have hmk : ∀ hdir : i.fmt = ifdir → f.Listable k ∧ ∀ e ∈ f.entries k, checkEntry f e = .ok (),
        InodeOk f ignore k i :=
      fun hdir => ⟨by tauto, hself, hprior, hin, htot, hbits, hsize', hdir⟩
    split_ifs with hdir
    · cases hover : overEntries f k i (-7) (fun _ e => checkEntry f e) () with
      | error e =>
        refine iff_of_false (by simp) ?_
        rintro ⟨hok, -⟩
        rw [(overEntries_eq_ok hread).2 ⟨(hok.dir hdir).1,
          (foldlM_unit_eq_ok (u := ())).2 (hok.dir hdir).2⟩] at hover
        cases hover
      | ok u =>
        obtain ⟨hlist, hall⟩ := (overEntries_eq_ok hread).1 hover
        have hok := hmk fun _ => ⟨hlist, foldlM_unit_eq_ok.1 hall⟩
        rw [Except.ok.injEq, and_iff_right hok]
        exact eq_comm
    · rw [and_iff_right (hmk fun h => absurd h hdir), Except.ok.injEq]
      exact eq_comm

/-! ## Link counts -/

theorem countEntries_eq_ok {l : List Dirent} (hn : n < 2 ^ 32) :
    l.foldlM (fun n (e : Dirent) =>
        if e.inode = t then (if n = 2 ^ 32 - 1 then .error (-3) else .ok (n + 1)) else .ok n) n =
      (.ok m : Except Int Nat) ↔
      m = n + l.countP (fun e => e.inode = t) ∧ m < 2 ^ 32 := by
  induction l generalizing n with
  | nil =>
    simp only [foldlM_nil, pure, Except.pure, Except.ok.injEq, countP_nil, Nat.add_zero]
    constructor
    · rintro rfl
      exact ⟨rfl, hn⟩
    · rintro ⟨rfl, -⟩
      rfl
  | cons e l ih =>
    rw [foldlM_cons_eq_ok]
    by_cases he : e.inode = t
    · by_cases hmax : n = 2 ^ 32 - 1
      · rw [countP_cons_of_pos (by simpa using he)]
        simp only [he, hmax, if_true, reduceCtorEq, false_and, exists_false, false_iff]
        omega
      simp only [he, if_true, if_neg hmax, Except.ok.injEq, exists_eq_left']
      rw [ih (by omega), countP_cons_of_pos (by simpa using he), Nat.add_right_comm,
        Nat.add_assoc]
    · simp only [if_neg he, Except.ok.injEq, exists_eq_left']
      rw [ih hn, countP_cons_of_neg (by simpa using he)]

def Fs.linksIn (f : Fs) (t d : Nat) : Nat :=
  if f.Live d ∧ f.IsDir d then (f.entries d).countP (fun e => e.inode = t) else 0

def SlotListable (f : Fs) (d : Nat) : Prop :=
  (∃ i, readInode f d = .ok i) ∧ (f.Live d → f.IsDir d → f.Listable d)

theorem countLinksIn_eq_ok (hd : d ∈ range' 1 f.super.inodeCount) (hn : n < 2 ^ 32) :
    countLinksIn f t n d = .ok m ↔ SlotListable f d ∧ m = n + f.linksIn t d ∧ m < 2 ^ 32 := by
  have hd' := mem_range'_1.1 hd
  rw [countLinksIn, SlotListable]
  cases hread : readInode f d with
  | error e => simp
  | ok i =>
  have hlive : f.Live d ↔ i.inode ≠ 0 := by
    rw [Fs.Live, inodeAt_of_ok hread]
    exact ⟨fun h => h.2.2, fun h => ⟨by omega, by omega, h⟩⟩
  have hdir : f.IsDir d ↔ i.fmt = ifdir := by rw [Fs.IsDir, inodeAt_of_ok hread]
  simp only [Fs.linksIn, hlive, hdir]
  by_cases hc : i.inode = 0 ∨ i.fmt ≠ ifdir
  · have hno : ¬(i.inode ≠ 0 ∧ i.fmt = ifdir) := by tauto
    rw [if_pos hc, if_neg hno, Nat.add_zero, Except.ok.injEq]
    constructor
    · rintro rfl
      exact ⟨⟨⟨i, rfl⟩, by tauto⟩, rfl, hn⟩
    · rintro ⟨-, rfl, -⟩
      rfl
  have hyes : i.inode ≠ 0 ∧ i.fmt = ifdir := by tauto
  rw [if_neg hc, if_pos hyes, overEntries_eq_ok hread, countEntries_eq_ok hn]
  constructor
  · rintro ⟨h, rest⟩
    exact ⟨⟨⟨i, rfl⟩, fun _ _ => h⟩, rest⟩
  · rintro ⟨⟨-, h⟩, rest⟩
    exact ⟨h hyes.1 hyes.2, rest⟩

theorem countLinks_eq_ok (hl : l ⊆ range' 1 f.super.inodeCount) (hn : n < 2 ^ 32) :
    l.foldlM (countLinksIn f t) n = .ok m ↔
      (∀ d ∈ l, SlotListable f d) ∧ m = n + (l.map (f.linksIn t)).sum ∧ m < 2 ^ 32 := by
  induction l generalizing n with
  | nil =>
    simp only [foldlM_nil, pure, Except.pure, Except.ok.injEq, map_nil, sum_nil,
      Nat.add_zero, not_mem_nil, false_imp_iff, implies_true, true_and]
    constructor
    · rintro rfl
      exact ⟨rfl, hn⟩
    · rintro ⟨rfl, -⟩
      rfl
  | cons d l ih =>
    have hd := hl mem_cons_self
    have hl' : l ⊆ range' 1 f.super.inodeCount := fun x hx => hl (mem_cons_of_mem _ hx)
    rw [foldlM_cons_eq_ok, forall_mem_cons, map_cons, sum_cons]
    constructor
    · rintro ⟨n', h₁, h₂⟩
      obtain ⟨hs, rfl, hlt⟩ := (countLinksIn_eq_ok hd hn).1 h₁
      obtain ⟨hall, rfl, hm⟩ := (ih hl' hlt).1 h₂
      exact ⟨⟨hs, hall⟩, by rw [Nat.add_assoc], hm⟩
    rintro ⟨⟨hs, hall⟩, rfl, hm⟩
    have hlt : n + f.linksIn t d < 2 ^ 32 := by omega
    exact ⟨_, (countLinksIn_eq_ok hd hn).2 ⟨hs, rfl, hlt⟩,
      (ih hl' hlt).2 ⟨hall, by rw [Nat.add_assoc], hm⟩⟩

theorem inodeLinkCount_eq_ok :
    inodeLinkCount f t = .ok m ↔
      (∀ d ∈ range' 1 f.super.inodeCount, SlotListable f d) ∧
      m = f.linkEntries t ∧ m < 2 ^ 32 := by
  rw [inodeLinkCount, countLinks_eq_ok (List.Subset.refl _) (by decide), Nat.zero_add]
  rfl

def LinksOk (f : Fs) (k : Nat) : Prop :=
  ∃ i, readInode f k = .ok i ∧ (i.inode ≠ 0 → k ≠ f.super.rootInode →
    (∀ d ∈ range' 1 f.super.inodeCount, SlotListable f d) ∧
    f.linkEntries k ≠ 0 ∧ f.linkEntries k < 2 ^ 32 ∧
    (i.fmt ≠ ifdir → i.links = f.linkEntries k))

theorem fsckLinks_eq_zero : fsckLinks f l = 0 ↔ ∀ k ∈ l, LinksOk f k := by
  induction l with
  | nil => simp [fsckLinks]
  | cons k l ih =>
    rw [fsckLinks, forall_mem_cons, LinksOk]
    cases readInode f k with
    | error e => simp
    | ok i =>
    simp only [Except.ok.injEq, exists_eq_left']
    split_ifs with hskip
    · rw [ih]
      exact ⟨fun h => ⟨fun h0 hr => absurd hskip (not_or.2 ⟨h0, hr⟩), h⟩, fun h => h.2⟩
    obtain ⟨h0, hr⟩ := not_or.1 hskip
    cases hcount : inodeLinkCount f k with
    | error e =>
      refine iff_of_false (by simp) ?_
      rintro ⟨h, -⟩
      obtain ⟨hall, -, hlt, -⟩ := h h0 hr
      rw [inodeLinkCount_eq_ok.2 ⟨hall, rfl, hlt⟩] at hcount
      cases hcount
    | ok m =>
      obtain ⟨hall, rfl, hlt⟩ := inodeLinkCount_eq_ok.1 hcount
      simp only
      split
      · rename_i hz
        exact iff_of_false (by simp) fun h => (h.1 h0 hr).2.1 hz
      rename_i hz
      split_ifs with hbad
      · exact iff_of_false (by simp) fun h => hbad.2 ((h.1 h0 hr).2.2.2 hbad.1)
      rw [ih]
      refine ⟨fun h => ⟨fun _ _ => ⟨hall, hz, hlt, fun hd => ?_⟩, h⟩, fun h => h.2⟩
      exact not_not.1 fun hne => hbad ⟨hd, hne⟩

theorem repairLinks_eq_zero : repairLinks f l = 0 ↔ fsckLinks f l = 0 := by
  induction l with
  | nil => simp [fsckLinks, repairLinks]
  | cons k l ih =>
    rw [fsckLinks, repairLinks]
    cases readInode f k with
    | error e => simp
    | ok i =>
    by_cases hskip : i.inode = 0 ∨ k = f.super.rootInode
    · simp only [if_pos hskip, ih]
    simp only [if_neg hskip]
    cases inodeLinkCount f k with
    | error e => simp
    | ok m =>
    by_cases hz : m = 0
    · simp [hz]
    by_cases hbad : i.fmt ≠ ifdir ∧ i.links ≠ m
    · simp [hz, hbad]
    · simp only [hz, hbad, or_self, if_false, ih]

/-! ## The allocation count -/

theorem countAllocated_eq_ok :
    countAllocated f false = .ok m ↔
      f.super.dataStartSector < f.super.totalSectors ∧
      (∀ s ∈ range' f.super.dataStartSector
        (f.super.totalSectors - f.super.dataStartSector), ∃ u, bitmapTest f false s = .ok u) ∧
      m = (range' f.super.dataStartSector
        (f.super.totalSectors - f.super.dataStartSector)).countP
          (fun s => bitmapTest f false s = .ok true) := by
  rw [countAllocated]
  split_ifs with hle
  · exact iff_of_false (by simp) fun h => absurd h.1 (Nat.not_lt.2 hle)
  rw [and_iff_right (Nat.lt_of_not_le hle)]
  generalize range' f.super.dataStartSector
    (f.super.totalSectors - f.super.dataStartSector) = l
  rw [foldlM_eq_ok (fun s => ∃ u, bitmapTest f false s = .ok u)
    (fun n s => if decide (bitmapTest f false s = .ok true) = true then n + 1 else n),
    foldl_count_eq, Nat.zero_add]
  intro s _ n n'
  cases bitmapTest f false s with
  | error e => simp
  | ok b => cases b <;> simp [eq_comm]

/-! ## Reachability -/

section Reach

def SeenSound (f : Fs) (seen : Seen) : Prop := ∀ k, seen k = true → f.Reachable k

variable {st st' : Seen × Bool}

theorem visitEntry_sound (hd : f.Reachable d) (hdir : f.IsDir d) {e : Dirent} (he : e ∈ f.entries d)
    (h : visitEntry f st e = .ok st') (hs : SeenSound f st.1) : SeenSound f st'.1 := by
  unfold visitEntry at h
  split_ifs at h with h1 h2
  · cases h
    exact hs
  cases h
  intro k hk
  by_cases hke : k = e.inode
  · rw [hke]
    exact Fs.Reachable.entry hd hdir he
  · exact hs k (by simpa [Function.update_of_ne hke] using hk)

theorem visitEntries_sound (hd : f.Reachable d) (hdir : f.IsDir d) {l : List Dirent}
    (hl : l ⊆ f.entries d) (h : l.foldlM (visitEntry f) st = .ok st') (hs : SeenSound f st.1) :
    SeenSound f st'.1 := by
  induction l generalizing st with
  | nil =>
    cases h
    exact hs
  | cons e l ih =>
    obtain ⟨st₁, h₁, h₂⟩ := foldlM_cons_eq_ok.1 h
    exact ih (fun x hx => hl (mem_cons_of_mem _ hx)) h₂
      (visitEntry_sound hd hdir (hl mem_cons_self) h₁ hs)

theorem visitDir_sound (h : visitDir f st d = .ok st') (hs : SeenSound f st.1) :
    SeenSound f st'.1 := by
  unfold visitDir at h
  split_ifs at h with hd
  · cases h
    exact hs
  rw [Bool.not_eq_false] at hd
  cases hread : readInode f d with
  | error e => simp [hread] at h
  | ok i =>
  simp only [hread] at h
  split_ifs at h with hfmt
  · cases h
    exact hs
  obtain ⟨-, hfold⟩ := (overEntries_eq_ok hread).1 h
  have hdir : f.IsDir d := by
    rw [Fs.IsDir, inodeAt_of_ok hread]
    exact not_not.1 hfmt
  exact visitEntries_sound (hs d hd) hdir (List.Subset.refl _) hfold hs

theorem visitDirs_sound (h : l.foldlM (visitDir f) st = .ok st') (hs : SeenSound f st.1) :
    SeenSound f st'.1 := by
  induction l generalizing st with
  | nil =>
    cases h
    exact hs
  | cons d l ih =>
    obtain ⟨st₁, h₁, h₂⟩ := foldlM_cons_eq_ok.1 h
    exact ih h₂ (visitDir_sound h₁ hs)

variable {seen : Seen}

theorem reachLoop_sound {seen' : Seen} (h : reachLoop f n seen = .ok seen')
    (hs : SeenSound f seen) : SeenSound f seen' := by
  induction n generalizing seen with
  | zero =>
    cases h
    exact hs
  | succ n ih =>
    rw [reachLoop] at h
    cases hpass : (range' 1 f.super.inodeCount).foldlM (visitDir f) (seen, false) with
    | error e => simp [hpass] at h
    | ok st =>
    have hst := visitDirs_sound hpass hs
    simp only [hpass] at h
    split_ifs at h
    · exact ih h hst
    · cases h
      exact hst

theorem allSeen_eq_ok :
    allSeen f seen l = .ok () ↔
      ∀ k ∈ l, ∃ i, readInode f k = .ok i ∧ (i.inode ≠ 0 → seen k = true) := by
  induction l with
  | nil => simp [allSeen]
  | cons k l ih =>
    rw [allSeen, forall_mem_cons]
    cases readInode f k with
    | error e => simp
    | ok i =>
    simp only [Except.ok.injEq, exists_eq_left']
    split_ifs with hbad
    · refine iff_of_false (by simp) fun h => ?_
      have := h.1 hbad.1
      simp [hbad.2] at this
    rw [ih]
    refine ⟨fun h => ⟨fun hi => ?_, h⟩, fun h => h.2⟩
    rw [← Bool.not_eq_false]
    exact fun hs => hbad ⟨hi, hs⟩

/-- A checker that finds nothing unreachable is right. -/
theorem reachable_of_checkReachable (h : checkReachable f = .ok ()) (hk : f.Live k) :
    f.Reachable k := by
  unfold checkReachable at h
  split_ifs at h with hic
  cases hloop : reachLoop f (f.super.inodeCount + 1) (fun k => k = f.super.rootInode) with
  | error e => simp [hloop] at h
  | ok seen =>
  rw [hloop] at h
  have hsound : SeenSound f seen := by
    refine reachLoop_sound hloop ?_
    intro j hj
    rw [of_decide_eq_true hj]
    exact Fs.Reachable.root
  obtain ⟨i, hread, hseen⟩ := allSeen_eq_ok.1 h k (mem_range'_1.2 ⟨hk.1, by
    have := hk.2.1
    omega⟩)
  refine hsound k (hseen ?_)
  have hne := hk.2.2
  rwa [inodeAt_of_ok hread] at hne

end Reach

/-! ## The whole checker -/

def SlotOk (f : Fs) (ignore : Bool) (k : Nat) : Prop :=
  ∃ i, readInode f k = .ok i ∧ (i.inode ≠ 0 → i.inode = k ∧ InodeOk f ignore k i)

def Fs.refs (f : Fs) (k : Nat) : Nat :=
  if (f.inodeAt k).inode = 0 then 0 else total (f.inodeAt k).extents

def fsckCount (f : Fs) (st : Nat × Nat) (k : Nat) : Nat × Nat :=
  (st.1 + (if (f.inodeAt k).inode = 0 then 0 else 1), st.2 + f.refs k)

theorem foldl_fsckCount_snd (f : Fs) (l : List Nat) (st : Nat × Nat) :
    (l.foldl (fsckCount f) st).2 = st.2 + (l.map f.refs).sum := by
  induction l generalizing st with
  | nil => rfl
  | cons k l ih => rw [foldl_cons, ih, map_cons, sum_cons, fsckCount, Nat.add_assoc]

theorem slot_eq_ok {refs : Nat} {α : Type} {st x : α} {e₁ e₂ : Int} {code : Int → Int}
    {count : Nat → α} :
    (match readInode f k with
      | .error _ => .error e₁
      | .ok i =>
        if i.inode = 0 then .ok st
        else if i.inode ≠ k then .error e₂
        else
          match checkInode f ignore k refs with
          | .error e => .error (code e)
          | .ok r => .ok (count r) : Except Int α) = .ok x ↔
      SlotOk f ignore k ∧
        x = if (f.inodeAt k).inode = 0 then st else count (refs + total (f.inodeAt k).extents) := by
  rw [SlotOk]
  cases hread : readInode f k with
  | error e => simp
  | ok i =>
  simp only [inodeAt_of_ok hread, Except.ok.injEq, exists_eq_left']
  by_cases h0 : i.inode = 0
  · simp [h0, eq_comm]
  rw [if_neg h0]
  split_ifs with hk
  · exact iff_of_false (by simp) fun h => hk (h.1 h0).1
  rw [not_not] at hk
  cases hcheck : checkInode f ignore k refs with
  | error e =>
    refine iff_of_false (by simp) fun h => ?_
    rw [(checkInode_eq_ok hread h0).2 ⟨(h.1 h0).2, rfl⟩] at hcheck
    cases hcheck
  | ok r =>
    obtain ⟨hok, rfl⟩ := (checkInode_eq_ok hread h0).1 hcheck
    simp [hk, hok, eq_comm]

theorem fsckInode_eq_ok {st st' : Nat × Nat} :
    fsckInode f st k = .ok st' ↔ SlotOk f false k ∧ st' = fsckCount f st k := by
  refine slot_eq_ok.trans (and_congr_right fun _ => ?_)
  rw [fsckCount, Fs.refs]
  split_ifs <;> rfl

theorem repairInode_eq_ok {refs : Nat} :
    repairInode f refs k = .ok refs' ↔ SlotOk f true k ∧ refs' = refs + f.refs k := by
  refine slot_eq_ok.trans (and_congr_right fun _ => ?_)
  rw [Fs.refs]
  split_ifs <;> rfl

/-- What the checker and the repair check apart from the bitmap. -/
structure StructOk (f : Fs) (ignore : Bool) : Prop where
  rootPos : f.super.rootInode ≠ 0
  rootLe : f.super.rootInode ≤ f.super.inodeCount
  slots : ∀ k ∈ range' 1 f.super.inodeCount, SlotOk f ignore k
  root : rootOk f = true
  reach : checkReachable f = .ok ()
  links : ∀ k ∈ range' 1 f.super.inodeCount, LinksOk f k

def Fs.allRefs (f : Fs) : Nat := ((range' 1 f.super.inodeCount).map f.refs).sum

theorem rootRange_of_structOk (h : StructOk f ignore) :
    ¬(f.super.rootInode = 0 ∨ f.super.inodeCount < f.super.rootInode) := by
  have h1 := h.rootPos
  have h2 := h.rootLe
  omega

theorem fsckMounted_isOk :
    (∃ r, fsckMounted f = .ok r) ↔ StructOk f false ∧ countAllocated f false = .ok f.allRefs := by
  have hinodes := fun st => foldlM_eq_ok (SlotOk f false) (fsckCount f)
    (l := range' 1 f.super.inodeCount) (fun k _ st st' => fsckInode_eq_ok) (0, 0) st
  simp only [fsckMounted]
  constructor
  · rintro ⟨r, h⟩
    have hroot : ¬(f.super.rootInode = 0 ∨ f.super.inodeCount < f.super.rootInode) := by
      intro hroot
      rw [if_pos hroot] at h
      cases h
    rw [if_neg hroot] at h
    cases hfold : (range' 1 f.super.inodeCount).foldlM (fsckInode f) (0, 0) with
    | error e => simp [hfold] at h
    | ok st =>
    obtain ⟨hslots, hst⟩ := (hinodes st).1 hfold
    have hrefs : st.2 = f.allRefs := by
      rw [hst, foldl_fsckCount_snd, Nat.zero_add]
      rfl
    simp only [hfold] at h
    split_ifs at h with h1 h2 h3 h4
    refine ⟨⟨by omega, by omega, hslots, by simpa using h1, not_not.1 h2,
      fsckLinks_eq_zero.1 (not_not.1 h4)⟩, ?_⟩
    rw [← hrefs]
    exact not_not.1 h3
  rintro ⟨h, hcount⟩
  have hfold := (hinodes _).2 ⟨h.slots, rfl⟩
  have hrefs := foldl_fsckCount_snd f (range' 1 f.super.inodeCount) (0, 0)
  rw [Nat.zero_add] at hrefs
  rw [if_neg (rootRange_of_structOk h), hfold]
  simp only [h.root, h.reach, hrefs, fsckLinks_eq_zero.2 h.links]
  rw [show ((range' 1 f.super.inodeCount).map f.refs).sum = f.allRefs from rfl, hcount]
  simp

theorem repairValidateStructure_eq_ok : repairValidateStructure f = .ok () ↔ StructOk f true := by
  have hinodes := fun st => foldlM_eq_ok (SlotOk f true) (fun n k => n + f.refs k)
    (l := range' 1 f.super.inodeCount) (fun k _ st st' => repairInode_eq_ok) 0 st
  rw [repairValidateStructure]
  constructor
  · intro h
    have hroot : ¬(f.super.rootInode = 0 ∨ f.super.inodeCount < f.super.rootInode) := by
      intro hroot
      rw [if_pos hroot] at h
      cases h
    rw [if_neg hroot] at h
    cases hfold : (range' 1 f.super.inodeCount).foldlM (repairInode f) 0 with
    | error e => simp [hfold] at h
    | ok n =>
    obtain ⟨hslots, -⟩ := (hinodes n).1 hfold
    rw [hfold] at h
    split_ifs at h with h1 h2
    rw [not_or, Bool.not_eq_false, not_not] at h1
    exact ⟨by omega, by omega, hslots, h1.1, h1.2,
      fsckLinks_eq_zero.1 (repairLinks_eq_zero.1 (not_not.1 h2))⟩
  intro h
  have hfold := (hinodes _).2 ⟨h.slots, rfl⟩
  rw [if_neg (rootRange_of_structOk h), hfold]
  rw [h.root, h.reach, repairLinks_eq_zero.2 (fsckLinks_eq_zero.2 h.links)]
  simp

end RixuriOS.Rixfs
