import RixuriOS.Rixfs.Listing

/-!
# What the allocators do

An allocator returns a sector whose bit was clear and sets it, or fails and
changes nothing. `append_extent` adds one block to an extent list, and the loops
of `rixfs_truncate` set and clear the bits of exactly the blocks that they add to
the list or take from it.
-/

namespace RixuriOS.Rixfs

open ByteCodec CrashStore ExtentList List Option

variable {l l' : List Extent}

structure Free (g : Geo) (v : View) (s : Nat) : Prop where
  low : g.ds ≤ s
  high : s < g.tot
  clear : v.bit s = false

/-- The result of an allocator: a free sector, whose bit is now set, or an error. -/
inductive Takes (f : Fs) : Except Int Nat × Fs → Prop where
  | ok {s : Nat} {g : Fs} : Free f.geo f.view s → Effects f [.bit s true] g → Takes f (.ok s, g)
  | error {e : Int} {g : Fs} : Effects f [] g → Takes f (.error e, g)

variable {s : Nat} {f : Fs}

section

variable (h : Ready f)

include h

theorem Ready.firstFree_some {l : List Nat} (hs : firstFree f l = .ok (some s)) :
    s ∈ l ∧ (s < f.geo.tot → f.view.bit s = false) := by
  induction l with
  | nil => simp [firstFree] at hs
  | cons t l ih =>
    rw [firstFree] at hs
    cases hget : bitGet f t with
    | error e => simp [hget] at hs
    | ok b =>
    cases b with
    | true =>
      rw [hget] at hs
      exact ⟨mem_cons_of_mem _ (ih hs).1, (ih hs).2⟩
    | false =>
      rw [hget] at hs
      cases hs
      refine ⟨mem_cons_self, fun ht => ?_⟩
      rw [h.bitGet_ok ht] at hget
      exact Except.ok.inj hget

/-- Setting the bit of a sector that a scan has found. Past the end of the device
`bit` refuses. -/
theorem Ready.bit_cases : (∃ e, e ≠ 0 ∧ bit f s true = (e, f)) ∨
    s < f.geo.tot ∧ ∃ g, bit f s true = (0, g) ∧ Does f (.bit s true) g := by
  by_cases hs : s < f.geo.tot
  · exact .inr ⟨hs, h.bit_ok hs true⟩
  have htot := h.total
  refine .inl ⟨-1, by decide, ?_⟩
  rw [bit]
  exact if_pos (.inr (by rw [htot]; exact Nat.not_lt.1 hs))

theorem Ready.takeSector_takes (h1 : f.geo.ds ≤ s) (h2 : s < f.geo.tot → f.view.bit s = false) :
    Takes f (takeSector f s) := by
  rcases h.bit_cases (s := s) with ⟨e, he, hbit⟩ | ⟨hs, g, hbit, hdo⟩
  · simp only [takeSector, hbit, he, ne_eq, not_false_eq_true, if_true]
    exact .error (.nil f)
  · rw [takeSector, hbit]
    exact .ok ⟨h1, hs, h2 hs⟩ (.cons hdo (.hint (u64 (s + 1)) g.metaHint (.nil _)))

theorem Ready.scan_takes {l : List Nat} (hl : ∀ s ∈ l, f.geo.ds ≤ s)
    {other : Except Int Nat × Fs} {take : Nat → Except Int Nat × Fs} (hother : Takes f other)
    (htake : ∀ s, f.geo.ds ≤ s → (s < f.geo.tot → f.view.bit s = false) → Takes f (take s)) :
    Takes f (match firstFree f l with
      | .error e => (.error e, f)
      | .ok none => other
      | .ok (some s) => take s) := by
  cases hscan : firstFree f l with
  | error e => exact .error (.nil f)
  | ok r =>
  cases r with
  | none => exact hother
  | some s =>
    obtain ⟨hmem, hbit⟩ := h.firstFree_some hscan
    exact htake s (hl s hmem) hbit

theorem Ready.allocSec_takes : Takes f (allocSec f) := by
  have hds : f.geo.ds = f.super.dataStartSector := rfl
  refine h.scan_takes ?_ (.error (.nil f)) fun s => h.takeSector_takes
  intro s hs
  simp only [scanOrder, mem_append, mem_range'_1] at hs
  split_ifs at hs <;> omega

omit h in
theorem mem_nearSectors (hs : s ∈ nearSectors f l) : f.geo.ds ≤ s ∧ s < f.super.totalSectors := by
  rw [nearSectors, mem_flatMap] at hs
  obtain ⟨e, -, hs⟩ := hs
  split_ifs at hs
  · cases hs
  · exact of_decide_eq_true (mem_filter.1 hs).2

theorem Ready.allocSecNear_takes (l : List Extent) : Takes f (allocSecNear f l) :=
  h.scan_takes (fun _ hs => (mem_nearSectors hs).1) h.allocSec_takes fun _ => h.takeSector_takes

theorem Ready.allocTop_takes : Takes f (allocTop f) := by
  refine h.scan_takes ?_ h.allocSec_takes fun s hs hb => ?_
  · intro s hs
    rw [topOrder, mem_reverse, mem_range'_1] at hs
    exact hs.1
  rcases h.bit_cases (s := s) with ⟨e, he, hbit⟩ | ⟨ht, g, hbit, hdo⟩
  · simp only [hbit, he, ne_eq, not_false_eq_true, if_true]
    exact .error (.nil f)
  · rw [hbit]
    exact .ok ⟨hs, ht, hb ht⟩ (.cons hdo (.hint g.super.freeHint s (.nil _)))

end

theorem Takes.of_hinted {free metaHint : Nat} {r : Except Int Nat × Fs}
    (h : Takes (f.hinted free metaHint) r) : Takes f r := by
  cases h with
  | ok hs he => exact .ok hs (.hint free metaHint he)
  | error he => exact .error (.hint free metaHint he)

theorem Ready.allocSecTop_takes (h : Ready f) (l : List Extent) : Takes f (allocSecTop f l) := by
  rw [allocSecTop, h.mounted, if_neg (by simp)]
  refine h.scan_takes (fun _ hs => (mem_nearSectors hs).1) ?_ fun _ => h.takeSector_takes
  rw [clampMetaHint]
  split_ifs
  · exact Takes.of_hinted (h.hinted _ _).allocTop_takes
  · exact h.allocTop_takes

/-! ## Adding a block to an extent list -/

section

variable {n : Nat} (hn : n < 2 ^ 64) (hs : s < n)

include hn hs

/-- `append_extent` puts the sector behind the first extent that ends there. -/
theorem extendExtent_perm (hl : ∀ t ∈ blocks l, t < n) (h : extendExtent s l = some l') :
    (blocks l').Perm (s :: blocks l) ∧ l'.length = l.length := by
  induction l generalizing l' with
  | nil => cases h
  | cons e l ih =>
    have hend := fun h0 => end_le_of_blocks hl (e := e) mem_cons_self h0
    rw [extendExtent] at h
    split_ifs at h with h0 h1
    · cases h
      simp [blocks_cons, h0]
    · cases h
      rw [u64, Nat.mod_eq_of_lt (by omega)] at h1
      have hlen : u64 (e.len + 1) = e.len + 1 := Nat.mod_eq_of_lt (by omega)
      refine ⟨?_, rfl⟩
      rw [blocks_cons, blocks_cons, hlen, List.range'_concat, append_assoc, Nat.one_mul, h1]
      exact perm_middle
    obtain ⟨l₁, hl₁, rfl⟩ := map_eq_some_iff.1 h
    obtain ⟨hperm, hlen⟩ := ih (fun t ht => hl t (by rw [blocks_cons]; simp [ht])) hl₁
    rw [blocks_cons, blocks_cons]
    exact ⟨(hperm.append_left _).trans perm_middle, by simp [hlen]⟩

theorem prependExtent_perm (hl : ∀ t ∈ blocks l, t < n) (h : prependExtent s l = some l') :
    (blocks l').Perm (s :: blocks l) ∧ l'.length = l.length := by
  induction l generalizing l' with
  | nil => cases h
  | cons e l ih =>
    have hend := fun h0 => end_le_of_blocks hl (e := e) mem_cons_self h0
    rw [prependExtent] at h
    split_ifs at h with h0
    · cases h
      have hstart : e.start = s + 1 := by
        rw [h0.2]
        exact Nat.mod_eq_of_lt (by omega)
      have hlen : u64 (e.len + 1) = e.len + 1 := Nat.mod_eq_of_lt (by omega)
      refine ⟨?_, rfl⟩
      rw [blocks_cons, blocks_cons, hlen, List.range'_succ, hstart]
      rfl
    obtain ⟨l₁, hl₁, rfl⟩ := map_eq_some_iff.1 h
    obtain ⟨hperm, hlen⟩ := ih (fun t ht => hl t (by rw [blocks_cons]; simp [ht])) hl₁
    rw [blocks_cons, blocks_cons]
    exact ⟨(hperm.append_left _).trans perm_middle, by simp [hlen]⟩

/-- `append_extent` adds the sector to the blocks and keeps the slots. -/
theorem appendExtent_perm (hl : ∀ t ∈ blocks l, t < n) (h : appendExtent l s = some l') :
    (blocks l').Perm (s :: blocks l) ∧ l'.length = l.length := by
  rw [appendExtent] at h
  cases hext : extendExtent s l with
  | some l₁ =>
    rw [hext] at h
    cases h
    exact extendExtent_perm hn hs hl hext
  | none =>
    rw [hext] at h
    exact prependExtent_perm hn hs hl h

end

def ExtentsFit (l : List Extent) : Prop := ∀ e ∈ l, e.start < 2 ^ 64 ∧ e.len < 2 ^ 64

section

variable (hs : s < 2 ^ 64) (hl : ExtentsFit l)

include hs hl

theorem extendExtent_fit (h : extendExtent s l = some l') : ExtentsFit l' := by
  induction l generalizing l' with
  | nil => cases h
  | cons e l ih =>
    obtain ⟨he, hl⟩ := forall_mem_cons.1 hl
    rw [extendExtent] at h
    split_ifs at h
    · cases h
      exact forall_mem_cons.2 ⟨⟨hs, by norm_num⟩, hl⟩
    · cases h
      exact forall_mem_cons.2 ⟨⟨he.1, Nat.mod_lt _ (by norm_num)⟩, hl⟩
    · obtain ⟨l₁, hl₁, rfl⟩ := map_eq_some_iff.1 h
      exact forall_mem_cons.2 ⟨he, ih hl hl₁⟩

theorem prependExtent_fit (h : prependExtent s l = some l') : ExtentsFit l' := by
  induction l generalizing l' with
  | nil => cases h
  | cons e l ih =>
    obtain ⟨he, hl⟩ := forall_mem_cons.1 hl
    rw [prependExtent] at h
    split_ifs at h
    · cases h
      exact forall_mem_cons.2 ⟨⟨hs, Nat.mod_lt _ (by norm_num)⟩, hl⟩
    · obtain ⟨l₁, hl₁, rfl⟩ := map_eq_some_iff.1 h
      exact forall_mem_cons.2 ⟨he, ih hl hl₁⟩

theorem appendExtent_fit (h : appendExtent l s = some l') : ExtentsFit l' := by
  rw [appendExtent] at h
  cases hext : extendExtent s l with
  | some l₁ =>
    rw [hext] at h
    cases h
    exact extendExtent_fit hs hl hext
  | none =>
    rw [hext] at h
    exact prependExtent_fit hs hl h

end

/-! ## Clearing bits -/

def setAll (b : Bool) (l : List Nat) : List Effect := l.map (Effect.bit · b)

theorem setAll_append (b : Bool) (l l' : List Nat) : setAll b (l ++ l') = setAll b l ++ setAll b l' :=
  map_append

@[simps -fullyApplied ino data]
def View.mark (v : View) (b : Bool) (l : List Nat) : View :=
  { v with bit := fun s => if s ∈ l then b else v.bit s }

theorem after_setAll (v : View) (b : Bool) (l : List Nat) : v.after (setAll b l) = v.mark b l := by
  induction l generalizing v with
  | nil => simp [setAll, View.mark]
  | cons s l ih =>
    have hcons : setAll b (s :: l) = .bit s b :: setAll b l := rfl
    rw [hcons, View.after_cons, ih]
    refine View.ext rfl ?_ rfl
    funext t
    by_cases hts : t = s
    · simp [hts, View.apply, View.mark]
    · simp [hts, View.apply, View.mark]

theorem Ready.clearBits_ok (h : Ready f) {l : List Nat} (hl : ∀ s ∈ l, s < f.geo.tot) :
    ∃ g, clearBits f l = (0, g) ∧ Effects f (setAll false l) g := by
  induction l generalizing f with
  | nil => exact ⟨f, rfl, .nil f⟩
  | cons s l ih =>
    obtain ⟨g, hbit, hdo⟩ := h.bit_ok (hl s (by simp)) false
    obtain ⟨hg, hgeo, -⟩ := hdo.spec h
    obtain ⟨g', hrest, heff⟩ := ih hg fun t ht => by rw [hgeo]; exact hl t (by simp [ht])
    refine ⟨g', ?_, .cons hdo heff⟩
    rw [clearBits, hbit]
    exact hrest

theorem InArea.extentSectors_eq (h : Ready f) (hl : InArea f.geo l) : extentSectors l = blocks l :=
  extentSectors_eq_blocks fun _ he h0 => end_le_of_blocks (hl.lt_u64 h) he h0

theorem Ready.freeInodeData_ok (h : Ready f) {i : Inode} (hi : InArea f.geo i.extents) :
    ∃ g, freeInodeData f i = (0, g) ∧ Effects f (setAll false (blocks i.extents)) g := by
  rw [freeInodeData, hi.extentSectors_eq h]
  exact h.clearBits_ok fun s hs => (hi s hs).2

/-! ## Growing -/

structure Adds (f : Fs) (l : List Extent) (ns : List Nat) (l' : List Extent) (g : Fs) : Prop where
  free : ∀ s ∈ ns, Free f.geo f.view s
  nodup : ns.Nodup
  perm : (blocks l').Perm (ns ++ blocks l)
  slots : l'.length = l.length
  fit : ExtentsFit l'
  effects : Effects f (setAll true ns) g

theorem Adds.refl (f : Fs) (hl : ExtentsFit l) : Adds f l [] l f where
  free := by simp
  nodup := .nil
  perm := .refl _
  slots := rfl
  fit := hl
  effects := .nil f

theorem Adds.inArea {g : Fs} {ns : List Nat} (h : Adds f l ns l' g) (hl : InArea f.geo l) :
    InArea f.geo l' := by
  intro s hs
  rcases mem_append.1 (h.perm.mem_iff.1 hs) with hs | hs
  · exact ⟨(h.free s hs).low, (h.free s hs).high⟩
  · exact hl s hs

theorem Adds.cons {f₁ g : Fs} (h : Ready f) {l₁ : List Extent} {ns : List Nat} (hl : InArea f.geo l)
    (hs : Free f.geo f.view s) (he : Effects f [.bit s true] f₁) (happ : appendExtent l s = some l₁)
    (hrest : Adds f₁ l₁ ns l' g) : Adds f l (s :: ns) l' g := by
  obtain ⟨-, hgeo, hview⟩ := he.spec h
  obtain ⟨hperm, hslots⟩ := appendExtent_perm h.tot_lt hs.high (fun t ht => (hl t ht).2) happ
  have hfree : ∀ t ∈ ns, t ≠ s ∧ Free f.geo f.view t := by
    intro t ht
    obtain ⟨h1, h2, h3⟩ := hrest.free t ht
    rw [hgeo] at h1 h2
    rw [hview] at h3
    have hne : t ≠ s := by
      rintro rfl
      simp [View.apply, View.setBit] at h3
    refine ⟨hne, h1, h2, ?_⟩
    simpa [View.apply, View.setBit, hne] using h3
  refine ⟨?_, ?_, ?_, hrest.slots.trans hslots, hrest.fit, ?_⟩
  · exact forall_mem_cons.2 ⟨hs, fun t ht => (hfree t ht).2⟩
  · exact nodup_cons.2 ⟨fun hmem => (hfree s hmem).1 rfl, hrest.nodup⟩
  · exact hrest.perm.trans ((hperm.append_left ns).trans perm_middle)
  · exact he.append hrest.effects

/-- Writes without an effect: none, or setting and clearing the bit of a free
sector. -/
def Neutral (g : Geo) (v : View) (es : List Effect) : Prop :=
  es = [] ∨ ∃ s, Free g v s ∧ es = [.bit s true, .bit s false]

theorem Neutral.after_eq {g : Geo} {v : View} {es : List Effect} (h : Neutral g v es) :
    v.after es = v := by
  rcases h with rfl | ⟨s, hs, rfl⟩
  · rfl
  · refine View.ext rfl ?_ rfl
    simp [View.apply, View.setBit, ← hs.clear]

/-- What the loop of `grow` does. When it fails, some blocks may have been added
already, and the rollback starts from there. -/
theorem Ready.growLoop_spec (h : Ready f) (hl : InArea f.geo l) (hfit : ExtentsFit l)
    (n added : Nat) :
    (∃ ns l' g, growLoop n added l f = (.ok l', g) ∧ ns.length = n ∧ Adds f l ns l' g) ∨
      ∃ ns l' g es g' e, growLoop n added l f =
          (.error e, rollback g' (rollbackOrder l') (added + ns.length)) ∧
        ns.length < n ∧ Adds f l ns l' g ∧ Neutral g.geo g.view es ∧ Effects g es g' := by
  induction n generalizing f l added with
  | zero => exact .inl ⟨[], l, f, rfl, rfl, .refl f hfit⟩
  | succ n ih =>
    rw [growLoop]
    have htakes := h.allocSecNear_takes l
    generalize allocSecNear f l = r at htakes
    cases htakes with
    | error he =>
      exact .inr ⟨[], l, f, [], _, _, rfl, Nat.succ_pos n, .refl f hfit, .inl rfl, he⟩
    | @ok s f₁ hs he =>
    obtain ⟨h₁, hgeo, hview⟩ := he.spec h
    cases happ : appendExtent l s with
    | none =>
      obtain ⟨f₂, hbit, hdo⟩ := h₁.bit_ok (s := s) (by
        have := hs.high
        rw [← hgeo] at this
        exact this) false
      refine .inr ⟨[], l, f, _, f₂, -2, ?_, Nat.succ_pos n, .refl f hfit,
        .inr ⟨s, hs, rfl⟩, he.append hdo.effects⟩
      simp only [happ, hbit, length_nil, Nat.add_zero]
    | some l₁ =>
      have hl₁ : InArea f₁.geo l₁ := by
        rw [hgeo]
        intro t ht
        have hperm := (appendExtent_perm h.tot_lt hs.high (fun t ht => (hl t ht).2) happ).1
        rcases mem_cons.1 (hperm.mem_iff.1 ht) with rfl | ht
        · exact ⟨hs.low, hs.high⟩
        · exact hl t ht
      have hfit₁ : ExtentsFit l₁ :=
        appendExtent_fit (lt_trans hs.high h.tot_lt) hfit happ
      simp only [happ]
      rcases ih h₁ hl₁ hfit₁ (added + 1) with
        ⟨ns, l', g, hrun, hlen, hadds⟩ | ⟨ns, l', g, es, g', e, hrun, hlen, hadds, hes, heff⟩
      · exact .inl ⟨s :: ns, l', g, hrun, by simp [hlen], hadds.cons h hl hs he happ⟩
      refine .inr ⟨s :: ns, l', g, es, g', e, ?_, by simpa using hlen,
        hadds.cons h hl hs he happ, hes, heff⟩
      rw [hrun, length_cons, Nat.add_right_comm, Nat.add_assoc]

theorem Ready.rollback_effects (h : Ready f) {l : List Nat} (n : Nat)
    (hl : ∀ s ∈ l, f.geo.ds ≤ s ∧ s < f.geo.tot) :
    Effects f (setAll false (l.take n)) (rollback f l n) := by
  induction l generalizing f n with
  | nil =>
    cases n with
    | zero => exact .nil f
    | succ n => exact .nil f
  | cons s l ih =>
    cases n with
    | zero => exact .nil f
    | succ n =>
    obtain ⟨hs, hl⟩ := forall_mem_cons.1 hl
    obtain ⟨g, hbit, hdo⟩ := h.bit_ok hs.2 false
    obtain ⟨hg, hgeo, -⟩ := hdo.spec h
    rw [rollback, hbit]
    refine (if_pos hs.1).symm ▸ .cons hdo (ih hg n ?_)
    rwa [hgeo]

theorem countdown_eq_reverse {start len cut : Nat} (hcut : cut ≤ len) (h : start + len ≤ 2 ^ 64) :
    ((range cut).map fun j => u64 (start + (len - 1 - j))) =
      (range' (start + (len - cut)) cut).reverse := by
  apply ext_getElem
  · simp
  intro j h1 h2
  have hj : j < cut := by simpa using h1
  have hlt : start + (len - 1 - j) < 2 ^ 64 := by omega
  simp only [getElem_map, getElem_range, getElem_reverse, length_range',
    getElem_range', u64, Nat.mod_eq_of_lt hlt]
  omega

theorem rollbackOrder_perm (h : ∀ s ∈ blocks l, s < 2 ^ 64) :
    (rollbackOrder l).Perm (blocks l) := by
  induction l with
  | nil => exact .refl _
  | cons e l ih =>
    have hone : ((range e.len).map fun j => u64 (e.start + (e.len - 1 - j))).Perm
        (range' e.start e.len) := by
      by_cases h0 : e.len = 0
      · simp [h0]
      rw [countdown_eq_reverse le_rfl (end_le_of_blocks h mem_cons_self h0), Nat.sub_self,
        Nat.add_zero]
      exact reverse_perm _
    rw [blocks_cons]
    rw [rollbackOrder, flatMap_cons]
    exact hone.append (ih fun s hs => h s (by rw [blocks_cons]; simp [hs]))

/-! ## Shrinking -/

theorem Ready.shrinkLoop_ok (h : Ready f) (hl : InArea f.geo l) (hfit : ExtentsFit l)
    (keep seen : Nat) (htot : seen + total l < 2 ^ 64) :
    ∃ l' g fs, shrinkLoop keep l seen f = (.ok l', g) ∧ Effects f (setAll false fs) g ∧
      fs.Perm ((blocks l).drop (keep - seen)) ∧ blocks l' = (blocks l).take (keep - seen) ∧
      l'.length = l.length ∧ ExtentsFit l' := by
  induction l generalizing f seen with
  | nil => exact ⟨[], f, [], rfl, .nil f, by simp, by simp, rfl, hfit⟩
  | cons e l ih =>
    obtain ⟨he, hfit⟩ := forall_mem_cons.1 hfit
    have hin : ∀ s ∈ range' e.start e.len, f.geo.ds ≤ s ∧ s < f.geo.tot := fun s hs =>
      hl s (by rw [blocks_cons]; exact mem_append_left _ hs)
    have hl' : InArea f.geo l := fun s hs => hl s (by rw [blocks_cons]; simp [hs])
    rw [total] at htot
    have hseen : u64 (seen + e.len) = seen + e.len := Nat.mod_eq_of_lt (by omega)
    rw [shrinkLoop, blocks_cons, hseen]
    split_ifs with h0 h1 h2
    · obtain ⟨l', g, fs, hrun, heff, hperm, hb, hlen, hf⟩ := ih h hl' hfit seen (by omega)
      refine ⟨e :: l', g, fs, by rw [hrun]; rfl, heff, ?_, ?_, by simp [hlen],
        forall_mem_cons.2 ⟨he, hf⟩⟩
      · simpa [h0] using hperm
      · simpa [blocks_cons, h0] using hb
    · have hsec : extentSectors [e] = range' e.start e.len := by
        rw [InArea.extentSectors_eq h (l := [e]) (by simpa [InArea, blocks] using hin)]
        simp [blocks]
      obtain ⟨g₁, hclear, heff₁⟩ := h.clearBits_ok fun s hs => (hin s hs).2
      obtain ⟨hg₁, hgeo, -⟩ := heff₁.spec h
      obtain ⟨l', g, fs, hrun, heff, hperm, hb, hlen, hf⟩ :=
        ih hg₁ (by rwa [hgeo]) hfit (seen + e.len) (by omega)
      refine ⟨⟨0, 0⟩ :: l', g, range' e.start e.len ++ fs, ?_, ?_, ?_, ?_, by simp [hlen],
        forall_mem_cons.2 ⟨by norm_num, hf⟩⟩
      · simp only [hsec, hclear, hrun]
        rfl
      · rw [setAll_append]
        exact heff₁.append heff
      · have hz : keep - seen = 0 := by omega
        have hz' : keep - (seen + e.len) = 0 := by omega
        rw [hz, drop_zero]
        rw [hz', drop_zero] at hperm
        exact hperm.append_left _
      have hz : keep - seen = 0 := by omega
      have hz' : keep - (seen + e.len) = 0 := by omega
      rw [hz, take_zero]
      rw [hz', take_zero] at hb
      simp [blocks_cons, hb]
    · have hend := end_le_of_blocks (hl.lt_u64 h) mem_cons_self h0
      have hsplit : range' e.start e.len = range' e.start (keep - seen) ++
          range' (e.start + (keep - seen)) (seen + e.len - keep) := by
        rw [List.range'_append_1]
        congr 1
        omega
      have hcut : e.len - (seen + e.len - keep) = keep - seen := by omega
      have hz : keep - (seen + e.len) = 0 := by omega
      simp only []
      rw [countdown_eq_reverse (by omega) hend, hcut]
      obtain ⟨g₁, hclear, heff₁⟩ := h.clearBits_ok
        (l := (range' (e.start + (keep - seen)) (seen + e.len - keep)).reverse)
        fun s hs => (hin s (by
          rw [hsplit]
          exact mem_append_right _ (mem_reverse.1 hs))).2
      obtain ⟨hg₁, hgeo, -⟩ := heff₁.spec h
      obtain ⟨l', g, fs, hrun, heff, hperm, hb, hlen, hf⟩ :=
        ih hg₁ (by rwa [hgeo]) hfit (seen + e.len) (by omega)
      rw [hz, drop_zero] at hperm
      rw [hz, take_zero] at hb
      refine ⟨⟨e.start, keep - seen⟩ :: l', g,
        (range' (e.start + (keep - seen)) (seen + e.len - keep)).reverse ++ fs, ?_, ?_, ?_,
        ?_, by simp [hlen], forall_mem_cons.2 ⟨⟨he.1, by simp only; omega⟩, hf⟩⟩
      · rw [hclear, hrun]
        rfl
      · rw [setAll_append]
        exact heff₁.append heff
      · rw [hsplit, append_assoc, drop_left' (by simp)]
        exact (reverse_perm _).append hperm
      · rw [hsplit, append_assoc, take_left' (by simp), blocks_cons, hb,
          append_nil]
    obtain ⟨l', g, fs, hrun, heff, hperm, hb, hlen, hf⟩ :=
      ih h hl' hfit (seen + e.len) (by omega)
    have hz : keep - seen = e.len + (keep - (seen + e.len)) := by omega
    refine ⟨e :: l', g, fs, by rw [hrun]; rfl, heff, ?_, ?_, by simp [hlen],
      forall_mem_cons.2 ⟨he, hf⟩⟩
    · rw [hz, drop_append, length_range', drop_eq_nil_of_le (by simp),
        Nat.add_sub_cancel_left]
      exact hperm
    · rw [hz, take_append, length_range', take_of_length_le (by simp),
        Nat.add_sub_cancel_left, blocks_cons, hb]

end RixuriOS.Rixfs
