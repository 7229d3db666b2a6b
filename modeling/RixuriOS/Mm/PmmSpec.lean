import RixuriOS.Mm.Pmm

/-!
# What the page allocator keeps

The three counters count the three sets that the bitmaps denote, a page whose
used bit is clear is managed, and no reserved page is free (`Pmm.Wf`). Every
operation is one of three changes of the set of free pages, `take`, `give` and
`withhold`, or a sequence of them.
-/

namespace RixuriOS.Mm

open ByteCodec WordBitmap

namespace Pmm

variable {s : Pmm} {p : Nat}

def freeSet (s : Pmm) : Finset Nat :=
  (Finset.range maxPages).filter fun p => s.managed p = true ∧ s.used p = false

theorem mem_freeSet : p ∈ s.freeSet ↔ p < maxPages ∧ s.managed p = true ∧ s.used p = false := by
  simp [freeSet]

structure Wf (s : Pmm) : Prop where
  total : s.totalPagesCount = (members s.managedBitmap maxPages).card
  free : s.freePagesCount = s.freeSet.card
  reserved : s.reservedPagesCount = (members s.reservedBitmap maxPages).card
  clear_managed : ∀ p < maxPages, s.used p = false → s.managed p = true
  reserved_used : ∀ p < maxPages, s.reserved p = true → s.used p = true

theorem Wf.not_free_of_reserved (h : s.Wf) (hr : s.reserved p = true) :
    p ∉ s.freeSet := fun hf => by
  obtain ⟨hp, -, hu⟩ := mem_freeSet.1 hf
  exact Bool.false_ne_true (hu ▸ h.reserved_used p hp hr)

theorem card_freeSet_le (s : Pmm) : s.freeSet.card ≤ maxPages :=
  (Finset.card_filter_le _ _).trans (Finset.card_range _).le

def take (s : Pmm) (p : Nat) : Pmm :=
  { s with pageBitmap := set s.pageBitmap p, freePagesCount := s.freePagesCount - 1 }

def give (s : Pmm) (p : Nat) : Pmm :=
  { s with pageBitmap := clear s.pageBitmap p, freePagesCount := s.freePagesCount + 1 }

def withhold (s : Pmm) (p : Nat) : Pmm :=
  if s.reserved p then s else
    { s with
      reservedBitmap := set s.reservedBitmap p
      reservedPagesCount := s.reservedPagesCount + 1 }

def manage (s : Pmm) (p : Nat) : Pmm :=
  if s.managed p then s else
    { s with managedBitmap := set s.managedBitmap p, totalPagesCount := s.totalPagesCount + 1 }

section

variable (s p) (q : Nat)

@[simp] theorem used_take : (s.take p).used q = (decide (q = p) || s.used q) := by simp [take, used]

@[simp] theorem managed_take : (s.take p).managed q = s.managed q := rfl

@[simp] theorem reserved_take : (s.take p).reserved q = s.reserved q := rfl

@[simp] theorem used_give : (s.give p).used q = (decide (q ≠ p) && s.used q) := by simp [give, used]

@[simp] theorem managed_give : (s.give p).managed q = s.managed q := rfl

@[simp] theorem reserved_give : (s.give p).reserved q = s.reserved q := rfl

@[simp] theorem used_withhold : (s.withhold p).used q = s.used q := by
  unfold withhold; split <;> rfl

@[simp] theorem managed_withhold : (s.withhold p).managed q = s.managed q := by
  unfold withhold; split <;> rfl

@[simp] theorem reserved_withhold :
    (s.withhold p).reserved q = (decide (q = p) || s.reserved q) := by
  unfold withhold
  split
  · rename_i h
    by_cases hq : q = p
    · simp [hq, h]
    · simp [hq]
  · simp [reserved]

@[simp] theorem used_manage : (s.manage p).used q = s.used q := by
  unfold manage; split <;> rfl

@[simp] theorem managed_manage : (s.manage p).managed q = (decide (q = p) || s.managed q) := by
  unfold manage
  split
  · rename_i h
    by_cases hq : q = p
    · simp [hq, h]
    · simp [hq]
  · simp [managed]

@[simp] theorem reserved_manage : (s.manage p).reserved q = s.reserved q := by
  unfold manage; split <;> rfl

end

theorem freeSet_take (s : Pmm) (p : Nat) : (s.take p).freeSet = s.freeSet.erase p := by
  ext q
  by_cases h : q = p <;> simp [mem_freeSet, h]

theorem freeSet_give (hp : p < maxPages) (hm : s.managed p = true) :
    (s.give p).freeSet = insert p s.freeSet := by
  ext q
  by_cases h : q = p <;> simp [mem_freeSet, h, hp, hm]

theorem freeSet_withhold (s : Pmm) (p : Nat) : (s.withhold p).freeSet = s.freeSet := by
  ext q; simp [mem_freeSet]

theorem Wf.take (h : s.Wf) (hp : p ∈ s.freeSet) : (s.take p).Wf where
  total := h.total
  free := by
    rw [freeSet_take, Finset.card_erase_of_mem hp, ← h.free]
    rfl
  reserved := h.reserved
  clear_managed := fun q hq hu => h.clear_managed q hq (by simp at hu; exact hu.2)
  reserved_used := fun q hq hr => by
    rw [used_take, h.reserved_used q hq hr, Bool.or_true]

theorem Wf.give (h : s.Wf) (hp : p < maxPages) (hm : s.managed p = true) (hu : s.used p = true)
    (hr : s.reserved p = false) : (s.give p).Wf where
  total := h.total
  free := by
    rw [freeSet_give hp hm, Finset.card_insert_of_notMem, ← h.free]
    · rfl
    · simp [mem_freeSet, hu]
  reserved := h.reserved
  clear_managed := fun q hq hc => by
    by_cases hqp : q = p
    · rw [hqp, managed_give, hm]
    · exact h.clear_managed q hq (by simpa [hqp] using hc)
  reserved_used := fun q hq hc => by
    have hqp : q ≠ p := fun e => Bool.false_ne_true (hr ▸ e ▸ hc)
    simpa [hqp] using h.reserved_used q hq hc

theorem Wf.withhold (h : s.Wf) (hp : p < maxPages) (hu : s.used p = true) : (s.withhold p).Wf := by
  refine ⟨?_, ?_, ?_, fun q hq => by simpa using h.clear_managed q hq, fun q hq hr => ?_⟩
  · rw [show (s.withhold p).totalPagesCount = s.totalPagesCount by
      unfold Pmm.withhold; split <;> rfl, h.total]
    unfold Pmm.withhold; split <;> rfl
  · rw [freeSet_withhold, ← h.free]
    unfold Pmm.withhold; split <;> rfl
  · unfold Pmm.withhold
    split
    · exact h.reserved
    rename_i hr
    rw [members_set _ hp, Finset.card_insert_of_notMem, ← h.reserved]
    simpa [Pmm.reserved] using fun _ => hr
  rw [used_withhold]
  by_cases hqp : q = p
  · rw [hqp, hu]
  · exact h.reserved_used q hq (by simpa [hqp] using hr)

theorem Wf.manage (h : s.Wf) (hp : p < maxPages) : (s.manage p).Wf := by
  by_cases hm : s.managed p = true
  · rwa [Pmm.manage, if_pos hm]
  have hu : s.used p = true := by
    by_contra hc
    exact hm (h.clear_managed p hp (Bool.eq_false_iff.2 hc))
  have hfree : (s.manage p).freeSet = s.freeSet := by
    ext q
    by_cases hqp : q = p <;> simp [mem_freeSet, hqp, hu]
  rw [Pmm.manage, if_neg hm] at hfree ⊢
  refine ⟨?_, h.free.trans (congrArg Finset.card hfree.symm), h.reserved, fun q hq hc => ?_, h.reserved_used⟩
  · rw [members_set _ hp, Finset.card_insert_of_notMem, ← h.total]
    simpa [Pmm.managed] using fun _ => hm
  have := h.clear_managed q hq hc
  simp only [Pmm.managed, test_set, Bool.or_eq_true] at this ⊢
  exact .inr this

end Pmm

/-! ### Marking ranges -/

theorem markPage_false (s : Pmm) (p : Nat) :
    markPage s p false = if s.used p then s.withhold p else (s.take p).withhold p := by
  have hw : (if s.reserved p then s else
      { s with
        reservedBitmap := set s.reservedBitmap p
        reservedPagesCount := s.reservedPagesCount + 1 }) = s.withhold p := rfl
  simp only [markPage, hw, Bool.false_eq_true, if_false, Pmm.used_withhold]
  split
  · rfl
  · unfold Pmm.withhold Pmm.take
    by_cases hr : s.reserved p = true <;> simp [Pmm.reserved] at hr ⊢ <;> simp [hr]

theorem markPage_true (s : Pmm) (p : Nat) :
    markPage s p true = if s.used p then (s.manage p).give p else s.manage p := by
  have hm : (if s.managed p then s else
      { s with
        managedBitmap := set s.managedBitmap p
        totalPagesCount := s.totalPagesCount + 1 }) = s.manage p := rfl
  simp only [markPage, hm, if_true, Pmm.used_manage]
  rfl

structure Reserves (s s' : Pmm) (P : Nat → Prop) : Prop where
  wf : s'.Wf
  managed : ∀ q, s'.managed q = s.managed q
  reserved : ∀ q, s'.reserved q = true ↔ P q ∨ s.reserved q = true
  free : s'.freeSet ⊆ s.freeSet

variable {s s' : Pmm} {P Q : Nat → Prop} {p : Nat}

theorem Reserves.refl (h : s.Wf) : Reserves s s fun _ => False :=
  ⟨h, fun _ => rfl, fun _ => by simp, Finset.Subset.refl _⟩

variable {s'' : Pmm} {n q : Nat} {h : Handoff}

theorem Reserves.trans (h : Reserves s s' P) (h' : Reserves s' s'' Q) :
    Reserves s s'' fun q => P q ∨ Q q where
  wf := h'.wf
  managed := fun q => (h'.managed q).trans (h.managed q)
  reserved := fun q => by rw [h'.reserved, h.reserved]; tauto
  free := h'.free.trans h.free

theorem Reserves.congr (h : Reserves s s' P) (hPQ : ∀ q, P q ↔ Q q) : Reserves s s' Q :=
  ⟨h.wf, h.managed, fun q => by rw [h.reserved, hPQ], h.free⟩

theorem reserves_markPage (h : s.Wf) (hp : p < maxPages) :
    Reserves s (markPage s p false) (· = p) := by
  rw [markPage_false]
  split
  · rename_i hu
    exact ⟨h.withhold hp hu, fun q => by simp, fun q => by simp, by
      rw [Pmm.freeSet_withhold]⟩
  rename_i hu
  have hu' : s.used p = false := Bool.eq_false_iff.2 hu
  have hf : p ∈ s.freeSet := Pmm.mem_freeSet.2 ⟨hp, h.clear_managed p hp hu', hu'⟩
  exact ⟨(h.take hf).withhold hp (by simp), fun q => by simp, fun q => by simp, by
    rw [Pmm.freeSet_withhold, Pmm.freeSet_take]
    exact Finset.erase_subset _ _⟩

theorem reserves_markPages (h : s.Wf) (hn : p + n ≤ maxPages) :
    Reserves s (markPages false n p s) fun q => p ≤ q ∧ q < p + n := by
  induction n generalizing p s with
  | zero => exact (Reserves.refl h).congr fun q => by simp
  | succ n ih =>
    have h1 := reserves_markPage h (p := p) (by omega)
    exact (h1.trans (ih h1.wf (by omega))).congr fun q => by omega

def ceilPage (base : Nat) : Nat := (base + pageSize - 1) / pageSize

theorem alignUpPage_eq (base : Nat) (h : base < maxPhys) :
    alignUpPage base = ceilPage base * pageSize := by
  unfold alignUpPage ceilPage
  simp only [pageSize, maxPhys, uint64Max] at h ⊢
  rw [if_neg (by omega)]

theorem markRange_eq (s : Pmm) (base pages : Nat) (free : Bool) :
    ∃ n p, markRange s base pages free = markPages free n p s ∧ p + n ≤ maxPages ∧
      ∀ q, p ≤ q ∧ q < p + n ↔ ceilPage base ≤ q ∧ q < ceilPage base + pages ∧ q < maxPages := by
  unfold markRange
  split
  · rename_i h1
    refine ⟨0, 0, rfl, by decide, fun q => ?_⟩
    simp only [ceilPage, pageSize, maxPhys, maxPages] at h1 ⊢
    omega
  rename_i h1
  have hfirst := alignUpPage_eq base (by omega)
  simp only [hfirst, page_mul_div]
  split
  · rename_i h2
    refine ⟨0, 0, rfl, by decide, fun q => ?_⟩
    simp only [ceilPage, pageSize, maxPhys, maxPages, uint64Max] at h1 h2 ⊢
    omega
  rename_i h2
  unfold maxPhys at h1 h2 ⊢
  unfold pageSize at h2 ⊢
  refine ⟨_, _, rfl, ?_, fun q => ?_⟩
  all_goals
    unfold maxPages
    split <;> omega

theorem reserves_markRange (h : s.Wf) (base pages : Nat) :
    Reserves s (markRange s base pages false) fun q =>
      ceilPage base ≤ q ∧ q < ceilPage base + pages ∧ q < maxPages := by
  obtain ⟨n, p, heq, hn, hq⟩ := markRange_eq s base pages false
  rw [heq]
  exact (reserves_markPages h hn).congr hq

/-- The pages that `mark_byte_range` reserves for the bytes from `base` on. -/
def MarkedBytes (base size q : Nat) : Prop :=
  ¬(size = 0 ∨ base > uint64Max - size) ∧ ¬size > uint64Max - base % pageSize - (pageSize - 1) ∧
    ceilPage base ≤ q ∧
    q < ceilPage base + (size + base % pageSize + pageSize - 1) / pageSize ∧ q < maxPages

theorem reserves_markByteRange (h : s.Wf) (base size : Nat) :
    Reserves s (markByteRange s base size false) (MarkedBytes base size) := by
  unfold markByteRange MarkedBytes
  simp only
  split
  · rename_i h1
    exact (Reserves.refl h).congr fun q => ⟨False.elim, fun hq => hq.1 h1⟩
  rename_i h1
  split
  · rename_i h2
    exact (Reserves.refl h).congr fun q => ⟨False.elim, fun hq => hq.2.1 h2⟩
  rename_i h2
  exact (reserves_markRange h base _).congr fun q =>
    ⟨fun hq => ⟨h1, h2, hq⟩, fun hq => hq.2.2⟩

/-- What releasing a set of pages does while nothing is reserved yet. -/
structure Releases (s s' : Pmm) (P : Nat → Prop) : Prop where
  wf : s'.Wf
  reserved : ∀ q, s'.reserved q = false
  managed : ∀ q, s'.managed q = true ↔ P q ∨ s.managed q = true

theorem Releases.refl (h : s.Wf) (hr : ∀ q, s.reserved q = false) : Releases s s fun _ => False :=
  ⟨h, hr, fun _ => by simp⟩

theorem Releases.trans (h : Releases s s' P) (h' : Releases s' s'' Q) :
    Releases s s'' fun q => P q ∨ Q q :=
  ⟨h'.wf, h'.reserved, fun q => by rw [h'.managed, h.managed]; tauto⟩

theorem Releases.congr (h : Releases s s' P) (hPQ : ∀ q, P q ↔ Q q) : Releases s s' Q :=
  ⟨h.wf, h.reserved, fun q => by rw [h.managed, hPQ]⟩

theorem releases_markPage (h : s.Wf) (hr : ∀ q, s.reserved q = false) (hp : p < maxPages) :
    Releases s (markPage s p true) (· = p) := by
  rw [markPage_true]
  split
  · rename_i hu
    exact ⟨(h.manage hp).give hp (by simp) (by simpa using hu) (by simpa using hr p),
      fun q => by simpa using hr q, fun q => by simp⟩
  · exact ⟨h.manage hp, fun q => by simpa using hr q, fun q => by simp⟩

theorem releases_markPages (h : s.Wf) (hr : ∀ q, s.reserved q = false) (hn : p + n ≤ maxPages) :
    Releases s (markPages true n p s) fun q => p ≤ q ∧ q < p + n := by
  induction n generalizing p s with
  | zero => exact (Releases.refl h hr).congr fun q => by simp
  | succ n ih =>
    have h1 := releases_markPage h hr (p := p) (by omega)
    exact (h1.trans (ih h1.wf h1.reserved (by omega))).congr fun q => by omega

theorem releases_markRange (h : s.Wf) (hr : ∀ q, s.reserved q = false) (base pages : Nat) :
    Releases s (markRange s base pages true) fun q =>
      ceilPage base ≤ q ∧ q < ceilPage base + pages ∧ q < maxPages := by
  obtain ⟨n, p, heq, hn, hq⟩ := markRange_eq s base pages true
  rw [heq]
  exact (releases_markPages h hr hn).congr hq

def Handoff.InDescriptor (h : Handoff) (offset q : Nat) : Prop :=
  usableType (h.descType offset) = true ∧ h.descBase offset < maxPhys ∧
    ceilPage (h.descBase offset) ≤ q ∧ q < ceilPage (h.descBase offset) + h.descPages offset

def Handoff.Usable (h : Handoff) (q : Nat) : Prop :=
  ∃ offset, offset ≤ h.memoryMapSize - h.descriptorSize ∧ h.InDescriptor offset q

/-- What the descriptor loop makes managed belongs to usable descriptors. -/
structure Released (h : Handoff) (s : Pmm) : Prop where
  wf : s.Wf
  reserved : ∀ q, s.reserved q = false
  usable : ∀ q, s.managed q = true → h.Usable q

theorem Released.markDescriptor (hs : Released h s) {offset : Nat}
    (ho : offset ≤ h.memoryMapSize - h.descriptorSize) :
    Released h (markDescriptor h s offset) := by
  unfold Mm.markDescriptor
  simp only
  split
  · rename_i hu
    have hrel := releases_markRange hs.wf hs.reserved (h.descBase offset)
      (if h.descPages offset > (maxPhys - h.descBase offset) / pageSize
        then (maxPhys - h.descBase offset) / pageSize else h.descPages offset)
    refine ⟨hrel.wf, hrel.reserved, fun q hq => ?_⟩
    obtain ⟨h1, h2, -⟩ | hq := (hrel.managed q).1 hq
    · refine ⟨offset, ho, hu.1, hu.2.2, h1, ?_⟩
      split at h2 <;> omega
    · exact hs.usable q hq
  · exact hs

theorem Released.markDescriptors (hs : Released h s) (fuel offset : Nat) :
    Released h (markDescriptors h fuel offset s) := by
  induction fuel generalizing offset s with
  | zero => exact hs
  | succ fuel ih =>
    unfold Mm.markDescriptors
    split
    · rename_i ho
      exact ih (hs.markDescriptor ho) _
    · exact hs

@[simp] theorem used_pmmReset (p : Nat) : pmmReset.used p = true := by
  have : p % 64 < 64 := Nat.mod_lt _ (by decide)
  simp only [pmmReset, Pmm.used, test, BitVec.getLsbD_allOnes, this, decide_true]

@[simp] theorem managed_pmmReset (p : Nat) : pmmReset.managed p = false := by
  simp [pmmReset, Pmm.managed, test]

@[simp] theorem reserved_pmmReset (p : Nat) : pmmReset.reserved p = false := by
  simp [pmmReset, Pmm.reserved, test]

theorem freeSet_pmmReset : pmmReset.freeSet = ∅ := by
  ext p; simp [Pmm.mem_freeSet]

theorem released_pmmReset (h : Handoff) : Released h pmmReset := by
  have hm : members pmmReset.managedBitmap maxPages = ∅ := by
    ext p; simp [pmmReset, test]
  have hr : members pmmReset.reservedBitmap maxPages = ∅ := by
    ext p; simp [pmmReset, test]
  refine ⟨⟨?_, ?_, ?_, fun p _ => by simp, fun p _ => by simp⟩, reserved_pmmReset, by simp⟩
  · rw [hm]; rfl
  · rw [freeSet_pmmReset]; rfl
  · rw [hr]; rfl

/-- The page `q` can never be allocated: it is reserved, or not managed at all. -/
def Pmm.Withheld (s : Pmm) (q : Nat) : Prop := s.reserved q = true ∨ s.managed q = false

theorem Pmm.Withheld.not_free (h : s.Wf) (hq : s.Withheld q) : q ∉ s.freeSet := by
  obtain hr | hm := hq
  · exact h.not_free_of_reserved hr
  · exact fun hf => Bool.false_ne_true (hm ▸ (Pmm.mem_freeSet.1 hf).2.1)

theorem Reserves.withheld (h : Reserves s s' P) (hq : P q) : s'.Withheld q :=
  .inl ((h.reserved q).2 (.inl hq))

structure ByteRange where
  base : Nat
  size : Nat

/-- The byte ranges that `pmm_init` reserves besides the low 1 MiB. -/
def Handoff.ranges (h : Handoff) : List ByteRange :=
  [⟨h.kernelBase, h.kernelEnd - h.kernelBase⟩, ⟨h.bootInfo, h.bootInfoSize⟩,
    ⟨h.memoryMap, h.memoryMapSize⟩]

structure Initial (h : Handoff) (s : Pmm) : Prop where
  wf : s.Wf
  usable : ∀ q, s.managed q = true → h.Usable q
  low : ∀ q < 256, s.Withheld q
  ranges : ∀ r ∈ h.ranges, ∀ q, MarkedBytes r.base r.size q → s.Withheld q

/-- The test `kernel_end > kernel_base` is the test for a nonempty range. -/
theorem markKernel_eq (h : Handoff) (s : Pmm) :
    (if h.kernelEnd > h.kernelBase then
      markByteRange s h.kernelBase (h.kernelEnd - h.kernelBase) false else s) =
      markByteRange s h.kernelBase (h.kernelEnd - h.kernelBase) false := by
  split
  · rfl
  · rename_i hk
    rw [markByteRange, if_pos (.inl (by omega))]

theorem initial_pmmInit (h : Handoff) : Initial h (pmmInit h) := by
  unfold pmmInit
  split
  · have hrel := (released_pmmReset h).markDescriptors h.memoryMapSize 0
    simp only [markKernel_eq]
    have h1 := reserves_markRange hrel.wf 0 (0x100000 / pageSize)
    have h2 := h1.trans (reserves_markByteRange h1.wf h.kernelBase (h.kernelEnd - h.kernelBase))
    have h3 := h2.trans (reserves_markByteRange h2.wf h.bootInfo h.bootInfoSize)
    have h4 := h3.trans (reserves_markByteRange h3.wf h.memoryMap h.memoryMapSize)
    refine ⟨h4.wf, fun q hq => hrel.usable q (h4.managed q ▸ hq), fun q hq => ?_,
      fun r hr q hq => ?_⟩
    · refine h4.withheld (.inl (.inl (.inl ⟨Nat.zero_le q, ?_, ?_⟩)))
      · rwa [show ceilPage 0 = 0 from rfl, show 0x100000 / pageSize = 256 from rfl, Nat.zero_add]
      · unfold maxPages
        omega
    simp only [Handoff.ranges, List.mem_cons, List.not_mem_nil, or_false] at hr
    obtain rfl | rfl | rfl := hr
    · exact h4.withheld (.inl (.inl (.inr hq)))
    · exact h4.withheld (.inl (.inr hq))
    · exact h4.withheld (.inr hq)
  · exact ⟨(released_pmmReset h).wf, (released_pmmReset h).usable,
      fun q _ => .inr (managed_pmmReset q), fun _ _ q _ => .inr (managed_pmmReset q)⟩

/-! ### Allocating -/

theorem getLsbD_limitMask (limit : Nat) {i : Nat} (hi : i < 64) :
    (limitMask limit).getLsbD i = decide (i ≤ limit % 64) := by
  unfold limitMask
  split
  · rename_i h
    rw [BitVec.getLsbD_allOnes]
    exact decide_eq_decide.2 (by omega)
  rename_i h
  have hlt : 2 ^ (limit % 64 + 1) < 2 ^ 64 := Nat.pow_lt_pow_right (by decide) (by omega)
  have hpos : 0 < 2 ^ (limit % 64 + 1) := Nat.pow_pos (by decide)
  have hval : (1#64 <<< (limit % 64 + 1) - 1#64).toNat = 2 ^ (limit % 64 + 1) - 1 := by
    rw [BitVec.toNat_sub, BitVec.toNat_shiftLeft, Nat.shiftLeft_eq]
    rw [BitVec.toNat_ofNat]
    rw [Nat.mod_eq_of_lt (b := 2 ^ 64) (a := 1) (by decide), Nat.one_mul, Nat.mod_eq_of_lt hlt]
    omega
  rw [BitVec.getLsbD, hval, Nat.testBit_two_pow_sub_one]
  exact decide_eq_decide.2 (by omega)

theorem getLsbD_candidates (s : Pmm) {limit w : Nat} (i : Nat) (hw : w * 64 ≤ limit) (hi : i < 64) :
    (candidates s limit w).getLsbD i =
      (s.managed (w * 64 + i) && !s.used (w * 64 + i) && decide (w * 64 + i ≤ limit)) := by
  have hc : (s.managedBitmap w &&& ~~~s.pageBitmap w).getLsbD i =
      (s.managed (w * 64 + i) && !s.used (w * 64 + i)) := by
    rw [BitVec.getLsbD_and, BitVec.getLsbD_not, getLsbD_word _ hi, getLsbD_word _ hi]
    simp [Pmm.managed, Pmm.used, hi]
  unfold candidates
  simp only
  split
  · rename_i hl
    rw [BitVec.getLsbD_and, hc, getLsbD_limitMask limit hi]
    congr 1
    exact decide_eq_decide.2 (by omega)
  rename_i hl
  have : w * 64 + i ≤ limit := by omega
  simp [hc, this]

/-- The lowest free page from word `w` on, if there is one up to the limit. -/
def LowestFree (s : Pmm) (limit w : Nat) : Option Nat → Prop
  | some p => p ∈ s.freeSet ∧ p ≤ limit ∧ ∀ q ∈ s.freeSet, w * 64 ≤ q → p ≤ q
  | none => ∀ q ∈ s.freeSet, w * 64 ≤ q → limit < q

theorem allocScan_spec (s : Pmm) (limit fuel w : Nat) (hf : fuel + w = bitmapWords) :
    LowestFree s limit w (allocScan s limit fuel w) := by
  have hb : bitmapWords * 64 = maxPages := by decide
  induction fuel generalizing w with
  | zero =>
    intro q hq hw
    have := (Pmm.mem_freeSet.1 hq).1
    omega
  | succ fuel ih =>
    unfold allocScan
    split
    · intro q _ hw
      omega
    rename_i hlim
    have hw : w * 64 ≤ limit := by omega
    have hbit := fun i hi => getLsbD_candidates s i hw hi
    simp only
    -- a free page up to the limit in word `w` shows in the candidates
    have hin : ∀ q ∈ s.freeSet, w * 64 ≤ q → q < (w + 1) * 64 → q ≤ limit →
        (candidates s limit w).getLsbD (q - w * 64) = true := by
      intro q hq h1 h2 h3
      obtain ⟨-, hm, hu⟩ := Pmm.mem_freeSet.1 hq
      rw [hbit _ (by omega), show w * 64 + (q - w * 64) = q by omega]
      simp [hm, hu, h3]
    split
    · rename_i hc
      have hnext := ih (w := w + 1) (by omega)
      have hout : ∀ q ∈ s.freeSet, w * 64 ≤ q → q ≤ limit → (w + 1) * 64 ≤ q := by
        intro q hq h1 h3
        by_contra h2
        have := hin q hq h1 (by omega) h3
        simp [hc] at this
      cases hr : allocScan s limit fuel (w + 1) with
      | some p =>
        rw [hr] at hnext
        refine ⟨hnext.1, hnext.2.1, fun q hq h1 => ?_⟩
        by_cases h3 : q ≤ limit
        · exact hnext.2.2 q hq (hout q hq h1 h3)
        · exact hnext.2.1.trans (by omega)
      | none =>
        rw [hr] at hnext
        intro q hq h1
        by_contra h3
        exact h3 (hnext q hq (hout q hq h1 (by omega)))
    rename_i hc
    obtain ⟨hlt, hset, hlow⟩ := ctz_spec hc
    rw [hbit _ hlt] at hset
    simp only [Bool.and_eq_true, Bool.not_eq_true', decide_eq_true_eq] at hset
    have hpage : w * 64 + ctz (candidates s limit w) < maxPages := by omega
    rw [if_neg (by omega)]
    refine ⟨Pmm.mem_freeSet.2 ⟨hpage, hset.1.1, hset.1.2⟩, hset.2, fun q hq h1 => ?_⟩
    by_contra h2
    have h3 := hin q hq h1 (by omega) (by omega)
    rw [hlow _ (by omega)] at h3
    exact Bool.false_ne_true h3

/-- `pmm_alloc_page_below` takes the lowest free page below the limit, or there is none. -/
inductive AllocBelow (s : Pmm) (limit : Nat) : Nat × Pmm → Prop
  | taken (p : Nat) (hp : p ∈ s.freeSet) (hlimit : p * pageSize < limit)
      (hlow : ∀ q ∈ s.freeSet, p ≤ q) : AllocBelow s limit (p * pageSize, s.take p)
  | empty (hnone : ∀ q ∈ s.freeSet, limit < q * pageSize + pageSize) : AllocBelow s limit (0, s)

theorem pmmAllocPageBelow_spec (s : Pmm) (limit : Nat) :
    AllocBelow s limit (pmmAllocPageBelow s limit) := by
  obtain ⟨m, hm⟩ : ∃ m, m = if limit > maxPhys then maxPhys else limit := ⟨_, rfl⟩
  have hml : m ≤ limit ∧ (m = limit ∨ m = maxPhys) := by rw [hm]; split <;> omega
  unfold pmmAllocPageBelow
  simp only [← hm]
  have hscan := allocScan_spec s ((m - 1) / pageSize) bitmapWords 0 rfl
  unfold pageSize at hscan ⊢
  split
  · refine .empty fun q hq => ?_
    have := (Pmm.mem_freeSet.1 hq).1
    unfold maxPages at this
    unfold maxPhys at hml
    unfold pageSize
    omega
  split
  · rename_i p hp
    rw [hp] at hscan
    refine .taken p hscan.1 ?_ fun q hq => hscan.2.2 q hq (by omega)
    have := hscan.2.1
    unfold pageSize
    omega
  rename_i hp
  rw [hp] at hscan
  refine .empty fun q hq => ?_
  have h1 := hscan q hq (by omega)
  have h2 := (Pmm.mem_freeSet.1 hq).1
  unfold maxPages at h2
  unfold maxPhys at hml
  unfold pageSize
  omega

end RixuriOS.Mm
