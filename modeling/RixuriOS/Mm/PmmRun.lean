import RixuriOS.Mm.PmmSpec

/-!
# Runs of the page allocator

A run is a sequence of calls of the allocator's interface with arbitrary
arguments, starting from the state that `pmm_init` leaves. `Call.Effect` says what
one call can do to the sets of managed, reserved and free pages; along a run the
counters stay exact, and what was reserved at boot is never handed out.
-/

namespace RixuriOS.Mm

open ByteCodec WordBitmap List

/-! ### Contiguous ranges -/

variable {s : Pmm} {count q start : Nat}

namespace Pmm

def takeRange (s : Pmm) (start count : Nat) : Pmm :=
  { s with
    pageBitmap := (range' start count).foldl set s.pageBitmap
    freePagesCount := (s.freePagesCount + 2 ^ 64 - count) % 2 ^ 64 }

theorem used_takeRange (s : Pmm) (start count q : Nat) :
    (s.takeRange start count).used q =
      (decide (start ≤ q ∧ q < start + count) || s.used q) := by
  simp [takeRange, used, test_foldl_set, mem_range'_1]

theorem freeSet_takeRange (s : Pmm) (start count : Nat) :
    (s.takeRange start count).freeSet = s.freeSet \ Finset.Ico start (start + count) := by
  ext q
  have hm : (s.takeRange start count).managed q = s.managed q := rfl
  rw [Finset.mem_sdiff, mem_freeSet, mem_freeSet, used_takeRange, hm, Finset.mem_Ico]
  rw [Bool.or_eq_false_iff, decide_eq_false_iff_not]
  tauto

theorem Wf.takeRange (h : s.Wf) (hr : Finset.Ico start (start + count) ⊆ s.freeSet) :
    (s.takeRange start count).Wf where
  total := h.total
  free := by
    have hcard : (Finset.Ico start (start + count)).card = count := by simp
    have hle := Finset.card_le_card hr
    have hmax := s.card_freeSet_le
    rw [freeSet_takeRange, Finset.card_sdiff_of_subset hr, hcard]
    simp only [Pmm.takeRange, h.free]
    unfold maxPages at hmax
    omega
  reserved := h.reserved
  clear_managed := fun q hq hu => by
    rw [used_takeRange] at hu
    exact h.clear_managed q hq (Bool.or_eq_false_iff.1 hu).2
  reserved_used := fun q hq hc => by
    rw [used_takeRange, h.reserved_used q hq hc, Bool.or_true]

end Pmm

theorem rangeAvailable_iff (hle : start + count ≤ maxPages) :
    rangeAvailable s start count = true ↔ Finset.Ico start (start + count) ⊆ s.freeSet := by
  simp only [rangeAvailable, all_eq_true, mem_range'_1, Bool.and_eq_true,
    Bool.not_eq_true', Finset.subset_iff, Finset.mem_Ico, Pmm.mem_freeSet]
  exact ⟨fun h q hq => ⟨by omega, h q hq⟩, fun h q hq => (h hq).2⟩

/-- `pmm_alloc_pages` takes the first free range, or there is none. -/
inductive AllocRange (s : Pmm) (count : Nat) : Nat × Pmm → Prop
  | taken (start : Nat) (hrange : Finset.Ico start (start + count) ⊆ s.freeSet)
      (hfirst : ∀ i < start, ¬Finset.Ico i (i + count) ⊆ s.freeSet) :
      AllocRange s count (start * pageSize, s.takeRange start count)
  | empty (hnone : 0 < count → ∀ i, ¬Finset.Ico i (i + count) ⊆ s.freeSet) :
      AllocRange s count (0, s)

variable {fuel i : Nat} {s' : Pmm} {P : Nat → Prop} {r : ByteRange}

theorem allocPagesScan_some (h : allocPagesScan s count fuel i = some start) :
    Finset.Ico start (start + count) ⊆ s.freeSet ∧
      ∀ j, i ≤ j → j < start → ¬Finset.Ico j (j + count) ⊆ s.freeSet := by
  induction fuel generalizing i with
  | zero => exact absurd h (by simp [allocPagesScan])
  | succ fuel ih =>
    unfold allocPagesScan at h
    split at h
    · rename_i hle
      split at h
      · rename_i ha
        obtain rfl : i = start := by simpa using h
        exact ⟨(rangeAvailable_iff hle).1 ha, fun j h1 h2 => by omega⟩
      rename_i ha
      refine ⟨(ih h).1, fun j h1 h2 => ?_⟩
      by_cases hj : j = i
      · rw [hj]
        exact fun hsub => ha ((rangeAvailable_iff hle).2 hsub)
      · exact (ih h).2 j (by omega) h2
    · cases h

theorem allocPagesScan_none (hf : maxPages < fuel + i) (hc : 0 < count)
    (h : allocPagesScan s count fuel i = none) :
    ∀ j, i ≤ j → ¬Finset.Ico j (j + count) ⊆ s.freeSet := by
  -- a range that leaves the managed area has a page that is not free
  have hout : ∀ j, maxPages < j + count → ¬Finset.Ico j (j + count) ⊆ s.freeSet := by
    intro j hj hsub
    have := hsub (Finset.mem_Ico.2 ⟨(by omega : j ≤ j + count - 1), by omega⟩)
    have := (Pmm.mem_freeSet.1 this).1
    omega
  induction fuel generalizing i with
  | zero => exact fun j hj => hout j (by omega)
  | succ fuel ih =>
    unfold allocPagesScan at h
    split at h
    · rename_i hle
      split at h
      · cases h
      rename_i ha
      intro j hj
      by_cases hji : j = i
      · rw [hji]
        exact fun hsub => ha ((rangeAvailable_iff hle).2 hsub)
      · exact ih (by omega) h j (by omega)
    · exact fun j hj => hout j (by omega)

theorem pmmAllocPages_spec (s : Pmm) (count : Nat) : AllocRange s count (pmmAllocPages s count) := by
  unfold pmmAllocPages
  split
  · rename_i hc
    refine .empty fun h0 i hsub => ?_
    have hlast := hsub (Finset.mem_Ico.2 ⟨(by omega : i ≤ i + count - 1), by omega⟩)
    have := (Pmm.mem_freeSet.1 hlast).1
    omega
  rename_i hc
  cases hs : allocPagesScan s count (maxPages + 1) 0 with
  | some start =>
    obtain ⟨h1, h2⟩ := allocPagesScan_some hs
    exact .taken start h1 fun i hi => h2 i (Nat.zero_le i) hi
  | none =>
    exact .empty fun h0 i => allocPagesScan_none (by omega) h0 hs i (Nat.zero_le i)

/-! ### Freeing and reserving -/

theorem pmmFreePage_cases (s : Pmm) (address : Nat) :
    pmmFreePage s address = s ∨
      ∃ p, address = p * pageSize ∧ p < maxPages ∧ s.managed p = true ∧ s.used p = true ∧
        s.reserved p = false ∧ pmmFreePage s address = s.give p := by
  unfold pmmFreePage
  split
  · exact .inl rfl
  rename_i ha
  simp only
  split
  · exact .inl rfl
  rename_i hp
  split
  · exact .inl rfl
  rename_i hc
  simp only [Bool.or_eq_true, Bool.not_eq_true', not_or, Bool.not_eq_false, Bool.not_eq_true] at hc
  refine .inr ⟨address / pageSize, ?_, by omega, hc.1.1, hc.1.2, hc.2, rfl⟩
  unfold pageSize at ha ⊢
  omega

/-- The pages `P` may have become free, and everything else is as before. -/
structure Gives (s s' : Pmm) (P : Nat → Prop) : Prop where
  wf : s'.Wf
  managed : ∀ q, s'.managed q = s.managed q
  reserved : ∀ q, s'.reserved q = s.reserved q
  free : ∀ q ∈ s'.freeSet, q ∈ s.freeSet ∨ P q

theorem Gives.mono {Q : Nat → Prop} (h : Gives s s' P) (hPQ : ∀ q, P q → Q q) : Gives s s' Q :=
  ⟨h.wf, h.managed, h.reserved, fun q hq => (h.free q hq).imp_right (hPQ q)⟩

theorem Gives.refl (h : s.Wf) (P : Nat → Prop) : Gives s s P :=
  ⟨h, fun _ => rfl, fun _ => rfl, fun _ hq => .inl hq⟩

theorem Gives.trans {s'' : Pmm} (h : Gives s s' P) (h' : Gives s' s'' P) : Gives s s'' P where
  wf := h'.wf
  managed := fun q => (h'.managed q).trans (h.managed q)
  reserved := fun q => (h'.reserved q).trans (h.reserved q)
  free := fun q hq => (h'.free q hq).elim (h.free q) .inr

theorem gives_pmmFreePage (h : s.Wf) (address : Nat) :
    Gives s (pmmFreePage s address) fun q => address = q * pageSize := by
  obtain he | ⟨p, ha, hp, hm, hu, hr, he⟩ := pmmFreePage_cases s address
  · rw [he]
    exact Gives.refl h _
  rw [he]
  refine ⟨h.give hp hm hu hr, fun q => rfl, fun q => rfl, fun q hq => ?_⟩
  rw [Pmm.freeSet_give hp hm, Finset.mem_insert] at hq
  obtain rfl | hq := hq
  · exact .inr ha
  · exact .inl hq

theorem gives_freePages {n address : Nat} (h : s.Wf) :
    Gives s (freePages n address s) fun q => ∃ i < n, address + i * pageSize = q * pageSize := by
  induction n generalizing address s with
  | zero => exact Gives.refl h _
  | succ n ih =>
    have h1 := gives_pmmFreePage h address
    refine (h1.mono fun q hq => ⟨0, by omega, by rw [Nat.zero_mul]; exact hq⟩).trans
      ((ih h1.wf).mono fun q ⟨i, hi, hq⟩ => ⟨i + 1, by omega, ?_⟩)
    rw [← hq, Nat.succ_mul, Nat.add_assoc, Nat.add_comm pageSize]

/-! ### Calls -/

inductive Call
  | allocPage
  | allocPageBelow (maxExclusive : Nat)
  | allocPages (count : Nat)
  | freePage (physicalAddress : Nat)
  | freePageRange (physicalAddress count : Nat)
  | reservePage (physicalAddress : Nat)

namespace Call

def exec (s : Pmm) : Call → Nat × Pmm
  | allocPage => pmmAllocPage s
  | allocPageBelow m => pmmAllocPageBelow s m
  | allocPages n => pmmAllocPages s n
  | freePage a => (0, pmmFreePage s a)
  | freePageRange a n => (0, pmmFreePageRange s a n)
  | reservePage a => (0, pmmReservePage s a)

def asks : Call → Nat
  | allocPages n => n
  | _ => 1

/-- The pages that the call hands out: an address other than 0 stands for its pages. -/
def granted (s : Pmm) (c : Call) : List Nat :=
  if (c.exec s).1 = 0 then [] else range' ((c.exec s).1 / pageSize) c.asks

variable {c : Call}

theorem granted_of_zero (h : (c.exec s).1 = 0) : c.granted s = [] := if_pos h

def Frees : Call → Nat → Prop
  | freePage a, q => a = q * pageSize
  | freePageRange a n, q => ∃ i < n, a + i * pageSize = q * pageSize
  | _, _ => False

structure Effect (s : Pmm) (c : Call) : Prop where
  wf : (c.exec s).2.Wf
  managed : ∀ q, (c.exec s).2.managed q = s.managed q
  reserved : ∀ q, s.reserved q = true → (c.exec s).2.reserved q = true
  granted : ∀ q ∈ c.granted s, q ∈ s.freeSet ∧ q ∉ (c.exec s).2.freeSet
  free : ∀ q ∈ (c.exec s).2.freeSet, q ∈ s.freeSet ∨ c.Frees q

theorem Effect.of_gives (h0 : (c.exec s).1 = 0) (hg : Gives s (c.exec s).2 c.Frees) :
    Effect s c where
  wf := hg.wf
  managed := hg.managed
  reserved := fun q hq => (hg.reserved q).trans hq
  granted := fun q hq => by simp [granted_of_zero h0] at hq
  free := hg.free

theorem Effect.of_allocBelow (h : s.Wf) {limit : Nat} (hc : c.asks = 1)
    (ha : AllocBelow s limit (c.exec s)) : Effect s c := by
  generalize he : c.exec s = r at ha
  obtain ⟨p, hp, -, -⟩ | - := ha
  · have hfree : (c.exec s).2.freeSet = s.freeSet.erase p := by rw [he, Pmm.freeSet_take]
    refine ⟨by rw [he]; exact h.take hp, fun q => by rw [he]; rfl, fun q hq => by rw [he]; exact hq,
      fun q hq => ?_, fun q hq => ?_⟩
    · have hqp : q = p := by
        rw [Call.granted, he, hc] at hq
        split at hq
        · cases hq
        · rw [page_mul_div] at hq
          simpa using hq
      rw [hfree, hqp]
      exact ⟨hp, Finset.notMem_erase p _⟩
    · rw [hfree] at hq
      exact .inl (Finset.mem_of_mem_erase hq)
  · exact Effect.of_gives (by rw [he]) (by rw [he]; exact Gives.refl h _)

theorem effect_allocPages (h : s.Wf) (n : Nat) : Effect s (.allocPages n) := by
  have ha : AllocRange s n ((allocPages n).exec s) := pmmAllocPages_spec s n
  generalize he : (allocPages n).exec s = r at ha
  obtain ⟨start, hr, -⟩ | - := ha
  · have hfree : ((allocPages n).exec s).2.freeSet =
        s.freeSet \ Finset.Ico start (start + n) := by rw [he, Pmm.freeSet_takeRange]
    refine ⟨by rw [he]; exact h.takeRange hr, fun q => by rw [he]; rfl,
      fun q hq => by rw [he]; exact hq, fun q hq => ?_, fun q hq => ?_⟩
    · have hin : q ∈ Finset.Ico start (start + n) := by
        rw [Call.granted, he] at hq
        split at hq
        · cases hq
        · rw [page_mul_div] at hq
          exact Finset.mem_Ico.2 (mem_range'_1.1 hq)
      rw [hfree]
      exact ⟨hr hin, fun hc => (Finset.mem_sdiff.1 hc).2 hin⟩
    · rw [hfree] at hq
      exact .inl (Finset.mem_sdiff.1 hq).1
  · exact Effect.of_gives (by rw [he]) (by rw [he]; exact Gives.refl h _)

theorem effect_reservePage (h : s.Wf) (a : Nat) : Effect s (.reservePage a) := by
  have hsame : pmmReservePage s a = s → Effect s (.reservePage a) := fun he =>
    Effect.of_gives rfl (by rw [show ((reservePage a).exec s).2 = s from he]; exact Gives.refl h _)
  by_cases h1 : a % pageSize ≠ 0
  · exact hsame (if_pos h1)
  by_cases h2 : a / pageSize ≥ maxPages
  · exact hsame ((if_neg h1).trans (if_pos h2))
  by_cases h3 : (!s.managed (a / pageSize)) = true
  · exact hsame ((if_neg h1).trans ((if_neg h2).trans (if_pos h3)))
  have he : ((reservePage a).exec s).2 = markPage s (a / pageSize) false :=
    (if_neg h1).trans ((if_neg h2).trans (if_neg h3))
  have hres := reserves_markPage h (p := a / pageSize) (by omega)
  rw [← he] at hres
  exact ⟨hres.wf, hres.managed, fun q hq => (hres.reserved q).2 (.inr hq),
    fun q hq => by
      simp [granted_of_zero (c := reservePage a) (s := s) rfl] at hq, fun q hq => .inl (hres.free hq)⟩

theorem reserved_reservePage (h : s.Wf) {p : Nat} (hp : p < maxPages) (hm : s.managed p = true) :
    ((reservePage (p * pageSize)).exec s).2.reserved p = true := by
  have hres := reserves_markPage h hp
  simp only [exec, pmmReservePage, Nat.mul_mod_left, page_mul_div, hm, Nat.not_le.2 hp, ne_eq,
    not_true_eq_false, if_false, Bool.not_true, Bool.false_eq_true]
  exact (hres.reserved p).2 (.inl rfl)

theorem effect (h : s.Wf) (c : Call) : Effect s c := by
  cases c with
  | allocPage => exact Effect.of_allocBelow h rfl (pmmAllocPageBelow_spec s maxPhys)
  | allocPageBelow m => exact Effect.of_allocBelow h rfl (pmmAllocPageBelow_spec s m)
  | allocPages n => exact effect_allocPages h n
  | freePage a => exact Effect.of_gives rfl (gives_pmmFreePage h a)
  | freePageRange a n =>
    refine Effect.of_gives rfl ?_
    change Gives s (pmmFreePageRange s a n) _
    unfold pmmFreePageRange
    split
    · exact Gives.refl h _
    split
    · exact Gives.refl h _
    · exact gives_freePages h
  | reservePage a => exact effect_reservePage h a

end Call

/-! ### Runs -/

def runCalls : Pmm → List Call → Pmm
  | s, [] => s
  | s, c :: cs => runCalls (c.exec s).2 cs

structure RunEffect (s : Pmm) (cs : List Call) : Prop where
  wf : (runCalls s cs).Wf
  managed : ∀ q, (runCalls s cs).managed q = s.managed q
  reserved : ∀ q, s.reserved q = true → (runCalls s cs).reserved q = true
  free : ∀ q ∈ (runCalls s cs).freeSet, q ∈ s.freeSet ∨ ∃ c ∈ cs, c.Frees q

theorem runEffect (h : s.Wf) (cs : List Call) : RunEffect s cs := by
  induction cs generalizing s with
  | nil => exact ⟨h, fun _ => rfl, fun _ hq => hq, fun _ hq => .inl hq⟩
  | cons c cs ih =>
    have h1 := Call.effect h c
    have h2 := ih h1.wf
    refine ⟨h2.wf, fun q => (h2.managed q).trans (h1.managed q),
      fun q hq => h2.reserved q (h1.reserved q hq), fun q hq => ?_⟩
    obtain hq | ⟨d, hd, hq⟩ := h2.free q hq
    · exact (h1.free q hq).imp_right fun hf => ⟨c, mem_cons_self, hf⟩
    · exact .inr ⟨d, mem_cons_of_mem _ hd, hq⟩

theorem RunEffect.withheld {cs : List Call} (h : RunEffect s cs) (hq : s.Withheld q) :
    (runCalls s cs).Withheld q :=
  hq.imp (h.reserved q) fun hm => (h.managed q).trans hm

/-- The counters and the allocations along every run. In every state reached from `pmm_init` the
counters are the populations of the bitmaps, and for every call made there: a managed page becomes
reserved when it is asked for, a reserved page stays so and is neither handed out nor made free,
what is handed out was managed and free and is so until some call asks for it to be freed, and a
bounded allocation stays below its bound. -/
theorem pmm_accounts (h : Handoff) (cs : List Call) :
    let s := runCalls (pmmInit h) cs
    s.freePagesCount = s.freeSet.card ∧
    s.totalPagesCount = (members s.managedBitmap maxPages).card ∧
    s.reservedPagesCount = (members s.reservedBitmap maxPages).card ∧
    ∀ c : Call,
      (∀ p < maxPages, c = .reservePage (p * pageSize) → s.managed p = true →
        (c.exec s).2.reserved p = true) ∧
      (∀ q, s.reserved q = true →
        (c.exec s).2.reserved q = true ∧ q ∉ c.granted s ∧ q ∉ (c.exec s).2.freeSet) ∧
      (∀ q ∈ c.granted s, s.managed q = true ∧ s.used q = false) ∧
      (∀ n, c = .allocPages n → (c.exec s).1 ≠ 0 →
        ∃ p, (c.exec s).1 = p * pageSize ∧ c.granted s = range' p n) ∧
      (∀ m, c = .allocPageBelow m → (c.exec s).1 ≠ 0 → (c.exec s).1 < m) ∧
      ∀ q ∈ c.granted s, ∀ (ds : List Call) (d : Call),
        q ∈ d.granted (runCalls (c.exec s).2 ds) → ∃ e ∈ ds, e.Frees q := by
  have hs := runEffect (initial_pmmInit h).wf cs
  intro s
  refine ⟨hs.wf.free, hs.wf.total, hs.wf.reserved, fun c => ?_⟩
  have hc := Call.effect hs.wf c
  refine ⟨?_, fun q hq => ⟨hc.reserved q hq, fun hg => ?_, ?_⟩, fun q hq => ?_, ?_, ?_,
    fun q hq ds d hd => ?_⟩
  · rintro p hp rfl hm
    exact Call.reserved_reservePage hs.wf hp hm
  · exact hs.wf.not_free_of_reserved hq (hc.granted q hg).1
  · exact hc.wf.not_free_of_reserved (hc.reserved q hq)
  · exact (Pmm.mem_freeSet.1 (hc.granted q hq).1).2
  · rintro n rfl hne
    have ha : AllocRange s n (Call.exec s (.allocPages n)) := pmmAllocPages_spec s n
    rw [Call.granted, if_neg hne]
    generalize Call.exec s (.allocPages n) = r at ha hne
    obtain ⟨start, -, -⟩ | - := ha
    · exact ⟨start, rfl, by rw [page_mul_div]; rfl⟩
    · exact absurd rfl hne
  · rintro m rfl hne
    have ha : AllocBelow s m (Call.exec s (.allocPageBelow m)) := pmmAllocPageBelow_spec s m
    generalize Call.exec s (.allocPageBelow m) = r at ha hne
    obtain ⟨p, -, hp, -⟩ | - := ha
    · exact hp
    · exact absurd rfl hne
  have hds := runEffect hc.wf ds
  have hfree := ((Call.effect hds.wf d).granted q hd).1
  exact (hds.free q hfree).resolve_left (hc.granted q hq).2

/-- In every state of every run an allocation succeeds whenever a free page below the limit, or a
free range of the length asked for, exists, and takes the lowest one. -/
theorem pmm_alloc_complete (h : Handoff) (cs : List Call) :
    let s : Pmm := runCalls (pmmInit h) cs
    (∀ m, ∀ q ∈ s.freeSet, q * pageSize + pageSize ≤ m →
      (pmmAllocPageBelow s m).1 ∈ Set.Ioc 0 (q * pageSize)) ∧
    ∀ n > 0, ∀ i, Finset.Ico i (i + n) ⊆ s.freeSet →
      (pmmAllocPages s n).1 ∈ Set.Ioc 0 (i * pageSize) := by
  intro s
  have hi := initial_pmmInit h
  have hs := runEffect hi.wf cs
  have hpos : ∀ {p}, p ∈ s.freeSet → 0 < p * pageSize := by
    intro p hp
    refine Nat.pos_of_ne_zero (page_mul_ne_zero ?_)
    rintro rfl
    exact (hs.withheld (hi.low 0 (by decide))).not_free hs.wf hp
  refine ⟨fun m q hq hle => ?_, fun n hn i hfree => ?_⟩
  · have ha := pmmAllocPageBelow_spec s m
    generalize pmmAllocPageBelow s m = r at ha ⊢
    obtain ⟨p, hp, -, hlow⟩ | hnone := ha
    · exact ⟨hpos hp, Nat.mul_le_mul_right _ (hlow q hq)⟩
    · exact absurd (hnone q hq) hle.not_gt
  · have ha := pmmAllocPages_spec s n
    generalize pmmAllocPages s n = r at ha ⊢
    obtain ⟨p, hrange, hfirst⟩ | hnone := ha
    · exact ⟨hpos (hrange (Finset.mem_Ico.2 ⟨le_rfl, by omega⟩)),
        Nat.mul_le_mul_right _ (not_lt.1 fun hlt => hfirst i hlt hfree)⟩
    · exact absurd hfree (hnone hn i)

/-! ### What boot reserves -/

/-- The byte `b` is in the low 1 MiB or in one of the ranges given to `pmm_init`. -/
def Handoff.Protected (h : Handoff) (b : Nat) : Prop :=
  b < 0x100000 ∨ ∃ r ∈ h.ranges, r.base ≤ b ∧ b < r.base + r.size

/-- The condition under which `pmm_init` reserves every page of the range `r`: the arithmetic of
`mark_byte_range` does not give up on it, and the page that holds its first byte is not lost to the
rounding of `mark_range`. -/
def Handoff.Kept (h : Handoff) (r : ByteRange) : Prop :=
  r.size ≠ 0 →
    r.base + r.size ≤ uint64Max ∧ r.size + r.base % pageSize + (pageSize - 1) ≤ uint64Max ∧
    (r.base % pageSize = 0 ∨ ¬h.Usable (r.base / pageSize) ∨ r.base / pageSize < 256 ∨
      ∃ r' ∈ h.ranges, r'.base ≤ r.base / pageSize * pageSize ∧
        r.base / pageSize * pageSize < r'.base + r'.size)

theorem markedBytes_of_start (h1 : r.base + r.size ≤ uint64Max)
    (h2 : r.size + r.base % pageSize + (pageSize - 1) ≤ uint64Max) (hq : q < maxPages)
    (hb : r.base ≤ q * pageSize) (he : q * pageSize < r.base + r.size) :
    MarkedBytes r.base r.size q := by
  unfold MarkedBytes ceilPage
  unfold uint64Max at *
  unfold pageSize at *
  exact ⟨by omega, by omega, by omega, by omega, hq⟩

theorem Initial.withheld_of_kept {h : Handoff} (hi : Initial h s) (hk : ∀ r ∈ h.ranges, h.Kept r)
    (hr : r ∈ h.ranges) {b : Nat} (hq : q < maxPages)
    (hb : q * pageSize ≤ b ∧ b < q * pageSize + pageSize) (hrb : r.base ≤ b ∧ b < r.base + r.size) :
    s.Withheld q := by
  have hstart : ∀ r' ∈ h.ranges, r'.base ≤ q * pageSize → q * pageSize < r'.base + r'.size →
      s.Withheld q := fun r' hr' h1 h2 => by
    obtain ⟨ha, hb, -⟩ := hk r' hr' (by omega)
    exact hi.ranges r' hr' q (markedBytes_of_start ha hb hq h1 h2)
  by_cases hle : r.base ≤ q * pageSize
  · exact hstart r hr hle (by omega)
  -- the first byte of the range lies inside the page
  have hhead : r.base / pageSize = q := by unfold pageSize at *; omega
  obtain ⟨-, -, hc⟩ := hk r hr (by omega)
  rw [hhead] at hc
  obtain hc | hc | hc | ⟨r', hr', h1, h2⟩ := hc
  · unfold pageSize at *
    omega
  · exact .inr (Bool.eq_false_iff.2 fun hm => hc (hi.usable q hm))
  · exact hi.low q hc
  · exact hstart r' hr' h1 h2

/-- When the ranges given to `pmm_init` are kept, no page that any run hands out overlaps the low
1 MiB, the kernel image, the boot information or the memory map. -/
theorem granted_not_protected (h : Handoff) (hk : ∀ r ∈ h.ranges, h.Kept r) (cs : List Call)
    (c : Call) (q : Nat) (hq : q ∈ c.granted (runCalls (pmmInit h) cs)) (b : Nat)
    (hb : q * pageSize ≤ b ∧ b < q * pageSize + pageSize) : ¬h.Protected b := by
  have hi := initial_pmmInit h
  have hs := runEffect hi.wf cs
  have hfree := ((Call.effect hs.wf c).granted q hq).1
  have hnot : ¬(pmmInit h).Withheld q := fun hw => (hs.withheld hw).not_free hs.wf hfree
  have hlt := (Pmm.mem_freeSet.1 hfree).1
  rintro (hlow | ⟨r, hr, hrb⟩)
  · exact hnot (hi.low q (by unfold pageSize at hb; omega))
  · exact hnot (hi.withheld_of_kept hk hr hlt hb hrb)

/-- Boot with one usable region of 16 pages at 1 MiB, described by a map at 3 MiB, the kernel in the
fifth and sixth page and 256 bytes of boot information at `bootInfo`. -/
def sampleBoot (bootInfo : Nat) : Handoff where
  memory := fun a =>
    if a = 0x300000 then 7 else if a = 0x30000A then 0x10 else if a = 0x300018 then 32 else 0
  memoryMap := 0x300000
  memoryMapSize := 48
  descriptorSize := 48
  kernelBase := 0x104000
  kernelEnd := 0x106000
  bootInfo := bootInfo
  bootInfoSize := 0x100

set_option maxRecDepth 20000 in
theorem granted_not_protected_sampleBoot :
    256 ∈ Call.granted (pmmInit (sampleBoot 0x102000)) .allocPage ∧
      ¬(sampleBoot 0x102000).Protected 0x100800 := by
  have hg : 256 ∈ Call.granted (runCalls (pmmInit (sampleBoot 0x102000)) []) .allocPage := by
    decide +kernel
  refine ⟨hg, granted_not_protected _ (fun r hr _ => ?_) [] .allocPage 256 hg _ (by decide)⟩
  simp only [Handoff.ranges, mem_cons, not_mem_nil, or_false] at hr
  obtain rfl | rfl | rfl := hr
  · exact ⟨by decide, by decide, .inl (by decide)⟩
  · exact ⟨by decide, by decide, .inl (by decide)⟩
  · exact ⟨by decide, by decide, .inl (by decide)⟩

set_option maxRecDepth 20000 in
/-- With the boot information in the middle of a page, that page is the first one handed out:
`mark_byte_range` counts the pages from the page of the first byte, but `mark_range` rounds the
start up. -/
theorem granted_bootInfo_page :
    (sampleBoot 0x100800).Fits ∧ (sampleBoot 0x100800).mapOk = true ∧
      256 ∈ Call.granted (pmmInit (sampleBoot 0x100800)) .allocPage ∧
      256 * pageSize ≤ 0x100800 ∧ 0x100800 < 256 * pageSize + pageSize ∧
      (sampleBoot 0x100800).Protected 0x100800 := by
  refine ⟨?_, by decide, by decide +kernel, by decide, by decide, ?_⟩
  · constructor <;> decide
  · exact .inr ⟨⟨0x100800, 0x100⟩, by simp [Handoff.ranges, sampleBoot], by decide, by decide⟩

end RixuriOS.Mm
