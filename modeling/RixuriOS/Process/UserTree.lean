import RixuriOS.Mm.Entry
import RixuriOS.Process.AddressSpace

/-!
# The tree of tables of an address space

The tables that a process owns form a tree below its PML4, with the borrowed
kernel slots cut off: they carry no user bit. `UserTree` says that the tables and
the owned data pages are pairwise different, that the allocator has handed all of
them out, and what the entries look like. `Evolves` says what an operation on
one address space may change; it composes.
-/

namespace RixuriOS

namespace Mm

open WordBitmap PagedTree

variable {m : Machine} {p : Nat}

/-- The page `p` is handed out and can be given back. -/
structure Pmm.Live (s : Pmm) (p : Nat) : Prop where
  lt : p < maxPages
  managed : s.managed p = true
  used : s.used p = true
  unreserved : s.reserved p = false

theorem Pmm.Live.not_free {s : Pmm} (h : s.Live p) : p ∉ s.freeSet := fun hf =>
  Bool.false_ne_true ((Pmm.mem_freeSet.1 hf).2.2 ▸ h.used)

theorem Pmm.Wf.unreserved {s : Pmm} (h : s.Wf) (hp : p ∈ s.freeSet) : s.reserved p = false :=
  Bool.eq_false_iff.2 fun hr => h.not_free_of_reserved hr hp

/-- The allocator is consistent and never hands out page 0, which stands for failure. -/
structure Machine.Ok (m : Machine) : Prop where
  wf : m.pmm.Wf
  zero : m.pmm.Withheld 0

namespace Machine

@[simps -fullyApplied]
def grab (m : Machine) (p : Nat) : Machine :=
  { m with pmm := m.pmm.take p, allocated := p :: m.allocated }

@[simps -fullyApplied]
def drop (m : Machine) (p : Nat) : Machine :=
  { m with pmm := m.pmm.give p, returned := p :: m.returned }

theorem Ok.ne_zero (h : m.Ok) (hp : p ∈ m.pmm.freeSet) : p ≠ 0 := by
  rintro rfl
  exact h.zero.not_free h.wf hp

theorem Ok.ne_zero_of_live (h : m.Ok) (hp : m.pmm.Live p) : p ≠ 0 := by
  rintro rfl
  obtain hr | hm := h.zero
  · exact Bool.false_ne_true (hp.unreserved ▸ hr)
  · exact Bool.false_ne_true (hm ▸ hp.managed)

theorem Ok.grab (h : m.Ok) (hp : p ∈ m.pmm.freeSet) : (m.grab p).Ok :=
  ⟨h.wf.take hp, h.zero⟩

theorem Ok.drop (h : m.Ok) (hp : m.pmm.Live p) : (m.drop p).Ok :=
  ⟨h.wf.give hp.lt hp.managed hp.used hp.unreserved, h.zero⟩

theorem allocPage_cases (h : m.Ok) :
    (m.allocPage = (0, m) ∧ m.pmm.freeSet = ∅) ∨
      ∃ p ∈ m.pmm.freeSet, p ≠ 0 ∧ m.allocPage = (p * pageSize, m.grab p) := by
  have ha := pmmAllocPageBelow_spec m.pmm maxPhys
  unfold allocPage pmmAllocPage
  generalize pmmAllocPageBelow m.pmm maxPhys = r at ha
  obtain ⟨p, hp, -, -⟩ | hnone := ha
  · refine .inr ⟨p, hp, h.ne_zero hp, ?_⟩
    have hne := page_mul_ne_zero (h.ne_zero hp)
    simp only [if_neg hne, page_mul_div]
    rfl
  refine .inl ⟨by simp, Finset.eq_empty_of_forall_notMem fun q hq => ?_⟩
  have h1 := hnone q hq
  have h2 := (Pmm.mem_freeSet.1 hq).1
  unfold maxPhys pageSize at h1
  unfold maxPages at h2
  omega

theorem freePage_live (hp : m.pmm.Live p) : m.freePage (p * pageSize) = m.drop p := by
  have hmod : p * pageSize % pageSize = 0 := Nat.mul_mod_left _ _
  have hdiv := page_mul_div p
  have hlt := hp.lt
  unfold freePage drop
  rw [hdiv]
  congr 1
  unfold pmmFreePage
  rw [if_neg (by omega), hdiv]
  simp only
  rw [if_neg (by omega), if_neg (by simp [hp.managed, hp.used, hp.unreserved])]
  rfl

theorem freePage_free (hp : p ∈ m.pmm.freeSet) : (m.freePage (p * pageSize)).pmm = m.pmm := by
  have hdiv := page_mul_div p
  obtain ⟨-, -, hu⟩ := Pmm.mem_freeSet.1 hp
  change pmmFreePage m.pmm (p * pageSize) = m.pmm
  unfold pmmFreePage
  simp only [hdiv]
  split
  · rfl
  split
  · rfl
  rw [if_pos (by simp [hu])]

end Machine

end Mm

namespace Process

open Mm PagedTree List

theorem index_lt (va h : Nat) : index va h < tableEntries := Nat.mod_lt _ (by decide)

variable {p root : Nat} {e : Entry} {m m' : Machine} {gain : List Nat}

theorem ptr_frame (h0 : p ≠ 0) (hlt : p < maxPages) : ptr (p * pageSize) = p := by
  have hdiv := page_mul_div p
  have hmod : p * pageSize % pageSize = 0 := Nat.mul_mod_left _ _
  have hlt' : p * pageSize < maxPhys := by
    unfold maxPages at hlt
    unfold pageSize maxPhys
    omega
  unfold ptr
  rw [if_neg, hdiv]
  rintro (h | h | h)
  · exact page_mul_ne_zero h0 h
  · exact h hmod
  · omega

def child (e : Entry) : Option Nat :=
  if e.present && e.user && !e.ps then some e.frame else none

def own (e : Entry) : Option Nat := if e.present && e.owned then some e.frame else none

def tree (m : Machine) (root : Nat) : List (Nat × Nat) := nodes child tableEntries m.mem 3 root

abbrev userPages (m : Machine) (root : Nat) : List Nat :=
  ownedPages child tableEntries own m.mem 3 root

def pages (m : Machine) (root : Nat) : List Nat :=
  tables child tableEntries m.mem 3 root ++ ownedPages child tableEntries own m.mem 3 root

/-- What the entry `e` at index `i` of a table of height `h` may be. -/
structure EntryOk (h i : Nat) (e : Entry) : Prop where
  absent : e.present = false → e = 0
  user : e.present = true → e.user = (h != 3 || userSlot i)
  small : e.present = true → e.user = true → e.ps = false

structure UserTree (m : Machine) (root : Nat) : Prop where
  nodup : (pages m root).Nodup
  live : ∀ p ∈ pages m root, m.pmm.Live p
  shape : ∀ x ∈ tree m root, ∀ i < tableEntries, EntryOk x.1 i (m.mem x.2 i)

abbrev ValidIndex (ix : Nat → Nat) : Prop := ∀ j, ix j < tableEntries

def leafVal (m : Machine) (root : Nat) (ix : Nat → Nat) : Entry :=
  (leafAt child m.mem ix 3 root).getD 0

theorem child_of_present {h i : Nat} (he : EntryOk h i e) (hp : e.present = true)
    (hu : (h != 3 || userSlot i) = true) : child e = some e.frame := by
  have huser := (he.user hp).trans hu
  have hps := he.small hp huser
  simp [child, hp, huser, hps]

theorem child_of_absent (hp : e.present = false) : child e = none := by
  simp [child, hp]

theorem own_of_absent (hp : e.present = false) : own e = none := by
  simp [own, hp]

theorem entryOk_zero (h i : Nat) : EntryOk h i 0 := by
  refine ⟨fun _ => rfl, fun hp => ?_, fun hp => ?_⟩ <;> simp [Entry.present] at hp

/-- What an operation on the address space `root` may change, when it takes over the pages
`gain`. -/
structure Evolves (m m' : Machine) (root : Nat) (gain : List Nat) : Prop where
  ok : m'.Ok
  tree : UserTree m' root
  kernelPml4 : m'.kernelPml4 = m.kernelPml4
  borrowed : ∀ i, userSlot i = false → m'.mem root i = m.mem root i
  managed : ∀ p, m'.pmm.managed p = m.pmm.managed p
  reserved : ∀ p, m'.pmm.reserved p = m.pmm.reserved p
  outside : ∀ p, p ∉ pages m root → p ∉ m.pmm.freeSet → p ∉ gain →
    m'.mem p = m.mem p ∧ m'.pmm.used p = m.pmm.used p
  fresh : ∀ p ∈ pages m' root, p ∈ pages m root ∨ p ∈ m.pmm.freeSet ∨ p ∈ gain
  kept : ∀ p, p ∈ pages m root ∨ p ∈ m.pmm.freeSet ∨ p ∈ gain →
    p ∈ pages m' root ∨ p ∈ m'.pmm.freeSet
  source : ∀ p ∈ m'.allocated,
    p ∈ m.allocated ∨ p ∈ pages m root ∨ p ∈ m.pmm.freeSet ∨ p ∈ gain
  balance : ∀ p, m'.returned.count p + (pages m' root).count p + m.allocated.count p =
    m.returned.count p + (pages m root).count p + m'.allocated.count p + gain.count p

theorem Evolves.refl (hok : m.Ok) (h : UserTree m root) : Evolves m m root [] where
  ok := hok
  tree := h
  kernelPml4 := rfl
  borrowed := fun _ _ => rfl
  managed := fun _ => rfl
  reserved := fun _ => rfl
  outside := fun _ _ _ _ => ⟨rfl, rfl⟩
  fresh := fun _ hp => .inl hp
  kept := fun _ hp => hp.imp_right fun hp => hp.resolve_right (by simp)
  source := fun _ hp => .inl hp
  balance := fun p => by simp

theorem Evolves.free_or (h : Evolves m m' root gain) (hp : p ∈ m'.pmm.freeSet) :
    p ∈ pages m root ∨ p ∈ m.pmm.freeSet ∨ p ∈ gain := by
  by_contra hc
  simp only [not_or] at hc
  obtain ⟨hlt, hm, hu⟩ := Pmm.mem_freeSet.1 hp
  have := (h.outside p hc.1 hc.2.1 hc.2.2).2
  exact hc.2.1 (Pmm.mem_freeSet.2 ⟨hlt, (h.managed p).symm.trans hm, this.symm.trans hu⟩)

theorem Evolves.trans {m'' : Machine} {gain' : List Nat} (h : Evolves m m' root gain)
    (h' : Evolves m' m'' root gain') : Evolves m m'' root (gain ++ gain') where
  ok := h'.ok
  tree := h'.tree
  kernelPml4 := h'.kernelPml4.trans h.kernelPml4
  borrowed := fun i hi => (h'.borrowed i hi).trans (h.borrowed i hi)
  managed := fun p => (h'.managed p).trans (h.managed p)
  reserved := fun p => (h'.reserved p).trans (h.reserved p)
  outside := fun p hp hf hg => by
    rw [mem_append, not_or] at hg
    have h1 := h.outside p hp hf hg.1
    have hpages : p ∉ pages m' root := fun hc =>
      (h.fresh p hc).elim hp fun hc => hc.elim hf hg.1
    have hfree : p ∉ m'.pmm.freeSet := fun hc =>
      (h.free_or hc).elim hp fun hc => hc.elim hf hg.1
    have h2 := h'.outside p hpages hfree hg.2
    exact ⟨h2.1.trans h1.1, h2.2.trans h1.2⟩
  fresh := fun p hp => by
    rw [mem_append]
    obtain hp | hp | hp := h'.fresh p hp
    · exact (h.fresh p hp).imp_right fun hc => hc.imp_right .inl
    · exact (h.free_or hp).imp_right fun hc => hc.imp_right .inl
    · exact .inr (.inr (.inr hp))
  kept := fun p hp => by
    rw [mem_append] at hp
    refine h'.kept p ?_
    obtain hp | hp | hp | hp := hp
    · exact (h.kept p (.inl hp)).imp_right .inl
    · exact (h.kept p (.inr (.inl hp))).imp_right .inl
    · exact (h.kept p (.inr (.inr hp))).imp_right .inl
    · exact .inr (.inr hp)
  source := fun p hp => by
    rw [mem_append]
    obtain hp | hp | hp | hp := h'.source p hp
    · exact (h.source p hp).imp_right fun hc => hc.imp_right fun hc => hc.imp_right .inl
    · exact .inr ((h.fresh p hp).imp_right fun hc => hc.imp_right .inl)
    · exact .inr ((h.free_or hp).imp_right fun hc => hc.imp_right .inl)
    · exact .inr (.inr (.inr (.inr hp)))
  balance := fun p => by
    have h1 := h.balance p
    have h2 := h'.balance p
    rw [count_append]
    omega

theorem Evolves.live (h : Evolves m m' root gain) (hp : m.pmm.Live p) (hout : p ∉ pages m root)
    (hg : p ∉ gain) : m'.pmm.Live p :=
  ⟨hp.lt, (h.managed p).trans hp.managed, (h.outside p hout hp.not_free hg).2.trans hp.used,
    (h.reserved p).trans hp.unreserved⟩

end Process

end RixuriOS
