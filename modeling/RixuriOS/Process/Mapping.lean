import RixuriOS.Process.TreeEdits

/-!
# What the mapping functions do

`ensure_table`, `prune_empty_path`, `vmm_map_page_in_pml4` and the functions of
`address_space.c` that map, change and unmap a page, each described by its effect
on the tree of tables and on the leaf entries. A failing call may give empty
tables back, but no leaf changes.
-/

namespace RixuriOS.Process

open Mm PagedTree Entry

/-! ### Flags -/

theorem getLsbD_pteUser (i : Nat) : pteUser.getLsbD i = decide (i = 2) := by
  rw [show pteUser = BitVec.twoPow 64 2 from rfl, BitVec.getLsbD_twoPow]
  simp [eq_comm]

theorem or_pteUser {e : Entry} (h : e.user = true) : e ||| pteUser = e := by
  refine BitVec.eq_of_getLsbD_eq fun i _ => ?_
  rw [BitVec.getLsbD_or, getLsbD_pteUser]
  by_cases hi : i = 2
  · rw [hi]
    simpa [Entry.user] using h
  · simp [hi]

theorem and_pteUser (e : Entry) : e &&& pteUser = if e.user then pteUser else 0 := by
  refine BitVec.eq_of_getLsbD_eq fun i _ => ?_
  rw [BitVec.getLsbD_and, getLsbD_pteUser]
  by_cases hi : i = 2
  · rw [hi, show e.getLsbD 2 = e.user from rfl]
    cases e.user <;> decide
  rw [decide_eq_false hi, Bool.and_false]
  split
  · rw [getLsbD_pteUser, decide_eq_false hi]
  · exact BitVec.getLsbD_zero.symm

variable {flags : Entry} {d k p root va : Nat} {m : Machine}

theorem linkFlags (h : flags.user = true) :
    LinkFlags (ptePresent ||| pteWrite ||| (flags &&& pteUser)) := by
  rw [and_pteUser, if_pos h]
  exact ⟨by decide, by decide, by decide, by decide⟩

def leafEntry (pa : Nat) (flags : Entry) : Entry := mkEntry pa (flags &&& leafFlags)

section

variable (hp : p < 2 ^ 40) (flags : Entry)

include hp

theorem present_leafEntry : (leafEntry (p * pageSize) flags).present = flags.present := by
  rw [leafEntry, present_mkEntry hp, present_and, show leafFlags.present = true by decide, Bool.and_true]

theorem writable_leafEntry : (leafEntry (p * pageSize) flags).writable = flags.writable := by
  rw [leafEntry, writable_mkEntry hp, writable_and, show leafFlags.writable = true by decide, Bool.and_true]

theorem user_leafEntry : (leafEntry (p * pageSize) flags).user = flags.user := by
  rw [leafEntry, user_mkEntry hp, user_and, show leafFlags.user = true by decide, Bool.and_true]

theorem ps_leafEntry : (leafEntry (p * pageSize) flags).ps = false := by
  rw [leafEntry, ps_mkEntry hp, ps_and, show leafFlags.ps = false by decide, Bool.and_false]

theorem owned_leafEntry : (leafEntry (p * pageSize) flags).owned = flags.owned := by
  rw [leafEntry, owned_mkEntry hp, owned_and, show leafFlags.owned = true by decide, Bool.and_true]

theorem nx_leafEntry : (leafEntry (p * pageSize) flags).nx = flags.nx := by
  rw [leafEntry, nx_mkEntry hp, nx_and, show leafFlags.nx = true by decide, Bool.and_true]

theorem frame_leafEntry : (leafEntry (p * pageSize) flags).frame = p := by
  refine frame_mkEntry hp ?_
  rw [BitVec.and_assoc, show leafFlags &&& pageMask = 0#64 by decide, BitVec.and_zero]
  rfl

end

theorem entryOk_leafEntry (hp : p < 2 ^ 40) (hpr : flags.present = true) (hu : flags.user = true)
    (i : Nat) : EntryOk 0 i (leafEntry (p * pageSize) flags) := by
  refine ⟨fun h => ?_, fun _ => ?_, fun _ _ => ps_leafEntry hp flags⟩
  · rw [present_leafEntry hp, hpr] at h
    cases h
  · rw [user_leafEntry hp, hu]
    rfl

/-! ### Tables on the way -/

section

variable (hok : m.Ok) (h : UserTree m root) (hva : userSlot (index va 3) = true)

include hok h hva

variable {q : Nat}

theorem ensureTable_spec (hk : k + 1 + d = 3)
    (hq : node child m.mem (index va) (k + 1) d root = some q) (hf : flags.user = true) :
    (∃ r m', ensureTable m q (index va (k + 1)) flags = (some r, m') ∧ Quiet m m' root ∧
      node child m'.mem (index va) k (d + 1) root = some r) ∨
    ensureTable m q (index va (k + 1)) flags = (none, m) := by
  have hqt : (k + 1, q) ∈ tree m root := mem_tree_of_node hk hq
  have he := h.shape _ hqt _ (index_lt va (k + 1))
  have hidx := userIndex hva (k + 1)
  generalize hee : m.mem q (index va (k + 1)) = e at he
  unfold ensureTable
  simp only [hee]
  by_cases hp : e.present = true
  · have hchild := child_of_present he hp hidx
    have huser : e.user = true := (he.user hp).trans hidx
    rw [if_pos hp, if_pos hf, or_pteUser huser]
    have hsame : m.write q (index va (k + 1)) e = m := by
      unfold Machine.write
      rw [← hee, setEntry_eq_self]
    rw [hsame, hee]
    exact .inl ⟨e.frame, m, rfl, .refl hok h, node_extend hq (by rw [hee]; exact hchild)⟩
  have habs : (m.mem q (index va (k + 1))).present = false := by
    rw [hee]
    exact Bool.eq_false_iff.2 hp
  rw [if_neg hp]
  obtain ⟨ha, -⟩ | ⟨r, hr, hr0, ha⟩ := Machine.allocPage_cases hok
  · rw [ha]
    exact .inr rfl
  have hne := page_mul_ne_zero hr0
  have hdiv := page_mul_div r
  rw [ha]
  rw [if_neg hne, hdiv]
  exact .inl ⟨r, _, rfl, h.attach hok hk hva hq habs hr (linkFlags hf)⟩

omit hok in
theorem splitPdHugePage_eq {pd : Nat} (hq : node child m.mem (index va) 1 2 root = some pd)
    (flags : Entry) :
    splitPdHugePage m pd (index va 1) flags = ensureTable m pd (index va 1) flags := by
  have he := h.shape _ (mem_tree_of_node rfl hq) _ (index_lt va 1)
  have hidx := userIndex hva 1
  unfold splitPdHugePage
  simp only at he ⊢
  by_cases hp : (m.mem pd (index va 1)).present = true
  · have hps := he.small hp ((he.user hp).trans hidx)
    unfold ensureTable
    simp [hp, hps]
  · simp [hp]

theorem pruneEntry_spec {r : Nat} (hk : k + 1 + d = 3)
    (hq : node child m.mem (index va) (k + 1) d root = some q)
    (hr : child (m.mem q (index va (k + 1))) = some r) (hempty : tableIsEmpty m r = true) :
    Quiet m (pruneEntry m q (index va (k + 1)) (m.mem q (index va (k + 1)))) root ∧
    ∀ p, p ≠ q →
      (pruneEntry m q (index va (k + 1)) (m.mem q (index va (k + 1)))).mem p = m.mem p := by
  have hrt : (k, r) ∈ tree m root := mem_tree_of_node (by omega) (node_extend hq hr)
  have hrl : m.pmm.Live r := h.live r (mem_pages_of_tree hrt)
  have hphys : (m.mem q (index va (k + 1))).phys = r * pageSize := by
    rw [phys_eq]
    unfold child at hr
    split at hr
    · rw [Option.some.inj hr]
    · cases hr
  have hres : pmmIsReserved m.pmm (r * pageSize) = false := by
    have hmod : r * pageSize % pageSize = 0 := Nat.mul_mod_left _ _
    have hdiv := page_mul_div r
    unfold pmmIsReserved
    rw [if_neg (by omega), hdiv, hrl.unreserved]
    split <;> rfl
  have hall : ∀ i < tableEntries, (m.mem r i).present = false := by
    intro i hi
    have := List.all_eq_true.1 hempty i (List.mem_range.2 hi)
    simpa using this
  have heq : pruneEntry m q (index va (k + 1)) (m.mem q (index va (k + 1))) =
      detached m q (index va (k + 1)) r := by
    unfold pruneEntry
    rw [hphys, hres, if_neg (by simp)]
    exact Machine.freePage_live (m := m.write q (index va (k + 1)) 0)
      ⟨hrl.lt, hrl.managed, hrl.used, hrl.unreserved⟩
  rw [heq]
  exact ⟨h.detach hok hk hva hq hr hall, fun p hp => setEntry_of_ne m.mem _ 0 hp⟩

omit hok in
theorem link_of_present (hk : k + 1 + d = 3)
    (hq : node child m.mem (index va) (k + 1) d root = some q)
    (hp : (m.mem q (index va (k + 1))).present = true) :
    child (m.mem q (index va (k + 1))) = some (m.mem q (index va (k + 1))).frame ∧
      (m.mem q (index va (k + 1))).ps = false := by
  have he := h.shape _ (mem_tree_of_node hk hq) _ (index_lt va (k + 1))
  have hidx := userIndex hva (k + 1)
  exact ⟨child_of_present he hp hidx, he.small hp ((he.user hp).trans hidx)⟩

end

theorem prunePdpt_spec {pdpt : Nat} (hok : m.Ok) (h : UserTree m root)
    (hva : userSlot (index va 3) = true) (hr : child (m.mem root (index va 3)) = some pdpt) :
    Quiet m (if tableIsEmpty m pdpt then pruneEntry m root (index va 3) (m.mem root (index va 3))
      else m) root := by
  split
  · rename_i he
    exact (pruneEntry_spec hok h hva (k := 2) (d := 0) rfl rfl hr he).1
  · exact .refl hok h

/-- `prune_empty_path` gives empty tables back and changes no leaf. -/
theorem pruneEmptyPath_spec (hok : m.Ok) (h : UserTree m root)
    (hva : userSlot (index va 3) = true) : Quiet m (pruneEmptyPath m root va) root := by
  unfold pruneEmptyPath
  simp only
  by_cases hp4 : (m.mem root (index va 3)).present = true
  case neg => simp only [hp4]; exact .refl hok h
  obtain ⟨hc4, -⟩ := link_of_present h hva (k := 2) (d := 0) rfl rfl hp4
  have hn3 : node child m.mem (index va) 2 1 root = some (m.mem root (index va 3)).frame :=
    node_extend (d := 0) rfl hc4
  have hne3 : root ≠ (m.mem root (index va 3)).frame := fun he => by
    have := h.height_eq_three (mem_tree_of_node rfl hn3) he.symm
    cases this
  generalize hpdpt : (m.mem root (index va 3)).frame = pdpt at *
  simp only [hp4, Bool.not_true, Bool.false_eq_true, if_false]
  by_cases hp3 : (m.mem pdpt (index va 2)).present = true
  case neg => simp only [hp3, Bool.not_false, if_true]; exact prunePdpt_spec hok h hva hc4
  obtain ⟨hc3, hps3⟩ := link_of_present h hva (k := 1) (d := 1) rfl hn3 hp3
  have hn2 : node child m.mem (index va) 1 2 root = some (m.mem pdpt (index va 2)).frame :=
    node_extend hn3 hc3
  have hne2 : pdpt ≠ (m.mem pdpt (index va 2)).frame := fun he => by
    have := h.eq_of_snd (mem_tree_of_node rfl hn3) (mem_tree_of_node rfl hn2) he
    cases congrArg Prod.fst this
  generalize hpd : (m.mem pdpt (index va 2)).frame = pd at *
  simp only [hp3, hps3, Bool.not_true, Bool.false_eq_true, if_false]
  -- cutting off the page directory leaves the PML4 entry in place
  have hprunePd : tableIsEmpty m pd = true →
      Quiet m (pruneEntry m pdpt (index va 2) (m.mem pdpt (index va 2))) root ∧
      (pruneEntry m pdpt (index va 2) (m.mem pdpt (index va 2))).mem root = m.mem root :=
    fun he => by
      obtain ⟨h1, h3⟩ := pruneEntry_spec hok h hva (k := 1) (d := 1) rfl hn3 hc3 he
      exact ⟨h1, h3 root hne3⟩
  have hfinish : ∀ m1, Quiet m m1 root → m1.mem root = m.mem root →
      Quiet m (if tableIsEmpty m1 pdpt then pruneEntry m1 root (index va 3)
        (m.mem root (index va 3)) else m1) root := fun m1 hq1 hroot => by
    have := prunePdpt_spec hq1.evolves.ok hq1.evolves.tree hva (show child _ = some pdpt by rw [hroot]; exact hc4)
    rw [hroot] at this
    exact hq1.trans this
  by_cases hp2 : (m.mem pd (index va 1)).present = true
  case neg =>
    simp only [hp2, Bool.not_false, if_true]
    split
    · rename_i he
      exact hfinish _ (hprunePd he).1 (hprunePd he).2
    · exact hfinish m (.refl hok h) rfl
  obtain ⟨hc2, hps2⟩ := link_of_present h hva (k := 0) (d := 2) rfl hn2 hp2
  have hne1 : root ≠ pd := fun he => by
    have := h.height_eq_three (mem_tree_of_node rfl hn2) he.symm
    cases this
  generalize hpt : (m.mem pd (index va 1)).frame = pt at *
  simp only [hp2, hps2, Bool.not_true, Bool.false_eq_true, if_false]
  cases hept : tableIsEmpty m pt with
  | false => exact .refl hok h
  | true =>
  simp only [Bool.not_true, Bool.false_eq_true, if_false]
  obtain ⟨hq2, hout2⟩ := pruneEntry_spec hok h hva (k := 0) (d := 2) rfl hn2 hc2 hept
  generalize pruneEntry m pd (index va 1) (m.mem pd (index va 1)) = m2 at hq2 hout2 ⊢
  have hrow : m2.mem pdpt = m.mem pdpt := hout2 pdpt hne2
  have hroot2 : m2.mem root = m.mem root := hout2 root hne1
  cases hepd : tableIsEmpty m2 pd with
  | false => exact hq2
  | true =>
  simp only [Bool.not_true, Bool.false_eq_true, if_false]
  have hn3' : node child m2.mem (index va) 2 1 root = some pdpt :=
    node_extend (d := 0) rfl (by rw [hroot2]; exact hc4)
  obtain ⟨hq3, hout3⟩ := pruneEntry_spec hq2.evolves.ok hq2.evolves.tree hva (k := 1) (d := 1)
    rfl hn3' (by rw [hrow]; exact hc3) hepd
  rw [hrow] at hq3 hout3
  generalize pruneEntry m2 pdpt (index va 2) (m.mem pdpt (index va 2)) = m3 at hq3 hout3 ⊢
  have hroot3 : m3.mem root = m.mem root := (hout3 root hne3).trans hroot2
  have := hfinish m3 (hq2.trans hq3) hroot3
  cases hepdpt : tableIsEmpty m3 pdpt with
  | false => simpa [hepdpt] using this
  | true => simpa [hepdpt] using this

/-! ### Mapping a page -/

/-- `vmm_map_page_in_pml4` for a user address replaces the leaf, or fails and changes no leaf. The
three tables on the way are there or are linked, so that the leaf can be written. -/
theorem vmmMapPageInPml4_cases (hok : m.Ok) (h : UserTree m root) (pa : Nat)
    (hva : userSlot (index va 3) = true) (hf : flags.user = true) :
    (∃ m', vmmMapPageInPml4 m (root * pageSize) va pa flags = (-1, m') ∧ Quiet m m' root) ∨
    ∃ m1 pt, vmmMapPageInPml4 m (root * pageSize) va pa flags =
        (0, m1.write pt (index va 0) (leafEntry pa flags)) ∧
      Quiet m m1 root ∧ node child m1.mem (index va) 0 3 root = some pt ∧
      pa % pageSize = 0 ∧ pa < 2 ^ 52 := by
  have hdiv := page_mul_div root
  unfold vmmMapPageInPml4
  split
  · exact .inl ⟨m, rfl, .refl hok h⟩
  rename_i hargs
  simp only [not_or] at hargs
  obtain ⟨-, -, -, hpa, hpa'⟩ := hargs
  simp only [hdiv]
  have hprune : ∀ m1, Quiet m m1 root → Quiet m (pruneEmptyPath m1 root va) root := fun m1 hq =>
    hq.trans (pruneEmptyPath_spec hq.evolves.ok hq.evolves.tree hva)
  obtain ⟨pdpt, m1, he1, hq1, hn1⟩ | he1 := ensureTable_spec hok h hva (k := 2) (d := 0) rfl rfl hf
  case inr => rw [he1]; exact .inl ⟨_, rfl, hprune m (.refl hok h)⟩
  simp only [Nat.reduceAdd] at he1
  rw [he1]
  simp only
  obtain ⟨pd, m2, he2, hq2, hn2⟩ | he2 :=
    ensureTable_spec hq1.evolves.ok hq1.evolves.tree hva (k := 1) (d := 1) rfl hn1 hf
  case inr => rw [he2]; exact .inl ⟨_, rfl, hprune m1 hq1⟩
  have hq12 := hq1.trans hq2
  simp only [Nat.reduceAdd] at he2
  rw [he2]
  simp only
  rw [splitPdHugePage_eq hq2.evolves.tree hva hn2]
  obtain ⟨pt, m3, he3, hq3, hn3⟩ | he3 :=
    ensureTable_spec hq2.evolves.ok hq2.evolves.tree hva (k := 0) (d := 2) rfl hn2 hf
  case inr => rw [he3]; exact .inl ⟨_, rfl, hprune m2 hq12⟩
  simp only [Nat.reduceAdd] at he3
  rw [he3]
  exact .inr ⟨m3, pt, rfl, hq12.trans hq3, hn3, by omega, by omega⟩

/-! ### Reading -/

theorem walkFrom_eq (hok : m.Ok) (h : UserTree m root) (hva : userSlot (index va 3) = true)
    {t : Nat} (hk : k + d = 3) (ht : node child m.mem (index va) k d root = some t) :
    walkFrom m va k t = (leafAt child m.mem (index va) k t).getD 0 := by
  induction k generalizing d t with
  | zero => rfl
  | succ k ih =>
    unfold walkFrom
    rw [leafAt_succ]
    by_cases hp : (m.mem t (index va (k + 1))).present = true
    · obtain ⟨hc, hps⟩ := link_of_present h hva hk ht hp
      have hn := node_extend ht hc
      have hl := h.live _ (mem_pages_of_tree (mem_tree_of_node (by omega) hn))
      rw [hc]
      simp only [hp, hps, Bool.not_true, Bool.and_false, Bool.false_eq_true, if_false]
      rw [phys_eq, ptr_frame (hok.ne_zero_of_live hl) hl.lt]
      exact ih (by omega) hn
    · rw [child_of_absent (Bool.eq_false_iff.2 hp)]
      simp [hp]

theorem UserTree.live_root (h : UserTree m root) : m.pmm.Live root :=
  h.live root (mem_pages_of_tree (root_mem_tree m root))

section

variable (hok : m.Ok) (h : UserTree m root)

include hok h

theorem ptr_root : ptr (root * pageSize) = root :=
  ptr_frame (hok.ne_zero_of_live h.live_root) h.live_root.lt

theorem root_mul_ne_zero : root * pageSize ≠ 0 :=
  page_mul_ne_zero (hok.ne_zero_of_live h.live_root)

variable (hlt : va < 2 ^ 47) (hslot : userPml4Ok va = true)

include hlt hslot

theorem walkPte_eq : walkPte m (root * pageSize) va = leafVal m root (index va) := by
  unfold walkPte
  rw [if_neg, ptr_root hok h]
  · exact walkFrom_eq hok h hslot (k := 3) (d := 0) rfl rfl
  rintro (hc | hc)
  · exact root_mul_ne_zero hok h hc
  · exact absurd hlt (by omega)

theorem queryFlags_eq : addressSpaceQueryFlags m (root * pageSize) va =
    leafVal m root (index va) &&& (ptePresent ||| pteWrite ||| pteUser ||| pteNx ||| pteOwned) := by
  rw [addressSpaceQueryFlags, walkPte_eq hok h hlt hslot]

theorem queryFlags_present : (addressSpaceQueryFlags m (root * pageSize) va).present =
    (leafVal m root (index va)).present := by
  rw [queryFlags_eq hok h hlt hslot, present_and]
  exact Bool.and_true _

theorem queryFlags_owned : (addressSpaceQueryFlags m (root * pageSize) va).owned =
    (leafVal m root (index va)).owned := by
  rw [queryFlags_eq hok h hlt hslot, owned_and]
  exact Bool.and_true _

end

section

variable (h : UserTree m root) (hp : (leafVal m root (index va)).present = true)

include h hp

theorem leafVal_ok :
    ∃ pt, node child m.mem (index va) 0 3 root = some pt ∧
      leafVal m root (index va) = m.mem pt (index va 0) ∧
      (leafVal m root (index va)).user = true ∧ (leafVal m root (index va)).ps = false := by
  cases hn : node child m.mem (index va) 0 3 root with
  | none => simp [leafVal, leafAt, hn, Entry.present] at hp
  | some pt =>
  have hv := leafVal_of_node hn
  have he := h.shape _ (mem_tree_of_node rfl hn) _ (index_lt va 0)
  rw [← hv] at he
  have hu : (leafVal m root (index va)).user = true := by simpa using he.user hp
  exact ⟨pt, rfl, hv, hu, he.small hp hu⟩

theorem UserTree.owned_of_leaf
    (ho : (leafVal m root (index va)).owned = true) :
    (leafVal m root (index va)).frame ∈ userPages m root := by
  obtain ⟨pt, hn, hv, -, -⟩ := leafVal_ok h hp
  refine mem_ownedPages.2 ⟨pt, mem_tree_of_node rfl hn, index va 0, index_lt va 0, ?_⟩
  rw [← hv, own, hp, ho]
  rfl

end

theorem lt_of_userVa (hva : userVa va = true) : va < 2 ^ 47 := by
  simp only [userVa, Bool.and_eq_true, decide_eq_true_eq] at hva
  omega

section

variable (hok : m.Ok) (h : UserTree m root) (hlt : va < 2 ^ 47) (hslot : userPml4Ok va = true)
  (hp : (leafVal m root (index va)).present = true)

include hok h hlt hslot hp

theorem translate_eq :
    addressSpaceTranslate m (root * pageSize) va =
      (leafVal m root (index va)).frame * pageSize + va % pageSize := by
  obtain ⟨-, -, -, -, hps⟩ := leafVal_ok h hp
  have hoff : va % 2 ^ 12 < 2 ^ 12 := Nat.mod_lt _ (by decide)
  unfold addressSpaceTranslate
  rw [walkPte_eq hok h hlt hslot]
  simp only [hp, hps, Bool.not_true, Bool.false_eq_true, if_false]
  rw [phys_eq, show pageSize = 2 ^ 12 from rfl, Nat.mul_comm _ (2 ^ 12),
    Nat.two_pow_add_eq_or_of_lt hoff]

theorem translate_div :
    addressSpaceTranslate m (root * pageSize) va / pageSize =
      (leafVal m root (index va)).frame := by
  rw [translate_eq hok h hlt hslot hp, Nat.mul_comm, Nat.mul_add_div (by decide),
    Nat.div_eq_of_lt (Nat.mod_lt _ (by decide)), Nat.add_zero]

end

/-! ### The interface of address spaces -/

theorem SameAddress.refl (ix : Nat → Nat) : SameAddress ix ix := fun _ _ => rfl

/-- Mapping `va` to `pa` succeeds with the leaf for it, or fails and changes no leaf. -/
inductive Mapped (m : Machine) (root va pa : Nat) (flags : Entry) : Int × Machine → Prop
  | refused (m' : Machine) (hquiet : Quiet m m' root) : Mapped m root va pa flags (-1, m')
  | done (m' : Machine) (hva : userVa va = true) (hslot : userPml4Ok va = true)
      (hpa : ∃ p < 2 ^ 40, pa = p * pageSize)
      (hev : Evolves m m' root (own (leafEntry pa flags)).toList)
      (hsame : leafVal m' root (index va) = leafEntry pa flags)
      (hother : SameElsewhere m m' root va)
      (hdata : ∀ p, p ∈ userPages m root ∨
          own (leafEntry pa flags) = some p →
        p ∈ userPages m' root ∧ m'.mem p = m.mem p)
      (habs : (leafVal m root (index va)).present = false) :
      Mapped m root va pa flags (0, m')

def mapFlags (flags : Entry) (owned : Bool) : Entry :=
  if owned then flags ||| ptePresent ||| pteUser ||| pteOwned
  else (flags ||| ptePresent ||| pteUser) &&& ~~~pteOwned

section

variable (flags) (owned : Bool)

theorem present_mapFlags : (mapFlags flags owned).present = true := by
  cases owned <;> simp [mapFlags]

theorem user_mapFlags : (mapFlags flags owned).user = true := by
  cases owned <;> simp [mapFlags]

theorem owned_mapFlags : (mapFlags flags owned).owned = owned := by
  cases owned <;> simp [mapFlags]

theorem writable_mapFlags : (mapFlags flags owned).writable = flags.writable := by
  cases owned <;> simp [mapFlags]

theorem nx_mapFlags : (mapFlags flags owned).nx = flags.nx := by
  cases owned <;> simp [mapFlags]

end

theorem own_leafEntry (hp : p < 2 ^ 40) (hpr : flags.present = true) :
    own (leafEntry (p * pageSize) flags) = if flags.owned then some p else none := by
  rw [own, present_leafEntry hp, owned_leafEntry hp, frame_leafEntry hp, hpr, Bool.true_and]

theorem mapped_of_write {m1 : Machine} {pt : Nat} (hva : userVa va = true)
    (hslot : userPml4Ok va = true) (habs : (leafVal m root (index va)).present = false)
    (hq : Quiet m m1 root) (hn : node child m1.mem (index va) 0 3 root = some pt) (hp : p < 2 ^ 40)
    (he' : EntryOk 0 (index va 0) (leafEntry (p * pageSize) flags))
    (hown : ∀ q, own (leafEntry (p * pageSize) flags) = some q → q ∉ pages m root ∧ m.pmm.Live q) :
    Mapped m root va (p * pageSize) flags
      (0, m1.write pt (index va 0) (leafEntry (p * pageSize) flags)) := by
  have h1 := hq.evolves
  have hleaf := leafVal_of_node hn
  have habs1 : (m1.mem pt (index va 0)).present = false := by
    rw [← hleaf, hq.leaf _ (index_lt va)]
    exact habs
  have hs := h1.tree.setLeaf hn
    (m1.write_mem pt (index va 0) (leafEntry (p * pageSize) flags)) he'
  have hown1 : ∀ q, own (leafEntry (p * pageSize) flags) = some q →
      q ∉ pages m1 root ∧ m1.pmm.Live q := fun q hq => by
    obtain ⟨hout, hl⟩ := hown q hq
    refine ⟨fun hc => ?_, h1.live hl hout (by simp)⟩
    obtain hc | hc | hc := h1.fresh q hc
    · exact hout hc
    · exact hl.not_free hc
    · cases hc
  have hev := h1.trans (h1.tree.evolves_map h1.ok hn habs1 he' hown1)
  refine .done _ hva hslot ⟨p, hp, rfl⟩ hev (hs.leaf_same _ (.refl _)) (fun jx hjx hne =>
    (hs.leaf_other jx hjx hne).trans (hq.leaf jx hjx)) (fun q hq' => ?_) habs
  have hq1 : m1.mem q = m.mem q := by
    obtain hq' | hq' := hq'
    · exact hq.data q hq'
    · obtain ⟨hout, hl⟩ := hown q hq'
      exact (h1.outside q hout hl.not_free (by simp)).1
  rw [userPages, ← hq.owned] at hq'
  have := h1.tree.data_map hn habs1 (fun q hq => (hown1 q hq).1) hq'
  exact ⟨this.1, this.2.trans hq1⟩

/-- `map_page`. An owned page has to be live and new to the address space. -/
theorem mapPage_spec (hok : m.Ok) (h : UserTree m root) (va pa : Nat) (flags : Entry) (owned : Bool)
    (howned : owned = true → ∃ p, pa = p * pageSize ∧ m.pmm.Live p ∧ p ∉ pages m root) :
    Mapped m root va pa (mapFlags flags owned)
      (mapPage m (root * pageSize) va pa flags owned) := by
  unfold mapPage
  split
  · exact .refused m (.refl hok h)
  rename_i hargs
  simp only [not_or, Bool.not_eq_true', Bool.not_eq_false] at hargs
  obtain ⟨-, hva, hslot, -⟩ := hargs
  split
  · exact .refused m (.refl hok h)
  rename_i hpres
  have habs : (leafVal m root (index va)).present = false := by
    rw [queryFlags_present hok h (lt_of_userVa hva) hslot] at hpres
    exact Bool.eq_false_iff.2 hpres
  change Mapped m root va pa _ (vmmMapPageInPml4 m (root * pageSize) va pa (mapFlags flags owned))
  obtain ⟨m', he, hq⟩ | ⟨m1, pt, he, hq, hn, hpa, hpa'⟩ :=
    vmmMapPageInPml4_cases hok h pa hslot (user_mapFlags flags owned)
  · rw [he]
    exact .refused m' hq
  obtain ⟨p, rfl⟩ : ∃ p, pa = p * pageSize := ⟨pa / pageSize, by unfold pageSize at *; omega⟩
  have hp : p < 2 ^ 40 := by unfold pageSize at hpa'; omega
  rw [he]
  refine mapped_of_write hva hslot habs hq hn hp
    (entryOk_leafEntry hp (present_mapFlags _ _) (user_mapFlags _ _) _) fun q hq => ?_
  rw [own_leafEntry hp (present_mapFlags _ _), owned_mapFlags] at hq
  cases owned with
  | false => simp at hq
  | true =>
  obtain rfl : p = q := by simpa using hq
  obtain ⟨p', he', hl, hout⟩ := howned rfl
  obtain rfl : p = p' := Nat.eq_of_mul_eq_mul_right (by decide) he'
  exact ⟨hout, hl⟩

/-- Changing the flags of `va` succeeds with the leaf `e'`, or fails and changes no leaf. -/
inductive Updated (m : Machine) (root va : Nat) (flags : Entry) : Int × Machine → Prop
  | refused (m' : Machine) (hquiet : Quiet m m' root) : Updated m root va flags (-1, m')
  | done (m' : Machine) (hva : userVa va = true) (hslot : userPml4Ok va = true)
      (hold : (leafVal m root (index va)).present = true ∧ (leafVal m root (index va)).owned = true)
      (hev : Evolves m m' root [])
      (hsame : leafVal m' root (index va) =
        leafEntry ((leafVal m root (index va)).frame * pageSize) (mapFlags flags true))
      (hother : SameElsewhere m m' root va) : Updated m root va flags (0, m')

theorem addressSpaceUpdateFlags_spec (hok : m.Ok) (h : UserTree m root) (va : Nat) (flags : Entry) :
    Updated m root va flags (addressSpaceUpdateFlags m (root * pageSize) va flags) := by
  unfold addressSpaceUpdateFlags
  split
  · exact .refused m (.refl hok h)
  rename_i hargs
  simp only [not_or, Bool.not_eq_true', Bool.not_eq_false] at hargs
  obtain ⟨-, hva, hslot⟩ := hargs
  simp only
  split
  · exact .refused m (.refl hok h)
  rename_i hold
  rw [queryFlags_eq hok h (lt_of_userVa hva) hslot] at hold
  simp only [Bool.not_eq_true', Bool.not_eq_false, Bool.and_eq_true, present_and,
    user_and, owned_and] at hold
  have hp : (leafVal m root (index va)).present = true := hold.1.1.1
  have ho : (leafVal m root (index va)).owned = true := hold.2.1
  rw [translate_div hok h (lt_of_userVa hva) hslot hp]
  split
  · exact .refused m (.refl hok h)
  change Updated m root va flags (vmmMapPageInPml4 m (root * pageSize) va _ (mapFlags flags true))
  generalize hfr : (leafVal m root (index va)).frame = p
  have hplt : p < 2 ^ 40 := hfr ▸ frame_lt _
  obtain ⟨m', he, hq⟩ | ⟨m1, pt, he, hq, hn, -, -⟩ :=
    vmmMapPageInPml4_cases hok h (p * pageSize) hslot (user_mapFlags flags true)
  · rw [he]
    exact .refused m' hq
  have h1 := hq.evolves
  have hleaf : m1.mem pt (index va 0) = leafVal m root (index va) := by
    rw [← leafVal_of_node hn, hq.leaf _ (index_lt va)]
  have heok := entryOk_leafEntry hplt (present_mapFlags flags true) (user_mapFlags flags true)
    (index va 0)
  have hown : own (leafEntry (p * pageSize) (mapFlags flags true)) =
      own (m1.mem pt (index va 0)) := by
    rw [own_leafEntry hplt (present_mapFlags _ _), owned_mapFlags, hleaf, own, hp, ho, hfr]
    rfl
  have hs := h1.tree.setLeaf hn
    (m1.write_mem pt (index va 0) (leafEntry (p * pageSize) (mapFlags flags true))) heok
  rw [he]
  refine .done _ hva hslot ⟨hp, ho⟩ (h1.trans (h1.tree.evolves_update h1.ok hn heok hown)) ?_
    fun jx hjx hne => (hs.leaf_other jx hjx hne).trans (hq.leaf jx hjx)
  rw [hfr]
  exact hs.leaf_same _ (.refl _)

def unmapped (m : Machine) (va pt : Nat) (e : Entry) : Machine :=
  if e.owned then (m.write pt (index va 0) 0).drop e.frame else m.write pt (index va 0) 0

inductive Unmapped (m : Machine) (root va : Nat) : Int × Machine → Prop
  | refused (habs : userVa va = true → userPml4Ok va = true →
      (leafVal m root (index va)).present = false) : Unmapped m root va (-1, m)
  | done (pt : Nat) (hva : userVa va = true) (hslot : userPml4Ok va = true)
      (hn : node child m.mem (index va) 0 3 root = some pt)
      (hp : (leafVal m root (index va)).present = true)
      (hev : Evolves m (unmapped m va pt (leafVal m root (index va))) root [])
      (hsame : leafVal (unmapped m va pt (leafVal m root (index va))) root (index va) = 0)
      (hother : SameElsewhere m (unmapped m va pt (leafVal m root (index va))) root va) :
      Unmapped m root va (0, unmapped m va pt (leafVal m root (index va)))

theorem child_eq_some {e : Entry} {t : Nat} (h : child e = some t) :
    e.present = true ∧ e.ps = false ∧ e.frame = t := by
  unfold child at h
  split at h
  · rename_i hc
    simp only [Bool.and_eq_true, Bool.not_eq_true'] at hc
    exact ⟨hc.1.1, hc.2, Option.some.inj h⟩
  · cases h

theorem addressSpaceUnmap_spec (hok : m.Ok) (h : UserTree m root) (va : Nat) :
    Unmapped m root va (addressSpaceUnmap m (root * pageSize) va) := by
  unfold addressSpaceUnmap
  split
  · rename_i hargs
    refine .refused fun hva hslot => absurd hargs ?_
    simp [hva, hslot, root_mul_ne_zero hok h]
  rename_i hargs
  simp only [not_or, Bool.not_eq_true', Bool.not_eq_false] at hargs
  obtain ⟨-, hva, hslot⟩ := hargs
  simp only
  split
  · rename_i hold
    rw [queryFlags_present hok h (lt_of_userVa hva) hslot] at hold
    exact .refused fun _ _ => by simpa using hold
  rename_i hold
  rw [queryFlags_present hok h (lt_of_userVa hva) hslot, Bool.not_eq_true', Bool.not_eq_false] at hold
  have hp : (leafVal m root (index va)).present = true := hold
  obtain ⟨pt, hn, hv, -, -⟩ := leafVal_ok h hp
  -- the three links on the way
  have hptr : ∀ {k d t : Nat} {e : Entry}, k + d = 3 → node child m.mem (index va) k d root = some t →
      e.frame = t → ptr e.phys = t := fun hk hnode he => by
    have hl := h.live _ (mem_pages_of_tree (mem_tree_of_node hk hnode))
    rw [phys_eq, he]
    exact ptr_frame (hok.ne_zero_of_live hl) hl.lt
  have hn' := hn
  rw [node_succ] at hn'
  obtain ⟨t3, hc3, hn'⟩ := Option.bind_eq_some_iff.1 hn'
  rw [node_succ] at hn'
  obtain ⟨t2, hc2, hn'⟩ := Option.bind_eq_some_iff.1 hn'
  rw [node_succ] at hn'
  obtain ⟨t1, hc1, hn'⟩ := Option.bind_eq_some_iff.1 hn'
  obtain rfl : t1 = pt := by simpa [node] using hn'
  simp only [Nat.zero_add, Nat.reduceAdd] at hc3 hc2 hc1
  have hn3 : node child m.mem (index va) 2 1 root = some t3 := node_extend (d := 0) rfl hc3
  have hn2 : node child m.mem (index va) 1 2 root = some t2 := node_extend hn3 hc2
  obtain ⟨hp3, -, hf3⟩ := child_eq_some hc3
  obtain ⟨hp2, -, hf2⟩ := child_eq_some hc2
  obtain ⟨hp1, hps1, hf1⟩ := child_eq_some hc1
  rw [ptr_root hok h, hptr rfl hn3 hf3, hptr rfl hn2 hf2, hptr rfl hn hf1]
  simp only [hp3, hp2, hp1, hps1, Bool.not_true, Bool.or_false, Bool.false_eq_true, if_false]
  rw [translate_div hok h (lt_of_userVa hva) hslot hp]
  obtain ⟨hnone, hsome⟩ := h.evolves_unmap hok hn
  have hs := h.setLeaf hn (m.write_mem t1 (index va 0) 0) (entryOk_zero _ _)
  have hsame : ∀ e : Entry, leafVal (unmapped m va t1 e) root (index va) = 0 := fun e => by
    unfold unmapped
    split <;> exact hs.leaf_same _ (.refl _)
  have hother : ∀ (e : Entry) (jx : Nat → Nat), (∀ j, jx j < tableEntries) →
      ¬SameAddress (index va) jx → leafVal (unmapped m va t1 e) root jx = leafVal m root jx := by
    intro e jx hjx hne
    unfold unmapped
    split <;> exact hs.leaf_other jx hjx hne
  have hown : own (m.mem t1 (index va 0)) = if (leafVal m root (index va)).owned then
      some (leafVal m root (index va)).frame else none := by
    rw [← hv, own, hp, Bool.true_and]
  rw [queryFlags_owned hok h (lt_of_userVa hva) hslot]
  have hfinal : (if (leafVal m root (index va)).owned = true then
      (m.write t1 (index va 0) 0).freePage ((leafVal m root (index va)).frame * pageSize)
      else m.write t1 (index va 0) 0) = unmapped m va t1 (leafVal m root (index va)) := by
    unfold unmapped
    split
    · rename_i ho
      rw [if_pos ho] at hown
      have hl := h.live _ (List.mem_append_right _ (mem_ownedPages.2
        ⟨t1, mem_tree_of_node rfl hn, index va 0, index_lt va 0, hown⟩))
      exact Machine.freePage_live (m := m.write t1 (index va 0) 0)
        ⟨hl.lt, hl.managed, hl.used, hl.unreserved⟩
    · rfl
  rw [hfinal]
  refine .done t1 hva hslot hn hp ?_ (hsame _) (hother _)
  unfold unmapped
  split
  · rename_i ho
    rw [if_pos ho] at hown
    exact hsome _ hown
  rename_i ho
  rw [if_neg ho] at hown
  exact hnone hown

end RixuriOS.Process
