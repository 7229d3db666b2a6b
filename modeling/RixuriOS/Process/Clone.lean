import RixuriOS.Process.SpaceRun

/-!
# Cloning an address space

`address_space_clone` walks the tables of the source and gives the new address
space a private copy of every page it finds. The walk is followed region by region:
`Copies m src r R m1 m2` says that the addresses in the region `R` were copied between the
states `m1` and `m2`, and that all other addresses of the clone stayed as they
were. Regions add up.
-/

namespace RixuriOS.Process

open Mm PagedTree List

/-! ### Addresses of a subtree -/

variable {jx : Nat → Nat} {m0 : Machine} {e : Entry} {s : Session} {held shared : List Nat}

def slotBase (base i h : Nat) : Nat := base + i * 2 ^ (12 + 9 * h)

variable {d r : Nat} {m' : Machine} {owned : List Nat}

section

variable {base i h : Nat} (hb : base % 2 ^ (12 + 9 * (h + 1)) = 0) (hi : i < tableEntries)

include hb hi

theorem index_slotBase_self : index (slotBase base i h) h = i := by
  obtain ⟨b, rfl⟩ := Nat.dvd_of_mod_eq_zero hb
  have hpos : 0 < 2 ^ (12 + 9 * h) := Nat.two_pow_pos _
  have hs : 2 ^ (12 + 9 * (h + 1)) * b + i * 2 ^ (12 + 9 * h) =
      2 ^ (12 + 9 * h) * (512 * b + i) := by
    rw [show 12 + 9 * (h + 1) = 12 + 9 * h + 9 by omega, Nat.pow_add]
    ring
  unfold tableEntries at hi
  rw [index, slotBase, hs, Nat.mul_div_cancel_left _ hpos]
  omega

theorem index_slotBase_above {j : Nat} (hj : h < j) :
    index (slotBase base i h) j = index base j := by
  obtain ⟨b, rfl⟩ := Nat.dvd_of_mod_eq_zero hb
  obtain ⟨k, rfl⟩ : ∃ k, j = h + 1 + k := ⟨j - (h + 1), by omega⟩
  have hlt : i * 2 ^ (12 + 9 * h) < 2 ^ (12 + 9 * (h + 1)) := by
    rw [show 12 + 9 * (h + 1) = 9 + (12 + 9 * h) by omega, Nat.pow_add 2 9]
    exact Nat.mul_lt_mul_of_pos_right hi (Nat.two_pow_pos _)
  have hpow : 2 ^ (12 + 9 * (h + 1 + k)) = 2 ^ (12 + 9 * (h + 1)) * 2 ^ (9 * k) := by
    rw [← Nat.pow_add]
    congr 1
    omega
  rw [index, index, slotBase, hpow, ← Nat.div_div_eq_div_mul, ← Nat.div_div_eq_div_mul,
    Nat.mul_add_div (Nat.two_pow_pos _), Nat.div_eq_of_lt hlt,
    Nat.mul_div_cancel_left _ (Nat.two_pow_pos _), Nat.add_zero]

omit hi in
theorem slotBase_mod : slotBase base i h % 2 ^ (12 + 9 * h) = 0 := by
  have hdvd : 2 ^ (12 + 9 * h) ∣ base :=
    (pow_dvd_pow 2 (by omega)).trans (Nat.dvd_of_mod_eq_zero hb)
  exact Nat.mod_eq_zero_of_dvd (Nat.dvd_add hdvd (Dvd.intro_left _ rfl))

theorem agreeAbove_slotBase :
    (AgreeAbove (index base) jx h d ∧ jx h = i) ↔
      ∀ j, h ≤ j → j ≤ h + d → jx j = index (slotBase base i h) j := by
  constructor
  · rintro ⟨hag, hji⟩ j h1 h2
    obtain rfl | hlt := Nat.eq_or_lt_of_le h1
    · rw [hji, index_slotBase_self hb hi]
    · rw [index_slotBase_above hb hi hlt]
      exact hag j hlt h2
  intro hall
  refine ⟨fun j h1 h2 => ?_, ?_⟩
  · rw [hall j h1.le h2, index_slotBase_above hb hi h1]
  · rw [hall h (le_refl _) (by omega), index_slotBase_self hb hi]

end

/-! ### Copying regions -/

def cloneFlags : Entry := ptePresent ||| pteWrite ||| pteUser ||| pteNx

/-- The leaf `e'` of the address space `r` in the state `m'` is a private copy of the leaf `e` in
the state `m`. -/
structure CopyOf (m m' : Machine) (r : Nat) (e e' : Entry) : Prop where
  absent : e.present = false → e' = 0
  present : e.present = true → ∃ q ∈ userPages m' r,
    e' = leafEntry (q * pageSize) (mapFlags (e &&& cloneFlags) true) ∧ m'.mem q = m.mem e.frame

/-- Between `m1` and `m2` the region `R` of the address space `src` was copied to `r`. -/
structure Copies (m : Machine) (src r : Nat) (R : (Nat → Nat) → Prop) (m1 m2 : Machine) :
    Prop where
  inv : SpaceInv m r m2 []
  copied : ∀ jx, ValidIndex jx → R jx →
    CopyOf m m2 r (leafVal m src jx) (leafVal m2 r jx)
  other : ∀ jx, ValidIndex jx → ¬R jx →
    leafVal m2 r jx = leafVal m1 r jx
  data : ∀ p ∈ userPages m1 r, p ∈ userPages m2 r ∧ m2.mem p = m1.mem p

section

variable {m m1 m2 m3 : Machine} {src : Nat} {R R' : (Nat → Nat) → Prop}

theorem Copies.skip (hinv : SpaceInv m r m1 [])
    (hfresh : ∀ jx, ValidIndex jx → R jx → leafVal m1 r jx = 0)
    (habs : ∀ jx, ValidIndex jx → R jx →
      (leafVal m src jx).present = false) : Copies m src r R m1 m1 where
  inv := hinv
  copied := fun jx hjx hR => ⟨fun _ => hfresh jx hjx hR, fun hp =>
    absurd hp (by rw [habs jx hjx hR]; simp)⟩
  other := fun _ _ _ => rfl
  data := fun _ hp => ⟨hp, rfl⟩

theorem Copies.congr (h : Copies m src r R m1 m2)
    (hR : ∀ jx, ValidIndex jx → (R' jx ↔ R jx)) :
    Copies m src r R' m1 m2 where
  inv := h.inv
  copied := fun jx hjx hR' => h.copied jx hjx ((hR jx hjx).1 hR')
  other := fun jx hjx hR' => h.other jx hjx fun hc => hR' ((hR jx hjx).2 hc)
  data := h.data

theorem Copies.trans (h : Copies m src r R m1 m2) (h' : Copies m src r R' m2 m3) :
    Copies m src r (fun jx => R jx ∨ R' jx) m1 m3 where
  inv := h'.inv
  copied := fun jx hjx hR => by
    by_cases hR' : R' jx
    · exact h'.copied jx hjx hR'
    obtain ⟨habs, hpres⟩ := h.copied jx hjx (hR.resolve_right hR')
    rw [h'.other jx hjx hR']
    refine ⟨habs, fun hp => ?_⟩
    obtain ⟨q, hq, he, hm⟩ := hpres hp
    exact ⟨q, (h'.data q hq).1, he, (h'.data q hq).2.trans hm⟩
  other := fun jx hjx hR => by
    rw [not_or] at hR
    exact (h'.other jx hjx hR.2).trans (h.other jx hjx hR.1)
  data := fun p hp => ⟨(h'.data p (h.data p hp).1).1,
    (h'.data p (h.data p hp).1).2.trans (h.data p hp).2⟩

end

/-- The outcome of copying a region: all of it was copied, or the copy failed somewhere. -/
inductive Cloned (m : Machine) (src r : Nat) (R : (Nat → Nat) → Prop) (m1 : Machine) :
    Int × Machine → Prop
  | failed (rc : Int) (hrc : rc ≠ 0) (m2 : Machine) (hinv : SpaceInv m r m2 []) :
      Cloned m src r R m1 (rc, m2)
  | done (m2 : Machine) (hc : Copies m src r R m1 m2) : Cloned m src r R m1 (0, m2)

variable {m m1 : Machine} {root src va : Nat}

theorem Cloned.congr {R R' : (Nat → Nat) → Prop} {res : Int × Machine} (h : Cloned m src r R m1 res)
    (hR : ∀ jx, ValidIndex jx → (R' jx ↔ R jx)) :
    Cloned m src r R' m1 res := by
  obtain ⟨rc, hrc, m2, hinv⟩ | ⟨m2, hc⟩ := h
  · exact .failed rc hrc m2 hinv
  · exact .done m2 (hc.congr hR)

theorem forSlots_cloned {R : Nat → (Nat → Nat) → Prop} {body : Nat → Machine → Int × Machine}
    {is : List Nat} (hnd : is.Nodup) (hdisj : ∀ i j jx, R i jx → R j jx → i = j)
    (hbody : ∀ i ∈ is, ∀ m1, SpaceInv m r m1 [] → (∀ jx, ValidIndex jx →
      R i jx → leafVal m1 r jx = 0) → Cloned m src r (R i) m1 (body i m1))
    (hinv : SpaceInv m r m1 []) (hfresh : ∀ jx, ValidIndex jx →
      (∃ i ∈ is, R i jx) → leafVal m1 r jx = 0) :
    Cloned m src r (fun jx => ∃ i ∈ is, R i jx) m1 (forSlots body is m1) := by
  induction is generalizing m1 with
  | nil => exact .done m1 (.skip hinv (by simp) (by simp))
  | cons i is ih =>
    obtain ⟨hi, hnd⟩ := nodup_cons.1 hnd
    have hstep := hbody i mem_cons_self m1 hinv fun jx hjx hR =>
      hfresh jx hjx ⟨i, mem_cons_self, hR⟩
    unfold forSlots
    generalize body i m1 = res at hstep
    obtain ⟨rc, hrc, m2, hinv2⟩ | ⟨m2, hc⟩ := hstep
    · simp only [if_pos hrc]
      exact .failed _ (by decide) m2 hinv2
    simp only [ne_eq, not_true_eq_false, if_false]
    have hrest := ih hnd (fun j hj => hbody j (mem_cons_of_mem _ hj)) hc.inv
      fun jx hjx ⟨j, hj, hR⟩ => by
        have hne : ¬R i jx := fun hc => hi (hdisj i j jx hc hR ▸ hj)
        rw [hc.other jx hjx hne]
        exact hfresh jx hjx ⟨j, mem_cons_of_mem _ hj, hR⟩
    generalize forSlots body is m2 = res at hrest
    obtain ⟨rc, hrc, m3, hinv3⟩ | ⟨m3, hc'⟩ := hrest
    · exact .failed rc hrc m3 hinv3
    · exact .done m3 ((hc.trans hc').congr fun jx _ => by simp)

/-! ### The walk -/

section

variable (hsrc : UserTree m src)

theorem clonePage_spec (hinv : SpaceInv m r m1 []) (hp : e.present = true)
    (hframe : e.frame ∉ m.pmm.freeSet)
    (hleaf : ∀ jx, SameAddress (index va) jx → leafVal m src jx = e) :
    Cloned m src r (SameAddress (index va)) m1 (clonePage (r * pageSize) va e m1) := by
  unfold clonePage
  split
  · exact .failed _ (by decide) m1 hinv
  obtain ⟨ha, -⟩ | ⟨q, hq, hq0, ha⟩ := Machine.allocPage_cases hinv.ok
  · rw [ha]
    exact .failed _ (by decide) m1 hinv
  have hqlt := (Pmm.mem_freeSet.1 hq).1
  have hne := page_mul_ne_zero hq0
  rw [ha]
  simp only [if_neg hne, ptr_frame hq0 hqlt]
  have htaken : SpaceInv m r (m1.grab q) [q] := hinv.take hq rfl rfl fun _ _ => rfl
  split
  · exact .failed _ (by decide) _ htaken.giveBack
  rename_i hptr
  have hsrcptr : ptr e.phys = e.frame := by
    rw [Entry.phys_eq] at hptr ⊢
    have hptr := (not_or.1 hptr).1
    unfold ptr at hptr ⊢
    split at hptr
    · exact absurd rfl hptr
    · rename_i hc
      rw [if_neg hc, page_mul_div]
  rw [hsrcptr, Machine.grab_mem, (hinv.foreign _ hframe).1]
  have hspec := hinv.mapFresh hq (m.mem e.frame) va (e &&& cloneFlags)
  rw [cloneFlags] at hspec
  generalize addressSpaceMap ((m1.grab q).fill q (m.mem e.frame)) (r * pageSize) va (q * pageSize)
    (e &&& (ptePresent ||| pteWrite ||| pteUser ||| pteNx)) = res at hspec
  obtain ⟨m2, hinv2, -⟩ | ⟨m2, hinv2, hsame, hother, ⟨hnew, hrow⟩, hdata⟩ := hspec
  · exact .failed _ (by decide) _ hinv2.giveBack
  refine .done m2 ⟨hinv2, fun jx hjx hR => ⟨fun hc => ?_, fun _ => ?_⟩, hother, hdata⟩
  · rw [hleaf jx hR, hp] at hc
    cases hc
  · rw [hleaf jx hR, leafVal_same hR]
    exact ⟨q, hnew, hsame, hrow⟩

variable (hok : m.Ok) (hmapped : ∀ jx, ValidIndex jx →
  (leafVal m src jx).present = true → (leafVal m src jx).frame ∉ m.pmm.freeSet)

include hsrc hok hmapped

/-- `clone_user_level` copies the addresses below the table `t`. The induction is on the height of
the table. -/
theorem cloneUserLevel_spec {h t : Nat} (base : Nat) (hk : h + d = 3)
    (hb : base % 2 ^ (12 + 9 * (h + 1)) = 0) (ht : node child m.mem (index base) h d src = some t)
    (hinv : SpaceInv m r m1 []) (hfresh : ∀ jx, ValidIndex jx →
      AgreeAbove (index base) jx h d → leafVal m1 r jx = 0) :
    Cloned m src r (fun jx => AgreeAbove (index base) jx h d) m1
      (cloneUserLevel (r * pageSize) h t base m1) := by
  induction h generalizing d t base m1 with
  | zero =>
    have htl := hsrc.live t (mem_pages_of_tree (mem_tree_of_node hk ht))
    -- the leaf of an address is the entry of its slot
    have hleaf : ∀ jx, AgreeAbove (index base) jx 0 d → leafVal m src jx = m.mem t (jx 0) :=
      fun jx hag => by
        have := leafAt_of_node ht hag
        rw [hk] at this
        rw [leafVal, this]
        rfl
    unfold cloneUserLevel
    refine (forSlots_cloned (R := fun i jx => AgreeAbove (index base) jx 0 d ∧ jx 0 = i)
      nodup_range (fun i j jx hi hj => hi.2.symm.trans hj.2) (fun i hi m1 hinv hfresh => ?_)
      hinv fun jx hjx hex => hex.elim fun i h => hfresh jx hjx h.2.1).congr fun jx hjx => ?_
    · have hi := mem_range.1 hi
      have he := hsrc.shape _ (mem_tree_of_node hk ht) i hi
      rw [(hinv.foreign t htl.not_free).1]
      simp only at he ⊢
      split
      · rename_i habs
        have habs : (m.mem t i).present = false := by
          by_contra hc
          have hc : (m.mem t i).present = true := by simpa using hc
          have := he.user hc
          simp [hc, this] at habs
        refine .done m1 (.skip hinv hfresh fun jx _ hR => ?_)
        rw [hleaf jx hR.1, hR.2, habs]
      rename_i hp
      have hp : (m.mem t i).present = true := by
        by_contra hc
        simp [hc] at hp
      have hR : ∀ jx, (AgreeAbove (index base) jx 0 d ∧ jx 0 = i) ↔
          SameAddress (index (slotBase base i 0)) jx := fun jx => by
        rw [agreeAbove_slotBase hb hi, hk]
        exact ⟨fun h j hj => h j (by omega) hj, fun h j _ hj => h j hj⟩
      have hval : ∀ jx, SameAddress (index (slotBase base i 0)) jx →
          leafVal m src jx = m.mem t i := fun jx hs => by
        obtain ⟨hag, h0⟩ := (hR jx).2 hs
        rw [hleaf jx hag, h0]
      have hself := hval _ (.refl _)
      have hframe := hmapped _ (index_lt (slotBase base i 0)) (by rw [hself]; exact hp)
      rw [hself] at hframe
      exact (clonePage_spec hinv hp hframe hval).congr fun jx _ => hR jx
    · simp [hjx 0]
  | succ h ih =>
    have htt := mem_tree_of_node hk ht
    have htl := hsrc.live t (mem_pages_of_tree htt)
    unfold cloneUserLevel
    refine (forSlots_cloned (R := fun i jx => AgreeAbove (index base) jx (h + 1) d ∧ jx (h + 1) = i)
      nodup_range (fun i j jx hi hj => hi.2.symm.trans hj.2) (fun i hi m1 hinv hfresh => ?_)
      hinv fun jx hjx hex => hex.elim fun i h => hfresh jx hjx h.2.1).congr fun jx hjx => ?_
    · have hi := mem_range.1 hi
      have he := hsrc.shape _ htt i hi
      rw [(hinv.foreign t htl.not_free).1]
      simp only at he ⊢
      split
      · rename_i habs
        refine .done m1 (.skip hinv hfresh fun jx _ hR => ?_)
        have hchild : child (m.mem t (jx (h + 1))) = none := by
          rw [hR.2, child]
          rw [Bool.or_eq_true] at habs
          obtain hc | hc := habs
          · rw [Bool.not_eq_true'] at hc
            simp [hc]
          · rw [Bool.not_eq_true'] at hc
            simp [hc]
        have := (leafAt_of_node ht hR.1).trans (leafAt_succ m.mem jx h t)
        rw [hk, hchild, Option.bind_none] at this
        simp [leafVal, this, Entry.present]
      rename_i hpu
      obtain ⟨hp, hu⟩ : (m.mem t i).present = true ∧ (m.mem t i).user = true := by
        simpa using hpu
      have hps := he.small hp hu
      have hchild : child (m.mem t i) = some (m.mem t i).frame := by simp [child, hp, hu, hps]
      have hnode : node child m.mem (index (slotBase base i (h + 1))) h (d + 1) src =
          some (m.mem t i).frame := by
        refine node_extend (q := t) ?_ (by rw [index_slotBase_self hb hi]; exact hchild)
        rw [← ht]
        exact node_of_agree (fun j h1 _ => index_slotBase_above hb hi h1) src
      have hnl := hsrc.live _ (mem_pages_of_tree (mem_tree_of_node (by omega) hnode))
      have hR : ∀ jx, (AgreeAbove (index base) jx (h + 1) d ∧ jx (h + 1) = i) ↔
          AgreeAbove (index (slotBase base i (h + 1))) jx h (d + 1) := fun jx => by
        rw [agreeAbove_slotBase hb hi]
        exact ⟨fun h j h1 h2 => h j (by omega) (by omega),
          fun h j h1 h2 => h j (by omega) (by omega)⟩
      simp only [hps, Bool.false_eq_true, if_false]
      rw [Entry.phys_eq, ptr_frame (hok.ne_zero_of_live hnl) hnl.lt]
      refine (ih _ (by omega) (slotBase_mod hb) hnode hinv fun jx hjx hag => ?_).congr
        fun jx _ => hR jx
      exact hfresh jx hjx ((hR jx).2 hag)
    · simp [hjx (h + 1)]

inductive CloneOutcome (m : Machine) (src : Nat) : Int × Nat × Machine → Prop
  | failed (rc : Int) (hrc : rc ≠ 0) (m' : Machine) (hm' : Restored m m') :
      CloneOutcome m src (rc, 0, m')
  | done (r : Nat) (m' : Machine) (hinv : SpaceInv m r m' [])
      (hcopy : ∀ jx, ValidIndex jx →
        CopyOf m m' r (leafVal m src jx) (leafVal m' r jx)) :
      CloneOutcome m src (0, r * pageSize, m')

/-- `address_space_clone` copies every mapped page, or restores the allocator. -/
theorem addressSpaceClone_spec (hkt : ptr m.kernelPml4 ∉ m.pmm.freeSet) :
    CloneOutcome m src (addressSpaceClone m (src * pageSize)) := by
  have hcreate := addressSpaceCreate_spec hok hkt
  unfold addressSpaceClone
  rw [if_neg (root_mul_ne_zero hok hsrc)]
  generalize addressSpaceCreate m = c at hcreate
  obtain ⟨rc, hrc, m', hm', -⟩ | ⟨r, hr, row, hkernel, hrow⟩ := hcreate
  · simp only [if_pos hrc]
    exact .failed _ (by decide) m' hm'
  simp only [ne_eq, not_true_eq_false, if_false]
  have hinv := spaceInv_created hok hkt hr hkernel hrow
  have hclone := cloneUserLevel_spec hsrc hok hmapped (h := 3) (d := 0) 0 rfl rfl rfl hinv
    fun jx hjx _ => leafVal_created hrow hjx
  rw [ptr_root hok hsrc]
  generalize cloneUserLevel (r * pageSize) 3 src 0 ((m.grab r).fill r row) = res at hclone
  obtain ⟨rc, hrc, m2, hinv2⟩ | ⟨m2, hc⟩ := hclone
  · rw [if_pos hrc]
    exact .failed _ (by decide) _ hinv2.destroy
  · simp only [not_true_eq_false, if_false]
    exact .done r m2 hc.inv fun jx hjx => hc.copied jx hjx fun j h1 h2 => by omega

end

/-! ### What a process sees -/

def UserAddress (va : Nat) : Prop := va < 2 ^ 47 ∧ userPml4Ok va = true

def IsMapped (m : Machine) (as va : Nat) : Prop := (addressSpaceQueryFlags m as va).present = true

def pageAt (m : Machine) (as va : Nat) : Nat := addressSpaceTranslate m as va / pageSize

def SpacePage (m : Machine) (as p : Nat) : Prop :=
  p ∈ tables child tableEntries m.mem 3 (ptr as) ∨
    ∃ va, UserAddress va ∧ IsMapped m as va ∧ pageAt m as va = p

section

variable (hok : m.Ok) (h : UserTree m root) (hva : UserAddress va)

include hok h hva

theorem isMapped_iff :
    IsMapped m (root * pageSize) va ↔ (leafVal m root (index va)).present = true := by
  rw [IsMapped, queryFlags_present hok h hva.1 hva.2]

theorem pageAt_eq (hp : (leafVal m root (index va)).present = true) :
    pageAt m (root * pageSize) va = (leafVal m root (index va)).frame :=
  translate_div hok h hva.1 hva.2 hp

end

/-- The flags that a clone keeps, as `address_space_query_flags` reports them. -/
theorem and_cloneFlags (e : Entry) :
    e &&& (ptePresent ||| pteWrite ||| pteUser ||| pteNx ||| pteOwned) &&& cloneFlags =
      e &&& cloneFlags := by
  rw [BitVec.and_assoc]
  rfl

theorem and_cloneFlags_congr {e' : Entry} (hp : e.present = e'.present)
    (hw : e.writable = e'.writable) (hu : e.user = e'.user) (hn : e.nx = e'.nx) :
    e &&& cloneFlags = e' &&& cloneFlags := by
  have hbits : ∀ i < 64, cloneFlags.getLsbD i = true → i = 0 ∨ i = 1 ∨ i = 2 ∨ i = 63 := by decide
  refine BitVec.eq_of_getLsbD_eq fun i hi => ?_
  rw [BitVec.getLsbD_and, BitVec.getLsbD_and]
  by_cases hc : cloneFlags.getLsbD i = true
  · refine congrArg (· && _) ?_
    obtain rfl | rfl | rfl | rfl := hbits i hi hc
    · exact hp
    · exact hw
    · exact hu
    · exact hn
  · simp [hc]

theorem leafEntry_and_cloneFlags {q : Nat} (hq : q < 2 ^ 40) (hp : e.present = true)
    (hu : e.user = true) :
    leafEntry (q * pageSize) (mapFlags (e &&& cloneFlags) true) &&& cloneFlags =
      e &&& cloneFlags := by
  refine and_cloneFlags_congr ?_ ?_ ?_ ?_
  · rw [present_leafEntry hq, present_mapFlags, hp]
  · rw [writable_leafEntry hq, writable_mapFlags, Entry.writable_and,
      show cloneFlags.writable = true by decide, Bool.and_true]
  · rw [user_leafEntry hq, user_mapFlags, hu]
  · rw [nx_leafEntry hq, nx_mapFlags, Entry.nx_and, show cloneFlags.nx = true by decide,
      Bool.and_true]

def addressOf (jx : Nat → Nat) : Nat :=
  slotBase (slotBase (slotBase (slotBase 0 (jx 3) 3) (jx 2) 2) (jx 1) 1) (jx 0) 0

theorem sameAddress_addressOf (hjx : ValidIndex jx) : SameAddress (index (addressOf jx)) jx := by
  have h3 : (0 : Nat) % 2 ^ (12 + 9 * (3 + 1)) = 0 := rfl
  have h2 := slotBase_mod (i := jx 3) h3
  have h1 := slotBase_mod (i := jx 2) h2
  have h0 := slotBase_mod (i := jx 1) h1
  intro j hj
  unfold addressOf
  match j, hj with
  | 0, _ => rw [index_slotBase_self h0 (hjx 0)]
  | 1, _ => rw [index_slotBase_above h0 (hjx 0) (by decide), index_slotBase_self h1 (hjx 1)]
  | 2, _ =>
    rw [index_slotBase_above h0 (hjx 0) (by decide), index_slotBase_above h1 (hjx 1) (by decide),
      index_slotBase_self h2 (hjx 2)]
  | 3, _ =>
    rw [index_slotBase_above h0 (hjx 0) (by decide), index_slotBase_above h1 (hjx 1) (by decide),
      index_slotBase_above h2 (hjx 2) (by decide), index_slotBase_self h3 (hjx 3)]

theorem userAddress_addressOf (hjx : ValidIndex jx) (hs : userSlot (jx 3) = true) :
    UserAddress (addressOf jx) := by
  refine ⟨?_, ?_⟩
  · have h0 := hjx 0
    have h1 := hjx 1
    have h2 := hjx 2
    simp only [userSlot, Bool.or_eq_true, Bool.and_eq_true, beq_iff_eq, decide_eq_true_eq] at hs
    unfold tableEntries at h0 h1 h2
    simp only [addressOf, slotBase]
    omega
  · rw [userPml4Ok, ← sameAddress_addressOf hjx 3 (le_refl _)]
    exact hs

theorem leafVal_of_absent (h : UserTree m root)
    (habs : (leafVal m root (index va)).present = false) : leafVal m root (index va) = 0 := by
  cases hn : node child m.mem (index va) 0 3 root with
  | none => rw [leafVal, leafAt, hn]; rfl
  | some pt =>
  have hv := leafVal_of_node hn
  rw [hv] at habs ⊢
  exact (h.shape _ (mem_tree_of_node rfl hn) _ (index_lt va 0)).absent habs

theorem userSlot_of_leaf (h : UserTree m root) (hjx : ValidIndex jx)
    (hp : (leafVal m root jx).present = true) : userSlot (jx 3) = true := by
  have he := h.shape _ (root_mem_tree m root) (jx 3) (hjx 3)
  by_contra hc
  have hnone : child (m.mem root (jx 3)) = none := by
    by_cases hpr : (m.mem root (jx 3)).present = true
    · have hu := he.user hpr
      rw [bne_self_eq_false, Bool.false_or] at hu
      simp [child, hu, hc]
    · exact child_of_absent (Bool.eq_false_iff.2 hpr)
  rw [leafVal, leafAt_succ, hnone, Option.bind_none] at hp
  simp [Entry.present] at hp

/-- What a caller of `address_space_clone` gets: the source is as it was, the clone shows the same
pages under the same flags in memory of its own, and a failed call costs no pages. -/
structure FaithfulClone (m : Machine) (as : Nat) (k : Int × Nat × Machine) : Prop where
  source : ∀ p, SpacePage m as p → k.2.2.mem p = m.mem p
  flags : k.1 = 0 → ∀ va, UserAddress va →
    addressSpaceQueryFlags k.2.2 k.2.1 va &&& cloneFlags =
      addressSpaceQueryFlags m as va &&& cloneFlags
  bytes : k.1 = 0 → ∀ va, UserAddress va → IsMapped m as va →
    k.2.2.mem (pageAt k.2.2 k.2.1 va) = m.mem (pageAt m as va)
  fresh : k.1 = 0 → ∀ va, UserAddress va → IsMapped m as va → ∀ va', UserAddress va' →
    IsMapped m as va' → pageAt k.2.2 k.2.1 va ≠ pageAt m as va'
  failed : k.1 ≠ 0 → k.2.2.pmm.freePagesCount = m.pmm.freePagesCount

theorem faithfulClone (hok : m.Ok) (hsrc : UserTree m src) (hkt : ptr m.kernelPml4 ∉ m.pmm.freeSet)
    (hused : ∀ va, UserAddress va → IsMapped m (src * pageSize) va →
      pageAt m (src * pageSize) va ∉ m.pmm.freeSet) :
    FaithfulClone m (src * pageSize) (addressSpaceClone m (src * pageSize)) := by
  have hmapped : ∀ jx, ValidIndex jx →
      (leafVal m src jx).present = true → (leafVal m src jx).frame ∉ m.pmm.freeSet := by
    intro jx hjx hp
    have hva := userAddress_addressOf hjx (userSlot_of_leaf hsrc hjx hp)
    rw [leafVal_same (sameAddress_addressOf hjx)] at hp ⊢
    rw [← pageAt_eq hok hsrc hva hp]
    exact hused _ hva ((isMapped_iff hok hsrc hva).2 hp)
  -- nothing of the source was free
  have hinuse : ∀ p, SpacePage m (src * pageSize) p → p ∉ m.pmm.freeSet := by
    rintro p (hp | ⟨va, hva, hm, rfl⟩)
    · rw [ptr_root hok hsrc] at hp
      exact fun hc => hsrc.not_mem_of_free hc (mem_append_left _ hp)
    · exact hused va hva hm
  have hout := addressSpaceClone_spec hsrc hok hmapped hkt
  generalize addressSpaceClone m (src * pageSize) = k at hout
  obtain ⟨rc, hrc, m', hm'⟩ | ⟨r, m', hinv, hcopy⟩ := hout
  · exact ⟨fun p hp => hm'.mem p (hinuse p hp), fun h => absurd h hrc, fun h => absurd h hrc,
      fun h => absurd h hrc, fun _ => hm'.freePagesCount hok⟩
  -- the copy of a mapped page
  have hpage : ∀ va, UserAddress va → IsMapped m (src * pageSize) va →
      ∃ q ∈ pages m' r, q < 2 ^ 40 ∧ leafVal m' r (index va) = leafEntry (q * pageSize)
        (mapFlags (leafVal m src (index va) &&& cloneFlags) true) ∧
        pageAt m' (r * pageSize) va = q ∧ m'.mem q = m.mem (pageAt m (src * pageSize) va) := by
    intro va hva hm
    have hp := (isMapped_iff hok hsrc hva).1 hm
    obtain ⟨q, hq, he, hmem⟩ := (hcopy _ (index_lt va)).present hp
    have hqp : q ∈ pages m' r := mem_append_right _ hq
    have hqlt := (hinv.tree.live q hqp).lt.trans_le maxPages_le
    refine ⟨q, hqp, hqlt, he, ?_, by rw [hmem, pageAt_eq hok hsrc hva hp]⟩
    rw [pageAt_eq hinv.ok hinv.tree hva, he, frame_leafEntry hqlt]
    rw [he, present_leafEntry hqlt, present_mapFlags]
  refine ⟨fun p hp => (hinv.foreign p (hinuse p hp)).1, fun _ va hva => ?_, fun _ va hva hm => ?_,
    fun _ va hva hm va' hva' hm' heq => ?_, fun h => absurd rfl h⟩
  · rw [queryFlags_eq hinv.ok hinv.tree hva.1 hva.2, queryFlags_eq hok hsrc hva.1 hva.2,
      and_cloneFlags, and_cloneFlags]
    by_cases hp : (leafVal m src (index va)).present = true
    · obtain ⟨q, -, hqlt, he, -⟩ := hpage va hva ((isMapped_iff hok hsrc hva).2 hp)
      obtain ⟨-, -, -, hu, -⟩ := leafVal_ok hsrc hp
      rw [he, leafEntry_and_cloneFlags hqlt hp hu]
    · have hp := Bool.eq_false_iff.2 hp
      rw [(hcopy _ (index_lt va)).absent hp, leafVal_of_absent hsrc hp]
  · obtain ⟨q, -, -, -, hq, hmem⟩ := hpage va hva hm
    rw [hq, hmem]
  obtain ⟨q, hqp, -, -, hq, -⟩ := hpage va hva hm
  rw [hq] at heq
  exact (hinv.foreign q (heq ▸ hused va' hva' hm')).2.2.1 hqp

/-- Cloning an address space in use, as long as no page that it maps was given back to the
allocator behind its back. -/
theorem clone_faithful {m0 : Machine} (hok : m0.Ok) (hallocated : m0.allocated = [])
    (hreturned : m0.returned = []) (hkernel : ptr m0.kernelPml4 ∉ m0.pmm.freeSet)
    (hcreate : (addressSpaceCreate m0).1 = 0) (ops : List SpaceOp) :
    let c := addressSpaceCreate m0
    let s := runSpace c.2.1 ⟨c.2.2, [], [], []⟩ ops
    (∀ va, UserAddress va → IsMapped s.machine c.2.1 va →
      pageAt s.machine c.2.1 va ∉ s.machine.pmm.freeSet) →
    FaithfulClone s.machine c.2.1 (addressSpaceClone s.machine c.2.1) := by
  obtain ⟨root, hroot, hstart, -⟩ := accounted_create hok hallocated hreturned hkernel hcreate
  intro c s hused
  have hend : Accounted m0 root s := by
    have := hstart.run ops
    rwa [← hroot] at this
  have hkt : ptr s.machine.kernelPml4 ∉ s.machine.pmm.freeSet := by
    rw [hend.inv.kernelPml4]
    exact hend.inv.not_free hkernel
  rw [hroot] at hused ⊢
  exact faithfulClone hend.inv.ok hend.inv.tree hkt hused

def Tracked (root : Nat) (s : Session) : Prop :=
  ∀ va, (leafVal s.machine root (index va)).present = true →
    (leafVal s.machine root (index va)).owned = true ∨
      (leafVal s.machine root (index va)).frame ∈ s.shared

theorem Tracked.of_leaf (h : Tracked root s) (va : Nat)
    (hother : SameElsewhere s.machine m' root va) (hshared : ∀ p ∈ s.shared, p ∈ shared)
    (hsame : (leafVal m' root (index va)).present = true →
      (leafVal m' root (index va)).owned = true ∨ (leafVal m' root (index va)).frame ∈ shared) :
    Tracked root ⟨m', held, owned, shared⟩ := by
  intro va' hp
  by_cases hs : SameAddress (index va) (index va')
  · rw [leafVal_same hs] at hp ⊢
    exact hsame hp
  · rw [hother _ (index_lt va') hs] at hp ⊢
    exact (h va' hp).imp_right (hshared _)

theorem Tracked.of_quiet (h : Tracked root s) (hq : Quiet s.machine m' root)
    (hshared : ∀ p ∈ s.shared, p ∈ shared) : Tracked root ⟨m', held, owned, shared⟩ := by
  intro va hp
  rw [hq.leaf _ (index_lt va)] at hp ⊢
  exact (h va hp).imp_right (hshared _)

theorem Tracked.of_mapped {pa : Nat} {flags : Entry} {owned : Bool} {r : Int × Machine}
    (h : Tracked root s) (hm : Mapped s.machine root va pa (mapFlags flags owned) r) {l : List Nat}
    (hshared : ∀ p ∈ s.shared, p ∈ shared)
    (hnew : r.1 = 0 → owned = true ∨ pa / pageSize ∈ shared) :
    Tracked root ⟨r.2, held, l, shared⟩ := by
  obtain ⟨m', hq⟩ | ⟨m', -, -, ⟨p, hp, rfl⟩, -, hsame, hother, -, -⟩ := hm
  · exact h.of_quiet hq hshared
  refine h.of_leaf va hother hshared fun _ => ?_
  rw [hsame, owned_leafEntry hp, owned_mapFlags, frame_leafEntry hp]
  have := hnew rfl
  rwa [page_mul_div] at this

theorem Tracked.step (h : Tracked root s) (ha : Accounted m0 root s) (op : SpaceOp) :
    Tracked root (op.exec (root * pageSize) s) := by
  have hok := ha.inv.ok
  have htree := ha.inv.tree
  cases op with
  | take =>
    simp only [SpaceOp.exec]
    split
    · exact h
    · exact h
  | release p =>
    simp only [SpaceOp.exec]
    split
    · exact h
    · exact h
  | map va p flags =>
    simp only [SpaceOp.exec]
    split
    · rename_i hp
      obtain ⟨hl, hout⟩ := ha.inv.held_live p hp
      have hm := mapPage_spec hok htree va (p * pageSize) flags true fun _ => ⟨p, rfl, hl, hout⟩
      split
      · exact h.of_mapped hm (fun _ hp => hp) fun _ => .inl rfl
      · exact h.of_mapped hm (fun _ hp => hp) fun _ => .inl rfl
    · exact h
  | mapShared va pa flags =>
    have hm := mapPage_spec hok htree va pa flags false (by simp)
    change Mapped _ _ _ _ _ (addressSpaceMapShared _ _ _ _ _) at hm
    rw [SpaceOp.exec]
    generalize addressSpaceMapShared s.machine (root * pageSize) va pa flags = r at hm ⊢
    refine h.of_mapped hm (fun p hp => ?_) fun hr => .inr ?_
    · split
      · exact mem_cons_of_mem _ hp
      · exact hp
    · rw [if_pos hr]
      exact mem_cons_self
  | updateFlags va flags =>
    have hspec := addressSpaceUpdateFlags_spec hok htree va flags
    rw [SpaceOp.exec]
    generalize addressSpaceUpdateFlags s.machine (root * pageSize) va flags = r at hspec
    obtain ⟨m', hq⟩ | ⟨m', -, -, hold, -, hsame, hother⟩ := hspec
    · exact h.of_quiet hq fun _ hp => hp
    · refine h.of_leaf va hother (fun _ hp => hp) fun _ => .inl ?_
      rw [hsame, owned_leafEntry (Entry.frame_lt _), owned_mapFlags]
  | unmap va =>
    have hspec := addressSpaceUnmap_spec hok htree va
    rw [SpaceOp.exec]
    generalize addressSpaceUnmap s.machine (root * pageSize) va = r at hspec
    obtain _ | ⟨pt, -, -, -, -, -, hsame, hother⟩ := hspec
    · exact h
    refine h.of_leaf va hother (fun _ hp => hp) fun hp => ?_
    rw [hsame] at hp
    simp [Entry.present] at hp

theorem Tracked.run (h : Tracked root s) (ha : Accounted m0 root s) (ops : List SpaceOp) :
    Tracked root (runSpace (root * pageSize) s ops) := by
  induction ops generalizing s with
  | nil => exact h
  | cons op ops ih => exact ih (h.step ha op) (ha.step op)

theorem pageAt_not_free (ha : Accounted m0 root s) (h : Tracked root s)
    (hshared : ∀ p ∈ s.shared, p ∉ s.machine.pmm.freeSet) (hva : UserAddress va)
    (hm : IsMapped s.machine (root * pageSize) va) :
    pageAt s.machine (root * pageSize) va ∉ s.machine.pmm.freeSet := by
  have hp := (isMapped_iff ha.inv.ok ha.inv.tree hva).1 hm
  rw [pageAt_eq ha.inv.ok ha.inv.tree hva hp]
  obtain ho | hs := h va hp
  · exact (ha.inv.tree.live _ (mem_append_right _ (ha.inv.tree.owned_of_leaf hp ho))).not_free
  · exact hshared _ hs

theorem mapped_in_use (hok : m0.Ok) (hallocated : m0.allocated = []) (hreturned : m0.returned = [])
    (hkernel : ptr m0.kernelPml4 ∉ m0.pmm.freeSet) (hcreate : (addressSpaceCreate m0).1 = 0)
    (ops : List SpaceOp) :
    let c := addressSpaceCreate m0
    let s := runSpace c.2.1 ⟨c.2.2, [], [], []⟩ ops
    (∀ p ∈ s.shared, p ∉ m0.pmm.freeSet) →
    ∀ va, UserAddress va → IsMapped s.machine c.2.1 va →
      pageAt s.machine c.2.1 va ∉ s.machine.pmm.freeSet := by
  obtain ⟨root, hroot, hstart, hzero⟩ := accounted_create hok hallocated hreturned hkernel hcreate
  intro c s hshared va hva
  have hend : Accounted m0 root s := by
    have := hstart.run ops
    rwa [← hroot] at this
  have hempty : Tracked root ⟨c.2.2, [], [], []⟩ := fun va hp => by
    rw [hzero va] at hp
    simp [Entry.present] at hp
  have htracked : Tracked root s := by
    have := hempty.run hstart ops
    rwa [← hroot] at this
  rw [hroot]
  exact pageAt_not_free hend htracked (fun p hp => hend.inv.not_free (hshared p hp)) hva

def spaceAfter (ops : List SpaceOp) : Session :=
  runSpace (addressSpaceCreate bootMachine).2.1 ⟨(addressSpaceCreate bootMachine).2.2, [], [], []⟩ ops

def ownAndKernel : Session :=
  spaceAfter [.take, .map 0x8000001000 0x101 pteWrite, .mapShared 0x8000000000 0x104000 pteNx]

set_option maxRecDepth 20000 in
theorem clone_faithful_sharing :
    (addressSpaceCreate bootMachine).1 = 0 ∧
      (ownAndKernel.owned = [0x101] ∧ ownAndKernel.shared = [0x104]) ∧
      let k := addressSpaceClone ownAndKernel.machine (addressSpaceCreate bootMachine).2.1
      k.1 = 0 ∧ FaithfulClone ownAndKernel.machine (addressSpaceCreate bootMachine).2.1 k := by
  have hc : (addressSpaceCreate bootMachine).1 = 0 := by decide +kernel
  have hpages : ownAndKernel.owned = [0x101] ∧ ownAndKernel.shared = [0x104] := by decide +kernel
  have hkernel := bootMachine_kernel _ (kernelPml4_mem bootMachine)
  refine ⟨hc, hpages, by decide +kernel, clone_faithful bootMachine_ok rfl rfl hkernel hc _
    (mapped_in_use bootMachine_ok rfl rfl hkernel hc _ fun p hp => ?_)⟩
  change p ∈ ownAndKernel.shared at hp
  rw [hpages.2, mem_singleton] at hp
  exact bootMachine_kernel p (by rw [kernelTables_bootMachine, hp]; exact mem_singleton_self _)

def sharing (pa : Nat) : Session := spaceAfter [.mapShared 0x8000000000 pa pteWrite]

set_option maxRecDepth 20000 in
/-- When the shared page is free, the clone takes it for its PML4. -/
theorem clone_overwrites_shared :
    (addressSpaceCreate bootMachine).1 = 0 ∧ (addressSpaceCreate bootMachine).2.1 = 0x100000 ∧
      (addressSpaceClone (sharing 0x107000).machine 0x100000).1 = 0 ∧
      IsMapped (sharing 0x107000).machine 0x100000 0x8000000000 ∧
      pageAt (sharing 0x107000).machine 0x100000 0x8000000000 = 0x107 ∧
      (addressSpaceClone (sharing 0x107000).machine 0x100000).2.2.mem 0x107 1 ≠
        (sharing 0x107000).machine.mem 0x107 1 := by
  refine ⟨by decide +kernel, by decide +kernel, by decide +kernel, ?_, by decide +kernel,
    by decide +kernel⟩
  unfold IsMapped
  decide +kernel

end RixuriOS.Process
