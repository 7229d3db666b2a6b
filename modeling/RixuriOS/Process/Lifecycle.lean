import RixuriOS.Process.Mapping

/-!
# Creating and destroying address spaces

`address_space_create` makes a PML4 that only borrows the kernel's slots, and
`address_space_destroy` gives back every table and every owned page of the tree,
each of them once, as long as the borrowed slots still match the kernel's.
-/

namespace RixuriOS.Process

open Mm PagedTree List Function Machine

/-! ### Giving pages back -/

variable {m' : Machine} {l l' : List Nat} {i : Nat}

structure Droppable (m : Machine) (l : List Nat) : Prop where
  nodup : l.Nodup
  live : ∀ p ∈ l, m.pmm.Live p

def dropAll (m : Machine) (l : List Nat) : Machine := l.foldl Machine.drop m

section

variable (m : Machine)

theorem dropAll_append (l l' : List Nat) :
    dropAll m (l ++ l') = dropAll (dropAll m l) l' := foldl_append

section

variable (l)

theorem dropAll_keeps {β : Type} (g : Machine → β) (hg : ∀ m p, g (m.drop p) = g m) :
    g (dropAll m l) = g m := by
  induction l generalizing m with
  | nil => rfl
  | cons p l ih => exact (ih (m.drop p)).trans (hg m p)

@[simp] theorem dropAll_mem : (dropAll m l).mem = m.mem :=
  dropAll_keeps l m (·.mem) fun _ _ => rfl

@[simp] theorem dropAll_kernelPml4 : (dropAll m l).kernelPml4 = m.kernelPml4 :=
  dropAll_keeps l m (·.kernelPml4) fun _ _ => rfl

@[simp] theorem dropAll_allocated : (dropAll m l).allocated = m.allocated :=
  dropAll_keeps l m (·.allocated) fun _ _ => rfl

theorem dropAll_returned : (dropAll m l).returned = l.reverse ++ m.returned := by
  induction l generalizing m with
  | nil => rfl
  | cons p l ih =>
    change (dropAll (m.drop p) l).returned = _
    rw [ih]
    simp

theorem dropAll_used (p : Nat) : (dropAll m l).pmm.used p = (decide (p ∉ l) && m.pmm.used p) := by
  induction l generalizing m with
  | nil => simp [dropAll]
  | cons q l ih =>
    change (dropAll (m.drop q) l).pmm.used p = _
    rw [ih]
    by_cases hpq : p = q <;> simp [hpq]

@[simp] theorem dropAll_managed (p : Nat) :
    (dropAll m l).pmm.managed p = m.pmm.managed p := dropAll_keeps l m (·.pmm.managed p) fun _ _ => rfl

@[simp] theorem dropAll_reserved (p : Nat) : (dropAll m l).pmm.reserved p = m.pmm.reserved p :=
  dropAll_keeps l m (·.pmm.reserved p) fun _ _ => rfl

end

end

variable {m : Machine}

theorem Droppable.left (h : Droppable m (l ++ l')) : Droppable m l :=
  ⟨(nodup_append.1 h.nodup).1, fun p hp => h.live p (mem_append_left _ hp)⟩

theorem Droppable.right (h : Droppable m (l ++ l')) : Droppable (dropAll m l) l' := by
  obtain ⟨-, h2, h3⟩ := nodup_append.1 h.nodup
  refine ⟨h2, fun p hp => ?_⟩
  have hl := h.live p (mem_append_right _ hp)
  have hout : p ∉ l := fun hc => h3 p hc p hp rfl
  exact ⟨hl.lt, by simpa using hl.managed, by simp [dropAll_used, hout, hl.used],
    by simpa using hl.unreserved⟩

theorem Droppable.perm (h : Droppable m l) (hp : l'.Perm l) : Droppable m l' :=
  ⟨hp.nodup_iff.2 h.nodup, fun p hpl => h.live p (hp.subset hpl)⟩

theorem ok_dropAll (hok : m.Ok) (h : Droppable m l) : (dropAll m l).Ok := by
  induction l generalizing m with
  | nil => exact hok
  | cons p l ih =>
    exact ih (hok.drop (h.live p mem_cons_self)) (Droppable.right (l := [p]) h)

theorem foldl_eq_dropAll (hok : m.Ok) {body : Machine → Nat → Machine} {f : Nat → List Nat}
    {is : List Nat} (hbody : ∀ i ∈ is, ∀ m' : Machine, m'.Ok → m'.mem = m.mem →
      m'.kernelPml4 = m.kernelPml4 → Droppable m' (f i) → body m' i = dropAll m' (f i))
    (hd : Droppable m (is.flatMap f)) : is.foldl body m = dropAll m (is.flatMap f) := by
  induction is generalizing m with
  | nil => rfl
  | cons i is ih =>
    rw [flatMap_cons] at hd ⊢
    rw [foldl_cons, dropAll_append, hbody i mem_cons_self m hok rfl rfl hd.left]
    refine ih (ok_dropAll hok hd.left) (fun j hj m' hok' hm hk => ?_) hd.right
    rw [dropAll_mem] at hm
    rw [dropAll_kernelPml4] at hk
    exact hbody j (mem_cons_of_mem _ hj) m' hok' hm hk

/-! ### Teardown of a subtree -/

def tablePages (mem : PagedTree.Mem Entry) (x : Nat × Nat) : List Nat :=
  leafPages tableEntries own mem x ++ [x.2]

def subtreePages (mem : PagedTree.Mem Entry) (h t : Nat) : List Nat :=
  (nodes child tableEntries mem h t).flatMap (tablePages mem)

theorem subtreePages_perm (m : Machine) (root : Nat) :
    (subtreePages m.mem 3 root).Perm (pages m root) := by
  rw [pages, tables_eq, ownedPages_eq]
  change ((tree m root).flatMap (tablePages m.mem)).Perm _
  generalize tree m root = l
  induction l with
  | nil => rfl
  | cons x l ih =>
    rw [perm_iff_count] at ih ⊢
    intro p
    have := ih p
    simp only [flatMap_cons, count_append, tablePages, map_cons, count_cons, count_nil] at this ⊢
    omega

/-- The function `free` gives back a subtree of height `h` below the PML4. -/
def FreesSubtree (free : Machine → Nat → Machine) (h : Nat) : Prop :=
  ∀ (m : Machine) (t : Nat), m.Ok →
    (∀ x ∈ nodes child tableEntries m.mem h t, ∀ i < tableEntries,
      EntryOk x.1 i (m.mem x.2 i)) →
    Droppable m (subtreePages m.mem h t) →
    free m (t * pageSize) = dropAll m (subtreePages m.mem h t)

theorem freePage_last {t : Nat} (h : Droppable m (l ++ [t])) :
    (dropAll m l).freePage (t * pageSize) = dropAll m (l ++ [t]) := by
  rw [dropAll_append, freePage_live (h.right.live t (by simp))]
  rfl

theorem Droppable.ptr_eq {t : Nat} (hok : m.Ok) (h : Droppable m (l ++ [t])) :
    ptr (t * pageSize) = t := by
  have hl := h.live t (by simp)
  exact ptr_frame (hok.ne_zero_of_live hl) hl.lt

theorem freesSubtree_pt : FreesSubtree freeUserPt 0 := by
  intro m t hok _ hd
  have hlist : subtreePages m.mem 0 t =
      ((range tableEntries).flatMap fun i => (own (m.mem t i)).toList) ++ [t] := by
    simp [subtreePages, nodes, tablePages, leafPages]
  rw [hlist] at hd ⊢
  have hptr := hd.ptr_eq hok
  have hl := hd.live t (by simp)
  unfold freeUserPt
  rw [hptr, if_neg (hok.ne_zero_of_live hl)]
  simp only
  rw [foldl_eq_dropAll hok (f := fun i => (own (m.mem t i)).toList) ?_ hd.left, freePage_last hd]
  intro i _ m' _ hm _ hdi
  rw [hm]
  unfold own at hdi ⊢
  split
  · rename_i hc
    rw [if_pos hc] at hdi
    rw [Entry.phys_eq, freePage_live (hdi.live _ (by simp))]
    rfl
  · rfl

theorem freesSubtree_table {free : Machine → Nat → Machine} {h : Nat} (hh : h + 1 < 3)
    (hfree : FreesSubtree free h) : FreesSubtree (freeUserTable free) (h + 1) := by
  intro m t hok hshape hd
  let f := fun i => (below child tableEntries m.mem h (m.mem t i)).flatMap (tablePages m.mem)
  have hlist : subtreePages m.mem (h + 1) t = (range tableEntries).flatMap f ++ [t] := by
    rw [subtreePages, nodes_succ, flatMap_append, flatMap_singleton, flatMap_assoc]
    simp [f, tablePages, leafPages]
  rw [hlist] at hd ⊢
  have hptr := hd.ptr_eq hok
  have hl := hd.live t (by simp)
  unfold freeUserTable
  rw [hptr, if_neg (hok.ne_zero_of_live hl)]
  simp only
  rw [foldl_eq_dropAll hok (f := f) ?_ hd.left, freePage_last hd]
  intro i hi m' hok' hm _ hdi
  have hi := mem_range.1 hi
  have he := hshape _ (mem_nodes_self m.mem (h + 1) t) i hi
  have hidx : (h + 1 != 3 || userSlot i) = true := by
    have : h ≠ 2 := by omega
    simp [this]
  simp only at he
  rw [hm]
  by_cases hp : (m.mem t i).present = true
  · have hc := child_of_present he hp hidx
    have hps := he.small hp ((he.user hp).trans hidx)
    have hfi : f i = subtreePages m'.mem h (m.mem t i).frame := by
      simp only [f, below, hc, subtreePages, hm]
    rw [hfi] at hdi ⊢
    simp only [hp, hps, Bool.not_true, Bool.false_eq_true, if_false]
    rw [Entry.phys_eq]
    refine hfree m' _ hok' (fun x hx => ?_) hdi
    rw [hm] at hx ⊢
    exact hshape x (mem_nodes_of_below hi (by rw [below, hc]; exact hx))
  have hfi : f i = [] := by
    simp only [f, below, child_of_absent (Bool.eq_false_iff.2 hp), flatMap_nil]
  rw [hfi]
  simp only [hp, Bool.not_false, if_true]
  rfl

theorem freesSubtree_pdpt : FreesSubtree freeUserPdpt 2 :=
  freesSubtree_table (by decide) (freesSubtree_table (by decide) freesSubtree_pt)

/-! ### Destroying -/

def wanted (m : Machine) (i : Nat) : Entry :=
  if (m.mem (ptr m.kernelPml4) i).present then borrowed (m.mem (ptr m.kernelPml4) i) else 0

structure Borrows (m : Machine) (root : Nat) : Prop where
  kernel : ptr m.kernelPml4 ≠ 0
  slots : ∀ i < tableEntries, userSlot i = false →
    (m.mem root i).present = true → m.mem root i = wanted m i

theorem addressSpaceDestroy_eq {root : Nat} (hok : m.Ok) (h : UserTree m root)
    (hb : Borrows m root) :
    addressSpaceDestroy m (root * pageSize) = dropAll m (subtreePages m.mem 3 root) := by
  have hd : Droppable m (subtreePages m.mem 3 root) :=
    Droppable.perm ⟨h.nodup, h.live⟩ (subtreePages_perm m root)
  let f := fun i => (below child tableEntries m.mem 2 (m.mem root i)).flatMap (tablePages m.mem)
  have hlist : subtreePages m.mem 3 root = (range tableEntries).flatMap f ++ [root] := by
    rw [subtreePages, nodes_succ, flatMap_append, flatMap_singleton, flatMap_assoc]
    simp [f, tablePages, leafPages]
  rw [hlist] at hd ⊢
  have hroot0 : root ≠ 0 := hok.ne_zero_of_live h.live_root
  unfold addressSpaceDestroy
  rw [if_neg (root_mul_ne_zero hok h)]
  simp only
  rw [ptr_root hok h, if_neg hroot0, foldl_eq_dropAll hok (f := f) ?_ hd.left, freePage_last hd]
  intro i hi m' hok' hm hk hdi
  have hi := mem_range.1 hi
  have he := h.shape _ (root_mem_tree m root) i hi
  unfold destroySlot
  simp only at he ⊢
  rw [ptr_root hok h, hm, hk]
  by_cases hp : (m.mem root i).present = true
  · simp only [hp, Bool.not_true, Bool.false_eq_true, if_false]
    by_cases hu : (m.mem root i).user = true
    · have hslot : (3 != 3 || userSlot i) = true := (he.user hp).symm.trans hu
      have hc := child_of_present he hp hslot
      have hfi : f i = subtreePages m'.mem 2 (m.mem root i).frame := by
        simp only [f, below, hc, subtreePages, hm]
      rw [hfi] at hdi ⊢
      rw [if_pos hu, Entry.phys_eq]
      refine freesSubtree_pdpt m' _ hok' (fun x hx => ?_) hdi
      rw [hm] at hx ⊢
      exact h.shape x (mem_nodes_of_below hi (by rw [below, hc]; exact hx))
    have hslot : userSlot i = false := by
      have := he.user hp
      rw [bne_self_eq_false, Bool.false_or] at this
      rw [← this]
      exact Bool.eq_false_iff.2 hu
    have hfi : f i = [] := by
      have : child (m.mem root i) = none := by simp [child, hu]
      simp only [f, below, this, flatMap_nil]
    rw [if_neg hu, hfi, if_pos ⟨hb.kernel, hb.slots i hi hslot hp⟩]
    rfl
  have hfi : f i = [] := by
    simp only [f, below, child_of_absent (Bool.eq_false_iff.2 hp), flatMap_nil]
  rw [hfi]
  simp only [hp, Bool.not_false, if_true]
  rfl

/-! ### Creating -/

/-- The allocator is as before, and memory is so apart from free pages. -/
structure Restored (m m' : Machine) : Prop where
  ok : m'.Ok
  kernelPml4 : m'.kernelPml4 = m.kernelPml4
  used : ∀ p, m'.pmm.used p = m.pmm.used p
  managed : ∀ p, m'.pmm.managed p = m.pmm.managed p
  reserved : ∀ p, m'.pmm.reserved p = m.pmm.reserved p
  mem : ∀ p, p ∉ m.pmm.freeSet → m'.mem p = m.mem p

theorem Restored.refl (hok : m.Ok) : Restored m m :=
  ⟨hok, rfl, fun _ => rfl, fun _ => rfl, fun _ => rfl, fun _ _ => rfl⟩

theorem Restored.freeSet (h : Restored m m') : m'.pmm.freeSet = m.pmm.freeSet := by
  ext p
  rw [Pmm.mem_freeSet, Pmm.mem_freeSet, h.used, h.managed]

theorem Restored.freePagesCount (hok : m.Ok) (h : Restored m m') :
    m'.pmm.freePagesCount = m.pmm.freePagesCount := by
  rw [h.ok.wf.free, hok.wf.free, h.freeSet]

theorem restored_of_grab_drop (hok : m.Ok) {r : Nat} (hr : r ∈ m.pmm.freeSet)
    (hm' : m'.pmm = (m.pmm.take r).give r) (hk : m'.kernelPml4 = m.kernelPml4)
    (hmem : ∀ p, p ≠ r → m'.mem p = m.mem p) : Restored m m' := by
  obtain ⟨hlt, hman, hu⟩ := Pmm.mem_freeSet.1 hr
  have hwf := (hok.wf.take hr).give hlt hman (by simp) (hok.wf.unreserved hr)
  refine ⟨⟨hm' ▸ hwf, ?_⟩, hk, fun p => ?_, fun p => by rw [hm']; rfl, fun p => by rw [hm']; rfl,
    fun p hp => hmem p fun he => hp (he ▸ hr)⟩
  · rw [hm']
    exact hok.zero
  rw [hm']
  by_cases hpr : p = r
  · simp [hpr, hu]
  · simp [hpr]

theorem borrowKernel_spec {table kt : Nat} (hne : kt ≠ table) (is : List Nat) (m : Machine) :
    ∃ ok row, borrowKernel table kt is m = (ok, m.fill table row) ∧
      (ok = true → ∀ i, row i = if i ∈ is ∧ kernelSharedPml4 i = true ∧
        (m.mem kt i).present = true then borrowed (m.mem kt i) else m.mem table i) := by
  induction is generalizing m with
  | nil =>
    refine ⟨true, m.mem table, ?_, fun _ i => by simp⟩
    simp [borrowKernel, Machine.fill]
  | cons j is ih =>
    unfold borrowKernel
    by_cases hs : kernelSharedPml4 j = true
    case neg =>
      obtain ⟨ok, row, he, hrow⟩ := ih m
      refine ⟨ok, row, by simp [hs, he], fun hok i => ?_⟩
      rw [hrow hok]
      by_cases hij : i = j
      · subst hij
        simp [hs]
      · simp [hij]
    by_cases hp : (m.mem kt j).present = true
    case neg =>
      obtain ⟨ok, row, he, hrow⟩ := ih m
      refine ⟨ok, row, by simp [hs, hp, he], fun hok i => ?_⟩
      rw [hrow hok]
      by_cases hij : i = j
      · subst hij
        simp [hp]
      · simp [hij]
    by_cases h0 : (m.mem kt j).phys = 0
    · refine ⟨false, m.mem table, ?_, by simp⟩
      simp [hs, hp, h0, Machine.fill]
    obtain ⟨ok, row, he, hrow⟩ := ih (m.write table j (borrowed (m.mem kt j)))
    refine ⟨ok, row, ?_, fun hok i => ?_⟩
    · simp only [hs, hp, h0, Bool.not_true, Bool.false_eq_true, if_false, he]
      simp [Machine.fill, Machine.write, setEntry]
    have hkt : (m.write table j (borrowed (m.mem kt j))).mem kt = m.mem kt :=
      setEntry_of_ne m.mem _ _ hne
    rw [hrow hok, hkt]
    by_cases hij : i = j
    · subst hij
      simp [hs, hp, setEntry_self]
    · simp [hij, setEntry_other]

/-- `address_space_create` makes a PML4 that borrows from the kernel, or leaves everything as it
was. -/
inductive Created (m : Machine) : Int × Nat × Machine → Prop
  | failed (rc : Int) (hrc : rc ≠ 0) (m' : Machine) (hm' : Restored m m')
      (hlog : ∀ p, m'.returned.count p + m.allocated.count p =
        m.returned.count p + m'.allocated.count p) : Created m (rc, 0, m')
  | done (r : Nat) (hr : r ∈ m.pmm.freeSet) (row : Nat → Entry)
      (hkernel : ptr m.kernelPml4 ≠ 0)
      (hrow : ∀ i < tableEntries, row i = if userSlot i then 0 else wanted m i) :
      Created m (0, r * pageSize, (m.grab r).fill r row)

theorem kernelShared_iff (hi : i < tableEntries) : kernelSharedPml4 i = !userSlot i := by
  unfold tableEntries at hi
  have hall : ∀ j : Fin 512, kernelSharedPml4 j.val = !userSlot j.val := by decide +kernel
  exact hall ⟨i, hi⟩

theorem addressSpaceCreate_spec (hok : m.Ok) (hkt : ptr m.kernelPml4 ∉ m.pmm.freeSet) :
    Created m (addressSpaceCreate m) := by
  unfold addressSpaceCreate
  obtain ⟨ha, -⟩ | ⟨r, hr, hr0, ha⟩ := allocPage_cases hok
  · rw [ha]
    exact .failed (-2) (by decide) m ⟨hok, rfl, fun _ => rfl, fun _ => rfl, fun _ => rfl,
      fun _ _ => rfl⟩ fun p => rfl
  have hrlt := (Pmm.mem_freeSet.1 hr).1
  have hne := page_mul_ne_zero hr0
  have hptr := ptr_frame hr0 hrlt
  have hktr : ptr m.kernelPml4 ≠ r := fun he => hkt (he ▸ hr)
  -- whatever the new page holds, giving it back restores the state
  have hback : ∀ (rc : Int) (row : Nat → Entry), rc ≠ 0 →
      Created m (rc, 0, ((m.grab r).fill r row).freePage (r * pageSize)) := fun rc row hrc => by
    have hl : ((m.grab r).fill r row).pmm.Live r :=
      ⟨hrlt, (Pmm.mem_freeSet.1 hr).2.1, by simp, hok.wf.unreserved hr⟩
    rw [freePage_live hl]
    refine .failed rc hrc _ (restored_of_grab_drop hok hr rfl rfl fun p hp => ?_) fun p => ?_
    · exact update_of_ne hp _ _
    simp only [drop_returned, fill_returned, grab_returned,
      drop_allocated, fill_allocated, grab_allocated, count_cons]
    omega
  rw [ha]
  simp only [if_neg hne, hptr, if_neg hr0, fill_kernelPml4, grab_kernelPml4]
  split
  · exact hback (-3) _ (by decide)
  rename_i hk
  rw [not_or] at hk
  obtain ⟨ok, row, he, hrow⟩ := borrowKernel_spec hktr (range tableEntries)
    ((m.grab r).fill r fun _ => 0)
  have hfill : ∀ row row' : Nat → Entry,
      ((m.grab r).fill r row).fill r row' = (m.grab r).fill r row' := fun row row' => by
    simp [Machine.fill]
  rw [he]
  cases ok with
  | false =>
    simp only [hfill]
    exact hback (-4) _ (by decide)
  | true =>
  rw [hfill]
  refine .done r hr row hk.2 fun i hi => ?_
  have hkrow : ((m.grab r).fill r fun _ => 0).mem (ptr m.kernelPml4) =
      m.mem (ptr m.kernelPml4) := update_of_ne hktr _ _
  rw [hrow rfl, hkrow, kernelShared_iff hi]
  unfold wanted
  cases userSlot i with
  | true => simp
  | false =>
  by_cases hp : (m.mem (ptr m.kernelPml4) i).present = true
  · simp [hp, mem_range.2 hi]
  · simp [hp]

theorem present_borrowed (e : Entry) : (borrowed e).present = e.present := by simp [borrowed]

theorem user_borrowed (e : Entry) : (borrowed e).user = false := by simp [borrowed]

section

variable {r : Nat} {row : Nat → Entry}
  (hrow : ∀ i < tableEntries, row i = if userSlot i then 0 else wanted m i)

include hrow

theorem entryOk_row (hi : i < tableEntries) : EntryOk 3 i (row i) := by
  rw [hrow i hi]
  split
  · exact entryOk_zero 3 i
  rename_i hs
  unfold wanted
  split
  · rename_i hp
    refine ⟨fun h => ?_, fun _ => ?_, fun _ h => ?_⟩
    · rw [present_borrowed, hp] at h
      cases h
    · rw [user_borrowed]
      simpa using hs
    · rw [user_borrowed] at h
      cases h
  · exact entryOk_zero 3 i

theorem child_row (hi : i < tableEntries) : child (row i) = none := by
  by_cases hp : (row i).present = true
  · have hu := (entryOk_row hrow hi).user hp
    have hus : userSlot i = false := by
      by_contra hc
      rw [hrow i hi, if_pos (by simpa using hc)] at hp
      simp [Entry.present] at hp
    rw [hus] at hu
    simp [child, hu]
  · exact child_of_absent (Bool.eq_false_iff.2 hp)

theorem tree_created : tree ((m.grab r).fill r row) r = [(3, r)] :=
  nodes_of_no_child 3 fun i hi => by
    rw [fill_mem, update_self]
    exact child_row hrow hi

theorem pages_created : pages ((m.grab r).fill r row) r = [r] := by
  rw [pages, tables_eq, ownedPages_eq, tree_created hrow]
  simp [leafPages]

theorem leafVal_created {jx : Nat → Nat} (hjx : ValidIndex jx) :
    leafVal ((m.grab r).fill r row) r jx = 0 := by
  rw [leafVal, leafAt_succ, fill_mem, update_self, child_row hrow (hjx 3)]
  rfl

theorem userTree_created (hok : m.Ok) (hr : r ∈ m.pmm.freeSet) :
    UserTree ((m.grab r).fill r row) r := by
  obtain ⟨hlt, hman, -⟩ := Pmm.mem_freeSet.1 hr
  refine ⟨by rw [pages_created hrow]; simp, fun p hp => ?_, fun x hx i hi => ?_⟩
  · rw [pages_created hrow, mem_singleton] at hp
    subst hp
    exact ⟨hlt, hman, by simp, hok.wf.unreserved hr⟩
  rw [tree_created hrow, mem_singleton] at hx
  subst hx
  rw [fill_mem, update_self]
  exact entryOk_row hrow hi

theorem borrows_created (hr : r ∈ m.pmm.freeSet) (hkt : ptr m.kernelPml4 ∉ m.pmm.freeSet)
    (hkernel : ptr m.kernelPml4 ≠ 0) : Borrows ((m.grab r).fill r row) r := by
  refine ⟨hkernel, fun i hi hs _ => ?_⟩
  have hne : ptr m.kernelPml4 ≠ r := fun he => hkt (he ▸ hr)
  have hkrow : ((m.grab r).fill r row).mem (ptr m.kernelPml4) = m.mem (ptr m.kernelPml4) :=
    update_of_ne hne _ _
  rw [fill_mem, update_self, hrow i hi, hs]
  unfold wanted
  rw [show ((m.grab r).fill r row).kernelPml4 = m.kernelPml4 from rfl, hkrow]
  rfl

end

end RixuriOS.Process
