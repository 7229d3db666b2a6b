import RixuriOS.Storage.BlockCache

/-!
# The block cache refines a sector store

The store is a map from devices and sectors to contents that a successful write
updates. `Refines L s` relates it to the cache: an entry holds what the store
holds, and a sector without a dirty entry has that on its device. A request to a
device only ever writes what the store holds, so it may fail at any time without
breaking the relation.
-/

namespace RixuriOS.Storage

open Function

variable {Dev : Type*}

/-- What the cache stands for: the latest contents of every sector. -/
abbrev Store (Dev : Type*) := Dev → Nat → Sector

def CacheEntry.Holds (e : CacheEntry Dev) (d : Dev) (sector : Nat) : Prop :=
  e.valid = true ∧ e.device = some d ∧ e.sector = sector

/-- The cache and the devices together hold the store. -/
structure Refines (L : Store Dev) (s : CacheState Dev) : Prop where
  unique : ∀ i j d sector, (s.cache i).Holds d sector → (s.cache j).Holds d sector → i = j
  device : ∀ i, (s.cache i).valid = true → (s.cache i).device ≠ none
  data : ∀ i d sector, (s.cache i).Holds d sector → (s.cache i).data = L d sector
  disk : ∀ d sector, (∀ i, (s.cache i).Holds d sector → (s.cache i).dirty = false) →
    s.disk d sector = L d sector

def Idle (s : CacheState Dev) : Prop := ∀ i, (s.cache i).writeback = false

def Uncached (s : CacheState Dev) (d : Dev) (sector : Nat) : Prop :=
  ∀ i, ¬ (s.cache i).Holds d sector

variable {L : Store Dev} {s s' : CacheState Dev} {i : CacheSlot} {d : Dev} {sector : Nat}

/-! ## Choosing an entry -/

theorem victimFrom_spec {cache : CacheSlot → CacheEntry Dev} {l : List CacheSlot}
    {v : Option CacheSlot} (hidle : ∀ i ∈ l, (cache i).writeback = false)
    (hfree : ∃ i ∈ l, (cache i).valid = false) :
    ∃ i, victimFrom cache l v = some i ∧ (cache i).valid = false := by
  induction l generalizing v with
  | nil => simp at hfree
  | cons j l ih =>
    have hj := hidle j List.mem_cons_self
    have hrest (w : Option CacheSlot) (hvalid : (cache j).valid = true) :
        ∃ i, victimFrom cache l w = some i ∧ (cache i).valid = false := by
      refine ih (fun i hi => hidle i (List.mem_cons_of_mem _ hi)) ?_
      obtain ⟨i, hi, hfree⟩ := hfree
      obtain rfl | hi := List.mem_cons.1 hi
      · simp [hvalid] at hfree
      · exact ⟨i, hi, hfree⟩
    simp only [victimFrom, hj, Bool.false_eq_true, if_false]
    cases hvalid : (cache j).valid with
    | false => exact ⟨j, rfl, hvalid⟩
    | true =>
    cases v with
    | none => exact hrest _ hvalid
    | some k => exact hrest _ hvalid

theorem victim_free (hidle : Idle s) (hfree : ∃ i, (s.cache i).valid = false) :
    ∃ i, victim s.cache = some i ∧ (s.cache i).valid = false := by
  obtain ⟨i, hi⟩ := hfree
  exact victimFrom_spec (fun i _ => hidle i) ⟨i, List.mem_finRange i, hi⟩

/-! ## Changing one entry -/

theorem setEntry_self (s : CacheState Dev) (i : CacheSlot) (e : CacheEntry Dev) :
    (s.setEntry i e).cache i = e := by
  simp [CacheState.setEntry]

theorem setEntry_ne (s : CacheState Dev) {i j : CacheSlot} (hj : j ≠ i) (e : CacheEntry Dev) :
    (s.setEntry i e).cache j = s.cache j := by
  simp [CacheState.setEntry, hj]

variable {e : CacheEntry Dev} {r : Bool × CacheState Dev}

section

variable (h : Refines L s)

include h

namespace Refines

/-- An entry may be replaced by one that caches what the store holds and no other
entry caches, if the device holds what is then no longer dirty. -/
theorem setEntry (hdevice : e.valid = true → e.device ≠ none)
    (hdata : ∀ d sector, e.Holds d sector → e.data = L d sector)
    (hother : ∀ j d sector, j ≠ i → (s.cache j).Holds d sector → ¬ e.Holds d sector)
    (hdisk : ∀ d sector, (e.Holds d sector → e.dirty = false) → (∀ j, j ≠ i →
      (s.cache j).Holds d sector → (s.cache j).dirty = false) → s.disk d sector = L d sector) :
    Refines L (s.setEntry i e) where
  unique j k d sector hj hk := by
    by_cases hji : j = i <;> by_cases hki : k = i
    · rw [hji, hki]
    · rw [hji, setEntry_self] at hj
      rw [setEntry_ne s hki] at hk
      exact absurd hj (hother k d sector hki hk)
    · rw [hki, setEntry_self] at hk
      rw [setEntry_ne s hji] at hj
      exact absurd hk (hother j d sector hji hj)
    rw [setEntry_ne s hji] at hj
    rw [setEntry_ne s hki] at hk
    exact h.unique j k d sector hj hk
  device j := by
    by_cases hj : j = i
    · rw [hj, setEntry_self]
      exact hdevice
    · rw [setEntry_ne s hj]
      exact h.device j
  data j d sector := by
    by_cases hj : j = i
    · rw [hj, setEntry_self]
      exact hdata d sector
    · rw [setEntry_ne s hj]
      exact h.data j d sector
  disk d sector hclean := by
    refine hdisk d sector (fun he => ?_) fun j hj hholds => ?_
    · have hi := hclean i
      rw [setEntry_self] at hi
      exact hi he
    have hcj := hclean j
    rw [setEntry_ne s hj] at hcj
    exact hcj hholds

theorem mark (hvalid : e.valid = (s.cache i).valid) (hdev : e.device = (s.cache i).device)
    (hsector : e.sector = (s.cache i).sector) (hdata : e.data = (s.cache i).data)
    (hdirty : e.dirty = (s.cache i).dirty) : Refines L (s.setEntry i e) := by
  have hholds (d : Dev) (sector : Nat) : e.Holds d sector ↔ (s.cache i).Holds d sector := by
    unfold CacheEntry.Holds
    rw [hvalid, hdev, hsector]
  refine h.setEntry ?_ (fun d sector he => ?_) (fun j d sector hj hh he => ?_)
    (fun d sector he hclean => ?_)
  · rw [hvalid, hdev]
    exact h.device i
  · rw [hdata]
    exact h.data i d sector ((hholds d sector).1 he)
  · exact hj (h.unique j i d sector hh ((hholds d sector).1 he))
  refine h.disk d sector fun j hh => ?_
  by_cases hj : j = i
  · subst hj
    rw [← hdirty]
    exact he ((hholds d sector).2 hh)
  · exact hclean j hj hh

theorem clean (hholds : (s.cache i).Holds d sector) (hdirty : (s.cache i).dirty = false) :
    s.disk d sector = L d sector := by
  refine h.disk d sector fun j hj => ?_
  rw [h.unique j i d sector hj hholds, hdirty]

theorem invalidate
    (hdisk : ∀ d sector, (s.cache i).Holds d sector → s.disk d sector = L d sector) :
    Refines L (s.setEntry i (s.cache i).invalidate) := by
  have hno (d : Dev) (sector : Nat) : ¬ (s.cache i).invalidate.Holds d sector := by
    simp [CacheEntry.Holds, CacheEntry.invalidate]
  refine h.setEntry (fun hv => ?_) (fun d sector he => absurd he (hno d sector))
    (fun _ d sector _ _ => hno d sector) fun d sector _ hother => ?_
  · simp [CacheEntry.invalidate] at hv
  by_cases hi : (s.cache i).Holds d sector
  · exact hdisk d sector hi
  refine h.disk d sector fun j hh => hother j ?_ hh
  rintro rfl
  exact hi hh

theorem submitted (n : Nat) : Refines L { s with submitted := n } :=
  ⟨h.unique, h.device, h.data, h.disk⟩

theorem clockTick (n : Nat) : Refines L { s with clockTick := n } :=
  ⟨h.unique, h.device, h.data, h.disk⟩

theorem touch (i : CacheSlot) : Refines L (s.touch i) := by
  refine Refines.clockTick ?_ _
  exact h.mark rfl rfl rfl rfl rfl

end Refines

end

theorem Refines.ioRead (info : Dev → DeviceInfo) (fates : Nat → Fate) (h : Refines L s) (d : Dev)
    (sector : Nat) :
    Refines L (ioRead info fates s d sector).2 ∧
      (ioRead info fates s d sector).2.cache = s.cache ∧
      ∀ data, (ioRead info fates s d sector).1 = some data → data = s.disk d sector := by
  unfold Storage.ioRead
  split_ifs
  · exact ⟨h, rfl, by simp⟩
  cases fates s.submitted with
  | done => exact ⟨h.submitted _, rfl, by simp [eq_comm]⟩
  | failed landed => exact ⟨h.submitted _, rfl, by simp⟩

/-! ## Finding a sector -/

variable [DecidableEq Dev]

theorem find_some {cache : CacheSlot → CacheEntry Dev} (h : find cache d sector = some i) :
    (cache i).Holds d sector := by
  have hfound := List.find?_some h
  simpa [CacheEntry.Holds] using hfound

theorem find_none (h : find s.cache d sector = none) : Uncached s d sector := by
  intro i hi
  have hnone := List.find?_eq_none.1 h i (List.mem_finRange i)
  exact hnone (by simpa [CacheEntry.Holds] using hi)

theorem Refines.find_eq (h : Refines L s) (hi : (s.cache i).Holds d sector) :
    find s.cache d sector = some i := by
  cases hfind : find s.cache d sector with
  | none => exact absurd hi (find_none hfind i)
  | some j => rw [h.unique i j d sector hi (find_some hfind)]

/-! ## Writing to a device -/

theorem Refines.writeDisk (h : Refines L s) (d : Dev) (sector : Nat) :
    Refines L { s with
      disk := update s.disk d (update (s.disk d) sector (L d sector)) } where
  unique := h.unique
  device := h.device
  data := h.data
  disk d' sector' hclean := by
    have hbefore := h.disk d' sector' hclean
    by_cases hd : d' = d
    · subst hd
      by_cases hs : sector' = sector
      · subst hs
        simp
      · simpa [hs] using hbefore
    · simpa [hd] using hbefore

theorem Refines.ioWrite (info : Dev → DeviceInfo) (fates : Nat → Fate) (h : Refines L s) (d : Dev)
    (sector : Nat) :
    Refines L (ioWrite info fates s d sector (L d sector)).2 ∧
      (ioWrite info fates s d sector (L d sector)).2.cache = s.cache ∧
      ((ioWrite info fates s d sector (L d sector)).1 = true →
        (ioWrite info fates s d sector (L d sector)).2.disk d sector = L d sector) := by
  unfold Storage.ioWrite
  split_ifs
  · exact ⟨h, rfl, by simp⟩
  cases fates s.submitted with
  | done => exact ⟨(h.writeDisk d sector).submitted _, rfl, by simp⟩
  | failed landed =>
  cases landed with
  | true => exact ⟨(h.writeDisk d sector).submitted _, rfl, by simp⟩
  | false => exact ⟨h.submitted _, rfl, by simp⟩

/-! ## Eviction -/

/-- What making room leaves: the relation, nothing being written back, no new
sector in the cache, and on success a free entry. -/
structure MadeRoom (L : Store Dev) (s : CacheState Dev) (r : Bool × CacheState Dev) : Prop where
  refines : Refines L r.2
  idle : Idle r.2
  uncached : ∀ d sector, Uncached s d sector → Uncached r.2 d sector
  free : r.1 = true → ∃ i, (r.2.cache i).valid = false

omit [DecidableEq Dev] in
theorem Idle.setEntry (h : ∀ j, j ≠ i → (s.cache j).writeback = false) (he : e.writeback = false) :
    Idle (s.setEntry i e) := by
  intro j
  by_cases hj : j = i
  · rw [hj, setEntry_self, he]
  · rw [setEntry_ne s hj, h j hj]

omit [DecidableEq Dev] in
theorem Uncached.setEntry (h : Uncached s d sector) (he : ¬ e.Holds d sector) :
    Uncached (s.setEntry i e) d sector := by
  intro j
  by_cases hj : j = i
  · rw [hj, setEntry_self]
    exact he
  · rw [setEntry_ne s hj]
    exact h j

section Evict

variable (info : Dev → DeviceInfo) (fates : Nat → Fate)

theorem Refines.writeEntry (h : Refines L s) (hi : (s.cache i).Holds d sector)
    (hr : r = Storage.ioWrite info fates (s.setEntry i { s.cache i with writeback := true }) d
      (s.cache i).sector (s.cache i).data) :
    Refines L r.2 ∧ r.2.cache = (s.setEntry i { s.cache i with writeback := true }).cache ∧
      find r.2.cache d (s.cache i).sector = some i ∧
      (r.1 = true → r.2.disk d sector = L d sector) := by
  have hmark : Refines L (s.setEntry i { s.cache i with writeback := true }) :=
    h.mark rfl rfl rfl rfl rfl
  rw [h.data i d sector hi, hi.2.2] at hr
  obtain ⟨hrefines, hcache, hdisk⟩ := hmark.ioWrite info fates d sector
  rw [← hr] at hrefines hcache hdisk
  refine ⟨hrefines, hcache, ?_, hdisk⟩
  rw [hi.2.2]
  refine hrefines.find_eq ?_
  rw [hcache, setEntry_self]
  exact hi

section

variable (h : Refines L s) (hidle : Idle s) (hi : (s.cache i).Holds d (s.cache i).sector)
  (hr : r = Storage.ioWrite info fates (s.setEntry i { s.cache i with writeback := true }) d (s.cache i).sector (s.cache i).data)

include h hidle hi hr

/-- A victim that could not be written stays, dirty as it was. -/
theorem Refines.evict_failed :
    MadeRoom L s (false, keepFailed r.2 d (s.cache i).sector (s.cache i).age) := by
  obtain ⟨hrefines, hcache, hfind, -⟩ := h.writeEntry info fates hi hr
  have hage : (r.2.cache i).age = (s.cache i).age := by rw [hcache, setEntry_self]
  have heq : keepFailed r.2 d (s.cache i).sector (s.cache i).age =
      r.2.setEntry i { r.2.cache i with writeback := false } := by
    simp [keepFailed, hfind, hage]
  rw [heq]
  refine ⟨hrefines.mark rfl rfl rfl rfl rfl, .setEntry (fun j hj => ?_) rfl,
    fun d' sector' hd => ?_, by simp⟩
  · rw [hcache, setEntry_ne s hj, hidle j]
  have hmarked : Uncached r.2 d' sector' := by
    have hset : Uncached (s.setEntry i { s.cache i with writeback := true }) d' sector' :=
      hd.setEntry (hd i)
    intro j
    rw [hcache]
    exact hset j
  exact hmarked.setEntry (hmarked i)

theorem Refines.evict_written (hok : r.1 = true) :
    MadeRoom L s (true, reclaim r.2 d (s.cache i).sector (s.cache i).age) := by
  obtain ⟨hrefines, hcache, hfind, hdisk⟩ := h.writeEntry info fates hi hr
  have hage : (r.2.cache i).age = (s.cache i).age := by rw [hcache, setEntry_self]
  have heq : reclaim r.2 d (s.cache i).sector (s.cache i).age =
      r.2.setEntry i (r.2.cache i).invalidate := by
    simp [reclaim, hfind, hage]
  rw [heq]
  refine ⟨hrefines.invalidate fun d' sector' hh => ?_, .setEntry (fun j hj => ?_) rfl,
    fun d' sector' hd => ?_, fun _ => ⟨i, ?_⟩⟩
  · -- the entry holds one sector only, the one just written
    rw [hcache, setEntry_self] at hh
    cases hi.2.1.symm.trans hh.2.1
    obtain rfl : (s.cache i).sector = sector' := hh.2.2
    exact hdisk hok
  · rw [hcache, setEntry_ne s hj, hidle j]
  · have hmarked : Uncached r.2 d' sector' := by
      have hset : Uncached (s.setEntry i { s.cache i with writeback := true }) d' sector' :=
        hd.setEntry (hd i)
      intro j
      rw [hcache]
      exact hset j
    refine hmarked.setEntry ?_
    simp [CacheEntry.Holds, CacheEntry.invalidate]
  · simp [setEntry_self, CacheEntry.invalidate]

end

theorem Refines.evictOne (h : Refines L s) (hidle : Idle s) :
    MadeRoom L s (evictOne info fates s) := by
  have hsame (b : Bool) (hb : b = false) : MadeRoom L s (b, s) :=
    ⟨h, hidle, fun _ _ hd => hd, fun hok => by simp [hb] at hok⟩
  rw [Storage.evictOne]
  cases hvictim : victim s.cache with
  | none => exact hsame false rfl
  | some i =>
  simp only
  split_ifs with hclean
  · refine ⟨h.invalidate fun d sector hholds => ?_, .setEntry (fun j _ => hidle j) rfl,
      fun d sector hd => hd.setEntry ?_, fun _ => ⟨i, ?_⟩⟩
    · refine h.clean hholds ?_
      simpa [hholds.1] using hclean
    · simp [CacheEntry.Holds, CacheEntry.invalidate]
    · simp [setEntry_self, CacheEntry.invalidate]
  rw [Bool.or_eq_true, Bool.not_eq_true', not_or, Bool.not_eq_false] at hclean
  cases hdev : (s.cache i).device with
  | none => exact absurd hdev (h.device i hclean.1)
  | some d =>
  have hholds : (s.cache i).Holds d (s.cache i).sector := ⟨hclean.1, hdev, rfl⟩
  simp only
  generalize hr : Storage.ioWrite info fates _ d _ _ = r
  rw [← hdev] at hr
  split_ifs with hfits hok
  · exact hsame false rfl
  · exact h.evict_failed info fates hidle hholds hr.symm
  have hroom := h.evict_written info fates hidle hholds hr.symm (by simpa using hok)
  obtain ⟨j, hj, hfree⟩ := victim_free hroom.idle (hroom.free rfl)
  dsimp only at hj hfree
  simpa only [hj, hfree, Bool.not_false] using hroom

theorem Refines.evictRetry (h : Refines L s) (hidle : Idle s) (n : Nat) :
    MadeRoom L s (evictRetry info fates n s) := by
  induction n generalizing s with
  | zero => exact ⟨h, hidle, fun _ _ hd => hd, by simp [Storage.evictRetry]⟩
  | succ n ih =>
    have hone := h.evictOne info fates hidle
    rw [Storage.evictRetry]
    split_ifs
    · exact hone
    have hmore := ih hone.refines hone.idle
    exact ⟨hmore.refines, hmore.idle,
      fun d sector hd => hmore.uncached d sector (hone.uncached d sector hd), hmore.free⟩

end Evict

/-! ## The calls -/

section Calls

variable (info : Dev → DeviceInfo) (fates : Nat → Fate)

omit [DecidableEq Dev] in
theorem Refines.fill (h : Refines L s) (hfree : (s.cache i).valid = false)
    (hd : Uncached s d sector) {dirty : Bool} (hdisk : dirty = false → s.disk d sector = L d sector) :
    Refines L (fill s i d sector (L d sector) dirty) := by
  refine Refines.touch (h.setEntry (by simp) (fun d' sector' he => ?_)
    (fun j d' sector' _ hj he => ?_) fun d' sector' he hother => ?_) i
  · obtain ⟨-, hdev, hsec⟩ := he
    cases hdev
    obtain rfl : sector = sector' := hsec
    rfl
  · obtain ⟨-, hdev, hsec⟩ := he
    cases hdev
    obtain rfl : sector = sector' := hsec
    exact hd j hj
  by_cases hsame : d = d' ∧ sector = sector'
  · obtain ⟨rfl, rfl⟩ := hsame
    exact hdisk (he ⟨rfl, rfl, rfl⟩)
  refine h.disk d' sector' fun j hj => hother j ?_ hj
  rintro rfl
  exact absurd hj.1 (by simp [hfree])

omit [DecidableEq Dev] in
theorem Idle.touch (h : Idle s) (i : CacheSlot) : Idle (s.touch i) :=
  Idle.setEntry (fun j _ => h j) (h i)

omit [DecidableEq Dev] in
theorem Idle.fill (h : Idle s) {data : Sector} {dirty : Bool} :
    Idle (fill s i d sector data dirty) :=
  Idle.touch (.setEntry (fun j _ => h j) rfl) i

/-- What a read leaves: a successful one returned what the store holds. -/
structure ReadOk (L : Store Dev) (d : Dev) (sector : Nat) (r : Option Sector × CacheState Dev) :
    Prop where
  refines : Refines L r.2
  idle : Idle r.2
  data : ∀ data, r.1 = some data → data = L d sector

omit [DecidableEq Dev] in
theorem ReadOk.failed (h : Refines L s) (hidle : Idle s) : ReadOk L d sector (none, s) :=
  ⟨h, hidle, by simp⟩

omit [DecidableEq Dev] in
theorem ReadOk.returned {data : Sector} (h : Refines L s) (hidle : Idle s)
    (hdata : data = L d sector) : ReadOk L d sector (some data, s) :=
  ⟨h, hidle, fun _ heq => (Option.some.inj heq).symm.trans hdata⟩

theorem Refines.blockCacheRead (h : Refines L s) (hidle : Idle s) (d : Dev) (sector : Nat) :
    ReadOk L d sector (blockCacheRead info fates s d sector) := by
  rw [Storage.blockCacheRead]
  split
  · exact .failed h hidle
  cases hfind : find s.cache d sector with
  | some i => exact .returned (h.touch i) (hidle.touch i) (h.data i d sector (find_some hfind))
  | none =>
  have hroom := h.evictRetry info fates hidle 3
  have hmiss := hroom.uncached d sector (find_none hfind)
  generalize Storage.evictRetry info fates 3 s = r at hroom hmiss
  by_cases hok : (!r.1) = true
  · rw [if_pos hok]
    exact .failed hroom.refines hroom.idle
  simp only [if_neg hok]
  obtain ⟨hrefines, hcache, hdata⟩ := hroom.refines.ioRead info fates d sector
  have hfresh := hroom.refines.disk d sector fun j hj => absurd hj (hmiss j)
  generalize Storage.ioRead info fates r.2 d sector = q at hrefines hcache hdata
  have hidle' : Idle q.2 := by
    intro j
    rw [hcache, hroom.idle j]
  have hmiss' : Uncached q.2 d sector := by
    intro j
    rw [hcache]
    exact hmiss j
  cases hq : q.1 with
  | none => exact .failed hrefines hidle'
  | some fresh =>
  obtain rfl : fresh = L d sector := (hdata fresh hq).trans hfresh
  have hplain := ReadOk.returned hrefines hidle' (Eq.refl (L d sector))
  dsimp only
  split
  · exact hplain
  split
  · exact hplain
  split_ifs with hvalid
  · exact hplain
  refine .returned (hrefines.fill (by simpa using hvalid) hmiss' fun _ => ?_)
    hidle'.fill rfl
  exact hrefines.disk d sector fun j hj => absurd hj (hmiss' j)

def Store.write (L : Store Dev) (d : Dev) (sector : Nat) (data : Sector) : Store Dev :=
  update L d (update (L d) sector data)

theorem Store.write_self (L : Store Dev) (d : Dev) (sector : Nat) (data : Sector) :
    L.write d sector data d sector = data := by
  simp [Store.write]

theorem Store.write_other (L : Store Dev) {d d' : Dev} {sector sector' : Nat} (data : Sector)
    (hne : ¬ (d' = d ∧ sector' = sector)) : L.write d sector data d' sector' = L d' sector' := by
  by_cases hd : d' = d
  · subst hd
    have hs : sector' ≠ sector := fun hs => hne ⟨rfl, hs⟩
    simp [Store.write, hs]
  · simp [Store.write, hd]

theorem Refines.overwrite (h : Refines L s)
    (he : e.valid = true ∧ e.device = some d ∧ e.sector = sector) (hdirty : e.dirty = true)
    (hother : ∀ j, j ≠ i → ¬ (s.cache j).Holds d sector)
    (hsame : ∀ d' sector', (s.cache i).Holds d' sector' → d' = d ∧ sector' = sector) :
    Refines (L.write d sector e.data) (s.setEntry i e) := by
  have hholds (d' : Dev) (sector' : Nat) : e.Holds d' sector' ↔ d' = d ∧ sector' = sector := by
    simp [CacheEntry.Holds, he.1, he.2.1, he.2.2, eq_comm]
  refine ⟨fun j k d' sector' hj hk => ?_, fun j => ?_, fun j d' sector' hj => ?_,
    fun d' sector' hclean => ?_⟩
  · by_cases hji : j = i <;> by_cases hki : k = i
    · rw [hji, hki]
    · rw [hji, setEntry_self] at hj
      rw [setEntry_ne s hki] at hk
      obtain ⟨rfl, rfl⟩ := (hholds d' sector').1 hj
      exact absurd hk (hother k hki)
    · rw [hki, setEntry_self] at hk
      rw [setEntry_ne s hji] at hj
      obtain ⟨rfl, rfl⟩ := (hholds d' sector').1 hk
      exact absurd hj (hother j hji)
    rw [setEntry_ne s hji] at hj
    rw [setEntry_ne s hki] at hk
    exact h.unique j k d' sector' hj hk
  · by_cases hj : j = i
    · rw [hj, setEntry_self, he.2.1]
      simp
    · rw [setEntry_ne s hj]
      exact h.device j
  · by_cases hji : j = i
    · rw [hji, setEntry_self] at hj ⊢
      obtain ⟨rfl, rfl⟩ := (hholds d' sector').1 hj
      rw [Store.write_self]
    rw [setEntry_ne s hji] at hj ⊢
    rw [h.data j d' sector' hj, Store.write_other]
    rintro ⟨rfl, rfl⟩
    exact hother j hji hj
  by_cases hnew : d' = d ∧ sector' = sector
  · have hi := hclean i
    rw [setEntry_self] at hi
    simp [hi ((hholds d' sector').2 hnew)] at hdirty
  rw [Store.write_other L _ hnew]
  refine h.disk d' sector' fun j hj => ?_
  have hji : j ≠ i := by
    rintro rfl
    exact hnew (hsame d' sector' hj)
  have hcj := hclean j
  rw [setEntry_ne s hji] at hcj
  exact hcj hj

/-- A write changes the store when it succeeds and leaves it alone when it fails. -/
theorem Refines.blockCacheWrite (h : Refines L s) (hidle : Idle s) (d : Dev) (sector : Nat)
    (input : Sector) :
    Refines (if (blockCacheWrite info fates s d sector input).1 then L.write d sector input else L)
        (blockCacheWrite info fates s d sector input).2 ∧
      Idle (blockCacheWrite info fates s d sector input).2 := by
  rw [Storage.blockCacheWrite]
  split
  · exact ⟨h, hidle⟩
  cases hfind : find s.cache d sector with
  | some i =>
    have hi := find_some hfind
    have hnew : Refines (L.write d sector input)
        (s.setEntry i { s.cache i with data := input, dirty := true }) := by
      refine h.overwrite (e := { s.cache i with data := input, dirty := true }) hi rfl
        (fun j hj hh => ?_) fun d' sector' hh => ?_
      · exact hj (h.unique j i d sector hh hi)
      · exact ⟨Option.some.inj (hh.2.1.symm.trans hi.2.1), hh.2.2.symm.trans hi.2.2⟩
    have hidle' : Idle (s.setEntry i { s.cache i with data := input, dirty := true }) :=
      .setEntry (fun j _ => hidle j) (hidle i)
    exact ⟨hnew.touch i, hidle'.touch i⟩
  | none =>
    have hroom := h.evictRetry info fates hidle 3
    have hmiss := hroom.uncached d sector (find_none hfind)
    generalize Storage.evictRetry info fates 3 s = r at hroom hmiss
    by_cases hok : (!r.1) = true
    · rw [if_pos hok]
      exact ⟨hroom.refines, hroom.idle⟩
    -- there is room, so the direct writes of the source are not reached
    obtain ⟨i, hi, hfree⟩ := victim_free hroom.idle (hroom.free (by simpa using hok))
    have hnew : Refines (L.write d sector input) (Storage.fill r.2 i d sector input true) := by
      refine Refines.touch ?_ i
      refine hroom.refines.overwrite (e :=
        { r.2.cache i with
          data := input, device := some d, sector := sector, valid := true, dirty := true
          writeback := false }) ⟨rfl, rfl, rfl⟩ rfl (fun j _ => hmiss j) fun d' sector' hh => ?_
      exact absurd hh.1 (by simp [hfree])
    simp only [if_neg hok, hi, hfree, Bool.false_eq_true, if_false, if_true]
    exact ⟨hnew, hroom.idle.fill⟩

omit [DecidableEq Dev] in
theorem Refines.cleanEntry (h : Refines L s) (hi : (s.cache i).Holds d sector)
    (he : e.Holds d sector) (hdata : e.data = (s.cache i).data)
    (hdisk : s.disk d sector = L d sector) : Refines L (s.setEntry i e) := by
  have hholds (d' : Dev) (sector' : Nat) (h' : e.Holds d' sector') : d = d' ∧ sector = sector' :=
    ⟨Option.some.inj (he.2.1.symm.trans h'.2.1), he.2.2.symm.trans h'.2.2⟩
  refine h.setEntry (fun _ => by simp [he.2.1]) (fun d' sector' he' => ?_)
    (fun j d' sector' hj hh he' => ?_) fun d' sector' _ hother => ?_
  · obtain ⟨rfl, rfl⟩ := hholds d' sector' he'
    rw [hdata, h.data i d sector hi]
  · obtain ⟨rfl, rfl⟩ := hholds d' sector' he'
    exact hj (h.unique j i d sector hh hi)
  by_cases hsame : (s.cache i).Holds d' sector'
  · cases hi.2.1.symm.trans hsame.2.1
    obtain rfl : sector = sector' := hi.2.2.symm.trans hsame.2.2
    exact hdisk
  refine h.disk d' sector' fun j hh => hother j ?_ hh
  rintro rfl
  exact hsame hh

theorem Refines.settle (h : Refines L s) (hidle : Idle s) (hi : (s.cache i).Holds d sector)
    (hr : r = Storage.ioWrite info fates (s.setEntry i { s.cache i with writeback := true }) d
      (s.cache i).sector (s.cache i).data) :
    Refines L (settle r.2 d (s.cache i).sector (s.cache i).age r.1) ∧
      Idle (settle r.2 d (s.cache i).sector (s.cache i).age r.1) ∧
      (settle r.2 d (s.cache i).sector (s.cache i).age r.1).cache = update s.cache i
        { s.cache i with dirty := if r.1 then false else (s.cache i).dirty } := by
  obtain ⟨hrefines, hcache, hfind, hdisk⟩ := h.writeEntry info fates hi hr
  have hself : r.2.cache i = { s.cache i with writeback := true } := by
    rw [hcache, setEntry_self]
  have hwb := hidle i
  have heq : Storage.settle r.2 d (s.cache i).sector (s.cache i).age r.1 =
      r.2.setEntry i { s.cache i with
        writeback := false
        dirty := if r.1 = true then false else (s.cache i).dirty } := by
    simp [Storage.settle, hfind, hself]
  rw [heq]
  have hcache' : (r.2.setEntry i { s.cache i with
      writeback := false
      dirty := if r.1 = true then false else (s.cache i).dirty }).cache =
      update s.cache i
        { s.cache i with dirty := if r.1 then false else (s.cache i).dirty } := by
    funext j
    by_cases hj : j = i
    · rw [hj, setEntry_self]
      simp [hwb]
    · rw [setEntry_ne _ hj, hcache, setEntry_ne _ hj]
      simp [hj]
  refine ⟨?_, .setEntry (fun j hj => ?_) rfl, hcache'⟩
  · cases hok : r.1 with
    | false =>
      simp only [Bool.false_eq_true, if_false]
      refine hrefines.mark ?_ ?_ ?_ ?_ ?_ <;> rw [hself]
    | true =>
      have hon : (r.2.cache i).Holds d sector := by
        rw [hself]
        exact hi
      refine hrefines.cleanEntry hon hi ?_ (hdisk hok)
      rw [hself]
  · rw [hcache, setEntry_ne s hj, hidle j]

def dirtyOf (s : CacheState Dev) (d : Dev) : Finset CacheSlot :=
  Finset.univ.filter fun i =>
    (s.cache i).valid = true ∧ (s.cache i).device = some d ∧ (s.cache i).dirty = true

theorem nextDirty_none (hidle : Idle s) (h : nextDirty s d = none) : dirtyOf s d = ∅ := by
  refine Finset.filter_eq_empty_iff.2 fun i _ hi => ?_
  have hnone := List.find?_eq_none.1 h i (List.mem_finRange i)
  exact hnone (by simpa [hidle i] using hi)

theorem nextDirty_some (h : nextDirty s d = some i) : i ∈ dirtyOf s d := by
  have hsome := List.find?_some h
  rw [decide_eq_true_eq] at hsome
  exact Finset.mem_filter.2 ⟨Finset.mem_univ i, hsome.1, hsome.2.1, hsome.2.2.1⟩

/-- The loop ends, and when it reports success no entry of the device is dirty. -/
theorem Refines.flushLoop (h : Refines L s) (hidle : Idle s) (d : Dev) {n : Nat}
    (hn : (dirtyOf s d).card < n) :
    ∃ r, flushLoop info fates d n s = some r ∧ Refines L r.2 ∧ Idle r.2 ∧
      (r.1 = true → dirtyOf r.2 d = ∅) := by
  induction n generalizing s with
  | zero => simp at hn
  | succ n ih =>
    rw [Storage.flushLoop]
    cases hnext : nextDirty s d with
    | none => exact ⟨_, rfl, h, hidle, fun _ => nextDirty_none hidle hnext⟩
    | some i =>
    have hmem := nextDirty_some hnext
    obtain ⟨-, hvalid, hdev, hdirty⟩ := Finset.mem_filter.1 hmem
    have hholds : (s.cache i).Holds d (s.cache i).sector := ⟨hvalid, hdev, rfl⟩
    simp only
    generalize hr : Storage.ioWrite info fates _ d _ _ = r
    obtain ⟨hrefines, hidle', hcache⟩ := h.settle info fates hidle hholds hr.symm
    cases hok : r.1 with
    | false =>
      rw [hok] at hrefines hidle'
      exact ⟨_, rfl, hrefines, hidle', by simp⟩
    | true =>
    rw [hok] at hrefines hidle' hcache
    refine ih hrefines hidle' ?_
    have hsub : dirtyOf (Storage.settle r.2 d (s.cache i).sector (s.cache i).age true) d =
        (dirtyOf s d).erase i := by
      ext j
      by_cases hj : j = i
      · simp [dirtyOf, hcache, hj]
      · simp [dirtyOf, hcache, hj]
    rw [hsub, Finset.card_erase_of_mem hmem]
    have hpos := Finset.card_pos.2 ⟨i, hmem⟩
    omega

/-- A flush ends, and when it reports success the device holds the store. -/
theorem Refines.blockCacheFlush (h : Refines L s) (hidle : Idle s) (d : Dev) :
    ∃ r, blockCacheFlush info fates s d = some r ∧ Refines L r.2 ∧ Idle r.2 ∧
      (r.1 = true → ∀ sector, r.2.disk d sector = L d sector) := by
  unfold Storage.blockCacheFlush
  split_ifs with hsubmits
  · exact ⟨_, rfl, h, hidle, by simp⟩
  have hfuel : (dirtyOf s d).card < cacheEntries + 1 := by
    have hle := Finset.card_le_univ (dirtyOf s d)
    rw [Fintype.card_fin] at hle
    omega
  obtain ⟨r, hr, hrefines, hidle', hempty⟩ := h.flushLoop info fates hidle d hfuel
  rw [hr]
  refine ⟨_, rfl, ?_⟩
  dsimp only
  split_ifs with hok
  · exact ⟨hrefines, hidle', by simp⟩
  have hclean := hempty (by simpa using hok)
  cases fates r.2.submitted with
  | done =>
    refine ⟨hrefines.submitted _, hidle', fun _ sector => ?_⟩
    refine hrefines.disk d sector fun i hi => ?_
    by_contra hdirty
    have hmem : i ∈ dirtyOf r.2 d :=
      Finset.mem_filter.2 ⟨Finset.mem_univ i, hi.1, hi.2.1, by simpa using hdirty⟩
    simp [hclean] at hmem
  | failed landed => exact ⟨hrefines.submitted _, hidle', by simp⟩

end Calls

/-! ## Runs -/

inductive CacheOp (Dev : Type*) where
  | read (d : Dev) (sector : Nat)
  | write (d : Dev) (sector : Nat) (input : Sector)
  | flush (d : Dev)

section Runs

variable (info : Dev → DeviceInfo) (fates : Nat → Fate)

/-- One call, next to the store that records the successful writes. -/
def cacheStep (p : Store Dev × CacheState Dev) : CacheOp Dev → Option (Store Dev × CacheState Dev)
  | .read d sector => some (p.1, (blockCacheRead info fates p.2 d sector).2)
  | .write d sector input =>
    let r := blockCacheWrite info fates p.2 d sector input
    some (if r.1 then p.1.write d sector input else p.1, r.2)
  | .flush d => (blockCacheFlush info fates p.2 d).map fun r => (p.1, r.2)

def cacheRun (p : Store Dev × CacheState Dev) (ops : List (CacheOp Dev)) :
    Option (Store Dev × CacheState Dev) :=
  ops.foldlM (cacheStep info fates) p

theorem cacheStep_spec (h : Refines L s) (hidle : Idle s) (op : CacheOp Dev) :
    ∃ p, cacheStep info fates (L, s) op = some p ∧ Refines p.1 p.2 ∧ Idle p.2 := by
  cases op with
  | read d sector =>
    have hread := h.blockCacheRead info fates hidle d sector
    exact ⟨_, rfl, hread.refines, hread.idle⟩
  | write d sector input =>
    obtain ⟨hrefines, hidle'⟩ := h.blockCacheWrite info fates hidle d sector input
    exact ⟨_, rfl, hrefines, hidle'⟩
  | flush d =>
    obtain ⟨r, hr, hrefines, hidle', -⟩ := h.blockCacheFlush info fates hidle d
    exact ⟨(L, r.2), by simp [cacheStep, hr], hrefines, hidle'⟩

theorem cacheRun_spec (h : Refines L s) (hidle : Idle s) (ops : List (CacheOp Dev)) :
    ∃ p, cacheRun info fates (L, s) ops = some p ∧ Refines p.1 p.2 ∧ Idle p.2 := by
  induction ops generalizing L s with
  | nil => exact ⟨(L, s), rfl, h, hidle⟩
  | cons op ops ih =>
    obtain ⟨p, hp, hrefines, hidle'⟩ := cacheStep_spec info fates h hidle op
    obtain ⟨q, hq, hq'⟩ := ih hrefines hidle'
    refine ⟨q, ?_, hq'⟩
    simpa [cacheRun, hp] using hq

omit [DecidableEq Dev] in
theorem refines_init (cache : CacheSlot → CacheEntry Dev) (disk : Store Dev) :
    Refines disk (blockCacheInit cache disk) where
  unique _ _ _ _ hi := by simp [blockCacheInit, CacheEntry.Holds] at hi
  device _ hi := by simp [blockCacheInit] at hi
  data _ _ _ hi := by simp [blockCacheInit, CacheEntry.Holds] at hi
  disk _ _ _ := rfl

/-- Whatever calls come, on whatever devices and sectors, and however the requests
to the devices end: every call returns. Let `L` be the initial contents of the
devices with the successful writes applied. A successful read returns what `L`
has, every sector of `L` is in the cache or on its device, and after a successful
flush the device has it. -/
theorem cache_refines_store (cache : CacheSlot → CacheEntry Dev) (disk : Store Dev)
    (ops : List (CacheOp Dev)) :
    ∃ L s, cacheRun info fates (disk, blockCacheInit cache disk) ops = some (L, s) ∧
      (∀ d sector data, (blockCacheRead info fates s d sector).1 = some data →
        data = L d sector) ∧
      (∀ d sector, (∃ i, (s.cache i).Holds d sector ∧ (s.cache i).data = L d sector) ∨
        s.disk d sector = L d sector) ∧
      ∀ d, ∃ r, blockCacheFlush info fates s d = some r ∧
        (r.1 = true → ∀ sector, r.2.disk d sector = L d sector) := by
  obtain ⟨⟨L, s⟩, hrun, hrefines, hidle⟩ :=
    cacheRun_spec info fates (refines_init cache disk) (fun _ => rfl) ops
  refine ⟨L, s, hrun, fun d sector => (hrefines.blockCacheRead info fates hidle d sector).data,
    fun d sector => ?_, fun d => ?_⟩
  · by_cases hcached : ∃ i, (s.cache i).Holds d sector
    · obtain ⟨i, hi⟩ := hcached
      exact .inl ⟨i, hi, hrefines.data i d sector hi⟩
    · exact .inr (hrefines.disk d sector fun i hi => absurd ⟨i, hi⟩ hcached)
  · obtain ⟨r, hr, -, -, hdisk⟩ := hrefines.blockCacheFlush info fates hidle d
    exact ⟨r, hr, hdisk⟩

end Runs

end RixuriOS.Storage
