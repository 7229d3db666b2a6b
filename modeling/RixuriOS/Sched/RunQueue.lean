import Mathlib

/-!
# The per-CPU run queue

`sched/runqueue.c`: a mask of task slots, a round-robin cursor and the length
of the current run of high-priority picks. The cursor is any `uint32_t`; a pick
folds it into range.
-/

namespace RixuriOS.Sched

abbrev rqSlots : Nat := 32

scoped instance : NeZero rqSlots := ⟨by decide⟩

abbrev Slot := Fin rqSlots

abbrev hipriCap : Nat := 4

structure RunQueue where
  mask : BitVec 32
  cursor : Nat
  hipriStreak : Nat
  deriving DecidableEq, Repr

def slotBit (i : Slot) : BitVec 32 := 1#32 <<< i.val

def rqInit : RunQueue := ⟨0, 0, 0⟩

def rqAdd (rq : RunQueue) (i : Slot) : RunQueue := { rq with mask := rq.mask ||| slotBit i }

def rqRemove (rq : RunQueue) (i : Slot) : RunQueue :=
  { rq with mask := rq.mask &&& ~~~slotBit i }

def rqContains (rq : RunQueue) (i : Slot) : Bool := rq.mask &&& slotBit i != 0

def scanOrder (start : Nat) : List Slot :=
  (List.finRange rqSlots).map fun n => Fin.ofNat rqSlots (start + n)

/-- `rq_scan_locked`: the first slot of the pool at or after `start`, wrapping
once; the cursor moves past it. -/
def rqScan (rq : RunQueue) (pool : BitVec 32) (start : Nat) : Option Slot × RunQueue :=
  match (scanOrder start).find? fun i => pool &&& slotBit i != 0 with
  | some i => (some i, { rq with cursor := (i.val + 1) % rqSlots })
  | none => (none, rq)

/-- The pass over the whole mask, which resets the streak. -/
def rqPickNormal (rq : RunQueue) : Option Slot × RunQueue :=
  let r := rqScan rq rq.mask (rq.cursor % rqSlots)
  (r.1, { r.2 with hipriStreak := 0 })

/-- `rq_pick_locked`; `none` is the -1 of the source. -/
def rqPick (rq : RunQueue) (himask : BitVec 32) : Option Slot × RunQueue :=
  if rq.mask = 0 then (none, rq)
  else
    let pool := rq.mask &&& himask
    if pool ≠ 0 ∧ rq.hipriStreak < hipriCap then
      let r := rqScan rq pool (rq.cursor % rqSlots)
      if r.1.isSome then (r.1, { r.2 with hipriStreak := r.2.hipriStreak + 1 })
      else rqPickNormal rq
    else rqPickNormal rq

theorem getLsbD_slotBit (i : Slot) (k : Nat) : (slotBit i).getLsbD k = decide (k = i.val) := by
  have hi := i.isLt
  rw [slotBit, BitVec.getLsbD_shiftLeft, BitVec.getLsbD_one]
  by_cases hk : k = i.val
  · simp [hk, hi]
  by_cases hlt : k < i.val
  · simp [hk, hlt]
  · simp [hk]
    omega

theorem and_slotBit (m : BitVec 32) (i : Slot) : (m &&& slotBit i != 0) = m.getLsbD i.val := by
  have hand (k : Nat) : (m &&& slotBit i).getLsbD k = (m.getLsbD k && decide (k = i.val)) := by
    rw [BitVec.getLsbD_and, getLsbD_slotBit]
  rw [Bool.eq_iff_iff, bne_iff_ne]
  constructor
  · intro hne
    by_contra hoff
    apply hne
    apply BitVec.eq_of_getLsbD_eq
    intro k _
    rw [hand, BitVec.ofNat_eq_ofNat, BitVec.getLsbD_zero]
    by_cases hk : k = i.val
    · rw [hk, Bool.eq_false_iff.2 hoff, Bool.false_and]
    · simp [hk]
  intro hon heq
  have hbit := hand i.val
  rw [heq, hon] at hbit
  simp at hbit

theorem rqContains_eq (rq : RunQueue) (i : Slot) : rqContains rq i = rq.mask.getLsbD i.val :=
  and_slotBit rq.mask i

@[simp] theorem rqContains_init (i : Slot) : rqContains rqInit i = false := by
  simp [rqContains_eq, rqInit]

theorem rqContains_add (rq : RunQueue) (i j : Slot) :
    rqContains (rqAdd rq i) j = (rqContains rq j || decide (j = i)) := by
  simp only [rqContains_eq, rqAdd, BitVec.getLsbD_or, getLsbD_slotBit, Fin.ext_iff]

theorem rqContains_remove (rq : RunQueue) (i j : Slot) :
    rqContains (rqRemove rq i) j = (rqContains rq j && !decide (j = i)) := by
  have hj : j.val < 32 := j.isLt
  simp only [rqContains_eq, rqRemove, BitVec.getLsbD_and, BitVec.getLsbD_not, getLsbD_slotBit,
    Fin.ext_iff, hj, decide_true, Bool.true_and]

@[simp] theorem rqScan_mask (rq : RunQueue) (pool : BitVec 32) (start : Nat) :
    (rqScan rq pool start).2.mask = rq.mask := by
  unfold rqScan
  split <;> rfl

variable {rq : RunQueue} {i : Slot}

variable {himask pool : BitVec 32} {start : Nat}

theorem rqScan_mem (h : (rqScan rq pool start).1 = some i) : pool.getLsbD i.val = true := by
  unfold rqScan at h
  split at h
  · rename_i j hj
    have hbit := List.find?_some hj
    cases h
    rwa [and_slotBit] at hbit
  · cases h

@[simp] theorem rqPick_mask (rq : RunQueue) (himask : BitVec 32) :
    (rqPick rq himask).2.mask = rq.mask := by
  simp only [rqPick, rqPickNormal]
  split_ifs <;> simp

theorem rqPick_mem (h : (rqPick rq himask).1 = some i) : rqContains rq i = true := by
  have hnormal (hn : (rqPickNormal rq).1 = some i) : rqContains rq i = true := by
    rw [rqContains_eq]
    exact rqScan_mem hn
  unfold rqPick at h
  simp only at h
  split_ifs at h with h0 hpool hsome
  · have hmem := rqScan_mem h
    rw [BitVec.getLsbD_and, Bool.and_eq_true] at hmem
    rw [rqContains_eq]
    exact hmem.1
  · exact hnormal h
  · exact hnormal h

def rqAfter (rq : RunQueue) (himask : BitVec 32) (n : Nat) : RunQueue :=
  (fun q => (rqPick q himask).2)^[n] rq

def rqPickAt (rq : RunQueue) (himask : BitVec 32) (n : Nat) : Option Slot :=
  (rqPick (rqAfter rq himask n) himask).1

theorem scanOrder_eq (start : Nat) :
    scanOrder start = (List.range 32).map fun n => Fin.ofNat 32 (start + n) := rfl

/-- A scan stops at the first slot of its pool, so at the latest at a given one. -/
theorem rqScan_first (rq : RunQueue) {d : Nat} (hbit : pool.getLsbD i.val = true) (hd : d < 32)
    (hi : (start + d) % 32 = i.val) :
    ∃ m ≤ d, rqScan rq pool start =
      (some (Fin.ofNat 32 (start + m)), { rq with cursor := (start + m + 1) % 32 }) := by
  have hget (k : Nat) (hk : k < (scanOrder start).length) :
      (scanOrder start)[k] = Fin.ofNat 32 (start + k) := by
    simp only [scanOrder_eq, List.getElem_map, List.getElem_range]
  have hlen : (scanOrder start).length = 32 := by simp [scanOrder_eq]
  have hdi : Fin.ofNat 32 (start + d) = i := Fin.ext hi
  cases hfind : (scanOrder start).find? fun i => pool &&& slotBit i != 0 with
  | none =>
    have hmiss := List.find?_eq_none.1 hfind _ (List.getElem_mem (hd.trans_eq hlen.symm))
    rw [hget, hdi, and_slotBit] at hmiss
    exact absurd hbit hmiss
  | some j =>
  obtain ⟨_, m, hm, hj, hbefore⟩ := List.find?_eq_some_iff_getElem.1 hfind
  have hle : m ≤ d := by
    by_contra hlt
    have hmiss := hbefore d (by omega)
    rw [hget, hdi, and_slotBit, hbit] at hmiss
    simp at hmiss
  refine ⟨m, hle, ?_⟩
  rw [hget] at hj
  have hcursor : ((Fin.ofNat 32 (start + m)).val + 1) % 32 = (start + m + 1) % 32 := by
    simp only [Fin.ofNat]
    omega
  simp only [rqScan, hfind, ← hj, hcursor]

theorem rqPick_normal (h : rq.mask &&& himask = 0) (hmask : rq.mask ≠ 0) :
    rqPick rq himask = rqPickNormal rq := by
  rw [rqPick, if_neg hmask, if_neg (by simp [h])]

/-- Every other pick reduces the distance of the slot from the cursor. -/
theorem rqPickAt_of_distance {d : Nat} (h : rq.mask &&& himask = 0) (hi : rqContains rq i = true)
    (hd : d < 32) (hdist : (rq.cursor + d) % 32 = i.val) :
    ∃ n ≤ d, rqPickAt rq himask n = some i := by
  induction d using Nat.strong_induction_on generalizing rq with
  | _ d ih =>
    have hbit : rq.mask.getLsbD i.val = true := by rwa [← rqContains_eq]
    have hne : rq.mask ≠ 0 := by
      intro hzero
      simp [hzero] at hbit
    obtain ⟨m, hm, hscan⟩ := rqScan_first rq hbit hd ((Nat.mod_add_mod _ _ _).trans hdist)
    have hpick := rqPick_normal h hne
    rw [rqPickNormal, hscan] at hpick
    rcases Nat.eq_or_lt_of_le hm with rfl | hlt
    · refine ⟨0, Nat.zero_le _, ?_⟩
      rw [show rqPickAt rq himask 0 = (rqPick rq himask).1 from rfl, hpick]
      exact congrArg some (Fin.ext ((Nat.mod_add_mod _ _ _).trans hdist))
    have hnext : (rqPick rq himask).2.mask &&& himask = 0 := by rwa [rqPick_mask]
    obtain ⟨n, hn, hat⟩ := ih (d - m - 1) (by omega) hnext (by rwa [rqContains_eq, rqPick_mask])
      (by omega) (by rw [hpick]; dsimp only; omega)
    exact ⟨n + 1, by omega, hat⟩

/-- A sequence in a list that comes to all its members and goes on from equal values in the same way
comes to each of them once in as many steps as there are. -/
theorem perm_of_cycle {α : Type} {u : Nat → α} {l : List α} (hl : l.Nodup)
    (hstep : ∀ a b, u a = u b → u (a + 1) = u (b + 1)) (hmem : ∀ n, u n ∈ l)
    (hreach : ∀ x ∈ l, ∃ n, u n = x) : ((List.range l.length).map u).Perm l := by
  have hadd (a b n : Nat) (h : u a = u b) : u (a + n) = u (b + n) := by
    induction n with
    | zero => exact h
    | succ n ih => exact hstep _ _ ih
  -- a value that comes twice closes the cycle, and the list is not longer than that
  have hne (a b : Nat) (hab : a < b) (hb : b < l.length) : u a ≠ u b := by
    intro h
    have hsub : l ⊆ (List.range b).map u := by
      intro x hx
      obtain ⟨n, rfl⟩ := hreach x hx
      clear hx
      induction n using Nat.strong_induction_on with
      | _ n ih =>
        by_cases hn : n < b
        · exact List.mem_map_of_mem (List.mem_range.2 hn)
        have hback := ih (a + (n - b)) (by omega)
        rwa [hadd a b (n - b) h, Nat.add_sub_cancel' (by omega)] at hback
    have hlen := (List.subperm_of_subset hl hsub).length_le
    rw [List.length_map, List.length_range] at hlen
    omega
  have hnodup : ((List.range l.length).map u).Nodup := by
    refine List.Nodup.map_on (fun a ha b hb h => ?_) List.nodup_range
    rw [List.mem_range] at ha hb
    by_contra hab
    rcases Nat.lt_or_gt_of_ne hab with hlt | hlt
    · exact hne a b hlt hb h
    · exact hne b a hlt ha h.symm
  refine (List.subperm_of_subset hnodup fun x hx => ?_).perm_of_length_le (by simp)
  obtain ⟨n, -, rfl⟩ := List.mem_map.1 hx
  exact hmem n

theorem rqPick_some {q : RunQueue} (hi : rqContains q i = true) :
    ∃ j, rqContains q j = true ∧ rqPick q 0 = (some j, ⟨q.mask, (j.val + 1) % 32, 0⟩) := by
  have hbit : q.mask.getLsbD i.val = true := by rwa [← rqContains_eq]
  have hne : q.mask ≠ 0 := by
    intro hzero
    simp [hzero] at hbit
  have hlt : i.val < 32 := i.isLt
  have hdist : (q.cursor % 32 + (i.val + 32 - q.cursor % 32) % 32) % 32 = i.val := by omega
  obtain ⟨m, -, hscan⟩ := rqScan_first q hbit (Nat.mod_lt _ (by decide)) hdist
  have hpick := rqPick_normal BitVec.and_zero hne
  rw [rqPickNormal, hscan] at hpick
  refine ⟨_, rqPick_mem (congrArg Prod.fst hpick), hpick.trans ?_⟩
  simp [Fin.ofNat]
  omega

@[simp] theorem rqAfter_mask (rq : RunQueue) (himask : BitVec 32) (n : Nat) :
    (rqAfter rq himask n).mask = rq.mask := by
  induction n with
  | zero => rfl
  | succ n ih => rw [rqAfter, Function.iterate_succ_apply', rqPick_mask, ← rqAfter, ih]

/-- With no high-priority slot, as many picks in a row as there are set slots return each of them
once, wherever they start. -/
theorem rqPickAt_round (rq : RunQueue) (m : Nat) :
    let slots := (List.finRange rqSlots).filter (rqContains rq)
    ((List.range slots.length).map fun n => rqPickAt rq 0 (m + n)).Perm (slots.map some) := by
  intro slots
  have hslots (i : Slot) : i ∈ slots ↔ rqContains rq i = true := by simp [slots]
  have hcontains (n : Nat) (i : Slot) : rqContains (rqAfter rq 0 n) i = rqContains rq i := by
    rw [rqContains_eq, rqContains_eq, rqAfter_mask]
  by_cases hempty : slots = []
  · simp [hempty]
  obtain ⟨i₀, hi₀⟩ := List.exists_mem_of_ne_nil slots hempty
  have hpick (n : Nat) : ∃ j ∈ slots, rqPickAt rq 0 n = some j ∧
      rqAfter rq 0 (n + 1) = ⟨rq.mask, (j.val + 1) % 32, 0⟩ := by
    obtain ⟨j, hj, hp⟩ := rqPick_some ((hcontains n i₀).trans ((hslots i₀).1 hi₀))
    refine ⟨j, (hslots j).2 ((hcontains n j).symm.trans hj), congrArg Prod.fst hp, ?_⟩
    rw [rqAfter, Function.iterate_succ_apply', ← rqAfter, hp, rqAfter_mask]
  have hperm := perm_of_cycle (l := slots.map some) (u := fun n => rqPickAt rq 0 (m + n)) ?_ ?_ ?_ ?_
  · rwa [List.length_map] at hperm
  · exact ((List.nodup_finRange _).filter _).map (Option.some_injective _)
  · intro a b hab
    obtain ⟨j, -, hj, hafter⟩ := hpick (m + a)
    obtain ⟨k, -, hk, hafter'⟩ := hpick (m + b)
    cases hj.symm.trans (hab.trans hk)
    change (rqPick (rqAfter rq 0 (m + a + 1)) 0).1 = (rqPick (rqAfter rq 0 (m + b + 1)) 0).1
    rw [hafter, hafter']
  · intro n
    obtain ⟨j, hj, hp, -⟩ := hpick (m + n)
    exact List.mem_map.2 ⟨j, hj, hp.symm⟩
  intro x hx
  obtain ⟨i, hi, rfl⟩ := List.mem_map.1 hx
  have hnone : (rqAfter rq 0 m).mask &&& 0 = 0 := BitVec.and_zero
  have hlt : i.val < 32 := i.isLt
  obtain ⟨n, -, hn⟩ := rqPickAt_of_distance (d := (i.val + 32 - (rqAfter rq 0 m).cursor % 32) % 32)
    hnone ((hcontains m i).trans ((hslots i).1 hi)) (Nat.mod_lt _ (by decide)) (by omega)
  refine ⟨n, Eq.trans ?_ hn⟩
  rw [rqPickAt, rqPickAt, rqAfter, rqAfter, rqAfter, Nat.add_comm m, Function.iterate_add_apply]

theorem rqAfter_add (rq : RunQueue) (himask : BitVec 32) (m n : Nat) :
    rqAfter rq himask (m + n) = rqAfter (rqAfter rq himask m) himask n := by
  rw [rqAfter, Nat.add_comm, Function.iterate_add_apply]
  rfl

/-! ## Picks with high-priority slots -/

/-- The next slot of the pool behind a slot. -/
def after (pool : BitVec 32) (i : Slot) : Slot :=
  ((scanOrder (i.val + 1)).find? fun j => pool &&& slotBit j != 0).getD i

/-- Where the cursor comes to with one pick from the mask and the preferred picks that follow. -/
def lap (mask himask : BitVec 32) (i : Slot) : Slot :=
  (after (mask &&& himask))^[hipriCap] (after mask i)

/-- No set slot is of high priority, or from each one that is, laps lead to a place right before
every other set slot. -/
def Fair (mask himask : BitVec 32) : Prop :=
  mask &&& himask = 0 ∨ ∀ s : Slot, mask.getLsbD s.val = true → himask.getLsbD s.val = false →
    ∀ h : Slot, (mask &&& himask).getLsbD h.val = true → ∃ n, after mask ((lap mask himask)^[n] h) = s

def behind (mask : BitVec 32) (i : Slot) (streak : Nat) : RunQueue :=
  ⟨mask, (i.val + 1) % 32, streak⟩

theorem scanOrder_congr {start' : Nat} (h : start % 32 = start' % 32) :
    scanOrder start = scanOrder start' := by
  simp only [scanOrder_eq]
  refine List.map_congr_left fun n _ => Fin.ext ?_
  simp only [Fin.ofNat]
  omega

theorem rqScan_after (rq : RunQueue) {j : Slot} (hj : pool.getLsbD j.val = true)
    (hstart : start % 32 = (i.val + 1) % 32) :
    rqScan rq pool start =
      (some (after pool i), { rq with cursor := ((after pool i).val + 1) % 32 }) := by
  have hlt : j.val < 32 := j.isLt
  obtain ⟨m, -, hscan⟩ := rqScan_first rq (d := (j.val + 32 - (i.val + 1) % 32) % 32) hj
    (Nat.mod_lt _ (by decide)) (show (i.val + 1 + _) % 32 = _ by omega)
  rw [rqScan] at hscan
  rw [rqScan, scanOrder_congr hstart, after]
  cases hfind : (scanOrder (i.val + 1)).find? fun j => pool &&& slotBit j != 0 with
  | none =>
    rw [hfind] at hscan
    cases hscan
  | some k => rfl

section

variable {mask : BitVec 32} {h : Slot} {cursor streak : Nat}
  (hh : (mask &&& himask).getLsbD h.val = true)
include hh

theorem getLsbD_after (i : Slot) :
    (mask &&& himask).getLsbD (after (mask &&& himask) i).val = true :=
  rqScan_mem (congrArg Prod.fst (rqScan_after rqInit hh rfl))

theorem rqPick_preferred (hi : cursor % 32 = (i.val + 1) % 32) (hc : streak < hipriCap) :
    rqPick ⟨mask, cursor, streak⟩ himask = (some (after (mask &&& himask) i),
      behind mask (after (mask &&& himask) i) (streak + 1)) := by
  have hpool : mask &&& himask ≠ 0 := by
    intro hzero
    simp [hzero] at hh
  have hmask : mask ≠ 0 := by
    rintro rfl
    simp at hpool
  rw [rqPick, if_neg hmask, if_pos ⟨hpool, hc⟩]
  simp only [rqScan_after _ hh ((Nat.mod_mod _ _).trans hi), Option.isSome_some, if_true]
  rfl

theorem rqPick_forced (hi : cursor % 32 = (i.val + 1) % 32) (hc : hipriCap ≤ streak) :
    rqPick ⟨mask, cursor, streak⟩ himask = (some (after mask i), behind mask (after mask i) 0) := by
  have hbit : mask.getLsbD h.val = true := by
    rw [BitVec.getLsbD_and, Bool.and_eq_true] at hh
    exact hh.1
  have hmask : mask ≠ 0 := by
    rintro rfl
    simp at hbit
  rw [rqPick, if_neg hmask, if_neg fun hlt => hlt.2.not_ge hc, rqPickNormal,
    rqScan_after _ hbit ((Nat.mod_mod _ _).trans hi)]
  rfl

theorem rqAfter_preferred (i : Slot) (k : Nat) (hk : streak + k ≤ hipriCap) :
    rqAfter (behind mask i streak) himask k =
      behind mask ((after (mask &&& himask))^[k] i) (streak + k) := by
  induction k with
  | zero => rfl
  | succ k ih =>
    rw [rqAfter, Function.iterate_succ_apply', ← rqAfter, ih (by omega), behind,
      rqPick_preferred hh (Nat.mod_mod _ _) (by omega), Function.iterate_succ_apply']
    rfl

theorem rqAfter_forced (i : Slot) {k : Nat} (hk : k ≤ hipriCap) :
    rqAfter (behind mask i hipriCap) himask (1 + k) =
      behind mask ((after (mask &&& himask))^[k] (after mask i)) k := by
  have hforced : rqAfter (behind mask i hipriCap) himask 1 = behind mask (after mask i) 0 :=
    congrArg Prod.snd (rqPick_forced hh (Nat.mod_mod _ _) le_rfl)
  rw [rqAfter_add, hforced, rqAfter_preferred hh _ _ (by omega), Nat.zero_add]

theorem rqAfter_lap (i : Slot) (n : Nat) :
    rqAfter (behind mask i hipriCap) himask ((hipriCap + 1) * n) =
      behind mask ((lap mask himask)^[n] i) hipriCap := by
  induction n with
  | zero => rfl
  | succ n ih =>
    rw [Nat.mul_succ, rqAfter_add, ih, Nat.add_comm hipriCap, rqAfter_forced hh _ le_rfl,
      Function.iterate_succ_apply' (lap mask himask)]
    rfl

/-- The picks of a lap other than the first one are of high priority. -/
theorem rqPickAt_lap (i : Slot) (n : Nat) {r : Nat} (hr : r ≤ hipriCap) :
    ∃ x, rqPickAt (behind mask i hipriCap) himask ((hipriCap + 1) * n + r) = some x ∧
      if r = 0 then x = after mask ((lap mask himask)^[n] i)
      else (mask &&& himask).getLsbD x.val = true := by
  unfold rqPickAt
  rw [rqAfter_add, rqAfter_lap hh]
  cases r with
  | zero =>
    exact ⟨_, congrArg Prod.fst (rqPick_forced hh (Nat.mod_mod _ _) le_rfl), rfl⟩
  | succ r =>
    rw [Nat.add_comm r, rqAfter_forced hh _ (by omega)]
    refine ⟨_, congrArg Prod.fst (rqPick_preferred hh (Nat.mod_mod _ _) (by omega)), ?_⟩
    rw [if_neg (by omega)]
    exact getLsbD_after hh _

/-- From any cursor and streak the laps start after at most five picks. -/
theorem rqAfter_start (cursor streak : Nat) : ∃ m ≤ hipriCap + 1, ∃ i : Slot,
    (mask &&& himask).getLsbD i.val = true ∧
      rqAfter ⟨mask, cursor, streak⟩ himask m = behind mask i hipriCap := by
  have hi : cursor % 32 = ((Fin.ofNat 32 (cursor + 31)).val + 1) % 32 := by
    simp only [Fin.ofNat]
    omega
  generalize Fin.ofNat 32 (cursor + 31) = i at hi
  by_cases hc : streak < hipriCap
  · have hfirst := congrArg Prod.snd (rqPick_preferred hh hi hc)
    refine ⟨1 + (hipriCap - streak - 1), by omega,
      (after (mask &&& himask))^[hipriCap - streak - 1] (after (mask &&& himask) i), ?_, ?_⟩
    · rw [← Function.iterate_succ_apply, Function.iterate_succ_apply']
      exact getLsbD_after hh _
    · rw [rqAfter_add, show rqAfter ⟨mask, cursor, streak⟩ himask 1 = _ from hfirst,
        rqAfter_preferred hh _ _ (by omega)]
      congr 1
      omega
  · have hfirst := congrArg Prod.snd (rqPick_forced hh hi (Nat.le_of_not_lt hc))
    refine ⟨1 + hipriCap, by omega, (after (mask &&& himask))^[hipriCap] (after mask i), ?_, ?_⟩
    · exact getLsbD_after hh _
    rw [rqAfter_add, show rqAfter ⟨mask, cursor, streak⟩ himask 1 = _ from hfirst,
      rqAfter_preferred hh _ _ (by omega), Nat.zero_add]

end

theorem exists_iterate_lt {f : Slot → Slot} {x : Slot} (n : Nat) :
    ∃ m < rqSlots, f^[m] x = f^[n] x := by
  induction n using Nat.strong_induction_on with
  | _ n ih =>
  by_cases hn : n < rqSlots
  · exact ⟨n, hn, rfl⟩
  -- two of the first 33 values are equal, and what is between them can be left out
  obtain ⟨a, b, hne, hab⟩ := Fintype.exists_ne_map_eq_of_card_lt
    (fun k : Fin (rqSlots + 1) => f^[k.val] x) (by simp)
  wlog hlt : a < b generalizing a b
  · exact this b a hne.symm hab.symm (lt_of_le_of_ne (not_lt.1 hlt) hne.symm)
  have hb := b.isLt
  obtain ⟨m, hm, heq⟩ := ih (n - b.val + a.val) (by omega)
  refine ⟨m, hm, heq.trans ?_⟩
  rw [Function.iterate_add_apply, show f^[a.val] x = f^[b.val] x from hab,
    ← Function.iterate_add_apply, Nat.sub_add_cancel (by omega)]

/-- Within a number of picks that depends only on the number of slots and the cap, every set slot
that is not of high priority is picked, from any cursor and streak, if and only if the masks are
fair to all of them. -/
theorem rqPickAt_iff_fair (mask himask : BitVec 32) :
    (∀ cursor streak (s : Slot), mask.getLsbD s.val = true → himask.getLsbD s.val = false →
      ∃ n < (hipriCap + 1) * (rqSlots + 1), rqPickAt ⟨mask, cursor, streak⟩ himask n = some s) ↔
      Fair mask himask := by
  constructor
  · intro hall
    refine or_iff_not_imp_left.2 fun _ s hs hnormal h hh => ?_
    obtain ⟨n, -, hn⟩ := hall ((h.val + 1) % 32) hipriCap s hs hnormal
    obtain ⟨x, hx, hcase⟩ := rqPickAt_lap hh h (n / (hipriCap + 1))
      (Nat.le_of_lt_succ (Nat.mod_lt n (Nat.succ_pos hipriCap)))
    rw [Nat.div_add_mod] at hx
    cases hx.symm.trans hn
    split_ifs at hcase
    · exact ⟨_, hcase.symm⟩
    · rw [BitVec.getLsbD_and, hnormal, Bool.and_false] at hcase
      cases hcase
  · intro hfair cursor streak s hs hnormal
    by_cases hnone : mask &&& himask = 0
    · have hi : rqContains ⟨mask, cursor, streak⟩ s = true := by rwa [rqContains_eq]
      have hlt : s.val < 32 := s.isLt
      obtain ⟨n, hn, hat⟩ := rqPickAt_of_distance (d := (s.val + 32 - cursor % 32) % 32) hnone hi
        (Nat.mod_lt _ (by decide)) (show (cursor + _) % 32 = _ by omega)
      exact ⟨n, hn.trans_lt ((Nat.mod_lt _ (by decide)).trans (by decide)), hat⟩
    obtain ⟨h, hh⟩ : ∃ h : Slot, (mask &&& himask).getLsbD h.val = true := by
      by_contra hbits
      rw [not_exists] at hbits
      exact hnone (BitVec.eq_of_getLsbD_eq fun k hk => by simpa using hbits ⟨k, hk⟩)
    obtain ⟨m, hm, i, hi, hstart⟩ := rqAfter_start hh cursor streak
    obtain ⟨n, hn⟩ := hfair.resolve_left hnone s hs hnormal i hi
    obtain ⟨n', hn', heq⟩ := exists_iterate_lt (f := lap mask himask) (x := i) n
    obtain ⟨x, hx, rfl⟩ := rqPickAt_lap hi i n' (Nat.zero_le _)
    refine ⟨m + (hipriCap + 1) * n', ?_, ?_⟩
    · dsimp only [hipriCap, rqSlots] at hm hn' ⊢
      omega
    · rw [rqPickAt, rqAfter_add, hstart, ← hn, ← heq]
      exact hx

/-- The slots 3, 5 and 6, with 5 of high priority: the preferred picks put the cursor behind 5
every time, so the forced pass takes 6 and never comes to 3. -/
theorem rqPickAt_starves :
    rqContains ⟨0x68#32, 0, 0⟩ 3 = true ∧ (0x20#32).getLsbD 3 = false ∧
      ∀ n, rqPickAt ⟨0x68#32, 0, 0⟩ 0x20#32 n ≠ some 3 := by
  refine ⟨by decide, by decide, fun n => ?_⟩
  let states : List RunQueue :=
    [⟨0x68, 0, 0⟩, ⟨0x68, 6, 1⟩, ⟨0x68, 6, 2⟩, ⟨0x68, 6, 3⟩, ⟨0x68, 6, 4⟩, ⟨0x68, 7, 0⟩]
  have hstep : ∀ q ∈ states, (rqPick q 0x20#32).2 ∈ states ∧ (rqPick q 0x20#32).1 ≠ some 3 := by
    decide
  have hall : rqAfter ⟨0x68#32, 0, 0⟩ 0x20#32 n ∈ states := by
    induction n with
    | zero => exact List.mem_cons_self
    | succ n ih =>
      rw [rqAfter, Function.iterate_succ_apply']
      exact (hstep _ ih).1
  exact (hstep _ hall).2

end RixuriOS.Sched
