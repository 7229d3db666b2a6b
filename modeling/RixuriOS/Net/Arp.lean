import RixuriOS.Lib.GuardedRun
import Mathlib

/-!
# The ARP cache

The cache of `net/arp.c`. `rix_net_arp_learn` takes the first entry that holds the
address, is free or has expired, whichever comes first: with a free or an expired
entry before the one that holds the address, the address is entered twice.
-/

namespace RixuriOS.Net

open List

abbrev Mac := BitVec 48

structure ArpEntry where
  ip : UInt32
  mac : Mac
  expiresAt : Nat
  valid : Bool
  deriving DecidableEq

/-- `rix_net_arp_init`, with the `RIX_NET_ARP_CACHE_MAX` entries. -/
def arpInit : List ArpEntry := replicate 16 ⟨0, 0, 0, false⟩

def ArpEntry.holds (ip : UInt32) (e : ArpEntry) : Bool := e.valid && e.ip == ip

def ArpEntry.alive (now : Nat) (e : ArpEntry) : Bool := e.valid && decide (now < e.expiresAt)

/-- The entry that expires first, as the loop of `rix_net_arp_learn` finds it from the index `i` on. -/
def oldestFrom : List ArpEntry → Nat → Nat → Nat → Nat
  | [], _, oldest, _ => oldest
  | e :: es, i, oldest, expiry =>
    if e.expiresAt < expiry then oldestFrom es (i + 1) i e.expiresAt
    else oldestFrom es (i + 1) oldest expiry

def learnSlot (c : List ArpEntry) (ip : UInt32) (now : Nat) : Nat :=
  match c.findIdx? fun e => e.holds ip || !e.alive now with
  | some i => i
  | none => oldestFrom c 0 0 (2 ^ 64 - 1)

def arpExpiry (now lifetime : Nat) : Nat :=
  if 2 ^ 64 - 1 - lifetime < now then 2 ^ 64 - 1 else now + lifetime

/-- `rix_net_arp_learn`; a call that returns -1 changes nothing. -/
def arpLearn (c : List ArpEntry) (ip : UInt32) (mac : Mac) (now lifetime : Nat) : List ArpEntry :=
  if ip = 0 ∨ lifetime = 0 then c
  else c.set (learnSlot c ip now) ⟨ip, mac, arpExpiry now lifetime, true⟩

def arpLookup (c : List ArpEntry) (ip : UInt32) (now : Nat) : Option Mac :=
  if ip = 0 then none else (c.find? fun e => e.holds ip && e.alive now).map (·.mac)

def arpExpire (c : List ArpEntry) (now : Nat) : List ArpEntry :=
  c.map fun e => if e.valid && decide (e.expiresAt ≤ now) then { e with valid := false } else e

inductive ArpCall
  | learn (ip : UInt32) (mac : Mac) (now lifetime : Nat)
  | expire (now : Nat)

/-- The cache, and the address that was learned last for each IP address. The latter is history. -/
structure ArpState where
  cache : List ArpEntry
  learned : UInt32 → Option Mac

def arpBoot : ArpState := ⟨arpInit, fun _ => none⟩

def arpStep (s : ArpState) : ArpCall → Option ArpState
  | .learn ip mac now lifetime =>
    some ⟨arpLearn s.cache ip mac now lifetime,
      if ip = 0 ∨ lifetime = 0 then s.learned else Function.update s.learned ip (some mac)⟩
  | .expire now => some { s with cache := arpExpire s.cache now }

/-- A call that learns an address finds no free or expired entry before one that holds it. -/
def arpTidy (s : ArpState) : ArpCall → Bool
  | .learn ip _ now _ => s.cache.Pairwise fun a b => b.holds ip → a.alive now
  | .expire _ => true

def ArpUnique (c : List ArpEntry) : Prop :=
  c.Pairwise fun a b => ¬(a.valid = true ∧ b.valid = true ∧ a.ip = b.ip)

instance (c : List ArpEntry) : Decidable (ArpUnique c) := inferInstanceAs (Decidable (List.Pairwise _ c))

structure ArpInv (s : ArpState) : Prop where
  unique : ArpUnique s.cache
  recent : ∀ e ∈ s.cache, e.valid = true → s.learned e.ip = some e.mac

variable {s s' : ArpState} {c : List ArpEntry} {ip : UInt32} {now : Nat}

theorem ArpEntry.holds_iff {e : ArpEntry} : e.holds ip = true ↔ e.valid = true ∧ e.ip = ip := by
  simp [ArpEntry.holds]

/-- The only entry that holds the address is the one taken. -/
theorem learnSlot_eq {l : List ArpEntry} (hu : ArpUnique l)
    (htidy : l.Pairwise fun a b => b.holds ip → a.alive now) {j : Nat} (hj : j < l.length)
    (hholds : l[j].holds ip = true) : learnSlot l ip now = j := by
  have hfind : (l.findIdx? fun e => e.holds ip || !e.alive now) = some j := by
    refine List.findIdx?_eq_some_iff_getElem.2 ⟨hj, by simp [hholds], fun k hk => ?_⟩
    have halive := pairwise_iff_getElem.1 htidy k j (by omega) hj hk hholds
    have hother : l[k].holds ip ≠ true := fun hsame =>
      pairwise_iff_getElem.1 hu k j (by omega) hj hk
        ⟨(ArpEntry.holds_iff.1 hsame).1, (ArpEntry.holds_iff.1 hholds).1,
          (ArpEntry.holds_iff.1 hsame).2.trans (ArpEntry.holds_iff.1 hholds).2.symm⟩
    simp [hother, halive]
  rw [learnSlot, hfind]

theorem ArpInv.learn (h : ArpInv s) {mac : Mac} {lifetime : Nat}
    (htidy : s.cache.Pairwise fun a b => b.holds ip → a.alive now) :
    ∀ s', arpStep s (.learn ip mac now lifetime) = some s' → ArpInv s' := by
  rintro s' hs'
  cases hs'
  by_cases hbad : ip = 0 ∨ lifetime = 0
  · simpa only [arpLearn, if_pos hbad] using h
  have hslot {j : Nat} (hj : j < s.cache.length) (hne : j ≠ learnSlot s.cache ip now)
      (hvalid : s.cache[j].valid = true) : s.cache[j].ip ≠ ip := fun hip =>
    hne (learnSlot_eq h.unique htidy hj (ArpEntry.holds_iff.2 ⟨hvalid, hip⟩)).symm
  rw [arpLearn, if_neg hbad]
  constructor
  · refine pairwise_iff_getElem.2 fun i j hi hj hij hsame => ?_
    rw [length_set] at hi hj
    simp only [getElem_set] at hsame
    obtain ⟨hvi, hvj, hip⟩ := hsame
    split_ifs at hvi hvj hip with hsi hsj hsj
    · omega
    · exact hslot hj (Ne.symm hsj) hvj hip.symm
    · exact hslot hi (Ne.symm hsi) hvi hip
    · exact pairwise_iff_getElem.1 h.unique i j hi hj hij ⟨hvi, hvj, hip⟩
  intro e he hvalid
  obtain ⟨i, hi, rfl⟩ := getElem_of_mem he
  rw [length_set] at hi
  simp only [getElem_set] at hvalid ⊢
  split_ifs at hvalid ⊢ with hat
  · exact Function.update_self ..
  · rw [Function.update_of_ne (hslot hi (Ne.symm hat) hvalid)]
    exact h.recent _ (getElem_mem hi) hvalid

theorem ArpInv.expire (h : ArpInv s) (now : Nat) :
    ArpInv { s with cache := arpExpire s.cache now } := by
  have hentry (e : ArpEntry) :
      let e' := if e.valid && decide (e.expiresAt ≤ now) then { e with valid := false } else e
      e'.ip = e.ip ∧ e'.mac = e.mac ∧ (e'.valid = true → e.valid = true) := by
    split_ifs <;> simp
  constructor
  · refine pairwise_map.2 (h.unique.imp fun {a b} hne hsame => hne ?_)
    rw [(hentry a).1, (hentry b).1] at hsame
    exact ⟨(hentry a).2.2 hsame.1, (hentry b).2.2 hsame.2.1, hsame.2.2⟩
  intro e he hvalid
  obtain ⟨e₀, he₀, rfl⟩ := mem_map.1 he
  rw [(hentry e₀).1, (hentry e₀).2.1]
  exact h.recent e₀ he₀ ((hentry e₀).2.2 hvalid)

theorem ArpInv.step {call : ArpCall} (h : ArpInv s) (htidy : arpTidy s call = true)
    (hs' : arpStep s call = some s') : ArpInv s' := by
  cases call with
  | learn ip mac now lifetime => exact h.learn (by simpa [arpTidy] using htidy) s' hs'
  | expire now =>
    cases hs'
    exact h.expire now

theorem ArpInv.boot : ArpInv arpBoot := by
  constructor
  · decide
  intro e he hvalid
  rw [eq_of_mem_replicate he] at hvalid
  simp at hvalid

/-- As long as no call that learns an address finds a free or expired entry before the one that
holds it, an address is entered once, and a lookup gives what was learned last. -/
theorem arpLookup_recent {calls : List ArpCall}
    (hrun : GuardedRun.runIf arpStep arpTidy calls arpBoot = some s) :
    ArpUnique s.cache ∧
      ∀ ip now mac, arpLookup s.cache ip now = some mac → s.learned ip = some mac := by
  have h : ArpInv s :=
    GuardedRun.runIf_invariant (fun _ _ _ h htidy hs' => h.step htidy hs') ArpInv.boot hrun
  refine ⟨h.unique, fun ip now mac hlook => ?_⟩
  unfold arpLookup at hlook
  split_ifs at hlook
  obtain ⟨e, hfind, rfl⟩ := Option.map_eq_some_iff.1 hlook
  have hholds := find?_some hfind
  rw [Bool.and_eq_true, ArpEntry.holds_iff] at hholds
  rw [← hholds.1.2]
  exact h.recent e (mem_of_find?_eq_some hfind) hholds.1.1

def relearn : List ArpCall := [.learn 1 0xa 0 9, .learn 2 0xb 0 9, .expire 1, .learn 2 0xc 2 9]

theorem arpLookup_recent_relearn : ∃ s, GuardedRun.runIf arpStep arpTidy relearn arpBoot = some s ∧
    arpLookup s.cache 2 3 = some 0xc ∧ ArpUnique s.cache := by
  have hrun : (GuardedRun.runIf arpStep arpTidy relearn arpBoot).isSome = true := by decide
  obtain ⟨s, hs⟩ := Option.isSome_iff_exists.1 hrun
  refine ⟨s, hs, ?_, (arpLookup_recent hs).1⟩
  cases hs.symm.trans rfl
  decide

/-- The first address expires; the second one is learned again in its place, for a shorter time
than the first time. -/
def relearnEarlier : List ArpCall := [.learn 1 0xa 0 1, .learn 2 0xb 0 9, .learn 2 0xc 1 1]

theorem arpLookup_stale :
    ∃ s, GuardedRun.runIf arpStep (fun _ _ => true) relearnEarlier arpBoot = some s ∧
      ¬ArpUnique s.cache ∧ s.learned 2 = some 0xc ∧ arpLookup s.cache 2 2 = some 0xb :=
  ⟨_, rfl, by decide, by decide, by decide⟩

end RixuriOS.Net
