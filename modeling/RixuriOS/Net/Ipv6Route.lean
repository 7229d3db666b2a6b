import Mathlib

/-!
# IPv6 routes

The route table of `net/ipv6.c`. Which routes are stored is a matter of the calls
that have succeeded (`Stored`): a later route to the same network takes the place of
an earlier one. A lookup finds the stored route to the smallest network that the
destination lies in.
-/

namespace RixuriOS.Net

open List Option

abbrev Ipv6Addr := Fin 16 → BitVec 8

def addrBit (a : Ipv6Addr) (k : Nat) : Bool := (a (Fin.ofNat 16 (k / 8))).getLsbD (7 - k % 8)

def Agree (n : Nat) (a b : Ipv6Addr) : Prop := ∀ k < n, addrBit a k = addrBit b k

def ipv6PrefixMatches (address network : Ipv6Addr) (length : Nat) : Bool :=
  let whole := length / 8
  let remainder := length % 8
  (range whole).all (fun i => address (Fin.ofNat 16 i) == network (Fin.ofNat 16 i)) &&
    (remainder == 0 ||
      (address (Fin.ofNat 16 whole) ^^^ network (Fin.ofNat 16 whole)) >>> (8 - remainder) == 0)

structure Route where
  network : Ipv6Addr
  length : Nat
  nextHop : Ipv6Addr

/-- The routes of `rix_net_ipv6_route_table_t`, `none` for one that is not used. -/
abbrev RouteTable := List (Option Route)

def routeInit : RouteTable := replicate 4 none

def sameNetwork (r : Route) (slot : Option Route) : Bool :=
  slot.any fun e => e.length == r.length && ipv6PrefixMatches e.network r.network r.length

/-- `rix_net_ipv6_route_add`; `none` for a negative return value. -/
def routeAdd (t : RouteTable) (r : Route) : Option RouteTable :=
  if 128 < r.length then none
  else
    match t.findIdx? (sameNetwork r) with
    | some i => some (t.set i (some r))
    | none => (t.findIdx? (·.isNone)).map fun i => t.set i (some r)

def betterRoute (d : Ipv6Addr) (best slot : Option Route) : Option Route :=
  match slot with
  | none => best
  | some r =>
    if best.elim 0 Route.length ≤ r.length ∧ ipv6PrefixMatches d r.network r.length then slot
    else best

def routeLookup (t : RouteTable) (d : Ipv6Addr) : Option Ipv6Addr :=
  (t.foldl (betterRoute d) none).map fun r => if ∀ i, r.nextHop i = 0 then d else r.nextHop

theorem ipv6PrefixMatches_iff {a b : Ipv6Addr} {n : Nat} (hn : n ≤ 128) :
    ipv6PrefixMatches a b n = true ↔ Agree n a b := by
  simp only [ipv6PrefixMatches, Bool.and_eq_true, List.all_eq_true, mem_range, beq_iff_eq,
    Bool.or_eq_true]
  constructor
  · rintro ⟨hwhole, hrest⟩ k hk
    unfold addrBit
    by_cases hbyte : k / 8 < n / 8
    · rw [hwhole _ hbyte]
    have hlast : k / 8 = n / 8 := by omega
    obtain hzero | hshift := hrest
    · omega
    have hbit := congrArg (fun v : BitVec 8 => v.getLsbD (7 - k % 8 - (8 - n % 8))) hshift
    simp only [BitVec.getLsbD_ushiftRight, BitVec.getLsbD_xor, BitVec.ofNat_eq_ofNat,
      BitVec.getLsbD_zero] at hbit
    rw [show 8 - n % 8 + (7 - k % 8 - (8 - n % 8)) = 7 - k % 8 by omega] at hbit
    rw [hlast]
    simpa using hbit
  intro hagree
  have hbits {i j : Nat} (hi : i < 16) (hj : j < 8) (hlt : 8 * i + (7 - j) < n) :
      (a (Fin.ofNat 16 i)).getLsbD j = (b (Fin.ofNat 16 i)).getLsbD j := by
    have hbit := hagree _ hlt
    unfold addrBit at hbit
    rwa [show (8 * i + (7 - j)) / 8 = i by omega,
      show 7 - (8 * i + (7 - j)) % 8 = j by omega] at hbit
  refine ⟨fun i hi => BitVec.eq_of_getLsbD_eq fun j hj => hbits (by omega) hj (by omega), ?_⟩
  by_cases hzero : n % 8 = 0
  · exact .inl hzero
  refine .inr (BitVec.eq_of_getLsbD_eq fun j hj => ?_)
  rw [BitVec.getLsbD_ushiftRight, BitVec.getLsbD_xor, BitVec.ofNat_eq_ofNat, BitVec.getLsbD_zero]
  by_cases hin : 8 - n % 8 + j < 8
  · rw [hbits (by omega) hin (by omega), Bool.xor_self]
  · rw [BitVec.getLsbD_of_ge _ _ (by omega), BitVec.getLsbD_of_ge _ _ (by omega)]
    rfl

def SameNetwork (r r' : Route) : Prop := r.length = r'.length ∧ Agree r.length r.network r'.network

def routesAfter : List Route → Option RouteTable
  | [] => some routeInit
  | r :: adds => (routesAfter adds).bind (routeAdd · r)

/-- The routes that are stored after successful calls, the last one first. -/
def Stored : List Route → Route → Prop
  | [], _ => False
  | r :: adds, x => x = r ∨ (Stored adds x ∧ ¬SameNetwork x r)

theorem SameNetwork.symm {r r' : Route} (h : SameNetwork r r') : SameNetwork r' r :=
  ⟨h.1.symm, fun k hk => (h.2 k (h.1 ▸ hk)).symm⟩

theorem SameNetwork.trans {a b c : Route} (hab : SameNetwork a b) (hbc : SameNetwork b c) :
    SameNetwork a c :=
  ⟨hab.1.trans hbc.1, fun k hk => (hab.2 k hk).trans (hbc.2 k (hab.1 ▸ hk))⟩

/-- The table holds the stored routes, each network once. -/
structure RouteInv (adds : List Route) (t : RouteTable) : Prop where
  stored : ∀ r, some r ∈ t ↔ Stored adds r
  length_le : ∀ r, some r ∈ t → r.length ≤ 128
  unique : ∀ (i j : Nat) r r', t[i]? = some (some r) → t[j]? = some (some r') →
    SameNetwork r r' → i = j

variable {adds : List Route} {t t' : RouteTable} {r : Route}

theorem sameNetwork_iff (hr : r.length ≤ 128) {slot : Option Route} :
    sameNetwork r slot = true ↔ ∃ e, slot = some e ∧ SameNetwork e r := by
  cases slot with
  | none => simp [sameNetwork]
  | some e =>
  simp only [sameNetwork, any_some, Bool.and_eq_true, beq_iff_eq,
    ipv6PrefixMatches_iff hr, some.injEq, exists_eq_left', SameNetwork]
  exact and_congr_right fun hlen => by rw [hlen]

/-- A route goes into a slot that is not used, or in the place of the route to its network. -/
theorem routeAdd_cases (h : routeAdd t r = some t') :
    r.length ≤ 128 ∧ ∃ i, i < t.length ∧ t' = t.set i (some r) ∧
      ((∃ e, t[i]? = some (some e) ∧ SameNetwork e r) ∨
        t[i]? = some none ∧ ∀ e, some e ∈ t → ¬SameNetwork e r) := by
  unfold routeAdd at h
  split_ifs at h with hlong
  have hr : r.length ≤ 128 := by omega
  refine ⟨hr, ?_⟩
  cases hfind : t.findIdx? (sameNetwork r) with
  | some i =>
    rw [hfind] at h
    obtain ⟨hi, hsame, -⟩ := List.findIdx?_eq_some_iff_getElem.1 hfind
    obtain ⟨e, he, hnet⟩ := (sameNetwork_iff hr).1 hsame
    exact ⟨i, hi, (some.inj h).symm, .inl ⟨e, by rw [List.getElem?_eq_getElem hi, he], hnet⟩⟩
  | none =>
    rw [hfind] at h
    obtain ⟨i, hfree, rfl⟩ := map_eq_some_iff.1 h
    obtain ⟨hi, hnone, -⟩ := List.findIdx?_eq_some_iff_getElem.1 hfree
    refine ⟨i, hi, rfl, .inr ⟨?_, fun e he hnet => ?_⟩⟩
    · rw [List.getElem?_eq_getElem hi, isNone_iff_eq_none.1 hnone]
    have hmiss := List.findIdx?_eq_none_iff.1 hfind _ he
    rw [(sameNetwork_iff hr).2 ⟨e, rfl, hnet⟩] at hmiss
    simp at hmiss

theorem RouteInv.add (h : RouteInv adds t) (hadd : routeAdd t r = some t') :
    RouteInv (r :: adds) t' := by
  obtain ⟨hr, i, hi, rfl, hslot⟩ := routeAdd_cases hadd
  have hget (j : Nat) (x : Route) : (t.set i (some r))[j]? = some (some x) ↔
      (j = i ∧ x = r) ∨ (j ≠ i ∧ t[j]? = some (some x)) := by
    rw [List.getElem?_set]
    by_cases hj : i = j
    · subst hj
      simp [hi, eq_comm]
    · simp [hj, Ne.symm hj]
  -- what is at another place is to another network
  have hother {j : Nat} {x : Route} (hj : j ≠ i) (hx : t[j]? = some (some x)) :
      ¬SameNetwork x r := by
    intro hnet
    obtain ⟨e, he, hsame⟩ | ⟨-, hfree⟩ := hslot
    · exact hj (h.unique j i x e hx he (hnet.trans hsame.symm))
    · exact hfree x (mem_of_getElem? hx) hnet
  refine ⟨fun x => ?_, fun x hx => ?_, fun j k x y hx hy hnet => ?_⟩
  · rw [Stored, ← h.stored, mem_iff_getElem?]
    constructor
    · rintro ⟨j, hj⟩
      obtain ⟨-, rfl⟩ | ⟨hne, hx⟩ := (hget j x).1 hj
      · exact .inl rfl
      · exact .inr ⟨mem_of_getElem? hx, hother hne hx⟩
    rintro (rfl | ⟨hmem, hne⟩)
    · exact ⟨i, (hget i x).2 (.inl ⟨rfl, rfl⟩)⟩
    obtain ⟨j, hj⟩ := mem_iff_getElem?.1 hmem
    refine ⟨j, (hget j x).2 (.inr ⟨fun hji => ?_, hj⟩)⟩
    subst hji
    obtain ⟨e, he, hsame⟩ | ⟨hfree, -⟩ := hslot
    · obtain rfl : x = e := by simpa [hj] using he
      exact hne hsame
    · simp [hj] at hfree
  · rcases mem_or_eq_of_mem_set hx with hx | hx
    · exact h.length_le x hx
    · rwa [some.inj hx]
  rw [hget] at hx hy
  obtain ⟨rfl, rfl⟩ | ⟨hj, hx⟩ := hx <;> obtain ⟨rfl, rfl⟩ | ⟨hk, hy⟩ := hy
  · rfl
  · exact absurd hnet.symm (hother hk hy)
  · exact absurd hnet (hother hj hx)
  · exact h.unique j k x y hx hy hnet

theorem routeInv_of_adds (h : routesAfter adds = some t) : RouteInv adds t := by
  induction adds generalizing t with
  | nil =>
    cases h
    refine ⟨fun r => ?_, fun r hr => ?_, fun i j r r' hr _ _ => ?_⟩
    · simp [routeInit, Stored]
    · simp [routeInit] at hr
    · exact absurd (mem_of_getElem? hr) (by simp [routeInit])
  | cons r adds ih =>
    obtain ⟨t₁, ht₁, hlast⟩ := bind_eq_some_iff.1 h
    exact (ih ht₁).add hlast

def BestOf (d : Ipv6Addr) (t : RouteTable) : Option Route → Prop
  | none => ∀ r, some r ∈ t → ¬Agree r.length d r.network
  | some b => (some b ∈ t ∧ Agree b.length d b.network) ∧
      ∀ r, some r ∈ t → Agree r.length d r.network → r.length ≤ b.length

theorem BestOf.better {d : Ipv6Addr} {best slot : Option Route} (h : BestOf d t best)
    (hlen : ∀ r, slot = some r → r.length ≤ 128) :
    BestOf d (t ++ [slot]) (betterRoute d best slot) := by
  cases slot with
  | none => cases best <;> simpa [betterRoute, BestOf] using h
  | some e =>
  have hmatch : ipv6PrefixMatches d e.network e.length = true ↔ Agree e.length d e.network :=
    ipv6PrefixMatches_iff (hlen e rfl)
  cases best <;> simp only [betterRoute] <;> split_ifs with hbetter <;>
    simp only [BestOf, elim_none, elim_some, mem_append, mem_singleton,
      some.injEq, hmatch] at h hbetter ⊢ <;> grind

theorem bestOf_foldl {d : Ipv6Addr} (hlen : ∀ r, some r ∈ t → r.length ≤ 128) :
    BestOf d t (t.foldl (betterRoute d) none) := by
  induction t using List.reverseRecOn with
  | nil => simp [BestOf]
  | append_singleton t slot ih =>
    rw [foldl_append]
    exact (ih fun r hr => hlen r (by simp [hr])).better fun r hr => hlen r (by simp [hr])

/-- A lookup gives the next hop of the stored route to the smallest network of the destination,
or the destination itself for an empty next hop, and fails if there is no such route. -/
theorem routeLookup_longest (h : routesAfter adds = some t) (d : Ipv6Addr) :
    (∀ hop, routeLookup t d = some hop ↔
      ∃ r, Stored adds r ∧ Agree r.length d r.network ∧
        (∀ r', Stored adds r' → Agree r'.length d r'.network → r'.length ≤ r.length) ∧
        hop = if ∀ i, r.nextHop i = 0 then d else r.nextHop) ∧
      (routeLookup t d = none ↔ ∀ r, Stored adds r → ¬Agree r.length d r.network) := by
  have hinv := routeInv_of_adds h
  have hbest := bestOf_foldl (d := d) hinv.length_le
  simp only [← hinv.stored, routeLookup, map_eq_none_iff, map_eq_some_iff]
  cases hfound : t.foldl (betterRoute d) none with
  | none =>
    rw [hfound] at hbest
    exact ⟨fun hop => ⟨by simp, fun ⟨r, hr, hagree, _⟩ => absurd hagree (hbest r hr)⟩,
      ⟨fun _ => hbest, fun _ => rfl⟩⟩
  | some b =>
  rw [hfound] at hbest
  obtain ⟨⟨hb, hagree⟩, hmax⟩ := hbest
  refine ⟨fun hop => ⟨?_, ?_⟩, ⟨by simp, fun hno => absurd hagree (hno b hb)⟩⟩
  · rintro ⟨_, ⟨⟩, rfl⟩
    exact ⟨b, hb, hagree, hmax, rfl⟩
  rintro ⟨r, hr, hr', hlongest, rfl⟩
  have hlen : r.length = b.length := Nat.le_antisymm (hmax r hr hr') (hlongest b hb hagree)
  have hnet : SameNetwork r b :=
    ⟨hlen, fun k hk => (hr' k hk).symm.trans (hagree k (hlen ▸ hk))⟩
  obtain ⟨i, hi⟩ := mem_iff_getElem?.1 hr
  obtain ⟨j, hj⟩ := mem_iff_getElem?.1 hb
  obtain rfl := hinv.unique i j r b hi hj hnet
  obtain rfl : r = b := by simpa [hi] using hj
  exact ⟨r, rfl, rfl⟩

def defaultRoute : Route := ⟨fun _ => 0, 0, fun _ => 1⟩

def byteRoute : Route := ⟨fun _ => 5, 8, fun _ => 2⟩

/-- Both routes match, and the longer one is taken. -/
theorem routeLookup_longest_byte :
    ∃ t, routesAfter [defaultRoute, byteRoute] = some t ∧
      routeLookup t (fun _ => 5) = some fun _ => 2 := by
  have hadd : routesAfter [defaultRoute, byteRoute] =
      some ((routeInit.set 0 (some byteRoute)).set 1 (some defaultRoute)) := rfl
  have hstored : Stored [defaultRoute, byteRoute] byteRoute :=
    .inr ⟨.inl rfl, fun h => absurd h.1 (by decide)⟩
  refine ⟨_, hadd, ((routeLookup_longest hadd _).1 _).2 ⟨byteRoute, hstored, fun _ _ => rfl, ?_, ?_⟩⟩
  · rintro r' (rfl | ⟨rfl | ⟨⟨⟩, _⟩, _⟩) _
    · exact Nat.zero_le 8
    · exact Nat.le_refl 8
  · simp [byteRoute]

end RixuriOS.Net
