import RixuriOS.Lib.CrashStore
import RixuriOS.Lib.ExtentList

/-!
# The bytes of a list of extents

The blocks of a list of extents hold `ss` entries each, and the entries in logical
order are the contents of the list. `byteAt` finds the entry at a position through
`locate`; it agrees with the list of all entries, and a write to one block is seen
at the positions of that block only.
-/

namespace ExtentList

open CrashStore

variable {β : Type*}

def byteAt (ss : Nat) (d : Disk (Nat → β)) (l : List Extent) (p : Nat) : Option β :=
  (locate l (p / ss)).map fun s => d s (p % ss)

def contents (ss : Nat) (d : Disk (Nat → β)) (l : List Extent) : List β :=
  (blocks l).flatMap fun s => (List.range ss).map (d s)

theorem getElem?_flatMap_range {ss : Nat} (hss : 0 < ss) (g : Nat → Nat → β) (l : List Nat)
    (p : Nat) :
    (l.flatMap fun s => (List.range ss).map (g s))[p]? = l[p / ss]?.map fun s => g s (p % ss) := by
  induction l generalizing p with
  | nil => simp
  | cons s l ih =>
    rw [List.flatMap_cons, List.getElem?_append, List.length_map, List.length_range]
    split_ifs with hp
    · rw [Nat.div_eq_of_lt hp, Nat.mod_eq_of_lt hp]
      simp [hp]
    · have hle : ss ≤ p := Nat.le_of_not_lt hp
      rw [ih, Nat.div_eq_sub_div hss hle, List.getElem?_cons_succ, Nat.mod_eq_sub_mod hle]

theorem contents_getElem? {ss : Nat} (hss : 0 < ss) (d : Disk (Nat → β)) (l : List Extent)
    (p : Nat) : (contents ss d l)[p]? = byteAt ss d l p := by
  rw [contents, getElem?_flatMap_range hss, byteAt, locate_eq_getElem?]

section

variable {ss : Nat} {d d' : Disk (Nat → β)} {l : List Extent} {p : Nat}

theorem byteAt_congr (h : ∀ s, locate l (p / ss) = some s → d' s = d s) :
    byteAt ss d' l p = byteAt ss d l p := by
  rw [byteAt, byteAt]
  cases hloc : locate l (p / ss) with
  | none => rfl
  | some s => rw [Option.map_some, Option.map_some, h s hloc]

theorem byteAt_upd (hnd : (blocks l).Nodup) {q s : Nat} (hq : locate l q = some s)
    (b : Nat → β) :
    byteAt ss (upd d s b) l p = if p / ss = q then some (b (p % ss)) else byteAt ss d l p := by
  split_ifs with hpq
  · rw [byteAt, hpq, hq, Option.map_some, upd_same]
  refine byteAt_congr fun t ht => upd_other ?_
  rintro rfl
  exact hpq (locate_inj hnd ht hq)

end

end ExtentList
