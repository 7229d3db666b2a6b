import RixuriOS.Lib.RingBuffer
import RixuriOS.Net.Builders

/-!
# The receive ring of the RTL8125

`rix_rtl8125_receive` of `net/rtl8125.c` looks at the descriptor `rx_head`. A frame
that fits is copied and its descriptor goes back to the device; a length below the
four bytes of the FCS and a frame that is too large are errors that leave the ring
as it is.
-/

namespace RixuriOS.Net

open RingBuffer Function

def rxRingSize : Nat := 64

instance : NeZero rxRingSize := ⟨by decide⟩

def descOwn : BitVec 32 := 0x80000000
def descEor : BitVec 32 := 0x40000000
def descLenMask : BitVec 32 := 0x3fff
def rxBufferSize : BitVec 32 := 2048

structure RxSlot where
  flags : BitVec 32
  buffer : Nat → UInt8

def RxSlot.owned (s : RxSlot) : Bool := s.flags &&& descOwn ≠ 0

/-- The length that the device reports, with the FCS. -/
def RxSlot.reported (s : RxSlot) : Nat := (s.flags &&& descLenMask).toNat

def RxSlot.frame (s : RxSlot) : Packet := (List.range (s.reported - 4)).map s.buffer

structure RxRing where
  slots : Fin rxRingSize → RxSlot
  head : Nat

def RxRing.giveBack (r : RxRing) : RxRing where
  slots := update r.slots (Fin.ofNat _ r.head) { cell r.slots r.head with
    flags := descOwn ||| rxBufferSize ||| if r.head + 1 = rxRingSize then descEor else 0 }
  head := (r.head + 1) % rxRingSize

/-- `rix_rtl8125_receive` on a driver that is present, with the frame that it stores. -/
def rtl8125Receive (r : RxRing) (capacity : Nat) : (Int × Packet) × RxRing :=
  let s := cell r.slots r.head
  if capacity = 0 then ((-1, []), r)
  else if s.owned then ((0, []), r)
  else if s.reported < 4 then ((-2, []), r)
  else if capacity < s.reported - 4 ∨ frameCapacity.toNat < s.reported - 4 then ((-3, []), r)
  else ((1, s.frame), r.giveBack)

/-- The device writes only to the descriptors that it owns. -/
def DeviceWrites (slots slots' : Fin rxRingSize → RxSlot) : Prop :=
  ∀ i, (slots i).owned = false → slots' i = slots i

/-- Calls and their results, with writes of the device before each of them. -/
inductive Receives (capacity : Nat) : RxRing → List (Int × Packet) → Prop
  | nil (r : RxRing) : Receives capacity r []
  | cons {r : RxRing} {slots : Fin rxRingSize → RxSlot} {out : List (Int × Packet)}
      (hwrites : DeviceWrites r.slots slots)
      (hrest : Receives capacity (rtl8125Receive { r with slots } capacity).2 out) :
      Receives capacity r ((rtl8125Receive { r with slots } capacity).1 :: out)

/-- A completed frame that has its FCS and fits into the buffer of the caller. -/
def RxSlot.Whole (capacity : Nat) (s : RxSlot) : Prop :=
  s.owned = false ∧ 4 ≤ s.reported ∧ s.reported - 4 ≤ capacity

variable {capacity : Nat} {r : RxRing} {out : List (Int × Packet)}

theorem rtl8125Receive_whole (hcap : 0 < capacity) (hmax : capacity ≤ frameCapacity.toNat)
    (h : (cell r.slots r.head).Whole capacity) :
    rtl8125Receive r capacity = ((1, (cell r.slots r.head).frame), r.giveBack) := by
  obtain ⟨hown, hlow, hhigh⟩ := h
  rw [rtl8125Receive, hown]
  rw [if_neg (by omega), if_neg (by simp), if_neg (by omega), if_neg (by omega)]

theorem cell_giveBack {k : Nat} (hk : k + 1 < rxRingSize) :
    cell r.giveBack.slots (r.giveBack.head + k) = cell r.slots (r.head + (k + 1)) := by
  rw [RxRing.giveBack, ← cell_mod, Nat.mod_add_mod, cell_mod, Nat.add_assoc, Nat.add_comm 1]
  exact cell_update_ne (i := 0) _ _ hk (by decide) (by omega)

/-- A frame is returned when its turn comes, if the frames before it are whole as well. -/
theorem Receives.delivers (h : Receives capacity r out) (hcap : 0 < capacity)
    (hmax : capacity ≤ frameCapacity.toNat) {k : Nat} (hk : k < rxRingSize)
    (hcalls : k < out.length)
    (hwhole : ∀ j ≤ k, (cell r.slots (r.head + j)).Whole capacity) :
    out[k]? = some (1, (cell r.slots (r.head + k)).frame) := by
  induction h generalizing k with
  | nil r => simp at hcalls
  | @cons r slots out hwrites hrest ih =>
    have hsame : ∀ j ≤ k, cell slots (r.head + j) = cell r.slots (r.head + j) := fun j hj =>
      hwrites _ (hwhole j hj).1
    have h0 : cell slots r.head = cell r.slots r.head := hsame 0 (Nat.zero_le k)
    have hfirst : rtl8125Receive { r with slots } capacity = _ :=
      rtl8125Receive_whole hcap hmax (by rw [h0]; exact hwhole 0 (Nat.zero_le k))
    cases k with
    | zero => rw [hfirst, h0]; rfl
    | succ k =>
    rw [hfirst] at ih
    have hnext : ∀ j ≤ k, cell (RxRing.giveBack ⟨slots, r.head⟩).slots
        ((RxRing.giveBack ⟨slots, r.head⟩).head + j) = cell r.slots (r.head + (j + 1)) :=
      fun j hj => (cell_giveBack (by omega)).trans (hsame (j + 1) (by omega))
    rw [List.getElem?_cons_succ, ih (by omega) (by simpa using hcalls) fun j hj => ?_,
      hnext k le_rfl]
    rw [hnext j hj]
    exact hwhole (j + 1) (by omega)

def wholeFrame : RxSlot := ⟨0x30000040, fun _ => 0⟩

def runtFrame : RxSlot := ⟨0x30000003, fun _ => 0⟩

theorem Receives.delivers_second :
    ∃ out, Receives 1516 ⟨fun _ => wholeFrame, 0⟩ out ∧ out[1]? = some (1, wholeFrame.frame) := by
  have h : Receives 1516 ⟨fun _ => wholeFrame, 0⟩ _ :=
    .cons (fun _ _ => rfl) (.cons (fun _ _ => rfl) (.nil _))
  have hwhole : wholeFrame.Whole 1516 := ⟨by decide, by decide, by decide⟩
  exact ⟨_, h, h.delivers (k := 1) (by decide) (by decide) (by decide) (by simp) fun _ _ => hwhole⟩

theorem Receives.stuck (h : Receives capacity r out) (hcap : 0 < capacity)
    (hown : (cell r.slots r.head).owned = false) (hrunt : (cell r.slots r.head).reported < 4) :
    ∀ x ∈ out, x = (-2, []) := by
  induction h with
  | nil r => simp
  | @cons r slots out hwrites hrest ih =>
    have hsame : cell slots r.head = cell r.slots r.head := hwrites _ hown
    have hcall : rtl8125Receive { r with slots } capacity = ((-2, []), { r with slots }) := by
      rw [rtl8125Receive, hsame, hown]
      rw [if_neg (by omega), if_neg (by simp), if_pos hrunt]
    rw [hcall, hsame] at ih
    simpa [hcall] using ih hown hrunt

/-- The whole frames behind a descriptor that is too short are never returned. -/
theorem rtl8125Receive_never_skips : ¬∃ out,
    Receives 1516 ⟨update (fun _ => wholeFrame) 0 runtFrame, 0⟩ out ∧ ∃ x ∈ out, x ≠ (-2, []) :=
  fun ⟨_, h, x, hx, hne⟩ => hne (h.stuck (by decide) (by decide) (by decide) x hx)

end RixuriOS.Net
