import Mathlib

/-!
# Ring buffers

A ring of `N` cells holds a queue: `count` cells from `head` on, wrapping once.
Appending and taking copy in two pieces, up to the end of the ring and from its
start; on the queue they are `++` and a split.
-/

namespace RingBuffer

open List

variable {α : Type*} {N : Nat} [NeZero N]

def cell (data : Fin N → α) (k : Nat) : α := data (Fin.ofNat N k)

def contents (data : Fin N → α) (head count : Nat) : List α :=
  (range count).map fun k => cell data (head + k)

def blit (data : Fin N → α) (pos : Nat) (src : List α) : Fin N → α := fun i =>
  if h : pos ≤ i.val ∧ i.val - pos < src.length then src.get ⟨i.val - pos, h.2⟩ else data i

def push (data : Fin N → α) (tail : Nat) (src : List α) : Fin N → α :=
  let a := min src.length (N - tail)
  blit (blit data tail (src.take a)) 0 (src.drop a)

def take (data : Fin N → α) (head m : Nat) : List α :=
  let a := min m (N - head)
  contents data head a ++ contents data 0 (m - a)

variable {data : Fin N → α} {head tail count m k : Nat} {src : List α}

theorem cell_mod (data : Fin N → α) (k : Nat) : cell data (k % N) = cell data k := by
  unfold cell
  congr 1
  ext
  simp [Fin.ofNat]

theorem contents_length (data : Fin N → α) (head count : Nat) :
    (contents data head count).length = count := by
  simp [contents]

theorem contents_add (data : Fin N → α) (head m n : Nat) :
    contents data head (m + n) = contents data head m ++ contents data (head + m) n := by
  simp [contents, range_add, Nat.add_assoc]

theorem contents_congr {data' : Fin N → α} {head' : Nat}
    (h : ∀ k < count, cell data' (head' + k) = cell data (head + k)) :
    contents data' head' count = contents data head count := by
  refine map_congr_left fun k hk => h k (mem_range.1 hk)

theorem contents_mod (data : Fin N → α) (head count : Nat) :
    contents data (head % N) count = contents data head count := by
  refine contents_congr fun k _ => ?_
  rw [← cell_mod data (head % N + k), Nat.mod_add_mod, cell_mod]

theorem contents_wrap (data : Fin N → α) (k count : Nat) :
    contents data (N + k) count = contents data k count := by
  rw [← contents_mod data (N + k), Nat.add_mod_left, contents_mod]

theorem take_eq (hhead : head < N) : take data head m = contents data head m := by
  rw [take]
  by_cases hm : m ≤ N - head
  · rw [Nat.min_eq_left hm, Nat.sub_self]
    simp [contents]
  have hsplit : m = (N - head) + (m - (N - head)) := by omega
  have hend : head + (N - head) = N + 0 := by omega
  rw [Nat.min_eq_right (by omega)]
  conv_rhs => rw [hsplit, contents_add, hend, contents_wrap]

theorem cell_of_lt (hk : k < N) : cell data k = data ⟨k, hk⟩ := by
  unfold cell
  congr 1
  ext
  simp [Fin.ofNat, Nat.mod_eq_of_lt hk]

theorem cell_blit (hk : k < N) (pos : Nat) :
    cell (blit data pos src) k =
      if h : pos ≤ k ∧ k - pos < src.length then src.get ⟨k - pos, h.2⟩ else cell data k := by
  rw [cell_of_lt hk, cell_of_lt hk]
  rfl

theorem cell_push_new (htail : tail < N) (hfits : src.length ≤ N) (hk : k < src.length) :
    cell (push data tail src) (tail + k) = src.get ⟨k, hk⟩ := by
  unfold push
  by_cases hend : tail + k < N
  · rw [cell_blit hend, dif_neg, cell_blit hend, dif_pos]
    · simp
    · rw [length_take]
      omega
    · rw [length_drop]
      omega
  have hwrap : tail + k - N < N := by omega
  have hmod : (tail + k) % N = tail + k - N := by
    rw [Nat.mod_eq_sub_mod (by omega), Nat.mod_eq_of_lt hwrap]
  rw [← cell_mod, hmod, cell_blit hwrap, dif_pos]
  · simp only [get_eq_getElem, getElem_drop]
    congr 1
    omega
  · rw [length_drop]
    omega

theorem cell_push_old (htail : tail < N) (hk : k < N)
    (hout : src.length ≤ k) : cell (push data tail src) (tail + k) = cell data (tail + k) := by
  unfold push
  by_cases hend : tail + k < N
  · rw [cell_blit hend, dif_neg, cell_blit hend, dif_neg]
    · rw [length_take]
      omega
    · rw [length_drop]
      omega
  have hwrap : tail + k - N < N := by omega
  have hmod : (tail + k) % N = tail + k - N := by
    rw [Nat.mod_eq_sub_mod (by omega), Nat.mod_eq_of_lt hwrap]
  rw [← cell_mod, hmod, cell_blit hwrap, dif_neg, cell_blit hwrap, dif_neg, ← hmod, cell_mod]
  · rw [length_take]
    omega
  · rw [length_drop]
    omega

theorem contents_push (data : Fin N → α) (hhead : head < N) (hfits : count + src.length ≤ N) :
    contents (push data ((head + count) % N) src) head (count + src.length) =
      contents data head count ++ src := by
  have hN : 0 < N := by omega
  have htail : (head + count) % N < N := Nat.mod_lt _ hN
  rw [contents_add]
  congr 1
  · refine contents_congr fun k hk => ?_
    -- position `head + k` seen from the tail
    obtain ⟨j, hj, hjlen, hpos⟩ : ∃ j, j < N ∧ src.length ≤ j ∧
        ((head + count) % N + j) % N = (head + k) % N := by
      refine ⟨N + k - count, by omega, by omega, ?_⟩
      rw [Nat.mod_add_mod]
      have hshift : head + count + (N + k - count) = head + k + N := by omega
      rw [hshift, Nat.add_mod_right]
    rw [← cell_mod, ← hpos, cell_mod, cell_push_old htail hj hjlen, ← cell_mod, hpos, cell_mod]
  rw [← contents_mod]
  refine ext_getElem (by simp [contents]) fun k hk hk' => ?_
  have hnew : cell (push data ((head + count) % N) src) ((head + count) % N + k) =
      src.get ⟨k, hk'⟩ := cell_push_new htail (by omega) hk'
  simpa [contents] using hnew

theorem cell_update_ne (data : Fin N → α) (x : α) {i : Nat} (hk : k < N) (hi : i < N)
    (hne : k ≠ i) :
    cell (Function.update data (Fin.ofNat N (head + i)) x) (head + k) = cell data (head + k) := by
  refine Function.update_of_ne (fun h => hne ?_) x data
  have hmod : (head + k) % N = (head + i) % N := by simpa [Fin.ext_iff] using h
  have hk' : k % N = i % N := Nat.ModEq.add_left_cancel' head hmod
  rwa [Nat.mod_eq_of_lt hk, Nat.mod_eq_of_lt hi] at hk'

theorem contents_update (data : Fin N → α) (x : α) (hcount : count < N) :
    contents (Function.update data (Fin.ofNat N (head + count)) x) head (count + 1) =
      contents data head count ++ [x] := by
  rw [contents_add]
  congr 1
  · exact contents_congr fun k hk => cell_update_ne data x (by omega) hcount (by omega)
  · simp [contents, cell]

theorem contents_succ (data : Fin N → α) (head count : Nat) :
    contents data head (count + 1) =
      data (Fin.ofNat N head) :: contents data ((head + 1) % N) count := by
  rw [Nat.add_comm count 1, contents_add, contents_mod]
  simp [contents, cell]

end RingBuffer
