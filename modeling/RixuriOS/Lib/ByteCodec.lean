import Mathlib

/-!
# Little-endian fields in byte buffers

A buffer is a function from offsets to bytes, so that reading a field and
overwriting a field are both pointwise and no bounds have to be carried along.
`load b off n` is the little-endian value of the `n` bytes at `off`, and
`store b off n v` overwrites these bytes by the low `n` bytes of `v`.
-/

namespace ByteCodec

open List

abbrev Byte := BitVec 8

abbrev Buf := Nat → Byte

def zeroBuf : Buf := fun _ => 0

/-- The little-endian value of the `n` bytes of `b` starting at `off`. -/
def load (b : Buf) : Nat → Nat → Nat
  | _, 0 => 0
  | off, n + 1 => (b off).toNat + 256 * load b (off + 1) n

def byteOf (v i : Nat) : Byte := BitVec.ofNat 8 (v >>> (8 * i))

def store (b : Buf) (off n v : Nat) : Buf := fun i =>
  if off ≤ i ∧ i < off + n then byteOf v (i - off) else b i

def clear (b : Buf) (off n : Nat) : Buf := fun i =>
  if off ≤ i ∧ i < off + n then 0 else b i

def splice (b : Buf) (off : Nat) (l : List Byte) : Buf := fun i =>
  if off ≤ i ∧ i < off + l.length then l.getD (i - off) 0 else b i

def slice (b : Buf) (off n : Nat) : List Byte := (range n).map fun i => b (off + i)

variable {b : Buf} {off n v i off' : Nat}

@[simp] theorem load_zero (b : Buf) (off : Nat) : load b off 0 = 0 := rfl

theorem load_succ (b : Buf) (off n : Nat) :
    load b off (n + 1) = (b off).toNat + 256 * load b (off + 1) n := rfl

theorem load_lt (b : Buf) (off n : Nat) : load b off n < 256 ^ n := by
  induction n generalizing off with
  | zero => simp
  | succ n ih =>
    have hn := ih (off + 1)
    rw [load_succ, pow_succ]
    omega

theorem load_congr {b' : Buf} (h : ∀ i, off ≤ i → i < off + n → b i = b' i) :
    load b off n = load b' off n := by
  induction n generalizing off with
  | zero => rfl
  | succ n ih =>
    have htail : load b (off + 1) n = load b' (off + 1) n :=
      ih fun i hi hi' => h i (by omega) (by omega)
    rw [load_succ, load_succ, htail, h off le_rfl (by omega)]

theorem load_shift (c : Buf) (lo off n : Nat) :
    load (fun j => c (lo + j)) off n = load c (lo + off) n := by
  induction n generalizing off with
  | zero => rfl
  | succ n ih => rw [load_succ, load_succ, ih, Nat.add_assoc]

theorem load_eq_zero_iff (b : Buf) (off n : Nat) :
    load b off n = 0 ↔ ∀ i, off ≤ i → i < off + n → b i = 0 := by
  induction n generalizing off with
  | zero =>
    simp only [load_zero, true_iff]
    intro i hi hi'
    omega
  | succ n ih =>
    rw [load_succ, Nat.add_eq_zero_iff, Nat.mul_eq_zero]
    simp only [OfNat.ofNat_ne_zero, false_or, ih (off + 1)]
    constructor
    · rintro ⟨hhead, htail⟩ i hi hi'
      rcases Nat.eq_or_lt_of_le hi with rfl | hlt
      · exact BitVec.eq_of_toNat_eq (by simpa using hhead)
      · exact htail i hlt (by omega)
    intro h
    refine ⟨by rw [h off le_rfl (by omega)]; rfl, ?_⟩
    intro i hi hi'
    exact h i (by omega) (by omega)

theorem store_of_lt (h : i < off) : store b off n v i = b i := if_neg (by omega)

theorem store_of_ge (h : off + n ≤ i) : store b off n v i = b i := if_neg (by omega)

theorem store_of_mem (h : off ≤ i) (h' : i < off + n) :
    store b off n v i = byteOf v (i - off) := if_pos ⟨h, h'⟩

theorem load_byteOf (b : Buf) (off n v k : Nat)
    (h : ∀ i, i < n → b (off + i) = byteOf v (k + i)) :
    load b off n = (v >>> (8 * k)) % 256 ^ n := by
  induction n generalizing off k with
  | zero => simp [Nat.mod_one]
  | succ n ih =>
    have hhead : (b off).toNat = (v >>> (8 * k)) % 256 := by
      rw [← Nat.add_zero off, h 0 (by omega)]
      simp [byteOf]
    have htail : load b (off + 1) n = (v >>> (8 * (k + 1))) % 256 ^ n := by
      apply ih
      intro i hi
      rw [Nat.add_right_comm k 1 i, Nat.add_assoc k i 1, ← h (i + 1) (by omega)]
      congr 1
      omega
    have hshift : v >>> (8 * (k + 1)) = (v >>> (8 * k)) / 256 := by
      rw [Nat.mul_add, Nat.shiftRight_add, Nat.shiftRight_eq_div_pow (v >>> (8 * k)) (8 * 1)]
    rw [load_succ, hhead, htail, hshift, pow_succ, mul_comm (256 ^ n), Nat.mod_mul]

theorem load_store_same (b : Buf) (off n v : Nat) : load (store b off n v) off n = v % 256 ^ n := by
  rw [load_byteOf _ off n v 0]
  · simp
  intro i hi
  rw [store_of_mem (by omega) (by omega)]
  congr 1
  omega

variable {n' : Nat} {l : List Byte}

theorem load_store_disjoint (b : Buf) (v : Nat) (h : off + n ≤ off' ∨ off' + n' ≤ off) :
    load (store b off' n' v) off n = load b off n := by
  apply load_congr
  intro i hi hi'
  rcases h with h | h
  · exact store_of_lt (by omega)
  · exact store_of_ge (by omega)

theorem clear_of_mem (h : off ≤ i) (h' : i < off + n) : clear b off n i = 0 := if_pos ⟨h, h'⟩

theorem clear_of_not_mem (h : ¬(off ≤ i ∧ i < off + n)) : clear b off n i = b i := if_neg h

theorem load_clear_disjoint (b : Buf) (h : off + n ≤ off' ∨ off' + n' ≤ off) :
    load (clear b off' n') off n = load b off n := by
  apply load_congr
  intro i hi hi'
  exact clear_of_not_mem (by omega)

@[simp] theorem load_clear_same (b : Buf) (off n : Nat) : load (clear b off n) off n = 0 := by
  rw [load_eq_zero_iff]
  intro i hi hi'
  exact clear_of_mem hi hi'

theorem splice_of_not_mem (h : ¬(off ≤ i ∧ i < off + l.length)) : splice b off l i = b i := if_neg h

theorem splice_add (h : i < l.length) : splice b off l (off + i) = l[i] := by
  rw [splice, if_pos ⟨by omega, by omega⟩, Nat.add_sub_cancel_left, getD_eq_getElem _ _ h]

theorem load_splice_disjoint (b : Buf) (l : List Byte)
    (h : off + n ≤ off' ∨ off' + l.length ≤ off) : load (splice b off' l) off n = load b off n := by
  apply load_congr
  intro i hi hi'
  exact splice_of_not_mem (by omega)

@[simp] theorem slice_length (b : Buf) (off n : Nat) : (slice b off n).length = n := by
  simp [slice]

@[simp] theorem slice_splice_same (b : Buf) (off : Nat) (l : List Byte) :
    slice (splice b off l) off l.length = l := by
  apply ext_getElem (by simp)
  intro i h h'
  simp only [slice, getElem_map, getElem_range]
  exact splice_add h'

theorem slice_congr {c : Buf} (h : ∀ i, off ≤ i → i < off + n → b i = c i) :
    slice b off n = slice c off n := by
  unfold slice
  apply map_congr_left
  intro i hi
  have hlt : i < n := mem_range.1 hi
  exact h _ (by omega) (by omega)

theorem slice_shift (c : Buf) (lo off n : Nat) :
    slice (fun j => c (lo + j)) off n = slice c (lo + off) n := by
  simp only [slice, Nat.add_assoc]

@[simp] theorem load_zeroBuf (off n : Nat) : load zeroBuf off n = 0 := by
  rw [load_eq_zero_iff]
  intro i _ _
  rfl

/-- A field of a packed record: its offset, its width in bytes and its value. -/
structure Field where
  off : Nat
  width : Nat
  value : Nat

def storeFields (b : Buf) (o : Nat) : List Field → Buf
  | [] => b
  | f :: fs => storeFields (store b (o + f.off) f.width f.value) o fs

def apart (p q : Nat × Nat) : Bool := p.1 + p.2 ≤ q.1 || q.1 + q.2 ≤ p.1

theorem load_storeFields_of_apart (b : Buf) (o : Nat) (fs : List Field)
    (h : ∀ f ∈ fs, apart (off, n) (f.off, f.width)) :
    load (storeFields b o fs) (o + off) n = load b (o + off) n := by
  induction fs generalizing b with
  | nil => rfl
  | cons f fs ih =>
    have hf := h f mem_cons_self
    simp only [apart, Bool.or_eq_true, decide_eq_true_eq] at hf
    rw [storeFields, ih _ fun g hg => h g (mem_cons_of_mem _ hg),
      load_store_disjoint _ _ (by omega)]

/-- A field of a packed record reads back modulo its width, when the fields do
not overlap. -/
theorem load_storeFields (b : Buf) (o : Nat) (fs : List Field)
    (hp : (fs.map fun f => (f.off, f.width)).Pairwise fun p q => apart p q)
    {f : Field} (hf : f ∈ fs) :
    load (storeFields b o fs) (o + f.off) f.width = f.value % 256 ^ f.width := by
  induction fs generalizing b with
  | nil => cases hf
  | cons g fs ih =>
    rw [map_cons, pairwise_cons] at hp
    obtain ⟨hg, hp⟩ := hp
    rw [storeFields]
    rcases mem_cons.1 hf with rfl | hf
    · rw [load_storeFields_of_apart, load_store_same]
      intro g' hg'
      exact hg _ (mem_map_of_mem hg')
    · exact ih _ hp hf

theorem storeFields_outside (b : Buf) (o : Nat) (fs : List Field)
    (h : ∀ f ∈ fs, i < o + f.off ∨ o + f.off + f.width ≤ i) : storeFields b o fs i = b i := by
  induction fs generalizing b with
  | nil => rfl
  | cons f fs ih =>
    rw [storeFields, ih _ fun g hg => h g (mem_cons_of_mem _ hg)]
    rcases h f mem_cons_self with hf | hf
    · exact store_of_lt hf
    · exact store_of_ge hf

end ByteCodec
