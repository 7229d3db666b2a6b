import RixuriOS.Rixfs.Geometry

/-!
# Bits of the bitmap

Where the bitmap covers the device every sector has a bit, the functions that
read a bit succeed, and changing one bit changes no other.
-/

namespace RixuriOS.Rixfs

open ByteCodec CrashStore ExtentList

theorem testBit_eq_getLsbD (c : Byte) (s : Nat) : testBit c s = c.getLsbD (s % 8) := by
  have hmask : bitMask s = BitVec.twoPow 8 (s % 8) := rfl
  have hlt : s % 8 < 8 := Nat.mod_lt _ (by decide)
  have hpos : BitVec.twoPow 8 (s % 8) ≠ 0#8 := by
    intro hz
    have hbit := congrArg (fun c => c.getLsbD (s % 8)) hz
    simp [hlt] at hbit
  rw [testBit, hmask, BitVec.and_twoPow]
  cases c.getLsbD (s % 8) with
  | true => simpa using hpos
  | false => simp

theorem getLsbD_bitMask (s k : Nat) : (bitMask s).getLsbD k = decide (s % 8 = k) := by
  have hmask : bitMask s = BitVec.twoPow 8 (s % 8) := rfl
  have hlt : s % 8 < 8 := Nat.mod_lt _ (by decide)
  rw [hmask, BitVec.getLsbD_twoPow]
  simp [hlt]

theorem testBit_putBit (b : Buf) (off s : Nat) (v : Bool) (i t : Nat) :
    testBit (putBit b off s v i) t =
      if i = off ∧ t % 8 = s % 8 then v else testBit (b i) t := by
  have hlt : t % 8 < 8 := Nat.mod_lt _ (by decide)
  simp only [putBit, testBit_eq_getLsbD]
  by_cases hi : i = off
  · by_cases ht : t % 8 = s % 8
    · cases v <;> simp [hi, ht, getLsbD_bitMask]
    have hno : ¬(i = off ∧ t % 8 = s % 8) := fun h => ht h.2
    rw [if_pos hi, if_neg hno]
    cases v with
    | true =>
      rw [if_pos rfl, BitVec.getLsbD_or, getLsbD_bitMask, decide_eq_false (Ne.symm ht),
        Bool.or_false]
    | false =>
      rw [if_neg Bool.false_ne_true, BitVec.getLsbD_and, BitVec.getLsbD_not, getLsbD_bitMask,
        decide_eq_false (Ne.symm ht), decide_eq_true hlt]
      simp
  · simp [hi]

def Fs.bitOf (f : Fs) (s : Nat) : Bool :=
  testBit (f.dev.disk (bitmapPos f s).1 (bitmapPos f s).2) s

theorem bitmapPos_inj {f : Fs} {s t : Nat}
    (h : bitmapPos f t = bitmapPos f s) (hmod : t % 8 = s % 8) : t = s := by
  simp only [bitmapPos, Prod.mk.injEq] at h
  have hdiv : t / 8 = s / 8 := by
    rw [← Nat.div_add_mod (t / 8) f.dev.sectorSize, ← Nat.div_add_mod (s / 8) f.dev.sectorSize,
      h.2, Nat.add_left_cancel h.1]
  omega

/-- A mounted image whose bitmap has a bit for every sector of the device and ends
before the journal. The mount checks neither. -/
structure Mapped (f : Fs) : Prop where
  on : MountedOn f
  bitmapLe : f.super.bitmapSector + f.super.bitmapSectors ≤ f.super.journalSector
  covers : f.dev.sectorCount ≤ f.super.bitmapSectors * f.dev.sectorSize * 8

theorem Laid.mapped {f : Fs} (h : Laid f) : Mapped f :=
  ⟨h.on, h.regions.bitmapLe, h.regions.covers⟩

section

variable {f : Fs} {s : Nat} (h : Mapped f) (hs : s < f.dev.sectorCount)

include h hs

theorem Mapped.bitmapPos_lt :
    (bitmapPos f s).1 < f.super.bitmapSector + f.super.bitmapSectors := by
  have hss := h.on.sectorLow
  have hcov := h.covers
  have hlt : s / 8 / f.dev.sectorSize < f.super.bitmapSectors := by
    rw [Nat.div_lt_iff_lt_mul (by omega)]
    omega
  rw [bitmapPos]
  omega

theorem Mapped.bitmapPos_rd :
    f.dev.rd (bitmapPos f s).1 = some (f.dev.disk (bitmapPos f s).1) := by
  have h1 := h.bitmapPos_lt hs
  have h2 := h.on.superOk.bitmapLe
  have h3 := h.on.superOk.dataLt
  exact Device.rd_of_lt (by omega)

theorem Mapped.bitGet_eq : bitGet f s = .ok (f.bitOf s) := by
  have hlt := h.bitmapPos_lt hs
  rw [bitGet, h.bitmapPos_rd hs]
  rw [if_neg (by omega)]
  rfl

theorem Mapped.bitmapTest_eq : bitmapTest f false s = .ok (f.bitOf s) := by
  have hlt := h.bitmapPos_lt hs
  have htot := h.on.superOk.totalSectors
  simp only [bitmapTest, h.bitmapPos_rd hs, Bool.false_eq_true, if_false]
  rw [if_neg (by omega)]
  rfl

end

theorem Laid.bitmapPos_sector {f : Fs} {s : Nat} (h : Laid f) (hs : s < f.dev.sectorCount) :
    f.super.bitmapSector ≤ (bitmapPos f s).1 ∧ (bitmapPos f s).1 < f.super.journalSector := by
  have h1 := h.mapped.bitmapPos_lt hs
  have h2 := h.regions.bitmapLe
  exact ⟨Nat.le_add_right _ _, by omega⟩

end RixuriOS.Rixfs
