import RixuriOS.Rixfs.File

/-!
# Journaled sector writes

`journalWrite` is the redo journal for one sector: payload, header, target,
cleared header, each followed by a flush. Inodes and bitmap bits are changed by
reading their sector and journaling the changed copy.
-/

namespace RixuriOS.Rixfs

open ByteCodec CrashStore ExtentList

def journalHeader (target seq sum : Nat) : Buf :=
  store (store (store (store zeroBuf 0 8 journalMagic) 8 8 target) 16 8 seq) 32 8 sum

def journalWrite (f : Fs) (target : Nat) (data : Buf) : Int × Fs :=
  let js := f.super.journalSector
  if f.mounted = false ∨ f.super.journalSectors < 2 ∨ f.super.totalSectors ≤ target ∨
      target = js ∨ target = js + 1 then (-1, f)
  else
    match f.dev.wr (js + 1) data with
    | none => (-3, f)
    | some d₁ =>
      let seq := u64 (f.super.journalGeneration + 1)
      let sb := { f.super with journalGeneration := seq }
      match d₁.flush.wr js (journalHeader target seq (hash64 data f.dev.sectorSize)) with
      | none => (-4, { f with dev := d₁.flush, super := sb })
      | some d₂ =>
        match d₂.flush.wr target data with
        | none => (-5, { f with dev := d₂.flush, super := sb })
        | some d₃ =>
          match d₃.flush.wr js zeroBuf with
          | none => (-1, { f with dev := d₃.flush, super := sb })
          | some d₄ => (0, { f with dev := d₄.flush, super := sb })

def writeInode (f : Fs) (ino : Nat) (i : Inode) : Int × Fs :=
  match inodeLocation f ino with
  | .error _ => (-1, f)
  | .ok (s, o) =>
    match f.dev.rd s with
    | none => (-1, f)
    | some b => journalWrite f s (storeInode b o i)

def bitmapPos (f : Fs) (sec : Nat) : Nat × Nat :=
  (f.super.bitmapSector + sec / 8 / f.dev.sectorSize, sec / 8 % f.dev.sectorSize)

def bitMask (sec : Nat) : Byte := 1 <<< (sec % 8)

def putBit (b : Buf) (off sec : Nat) (set : Bool) : Buf := fun i =>
  if i = off then (if set then b i ||| bitMask sec else b i &&& ~~~bitMask sec) else b i

def testBit (c : Byte) (sec : Nat) : Bool := c &&& bitMask sec ≠ 0

def bit (f : Fs) (sec : Nat) (set : Bool) : Int × Fs :=
  let p := bitmapPos f sec
  if f.mounted = false ∨ f.super.totalSectors ≤ sec then (-1, f)
  else if f.super.bitmapSector + f.super.bitmapSectors ≤ p.1 then (-2, f)
  else
    match f.dev.rd p.1 with
    | none => (-1, f)
    | some b => journalWrite f p.1 (putBit b p.2 sec set)

def bitGet (f : Fs) (sec : Nat) : Except Int Bool :=
  let p := bitmapPos f sec
  if f.super.bitmapSector + f.super.bitmapSectors ≤ p.1 then .error (-1)
  else
    match f.dev.rd p.1 with
    | none => .error (-1)
    | some b => .ok (testBit (b p.2) sec)

end RixuriOS.Rixfs
