import RixuriOS.Lib.ByteCodec
import RixuriOS.Lib.WordBitmap

/-!
# The physical page allocator

`mm/pmm.c`: three bitmaps over the page frames below 128 GiB and three counters.
`page_bitmap` has a bit set for every page that is unavailable or allocated,
`managed_bitmap` for every page of firmware-reported usable memory, and
`reserved_bitmap` for every page that must never be released. `pmm_init` reads
the UEFI memory map from physical memory.

The spin lock around every operation and its lock-order bookkeeping are not
modelled: an operation is one step.
-/

namespace RixuriOS.Mm

open ByteCodec WordBitmap

abbrev pageSize : Nat := 4096

theorem page_mul_div (p : Nat) : p * pageSize / pageSize = p := Nat.mul_div_cancel _ (by decide)

theorem page_mul_ne_zero {p : Nat} (hp : p ≠ 0) : p * pageSize ≠ 0 := Nat.mul_ne_zero hp (by decide)

/-- `RIXURI_MAX_PHYS_BYTES`, 128 GiB. -/
abbrev maxPhys : Nat := 137438953472

abbrev maxPages : Nat := 33554432

abbrev bitmapWords : Nat := 524288

abbrev uint64Max : Nat := 18446744073709551615

/-- The static variables of `pmm.c`. -/
structure Pmm where
  pageBitmap : Bitmap 64
  managedBitmap : Bitmap 64
  reservedBitmap : Bitmap 64
  totalPagesCount : Nat
  freePagesCount : Nat
  reservedPagesCount : Nat

namespace Pmm

def used (s : Pmm) (p : Nat) : Bool := test s.pageBitmap p

def managed (s : Pmm) (p : Nat) : Bool := test s.managedBitmap p

def reserved (s : Pmm) (p : Nat) : Bool := test s.reservedBitmap p

end Pmm

def usableType (type : Nat) : Bool :=
  type == 1 || type == 2 || type == 3 || type == 4 || type == 7

def alignUpPage (value : Nat) : Nat :=
  if value > uint64Max - (pageSize - 1) then uint64Max
  else (value + pageSize - 1) / pageSize * pageSize

def markPage (s : Pmm) (p : Nat) (freeable : Bool) : Pmm :=
  if freeable then
    let s := if s.managed p then s else
      { s with managedBitmap := set s.managedBitmap p, totalPagesCount := s.totalPagesCount + 1 }
    if s.used p then
      { s with pageBitmap := clear s.pageBitmap p, freePagesCount := s.freePagesCount + 1 }
    else s
  else
    let s := if s.reserved p then s else
      { s with
        reservedBitmap := set s.reservedBitmap p
        reservedPagesCount := s.reservedPagesCount + 1 }
    -- `if(free_pages_count)--free_pages_count` is truncated subtraction
    if s.used p then s else
      { s with pageBitmap := set s.pageBitmap p, freePagesCount := s.freePagesCount - 1 }

def markPages (freeable : Bool) : Nat → Nat → Pmm → Pmm
  | 0, _, s => s
  | n + 1, p, s => markPages freeable n (p + 1) (markPage s p freeable)

def markRange (s : Pmm) (base pages : Nat) (freeable : Bool) : Pmm :=
  if pages = 0 ∨ base ≥ maxPhys then s else
  let firstAddr := alignUpPage base
  if firstAddr = uint64Max ∨ firstAddr ≥ maxPhys then s else
  let first := firstAddr / pageSize
  let maxP := (maxPhys - firstAddr) / pageSize
  markPages freeable (if pages > maxP then maxP else pages) first s

def markByteRange (s : Pmm) (base size : Nat) (freeable : Bool) : Pmm :=
  if size = 0 ∨ base > uint64Max - size then s else
  let offset := base % pageSize
  if size > uint64Max - offset - (pageSize - 1) then s else
  markRange s base ((size + offset + pageSize - 1) / pageSize) freeable

/-- The arguments of `pmm_init`, with the physical memory that `memory_map` points into. -/
structure Handoff where
  memory : Buf
  memoryMap : Nat
  memoryMapSize : Nat
  descriptorSize : Nat
  kernelBase : Nat
  kernelEnd : Nat
  bootInfo : Nat
  bootInfoSize : Nat

/-- The arguments are `uint64_t` values. -/
structure Handoff.Fits (h : Handoff) : Prop where
  memoryMap : h.memoryMap ≤ uint64Max
  memoryMapSize : h.memoryMapSize ≤ uint64Max
  descriptorSize : h.descriptorSize ≤ uint64Max
  kernelBase : h.kernelBase ≤ uint64Max
  kernelEnd : h.kernelEnd ≤ uint64Max
  bootInfo : h.bootInfo ≤ uint64Max
  bootInfoSize : h.bootInfoSize ≤ uint64Max

namespace Handoff

def descType (h : Handoff) (offset : Nat) : Nat := load h.memory (h.memoryMap + offset) 4

def descBase (h : Handoff) (offset : Nat) : Nat := load h.memory (h.memoryMap + offset + 8) 8

def descPages (h : Handoff) (offset : Nat) : Nat := load h.memory (h.memoryMap + offset + 24) 8

end Handoff

def markDescriptor (h : Handoff) (s : Pmm) (offset : Nat) : Pmm :=
  let base := h.descBase offset
  let pages := h.descPages offset
  if usableType (h.descType offset) ∧ pages ≠ 0 ∧ base < maxPhys then
    let maxP := (maxPhys - base) / pageSize
    markRange s base (if pages > maxP then maxP else pages) true
  else s

def markDescriptors (h : Handoff) : Nat → Nat → Pmm → Pmm
  | 0, _, s => s
  | fuel + 1, offset, s =>
    if offset ≤ h.memoryMapSize - h.descriptorSize then
      markDescriptors h fuel (offset + h.descriptorSize) (markDescriptor h s offset)
    else s

def pmmReset : Pmm where
  pageBitmap := fun _ => BitVec.allOnes 64
  managedBitmap := fun _ => 0
  reservedBitmap := fun _ => 0
  totalPagesCount := 0
  freePagesCount := 0
  reservedPagesCount := 0

def Handoff.mapOk (h : Handoff) : Bool :=
  h.memoryMap ≠ 0 ∧ 40 ≤ h.descriptorSize ∧ h.descriptorSize ≤ 4096 ∧
    h.descriptorSize ≤ h.memoryMapSize

def pmmInit (h : Handoff) : Pmm :=
  if h.mapOk then
    let s := markDescriptors h h.memoryMapSize 0 pmmReset
    let s := markRange s 0 (0x100000 / pageSize) false
    let s := if h.kernelEnd > h.kernelBase then
      markByteRange s h.kernelBase (h.kernelEnd - h.kernelBase) false else s
    let s := markByteRange s h.bootInfo h.bootInfoSize false
    markByteRange s h.memoryMap h.memoryMapSize false
  else pmmReset

/-- The mask of the bits up to `limit` in the last word that the scan looks at. -/
def limitMask (limit : Nat) : BitVec 64 :=
  if limit % 64 = 63 then BitVec.allOnes 64 else (1#64 <<< (limit % 64 + 1)) - 1#64

def candidates (s : Pmm) (limit w : Nat) : BitVec 64 :=
  let c := s.managedBitmap w &&& ~~~s.pageBitmap w
  if w = limit / 64 then c &&& limitMask limit else c

/-- The word loop of `pmm_alloc_page_below`: the page that it picks. -/
def allocScan (s : Pmm) (limit : Nat) : Nat → Nat → Option Nat
  | 0, _ => none
  | fuel + 1, w =>
    if w * 64 > limit then none else
    let c := candidates s limit w
    if c = 0 then allocScan s limit fuel (w + 1) else
    let page := w * 64 + ctz c
    if page ≥ maxPages ∨ page > limit then allocScan s limit fuel (w + 1) else some page

/-- `pmm_alloc_page_below`: the address of the page, or 0. -/
def pmmAllocPageBelow (s : Pmm) (maxExclusive : Nat) : Nat × Pmm :=
  let maxExclusive := if maxExclusive > maxPhys then maxPhys else maxExclusive
  if maxExclusive < pageSize then (0, s) else
  match allocScan s ((maxExclusive - 1) / pageSize) bitmapWords 0 with
  | some page =>
    (page * pageSize,
      { s with
        pageBitmap := set s.pageBitmap page
        freePagesCount := s.freePagesCount - 1 })
  | none => (0, s)

def pmmAllocPage (s : Pmm) : Nat × Pmm := pmmAllocPageBelow s maxPhys

def rangeAvailable (s : Pmm) (start count : Nat) : Bool :=
  (List.range' start count).all fun p => s.managed p && !s.used p

def allocPagesScan (s : Pmm) (count : Nat) : Nat → Nat → Option Nat
  | 0, _ => none
  | fuel + 1, start =>
    if start + count ≤ maxPages then
      if rangeAvailable s start count then some start
      else allocPagesScan s count fuel (start + 1)
    else none

/-- `pmm_alloc_pages`: the address of the first page, or 0. -/
def pmmAllocPages (s : Pmm) (count : Nat) : Nat × Pmm :=
  if count = 0 ∨ count > maxPages then (0, s) else
  match allocPagesScan s count (maxPages + 1) 0 with
  | some start =>
    (start * pageSize,
      { s with
        pageBitmap := (List.range' start count).foldl set s.pageBitmap
        -- `free_pages_count-=count` wraps
        freePagesCount := (s.freePagesCount + 2 ^ 64 - count) % 2 ^ 64 })
  | none => (0, s)

def pmmFreePage (s : Pmm) (physicalAddress : Nat) : Pmm :=
  if physicalAddress % pageSize ≠ 0 then s else
  let page := physicalAddress / pageSize
  if page ≥ maxPages then s else
  if !s.managed page || !s.used page || s.reserved page then s else
  { s with pageBitmap := clear s.pageBitmap page, freePagesCount := s.freePagesCount + 1 }

def freePages : Nat → Nat → Pmm → Pmm
  | 0, _, s => s
  | n + 1, address, s => freePages n (address + pageSize) (pmmFreePage s address)

def pmmFreePageRange (s : Pmm) (physicalAddress count : Nat) : Pmm :=
  if count = 0 ∨ physicalAddress % pageSize ≠ 0 then s else
  if count - 1 > (uint64Max - physicalAddress) / pageSize then s else
  freePages count physicalAddress s

def pmmReservePage (s : Pmm) (physicalAddress : Nat) : Pmm :=
  if physicalAddress % pageSize ≠ 0 then s else
  let page := physicalAddress / pageSize
  if page ≥ maxPages then s else
  if !s.managed page then s else
  -- the rest is the reserving branch of `mark_range`
  markPage s page false

def pmmIsReserved (s : Pmm) (physicalAddress : Nat) : Bool :=
  if physicalAddress % pageSize ≠ 0 then false else
  if physicalAddress / pageSize ≥ maxPages then false else
  s.reserved (physicalAddress / pageSize)

end RixuriOS.Mm
