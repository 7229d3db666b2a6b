import RixuriOS.Mm.PmmSpec
import RixuriOS.Lib.PagedTree

/-!
# Page tables

`mm/vmm.c`: four-level page tables in physical memory. Memory is read by page
frame and word, so that a page-table entry and eight bytes of a data page are the
same thing. A pointer to a table is the frame it lies in.

The record `allocated` and `returned` of the frames that the paging code takes
from and gives back to the page allocator is a history variable: no function
reads it. TLB invalidation and the table lock are not modelled.
-/

namespace RixuriOS.Mm

open WordBitmap PagedTree

/-- A page-table entry, or any other word of memory. -/
abbrev Entry := BitVec 64

abbrev ptePresent : Entry := 0x1#64

abbrev pteWrite : Entry := 0x2#64

abbrev pteUser : Entry := 0x4#64

abbrev ptePwt : Entry := 0x8#64

abbrev ptePcd : Entry := 0x10#64

abbrev pteAccessed : Entry := 0x20#64

abbrev pteOwned : Entry := 0x200#64

abbrev pteNx : Entry := 0x8000000000000000#64

abbrev pageMask : Entry := 0x000FFFFFFFFFF000#64

abbrev leafFlags : Entry :=
  ptePresent ||| pteWrite ||| pteUser ||| ptePwt ||| ptePcd ||| pteNx ||| pteOwned

abbrev tableEntries : Nat := 512

namespace Entry

def present (e : Entry) : Bool := e.getLsbD 0

def writable (e : Entry) : Bool := e.getLsbD 1

def user (e : Entry) : Bool := e.getLsbD 2

def ps (e : Entry) : Bool := e.getLsbD 7

def owned (e : Entry) : Bool := e.getLsbD 9

def nx (e : Entry) : Bool := e.getLsbD 63

def phys (e : Entry) : Nat := (e &&& pageMask).toNat

/-- The page frame that `e` points to, `entry_table(e)` as a frame. -/
def frame (e : Entry) : Nat := e.phys / pageSize

end Entry

def mkEntry (pa : Nat) (flags : Entry) : Entry := BitVec.ofNat 64 pa ||| flags

/-- The index of `va` in a table of height `h`: 3 for the PML4, 0 for a page table. -/
def index (va h : Nat) : Nat := va / 2 ^ (12 + 9 * h) % 512

def canonical48 (va : Nat) : Bool := va < 2 ^ 47 || va ≥ 2 ^ 64 - 2 ^ 47

/-- Physical memory, the page allocator and the roots known to the kernel. -/
structure Machine where
  pmm : Pmm
  mem : PagedTree.Mem Entry
  kernelPml4 : Nat
  allocated : List Nat
  returned : List Nat

namespace Machine

def allocPage (m : Machine) : Nat × Machine :=
  let (pa, pmm) := pmmAllocPage m.pmm
  (pa, { m with pmm, allocated := if pa = 0 then m.allocated else pa / pageSize :: m.allocated })

def freePage (m : Machine) (pa : Nat) : Machine :=
  { m with pmm := pmmFreePage m.pmm pa, returned := pa / pageSize :: m.returned }

@[simps -fullyApplied]
def write (m : Machine) (table index : Nat) (e : Entry) : Machine :=
  { m with mem := setEntry m.mem table index e }

@[simps -fullyApplied]
def fill (m : Machine) (page : Nat) (row : Nat → Entry) : Machine :=
  { m with mem := Function.update m.mem page row }

end Machine

/-- `ensure_table`: the frame of the table, unless there is no page for it. -/
def ensureTable (m : Machine) (parent index : Nat) (flags : Entry) : Option Nat × Machine :=
  let e := m.mem parent index
  if e.present then
    let m := if flags.user then m.write parent index (e ||| pteUser) else m
    (some (m.mem parent index).frame, m)
  else
    let (phys, m) := m.allocPage
    if phys = 0 then (none, m) else
    let m := m.fill (phys / pageSize) fun _ => 0
    (some (phys / pageSize),
      m.write parent index (mkEntry phys (ptePresent ||| pteWrite ||| (flags &&& pteUser))))

def splitPdHugePage (m : Machine) (pd index : Nat) (flags : Entry) : Option Nat × Machine :=
  let e := m.mem pd index
  if !e.present then ensureTable m pd index flags
  else if !e.ps then
    let m := if flags.user then m.write pd index (e ||| pteUser) else m
    (some (m.mem pd index).frame, m)
  else
    let (phys, m) := m.allocPage
    if phys = 0 then (none, m) else
    let leaf := e &&& (pteWrite ||| pteUser ||| pteNx)
    let m := m.fill (phys / pageSize) fun i => mkEntry (e.phys + i * 0x1000) (ptePresent ||| leaf)
    (some (phys / pageSize),
      m.write pd index
        (mkEntry phys (ptePresent ||| pteWrite ||| (e &&& pteUser) ||| (flags &&& pteUser))))

def tableIsEmpty (m : Machine) (table : Nat) : Bool :=
  (List.range tableEntries).all fun i => !(m.mem table i).present

/-- The step of `prune_empty_path` for the entry `e` at `parent[index]`: give the table back unless
it is reserved. -/
def pruneEntry (m : Machine) (parent index : Nat) (e : Entry) : Machine :=
  if pmmIsReserved m.pmm e.phys then m
  else (m.write parent index 0).freePage e.phys

def pruneEmptyPath (m : Machine) (pml4 va : Nat) : Machine :=
  let e4 := m.mem pml4 (index va 3)
  if !e4.present then m else
  let pdpt := e4.frame
  let e3 := m.mem pdpt (index va 2)
  if !e3.present then
    if tableIsEmpty m pdpt then pruneEntry m pml4 (index va 3) e4 else m
  else if e3.ps then m else
  let pd := e3.frame
  let e2 := m.mem pd (index va 1)
  if !e2.present then
    let m := if tableIsEmpty m pd then pruneEntry m pdpt (index va 2) e3 else m
    if tableIsEmpty m pdpt then pruneEntry m pml4 (index va 3) e4 else m
  else if e2.ps then m else
  let pt := e2.frame
  if !tableIsEmpty m pt then m else
  let m := pruneEntry m pd (index va 1) e2
  if !tableIsEmpty m pd then m else
  let m := pruneEntry m pdpt (index va 2) e3
  if !tableIsEmpty m pdpt then m else
  pruneEntry m pml4 (index va 3) e4

def vmmMapPageInPml4 (m : Machine) (pml4Phys va pa : Nat) (flags : Entry) : Int × Machine :=
  if pml4Phys = 0 ∨ !canonical48 va ∨ va % pageSize ≠ 0 ∨ pa % pageSize ≠ 0 ∨ pa ≥ 2 ^ 52 then
    (-1, m)
  else
  let pml4 := pml4Phys / pageSize
  match ensureTable m pml4 (index va 3) flags with
  | (none, m) => (-1, pruneEmptyPath m pml4 va)
  | (some pdpt, m) =>
    match ensureTable m pdpt (index va 2) flags with
    | (none, m) => (-1, pruneEmptyPath m pml4 va)
    | (some pd, m) =>
      match splitPdHugePage m pd (index va 1) flags with
      | (none, m) => (-1, pruneEmptyPath m pml4 va)
      | (some pt, m) => (0, m.write pt (index va 0) (mkEntry pa (flags &&& leafFlags)))

end RixuriOS.Mm
