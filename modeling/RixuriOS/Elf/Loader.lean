import RixuriOS.Process.AddressSpace

/-!
# ELF images

`elf/elf.c` checks the headers of an image, and `elf/loader.c` maps its segments
into an address space. A page that two segments share gets the flags of the later
one.
-/

namespace RixuriOS

namespace Mm

open ByteCodec

def setByte (w : Entry) (i : Nat) (b : Byte) : Entry :=
  (w &&& ~~~((0xFF#64) <<< (8 * i))) ||| (b.setWidth 64 <<< (8 * i))

namespace Machine

def poke (m : Machine) (pa : Nat) (b : Byte) : Machine :=
  m.write (pa / pageSize) (pa % pageSize / 8)
    (setByte (m.mem (pa / pageSize) (pa % pageSize / 8)) (pa % 8) b)

def pokes (m : Machine) : Nat → List Byte → Machine
  | _, [] => m
  | pa, b :: bs => (m.poke pa b).pokes (pa + 1) bs

end Machine

end Mm

namespace Process

open Mm

/-- A new page of zeros for `va`, as the loader and the stacks of a process get them: allocate it,
clear it, map it, and give it back when that fails. The second result is its address. -/
def mapNewPage (as va : Nat) (flags : Entry) (m : Machine) : Int × Nat × Machine :=
  let (pa, m) := m.allocPage
  if pa = 0 then (-1, 0, m) else
  let m := m.fill (pa / pageSize) fun _ => 0
  let (r, m) := addressSpaceMap m as va pa flags
  if r ≠ 0 then (-1, 0, m.freePage pa) else (0, pa, m)

end Process

namespace Elf

open ByteCodec Mm Process

/-! ### Headers -/

structure Image where
  bytes : Buf
  size : Nat

structure Ehdr where
  ident : Buf
  machine : Nat
  version : Nat
  entry : Nat
  phoff : Nat
  ehsize : Nat
  phentsize : Nat
  phnum : Nat

structure Phdr where
  type : Nat
  flags : Nat
  offset : Nat
  vaddr : Nat
  filesz : Nat
  memsz : Nat
  align : Nat

def ehdrSize : Nat := 64

def phdrSize : Nat := 56

def ptLoad : Nat := 1

def Phdr.executable (p : Phdr) : Bool := p.flags.testBit 0

def Phdr.writable (p : Phdr) : Bool := p.flags.testBit 1

def Phdr.stop (p : Phdr) : Nat := (p.vaddr + p.memsz) % 2 ^ 64

def Image.ehdr (f : Image) : Ehdr where
  ident := f.bytes
  machine := load f.bytes 18 2
  version := load f.bytes 20 4
  entry := load f.bytes 24 8
  phoff := load f.bytes 32 8
  ehsize := load f.bytes 52 2
  phentsize := load f.bytes 54 2
  phnum := load f.bytes 56 2

def Image.phdrAt (f : Image) (off : Nat) : Phdr where
  type := load f.bytes off 4
  flags := load f.bytes (off + 4) 4
  offset := load f.bytes (off + 8) 8
  vaddr := load f.bytes (off + 16) 8
  filesz := load f.bytes (off + 32) 8
  memsz := load f.bytes (off + 40) 8
  align := load f.bytes (off + 48) 8

def rangeOk (size off len : Nat) : Bool := off ≤ size && len ≤ size - off

def elf64ProgramHeader (f : Image) (index : Nat) : Option Phdr :=
  if f.size < ehdrSize then none else
  let h := f.ehdr
  if h.phentsize ≠ phdrSize ∨ index ≥ h.phnum then none else
  let off := (h.phoff + index * h.phentsize) % 2 ^ 64
  if off < h.phoff ∨ !rangeOk f.size off phdrSize then none else
  some (f.phdrAt off)

def segmentOk (f : Image) (p : Phdr) : Bool :=
  p.filesz ≤ p.memsz && rangeOk f.size p.offset p.filesz &&
  (p.memsz == 0 || p.vaddr ≤ p.stop) && (p.align == 0 || p.align &&& (p.align - 1) == 0) &&
  !(p.writable && p.executable)

def collectLoads (f : Image) : List Nat → List Phdr → Option (List Phdr)
  | [], loads => some loads
  | i :: is, loads =>
    match elf64ProgramHeader f i with
    | none => none
    | some p =>
      if p.type ≠ ptLoad then collectLoads f is loads
      else if !segmentOk f p then none
      else if p.memsz = 0 then collectLoads f is loads
      else if loads.length ≥ 64 then none
      else collectLoads f is (loads ++ [p])

def Phdr.Overlaps (p q : Phdr) : Prop := p.vaddr < q.stop ∧ q.vaddr < p.stop

instance (p q : Phdr) : Decidable (p.Overlaps q) :=
  inferInstanceAs (Decidable (p.vaddr < q.stop ∧ q.vaddr < p.stop))

def headerOk (f : Image) (h : Ehdr) : Bool :=
  h.ident 0 == 0x7F && h.ident 1 == 0x45 && h.ident 2 == 0x4C && h.ident 3 == 0x46 &&
  h.ident 4 == 2 && h.ident 5 == 1 && h.ident 6 == 1 && h.machine == 62 && h.version == 1 &&
  h.ehsize == ehdrSize && h.phentsize == phdrSize && h.phnum != 0 &&
  h.phentsize * h.phnum % 2 ^ 64 / h.phnum == h.phentsize &&
  rangeOk f.size h.phoff (h.phentsize * h.phnum % 2 ^ 64)

/-- The checks of `elf64_validate` on the collected segments: they do not overlap, and an executable
one holds the entry. -/
def loadsOk (h : Ehdr) (loads : List Phdr) : Bool :=
  loads ≠ [] && loads.Pairwise (fun p q => ¬p.Overlaps q) &&
  loads.any fun p => p.executable && p.vaddr ≤ h.entry && h.entry < p.stop

def elf64Validate (f : Image) : Option Ehdr :=
  if f.size < ehdrSize ∨ !headerOk f f.ehdr then none else
  match collectLoads f (List.range f.ehdr.phnum) [] with
  | none => none
  | some loads => if loadsOk f.ehdr loads then some f.ehdr else none

variable {f : Image} {i : Nat} {p : Phdr}

theorem collectLoads_flags {is : List Nat} {acc loads : List Phdr}
    (h : collectLoads f is acc = some loads) (hi : i ∈ is) (hp : elf64ProgramHeader f i = some p)
    (hload : p.type = ptLoad) : (p.writable && p.executable) = false := by
  induction is generalizing acc with
  | nil => cases hi
  | cons j js ih =>
    unfold collectLoads at h
    obtain rfl | hi := List.mem_cons.1 hi
    · rw [hp] at h
      simp only [hload, ne_eq, not_true_eq_false, if_false] at h
      split at h
      · cases h
      rename_i hok
      simp only [segmentOk, Bool.not_eq_true', Bool.not_eq_false, Bool.and_eq_true] at hok
      exact hok.2
    -- every branch that goes on calls the loop for the remaining headers
    split at h
    · cases h
    split at h
    · exact ih h hi
    split at h
    · cases h
    split at h
    · exact ih h hi
    split at h
    · cases h
    · exact ih h hi

theorem elf64Validate_flags {h : Ehdr} (hv : elf64Validate f = some h) (hi : i < h.phnum)
    (hp : elf64ProgramHeader f i = some p) (hload : p.type = ptLoad) :
    (p.writable && p.executable) = false := by
  unfold elf64Validate at hv
  split at hv
  · cases hv
  split at hv
  · cases hv
  rename_i hc
  split at hv
  · cases hv
    exact collectLoads_flags hc (List.mem_range.2 hi) hp hload
  · cases hv

/-! ### Loading -/

def userVaMin : Nat := 0x8000000000

def userVaMax : Nat := 2 ^ 47

def range (a n lim : Nat) : Bool := a ≤ lim && n ≤ lim - a

def powerOfTwo (v : Nat) : Bool := v ≠ 0 && v &&& (v - 1) == 0

/-- The bounds of an image: of all segments and of the executable ones. -/
structure Extent where
  lo : Nat
  hi : Nat
  execLo : Nat
  execHi : Nat
  loads : Nat

def segmentFits (f : Image) (ph : Phdr) : Bool :=
  ph.memsz != 0 && ph.filesz ≤ ph.memsz && userVaMin ≤ ph.vaddr &&
  range ph.vaddr ph.memsz userVaMax && range ph.offset ph.filesz f.size &&
  (ph.align ≤ 1 || (powerOfTwo ph.align && ph.vaddr % ph.align == ph.offset % ph.align)) &&
  ph.vaddr ≤ ph.stop

def checkSegments (f : Image) : List Nat → Extent → Option Extent
  | [], x => some x
  | i :: is, x =>
    match elf64ProgramHeader f i with
    | none => none
    | some ph =>
      if ph.type ≠ ptLoad then checkSegments f is x
      else if !segmentFits f ph then none
      else
        checkSegments f is
          { lo := min ph.vaddr x.lo
            hi := max ph.stop x.hi
            execLo := if ph.executable then min ph.vaddr x.execLo else x.execLo
            execHi := if ph.executable then max ph.stop x.execHi else x.execHi
            loads := x.loads + 1 }

def Phdr.wanted (ph : Phdr) : Entry :=
  let wanted := ptePresent ||| pteUser ||| pteNx
  let wanted := if ph.writable then wanted ||| pteWrite else wanted
  if ph.executable then wanted &&& ~~~pteNx else wanted

/-- A page at `va` with the flags `wanted`: the one that is there, or a new one. The second result
is its address. -/
def placePage (as va : Nat) (wanted : Entry) (m : Machine) : Int × Nat × Machine :=
  let old := addressSpaceQueryFlags m as va
  if !old.present then mapNewPage as va wanted m else
  if !(old.user && old.owned) then (-1, 0, m) else
  let pa := addressSpaceTranslate m as va / pageSize * pageSize
  let (r, m) := addressSpaceUpdateFlags m as va wanted
  (r, pa, m)

def copySegment (f : Image) (ph : Phdr) (va pa : Nat) (m : Machine) : Machine :=
  let start := if ph.vaddr > va then ph.vaddr else va
  let stop := if ph.stop < va + pageSize then ph.stop else va + pageSize
  if stop > start then
    let off := start - ph.vaddr
    if off < ph.filesz then
      m.pokes (pa + (start - va)) (slice f.bytes (ph.offset + off) (min (ph.filesz - off) (stop - start)))
    else m
  else m

def loadPage (f : Image) (as : Nat) (ph : Phdr) (va : Nat) (m : Machine) : Int × Machine :=
  match placePage as va ph.wanted m with
  | (r, pa, m) => if r ≠ 0 then (-1, m) else (0, copySegment f ph va pa m)

def Phdr.pages (ph : Phdr) : List Nat :=
  let first := ph.vaddr / pageSize * pageSize
  let last := (ph.stop + pageSize - 1) / pageSize * pageSize
  (List.range ((last - first) / pageSize)).map fun i => first + i * pageSize

def loadSegment (f : Image) (as i : Nat) (m : Machine) : Int × Machine :=
  match elf64ProgramHeader f i with
  | none => (-1, m)
  | some ph => if ph.type ≠ ptLoad then (0, m) else forSlots (loadPage f as ph) ph.pages m

structure Loaded where
  entry : Nat
  imageLo : Nat
  imageHi : Nat

def elfLoadImage (f : Image) (as : Nat) (m : Machine) : Option Loaded × Machine :=
  match elf64Validate f with
  | none => (none, m)
  | some header =>
    match checkSegments f (List.range header.phnum) ⟨uint64Max, 0, uint64Max, 0, 0⟩ with
    | none => (none, m)
    | some x =>
      if x.loads = 0 ∨ x.lo = uint64Max ∨ x.execLo = uint64Max ∨ header.entry < x.execLo ∨
          header.entry ≥ x.execHi then (none, m)
      else
        let (r, m) := forSlots (loadSegment f as) (List.range header.phnum) m
        if r ≠ 0 then (none, m) else (some ⟨header.entry, x.lo, x.hi⟩, m)

theorem writable_wanted (ph : Phdr) : ph.wanted.writable = ph.writable := by
  unfold Phdr.wanted
  cases ph.writable <;> cases ph.executable <;> decide

theorem nx_wanted (ph : Phdr) : ph.wanted.nx = !ph.executable := by
  unfold Phdr.wanted
  cases ph.writable <;> cases ph.executable <;> decide

end Elf

end RixuriOS
