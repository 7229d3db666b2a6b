import RixuriOS.Mm.Vmm

/-!
# Process address spaces

`process/address_space.c`. An address space is the physical address of its PML4,
and 0 stands for none. The slots 0, 2, 3 and 256 to 511 of the PML4 are borrowed
from the kernel; the slot 1 and the slots 4 to 255 belong to the process.
-/

namespace RixuriOS.Process

open Mm

def ptr (phys : Nat) : Nat :=
  if phys = 0 ∨ phys % pageSize ≠ 0 ∨ phys ≥ maxPhys then 0 else phys / pageSize

def userVa (va : Nat) : Bool := va ≥ 0x1000 && va < 2 ^ 47 && va % pageSize == 0

def kernelSharedPml4 (idx : Nat) : Bool := idx == 0 || idx == 2 || idx == 3 || idx ≥ 256

def userSlot (idx : Nat) : Bool := idx == 1 || (idx ≥ 4 && idx < 256)

def userPml4Ok (va : Nat) : Bool := userSlot (index va 3)

def walkFrom (m : Machine) (va : Nat) : Nat → Nat → Entry
  | 0, table => m.mem table (index va 0)
  | h + 1, table =>
    let e := m.mem table (index va (h + 1))
    if !e.present then 0
    else if h + 1 ≤ 2 && e.ps then e
    else walkFrom m va h (ptr e.phys)

def walkPte (m : Machine) (as va : Nat) : Entry :=
  if as = 0 ∨ va ≥ 2 ^ 47 then 0 else walkFrom m va 3 (ptr as)

def addressSpaceTranslate (m : Machine) (as va : Nat) : Nat :=
  let e := walkPte m as va
  if !e.present then 0
  else if e.ps then e.phys ||| va % 0x200000
  else e.phys ||| va % pageSize

def addressSpaceQueryFlags (m : Machine) (as va : Nat) : Entry :=
  walkPte m as va &&& (ptePresent ||| pteWrite ||| pteUser ||| pteNx ||| pteOwned)

/-! ### Teardown -/

def freeUserPt (m : Machine) (phys : Nat) : Machine :=
  if ptr phys = 0 then m.freePage phys else
  let m := (List.range tableEntries).foldl (fun m i =>
    let e := m.mem (ptr phys) i
    if e.present && e.owned then m.freePage e.phys else m) m
  m.freePage phys

/-- The common body of `free_user_pd` and `free_user_pdpt`, with the function for the level
below. -/
def freeUserTable (free : Machine → Nat → Machine) (m : Machine) (phys : Nat) : Machine :=
  if ptr phys = 0 then m.freePage phys else
  let m := (List.range tableEntries).foldl (fun m i =>
    let e := m.mem (ptr phys) i
    if !e.present then m
    else if e.ps then m
    else free m e.phys) m
  m.freePage phys

def freeUserPd : Machine → Nat → Machine := freeUserTable freeUserPt

def freeUserPdpt : Machine → Nat → Machine := freeUserTable freeUserPd

/-- What a borrowed slot holds for the kernel entry `ke`. -/
def borrowed (ke : Entry) : Entry := ke &&& ~~~(pteUser ||| pteOwned)

def destroySlot (as : Nat) (m : Machine) (i : Nat) : Machine :=
  let e := m.mem (ptr as) i
  if !e.present then m
  else if e.user then freeUserPdpt m e.phys
  else
    let kt := ptr m.kernelPml4
    let want := if (m.mem kt i).present then borrowed (m.mem kt i) else 0
    if kt ≠ 0 ∧ e = want then m else freeUserPdpt m e.phys

/-- `destroy_user_tables` and `address_space_destroy`; afterwards the address space is 0. -/
def addressSpaceDestroy (m : Machine) (as : Nat) : Machine :=
  if as = 0 then m else
  let m := if ptr as = 0 then m else (List.range tableEntries).foldl (destroySlot as) m
  m.freePage as

/-! ### Creation -/

/-- The loop of `address_space_create` over the kernel's slots; `false` for an invalid entry. -/
def borrowKernel (table kt : Nat) : List Nat → Machine → Bool × Machine
  | [], m => (true, m)
  | i :: is, m =>
    if !kernelSharedPml4 i then borrowKernel table kt is m
    else
      let e := m.mem kt i
      if !e.present then borrowKernel table kt is m
      else if e.phys = 0 then (false, m)
      else borrowKernel table kt is (m.write table i (borrowed e))

/-- `address_space_create`: the result, the new address space and the new state. -/
def addressSpaceCreate (m : Machine) : Int × Nat × Machine :=
  let (pml4, m) := m.allocPage
  if pml4 = 0 then (-2, 0, m) else
  let t := ptr pml4
  if t = 0 then (-2, 0, m.freePage pml4) else
  let m := m.fill t fun _ => 0
  if m.kernelPml4 = 0 ∨ ptr m.kernelPml4 = 0 then (-3, 0, m.freePage pml4) else
  match borrowKernel t (ptr m.kernelPml4) (List.range tableEntries) m with
  | (true, m) => (0, pml4, m)
  | (false, m) => (-4, 0, (m.fill t fun _ => 0).freePage pml4)

/-! ### Mapping -/

def mapPage (m : Machine) (as va pa : Nat) (flags : Entry) (owned : Bool) : Int × Machine :=
  if as = 0 ∨ !userVa va ∨ !userPml4Ok va ∨ pa % pageSize ≠ 0 then (-1, m) else
  if (addressSpaceQueryFlags m as va).present then (-1, m) else
  let flags := flags ||| ptePresent ||| pteUser
  let flags := if owned then flags ||| pteOwned else flags &&& ~~~pteOwned
  vmmMapPageInPml4 m as va pa flags

def addressSpaceMap (m : Machine) (as va pa : Nat) (flags : Entry) : Int × Machine :=
  mapPage m as va pa flags true

def addressSpaceMapShared (m : Machine) (as va pa : Nat) (flags : Entry) : Int × Machine :=
  mapPage m as va pa flags false

def addressSpaceUpdateFlags (m : Machine) (as va : Nat) (flags : Entry) : Int × Machine :=
  if as = 0 ∨ !userVa va ∨ !userPml4Ok va then (-1, m) else
  let old := addressSpaceQueryFlags m as va
  if !(old.present && old.user && old.owned) then (-1, m) else
  let pa := addressSpaceTranslate m as va / pageSize * pageSize
  if pa = 0 then (-1, m) else
  vmmMapPageInPml4 m as va pa (flags ||| ptePresent ||| pteUser ||| pteOwned)

def addressSpaceUnmap (m : Machine) (as va : Nat) : Int × Machine :=
  if as = 0 ∨ !userVa va ∨ !userPml4Ok va then (-1, m) else
  let old := addressSpaceQueryFlags m as va
  if !old.present then (-1, m) else
  let pa := addressSpaceTranslate m as va / pageSize * pageSize
  let e := m.mem (ptr as) (index va 3)
  if !e.present then (-1, m) else
  let e := m.mem (ptr e.phys) (index va 2)
  if !e.present then (-1, m) else
  let e := m.mem (ptr e.phys) (index va 1)
  if !e.present || e.ps then (-1, m) else
  let m := m.write (ptr e.phys) (index va 0) 0
  (0, if old.owned then m.freePage pa else m)

/-! ### Following the kernel -/

def syncSlots (table kt : Nat) : List Nat → Nat → Machine → Nat × Machine
  | [], changed, m => (changed, m)
  | i :: is, changed, m =>
    if i = 1 ∨ i = 255 then syncSlots table kt is changed m else
    let have_ := m.mem table i
    if have_.user then syncSlots table kt is changed m else
    let ke := m.mem kt i
    if ke.present ∧ ke.phys = 0 then syncSlots table kt is changed m else
    let want := if ke.present then borrowed ke else 0
    if have_ ≠ want then syncSlots table kt is (changed + 1) (m.write table i want)
    else syncSlots table kt is changed m

def addressSpaceSyncKernel (m : Machine) (as : Nat) : Int × Machine :=
  if as = 0 ∨ as % pageSize ≠ 0 then (-1, m) else
  if m.kernelPml4 = 0 ∨ m.kernelPml4 = as then (-1, m) else
  if ptr as = 0 ∨ ptr m.kernelPml4 = 0 then (-1, m) else
  let (changed, m) := syncSlots (ptr as) (ptr m.kernelPml4) (List.range tableEntries) 0 m
  (changed, m)

/-! ### Cloning -/

/-- A loop over table slots that stops at the first failure. -/
def forSlots (body : Nat → Machine → Int × Machine) : List Nat → Machine → Int × Machine
  | [], m => (0, m)
  | i :: is, m =>
    let (r, m) := body i m
    if r ≠ 0 then (-1, m) else forSlots body is m

def clonePage (destination va : Nat) (entry : Entry) (m : Machine) : Int × Machine :=
  if entry.ps then (-1, m) else
  let (page, m) := m.allocPage
  if page = 0 then (-1, m) else
  if ptr entry.phys = 0 ∨ ptr page = 0 then (-1, m.freePage page) else
  let m := m.fill (ptr page) (m.mem (ptr entry.phys))
  let flags := entry &&& (ptePresent ||| pteWrite ||| pteUser ||| pteNx)
  let (r, m) := addressSpaceMap m destination va page flags
  if r ≠ 0 then (-1, m.freePage page) else (0, m)

/-- `clone_user_level`, by the height of the table `source`, which is `level - 1`. -/
def cloneUserLevel (destination : Nat) : Nat → Nat → Nat → Machine → Int × Machine
  | 0, source, base, m =>
    forSlots (fun i m =>
      let entry := m.mem source i
      if !entry.present || !entry.user then (0, m)
      else clonePage destination (base + i * 2 ^ 12) entry m) (List.range tableEntries) m
  | h + 1, source, base, m =>
    forSlots (fun i m =>
      let entry := m.mem source i
      if !entry.present || !entry.user then (0, m)
      else if entry.ps then (-1, m)
      else cloneUserLevel destination h (ptr entry.phys) (base + i * 2 ^ (12 + 9 * (h + 1))) m)
      (List.range tableEntries) m

def addressSpaceClone (m : Machine) (source : Nat) : Int × Nat × Machine :=
  if source = 0 then (-1, 0, m) else
  let (r, destination, m) := addressSpaceCreate m
  if r ≠ 0 then (-1, 0, m) else
  let (r, m) := cloneUserLevel destination 3 (ptr source) 0 m
  if r ≠ 0 then (-1, 0, addressSpaceDestroy m destination) else (0, destination, m)

end RixuriOS.Process
