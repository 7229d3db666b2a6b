import Mathlib

/-!
# Physical region pages of an NVMe command

`storage/nvme_prp.c` describes a buffer to the controller by two entries, PRP1 and
PRP2, and for more than two pages by a list. `decode` is the controller's side: the
address of each byte by the rules of the NVMe specification, lists that go on in
another page included. Pages have 4096 bytes (`PRP_PAGE`).
-/

namespace RixuriOS.Storage

open List

/-- The entries for a command, and what is stored in the list page. -/
structure Prps where
  prp1 : Nat
  prp2 : Nat
  list : List Nat

/-- The arguments of `nvme_prp_build`; `hasList` for a list that is not null. -/
structure PrpInput where
  firstPa : Nat
  firstOff : Nat
  bytes : Nat
  pages : List Nat
  hasList : Bool
  listCap : Nat
  listPhys : Nat

namespace PrpInput

variable (a : PrpInput)

def Checked : Prop :=
  a.pages ≠ [] ∧ a.firstOff < 4096 ∧ a.bytes ≠ 0 ∧
    a.pages.length ≤ (2 ^ 64 - 1) / 4096 ∧ a.bytes ≤ a.pages.length * 4096 ∧
    a.firstPa % 4096 = 0 ∧ a.pages.getD 0 0 = a.firstPa ∧
    (∀ p ∈ a.pages, p ≠ 0 ∧ p % 4096 = 0) ∧ a.firstPa ≤ 2 ^ 64 - 1 - a.firstOff

instance : Decidable a.Checked := inferInstanceAs (Decidable (_ ∧ _))

def remain : Nat := a.bytes - (4096 - a.firstOff)

/-- `need_pages`. The sum cannot reach `SIZE_MAX`. -/
def needPages : Nat := a.remain / 4096 + if a.remain % 4096 ≠ 0 then 1 else 0

def ListOk : Prop :=
  a.hasList = true ∧ a.listCap ≠ 0 ∧ a.listPhys ≠ 0 ∧ a.listPhys % 4096 = 0 ∧
    a.needPages ≤ a.listCap

instance : Decidable a.ListOk := inferInstanceAs (Decidable (_ ∧ _))

end PrpInput

def nvmePrpBuild (a : PrpInput) : Option Prps :=
  if ¬a.Checked then none
  else if a.bytes ≤ 4096 - a.firstOff then some ⟨a.firstPa + a.firstOff, 0, []⟩
  else if a.needPages ≥ a.pages.length then none
  else if a.needPages = 1 then some ⟨a.firstPa + a.firstOff, a.pages.getD 1 0, []⟩
  else if ¬a.ListOk then none
  else some ⟨a.firstPa + a.firstOff, a.listPhys, (a.pages.drop 1).take a.needPages⟩

/-- The entry `k` of the `need` entries of a list at `addr`. The last slot of a page points to the
rest of the list if the page does not hold all of it. -/
def listEntry (word : Nat → Nat) : Nat → Nat → Nat → Nat → Nat
  | 0, addr, _, k => word (addr + 8 * k)
  | fuel + 1, addr, need, k =>
    let slots := (4096 - addr % 4096) / 8
    if need ≤ slots ∨ k + 1 < slots then word (addr + 8 * k)
    else
      listEntry word fuel (word (addr + 8 * (slots - 1))) (need - (slots - 1)) (k - (slots - 1))

/-- The physical address of the byte `i` of a transfer of `bytes` bytes. -/
def decode (word : Nat → Nat) (bytes prp1 prp2 i : Nat) : Nat :=
  let first := 4096 - prp1 % 4096
  if i < first then prp1 + i
  else if bytes ≤ first + 4096 then prp2 + (i - first)
  else listEntry word bytes prp2 ((bytes - first + 4095) / 4096) ((i - first) / 4096) +
    (i - first) % 4096

/-- The arguments describe a buffer: the pages hold it, and so does the list if one is needed. -/
structure Describes (a : PrpInput) : Prop where
  off_lt : a.firstOff < 4096
  bytes_pos : 0 < a.bytes
  first : a.pages.getD 0 0 = a.firstPa
  page : ∀ p ∈ a.pages, p ≠ 0 ∧ p % 4096 = 0 ∧ p < 2 ^ 64
  count : a.pages.length ≤ (2 ^ 64 - 1) / 4096
  cover : a.firstOff + a.bytes ≤ a.pages.length * 4096
  list : 2 * 4096 < a.firstOff + a.bytes → a.hasList = true ∧ a.listPhys ≠ 0 ∧
    a.listPhys % 4096 = 0 ∧ a.firstOff + a.bytes ≤ (a.listCap + 1) * 4096

variable {a : PrpInput} {r : Prps} {word : Nat → Nat}

theorem listEntry_of_le {fuel addr need k : Nat} (haddr : addr % 4096 = 0) (hneed : need ≤ 512) :
    listEntry word fuel addr need k = word (addr + 8 * k) := by
  cases fuel with
  | zero => rfl
  | succ fuel =>
    rw [listEntry, haddr]
    exact if_pos (.inl hneed)

theorem needPages_eq (a : PrpInput) : a.needPages = (a.remain + 4095) / 4096 := by
  unfold PrpInput.needPages
  split_ifs <;> omega

/-- The three encodings, with what was checked for each. -/
theorem nvmePrpBuild_cases (h : nvmePrpBuild a = some r) :
    a.Checked ∧ r.prp1 = a.firstPa + a.firstOff ∧ (a.bytes ≤ 4096 - a.firstOff ∨
      (a.needPages = 1 ∧ 1 < a.pages.length ∧ r.prp2 = a.pages.getD 1 0) ∨
      (1 < a.needPages ∧ a.needPages < a.pages.length ∧ a.ListOk ∧ r.prp2 = a.listPhys ∧
        r.list = (a.pages.drop 1).take a.needPages)) := by
  unfold nvmePrpBuild at h
  split_ifs at h with hchecked hone hneed htwo hlist <;> cases h
  · exact ⟨hchecked, rfl, .inl hone⟩
  · exact ⟨hchecked, rfl, .inr (.inl ⟨htwo, by omega, rfl⟩)⟩
  have hpos : a.needPages ≠ 0 := by
    rw [needPages_eq, PrpInput.remain]
    omega
  exact ⟨hchecked, rfl, .inr (.inr ⟨by omega, by omega, hlist, rfl, rfl⟩)⟩

theorem Describes.accepted (h : Describes a) : (nvmePrpBuild a).isSome := by
  obtain ⟨hoff, hbytes, hfirst, hpage, hcount, hcover, hlist⟩ := h
  have hnil : a.pages ≠ [] := fun he => by
    rw [he, length_nil] at hcover
    omega
  obtain ⟨-, halign, htop⟩ := hpage a.firstPa (by
    obtain ⟨p, l, hl⟩ := exists_cons_of_ne_nil hnil
    rw [hl] at hfirst ⊢
    exact hfirst ▸ mem_cons_self)
  have hchecked : a.Checked := ⟨hnil, hoff, by omega, hcount, by omega, halign, hfirst,
    fun p hp => ⟨(hpage p hp).1, (hpage p hp).2.1⟩, by omega⟩
  have hneed := needPages_eq a
  rw [PrpInput.remain] at hneed
  unfold nvmePrpBuild
  rw [if_neg (not_not.2 hchecked)]
  split_ifs with hone hfew htwo hbad
  · rfl
  · omega
  · rfl
  · rfl
  · obtain ⟨hhas, hphys, hphys', hroom⟩ := hlist (by omega)
    exact absurd ⟨hhas, by omega, hphys, hphys', by omega⟩ hbad

/-- What the controller reads is the buffer, page by page of the array, and the builder accepts
every buffer that its arguments describe. -/
theorem nvmePrpBuild_decodes (a : PrpInput) (hcap : a.listCap ≤ 512) :
    (∀ r, nvmePrpBuild a = some r → ∀ word : Nat → Nat,
      (∀ k < r.list.length, word (a.listPhys + 8 * k) = r.list.getD k 0) →
      ∀ i < a.bytes, (a.firstOff + i) / 4096 < a.pages.length ∧
        decode word a.bytes r.prp1 r.prp2 i =
          a.pages.getD ((a.firstOff + i) / 4096) 0 + (a.firstOff + i) % 4096) ∧
    (Describes a → (nvmePrpBuild a).isSome) := by
  refine ⟨fun r h word hword i hi => ?_, Describes.accepted⟩
  obtain ⟨⟨hnil, hoff, -, -, -, halign, hfirst, -, -⟩, hprp1, hcase⟩ := nvmePrpBuild_cases h
  have hpos := length_pos_iff.2 hnil
  have hmod : (a.firstPa + a.firstOff) % 4096 = a.firstOff := by omega
  have hneed := needPages_eq a
  rw [PrpInput.remain] at hneed
  rw [decode, hprp1, hmod]
  by_cases hlow : i < 4096 - a.firstOff
  · have hzero : (a.firstOff + i) / 4096 = 0 := by omega
    rw [if_pos hlow, hzero, hfirst]
    exact ⟨hpos, by omega⟩
  rw [if_neg hlow]
  obtain hone | ⟨htwo, hlen, hprp2⟩ | ⟨hmany, hlen, ⟨-, -, -, hphys, hroom⟩, hprp2, hlist⟩ := hcase
  · omega
  · have hindex : (a.firstOff + i) / 4096 = 1 := by omega
    rw [if_pos (by omega), hprp2, hindex]
    exact ⟨hlen, by omega⟩
  have hindex : (a.firstOff + i) / 4096 = (i - (4096 - a.firstOff)) / 4096 + 1 := by omega
  have hk : (i - (4096 - a.firstOff)) / 4096 < a.needPages := by omega
  rw [if_neg (by omega), hprp2, listEntry_of_le hphys (by omega), hword _ (by
    rw [hlist, length_take, length_drop]
    omega), hindex, hlist]
  refine ⟨by omega, ?_⟩
  rw [getD_eq_getElem?_getD, List.getElem?_take, if_pos hk, List.getElem?_drop,
    Nat.add_comm 1, ← getD_eq_getElem?_getD]
  omega

theorem nvmePrpBuild_decodes_threePages :
    (nvmePrpBuild ⟨0x5000, 512, 8192, [0x5000, 0x9000, 0x2000], true, 512, 0x7000⟩).isSome :=
  (nvmePrpBuild_decodes ⟨0x5000, 512, 8192, [0x5000, 0x9000, 0x2000], true, 512, 0x7000⟩
    (by decide)).2 ⟨by decide, by decide, rfl, by decide, by decide, by decide, by decide⟩

end RixuriOS.Storage
