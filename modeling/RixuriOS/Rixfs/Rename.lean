import RixuriOS.Rixfs.Operations

/-!
# Rename

`rixfs_rename` stages the new contents of every sector it touches in a list of
at most sixteen changes and writes them in one journal transaction.
-/

namespace RixuriOS.Rixfs

open ByteCodec CrashStore ExtentList

abbrev Changes := List (Nat × Buf)

def changeData : Changes → Nat → Buf
  | [], _ => zeroBuf
  | c :: cs, s => if c.1 = s then c.2 else changeData cs s

def changeSet : Changes → Nat → Buf → Changes
  | [], _, _ => []
  | c :: cs, s, b => if c.1 = s then (s, b) :: cs else c :: changeSet cs s b

def renameChangeGet (f : Fs) (cs : Changes) (s : Nat) : Except Int Changes :=
  if f.super.totalSectors ≤ s then .error (-1)
  else if s ∈ cs.map Prod.fst then .ok cs
  else if journalTxMaxEntries ≤ cs.length then .error (-2)
  else
    match f.dev.rd s with
    | none => .error (-4)
    | some b => .ok (cs ++ [(s, b)])

def renameChange (f : Fs) (cs : Changes) (s : Nat) (g : Buf → Buf) : Except Int Changes :=
  match renameChangeGet f cs s with
  | .error _ => .error (-1)
  | .ok cs' => .ok (changeSet cs' s (g (changeData cs' s)))

def renameChangeInode (f : Fs) (cs : Changes) (ino : Nat) (i : Inode) : Except Int Changes :=
  match inodeLocation f ino with
  | .error _ => .error (-1)
  | .ok (s, o) => renameChange f cs s fun b => storeInode b o i

def renameSetBitmap (f : Fs) (cs : Changes) (sec : Nat) (set : Bool) : Except Int Changes :=
  let p := bitmapPos f sec
  if f.super.bitmapSector + f.super.bitmapSectors ≤ p.1 then .error (-1)
  else
    match renameChangeGet f cs p.1 with
    | .error _ => .error (-2)
    | .ok cs' =>
      let b := changeData cs' p.1
      if testBit (b p.2) sec = set then .error (-3)
      else .ok (changeSet cs' p.1 (putBit b p.2 sec set))

/-- The sectors in the order in which `rename_find_free_sector` looks at them. -/
def renameFreeOrder (f : Fs) (l : List Extent) : List Nat :=
  let ds := f.super.dataStartSector
  let top := if f.metaHint = 0 ∨ f.super.totalSectors < f.metaHint then f.super.totalSectors
    else f.metaHint
  nearSectors f l ++ (List.range' ds (top - ds)).reverse ++ scanOrder f

def renameFindFreeSector (f : Fs) (l : List Extent) : Except Int Nat :=
  match firstFree f (renameFreeOrder f l) with
  | .error _ => .error (-2)
  | .ok none => .error (-3)
  | .ok (some a) => .ok a

def findEntryLoop (f : Fs) (ino : Nat) (dir : Inode) (name : List Byte) :
    Nat → Nat → Except Int (Nat × Nat)
  | 0, _ => .error (-8)
  | n + 1, off =>
    if dir.size ≤ off then .error (-8)
    else
      match readdir f ino off (nameMax + 1) with
      | .error _ => .error (-2)
      | .ok none => .error (-8)
      | .ok (some item) =>
        if cstr item.name = name then
          let start := item.next - item.ent.recordSize
          match dirSector dir.extents (start / f.dev.sectorSize) with
          | none => .error (-3)
          | some s => .ok (s, start)
        else findEntryLoop f ino dir name n item.next

def renameFindEntry (f : Fs) (ino : Nat) (name : CString) : Except Int (Nat × Nat) :=
  match readInode f ino with
  | .error _ => .error (-1)
  | .ok dir =>
    if dir.fmt ≠ ifdir then .error (-1) else findEntryLoop f ino dir name.bytes dir.size 0

/-- `rename_find_empty_slot`; `none` is the return value one. -/
def renameFindEmptySlot (f : Fs) (ino : Nat) : Except Int (Option Nat) :=
  match readInode f ino with
  | .error _ => .error (-1)
  | .ok dir =>
    if dir.fmt ≠ ifdir ∨ dir.size % f.dev.sectorSize ≠ 0 then .error (-1)
    else findUnused f dir.extents (dir.size / f.dev.sectorSize) 0

def direntNameLoop (ss : Nat) : List Byte → Nat → Option Nat
  | [], x => some x
  | c :: cs, x =>
    if nameMax < x + 1 ∨ ss < x + 1 + direntMinSize ∨ c = slash then none
    else direntNameLoop ss cs (x + 1)

def renameWriteDirent (ss ino type : Nat) (name : List Byte) : Option Buf :=
  if ss < direntMinSize then none
  else
    match direntNameLoop ss name 0 with
    | none => none
    | some _ => some (dirWriteAt zeroBuf 0 ino ss type name)

/-! ## The transaction -/

def txFields (ss : Nat) : Nat → Changes → List Field
  | _, [] => []
  | i, c :: cs => ⟨24 + i * 16, 8, c.1⟩ :: ⟨32 + i * 16, 8, hash64 c.2 ss⟩ :: txFields ss (i + 1) cs

def txHeader (ss seq : Nat) (cs : Changes) : Buf :=
  storeFields zeroBuf 0
    (⟨0, 8, journalTxMagic⟩ :: ⟨8, 8, seq⟩ :: ⟨16, 1, cs.length⟩ :: txFields ss 0 cs)

def writeSectors (d : Device) : Changes → Option Device
  | [] => some d
  | c :: cs =>
    match d.wr c.1 c.2 with
    | none => none
    | some d' => writeSectors d' cs

def txPayload (js : Nat) : Nat → Changes → Changes
  | _, [] => []
  | i, c :: cs => (js + 1 + i, c.2) :: txPayload js (i + 1) cs

/-- `journal_write_transaction`. The header is written before the payload. -/
def journalWriteTransaction (f : Fs) (cs : Changes) : Int × Fs :=
  let js := f.super.journalSector
  let ss := f.dev.sectorSize
  if cs = [] ∨ journalTxMaxEntries < cs.length ∨ f.super.journalSectors < cs.length + 1 ∨
      ss < 24 + cs.length * 16 then (-1, f)
  else
    let seq := u64 (f.super.journalGeneration + 1)
    let g := { f with super := { f.super with journalGeneration := seq } }
    match f.dev.wr js (txHeader ss seq cs) with
    | none => (-1, g)
    | some d₁ =>
      match writeSectors d₁.flush (txPayload js 0 cs) with
      | none => (-1, { g with dev := d₁.flush })
      | some d₂ =>
        match writeSectors d₂.flush cs with
        | none => (-1, { g with dev := d₂.flush })
        | some d₃ =>
          match d₃.flush.wr js zeroBuf with
          | none => (-1, { g with dev := d₃.flush })
          | some d₄ => (0, { g with dev := d₄.flush })

/-! ## Staging -/

/-- What the checks of `rixfs_rename` have found. -/
structure RenameArgs where
  sourceInode : Nat
  sourceType : Nat
  sourceSector : Nat
  sourceOffset : Nat
  /-- The destination that is replaced: its inode number and inode, and the
  sector and offset of its entry. -/
  replaced : Option (Nat × Inode × Nat × Nat)
  newParent : Inode

def renameClear (f : Fs) (cs : Changes) (s off : Nat) : Except Int Changes :=
  renameChange f cs s fun b => clear b (off % f.dev.sectorSize) 8

/-- Stage the entry in the last sector of the new directory, if it fits there. The
flag says whether it did; a sector that was looked at stays staged. -/
def stageTail (f : Fs) (cs : Changes) (a : RenameArgs) (name : List Byte) : Changes × Bool :=
  let ss := f.dev.sectorSize
  if a.newParent.size = 0 ∨ a.newParent.size % ss ≠ 0 then (cs, false)
  else
    match dirSector a.newParent.extents (a.newParent.size / ss - 1) with
    | none => (cs, false)
    | some s =>
      match renameChangeGet f cs s with
      | .error _ => (cs, false)
      | .ok cs' =>
        match dirTailFit (changeData cs' s) ss a.sourceInode a.sourceType name with
        | .staged b => (changeSet cs' s b, true)
        | .full => (cs', false)
        | .corrupt => (cs', false)

def stageDirent (f : Fs) (cs : Changes) (s : Nat) (a : RenameArgs) (name : List Byte) :
    Except Int Changes :=
  match renameChangeGet f cs s with
  | .error _ => .error (-1)
  | .ok cs' =>
    match renameWriteDirent f.dev.sectorSize a.sourceInode a.sourceType name with
    | none => .error (-1)
    | some b => .ok (changeSet cs' s b)

/-- Stage the entry in a whole sector: one that holds no entry, the spare sector
of a fresh directory, or a newly allocated one, which is also returned. -/
def stageSector (f : Fs) (cs : Changes) (newDir : Nat) (a : RenameArgs) (name : List Byte) :
    Except Int (Changes × Nat) :=
  let ss := f.dev.sectorSize
  let parent := { a.newParent with size := u64 (a.newParent.size + ss) }
  match renameFindEmptySlot f newDir with
  | .error _ => .error (-1)
  | .ok (some s) => (stageDirent f cs s a name).map (·, 0)
  | .ok none =>
    match (if a.newParent.size = 0 then dirSector a.newParent.extents 0 else none) with
    | some s => do
        let cs ← renameChangeInode f cs newDir parent
        let cs ← stageDirent f cs s a name
        return (cs, 0)
    | none => do
        let s ← renameFindFreeSector f a.newParent.extents
        let cs ← renameSetBitmap f cs s true
        if 2 ^ 64 - 1 - ss < a.newParent.size then .error (-1)
        else
          match appendExtent a.newParent.extents s with
          | none => .error (-1)
          | some l => do
              let cs ← renameChangeInode f cs newDir { parent with extents := l }
              let cs ← stageDirent f cs s a name
              return (cs, s)

def stageFree (f : Fs) (cs : Changes) : List Nat → Except Int Changes
  | [] => .ok cs
  | s :: l => do
      let cs ← renameSetBitmap f cs s false
      stageFree f cs l

def stageReplaced (f : Fs) (cs : Changes) (ino : Nat) (i : Inode) : Except Int Changes :=
  if 1 < i.links then renameChangeInode f cs ino { i with links := i.links - 1 }
  else do
    let cs ← stageFree f cs (extentSectors i.extents)
    renameChangeInode f cs ino Inode.zero

def renameStage (f : Fs) (newDir : Nat) (a : RenameArgs) (name : List Byte) :
    Except Int (Changes × Nat) := do
  let cs ← renameClear f [] a.sourceSector a.sourceOffset
  let cs ← match a.replaced with
    | none => .ok cs
    | some (_, _, s, off) => renameClear f cs s off
  let t := stageTail f cs a name
  let p ← if t.2 then .ok (t.1, 0) else stageSector f t.1 newDir a name
  let cs ← match a.replaced with
    | none => .ok p.1
    | some (ino, i, _, _) => stageReplaced f p.1 ino i
  return (cs, p.2)

def readFileInode (f : Fs) (ino : Nat) : Option Inode :=
  match readInode f ino with
  | .error _ => none
  | .ok i => if i.fmt ≠ ifreg ∧ i.fmt ≠ iflnk then none else some i

/-- The checks of `rixfs_rename` on the destination name: the entry that is
replaced, if there is one. -/
def renameDest (f : Fs) (source newDir : Nat) (newName : CString) (replace : Bool) :
    Except Int (Option (Nat × Inode × Nat × Nat)) :=
  match lookupName f newDir newName with
  | .error e => if e ≠ -8 then .error (-4) else .ok none
  | .ok (ino, _) =>
    if ino = source ∨ replace = false then .error (-17)
    else
      match readFileInode f ino with
      | none => .error (-17)
      | some i =>
        match renameFindEntry f newDir newName with
        | .error _ => .error (-3)
        | .ok (s, off) => .ok (some (ino, i, s, off))

def renameCheck (f : Fs) (oldDir : Nat) (oldName : CString) (newDir : Nat) (newName : CString)
    (replace : Bool) : Except Int RenameArgs :=
  match lookupName f oldDir oldName with
  | .error _ => .error (-2)
  | .ok (ino, type) =>
    match readFileInode f ino with
    | none => .error (-2)
    | some _ =>
      match renameFindEntry f oldDir oldName with
      | .error _ => .error (-2)
      | .ok (s, off) =>
        match renameDest f ino newDir newName replace with
        | .error e => .error e
        | .ok dest =>
          match readInode f oldDir, readInode f newDir with
          | .ok oldParent, .ok newParent =>
            if oldParent.fmt ≠ ifdir ∨ newParent.fmt ≠ ifdir then .error (-5)
            else .ok ⟨ino, type, s, off, dest, newParent⟩
          | _, _ => .error (-5)

def rename (f : Fs) (oldDir : Nat) (oldName : CString) (newDir : Nat) (newName : CString)
    (replace : Bool) : Int × Fs :=
  match validName oldName, validName newName with
  | some oldLength, some newLength =>
    let room := f.dev.sectorSize - direntMinSize
    if f.mounted = false ∨ oldDir = 0 ∨ newDir = 0 ∨ room < oldLength ∨ room < newLength then
      (-1, f)
    else if oldDir = newDir ∧ oldName.bytes = newName.bytes then (0, f)
    else
      match renameCheck f oldDir oldName newDir newName replace with
      | .error e => (e, f)
      | .ok a =>
        match renameStage f newDir a newName.bytes with
        | .error _ => (-1, f)
        | .ok (cs, s) =>
          let r := journalWriteTransaction f cs
          if r.1 = 0 ∧ s ≠ 0 then
            (0, { r.2 with super := { r.2.super with freeHint := u64 (s + 1) } })
          else r
  | _, _ => (-1, f)

variable {f : Fs} {newDir : Nat} {newName : CString} {replace : Bool}

theorem renameDest_cases {k : Nat} {r : Option (Nat × Inode × Nat × Nat)}
    (hrun : renameDest f k newDir newName replace = .ok r) :
    (r = none ∧ lookupName f newDir newName = .error (-8)) ∨
      ∃ x t i s off, r = some (x, i, s, off) ∧ lookupName f newDir newName = .ok (x, t) ∧ x ≠ k ∧
        readFileInode f x = some i ∧ renameFindEntry f newDir newName = .ok (s, off) := by
  rw [renameDest] at hrun
  cases hlook : lookupName f newDir newName with
  | error c =>
    simp only [hlook] at hrun
    split_ifs at hrun with hcode
    exact .inl ⟨(Except.ok.inj hrun).symm, by rw [not_not.1 hcode]⟩
  | ok p =>
  obtain ⟨x, t⟩ := p
  simp only [hlook] at hrun
  split_ifs at hrun with hbad
  cases hread : readFileInode f x with
  | none => simp [hread] at hrun
  | some i =>
  cases hfind : renameFindEntry f newDir newName with
  | error c => simp [hread, hfind] at hrun
  | ok q =>
  rw [hread, hfind] at hrun
  exact .inr ⟨x, t, i, q.1, q.2, (Except.ok.inj hrun).symm, rfl,
    fun he => hbad (.inl he), hread, rfl⟩

structure RenameChecks (f : Fs) (oldDir : Nat) (oldName : CString) (newDir : Nat)
    (newName : CString) (replace : Bool) (a : RenameArgs) : Prop where
  source : lookupName f oldDir oldName = .ok (a.sourceInode, a.sourceType)
  file : ∃ i, readFileInode f a.sourceInode = some i
  entry : renameFindEntry f oldDir oldName = .ok (a.sourceSector, a.sourceOffset)
  dest : renameDest f a.sourceInode newDir newName replace = .ok a.replaced
  parent : readInode f newDir = .ok a.newParent
  dir : a.newParent.fmt = ifdir

theorem renameCheck_cases {oldDir : Nat} {oldName : CString} {a : RenameArgs}
    (hrun : renameCheck f oldDir oldName newDir newName replace = .ok a) :
    RenameChecks f oldDir oldName newDir newName replace a := by
  rw [renameCheck] at hrun
  cases hlook : lookupName f oldDir oldName with
  | error c => simp [hlook] at hrun
  | ok p =>
  cases hread : readFileInode f p.1 with
  | none => simp [hlook, hread] at hrun
  | some i =>
  cases hfind : renameFindEntry f oldDir oldName with
  | error c => simp [hlook, hread, hfind] at hrun
  | ok q =>
  cases hdest : renameDest f p.1 newDir newName replace with
  | error c => simp [hlook, hread, hfind, hdest] at hrun
  | ok r =>
  simp only [hlook, hread, hfind, hdest] at hrun
  split at hrun
  · next oldParent newParent _ hnew =>
    split_ifs at hrun with hfmt
    cases hrun
    exact ⟨hlook, ⟨i, hread⟩, hfind, hdest, hnew, not_not.1 (not_or.1 hfmt).2⟩
  · cases hrun

end RixuriOS.Rixfs
