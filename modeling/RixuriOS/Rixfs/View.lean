import RixuriOS.Rixfs.Bitmap

/-!
# The view of an image

Operations change a mounted image through four primitive writes: a journaled
write of an inode, of a bitmap bit or of a data sector, and a plain write of a
data sector. `View` is what these writes act on, the inode table, the bitmap and
the data area, without the journal and the bytes it passes through. Each
primitive write of a `Ready` image succeeds and changes the view in one place;
`Effects f es f'` says that `f'` is reached from `f` by the writes `es`, in this
order, and moves of the allocation hints.
-/

namespace RixuriOS.Rixfs

open ByteCodec CrashStore ExtentList Function

variable {t : Nat}

/-- The constants of an image: sector size, first data sector, number of sectors,
number of inodes, root inode. -/
structure Geo where
  ss : Nat
  ds : Nat
  tot : Nat
  ic : Nat
  root : Nat

structure View where
  ino : Nat → Inode
  bit : Nat → Bool
  data : Nat → Buf

namespace View

@[simps -fullyApplied bit data]
def setIno (v : View) (k : Nat) (i : Inode) : View := { v with ino := update v.ino k i }

@[simps -fullyApplied ino data]
def setBit (v : View) (s : Nat) (b : Bool) : View := { v with bit := update v.bit s b }

@[simps -fullyApplied ino bit]
def setData (v : View) (s : Nat) (b : Buf) : View := { v with data := update v.data s b }

section

variable (v : View) (k s : Nat) (i : Inode) (c : Bool) (b : Buf)

@[simp] theorem setIno_ino_self : (v.setIno k i).ino k = i := update_self ..

@[simp] theorem setIno_ino_ne {j : Nat} (h : j ≠ k) : (v.setIno k i).ino j = v.ino j :=
  update_of_ne h ..

@[simp] theorem setBit_bit_self : (v.setBit s c).bit s = c := update_self ..

@[simp] theorem setBit_bit_ne (h : t ≠ s) : (v.setBit s c).bit t = v.bit t :=
  update_of_ne h ..

@[simp] theorem setData_data_self : (v.setData s b).data s = b := update_self ..

@[simp] theorem setData_data_ne (h : t ≠ s) : (v.setData s b).data t = v.data t :=
  update_of_ne h ..

end

end View

namespace Fs

def geo (f : Fs) : Geo where
  ss := f.dev.sectorSize
  ds := f.super.dataStartSector
  tot := f.dev.sectorCount
  ic := f.super.inodeCount
  root := f.super.rootInode

/-- The view of a mounted image; outside of their regions the tables are empty. -/
def view (f : Fs) : View where
  ino := f.inodeAt
  bit s := decide (s < f.dev.sectorCount) && f.bitOf s
  data s := if f.super.dataStartSector ≤ s ∧ s < f.dev.sectorCount then f.dev.disk s else zeroBuf

end Fs

/-- An image that operations run on: mounted, with ordered regions, inodes that do
not straddle sectors, and nothing to redo in the journal. -/
structure Ready (f : Fs) : Prop extends Laid f where
  aligned : inodeSize ∣ f.dev.sectorSize
  quiet : NoMagic (f.dev.disk f.super.journalSector)

inductive Effect where
  | ino (k : Nat) (i : Inode)
  | bit (s : Nat) (b : Bool)
  | data (s : Nat) (b : Buf)
  | raw (s : Nat) (b : Buf)

def View.apply (v : View) : Effect → View
  | .ino k i => v.setIno k i.wrap
  | .bit s b => v.setBit s b
  | .data s b => v.setData s b
  | .raw s b => v.setData s b

def View.after (v : View) (es : List Effect) : View := es.foldl View.apply v

def Fs.put (f : Fs) (s : Nat) (b : Buf) : Fs := { f with dev := f.dev.put s b }

inductive Does : Fs → Effect → Fs → Prop where
  | ino {f : Fs} {k : Nat} (i : Inode) (h1 : 1 ≤ k) (hk : k ≤ f.super.inodeCount) :
      Does f (.ino k i)
        (f.jw (f.slot k).1 (storeInode (f.dev.disk (f.slot k).1) (f.slot k).2 i))
  | bit {f : Fs} {s : Nat} (b : Bool) (hs : s < f.dev.sectorCount) :
      Does f (.bit s b)
        (f.jw (bitmapPos f s).1 (putBit (f.dev.disk (bitmapPos f s).1) (bitmapPos f s).2 s b))
  | data {f : Fs} {s : Nat} (b : Buf) (h1 : f.super.dataStartSector ≤ s)
      (hs : s < f.dev.sectorCount) : Does f (.data s b) (f.jw s b)
  | raw {f : Fs} {s : Nat} (b : Buf) (h1 : f.super.dataStartSector ≤ s)
      (hs : s < f.dev.sectorCount) : Does f (.raw s b) (f.put s b)

def Fs.hinted (f : Fs) (free metaHint : Nat) : Fs :=
  { f with super := { f.super with freeHint := free }, metaHint := metaHint }

/-- A sequence of primitive writes, with moves of the hints in between. -/
inductive Effects : Fs → List Effect → Fs → Prop where
  | nil (f : Fs) : Effects f [] f
  | hint {f g : Fs} {es : List Effect} (free metaHint : Nat) :
      Effects (f.hinted free metaHint) es g → Effects f es g
  | cons {f g k : Fs} {e : Effect} {es : List Effect} :
      Does f e g → Effects g es k → Effects f (e :: es) k

variable {f g : Fs} {k s : Nat}

theorem Effects.append {k : Fs} {es es' : List Effect} (h : Effects f es g) (h' : Effects g es' k) :
    Effects f (es ++ es') k := by
  induction h with
  | nil => exact h'
  | hint free metaHint _ ih => exact .hint free metaHint (ih h')
  | cons hdo _ ih => exact .cons hdo (ih h')

theorem Does.effects {e : Effect} (h : Does f e g) : Effects f [e] g :=
  .cons h (.nil g)

theorem View.after_append (v : View) (es es' : List Effect) :
    v.after (es ++ es') = (v.after es).after es' := List.foldl_append

@[simp] theorem View.after_nil (v : View) : v.after [] = v := rfl

@[simp] theorem View.after_cons (v : View) (e : Effect) (es : List Effect) :
    v.after (e :: es) = (v.apply e).after es := rfl

/-! ## Where the regions lie -/

section

variable (h : Ready f)

include h

namespace Ready

theorem slot_fits (k : Nat) : (f.slot k).2 + inodeSize ≤ f.dev.sectorSize := by
  obtain ⟨n, hn⟩ := h.aligned
  have hpos := h.sectorSize_pos
  have hmod : (k - 1) * inodeSize % f.dev.sectorSize = inodeSize * ((k - 1) % n) := by
    rw [hn, Nat.mul_comm (k - 1), Nat.mul_mod_mul_left]
  have hn0 : 0 < n := by
    rcases Nat.eq_zero_or_pos n with h0 | h0
    · rw [hn, h0] at hpos
      omega
    · exact h0
  have hlt : (k - 1) % n < n := Nat.mod_lt _ hn0
  rw [Fs.slot]
  rw [hmod, hn]
  calc inodeSize * ((k - 1) % n) + inodeSize = inodeSize * ((k - 1) % n + 1) := by ring
    _ ≤ inodeSize * n := Nat.mul_le_mul_left _ hlt

theorem inodeLocation_ok (h1 : 1 ≤ k) (hk : k ≤ f.super.inodeCount) :
    inodeLocation f k = .ok (f.slot k) := by
  have hfit := h.slot_fits k
  rw [h.inodeLocation_eq, if_neg (by omega), if_neg (by omega)]

theorem order : f.super.bitmapSector + f.super.bitmapSectors ≤ f.super.journalSector ∧
    f.super.journalSector + 1 < f.super.dataStartSector ∧
    f.super.dataStartSector < f.dev.sectorCount := by
  have h1 := h.regions.bitmapLe
  have h2 := h.regions.journalLe
  have h3 := h.superOk.journalTwo
  have h4 := h.superOk.dataLt
  omega

theorem slot_lt_journal (h1 : 1 ≤ k) (hk : k ≤ f.super.inodeCount) :
    (f.slot k).1 < f.super.journalSector := by
  have hlt := h.slot_lt h1 hk
  have horder := h.order
  omega

theorem readInode_ok (h1 : 1 ≤ k) (hk : k ≤ f.super.inodeCount) :
    readInode f k = .ok (f.view.ino k) := by
  have hlt := h.slot_lt_journal h1 hk
  have horder := h.order
  have hread : readInode f k =
      .ok (loadInode (f.dev.disk (f.slot k).1) (f.slot k).2) := by
    rw [readInode, h.inodeLocation_ok h1 hk]
    simp only [h.mounted, Bool.true_eq_false, if_false]
    rw [Device.rd_of_lt (by omega)]
  rw [hread]
  exact congrArg Except.ok (inodeAt_of_ok hread).symm

theorem readInode_error (hk : ¬(1 ≤ k ∧ k ≤ f.super.inodeCount)) : readInode f k = .error (-2) := by
  have hloc : inodeLocation f k = .error (-1) := by
    rw [h.inodeLocation_eq, if_pos (by omega)]
  simp [readInode, h.mounted, hloc]

theorem view_ino (h1 : 1 ≤ k) (hk : k ≤ f.super.inodeCount) :
    f.view.ino k = loadInode (f.dev.disk (f.slot k).1) (f.slot k).2 := by
  have hread := h.readInode_ok h1 hk
  have hlt := h.slot_lt_journal h1 hk
  have horder := h.order
  rw [readInode, h.inodeLocation_ok h1 hk] at hread
  simp only [h.mounted, Bool.true_eq_false, if_false] at hread
  rw [Device.rd_of_lt (by omega)] at hread
  exact (Except.ok.inj hread).symm

theorem view_ino_outside (hk : ¬(1 ≤ k ∧ k ≤ f.super.inodeCount)) : f.view.ino k = Inode.zero := by
  change f.inodeAt k = _
  rw [Fs.inodeAt, h.readInode_error hk]

theorem ino_fits (k : Nat) : (f.view.ino k).Fits := by
  by_cases hk : 1 ≤ k ∧ k ≤ f.super.inodeCount
  · rw [h.view_ino hk.1 hk.2]
    exact loadInode_fits _ _
  · rw [h.view_ino_outside hk]
    constructor <;> simp [Inode.zero]

theorem bitGet_ok (hs : s < f.dev.sectorCount) : bitGet f s = .ok (f.view.bit s) := by
  rw [h.mapped.bitGet_eq hs]
  simp [Fs.view, hs]

end Ready

omit h in
theorem rd_data (h1 : f.super.dataStartSector ≤ s) (hs : s < f.dev.sectorCount) :
    f.dev.rd s = some (f.view.data s) := by
  rw [Device.rd_of_lt hs]
  simp [Fs.view, h1, hs]

end

/-! ## A journaled write outside the journal -/

theorem slot_ne_zero (h : Laid f) (k : Nat) : (f.slot k).1 ≠ 0 :=
  Nat.ne_of_gt (Nat.lt_of_lt_of_le h.regions.tablePos (Nat.le_add_right _ _))

theorem slot_apart {j : Nat} (hj : 1 ≤ j) (hk : 1 ≤ k) (hne : j ≠ k)
    (hsec : (f.slot j).1 = (f.slot k).1) :
    (f.slot j).2 + inodeSize ≤ (f.slot k).2 ∨ (f.slot k).2 + inodeSize ≤ (f.slot j).2 := by
  simp only [Fs.slot, Nat.add_left_cancel_iff] at hsec ⊢
  have h1 := Nat.div_add_mod ((j - 1) * inodeSize) f.dev.sectorSize
  have h2 := Nat.div_add_mod ((k - 1) * inodeSize) f.dev.sectorSize
  rw [hsec] at h1
  simp only [inodeSize] at *
  omega

theorem jw_disk (b : Buf) (hs : s ≠ f.super.journalSector) (hs' : s ≠ f.super.journalSector + 1) :
    (f.jw t b).dev.disk s = if s = t then b else f.dev.disk s := by
  simp only [Fs.jw, jwReqs, applyReqs, upd, if_neg hs, if_neg hs']

theorem jw_disk_header (f : Fs) (t : Nat) (b : Buf) :
    (f.jw t b).dev.disk f.super.journalSector = zeroBuf := by
  simp [Fs.jw, jwReqs, applyReqs, upd]

section

variable (h : Ready f)

include h

theorem Ready.jw (ht : t ≠ 0) (b : Buf) : Ready (f.jw t b) := by
  have horder := h.order
  have hbm := h.superOk.bitmapPos
  have hzero : (f.jw t b).dev.disk 0 = f.dev.disk 0 := by
    rw [jw_disk b (by omega) (by omega), if_neg (Ne.symm ht)]
  refine ⟨⟨⟨h.mounted, h.on.sectorLow, h.on.sectorHigh, ?_, ?_⟩, ?_⟩, h.aligned, ?_⟩
  · rw [hzero]
    exact h.on.check
  · rw [hzero]
    have hsuper := h.on.super
    rw [Fs.jw]
    rw [hsuper]
  · exact ⟨h.regions.tablePos, h.regions.tableLe, h.regions.bitmapLe, h.regions.journalLe,
      h.regions.covers, h.regions.bytes⟩
  have hhead := jw_disk_header f t b
  rw [Fs.jw] at hhead ⊢
  rw [hhead]
  exact noMagic_zeroBuf

/-- The inode table after a journaled write: it sees the write only in its own
sectors. -/
theorem Ready.ino_jw (ht : t ≠ 0) (b : Buf) (h1 : 1 ≤ k) (hk : k ≤ f.super.inodeCount) :
    (f.jw t b).view.ino k =
      if (f.slot k).1 = t then loadInode b (f.slot k).2 else f.view.ino k := by
  have hlt := h.slot_lt_journal h1 hk
  have hslot : (f.jw t b).slot k = f.slot k := rfl
  rw [(h.jw ht b).view_ino h1 hk, h.view_ino h1 hk, hslot, jw_disk b (by omega) (by omega)]
  split_ifs <;> rfl

theorem Ready.ino_jw_outside (ht : t ≠ 0) (b : Buf) (hk : ¬(1 ≤ k ∧ k ≤ f.super.inodeCount)) :
    (f.jw t b).view.ino k = f.view.ino k := by
  rw [(h.jw ht b).view_ino_outside hk, h.view_ino_outside hk]

theorem Ready.ino_jw_of_le (ht : f.super.bitmapSector ≤ t) (b : Buf) :
    (f.jw t b).view.ino = f.view.ino := by
  have hbm := h.superOk.bitmapPos
  funext k
  by_cases hk : 1 ≤ k ∧ k ≤ f.super.inodeCount
  · have hlt := h.slot_lt hk.1 hk.2
    rw [h.ino_jw (by omega) b hk.1 hk.2, if_neg (by omega)]
  · exact h.ino_jw_outside (by omega) b hk

theorem Ready.bit_jw (t : Nat) (b : Buf) (s : Nat) :
    (f.jw t b).view.bit s =
      if s < f.dev.sectorCount ∧ (bitmapPos f s).1 = t then testBit (b (bitmapPos f s).2) s
      else f.view.bit s := by
  by_cases hs : s < f.dev.sectorCount
  · have hpos := (h.bitmapPos_sector hs).2
    have hcount : (f.jw t b).dev.sectorCount = f.dev.sectorCount := rfl
    have hbm : bitmapPos (f.jw t b) s = bitmapPos f s := rfl
    simp only [Fs.view, Fs.bitOf, hcount, hs, hbm, decide_true, Bool.true_and, true_and]
    rw [jw_disk b (by omega) (by omega)]
    split_ifs <;> rfl
  · have hcount : (f.jw t b).dev.sectorCount = f.dev.sectorCount := rfl
    simp [Fs.view, hcount, hs]

theorem Ready.bit_jw_of_outside (ht : t < f.super.bitmapSector ∨ f.super.journalSector ≤ t)
    (b : Buf) : (f.jw t b).view.bit = f.view.bit := by
  funext s
  rw [h.bit_jw]
  apply if_neg
  rintro ⟨hs, he⟩
  have hpos := h.bitmapPos_sector hs
  omega

theorem Ready.data_jw (t : Nat) (b : Buf) (s : Nat) :
    (f.jw t b).view.data s =
      if s = t ∧ f.super.dataStartSector ≤ s ∧ s < f.dev.sectorCount then b
      else f.view.data s := by
  have horder := h.order
  have hcount : (f.jw t b).dev.sectorCount = f.dev.sectorCount := rfl
  have hds : (f.jw t b).super.dataStartSector = f.super.dataStartSector := rfl
  by_cases hs : f.super.dataStartSector ≤ s ∧ s < f.dev.sectorCount
  · simp only [Fs.view, hcount, hds, hs, and_self, and_true, if_true]
    rw [jw_disk b (by omega) (by omega)]
  · simp [Fs.view, hcount, hds, hs]

theorem Ready.data_jw_of_lt (ht : t < f.super.dataStartSector) (b : Buf) :
    (f.jw t b).view.data = f.view.data := by
  funext s
  rw [h.data_jw]
  apply if_neg
  omega

end

theorem View.ext {v w : View} (hi : v.ino = w.ino) (hb : v.bit = w.bit) (hd : v.data = w.data) :
    v = w := by
  cases v
  cases w
  simp_all

/-! ## The primitive writes -/

theorem Ready.view_ino_write (h : Ready f) (i : Inode) (h1 : 1 ≤ k) (hk : k ≤ f.super.inodeCount) :
    (f.jw (f.slot k).1 (storeInode (f.dev.disk (f.slot k).1) (f.slot k).2 i)).view =
      f.view.setIno k i.wrap := by
  have hlt := h.slot_lt h1 hk
  have hpos : (f.slot k).1 ≠ 0 := slot_ne_zero h.toLaid k
  have horder := h.order
  refine View.ext ?_ (h.bit_jw_of_outside (.inl hlt) _) (h.data_jw_of_lt (by omega) _)
  funext j
  by_cases hj : 1 ≤ j ∧ j ≤ f.super.inodeCount
  · rw [h.ino_jw hpos _ hj.1 hj.2]
    by_cases hjk : j = k
    · subst hjk
      simp [View.setIno, loadInode_storeInode]
    simp only [View.setIno, update_of_ne hjk]
    split_ifs with hsec
    · rw [h.view_ino hj.1 hj.2, hsec]
      apply loadInode_congr
      intro n hn hn'
      apply storeInode_outside
      have hap := slot_apart hj.1 h1 hjk hsec
      rw [inodeSize] at hap
      omega
    · rfl
  have hjk : j ≠ k := by
    rintro rfl
    exact hj ⟨h1, hk⟩
  rw [h.ino_jw_outside hpos _ hj]
  simp [View.setIno, hjk]

theorem Ready.view_bit_write (h : Ready f) (b : Bool) (hs : s < f.dev.sectorCount) :
    (f.jw (bitmapPos f s).1
      (putBit (f.dev.disk (bitmapPos f s).1) (bitmapPos f s).2 s b)).view = f.view.setBit s b := by
  have hpos := h.bitmapPos_sector hs
  have horder := h.order
  refine View.ext (h.ino_jw_of_le hpos.1 _) ?_ (h.data_jw_of_lt (by omega) _)
  funext t
  rw [h.bit_jw]
  by_cases hts : t = s
  · subst hts
    simp [hs, testBit_putBit, View.setBit]
  simp only [View.setBit, update_of_ne hts]
  split_ifs with hsec
  · obtain ⟨ht, hsec⟩ := hsec
    have hno : ¬((bitmapPos f t).2 = (bitmapPos f s).2 ∧ t % 8 = s % 8) := fun he =>
      hts (bitmapPos_inj (Prod.ext hsec he.1) he.2)
    rw [testBit_putBit, if_neg hno, ← hsec]
    simp [Fs.view, Fs.bitOf, ht]
  · rfl

section

variable (h : Ready f) (b : Buf) (h1 : f.super.dataStartSector ≤ s)

include h h1

theorem Ready.view_data_write (hs : s < f.dev.sectorCount) :
    (f.jw s b).view = f.view.setData s b := by
  have horder := h.order
  refine View.ext (h.ino_jw_of_le (by omega) _) (h.bit_jw_of_outside (by omega) _) ?_
  funext t
  rw [h.data_jw]
  by_cases hts : t = s
  · subst hts
    simp [View.setData, h1, hs]
  · simp [View.setData, hts]

theorem Ready.put : Ready (f.put s b) := by
  have horder := h.order
  have hdisk : ∀ t, t < f.super.dataStartSector → (f.put s b).dev.disk t = f.dev.disk t :=
    fun t ht => upd_other (by omega)
  refine ⟨⟨⟨h.mounted, h.on.sectorLow, h.on.sectorHigh, ?_, ?_⟩, h.regions⟩, h.aligned, ?_⟩
  · rw [hdisk 0 (by omega)]
    exact h.on.check
  · rw [hdisk 0 (by omega)]
    exact h.on.super
  · rw [hdisk _ (by exact (by omega : f.super.journalSector < f.super.dataStartSector))]
    exact h.quiet

theorem Ready.view_put (hs : s < f.dev.sectorCount) : (f.put s b).view = f.view.setData s b := by
  have horder := h.order
  have hdisk : ∀ t, t < f.super.dataStartSector → (f.put s b).dev.disk t = f.dev.disk t :=
    fun t ht => upd_other (by omega)
  refine View.ext ?_ ?_ ?_
  · funext k
    by_cases hk : 1 ≤ k ∧ k ≤ f.super.inodeCount
    · have hlt := h.slot_lt_journal hk.1 hk.2
      have hslot : (f.put s b).slot k = f.slot k := rfl
      change _ = f.view.ino k
      rw [(h.put b h1).view_ino hk.1 hk.2, h.view_ino hk.1 hk.2, hslot, hdisk _ (by omega)]
    · change _ = f.view.ino k
      rw [(h.put b h1).view_ino_outside hk, h.view_ino_outside hk]
  · funext t
    have hcount : (f.put s b).dev.sectorCount = f.dev.sectorCount := rfl
    by_cases ht : t < f.dev.sectorCount
    · have hpos := (h.bitmapPos_sector ht).2
      have hbm : bitmapPos (f.put s b) t = bitmapPos f t := rfl
      simp only [Fs.view, Fs.bitOf, hcount, ht, hbm, View.setData]
      rw [hdisk _ (by omega)]
    · simp [Fs.view, hcount, ht, View.setData]
  funext t
  have hcount : (f.put s b).dev.sectorCount = f.dev.sectorCount := rfl
  have hds : (f.put s b).super.dataStartSector = f.super.dataStartSector := rfl
  have hd : (f.put s b).dev.disk t = if t = s then b else f.dev.disk t := rfl
  by_cases hts : t = s
  · subst hts
    simp [Fs.view, View.setData, hcount, hds, hd, h1, hs]
  · simp [Fs.view, View.setData, hcount, hds, hd, hts]

end

theorem Ready.hinted (h : Ready f) (free metaHint : Nat) : Ready (f.hinted free metaHint) := by
  refine ⟨⟨⟨h.mounted, h.on.sectorLow, h.on.sectorHigh, h.on.check, ?_⟩, ?_⟩, h.aligned, h.quiet⟩
  · have hsuper := h.on.super
    rw [Fs.hinted]
    rw [hsuper]
  · exact ⟨h.regions.tablePos, h.regions.tableLe, h.regions.bitmapLe, h.regions.journalLe,
      h.regions.covers, h.regions.bytes⟩

theorem Does.spec {e : Effect} (h : Does f e g) (hf : Ready f) :
    Ready g ∧ g.geo = f.geo ∧ g.view = f.view.apply e := by
  have horder := hf.order
  cases h with
  | ino i h1 hk => exact ⟨hf.jw (slot_ne_zero hf.toLaid _) _, rfl, hf.view_ino_write i h1 hk⟩
  | bit b hs =>
    have hpos := (hf.bitmapPos_sector hs).1
    have hbm := hf.superOk.bitmapPos
    exact ⟨hf.jw (by omega) _, rfl, hf.view_bit_write b hs⟩
  | data b h1 hs => exact ⟨hf.jw (by omega) _, rfl, hf.view_data_write b h1 hs⟩
  | raw b h1 hs => exact ⟨hf.put b h1, rfl, hf.view_put b h1 hs⟩

theorem Effects.spec {es : List Effect} (h : Effects f es g) (hf : Ready f) :
    Ready g ∧ g.geo = f.geo ∧ g.view = f.view.after es := by
  induction h with
  | nil => exact ⟨hf, rfl, rfl⟩
  | hint free metaHint _ ih =>
    obtain ⟨hg, hgeo, hview⟩ := ih (hf.hinted free metaHint)
    exact ⟨hg, hgeo, hview⟩
  | cons hdo _ ih =>
    obtain ⟨hg, hgeo, hview⟩ := hdo.spec hf
    obtain ⟨hk, hgeo', hview'⟩ := ih hg
    refine ⟨hk, hgeo'.trans hgeo, ?_⟩
    rw [hview', hview]
    rfl

/-! ## The functions that write -/

section

variable (h : Ready f)

include h

theorem Ready.journalReady (ht : t < f.dev.sectorCount)
    (hj : t < f.super.journalSector ∨ f.super.dataStartSector ≤ t) : JournalReady f t := by
  have hj2 := h.regions.journalLe
  refine h.on.journalReady ht ?_
  rw [Superblock.inJournal, not_and, Nat.not_lt]
  omega

theorem Ready.writeInode_ok (h1 : 1 ≤ k) (hk : k ≤ f.super.inodeCount) (i : Inode) :
    ∃ g, writeInode f k i = (0, g) ∧ Does f (.ino k i) g := by
  have hlt := h.slot_lt_journal h1 hk
  have horder := h.order
  refine ⟨_, ?_, .ino i h1 hk⟩
  simp only [writeInode, h.inodeLocation_ok h1 hk]
  rw [Device.rd_of_lt (by omega)]
  exact journalWrite_eq (h.journalReady (by omega) (.inl hlt)) _

theorem Effects.writeInode_ok {es : List Effect} (he : Effects f es g) (h1 : 1 ≤ k)
    (hk : k ≤ f.geo.ic) (i : Inode) :
    ∃ g', writeInode g k i = (0, g') ∧ Does g (.ino k i) g' := by
  obtain ⟨hg, hgeo, -⟩ := he.spec h
  rw [← hgeo] at hk
  exact hg.writeInode_ok h1 hk i

theorem Ready.bit_ok (hs : s < f.dev.sectorCount) (b : Bool) :
    ∃ g, bit f s b = (0, g) ∧ Does f (.bit s b) g := by
  have hpos := h.mapped.bitmapPos_lt hs
  have hsec := h.bitmapPos_sector hs
  have horder := h.order
  have htot := h.total
  refine ⟨_, ?_, .bit b hs⟩
  simp only [bit, h.mounted, Bool.true_eq_false, false_or, h.mapped.bitmapPos_rd hs]
  rw [if_neg (by omega), if_neg (by omega)]
  exact journalWrite_eq (h.journalReady (by omega) (.inl hsec.2)) _

theorem Ready.journalWrite_ok (h1 : f.super.dataStartSector ≤ s) (hs : s < f.dev.sectorCount)
    (b : Buf) : ∃ g, journalWrite f s b = (0, g) ∧ Does f (.data s b) g :=
  ⟨_, journalWrite_eq (h.journalReady hs (.inr h1)) b, .data b h1 hs⟩

end

theorem wr_data (h1 : f.super.dataStartSector ≤ s) (hs : s < f.dev.sectorCount) (b : Buf) :
    ∃ d, f.dev.wr s b = some d ∧ Does f (.raw s b) { f with dev := d } :=
  ⟨_, Device.wr_of_lt hs b, .raw b h1 hs⟩

end RixuriOS.Rixfs
