import RixuriOS.Rixfs.Rename
import RixuriOS.Rixfs.View

/-!
# Staged changes

A rename collects the new contents of the sectors it changes and writes them in
one transaction. `Fs.over f cs` is the image with the staged sectors in place:
each staging step changes it in one sector, so that it can be followed as an image
of its own, and the transaction turns it into the image on the device.
-/

namespace RixuriOS.Rixfs

open ByteCodec CrashStore ExtentList List

/-! ## Images that differ in the journal only -/

/-- Two images that agree on everything but the journal and the counters in
memory. -/
structure Agree (f g : Fs) : Prop where
  mounted : g.mounted = f.mounted
  sectorSize : g.dev.sectorSize = f.dev.sectorSize
  sectorCount : g.dev.sectorCount = f.dev.sectorCount
  super : g.super = { f.super with
    freeHint := g.super.freeHint, journalGeneration := g.super.journalGeneration }
  disk : ∀ s, s < f.super.journalSector ∨ f.super.dataStartSector ≤ s →
    g.dev.disk s = f.dev.disk s

section

variable {f g : Fs} (h : Agree f g)

include h

theorem Agree.geo : g.geo = f.geo := by
  rw [Fs.geo, Fs.geo, h.sectorSize, h.sectorCount, h.super]

theorem Agree.ready (hf : Ready f) (hquiet : NoMagic (g.dev.disk f.super.journalSector)) :
    Ready g := by
  have horder := hf.order
  have hzero : g.dev.disk 0 = f.dev.disk 0 := by
    have hpos := hf.superOk.bitmapPos
    exact h.disk 0 (.inl (by omega))
  have hsuper := h.super
  have hcheck : checkSuper g.dev (g.dev.disk 0) = checkSuper f.dev (f.dev.disk 0) := by
    simp only [checkSuper, h.sectorSize, h.sectorCount, hzero]
  refine ⟨⟨⟨h.mounted.trans hf.mounted, ?_, ?_, ?_, ?_⟩, ?_⟩, ?_, ?_⟩
  · rw [h.sectorSize]
    exact hf.on.sectorLow
  · rw [h.sectorSize]
    exact hf.on.sectorHigh
  · rw [hcheck]
    exact hf.on.check
  · have hfs := hf.on.super
    rw [hzero, hsuper]
    rw [hfs]
  · have hr := hf.regions
    rw [h.sectorSize, h.sectorCount, hsuper]
    exact ⟨hr.tablePos, hr.tableLe, hr.bitmapLe, hr.journalLe, hr.covers, hr.bytes⟩
  · rw [h.sectorSize]
    exact hf.aligned
  · rw [hsuper]
    exact hquiet

theorem Agree.view (hf : Ready f) (hquiet : NoMagic (g.dev.disk f.super.journalSector)) :
    g.view = f.view := by
  have hg := h.ready hf hquiet
  have hslot : ∀ k, g.slot k = f.slot k := fun k => by
    rw [Fs.slot, Fs.slot, h.sectorSize, h.super]
  have hpos : ∀ s, bitmapPos g s = bitmapPos f s := fun s => by
    rw [bitmapPos, bitmapPos, h.sectorSize, h.super]
  have hic : g.super.inodeCount = f.super.inodeCount := by rw [h.super]
  have hds : g.super.dataStartSector = f.super.dataStartSector := by rw [h.super]
  refine View.ext ?_ ?_ ?_
  · funext k
    by_cases hk : 1 ≤ k ∧ k ≤ f.super.inodeCount
    · have hlt := hf.slot_lt_journal hk.1 hk.2
      rw [hg.view_ino hk.1 (hic.symm ▸ hk.2), hf.view_ino hk.1 hk.2, hslot, h.disk _ (.inl hlt)]
    · rw [hg.view_ino_outside (hic.symm ▸ hk), hf.view_ino_outside hk]
  · funext s
    by_cases hs : s < f.dev.sectorCount
    · have hbm := (hf.bitmapPos_sector hs).2
      simp only [Fs.view, Fs.bitOf, h.sectorCount, hs, hpos, decide_true, Bool.true_and]
      rw [h.disk _ (.inl hbm)]
    · simp [Fs.view, h.sectorCount, hs]
  funext s
  simp only [Fs.view, h.sectorCount, hds]
  split_ifs with hs
  · exact h.disk s (.inr hs.1)
  · rfl

end

/-! ## Replacing a sector -/

def Fs.poke (f : Fs) (s : Nat) (b : Buf) : Fs :=
  { f with dev := { f.dev with disk := upd f.dev.disk s b } }

structure Target (f : Fs) (t : Nat) : Prop where
  pos : 0 < t
  lt : t < f.dev.sectorCount
  outside : t < f.super.journalSector ∨ f.super.dataStartSector ≤ t

variable {f : Fs} {s : Nat} {cs : Changes} {v : View}

theorem Ready.poke (h : Ready f) {t : Nat} (ht : Target f t) (b : Buf) :
    Ready (f.poke t b) ∧ (f.poke t b).view = (f.jw t b).view := by
  have horder := h.order
  have hjw := h.jw (Nat.ne_of_gt ht.pos) b
  have hout := ht.outside
  have hagree : Agree (f.jw t b) (f.poke t b) := by
    refine ⟨rfl, rfl, rfl, rfl, fun s hs => ?_⟩
    have hs : s < f.super.journalSector ∨ f.super.dataStartSector ≤ s := hs
    rw [jw_disk b (by omega) (by omega)]
    rfl
  have hquiet : NoMagic ((f.poke t b).dev.disk (f.jw t b).super.journalSector) := by
    have hne : f.super.journalSector ≠ t := by omega
    have hd : (f.poke t b).dev.disk f.super.journalSector =
        f.dev.disk f.super.journalSector := upd_other hne
    change NoMagic ((f.poke t b).dev.disk f.super.journalSector)
    rw [hd]
    exact h.quiet
  exact ⟨hagree.ready hjw hquiet, hagree.view hjw hquiet⟩

section

variable (h : Ready f)

include h

theorem Ready.target_data (h1 : f.geo.ds ≤ s) (hs : s < f.geo.tot) : Target f s := by
  have horder := h.order
  have h1 : f.super.dataStartSector ≤ s := h1
  exact ⟨by omega, hs, .inr h1⟩

theorem Ready.target_slot {k : Nat} (h1 : 1 ≤ k) (hk : k ≤ f.geo.ic) : Target f (f.slot k).1 := by
  have horder := h.order
  have hlt := h.slot_lt_journal h1 hk
  have hpos := slot_ne_zero h.toLaid k
  exact ⟨by omega, by omega, .inl hlt⟩

theorem Ready.target_bitmap (hs : s < f.geo.tot) : Target f (bitmapPos f s).1 := by
  have horder := h.order
  have hpos := h.bitmapPos_sector hs
  have hbm := h.superOk.bitmapPos
  exact ⟨by omega, by omega, .inl hpos.2⟩

end

/-! ## The staged sectors -/

def Fs.over (f : Fs) (cs : Changes) : Fs :=
  { f with dev := { f.dev with disk := applyWrites f.dev.disk cs } }

section

variable {d : Disk Buf}

theorem changeData_eq (hnd : (cs.map Prod.fst).Nodup) (hs : s ∈ cs.map Prod.fst) :
    changeData cs s = applyWrites d cs s := by
  induction cs generalizing d with
  | nil => cases hs
  | cons c cs ih =>
    rw [map_cons, nodup_cons] at hnd
    rw [changeData, applyWrites]
    split_ifs with hc
    · rw [applyWrites_other fun w hw he => hnd.1 (by
        rw [hc, ← he]
        exact mem_map_of_mem hw), hc, upd_same]
    refine ih hnd.2 ?_
    rw [map_cons, mem_cons] at hs
    exact hs.resolve_left (Ne.symm hc)

theorem applyWrites_changeSet (hnd : (cs.map Prod.fst).Nodup) (hs : s ∈ cs.map Prod.fst)
    (b : Buf) : applyWrites d (changeSet cs s b) = upd (applyWrites d cs) s b := by
  induction cs generalizing d with
  | nil => cases hs
  | cons c cs ih =>
    rw [map_cons, nodup_cons] at hnd
    rw [changeSet]
    split_ifs with hc
    · funext t
      have hfresh : ∀ w ∈ cs, w.1 ≠ s := fun w hw he => hnd.1 (by
        rw [hc, ← he]
        exact mem_map_of_mem hw)
      rw [applyWrites, applyWrites]
      by_cases ht : t = s
      · rw [ht, applyWrites_other hfresh, upd_same, upd_same]
      rw [upd_other ht]
      refine applyWrites_congr (.inr ?_)
      rw [upd_other ht, upd_other (hc.symm ▸ ht)]
    rw [applyWrites, applyWrites]
    refine ih hnd.2 ?_
    rw [map_cons, mem_cons] at hs
    exact hs.resolve_left (Ne.symm hc)

theorem changeSet_fst (b : Buf) : (changeSet cs s b).map Prod.fst = cs.map Prod.fst := by
  induction cs with
  | nil => rfl
  | cons c cs ih =>
    rw [changeSet]
    split_ifs with hc
    · rw [map_cons, map_cons, hc]
    · rw [map_cons, map_cons, ih]

end

/-- The changes `cs` are staged, and with them in place the image has the view
`v`. -/
structure Stage (f : Fs) (cs : Changes) (v : View) : Prop where
  nodup : (cs.map Prod.fst).Nodup
  targets : ∀ t ∈ cs.map Prod.fst, Target f t
  ready : Ready (f.over cs)
  view : (f.over cs).view = v

theorem Stage.nil (h : Ready f) : Stage f [] f.view := ⟨.nil, by simp, h, rfl⟩

theorem Stage.get {cs' : Changes} (h : Stage f cs v) (hs : Target f s)
    (hget : renameChangeGet f cs s = .ok cs') : Stage f cs' v ∧ s ∈ cs'.map Prod.fst := by
  rw [renameChangeGet, Device.rd_of_lt hs.lt] at hget
  split_ifs at hget with h1 h2 h3
  · cases hget
    exact ⟨h, h2⟩
  cases hget
  have hother : ∀ w ∈ cs, w.1 ≠ s := fun w hw he => h2 (he ▸ mem_map_of_mem hw)
  have hsame : applyWrites f.dev.disk (cs ++ [(s, f.dev.disk s)]) =
      applyWrites f.dev.disk cs := by
    rw [applyWrites_append]
    funext t
    by_cases ht : t = s
    · rw [ht, applyWrites_other hother]
      exact upd_same
    · exact upd_other ht
  have hover : f.over (cs ++ [(s, f.dev.disk s)]) = f.over cs := by
    rw [Fs.over, Fs.over, hsame]
  refine ⟨⟨?_, ?_, hover.symm ▸ h.ready, hover.symm ▸ h.view⟩, by simp⟩
  · rw [map_append, nodup_append']
    refine ⟨h.nodup, nodup_singleton _, fun t ht ht' => ?_⟩
    rw [map_singleton, mem_singleton] at ht'
    subst ht'
    exact h2 ht
  intro t ht
  rw [map_append, mem_append, map_singleton, mem_singleton] at ht
  rcases ht with ht | rfl
  · exact h.targets t ht
  · exact hs

theorem Stage.set (h : Stage f cs v) (hs : s ∈ cs.map Prod.fst) (b : Buf) :
    Stage f (changeSet cs s b) (((f.over cs).jw s b).view) := by
  have hover : f.over (changeSet cs s b) = (f.over cs).poke s b := by
    rw [Fs.over, applyWrites_changeSet h.nodup hs]
    rfl
  have ht : Target (f.over cs) s := ⟨(h.targets s hs).pos, (h.targets s hs).lt,
    (h.targets s hs).outside⟩
  obtain ⟨hready, hview⟩ := h.ready.poke ht b
  refine ⟨?_, ?_, hover.symm ▸ hready, hover.symm ▸ hview⟩
  · rw [changeSet_fst]
    exact h.nodup
  · rw [changeSet_fst]
    exact h.targets

section

variable {cs' : Changes} (h : Stage f cs v)

include h

theorem Stage.data_eq (h1 : f.geo.ds ≤ s) (hs : s < f.geo.tot) (hmem : s ∈ cs.map Prod.fst) :
    changeData cs s = v.data s := by
  rw [changeData_eq (d := f.dev.disk) h.nodup hmem, ← h.view]
  have hcond : (f.over cs).super.dataStartSector ≤ s ∧ s < (f.over cs).dev.sectorCount :=
    ⟨h1, hs⟩
  exact (if_pos hcond).symm

theorem Stage.change_data (hf : Ready f) (h1 : f.geo.ds ≤ s) (hs : s < f.geo.tot) {c : Buf → Buf}
    (hrun : renameChange f cs s c = .ok cs') : Stage f cs' (v.setData s (c (v.data s))) := by
  rw [renameChange] at hrun
  cases hget : renameChangeGet f cs s with
  | error e => simp [hget] at hrun
  | ok cs₁ =>
  rw [hget] at hrun
  cases hrun
  obtain ⟨hst, hmem⟩ := h.get (hf.target_data h1 hs) hget
  rw [hst.data_eq h1 hs hmem]
  have hset := hst.set hmem (c (v.data s))
  rwa [hst.ready.view_data_write _ h1 hs, hst.view] at hset

theorem Stage.change_inode {k : Nat} {i : Inode} (hf : Ready f)
    (hrun : renameChangeInode f cs k i = .ok cs') :
    Stage f cs' (v.setIno k i.wrap) := by
  rw [renameChangeInode] at hrun
  by_cases hk : 1 ≤ k ∧ k ≤ f.geo.ic
  swap
  · have hloc : inodeLocation f k = .error (-1) := by
      have hic : f.geo.ic = f.super.inodeCount := rfl
      rw [hf.inodeLocation_eq, if_pos (by omega)]
    simp [hloc] at hrun
  rw [hf.inodeLocation_ok hk.1 hk.2] at hrun
  simp only [renameChange] at hrun
  cases hget : renameChangeGet f cs (f.slot k).1 with
  | error e => simp [hget] at hrun
  | ok cs₁ =>
  rw [hget] at hrun
  cases hrun
  obtain ⟨hst, hmem⟩ := h.get (hf.target_slot hk.1 hk.2) hget
  have hset := hst.set hmem (storeInode (changeData cs₁ (f.slot k).1) (f.slot k).2 i)
  have hwrite := hst.ready.view_ino_write i hk.1 hk.2
  have hslot : (f.over cs₁).slot k = f.slot k := rfl
  have hdisk : (f.over cs₁).dev.disk (f.slot k).1 = changeData cs₁ (f.slot k).1 :=
    (changeData_eq hst.nodup hmem).symm
  rw [hslot, hdisk, hst.view] at hwrite
  rwa [hwrite] at hset

theorem Stage.change_bit {c : Bool} (hf : Ready f) (hs : s < f.geo.tot)
    (hrun : renameSetBitmap f cs s c = .ok cs') : Stage f cs' (v.setBit s c) := by
  rw [renameSetBitmap] at hrun
  simp only [] at hrun
  split_ifs at hrun with hbm
  cases hget : renameChangeGet f cs (bitmapPos f s).1 with
  | error e => simp [hget] at hrun
  | ok cs₁ =>
  simp only [hget] at hrun
  split_ifs at hrun with hsame
  cases hrun
  obtain ⟨hst, hmem⟩ := h.get (hf.target_bitmap hs) hget
  have hset := hst.set hmem
    (putBit (changeData cs₁ (bitmapPos f s).1) (bitmapPos f s).2 s c)
  have hwrite := hst.ready.view_bit_write c hs
  have hpos : bitmapPos (f.over cs₁) s = bitmapPos f s := rfl
  have hdisk : (f.over cs₁).dev.disk (bitmapPos f s).1 = changeData cs₁ (bitmapPos f s).1 :=
    (changeData_eq hst.nodup hmem).symm
  rw [hpos, hdisk, hst.view] at hwrite
  rwa [hwrite] at hset

end

/-! ## Writing the staged sectors -/

def writeReqs (cs : Changes) : List (Req Buf) := cs.map fun c => .write c.1 c.2

theorem applyReqs_writeReqs (d : Disk Buf) (cs : Changes) :
    applyReqs d (writeReqs cs) = applyWrites d cs := by
  induction cs generalizing d with
  | nil => rfl
  | cons c cs ih => exact ih _

theorem writeSectors_eq {d : Device} (h : ∀ c ∈ cs, c.1 < d.sectorCount) :
    writeSectors d cs = some { d with
      disk := applyWrites d.disk cs
      log := d.log ++ writeReqs cs } := by
  induction cs generalizing d with
  | nil => simp [writeSectors, applyWrites, writeReqs]
  | cons c cs ih =>
    rw [writeSectors, Device.wr_of_lt (h c mem_cons_self)]
    simp only []
    have hrest : ∀ c' ∈ cs, c'.1 < (d.put c.1 c.2).sectorCount := fun c' hc' =>
      h c' (mem_cons_of_mem _ hc')
    rw [ih hrest]
    simp [Device.put, applyWrites, writeReqs]

theorem txPayload_fst {js : Nat} {n : Nat} {c : Nat × Buf} (h : c ∈ txPayload js n cs) :
    js + 1 + n ≤ c.1 ∧ c.1 < js + 1 + n + cs.length := by
  induction cs generalizing n with
  | nil => cases h
  | cons a cs ih =>
    rw [txPayload, mem_cons] at h
    rw [length_cons]
    rcases h with rfl | h
    · exact ⟨le_rfl, by simp⟩
    · have hc := ih h
      omega

/-- The writes and flushes of a transaction: header, payload, targets, cleared
header. -/
def txReqs (f : Fs) (cs : Changes) : List (Req Buf) :=
  let js := f.super.journalSector
  .write js (txHeader f.dev.sectorSize (u64 (f.super.journalGeneration + 1)) cs) :: .flush ::
    (writeReqs (txPayload js 0 cs) ++ .flush :: (writeReqs cs ++
      [.flush, .write js zeroBuf, .flush]))

def Fs.tx (f : Fs) (cs : Changes) : Fs :=
  { f with
    dev := { f.dev with
      disk := applyReqs f.dev.disk (txReqs f cs)
      log := f.dev.log ++ txReqs f cs }
    super := { f.super with journalGeneration := u64 (f.super.journalGeneration + 1) } }

structure TxFits (f : Fs) (cs : Changes) : Prop where
  some : cs ≠ []
  count : cs.length ≤ journalTxMaxEntries
  room : cs.length + 1 ≤ f.super.journalSectors
  header : 24 + cs.length * 16 ≤ f.dev.sectorSize

theorem journalWriteTransaction_eq (h : Ready f) (hcs : ∀ t ∈ cs.map Prod.fst, Target f t) :
    TxFits f cs ∧ journalWriteTransaction f cs = (0, f.tx cs) ∨
      ¬TxFits f cs ∧ journalWriteTransaction f cs = (-1, f) := by
  by_cases hfit : TxFits f cs
  swap
  · refine .inr ⟨hfit, if_pos ?_⟩
    by_contra hno
    simp only [not_or, Nat.not_lt] at hno
    exact hfit ⟨hno.1, hno.2.1, hno.2.2.1, hno.2.2.2⟩
  refine .inl ⟨hfit, ?_⟩
  have horder := h.order
  have hj := h.regions.journalLe
  have hroom := hfit.room
  have hgo : ¬(cs = [] ∨ journalTxMaxEntries < cs.length ∨
      f.super.journalSectors < cs.length + 1 ∨ f.dev.sectorSize < 24 + cs.length * 16) := by
    have h1 := hfit.some
    have h2 := hfit.count
    have h4 := hfit.header
    simp only [h1, false_or]
    omega
  have hpay : ∀ c ∈ txPayload f.super.journalSector 0 cs, c.1 < f.dev.sectorCount := by
    intro c hc
    have hlt := txPayload_fst hc
    omega
  have htgt : ∀ c ∈ cs, c.1 < f.dev.sectorCount := fun c hc =>
    (hcs c.1 (mem_map_of_mem hc)).lt
  simp only [journalWriteTransaction, if_neg hgo]
  rw [Device.wr_of_lt (by omega)]
  simp only []
  rw [writeSectors_eq (by exact hpay)]
  simp only []
  rw [writeSectors_eq (by exact htgt)]
  simp only []
  rw [Device.wr_of_lt (by exact (by omega : f.super.journalSector < f.dev.sectorCount))]
  simp [Fs.tx, txReqs, Device.put, Device.flush, applyReqs, applyReqs_append, applyReqs_writeReqs]

theorem Stage.tx (h : Stage f cs v) (hf : Ready f) (hfit : TxFits f cs) :
    Ready (f.tx cs) ∧ (f.tx cs).geo = f.geo ∧ (f.tx cs).view = v := by
  have hj := hf.regions.journalLe
  have hroom := hfit.room
  have hagree : Agree (f.over cs) (f.tx cs) := by
    refine ⟨rfl, rfl, rfl, rfl, fun s hs => ?_⟩
    have hs : s < f.super.journalSector ∨ f.super.dataStartSector ≤ s := hs
    have hne : s ≠ f.super.journalSector := by omega
    simp only [Fs.tx, Fs.over, txReqs, applyReqs, applyReqs_append, applyReqs_writeReqs]
    rw [upd_other hne]
    refine applyWrites_congr (.inr ?_)
    rw [applyWrites_other, upd_other hne]
    intro c hc
    have hlt := txPayload_fst hc
    omega
  have hquiet : NoMagic ((f.tx cs).dev.disk (f.over cs).super.journalSector) := by
    have hd : (f.tx cs).dev.disk f.super.journalSector = zeroBuf := by
      simp only [Fs.tx, txReqs, applyReqs, applyReqs_append]
      exact upd_same
    change NoMagic ((f.tx cs).dev.disk f.super.journalSector)
    rw [hd]
    exact noMagic_zeroBuf
  exact ⟨hagree.ready h.ready hquiet, hagree.geo, (hagree.view h.ready hquiet).trans h.view⟩

end RixuriOS.Rixfs
