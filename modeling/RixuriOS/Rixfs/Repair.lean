import RixuriOS.Rixfs.Bitmap
import RixuriOS.Rixfs.FsckSound

/-!
# Correctness of the bitmap repair

`rixfs_fsck_repair` computes the bitmap from the inodes alone, sector by sector.
On an image with ordered regions the bitmap can be exchanged without changing
what the structural checks see, so the repair succeeds exactly when some bitmap
would make the image pass the checker, and the bitmap it writes does.
-/

namespace RixuriOS.Rixfs

open ByteCodec CrashStore ExtentList ExceptLoop List

/-! ## The wanted bitmap -/

/-- Setting bits along a list: a bit is set afterwards if it was before or if the
list asks for it. -/
theorem testBit_foldl_wantBit (P : Nat → Prop) [DecidablePred P] (first : Nat) (l : List Nat)
    (b : Buf) (i t : Nat) :
    testBit (l.foldl (fun b s => if P s then wantBit b first s else b) b i) t = true ↔
      testBit (b i) t = true ∨ ∃ s ∈ l, P s ∧ i = (s - first) / 8 ∧ t % 8 = s % 8 := by
  induction l generalizing b with
  | nil => simp
  | cons s l ih =>
    rw [foldl_cons, ih]
    by_cases hs : P s
    · rw [if_pos hs, wantBit, testBit_putBit]
      by_cases hc : i = (s - first) / 8 ∧ t % 8 = s % 8
      · simp [hc, hs]
      · simp [hc, hs]
    · simp [hs]

/-- The bits that the repair wants: the metadata area and the sectors of the live
inodes. -/
def Fs.Wanted (f : Fs) (s : Nat) : Prop :=
  s < f.super.dataStartSector ∨
    ∃ k ∈ range' 1 f.super.inodeCount,
      (f.inodeAt k).inode ≠ 0 ∧ s ∈ extentSectors (f.inodeAt k).extents

variable {f : Fs} {s : Nat} {ignore : Bool}

variable {l : List Nat} {want : Buf} {W : Nat → Buf}

theorem wantInodes_spec {first last : Nat} {b : Buf}
    (h : l.foldlM (wantInode f first last) b = .ok want) (i t : Nat) :
    testBit (want i) t = true ↔
      testBit (b i) t = true ∨ ∃ k ∈ l, (f.inodeAt k).inode ≠ 0 ∧
        ∃ s ∈ extentSectors (f.inodeAt k).extents,
          (first ≤ s ∧ s < last) ∧ i = (s - first) / 8 ∧ t % 8 = s % 8 := by
  induction l generalizing b with
  | nil =>
    cases h
    simp
  | cons k l ih =>
    obtain ⟨b₁, h₁, h₂⟩ := foldlM_cons_eq_ok.1 h
    rw [ih h₂]
    rw [wantInode] at h₁
    cases hread : readInode f k with
    | error e => simp [hread] at h₁
    | ok j =>
    simp only [hread] at h₁
    simp only [exists_mem_cons_iff, inodeAt_of_ok hread]
    split_ifs at h₁ with hj
    · cases h₁
      simp [hj]
    cases h₁
    rw [testBit_foldl_wantBit]
    simp only [ne_eq, hj, not_false_eq_true, true_and]
    exact or_assoc

theorem wantSector_spec {bs : Nat} (h : wantSector f bs = .ok want) {t : Nat}
    (hlo : bs * f.dev.sectorSize * 8 ≤ t)
    (hhi : t < bs * f.dev.sectorSize * 8 + f.dev.sectorSize * 8) (ht : t < f.super.totalSectors) :
    testBit (want ((t - bs * f.dev.sectorSize * 8) / 8)) t = true ↔ f.Wanted t := by
  rw [wantSector] at h
  set first := bs * f.dev.sectorSize * 8 with hfirst
  set last := if f.super.totalSectors < first + f.dev.sectorSize * 8 then f.super.totalSectors
    else first + f.dev.sectorSize * 8 with hlast
  have hlt : t < last := by
    rw [hlast]
    split_ifs <;> omega
  -- in one bitmap sector a byte and a bit in it determine the sector
  have hinj : ∀ s, first ≤ s → (t - first) / 8 = (s - first) / 8 → t % 8 = s % 8 → s = t := by
    intro s hs hdiv hm
    omega
  rw [wantInodes_spec h, wantMeta, testBit_foldl_wantBit, Fs.Wanted]
  have hzero : ¬testBit (zeroBuf ((t - first) / 8)) t = true := by simp [testBit, zeroBuf]
  constructor
  · rintro ((hz | ⟨s, hs, hds, hdiv, hm⟩) | ⟨k, hk, hne, s, hs, hr, hdiv, hm⟩)
    · exact absurd hz hzero
    · rw [mem_range'_1] at hs
      rw [← hinj s hs.1 hdiv hm]
      exact Or.inl hds
    · rw [← hinj s hr.1 hdiv hm]
      exact Or.inr ⟨k, hk, hne, hs⟩
  rintro (hds | ⟨k, hk, hne, hs⟩)
  · exact Or.inl (Or.inr ⟨t, mem_range'_1.2 ⟨hlo, by omega⟩, hds, rfl, rfl⟩)
  · exact Or.inr ⟨k, hk, hne, t, hs, ⟨hlo, hlt⟩, rfl, rfl⟩

theorem wantSector_isOk (h : ∀ k ∈ range' 1 f.super.inodeCount, ∃ i, readInode f k = .ok i)
    (bs : Nat) : ∃ want, wantSector f bs = .ok want := by
  have hfold : ∀ (l : List Nat) (first last : Nat) (b : Buf), (∀ k ∈ l, ∃ i, readInode f k = .ok i) →
      ∃ want, l.foldlM (wantInode f first last) b = .ok want := by
    intro l first last
    induction l with
    | nil => exact fun b _ => ⟨b, rfl⟩
    | cons k l ih =>
      intro b hl
      obtain ⟨i, hread⟩ := hl k mem_cons_self
      obtain ⟨b₁, hb₁⟩ : ∃ b₁, wantInode f first last b k = .ok b₁ := by
        rw [wantInode, hread]
        simp only
        split_ifs <;> exact ⟨_, rfl⟩
      obtain ⟨want, hw⟩ := ih b₁ fun j hj => hl j (mem_cons_of_mem _ hj)
      exact ⟨want, foldlM_cons_eq_ok.2 ⟨b₁, hb₁, hw⟩⟩
  exact hfold _ _ _ _ h

/-! ## Exchanging the bitmap -/

def Superblock.inBitmap (sb : Superblock) (s : Nat) : Prop :=
  sb.bitmapSector ≤ s ∧ s < sb.bitmapSector + sb.bitmapSectors

/-- The same mounted image with another bitmap. -/
structure BitmapTwin (f g : Fs) : Prop where
  geometry : SameGeometry f g
  super : g.super = f.super
  disk : ∀ s, ¬f.super.inBitmap s → g.dev.disk s = f.dev.disk s

theorem BitmapTwin.refl (f : Fs) : BitmapTwin f f := ⟨SameGeometry.refl f, rfl, fun _ _ => rfl⟩

section

variable {g : Fs}

theorem Laid.not_inBitmap_zero (h : Laid f) : ¬f.super.inBitmap 0 := by
  have h1 := h.superOk.bitmapPos
  rintro ⟨h2, -⟩
  omega

variable {k : Nat}

theorem Laid.not_inBitmap_slot (h : Laid f) {o : Nat} (hloc : inodeLocation f k = .ok (s, o)) :
    ¬f.super.inBitmap s := by
  rw [h.inodeLocation_eq] at hloc
  split_ifs at hloc with hrange ho
  have hlt := h.slot_lt (k := k) (by omega) (by omega)
  rw [Except.ok.inj hloc] at hlt
  rintro ⟨h1, -⟩
  exact absurd h1 (Nat.not_le.2 hlt)

theorem BitmapTwin.laid (h : Laid f) (ht : BitmapTwin f g) : Laid g := by
  have h0 : g.dev.disk 0 = f.dev.disk 0 := ht.disk 0 h.not_inBitmap_zero
  have hss := ht.geometry.sectorSize
  have hcount := ht.geometry.sectorCount
  refine ⟨⟨?_, ?_, ?_, ?_, ?_⟩, ?_⟩
  · rw [← ht.geometry.mounted]
    exact h.mounted
  · rw [← hss]
    exact h.on.sectorLow
  · rw [← hss]
    exact h.on.sectorHigh
  · have hcheck := h.on.check
    rw [checkSuper] at hcheck ⊢
    rw [h0, ← hss, ← hcount]
    exact hcheck
  · rw [h0, ht.super]
    exact h.on.super
  · rw [← hss, ← hcount, ht.super]
    exact h.regions

theorem live_of_readInode (h : Laid f) {i : Inode} (hread : readInode f k = .ok i)
    (hi : i.inode = k) : f.Live k := by
  have hrange : ¬(k = 0 ∨ f.super.inodeCount < k) := by
    intro hbad
    rw [readInode, h.inodeLocation_eq, if_pos hbad, h.mounted] at hread
    simp at hread
  rw [Fs.Live, inodeAt_of_ok hread]
  omega

theorem StructOk.sameReads_twin (h : Laid f) (hs : StructOk f ignore) (ht : BitmapTwin f g) :
    SameReads f g := by
  refine ht.geometry.sameReads (fun k s o hloc => (ht.disk s (h.not_inBitmap_slot hloc)).symm) ?_
  intro k i hread hi pos s hmap _
  refine (ht.disk s ?_).symm
  have hlive := live_of_readInode h hread hi
  obtain ⟨e, he, h1, h2⟩ := mem_blocks.1 (extentMap_mem hmap)
  have hin := (hs.inode hlive).2.2.inData
  rw [inodeAt_of_ok hread] at hin
  have hdata := hin e he (by omega)
  have hb := h.regions.bitmapLe
  have hj := h.regions.journalLe
  unfold InData at hdata
  rintro ⟨-, hlt⟩
  omega

end

/-! ## The loop over the bitmap sectors -/

/-- The loop of the repair, when the wanted sectors are `W` on every image with
another bitmap: outside the listed sectors nothing changes, and the listed
sectors hold the wanted bits afterwards. -/
theorem repairLoop_spec (h : Laid f)
    (hW : ∀ g, BitmapTwin f g → ∀ bs < f.super.bitmapSectors, wantSector g bs = .ok (W bs))
    (hl : ∀ bs ∈ l, bs < f.super.bitmapSectors) (hnd : l.Nodup) {g : Fs} (ht : BitmapTwin f g)
    (n : Nat) :
    ∃ g', repairLoop l n g = (.ok (n + (l.map fun bs =>
        sectorDiff f.dev.sectorSize (g.dev.disk (f.super.bitmapSector + bs)) (W bs)).sum), g') ∧
      BitmapTwin f g' ∧
      (∀ s, (∀ bs ∈ l, s ≠ f.super.bitmapSector + bs) → g'.dev.disk s = g.dev.disk s) ∧
      ∀ bs ∈ l, ∀ i < f.dev.sectorSize,
        g'.dev.disk (f.super.bitmapSector + bs) i = W bs i := by
  induction l generalizing g n with
  | nil => exact ⟨g, by simp [repairLoop], ht, fun _ _ => rfl, by simp⟩
  | cons bs l ih =>
    obtain ⟨hbs, hl'⟩ := forall_mem_cons.1 hl
    obtain ⟨hnotin, hnd'⟩ := nodup_cons.1 hnd
    have hss := ht.geometry.sectorSize
    have hlt : f.super.bitmapSector + bs < g.dev.sectorCount := by
      have h1 := h.regions.bitmapLe
      have h2 := h.regions.journalLe
      have h3 := h.superOk.dataLt
      rw [← ht.geometry.sectorCount]
      omega
    have hdiff : ∀ b ∈ l, f.super.bitmapSector + b ≠ f.super.bitmapSector + bs := by
      intro b hb he
      exact hnotin (Nat.add_left_cancel he ▸ hb)
    simp only [repairLoop, hW g ht bs hbs, ← hss, ht.super, Device.rd_of_lt hlt,
      Device.wr_of_lt hlt]
    rw [map_cons, sum_cons, ← Nat.add_assoc]
    set cur := g.dev.disk (f.super.bitmapSector + bs) with hcur
    split_ifs with hne
    · have ht₁ : BitmapTwin f { g with
          dev := g.dev.put (f.super.bitmapSector + bs) (W bs), super := f.super } := by
        refine ⟨⟨ht.geometry.mounted, ht.geometry.sectorSize, ht.geometry.sectorCount, rfl⟩,
          rfl, fun s hs => ?_⟩
        rw [← ht.disk s hs]
        refine upd_other ?_
        rintro rfl
        exact hs ⟨by omega, by omega⟩
      obtain ⟨g', hrun, ht', hout, hin⟩ := ih hl' hnd' ht₁
        (n + sectorDiff f.dev.sectorSize cur (W bs))
      refine ⟨g', ?_, ht', ?_, ?_⟩
      · rw [hrun]
        congr 3
        apply congrArg
        apply map_congr_left
        intro b hb
        rw [Device.put_disk, upd_other (hdiff b hb)]
      · intro s hs
        obtain ⟨hs1, hs2⟩ := forall_mem_cons.1 hs
        rw [hout s hs2]
        exact upd_other hs1
      intro b hb i hi
      rcases mem_cons.1 hb with rfl | hb
      · rw [hout _ fun c hc => (hdiff c hc).symm]
        exact congrFun upd_same i
      · exact hin b hb i hi
    obtain ⟨g', hrun, ht', hout, hin⟩ := ih hl' hnd' ht
      (n + sectorDiff f.dev.sectorSize cur (W bs))
    refine ⟨g', hrun, ht', ?_, ?_⟩
    · intro s hs
      exact hout s (forall_mem_cons.1 hs).2
    intro b hb i hi
    rcases mem_cons.1 hb with rfl | hb
    · rw [hout _ fun c hc => (hdiff c hc).symm]
      exact not_not.1 fun hi' => hne ⟨i, hi, hi'⟩
    · exact hin b hb i hi

/-! ## The repaired image -/

section

variable {g : Fs}

theorem BitmapTwin.wantSector (ht : BitmapTwin f g) (hr : SameReads f g) (bs : Nat) :
    wantSector g bs = wantSector f bs := by
  have hinode : wantInode g = wantInode f := by
    funext first last b k
    simp only [wantInode, hr.inode]
  simp only [Rixfs.wantSector, wantMeta, hinode, ht.super, ← ht.geometry.sectorSize]

theorem StructOk.wanted_iff (h : Laid f) (hs : StructOk f ignore)
    (hds : f.super.dataStartSector ≤ s) : f.Wanted s ↔ s ∈ f.refSectors := by
  rw [Fs.Wanted, mem_refSectors, or_iff_right (Nat.not_lt.2 hds)]
  have hsec : ∀ k, f.Live k →
      extentSectors (f.inodeAt k).extents = blocks (f.inodeAt k).extents := by
    intro k hk
    apply extentSectors_eq_blocks
    intro e he hne
    have hin := (hs.inode hk).2.2.inData e he hne
    have htot := h.total
    have hcount := h.count_lt
    unfold InData at hin
    omega
  constructor
  · rintro ⟨k, hk, hne, hmem⟩
    rw [mem_range'_1] at hk
    have hlive : f.Live k := ⟨hk.1, by omega, hne⟩
    exact ⟨k, hlive, hsec k hlive ▸ hmem⟩
  · rintro ⟨k, hk, hmem⟩
    exact ⟨k, hk.mem, hk.2.2, (hsec k hk).symm ▸ hmem⟩

theorem bitOf_of_wanted (h : Laid f) (ht : BitmapTwin f g)
    (hW : ∀ bs < f.super.bitmapSectors, wantSector f bs = .ok (W bs))
    (hbits : ∀ bs < f.super.bitmapSectors, ∀ i < f.dev.sectorSize,
      g.dev.disk (f.super.bitmapSector + bs) i = W bs i)
    (hs : s < f.dev.sectorCount) : g.bitOf s = true ↔ f.Wanted s := by
  have hss := h.sectorSize_pos
  have hbs : s / 8 / f.dev.sectorSize < f.super.bitmapSectors := by
    have hlt := h.mapped.bitmapPos_lt hs
    rw [bitmapPos] at hlt
    omega
  have hdiv := Nat.div_add_mod (s / 8) f.dev.sectorSize
  have hmod := Nat.mod_lt (s / 8) hss
  have hcomm : f.dev.sectorSize * (s / 8 / f.dev.sectorSize) =
    s / 8 / f.dev.sectorSize * f.dev.sectorSize := Nat.mul_comm _ _
  rw [← wantSector_spec (hW _ hbs) (t := s) (by omega) (by omega) (by rw [h.total]; exact hs)]
  have hbyte : (s - s / 8 / f.dev.sectorSize * f.dev.sectorSize * 8) / 8 =
      s / 8 % f.dev.sectorSize := by omega
  rw [hbyte, ← hbits _ hbs _ hmod, Fs.bitOf]
  rw [bitmapPos, ht.super, ← ht.geometry.sectorSize]

/-- An image that passes the structural checks and holds the wanted bits passes
the checker. -/
theorem StructOk.fsckMounted_twin (h : Laid f) (hs : StructOk f true) (ht : BitmapTwin f g)
    (hw : ∀ s < f.dev.sectorCount, (g.bitOf s = true ↔ f.Wanted s)) :
    ∃ r, fsckMounted g = .ok r := by
  have hr := hs.sameReads_twin h ht
  have hg := ht.laid h
  have htot := h.total
  have hcount := ht.geometry.sectorCount
  have hused : ∀ s, s < f.dev.sectorCount → (g.used s ↔ f.Wanted s) := by
    intro s hlt
    rw [Fs.used, hg.mapped.bitmapTest_eq (by omega), ← hw s hlt]
    simp
  have href : g.refSectors = f.refSectors := by
    simp only [Fs.refSectors, hr.inodeAt, hr.inodeCount]
  have hok : StructOk g false := by
    refine hr.structOk hs fun k hk s hmem => ?_
    have hin : s ∈ f.refSectors := by
      rw [← href]
      exact mem_refSectors.2 ⟨k, hk, hmem⟩
    have hb := hs.refSectors_inData hin
    exact (hused s (by omega)).2 ((hs.wanted_iff h hb.1).2 hin)
  have hds := ht.geometry.dataStartSector
  have htot' := ht.geometry.totalSectors
  refine fsckMounted_isOk.2 ⟨hok, hok.countAllocated_eq ?_ ?_ ?_⟩
  · have := h.superOk.dataLt
    omega
  · intro s _ hlt
    exact ⟨_, hg.mapped.bitmapTest_eq (by omega)⟩
  intro s hlo hlt
  rw [hused s (by omega), href]
  exact hs.wanted_iff h (by omega)

end

/-! ## The repair as a whole -/

section

variable {d : Device} (hreg : Regions d.sectorSize d.sectorCount (loadSuper (d.disk 0)))
  (hm : NoMagic (d.disk (loadSuper (d.disk 0)).journalSector))

include hreg hm

theorem laid_of_mount (h : (rixfsMount d 0).1 = 0) :
    rixfsMount d 0 = (0, mountHandle d 0) ∧ Laid (mountHandle d 0) := by
  have heq : rixfsMount d 0 = (0, (rixfsMount d 0).2) := by rw [← h]
  obtain ⟨hlow, hhigh, hcheck, -⟩ := of_rixfsMount heq
  exact ⟨rixfsMount_of_noMagic 0 hlow hhigh hcheck hm,
    mountedOn_mountHandle hlow hhigh hcheck 0, hreg⟩

theorem structOk_of_fsckRepair {n : Nat} (h : (fsckRepair d).1 = .ok n) :
    (rixfsMount d 0).1 = 0 ∧ StructOk (mountHandle d 0) true := by
  simp only [fsckRepair] at h
  split_ifs at h with h1 h2 h3 h4
  obtain ⟨hmount, -⟩ := laid_of_mount hreg hm (not_not.1 h2)
  rw [hmount] at h3
  exact ⟨not_not.1 h2, repairValidateStructure_eq_ok.1 (not_not.1 h3)⟩

/-- The repair of an image that passes the structural checks: it replaces the
bitmap sectors by the wanted ones and counts the bits in which they differ. -/
theorem fsckRepair_of_structOk (h : (rixfsMount d 0).1 = 0)
    (hs : StructOk (mountHandle d 0) true) :
    ∃ (g : Fs) (W : Nat → Buf), (∀ bs < (mountHandle d 0).super.bitmapSectors,
        wantSector (mountHandle d 0) bs = .ok (W bs)) ∧
      fsckRepair d = (.ok ((range (mountHandle d 0).super.bitmapSectors).map fun bs =>
        sectorDiff d.sectorSize (d.disk ((mountHandle d 0).super.bitmapSector + bs)) (W bs)).sum,
        g.dev.flush) ∧
      BitmapTwin (mountHandle d 0) g ∧
      ∀ bs < (mountHandle d 0).super.bitmapSectors, ∀ i < d.sectorSize,
        g.dev.disk ((mountHandle d 0).super.bitmapSector + bs) i = W bs i := by
  obtain ⟨hmount, hl⟩ := laid_of_mount hreg hm h
  set f := mountHandle d 0 with hf
  have hread : ∀ k ∈ range' 1 f.super.inodeCount, ∃ i, readInode f k = .ok i := by
    intro k hk
    obtain ⟨i, hi, -⟩ := hs.slots k hk
    exact ⟨i, hi⟩
  choose W hW using wantSector_isOk hread
  have hWtwin : ∀ g, BitmapTwin f g → ∀ bs < f.super.bitmapSectors,
      wantSector g bs = .ok (W bs) := by
    intro g ht bs _
    rw [ht.wantSector (hs.sameReads_twin hl ht), hW]
  obtain ⟨g, hloop, ht, -, hbits⟩ := repairLoop_spec hl hWtwin
    (l := range f.super.bitmapSectors) (fun bs hbs => mem_range.1 hbs)
    nodup_range (BitmapTwin.refl f) 0
  refine ⟨g, W, fun bs _ => hW bs, ?_, ht, fun bs hbs i hi =>
    hbits bs (mem_range.2 hbs) i hi⟩
  have hlow : 512 ≤ d.sectorSize := hl.on.sectorLow
  have hhigh : d.sectorSize ≤ 4096 := hl.on.sectorHigh
  have hpos := hl.superOk.bitmapSectorsPos
  have hbytes : u64 (f.super.bitmapSectors * d.sectorSize) = f.super.bitmapSectors * d.sectorSize :=
    Nat.mod_eq_of_lt hl.regions.bytes
  have hcov : f.super.totalSectors ≤ f.super.bitmapSectors * d.sectorSize * 8 := by
    rw [hl.total]
    exact hl.regions.covers
  have hvalid := repairValidateStructure_eq_ok.2 hs
  simp only [fsckRepair, hmount, hvalid, hbytes]
  rw [if_neg (by omega), if_neg (by simp), if_neg (by simp), if_neg (by omega), hloop]
  rw [Nat.zero_add]
  rfl

end

theorem sectorDiff_eq_zero {ss : Nat} {x y : Buf} (h : ∀ i < ss, x i = y i) :
    sectorDiff ss x y = 0 := by
  apply sum_eq_zero
  simp only [mem_map, mem_range, forall_exists_index, and_imp]
  rintro n i hi rfl
  simp [h i hi, bitDiff]

/-- A device that differs from `d` in its bitmap only. -/
structure SameOutsideBitmap (d e : Device) : Prop where
  sectorSize : e.sectorSize = d.sectorSize
  sectorCount : e.sectorCount = d.sectorCount
  disk : ∀ s, ¬(loadSuper (d.disk 0)).inBitmap s → e.disk s = d.disk s

section

variable {d e : Device} (hreg : Regions d.sectorSize d.sectorCount (loadSuper (d.disk 0)))
  (hm : NoMagic (d.disk (loadSuper (d.disk 0)).journalSector)) (hs : SameOutsideBitmap d e)

include hreg hs

namespace SameOutsideBitmap

theorem disk_zero : e.disk 0 = d.disk 0 := by
  have h1 := hreg.tablePos
  have h2 := hreg.tableLe
  exact hs.disk 0 fun h => absurd (Nat.le_trans (Nat.le_add_right _ _) (Nat.le_trans h2 h.1))
    (Nat.not_le.2 h1)

theorem regions : Regions e.sectorSize e.sectorCount (loadSuper (e.disk 0)) := by
  rw [hs.disk_zero hreg, hs.sectorSize, hs.sectorCount]
  exact hreg

theorem twin : BitmapTwin (mountHandle d 0) (mountHandle e 0) := by
  have hsuper : (mountHandle e 0).super = (mountHandle d 0).super :=
    congrArg loadSuper (hs.disk_zero hreg)
  exact ⟨⟨rfl, hs.sectorSize.symm, hs.sectorCount.symm, by rw [hsuper]⟩, hsuper, hs.disk⟩

theorem symm : SameOutsideBitmap e d := by
  refine ⟨hs.sectorSize.symm, hs.sectorCount.symm, fun s h => ?_⟩
  rw [hs.disk_zero hreg] at h
  exact (hs.disk s h).symm

include hm

theorem noMagic : NoMagic (e.disk (loadSuper (e.disk 0)).journalSector) := by
  have h1 := hreg.bitmapLe
  rw [hs.disk_zero hreg, hs.disk _ fun h => by have h2 := h.2; omega]
  exact hm

theorem mount (h : (rixfsMount d 0).1 = 0) : (rixfsMount e 0).1 = 0 := by
  have heq : rixfsMount d 0 = (0, (rixfsMount d 0).2) := by rw [← h]
  obtain ⟨hlow, hhigh, hcheck, -⟩ := of_rixfsMount heq
  have hcheck' : checkSuper e (e.disk 0) = 0 := by
    rw [hs.disk_zero hreg]
    rw [checkSuper] at hcheck ⊢
    rw [hs.sectorSize, hs.sectorCount]
    exact hcheck
  rw [rixfsMount_of_noMagic 0 (by rw [hs.sectorSize]; exact hlow) (by rw [hs.sectorSize]; exact hhigh)
    hcheck' (hs.noMagic hreg hm)]

theorem structOk (h : (rixfsMount d 0).1 = 0)
    (hok : StructOk (mountHandle d 0) ignore) : StructOk (mountHandle e 0) true := by
  obtain ⟨-, hl⟩ := laid_of_mount hreg hm h
  exact (hok.sameReads_twin hl (hs.twin hreg)).structOk hok fun k _ s _ => rfl

end SameOutsideBitmap

end

theorem structOk_of_fsck {d : Device} (hreg : Regions d.sectorSize d.sectorCount (loadSuper (d.disk 0)))
    (hm : NoMagic (d.disk (loadSuper (d.disk 0)).journalSector)) {r : Nat × Nat}
    (h : (fsck d).1 = .ok r) :
    (rixfsMount d 0).1 = 0 ∧ StructOk (mountHandle d 0) false := by
  obtain ⟨heq, hok⟩ := mount_of_fsck h
  have hmount : (rixfsMount d 0).1 = 0 := by rw [heq]
  rw [(laid_of_mount hreg hm hmount).1] at hok
  exact ⟨hmount, (fsckMounted_isOk.1 ⟨r, hok⟩).1⟩

/-- The repair is sound, complete and idempotent: if it returns zero, the image
passes the checker, nothing but the bitmap has changed and a second repair finds
nothing to change; and it returns zero whenever some bitmap would make the image
pass the checker. -/
theorem fsckRepair_correct (d : Device)
    (hreg : Regions d.sectorSize d.sectorCount (loadSuper (d.disk 0)))
    (hm : NoMagic (d.disk (loadSuper (d.disk 0)).journalSector))
    (_hcount : (loadSuper (d.disk 0)).inodeCount ≤ 65535) :
    (∀ n, (fsckRepair d).1 = .ok n →
      (∃ r, (fsck (fsckRepair d).2).1 = .ok r) ∧ SameOutsideBitmap d (fsckRepair d).2 ∧
      (fsckRepair (fsckRepair d).2).1 = .ok 0) ∧
    ((∃ e, SameOutsideBitmap d e ∧ ∃ r, (fsck e).1 = .ok r) → ∃ n, (fsckRepair d).1 = .ok n) := by
  constructor
  · intro n hn
    obtain ⟨hmount, hs⟩ := structOk_of_fsckRepair hreg hm hn
    obtain ⟨-, hl⟩ := laid_of_mount hreg hm hmount
    obtain ⟨g, W, hW, hrun, ht, hbits⟩ := fsckRepair_of_structOk hreg hm hmount hs
    have hsame : SameOutsideBitmap d g.dev.flush :=
      ⟨ht.geometry.sectorSize.symm, ht.geometry.sectorCount.symm, ht.disk⟩
    rw [hrun]
    have ht' := hsame.twin hreg
    have hreg' := hsame.regions hreg
    have hm' := hsame.noMagic hreg hm
    have hmount' := hsame.mount hreg hm hmount
    obtain ⟨hmount₂, hl'⟩ := laid_of_mount hreg' hm' hmount'
    have hs' := hsame.structOk hreg hm hmount hs
    refine ⟨?_, hsame, ?_⟩
    · obtain ⟨r, hr⟩ := hs.fsckMounted_twin hl ht' fun s hlt => bitOf_of_wanted hl ht' hW hbits hlt
      exact ⟨r, by rw [fsck_of_mount hmount₂, hr]⟩
    obtain ⟨g₂, W₂, hW₂, hrun₂, -, -⟩ := fsckRepair_of_structOk hreg' hm' hmount' hs'
    rw [hrun₂]
    refine congrArg Except.ok (sum_eq_zero ?_)
    simp only [mem_map, mem_range, forall_exists_index, and_imp]
    rintro m bs hbs rfl
    have hbs' : bs < (mountHandle d 0).super.bitmapSectors := by
      rw [← ht'.super]
      exact hbs
    have hWeq : W₂ bs = W bs := by
      have hw := hW₂ bs hbs
      rw [ht'.wantSector (hs.sameReads_twin hl ht'), hW bs hbs'] at hw
      exact (Except.ok.inj hw).symm
    rw [hWeq, ht'.super]
    refine sectorDiff_eq_zero fun i hi => hbits bs hbs' i ?_
    rw [← hsame.sectorSize]
    exact hi
  rintro ⟨e, hsame, r, hr⟩
  have hreg' := hsame.regions hreg
  have hm' := hsame.noMagic hreg hm
  obtain ⟨hmount', hs'⟩ := structOk_of_fsck hreg' hm' hr
  have hback := hsame.symm hreg
  have hmount := hback.mount hreg' hm' hmount'
  obtain ⟨g, W, -, hrun, -, -⟩ := fsckRepair_of_structOk hreg hm hmount
    (hback.structOk hreg' hm' hmount' hs')
  exact ⟨_, by rw [hrun]⟩

def lostBitmap : Device :=
  let image := namedImage dirTypeFile (namedInode ifreg 300)
  { image with disk := upd image.disk 3 zeroBuf }

theorem fsckRepair_correct_lostBitmap :
    ∃ n, (fsckRepair lostBitmap).1 = .ok n ∧ ∃ r, (fsck (fsckRepair lostBitmap).2).1 = .ok r := by
  have hload : loadSuper (lostBitmap.disk 0) = formatSuper 512 128 8 :=
    (loadSuper_storeSuper _).trans formatGeometry_fresh.wrap_eq
  have hsame : SameOutsideBitmap lostBitmap (namedImage dirTypeFile (namedInode ifreg 300)) := by
    refine ⟨rfl, rfl, fun s hs => (upd_other ?_).symm⟩
    rintro rfl
    rw [hload] at hs
    exact hs ⟨by decide, by decide⟩
  obtain ⟨hsound, hcomplete⟩ := fsckRepair_correct lostBitmap
    (by rw [hload]; exact regions_formatSuper formatGeometry_fresh)
    (by rw [hload]; exact noMagic_zeroBuf) (by rw [hload]; decide)
  obtain ⟨n, hn⟩ := hcomplete ⟨_, hsame, _, fsck_namedImage⟩
  exact ⟨n, hn, (hsound n hn).1⟩

end RixuriOS.Rixfs
