import RixuriOS.Rixfs.Journal

/-!
# A journaled write survives a crash

`journalWrite` issues four writes, each made durable before the next. The state
it leaves is `Fs.jw`, and a crash inside it leaves one of the five disks between
its flushes (`crash_jw`). The mount code redoes the record from the two of them
that carry the committed header and leaves the other three alone, so that the
target sector holds its old or its new bytes afterwards.
-/

namespace RixuriOS.Rixfs

open ByteCodec CrashStore ExtentList List

variable {f : Fs} {ss count : Nat} {data : Buf} {d : Disk Buf} {sb : Superblock}

def jwReqs (f : Fs) (target : Nat) (data : Buf) : List (Req Buf) :=
  let js := f.super.journalSector
  [.write (js + 1) data, .flush,
    .write js (journalHeader target (u64 (f.super.journalGeneration + 1))
      (hash64 data f.dev.sectorSize)), .flush,
    .write target data, .flush, .write js zeroBuf, .flush]

def Fs.jw (f : Fs) (target : Nat) (data : Buf) : Fs :=
  { f with
    dev := { f.dev with
      disk := applyReqs f.dev.disk (jwReqs f target data)
      log := f.dev.log ++ jwReqs f target data }
    super := { f.super with journalGeneration := u64 (f.super.journalGeneration + 1) } }

structure JournalReady (f : Fs) (target : Nat) : Prop where
  mounted : f.mounted = true
  total : f.super.totalSectors = f.dev.sectorCount
  two : 2 ≤ f.super.journalSectors
  inside : f.super.journalSector + 1 < f.dev.sectorCount
  targetLt : target < f.dev.sectorCount
  notHeader : target ≠ f.super.journalSector
  notPayload : target ≠ f.super.journalSector + 1

variable {target : Nat}

theorem journalWrite_eq (h : JournalReady f target) (data : Buf) :
    journalWrite f target data = (0, f.jw target data) := by
  obtain ⟨hm, htot, htwo, hin, ht, hh, hp⟩ := h
  have hjs : f.super.journalSector < f.dev.sectorCount := by omega
  have hgo : ¬(f.mounted = false ∨ f.super.journalSectors < 2 ∨ f.super.totalSectors ≤ target ∨
      target = f.super.journalSector ∨ target = f.super.journalSector + 1) := by
    rw [hm, Bool.true_eq_false, false_or]
    omega
  rw [journalWrite, if_neg hgo]
  rw [Device.wr_of_lt hin]
  dsimp only
  rw [Device.wr_of_lt (by exact hjs)]
  dsimp only
  rw [Device.wr_of_lt (by exact ht)]
  dsimp only
  rw [Device.wr_of_lt (by exact hjs)]
  simp [Fs.jw, jwReqs, applyReqs, Device.put, Device.flush]

theorem MountedOn.journalReady (h : MountedOn f) (ht : target < f.dev.sectorCount)
    (hj : ¬f.super.inJournal target) : JournalReady f target := by
  have hok := h.superOk
  have h1 := hok.journalTwo
  have h2 := hok.journalLe
  have h3 := hok.dataLt
  rw [Superblock.inJournal, not_and, Nat.not_lt] at hj
  refine ⟨h.mounted, hok.totalSectors, h1, by omega, ht, ?_, ?_⟩ <;> intro he <;> omega

theorem journalWrite_of_ge (h : MountedOn f) (ht : f.dev.sectorCount ≤ target) (data : Buf) :
    journalWrite f target data = (-1, f) := by
  have htot := h.superOk.totalSectors
  exact if_pos (Or.inr (Or.inr (Or.inl (by omega))))

/-! ## The disks between the flushes -/

theorem crash_jw (h : Crash f.dev.disk [] (jwReqs f target data) d) :
    let js := f.super.journalSector
    let hdr := journalHeader target (u64 (f.super.journalGeneration + 1))
      (hash64 data f.dev.sectorSize)
    let d₁ := upd f.dev.disk (js + 1) data
    let d₂ := upd d₁ js hdr
    let d₃ := upd d₂ target data
    d = f.dev.disk ∨ d = d₁ ∨ d = d₂ ∨ d = d₃ ∨ d = upd d₃ js zeroBuf := by
  intro js hdr d₁ d₂ d₃
  rcases Crash.write_flush h with rfl | h
  · exact Or.inl rfl
  rcases Crash.write_flush h with rfl | h
  · exact Or.inr (Or.inl rfl)
  rcases Crash.write_flush h with rfl | h
  · exact Or.inr (Or.inr (Or.inl rfl))
  rcases Crash.write_flush h with rfl | h
  · exact Or.inr (Or.inr (Or.inr (Or.inl rfl)))
  obtain ⟨sub, hsub, rfl⟩ := Crash.of_nil h
  rw [sublist_nil] at hsub
  subst hsub
  exact Or.inr (Or.inr (Or.inr (Or.inr rfl)))

theorem settle_jw (f : Fs) (target : Nat) (data : Buf) :
    settle f.dev.disk [] (jwReqs f target data) = ((f.jw target data).dev.disk, []) := rfl

/-! ## Reading a committed header -/

section

variable (target seq sum : Nat)

theorem journalHeader_magic : load (journalHeader target seq sum) 0 8 = journalMagic := by
  rw [journalHeader]
  rw [load_store_disjoint _ _ (by omega), load_store_disjoint _ _ (by omega),
    load_store_disjoint _ _ (by omega), load_store_same]
  decide

theorem journalHeader_target (ht : target < 2 ^ 64) :
    load (journalHeader target seq sum) 8 8 = target := by
  rw [journalHeader]
  rw [load_store_disjoint _ _ (by omega), load_store_disjoint _ _ (by omega), load_store_same]
  exact Nat.mod_eq_of_lt ht

theorem journalHeader_seq (hs : seq < 2 ^ 64) : load (journalHeader target seq sum) 16 8 = seq := by
  rw [journalHeader]
  rw [load_store_disjoint _ _ (by omega), load_store_same]
  exact Nat.mod_eq_of_lt hs

theorem journalHeader_sum (hs : sum < 2 ^ 64) : load (journalHeader target seq sum) 32 8 = sum := by
  rw [journalHeader]
  rw [load_store_same]
  exact Nat.mod_eq_of_lt hs

end

/-- The replay of a committed single sector record writes the payload to the
target and clears the header. A sequence number of zero is refused. -/
theorem journalReplay_of_header (target seq : Nat) (data : Buf)
    (hok : SuperOk f.dev.sectorSize f.dev.sectorCount f.super) (ht : target < f.dev.sectorCount)
    (ht64 : target < 2 ^ 64) (hj : ¬f.super.inJournal target) (hseq : seq < 2 ^ 64)
    (hhdr : f.dev.disk f.super.journalSector = journalHeader target seq (hash64 data f.dev.sectorSize))
    (hdata : f.dev.disk (f.super.journalSector + 1) = data) :
    if seq = 0 then (journalReplay f).1 ≠ 0
    else (journalReplay f).1 = 0 ∧ (journalReplay f).2.super = f.super ∧
      (journalReplay f).2.mounted = f.mounted ∧
      (journalReplay f).2.dev.disk =
        upd (upd f.dev.disk target data) f.super.journalSector zeroBuf := by
  have h1 := hok.journalLe
  have h2 := hok.dataLt
  have h3 := hok.totalSectors
  have h4 := hok.journalTwo
  have hrd : f.dev.rd f.super.journalSector = some (f.dev.disk f.super.journalSector) :=
    if_pos (by omega)
  have hrd' : f.dev.rd (f.super.journalSector + 1) = some data := by
    rw [← hdata]
    exact if_pos (by omega)
  have hsum := hash64_lt data f.dev.sectorSize
  have hreplay : journalReplay f = replaySector f (f.dev.disk f.super.journalSector) := by
    rw [journalReplay]
    rw [if_neg (by omega), if_neg (by omega), hrd]
    simp only [hhdr, journalHeader_magic]
    rw [if_neg (by decide), if_neg (by simp)]
  rw [hreplay, hhdr]
  simp only [replaySector, journalHeader_target _ _ _ ht64, journalHeader_seq _ _ _ hseq,
    journalHeader_sum _ _ _ hsum, hrd', Device.wr_of_lt ht]
  by_cases hz : seq = 0
  · rw [if_pos hz, if_pos (Or.inl hz)]
    simp
  have hgood : ¬(seq = 0 ∨ f.super.totalSectors ≤ target ∨ f.super.inJournal target) := by
    rintro (hbad | hbad | hbad)
    · exact hz hbad
    · omega
    · exact hj hbad
  have hin : f.super.journalSector < f.dev.sectorCount := by omega
  rw [if_neg hz, if_neg hgood, retireHeader_of_lt (by exact hin)]
  simp

/-! ## The crash theorem -/

/-- Two disks agree on every sector outside the journal region of `sb`. -/
def SameOutside (sb : Superblock) (d d' : Disk Buf) : Prop := ∀ s, ¬sb.inJournal s → d s = d' s

theorem SameOutside.trans {d₁ d₂ d₃ : Disk Buf} (h : SameOutside sb d₁ d₂)
    (h' : SameOutside sb d₂ d₃) : SameOutside sb d₁ d₃ :=
  fun s hs => (h s hs).trans (h' s hs)

theorem sameOutside_upd {s : Nat} (hs : sb.inJournal s) (b : Buf) :
    SameOutside sb (upd d s b) d := by
  intro t ht
  apply upd_other
  rintro rfl
  exact ht hs

theorem SameOutside.upd {d' : Disk Buf} (h : SameOutside sb d d') (s : Nat) (b : Buf) :
    SameOutside sb (upd d s b) (CrashStore.upd d' s b) := by
  intro t ht
  by_cases hts : t = s
  · rw [hts, upd_same, upd_same]
  · rw [upd_other hts, upd_other hts, h t ht]

theorem SuperOk.inJournal_header (h : SuperOk ss count sb) : sb.inJournal sb.journalSector := by
  have := h.journalTwo
  exact ⟨le_rfl, by omega⟩

theorem SuperOk.inJournal_payload (h : SuperOk ss count sb) :
    sb.inJournal (sb.journalSector + 1) := by
  have := h.journalTwo
  exact ⟨by omega, by omega⟩

theorem SuperOk.not_inJournal_zero (h : SuperOk ss count sb) : ¬sb.inJournal 0 := by
  have h1 := h.journalGe
  have h2 := h.bitmapPos
  rintro ⟨h3, -⟩
  omega

def Fs.restart (f : Fs) (d : Disk Buf) : Device := { f.dev with disk := d, log := [] }

theorem mount_restart (h : MountedOn f) (h0 : d 0 = f.dev.disk 0) (metaHint : Nat) :
    rixfsMount (f.restart d) metaHint =
      (let r := journalReplay (mountHandle (f.restart d) metaHint)
      if r.1 ≠ 0 then (-9, unmount r.2) else (0, r.2)) ∧
    (mountHandle (f.restart d) metaHint).super = loadSuper (f.dev.disk 0) ∧
    (∀ t, (loadSuper (f.dev.disk 0)).inJournal t ↔ f.super.inJournal t) ∧
    (loadSuper (f.dev.disk 0)).journalSector = f.super.journalSector ∧
    SuperOk f.dev.sectorSize f.dev.sectorCount (loadSuper (f.dev.disk 0)) := by
  have hcheck : checkSuper (f.restart d) ((f.restart d).disk 0) = 0 := by
    change checkSuper (f.restart d) (d 0) = 0
    rw [h0]
    exact h.check
  refine ⟨rixfsMount_of_check metaHint h.sectorLow h.sectorHigh hcheck, ?_, ?_, ?_,
    superOk_of_check h.check⟩
  · change loadSuper (d 0) = _
    rw [h0]
  · intro t
    rw [h.super]
    exact Iff.rfl
  · rw [h.super]

/-- A restart whose header sector carries no magic keeps the disk. -/
theorem mount_restart_noMagic (h : MountedOn f) (h0 : d 0 = f.dev.disk 0)
    (hm : NoMagic (d f.super.journalSector)) (metaHint : Nat) :
    ∃ f', rixfsMount (f.restart d) metaHint = (0, f') ∧ f'.dev.disk = d := by
  obtain ⟨hmount, hsuper, -, hjs, hok⟩ := mount_restart h h0 metaHint
  have hreplay : journalReplay (mountHandle (f.restart d) metaHint) =
      (0, mountHandle (f.restart d) metaHint) := by
    apply journalReplay_of_noMagic
    · rw [hsuper]
      exact hok
    · rw [hsuper, hjs]
      exact hm
  refine ⟨mountHandle (f.restart d) metaHint, ?_, rfl⟩
  rw [hmount, hreplay]
  simp

/-- A restart that finds the committed record of a journaled write redoes it,
unless its sequence number is zero. -/
theorem mount_restart_header (h : MountedOn f) {seq : Nat} (ht : target < f.dev.sectorCount)
    (hj : ¬f.super.inJournal target) (hseq : seq < 2 ^ 64) (h0 : d 0 = f.dev.disk 0)
    (hhdr : d f.super.journalSector = journalHeader target seq (hash64 data f.dev.sectorSize))
    (hdata : d (f.super.journalSector + 1) = data) (metaHint : Nat) :
    if seq = 0 then (rixfsMount (f.restart d) metaHint).1 ≠ 0
    else ∃ f', rixfsMount (f.restart d) metaHint = (0, f') ∧
      f'.dev.disk = upd (upd d target data) f.super.journalSector zeroBuf := by
  obtain ⟨hmount, hsuper, hin, hjs, hok⟩ := mount_restart h h0 metaHint
  have ht64 : target < 2 ^ 64 := by
    have htot : (loadSuper (f.dev.disk 0)).totalSectors < 256 ^ 8 := load_lt _ _ _
    rw [hok.totalSectors] at htot
    exact lt_trans ht htot
  have hreplay := journalReplay_of_header (f := mountHandle (f.restart d) metaHint) target seq data
    (by rw [hsuper]; exact hok) ht ht64
    (by rw [hsuper, hin]; exact hj) hseq (by rw [hsuper, hjs]; exact hhdr)
    (by rw [hsuper, hjs]; exact hdata)
  rw [hmount]
  split_ifs at hreplay ⊢ with hz
  · simp [hreplay]
  obtain ⟨hrc, -, -, hdisk⟩ := hreplay
  refine ⟨_, by simp [hrc]; rfl, ?_⟩
  rw [hdisk, hsuper, hjs]
  rfl

/-- The sectors outside the journal after a crash inside a journaled write and
a restart: as before the write, or with the target rewritten. The mount fails
only on a sequence number that has wrapped to zero. -/
theorem mount_crash_jw (h : MountedOn f) (hm : NoMagic (f.dev.disk f.super.journalSector))
    (ht : target < f.dev.sectorCount) (ht0 : target ≠ 0) (hj : ¬f.super.inJournal target)
    (hc : Crash f.dev.disk [] (jwReqs f target data) d) (metaHint : Nat) :
    (u64 (f.super.journalGeneration + 1) = 0 ∧ (rixfsMount (f.restart d) metaHint).1 ≠ 0) ∨
    ∃ f', rixfsMount (f.restart d) metaHint = (0, f') ∧
      (SameOutside f.super f'.dev.disk f.dev.disk ∨
        SameOutside f.super f'.dev.disk (upd f.dev.disk target data)) := by
  have hok := h.superOk
  have hhead := hok.inJournal_header
  have hpay := hok.inJournal_payload
  have hz := hok.not_inJournal_zero
  have hth : f.super.journalSector ≠ target := fun he => hj (he ▸ hhead)
  have htp : f.super.journalSector + 1 ≠ target := fun he => hj (he ▸ hpay)
  have hhp : f.super.journalSector ≠ f.super.journalSector + 1 := by omega
  have hseq : u64 (f.super.journalGeneration + 1) < 2 ^ 64 := Nat.mod_lt _ (by decide)
  set hdr := journalHeader target (u64 (f.super.journalGeneration + 1))
    (hash64 data f.dev.sectorSize) with hhdr
  -- a disk that only differs in the journal is left alone
  have hkeep : ∀ {e : Disk Buf} (d₀ : Disk Buf), d₀ 0 = f.dev.disk 0 → SameOutside f.super e d₀ →
      NoMagic (e f.super.journalSector) → ∃ f', rixfsMount (f.restart e) metaHint = (0, f') ∧
        SameOutside f.super f'.dev.disk d₀ := by
    intro e d₀ h0 hsame hmagic
    obtain ⟨f', hmount, hdisk⟩ :=
      mount_restart_noMagic h ((hsame 0 hz).trans h0) hmagic metaHint
    exact ⟨f', hmount, by rw [hdisk]; exact hsame⟩
  -- a disk with the committed record is rolled forward, with or without the target
  have hredo : ∀ e : Disk Buf, e 0 = f.dev.disk 0 → e f.super.journalSector = hdr →
      e (f.super.journalSector + 1) = data →
      SameOutside f.super (upd e target data) (upd f.dev.disk target data) →
      (u64 (f.super.journalGeneration + 1) = 0 ∧ (rixfsMount (f.restart e) metaHint).1 ≠ 0) ∨
      ∃ f', rixfsMount (f.restart e) metaHint = (0, f') ∧
        (SameOutside f.super f'.dev.disk f.dev.disk ∨
          SameOutside f.super f'.dev.disk (upd f.dev.disk target data)) := by
    intro e h0 hhead' hdata hsame
    have hr := mount_restart_header h ht hj hseq h0 hhead' hdata metaHint
    split_ifs at hr with hs
    · exact Or.inl ⟨hs, hr⟩
    obtain ⟨f', hmount, hdisk⟩ := hr
    refine Or.inr ⟨f', hmount, Or.inr ?_⟩
    rw [hdisk]
    exact (sameOutside_upd hhead _).trans hsame
  set d₁ := upd f.dev.disk (f.super.journalSector + 1) data with hd₁
  set d₂ := upd d₁ f.super.journalSector hdr with hd₂
  set d₃ := upd d₂ target data with hd₃
  have hsame₁ : SameOutside f.super d₁ f.dev.disk := sameOutside_upd hpay _
  have hsame₂ : SameOutside f.super d₂ f.dev.disk := (sameOutside_upd hhead _).trans hsame₁
  have hsame₃ : SameOutside f.super d₃ (upd f.dev.disk target data) := hsame₂.upd _ _
  have h0t : upd f.dev.disk target data 0 = f.dev.disk 0 := upd_other (Ne.symm ht0)
  have hhead₂ : d₂ f.super.journalSector = hdr := upd_same
  have hpay₂ : d₂ (f.super.journalSector + 1) = data :=
    (upd_other (Ne.symm hhp)).trans upd_same
  rcases crash_jw hc with rfl | rfl | rfl | rfl | rfl
  · obtain ⟨f', hmount, hsame⟩ := hkeep f.dev.disk rfl (fun _ _ => rfl) hm
    exact Or.inr ⟨f', hmount, Or.inl hsame⟩
  · have hmagic : NoMagic (d₁ f.super.journalSector) := by
      rw [hd₁, upd_other hhp]
      exact hm
    obtain ⟨f', hmount, hsame⟩ := hkeep f.dev.disk rfl hsame₁ hmagic
    exact Or.inr ⟨f', hmount, Or.inl hsame⟩
  · exact hredo d₂ (hsame₂ 0 hz) hhead₂ hpay₂ (hsame₂.upd _ _)
  · refine hredo d₃ ((hsame₃ 0 hz).trans h0t) ((upd_other hth).trans hhead₂)
      ((upd_other htp).trans hpay₂) ?_
    intro s hs
    by_cases hst : s = target
    · rw [hst, upd_same, upd_same]
    · rw [upd_other hst]
      exact hsame₃ s hs
  have hmagic : NoMagic (upd d₃ f.super.journalSector zeroBuf f.super.journalSector) := by
    rw [upd_same]
    exact noMagic_zeroBuf
  obtain ⟨f', hmount, hsame⟩ := hkeep _ h0t ((sameOutside_upd hhead _).trans hsame₃) hmagic
  exact Or.inr ⟨f', hmount, Or.inr hsame⟩

/-- The requests that the device completed between `f` and a later state. -/
def Fs.issued (f f' : Fs) : List (Req Buf) := f'.dev.log.drop f.dev.log.length

theorem issued_journalWrite (h : JournalReady f target) (data : Buf) :
    f.issued (journalWrite f target data).2 = jwReqs f target data := by
  rw [journalWrite_eq h]
  exact drop_left

theorem target_of_sameOutside {d' : Disk Buf} (hj : ¬sb.inJournal target)
    (h : SameOutside sb d' (upd d target data)) :
    d' target = data ∧ ∀ s, s ≠ target → ¬sb.inJournal s → d' s = d s :=
  ⟨(h target hj).trans upd_same, fun s hs hsj => (h s hsj).trans (upd_other hs)⟩

/-- A crash at any point of a journaled write is repaired by the next mount: the
target holds its old or its new bytes, the new ones if the write had returned
zero, and nothing else outside the journal has changed. -/
theorem journalWrite_crash_atomic {f : Fs} (h : MountedOn f)
    (hm : NoMagic (f.dev.disk f.super.journalSector))
    (hgen : f.super.journalGeneration < 2 ^ 64 - 1) (target : Nat) (ht0 : target ≠ 0)
    (hj : ¬f.super.inJournal target) (data : Buf) (metaHint : Nat) :
    let r := journalWrite f target data
    let reqs := f.issued r.2
    (∀ d, Crash f.dev.disk [] reqs d → ∃ f', rixfsMount (f.restart d) metaHint = (0, f') ∧
      (f'.dev.disk target = f.dev.disk target ∨ f'.dev.disk target = data) ∧
      ∀ s, s ≠ target → ¬f.super.inJournal s → f'.dev.disk s = f.dev.disk s) ∧
    (r.1 = 0 → ∀ d, Crash (settle f.dev.disk [] reqs).1 (settle f.dev.disk [] reqs).2 [] d →
      ∃ f', rixfsMount (f.restart d) metaHint = (0, f') ∧ f'.dev.disk target = data ∧
        ∀ s, s ≠ target → ¬f.super.inJournal s → f'.dev.disk s = f.dev.disk s) := by
  intro r reqs
  have hz := h.superOk.not_inJournal_zero
  by_cases ht : target < f.dev.sectorCount
  · have hready := h.journalReady ht hj
    have hreqs : reqs = jwReqs f target data := issued_journalWrite hready data
    have hseq : u64 (f.super.journalGeneration + 1) ≠ 0 := by
      rw [u64, Nat.mod_eq_of_lt (by omega)]
      omega
    rw [hreqs]
    constructor
    · intro d hc
      rcases mount_crash_jw h hm ht ht0 hj hc metaHint with ⟨hs, -⟩ | ⟨f', hmount, hsame | hsame⟩
      · exact absurd hs hseq
      · exact ⟨f', hmount, Or.inl (hsame target hj), fun s _ hs => hsame s hs⟩
      · obtain ⟨htarget, hother⟩ := target_of_sameOutside hj hsame
        exact ⟨f', hmount, Or.inr htarget, hother⟩
    intro _ d hc
    rw [settle_jw] at hc
    obtain ⟨sub, hsub, rfl⟩ := Crash.of_nil hc
    rw [sublist_nil] at hsub
    subst hsub
    have hjw : SameOutside f.super (f.jw target data).dev.disk (upd f.dev.disk target data) := by
      refine (sameOutside_upd h.superOk.inJournal_header _).trans (SameOutside.upd ?_ _ _)
      exact (sameOutside_upd h.superOk.inJournal_header _).trans
        (sameOutside_upd h.superOk.inJournal_payload _)
    obtain ⟨f', hmount, hdisk⟩ := mount_restart_noMagic h
      ((hjw 0 hz).trans (upd_other (Ne.symm ht0))) (by
        rw [show (f.jw target data).dev.disk f.super.journalSector = zeroBuf from upd_same]
        exact noMagic_zeroBuf) metaHint
    refine ⟨f', hmount, ?_⟩
    rw [hdisk]
    exact target_of_sameOutside hj hjw
  -- a target outside the device is refused before anything is written
  have hfail : journalWrite f target data = (-1, f) := journalWrite_of_ge h (by omega) data
  have hreqs : reqs = [] := by
    change f.issued (journalWrite f target data).2 = []
    rw [hfail]
    exact drop_length
  constructor
  · intro d hc
    rw [hreqs] at hc
    obtain ⟨sub, hsub, rfl⟩ := Crash.of_nil hc
    rw [sublist_nil] at hsub
    subst hsub
    obtain ⟨f', hmount, hdisk⟩ := mount_restart_noMagic h (d := f.dev.disk) rfl hm metaHint
    exact ⟨f', hmount, Or.inl (by rw [hdisk]), fun s _ _ => by rw [hdisk]⟩
  intro h0
  have hne : (journalWrite f target data).1 ≠ 0 := by
    rw [hfail]
    simp
  exact absurd h0 hne

def freshDevice : Device where
  sectorSize := 512
  sectorCount := 128
  disk := upd (fun _ => zeroBuf) 0 (storeSuper (formatSuper 512 128 8))
  log := []

theorem formatGeometry_fresh : FormatGeometry 512 128 8 :=
  ⟨by decide, by decide, by decide, by decide, by decide, by decide⟩

theorem freshDevice_super (metaHint : Nat) :
    (mountHandle freshDevice metaHint).super = formatSuper 512 128 8 :=
  (loadSuper_storeSuper _).trans formatGeometry_fresh.wrap_eq

theorem freshDevice_mountedOn (metaHint : Nat) : MountedOn (mountHandle freshDevice metaHint) := by
  have hdisk : freshDevice.disk 0 = storeSuper (formatSuper 512 128 8) := by
    simp only [freshDevice, upd_same]
  refine mountedOn_mountHandle (by decide) (by decide) ?_ metaHint
  rw [hdisk]
  exact checkSuper_format (d := freshDevice) formatGeometry_fresh

/-- The payload is durable and the header has reached the device when the write is cut off. -/
theorem journalWrite_crash_atomic_fresh :
    let f := mountHandle freshDevice 0
    let js := f.super.journalSector
    let header := journalHeader 40 (u64 (f.super.journalGeneration + 1))
      (hash64 (fun _ => 7) f.dev.sectorSize)
    ∃ f', rixfsMount (f.restart (upd (upd f.dev.disk (js + 1) fun _ => 7) js header)) 0 = (0, f') ∧
      (f'.dev.disk 40 = f.dev.disk 40 ∨ f'.dev.disk 40 = fun _ => 7) := by
  intro f js header
  have hsuper : f.super = formatSuper 512 128 8 := freshDevice_super 0
  have hj : ¬f.super.inJournal 40 := by
    rw [hsuper]
    decide
  have hcrash : Crash f.dev.disk [] (f.issued (journalWrite f 40 fun _ => 7).2)
      (upd (upd f.dev.disk (js + 1) fun _ => 7) js header) := by
    rw [issued_journalWrite ((freshDevice_mountedOn 0).journalReady (by decide) hj)]
    exact .write (.flush (.write (.cut (List.Sublist.refl _))))
  obtain ⟨f', hmount, htarget, -⟩ := (journalWrite_crash_atomic (freshDevice_mountedOn 0)
    (by rw [hsuper]; exact noMagic_zeroBuf) (by rw [hsuper]; decide) 40 (by decide) hj
    (fun _ => 7) 0).1 _ hcrash
  exact ⟨f', hmount, htarget⟩

end RixuriOS.Rixfs
