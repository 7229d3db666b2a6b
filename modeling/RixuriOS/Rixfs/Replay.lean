import RixuriOS.Rixfs.JournalCrash

/-!
# Replays that are cut off

`journalReplay` reads its record from the journal region and writes outside of it,
until it clears the header. So what it is going to do, its `replayPlan`, is a
function of the journal region, and a replay that is cut off before it has
cleared the header is started again with the same plan.
-/

namespace RixuriOS.Rixfs

open ByteCodec CrashStore ExtentList List

variable {l : List (Nat × Nat)} {i : Nat} {w : Nat × Buf} {f : Fs}

/-- The sectors that the redo loop writes, from the entry number `i` on, before it
ends or meets an entry that it cannot redo. -/
def redoWrites (d : Device) (js : Nat) : Nat → List (Nat × Nat) → List (Nat × Buf)
  | _, [] => []
  | i, e :: rest =>
    if js + 1 + i < d.sectorCount ∧ hash64 (d.disk (js + 1 + i)) d.sectorSize = e.2 ∧
        e.1 < d.sectorCount then
      (e.1, d.disk (js + 1 + i)) :: redoWrites d js (i + 1) rest
    else []

def TxCountBad (f : Fs) (b : Buf) : Prop :=
  load b 16 4 = 0 ∨ journalTxMaxEntries < load b 16 4 ∨ f.super.journalSectors < load b 16 4 + 1 ∨
    f.dev.sectorSize < 24 + load b 16 4 * 16

instance (f : Fs) (b : Buf) : Decidable (TxCountBad f b) :=
  inferInstanceAs (Decidable (_ ∨ _ ∨ _ ∨ _))

def TargetBad (f : Fs) (t : Nat) : Prop := f.super.totalSectors ≤ t ∨ f.super.inJournal t

instance (f : Fs) (t : Nat) : Decidable (TargetBad f t) := inferInstanceAs (Decidable (_ ∨ _))

/-- What a replay does: the code it returns, the sectors it writes, and whether it
then clears the header. -/
structure Plan where
  rc : Int
  writes : List (Nat × Buf)
  retires : Bool

def Plan.stop (rc : Int) : Plan := ⟨rc, [], false⟩

def redoPlan (d : Device) (js : Nat) (l : List (Nat × Nat)) (bad : Int) : Plan :=
  if (redoWrites d js 0 l).length = l.length then ⟨0, redoWrites d js 0 l, true⟩
  else ⟨bad, redoWrites d js 0 l, false⟩

def replayPlan (f : Fs) : Plan :=
  let js := f.super.journalSector
  let b := f.dev.disk js
  if f.super.journalSectors < 2 then .stop 0
  else if f.super.totalSectors ≤ js ∨ f.super.totalSectors - js < f.super.journalSectors then
    .stop (-1)
  else if f.dev.sectorCount ≤ js then .stop (-3)
  else if load b 0 8 = journalTxMagic then
    if TxCountBad f b then .stop (-4)
    else if ∃ e ∈ txEntries b, TargetBad f e.1 then .stop (-5)
    else redoPlan f.dev js (txEntries b) (-6)
  else if load b 0 8 ≠ journalMagic then .stop 0
  else if load b 16 8 = 0 ∨ TargetBad f (load b 8 8) then .stop (-7)
  else redoPlan f.dev js [(load b 8 8, load b 32 8)] (-8)

def planReqs (js : Nat) (p : Plan) : List (Req Buf) :=
  (p.writes.map fun w => .write w.1 w.2) ++
    if p.retires then [.flush, .write js zeroBuf, .flush] else []

def Device.after (d : Device) (reqs : List (Req Buf)) : Device :=
  { d with disk := applyReqs d.disk reqs, log := d.log ++ reqs }

theorem Device.after_sectorSize (d : Device) (reqs : List (Req Buf)) :
    (d.after reqs).sectorSize = d.sectorSize :=
  rfl

theorem Device.after_sectorCount (d : Device) (reqs : List (Req Buf)) :
    (d.after reqs).sectorCount = d.sectorCount :=
  rfl

/-! ## The replay follows its plan -/

variable {ws : List (Nat × Buf)} {d : Device} {js : Nat} {bad : Int}

section

variable {n : Nat} {d' : Device}

theorem redoWrites_congr (hcount : d'.sectorCount = d.sectorCount)
    (hsize : d'.sectorSize = d.sectorSize) (hsame : ∀ s, js ≤ s → s - js < n → d'.disk s = d.disk s)
    (hn : i + l.length + 1 ≤ n) : redoWrites d' js i l = redoWrites d js i l := by
  induction l generalizing i with
  | nil => rfl
  | cons e rest ih =>
    rw [length_cons] at hn
    simp only [redoWrites, hcount, hsize, hsame (js + 1 + i) (by omega) (by omega),
      ih (i := i + 1) (by omega)]

theorem length_redoWrites_le (d : Device) (js : Nat) (l : List (Nat × Nat)) (i : Nat) :
    (redoWrites d js i l).length ≤ l.length := by
  induction l generalizing i with
  | nil => rfl
  | cons e rest ih =>
    rw [redoWrites]
    split_ifs
    · exact Nat.succ_le_succ (ih (i + 1))
    · exact Nat.zero_le _

theorem redoWrites_target (hw : w ∈ redoWrites d js i l) : w.1 ∈ l.map Prod.fst := by
  induction l generalizing i with
  | nil => cases hw
  | cons e rest ih =>
    rw [redoWrites] at hw
    split_ifs at hw
    · rcases mem_cons.1 hw with rfl | hw
      · exact mem_cons_self
      · exact mem_cons_of_mem _ (ih hw)
    · cases hw

variable {e : Nat × Nat} {rest : List (Nat × Nat)}

theorem redoWrites_cons_of_pos (h : js + 1 + i < d.sectorCount ∧
      hash64 (d.disk (js + 1 + i)) d.sectorSize = e.2 ∧ e.1 < d.sectorCount) :
    redoWrites d js i (e :: rest) =
      (e.1, d.disk (js + 1 + i)) :: redoWrites d js (i + 1) rest := if_pos h

theorem redoWrites_cons_of_neg (h : ¬(js + 1 + i < d.sectorCount ∧
      hash64 (d.disk (js + 1 + i)) d.sectorSize = e.2 ∧ e.1 < d.sectorCount)) :
    redoWrites d js i (e :: rest) = [] := if_neg h

theorem replayEntries_eq (hl : ∀ e ∈ l, ¬(js ≤ e.1 ∧ e.1 - js < n)) (hn : i + l.length + 1 ≤ n)
    (hws : redoWrites d js i l = ws) :
    replayEntries js i l d =
      (if ws.length = l.length then 0 else -6, d.after (ws.map fun w => .write w.1 w.2)) := by
  induction l generalizing i d ws with
  | nil =>
    subst hws
    simp [replayEntries, redoWrites, Device.after, applyReqs]
  | cons e rest ih =>
    obtain ⟨he, hrest⟩ := forall_mem_cons.1 hl
    rw [length_cons] at hn
    rw [replayEntries]
    by_cases hrd : js + 1 + i < d.sectorCount
    swap
    · rw [redoWrites_cons_of_neg fun h => hrd h.1] at hws
      subst hws
      simp [Device.rd, hrd, Device.after, applyReqs]
    rw [Device.rd_of_lt hrd]
    simp only []
    by_cases hsum : hash64 (d.disk (js + 1 + i)) d.sectorSize = e.2
    swap
    · rw [redoWrites_cons_of_neg fun h => hsum h.2.1] at hws
      subst hws
      simp [hsum, Device.after, applyReqs]
    rw [if_neg (not_not.2 hsum)]
    by_cases hwr : e.1 < d.sectorCount
    swap
    · rw [redoWrites_cons_of_neg fun h => hwr h.2.2] at hws
      subst hws
      simp [Device.wr, hwr, Device.after, applyReqs]
    rw [redoWrites_cons_of_pos ⟨hrd, hsum, hwr⟩] at hws
    have hsame : redoWrites (d.put e.1 (d.disk (js + 1 + i))) js (i + 1) rest =
        redoWrites d js (i + 1) rest := by
      refine redoWrites_congr (n := n) ?_ ?_ (fun s h1 h2 => ?_) (by omega)
      · rfl
      · rfl
      refine upd_other ?_
      rintro rfl
      exact he ⟨h1, h2⟩
    rw [Device.wr_of_lt hwr]
    simp only []
    rw [ih hrest (by omega) hsame, ← hws]
    simp [Device.after, applyReqs, Device.put]

end

theorem length_txEntries (b : Buf) : (txEntries b).length = load b 16 4 := by
  rw [txEntries, length_map, length_range]

theorem journalReplay_eq_plan (f : Fs) :
    journalReplay f =
      ((replayPlan f).rc, { f with
        dev := f.dev.after (planReqs f.super.journalSector (replayPlan f)) }) := by
  have hstop : ∀ rc, (rc, f) = ((Plan.stop rc).rc,
      { f with dev := f.dev.after (planReqs f.super.journalSector (.stop rc)) }) := by
    intro rc
    simp [planReqs, Plan.stop, Device.after, applyReqs]
  rw [journalReplay, replayPlan]
  by_cases htwo : f.super.journalSectors < 2
  · rw [if_pos htwo, if_pos htwo]
    exact hstop _
  rw [if_neg htwo, if_neg htwo]
  by_cases hin : f.super.totalSectors ≤ f.super.journalSector ∨
      f.super.totalSectors - f.super.journalSector < f.super.journalSectors
  · rw [if_pos hin, if_pos hin]
    exact hstop _
  rw [if_neg hin, if_neg hin]
  by_cases hjs : f.dev.sectorCount ≤ f.super.journalSector
  · rw [Device.rd, if_neg (Nat.not_lt.2 hjs), if_pos hjs]
    exact hstop _
  rw [Device.rd_of_lt (Nat.lt_of_not_le hjs), if_neg hjs]
  simp only []
  generalize f.dev.disk f.super.journalSector = b
  have hretire : ∀ d : Device, d.sectorCount = f.dev.sectorCount →
      retireHeader d f.super.journalSector =
        (0, (d.put f.super.journalSector zeroBuf).flush) := by
    intro d hd
    exact retireHeader_of_lt (by rw [hd]; exact Nat.lt_of_not_le hjs)
  by_cases hmagic : load b 0 8 = journalTxMagic
  · rw [if_pos hmagic, if_pos hmagic]
    rw [replayTransaction]
    by_cases hcount : TxCountBad f b
    · rw [if_pos hcount, if_pos (by exact hcount)]
      exact hstop _
    rw [if_neg hcount, if_neg (by exact hcount)]
    by_cases htargets : ∃ e ∈ txEntries b, TargetBad f e.1
    · rw [if_pos htargets, if_pos (by exact htargets)]
      exact hstop _
    rw [if_neg htargets, if_neg (by exact htargets)]
    have hlen : 0 + (txEntries b).length + 1 ≤ f.super.journalSectors := by
      rw [length_txEntries]
      rw [TxCountBad, not_or] at hcount
      omega
    rw [replayEntries_eq (fun e he hbad => htargets ⟨e, he, .inr hbad⟩) hlen rfl, redoPlan]
    by_cases hall : (redoWrites f.dev f.super.journalSector 0 (txEntries b)).length =
        (txEntries b).length
    · rw [if_pos hall, if_pos hall, if_neg (by simp), hretire _ (by rfl)]
      simp [planReqs, Device.after, Device.flush, Device.put, applyReqs_append, applyReqs]
    · rw [if_neg hall, if_neg hall, if_pos (by simp)]
      simp [planReqs]
  rw [if_neg hmagic, if_neg hmagic]
  by_cases hone : load b 0 8 ≠ journalMagic
  · rw [if_pos hone, if_pos hone]
    exact hstop _
  rw [if_neg hone, if_neg hone]
  rw [replaySector]
  split
  · rename_i hhead
    rw [if_pos (by exact hhead)]
    exact hstop _
  rename_i hhead
  rw [if_neg (by exact hhead)]
  generalize hentry : (load b 8 8, load b 32 8) = e
  have htarget : load b 8 8 = e.1 := congrArg Prod.fst hentry
  have hstored : load b 32 8 = e.2 := congrArg Prod.snd hentry
  rw [htarget, hstored, redoPlan]
  by_cases hrd : f.super.journalSector + 1 < f.dev.sectorCount
  swap
  · rw [redoWrites_cons_of_neg fun h => hrd h.1]
    simp [Device.rd, hrd, planReqs, Device.after, applyReqs]
  rw [Device.rd_of_lt hrd]
  simp only []
  by_cases hsum : hash64 (f.dev.disk (f.super.journalSector + 1)) f.dev.sectorSize = e.2
  swap
  · rw [redoWrites_cons_of_neg fun h => hsum h.2.1]
    simp [hsum, planReqs, Device.after, applyReqs]
  rw [if_neg (not_not.2 hsum)]
  by_cases hwr : e.1 < f.dev.sectorCount
  swap
  · rw [redoWrites_cons_of_neg fun h => hwr h.2.2]
    simp [Device.wr, hwr, planReqs, Device.after, applyReqs]
  rw [Device.wr_of_lt hwr, redoWrites_cons_of_pos ⟨hrd, hsum, hwr⟩]
  simp only []
  rw [hretire _ (by rfl)]
  simp [redoWrites, planReqs, Device.after, Device.flush, Device.put, applyReqs]

theorem issued_journalReplay (f : Fs) :
    f.issued (journalReplay f).2 = planReqs f.super.journalSector (replayPlan f) := by
  rw [journalReplay_eq_plan]
  exact drop_left

/-! ## What the plan depends on -/

theorem redoPlan_congr {d' : Device} (js : Nat) {n : Nat} (hcount : d'.sectorCount = d.sectorCount)
    (hsize : d'.sectorSize = d.sectorSize) (hsame : ∀ s, js ≤ s → s - js < n → d'.disk s = d.disk s)
    (hn : l.length + 1 ≤ n) (bad : Int) : redoPlan d' js l bad = redoPlan d js l bad := by
  rw [redoPlan, redoPlan, redoWrites_congr hcount hsize hsame (by omega)]

theorem replayPlan_congr {g : Fs} (hsuper : g.super = f.super)
    (hcount : g.dev.sectorCount = f.dev.sectorCount) (hsize : g.dev.sectorSize = f.dev.sectorSize)
    (hsame : ∀ s, f.super.inJournal s → g.dev.disk s = f.dev.disk s) :
    replayPlan g = replayPlan f := by
  simp only [replayPlan, hsuper, hcount]
  by_cases htwo : f.super.journalSectors < 2
  · rw [if_pos htwo, if_pos htwo]
  rw [if_neg htwo, if_neg htwo, hsame f.super.journalSector ⟨le_rfl, by omega⟩]
  generalize f.dev.disk f.super.journalSector = b
  have hbad : ∀ t, TargetBad g t ↔ TargetBad f t := by
    intro t
    rw [TargetBad, TargetBad, hsuper]
  have hcountBad : TxCountBad g b ↔ TxCountBad f b := by
    rw [TxCountBad, TxCountBad, hsuper, hsize]
  simp only [hbad, hcountBad]
  have hredo := fun l hn bad => redoPlan_congr f.super.journalSector
    (n := f.super.journalSectors) (l := l) hcount hsize (fun s h1 h2 => hsame s ⟨h1, h2⟩) hn bad
  rw [hredo [(load b 8 8, load b 32 8)] (by rw [length_singleton]; omega)]
  by_cases hc : TxCountBad f b
  · simp only [if_pos hc]
  have hlen : (txEntries b).length + 1 ≤ f.super.journalSectors := by
    rw [length_txEntries]
    rw [TxCountBad, not_or] at hc
    omega
  rw [hredo (txEntries b) hlen]

theorem redoPlan_retires (h : (redoPlan d js l bad).retires = true) :
    (redoPlan d js l bad).rc = 0 := by
  rw [redoPlan] at h ⊢
  split_ifs at h ⊢
  rfl

theorem redoPlan_target (hw : w ∈ (redoPlan d js l bad).writes) : w.1 ∈ l.map Prod.fst := by
  rw [redoPlan] at hw
  split_ifs at hw <;> exact redoWrites_target hw

/-- The targets that the record in the journal names. A transaction header whose
count is out of range names none. -/
def journalTargets (f : Fs) : List Nat :=
  let b := f.dev.disk f.super.journalSector
  if load b 0 8 = journalTxMagic then
    if TxCountBad f b then [] else (txEntries b).map Prod.fst
  else if load b 0 8 = journalMagic then [load b 8 8]
  else []

/-- The journal region lies inside the file system and can be read. -/
structure JournalInside (f : Fs) : Prop where
  two : 2 ≤ f.super.journalSectors
  inside : ¬(f.super.totalSectors ≤ f.super.journalSector ∨
    f.super.totalSectors - f.super.journalSector < f.super.journalSectors)
  readable : f.super.journalSector < f.dev.sectorCount

theorem replayPlan_of_noMagic (h : JournalInside f)
    (hm : NoMagic (f.dev.disk f.super.journalSector)) : replayPlan f = .stop 0 := by
  have htwo := h.two
  rw [replayPlan]
  rw [if_neg (by omega), if_neg h.inside, if_neg (Nat.not_le.2 h.readable), if_neg hm.1,
    if_pos hm.2]

/-- The possible plans of a replay that finds the header `b`. -/
inductive PlanCase (f : Fs) (b : Buf) : Plan → Prop where
  | stop (rc : Int) : PlanCase f b (.stop rc)
  | transaction (hin : JournalInside f) (hmagic : load b 0 8 = journalTxMagic)
      (hcount : ¬TxCountBad f b) (htargets : ∀ e ∈ txEntries b, ¬TargetBad f e.1) :
      PlanCase f b (redoPlan f.dev f.super.journalSector (txEntries b) (-6))
  | single (hin : JournalInside f) (htx : load b 0 8 ≠ journalTxMagic)
      (hmagic : load b 0 8 = journalMagic) (htarget : ¬TargetBad f (load b 8 8)) :
      PlanCase f b
        (redoPlan f.dev f.super.journalSector [(load b 8 8, load b 32 8)] (-8))

theorem replayPlan_cases (f : Fs) :
    PlanCase f (f.dev.disk f.super.journalSector) (replayPlan f) := by
  rw [replayPlan]
  generalize f.dev.disk f.super.journalSector = b
  by_cases htwo : f.super.journalSectors < 2
  · rw [if_pos htwo]
    exact .stop _
  by_cases hin : f.super.totalSectors ≤ f.super.journalSector ∨
      f.super.totalSectors - f.super.journalSector < f.super.journalSectors
  · rw [if_neg htwo, if_pos hin]
    exact .stop _
  by_cases hjs : f.dev.sectorCount ≤ f.super.journalSector
  · rw [if_neg htwo, if_neg hin, if_pos hjs]
    exact .stop _
  have hinside : JournalInside f := ⟨Nat.le_of_not_lt htwo, hin, Nat.lt_of_not_le hjs⟩
  rw [if_neg htwo, if_neg hin, if_neg hjs]
  split
  · rename_i hmagic
    by_cases hcount : TxCountBad f b
    · rw [if_pos hcount]
      exact .stop _
    rw [if_neg hcount]
    split
    · exact .stop _
    rename_i htargets
    exact .transaction hinside hmagic hcount fun e he hbad => htargets ⟨e, he, hbad⟩
  rename_i hmagic
  by_cases hone : load b 0 8 = journalMagic
  swap
  · rw [if_pos hone]
    exact .stop _
  rw [if_neg (not_not.2 hone)]
  split_ifs with hhead
  · exact .stop _
  exact .single hinside hmagic hone fun hbad => hhead (.inr hbad)

theorem replayPlan_retires (h : (replayPlan f).retires = true) :
    (replayPlan f).rc = 0 ∧ JournalInside f := by
  have hcases := replayPlan_cases f
  generalize replayPlan f = p at h hcases
  cases hcases with
  | stop => cases h
  | transaction hin => exact ⟨redoPlan_retires h, hin⟩
  | single hin => exact ⟨redoPlan_retires h, hin⟩

theorem replayPlan_target (hw : w ∈ (replayPlan f).writes) :
    w.1 ∈ journalTargets f ∧ ¬f.super.inJournal w.1 := by
  have hcases := replayPlan_cases f
  generalize replayPlan f = p at hw hcases
  cases hcases with
  | stop => cases hw
  | transaction _ hmagic hcount htargets =>
    have ht := redoPlan_target hw
    obtain ⟨e, he, hew⟩ := mem_map.1 ht
    refine ⟨?_, fun hin => htargets e he (.inr (hew ▸ hin))⟩
    rw [journalTargets]
    rwa [if_pos hmagic, if_neg hcount]
  | single _ htx hmagic htarget =>
    have ht := redoPlan_target hw
    have he : w.1 = load (f.dev.disk f.super.journalSector) 8 8 := mem_singleton.1 ht
    refine ⟨?_, fun hin => htarget (.inr (he ▸ hin))⟩
    rw [journalTargets]
    rwa [if_neg htx, if_pos hmagic]

/-! ## Crashes inside a replay -/

/-- A cut inside a plan keeps some of its writes, or comes after all of them and the
clearing of the header. -/
theorem crash_planReqs {d d' : Disk Buf} {p : Plan} (h : Crash d [] (planReqs js p) d') :
    (∃ sub, sub ⊆ p.writes ∧ d' = applyWrites d sub) ∨
      p.retires = true ∧ d' = upd (applyWrites d p.writes) js zeroBuf := by
  rcases Crash.append h with h | h
  · obtain ⟨sub, hsub, hd⟩ := h.of_writes
    exact .inl ⟨sub, hsub.subset, hd⟩
  rw [settle_writes, nil_append] at h
  split_ifs at h with hret
  swap
  · obtain ⟨sub, hsub, hd⟩ := h.of_nil
    exact .inl ⟨sub, hsub.subset, hd⟩
  cases h with
  | cut hsub => exact .inl ⟨_, hsub.subset, rfl⟩
  | flush h =>
  rcases Crash.write_flush h with rfl | h
  · exact .inl ⟨p.writes, List.Subset.refl _, rfl⟩
  obtain ⟨sub, hsub, rfl⟩ := h.of_nil
  rw [sublist_nil] at hsub
  subst hsub
  exact .inr ⟨hret, rfl⟩

/-- The devices that any number of crashes inside the replay leave behind. Each time
the superblock is read again, and the replay starts anew. -/
inductive CutReplays (metaHint : Nat) (d : Device) : Device → Prop where
  | none : CutReplays metaHint d d
  | cut {e : Device} {c : Disk Buf} (he : CutReplays metaHint d e)
      (hc : Crash e.disk []
        ((mountHandle e metaHint).issued (journalReplay (mountHandle e metaHint)).2) c) :
      CutReplays metaHint d { e with disk := c, log := [] }

/-- What the devices left behind by crashes have in common: some of the planned
writes are done, or all of them and the header is cleared. -/
structure Resumable (metaHint : Nat) (d e : Device) : Prop where
  sectorCount : e.sectorCount = d.sectorCount
  sectorSize : e.sectorSize = d.sectorSize
  disk : (∃ sub, sub ⊆ (replayPlan (mountHandle d metaHint)).writes ∧
      e.disk = applyWrites d.disk sub) ∨
    (replayPlan (mountHandle d metaHint)).retires = true ∧
      e.disk = upd (applyWrites d.disk (replayPlan (mountHandle d metaHint)).writes)
        (mountHandle d metaHint).super.journalSector zeroBuf

section

variable {metaHint : Nat} {e : Device} (h0 : 0 ∉ journalTargets (mountHandle d metaHint))

include h0

theorem writes_zero (hws : ws ⊆ (replayPlan (mountHandle d metaHint)).writes) :
    applyWrites d.disk ws 0 = d.disk 0 := by
  refine applyWrites_other fun w hw he => h0 ?_
  rw [← he]
  exact (replayPlan_target (hws hw)).1

theorem replayPlan_resumed {sub : List (Nat × Buf)}
    (hcount : e.sectorCount = d.sectorCount) (hsize : e.sectorSize = d.sectorSize)
    (hsub : sub ⊆ (replayPlan (mountHandle d metaHint)).writes)
    (hdisk : e.disk = applyWrites d.disk sub) :
    (mountHandle e metaHint).super = (mountHandle d metaHint).super ∧
      replayPlan (mountHandle e metaHint) = replayPlan (mountHandle d metaHint) := by
  have hsuper : (mountHandle e metaHint).super = (mountHandle d metaHint).super := by
    change loadSuper (e.disk 0) = loadSuper (d.disk 0)
    rw [hdisk, writes_zero h0 hsub]
  refine ⟨hsuper, replayPlan_congr hsuper hcount hsize fun s hs => ?_⟩
  change e.disk s = d.disk s
  rw [hdisk]
  refine applyWrites_other fun w hw he => (replayPlan_target (hsub hw)).2 ?_
  rw [he]
  exact hs

theorem replayPlan_retired (hret : (replayPlan (mountHandle d metaHint)).retires = true)
    (hdisk : e.disk = upd (applyWrites d.disk (replayPlan (mountHandle d metaHint)).writes)
      (mountHandle d metaHint).super.journalSector zeroBuf)
    (hcount : e.sectorCount = d.sectorCount) :
    replayPlan (mountHandle e metaHint) = .stop 0 := by
  by_cases hjs : (mountHandle d metaHint).super.journalSector = 0
  · have hsuper : (mountHandle e metaHint).super = loadSuper zeroBuf := by
      change loadSuper (e.disk 0) = _
      rw [hdisk, hjs, upd_same]
    have htwo : (mountHandle e metaHint).super.journalSectors < 2 := by
      rw [hsuper]
      decide +kernel
    rw [replayPlan]
    rw [if_pos htwo]
  have hsuper : (mountHandle e metaHint).super = (mountHandle d metaHint).super := by
    change loadSuper (e.disk 0) = loadSuper (d.disk 0)
    rw [hdisk, upd_other (Ne.symm hjs), writes_zero h0 (List.Subset.refl _)]
  have hin := (replayPlan_retires hret).2
  refine replayPlan_of_noMagic ⟨?_, ?_, ?_⟩ ?_
  · rw [hsuper]
    exact hin.two
  · rw [hsuper]
    exact hin.inside
  · rw [hsuper]
    exact lt_of_lt_of_eq hin.readable hcount.symm
  rw [hsuper]
  change NoMagic (e.disk _)
  rw [hdisk, upd_same]
  exact noMagic_zeroBuf

/-- A crash inside the replay keeps what the devices have in common. -/
theorem Resumable.cut (he : Resumable metaHint d e) {c : Disk Buf}
    (hc : Crash e.disk []
      ((mountHandle e metaHint).issued (journalReplay (mountHandle e metaHint)).2) c) :
    Resumable metaHint d { e with disk := c, log := [] } := by
  rw [issued_journalReplay] at hc
  refine ⟨he.sectorCount, he.sectorSize, ?_⟩
  rcases he.disk with ⟨sub, hsub, hdisk⟩ | ⟨hret, hdisk⟩
  · obtain ⟨hsuper, hplan⟩ := replayPlan_resumed h0 he.sectorCount he.sectorSize hsub hdisk
    rw [hplan, hsuper, hdisk] at hc
    rcases crash_planReqs hc with ⟨sub', hsub', rfl⟩ | ⟨hret, rfl⟩
    · exact .inl ⟨sub ++ sub', append_subset.2 ⟨hsub, hsub'⟩, applyWrites_append.symm⟩
    · exact .inr ⟨hret, by rw [applyWrites_absorb hsub]⟩
  rw [replayPlan_retired h0 hret hdisk he.sectorCount] at hc
  obtain ⟨sub, hsub, rfl⟩ := Crash.of_nil hc
  rw [sublist_nil] at hsub
  subst hsub
  exact .inr ⟨hret, hdisk⟩

theorem resumable_of_cutReplays (h : CutReplays metaHint d e) : Resumable metaHint d e := by
  induction h with
  | none => exact ⟨rfl, rfl, .inl ⟨[], nil_subset _, rfl⟩⟩
  | cut _ hc ih => exact ih.cut h0 hc

end

theorem applyReqs_planReqs (d : Disk Buf) (js : Nat) (p : Plan) :
    applyReqs d (planReqs js p) =
      if p.retires then upd (applyWrites d p.writes) js zeroBuf else applyWrites d p.writes := by
  rw [planReqs, applyReqs_append, applyReqs_writes]
  split_ifs <;> rfl

/-- A replay that has been cut off any number of times and then runs to its end
returns the code of an uninterrupted replay and leaves the same disk. -/
theorem journalReplay_crash_idempotent (metaHint : Nat) (d e : Device)
    (h0 : 0 ∉ journalTargets (mountHandle d metaHint)) (h : CutReplays metaHint d e) :
    (journalReplay (mountHandle e metaHint)).1 = (journalReplay (mountHandle d metaHint)).1 ∧
      (journalReplay (mountHandle e metaHint)).2.dev.disk =
        (journalReplay (mountHandle d metaHint)).2.dev.disk := by
  have hres := resumable_of_cutReplays h0 h
  have hd : (mountHandle d metaHint).dev = d := rfl
  have he : (mountHandle e metaHint).dev = e := rfl
  simp only [journalReplay_eq_plan, Device.after, applyReqs_planReqs, hd, he]
  rcases hres.disk with ⟨sub, hsub, hdisk⟩ | ⟨hret, hdisk⟩
  · obtain ⟨hsuper, hplan⟩ := replayPlan_resumed h0 hres.sectorCount hres.sectorSize hsub hdisk
    rw [hplan, hsuper, hdisk, applyWrites_absorb hsub]
    exact ⟨rfl, rfl⟩
  rw [replayPlan_retired h0 hret hdisk hres.sectorCount, (replayPlan_retires hret).1, if_pos hret,
    hdisk]
  exact ⟨rfl, rfl⟩

def recordDevice : Device :=
  { freshDevice with
    disk := upd (upd freshDevice.disk 5 fun _ => 7) 4
      (journalHeader 40 1 (hash64 (fun _ => 7) 512)) }

/-- The replay is cut off when the target has its new contents and the header is still there. -/
theorem journalReplay_crash_idempotent_record :
    0 ∉ journalTargets (mountHandle recordDevice 0) ∧
      ∃ e, CutReplays 0 recordDevice e ∧ (recordDevice.disk 40 0 = 0 ∧ e.disk 40 0 = 7) ∧
        e.disk 4 0 = recordDevice.disk 4 0 ∧
        (journalReplay (mountHandle e 0)).2.dev.disk =
          (journalReplay (mountHandle recordDevice 0)).2.dev.disk := by
  have h0 : 0 ∉ journalTargets (mountHandle recordDevice 0) := by decide +kernel
  have hlen : (replayPlan (mountHandle recordDevice 0)).writes.length = 1 := by decide +kernel
  obtain ⟨w, hw⟩ := length_eq_one_iff.1 hlen
  have hcut : CutReplays 0 recordDevice { recordDevice with
      disk := applyWrites recordDevice.disk (replayPlan (mountHandle recordDevice 0)).writes
      log := [] } := by
    refine .cut .none ?_
    rw [issued_journalReplay, planReqs, hw]
    exact .write (.cut (Sublist.refl _))
  exact ⟨h0, _, hcut, by decide +kernel, by decide +kernel,
    (journalReplay_crash_idempotent 0 recordDevice _ h0 hcut).2⟩

/-! ## Journals that are refused -/

/-- The journal holds a transaction with a header that is in order, an entry of it does not have
its checksum, and what the entries in front of this one leave in one of their targets is not what
is there. -/
structure HalfRedone (f : Fs) : Prop where
  magic : load (f.dev.disk f.super.journalSector) 0 8 = journalTxMagic
  count : ¬TxCountBad f (f.dev.disk f.super.journalSector)
  targets : ∀ e ∈ txEntries (f.dev.disk f.super.journalSector), ¬TargetBad f e.1
  bad : (redoWrites f.dev f.super.journalSector 0
    (txEntries (f.dev.disk f.super.journalSector))).length ≠
      (txEntries (f.dev.disk f.super.journalSector)).length
  changed : ∃ front w back, redoWrites f.dev f.super.journalSector 0
      (txEntries (f.dev.disk f.super.journalSector)) = front ++ w :: back ∧
    (∀ v ∈ back, v.1 ≠ w.1) ∧ f.dev.disk w.1 ≠ w.2

theorem HalfRedone.replayPlan_eq (h : HalfRedone f) (hin : JournalInside f) :
    replayPlan f = ⟨-6, redoWrites f.dev f.super.journalSector 0
      (txEntries (f.dev.disk f.super.journalSector)), false⟩ := by
  have htwo := hin.two
  have htargets : ¬∃ e ∈ txEntries (f.dev.disk f.super.journalSector), TargetBad f e.1 :=
    fun ⟨e, he, hbad⟩ => h.targets e he hbad
  simp only [replayPlan]
  rw [if_neg (by omega), if_neg hin.inside, if_neg (Nat.not_le.2 hin.readable), if_pos h.magic,
    if_neg h.count, if_neg htargets, redoPlan, if_neg h.bad]

/-- A replay that fails has changed a sector if and only if a transaction was redone in part. -/
theorem halfRedone_iff (hin : JournalInside f) : HalfRedone f ↔ (replayPlan f).rc ≠ 0 ∧
    ∃ t, ¬f.super.inJournal t ∧ applyWrites f.dev.disk (replayPlan f).writes t ≠ f.dev.disk t := by
  constructor
  · intro h
    obtain ⟨front, w, back, hws, hback, hne⟩ := h.changed
    have hw : w ∈ (replayPlan f).writes := by
      rw [h.replayPlan_eq hin, hws]
      exact mem_append_right _ mem_cons_self
    refine ⟨by simp [h.replayPlan_eq hin], w.1, (replayPlan_target hw).2, ?_⟩
    rw [h.replayPlan_eq hin]
    exact applyWrites_ne_iff.2 ⟨front, w, back, hws, hback, rfl, hne⟩
  · rintro ⟨hrc, t, -, hne⟩
    obtain ⟨front, w, back, hws, hback, rfl, hne⟩ := applyWrites_ne_iff.1 hne
    have hcases := replayPlan_cases f
    generalize replayPlan f = p at hrc hws hcases
    cases hcases with
    | stop => simp [Plan.stop] at hws
    | transaction _ hmagic hcount htargets =>
      rw [redoPlan] at hrc hws
      split_ifs at hrc hws with hall
      · exact absurd rfl hrc
      · exact ⟨hmagic, hcount, htargets, hall, front, w, back, hws, hback, hne⟩
    | single =>
      rw [redoPlan] at hrc hws
      split_ifs at hrc hws with hall
      · exact absurd rfl hrc
      -- a record of one sector that is not redone as a whole is not redone at all
      have hle := length_redoWrites_le f.dev f.super.journalSector
        [(load (f.dev.disk f.super.journalSector) 8 8,
          load (f.dev.disk f.super.journalSector) 32 8)] 0
      dsimp only at hws
      rw [hws, length_append, length_cons] at hle hall
      rw [length_singleton] at hle hall
      omega

/-- A mount that refuses the journal leaves every sector outside of it as it was, if and only if
it has not redone a transaction in part. -/
theorem rixfsMount_refused_unchanged (metaHint : Nat) (d : Device) (hlow : 512 ≤ d.sectorSize)
    (hhigh : d.sectorSize ≤ 4096) (hcheck : checkSuper d (d.disk 0) = 0) :
    ((rixfsMount d metaHint).1 ≠ 0 → ∀ s, ¬(loadSuper (d.disk 0)).inJournal s →
        (rixfsMount d metaHint).2.dev.disk s = d.disk s) ↔
      ¬HalfRedone (mountHandle d metaHint) := by
  have hok := superOk_of_check hcheck
  have hin : JournalInside (mountHandle d metaHint) := by
    have h1 := hok.journalLe
    have h2 := hok.dataLt
    have h3 := hok.totalSectors
    refine ⟨hok.journalTwo, ?_, ?_⟩
    · simp only [mountHandle]
      omega
    · simp only [mountHandle]
      omega
  have hsuper : loadSuper (d.disk 0) = (mountHandle d metaHint).super := rfl
  have hdisk : d.disk = (mountHandle d metaHint).dev.disk := rfl
  rw [halfRedone_iff hin, rixfsMount_of_check metaHint hlow hhigh hcheck, hsuper, hdisk,
    journalReplay_eq_plan]
  generalize mountHandle d metaHint = f
  by_cases hrc : (replayPlan f).rc ≠ 0
  · have hkeep : (replayPlan f).retires ≠ true := fun hret => hrc (replayPlan_retires hret).1
    simp [hrc, unmount, Device.after, applyReqs_planReqs, hkeep]
  · simp [not_not.1 hrc]

/-- The fresh device with a transaction of two entries, for the sectors 40 and 41,
the second of which has a wrong checksum. -/
def halfBadDevice : Device :=
  { freshDevice with
    disk := upd (upd freshDevice.disk 5 fun _ => 7) 4
      (storeFields zeroBuf 0 [⟨0, 8, journalTxMagic⟩, ⟨8, 8, 1⟩, ⟨16, 4, 2⟩, ⟨24, 8, 40⟩,
        ⟨32, 8, hash64 (fun _ => 7) 512⟩, ⟨40, 8, 41⟩, ⟨48, 8, 1⟩]) }

/-- The mount refuses this journal and has written its first entry. -/
theorem rixfsMount_refused_writes :
    checkSuper halfBadDevice (halfBadDevice.disk 0) = 0 ∧
      (rixfsMount halfBadDevice 0).1 = -9 ∧
      ¬(loadSuper (halfBadDevice.disk 0)).inJournal 40 ∧
      halfBadDevice.disk 40 0 = 0 ∧ (rixfsMount halfBadDevice 0).2.dev.disk 40 0 = 7 := by
  decide +kernel

def badDevice : Device :=
  { freshDevice with
    disk := upd freshDevice.disk 4
      (storeFields zeroBuf 0 [⟨0, 8, journalTxMagic⟩, ⟨8, 8, 1⟩, ⟨16, 4, 1⟩, ⟨24, 8, 40⟩,
        ⟨32, 8, 1⟩]) }

theorem rixfsMount_refused_unchanged_bad :
    (rixfsMount badDevice 0).1 = -9 ∧ (rixfsMount badDevice 0).2.dev.disk 40 = badDevice.disk 40 := by
  have herr : (rixfsMount badDevice 0).1 = -9 := by decide +kernel
  refine ⟨herr, (rixfsMount_refused_unchanged 0 badDevice (by decide) (by decide)
    (by decide +kernel)).2 (fun h => ?_) (by rw [herr]; decide) 40 (by decide +kernel)⟩
  obtain ⟨front, w, back, hws, -⟩ := h.changed
  have hlen := congrArg length hws
  rw [show (redoWrites (mountHandle badDevice 0).dev _ 0 _).length = 0 by decide +kernel] at hlen
  simp at hlen

end RixuriOS.Rixfs
