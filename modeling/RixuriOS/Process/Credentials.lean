import RixuriOS.Process.Table

/-!
# Who changes the credentials of a process

The credentials of a process are spread over its record and five arrays. Pids are
unique among the live slots (`Table.Ok`), so that a call that names a pid reaches one
slot only. `Outcome` says everything that a call can do to the table; what holds of the
credentials along every history is read off it.
-/

namespace RixuriOS.ProcTable

open List Function

structure Credentials where
  uid : UInt32
  realUid : UInt32
  savedUid : UInt32
  gid : UInt32
  realGid : UInt32
  savedGid : UInt32
  auditUid : UInt32
  groups : List UInt32
  capabilities : Capabilities
  deriving DecidableEq

def Table.credentials (t : Table) (i : Slot) : Credentials where
  uid := (t.table i).uid
  realUid := t.realUids i
  savedUid := t.savedUids i
  gid := (t.table i).gid
  realGid := t.realGids i
  savedGid := t.savedGids i
  auditUid := t.auditUids i
  groups := (range (t.supplementaryCounts i)).map (t.supplementaryGroups i)
  capabilities := (t.table i).capabilities

/-- None of the three user ids is that of root. -/
structure Credentials.NonRoot (c : Credentials) : Prop where
  uid : c.uid ≠ 0
  realUid : c.realUid ≠ 0
  savedUid : c.savedUid ≠ 0

/-- The table has the kernel in slot 0, and no two processes with the same pid. -/
structure Table.Ok (t : Table) : Prop where
  kernel : t.live 0 ∧ (t.table 0).pid = 0
  unique : ∀ i j, t.live i → t.live j → (t.table i).pid = (t.table j).pid → i = j

/-- The slot `j` holds the same process with the same credentials. -/
structure Same (t t' : Table) (j : Slot) : Prop where
  proc : t'.table j = t.table j
  credentials : t'.credentials j = t.credentials j

theorem Same.refl (t : Table) (j : Slot) : Same t t j := ⟨rfl, rfl⟩

variable {t t' : Table} {n parent pid : Nat} {i : Slot} {a : Act}

variable {j k : Slot} {b next wanted : Nat} {name : List UInt8} {r : Option Nat × Table}

theorem Same.live (h : Same t t' j) : t'.live j ↔ t.live j := by
  rw [Table.live, Table.live, h.proc]

/-! ## Lookups -/

section

theorem of_lookup (h : lookup t pid = some i) : t.live i ∧ (t.table i).pid = pid := by
  simpa using find?_some h

theorem lookup_eq_none : lookup t pid = none ↔ ∀ i, t.live i → (t.table i).pid ≠ pid := by
  simp [lookup, find?_eq_none]

theorem Table.Ok.lookup_eq (h : t.Ok) : lookup t pid = some i ↔ t.live i ∧ (t.table i).pid = pid := by
  refine ⟨of_lookup, fun hi => ?_⟩
  cases hl : lookup t pid with
  | none => exact absurd hi.2 (lookup_eq_none.1 hl i hi.1)
  | some j =>
    have hj := of_lookup hl
    rw [h.unique i j hi.1 hj.1 (hi.2.trans hj.2.symm)]

theorem of_freeSlot (h : freeSlot t = some i) : i ≠ 0 ∧ ¬t.live i := by
  simpa using find?_some h

theorem allocateLoop_fresh (h : (allocateLoop t n next).1 = some pid) :
    pid ≠ 0 ∧ lookup t pid = none := by
  induction n generalizing next with
  | zero => cases h
  | succ n ih =>
    rw [allocateLoop] at h
    split_ifs at h with hfree
    · cases h
      exact hfree
    · exact ih h

end

/-! ## What a call can do -/

structure Untouched (t t' : Table) : Prop where
  same : ∀ j, t.live j → Same t t' j
  dead : ∀ j, ¬t.live j → ¬t'.live j

/-- A call that creates the process `pid` in the slot `i`. -/
structure Born (t : Table) (parent pid : Nat) (i : Slot) (t' : Table) : Prop where
  slot : i ≠ 0 ∧ ¬t.live i
  others : ∀ j, j ≠ i → Same t t' j
  live : t'.live i
  fresh : lookup t pid = none
  proc_pid : (t'.table i).pid = pid
  proc_parent : (t'.table i).parent = parent
  inherits : parent ≠ 0 → ∃ j, lookup t parent = some j ∧ t'.credentials i = t.credentials j

structure Edited (t : Table) (i : Slot) (t' : Table) : Prop where
  live : t.live i
  live' : t'.live i
  others : ∀ j, j ≠ i → Same t t' j
  proc_pid : (t'.table i).pid = (t.table i).pid
  proc_parent : (t'.table i).parent = (t.table i).parent
  subset : ∀ b, (t'.table i).capabilities.getLsbD b → (t.table i).capabilities.getLsbD b

structure Delegated (t : Table) (i j : Slot) (mask : Capabilities) (t' : Table) : Prop where
  live : t.live i ∧ t.live j
  ne : i ≠ j
  parent : (t.table j).parent = (t.table i).pid
  others : ∀ k, k ≠ i → k ≠ j → Same t t' k
  giver : t'.credentials i =
    { t.credentials i with capabilities := (t.table i).capabilities &&& ~~~mask }
  taker : t'.credentials j =
    { t.credentials j with capabilities := (t.table j).capabilities ||| mask }
  held : (t.table i).capabilities &&& mask = mask
  pids : ∀ k, (t'.table k).pid = (t.table k).pid ∧ (t'.table k).parent = (t.table k).parent ∧
    (t'.table k).state = (t.table k).state

/-- A wait call that takes the zombie in the slot `i` out of the table. -/
structure Reaped (t : Table) (i : Slot) (t' : Table) : Prop where
  ne : i ≠ 0
  live : t.live i
  gone : ¬t'.live i
  others : ∀ j, j ≠ i → Same t t' j

inductive Outcome (t : Table) (a : Act) (t' : Table) : Prop
  | untouched (h : Untouched t t') (hc : created t a = none) (hr : reported t a = none)
  | born (parent pid : Nat) (i : Slot) (h : Born t parent pid i t')
      (hc : created t a = some (parent, pid)) (hr : reported t a = none)
  | edited (i : Slot) (h : Edited t i t') (hs : (t.table i).pid ∈ a.subjects)
      (hroot : (t.credentials i).NonRoot → (t'.credentials i).NonRoot ∨
        ∃ gid sg, a = .exec (t.table i).pid 0 gid true sg)
      (hc : created t a = none) (hr : reported t a = none)
  | delegated (i j : Slot) (mask : Capabilities) (h : Delegated t i j mask t')
      (ha : a = .delegate (t.table i).pid (t.table j).pid mask) (hr : reported t a = none)
  | reaped (parent : Nat) (i : Slot) (h : Reaped t i t') (hp : (t.table i).parent = parent)
      (hc : created t a = none) (hr : reported t a = some (parent, (t.table i).pid))

section

theorem same_setProc (p : Proc) (hj : j ≠ i) : Same t (t.setProc i p) j := by
  constructor <;> simp [Table.setProc, Table.credentials, hj]

theorem same_wipe (hj : j ≠ i) : Same t (t.wipe i) j := by
  constructor <;> simp [Table.wipe, Table.credentials, hj]

theorem same_inherit (hj : j ≠ i) : Same t (t.inherit i k) j := by
  constructor <;> simp [Table.inherit, Table.credentials, hj]

theorem Same.trans {t₁ t₂ : Table} (h : Same t t₁ j) (h' : Same t₁ t₂ j) : Same t t₂ j :=
  ⟨h'.proc.trans h.proc, h'.credentials.trans h.credentials⟩

theorem untouched_refl (t : Table) : Untouched t t := ⟨fun j _ => .refl t j, fun _ h => h⟩

/-- A call that touches only a slot that was and stays unused. -/
theorem untouched_of_dead (hi : ¬t.live i) (hi' : ¬t'.live i) (hother : ∀ j, j ≠ i → Same t t' j) :
    Untouched t t' := by
  refine ⟨fun j hj => hother j fun h => hi (h ▸ hj), fun j hj => ?_⟩
  by_cases hji : j = i
  · rwa [hji]
  · rwa [(hother j hji).live]

theorem map_inherited (n : Nat) (f g : Nat → UInt32) :
    (range n).map (fun k => if k < n then f k else g k) = (range n).map f :=
  map_congr_left fun _ hk => if_pos (mem_range.1 hk)

theorem birth_born (hi : i ≠ 0 ∧ ¬t.live i) (hpid : lookup t pid = none)
    (hparent : parent = 0 ∨ lookup t parent ≠ none) :
    Born t parent pid i (birth { t with nextPid := next } i pid parent name) := by
  have hlookup : lookup { t with nextPid := next } parent = lookup t parent := rfl
  refine ⟨hi, fun j hj => ?_, ?_, hpid, ?_, ?_, fun hne => ?_⟩
  · have hw : Same t (Table.wipe { t with nextPid := next } i) j := by
      constructor <;> simp [Table.wipe, Table.credentials, hj]
    rw [birth]
    refine Same.trans ?_ (same_setProc _ hj)
    split
    · exact hw.trans (same_inherit hj)
    · exact hw
  · simp [birth, Table.live, Table.setProc, newProc]
  · simp [birth, Table.setProc, newProc]
  · simp [birth, Table.setProc, newProc]
  obtain ⟨j, hj⟩ := Option.ne_none_iff_exists'.1 (hparent.resolve_left hne)
  have hji : j ≠ i := fun h => hi.2 (h ▸ (of_lookup hj).1)
  refine ⟨j, hj, ?_⟩
  rw [birth, if_neg hne, hlookup, hj]
  simp [Table.credentials, Table.setProc, newProc, Table.inherit, Table.wipe, hji, map_inherited]

end

theorem createLocked_cases {fds : Bool} (h : createLocked t name parent fds = r) :
    (Untouched t r.2 ∧ r.1 = none) ∨ ∃ pid i, Born t parent pid i r.2 ∧ r.1 = some pid := by
  rw [createLocked] at h
  split at h
  · subst h
    exact .inl ⟨untouched_refl t, rfl⟩
  cases hslot : freeSlot t with
  | none =>
    rw [hslot] at h
    subst h
    exact .inl ⟨untouched_refl t, rfl⟩
  | some i =>
  have hi := of_freeSlot hslot
  rw [hslot] at h
  rcases halloc : allocatePid t with ⟨found, next⟩
  rw [halloc] at h
  cases found with
  | none =>
    subst h
    exact .inl ⟨⟨fun j _ => ⟨rfl, rfl⟩, fun _ h => h⟩, rfl⟩
  | some pid =>
  have hfresh := allocateLoop_fresh (t := t) (congrArg Prod.fst halloc)
  have hb : Born t parent pid i (birth { t with nextPid := next } i pid parent name) :=
    birth_born hi hfresh.2 (by tauto)
  split_ifs at h with hfds
  · subst h
    refine .inl ⟨untouched_of_dead hi.2 ?_ fun j hj =>
      (hb.others j hj).trans (same_setProc _ hj), rfl⟩
    simp [Table.live, Table.setProc, Proc.cleared]
  subst h
  exact .inr ⟨pid, i, { hb with others := fun j hj => ⟨(hb.others j hj).proc,
    (hb.others j hj).credentials⟩ }, rfl⟩

theorem processFork_cases {rip rsp : Nat} {ans : ForkAnswers}
    (h : processFork t parent rip rsp ans = r) :
    (Untouched t r.2 ∧ r.1 = none) ∨ ∃ pid i, Born t parent pid i r.2 ∧ r.1 = some pid := by
  rw [processFork] at h
  by_cases hargs : rip = 0 ∨ rsp = 0
  · rw [if_pos hargs] at h
    subst h
    exact .inl ⟨untouched_refl t, rfl⟩
  rw [if_neg hargs] at h
  split at h
  · subst h
    exact .inl ⟨untouched_refl t, rfl⟩
  generalize hcreate : createLocked t (ascii "fork-child") parent ans.fdsCloned = c at h
  obtain ⟨pid, t₁⟩ := c
  obtain ⟨hun, hnone⟩ | ⟨pid', i, hb, hsome⟩ := createLocked_cases hcreate
  · dsimp only at hnone
    subst hnone h
    exact .inl ⟨hun, rfl⟩
  subst hsome
  dsimp only at h
  cases hl : lookup t₁ pid' with
  | none => exact absurd hb.proc_pid (lookup_eq_none.1 hl i hb.live)
  | some k =>
  obtain ⟨hk, hkpid⟩ := of_lookup hl
  -- the pid was free, so that the slot found is the one just filled
  have hki : k = i := by
    by_contra hne
    have hsame := hb.others k hne
    refine lookup_eq_none.1 hb.fresh k (hsame.live.1 hk) ?_
    rw [← hsame.proc, hkpid]
  subst hki
  rw [hl] at h
  split_ifs at h with hfail
  · subst h
    refine .inl ⟨untouched_of_dead hb.slot.2 ?_ fun j hj => ?_, rfl⟩
    · simp [Table.live, Table.setProc, Proc.cleared]
    · have hj' := (hb.others j hj).trans (same_setProc .cleared hj)
      exact ⟨hj'.proc, hj'.credentials⟩
  subst h
  refine .inr ⟨pid', k, ⟨hb.slot, fun j hj => (hb.others j hj).trans (same_setProc _ hj),
    ?_, hb.fresh, ?_, ?_, fun hne => ?_⟩, rfl⟩
  · simp [Table.live, Table.setProc]
  · simpa [Table.setProc] using hb.proc_pid
  · simpa [Table.setProc] using hb.proc_parent
  obtain ⟨j, hj, hcred⟩ := hb.inherits hne
  refine ⟨j, hj, Eq.trans ?_ hcred⟩
  simp [Table.credentials, Table.setProc]

/-! ## The calls on one process -/

inductive OnProcess (t : Table) (pid : Nat) (root : Prop) (t' : Table) : Prop
  | refused (h : t' = t)
  | done (i : Slot) (h : Edited t i t') (hpid : (t.table i).pid = pid)
      (hroot : (t.credentials i).NonRoot → (t'.credentials i).NonRoot ∨ root)

section

variable {root : Prop}

/-- A call that replaces the record of its process and leaves the arrays of all other
processes alone. -/
theorem onProcess_of_setProc (hl : lookup t pid = some i) {p : Proc}
    (htable : t'.table = update t.table i p)
    (hkeeps : p.pid = (t.table i).pid ∧ p.parent = (t.table i).parent ∧ p.state ≠ .unused)
    (hcap : ∀ b, p.capabilities.getLsbD b → (t.table i).capabilities.getLsbD b)
    (hother : ∀ j, j ≠ i → t'.credentials j = t.credentials j)
    (hroot : (t.credentials i).NonRoot → (t'.credentials i).NonRoot ∨ root) :
    OnProcess t pid root t' := by
  have hself : t'.table i = p := by rw [htable, update_self]
  obtain ⟨hlive, hpid⟩ := of_lookup hl
  refine .done i ⟨hlive, ?_, fun j hj => ⟨?_, hother j hj⟩, ?_, ?_, ?_⟩ hpid hroot
  · rw [Table.live, hself]
    exact hkeeps.2.2
  · rw [htable, update_of_ne hj]
  · rw [hself, hkeeps.1]
  · rw [hself, hkeeps.2.1]
  · rw [hself]
    exact hcap

section

variable (t pid)

theorem processSetuid_cases (uid : UInt32) : OnProcess t pid False (processSetuid t pid uid).2 := by
  rw [processSetuid]
  cases hl : lookup t pid with
  | none => exact .refused rfl
  | some i =>
  have hlive := (of_lookup hl).1
  dsimp only
  split_ifs with hcap huid hne hids
  · exact .refused rfl
  · refine onProcess_of_setProc hl rfl ⟨rfl, rfl, hlive⟩ (fun b hb => ?_) (fun j hj => ?_)
      fun hnr => absurd huid hnr.uid
    · simp at hb
    · simp [Table.credentials, Table.setProc, hj]
  · refine onProcess_of_setProc hl rfl ⟨rfl, rfl, hlive⟩ (fun b hb => hb) (fun j hj => ?_)
      fun hnr => absurd huid hnr.uid
    simp [Table.credentials, Table.setProc, hj]
  · refine onProcess_of_setProc hl rfl ⟨rfl, rfl, hlive⟩ (fun b hb => hb) (fun j hj => ?_)
      fun hnr => .inl ⟨?_, hnr.realUid, hnr.savedUid⟩
    · simp [Table.credentials, Table.setProc, hj]
    simp only [Table.credentials, Table.setProc, update_self]
    rcases hids with h | h <;> rw [h]
    exacts [hnr.realUid, hnr.savedUid]
  · exact .refused rfl

theorem processSetgid_cases (gid : UInt32) : OnProcess t pid False (processSetgid t pid gid).2 := by
  rw [processSetgid]
  cases hl : lookup t pid with
  | none => exact .refused rfl
  | some i =>
  have hlive := (of_lookup hl).1
  dsimp only
  split_ifs with hcap huid hids
  · exact .refused rfl
  · refine onProcess_of_setProc hl rfl ⟨rfl, rfl, hlive⟩ (fun b hb => hb) (fun j hj => ?_)
      fun hnr => absurd huid hnr.uid
    simp [Table.credentials, Table.setProc, hj]
  · refine onProcess_of_setProc hl rfl ⟨rfl, rfl, hlive⟩ (fun b hb => hb) (fun j hj => ?_)
      fun hnr => .inl ⟨?_, hnr.realUid, hnr.savedUid⟩
    · simp [Table.credentials, Table.setProc, hj]
    · simpa [Table.credentials, Table.setProc] using hnr.uid
  · exact .refused rfl

theorem processSetgroups_cases (groups : List UInt32) :
    OnProcess t pid False (processSetgroups t pid groups).2 := by
  rw [processSetgroups]
  cases hl : lookup t pid with
  | none => exact .refused rfl
  | some i =>
  dsimp only
  split_ifs with hcap
  · exact .refused rfl
  refine onProcess_of_setProc hl (update_eq_self i t.table).symm
    ⟨rfl, rfl, (of_lookup hl).1⟩ (fun b hb => hb) (fun j hj => ?_)
    fun hnr => .inl ⟨hnr.uid, hnr.realUid, hnr.savedUid⟩
  simp [Table.credentials, hj]

theorem applyExecCredentials_cases (uid gid : UInt32) (su sg : Bool) :
    OnProcess t pid (su = true ∧ uid = 0) (applyExecCredentials t pid uid gid su sg).2 := by
  rw [applyExecCredentials]
  cases hl : lookup t pid with
  | none => exact .refused rfl
  | some i =>
  refine onProcess_of_setProc hl rfl ⟨rfl, rfl, (of_lookup hl).1⟩ (fun b hb => ?_)
    (fun j hj => ?_) fun hnr => ?_
  · dsimp only at hb
    split_ifs at hb
    · simp at hb
    · exact hb
  · cases su <;> cases sg <;> simp [Table.credentials, Table.setProc, hj]
  by_cases hroot : su = true ∧ uid = 0
  · exact .inr hroot
  refine .inl ⟨?_, hnr.realUid, ?_⟩
  · cases su with
    | false => simpa [Table.credentials, Table.setProc] using hnr.uid
    | true => simpa [Table.credentials, Table.setProc] using hroot
  cases su with
  | false => simpa [Table.credentials, Table.setProc] using hnr.savedUid
  | true => simpa [Table.credentials, Table.setProc] using hroot

theorem dropCapabilities_cases (mask : Capabilities) :
    OnProcess t pid False (dropCapabilities t pid mask).2 := by
  rw [dropCapabilities]
  cases hl : lookup t pid with
  | none => exact .refused rfl
  | some i =>
  split_ifs with hvalid
  · refine onProcess_of_setProc hl rfl ⟨rfl, rfl, (of_lookup hl).1⟩ (fun b hb => ?_)
      (fun j hj => ?_) fun hnr => .inl ⟨?_, hnr.realUid, hnr.savedUid⟩
    · rw [BitVec.getLsbD_and, Bool.and_eq_true] at hb
      exact hb.1
    · simp [Table.credentials, Table.setProc, hj]
    · simpa [Table.credentials, Table.setProc] using hnr.uid
  · exact .refused rfl

theorem setAuditUid_cases (uid : UInt32) : OnProcess t pid False (setAuditUid t pid uid).2 := by
  rw [setAuditUid]
  cases hl : lookup t pid with
  | none => exact .refused rfl
  | some i =>
  split_ifs with hcap
  · refine onProcess_of_setProc hl (update_eq_self i t.table).symm
      ⟨rfl, rfl, (of_lookup hl).1⟩ (fun b hb => hb) (fun j hj => ?_)
      fun hnr => .inl ⟨hnr.uid, hnr.realUid, hnr.savedUid⟩
    simp [Table.credentials, hj]
  · exact .refused rfl

end

theorem processExit_cases (t : Table) (pid status : Nat) :
    OnProcess t pid False (processExit t pid status).2 := by
  rw [processExit]
  cases hl : lookup t pid with
  | none => exact .refused rfl
  | some i =>
  dsimp only
  split_ifs with hpid
  · exact .refused rfl
  refine onProcess_of_setProc hl rfl ⟨rfl, rfl, by simp⟩ (fun b hb => hb) (fun j hj => ?_)
    fun hnr => .inl ⟨?_, hnr.realUid, hnr.savedUid⟩
  · simp [Table.credentials, Table.setProc, hj]
  · simpa [Table.credentials, Table.setProc] using hnr.uid

end

/-! ## The calls on two processes -/

/-- `process_delegate_capabilities` moves the mask from the parent to the child. -/
theorem delegateCapabilities_cases (t : Table) (parent child : Nat) (mask : Capabilities) :
    (delegateCapabilities t parent child mask).2 = t ∨
      ∃ i j, Delegated t i j mask (delegateCapabilities t parent child mask).2 ∧
        (t.table i).pid = parent ∧ (t.table j).pid = child := by
  rw [delegateCapabilities]
  cases hi : lookup t parent with
  | none => exact .inl rfl
  | some i =>
  cases hj : lookup t child with
  | none => exact .inl rfl
  | some j =>
  dsimp only
  split_ifs with hbad
  · exact .inl rfl
  obtain ⟨hli, hpi⟩ := of_lookup hi
  obtain ⟨hlj, hpj⟩ := of_lookup hj
  simp only [not_or, not_not, ne_eq] at hbad
  obtain ⟨hne, -, -, hpar, -, -, ⟨i', hi', -, hheld⟩, -, -⟩ := hbad
  cases hi.symm.trans hi'
  have hij : i ≠ j := by
    rintro rfl
    exact hne (hpi.symm.trans hpj)
  refine .inr ⟨i, j, ⟨⟨hli, hlj⟩, hij, hpar.trans hpi.symm, fun k hki hkj => ?_, ?_, ?_,
    hheld, fun k => ?_⟩, hpi, hpj⟩
  · exact (same_setProc _ hkj).trans (same_setProc _ hki)
  · simp [Table.credentials, Table.setProc, hij]
  · simp [Table.credentials, Table.setProc, hij.symm]
  by_cases hki : k = i
  · subst hki
    simp [Table.setProc, hij]
  by_cases hkj : k = j
  · subst hkj
    simp [Table.setProc, hki]
  · simp [Table.setProc, hki, hkj]

theorem of_waitFind (h : waitFind t parent wanted = some i) :
    i ≠ 0 ∧ t.live i ∧ (t.table i).parent = parent := by
  have hmem := mem_of_find?_eq_some h
  rw [children, mem_filter, decide_eq_true_eq] at hmem
  exact ⟨hmem.2.1, hmem.2.2.1, hmem.2.2.2.1⟩

inductive Waited (t : Table) (parent : Nat) (child : Option (Nat × Nat)) (t' : Table) : Prop
  | nothing (h : t' = t) (hc : child = none)
  | reaped (i : Slot) (h : Reaped t i t') (hp : (t.table i).parent = parent)
      (hc : child = some ((t.table i).exitStatus, (t.table i).pid))

theorem waitReap_cases (h : waitFind t parent wanted = some i) (threads : Nat) :
    Waited t parent (waitReap t i threads).1.child (waitReap t i threads).2 := by
  obtain ⟨hne, hlive, hparent⟩ := of_waitFind h
  rw [waitReap]
  split_ifs with hthreads
  · exact .nothing rfl rfl
  refine .reaped i ⟨hne, hlive, ?_, fun j hj => ?_⟩ hparent rfl
  · simp [Table.live, Table.wipe, Proc.cleared]
  · exact ⟨(same_wipe hj).proc, (same_wipe hj).credentials⟩

theorem processWait_cases (t : Table) (parent wanted threads : Nat) :
    Waited t parent (processWait t parent wanted threads).1.child
      (processWait t parent wanted threads).2 := by
  rw [processWait]
  split_ifs
  · exact .nothing rfl rfl
  cases hf : waitFind t parent wanted with
  | none => exact .nothing rfl rfl
  | some i => exact waitReap_cases hf threads

theorem processWaitBlocking_cases (t : Table) (parent wanted threads : Nat) :
    Waited t parent (processWaitBlocking t parent wanted threads).1.child
      (processWaitBlocking t parent wanted threads).2.2 := by
  rw [processWaitBlocking]
  split_ifs
  · exact .nothing rfl rfl
  cases hf : waitFind t parent wanted with
  | none => exact .nothing rfl rfl
  | some i => exact waitReap_cases hf threads

/-! ## Every call -/

theorem OnProcess.outcome {root : Prop} (h : OnProcess t pid root t') (hsub : a.subjects = [pid])
    (hroot : root → ∃ gid sg, a = .exec pid 0 gid true sg) (hc : created t a = none)
    (hr : reported t a = none) : Outcome t a t' := by
  cases h with
  | refused h =>
    subst h
    exact .untouched (untouched_refl t') hc hr
  | done i h hpid hnr =>
    subst hpid
    refine .edited i h (by rw [hsub]; exact mem_singleton_self _)
      (fun hn => (hnr hn).imp_right hroot) hc hr

theorem Waited.outcome {child : Option (Nat × Nat)} (h : Waited t parent child t')
    (hc : created t a = none) (hr : reported t a = child.map fun c => (parent, c.2)) :
    Outcome t a t' := by
  cases h with
  | nothing h hchild =>
    subst h hchild
    exact .untouched (untouched_refl t') hc hr
  | reaped i h hp hchild =>
    subst hchild
    exact .reaped parent i h hp hc hr

theorem step_outcome (t : Table) (a : Act) : Outcome t a (step t a) := by
  cases a with
  | create name parent fds =>
    obtain ⟨hun, hnone⟩ | ⟨pid, i, hb, hsome⟩ :=
      createLocked_cases (Eq.refl (createLocked t name parent fds))
    · exact .untouched hun (by simp [created, hnone]) rfl
    · exact .born parent pid i hb (by simp [created, hsome]) rfl
  | fork parent rip rsp ans =>
    obtain ⟨hun, hnone⟩ | ⟨pid, i, hb, hsome⟩ :=
      processFork_cases (Eq.refl (processFork t parent rip rsp ans))
    · exact .untouched hun (by simp [created, hnone]) rfl
    · exact .born parent pid i hb (by simp [created, hsome]) rfl
  | exec pid uid gid su sg =>
    refine (applyExecCredentials_cases t pid uid gid su sg).outcome rfl ?_ rfl rfl
    rintro ⟨rfl, rfl⟩
    exact ⟨gid, sg, rfl⟩
  | setuid pid uid => exact (processSetuid_cases t pid uid).outcome rfl False.elim rfl rfl
  | setgid pid gid => exact (processSetgid_cases t pid gid).outcome rfl False.elim rfl rfl
  | setgroups pid gs => exact (processSetgroups_cases t pid gs).outcome rfl False.elim rfl rfl
  | drop pid mask => exact (dropCapabilities_cases t pid mask).outcome rfl False.elim rfl rfl
  | delegate parent child mask =>
    obtain heq | ⟨i, j, hd, rfl, rfl⟩ := delegateCapabilities_cases t parent child mask
    · refine .untouched ?_ rfl rfl
      rw [step, heq]
      exact untouched_refl t
    · exact .delegated i j mask hd rfl rfl
  | setAudit pid uid => exact (setAuditUid_cases t pid uid).outcome rfl False.elim rfl rfl
  | exit pid status => exact (processExit_cases t pid status).outcome rfl False.elim rfl rfl
  | wait parent wanted threads => exact (processWait_cases t parent wanted threads).outcome rfl rfl
  | waitBlocking parent wanted threads =>
    exact (processWaitBlocking_cases t parent wanted threads).outcome rfl rfl

/-- What a call does to the process in a slot that is in use after it. -/
inductive Fate (t : Table) (a : Act) (t' : Table) (i : Slot) : Prop
  | same (hi : t.live i) (h : Same t t' i)
  | born (parent pid : Nat) (h : Born t parent pid i t') (hc : created t a = some (parent, pid))
  | edited (h : Edited t i t') (hs : (t.table i).pid ∈ a.subjects)
      (hroot : (t.credentials i).NonRoot → (t'.credentials i).NonRoot ∨
        ∃ gid sg, a = .exec (t.table i).pid 0 gid true sg)
  | delegated (k j : Slot) (mask : Capabilities) (h : Delegated t k j mask t')
      (ha : a = .delegate (t.table k).pid (t.table j).pid mask) (hi : i = k ∨ i = j)

theorem Fate.of_same (hi' : t'.live i) (h : Same t t' i) : Fate t a t' i :=
  .same (h.live.1 hi') h

theorem Outcome.fate (h : Outcome t a t') (hi' : t'.live i) : Fate t a t' i := by
  cases h with
  | untouched hu _ _ => exact .of_same hi' (hu.same i (by_contra fun hd => hu.dead i hd hi'))
  | born parent pid k hb hc _ =>
    by_cases hik : i = k
    · exact .born parent pid (hik ▸ hb) hc
    · exact .of_same hi' (hb.others i hik)
  | edited k he hs hroot _ _ =>
    by_cases hik : i = k
    · subst hik
      exact .edited he hs hroot
    · exact .of_same hi' (he.others i hik)
  | delegated k j mask hd ha _ =>
    by_cases hi : i = k ∨ i = j
    · exact .delegated k j mask hd ha hi
    rw [not_or] at hi
    exact .of_same hi' (hd.others i hi.1 hi.2)
  | reaped parent k hr _ _ _ => exact .of_same hi' (hr.others i fun he => hr.gone (he ▸ hi'))

/-- A process appears only by a creation, and then with the credentials of its parent. -/
theorem Outcome.appeared (h : Outcome t a t') (hi : ¬t.live i) (hi' : t'.live i) :
    ∃ parent pid, created t a = some (parent, pid) ∧ (parent ≠ 0 →
      ∃ j, t.live j ∧ (t.table j).pid = parent ∧ t'.credentials i = t.credentials j) := by
  cases h.fate hi' with
  | same h _ => exact absurd h hi
  | born parent pid hb hc =>
    refine ⟨parent, pid, hc, fun hne => ?_⟩
    obtain ⟨j, hj, hcred⟩ := hb.inherits hne
    exact ⟨j, (of_lookup hj).1, (of_lookup hj).2, hcred⟩
  | edited he _ _ => exact absurd he.live hi
  | delegated k j mask hd _ hij =>
    rcases hij with rfl | rfl
    exacts [absurd hd.live.1 hi, absurd hd.live.2 hi]

/-- The processes of `t'` are those of `t`, with their pids and parents, but for the one in the
slot `gone`. -/
structure Carried (t t' : Table) (gone : Option Slot) : Prop where
  old : ∀ i, t'.live i → t.live i ∧ (t'.table i).pid = (t.table i).pid ∧
    (t'.table i).parent = (t.table i).parent
  stays : ∀ i, t.live i → i ∉ gone → t'.live i

theorem Outcome.born_or_carried (h : Outcome t a t') :
    (∃ parent pid i, Born t parent pid i t' ∧ created t a = some (parent, pid)) ∨
      created t a = none ∧ ∃ gone, Carried t t' gone ∧
        ∀ i ∈ gone, i ≠ 0 ∧ ∃ parent, reported t a = some (parent, (t.table i).pid) := by
  have hold (hc : created t a = none) (i : Slot) (hi : t'.live i) : t.live i ∧
      (t'.table i).pid = (t.table i).pid ∧ (t'.table i).parent = (t.table i).parent := by
    cases h.fate hi with
    | same hl hs => exact ⟨hl, by rw [hs.proc], by rw [hs.proc]⟩
    | born _ _ _ hc' => cases hc.symm.trans hc'
    | edited he _ _ => exact ⟨he.live, he.proc_pid, he.proc_parent⟩
    | delegated k j mask hd _ _ =>
      rw [Table.live, (hd.pids i).2.2] at hi
      exact ⟨hi, (hd.pids i).1, (hd.pids i).2.1⟩
  cases h with
  | born parent pid i hb hc _ => exact .inl ⟨parent, pid, i, hb, hc⟩
  | untouched hu hc _ =>
    exact .inr ⟨hc, none, ⟨hold hc, fun i hi _ => (hu.same i hi).live.2 hi⟩, by simp⟩
  | edited k he _ _ hc _ =>
    refine .inr ⟨hc, none, ⟨hold hc, fun i hi _ => ?_⟩, by simp⟩
    by_cases hik : i = k
    · exact hik ▸ he.live'
    · exact (he.others i hik).live.2 hi
  | delegated k j mask hd ha _ =>
    subst ha
    refine .inr ⟨rfl, none, ⟨hold rfl, fun i hi _ => ?_⟩, by simp⟩
    rwa [Table.live, (hd.pids i).2.2]
  | reaped parent k hr _ hc hrep =>
    refine .inr ⟨hc, some k, ⟨hold hc, fun i hi hik => ?_⟩, by simpa using ⟨hr.ne, parent, hrep⟩⟩
    exact (hr.others i fun he => hik (he ▸ rfl)).live.2 hi

/-! ## Every history -/

theorem ok_processInit : processInit.Ok := by
  have hlive : ∀ i, processInit.live i → i = 0 := by
    intro i hi
    by_contra hne
    exact hi (by simp [processInit, hne, Proc.cleared])
  refine ⟨⟨by simp [Table.live, processInit], by simp [processInit, Proc.cleared]⟩,
    fun i j hi hj _ => ?_⟩
  rw [hlive i hi, hlive j hj]

theorem Table.Ok.of_kept (h : t.Ok) (hzero : t'.live 0)
    (hkept : ∀ j, t'.live j → t.live j ∧ (t'.table j).pid = (t.table j).pid) : t'.Ok := by
  refine ⟨⟨hzero, (hkept 0 hzero).2.trans h.kernel.2⟩, fun i j hi hj hij => ?_⟩
  obtain ⟨hi, hpi⟩ := hkept i hi
  obtain ⟨hj, hpj⟩ := hkept j hj
  exact h.unique i j hi hj (by rw [← hpi, ← hpj, hij])

theorem Table.Ok.step (h : t.Ok) (a : Act) : (step t a).Ok := by
  have hzero := h.kernel.1
  have ho := step_outcome t a
  generalize ProcTable.step t a = t' at ho ⊢
  rcases ho.born_or_carried with ⟨parent, pid, i, hb, -⟩ | ⟨-, gone, hk, hgone⟩
  swap
  · refine h.of_kept (hk.stays 0 hzero fun hm => (hgone 0 hm).1 rfl) fun j hj => ?_
    exact ⟨(hk.old j hj).1, (hk.old j hj).2.1⟩
  have hpids : ∀ j, j ≠ i → t'.live j → (t'.table j).pid ≠ (t'.table i).pid := by
    intro j hj hlive
    rw [(hb.others j hj).proc, hb.proc_pid]
    exact lookup_eq_none.1 hb.fresh j ((hb.others j hj).live.1 hlive)
  have hzi := hb.others 0 (Ne.symm hb.slot.1)
  refine ⟨⟨hzi.live.2 hzero, by rw [hzi.proc, h.kernel.2]⟩, fun j k hj hk hjk => ?_⟩
  by_cases hji : j = i <;> by_cases hki : k = i
  · rw [hji, hki]
  · exact absurd (by rw [← hjk, hji]) (hpids k hki hk)
  · exact absurd (by rw [hjk, hki]) (hpids j hji hj)
  · refine h.unique j k ((hb.others j hji).live.1 hj) ((hb.others k hki).live.1 hk) ?_
    rw [← (hb.others j hji).proc, ← (hb.others k hki).proc, hjk]

theorem History.now_step (h : History) (a : Act) : (h.step a).now = ProcTable.step h.now a := by
  rw [History.step]
  cases created h.now a with
  | none => rfl
  | some c =>
    simp only [History.record]
    cases lookup (ProcTable.step h.now a) c.2 <;> rfl

theorem History.serial_step {h : History} (hok : h.now.Ok) (a : Act) (i : Slot) :
    ((h.step a).serial i = h.serial i ∧ (h.step a).creator i = h.creator i ∧
        ((h.step a).now.live i → h.now.live i)) ∨
      ∃ parent pid, Born h.now parent pid i (ProcTable.step h.now a) ∧
        created h.now a = some (parent, pid) ∧ (h.step a).serial i = h.births + 1 ∧
        (h.step a).creator i = ((lookup h.now parent).map h.serial).getD 0 ∧
        (h.step a).births = h.births + 1 := by
  rw [History.now_step, History.step]
  have hok' := hok.step a
  have ho := step_outcome h.now a
  generalize ProcTable.step h.now a = t' at ho hok' ⊢
  rcases ho.born_or_carried with ⟨parent, pid, k, hb, hc⟩ | ⟨hc, gone, hk, -⟩ <;> rw [hc]
  swap
  · exact .inl ⟨rfl, rfl, fun hi => (hk.old i hi).1⟩
  have hk : lookup t' pid = some k := hok'.lookup_eq.2 ⟨hb.live, hb.proc_pid⟩
  simp only [History.record, hk]
  by_cases hik : i = k
  · subst hik
    exact .inr ⟨parent, pid, hb, rfl, by simp, by simp, trivial⟩
  · exact .inl ⟨by simp [hik], by simp [hik], (hb.others i hik).live.1⟩

theorem History.births_step (h : History) (a : Act) : h.births ≤ (h.step a).births := by
  rw [History.step]
  cases created h.now a with
  | none => exact le_rfl
  | some c =>
  simp only [History.record]
  cases lookup (ProcTable.step h.now a) c.2 with
  | none => exact le_rfl
  | some i => exact Nat.le_succ _

/-- The table is in order, and no process has a number that is yet to be given. -/
structure History.Ok (h : History) : Prop where
  now : h.now.Ok
  serial_le : ∀ i, h.serial i ≤ h.births

theorem History.Ok.step {h : History} (hok : h.Ok) (a : Act) : (h.step a).Ok := by
  refine ⟨?_, fun i => ?_⟩
  · rw [History.now_step]
    exact hok.now.step a
  rcases History.serial_step hok.now a i with ⟨hs, -⟩ | ⟨_, _, _, _, hs, _, hb⟩
  · rw [hs]
    exact (hok.serial_le i).trans (h.births_step a)
  · rw [hs, hb]

theorem History.ok_run (acts : List Act) : (History.start.run acts).Ok :=
  List.foldlRecOn acts History.step ⟨ok_processInit, fun _ => le_rfl⟩ fun _ hok a _ => hok.step a

/-- As long as the slot `i` holds the process with the number `n`, that process has the
pid `pid` and no user id of root. -/
structure Unprivileged (h : History) (i : Slot) (n pid : Nat) : Prop where
  ok : h.Ok
  born : n ≤ h.births
  nonRoot : h.serial i = n → h.now.live i →
    (h.now.table i).pid = pid ∧ (h.now.credentials i).NonRoot

/-- Only the `exec` of a file of root with the setuid bit ends that. -/
theorem Unprivileged.step {h : History} (hu : Unprivileged h i n pid) (a : Act) :
    Unprivileged (h.step a) i n pid ∨ ∃ gid sg, a = .exec pid 0 gid true sg := by
  have hborn := hu.born.trans (h.births_step a)
  have hok' := hu.ok.step a
  rcases History.serial_step hu.ok.now a i with ⟨hs, -, hlive⟩ | ⟨parent, pid', -, -, hs, -⟩
  swap
  · -- a new process in the slot: its number is larger
    have hlt := hu.born
    exact .inl ⟨hok', hborn, fun he _ => by omega⟩
  by_cases hkey : h.serial i = n ∧ (h.step a).now.live i
  swap
  · exact .inl ⟨hok', hborn, fun he hl => absurd ⟨hs ▸ he, hl⟩ hkey⟩
  obtain ⟨hn, hl'⟩ := hkey
  have hl := hlive hl'
  obtain ⟨hpid, hnr⟩ := hu.nonRoot hn hl
  -- it remains to see what the call did to this process
  suffices hgoal : ((h.step a).now.table i).pid = pid ∧ ((h.step a).now.credentials i).NonRoot ∨
      ∃ gid sg, a = .exec pid 0 gid true sg by
    exact hgoal.imp_left fun hg => ⟨hok', hborn, fun _ _ => hg⟩
  rw [History.now_step] at hl' ⊢
  cases (step_outcome h.now a).fate hl' with
  | same _ hs => exact .inl ⟨by rw [hs.proc, hpid], by rwa [hs.credentials]⟩
  | born _ _ hb _ => exact absurd hl hb.slot.2
  | edited he _ hroot =>
    rw [hpid] at hroot
    exact (hroot hnr).imp_left fun hr => ⟨he.proc_pid.trans hpid, hr⟩
  | delegated k j mask hd _ hij =>
  refine .inl ⟨(hd.pids i).1.trans hpid, ?_⟩
  rcases hij with rfl | rfl
  · rw [hd.giver]
    exact ⟨hnr.uid, hnr.realUid, hnr.savedUid⟩
  · rw [hd.taker]
    exact ⟨hnr.uid, hnr.realUid, hnr.savedUid⟩

theorem Unprivileged.run {h : History} (hu : Unprivileged h i n pid) (acts : List Act) :
    Unprivileged (h.run acts) i n pid ∨
      ∃ gid sg, Act.exec pid 0 gid true sg ∈ acts := by
  induction acts generalizing h with
  | nil => exact .inl hu
  | cons a acts ih =>
    rcases hu.step a with hs | ⟨gid, sg, rfl⟩
    · exact (ih hs).imp_right fun ⟨gid, sg, hm⟩ => ⟨gid, sg, mem_cons_of_mem a hm⟩
    · exact .inr ⟨gid, sg, mem_cons_self⟩

def GainsBit (t t' : Table) (i : Slot) (b : Nat) : Prop :=
  (t'.table i).capabilities.getLsbD b = true ∧ (t.table i).capabilities.getLsbD b = false

theorem Delegated.gains {mask : Capabilities} (h : Delegated t i j mask t')
    (hb : GainsBit t t' k b) :
    k = j ∧ (t.table i).capabilities.getLsbD b = true ∧
      (t'.table i).capabilities.getLsbD b = false := by
  have hgiver : (t'.table i).capabilities = (t.table i).capabilities &&& ~~~mask :=
    congrArg Credentials.capabilities h.giver
  have htaker : (t'.table j).capabilities = (t.table j).capabilities ||| mask :=
    congrArg Credentials.capabilities h.taker
  obtain ⟨hnew, hold⟩ := hb
  have hkj : k = j := by
    by_contra hkj
    by_cases hki : k = i
    · rw [hki, hgiver, BitVec.getLsbD_and, Bool.and_eq_true] at hnew
      rw [hki, hnew.1] at hold
      cases hold
    · rw [(h.others k hki hkj).proc, hold] at hnew
      cases hnew
  subst hkj
  have hmask : mask.getLsbD b = true := by
    rw [htaker, BitVec.getLsbD_or, hold, Bool.false_or] at hnew
    exact hnew
  have hheld : ((t.table i).capabilities &&& mask).getLsbD b = true := by rw [h.held, hmask]
  rw [BitVec.getLsbD_and, Bool.and_eq_true] at hheld
  exact ⟨rfl, hheld.1, by rw [hgiver]; simp [hmask]⟩

section

variable (h : Outcome t a t') (hi : t.live i) (hi' : t'.live i)

include h hi hi'

/-- The credentials of a process change only by a call that names its pid. -/
theorem Outcome.changed (hne : t'.credentials i ≠ t.credentials i) :
    (t.table i).pid ∈ a.subjects := by
  cases h.fate hi' with
  | same _ hs => exact absurd hs.credentials hne
  | born _ _ hb _ => exact absurd hi hb.slot.2
  | edited _ hs _ => exact hs
  | delegated k j mask _ ha hij =>
    subst ha
    rcases hij with rfl | rfl <;> simp [Act.subjects]

/-- A process that exists gains a capability only by a delegation. -/
theorem Outcome.gained (hb : GainsBit t t' i b) :
    ∃ j mask, a = .delegate (t.table j).pid (t.table i).pid mask ∧ t.live j ∧
      (t.table i).parent = (t.table j).pid ∧ (t.table j).capabilities.getLsbD b = true ∧
      (t'.table j).capabilities.getLsbD b = false := by
  cases h.fate hi' with
  | same _ hs =>
    rw [GainsBit, hs.proc] at hb
    cases hb.1.symm.trans hb.2
  | born _ _ hborn _ => exact absurd hi hborn.slot.2
  | edited he _ _ =>
    have := he.subset b hb.1
    rw [hb.2] at this
    cases this
  | delegated k j mask hd ha _ =>
    obtain ⟨rfl, hheld, hlost⟩ := hd.gains hb
    exact ⟨k, mask, ha, hd.live.1, hd.parent, hheld, hlost⟩

end

/-- Along every history of the process table, and for every next call `a`: a pid names one
process; the credentials of a process change only by a call that names it; a new
capability comes from the parent, at creation or by a delegation after which the parent
is without it; and a process whose three user ids are one and not that of root has
the uid 0 later, in the same incarnation, only if it executed a setuid file of root. -/
theorem credentials_confined (acts more : List Act) (a : Act) :
    let h := History.start.run acts
    let t := h.now
    let t' := step t a
    (∀ i j, t.live i → t.live j → (t.table i).pid = (t.table j).pid → i = j) ∧
    (∀ i, t.live i → t'.live i → t'.credentials i ≠ t.credentials i →
      (t.table i).pid ∈ a.subjects) ∧
    (∀ i b, t.live i → t'.live i → GainsBit t t' i b →
      ∃ j mask, a = .delegate (t.table j).pid (t.table i).pid mask ∧ t.live j ∧
        (t.table i).parent = (t.table j).pid ∧ (t.table j).capabilities.getLsbD b = true ∧
        (t'.table j).capabilities.getLsbD b = false) ∧
    (∀ i, ¬t.live i → t'.live i → ∃ parent pid, created t a = some (parent, pid) ∧
      (parent ≠ 0 →
        ∃ j, t.live j ∧ (t.table j).pid = parent ∧ t'.credentials i = t.credentials j)) ∧
    ∀ i u, t.live i → u ≠ 0 → (t.credentials i).uid = u → (t.credentials i).realUid = u →
      (t.credentials i).savedUid = u → (h.run more).now.live i →
      (h.run more).serial i = h.serial i → ((h.run more).now.credentials i).uid = 0 →
      ∃ gid sg, Act.exec (t.table i).pid 0 gid true sg ∈ more := by
  intro h t t'
  have hok : h.Ok := History.ok_run acts
  have ho : Outcome t a t' := step_outcome t a
  refine ⟨hok.now.unique, fun i hi hi' hne => ho.changed hi hi' hne,
    fun i b hi hi' hb => ho.gained hi hi' hb, fun i hi hi' => ho.appeared hi hi', ?_⟩
  intro i u hi hu huid hreal hsaved hlive hserial hzero
  have hstart : Unprivileged h i (h.serial i) (t.table i).pid :=
    ⟨hok, hok.serial_le i, fun _ _ => ⟨rfl, huid ▸ hu, hreal ▸ hu, hsaved ▸ hu⟩⟩
  refine (hstart.run more).resolve_left fun hend => ?_
  exact (hend.nonRoot hserial hlive).2.uid hzero

/-- The kernel stays in slot 0, and only it has the pid 0. -/
theorem kernel_stays (acts : List Act) :
    let t := (History.start.run acts).now
    t.live 0 ∧ ∀ i, t.live i → ((t.table i).pid = 0 ↔ i = 0) := by
  have h := (History.ok_run acts).now
  refine ⟨h.kernel.1, fun i hi => ⟨fun h0 => ?_, fun hi => hi ▸ h.kernel.2⟩⟩
  exact h.unique i 0 hi h.kernel.1 (h0.trans h.kernel.2.symm)

end RixuriOS.ProcTable
