import RixuriOS.Vfs.Edits
import RixuriOS.Vfs.PipeCounts

/-!
# Where a descriptor comes from

The calls that copy descriptors copy everything but two flags, and those that close
descriptors leave the others alone. So behind every descriptor for a file or a
directory there is the `vfs_open` that made it, along a chain of copies.
-/

namespace RixuriOS.Vfs

open Ipc Function Tables

theorem Fd.SameObject.refl (fd : Fd) : fd.SameObject fd := ⟨rfl, rfl, rfl, rfl, rfl, rfl, rfl⟩

/-- The descriptor before the call of which the descriptor `x` is a copy after the
call. -/
def Call.source (t : Tables) (c : Call) (x : Fin processMax × Fin fdMax) :
    Fin processMax × Fin fdMax :=
  match c with
  | .dup pid oldFd | .dupMin pid oldFd _ =>
    match pidSlot pid, fdIndex oldFd with
    | some ps, some i => if (t.fds x).used then x else (ps, i)
    | _, _ => x
  | .dupTo pid oldFd newFd =>
    match pidSlot pid, fdIndex oldFd, fdIndex newFd with
    | some ps, some i, some j =>
      if x = (ps, j) ∧ (vfsDupTo t pid oldFd newFd).1 = 0 then (ps, i) else x
    | _, _, _ => x
  | .cloneFds parentPid _ =>
    match pidSlot parentPid with
    | some parent => if (t.fds x).used then x else (parent, x.2)
    | none => x
  | _ => x

def CopyOf (t : Tables) (y : Fin processMax × Fin fdMax) (t' : Tables)
    (x : Fin processMax × Fin fdMax) : Prop :=
  (t.fds y).used = true ∧ (t.fds y).SameObject (t'.fds x)

variable {t t' : Tables} {fd : Fd} {ps : Fin processMax} {i : Fin fdMax}
  {x : Fin processMax × Fin fdMax}

theorem CopyOf.of_eq (heq : t'.fds x = t.fds x) (hu : (t'.fds x).used = true) : CopyOf t x t' x := by
  rw [heq] at hu
  exact ⟨hu, heq ▸ .refl _⟩

def Closes (t t' : Tables) : Prop := ∀ x, (t'.fds x).used = true → t'.fds x = t.fds x

theorem Closes.refl (t : Tables) : Closes t t := fun _ _ => rfl

theorem Closes.trans {t₁ t₂ t₃ : Tables} (h : Closes t₁ t₂) (h' : Closes t₂ t₃) : Closes t₁ t₃ := by
  intro x hx
  have heq := h' x hx
  rw [heq] at hx ⊢
  exact h x hx

theorem closes_closeLocked (h : closeLocked t ps i = some t') : Closes t t' := by
  intro x hx
  rw [(closeLocked_edits h).2] at hx ⊢
  by_cases hxi : x = (ps, i)
  · rw [hxi, update_self] at hx
    simp [Fd.cleared] at hx
  · rw [update_of_ne hxi]

theorem closes_closeAny (t : Tables) (ps : Fin processMax) (i : Fin fdMax) :
    Closes t (closeAny t ps i) := by
  unfold closeAny
  cases h : closeLocked t ps i with
  | none => exact .refl t
  | some t' => exact closes_closeLocked h

theorem closes_foldl {f : Tables → Fin fdMax → Tables} (hf : ∀ t i, Closes t (f t i))
    (l : List (Fin fdMax)) (t : Tables) : Closes t (l.foldl f t) := by
  induction l generalizing t with
  | nil => exact .refl t
  | cons i l ih => exact (hf t i).trans (ih (f t i))

theorem closes_closePipesLoop (ps : Fin processMax) (keep0 keep1 : Int) (l : List (Fin fdMax))
    (t : Tables) : Closes t (closePipesLoop ps keep0 keep1 l t).2 := by
  induction l generalizing t with
  | nil => exact .refl t
  | cons i l ih =>
    rw [closePipesLoop]
    split_ifs
    · exact ih t
    · split
      · exact .refl t
      · next t' hc => exact (closes_closeLocked hc).trans (ih t')
    · exact ih t

theorem closes_closeAllLoop (ps : Fin processMax) (l : List (Fin fdMax)) (rc : Int) (t : Tables) :
    Closes t (closeAllLoop ps l rc t).2 := by
  induction l generalizing t rc with
  | nil => exact .refl t
  | cons i l ih =>
    rw [closeAllLoop]
    split_ifs
    · split
      · exact ih _ t
      · next t' hc => exact (closes_closeLocked hc).trans (ih _ t')
    · exact ih _ t

theorem Closes.copyOf (h : Closes t t') (hu : (t'.fds x).used = true) : CopyOf t x t' x :=
  .of_eq (h x hu) hu

/-! ### Copies -/

theorem dupFrom_copyOf {lo : Nat} (hu : (t.fds (ps, i)).used = true)
    (hx : ((dupFrom t ps i lo).2.2.fds x).used = true) :
    CopyOf t (if (t.fds x).used then x else (ps, i)) (dupFrom t ps i lo).2.2 x := by
  have hsame : ∀ {t' : Tables}, t'.fds = t.fds → (t'.fds x).used = true →
      CopyOf t (if (t.fds x).used then x else (ps, i)) t' x := by
    intro t' heq hx'
    rw [heq] at hx'
    rw [if_pos hx']
    exact .of_eq (by rw [heq]) (by rw [heq]; exact hx')
  unfold dupFrom at hx ⊢
  cases hfree : freeFd t ps lo with
  | none =>
    rw [hfree] at hx
    exact hsame rfl hx
  | some j =>
  cases hr : retainFd t (t.fds (ps, i)) with
  | error e =>
    rw [hfree, hr] at hx
    exact hsame rfl hx
  | ok t' =>
  simp only [hfree, hr] at hx ⊢
  by_cases hxj : x = (ps, j)
  · subst hxj
    rw [if_neg (by simp [(freeFd_unused hfree).1])]
    refine ⟨hu, ?_⟩
    simp only [setFd, update_self]
    exact .cloexec _ _
  have hother : (t'.setFd (ps, j) { t.fds (ps, i) with cloexec := false }).fds x = t.fds x := by
    simp [setFd, hxj, (retainFd_edits hr).2]
  rw [hother] at hx
  rw [if_pos hx]
  exact .of_eq hother (by rw [hother]; exact hx)

variable {y : Fin processMax × Fin fdMax} {c : Call}

theorem copyOf_setFd (hclose : Closes t t') (hu : (t.fds (ps, i)).used = true)
    (hx : ((t'.setFd y { t.fds (ps, i) with cloexec := false }).fds x).used = true) :
    CopyOf t (if x = y then (ps, i) else x) (t'.setFd y { t.fds (ps, i) with cloexec := false }) x := by
  by_cases hxy : x = y
  · subst hxy
    rw [if_pos rfl]
    refine ⟨hu, ?_⟩
    simp only [setFd, update_self]
    exact .cloexec _ _
  have hother : (t'.setFd y { t.fds (ps, i) with cloexec := false }).fds x = t'.fds x := by
    simp [setFd, hxy]
  rw [hother] at hx
  rw [if_neg hxy, CopyOf, hother]
  exact hclose.copyOf hx

inductive DupTo (t : Tables) (pid : Nat) (oldFd newFd : Int) : Int × Tables → Prop
  | failed {rc : Int} {t' : Tables} : rc ≠ 0 → Closes t t' → DupTo t pid oldFd newFd (rc, t')
  | same {ps : Fin processMax} {i : Fin fdMax} : pidSlot pid = some ps → fdIndex oldFd = some i →
      fdIndex newFd = some i → DupTo t pid oldFd newFd (0, t)
  | copied {ps : Fin processMax} {i j : Fin fdMax} {t' : Tables} : pidSlot pid = some ps →
      fdIndex oldFd = some i → fdIndex newFd = some j → (t.fds (ps, i)).used = true →
      Closes t t' →
      DupTo t pid oldFd newFd (0, t'.setFd (ps, j) { t.fds (ps, i) with cloexec := false })

theorem vfsDupTo_spec (t : Tables) (pid : Nat) (oldFd newFd : Int) :
    DupTo t pid oldFd newFd (vfsDupTo t pid oldFd newFd) := by
  unfold vfsDupTo
  split
  · next ps i j hps hi hj =>
      split
      · exact .failed (by decide) (.refl t)
      rename_i hu
      split_ifs with hij
      · exact .same hps hi (hij ▸ hj)
      have hused : (t.fds (ps, i)).used = true := by simpa using hu
      cases hr : retainFd t (t.fds (ps, i)) with
      | error e => exact .failed (by decide) (.refl t)
      | ok t₁ =>
      have hfds := (retainFd_edits hr).2
      have hclose₁ : Closes t t₁ := fun y _ => by rw [hfds]
      dsimp only
      split
      · cases hc : closeLocked t₁ ps j with
        | some t₂ => exact .copied hps hi hj hused (hclose₁.trans (closes_closeLocked hc))
        | none =>
        refine .failed (by decide) ?_
        split_ifs
        · cases hrel : releaseFd t₁ { t.fds (ps, i) with cloexec := false } with
          | none => exact hclose₁
          | some t₂ => exact fun y _ => by rw [Option.getD_some, (releaseFd_edits hrel).2, hfds]
        · exact hclose₁
      · exact .copied hps hi hj hused hclose₁
  · exact .failed (by decide) (.refl t)

theorem vfsDupTo_copyOf {pid : Nat} {oldFd newFd : Int}
    (hx : ((vfsDupTo t pid oldFd newFd).2.fds x).used = true) :
    CopyOf t (Call.source t (.dupTo pid oldFd newFd) x) (vfsDupTo t pid oldFd newFd).2 x := by
  have hspec := vfsDupTo_spec t pid oldFd newFd
  rw [Call.source]
  generalize vfsDupTo t pid oldFd newFd = r at hspec hx ⊢
  cases hspec with
  | failed hrc hclose =>
    have hsrc := hclose.copyOf hx
    split
    · rwa [if_neg fun h => hrc h.2]
    · exact hsrc
  | same hps hi hj =>
    simp only [hps, hi, hj, and_true]
    rw [ite_eq_right_iff.2 fun h => h.symm]
    exact .of_eq rfl hx
  | copied hps hi hj hused hclose =>
    simp only [hps, hi, hj, and_true]
    exact copyOf_setFd hclose hused hx

/-- What the loop of `vfs_clone_fds` has made of the tables `t₀`: descriptors of the
child that were unused have become copies. -/
structure Cloning (parent : Fin processMax) (t₀ t : Tables) : Prop where
  kept : ∀ x, (t₀.fds x).used = true → t.fds x = t₀.fds x
  copied : ∀ x, (t.fds x).used = true →
    (t₀.fds (if (t₀.fds x).used then x else (parent, x.2))).used = true ∧
      t.fds x = t₀.fds (if (t₀.fds x).used then x else (parent, x.2))

theorem cloneLoop_copied {parent child : Fin processMax} {t₀ : Tables} (l done : List (Fin fdMax))
    (h : Cloning parent t₀ t) (hx : ((cloneLoop parent child l done t).2.fds x).used = true) :
    (t₀.fds (if (t₀.fds x).used then x else (parent, x.2))).used = true ∧
      (cloneLoop parent child l done t).2.fds x =
        t₀.fds (if (t₀.fds x).used then x else (parent, x.2)) := by
  induction l generalizing t done with
  | nil => exact h.copied x hx
  | cons i l ih =>
    have hundo : Closes t (done.foldl (fun t j => closeAny t child j) t) :=
      closes_foldl (fun t j => closes_closeAny t child j) done t
    have hback : ∀ {t' : Tables}, Closes t t' → (t'.fds x).used = true →
        (t₀.fds (if (t₀.fds x).used then x else (parent, x.2))).used = true ∧
          t'.fds x = t₀.fds (if (t₀.fds x).used then x else (parent, x.2)) := by
      intro t' hc hu
      have heq := hc x hu
      rw [heq] at hu ⊢
      exact h.copied x hu
    rw [cloneLoop] at hx ⊢
    by_cases hparent : (t.fds (parent, i)).used = true
    · rw [if_pos hparent] at hx ⊢
      by_cases hchild : (t.fds (child, i)).used = true
      · rw [if_pos hchild] at hx ⊢
        exact hback hundo hx
      rw [if_neg hchild] at hx ⊢
      cases hr : retainFd t (t.fds (parent, i)) with
      | error e =>
        simp only [hr] at hx ⊢
        exact hback hundo hx
      | ok t₁ =>
      simp only [hr] at hx ⊢
      refine ih (done ++ [i]) ⟨?_, ?_⟩ hx
      · intro y hy
        have hne : y ≠ (child, i) := by
          rintro rfl
          exact hchild ((h.kept _ hy).symm ▸ hy)
        simp only [setFd, update_of_ne hne, (retainFd_edits hr).2]
        exact h.kept y hy
      intro y hy
      by_cases hne : y = (child, i)
      · subst hne
        have hunused : ¬(t₀.fds (child, i)).used = true := fun hu =>
          hchild ((h.kept _ hu).symm ▸ hu)
        have hp := h.copied _ hparent
        rw [ite_self] at hp
        simp only [setFd, update_self, if_neg hunused]
        exact hp
      · simp only [setFd, update_of_ne hne, (retainFd_edits hr).2] at hy ⊢
        exact h.copied y hy
    · rw [if_neg hparent] at hx ⊢
      exact ih done h hx

/-- A call other than `vfs_dup_to` leaves a descriptor that is in use what it is. -/
theorem source_eq_self (hdup : ∀ pid o n, c ≠ .dupTo pid o n) (hx : (t.fds x).used = true) :
    c.source t x = x := by
  cases c with
  | dupTo pid o n => exact absurd rfl (hdup pid o n)
  | dup | dupMin | cloneFds =>
    rw [Call.source]
    split
    · rw [if_pos hx]
    · rfl
  | «open» | pipe | setFdFlags | setCloexec | close | closeCloexec | closePipesExcept | closeAll
  | read | write => rfl

theorem Closes.copyOf_source (hdup : ∀ pid o n, c ≠ .dupTo pid o n) (h : Closes t (c.apply t))
    (hx : ((c.apply t).fds x).used = true) : CopyOf t (c.source t x) (c.apply t) x := by
  have hcopy := h.copyOf hx
  rwa [source_eq_self hdup hcopy.1]

theorem vfsPipe_fds (t : Tables) (pid : Nat) (x : Fin processMax × Fin fdMax) :
    (vfsPipe t pid).2.2.fds x = t.fds x ∨ ((vfsPipe t pid).2.2.fds x).isPipe = true := by
  unfold vfsPipe
  cases pidSlot pid with
  | none => exact .inl rfl
  | some ps =>
  cases hr : freeFd t ps stdioReserved with
  | none => exact .inl (by simp [hr])
  | some r =>
  cases hw : freeFd t ps (r + 1) with
  | none => exact .inl (by simp [hr, hw])
  | some w =>
  cases (List.finRange pipeMax).find? fun i => !(t.pipes i).used with
  | none => exact .inl (by simp [hr, hw])
  | some i =>
  simp only [hr, hw]
  by_cases hxw : x = (ps, w)
  · simp [hxw, setFd, pipeEnd, Fd.isPipe]
  by_cases hxr : x = (ps, r)
  · rw [hxr] at hxw ⊢
    simp [setFd, update_of_ne hxw, pipeEnd, Fd.isPipe]
  · simp [setFd, hxw, hxr, setSlot]

theorem copyOf_setFlag (hu : (t.fds y).used = true) (hsame : (t.fds y).SameObject fd)
    (hx : ((t.setFd y fd).fds x).used = true) : CopyOf t x (t.setFd y fd) x := by
  by_cases hxy : x = y
  · subst hxy
    exact ⟨hu, by simpa [setFd] using hsame⟩
  · exact .of_eq (by simp [setFd, hxy]) hx

/-- After every call but `vfs_open`, a descriptor that is not an end of a pipe is a copy
of one from before. -/
theorem copyOf_source (c : Call) (hopen : ∀ ps type ino w a e, c ≠ .open ps type ino w a e)
    (hpipe : ((c.apply t).fds x).isPipe = false) (hx : ((c.apply t).fds x).used = true) :
    CopyOf t (c.source t x) (c.apply t) x := by
  cases c with
  | «open» ps type ino w a e => exact absurd rfl (hopen ps type ino w a e)
  | pipe pid =>
    rcases vfsPipe_fds t pid x with heq | hnew
    · exact .of_eq heq hx
    · rw [Call.apply, hnew] at hpipe
      cases hpipe
  | dup pid oldFd =>
    rw [Call.apply, vfsDup] at hx ⊢
    split at hx
    · next ps i hps hi =>
        by_cases hu : (t.fds (ps, i)).used = true
        · rw [if_pos hu] at hx ⊢
          rw [Call.source, hps, hi]
          exact dupFrom_copyOf hu hx
        rw [if_neg hu] at hx ⊢
        rw [source_eq_self (by simp) hx]
        exact .of_eq rfl hx
    · rw [source_eq_self (by simp) hx]
      exact .of_eq rfl hx
  | dupMin pid oldFd minimumFd =>
    rw [Call.apply, vfsDupMin] at hx ⊢
    split at hx
    · next ps i lo hps hi hlo =>
        by_cases hu : (t.fds (ps, i)).used = true
        · rw [if_pos hu] at hx ⊢
          rw [Call.source, hps, hi]
          exact dupFrom_copyOf hu hx
        rw [if_neg hu] at hx ⊢
        rw [source_eq_self (by simp) hx]
        exact .of_eq rfl hx
    · rw [source_eq_self (by simp) hx]
      exact .of_eq rfl hx
  | dupTo pid oldFd newFd => exact vfsDupTo_copyOf hx
  | setFdFlags pid fd flags =>
    simp only [Call.apply, Call.source, vfsSetFdFlags] at hx ⊢
    split at hx
    · next ps i _ _ =>
        split_ifs at hx ⊢ with hu
        · exact .of_eq rfl hx
        · refine copyOf_setFlag ?_ ⟨rfl, rfl, rfl, rfl, rfl, rfl, rfl⟩ hx
          simpa using fun h => hu (.inl h)
    · exact .of_eq rfl hx
  | setCloexec pid fd flags =>
    simp only [Call.apply, Call.source, vfsSetCloexec] at hx ⊢
    split at hx
    · next ps i _ _ =>
        split_ifs at hx ⊢ with hu
        · exact .of_eq rfl hx
        · refine copyOf_setFlag ?_ (.cloexec _ _) hx
          simpa using fun h => hu (.inl h)
    · exact .of_eq rfl hx
  | cloneFds parentPid childPid =>
    rw [Call.apply, vfsCloneFds] at hx ⊢
    split at hx
    · next parent child hparent hchild =>
        by_cases hself : parentPid = childPid
        · rw [if_pos hself] at hx ⊢
          rw [source_eq_self (by simp) hx]
          exact .of_eq rfl hx
        rw [if_neg hself] at hx ⊢
        have hstart : Cloning parent t t :=
          ⟨fun _ _ => rfl, fun y hy => by rw [if_pos hy]; exact ⟨hy, rfl⟩⟩
        obtain ⟨hu, heq⟩ := cloneLoop_copied _ _ hstart hx
        rw [Call.source, hparent]
        exact ⟨hu, heq ▸ .refl _⟩
    · rw [source_eq_self (by simp) hx]
      exact .of_eq rfl hx
  | close pid fd =>
    refine Closes.copyOf_source (by simp) ?_ hx
    rw [Call.apply, vfsClose]
    split
    · split
      · next t' hc => exact closes_closeLocked hc
      · exact .refl t
    · exact .refl t
  | closeCloexec pid =>
    refine Closes.copyOf_source (by simp) ?_ hx
    rw [Call.apply, vfsCloseCloexec]
    split
    · exact .refl t
    generalize List.finRange fdMax = l
    refine closes_foldl (fun t i => ?_) l t
    split_ifs
    · exact closes_closeAny t _ i
    · exact .refl t
  | closePipesExcept pid keep0 keep1 =>
    refine Closes.copyOf_source (by simp) ?_ hx
    rw [Call.apply, vfsClosePipesExcept]
    split
    · exact .refl t
    split_ifs
    · exact .refl t
    · exact closes_closePipesLoop _ _ _ _ t
  | closeAll pid =>
    refine Closes.copyOf_source (by simp) ?_ hx
    rw [Call.apply, vfsCloseAll]
    split
    · exact .refl t
    · exact closes_closeAllLoop _ _ _ t
  | read y n =>
    refine Closes.copyOf_source (by simp) (fun z _ => ?_) hx
    rw [Call.apply, vfsReadPipe]
    split_ifs
    · split <;> rfl
    · rfl
  | write y buf =>
    refine Closes.copyOf_source (by simp) (fun z _ => ?_) hx
    rw [Call.apply, vfsWritePipe]
    split_ifs
    · split <;> rfl
    · rfl

end RixuriOS.Vfs
