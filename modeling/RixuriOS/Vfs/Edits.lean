import RixuriOS.Vfs.Descriptors

/-!
# What the descriptor calls can do

Copying and closing descriptors is made of four edits of the tables. What the
edits preserve, every call that copies or closes descriptors preserves.
-/

namespace RixuriOS.Vfs

open Ipc

/-- Two descriptors for the same object; only the append and the close-on-exec flag
may differ. -/
structure Fd.SameObject (fd fd' : Fd) : Prop where
  used : fd'.used = fd.used
  type : fd'.type = fd.type
  writable : fd'.writable = fd.writable
  inode : fd'.inode = fd.inode
  offset : fd'.offset = fd.offset
  pipe : fd'.pipe = fd.pipe
  pipeWrite : fd'.pipeWrite = fd.pipeWrite

theorem Fd.SameObject.cloexec (fd : Fd) (c : Bool) : fd.SameObject { fd with cloexec := c } :=
  ⟨rfl, rfl, rfl, rfl, rfl, rfl, rfl⟩

inductive Edit : Tables → Tables → Prop
  | copy (t : Tables) (x y : Fin processMax × Fin fdMax) (fd : Fd) :
      (t.fds y).used = true → (t.fds y).SameObject fd → Edit t (t.setFd x fd)
  | clear (t : Tables) (x : Fin processMax × Fin fdMax) : Edit t (t.setFd x (t.fds x).cleared)
  | retain (t : Tables) (i : Fin pipeMax) (w : Bool) (s : PipeSlot) :
      (t.pipes i).retain w = .ok s → Edit t (t.setSlot i s)
  | release (t : Tables) (i : Fin pipeMax) (w : Bool) (s : PipeSlot) :
      (t.pipes i).release w = some s → Edit t (t.setSlot i s)

abbrev Edits : Tables → Tables → Prop := Relation.ReflTransGen Edit

variable {t t' : Tables} {fd : Fd} {ps : Fin processMax} {i : Fin fdMax}

theorem retainFd_edits (h : retainFd t fd = .ok t') : Edits t t' ∧ t'.fds = t.fds := by
  unfold retainFd at h
  split_ifs at h with hu hpipe
  · split at h
    · simp at h
    split_ifs at h with hslot
    next i _ =>
      cases hr : (t.pipes i).retain fd.pipeWrite with
      | error e => simp [hr, Except.map] at h
      | ok s =>
      rw [hr, Except.map] at h
      cases h
      exact ⟨.single (.retain t i _ s hr), rfl⟩
  · cases h
    exact ⟨.refl, rfl⟩

theorem releaseFd_edits (h : releaseFd t fd = some t') : Edits t t' ∧ t'.fds = t.fds := by
  unfold releaseFd at h
  obtain ⟨i, hi, h⟩ := Option.bind_eq_some_iff.1 h
  split_ifs at h with hslot
  obtain ⟨s, hs, rfl⟩ := Option.map_eq_some_iff.1 h
  exact ⟨.single (.release t i _ s hs), rfl⟩

theorem closeLocked_edits (h : closeLocked t ps i = some t') :
    Edits t t' ∧ t'.fds = Function.update t.fds (ps, i) (t.fds (ps, i)).cleared := by
  rw [closeLocked] at h
  split_ifs at h with hu hpipe
  · obtain ⟨t₁, ht₁, rfl⟩ := Option.map_eq_some_iff.1 h
    obtain ⟨hedits, hfds⟩ := releaseFd_edits ht₁
    have hclear : Edit t₁ (t₁.setFd (ps, i) (t₁.fds (ps, i)).cleared) := .clear t₁ (ps, i)
    rw [hfds] at hclear
    exact ⟨hedits.tail hclear, by simp [Tables.setFd, hfds]⟩
  · obtain rfl : t.setFd (ps, i) (t.fds (ps, i)).cleared = t' := by simpa using h
    exact ⟨.single (.clear t (ps, i)), rfl⟩

theorem closeAny_edits (t : Tables) (ps : Fin processMax) (i : Fin fdMax) :
    Edits t (closeAny t ps i) := by
  unfold closeAny
  cases h : closeLocked t ps i with
  | none => exact .refl
  | some t' => exact (closeLocked_edits h).1

theorem foldl_edits {f : Tables → Fin fdMax → Tables} (hf : ∀ t i, Edits t (f t i))
    (l : List (Fin fdMax)) (t : Tables) : Edits t (l.foldl f t) := by
  induction l generalizing t with
  | nil => exact .refl
  | cons i l ih => exact (hf t i).trans (ih (f t i))

theorem dupFrom_edits (t : Tables) (ps : Fin processMax) (i : Fin fdMax) (lo : Nat)
    (hu : (t.fds (ps, i)).used = true) : Edits t (dupFrom t ps i lo).2.2 := by
  unfold dupFrom
  cases freeFd t ps lo with
  | none => exact .refl
  | some j =>
  cases hr : retainFd t (t.fds (ps, i)) with
  | error e => exact .refl
  | ok t' =>
  obtain ⟨hedits, hfds⟩ := retainFd_edits hr
  refine hedits.tail (.copy t' (ps, j) (ps, i) _ ?_ ?_)
  · rw [hfds, hu]
  · rw [hfds]
    exact .cloexec _ _

theorem vfsDupTo_edits (t : Tables) (pid : Nat) (oldFd newFd : Int) :
    Edits t (vfsDupTo t pid oldFd newFd).2 := by
  unfold vfsDupTo
  split
  · next ps i j _ _ _ =>
      split_ifs with hunused hsame
      · exact .refl
      · exact .refl
      have hu : (t.fds (ps, i)).used = true := by simpa using hunused
      cases hr : retainFd t (t.fds (ps, i)) with
      | error e => exact .refl
      | ok t' =>
      obtain ⟨hedits, hfds⟩ := retainFd_edits hr
      dsimp only
      split
      · cases hc : closeLocked t' ps j with
        | some t'' =>
          obtain ⟨hclose, hfds'⟩ := closeLocked_edits hc
          have hsource : t''.fds (ps, i) = t.fds (ps, i) := by
            rw [hfds', Function.update_of_ne (by simpa using hsame), hfds]
          refine (hedits.trans hclose).tail (.copy t'' (ps, j) (ps, i) _ ?_ ?_)
          · rw [hsource, hu]
          · rw [hsource]
            exact .cloexec _ _
        | none =>
          split_ifs
          · cases hrel : releaseFd t' { t.fds (ps, i) with cloexec := false } with
            | none => exact hedits
            | some t'' => exact hedits.trans (releaseFd_edits hrel).1
          · exact hedits
      refine hedits.tail (.copy t' (ps, j) (ps, i) _ ?_ ?_)
      · rw [hfds, hu]
      · rw [hfds]
        exact .cloexec _ _
  · exact .refl

theorem cloneLoop_edits (parent child : Fin processMax) (l copied : List (Fin fdMax))
    (t : Tables) : Edits t (cloneLoop parent child l copied t).2 := by
  induction l generalizing t copied with
  | nil => exact .refl
  | cons i l ih =>
    have hundo : Edits t (copied.foldl (fun t j => closeAny t child j) t) :=
      foldl_edits (fun t j => closeAny_edits t child j) copied t
    rw [cloneLoop]
    split_ifs with hparent hchild
    · exact hundo
    · cases hr : retainFd t (t.fds (parent, i)) with
      | error e => exact hundo
      | ok t' =>
        obtain ⟨hedits, hfds⟩ := retainFd_edits hr
        refine (hedits.tail (.copy t' (child, i) (parent, i) (t.fds (parent, i)) ?_ ?_)).trans
          (ih (copied ++ [i]) _)
        · rw [hfds, hparent]
        · rw [hfds]
          exact ⟨rfl, rfl, rfl, rfl, rfl, rfl, rfl⟩
    · exact ih copied t

theorem closePipesLoop_edits (ps : Fin processMax) (keep0 keep1 : Int) (l : List (Fin fdMax))
    (t : Tables) : Edits t (closePipesLoop ps keep0 keep1 l t).2 := by
  induction l generalizing t with
  | nil => exact .refl
  | cons i l ih =>
    rw [closePipesLoop]
    split_ifs
    · exact ih t
    · split
      · exact .refl
      · next t' hc => exact (closeLocked_edits hc).1.trans (ih t')
    · exact ih t

theorem closeAllLoop_edits (ps : Fin processMax) (l : List (Fin fdMax)) (rc : Int) (t : Tables) :
    Edits t (closeAllLoop ps l rc t).2 := by
  induction l generalizing t rc with
  | nil => exact .refl
  | cons i l ih =>
    rw [closeAllLoop]
    split_ifs
    · split
      · exact ih _ t
      · next t' hc => exact (closeLocked_edits hc).1.trans (ih _ t')
    · exact ih _ t

def Call.edits : Call → Bool
  | .open .. | .pipe _ | .read .. | .write .. => false
  | _ => true

theorem apply_edits (t : Tables) (c : Call) (hc : c.edits = true) : Edits t (c.apply t) := by
  cases c with
  | «open» | pipe | read | write => simp [Call.edits] at hc
  | dup pid oldFd =>
    rw [Call.apply, vfsDup]
    split
    · split_ifs with hu
      · exact dupFrom_edits t _ _ _ hu
      · exact .refl
    · exact .refl
  | dupMin pid oldFd minimumFd =>
    rw [Call.apply, vfsDupMin]
    split
    · split_ifs with hu
      · exact dupFrom_edits t _ _ _ hu
      · exact .refl
    · exact .refl
  | dupTo pid oldFd newFd => exact vfsDupTo_edits t pid oldFd newFd
  | setFdFlags pid fd flags =>
    rw [Call.apply, vfsSetFdFlags]
    split
    · split_ifs with hu
      · exact .refl
      · refine .single (.copy t _ _ _ ?_ ⟨rfl, rfl, rfl, rfl, rfl, rfl, rfl⟩)
        simpa using fun h => hu (.inl h)
    · exact .refl
  | setCloexec pid fd flags =>
    rw [Call.apply, vfsSetCloexec]
    split
    · split_ifs with hu
      · exact .refl
      · refine .single (.copy t _ _ _ ?_ (.cloexec _ _))
        simpa using fun h => hu (.inl h)
    · exact .refl
  | cloneFds parentPid childPid =>
    rw [Call.apply, vfsCloneFds]
    split
    · split_ifs
      · exact .refl
      · exact cloneLoop_edits _ _ _ _ t
    · exact .refl
  | close pid fd =>
    rw [Call.apply, vfsClose]
    split
    · split
      · next t' hcl => exact (closeLocked_edits hcl).1
      · exact .refl
    · exact .refl
  | closeCloexec pid =>
    rw [Call.apply, vfsCloseCloexec]
    split
    · exact .refl
    generalize List.finRange fdMax = l
    refine foldl_edits (fun t i => ?_) l t
    split_ifs
    · exact closeAny_edits t _ i
    · exact .refl
  | closePipesExcept pid keep0 keep1 =>
    rw [Call.apply, vfsClosePipesExcept]
    split
    · exact .refl
    split_ifs
    · exact .refl
    · exact closePipesLoop_edits _ _ _ _ t
  | closeAll pid =>
    rw [Call.apply, vfsCloseAll]
    split
    · exact .refl
    · exact closeAllLoop_edits _ _ _ t

end RixuriOS.Vfs
