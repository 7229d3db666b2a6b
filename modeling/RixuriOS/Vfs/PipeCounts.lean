import RixuriOS.Lib.Tally
import RixuriOS.Vfs.Descriptors

/-!
# Reference counts of pipes

The counts of a pipe slot are the numbers of descriptors, over the tables of all
processes, that name it. `vfs_dup_to` and `vfs_clone_fds` pass through states in
which a reference is taken and no descriptor holds it yet, so the invariant `Ok`
carries the list of such copies.
-/

namespace RixuriOS.Vfs

open Ipc Tally List Function Tables

def Fd.refers (i : Fin pipeMax) (fd : Fd) : Bool := fd.used && fd.pipe == some i

/-- The descriptor is in use and is the write end (or the read end) of slot `i`. -/
def Fd.holds (i : Fin pipeMax) (w : Bool) (fd : Fd) : Bool := fd.refers i && fd.pipeWrite == w

def Fd.Typed (fd : Fd) : Prop := fd.used = true → fd.isPipe = fd.pipe.isSome

def Fd.shown (fd : Fd) : Option Fd := if fd.used then some fd else none

variable {fd : Fd} {lo pid : Nat}

theorem Fd.holds_eq_of_shown {fd' : Fd} (h : fd.shown = fd'.shown) (i : Fin pipeMax) (w : Bool) :
    fd.holds i w = fd'.holds i w := by
  unfold Fd.shown at h
  cases hu : fd.used <;> cases hu' : fd'.used <;> simp_all [Fd.holds, Fd.refers]

theorem Fd.holds_unused (h : fd.used = false) (i : Fin pipeMax) (w : Bool) :
    fd.holds i w = false := by
  simp [Fd.holds, Fd.refers, h]

/-- The state of a slot whose read end is held `ends false` times and whose write end is
held `ends true` times. -/
structure SlotOk (s : PipeSlot) (ends : Bool → Nat) : Prop where
  reads : s.used = true → s.pipe.readRefs = ends false
  writes : s.used = true → s.pipe.writeRefs = ends true
  readOpen : s.used = true → s.pipe.readOpen = decide (ends false ≠ 0)
  writeOpen : s.used = true → s.pipe.writeOpen = decide (ends true ≠ 0)
  refs : s.used = true → s.refs = ends false + ends true
  pos : s.used = true → 0 < s.refs
  bound : s.used = true → s.refs ≤ uint8Max
  unused : s.used = false → ∀ w, ends w = 0

/-- A slot after operations that neither freed it nor closed its channel. -/
structure Kept (s s' : PipeSlot) : Prop where
  used : s'.used = s.used
  channel : s.used = true → s'.pipe.channel = s.pipe.channel
  idle : s.used = false → s' = s

theorem Kept.refl (s : PipeSlot) : Kept s s := ⟨rfl, fun _ => rfl, fun _ => rfl⟩

theorem Kept.trans {a b c : PipeSlot} (hab : Kept a b) (hbc : Kept b c) : Kept a c where
  used := hbc.used.trans hab.used
  channel h := (hbc.channel (hab.used.trans h)).trans (hab.channel h)
  idle h := (hbc.idle (hab.used.trans h)).trans (hab.idle h)

variable {s s' : PipeSlot} {ends : Bool → Nat} {w : Bool}

/-- The ends that hold a slot determine it, up to its channel. -/
theorem SlotOk.eq_of_kept (h : SlotOk s ends) (h' : SlotOk s' ends) (hk : Kept s s') : s' = s := by
  cases hu : s.used with
  | false => exact hk.idle hu
  | true =>
  have hu' : s'.used = true := hk.used.trans hu
  have hpipe : s'.pipe = s.pipe := by
    obtain ⟨⟨c, ro, wo, rr, wr⟩, u, n⟩ := s
    obtain ⟨⟨c', ro', wo', rr', wr'⟩, u', n'⟩ := s'
    have hc := hk.channel hu
    have hro := (h'.readOpen hu').trans (h.readOpen hu).symm
    have hwo := (h'.writeOpen hu').trans (h.writeOpen hu).symm
    have hrr := (h'.reads hu').trans (h.reads hu).symm
    have hwr := (h'.writes hu').trans (h.writes hu).symm
    simp_all
  have hrefs : s'.refs = s.refs := (h'.refs hu').trans (h.refs hu).symm
  obtain ⟨p, u, n⟩ := s
  obtain ⟨p', u', n'⟩ := s'
  simp_all

theorem SlotOk.retain (h : SlotOk s ends) (hu : s.used = true) (hr : s.retain w = .ok s') :
    SlotOk s' (fun v => ends v + (v == w).toNat) ∧ Kept s s' := by
  have hreads := h.reads hu
  have hwrites := h.writes hu
  have hrefs := h.refs hu
  have hbound := h.bound hu
  have hro := h.readOpen hu
  have hwo := h.writeOpen hu
  unfold PipeSlot.retain at hr
  by_cases hmax : s.refs = uint8Max
  · simp [hmax] at hr
  rw [if_neg hmax] at hr
  cases w with
  | false =>
    simp only [Bool.false_eq_true, if_false, pipeRetainRead] at hr
    split_ifs at hr with hopen
    have hne : ends false ≠ 0 := by
      intro h0
      simp [hro, h0] at hopen
    cases hr
    refine ⟨?_, rfl, fun _ => rfl, fun hf => by simp [hu] at hf⟩
    constructor <;> intro _ <;> simp_all <;> omega
  | true =>
    simp only [if_true, pipeRetainWrite] at hr
    split_ifs at hr with hopen
    cases hr
    refine ⟨?_, rfl, fun _ => rfl, fun hf => by simp [hu] at hf⟩
    constructor <;> intro _ <;> simp_all <;> omega

/-- A slot that gives back a reference to its end `w`; the channel stays open while the
end is still held. -/
theorem SlotOk.release (h : SlotOk s (fun v => ends v + (v == w).toNat)) (hu : s.used = true) :
    ∃ s', s.release w = some s' ∧ SlotOk s' ends ∧ (ends w ≠ 0 → Kept s s') := by
  have hbound := h.bound hu
  cases w with
  | false =>
    have hreads : s.pipe.readRefs = ends false + 1 := by simpa using h.reads hu
    have hwrites : s.pipe.writeRefs = ends true := by simpa using h.writes hu
    have hrefs : s.refs = ends false + 1 + ends true := by simpa using h.refs hu
    have hro : s.pipe.readOpen = true := by simpa using h.readOpen hu
    have hwo : s.pipe.writeOpen = decide (ends true ≠ 0) := by simpa using h.writeOpen hu
    refine ⟨{ pipe := { s.pipe with readRefs := ends false, readOpen := ends false ≠ 0 }
              refs := ends false + ends true, used := ends false + ends true ≠ 0 }, ?_, ?_, ?_⟩
    · have hsub : s.refs - 1 = ends false + ends true := by omega
      simp [PipeSlot.release, pipeCloseRead, hreads, hro, hu, hsub]
    · constructor <;> intro hused <;> simp_all <;> omega
    · intro hne
      exact ⟨by simp [hu, hne], fun _ => rfl, fun hf => by simp [hu] at hf⟩
  | true =>
    have hreads : s.pipe.readRefs = ends false := by simpa using h.reads hu
    have hwrites : s.pipe.writeRefs = ends true + 1 := by simpa using h.writes hu
    have hrefs : s.refs = ends false + (ends true + 1) := by simpa using h.refs hu
    have hro : s.pipe.readOpen = decide (ends false ≠ 0) := by simpa using h.readOpen hu
    have hwo : s.pipe.writeOpen = true := by simpa using h.writeOpen hu
    have hsub : s.refs - 1 = ends false + ends true := by omega
    by_cases hlast : ends true = 0
    · -- the last writer closes the channel
      refine ⟨{ pipe := { s.pipe with
                  writeRefs := 0, writeOpen := false, channel := ipcClose s.pipe.channel }
                refs := ends false + ends true, used := ends false + ends true ≠ 0 }, ?_, ?_, ?_⟩
      · simp [PipeSlot.release, pipeCloseWrite, hwrites, hwo, hu, hsub, hlast]
      · constructor <;> intro hused <;> simp_all <;> omega
      · exact fun hne => absurd hlast hne
    refine ⟨{ pipe := { s.pipe with writeRefs := ends true }
              refs := ends false + ends true, used := ends false + ends true ≠ 0 }, ?_, ?_, ?_⟩
    · simp [PipeSlot.release, pipeCloseWrite, hwrites, hwo, hu, hsub, hlast]
    · constructor <;> intro hused <;> simp_all <;> omega
    · intro hne
      exact ⟨by simp [hu, hne], fun _ => rfl, fun hf => by simp [hu] at hf⟩

/-- The holders of the end `w` of slot `i`: descriptors in the tables and copies that are
not stored yet. -/
def holders (t : Tables) (held : List Fd) (i : Fin pipeMax) (w : Bool) : Nat :=
  tally (Fd.holds i w) t.fds + held.countP (Fd.holds i w)

structure Ok (t : Tables) (held : List Fd) : Prop where
  slots : ∀ i, SlotOk (t.pipes i) (holders t held i)
  typed : ∀ x, (t.fds x).Typed
  heldTyped : ∀ fd ∈ held, fd.Typed

variable {t t' : Tables} {held : List Fd} {fd' : Fd} {x : Fin processMax × Fin fdMax}

theorem holders_cons (t : Tables) (held : List Fd) (fd : Fd) (i : Fin pipeMax) (w : Bool) :
    holders t (fd :: held) i w = holders t held i w + (fd.holds i w).toNat := by
  unfold holders
  rw [countP_cons]
  cases fd.holds i w <;> simp; omega

theorem holders_setFd (t : Tables) (held : List Fd) (x : Fin processMax × Fin fdMax) (fd : Fd)
    (i : Fin pipeMax) (w : Bool) :
    holders (t.setFd x fd) held i w + ((t.fds x).holds i w).toNat =
      holders t held i w + (fd.holds i w).toNat := by
  have h := tally_update (Fd.holds i w) t.fds x fd
  simp only [holders, setFd]
  omega

@[simp] theorem holders_setSlot (t : Tables) (i : Fin pipeMax) (s : PipeSlot) (held : List Fd) :
    holders (t.setSlot i s) held = holders t held := rfl

variable {i : Fin pipeMax}

theorem Fd.holds_toNat (hu : fd.used = true) (hp : fd.pipe = some i) (w : Bool) :
    (fd.holds i w).toNat = (w == fd.pipeWrite).toNat := by
  cases w <;> cases h : fd.pipeWrite <;> simp [Fd.holds, Fd.refers, hu, hp, h]

theorem Fd.holds_of_ne {j : Fin pipeMax} (hp : fd.pipe = some i) (hne : j ≠ i) (w : Bool) :
    fd.holds j w = false := by
  simp [Fd.holds, Fd.refers, hp, Ne.symm hne]

theorem Fd.holds_of_none (hp : fd.pipe = none) (j : Fin pipeMax) (w : Bool) :
    fd.holds j w = false := by
  simp [Fd.holds, Fd.refers, hp]

/-- What `retain_fd` takes is one reference, held by the copy. -/
theorem Ok.retain (hok : Ok t held) (htyped : fd.Typed) (hr : retainFd t fd = .ok t') :
    Ok t' (fd :: held) ∧ t'.fds = t.fds ∧ fd.used = true ∧
      ∀ i, Kept (t.pipes i) (t'.pipes i) := by
  have hcopies : ∀ g ∈ fd :: held, g.Typed := by
    intro g hg
    obtain rfl | hg := mem_cons.1 hg
    · exact htyped
    · exact hok.heldTyped g hg
  unfold retainFd at hr
  cases hu : fd.used with
  | false => simp [hu] at hr
  | true =>
  simp only [hu, Bool.not_true, Bool.false_eq_true, if_false] at hr
  cases hpipe : fd.pipe with
  | none =>
    have hnot : fd.isPipe = false := by simpa [hpipe] using htyped hu
    simp only [hnot, Bool.false_eq_true, if_false] at hr
    cases hr
    refine ⟨⟨fun i => ?_, hok.typed, hcopies⟩, rfl, rfl, fun i => Kept.refl _⟩
    have hsame : holders t (fd :: held) i = holders t held i := by
      funext w
      rw [holders_cons, Fd.holds_of_none hpipe]
      simp
    rw [hsame]
    exact hok.slots i
  | some i =>
    have his : fd.isPipe = true := by simpa [hpipe] using htyped hu
    simp only [his, hpipe, if_true] at hr
    split_ifs at hr with hused
    cases hret : (t.pipes i).retain fd.pipeWrite with
    | error e => simp [hret, Except.map] at hr
    | ok s' =>
    rw [hret, Except.map] at hr
    cases hr
    obtain ⟨hslot, hkept⟩ := (hok.slots i).retain hused hret
    refine ⟨⟨fun j => ?_, hok.typed, hcopies⟩, rfl, rfl, fun j => ?_⟩
    · by_cases hj : j = i
      · subst hj
        have hmore : holders (t.setSlot j s') (fd :: held) j =
            fun v => holders t held j v + (v == fd.pipeWrite).toNat := by
          funext w
          rw [holders_cons, Fd.holds_toNat hu hpipe, holders_setSlot]
        rw [hmore]
        simpa [setSlot] using hslot
      have hsame : holders (t.setSlot i s') (fd :: held) j = holders t held j := by
        funext w
        rw [holders_cons, Fd.holds_of_ne hpipe hj, holders_setSlot]
        simp
      rw [hsame]
      simpa [setSlot, hj] using hok.slots j
    by_cases hj : j = i
    · subst hj
      simpa [setSlot] using hkept
    · simpa [setSlot, hj] using Kept.refl (t.pipes j)

theorem Ok.release (hok : Ok t (fd :: held)) (hu : fd.used = true) (his : fd.isPipe = true) :
    ∃ t', releaseFd t fd = some t' ∧ Ok t' held ∧ t'.fds = t.fds ∧
      ((∀ i w, fd.holds i w = true → holders t held i w ≠ 0) →
        ∀ i, Kept (t.pipes i) (t'.pipes i)) := by
  have htyped := hok.heldTyped fd (by simp)
  have hrest : ∀ g ∈ held, g.Typed := fun g hg => hok.heldTyped g (by simp [hg])
  obtain ⟨i, hpipe⟩ : ∃ i, fd.pipe = some i := by
    rw [← Option.isSome_iff_exists, ← htyped hu, his]
  have hmore : holders t (fd :: held) i =
      fun v => holders t held i v + (v == fd.pipeWrite).toNat := by
    funext w
    rw [holders_cons, Fd.holds_toNat hu hpipe]
  have hslot := hok.slots i
  rw [hmore] at hslot
  have hused : (t.pipes i).used = true := by
    by_contra hfree
    have h0 := hslot.unused (by simpa using hfree) fd.pipeWrite
    simp at h0
  obtain ⟨s', hs', hnew, hkept⟩ := hslot.release hused
  refine ⟨t.setSlot i s', by simp [releaseFd, hpipe, hused, hs'], ⟨fun j => ?_, hok.typed, hrest⟩,
    rfl, fun hheld j => ?_⟩
  · by_cases hj : j = i
    · subst hj
      rw [holders_setSlot]
      simpa [setSlot] using hnew
    have hsame : holders (t.setSlot i s') held j = holders t (fd :: held) j := by
      funext w
      rw [holders_cons, Fd.holds_of_ne hpipe hj, holders_setSlot]
      simp
    rw [hsame]
    simpa [setSlot, hj] using hok.slots j
  by_cases hj : j = i
  · subst hj
    have hw : fd.holds j fd.pipeWrite = true := by simp [Fd.holds, Fd.refers, hu, hpipe]
    simpa [setSlot] using hkept (hheld j fd.pipeWrite hw)
  · simpa [setSlot, hj] using Kept.refl (t.pipes j)

theorem Ok.store (hok : Ok t (fd :: held)) (hfree : (t.fds x).used = false) (htyped : fd'.Typed)
    (hsame : ∀ i w, fd'.holds i w = fd.holds i w) : Ok (t.setFd x fd') held where
  slots i := by
    have hcount : holders (t.setFd x fd') held i = holders t (fd :: held) i := by
      funext w
      have h := holders_setFd t held x fd' i w
      rw [Fd.holds_unused hfree, hsame] at h
      rw [holders_cons]
      simpa using h
    rw [hcount]
    exact hok.slots i
  typed y := by
    by_cases hy : y = x
    · subst hy
      simpa [setFd] using htyped
    · simpa [setFd, hy] using hok.typed y
  heldTyped g hg := hok.heldTyped g (by simp [hg])

theorem Ok.lift (hok : Ok t held) (hfd : fd.used = false) :
    Ok (t.setFd x fd) (t.fds x :: held) where
  slots i := by
    have hcount : holders (t.setFd x fd) (t.fds x :: held) i = holders t held i := by
      funext w
      have h := holders_setFd t held x fd i w
      rw [Fd.holds_unused hfd] at h
      rw [holders_cons]
      simpa using h
    rw [hcount]
    exact hok.slots i
  typed y := by
    by_cases hy : y = x
    · subst hy
      intro hused
      simp [setFd, hfd] at hused
    · simpa [setFd, hy] using hok.typed y
  heldTyped g hg := by
    obtain rfl | hg := mem_cons.1 hg
    · exact hok.typed x
    · exact hok.heldTyped g hg

theorem Ok.edit (hok : Ok t held) (htyped : fd.Typed)
    (hsame : ∀ i w, fd.holds i w = (t.fds x).holds i w) : Ok (t.setFd x fd) held where
  slots i := by
    have hcount : holders (t.setFd x fd) held i = holders t held i := by
      funext w
      have h := holders_setFd t held x fd i w
      rw [hsame] at h
      omega
    rw [hcount]
    exact hok.slots i
  typed y := by
    by_cases hy : y = x
    · subst hy
      simpa [setFd] using htyped
    · simpa [setFd, hy] using hok.typed y
  heldTyped := hok.heldTyped

/-! ## The calls -/

theorem releaseFd_setFd (t : Tables) (x : Fin processMax × Fin fdMax) (fd fd' : Fd) :
    releaseFd (t.setFd x fd') fd = (releaseFd t fd).map fun t' => t'.setFd x fd' := by
  unfold releaseFd
  cases fd.pipe with
  | none => rfl
  | some i =>
  by_cases hu : (t.pipes i).used = true
  · simp only [setFd, Option.bind_some, hu, if_true, Option.map_map]
    rfl
  · simp [setFd, hu]

section Close

variable {ps : Fin processMax} {i : Fin fdMax}

theorem Ok.close (hok : Ok t held) (hu : (t.fds (ps, i)).used = true) :
    ∃ t', closeLocked t ps i = some t' ∧ Ok t' held ∧
      t'.fds = update t.fds (ps, i) (t.fds (ps, i)).cleared ∧
      ((∀ j w, (t.fds (ps, i)).holds j w = true → 2 ≤ holders t held j w) →
        ∀ j, Kept (t.pipes j) (t'.pipes j)) := by
  have hlift : Ok (t.setFd (ps, i) (t.fds (ps, i)).cleared) (t.fds (ps, i) :: held) :=
    hok.lift rfl
  cases his : (t.fds (ps, i)).isPipe with
  | false =>
    refine ⟨t.setFd (ps, i) (t.fds (ps, i)).cleared, by simp [closeLocked, hu, his], ?_, rfl,
      fun _ j => Kept.refl _⟩
    have hnone : (t.fds (ps, i)).pipe = none := by
      have h := hok.typed (ps, i) hu
      rw [his] at h
      simpa using h.symm
    refine hok.edit (fun hf => by simp [Fd.cleared] at hf) fun j w => ?_
    rw [Fd.holds_of_none hnone, Fd.holds_unused rfl]
  | true =>
    obtain ⟨t', ht', hok', hfds, hkept⟩ := hlift.release hu his
    rw [releaseFd_setFd] at ht'
    refine ⟨t', by simpa [closeLocked, hu, his] using ht', hok', hfds, fun htwo => ?_⟩
    refine hkept fun j w hw => ?_
    have hcount := holders_setFd t held (ps, i) (t.fds (ps, i)).cleared j w
    have hge := htwo j w hw
    rw [hw, Fd.holds_unused rfl] at hcount
    rw [Bool.toNat_true, Bool.toNat_false] at hcount
    omega

theorem closeLocked_unused (hu : (t.fds (ps, i)).used = false) : closeLocked t ps i = none := by
  simp [closeLocked, hu]

theorem Ok.closeLocked (hok : Ok t held) (hc : closeLocked t ps i = some t') : Ok t' held := by
  cases hu : (t.fds (ps, i)).used with
  | false => simp [closeLocked_unused hu] at hc
  | true =>
  obtain ⟨t₁, ht₁, hok₁, -⟩ := hok.close hu
  cases ht₁.symm.trans hc
  exact hok₁

theorem Ok.closeAny (hok : Ok t held) : Ok (closeAny t ps i) held := by
  unfold Vfs.closeAny
  cases hc : Vfs.closeLocked t ps i with
  | none => exact hok
  | some t' => exact hok.closeLocked hc

end Close

section Loops

variable {ps : Fin processMax}

theorem Ok.foldl {f : Tables → Fin fdMax → Tables} (hf : ∀ t i, Ok t held → Ok (f t i) held)
    (l : List (Fin fdMax)) (hok : Ok t held) : Ok (l.foldl f t) held := by
  induction l generalizing t with
  | nil => exact hok
  | cons i l ih => exact ih (hf t i hok)

theorem Ok.closePipesLoop {keep0 keep1 : Int} (l : List (Fin fdMax)) (hok : Ok t held) :
    Ok (closePipesLoop ps keep0 keep1 l t).2 held := by
  induction l generalizing t with
  | nil => exact hok
  | cons i l ih =>
    rw [Vfs.closePipesLoop]
    split_ifs
    · exact ih hok
    · split
      · exact hok
      · next t' hc => exact ih (hok.closeLocked hc)
    · exact ih hok

theorem Ok.closeAllLoop (l : List (Fin fdMax)) (rc : Int) (hok : Ok t held) :
    Ok (closeAllLoop ps l rc t).2 held := by
  induction l generalizing t rc with
  | nil => exact hok
  | cons i l ih =>
    rw [Vfs.closeAllLoop]
    split_ifs
    · split
      · exact ih _ hok
      · next t' hc => exact ih _ (hok.closeLocked hc)
    · exact ih _ hok

end Loops

theorem Fd.holds_cloexec (fd : Fd) (c : Bool) (i : Fin pipeMax) (w : Bool) :
    Fd.holds i w { fd with cloexec := c } = fd.holds i w := rfl

variable {ps : Fin processMax}

theorem freeFd_unused {i : Fin fdMax} (h : freeFd t ps lo = some i) :
    (t.fds (ps, i)).used = false ∧ lo ≤ i.val := by
  have hfound := find?_some h
  rw [Bool.and_eq_true, decide_eq_true_eq, Bool.not_eq_true'] at hfound
  exact ⟨hfound.2, hfound.1⟩

theorem Ok.dupFrom {i : Fin fdMax} (hok : Ok t held) : Ok (dupFrom t ps i lo).2.2 held := by
  unfold Vfs.dupFrom
  cases hfree : freeFd t ps lo with
  | none => exact hok
  | some j =>
  cases hr : retainFd t (t.fds (ps, i)) with
  | error e => exact hok
  | ok t' =>
  obtain ⟨hok', hfds, -, -⟩ := hok.retain (hok.typed (ps, i)) hr
  refine hok'.store ?_ (hok.typed (ps, i)) (Fd.holds_cloexec _ _)
  rw [hfds]
  exact (freeFd_unused hfree).1

theorem Ok.dupTo {oldFd newFd : Int} (hok : Ok t held) :
    Ok (vfsDupTo t pid oldFd newFd).2 held := by
  unfold vfsDupTo
  split
  · next ps i j _ _ _ =>
      split_ifs with hused hsame
      · exact hok
      · exact hok
      cases hr : retainFd t (t.fds (ps, i)) with
      | error e => exact hok
      | ok t' =>
      obtain ⟨hok', hfds, hu, -⟩ := hok.retain (hok.typed (ps, i)) hr
      dsimp only
      by_cases htarget : (t'.fds (ps, j)).used = true
      · -- the copy is held while its target is closed
        obtain ⟨t'', hc, hok'', hfds'', -⟩ := hok'.close htarget
        rw [if_pos htarget, hc]
        refine hok''.store ?_ (hok.typed (ps, i)) (Fd.holds_cloexec _ _)
        rw [hfds'']
        simp [Fd.cleared]
      rw [if_neg htarget]
      refine hok'.store ?_ (hok.typed (ps, i)) (Fd.holds_cloexec _ _)
      simpa using htarget
  · exact hok

theorem Ok.cloneLoop {parent child : Fin processMax} (l copied : List (Fin fdMax))
    (hok : Ok t held) : Ok (cloneLoop parent child l copied t).2 held := by
  have hundo (t : Tables) (copied : List (Fin fdMax)) (hok : Ok t held) :
      Ok (copied.foldl (fun t j => Vfs.closeAny t child j) t) held :=
    hok.foldl (fun _ _ h => h.closeAny) copied
  induction l generalizing t copied with
  | nil => exact hok
  | cons i l ih =>
    rw [Vfs.cloneLoop]
    split_ifs with hparent hchild
    · exact hundo t copied hok
    · cases hr : retainFd t (t.fds (parent, i)) with
      | error e => exact hundo t copied hok
      | ok t' =>
        obtain ⟨hok', hfds, -, -⟩ := hok.retain (hok.typed (parent, i)) hr
        refine ih (copied ++ [i]) (hok'.store ?_ (hok.typed (parent, i)) fun _ _ => rfl)
        rw [hfds]
        simpa using hchild
    · exact ih copied hok

theorem Ok.newSlot (hok : Ok t held) (hfree : (t.pipes i).used = false) (p : Pipe) :
    Ok (t.setSlot i { pipe := pipeInit p, used := true, refs := 2 })
      (pipeEnd i false :: pipeEnd i true :: held) := by
  refine ⟨fun j => ?_, hok.typed, ?_⟩
  · by_cases hj : j = i
    · subst hj
      have hone : holders t (pipeEnd j false :: pipeEnd j true :: held) j = fun _ => 1 := by
        funext v
        rw [holders_cons, holders_cons, (hok.slots j).unused hfree v, Fd.holds_toNat rfl rfl,
          Fd.holds_toNat rfl rfl]
        cases v <;> rfl
      rw [holders_setSlot, hone]
      constructor <;> simp [setSlot, pipeInit, uint8Max]
    have hsame : holders t (pipeEnd i false :: pipeEnd i true :: held) j = holders t held j := by
      funext v
      rw [holders_cons, holders_cons, Fd.holds_of_ne rfl hj, Fd.holds_of_ne rfl hj]
      simp
    rw [holders_setSlot, hsame]
    simpa [setSlot, hj] using hok.slots j
  intro g hg
  simp only [mem_cons] at hg
  obtain rfl | rfl | hg := hg
  · exact fun _ => rfl
  · exact fun _ => rfl
  · exact hok.heldTyped g hg

theorem Ok.pipe (hok : Ok t held) : Ok (vfsPipe t pid).2.2 held := by
  unfold vfsPipe
  cases pidSlot pid with
  | none => exact hok
  | some ps =>
  dsimp only
  cases hr : freeFd t ps stdioReserved with
  | none => exact hok
  | some r =>
  dsimp only
  cases hw : freeFd t ps (r + 1) with
  | none => exact hok
  | some w =>
  cases hi : (finRange pipeMax).find? fun i => !(t.pipes i).used with
  | none => exact hok
  | some i =>
  have hfree : (t.pipes i).used = false := by simpa using find?_some hi
  have hne : w ≠ r := by
    rintro rfl
    have hlt := (freeFd_unused hw).2
    omega
  have hread := (hok.newSlot hfree (t.pipes i).pipe).store (x := (ps, r))
    (freeFd_unused hr).1 (fun _ => rfl) fun _ _ => rfl
  refine hread.store ?_ (fun _ => rfl) fun _ _ => rfl
  simpa [setFd, setSlot, hne] using (freeFd_unused hw).1

theorem Ok.setPipe {p : Pipe} (hok : Ok t held) (hro : p.readOpen = (t.pipes i).pipe.readOpen)
    (hwo : p.writeOpen = (t.pipes i).pipe.writeOpen) (hrr : p.readRefs = (t.pipes i).pipe.readRefs)
    (hwr : p.writeRefs = (t.pipes i).pipe.writeRefs) :
    Ok (t.setSlot i { t.pipes i with pipe := p }) held := by
  refine ⟨fun j => ?_, hok.typed, hok.heldTyped⟩
  rw [holders_setSlot]
  by_cases hj : j = i
  · subst hj
    have h := hok.slots j
    have hpipe : (t.setSlot j { t.pipes j with pipe := p }).pipes j = { t.pipes j with pipe := p } := by
      simp [setSlot]
    rw [hpipe]
    exact ⟨fun hu => hrr.trans (h.reads hu), fun hu => hwr.trans (h.writes hu),
      fun hu => hro.trans (h.readOpen hu), fun hu => hwo.trans (h.writeOpen hu), h.refs, h.pos,
      h.bound, h.unused⟩
  · simpa [setSlot, hj] using hok.slots j

theorem Ok.readPipe {n : Nat} (hok : Ok t held) :
    Ok (((vfsReadPipe t x n).map fun r => r.2.2).getD t) held := by
  unfold vfsReadPipe
  split_ifs
  · cases (t.fds x).pipe with
    | none => exact hok
    | some i =>
      refine hok.setPipe ?_ ?_ ?_ ?_ <;> unfold Ipc.pipeRead <;> split_ifs <;> rfl
  · exact hok

theorem Ok.writePipe {buf : List UInt8} (hok : Ok t held) :
    Ok (((vfsWritePipe t x buf).map fun r => r.2.2).getD t) held := by
  unfold vfsWritePipe
  split_ifs
  · cases (t.fds x).pipe with
    | none => exact hok
    | some i =>
      refine hok.setPipe ?_ ?_ ?_ ?_ <;> unfold Ipc.pipeWrite <;> split_ifs <;> rfl
  · exact hok

theorem Ok.openFd {type : FdType} {inode : Nat} {writable append cloexec : Bool} (hok : Ok t held)
    (htype : type = .file ∨ type = .dir) :
    Ok (((openFd t ps type inode writable append cloexec).map Prod.snd).getD t) held := by
  unfold Vfs.openFd
  cases hfree : freeFd t ps stdioReserved with
  | none => exact hok
  | some i =>
  refine hok.edit (fun _ => ?_) fun j w => ?_
  · obtain rfl | rfl := htype <;> rfl
  · rw [Fd.holds_unused (freeFd_unused hfree).1]
    exact Fd.holds_of_none rfl j w

theorem Ok.apply (hok : Ok t held) (c : Call) : Ok (c.apply t) held := by
  cases c with
  | «open» ps type inode writable append cloexec =>
    rw [Call.apply]
    split_ifs with htype
    · exact hok.openFd htype
    · exact hok
  | pipe pid => exact hok.pipe
  | dup pid oldFd =>
    rw [Call.apply, vfsDup]
    split
    · split_ifs
      · exact hok.dupFrom
      · exact hok
    · exact hok
  | dupMin pid oldFd minimumFd =>
    rw [Call.apply, vfsDupMin]
    split
    · split_ifs
      · exact hok.dupFrom
      · exact hok
    · exact hok
  | dupTo pid oldFd newFd => exact hok.dupTo
  | setFdFlags pid fd flags =>
    rw [Call.apply, vfsSetFdFlags]
    split
    · split_ifs
      · exact hok
      · next ps i _ _ _ => exact hok.edit (hok.typed (ps, i)) fun _ _ => rfl
    · exact hok
  | setCloexec pid fd flags =>
    rw [Call.apply, vfsSetCloexec]
    split
    · split_ifs
      · exact hok
      · next ps i _ _ _ => exact hok.edit (hok.typed (ps, i)) fun _ _ => rfl
    · exact hok
  | cloneFds parentPid childPid =>
    rw [Call.apply, vfsCloneFds]
    split
    · split_ifs
      · exact hok
      · exact hok.cloneLoop _ _
    · exact hok
  | close pid fd =>
    rw [Call.apply, vfsClose]
    split
    · split
      · next t' hc => exact hok.closeLocked hc
      · exact hok
    · exact hok
  | closeCloexec pid =>
    rw [Call.apply, vfsCloseCloexec]
    split
    · exact hok
    generalize finRange fdMax = l
    refine hok.foldl (fun t i h => ?_) l
    split_ifs
    · exact h.closeAny
    · exact h
  | closePipesExcept pid keep0 keep1 =>
    rw [Call.apply, vfsClosePipesExcept]
    split
    · exact hok
    split_ifs
    · exact hok
    · exact hok.closePipesLoop _
  | closeAll pid =>
    rw [Call.apply, vfsCloseAll]
    split
    · exact hok
    · exact hok.closeAllLoop _ _
  | read x n => exact hok.readPipe
  | write x buf => exact hok.writePipe

/-- After `vfs_init` no descriptor and no slot is in use, whatever the tables held. -/
theorem vfsInit_ok (t : Tables) : Ok (vfsInit t) [] where
  slots i := by
    have hzero : holders (vfsInit t) [] i = fun _ => 0 := by
      funext w
      have hunused (x) : ((vfsInit t).fds x).used = false := rfl
      have htally : tally (Fd.holds i w) (vfsInit t).fds = 0 :=
        tally_eq_zero fun x => Fd.holds_unused (hunused x) i w
      simp [holders, htally]
    rw [hzero]
    constructor <;> simp [vfsInit]
  typed x hu := by simp [vfsInit] at hu
  heldTyped := by simp

theorem callRun_ok (hok : Ok t []) (calls : List Call) : Ok (callRun t calls) [] := by
  induction calls generalizing t with
  | nil => exact hok
  | cons c calls ih => exact ih (hok.apply c)

/-! ## A failing clone -/

/-- The tables while `vfs_clone_fds` copies the descriptors of `parent`, begun at `t₀`: the
entries `copied` of `child` hold copies, and nothing else changed. -/
structure Copying (parent child : Fin processMax) (t₀ t : Tables) (copied : List (Fin fdMax)) :
    Prop where
  ok : Ok t []
  kept : ∀ i, Kept (t₀.pipes i) (t.pipes i)
  nodup : copied.Nodup
  copies : ∀ j ∈ copied, t.fds (child, j) = t₀.fds (parent, j) ∧
    (t₀.fds (parent, j)).used = true ∧ (t₀.fds (child, j)).used = false
  others : ∀ x, (∀ j ∈ copied, x ≠ (child, j)) → (t.fds x).shown = (t₀.fds x).shown

section Clone

variable {parent child : Fin processMax} {t₀ : Tables} {copied : List (Fin fdMax)} {i : Fin fdMax}

theorem Fd.eq_of_shown (h : fd.shown = fd'.shown) (hu : fd'.used = true) : fd = fd' := by
  unfold Fd.shown at h
  cases hu' : fd.used <;> simp_all

theorem Fd.shown_unused (hu : fd.used = false) : fd.shown = none := by
  simp [Fd.shown, hu]

theorem Copying.parent_eq (hne : parent ≠ child) (h : Copying parent child t₀ t copied)
    (hu : (t₀.fds (parent, i)).used = true) : t.fds (parent, i) = t₀.fds (parent, i) :=
  Fd.eq_of_shown (h.others _ fun _ _ hx => hne (Prod.ext_iff.1 hx).1) hu

/-- Closing the first copy: the parent's descriptor still holds the pipe. -/
theorem Copying.closeAny (hne : parent ≠ child)
    (h : Copying parent child t₀ t (i :: copied)) :
    Copying parent child t₀ (closeAny t child i) copied := by
  obtain ⟨hcopy, hparent, hchild⟩ := h.copies i (by simp)
  have hused : (t.fds (child, i)).used = true := by rw [hcopy, hparent]
  obtain ⟨t', hc, hok', hfds, hkept⟩ := h.ok.close hused
  have hnotin := (nodup_cons.1 h.nodup).1
  have heq : Vfs.closeAny t child i = t' := by simp [Vfs.closeAny, hc]
  rw [heq]
  refine ⟨hok', fun j => (h.kept j).trans (hkept (fun j' w hw => ?_) j),
    (nodup_cons.1 h.nodup).2, fun j hj => ?_, fun x hx => ?_⟩
  · have hboth : (t.fds (parent, i)).holds j' w = true := by
      rw [h.parent_eq hne hparent, ← hcopy, hw]
    have htwo := two_le_tally (f := t.fds) (x := (child, i)) (y := (parent, i))
      (fun hx => hne (Prod.ext_iff.1 hx).1.symm) hw hboth
    simpa [holders] using htwo
  · have hji : j ≠ i := by
      rintro rfl
      exact hnotin hj
    rw [hfds, update_of_ne (by simp [hji])]
    exact h.copies j (by simp [hj])
  by_cases hxi : x = (child, i)
  · subst hxi
    rw [hfds, update_self, Fd.shown_unused rfl, Fd.shown_unused hchild]
  rw [hfds, update_of_ne hxi]
  refine h.others x fun j hj => ?_
  obtain rfl | hj := mem_cons.1 hj
  · exact hxi
  · exact hx j hj

theorem Copying.undo (hne : parent ≠ child) (h : Copying parent child t₀ t copied) :
    Copying parent child t₀ (copied.foldl (fun t j => Vfs.closeAny t child j) t) [] := by
  induction copied generalizing t with
  | nil => exact h
  | cons i copied ih => exact ih (h.closeAny hne)

theorem Copying.restored (h : Copying parent child t₀ t []) (hok₀ : Ok t₀ []) :
    (∀ x, (t.fds x).shown = (t₀.fds x).shown) ∧ t.pipes = t₀.pipes := by
  have hshown x : (t.fds x).shown = (t₀.fds x).shown := h.others x (by simp)
  refine ⟨hshown, funext fun i => ?_⟩
  have hsame : holders t [] i = holders t₀ [] i := by
    funext w
    have htally : tally (Fd.holds i w) t.fds = tally (Fd.holds i w) t₀.fds :=
      tally_congr fun x => Fd.holds_eq_of_shown (hshown x) i w
    simp [holders, htally]
  have hslot := h.ok.slots i
  rw [hsame] at hslot
  exact (hok₀.slots i).eq_of_kept hslot (h.kept i)

theorem Copying.copy (hne : parent ≠ child) (h : Copying parent child t₀ t copied)
    (hi : i ∉ copied) (hparent : (t.fds (parent, i)).used = true)
    (hchild : (t.fds (child, i)).used = false) (hr : retainFd t (t.fds (parent, i)) = .ok t') :
    Copying parent child t₀ (t'.setFd (child, i) (t.fds (parent, i))) (copied ++ [i]) := by
  obtain ⟨hok', hfds, -, hkept⟩ := h.ok.retain (h.ok.typed (parent, i)) hr
  have hshown : (t.fds (parent, i)).shown = (t₀.fds (parent, i)).shown :=
    h.others _ fun j _ hx => hne (Prod.ext_iff.1 hx).1
  have hsource : t₀.fds (parent, i) = t.fds (parent, i) := Fd.eq_of_shown hshown.symm hparent
  have hnew : (t₀.fds (child, i)).used = false := by
    have hview := h.others (child, i) fun j hj hx => by
      obtain rfl : i = j := (Prod.ext_iff.1 hx).2
      exact hi hj
    rw [Fd.shown_unused hchild] at hview
    unfold Fd.shown at hview
    split_ifs at hview with hu
    simpa using hu
  refine ⟨hok'.store (by rw [hfds, hchild]) (h.ok.typed (parent, i)) fun _ _ => rfl,
    fun j => (h.kept j).trans (hkept j), ?_, fun j hj => ?_, fun x hx => ?_⟩
  · exact nodup_append.2 ⟨h.nodup, by simp, by
      intro a ha b hb
      obtain rfl := mem_singleton.1 hb
      exact fun hab => hi (hab ▸ ha)⟩
  · obtain hj | hj := mem_append.1 hj
    · have hji : j ≠ i := fun hji => hi (hji ▸ hj)
      simpa [setFd, hji, hfds] using h.copies j hj
    · obtain rfl := mem_singleton.1 hj
      simp [setFd, hsource, hparent, hnew]
  have hxi : x ≠ (child, i) := hx i (by simp)
  simp only [setFd, hfds, update_of_ne hxi]
  exact h.others x fun j hj => hx j (by simp [hj])

theorem Copying.cloneLoop (hne : parent ≠ child) (hok₀ : Ok t₀ []) (l : List (Fin fdMax))
    (hl : l.Nodup) (hdisj : ∀ i ∈ l, i ∉ copied) (h : Copying parent child t₀ t copied)
    (hfail : (cloneLoop parent child l copied t).1 ≠ 0) :
    (∀ x, ((cloneLoop parent child l copied t).2.fds x).shown = (t₀.fds x).shown) ∧
      (cloneLoop parent child l copied t).2.pipes = t₀.pipes := by
  induction l generalizing t copied with
  | nil => exact absurd rfl hfail
  | cons i l ih =>
    obtain ⟨hil, hl⟩ := nodup_cons.1 hl
    have hrest : ∀ j ∈ l, j ∉ copied := fun j hj => hdisj j (by simp [hj])
    rw [Vfs.cloneLoop] at hfail ⊢
    by_cases hparent : (t.fds (parent, i)).used = true
    · simp only [hparent, if_true] at hfail ⊢
      by_cases hchild : (t.fds (child, i)).used = true
      · simp only [hchild, if_true]
        exact (h.undo hne).restored hok₀
      simp only [hchild] at hfail ⊢
      cases hr : retainFd t (t.fds (parent, i)) with
      | error e => exact (h.undo hne).restored hok₀
      | ok t' =>
      rw [hr] at hfail
      refine ih hl (fun j hj hmem => ?_) (h.copy hne (hdisj i (by simp)) hparent
        (by simpa using hchild) hr) hfail
      obtain hmem | hmem := mem_append.1 hmem
      · exact hrest j hj hmem
      · exact hil (mem_singleton.1 hmem ▸ hj)
    · simp only [hparent] at hfail ⊢
      exact ih hl hrest h hfail

theorem vfsCloneFds_failed {parentPid childPid : Nat} (hok : Ok t [])
    (hfail : (vfsCloneFds t parentPid childPid).1 ≠ 0) :
    (∀ x, ((vfsCloneFds t parentPid childPid).2.fds x).shown = (t.fds x).shown) ∧
      (vfsCloneFds t parentPid childPid).2.pipes = t.pipes := by
  unfold vfsCloneFds pidSlot at hfail ⊢
  by_cases hp : parentPid < processMax
  · by_cases hc : childPid < processMax
    · simp only [hp, hc, dif_pos] at hfail ⊢
      by_cases hsame : parentPid = childPid
      · simp [hsame]
      rw [if_neg hsame] at hfail ⊢
      have hstart : Copying ⟨parentPid, hp⟩ ⟨childPid, hc⟩ t t [] :=
        ⟨hok, fun i => Kept.refl _, nodup_nil, by simp, fun _ _ => rfl⟩
      exact hstart.cloneLoop (by simpa using hsame) hok _ (nodup_finRange _) (by simp) hfail
    · simp [hp, hc]
  · simp [hp]

end Clone

/-- The number of descriptors that name a slot, split by its two ends. -/
theorem tally_refers (t : Tables) (i : Fin pipeMax) :
    tally (Fd.refers i) t.fds = holders t [] i false + holders t [] i true := by
  rw [tally_split (Fd.refers i) Fd.pipeWrite]
  have hread : (fun fd : Fd => fd.refers i && !fd.pipeWrite) = Fd.holds i false := by
    funext fd
    simp [Fd.holds]
  have hwrite : (fun fd : Fd => fd.refers i && fd.pipeWrite) = Fd.holds i true := by
    funext fd
    simp [Fd.holds]
  rw [hread, hwrite]
  simp [holders]

/-- Along every sequence of calls the references of a pipe are counted exactly, and a
failing clone changes no table and no count. -/
theorem pipe_refs_counted (t₀ : Tables) (calls : List Call) :
    (∀ i, ((callRun (vfsInit t₀) calls).pipes i).used = true →
      ((callRun (vfsInit t₀) calls).pipes i).refs =
          tally (Fd.refers i) (callRun (vfsInit t₀) calls).fds ∧
        ((callRun (vfsInit t₀) calls).pipes i).refs =
          ((callRun (vfsInit t₀) calls).pipes i).pipe.readRefs +
            ((callRun (vfsInit t₀) calls).pipes i).pipe.writeRefs) ∧
    (∀ i, ((callRun (vfsInit t₀) calls).pipes i).used = false →
      ∀ x, ((callRun (vfsInit t₀) calls).fds x).refers i = false) ∧
    ∀ parentPid childPid,
      (vfsCloneFds (callRun (vfsInit t₀) calls) parentPid childPid).1 ≠ 0 →
        (∀ x, ((vfsCloneFds (callRun (vfsInit t₀) calls) parentPid childPid).2.fds x).shown =
            ((callRun (vfsInit t₀) calls).fds x).shown) ∧
          (vfsCloneFds (callRun (vfsInit t₀) calls) parentPid childPid).2.pipes =
            (callRun (vfsInit t₀) calls).pipes := by
  have hok : Ok (callRun (vfsInit t₀) calls) [] := callRun_ok (vfsInit_ok t₀) calls
  generalize callRun (vfsInit t₀) calls = t at hok
  refine ⟨fun i hu => ?_, fun i hu x => ?_, fun _ _ hfail => vfsCloneFds_failed hok hfail⟩
  · have h := hok.slots i
    rw [tally_refers, h.reads hu, h.writes hu]
    exact ⟨h.refs hu, h.refs hu⟩
  have hzero : tally (Fd.refers i) t.fds = 0 := by
    rw [tally_refers, (hok.slots i).unused hu, (hok.slots i).unused hu]
  cases hx : (t.fds x).refers i with
  | false => rfl
  | true =>
    have hpos := tally_pos (f := t.fds) hx
    omega

end RixuriOS.Vfs
