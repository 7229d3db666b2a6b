import RixuriOS.Lib.PathTokens
import RixuriOS.Vfs.Path

/-!
# Normalised paths

`vfs_normalize_path` scans its input once and edits the output in place: a component
is appended, `..` cuts the output back behind the slash before its last component,
and that slash stays until the next component or the end. For an output buffer of any
capacity, the scanner is compared with a fold of the components over a stack.
-/

namespace RixuriOS.Vfs

open ByteCodec Rixfs PathTokens List Option

/-- The runs of bytes between the slashes of a path, which the loop of
`vfs_normalize_path` visits. -/
def components (path : List Byte) : List (List Byte) := (path.splitOn slash).filter (· ≠ [])

def resolvePath (p : List Byte) : List (List Byte) := resolve [dot] [dot, dot] (components p)

/-- An absolute path, or a relative one behind the working directory. -/
def joinedText (d input : List Byte) : List Byte :=
  if input.head? = some slash then input
  else (if d ≠ [] ∧ d.getLast? ≠ some slash then d ++ [slash] else d) ++ input

theorem components_eq (p : List Byte) : components p = tokens slash p := rfl

/-! ## The scanner visits the components -/

variable {out p : List Byte} {cs : List (List Byte)}

theorem scanPath_eq (cap : Nat) {n : Nat} (hn : p.length ≤ n) (out : List Byte) :
    scanPath cap n p out = (tokens slash p).foldlM (enterComponent cap) out := by
  induction n generalizing p out with
  | zero =>
    obtain rfl : p = [] := length_eq_zero_iff.1 (Nat.le_zero.1 hn)
    simp [scanPath, tokens_nil]
  | succ n ih =>
    rw [← tokens_dropWhile p]
    rw [scanPath]
    have hle : (p.dropWhile (· = slash)).length ≤ n + 1 :=
      le_trans (dropWhile_sublist _).length_le hn
    have hhead := List.head?_dropWhile_not (· = slash) p
    generalize p.dropWhile (· = slash) = q at hle hhead ⊢
    cases q with
    | nil => simp [tokens_nil]
    | cons x q =>
    have hx : x ≠ slash := by simpa using hhead
    have hhead' : (x :: q).head? ≠ some slash := by simpa using hx
    rw [if_neg (cons_ne_nil x q), (tokens_takeWhile (cons_ne_nil x q) hhead').2, foldlM_cons]
    refine congrArg _ (funext fun out' => ih ?_ out')
    rw [dropWhile_cons_of_pos (by simpa using hx)]
    have := (dropWhile_sublist (l := q) fun y => decide (y ≠ slash)).length_le
    rw [length_cons] at hle
    omega

/-! ## The output shows the stack -/

/-- The output shows the stack, perhaps with the slash that `..` leaves behind. -/
def Shows (out : List Byte) (st : List (List Byte)) : Prop :=
  out = render slash st ∨ st ≠ [] ∧ out = render slash st ++ [slash]

variable {c : List Byte} {st : List (List Byte)} {cap : Nat}

section

variable {st : List (List Byte)}

theorem Shows.length_le (h : Shows out st) : (render slash st).length ≤ out.length := by
  rcases h with rfl | ⟨-, rfl⟩
  · exact le_rfl
  · rw [length_append]
    exact Nat.le_add_right _ _

section

variable (h : Shows out st) (htokens : ∀ c ∈ st, IsToken slash c)

include h htokens

theorem Shows.append (hcap : out.length < cap) (hc : c ≠ []) :
    appendComponent cap out c =
      if (render slash (st ++ [c])).length < cap then some (render slash (st ++ [c])) else none := by
  rw [appendComponent, if_neg hc, length_render_concat, render_concat]
  by_cases hst : st = []
  · subst hst
    obtain rfl : out = [slash] := h.resolve_right fun hbad => hbad.1 rfl
    rw [if_neg (by simp), if_pos rfl, if_pos rfl]
    rw [length_singleton]
    split_ifs <;> first | omega | rfl
  rw [if_neg hst, if_neg hst]
  rcases h with rfl | ⟨-, rfl⟩
  · rw [if_pos ⟨by simp [render], getLast?_render hst htokens⟩, append_assoc,
      singleton_append]
    split_ifs <;> first | omega | rfl
  rw [if_neg (by simp)]
  rw [length_append, length_singleton] at hcap ⊢
  split_ifs <;> first | omega | rfl

theorem Shows.drop : Shows (dropComponent out) st.dropLast := by
  rcases eq_nil_or_concat' st with rfl | ⟨st, c, rfl⟩
  · obtain rfl : out = [slash] := h.resolve_right fun hbad => hbad.1 rfl
    exact Or.inl rfl
  have hc := htokens c (by simp)
  have hlen : 1 < (render slash (st ++ [c])).length := by
    have hpos : 0 < c.length := length_pos_iff.2 hc.nonempty
    rw [length_render_concat]
    split_ifs <;> omega
  -- with or without the slash at the end, what is cut back is the rendered stack
  have hcut : dropComponent out = (render slash (st ++ [c])).rdropWhile (· ≠ slash) := by
    rcases h with rfl | ⟨-, rfl⟩
    · rw [dropComponent, if_neg (by omega), if_neg (getLast?_render (by simp) htokens)]
    · rw [dropComponent, if_neg (by rw [length_append]; omega), if_pos (by simp),
        dropLast_concat]
  have hall : ∀ x ∈ c, decide (x ≠ slash) = true := by
    intro x hx
    rw [decide_eq_true_iff]
    rintro rfl
    exact hc.inner hx
  have hback : ∀ l : List Byte, (l ++ [slash] ++ c).rdropWhile (· ≠ slash) = l ++ [slash] := by
    intro l
    rw [List.rdropWhile, reverse_append, dropWhile_append_of_pos (by simpa using hall)]
    simp
  rw [hcut, dropLast_concat, render_concat]
  split_ifs with hst
  · subst hst
    exact Or.inl (hback [])
  · exact Or.inr ⟨hst, hback _⟩

theorem Shows.trim :
    (if 1 < out.length ∧ out.getLast? = some slash then out.dropLast else out) =
      render slash st := by
  rcases h with rfl | ⟨hst, rfl⟩
  · rw [if_neg]
    rintro ⟨hlen, hlast⟩
    by_cases hst : st = []
    · subst hst
      simp [render] at hlen
    · exact getLast?_render hst htokens hlast
  · rw [if_pos ⟨by simp [render], by simp⟩, dropLast_concat]

end

end

/-! ## The loop -/

/-- The components and the paths of the stack on the way have room. -/
structure Roomy (cap : Nat) (st cs : List (List Byte)) : Prop where
  names : ∀ c ∈ cs, c.length ≤ vfsNameMax
  prefixes : ∀ pre, pre <+: cs →
    (render slash (pre.foldl (push [dot] [dot, dot]) st)).length < cap

theorem roomy_cons :
    Roomy cap st (c :: cs) ↔ c.length ≤ vfsNameMax ∧ (render slash st).length < cap ∧
      Roomy cap (push [dot] [dot, dot] st c) cs := by
  constructor
  · rintro ⟨hnames, hpre⟩
    refine ⟨hnames c mem_cons_self, hpre [] nil_prefix,
      fun d hd => hnames d (mem_cons_of_mem c hd), fun pre hp => ?_⟩
    exact hpre (c :: pre) ((cons_prefix_cons).2 ⟨rfl, hp⟩)
  rintro ⟨hc, hst, hnames, hpre⟩
  refine ⟨forall_mem_cons.2 ⟨hc, hnames⟩, fun pre hp => ?_⟩
  cases pre with
  | nil => exact hst
  | cons d pre =>
    obtain ⟨rfl, htail⟩ := cons_prefix_cons.1 hp
    exact hpre pre htail

theorem isToken_push (hst : ∀ d ∈ st, IsToken slash d) (hc : IsToken slash c) :
    ∀ d ∈ push [dot] [dot, dot] st c, IsToken slash d := by
  intro d hd
  rcases mem_push hd with h | ⟨h, -⟩
  · exact hst d h
  · rwa [h]

theorem enterComponent_spec (h : Shows out st) (hst : ∀ d ∈ st, IsToken slash d)
    (hcap : out.length < cap) (hc : IsToken slash c) :
    if c.length ≤ vfsNameMax ∧ (render slash (push [dot] [dot, dot] st c)).length < cap then
      ∃ out', enterComponent cap out c = some out' ∧ out'.length < cap ∧
        Shows out' (push [dot] [dot, dot] st c)
    else enterComponent cap out c = none := by
  have hle := h.length_le
  rw [push, enterComponent]
  by_cases h1 : c = [dot]
  · rw [if_pos h1, if_pos h1, if_pos ⟨by rw [h1]; decide, by omega⟩]
    exact ⟨out, rfl, hcap, h⟩
  rw [if_neg h1, if_neg h1]
  by_cases h2 : c = [dot, dot]
  · have hdrop := h.drop hst
    have hshort : (dropComponent out).length ≤ out.length := by
      rw [dropComponent]
      split_ifs
      · exact le_rfl
      · exact le_trans (List.rdropWhile_prefix _ _).length_le (dropLast_sublist out).length_le
      · exact (List.rdropWhile_prefix _ _).length_le
    have hroom := hdrop.length_le
    rw [if_pos h2, if_pos h2, if_pos ⟨by rw [h2]; decide, by omega⟩]
    exact ⟨_, rfl, by omega, hdrop⟩
  rw [if_neg h2, if_neg h2, h.append hst hcap hc.nonempty]
  by_cases hname : vfsNameMax < c.length
  · rw [if_pos hname, if_neg (by omega)]
  rw [if_neg hname]
  by_cases hroom : (render slash (st ++ [c])).length < cap
  · rw [if_pos hroom, if_pos ⟨by omega, hroom⟩]
    exact ⟨_, rfl, hroom, Or.inl rfl⟩
  · rw [if_neg hroom, if_neg fun hbad => hroom hbad.2]

/-- The loop shows the folded stack if everything on the way has room, and fails otherwise. -/
theorem foldlM_enterComponent (hcs : ∀ c ∈ cs, IsToken slash c) (h : Shows out st)
    (hst : ∀ c ∈ st, IsToken slash c) (hcap : out.length < cap) :
    (Roomy cap st cs ∧ ∃ out', cs.foldlM (enterComponent cap) out = some out' ∧
      Shows out' (cs.foldl (push [dot] [dot, dot]) st)) ∨
    (¬Roomy cap st cs ∧ cs.foldlM (enterComponent cap) out = none) := by
  induction cs generalizing out st with
  | nil =>
    refine Or.inl ⟨⟨by simp, fun pre hp => ?_⟩, out, rfl, h⟩
    rw [prefix_nil.1 hp]
    exact lt_of_le_of_lt h.length_le hcap
  | cons c cs ih =>
    have hc := hcs c mem_cons_self
    have hstep := enterComponent_spec h hst hcap hc
    rw [foldlM_cons, foldl_cons, roomy_cons]
    split_ifs at hstep with hroom
    · obtain ⟨out', hrun, hlen, hshows⟩ := hstep
      rw [hrun]
      have hprev : (render slash st).length < cap := lt_of_le_of_lt h.length_le hcap
      rcases ih (fun d hd => hcs d (mem_cons_of_mem c hd)) hshows (isToken_push hst hc) hlen
        with ⟨hok, hres⟩ | ⟨hbad, hres⟩
      · exact Or.inl ⟨⟨hroom.1, hprev, hok⟩, hres⟩
      · exact Or.inr ⟨fun hall => hbad hall.2.2, hres⟩
    rw [hstep]
    refine Or.inr ⟨fun hall => hroom ⟨hall.1, ?_⟩, rfl⟩
    exact hall.2.2.prefixes [] nil_prefix

/-! ## The result -/

theorem isToken_resolvePath (p : List Byte) : ∀ c ∈ resolvePath p, IsToken slash c := by
  intro c hc
  rcases mem_foldl_push hc with h | ⟨h, -⟩
  · cases h
  · exact isToken_of_mem_tokens h

theorem normalizeWithin_eq (cap : Nat) (cwd : Option (List Byte)) (input : List Byte) :
    (∃ p, joinCwd cwd input = some p ∧ Roomy cap [] (components p) ∧
      normalizeWithin cap cwd input = some (render slash (resolvePath p))) ∨
    ((∀ p, joinCwd cwd input = some p → ¬Roomy cap [] (components p)) ∧
      normalizeWithin cap cwd input = none) := by
  have hsmall : cap < 2 → ∀ cs, ¬Roomy cap [] cs := by
    intro hcap cs hroom
    have := hroom.prefixes [] nil_prefix
    simp [render] at this
    omega
  rw [normalizeWithin]
  split_ifs with hcap
  · exact Or.inr ⟨fun p _ => hsmall hcap _, rfl⟩
  cases hjoin : joinCwd cwd input with
  | none => exact Or.inr ⟨by simp, rfl⟩
  | some p =>
  have hshow : Shows [slash] [] := Or.inl rfl
  have hlen : [slash].length < cap := by
    rw [length_singleton]
    omega
  rw [bind_some, scanPath_eq cap le_rfl]
  rcases foldlM_enterComponent (fun c hc => isToken_of_mem_tokens (l := p) hc) hshow (by simp) hlen
    with ⟨hroom, out, hrun, hshows⟩ | ⟨hbad, hrun⟩
  · refine Or.inl ⟨p, rfl, hroom, ?_⟩
    rw [hrun, map_some, hshows.trim (isToken_resolvePath p)]
    rfl
  refine Or.inr ⟨fun q hq => ?_, by rw [hrun]; rfl⟩
  cases hq
  exact hbad

theorem resolvePath_names (p : List Byte) : ∀ c ∈ resolvePath p, c ≠ [dot] ∧ c ≠ [dot, dot] := by
  intro c hc
  rcases mem_foldl_push hc with h | ⟨-, h⟩
  · cases h
  · exact h

theorem resolvePath_render (htokens : ∀ c ∈ st, IsToken slash c)
    (hnames : ∀ c ∈ st, c ≠ [dot] ∧ c ≠ [dot, dot]) : resolvePath (render slash st) = st := by
  rw [resolvePath, resolve, components_eq, tokens_render htokens, foldl_push_of_ne hnames,
    nil_append]

theorem Roomy.again (h : Roomy cap [] (components p)) (cwd : Option (List Byte)) :
    normalizeWithin cap cwd (render slash (resolvePath p)) = some (render slash (resolvePath p)) := by
  have htokens := isToken_resolvePath p
  have hnames := resolvePath_names p
  have hcs : components (render slash (resolvePath p)) = resolvePath p := tokens_render htokens
  have hjoin : joinCwd cwd (render slash (resolvePath p)) = some (render slash (resolvePath p)) :=
    if_pos rfl
  have hroom : Roomy cap [] (components (render slash (resolvePath p))) := by
    rw [hcs]
    constructor
    · intro c hc
      rcases mem_foldl_push hc with hnil | ⟨hmem, -⟩
      · cases hnil
      · exact h.names c hmem
    intro pre hpre
    rw [foldl_push_of_ne fun c hc => hnames c (hpre.subset hc), nil_append]
    exact lt_of_le_of_lt (length_render_le hpre) (h.prefixes _ (prefix_refl _))
  rcases normalizeWithin_eq cap cwd (render slash (resolvePath p)) with ⟨q, hq, -, hrun⟩ | ⟨hbad, -⟩
  · cases hjoin.symm.trans hq
    rw [hrun, resolvePath_render htokens hnames]
  · exact absurd hroom (hbad _ hjoin)

theorem joinCwd_eq_none {d input : List Byte} (h : joinCwd (some d) input = none) :
    input.head? ≠ some slash ∧ pathMax ≤ (joinedText d input).length := by
  rw [joinCwd] at h
  split_ifs at h with habs
  refine ⟨habs, ?_⟩
  rw [joinedText, if_neg habs, length_append]
  rw [bind_some] at h
  by_contra hlt
  rw [if_neg fun hbad => hlt hbad.2] at h
  cases h

/-- `vfs_normalize_path`, into a buffer of any capacity. When it succeeds, the output is
the joined path folded over a stack; it has no `.`, `..` or empty component and no slash
at the end but the one of the root, it fits with its terminator, and it is its own normal
form. With a working directory it fails only when the joined path, a component or the
path of the stack after some of the components does not fit. -/
theorem normalizeWithin_spec (cap : Nat) (cwd : Option (List Byte)) (input : List Byte) :
    (∀ out, normalizeWithin cap cwd input = some out →
      (∃ p, joinCwd cwd input = some p ∧ out = render slash (resolvePath p)) ∧
      (∀ c ∈ (out.drop 1).splitOn slash,
        out = [slash] ∨ c ≠ [] ∧ c ≠ [dot] ∧ c ≠ [dot, dot]) ∧
      (out ≠ [slash] → out.getLast? ≠ some slash) ∧ out.length + 1 ≤ cap ∧
      ∀ cwd', normalizeWithin cap cwd' out = some out) ∧
    (∀ d, cwd = some d → normalizeWithin cap cwd input = none →
      input.head? ≠ some slash ∧ pathMax ≤ (joinedText d input).length ∨
      ∃ p, joinCwd cwd input = some p ∧
        ((∃ c ∈ components p, vfsNameMax < c.length) ∨
          ∃ pre, pre <+: components p ∧
            cap ≤ (render slash (resolve [dot] [dot, dot] pre)).length)) := by
  rcases normalizeWithin_eq cap cwd input with ⟨p, hjoin, hroom, hrun⟩ | ⟨hbad, hrun⟩
  · refine ⟨fun out hout => ?_, fun d _ hnone => by rw [hrun] at hnone; cases hnone⟩
    cases hrun.symm.trans hout
    have htokens := isToken_resolvePath p
    have hnames := resolvePath_names p
    refine ⟨⟨p, hjoin, rfl⟩, fun c hc => ?_, fun hroot => ?_,
      hroom.prefixes _ (prefix_refl _), hroom.again⟩
    · by_cases hst : resolvePath p = []
      · exact Or.inl (by rw [hst, render_nil])
      rw [render, drop_one, tail_cons,
        splitOn_intercalate slash (fun c hc => (htokens c hc).inner) hst] at hc
      exact Or.inr ⟨(htokens c hc).nonempty, hnames c hc⟩
    · refine getLast?_render (fun hst => hroot ?_) htokens
      rw [hst, render_nil]
  refine ⟨fun out hout => (by rw [hrun] at hout; cases hout), fun d hd _ => ?_⟩
  subst hd
  cases hjoin : joinCwd (some d) input with
  | none => exact Or.inl (joinCwd_eq_none hjoin)
  | some p =>
  refine Or.inr ⟨p, rfl, ?_⟩
  by_contra hfits
  push Not at hfits
  exact hbad p hjoin ⟨hfits.1, hfits.2⟩

theorem normalizeWithin_spec_dots :
    let d := [slash, 0x61]
    let input := [0x62, slash, dot, slash, dot, dot, slash, slash, 0x63, slash]
    normalizeWithin 6 (some d) input = some [slash, 0x61, slash, 0x63] ∧
      normalizeWithin 6 none [slash, 0x61, slash, 0x63] = some [slash, 0x61, slash, 0x63] ∧
      ∃ p, joinCwd (some d) input = some p ∧
        [slash, 0x61, slash, 0x63] = render slash (resolvePath p) := by
  intro d input
  have hrun : normalizeWithin 6 (some d) input = some [slash, 0x61, slash, 0x63] := by decide
  obtain ⟨hpath, -, -, -, hagain⟩ := (normalizeWithin_spec 6 (some d) input).1 _ hrun
  exact ⟨hrun, hagain none, hpath⟩

end RixuriOS.Vfs
