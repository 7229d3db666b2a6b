import Mathlib

/-!
# Texts with separators

A text over an arbitrary alphabet is read as the list of its tokens, the nonempty
runs between the separators. `render` writes a list of tokens as an absolute
path, with a separator before every token, and `resolve` folds tokens over a stack
on which one token (`up`) takes the last one away and one (`here`) does nothing.
-/

namespace PathTokens

open List

variable {α : Type*} {sep : α}

/-- A token: nonempty and without a separator. -/
structure IsToken (sep : α) (c : List α) : Prop where
  nonempty : c ≠ []
  inner : sep ∉ c

/-! ## Absolute paths -/

def render (sep : α) (st : List (List α)) : List α := sep :: [sep].intercalate st

theorem render_nil : render sep [] = [sep] := rfl

variable {st : List (List α)}

theorem render_eq_flatMap (h : st ≠ []) : render sep st = st.flatMap (sep :: ·) := by
  induction st with
  | nil => exact absurd rfl h
  | cons c st ih =>
    cases st with
    | nil => simp [render, List.intercalate]
    | cons d st =>
    have hcons : [sep].intercalate (c :: d :: st) = c ++ render sep (d :: st) := by
      simp [render, List.intercalate]
    rw [render, hcons, ih (cons_ne_nil d st)]
    rfl

theorem render_concat (st : List (List α)) (c : List α) :
    render sep (st ++ [c]) = (if st = [] then [sep] else render sep st ++ [sep]) ++ c := by
  rw [render_eq_flatMap (by simp), flatMap_append]
  split_ifs with h
  · simp [h]
  · simp [render_eq_flatMap h]

theorem length_render_concat (st : List (List α)) (c : List α) :
    (render sep (st ++ [c])).length =
      (if st = [] then 1 else (render sep st).length + 1) + c.length := by
  rw [render_concat]
  split_ifs <;> simp <;> omega

theorem length_render_le {st' : List (List α)} (h : st <+: st') :
    (render sep st).length ≤ (render sep st').length := by
  obtain ⟨l, rfl⟩ := h
  by_cases hst : st = []
  · subst hst
    simp [render]
  rw [render_eq_flatMap hst, render_eq_flatMap (by simp [hst]), flatMap_append,
    length_append]
  exact Nat.le_add_right _ _

theorem getLast?_render (hne : st ≠ []) (h : ∀ c ∈ st, IsToken sep c) :
    (render sep st).getLast? ≠ some sep := by
  obtain ⟨st, c, rfl⟩ := (eq_nil_or_concat' st).resolve_left hne
  have hc := h c (by simp)
  rw [render_concat, List.getLast?_append_of_ne_nil _ hc.nonempty]
  intro hlast
  exact hc.inner (mem_of_getLast? hlast)

variable [DecidableEq α]

/-! ## Tokens -/

def tokens (sep : α) (l : List α) : List (List α) := (l.splitOn sep).filter (· ≠ [])

theorem tokens_nil : tokens sep [] = [] := by
  simp [tokens]

theorem tokens_sep_cons (l : List α) : tokens sep (sep :: l) = tokens sep l := by
  simp [tokens, List.splitOn, splitOnP_cons_eq_if_modifyHead]

variable {c : List α}

theorem tokens_append {rest : List α} (hc : IsToken sep c)
    (hrest : rest = [] ∨ rest.head? = some sep) :
    tokens sep (c ++ rest) = c :: tokens sep rest := by
  have hne : ∀ x ∈ c, (x == sep) = false := by
    intro x hx
    rw [beq_eq_false_iff_ne]
    rintro rfl
    exact hc.inner hx
  rcases hrest with rfl | hhead
  · rw [append_nil, tokens_nil, tokens, splitOn_eq_singleton hc.inner]
    simp [hc.nonempty]
  obtain ⟨r, rfl⟩ := List.head?_eq_some_iff.1 hhead
  rw [tokens_sep_cons, tokens, List.splitOn, splitOnP_append_cons_of_forall_mem hne _ (by simp)]
  simp [hc.nonempty, tokens, List.splitOn]

theorem tokens_dropWhile (l : List α) : tokens sep (l.dropWhile (· = sep)) = tokens sep l := by
  induction l with
  | nil => rfl
  | cons x l ih =>
    by_cases hx : x = sep
    · subst hx
      rw [dropWhile_cons_of_pos (by simp), ih, tokens_sep_cons]
    · rw [dropWhile_cons_of_neg (by simpa using hx)]

theorem tokens_takeWhile {l : List α} (hne : l ≠ []) (hhead : l.head? ≠ some sep) :
    IsToken sep (l.takeWhile (· ≠ sep)) ∧
      tokens sep l = l.takeWhile (· ≠ sep) :: tokens sep (l.dropWhile (· ≠ sep)) := by
  have htoken : IsToken sep (l.takeWhile (· ≠ sep)) := by
    constructor
    · cases l with
      | nil => exact absurd rfl hne
      | cons x l =>
        rw [takeWhile_cons_of_pos (by simpa using hhead)]
        exact cons_ne_nil _ _
    · intro hmem
      simpa using mem_takeWhile_imp hmem
  refine ⟨htoken, ?_⟩
  conv_lhs => rw [← takeWhile_append_dropWhile (p := (· ≠ sep)) (l := l)]
  refine tokens_append htoken ?_
  cases hd : l.dropWhile (· ≠ sep) with
  | nil => exact Or.inl rfl
  | cons x r =>
  refine Or.inr ?_
  have hx := List.head?_dropWhile_not (· ≠ sep) l
  rw [hd] at hx
  simpa using hx

theorem isToken_of_mem_tokens {l : List α} (h : c ∈ tokens sep l) : IsToken sep c := by
  induction hn : l.length using Nat.strong_induction_on generalizing l with
  | _ n ih =>
    cases l with
    | nil => simp [tokens_nil] at h
    | cons x l =>
    by_cases hx : x = sep
    · rw [hx, tokens_sep_cons] at h
      exact ih l.length (by simp [← hn]) h rfl
    have hhead : (x :: l).head? ≠ some sep := by simpa using hx
    obtain ⟨htoken, heq⟩ := tokens_takeWhile (cons_ne_nil x l) hhead
    rw [heq, mem_cons] at h
    rcases h with rfl | h
    · exact htoken
    refine ih _ ?_ h rfl
    rw [dropWhile_cons_of_pos (by simpa using hx), ← hn, length_cons]
    exact Nat.lt_succ_of_le (dropWhile_sublist _).length_le

theorem tokens_render (h : ∀ c ∈ st, IsToken sep c) : tokens sep (render sep st) = st := by
  cases st with
  | nil => rw [render_nil, tokens_sep_cons, tokens_nil]
  | cons c st =>
  rw [render_eq_flatMap (cons_ne_nil c st)]
  generalize c :: st = l at h
  induction l with
  | nil => exact tokens_nil
  | cons c l ih =>
    rw [flatMap_cons, cons_append, tokens_sep_cons,
      tokens_append (h c mem_cons_self), ih fun d hd => h d (mem_cons_of_mem c hd)]
    cases l with
    | nil => exact Or.inl rfl
    | cons d l => exact Or.inr rfl

/-! ## The stack -/

section

variable (here up : List α)

def push (st : List (List α)) (c : List α) : List (List α) :=
  if c = here then st else if c = up then st.dropLast else st ++ [c]

def resolve (cs : List (List α)) : List (List α) := cs.foldl (push here up) []

variable {here up}

theorem push_of_ne (hh : c ≠ here) (hu : c ≠ up) (st : List (List α)) :
    push here up st c = st ++ [c] := by
  rw [push, if_neg hh, if_neg hu]

theorem mem_push {d : List α} (h : d ∈ push here up st c) : d ∈ st ∨ d = c ∧ c ≠ here ∧ c ≠ up := by
  rw [push] at h
  split_ifs at h with hh hu
  · exact Or.inl h
  · exact Or.inl (dropLast_subset st h)
  rcases mem_append.1 h with h | h
  · exact Or.inl h
  · exact Or.inr ⟨mem_singleton.1 h, hh, hu⟩

theorem mem_foldl_push {cs : List (List α)} (h : c ∈ cs.foldl (push here up) st) :
    c ∈ st ∨ c ∈ cs ∧ c ≠ here ∧ c ≠ up := by
  induction cs generalizing st with
  | nil => exact Or.inl h
  | cons d cs ih =>
    rcases ih h with hst | ⟨hcs, hne⟩
    · rcases mem_push hst with hst | ⟨rfl, hne⟩
      · exact Or.inl hst
      · exact Or.inr ⟨mem_cons_self, hne⟩
    · exact Or.inr ⟨mem_cons_of_mem d hcs, hne⟩

theorem foldl_push_of_ne {cs : List (List α)} (h : ∀ c ∈ cs, c ≠ here ∧ c ≠ up)
    (st : List (List α)) : cs.foldl (push here up) st = st ++ cs := by
  induction cs generalizing st with
  | nil => exact (append_nil st).symm
  | cons c cs ih =>
    obtain ⟨hh, hu⟩ := h c mem_cons_self
    rw [foldl_cons, push_of_ne hh hu, ih fun d hd => h d (mem_cons_of_mem c hd),
      append_assoc, singleton_append]

end

end PathTokens
