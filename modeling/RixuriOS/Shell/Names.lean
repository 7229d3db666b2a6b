import RixuriOS.Shell.Pipeline

/-!
# Completion and matching of names

`rix_shell_complete` keeps the first candidate that starts with the given text and a
length that it shortens for every further one, as long as the last character kept differs.
`pathname_match` compares a name with a pattern; at the end of the name a question mark
stands for nothing.
-/

namespace RixuriOS.Shell

open List

/-! ## Completion -/

/-- `text_length`, which does not look behind the room of a token. -/
def textLength (text : Text) : Nat := min tokenText text.length

/-- The inner loop of `rix_shell_complete`, which looks at the last character kept only. -/
def shorten (least : Nat) (first candidate : Text) : Nat → Nat
  | 0 => 0
  | n + 1 =>
    if least < n + 1 ∧ (textLength candidate < n + 1 ∨ first[n]? ≠ candidate[n]?) then
      shorten least first candidate n
    else n + 1

structure Completing where
  count : Nat
  first : Text
  common : Nat

def completeStep (given : Text) (s : Completing) : Option Text → Completing
  | none => s
  | some candidate =>
    if given.length ≤ textLength candidate ∧ given <+: candidate then
      if s.count = 0 then ⟨1, candidate, textLength candidate⟩
      else ⟨s.count + 1, s.first, shorten given.length s.first candidate s.common⟩
    else s

/-- The return value of `rix_shell_complete` with what it writes to its two results. -/
structure Completion where
  rc : Int
  matchCount : Option Nat
  output : Option Text
  deriving DecidableEq

def shellComplete (given : Text) (candidates : List (Option Text)) (capacity : Nat) :
    Completion :=
  if capacity = 0 then ⟨-1, none, none⟩
  else if tokenText ≤ textLength given then ⟨-2, none, none⟩
  else
    let s := candidates.foldl (completeStep given) ⟨0, [], 0⟩
    if s.count = 0 then ⟨0, some 0, some []⟩
    else if capacity ≤ s.common then ⟨-3, some s.count, none⟩
    else ⟨0, some s.count, some (s.first.take s.common)⟩

def starting (given : Text) (candidates : List (Option Text)) : List Text :=
  candidates.reduceOption.filter fun c => given <+: c

/-- `m` is the longest common beginning of the texts `l`. -/
def LongestCommon (m : Text) (l : List Text) : Prop :=
  ∀ q, q <+: m ↔ ∀ c ∈ l, q <+: c

/-- One after the other the texts have a character in common with `first`, at places from `k` on
and below `n` that do not increase. -/
def Rejoins (first : Text) (k : Nat) : List Text → Nat → Prop
  | [], n => k < n
  | d :: l, n => ∃ p < n, p < d.length ∧ first[p]? = d[p]? ∧ Rejoins first k l (p + 1)

section

variable {least k : Nat} {first candidate : Text}

theorem shorten_le (n : Nat) : shorten least first candidate n ≤ n := by
  induction n with
  | zero => exact Nat.le_refl 0
  | succ n ih =>
    rw [shorten]
    split_ifs
    · exact ih.trans n.le_succ
    · exact Nat.le_refl _

/-- The loop stops at the last character kept that the candidate shares. -/
theorem lt_shorten_iff (hk : least ≤ k) {n : Nat} (hn : n ≤ tokenText) :
    k < shorten least first candidate n ↔
      ∃ p < n, k ≤ p ∧ p < candidate.length ∧ first[p]? = candidate[p]? := by
  induction n with
  | zero => simp [shorten]
  | succ n ih =>
    have hlen : textLength candidate < n + 1 ↔ candidate.length < n + 1 := by
      unfold textLength
      omega
    simp only [shorten, hlen]
    split_ifs with hgo
    · rw [ih (n.le_succ.trans hn)]
      constructor
      · rintro ⟨p, hp, h⟩
        exact ⟨p, hp.trans n.lt_succ_self, h⟩
      · rintro ⟨p, hp, hkp, hlt, heq⟩
        refine ⟨p, lt_of_le_of_ne (Nat.le_of_lt_succ hp) ?_, hkp, hlt, heq⟩
        rintro rfl
        exact hgo.2.elim (fun h => by omega) (absurd heq)
    · refine ⟨fun h => ⟨n, n.lt_succ_self, Nat.le_of_lt_succ h, ?_⟩, ?_⟩
      · have hshare := not_or.1 fun hor => hgo ⟨hk.trans_lt h, hor⟩
        exact ⟨by omega, not_not.1 hshare.2⟩
      · rintro ⟨p, hp, hkp, -⟩
        omega

theorem Rejoins.mono {l : List Text} {m n : Nat} (h : Rejoins first k l m) (hmn : m ≤ n) :
    Rejoins first k l n := by
  cases l with
  | nil => exact lt_of_lt_of_le h hmn
  | cons c l =>
    obtain ⟨p, hp, h⟩ := h
    exact ⟨p, hp.trans_le hmn, h⟩

theorem Rejoins.lt {l : List Text} {n : Nat} (h : Rejoins first k l n) : k < n := by
  induction l generalizing n with
  | nil => exact h
  | cons c l ih =>
    obtain ⟨p, hp, -, -, h⟩ := h
    exact (ih h).trans_le hp

theorem foldl_shorten_le (l : List Text) (n : Nat) :
    l.foldl (fun n c => shorten least first c n) n ≤ n := by
  induction l generalizing n with
  | nil => exact Nat.le_refl n
  | cons c l ih => exact (ih _).trans (shorten_le n)

theorem le_shorten {m : Text} (hm : m <+: first) (hc : m <+: candidate) {n : Nat}
    (hmn : m.length ≤ n) (hn : n ≤ tokenText) : m.length ≤ shorten least first candidate n := by
  induction n with
  | zero => exact hmn
  | succ n ih =>
    rw [shorten]
    split_ifs with hgo
    · refine ih (Nat.le_of_lt_succ (lt_of_le_of_ne hmn fun heq => ?_)) (n.le_succ.trans hn)
      have hlt : n < m.length := heq ▸ n.lt_succ_self
      obtain hshort | hdiff := hgo.2
      · have := hc.length_le
        unfold textLength at hshort
        omega
      · rw [prefix_iff_getElem?.1 hm n hlt, prefix_iff_getElem?.1 hc n hlt] at hdiff
        exact hdiff rfl
    · exact hmn

theorem le_foldl_shorten {m : Text} (hm : m <+: first) {l : List Text} (hl : ∀ c ∈ l, m <+: c)
    {n : Nat} (hmn : m.length ≤ n) (hn : n ≤ tokenText) :
    m.length ≤ l.foldl (fun n c => shorten least first c n) n := by
  induction l generalizing n with
  | nil => exact hmn
  | cons c l ih =>
    exact ih (fun d hd => hl d (mem_cons_of_mem c hd)) (le_shorten hm (hl c mem_cons_self) hmn hn)
      ((shorten_le n).trans hn)

/-- What is kept at the end of the loop over the candidates. -/
theorem lt_foldl_shorten_iff (hk : least ≤ k) (l : List Text) {n : Nat} (hn : n ≤ tokenText) :
    k < l.foldl (fun n c => shorten least first c n) n ↔ Rejoins first k l n := by
  induction l generalizing n with
  | nil => rfl
  | cons c l ih =>
    have hle : shorten least first c n ≤ n := shorten_le n
    rw [foldl_cons, ih (hle.trans hn)]
    constructor
    · intro h
      -- the place where the loop stopped is the one to take
      have hkr := Nat.le_sub_one_of_lt h.lt
      have hlast := Nat.sub_one_lt_of_lt h.lt
      obtain ⟨p, hp, hrp, hlt, heq⟩ := (lt_shorten_iff (hk.trans hkr) hn).1 hlast
      exact ⟨p, hp, hlt, heq, h.mono (by omega)⟩
    · rintro ⟨p, hp, hlt, heq, h⟩
      refine h.mono ?_
      have hkp : k ≤ p := Nat.le_of_lt_succ h.lt
      exact (lt_shorten_iff (hk.trans hkp) hn).2 ⟨p, hp, le_rfl, hlt, heq⟩

end

section

variable {given : Text}

theorem foldl_completeStep (candidates : List (Option Text))
    (s : Completing) : candidates.foldl (completeStep given) s =
      (starting given candidates).foldl (fun s c => completeStep given s (some c)) s := by
  induction candidates generalizing s with
  | nil => rfl
  | cons c candidates ih =>
    cases c with
    | none => simpa [starting, completeStep] using ih s
    | some c =>
    by_cases hc : given <+: c
    · simpa [starting, hc] using ih _
    · simpa [starting, completeStep, hc] using ih s

theorem foldl_matching {l : List Text} (hl : ∀ c ∈ l, given <+: c) (hg : given.length < tokenText)
    (s : Completing) (hs : s.count ≠ 0) :
    l.foldl (fun s c => completeStep given s (some c)) s =
      ⟨s.count + l.length, s.first, l.foldl (fun n c => shorten given.length s.first c n) s.common⟩ := by
  induction l generalizing s with
  | nil => rfl
  | cons c l ih =>
    have hc := hl c mem_cons_self
    have hlen : given.length ≤ textLength c := le_min hg.le hc.length_le
    rw [foldl_cons, completeStep, if_pos ⟨hlen, hc⟩, if_neg hs,
      ih (fun d hd => hl d (mem_cons_of_mem c hd)) _ s.count.succ_ne_zero]
    simp [Nat.add_assoc, Nat.add_comm 1]

variable {candidates : List (Option Text)} {capacity : Nat} {first : Text} {rest : List Text}

theorem prefix_of_starting (hstart : starting given candidates = first :: rest) :
    ∀ c ∈ first :: rest, given <+: c := fun c hc => by
  rw [← hstart] at hc
  simpa using (mem_filter.1 hc).2

/-- What a completion returns when it succeeds with a match. -/
theorem shellComplete_done (hstart : starting given candidates = first :: rest)
    (hrc : (shellComplete given candidates capacity).rc = 0) :
    shellComplete given candidates capacity = ⟨0, some (1 + rest.length), some (first.take
      (rest.foldl (fun n c => shorten given.length first c n) (textLength first)))⟩ := by
  have hall := prefix_of_starting hstart
  have hfirst := hall first mem_cons_self
  unfold shellComplete at hrc ⊢
  by_cases hcap : capacity = 0
  · simp [hcap] at hrc
  by_cases hlen : tokenText ≤ textLength given
  · simp [hcap, hlen] at hrc
  have hg : given.length < tokenText := by
    unfold textLength at hlen
    omega
  have hle : given.length ≤ textLength first := le_min hg.le hfirst.length_le
  have hs : candidates.foldl (completeStep given) ⟨0, [], 0⟩ = ⟨1 + rest.length, first,
      rest.foldl (fun n c => shorten given.length first c n) (textLength first)⟩ := by
    rw [foldl_completeStep, hstart, foldl_cons, completeStep, if_pos ⟨hle, hfirst⟩, if_pos rfl,
      foldl_matching (fun c hc => hall c (mem_cons_of_mem first hc)) hg _ Nat.one_ne_zero]
  have hcount : 1 + rest.length ≠ 0 := by omega
  simp only [if_neg hcap, if_neg hlen, hs, if_neg hcount] at hrc ⊢
  split_ifs at hrc ⊢
  · simp at hrc
  · rfl

end

/-- When `rix_shell_complete` succeeds with a match, all candidates that match are counted, and
what is written is their longest common beginning if and only if this has at most
`RIX_SHELL_TOKEN_TEXT` characters and the other candidates do not rejoin the first one behind it. -/
theorem shellComplete_spec (given : Text) (candidates : List (Option Text)) (capacity : Nat)
    {first : Text} {rest : List Text} (hstart : starting given candidates = first :: rest)
    (hrc : (shellComplete given candidates capacity).rc = 0) :
    (shellComplete given candidates capacity).matchCount = some (first :: rest).length ∧
      ((∃ m, (shellComplete given candidates capacity).output = some m ∧
          LongestCommon m (first :: rest)) ↔
        ∃ m, LongestCommon m (first :: rest) ∧ m.length ≤ tokenText ∧
          ¬Rejoins first m.length rest (min tokenText first.length)) := by
  rw [shellComplete_done hstart hrc]
  generalize hn : rest.foldl (fun n c => shorten given.length first c n) (textLength first) = n
  have hkept {m : Text} (hm : LongestCommon m (first :: rest)) :
      m.length < n ↔ Rejoins first m.length rest (min tokenText first.length) := by
    have hle := ((hm given).2 (prefix_of_starting hstart)).length_le
    rw [← hn]
    exact lt_foldl_shorten_iff hle rest (min_le_left _ _)
  have hlast : n ≤ min tokenText first.length := hn ▸ foldl_shorten_le rest _
  refine ⟨by simp [Nat.add_comm], ?_⟩
  constructor
  · rintro ⟨_, ⟨⟩, hm⟩
    have hlen : (first.take n).length = n := length_take_of_le (hlast.trans (min_le_right _ _))
    refine ⟨_, hm, ?_, ?_⟩
    · rw [hlen]
      exact hlast.trans (min_le_left _ _)
    · rw [← hkept hm, hlen]
      exact n.lt_irrefl
  · rintro ⟨m, hm, hroom, hnot⟩
    have hmf : m <+: first := (hm m).1 prefix_rfl first mem_cons_self
    have hmr : ∀ c ∈ rest, m <+: c := fun c hc => (hm m).1 prefix_rfl c (mem_cons_of_mem first hc)
    have hle : m.length ≤ n :=
      hn ▸ le_foldl_shorten hmf hmr (le_min hroom hmf.length_le) (min_le_left _ _)
    have heq : n = m.length := (not_lt.1 (mt (hkept hm).1 hnot)).antisymm hle
    refine ⟨m, ?_, hm⟩
    rw [heq, ← prefix_iff_eq_take.1 hmf]

theorem shellComplete_spec_fork : ∃ m,
    (shellComplete [] [some ['a', 'b'], some ['a', 'c']] 8).output = some m ∧
      LongestCommon m [['a', 'b'], ['a', 'c']] := by
  have hstart : starting [] [some ['a', 'b'], some ['a', 'c']] = [['a', 'b'], ['a', 'c']] := by decide
  refine (shellComplete_spec [] _ 8 hstart (by decide)).2.2 ⟨['a'], fun q => ?_, by decide, ?_⟩
  · simp only [mem_cons, not_mem_nil, or_false, forall_eq_or_imp, forall_eq, prefix_cons_iff,
      prefix_nil]
    grind
  · rintro ⟨p, -, hlt, heq, hlast⟩
    obtain rfl : p = 1 := Nat.le_antisymm (Nat.le_of_lt_succ hlt) (Nat.le_of_lt_succ hlast)
    exact absurd heq (by decide)

theorem shellComplete_last : ∃ candidates m,
    shellComplete [] candidates 8 = ⟨0, some 2, some m⟩ ∧
      ¬LongestCommon m (starting [] candidates) := by
  refine ⟨[some ['a', 'c'], some ['b', 'c']], ['a', 'c'], by decide, fun h => ?_⟩
  exact absurd ((h ['a', 'c']).1 prefix_rfl ['b', 'c'] (by decide)) (by decide)

/-! ## Matching -/

/-- `pathname_match`. After a run of stars the loop over the name and the call behind it try
every tail of the name. -/
def pathnameMatch : Text → Text → Bool
  | [], name => name.isEmpty
  | c :: pattern, name =>
    if c = '*' then
      pattern.dropWhile (· = '*') = [] ||
        name.tails.any fun rest => pathnameMatch (pattern.dropWhile (· = '*')) rest
    else (c = '?' || name.head? = some c) && pathnameMatch pattern name.tail
  termination_by pattern => pattern.length
  decreasing_by all_goals grind [dropWhile_suffix, IsSuffix.length_le]

/-- The language of a pattern. -/
inductive Matches : Text → Text → Prop
  | nil : Matches [] []
  | star {pattern name : Text} (skipped : Text) (h : Matches pattern name) :
      Matches ('*' :: pattern) (skipped ++ name)
  | question {pattern name : Text} (c : Char) (h : Matches pattern name) :
      Matches ('?' :: pattern) (c :: name)
  | char {pattern name : Text} {c : Char} (hc : c ≠ '*' ∧ c ≠ '?') (h : Matches pattern name) :
      Matches (c :: pattern) (c :: name)

/-- A name that is too short for the pattern: question marks at its end have no character left. -/
def Short (pattern name : Text) : Prop :=
  ¬Matches pattern name ∧
    ∃ front back, pattern = front ++ back ∧ (∀ c ∈ back, c = '*' ∨ c = '?') ∧ Matches front name

theorem pathnameMatch_star (pattern name : Text) : pathnameMatch ('*' :: pattern) name = true ↔
    ∃ rest, rest <:+ name ∧ pathnameMatch pattern rest = true := by
  cases pattern with
  | nil =>
    simp only [pathnameMatch, if_true, dropWhile_nil, decide_true, Bool.true_or, true_iff]
    exact ⟨[], nil_suffix, rfl⟩
  | cons c pattern =>
  by_cases hc : c = '*'
  · subst hc
    simp only [pathnameMatch, dropWhile_cons, decide_true, if_true, Bool.or_eq_true,
      decide_eq_true_eq, any_eq_true, mem_tails]
    constructor
    · rintro (hnil | ⟨rest, hrest, h⟩)
      · exact ⟨name, suffix_rfl, .inl hnil⟩
      · exact ⟨name, suffix_rfl, .inr ⟨rest, hrest, h⟩⟩
    rintro ⟨rest, hrest, hnil | ⟨t, ht, h⟩⟩
    · exact .inl hnil
    · exact .inr ⟨t, ht.trans hrest, h⟩
  · rw [pathnameMatch]
    simp [hc]

theorem pathnameMatch_wild {back : Text} (h : ∀ c ∈ back, c = '*' ∨ c = '?') :
    pathnameMatch back [] = true := by
  induction back with
  | nil => simp [pathnameMatch]
  | cons c back ih =>
    have ih := ih fun d hd => h d (mem_cons_of_mem c hd)
    obtain rfl | rfl := h c mem_cons_self
    · exact (pathnameMatch_star _ _).2 ⟨[], suffix_rfl, ih⟩
    · simpa [pathnameMatch] using ih

theorem Matches.accepted {front back name : Text} (hb : ∀ c ∈ back, c = '*' ∨ c = '?')
    (h : Matches front name) : pathnameMatch (front ++ back) name = true := by
  induction h with
  | nil => exact pathnameMatch_wild hb
  | star skipped _ ih => exact (pathnameMatch_star _ _).2 ⟨_, suffix_append _ _, ih⟩
  | question c _ ih => simpa [pathnameMatch] using ih
  | char hc _ ih => simpa [pathnameMatch, hc.1] using ih

theorem Matches.stars {pattern : Text} (h : Matches pattern []) : ∀ c ∈ pattern, c = '*' := by
  generalize hname : ([] : Text) = name at h
  induction h with
  | nil => simp
  | star skipped _ ih =>
    obtain ⟨-, rfl⟩ := append_eq_nil_iff.1 hname.symm
    simpa using ih rfl
  | question => cases hname
  | char => cases hname

/-- What the code accepts: behind a part of the pattern that the name matches, only stars and
question marks follow. -/
theorem pathnameMatch_iff (pattern name : Text) : pathnameMatch pattern name = true ↔
    ∃ front back, pattern = front ++ back ∧ (∀ c ∈ back, c = '*' ∨ c = '?') ∧
      Matches front name := by
  refine ⟨fun h => ?_, fun ⟨front, back, heq, hb, hm⟩ => heq ▸ hm.accepted hb⟩
  induction pattern generalizing name with
  | nil =>
    obtain rfl : name = [] := by simpa [pathnameMatch] using h
    exact ⟨[], [], rfl, by simp, .nil⟩
  | cons c pattern ih =>
    by_cases hc : c = '*'
    · subst hc
      obtain ⟨rest, ⟨skipped, rfl⟩, hm⟩ := (pathnameMatch_star _ _).1 h
      obtain ⟨front, back, rfl, hb, hm⟩ := ih rest hm
      exact ⟨'*' :: front, back, rfl, hb, .star skipped hm⟩
    rw [pathnameMatch, if_neg hc, Bool.and_eq_true] at h
    obtain ⟨front, back, rfl, hb, hm⟩ := ih name.tail h.2
    by_cases hq : c = '?'
    · subst hq
      cases name with
      | nil =>
        -- the question mark stands for nothing, and so does what follows
        refine ⟨[], '?' :: (front ++ back), rfl, fun d hd => ?_, .nil⟩
        simp only [mem_cons, mem_append] at hd
        obtain rfl | hd | hd := hd
        · exact .inr rfl
        · exact .inl (hm.stars d hd)
        · exact hb d hd
      | cons d name => exact ⟨'?' :: front, back, rfl, hb, .question d hm⟩
    obtain ⟨name, rfl⟩ : ∃ rest, name = c :: rest :=
      head?_eq_some_iff.1 (by simpa [hq] using h.1)
    exact ⟨c :: front, back, rfl, hb, .char ⟨hc, hq⟩ hm⟩

/-- `pathname_match` is right about a name if and only if this is not too short in its last
question marks. -/
theorem pathnameMatch_spec (pattern name : Text) :
    (pathnameMatch pattern name = true ↔ Matches pattern name) ↔ ¬Short pattern name := by
  have hall (h : Matches pattern name) : pathnameMatch pattern name = true :=
    (pathnameMatch_iff _ _).2 ⟨pattern, [], (append_nil _).symm, by simp, h⟩
  constructor
  · rintro heq ⟨hnot, hshort⟩
    exact hnot (heq.1 ((pathnameMatch_iff _ _).2 hshort))
  · intro hnot
    refine ⟨fun h => ?_, hall⟩
    by_contra hm
    exact hnot ⟨hm, (pathnameMatch_iff _ _).1 h⟩

theorem pathnameMatch_short : pathnameMatch ['?'] [] = true ∧ ¬Matches ['?'] [] := by
  refine ⟨by simp [pathnameMatch], fun h => ?_⟩
  cases h

end RixuriOS.Shell
