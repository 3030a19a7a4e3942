/-
The name matching of `bbsread` (`match.c`), by which options, commands and conferences are looked up. A pattern is
the letters that are needed, and after an underscore letters of which any number may be given; it ends with a colon or
a NUL. Both strings are given as the cells from the pointer on, with whatever stands behind their NULs; a read of a cell
that is not there is `none`.

- `matchLoop_optional`, `matchLoop_needed`: what the scan gives behind the underscore and in front of it.
- `match_abbreviates`: the scan stays in both strings and finds the names that a pattern abbreviates.
-/
import Mathlib.Tactic
import MNetSoft.Core.CString
import MNetSoft.Core.Memory

namespace MNetSoft.Bbsread

open MNetSoft.CString MNetSoft.Memory

/-! ## Model -/

/-- `*name`, for a pointer that may stand in front of the string for a while -/
def peek (cells : Str) (i : ℤ) : Option Char := if 0 ≤ i then load cells i.toNat else none

/-- what is returned behind the loop, with the pattern at `p` -/
def matchEnd (cells : Str) (passed_dash : Bool) (i : ℤ) (p : Char) : Option Bool :=
  if p = ':' ∨ p = '\x00' then (peek cells i).map fun n => decide (n = '\x00')
  else some (passed_dash || decide (p = '_'))

/-- the loop of `match`, with the cells of the pattern from `pat` on -/
def matchLoop (cells : Str) (passed_dash : Bool) (i : ℤ) : Str → Option Bool
  | [] => none
  | p :: pat =>
    if p ≠ ':' ∨ p = '\x00' then
      match peek cells i with
      | none => none
      | some n =>
        if n ≠ '\x00' then
          -- `name--`, and `name++` of the loop
          if p = '_' then matchLoop cells true (i - 1 + 1) pat
          else if n ≠ p then some false
          else matchLoop cells passed_dash (i + 1) pat
        else matchEnd cells passed_dash i p
    else matchEnd cells passed_dash i p

def match_ (name pat : Str) : Option Bool := matchLoop name false 0 pat

/-! ## Patterns -/

/-- a pattern: the letters needed, and the optional ones, where there is an underscore -/
structure Pattern where
  needed : Str
  optional : Option Str
  letters : ∀ c ∈ needed ++ optional.getD [], c ≠ '_' ∧ c ≠ ':' ∧ c ≠ '\x00'

def Pattern.text (p : Pattern) : Str := p.needed ++ p.optional.elim [] ('_' :: ·)

/-- the name is the letters needed, followed by some of the optional ones -/
def Pattern.Abbreviates (p : Pattern) (name : Str) : Prop := ∃ s, s <+: p.optional.getD [] ∧ name = p.needed ++ s

theorem Pattern.abbreviates_iff (p : Pattern) (name : Str) :
    p.Abbreviates name ↔ p.needed <+: name ∧ name.drop p.needed.length <+: p.optional.getD [] := by
  constructor
  · intro h
    obtain ⟨s, hs, rfl⟩ := h
    rw [List.drop_left]
    exact ⟨List.prefix_append _ _, hs⟩
  · intro h
    obtain ⟨⟨s, rfl⟩, hs⟩ := h
    rw [List.drop_left] at hs
    exact ⟨s, hs, rfl⟩

instance (p : Pattern) : DecidablePred p.Abbreviates := fun name =>
  decidable_of_iff _ (p.abbreviates_iff name).symm

/-! ## The scan -/

section Scan

variable {o m s : Str} {t : Char}

theorem peek_append (pre : Str) (c : Char) (post : Str) : peek (pre ++ c :: post) pre.length = some c := by
  rw [peek, if_pos (Int.natCast_nonneg _), Int.toNat_natCast]
  exact load_append rfl

/-- at the end of the name the loop is over -/
theorem matchLoop_nul {cells : Str} {i : ℤ} (h : peek cells i = some '\x00') (b : Bool) (p : Char) (pat : Str) :
    matchLoop cells b i (p :: pat) = matchEnd cells b i p := by
  rw [matchLoop, h]
  simp

/-- at the end of the pattern the name has to be at its end too -/
theorem matchLoop_end (ht : t = ':' ∨ t = '\x00') (hs : '\x00' ∉ s) (b : Bool) (pre post rest : Str) :
    matchLoop (pre ++ (s ++ '\x00' :: post)) b pre.length (t :: rest) = some (decide (s = [])) := by
  cases s with
  | nil =>
    have hpeek := peek_append pre '\x00' post
    have hend : matchEnd (pre ++ '\x00' :: post) b pre.length t = some true := by
      rw [matchEnd, if_pos ht, hpeek]
      rfl
    rw [List.nil_append, matchLoop_nul hpeek, hend, decide_eq_true rfl]
  | cons c s =>
    have hc : c ≠ '\x00' := fun h => hs (by simp [h])
    have hpeek := peek_append pre c (s ++ '\x00' :: post)
    rw [List.cons_append, matchLoop, hpeek]
    rcases ht with rfl | rfl
    · rw [if_neg (by decide), matchEnd, if_pos (Or.inl rfl), hpeek, Option.map_some]
      simp [hc]
    · rw [if_pos (Or.inr rfl)]
      simp only
      rw [if_pos hc, if_neg (by decide), if_pos hc]
      simp

/-- a letter of the pattern in front of the end of the name -/
theorem matchLoop_short {p : Char} (hp : p ≠ ':' ∧ p ≠ '\x00') (b : Bool) (pre post pat : Str) :
    matchLoop (pre ++ '\x00' :: post) b pre.length (p :: pat) = some (b || decide (p = '_')) := by
  rw [matchLoop_nul (peek_append _ _ _), matchEnd, if_neg (by rw [not_or]; exact hp)]

/-- a letter of the pattern in front of a letter of the name -/
theorem matchLoop_letter {p c : Char} (hp : p ≠ '_' ∧ p ≠ ':') (hc : c ≠ '\x00') (b : Bool) (pre post pat : Str) :
    matchLoop (pre ++ c :: post) b pre.length (p :: pat) =
      if c = p then matchLoop (pre ++ [c] ++ post) b (pre ++ [c]).length pat else some false := by
  have hcells : pre ++ c :: post = pre ++ [c] ++ post := by rw [List.append_assoc, List.singleton_append]
  rw [matchLoop, if_pos (Or.inl hp.2), peek_append]
  simp only
  rw [if_pos hc, if_neg hp.1, hcells, List.length_append, List.length_singleton, Nat.cast_add, Nat.cast_one]
  by_cases hcp : c = p
  · rw [if_neg (not_not.2 hcp), if_pos hcp]
  · rw [if_pos hcp, if_neg hcp]

/-- **Behind the underscore.** What is left of the name has to begin what is left of the pattern. -/
theorem matchLoop_optional (ho : ∀ c ∈ o, c ≠ '_' ∧ c ≠ ':' ∧ c ≠ '\x00') (ht : t = ':' ∨ t = '\x00')
    (hs : '\x00' ∉ s) (pre post rest : Str) :
    matchLoop (pre ++ (s ++ '\x00' :: post)) true pre.length (o ++ t :: rest) = some (decide (s <+: o)) := by
  induction o generalizing s pre with
  | nil => simp only [List.nil_append, matchLoop_end ht hs, List.prefix_nil]
  | cons p o ih =>
    obtain ⟨hp, ho⟩ := List.forall_mem_cons.1 ho
    cases s with
    | nil => simp [matchLoop_short hp.2]
    | cons c s =>
      have hc : c ≠ '\x00' := fun h => hs (by simp [h])
      rw [List.cons_append, List.cons_append, matchLoop_letter ⟨hp.1, hp.2.1⟩ hc,
        ih ho (fun h => hs (List.mem_cons_of_mem c h))]
      simp only [List.cons_prefix_cons]
      split_ifs with hcp
      · simp [hcp]
      · simp [hcp]

theorem matchLoop_dash (ho : ∀ c ∈ o, c ≠ '_' ∧ c ≠ ':' ∧ c ≠ '\x00') (ht : t = ':' ∨ t = '\x00') (hs : '\x00' ∉ s)
    (b : Bool) (pre post rest : Str) :
    matchLoop (pre ++ (s ++ '\x00' :: post)) b pre.length ('_' :: (o ++ t :: rest)) = some (decide (s <+: o)) := by
  cases s with
  | nil => simp [matchLoop_short]
  | cons c s =>
    have hc : c ≠ '\x00' := fun h => hs (by simp [h])
    have hopt := matchLoop_optional ho ht hs pre post rest
    rw [List.cons_append] at hopt ⊢
    rw [matchLoop, if_pos (Or.inl (by decide)), peek_append]
    simp only
    rw [if_pos hc, if_pos trivial, sub_add_cancel, hopt]

/-- **In front of the underscore**, or where there is none. -/
theorem matchLoop_needed {opt : Option Str} (hm : ∀ c ∈ m ++ opt.getD [], c ≠ '_' ∧ c ≠ ':' ∧ c ≠ '\x00')
    (ht : t = ':' ∨ t = '\x00') (hs : '\x00' ∉ s) (pre post rest : Str) :
    matchLoop (pre ++ (s ++ '\x00' :: post)) false pre.length (m ++ (opt.elim [] ('_' :: ·) ++ t :: rest)) =
      some (decide (m <+: s ∧ s.drop m.length <+: opt.getD [])) := by
  induction m generalizing s pre with
  | nil =>
    cases opt with
    | none => simp [matchLoop_end ht hs]
    | some o =>
      have hdash := matchLoop_dash hm ht hs false pre post rest
      simpa using hdash
  | cons p m ih =>
    obtain ⟨hp, hm⟩ := List.forall_mem_cons.1 hm
    cases s with
    | nil => simp [matchLoop_short hp.2, hp.1]
    | cons c s =>
      have hc : c ≠ '\x00' := fun h => hs (by simp [h])
      rw [List.cons_append, List.cons_append, matchLoop_letter ⟨hp.1, hp.2.1⟩ hc,
        ih hm (fun h => hs (List.mem_cons_of_mem c h))]
      split_ifs with hcp
      · simp [hcp]
      · simp [Ne.symm hcp]

end Scan

theorem match_eq {name : Str} (hname : '\x00' ∉ name) (p : Pattern) {t : Char} (ht : t = ':' ∨ t = '\x00')
    (post rest : Str) :
    match_ (name ++ '\x00' :: post) (p.text ++ t :: rest) = some (decide (p.Abbreviates name)) := by
  have h := matchLoop_needed p.letters ht hname [] post rest
  rw [List.nil_append, List.length_nil, Nat.cast_zero] at h
  rw [match_, Pattern.text, List.append_assoc, h]
  simp only [p.abbreviates_iff]

/-! ## Main result -/

/-- **Matching.** For a name without a colon and a pattern that ends with a colon or a NUL, whatever stands behind them,
the scan reads no cell behind the NULs, and it finds a match exactly if the name is the letters needed, followed by some
of the optional ones. -/
theorem match_abbreviates {name : Str} (hname : ∀ c ∈ name, c ≠ ':' ∧ c ≠ '\x00') (p : Pattern) {t : Char}
    (ht : t = ':' ∨ t = '\x00') (post rest : Str) :
    ∃ b, match_ (name ++ '\x00' :: post) (p.text ++ t :: rest) = some b ∧
      (b = true ↔ ∃ s, s <+: p.optional.getD [] ∧ name = p.needed ++ s) :=
  ⟨decide (p.Abbreviates name), match_eq (fun h => (hname _ h).2 rfl) p ht post rest, decide_eq_true_iff⟩

def brandnew : Pattern := ⟨['b', 'r', 'a'], some ['n', 'd', 'n', 'e', 'w'], by decide⟩

/-- its abbreviation `bran`, both strings ending with the last cell there is -/
theorem match_abbreviates_bran :
    ∃ b, match_ (['b', 'r', 'a', 'n'] ++ '\x00' :: []) (brandnew.text ++ '\x00' :: []) = some b ∧
      (b = true ↔ ∃ s, s <+: brandnew.optional.getD [] ∧ ['b', 'r', 'a', 'n'] = brandnew.needed ++ s) :=
  match_abbreviates (by decide) brandnew (Or.inr rfl) [] []

end MNetSoft.Bbsread
