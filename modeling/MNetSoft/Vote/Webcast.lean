/-
The tally of the web ballot: the loop over the candidates in `webcast.c` and `cgival` of `formvars.c`, by which it
goes through the form. The table is the list of its cells, a string or NULL each; a read behind them, or `strcmp` with a
NULL, is undefined (`none`).

`cgival` keeps where it has stopped, and a search for the next value starts behind that place. The loop leaves this
search as soon as it has found the candidate, and for the next candidate it starts again at the first cell.
- `search_spec`: what a search finds.
- `cgival_first`, `cgival_next`: a call gives the next of the values that are left.
- `tallyLoop_mem`, `again_values`: what the loop finds, and what any number of calls gives.
- `tally_counts`: which candidates are voted for.
-/
import Mathlib.Tactic
import MNetSoft.Core.CString
import MNetSoft.Vote.Ballot

namespace MNetSoft.Vote

open MNetSoft.CString

/-! ## Model -/

/-- the statics of `formvars.c`; `savedtp` is a place in the table -/
structure Form where
  table : Option (List (Option Str))
  savedtp : Option ℕ
deriving DecidableEq, Repr

/-- the loop of `cgival` from the cell `tp` on: `savedtp` and the value -/
def search (name : Str) : ℕ → List (Option Str) → Option (Option ℕ × Option Str)
  | _, [] => none
  | _, none :: _ => some (none, none)
  | _, [some _] => none
  | tp, some s :: value :: cells => if strcmp s name = 0 then some (some tp, value) else search name (tp + 2) cells

def cgival (name : Option Str) (f : Form) : Option (Option Str × Form) :=
  match f.table with
  | none => some (none, f)
  | some cells =>
    match name, f.savedtp with
    | some name, _ => (search name 0 cells).map fun r => (r.2, { f with savedtp := r.1 })
    | none, none => some (none, f)
    | none, some tp =>
      match cells[tp]? with
      -- the last name found
      | some (some name) => (search name (tp + 2) (cells.drop (tp + 2))).map fun r => (r.2, { f with savedtp := r.1 })
      | _ => none

/-- the inner loop: is one of the values the login id -/
def tallyLoop (logid : Str) : ℕ → Option Str → Form → Option (Bool × Form)
  | 0, _, _ => none
  | _ + 1, none, f => some (false, f)
  | fuel + 1, some login, f =>
    if strcmp login logid = 0 then some (true, f)
    else do
      let (login, f) ← cgival none f
      tallyLoop logid fuel login f

/-- a turn of the inner loop for each of the cells, and one more -/
def Form.turns (f : Form) : ℕ := (f.table.getD []).length + 1

/-- the outer loop: the candidates with `votefor`, and `nv` -/
def tally : List CandRec → ℤ → Form → Option (List CandRec × ℤ × Form)
  | [], nv, f => some ([], nv, f)
  | c :: cr, nv, f => do
    let (login, f) ← cgival (some "cand".toList) f
    let (votefor, f) ← tallyLoop c.logid f.turns login f
    let (cr, nv, f) ← tally cr (if votefor then nv + 1 else nv) f
    return ({ c with votefor } :: cr, nv, f)

/-- what so many calls `cgival(NULL)` give -/
def again : ℕ → Form → Option (List (Option Str))
  | 0, _ => some []
  | k + 1, f => do
    let (value, f) ← cgival none f
    return value :: (← again k f)

/-- what `cgival(name)` and then so many calls `cgival(NULL)` give -/
def enumerate (name : Str) (k : ℕ) (f : Form) : Option (List (Option Str)) := do
  let (value, f) ← cgival (some name) f
  return value :: (← again k f)

/-! ## The values of a name -/

/-- the table of names and values -/
def cells (pairs : List (Str × Str)) : List (Option Str) := pairs.flatMap (fun p => [some p.1, some p.2]) ++ [none]

/-- the values of a name, in order -/
def values (name : Str) (pairs : List (Str × Str)) : List Str := (pairs.filter fun p => p.1 = name).map Prod.snd

section Values

variable {name : Str} {pairs done todo : List (Str × Str)} {left : List Str} {f : Form}

theorem cells_append (done todo : List (Str × Str)) :
    cells (done ++ todo) = done.flatMap (fun p => [some p.1, some p.2]) ++ cells todo := by
  rw [cells, cells, List.flatMap_append, List.append_assoc]

theorem length_flatMap (done : List (Str × Str)) :
    (done.flatMap fun p => [some p.1, some p.2]).length = 2 * done.length := by
  induction done with
  | nil => rfl
  | cons p done ih =>
    rw [List.flatMap_cons, List.length_append, ih, List.length_cons (a := p), Nat.mul_succ, Nat.add_comm]
    rfl

theorem mem_values {value : Str} : value ∈ values name pairs ↔ (name, value) ∈ pairs := by
  rw [values, List.mem_map]
  constructor
  · intro ⟨p, hp, hvalue⟩
    obtain ⟨hmem, hname⟩ := List.mem_filter.1 hp
    rw [← of_decide_eq_true hname, ← hvalue]
    exact hmem
  · intro h
    exact ⟨_, List.mem_filter.2 ⟨h, decide_eq_true rfl⟩, rfl⟩

theorem length_values_le (name : Str) (pairs : List (Str × Str)) :
    (values name pairs).length < (cells pairs).length := by
  have hle := List.length_filter_le (fun p => decide (p.1 = name)) pairs
  rw [values, List.length_map, cells, List.length_append, length_flatMap, List.length_singleton]
  omega

/-- **A search** stops at the first pair with the name, or at the NULL. -/
theorem search_spec (name : Str) (tp : ℕ) (pairs : List (Str × Str)) :
    (values name pairs = [] ∧ search name tp (cells pairs) = some (none, none)) ∨
      ∃ done value todo, pairs = done ++ (name, value) :: todo ∧
        values name pairs = value :: values name todo ∧
        search name tp (cells pairs) = some (some (tp + 2 * done.length), some value) := by
  induction pairs generalizing tp with
  | nil => exact .inl ⟨rfl, rfl⟩
  | cons p pairs ih =>
    have hcells : cells (p :: pairs) = some p.1 :: some p.2 :: cells pairs := rfl
    rw [hcells, search]
    by_cases hp : p.1 = name
    · have hvalues : values name (p :: pairs) = p.2 :: values name pairs := by
        simp [values, hp]
      refine .inr ⟨[], p.2, pairs, by rw [← hp, List.nil_append], hvalues, ?_⟩
      rw [if_pos ((strcmp_zero _ _).2 hp)]
      rfl
    · have hvalues : values name (p :: pairs) = values name pairs := by
        simp [values, hp]
      rw [if_neg (mt (strcmp_zero _ _).1 hp), hvalues]
      rcases ih (tp + 2) with h | ⟨done, value, todo, hpairs, hval, hsearch⟩
      · exact .inl h
      · refine .inr ⟨p :: done, value, todo, by rw [hpairs, List.cons_append], hval, ?_⟩
        rw [hsearch, List.length_cons, Nat.mul_succ, Nat.add_assoc, Nat.add_comm 2]

/-! ## Calls -/

/-- between two calls: these values of the name are left -/
def Left (pairs : List (Str × Str)) (name : Str) (left : List Str) (f : Form) : Prop :=
  f.table = some (cells pairs) ∧
    match f.savedtp with
    | none => left = []
    | some tp => ∃ done value todo, pairs = done ++ (name, value) :: todo ∧ tp = 2 * done.length ∧
        left = values name todo

/-- **The first call** gives the first value, and the others are left. -/
theorem cgival_first (hf : f.table = some (cells pairs)) (name : Str) :
    ∃ f', cgival (some name) f = some ((values name pairs).head?, f') ∧
      Left pairs name (values name pairs).tail f' := by
  obtain ⟨_, savedtp⟩ := f
  cases hf
  rcases search_spec name 0 pairs with ⟨hnil, hsearch⟩ | ⟨done, value, todo, hpairs, hval, hsearch⟩
  · refine ⟨⟨some (cells pairs), none⟩, ?_, rfl, ?_⟩
    · simp [cgival, hsearch, hnil]
    · rw [hnil, List.tail_nil]
  · refine ⟨⟨some (cells pairs), some (0 + 2 * done.length)⟩, ?_, rfl, done, value, todo, hpairs, Nat.zero_add _, ?_⟩
    · simp [cgival, hsearch, hval]
    · rw [hval, List.tail_cons]

/-- **A further call** gives the next of the values that are left. -/
theorem cgival_next (h : Left pairs name left f) :
    ∃ f', cgival none f = some (left.head?, f') ∧ Left pairs name left.tail f' := by
  obtain ⟨_, savedtp⟩ := f
  obtain ⟨htable, hsaved⟩ := h
  cases htable
  cases savedtp with
  | none =>
    cases hsaved
    exact ⟨_, rfl, rfl, rfl⟩
  | some tp =>
    obtain ⟨done, value, todo, hpairs, rfl, rfl⟩ := hsaved
    have hcell : (cells pairs)[2 * done.length]? = some (some name) := by
      rw [hpairs, cells_append, ← length_flatMap done, List.getElem?_append_right le_rfl, Nat.sub_self]
      rfl
    have hdrop : (cells pairs).drop (2 * done.length + 2) = cells todo := by
      rw [hpairs, cells_append, ← length_flatMap done, List.drop_length_add_append]
      rfl
    have hspec := search_spec name (2 * done.length + 2) todo
    rcases hspec with ⟨hnil, hsearch⟩ | ⟨done', value', todo', htodo, hval, hsearch⟩
    · refine ⟨⟨some (cells pairs), none⟩, ?_, rfl, ?_⟩
      · simp [cgival, hcell, hdrop, hsearch, hnil]
      · rw [hnil, List.tail_nil]
    · refine ⟨⟨some (cells pairs), some (2 * done.length + 2 + 2 * done'.length)⟩, ?_, rfl,
        done ++ (name, value) :: done', value', todo', ?_, ?_, ?_⟩
      · simp [cgival, hcell, hdrop, hsearch, hval]
      · rw [hpairs, htodo, List.append_assoc, List.cons_append]
      · rw [List.length_append, List.length_cons]
        omega
      · rw [hval, List.tail_cons]

/-- **The run of the inner loop**: it finds the login id if it is one of the values left. -/
theorem tallyLoop_mem (logid : Str) {fuel : ℕ} (h : Left pairs name left.tail f) (hfuel : left.length < fuel) :
    ∃ f', tallyLoop logid fuel left.head? f = some (decide (logid ∈ left), f') ∧ f'.table = some (cells pairs) := by
  induction fuel generalizing left f with
  | zero => exact absurd hfuel (Nat.not_lt_zero _)
  | succ fuel ih =>
    cases left with
    | nil => exact ⟨f, by simp [tallyLoop], h.1⟩
    | cons login left =>
      rw [List.head?_cons, tallyLoop]
      by_cases hlogin : login = logid
      · exact ⟨f, by simp [hlogin, strcmp_zero], h.1⟩
      · rw [List.tail_cons] at h
        obtain ⟨f₁, hcall, hleft⟩ := cgival_next h
        obtain ⟨f', hloop, htable⟩ := ih hleft (Nat.lt_of_succ_lt_succ hfuel)
        refine ⟨f', ?_, htable⟩
        simp [strcmp_zero, hlogin, hcall, hloop, Ne.symm hlogin]

theorem head_tail (left : List Str) (k : ℕ) :
    left.head? :: (List.range k).map (fun i => left.tail[i]?) = (List.range (k + 1)).map fun i => left[i]? := by
  rw [List.range_succ_eq_map, List.map_cons, List.map_map]
  cases left with
  | nil => rfl
  | cons value left => rfl

/-- **Any number of further calls** gives the values left, and then NULL. -/
theorem again_values (k : ℕ) (h : Left pairs name left f) :
    again k f = some ((List.range k).map fun i => left[i]?) := by
  induction k generalizing left f with
  | zero => rfl
  | succ k ih =>
    obtain ⟨f', hcall, hleft⟩ := cgival_next h
    simp only [← head_tail, again, hcall, Option.bind_eq_bind, Option.bind_some, ih hleft]
    rfl

theorem enumerate_values (hf : f.table = some (cells pairs)) (name : Str) (k : ℕ) :
    enumerate name k f = some ((List.range (k + 1)).map fun i => (values name pairs)[i]?) := by
  obtain ⟨f', hcall, hleft⟩ := cgival_first hf name
  simp only [← head_tail, enumerate, hcall, Option.bind_eq_bind, Option.bind_some, again_values k hleft]
  rfl

/-- **The run of the outer loop**, from whatever the last search has left. -/
theorem tally_run (hf : f.table = some (cells pairs)) (cr : List CandRec) (nv : ℤ) :
    ∃ f', tally cr nv f = some (cr.map fun c => { c with votefor := decide (("cand".toList, c.logid) ∈ pairs) },
      nv + cr.countP fun c => ("cand".toList, c.logid) ∈ pairs, f') := by
  induction cr generalizing nv f with
  | nil => exact ⟨f, by simp [tally]⟩
  | cons c cr ih =>
    obtain ⟨f₁, hcall, hleft⟩ := cgival_first hf "cand".toList
    have hturns : (values "cand".toList pairs).length < f₁.turns := by
      rw [Form.turns, hleft.1, Option.getD_some]
      exact Nat.lt_succ_of_lt (length_values_le _ _)
    obtain ⟨f₂, hloop, htable⟩ := tallyLoop_mem c.logid hleft hturns
    simp only [mem_values] at hloop
    obtain ⟨f', hrest⟩ := ih htable (if ("cand".toList, c.logid) ∈ pairs then nv + 1 else nv)
    refine ⟨f', ?_⟩
    simp only [tally, hcall, hloop, decide_eq_true_eq, hrest, Option.bind_eq_bind, Option.bind_some, List.map_cons]
    rw [List.countP_cons]
    by_cases h : ("cand".toList, c.logid) ∈ pairs
    · rw [if_pos h, if_pos (decide_eq_true h), Nat.cast_succ, add_assoc, add_comm (1 : ℤ)]
      rfl
    · rw [if_neg h, if_neg (by rw [decide_eq_true_eq]; exact h)]
      rfl

end Values

/-- **The tally.** Whatever was asked of the form before, a candidate is voted for if a pair named `cand` has the login
id, and `nv` is the number of these candidates; and a search for a name and further ones give its values in order. -/
theorem tally_counts (pairs : List (Str × Str)) (savedtp : Option ℕ) (cr : List CandRec) :
    (∃ f', tally cr 0 ⟨some (cells pairs), savedtp⟩ =
      some (cr.map fun c => { c with votefor := decide (("cand".toList, c.logid) ∈ pairs) },
        ((cr.countP fun c => ("cand".toList, c.logid) ∈ pairs : ℕ) : ℤ), f')) ∧
    ∀ name k, enumerate name k ⟨some (cells pairs), savedtp⟩ =
      some ((List.range (k + 1)).map fun i => (values name pairs)[i]?) := by
  refine ⟨?_, fun name k => enumerate_values rfl name k⟩
  have htable : (Form.mk (some (cells pairs)) savedtp).table = some (cells pairs) := rfl
  obtain ⟨f', hrun⟩ := tally_run htable cr 0
  rw [zero_add] at hrun
  exact ⟨f', hrun⟩

end MNetSoft.Vote
