/-
The dialogues of `pnewuser`: `get` of `Data`, which asks for a value until its test does not refuse it, and
`confirm_or_exit` of `Confirmation`. An applicant types the lines; behind the last one the file has ended, for every
call that reads from it. The tests are any functions of the value. Both loops are given the number of turns that they
may take.

- `get_first`: what `get` comes to, by the first answer that is not refused.
- `get_ends_iff`: exactly when it comes to an end.
- `others_end`: with the tests there are, only the address and the login may be asked for ever.
- `behaves_iff`: exactly when `confirm_or_exit` does, and returns at `done` and `'done'` and nothing else.
- `never_ends`: the end of file, and `done` in quotes.
- `raised_of_dialogue`: a dialogue that ends is one of the turns of `Session`.
-/
import Mathlib.Tactic
import MNetSoft.Pnewuser.Session

namespace MNetSoft.Pnewuser.Dialogue

open MNetSoft.CString

/-! ## The reader -/

/-- a line without its newline; at the end of file there is none, this time and every time after -/
def readline : List Str → Option Str × List Str
  | [] => (none, [])
  | l :: lines => (some l, lines)

def line (lines : List Str) : Str × List Str := (trim (readline lines).1, (readline lines).2)

/-- the loop of `paragraph` -/
def paragraphLoop : List Str → Str × List Str
  | [] => ([], [])
  | l :: lines =>
    if l = ['.'] then ([], lines)
    else (l.rdropWhile isspace ++ '\n' :: (paragraphLoop lines).1, (paragraphLoop lines).2)

/-- white space at the end becomes one newline -/
def closeText (s : Str) : Str := if s.getLast?.any isspace then s.rdropWhile isspace ++ ['\n'] else s

def paragraph (lines : List Str) : Str × List Str :=
  (closeText (skipSpace (paragraphLoop lines).1), (paragraphLoop lines).2)

/-! ## The data -/

/-- what `isvalid` says about a value, or that it dies -/
inductive Verdict where
  | valid
  | refused
  | dies (text : Str)
deriving DecidableEq, Repr

/-- how `getvalue` of a datum comes by a value -/
inductive Reading where
  | line
  | name
  | paragraph
  | resh
deriving DecidableEq, Repr

structure Datum where
  reading : Reading
  isvalid : Str → Verdict

def RESH : Str := "/usr/local/bin/resh".toList

def Datum.getvalue (d : Datum) (lines : List Str) : Str × List Str :=
  match d.reading with
  | .line => line lines
  | .name => (nameValue (readline lines).1, (readline lines).2)
  | .paragraph => paragraph lines
  | .resh => (RESH, lines)

/-- how a loop ends, with the lines that are left if it returns; `unfinished` if it has not in the turns it may take -/
inductive Outcome where
  | returned (lines : List Str)
  | exited
  | died (text : Str)
  | unfinished
deriving DecidableEq, Repr

def Datum.get_or_interrupt (d : Datum) (lines : List Str) : Verdict × List Str :=
  (d.isvalid (d.getvalue lines).1, (d.getvalue lines).2)

def Datum.get (d : Datum) : ℕ → List Str → Outcome
  | 0, _ => .unfinished
  | fuel + 1, lines =>
    match d.get_or_interrupt lines with
    | (.valid, lines) => .returned lines
    | (.refused, lines) => d.get fuel lines
    | (.dies text, _) => .died text

/-- the keys of the data, and how they are read -/
def keys : List (String × Reading) :=
  [("name", .name), ("email", .line), ("address", .paragraph), ("telephone", .line), ("occupation", .paragraph),
    ("computers", .paragraph), ("birthday", .line), ("gender", .line), ("interests", .paragraph), ("hidden", .line),
    ("login", .line), ("shell", .resh)]

/-- `accessor` of `User`, with a test for each key -/
def accessor (tests : Str → Str → Verdict) (key : Str) : Option Datum :=
  (keys.find? fun k => k.1.toList = key).map fun k => ⟨k.2, tests key⟩

/-! ## The tests there are -/

def ofBool (b : Bool) : Verdict := if b then .valid else .refused

/-- a value that is tested -/
def lowered (value : Str) : Str := if truthy value then value.map Char.toLower else []

def genderIsvalid (value : Str) : Bool :=
  (["", "male", "female", "homme", "femme", "man", "woman", "womyn", "m", "f"].map String.toList).contains
    (lowered value)

/-- `isvalid` of `Data::Hidden` -/
def hiddenIsvalid (value : Str) : Bool :=
  (["yes", "ye", "y", "no", "n", ""].map String.toList).contains (lowered value)

/-- `isvalid` of each class, by its key; those of `Data::Email` and `Data::Login` ask other programs -/
def isvalidOf (email login : Str → Verdict) (key : Str) : Str → Verdict :=
  if key = "email".toList then email
  else if key = "login".toList then login
  else if key = "gender".toList then fun value => ofBool (genderIsvalid value)
  else if key = "hidden".toList then fun value => ofBool (hiddenIsvalid value)
  else fun _ => .valid

/-! ## The confirmation -/

def DONE : Str := "done".toList

def QUOTED : Str := "\x27done\x27".toList

def QUIT : Str := "quit".toList

/-- what counts as a yes when `confirm_and_exit` asks -/
def yes (l : Str) : Bool := (["y", "ye", "yes"].map String.toList).contains (l.map Char.toLower)

/-- `confirm_and_exit` of `Exit`; the end of file is a yes -/
def confirm_and_exit (lines : List Str) : Outcome :=
  if yes ((readline lines).1.getD "yes".toList) then .exited else .returned (readline lines).2

def get_choice_or_interrupt (lines : List Str) : Str × List Str := ((line lines).1.map Char.toLower, (line lines).2)

/-- what is done about a choice; all others only print something -/
def act (tests : Str → Str → Verdict) (fuel : ℕ) (choice : Str) (lines : List Str) : Outcome :=
  match accessor tests choice with
  | some datum => datum.get fuel lines
  | none => if choice = QUIT then confirm_and_exit lines else .returned lines

/-- `confirm_or_exit`: the choices that have been made, and how it ends -/
def confirm_or_exit (tests : Str → Str → Verdict) : ℕ → List Str → List Str × Outcome
  | 0, _ => ([], .unfinished)
  | fuel + 1, lines =>
    let (choice, lines) := get_choice_or_interrupt lines
    match act tests fuel choice lines with
    | .returned lines =>
      if choice = DONE then ([choice], .returned lines)
      else
        let (choices, outcome) := confirm_or_exit tests fuel lines
        (choice :: choices, outcome)
    | outcome => ([choice], outcome)

/-! ## `get` -/

/-- the lines left behind `k` answers -/
def Datum.left (d : Datum) (lines : List Str) (k : ℕ) : List Str := (fun lines => (d.getvalue lines).2)^[k] lines

/-- the answer behind the first `k` -/
def Datum.answer (d : Datum) (lines : List Str) (k : ℕ) : Str := (d.getvalue (d.left lines k)).1

/-- what is said about it -/
def Datum.verdict (d : Datum) (lines : List Str) (k : ℕ) : Verdict := d.isvalid (d.answer lines k)

/-- how `get` ends after an answer that is not refused -/
def conclude (lines : List Str) : Verdict → Outcome
  | .valid => .returned lines
  | .refused => .unfinished
  | .dies text => .died text

section Get

variable (d : Datum)

/-- **What `get` comes to**: it ends with the first answer that is not refused, if it may take so many turns. -/
theorem get_first {lines : List Str} {k : ℕ} (hrefused : ∀ i < k, d.verdict lines i = .refused)
    (hlast : d.verdict lines k ≠ .refused) (fuel : ℕ) :
    d.get fuel lines = if k < fuel then conclude (d.left lines (k + 1)) (d.verdict lines k) else .unfinished := by
  induction k generalizing lines fuel with
  | zero =>
    cases fuel with
    | zero => rfl
    | succ fuel =>
      rw [if_pos (Nat.succ_pos fuel), Datum.get, Datum.get_or_interrupt]
      change d.isvalid (d.getvalue lines).1 ≠ .refused at hlast
      change _ = conclude (d.getvalue lines).2 (d.isvalid (d.getvalue lines).1)
      cases hverdict : d.isvalid (d.getvalue lines).1 with
      | valid => rfl
      | refused => exact absurd hverdict hlast
      | dies text => rfl
  | succ k ih =>
    cases fuel with
    | zero => rfl
    | succ fuel =>
      have hfirst : d.isvalid (d.getvalue lines).1 = .refused := hrefused 0 (Nat.succ_pos k)
      have hrest : ∀ i < k, d.verdict (d.getvalue lines).2 i = .refused :=
        fun i hi => hrefused (i + 1) (Nat.succ_lt_succ hi)
      rw [Datum.get, Datum.get_or_interrupt, hfirst]
      simp only [Nat.succ_lt_succ_iff]
      exact ih hrest hlast fuel

/-- as long as all answers are refused `get` goes on -/
theorem get_unfinished {lines : List Str} {fuel : ℕ} (h : ∀ i < fuel, d.verdict lines i = .refused) :
    d.get fuel lines = .unfinished := by
  induction fuel generalizing lines with
  | zero => rfl
  | succ fuel ih =>
    have hfirst : d.isvalid (d.getvalue lines).1 = .refused := h 0 (Nat.succ_pos fuel)
    rw [Datum.get, Datum.get_or_interrupt, hfirst]
    exact ih fun i hi => h (i + 1) (Nat.succ_lt_succ hi)

/-- `get` has not ended, or has found an answer that is not refused -/
theorem get_cases (fuel : ℕ) (lines : List Str) : d.get fuel lines = .unfinished ∨
    ∃ k, (∀ i < k, d.verdict lines i = .refused) ∧ d.verdict lines k ≠ .refused ∧ k < fuel := by
  by_cases h : ∃ k, d.verdict lines k ≠ .refused
  · by_cases hfuel : Nat.find h < fuel
    · exact Or.inr ⟨Nat.find h, fun i hi => not_not.1 (Nat.find_min h hi), Nat.find_spec h, hfuel⟩
    · apply Or.inl
      rw [get_first d (fun i hi => not_not.1 (Nat.find_min h hi)) (Nat.find_spec h), if_neg hfuel]
  · exact Or.inl (get_unfinished d fun i _ => not_not.1 (not_exists.1 h i))

/-- every kind of answer takes a line away, but for the shell, which takes none and is always the same -/
theorem getvalue_left (lines : List Str) :
    (d.getvalue lines).2 = lines ∧ d.reading = .resh ∨ (d.getvalue lines).2.length ≤ lines.length - 1 := by
  have hreadline : (readline lines).2.length ≤ lines.length - 1 := by
    cases lines with
    | nil => exact le_rfl
    | cons l lines => exact le_rfl
  have hloop : ∀ ls : List Str, (paragraphLoop ls).2.length ≤ ls.length - 1 := by
    intro ls
    induction ls with
    | nil => exact le_rfl
    | cons l ls ih =>
      rw [paragraphLoop]
      split_ifs
      · exact le_rfl
      · exact ih.trans (by simp)
  rw [Datum.getvalue]
  cases hreading : d.reading with
  | line => exact Or.inr hreadline
  | name => exact Or.inr hreadline
  | paragraph => exact Or.inr (hloop lines)
  | resh => exact Or.inl ⟨rfl, rfl⟩

/-- as many answers as there are lines take them all -/
theorem left_eq_nil (h : d.reading ≠ .resh) {lines : List Str} {k : ℕ} (hk : lines.length ≤ k) :
    d.left lines k = [] := by
  have hlen : ∀ j ls, (d.left ls j).length ≤ ls.length - j := by
    intro j
    induction j with
    | zero => exact fun ls => le_rfl
    | succ j ih =>
      intro ls
      have hleft := (getvalue_left d ls).resolve_left fun hresh => h hresh.2
      have hj : (d.left ls (j + 1)).length ≤ (d.getvalue ls).2.length - j := ih _
      omega
  have hnil := hlen k lines
  exact List.length_eq_zero_iff.1 (by omega)

/-- behind the last line all answers are the same -/
theorem answer_min (lines : List Str) (k : ℕ) : d.answer lines k = d.answer lines (min k lines.length) := by
  by_cases hresh : d.reading = .resh
  · have hall : ∀ ls, (d.getvalue ls).1 = RESH := fun ls => by rw [Datum.getvalue, hresh]
    rw [Datum.answer, Datum.answer, hall, hall]
  · rcases le_total k lines.length with hk | hk
    · rw [min_eq_left hk]
    · rw [min_eq_right hk, Datum.answer, Datum.answer, left_eq_nil d hresh hk, left_eq_nil d hresh le_rfl]

/-- the line at the end of file is empty -/
theorem answer_length (h : d.reading = .line) (lines : List Str) : d.answer lines lines.length = [] := by
  have hresh : d.reading ≠ .resh := by
    rw [h]
    exact Reading.noConfusion
  rw [Datum.answer, left_eq_nil d hresh le_rfl, Datum.getvalue, h]
  rfl

/-- **When `get` ends**: exactly if one of the answers on the lines, or the one at the end of file, is not refused. -/
theorem get_ends_iff (lines : List Str) : (∃ fuel, d.get fuel lines ≠ .unfinished) ↔
    ∃ k ≤ lines.length, d.isvalid (d.answer lines k) ≠ .refused := by
  constructor
  · intro h
    obtain ⟨fuel, hfuel⟩ := h
    obtain ⟨k, -, hk, -⟩ := (get_cases d fuel lines).resolve_left hfuel
    refine ⟨min k lines.length, min_le_right _ _, ?_⟩
    rw [← answer_min]
    exact hk
  · intro h
    obtain ⟨k, -, hk⟩ := h
    have h : ∃ k, d.verdict lines k ≠ .refused := ⟨k, hk⟩
    refine ⟨Nat.find h + 1, ?_⟩
    rw [get_first d (fun i hi => not_not.1 (Nat.find_min h hi)) (Nat.find_spec h), if_pos (Nat.lt_succ_self _)]
    cases hverdict : d.verdict lines (Nat.find h) with
    | valid => exact Outcome.noConfusion
    | refused => exact absurd hverdict (Nat.find_spec h)
    | dies text => exact Outcome.noConfusion

end Get

/-- **Every datum but the address and the login is got**, whatever is typed. -/
theorem others_end {email login : Str → Verdict} {key : Str} {d : Datum}
    (h : accessor (isvalidOf email login) key = some d) (hemail : key ≠ "email".toList)
    (hlogin : key ≠ "login".toList) (lines : List Str) : ∃ fuel, d.get fuel lines ≠ .unfinished := by
  obtain ⟨k, hk, rfl⟩ := Option.map_eq_some_iff.1 h
  rw [get_ends_iff]
  by_cases hgender : key = "gender".toList
  · subst hgender
    cases hk
    refine ⟨lines.length, le_rfl, ?_⟩
    rw [answer_length _ rfl]
    exact Verdict.noConfusion
  · by_cases hhidden : key = "hidden".toList
    · subst hhidden
      cases hk
      refine ⟨lines.length, le_rfl, ?_⟩
      rw [answer_length _ rfl]
      exact Verdict.noConfusion
    · refine ⟨0, lines.length.zero_le, ?_⟩
      dsimp only
      rw [isvalidOf, if_neg hemail, if_neg hlogin, if_neg hgender, if_neg hhidden]
      exact Verdict.noConfusion

/-! ## The prompt -/

/-- the choice that a line is -/
def choiceOf (l : Str) : Str := (trim (some l)).map Char.toLower

/-- the choices at which `confirm_or_exit` is to return -/
def IsDone (choice : Str) : Prop := choice = DONE ∨ choice = QUOTED

/-- at each choice that has been made, the loop has returned there or it has not -/
def Exact (run : List Str × Outcome) : Prop :=
  ∀ before choice after, run.1 = before ++ choice :: after →
    (IsDone choice ↔ after = [] ∧ ∃ lines, run.2 = .returned lines)

/-- the loop comes to an end, and returns at `done` and `'done'` and nothing else -/
structure Behaves (tests : Str → Str → Verdict) (lines : List Str) : Prop where
  ends : ∃ fuel, (confirm_or_exit tests fuel lines).2 ≠ .unfinished
  exact : ∀ fuel, Exact (confirm_or_exit tests fuel lines)

/-- lines that lead out of the prompt, with no `'done'` in quotes among the choices: at a datum, the answers up to the
first that is not refused belong to it; at `quit`, the next line -/
inductive Leads (tests : Str → Str → Verdict) : List Str → Prop
  | done {l : Str} {lines : List Str} (h : choiceOf l = DONE) : Leads tests (l :: lines)
  | leave {l l' : Str} {lines : List Str} (h : choiceOf l = QUIT) (hyes : yes l' = true) :
      Leads tests (l :: l' :: lines)
  | hangup {l : Str} (h : choiceOf l = QUIT) : Leads tests [l]
  | stay {l l' : Str} {lines : List Str} (h : choiceOf l = QUIT) (hno : yes l' = false) (hleads : Leads tests lines) :
      Leads tests (l :: l' :: lines)
  | dies {l text : Str} {lines : List Str} {d : Datum} {k : ℕ} (h : accessor tests (choiceOf l) = some d)
      (hrefused : ∀ i < k, d.verdict lines i = .refused) (hdies : d.verdict lines k = .dies text) :
      Leads tests (l :: lines)
  | change {l : Str} {lines : List Str} {d : Datum} {k : ℕ} (h : accessor tests (choiceOf l) = some d)
      (hrefused : ∀ i < k, d.verdict lines i = .refused) (hvalid : d.verdict lines k = .valid)
      (hleads : Leads tests (d.left lines (k + 1))) : Leads tests (l :: lines)
  | other {l : Str} {lines : List Str} (h : accessor tests (choiceOf l) = none) (hquit : choiceOf l ≠ QUIT)
      (hdone : ¬IsDone (choiceOf l)) (hleads : Leads tests lines) : Leads tests (l :: lines)

section Confirmation

variable {tests : Str → Str → Verdict}

theorem accessor_nil : accessor tests [] = none := rfl

theorem accessor_done : accessor tests DONE = none := rfl

theorem accessor_quoted : accessor tests QUOTED = none := rfl

theorem accessor_quit : accessor tests QUIT = none := rfl

/-- a choice with a datum is no `done` -/
theorem not_isDone_of_accessor {choice : Str} {d : Datum} (h : accessor tests choice = some d) : ¬IsDone choice := by
  intro hdone
  rcases hdone with rfl | rfl
  · rw [accessor_done] at h
    cases h
  · rw [accessor_quoted] at h
    cases h

theorem get_choice_cons (l : Str) (lines : List Str) :
    get_choice_or_interrupt (l :: lines) = (choiceOf l, lines) := rfl

/-- a turn whose action ends the loop -/
theorem turn_ended {fuel : ℕ} {lines rest : List Str} {choice : Str} {outcome : Outcome}
    (hchoice : get_choice_or_interrupt lines = (choice, rest)) (hact : act tests fuel choice rest = outcome)
    (hout : ∀ left, outcome ≠ .returned left) : confirm_or_exit tests (fuel + 1) lines = ([choice], outcome) := by
  rw [confirm_or_exit, hchoice]
  dsimp only
  rw [hact]
  cases outcome with
  | returned left => exact absurd rfl (hout left)
  | exited => rfl
  | died text => rfl
  | unfinished => rfl

/-- a turn whose action returns -/
theorem turn_returned {fuel : ℕ} {lines rest left : List Str} {choice : Str}
    (hchoice : get_choice_or_interrupt lines = (choice, rest)) (hact : act tests fuel choice rest = .returned left) :
    confirm_or_exit tests (fuel + 1) lines =
      if choice = DONE then ([choice], .returned left)
      else (choice :: (confirm_or_exit tests fuel left).1, (confirm_or_exit tests fuel left).2) := by
  rw [confirm_or_exit, hchoice]
  dsimp only
  rw [hact]

/-- where the loop has returned a choice has been made -/
theorem choices_ne_nil {fuel : ℕ} {lines left : List Str} (h : (confirm_or_exit tests fuel lines).2 = .returned left) :
    (confirm_or_exit tests fuel lines).1 ≠ [] := by
  cases fuel with
  | zero => cases h
  | succ fuel =>
    rcases hchoice : get_choice_or_interrupt lines with ⟨choice, rest⟩
    by_cases hreturned : ∃ left, act tests fuel choice rest = .returned left
    · obtain ⟨left', hleft⟩ := hreturned
      rw [turn_returned hchoice hleft]
      split_ifs
      · exact List.cons_ne_nil _ _
      · exact List.cons_ne_nil _ _
    · rw [turn_ended hchoice rfl fun left' hleft => hreturned ⟨left', hleft⟩]
      exact List.cons_ne_nil _ _

theorem exact_single {choice : Str} {outcome : Outcome} (h : IsDone choice ↔ ∃ lines, outcome = .returned lines) :
    Exact ([choice], outcome) := by
  intro before choice' after heq
  cases before with
  | nil =>
    obtain ⟨rfl, rfl⟩ := List.cons.inj heq
    rw [h]
    exact (and_iff_right rfl).symm
  | cons c before =>
    obtain ⟨-, htail⟩ := List.cons.inj heq
    exact absurd htail.symm (by simp)

/-- a choice at which the loop goes on -/
theorem exact_cons {choice : Str} (h : ¬IsDone choice) {fuel : ℕ} {lines : List Str} :
    Exact (choice :: (confirm_or_exit tests fuel lines).1, (confirm_or_exit tests fuel lines).2) ↔
      Exact (confirm_or_exit tests fuel lines) := by
  constructor
  · intro hexact before c after heq
    exact hexact (choice :: before) c after (congrArg (choice :: ·) heq)
  · intro hexact before c after heq
    cases before with
    | nil =>
      obtain ⟨rfl, rfl⟩ := List.cons.inj heq
      refine iff_of_false h fun hend => ?_
      obtain ⟨hnil, left, hleft⟩ := hend
      exact choices_ne_nil hleft hnil
    | cons x before =>
      obtain ⟨-, htail⟩ := List.cons.inj heq
      exact hexact before c after htail

/-- the loop has ended with enough turns, and is exact with any number -/
def Settles (tests : Str → Str → Verdict) (lines : List Str) : Prop :=
  (∃ enough, ∀ fuel, enough < fuel → (confirm_or_exit tests fuel lines).2 ≠ .unfinished) ∧
    ∀ fuel, Exact (confirm_or_exit tests fuel lines)

theorem exact_zero (lines : List Str) : Exact (confirm_or_exit tests 0 lines) := by
  intro before c after heq
  exact absurd heq.symm (by simp [confirm_or_exit])

/-- a choice whose action ends the loop, once it has `k` turns -/
theorem settles_ended {l : Str} {lines : List Str} {outcome : Outcome} (k : ℕ)
    (hact : ∀ fuel, act tests fuel (choiceOf l) lines = if k ≤ fuel then outcome else .unfinished)
    (hchoice : ¬IsDone (choiceOf l)) (hout : ∀ left, outcome ≠ .returned left) (hended : outcome ≠ .unfinished) :
    Settles tests (l :: lines) := by
  have hturn : ∀ fuel, confirm_or_exit tests (fuel + 1) (l :: lines) =
      ([choiceOf l], if k ≤ fuel then outcome else .unfinished) := by
    intro fuel
    refine turn_ended (get_choice_cons l lines) (hact fuel) fun left => ?_
    split_ifs
    · exact hout left
    · exact Outcome.noConfusion
  refine ⟨⟨k + 1, fun fuel hfuel => ?_⟩, fun fuel => ?_⟩
  · obtain ⟨fuel, rfl⟩ : ∃ n, fuel = n + 1 := ⟨fuel - 1, by omega⟩
    rw [hturn, if_pos (by omega)]
    exact hended
  · cases fuel with
    | zero => exact exact_zero _
    | succ fuel =>
      rw [hturn]
      refine exact_single (iff_of_false hchoice fun h => ?_)
      obtain ⟨left, hleft⟩ := h
      split_ifs at hleft
      exact hout left hleft

/-- a choice whose action returns, once it has `k` turns -/
theorem Settles.cons {l : Str} {lines left : List Str} (h : Settles tests left) (k : ℕ)
    (hact : ∀ fuel, act tests fuel (choiceOf l) lines = if k ≤ fuel then .returned left else .unfinished)
    (hchoice : ¬IsDone (choiceOf l)) : Settles tests (l :: lines) := by
  have hturn : ∀ fuel, k ≤ fuel → confirm_or_exit tests (fuel + 1) (l :: lines) =
      (choiceOf l :: (confirm_or_exit tests fuel left).1, (confirm_or_exit tests fuel left).2) := by
    intro fuel hk
    have hreturned := hact fuel
    rw [if_pos hk] at hreturned
    refine (turn_returned (get_choice_cons l lines) hreturned).trans (if_neg fun hdone => hchoice (Or.inl hdone))
  obtain ⟨⟨enough, hends⟩, hexact⟩ := h
  refine ⟨⟨max enough k + 1, fun fuel hfuel => ?_⟩, fun fuel => ?_⟩
  · obtain ⟨fuel, rfl⟩ : ∃ n, fuel = n + 1 := ⟨fuel - 1, by omega⟩
    rw [hturn fuel (by omega)]
    exact hends fuel (by omega)
  · cases fuel with
    | zero => exact exact_zero _
    | succ fuel =>
      by_cases hk : k ≤ fuel
      · rw [hturn fuel hk]
        exact (exact_cons hchoice).2 (hexact fuel)
      · have hunfinished := hact fuel
        rw [if_neg hk] at hunfinished
        have hrun : confirm_or_exit tests (fuel + 1) (l :: lines) = ([choiceOf l], .unfinished) :=
          turn_ended (get_choice_cons l lines) hunfinished fun _ => Outcome.noConfusion
        rw [hrun]
        exact exact_single (iff_of_false hchoice fun h => Outcome.noConfusion h.choose_spec)

theorem not_isDone_quit : ¬IsDone QUIT := by
  rw [IsDone]
  decide

theorem act_quit {fuel : ℕ} {choice : Str} (h : choice = QUIT) (lines : List Str) :
    act tests fuel choice lines = confirm_and_exit lines := by
  rw [h, act, accessor_quit]
  exact if_pos rfl

theorem act_other (fuel : ℕ) {choice : Str} (hkey : accessor tests choice = none) (hquit : choice ≠ QUIT)
    (lines : List Str) : act tests fuel choice lines = .returned lines := by
  rw [act, hkey]
  exact if_neg hquit

theorem act_datum (fuel : ℕ) {k : ℕ} {choice : Str} {d : Datum} {lines : List Str}
    (hkey : accessor tests choice = some d) (hrefused : ∀ i < k, d.verdict lines i = .refused)
    (hlast : d.verdict lines k ≠ .refused) :
    act tests fuel choice lines =
      if k < fuel then conclude (d.left lines (k + 1)) (d.verdict lines k) else .unfinished := by
  rw [act, hkey]
  exact get_first d hrefused hlast fuel

theorem exited_ne_unfinished : Outcome.exited ≠ .unfinished := Outcome.noConfusion

theorem died_ne_unfinished (text : Str) : Outcome.died text ≠ .unfinished := Outcome.noConfusion

theorem settles_of_leads {lines : List Str} (h : Leads tests lines) : Settles tests lines := by
  induction h with
  | @done l lines h =>
    have hturn : ∀ fuel, confirm_or_exit tests (fuel + 1) (l :: lines) = ([choiceOf l], .returned lines) := by
      intro fuel
      have hact : act tests fuel (choiceOf l) lines = .returned lines := by
        rw [h]
        exact act_other fuel accessor_done (by decide) lines
      exact (turn_returned (get_choice_cons l lines) hact).trans (if_pos h)
    refine ⟨⟨0, fun fuel hfuel => ?_⟩, fun fuel => ?_⟩
    · obtain ⟨fuel, rfl⟩ : ∃ n, fuel = n + 1 := ⟨fuel - 1, by omega⟩
      rw [hturn]
      exact Outcome.noConfusion
    · cases fuel with
      | zero => exact exact_zero _
      | succ fuel =>
        rw [hturn]
        exact exact_single (iff_of_true (Or.inl h) ⟨lines, rfl⟩)
  | @leave l l' lines h hyes =>
    refine settles_ended 0 (fun fuel => ?_) (h ▸ not_isDone_quit) (fun _ => Outcome.noConfusion) exited_ne_unfinished
    rw [act_quit h, if_pos fuel.zero_le]
    exact if_pos hyes
  | hangup h =>
    refine settles_ended 0 (fun fuel => ?_) (h ▸ not_isDone_quit) (fun _ => Outcome.noConfusion) exited_ne_unfinished
    rw [act_quit h, if_pos fuel.zero_le]
    rfl
  | stay h hno _ ih =>
    refine ih.cons 0 (fun fuel => ?_) (h ▸ not_isDone_quit)
    rw [act_quit h, if_pos fuel.zero_le]
    exact if_neg (by rw [readline, Option.getD_some, hno]; exact Bool.false_ne_true)
  | @dies l text lines d k h hrefused hdies =>
    refine settles_ended (k + 1) (fun fuel => ?_) (not_isDone_of_accessor h) (fun left => ?_) (died_ne_unfinished text)
    · rw [act_datum fuel h hrefused (by rw [hdies]; exact Verdict.noConfusion), hdies]
      rfl
    · exact Outcome.noConfusion
  | @change l lines d k h hrefused hvalid _ ih =>
    refine ih.cons (k + 1) (fun fuel => ?_) (not_isDone_of_accessor h)
    rw [act_datum fuel h hrefused (by rw [hvalid]; exact Verdict.noConfusion), hvalid]
    rfl
  | other h hquit hdone _ ih =>
    refine ih.cons 0 (fun fuel => ?_) hdone
    rw [act_other fuel h hquit, if_pos fuel.zero_le]

/-- a run that has ended, and is exact, has been led out of the prompt by its lines -/
theorem leads_of_exact {fuel : ℕ} {lines : List Str} (hended : (confirm_or_exit tests fuel lines).2 ≠ .unfinished)
    (hexact : Exact (confirm_or_exit tests fuel lines)) : Leads tests lines := by
  induction fuel generalizing lines with
  | zero => exact absurd rfl hended
  | succ fuel ih =>
    -- where the action returns and the loop goes on
    have hcons : ∀ (choice : Str) (rest left : List Str), get_choice_or_interrupt lines = (choice, rest) →
        act tests fuel choice rest = .returned left → ¬IsDone choice → Leads tests left := by
      intro choice rest left hchoice hact hdone
      have hrun := (turn_returned hchoice hact).trans (if_neg fun h => hdone (Or.inl h))
      rw [hrun] at hended hexact
      exact ih hended ((exact_cons hdone).1 hexact)
    cases lines with
    | nil => exact hcons [] [] [] rfl (act_other fuel accessor_nil (by decide) []) (by rw [IsDone]; decide)
    | cons l lines =>
      have hchoice := get_choice_cons l lines
      cases hkey : accessor tests (choiceOf l) with
      | some d =>
        have hdone := not_isDone_of_accessor hkey
        rcases get_cases d fuel lines with hunfinished | ⟨k, hrefused, hlast, hk⟩
        · have hact : act tests fuel (choiceOf l) lines = .unfinished := by
            rw [act, hkey]
            exact hunfinished
          rw [turn_ended hchoice hact fun _ => Outcome.noConfusion] at hended
          exact absurd rfl hended
        · have hact := act_datum fuel hkey hrefused hlast
          rw [if_pos hk] at hact
          cases hverdict : d.verdict lines k with
          | refused => exact absurd hverdict hlast
          | dies text => exact .dies hkey hrefused hverdict
          | valid =>
            rw [hverdict] at hact
            exact .change hkey hrefused hverdict (hcons _ _ _ hchoice hact hdone)
      | none =>
        by_cases hquit : choiceOf l = QUIT
        · cases lines with
          | nil => exact .hangup hquit
          | cons l' lines =>
            cases hyes : yes l' with
            | true => exact .leave hquit hyes
            | false =>
              have hact : act tests fuel (choiceOf l) (l' :: lines) = .returned lines := by
                rw [act_quit hquit]
                exact if_neg (by rw [readline, Option.getD_some, hyes]; exact Bool.false_ne_true)
              exact .stay hquit hyes (hcons _ _ _ hchoice hact (hquit ▸ not_isDone_quit))
        · have hact := act_other fuel hkey hquit lines
          by_cases hdone : choiceOf l = DONE
          · exact .done hdone
          · by_cases hquoted : choiceOf l = QUOTED
            · -- the loop goes on at `'done'`
              rw [(turn_returned hchoice hact).trans (if_neg hdone)] at hexact
              obtain ⟨hnil, left, hleft⟩ := (hexact [] _ _ rfl).1 (Or.inr hquoted)
              exact absurd hnil (choices_ne_nil hleft)
            · have hother : ¬IsDone (choiceOf l) := fun h => h.elim hdone hquoted
              exact .other hkey hquit hother (hcons _ _ _ hchoice hact hother)

/-- **When `confirm_or_exit` does what it is for**: exactly if the lines lead out of it before they end, with no
`'done'` in quotes among the choices. -/
theorem behaves_iff (tests : Str → Str → Verdict) (lines : List Str) : Behaves tests lines ↔ Leads tests lines := by
  constructor
  · intro h
    obtain ⟨fuel, hfuel⟩ := h.ends
    exact leads_of_exact hfuel (h.exact fuel)
  · intro h
    obtain ⟨⟨enough, hends⟩, hexact⟩ := settles_of_leads h
    exact ⟨⟨enough + 1, hends _ enough.lt_succ_self⟩, hexact⟩

end Confirmation

/-- **When the dialogues end.** For any tests and any lines: `get` ends exactly if one of the answers on the lines, or
the one at the end of file, is not refused; and `confirm_or_exit` ends, and returns at `done` and `'done'` and
nothing else, exactly if the lines lead out of it with no `'done'` in quotes. -/
theorem dialogues_end_iff (tests : Str → Str → Verdict) (lines : List Str) :
    (∀ d : Datum, (∃ fuel, d.get fuel lines ≠ .unfinished) ↔
      ∃ k ≤ lines.length, d.isvalid (d.answer lines k) ≠ .refused) ∧
    (Behaves tests lines ↔ Leads tests lines) :=
  ⟨fun d => get_ends_iff d lines, behaves_iff tests lines⟩

/-- tests of a site that only asks whether there is an `@` in an address -/
def plainTests : Str → Str → Verdict :=
  isvalidOf (fun value => ofBool (value.contains '@')) fun value => ofBool (isvalid emptySite value)

/-- **At the end of file** the address is asked for again and again, and so is the choice; and `done` in quotes is
passed over, whatever comes next. -/
theorem never_ends : (∀ d ∈ accessor plainTests "email".toList, ∀ fuel, d.get fuel [] = .unfinished) ∧
    ¬Behaves plainTests [] ∧ ¬Behaves plainTests [QUOTED, QUIT] := by
  refine ⟨?_, ?_, ?_⟩
  · intro d hd fuel
    obtain rfl : d = ⟨.line, plainTests "email".toList⟩ := by
      rw [show accessor plainTests "email".toList = some ⟨.line, plainTests "email".toList⟩ from rfl] at hd
      exact (Option.some.inj hd).symm
    refine get_unfinished _ fun i _ => ?_
    rw [Datum.verdict, answer_min, List.length_nil, Nat.min_zero]
    decide
  · rw [behaves_iff]
    intro h
    cases h
  · rw [behaves_iff]
    intro h
    have hquoted : choiceOf QUOTED = QUOTED := by decide
    cases h with
    | done h => exact absurd h (by decide)
    | leave h _ => exact absurd h (by decide)
    | stay h _ _ => exact absurd h (by decide)
    | dies h _ _ =>
      rw [hquoted, accessor_quoted] at h
      cases h
    | change h _ _ _ =>
      rw [hquoted, accessor_quoted] at h
      cases h
    | other _ _ hdone _ => exact hdone (Or.inr hquoted)

/-! ## The prompt of a session -/

/-- what a loop that has ended raises -/
def Outcome.raised : Outcome → Option Err
  | .returned _ => none
  | .exited => some .exit
  | .died text => some (.die text)
  | .unfinished => none

section Session

variable {tests : Str → Str → Verdict}

/-- `get` itself does not leave the program -/
theorem get_ne_exited (d : Datum) (fuel : ℕ) (lines : List Str) : d.get fuel lines ≠ .exited := by
  rcases get_cases d fuel lines with h | ⟨k, hrefused, hlast, hk⟩
  · rw [h]
    exact Outcome.noConfusion
  · rw [get_first d hrefused hlast, if_pos hk]
    cases d.verdict lines k with
    | valid => exact Outcome.noConfusion
    | refused => exact Outcome.noConfusion
    | dies text => exact Outcome.noConfusion

/-- an action that leaves the program is that of `quit` -/
theorem act_exited {fuel : ℕ} {choice : Str} {lines : List Str} (h : act tests fuel choice lines = .exited) :
    accessor tests choice = none ∧ choice = QUIT := by
  rw [act] at h
  cases hkey : accessor tests choice with
  | some d =>
    rw [hkey] at h
    exact absurd h (get_ne_exited d fuel lines)
  | none =>
    rw [hkey] at h
    refine ⟨rfl, not_not.1 fun hquit => ?_⟩
    dsimp only at h
    rw [if_neg hquit] at h
    cases h

/-- an action that dies is that of a datum -/
theorem act_died {fuel : ℕ} {choice text : Str} {lines : List Str} (h : act tests fuel choice lines = .died text) :
    (accessor tests choice).isSome = true := by
  rw [act] at h
  cases hkey : accessor tests choice with
  | some d => rfl
  | none =>
    rw [hkey, confirm_and_exit] at h
    dsimp only at h
    split_ifs at h

/-- the data after a choice -/
def userAfter (user : User) (choice datum : Str) : User :=
  if (user choice).isSome then Function.update user choice (some datum) else user

theorem userAfter_isSome (user : User) (choice datum key : Str) :
    (userAfter user choice datum key).isSome = (user key).isSome := by
  rw [userAfter]
  split_ifs with hknown
  · by_cases hkey : key = choice
    · rw [hkey, Function.update_self, hknown, Option.isSome_some]
    · rw [Function.update_of_ne hkey]
  · rfl

/-- a line at the prompt of the session -/
theorem confirm_input (user : User) (datum : Str) (leaves : Bool) (dies : Option Err) (inputs : List Input)
    {l choice : Str} (h : (trim (some l)).map Char.toLower = choice) :
    (Pnewuser.confirm_or_exit (⟨false, l, datum, leaves, dies⟩ :: inputs) user).1 =
      if (user choice).isSome = false ∧ choice = QUIT ∧ leaves = true then some .exit
      else if choice = DONE then none
      else dies.elim (Pnewuser.confirm_or_exit inputs (userAfter user choice datum)).1 some := by
  rw [Pnewuser.confirm_or_exit, h]
  dsimp only
  rw [if_neg Bool.false_ne_true]
  change (if (!(user choice).isSome && decide (choice = QUIT) && leaves) = true then _
    else if choice = DONE then _ else _ : Option Err × User).1 = _
  have hcond : (!(user choice).isSome && decide (choice = QUIT) && leaves) = true ↔
      (user choice).isSome = false ∧ choice = QUIT ∧ leaves = true := by
    simp [and_assoc]
  by_cases hquit : (user choice).isSome = false ∧ choice = QUIT ∧ leaves = true
  · rw [if_pos (hcond.2 hquit), if_pos hquit]
  · rw [if_neg (mt hcond.1 hquit), if_neg hquit]
    by_cases hdone : choice = DONE
    · rw [if_pos hdone, if_pos hdone]
    · rw [if_neg hdone, if_neg hdone]
      cases dies with
      | none => rfl
      | some e => rfl

/-- **Every dialogue that ends** is one that the session has inputs for. -/
theorem raised_of_dialogue {fuel : ℕ} {lines : List Str} {user : User}
    (hkeys : ∀ key, (user key).isSome = (accessor tests key).isSome)
    (hended : (confirm_or_exit tests fuel lines).2 ≠ .unfinished) :
    ∃ inputs, (Pnewuser.confirm_or_exit inputs user).1 = (confirm_or_exit tests fuel lines).2.raised := by
  induction fuel generalizing lines user with
  | zero => exact absurd rfl hended
  | succ fuel ih =>
    set l := (readline lines).1.getD []
    have hread : choiceOf l = (get_choice_or_interrupt lines).1 := by
      cases lines with
      | nil => rfl
      | cons l lines => rfl
    rcases hchoice : get_choice_or_interrupt lines with ⟨choice, rest⟩
    rw [hchoice] at hread
    have htyped : (trim (some l)).map Char.toLower = choice := hread
    cases hact : act tests fuel choice rest with
    | unfinished =>
      rw [turn_ended hchoice hact fun _ => Outcome.noConfusion] at hended
      exact absurd rfl hended
    | exited =>
      obtain ⟨hkey, hquit⟩ := act_exited hact
      rw [turn_ended hchoice hact fun _ => Outcome.noConfusion]
      have hnone : (user choice).isSome = false := by rw [hkeys, hkey, Option.isSome_none]
      refine ⟨[⟨false, l, [], true, none⟩], ?_⟩
      rw [confirm_input user [] true none [] htyped, if_pos ⟨hnone, hquit, rfl⟩]
      rfl
    | died text =>
      have hkey := act_died hact
      rw [turn_ended hchoice hact fun _ => Outcome.noConfusion]
      have hdone : choice ≠ DONE := by
        intro h
        rw [h, accessor_done] at hkey
        cases hkey
      refine ⟨[⟨false, l, [], false, some (.die text)⟩], ?_⟩
      rw [confirm_input user [] false _ [] htyped, if_neg fun h => Bool.false_ne_true h.2.2, if_neg hdone]
      rfl
    | returned left =>
      rw [turn_returned hchoice hact] at hended ⊢
      by_cases hdone : choice = DONE
      · rw [if_pos hdone]
        refine ⟨[⟨false, l, [], false, none⟩], ?_⟩
        rw [confirm_input user [] false none [] htyped, if_neg fun h => Bool.false_ne_true h.2.2, if_pos hdone]
        rfl
      · rw [if_neg hdone] at hended ⊢
        have hkeys' : ∀ key, ((userAfter user choice []) key).isSome = (accessor tests key).isSome := by
          intro key
          rw [userAfter_isSome, hkeys]
        obtain ⟨inputs, hinputs⟩ := ih hkeys' hended
        refine ⟨⟨false, l, [], false, none⟩ :: inputs, ?_⟩
        rw [confirm_input user [] false none inputs htyped, if_neg fun h => Bool.false_ne_true h.2.2, if_neg hdone]
        exact hinputs

end Session

end MNetSoft.Pnewuser.Dialogue
