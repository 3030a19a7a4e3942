/-
Whether the polls are open: `polls_open`, the same in `vote.c` and `board.c`. A file that cannot be opened is `none`;
`s` and `e` are what happens to be in the variables of that name, and `now` is the time. The messages are left out.

`fscanf` returns 1 for a number, 0 for something else and -1 at the end of the file. Only 0 is looked for, so after a
file of white space, or an empty one, its variable is used as it is.
- `fscanf_cases`, `polls_open_iff`: which numbers are used.
- `polls_right_iff`: when the answer is right.
- `polls_empty`: two empty files.
-/
import Mathlib.Tactic
import MNetSoft.Core.Numerals

namespace MNetSoft.Vote

open MNetSoft.CString MNetSoft.Numerals

/-! ## Model -/

/-- `fscanf(fp, "%ld", &v)`: what it returns, and the variable -/
def fscanf_ld (text : Str) (v : ℤ) : ℤ × ℤ :=
  if skipSpace text = [] then (-1, v)
  else
    let (neg, t) := scanSign (skipSpace text)
    if StartsWithDigit 10 t then (1, toLong neg (scanDigits 10 0 t).1) else (0, v)

def polls_open (start stop : Option Str) (s e now : ℤ) : ℤ :=
  match start with
  | none => 0
  | some start =>
    match stop with
    | none => 0
    | some stop =>
      let (r, s) := fscanf_ld start s
      if r = 0 then 0
      else
        let (r, e) := fscanf_ld stop e
        if r = 0 then 0
        else if s ≤ now ∧ now ≤ e then 1
        else 0

/-! ## What is claimed -/

/-- the text begins, after white space, with a decimal number, `n` as a long has it: one out of its range is the nearest
long -/
def Begins (text : Str) (n : ℤ) : Prop :=
  ∃ space sign ds rest, (∀ c ∈ space, isspace c = true) ∧ (sign = [] ∨ sign = ['+'] ∨ sign = ['-']) ∧ ds ≠ [] ∧
    (∀ c ∈ ds, (digit 10 c).isSome = true) ∧ ¬ StartsWithDigit 10 rest ∧ text = space ++ (sign ++ (ds ++ rest)) ∧
    n = toLong (sign = ['-']) (scanDigits 10 0 ds).1

/-- both files begin with a number, and now is between the two -/
def Open (start stop : Option Str) (now : ℤ) : Prop :=
  ∃ t ∈ start, ∃ u ∈ stop, ∃ n m, Begins t n ∧ Begins u m ∧ n ≤ now ∧ now ≤ m

/-- the answer is 1 only if the polls are open, and 0 otherwise -/
def PollsRight (start stop : Option Str) (s e now : ℤ) : Prop :=
  (polls_open start stop s e now = 1 → Open start stop now) ∧
    (¬ Open start stop now → polls_open start stop s e now = 0)

/-- nothing but white space -/
def Blank (text : Str) : Prop := ∀ c ∈ text, isspace c = true

/-- the number of a file is used as `n`: it is read, or the file is blank and it is in the variable -/
def Uses (text : Str) (v n : ℤ) : Prop := Begins text n ∨ (Blank text ∧ n = v)

/-- where both files are there and one is blank, now is not between the numbers used -/
def Guarded (start stop : Option Str) (s e now : ℤ) : Prop :=
  ∀ t ∈ start, ∀ u ∈ stop, Blank t ∨ Blank u → ∀ n m, Uses t s n → Uses u e m → ¬ (n ≤ now ∧ now ≤ m)

/-! ## What `fscanf` gives -/

section Scan

variable {text : Str} {n : ℤ}

theorem blank_iff : Blank text ↔ skipSpace text = [] := by
  rw [skipSpace, List.dropWhile_eq_nil_iff, Blank]

/-- white space in front is skipped -/
theorem skipSpace_append {space t : Str} (h : ∀ c ∈ space, isspace c = true) :
    skipSpace (space ++ t) = skipSpace t := by
  rw [skipSpace, List.dropWhile_append_of_pos h, ← skipSpace]

theorem scanSign_sign {sign t : Str} (hsign : sign = [] ∨ sign = ['+'] ∨ sign = ['-']) (ht : StartsWithDigit 10 t) :
    skipSpace (sign ++ t) = sign ++ t ∧ scanSign (sign ++ t) = (decide (sign = ['-']), t) := by
  rcases hsign with rfl | rfl | rfl
  · exact ⟨skipSpace_of_digit ht, scanSign_of_digit ht⟩
  · exact ⟨List.dropWhile_cons_of_neg (by decide), rfl⟩
  · exact ⟨List.dropWhile_cons_of_neg (by decide), rfl⟩

/-- a sign is cut off where there is one -/
theorem scanSign_spec (t : Str) : ∃ sign, (sign = [] ∨ sign = ['+'] ∨ sign = ['-']) ∧ t = sign ++ (scanSign t).2 ∧
    (scanSign t).1 = decide (sign = ['-']) := by
  unfold scanSign
  split
  · exact ⟨['-'], Or.inr (Or.inr rfl), rfl, rfl⟩
  · exact ⟨['+'], Or.inr (Or.inl rfl), rfl, rfl⟩
  · exact ⟨[], Or.inl rfl, rfl, rfl⟩

/-- the digits in front, and what is behind -/
theorem exists_digits {t : Str} (ht : StartsWithDigit 10 t) : ∃ ds rest, ds ≠ [] ∧
    (∀ c ∈ ds, (digit 10 c).isSome = true) ∧ ¬ StartsWithDigit 10 rest ∧ t = ds ++ rest := by
  refine ⟨t.takeWhile fun c => (digit 10 c).isSome, t.dropWhile fun c => (digit 10 c).isSome, ?_, ?_, ?_, ?_⟩
  · obtain ⟨c, hc, hd⟩ := ht
    cases t with
    | nil => cases hc
    | cons d t =>
      cases hc
      simp [hd]
  · exact fun c hc => List.all_eq_true.1 List.all_takeWhile c hc
  · intro hrest
    obtain ⟨c, hc, hd⟩ := hrest
    have hne : t.dropWhile (fun c => (digit 10 c).isSome) ≠ [] := fun h => by rw [h] at hc; cases hc
    have hhead := List.head_dropWhile_not (fun c => (digit 10 c).isSome) (l := t) hne
    rw [List.head?_eq_some_head hne, Option.mem_some_iff] at hc
    rw [hc, hd] at hhead
    cases hhead
  · exact (List.takeWhile_append_dropWhile).symm

theorem begins_iff : Begins text n ↔ StartsWithDigit 10 (scanSign (skipSpace text)).2 ∧
    n = toLong (scanSign (skipSpace text)).1 (scanDigits 10 0 (scanSign (skipSpace text)).2).1 := by
  constructor
  · intro h
    obtain ⟨space, sign, ds, rest, hspace, hsign, hne, hds, hrest, rfl, rfl⟩ := h
    have hstart : StartsWithDigit 10 (ds ++ rest) := startsWithDigit_append hne hds rest
    obtain ⟨hskip, hscan⟩ := scanSign_sign hsign hstart
    rw [skipSpace_append hspace, hskip, hscan, scanDigits_append hds hrest]
    exact ⟨hstart, rfl⟩
  · intro h
    obtain ⟨hstart, rfl⟩ := h
    obtain ⟨sign, hsign, htext, hneg⟩ := scanSign_spec (skipSpace text)
    obtain ⟨ds, rest, hne, hds, hrest, hdigits⟩ := exists_digits hstart
    refine ⟨text.takeWhile isspace, sign, ds, rest, ?_, hsign, hne, hds, hrest, ?_, ?_⟩
    · exact fun c hc => List.all_eq_true.1 List.all_takeWhile c hc
    · rw [← hdigits, ← htext, skipSpace, List.takeWhile_append_dropWhile]
    · rw [hneg, hdigits, scanDigits_append hds hrest]

/-- a blank file does not begin with a number -/
theorem not_begins_of_blank (h : Blank text) : ¬ Begins text n := by
  rw [begins_iff, blank_iff.1 h]
  exact fun hn => absurd hn.1 (by decide)

/-- **What comes out of `fscanf`**: 0, or a number that is used. -/
theorem fscanf_cases (text : Str) (v : ℤ) :
    (fscanf_ld text v = (0, v) ∧ ∀ n, ¬ Uses text v n) ∨
      ∃ r n, r ≠ 0 ∧ fscanf_ld text v = (r, n) ∧ ∀ m, Uses text v m ↔ m = n := by
  rw [fscanf_ld]
  by_cases hblank : skipSpace text = []
  · rw [if_pos hblank]
    refine Or.inr ⟨-1, v, by decide, rfl, fun m => ?_⟩
    rw [Uses, or_iff_right (not_begins_of_blank (blank_iff.2 hblank)), and_iff_right (blank_iff.2 hblank)]
  · have huses : ∀ m, Uses text v m ↔ Begins text m := fun m => or_iff_left fun h => hblank (blank_iff.1 h.1)
    simp only [huses, begins_iff]
    rw [if_neg hblank]
    by_cases hstart : StartsWithDigit 10 (scanSign (skipSpace text)).2
    · rw [if_pos hstart]
      exact Or.inr ⟨1, _, by decide, rfl, fun m => and_iff_right hstart⟩
    · rw [if_neg hstart]
      exact Or.inl ⟨rfl, fun n hn => hstart hn.1⟩

end Scan

/-! ## Main result -/

section Polls

variable {start stop : Option Str} {s e now : ℤ}

/-- **The answer is 1** if both files are there and now is between the numbers used. -/
theorem polls_open_iff : polls_open start stop s e now = 1 ↔
    ∃ t ∈ start, ∃ u ∈ stop, ∃ n m, Uses t s n ∧ Uses u e m ∧ n ≤ now ∧ now ≤ m := by
  cases start with
  | none => simp [polls_open]
  | some t =>
    cases stop with
    | none => simp [polls_open]
    | some u =>
      simp only [polls_open, Option.mem_some_iff, exists_eq_left']
      rcases fscanf_cases t s with ⟨ht, hnone⟩ | ⟨r, n, hr, ht, hn⟩
      · simp [ht, hnone]
      · rcases fscanf_cases u e with ⟨hu, hnone⟩ | ⟨q, m, hq, hu, hm⟩
        · simp [ht, hu, hr, hnone]
        · simp [ht, hu, hr, hq, hn, hm]

theorem polls_open_zero (h : polls_open start stop s e now ≠ 1) : polls_open start stop s e now = 0 := by
  revert h
  simp only [polls_open]
  split
  · exact fun _ => rfl
  · split
    · exact fun _ => rfl
    · split_ifs
      · exact fun _ => rfl
      · exact fun _ => rfl
      · exact fun h => absurd rfl h
      · exact fun _ => rfl

theorem pollsRight_iff_of_one :
    PollsRight start stop s e now ↔ (polls_open start stop s e now = 1 → Open start stop now) := by
  constructor
  · exact fun h => h.1
  · exact fun h => ⟨h, fun hopen => polls_open_zero fun hone => hopen (h hone)⟩

theorem pollsRight_iff : PollsRight start stop s e now ↔ Guarded start stop s e now := by
  rw [pollsRight_iff_of_one, polls_open_iff]
  constructor
  · intro h t ht u hu hblank n m hn hm hnow
    obtain ⟨t', ht', u', hu', n', m', hn', hm', -⟩ := h ⟨t, ht, u, hu, n, m, hn, hm, hnow⟩
    obtain rfl := Option.mem_unique ht' ht
    obtain rfl := Option.mem_unique hu' hu
    rcases hblank with hblank | hblank
    · exact not_begins_of_blank hblank hn'
    · exact not_begins_of_blank hblank hm'
  · intro h hone
    obtain ⟨t, ht, u, hu, n, m, hn, hm, hnow⟩ := hone
    have hblank : ¬ (Blank t ∨ Blank u) := fun hblank => h t ht u hu hblank n m hn hm hnow
    rw [not_or] at hblank
    refine ⟨t, ht, u, hu, n, m, hn.resolve_right fun h => hblank.1 h.1, hm.resolve_right fun h => hblank.2 h.1, hnow⟩

end Polls

/-- **The polls.** The answer is right exactly if now is not between the numbers used where a file is blank. For
whatever is in the variables it is right exactly if a file is missing, or neither is blank, or one that is not blank
begins with something else or with a number on the wrong side of now. -/
theorem polls_right_iff (start stop : Option Str) (now : ℤ) :
    (∀ s e, PollsRight start stop s e now ↔ Guarded start stop s e now) ∧
    ((∀ s e, PollsRight start stop s e now) ↔ ∀ t ∈ start, ∀ u ∈ stop, Blank t ∨ Blank u →
      (¬ Blank t ∧ ∀ n, Begins t n → now < n) ∨ (¬ Blank u ∧ ∀ m, Begins u m → m < now)) := by
  refine ⟨fun s e => pollsRight_iff, ?_⟩
  simp only [pollsRight_iff]
  constructor
  · intro h t ht u hu hblank
    by_contra hcon
    rw [not_or, not_and_or, not_and_or, not_not, not_not] at hcon
    have hn : ∃ n, Uses t now n ∧ n ≤ now := by
      rcases hcon.1 with hb | hb
      · exact ⟨now, Or.inr ⟨hb, rfl⟩, le_rfl⟩
      · push Not at hb
        obtain ⟨n, hn, hle⟩ := hb
        exact ⟨n, Or.inl hn, hle⟩
    have hm : ∃ m, Uses u now m ∧ now ≤ m := by
      rcases hcon.2 with hb | hb
      · exact ⟨now, Or.inr ⟨hb, rfl⟩, le_rfl⟩
      · push Not at hb
        obtain ⟨m, hm, hle⟩ := hb
        exact ⟨m, Or.inl hm, hle⟩
    obtain ⟨n, hn, hle⟩ := hn
    obtain ⟨m, hm, hle'⟩ := hm
    exact h now now t ht u hu hblank n m hn hm ⟨hle, hle'⟩
  · intro h s e t ht u hu hblank n m hn hm hnow
    rcases h t ht u hu hblank with ⟨hb, hlt⟩ | ⟨hb, hlt⟩
    · have hlt' := hlt n (hn.resolve_right fun h => hb h.1)
      omega
    · have hlt' := hlt m (hm.resolve_right fun h => hb h.1)
      omega

/-- **Two empty files**: the polls are open if what is in the variables says so. -/
theorem polls_empty : polls_open (some []) (some []) 0 100 50 = 1 ∧ ¬ PollsRight (some []) (some []) 0 100 50 := by
  refine ⟨by decide, fun h => ?_⟩
  obtain ⟨t, ht, -, -, n, -, hn, -⟩ := h.1 (by decide)
  obtain rfl := Option.mem_some_iff.1 ht
  exact not_begins_of_blank (fun c hc => absurd hc List.not_mem_nil) hn

end MNetSoft.Vote
