/-
The options and ranges on the command line of `bbsread`: `parse_arg` of `arg.c` and `parse_range` of `range.c`. A step
that calls `usage` ends the program (`.error .usage`); what `usage` prints is left out.

An argument that begins with a digit sets a range in the first part of `parse_arg`, and then it is looked up in the
table of options like any other. No option begins with a digit, so the program ends there.
- `parse_range_right`: the ranges themselves are read as they are written.
- `parse_arg_option`, `parse_arg_range`: what becomes of an option and of a range.
- `arguments_right_iff`: which command lines are parsed as they are meant.
- `usage_for_item`: a single item.
-/
import Mathlib.Tactic
import MNetSoft.Core.Numerals
import MNetSoft.Bbsread.Match

namespace MNetSoft.Bbsread

open MNetSoft.CString MNetSoft.Numerals

/-! ## Model -/

/-- a range of items or responses; -1 is the last one there is -/
structure Range where
  first : ℤ
  last : ℤ
deriving DecidableEq, Repr

/-- the global flags and ranges, and the static variable of `parse_arg` -/
structure Options where
  read_brandnew : Bool
  /-- new response items (1 = newresp, 2 = whole item) -/
  read_newresp : ℤ
  read_old : Bool
  /-- forgotten items (1 = newresp, 2 = whole item) -/
  read_forgotten : ℤ
  reverse : Bool
  prompt_rfp : Bool
  noresponse : Bool
  /-- has user named specific responses? -/
  extracting : Bool
  item : Range
  resp : Range
  which_range : ℕ
deriving DecidableEq, Repr

def Options.init : Options := ⟨true, 1, false, 0, false, true, false, false, ⟨1, -1⟩, ⟨0, -1⟩, 0⟩

/-- why the parsing stops -/
inductive Stop where
  | usage
  /-- a read behind a string -/
  | wild
deriving DecidableEq, Repr

def set_new (g : Options) : Options := { g with read_brandnew := true, read_newresp := 1, read_old := false }

def set_all (g : Options) : Options := { g with read_brandnew := true, read_newresp := 2, read_old := true }

def set_old (g : Options) : Options := { g with read_brandnew := false, read_newresp := 0, read_old := true }

def set_brandnew (g : Options) : Options := { g with read_brandnew := true, read_newresp := 0, read_old := false }

def set_nwresponse (g : Options) : Options := { g with read_brandnew := false, read_newresp := 1, read_old := false }

def set_forgotten (g : Options) : Options :=
  { g with read_brandnew := false, read_newresp := 0, read_old := false, read_forgotten := 1 }

def set_reverse (g : Options) : Options := { g with reverse := true }

def set_noforget (g : Options) : Options := { g with read_forgotten := 1 }

def set_nopass (g : Options) : Options := { g with prompt_rfp := true }

def set_pass (g : Options) : Options := { g with prompt_rfp := false }

def set_noresponse (g : Options) : Options := { g with noresponse := true }

/-- the options and what they call -/
def args : List (Pattern × (Options → Options)) :=
  [(⟨['n'], some ['e', 'w'], by decide⟩, set_new),
    (⟨['r'], some ['e', 'v', 'e', 'r', 's', 'e'], by decide⟩, set_reverse),
    (⟨['a'], some ['l', 'l'], by decide⟩, set_all),
    (brandnew, set_brandnew),
    (⟨['n', 'e', 'w', 'r'], some ['r', 'e', 's', 'p', 'o', 'n', 's', 'e'], by decide⟩, set_nwresponse),
    (⟨['o'], some ['l', 'd'], by decide⟩, set_old),
    (⟨['f', 'o', 'r'], some ['g', 'o', 't', 't', 'e', 'n'], by decide⟩, set_forgotten),
    (⟨['n', 'o', 'f'], some ['o', 'r', 'g', 'e', 't'], by decide⟩, set_noforget),
    (⟨['n', 'o', 'r'], some ['e', 's', 'p', 'o', 'n', 's', 'e'], by decide⟩, set_noresponse),
    (⟨['n', 'o', 'p'], some ['a', 's', 's'], by decide⟩, set_nopass),
    (⟨['p'], some ['a', 's', 's'], by decide⟩, set_pass)]

def isascii (c : Char) : Bool := c.toNat < 128

def isdigit (c : Char) : Bool := '0' ≤ c ∧ c ≤ '9'

/-- which of the two ranges a pointer points to -/
inductive Which where
  | item
  | resp
deriving DecidableEq, Repr

def Options.set (g : Options) (r : Which) (range : Range) : Options :=
  match r with
  | .item => { g with item := range }
  | .resp => { g with resp := range }

/-- the two numbers of a range, the smaller one first -/
def ordered (first last : ℤ) : Range := if last ≠ -1 ∧ first > last then ⟨last, first⟩ else ⟨first, last⟩

def parse_range (r : Which) (arg : Str) (g : Options) : Except Stop Options :=
  match arg.dropWhile isdigit with
  | [] =>
    let g := g.set r ⟨atoi arg, atoi arg⟩
    .ok (if r = .item then { g with read_forgotten := 2 } else g)
  | c :: t =>
    if c ≠ '-' then .error .usage
    else
      match t with
      | [] => .ok (g.set r (ordered (atoi arg) (-1)))
      | d :: t =>
        if d = '$' then .ok (g.set r (ordered (atoi arg) (-1)))
        else if isascii d ∧ isdigit d then .ok (g.set r (ordered (atoi arg) (atoi (d :: t))))
        else .error .usage

/-- the loop over the table -/
def argLoop (arg : Str) (g : Options) : List (Pattern × (Options → Options)) → Except Stop Options
  | [] => .error .usage
  | a :: as =>
    match match_ (arg ++ ['\x00']) (a.1.text ++ ['\x00']) with
    | none => .error .wild
    | some true => .ok (a.2 g)
    | some false => argLoop arg g as

/-- the numeric arguments -/
def numeric (arg : Str) (g : Options) : Except Stop Options :=
  match g.which_range with
  | 0 => do
    let g ← parse_range .item arg g
    return { g with read_brandnew := true, read_newresp := 2, read_old := true, which_range := 1 }
  | 1 =>
    if g.item.first ≠ g.item.last then .error .usage
    else do
      let g ← parse_range .resp arg { g with extracting := true }
      return { g with which_range := 2 }
  | _ => .error .usage

def parse_arg (g : Options) (arg : Str) : Except Stop Options :=
  let c := arg.headD '\x00'
  if !isascii c then .error .usage
  else do
    let g ← if isdigit c then numeric arg g else pure g
    argLoop arg g args

/-- the calls for the arguments behind the name of the conference -/
def parseArgs (g : Options) (words : List Str) : Except Stop Options := words.foldlM parse_arg g

/-! ## What is claimed -/

/-- a decimal number -/
structure Decimal where
  digits : Str
  nonempty : digits ≠ []
  decimal : ∀ c ∈ digits, isdigit c = true

def Decimal.value (n : Decimal) : ℤ := (scanDigits 10 0 n.digits).1

/-- a range as it is written -/
inductive RangeText where
  | single (n : Decimal)
  | between (n m : Decimal)
  | onward (n : Decimal)
  | toEnd (n : Decimal)

def RangeText.text : RangeText → Str
  | .single n => n.digits
  | .between n m => n.digits ++ '-' :: m.digits
  | .onward n => n.digits ++ ['-']
  | .toEnd n => n.digits ++ ['-', '$']

/-- the range that is meant -/
def RangeText.range : RangeText → Range
  | .single n => ⟨n.value, n.value⟩
  | .between n m => ⟨min n.value m.value, max n.value m.value⟩
  | .onward n => ⟨n.value, -1⟩
  | .toEnd n => ⟨n.value, -1⟩

/-- the numbers fit an int -/
def RangeText.Fits : RangeText → Prop
  | .single n => n.value < 2 ^ 31
  | .between n m => n.value < 2 ^ 31 ∧ m.value < 2 ^ 31
  | .onward n => n.value < 2 ^ 31
  | .toEnd n => n.value < 2 ^ 31

/-- an argument -/
inductive Word where
  | option (name : Str)
  | range (r : RangeText)

def Word.text : Word → Str
  | .option name => name
  | .range r => r.text

def Word.range? : Word → Option RangeText
  | .option _ => none
  | .range r => some r

/-- the arguments behind the name of the conference: abbreviations of options, and at most one range of items and, where
this is a single item, one of responses -/
structure CommandLine where
  words : List Word
  accepted : ∀ name, Word.option name ∈ words → ∃ a ∈ args, a.1.Abbreviates name
  ranges : (words.filterMap Word.range?).length ≤ 1 ∨
    ∃ r r' : RangeText, words.filterMap Word.range? = [r, r'] ∧ r.range.first = r.range.last

def CommandLine.ranges? (l : CommandLine) : List RangeText := l.words.filterMap Word.range?

/-- the arguments are parsed without a call of `usage`, and the ranges are those given -/
def CommandLine.Right (l : CommandLine) : Prop :=
  ∃ g, parseArgs .init (l.words.map Word.text) = .ok g ∧
    g.item = (l.ranges?[0]?.map RangeText.range).getD ⟨1, -1⟩ ∧
    g.resp = (l.ranges?[1]?.map RangeText.range).getD ⟨0, -1⟩ ∧
    (g.extracting = true ↔ l.ranges?.length = 2) ∧
    (g.item.last ≠ -1 → g.item.first ≤ g.item.last) ∧ (g.resp.last ≠ -1 → g.resp.first ≤ g.resp.last)

/-! ## Ranges -/

section Ranges

variable {c : Char} {t : Str}

theorem isdigit_iff : isdigit c = true ↔ '0' ≤ c ∧ c ≤ '9' := decide_eq_true_iff

theorem digit_of_isdigit (h : isdigit c = true) : (digit 10 c).isSome = true := digit_of_decimal (isdigit_iff.1 h)

theorem dropWhile_digits (n : Decimal) (ht : ∀ c ∈ t.head?, isdigit c = false) :
    (n.digits ++ t).dropWhile isdigit = t := by
  rw [List.dropWhile_append_of_pos n.decimal]
  cases t with
  | nil => rfl
  | cons c t => exact List.dropWhile_cons_of_neg (by simp [ht c rfl])

/-- `atoi` reads a number that fits an int, up to its end -/
theorem atoi_digits (n : Decimal) (hn : n.value < 2 ^ 31) (ht : ¬ StartsWithDigit 10 t) :
    atoi (n.digits ++ t) = n.value := by
  have hdigits : ∀ c ∈ n.digits, (digit 10 c).isSome = true := fun c hc => digit_of_isdigit (n.decimal c hc)
  have hstart : StartsWithDigit 10 (n.digits ++ t) := startsWithDigit_append n.nonempty hdigits t
  have hlt : (scanDigits 10 0 n.digits).1 < 2 ^ 31 := by
    rw [Decimal.value] at hn
    exact_mod_cast hn
  rw [atoi, skipSpace_of_digit hstart, scanSign_of_digit hstart]
  simp only [scanDigits_append hdigits ht]
  rw [toLong_of_lt (by omega)]
  exact toInt_of_range (by omega) (by exact_mod_cast hlt)

theorem Decimal.value_nonneg (n : Decimal) : 0 ≤ n.value := Int.natCast_nonneg _

/-- the first digit -/
theorem Decimal.cons (n : Decimal) : ∃ d ds, n.digits = d :: ds ∧ isascii d = true ∧ isdigit d = true := by
  obtain ⟨d, ds, h⟩ := List.exists_cons_of_ne_nil n.nonempty
  have hd : isdigit d = true := n.decimal d (by rw [h]; exact List.mem_cons_self)
  have h9 : d.toNat ≤ 57 := (isdigit_iff.1 hd).2
  exact ⟨d, ds, h, decide_eq_true (by omega), hd⟩

theorem ordered_eq {n m : ℤ} (hm : 0 ≤ m) : ordered n m = ⟨min n m, max n m⟩ := by
  rw [ordered]
  split_ifs with h
  · rw [min_eq_right h.2.le, max_eq_left h.2.le]
  · have hle : n ≤ m := by omega
    rw [min_eq_left hle, max_eq_right hle]

theorem ordered_last (n : ℤ) : ordered n (-1) = ⟨n, -1⟩ := if_neg fun h => h.1 rfl

/-- **A range is read as it is written.** -/
theorem parse_range_right (w : Which) {r : RangeText} (hr : r.Fits) (g : Options) :
    ∃ forgotten, parse_range w r.text g = .ok ({ g with read_forgotten := forgotten }.set w r.range) := by
  have hdash : ∀ t, ¬ StartsWithDigit 10 ('-' :: t) := fun t => not_startsWithDigit_cons (by decide) t
  have hnil : ¬ StartsWithDigit 10 [] := by decide
  have hset : ∀ range, ({ g with read_forgotten := g.read_forgotten } : Options).set w range = g.set w range :=
    fun _ => rfl
  cases r with
  | single n =>
    have hatoi : atoi n.digits = n.value := by simpa using atoi_digits n hr hnil
    have hdrop : n.digits.dropWhile isdigit = [] := by
      simpa using dropWhile_digits n (t := []) fun c hc => by cases hc
    refine ⟨if w = .item then 2 else g.read_forgotten, ?_⟩
    rw [RangeText.text, parse_range, hdrop]
    simp only [hatoi]
    cases w with
    | item => rfl
    | resp => rfl
  | between n m =>
    have hatoi := atoi_digits n hr.1 (hdash m.digits)
    have hdrop := dropWhile_digits n (t := '-' :: m.digits) fun c hc => by cases hc; decide
    have hatoi' : atoi m.digits = m.value := by simpa using atoi_digits m hr.2 hnil
    obtain ⟨d, ds, hm, hascii, hdigit⟩ := m.cons
    have hne : d ≠ '$' := fun h => by rw [h] at hdigit; exact absurd hdigit (by decide)
    refine ⟨g.read_forgotten, ?_⟩
    rw [RangeText.text, parse_range, hdrop]
    simp only [ne_eq, not_true_eq_false, if_false]
    rw [hm] at hatoi' hatoi ⊢
    simp only [if_neg hne, hascii, hdigit, and_self, if_true, hatoi, hatoi', ordered_eq m.value_nonneg]
    rfl
  | onward n =>
    have hatoi := atoi_digits n hr (hdash [])
    have hdrop := dropWhile_digits n (t := ['-']) fun c hc => by cases hc; decide
    refine ⟨g.read_forgotten, ?_⟩
    rw [RangeText.text, parse_range, hdrop]
    simp only [ne_eq, not_true_eq_false, if_false, hatoi, ordered_last]
    rfl
  | toEnd n =>
    have hatoi := atoi_digits n hr (hdash ['$'])
    have hdrop := dropWhile_digits n (t := ['-', '$']) fun c hc => by cases hc; decide
    refine ⟨g.read_forgotten, ?_⟩
    rw [RangeText.text, parse_range, hdrop]
    simp only [ne_eq, not_true_eq_false, if_false, if_true, hatoi, ordered_last]
    rfl

/-- a range begins with a digit -/
theorem RangeText.cons (r : RangeText) : ∃ d t, r.text = d :: t ∧ isascii d = true ∧ isdigit d = true := by
  cases r with
  | single n =>
    obtain ⟨d, ds, h, hd⟩ := n.cons
    exact ⟨d, ds, h, hd⟩
  | between n m =>
    obtain ⟨d, ds, h, hd⟩ := n.cons
    exact ⟨d, ds ++ '-' :: m.digits, by rw [RangeText.text, h, List.cons_append], hd⟩
  | onward n =>
    obtain ⟨d, ds, h, hd⟩ := n.cons
    exact ⟨d, ds ++ ['-'], by rw [RangeText.text, h, List.cons_append], hd⟩
  | toEnd n =>
    obtain ⟨d, ds, h, hd⟩ := n.cons
    exact ⟨d, ds ++ ['-', '$'], by rw [RangeText.text, h, List.cons_append], hd⟩

/-- there is no NUL in it -/
theorem RangeText.nul_not_mem (r : RangeText) : '\x00' ∉ r.text := by
  have hdigits : ∀ n : Decimal, '\x00' ∉ n.digits := fun n h => absurd (n.decimal _ h) (by decide)
  cases r with
  | single n => exact hdigits n
  | between n m => simp [RangeText.text, hdigits]
  | onward n => simp [RangeText.text, hdigits]
  | toEnd n => simp [RangeText.text, hdigits]

end Ranges

/-! ## Options -/

section Options

variable {name : Str} {g : Options}

/-- the options call functions that leave the ranges alone -/
theorem ranges_of_args : ∀ a ∈ args, ∀ g, (a.2 g).item = g.item ∧ (a.2 g).resp = g.resp ∧
    (a.2 g).extracting = g.extracting := by
  simp only [args, List.forall_mem_cons, set_new, set_all, set_old, set_brandnew, set_nwresponse, set_forgotten,
    set_reverse, set_noforget, set_nopass, set_pass, set_noresponse, and_self, implies_true, true_and]
  exact fun a ha => absurd ha List.not_mem_nil

/-- every option begins with a letter -/
theorem head_of_args : ∀ a ∈ args, isascii (a.1.needed.headD '\x00') = true ∧
    isdigit (a.1.needed.headD '\x00') = false ∧ a.1.needed ≠ [] := by
  decide

/-- so do its abbreviations -/
theorem head_of_abbreviates {a : Pattern × (Options → Options)} (ha : a ∈ args) (h : a.1.Abbreviates name) :
    isascii (name.headD '\x00') = true ∧ isdigit (name.headD '\x00') = false := by
  obtain ⟨hascii, hdigit, hne⟩ := head_of_args a ha
  obtain ⟨c, t, hc⟩ := List.exists_cons_of_ne_nil hne
  obtain ⟨s, -, rfl⟩ := h
  rw [hc] at hascii hdigit ⊢
  exact ⟨hascii, hdigit⟩

theorem Pattern.nul_not_mem {p : Pattern} (h : p.Abbreviates name) : '\x00' ∉ name := by
  obtain ⟨s, hs, rfl⟩ := h
  intro hmem
  refine (p.letters '\x00' (List.mem_append.2 ?_)).2.2 rfl
  exact (List.mem_append.1 hmem).imp_right fun h => hs.subset h

/-- **The loop over the table** calls an option that is abbreviated, if there is one. -/
theorem argLoop_spec (hname : '\x00' ∉ name) (as : List (Pattern × (Options → Options))) :
    (∃ a ∈ as, a.1.Abbreviates name ∧ argLoop name g as = .ok (a.2 g)) ∨
      (∀ a ∈ as, ¬ a.1.Abbreviates name) ∧ argLoop name g as = .error .usage := by
  induction as with
  | nil => exact Or.inr ⟨fun a ha => absurd ha List.not_mem_nil, rfl⟩
  | cons a as ih =>
    have hmatch := match_eq hname a.1 (Or.inr rfl) [] []
    rw [argLoop, hmatch]
    by_cases ha : a.1.Abbreviates name
    · rw [decide_eq_true ha]
      exact Or.inl ⟨a, List.mem_cons_self, ha, rfl⟩
    · rw [decide_eq_false ha]
      rcases ih with ⟨b, hb, hbname, hloop⟩ | ⟨hnone, hloop⟩
      · exact Or.inl ⟨b, List.mem_cons_of_mem a hb, hbname, hloop⟩
      · exact Or.inr ⟨List.forall_mem_cons.2 ⟨ha, hnone⟩, hloop⟩

/-- **An option** is taken, and leaves the ranges alone. -/
theorem parse_arg_option (h : ∃ a ∈ args, a.1.Abbreviates name) (g : Options) :
    ∃ g', parse_arg g name = .ok g' ∧ g'.item = g.item ∧ g'.resp = g.resp ∧ g'.extracting = g.extracting := by
  obtain ⟨a, ha, habbr⟩ := h
  obtain ⟨hascii, hdigit⟩ := head_of_abbreviates ha habbr
  have hparse : parse_arg g name = argLoop name g args := by
    rw [parse_arg]
    simp only [hascii, hdigit, Bool.not_true, Bool.false_eq_true, if_false]
    rfl
  rcases argLoop_spec (g := g) (Pattern.nul_not_mem habbr) args with ⟨b, hb, -, hloop⟩ | ⟨hnone, -⟩
  · exact ⟨b.2 g, hparse.trans hloop, ranges_of_args b hb g⟩
  · exact absurd habbr (hnone a ha)

theorem parse_range_cases (w : Which) (arg : Str) (g : Options) :
    (∃ g', parse_range w arg g = .ok g') ∨ parse_range w arg g = .error .usage := by
  rw [parse_range]
  split
  · exact Or.inl ⟨_, rfl⟩
  · split_ifs
    · exact Or.inr rfl
    · split
      · exact Or.inl ⟨_, rfl⟩
      · split_ifs
        · exact Or.inl ⟨_, rfl⟩
        · exact Or.inl ⟨_, rfl⟩
        · exact Or.inr rfl

theorem numeric_cases (arg : Str) (g : Options) :
    (∃ g', numeric arg g = .ok g') ∨ numeric arg g = .error .usage := by
  rw [numeric]
  split
  · rcases parse_range_cases .item arg g with ⟨g', h⟩ | h
    · rw [h]
      exact Or.inl ⟨_, rfl⟩
    · rw [h]
      exact Or.inr rfl
  · split_ifs
    · exact Or.inr rfl
    · rcases parse_range_cases .resp arg { g with extracting := true } with ⟨g', h⟩ | h
      · rw [h]
        exact Or.inl ⟨_, rfl⟩
      · rw [h]
        exact Or.inr rfl
  · exact Or.inr rfl

/-- **A range** is taken for an option as well, and there is none of that name. -/
theorem parse_arg_range (r : RangeText) (g : Options) : parse_arg g r.text = .error .usage := by
  obtain ⟨d, t, htext, hascii, hdigit⟩ := r.cons
  have hnone : ∀ a ∈ args, ¬ a.1.Abbreviates r.text := by
    intro a ha habbr
    have hletter := (head_of_abbreviates ha habbr).2
    rw [htext, List.headD_cons, hdigit] at hletter
    cases hletter
  have hloop : ∀ g, argLoop r.text g args = .error .usage := by
    intro g
    rcases argLoop_spec (g := g) r.nul_not_mem args with ⟨b, hb, habbr, -⟩ | ⟨-, hloop⟩
    · exact absurd habbr (hnone b hb)
    · exact hloop
  have hparse : parse_arg g r.text = numeric r.text g >>= fun g => argLoop r.text g args := by
    have hhead : r.text.headD '\x00' = d := by rw [htext, List.headD_cons]
    rw [parse_arg]
    simp only [hhead, hascii, hdigit, Bool.not_true, Bool.false_eq_true, if_false, if_true]
  rw [hparse]
  rcases numeric_cases r.text g with ⟨g', h⟩ | h
  · rw [h]
    exact hloop g'
  · rw [h]
    rfl

/-! ## Command lines -/

theorem parseArgs_cons {g' : Options} {arg : Str} (h : parse_arg g arg = .ok g') (words : List Str) :
    parseArgs g (arg :: words) = parseArgs g' words := by
  rw [parseArgs, List.foldlM_cons, h]
  rfl

/-- options alone are all taken -/
theorem parseArgs_options {words : List Word} (h : ∀ name, Word.option name ∈ words → ∃ a ∈ args, a.1.Abbreviates name)
    (hnone : words.filterMap Word.range? = []) (g : Options) :
    ∃ g', parseArgs g (words.map Word.text) = .ok g' ∧ g'.item = g.item ∧ g'.resp = g.resp ∧
      g'.extracting = g.extracting := by
  induction words generalizing g with
  | nil => exact ⟨g, rfl, rfl, rfl, rfl⟩
  | cons w words ih =>
    cases w with
    | range r => cases hnone
    | option name =>
      obtain ⟨g₁, hg₁, hitem₁, hresp₁, hext₁⟩ := parse_arg_option (h name List.mem_cons_self) g
      obtain ⟨g', hg', hitem, hresp, hext⟩ := ih (fun n hn => h n (List.mem_cons_of_mem _ hn)) hnone g₁
      refine ⟨g', ?_, hitem.trans hitem₁, hresp.trans hresp₁, hext.trans hext₁⟩
      rw [List.map_cons, Word.text, parseArgs_cons hg₁, hg']

/-- with a range among them the program ends -/
theorem parseArgs_range {words : List Word} (h : ∀ name, Word.option name ∈ words → ∃ a ∈ args, a.1.Abbreviates name)
    (hsome : words.filterMap Word.range? ≠ []) (g : Options) :
    parseArgs g (words.map Word.text) = .error .usage := by
  induction words generalizing g with
  | nil => exact absurd rfl hsome
  | cons w words ih =>
    cases w with
    | range r =>
      rw [List.map_cons, Word.text, parseArgs, List.foldlM_cons, parse_arg_range]
      rfl
    | option name =>
      obtain ⟨g₁, hg₁, -⟩ := parse_arg_option (h name List.mem_cons_self) g
      rw [List.map_cons, Word.text, parseArgs_cons hg₁]
      exact ih (fun n hn => h n (List.mem_cons_of_mem _ hn)) hsome g₁

theorem CommandLine.right_iff (l : CommandLine) : l.Right ↔ l.ranges? = [] := by
  by_cases hl : l.ranges? = []
  · obtain ⟨g, hg, hitem, hresp, hext⟩ := parseArgs_options l.accepted hl .init
    refine iff_of_true ⟨g, hg, ?_, ?_, ?_, ?_, ?_⟩ hl
    · rw [hitem, hl]
      rfl
    · rw [hresp, hl]
      rfl
    · rw [hext, hl]
      decide
    · rw [hitem]
      decide
    · rw [hresp]
      decide
  · refine iff_of_false (fun hright => ?_) hl
    obtain ⟨g, hg, -⟩ := hright
    rw [parseArgs_range l.accepted hl] at hg
    cases hg

end Options

/-! ## Main result -/

/-- **Options and ranges.** A command line of options, at most one range of items and at most one of responses is parsed
without a call of `usage`, with the ranges set to those given, exactly if it has no range. -/
theorem arguments_right_iff (l : CommandLine) : l.Right ↔ ∀ r, Word.range r ∉ l.words := by
  rw [l.right_iff, CommandLine.ranges?, List.filterMap_eq_nil_iff]
  constructor
  · intro h r hr
    exact absurd (h _ hr) (Option.some_ne_none r)
  · intro h w hw
    cases w with
    | option name => rfl
    | range r => exact absurd hw (h r)

/-- `new 5`: the new responses of item 5 -/
def newFive : CommandLine where
  words := [.option ['n', 'e', 'w'], .range (.single ⟨['5'], by decide, by decide⟩)]
  accepted := by
    intro name h
    have hname : name = ['n', 'e', 'w'] := by simpa using h
    rw [hname]
    decide
  ranges := Or.inl (by decide)

/-- **A single item.** `new 5` ends in the usage message, as each range does. -/
theorem usage_for_item : parseArgs .init (newFive.words.map Word.text) = .error .usage ∧ ¬ newFive.Right := by
  refine ⟨by decide, fun h => ?_⟩
  rw [newFive.right_iff] at h
  exact absurd (congrArg List.length h) (by decide)

end MNetSoft.Bbsread
