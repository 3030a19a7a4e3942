/-
The fields an applicant enters in `pnewuser`, on their way to the privileged wrapper: the prompts for the login and the
name (`Reader::trim`, `Data::Login`, `Data::Name`), `User::value`, the request that `adduser` writes to a pipe, the
child `runuseradd` that reads it line by line and passes it on as arguments, and the checks of `nuseradd.c`. What an
argument loses is what is behind a NUL in it.

- `runuseradd_request`: the child reads the login and the name as they were sent.
- `wrapper_accepts_iff`: exactly when the wrapper accepts what the prompts have accepted.
- `hyphen_refused`: a name with a hyphen.
-/
import Mathlib.Tactic
import MNetSoft.Core.CString

namespace MNetSoft.Pnewuser

open MNetSoft.CString

/-! ## The prompts -/

/-- a scalar is true -/
def truthy (s : Str) : Bool := s ≠ [] ∧ s ≠ ['0']

/-- `trim` of `Reader`; at end of file there is no line -/
def trim (line : Option Str) : Str :=
  let line := line.getD []
  strip (if truthy line then line else [])

/-- what `Data::Login` asks about a login: it or an alias exists, it is a bad name, it matches a bad pattern -/
structure Site where
  used : Str → Bool
  badname : Str → Bool
  badpattern : Str → Bool

def ERROR : String := "That is an invalid login name; please try again."

def ERROR_BAD : String := "That login name is not permitted; please pick another."

def ERROR_USED : String := "That login name is already in use; please pick another."

/-- `a-z` -/
def lower (c : Char) : Bool := 'a' ≤ c ∧ c ≤ 'z'

/-- `a-z0-9_` -/
def loginChar (c : Char) : Bool := lower c || ('0' ≤ c ∧ c ≤ '9') || c = '_'

/-- the error `isvalid` finds in a login, if it finds one -/
def lastError (site : Site) (login : Str) : Option String :=
  if site.used login then some ERROR_USED
  else if site.badname login || site.badpattern login then some ERROR_BAD
  else if login.any (fun c => !loginChar c) || login.head?.any (fun c => !lower c) then some ERROR
  else none

/-- `isvalid` of `Data::Login` -/
def isvalid (site : Site) (login : Str) : Bool := (lastError site login).isNone

/-- the value `Data::Login` takes from a line -/
def loginValue (line : Option Str) : Str := trim line

def anonymous : Str := "anonymous".toList

/-- the value `Data::Name` takes from a line -/
def nameValue (line : Option Str) : Str := if truthy (trim line) then trim line else anonymous

/-! ## The request -/

def NOVALUE : Str := "(no value given)".toList

/-- `value` of `User`, for a datum that exists -/
def value (datum : Str) : Str := if truthy datum then datum else NOVALUE

/-- what `adduser` sends -/
structure Request where
  login : Str
  name : Str
  homedir : Str
  lockdir : Str
  shell : Str
  hashed : Str
deriving DecidableEq, Repr

/-- the lines on the pipe -/
def Request.text (r : Request) : Str := unlines [r.login, r.name, r.homedir, r.lockdir, r.shell, r.hashed]

/-- a line from the pipe, and what is left; without one the child exits -/
def getline : Str → Option (Str × Str)
  | [] => none
  | c :: s => if c = '\n' then some ([], s) else (getline s).map fun r => (c :: r.1, r.2)

/-- the arguments of `nuseradd` -/
structure Args where
  user : Str
  comment : Str
  homedir : Str
  skeldir : Str
  shell : Str
deriving DecidableEq, Repr

/-- `runuseradd`: what it executes, and what it leaves on the pipe -/
def runuseradd (stdin : Str) : Option (Args × Str) := do
  let (login, stdin) ← getline stdin
  let (gecos, stdin) ← getline stdin
  let (dir, stdin) ← getline stdin
  let (skeldir, stdin) ← getline stdin
  let (shell, stdin) ← getline stdin
  let gecos := if gecos = NOVALUE then anonymous else gecos
  some (⟨cstr login, cstr gecos, cstr dir, cstr skeldir, cstr shell⟩, stdin)

/-! ## The wrapper -/

def isascii (c : Char) : Bool := c.toNat < 128

def isprint (c : Char) : Bool := 32 ≤ c.toNat ∧ c.toNat < 127

def valid_user (username : Str) : Bool :=
  if username.length > 30 then false
  else
    match username with
    | [] => false
    | c :: _ =>
      if !isascii c || !c.isAlpha || !c.isLower then false
      else username.all fun c => isascii c && isprint c && (c.isAlphanum || c = '_')

def valid_gecos (gecos : Str) : Bool :=
  gecos.all fun c => !(!isascii c || !isprint c || (!c.isAlphanum && c ≠ '.' && c ≠ ' ' && c ≠ '_'))

/-- the errors `baditem` counts for an argument -/
def baditem (valid : Str → Bool) (val : Str) : ℕ := if val = [] then 1 else if !valid val then 1 else 0

/-- the part of `checkargs` that is about what the applicant has entered at the two prompts -/
def enteredErrs (args : Args) : ℕ := baditem valid_user args.user + baditem valid_gecos args.comment

/-- the wrapper is run, and finds nothing wrong with the login and the comment -/
def Accepts (r : Request) : Prop := ∃ args left, runuseradd r.text = some (args, left) ∧ enteredErrs args = 0

/-! ## The pipe -/

theorem getline_line {l : Str} (hl : '\n' ∉ l) (s : Str) : getline (l ++ '\n' :: s) = some (l, s) := by
  induction l with
  | nil => rfl
  | cons c l ih =>
    have hc : c ≠ '\n' := fun h => hl (h ▸ List.mem_cons_self)
    rw [List.cons_append, getline, if_neg hc, ih fun h => hl (List.mem_cons_of_mem c h)]
    rfl

/-- a pipe with a newline on it has a line, and one newline less after it -/
theorem getline_of_mem {s : Str} (h : '\n' ∈ s) : ∃ l rest, getline s = some (l, rest) ∧
    s.count '\n' = rest.count '\n' + 1 := by
  induction s with
  | nil => cases h
  | cons c s ih =>
    by_cases hc : c = '\n'
    · subst hc
      exact ⟨[], s, rfl, by rw [List.count_cons_self]⟩
    · obtain ⟨l, rest, hl, hcount⟩ := ih ((List.mem_cons.1 h).resolve_left (Ne.symm hc))
      refine ⟨c :: l, rest, ?_, ?_⟩
      · rw [getline, if_neg hc, hl]
        rfl
      · rw [List.count_cons_of_ne hc, hcount]

/-- **The child reads the login and the name as they were sent**, if there is no newline in them. -/
theorem runuseradd_request {r : Request} (hlogin : '\n' ∉ r.login) (hname : '\n' ∉ r.name) :
    ∃ args left, runuseradd r.text = some (args, left) ∧ args.user = cstr r.login ∧
      args.comment = cstr (if r.name = NOVALUE then anonymous else r.name) := by
  set rest : Str := unlines [r.homedir, r.lockdir, r.shell, r.hashed] with hrest
  have htext : r.text = r.login ++ '\n' :: (r.name ++ '\n' :: rest) := by simp [Request.text, unlines, rest]
  -- the four lines behind them have a newline each, whatever else is in them
  have hcount : 4 ≤ rest.count '\n' := by
    simp only [rest, unlines, List.flatMap_cons, List.flatMap_nil, List.count_append, List.count_singleton_self]
    omega
  have hline : ∀ s : Str, 0 < s.count '\n' → ∃ l t, getline s = some (l, t) ∧ s.count '\n' = t.count '\n' + 1 :=
    fun s hs => getline_of_mem (List.count_pos_iff.1 hs)
  obtain ⟨dir, s1, h1, hc1⟩ := hline rest (by omega)
  obtain ⟨skeldir, s2, h2, hc2⟩ := hline s1 (by omega)
  obtain ⟨shell, s3, h3, -⟩ := hline s2 (by omega)
  refine ⟨⟨cstr r.login, cstr (if r.name = NOVALUE then anonymous else r.name), cstr dir, cstr skeldir, cstr shell⟩,
    s3, ?_, rfl, rfl⟩
  rw [htext, runuseradd]
  simp only [getline_line hlogin, getline_line hname, h1, h2, h3, Option.bind_eq_bind, Option.bind_some]

/-! ## What the prompts let through -/

theorem loginChar_ne_newline {c : Char} (h : loginChar c = true) : c ≠ '\n' ∧ c ≠ '\x00' := by
  refine ⟨?_, ?_⟩
  · rintro rfl
    exact absurd h (by decide)
  · rintro rfl
    exact absurd h (by decide)

/-- a valid login has nothing but login characters in it, and starts with a letter if it starts at all -/
theorem isvalid_chars {site : Site} {login : Str} (h : isvalid site login = true) :
    (∀ c ∈ login, loginChar c = true) ∧ ∀ c ∈ login.head?, lower c = true := by
  rw [isvalid, lastError] at h
  split_ifs at h with h1 h2 h3
  · cases h
  · cases h
  · cases h
  rw [Bool.or_eq_true, not_or, List.any_eq_true] at h3
  constructor
  · intro c hc
    by_contra hbad
    exact h3.1 ⟨c, hc, by simp [hbad]⟩
  · intro c hc
    by_contra hbad
    exact h3.2 (by rw [Option.mem_def.1 hc]; simp [hbad])

/-! ## What the wrapper lets through -/

/-- the characters of a comment -/
def gecosChar (c : Char) : Bool := c.isAlphanum || c = '.' || c = ' ' || c = '_'

theorem isLower_iff (c : Char) : c.isLower = true ↔ 'a' ≤ c ∧ c ≤ 'z' := by
  have heq : c.isLower = (decide ('a' ≤ c) && decide (c ≤ 'z')) := rfl
  rw [heq, Bool.and_eq_true, decide_eq_true_eq, decide_eq_true_eq]

theorem isUpper_iff (c : Char) : c.isUpper = true ↔ 'A' ≤ c ∧ c ≤ 'Z' := by
  have heq : c.isUpper = decide ('A' ≤ c ∧ c ≤ 'Z') := rfl
  rw [heq, decide_eq_true_eq]

theorem isAlpha_iff (c : Char) : c.isAlpha = true ↔ c.isUpper = true ∨ c.isLower = true := by
  have heq : c.isAlpha = (c.isUpper || c.isLower) := rfl
  rw [heq, Bool.or_eq_true]

/-- letters, digits and the three others are printable ASCII characters -/
theorem isprint_of_alphanum {c : Char} (h : c.isAlphanum = true) : isascii c = true ∧ isprint c = true := by
  have hrange : 48 ≤ c.toNat ∧ c.toNat ≤ 122 := by
    have hle (a b : Char) : a ≤ b ↔ a.toNat ≤ b.toNat := UInt32.le_iff_toNat_le
    have hvals : 'A'.toNat = 65 ∧ 'Z'.toNat = 90 ∧ 'a'.toNat = 97 ∧ 'z'.toNat = 122 ∧ '0'.toNat = 48 ∧
        '9'.toNat = 57 := ⟨rfl, rfl, rfl, rfl, rfl, rfl⟩
    rw [Char.isAlphanum, Bool.or_eq_true, isAlpha_iff, isUpper_iff, isLower_iff, hle, hle, hle, hle] at h
    rcases h with (h | h) | h
    · omega
    · omega
    · rw [Char.isDigit, Bool.and_eq_true, decide_eq_true_eq, decide_eq_true_eq] at h
      have hdigit : '0' ≤ c ∧ c ≤ '9' := h
      rw [hle, hle] at hdigit
      omega
  simp only [isascii, isprint, decide_eq_true_eq]
  omega

theorem loginChar_alphanum {c : Char} (h : loginChar c = true) : (c.isAlphanum || c = '_') = true := by
  simp only [loginChar, lower, Bool.or_eq_true, decide_eq_true_eq] at h
  rcases h with (h | h) | h
  · have halpha : c.isAlpha = true := (isAlpha_iff c).2 (.inr ((isLower_iff c).2 h))
    simp [Char.isAlphanum, halpha]
  · have hdigit : c.isDigit = true := by
      rw [Char.isDigit, Bool.and_eq_true, decide_eq_true_eq, decide_eq_true_eq]
      exact h
    simp [Char.isAlphanum, hdigit]
  · simp [h]

theorem valid_gecos_iff (gecos : Str) : valid_gecos gecos = true ↔ ∀ c ∈ gecos, gecosChar c = true := by
  rw [valid_gecos, List.all_eq_true]
  apply forall₂_congr
  intro c _
  by_cases hc : c.isAlphanum = true
  · obtain ⟨hascii, hprint⟩ := isprint_of_alphanum hc
    simp [gecosChar, hc, hascii, hprint]
  · by_cases hthree : c = '.' ∨ c = ' ' ∨ c = '_'
    · rcases hthree with rfl | rfl | rfl <;> decide
    · obtain ⟨h1, h2, h3⟩ : c ≠ '.' ∧ c ≠ ' ' ∧ c ≠ '_' := by simpa [not_or] using hthree
      simp [gecosChar, hc, h1, h2, h3]

/-- of a login the prompt has accepted, the wrapper only asks the length -/
theorem valid_user_iff {login : Str} (hchars : ∀ c ∈ login, loginChar c = true)
    (hhead : ∀ c ∈ login.head?, lower c = true) (hne : login ≠ []) :
    valid_user login = true ↔ login.length ≤ 30 := by
  obtain ⟨c, rest, rfl⟩ : ∃ c rest, login = c :: rest := List.exists_cons_of_ne_nil hne
  have hlow : c.isLower = true := by
    have hc : lower c = true := hhead c rfl
    rw [lower, decide_eq_true_eq] at hc
    exact (isLower_iff c).2 hc
  have halpha : c.isAlpha = true := (isAlpha_iff c).2 (.inr hlow)
  have hfirst : isascii c = true := (isprint_of_alphanum (by rw [Char.isAlphanum, halpha, Bool.true_or])).1
  have hall : ((c :: rest).all fun d => isascii d && isprint d && (d.isAlphanum || d = '_')) = true := by
    rw [List.all_eq_true]
    intro d hd
    have hd' := loginChar_alphanum (hchars d hd)
    have hprint : isascii d = true ∧ isprint d = true := by
      rcases Bool.or_eq_true _ _ ▸ hd' with h | h
      · exact isprint_of_alphanum h
      · rw [of_decide_eq_true h]
        decide
    rw [hprint.1, hprint.2, hd']
    rfl
  rw [valid_user]
  by_cases hlen : (c :: rest).length > 30
  · rw [if_pos hlen]
    exact ⟨fun h => absurd h Bool.false_ne_true, fun h => absurd h (by omega)⟩
  · rw [if_neg hlen]
    simp only [hfirst, halpha, hlow, hall, Bool.not_true, Bool.or_self, Bool.false_eq_true, if_false, true_iff]
    omega

theorem baditem_eq_zero (valid : Str → Bool) (val : Str) : baditem valid val = 0 ↔ val ≠ [] ∧ valid val = true := by
  rw [baditem]
  split_ifs with h1 h2
  · simp [h1]
  · simp only [false_iff, not_and]
    intro _ hv
    simp [hv] at h2
  · simp only [Bool.not_eq_true', Bool.not_eq_false] at h2
    simp [h1, h2]

/-! ## The agreement -/

theorem accepts_iff {r : Request} (hlogin : '\n' ∉ r.login) (hname : '\n' ∉ r.name) :
    Accepts r ↔ (cstr r.login ≠ [] ∧ valid_user (cstr r.login) = true) ∧
      (cstr (if r.name = NOVALUE then anonymous else r.name) ≠ [] ∧
        valid_gecos (cstr (if r.name = NOVALUE then anonymous else r.name)) = true) := by
  obtain ⟨args, left, hrun, huser, hcomment⟩ := runuseradd_request hlogin hname
  rw [← huser, ← hcomment, ← baditem_eq_zero, ← baditem_eq_zero, ← Nat.add_eq_zero_iff]
  refine ⟨fun ⟨args', left', hrun', herrs⟩ => ?_, fun herrs => ⟨args, left, hrun, herrs⟩⟩
  rw [hrun, Option.some.injEq, Prod.mk.injEq] at hrun'
  rw [hrun'.1]
  exact herrs

/-- what is trimmed off a line leaves nothing new in it -/
theorem newline_not_mem_trim {line : Option Str} (h : ∀ l ∈ line, '\n' ∉ l) : '\n' ∉ trim line := by
  intro hmem
  have hsub := mem_of_mem_strip hmem
  rcases line with _ | l
  · simp [truthy] at hsub
  · rw [Option.getD_some] at hsub
    split_ifs at hsub
    · exact h l rfl hsub
    · cases hsub

/-- a login the prompt has accepted gets the wrapper's check of its length, and of the text for no login -/
theorem login_accepted_iff {site : Site} {login : Str} (hvalid : isvalid site login = true) :
    (cstr (value login) ≠ [] ∧ valid_user (cstr (value login)) = true) ↔ 1 ≤ login.length ∧ login.length ≤ 30 := by
  obtain ⟨hchars, hhead⟩ := isvalid_chars hvalid
  by_cases hne : login = []
  · subst hne
    decide
  have hzero : login ≠ ['0'] := by
    rintro rfl
    exact absurd (hhead '0' rfl) (by decide)
  have hvalue : value login = login := by rw [value, truthy, if_pos (by simpa using ⟨hne, hzero⟩)]
  have hnul : '\x00' ∉ login := fun h => (loginChar_ne_newline (hchars _ h)).2 rfl
  rw [hvalue, cstr_of_not_mem hnul, valid_user_iff hchars hhead hne, Nat.one_le_iff_ne_zero, Ne, Ne,
    List.length_eq_zero_iff]

/-- **The wrapper accepts what the prompts have accepted exactly** when the login is not empty and has at most 30
characters, and the name is not given, or is the text that stands for no name, or has only letters, digits, dots, blanks
and underscores in it, at least one of them. -/
theorem wrapper_accepts_iff (site : Site) (loginLine nameLine : Option Str) (homedir lockdir shell hashed : Str)
    (hlogin : ∀ l ∈ loginLine, '\n' ∉ l) (hname : ∀ l ∈ nameLine, '\n' ∉ l)
    (hvalid : isvalid site (loginValue loginLine) = true) :
    Accepts ⟨value (loginValue loginLine), value (nameValue nameLine), homedir, lockdir, shell, hashed⟩ ↔
      (1 ≤ (loginValue loginLine).length ∧ (loginValue loginLine).length ≤ 30) ∧
      (truthy (trim nameLine) = false ∨ trim nameLine = NOVALUE ∨
        (cstr (trim nameLine) ≠ [] ∧ ∀ c ∈ cstr (trim nameLine), gecosChar c = true)) := by
  have hloginline : '\n' ∉ value (loginValue loginLine) := by
    rw [value]
    split_ifs
    · exact newline_not_mem_trim hlogin
    · decide
  have hgiven : value (nameValue nameLine) = nameValue nameLine := by
    rw [value, nameValue]
    by_cases htruthy : truthy (trim nameLine) = true
    · rw [if_pos htruthy, if_pos htruthy]
    · rw [if_neg htruthy, if_pos (by decide)]
  have hnameline : '\n' ∉ value (nameValue nameLine) := by
    rw [hgiven, nameValue]
    split_ifs
    · exact newline_not_mem_trim hname
    · decide
  rw [accepts_iff hloginline hnameline, login_accepted_iff hvalid, hgiven]
  apply and_congr Iff.rfl
  by_cases htruthy : truthy (trim nameLine) = true
  · rw [nameValue, if_pos htruthy]
    by_cases hno : trim nameLine = NOVALUE
    · rw [if_pos hno]
      exact ⟨fun _ => .inr (.inl hno), fun _ => by decide⟩
    · rw [if_neg hno, valid_gecos_iff]
      simp only [htruthy, hno, Bool.true_eq_false, false_or]
  · rw [nameValue, if_neg htruthy]
    have hanonymous : cstr anonymous ≠ [] ∧ valid_gecos (cstr anonymous) = true := by decide
    rw [if_neg (show anonymous ≠ NOVALUE by decide)]
    exact ⟨fun _ => .inl (Bool.eq_false_iff.2 htruthy), fun _ => hanonymous⟩

/-- a site that nobody has an account on yet -/
def emptySite : Site := ⟨fun _ => false, fun _ => false, fun _ => false⟩

/-- a name with blanks and a dot in it, between white space -/
theorem wrapper_accepts_plain :
    Accepts ⟨value "ann_2".toList, value "Ann B. Marie".toList, [], [], [], []⟩ :=
  (wrapper_accepts_iff emptySite (some " ann_2".toList) (some "Ann B. Marie ".toList) [] [] [] [] (by decide)
    (by decide) (by decide)).2 (by decide)

/-- the prompt takes a name with a hyphen, and the wrapper refuses it -/
theorem hyphen_refused : isvalid emptySite (loginValue (some "ann".toList)) = true ∧
    ¬Accepts ⟨value (loginValue (some "ann".toList)), value (nameValue (some "Ann-Marie".toList)), "/a/n/ann".toList,
      "/var/pnewuser/ann".toList, "/bin/sh".toList, "*".toList⟩ := by
  refine ⟨by decide, ?_⟩
  rw [accepts_iff (by decide) (by decide)]
  decide

end MNetSoft.Pnewuser
