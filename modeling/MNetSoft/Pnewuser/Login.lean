/-
The test of a login name in `Newuser::Data::Login`, with the sources it asks: the passwd database, the alias files, the
files of bad names and those of bad patterns. A file that cannot be opened is `none`, and is passed over. What a regular
expression matches is `regex`; an empty one stands for the last one that has matched in the scope, `last`, and matches
everything if there is none.

- `isvalid_iff`: what the test comes to.
- `policy_iff`: exactly when it is the policy for logins.
- `not_policy`: logins that are too short, an account of the superuser, an empty line.
-/
import Mathlib.Tactic
import MNetSoft.Core.Pieces
import MNetSoft.Pnewuser.Fields

namespace MNetSoft.Pnewuser.Login

open MNetSoft.CString

/-! ## Lines and patterns -/

/-- a regular expression, by what it matches -/
abbrev Pattern := Str → Bool

def chomp (l : Str) : Str := if l.getLast? = some '\n' then l.dropLast else l

/-- `\#.*` -/
def comment : Pattern := fun s => s.contains '#'

/-- `^\s+` -/
def leading : Pattern := fun s => s.head?.any isspace

/-- `\s+$` -/
def trailing : Pattern := fun s => s.getLast?.any isspace

def uncomment (s : Str) : Str := s.takeWhile (· ≠ '#')

/-- what is left of a line -/
def bare (l : Str) : Str := strip (uncomment (chomp l))

/-- the last pattern that has matched, after the three substitutions -/
def lastMatch (last : Option Pattern) (l : Str) : Option Pattern :=
  let s := chomp l
  let last := if comment s then some comment else last
  let s := uncomment s
  let last := if leading s then some leading else last
  let s := skipSpace s
  if trailing s then some trailing else last

/-! ## The test -/

/-- what the test of a login asks; an object of `Mail::Alias` is its `exists` -/
structure Sources where
  passwd : List (Str × ℕ)
  system : Str → Bool
  aliasfiles : List (Str → Bool)
  badnamesfiles : List (Option Str)
  badpatternsfiles : List (Option Str)
  regex : Str → Pattern
  last : Option Pattern

variable (s : Sources) (login : Str)

/-- `getpwnam` in scalar context is the uid -/
def getpwnam : Option ℕ := (s.passwd.find? fun e => e.1 = cstr login).map fun e => e.2

def isactivealias : Bool := s.system login || s.aliasfiles.any fun exist => exist login

/-- the lines of the files that can be opened -/
def linesOf (files : List (Option Str)) : List Str := files.flatMap fun file => rawLines (file.getD [])

def isbadname : Bool := (linesOf s.badnamesfiles).any fun l => bare l = login

/-- `$login =~ $badpattern` -/
def matchesLine (l : Str) : Bool :=
  if bare l = [] then (lastMatch s.last l).all fun pattern => pattern login else s.regex (bare l) login

def name_matches_bad_pattern : Bool := (linesOf s.badpatternsfiles).any fun l => matchesLine s login l

/-- the site as the test sees it; the uid 0 is false -/
def Sources.site : Site :=
  ⟨fun login => (getpwnam s login).any (· ≠ 0) || isactivealias s login, isbadname s, name_matches_bad_pattern s⟩

/-! ## The policy -/

/-- what a login has to be -/
structure Permitted : Prop where
  length : 2 ≤ login.length
  first : ∀ c ∈ login.head?, lower c = true
  chars : ∀ c ∈ login, loginChar c = true
  account : ∀ e ∈ s.passwd, e.1 ≠ login
  noalias : isactivealias s login = false
  badname : ∀ l ∈ linesOf s.badnamesfiles, bare l ≠ [] → bare l ≠ login
  badpattern : ∀ l ∈ linesOf s.badpatternsfiles, bare l ≠ [] → s.regex (bare l) login = false

/-- without the lines that are blank or only a comment -/
def unblank (files : List (Option Str)) : List (Option Str) :=
  files.map (Option.map fun content => ((rawLines content).filter fun l => bare l ≠ []).flatten)

def Sources.unblanked : Sources :=
  { s with badnamesfiles := unblank s.badnamesfiles, badpatternsfiles := unblank s.badpatternsfiles }

/-- the test accepts what is permitted, and blank lines make no difference to it -/
structure Policy : Prop where
  accepts : isvalid s.site login = true ↔ Permitted s login
  blank : isvalid s.unblanked.site login = isvalid s.site login

/-- there is a reason to refuse the login, of those that the test finds -/
structure Found : Prop where
  reason : (∃ c ∈ login, loginChar c = false) ∨ (∃ c ∈ login.head?, lower c = false) ∨
    (∃ uid ∈ getpwnam s login, uid ≠ 0) ∨ isactivealias s login = true ∨
    (∃ l ∈ linesOf s.badnamesfiles, bare l ≠ [] ∧ bare l = login) ∨
    ∃ l ∈ linesOf s.badpatternsfiles, bare l ≠ [] ∧ s.regex (bare l) login = true

/-! ## Lines -/

theorem linesOf_unblank (files : List (Option Str)) :
    linesOf (unblank files) = (linesOf files).filter fun l => bare l ≠ [] := by
  have hfile : ∀ file : Option Str,
      rawLines ((file.map fun content => ((rawLines content).filter fun l => bare l ≠ []).flatten).getD []) =
        (rawLines (file.getD [])).filter fun l => bare l ≠ [] := by
    intro file
    cases file with
    | none => rfl
    | some content => exact rawLines_filter _ content
  induction files with
  | nil => rfl
  | cons file files ih =>
    rw [linesOf, unblank, List.map_cons, List.flatMap_cons, hfile]
    change _ ++ linesOf (unblank files) = List.filter _ (linesOf (file :: files))
    rw [ih, linesOf, linesOf, List.flatMap_cons, List.filter_append]

theorem strip_eq_nil {t : Str} (h : strip t = []) : ∀ c ∈ t, isspace c = true := by
  have hall := List.rdropWhile_eq_nil_iff.1 h
  have hskip : skipSpace t = [] := by
    by_contra hne
    have hhead : isspace ((skipSpace t).head hne) = false := List.head_dropWhile_not isspace hne
    rw [hall _ (List.head_mem hne)] at hhead
    cases hhead
  exact List.dropWhile_eq_nil_iff.1 hskip

section Characters

variable {s} {login}

/-- the two patterns of the program that can have matched last on a blank line do not match a login -/
theorem comment_leading_false (hchars : ∀ c ∈ login, loginChar c = true) :
    comment login = false ∧ leading login = false := by
  constructor
  · rw [comment, List.contains_eq_mem, decide_eq_false_iff_not]
    intro hmem
    exact absurd (hchars _ hmem) (by decide)
  · cases login with
    | nil => rfl
    | cons c login =>
      have hc := hchars c List.mem_cons_self
      rw [Bool.eq_false_iff]
      intro hspace
      have hwhite : c ∈ [' ', '\t', '\n', '\x0b', '\x0c', '\r'] := of_decide_eq_true hspace
      have hnone : ∀ d ∈ [' ', '\t', '\n', '\x0b', '\x0c', '\r'], loginChar d = false := by decide
      rw [hnone c hwhite] at hc
      cases hc

/-- of the blank lines only those that are quite empty ask more of a login than its characters -/
theorem blank_matches {l : Str} (hchars : ∀ c ∈ login, loginChar c = true) (hbare : bare l = []) :
    ((lastMatch s.last l).all fun pattern => pattern login) = true ↔
      chomp l = [] ∧ ∀ pattern ∈ s.last, pattern login = true := by
  obtain ⟨hcomment, hleading⟩ := comment_leading_false hchars
  have hspace := strip_eq_nil hbare
  have hskip : skipSpace (uncomment (chomp l)) = [] := List.dropWhile_eq_nil_iff.2 hspace
  have hlast : lastMatch s.last l = if leading (uncomment (chomp l)) then some leading
      else if comment (chomp l) then some comment else s.last := by
    rw [lastMatch, hskip]
    exact if_neg Bool.false_ne_true
  rw [hlast]
  by_cases hwhite : leading (uncomment (chomp l)) = true
  · have hne : chomp l ≠ [] := by
      intro hnil
      rw [hnil] at hwhite
      cases hwhite
    rw [if_pos hwhite, Option.all_some, hleading]
    exact iff_of_false Bool.false_ne_true fun h => hne h.1
  · have hnil : uncomment (chomp l) = [] := by
      cases hcases : uncomment (chomp l) with
      | nil => rfl
      | cons c t =>
        rw [hcases] at hwhite hspace
        exact absurd (hspace c List.mem_cons_self) hwhite
    rw [if_neg hwhite]
    by_cases hhash : comment (chomp l) = true
    · have hne : chomp l ≠ [] := by
        intro hnil
        rw [hnil] at hhash
        cases hhash
      rw [if_pos hhash, Option.all_some, hcomment]
      exact iff_of_false Bool.false_ne_true fun h => hne h.1
    · have hempty : chomp l = [] := by
        cases hcases : chomp l with
        | nil => rfl
        | cons c t =>
          rw [hcases] at hnil hhash
          have hc : c ≠ '#' := by
            rintro rfl
            exact hhash rfl
          rw [uncomment, List.takeWhile_cons_of_pos (by simpa using hc)] at hnil
          cases hnil
      rw [if_neg hhash]
      simp [hempty, Option.all_eq_true]

end Characters

/-! ## What the test comes to -/

section Policy

variable {s} {login}

theorem isbadname_iff : isbadname s login = true ↔
    (∃ l ∈ linesOf s.badnamesfiles, bare l ≠ [] ∧ bare l = login) ∨
      (login = [] ∧ ∃ l ∈ linesOf s.badnamesfiles, bare l = []) := by
  rw [isbadname, List.any_eq_true]
  constructor
  · intro h
    obtain ⟨l, hl, heq⟩ := h
    have heq := of_decide_eq_true heq
    by_cases hbare : bare l = []
    · exact Or.inr ⟨heq.symm.trans hbare, l, hl, hbare⟩
    · exact Or.inl ⟨l, hl, hbare, heq⟩
  · intro h
    rcases h with ⟨l, hl, -, heq⟩ | ⟨hnil, l, hl, hbare⟩
    · exact ⟨l, hl, decide_eq_true heq⟩
    · exact ⟨l, hl, decide_eq_true (hbare.trans hnil.symm)⟩

/-- an empty line is a pattern that the login matches -/
def EmptyLine (s : Sources) (login : Str) : Prop :=
  (∃ l ∈ linesOf s.badpatternsfiles, chomp l = []) ∧ ∀ pattern ∈ s.last, pattern login = true

theorem bare_of_chomp {l : Str} (h : chomp l = []) : bare l = [] := by
  rw [bare, h]
  rfl

theorem name_matches_iff (hchars : ∀ c ∈ login, loginChar c = true) : name_matches_bad_pattern s login = true ↔
    (∃ l ∈ linesOf s.badpatternsfiles, bare l ≠ [] ∧ s.regex (bare l) login = true) ∨ EmptyLine s login := by
  rw [name_matches_bad_pattern, List.any_eq_true]
  constructor
  · intro h
    obtain ⟨l, hl, hmatch⟩ := h
    rw [matchesLine] at hmatch
    by_cases hbare : bare l = []
    · rw [if_pos hbare] at hmatch
      obtain ⟨hchomp, hlast⟩ := (blank_matches hchars hbare).1 hmatch
      exact Or.inr ⟨⟨l, hl, hchomp⟩, hlast⟩
    · rw [if_neg hbare] at hmatch
      exact Or.inl ⟨l, hl, hbare, hmatch⟩
  · intro h
    rcases h with ⟨l, hl, hbare, hmatch⟩ | ⟨⟨l, hl, hchomp⟩, hlast⟩
    · refine ⟨l, hl, ?_⟩
      rw [matchesLine, if_neg hbare]
      exact hmatch
    · have hbare := bare_of_chomp hchomp
      refine ⟨l, hl, ?_⟩
      rw [matchesLine, if_pos hbare]
      exact (blank_matches hchars hbare).2 ⟨hchomp, hlast⟩

/-- what `isvalid` is, by the three questions it asks of the site and the two of the characters -/
theorem isvalid_eq_true (site : Site) : isvalid site login = true ↔
    ((∀ c ∈ login, loginChar c = true) ∧ ∀ c ∈ login.head?, lower c = true) ∧
      site.used login = false ∧ site.badname login = false ∧ site.badpattern login = false := by
  constructor
  · intro h
    refine ⟨isvalid_chars h, ?_⟩
    rw [isvalid, lastError] at h
    split_ifs at h with h1 h2 h3
    · cases h
    · cases h
    · cases h
    rw [Bool.or_eq_true, not_or, Bool.not_eq_true, Bool.not_eq_true] at h2
    exact ⟨Bool.not_eq_true _ ▸ h1, h2⟩
  · intro h
    obtain ⟨⟨hchars, hfirst⟩, hused, hname, hpattern⟩ := h
    have hany : (login.any fun c => !loginChar c) = false := by
      rw [List.any_eq_false]
      intro c hc
      rw [hchars c hc]
      decide
    have hhead : (login.head?.any fun c => !lower c) = false := by
      cases hc : login.head? with
      | none => rfl
      | some c =>
        rw [Option.any_some, hfirst c hc]
        rfl
    rw [isvalid, lastError, hused, hname, hpattern, hany, hhead]
    rfl

theorem not_found_iff : ¬Found s login ↔
    ((∀ c ∈ login, loginChar c = true) ∧ ∀ c ∈ login.head?, lower c = true) ∧
      (¬(∃ uid ∈ getpwnam s login, uid ≠ 0) ∧ ¬isactivealias s login = true) ∧
      ¬(∃ l ∈ linesOf s.badnamesfiles, bare l ≠ [] ∧ bare l = login) ∧
      ¬∃ l ∈ linesOf s.badpatternsfiles, bare l ≠ [] ∧ s.regex (bare l) login = true := by
  have hchars : (∀ c ∈ login, loginChar c = true) ↔ ¬∃ c ∈ login, loginChar c = false := by simp
  have hfirst : (∀ c ∈ login.head?, lower c = true) ↔ ¬∃ c ∈ login.head?, lower c = false := by simp
  have hfound : Found s login ↔ _ := ⟨fun h => h.reason, fun h => ⟨h⟩⟩
  rw [hfound, hchars, hfirst]
  simp only [not_or, and_assoc]

/-- **What the test comes to**: it accepts a login if it finds no reason against it, and no blank line is one. -/
theorem isvalid_iff : isvalid s.site login = true ↔
    ¬Found s login ∧ ¬(login = [] ∧ ∃ l ∈ linesOf s.badnamesfiles, bare l = []) ∧ ¬EmptyLine s login := by
  have hused : s.site.used login = false ↔
      ¬(∃ uid ∈ getpwnam s login, uid ≠ 0) ∧ ¬isactivealias s login = true := by
    change ((getpwnam s login).any (· ≠ 0) || isactivealias s login) = false ↔ _
    rw [Bool.or_eq_false_iff, ← Bool.not_eq_true, Option.any_eq_true, Bool.not_eq_true]
    simp only [decide_eq_true_eq, Option.mem_def]
  have hname : s.site.badname login = false ↔ ¬((∃ l ∈ linesOf s.badnamesfiles, bare l ≠ [] ∧ bare l = login) ∨
      (login = [] ∧ ∃ l ∈ linesOf s.badnamesfiles, bare l = [])) := by
    rw [← isbadname_iff, Bool.not_eq_true]
    exact Iff.rfl
  have hpattern : (∀ c ∈ login, loginChar c = true) → (s.site.badpattern login = false ↔
      ¬((∃ l ∈ linesOf s.badpatternsfiles, bare l ≠ [] ∧ s.regex (bare l) login = true) ∨ EmptyLine s login)) := by
    intro hchars
    rw [← name_matches_iff hchars, Bool.not_eq_true]
    exact Iff.rfl
  rw [isvalid_eq_true, not_found_iff, hused, hname, not_or]
  constructor
  · intro h
    obtain ⟨hshape, haccount, ⟨hnames, hblank⟩, hpatterns⟩ := h
    rw [hpattern hshape.1, not_or] at hpatterns
    exact ⟨⟨hshape, haccount, hnames, hpatterns.1⟩, hblank, hpatterns.2⟩
  · intro h
    obtain ⟨⟨hshape, haccount, hnames, hpatterns⟩, hblank, hempty⟩ := h
    rw [hpattern hshape.1, not_or]
    exact ⟨hshape, haccount, ⟨hnames, hblank⟩, hpatterns, hempty⟩

/-- what is found does not depend on the blank lines -/
theorem found_unblanked : Found s.unblanked login ↔ Found s login := by
  have hlines : ∀ files, ∀ P : Str → Prop, (∃ l ∈ linesOf (unblank files), bare l ≠ [] ∧ P l) ↔
      ∃ l ∈ linesOf files, bare l ≠ [] ∧ P l := by
    intro files P
    rw [linesOf_unblank]
    simp only [List.mem_filter, decide_eq_true_eq, ne_eq]
    exact exists_congr fun l => ⟨fun h => ⟨h.1.1, h.2⟩, fun h => ⟨⟨h.1, h.2.1⟩, h.2⟩⟩
  rw [← not_iff_not, not_found_iff, not_found_iff]
  exact and_congr Iff.rfl (and_congr Iff.rfl (and_congr (not_congr (hlines _ _)) (not_congr (hlines _ _))))

theorem isvalid_unblanked : isvalid s.unblanked.site login = true ↔ ¬Found s login := by
  have hnone : ∀ files, ¬∃ l ∈ linesOf (unblank files), bare l = [] := by
    intro files h
    obtain ⟨l, hl, hbare⟩ := h
    rw [linesOf_unblank, List.mem_filter, decide_eq_true_eq] at hl
    exact hl.2 hbare
  rw [isvalid_iff, found_unblanked]
  refine and_iff_left ⟨fun h => hnone _ h.2, fun h => ?_⟩
  obtain ⟨l, hl, hchomp⟩ := h.1
  exact hnone _ ⟨l, hl, bare_of_chomp hchomp⟩

/-- the policy, but for the two things it asks of a login that the test does not -/
theorem permitted_iff : Permitted s login ↔
    ¬Found s login ∧ 2 ≤ login.length ∧ ∀ e ∈ s.passwd, e.1 ≠ login := by
  constructor
  · intro h
    refine ⟨not_found_iff.2 ⟨⟨h.chars, h.first⟩, ⟨?_, ?_⟩, ?_, ?_⟩, h.length, h.account⟩
    · intro hentry
      obtain ⟨uid, huid, -⟩ := hentry
      obtain ⟨e, he, -⟩ := Option.map_eq_some_iff.1 huid
      have hnul : '\x00' ∉ login := fun hmem => (loginChar_ne_newline (h.chars _ hmem)).2 rfl
      have hfound := List.find?_some he
      have hname : e.1 = cstr login := of_decide_eq_true hfound
      rw [cstr_of_not_mem hnul] at hname
      exact h.account e (List.mem_of_find?_eq_some he) hname
    · rw [h.noalias]
      exact Bool.false_ne_true
    · intro hline
      obtain ⟨l, hl, hbare, heq⟩ := hline
      exact h.badname l hl hbare heq
    · intro hline
      obtain ⟨l, hl, hbare, hmatch⟩ := hline
      rw [h.badpattern l hl hbare] at hmatch
      cases hmatch
  · intro h
    obtain ⟨hfound, hlength, haccount⟩ := h
    obtain ⟨⟨hchars, hfirst⟩, ⟨-, halias⟩, hnames, hpatterns⟩ := not_found_iff.1 hfound
    refine ⟨hlength, hfirst, hchars, haccount, Bool.eq_false_iff.2 halias, ?_, ?_⟩
    · intro l hl hbare heq
      exact hnames ⟨l, hl, hbare, heq⟩
    · intro l hl hbare
      exact Bool.eq_false_iff.2 fun hmatch => hpatterns ⟨l, hl, hbare, hmatch⟩

/-- **When the test is the policy.** For every login and all that is asked about it: exactly if there is a reason that
the test finds, or the login has two characters or more and no account, and no empty line is a pattern that it
matches. -/
theorem policy_iff (s : Sources) (login : Str) : Policy s login ↔
    Found s login ∨ (2 ≤ login.length ∧ (∀ e ∈ s.passwd, e.1 ≠ login) ∧ ¬EmptyLine s login) := by
  by_cases hfound : Found s login
  · -- refused with and without the blank lines
    have hrefused : isvalid s.site login = false := Bool.eq_false_iff.2 fun h => (isvalid_iff.1 h).1 hfound
    have hrefused' : isvalid s.unblanked.site login = false :=
      Bool.eq_false_iff.2 fun h => isvalid_unblanked.1 h hfound
    refine iff_of_true ⟨?_, hrefused'.trans hrefused.symm⟩ (Or.inl hfound)
    rw [hrefused]
    exact iff_of_false Bool.false_ne_true fun h => (permitted_iff.1 h).1 hfound
  · have haccepted : isvalid s.unblanked.site login = true := isvalid_unblanked.2 hfound
    rw [or_iff_right hfound]
    constructor
    · intro h
      have hvalid : isvalid s.site login = true := h.blank.symm.trans haccepted
      obtain ⟨-, hlength, haccount⟩ := permitted_iff.1 (h.accepts.1 hvalid)
      exact ⟨hlength, haccount, (isvalid_iff.1 hvalid).2.2⟩
    · intro h
      obtain ⟨hlength, haccount, hempty⟩ := h
      have hne : login ≠ [] := by
        rintro rfl
        exact absurd hlength (by decide)
      have hvalid : isvalid s.site login = true := isvalid_iff.2 ⟨hfound, fun hblank => hne hblank.1, hempty⟩
      exact ⟨iff_of_true hvalid (permitted_iff.2 ⟨hfound, hlength, haccount⟩), haccepted.trans hvalid.symm⟩

end Policy

/-- a site with accounts and a file of bad patterns, which are plain texts -/
def plain (passwd : List (Str × ℕ)) (badpatterns : Str) : Sources :=
  ⟨passwd, fun _ => false, [], [], [some badpatterns], fun pattern login => login.tails.any pattern.isPrefixOf, none⟩

/-- **Logins that the policy refuses and the test accepts**: none at all, one character, the superuser's. **And one that
it permits and the test refuses**, for an empty line in a file of bad patterns. -/
theorem not_policy : ¬Policy (plain [] []) [] ∧ ¬Policy (plain [] []) "a".toList ∧
    ¬Policy (plain [("root".toList, 0)] []) "root".toList ∧ ¬Policy (plain [] "\n".toList) "ann".toList := by
  refine ⟨fun h => ?_, fun h => ?_, fun h => ?_, fun h => ?_⟩
  · have hpermitted := h.accepts.1 (by decide)
    exact absurd hpermitted.length (by decide)
  · have hpermitted := h.accepts.1 (by decide)
    exact absurd hpermitted.length (by decide)
  · have hpermitted := h.accepts.1 (by decide)
    exact hpermitted.account _ List.mem_cons_self rfl
  · have hblank := h.blank
    revert hblank
    decide

end MNetSoft.Pnewuser.Login
