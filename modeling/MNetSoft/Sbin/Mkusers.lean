/-
`mkusers.pl`, which writes the page of users with web pages: users of the passwd database who have an index file, and
those of the file user.urls, without those of web.ignore. The page has a part for each letter.

An index file that is there is reason enough for a page, whether there is a `.dontlist` or not: `haswebpage` looks for
this file only if the directory cannot be used. For user.urls, the home directory is looked up among the shells.
- `mem_pages`: who gets a page.
- `count_output`: a name that begins with a letter is in the output once, if it gets a page.
- `mkusers_right_iff`: the right users get a page if and only if nobody is there who has opted out or is only in
  user.urls, up to homes that are shells.
- `opted_out`: a user with a `.dontlist`.

Lines of the files are read in one way, for the program and for what it should do: `tidy_plain` says what this is.
-/
import Mathlib.Tactic
import Mathlib.Data.List.AList
import Mathlib.Data.List.Lex
import Mathlib.Data.List.Sort
import Mathlib.Order.Lex
import MNetSoft.Core.CString
import MNetSoft.Sbin.Reapcheck

namespace MNetSoft.Sbin.Mkusers

open MNetSoft.CString

/-! ## Model -/

def MINUID : ℕ := 131073

def NOBODY : Str := "nobody".toList

/-- what the file tests of perl say: `-d`, `-x`, `-e`, `-f` and `-r` -/
structure FileSystem where
  d : Str → Bool
  x : Str → Bool
  e : Str → Bool
  f : Str → Bool
  r : Str → Bool
  exists_of_f : ∀ path, f path → e path
  /-- what is found in a directory is found through it -/
  usable : ∀ dir name, dir ≠ [] → '/' ∉ name → e (dir ++ '/' :: name) → d dir ∧ x dir

structure Pwent where
  login : Str
  uid : ℕ
  gecos : Str
  homedir : Str
  shell : Str
deriving DecidableEq, Repr

/-- everything the program reads; a file is `none` if it cannot be opened -/
structure System where
  passwd : List Pwent
  fs : FileSystem
  etcShells : Option Str
  userUrls : Option Str
  webIgnore : Option Str

/-- `s/\s+//`: without the first white space -/
def dropSpace (line : Str) : Str :=
  line.takeWhile (fun c => !isspace c) ++ skipSpace (line.dropWhile fun c => !isspace c)

/-- `chomp; s/\s+//; s/#.*//` -/
def tidy (line : Str) : Str := (dropSpace (chomp line)).takeWhile (· ≠ '#')

/-- the lines of a file, without those that are empty then -/
def tidyLines (file : Option Str) : List Str := ((readLines (file.getD [])).map tidy).filter (· ≠ [])

def System.shells (sys : System) : List Str := tidyLines sys.etcShells

def badhome (fs : FileSystem) (dir : Str) : Bool :=
  dir = "/nonexistent".toList || dir = "/".toList || !(fs.d dir && fs.x dir)

def badshell (sys : System) (shell : Str) : Bool := !(sys.shells.any fun s => shell = s)

def INDEX_FORMATS : List Str := ["xhtml", "html", "htm", "php5", "php", "pl", "shtml", "cgi"].map String.toList

def indexFile (webdir format : Str) : Str := webdir ++ "/index.".toList ++ format

def haswebpage (fs : FileSystem) (webdir : Str) : Option Str :=
  if !((fs.d webdir && fs.x webdir) || fs.e (webdir ++ "/.dontlist".toList)) then none
  else (INDEX_FORMATS.map (indexFile webdir)).find? fun index => fs.f index && fs.r index

abbrev Hash := AList fun _ : Str => Str

structure Tables where
  pages : Hash
  realnames : Hash

def webdir (homedir : Str) : Str := homedir ++ "/www".toList

/-- one entry of the passwd database -/
def passwdEntry (sys : System) (t : Tables) (e : Pwent) : Tables :=
  let t := { t with realnames := t.realnames.insert e.login (e.gecos.takeWhile (· ≠ ',')) }
  if e.uid < MINUID || e.login = NOBODY || badhome sys.fs e.homedir || badshell sys e.shell then t
  else
    match haswebpage sys.fs (webdir e.homedir) with
    | none => t
    | some _ => { t with pages := t.pages.insert e.login ("/~".toList ++ e.login) }

def getpwnam (sys : System) (login : Str) : Option Pwent := sys.passwd.find? fun e => e.login = login

/-- one line of user.urls; what is undefined is equal to the empty string -/
def userUrl (sys : System) (t : Tables) (line : Str) : Tables :=
  let fields := line.splitOn ':'
  let login := fields.headD []
  let url := fields[1]?
  let gecos := fields[2]?
  let pw := getpwnam sys login
  let homedir := (pw.map Pwent.homedir).getD []
  let shell := (pw.map Pwent.shell).getD []
  if !badshell sys homedir && !badshell sys shell then
    { pages := match url with
        | none => t.pages
        | some url => t.pages.insert login url
      realnames := match gecos with
        | none => t.realnames
        | some gecos => t.realnames.insert login gecos }
  else t

/-- both hashes, when everything has been read -/
def tables (sys : System) : Tables :=
  let t := sys.passwd.foldl (passwdEntry sys) ⟨∅, ∅⟩
  let t := (tidyLines sys.userUrls).foldl (userUrl sys) t
  { t with pages := (tidyLines sys.webIgnore).foldl (fun pages login => pages.erase login) t.pages }

/-- `sort keys`, put into lists by their first character -/
def alphausers (pages : Hash) : Option Char → List Str :=
  (pages.keys.insertionSort (· ≤ ·)).foldl
    (fun users key => Function.update users key.head? (users key.head? ++ [key])) fun _ => []

def ALPHABET : List Char := "abcdefghijklmnopqrstuvwxyz".toList

/-- an entry of the page: the login, the URL, and the name -/
structure Item where
  login : Str
  url : Option Str
  realname : Option Str
deriving DecidableEq, Repr

/-- the lists of the page -/
def output (sys : System) : List Item :=
  let t := tables sys
  ALPHABET.flatMap fun letter => (alphausers t.pages (some letter)).map fun login =>
    ⟨login, t.pages.lookup login, t.realnames.lookup login⟩

/-! ## Who should be on the page -/

/-- a usable home and a listed shell -/
def UsableAccount (sys : System) (e : Pwent) : Prop := badhome sys.fs e.homedir = false ∧ e.shell ∈ sys.shells

/-- a user with an index file that can be read -/
def OwnPage (sys : System) (e : Pwent) : Prop :=
  MINUID ≤ e.uid ∧ e.login ≠ NOBODY ∧ UsableAccount sys e ∧
    ∃ format ∈ INDEX_FORMATS, sys.fs.f (indexFile (webdir e.homedir) format) ∧
      sys.fs.r (indexFile (webdir e.homedir) format)

def OptedOut (sys : System) (e : Pwent) : Prop := sys.fs.e (webdir e.homedir ++ "/.dontlist".toList)

/-- a line of user.urls for a login -/
def UrlLine (sys : System) (login url : Str) : Prop :=
  ∃ line ∈ tidyLines sys.userUrls, ∃ rest, line.splitOn ':' = login :: url :: rest

/-- a URL in user.urls and an account that can be used -/
def UrlPage (sys : System) (login : Str) : Prop :=
  (∃ url, UrlLine sys login url ∧ url ≠ []) ∧ ∃ e, getpwnam sys login = some e ∧ UsableAccount sys e

def Ignored (sys : System) (login : Str) : Prop := login ∈ tidyLines sys.webIgnore

def Wanted (sys : System) (login : Str) : Prop :=
  ¬ Ignored sys login ∧
    ((∃ e ∈ sys.passwd, e.login = login ∧ OwnPage sys e ∧ ¬ OptedOut sys e) ∨ UrlPage sys login)

/-- The right users get a page, and each of them whose name begins with a letter is in the output once. -/
def MkusersRight (sys : System) : Prop :=
  (∀ login, login ∈ (tables sys).pages ↔ Wanted sys login) ∧
    ∀ login ∈ (tables sys).pages, (∃ letter ∈ ALPHABET, login.head? = some letter) →
      ((output sys).map Item.login).count login = 1

/-! ## Lines -/

section Lines

variable {word space rest : Str}

theorem dropSpace_word (hword : ∀ c ∈ word, isspace c = false) (s : Str) :
    dropSpace (word ++ s) = word ++ dropSpace s := by
  have hns : ∀ c ∈ word, (!isspace c) = true := fun c hc => by rw [hword c hc]; rfl
  rw [dropSpace, dropSpace, List.takeWhile_append_of_pos hns, List.dropWhile_append_of_pos hns, List.append_assoc]

theorem dropSpace_space (hspace : ∀ c ∈ space, isspace c = true) (hrest : ∀ c ∈ rest.head?, isspace c = false) :
    skipSpace (space ++ rest) = rest := by
  rw [skipSpace, List.dropWhile_append_of_pos hspace]
  cases rest with
  | nil => rfl
  | cons c rest => rw [List.dropWhile_cons_of_neg (by rw [hrest c rfl]; exact Bool.false_ne_true)]

/-- what is left of a line that begins with white space -/
theorem dropSpace_of_space (hspace : ∀ c ∈ space, isspace c = true) (hne : space ≠ [])
    (hrest : ∀ c ∈ rest.head?, isspace c = false) : dropSpace (space ++ rest) = rest := by
  obtain ⟨c, space, rfl⟩ := List.exists_cons_of_ne_nil hne
  have hc : (!isspace c) = false := by rw [hspace c List.mem_cons_self]; rfl
  rw [dropSpace, List.cons_append, List.takeWhile_cons_of_neg (by simp [hc]), List.dropWhile_cons_of_neg (by simp [hc])]
  exact dropSpace_space hspace hrest

theorem takeWhile_comment (hword : '#' ∉ word) (hrest : ∀ c ∈ rest.head?, c = '#') :
    (word ++ rest).takeWhile (· ≠ '#') = word := by
  have hne : ∀ c ∈ word, decide (c ≠ '#') = true := fun c hc => decide_eq_true fun h => hword (h ▸ hc)
  rw [List.takeWhile_append_of_pos hne]
  cases rest with
  | nil => exact List.append_nil word
  | cons c rest => rw [List.takeWhile_cons_of_neg (by simp [hrest c rfl]), List.append_nil]

/-- **What a line says**: a word that stands alone, with white space in front of it or behind it, and a comment. -/
theorem tidy_plain {before behind comment : Str} (hbefore : ∀ c ∈ before, isspace c = true)
    (hword : ∀ c ∈ word, isspace c = false ∧ c ≠ '#') (hbehind : ∀ c ∈ behind, isspace c = true)
    (hone : before = [] ∨ behind = []) (hcomment : ∀ c ∈ comment.head?, c = '#') :
    tidy (before ++ (word ++ (behind ++ comment)) ++ ['\n']) = word := by
  have hns : ∀ c ∈ comment.head?, isspace c = false := fun c hc => by rw [hcomment c hc]; rfl
  have hhash : '#' ∉ word := fun h => (hword '#' h).2 rfl
  have hchomp : ∀ l : Str, chomp (l ++ ['\n']) = l := fun l => by simp [chomp]
  -- what is left of the line begins with the word, and a comment follows it
  obtain ⟨rest, hrest, hdrop⟩ : ∃ rest, (∀ c ∈ rest.head?, c = '#') ∧
      dropSpace (before ++ (word ++ (behind ++ comment))) = word ++ rest := by
    by_cases hb : before = []
    · rw [hb, List.nil_append, dropSpace_word fun c hc => (hword c hc).1]
      by_cases hb' : behind = []
      · rw [hb', List.nil_append]
        cases comment with
        | nil => exact ⟨[], by simp, rfl⟩
        | cons c comment =>
          obtain rfl := hcomment c rfl
          have hdrop : dropSpace (['#'] ++ comment) = '#' :: dropSpace comment := dropSpace_word (by decide) comment
          exact ⟨'#' :: dropSpace comment, fun c hc => (Option.some.inj hc).symm, congrArg (word ++ ·) hdrop⟩
      · exact ⟨comment, hcomment, congrArg (word ++ ·) (dropSpace_of_space hbehind hb' hns)⟩
    · rw [hone.resolve_left hb, List.nil_append]
      refine ⟨comment, hcomment, dropSpace_of_space hbefore hb fun c hc => ?_⟩
      cases word with
      | nil => exact hns c hc
      | cons w word => exact (hword c (Option.some.inj hc ▸ List.mem_cons_self)).1
  rw [tidy, hchomp, hdrop, takeWhile_comment hhash hrest]

end Lines

/-! ## Who gets a page -/

section Pages

variable {sys : System} {login : Str}

theorem badshell_eq_false (shell : Str) : badshell sys shell = false ↔ shell ∈ sys.shells := by
  simp [badshell]

theorem nil_not_mem_shells : [] ∉ sys.shells := fun h => of_decide_eq_true (List.mem_filter.1 h).2 rfl

/-- **An index file is enough**: the directory it is in can be used. -/
theorem haswebpage_isSome (fs : FileSystem) {dir : Str} (hdir : dir ≠ []) :
    (haswebpage fs dir).isSome ↔
      ∃ format ∈ INDEX_FORMATS, fs.f (indexFile dir format) ∧ fs.r (indexFile dir format) := by
  have hslash : ∀ format ∈ INDEX_FORMATS, '/' ∉ "index.".toList ++ format := by decide
  rw [haswebpage]
  constructor
  · intro h
    split_ifs at h with hguard
    · cases h
    · obtain ⟨index, hindex, htest⟩ := List.find?_isSome.1 h
      obtain ⟨format, hformat, rfl⟩ := List.mem_map.1 hindex
      exact ⟨format, hformat, by simpa using htest⟩
  · rintro ⟨format, hformat, hf, hr⟩
    have husable : fs.d dir ∧ fs.x dir := by
      refine fs.usable dir ("index.".toList ++ format) hdir (hslash format hformat) ?_
      have hpath : dir ++ '/' :: ("index.".toList ++ format) = indexFile dir format := by
        rw [indexFile, List.append_assoc]
        rfl
      rw [hpath]
      exact fs.exists_of_f _ hf
    rw [if_neg (by simp [husable.1, husable.2]), List.find?_isSome]
    exact ⟨_, List.mem_map_of_mem hformat, by simp [hf, hr]⟩

theorem webdir_ne_nil (homedir : Str) : webdir homedir ≠ [] := fun h => nomatch (List.append_eq_nil_iff.1 h).2

/-- an entry of the passwd database gives its user a page of his own, or none -/
theorem mem_passwdEntry (t : Tables) (e : Pwent) :
    login ∈ (passwdEntry sys t e).pages ↔ login ∈ t.pages ∨ e.login = login ∧ OwnPage sys e := by
  have hpage := haswebpage_isSome sys.fs (webdir_ne_nil e.homedir)
  rw [passwdEntry]
  by_cases hskip : (e.uid < MINUID || e.login = NOBODY || badhome sys.fs e.homedir || badshell sys e.shell) = true
  · have hnot : ¬ OwnPage sys e := by
      rintro ⟨huid, hnobody, ⟨hhome, hshell⟩, -⟩
      rw [← badshell_eq_false] at hshell
      simp [hhome, hshell, hnobody, not_lt.2 huid] at hskip
    simp only [if_pos hskip, hnot, and_false, or_false]
  · have hown : OwnPage sys e ↔ (haswebpage sys.fs (webdir e.homedir)).isSome := by
      rw [hpage, OwnPage, UsableAccount, ← badshell_eq_false]
      simp only [Bool.or_eq_true, decide_eq_true_eq, not_or, not_lt, Bool.not_eq_true] at hskip
      tauto
    simp only [if_neg hskip]
    rw [hown]
    cases haswebpage sys.fs (webdir e.homedir) with
    | none => simp
    | some index => simp [AList.mem_insert, or_comm, eq_comm]

theorem mem_passwdEntries (entries : List Pwent) (t : Tables) :
    login ∈ (entries.foldl (passwdEntry sys) t).pages ↔
      login ∈ t.pages ∨ ∃ e ∈ entries, e.login = login ∧ OwnPage sys e := by
  induction entries generalizing t with
  | nil => simp
  | cons e entries ih =>
    rw [List.foldl_cons, ih, mem_passwdEntry]
    simp [or_assoc]

/-- the home directory and the shell of an account are both listed as shells -/
def HomeListed (sys : System) (login : Str) : Prop :=
  ∃ e, getpwnam sys login = some e ∧ e.homedir ∈ sys.shells ∧ e.shell ∈ sys.shells

/-- a line of user.urls gives a page to its login if the home directory of the account is listed as a shell -/
theorem mem_userUrl (t : Tables) (line : Str) :
    login ∈ (userUrl sys t line).pages ↔
      login ∈ t.pages ∨ (∃ url rest, line.splitOn ':' = login :: url :: rest) ∧ HomeListed sys login := by
  obtain ⟨field, fields, hfields⟩ := List.exists_cons_of_ne_nil (List.splitOn_ne_nil ':' line)
  have hline : (∃ url rest, line.splitOn ':' = login :: url :: rest) ↔ field = login ∧ fields ≠ [] := by
    rw [hfields]
    cases fields <;> simp
  have hlisted : (!badshell sys (((getpwnam sys field).map Pwent.homedir).getD []) &&
      !badshell sys (((getpwnam sys field).map Pwent.shell).getD [])) = true ↔ HomeListed sys field := by
    rw [Bool.and_eq_true, Bool.not_eq_true', Bool.not_eq_true', badshell_eq_false, badshell_eq_false, HomeListed]
    cases hpw : getpwnam sys field with
    | none => simp [nil_not_mem_shells]
    | some e => simp
  rw [userUrl, hline]
  simp only [hfields, List.headD_cons]
  by_cases hl : HomeListed sys field
  · rw [if_pos (hlisted.2 hl)]
    cases fields with
    | nil => simp
    | cons url rest =>
      by_cases hlogin : field = login
      · subst hlogin
        simp [AList.mem_insert, hl]
      · simp [AList.mem_insert, hlogin, Ne.symm hlogin]
  · rw [if_neg fun h => hl (hlisted.1 h)]
    by_cases hlogin : field = login
    · subst hlogin
      simp [hl]
    · simp [hlogin]

theorem mem_userUrls (lines : List Str) (t : Tables) :
    login ∈ (lines.foldl (userUrl sys) t).pages ↔ login ∈ t.pages ∨
      (∃ line ∈ lines, ∃ url rest, line.splitOn ':' = login :: url :: rest) ∧ HomeListed sys login := by
  induction lines generalizing t with
  | nil => simp
  | cons line lines ih =>
    rw [List.foldl_cons, ih, mem_userUrl, List.exists_mem_cons_iff, or_and_right, or_assoc]

theorem mem_erase_all (names : List Str) (pages : Hash) :
    login ∈ names.foldl (fun pages name => pages.erase name) pages ↔ login ∉ names ∧ login ∈ pages := by
  induction names generalizing pages with
  | nil => simp
  | cons name names ih =>
    rw [List.foldl_cons, ih, AList.mem_erase, List.mem_cons, not_or, and_left_comm, and_assoc]

/-- **Who gets a page.** -/
theorem mem_pages : login ∈ (tables sys).pages ↔ ¬ Ignored sys login ∧
    ((∃ e ∈ sys.passwd, e.login = login ∧ OwnPage sys e) ∨ (∃ url, UrlLine sys login url) ∧ HomeListed sys login) := by
  have hurl : (∃ line ∈ tidyLines sys.userUrls, ∃ url rest, line.splitOn ':' = login :: url :: rest) ↔
      ∃ url, UrlLine sys login url :=
    ⟨fun ⟨line, hline, url, rest, h⟩ => ⟨url, line, hline, rest, h⟩,
      fun ⟨url, line, hline, rest, h⟩ => ⟨line, hline, url, rest, h⟩⟩
  calc login ∈ (tables sys).pages ↔ login ∉ tidyLines sys.webIgnore ∧
        login ∈ ((tidyLines sys.userUrls).foldl (userUrl sys) (sys.passwd.foldl (passwdEntry sys) ⟨∅, ∅⟩)).pages :=
        mem_erase_all _ _
    _ ↔ _ := by
        rw [mem_userUrls, mem_passwdEntries, hurl, Ignored]
        simp [AList.notMem_empty]

end Pages

/-! ## The page -/

section Output

variable {sys : System} {login : Str}

theorem alphausers_eq (pages : Hash) (first : Option Char) :
    alphausers pages first = (pages.keys.insertionSort (· ≤ ·)).filter fun key => key.head? = first := by
  have hfold : ∀ (keys : List Str) (users : Option Char → List Str),
      keys.foldl (fun users key => Function.update users key.head? (users key.head? ++ [key])) users first =
        users first ++ keys.filter fun key => key.head? = first := by
    intro keys
    induction keys with
    | nil => simp
    | cons key keys ih =>
      intro users
      rw [List.foldl_cons, ih]
      by_cases hkey : key.head? = first
      · subst hkey
        simp
      · simp [hkey, Ne.symm hkey]
  exact hfold _ _

theorem mem_alphausers (pages : Hash) (first : Option Char) :
    login ∈ alphausers pages first ↔ login ∈ pages ∧ login.head? = first := by
  rw [alphausers_eq, List.mem_filter, List.mem_insertionSort, ← AList.mem_keys, decide_eq_true_eq]

theorem nodup_alphausers (pages : Hash) (first : Option Char) : (alphausers pages first).Nodup := by
  rw [alphausers_eq]
  exact ((List.perm_insertionSort _ _).nodup_iff.2 pages.keys_nodup).filter _

theorem output_logins (sys : System) : (output sys).map Item.login =
    ALPHABET.flatMap fun letter => alphausers (tables sys).pages (some letter) := by
  rw [output, List.map_flatMap]
  simp only [List.map_map, Function.comp_def, List.map_id']

theorem nodup_output (sys : System) : ((output sys).map Item.login).Nodup := by
  rw [output_logins, List.nodup_flatMap]
  refine ⟨fun letter _ => nodup_alphausers _ _, ?_⟩
  have hletters : ALPHABET.Nodup := by decide
  refine hletters.imp fun {a b} hne login ha hb => hne ?_
  have hhead := ((mem_alphausers _ _).1 ha).2.symm.trans ((mem_alphausers _ _).1 hb).2
  exact Option.some.inj hhead

/-- **A name that begins with a letter** is in the output once if it gets a page. -/
theorem count_output (hlogin : login ∈ (tables sys).pages) {letter : Char} (hletter : letter ∈ ALPHABET)
    (hfirst : login.head? = some letter) : ((output sys).map Item.login).count login = 1 := by
  refine List.count_eq_one_of_mem (nodup_output sys) ?_
  rw [output_logins]
  exact List.mem_flatMap.2 ⟨letter, hletter, (mem_alphausers _ _).2 ⟨hlogin, hfirst⟩⟩

end Output

/-- a user with an index file -/
def HasPage (sys : System) (login : Str) : Prop := ∃ e ∈ sys.passwd, e.login = login ∧ OwnPage sys e

/-- a user with an index file who has opted out -/
def HasOptedOut (sys : System) (login : Str) : Prop :=
  HasPage sys login ∧ ∀ e ∈ sys.passwd, e.login = login → OwnPage sys e → OptedOut sys e

/-- **The page is right** if and only if, of the users who are not ignored: who has an index file and has opted out is
in user.urls; who is in user.urls has an index file, or a home directory that is listed as a shell; and who has only
that is in user.urls with a home that can be used. -/
theorem mkusers_right_iff (sys : System) :
    MkusersRight sys ↔ ∀ login, ¬ Ignored sys login →
      (HasOptedOut sys login → UrlPage sys login) ∧
      (UrlPage sys login → HasPage sys login ∨ HomeListed sys login) ∧
      ((∃ url, UrlLine sys login url) ∧ HomeListed sys login →
        (HasPage sys login ∧ ¬ HasOptedOut sys login) ∨ UrlPage sys login) := by
  rw [MkusersRight, and_iff_left fun login hlogin ⟨letter, hletter, hfirst⟩ => count_output hlogin hletter hfirst]
  refine forall_congr' fun login => ?_
  have hshown : (∃ e ∈ sys.passwd, e.login = login ∧ OwnPage sys e ∧ ¬ OptedOut sys e) ↔
      HasPage sys login ∧ ¬ HasOptedOut sys login := by
    constructor
    · rintro ⟨e, he, hlogin, hown, hshown⟩
      exact ⟨⟨e, he, hlogin, hown⟩, fun h => hshown (h.2 e he hlogin hown)⟩
    · rintro ⟨hpage, hout⟩
      by_contra h
      exact hout ⟨hpage, fun e he hlogin hown => not_not.1 fun hshown => h ⟨e, he, hlogin, hown, hshown⟩⟩
  have hline : UrlPage sys login → ∃ url, UrlLine sys login url := fun h => h.1.imp fun _ h => h.1
  have hpage : HasOptedOut sys login → HasPage sys login := fun h => h.1
  rw [mem_pages, Wanted, hshown, and_congr_right_iff]
  refine imp_congr_right fun _ => ?_
  constructor
  · intro h
    refine ⟨fun hout => ?_, fun hurl => ?_, fun hlisted => h.1 (Or.inr hlisted)⟩
    · exact (h.1 (Or.inl (hpage hout))).resolve_left fun hown => hown.2 hout
    · exact (h.2 (Or.inr hurl)).imp_right And.right
  · rintro ⟨hopted, hurls, hlisted⟩
    constructor
    · rintro (hown | hlist)
      · by_cases hout : HasOptedOut sys login
        · exact Or.inr (hopted hout)
        · exact Or.inl ⟨hown, hout⟩
      · exact hlisted hlist
    · rintro (hown | hurl)
      · exact Or.inl hown.1
      · exact (hurls hurl).imp_right fun hlist => ⟨hline hurl, hlist⟩

/-! ## A user with a `.dontlist` -/

/-- the files there are, with their directories: a home directory with an index file and a `.dontlist` -/
def oneHome : List (Str × Str) :=
  [([], "a".toList), ("/a".toList, "www".toList), ("/a/www".toList, "index.html".toList),
    ("/a/www".toList, ".dontlist".toList)]

def path (file : Str × Str) : Str := file.1 ++ '/' :: file.2

/-- a path is parted at its last slash in one way -/
theorem dir_eq {dir dir' name name' : Str} (hname : '/' ∉ name) (hname' : '/' ∉ name')
    (h : dir ++ '/' :: name = dir' ++ '/' :: name') : dir = dir' := by
  have hreverse : name.reverse ++ '/' :: dir.reverse = name'.reverse ++ '/' :: dir'.reverse := by
    simpa using congrArg List.reverse h
  exact List.reverse_injective (append_cons_inj (by simpa using hname) (by simpa using hname') hreverse).2

def oneHomeFs : FileSystem where
  d dir := dir ∈ (oneHome.take 2).map path
  x dir := dir ∈ (oneHome.take 2).map path
  e file := file ∈ oneHome.map path
  f file := file ∈ (oneHome.drop 2).map path
  r file := file ∈ (oneHome.drop 2).map path
  exists_of_f file hf := by
    obtain ⟨p, hp, hfile⟩ := List.mem_map.1 (of_decide_eq_true hf)
    exact decide_eq_true (List.mem_map.2 ⟨p, List.mem_of_mem_drop hp, hfile⟩)
  usable dir name hdir hname he := by
    obtain ⟨p, hp, hfile⟩ := List.mem_map.1 (of_decide_eq_true he)
    have hslash : ∀ p ∈ oneHome, '/' ∉ p.2 := by decide
    have husable : ∀ p ∈ oneHome, p.1 ≠ [] → p.1 ∈ (oneHome.take 2).map path := by decide
    obtain rfl := dir_eq (hslash p hp) hname hfile
    exact ⟨decide_eq_true (husable p hp hdir), decide_eq_true (husable p hp hdir)⟩

def oneHomeSystem : System where
  passwd := [⟨['a'], MINUID, [], "/a".toList, "/bin/sh".toList⟩]
  fs := oneHomeFs
  etcShells := some "/bin/sh\n".toList
  userUrls := none
  webIgnore := none

/-- A user with an index file and a `.dontlist` gets a page. -/
theorem opted_out : ¬ MkusersRight oneHomeSystem := by
  intro h
  have hpage : ['a'] ∈ (tables oneHomeSystem).pages := by decide
  obtain ⟨-, ⟨e, he, -, -, hshown⟩ | ⟨⟨url, ⟨line, hline, -⟩, -⟩, -⟩⟩ := (h.1 ['a']).1 hpage
  · rw [List.mem_singleton.1 he] at hshown
    exact hshown rfl
  · exact List.not_mem_nil hline

end MNetSoft.Sbin.Mkusers
