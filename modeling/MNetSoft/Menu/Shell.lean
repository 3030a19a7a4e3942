/-
The menu shell `menu.go`: a user walks through menus that are read from files. `menu` shows its menu and reads a
command, again and again; a command leaves the menu, opens another one (`menu` calls itself), runs a program or is
typed after an exclamation mark.

A Go string is its list of characters. The lower case of a character is a parameter that is right on ASCII, a menu file
is what reading and decoding it gives, and the header with the time and the logins is a text. What the world answers may
depend on all that has happened before. The lines typed are a list, and then the input ends.

- `accept_wellFormed`: a menu that `parsemenu` accepts has a title and an exit, no entry is both a menu and a command,
  and every library path is spelled out.
- `fields_trimSpace`: a line that is not empty has a first field, so `cmd[0]` is there.
-/
import Mathlib.Tactic
import MNetSoft.Core.CString
import MNetSoft.Core.Words
import MNetSoft.Core.Nested

namespace MNetSoft.MenuShell

open MNetSoft.CString MNetSoft.Words MNetSoft.Effects MNetSoft.Nested

/-! ## Strings -/

/-- `unicode.ToLower` -/
structure CaseMap where
  toLower : Char → Char
  ascii : ∀ c : Char, c.val < 128 → toLower c = c.toLower

def CaseMap.lower (cm : CaseMap) (s : Str) : Str := s.map cm.toLower

/-- `unicode.IsSpace` -/
def isSpace (c : Char) : Bool :=
  c ∈ ['\t', '\n', '\x0b', '\x0c', '\r', ' ', '\u0085', '\u00a0', '\u1680', '\u2028', '\u2029', '\u202f', '\u205f',
    '\u3000'] ∨ ('\u2000' ≤ c ∧ c ≤ '\u200a')

/-- `strings.TrimSpace` -/
def trimSpace (s : Str) : Str := (s.dropWhile isSpace).rdropWhile isSpace

/-- `strings.Fields` -/
def fields (s : Str) : List Str := wordsBy isSpace s

/-- `%*s` with a width -/
def padLeft (width : ℕ) (s : Str) : Str := List.replicate (width - s.length) ' ' ++ s

/-- `%-*s` with a width -/
def padRight (width : ℕ) (s : Str) : Str := s ++ List.replicate (width - s.length) ' '

/-- `len` of a string: its bytes -/
def len (s : Str) : ℕ := (s.map Char.utf8Size).sum

/-! ## Menus -/

def menuLibDir : Str := "/c/r/cross/sys/m-net/soft/apps/menu/menus".toList

def helpFile : Str := menuLibDir ++ "/help.txt".toList

def colWidth : ℕ := 34

def winWidth : ℕ := 80

structure Entry where
  key : Str
  menu : Str
  exec : Str
  exit : Bool
  desc : Str
  deriving DecidableEq

structure Menu where
  title : Str
  showSys : Bool
  subtitle : Str
  footer : Str
  entries : List Entry
  deriving DecidableEq

def center (s : Str) : Str := padLeft ((winWidth + len s) / 2) s

/-- the entries from number `k` on, of `n` in all, two on a line -/
def entryLines (n : ℕ) : ℕ → List Entry → Str
  | _, [] => []
  | k, e :: es =>
    (if k % 2 = 0 then "  ".toList else []) ++ ' ' :: e.key ++ ") ".toList ++
      (if k = n - 1 ∨ k % 2 ≠ 0 then e.desc ++ ['\n'] else padRight colWidth e.desc) ++ entryLines n (k + 1) es

def Menu.string (sysheader : Str) (m : Menu) : Str :=
  '\n' :: (if m.showSys then sysheader else []) ++ center m.title ++
    (if m.subtitle ≠ [] then '\n' :: center m.subtitle else []) ++ "\n\n".toList ++
    entryLines m.entries.length 0 m.entries ++ (if m.footer ≠ [] then '\n' :: m.footer ++ ['\n'] else [])

/-- `%v` of an entry -/
def Entry.string (e : Entry) : Str :=
  '\x7b' :: e.key ++ ' ' :: e.menu ++ ' ' :: e.exec ++ ' ' :: (if e.exit then "true" else "false").toList ++
    ' ' :: e.desc ++ ['\x7d']

/-- `strings.Replace(s, "@", menuLibDir, -1)` -/
def located (s : Str) : Str := s.flatMap fun c => if c = '@' then menuLibDir else [c]

/-- the entries of a menu file, checked and with their paths spelled out -/
def checkEntries (file : Str) : List Entry → Except Str (List Entry)
  | [] => return []
  | e :: es =>
    if e.menu ≠ [] ∧ e.exec ≠ [] then throw ("Bad menu entry in ".toList ++ file ++ ':' :: e.string)
    else do
      let es ← checkEntries file es
      return { e with menu := located e.menu, exec := located e.exec } :: es

/-- the checks of `parsemenu`: the menu, or the text it dies with -/
def accept (file : Str) (m : Menu) : Except Str Menu :=
  if m.title = [] then throw ("Bad menu in ".toList ++ file ++ ": Missing title".toList)
  else do
    let es ← checkEntries file m.entries
    if es.any Entry.exit then return { m with entries := es }
    else throw ("Menu ".toList ++ file ++ " lacks exit".toList)

/-- what `parsemenu` promises of a menu -/
structure WellFormed (m : Menu) : Prop where
  title : m.title ≠ []
  exit : ∃ e ∈ m.entries, e.exit = true
  one : ∀ e ∈ m.entries, e.menu = [] ∨ e.exec = []
  located : ∀ e ∈ m.entries, '@' ∉ e.menu ∧ '@' ∉ e.exec

theorem at_not_mem_located (s : Str) : '@' ∉ located s := by
  intro h
  obtain ⟨c, -, hc⟩ := List.mem_flatMap.1 h
  split_ifs at hc with hat
  · exact absurd hc (by decide)
  · exact hat (List.mem_singleton.1 hc).symm

theorem located_eq_nil {s : Str} (h : s = []) : located s = [] := by
  rw [h]
  rfl

theorem checkEntries_ok {file : Str} {es es' : List Entry} (h : checkEntries file es = .ok es') :
    ∀ e ∈ es', (e.menu = [] ∨ e.exec = []) ∧ '@' ∉ e.menu ∧ '@' ∉ e.exec := by
  induction es generalizing es' with
  | nil =>
    cases h
    exact List.forall_mem_nil _
  | cons e es ih =>
    rw [checkEntries] at h
    split_ifs at h with hboth
    cases hes : checkEntries file es with
    | error text =>
      rw [hes] at h
      cases h
    | ok rest =>
      rw [hes] at h
      cases h
      refine List.forall_mem_cons.2 ⟨⟨?_, at_not_mem_located _, at_not_mem_located _⟩, ih hes⟩
      rcases not_and_or.1 hboth with hmenu | hexec
      · exact Or.inl (located_eq_nil (not_not.1 hmenu))
      · exact Or.inr (located_eq_nil (not_not.1 hexec))

/-- **What is accepted is well formed.** -/
theorem accept_wellFormed {file : Str} {m m' : Menu} (h : accept file m = .ok m') : WellFormed m' := by
  rw [accept] at h
  split_ifs at h with htitle
  cases hes : checkEntries file m.entries with
  | error text =>
    rw [hes] at h
    cases h
  | ok es =>
    rw [hes] at h
    have hif : (if es.any Entry.exit then .ok { m with entries := es }
        else .error ("Menu ".toList ++ file ++ " lacks exit".toList) : Except Str Menu) = .ok m' := h
    split_ifs at hif with hexit
    cases hif
    exact ⟨htitle, List.any_eq_true.1 hexit, fun e he => (checkEntries_ok hes e he).1,
      fun e he => (checkEntries_ok hes e he).2⟩

/-- what is trimmed begins with no white space -/
theorem fields_trimSpace {s : Str} (h : fields (trimSpace s) = []) : trimSpace s = [] := by
  have hall := wordsBy_eq_nil_iff.1 h
  by_contra hne
  have hlast : ¬isSpace ((trimSpace s).getLast hne) = true := List.rdropWhile_last_not isSpace (s.dropWhile isSpace) hne
  exact hlast (hall _ (List.getLast_mem hne))

/-! ## The shell -/

inductive Event where
  | print (text : Str)
  | stderr (text : Str)
  /-- a line is read at the prompt -/
  | line (l : Str)
  | readFile (file : Str)
  | chdir (dir : Str)
  | execv (args : List Str)
  deriving DecidableEq

/-- what comes of reading a menu file -/
inductive Loaded where
  | unreadable (err : Str)
  | unparsable (err : Str)
  | menu (m : Menu)

structure World where
  case : CaseMap
  myHomeDir : Str
  /-- the error that ends the input, `none` at end of file -/
  inputEnd : Option Str
  readFile : List Event → Str → Loaded
  chdir : List Event → Str → Option Str
  sysheader : List Event → Str

structure St where
  /-- the lines to be read, their newlines included -/
  input : List Str
  splashOnce : Bool
  trace : List Event

/-- how a session breaks off -/
inductive End where
  | exit
  | fatal
  | panic
  | fuel
  deriving DecidableEq

abbrev Session := Eff End St

def emit (e : Event) : Session PUnit := modify fun s => { s with trace := s.trace ++ [e] }

/-- `fmt.Println` -/
def println (text : Str) : Session PUnit := emit (.print (text ++ ['\n']))

/-- `log.Fatal` -/
def fatal {α : Type} (text : Str) : Session α := do
  emit (.stderr (text ++ ['\n']))
  throw .fatal

def execv (args : List Str) : Session PUnit := emit (.execv args)

def clear : Session PUnit := execv ["clear".toList]

def system (cmd : Str) : Session PUnit := execv ["/bin/sh".toList, "-c".toList, cmd]

def goodbye {α : Type} : Session α := do
  println "\nLeaving M-Net menu system.  Good bye!".toList
  throw .exit

def splash : Session PUnit := do
  let s ← get
  if s.splashOnce then
    modify fun s => { s with splashOnce := false }
    println (center "M-Net Menu 4.0".toList)
    println (center "Copyright 2025".toList)
    println (center "M-Net Staff".toList)
  else return

def pause : Session PUnit := do
  emit (.print "\nPress <ENTER> to continue\n\n".toList)
  modify fun s => { s with input := s.input.tail }

section Shell

variable (w : World)

def cd (dir : Str) : Session PUnit := do
  emit (.chdir dir)
  let s ← get
  match w.chdir s.trace dir with
  | none => return
  | some err => emit (.stderr ("cd failed ".toList ++ err ++ ['\n']))

def readcmd : Session Str := do
  emit (.print "Command (or 'HELP'): ".toList)
  let s ← get
  match s.input with
  | l :: rest =>
    modify fun s => { s with input := rest }
    emit (.line l)
    return trimSpace l
  | [] =>
    match w.inputEnd with
    | none => goodbye
    | some err => fatal ("Input ".toList ++ err)

def parsemenu (file : Str) : Session Menu := do
  emit (.readFile file)
  let s ← get
  match w.readFile s.trace file with
  | .unreadable err => fatal ("Error reading menu: ".toList ++ err)
  | .unparsable err => fatal ("Error parsing menu: ".toList ++ err)
  | .menu m =>
    match accept file m with
    | .error text => fatal text
    | .ok m => return m

/-- what the entries of a menu make of a command -/
inductive Choice where
  | exit
  | menu (file : Str)
  | exec (cmd : Str)
  | invalid
  deriving DecidableEq

/-- `for _, entry := range m.Entries`: an entry of the key that does nothing is passed over -/
def choose (c : Str) : List Entry → Choice
  | [] => .invalid
  | e :: es =>
    if c ≠ w.case.lower e.key then choose c es
    else if e.exit then .exit
    else if e.menu ≠ [] then .menu e.menu
    else if e.exec ≠ [] then .exec e.exec
    else choose c es

/-- `switch len(cmd)` -/
def cdCommand (args : List Str) : Session PUnit :=
  match args with
  | [] => cd w w.myHomeDir
  | [dir] => cd w dir
  | _ => emit (.stderr "Usage: cd [dir]\n".toList)

/-- a command that is left to the entries of the menu -/
def select (m : Menu) (s : Str) : Session (Next Menu) :=
  match choose w (w.case.lower s) m.entries with
  | .exit => return .leave
  | .menu file => do
    let g ← parsemenu w file
    return .enter g
  | .exec cmd => do
    system cmd
    pause
    return .again
  | .invalid => do
    println ("\nSorry, selection '".toList ++ s ++ "' is invalid.".toList)
    println "Please try again.".toList
    pause
    return .again

/-- a command that is not one of the shell's own words -/
def command (m : Menu) (s : Str) : Session (Next Menu) :=
  match fields s with
  | [] => throw .panic
  | c0 :: args =>
    if w.case.lower c0 = "!cd".toList ∨ w.case.lower c0 = "!chdir".toList then do
      cdCommand w args
      pause
      return .again
    else
      match s with
      | '!' :: cmd => do
        system cmd
        pause
        return .again
      | _ => select w m s

/-- one turn of the loop of `menu` -/
def turn (m : Menu) : Session (Next Menu) := do
  clear
  splash
  let s ← get
  println (m.string (w.sysheader s.trace))
  let s ← readcmd w
  let c := w.case.lower s
  if c = [] then return .again
  else if c = "exit".toList then return .leave
  else if c = "help".toList then
    execv ["grexmore".toList, helpFile]
    pause
    return .again
  else command w m s

/-- `menu(file)`; the loop of `menu` calls `menu` for the file of an entry, and goes on when that returns -/
def menu (fuel : ℕ) (file : Str) : Session PUnit := do
  let m ← parsemenu w file
  nested .fuel (turn w) fuel m

def mainFile : Str := menuLibDir ++ "/main.json".toList

def main (fuel : ℕ) : Session PUnit := do
  menu w fuel mainFile
  goodbye

end Shell

end MNetSoft.MenuShell
