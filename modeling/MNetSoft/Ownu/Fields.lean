/-
The fields of the web `newuser`: what `wnu-getu.c`, `wnu-login.c` and `wnu-keys.c` check of them one by one, on top of
the entries of `Ownu.Cgi`. Values are pointers into the buffer, which the checks change in place: `check_fullname` cuts
blanks off, `clean_text` takes out the carriage returns and puts a newline at the end.

What a check finds wrong it reports with `err`, which sets `reject`; a system error also gives up the lock and ends the
program. What the program calls from outside (`getpwnam`, `kwscan`, `tgetent`, the libraries of `newuser`) is in an
`Env`, and so is what is not the program's to choose: the bytes in front of a variable, the pointer that a `return`
without a value leaves behind. A read or write outside of an object, or a write to a literal, is a fault.
-/
import Mathlib.Tactic
import Mathlib.Data.List.TakeWhile
import MNetSoft.Core.Memory
import MNetSoft.Core.Effects
import MNetSoft.Ownu.Cgi

namespace MNetSoft.Ownu

open MNetSoft.Memory MNetSoft.Effects

/-! ## Characters -/

def isascii (c : UInt8) : Bool := c < 0x80

def isprint (c : UInt8) : Bool := ' '.toUInt8 ≤ c && c ≤ '~'.toUInt8

def isdigit (c : UInt8) : Bool := '0'.toUInt8 ≤ c && c ≤ '9'.toUInt8

def islower (c : UInt8) : Bool := 'a'.toUInt8 ≤ c && c ≤ 'z'.toUInt8

def isupper (c : UInt8) : Bool := 'A'.toUInt8 ≤ c && c ≤ 'Z'.toUInt8

def isspace (c : UInt8) : Bool := c = ' '.toUInt8 || (9 ≤ c && c ≤ 13)

def isalpha (c : UInt8) : Bool := isupper c || islower c

/-! ## The program -/

/-- the program ends before it returns: `err` has ended it, or its behaviour is undefined -/
inductive Stop where
  | exit
  | fault
deriving DecidableEq, Repr

/-- the objects that values are in: the buffer of the query, the array `nothing`, the literal "" and blocks from
`malloc` -/
inductive Block where
  | buffer
  | nothing
  | literal
  | copy (k : ℕ)
  | wild
deriving DecidableEq, Repr

structure Ptr where
  block : Block
  offset : ℕ
deriving DecidableEq, Repr

/-- the variables that values are stored in -/
inductive Var where
  | loginid
  | userpass
  | full_name
  | shell
  | editor
  | birthdate
  | email
  | occupation
  | interests
  | computers
  | how
  | address
  | telephone
  | terminal
deriving DecidableEq, Repr

/-- the shells or editors: `kwscan` with their keys, and what they stand for -/
structure Flist where
  kwscan : Bytes → ℤ
  towhat : ℕ → Bytes
  bang : ℕ → Bytes

/-- an entry of a file like the passwd file -/
structure Passwd where
  pw_name : Bytes
  pw_passwd : Bytes
  pw_gecos : Bytes
deriving DecidableEq, Repr

/-- an entry of a directory: whether its inode number is 0 -/
structure Dirent where
  d_name : Bytes
  d_ino_zero : Bool
deriving DecidableEq, Repr

/-- what the program finds when it runs. The libraries' functions may end it through `die`. -/
structure Env where
  /-- what is in memory in front of `nothing` -/
  before : Bytes
  /-- what a `return` without a value leaves behind -/
  stray : Ptr → Option Ptr
  sh : Flist
  ed : Flist
  tgetent : Bytes → ℤ
  /-- nonzero -/
  isalias : Bytes → Bool
  rpwd : Bytes
  /-- the entries of a file, if it can be opened -/
  entries : Bytes → Option (List Passwd)
  /-- `NULL` is not a string -/
  crypt : Option Bytes → Bytes → Option Bytes
  mkpasswd : Bytes → Bytes
  /-- the keys are not all different -/
  final_key_check : List UInt8 → Bool
  passwd : Bytes
  getpwnam : Bytes → Option Bytes
  set_lock : Bool
  setuserdir : Bool
  notthisone : Bool
  checkdirs : Bool
  usr : Bytes
  /-- the entries of a directory, if it can be opened -/
  opendir : Bytes → Option (List Dirent)
  stat : Bytes → Bool
  access : Bytes → Bool

/-- the variables of the program -/
structure St where
  buffer : Bytes
  nothing : Bytes
  copies : List Bytes
  head : List Entry
  vars : Var → Option Ptr
  sex : Bytes
  paranoid : Bool
  shellpath : Bytes
  bang : Bytes
  edpath : Bytes
  keyval : List UInt8
  cpt_pass : Bytes
  good_login : Bool
  reject : ℕ
  locked : Bool
  /-- the calls of `set_lock` -/
  set_locks : ℕ

abbrev Wnu := Eff Stop St

def USER : ℕ := 0x0001
def SYSTEM : ℕ := 0x0002
def HOSTILE : ℕ := 0x0004

def un_lock : Wnu Unit := modify fun s => { s with locked := false }

/-- report an error; a system error ends the program -/
def err (type : ℕ) : Wnu Unit := do
  modify fun s => { s with reject := s.reject ||| type }
  if type &&& SYSTEM ≠ 0 then
    un_lock
    throw .exit

def errIf (p : Prop) [Decidable p] (type : ℕ) : Wnu Unit := if p then err type else pure ()

/-- a call of the libraries -/
def library (dies : Bool) : Wnu Unit := errIf dies SYSTEM

def defined {α : Type} : Option α → Wnu α
  | none => throw .fault
  | some a => pure a

/-! ## Memory -/

def St.cells (s : St) : Block → Option Bytes
  | .buffer => some s.buffer
  | .nothing => some s.nothing
  | .literal => some [0]
  | .copy k => s.copies[k]?
  | .wild => none

def St.setCells (s : St) (m : Bytes) : Block → Option St
  | .buffer => some { s with buffer := m }
  | .nothing => some { s with nothing := m }
  | .literal => none
  | .copy k => some { s with copies := s.copies.set k m }
  | .wild => none

/-- the string at a pointer -/
def St.string (s : St) (p : Ptr) : Option Bytes := do cstring ((← s.cells p.block).drop p.offset)

def string (p : Ptr) : Wnu Bytes := do defined ((← get).string p)

def cells (b : Block) : Wnu Bytes := do defined ((← get).cells b)

def setCells (b : Block) (m : Bytes) : Wnu Unit := do set (← defined ((← get).setCells m b))

def setVar (v : Var) (p : Option Ptr) : Wnu Unit :=
  modify fun s => { s with vars := fun w => if w = v then p else s.vars w }

def Value.ptr : Value → Ptr
  | .blank => ⟨.literal, 0⟩
  | .cell p => ⟨.buffer, p⟩

/-- the value of a field of the query -/
def findvar (name : Bytes) : Wnu (Option Ptr) := do
  let s ← get
  return (← defined (getvar s.buffer name s.head)).map Value.ptr

/-- the string in a variable, if it is not `NULL` -/
def stored (v : Var) : Wnu (Option Bytes) := do
  match (← get).vars v with
  | none => return none
  | some p => return some (← string p)

/-- the first character of the string that is not in `l` -/
def firstout (p : Ptr) (l : Bytes) : Wnu Ptr := do
  return { p with offset := p.offset + ((← string p).takeWhile (· ∈ l)).length }

/-! ## The login -/

/-- check whether the login is reserved -/
def check_reserved (env : Env) (lid : Bytes) : Wnu Unit := do
  match env.entries env.rpwd with
  | none => err SYSTEM
  | some pws =>
    match pws.find? (·.pw_name = lid) with
    | none => pure ()
    | some pwd =>
      let crypted ← defined (env.crypt (← stored .userpass) pwd.pw_passwd)
      errIf (crypted ≠ pwd.pw_passwd) USER

/-- a character that is not allowed in logins -/
def badlogin (c : UInt8) : Bool := !isascii c || (!isdigit c && !islower c)

/-- a colon is considered hostile -/
def hostile (c : UInt8) : ℕ := if c = ':'.toUInt8 then HOSTILE ||| USER else USER

/-- report the first bad character -/
def errChar : Option UInt8 → Wnu Unit
  | none => pure ()
  | some c => err (hostile c)

def root : Bytes := bytes "root"

/-- the checks of `check_login` by the characters -/
def loginChars (login : Bytes) : Wnu Unit := do
  errIf (isascii (login.headD 0) ∧ isdigit (login.headD 0)) (hostile (login.headD 0))
  errChar (login.find? badlogin)
  errIf (login.length = 0) USER
  errIf (login.length > 8) USER

def check_login (env : Env) (val : Ptr) : Wnu (Option Ptr) := do
  let login ← string val
  loginChars login
  modify fun s => { s with good_login := s.reject = 0 }
  if (← get).reject ≠ 0 then return val
  else
    let userpass ← stored .userpass
    errIf (userpass ≠ none ∧ userpass ≠ login) USER
    if login = root then
      err (USER ||| HOSTILE)
      modify fun s => { s with good_login := false }
      return val
    else if ¬env.isalias login then
      err USER
      modify fun s => { s with good_login := false }
      return val
    else
      (if env.rpwd ≠ [] then check_reserved env login else pure ())
      return val

/-! ## The password -/

/-- a character that is not allowed in passwords -/
def badpasswd (c : UInt8) : Bool := !isascii c || !isprint c || c = '\n'.toUInt8 || c = '\r'.toUInt8

def password : Bytes := bytes "password"

/-- report every bad character -/
def passwdChars : Bytes → Wnu Unit
  | [] => pure ()
  | c :: cs => do
    errIf (badpasswd c) USER
    passwdChars cs

/-- the first copy of the password, or the second one, which is to be the same -/
def check_passwd (env : Env) (val : Ptr) : Wnu (Option Ptr) := do
  match (← get).vars .userpass with
  | some p =>
    errIf ((← string val) ≠ (← string p)) USER
    return env.stray val
  | none =>
    let pass ← string val
    if pass.length = 0 then
      err USER
      return env.stray val
    else if pass.length < 4 then
      err USER
      return env.stray val
    else
      errIf (pass.length > 40) (HOSTILE ||| USER)
      let loginid ← stored .loginid
      errIf (loginid ≠ none ∧ (loginid = some pass ∨ pass = password)) USER
      passwdChars pass
      modify fun s => { s with cpt_pass := env.mkpasswd pass }
      return val

/-! ## The full name -/

def badchars : Bytes := bytes ":\\!\x27\""

def badname (c : UInt8) : Bool := !isascii c || !isprint c || c ∈ badchars

/-- the loop over the characters of a name: the cells, the length, and the first character that is not allowed -/
def nameLoop : Bytes → Option (Bytes × ℕ × Option UInt8)
  | [] => none
  | c :: m =>
    if c = 0 then some (c :: m, 0, none)
    else
      let c' := if c = '\t'.toUInt8 then ' '.toUInt8 else c
      (nameLoop m).map fun r => (c' :: r.1, r.2.1 + 1, if badname c' then some c' else r.2.2)

/-- `for ( ; p[-1] == ' '; p--)` -/
def trimLoop (m : Bytes) : ℕ → Option ℕ
  | 0 => none
  | p + 1 => do if (← load m p) = ' '.toUInt8 then trimLoop m p else return p + 1

/-- what `check_fullname` does to the cells: these, the first bad character, and the length that is left -/
def trim (m : Bytes) (val : ℕ) : Option (Bytes × Option UInt8 × ℤ) := do
  let (l, n, bad) ← nameLoop (m.drop val)
  let m := m.take val ++ l
  let p ← trimLoop m (val + n)
  return (← store m p 0, bad, (p : ℤ) - val)

def MINREALNAME : ℕ := 3

def check_fullname (val : Ptr) : Wnu (Option Ptr) := do
  let val ← firstout val (bytes " \t")
  let (m, bad, len) ← defined (trim (← cells val.block) val.offset)
  setCells val.block m
  errChar bad
  errIf (len < MINREALNAME ∨ len > 40) USER
  return val

/-! ## Shell, editor, terminal, sex and paranoia -/

/-- the number of the entry, or -1 -/
def check_flist (fl : Flist) (val : Bytes) : Wnu ℤ :=
  if fl.kwscan val = 0 then do
    err (USER ||| HOSTILE)
    return -1
  else return fl.kwscan val - 1

def check_shell (env : Env) (val : Ptr) : Wnu (Option Ptr) := do
  let i ← check_flist env.sh (← string val)
  (if i ≥ 0 then modify fun s => { s with shellpath := env.sh.towhat i.toNat, bang := env.sh.bang i.toNat }
    else pure ())
  return val

def check_editor (env : Env) (val : Ptr) : Wnu (Option Ptr) := do
  let i ← check_flist env.ed (← string val)
  (if i ≥ 0 then modify fun s => { s with edpath := env.ed.towhat i.toNat } else pure ())
  return val

def short_list : List Bytes := [bytes "ansi", bytes "vt100"]

def check_terminal (env : Env) (val : Ptr) : Wnu (Option Ptr) := do
  let is_other := (← string val) = bytes "other"
  let val ← (if is_other then findvar (bytes "otherterm") else pure (some val))
  match val with
  | none =>
    err USER
    return none
  | some p =>
    let term ← string p
    if term = [] then
      err USER
      return p
    else if term ∉ short_list ∧ env.tgetent term ≤ 0 then
      err (if is_other then USER else HOSTILE ||| USER)
      return p
    else
      setVar .terminal p
      return p

def set_paranoia (val : Ptr) : Wnu (Option Ptr) := do
  let c := (← string val).headD 0
  modify fun s => { s with paranoid := c = 'y'.toUInt8 ∨ c = 'Y'.toUInt8 }
  return val

def set_sex (val : Ptr) : Wnu (Option Ptr) := do
  let val ← firstout val (bytes " ")
  let c := (← string val).headD 0
  modify fun s => { s with sex :=
    if c = 'm'.toUInt8 ∨ c = 'M'.toUInt8 then bytes "Male"
    else if c = 'f'.toUInt8 ∨ c = 'F'.toUInt8 then bytes "Female" else [] }
  return val

/-! ## Keys -/

def MERASE : ℕ := 0
def MINTR : ℕ := 1
def MKILL : ℕ := 2
def MEOF : ℕ := 3

def cntl (c : Char) : UInt8 := c.toUInt8 - '@'.toUInt8

/-- the keys that stand for something else -/
def reserved_key (c : UInt8) (key : ℕ) : Bool :=
  c ∈ ['\r'.toUInt8, '\n'.toUInt8, '\t'.toUInt8, cntl 'Z', cntl 'Y', cntl 'W', cntl 'R', cntl 'O', cntl 'V', cntl 'Q',
    cntl 'S', cntl '[', cntl '\\'] || (c = cntl 'D' && key ≠ MEOF)

def peek (p : Ptr) (i : ℕ) : Wnu UInt8 := do defined (load (← cells p.block) (p.offset + i))

def setKey (key : ℕ) (c : UInt8) : Wnu Unit := do
  modify fun s => { s with keyval := s.keyval.set key c }
  errIf (reserved_key c key) (USER ||| HOSTILE)

/-- a key in the notation `^C`, or by itself -/
def check_key (val : Ptr) (key : ℕ) : Wnu Unit := do
  let c ← peek val 0
  if c = 0 then pure ()
  else
    let d ← peek val 1
    -- `val[2]` is read behind a lone `^` too
    let last ← (if c = '^'.toUInt8 ∧ isascii d then (· == 0) <$> peek val 2 else pure false)
    if last ∧ (isalpha d ∨ d = '?'.toUInt8) then
      setKey key (if d = '?'.toUInt8 then 0x7f else d - (if isupper d then '@'.toUInt8 else '\x60'.toUInt8))
    else if d ≠ 0 ∨ ¬isascii c then err (USER ||| HOSTILE)
    else if isprint c then err (USER ||| HOSTILE)
    else setKey key c

def check_backspace (val : Ptr) : Wnu (Option Ptr) := do
  check_key val MERASE
  return val

def check_interupt (val : Ptr) : Wnu (Option Ptr) := do
  check_key val MINTR
  return val

def check_kill (val : Ptr) : Wnu (Option Ptr) := do
  check_key val MKILL
  return val

/-! ## Paragraphs -/

def newline : UInt8 := '\n'.toUInt8

def MAXCOL : ℕ := 71
def MINCOL : ℕ := 48

/-- the variables of `wrap_text`, with the cells of the text up to `c`; `last_space` is one of these -/
structure Wrap where
  text : Bytes
  col : ℕ
  last_space : Option ℕ
  have_wrapped : Bool

/-- break the line at the last space if it is too long -/
def breakLine (w : Wrap) (c : UInt8) : Wrap :=
  match w.last_space with
  | some l =>
    if MAXCOL < w.col ∧ c ≠ newline then ⟨w.text.set l newline, w.text.length - l, none, true⟩ else w
  | none => w

/-- the `switch` of `wrap_text`; `next` is the character behind `c` -/
def wrapChar (w : Wrap) (c : UInt8) (next : Option UInt8) : Option Wrap :=
  let space : Wrap := ⟨w.text ++ [' '.toUInt8], w.col + 1, some w.text.length, w.have_wrapped⟩
  if c = newline then
    let line : Wrap := ⟨w.text ++ [newline], 0, none, false⟩
    if w.have_wrapped ∧ w.col < MINCOL then
      next.map fun d => if d ≠ newline ∧ d ≠ ' '.toUInt8 ∧ d ≠ 0 then space else line
    else some line
  else if c = ' '.toUInt8 ∨ c = '\t'.toUInt8 then
    if MAXCOL < w.col then some ⟨w.text ++ [newline], 0, none, w.have_wrapped⟩ else some space
  else some { w with text := w.text ++ [c], col := w.col + 1 }

/-- the loop of `wrap_text` with the cells from `c` on -/
def wrapLoop : Bytes → Wrap → Option Bytes
  | [], _ => none
  | c :: m, w => if c = 0 then some (w.text ++ c :: m) else do wrapLoop m (← wrapChar (breakLine w c) c m.head?)

/-- break long lines -/
def wrap_text (c : Bytes) : Option Bytes := wrapLoop c ⟨[], 0, none, false⟩

/-- the first pass of `clean_text` with the cells between `cp2` and `cp1` and the cells from `cp1` on: the cells from
`cp2` on, and how far `cp2` and `cp1` get -/
def stripLoop : Bytes → Bytes → Option (Bytes × ℕ × ℕ)
  | _, [] => none
  | mid, c :: m =>
    if c = 0 then some (0 :: (mid ++ c :: m).tail, 0, 0)
    else if c = '\r'.toUInt8 then (stripLoop (mid ++ [c]) m).map fun r => (r.1, r.2.1, r.2.2 + 1)
    else (stripLoop (mid ++ [c]).tail m).map fun r => (c :: r.1, r.2.1 + 1, r.2.2 + 1)

/-- the second pass with `cp1 - val` and `start`: the character behind the leading blanks, `cp1 - val` and `start` -/
def blankLoop : Bytes → ℕ → ℕ → Option (UInt8 × ℕ × ℕ)
  | [], _, _ => none
  | c :: m, cp1, start =>
    if c ≠ 0 ∧ isspace c then blankLoop m (cp1 + 1) (if c = newline then cp1 + 1 else start)
    else some (c, cp1 + 1, start)

/-- the last character in front of `p` that is not a space -/
def lastLoop (m : Bytes) : ℕ → Option ℕ
  | 0 => none
  | p + 1 => do if isspace (← load m p) then lastLoop m p else return p

/-- where the clean text is: in the cells it was in, or in a block of its own -/
inductive Cleaned where
  | here (p : ℕ)
  | copied (m : Bytes) (p : ℕ)

/-- what `clean_text` does to the cells -/
def clean (m : Bytes) (val : ℕ) : Option (Bytes × Cleaned) := do
  let (l, i, j) ← stripLoop [] (m.drop val)
  let m := m.take val ++ l
  let (c, cp1, start) ← blankLoop l 0 0
  if c = 0 then return (m, .here (val + cp1))
  else
    let last ← lastLoop m (val + i)
    if last + 1 < val + j then
      let m ← store m (last + 1) newline
      let m ← store m (last + 2) 0
      return (← onward m (val + start) wrap_text, .here (val + start))
    else
      let copy := (m.drop val).take (last - val + 1) ++ [newline, 0]
      return (m, .copied (← onward copy start wrap_text) start)

def clean_text (val : Ptr) : Wnu (Option Ptr) := do
  let (m, text) ← defined (clean (← cells val.block) val.offset)
  setCells val.block m
  match text with
  | .here p => return some ⟨val.block, p⟩
  | .copied c p =>
    let k := (← get).copies.length
    modify fun s => { s with copies := s.copies ++ [c] }
    return some ⟨.copy k, p⟩

end MNetSoft.Ownu
