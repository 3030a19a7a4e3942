/-
The privileged wrapper of `pnewuser` as a whole: `nuseradd-freebsd.c`, a set-user-id program that anybody may run. It
gives its privileges up, reads the configuration and the options, checks them, takes its privileges back and becomes
`pw useradd`.

The system is a parameter: what it answers may depend on every call before, and the calls that change the user and group
ids are among them. The ids are those of the process, with the rules of the system about who may change them to what.
- `checkargs_spec`: what has been asked and answered when all arguments have passed.
- `main_separated`: what is done with which ids, in any run, and what `pw` is executed with.
- `request_useradd`: what is executed of a request that `runuseradd` hands over.

Left out is what `getopt` prints. The name of the program is what `basename` has made of it.
-/
import Mathlib.Tactic
import MNetSoft.Core.CString
import MNetSoft.Core.Traces
import MNetSoft.Pnewuser.Basedir
import MNetSoft.Pnewuser.Fields
import MNetSoft.Pnewuser.Uidrange

namespace MNetSoft.Pnewuser.Wrapper

open MNetSoft.CString MNetSoft.Effects MNetSoft.Traces MNetSoft.Pnewuser.Nuseradd

/-! ## User and group ids -/

/-- the real, effective and saved ids of a process -/
@[ext]
structure Ids where
  ruid : ℕ
  euid : ℕ
  suid : ℕ
  rgid : ℕ
  egid : ℕ
  sgid : ℕ
deriving DecidableEq, Repr

/-- the ids of a program that has just been executed: the saved ones are the effective ones -/
structure Started extends Ids where
  suid_eq : suid = euid
  sgid_eq : sgid = egid

namespace Ids

variable (ids : Ids)

/-- to the real or the saved id, or to any by the superuser; else nothing happens -/
def seteuid (uid : ℕ) : Ids := if uid = ids.ruid ∨ uid = ids.suid ∨ ids.euid = 0 then { ids with euid := uid } else ids

def setegid (gid : ℕ) : Ids := if gid = ids.rgid ∨ gid = ids.sgid ∨ ids.euid = 0 then { ids with egid := gid } else ids

/-- all three of them, to the real or the effective id, or to any by the superuser -/
def setuid (uid : ℕ) : Ids :=
  if uid = ids.ruid ∨ uid = ids.euid ∨ ids.euid = 0 then { ids with ruid := uid, euid := uid, suid := uid } else ids

def setgid (gid : ℕ) : Ids :=
  if gid = ids.rgid ∨ gid = ids.egid ∨ ids.euid = 0 then { ids with rgid := gid, egid := gid, sgid := gid } else ids

/-- nothing can be done that the user could not do -/
def Unprivileged : Prop := ids.euid = ids.ruid ∧ ids.egid = ids.rgid

/-- and the privileges cannot be taken back -/
def Discarded : Prop := ids.Unprivileged ∧ ids.suid = ids.ruid ∧ ids.sgid = ids.rgid

end Ids

/-! ## Model -/

/-- the calls of the program that can be seen from outside -/
inductive Event where
  | seteuid (uid : ℕ)
  | setegid (gid : ℕ)
  | setuid (uid : ℕ)
  | setgid (gid : ℕ)
  | getvalue (varname : Str)
  | getlist (varname : Str)
  | getgrnam (group : Str)
  | getgrgid (gid : BitVec 32)
  | login_getclass (class_ : Str)
  | realpath (path : Str)
  | getusershell
  | execve (path : Str) (argv env : List Str)
  | stderr (text : Str)
deriving DecidableEq, Repr

def Ids.call (ids : Ids) : Event → Ids
  | .seteuid uid => ids.seteuid uid
  | .setegid gid => ids.setegid gid
  | .setuid uid => ids.setuid uid
  | .setgid gid => ids.setgid gid
  | _ => ids

/-- the ids after some calls -/
def Ids.after (ids : Ids) (calls : List Event) : Ids := calls.foldl Ids.call ids

/-- the answers of the system, from the calls before them -/
structure Machine where
  ids : Started
  /-- `NULL` without memory -/
  getvalue : List Event → Option Str
  getlist : List Event → Option (List Str)
  getgrnam : List Event → Bool
  getgrgid : List Event → Bool
  login_getclass : List Event → Bool
  realpath : List Event → Resolved
  /-- the shells of the file, one after the other -/
  getusershell : List Event → List Str
  /-- there is memory -/
  strdup : List Event → Bool
  /-- the other program runs -/
  execve : List Event → Bool
  /-- the text for `errno` -/
  strerror : List Event → Str
  prog : Str

/-- how the program ends -/
inductive End where
  | replaced
  | failure
deriving DecidableEq, Repr

abbrev Nuseradd := Tr End Event

def USERADD : Str := "/usr/sbin/pw".toList

def RESH : Str := "/usr/local/bin/resh".toList

def ENV : List Str := ["PATH=/bin:/usr/sbin".toList]

/-- the arguments that are options of the wrapper -/
structure Opts where
  homedir : Option Str
  comment : Option Str
  skeldir : Option Str
  passfd : Option Str
  user : Option Str
  shell : Option Str
deriving DecidableEq, Repr

def Opts.none : Opts := ⟨.none, .none, .none, .none, .none, .none⟩

/-- an option with its argument; nothing if there is no such option -/
def Opts.set (o : Opts) (c : Char) (optarg : Str) : Option Opts :=
  if c = 'd' then some { o with homedir := some optarg }
  else if c = 'c' then some { o with comment := some optarg }
  else if c = 'k' then some { o with skeldir := some optarg }
  else if c = 'H' then some { o with passfd := some optarg }
  else if c = 'l' then some { o with user := some optarg }
  else if c = 's' then some { o with shell := some optarg }
  else .none

/-- The loop over `getopt`, and the arguments that are left. Every option but `?` takes an argument, in the same word
or in the next one. -/
def getopts : Opts → List Str → Option (Opts × List Str)
  | o, [] => some (o, [])
  | o, ['-', '-'] :: argv => some (o, argv)
  | o, ['-', c] :: argv =>
    match argv with
    | [] => .none
    | optarg :: argv => (o.set c optarg).bind fun o => getopts o argv
  | o, ('-' :: c :: optarg) :: argv => (o.set c optarg).bind fun o => getopts o argv
  | o, arg :: argv => some (o, arg :: argv)

/-- the array `args`, without its constant elements -/
structure Args extends Opts where
  gid : Option Str
  loginclass : Option Str
  uidrange : Option Str

/-- what of the array is an argument: all in front of the first `NULL` -/
def Args.argv (a : Args) : List Str :=
  ([some "pw".toList, some "useradd".toList, some "-m".toList, some "-q".toList, some "-d".toList, a.homedir,
    some "-c".toList, a.comment, some "-g".toList, a.gid, some "-k".toList, a.skeldir, some "-L".toList, a.loginclass,
    some "-p".toList, some "31-JAN-1970".toList, some "-s".toList, a.shell, some "-H".toList,
      a.passfd, some "-n".toList,
    a.user].takeWhile Option.isSome).reduceOption

/-- a call and what it returns -/
def ask {α : Type} (question : Event) (answers : List Event → α) : Nuseradd α := do
  emit question
  answer answers

section Program

variable (m : Machine)

def usage : Nuseradd PUnit := do
  emit (.stderr ("Usage: ".toList ++ m.prog ++
    " -d <homedir> -c '<comment>' -H <fd> -k <skeldir> -l <login> -s <shell>.\n".toList))
  throw .failure

def getids : Nuseradd Ids := answer m.ids.after

/-- the effective ids there were -/
def privdrop : Nuseradd (ℕ × ℕ) := do
  let ids ← getids m
  emit (.setegid ids.rgid)
  emit (.seteuid ids.ruid)
  return (ids.egid, ids.euid)

def privget (egid euid : ℕ) : Nuseradd PUnit := do
  emit (.seteuid euid)
  emit (.setegid egid)

def getvalue (varname : Str) : Nuseradd (Option Str) := ask (.getvalue varname) m.getvalue

def valid_group (group : Str) : Nuseradd Bool := do
  let found ← ask (.getgrnam group) m.getgrnam
  if found then return true
  else
    match strtouid group with
    | none => return false
    | some gid =>
      if gid = 0 then return false
      else ask (.getgrgid gid) m.getgrgid

def valid_loginclass (class_ : Str) : Nuseradd Bool :=
  if class_ = [] then return true else ask (.login_getclass class_) m.login_getclass

def valid_basedir (basedir : Str) : Nuseradd Bool := do
  let resolved ← ask (.realpath basedir) m.realpath
  let userdev ← ask (.getlist "userdev".toList) m.getlist
  return Nuseradd.valid_basedir (fun _ => resolved) userdev basedir ≠ 0

def valid_shell (shell : Str) : Nuseradd Bool :=
  if shell = RESH then return true
  else do
    let shells ← ask .getusershell m.getusershell
    return shell ∈ shells

/-- this copy does not look at the first character, nor at the length -/
def valid_user (username : Str) : Bool := username.all fun c => isascii c && isprint c && c.isAlphanum

def valid_uidrange (uidrange : Str) : Nuseradd Bool := do
  let memory ← answer m.strdup
  return Nuseradd.valid_uidrange memory uidrange ≠ 0

/-- an argument, its name, what is said of the configuration, and its check -/
structure Item where
  val : Option Str
  what : Str
  conf : Str
  valid : Str → Nuseradd Bool

/-- the number of errors of an argument -/
def baditem (i : Item) : Nuseradd ℕ :=
  match i.val with
  | none => do
    emit (.stderr ("Missing or empty ".toList ++ i.what ++ "!".toList ++ i.conf ++ ['\n']))
    return 1
  | some val =>
    if val = [] then do
      emit (.stderr ("Missing or empty ".toList ++ i.what ++ "!".toList ++ i.conf ++ ['\n']))
      return 1
    else do
      let ok ← i.valid val
      if ok then return 0
      else do
        emit (.stderr ("Bad ".toList ++ i.what ++ ": ".toList ++ val ++ i.conf ++ ['\n']))
        return 1

/-- the arguments as `checkargs` checks them, in order -/
def items (a : Args) : List Item :=
  [⟨a.user, "username".toList, [], fun val => return valid_user val⟩,
    ⟨a.gid, "group".toList, " (Check 'group' in conf file)".toList, valid_group m⟩,
    ⟨a.homedir, "home directory".toList, " (check 'userdev' in conf file)".toList, valid_basedir m⟩,
    ⟨a.comment, "comment".toList, [], fun val => return valid_gecos val⟩,
    ⟨a.loginclass, "login class".toList, " (Check 'loginclass' in conf file)".toList, valid_loginclass m⟩,
    ⟨a.shell, "shell".toList, [], valid_shell m⟩,
    ⟨a.uidrange, "UID range".toList, " (Check 'uidrange' in conf file)".toList, valid_uidrange m⟩,
    ⟨a.skeldir, "Skeleton directory".toList, [], fun _ => return true⟩]

/-- the sum of the errors -/
def errs : List Item → Nuseradd ℕ
  | [] => return 0
  | i :: rest => do
    let e ← baditem i
    let es ← errs rest
    return e + es

def checkargs (a : Args) : Nuseradd PUnit := do
  let n ← errs (items m a)
  if n ≠ 0 then usage m else return

/-- the class, `default` if there is none -/
def getclass : Nuseradd (Option Str) := do
  let loginclass ← getvalue m "loginclass".toList
  match loginclass with
  | some loginclass => return some loginclass
  | none => do
    let memory ← answer m.strdup
    return if memory then some "default".toList else none

/-- the configuration and the options -/
def getargs (argv : List Str) : Nuseradd Args := do
  let gid ← getvalue m "group".toList
  let uidrange ← getvalue m "uidrange".toList
  let loginclass ← getclass m
  match getopts .none argv with
  | some (opts, []) => return { opts with gid := gid, loginclass := loginclass, uidrange := uidrange }
  | _ => do
    usage m
    throw .failure

/-- the class `default` is the empty one -/
def makeclass (a : Args) : Nuseradd Args := do
  if a.loginclass = some "default".toList then do
    let memory ← answer m.strdup
    if memory then return { a with loginclass := some [] }
    else do
      let text ← answer m.strerror
      emit (.stderr ("malloc: ".toList ++ text ++ ['\n']))
      throw .failure
  else return a

/-- the part of `main` without privileges -/
def prepare (argv : List Str) : Nuseradd Args := do
  let a ← getargs m argv
  checkargs m a
  makeclass m a

/-- the end of `main`: the other program, or a message without privileges -/
def replace (a : Args) : Nuseradd PUnit := do
  let runs ← ask (.execve USERADD a.argv ENV) m.execve
  if runs then throw .replaced
  else do
    let text ← answer m.strerror
    let ids ← getids m
    emit (.setgid ids.rgid)
    emit (.setuid ids.ruid)
    emit (.stderr ("Running ".toList ++ USERADD ++ " failed: ".toList ++ text ++ ['\n']))
    throw .failure

/-- the arguments behind the name of the program -/
def main (argv : List Str) : Nuseradd PUnit := do
  let ids ← privdrop m
  let a ← prepare m argv
  privget ids.1 ids.2
  replace m a

end Program

/-! ## Questions -/

/-- a call that leaves the ids and the program as they are -/
def Query : Event → Prop
  | .seteuid _ => False
  | .setegid _ => False
  | .setuid _ => False
  | .setgid _ => False
  | .execve _ _ _ => False
  | _ => True

theorem after_append (ids : Ids) (s t : List Event) : ids.after (s ++ t) = (ids.after s).after t := List.foldl_append

theorem after_query {new : List Event} (h : ∀ e ∈ new, Query e) (ids : Ids) : ids.after new = ids := by
  induction new with
  | nil => rfl
  | cons e new ih =>
    obtain ⟨he, hnew⟩ := List.forall_mem_cons.1 h
    have hcall : ids.call e = ids := by
      cases e <;> first | rfl | exact he.elim
    rw [Ids.after, List.foldl_cons, hcall]
    exact ih hnew

/-- a question has been asked, and answered so -/
def Told {α : Type} (t : List Event) (question : Event) (answers : List Event → α) (a : α) : Prop :=
  ∃ s, s <+: t ∧ s.getLast? = some question ∧ answers s = a

theorem Told.mono {α : Type} {s t : List Event} {question : Event} {answers : List Event → α} {a : α}
    (h : Told s question answers a) (hle : s <+: t) : Told t question answers a := by
  obtain ⟨u, hu, hlast, hanswer⟩ := h
  exact ⟨u, hu.trans hle, hlast, hanswer⟩

/-- only questions have been asked since -/
abbrev Asked : List Event → List Event → Prop := Extends Query

theorem Asked.front {s t : List Event} (h : Asked s t) : s <+: t := by
  obtain ⟨new, rfl, -⟩ := h
  exact List.prefix_append s new

variable {m : Machine} {s : List Event}

/-- one question with its answer -/
theorem outcome_ask {α : Type} (question : Event) (hq : Query question) (answers : List Event → α) :
    Outcome (fun _ t => Asked s t) (ask question answers) s fun a t => Asked s t ∧ Told t question answers a := by
  have hnew : Asked s (s ++ [question]) := ⟨[question], rfl, List.forall_mem_singleton.2 hq⟩
  exact ⟨hnew, _, List.prefix_refl _, List.getLast?_concat, rfl⟩

/-! ## Checks -/

/-- what a check asks, and what is so if it passes -/
def Sound (valid : Str → Nuseradd Bool) (G : List Event → Str → Prop) : Prop :=
  (∀ val s, Outcome (fun _ t => Asked s t) (valid val) s fun ok t => Asked s t ∧ (ok = true → G t val)) ∧
    ∀ {s t val}, G s val → s <+: t → G t val

/-- a check that asks nothing -/
theorem sound_pure (valid : Str → Bool) : Sound (fun val => return valid val) fun _ val => valid val = true :=
  ⟨fun _ s => outcome_pure ⟨Extends.refl s, id⟩, fun h _ => h⟩

/-- the group is known by its name or by its number -/
def GroupKnown (m : Machine) (t : List Event) (group : Str) : Prop :=
  Told t (.getgrnam group) m.getgrnam true ∨
    ∃ gid, strtouid group = some gid ∧ gid ≠ 0 ∧ Told t (.getgrgid gid) m.getgrgid true

theorem sound_group (m : Machine) : Sound (valid_group m) (GroupKnown m) := by
  constructor
  · intro group s
    refine (outcome_ask (.getgrnam group) trivial m.getgrnam).bind ?_
    intro found t ht
    obtain ⟨hst, htold⟩ := ht
    refine Outcome.ite (fun hfound => outcome_pure ⟨hst, fun _ => Or.inl (hfound ▸ htold)⟩) fun _ => ?_
    cases hgid : strtouid group with
    | none => exact outcome_pure ⟨hst, fun h => absurd h Bool.false_ne_true⟩
    | some gid =>
      refine Outcome.ite (fun _ => outcome_pure ⟨hst, fun h => absurd h Bool.false_ne_true⟩) fun hne => ?_
      refine (outcome_ask (.getgrgid gid) trivial m.getgrgid).mono (fun _ _ h => hst.trans h) ?_
      intro ok u hu
      exact ⟨hst.trans hu.1, fun hok => Or.inr ⟨gid, hgid, hne, hok ▸ hu.2⟩⟩
  · intro s t group h hle
    rcases h with h | ⟨gid, hgid, hne, h⟩
    · exact Or.inl (h.mono hle)
    · exact Or.inr ⟨gid, hgid, hne, h.mono hle⟩

/-- what `realpath` has made of the directory is below one of the configuration -/
def HomeListed (m : Machine) (t : List Event) (homedir : Str) : Prop :=
  ∃ resolved userdev, Told t (.realpath homedir) m.realpath resolved ∧
  Told t (.getlist "userdev".toList) m.getlist userdev ∧ BeginsDir userdev resolved.realbase

theorem sound_basedir (m : Machine) : Sound (valid_basedir m) (HomeListed m) := by
  constructor
  · intro homedir s
    refine (outcome_ask (.realpath homedir) trivial m.realpath).bind ?_
    intro resolved t ht
    obtain ⟨hst, hresolved⟩ := ht
    refine Outcome.bind ((outcome_ask (.getlist "userdev".toList) trivial m.getlist).mono (fun _ _ h => hst.trans h)
      fun _ _ h => h) ?_
    intro userdev u hu
    obtain ⟨htu, huserdev⟩ := hu
    refine outcome_pure ⟨hst.trans htu, fun hok => ⟨resolved, userdev, hresolved.mono htu.front, huserdev, ?_⟩⟩
    have hle := validBasedir_le_one testDir (fun _ => resolved) userdev homedir
    have hne := of_decide_eq_true hok
    refine (valid_basedir_eq_one (fun _ => resolved) userdev homedir).1.1 ?_
    rw [Nuseradd.valid_basedir] at hne ⊢
    omega
  · intro s t homedir h hle
    obtain ⟨resolved, userdev, hresolved, huserdev, hbegins⟩ := h
    exact ⟨resolved, userdev, hresolved.mono hle, huserdev.mono hle, hbegins⟩

/-- the class is empty or known -/
def ClassKnown (m : Machine) (t : List Event) (class_ : Str) : Prop :=
  class_ = [] ∨ Told t (.login_getclass class_) m.login_getclass true

theorem sound_loginclass (m : Machine) : Sound (valid_loginclass m) (ClassKnown m) := by
  constructor
  · intro class_ s
    refine Outcome.ite (fun hempty => outcome_pure ⟨Extends.refl s, fun _ => Or.inl hempty⟩) fun _ => ?_
    refine (outcome_ask (.login_getclass class_) trivial m.login_getclass).post ?_
    intro ok t ht
    exact ⟨ht.1, fun hok => Or.inr (hok ▸ ht.2)⟩
  · intro s t class_ h hle
    rcases h with h | h
    · exact Or.inl h
    · exact Or.inr (h.mono hle)

/-- the shell is listed, or the restricted one -/
def ShellKnown (m : Machine) (t : List Event) (shell : Str) : Prop :=
  shell = RESH ∨ ∃ shells, Told t .getusershell m.getusershell shells ∧ shell ∈ shells

theorem sound_shell (m : Machine) : Sound (valid_shell m) (ShellKnown m) := by
  constructor
  · intro shell s
    refine Outcome.ite (fun hresh => outcome_pure ⟨Extends.refl s, fun _ => Or.inl hresh⟩) fun _ => ?_
    refine (outcome_ask .getusershell trivial m.getusershell).bind ?_
    intro shells t ht
    exact outcome_pure ⟨ht.1, fun hok => Or.inr ⟨shells, ht.2, of_decide_eq_true hok⟩⟩
  · intro s t shell h hle
    rcases h with h | ⟨shells, hshells, hmem⟩
    · exact Or.inl h
    · exact Or.inr ⟨shells, hshells.mono hle, hmem⟩

theorem valid_uidrange_ne_zero {memory : Bool} {uidrange : Str} (h : Nuseradd.valid_uidrange memory uidrange ≠ 0) :
    Nuseradd.valid_uidrange true uidrange = 1 := by
  unfold Nuseradd.valid_uidrange at h ⊢
  cases memory with
  | false => exact absurd rfl h
  | true =>
    dsimp only at h ⊢
    simp only [Bool.not_true, Bool.false_eq_true, if_false] at h ⊢
    split at h
    · split at h
      · split_ifs at h ⊢
        · exact absurd rfl h
        · exact absurd rfl h
        · rfl
      · exact absurd rfl h
    · exact absurd rfl h

theorem sound_uidrange (m : Machine) :
    Sound (valid_uidrange m) fun _ uidrange => Nuseradd.valid_uidrange true uidrange = 1 := by
  refine ⟨fun uidrange s => ?_, fun h _ => h⟩
  refine Outcome.bind (outcome_answer (Q := fun _ t => t = s) rfl) ?_
  intro memory t ht
  subst ht
  exact outcome_pure ⟨Extends.refl t, fun hok => valid_uidrange_ne_zero (of_decide_eq_true hok)⟩

/-! ## All checks -/

/-- the argument is there and has passed its check -/
def Passed (t : List Event) (i : Item) (G : List Event → Str → Prop) : Prop :=
  ∃ val, i.val = some val ∧ val ≠ [] ∧ G t val

theorem baditem_spec {i : Item} {G : List Event → Str → Prop} (h : Sound i.valid G) (s : List Event) :
    Outcome (fun _ t => Asked s t) (baditem i) s fun n t => Asked s t ∧ (n = 0 → Passed t i G) := by
  unfold baditem
  have hmissing (text : Str) :
      Outcome (fun _ t => Asked s t) (do emit (.stderr text); return 1 : Nuseradd ℕ) s fun n t =>
      Asked s t ∧ (n = 0 → Passed t i G) := ⟨Extends.single trivial s, fun h => absurd h one_ne_zero⟩
  cases hval : i.val with
  | none => exact hmissing _
  | some val =>
    refine Outcome.ite (fun _ => hmissing _) fun hne => (h.1 val s).bind ?_
    intro ok t ht
    refine Outcome.ite (fun hok => outcome_pure ⟨ht.1, fun _ => ⟨val, hval, hne, ht.2 hok⟩⟩) fun _ => ?_
    exact ⟨ht.1.trans (Extends.single trivial t), fun h => absurd h one_ne_zero⟩

theorem errs_spec {l : List Item} {Gs : List (List Event → Str → Prop)}
    (h : List.Forall₂ (fun i G => Sound i.valid G) l Gs)
    (s : List Event) : Outcome (fun _ t => Asked s t) (errs l) s fun n t =>
      Asked s t ∧ (n = 0 → List.Forall₂ (Passed t) l Gs) := by
  induction h generalizing s with
  | nil => exact outcome_pure ⟨Extends.refl s, fun _ => .nil⟩
  | @cons i G l Gs hi _ ih =>
    refine (baditem_spec hi s).bind ?_
    intro n t ht
    refine Outcome.bind ((ih t).mono (fun _ _ h => ht.1.trans h) fun _ _ h => h) ?_
    intro k u hu
    refine outcome_pure ⟨ht.1.trans hu.1, fun hzero => ?_⟩
    obtain ⟨hn, hk⟩ := Nat.add_eq_zero_iff.1 hzero
    obtain ⟨val, hval, hne, hG⟩ := ht.2 hn
    exact .cons ⟨val, hval, hne, hi.2 hG hu.1.front⟩ (hu.2 hk)

/-- the arguments have all passed -/
structure Checked (m : Machine) (t : List Event) (a : Args) : Prop where
  user : ∃ val, a.user = some val ∧ val ≠ [] ∧ valid_user val = true
  group : ∃ val, a.gid = some val ∧ val ≠ [] ∧ GroupKnown m t val
  homedir : ∃ val, a.homedir = some val ∧ val ≠ [] ∧ HomeListed m t val
  comment : ∃ val, a.comment = some val ∧ val ≠ [] ∧ valid_gecos val = true
  loginclass : ∃ val, a.loginclass = some val ∧ val ≠ [] ∧ ClassKnown m t val
  shell : ∃ val, a.shell = some val ∧ val ≠ [] ∧ ShellKnown m t val
  uidrange : ∃ val, a.uidrange = some val ∧ val ≠ [] ∧ Nuseradd.valid_uidrange true val = 1
  skeldir : ∃ val, a.skeldir = some val ∧ val ≠ []

theorem errs_items (m : Machine) (a : Args) (s : List Event) :
    Outcome (fun _ t => Asked s t) (errs (items m a)) s fun n t => Asked s t ∧ (n = 0 → Checked m t a) := by
  have hsound : List.Forall₂ (fun i G => Sound i.valid G) (items m a) [fun _ val => valid_user val = true, GroupKnown m,
      HomeListed m, fun _ val => valid_gecos val = true, ClassKnown m, ShellKnown m,
      fun _ val => Nuseradd.valid_uidrange true val = 1, fun _ _ => true = true] :=
    .cons (sound_pure _) <| .cons (sound_group m) <| .cons (sound_basedir m) <| .cons (sound_pure _) <|
      .cons (sound_loginclass m) <| .cons (sound_shell m) <| .cons (sound_uidrange m) <| .cons (sound_pure _) .nil
  refine (errs_spec hsound s).post ?_
  intro n t ht
  refine ⟨ht.1, fun hn => ?_⟩
  have hall := ht.2 hn
  simp only [items, List.forall₂_cons, List.forall₂_nil_left_iff, and_true] at hall
  obtain ⟨huser, hgroup, hhome, hcomment, hclass, hshell, huid, val, hval, hne, -⟩ := hall
  exact ⟨huser, hgroup, hhome, hcomment, hclass, hshell, huid, val, hval, hne⟩

/-- what has been asked and answered when all arguments have passed -/
theorem checkargs_spec (m : Machine) (a : Args) (s : List Event) :
    Outcome (fun _ t => Asked s t) (checkargs m a) s fun _ t => Asked s t ∧ Checked m t a := by
  refine (errs_items m a s).bind ?_
  intro n t ht
  refine Outcome.ite (fun _ => ht.1.trans (Extends.single trivial t)) fun hn => ?_
  exact outcome_pure ⟨ht.1, ht.2 (not_not.1 hn)⟩

/-! ## The arguments -/

/-- the class is the one of the configuration; without one, `default` -/
def ClassTold (m : Machine) (t : List Event) (loginclass : Option Str) : Prop :=
  Told t (.getvalue "loginclass".toList) m.getvalue loginclass ∨
    Told t (.getvalue "loginclass".toList) m.getvalue none ∧ ∀ val ∈ loginclass, val = "default".toList

/-- the arguments come from the configuration and from the options -/
structure Gathered (m : Machine) (argv : List Str) (t : List Event) (a : Args) : Prop where
  opts : getopts .none argv = some (a.toOpts, [])
  gid : Told t (.getvalue "group".toList) m.getvalue a.gid
  loginclass : ClassTold m t a.loginclass
  uidrange : Told t (.getvalue "uidrange".toList) m.getvalue a.uidrange

theorem getclass_spec (m : Machine) (s : List Event) :
    Outcome (fun _ t => Asked s t) (getclass m) s fun c t => Asked s t ∧ ClassTold m t c := by
  refine Outcome.bind (outcome_ask (.getvalue "loginclass".toList) trivial m.getvalue) ?_
  intro c t ht
  cases c with
  | some c => exact outcome_pure ⟨ht.1, Or.inl ht.2⟩
  | none =>
    refine Outcome.bind (outcome_answer (Q := fun _ u => u = t) rfl) ?_
    intro memory u hu
    subst hu
    refine outcome_pure ⟨ht.1, Or.inr ⟨ht.2, fun val hval => ?_⟩⟩
    split_ifs at hval
    · exact (Option.some.inj hval).symm
    · cases hval

theorem getargs_spec (m : Machine) (argv : List Str) (s : List Event) :
    Outcome (fun _ t => Asked s t) (getargs m argv) s fun a t => Asked s t ∧ Gathered m argv t a := by
  refine Outcome.bind (outcome_ask (.getvalue "group".toList) trivial m.getvalue) ?_
  intro gid t ht
  refine Outcome.bind ((outcome_ask (.getvalue "uidrange".toList) trivial m.getvalue).mono (fun _ _ h => ht.1.trans h)
    fun _ _ h => h) ?_
  intro uidrange u hu
  refine Outcome.bind ((getclass_spec m u).mono (fun _ _ h => ht.1.trans (hu.1.trans h)) fun _ _ h => h) ?_
  intro loginclass v hv
  have hsv : Asked s v := ht.1.trans (hu.1.trans hv.1)
  rcases hopts : getopts .none argv with _ | ⟨opts, _ | ⟨arg, left⟩⟩
  · exact hsv.trans (Extends.single trivial v)
  · exact outcome_pure ⟨hsv, hopts, ht.2.mono (Asked.front (hu.1.trans hv.1)), hv.2, hu.2.mono (Asked.front hv.1)⟩
  · exact hsv.trans (Extends.single trivial v)

/-- the class that `pw` is asked for -/
def pwClass (loginclass : Option Str) : Option Str := if loginclass = some "default".toList then some [] else loginclass

theorem makeclass_spec (m : Machine) (a : Args) (s : List Event) :
    Outcome (fun _ t => Asked s t) (makeclass m a) s fun b t => Asked s t ∧
    b = { a with loginclass := pwClass a.loginclass } := by
  unfold makeclass pwClass
  by_cases hdefault : a.loginclass = some "default".toList
  · rw [if_pos hdefault]
    refine Outcome.bind (outcome_answer (Q := fun _ t => t = s) rfl) ?_
    intro memory t ht
    subst ht
    refine Outcome.ite (fun _ => outcome_pure ⟨Extends.refl t, ?_⟩) fun _ => ?_
    · rw [if_pos hdefault]
    · refine Outcome.bind (outcome_answer (Q := fun _ u => u = t) rfl) ?_
      intro text u hu
      subst hu
      exact Extends.single trivial u
  · rw [if_neg hdefault, if_neg hdefault]
    exact outcome_pure ⟨Extends.refl s, rfl⟩

/-! ## Separation -/

/-- the other program has been tried -/
def Ran (t : List Event) : Prop := ∃ path args env, .execve path args env ∈ t

/-- what the program does and with which ids -/
structure Separated (m : Machine) (argv : List Str) (before : List Event) (e : Event) : Prop where
  unprivileged : Query e → (m.ids.after before).Unprivileged
  discarded : Query e → Ran before → (m.ids.after before).Discarded
  execve : ∀ path args env, e = .execve path args env → ¬Ran before ∧
    m.ids.after before = m.ids.toIds ∧ path = USERADD ∧ env = ENV ∧ ∃ a, Gathered m argv before a ∧ Checked m before a ∧
      args = { a with loginclass := pwClass a.loginclass }.argv

section Separation

variable {argv : List Str} {t : List Event}

theorem Checked.mono {a : Args} (h : Checked m s a) (hle : s <+: t) : Checked m t a where
  user := h.user
  group := h.group.imp fun _ hval => ⟨hval.1, hval.2.1, (sound_group m).2 hval.2.2 hle⟩
  homedir := h.homedir.imp fun _ hval => ⟨hval.1, hval.2.1, (sound_basedir m).2 hval.2.2 hle⟩
  comment := h.comment
  loginclass := h.loginclass.imp fun _ hval => ⟨hval.1, hval.2.1, (sound_loginclass m).2 hval.2.2 hle⟩
  shell := h.shell.imp fun _ hval => ⟨hval.1, hval.2.1, (sound_shell m).2 hval.2.2 hle⟩
  uidrange := h.uidrange
  skeldir := h.skeldir

theorem Gathered.mono {a : Args} (h : Gathered m argv s a) (hle : s <+: t) : Gathered m argv t a where
  opts := h.opts
  gid := h.gid.mono hle
  loginclass := h.loginclass.imp (fun htold => htold.mono hle) fun hnone => ⟨hnone.1.mono hle, hnone.2⟩
  uidrange := h.uidrange.mono hle

/-- a call that changes an id needs no grounds: the rules of the system are what is said about it -/
theorem separated_ids {e : Event} (hq : ¬Query e) (he : ∀ path args env, e ≠ .execve path args env) :
    Separated m argv s e :=
  ⟨fun h => absurd h hq, fun h => absurd h hq, fun path args env h => absurd h (he path args env)⟩

/-- questions leave the ids as they are -/
theorem accords_asked (hids : (m.ids.after s).Unprivileged) (hran : Ran s → (m.ids.after s).Discarded) (h : Asked s t) :
    Accords (Separated m argv) s t := by
  refine h.accords fun new e hnew he => ?_
  have hafter : m.ids.after (s ++ new) = m.ids.after s := by rw [after_append, after_query hnew]
  refine ⟨fun _ => hafter ▸ hids, fun _ hr => hafter ▸ hran ?_, ?_⟩
  · obtain ⟨path, args, env, hmem⟩ := hr
    rcases List.mem_append.1 hmem with hmem | hmem
    · exact ⟨path, args, env, hmem⟩
    · exact (hnew _ hmem).elim
  · intro path args env heq
    subst heq
    exact he.elim

/-- what has been done to the ids before the arguments are read -/
def dropped (m : Machine) : List Event := [.setegid m.ids.rgid, .seteuid m.ids.ruid]

theorem after_dropped (m : Machine) :
    m.ids.after (dropped m) = { m.ids.toIds with euid := m.ids.ruid, egid := m.ids.rgid } := by
  simp [Ids.after, dropped, Ids.call, Ids.setegid, Ids.seteuid]

/-- the saved ids are the ones the program was started with -/
theorem after_privget (h : Asked (dropped m) t) :
    m.ids.after (t ++ [.seteuid m.ids.euid, .setegid m.ids.egid]) = m.ids.toIds := by
  obtain ⟨new, rfl, hnew⟩ := h
  rw [after_append, after_append, after_query hnew, after_dropped]
  simp only [Ids.after, List.foldl_cons, List.foldl_nil, Ids.call, Ids.setegid, Ids.seteuid,
    m.ids.suid_eq, m.ids.sgid_eq, true_or, or_true, if_true]
  exact Ids.ext rfl rfl m.ids.suid_eq.symm rfl rfl m.ids.sgid_eq.symm

theorem after_giveup (ids : Ids) : (ids.after [.setgid ids.rgid, .setuid ids.ruid]).Discarded := by
  simp [Ids.after, Ids.call, Ids.setgid, Ids.setuid, Ids.Discarded, Ids.Unprivileged]

theorem not_ran_dropped : ¬Ran (dropped m) := by
  simp [Ran, dropped]

theorem not_ran_asked (h : Asked (dropped m) t) : ¬Ran t := by
  obtain ⟨new, rfl, hnew⟩ := h
  intro hran
  obtain ⟨path, args, env, hmem⟩ := hran
  rcases List.mem_append.1 hmem with hmem | hmem
  · exact not_ran_dropped ⟨path, args, env, hmem⟩
  · exact (hnew _ hmem).elim

theorem prepare_spec (m : Machine) (argv : List Str) (s : List Event) :
    Outcome (fun _ t => Asked s t) (prepare m argv) s fun b t => Asked s t ∧ ∃ a, Gathered m argv t a ∧ Checked m t a ∧
      b = { a with loginclass := pwClass a.loginclass } := by
  refine (getargs_spec m argv s).bind ?_
  intro a t ht
  refine Outcome.bind ((checkargs_spec m a t).mono (fun _ _ h => ht.1.trans h) fun _ _ h => h) ?_
  intro _ u hu
  refine (makeclass_spec m a u).mono (fun _ _ h => ht.1.trans (hu.1.trans h)) ?_
  intro b v hv
  exact ⟨ht.1.trans (hu.1.trans hv.1), a, ht.2.mono (Asked.front (hu.1.trans hv.1)), hu.2.mono (Asked.front hv.1), hv.2⟩

theorem dropped_accords (m : Machine) (argv : List Str) : Accords (Separated m argv) [] (dropped m) :=
  (accords_emit (s := []) (separated_ids id fun _ _ _ h => by cases h)).trans
    (accords_emit (separated_ids id fun _ _ _ h => by cases h))

/-- the ids are given up for good before the last message -/
theorem giveup_accords (text : Str) (hids : m.ids.after s = m.ids.toIds) :
    Accords (Separated m argv) s (s ++ [.setgid m.ids.rgid] ++ [.setuid m.ids.ruid] ++ [.stderr text]) := by
  have hset : Accords (Separated m argv) s (s ++ [.setgid m.ids.rgid] ++ [.setuid m.ids.ruid]) :=
    (accords_emit (separated_ids id fun _ _ _ h => by cases h)).trans
      (accords_emit (separated_ids id fun _ _ _ h => by cases h))
  have hdiscarded : (m.ids.after (s ++ [.setgid m.ids.rgid] ++ [.setuid m.ids.ruid])).Discarded := by
    rw [List.append_assoc, after_append, hids]
    exact after_giveup m.ids.toIds
  exact hset.trans (accords_asked hdiscarded.1 (fun _ => hdiscarded) (Extends.single trivial _))

/-- the other program is executed with the privileges, or they are given up -/
theorem replace_accords {a : Args} (hs : Accords (Separated m argv) [] s) (hran : ¬Ran s)
    (hids : m.ids.after s = m.ids.toIds) (hgathered : Gathered m argv s a) (hchecked : Checked m s a) :
    Outcome (fun _ t => Accords (Separated m argv) [] t) (replace m { a with loginclass := pwClass a.loginclass }) s
      fun _ t => Accords (Separated m argv) [] t := by
  obtain ⟨args, hargs⟩ : ∃ args, args = { a with loginclass := pwClass a.loginclass }.argv := ⟨_, rfl⟩
  have hexec : Accords (Separated m argv) [] (s ++ [.execve USERADD args ENV]) := by
    refine hs.trans (accords_emit ⟨fun hq => hq.elim, fun hq => hq.elim, ?_⟩)
    intro path args env heq
    cases heq
    exact ⟨hran, hids, rfl, rfl, a, hgathered, hchecked, hargs⟩
  have hafter : m.ids.after (s ++ [.execve USERADD args ENV]) = m.ids.toIds := by
    rw [after_append, hids]
    rfl
  unfold replace
  rw [← hargs]
  refine Outcome.bind (Q := fun _ t => t = s ++ [Event.execve USERADD args ENV]) rfl ?_
  intro runs t ht
  rcases ht with rfl
  refine Outcome.ite (fun _ => hexec) fun _ => ?_
  refine Outcome.bind (outcome_answer (Q := fun _ t => t = s ++ [Event.execve USERADD args ENV]) rfl) ?_
  intro text t ht
  rcases ht with rfl
  refine Outcome.bind (outcome_answer (Q := fun ids t => ids = m.ids.toIds ∧ t = s ++ [Event.execve USERADD args ENV])
    ⟨hafter, rfl⟩) ?_
  intro ids t ht
  rcases ht with ⟨rfl, rfl⟩
  exact hexec.trans (giveup_accords _ hafter)

theorem main_accords (m : Machine) (argv : List Str) :
    Outcome (fun _ t => Accords (Separated m argv) [] t) (main m argv) []
    fun _ t => Accords (Separated m argv) [] t := by
  have hids : (m.ids.after (dropped m)).Unprivileged := by
    rw [after_dropped]
    exact ⟨rfl, rfl⟩
  have hasked {t : List Event} (h : Asked (dropped m) t) : Accords (Separated m argv) [] t :=
    (dropped_accords m argv).trans (accords_asked hids (fun hran => absurd hran not_ran_dropped) h)
  unfold main
  refine Outcome.bind (Q := fun ids t => ids = (m.ids.egid, m.ids.euid) ∧ t = dropped m) ⟨rfl, rfl⟩ ?_
  intro ids t ht
  rcases ht with ⟨rfl, rfl⟩
  refine Outcome.bind ((prepare_spec m argv (dropped m)).mono (fun _ _ h => hasked h) fun _ _ h => h) ?_
  intro b t ht
  obtain ⟨hask, a, hgathered, hchecked, rfl⟩ := ht
  have hget : Accords (Separated m argv) t (t ++ [.seteuid m.ids.euid] ++ [.setegid m.ids.egid]) :=
    (accords_emit (separated_ids id fun _ _ _ h => by cases h)).trans
      (accords_emit (separated_ids id fun _ _ _ h => by cases h))
  refine Outcome.bind (Q := fun _ u => u = t ++ [Event.seteuid m.ids.euid] ++ [Event.setegid m.ids.egid]) rfl ?_
  intro _ u hu
  have hback : m.ids.after u = m.ids.toIds := by
    rw [hu, List.append_assoc]
    exact after_privget hask
  have hran : ¬Ran u := by
    intro hran
    obtain ⟨path, args, env, hmem⟩ := hran
    rw [hu, List.append_assoc] at hmem
    rcases List.mem_append.1 hmem with hmem | hmem
    · exact not_ran_asked hask ⟨path, args, env, hmem⟩
    · simp at hmem
  have htu : t <+: u := hu ▸ hget.1
  exact replace_accords ((hasked hask).trans (hu ▸ hget)) hran hback (hgathered.mono htu) (hchecked.mono htu)

/-- **What the program does with its privileges, in every run**: nothing but executing the other program, with
arguments that have passed all checks; and once that has failed they are gone. -/
theorem main_separated (m : Machine) (argv : List Str) : Grounded (Separated m argv) (exec (main m argv) []).2 :=
  grounded_exec (main_accords m argv)

end Separation

/-! ## Requests -/

/-- what `runuseradd` executes the wrapper with -/
def child (a : Pnewuser.Args) : List Str :=
  ["-l".toList, a.user, "-c".toList, a.comment, "-d".toList, a.homedir, "-k".toList, a.skeldir, "-s".toList, a.shell,
    "-H".toList, "0".toList]

/-- each argument is taken as what it is, whatever is in it -/
theorem getopts_child (a : Pnewuser.Args) : getopts .none (child a) =
    some (⟨some a.homedir, some a.comment, some a.skeldir, some "0".toList, some a.user, some a.shell⟩, []) := rfl

/-- the fields of a request as arguments -/
def args (r : Request) : Pnewuser.Args :=
  ⟨cstr r.login, cstr (if r.name = NOVALUE then anonymous else r.name), cstr r.homedir, cstr r.lockdir, cstr r.shell⟩

/-- a request of five lines and the password, which stays on the pipe -/
theorem runuseradd_lines {r : Request} (h : ∀ l ∈ [r.login, r.name, r.homedir, r.lockdir, r.shell], '\n' ∉ l) :
    runuseradd r.text = some (args r, unlines [r.hashed]) := by
  simp only [List.forall_mem_cons] at h
  obtain ⟨hlogin, hname, hhome, hlock, hshell, -⟩ := h
  have htext : r.text = r.login ++ '\n' :: (r.name ++ '\n' :: (r.homedir ++ '\n' :: (r.lockdir ++ '\n' :: (r.shell ++
      '\n' :: unlines [r.hashed])))) := by simp [Request.text, unlines]
  rw [htext, runuseradd]
  simp only [getline_line hlogin, getline_line hname, getline_line hhome, getline_line hlock, getline_line hshell,
    Option.bind_eq_bind, Option.bind_some]
  rfl

/-- what `pw` is executed with for an applicant -/
def pwArgv (a : Pnewuser.Args) (group class_ : Str) : List Str :=
  ["pw".toList, "useradd".toList, "-m".toList, "-q".toList, "-d".toList, a.homedir, "-c".toList, a.comment, "-g".toList,
    group, "-k".toList, a.skeldir, "-L".toList, class_, "-p".toList, "31-JAN-1970".toList, "-s".toList, a.shell,
    "-H".toList, "0".toList, "-n".toList, a.user]

/-- what an applicant has entered has passed the checks, and the group is known -/
structure Fit (m : Machine) (t : List Event) (a : Pnewuser.Args) (group : Str) : Prop where
  user : a.user ≠ [] ∧ valid_user a.user = true
  comment : a.comment ≠ [] ∧ valid_gecos a.comment = true
  homedir : HomeListed m t a.homedir
  skeldir : a.skeldir ≠ []
  shell : ShellKnown m t a.shell
  group : GroupKnown m t group

theorem pwClass_some (c : Str) : ∃ class_, pwClass (some c) = some class_ := by
  unfold pwClass
  split_ifs with hdefault
  · exact ⟨[], rfl⟩
  · exact ⟨c, rfl⟩

theorem child_fit {m : Machine} {a : Pnewuser.Args} {b : Args} {t : List Event} (hgathered : Gathered m (child a) t b)
    (hchecked : Checked m t b) : ∃ group class_, Fit m t a group ∧
      { b with loginclass := pwClass b.loginclass }.argv = pwArgv a group class_ := by
  have hopts := hgathered.opts
  rw [getopts_child, Option.some.injEq, Prod.mk.injEq] at hopts
  rcases b with ⟨opts, gid, loginclass, uidrange⟩
  obtain ⟨rfl, -⟩ := hopts
  obtain ⟨user, huser, hune, hvalid⟩ := hchecked.user
  obtain ⟨group, hgid, -, hgroup⟩ := hchecked.group
  obtain ⟨homedir, hhome, -, hlisted⟩ := hchecked.homedir
  obtain ⟨comment, hcomment, hcne, hgecos⟩ := hchecked.comment
  obtain ⟨c, hclass, -, -⟩ := hchecked.loginclass
  obtain ⟨shell, hshell, -, hknown⟩ := hchecked.shell
  obtain ⟨skeldir, hskel, hsne⟩ := hchecked.skeldir
  obtain ⟨class_, hpw⟩ := pwClass_some c
  cases huser
  cases hhome
  cases hcomment
  cases hshell
  cases hskel
  dsimp only at hgid hclass
  subst hgid hclass
  refine ⟨group, class_, ⟨⟨hune, hvalid⟩, ⟨hcne, hgecos⟩, hlisted, hsne, hknown, hgroup⟩, ?_⟩
  dsimp only
  rw [hpw]
  rfl

theorem child_execve {m : Machine} {a : Pnewuser.Args} {path : Str} {argv env : List Str}
    (h : .execve path argv env ∈ (exec (main m (child a)) []).2) : path = USERADD ∧ env = ENV ∧
      ∃ before group class_, before <+: (exec (main m (child a)) []).2 ∧ argv = pwArgv a group class_ ∧
        Fit m before a group := by
  obtain ⟨before, left, hrun⟩ := List.append_of_mem h
  have hle : before ++ [.execve path argv env] <+: (exec (main m (child a)) []).2 := by
    rw [hrun]
    exact ⟨left, List.append_assoc _ _ _⟩
  have hgrounded := grounded_exec (main_accords m (child a)) before _ hle
  obtain ⟨-, -, hpath, henv, b, hgathered, hchecked, hargv⟩ := hgrounded.execve path argv env rfl
  obtain ⟨group, class_, hfit, hpw⟩ := child_fit hgathered hchecked
  exact ⟨hpath, henv, before, group, class_, (List.prefix_append before _).trans hle, hargv.trans hpw, hfit⟩

/-- **What an applicant enters does not get out of its place.** If there is no newline in it, the wrapper gets each
field of the request as one argument. Whenever it executes `pw`, then with these in the places they are meant for and
with nothing else of the applicant's, and they have passed the checks; the password is what is left on the pipe. -/
theorem request_useradd (m : Machine) (r : Request)
    (h : ∀ l ∈ [r.login, r.name, r.homedir, r.lockdir, r.shell], '\n' ∉ l) :
    runuseradd r.text = some (args r, unlines [r.hashed]) ∧
      ∀ path argv env, .execve path argv env ∈ (exec (main m (child (args r))) []).2 → path = USERADD ∧ env = ENV ∧
        ∃ before group class_, before <+: (exec (main m (child (args r))) []).2 ∧ argv = pwArgv (args r) group class_ ∧
          Fit m before (args r) group :=
  ⟨runuseradd_lines h, fun _ _ _ hmem => child_execve hmem⟩

/-- a set-user-id program of the superuser, run by somebody, on a machine where everything is in order -/
def plain : Machine where
  ids := { ruid := 1000, euid := 0, suid := 0, rgid := 100, egid := 100, sgid := 100, suid_eq := rfl, sgid_eq := rfl }
  getvalue t := if t.getLast? = some (.getvalue "group".toList) then some "people".toList
    else if t.getLast? = some (.getvalue "uidrange".toList) then some "5000..9999".toList else none
  getlist _ := some ["/a".toList]
  getgrnam _ := true
  getgrgid _ := true
  login_getclass _ := true
  realpath _ := .ok "/a/n/ann".toList
  getusershell _ := ["/bin/sh".toList]
  strdup _ := true
  execve _ := true
  strerror _ := []
  prog := "nuseradd".toList

def annRequest : Request :=
  ⟨"ann".toList, "Ann L. d".toList, "/a/n/ann".toList, "/var/pnewuser/ann".toList, "/bin/sh".toList, "*".toList⟩

/-- an applicant with a name of several words -/
theorem annRequest_useradd : ∃ before class_,
    Event.execve USERADD (pwArgv (args annRequest) "people".toList class_) ENV ∈
      (exec (main plain (child (args annRequest))) []).2 ∧ Fit plain before (args annRequest) "people".toList := by
  have hmem : .execve USERADD (pwArgv (args annRequest) "people".toList []) ENV ∈
      (exec (main plain (child (args annRequest))) []).2 := by decide
  obtain ⟨-, -, before, group, class_, -, hargv, hfit⟩ :=
    (request_useradd plain annRequest (by decide)).2 _ _ _ hmem
  obtain ⟨rfl, rfl⟩ : group = "people".toList ∧ class_ = [] := by
    simp only [pwArgv, List.cons.injEq, and_true, true_and] at hargv
    exact ⟨hargv.1.symm, hargv.2.symm⟩
  exact ⟨before, [], hmem, hfit⟩

end MNetSoft.Pnewuser.Wrapper
