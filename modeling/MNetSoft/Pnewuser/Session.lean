/-
A session of `pnewuser` from `generated` on: the confirmation prompt, the lock directory, the plan, `nuseradd` and its
quotas, the mail, and the loop of `confirm_and_create` that goes on with a new turn after a recoverable error. A `Turn`
holds what the applicant types in it and what becomes of the calls that can fail; the errors are texts, told apart by
what they start with. The events are those of the turn just made.

- `create_and_send_mail_exec`: what the creation of an account comes to, call by call.
- `homedir_step`: the home directory stays the one that `generated` has picked.
- `consistent_iff`: the requests are consistent exactly when every turn that sends one has a login whose home directory
  is the one picked at the start.
- `stale_homedir`: a login that is changed at the prompt.
-/
import Mathlib.Tactic
import Mathlib.Logic.Function.Basic
import MNetSoft.Core.Runs
import MNetSoft.Core.Effects
import MNetSoft.Pnewuser.Fields

namespace MNetSoft.Pnewuser

open MNetSoft.CString
open MNetSoft.Runs
open MNetSoft.Effects

/-! ## The data -/

/-- the data the user object has, by key -/
abbrev User := Str → Option Str

/-- `value` of `User` -/
def User.value (user : User) (key : String) : Str :=
  match user key.toList with
  | none => NOVALUE
  | some datum => Pnewuser.value datum

/-- `lockdir` is where lock directories are made, `userpath` the site's procedure for home directories -/
structure Config where
  lockdir : Str
  userpath : Str → Str

/-- `pick` of `Homedirectory` -/
def pick (cfg : Config) (login : Str) : Str := '/' :: cfg.userpath login

/-- `lockdir` of `Lockdirectory` -/
def lockpath (cfg : Config) (basename : Str) : Str := cfg.lockdir ++ '/' :: basename

/-- why a program stops -/
inductive Err where
  | die (text : Str)
  | exit
deriving DecidableEq, Repr

def RECOVERABLE : Str := "R:RECOVERABLE".toList

def USER_EXISTS : Str := "R:RECOVERABLE:user exists".toList

def CANT_LOCK : Str := "R:RECOVERABLE:Can't create lock directory: ".toList

def CANT_OPEN : Str := "R:IGNORE:Can't open ".toList

def NO_FORK : Str := "R:PIPETOPROC:fork".toList

def STRICT_REFS : Str := "Can't use string (\"0\") as a symbol ref while \"strict refs\" in use".toList

/-- the errors that `confirm_and_create` catches -/
def retries : Err → Bool
  | .die text => RECOVERABLE.isPrefixOf text || "U:".toList.isPrefixOf text
  | .exit => false

/-- the error that is a collision -/
def collides : Err → Bool
  | .die text => USER_EXISTS.isPrefixOf text
  | .exit => false

/-- what the mail says -/
structure Mail where
  name : Str
  login : Str
  password : Str
  email : Str
deriving DecidableEq, Repr

inductive Event where
  | locked (path : Str)
  | creating
  | request (r : Request)
  | exited (status : ℤ)
  | quotas (login : Str)
  | logged
  | creation_failure
  | creation_success
  | mail (m : Mail)
  | send_mail_failure
  | send_mail_success
  | unlocked (path : Str)
deriving DecidableEq, Repr

/-- the objects of the program; `useradd` and `setquota` are the pipes that have not been used yet -/
structure Session where
  user : User
  homedir : Str
  plain : Str
  hashed : Str
  lockdir : Option Str
  useradd : Bool
  setquota : Bool
  events : List Event
  raised : Option Err
  ended : Bool

/-- a line at the confirmation prompt: the value that a datum ends with if the line is its key, whether the applicant
really wants to leave if he is asked, and what is raised -/
structure Input where
  interrupted : Bool
  line : Str
  datum : Str
  leaves : Bool
  dies : Option Err
deriving DecidableEq, Repr

/-- one turn of the loop; an `Option` is the text of what goes wrong, if something does -/
structure Turn where
  inputs : List Input
  mkdir : Option Str
  plan : Option Str
  creating : Option Err
  fork : Bool
  status : ℤ
  quotas : Option Err
  quotaStatus : ℤ
  loguser : Option Err
  emailing : Option Err
  mail : Option Err
  collision : Option Err
deriving DecidableEq, Repr

abbrev Program := Eff Err Session

/-- note an event -/
def note (e : Event) : Program Unit := modify fun s => { s with events := s.events ++ [e] }

/-! ## The prompt -/

/-- `confirm_or_exit`: what it raises, and the data; when the terminal hangs up, end of file is taken for the wish to
leave -/
def confirm_or_exit : List Input → User → Option Err × User
  | [], user => (some .exit, user)
  | i :: inputs, user =>
    if i.interrupted then
      if i.leaves then (some .exit, user) else confirm_or_exit inputs user
    else
      let choice := (trim (some i.line)).map Char.toLower
      let known := (user choice).isSome
      let user := if known then Function.update user choice (some i.datum) else user
      if !known && choice = "quit".toList && i.leaves then (some .exit, user)
      else if choice = "done".toList then (none, user)
      else
        match i.dies with
        | some e => (some e, user)
        | none => confirm_or_exit inputs user

def confirm (t : Turn) : Program Unit := do
  let s ← get
  modify fun s => { s with user := (confirm_or_exit t.inputs s.user).2 }
  raise (confirm_or_exit t.inputs s.user).1

/-! ## The creation of an account -/

variable (cfg : Config)

/-- `lock`: a new lock directory object for the login, and the directory -/
def lock (t : Turn) : Program Unit := do
  let s ← get
  modify fun s => { s with lockdir := some (s.user.value "login") }
  match t.mkdir with
  | some error => throw (.die (CANT_LOCK ++ error ++ ['\n']))
  | none => note (.locked (lockpath cfg (s.user.value "login")))

def create_plan (t : Turn) : Program Unit := do
  let s ← get
  match t.plan with
  | some error => throw (.die (CANT_OPEN ++ lockpath cfg (s.lockdir.getD []) ++ "/.plan: ".toList ++ error))
  | none => pure ()

/-- a pipe to a new child -/
def pipetoproc (t : Turn) : Program Unit := if t.fork then pure () else throw (.die NO_FORK)

/-- `unless ($useradd)` -/
def child (useradd : Bool) (t : Turn) : Program Unit := if useradd then pure () else pipetoproc t

/-- the exit code in a status that `wait` returns -/
def WEXITSTATUS (status : ℤ) : ℤ := status / 256 % 256

/-- `adduser` of `Creator::FreeBSD`; `$?` is the status of the child that has read the request -/
def adduser (t : Turn) : Program Bool := do
  let s ← get
  modify fun s => { s with useradd := false }
  child s.useradd t
  note (.request ⟨s.user.value "login", s.user.value "name", s.homedir, lockpath cfg (s.lockdir.getD []),
    s.user.value "shell", s.hashed⟩)
  note (.exited t.status)
  if WEXITSTATUS t.status = 65 then throw (.die USER_EXISTS) else pure (t.status = 0)

/-- the pipe of the quotas is 0 when it has been used, which is defined, but no file handle -/
def handle (setquota : Bool) : Program Unit :=
  if setquota then pure () else throw (.die STRICT_REFS)

def quotas (t : Turn) : Program Bool := do
  let s ← get
  modify fun s => { s with setquota := false }
  handle s.setquota
  raise t.quotas
  note (.quotas (s.user.value "login"))
  pure (WEXITSTATUS t.quotaStatus = 0)

def loguser (t : Turn) : Program Unit := do
  raise t.loguser
  note .logged

/-- `create` of `Creator` -/
def create (t : Turn) : Program Bool := do
  let _ ← adduser cfg t
  let _ ← quotas t
  loguser t
  pure true

def create_account (t : Turn) : Program Bool := do
  note .creating
  raise t.creating
  if !(← create cfg t) then
    note .creation_failure
    pure false
  else
    note .creation_success
    pure true

/-- `send_mail` of `Mailer` -/
def mailer_send_mail (t : Turn) : Program Bool := do
  let s ← get
  raise t.mail
  note (.mail ⟨s.user.value "name", s.user.value "login", s.plain, s.user.value "email"⟩)
  pure true

def send_mail (t : Turn) : Program Unit := do
  raise t.emailing
  if !(← mailer_send_mail t) then
    note .send_mail_failure
  else
    note .send_mail_success

def create_and_send_mail (t : Turn) : Program Unit := do
  if ← create_account cfg t then send_mail t

/-! ## The loop -/

/-- what a turn evaluates -/
def body (t : Turn) : Program Unit := do
  confirm t
  lock cfg t
  create_plan cfg t
  create_and_send_mail cfg t

/-- `unlock`, and what is said about a collision; an object that is not there has no method -/
def unlock (t : Turn) (e : Err) (s : Session) : Session :=
  match s.lockdir with
  | none => { s with ended := true }
  | some basename =>
    let s := { s with events := s.events ++ [.unlocked (lockpath cfg basename)] }
    if collides e && t.collision.isSome then { s with ended := true } else s

/-- one turn of `confirm_and_create` -/
def step (s : Session) (t : Turn) : Option Session :=
  if s.ended then none
  else
    match exec (body cfg t) { s with events := [], raised := none } with
    | (.ok _, s) => some { s with ended := true }
    | (.error e, s) =>
      if retries e then some (unlock cfg t e { s with raised := some e })
      else some { s with raised := some e, ended := true }

/-- the session as `generated` leaves it; the pipes have been opened by `initialize` -/
def generated (user : User) (plain hashed : Str) : Session :=
  ⟨user, pick cfg (user.value "login"), plain, hashed, none, true, true, [], none, false⟩

/-! ## What the programs come to -/

variable {cfg} {s : Session} {t : Turn}

@[simp] theorem exec_note (e : Event) (s : Session) :
    exec (note e) s = (.ok (), { s with events := s.events ++ [e] }) :=
  rfl

/-- what is on the pipe -/
def request (cfg : Config) (s : Session) : Request :=
  ⟨s.user.value "login", s.user.value "name", s.homedir, lockpath cfg (s.lockdir.getD []),
    s.user.value "shell", s.hashed⟩

/-- what `quotas` and `loguser` note -/
def Event.ofCreator : Event → Bool
  | .quotas _ | .logged => true
  | _ => false

/-- what `send_mail` notes -/
def Event.ofMailer : Event → Bool
  | .mail _ | .send_mail_failure | .send_mail_success => true
  | _ => false

/-- a child can be had that reads the request -/
def Piped (s : Session) (t : Turn) : Prop := s.useradd = true ∨ t.fork = true

/-- something is raised between the request and the end of `create` -/
def Stops (s : Session) (t : Turn) : Prop :=
  WEXITSTATUS t.status = 65 ∨ (s.setquota = false ∨ t.quotas ≠ none) ∨ t.loguser ≠ none

instance (s : Session) (t : Turn) : Decidable (Piped s t) := by
  unfold Piped
  infer_instance

instance (s : Session) (t : Turn) : Decidable (Stops s t) := by
  unfold Stops
  infer_instance

theorem adduser_unsent (cfg : Config) (h : ¬ Piped s t) :
    ∃ e s', exec (adduser cfg t) s = (.error e, s') ∧ s'.events = s.events := by
  obtain ⟨huseradd, hfork⟩ : s.useradd = false ∧ t.fork = false := by simpa [Piped] using h
  exact ⟨.die NO_FORK, { s with useradd := false }, by simp [adduser, child, pipetoproc, huseradd, hfork], rfl⟩

theorem adduser_sent (cfg : Config) (h : Piped s t) : ∃ s', exec (adduser cfg t) s =
    (if WEXITSTATUS t.status = 65 then .error (.die USER_EXISTS) else .ok (decide (t.status = 0)), s') ∧
      s'.setquota = s.setquota ∧ s'.events = s.events ++ [.request (request cfg s), .exited t.status] := by
  have hchild : ∀ s' : Session, exec (child s.useradd t) s' = (.ok (), s') := by
    intro s'
    rcases h with h | h
    · simp [child, h]
    · simp [child, pipetoproc, h]
  refine ⟨{ s with useradd := false, events := s.events ++ [.request (request cfg s), .exited t.status] }, ?_, rfl, rfl⟩
  simp only [adduser, exec_bind, exec_get, andThen_ok, exec_modify, hchild, exec_note, exec_ite, exec_throw, exec_pure,
    List.append_assoc, List.cons_append, List.nil_append]
  split_ifs
  · rfl
  · rfl

theorem quotas_stopped (h : s.setquota = false ∨ t.quotas ≠ none) :
    ∃ e s', exec (quotas t) s = (.error e, s') ∧ s'.events = s.events := by
  cases hready : s.setquota with
  | false => exact ⟨.die STRICT_REFS, { s with setquota := false }, by simp [quotas, handle, hready], rfl⟩
  | true =>
    have hraises : t.quotas ≠ none := h.resolve_left (by rw [hready]; decide)
    obtain ⟨e, he⟩ := Option.ne_none_iff_exists'.1 hraises
    exact ⟨e, { s with setquota := false }, by simp [quotas, handle, hready, he], rfl⟩

theorem quotas_done (h : ¬ (s.setquota = false ∨ t.quotas ≠ none)) :
    ∃ ok s', exec (quotas t) s = (.ok ok, s') ∧ s'.events = s.events ++ [.quotas (s.user.value "login")] := by
  obtain ⟨hready, hraises⟩ : s.setquota = true ∧ t.quotas = none := by simpa using h
  refine ⟨decide (WEXITSTATUS t.quotaStatus = 0),
    { s with setquota := false, events := s.events ++ [.quotas (s.user.value "login")] }, ?_, rfl⟩
  simp only [quotas, handle, hready, hraises, exec_bind, exec_get, andThen_ok, exec_modify, exec_raise_none, exec_note,
    exec_pure, if_true]

/-- what `create` comes to: no child, an exception after the request, or an account -/
theorem create_exec (cfg : Config) (t : Turn) (s : Session) :
    ∃ r s' rest, exec (create cfg t) s = (r, s') ∧ (∀ e ∈ rest, e.ofCreator = true) ∧
      ((¬ Piped s t ∧ (∃ e, r = .error e) ∧ s'.events = s.events) ∨
        (Piped s t ∧ s'.events = s.events ++ .request (request cfg s) :: .exited t.status :: rest ∧
          (Stops s t ∧ (∃ e, r = .error e) ∨ ¬ Stops s t ∧ r = .ok true))) := by
  have hnone : ∀ e ∈ ([] : List Event), e.ofCreator = true := fun _ h => absurd h List.not_mem_nil
  rw [create, exec_bind]
  by_cases hpiped : Piped s t
  · obtain ⟨s1, hadd, hquota, hevents⟩ := adduser_sent cfg hpiped
    rw [hadd]
    by_cases h65 : WEXITSTATUS t.status = 65
    · have hstops : Stops s t := .inl h65
      rw [if_pos h65]
      exact ⟨_, s1, [], rfl, hnone, .inr ⟨hpiped, hevents, .inl ⟨hstops, _, rfl⟩⟩⟩
    · rw [if_neg h65, andThen_ok, exec_bind]
      by_cases hq : s1.setquota = false ∨ t.quotas ≠ none
      · obtain ⟨e, s2, hquotas, hevents2⟩ := quotas_stopped hq
        have hstops : Stops s t := .inr (.inl (hquota ▸ hq))
        rw [hquotas]
        exact ⟨_, s2, [], rfl, hnone, .inr ⟨hpiped, hevents2.trans hevents, .inl ⟨hstops, e, rfl⟩⟩⟩
      · obtain ⟨ok, s2, hquotas, hevents2⟩ := quotas_done hq
        rw [hquotas, andThen_ok, exec_bind, loguser, exec_bind]
        rw [hevents, List.append_assoc] at hevents2
        cases hlog : t.loguser with
        | some e =>
          have hstops : Stops s t := .inr (.inr (by rw [hlog]; simp))
          refine ⟨.error e, s2, [.quotas (s1.user.value "login")], rfl, fun e he => ?_,
            .inr ⟨hpiped, hevents2, .inl ⟨hstops, e, rfl⟩⟩⟩
          rw [List.mem_singleton.1 he]
          rfl
        | none =>
          have hgoes : ¬ Stops s t := by
            rw [Stops, ← hquota, hlog]
            tauto
          refine ⟨.ok true, { s2 with events := s2.events ++ [.logged] },
            [.quotas (s1.user.value "login"), .logged], rfl, fun e he => ?_, .inr ⟨hpiped, ?_, .inr ⟨hgoes, rfl⟩⟩⟩
          · rcases List.mem_cons.1 he with rfl | he
            · rfl
            · rw [List.mem_singleton.1 he]
              rfl
          · rw [hevents2, List.append_assoc]
            rfl
  · obtain ⟨e, s1, hadd, hevents⟩ := adduser_unsent cfg hpiped
    rw [hadd]
    exact ⟨_, s1, [], rfl, hnone, .inl ⟨hpiped, ⟨e, rfl⟩, hevents⟩⟩

theorem send_mail_exec (t : Turn) (s : Session) :
    ∃ r s' rest, exec (send_mail t) s = (r, s') ∧ s'.events = s.events ++ rest ∧ ∀ e ∈ rest, e.ofMailer = true := by
  have hnone : ∀ e ∈ ([] : List Event), e.ofMailer = true := fun _ h => absurd h List.not_mem_nil
  cases hemailing : t.emailing with
  | some e => exact ⟨.error e, s, [], by simp [send_mail, hemailing], (List.append_nil _).symm, hnone⟩
  | none =>
    cases hmail : t.mail with
    | some e =>
      exact ⟨.error e, s, [], by simp [send_mail, mailer_send_mail, hemailing, hmail], (List.append_nil _).symm, hnone⟩
    | none =>
      set m : Event := .mail ⟨s.user.value "name", s.user.value "login", s.plain, s.user.value "email"⟩
      refine ⟨.ok (), { s with events := s.events ++ [m, .send_mail_success] }, [m, .send_mail_success],
        by simp [send_mail, mailer_send_mail, hemailing, hmail, m], rfl, fun e he => ?_⟩
      rcases List.mem_cons.1 he with rfl | he
      · rfl
      · rw [List.mem_singleton.1 he]
        rfl

/-- **What `create_and_send_mail` comes to**: no request, an exception after the request, or a success that is reported,
with nothing but the mail behind it. -/
theorem create_and_send_mail_exec (cfg : Config) (t : Turn) (s : Session) :
    ∃ r s', exec (create_and_send_mail cfg t) s = (r, s') ∧
      ((¬ (t.creating = none ∧ Piped s t) ∧ (∃ e, r = .error e) ∧ s'.events = s.events ++ [.creating]) ∨
        ((t.creating = none ∧ Piped s t) ∧ ∃ before tail, (∀ e ∈ before, e.ofCreator = true) ∧
          s'.events = s.events ++ .creating :: .request (request cfg s) :: .exited t.status :: (before ++ tail) ∧
          (Stops s t ∧ (∃ e, r = .error e) ∧ tail = [] ∨
            ¬ Stops s t ∧ ∃ after, (∀ e ∈ after, e.ofMailer = true) ∧ tail = .creation_success :: after))) := by
  set s0 : Session := { s with events := s.events ++ [.creating] }
  simp only [create_and_send_mail, create_account, exec_bind, exec_note, andThen_ok]
  cases hcreating : t.creating with
  | some e => exact ⟨.error e, s0, rfl, .inl ⟨fun h => absurd h.1 (by simp), ⟨e, rfl⟩, rfl⟩⟩
  | none =>
    rw [exec_raise_none, andThen_ok]
    obtain ⟨r, s1, before, hcreate, hbefore, hcases⟩ := create_exec cfg t s0
    rw [hcreate]
    rcases hcases with ⟨hunpiped, ⟨e, rfl⟩, hevents⟩ | ⟨hpiped, hevents, hstops⟩
    · exact ⟨.error e, s1, rfl, .inl ⟨fun h => hunpiped h.2, ⟨e, rfl⟩, hevents⟩⟩
    · rw [List.append_assoc] at hevents
      rcases hstops with ⟨hstops, e, rfl⟩ | ⟨hgoes, rfl⟩
      · refine ⟨.error e, s1, rfl, .inr ⟨⟨rfl, hpiped⟩, before, [], hbefore, ?_, .inl ⟨hstops, ⟨e, rfl⟩, rfl⟩⟩⟩
        rw [hevents, List.append_nil]
        rfl
      · -- the success is reported, whatever the exit status
        set s2 : Session := { s1 with events := s1.events ++ [.creation_success] }
        obtain ⟨r, s3, after, hmail, hevents3, hafter⟩ := send_mail_exec t s2
        refine ⟨r, s3, hmail, .inr ⟨⟨rfl, hpiped⟩, before, .creation_success :: after, hbefore, ?_,
          .inr ⟨hgoes, after, hafter, rfl⟩⟩⟩
        rw [hevents3, show s2.events = s1.events ++ [.creation_success] from rfl, hevents]
        simp [request, s0]

/-- events of no account -/
def Event.early : Event → Bool
  | .locked _ | .creating | .unlocked _ => true
  | _ => false

/-! ## A turn -/

/-- the data that the applicant leaves the prompt with -/
def chosen (s : Session) (t : Turn) : User := (confirm_or_exit t.inputs s.user).2

/-- the turn gets to the creation of the account -/
def Reaches (s : Session) (t : Turn) : Prop :=
  (confirm_or_exit t.inputs s.user).1 = none ∧ t.mkdir = none ∧ t.plan = none

/-- the turn sends a request -/
def Sends (s : Session) (t : Turn) : Prop := Reaches s t ∧ t.creating = none ∧ Piped s t

/-- the session as the creation of the account finds it -/
def prepared (cfg : Config) (s : Session) (t : Turn) : Session :=
  { s with
    user := chosen s t
    lockdir := some ((chosen s t).value "login")
    events := s.events ++ [.locked (lockpath cfg ((chosen s t).value "login"))] }

/-- a turn that does not get to the creation has locked the login or not -/
theorem body_stopped (cfg : Config) (h : ¬ Reaches s t) : ∃ e s', exec (body cfg t) s = (.error e, s') ∧
    (s'.events = s.events ∨ s'.events = s.events ++ [.locked (lockpath cfg ((chosen s t).value "login"))]) := by
  simp only [body, confirm, exec_bind, exec_get, andThen_ok, exec_modify]
  cases hconfirm : (confirm_or_exit t.inputs s.user).1 with
  | some e => exact ⟨e, _, rfl, .inl rfl⟩
  | none =>
    simp only [exec_raise_none, andThen_ok, lock, exec_bind, exec_get, exec_modify]
    cases hmkdir : t.mkdir with
    | some error => exact ⟨_, _, rfl, .inl rfl⟩
    | none =>
      cases hplan : t.plan with
      | some error =>
        simp only [exec_note, andThen_ok, create_plan, hplan, exec_bind, exec_get, exec_throw, andThen_error]
        exact ⟨_, _, rfl, .inr rfl⟩
      | none => exact absurd ⟨hconfirm, hmkdir, hplan⟩ h

theorem body_reached (h : Reaches s t) :
    exec (body cfg t) s = exec (create_and_send_mail cfg t) (prepared cfg s t) := by
  obtain ⟨hconfirm, hmkdir, hplan⟩ := h
  simp only [body, confirm, lock, create_plan, hconfirm, hmkdir, hplan, exec_bind, exec_get, andThen_ok, exec_modify,
    exec_raise_none, exec_note, exec_pure]
  rfl

/-- the loop catches an exception or does not; what has been noted stays noted -/
theorem step_body {s' : Session} (h : step cfg s t = some s') :
    ∃ r u after, exec (body cfg t) { s with events := [], raised := none } = (r, u) ∧ s'.user = u.user ∧
      s'.homedir = u.homedir ∧ s'.events = u.events ++ after ∧ (∀ e ∈ after, e.early = true) ∧
        ∀ e, r = .error e → s'.raised = some e := by
  have hnone : ∀ e ∈ ([] : List Event), e.early = true := fun _ h => absurd h List.not_mem_nil
  rw [step] at h
  split_ifs at h
  rcases hexec : exec (body cfg t) { s with events := [], raised := none } with ⟨r, u⟩
  rw [hexec] at h
  cases r with
  | ok a =>
    cases h
    exact ⟨_, u, [], rfl, rfl, rfl, (List.append_nil _).symm, hnone, fun e he => by cases he⟩
  | error e =>
    simp only at h
    split_ifs at h
    · cases h
      rw [unlock]
      split
      · exact ⟨_, u, [], rfl, rfl, rfl, (List.append_nil _).symm, hnone, fun e he => by cases he; rfl⟩
      · rename_i basename _
        refine ⟨_, u, [.unlocked (lockpath cfg basename)], rfl, ?_⟩
        have hone : ∀ e ∈ [Event.unlocked (lockpath cfg basename)], e.early = true := fun e he => by
          rw [List.mem_singleton.1 he]
          rfl
        split_ifs
        · exact ⟨rfl, rfl, rfl, hone, fun e he => by cases he; rfl⟩
        · exact ⟨rfl, rfl, rfl, hone, fun e he => by cases he; rfl⟩
    · cases h
      exact ⟨_, u, [], rfl, rfl, rfl, (List.append_nil _).symm, hnone, fun e he => by cases he; rfl⟩

section Keeps

/-- the data and the home directory -/
def Session.fixed (s : Session) : User × Str := (s.user, s.homedir)

theorem keeps_note (e : Event) : Keeps Session.fixed (note e) := keeps_modify fun _ => rfl

theorem keeps_adduser (cfg : Config) (t : Turn) : Keeps Session.fixed (adduser cfg t) := by
  refine keeps_get.bind fun s => Keeps.bind ?_ fun _ => Keeps.bind ?_ fun _ =>
    (keeps_note _).bind fun _ => (keeps_note _).bind fun _ => (keeps_throw _).ite (keeps_pure _)
  · exact keeps_modify fun _ => rfl
  · exact (keeps_pure _).ite ((keeps_pure _).ite (keeps_throw _))

theorem keeps_quotas (t : Turn) : Keeps Session.fixed (quotas t) := by
  refine keeps_get.bind fun s => Keeps.bind ?_ fun _ => Keeps.bind ?_ fun _ =>
    (keeps_raise _).bind fun _ => (keeps_note _).bind fun _ => keeps_pure _
  · exact keeps_modify fun _ => rfl
  · exact (keeps_pure _).ite (keeps_throw _)

theorem keeps_send_mail (t : Turn) : Keeps Session.fixed (send_mail t) := by
  refine (keeps_raise _).bind fun _ => Keeps.bind ?_ fun _ => (keeps_note _).ite (keeps_note _)
  exact keeps_get.bind fun s => (keeps_raise _).bind fun _ => (keeps_note _).bind fun _ => keeps_pure _

/-- nothing behind the prompt changes the data or the home directory -/
theorem keeps_create_and_send_mail (cfg : Config) (t : Turn) : Keeps Session.fixed (create_and_send_mail cfg t) := by
  refine Keeps.bind ?_ fun _ => (keeps_send_mail t).ite (keeps_pure _)
  refine (keeps_note _).bind fun _ => (keeps_raise _).bind fun _ => Keeps.bind ?_ fun _ =>
    ((keeps_note _).bind fun _ => keeps_pure _).ite ((keeps_note _).bind fun _ => keeps_pure _)
  exact (keeps_adduser cfg t).bind fun _ => (keeps_quotas t).bind fun _ =>
    ((keeps_raise _).bind fun _ => keeps_note _).bind fun _ => keeps_pure _

end Keeps

/-- **What a turn notes**, whatever it ends in. -/
theorem step_events {s' : Session} (h : step cfg s t = some s') :
    (¬ Sends s t ∧ (∃ e, s'.raised = some e) ∧ ∀ e ∈ s'.events, e.early = true) ∨
      (Sends s t ∧ s'.user = chosen s t ∧ ∃ rest,
        s'.events = .locked (lockpath cfg ((chosen s t).value "login")) :: .creating ::
          .request (request cfg (prepared cfg s t)) :: .exited t.status :: rest ∧
        (∀ e ∈ rest, e.ofCreator = true ∨ e.early = true ∨
          ¬ Stops s t ∧ (e = .creation_success ∨ e.ofMailer = true)) ∧
        (Stops s t ∧ (∃ e, s'.raised = some e) ∨ ¬ Stops s t ∧ .creation_success ∈ rest)) := by
  obtain ⟨r, u, after, hexec, huser, hhome, hevents, hafter, hraised⟩ := step_body h
  set s0 : Session := { s with events := [], raised := none } with hs0
  by_cases hreach : Reaches s t
  · rw [body_reached (s := s0) hreach] at hexec
    obtain ⟨r', u', hexec', hcases⟩ := create_and_send_mail_exec cfg t (prepared cfg s0 t)
    have hfixed := keeps_create_and_send_mail cfg t (prepared cfg s0 t)
    rw [hexec] at hexec' hfixed
    cases hexec'
    rcases hcases with ⟨hno, ⟨e, rfl⟩, hu⟩ | ⟨hyes, before, tail, hbefore, hu, hrest⟩
    · refine .inl ⟨fun hsends => hno ⟨hsends.2.1, hsends.2.2⟩, ⟨e, hraised e rfl⟩, fun ev hev => ?_⟩
      rw [hevents, hu, List.mem_append] at hev
      rcases hev with hev | hev
      · rcases List.mem_pair.1 hev with rfl | rfl
        · rfl
        · rfl
      · exact hafter ev hev
    · have hu' : u.user = chosen s t := congrArg Prod.fst hfixed
      refine .inr ⟨⟨hreach, hyes⟩, huser.trans hu', before ++ tail ++ after, ?_, fun ev hev => ?_, ?_⟩
      · rw [hevents, hu]
        simp [prepared, hs0, request, chosen]
      · rw [List.mem_append, List.mem_append] at hev
        rcases hev with (hev | hev) | hev
        · exact .inl (hbefore ev hev)
        · rcases hrest with ⟨-, -, rfl⟩ | ⟨hgoes, mails, hmails, rfl⟩
          · cases hev
          · exact .inr (.inr ⟨hgoes, (List.mem_cons.1 hev).imp_right (hmails ev)⟩)
        · exact .inr (.inl (hafter ev hev))
      · rcases hrest with ⟨hstops, ⟨e, rfl⟩, -⟩ | ⟨hgoes, mails, -, rfl⟩
        · exact .inl ⟨hstops, e, hraised e rfl⟩
        · exact .inr ⟨hgoes, by simp⟩
  · obtain ⟨e, u', hexec', hu⟩ := body_stopped cfg (s := s0) hreach
    rw [hexec] at hexec'
    cases hexec'
    refine .inl ⟨fun hsends => hreach hsends.1, ⟨e, hraised e rfl⟩, fun ev hev => ?_⟩
    rw [hevents, List.mem_append] at hev
    rcases hev with hev | hev
    · rcases hu with hu | hu
      · rw [hu] at hev
        exact absurd hev List.not_mem_nil
      · rw [hu] at hev
        rw [List.mem_singleton.1 hev]
        rfl
    · exact hafter ev hev

/-- the home directory stays the one that `generated` has picked -/
theorem homedir_step {s' : Session} (h : step cfg s t = some s') : s'.homedir = s.homedir := by
  obtain ⟨r, u, after, hexec, huser, hhome, -⟩ := step_body h
  have hbody : Keeps Session.homedir (body cfg t) := by
    refine Keeps.bind ?_ fun _ => Keeps.bind ?_ fun _ => Keeps.bind ?_ fun _ => ?_
    · refine keeps_get.bind fun s => Keeps.bind ?_ fun _ => keeps_raise _
      exact keeps_modify fun _ => rfl
    · refine keeps_get.bind fun s => Keeps.bind ?_ fun _ => ?_
      · exact keeps_modify fun _ => rfl
      · split
        · exact keeps_throw _
        · exact keeps_modify fun _ => rfl
    · apply keeps_get.bind
      intro s
      split
      · exact keeps_throw _
      · exact keeps_pure _
    · exact fun s => congrArg Prod.snd (keeps_create_and_send_mail cfg t s)
  have hkept := hbody { s with events := [], raised := none }
  rw [hexec] at hkept
  exact hhome.trans hkept

/-! ## Requests -/

/-- every request of the turn is about the current login: its home directory is the one `pick` computes for it, and its
skeleton is the directory that was locked for it in this turn -/
def Consistent (cfg : Config) (s : Session) : Prop :=
  ∀ r, .request r ∈ s.events → r.login = s.user.value "login" ∧ r.homedir = pick cfg (s.user.value "login") ∧
    r.lockdir = lockpath cfg (s.user.value "login") ∧ .locked r.lockdir ∈ s.events

/-- a turn sends its own request, or none -/
theorem request_mem {s' : Session} (h : step cfg s t = some s') (r : Request) :
    .request r ∈ s'.events ↔ Sends s t ∧ r = request cfg (prepared cfg s t) := by
  rcases step_events h with ⟨hno, -, hearly⟩ | ⟨hsends, -, rest, hevents, hrest, -⟩
  · exact iff_of_false (fun hr => absurd (hearly _ hr) Bool.false_ne_true) fun hr => hno hr.1
  · have hother : .request r ∉ rest := by
      intro hmem
      rcases hrest _ hmem with hr | hr | ⟨-, hr | hr⟩ <;> cases hr
    rw [hevents]
    simp only [List.mem_cons, reduceCtorEq, Event.request.injEq, false_or]
    refine ⟨fun hr => ⟨hsends, hr.resolve_right hother⟩, fun hr => .inl hr.2⟩

/-- a turn keeps its requests consistent exactly when the home directory it sends is that of the chosen login -/
theorem consistent_step {s' : Session} (h : step cfg s t = some s') :
    Consistent cfg s' ↔ (Sends s t → pick cfg ((chosen s t).value "login") = s.homedir) := by
  constructor
  · intro hc hsends
    obtain ⟨-, hhome, -⟩ := hc _ ((request_mem h _).2 ⟨hsends, rfl⟩)
    rcases step_events h with ⟨hno, -⟩ | ⟨-, huser, -⟩
    · exact absurd hsends hno
    · rw [← huser]
      exact hhome.symm
  · intro hpick r hr
    obtain ⟨hsends, rfl⟩ := (request_mem h r).1 hr
    rcases step_events h with ⟨hno, -⟩ | ⟨-, huser, rest, hevents, -⟩
    · exact absurd hsends hno
    · rw [huser, hevents]
      exact ⟨rfl, (hpick hsends).symm, rfl, List.mem_cons_self⟩

/-- **Consistent requests.** In every dialogue, whatever is answered and whatever becomes of the turns, all requests are
consistent exactly when every turn that sends one has a login with the home directory of the login at the start. -/
theorem consistent_iff (cfg : Config) (user : User) (plain hashed : Str) (turns : List Turn) :
    Always (step cfg) (Consistent cfg) (generated cfg user plain hashed) turns ↔
      Along (step cfg)
        (fun s t => Sends s t → pick cfg ((chosen s t).value "login") = pick cfg (user.value "login"))
        (generated cfg user plain hashed) turns := by
  have hstart : Consistent cfg (generated cfg user plain hashed) := fun r hr => absurd hr List.not_mem_nil
  refine always_iff_along_of_inv (I := fun s => s.homedir = pick cfg (user.value "login"))
    (fun s t s' hI h => (homedir_step h).trans hI) (fun s t s' hI _ h => ?_) turns rfl hstart
  rw [consistent_step h, hI]

/-- **The home directory of another login.** ann is taken to the prompt, changes her login to bob, and is done. -/
theorem stale_homedir :
    let cfg : Config := ⟨"/lock".toList, id⟩
    let user : User := fun key => if key = "login".toList then some "ann".toList else none
    let t : Turn := ⟨[⟨false, "login".toList, "bob".toList, false, none⟩, ⟨false, "done".toList, [], false, none⟩],
      none, none, none, true, 0, none, 0, none, none, none, none⟩
    ¬ Always (step cfg) (Consistent cfg) (generated cfg user [] []) [t] := by
  intro cfg user t h
  have hturn : Consistent cfg _ := (h.2 _ rfl).head
  have hsent := hturn ⟨"bob".toList, NOVALUE, "/ann".toList, "/lock/bob".toList, NOVALUE, []⟩ (by decide)
  exact absurd hsent.2.1 (by decide)

end MNetSoft.Pnewuser
