/-
`dovalidate`: users of the group `unknowns` are validated one by one, and then the database for incoming mail is built
again. Each of the checks can end the program, and so can `fork`, which in perl returns no number when it fails: `exec`
then replaces the program itself. Users in front of the one that ends the program stay changed, and the database is as
it was. Where `exec` fails, the child runs on through the loop like its parent behind it.

A run is kept as the commands that its processes have executed, each with the state of the system before and after it.
- `finish_spec`: the commands of a run, when the last of them is a successful rebuild, and when none changes an account.
- `go_iff`: when all users are validated.
- `dovalidate_right_iff`: a run is right if and only if `usermod` cannot be executed, or no `usermod` that is run
  changes an account, or all users are validated and the rebuild succeeds; and in the last two cases there is a group
  `unknowns` unless the first user is turned away, for without it root's group passes for it.
- `second_unknown`: a user who is validated, and one who does not exist.

What is known of `usermod` is in `Documented`; there is a system that does what it says, `unix`.
-/
import Mathlib.Tactic
import Mathlib.Logic.Function.Basic
import MNetSoft.Core.CString

namespace MNetSoft.Sbin.Dovalidate

open MNetSoft.CString

/-! ## Model -/

def CHECKED_GROUP : Str := "unknowns".toList

def VALIDATED_GROUP : Str := "people".toList

def VALIDATED_CLASS : Str := "validated".toList

def VALIDATED_SHELL : Str := "/cyberspace/bin/newly-validated".toList

/-- how `fork` and `wait` go: there is no new process, and the program itself is replaced; some other child has ended;
the child has ended -/
inductive Forked where
  | undef
  | other
  | child
deriving DecidableEq, Repr

/-- what `usermod` changes of an account -/
structure Passwd where
  gid : ℕ
  loginclass : Str
  shell : Str
deriving DecidableEq, Repr

/-- what the program asks of the system: group ids, accounts, and commands, with their exit status; `none` if `exec`
fails -/
structure System (σ : Type) where
  getgrnam : σ → Str → Option ℕ
  getpwnam : σ → Str → Option Passwd
  fork : σ → Forked
  exec : σ → List Str → σ × Option ℕ

/-- a command that has been executed -/
structure Event (σ : Type) where
  state : σ
  argv : List Str
  next : σ
  status : ℕ

structure Run (σ : Type) where
  state : σ
  log : List (Event σ)

/-- a process that has ended, and its exit status -/
structure Ended (σ : Type) where
  run : Run σ
  status : ℕ

variable {σ : Type}

def die (r : Run σ) : Ended σ := ⟨r, 255⟩

/-- run a command; `rest` is what a process does behind it, the child as well if it cannot be executed -/
def doexec (S : System σ) (argv : List Str) (rest : Run σ → Ended σ) (r : Run σ) : Ended σ :=
  let done := S.exec r.state argv
  match done.2 with
  | none =>
    let r' : Run σ := ⟨done.1, r.log⟩
    match S.fork r.state with
    | .undef => rest r'
    | .other => die (rest r').run
    | .child =>
      let child := rest r'
      if child.status ≠ 0 then die child.run else rest child.run
  | some status =>
    let r' : Run σ := ⟨done.1, r.log ++ [⟨r.state, argv, done.1, status⟩]⟩
    match S.fork r.state with
    | .undef => ⟨r', status⟩
    | .other => die r'
    | .child => if status ≠ 0 then die r' else rest r'

def usermod (user : Str) : List Str :=
  ["/usr/sbin/usermod".toList, "-g".toList, VALIDATED_GROUP, "-L".toList, VALIDATED_CLASS, "-s".toList, VALIDATED_SHELL,
    user]

def dovalidate (S : System σ) (user : Str) : (Run σ → Ended σ) → Run σ → Ended σ := doexec S (usermod user)

/-- `$checked_gid`; a group that does not exist leaves it undefined, which counts as 0 -/
def checkedGid (S : System σ) (s : σ) : ℤ := ((S.getgrnam s CHECKED_GROUP).map Int.ofNat).getD 0

/-- a name that is false in perl -/
def isFalse (user : Str) : Bool := user = [] ∨ user = "0".toList

def validate1 (S : System σ) (checked_gid : ℤ) (user : Str) (rest : Run σ → Ended σ) (r : Run σ) : Ended σ :=
  match S.getpwnam r.state user with
  | none => die r
  | some pw =>
    if isFalse user then die r
    else if checked_gid ≠ -1 ∧ (pw.gid : ℤ) ≠ checked_gid then die r
    else dovalidate S user rest r

def validate (S : System σ) (checked_gid : ℤ) : List Str → (Run σ → Ended σ) → Run σ → Ended σ
  | [], rest => rest
  | user :: users, rest => validate1 S checked_gid user (validate S checked_gid users rest)

def rebuild : List Str := ["/cyberspace/sbin/rebuild-active-incoming".toList]

def rebuild_active_incoming (S : System σ) : (Run σ → Ended σ) → Run σ → Ended σ := doexec S rebuild

/-- the program from some user on -/
def finish (S : System σ) (checked_gid : ℤ) (users : List Str) : Run σ → Ended σ :=
  validate S checked_gid users (rebuild_active_incoming S fun r => ⟨r, 0⟩)

/-- all of the program, for its arguments -/
def main (S : System σ) (users : List Str) (s : σ) : Run σ := (finish S (checkedGid S s) users ⟨s, []⟩).run

/-! ## What a run should do -/

/-- an account is changed -/
def Event.Change (S : System σ) (e : Event σ) : Prop := S.getpwnam e.next ≠ S.getpwnam e.state

def Event.Rebuild (e : Event σ) : Prop := e.argv = rebuild ∧ e.status = 0

/-- no account has been changed, or the database has been built again after the last change -/
def Consistent (S : System σ) (log : List (Event σ)) : Prop :=
  (∀ e ∈ log, ¬ e.Change S) ∨ ∃ before e after, log = before ++ e :: after ∧ e.Rebuild ∧ ∀ e' ∈ after, ¬ e'.Change S

/-- `usermod` is run for users of the group only -/
def OnlyUnvalidated (S : System σ) (log : List (Event σ)) : Prop :=
  ∀ e ∈ log, ∀ user, e.argv = usermod user →
    ∃ pw, S.getpwnam e.state user = some pw ∧ S.getgrnam e.state CHECKED_GROUP = some pw.gid

def RunRight (S : System σ) (users : List Str) (s : σ) : Prop :=
  Consistent S (main S users s).log ∧ OnlyUnvalidated S (main S users s).log

/-- what is known of the commands: groups stay as they are; a `usermod` that succeeds puts its user into the group that
it names, and leaves the others as they are; the rebuild changes no account; and whether `usermod` can be executed at
all does not change -/
structure Documented (S : System σ) : Prop where
  groups : ∀ s user, S.getgrnam (S.exec s (usermod user)).1 = S.getgrnam s
  user : ∀ s user, (S.exec s (usermod user)).2 = some 0 →
    (S.getpwnam (S.exec s (usermod user)).1 user).map Passwd.gid = S.getgrnam s VALIDATED_GROUP
  others : ∀ s user, (S.exec s (usermod user)).2 = some 0 → ∀ user', user' ≠ user →
    S.getpwnam (S.exec s (usermod user)).1 user' = S.getpwnam s user'
  rebuild : ∀ s, S.getpwnam (S.exec s rebuild).1 = S.getpwnam s
  executable : ∀ s s' user user', (S.exec s (usermod user)).2 = none → (S.exec s' (usermod user')).2 = none

/-- a user passes the checks -/
def Passes (S : System σ) (s : σ) (user : Str) : Prop :=
  isFalse user = false ∧ (S.getpwnam s user).map Passwd.gid = some ((S.getgrnam s CHECKED_GROUP).getD 0)

instance (S : System σ) (s : σ) (user : Str) : Decidable (Passes S s user) := inferInstanceAs (Decidable (_ ∧ _))

/-- all commands succeed: `usermod` for each of the users, and then the rebuild -/
def Succeed (S : System σ) : σ → List Str → Prop
  | s, [] => (S.exec s rebuild).2 = some 0
  | s, user :: users =>
    S.fork s = .child ∧ (S.exec s (usermod user)).2 = some 0 ∧ Succeed S (S.exec s (usermod user)).1 users

/-- no account is changed: a `usermod` that is run leaves all accounts as they are, and so do those behind it if the
program goes on -/
def Unchanged (S : System σ) : σ → List Str → Prop
  | _, [] => True
  | s, user :: users => Passes S s user →
    S.getpwnam (S.exec s (usermod user)).1 = S.getpwnam s ∧
      (S.fork s = .child → (S.exec s (usermod user)).2 = some 0 → Unchanged S (S.exec s (usermod user)).1 users)

/-- `usermod` cannot be executed -/
def Missing (S : System σ) (s : σ) : Prop := ∀ user, (S.exec s (usermod user)).2 = none

/-! ## One user -/

section OneUser

variable {S : System σ} {s : σ} {r : Run σ} {user : Str} {users : List Str} {rest : Run σ → Ended σ} {argv : List Str}
  {status : ℕ}

/-- a command that has been executed in a state -/
def event (S : System σ) (s : σ) (argv : List Str) (status : ℕ) : Event σ := ⟨s, argv, (S.exec s argv).1, status⟩

/-- what such a command leaves, whether the program goes on or not -/
def after (S : System σ) (argv : List Str) (status : ℕ) (r : Run σ) : Run σ :=
  ⟨(S.exec r.state argv).1, r.log ++ [event S r.state argv status]⟩

/-- the program goes on if the command succeeds in a process of its own -/
theorem doexec_some (rest : Run σ → Ended σ) (hexec : (S.exec r.state argv).2 = some status) :
    if S.fork r.state = .child ∧ status = 0 then doexec S argv rest r = rest (after S argv status r)
    else (doexec S argv rest r).run = after S argv status r := by
  rw [doexec]
  dsimp only
  rw [hexec]
  cases hfork : S.fork r.state with
  | undef => rfl
  | other => rfl
  | child =>
    by_cases hstatus : status = 0
    · rw [if_pos ⟨rfl, hstatus⟩]
      exact if_neg fun h => h hstatus
    · rw [if_neg fun h => hstatus h.2]
      dsimp only
      rw [if_pos hstatus]
      rfl

/-- a command that cannot be executed: what is behind it is done by the program, by the child or by both -/
theorem doexec_none (rest : Run σ → Ended σ) (hexec : (S.exec r.state argv).2 = none) :
    (doexec S argv rest r).run = (rest ⟨(S.exec r.state argv).1, r.log⟩).run ∨
      (doexec S argv rest r).run = (rest (rest ⟨(S.exec r.state argv).1, r.log⟩).run).run := by
  rw [doexec]
  dsimp only
  rw [hexec]
  cases S.fork r.state with
  | undef => exact Or.inl rfl
  | other => exact Or.inl rfl
  | child =>
    dsimp only
    split_ifs
    · exact Or.inl rfl
    · exact Or.inr rfl

theorem checkedGid_eq (S : System σ) (s : σ) : checkedGid S s = ((S.getgrnam s CHECKED_GROUP).getD 0 : ℕ) := by
  rw [checkedGid]
  cases S.getgrnam s CHECKED_GROUP <;> rfl

/-- **A user is validated** if the checks are passed, and the program ends at once if they are not. -/
theorem validate1_spec {checked : ℤ} (hchecked : checked = checkedGid S r.state) (user : Str)
    (rest : Run σ → Ended σ) :
    if Passes S r.state user then validate1 S checked user rest r = dovalidate S user rest r
    else validate1 S checked user rest r = die r := by
  rw [checkedGid_eq] at hchecked
  rw [validate1]
  cases hpw : S.getpwnam r.state user with
  | none =>
    have hfail : ¬ Passes S r.state user := by
      intro h
      have hgid := h.2
      rw [hpw] at hgid
      cases hgid
    rw [if_neg hfail]
  | some pw =>
    have hiff : Passes S r.state user ↔
        isFalse user = false ∧ pw.gid = (S.getgrnam r.state CHECKED_GROUP).getD 0 := by
      rw [Passes, hpw]
      simp
    by_cases hfalse : isFalse user = true
    · rw [if_neg fun h => Bool.false_ne_true ((hiff.1 h).1.symm.trans hfalse)]
      exact if_pos hfalse
    · have hminus : checked ≠ -1 := by omega
      by_cases hgid : pw.gid = (S.getgrnam r.state CHECKED_GROUP).getD 0
      · rw [if_pos (hiff.2 ⟨by simpa using hfalse, hgid⟩)]
        have hsame : ¬ (checked ≠ -1 ∧ (pw.gid : ℤ) ≠ checked) := fun h => h.2 (by rw [hgid, hchecked])
        simp only [if_neg hfalse, if_neg hsame]
      · rw [if_neg fun h => hgid (hiff.1 h).2]
        have hother : checked ≠ -1 ∧ (pw.gid : ℤ) ≠ checked := ⟨hminus, by omega⟩
        simp only [if_neg hfalse, if_pos hother]

/-- from the first user on -/
theorem finish_cons {checked : ℤ} (hchecked : checked = checkedGid S r.state) (users : List Str)
    (hexec : (S.exec r.state (usermod user)).2 = some status) :
    if Passes S r.state user then
      if S.fork r.state = .child ∧ status = 0 then
        finish S checked (user :: users) r = finish S checked users (after S (usermod user) status r)
      else (finish S checked (user :: users) r).run = after S (usermod user) status r
    else (finish S checked (user :: users) r).run = r := by
  have hone := validate1_spec hchecked user (validate S checked users (rebuild_active_incoming S fun r => ⟨r, 0⟩))
  rw [finish, validate]
  split_ifs at hone ⊢ with hpass hgo
  · have hgoes := doexec_some (validate S checked users (rebuild_active_incoming S fun r => ⟨r, 0⟩)) hexec
    rw [if_pos hgo] at hgoes
    rw [hone, dovalidate, hgoes, finish]
  · have hends := doexec_some (validate S checked users (rebuild_active_incoming S fun r => ⟨r, 0⟩)) hexec
    rw [if_neg hgo] at hends
    rw [hone, dovalidate, hends]
  · rw [hone, die]

/-- the rebuild is in the log if it can be executed -/
theorem finish_nil (S : System σ) (checked : ℤ) (r : Run σ) :
    (finish S checked [] r).run.log = r.log ++ ((S.exec r.state rebuild).2.map (event S r.state rebuild)).toList := by
  rw [finish, validate, rebuild_active_incoming]
  cases hexec : (S.exec r.state rebuild).2 with
  | none =>
    have hrun := doexec_none (fun r => ⟨r, 0⟩) hexec
    rw [Option.map_none, Option.toList_none, List.append_nil]
    rcases hrun with h | h
    · rw [h]
    · rw [h]
  | some status =>
    have hrun := doexec_some (fun r => ⟨r, 0⟩) hexec
    split_ifs at hrun
    · rw [hrun]
      rfl
    · rw [hrun]
      rfl

end OneUser

/-! ## A run -/

section Runs

variable {S : System σ} {s : σ} {r : Run σ} {user : Str} {users : List Str} {status : ℕ}

theorem rebuild_ne_usermod (user : Str) : rebuild ≠ usermod user := fun h => nomatch congrArg List.length h

theorem usermod_inj {user user' : Str} (h : usermod user = usermod user') : user = user' := by
  simpa [usermod] using h

/-- an execution of the rebuild -/
def Event.Rebuilt (S : System σ) (e : Event σ) : Prop := e.argv = rebuild ∧ e.next = (S.exec e.state rebuild).1

theorem Event.Rebuilt.not_change (hS : Documented S) {e : Event σ} (h : e.Rebuilt S) : ¬ e.Change S := by
  rw [Event.Change, h.2]
  exact not_not.2 (hS.rebuild e.state)

/-- **Without `usermod`** only the rebuild is executed, in how many processes soever. -/
theorem finish_missing (checked : ℤ) (hnone : ∀ s user, (S.exec s (usermod user)).2 = none) (users : List Str) :
    ∃ tail, (finish S checked users r).run.log = r.log ++ tail ∧ ∀ e ∈ tail, e.Rebuilt S := by
  induction users generalizing r with
  | nil =>
    refine ⟨_, finish_nil S checked r, fun e he => ?_⟩
    obtain ⟨status, -, rfl⟩ := Option.map_eq_some_iff.1 (Option.mem_toList.1 he)
    exact ⟨rfl, rfl⟩
  | cons user users ih =>
    have hends : ∃ tail, (die r).run.log = r.log ++ tail ∧ ∀ e ∈ tail, e.Rebuilt S :=
      ⟨[], (List.append_nil _).symm, fun e he => absurd he List.not_mem_nil⟩
    rw [finish, validate, validate1]
    split
    · exact hends
    · split_ifs
      · exact hends
      · exact hends
      · obtain ⟨tail₁, h₁, hall₁⟩ := ih (r := ⟨(S.exec r.state (usermod user)).1, r.log⟩)
        obtain ⟨tail₂, h₂, hall₂⟩ := ih (r := (finish S checked users ⟨(S.exec r.state (usermod user)).1, r.log⟩).run)
        rcases doexec_none (finish S checked users) (hnone r.state user) with h | h
        · exact ⟨tail₁, (congrArg Run.log h).trans h₁, hall₁⟩
        · refine ⟨tail₁ ++ tail₂, (congrArg Run.log h).trans ?_, List.forall_mem_append.2 ⟨hall₁, hall₂⟩⟩
          rw [h₂, h₁, List.append_assoc]

/-- all users are validated, and the database is built again -/
def Go (S : System σ) : σ → List Str → Prop
  | s, [] => (S.exec s rebuild).2 = some 0
  | s, user :: users => Passes S s user ∧ S.fork s = .child ∧ (S.exec s (usermod user)).2 = some 0 ∧
      Go S (S.exec s (usermod user)).1 users

theorem not_rebuild_usermod : ¬ (event S s (usermod user) status).Rebuild :=
  fun h => rebuild_ne_usermod user h.1.symm

theorem checkedGid_after (hS : Documented S) (user : Str) (s : σ) :
    checkedGid S (S.exec s (usermod user)).1 = checkedGid S s := by
  rw [checkedGid, checkedGid, hS.groups]

/-- a `usermod` for a user who passes the checks; groups are as they were -/
def Event.Checked (S : System σ) (s : σ) (e : Event σ) : Prop :=
  ∀ user, e.argv = usermod user → Passes S e.state user ∧ S.getgrnam e.state = S.getgrnam s

/-- what a run from `s` executes: if all goes well, a rebuild in the end, and no successful one otherwise -/
structure Executes (S : System σ) (s : σ) (users : List Str) (tail : List (Event σ)) : Prop where
  checked : ∀ e ∈ tail, e.Checked S s
  go : Go S s users → ∃ front e, tail = front ++ [e] ∧ e.Rebuild
  stop : ¬ Go S s users → ∀ e ∈ tail, ¬ e.Rebuild
  unchanged : Unchanged S s users ↔ ∀ e ∈ tail, ¬ e.Change S

/-- the rebuild behind the loop -/
theorem executes_rebuild (hS : Documented S) :
    Executes S s [] ((S.exec s rebuild).2.map (event S s rebuild)).toList := by
  have hall : ∀ e ∈ ((S.exec s rebuild).2.map (event S s rebuild)).toList,
      e.Rebuilt S ∧ (S.exec s rebuild).2 = some e.status := by
    intro e he
    obtain ⟨status, hstatus, rfl⟩ := Option.map_eq_some_iff.1 (Option.mem_toList.1 he)
    exact ⟨⟨rfl, rfl⟩, hstatus⟩
  refine ⟨fun e he user huser => ?_, fun hgo => ?_, fun hgo e he hrebuild => ?_,
    iff_of_true trivial fun e he => (hall e he).1.not_change hS⟩
  · exact absurd ((hall e he).1.1.symm.trans huser) (rebuild_ne_usermod user)
  · rw [Go] at hgo
    exact ⟨[], event S s rebuild 0, by rw [hgo]; rfl, rfl, rfl⟩
  · exact hgo ((hall e he).2.trans (congrArg some hrebuild.2))

theorem not_change_iff {argv : List Str} {status : ℕ} :
    ¬ (event S s argv status).Change S ↔ S.getpwnam (S.exec s argv).1 = S.getpwnam s := not_not

theorem checked_usermod (hpass : Passes S s user) (status : ℕ) : (event S s (usermod user) status).Checked S s := by
  intro user' huser
  rw [← usermod_inj huser]
  exact ⟨hpass, rfl⟩

/-- the program goes on behind a `usermod` -/
theorem Executes.cons (hS : Documented S) (hpass : Passes S s user) (hfork : S.fork s = .child)
    (hexec : (S.exec s (usermod user)).2 = some 0) {tail : List (Event σ)}
    (htail : Executes S (S.exec s (usermod user)).1 users tail) :
    Executes S s (user :: users) (event S s (usermod user) 0 :: tail) := by
  refine ⟨?_, fun h => ?_, fun h => ?_, ?_⟩
  · rintro e (_ | ⟨_, he⟩)
    · exact checked_usermod hpass 0
    · intro user' huser
      obtain ⟨hpass', hgroups⟩ := htail.checked e he user' huser
      exact ⟨hpass', hgroups.trans (hS.groups s user)⟩
  · obtain ⟨front, e, hsplit, he⟩ := htail.go h.2.2.2
    exact ⟨event S s (usermod user) 0 :: front, e, by rw [hsplit, List.cons_append], he⟩
  · rintro e (_ | ⟨_, he⟩)
    · exact not_rebuild_usermod
    · exact htail.stop (fun hrest => h ⟨hpass, hfork, hexec, hrest⟩) e he
  · rw [Unchanged, List.forall_mem_cons, ← htail.unchanged, not_change_iff]
    exact ⟨fun h => ⟨(h hpass).1, (h hpass).2 hfork hexec⟩, fun h _ => ⟨h.1, fun _ _ => h.2⟩⟩

/-- a `usermod` ends the program -/
theorem executes_stopped (hpass : Passes S s user) {status : ℕ} (hexec : (S.exec s (usermod user)).2 = some status)
    (hone : ¬ (S.fork s = .child ∧ status = 0)) :
    Executes S s (user :: users) [event S s (usermod user) status] := by
  have hstop : ¬ (S.fork s = .child ∧ (S.exec s (usermod user)).2 = some 0) := by
    rw [hexec]
    exact fun h => hone ⟨h.1, Option.some.inj h.2⟩
  refine ⟨fun e he => ?_, fun h => absurd ⟨h.2.1, h.2.2.1⟩ hstop, fun _ e he => ?_, ?_⟩
  · rw [List.mem_singleton.1 he]
    exact checked_usermod hpass status
  · rw [List.mem_singleton.1 he]
    exact not_rebuild_usermod
  · rw [Unchanged, List.forall_mem_singleton, not_change_iff]
    exact ⟨fun h => (h hpass).1, fun h _ => ⟨h, fun hfork hstatus => absurd ⟨hfork, hstatus⟩ hstop⟩⟩

/-- the first user is refused -/
theorem executes_refused (hpass : ¬Passes S s user) : Executes S s (user :: users) [] := by
  have hnil : ∀ {P : Event σ → Prop}, ∀ e ∈ ([] : List (Event σ)), P e := fun e he => absurd he List.not_mem_nil
  exact ⟨hnil, fun h => absurd h.1 hpass, fun _ => hnil, iff_of_true (fun h => absurd h hpass) hnil⟩

/-- **What a run executes.** -/
theorem finish_spec (hS : Documented S) (hsome : ∀ s user, (S.exec s (usermod user)).2 ≠ none) {checked : ℤ}
    (hchecked : checked = checkedGid S r.state) (users : List Str) :
    ∃ tail, (finish S checked users r).run.log = r.log ++ tail ∧ Executes S r.state users tail := by
  induction users generalizing r with
  | nil => exact ⟨_, finish_nil S checked r, executes_rebuild hS⟩
  | cons user users ih =>
    obtain ⟨status, hexec⟩ := Option.ne_none_iff_exists'.1 (hsome r.state user)
    have hcons := finish_cons hchecked users hexec
    by_cases hpass : Passes S r.state user
    · rw [if_pos hpass] at hcons
      by_cases hone : S.fork r.state = .child ∧ status = 0
      · rw [if_pos hone] at hcons
        obtain ⟨hfork, rfl⟩ := hone
        obtain ⟨tail, hlog, htail⟩ := ih (r := after S (usermod user) 0 r)
          (hchecked.trans (checkedGid_after hS user r.state).symm)
        refine ⟨event S r.state (usermod user) 0 :: tail, ?_, htail.cons hS hpass hfork hexec⟩
        rw [hcons, hlog, after, List.append_assoc]
        rfl
      · rw [if_neg hone] at hcons
        exact ⟨[event S r.state (usermod user) status], by rw [hcons, after], executes_stopped hpass hexec hone⟩
    · rw [if_neg hpass] at hcons
      exact ⟨[], by rw [hcons, List.append_nil], executes_refused hpass⟩

/-- after a successful `usermod`, its user passes the checks only if the groups are the same -/
theorem passes_after_user (hS : Documented S) (hgroup : (S.getgrnam s CHECKED_GROUP).isSome)
    (hstatus : (S.exec s (usermod user)).2 = some 0) (hpass : Passes S s user) :
    Passes S (S.exec s (usermod user)).1 user ↔ S.getgrnam s VALIDATED_GROUP = S.getgrnam s CHECKED_GROUP := by
  obtain ⟨gid, hgid⟩ := Option.isSome_iff_exists.1 hgroup
  rw [Passes, hS.user s user hstatus, hS.groups, and_iff_right hpass.1, hgid, Option.getD_some]

theorem passes_after_others (hS : Documented S) (hstatus : (S.exec s (usermod user)).2 = some 0) {user' : Str}
    (hne : user' ≠ user) : Passes S (S.exec s (usermod user)).1 user' ↔ Passes S s user' := by
  rw [Passes, Passes, hS.others s user hstatus user' hne, hS.groups]

/-- **When all users are validated**: they all pass the checks as the program starts, and none is named twice. -/
theorem go_iff (hS : Documented S) (hgroup : (S.getgrnam s CHECKED_GROUP).isSome) :
    Go S s users ↔ (∀ user ∈ users, Passes S s user) ∧
      (users.Nodup ∨ S.getgrnam s VALIDATED_GROUP = S.getgrnam s CHECKED_GROUP) ∧ Succeed S s users := by
  induction users generalizing s with
  | nil => simp [Go, Succeed]
  | cons user users ih =>
    rw [Go, Succeed]
    by_cases hpass : Passes S s user
    · by_cases hstatus : (S.exec s (usermod user)).2 = some 0
      · have hrest := ih (s := (S.exec s (usermod user)).1) (by rwa [hS.groups])
        have hothers : (∀ user' ∈ users, Passes S (S.exec s (usermod user)).1 user') ↔
            (∀ user' ∈ users, Passes S s user') ∧
              (user ∉ users ∨ S.getgrnam s VALIDATED_GROUP = S.getgrnam s CHECKED_GROUP) := by
          rw [← passes_after_user hS hgroup hstatus hpass]
          constructor
          · intro h
            refine ⟨fun user' hmem => ?_, or_iff_not_imp_left.2 fun hmem => h user (not_not.1 hmem)⟩
            by_cases hne : user' = user
            · rwa [hne]
            · exact (passes_after_others hS hstatus hne).1 (h user' hmem)
          · rintro ⟨h, huser⟩ user' hmem
            by_cases hne : user' = user
            · subst hne
              exact huser.resolve_left fun hnot => hnot hmem
            · exact (passes_after_others hS hstatus hne).2 (h user' hmem)
        rw [hrest, hothers, hS.groups, List.forall_mem_cons, List.nodup_cons]
        tauto
      · simp [hstatus]
    · simp [hpass]

/-- `usermod` is run for users of the group only if there is one, or if the first user is turned away -/
theorem onlyUnvalidated_iff (hS : Documented S) (hsome : ∀ s user, (S.exec s (usermod user)).2 ≠ none)
    (users : List Str) (s : σ) :
    OnlyUnvalidated S (main S users s).log ↔
      ((∃ user ∈ users.head?, Passes S s user) → (S.getgrnam s CHECKED_GROUP).isSome) := by
  obtain ⟨log, hlog, hall⟩ := finish_spec hS hsome (r := ⟨s, []⟩) rfl users
  replace hlog : (main S users s).log = log := hlog
  rw [hlog]
  constructor
  · rintro honly ⟨user, huser, hpass⟩
    obtain ⟨tail, rfl⟩ := List.head?_eq_some_iff.1 huser
    obtain ⟨status, hexec⟩ := Option.ne_none_iff_exists'.1 (hsome s user)
    have hcons := finish_cons (S := S) (r := ⟨s, []⟩) rfl tail hexec
    rw [if_pos hpass] at hcons
    have hmem : event S s (usermod user) status ∈ log := by
      rw [← hlog, main]
      split_ifs at hcons with hgo
      · have hchecked := (checkedGid_after hS user s).symm
        obtain ⟨more, hmore, -⟩ := finish_spec hS hsome (r := after S (usermod user) status ⟨s, []⟩) hchecked tail
        rw [hcons, hmore]
        exact List.mem_append_left _ List.mem_cons_self
      · rw [hcons]
        exact List.mem_cons_self
    obtain ⟨pw, -, hgid⟩ := honly _ hmem user rfl
    exact Option.isSome_iff_exists.2 ⟨pw.gid, hgid⟩
  · intro h e he user huser
    obtain ⟨⟨hname, hpw⟩, hgroups⟩ := hall.checked e he user huser
    obtain ⟨pw, hpw, hgid⟩ := Option.map_eq_some_iff.1 hpw
    refine ⟨pw, hpw, ?_⟩
    have hgroup : (S.getgrnam e.state CHECKED_GROUP).isSome := by
      rw [hgroups]
      apply h
      cases users with
      | nil =>
        rw [main, finish_nil] at hlog
        rw [← hlog] at he
        obtain ⟨status, -, rfl⟩ := Option.map_eq_some_iff.1 (Option.mem_toList.1 he)
        exact absurd huser (rebuild_ne_usermod user)
      | cons first tail =>
        refine ⟨first, rfl, ?_⟩
        by_contra hpass
        obtain ⟨status, hexec⟩ := Option.ne_none_iff_exists'.1 (hsome s first)
        have hcons := finish_cons (S := S) (r := ⟨s, []⟩) rfl tail hexec
        rw [if_neg hpass] at hcons
        rw [main, hcons] at hlog
        rw [← hlog] at he
        exact absurd he List.not_mem_nil
    obtain ⟨gid, hchecked⟩ := Option.isSome_iff_exists.1 hgroup
    rw [hchecked, Option.getD_some] at hgid
    rw [hchecked, hgid]

/-- **A run is right** if and only if `usermod` cannot be executed, or there is a group `unknowns` (or the first user is
turned away) and either no account is changed, or all goes well: the users all pass the checks, none is named twice (or
the groups are the same), and all commands succeed. -/
theorem dovalidate_right_iff (hS : Documented S) (users : List Str) (s : σ) :
    RunRight S users s ↔ Missing S s ∨
      ((∃ user ∈ users.head?, Passes S s user) → (S.getgrnam s CHECKED_GROUP).isSome) ∧
        (Unchanged S s users ∨ (∀ user ∈ users, Passes S s user) ∧
          (users.Nodup ∨ S.getgrnam s VALIDATED_GROUP = S.getgrnam s CHECKED_GROUP) ∧ Succeed S s users) := by
  by_cases hmissing : Missing S s
  · refine iff_of_true ?_ (Or.inl hmissing)
    have hnone : ∀ s' user, (S.exec s' (usermod user)).2 = none := fun s' user =>
      hS.executable s s' user user (hmissing user)
    obtain ⟨log, hlog, hall⟩ := finish_missing (r := ⟨s, []⟩) (checkedGid S s) hnone users
    replace hlog : (main S users s).log = log := hlog
    rw [RunRight, hlog]
    refine ⟨Or.inl fun e he => (hall e he).not_change hS, fun e he user huser => ?_⟩
    exact absurd ((hall e he).1.symm.trans huser) (rebuild_ne_usermod user)
  · have hsome : ∀ s' user, (S.exec s' (usermod user)).2 ≠ none := fun s' user h =>
      hmissing fun user' => hS.executable s' s user user' h
    rw [or_iff_right hmissing, RunRight, onlyUnvalidated_iff hS hsome, and_comm]
    refine and_congr_right fun hgroup => ?_
    obtain ⟨log, hlog, hall⟩ := finish_spec hS hsome (r := ⟨s, []⟩) rfl users
    replace hlog : (main S users s).log = log := hlog
    have hconsistent : Consistent S log ↔ Unchanged S s users ∨ Go S s users := by
      rw [Consistent, ← hall.unchanged]
      constructor
      · rintro (hnone | ⟨before, e, rest, hsplit, hrebuild, -⟩)
        · exact Or.inl hnone
        · refine Or.inr ?_
          by_contra h
          exact hall.stop h e (by rw [hsplit]; exact List.mem_append_right _ List.mem_cons_self) hrebuild
      · rintro (hnone | hgo)
        · exact Or.inl hnone
        · obtain ⟨front, e, hsplit, hrebuild⟩ := hall.go hgo
          exact Or.inr ⟨front, e, [], hsplit, hrebuild, fun e' he' => absurd he' List.not_mem_nil⟩
    rw [hlog, hconsistent]
    cases users with
    | nil => exact iff_of_true (Or.inl trivial) (Or.inl trivial)
    | cons user users =>
      refine or_congr_right ?_
      by_cases hpass : Passes S s user
      · exact go_iff hS (hgroup ⟨user, rfl, hpass⟩)
      · exact iff_of_false (fun h => hpass h.1) fun h => hpass (h.1 user List.mem_cons_self)

end Runs

/-! ## A system -/

/-- accounts; the groups `unknowns` and `people`, and commands that do what they should -/
def unix : System (Str → Option Passwd) where
  getgrnam _ group := if group = CHECKED_GROUP then some 100 else if group = VALIDATED_GROUP then some 200 else none
  getpwnam s user := s user
  fork _ := .child
  exec s argv :=
    match argv with
    | [_, _, _, _, loginclass, _, shell, user] =>
      if (s user).isSome then (Function.update s user (some ⟨200, loginclass, shell⟩), some 0) else (s, some 1)
    | _ => (s, some 0)

theorem unix_usermod (s : Str → Option Passwd) (user : Str) :
    unix.exec s (usermod user) =
      if (s user).isSome then
        (Function.update s user (some ⟨200, VALIDATED_CLASS, VALIDATED_SHELL⟩), some 0)
      else (s, some 1) := rfl

theorem documented_unix : Documented unix where
  groups _ _ := rfl
  user s user hstatus := by
    rw [unix_usermod] at hstatus ⊢
    split_ifs at hstatus ⊢ with h
    · have hself : Function.update s user (some ⟨200, VALIDATED_CLASS, VALIDATED_SHELL⟩) user = _ :=
        Function.update_self user _ s
      exact congrArg (Option.map Passwd.gid) hself
    · cases hstatus
  others s user hstatus user' hne := by
    rw [unix_usermod] at hstatus ⊢
    split_ifs at hstatus ⊢ with h
    · exact Function.update_of_ne hne _ _
    · cases hstatus
  rebuild _ := rfl
  executable s s' user user' h := by
    rw [unix_usermod] at h
    split_ifs at h

/-- one user of the group `unknowns` -/
def oneUser (user : Str) : Option Passwd :=
  if user = "a".toList then some ⟨100, "default".toList, "/bin/sh".toList⟩ else none

/-- a run for this user -/
theorem validated : RunRight unix ["a".toList] oneUser := by
  refine (dovalidate_right_iff documented_unix ["a".toList] oneUser).2 (Or.inr ⟨fun _ => rfl, Or.inr ⟨?_, ?_, ?_⟩⟩)
  · intro user' huser'
    rw [List.mem_singleton.1 huser']
    exact ⟨rfl, rfl⟩
  · exact Or.inl (List.nodup_singleton _)
  · exact ⟨rfl, rfl, rfl⟩

/-- The first user is validated, and the second one does not exist. -/
theorem second_unknown : ¬ RunRight unix ["a".toList, "b".toList] oneUser := by
  have hlog : (main unix ["a".toList, "b".toList] oneUser).log = [event unix oneUser (usermod "a".toList) 0] := rfl
  rintro ⟨hconsistent, -⟩
  rw [hlog] at hconsistent
  rcases hconsistent with hnone | ⟨before, e, rest, hsplit, hrebuild, -⟩
  · refine hnone _ List.mem_cons_self fun heq => ?_
    have hgid : some 200 = some 100 := congrArg (Option.map Passwd.gid) (congrFun heq "a".toList)
    exact absurd hgid (by decide)
  · have he : e ∈ [event unix oneUser (usermod "a".toList) 0] := by
      rw [hsplit]
      exact List.mem_append_right _ List.mem_cons_self
    rw [List.mem_singleton.1 he] at hrebuild
    exact not_rebuild_usermod hrebuild

end MNetSoft.Sbin.Dovalidate
