/-
What `main` of `pnewuser` leaves of its lock directories: the turns of `confirm_and_create`, and the `cleanup` after the
loop, whose `printfile` may raise `cleaning`. (`done`, after it, only prints.) An error that the loop does not catch, or
that is raised after it, ends `main` without any of the steps that are left.

A directory is held from the `mkdir` that makes it to the `unlock` that removes it. `confirm_and_create` runs `unlock`
after every error that it catches, whether the `mkdir` was made or not, and does not run it after any other.
- `behind`: the first error raised behind the `mkdir` of a turn.
- `step_track`: what a turn does to the directories held.
- `released_iff`: exactly when everything is released, and nothing but what is held is ever removed.
- `not_released`: the directory of another session is removed; and one is left behind.
-/
import Mathlib.Tactic
import MNetSoft.Pnewuser.Session

namespace MNetSoft.Pnewuser

open MNetSoft.CString
open MNetSoft.Runs
open MNetSoft.Effects

/-! ## Model -/

/-- `cleanup` of `main` -/
def cleanup (cfg : Config) (cleaning : Option Err) (s : Session) : List Event :=
  match cleaning with
  | some _ => []
  | none =>
    match s.lockdir with
    | none => []
    | some basename => [.unlocked (lockpath cfg basename)]

/-- the events of a turn, and those of `main` behind it if the loop ends there without an error -/
def eventsOf (cfg : Config) (cleaning : Option Err) (s : Session) : List Event :=
  s.events ++ if s.ended ∧ s.raised = none then cleanup cfg cleaning s else []

/-- `main` from the loop of `confirm_and_create` on: the events of all turns, when it has ended -/
def main (cfg : Config) (cleaning : Option Err) : Session → List Turn → Option (List Event)
  | s, [] => if s.ended then some [] else none
  | s, t :: turns => (step cfg s t).bind fun s' => (main cfg cleaning s' turns).map (eventsOf cfg cleaning s' ++ ·)

/-! ## What is held -/

/-- what an event does to the lock directories that have been made and not yet been removed -/
def Event.next (held : Finset Str) : Event → Finset Str
  | .locked path => insert path held
  | .unlocked path => held.erase path
  | _ => held

/-- only what is held is removed -/
def Event.own (held : Finset Str) : Event → Bool
  | .unlocked path => path ∈ held
  | _ => true

/-- the lock directories held after some events -/
def holding (held : Finset Str) (events : List Event) : Finset Str := events.foldl Event.next held

/-- nothing is held in the end, and `unlock` is only run for what is held -/
structure Released (events : List Event) : Prop where
  gone : holding ∅ events = ∅
  own : ∀ before path after, events = before ++ .unlocked path :: after → path ∈ holding ∅ before

/-- the first error raised by the account steps, if there is one -/
def accountError (s : Session) (t : Turn) : Option Err :=
  t.creating.or <| Option.or (if Piped s t then none else some (.die NO_FORK)) <|
    Option.or (if WEXITSTATUS t.status = 65 then some (.die USER_EXISTS) else none) <|
    Option.or (if s.setquota then none else some (.die STRICT_REFS)) <|
    t.quotas.or <| t.loguser.or <| t.emailing.or t.mail

/-- the first error raised behind the `mkdir` of a turn, if there is one -/
def behind (cfg : Config) (s : Session) (t : Turn) : Option Err :=
  match t.plan with
  | some error => some (.die (CANT_OPEN ++ lockpath cfg ((chosen s t).value "login") ++ "/.plan: ".toList ++ error))
  | none => accountError s t

/-- a turn that loses no directory and removes none that is not held: no error caught at the prompt, once there is a
lock directory object; the `mkdir` succeeds; what is raised behind it is caught; and if the loop ends, `cleanup` goes
through -/
def Good (cfg : Config) (cleaning : Option Err) (s : Session) (t : Turn) : Prop :=
  match (confirm_or_exit t.inputs s.user).1 with
  | some e => retries e = true → s.lockdir = none
  | none => t.mkdir = none ∧
    match behind cfg s t with
    | some e => retries e = true
    | none => cleaning = none

/-! ## Directories held, event by event -/

/-- what is held afterwards; `none` if something is removed that is not held -/
def track : Finset Str → List Event → Option (Finset Str)
  | held, [] => some held
  | held, e :: events => if e.own held then track (e.next held) events else none

theorem track_append (held : Finset Str) (l l' : List Event) :
    track held (l ++ l') = (track held l).bind fun held => track held l' := by
  induction l generalizing held with
  | nil => rfl
  | cons e l ih =>
    rw [List.cons_append, track, track]
    split_ifs
    · exact ih _
    · rfl

/-- events are tracked to the end exactly when each is for what is held -/
theorem track_eq_some_iff (held held' : Finset Str) (events : List Event) : track held events = some held' ↔
    holding held events = held' ∧
      ∀ before e after, events = before ++ e :: after → e.own (holding held before) = true := by
  induction events generalizing held with
  | nil => simp [track, holding]
  | cons x events ih =>
    have hown : (∀ before e after, x :: events = before ++ e :: after → e.own (holding held before) = true) ↔
        x.own held = true ∧ ∀ before e after, events = before ++ e :: after →
          e.own (holding (x.next held) before) = true := by
      refine ⟨fun h => ⟨h [] x events rfl, fun before e after heq => h (x :: before) e after (by rw [heq]; rfl)⟩, ?_⟩
      intro h before e after heq
      cases before with
      | nil =>
        obtain ⟨rfl, -⟩ := List.cons.inj heq
        exact h.1
      | cons y before =>
        obtain ⟨rfl, htail⟩ := List.cons.inj heq
        exact h.2 before e after htail
    rw [track, hown]
    split_ifs with hx
    · rw [ih]
      simp [hx, holding]
    · simp [hx]

theorem released_iff_track (events : List Event) : Released events ↔ track ∅ events = some ∅ := by
  rw [track_eq_some_iff]
  refine ⟨fun h => ⟨h.gone, ?_⟩, fun h => ⟨h.1, ?_⟩⟩
  · intro before e after heq
    cases e with
    | unlocked path => exact decide_eq_true (h.own before path after heq)
    | _ => rfl
  · intro before path after heq
    exact of_decide_eq_true (h.2 before _ after heq)

/-- an event that makes and removes no directory -/
def Event.quiet : Event → Bool
  | .locked _ | .unlocked _ => false
  | _ => true

theorem track_quiet {l : List Event} (hl : ∀ e ∈ l, e.quiet = true) (held : Finset Str) : track held l = some held := by
  induction l with
  | nil => rfl
  | cons e l ih =>
    have he := hl e List.mem_cons_self
    have hrest := ih fun e' he' => hl e' (List.mem_cons_of_mem e he')
    cases e with
    | locked path => cases he
    | unlocked path => cases he
    | _ => exact hrest

/-- a directory is made, and what follows leaves it alone -/
theorem track_locked {l : List Event} (hl : ∀ e ∈ l, e.quiet = true) (path : Str) :
    track ∅ (.locked path :: l) = some {path} := track_quiet hl {path}

/-! ## What is raised behind the directory -/

/-- the lock directory object stays, nothing is caught, and no directory is made or removed -/
def Quiet (s s' : Session) : Prop :=
  s'.lockdir = s.lockdir ∧ s'.raised = s.raised ∧ ∃ rest, s'.events = s.events ++ rest ∧ ∀ e ∈ rest, e.quiet = true

theorem Quiet.refl (s : Session) : Quiet s s :=
  ⟨rfl, rfl, [], (List.append_nil _).symm, fun _ h => absurd h List.not_mem_nil⟩

theorem Quiet.trans {s s' s'' : Session} (h : Quiet s s') (h' : Quiet s' s'') : Quiet s s'' := by
  obtain ⟨hdir, hraised, rest, hevents, hrest⟩ := h
  obtain ⟨hdir', hraised', rest', hevents', hrest'⟩ := h'
  refine ⟨hdir'.trans hdir, hraised'.trans hraised, rest ++ rest', by rw [hevents', hevents, List.append_assoc], ?_⟩
  intro e he
  rcases List.mem_append.1 he with he | he
  · exact hrest e he
  · exact hrest' e he

/-- a program is quiet, whatever it ends in -/
abbrev IsQuiet {α : Type} (x : Program α) : Prop := Effects.Runs Quiet (fun s _ s' => Quiet s s') x

theorem IsQuiet.bind {α β : Type} {x : Program α} {f : α → Program β} (hx : IsQuiet x) (hf : ∀ a, IsQuiet (f a)) :
    IsQuiet (x >>= f) := Effects.Runs.bind Quiet.trans Quiet.trans hx hf

theorem IsQuiet.ite {α : Type} {p : Prop} [Decidable p] {x y : Program α} (hx : IsQuiet x) (hy : IsQuiet y) :
    IsQuiet (if p then x else y) := Effects.Runs.ite (fun _ => hx) fun _ => hy

theorem quiet_pure {α : Type} (a : α) : IsQuiet (pure a) := runs_pure Quiet.refl a

theorem quiet_get : IsQuiet (get : Program Session) := runs_get Quiet.refl

theorem quiet_throw {α : Type} (e : Err) : IsQuiet (throw e : Program α) := runs_throw Quiet.refl

theorem quiet_raise (e : Option Err) : IsQuiet (raise e) := by
  cases e with
  | none => exact quiet_pure _
  | some e => exact quiet_throw e

theorem quiet_note {e : Event} (he : e.quiet = true) : IsQuiet (note e) := by
  refine runs_modify fun s => ⟨rfl, rfl, [e], rfl, ?_⟩
  intro e' he'
  rw [List.mem_singleton.1 he']
  exact he

theorem quiet_modify {f : Session → Session} (hdir : ∀ s, (f s).lockdir = s.lockdir)
    (hraised : ∀ s, (f s).raised = s.raised) (hevents : ∀ s, (f s).events = s.events) :
    IsQuiet (modify f : Program PUnit) :=
  runs_modify fun s => ⟨hdir s, hraised s, [], by rw [hevents, List.append_nil], fun _ h => absurd h List.not_mem_nil⟩

theorem quiet_adduser (cfg : Config) (t : Turn) : IsQuiet (adduser cfg t) := by
  refine quiet_get.bind fun s => IsQuiet.bind ?_ fun _ => IsQuiet.bind ?_ fun _ => IsQuiet.bind ?_ fun _ =>
    IsQuiet.bind ?_ fun _ => ?_
  · exact quiet_modify (fun _ => rfl) (fun _ => rfl) fun _ => rfl
  · exact (quiet_pure _).ite ((quiet_pure _).ite (quiet_throw _))
  · exact quiet_note rfl
  · exact quiet_note rfl
  · exact (quiet_throw _).ite (quiet_pure _)

theorem quiet_quotas (t : Turn) : IsQuiet (quotas t) := by
  refine quiet_get.bind fun s => IsQuiet.bind ?_ fun _ => IsQuiet.bind ?_ fun _ => IsQuiet.bind ?_ fun _ =>
    IsQuiet.bind ?_ fun _ => ?_
  · exact quiet_modify (fun _ => rfl) (fun _ => rfl) fun _ => rfl
  · exact (quiet_pure _).ite (quiet_throw _)
  · exact quiet_raise _
  · exact quiet_note rfl
  · exact quiet_pure _

theorem quiet_loguser (t : Turn) : IsQuiet (loguser t) := (quiet_raise _).bind fun _ => quiet_note rfl

/-- nothing behind the directory makes or removes one -/
theorem quiet_create_and_send_mail (cfg : Config) (t : Turn) : IsQuiet (create_and_send_mail cfg t) := by
  have hcreate : IsQuiet (create cfg t) :=
    (quiet_adduser cfg t).bind fun _ => (quiet_quotas t).bind fun _ => (quiet_loguser t).bind fun _ => quiet_pure _
  have hmailer : IsQuiet (mailer_send_mail t) := by
    refine quiet_get.bind fun s => (quiet_raise _).bind fun _ => IsQuiet.bind ?_ fun _ => quiet_pure _
    exact quiet_note rfl
  have hmail : IsQuiet (send_mail t) := by
    refine (quiet_raise _).bind fun _ => hmailer.bind fun _ => IsQuiet.ite ?_ ?_
    · exact quiet_note rfl
    · exact quiet_note rfl
  refine IsQuiet.bind ?_ fun _ => hmail.ite (quiet_pure _)
  refine IsQuiet.bind (quiet_note rfl) fun _ => (quiet_raise _).bind fun _ => hcreate.bind fun _ => IsQuiet.ite ?_ ?_
  · exact IsQuiet.bind (quiet_note rfl) fun _ => quiet_pure _
  · exact IsQuiet.bind (quiet_note rfl) fun _ => quiet_pure _

/-- a program ends as an optional error says -/
def ends : Option Err → Except Err Unit
  | none => .ok ()
  | some e => .error e

theorem exec_ends (x : Program Unit) (s : Session) : (exec x s).1 = ends (thrown x s) := by
  rw [thrown]
  cases (exec x s).1 with
  | ok a => rfl
  | error e => rfl

theorem thrown_adduser (cfg : Config) (t : Turn) (s : Session) : thrown (adduser cfg t) s =
    Option.or (if Piped s t then none else some (.die NO_FORK))
      (if WEXITSTATUS t.status = 65 then some (.die USER_EXISTS) else none) := by
  by_cases hpiped : Piped s t
  · obtain ⟨s', hexec, -⟩ := adduser_sent cfg hpiped
    rw [thrown, hexec, if_pos hpiped, Option.none_or]
    split_ifs
    · rfl
    · rfl
  · obtain ⟨huseradd, hfork⟩ : s.useradd = false ∧ t.fork = false := by simpa [Piped] using hpiped
    simp [thrown, adduser, child, pipetoproc, hpiped, huseradd, hfork]

theorem keeps_setquota (cfg : Config) (t : Turn) : Keeps Session.setquota (adduser cfg t) := by
  have hnote : ∀ e, Keeps Session.setquota (note e) := fun _ => keeps_modify fun _ => rfl
  refine keeps_get.bind fun s => Keeps.bind ?_ fun _ => Keeps.bind ?_ fun _ => (hnote _).bind fun _ =>
    (hnote _).bind fun _ => ?_
  · exact keeps_modify fun _ => rfl
  · exact (keeps_pure _).ite ((keeps_pure _).ite (keeps_throw _))
  · exact (keeps_throw _).ite (keeps_pure _)

theorem thrown_quotas (t : Turn) (s : Session) : thrown (quotas t) s =
    Option.or (if s.setquota then none else some (.die STRICT_REFS)) t.quotas := by
  cases hready : s.setquota with
  | false => simp [thrown, quotas, handle, hready]
  | true =>
    cases hquotas : t.quotas with
    | none =>
      simp only [thrown, quotas, handle, hready, hquotas, exec_bind, exec_get, andThen_ok, exec_modify, exec_raise_none,
        exec_note, exec_pure, if_true, Option.or_none]
    | some e => simp [thrown, quotas, handle, hready, hquotas]

theorem thrown_loguser (t : Turn) (s : Session) : thrown (loguser t) s = t.loguser := by
  rw [loguser, thrown_raise_bind, note, thrown_modify, Option.or_none]

theorem thrown_send_mail (t : Turn) (s : Session) : thrown (send_mail t) s = t.emailing.or t.mail := by
  cases hemailing : t.emailing with
  | some e => simp [thrown, send_mail, hemailing]
  | none =>
    cases hmail : t.mail with
    | some e => simp [thrown, send_mail, mailer_send_mail, hemailing, hmail]
    | none => simp [thrown, send_mail, mailer_send_mail, hemailing, hmail]

theorem thrown_create (cfg : Config) (t : Turn) (s : Session) : thrown (create cfg t) s =
    (thrown (adduser cfg t) s).or
      (Option.or (if s.setquota then none else some (.die STRICT_REFS)) (t.quotas.or t.loguser)) := by
  have hlast : ∀ (u : Session), thrown (do loguser t; pure true : Program Bool) u = t.loguser := by
    intro u
    rw [thrown_bind fun _ _ _ => thrown_pure true, thrown_loguser, Option.or_none]
  have hquotas : ∀ u : Session, u.setquota = s.setquota →
      thrown (do let _ ← quotas t; loguser t; pure true : Program Bool) u =
        Option.or (if s.setquota then none else some (.die STRICT_REFS)) (t.quotas.or t.loguser) := by
    intro u hu
    rw [thrown_bind fun _ u' _ => hlast u', thrown_quotas, hu, Option.or_assoc]
  refine thrown_bind fun _ u hu => hquotas u ?_
  have hkeeps := keeps_setquota cfg t s
  rw [hu] at hkeeps
  exact hkeeps

/-- an account is never reported as not created -/
theorem ensures_create_account (cfg : Config) (t : Turn) (s : Session) :
    Ensures (fun _ => True) (create_account cfg t) s fun ok _ => ok = true := by
  have hcreate : ∀ u, Ensures (fun _ => True) (create cfg t) u fun ok _ => ok = true := by
    intro u
    refine ((quiet_adduser cfg t).ensures u).bind fun _ u' _ => ((quiet_quotas t).ensures u').bind fun _ u'' _ => ?_
    exact ((quiet_loguser t).ensures u'').bind fun _ _ _ => ensures_pure rfl
  apply ensures_modify_bind
  refine ((quiet_raise t.creating).ensures _).bind fun _ u _ => (hcreate u).bind fun ok u' hok => ?_
  subst hok
  exact ensures_modify_bind (ensures_pure rfl)

theorem thrown_create_account (cfg : Config) (t : Turn) (s : Session) :
    thrown (create_account cfg t) s =
      t.creating.or (thrown (create cfg t) { s with events := s.events ++ [.creating] }) := by
  have hlast : ∀ (ok : Bool) (u : Session), thrown (if !ok then do note .creation_failure; pure false
      else do note .creation_success; pure true : Program Bool) u = none := by
    intro ok u
    cases ok with
    | false => rfl
    | true => rfl
  have hnote : thrown (create_account cfg t) s = thrown (do
      raise t.creating
      if !(← create cfg t) then
        note .creation_failure
        pure false
      else
        note .creation_success
        pure true) { s with events := s.events ++ [.creating] } := rfl
  rw [hnote, thrown_raise_bind, thrown_bind fun ok u _ => hlast ok u, Option.or_none]

/-- **What the account steps raise**: the first error there is -/
theorem thrown_create_and_send_mail (cfg : Config) (t : Turn) (s : Session) :
    thrown (create_and_send_mail cfg t) s = accountError s t := by
  have hmail : ∀ (ok : Bool) (u : Session), exec (create_account cfg t) s = (.ok ok, u) →
      thrown (if ok then send_mail t else pure () : Program Unit) u = t.emailing.or t.mail := by
    intro ok u hexec
    have hok := ensures_create_account cfg t s
    rw [Ensures, hexec] at hok
    rw [if_pos hok, thrown_send_mail]
  have hpiped : ∀ events, Piped { s with events := events } t ↔ Piped s t := fun _ => Iff.rfl
  rw [create_and_send_mail, thrown_bind hmail, thrown_create_account, thrown_create, thrown_adduser, accountError]
  simp only [hpiped, Option.or_assoc]

/-! ## A turn -/

/-- the path of the lock directory of a turn -/
def pathOf (cfg : Config) (s : Session) (t : Turn) : Str := lockpath cfg ((chosen s t).value "login")

theorem body_confirm (cfg : Config) {s : Session} {t : Turn} {e : Err}
    (h : (confirm_or_exit t.inputs s.user).1 = some e) :
    exec (body cfg t) s = (.error e, { s with user := chosen s t }) := by
  simp [body, confirm, h, chosen]

theorem body_mkdir (cfg : Config) {s : Session} {t : Turn} {error : Str}
    (h : (confirm_or_exit t.inputs s.user).1 = none) (hmkdir : t.mkdir = some error) :
    exec (body cfg t) s = (.error (.die (CANT_LOCK ++ error ++ ['\n'])),
      { s with user := chosen s t, lockdir := some ((chosen s t).value "login") }) := by
  simp [body, confirm, lock, h, hmkdir, chosen]

/-- a turn that makes its directory -/
theorem body_locked (cfg : Config) {s : Session} {t : Turn} (h : (confirm_or_exit t.inputs s.user).1 = none)
    (hmkdir : t.mkdir = none) : ∃ u rest, exec (body cfg t) s = (ends (behind cfg s t), u) ∧
      u.lockdir = some ((chosen s t).value "login") ∧ u.raised = s.raised ∧
      u.events = s.events ++ .locked (pathOf cfg s t) :: rest ∧ ∀ e ∈ rest, e.quiet = true := by
  rw [behind]
  cases hplan : t.plan with
  | some error =>
    have hexec : exec (body cfg t) s = (.error (.die (CANT_OPEN ++ lockpath cfg ((chosen s t).value "login") ++
        "/.plan: ".toList ++ error)), prepared cfg s t) := by
      simp [body, confirm, lock, create_plan, h, hmkdir, hplan, chosen, prepared]
    exact ⟨prepared cfg s t, [], hexec, rfl, rfl, rfl, fun _ hmem => absurd hmem List.not_mem_nil⟩
  | none =>
    have hquiet := quiet_create_and_send_mail cfg t (prepared cfg s t)
    have hraised := exec_ends (create_and_send_mail cfg t) (prepared cfg s t)
    rw [thrown_create_and_send_mail] at hraised
    rw [← body_reached ⟨h, hmkdir, hplan⟩] at hquiet hraised
    have hfinal : Quiet (prepared cfg s t) (exec (body cfg t) s).2 := by
      rcases hexec : exec (body cfg t) s with ⟨r, u⟩
      rw [hexec] at hquiet
      cases r with
      | ok a => exact hquiet
      | error e => exact hquiet
    obtain ⟨hdir, hkept, rest, hevents, hrest⟩ := hfinal
    refine ⟨(exec (body cfg t) s).2, rest, Prod.ext hraised rfl, hdir, hkept, ?_, hrest⟩
    rw [hevents]
    simp [prepared, pathOf]

/-- what `unlock` does after an error that is caught -/
theorem unlock_some (cfg : Config) (t : Turn) (e : Err) {s : Session} {basename : Str}
    (h : s.lockdir = some basename) : (unlock cfg t e s).events = s.events ++ [.unlocked (lockpath cfg basename)] ∧
      (unlock cfg t e s).raised = s.raised := by
  rw [unlock, h]
  dsimp only
  split_ifs
  · exact ⟨rfl, rfl⟩
  · exact ⟨rfl, rfl⟩

theorem retries_cant_lock (error : Str) : retries (.die (CANT_LOCK ++ error ++ ['\n'])) = true := rfl

/-- the events of a turn that an error ends: it is caught and there is a directory object or not, or it is not caught -/
theorem step_error {cfg : Config} (cleaning : Option Err) {s s' u : Session} {t : Turn} {e : Err}
    (h : step cfg s t = some s') (hexec : exec (body cfg t) { s with events := [], raised := none } = (.error e, u)) :
    (retries e = true → ∀ basename, u.lockdir = some basename →
        eventsOf cfg cleaning s' = u.events ++ [.unlocked (lockpath cfg basename)]) ∧
      (retries e = true → u.lockdir = none → eventsOf cfg cleaning s' = u.events ∧ s'.ended = true) ∧
      (retries e = false → eventsOf cfg cleaning s' = u.events ∧ s'.ended = true) := by
  rw [step] at h
  split_ifs at h
  rw [hexec] at h
  dsimp only at h
  refine ⟨fun hretry basename hdir => ?_, fun hretry hdir => ?_, fun hretry => ?_⟩
  · rw [if_pos hretry] at h
    cases h
    obtain ⟨hevents, hraised⟩ := unlock_some cfg t e (s := { u with raised := some e }) hdir
    rw [eventsOf, hevents, hraised]
    simp
  · rw [if_pos hretry] at h
    cases h
    simp [eventsOf, unlock, hdir]
  · rw [if_neg (by rw [hretry]; exact Bool.false_ne_true)] at h
    cases h
    simp [eventsOf]

/-- the events of a turn that goes through, and of what `main` does behind it -/
theorem step_ok {cfg : Config} (cleaning : Option Err) {s s' u : Session} {t : Turn} (h : step cfg s t = some s')
    (hexec : exec (body cfg t) { s with events := [], raised := none } = (.ok (), u)) (hraised : u.raised = none) :
    eventsOf cfg cleaning s' = u.events ++ cleanup cfg cleaning u ∧ s'.ended = true := by
  rw [step] at h
  split_ifs at h
  rw [hexec] at h
  cases h
  simp [eventsOf, hraised, cleanup]

/-- **What a turn does to the directories held**, where none is held before it: if it is good, none is held after it; if
it is not, something is removed that is not held, or the loop ends with something held. -/
theorem step_track {cfg : Config} (cleaning : Option Err) {s s' : Session} {t : Turn} (h : step cfg s t = some s') :
    (Good cfg cleaning s t ∧ track ∅ (eventsOf cfg cleaning s') = some ∅) ∨
      (¬Good cfg cleaning s t ∧ (track ∅ (eventsOf cfg cleaning s') = none ∨
        s'.ended = true ∧ track ∅ (eventsOf cfg cleaning s') ≠ some ∅)) := by
  cases hconfirm : (confirm_or_exit t.inputs s.user).1 with
  | some e =>
    -- nothing has been made in this turn
    have hgood : Good cfg cleaning s t ↔ (retries e = true → s.lockdir = none) := by simp [Good, hconfirm]
    obtain ⟨hsome, hnone, hnot⟩ := step_error cleaning h
      (body_confirm cfg (s := { s with events := [], raised := none }) hconfirm)
    rw [hgood]
    cases hretry : retries e with
    | false =>
      refine Or.inl ⟨fun hr => absurd hr (by decide), ?_⟩
      rw [(hnot hretry).1]
      rfl
    | true =>
      cases hdir : s.lockdir with
      | none =>
        refine Or.inl ⟨fun _ => rfl, ?_⟩
        rw [(hnone hretry hdir).1]
        rfl
      | some basename =>
        refine Or.inr ⟨by simp, Or.inl ?_⟩
        rw [hsome hretry basename hdir]
        rfl
  | none =>
    cases hmkdir : t.mkdir with
    | some error =>
      have hgood : ¬Good cfg cleaning s t := by simp [Good, hconfirm, hmkdir]
      obtain ⟨hsome, -, -⟩ := step_error cleaning h
        (body_mkdir cfg (s := { s with events := [], raised := none }) hconfirm hmkdir)
      refine Or.inr ⟨hgood, Or.inl ?_⟩
      rw [hsome (retries_cant_lock error) _ rfl]
      rfl
    | none =>
      obtain ⟨u, rest, hexec, hdir, hraised, hevents, hrest⟩ :=
        body_locked cfg (s := { s with events := [], raised := none }) (t := t) hconfirm hmkdir
      rw [List.nil_append] at hevents
      have hheld : track ∅ u.events = some {pathOf cfg s t} := by
        rw [hevents]
        exact track_locked hrest (pathOf cfg s t)
      have hleft : (some {pathOf cfg s t} : Option (Finset Str)) ≠ some ∅ := by simp
      have hremoved : track ∅ (u.events ++ [.unlocked (pathOf cfg s t)]) = some ∅ := by
        rw [track_append, hheld]
        simp [track, Event.own, Event.next]
      have hbehind : behind cfg { s with events := [], raised := none } t = behind cfg s t := rfl
      rw [hbehind] at hexec
      cases hwhat : behind cfg s t with
      | some e =>
        have hgood : Good cfg cleaning s t ↔ retries e = true := by simp [Good, hconfirm, hmkdir, hwhat]
        rw [hwhat] at hexec
        obtain ⟨hsome, -, hnot⟩ := step_error cleaning h hexec
        rw [hgood]
        cases hretry : retries e with
        | false =>
          refine Or.inr ⟨by simp, Or.inr ⟨(hnot hretry).2, ?_⟩⟩
          rw [(hnot hretry).1, hheld]
          exact hleft
        | true =>
          refine Or.inl ⟨rfl, ?_⟩
          rw [hsome hretry _ hdir]
          exact hremoved
      | none =>
        have hgood : Good cfg cleaning s t ↔ cleaning = none := by simp [Good, hconfirm, hmkdir, hwhat]
        rw [hwhat] at hexec
        obtain ⟨hall, hended⟩ := step_ok cleaning h hexec hraised
        rw [hgood, hall]
        cases cleaning with
        | none =>
          simp only [cleanup, hdir]
          exact Or.inl ⟨trivial, hremoved⟩
        | some e =>
          refine Or.inr ⟨by simp, Or.inr ⟨hended, ?_⟩⟩
          simp only [cleanup, List.append_nil]
          rw [hheld]
          exact hleft

/-! ## Every run -/

theorem main_nil {cfg : Config} {cleaning : Option Err} {s : Session} {events : List Event}
    (h : main cfg cleaning s [] = some events) : events = [] := by
  rw [main] at h
  split_ifs at h
  exact (Option.some.inj h).symm

/-- after the loop has ended there is no other turn -/
theorem main_ended {cfg : Config} {cleaning : Option Err} {s : Session} {turns : List Turn} {events : List Event}
    (hended : s.ended = true) (h : main cfg cleaning s turns = some events) : turns = [] ∧ events = [] := by
  cases turns with
  | nil => exact ⟨rfl, main_nil h⟩
  | cons t turns =>
    rw [main, step, if_pos hended] at h
    cases h

/-- **When `main` leaves no lock directory behind and removes no other.** For every dialogue and whatever is raised in
its turns and behind the loop: exactly when all turns are good. -/
theorem released_iff (cfg : Config) (user : User) (plain hashed : Str) (turns : List Turn) (cleaning : Option Err)
    (events : List Event) (h : main cfg cleaning (generated cfg user plain hashed) turns = some events) :
    Released events ↔ Along (step cfg) (Good cfg cleaning) (generated cfg user plain hashed) turns := by
  rw [released_iff_track]
  generalize generated cfg user plain hashed = s at h
  induction turns generalizing s events with
  | nil =>
    rw [main_nil h]
    exact iff_of_true rfl trivial
  | cons t turns ih =>
    rw [main] at h
    obtain ⟨s', hstep, hmap⟩ := Option.bind_eq_some_iff.1 h
    obtain ⟨rest, hrest, rfl⟩ := Option.map_eq_some_iff.1 hmap
    have halong : Along (step cfg) (Good cfg cleaning) s (t :: turns) ↔
        Good cfg cleaning s t ∧ Along (step cfg) (Good cfg cleaning) s' turns := by
      refine ⟨fun ha => ha s' hstep, fun ha s'' hstep' => ?_⟩
      rw [hstep] at hstep'
      cases hstep'
      exact ha
    rw [halong, track_append]
    rcases step_track cleaning hstep with ⟨hgood, htrack⟩ | ⟨hbad, htrack⟩
    · rw [htrack, Option.bind_some, ih rest s' hrest]
      exact (and_iff_right hgood).symm
    · refine iff_of_false ?_ fun ha => hbad ha.1
      rcases htrack with htrack | ⟨hended, htrack⟩
      · rw [htrack, Option.bind_none]
        exact fun hsome => by cases hsome
      · obtain ⟨-, rfl⟩ := main_ended hended hrest
        intro hsome
        obtain ⟨held, hheld, hlast⟩ := Option.bind_eq_some_iff.1 hsome
        cases hlast
        exact htrack hheld

/-- a turn in which ann is done at once and nothing fails -/
def plainTurn : Turn :=
  ⟨[⟨false, "done".toList, [], false, none⟩], none, none, none, true, 0, none, 0, none, none, none, none⟩

def ann : User := fun key => if key = "login".toList then some "ann".toList else none

def locks : Config := ⟨"/lock".toList, id⟩

/-- an account is made, and its lock directory is gone -/
theorem ann_released : ∃ events, main locks none (generated locks ann [] []) [plainTurn] = some events ∧
    Released events := by
  refine ⟨_, rfl, (released_iff locks ann [] [] [plainTurn] none _ rfl).2 fun s' _ => ⟨?_, trivial⟩⟩
  exact ⟨rfl, rfl⟩

/-- **A directory of another session, and one of this session.** When the `mkdir` fails because another session has
locked the login, that directory is removed; when the plan cannot be opened, the directory made is left behind. -/
theorem not_released :
    (∃ events, main locks none (generated locks ann [] []) [{ plainTurn with mkdir := some "File exists".toList },
        plainTurn] = some events ∧ ¬Released events) ∧
      ∃ events, main locks none (generated locks ann [] []) [{ plainTurn with plan := some "Is a directory".toList }] =
        some events ∧ ¬Released events := by
  refine ⟨⟨_, rfl, ?_⟩, ⟨_, rfl, ?_⟩⟩
  · rw [released_iff_track]
    decide
  · rw [released_iff_track]
    decide

end MNetSoft.Pnewuser
