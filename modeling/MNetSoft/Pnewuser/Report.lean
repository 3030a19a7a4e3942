/-
What `pnewuser` says about the creation of an account, turn by turn: the exit status of `nuseradd` passes through
`adduser`, `create` and `create_account`, and a success is reported and mailed.

- `truthful_step`: a turn tells the truth exactly when `nuseradd` has exited with status 0, or something is raised
  behind it.
- `truthful_iff`: so do the turns of a session.
- `killed_reported`: `nuseradd` has been killed, and a success is reported and mailed.
-/
import Mathlib.Tactic
import MNetSoft.Core.Runs
import MNetSoft.Pnewuser.Session

namespace MNetSoft.Pnewuser

open MNetSoft.CString
open MNetSoft.Runs

/-- what is said in the turn just made is true: a success, or the mail, needs a `nuseradd` of this turn that has exited
with status 0; without one, an attempt is reported as a failure, or an error is raised -/
structure Truthful (s : Session) : Prop where
  success : .creation_success ∈ s.events → .exited 0 ∈ s.events
  mail : ∀ m, .mail m ∈ s.events → .exited 0 ∈ s.events
  failure : .creating ∈ s.events → .exited 0 ∉ s.events → .creation_failure ∈ s.events ∨ ∃ e, s.raised = some e

variable {cfg : Config} {s s' : Session} {t : Turn}

theorem exited_mem (h : step cfg s t = some s') (status : ℤ) :
    .exited status ∈ s'.events ↔ Sends s t ∧ status = t.status := by
  rcases step_events h with ⟨hno, -, hearly⟩ | ⟨hsends, -, rest, hevents, hrest, -⟩
  · exact iff_of_false (fun hr => absurd (hearly _ hr) Bool.false_ne_true) fun hr => hno hr.1
  · have hother : .exited status ∉ rest := by
      intro hmem
      rcases hrest _ hmem with hr | hr | ⟨-, hr | hr⟩ <;> cases hr
    rw [hevents]
    simp only [List.mem_cons, reduceCtorEq, Event.exited.injEq, false_or]
    exact ⟨fun hr => ⟨hsends, hr.resolve_right hother⟩, fun hr => .inl hr.2⟩

theorem success_mem (h : step cfg s t = some s') : .creation_success ∈ s'.events ↔ Sends s t ∧ ¬ Stops s t := by
  rcases step_events h with ⟨hno, -, hearly⟩ | ⟨hsends, -, rest, hevents, hrest, hends⟩
  · exact iff_of_false (fun hr => absurd (hearly _ hr) Bool.false_ne_true) fun hr => hno hr.1
  · rw [hevents]
    simp only [List.mem_cons, reduceCtorEq, false_or]
    refine ⟨fun hmem => ⟨hsends, ?_⟩, fun hr => ?_⟩
    · rcases hrest _ hmem with hr | hr | ⟨hgoes, -⟩
      · cases hr
      · cases hr
      · exact hgoes
    · rcases hends with ⟨hstops, -⟩ | ⟨-, hmem⟩
      · exact absurd hstops hr.2
      · exact hmem

theorem mail_mem (h : step cfg s t = some s') {m : Mail} (hm : .mail m ∈ s'.events) : Sends s t ∧ ¬ Stops s t := by
  rcases step_events h with ⟨-, -, hearly⟩ | ⟨hsends, -, rest, hevents, hrest, -⟩
  · exact absurd (hearly _ hm) Bool.false_ne_true
  · rw [hevents] at hm
    simp only [List.mem_cons, reduceCtorEq, false_or] at hm
    refine ⟨hsends, ?_⟩
    rcases hrest _ hm with hr | hr | ⟨hgoes, -⟩
    · cases hr
    · cases hr
    · exact hgoes

/-- **A turn tells the truth exactly** when the `nuseradd` that has read its request has exited with status 0, or the
collision, the quotas or the log raise an exception. -/
theorem truthful_step (h : step cfg s t = some s') : Truthful s' ↔ (Sends s t → t.status = 0 ∨ Stops s t) := by
  refine ⟨fun htrue hsends => ?_, fun htrue => ⟨fun hmem => ?_, fun m hm => ?_, fun _ hno => ?_⟩⟩
  · by_cases hstops : Stops s t
    · exact .inr hstops
    · have hzero := htrue.success ((success_mem h).2 ⟨hsends, hstops⟩)
      exact .inl ((exited_mem h 0).1 hzero).2.symm
  · obtain ⟨hsends, hgoes⟩ := (success_mem h).1 hmem
    exact (exited_mem h 0).2 ⟨hsends, ((htrue hsends).resolve_right hgoes).symm⟩
  · obtain ⟨hsends, hgoes⟩ := mail_mem h hm
    exact (exited_mem h 0).2 ⟨hsends, ((htrue hsends).resolve_right hgoes).symm⟩
  · rcases step_events h with ⟨-, hraised, -⟩ | ⟨hsends, -, rest, -, -, ⟨-, hraised⟩ | ⟨hgoes, -⟩⟩
    · exact .inr hraised
    · exact .inr hraised
    · exact absurd ((exited_mem h 0).2 ⟨hsends, ((htrue hsends).resolve_right hgoes).symm⟩) hno

/-- **A session tells the truth exactly when its turns do**, whatever becomes of the calls, however often it is tried
again. -/
theorem truthful_iff (cfg : Config) (user : User) (plain hashed : Str) (turns : List Turn) :
    Always (step cfg) Truthful (generated cfg user plain hashed) turns ↔
      Along (step cfg) (fun s t => Sends s t → t.status = 0 ∨ Stops s t) (generated cfg user plain hashed) turns := by
  have hstart : Truthful (generated cfg user plain hashed) :=
    ⟨fun h => absurd h List.not_mem_nil, fun m h => absurd h List.not_mem_nil, fun h => absurd h List.not_mem_nil⟩
  exact always_iff_along (fun s t s' _ h => truthful_step h) turns hstart

/-- **A success is reported.** `nuseradd` has been killed by signal 9. -/
theorem killed_reported :
    let cfg : Config := ⟨"/lock".toList, id⟩
    let user : User := fun key => if key = "login".toList then some "ann".toList else none
    let t : Turn := ⟨[⟨false, "done".toList, [], false, none⟩], none, none, none, true, 9, none, 0,
      none, none, none, none⟩
    ¬ Always (step cfg) Truthful (generated cfg user [] []) [t] := by
  intro cfg user t h
  have hturn : Truthful _ := (h.2 _ rfl).head
  exact absurd (hturn.success (by decide)) (by decide)

end MNetSoft.Pnewuser
