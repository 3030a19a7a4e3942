/-
Programs whose state is the trace of what they have done so far, oldest first. What the world answers is a function of
the trace, so it may depend on everything before. `E` is any type of events, `ε` any type of ways to break off; nothing
here is about a particular program.

- `Adds`: every event a program adds to the trace is of a kind, by the program's parts, also where it breaks off.
- `Adds.trace`: so is every event of a trace that starts empty.
- `Grounded.outcome`: every event has grounds in the trace before it, by the program's parts.
-/
import Mathlib.Tactic
import MNetSoft.Core.Effects

namespace MNetSoft.Traces

open MNetSoft.Effects

variable {E ε α β : Type}

/-- a program that leaves a trace -/
abbrev Tr (ε E : Type) := Eff ε (List E)

def emit (e : E) : Tr ε E PUnit := modify (· ++ [e])

/-- what the world answers, the question being the last event of the trace -/
def answer (f : List E → α) : Tr ε E α := do
  let trace ← get
  return f trace

/-- a call that may not return -/
def returned (gone : ε) (f : List E → Option α) : Tr ε E α := do
  let trace ← get
  match f trace with
  | some a => return a
  | none => throw gone

@[simp] theorem exec_emit (e : E) (s : List E) : exec (emit e : Tr ε E PUnit) s = (.ok ⟨⟩, s ++ [e]) := rfl

@[simp] theorem exec_answer (f : List E → α) (s : List E) : exec (answer f : Tr ε E α) s = (.ok (f s), s) := rfl

theorem exec_returned (gone : ε) (f : List E → Option α) (s : List E) :
    exec (returned gone f) s = ((f s).elim (.error gone) .ok, s) := by
  rw [returned, exec_bind, exec_get, andThen_ok]
  cases f s with
  | none => rfl
  | some a => rfl

theorem ensures_emit {F : ε → Prop} {e : E} {s : List E} {Q : PUnit → List E → Prop} (h : Q ⟨⟩ (s ++ [e])) :
    Ensures F (emit e : Tr ε E PUnit) s Q := ensures_modify h

theorem ensures_answer {F : ε → Prop} {f : List E → α} {s : List E} {Q : α → List E → Prop} (h : Q (f s) s) :
    Ensures F (answer f : Tr ε E α) s Q := h

theorem outcome_answer {F : ε → List E → Prop} {f : List E → α} {s : List E} {Q : α → List E → Prop} (h : Q (f s) s) :
    Outcome F (answer f : Tr ε E α) s Q := h

theorem outcome_throw {F : ε → List E → Prop} {e : ε} {s : List E} {Q : α → List E → Prop} (h : F e s) :
    Outcome F (throw e : Tr ε E α) s Q := h

/-- the second trace goes on from the first with events of a kind -/
def Extends (P : E → Prop) (s t : List E) : Prop := ∃ new, t = s ++ new ∧ ∀ e ∈ new, P e

variable {P Q : E → Prop}

theorem Extends.refl (s : List E) : Extends P s s := ⟨[], (List.append_nil s).symm, List.forall_mem_nil _⟩

theorem Extends.trans {s t u : List E} (hst : Extends P s t) (htu : Extends P t u) : Extends P s u := by
  obtain ⟨new, rfl, hnew⟩ := hst
  obtain ⟨new', rfl, hnew'⟩ := htu
  exact ⟨new ++ new', List.append_assoc s new new', List.forall_mem_append.2 ⟨hnew, hnew'⟩⟩

theorem Extends.single {e : E} (h : P e) (s : List E) : Extends P s (s ++ [e]) :=
  ⟨[e], rfl, List.forall_mem_singleton.2 h⟩

/-- every event the program adds to the trace is of a kind -/
def Adds (P : E → Prop) (x : Tr ε E α) : Prop := Runs (Extends P) (fun s _ t => Extends P s t) x

theorem adds_pure (a : α) : Adds P (pure a : Tr ε E α) := runs_pure Extends.refl a

theorem adds_throw (e : ε) : Adds P (throw e : Tr ε E α) := runs_throw Extends.refl

theorem adds_emit {e : E} (h : P e) : Adds P (emit e : Tr ε E PUnit) :=
  runs_modify fun _ => ⟨[e], rfl, List.forall_mem_singleton.2 h⟩

theorem adds_answer (f : List E → α) : Adds P (answer f : Tr ε E α) := fun s => Extends.refl s

theorem adds_returned (gone : ε) (f : List E → Option α) : Adds P (returned gone f) := by
  intro s
  rw [exec_returned]
  cases f s with
  | none => exact Extends.refl s
  | some a => exact Extends.refl s

theorem Adds.bind {x : Tr ε E α} {f : α → Tr ε E β} (hx : Adds P x) (hf : ∀ a, Adds P (f a)) : Adds P (x >>= f) :=
  Runs.bind Extends.trans Extends.trans hx hf

theorem Adds.ite {p : Prop} [Decidable p] {x y : Tr ε E α} (hx : p → Adds P x) (hy : ¬p → Adds P y) :
    Adds P (if p then x else y) := Runs.ite hx hy

/-- a program adds to a trace whatever it comes to -/
theorem Adds.extends {x : Tr ε E α} (h : Adds P x) (s : List E) : Extends P s (exec x s).2 := by
  have hs := h s
  rcases hx : exec x s with ⟨r, t⟩
  rw [hx] at hs
  cases r with
  | ok a => exact hs
  | error e => exact hs

/-- what is added to a trace that has gone on -/
theorem Adds.outcome {x : Tr ε E α} (h : Adds P x) {s t : List E} (hst : Extends P s t) :
    Outcome (fun _ u => Extends P s u) x t fun _ u => Extends P s u :=
  (Runs.outcome h fun _ _ hu => hst.trans hu).post fun _ _ hu => hst.trans hu

/-- The second trace goes on from the first, and of every event in between something is true with what was before it. -/
def Accords (P : List E → E → Prop) (s t : List E) : Prop :=
  s <+: t ∧ ∀ before e, s <+: before → before ++ [e] <+: t → P before e

section Accords

variable {P : List E → E → Prop} {s t u : List E}

theorem Accords.refl (P : List E → E → Prop) (s : List E) : Accords P s s := by
  refine ⟨List.prefix_refl s, fun before e hs hle => ?_⟩
  have hlen := hs.length_le.trans (List.prefix_append before [e]).length_le
  have hlt := hle.length_le
  rw [List.length_append, List.length_singleton] at hlt
  have hbefore := hs.length_le
  omega

theorem Accords.trans (hst : Accords P s t) (htu : Accords P t u) : Accords P s u := by
  refine ⟨hst.1.trans htu.1, fun before e hs hle => ?_⟩
  rcases Nat.lt_or_ge before.length t.length with hlt | hge
  · refine hst.2 before e hs (List.prefix_of_prefix_length_le hle htu.1 ?_)
    rw [List.length_append, List.length_singleton]
    exact hlt
  · exact htu.2 before e (List.prefix_of_prefix_length_le htu.1 ((List.prefix_append before [e]).trans hle) hge) hle

theorem accords_emit {e : E} (h : P s e) : Accords P s (s ++ [e]) := by
  refine ⟨List.prefix_append s [e], fun before e' hs hle => ?_⟩
  have hlen := hle.length_le
  have hbefore := hs.length_le
  rw [List.length_append, List.length_append, List.length_singleton, List.length_singleton] at hlen
  have heq : before ++ [e'] = s ++ [e] := hle.eq_of_length (by simp; omega)
  obtain ⟨rfl, hee⟩ := List.append_inj heq (by omega)
  rwa [(List.cons.inj hee).1]

/-- events of a kind that is always allowed among such events -/
theorem Extends.accords {Q : E → Prop} (hP : ∀ new e, (∀ x ∈ new, Q x) → Q e → P (s ++ new) e) (h : Extends Q s t) :
    Accords P s t := by
  obtain ⟨new, rfl, hnew⟩ := h
  refine ⟨List.prefix_append s new, fun before e hs hle => ?_⟩
  obtain ⟨old, rfl⟩ := hs
  rw [List.append_assoc, List.prefix_append_right_inj] at hle
  exact hP old e (fun x hx => hnew x (hle.subset (List.mem_append_left _ hx)))
    (hnew e (hle.subset (List.mem_append_right old List.mem_cons_self)))

end Accords

/-- Every event of the trace had grounds in what was before it. -/
def Grounded (P : List E → E → Prop) (t : List E) : Prop := ∀ before e, before ++ [e] <+: t → P before e

section Grounded

variable {P : List E → E → Prop} {s t : List E}

theorem grounded_iff : Grounded P t ↔ Accords P [] t :=
  ⟨fun h => ⟨List.nil_prefix, fun before e _ => h before e⟩, fun h before e => h.2 before e List.nil_prefix⟩

/-- a run that starts with an empty trace -/
theorem grounded_exec {x : Tr ε E α} (h : Outcome (fun _ t => Accords P [] t) x [] fun _ t => Accords P [] t) :
    Grounded P (exec x []).2 := by
  unfold Outcome at h
  rcases hx : exec x [] with ⟨r, t⟩
  rw [hx] at h
  cases r with
  | ok a => exact grounded_iff.2 h
  | error e => exact grounded_iff.2 h

theorem grounded_nil : Grounded P [] := grounded_iff.2 (Accords.refl P [])

theorem Grounded.snoc {e : E} (h : Grounded P s) (he : P s e) : Grounded P (s ++ [e]) :=
  grounded_iff.2 ((grounded_iff.1 h).trans (accords_emit he))

/-- grounds do not go away -/
theorem Grounded.extends (hP : ∀ {s t e}, s <+: t → P s e → P t e) (hs : Grounded P s) (h : Extends (P s) s t) :
    Grounded P t := by
  have hnew : Accords P s t := h.accords fun new e _ he => hP (List.prefix_append s new) he
  exact grounded_iff.2 ((grounded_iff.1 hs).trans hnew)

/-- a program whose events have grounds in what was before it -/
theorem Grounded.outcome (hP : ∀ {s t e}, s <+: t → P s e → P t e) (hs : Grounded P s) {x : Tr ε E α}
    (hx : Adds (P s) x) : Outcome (fun _ t => Grounded P t) x s fun _ t => s <+: t ∧ Grounded P t := by
  have hrun : Outcome (fun _ t => Grounded P t) x s fun _ t => Extends (P s) s t :=
    Runs.outcome hx fun _ _ h => hs.extends hP h
  refine hrun.post fun _ t h => ⟨?_, hs.extends hP h⟩
  obtain ⟨new, rfl, -⟩ := h
  exact List.prefix_append s new

end Grounded

/-- **The whole trace of a run.** -/
theorem Adds.trace {x : Tr ε E α} (h : Adds P x) : ∀ e ∈ (exec x []).2, P e := by
  obtain ⟨new, hnew, hP⟩ := h.extends []
  rw [hnew, List.nil_append]
  exact hP

end MNetSoft.Traces
