/-
Finite runs of a partial step function, and the rules every run argument of this development uses. Nothing here is
about a particular program: `σ` is any type of states, `α` any type of actions, and `step s a = none` means that `a`
is not enabled in `s`.

- `run`: the state a list of actions leads to, if every one of them is enabled when its turn comes.
- `Always P`: `P` holds in every state the run passes through, the first and the last included.
- `Along G`: `G` holds of every step taken, that is of the state before it and the action.
- `always_of_along` (guarded invariant rule): an invariant kept by the steps that meet `G` holds throughout every run
  whose steps all meet `G`.
- `always_iff_along` (exact condition rule): where `G` decides whether a step keeps `P`, a run keeps `P` throughout
  if and only if all its steps meet `G`.
- `along_congr`: two step conditions that agree under an invariant hold along the same runs.
-/
import Mathlib.Tactic

namespace MNetSoft.Runs

variable {σ α : Type*} (step : σ → α → Option σ)

/-! ## Runs -/

/-- run the actions in order; `none` as soon as one of them is not enabled -/
def run (s : σ) : List α → Option σ
  | [] => some s
  | a :: as => (step s a).bind fun t => run t as

/-- `P` holds in every state the run passes through -/
def Always (P : σ → Prop) (s : σ) : List α → Prop
  | [] => P s
  | a :: as => P s ∧ ∀ t, step s a = some t → Always P t as

/-- `G` holds of every step the run takes -/
def Along (G : σ → α → Prop) (s : σ) : List α → Prop
  | [] => True
  | a :: as => ∀ t, step s a = some t → G s a ∧ Along G t as

/-- a computable step condition can be tested along a run -/
instance decidableAlong (G : σ → α → Prop) [∀ s a, Decidable (G s a)] :
    (s : σ) → (as : List α) → Decidable (Along step G s as)
  | _, [] => isTrue trivial
  | s, a :: as =>
    match h : step s a with
    | none => isTrue fun t ht => by rw [h] at ht; cases ht
    | some t =>
      have := decidableAlong G t as
      decidable_of_iff (G s a ∧ Along step G t as)
        ⟨fun hG u hu => by rw [h] at hu; cases hu; exact hG, fun hG => hG t h⟩

/-- so can a computable state property -/
instance decidableAlways (P : σ → Prop) [DecidablePred P] :
    (s : σ) → (as : List α) → Decidable (Always step P s as)
  | s, [] => inferInstanceAs (Decidable (P s))
  | s, a :: as =>
    match h : step s a with
    | none => decidable_of_iff (P s) ⟨fun hP => ⟨hP, fun t ht => by rw [h] at ht; cases ht⟩, fun hP => hP.1⟩
    | some t =>
      have := decidableAlways P t as
      decidable_of_iff (P s ∧ Always step P t as)
        ⟨fun hP => ⟨hP.1, fun u hu => by rw [h] at hu; cases hu; exact hP.2⟩, fun hP => ⟨hP.1, hP.2 t h⟩⟩

@[simp] theorem run_nil (s : σ) : run step s [] = some s := rfl

theorem run_cons (s : σ) (a : α) (as : List α) : run step s (a :: as) = (step s a).bind fun t => run step t as := rfl

theorem run_append (s : σ) (as bs : List α) :
    run step s (as ++ bs) = (run step s as).bind fun t => run step t bs := by
  induction as generalizing s with
  | nil => rfl
  | cons a as ih =>
    simp only [List.cons_append, run_cons]
    cases step s a with
    | none => rfl
    | some t => exact ih t

/-- some number of steps by the action `a` leads from `s` to `t` -/
def Repeats (a : α) (s t : σ) : Prop := ∃ n, run step s (List.replicate n a) = some t

variable {step}

theorem Repeats.refl (a : α) (s : σ) : Repeats step a s s := ⟨0, rfl⟩

/-- one step more in front -/
theorem Repeats.head {a : α} {s t u : σ} (h : step s a = some t) (ht : Repeats step a t u) :
    Repeats step a s u := by
  obtain ⟨n, hn⟩ := ht
  refine ⟨n + 1, ?_⟩
  rw [List.replicate_succ, run_cons, h]
  exact hn

theorem Repeats.trans {a : α} {s t u : σ} (h : Repeats step a s t) (ht : Repeats step a t u) :
    Repeats step a s u := by
  obtain ⟨m, hm⟩ := h
  obtain ⟨n, hn⟩ := ht
  refine ⟨m + n, ?_⟩
  rw [List.replicate_add, run_append, hm]
  exact hn

/-! ## What holds throughout a run -/

theorem Always.head {P : σ → Prop} {s : σ} {as : List α} (h : Always step P s as) : P s := by
  cases as with
  | nil => exact h
  | cons a as => exact h.1

theorem Always.mono {P Q : σ → Prop} (hPQ : ∀ s, P s → Q s) {s : σ} {as : List α} (h : Always step P s as) :
    Always step Q s as := by
  induction as generalizing s with
  | nil => exact hPQ s h
  | cons a as ih => exact ⟨hPQ s h.1, fun t ht => ih (h.2 t ht)⟩

theorem Always.and {P Q : σ → Prop} {s : σ} {as : List α} (hP : Always step P s as) (hQ : Always step Q s as) :
    Always step (fun u => P u ∧ Q u) s as := by
  induction as generalizing s with
  | nil => exact ⟨hP, hQ⟩
  | cons a as ih => exact ⟨⟨hP.1, hQ.1⟩, fun t ht => ih (hP.2 t ht) (hQ.2 t ht)⟩

theorem Always.run {P : σ → Prop} {s t : σ} {as : List α} (h : Always step P s as) (hr : run step s as = some t) :
    P t := by
  induction as generalizing s with
  | nil => cases hr; exact h
  | cons a as ih =>
    rw [run_cons] at hr
    obtain ⟨u, hu, hr⟩ := Option.bind_eq_some_iff.1 hr
    exact ih (h.2 u hu) hr

/-- what holds throughout a run holds in the state any of its prefixes leads to -/
theorem Always.of_prefix {P : σ → Prop} {s t : σ} {as bs : List α} (h : Always step P s (as ++ bs))
    (hr : Runs.run step s as = some t) : P t := by
  induction as generalizing s with
  | nil => cases hr; exact h.head
  | cons a as ih =>
    rw [run_cons] at hr
    obtain ⟨u, hu, hr⟩ := Option.bind_eq_some_iff.1 hr
    exact ih (h.2 u hu) hr

theorem Always.append {P : σ → Prop} {s t : σ} {as bs : List α} (h : Always step P s as)
    (hr : Runs.run step s as = some t) (ht : Always step P t bs) : Always step P s (as ++ bs) := by
  induction as generalizing s with
  | nil => cases hr; exact ht
  | cons a as ih =>
    refine ⟨h.1, fun u hu => ?_⟩
    rw [run_cons, hu] at hr
    exact ih (h.2 u hu) hr

/-- what holds along a run holds of the step any of its prefixes is followed by -/
theorem Along.of_prefix {G : σ → α → Prop} {s t u : σ} {as bs : List α} {a : α} (h : Along step G s (as ++ a :: bs))
    (hr : Runs.run step s as = some t) (ha : step t a = some u) : G t a := by
  induction as generalizing s with
  | nil =>
    cases hr
    exact (h u ha).1
  | cons b as ih =>
    rw [run_cons] at hr
    obtain ⟨v, hv, hr⟩ := Option.bind_eq_some_iff.1 hr
    exact ih (h v hv).2 hr

theorem Along.mono {G H : σ → α → Prop} (hGH : ∀ s a, G s a → H s a) {s : σ} {as : List α}
    (h : Along step G s as) : Along step H s as := by
  induction as generalizing s with
  | nil => trivial
  | cons a as ih => exact fun t ht => ⟨hGH s a (h t ht).1, ih (h t ht).2⟩

/-- a condition on the actions alone -/
theorem along_of_forall_mem {G : α → Prop} (s : σ) {as : List α} (h : ∀ a ∈ as, G a) :
    Along step (fun _ a => G a) s as := by
  induction as generalizing s with
  | nil => trivial
  | cons a as ih => exact fun t _ => ⟨h a List.mem_cons_self, ih t fun b hb => h b (List.mem_cons_of_mem a hb)⟩

theorem along_true (s : σ) (as : List α) : Along step (fun _ _ => True) s as := by
  induction as generalizing s with
  | nil => trivial
  | cons a as ih => exact fun t _ => ⟨trivial, ih t⟩

/-! ## The invariant rules -/

/-- **Guarded invariant rule.** An invariant that every step meeting `G` keeps holds throughout every run whose steps
all meet `G`. -/
theorem always_of_along {I : σ → Prop} {G : σ → α → Prop}
    (hstep : ∀ s a t, I s → G s a → step s a = some t → I t) {s : σ} {as : List α} (h0 : I s)
    (hG : Along step G s as) : Always step I s as := by
  induction as generalizing s with
  | nil => exact h0
  | cons a as ih => exact ⟨h0, fun t ht => ih (hstep s a t h0 (hG t ht).1 ht) (hG t ht).2⟩

/-- an invariant of every step holds throughout every run -/
theorem always_of_step {I : σ → Prop} (hstep : ∀ s a t, I s → step s a = some t → I t) {s : σ} (as : List α)
    (h0 : I s) : Always step I s as :=
  always_of_along (fun s a t hs _ ht => hstep s a t hs ht) h0 (along_true s as)

/-- **Exact condition rule.** If, from a state with `P`, a step keeps `P` exactly when `G` holds of it, then a run that
starts in `P` keeps `P` throughout exactly when all its steps meet `G`. -/
theorem always_iff_along {P : σ → Prop} {G : σ → α → Prop}
    (hstep : ∀ s a t, P s → step s a = some t → (P t ↔ G s a)) {s : σ} (as : List α) (h0 : P s) :
    Always step P s as ↔ Along step G s as := by
  refine ⟨?_, ?_⟩
  · intro h
    induction as generalizing s with
    | nil => trivial
    | cons a as ih =>
      intro t ht
      have hPt : P t := (h.2 t ht).head
      exact ⟨(hstep s a t h0 ht).1 hPt, ih hPt (h.2 t ht)⟩
  · exact always_of_along (fun s a t hs hG ht => (hstep s a t hs ht).2 hG) h0

/-- the exact condition rule in the states of an invariant -/
theorem always_iff_along_of_inv {I P : σ → Prop} {G : σ → α → Prop}
    (hinv : ∀ s a t, I s → step s a = some t → I t)
    (hstep : ∀ s a t, I s → P s → step s a = some t → (P t ↔ G s a)) {s : σ} (as : List α) (hI : I s) (h0 : P s) :
    Always step P s as ↔ Along step G s as := by
  have hboth : Always step (fun u => I u ∧ P u) s as ↔ Along step G s as :=
    always_iff_along (fun u a t hu ht => ⟨fun h => (hstep u a t hu.1 hu.2 ht).1 h.2,
      fun h => ⟨hinv u a t hu.1 ht, (hstep u a t hu.1 hu.2 ht).2 h⟩⟩) as ⟨hI, h0⟩
  exact ⟨fun h => hboth.1 ((always_of_step hinv as hI).and h), fun h => (hboth.2 h).mono fun _ hu => hu.2⟩

/-- two step conditions that agree in the states of an invariant hold along the same runs -/
theorem along_congr {I : σ → Prop} {G H : σ → α → Prop} (hstep : ∀ s a t, I s → step s a = some t → I t)
    (hGH : ∀ s a t, I s → step s a = some t → (G s a ↔ H s a)) {s : σ} (as : List α) (h0 : I s) :
    Along step G s as ↔ Along step H s as := by
  induction as generalizing s with
  | nil => exact Iff.rfl
  | cons a as ih =>
    apply forall_congr'
    intro t
    apply forall_congr'
    intro ht
    exact and_congr (hGH s a t h0 ht) (ih (hstep s a t h0 ht))

end MNetSoft.Runs
