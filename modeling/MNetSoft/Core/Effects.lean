/-
Programs with a state that can raise an exception. `ε` is any type of exceptions, `σ` any type of states; nothing here
is about a particular program. What a program has done to the state before it raises stays done.

- `exec`: what a program returns or raises, and the state it leaves.
- `exec_bind`: a program goes on from where its first part has left the state, unless that has raised an exception.
- `Keeps`: what a program leaves alone, by the program's parts.
- `Runs`: how the states before and after a program are related, where it returns and where it raises an exception, by
  the program's parts.
- `Ensures`: what a program returns and the state it leaves, and the exceptions it raises, by the program's parts.
- `Outcome`: the same with the state in which an exception is raised.
- `thrown`: the exception that a program raises, by the program's parts.
-/
import Mathlib.Tactic

namespace MNetSoft.Effects

variable {ε σ α β : Type}

/-- a program -/
abbrev Eff (ε σ : Type) := ExceptT ε (StateM σ)

/-- run a program: its result and the state it leaves -/
def exec (x : Eff ε σ α) (s : σ) : Except ε α × σ := StateT.run (ExceptT.run x) s

/-- go on from a result and the state with it, unless the result is an exception -/
def andThen (r : Except ε α × σ) (f : α → σ → Except ε β × σ) : Except ε β × σ :=
  match r with
  | (.ok a, s) => f a s
  | (.error e, s) => (.error e, s)

@[simp] theorem andThen_ok (a : α) (s : σ) (f : α → σ → Except ε β × σ) : andThen (.ok a, s) f = f a s := rfl

@[simp] theorem andThen_error (e : ε) (s : σ) (f : α → σ → Except ε β × σ) :
    andThen (.error e, s) f = (.error e, s) := rfl

@[simp] theorem exec_pure (a : α) (s : σ) : exec (pure a : Eff ε σ α) s = (.ok a, s) := rfl

@[simp] theorem exec_throw (e : ε) (s : σ) : exec (throw e : Eff ε σ α) s = (.error e, s) := rfl

@[simp] theorem exec_get (s : σ) : exec (get : Eff ε σ σ) s = (.ok s, s) := rfl

@[simp] theorem exec_modify (f : σ → σ) (s : σ) : exec (modify f : Eff ε σ PUnit) s = (.ok ⟨⟩, f s) := rfl

@[simp] theorem exec_bind (x : Eff ε σ α) (f : α → Eff ε σ β) (s : σ) :
    exec (x >>= f) s = andThen (exec x s) fun a t => exec (f a) t := by
  have hrun : exec (x >>= f) s = match StateT.run (ExceptT.run x) s with
      | (r, t) => exec (ExceptT.mk (ExceptT.bindCont f r)) t := rfl
  rw [hrun, exec]
  rcases StateT.run (ExceptT.run x) s with ⟨r, t⟩
  cases r with
  | ok a => rfl
  | error e => rfl

@[simp] theorem exec_ite (p : Prop) [Decidable p] (x y : Eff ε σ α) (s : σ) :
    exec (if p then x else y) s = if p then exec x s else exec y s := by
  split_ifs
  · rfl
  · rfl

/-- raise what there is to raise -/
def raise : Option ε → Eff ε σ PUnit
  | none => pure ⟨⟩
  | some e => throw e

@[simp] theorem exec_raise_none (s : σ) : exec (raise (none : Option ε)) s = (.ok ⟨⟩, s) := rfl

@[simp] theorem exec_raise_some (e : ε) (s : σ) : exec (raise (some e)) s = (.error e, s) := rfl

/-! ## What a program leaves alone -/

/-- the part `f` of the state is the same at either end of the program -/
def Keeps {γ : Type} (f : σ → γ) (x : Eff ε σ α) : Prop := ∀ s, f (exec x s).2 = f s

section Keeps

variable {γ : Type} {f : σ → γ}

theorem keeps_pure (a : α) : Keeps f (pure a : Eff ε σ α) := fun _ => rfl

theorem keeps_throw (e : ε) : Keeps f (throw e : Eff ε σ α) := fun _ => rfl

theorem keeps_get : Keeps f (get : Eff ε σ σ) := fun _ => rfl

theorem keeps_modify {g : σ → σ} (h : ∀ s, f (g s) = f s) : Keeps f (modify g : Eff ε σ PUnit) := fun s => h s

theorem keeps_raise (e : Option ε) : Keeps f (raise e : Eff ε σ PUnit) := by
  cases e with
  | none => exact keeps_pure _
  | some e => exact keeps_throw e

theorem Keeps.ite {p : Prop} [Decidable p] {x y : Eff ε σ α} (hx : Keeps f x) (hy : Keeps f y) :
    Keeps f (if p then x else y) := by
  split_ifs
  · exact hx
  · exact hy

theorem Keeps.bind {x : Eff ε σ α} {g : α → Eff ε σ β} (hx : Keeps f x) (hg : ∀ a, Keeps f (g a)) :
    Keeps f (x >>= g) := by
  intro s
  rw [exec_bind]
  have hs := hx s
  rcases h : exec x s with ⟨r, t⟩
  rw [h] at hs
  cases r with
  | ok a => exact (hg a t).trans hs
  | error e => exact hs

end Keeps

/-! ## What a program does to the state -/

/-- the program returns in a state that is related to the first by `R`, or raises an exception in one that `E` allows -/
def Runs (R : σ → σ → Prop) (E : σ → ε → σ → Prop) (x : Eff ε σ α) : Prop :=
  ∀ s, match exec x s with
    | (.ok _, t) => R s t
    | (.error e, t) => E s e t

section Runs

variable {R R' : σ → σ → Prop} {E E' : σ → ε → σ → Prop}

theorem runs_pure (hR : ∀ s, R s s) (a : α) : Runs R E (pure a : Eff ε σ α) := hR

theorem runs_get (hR : ∀ s, R s s) : Runs R E (get : Eff ε σ σ) := hR

theorem runs_throw {e : ε} (hE : ∀ s, E s e s) : Runs R E (throw e : Eff ε σ α) := hE

theorem runs_modify {g : σ → σ} (h : ∀ s, R s (g s)) : Runs R E (modify g : Eff ε σ PUnit) := h

theorem Runs.ite {p : Prop} [Decidable p] {x y : Eff ε σ α} (hx : p → Runs R E x) (hy : ¬p → Runs R E y) :
    Runs R E (if p then x else y) := by
  split_ifs with h
  · exact hx h
  · exact hy h

theorem Runs.bind {x : Eff ε σ α} {f : α → Eff ε σ β} (hR : ∀ {s t u}, R s t → R t u → R s u)
    (hE : ∀ {s t u e}, R s t → E t e u → E s e u) (hx : Runs R E x) (hf : ∀ a, Runs R E (f a)) :
    Runs R E (x >>= f) := by
  intro s
  rw [exec_bind]
  have hs := hx s
  rcases h : exec x s with ⟨r, t⟩
  rw [h] at hs
  cases r with
  | error e => exact hs
  | ok a =>
    have ht := hf a t
    rw [andThen_ok]
    rcases h' : exec (f a) t with ⟨r', u⟩
    rw [h'] at ht
    cases r' with
    | error e => exact hE hs ht
    | ok b => exact hR hs ht

theorem Runs.mono {x : Eff ε σ α} (h : Runs R E x) (hR : ∀ {s t}, R s t → R' s t)
    (hE : ∀ {s e t}, E s e t → E' s e t) : Runs R' E' x := by
  intro s
  have hs := h s
  rcases hx : exec x s with ⟨r, t⟩
  rw [hx] at hs
  cases r with
  | error e => exact hE hs
  | ok a => exact hR hs

end Runs

/-! ## What a program ensures -/

/-- the program returns with `Q` or raises an exception of `E` -/
def Ensures (E : ε → Prop) (x : Eff ε σ α) (s : σ) (Q : α → σ → Prop) : Prop :=
  match exec x s with
  | (.ok a, t) => Q a t
  | (.error e, _) => E e

section Ensures

variable {E E' : ε → Prop} {x : Eff ε σ α} {s : σ} {Q R : α → σ → Prop}

theorem ensures_pure {a : α} (h : Q a s) : Ensures E (pure a) s Q := h

theorem ensures_throw {e : ε} (h : E e) : Ensures E (throw e) s Q := h

theorem ensures_modify {f : σ → σ} {Q : PUnit → σ → Prop} (h : Q ⟨⟩ (f s)) : Ensures E (modify f) s Q := h

theorem Ensures.mono (h : Ensures E x s Q) (hE : ∀ e, E e → E' e) (hQ : ∀ a t, Q a t → R a t) : Ensures E' x s R := by
  unfold Ensures at h ⊢
  rcases hx : exec x s with ⟨r, t⟩
  rw [hx] at h
  cases r with
  | ok a => exact hQ a t h
  | error e => exact hE e h

/-- weaker about what is returned -/
theorem Ensures.post (h : Ensures E x s Q) (hQ : ∀ a t, Q a t → R a t) : Ensures E x s R := h.mono (fun _ he => he) hQ

/-- weaker about what is raised -/
theorem Ensures.raises (h : Ensures E x s Q) (hE : ∀ e, E e → E' e) : Ensures E' x s Q := h.mono hE fun _ _ hQ => hQ

/-- **Sequencing rule.** -/
theorem Ensures.bind {f : α → Eff ε σ β} {S : β → σ → Prop} (hx : Ensures E x s Q)
    (hf : ∀ a t, Q a t → Ensures E (f a) t S) : Ensures E (x >>= f) s S := by
  unfold Ensures at hx ⊢
  rw [exec_bind]
  rcases hr : exec x s with ⟨r, t⟩
  rw [hr] at hx
  cases r with
  | ok a => exact hf a t hx
  | error e => exact hx

/-- the first part can only end in one way -/
theorem Ensures.bind_eq {f : α → Eff ε σ β} {S : β → σ → Prop} {a : α} {t : σ} (hx : ∀ Q, Q a t → Ensures E x s Q)
    (hf : Ensures E (f a) t S) : Ensures E (x >>= f) s S := by
  refine (hx (fun b u => b = a ∧ u = t) ⟨rfl, rfl⟩).bind ?_
  intro b u h
  rcases h with ⟨rfl, rfl⟩
  exact hf

/-- the state is read -/
theorem ensures_get_bind {f : σ → Eff ε σ β} {S : β → σ → Prop} (h : Ensures E (f s) s S) :
    Ensures E (get >>= f) s S := h

/-- the state is changed -/
theorem ensures_modify_bind {g : σ → σ} {f : PUnit → Eff ε σ β} {S : β → σ → Prop} (h : Ensures E (f ⟨⟩) (g s) S) :
    Ensures E (modify g >>= f) s S := h

theorem Ensures.ite {p : Prop} [Decidable p] {y : Eff ε σ α} (hx : p → Ensures E x s Q) (hy : ¬ p → Ensures E y s Q) :
    Ensures E (if p then x else y) s Q := by
  split_ifs with h
  · exact hx h
  · exact hy h

theorem Runs.ensures {R : σ → σ → Prop} {F : σ → ε → σ → Prop} (h : Runs R F x) (s : σ) :
    Ensures (fun _ => True) x s fun _ t => R s t := by
  unfold Ensures
  have hs := h s
  rcases hx : exec x s with ⟨r, t⟩
  rw [hx] at hs
  cases r with
  | error e => trivial
  | ok a => exact hs

theorem Ensures.and (hx : Ensures E x s Q) (hx' : Ensures E' x s R) : Ensures E x s fun a t => Q a t ∧ R a t := by
  unfold Ensures at hx hx' ⊢
  rcases h : exec x s with ⟨r, t⟩
  rw [h] at hx hx'
  cases r with
  | error e => exact hx
  | ok a => exact ⟨hx, hx'⟩

end Ensures

/-! ## Both ways to end -/

/-- the program returns with `Q`, or raises an exception in a state with `F` -/
def Outcome (F : ε → σ → Prop) (x : Eff ε σ α) (s : σ) (Q : α → σ → Prop) : Prop :=
  match exec x s with
  | (.ok a, t) => Q a t
  | (.error e, t) => F e t

section Outcome

variable {F : ε → σ → Prop} {x : Eff ε σ α} {s : σ} {Q R : α → σ → Prop}

theorem outcome_pure {a : α} (h : Q a s) : Outcome F (pure a) s Q := h

theorem outcome_modify {g : σ → σ} {Q : PUnit → σ → Prop} (h : Q ⟨⟩ (g s)) : Outcome F (modify g) s Q := h

theorem outcome_modify_bind {g : σ → σ} {f : PUnit → Eff ε σ β} {S : β → σ → Prop} (h : Outcome F (f ⟨⟩) (g s) S) :
    Outcome F (modify g >>= f) s S := h

theorem outcome_get_bind {f : σ → Eff ε σ β} {S : β → σ → Prop} (h : Outcome F (f s) s S) :
    Outcome F (get >>= f) s S := h

theorem Outcome.post (h : Outcome F x s Q) (hQ : ∀ a t, Q a t → R a t) : Outcome F x s R := by
  unfold Outcome at h ⊢
  rcases hx : exec x s with ⟨r, t⟩
  rw [hx] at h
  cases r with
  | ok a => exact hQ a t h
  | error e => exact h

/-- weaker about both ways to end -/
theorem Outcome.mono {F' : ε → σ → Prop} (h : Outcome F x s Q) (hF : ∀ e t, F e t → F' e t)
    (hQ : ∀ a t, Q a t → R a t) : Outcome F' x s R := by
  unfold Outcome at h ⊢
  rcases hx : exec x s with ⟨r, t⟩
  rw [hx] at h
  cases r with
  | ok a => exact hQ a t h
  | error e => exact hF e t h

theorem Outcome.ite {p : Prop} [Decidable p] {y : Eff ε σ α} (hx : p → Outcome F x s Q) (hy : ¬p → Outcome F y s Q) :
    Outcome F (if p then x else y) s Q := by
  split_ifs with h
  · exact hx h
  · exact hy h

theorem Outcome.bind {f : α → Eff ε σ β} {S : β → σ → Prop} (hx : Outcome F x s Q)
    (hf : ∀ a t, Q a t → Outcome F (f a) t S) : Outcome F (x >>= f) s S := by
  unfold Outcome at hx ⊢
  rw [exec_bind]
  rcases hr : exec x s with ⟨r, t⟩
  rw [hr] at hx
  cases r with
  | ok a => exact hf a t hx
  | error e => exact hx

theorem Runs.outcome {P : σ → σ → Prop} {E : σ → ε → σ → Prop} (h : Runs P E x) (hE : ∀ e t, E s e t → F e t) :
    Outcome F x s fun _ t => P s t := by
  unfold Outcome
  have hs := h s
  rcases hx : exec x s with ⟨r, t⟩
  rw [hx] at hs
  cases r with
  | error e => exact hE e t hs
  | ok a => exact hs

/-- where the program returns, this is how -/
theorem Outcome.returns (h : Outcome F x s Q) : Outcome F x s fun a t => Q a t ∧ exec x s = (.ok a, t) := by
  unfold Outcome at h ⊢
  rcases hx : exec x s with ⟨r, t⟩
  rw [hx] at h
  cases r with
  | ok a => exact ⟨h, rfl⟩
  | error e => exact h

/-- what is ensured where the program returns -/
theorem Outcome.and {E : ε → Prop} (hx : Outcome F x s Q) (hx' : Ensures E x s R) :
    Outcome F x s fun a t => Q a t ∧ R a t := by
  unfold Outcome at hx ⊢
  unfold Ensures at hx'
  rcases h : exec x s with ⟨r, t⟩
  rw [h] at hx hx'
  cases r with
  | error e => exact hx
  | ok a => exact ⟨hx, hx'⟩

end Outcome

/-! ## What is raised -/

/-- what a program raises, if it does -/
def thrown (x : Eff ε σ α) (s : σ) : Option ε :=
  match (exec x s).1 with
  | .ok _ => none
  | .error e => some e

section Thrown

variable {s : σ}

theorem thrown_pure (a : α) : thrown (pure a : Eff ε σ α) s = none := rfl

theorem thrown_modify (f : σ → σ) : thrown (modify f : Eff ε σ PUnit) s = none := rfl

/-- what the second part raises need only be known where the first part returns -/
theorem thrown_bind {x : Eff ε σ α} {f : α → Eff ε σ β} {r : Option ε}
    (h : ∀ a t, exec x s = (.ok a, t) → thrown (f a) t = r) : thrown (x >>= f) s = (thrown x s).or r := by
  rw [thrown, thrown, exec_bind]
  rcases hx : exec x s with ⟨_ | a, t⟩
  · rfl
  · exact h a t hx

/-- what is there to raise comes first -/
theorem thrown_raise_bind (e : Option ε) (f : PUnit → Eff ε σ β) :
    thrown (raise e >>= f) s = e.or (thrown (f ⟨⟩) s) := by
  cases e with
  | none => rfl
  | some e => rfl

end Thrown

end MNetSoft.Effects
