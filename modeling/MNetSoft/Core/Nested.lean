/-
Loops that call themselves. A program in a frame takes turns until one of them says to leave; a turn may also say to
enter another frame, and then the loop calls itself for that frame and goes on when the call returns. `F` is any type of
frames; nothing here is about a particular program.

- `nested`: the loop as it is written, with its calls.
- `stack`: the same as a machine over the list of the frames that are open, the innermost first.
- `stack_cons`: where every turn makes a measure of the state smaller, the two agree, and neither runs out of fuel.
- `stack_outcome`: an invariant of the open frames and the state that every turn keeps holds to the end.
-/
import Mathlib.Tactic
import MNetSoft.Core.Effects

namespace MNetSoft.Nested

open MNetSoft.Effects

variable {ε σ F : Type}

/-- what a turn says to do next -/
inductive Next (F : Type) where
  | again
  | leave
  | enter (f : F)
  deriving DecidableEq

variable (spent : ε) (turn : F → Eff ε σ (Next F))

/-- the loop of a frame; `spent` is raised where the fuel runs out -/
def nested : ℕ → F → Eff ε σ PUnit
  | 0, _ => throw spent
  | fuel + 1, f => do
    match ← turn f with
    | .again => nested fuel f
    | .leave => return
    | .enter g => do
      nested fuel g
      nested fuel f

/-- the frames that are open after a turn of the first -/
def Next.frames (f : F) (fs : List F) : Next F → List F
  | .again => f :: fs
  | .leave => fs
  | .enter g => g :: f :: fs

/-- take turns in the innermost frame until none is open -/
def stack : ℕ → List F → Eff ε σ PUnit
  | _, [] => return
  | 0, _ :: _ => throw spent
  | fuel + 1, f :: fs => do
    let next ← turn f
    stack fuel (next.frames f fs)

theorem exec_stack_nil (fuel : ℕ) (s : σ) : exec (stack spent turn fuel []) s = (.ok ⟨⟩, s) := by
  cases fuel <;> rfl

theorem exec_stack_cons (fuel : ℕ) (f : F) (fs : List F) (s : σ) :
    exec (stack spent turn (fuel + 1) (f :: fs)) s =
      andThen (exec (turn f) s) fun next t => exec (stack spent turn fuel (next.frames f fs)) t := by
  rw [stack, exec_bind]

theorem exec_nested (fuel : ℕ) (f : F) (s : σ) :
    exec (nested spent turn (fuel + 1) f) s = andThen (exec (turn f) s) fun next t =>
      match next with
      | .again => exec (nested spent turn fuel f) t
      | .leave => (.ok ⟨⟩, t)
      | .enter g => andThen (exec (nested spent turn fuel g) t) fun _ u => exec (nested spent turn fuel f) u := by
  rw [nested, exec_bind]
  rcases exec (turn f) s with ⟨_ | next, t⟩
  · rfl
  · cases next with
    | again => rfl
    | leave => rfl
    | enter g => exact exec_bind _ _ _

section Measure

variable {turn} {μ : σ → ℕ} (hμ : ∀ f s next t, exec (turn f) s = (.ok next, t) → μ t < μ s)
include hμ

theorem nested_lt {fuel : ℕ} {f : F} {s t : σ} (h : exec (nested spent turn fuel f) s = (.ok ⟨⟩, t)) : μ t < μ s := by
  induction fuel generalizing f s t with
  | zero => cases h
  | succ fuel ih =>
    rw [exec_nested] at h
    rcases hturn : exec (turn f) s with ⟨_ | next, u⟩
    · rw [hturn] at h
      cases h
    · have hlt := hμ f s next u hturn
      rw [hturn, andThen_ok] at h
      cases next with
      | again => exact (ih h).trans hlt
      | leave =>
        cases h
        exact hlt
      | enter g =>
        dsimp only at h
        rcases hg : exec (nested spent turn fuel g) u with ⟨_ | a, v⟩
        · rw [hg] at h
          cases h
        · rw [hg, andThen_ok] at h
          have hv : μ v < μ u := ih hg
          have ht : μ t < μ v := ih h
          omega

/-- the machine does not depend on its fuel, if that is more than the measure -/
theorem stack_fuel {n n' : ℕ} {fs : List F} {s : σ} (h : μ s < n) (h' : μ s < n') :
    exec (stack spent turn n fs) s = exec (stack spent turn n' fs) s := by
  induction hk : μ s using Nat.strong_induction_on generalizing n n' fs s with
  | _ k ih =>
    subst hk
    obtain ⟨n, rfl⟩ := Nat.exists_eq_succ_of_ne_zero (Nat.ne_of_gt (Nat.zero_lt_of_lt h))
    obtain ⟨n', rfl⟩ := Nat.exists_eq_succ_of_ne_zero (Nat.ne_of_gt (Nat.zero_lt_of_lt h'))
    cases fs with
    | nil => rw [exec_stack_nil, exec_stack_nil]
    | cons f fs =>
      rw [exec_stack_cons, exec_stack_cons]
      rcases hturn : exec (turn f) s with ⟨_ | next, t⟩
      · rfl
      · have hlt := hμ f s next t hturn
        rw [andThen_ok, andThen_ok]
        exact ih (μ t) hlt (by omega) (by omega) rfl

/-- **Calls are a stack.** The machine with a frame on top is the loop of the frame, and then the machine with the
frames under it. -/
theorem stack_cons {n n' : ℕ} (f : F) (fs : List F) {s : σ} (h : μ s < n) (h' : μ s < n') :
    exec (stack spent turn n (f :: fs)) s =
      andThen (exec (nested spent turn n' f) s) fun _ t => exec (stack spent turn n fs) t := by
  induction hk : μ s using Nat.strong_induction_on generalizing n n' f fs s with
  | _ k ih =>
    subst hk
    obtain ⟨n, rfl⟩ := Nat.exists_eq_succ_of_ne_zero (Nat.ne_of_gt (Nat.zero_lt_of_lt h))
    obtain ⟨n', rfl⟩ := Nat.exists_eq_succ_of_ne_zero (Nat.ne_of_gt (Nat.zero_lt_of_lt h'))
    rw [exec_stack_cons, exec_nested]
    rcases hturn : exec (turn f) s with ⟨_ | next, t⟩
    · rfl
    · have hlt := hμ f s next t hturn
      rw [andThen_ok, andThen_ok]
      -- what a loop has left behind is in the measure's reach of either fuel
      have hrest : ∀ {g : F} {gs : List F} {u : σ}, μ u ≤ μ t →
          exec (stack spent turn n (g :: gs)) u =
            andThen (exec (nested spent turn n' g) u) fun _ v => exec (stack spent turn (n + 1) gs) v := by
        intro g gs u hu
        have hcall : exec (stack spent turn n (g :: gs)) u =
            andThen (exec (nested spent turn n' g) u) fun _ v => exec (stack spent turn n gs) v :=
          ih (μ u) (by omega) g gs (by omega) (by omega) rfl
        rw [hcall]
        rcases hg : exec (nested spent turn n' g) u with ⟨_ | a, v⟩
        · rfl
        · have hv := nested_lt spent hμ hg
          rw [andThen_ok, andThen_ok]
          exact stack_fuel spent hμ (by omega) (by omega)
      cases next with
      | again => exact hrest le_rfl
      | leave => exact stack_fuel spent hμ (by omega) (by omega)
      | enter g =>
        have hcall : exec (stack spent turn n (g :: f :: fs)) t =
            andThen (exec (nested spent turn n' g) t) fun _ u => exec (stack spent turn n (f :: fs)) u :=
          ih (μ t) hlt g (f :: fs) (by omega) (by omega) rfl
        simp only [Next.frames]
        rw [hcall]
        rcases hg : exec (nested spent turn n' g) t with ⟨_ | a, u⟩
        · rfl
        · rw [andThen_ok, andThen_ok]
          exact hrest (nested_lt spent hμ hg).le

/-- **Invariant rule.** -/
theorem stack_outcome {I : List F → σ → Prop} {E : ε → σ → Prop}
    (hturn : ∀ f fs s, I (f :: fs) s → Outcome E (turn f) s fun next t => I (next.frames f fs) t) {n : ℕ} {fs : List F}
    {s : σ} (hn : μ s < n) (h : I fs s) : Outcome E (stack spent turn n fs) s fun _ t => I [] t := by
  induction n generalizing fs s with
  | zero => exact absurd hn (Nat.not_lt_zero _)
  | succ n ih =>
    cases fs with
    | nil => exact outcome_pure h
    | cons f fs =>
      have hone := hturn f fs s h
      unfold Outcome at hone ⊢
      rw [exec_stack_cons]
      rcases hs : exec (turn f) s with ⟨_ | next, t⟩
      · rw [hs] at hone
        exact hone
      · rw [hs] at hone
        have hlt := hμ f s next t hs
        exact ih (by omega) hone

end Measure

end MNetSoft.Nested
