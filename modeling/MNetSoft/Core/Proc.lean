/-
Processes that touch their shared state only through atomic calls. A process is a tree: a leaf is its end, a node a
call together with what the process does next for every answer the call can give. `C` is the type of calls, `R c` the
type of answers to `c`, `σ` the shared state; nothing here is about a particular program.

Two semantics of one and the same tree:
- `exec`: the process runs alone, from its first call to its end;
- `step`: any number of processes run together, and the scheduler lets one of them make its next call at a time.
A call may end its process (`sem c s = (s', none)`), as a call that exits does.

- `exec_bind`: running `p` and then `f` is running `p`, and `f` from where `p` left the state.
- `pool_always_iff`: if `Ok` decides which calls keep a property of the shared state, then a run of the pool keeps the
  property throughout exactly when every call it makes is `Ok` in the state it is made in.
-/
import Mathlib.Tactic
import MNetSoft.Core.Runs

namespace MNetSoft.Proc

/-! ## Programs -/

/-- a process: it returns a value, ends the program, or makes a call and goes on with the answer -/
inductive Prog (C : Type) (R : C → Type) (A : Type) : Type where
  | ret (a : A)
  | exit (code : ℕ)
  | call (c : C) (k : R c → Prog C R A)

namespace Prog

variable {C : Type} {R : C → Type} {A B : Type}

/-- sequencing: a process that has ended does not go on -/
def bind : Prog C R A → (A → Prog C R B) → Prog C R B
  | .ret a, f => f a
  | .exit code, _ => .exit code
  | .call c k, f => .call c fun r => (k r).bind f

instance : Monad (Prog C R) where
  pure := .ret
  bind := .bind

/-- the call the process makes next -/
def next : Prog C R A → Option C
  | .call c _ => some c
  | _ => none

@[simp] theorem pure_eq (a : A) : (pure a : Prog C R A) = .ret a := rfl

@[simp] theorem bind_eq (p : Prog C R A) (f : A → Prog C R B) : p >>= f = p.bind f := rfl

@[simp] theorem ret_bind (a : A) (f : A → Prog C R B) : (Prog.ret a).bind f = f a := rfl

@[simp] theorem exit_bind (code : ℕ) (f : A → Prog C R B) : (Prog.exit code).bind f = .exit code := rfl

end Prog

variable {C : Type} {R : C → Type} {A B σ : Type} (sem : (c : C) → σ → σ × Option (R c))

/-! ## One process alone -/

/-- go on from the state and answer reached so far, unless the program has ended -/
def andThen (x : σ × Option A) (f : A → σ → σ × Option B) : σ × Option B :=
  match x.2 with
  | some a => f a x.1
  | none => (x.1, none)

@[simp] theorem andThen_some (s : σ) (a : A) (f : A → σ → σ × Option B) : andThen (s, some a) f = f a s := rfl

@[simp] theorem andThen_none (s : σ) (f : A → σ → σ × Option B) : andThen (s, none) f = (s, none) := rfl

/-- run the process to its end: the state it leaves and its value, `none` if it ended the program -/
def exec : Prog C R A → σ → σ × Option A
  | .ret a, s => (s, some a)
  | .exit _, s => (s, none)
  | .call c k, s => andThen (sem c s) fun r s' => exec (k r) s'

@[simp] theorem exec_ret (a : A) (s : σ) : exec sem (.ret a) s = (s, some a) := rfl

@[simp] theorem exec_exit (code : ℕ) (s : σ) : exec sem (.exit code : Prog C R A) s = (s, none) := rfl

@[simp] theorem exec_call (c : C) (k : R c → Prog C R A) (s : σ) :
    exec sem (.call c k) s = andThen (sem c s) fun r s' => exec sem (k r) s' := rfl

theorem exec_bind (p : Prog C R A) (f : A → Prog C R B) (s : σ) :
    exec sem (p.bind f) s = andThen (exec sem p s) fun a s' => exec sem (f a) s' := by
  induction p generalizing s with
  | ret a => rfl
  | exit code => rfl
  | call c k ih =>
    simp only [Prog.bind, exec_call]
    obtain ⟨s', r⟩ := sem c s
    cases r with
    | none => rfl
    | some r => exact ih r s'

/-! ## Many processes together -/

/-- the shared state and, for every process number, what is left of that process -/
structure Pool (C : Type) (R : C → Type) (σ : Type) where
  shared : σ
  procs : ℕ → Prog C R Unit

/-- a scheduler action: start a process under a free number, or let one make its next call -/
inductive Act (Q : Type) where
  | start (pid : ℕ) (q : Q)
  | sched (pid : ℕ)
deriving DecidableEq, Repr

variable {Q : Type} (prog : Q → Prog C R Unit)

def step (st : Pool C R σ) : Act Q → Option (Pool C R σ)
  | .start pid q =>
    match st.procs pid with
    | .call _ _ => none
    | _ => some { st with procs := Function.update st.procs pid (prog q) }
  | .sched pid =>
    match st.procs pid with
    | .call c k =>
      match sem c st.shared with
      | (s', some r) => some ⟨s', Function.update st.procs pid (k r)⟩
      | (s', none) => some ⟨s', Function.update st.procs pid (.exit 1)⟩
    | _ => none

/-- no process has been started yet -/
def init (s : σ) : Pool C R σ := ⟨s, fun _ => .ret ()⟩

/-- the call a scheduler action makes -/
def callOf (st : Pool C R σ) : Act Q → Option C
  | .start _ _ => none
  | .sched pid => (st.procs pid).next

/-- **What a scheduler action can do to the shared state**: nothing, or one call's effect on it -/
theorem step_shared {st st' : Pool C R σ} {a : Act Q} (h : step sem prog st a = some st') :
    (callOf st a = none ∧ st'.shared = st.shared) ∨
      ∃ c, callOf st a = some c ∧ st'.shared = (sem c st.shared).1 := by
  cases a with
  | start pid q =>
    simp only [step] at h
    split at h
    · cases h
    · cases h; exact Or.inl ⟨rfl, rfl⟩
  | sched pid =>
    simp only [step] at h
    split at h
    · rename_i c k hp
      refine Or.inr ⟨c, by simp [callOf, hp, Prog.next], ?_⟩
      split at h
      · rename_i s' r hs; cases h; simp [hs]
      · rename_i s' hs; cases h; simp [hs]
    · cases h

/-- **Exact condition for a pool.** If, from shared states with `P`, a call keeps `P` exactly when it is `Ok`, then a
run of the pool keeps `P` throughout exactly when every call it makes is `Ok` in the state it is made in. -/
theorem pool_always_iff {P : σ → Prop} {Ok : C → σ → Prop} (hcall : ∀ c s, P s → (P (sem c s).1 ↔ Ok c s))
    (st : Pool C R σ) (as : List (Act Q)) (h0 : P st.shared) :
    Runs.Always (step sem prog) (fun u => P u.shared) st as ↔
      Runs.Along (step sem prog) (fun u a => ∀ c ∈ callOf u a, Ok c u.shared) st as := by
  refine Runs.always_iff_along (fun u a t hu ht => ?_) as h0
  rcases step_shared sem prog ht with ⟨hn, hs⟩ | ⟨c, hc, hs⟩
  · have hkeep : P t.shared := by rw [hs]; exact hu
    apply iff_of_true hkeep
    intro d hd
    rw [hn] at hd
    exact absurd hd (Option.not_mem_none d)
  · rw [hs, hcall c u.shared hu]
    refine ⟨fun hok d hd => ?_, fun h => h c hc⟩
    rw [hc] at hd
    rw [← Option.mem_some_iff.1 hd]
    exact hok

end MNetSoft.Proc
