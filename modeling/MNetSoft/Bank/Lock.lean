/-
The lock files of `bank.c`: `setlock` and `unlock`, first as one process sees them, then as a protocol of any number of
processes over one lock file.

The file system is what the code uses of it: one path, which names an inode or nothing, and the change time of every
inode. The clock has a resolution of one second and advances arbitrarily between steps. Every system call is a step of
its own: exclusive create, stat, time and age test, unlink, fstat. `unlink` leaves the change time of the removed inode
alone (its link count drops to 0). The inode a process has created is carried in its program counter only to speak of
it; the code itself compares change times.

A process is in its window from the exclusive create until it calls `unlock`; that is longer than it holds the lock.
- `one_window_inv`: while no unlink removes the lock file of a process in its window, at most one process is in its
  window, and the path names its file.
- `mutual_exclusion`: in every run whose unlinks are all safe in this sense, no two processes ever hold the lock.
- `unsafe_unlink_breaks`: a run that comes to an unsafe unlink can be continued, with every holder in time, to a state
  in which two processes hold the lock.
- `late_unlink`: a run in which every holder calls `unlock` at once, and two processes hold the lock: the first one's
  `unlock` is slow, its lock file is broken as too old, and its `unlink` removes the next holder's file.
-/
import Mathlib.Tactic
import MNetSoft.Core.Runs

namespace MNetSoft.Bank

/-! ## One call of `setlock` -/

/-- a lock file more than 5 minutes old -/
def TooOld (ctime now : ℕ) : Prop := ctime + 300 < now

instance (ctime now : ℕ) : Decidable (TooOld ctime now) := by unfold TooOld; infer_instance

/-- how often `setlock` sleeps before it gives up -/
def MAXTRYS : ℕ := 5

/-- what one pass through the loop of `setlock` meets -/
inductive Probe where
  /-- the exclusive create succeeds; the change time `fstat` then reports -/
  | created (ctime : ℕ)
  /-- the create fails, and so does `stat` -/
  | gone
  /-- the create fails: the change time of the lock file, the time, and whether an unlink of it succeeds -/
  | found (ctime now : ℕ) (unlinks : Bool)
  /-- a signal ends the process (SIGINT and SIGQUIT are ignored, others are not) -/
  | killed
deriving DecidableEq, Repr

inductive LockEnd where
  | acquired (fclock : ℕ)
  /-- the process is gone: `done(1)` or a signal -/
  | exited
deriving DecidableEq, Repr

/-- the loop of `setlock` with `trys` sleeps behind it; `none` while it is still waiting after these probes -/
def setlockLoop : ℕ → List Probe → Option LockEnd
  | _, [] => none
  | _, .created ctime :: _ => some (.acquired ctime)
  | _, .gone :: _ => some .exited
  | trys, .found ctime now unlinks :: ps =>
    if TooOld ctime now then (if unlinks then setlockLoop trys ps else some .exited)
    else if trys < MAXTRYS then setlockLoop (trys + 1) ps
    else some .exited
  | _, .killed :: _ => some .exited

/-- the probes of one call of `setlock` that comes to an end -/
structure LockScript where
  probes : List Probe
  ends : (setlockLoop 0 probes).isSome = true

/-- how the call ends -/
def LockScript.outcome (ls : LockScript) : LockEnd := (setlockLoop 0 ls.probes).get ls.ends

/-- the call returns: the lock has been set -/
def LockScript.Granted (ls : LockScript) : Prop := ls.outcome ≠ .exited

instance (ls : LockScript) : Decidable ls.Granted := by unfold LockScript.Granted; infer_instance

/-! ## The lock protocol -/

/-- where a process is -/
inductive Pc where
  | idle
  /-- in `setlock`: at the exclusive create -/
  | opening (trys : ℕ)
  /-- the create has failed: at `stat` -/
  | statting (trys : ℕ)
  /-- at the age test -/
  | aging (trys ctime : ℕ)
  /-- at the unlink of an old lock file -/
  | blasting (trys : ℕ)
  /-- the create has succeeded: at `fstat` -/
  | created (ino : ℕ)
  /-- `setlock` has returned, at time `since` -/
  | holding (ino since : ℕ)
  /-- in `unlock`: at `stat` and the comparison -/
  | checking
  /-- in `unlock`: at the unlink -/
  | releasing
  /-- ended by `done(1)` -/
  | dead
deriving DecidableEq, Repr

/-- a process and its `fclock[which]` -/
structure LockProc where
  pc : Pc
  fclock : ℕ
deriving DecidableEq, Repr

structure LockSt where
  clock : ℕ
  /-- the inode the path of the lock file names -/
  path : Option ℕ
  /-- `st_ctime` of every inode -/
  ctime : ℕ → ℕ
  nextIno : ℕ
  procs : List LockProc

inductive LockOp where
  | tick (d : ℕ)
  | setlock (p : ℕ)
  | unlock (p : ℕ)
  /-- the next system call of process `p` -/
  | go (p : ℕ)
deriving DecidableEq, Repr

def LockSt.move (st : LockSt) (p : ℕ) (pr : LockProc) : LockSt := { st with procs := st.procs.set p pr }

/-- the exclusive create makes a new inode, changed now -/
def LockSt.create (st : LockSt) : LockSt :=
  { st with
    path := some st.nextIno
    ctime := Function.update st.ctime st.nextIno st.clock
    nextIno := st.nextIno + 1 }

def LockSt.unlink (st : LockSt) : LockSt := { st with path := none }

/-- the next system call of a process that is inside `setlock` or `unlock` -/
def goProc (st : LockSt) (p : ℕ) (pr : LockProc) : Option LockSt :=
  match pr.pc with
  | .opening trys =>
    match st.path with
    | none => some (st.create.move p { pr with pc := .created st.nextIno })
    | some _ => some (st.move p { pr with pc := .statting trys })
  | .statting trys =>
    match st.path with
    | none => some (st.move p { pr with pc := .dead })
    | some i => some (st.move p { pr with pc := .aging trys (st.ctime i) })
  | .aging trys ctime =>
    if TooOld ctime st.clock then some (st.move p { pr with pc := .blasting trys })
    else if trys < MAXTRYS then some (st.move p { pr with pc := .opening (trys + 1) })
    else some (st.move p { pr with pc := .dead })
  | .blasting trys =>
    match st.path with
    | none => some (st.move p { pr with pc := .dead })
    | some _ => some (st.unlink.move p { pr with pc := .opening trys })
  | .created ino => some (st.move p ⟨.holding ino st.clock, st.ctime ino⟩)
  | .checking =>
    match st.path with
    | none => some (st.move p ⟨.idle, 0⟩)
    | some i =>
      if st.ctime i ≠ pr.fclock then some (st.move p ⟨.idle, 0⟩) else some (st.move p { pr with pc := .releasing })
  | .releasing => some (st.unlink.move p ⟨.idle, 0⟩)
  | .idle | .holding _ _ | .dead => none

/-- a process that calls neither function is idle or between the two -/
def LockProc.Outside (pr : LockProc) : Prop :=
  match pr.pc with
  | .idle | .holding _ _ => True
  | _ => False

instance (pr : LockProc) : Decidable pr.Outside := by
  unfold LockProc.Outside
  split <;> infer_instance

def lockStep (st : LockSt) : LockOp → Option LockSt
  | .tick d => some { st with clock := st.clock + d }
  | .setlock p =>
    match st.procs[p]? with
    | none => none
    | some pr =>
      if pr.Outside then (if pr.fclock ≠ 0 then some st else some (st.move p { pr with pc := .opening 0 })) else none
  | .unlock p =>
    match st.procs[p]? with
    | none => none
    | some pr =>
      if pr.Outside then
        (if pr.fclock = 0 then some (st.move p { pr with pc := .idle }) else
          some (st.move p { pr with pc := .checking }))
      else none
  | .go p =>
    match st.procs[p]? with
    | none => none
    | some pr => goProc st p pr

/-! ## Holding the lock -/

/-- between its `setlock` and its `unlock`, with `fclock[which] != 0` -/
def LockProc.Holds (pr : LockProc) : Prop :=
  match pr.pc with
  | .holding _ _ => pr.fclock ≠ 0
  | _ => False

instance (pr : LockProc) : Decidable pr.Holds := by
  unfold LockProc.Holds
  split <;> infer_instance

/-- no two processes hold the lock -/
def Mutex (st : LockSt) : Prop :=
  ∀ (p q : ℕ) (a b : LockProc), st.procs[p]? = some a → st.procs[q]? = some b → a.Holds → b.Holds → p = q

/-- a process that has completed `setlock` has not held the lock for 300 seconds -/
def LockProc.Prompt (clock : ℕ) (pr : LockProc) : Prop :=
  match pr.pc with
  | .holding _ since => clock < since + 300
  | _ => True

instance (clock : ℕ) (pr : LockProc) : Decidable (pr.Prompt clock) := by
  unfold LockProc.Prompt
  split <;> infer_instance

/-- every process that completes `setlock` calls `unlock` less than 300 seconds later -/
def PromptUnlock (st : LockSt) : Prop := ∀ pr ∈ st.procs, pr.Prompt st.clock

instance (st : LockSt) : Decidable (PromptUnlock st) := by unfold PromptUnlock; infer_instance

/-- no process is inside `setlock` or `unlock` or holds the lock; the path may name a file somebody left behind -/
def LockSt.Quiet (st : LockSt) : Prop := ∀ pr ∈ st.procs, pr.pc = .idle

instance (st : LockSt) : Decidable st.Quiet := by unfold LockSt.Quiet; infer_instance

/-! ## The window of a process -/

/-- the file of a process between its exclusive create and its call of `unlock` -/
def Pc.window : Pc → Option ℕ
  | .created ino => some ino
  | .holding ino _ => some ino
  | _ => none

/-- process `p` is in its window, with file `i` -/
def InWindow (st : LockSt) (p i : ℕ) : Prop := ∃ pr, st.procs[p]? = some pr ∧ pr.pc.window = some i

/-- at an unlink of the lock file: an old one in `setlock`, or its own in `unlock` -/
def LockProc.Unlinks (pr : LockProc) : Prop :=
  match pr.pc with
  | .blasting _ | .releasing => True
  | _ => False

instance (pr : LockProc) : Decidable pr.Unlinks := by
  unfold LockProc.Unlinks
  split <;> infer_instance

def Unlinks (st : LockSt) : LockOp → Prop
  | .go p => ∃ pr ∈ st.procs[p]?, pr.Unlinks
  | _ => False

instance (st : LockSt) (op : LockOp) : Decidable (Unlinks st op) := by
  cases op <;> unfold Unlinks <;> infer_instance

/-- an unlink does not remove the lock file of a process that is in its window -/
def SafeUnlink (st : LockSt) (op : LockOp) : Prop :=
  Unlinks st op → ∀ pr ∈ st.procs, ∀ i ∈ pr.pc.window, st.path ≠ some i

instance (st : LockSt) (op : LockOp) : Decidable (SafeUnlink st op) := by unfold SafeUnlink; infer_instance

/-- moving one process enters no window but the one of its new program counter -/
theorem inWindow_move {st : LockSt} {p q i : ℕ} {pr : LockProc} (h : InWindow (st.move p pr) q i) :
    (q = p ∧ pr.pc.window = some i) ∨ InWindow st q i := by
  obtain ⟨a, ha, hw⟩ := h
  simp only [LockSt.move, List.getElem?_set] at ha
  split_ifs at ha with hpq hlt
  · cases ha
    exact Or.inl ⟨hpq.symm, hw⟩
  · exact Or.inr ⟨a, ha, hw⟩

theorem inWindow_move_outside {st : LockSt} {p q i : ℕ} {pr : LockProc} (hpr : pr.pc.window = none)
    (h : InWindow (st.move p pr) q i) : InWindow st q i := by
  rcases inWindow_move h with ⟨-, hw⟩ | h
  · rw [hpr] at hw
    cases hw
  · exact h

/-! ## What one step can do -/

/-- everything a step can do to the state -/
inductive LockEffect (st : LockSt) (op : LockOp) : LockSt → Prop
  | tick (d : ℕ) (hop : op = .tick d) : LockEffect st op { st with clock := st.clock + d }
  | stay : LockEffect st op st
  /-- one process moves outside its window -/
  | outside (p : ℕ) (pr : LockProc) (hw : pr.pc.window = none) : LockEffect st op (st.move p pr)
  /-- a process learns the change time of its file -/
  | fstat (p ino fclock : ℕ) (hpr : st.procs[p]? = some ⟨.created ino, fclock⟩) :
      LockEffect st op (st.move p ⟨.holding ino st.clock, st.ctime ino⟩)
  | create (p fclock : ℕ) (hpath : st.path = none) :
      LockEffect st op (st.create.move p ⟨.created st.nextIno, fclock⟩)
  | unlink (p : ℕ) (pr : LockProc) (hu : Unlinks st op) (hw : pr.pc.window = none) :
      LockEffect st op (st.unlink.move p pr)

/-- a system call inside `setlock` or `unlock` -/
theorem goProc_effect {st t : LockSt} {p : ℕ} {pr : LockProc} (hpr : st.procs[p]? = some pr)
    (h : goProc st p pr = some t) : LockEffect st (.go p) t := by
  obtain ⟨pc, fclock⟩ := pr
  cases pc with
  | idle => cases h
  | holding ino since => cases h
  | dead => cases h
  | opening trys =>
    cases hp : st.path with
    | none =>
      simp only [goProc, hp, Option.some.injEq] at h
      subst h
      exact .create p fclock hp
    | some i =>
      simp only [goProc, hp, Option.some.injEq] at h
      subst h
      exact .outside p _ rfl
  | statting trys =>
    cases hp : st.path <;>
    · simp only [goProc, hp, Option.some.injEq] at h
      subst h
      exact .outside p _ rfl
  | aging trys ctime =>
    simp only [goProc] at h
    split_ifs at h <;>
    · cases h
      exact .outside p _ rfl
  | blasting trys =>
    cases hp : st.path with
    | none =>
      simp only [goProc, hp, Option.some.injEq] at h
      subst h
      exact .outside p _ rfl
    | some i =>
      simp only [goProc, hp, Option.some.injEq] at h
      subst h
      exact .unlink p _ ⟨_, hpr, trivial⟩ rfl
  | created ino =>
    cases h
    exact .fstat p ino fclock hpr
  | checking =>
    cases hp : st.path with
    | none =>
      simp only [goProc, hp, Option.some.injEq] at h
      subst h
      exact .outside p _ rfl
    | some i =>
      simp only [goProc, hp] at h
      split_ifs at h <;>
      · cases h
        exact .outside p _ rfl
  | releasing =>
    cases h
    exact .unlink p _ ⟨_, hpr, trivial⟩ rfl

theorem lockStep_effect {st t : LockSt} {op : LockOp} (h : lockStep st op = some t) : LockEffect st op t := by
  cases op with
  | tick d =>
    cases h
    exact .tick d rfl
  | setlock p =>
    simp only [lockStep] at h
    split at h
    · cases h
    · split_ifs at h
      · cases h
        exact .stay
      · cases h
        exact .outside p _ rfl
  | unlock p =>
    simp only [lockStep] at h
    split at h
    · cases h
    · split_ifs at h <;>
      · cases h
        exact .outside p _ rfl
  | go p =>
    simp only [lockStep] at h
    split at h
    · cases h
    · rename_i pr hpr
      exact goProc_effect hpr h

/-! ## Mutual exclusion -/

/-- at most one process is in its window, and the path names its file -/
def OneWindow (st : LockSt) : Prop := ∀ p i, InWindow st p i → st.path = some i ∧ ∀ q j, InWindow st q j → q = p

/-- leaving windows, with the path as it is, keeps them apart -/
theorem OneWindow.shrink {st t : LockSt} (hI : OneWindow st) (hp : t.path = st.path)
    (hw : ∀ q i, InWindow t q i → InWindow st q i) : OneWindow t := by
  intro p i hpi
  rw [hp]
  exact ⟨(hI p i (hw p i hpi)).1, fun q j hq => (hI p i (hw p i hpi)).2 q j (hw q j hq)⟩

/-- safe unlinks keep the windows apart -/
theorem one_window_inv {st t : LockSt} {op : LockOp} (hI : OneWindow st) (hs : SafeUnlink st op)
    (h : lockStep st op = some t) : OneWindow t := by
  cases lockStep_effect h with
  | tick d hop => exact hI.shrink rfl fun _ _ hw => hw
  | stay => exact hI
  | outside p pr hw => exact hI.shrink rfl fun _ _ => inWindow_move_outside hw
  | fstat p ino fclock hpr =>
    refine hI.shrink rfl fun q i hw => ?_
    rcases inWindow_move hw with ⟨rfl, hi⟩ | hw
    · exact ⟨_, hpr, hi⟩
    · exact hw
  | create p fclock hpath =>
    -- the path named nothing, so nobody was in a window
    have hnone : ∀ q j, ¬InWindow st.create q j := by
      intro q j hq
      have hnamed : st.path = some j := (hI q j hq).1
      rw [hpath] at hnamed
      cases hnamed
    have hw : ∀ q j, InWindow (st.create.move p ⟨.created st.nextIno, fclock⟩) q j → q = p ∧ j = st.nextIno := by
      intro q j hq
      rcases inWindow_move hq with ⟨hqp, hj⟩ | hq
      · exact ⟨hqp, (Option.some.inj hj).symm⟩
      · exact absurd hq (hnone q j)
    intro q j hq
    obtain ⟨rfl, rfl⟩ := hw q j hq
    exact ⟨rfl, fun r k hr => (hw r k hr).1⟩
  | unlink p pr hu hw =>
    intro q i hq
    have hq' : InWindow st.unlink q i := inWindow_move_outside hw hq
    obtain ⟨a, ha, hai⟩ := hq'
    exact absurd (hI q i ⟨a, ha, hai⟩).1 (hs hu a (List.mem_of_getElem? ha) i hai)

theorem LockSt.Quiet.oneWindow {st : LockSt} (h : st.Quiet) : OneWindow st := by
  intro p i hin
  obtain ⟨pr, hpr, hw⟩ := hin
  rw [h pr (List.mem_of_getElem? hpr)] at hw
  cases hw

/-- a process that holds the lock is in its window -/
theorem LockProc.Holds.window {pr : LockProc} (h : pr.Holds) : ∃ i, pr.pc.window = some i := by
  obtain ⟨pc, fclock⟩ := pr
  cases pc with
  | holding ino since => exact ⟨ino, rfl⟩
  | _ => exact h.elim

theorem OneWindow.mutex {st : LockSt} (h : OneWindow st) : Mutex st := by
  intro p q a b ha hb hp hq
  obtain ⟨i, hi⟩ := hp.window
  obtain ⟨j, hj⟩ := hq.window
  exact (h q j ⟨b, hb, hj⟩).2 p i ⟨a, ha, hi⟩

/-- **Mutual exclusion.** From any state in which nobody is at work on the lock, a run of any number of processes keeps
two of them from ever holding it together, if no unlink of the run removes the lock file of a process between its
exclusive create and its call of `unlock`. -/
theorem mutual_exclusion (st : LockSt) (ops : List LockOp) (h0 : st.Quiet)
    (hs : Runs.Along lockStep SafeUnlink st ops) : Runs.Always lockStep Mutex st ops :=
  (Runs.always_of_along (fun _ _ _ hI hs h => one_window_inv hI hs h) h0.oneWindow hs).mono fun _ => OneWindow.mutex

/-! ## Unsafe unlinks -/

/-- a process in its window has a change time other than 0 to recognise its file by -/
def LockProc.Stamped (st : LockSt) (pr : LockProc) : Prop :=
  match pr.pc with
  | .created ino => ino < st.nextIno ∧ st.ctime ino ≠ 0
  | .holding _ _ => pr.fclock ≠ 0
  | _ => True

def Stamped (st : LockSt) : Prop := 0 < st.clock ∧ ∀ pr ∈ st.procs, pr.Stamped st

theorem LockProc.stamped_outside {st : LockSt} {pr : LockProc} (h : pr.pc.window = none) : pr.Stamped st := by
  obtain ⟨pc, fclock⟩ := pr
  cases pc with
  | created ino => cases h
  | holding ino since => cases h
  | _ => trivial

theorem LockProc.prompt_outside {now : ℕ} {pr : LockProc} (h : pr.pc.window = none) : pr.Prompt now := by
  obtain ⟨pc, fclock⟩ := pr
  cases pc with
  | holding ino since => cases h
  | _ => trivial

theorem LockSt.Quiet.stamped {st : LockSt} (h : st.Quiet) (hc : 0 < st.clock) : Stamped st := by
  refine ⟨hc, fun pr hpr => LockProc.stamped_outside ?_⟩
  rw [h pr hpr]
  rfl

theorem Stamped.move {st : LockSt} {p : ℕ} {pr : LockProc} (h : Stamped st) (hpr : pr.Stamped st) :
    Stamped (st.move p pr) := by
  refine ⟨h.1, fun a ha => ?_⟩
  rcases List.mem_or_eq_of_mem_set ha with ha | rfl
  · exact h.2 a ha
  · exact hpr

/-- the create changes the change time of no older inode -/
theorem Stamped.create {st : LockSt} (h : Stamped st) : Stamped st.create := by
  refine ⟨h.1, fun a ha => ?_⟩
  have hold := h.2 a ha
  obtain ⟨pc, fclock⟩ := a
  cases pc with
  | created ino =>
    have hlt : ino < st.nextIno := hold.1
    refine ⟨Nat.lt_succ_of_lt hlt, ?_⟩
    simp only [LockSt.create, Function.update_of_ne hlt.ne]
    exact hold.2
  | _ => exact hold

theorem Stamped.unlink {st : LockSt} (h : Stamped st) : Stamped st.unlink := h

theorem stamped_inv {st t : LockSt} {op : LockOp} (hs : Stamped st) (h : lockStep st op = some t) : Stamped t := by
  cases lockStep_effect h with
  | tick d hop => exact ⟨Nat.add_pos_left hs.1 d, hs.2⟩
  | stay => exact hs
  | outside p pr hw => exact hs.move (LockProc.stamped_outside hw)
  | fstat p ino fclock hpr => exact hs.move (hs.2 _ (List.mem_of_getElem? hpr)).2
  | create p fclock hpath =>
    refine hs.create.move ⟨Nat.lt_succ_self _, ?_⟩
    simp only [LockSt.create, Function.update_self]
    exact hs.1.ne'
  | unlink p pr hu hw => exact hs.unlink.move (LockProc.stamped_outside hw)

/-- without the clock nobody becomes late -/
theorem prompt_inv {st t : LockSt} {op : LockOp} (hs : PromptUnlock st) (hop : ∀ d, op ≠ .tick d)
    (h : lockStep st op = some t) : PromptUnlock t := by
  have hmove : ∀ (u : LockSt) p pr, u.clock = st.clock → u.procs = st.procs → pr.Prompt st.clock →
      PromptUnlock (u.move p pr) := by
    intro u p pr hclock hprocs hpr a ha
    simp only [LockSt.move, hprocs, hclock] at ha ⊢
    rcases List.mem_or_eq_of_mem_set ha with ha | rfl
    · exact hs a ha
    · exact hpr
  cases lockStep_effect h with
  | tick d ht => exact absurd ht (hop d)
  | stay => exact hs
  | outside p pr hw => exact hmove st p pr rfl rfl (LockProc.prompt_outside hw)
  | fstat p ino fclock hpr => exact hmove st p _ rfl rfl (Nat.lt_add_of_pos_right (by decide))
  | create p fclock hpath => exact hmove st.create p _ rfl rfl trivial
  | unlink p pr hu hw => exact hmove st.unlink p pr rfl rfl (LockProc.prompt_outside hw)

/-- process `p` can come to hold the lock by steps of its own, without the clock moving -/
def CanHold (st : LockSt) (p : ℕ) : Prop :=
  ∃ ops t, (∀ op ∈ ops, ∀ d, op ≠ .tick d) ∧ Runs.run lockStep st ops = some t ∧
    (∃ pr, t.procs[p]? = some pr ∧ pr.Holds) ∧ ∀ q, q ≠ p → t.procs[q]? = st.procs[q]?

theorem LockSt.move_self {st : LockSt} {p : ℕ} {a : LockProc} (ha : st.procs[p]? = some a) (pr : LockProc) :
    (st.move p pr).procs[p]? = some pr := by
  obtain ⟨hlt, -⟩ := List.getElem?_eq_some_iff.1 ha
  simp only [LockSt.move, List.getElem?_set_self hlt]

theorem LockSt.move_other (st : LockSt) {p q : ℕ} (pr : LockProc) (h : q ≠ p) :
    (st.move p pr).procs[q]? = st.procs[q]? := by
  simp only [LockSt.move, List.getElem?_set_ne h.symm]

/-- a first step of the process itself -/
theorem CanHold.step {st t : LockSt} {p : ℕ} {op : LockOp} (hop : ∀ d, op ≠ .tick d) (h : lockStep st op = some t)
    (hother : ∀ q, q ≠ p → t.procs[q]? = st.procs[q]?) (ht : CanHold t p) : CanHold st p := by
  obtain ⟨ops, u, htick, hrun, hholds, hu⟩ := ht
  refine ⟨op :: ops, u, ?_, ?_, hholds, fun q hq => (hu q hq).trans (hother q hq)⟩
  · intro o ho
    rcases List.mem_cons.1 ho with rfl | ho
    · exact hop
    · exact htick o ho
  · rw [Runs.run_cons, h]
    exact hrun

/-- a process in its window holds the lock after its `fstat` at the latest -/
theorem canHold_window {st : LockSt} {q i : ℕ} (hs : Stamped st) (hq : InWindow st q i) : CanHold st q := by
  obtain ⟨⟨pc, fclock⟩, hpr, hw⟩ := hq
  have hstamped := hs.2 _ (List.mem_of_getElem? hpr)
  cases pc with
  | holding ino since => exact ⟨[], st, by simp, rfl, ⟨_, hpr, hstamped⟩, fun _ _ => rfl⟩
  | created ino =>
    have hstep : lockStep st (.go q) = some (st.move q ⟨.holding ino st.clock, st.ctime ino⟩) := by
      simp only [lockStep, hpr, goProc]
    refine .step (by simp) hstep (fun r hr => st.move_other _ hr) ⟨[], _, by simp, rfl, ?_, fun _ _ => rfl⟩
    exact ⟨_, st.move_self hpr _, hstamped.2⟩
  | _ => cases hw

/-- a process at the exclusive create, while there is no lock file -/
theorem canHold_opening {st : LockSt} {p trys fclock : ℕ} (hs : Stamped st) (hpath : st.path = none)
    (hpr : st.procs[p]? = some ⟨.opening trys, fclock⟩) : CanHold st p := by
  have hstep : lockStep st (.go p) = some (st.create.move p ⟨.created st.nextIno, fclock⟩) := by
    simp only [lockStep, hpr, goProc, hpath]
  have hw : InWindow (st.create.move p ⟨.created st.nextIno, fclock⟩) p st.nextIno :=
    ⟨_, st.create.move_self hpr _, rfl⟩
  exact .step (by simp) hstep (fun r hr => st.create.move_other _ hr) (canHold_window (stamped_inv hs hstep) hw)

/-- after it has unlinked the lock file a process can set the lock -/
theorem canHold_unlinks {st : LockSt} {p : ℕ} (hs : Stamped st) (hu : Unlinks st (.go p)) (hpath : st.path ≠ none) :
    ∃ t, lockStep st (.go p) = some t ∧ CanHold t p ∧ ∀ q, q ≠ p → t.procs[q]? = st.procs[q]? := by
  obtain ⟨⟨pc, fclock⟩, hpr, hpc⟩ := hu
  have hpr : st.procs[p]? = some ⟨pc, fclock⟩ := hpr
  obtain ⟨i, hi⟩ := Option.ne_none_iff_exists'.1 hpath
  cases pc with
  | blasting trys =>
    have hstep : lockStep st (.go p) = some (st.unlink.move p ⟨.opening trys, fclock⟩) := by
      simp only [lockStep, hpr, goProc, hi]
    refine ⟨_, hstep, ?_, fun q hq => st.unlink.move_other _ hq⟩
    exact canHold_opening (stamped_inv hs hstep) rfl (st.unlink.move_self hpr _)
  | releasing =>
    have hstep : lockStep st (.go p) = some (st.unlink.move p ⟨.idle, 0⟩) := by simp only [lockStep, hpr, goProc]
    refine ⟨_, hstep, ?_, fun q hq => st.unlink.move_other _ hq⟩
    have hidle := st.unlink.move_self hpr ⟨.idle, 0⟩
    have hset : lockStep (st.unlink.move p ⟨.idle, 0⟩) (.setlock p) =
        some ((st.unlink.move p ⟨.idle, 0⟩).move p ⟨.opening 0, 0⟩) := by
      simp [lockStep, hidle, LockProc.Outside]
    refine .step (by simp) hset (fun r hr => LockSt.move_other _ _ hr) ?_
    exact canHold_opening (stamped_inv (stamped_inv hs hstep) hset) rfl (LockSt.move_self hidle _)
  | _ => exact hpc.elim

/-- an unlink that removes the lock file of a process in its window, and steps after it in which the clock stands still,
to a state in which two processes hold the lock -/
theorem unsafe_unlink_continues {st : LockSt} {p q i : ℕ} (hs : Stamped st) (hu : Unlinks st (.go p))
    (hq : InWindow st q i) (hpath : st.path = some i) :
    ∃ ops t, (∀ op ∈ ops, ∀ d, op ≠ .tick d) ∧ Runs.run lockStep st (.go p :: ops) = some t ∧ ¬Mutex t := by
  obtain ⟨prq, hprq, hw⟩ := hq
  have hqp : q ≠ p := by
    rintro rfl
    obtain ⟨pr, hpr, hpc⟩ := hu
    obtain rfl : prq = pr := Option.some.inj (hprq.symm.trans hpr)
    obtain ⟨pc, fclock⟩ := prq
    cases pc with
    | blasting trys => cases hw
    | releasing => cases hw
    | _ => exact hpc.elim
  obtain ⟨t, hstep, ⟨ops₁, u, htick₁, hrun₁, hp, hother₁⟩, hother⟩ := canHold_unlinks hs hu (by simp [hpath])
  have ht : Stamped t := stamped_inv hs hstep
  have hsu : Stamped u := (Runs.always_of_step (fun _ _ _ hI h => stamped_inv hI h) ops₁ ht).run hrun₁
  have hqu : u.procs[q]? = some prq := by rw [hother₁ q hqp, hother q hqp, hprq]
  obtain ⟨ops₂, v, htick₂, hrun₂, hqv, hother₂⟩ := canHold_window hsu ⟨prq, hqu, hw⟩
  refine ⟨ops₁ ++ ops₂, v, ?_, ?_, fun hmutex => ?_⟩
  · intro op hop
    rcases List.mem_append.1 hop with hop | hop
    · exact htick₁ op hop
    · exact htick₂ op hop
  · rw [Runs.run_cons, hstep, Option.bind_some, Runs.run_append, hrun₁, Option.bind_some, hrun₂]
  · obtain ⟨a, ha, hholds⟩ := hp
    obtain ⟨b, hb, hholdsq⟩ := hqv
    have hav : v.procs[p]? = some a := by rw [hother₂ p hqp.symm, ha]
    exact hqp (hmutex q p b a hb hav hholdsq hholds)

/-- **An unsafe unlink breaks the lock.** A run whose next step is an unlink of the lock file of a process in its
window, and in which every holder has called `unlock` in time so far, goes on, with every holder still in time, to a
state in which two processes hold the lock. -/
theorem unsafe_unlink_breaks (st₀ st : LockSt) (ops : List LockOp) (p q i : ℕ) (h0 : st₀.Quiet) (hclock : 0 < st₀.clock)
    (hrun : Runs.run lockStep st₀ ops = some st) (hprompt : Runs.Always lockStep PromptUnlock st₀ ops)
    (hu : Unlinks st (.go p)) (hq : InWindow st q i) (hpath : st.path = some i) :
    ∃ more, Runs.Always lockStep PromptUnlock st₀ (ops ++ .go p :: more) ∧
      ¬Runs.Always lockStep Mutex st₀ (ops ++ .go p :: more) := by
  have hs : Stamped st :=
    (Runs.always_of_step (fun _ _ _ hI h => stamped_inv hI h) ops (h0.stamped hclock)).run hrun
  obtain ⟨more, t, htick, ht, hmutex⟩ := unsafe_unlink_continues hs hu hq hpath
  have htick' : ∀ op ∈ LockOp.go p :: more, ∀ d, op ≠ .tick d := by
    intro op hop
    rcases List.mem_cons.1 hop with rfl | hop
    · simp
    · exact htick op hop
  refine ⟨more, hprompt.append hrun ?_, fun hall => hmutex (hall.run ?_)⟩
  · exact Runs.always_of_along (fun _ _ _ hI hop h => prompt_inv hI hop h) (hprompt.run hrun)
      (Runs.along_of_forall_mem st htick')
  · rw [Runs.run_append, hrun, Option.bind_some, ht]

/-! ## A lock broken under its holder -/

/-- three idle processes, no lock file, at time 1000 -/
def threeIdle : LockSt := ⟨1000, none, fun _ => 0, 0, List.replicate 3 ⟨.idle, 0⟩⟩

/-- one process after the other sets the lock and releases it -/
def takeTurns : List LockOp :=
  [.setlock 0, .go 0, .go 0, .setlock 1, .go 1, .go 1, .unlock 0, .go 0, .go 0, .go 1, .tick 3, .go 1, .go 1]

/-- process 0 has found its lock file to be its own, and is slow to unlink it; process 1 breaks the lock as too old and
sets it; then process 0 unlinks the lock file of process 1, and process 2 sets the lock too -/
def slowRelease : List LockOp :=
  [.setlock 0, .go 0, .go 0, .unlock 0, .go 0, .tick 301, .setlock 1, .go 1, .go 1, .go 1, .go 1, .go 1, .go 1,
    .go 0, .setlock 2, .go 2, .go 2]

theorem mutual_exclusion_takeTurns : threeIdle.Quiet ∧ Runs.Along lockStep SafeUnlink threeIdle takeTurns ∧
    Runs.Always lockStep Mutex threeIdle takeTurns :=
  ⟨by decide, by decide, mutual_exclusion threeIdle takeTurns (by decide) (by decide)⟩

/-- every holder calls `unlock` at once, and two processes hold the lock -/
theorem late_unlink : threeIdle.Quiet ∧ Runs.Always lockStep PromptUnlock threeIdle slowRelease ∧
    ¬Runs.Always lockStep Mutex threeIdle slowRelease := by
  refine ⟨by decide, by decide, fun h => ?_⟩
  have hrun : ((Runs.run lockStep threeIdle slowRelease).map LockSt.procs) =
      some [⟨.idle, 0⟩, ⟨.holding 1 1301, 1301⟩, ⟨.holding 2 1301, 1301⟩] := by decide
  obtain ⟨t, ht, hprocs⟩ := Option.map_eq_some_iff.1 hrun
  have hmutex := h.run ht 1 2 ⟨.holding 1 1301, 1301⟩ ⟨.holding 2 1301, 1301⟩
  rw [hprocs] at hmutex
  exact absurd (hmutex rfl rfl (by decide) (by decide)) (by decide)

end MNetSoft.Bank
