/-
The lock directories of `pnewuser`: any number of sessions that ask for any logins, interleaved by any scheduler at the
calls that touch the directories. `confirm_and_create` catches a recoverable error wherever in the turn it is raised,
by a `mkdir` that has failed or behind one that has not, and unlocks the directory of its lock directory object.
`unlock` empties the directory, removes it as the last that `finddepth` comes to, and removes it again.

Each directory has, as a ghost, the session that has made it; the state has the windows (the sessions that have made the
directory of a login and have not removed it themselves) and what has been removed by whom.

- `inv_step`: as long as nobody has removed a directory of another session, the windows are the owners of the
  directories there are.
- `safe_iff`: the lock is safe exactly when no `rmdir` of a session outside its window finds an empty directory.
- `held_always`: a session behind its `mkdir` has the login in its window, so it comes to an `rmdir` outside of it only
  when `mkdir` has failed, when the prompt has raised an error, or when it has removed the directory already.
- `collision_unlocks`: two sessions that ask for one login.
-/
import Mathlib.Tactic
import Mathlib.Logic.Function.Basic
import MNetSoft.Core.Runs
import MNetSoft.Pnewuser.Session

namespace MNetSoft.Pnewuser.LoginLock

open MNetSoft.CString
open MNetSoft.Runs

/-! ## Model -/

/-- a lock directory: who has made it, and whether there is nothing in it -/
structure LockDir where
  owner : ℕ
  empty : Bool
deriving DecidableEq, Repr

/-- where a session is; `again` says whether it goes on with a new turn -/
inductive Pc where
  | confirm
  | lock
  | copying
  | create_plan
  | create_and_send_mail
  | clearing (again : Bool)
  | finding (again : Bool)
  | removing (again : Bool)
  | ended
deriving DecidableEq, Repr

/-- a session: its current login, and the base name of its lock directory object -/
structure Proc where
  pc : Pc
  login : Str
  lockdir : Option Str
deriving DecidableEq, Repr

structure Removal where
  remover : ℕ
  owner : ℕ
  login : Str
deriving DecidableEq, Repr

structure St where
  dirs : Str → Option LockDir
  procs : ℕ → Proc
  window : ℕ → Str → Bool
  removed : List Removal

/-- a session's next step, and what becomes of it -/
inductive Act where
  /-- the prompt is left with a login, or with an error -/
  | confirm (p : ℕ) (login : Str) (err : Option Err)
  /-- `mkdir`, which may also fail for a reason of its own -/
  | mkdir (p : ℕ) (ok : Bool)
  /-- something of the skeleton is copied -/
  | copy (p : ℕ)
  | copied (p : ℕ)
  | create_plan (p : ℕ) (ok : Bool)
  /-- the account is created, or an error is raised: by `nuseradd`, by its quotas, by the mail -/
  | create_and_send_mail (p : ℕ) (err : Option Err)
  /-- `finddepth` removes what it finds in the directory; not all, if others put more there -/
  | clear (p : ℕ) (all : Bool)
  /-- `finddepth` comes to the directory itself -/
  | find (p : ℕ)
  /-- `rmdir($lockdir)` -/
  | rmdir (p : ℕ)
  /-- the process is killed, or ended by an error of no account -/
  | kill (p : ℕ)
deriving DecidableEq, Repr

def init : St := ⟨fun _ => none, fun _ => ⟨.confirm, [], none⟩, fun _ _ => false, []⟩

namespace St

variable (s : St) (p : ℕ)

def move (q : Proc) : St := { s with procs := Function.update s.procs p q }

def goto (pc : Pc) : St := s.move p { s.procs p with pc := pc }

/-- the name that the session's lock directory object stands for -/
def name : Str := (s.procs p).lockdir.getD []

/-- something is put into the directory of a login, if there is one -/
def put (login : Str) : St :=
  { s with dirs := Function.update s.dirs login ((s.dirs login).map fun d => { d with empty := false }) }

/-- an error is caught or not; without a lock directory object there is nothing to unlock -/
def raised (e : Err) : St :=
  s.goto p (if retries e && (s.procs p).lockdir.isSome then .clearing true else .ended)

/-- `rmdir` by a session: a directory that is not empty stays -/
def remove (login : Str) : St :=
  match s.dirs login with
  | some d =>
    if d.empty then
      { s with
        dirs := Function.update s.dirs login none
        window := Function.update s.window p (Function.update (s.window p) login false)
        removed := s.removed ++ [⟨p, d.owner, login⟩] }
    else s
  | none => s

end St

/-- a step of a session, if that is where the session is -/
def step (s : St) : Act → Option St
  | .confirm p login err =>
    if (s.procs p).pc ≠ .confirm then none
    else
      let s := s.move p { s.procs p with login := login }
      match err with
      | none => some (s.goto p .lock)
      | some e => some (s.raised p e)
  | .mkdir p ok =>
    if (s.procs p).pc ≠ .lock then none
    else
      let login := (s.procs p).login
      let s := s.move p { s.procs p with lockdir := some login }
      if (s.dirs login).isNone && ok then
        some (St.goto { s with
          dirs := Function.update s.dirs login (some ⟨p, true⟩)
          window := Function.update s.window p (Function.update (s.window p) login true) } p .copying)
      else some (s.raised p (.die CANT_LOCK))
  | .copy p => if (s.procs p).pc ≠ .copying then none else some (s.put (s.name p))
  | .copied p => if (s.procs p).pc ≠ .copying then none else some (s.goto p .create_plan)
  | .create_plan p ok =>
    if (s.procs p).pc ≠ .create_plan then none
    else if (s.dirs (s.name p)).isSome && ok then some ((s.put (s.name p)).goto p .create_and_send_mail)
    else some (s.raised p (.die CANT_OPEN))
  | .create_and_send_mail p err =>
    if (s.procs p).pc ≠ .create_and_send_mail then none
    else
      match err with
      | none => some (s.goto p (.clearing false))
      | some e => some (s.raised p e)
  | .clear p all =>
    match (s.procs p).pc with
    | .clearing again =>
      let login := s.name p
      let s := if all then
          { s with dirs := Function.update s.dirs login ((s.dirs login).map fun d => { d with empty := true }) }
        else s
      some (s.goto p (.finding again))
    | _ => none
  | .find p =>
    match (s.procs p).pc with
    | .finding again => some ((s.remove p (s.name p)).goto p (.removing again))
    | _ => none
  | .rmdir p =>
    match (s.procs p).pc with
    | .removing again => some ((s.remove p (s.name p)).goto p (if again then .confirm else .ended))
    | _ => none
  | .kill p => if (s.procs p).pc = .ended then none else some (s.goto p .ended)

/-! ## What should hold, and when it does -/

/-- nobody has removed a directory that another session has made -/
def Clean (s : St) : Prop := ∀ r ∈ s.removed, r.remover = r.owner

/-- nor are two sessions between their `mkdir` and their own removal of the directory of one login -/
structure Safe (s : St) : Prop where
  clean : Clean s
  one : ∀ login p q, s.window p login = true → s.window q login = true → p = q

/-- an `rmdir` outside the session's window finds no empty directory -/
def Harmless (s : St) : Act → Prop
  | .find p | .rmdir p => s.window p (s.name p) = false → ∀ d ∈ s.dirs (s.name p), d.empty = false
  | _ => True

/-- the windows are the owners of the directories there are -/
def Owned (s : St) : Prop := ∀ p login, s.window p login = true ↔ ∃ d, s.dirs login = some d ∧ d.owner = p

/-- as long as nothing of another session has been removed -/
def Inv (s : St) : Prop := Clean s → Owned s

/-! ## What a step can do -/

/-- the directories have the same owners, the sessions the same windows -/
structure Same (s t : St) : Prop where
  owner : ∀ login, (t.dirs login).map LockDir.owner = (s.dirs login).map LockDir.owner
  window : t.window = s.window
  removed : t.removed = s.removed

variable {s t : St} {a : Act}

theorem Same.refl (s : St) : Same s s := ⟨fun _ => rfl, rfl, rfl⟩

theorem Same.trans {u : St} (h : Same s t) (ht : Same t u) : Same s u :=
  ⟨fun login => (ht.owner login).trans (h.owner login), ht.window.trans h.window, ht.removed.trans h.removed⟩

/-- moving a session does nothing to the directories -/
theorem same_move (s : St) (p : ℕ) (q : Proc) : Same s (s.move p q) := ⟨fun _ => rfl, rfl, rfl⟩

theorem same_goto (s : St) (p : ℕ) (pc : Pc) : Same s (s.goto p pc) := same_move s p _

theorem same_raised (s : St) (p : ℕ) (e : Err) : Same s (s.raised p e) := same_goto s p _

/-- neither does what is put into a directory, or taken out of it -/
theorem same_content (s : St) (login : Str) (empty : Bool) :
    Same s { s with dirs := Function.update s.dirs login ((s.dirs login).map fun d => { d with empty := empty }) } := by
  refine ⟨fun other => ?_, rfl, rfl⟩
  rcases eq_or_ne other login with rfl | hne
  · simp only [Function.update_self, Option.map_map]
    rfl
  · simp only [Function.update_of_ne hne]

/-- the directory is made -/
def Makes (s : St) (p : ℕ) (login : Str) (t : St) : Prop :=
  s.dirs login = none ∧ t.dirs = Function.update s.dirs login (some ⟨p, true⟩) ∧
    t.window = Function.update s.window p (Function.update (s.window p) login true) ∧ t.removed = s.removed

/-- **What a step can do** to the directories and the windows: nothing, make a directory, or remove one. -/
theorem step_cases (h : step s a = some t) :
    (Same s t ∧ (∀ p, a ≠ .find p ∧ a ≠ .rmdir p)) ∨ (∃ p login ok, a = .mkdir p ok ∧ Makes s p login t) ∨
      (∃ p, (a = .find p ∨ a = .rmdir p) ∧ Same (s.remove p (s.name p)) t) := by
  cases a with
  | confirm p login err =>
    simp only [step] at h
    split_ifs at h
    refine .inl ⟨?_, by simp⟩
    have hmove := same_move s p { s.procs p with login := login }
    cases err with
    | none =>
      cases h
      exact hmove.trans (same_goto _ p _)
    | some e =>
      cases h
      exact hmove.trans (same_raised _ p e)
  | mkdir p ok =>
    simp only [step] at h
    split_ifs at h with hpc hfree
    · cases h
      rw [Bool.and_eq_true, Option.isNone_iff_eq_none] at hfree
      exact .inr (.inl ⟨p, _, ok, rfl, hfree.1, rfl, rfl, rfl⟩)
    · cases h
      exact .inl ⟨(same_move s p _).trans (same_raised _ p _), by simp⟩
  | copy p =>
    simp only [step] at h
    split_ifs at h
    cases h
    exact .inl ⟨same_content s _ false, by simp⟩
  | copied p =>
    simp only [step] at h
    split_ifs at h
    cases h
    exact .inl ⟨same_goto s p _, by simp⟩
  | create_plan p ok =>
    simp only [step] at h
    split_ifs at h
    · cases h
      exact .inl ⟨(same_content s _ false).trans (same_goto _ p _), by simp⟩
    · cases h
      exact .inl ⟨same_raised s p _, by simp⟩
  | create_and_send_mail p err =>
    simp only [step] at h
    split_ifs at h
    cases err with
    | none =>
      cases h
      exact .inl ⟨same_goto s p _, by simp⟩
    | some e =>
      cases h
      exact .inl ⟨same_raised s p e, by simp⟩
  | clear p all =>
    simp only [step] at h
    split at h
    · cases h
      refine .inl ⟨?_, by simp⟩
      cases all with
      | true => exact (same_content s _ true).trans (same_goto _ p _)
      | false => exact same_goto s p _
    · cases h
  | find p =>
    simp only [step] at h
    split at h
    · cases h
      exact .inr (.inr ⟨p, .inl rfl, same_goto _ p _⟩)
    · cases h
  | rmdir p =>
    simp only [step] at h
    split at h
    · cases h
      exact .inr (.inr ⟨p, .inr rfl, same_goto _ p _⟩)
    · cases h
  | kill p =>
    simp only [step] at h
    split_ifs at h
    cases h
    exact .inl ⟨same_goto s p _, by simp⟩

/-! ## The invariant -/

theorem Same.clean (h : Same s t) : Clean t ↔ Clean s := by rw [Clean, Clean, h.removed]

theorem Same.owned (h : Same s t) : Owned t ↔ Owned s := by
  have howner : ∀ (u : St) p login, (∃ d, u.dirs login = some d ∧ d.owner = p) ↔
      (u.dirs login).map LockDir.owner = some p := by
    intro u p login
    rw [Option.map_eq_some_iff]
  simp only [Owned, howner, h.window, h.owner]

/-- what a session has in its window when it gains or loses a login, and what the others have -/
theorem window_update (w : ℕ → Str → Bool) (p q : ℕ) (login other : Str) (b : Bool) :
    Function.update w p (Function.update (w p) login b) q other = if q = p ∧ other = login then b else w q other := by
  rcases eq_or_ne q p with rfl | hq
  · rcases eq_or_ne other login with rfl | hl
    · simp
    · simp [hl]
  · simp [hq]

/-- one directory and one session's window are changed: it is enough that they fit each other -/
theorem Owned.update (hs : Owned s) {p : ℕ} {login : Str} {d : Option LockDir} {b : Bool}
    (hdirs : t.dirs = Function.update s.dirs login d)
    (hwindow : t.window = Function.update s.window p (Function.update (s.window p) login b))
    (hlogin : ∀ q, (if q = p then b else s.window q login) = true ↔ ∃ d', d = some d' ∧ d'.owner = q) : Owned t := by
  intro q other
  rw [hwindow, window_update, hdirs]
  rcases eq_or_ne other login with rfl | hl
  · rw [Function.update_self]
    simpa only [and_true] using hlogin q
  · rw [Function.update_of_ne hl, if_neg fun h => hl h.2]
    exact hs q other

/-- a directory that is made is in the window of its maker -/
theorem Makes.owned {p : ℕ} {login : Str} (h : Makes s p login t) (hs : Owned s) : Owned t := by
  obtain ⟨hfree, hdirs, hwindow, -⟩ := h
  refine hs.update hdirs hwindow fun q => ?_
  simp only [Option.some.injEq, exists_eq_left']
  split_ifs with hq
  · exact iff_of_true rfl hq.symm
  · -- the name was free, so nobody had it in its window
    refine iff_of_false (fun hw => ?_) fun hp => hq hp.symm
    obtain ⟨d, hd, -⟩ := (hs q login).1 hw
    rw [hfree] at hd
    cases hd

/-- a removal that does nothing, or takes an empty directory away -/
theorem remove_cases (s : St) (p : ℕ) (login : Str) :
    ((∀ d ∈ s.dirs login, d.empty = false) ∧ s.remove p login = s) ∨
      ∃ d, s.dirs login = some d ∧ d.empty = true ∧ s.remove p login =
        { s with
          dirs := Function.update s.dirs login none
          window := Function.update s.window p (Function.update (s.window p) login false)
          removed := s.removed ++ [⟨p, d.owner, login⟩] } := by
  rw [St.remove]
  cases hd : s.dirs login with
  | none => exact .inl ⟨fun d h => (by cases h), rfl⟩
  | some d =>
    cases hempty : d.empty with
    | false => exact .inl ⟨fun d' h => (by cases h; exact hempty), by simp [hempty]⟩
    | true => exact .inr ⟨d, rfl, hempty, by simp [hempty]⟩

/-- taking away its own directory takes the login out of a session's window -/
theorem remove_owned (hs : Owned s) {p : ℕ} {login : Str} {d : LockDir} (hd : s.dirs login = some d)
    (hown : d.owner = p) (hdirs : t.dirs = Function.update s.dirs login none)
    (hwindow : t.window = Function.update s.window p (Function.update (s.window p) login false)) : Owned t := by
  refine hs.update hdirs hwindow fun q => ?_
  refine iff_of_false ?_ fun ⟨d, hd, _⟩ => by cases hd
  split_ifs with hq
  · exact not_false
  · intro hw
    obtain ⟨d', hd', hown'⟩ := (hs q login).1 hw
    rw [hd] at hd'
    cases hd'
    exact hq (hown'.symm.trans hown)

/-- a removal keeps the windows the owners, unless it is a foreign one -/
theorem remove_inv (hs : Inv s) (p : ℕ) (login : Str) : Inv (s.remove p login) := by
  rcases remove_cases s p login with ⟨-, hkeep⟩ | ⟨d, hd, -, hremove⟩
  · rw [hkeep]
    exact hs
  · rw [hremove]
    intro hclean
    have hown : p = d.owner := hclean ⟨p, d.owner, login⟩ (List.mem_append_right _ (List.mem_singleton_self _))
    have hbefore : Clean s := fun r hr => hclean r (List.mem_append_left _ hr)
    exact remove_owned (hs hbefore) hd hown.symm rfl rfl

theorem inv_step (hs : Inv s) (h : step s a = some t) : Inv t := by
  rcases step_cases h with ⟨hsame, -⟩ | ⟨p, login, ok, -, hmakes⟩ | ⟨p, -, hsame⟩
  · exact fun hclean => hsame.owned.2 (hs (hsame.clean.1 hclean))
  · refine fun hclean => hmakes.owned (hs fun r hr => hclean r ?_)
    rw [hmakes.2.2.2]
    exact hr
  · exact fun hclean => hsame.owned.2 (remove_inv hs p _ (hsame.clean.1 hclean))

theorem inv_init : Inv init := fun _ p login =>
  iff_of_false Bool.false_ne_true fun ⟨d, hd, _⟩ => by cases hd

/-- where the windows are the owners, a login is in one window -/
theorem Owned.one (h : Owned s) (login : Str) (p q : ℕ) (hp : s.window p login = true) (hq : s.window q login = true) :
    p = q := by
  obtain ⟨d, hd, rfl⟩ := (h p login).1 hp
  obtain ⟨d', hd', rfl⟩ := (h q login).1 hq
  rw [hd] at hd'
  cases hd'
  rfl

theorem safe_iff_clean (h : Inv s) : Safe s ↔ Clean s := ⟨fun hs => hs.clean, fun hs => ⟨hs, (h hs).one⟩⟩

/-! ## Who is in its window -/

/-- behind its `mkdir`, a session has the login in its window -/
def Held (s : St) : Prop :=
  ∀ p, (s.procs p).pc = .copying ∨ (s.procs p).pc = .create_plan ∨ (s.procs p).pc = .create_and_send_mail →
    s.window p (s.name p) = true

@[simp] theorem move_self (s : St) (p : ℕ) (q : Proc) : (s.move p q).procs p = q := Function.update_self ..

@[simp] theorem goto_self (s : St) (p : ℕ) (pc : Pc) : (s.goto p pc).procs p = { s.procs p with pc := pc } :=
  Function.update_self ..

@[simp] theorem goto_name (s : St) (p : ℕ) (pc : Pc) : (s.goto p pc).name p = s.name p := by
  simp only [St.name, goto_self]

/-- a step of `p` leaves the other sessions and their windows alone -/
def Frame (p : ℕ) (s t : St) : Prop := ∀ q, q ≠ p → t.procs q = s.procs q ∧ t.window q = s.window q

theorem frame_move (s : St) (p : ℕ) (q : Proc) : Frame p s (s.move p q) :=
  fun _ hr => ⟨Function.update_of_ne hr .., rfl⟩

theorem Frame.trans {p : ℕ} {u : St} (h : Frame p s t) (ht : Frame p t u) : Frame p s u :=
  fun q hq => ⟨(ht q hq).1.trans (h q hq).1, (ht q hq).2.trans (h q hq).2⟩

theorem frame_remove (s : St) (p : ℕ) (login : Str) : Frame p s (s.remove p login) := by
  intro q hq
  rcases remove_cases s p login with ⟨-, h⟩ | ⟨d, -, -, h⟩
  · rw [h]
    exact ⟨rfl, rfl⟩
  · rw [h]
    exact ⟨rfl, Function.update_of_ne hq ..⟩

/-- it is enough to look at the session that takes the step -/
theorem Held.of_frame (hs : Held s) {p : ℕ} (hframe : Frame p s t)
    (hself : (t.procs p).pc = .copying ∨ (t.procs p).pc = .create_plan ∨ (t.procs p).pc = .create_and_send_mail →
      t.window p (t.name p) = true) : Held t := by
  intro q hq
  by_cases hqp : q = p
  · subst hqp
    exact hself hq
  · obtain ⟨hproc, hwindow⟩ := hframe q hqp
    rw [hwindow, St.name, hproc]
    rw [hproc] at hq
    exact hs q hq

/-- an error takes the session away from the creation of its account -/
theorem raised_pc (s : St) (p : ℕ) (e : Err) :
    ¬ (((s.raised p e).procs p).pc = .copying ∨ ((s.raised p e).procs p).pc = .create_plan ∨
      ((s.raised p e).procs p).pc = .create_and_send_mail) := by
  rw [St.raised, goto_self]
  split_ifs
  · simp
  · simp

theorem held_step (hs : Held s) (h : step s a = some t) : Held t := by
  cases a with
  | confirm p login err =>
    simp only [step] at h
    split_ifs at h
    cases err with
    | none =>
      cases h
      exact hs.of_frame ((frame_move s p _).trans (frame_move _ p _)) fun hpc => by simp at hpc
    | some e =>
      cases h
      exact hs.of_frame ((frame_move s p _).trans (frame_move _ p _)) fun hpc => absurd hpc (raised_pc _ p e)
  | mkdir p ok =>
    simp only [step] at h
    split_ifs at h
    · cases h
      refine hs.of_frame (p := p) (fun q hq => ⟨?_, Function.update_of_ne hq ..⟩) fun _ => ?_
      · simp [St.goto, St.move, hq]
      · simp [St.goto, St.move, St.name]
    · cases h
      exact hs.of_frame ((frame_move s p _).trans (frame_move _ p _)) fun hpc => absurd hpc (raised_pc _ p _)
  | copy p =>
    simp only [step] at h
    split_ifs at h
    cases h
    exact hs
  | copied p =>
    simp only [step] at h
    split_ifs at h with hpc
    cases h
    have hwindow := hs p (.inl (not_not.1 hpc))
    exact hs.of_frame (frame_move s p _) fun _ => by rwa [goto_name]
  | create_plan p ok =>
    simp only [step] at h
    split_ifs at h with hpc
    · cases h
      have hwindow := hs p (.inr (.inl (not_not.1 hpc)))
      exact hs.of_frame (p := p) (frame_move _ p _) fun _ => by rwa [goto_name]
    · cases h
      exact hs.of_frame (frame_move _ p _) fun hpc => absurd hpc (raised_pc _ p _)
  | create_and_send_mail p err =>
    simp only [step] at h
    split_ifs at h
    cases err with
    | none =>
      cases h
      exact hs.of_frame (frame_move _ p _) fun hpc => by simp at hpc
    | some e =>
      cases h
      exact hs.of_frame (frame_move _ p _) fun hpc => absurd hpc (raised_pc _ p e)
  | clear p all =>
    simp only [step] at h
    split at h
    · cases h
      cases all with
      | true => exact hs.of_frame (p := p) (frame_move _ p _) fun hpc => by simp at hpc
      | false => exact hs.of_frame (frame_move _ p _) fun hpc => by simp at hpc
    · cases h
  | find p =>
    simp only [step] at h
    split at h
    · cases h
      exact hs.of_frame ((frame_remove s p _).trans (frame_move _ p _)) fun hpc => by simp at hpc
    · cases h
  | rmdir p =>
    simp only [step] at h
    split at h
    · cases h
      refine hs.of_frame ((frame_remove s p _).trans (frame_move _ p _)) fun hpc => ?_
      rw [goto_self] at hpc
      split_ifs at hpc
      · simp at hpc
      · simp at hpc
    · cases h
  | kill p =>
    simp only [step] at h
    split_ifs at h
    cases h
    exact hs.of_frame (frame_move _ p _) fun hpc => by simp at hpc

/-- **Whoever is behind its `mkdir` has the login in its window**, in every run. -/
theorem held_always (as : List Act) : Always step Held init as :=
  always_of_step (fun s a t hs h => held_step hs h) as fun p hp => by simp [init] at hp

/-! ## When a step keeps the lock safe -/

/-- a removal is of the session's own directory exactly when it has the login in its window -/
theorem remove_clean_iff (hs : Inv s) (hclean : Clean s) (p : ℕ) (login : Str) :
    Clean (s.remove p login) ↔ (s.window p login = false → ∀ d ∈ s.dirs login, d.empty = false) := by
  rcases remove_cases s p login with ⟨hfull, hkeep⟩ | ⟨d, hd, hempty, hremove⟩
  · rw [hkeep]
    exact iff_of_true hclean fun _ => hfull
  · rw [hremove]
    constructor
    · intro hc hwindow
      have hown : p = d.owner := hc ⟨p, d.owner, login⟩ (List.mem_append_right _ (List.mem_singleton_self _))
      have hin := (hs hclean p login).2 ⟨d, hd, hown.symm⟩
      rw [hwindow] at hin
      cases hin
    · intro hwindow r hr
      rcases List.mem_append.1 hr with hr | hr
      · exact hclean r hr
      · rw [List.mem_singleton.1 hr]
        by_contra hforeign
        have hout : s.window p login = false := by
          rw [← Bool.not_eq_true, hs hclean p login]
          intro h
          rcases h with ⟨d', hd', hown⟩
          rw [hd] at hd'
          cases hd'
          exact hforeign hown.symm
        have hfull := hwindow hout d hd
        rw [hempty] at hfull
        cases hfull

/-- **A step keeps the lock safe exactly when it is harmless.** -/
theorem safe_step (hs : Inv s) (hsafe : Safe s) (h : step s a = some t) : Safe t ↔ Harmless s a := by
  rw [safe_iff_clean (inv_step hs h)]
  rcases step_cases h with ⟨hsame, hother⟩ | ⟨p, login, ok, rfl, hmakes⟩ | ⟨p, rfl | rfl, hsame⟩
  · refine iff_of_true (hsame.clean.2 hsafe.clean) ?_
    cases a with
    | find p => exact absurd rfl (hother p).1
    | rmdir p => exact absurd rfl (hother p).2
    | _ => trivial
  · refine iff_of_true (fun r hr => hsafe.clean r ?_) trivial
    rw [← hmakes.2.2.2]
    exact hr
  · exact hsame.clean.trans (remove_clean_iff hs hsafe.clean p _)
  · exact hsame.clean.trans (remove_clean_iff hs hsafe.clean p _)

/-- **The login lock**, for any number of sessions, any logins and any interleaving. -/
theorem safe_iff (as : List Act) : Always step Safe init as ↔ Along step Harmless init as := by
  have hstart : Safe init := ⟨fun r hr => absurd hr List.not_mem_nil, fun _ _ _ h => absurd h Bool.false_ne_true⟩
  exact always_iff_along_of_inv (fun s a t hI h => inv_step hI h) (fun s a t hI hsafe h => safe_step hI hsafe h) as
    inv_init hstart

/-- **Two sessions ask for one login.** The second cannot make the directory, and removes it. -/
theorem collision_unlocks :
    ¬ Always step Safe init [.confirm 1 ['a'] none, .mkdir 1 true, .confirm 2 ['a'] none, .mkdir 2 true, .clear 2 true,
      .find 2] := by
  intro h
  have hlast := (h.2 _ rfl |>.2 _ rfl |>.2 _ rfl |>.2 _ rfl |>.2 _ rfl |>.2 _ rfl).head
  have hforeign := hlast.clean ⟨2, 1, ['a']⟩ (by decide)
  cases hforeign

end MNetSoft.Pnewuser.LoginLock
