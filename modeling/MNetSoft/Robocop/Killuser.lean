/-
How robocop kills all processes of a user that has too many (`killuser.c`), or lists them in its log file
(`loguser.c`). A fork bomb makes new processes while its processes are killed, so the process table is read again and
again, until nothing has been found to kill three times in a row.

The kernel is a parameter: what it answers may depend on everything done before, which is the trace. Where the table
cannot be read, and where the user is one of the system, `killuser` returns with the priority it has given itself.
- `killProcs_spec`: what is killed of one reading of the table.
- `passLoop_spec`: the readings, and why there are no more.
- `killuser_waves`: whom `killuser` kills, in any world.
-/
import Mathlib.Tactic
import MNetSoft.Core.Traces
import MNetSoft.Robocop.Orphline
import MNetSoft.Robocop.Scan

namespace MNetSoft.Robocop

open MNetSoft.CString MNetSoft.Numerals MNetSoft.Effects MNetSoft.Traces

/-! ## Model -/

/-- `SOFTKILL` and `HARDKILL` -/
inductive Kill where
  | soft
  | hard
deriving DecidableEq, Repr

/-- what robocop does that can be seen from outside -/
inductive Event where
  /-- the process table, or the part with a real user -/
  | getprocs (ruid : Option uid_t)
  | kill (pid : pid_t) (sig : Kill)
  | nice (inc : ℤ)
  | snooze (secs : ℤ) (always : Bool)
  | openUtmp
  | stat (path : Str)
  | log (text : Str)
  | flush
deriving DecidableEq

/-- how robocop ends: by `exit(1)`, or in undefined behaviour -/
inductive Stop where
  | exit
  | undefined
deriving DecidableEq

abbrev Robo := Tr Stop Event

/-- what else the kernel tells of a process -/
structure Kproc extends Kinfo where
  p_rgid : BitVec 32
  /-- the pages of text, data and stack -/
  p_vm : ℤ
  /-- `P_ZOMBIE` -/
  zombie : Bool
  /-- the text of the error if the arguments cannot be read -/
  geterr : Str

/-- the answers of the kernel, from the trace before them -/
structure Kernel where
  /-- a table, or the text of an error -/
  getprocs : List Event → Except Str (List Kproc)
  /-- 0 is returned -/
  nice : List Event → Bool
  kill : List Event → Bool
  kperpage : ℤ

def MAX_KILL_PASS : ℕ := 45

def MIN_KILL_UID : ℕ := 131072

def KI_MAXCOMLEN : ℕ := 24

/-- the line of a process in the log file -/
def logproc (kperpage : ℤ) (pr : Kproc) : Str :=
  " PID=".toList ++ printInt pr.p_pid.toInt ++ " UID=".toList ++ printInt pr.p_ruid.toInt ++ ['('] ++ pr.p_login ++
    ") MEM=".toList ++ printInt (pr.p_vm * kperpage) ++ "K (".toList ++ pr.p_comm.take KI_MAXCOMLEN ++ ") ".toList ++
    (match pr.argv with
      | none => "Logproc failed to get command line for process ".toList ++ printInt pr.p_pid.toInt ++ " (".toList ++
          pr.geterr ++ ")\n".toList
      | some arg => List.intercalate [' '] arg) ++ ['\n']

/-- the process may be killed: not one of the first two, and alive -/
def killable (pr : Kproc) : Bool := 2 ≤ pr.p_pid.toInt && !pr.zombie

section Killuser

variable (w : Kernel)

/-- a line of the log file, if there is one -/
def logLine (log : Bool) (text : Str) : Robo PUnit := if log then emit (.log text) else pure ⟨⟩

/-- the loop over the processes of one reading; the number of those killed -/
def killProcs (log : Bool) (pass : ℕ) : List Kproc → ℕ → Robo ℕ
  | [], nkill => pure nkill
  | pr :: procs, nkill =>
    if killable pr then do
      -- only on the first pass
      logLine (log && pass == 0) (logproc w.kperpage pr)
      emit (.kill pr.p_pid .hard)
      killProcs log pass procs (nkill + 1)
    else killProcs log pass procs nkill

def flush (log : Bool) : Robo PUnit := if log then emit .flush else pure ⟨⟩

/-- the normal priority -/
def restore (amnice : Bool) : Robo PUnit := if amnice then emit (.nice 10) else pure ⟨⟩

/-- every three passes the priority is given back for a second -/
def relax (pass : ℕ) (amnice : Bool) : Robo Bool :=
  if pass % 3 = 2 then do
    restore amnice
    emit (.snooze 1 true)
    emit (.nice (-10))
    answer w.nice
  else pure amnice

/-- the passes that are left: the number of the last one, and whether the priority is still up; nothing if the table
cannot be read -/
def passLoop (log : Bool) (target_uid : uid_t) : ℕ → ℕ → ℕ → Bool → Robo (Option (ℕ × Bool))
  | 0, pass, _, amnice => pure (some (pass, amnice))
  | left + 1, pass, cleanpass, amnice => do
    emit (.getprocs (some target_uid))
    match ← answer w.getprocs with
    | .error geterr =>
      logLine log ("Failed to get process list for uid ".toList ++ printInt target_uid.toInt ++
        " while killing (".toList ++ geterr ++ ")\n".toList)
      pure none
    | .ok procs => do
      let nkill ← killProcs w log pass procs 0
      if nkill = 0 ∧ cleanpass + 1 = 3 then pure (some (pass, amnice))
      else do
        let amnice ← relax w pass amnice
        passLoop log target_uid left (pass + 1) (if nkill = 0 then cleanpass + 1 else 0) amnice

def killuser (log : Bool) (target_uid : uid_t) : Robo PUnit := do
  emit (.nice (-10))
  let amnice ← answer w.nice
  if target_uid.toNat < MIN_KILL_UID then
    logLine log ("Attempt to kill processes for system uid ".toList ++ printInt target_uid.toInt ++ ['\n'])
  else do
    match ← passLoop w log target_uid MAX_KILL_PASS 0 0 amnice with
    | none => pure ⟨⟩
    | some (pass, amnice) => do
      logLine log ("user kill complete after ".toList ++ printInt (pass + 1) ++ " passes.\n".toList)
      flush log
      restore amnice

def logProcs : List Kproc → Robo PUnit
  | [] => pure ⟨⟩
  | pr :: procs => do
    emit (.log (logproc w.kperpage pr))
    logProcs procs

/-- the processes of a user in the log file -/
def loguser (log : Bool) (target_uid : uid_t) : Robo PUnit :=
  if log then do
    emit (.getprocs (some target_uid))
    match ← answer w.getprocs with
    -- `%s` of a number is undefined
    | .error _ => throw .undefined
    | .ok procs => do
      logProcs w procs
      emit .flush
  else pure ⟨⟩

end Killuser

/-! ## What is killed -/

def killOf : Event → Option (pid_t × Kill)
  | .kill pid sig => some (pid, sig)
  | _ => none

/-- the signals sent, in their order -/
def kills (t : List Event) : List (pid_t × Kill) := t.filterMap killOf

/-- what the kernel answered to the last event, if it was asked for the processes of a user -/
def answerTo (w : Kernel) (uid : uid_t) (t : List Event) : Option (List Kproc) :=
  if t.getLast? = some (.getprocs (some uid)) then (w.getprocs t).toOption else none

/-- the processes of a user as they have been read, time after time -/
def readings (w : Kernel) (uid : uid_t) (t : List Event) : List (List Kproc) := t.inits.filterMap (answerTo w uid)

/-- what a trace adds to another one: readings of the processes of a user, and signals -/
structure Did (w : Kernel) (uid : uid_t) (s : List Event) (waves : List (List Kproc)) (killed : List (pid_t × Kill))
    (t : List Event) : Prop where
  grows : s <+: t
  readings_eq : readings w uid t = readings w uid s ++ waves
  kills_eq : kills t = kills s ++ killed

variable {w : Kernel} {uid : uid_t} {s t u : List Event}

theorem Did.refl (s : List Event) : Did w uid s [] [] s :=
  ⟨List.prefix_refl s, (List.append_nil _).symm, (List.append_nil _).symm⟩

theorem Did.trans {waves waves' : List (List Kproc)} {killed killed' : List (pid_t × Kill)}
    (hst : Did w uid s waves killed t)
    (htu : Did w uid t waves' killed' u) : Did w uid s (waves ++ waves') (killed ++ killed') u where
  grows := hst.grows.trans htu.grows
  readings_eq := by rw [htu.readings_eq, hst.readings_eq, List.append_assoc]
  kills_eq := by rw [htu.kills_eq, hst.kills_eq, List.append_assoc]

theorem did_event (w : Kernel) (uid : uid_t) (s : List Event) (e : Event) :
    Did w uid s (answerTo w uid (s ++ [e])).toList (killOf e).toList (s ++ [e]) where
  grows := List.prefix_append s [e]
  readings_eq := by
    rw [readings, List.inits_append, List.filterMap_append]
    cases h : answerTo w uid (s ++ [e]) <;> simp [h, readings]
  kills_eq := by
    rw [kills, List.filterMap_append]
    cases h : killOf e <;> simp [kills, h]

/-- an event that is neither -/
def Quiet (e : Event) : Prop := killOf e = none ∧ ∀ ruid, e ≠ .getprocs ruid

theorem did_quiet (s : List Event) {e : Event} (he : Quiet e) : Did w uid s [] [] (s ++ [e]) := by
  have hdid : Did w uid s (answerTo w uid (s ++ [e])).toList (killOf e).toList (s ++ [e]) := did_event w uid s e
  have hnone : answerTo w uid (s ++ [e]) = none := by
    rw [answerTo, List.getLast?_concat, if_neg fun h => he.2 _ (Option.some.inj h)]
  rwa [hnone, he.1] at hdid

theorem quiet_log (text : Str) : Quiet (.log text) := ⟨rfl, fun _ h => by cases h⟩

theorem quiet_nice (inc : ℤ) : Quiet (.nice inc) := ⟨rfl, fun _ h => by cases h⟩

theorem quiet_snooze (secs : ℤ) (always : Bool) : Quiet (.snooze secs always) := ⟨rfl, fun _ h => by cases h⟩

theorem quiet_flush : Quiet .flush := ⟨rfl, fun _ h => by cases h⟩

/-- nothing is thrown -/
def Never (_ : Stop) : Prop := False

theorem ensures_logLine {P : List Event → Prop} {log : Bool} {text : Str} (hlog : P (s ++ [.log text])) (hnot : P s) :
    Ensures Never (logLine log text) s fun _ t => P t := by
  cases log
  · exact ensures_pure hnot
  · exact ensures_emit hlog

theorem logLine_did (w : Kernel) (uid : uid_t) (log : Bool) (text : Str) (s : List Event) :
    Ensures Never (logLine log text) s fun _ t => Did w uid s [] [] t :=
  ensures_logLine (did_quiet s (quiet_log text)) (Did.refl s)

/-- those killed of one reading -/
def wave (procs : List Kproc) : List (pid_t × Kill) := (procs.filter killable).map fun pr => (pr.p_pid, .hard)

theorem killProcs_spec (w : Kernel) (uid : uid_t) (log : Bool) (pass : ℕ) (procs : List Kproc)
    (nkill : ℕ) (s : List Event) : Ensures Never (killProcs w log pass procs nkill) s fun n t =>
      n = nkill + (procs.filter killable).length ∧ Did w uid s [] (wave procs) t := by
  induction procs generalizing nkill s with
  | nil => exact ensures_pure ⟨rfl, Did.refl s⟩
  | cons pr procs ih =>
    rw [killProcs]
    by_cases hpr : killable pr = true
    · rw [if_pos hpr]
      refine Ensures.bind (logLine_did w uid (log && pass == 0) _ s) fun _ t hlog => ?_
      have hkill : Did w uid t [] [(pr.p_pid, .hard)] (t ++ [.kill pr.p_pid .hard]) := by
        have hdid := did_event w uid t (.kill pr.p_pid .hard)
        rwa [answerTo, List.getLast?_concat, if_neg fun h => by cases h] at hdid
      refine Ensures.bind (ensures_emit (Q := fun _ u => Did w uid t [] [(pr.p_pid, .hard)] u) hkill) fun _ u hu => ?_
      refine (ih (nkill + 1) u).post ?_
      rintro n v ⟨hn, hv⟩
      rw [wave, List.filter_cons_of_pos hpr, List.map_cons]
      refine ⟨?_, (hlog.trans hu).trans hv⟩
      rw [hn, List.length_cons]
      omega
    · rw [if_neg hpr]
      refine (ih nkill s).post ?_
      rintro n v ⟨hn, hv⟩
      rw [wave, List.filter_cons_of_neg hpr]
      exact ⟨hn, hv⟩

/-! ## Pass after pass -/

/-- how many readings at the end have nothing to kill -/
def clean (waves : List (List Kproc)) : ℕ := (waves.reverse.takeWhile fun procs => (wave procs).isEmpty).length

theorem clean_concat (waves : List (List Kproc)) (procs : List Kproc) :
    clean (waves ++ [procs]) = if wave procs = [] then clean waves + 1 else 0 := by
  rw [clean, List.reverse_append, List.reverse_singleton, List.singleton_append, List.takeWhile_cons]
  cases h : wave procs with
  | nil => rfl
  | cons k ks => rfl

theorem flush_did (w : Kernel) (uid : uid_t) (log : Bool) (s : List Event) :
    Ensures Never (flush log) s fun _ t => Did w uid s [] [] t := by
  cases log
  · exact ensures_pure (Did.refl s)
  · exact ensures_emit (did_quiet s quiet_flush)

theorem restore_did (w : Kernel) (uid : uid_t) (amnice : Bool) (s : List Event) :
    Ensures Never (restore amnice) s fun _ t => Did w uid s [] [] t := by
  cases amnice
  · exact ensures_pure (Did.refl s)
  · exact ensures_emit (did_quiet s (quiet_nice 10))

theorem relax_did (w : Kernel) (uid : uid_t) (pass : ℕ) (amnice : Bool) (s : List Event) :
    Ensures Never (relax w pass amnice) s fun _ t => Did w uid s [] [] t := by
  unfold relax
  split_ifs
  · refine Ensures.bind (restore_did w uid amnice s) fun _ t ht => ?_
    have hsnooze : Ensures Never (emit (.snooze 1 true) : Robo PUnit) t fun _ u => Did w uid t [] [] u :=
      ensures_emit (did_quiet t (quiet_snooze 1 true))
    refine Ensures.bind hsnooze fun _ u hu => ?_
    have hnice : Ensures Never (emit (.nice (-10)) : Robo PUnit) u fun _ v => Did w uid u [] [] v :=
      ensures_emit (did_quiet u (quiet_nice (-10)))
    exact Ensures.bind hnice fun _ v hv => ensures_answer ((ht.trans hu).trans hv)
  · exact ensures_pure (Did.refl s)

/-- the table could not be read at some point between the two -/
def Unread (w : Kernel) (uid : uid_t) (s t : List Event) : Prop :=
  ∃ before, s <+: before ∧ before ++ [.getprocs (some uid)] <+: t ∧
    ∃ geterr, w.getprocs (before ++ [.getprocs (some uid)]) = .error geterr

/-- why there are no more passes: the table could not be read, or three readings have nothing to kill, or there have
been as many as there may be -/
def Finished (w : Kernel) (uid : uid_t) (s t : List Event) (waves : List (List Kproc)) (passes : Prop) :
    Option (ℕ × Bool) → Prop
  | none => Unread w uid s t
  | some _ => clean waves = 3 ∨ passes

theorem Finished.earlier {waves : List (List Kproc)} {passes : Prop} {r : Option (ℕ × Bool)} (hst : s <+: t)
    (h : Finished w uid t u waves passes r) : Finished w uid s u waves passes r := by
  cases r with
  | none =>
    obtain ⟨before, hle, hread⟩ := h
    exact ⟨before, hst.trans hle, hread⟩
  | some last => exact h

theorem passLoop_spec (log : Bool) {left pass cleanpass : ℕ} (before : List (List Kproc)) (amnice : Bool)
    (hclean : cleanpass = clean before) (hlt : cleanpass < 3) (s : List Event) :
    Ensures Never (passLoop w log uid left pass cleanpass amnice) s fun r t =>
      ∃ waves, Did w uid s waves (waves.flatMap wave) t ∧ waves.length ≤ left ∧
        (∀ k < waves.length, clean (before ++ waves.take k) < 3) ∧
        Finished w uid s t (before ++ waves) (waves.length = left) r := by
  induction left generalizing pass cleanpass before amnice s with
  | zero =>
    exact ensures_pure ⟨[], Did.refl s, le_rfl, fun k hk => absurd hk (Nat.not_lt_zero k), Or.inr rfl⟩
  | succ left ih =>
    have hasked : Did w uid s (w.getprocs (s ++ [.getprocs (some uid)])).toOption.toList []
        (s ++ [.getprocs (some uid)]) := by
      have hdid := did_event w uid s (.getprocs (some uid))
      rwa [answerTo, List.getLast?_concat, if_pos rfl] at hdid
    rw [passLoop]
    refine Ensures.bind (ensures_emit (Q := fun _ t => t = s ++ [.getprocs (some uid)]) rfl) ?_
    rintro ⟨⟩ t rfl
    refine Ensures.bind (ensures_answer (Q := fun r t => r = w.getprocs t ∧ t = s ++ [.getprocs (some uid)]) ⟨rfl, rfl⟩)
      ?_
    rintro answered t ⟨rfl, rfl⟩
    cases hread : w.getprocs (s ++ [.getprocs (some uid)]) with
    | error geterr =>
      rw [hread] at hasked
      dsimp only
      refine Ensures.bind (Q := fun _ t => Did w uid s [] [] t ∧ s ++ [.getprocs (some uid)] <+: t) ?_ ?_
      · exact ensures_logLine ⟨hasked.trans (did_quiet _ (quiet_log _)), List.prefix_append _ _⟩
          ⟨hasked, List.prefix_refl _⟩
      · rintro ⟨⟩ t ⟨ht, hprefix⟩
        refine ensures_pure ⟨[], ht, Nat.zero_le _, fun k hk => absurd hk (Nat.not_lt_zero k), ?_⟩
        exact ⟨s, List.prefix_refl s, hprefix, geterr, hread⟩
    | ok procs =>
      rw [hread] at hasked
      dsimp only
      refine Ensures.bind (killProcs_spec w uid log pass procs 0 _) ?_
      rintro nkill t ⟨hn, ht⟩
      have hwave : Did w uid s [procs] (wave procs) t := hasked.trans ht
      have hzero : nkill = 0 ↔ wave procs = [] := by
        rw [hn, Nat.zero_add, List.length_eq_zero_iff, wave, List.map_eq_nil_iff]
      have hfirst : ∀ waves : List (List Kproc), (∀ k < waves.length, clean (before ++ [procs] ++ waves.take k) < 3) →
          ∀ k < (procs :: waves).length, clean (before ++ (procs :: waves).take k) < 3 := by
        intro waves hwaves k hk
        cases k with
        | zero => rwa [List.take_zero, List.append_nil, ← hclean]
        | succ k =>
          rw [List.take_succ_cons, ← List.singleton_append, ← List.append_assoc]
          exact hwaves k (Nat.lt_of_succ_lt_succ hk)
      by_cases hthree : nkill = 0 ∧ cleanpass + 1 = 3
      · rw [if_pos hthree]
        refine ensures_pure ⟨[procs], ?_, Nat.succ_le_succ (Nat.zero_le left), ?_, Or.inl ?_⟩
        · rwa [List.flatMap_singleton]
        · exact hfirst [] fun k hk => absurd hk (Nat.not_lt_zero k)
        · rw [clean_concat, if_pos (hzero.1 hthree.1), ← hclean, hthree.2]
      · rw [if_neg hthree]
        refine Ensures.bind (relax_did w uid pass amnice t) fun amnice u hu => ?_
        have hclean' : (if nkill = 0 then cleanpass + 1 else 0) = clean (before ++ [procs]) := by
          rw [clean_concat, hclean]
          exact if_congr hzero rfl rfl
        have hlt' : (if nkill = 0 then cleanpass + 1 else 0) < 3 := by
          split_ifs with h
          · have hne : cleanpass + 1 ≠ 3 := fun heq => hthree ⟨h, heq⟩
            omega
          · exact Nat.zero_lt_succ 2
        refine (ih (before ++ [procs]) amnice hclean' hlt' u).post ?_
        rintro r v ⟨waves, hv, hlen, hbefore, hended⟩
        refine ⟨procs :: waves, ?_, Nat.succ_le_succ hlen, hfirst waves hbefore, ?_⟩
        · have hall := (hwave.trans hu).trans hv
          rwa [List.append_nil, List.append_nil, List.singleton_append, ← List.flatMap_cons] at hall
        · rw [List.append_assoc, List.singleton_append] at hended
          rw [List.length_cons, Nat.add_right_cancel_iff]
          exact hended.earlier (hwave.trans hu).grows

/-- what `killuser` does about a user who is not one of the system -/
def Killed (w : Kernel) (uid : uid_t) (s t : List Event) (waves : List (List Kproc)) : Prop :=
  waves.length ≤ MAX_KILL_PASS ∧ (∀ k < waves.length, clean (waves.take k) < 3) ∧
    (clean waves = 3 ∨ waves.length = MAX_KILL_PASS ∨ Unread w uid s t)

theorem killuser_spec (w : Kernel) (log : Bool) (uid : uid_t) (s : List Event) :
    Ensures Never (killuser w log uid) s fun _ t => ∃ waves, Did w uid s waves (waves.flatMap wave) t ∧
      (uid.toNat < MIN_KILL_UID → waves = []) ∧ (MIN_KILL_UID ≤ uid.toNat → Killed w uid s t waves) := by
  have hnice : Ensures Never (emit (.nice (-10)) : Robo PUnit) s fun _ t => Did w uid s [] [] t :=
    ensures_emit (did_quiet s (quiet_nice (-10)))
  unfold killuser
  refine Ensures.bind hnice fun _ t ht => ?_
  refine Ensures.bind (ensures_answer (Q := fun _ u => u = t) rfl) ?_
  rintro amnice u rfl
  refine Ensures.ite (fun hsystem => ?_) fun huser => ?_
  · refine (logLine_did w uid log _ u).post fun _ v hv => ?_
    exact ⟨[], ht.trans hv, fun _ => rfl, fun hle => absurd hsystem (Nat.not_lt.2 hle)⟩
  · refine Ensures.bind (passLoop_spec log [] amnice rfl (Nat.zero_lt_succ 2) u) ?_
    rintro r v ⟨waves, hv, hlen, hbefore, hended⟩
    have hwaves := ht.trans hv
    replace hended := hended.earlier ht.grows
    cases r with
    | none =>
      exact ensures_pure ⟨waves, hwaves, fun h => absurd h huser, fun _ => ⟨hlen, hbefore, Or.inr (Or.inr hended)⟩⟩
    | some last =>
      obtain ⟨pass, amnice⟩ := last
      dsimp only
      refine Ensures.bind (logLine_did w uid log _ v) fun _ x hx => ?_
      refine Ensures.bind (flush_did w uid log x) fun _ y hy => ?_
      refine (restore_did w uid amnice y).post fun _ z hz => ?_
      have hall := ((hwaves.trans hx).trans hy).trans hz
      simp only [List.append_nil, List.nil_append] at hall
      refine ⟨waves, hall, fun h => absurd h huser, fun _ => ⟨hlen, hbefore, ?_⟩⟩
      exact hended.imp id Or.inl

/-- **A user is killed in waves.** Whatever the kernel answers, `killuser` returns; what it sends are hard signals to
all that may be killed of every reading of the user's processes, and to nobody else; and there is another reading
until three in a row have nobody to kill, 45 have been made, or one has failed. Users of the system are not looked
at. -/
theorem killuser_waves (w : Kernel) (log : Bool) (uid : uid_t) (s : List Event) :
    ∃ t waves, exec (killuser w log uid) s = (.ok ⟨⟩, t) ∧ readings w uid t = readings w uid s ++ waves ∧
      kills t = kills s ++ waves.flatMap wave ∧ (uid.toNat < MIN_KILL_UID → waves = []) ∧
        (MIN_KILL_UID ≤ uid.toNat → Killed w uid s t waves) := by
  have hspec := killuser_spec w log uid s
  unfold Ensures at hspec
  rcases h : exec (killuser w log uid) s with ⟨r, t⟩
  rw [h] at hspec
  cases r with
  | ok a =>
    obtain ⟨waves, hdid, hsystem, huser⟩ := hspec
    exact ⟨t, waves, rfl, hdid.readings_eq, hdid.kills_eq, hsystem, huser⟩
  | error e => exact hspec.elim

end MNetSoft.Robocop
