/-
Robocop kills nobody without grounds, in any number of turns of its main loop, whatever the system answers and whenever
`malloc` fails. The grounds for a signal are in what had been answered before it:
- a hard signal to a process of a user who, by a reading of the process table, had too much memory or too many
  processes, and is neither protected nor one of the system;
- a signal to a process of the table of a turn that was an orphan by it: no daemon, of no protected user, on no tty
  with a login by a later reading of the file of logins, and sheltered by no daemon above it, nor, if the log file
  was open in that turn, by a screen session of its user.
-/
import Mathlib.Tactic
import MNetSoft.Robocop.Patrol

namespace MNetSoft.Robocop

open MNetSoft.CString MNetSoft.Numerals MNetSoft.Effects MNetSoft.Traces MNetSoft.LinkedList MNetSoft.Probing

/-! ## Orphans -/

section Orphans

/-- the record of a process, with its user -/
def core (w : World) (fp : Prints) (pr : Kinfo) : Proc := procOf w fp true (withUid 0) pr

/-- a process of the table that may be an orphan: it is listed and not dropped at once -/
structure Loose (w : World) (fp : Prints) (table : List Kinfo) (A : Finset dev_t) (pr : Kinfo) : Prop where
  mem : pr ∈ table
  listed : IsListed w fp pr
  stays : ¬DroppedFirst A (core w fp pr)

/-- A daemon, a process above it that is sheltered, or a screen session shelters a process. The last needs the users
of the processes, which are only kept for the log. -/
inductive Sheltered (w : World) (fp : Prints) (log : Bool) (table : List Kinfo) (A : Finset dev_t) : Kinfo → Prop where
  | hen {pr hen : Kinfo} : Loose w fp table A pr → hen ∈ table → IsHen w fp hen → pr.p_ppid = hen.p_pid →
      Sheltered w fp log table A pr
  | child {pr parent : Kinfo} : Loose w fp table A pr → Sheltered w fp log table A parent → pr.p_ppid = parent.p_pid →
      Sheltered w fp log table A pr
  | screen {pr session : Kinfo} : Loose w fp table A pr → Background (core w fp pr) → session ∈ table →
      IsListed w fp session → Marked A (core w fp session) → (core w fp session).am_screen = true →
      pr.p_ruid = session.p_ruid → pr.p_ruid ≠ 0 → log = true → Sheltered w fp log table A pr

/-- an orphan, where these ttys are active -/
structure Orphan (w : World) (fp : Prints) (log : Bool) (table : List Kinfo) (A : Finset dev_t) (pr : Kinfo) :
    Prop where
  loose : Loose w fp table A pr
  alone : ¬Sheltered w fp log table A pr

variable {w : World} {fp : Prints} {log : Bool} {ok : ℕ → Bool} {junk : ℕ → Proc}
  {table : List Kinfo} {A : Finset dev_t}

theorem makeHen_eq_some {pr : Kinfo} {s s' : Scan} (h : makeHen pr s = some s') :
    s'.out_of_memory = s.out_of_memory ∧ s'.fp = s.fp := by
  obtain ⟨T, -, rfl⟩ := Option.map_eq_some_iff.1 h
  exact ⟨rfl, rfl⟩

/-- fingerprints only grow by installed files, and a scan that does not run out of memory looks at every process -/
theorem scan_proc_reaches {i : ℕ} {s s' : Scan} (hmem : s.out_of_memory = false) (h : Versions w fp s.fp)
    (hrun : scan_proc w log (handOut ok junk) i table s = some s') :
    Versions w fp s'.fp ∧
      (s'.out_of_memory = false → ∀ pr ∈ table, ∃ j, (j, pr) ∈ reached w fp ok i table) := by
  induction table generalizing i s with
  | nil =>
    cases hrun
    exact ⟨h, fun _ pr hpr => absurd hpr List.not_mem_nil⟩
  | cons pr table ih =>
    -- a process that is passed leaves the memory as it is
    have hpass : ¬(IsListed w fp pr ∧ ok i = false) → ∀ t : Scan,
        scan_proc w log (handOut ok junk) (i + 1) table t = some s' → t.out_of_memory = false → Versions w fp t.fp →
          Versions w fp s'.fp ∧
          (s'.out_of_memory = false → ∀ p ∈ pr :: table, ∃ j, (j, p) ∈ reached w fp ok i (pr :: table)) := by
      intro hok t hrest ht hversions
      obtain ⟨hfp, hall⟩ := ih ht hversions hrest
      refine ⟨hfp, fun hmem' => ?_⟩
      rw [reached, if_neg hok]
      refine List.forall_mem_cons.2 ⟨⟨i, List.mem_cons_self⟩, fun p hp => ?_⟩
      obtain ⟨j, hj⟩ := hall hmem' p hp
      exact ⟨j, List.mem_cons_of_mem _ hj⟩
    have hone := scanOne_spec hmem h log (handOut ok junk) i pr
    rw [scan_proc] at hrun
    by_cases hun : log = true ∧ UnstatableDaemon w fp pr
    · rw [if_pos hun] at hone
      rw [hone] at hrun
      cases hrun
    rw [if_neg hun] at hone
    obtain ⟨fp', h', e⟩ := hone
    rw [e] at hrun
    by_cases hhen : IsHen w fp pr
    · rw [if_pos hhen] at hrun
      obtain ⟨t, hmake, hrest⟩ := Option.bind_eq_some_iff.1 hrun
      obtain ⟨ht, hfp⟩ := makeHen_eq_some hmake
      exact hpass (fun hl => hl.1.1 hhen) t hrest (ht.trans hmem) (hfp ▸ h')
    · rw [if_neg hhen] at hrun
      by_cases huid : UidProtected w fp pr
      · rw [if_pos huid, Option.bind_some] at hrun
        exact hpass (fun hl => hl.1.2 huid) { s with fp := fp' } hrun hmem h'
      · rw [if_neg huid] at hrun
        have hlist := listProc_spec (s := { s with fp := fp' }) h' log ok junk i pr
        by_cases hok : ok i = true
        · rw [if_pos hok] at hlist
          by_cases hmade : (log = true → ¬ Unstatable w fp .sh pr ∧ ¬ Unstatable w fp .screen pr) ∧ argsOf pr ≠ none
          · rw [if_pos hmade] at hlist
            obtain ⟨fp₁, h₁, e₁⟩ := hlist
            rw [e₁, Option.bind_some] at hrun
            exact hpass (fun hl => by rw [hok] at hl; cases hl.2) _ hrun hmem h₁
          · rw [if_neg hmade] at hlist
            rw [hlist] at hrun
            cases hrun
        · rw [if_neg hok] at hlist
          rw [hlist, Option.bind_some, scan_proc_full rfl] at hrun
          cases hrun
          exact ⟨h', fun hmem' => by cases hmem'⟩

/-- the record on the list agrees with the one with the user -/
theorem sameCore_core (log : Bool) (block : Proc) (pr : Kinfo) : SameCore (core w fp pr) (procOf w fp log block pr) :=
  sameCore_procOf ..

theorem Sheltered.loose {pr : Kinfo} (h : Sheltered w fp log table A pr) : Loose w fp table A pr := by
  cases h with
  | hen hloose => exact hloose
  | child hloose => exact hloose
  | screen hloose => exact hloose

/-- what shelters a process makes `find_orph` spare it -/
theorem Sheltered.spared (hall : ∀ pr ∈ table, ∃ j, (j, pr) ∈ reached w fp ok 0 table) {pr : Kinfo}
    (h : Sheltered w fp log table A pr) : ∀ i, (i, pr) ∈ listed w fp ok 0 table →
      Spared ((nodes w fp ok table log junk).map Prod.snd) A (hens w fp ok table)
        (shield A (nodes w fp ok table log junk)) (procOf w fp log (junk i) pr) := by
  have hnode : ∀ {x : ℕ × Kinfo}, x ∈ listed w fp ok 0 table →
      procOf w fp log (junk x.1) x.2 ∈ (nodes w fp ok table log junk).map Prod.snd := by
    intro x hx
    exact List.mem_map_of_mem (f := Prod.snd) (mem_nodes.2 ⟨x, hx, rfl⟩)
  have hstays : ∀ {q : Kinfo} (i : ℕ), Loose w fp table A q → ¬DroppedFirst A (procOf w fp log (junk i) q) := by
    intro q i hq
    rw [← (sameCore_core log (junk i) q).droppedFirst A]
    exact hq.stays
  have hlisted : ∀ {q : Kinfo}, q ∈ table → IsListed w fp q → ∃ j, (j, q) ∈ listed w fp ok 0 table := by
    intro q hq hl
    obtain ⟨j, hj⟩ := hall q hq
    exact ⟨j, List.mem_filter.2 ⟨hj, decide_eq_true hl⟩⟩
  induction h with
  | hen hloose hmem hhen hppid =>
    intro i hi
    obtain ⟨j, hj⟩ := hall _ hmem
    refine .hen (hnode hi) (hstays i hloose) ?_
    rw [← (sameCore_core log (junk i) _).ppid]
    refine List.mem_toFinset.2 (List.mem_map.2 ⟨_, List.mem_filter.2 ⟨hj, decide_eq_true hhen⟩, hppid.symm⟩)
  | child hloose hparent hppid ih =>
    intro i hi
    obtain ⟨j, hj⟩ := hlisted hparent.loose.mem hparent.loose.listed
    refine .child (hnode hi) (hstays i hloose) (ih j hj) ?_
    rw [← (sameCore_core log (junk i) _).ppid, ← (sameCore_core log (junk j) _).pid]
    exact hppid
  | screen hloose hback hmem hl hmarked hscreen huid huid0 hlog =>
    intro i hi
    subst hlog
    refine .screen (hnode hi) (hstays i hloose) hback ?_
    obtain ⟨j, hj⟩ := hlisted hmem hl
    have hgathered := gathered_sweep A (nodes w fp ok table true junk)
    by_cases hfull : MAXSCREENERS ≤ (screeners A (nodes w fp ok table true junk)).1.card +
        (screeners A (nodes w fp ok table true junk)).2
    · exact Or.inl hfull
    · refine Or.inr (hgathered.complete (not_le.1 hfull) _ ?_ huid0)
      exact mem_screenUsers.2 ⟨_, hnode hj, hmarked, hscreen, huid.symm⟩

end Orphans

/-! ## Grounds -/

section Grounds

/-- the kernel was asked for a table, and this was it -/
def Asked (w : Kernel) (ruid : Option uid_t) (t : List Event) (procs : List Kproc) : Prop :=
  ∃ asked, asked <+: t ∧ asked.getLast? = some (.getprocs ruid) ∧ w.getprocs asked = .ok procs

/-- the number of a tty was asked for, and this was it -/
def Numbered (w : Site) (t : List Event) (name : Str) (dev : dev_t) : Prop :=
  ∃ asked, asked <+: t ∧ asked.getLast? = some (.stat ("/dev/".toList ++ name)) ∧ w.rdev asked = some dev

/-- the user had too much, by a table that was read -/
def Hog (w : Site) (t : List Event) (uid : uid_t) : Prop :=
  ∃ procs, Asked w.toKernel none t procs ∧ Excessive w procs uid

/-- the pause behind a turn that began with `start` and has come to `t` -/
def pause (w : Site) (start t : List Event) : Event :=
  .snooze (sleepTime ((w.woken t).getD (w.time start)) (w.time t)) false

/-- The turns of the main loop that starts with this log file and memory: whether the log file is open, what is kept and
the trace, when the turn begins. -/
inductive Turn (w : Site) (log₀ : Bool) (m₀ : Mem) : Bool → Mem → List Event → Prop where
  | first : Turn w log₀ m₀ log₀ m₀ []
  | next {log : Bool} {m m' : Mem} {start t : List Event} : Turn w log₀ m₀ log m start →
      exec (patrol w log (w.time start) m) start = (.ok m', t) →
        Turn w log₀ m₀ (w.reopen (t ++ [pause w start t])) m' (t ++ [pause w start t])

/-- the trace when a turn asks for the process table -/
def tableOf (w : Site) (log : Bool) (start : List Event) : List Event :=
  start ++ (if log then [.log (startLine w (w.time start)), .flush] else []) ++ [.getprocs none]

/-- the fingerprints are those at the start and of files that were installed -/
def Learned (w : Site) (fp₀ : Prints) (t : List Event) (fp : Prints) : Prop :=
  ∀ i file, (file ∈ fp₀ i → file ∈ fp i) ∧
    (file ∈ fp i → file ∈ fp₀ i ∨ ∃ asked, asked <+: t ∧ (w.world asked).stat i = some file)

/-- the ttys with logins are active, by a reading of the file of logins that came later -/
def Logins (w : Site) (seen t : List Event) (A : Finset dev_t) : Prop :=
  ∃ read entries, seen <+: read ∧ read <+: t ∧ read.getLast? = some .openUtmp ∧
  w.utmp read = some entries ∧ IsActive A 0 ∧
    ∀ entry ∈ entries, isLogin entry = true → ∃ dev, Numbered w t (entry.2.take UT_LINESIZE) dev ∧ IsActive A dev

/-- the system as it was when the table was read, where the turn had begun at some time before -/
def worldAt (w : Site) (start seen : List Event) : World := { w.world seen with curr_time := w.time start }

/-- The process was an orphan, by the table that a turn has read and the logins after it; the log file is that of the
turn. -/
structure Abandoned (w : Site) (log₀ : Bool) (m₀ : Mem) (t : List Event) (pr : Kinfo) (log : Bool) (m : Mem)
    (start : List Event) (procs : List Kproc) (A : Finset dev_t) : Prop where
  turn : Turn w log₀ m₀ log m start
  read : tableOf w log start <+: t
  table : w.getprocs (tableOf w log start) = .ok procs
  learned : Learned w m₀.fp t m.fp
  logins : Logins w (tableOf w log start) t A
  orphan : Orphan (worldAt w start (tableOf w log start)) m.fp log (procs.map Kproc.toKinfo) A pr

/-- the grounds for a signal, in what was answered before it -/
inductive Deserved (w : Site) (log₀ : Bool) (m₀ : Mem) (t : List Event) : pid_t → Kill → Prop where
  | hog {uid : uid_t} {procs : List Kproc} {pr : Kproc} :
      Hog w t uid → Asked w.toKernel (some uid) t procs → pr ∈ procs →
      killable pr = true → Deserved w log₀ m₀ t pr.p_pid .hard
  | orphan {pr : Kinfo} {log : Bool} {m : Mem} {start : List Event} {procs : List Kproc}
      {A : Finset dev_t} (sig : Kill) :
      Abandoned w log₀ m₀ t pr log m start procs A → 2 ≤ pr.p_pid.toInt → Deserved w log₀ m₀ t pr.p_pid sig

/-- every signal of the trace had grounds -/
def Justified (w : Site) (log₀ : Bool) (m₀ : Mem) : List Event → Prop := Grounded fun t => Sends (Deserved w log₀ m₀ t)

variable {w : Site} {log₀ : Bool} {m₀ : Mem} {s t : List Event}

theorem Asked.mono {w : Kernel} {ruid : Option uid_t} {procs : List Kproc} (hst : s <+: t) (h : Asked w ruid s procs) :
    Asked w ruid t procs := by
  obtain ⟨asked, hle, h⟩ := h
  exact ⟨asked, hle.trans hst, h⟩

theorem Numbered.mono {name : Str} {dev : dev_t} (hst : s <+: t) (h : Numbered w s name dev) :
    Numbered w t name dev := by
  obtain ⟨asked, hle, h⟩ := h
  exact ⟨asked, hle.trans hst, h⟩

theorem Hog.mono {uid : uid_t} (hst : s <+: t) (h : Hog w s uid) : Hog w t uid := by
  obtain ⟨procs, hasked, h⟩ := h
  exact ⟨procs, hasked.mono hst, h⟩

theorem Learned.mono {fp₀ fp : Prints} (hst : s <+: t) (h : Learned w fp₀ s fp) : Learned w fp₀ t fp := by
  refine fun i file => ⟨(h i file).1, fun hmem => ((h i file).2 hmem).imp_right ?_⟩
  rintro ⟨asked, hle, hstat⟩
  exact ⟨asked, hle.trans hst, hstat⟩

theorem Logins.mono {seen : List Event} {A : Finset dev_t} (hst : s <+: t) (h : Logins w seen s A) :
    Logins w seen t A := by
  obtain ⟨read, entries, hseen, hle, hlast, hread, hzero, hall⟩ := h
  refine ⟨read, entries, hseen, hle.trans hst, hlast, hread, hzero, fun entry he hlogin => ?_⟩
  obtain ⟨dev, hdev, hactive⟩ := hall entry he hlogin
  exact ⟨dev, hdev.mono hst, hactive⟩

theorem Deserved.mono {pid : pid_t} {sig : Kill} (hst : s <+: t) (h : Deserved w log₀ m₀ s pid sig) :
    Deserved w log₀ m₀ t pid sig := by
  cases h with
  | hog hhog hasked hpr hkillable => exact .hog (hhog.mono hst) (hasked.mono hst) hpr hkillable
  | orphan _ h hpid =>
    exact .orphan sig
      { h with read := h.read.trans hst, learned := h.learned.mono hst, logins := h.logins.mono hst } hpid

theorem sends_mono {e : Event} (hst : s <+: t) (h : Sends (Deserved w log₀ m₀ s) e) : Sends (Deserved w log₀ m₀ t) e :=
  fun pid sig he => (h pid sig he).mono hst

/-- a program that goes on from a justified trace, with these signals at most -/
theorem Justified.adds {α : Type} {x : Robo α} (hs : Justified w log₀ m₀ s)
    (hx : Adds (Sends (Deserved w log₀ m₀ s)) x) :
    Outcome (fun _ t => Justified w log₀ m₀ t) x s fun _ t => s <+: t ∧ Justified w log₀ m₀ t :=
  Grounded.outcome (P := fun t => Sends (Deserved w log₀ m₀ t)) (fun hst => sends_mono hst) hs hx

/-- an event that is no signal, before what comes then -/
theorem Justified.quiet {α : Type} {f : PUnit → Robo α} {e : Event} {Q : α → List Event → Prop}
    (hs : Justified w log₀ m₀ s) (he : killOf e = none)
    (hf : Justified w log₀ m₀ (s ++ [e]) → Outcome (fun _ t => Justified w log₀ m₀ t) (f ⟨⟩) (s ++ [e]) Q) :
    Outcome (fun _ t => Justified w log₀ m₀ t) (emit e >>= f) s Q := by
  have hnew : Justified w log₀ m₀ (s ++ [e]) :=
    Grounded.extends (fun hst => sends_mono hst) hs ⟨[e], rfl, List.forall_mem_singleton.2 (sends_quiet he)⟩
  exact Outcome.bind (Q := fun _ t => t = s ++ [e]) rfl fun _ t ht => ht ▸ hf hnew

end Grounds

/-! ## Users with too much -/

section Users

variable {w : Site} {log₀ : Bool} {m₀ : Mem} {s : List Event} {log : Bool} {uid : uid_t}

theorem killProcs_adds {D : pid_t → Kill → Prop} (w : Kernel) (pass : ℕ) {procs : List Kproc} {nkill : ℕ}
    (hD : ∀ pr ∈ procs, killable pr = true → D pr.p_pid .hard) : Adds (Sends D) (killProcs w log pass procs nkill) := by
  induction procs generalizing nkill with
  | nil => exact adds_pure nkill
  | cons pr procs ih =>
    obtain ⟨hfirst, hrest⟩ := List.forall_mem_cons.1 hD
    refine Adds.ite (fun hkillable => ?_) fun _ => ih hrest
    refine Adds.bind (adds_logLine _ _) fun _ => Adds.bind (adds_kill (hfirst hkillable)) fun _ => ih hrest

theorem restore_adds {D : pid_t → Kill → Prop} (amnice : Bool) : Adds (Sends D) (restore amnice) :=
  Adds.ite (fun _ => adds_quiet rfl) fun _ => adds_pure PUnit.unit

theorem relax_adds {D : pid_t → Kill → Prop} (w : Kernel) (pass : ℕ) (amnice : Bool) :
    Adds (Sends D) (relax w pass amnice) := by
  refine Adds.ite (fun _ => ?_) fun _ => adds_pure amnice
  refine Adds.bind (restore_adds amnice) fun _ => Adds.bind (adds_quiet rfl) fun _ =>
    Adds.bind (adds_quiet rfl) fun _ => ?_
  exact adds_answer w.nice

theorem passLoop_justified {left pass cleanpass : ℕ} {amnice : Bool} (hs : Justified w log₀ m₀ s) (hhog : Hog w s uid) :
    Outcome (fun _ t => Justified w log₀ m₀ t) (passLoop w.toKernel log uid left pass cleanpass amnice) s
      fun _ t => s <+: t ∧ Justified w log₀ m₀ t := by
  induction left generalizing pass cleanpass amnice s with
  | zero => exact outcome_pure ⟨List.prefix_refl s, hs⟩
  | succ left ih =>
    rw [passLoop]
    refine hs.quiet rfl fun hs₁ => ?_
    have hle₁ : s <+: s ++ [.getprocs (some uid)] := List.prefix_append s _
    refine Outcome.bind (outcome_answer (Q := fun r t => r = w.getprocs t ∧ t = s ++ [.getprocs (some uid)]) ⟨rfl, rfl⟩)
      ?_
    rintro answered t ⟨rfl, rfl⟩
    cases hread : w.getprocs (s ++ [.getprocs (some uid)]) with
    | error geterr =>
      refine Outcome.bind (hs₁.adds (adds_logLine log _)) ?_
      rintro _ t ⟨hle, ht⟩
      exact outcome_pure ⟨hle₁.trans hle, ht⟩
    | ok procs =>
      have hasked : Asked w.toKernel (some uid) (s ++ [.getprocs (some uid)]) procs :=
        ⟨_, List.prefix_refl _, List.getLast?_concat, hread⟩
      have hkill : ∀ pr ∈ procs, killable pr = true →
          Deserved w log₀ m₀ (s ++ [.getprocs (some uid)]) pr.p_pid .hard :=
        fun pr hpr hkillable => .hog (hhog.mono hle₁) hasked hpr hkillable
      refine Outcome.bind (hs₁.adds (killProcs_adds w.toKernel pass hkill)) ?_
      rintro nkill t ⟨hle, ht⟩
      have hle₂ := hle₁.trans hle
      refine Outcome.ite (fun _ => outcome_pure ⟨hle₂, ht⟩) fun _ => ?_
      refine Outcome.bind (ht.adds (relax_adds w.toKernel pass amnice)) ?_
      rintro amnice u ⟨hle', hu⟩
      have hle₃ := hle₂.trans hle'
      exact (ih hu (hhog.mono hle₃)).post fun _ v hv => ⟨hle₃.trans hv.1, hv.2⟩

theorem killuser_justified (hs : Justified w log₀ m₀ s) (hhog : MIN_KILL_UID ≤ uid.toNat → Hog w s uid) :
    Outcome (fun _ t => Justified w log₀ m₀ t) (killuser w.toKernel log uid) s fun _ t => s <+: t ∧
    Justified w log₀ m₀ t := by
  refine hs.quiet rfl fun hs₁ => ?_
  have hle₁ : s <+: s ++ [.nice (-10)] := List.prefix_append s _
  refine Outcome.bind (outcome_answer (Q := fun _ t => t = s ++ [.nice (-10)]) rfl) ?_
  rintro amnice t rfl
  refine Outcome.ite (fun _ => ?_) fun huser => ?_
  · exact (hs₁.adds (adds_logLine log _)).post fun _ t ht => ⟨hle₁.trans ht.1, ht.2⟩
  · refine Outcome.bind (passLoop_justified hs₁ ((hhog (Nat.not_lt.1 huser)).mono hle₁)) ?_
    rintro ended t ⟨hle, ht⟩
    have hle₂ := hle₁.trans hle
    cases ended with
    | none => exact outcome_pure ⟨hle₂, ht⟩
    | some last =>
      have hend : Adds (Sends (Deserved w log₀ m₀ t)) (do
          logLine log ("user kill complete after ".toList ++ printInt (last.1 + 1) ++ " passes.\n".toList)
          flush log
          restore last.2) :=
        Adds.bind (adds_logLine log _) fun _ => Adds.bind (adds_flush log) fun _ => restore_adds last.2
      exact (ht.adds hend).post fun _ u hu => ⟨hle₂.trans hu.1, hu.2⟩

theorem actAll_justified {as : List (Option Act)} (hs : Justified w log₀ m₀ s)
    (hhog : ∀ uid, some (.killuser uid) ∈ as → MIN_KILL_UID ≤ uid.toNat → Hog w s uid) :
    Outcome (fun _ t => Justified w log₀ m₀ t) (actAll w log as) s fun _ t => s <+: t ∧ Justified w log₀ m₀ t := by
  induction as generalizing s with
  | nil => exact outcome_pure ⟨List.prefix_refl s, hs⟩
  | cons a as ih =>
    have hfirst : Outcome (fun _ t => Justified w log₀ m₀ t) (act w log a) s fun _ t => s <+: t ∧
        Justified w log₀ m₀ t := by
      rcases a with - | ⟨uid | uid⟩
      · exact outcome_pure ⟨List.prefix_refl s, hs⟩
      · exact killuser_justified hs (hhog uid List.mem_cons_self)
      · exact hs.adds (loguser_adds uid)
    refine Outcome.bind hfirst ?_
    rintro _ t ⟨hle, ht⟩
    refine (ih ht fun uid huid hmin => (hhog uid (List.mem_cons_of_mem _ huid) hmin).mono hle).post ?_
    exact fun _ u hu => ⟨hle.trans hu.1, hu.2⟩

end Users

/-! ## Ttys with logins -/

section Logins

variable {w : Site} {log₀ : Bool} {m₀ : Mem} {s : List Event} {log : Bool} {ttys : Ttynumbers}

/-- the numbers in the table of ttys were all asked for -/
def Known (w : Site) (t : List Event) (ttys : Ttynumbers) : Prop :=
  ∃ c, TtySound ttys c ∧ ∀ name dev, c.value name = some dev → Numbered w t name dev

theorem Known.mono {t : List Event} (hst : s <+: t) (h : Known w s ttys) : Known w t ttys := by
  obtain ⟨c, hc, hall⟩ := h
  exact ⟨c, hc, fun name dev hdev => (hall name dev hdev).mono hst⟩

theorem numbered_ne {name : Str} {dev : dev_t} (h : Numbered w s name dev) : dev ≠ NODEV := by
  rintro rfl
  obtain ⟨asked, -, -, hdev⟩ := h
  exact w.rdev_ne asked hdev

theorem getdevnum_spec {tty : Str} (hs : Justified w log₀ m₀ s) (hknown : Known w s ttys) (htty : tty ≠ []) :
    Outcome (fun _ t => Justified w log₀ m₀ t) (getdevnum w log ttys tty) s fun r t =>
      s <+: t ∧ Justified w log₀ m₀ t ∧ Known w t r.2 ∧ Numbered w t (tty.take UT_LINESIZE) r.1 := by
  obtain ⟨c, hc, hall⟩ := hknown
  unfold getdevnum
  rw [hc.get_ttynumber, lift_some_bind]
  cases hvalue : c.value (tty.take UT_LINESIZE) with
  | some dev =>
    have hdev := hall _ _ hvalue
    rw [Option.getD_some, if_pos (numbered_ne hdev)]
    exact outcome_pure ⟨List.prefix_refl s, hs, ⟨c, hc, hall⟩, hdev⟩
  | none =>
    rw [Option.getD_none, if_neg (not_not.2 rfl)]
    refine hs.quiet rfl fun hs₁ => ?_
    have hle₁ : s <+: s ++ [.stat ("/dev/".toList ++ tty.take UT_LINESIZE)] := List.prefix_append s _
    refine Outcome.bind
      (outcome_answer (Q := fun r t => r = w.rdev t ∧
        t = s ++ [.stat ("/dev/".toList ++ tty.take UT_LINESIZE)]) ⟨rfl, rfl⟩) ?_
    rintro answered t ⟨rfl, rfl⟩
    cases hread : w.rdev (s ++ [.stat ("/dev/".toList ++ tty.take UT_LINESIZE)]) with
    | none =>
      refine Outcome.bind (hs₁.adds (adds_logLine log _)) ?_
      exact fun _ t ht => outcome_throw ht.2
    | some dev =>
      have hdev : Numbered w (s ++ [.stat ("/dev/".toList ++ tty.take UT_LINESIZE)]) (tty.take UT_LINESIZE) dev :=
        ⟨_, List.prefix_refl _, List.getLast?_concat, hread⟩
      obtain ⟨ttys', hset, hsound⟩ := hc.set_ttynumber htty dev
      dsimp only
      rw [hset, lift_some_bind]
      refine outcome_pure ⟨hle₁, hs₁, ⟨_, hsound, fun name dev' hname => ?_⟩, hdev⟩
      split_ifs at hname with hfull
      · exact (hall name dev' hname).mono hle₁
      · have hname : Function.update c.value (tty.take UT_LINESIZE) (some dev) name = some dev' := hname
        by_cases heq : name = tty.take UT_LINESIZE
        · rw [heq, Function.update_self] at hname
          cases hname
          exact heq ▸ hdev
        · rw [Function.update_of_ne heq] at hname
          exact (hall name dev' hname).mono hle₁

theorem isLogin_ne {entry : Str × Str} (h : isLogin entry = true) : entry.2 ≠ [] := by
  intro hnil
  rw [isLogin, hnil, Bool.and_eq_true] at h
  exact absurd h.2 (by decide)

theorem isActive_add {A : Finset dev_t} (dev : dev_t) :
    IsActive (if ACTIVEMAX ≤ A.card then A else insert dev A) dev ∧
      ∀ d, IsActive A d → IsActive (if ACTIVEMAX ≤ A.card then A else insert dev A) d := by
  split_ifs with hfull
  · exact ⟨Or.inl hfull, fun _ h => h⟩
  · refine ⟨Or.inr (Finset.mem_insert_self dev A), fun d h => ?_⟩
    exact Or.inr (Finset.mem_insert_of_mem (h.resolve_left hfull))

/-- every login is marked, and what was marked stays so -/
theorem markAll_spec {entries : List (Str × Str)} {active : Active} {A : Finset dev_t} (hs : Justified w log₀ m₀ s)
    (hknown : Known w s ttys) (hA : Sound NODEV ACTIVEMAX active A) :
    Outcome (fun _ t => Justified w log₀ m₀ t) (markAll w log entries active ttys) s fun r t =>
      s <+: t ∧ Justified w log₀ m₀ t ∧ Known w t r.2 ∧ ∃ A', Sound NODEV ACTIVEMAX r.1 A' ∧
        (∀ d, IsActive A d → IsActive A' d) ∧
          ∀ entry ∈ entries, isLogin entry = true → ∃ dev, Numbered w t (entry.2.take UT_LINESIZE) dev ∧
          IsActive A' dev := by
  induction entries generalizing s ttys active A with
  | nil =>
    exact outcome_pure ⟨List.prefix_refl s, hs, hknown, A, hA, fun _ h => h, fun _ h => absurd h List.not_mem_nil⟩
  | cons entry entries ih =>
    rw [markAll]
    by_cases hlogin : isLogin entry = true
    · rw [if_pos hlogin]
      refine Outcome.bind (getdevnum_spec hs hknown (isLogin_ne hlogin)) ?_
      rintro ⟨dev, ttys'⟩ t ⟨hle, ht, hknown', hdev⟩
      obtain ⟨active', hset, hA'⟩ := hA.add_set (by decide) (numbered_ne hdev)
      obtain ⟨hnew, hold⟩ := isActive_add (A := A) dev
      dsimp only
      rw [set_active, hset, lift_some_bind]
      refine (ih ht hknown' hA').post ?_
      rintro r u ⟨hle', hu, hknown'', A', hsound, hkept, hall⟩
      refine ⟨hle.trans hle', hu, hknown'', A', hsound, fun d hd => hkept d (hold d hd), ?_⟩
      exact List.forall_mem_cons.2 ⟨fun _ => ⟨dev, hdev.mono hle', hkept dev hnew⟩, hall⟩
    · rw [if_neg hlogin]
      refine (ih hs hknown hA).post ?_
      rintro r u ⟨hle, hu, hknown', A', hsound, hkept, hall⟩
      exact ⟨hle, hu, hknown', A', hsound, hkept, List.forall_mem_cons.2 ⟨fun h => absurd h hlogin, hall⟩⟩

theorem scan_utmp_spec {active : Active} {A : Finset dev_t} (hs : Justified w log₀ m₀ s) (hknown : Known w s ttys)
    (hA : Sound NODEV ACTIVEMAX active A) (hzero : IsActive A 0) :
    Outcome (fun _ t => Justified w log₀ m₀ t) (scan_utmp w log active ttys) s fun r t =>
      s <+: t ∧ Justified w log₀ m₀ t ∧ Known w t r.2 ∧
        ∃ A', Sound NODEV ACTIVEMAX r.1 A' ∧ ∀ seen, seen <+: s → Logins w seen t A' := by
  unfold scan_utmp
  refine hs.quiet rfl fun hs₁ => ?_
  have hle₁ : s <+: s ++ [.openUtmp] := List.prefix_append s _
  refine Outcome.bind (outcome_answer (Q := fun r t => r = w.utmp t ∧ t = s ++ [.openUtmp]) ⟨rfl, rfl⟩) ?_
  rintro answered t ⟨rfl, rfl⟩
  cases hread : w.utmp (s ++ [.openUtmp]) with
  | none =>
    refine Outcome.bind (hs₁.adds (adds_logLine log _)) ?_
    exact fun _ t ht => outcome_throw ht.2
  | some entries =>
    refine (markAll_spec hs₁ (hknown.mono hle₁) hA).post ?_
    rintro r t ⟨hle, ht, hknown', A', hsound, hkept, hall⟩
    refine ⟨hle₁.trans hle, ht, hknown', A', hsound, fun seen hseen => ?_⟩
    exact ⟨_, entries, hseen.trans hle₁, hle, List.getLast?_concat, hread, hkept 0 hzero, hall⟩

end Logins

/-! ## A turn -/

section Turn

variable {w : Site} {log₀ : Bool} {m₀ : Mem} {s : List Event} {log : Bool} {m : Mem}

/-- The pass through the table that a turn has made. -/
structure Scanned (w : Site) (log : Bool) (start seen : List Event) (m : Mem) (procs : List Kproc) (s : Scan)
    (users : Users) : Prop where
  users_eq : users = add_all (init_usermem m.users) (memCalls procs)
  pass : ∃ malloc, scan_proc (worldAt w start seen) log malloc 0 (procs.map Kproc.toKinfo) (startScan m.fp) = some s
  asked : seen.getLast? = some (.getprocs none)
  table : procs = [] ∨ w.getprocs seen = .ok procs

theorem scanTable_spec (start : List Event) (hs : Justified w log₀ m₀ s) :
    Outcome (fun _ t => Justified w log₀ m₀ t) (scanTable w log (w.time start) m) s fun r t =>
      s ++ [.getprocs none] <+: t ∧ Justified w log₀ m₀ t ∧
        Scanned w log start (s ++ [.getprocs none]) m r.1 r.2.1 r.2.2 := by
  unfold scanTable
  refine hs.quiet rfl fun hs₁ => ?_
  have hlast : (s ++ [Event.getprocs none]).getLast? = some (.getprocs none) := List.getLast?_concat
  refine Outcome.bind (outcome_answer (Q := fun r t => r = w.getprocs t ∧ t = s ++ [.getprocs none]) ⟨rfl, rfl⟩) ?_
  rintro answered t ⟨rfl, rfl⟩
  cases hread : w.getprocs (s ++ [.getprocs none]) with
  | error geterr =>
    refine Outcome.bind (hs₁.adds (adds_logLine log _)) ?_
    rintro _ t ⟨hle, ht⟩
    exact outcome_pure ⟨hle, ht, rfl, ⟨fun _ => none, rfl⟩, hlast, Or.inl rfl⟩
  | ok procs =>
    refine Outcome.bind (outcome_answer (Q := fun r t => r = w.world t ∧ t = s ++ [.getprocs none]) ⟨rfl, rfl⟩) ?_
    rintro world t ⟨rfl, rfl⟩
    refine Outcome.bind (outcome_answer (Q := fun r t => r = w.malloc t ∧ t = s ++ [.getprocs none]) ⟨rfl, rfl⟩) ?_
    rintro malloc t ⟨rfl, rfl⟩
    have hworld : { w.world (s ++ [.getprocs none]) with curr_time := w.time start } =
        worldAt w start (s ++ [.getprocs none]) := rfl
    rw [hworld]
    cases hrun : scan_proc (worldAt w start (s ++ [.getprocs none])) log (w.malloc (s ++ [.getprocs none])) 0
        (procs.map Kproc.toKinfo) (startScan m.fp) with
    | none => exact outcome_throw hs₁
    | some scanned =>
      rw [lift_some_bind]
      exact outcome_pure ⟨List.prefix_refl _, hs₁, rfl, ⟨_, hrun⟩, hlast, Or.inr hread⟩

/-- a user on whom `check_mem` decides has too much -/
theorem Scanned.hog {start seen t : List Event} {procs : List Kproc} {scanned : Scan} {users : Users} {uid : uid_t}
    (h : Scanned w log start seen m procs scanned users) (hle : seen <+: t)
    (hact : some (.killuser uid) ∈ check_mem w.pagesize (protect_uids ++ [-1]) users)
      (huser : MIN_KILL_UID ≤ uid.toNat) :
    Hog w t uid := by
  rw [h.users_eq] at hact
  have hexcessive := excessive_of_check_mem hact huser
  rcases h.table with hnone | hread
  · subst hnone
    have hnothing : usage [] uid = [] := rfl
    have hmuch := hexcessive.2.2
    rw [hnothing, List.sum_nil, zero_mul] at hmuch
    exact absurd hmuch (by decide)
  · exact ⟨procs, ⟨seen, hle, h.asked, hread⟩, hexcessive⟩

theorem handOut_eq (malloc : ℕ → Option Proc) :
    handOut (fun i => (malloc i).isSome) (fun i => (malloc i).getD (withUid 0)) = malloc := by
  funext i
  rw [handOut]
  cases malloc i with
  | none => rfl
  | some block => rfl

/-- the fingerprints of a turn are learned -/
theorem Scanned.learned {fp₀ : Prints} {start seen t : List Event} {procs : List Kproc} {scanned : Scan} {users : Users}
    (h : Scanned w log start seen m procs scanned users) (hle : seen <+: t) (hlearned : Learned w fp₀ t m.fp) :
    Learned w fp₀ t scanned.fp := by
  obtain ⟨malloc, hrun⟩ := h.pass
  rw [← handOut_eq malloc] at hrun
  obtain ⟨hversions, -⟩ := scan_proc_reaches rfl (versions_refl : Versions _ m.fp m.fp) hrun
  refine fun i file => ⟨fun hmem => (hversions i file).1 ((hlearned i file).1 hmem), fun hmem => ?_⟩
  rcases (hversions i file).2 hmem with hold | hnew
  · exact (hlearned i file).2 hold
  · exact Or.inr ⟨seen, hle, hnew⟩

/-- what `find_orph` leaves are orphans, if there was memory for all -/
theorem Scanned.orphans {start seen : List Event} {procs : List Kproc} {scanned : Scan}
    {users : Users} {active : Active}
    {A : Finset dev_t} {found : Bool} {left : State} (h : Scanned w log start seen m procs scanned users)
    (hA : Sound NODEV ACTIVEMAX active A)
    (hfind : find_orph (procs.length + 2) { scanned.toState with tables := { scanned.tables with active := active } } =
      some (found, left)) :
    ∃ l, Holds left l ∧ (scanned.out_of_memory = false → ∀ x ∈ l, ∃ pr, x.2.pid = pr.p_pid ∧
      w.getprocs seen = .ok procs ∧ Orphan (worldAt w start seen) m.fp log (procs.map Kproc.toKinfo) A pr) := by
  obtain ⟨malloc, hrun⟩ := h.pass
  rw [← handOut_eq malloc] at hrun
  generalize (fun i => (malloc i).isSome) = ok at hrun
  generalize (fun i => (malloc i).getD (withUid 0)) = junk at hrun
  have hscan : scan (worldAt w start seen) m.fp active (procs.length + 2) (procs.map Kproc.toKinfo)
      log (handOut ok junk) = some (found, left) := by
    rw [scan, hrun, Option.bind_some]
    exact hfind
  have hfuel : (procs.map Kproc.toKinfo).length + 1 < procs.length + 2 := by
    rw [List.length_map]
    exact Nat.lt_succ_self _
  have hspec := scan_spec (worldAt w start seen) m.fp ok hA hfuel log junk
  by_cases hreadable : Readable (worldAt w start seen) m.fp log ok 0 (procs.map Kproc.toKinfo)
  · obtain ⟨b, left', heq, hholds⟩ := hspec.1 hreadable
    rw [hscan] at heq
    cases heq
    refine ⟨_, hholds, fun hmem x hx => ?_⟩
    obtain ⟨-, hnode, hstays, hspared⟩ := mem_orphans.1 hx
    obtain ⟨⟨i, pr⟩, hlisted, rfl⟩ := mem_nodes.1 hnode
    obtain ⟨hreached, hl⟩ := List.mem_filter.1 hlisted
    have hpr : pr ∈ procs.map Kproc.toKinfo := List.mem_of_getElem? (getElem?_of_reached _ _ hreached).2
    have hall := (scan_proc_reaches rfl (versions_refl : Versions _ m.fp m.fp) hrun).2 hmem
    have hcore : SameCore (core (worldAt w start seen) m.fp pr)
        (nodeOf (worldAt w start seen) m.fp log junk (i, pr)).2 :=
      sameCore_core log (junk i) pr
    rcases h.table with hnone | hread
    · subst hnone
      cases hpr
    · refine ⟨pr, hcore.pid.symm, hread, ⟨hpr, of_decide_eq_true hl, ?_⟩, fun hsheltered => ?_⟩
      · rwa [hcore.droppedFirst]
      · exact hspared (hsheltered.spared hall i hlisted)
  · rw [hspec.2 hreadable] at hscan
    cases hscan

/-- what robocop keeps is learned and known -/
structure Informed (w : Site) (fp₀ : Prints) (t : List Event) (m : Mem) : Prop where
  learned : Learned w fp₀ t m.fp
  known : Known w t m.ttys

/-- one turn sends no signal without grounds -/
theorem patrol_justified (hturn : Turn w log₀ m₀ log m s) (hs : Justified w log₀ m₀ s) (hm : Informed w m₀.fp s m) :
    Outcome (fun _ t => Justified w log₀ m₀ t) (patrol w log (w.time s) m) s fun m' t =>
      s <+: t ∧ Justified w log₀ m₀ t ∧ Informed w m₀.fp t m' := by
  unfold patrol
  refine Outcome.bind (hs.adds (adds_logLine log _)).returns ?_
  rintro _ s₁ ⟨⟨hle₁, hs₁⟩, hrun₁⟩
  refine Outcome.bind (hs₁.adds (adds_flush log)).returns ?_
  rintro _ s₂ ⟨⟨hle₂, hs₂⟩, hrun₂⟩
  have hasked : s₂ ++ [.getprocs none] = tableOf w log s := by
    rw [exec_logLine] at hrun₁
    rw [exec_flush] at hrun₂
    rw [← (Prod.mk.inj hrun₂).2, ← (Prod.mk.inj hrun₁).2, tableOf]
    cases log <;> simp
  have hfirst : Sound NODEV ACTIVEMAX (init_active ⟨fun _ => 0, 0⟩) ∅ := sound_init (⟨fun _ => 0, 0⟩ : Active)
  obtain ⟨active, hset, hsound⟩ := hfirst.add_set (by decide) (by decide : (0 : dev_t) ≠ NODEV)
  rw [set_active, hset, lift_some_bind]
  refine Outcome.bind (scanTable_spec s hs₂) ?_
  rintro ⟨procs, scanned, users⟩ s₃ ⟨hle₃, hs₃, hscanned⟩
  rw [hasked] at hle₃ hscanned
  refine Outcome.bind (actAll_justified hs₃ fun uid hact huser => hscanned.hog hle₃ hact huser) ?_
  rintro _ s₄ ⟨hle₄, hs₄⟩
  have hseen : tableOf w log s <+: s₄ := hle₃.trans hle₄
  have hle : s <+: s₄ := by
    refine List.IsPrefix.trans ?_ hseen
    rw [tableOf, List.append_assoc]
    exact List.prefix_append s _
  refine Outcome.bind (scan_utmp_spec hs₄ (hm.known.mono hle) hsound (isActive_add 0).1) ?_
  rintro ⟨active', ttys'⟩ s₅ ⟨hle₅, hs₅, hknown, A, hA, hlogins⟩
  have hle' : s <+: s₅ := hle.trans hle₅
  have hkept : Informed w m₀.fp s₅ ⟨scanned.fp, ttys', users⟩ :=
    ⟨hscanned.learned (hseen.trans hle₅) (hm.learned.mono hle'), hknown⟩
  dsimp only
  cases hfind : find_orph (procs.length + 2)
      { scanned.toState with tables := { scanned.tables with active := active' } } with
  | none => exact outcome_throw hs₅
  | some r =>
    obtain ⟨found, left⟩ := r
    obtain ⟨l, hholds, horphans⟩ := hscanned.orphans hA hfind
    rw [lift_some_bind]
    refine Outcome.ite (fun _ => ?_) fun _ => outcome_pure ⟨hle', hs₅, hkept⟩
    have hkill : scanned.out_of_memory = false → ∀ x ∈ l, 2 ≤ x.2.pid.toInt → ∀ sig,
        Deserved w log₀ m₀ s₅ x.2.pid sig := by
      intro hmem x hx hpid sig
      obtain ⟨pr, heq, hread, horphan⟩ := horphans hmem x hx
      rw [heq] at hpid ⊢
      exact .orphan sig ⟨hturn, hseen.trans hle₅, hread, hm.learned.mono hle', hlogins _ hseen, horphan⟩ hpid
    refine Outcome.bind (hs₅.adds (adds_logLine log _)) ?_
    rintro _ s₆ ⟨hle₆, hs₆⟩
    refine Outcome.bind (hs₆.adds (adds_flush log)) ?_
    rintro _ s₇ ⟨hle₇, hs₇⟩
    refine hs₇.quiet rfl fun hs₈ => ?_
    have hle₈ : s₅ <+: s₇ ++ [.snooze (3 * MINUTES) false] := (hle₆.trans hle₇).trans (List.prefix_append s₇ _)
    have horph : Adds (Sends (Deserved w log₀ m₀ (s₇ ++ [.snooze (3 * MINUTES) false])))
        (kill_orph w log scanned.out_of_memory (procs.length + 2) left) :=
      kill_orph_adds hholds fun hmem x hx hpid sig => (hkill hmem x hx hpid sig).mono hle₈
    refine Outcome.bind (hs₈.adds horph) ?_
    rintro _ t ⟨hle₉, ht⟩
    have hle'' : s₅ <+: t := hle₈.trans hle₉
    exact outcome_pure ⟨hle'.trans hle'', ht, hkept.learned.mono hle'', hkept.known.mono hle''⟩

/-- the main loop, from a turn on -/
theorem mainLoop_justified {n : ℕ} (hturn : Turn w log₀ m₀ log m s) (hs : Justified w log₀ m₀ s)
    (hm : Informed w m₀.fp s m) :
    Outcome (fun _ t => Justified w log₀ m₀ t) (mainLoop w n log m) s fun _ t => Justified w log₀ m₀ t := by
  induction n generalizing s log m with
  | zero => exact outcome_pure hs
  | succ n ih =>
    rw [mainLoop]
    refine Outcome.bind (outcome_answer (Q := fun r t => r = w.time t ∧ t = s) ⟨rfl, rfl⟩) ?_
    rintro start t ⟨rfl, rfl⟩
    refine Outcome.bind (patrol_justified hturn hs hm).returns ?_
    rintro m' u ⟨⟨-, hu, hm'⟩, hrun⟩
    refine Outcome.bind (outcome_answer (Q := fun r v => r = w.woken u ∧ v = u) ⟨rfl, rfl⟩) ?_
    rintro woken v ⟨rfl, rfl⟩
    refine Outcome.bind (outcome_answer (Q := fun r u => r = w.time v ∧ u = v) ⟨rfl, rfl⟩) ?_
    rintro now u ⟨rfl, rfl⟩
    refine hu.quiet rfl fun hu' => ?_
    have hle := List.prefix_append u [pause w t u]
    refine Outcome.bind (outcome_answer (Q := fun r v => r = w.reopen v ∧ v = u ++ [pause w t u]) ⟨rfl, rfl⟩) ?_
    rintro log' v ⟨rfl, rfl⟩
    exact ih (hturn.next hrun) hu' ⟨hm'.learned.mono hle, hm'.known.mono hle⟩

end Turn

/-- **Nobody is killed without grounds.** Whatever the system answers, every signal that robocop sends in any number of
turns, until it ends if it does, had grounds in what had been answered before the signal. -/
theorem mainLoop_grounds (w : Site) (fp₀ : Prints) (T : Ttynumbers) (users : Users) (log : Bool) (n : ℕ) :
    Justified w log ⟨fp₀, init_ttynumber T, users⟩ (exec (mainLoop w n log ⟨fp₀, init_ttynumber T, users⟩) []).2 := by
  have hinformed : Informed w fp₀ [] ⟨fp₀, init_ttynumber T, users⟩ := by
    refine ⟨fun i file => ⟨id, Or.inl⟩, Contents.empty, ttySound_init T, ?_⟩
    rintro name dev ⟨⟩
  have hrun : Outcome _ (mainLoop w n log _) [] _ :=
    mainLoop_justified Turn.first (grounded_nil : Justified w log ⟨fp₀, init_ttynumber T, users⟩ []) hinformed
  unfold Outcome at hrun
  rcases h : exec (mainLoop w n log ⟨fp₀, init_ttynumber T, users⟩) [] with ⟨r, t⟩
  rw [h] at hrun
  cases r with
  | ok a => exact hrun
  | error e => exact hrun

/-- a process of user 1007 on a tty -/
def joes (pid : pid_t) (tdev : dev_t) (h : pid ≠ 0) : Kproc :=
  ⟨⟨pid, 1, 1007, 1007, tdev, 0, 0, "vi".toList, "joe".toList, some (4, 12), some ["vi".toList], h⟩, 20, 10, false, []⟩

theorem first_pid_ne : (100 : pid_t) ≠ 0 := by decide

theorem second_pid_ne : (101 : pid_t) ≠ 0 := by decide

theorem ttyp1_ne : (some 6 : Option dev_t) ≠ some NODEV := by decide

/-- two processes, of which the second is on the tty with a login -/
def twoTtys : Site where
  getprocs _ := .ok [joes 100 5 first_pid_ne, joes 101 6 second_pid_ne]
  nice _ := true
  kill _ := true
  kperpage := 4
  world _ := ⟨0, fun _ => none, fun _ _ => true⟩
  time _ := 0
  woken _ := none
  reopen _ := false
  malloc _ _ := some (withUid 0)
  utmp _ := some [("joe".toList, "ttyp1".toList)]
  rdev _ := some 6
  rdev_ne _ := ttyp1_ne
  names := epoch
  buf _ := []
  pagesize := 4096

def atStart : Mem := ⟨fun _ => [], init_ttynumber ⟨fun _ => ⟨[], Nat.zero_le _, 0⟩, 0⟩, ⟨fun _ => ⟨0, 0, 0⟩, 0⟩⟩

set_option maxRecDepth 10000 in
/-- one turn: the first of the two is killed, and had been an orphan -/
theorem orphan_grounds :
    (exec (mainLoop twoTtys 1 false atStart) []).2 =
      [.getprocs none, .openUtmp, .stat "/dev/ttyp1".toList, .snooze 180 false,
      .kill 100 .soft, .snooze 15 false, .kill 100 .hard, .snooze 480 false] ∧
    Justified twoTtys false atStart (exec (mainLoop twoTtys 1 false atStart) []).2 := by
  refine ⟨?_, mainLoop_grounds twoTtys _ _ _ false 1⟩
  rfl

end MNetSoft.Robocop
