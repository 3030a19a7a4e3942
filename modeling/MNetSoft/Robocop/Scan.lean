/-
One scan of robocop (`scan_proc` of `scanproc.c`, then `find_orph`), run twice: once with the log file open, once
without. The kernel tells of each process what `kinfo_proc` holds, the file it runs and its arguments; `malloc` hands
out blocks of arbitrary content. A read before the start of a buffer gives `none`, and so does the message about a
program that is not there, which goes to the log and leaves out the argument of its `%s`.

- `scan_proc`: the pass through the process table, with `is_sysproc` and `save_args`.
- `scan_proc_spec`: which processes it lists and which it makes hens, and when it is undefined.
- `LogBlind`: whatever `malloc` hands out, both scans leave the same pids on the list.
- `logging_iff`: exactly when that is so.
- `screen_unlogged`: a screen process that is spared with a log file and may be killed without one.
-/
import Mathlib.Tactic
import MNetSoft.Robocop.Orphans

namespace MNetSoft.Robocop

open MNetSoft.CString MNetSoft.LinkedList

/-! ## Model -/

abbrev ino_t := BitVec 64

/-- the programs robocop recognizes -/
inductive Sysproc where
  | sh
  | sendmail
  | postfix_id
  | ftpd
  | screen
  | sshd
  | ircd
  | dovecot
deriving DecidableEq

def Sysproc.name : Sysproc → Str
  | .sh => "sh".toList
  | .sendmail => "sendmail".toList
  | .postfix_id => "master".toList
  | .ftpd => "ftpd".toList
  | .screen => "screen".toList
  | .sshd => "sshd".toList
  | .ircd => "ircd".toList
  | .dovecot => "dovecot".toList

/-- what the kernel tells of a process -/
structure Kinfo where
  p_pid : pid_t
  p_ppid : pid_t
  p_ruid : uid_t
  p_uid : uid_t
  p_tdev : dev_t
  p_ustart_sec : ℤ
  p_ustart_usec : ℤ
  p_comm : Str
  p_login : Str
  /-- the file it runs, if that can be read -/
  text : Option (dev_t × ino_t)
  /-- its arguments, if they can be read -/
  argv : Option (List Str)
  /-- kernel threads are not in the table -/
  pid_ne : p_pid ≠ 0

/-- what else is outside the program -/
structure World where
  curr_time : ℤ
  /-- the files installed -/
  stat : Sysproc → Option (dev_t × ino_t)
  /-- is there memory for a new fingerprint -/
  room : Sysproc → Kinfo → Bool

/-- the fingerprints stored -/
abbrev Prints := Sysproc → List (dev_t × ino_t)

def MAXCALEN : ℕ := 100

def MAXCOMLEN : ℕ := 16

def MAXLOGNAME : ℕ := 32

def MINUTES : ℤ := 60

def HOURS : ℤ := 3600

def FTP_TOO_OLD : ℤ := 6 * HOURS

def FINGERD_TOO_OLD : ℤ := 10 * MINUTES

def protect_uids : List uid_t :=
  [0, 1, 2, 3, 27, 28, 29, 30, 32, 33, 35, 59, 60, 62, 66, 67, 68, 70, 71, 73, 74, 75, 76, 81, 83, 84, 502, 504, 506,
    507, 24594, 32767]

/-- does the buffer end in a character other than a blank; `none` if it is empty -/
def endsWord (buf : Str) : Option Bool := buf.getLast?.map fun c => c != ' '

/-- copy one argument behind the buffer, dropping blanks after a blank, as far as there is room -/
def saveArg : Str → Str → Option Str
  | buf, [] => some buf
  | buf, c :: p =>
    if buf.length < MAXCALEN then
      (if c != ' ' then some true else endsWord buf).bind fun keep => saveArg (if keep then buf ++ [c] else buf) p
    else some buf

/-- the arguments from the second on -/
def saveRest : Str → List Str → Option Str
  | buf, [] => some buf
  | buf, a :: arg =>
    if buf.length < MAXCALEN then
      (endsWord buf).bind fun sep => (saveArg (if sep then buf ++ [' '] else buf) a).bind fun buf => saveRest buf arg
    else some buf

/-- the arguments as one command line; `none` if the character before the buffer is read -/
def save_args : List Str → Option Str
  | [] => some []
  | a :: arg => (saveArg [] a).bind fun buf => saveRest buf arg

/-- is this the right file; a new version is added to the fingerprints -/
def check_sysproc (w : World) (log : Bool) (i : Sysproc) (pr : Kinfo) (file : dev_t × ino_t) (fp : Prints) :
    Option (Bool × Prints) :=
  if file ∈ fp i then some (true, fp)
  else
    match w.stat i with
    -- "Can't stat program file %s", without the argument
    | none => if log then none else some (true, fp)
    | some st =>
      if st ≠ file then some (false, fp)
      else if w.room i pr then some (true, Function.update fp i (st :: fp i))
      else some (true, fp)

/-- Is the process the one of that name. The file is looked up each time, since `saved_pid` stays 0. -/
def is_sysproc (w : World) (log : Bool) (i : Sysproc) (pr : Kinfo) (fp : Prints) : Option (Bool × Prints) :=
  if strcmp i.name pr.p_comm ≠ 0 then some (false, fp)
  else
    match pr.text with
    | none => some (false, fp)
    | some file => check_sysproc w log i pr file fp

/-- the state during the scan -/
structure Scan extends State where
  fp : Prints
  out_of_memory : Bool

/-- the process becomes a hen -/
def makeHen (pr : Kinfo) (s : Scan) : Option Scan :=
  (add_hen s.tables.hen pr.p_pid).map fun T => { s with tables := { s.tables with hen := T } }

/-- protect a system process and its children, or go on -/
def protect (w : World) (log : Bool) (i : Sysproc) (pr : Kinfo) (s : Scan) (next : Scan → Option Scan) : Option Scan :=
  (is_sysproc w log i pr s.fp).bind fun r =>
    let s := { s with fp := r.2 }
    if r.1 then makeHen pr s else next s

/-- the record of a process in a block from `malloc` -/
def newProc (log : Bool) (new : Proc) (pr : Kinfo) (args : Str) (sh screen : Bool) : Proc :=
  let new := { new with
    pid := pr.p_pid, ppid := pr.p_ppid, has_ctty := pr.p_tdev != NODEV, ctty := pr.p_tdev, args := args }
  let new :=
    if log then
      { new with
        uid := pr.p_ruid, euid := pr.p_uid, start := (pr.p_ustart_sec, pr.p_ustart_usec),
        comm := strlcpy pr.p_comm (MAXCOMLEN + 1), user := strlcpy pr.p_login (MAXLOGNAME + 1) }
    else new
  { new with am_sh := sh, am_screen := screen }

/-- put the process `i` of the table on the list -/
def listProc (w : World) (log : Bool) (malloc : ℕ → Option Proc) (i : ℕ) (pr : Kinfo) (s : Scan) : Option Scan :=
  match malloc i with
  | none => some { s with out_of_memory := true }
  | some block =>
    (match pr.argv with
      | some arg => save_args arg
      | none => some (strlcpy "<unknown>".toList (MAXCALEN + 1))).bind fun args =>
      (is_sysproc w log .sh pr s.fp).bind fun sh =>
        (if sh.1 then some (false, sh.2) else is_sysproc w log .screen pr sh.2).map fun screen : Bool × Prints =>
          { s with
            heap := store i ⟨newProc log block pr args sh.1 screen.1, s.proclist⟩ s.heap, proclist := some i,
            fp := screen.2 }

/-- protect a young `ftpd`, and the processes of the protected users: those of an `ftpd` by its effective user -/
def protectFtpd (w : World) (log : Bool) (malloc : ℕ → Option Proc) (i : ℕ) (pr : Kinfo) (s : Scan) : Option Scan :=
  (is_sysproc w log .ftpd pr s.fp).bind fun ftpd =>
    let s := { s with fp := ftpd.2 }
    let uid := if ftpd.1 then pr.p_uid else pr.p_ruid
    if ftpd.1 ∧ w.curr_time - pr.p_ustart_sec < FTP_TOO_OLD then makeHen pr s
    else
      protect w log .sshd pr s fun s =>
        if (strcmp pr.p_comm "fingerd".toList ≠ 0 ∨ w.curr_time - pr.p_ustart_sec < FINGERD_TOO_OLD) ∧
            uid ∈ protect_uids then
          some s
        else listProc w log malloc i pr s

/-- one process of the table -/
def scanOne (w : World) (log : Bool) (malloc : ℕ → Option Proc) (i : ℕ) (pr : Kinfo) (s : Scan) : Option Scan :=
  if s.out_of_memory then some s
  else
    protect w log .sendmail pr s fun s => protect w log .postfix_id pr s fun s => protect w log .ircd pr s fun s =>
      protect w log .dovecot pr s fun s => protectFtpd w log malloc i pr s

/-- the processes of the table from number `i` on -/
def scan_proc (w : World) (log : Bool) (malloc : ℕ → Option Proc) : ℕ → List Kinfo → Scan → Option Scan
  | _, [], s => some s
  | i, pr :: table, s => (scanOne w log malloc i pr s).bind fun s => scan_proc w log malloc (i + 1) table s

/-- the state before a scan -/
def startScan (fp : Prints) : Scan where
  heap _ := none
  proclist := none
  tables := ⟨init_active ⟨fun _ => 0, 0⟩, noHens, ⟨fun _ => 0, 0⟩, false⟩
  fp := fp
  out_of_memory := false

/-- a scan: list the processes, mark the active ttys, drop those that are no orphans -/
def scan (w : World) (fp : Prints) (active : Active) (fuel : ℕ) (table : List Kinfo) (log : Bool)
    (malloc : ℕ → Option Proc) : Option (Bool × State) :=
  (scan_proc w log malloc 0 table (startScan fp)).bind fun s =>
    find_orph fuel { s.toState with tables := { s.tables with active := active } }

/-! ## What a process is -/

section Kinds

variable (w : World) (fp : Prints)

/-- is the process the one of that name, by the fingerprints before the scan -/
def isSys (i : Sysproc) (pr : Kinfo) : Bool :=
  strcmp i.name pr.p_comm = 0 &&
    pr.text.any fun file => file ∈ fp i || (w.stat i).isNone || w.stat i == some file

/-- the process becomes a hen -/
def IsHen (pr : Kinfo) : Prop :=
  isSys w fp .sendmail pr = true ∨ isSys w fp .postfix_id pr = true ∨ isSys w fp .ircd pr = true ∨
    isSys w fp .dovecot pr = true ∨
    (isSys w fp .ftpd pr = true ∧ w.curr_time - pr.p_ustart_sec < FTP_TOO_OLD) ∨ isSys w fp .sshd pr = true

instance : DecidablePred (IsHen w fp) := fun _ => by
  unfold IsHen
  infer_instance

/-- the process belongs to a protected user -/
def UidProtected (pr : Kinfo) : Prop :=
  (strcmp pr.p_comm "fingerd".toList ≠ 0 ∨ w.curr_time - pr.p_ustart_sec < FINGERD_TOO_OLD) ∧
    (if isSys w fp .ftpd pr then pr.p_uid else pr.p_ruid) ∈ protect_uids

instance : DecidablePred (UidProtected w fp) := fun _ => by
  unfold UidProtected
  infer_instance

/-- the process is put on the list -/
def IsListed (pr : Kinfo) : Prop := ¬ IsHen w fp pr ∧ ¬ UidProtected w fp pr

instance : DecidablePred (IsListed w fp) := fun _ => by
  unfold IsListed
  infer_instance

/-- the process has the name of a program that is not there, and runs a file that is not known as that program -/
def Unstatable (i : Sysproc) (pr : Kinfo) : Prop :=
  strcmp i.name pr.p_comm = 0 ∧ ∃ file ∈ pr.text, file ∉ fp i ∧ w.stat i = none

instance (i : Sysproc) (pr : Kinfo) : Decidable (Unstatable w fp i pr) := by
  unfold Unstatable
  infer_instance

/-- it is compared with one of the programs that are looked for first -/
def UnstatableDaemon (pr : Kinfo) : Prop :=
  Unstatable w fp .sendmail pr ∨ Unstatable w fp .postfix_id pr ∨ Unstatable w fp .ircd pr ∨
    Unstatable w fp .dovecot pr ∨ Unstatable w fp .ftpd pr ∨ Unstatable w fp .sshd pr

instance : DecidablePred (UnstatableDaemon w fp) := fun _ => by
  unfold UnstatableDaemon
  infer_instance

/-- the programs that the processes are compared with are there, as far as the scan goes; those of the listed ones
include `sh` and `screen` -/
def Statable (ok : ℕ → Bool) : ℕ → List Kinfo → Prop
  | _, [] => True
  | i, pr :: table =>
    ¬ UnstatableDaemon w fp pr ∧
      (IsListed w fp pr → ok i = true → ¬ Unstatable w fp .sh pr ∧ ¬ Unstatable w fp .screen pr) ∧
        (IsListed w fp pr ∧ ok i = false ∨ Statable ok (i + 1) table)

/-- the command line of a process -/
def argsOf (pr : Kinfo) : Option Str :=
  match pr.argv with
  | some arg => save_args arg
  | none => some (strlcpy "<unknown>".toList (MAXCALEN + 1))

/-- the record of a process -/
def procOf (log : Bool) (block : Proc) (pr : Kinfo) : Proc :=
  newProc log block pr ((argsOf pr).getD []) (isSys w fp .sh pr) (!isSys w fp .sh pr && isSys w fp .screen pr)

/-- the processes of the table that are looked at: those up to the first for which there is no memory -/
def reached (ok : ℕ → Bool) : ℕ → List Kinfo → List (ℕ × Kinfo)
  | _, [] => []
  | i, pr :: table => if IsListed w fp pr ∧ ok i = false then [] else (i, pr) :: reached ok (i + 1) table

/-- the processes that are put on the list, with their numbers -/
def listed (ok : ℕ → Bool) (i : ℕ) (table : List Kinfo) : List (ℕ × Kinfo) :=
  (reached w fp ok i table).filter fun x => IsListed w fp x.2

/-- the pids that become hens -/
def henPids (ok : ℕ → Bool) (i : ℕ) (table : List Kinfo) : List pid_t :=
  ((reached w fp ok i table).filter fun x => IsHen w fp x.2).map fun x => x.2.p_pid

end Kinds

/-- `malloc` that fails for some processes and hands out blocks with this content for the others -/
def handOut (ok : ℕ → Bool) (junk : ℕ → Proc) (i : ℕ) : Option Proc := if ok i then some (junk i) else none

/-! ## The scan -/

section Scanning

variable {w : World} {fp : Prints} {i : Sysproc} {pr : Kinfo} {s : Scan}

variable (w fp) in
/-- the fingerprints have grown by the installed files at most -/
def Versions (fp' : Prints) : Prop :=
  ∀ i file, (file ∈ fp i → file ∈ fp' i) ∧ (file ∈ fp' i → file ∈ fp i ∨ w.stat i = some file)

theorem versions_refl : Versions w fp fp := fun _ _ => ⟨id, Or.inl⟩

/-- a file that is not there stays unknown -/
theorem Versions.unstatable_iff {fp' : Prints} (h : Versions w fp fp') (i : Sysproc) (pr : Kinfo) :
    Unstatable w fp' i pr ↔ Unstatable w fp i pr := by
  refine and_congr_right fun _ => exists_congr fun file => and_congr_right fun _ => ?_
  constructor
  · rintro ⟨hnew, hstat⟩
    exact ⟨fun hold => hnew ((h i file).1 hold), hstat⟩
  · rintro ⟨hold, hstat⟩
    refine ⟨fun hnew => ?_, hstat⟩
    rcases (h i file).2 hnew with hfile | hfile
    · exact hold hfile
    · rw [hstat] at hfile
      cases hfile

/-- a new fingerprint makes no difference to the answers -/
theorem is_sysproc_spec {fp' : Prints} (h : Versions w fp fp') (log : Bool) (i : Sysproc) (pr : Kinfo) :
    if log = true ∧ Unstatable w fp i pr then is_sysproc w log i pr fp' = none
    else ∃ fp₁, is_sysproc w log i pr fp' = some (isSys w fp i pr, fp₁) ∧ Versions w fp fp₁ := by
  suffices hsame : if log = true ∧ Unstatable w fp' i pr then is_sysproc w log i pr fp' = none
      else ∃ fp₁, is_sysproc w log i pr fp' = some (isSys w fp i pr, fp₁) ∧ Versions w fp fp₁ by
    simpa only [h.unstatable_iff] using hsame
  unfold is_sysproc isSys
  by_cases hname : strcmp i.name pr.p_comm = 0
  · rw [if_neg (not_not.2 hname), decide_eq_true hname, Bool.true_and]
    cases htext : pr.text with
    | none =>
      rw [if_neg (by simp [Unstatable, htext])]
      exact ⟨fp', rfl, h⟩
    | some file =>
      have hun : Unstatable w fp' i pr ↔ file ∉ fp' i ∧ w.stat i = none := by simp [Unstatable, htext, hname]
      dsimp only [Option.any_some]
      unfold check_sysproc
      by_cases hfile : file ∈ fp' i
      · rw [if_neg fun hx => (hun.1 hx.2).1 hfile, if_pos hfile]
        refine ⟨fp', ?_, h⟩
        rcases (h i file).2 hfile with hold | hstat
        · simp [hold]
        · simp [hstat]
      · rw [if_neg hfile]
        have hold : file ∉ fp i := fun hf => hfile ((h i file).1 hf)
        cases hstat : w.stat i with
        | none =>
          cases log with
          | true =>
            rw [if_pos ⟨rfl, hun.2 ⟨hfile, hstat⟩⟩]
            rfl
          | false =>
            rw [if_neg fun hx => Bool.false_ne_true hx.1]
            exact ⟨fp', by simp, h⟩
        | some st =>
          rw [if_neg fun hx => Option.some_ne_none st (hstat.symm.trans (hun.1 hx.2).2)]
          by_cases hst : st = file
          · subst hst
            dsimp only
            rw [if_neg (not_not.2 rfl)]
            split_ifs
            · refine ⟨Function.update fp' i (st :: fp' i), by simp, fun j f => ?_⟩
              by_cases hj : j = i
              · subst hj
                rw [Function.update_self, List.mem_cons]
                constructor
                · exact fun hf => Or.inr ((h j f).1 hf)
                · intro hx
                  rcases hx with rfl | hf
                  · exact Or.inr hstat
                  · exact (h j f).2 hf
              · rw [Function.update_of_ne hj]
                exact h j f
            · exact ⟨fp', by simp, h⟩
          · dsimp only
            rw [if_pos hst]
            exact ⟨fp', by simp [hold, hst], h⟩
  · rw [if_neg fun hbad => hname hbad.2.1, if_pos hname, decide_eq_false hname]
    exact ⟨fp', rfl, h⟩

/-- a process has the name of one program only -/
theorem name_unique {i j : Sysproc} (hi : strcmp i.name pr.p_comm = 0) (hj : strcmp j.name pr.p_comm = 0) : i = j := by
  have hinj : ∀ i j : Sysproc, i.name = j.name → i = j := by
    intro i j hij
    cases i <;> cases j <;> first | rfl | exact absurd hij (by decide)
  exact hinj i j (((strcmp_zero _ _).1 hi).trans ((strcmp_zero _ _).1 hj).symm)

theorem not_isSys_of_unstatable {i j : Sysproc} (hj : Unstatable w fp j pr) (hij : i ≠ j) :
    isSys w fp i pr = false := by
  have hname : strcmp i.name pr.p_comm ≠ 0 := fun hi => hij (name_unique hi hj.1)
  rw [isSys, decide_eq_false hname, Bool.false_and]

variable (w fp pr) in
/-- the function is undefined if `bad` holds; else it makes a hen of the process if `P` holds, and does as `next`
does if not, after some new fingerprints -/
def Settles (bad P : Prop) [Decidable bad] [Decidable P] (next f : Scan → Option Scan) (s : Scan) : Prop :=
  ∀ fp', Versions w fp fp' → if bad then f { s with fp := fp' } = none else ∃ fp₁, Versions w fp fp₁ ∧
    f { s with fp := fp' } = if P then makeHen pr { s with fp := fp₁ } else next { s with fp := fp₁ }

variable (w fp pr) in
theorem settles_self (next : Scan → Option Scan) (s : Scan) : Settles w fp pr False False next next s := by
  intro fp' h
  rw [if_neg id]
  exact ⟨fp', h, rfl⟩

theorem Settles.protect {bad P : Prop} [Decidable bad] [Decidable P] {next f : Scan → Option Scan} {s : Scan}
    (hf : Settles w fp pr bad P next f s) (log : Bool) (i : Sysproc) (hbad : bad → isSys w fp i pr = false) :
    Settles w fp pr (log = true ∧ Unstatable w fp i pr ∨ bad) (isSys w fp i pr = true ∨ P) next
      (fun s => protect w log i pr s f) s := by
  intro fp' h
  have hsys := is_sysproc_spec h log i pr
  unfold Robocop.protect
  dsimp only
  by_cases hun : log = true ∧ Unstatable w fp i pr
  · rw [if_pos hun] at hsys
    rw [if_pos (Or.inl hun), hsys]
    rfl
  · rw [if_neg hun] at hsys
    obtain ⟨fp₁, hsys, h₁⟩ := hsys
    have hnext := hf fp₁ h₁
    rw [hsys, Option.bind_some]
    dsimp only
    by_cases hb : bad
    · rw [if_pos hb] at hnext
      rw [if_pos (Or.inr hb), hbad hb]
      exact hnext
    · rw [if_neg hb] at hnext
      rw [if_neg (not_or.2 ⟨hun, hb⟩)]
      by_cases hi : isSys w fp i pr = true
      · refine ⟨fp₁, h₁, ?_⟩
        rw [if_pos hi, if_pos (Or.inl hi)]
      · obtain ⟨fp₂, h₂, e₂⟩ := hnext
        refine ⟨fp₂, h₂, ?_⟩
        rw [if_neg hi, e₂]
        by_cases hP : P
        · rw [if_pos hP, if_pos (Or.inr hP)]
        · rw [if_neg hP, if_neg (not_or.2 ⟨hi, hP⟩)]

variable (w fp) in
/-- a young `ftpd` or an `sshd` becomes a hen, the others are listed unless their user is protected -/
theorem protectFtpd_settles (log : Bool) (malloc : ℕ → Option Proc) (i : ℕ) (pr : Kinfo) (s : Scan) :
    Settles w fp pr (log = true ∧ Unstatable w fp .ftpd pr ∨ log = true ∧ Unstatable w fp .sshd pr ∨ False)
      ((isSys w fp .ftpd pr = true ∧ w.curr_time - pr.p_ustart_sec < FTP_TOO_OLD) ∨
        (isSys w fp .sshd pr = true ∨ False))
      (fun s => if UidProtected w fp pr then some s else listProc w log malloc i pr s)
      (fun s => protectFtpd w log malloc i pr s) s := by
  intro fp' h
  have hsys := is_sysproc_spec h log .ftpd pr
  unfold protectFtpd
  dsimp only
  by_cases hun : log = true ∧ Unstatable w fp .ftpd pr
  · rw [if_pos hun] at hsys
    rw [if_pos (Or.inl hun), hsys]
    rfl
  · rw [if_neg hun] at hsys
    obtain ⟨fp₁, hsys, h₁⟩ := hsys
    have hnext := (settles_self w fp pr
      (fun s => if UidProtected w fp pr then some s else listProc w log malloc i pr s) s).protect log .sshd False.elim
      fp₁ h₁
    rw [hsys, Option.bind_some]
    dsimp only
    by_cases hb : log = true ∧ Unstatable w fp .sshd pr ∨ False
    · have hftpd : isSys w fp .ftpd pr = false :=
        not_isSys_of_unstatable ((or_iff_left id).1 hb).2 (by decide)
      rw [if_pos hb] at hnext
      rw [if_pos (Or.inr hb), if_neg fun hx => Bool.false_ne_true (hftpd.symm.trans hx.1)]
      exact hnext
    · rw [if_neg hb] at hnext
      rw [if_neg (not_or.2 ⟨hun, hb⟩)]
      by_cases hyoung : isSys w fp .ftpd pr = true ∧ w.curr_time - pr.p_ustart_sec < FTP_TOO_OLD
      · refine ⟨fp₁, h₁, ?_⟩
        rw [if_pos hyoung, if_pos (Or.inl hyoung)]
      · obtain ⟨fp₂, h₂, e₂⟩ := hnext
        refine ⟨fp₂, h₂, ?_⟩
        rw [if_neg hyoung]
        refine Eq.trans e₂ ?_
        by_cases hsshd : isSys w fp .sshd pr = true ∨ False
        · rw [if_pos hsshd, if_pos (Or.inr hsshd)]
        · rw [if_neg hsshd, if_neg (not_or.2 ⟨hyoung, hsshd⟩)]

/-- what is done with a process while there is memory -/
theorem scanOne_spec (hmem : s.out_of_memory = false) (h : Versions w fp s.fp) (log : Bool) (malloc : ℕ → Option Proc)
    (i : ℕ) (pr : Kinfo) :
    if log = true ∧ UnstatableDaemon w fp pr then scanOne w log malloc i pr s = none
    else ∃ fp', Versions w fp fp' ∧ scanOne w log malloc i pr s =
      if IsHen w fp pr then makeHen pr { s with fp := fp' }
      else if UidProtected w fp pr then some { s with fp := fp' }
      else listProc w log malloc i pr { s with fp := fp' } := by
  have hrun : scanOne w log malloc i pr s = protect w log .sendmail pr s fun s =>
      protect w log .postfix_id pr s fun s =>
      protect w log .ircd pr s fun s => protect w log .dovecot pr s fun s => protectFtpd w log malloc i pr s := by
    rw [scanOne, if_neg (by rw [hmem]; exact Bool.false_ne_true)]
  rw [hrun]
  have hone : ∀ {j k : Sysproc}, k ≠ j → log = true ∧ Unstatable w fp j pr → isSys w fp k pr = false :=
    fun hne hx => not_isSys_of_unstatable hx.2 hne
  have hftpd := protectFtpd_settles w fp log malloc i pr s
  have hdovecot := hftpd.protect log .dovecot fun hbad => by
    rcases hbad with hx | hx | hx
    · exact hone (by decide) hx
    · exact hone (by decide) hx
    · exact hx.elim
  have hircd := hdovecot.protect log .ircd fun hbad => by
    rcases hbad with hx | hx | hx | hx
    · exact hone (by decide) hx
    · exact hone (by decide) hx
    · exact hone (by decide) hx
    · exact hx.elim
  have hpostfix := hircd.protect log .postfix_id fun hbad => by
    rcases hbad with hx | hx | hx | hx | hx
    · exact hone (by decide) hx
    · exact hone (by decide) hx
    · exact hone (by decide) hx
    · exact hone (by decide) hx
    · exact hx.elim
  have hsendmail := hpostfix.protect log .sendmail fun hbad => by
    rcases hbad with hx | hx | hx | hx | hx | hx
    · exact hone (by decide) hx
    · exact hone (by decide) hx
    · exact hone (by decide) hx
    · exact hone (by decide) hx
    · exact hone (by decide) hx
    · exact hx.elim
  have hall := hsendmail s.fp h
  have hbad : (log = true ∧ UnstatableDaemon w fp pr) ↔
      (log = true ∧ Unstatable w fp .sendmail pr ∨ log = true ∧ Unstatable w fp .postfix_id pr ∨
        log = true ∧ Unstatable w fp .ircd pr ∨ log = true ∧ Unstatable w fp .dovecot pr ∨
          log = true ∧ Unstatable w fp .ftpd pr ∨ log = true ∧ Unstatable w fp .sshd pr ∨ False) := by
    unfold UnstatableDaemon
    tauto
  by_cases hun : log = true ∧ UnstatableDaemon w fp pr
  · rw [if_pos (hbad.1 hun)] at hall
    rw [if_pos hun]
    exact hall
  · rw [if_neg (hbad.not.1 hun)] at hall
    rw [if_neg hun]
    obtain ⟨fp', h', e'⟩ := hall
    refine ⟨fp', h', Eq.trans e' (if_congr ?_ rfl rfl)⟩
    unfold IsHen
    rw [or_false]

theorem listProc_spec (h : Versions w fp s.fp) (log : Bool) (ok : ℕ → Bool) (junk : ℕ → Proc) (i : ℕ) (pr : Kinfo) :
    if ok i then
      if (log = true → ¬ Unstatable w fp .sh pr ∧ ¬ Unstatable w fp .screen pr) ∧ argsOf pr ≠ none then
        ∃ fp', Versions w fp fp' ∧ listProc w log (handOut ok junk) i pr s = some { s with
          heap := store i ⟨procOf w fp log (junk i) pr, s.proclist⟩ s.heap, proclist := some i, fp := fp' }
      else listProc w log (handOut ok junk) i pr s = none
    else listProc w log (handOut ok junk) i pr s = some { s with out_of_memory := true } := by
  by_cases hok : ok i = true
  · rw [if_pos hok]
    have hblock : handOut ok junk i = some (junk i) := if_pos hok
    have hrun : listProc w log (handOut ok junk) i pr s = (argsOf pr).bind fun args =>
        (is_sysproc w log .sh pr s.fp).bind fun sh =>
          (if sh.1 then some (false, sh.2) else is_sysproc w log .screen pr sh.2).map fun screen : Bool × Prints =>
            { s with
              heap := store i ⟨newProc log (junk i) pr args sh.1 screen.1, s.proclist⟩ s.heap, proclist := some i,
              fp := screen.2 } := by
      unfold listProc
      rw [hblock]
      rfl
    rw [hrun]
    cases hargs : argsOf pr with
    | none =>
      rw [if_neg fun hx => hx.2 rfl]
      rfl
    | some args =>
      rw [Option.bind_some]
      have hsh := is_sysproc_spec h log .sh pr
      by_cases hbadsh : log = true ∧ Unstatable w fp .sh pr
      · rw [if_pos hbadsh] at hsh
        rw [if_neg fun hx => (hx.1 hbadsh.1).1 hbadsh.2, hsh]
        rfl
      · rw [if_neg hbadsh] at hsh
        obtain ⟨fp₁, hsh, h₁⟩ := hsh
        have hscreen := is_sysproc_spec h₁ log .screen pr
        rw [hsh, Option.bind_some]
        dsimp only
        by_cases hbadscreen : log = true ∧ Unstatable w fp .screen pr
        · rw [if_pos hbadscreen] at hscreen
          rw [if_neg fun hx => (hx.1 hbadscreen.1).2 hbadscreen.2,
            not_isSys_of_unstatable hbadscreen.2 (by decide : Sysproc.sh ≠ .screen), if_neg Bool.false_ne_true, hscreen]
          rfl
        · rw [if_neg hbadscreen] at hscreen
          obtain ⟨fp₂, hscreen, h₂⟩ := hscreen
          rw [if_pos ⟨fun hlog => ⟨fun hx => hbadsh ⟨hlog, hx⟩, fun hx => hbadscreen ⟨hlog, hx⟩⟩,
            Option.some_ne_none _⟩]
          unfold procOf
          rw [hargs, Option.getD_some, hscreen]
          cases isSys w fp .sh pr with
          | true => exact ⟨fp₁, h₁, rfl⟩
          | false => exact ⟨fp₂, h₂, rfl⟩
  · rw [if_neg hok]
    have hblock : handOut ok junk i = none := if_neg hok
    unfold listProc
    rw [hblock]

theorem scan_proc_full (hmem : s.out_of_memory = true) (log : Bool) (malloc : ℕ → Option Proc) (i : ℕ)
    (table : List Kinfo) : scan_proc w log malloc i table s = some s := by
  induction table generalizing i with
  | nil => rfl
  | cons pr table ih => rw [scan_proc, scanOne, if_pos hmem, Option.bind_some, ih]

/-- the node of a process -/
def nodeOf (w : World) (fp : Prints) (log : Bool) (junk : ℕ → Proc) (x : ℕ × Kinfo) : Addr × Proc :=
  (x.1, procOf w fp log (junk x.1) x.2)

section Lists

variable (w fp)

theorem listed_skip {pr : Kinfo} (hpr : ¬ IsListed w fp pr) (ok : ℕ → Bool) (i : ℕ) (table : List Kinfo) :
    listed w fp ok i (pr :: table) = listed w fp ok (i + 1) table := by
  rw [listed, reached, if_neg fun h => hpr h.1, List.filter_cons_of_neg (by simpa using hpr), listed]

theorem listed_cons {pr : Kinfo} (hpr : IsListed w fp pr) {ok : ℕ → Bool} {i : ℕ} (hok : ok i = true)
    (table : List Kinfo) : listed w fp ok i (pr :: table) = (i, pr) :: listed w fp ok (i + 1) table := by
  rw [listed, reached, if_neg (by simp [hok]), List.filter_cons_of_pos (by simpa using hpr), listed]

theorem reached_full {pr : Kinfo} (hpr : IsListed w fp pr) {ok : ℕ → Bool} {i : ℕ} (hok : ok i = false)
    (table : List Kinfo) : reached w fp ok i (pr :: table) = [] := if_pos ⟨hpr, hok⟩

theorem length_reached_le (ok : ℕ → Bool) (i : ℕ) (table : List Kinfo) :
    (reached w fp ok i table).length ≤ table.length := by
  induction table generalizing i with
  | nil => exact le_rfl
  | cons pr table ih =>
    rw [reached]
    split_ifs
    · exact Nat.zero_le _
    · exact Nat.succ_le_succ (ih (i + 1))

/-- the numbers are those of the table -/
theorem getElem?_of_reached {ok : ℕ → Bool} {i : ℕ} {table : List Kinfo} {x : ℕ × Kinfo}
    (hx : x ∈ reached w fp ok i table) : i ≤ x.1 ∧ table[x.1 - i]? = some x.2 := by
  induction table generalizing i with
  | nil => cases hx
  | cons pr table ih =>
    rw [reached] at hx
    split_ifs at hx
    · cases hx
    · rcases List.mem_cons.1 hx with rfl | hx
      · exact ⟨le_rfl, by simp⟩
      · obtain ⟨hle, hget⟩ := ih hx
        refine ⟨by omega, ?_⟩
        rw [show x.1 - i = x.1 - (i + 1) + 1 by omega, List.getElem?_cons_succ]
        exact hget

theorem henPids_skip {pr : Kinfo} (hpr : ¬ IsHen w fp pr) {ok : ℕ → Bool} {i : ℕ}
    (hok : ¬ (IsListed w fp pr ∧ ok i = false)) (table : List Kinfo) :
    henPids w fp ok i (pr :: table) = henPids w fp ok (i + 1) table := by
  rw [henPids, reached, if_neg hok, List.filter_cons_of_neg (by simpa using hpr), henPids]

theorem henPids_cons {pr : Kinfo} (hpr : IsHen w fp pr) (ok : ℕ → Bool) (i : ℕ) (table : List Kinfo) :
    henPids w fp ok i (pr :: table) = pr.p_pid :: henPids w fp ok (i + 1) table := by
  rw [henPids, reached, if_neg fun h => h.1.1 hpr, List.filter_cons_of_pos (by simpa using hpr), List.map_cons, henPids]

end Lists

variable (w fp) in
/-- the table can be gone through: with a log file all programs are there that it looks for, and the command lines of
the listed processes can be made out -/
def Readable (log : Bool) (ok : ℕ → Bool) (i : ℕ) (table : List Kinfo) : Prop :=
  (log = true → Statable w fp ok i table) ∧ ∀ x ∈ listed w fp ok i table, argsOf x.2 ≠ none

theorem Readable.unlogged {ok : ℕ → Bool} {i : ℕ} {table : List Kinfo} (h : Readable w fp true ok i table) :
    Readable w fp false ok i table := ⟨fun hlog => absurd hlog Bool.false_ne_true, h.2⟩

theorem readable_skip {ok : ℕ → Bool} {i : ℕ} {table : List Kinfo} (hpr : ¬ IsListed w fp pr) (log : Bool) :
    Readable w fp log ok i (pr :: table) ↔
      ¬ (log = true ∧ UnstatableDaemon w fp pr) ∧ Readable w fp log ok (i + 1) table := by
  unfold Readable
  rw [listed_skip w fp hpr, Statable]
  tauto

theorem readable_cons {ok : ℕ → Bool} {i : ℕ} {table : List Kinfo} (hpr : IsListed w fp pr) (hok : ok i = true)
    (log : Bool) :
    Readable w fp log ok i (pr :: table) ↔
      ¬ (log = true ∧ UnstatableDaemon w fp pr) ∧
        ((log = true → ¬ Unstatable w fp .sh pr ∧ ¬ Unstatable w fp .screen pr) ∧ argsOf pr ≠ none) ∧
          Readable w fp log ok (i + 1) table := by
  unfold Readable
  rw [listed_cons w fp hpr hok, List.forall_mem_cons, Statable, hok]
  tauto

theorem readable_full {ok : ℕ → Bool} {i : ℕ} (table : List Kinfo) (hpr : IsListed w fp pr) (hok : ok i = false)
    (log : Bool) : Readable w fp log ok i (pr :: table) ↔ ¬ (log = true ∧ UnstatableDaemon w fp pr) := by
  unfold Readable listed
  rw [reached_full w fp hpr hok, Statable, hok]
  simp [hpr]

/-- **The scan.** It puts the listed processes before the list, and adds the hens to their table, if the table can be
gone through. -/
theorem scan_proc_spec (hmem : s.out_of_memory = false) (h : Versions w fp s.fp) {l : List (Addr × Proc)}
    (hs : Holds s.toState l) {i : ℕ} (hi : ∀ a ∈ addrs l, a < i) {K : Finset pid_t} (hK : Sound 0 HENMAX s.tables.hen K)
    (log : Bool) (ok : ℕ → Bool) (junk : ℕ → Proc) (table : List Kinfo) :
    (Readable w fp log ok i table → ∃ s', scan_proc w log (handOut ok junk) i table s = some s' ∧
      Holds s'.toState (((listed w fp ok i table).map (nodeOf w fp log junk)).reverse ++ l) ∧
      Sound 0 HENMAX s'.tables.hen ((henPids w fp ok i table).foldl addPid K)) ∧
    (¬ Readable w fp log ok i table → scan_proc w log (handOut ok junk) i table s = none) := by
  induction table generalizing s l i K with
  | nil =>
    have hreadable : Readable w fp log ok i [] := ⟨fun _ => trivial, by simp [listed, reached]⟩
    exact ⟨fun _ => ⟨s, rfl, hs, hK⟩, fun hnot => absurd hreadable hnot⟩
  | cons pr table ih =>
    have hone := scanOne_spec hmem h log (handOut ok junk) i pr
    rw [scan_proc]
    have hi' : ∀ a ∈ addrs l, a < i + 1 := fun a ha => (hi a ha).trans (Nat.lt_succ_self i)
    by_cases hun : log = true ∧ UnstatableDaemon w fp pr
    · rw [if_pos hun] at hone
      rw [hone]
      refine ⟨fun hr => absurd hun ?_, fun _ => rfl⟩
      exact fun hx => (hr.1 hx.1).1 hx.2
    rw [if_neg hun] at hone
    obtain ⟨fp', h', e⟩ := hone
    rw [e]
    by_cases hhen : IsHen w fp pr
    · obtain ⟨T, hT, hsound⟩ := hK.add_set (by decide) pr.pid_ne
      have hmake : makeHen pr { s with fp := fp' } =
          some { s with fp := fp', tables := { s.tables with hen := T } } := by
        rw [makeHen, add_hen, hT]
        rfl
      have hnot : ¬ IsListed w fp pr := fun hl => hl.1 hhen
      rw [if_pos hhen, hmake, Option.bind_some, readable_skip hnot, and_iff_right hun, listed_skip w fp hnot,
        henPids_cons w fp hhen, List.foldl_cons]
      exact ih (s := { s with fp := fp', tables := { s.tables with hen := T } }) hmem h' ⟨hs.start, hs.links⟩ hi' hsound
    · rw [if_neg hhen]
      by_cases huid : UidProtected w fp pr
      · have hnot : ¬ IsListed w fp pr := fun hl => hl.2 huid
        rw [if_pos huid, Option.bind_some, readable_skip hnot, and_iff_right hun, listed_skip w fp hnot,
          henPids_skip w fp hhen fun hl => hnot hl.1]
        exact ih (s := { s with fp := fp' }) hmem h' ⟨hs.start, hs.links⟩ hi' hK
      · have hl : IsListed w fp pr := ⟨hhen, huid⟩
        have hlist := listProc_spec (s := { s with fp := fp' }) h' log ok junk i pr
        rw [if_neg huid]
        by_cases hok : ok i = true
        · rw [if_pos hok] at hlist
          rw [readable_cons hl hok, and_iff_right hun, listed_cons w fp hl hok, henPids_skip w fp hhen (by simp [hok])]
          by_cases hmade : (log = true → ¬ Unstatable w fp .sh pr ∧ ¬ Unstatable w fp .screen pr) ∧ argsOf pr ≠ none
          · rw [if_pos hmade] at hlist
            obtain ⟨fp₁, h₁, e₁⟩ := hlist
            rw [e₁, Option.bind_some, and_iff_right hmade, List.map_cons, List.reverse_cons, List.append_assoc,
              List.singleton_append]
            have hnode : Holds { s with
                heap := store i ⟨procOf w fp log (junk i) pr, s.proclist⟩ s.heap, proclist := some i }.toState
                (nodeOf w fp log junk (i, pr) :: l) := by
              refine ⟨rfl, links_cons.2 ⟨⟨_, store_self .., rfl, hs.start⟩, ?_⟩⟩
              exact links_before (hs.links.store (fun ha => absurd (hi i ha) (lt_irrefl i)) _) _
            refine ih (s := { s with
              heap := store i ⟨procOf w fp log (junk i) pr, s.proclist⟩ s.heap, proclist := some i, fp := fp₁ })
              hmem h₁ ⟨hnode.start, hnode.links⟩ (i := i + 1) ?_ hK
            intro a ha
            rcases List.mem_cons.1 ha with rfl | ha
            · exact Nat.lt_succ_self a
            · exact hi' a ha
          · rw [if_neg hmade] at hlist
            rw [hlist]
            exact ⟨fun hr => absurd hr.1 hmade, fun _ => rfl⟩
        · rw [if_neg hok] at hlist
          have hfail := Bool.eq_false_iff.2 hok
          have hreadable := (readable_full table hl hfail log).2 hun
          rw [hlist, Option.bind_some, scan_proc_full rfl]
          refine ⟨fun _ => ⟨_, rfl, ?_, ?_⟩, fun hnot => absurd hreadable hnot⟩
          · rw [listed, reached_full w fp hl hfail]
            exact ⟨hs.start, hs.links⟩
          · rw [henPids, reached_full w fp hl hfail]
            exact hK

end Scanning

/-! ## The hens of a scan -/

theorem foldl_addPid (ks : List pid_t) (K : Finset pid_t) :
    ks.foldl addPid K ⊆ K ∪ ks.toFinset ∧
    ((ks.foldl addPid K).card < HENMAX → ks.foldl addPid K = K ∪ ks.toFinset) := by
  induction ks generalizing K with
  | nil => simp
  | cons k ks ih =>
    obtain ⟨hsub, heq⟩ := ih (addPid K k)
    have hadd : addPid K k ⊆ insert k K := by
      unfold addPid
      split_ifs
      · exact Finset.subset_insert ..
      · exact Finset.Subset.refl _
    have hunion : insert k K ∪ ks.toFinset = K ∪ (k :: ks).toFinset := by
      rw [List.toFinset_cons, Finset.insert_union, Finset.union_insert]
    rw [List.foldl_cons, ← hunion]
    refine ⟨hsub.trans (Finset.union_subset_union_left hadd), fun hroom => ?_⟩
    rw [heq hroom]
    have hle : K.card ≤ (addPid K k ∪ ks.toFinset).card :=
      Finset.card_le_card ((subset_addPid K k).trans Finset.subset_union_left)
    rw [heq hroom] at hroom
    rw [addPid, if_neg (by omega)]

section Rule

variable {l : List (Addr × Proc)} {A : Finset dev_t} {H K : Finset pid_t} {f g : Proc → Prop}

/-- a full table of hens does as well as one with room for all of them -/
theorem orphans_full (hsub : K ⊆ H) (heq : K.card < HENMAX → K = H) : orphans l A K f = orphans l A H f := by
  by_cases hroom : K.card < HENMAX
  · rw [heq hroom]
  · have hfull : ∀ H', K ⊆ H' → HENMAX ≤ (hensOf (l.map Prod.snd) A H' f).card := by
      intro H' hH'
      exact (not_lt.1 hroom).trans (Finset.card_le_card fun k hk => mem_hensOf.2 (Or.inl (hH' hk)))
    rw [orphans, orphans, if_pos (hfull K (Finset.Subset.refl K)), if_pos (hfull H hsub)]

theorem orphans_congr (h : ∀ p, Spared (l.map Prod.snd) A H f p ↔ Spared (l.map Prod.snd) A H g p) :
    orphans l A H f = orphans l A H g := by
  have hsame : Spared (l.map Prod.snd) A H f = Spared (l.map Prod.snd) A H g := funext fun p => propext (h p)
  unfold orphans hensOf
  rw [hsame]

end Rule

/-! ## Two scans -/

/-- the processes agree in all that does not only go to the log -/
structure SameCore (p q : Proc) : Prop where
  pid : p.pid = q.pid
  ppid : p.ppid = q.ppid
  has_ctty : p.has_ctty = q.has_ctty
  ctty : p.ctty = q.ctty
  args : p.args = q.args
  am_sh : p.am_sh = q.am_sh
  am_screen : p.am_screen = q.am_screen

theorem SameCore.marked {p q : Proc} (h : SameCore p q) (A : Finset dev_t) : Marked A p ↔ Marked A q := by
  unfold Marked
  rw [h.has_ctty, h.ctty]

theorem SameCore.droppedFirst {p q : Proc} (h : SameCore p q) (A : Finset dev_t) :
    DroppedFirst A p ↔ DroppedFirst A q := by
  unfold DroppedFirst ProtectedSh
  rw [h.marked, h.am_sh, h.args]

theorem SameCore.background {p q : Proc} (h : SameCore p q) : Background p ↔ Background q := by
  unfold Background
  rw [h.am_screen, h.has_ctty]

/-- where no screen process or every one is protected, the rule does not look at what goes to the log -/
theorem Spared.transfer {β : Type} {X : List β} {P Q : β → Proc} (hPQ : ∀ x ∈ X, SameCore (P x) (Q x))
    {A : Finset dev_t} {H : Finset pid_t} {c : Prop} {p : Proc} (h : Spared (X.map P) A H (fun _ => c) p) :
    ∀ x ∈ X, SameCore p (Q x) → Spared (X.map Q) A H (fun _ => c) (Q x) := by
  induction h with
  | hen _ hd hH =>
    intro x hx hsame
    exact .hen (List.mem_map_of_mem hx) (by rw [← hsame.droppedFirst]; exact hd) (by rw [← hsame.ppid]; exact hH)
  | child _ hd hq hpid ih =>
    intro x hx hsame
    obtain ⟨y, hy, rfl⟩ := List.mem_map.1 hq.mem
    refine .child (List.mem_map_of_mem hx) (by rw [← hsame.droppedFirst]; exact hd) (ih y hy (hPQ y hy)) ?_
    rw [← hsame.ppid, hpid, (hPQ y hy).pid]
  | screen _ hd hback hc =>
    intro x hx hsame
    exact .screen (List.mem_map_of_mem hx) (by rw [← hsame.droppedFirst]; exact hd)
      (by rw [← hsame.background]; exact hback) hc

section TwoScans

variable (w : World) (fp : Prints) (ok : ℕ → Bool) (table : List Kinfo)

/-- the list that a scan makes -/
def nodes (log : Bool) (junk : ℕ → Proc) : List (Addr × Proc) :=
  ((listed w fp ok 0 table).map (nodeOf w fp log junk)).reverse

/-- the hens of a scan -/
def hens : Finset pid_t := (henPids w fp ok 0 table).toFinset

/-- Whatever the blocks from `malloc` hold, a scan with a log file and one without leave the same pids on the list. -/
def LogBlind (active : Active) : Prop :=
  ∀ (junk junk' : ℕ → Proc) (fuel : ℕ), table.length + 1 < fuel → ∃ b b' s s' l l',
    scan w fp active fuel table true (handOut ok junk) = some (b, s) ∧
    scan w fp active fuel table false (handOut ok junk') = some (b', s') ∧
    Holds s l ∧ Holds s' l' ∧ l.map (fun x => x.2.pid) = l'.map fun x => x.2.pid

/-- No screen process is on an active tty; or so many hens are made that nothing is left; or every screen process
without control tty is dropped even if no screen process is protected. -/
def Calm (l : List (Addr × Proc)) (A : Finset dev_t) (H : Finset pid_t) : Prop :=
  (∀ x ∈ l, ¬ (Marked A x.2 ∧ x.2.am_screen = true)) ∨
    HENMAX ≤ (hensOf (l.map Prod.snd) A H fun _ => False).card ∨
    ∀ x ∈ l, Background x.2 → ¬ DroppedFirst A x.2 → Spared (l.map Prod.snd) A H (fun _ => False) x.2

variable {w fp ok table} {log log' : Bool} {junk junk' : ℕ → Proc} {A : Finset dev_t} {H : Finset pid_t}

theorem nodes_eq (log : Bool) (junk : ℕ → Proc) :
    nodes w fp ok table log junk = ((listed w fp ok 0 table).reverse).map (nodeOf w fp log junk) :=
  List.map_reverse.symm

theorem nodes_snd (log : Bool) (junk : ℕ → Proc) :
    (nodes w fp ok table log junk).map Prod.snd =
      ((listed w fp ok 0 table).reverse).map fun x => procOf w fp log (junk x.1) x.2 := by
  rw [nodes_eq, List.map_map]
  rfl

theorem sameCore_procOf (log log' : Bool) (block block' : Proc) (pr : Kinfo) :
    SameCore (procOf w fp log block pr) (procOf w fp log' block' pr) := by
  cases log with
  | true =>
    cases log' with
    | true => exact ⟨rfl, rfl, rfl, rfl, rfl, rfl, rfl⟩
    | false => exact ⟨rfl, rfl, rfl, rfl, rfl, rfl, rfl⟩
  | false =>
    cases log' with
    | true => exact ⟨rfl, rfl, rfl, rfl, rfl, rfl, rfl⟩
    | false => exact ⟨rfl, rfl, rfl, rfl, rfl, rfl, rfl⟩

/-- neither the log file nor the blocks matter to a rule that does not look at the users -/
theorem spared_nodes {c : Prop} (log log' : Bool) (junk junk' : ℕ → Proc) {x : ℕ × Kinfo}
    (hx : x ∈ listed w fp ok 0 table) :
    Spared ((nodes w fp ok table log junk).map Prod.snd) A H (fun _ => c) (procOf w fp log (junk x.1) x.2) ↔
      Spared ((nodes w fp ok table log' junk').map Prod.snd) A H (fun _ => c) (procOf w fp log' (junk' x.1) x.2) := by
  rw [nodes_snd, nodes_snd]
  have hx' := List.mem_reverse.2 hx
  constructor
  · exact fun h => h.transfer (fun y _ => sameCore_procOf ..) x hx' (sameCore_procOf ..)
  · exact fun h => h.transfer (fun y _ => sameCore_procOf ..) x hx' (sameCore_procOf ..)

theorem mem_nodes {y : Addr × Proc} :
    y ∈ nodes w fp ok table log junk ↔ ∃ x ∈ listed w fp ok 0 table, nodeOf w fp log junk x = y := by
  rw [nodes, List.mem_reverse, List.mem_map]

theorem hensOf_nodes {c : Prop} (log log' : Bool) (junk junk' : ℕ → Proc) :
    hensOf ((nodes w fp ok table log junk).map Prod.snd) A H (fun _ => c) =
      hensOf ((nodes w fp ok table log' junk').map Prod.snd) A H (fun _ => c) := by
  have hhalf : ∀ (log log' : Bool) (junk junk' : ℕ → Proc),
      hensOf ((nodes w fp ok table log junk).map Prod.snd) A H (fun _ => c) ⊆
        hensOf ((nodes w fp ok table log' junk').map Prod.snd) A H (fun _ => c) := by
    intro log log' junk junk' k hk
    rcases mem_hensOf.1 hk with hk | ⟨p, hp, rfl⟩
    · exact mem_hensOf.2 (Or.inl hk)
    · obtain ⟨y, hy, rfl, -⟩ := hp.survives
      obtain ⟨x, hx, rfl⟩ := mem_nodes.1 hy
      refine mem_hensOf.2 (Or.inr ⟨procOf w fp log' (junk' x.1) x.2, (spared_nodes log log' junk junk' hx).1 hp, ?_⟩)
      exact (sameCore_procOf ..).pid
  exact Finset.Subset.antisymm (hhalf ..) (hhalf ..)

/-- the pids left by such a rule -/
theorem orphans_pids {c : Prop} (log log' : Bool) (junk junk' : ℕ → Proc) :
    (orphans (nodes w fp ok table log junk) A H fun _ => c).map (fun x => x.2.pid) =
      (orphans (nodes w fp ok table log' junk') A H fun _ => c).map fun x => x.2.pid := by
  classical
  unfold orphans
  rw [hensOf_nodes log log' junk junk']
  split_ifs
  · rfl
  · have hfilter : ∀ (log : Bool) (junk : ℕ → Proc) (p : Addr × Proc → Bool),
        ((nodes w fp ok table log junk).filter p).map (fun x => x.2.pid) =
          ((listed w fp ok 0 table).reverse.filter fun x => p (nodeOf w fp log junk x)).map fun x => x.2.p_pid := by
      intro log junk p
      rw [nodes_eq, List.filter_map, List.map_map]
      refine List.map_congr_left fun x _ => ?_
      cases log with
      | true => rfl
      | false => rfl
    rw [hfilter, hfilter]
    refine congrArg _ (List.filter_congr fun x hx => ?_)
    have hsame : SameCore (nodeOf w fp log junk x).2 (nodeOf w fp log' junk' x).2 := sameCore_procOf ..
    have hspared := spared_nodes (A := A) (H := H) (c := c) log log' junk junk' (List.mem_reverse.1 hx)
    exact decide_eq_decide.2 (and_congr (not_congr (hsame.droppedFirst A)) (not_congr hspared))

theorem Calm.transfer (h : Calm (nodes w fp ok table log junk) A H) (log' : Bool) (junk' : ℕ → Proc) :
    Calm (nodes w fp ok table log' junk') A H := by
  rcases h with h | h | h
  · refine Or.inl fun y hy => ?_
    obtain ⟨x, hx, rfl⟩ := mem_nodes.1 hy
    have hsame : SameCore (nodeOf w fp log junk x).2 (nodeOf w fp log' junk' x).2 := sameCore_procOf ..
    rw [← hsame.marked, ← hsame.am_screen]
    exact h _ (mem_nodes.2 ⟨x, hx, rfl⟩)
  · exact Or.inr (Or.inl (by rw [hensOf_nodes log' log junk' junk]; exact h))
  · refine Or.inr (Or.inr fun y hy hback hd => ?_)
    obtain ⟨x, hx, rfl⟩ := mem_nodes.1 hy
    have hsame : SameCore (nodeOf w fp log junk x).2 (nodeOf w fp log' junk' x).2 := sameCore_procOf ..
    refine (spared_nodes log log' junk junk' hx).1 (h _ (mem_nodes.2 ⟨x, hx, rfl⟩) ?_ ?_)
    · exact hsame.background.2 hback
    · exact fun hd' => hd ((hsame.droppedFirst A).1 hd')

variable (w fp ok) in
/-- what a scan leaves on the list -/
theorem scan_spec {active : Active} (hA : Sound NODEV ACTIVEMAX active A) {fuel : ℕ} (hfuel : table.length + 1 < fuel)
    (log : Bool) (junk : ℕ → Proc) :
    (Readable w fp log ok 0 table → ∃ b s, scan w fp active fuel table log (handOut ok junk) = some (b, s) ∧
      Holds s (orphans (nodes w fp ok table log junk) A (hens w fp ok table)
        (shield A (nodes w fp ok table log junk)))) ∧
    (¬ Readable w fp log ok 0 table → scan w fp active fuel table log (handOut ok junk) = none) := by
  have hstart : Holds (startScan fp).toState [] := ⟨rfl, links_nil⟩
  have hspec := scan_proc_spec (s := startScan fp) rfl (versions_refl : Versions w fp fp) hstart (i := 0) (by simp)
    noHens_sound log ok junk table
  unfold scan
  constructor
  · intro hreadable
    obtain ⟨s, hrun, hs, hK⟩ := hspec.1 hreadable
    rw [List.append_nil] at hs
    have hpid : ∀ x ∈ nodes w fp ok table log junk, x.2.pid ≠ 0 := by
      intro y hy
      obtain ⟨x, -, rfl⟩ := mem_nodes.1 hy
      have hsame : SameCore (nodeOf w fp log junk x).2 (procOf w fp true (junk 0) x.2) := sameCore_procOf ..
      rw [hsame.pid]
      exact x.2.pid_ne
    have hlen : (nodes w fp ok table log junk).length ≤ table.length := by
      rw [nodes, List.length_reverse, List.length_map]
      exact (List.length_filter_le ..).trans (length_reached_le w fp ok 0 table)
    obtain ⟨s', hfind, hs', -, -⟩ :=
      find_orph_spec (s := { s.toState with tables := { s.tables with active := active } }) ⟨hs.start,
        hs.links⟩ hpid hA hK (by unfold nodes at hlen; omega : _ < fuel)
    obtain ⟨hsub, heq⟩ := foldl_addPid (henPids w fp ok 0 table) ∅
    rw [Finset.empty_union] at hsub heq
    refine ⟨_, s', by rw [hrun, Option.bind_some, hfind], ?_⟩
    rw [orphans_full hsub heq] at hs'
    exact hs'
  · intro hnot
    rw [hspec.2 hnot]
    rfl

/-- where it is calm, no screen process makes a difference -/
theorem Calm.orphans_eq {l : List (Addr × Proc)} (h : Calm l A H) :
    orphans l A H (shield A l) = orphans l A H fun _ => False := by
  rcases h with hnone | hfull | hback
  · have hgathered := gathered_sweep A l
    have husers : screenUsers A (l.map Prod.snd) = ∅ := by
      refine Finset.eq_empty_of_forall_notMem fun u hu => ?_
      obtain ⟨p, hp, hm, hs, -⟩ := mem_screenUsers.1 hu
      obtain ⟨x, hx, rfl⟩ := List.mem_map.1 hp
      exact hnone x hx ⟨hm, hs⟩
    have hshield : shield A l = fun _ => False := by
      funext p
      refine eq_false fun hp => ?_
      have hempty : (screeners A l).1 = ∅ := Finset.subset_empty.1 (husers ▸ hgathered.subset)
      have hzero : (screeners A l).2 = 0 := hgathered.excess (by rw [husers]; exact Finset.notMem_empty _)
      unfold shield Shielded at hp
      rw [hempty, hzero] at hp
      rcases hp with hp | hp
      · exact absurd hp (by decide)
      · exact Finset.notMem_empty _ hp
    rw [hshield]
  · have hfull' : HENMAX ≤ (hensOf (l.map Prod.snd) A H (shield A l)).card := by
      refine hfull.trans (Finset.card_le_card fun k hk => ?_)
      rcases mem_hensOf.1 hk with hk | ⟨p, hp, rfl⟩
      · exact mem_hensOf.2 (Or.inl hk)
      · exact mem_hensOf.2 (Or.inr ⟨p, hp.mono fun _ _ _ => False.elim, rfl⟩)
    rw [orphans, orphans, if_pos hfull, if_pos hfull']
  · refine orphans_congr fun p => ⟨fun h => ?_, fun h => h.mono fun _ _ _ => False.elim⟩
    induction h with
    | hen hp hd hH => exact .hen hp hd hH
    | child hp hd _ hpid ih => exact .child hp hd ih hpid
    | screen hp hd hb _ =>
      obtain ⟨x, hx, rfl⟩ := List.mem_map.1 hp
      exact hback x hx hb hd

/-- a block that gives a process this user -/
def withUid (uid : uid_t) : Proc := ⟨0, 0, uid, 0, false, 0, (0, 0), [], [], [], false, false⟩

/-- blocks that give user 1 to the processes on active ttys, and user 2 to the others -/
def apart (w : World) (fp : Prints) (A : Finset dev_t) (table : List Kinfo) (i : ℕ) : Proc :=
  match table[i]? with
  | some pr => if Marked A (procOf w fp false (withUid 0) pr) then withUid 1 else withUid 2
  | none => withUid 2

/-- without a log file the user of a process is what the block held -/
theorem uid_nodeOf (junk : ℕ → Proc) (x : ℕ × Kinfo) : (nodeOf w fp false junk x).2.uid = (junk x.1).uid := rfl

/-- where every process is given to user 1, a screen process on an active tty protects them all -/
theorem orphans_together (hmarked : ∃ x ∈ nodes w fp ok table false (fun _ => withUid 1), Marked A x.2 ∧
    x.2.am_screen = true) :
    orphans (nodes w fp ok table false fun _ => withUid 1)
      A H (shield A (nodes w fp ok table false fun _ => withUid 1)) =
      orphans (nodes w fp ok table false fun _ => withUid 1) A H fun _ => True := by
  have huid : ∀ p ∈ (nodes w fp ok table false fun _ => withUid 1).map Prod.snd, p.uid = 1 := by
    intro p hp
    obtain ⟨y, hy, rfl⟩ := List.mem_map.1 hp
    obtain ⟨x, -, rfl⟩ := mem_nodes.1 hy
    rfl
  obtain ⟨x, hx, hm, hs⟩ := hmarked
  have hx' := List.mem_map_of_mem (f := Prod.snd) hx
  refine orphans_congr fun p => ⟨fun h => h.mono fun _ _ _ _ => trivial, fun h => h.mono fun p hp _ _ => ?_⟩
  unfold shield Shielded
  rw [huid p hp]
  by_cases hfull : MAXSCREENERS ≤ (screeners A (nodes w fp ok table false fun _ => withUid 1)).1.card +
      (screeners A (nodes w fp ok table false fun _ => withUid 1)).2
  · exact Or.inl hfull
  · refine Or.inr ((gathered_sweep A _).complete (not_le.1 hfull) 1 ?_ (by decide))
    exact mem_screenUsers.2 ⟨x.2, hx', hm, hs, huid _ hx'⟩

/-- where the processes on active ttys have their own user, they protect none -/
theorem orphans_apart :
    orphans (nodes w fp ok table false (apart w fp A table))
      A H (shield A (nodes w fp ok table false (apart w fp A table))) =
      orphans (nodes w fp ok table false (apart w fp A table)) A H fun _ => False := by
  have huid : ∀ p ∈ (nodes w fp ok table false (apart w fp A table)).map Prod.snd,
      p.uid = if Marked A p then 1 else 2 := by
    intro p hp
    obtain ⟨y, hy, rfl⟩ := List.mem_map.1 hp
    obtain ⟨x, hx, rfl⟩ := mem_nodes.1 hy
    have hget := (getElem?_of_reached w fp (List.mem_filter.1 hx).1).2
    have hsame : SameCore (nodeOf w fp false (apart w fp A table) x).2 (procOf w fp false (withUid 0) x.2) :=
      sameCore_procOf ..
    rw [uid_nodeOf, apart, ← Nat.sub_zero x.1, hget]
    dsimp only
    by_cases hm : Marked A (procOf w fp false (withUid 0) x.2)
    · rw [if_pos hm, if_pos ((hsame.marked A).2 hm)]
      rfl
    · rw [if_neg hm, if_neg fun h => hm ((hsame.marked A).1 h)]
      rfl
  have husers : ∀ u ∈ screenUsers A ((nodes w fp ok table false (apart w fp A table)).map Prod.snd), u = 1 := by
    intro u hu
    obtain ⟨p, hp, hm, -, rfl⟩ := mem_screenUsers.1 hu
    rw [huid p hp, if_pos hm]
  have hgathered := gathered_sweep A (nodes w fp ok table false (apart w fp A table))
  have hsub : (screeners A (nodes w fp ok table false (apart w fp A table))).1 ⊆ {1} :=
    fun u hu => Finset.mem_singleton.2 (husers u (hgathered.subset hu))
  have hzero := hgathered.excess fun h0 => absurd (husers 0 h0) (by decide)
  refine orphans_congr fun p => ⟨fun h => h.mono fun p hp hback hsh => ?_, fun h => h.mono fun _ _ _ => False.elim⟩
  have hm : ¬ Marked A p := fun hm => Bool.false_ne_true (hback.2.symm.trans hm.1)
  unfold shield Shielded at hsh
  rw [huid p hp, if_neg hm, hzero] at hsh
  rcases hsh with hfull | hmem
  · have hcard := Finset.card_le_card hsub
    rw [Finset.card_singleton] at hcard
    have : MAXSCREENERS ≤ 1 := hfull.trans hcard
    exact absurd this (by decide)
  · exact absurd (Finset.mem_singleton.1 (hsub hmem)) (by decide)

theorem Holds.unique {s : State} {l l' : List (Addr × Proc)} (h : Holds s l) (h' : Holds s l') : l = l' :=
  Links.unique node_next h.links h'.links (h.start.symm.trans h'.start)

/-- both scans leave the pids that the rule leaves -/
theorem LogBlind.pids (h : LogBlind w fp ok table active) (hA : Sound NODEV ACTIVEMAX active A)
    (junk junk' : ℕ → Proc) : Readable w fp true ok 0 table ∧
      (orphans (nodes w fp ok table true junk) A (hens w fp ok table) (shield A (nodes w fp ok table true junk))).map
          (fun x => x.2.pid) =
        (orphans (nodes w fp ok table false junk') A (hens w fp ok table)
          (shield A (nodes w fp ok table false junk'))).map fun x => x.2.pid := by
  obtain ⟨b, b', s, s', l, l', hrun, hrun', hl, hl', hpids⟩ := h junk junk' (table.length + 2) (by omega)
  have hspec := scan_spec w fp ok hA (by omega : table.length + 1 < table.length + 2) true junk
  have hspec' := scan_spec w fp ok hA (by omega : table.length + 1 < table.length + 2) false junk'
  by_cases hreadable : Readable w fp true ok 0 table
  · obtain ⟨b₁, s₁, heq, hs₁⟩ := hspec.1 hreadable
    obtain ⟨b₂, s₂, heq', hs₂⟩ := hspec'.1 hreadable.unlogged
    rw [hrun] at heq
    rw [hrun'] at heq'
    cases heq
    cases heq'
    rw [hl.unique hs₁, hl'.unique hs₂] at hpids
    exact ⟨hreadable, hpids⟩
  · rw [hspec.2 hreadable] at hrun
    cases hrun

/-- protecting every screen process leaves part of what protecting none does -/
theorem orphans_true_sublist (l : List (Addr × Proc))
    (hroom : ¬ HENMAX ≤ (hensOf (l.map Prod.snd) A H fun _ => False).card) :
    (orphans l A H fun _ => True).Sublist (orphans l A H fun _ => False) := by
  classical
  unfold orphans
  rw [if_neg hroom]
  split_ifs
  · exact List.nil_sublist _
  · refine List.monotone_filter_right l fun x hx => ?_
    obtain ⟨hd, hspared⟩ := of_decide_eq_true hx
    exact decide_eq_true ⟨hd, fun h => hspared (h.mono fun _ _ _ => False.elim)⟩

theorem Calm.of_logBlind (h : LogBlind w fp ok table active) (hA : Sound NODEV ACTIVEMAX active A) (junk : ℕ → Proc) :
    Calm (nodes w fp ok table true junk) A (hens w fp ok table) := by
  by_contra hcalm
  have hnot : ¬ Calm (nodes w fp ok table false fun _ => withUid 1) A (hens w fp ok table) :=
    fun hc => hcalm (hc.transfer true junk)
  unfold Calm at hnot
  push Not at hnot
  obtain ⟨hmarked, hroom, b, hb, hback, hd, hspared⟩ := hnot
  have hpids : (orphans (nodes w fp ok table false fun _ => withUid 1) A (hens w fp ok table) fun _ => True).map
      (fun x => x.2.pid) =
      (orphans (nodes w fp ok table false fun _ => withUid 1) A (hens w fp ok table) fun _ => False).map
        fun x => x.2.pid := by
    calc
      _ = _ := by rw [← orphans_together hmarked]
      _ = _ := (h.pids hA junk fun _ => withUid 1).2.symm
      _ = _ := (h.pids hA junk (apart w fp A table)).2
      _ = _ := by rw [orphans_apart]
      _ = _ := orphans_pids ..
  have hlen := congrArg List.length hpids
  rw [List.length_map, List.length_map] at hlen
  have heq := (orphans_true_sublist _ (not_le.2 hroom)).eq_of_length hlen
  have hmem : b ∈ orphans (nodes w fp ok table false fun _ => withUid 1) A (hens w fp ok table) fun _ => False :=
    mem_orphans.2 ⟨not_le.2 hroom, hb, hd, hspared⟩
  rw [← heq] at hmem
  exact (mem_orphans.1 hmem).2.2.2 (.screen (List.mem_map_of_mem hb) hd hback trivial)

/-- **When logging does not matter.** A scan with a log file and one without leave the same pids on the list,
whatever the blocks from `malloc` hold, if and only if the programs that are looked for are there, the command lines
of all listed processes can be made out and it is calm. -/
theorem logging_iff (hA : Sound NODEV ACTIVEMAX active A) (junk : ℕ → Proc) :
    LogBlind w fp ok table active ↔ Statable w fp ok 0 table ∧ (∀ x ∈ listed w fp ok 0 table, argsOf x.2 ≠ none) ∧
      Calm (nodes w fp ok table true junk) A (hens w fp ok table) := by
  constructor
  · intro h
    have hreadable := (h.pids hA junk junk).1
    exact ⟨hreadable.1 rfl, hreadable.2, .of_logBlind h hA junk⟩
  · rintro ⟨hstatable, hargs, hcalm⟩ junk₁ junk₂ fuel hfuel
    have hreadable : ∀ log, Readable w fp log ok 0 table := fun _ => ⟨fun _ => hstatable, hargs⟩
    obtain ⟨b₁, s₁, hrun₁, hs₁⟩ := (scan_spec w fp ok hA hfuel true junk₁).1 (hreadable true)
    obtain ⟨b₂, s₂, hrun₂, hs₂⟩ := (scan_spec w fp ok hA hfuel false junk₂).1 (hreadable false)
    rw [(hcalm.transfer true junk₁).orphans_eq] at hs₁
    rw [(hcalm.transfer false junk₂).orphans_eq] at hs₂
    exact ⟨b₁, b₂, s₁, s₂, _, _, hrun₁, hrun₂, hs₁, hs₂, orphans_pids ..⟩

end TwoScans

/-! ### Two screen processes of one user -/

/-- the file of screen -/
def screenFile : dev_t × ino_t := (4, 77)

def onlyScreen : Prints := fun i => if i = .screen then [screenFile] else []

def quiet : World := ⟨1000000, fun _ => none, fun _ _ => true⟩

/-- a screen process of user 1007 -/
def screenProc (pid : pid_t) (tdev : dev_t) (h : pid ≠ 0) : Kinfo :=
  ⟨pid, 1, 1007, 1007, tdev, 0, 0, "screen".toList, "joe".toList, some screenFile, some ["screen".toList], h⟩

/-- one on tty 5, the other without control tty -/
def screenTable : List Kinfo := [screenProc 100 5 (by decide), screenProc 101 NODEV (by decide)]

/-- when logging matters, at the table of the two screen processes -/
theorem logging_iff_two : ∃ T, set_active (init_active ⟨fun _ => 0, 0⟩) 5 = some T ∧
    (LogBlind quiet onlyScreen (fun _ => true) screenTable T ↔ Statable quiet onlyScreen (fun _ => true) 0 screenTable ∧
      (∀ x ∈ listed quiet onlyScreen (fun _ => true) 0 screenTable, argsOf x.2 ≠ none) ∧
        Calm (nodes quiet onlyScreen (fun _ => true) screenTable true fun _ => withUid 0) {5}
          (hens quiet onlyScreen (fun _ => true) screenTable)) := by
  obtain ⟨T, hT, hsound⟩ := tty_active
  exact ⟨T, hT, logging_iff hsound _⟩

/-- Which of the two processes are left depends on the log file and the content of the blocks. -/
theorem screen_unlogged : ∃ T, set_active (init_active ⟨fun _ => 0, 0⟩) 5 = some T ∧
    ¬ LogBlind quiet onlyScreen (fun _ => true) screenTable T := by
  obtain ⟨T, hT, hsound⟩ := tty_active
  refine ⟨T, hT, fun h => ?_⟩
  have hcalm := Calm.of_logBlind h hsound fun _ => withUid 0
  have hhens : hens quiet onlyScreen (fun _ => true) screenTable = ∅ := by decide
  rw [hhens] at hcalm
  rcases hcalm with hnone | hfull | hback
  · exact absurd hnone (by decide)
  · rw [hensOf_empty fun _ _ _ => id] at hfull
    exact absurd hfull (by decide)
  · refine not_spared (fun _ _ _ => id)
      _ (hback (1, procOf quiet onlyScreen true (withUid 0) (screenProc 101 NODEV (by decide))) ?_ ?_ ?_)
    · decide
    · decide
    · decide

end MNetSoft.Robocop
