/-
The main loop of robocop (`main.c`). Each turn the process table is read (`scan_proc`), users with too much memory or
too many processes are killed (`check_mem`), the ttys with logins are marked (`scan_utmp`), and what `find_orph`
leaves is killed three minutes later (`kill_orph`), softly and then hard.

What the system answers may depend on everything done before. Robocop ends by `exit(1)` where the file of logins or a
tty cannot be looked at, and in undefined behaviour where a command line or a line of the log cannot be made. What it
does for others while it sleeps is not looked at here.
- `kill_orph_adds`: signals to orphans go to what is on the list.
- `excessive_of_check_mem`: a user whose processes are killed has too much.
-/
import Mathlib.Tactic
import MNetSoft.Core.LinkedList
import MNetSoft.Core.Traces
import MNetSoft.Robocop.Killuser
import MNetSoft.Robocop.Orphline
import MNetSoft.Robocop.Scan
import MNetSoft.Robocop.Usermem

namespace MNetSoft.Robocop

open MNetSoft.CString MNetSoft.Numerals MNetSoft.Effects MNetSoft.Traces MNetSoft.LinkedList

/-! ## Model -/

/-- the answers of the system, from the trace before them -/
structure Site extends Kernel where
  world : List Event → World
  /-- the clock -/
  time : List Event → ℤ
  /-- when the sleep of this turn was broken off, which sets `curr_time` -/
  woken : List Event → Option ℤ
  /-- the log file can be opened again -/
  reopen : List Event → Bool
  /-- the block for the record of a process of the table -/
  malloc : List Event → ℕ → Option Proc
  /-- names and ttys of those who are logged in -/
  utmp : List Event → Option (List (Str × Str))
  rdev : List Event → Option dev_t
  /-- a device that is there has a number -/
  rdev_ne : ∀ t, rdev t ≠ some NODEV
  names : Names
  /-- the buffer of `write_orph` as it is found -/
  buf : List Event → Str
  pagesize : BitVec 64

/-- what robocop keeps from one turn to the next -/
structure Mem where
  fp : Prints
  ttys : Ttynumbers
  users : Users

def STAFF_GID : BitVec 32 := 20

def INTERVAL : ℤ := 8 * MINUTES

/-- a value that undefined behaviour does not have -/
def lift {α : Type} : Option α → Robo α
  | none => throw .undefined
  | some a => pure a

/-- what `scan_proc` adds to the accounts -/
def memCalls (procs : List Kproc) : List (uid_t × BitVec 64) :=
  (procs.filter fun pr => pr.p_rgid ≠ STAFF_GID).map fun pr => (pr.p_ruid, BitVec.ofInt 64 pr.p_vm)

section Patrol

variable (w : Site) (log : Bool)

def startLine (now : ℤ) : Str := ((w.names.ctime now).drop 4).take 20 ++ ": scanning\n".toList

/-- The pass through the process table. Without a table there is nothing on the list. -/
def scanTable (now : ℤ) (m : Mem) : Robo (List Kproc × Scan × Users) := do
  emit (.getprocs none)
  match ← answer w.getprocs with
  | .error geterr =>
    logLine log ("Failed to get process list (".toList ++ geterr ++ ")\n".toList)
    pure ([], startScan m.fp, init_usermem m.users)
  | .ok procs => do
    let world ← answer w.world
    let malloc ← answer w.malloc
    let s ← lift (scan_proc { world with curr_time := now } log malloc 0 (procs.map Kproc.toKinfo) (startScan m.fp))
    pure (procs, s, add_all (init_usermem m.users) (memCalls procs))

/-- what `check_mem` has decided on -/
def act : Option Act → Robo PUnit
  | none => pure ⟨⟩
  | some (.killuser uid) => killuser w.toKernel log uid
  | some (.loguser uid) => loguser w.toKernel log uid

def actAll : List (Option Act) → Robo PUnit
  | [] => pure ⟨⟩
  | a :: as => do
    act w log a
    actAll as

/-- the number of a tty, from the table or from the device -/
def getdevnum (ttys : Ttynumbers) (tty : Str) : Robo (dev_t × Ttynumbers) := do
  let dev ← lift (get_ttynumber ttys tty)
  if dev ≠ NODEV then pure (dev, ttys)
  else do
    let fullname := "/dev/".toList ++ tty.take UT_LINESIZE
    emit (.stat fullname)
    match ← answer w.rdev with
    | none =>
      logLine log ("ERROR: could not stat ".toList ++ fullname)
      throw .exit
    | some dev => do
      let ttys ← lift (set_ttynumber ttys tty dev)
      pure (dev, ttys)

/-- somebody is logged in there, on a tty or the console -/
def isLogin (entry : Str × Str) : Bool :=
  entry.1 ≠ [] && (strncmp entry.2 "tty".toList 3 == 0 || strcmp entry.2 "console".toList == 0)

/-- mark the ttys with logins -/
def markAll : List (Str × Str) → Active → Ttynumbers → Robo (Active × Ttynumbers)
  | [], active, ttys => pure (active, ttys)
  | entry :: entries, active, ttys =>
    if isLogin entry then do
      let dev ← getdevnum w log ttys entry.2
      let active ← lift (set_active active dev.1)
      markAll entries active dev.2
    else markAll entries active ttys

def UTMP : Str := "/var/run/utmp".toList

def scan_utmp (active : Active) (ttys : Ttynumbers) : Robo (Active × Ttynumbers) := do
  emit .openUtmp
  match ← answer w.utmp with
  | none =>
    logLine log ("FAIL: cannot open ".toList ++ UTMP ++ ['\n'])
    throw .exit
  | some entries => markAll w log entries active ttys

/-- the line of a process in the log -/
@[irreducible] def logOrph (p : Proc) : Robo PUnit := do
  let buf ← answer w.buf
  let line ← lift (write_orph w.names buf p)
  emit (.log line)

/-- the first pass over the list: soft kills, of which those that succeed are logged -/
def softLoop (heap : Heap myproc) : ℕ → Option Addr → Robo PUnit
  | 0, _ => throw .undefined
  | _ + 1, none => pure ⟨⟩
  | fuel + 1, some mp => do
    let m ← lift (heap mp)
    if 2 ≤ m.pid.toInt then do
      emit (.kill m.pid .soft)
      let killed ← answer w.kill
      if killed && log then do
        logOrph w m.toProc
        softLoop heap fuel m.next
      else softLoop heap fuel m.next
    else softLoop heap fuel m.next

/-- the second pass: hard kills; each record is freed -/
def hardLoop (out_of_memory : Bool) : Heap myproc → ℕ → Option Addr → Robo PUnit
  | _, 0, _ => throw .undefined
  | _, _ + 1, none => pure ⟨⟩
  | heap, fuel + 1, some mp => do
    let m ← lift (heap mp)
    if !out_of_memory && 2 ≤ m.pid.toInt then do
      emit (.kill m.pid .hard)
      hardLoop out_of_memory (free mp heap) fuel m.next
    else hardLoop out_of_memory (free mp heap) fuel m.next

def kill_orph (out_of_memory : Bool) (fuel : ℕ) (s : State) : Robo PUnit :=
  if out_of_memory then do
    hardLoop out_of_memory s.heap fuel s.proclist
    flush log
  else do
    softLoop w log s.heap fuel s.proclist
    flush log
    emit (.snooze 15 false)
    hardLoop out_of_memory s.heap fuel s.proclist
    flush log

/-- one turn; the list of processes is empty before it and behind it -/
def patrol (now : ℤ) (m : Mem) : Robo Mem := do
  logLine log (startLine w now)
  flush log
  let active ← lift (set_active (init_active ⟨fun _ => 0, 0⟩) 0)
  let (procs, s, users) ← scanTable w log now m
  actAll w log (check_mem w.pagesize (protect_uids ++ [-1]) users)
  let (active, ttys) ← scan_utmp w log active m.ttys
  let fuel := procs.length + 2
  let (found, left) ← lift (find_orph fuel { s.toState with tables := { s.tables with active := active } })
  if found then do
    logLine log "killing orphans...\n".toList
    flush log
    emit (.snooze (3 * MINUTES) false)
    kill_orph w log s.out_of_memory fuel left
    pure ⟨s.fp, ttys, users⟩
  else pure ⟨s.fp, ttys, users⟩

/-- how long to sleep after a turn -/
def sleepTime (curr_time now : ℤ) : ℤ :=
  if curr_time + INTERVAL - now < 0 then 1 * MINUTES else curr_time + INTERVAL - now

/-- The main loop, for a number of turns. The log file may have been rolled while robocop slept. -/
def mainLoop : ℕ → Bool → Mem → Robo PUnit
  | 0, _, _ => pure ⟨⟩
  | n + 1, log, m => do
    let start ← answer w.time
    let m ← patrol w log start m
    let woken ← answer w.woken
    let now ← answer w.time
    emit (.snooze (sleepTime (woken.getD start) now) false)
    let log ← answer w.reopen
    mainLoop n log m

end Patrol

/-! ## Signals -/

/-- an event that sends no signal, or one that `D` allows -/
def Sends (D : pid_t → Kill → Prop) (e : Event) : Prop := ∀ pid sig, e = .kill pid sig → D pid sig

variable {D : pid_t → Kill → Prop} {α : Type}

theorem sends_quiet {e : Event} (he : killOf e = none) : Sends D e := by
  rintro pid sig rfl
  cases he

theorem adds_quiet {e : Event} (he : killOf e = none) : Adds (Sends D) (emit e : Robo PUnit) :=
  adds_emit (sends_quiet he)

theorem adds_kill {pid : pid_t} {sig : Kill} (h : D pid sig) : Adds (Sends D) (emit (.kill pid sig) : Robo PUnit) := by
  refine adds_emit ?_
  rintro pid' sig' heq
  cases heq
  exact h

theorem lift_some_bind {β : Type} (a : α) (f : α → Robo β) : lift (some a) >>= f = f a := rfl

theorem adds_lift (o : Option α) : Adds (Sends D) (lift o) := by
  cases o with
  | none => exact adds_throw Stop.undefined
  | some a => exact adds_pure a

theorem exec_logLine (log : Bool) (text : Str) (s : List Event) :
    exec (logLine log text) s = (.ok ⟨⟩, s ++ if log then [.log text] else []) := by
  cases log with
  | true => rfl
  | false => rw [logLine, if_neg Bool.false_ne_true, exec_pure, if_neg Bool.false_ne_true, List.append_nil]

theorem exec_flush (log : Bool) (s : List Event) :
    exec (flush log) s = (.ok ⟨⟩, s ++ if log then [.flush] else []) := by
  cases log with
  | true => rfl
  | false => rw [flush, if_neg Bool.false_ne_true, exec_pure, if_neg Bool.false_ne_true, List.append_nil]

theorem adds_logLine (log : Bool) (text : Str) : Adds (Sends D) (logLine log text) :=
  Adds.ite (fun _ => adds_quiet rfl) fun _ => adds_pure PUnit.unit

theorem adds_flush (log : Bool) : Adds (Sends D) (flush log) :=
  Adds.ite (fun _ => adds_quiet rfl) fun _ => adds_pure PUnit.unit

theorem adds_logOrph (w : Site) (p : Proc) : Adds (Sends D) (logOrph w p) := by
  unfold logOrph
  -- the unifier would unfold `write_orph`
  generalize write_orph w.names = line
  exact Adds.bind (adds_answer w.buf) fun buf => Adds.bind (adds_lift (line buf p)) fun _ => adds_quiet rfl

section Orphans

variable {w : Site} {log : Bool} {l : List (Addr × Proc)} {heap : Heap myproc} {b : Option Addr}

theorem softLoop_adds {fuel : ℕ} (hl : Links Node heap b l none) (hD : ∀ x ∈ l, 2 ≤ x.2.pid.toInt → D x.2.pid .soft) :
    Adds (Sends D) (softLoop w log heap fuel (first l none)) := by
  induction l generalizing b fuel with
  | nil =>
    cases fuel with
    | zero => exact adds_throw Stop.undefined
    | succ fuel => exact adds_pure PUnit.unit
  | cons x l ih =>
    obtain ⟨a, p⟩ := x
    cases fuel with
    | zero => exact adds_throw Stop.undefined
    | succ fuel =>
      obtain ⟨⟨m, hm, rfl, hnext⟩, hrest⟩ := links_cons.1 hl
      obtain ⟨hfirst, hD⟩ := List.forall_mem_cons.1 hD
      have hloop : Adds (Sends D) (softLoop w log heap fuel m.next) := hnext ▸ ih hrest hD
      rw [first_cons, softLoop, hm, lift_some_bind]
      refine Adds.ite (fun hpid => ?_) fun _ => hloop
      refine Adds.bind (adds_kill (hfirst hpid)) fun _ => Adds.bind (adds_answer w.kill) fun killed => ?_
      refine Adds.ite (fun _ => ?_) fun _ => hloop
      exact Adds.bind (adds_logOrph w m.toProc) fun _ => hloop

theorem hardLoop_adds {out_of_memory : Bool} {fuel : ℕ} (hl : Links Node heap b l none) (hnodup : (addrs l).Nodup)
    (hD : out_of_memory = false → ∀ x ∈ l, 2 ≤ x.2.pid.toInt → D x.2.pid .hard) :
    Adds (Sends D) (hardLoop out_of_memory heap fuel (first l none)) := by
  induction l generalizing b fuel heap with
  | nil =>
    cases fuel with
    | zero => exact adds_throw Stop.undefined
    | succ fuel => exact adds_pure PUnit.unit
  | cons x l ih =>
    obtain ⟨a, p⟩ := x
    cases fuel with
    | zero => exact adds_throw Stop.undefined
    | succ fuel =>
      obtain ⟨⟨m, hm, rfl, hnext⟩, hrest⟩ := links_cons.1 hl
      rw [addrs_cons, List.nodup_cons] at hnodup
      have hloop : Adds (Sends D) (hardLoop out_of_memory (free a heap) fuel m.next) :=
        hnext ▸ ih (hrest.free hnodup.1) hnodup.2 fun hmem x hx => hD hmem x (List.mem_cons_of_mem _ hx)
      rw [first_cons, hardLoop, hm, lift_some_bind]
      refine Adds.ite (fun hpid => ?_) fun _ => hloop
      rw [Bool.and_eq_true, Bool.not_eq_true', decide_eq_true_eq] at hpid
      exact Adds.bind (adds_kill (hD hpid.1 _ List.mem_cons_self hpid.2)) fun _ => hloop

/-- **Signals to orphans** go to what is on the list, and only while there was memory. -/
theorem kill_orph_adds {out_of_memory : Bool} {fuel : ℕ} {s : State} (hs : Holds s l)
    (hD : out_of_memory = false → ∀ x ∈ l, 2 ≤ x.2.pid.toInt → ∀ sig, D x.2.pid sig) :
    Adds (Sends D) (kill_orph w log out_of_memory fuel s) := by
  have hhard : Adds (Sends D) (hardLoop out_of_memory s.heap fuel s.proclist) :=
    hs.start ▸ hardLoop_adds hs.links hs.nodup fun hmem x hx hpid => hD hmem x hx hpid .hard
  refine Adds.ite (fun _ => Adds.bind hhard fun _ => adds_flush log) fun hmem => ?_
  rw [Bool.not_eq_true] at hmem
  have hsoft : Adds (Sends D) (softLoop w log s.heap fuel s.proclist) :=
    hs.start ▸ softLoop_adds hs.links fun x hx hpid => hD hmem x hx hpid .soft
  refine Adds.bind hsoft fun _ => Adds.bind (adds_flush log) fun _ => Adds.bind (adds_quiet rfl) fun _ => ?_
  exact Adds.bind hhard fun _ => adds_flush log

end Orphans

/-! ## Users -/

section Users

variable {w : Site} {log : Bool}

theorem logProcs_adds (w : Kernel) (procs : List Kproc) : Adds (Sends D) (logProcs w procs) := by
  induction procs with
  | nil => exact adds_pure PUnit.unit
  | cons pr procs ih => exact Adds.bind (adds_quiet rfl) fun _ => ih

theorem loguser_adds (uid : uid_t) : Adds (Sends D) (loguser w.toKernel log uid) := by
  refine Adds.ite (fun _ => ?_) fun _ => adds_pure PUnit.unit
  refine Adds.bind (adds_quiet rfl) fun _ => Adds.bind (adds_answer w.getprocs) fun answered => ?_
  cases answered with
  | error geterr => exact adds_throw Stop.undefined
  | ok procs => exact Adds.bind (logProcs_adds w.toKernel procs) fun _ => adds_quiet rfl

/-- the processes of a user, and the pages they have, by the table -/
def usage (procs : List Kproc) (uid : uid_t) : List (BitVec 64) := callsOf (memCalls procs) uid

/-- the user has more than is allowed, and is not protected -/
def Excessive (w : Site) (procs : List Kproc) (uid : uid_t) : Prop :=
  uid ∉ protect_uids ∧ MIN_KILL_UID ≤ uid.toNat ∧
    (MAX_MEMORY ≤ toInt ((usage procs uid).sum * w.pagesize).toNat ∨ MAX_NPROC ≤ (usage procs uid).length)

theorem nproc_nonneg (users : Users) (calls : List (uid_t × BitVec 64)) (i : Fin TABLESIZE) :
    0 ≤ ((add_all (init_usermem users) calls).slots i).nproc := by
  induction calls using List.reverseRecOn with
  | nil => exact le_refl (0 : ℤ)
  | append_singleton calls c ih =>
    rw [add_all, List.foldl_concat, ← add_all, add_usermem]
    cases find_user (add_all (init_usermem users) calls).slots c.1 with
    | none => exact ih
    | some j =>
      dsimp only
      split_ifs with hempty hfull
      · exact ih
      · dsimp only
        by_cases hij : i = j
        · rw [hij, Function.update_self]
          exact zero_le_one
        · rwa [Function.update_of_ne hij]
      · dsimp only
        by_cases hij : i = j
        · rw [hij] at ih ⊢
          rw [Function.update_self]
          dsimp only
          omega
        · rwa [Function.update_of_ne hij]

/-- a user on whom `check_mem` decides has too much, by the accounts -/
theorem excessive_of_check_mem {procs : List Kproc} {users : Users} {uid : uid_t}
    (h : some (.killuser uid) ∈ check_mem w.pagesize (protect_uids ++ [-1])
      (add_all (init_usermem users) (memCalls procs))) (huser : MIN_KILL_UID ≤ uid.toNat) : Excessive w procs uid := by
  obtain ⟨s, hs, hslot⟩ := List.mem_map.1 h
  obtain ⟨i, rfl⟩ := List.mem_ofFn.1 hs
  have hzero : ((add_all (init_usermem users) (memCalls procs)).slots i).nproc ≠ 0 := by
    intro hzero
    rw [checkSlot, if_pos hzero] at hslot
    cases hslot
  have hprot : ¬isProtected ((add_all (init_usermem users) (memCalls procs)).slots i).uid (protect_uids ++ [-1]) =
      true := by
    intro hprot
    rw [checkSlot, if_neg hzero] at hslot
    dsimp only at hslot
    rw [if_pos hprot] at hslot
    split_ifs at hslot
  rw [checkSlot_eq_verdict hzero hprot] at hslot
  have huid : ((add_all (init_usermem users) (memCalls procs)).slots i).uid = uid := by
    rw [verdict] at hslot
    split_ifs at hslot
    · exact Act.killuser.inj (Option.some.inj hslot)
    · cases hslot
  rw [huid] at hslot hprot
  obtain ⟨c, hholding⟩ := holding_add_all users (memCalls procs)
  obtain ⟨hin, hout⟩ := hholding.accounts uid
  have hpos := lt_of_le_of_ne (nproc_nonneg users (memCalls procs) i) hzero.symm
  by_cases hfirst : uid ∈ firstUids (memCalls procs)
  · obtain ⟨j, hj, hunique⟩ := hin hfirst
    rw [hunique i huid hpos, hj] at hslot
    refine ⟨fun hmem => hprot ((isProtected_iff _ _).2 ?_), huser, verdict_eq_killuser_iff.1 hslot⟩
    have hend : (protect_uids ++ [-1]).takeWhile (· ≠ -1) = protect_uids := by decide
    rwa [hend]
  · exact absurd hpos (hout hfirst i huid)

end Users

end MNetSoft.Robocop
