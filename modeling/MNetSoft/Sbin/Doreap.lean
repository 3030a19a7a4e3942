/-
A reap run: `doreap`, from the master lock to its end. One step is what the program does up to the end of its next call
of the system, of a command or of the operator; an `Outcome` says what becomes of that call, which can also raise an
exception (no such command, end of file, an interrupt, a full disk). The editor, the shell escape and the pager leave
the temporary list as they like, and the other files of the reap directory alone.

The state has the program's variables `last` and `next` and, as ghosts, whether the run has made the lock, the list as
the last clean exit of editor, shell or pager has left it, whether it has been in the pager, whether the operator has
said the final yes, and the runs of `zapuser`.

- `nextreap_eq_some`, `nextreap_eq_none`: the number that the search finds, and when it gives up.
- `readLastreap_lastreapText`: the number that a run saves is the one that the next run reads.
- `inv_step`: what is known at each point of the program, whatever its calls do.
- `disciplined_iff`: the discipline of a run holds exactly when no call raises an exception while the run has the lock,
  the last number can be read, the search finds a number, and the list is still there when it is to be committed.
- `lock_left`: a run that finds no number in lastreap.txt.
-/
import Mathlib.Tactic
import Mathlib.Logic.Function.Basic
import MNetSoft.Core.Runs
import MNetSoft.Core.Numerals

namespace MNetSoft.Sbin.Doreap

open MNetSoft.CString
open MNetSoft.Numerals
open MNetSoft.Runs

/-! ## The files -/

/-- the files of the reap directory; `temp` is the name that `mktemp` picks -/
inductive Name where
  | masterlock
  | lastreap
  | ptk (n : ℕ)
  | finger (n : ℕ)
  | temp
deriving DecidableEq, Repr

abbrev Dir := Name → Option Str

/-- what ends the program before its time -/
inductive Exc where
  | SystemExit
  | TypeError
  | IndexError
  | IOError
  | OSError
  | EOFError
  | KeyError
  | KeyboardInterrupt
deriving DecidableEq, Repr

/-! ## Functions of the program -/

/-- `line.strip()`, then without a comment, stripped again -/
def cleanline (line : Str) : Str := strip ((strip line).takeWhile (· ≠ '#'))

def filterline (l : Str) : Bool := l ≠ [] && l.all Char.isDigit

/-- `lastreap`; more than one line ends in `raise` of a string, which is no exception -/
def readLastreap (file : Option Str) : Except Exc ℕ :=
  match file with
  | none => .error .IOError
  | some text =>
    match ((splitLines text).map cleanline).filter filterline with
    | [] => .error .IndexError
    | [l] => .ok (scanDigits 10 0 l).1
    | _ :: _ :: _ => .error .TypeError

def header : Str := "# Last reap file updated at ".toList

/-- what `setlastreap` writes -/
def lastreapText (timestamp : Str) (lastreap : ℕ) : Str :=
  unlines [header ++ timestamp, Nat.toDigits 10 lastreap]

/-- the loop of `nextreap` -/
def nextreapLoop (dir : Dir) (last ptknum : ℕ) : Option ℕ :=
  if (dir (.ptk ptknum)).isSome then
    if ptknum + 1 - last > 100 then none else nextreapLoop dir last (ptknum + 1)
  else some ptknum
termination_by last + 101 - ptknum

def nextreap (dir : Dir) (last : ℕ) : Option ℕ := nextreapLoop dir last last

/-- `yesno`, for the line that `raw_input` returns -/
def yesno (line : Str) : Bool :=
  match strip line with
  | [] => false
  | c :: _ => c = 'Y' || c = 'y'

/-! ## The program -/

/-- what it does next; `e` is how it ends when it has cleaned up -/
inductive Point where
  | masterlock
  | writepid
  | lastreap
  | nextreap
  | mktemp
  | mkreaplist
  | editorkey
  | editor
  | askshell
  | shell
  | askrepeat
  | pagerkey
  | pager
  | askcommit
  | rename
  | mkfingers
  | dozap
  | zapping
  | checkfws
  | checkgroups
  | rebuild_active_incoming
  | setlastreap
  | writelastreap
  | cleanup (e : Option Exc)
  | unlock (e : Option Exc)
  | ended (e : Option Exc)
deriving DecidableEq, Repr

/-- a run of `zapuser`: the number of the file and the list in it -/
structure Zap where
  no : ℕ
  list : Str
deriving DecidableEq, Repr

structure St where
  dir : Dir
  point : Point
  last : ℕ
  next : ℕ
  created : Bool
  approved : Option Str
  paged : Bool
  committed : Bool
  zaps : List Zap

/-- what becomes of a call: the exception, the exit status, the line read or written, what is left of the file -/
structure Outcome where
  raised : Option Exc
  status : ℤ
  line : Str
  left : Option Str
deriving DecidableEq, Repr

def start (dir : Dir) : St := ⟨dir, .masterlock, 0, 0, false, none, false, false, []⟩

namespace St

def goto (s : St) (p : Point) : St := { s with point := p }

def raise (s : St) (e : Exc) : St := { s with point := .ended (some e) }

def write (s : St) (name : Name) (text : Option Str) : St := { s with dir := Function.update s.dir name text }

/-- an editor, shell or pager has been called: a status that is not 0 aborts the run -/
def called (s : St) (o : Outcome) (p : Point) : St :=
  if o.status ≠ 0 then (s.write .temp o.left).goto (.cleanup (some .SystemExit))
  else { s.write .temp o.left with approved := o.left, point := p }

/-- what a call has done to the files when it raises an exception -/
def upset (s : St) (o : Outcome) : St :=
  match s.point with
  | .mkreaplist | .editor | .shell | .pager => s.write .temp o.left
  | .mkfingers => s.write (.finger s.next) o.left
  | .writelastreap => s.write .lastreap o.left
  | _ => s

/-- what the program does when its call returns -/
def proceed (s : St) (o : Outcome) : St :=
  match s.point with
  | .masterlock => { s.write .masterlock (some []) with created := true, point := .writepid }
  | .writepid => (s.write .masterlock (some (o.line ++ ['\n']))).goto .lastreap
  | .lastreap =>
    match readLastreap (s.dir .lastreap) with
    | .error e => s.raise e
    | .ok n => { s with last := n, point := .nextreap }
  | .nextreap =>
    match nextreap s.dir s.last with
    | none => s.raise .SystemExit
    | some n => { s with next := n, point := .mktemp }
  | .mktemp => s.goto .mkreaplist
  | .mkreaplist => (s.write .temp (some (o.left.getD []))).goto .editorkey
  | .editorkey => s.goto .editor
  | .editor => s.called o .askshell
  | .askshell => s.goto (if yesno o.line then .shell else .askrepeat)
  | .shell => s.called o .askrepeat
  | .askrepeat => s.goto (if yesno o.line then .editor else .pagerkey)
  | .pagerkey => s.goto .pager
  | .pager => { s.called o .askcommit with paged := decide (o.status = 0) }
  | .askcommit => if yesno o.line then { s with committed := true, point := .rename } else s.goto (.cleanup none)
  | .rename =>
    match s.dir .temp with
    | none => s.raise .OSError
    | some list => ((s.write (.ptk s.next) (some list)).write .temp none).goto .mkfingers
  | .mkfingers => (s.write (.finger s.next) o.left).goto .dozap
  | .dozap => { s with zaps := s.zaps ++ [⟨s.next, (s.dir (.ptk s.next)).getD []⟩], point := .zapping }
  | .zapping => s.goto .checkfws
  | .checkfws => s.goto .checkgroups
  | .checkgroups => s.goto .rebuild_active_incoming
  | .rebuild_active_incoming => s.goto .setlastreap
  | .setlastreap => (s.write .lastreap none).goto .writelastreap
  | .writelastreap => (s.write .lastreap (some (lastreapText o.line s.next))).goto (.cleanup none)
  | .cleanup e => (s.write .temp none).goto (.unlock e)
  | .unlock e => (s.write .masterlock none).goto (.ended e)
  | .ended _ => s

end St

/-- one step of `doreap`: `masterlock` looks for the lock before it makes one -/
def step (s : St) (o : Outcome) : Option St :=
  match s.point with
  | .ended _ => none
  | p =>
    if p = .masterlock ∧ (s.dir .masterlock).isSome then some (s.raise .SystemExit)
    else
      match o.raised with
      | some e => some ((s.upset o).raise e)
      | none => some (s.proceed o)

/-! ## The discipline -/

/-- the program has come to its end -/
def St.Ended (s : St) : Prop := ∃ e, s.point = .ended e

/-- the run has been through to the end of a reap -/
def St.Finished (s : St) : Prop := s.point = .ended none ∧ s.committed = true

/-- what is asked of a run on the directory `dir`, in every state it goes through -/
structure Disciplined (dir : Dir) (s : St) : Prop where
  once : s.zaps.length ≤ 1
  zapped : ∀ z ∈ s.zaps, s.committed = true ∧ s.paged = true ∧ dir (.ptk z.no) = none ∧ s.approved = some z.list
  aborted : s.Ended → ¬ s.Finished → s.zaps = [] ∧ s.dir .lastreap = dir .lastreap
  lock : s.Ended → s.dir .masterlock = if s.created = true then none else dir .masterlock

/-- while the run has the lock, no call raises an exception, the last number can be read, the search finds a number, and
the list is there when it is to be committed -/
def Harmless (s : St) (o : Outcome) : Prop :=
  s.created = true → o.raised = none ∧
    match s.point with
    | .lastreap => ∃ n, readLastreap (s.dir .lastreap) = .ok n
    | .nextreap => (nextreap s.dir s.last).isSome = true
    | .rename => (s.dir .temp).isSome = true
    | _ => True

/-! ## The last number -/

theorem isDigit_decimal {n : ℕ} : ∀ c ∈ Nat.toDigits 10 n, c.isDigit = true :=
  fun _ hc => Nat.isDigit_of_mem_toDigits (by decide) (by decide) hc

theorem not_mem_decimal (n : ℕ) {d : Char} (hd : d.isDigit = false) : d ∉ Nat.toDigits 10 n := by
  intro hmem
  rw [isDigit_decimal d hmem] at hd
  cases hd

/-- the first line is a comment, whatever the time is -/
theorem cleanline_header (timestamp : Str) : cleanline (header ++ timestamp) = [] := by
  have hskip : skipSpace (header ++ timestamp) = header ++ timestamp := rfl
  have hcut : (strip (header ++ timestamp)).takeWhile (· ≠ '#') = [] := by
    rw [strip, hskip]
    rcases hrest : (header ++ timestamp).rdropWhile isspace with _ | ⟨c, rest⟩
    · rfl
    · have hprefix : c :: rest <+: '#' :: (header.tail ++ timestamp) := hrest ▸ List.rdropWhile_prefix _ _
      rw [(List.cons_prefix_cons.1 hprefix).1]
      rfl
  rw [cleanline, hcut]
  rfl

theorem cleanline_decimal (n : ℕ) : cleanline (Nat.toDigits 10 n) = Nat.toDigits 10 n := by
  have hspace : ∀ c ∈ Nat.toDigits 10 n, isspace c = false := by
    intro c hc
    by_contra hsp
    rw [Bool.not_eq_false, isspace, decide_eq_true_eq] at hsp
    simp only [List.mem_cons, List.not_mem_nil, or_false] at hsp
    rcases hsp with rfl | rfl | rfl | rfl | rfl | rfl <;> exact not_mem_decimal n (by decide) hc
  have hall : (Nat.toDigits 10 n).takeWhile (· ≠ '#') = Nat.toDigits 10 n := by
    apply List.takeWhile_eq_self_iff.2
    intro c hc
    rw [decide_eq_true_eq]
    rintro rfl
    exact not_mem_decimal n (by decide) hc
  calc cleanline (Nat.toDigits 10 n) = strip ((Nat.toDigits 10 n).takeWhile (· ≠ '#')) := by
        rw [cleanline, strip_word hspace]
    _ = strip (Nat.toDigits 10 n) := by rw [hall]
    _ = Nat.toDigits 10 n := strip_word hspace

/-- **What a run saves, the next one reads.** -/
theorem readLastreap_lastreapText {timestamp : Str} (htime : '\n' ∉ timestamp) (n : ℕ) :
    readLastreap (some (lastreapText timestamp n)) = .ok n := by
  have hlines : splitLines (lastreapText timestamp n) = [header ++ timestamp, Nat.toDigits 10 n, []] := by
    apply splitLines_unlines
    intro l hl
    rcases List.mem_cons.1 hl with rfl | hl
    · rw [List.mem_append, not_or]
      exact ⟨by decide, htime⟩
    · rw [List.mem_singleton.1 hl]
      exact not_mem_decimal n (by decide)
  have hfilter : filterline (Nat.toDigits 10 n) = true := by
    rw [filterline, Bool.and_eq_true, decide_eq_true_eq]
    exact ⟨Nat.toDigits_ne_nil, List.all_eq_true.2 isDigit_decimal⟩
  have hempty : filterline (cleanline []) = false := by decide
  have hvalue := scanDigits_decimal n (s := []) (by decide)
  rw [List.append_nil] at hvalue
  have hblank : filterline [] = false := by decide
  have hkept : ([header ++ timestamp, Nat.toDigits 10 n, []].map cleanline).filter filterline =
      [Nat.toDigits 10 n] := by
    rw [List.map_cons, List.map_cons, List.map_singleton, cleanline_header, cleanline_decimal, List.filter_cons,
      List.filter_cons, List.filter_singleton, hblank, hfilter, hempty]
    rfl
  simp only [readLastreap, hlines, hkept, hvalue]

/-! ## The search for a number -/

theorem nextreapLoop_eq_some {dir : Dir} {last ptknum n : ℕ} (hlo : last ≤ ptknum) (hhi : ptknum ≤ last + 100) :
    nextreapLoop dir last ptknum = some n ↔
      ptknum ≤ n ∧ n ≤ last + 100 ∧ dir (.ptk n) = none ∧ ∀ m, ptknum ≤ m → m < n → (dir (.ptk m)).isSome = true := by
  induction ptknum using nextreapLoop.induct dir last with
  | case1 ptknum hused hfar =>
    rw [nextreapLoop, if_pos hused, if_pos hfar]
    apply iff_of_false (by simp)
    intro h
    rcases h with ⟨hle, hn, hfree, hall⟩
    have heq : n = ptknum := by omega
    rw [heq] at hfree
    rw [hfree] at hused
    cases hused
  | case2 ptknum hused hnear ih =>
    rw [nextreapLoop, if_pos hused, if_neg hnear, ih (by omega) (by omega)]
    refine ⟨fun ⟨hle, hn, hfree, hall⟩ => ⟨by omega, hn, hfree, fun m hm hmn => ?_⟩,
      fun ⟨hle, hn, hfree, hall⟩ => ⟨?_, hn, hfree, fun m hm => hall m (by omega)⟩⟩
    · rcases Nat.eq_or_lt_of_le hm with rfl | hlt
      · exact hused
      · exact hall m hlt hmn
    · rcases Nat.eq_or_lt_of_le hle with rfl | hlt
      · rw [hfree] at hused
        cases hused
      · exact hlt
  | case3 ptknum hunused =>
    rw [nextreapLoop, if_neg hunused]
    rw [Bool.not_eq_true, Option.isSome_eq_false_iff, Option.isNone_iff_eq_none] at hunused
    refine ⟨?_, fun ⟨hle, hn, hfree, hall⟩ => ?_⟩
    · intro h
      rcases h with ⟨rfl⟩
      exact ⟨le_rfl, hhi, hunused, fun m hm hmn => absurd hmn (by omega)⟩
    · rcases Nat.eq_or_lt_of_le hle with rfl | hlt
      · rfl
      · have hused := hall ptknum le_rfl hlt
        rw [hunused] at hused
        cases hused

/-- the search finds the first number from `last` on that is free -/
theorem nextreap_eq_some {dir : Dir} {last n : ℕ} : nextreap dir last = some n ↔
    last ≤ n ∧ n ≤ last + 100 ∧ dir (.ptk n) = none ∧ ∀ m, last ≤ m → m < n → (dir (.ptk m)).isSome = true :=
  nextreapLoop_eq_some le_rfl (by omega)

/-- it gives up when `last` and the hundred numbers after it are used -/
theorem nextreap_eq_none {dir : Dir} {last : ℕ} : nextreap dir last = none ↔
    ∀ m, last ≤ m → m ≤ last + 100 → (dir (.ptk m)).isSome = true := by
  constructor
  · intro h m hm hle
    -- the first of the free numbers would have been found
    by_contra hfree
    classical
    have hex : ∃ m, last ≤ m ∧ ¬ (dir (.ptk m)).isSome = true := ⟨m, hm, hfree⟩
    obtain ⟨hlo, hnone⟩ := Nat.find_spec hex
    have hle' : Nat.find hex ≤ m := Nat.find_min' hex ⟨hm, hfree⟩
    have hfound : nextreap dir last = some (Nat.find hex) := by
      refine nextreap_eq_some.2 ⟨hlo, by omega, ?_, fun k hk hkn => ?_⟩
      · rwa [Bool.not_eq_true, Option.isSome_eq_false_iff, Option.isNone_iff_eq_none] at hnone
      · by_contra hk'
        exact Nat.find_min hex hkn ⟨hk, hk'⟩
    rw [h] at hfound
    cases hfound
  · intro h
    cases hn : nextreap dir last with
    | none => rfl
    | some n =>
      obtain ⟨hlo, hhi, hfree, -⟩ := nextreap_eq_some.1 hn
      have hused := h n hlo hhi
      rw [hfree] at hused
      cases hused

/-! ## The invariant -/

/-- nothing has been committed, and nothing but the lock and the temporary list has changed -/
structure Before (dir : Dir) (s : St) : Prop where
  committed : s.committed = false
  zaps : s.zaps = []
  same : ∀ name, name ≠ .masterlock → name ≠ .temp → s.dir name = dir name

/-- the run has the lock -/
def Held (s : St) : Prop := s.created = true ∧ (s.dir .masterlock).isSome = true

/-- the list has been committed as it was approved, and nobody has been zapped yet -/
structure Committed (dir : Dir) (s : St) (list : Option Str) : Prop where
  committed : s.committed = true
  paged : s.paged = true
  fresh : dir (.ptk s.next) = none
  approved : s.approved = list
  zaps : s.zaps = []

/-- what is known of a run at a point of the program -/
def Point.Ok (dir : Dir) (s : St) : Point → Prop
  | .masterlock => s.created = false ∧ s.dir = dir ∧ Before dir s
  | .writepid | .lastreap | .nextreap => Held s ∧ Before dir s
  | .mktemp | .mkreaplist | .editorkey | .editor => Held s ∧ Before dir s ∧ dir (.ptk s.next) = none
  | .askshell | .shell | .askrepeat | .pagerkey | .pager =>
    Held s ∧ Before dir s ∧ dir (.ptk s.next) = none ∧ s.approved = s.dir .temp
  | .askcommit =>
    Held s ∧ Before dir s ∧ dir (.ptk s.next) = none ∧ s.approved = s.dir .temp ∧ s.paged = true
  | .rename => Held s ∧ Committed dir s (s.dir .temp)
  | .mkfingers | .dozap => Held s ∧ Committed dir s (s.dir (.ptk s.next)) ∧ (s.dir (.ptk s.next)).isSome = true
  | .zapping | .checkfws | .checkgroups | .rebuild_active_incoming | .setlastreap | .writelastreap =>
    Held s ∧ s.committed = true
  | .cleanup e | .unlock e => Held s ∧ (Before dir s ∨ (e = none ∧ s.committed = true))
  | .ended _ => True

structure Inv (dir : Dir) (s : St) : Prop where
  once : s.zaps.length ≤ 1
  zapped : ∀ z ∈ s.zaps, s.committed = true ∧ s.paged = true ∧ dir (.ptk z.no) = none ∧ s.approved = some z.list
  point : s.point.Ok dir s

/-! ## Steps that keep it -/

section Files

variable (s : St) (text : Option Str)

@[simp] theorem St.write_same (name : Name) : (s.write name text).dir name = text := Function.update_self ..

theorem St.write_other {name other : Name} (h : other ≠ name) : (s.write name text).dir other = s.dir other :=
  Function.update_of_ne h ..

end Files

variable {dir : Dir} {s t : St} {o : Outcome}

/-- the run goes on with the lock as long as nothing else is written over it -/
theorem Held.write (h : Held s) (name : Name) (hname : name ≠ .masterlock) (text : Option Str) :
    Held (s.write name text) :=
  ⟨h.1, by rw [St.write_other s text hname.symm]; exact h.2⟩

theorem Before.write (h : Before dir s) {name : Name} (hname : name = .masterlock ∨ name = .temp) (text : Option Str) :
    Before dir (s.write name text) := by
  refine ⟨h.committed, h.zaps, fun other hlock htemp => ?_⟩
  have hother : other ≠ name := by
    rintro rfl
    rcases hname with rfl | rfl
    · exact hlock rfl
    · exact htemp rfl
  rw [St.write_other s text hother, h.same other hlock htemp]

/-- a run with nothing committed is sound as it is -/
theorem Before.inv (h : Before dir s) (hpoint : s.point.Ok dir s) : Inv dir s :=
  ⟨by rw [h.zaps]; exact Nat.zero_le 1, fun z hz => absurd (h.zaps ▸ hz) List.not_mem_nil, hpoint⟩

theorem Inv.keep (h : Inv dir s) (hzaps : t.zaps = s.zaps) (hcommitted : t.committed = s.committed)
    (hpaged : t.paged = s.paged) (happroved : t.approved = s.approved) (hpoint : t.point.Ok dir t) : Inv dir t := by
  refine ⟨by rw [hzaps]; exact h.once, fun z hz => ?_, hpoint⟩
  rw [hcommitted, hpaged, happroved]
  exact h.zapped z (hzaps ▸ hz)

theorem Before.goto (h : Before dir s) (q : Point) : Before dir (s.goto q) := ⟨h.committed, h.zaps, h.same⟩

/-- what is known at a point does not depend on where the program is -/
theorem ok_goto {p : Point} (h : p.Ok dir s) (q : Point) : p.Ok dir (s.goto q) := by
  cases p with
  | masterlock => exact ⟨h.1, h.2.1, h.2.2.goto q⟩
  | writepid | lastreap | nextreap => exact ⟨h.1, h.2.goto q⟩
  | mktemp | mkreaplist | editorkey | editor => exact ⟨h.1, h.2.1.goto q, h.2.2⟩
  | askshell | shell | askrepeat | pagerkey | pager | askcommit => exact ⟨h.1, h.2.1.goto q, h.2.2⟩
  | rename => exact ⟨h.1, h.2.committed, h.2.paged, h.2.fresh, h.2.approved, h.2.zaps⟩
  | mkfingers | dozap => exact ⟨h.1, ⟨h.2.1.committed, h.2.1.paged, h.2.1.fresh, h.2.1.approved, h.2.1.zaps⟩, h.2.2⟩
  | zapping | checkfws | checkgroups | rebuild_active_incoming | setlastreap | writelastreap => exact h
  | cleanup e | unlock e => exact ⟨h.1, h.2.imp (fun hb => hb.goto q) id⟩
  | ended e => trivial

/-- the program goes on to a point of which it knows what it has to know -/
theorem Inv.goto (h : Inv dir s) {p : Point} (hp : p.Ok dir s) : Inv dir (s.goto p) :=
  h.keep rfl rfl rfl rfl (ok_goto hp p)

/-- what is written at the end of a reap is of no account -/
theorem Inv.after (h : Inv dir s) (hheld : Held s) (hcommitted : s.committed = true) {name : Name}
    (hname : name ≠ .masterlock) (text : Option Str) {p : Point} (hp : ∀ u, Held u ∧ u.committed = true → p.Ok dir u) :
    Inv dir ((s.write name text).goto p) :=
  h.keep rfl rfl rfl rfl (hp _ ⟨hheld.write name hname text, hcommitted⟩)

/-- an editor, shell or pager leaves the list as the approved one, or aborts the run -/
theorem called_ok {p : Point} (hheld : Held s) (hbefore : Before dir s) (hfresh : dir (.ptk s.next) = none) :
    Held (s.called o p) ∧ Before dir (s.called o p) ∧
      ((s.called o p).point = .cleanup (some .SystemExit) ∧ o.status ≠ 0 ∨
        (s.called o p).point = p ∧ o.status = 0 ∧ dir (.ptk (s.called o p).next) = none ∧
          (s.called o p).approved = (s.called o p).dir .temp) := by
  have hheld' : Held (s.write .temp o.left) := hheld.write .temp (by decide) o.left
  have hbefore' : Before dir (s.write .temp o.left) := hbefore.write (.inr rfl) o.left
  rw [St.called]
  split_ifs with hstatus
  · exact ⟨hheld', ⟨hbefore'.committed, hbefore'.zaps, hbefore'.same⟩, .inl ⟨rfl, hstatus⟩⟩
  · refine ⟨hheld', ⟨hbefore'.committed, hbefore'.zaps, hbefore'.same⟩, .inr ⟨rfl, not_not.1 hstatus, hfresh, ?_⟩⟩
    exact (St.write_same s o.left .temp).symm

theorem called_inv {p : Point} (hheld : Held s) (hbefore : Before dir s) (hfresh : dir (.ptk s.next) = none)
    (hp : ∀ u, Held u ∧ Before dir u ∧ dir (.ptk u.next) = none ∧ u.approved = u.dir .temp → p.Ok dir u) :
    Inv dir (s.called o p) := by
  obtain ⟨hheld', hbefore', hcalled⟩ := called_ok (o := o) (p := p) hheld hbefore hfresh
  apply hbefore'.inv
  rcases hcalled with ⟨hpoint, -⟩ | ⟨hpoint, -, hrest⟩
  · rw [hpoint]
    exact ⟨hheld', .inl hbefore'⟩
  · rw [hpoint]
    exact hp _ ⟨hheld', hbefore', hrest⟩

/-- the list is committed under a number that nobody has used, and the lock is still there -/
theorem rename_ok {list : Str} (hheld : Held s) (hcom : Committed dir s (s.dir .temp))
    (hlist : s.dir .temp = some list) :
    (Point.mkfingers).Ok dir ((s.write (.ptk s.next) (some list)).write .temp none) := by
  have hptk : ((s.write (.ptk s.next) (some list)).write .temp none).dir (.ptk s.next) = some list := by
    rw [St.write_other _ _ (by simp), St.write_same]
  have hrenamed : Held (s.write (.ptk s.next) (some list)) := hheld.write _ (by simp) _
  refine ⟨hrenamed.write .temp (by decide) none, ⟨hcom.committed, hcom.paged, hcom.fresh, ?_, hcom.zaps⟩, ?_⟩
  · calc s.approved = s.dir .temp := hcom.approved
      _ = some list := hlist
      _ = ((s.write (.ptk s.next) (some list)).write .temp none).dir (.ptk s.next) := hptk.symm
  · exact Option.isSome_of_eq_some hptk

/-- `zapuser` is run on the list that has been committed -/
theorem zap_ok {list : Str} (hcom : Committed dir s (some list)) {u : St}
    (hu : u = { s with zaps := s.zaps ++ [⟨s.next, list⟩], point := .zapping }) (hheld : Held s) : Inv dir u := by
  subst hu
  refine ⟨?_, fun z hz => ?_, hheld, hcom.committed⟩
  · rw [hcom.zaps]
    exact le_rfl
  · rw [hcom.zaps, List.nil_append, List.mem_singleton] at hz
    subst hz
    exact ⟨hcom.committed, hcom.paged, hcom.fresh, hcom.approved⟩

/-- **The invariant is kept by every call that returns.** -/
theorem inv_proceed (h : Inv dir s) : Inv dir (s.proceed o) := by
  have hp := h.point
  rw [St.proceed]
  cases hpoint : s.point with
  | masterlock =>
    rw [hpoint] at hp
    obtain ⟨-, -, hbefore⟩ := hp
    have hb := hbefore.write (.inl rfl) (some [])
    have hheld : Held { s.write .masterlock (some []) with created := true } :=
      ⟨rfl, Option.isSome_of_eq_some (St.write_same s (some []) .masterlock)⟩
    exact Before.inv ⟨hb.committed, hb.zaps, hb.same⟩ ⟨hheld, hb.committed, hb.zaps, hb.same⟩
  | writepid =>
    rw [hpoint] at hp
    obtain ⟨hheld, hbefore⟩ := hp
    have hb := hbefore.write (.inl rfl) (some (o.line ++ ['\n']))
    have hlock := Option.isSome_of_eq_some (St.write_same s (some (o.line ++ ['\n'])) .masterlock)
    exact Before.inv ⟨hb.committed, hb.zaps, hb.same⟩ ⟨⟨hheld.1, hlock⟩, hb.committed, hb.zaps, hb.same⟩
  | lastreap =>
    rw [hpoint] at hp
    dsimp only
    split
    · exact h.keep rfl rfl rfl rfl trivial
    · exact h.keep rfl rfl rfl rfl ⟨hp.1, hp.2.committed, hp.2.zaps, hp.2.same⟩
  | nextreap =>
    rw [hpoint] at hp
    dsimp only
    split
    · exact h.keep rfl rfl rfl rfl trivial
    · rename_i n hn
      have hfresh : dir (.ptk n) = none := by
        rw [← hp.2.same (.ptk n) (by simp) (by simp)]
        exact (nextreap_eq_some.1 hn).2.2.1
      exact h.keep rfl rfl rfl rfl ⟨hp.1, ⟨hp.2.committed, hp.2.zaps, hp.2.same⟩, hfresh⟩
  | mktemp | editorkey | pagerkey | zapping | checkfws | checkgroups | rebuild_active_incoming =>
    rw [hpoint] at hp
    exact h.goto hp
  | mkreaplist =>
    rw [hpoint] at hp
    obtain ⟨hheld, hbefore, hfresh⟩ := hp
    have hb := hbefore.write (.inr rfl) (some (o.left.getD []))
    have hheld' := hheld.write .temp (by decide) (some (o.left.getD []))
    dsimp only
    exact h.keep rfl rfl rfl rfl ⟨hheld', ⟨hb.committed, hb.zaps, hb.same⟩, hfresh⟩
  | editor =>
    rw [hpoint] at hp
    exact called_inv hp.1 hp.2.1 hp.2.2 fun u hu => hu
  | askshell =>
    rw [hpoint] at hp
    dsimp only
    split_ifs
    · exact h.goto hp
    · exact h.goto hp
  | shell =>
    rw [hpoint] at hp
    exact called_inv hp.1 hp.2.1 hp.2.2.1 fun u hu => hu
  | askrepeat =>
    rw [hpoint] at hp
    dsimp only
    split_ifs
    · exact h.goto ⟨hp.1, hp.2.1, hp.2.2.1⟩
    · exact h.goto hp
  | pager =>
    rw [hpoint] at hp
    obtain ⟨hheld, hbefore, hcalled⟩ := called_ok (o := o) (p := .askcommit) hp.1 hp.2.1 hp.2.2.1
    set u : St := { s.called o .askcommit with paged := decide (o.status = 0) } with hu
    have hb : Before dir u := ⟨hbefore.committed, hbefore.zaps, hbefore.same⟩
    have hpoint' : u.point = (s.called o .askcommit).point := rfl
    apply hb.inv
    rcases hcalled with ⟨hp, -⟩ | ⟨hp, hstatus, hfresh, happroved⟩
    · rw [hpoint', hp]
      exact ⟨hheld, .inl hb⟩
    · rw [hpoint', hp]
      exact ⟨hheld, hb, hfresh, happroved, decide_eq_true hstatus⟩
  | askcommit =>
    rw [hpoint] at hp
    obtain ⟨hheld, hbefore, hfresh, happroved, hpaged⟩ := hp
    dsimp only
    split_ifs
    · refine ⟨h.once, fun z hz => ?_, hheld, rfl, hpaged, hfresh, happroved, hbefore.zaps⟩
      exact absurd (hbefore.zaps ▸ hz) List.not_mem_nil
    · exact h.keep rfl rfl rfl rfl ⟨hheld, .inl ⟨hbefore.committed, hbefore.zaps, hbefore.same⟩⟩
  | rename =>
    rw [hpoint] at hp
    dsimp only
    split
    · exact h.keep rfl rfl rfl rfl trivial
    · rename_i list hlist
      exact h.keep rfl rfl rfl rfl (ok_goto (rename_ok hp.1 hp.2 hlist) .mkfingers)
  | mkfingers =>
    rw [hpoint] at hp
    obtain ⟨hheld, hcom, hsome⟩ := hp
    have hptk : (s.write (.finger s.next) o.left).dir (.ptk s.next) = s.dir (.ptk s.next) :=
      St.write_other _ _ (by simp)
    have hsaved : Committed dir (s.write (.finger s.next) o.left) (s.dir (.ptk s.next)) :=
      ⟨hcom.committed, hcom.paged, hcom.fresh, hcom.approved, hcom.zaps⟩
    rw [← hptk] at hsaved hsome
    have hheld' := hheld.write (.finger s.next) (by simp) o.left
    dsimp only
    exact h.keep rfl rfl rfl rfl ⟨hheld', ⟨hsaved.committed, hsaved.paged, hsaved.fresh, hsaved.approved, hsaved.zaps⟩,
      hsome⟩
  | dozap =>
    rw [hpoint] at hp
    obtain ⟨hheld, hcom, hsome⟩ := hp
    obtain ⟨list, hlist⟩ := Option.isSome_iff_exists.1 hsome
    rw [hlist] at hcom
    exact zap_ok hcom (by rw [hlist]; rfl) hheld
  | setlastreap =>
    rw [hpoint] at hp
    exact h.after hp.1 hp.2 (by decide) none fun u hu => hu
  | writelastreap =>
    rw [hpoint] at hp
    exact h.after hp.1 hp.2 (by decide) _ fun u hu => ⟨hu.1, .inr ⟨rfl, hu.2⟩⟩
  | cleanup e =>
    rw [hpoint] at hp
    obtain ⟨hheld, hrest⟩ := hp
    have hheld' := hheld.write .temp (by decide) none
    dsimp only
    refine h.keep rfl rfl rfl rfl ⟨hheld', ?_⟩
    rcases hrest with hbefore | hdone
    · have hb := hbefore.write (.inr rfl) none
      exact .inl ⟨hb.committed, hb.zaps, hb.same⟩
    · exact .inr hdone
  | unlock e => exact h.keep rfl rfl rfl rfl trivial
  | ended e => exact h

/-- what a step can be: the lock is there already, the call raises an exception, or it returns -/
theorem step_cases (h : step s o = some t) : ¬ s.Ended ∧
    ((s.point = .masterlock ∧ (s.dir .masterlock).isSome = true ∧ t = s.raise .SystemExit) ∨
      (∃ e, o.raised = some e ∧ t = (s.upset o).raise e) ∨ (o.raised = none ∧ t = s.proceed o)) := by
  have hrun : ¬ s.Ended := by
    intro hx
    rcases hx with ⟨e, he⟩
    rw [step, he] at h
    cases h
  refine ⟨hrun, ?_⟩
  rw [step] at h
  split at h
  · cases h
  · split_ifs at h with hlock
    · cases h
      exact .inl ⟨hlock.1, hlock.2, rfl⟩
    · split at h
      · rename_i e he
        cases h
        exact .inr (.inl ⟨e, he, rfl⟩)
      · rename_i hnone
        cases h
        exact .inr (.inr ⟨hnone, rfl⟩)

/-- what a call that raises an exception has done to the files, it has not done to the lock or the ghosts -/
theorem upset_keeps (s : St) (o : Outcome) : (s.upset o).zaps = s.zaps ∧ (s.upset o).committed = s.committed ∧
    (s.upset o).paged = s.paged ∧ (s.upset o).approved = s.approved ∧ (s.upset o).created = s.created ∧
    (s.upset o).dir .masterlock = s.dir .masterlock := by
  have hwrite : ∀ {name : Name}, name ≠ .masterlock → (s.write name o.left).dir .masterlock = s.dir .masterlock :=
    fun hname => St.write_other s o.left hname.symm
  rw [St.upset]
  split
  · exact ⟨rfl, rfl, rfl, rfl, rfl, hwrite (by decide)⟩
  · exact ⟨rfl, rfl, rfl, rfl, rfl, hwrite (by decide)⟩
  · exact ⟨rfl, rfl, rfl, rfl, rfl, hwrite (by decide)⟩
  · exact ⟨rfl, rfl, rfl, rfl, rfl, hwrite (by decide)⟩
  · exact ⟨rfl, rfl, rfl, rfl, rfl, hwrite (by simp)⟩
  · exact ⟨rfl, rfl, rfl, rfl, rfl, hwrite (by decide)⟩
  · exact ⟨rfl, rfl, rfl, rfl, rfl, rfl⟩

theorem inv_step (h : Inv dir s) (hstep : step s o = some t) : Inv dir t := by
  obtain ⟨-, ⟨-, -, rfl⟩ | ⟨e, -, rfl⟩ | ⟨-, rfl⟩⟩ := step_cases hstep
  · exact h.keep rfl rfl rfl rfl trivial
  · obtain ⟨hzaps, hcommitted, hpaged, happroved, -⟩ := upset_keeps s o
    exact h.keep hzaps hcommitted hpaged happroved trivial
  · exact inv_proceed h

theorem inv_start (dir : Dir) : Inv dir (start dir) :=
  Before.inv ⟨rfl, rfl, fun _ _ _ => rfl⟩ ⟨rfl, rfl, rfl, rfl, fun _ _ _ => rfl⟩

/-! ## When a step keeps the discipline -/

/-- a run that goes on has nothing to answer for yet -/
theorem Inv.running (h : Inv dir s) (hrun : ¬ s.Ended) : Disciplined dir s :=
  ⟨h.once, h.zapped, fun hend => absurd hend hrun, fun hend => absurd hend hrun⟩

/-- a run that ends with the lock in place has left it -/
theorem not_disciplined_of_held (hend : s.Ended) (hheld : Held s) : ¬ Disciplined dir s := by
  intro h
  have hlock := h.lock hend
  rw [if_pos hheld.1] at hlock
  have hsome := hheld.2
  rw [hlock] at hsome
  cases hsome

/-- where the run goes on if what it finds is good, and is stopped otherwise, it keeps the discipline exactly if it
is -/
theorem disciplined_iff_good {good : Prop} (h : Inv dir (s.proceed o)) (hheld : Held s)
    (hgood : good → ¬ (s.proceed o).Ended) (hbad : ¬ good → ∃ e, s.proceed o = s.raise e) :
    Disciplined dir (s.proceed o) ↔ good := by
  constructor
  · intro hd
    by_contra hnot
    obtain ⟨e, he⟩ := hbad hnot
    rw [he] at hd
    have hheld' : Held (s.raise e) := hheld
    exact not_disciplined_of_held ⟨some e, rfl⟩ hheld' hd
  · intro hg
    exact h.running (hgood hg)

theorem Inv.held (h : Inv dir s) (hrun : ¬ s.Ended) (hpoint : s.point ≠ .masterlock) : Held s := by
  have hp := h.point
  cases hs : s.point with
  | masterlock => exact absurd hs hpoint
  | ended e => exact absurd ⟨e, hs⟩ hrun
  | _ =>
    rw [hs] at hp
    exact hp.1

/-- at the first point, the run may end as it likes -/
theorem Inv.unlocked (h : Inv dir s) (hpoint : s.point = .masterlock) (e : Exc) :
    s.created = false ∧ Disciplined dir (s.raise e) := by
  have hp := h.point
  rw [hpoint] at hp
  obtain ⟨hcreated, hdir, hbefore⟩ := hp
  refine ⟨hcreated, h.once, h.zapped, fun _ _ => ⟨hbefore.zaps, ?_⟩, fun _ => ?_⟩
  · rw [← hdir]
    rfl
  · have hcreated' : (s.raise e).created = false := hcreated
    rw [hcreated', ← hdir]
    rfl

theorem running_of_point (hp : ∀ e, s.point ≠ .ended e) : ¬ s.Ended := by
  intro h
  rcases h with ⟨e, he⟩
  exact hp e he

theorem called_running {p : Point} (hp : ∀ e, p ≠ .ended e) : ¬ (s.called o p).Ended := by
  apply running_of_point
  intro e he
  rw [St.called] at he
  split_ifs at he
  · cases he
  · exact hp e he

/-- from all other points, a call that returns lets the run go on -/
theorem proceed_running (hrun : ¬ s.Ended) (hlast : s.point ≠ .lastreap) (hnext : s.point ≠ .nextreap)
    (hrename : s.point ≠ .rename) (hunlock : ∀ e, s.point ≠ .unlock e) : ¬ (s.proceed o).Ended := by
  rw [St.proceed]
  cases hpoint : s.point with
  | lastreap => exact absurd hpoint hlast
  | nextreap => exact absurd hpoint hnext
  | rename => exact absurd hpoint hrename
  | unlock e => exact absurd hpoint (hunlock e)
  | ended e => exact absurd ⟨e, hpoint⟩ hrun
  | editor | shell => exact called_running fun e he => by cases he
  | pager =>
    have hcalled : ¬ (s.called o .askcommit).Ended := called_running fun e he => by cases he
    exact hcalled
  | askshell | askrepeat | askcommit =>
    dsimp only
    split_ifs
    all_goals
      apply running_of_point
      intro e he
      cases he
  | _ =>
    apply running_of_point
    intro e he
    cases he

/-- a run that has cleaned up after itself has kept the discipline -/
theorem unlock_disciplined (h : Inv dir s) {e : Option Exc} (hpoint : s.point = .unlock e) :
    Disciplined dir (s.proceed o) := by
  have hp := h.point
  rw [hpoint] at hp
  obtain ⟨hheld, hrest⟩ := hp
  have hnext : s.proceed o = (s.write .masterlock none).goto (.ended e) := by rw [St.proceed, hpoint]
  rw [hnext]
  refine ⟨h.once, h.zapped, fun _ hfin => ?_, fun _ => ?_⟩
  · rcases hrest with hbefore | ⟨rfl, hcommitted⟩
    · have hkept : (s.write .masterlock none).dir .lastreap = s.dir .lastreap := St.write_other s none (by decide)
      exact ⟨hbefore.zaps, hkept.trans (hbefore.same .lastreap (by decide) (by decide))⟩
    · exact absurd ⟨rfl, hcommitted⟩ hfin
  · have hcreated : ((s.write .masterlock none).goto (.ended e)).created = true := hheld.1
    rw [if_pos hcreated]
    exact St.write_same s none .masterlock

/-- while the run has the lock, a call that returns is harmless if what the run finds at this point is good -/
theorem harmless_iff (hheld : Held s) (hraised : o.raised = none) : Harmless s o ↔
    match s.point with
    | .lastreap => ∃ n, readLastreap (s.dir .lastreap) = .ok n
    | .nextreap => (nextreap s.dir s.last).isSome = true
    | .rename => (s.dir .temp).isSome = true
    | _ => True := by
  constructor
  · intro hharmless
    exact (hharmless hheld.1).2
  · intro hgood _
    exact ⟨hraised, hgood⟩

/-- **A call that returns** keeps the discipline exactly when it is harmless. -/
theorem proceed_iff (h : Inv dir s) (hrun : ¬ s.Ended) (hraised : o.raised = none) :
    Disciplined dir (s.proceed o) ↔ Harmless s o := by
  have hheld := h.held hrun
  cases hpoint : s.point with
  | lastreap =>
    have hlock := hheld (by rw [hpoint]; simp)
    rw [harmless_iff hlock hraised, hpoint]
    apply disciplined_iff_good (inv_proceed h) hlock
    · intro hx
      rcases hx with ⟨n, hn⟩
      rw [St.proceed, hpoint]
      simp only [hn]
      exact running_of_point fun e he => by cases he
    · intro hbad
      cases hread : readLastreap (s.dir .lastreap) with
      | error e => exact ⟨e, by rw [St.proceed, hpoint]; simp only [hread]⟩
      | ok n => exact absurd ⟨n, hread⟩ hbad
  | nextreap =>
    have hlock := hheld (by rw [hpoint]; simp)
    rw [harmless_iff hlock hraised, hpoint]
    apply disciplined_iff_good (inv_proceed h) hlock
    · intro hfound
      obtain ⟨n, hn⟩ := Option.isSome_iff_exists.1 hfound
      rw [St.proceed, hpoint]
      simp only [hn]
      exact running_of_point fun e he => by cases he
    · intro hbad
      have hnone : nextreap s.dir s.last = none := Option.not_isSome_iff_eq_none.1 hbad
      exact ⟨.SystemExit, by rw [St.proceed, hpoint]; simp only [hnone]⟩
  | rename =>
    have hlock := hheld (by rw [hpoint]; simp)
    rw [harmless_iff hlock hraised, hpoint]
    apply disciplined_iff_good (inv_proceed h) hlock
    · intro hthere
      obtain ⟨list, hlist⟩ := Option.isSome_iff_exists.1 hthere
      rw [St.proceed, hpoint]
      simp only [hlist]
      exact running_of_point fun e he => by cases he
    · intro hbad
      have hnone : s.dir .temp = none := Option.not_isSome_iff_eq_none.1 hbad
      exact ⟨.OSError, by rw [St.proceed, hpoint]; simp only [hnone]⟩
  | unlock e =>
    refine iff_of_true (unlock_disciplined h hpoint) fun _ => ⟨hraised, ?_⟩
    rw [hpoint]
    trivial
  | ended e => exact absurd ⟨e, hpoint⟩ hrun
  | _ =>
    have hon : ¬ (s.proceed o).Ended := by
      apply proceed_running hrun
      all_goals
        rw [hpoint]
        simp
    refine iff_of_true ((inv_proceed h).running hon) fun _ => ⟨hraised, ?_⟩
    rw [hpoint]
    trivial

/-- **A step keeps the discipline exactly when it is harmless.** -/
theorem disciplined_step (h : Inv dir s) (hstep : step s o = some t) : Disciplined dir t ↔ Harmless s o := by
  obtain ⟨hrun, ⟨hpoint, -, rfl⟩ | ⟨e, he, rfl⟩ | ⟨hnone, rfl⟩⟩ := step_cases hstep
  · obtain ⟨hcreated, hd⟩ := h.unlocked hpoint .SystemExit
    exact iff_of_true hd fun hc => absurd (hcreated.symm.trans hc) Bool.false_ne_true
  · by_cases hpoint : s.point = .masterlock
    · obtain ⟨hcreated, hd⟩ := h.unlocked hpoint e
      have hupset : s.upset o = s := by rw [St.upset, hpoint]
      rw [hupset]
      exact iff_of_true hd fun hc => absurd (hcreated.symm.trans hc) Bool.false_ne_true
    · have hheld := h.held hrun hpoint
      obtain ⟨-, -, -, -, hcreated, hlock⟩ := upset_keeps s o
      refine iff_of_false (not_disciplined_of_held ⟨some e, rfl⟩ ⟨hcreated.trans hheld.1, ?_⟩) fun hharmless => ?_
      · exact (congrArg Option.isSome hlock).trans hheld.2
      · have hno := (hharmless hheld.1).1
        rw [he] at hno
        cases hno
  · exact proceed_iff h hrun hnone

/-! ## Main result -/

/-- **The discipline of a run**, for every reap directory and every sequence of outcomes. -/
theorem disciplined_iff (dir : Dir) (outcomes : List Outcome) :
    Always step (Disciplined dir) (start dir) outcomes ↔ Along step Harmless (start dir) outcomes := by
  have hstart : Disciplined dir (start dir) := (inv_start dir).running fun ⟨e, he⟩ => by cases he
  exact always_iff_along_of_inv (fun s o t hI hstep => inv_step hI hstep)
    (fun s o t hI _ hstep => disciplined_step hI hstep) outcomes (inv_start dir) hstart

/-- **The lock is left behind.** There is no number in lastreap.txt. -/
theorem lock_left :
    let dir : Dir := Function.update (fun _ => none) .lastreap (some header)
    let o : Outcome := ⟨none, 0, [], none⟩
    ¬ Always step (Disciplined dir) (start dir) [o, o, o] := by
  intro dir o h
  have hended := h.2 _ rfl |>.2 _ rfl |>.2 _ rfl
  have hlock := hended.lock ⟨some .IndexError, by decide⟩
  revert hlock
  decide

end MNetSoft.Sbin.Doreap
