/-
Web vote recording: `record` of `vote.c` and what `webcast` says of its result. The file system is the process's current
directory and the files, all paths being relative to the vote directory, in which `record` is called. Every step of
`record` can fail, and a write can put fewer bytes in a file than it was given, which nobody tests; `Steps` says what
happens.

- `recorderr_iff`: the voter is told that the vote was not recorded exactly when `record` returns non-zero.
- `record_cases`: the six ways through `record`, with the file, the history and the directory each leaves.
- `all_or_nothing_iff`: exactly when recording is all-or-nothing.
- `history_closed`: a history directory that cannot be entered, and a vote that is replaced all the same.
-/
import Mathlib.Tactic
import Mathlib.Logic.Function.Basic
import MNetSoft.Core.Numerals
import MNetSoft.Vote.Ballot

namespace MNetSoft.Vote

open MNetSoft.CString
open MNetSoft.Numerals

/-! ## Model -/

def ERR_NOERR : ℤ := 0

/-- couldn't cd to 'votes' directory -/
def ERR_CDVOTES : ℤ := 16

/-- can't open or write users' vote file -/
def ERR_WRTVOTE : ℤ := 18

/-- can't cd to history directory -/
def ERR_CDHIST : ℤ := 19

/-- can't write to voter's history file -/
def ERR_WRTHIST : ℤ := 20

abbrev Path := List Str

def votes : Str := ['v', 'o', 't', 'e', 's']

def vdir : Str := ['.', 'v', 'd', 'i', 'r']

/-- the current directory, and the files that exist -/
structure Fs where
  cwd : Path
  files : Path → Option Str

/-- `chdir(dir)` -/
def Fs.chdir (fs : Fs) (ok : Bool) (dir : Str) : Fs := if ok then { fs with cwd := fs.cwd ++ [dir] } else fs

/-- `chdir("..")` -/
def Fs.up (fs : Fs) (ok : Bool) : Fs := if ok then { fs with cwd := fs.cwd.dropLast } else fs

def Fs.unlink (fs : Fs) (ok : Bool) (name : Str) : Fs :=
  if ok then { fs with files := Function.update fs.files (fs.cwd ++ [name]) none } else fs

/-- `fopen(name, "w")`, and what is printed to the file -/
def Fs.write (fs : Fs) (name text : Str) : Fs :=
  { fs with files := Function.update fs.files (fs.cwd ++ [name]) (some text) }

/-- `fopen(name, "a")`, and what is printed to the file -/
def Fs.append (fs : Fs) (name text : Str) : Fs :=
  { fs with
    files := Function.update fs.files (fs.cwd ++ [name]) (some ((fs.files (fs.cwd ++ [name])).getD [] ++ text)) }

/-- what becomes of the steps of `record`, in their order -/
structure Steps where
  cdVotes : Bool
  unlinks : Bool
  opens : Bool
  /-- how many bytes get into the vote file -/
  written : ℕ
  back : Bool
  cdHist : Bool
  opensHist : Bool
  /-- how many bytes get into the history file -/
  writtenHist : ℕ
  backHist : Bool
deriving DecidableEq, Repr

/-- a char is signed -/
def schar (c : Char) : ℤ := if c.toNat < 128 then c.toNat else c.toNat - 256

/-- the sum of the characters of all chosen logins, an int -/
def hash (cr : List CandRec) : ℤ := toInt (((chosen cr).flatten.map schar).sum)

/-- hash value, date, time; `web` if we're a web voter record -/
def histLine (web : Bool) (cr : List CandRec) (ctime : Str) : Str :=
  (if web then ['W'] else []) ++ printInt (hash cr) ++ ' ' :: ctime

/-- what `record` returns, the error code, and the files -/
structure Outcome where
  ret : ℤ
  err : ℤ
  fs : Fs

def record (st : Steps) (web : Bool) (ctime voter : Str) (cr : List CandRec) (fs : Fs) : Outcome :=
  if !st.cdVotes then ⟨1, ERR_CDVOTES, fs⟩
  else
    let fs := (fs.chdir true votes).unlink st.unlinks voter
    if !st.opens then ⟨1, ERR_WRTVOTE, fs⟩
    else
      let fs := (fs.write voter ((voteLines cr).take st.written)).up st.back
      if !st.cdHist then ⟨1, ERR_CDHIST, fs⟩
      else
        let fs := fs.chdir true vdir
        if !st.opensHist then ⟨1, ERR_WRTHIST, fs.up st.backHist⟩
        else ⟨0, ERR_NOERR, (fs.append voter ((histLine web cr ctime).take st.writtenHist)).up st.backHist⟩

/-- the pages of `webcast` -/
inductive Page where
  | toomany (nv ns : ℤ)
  | recorderr (msg : String)
  | dspchoices (shown : List (Str × Str))
deriving DecidableEq, Repr

/-- what `recorderr` is told -/
def errMsg (err : ℤ) : String :=
  if err = ERR_CDVOTES then "Can't chdir to 'votes'"
  else if err = ERR_WRTVOTE then "Can't open voter file"
  else if err = ERR_CDHIST then "Can't chdir to history"
  else if err = ERR_WRTHIST then "Can't append to history"
  else "Unknown software error"

/-- `webcast`, from where the form has been tallied: the page and the files -/
def webcast (st : Steps) (ctime voter : Str) (cr : List CandRec) (ns : ℤ) (fs : Fs) : Page × Fs :=
  let nv : ℤ := (cr.filter CandRec.votefor).length
  if nv > ns then (.toomany nv ns, fs)
  else
    let o := record st true ctime voter cr fs
    if o.ret ≠ 0 then (.recorderr (errMsg o.err), o.fs)
    else (.dspchoices ((cr.filter CandRec.votefor).map fun c => (c.name, c.logid)), o.fs)

/-! ## What is claimed -/

/-- the voter's file under votes -/
def votePath (voter : Str) : Path := [votes, voter]

def histPath (voter : Str) : Path := [vdir, voter]

/-- recording that fails leaves the voter's file as it was and the process in the vote directory; recording that does
not leaves the ballot and one line more in the history -/
def AllOrNothing (voter line : Str) (cr : List CandRec) (fs : Fs) (o : Outcome) : Prop :=
  (o.ret ≠ 0 → o.fs.files (votePath voter) = fs.files (votePath voter) ∧ o.fs.cwd = []) ∧
    (o.ret = 0 → o.fs.files (votePath voter) = some (ballot (chosen cr)) ∧
      o.fs.files (histPath voter) = some ((fs.files (histPath voter)).getD [] ++ line))

/-- the steps it takes: a step that fails is the first, or one of the history after a write that changed nothing -/
def Sound (st : Steps) (text line : Str) (old : Option Str) : Prop :=
  st.cdVotes = true → st.opens = true ∧ st.back = true ∧
    if st.cdHist = true ∧ st.opensHist = true then text.length ≤ st.written ∧ line.length ≤ st.writtenHist
    else old = some (text.take st.written) ∧ (st.cdHist = true → st.backHist = true)

instance (st : Steps) (text line : Str) (old : Option Str) : Decidable (Sound st text line old) := by
  unfold Sound
  infer_instance

/-! ## The file operations -/

section Fs

variable (fs : Fs) (ok : Bool) (name text : Str)

@[simp] theorem Fs.files_chdir : (fs.chdir ok name).files = fs.files := by
  cases ok with
  | false => rfl
  | true => rfl

@[simp] theorem Fs.cwd_chdir : (fs.chdir true name).cwd = fs.cwd ++ [name] := rfl

@[simp] theorem Fs.files_up : (fs.up ok).files = fs.files := by
  cases ok with
  | false => rfl
  | true => rfl

@[simp] theorem Fs.cwd_up : (fs.up ok).cwd = if ok then fs.cwd.dropLast else fs.cwd := by
  cases ok with
  | false => rfl
  | true => rfl

@[simp] theorem Fs.cwd_unlink : (fs.unlink ok name).cwd = fs.cwd := by
  cases ok with
  | false => rfl
  | true => rfl

@[simp] theorem Fs.cwd_write : (fs.write name text).cwd = fs.cwd := rfl

@[simp] theorem Fs.cwd_append : (fs.append name text).cwd = fs.cwd := rfl

theorem Fs.files_write (p : Path) :
    (fs.write name text).files p = if p = fs.cwd ++ [name] then some text else fs.files p :=
      Function.update_apply _ _ _ _

theorem Fs.files_append (p : Path) :
    (fs.append name text).files p =
      if p = fs.cwd ++ [name] then some ((fs.files (fs.cwd ++ [name])).getD [] ++ text) else fs.files p :=
  Function.update_apply _ _ _ _

theorem Fs.files_unlink_of_ne {p : Path} (h : p ≠ fs.cwd ++ [name]) : (fs.unlink ok name).files p = fs.files p := by
  cases ok with
  | false => rfl
  | true => exact Function.update_of_ne h _ _

end Fs

/-! ## The ways through `record` -/

/-- the directory `record` leaves, when it is called in the vote directory and the vote file is opened -/
def Steps.dirAfter (st : Steps) : Path :=
  let dir : Path := if st.back then [] else [votes]
  if st.cdHist then (if st.backHist then dir else dir ++ [vdir]) else dir

theorem votePath_ne_histPath (voter : Str) : votePath voter ≠ histPath voter :=
  fun h => absurd (List.cons.inj h).1 (by decide)

/-- where the history goes if the process is still in `votes`: neither file is there -/
theorem ne_strayPath {voter : Str} {p : Path} (hp : p = votePath voter ∨ p = histPath voter) :
    p ≠ [votes, vdir, voter] := by
  intro h
  have hlen := congrArg List.length h
  rcases hp with rfl | rfl
  · simp [votePath] at hlen
  · simp [histPath] at hlen

/-- the files and the directory behind the vote file -/
theorem voteWritten {fs : Fs} (hcwd : fs.cwd = []) (unlinks back : Bool) (voter text : Str) :
    let fs' := (((fs.chdir true votes).unlink unlinks voter).write voter text).up back
    fs'.cwd = (if back then [] else [votes]) ∧ fs'.files (votePath voter) = some text ∧
      fs'.files (histPath voter) = fs.files (histPath voter) := by
  set fs1 : Fs := (fs.chdir true votes).unlink unlinks voter with hfs1
  have hcwd1 : fs1.cwd = [votes] := by simp [fs1, hcwd]
  have hne : histPath voter ≠ [votes] ++ [voter] := (votePath_ne_histPath voter).symm
  refine ⟨by simp [hcwd1], by simp [Fs.files_write, hcwd1, votePath], ?_⟩
  rw [Fs.files_up, Fs.files_write, hcwd1, if_neg hne, hfs1, Fs.files_unlink_of_ne, Fs.files_chdir]
  rw [Fs.cwd_chdir, hcwd]
  exact hne

/-- the files behind the history file: the line goes astray if the way back from `votes` has failed -/
theorem historyWritten {fs : Fs} {back : Bool} (hcwd : fs.cwd = if back then [] else [votes]) (backHist : Bool)
    (voter line : Str) :
    let fs' := ((fs.chdir true vdir).append voter line).up backHist
    fs'.files (votePath voter) = fs.files (votePath voter) ∧
      fs'.files (histPath voter) =
        if back then some ((fs.files (histPath voter)).getD [] ++ line) else fs.files (histPath voter) := by
  have hpath : (fs.chdir true vdir).cwd ++ [voter] = if back then histPath voter else [votes, vdir, voter] := by
    rw [Fs.cwd_chdir, hcwd]
    split_ifs
    · rfl
    · rfl
  constructor
  · rw [Fs.files_up, Fs.files_append, hpath, if_neg, Fs.files_chdir]
    split_ifs
    · exact votePath_ne_histPath voter
    · exact ne_strayPath (.inl rfl)
  · rw [Fs.files_up, Fs.files_append, hpath, Fs.files_chdir]
    cases back with
    | true => rw [if_pos rfl, if_pos rfl, if_pos rfl]
    | false => rw [if_neg Bool.false_ne_true, if_neg Bool.false_ne_true, if_neg (ne_strayPath (.inr rfl))]

/-- **What `record` does, by cases.** -/
theorem record_cases (st : Steps) (web : Bool) (ctime voter : Str) (cr : List CandRec) {fs : Fs} (hcwd : fs.cwd = []) :
    let o := record st web ctime voter cr fs
    (st.cdVotes = false ∧ o = ⟨1, ERR_CDVOTES, fs⟩) ∨
    (st.cdVotes = true ∧ st.opens = false ∧ o.ret = 1 ∧ o.err = ERR_WRTVOTE ∧ o.fs.cwd = [votes]) ∨
    (st.cdVotes = true ∧ st.opens = true ∧
      o.fs.files (votePath voter) = some ((voteLines cr).take st.written) ∧ o.fs.cwd = st.dirAfter ∧
      ((st.cdHist = false ∧ o.ret = 1 ∧ o.err = ERR_CDHIST) ∨
       (st.cdHist = true ∧ st.opensHist = false ∧ o.ret = 1 ∧ o.err = ERR_WRTHIST) ∨
       (st.cdHist = true ∧ st.opensHist = true ∧ o.ret = 0 ∧ o.err = ERR_NOERR ∧
        o.fs.files (histPath voter) =
          if st.back then some ((fs.files (histPath voter)).getD [] ++ (histLine web cr ctime).take st.writtenHist)
          else fs.files (histPath voter)))) := by
  intro o
  cases hcd : st.cdVotes with
  | false => exact Or.inl ⟨rfl, by simp [o, record, hcd]⟩
  | true =>
    obtain ⟨hcwd2, hvote2, hhist2⟩ :=
      voteWritten hcwd st.unlinks st.back voter ((voteLines cr).take st.written)
    set fs1 : Fs := (fs.chdir true votes).unlink st.unlinks voter
    set fs2 : Fs := (fs1.write voter ((voteLines cr).take st.written)).up st.back
    right
    cases hop : st.opens with
    | false =>
      left
      have ho : o = ⟨1, ERR_WRTVOTE, fs1⟩ := by simp [o, record, hcd, hop, fs1]
      have hcwd1 : fs1.cwd = [votes] := by simp [fs1, hcwd]
      exact ⟨rfl, rfl, by rw [ho], by rw [ho], by rw [ho]; exact hcwd1⟩
    | true =>
      right
      refine ⟨rfl, rfl, ?_⟩
      cases hch : st.cdHist with
      | false =>
        have ho : o = ⟨1, ERR_CDHIST, fs2⟩ := by simp [o, record, hcd, hop, hch, fs1, fs2]
        refine ⟨by rw [ho]; exact hvote2, ?_, Or.inl ⟨rfl, by rw [ho], by rw [ho]⟩⟩
        rw [ho, hcwd2, Steps.dirAfter, hch]
        rfl
      | true =>
        have hdir : ((fs2.chdir true vdir).up st.backHist).cwd = st.dirAfter := by
          simp only [Fs.cwd_up, Fs.cwd_chdir, hcwd2, Steps.dirAfter, hch, if_true, List.dropLast_concat]
        cases hoh : st.opensHist with
        | false =>
          have ho : o = ⟨1, ERR_WRTHIST, (fs2.chdir true vdir).up st.backHist⟩ := by
            simp [o, record, hcd, hop, hch, hoh, fs1, fs2]
          refine ⟨?_, by rw [ho]; exact hdir, Or.inr (Or.inl ⟨rfl, rfl, by rw [ho], by rw [ho]⟩)⟩
          rw [ho, Fs.files_up, Fs.files_chdir, hvote2]
        | true =>
          set line := (histLine web cr ctime).take st.writtenHist with hline
          have ho : o = ⟨0, ERR_NOERR, ((fs2.chdir true vdir).append voter line).up st.backHist⟩ := by
            simp [o, record, hcd, hop, hch, hoh, fs1, fs2, line]
          obtain ⟨hvote3, hhist3⟩ := historyWritten hcwd2 st.backHist voter line
          refine ⟨?_, ?_, Or.inr (Or.inr ⟨rfl, rfl, by rw [ho], by rw [ho], ?_⟩)⟩
          · rw [ho]
            exact hvote3.trans hvote2
          · rw [ho, ← hdir]
            simp only [Fs.cwd_up, Fs.cwd_append]
          · rw [ho, ← hhist2]
            exact hhist3

/-- the voter is told that the vote was not recorded, by way of `recorderr` -/
theorem recorderr_iff (st : Steps) (ctime voter : Str) (cr : List CandRec) (ns : ℤ) (fs : Fs) :
    (∃ msg, (webcast st ctime voter cr ns fs).1 = .recorderr msg) ↔
      ((cr.filter CandRec.votefor).length : ℤ) ≤ ns ∧ (record st true ctime voter cr fs).ret ≠ 0 := by
  simp only [webcast]
  split_ifs with hnv hret
  · exact iff_of_false (by simp) (by omega)
  · exact iff_of_true ⟨_, rfl⟩ ⟨by omega, hret⟩
  · exact iff_of_false (by simp) fun h => hret h.2

/-! ## Main result -/

/-- **All or nothing, exactly when.** For every state of the election directory, every slate and whatever becomes of
the steps. -/
theorem all_or_nothing_iff (st : Steps) (web : Bool) (ctime voter : Str) (cr : List CandRec) {fs : Fs}
    (hcwd : fs.cwd = []) :
    AllOrNothing voter (histLine web cr ctime) cr fs (record st web ctime voter cr fs) ↔
      Sound st (ballot (chosen cr)) (histLine web cr ctime) (fs.files (votePath voter)) := by
  have hcases := record_cases st web ctime voter cr hcwd
  set o := record st web ctime voter cr fs
  set line := histLine web cr ctime
  have hline : line ≠ [] := by simp [line, histLine]
  rw [voteLines_eq] at hcases
  simp only [AllOrNothing, Sound]
  rcases hcases with ⟨hcd, ho⟩ | ⟨hcd, hop, hret, -, hdir⟩ | ⟨hcd, hop, hfile, hdir, hrest⟩
  · -- nothing has been done
    rw [ho, hcd]
    exact iff_of_true ⟨fun _ => ⟨rfl, hcwd⟩, fun h => absurd h one_ne_zero⟩ fun h => absurd h Bool.false_ne_true
  · -- it stops in `votes`
    rw [hret, hdir, hop]
    refine iff_of_false (fun h => ?_) (fun h => absurd (h hcd).1 (by decide))
    exact absurd (h.1 (by decide)).2 (by simp)
  · rw [hop, hfile, hcd]
    rcases hrest with ⟨hch, hret, -⟩ | ⟨hch, hoh, hret, -⟩ | ⟨hch, hoh, hret, -, hhist⟩
    · -- the vote is written, the history cannot be entered
      rw [hret, hdir, hch, Steps.dirAfter, hch]
      cases st.back with
      | false => simp
      | true =>
        simp only [ne_eq, one_ne_zero, not_false_eq_true, if_true, Bool.false_eq_true, if_false, false_and, and_true,
          true_and, IsEmpty.forall_iff, forall_const]
        exact eq_comm
    · -- the vote is written, the history file cannot be opened
      rw [hret, hdir, hch, hoh, Steps.dirAfter, hch]
      cases st.back with
      | false =>
        cases st.backHist with
        | false => simp
        | true => simp
      | true =>
        cases st.backHist with
        | false => simp
        | true =>
          simp only [ne_eq, one_ne_zero, not_false_eq_true, if_true, Bool.false_eq_true, if_false, and_false,
            and_true, true_and, IsEmpty.forall_iff, forall_const]
          exact eq_comm
    · -- both are written, more or less
      rw [hret, hch, hoh, hhist]
      cases st.back with
      | false =>
        have hne : fs.files (histPath voter) ≠ some ((fs.files (histPath voter)).getD [] ++ line) := by
          intro h
          rw [h, Option.getD_some] at h
          simp [hline] at h
        simp [hne]
      | true => simp

/-- a vote of two candidates, everything succeeding -/
theorem all_or_nothing_recorded :
    let cr : List CandRec := [⟨[], ['j', 'o', 'e'], [], true⟩, ⟨[], ['a', 'n', 'n'], [], true⟩]
    let st : Steps := ⟨true, true, true, 66, true, true, true, 40, true⟩
    let fs : Fs := ⟨[], fun _ => none⟩
    AllOrNothing ['m', 'e'] (histLine true cr ['\n']) cr fs (record st true ['\n'] ['m', 'e'] cr fs) ↔
      Sound st (ballot (chosen cr)) (histLine true cr ['\n']) (fs.files (votePath ['m', 'e'])) :=
  all_or_nothing_iff _ _ _ _ _ rfl

/-- **The history directory cannot be entered.** The voter, who has voted for joe and now votes for ann, is told that
the vote was not recorded; the file names ann. -/
theorem history_closed :
    let cr : List CandRec := [⟨[], ['j', 'o', 'e'], [], false⟩, ⟨[], ['a', 'n', 'n'], [], true⟩]
    let st : Steps := ⟨true, true, true, 33, true, false, true, 40, true⟩
    let fs : Fs := ⟨[], fun p => if p = votePath ['m', 'e'] then some (ballot [['j', 'o', 'e']]) else none⟩
    (webcast st ['\n'] ['m', 'e'] cr 1 fs).1 = .recorderr "Can't chdir to history" ∧
      (webcast st ['\n'] ['m', 'e'] cr 1 fs).2.files (votePath ['m', 'e']) = some (ballot [['a', 'n', 'n']]) ∧
      ¬ AllOrNothing ['m', 'e'] (histLine true cr ['\n']) cr fs (record st true ['\n'] ['m', 'e'] cr fs) := by
  intro cr st fs
  refine ⟨by decide, by decide, ?_⟩
  intro h
  have hkept := (h.1 (by decide)).1
  exact absurd hkept (by decide)

end MNetSoft.Vote
