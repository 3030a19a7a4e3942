/-
The voting booth, `vote` and `record` of `board.c`, as its menu calls them: the state is the candidates with their
flags, the counter `numvotes` and the voter's file. A call reads the user's input line by line, `fgets` cutting it at
128 bytes; it ends at the menu, or the program ends (end of input, a missing message file, a directory or file that
cannot be opened). What the program prints is left out. Nobody tests whether a write puts down what it is given, nor
whether the last `chdir` of a recorded vote leads back to the vote directory.

- `vote_cases`: what a call does, by the answers read.
- `booth_record_cases`: what recording a vote does.
- `booth_iff`: in a run of calls the counter, the flags and the file agree each time control is back at the menu exactly
  when every cancelled vote has as many yes answers as there are flags and every recorded one gets into the file.
- `getcands_counted`: they agree when the program starts.
- `count_lost`: a vote that is not confirmed.
-/
import Mathlib.Tactic
import MNetSoft.Core.Runs
import MNetSoft.Vote.Board

namespace MNetSoft.Vote

open MNetSoft.CString
open MNetSoft.Runs

/-! ## Model -/

structure Booth extends Board where
  /-- the voter's file under votes -/
  votefile : Option Str
  /-- the program has ended -/
  ended : Option Ending
  /-- what has been written for the vote last recorded since the program was started -/
  recorded : Option Str
  /-- the current directory is not the vote directory any more -/
  astray : Bool
deriving DecidableEq, Repr

structure RecordSteps where
  cdVote : Bool
  unlinks : Bool
  opens : Bool
  /-- how many bytes get into the vote file -/
  written : ℕ
  cdHash : Bool
  opensHash : Bool
  /-- the last three `chdir` lead to the vote directory -/
  back : Bool
deriving DecidableEq, Repr

/-- a call of `vote`: the input there is, whether the message file can be opened, and the steps of `record` -/
structure Call where
  stdin : Str
  votemsg : Bool
  steps : RecordSteps
deriving DecidableEq, Repr

/-- a line says yes: its first character that is not white space, or its newline, is a y -/
def saysYes (linebuf : Str) : Bool :=
  let vp := (cstr linebuf).dropWhile fun c => isspace c && c ≠ '\n'
  vp.head? = some 'y' ∨ vp.head? = some 'Y'

/-- the loop over the candidates: their flags, the votes counted and the input left; `none` at end of input -/
def askLoop : List Candtag → ℤ → Str → Option (List Candtag × ℤ × Str)
  | [], numvotes, stdin => some ([], numvotes, stdin)
  | c :: candlist, numvotes, stdin =>
    match fgets LINEMAX stdin with
    | none => none
    | some (linebuf, stdin) =>
      if saysYes linebuf then
        (askLoop candlist (numvotes + 1) stdin).map fun r => ({ c with uvote := true } :: r.1, r.2)
      else (askLoop candlist numvotes stdin).map fun r => ({ c with uvote := false } :: r.1, r.2)

/-- `candlist[i].uvote = savevote[i]` for all of them -/
def restore (savevote : List Bool) (candlist : List Candtag) : List Candtag :=
  candlist.zipWith (fun c v => { c with uvote := v }) savevote

/-- `unlink`, and the voter's file after it: from another directory it is not the voter's file that goes -/
def Booth.unlink (b : Booth) (unlinks : Bool) : Booth :=
  if unlinks && !b.astray then { b with votefile := none } else b

/-- the new file, with so many bytes of what is printed to it -/
def Booth.write (b : Booth) (written : ℕ) : Booth :=
  let text := (boardLines b.candlist).take written
  { b with votefile := if b.astray then b.votefile else some text, recorded := some text }

/-- `record` and `hashrec` -/
def Booth.record (st : RecordSteps) (b : Booth) : Booth :=
  if !st.cdVote then { b with ended := some (.exit 11) }
  else
    let b := b.unlink st.unlinks
    -- with a null pointer `fprintf` or `fclose` crashes
    if !st.opens then { b with ended := some .crash }
    else
      let b := b.write st.written
      if !st.cdHash then { b with ended := some (.exit 1) }
      else if !st.opensHash then { b with ended := some (.exit 1) }
      else { b with astray := !st.back }

def Booth.vote (b : Booth) (call : Call) : Booth :=
  if !call.votemsg then { b with ended := some (.exit 3) }
  -- `savevote` has room for `MAXCAND`
  else if MAXCAND < b.candlist.length then { b with ended := some .undefined }
  else
    let savevote := b.candlist.map Candtag.uvote
    -- `display` ends with a `getchar`
    match askLoop b.candlist 0 (call.stdin.drop 1) with
    | none => { b with ended := some (.exit 0) }
    | some (candlist, numvotes, stdin) =>
      if numvotes > b.numslots then { b with candlist := restore savevote candlist, numvotes := numvotes }
      else
        match fgets LINEMAX stdin with
        | none => { b with ended := some (.exit 0) }
        | some (linebuf, _) =>
          if saysYes linebuf then { b with candlist := candlist, numvotes := numvotes }.record call.steps
          else { b with candlist := restore savevote candlist, numvotes := numvotes }

/-- a call from the menu -/
def Booth.step (b : Booth) (call : Call) : Option Booth := if b.ended = none then some (b.vote call) else none

/-! ## What is claimed -/

/-- the booth since it was in the state `b₀`: at the menu, the counter is the number of flags, and the flags are the
names in the file once a vote has been recorded, as the file and the flags are what they were until then; no recorded
file has more names than there are slots; and no array has been left -/
structure Consistent (b₀ b : Booth) : Prop where
  defined : b.ended ≠ some .undefined
  counted : b.ended = none → b.numvotes = (flagged b.candlist).length
  synced : b.ended = none → b.recorded.isSome = true → b.votefile = some (ballot (flagged b.candlist))
  untouched : b.ended = none → b.recorded = none → b.candlist = b₀.candlist ∧ b.votefile = b₀.votefile
  bounded : ∀ text ∈ b.recorded, ∃ names, text <+: ballot names ∧ (names.length : ℤ) ≤ b.numslots

/-- the answers to `n` questions and the input left -/
def answers : ℕ → Str → Option (List Bool × Str)
  | 0, stdin => some ([], stdin)
  | n + 1, stdin =>
    match fgets LINEMAX stdin with
    | none => none
    | some (linebuf, stdin) => (answers n stdin).map fun r => (saysYes linebuf :: r.1, r.2)

/-- the user chooses these, and does not get as far as to record them -/
def Cancels (numslots : ℤ) (bs : List Bool) (stdin : Str) : Prop :=
  (bs.count true : ℤ) > numslots ∨ ∃ r ∈ fgets LINEMAX stdin, saysYes r.1 = false

/-- the user chooses these, and has them recorded -/
def Confirms (numslots : ℤ) (bs : List Bool) (stdin : Str) : Prop :=
  (bs.count true : ℤ) ≤ numslots ∧ ∃ r ∈ fgets LINEMAX stdin, saysYes r.1 = true

/-- nothing that is tested fails -/
def RecordSteps.goesOn (st : RecordSteps) : Bool := st.cdVote && st.opens && st.cdHash && st.opensHash

/-- the voter's file has these names afterwards: they are all written to it, or, from another directory, are there -/
def Lands (b : Booth) (written : ℕ) (names : List Str) : Prop :=
  if b.astray then b.votefile = some (ballot names) else (ballot names).length ≤ written

/-- there are no more candidates than the arrays have room for, a vote that is cancelled has as many yes answers as
there are flags before it, and one that is recorded lands in the voter's file -/
def Harmless (b : Booth) (call : Call) : Prop :=
  call.votemsg = true → b.candlist.length ≤ MAXCAND ∧
    ∀ r ∈ answers b.candlist.length (call.stdin.drop 1),
      (Cancels b.numslots r.1 r.2 → r.1.count true = (flagged b.candlist).length) ∧
      (Confirms b.numslots r.1 r.2 → call.steps.goesOn = true →
        Lands b call.steps.written (flagged (restore r.1 b.candlist)))

instance (numslots : ℤ) (bs : List Bool) (stdin : Str) : Decidable (Cancels numslots bs stdin) := by
  unfold Cancels
  infer_instance

instance (numslots : ℤ) (bs : List Bool) (stdin : Str) : Decidable (Confirms numslots bs stdin) := by
  unfold Confirms
  infer_instance

instance (b : Booth) (written : ℕ) (names : List Str) : Decidable (Lands b written names) := by
  unfold Lands
  infer_instance

instance (b : Booth) (call : Call) : Decidable (Harmless b call) := by
  unfold Harmless
  infer_instance

theorem Confirms.not_cancels {numslots : ℤ} {bs : List Bool} {stdin : Str} (h : Confirms numslots bs stdin) :
    ¬ Cancels numslots bs stdin := by
  obtain ⟨hle, r, hr, hyes⟩ := h
  intro hc
  rcases hc with hc | ⟨q, hq, hno⟩
  · omega
  · rw [Option.mem_unique hq hr, hyes] at hno
    cases hno

/-! ## What a call does -/

theorem length_flagged (candlist : List Candtag) :
    (flagged candlist).length = (candlist.map Candtag.uvote).count true := by
  rw [flagged, List.length_map, ← List.countP_eq_length_filter, List.count, List.countP_map]
  apply List.countP_congr
  intro c _
  simp

@[simp] theorem restore_cons (v : Bool) (bs : List Bool) (c : Candtag) (candlist : List Candtag) :
    restore (v :: bs) (c :: candlist) = { c with uvote := v } :: restore bs candlist := rfl

theorem map_uvote_restore {bs : List Bool} {candlist : List Candtag} (h : bs.length = candlist.length) :
    (restore bs candlist).map Candtag.uvote = bs := by
  induction candlist generalizing bs with
  | nil => rw [List.length_eq_zero_iff.1 h]; rfl
  | cons c candlist ih =>
    cases bs with
    | nil => cases h
    | cons v bs => simp only [restore_cons, List.map_cons, ih (Nat.succ.inj h)]

/-- saved flags are restored whatever the flags are in between -/
theorem restore_restore {bs : List Bool} {candlist : List Candtag} (h : bs.length = candlist.length) :
    restore (candlist.map Candtag.uvote) (restore bs candlist) = candlist := by
  induction candlist generalizing bs with
  | nil => rw [List.length_eq_zero_iff.1 h]; rfl
  | cons c candlist ih =>
    cases bs with
    | nil => cases h
    | cons v bs => simp only [restore_cons, List.map_cons, ih (Nat.succ.inj h)]

theorem length_answers {n : ℕ} {stdin : Str} {r : List Bool × Str} (h : answers n stdin = some r) : r.1.length = n := by
  induction n generalizing stdin r with
  | zero => cases h; rfl
  | succ n ih =>
    rw [answers] at h
    cases hf : fgets LINEMAX stdin with
    | none => rw [hf] at h; cases h
    | some lr =>
      rw [hf] at h
      obtain ⟨q, hq, rfl⟩ := Option.map_eq_some_iff.1 h
      rw [List.length_cons, ih hq]

/-- the loop sets the flags by the answers and counts those that are yes -/
theorem askLoop_eq (candlist : List Candtag) (numvotes : ℤ) (stdin : Str) :
    askLoop candlist numvotes stdin =
      (answers candlist.length stdin).map fun r => (restore r.1 candlist, numvotes + r.1.count true, r.2) := by
  induction candlist generalizing numvotes stdin with
  | nil => simp [askLoop, answers, restore]
  | cons c candlist ih =>
    rw [askLoop, List.length_cons, answers]
    cases fgets LINEMAX stdin with
    | none => rfl
    | some lr =>
      simp only [ih, Option.map_map]
      cases hyes : saysYes lr.1 with
      | true =>
        simp only [if_true]
        refine congrArg (Option.map · _) (funext fun r => ?_)
        simp only [Function.comp_apply, restore_cons, List.count_cons_self, Nat.cast_add, Nat.cast_one]
        rw [add_assoc, add_comm (1 : ℤ)]
      | false =>
        simp only [Bool.false_eq_true, if_false]
        refine congrArg (Option.map · _) (funext fun r => ?_)
        simp

/-- **What a call does, by the answers read.** -/
theorem vote_cases {b : Booth} (hmax : b.candlist.length ≤ MAXCAND) (call : Call) :
    (∃ e ≠ .undefined, b.vote call = { b with ended := some e }) ∧
      (call.votemsg = true → ∀ r ∈ answers b.candlist.length (call.stdin.drop 1),
        ¬ Cancels b.numslots r.1 r.2 ∧ ¬ Confirms b.numslots r.1 r.2) ∨
    (∃ r ∈ answers b.candlist.length (call.stdin.drop 1), call.votemsg = true ∧ Cancels b.numslots r.1 r.2 ∧
      b.vote call = { b with numvotes := r.1.count true }) ∨
    (∃ r ∈ answers b.candlist.length (call.stdin.drop 1), call.votemsg = true ∧ Confirms b.numslots r.1 r.2 ∧
      b.vote call =
        Booth.record call.steps { b with candlist := restore r.1 b.candlist, numvotes := r.1.count true }) := by
  rw [Booth.vote]
  cases hmsg : call.votemsg with
  | false => exact Or.inl ⟨⟨.exit 3, by decide, rfl⟩, fun h => absurd h Bool.false_ne_true⟩
  | true =>
    simp only [Bool.not_true, Bool.false_eq_true, if_false, if_neg (not_lt.2 hmax), askLoop_eq, zero_add]
    cases hans : answers b.candlist.length (call.stdin.drop 1) with
    | none =>
      left
      exact ⟨⟨.exit 0, by decide, rfl⟩, fun _ r hr => by cases hr⟩
    | some r =>
      have hlen : r.1.length = b.candlist.length := length_answers hans
      simp only [Option.map_some, restore_restore hlen]
      by_cases hmany : (r.1.count true : ℤ) > b.numslots
      · right; left
        exact ⟨r, rfl, trivial, Or.inl hmany, by rw [if_pos hmany]⟩
      · rw [if_neg hmany]
        cases hf : fgets LINEMAX r.2 with
        | none =>
          left
          refine ⟨⟨.exit 0, by decide, rfl⟩, fun _ q hq => ?_⟩
          cases hq
          have hend : ∀ yes, ¬ ∃ l ∈ fgets LINEMAX r.2, saysYes l.1 = yes := by simp [hf]
          exact ⟨fun hc => hc.elim hmany (hend false), fun hc => hend true hc.2⟩
        | some l =>
          simp only
          cases hyes : saysYes l.1 with
          | false =>
            right; left
            exact ⟨r, rfl, trivial, Or.inr ⟨l, hf, hyes⟩, by simp⟩
          | true =>
            right; right
            exact ⟨r, rfl, trivial, ⟨by omega, l, hf, hyes⟩, by simp⟩

/-- **What recording a vote does.** The program ends without a new file, or with what has been written; or all that is
tested works, and it goes on. -/
theorem booth_record_cases (st : RecordSteps) (b : Booth) :
    (∃ e ≠ .undefined, ∃ text, b.record st = { b with ended := some e, votefile := text } ∧ st.goesOn = false) ∨
    (∃ e ≠ .undefined, b.record st = { (b.unlink st.unlinks).write st.written with ended := some e } ∧
      st.goesOn = false) ∨
    (b.record st = { (b.unlink st.unlinks).write st.written with astray := !st.back } ∧ st.goesOn = true) := by
  rw [Booth.record, RecordSteps.goesOn]
  cases st.cdVote with
  | false => exact Or.inl ⟨.exit 11, by decide, b.votefile, rfl, rfl⟩
  | true =>
    cases st.opens with
    | false =>
      have hunlink : b.unlink st.unlinks = { b with votefile := (b.unlink st.unlinks).votefile } := by
        rw [Booth.unlink]
        split_ifs <;> rfl
      exact Or.inl ⟨.crash, by decide, _, congrArg (fun b : Booth => { b with ended := some .crash }) hunlink, rfl⟩
    | true =>
      right
      cases st.cdHash with
      | false => exact Or.inl ⟨.exit 1, by decide, rfl, rfl⟩
      | true =>
        cases st.opensHash with
        | false => exact Or.inl ⟨.exit 1, by decide, rfl, rfl⟩
        | true => exact Or.inr ⟨rfl, rfl⟩

theorem unlink_write (b : Booth) (unlinks : Bool) (written : ℕ) :
    (b.unlink unlinks).write written =
      { b with
        votefile := if b.astray then b.votefile else some ((ballot (flagged b.candlist)).take written)
        recorded := some ((ballot (flagged b.candlist)).take written) } := by
  obtain ⟨board, votefile, ended, recorded, astray⟩ := b
  simp only [Booth.unlink, Booth.write, boardLines_eq]
  cases unlinks <;> cases astray <;> rfl

theorem lands_iff (b : Booth) (written : ℕ) (names : List Str) :
    (if b.astray then b.votefile else some ((ballot names).take written)) = some (ballot names) ↔
      Lands b written names := by
  rw [Lands]
  split_ifs
  · exact Iff.rfl
  · rw [Option.some_inj, List.take_eq_self_iff]

/-! ## Runs -/

/-- of a program that has ended only the files matter -/
theorem consistent_of_ended {b₀ b : Booth} {e : Ending} (he : b.ended = some e) (hne : e ≠ .undefined)
    (hbounded : ∀ text ∈ b.recorded, ∃ names, text <+: ballot names ∧ (names.length : ℤ) ≤ b.numslots) :
    Consistent b₀ b := by
  have hnot : b.ended ≠ none := by simp [he]
  refine ⟨fun h => ?_, fun h => absurd h hnot, fun h => absurd h hnot, fun h => absurd h hnot, hbounded⟩
  rw [he] at h
  exact hne (Option.some.inj h)

/-- the vote is recorded, or the program ends on the way -/
theorem consistent_record_iff {b₀ b : Booth} (st : RecordSteps) {bs : List Bool} (h : Consistent b₀ b)
    (hb : b.ended = none) (hlen : bs.length = b.candlist.length) (hle : (bs.count true : ℤ) ≤ b.numslots) :
    Consistent b₀ (Booth.record st { b with candlist := restore bs b.candlist, numvotes := bs.count true }) ↔
      (st.goesOn = true → Lands b st.written (flagged (restore bs b.candlist))) := by
  have hflags : (flagged (restore bs b.candlist)).length = bs.count true := by
    rw [length_flagged, map_uvote_restore hlen]
  have hbounded : ∀ text ∈ some ((ballot (flagged (restore bs b.candlist))).take st.written),
      ∃ names, text <+: ballot names ∧ (names.length : ℤ) ≤ b.numslots := by
    intro text htext
    cases htext
    exact ⟨_, List.take_prefix _ _, by rw [hflags]; exact hle⟩
  rcases booth_record_cases st { b with candlist := restore bs b.candlist, numvotes := bs.count true } with
    ⟨e, he, text, hrec, hends⟩ | ⟨e, he, hrec, hends⟩ | ⟨hrec, hgoes⟩
  · rw [hrec]
    refine iff_of_true ?_ fun hgoes => absurd (hends.symm.trans hgoes) Bool.false_ne_true
    exact consistent_of_ended rfl he h.bounded
  · rw [hrec, unlink_write]
    refine iff_of_true ?_ fun hgoes => absurd (hends.symm.trans hgoes) Bool.false_ne_true
    exact consistent_of_ended rfl he hbounded
  · rw [hrec, unlink_write, ← lands_iff b]
    constructor
    · intro hc _
      exact hc.synced hb rfl
    · intro hland
      exact ⟨h.defined, fun _ => by simp only [hflags], fun _ _ => hland hgoes, fun _ h => (by cases h), hbounded⟩

/-- **One call.** From a state in which all agrees, a call leaves one exactly if it is harmless. -/
theorem consistent_step {b₀ b c : Booth} (call : Call) (h : Consistent b₀ b) (hstep : b.step call = some c) :
    Consistent b₀ c ↔ Harmless b call := by
  rw [Booth.step] at hstep
  split_ifs at hstep with hb
  cases hstep
  by_cases hmax : b.candlist.length ≤ MAXCAND
  case neg =>
    -- `savevote` is left, unless there is no message file
    cases hmsg : call.votemsg with
    | false =>
      refine iff_of_true ?_ fun h => absurd (hmsg.symm.trans h) Bool.false_ne_true
      rw [Booth.vote, hmsg]
      exact consistent_of_ended rfl (by decide) h.bounded
    | true =>
      refine iff_of_false (fun hc => hc.defined ?_) fun hharm => hmax (hharm hmsg).1
      rw [Booth.vote, hmsg]
      simp only [Bool.not_true, Bool.false_eq_true, if_false, if_pos (not_le.1 hmax)]
  rcases vote_cases hmax call with
    ⟨⟨e, he, hvote⟩, hno⟩ | ⟨r, hr, hmsg, hcancel, hvote⟩ | ⟨r, hr, hmsg, hconfirm, hvote⟩
  · -- the program ends
    refine iff_of_true ?_ fun hmsg => ⟨hmax, fun r hr =>
      ⟨fun hc => absurd hc (hno hmsg r hr).1, fun hc => absurd hc (hno hmsg r hr).2⟩⟩
    rw [hvote]
    exact consistent_of_ended rfl he h.bounded
  · -- the vote is cancelled: only the counter is new
    rw [hvote]
    constructor
    · intro hc hm
      refine ⟨hmax, fun q hq => ?_⟩
      obtain rfl : q = r := Option.mem_unique hq hr
      have hcount : (q.1.count true : ℤ) = (flagged b.candlist).length := hc.counted hb
      exact ⟨fun _ => by exact_mod_cast hcount, fun hc => absurd hcancel hc.not_cancels⟩
    · intro hharm
      have hcount := ((hharm hmsg).2 r hr).1 hcancel
      exact ⟨h.defined, fun _ => by simp only [hcount], h.synced, h.untouched, h.bounded⟩
  · -- the vote is recorded
    rw [hvote, consistent_record_iff call.steps h hb (length_answers hr) hconfirm.1]
    constructor
    · intro hland _
      refine ⟨hmax, fun q hq => ?_⟩
      obtain rfl : q = r := Option.mem_unique hq hr
      exact ⟨fun hc => absurd hc hconfirm.not_cancels, fun _ => hland⟩
    · intro hharm
      exact ((hharm hmsg).2 r hr).2 hconfirm

/-! ## Main results -/

/-- **The voting booth.** Any calls from a new start of the program: all agrees each time control is at the menu exactly
when the counter is right at the start and every call is harmless. -/
theorem booth_iff {b : Booth} (hrun : b.ended = none) (hnew : b.recorded = none) (calls : List Call) :
    Always Booth.step (Consistent b) b calls ↔
      b.numvotes = (flagged b.candlist).length ∧ Along Booth.step Harmless b calls := by
  have hnot : ¬ b.recorded.isSome = true := by rw [hnew]; exact Bool.false_ne_true
  have hstep : ∀ s call t, Consistent b s → s.step call = some t → (Consistent b t ↔ Harmless s call) :=
    fun s call t hs hstep => consistent_step call hs hstep
  have hstart : b.numvotes = (flagged b.candlist).length → Consistent b b := fun hcount =>
    ⟨by simp [hrun], fun _ => hcount, fun _ h => absurd h hnot, fun _ _ => ⟨rfl, rfl⟩,
      fun _ h => by rw [hnew] at h; cases h⟩
  constructor
  · intro h
    have hcount := h.head.counted hrun
    exact ⟨hcount, (always_iff_along hstep calls (hstart hcount)).1 h⟩
  · intro h
    exact (always_iff_along hstep calls (hstart h.1)).2 h.2

/-- **The counter is right when the program starts**: `getcands` has counted the names of the file. -/
theorem getcands_counted {s : Setting} {b : Board} (h : s.getcands = .ok b)
    (hnodup : (b.candlist.map Candtag.dir).Nodup)
    (hfile : ∀ text ∈ s.userfile, ∃ S : List Str, text = ballot S ∧ S.Nodup ∧
      ∀ l ∈ S, l ∈ b.candlist.map Candtag.dir ∧ Word l ∧ l.length < LINEMAX) :
    b.numvotes = (flagged b.candlist).length := by
  obtain ⟨numcand, rest, candlist, -, hvotes⟩ := read_of_getcands h
  have hdirs := map_dir_getvotes hvotes
  cases huser : s.userfile with
  | none =>
    rw [huser] at hvotes
    obtain ⟨hread, hcount⟩ := Prod.mk.inj (Option.some.inj hvotes)
    have hnone : flagged b.candlist = [] := by
      rw [← hread, flagged, List.filter_eq_nil_iff.2, List.map_nil]
      intro c hc
      obtain ⟨a, _, rfl⟩ := List.mem_map.1 hc
      exact Bool.false_ne_true
    rw [hnone, ← hcount]
    rfl
  | some text =>
    obtain ⟨S, rfl, hS, hwords⟩ := hfile text huser
    rw [hdirs] at hnodup hwords
    rw [huser, getvotes_ballot hnodup hwords] at hvotes
    obtain ⟨hread, hcount⟩ := Prod.mk.inj (Option.some.inj hvotes)
    have hflagged : flagged b.candlist = (candlist.map Candtag.dir).filter (· ∈ S) := by
      rw [← hread, flagged, List.filter_map, List.filter_map, List.map_map]
      rfl
    have hperm : ((candlist.map Candtag.dir).filter (· ∈ S)).Perm S := by
      rw [List.perm_ext_iff_of_nodup (hnodup.filter _) hS]
      intro l
      rw [List.mem_filter, decide_eq_true_iff]
      exact and_iff_right_of_imp fun hl => (hwords l hl).1
    rw [hflagged, hperm.length_eq, ← hcount]

/-- ann is voted for, then the vote is changed to nobody -/
theorem booth_iff_changed :
    let b : Booth := ⟨⟨[⟨[], ['a', 'n', 'n'], false⟩], 1, 0⟩, none, none, none, false⟩
    let calls : List Call := [⟨['\n', 'y', '\n', 'y', '\n'], true, ⟨true, true, true, 33, true, true, true⟩⟩,
      ⟨['\n', 'n', '\n', 'y', '\n'], true, ⟨true, true, true, 33, true, true, true⟩⟩]
    Always Booth.step (Consistent b) b calls ↔
      b.numvotes = (flagged b.candlist).length ∧ Along Booth.step Harmless b calls :=
  booth_iff rfl rfl _

/-- **The count is lost.** ann has been voted for; in a new vote the user says no to her, and does not confirm. -/
theorem count_lost :
    let b : Booth := ⟨⟨[⟨[], ['a', 'n', 'n'], true⟩], 1, 1⟩, some (ballot [['a', 'n', 'n']]), none, none, false⟩
    let call : Call := ⟨['\n', 'n', '\n', 'n', '\n'], true, ⟨true, true, true, 33, true, true, true⟩⟩
    b.numvotes = (flagged b.candlist).length ∧ ¬ Always Booth.step (Consistent b) b [call] := by
  intro b call
  refine ⟨by decide, fun h => ?_⟩
  have hafter : Consistent b (b.vote call) := (h.2 (b.vote call) rfl).head
  exact absurd (hafter.counted (by decide)) (by decide)

end MNetSoft.Vote
