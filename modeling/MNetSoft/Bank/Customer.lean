/-
What one run of the bank program does, as a process over the bank and transaction files (`Core.Proc`). The calls are
the operations of `bank.c` on these files, each of them atomic: `addbalance` and `transaction` hold their lock while
they read and write, `balance` reads one record, `openaccount` and `closeaccount` write one record without a lock.
`checkme`, `parsetrans`, `asktrans`, `dobank` and `dotrans` follow the source; what the customer types, what the passwd
file answers and what `time()` returns are their arguments. Messages are left out.

The two semantics of `Core.Proc` are used on the same processes: `files` runs one process alone (`Bank.Ledger`,
`Bank.OpenDelay`), and a pool of them is `Bank.Overdraft`. `Bank.Atomicity` runs the calls of a transfer with locks and
writes that may fail.

- `mybal` is read once, by `checkme`; nothing updates it afterwards, so a banker's second transfer is checked against
  the balance before the first one.
- `checkme` opens a pending account only when its date has come; `asktrans` compares the other way (`hisbal < tm`).
-/
import Mathlib.Tactic
import MNetSoft.Core.Proc
import MNetSoft.Bank.Records
import MNetSoft.Bank.TransFile

namespace MNetSoft.Bank

open MNetSoft.CString MNetSoft.Proc MNetSoft.Proc.Prog

/-! ## Calls on the files -/

structure Files where
  bf : BankFile
  tf : TransFile
deriving DecidableEq, Repr

inductive Call where
  | balance (uid bal : ℤ)
  | addbalance (uid bal : ℤ)
  | openaccount (uid : ℤ) (now : ℕ)
  /-- `writebalance(uid, 0L)`, the first half of `closeaccount` -/
  | clear (uid : ℤ)
  | scantrans (uid : ℤ)
  | transaction (tr : TransEnt)
deriving DecidableEq, Repr

abbrev Ret : Call → Type
  | .balance _ _ => ℕ × ℤ
  | .scantrans _ => List TransEnt
  | _ => Unit

/-- a process of the bank program -/
abbrev Session := Prog Call Ret

def doBalance (uid : ℤ) : Session (ℕ × ℤ) := Prog.call (Call.balance uid 0) .ret

def doAddbalance (uid bal : ℤ) : Session Unit := Prog.call (Call.addbalance uid bal) .ret

def doOpenaccount (uid : ℤ) (now : ℕ) : Session Unit := Prog.call (Call.openaccount uid now) .ret

def doClear (uid : ℤ) : Session Unit := Prog.call (Call.clear uid) .ret

def doScantrans (uid : ℤ) : Session (List TransEnt) := Prog.call (Call.scantrans uid) .ret

def doTransaction (tr : TransEnt) : Session Unit := Prog.call (Call.transaction tr) .ret

/-- the effect and the answer of a call, every lock granted -/
def files : (c : Call) → Files → Files × Option (Ret c)
  | .balance uid bal, w => (w, some (balance w.bf uid bal))
  | .addbalance uid bal, w => ({ w with bf := addbalance w.bf uid bal }, some ())
  | .openaccount uid now, w => ({ w with bf := openaccount w.bf uid now }, some ())
  | .clear uid, w => ({ w with bf := writebalance w.bf uid 0 }, some ())
  | .scantrans uid, w => ({ w with tf := (scantrans w.tf uid).1 }, some (scantrans w.tf uid).2)
  | .transaction tr, w => ({ w with tf := transaction w.tf tr }, some ())

/-! ## The program -/

/-- the customer, as `main` finds him: uid, login, whether he is a banker (never with -r), -r, and the time -/
structure Customer where
  myuid : ℤ
  myid : Str
  banker : Bool
  report : Bool
  tm : ℕ
deriving DecidableEq, Repr

/-- register the user: ends the program unless his account is open, may be opened now, or he is a banker; otherwise
returns `mybal`. `ch` answers the offer of an account, `now` is the time at which it is taken up. -/
def checkme (c : Customer) (ch : Char) (now : ℕ) : Session ℤ := do
  let st ← doBalance c.myuid
  if st.1 = 1 then
    if c.report then .exit 0
    else if c.banker then do
      doAddbalance c.myuid 0
      pure INITBALANCE
    else if ch = 'n' ∨ ch = 'N' then .exit 0
    else do
      doOpenaccount c.myuid now
      .exit 0
  else if st.1 = 2 then
    if c.tm < st.2 ∧ (c.report ∨ ¬ c.banker) then .exit 0
    else do
      doAddbalance c.myuid 0
      pure INITBALANCE
  else pure st.2

/-- the transaction record `dotrans` assembles -/
def mkTrans (c : Customer) (type : ℕ) (uid amt : ℤ) (reason : Str) : TransEnt :=
  { to_uid := uid, code := type, fr_id := strlcpy c.myid 33, why := strlcpy reason 40, amount := amt }

/-- record a transaction of type `type` to user `uid` of amount `amt` for reason `reason` -/
def dotrans (c : Customer) (type : ℕ) (uid amt : ℤ) (reason : Str) : Session Unit := do
  if type = TR_XFER then doAddbalance c.myuid (-amt) else pure ()
  doAddbalance uid (if type = TR_FINE then -amt else amt)
  doTransaction (mkTrans c type uid amt reason)

/-- the arguments of `bank -t who amount [reason]`: their number, what the passwd file knows of `who`, and the rest -/
structure Args where
  argc : ℕ
  who : Option ℤ
  amt : ℤ
  reason : Str
deriving DecidableEq, Repr

def parsetrans (c : Customer) (type : ℕ) (a : Args) (ch : Char) (now : ℕ) : Session Unit :=
  if type ≠ TR_XFER ∧ ¬ c.banker then pure ()
  else if a.argc < 4 ∨ 5 < a.argc then pure ()
  else match a.who with
    | none => pure ()
    | some uid =>
      if a.amt ≤ 0 then pure ()
      else do
        let mybal ← checkme c ch now
        if type = TR_XFER ∧ mybal < a.amt then pure ()
        else if c.myuid = uid then pure ()
        else dotrans c type uid a.amt (if a.argc = 4 then [] else a.reason)

/-- what the customer answers to `asktrans`: whom (-1 for a bad name), how many, what for, and when -/
structure Answers where
  hisuid : ℤ
  amt : ℤ
  reason : Str
  now : ℕ
deriving DecidableEq, Repr

/-- the second half of `asktrans`: how much to pay him, and what for -/
def askamount (c : Customer) (type : ℕ) (mybal : ℤ) (a : Answers) : Session Unit :=
  if a.amt ≤ 0 then pure ()
  else if type = TR_XFER ∧ mybal < a.amt then pure ()
  else dotrans c type a.hisuid a.amt a.reason

/-- ask user about a transaction of type `type` -/
def asktrans (c : Customer) (type : ℕ) (mybal : ℤ) (a : Answers) : Session Unit :=
  if a.hisuid < 0 then pure ()
  else if a.hisuid = c.myuid then pure ()
  else do
    let st ← doBalance a.hisuid
    if st.1 = 1 then
      if ¬ c.banker then doOpenaccount a.hisuid a.now
      else do
        doAddbalance a.hisuid 0
        askamount c type mybal a
    else if st.1 = 2 then
      if ¬ c.banker ∧ st.2 < c.tm then pure ()
      else do
        doAddbalance a.hisuid 0
        askamount c type mybal a
    else askamount c type mybal a

/-- what a banker can ask his secretary for -/
inductive Cmd where
  | asktrans (type : ℕ) (a : Answers)
  | askopen (hisuid : ℤ)
  | askclose (hisuid : ℤ)
  | askreport (hisuid : ℤ)
deriving DecidableEq, Repr

/-- the banker's secretary -/
def dobank (c : Customer) (mybal : ℤ) : List Cmd → Session Unit
  | [] => pure ()
  | .asktrans type a :: cmds => do
    asktrans c type mybal a
    dobank c mybal cmds
  | .askopen hisuid :: cmds => do
    if hisuid < 0 then pure () else doAddbalance hisuid 0
    dobank c mybal cmds
  | .askclose hisuid :: cmds => do
    if hisuid < 0 then pure ()
    else do
      doClear hisuid
      let _ ← doScantrans hisuid
    dobank c mybal cmds
  | .askreport hisuid :: cmds => do
    if hisuid < 0 then pure ()
    else do
      let _ ← doBalance hisuid
    dobank c mybal cmds

/-- a visit without arguments or with -r: the answer to the offer of an account, whether the offer of a transfer is
declined, the answers to it, and what a banker asks for -/
structure Visit where
  ch : Char
  now : ℕ
  declines : Bool
  answers : Answers
  cmds : List Cmd
deriving DecidableEq, Repr

/-- `main` from `checkme` on -/
def visit (c : Customer) (v : Visit) : Session Unit := do
  let mybal ← checkme c v.ch v.now
  let _ ← doScantrans c.myuid
  if c.report then pure ()
  else if c.banker then dobank c mybal v.cmds
  else if 0 < mybal ∧ ¬ v.declines then asktrans c TR_XFER mybal v.answers
  else pure ()

/-! ## Running a session alone -/

section

variable {A : Type} (w : Files) (uid : ℤ)

@[simp] theorem exec_doBalance (f : ℕ × ℤ → Session A) :
    exec files ((doBalance uid).bind f) w = exec files (f (balance w.bf uid 0)) w := rfl

@[simp] theorem exec_doAddbalance (bal : ℤ) (f : Unit → Session A) :
    exec files ((doAddbalance uid bal).bind f) w = exec files (f ()) ⟨addbalance w.bf uid bal, w.tf⟩ := rfl

@[simp] theorem exec_doOpenaccount (now : ℕ) (f : Unit → Session A) :
    exec files ((doOpenaccount uid now).bind f) w = exec files (f ()) ⟨openaccount w.bf uid now, w.tf⟩ := rfl

@[simp] theorem exec_doScantrans (f : List TransEnt → Session A) :
    exec files ((doScantrans uid).bind f) w =
      exec files (f (scantrans w.tf uid).2) ⟨w.bf, (scantrans w.tf uid).1⟩ := rfl

end

/-- the bank file after the two halves of a transaction -/
def transBalances (c : Customer) (type : ℕ) (uid amt : ℤ) (bf : BankFile) : BankFile :=
  addbalance (if type = TR_XFER then addbalance bf c.myuid (-amt) else bf) uid (if type = TR_FINE then -amt else amt)

/-- **What `dotrans` does** when every lock is granted -/
theorem exec_dotrans (c : Customer) (type : ℕ) (uid amt : ℤ) (reason : Str) (w : Files) :
    exec files (dotrans c type uid amt reason) w =
      (⟨transBalances c type uid amt w.bf, transaction w.tf (mkTrans c type uid amt reason)⟩, some ()) := by
  unfold dotrans transBalances
  by_cases hx : type = TR_XFER
  · rw [if_pos hx, if_pos hx]
    rfl
  · rw [if_neg hx, if_neg hx]
    rfl

end MNetSoft.Bank
