/-
The bank's ledger over whole sequences of sequential operations: accounts are opened with `addbalance(uid, 0L)` and
moved by `dotrans`, in any order and on any uids, from any bank file.

An account's ledger value is INITBALANCE plus what has been credited to it minus what has been debited from it since it
was opened. Amounts are added in `addbalance` to a balance that `r / 2` has rounded towards zero (`truncated`), so a
record read while its balance is negative is one unit too high from then on.

- `record_runOps`: an open record stores the accumulator of the rounded additions (`Core.Rounding`).
- `ledger_exact_iff`: all four decoders give an account's ledger value if and only if that value has never been
  negative since the account was opened.
- `fine_drifts`: a fine of 11 on a new account leaves the ledger at -1, `balance` reports 0.
-/
import Mathlib.Tactic
import MNetSoft.Core.Rounding
import MNetSoft.Bank.Customer

namespace MNetSoft.Bank

open MNetSoft.CString MNetSoft.Proc MNetSoft.Rounding

/-! ## Operations and ledger -/

/-- a sequential operation: open an account for uid, or a transaction of one of the three types -/
inductive LedgerOp where
  | openAcct (uid : ℤ)
  | trans (c : Customer) (type : ℕ) (uid amt : ℤ) (reason : Str)
deriving DecidableEq, Repr

def LedgerOp.session : LedgerOp → Session Unit
  | .openAcct uid => doAddbalance uid 0
  | .trans c type uid amt reason => dotrans c type uid amt reason

/-- run one operation to its end -/
def runOp (w : Files) (op : LedgerOp) : Files := (exec files op.session w).1

def runOps (w : Files) (ops : List LedgerOp) : Files := ops.foldl runOp w

/-- what an operation enters in uid's account, in order: credits positive, debits negative, 0 for the opening -/
def entry (uid : ℤ) : LedgerOp → List ℤ
  | .openAcct u => if u = uid then [0] else []
  | .trans c type u amt _ =>
    (if type = TR_XFER ∧ c.myuid = uid then [-amt] else []) ++
      if u = uid then [if type = TR_FINE then -amt else amt] else []

def entries (uid : ℤ) (ops : List LedgerOp) : List ℤ := ops.flatMap (entry uid)

/-- INITBALANCE plus all amounts credited minus all amounts debited -/
def ledger (es : List ℤ) : ℤ := INITBALANCE + es.sum

/-- all four decoders take uid's record for the value `v` -/
def Decodes (bf : BankFile) (uid v : ℤ) : Prop :=
  balance bf uid 0 = (0, v) ∧ oldbalance bf uid = v ∧ wealthyBucks (record bf uid) = v ∧
    listallBal (record bf uid) = v

instance (bf : BankFile) (uid v : ℤ) : Decidable (Decodes bf uid v) := by unfold Decodes; infer_instance

/-- the ledger value has never been negative: not after any of the entries, in order -/
def NeverNegative (es : List ℤ) : Prop := ∀ pre ∈ es.inits, 0 ≤ ledger pre

instance (es : List ℤ) : Decidable (NeverNegative es) := by unfold NeverNegative; infer_instance

/-! ## The record after a run -/

theorem truncated_le (b : ℤ) : b ≤ truncated b := by
  unfold truncated
  split_ifs <;> omega

theorem truncated_eq_iff (b : ℤ) : truncated b = b ↔ 0 ≤ b := by
  unfold truncated
  split_ifs <;> omega

@[simp] theorem truncated_INITBALANCE : truncated INITBALANCE = INITBALANCE := rfl

/-- a record after amounts `es` have been added to it: closed until the first one -/
def added (r : ℤ) (es : List ℤ) : ℤ :=
  if es = [] then r else openRecord (accumulate truncated (if IsOpen r then stored r else INITBALANCE) es)

theorem added_append (r : ℤ) (es fs : List ℤ) : added (added r es) fs = added r (es ++ fs) := by
  unfold added
  by_cases he : es = []
  · simp [he]
  · by_cases hf : fs = []
    · simp [he, hf]
    · simp [he, hf, accumulate_append]

/-- `addbalance` adds one amount to uid's record and none to any other -/
theorem record_addbalance_added (bf : BankFile) {uid bal u : ℤ} (hu : 0 ≤ u) :
    record (addbalance bf uid bal) u = added (record bf u) (if uid = u then [bal] else []) := by
  rw [record_addbalance]
  by_cases heq : u = uid
  · subst heq
    have hone : ∀ b, bal + truncated b = truncated b + bal := fun b => add_comm _ _
    rw [if_pos ⟨rfl, hu⟩, if_pos rfl]
    by_cases hopen : IsOpen (record bf u)
    · rw [oldbalance_open (openRecord_stored hopen).symm, hone]
      simp [added, hopen]
    · rw [oldbalance_closed hopen, add_comm]
      simp [added, hopen]
  · rw [if_neg fun h => heq h.1, if_neg (Ne.symm heq)]
    rfl

/-- **One operation** adds its entries to every record -/
theorem record_runOp (w : Files) (op : LedgerOp) {u : ℤ} (hu : 0 ≤ u) :
    record (runOp w op).bf u = added (record w.bf u) (entry u op) := by
  cases op with
  | openAcct uid =>
    exact record_addbalance_added w.bf hu
  | trans c type uid amt reason =>
    rw [runOp, LedgerOp.session, exec_dotrans]
    simp only [transBalances, entry]
    rw [record_addbalance_added _ hu]
    by_cases hx : type = TR_XFER
    · simp only [hx, if_true, true_and]
      rw [record_addbalance_added _ hu, added_append]
    · simp only [hx, if_false, false_and, List.nil_append]

/-- **A run** adds the entries of its operations, in order, to every record -/
theorem record_runOps (w : Files) (ops : List LedgerOp) {u : ℤ} (hu : 0 ≤ u) :
    record (runOps w ops).bf u = added (record w.bf u) (entries u ops) := by
  induction ops generalizing w with
  | nil => rfl
  | cons op ops ih =>
    have hrun : runOps w (op :: ops) = runOps (runOp w op) ops := rfl
    rw [hrun, ih, record_runOp w op hu, added_append]
    rfl

/-! ## When the decoders agree with the ledger -/

/-- the decoders of a record that stores `b`: two exact ones and two rounded ones -/
theorem decodes_iff {bf : BankFile} {uid b : ℤ} (h : record bf uid = openRecord b) (v : ℤ) :
    Decodes bf uid v ↔ b = v ∧ truncated b = v := by
  unfold Decodes wealthyBucks listallBal
  rw [balance_open h, oldbalance_open h, h, sub_one_tdiv_openRecord]
  simp only [Prod.mk.injEq, true_and]
  tauto

/-- **Ledger exactness.** For an account that a run has opened, `balance`, `addbalance`, `wealthy` and `listall` all
decode its record to the ledger value if and only if the ledger value has never been negative. -/
theorem ledger_exact_iff (w : Files) (ops : List LedgerOp) (uid : ℤ) (hclosed : ¬ IsOpen (record w.bf uid))
    (hopen : IsOpen (record (runOps w ops).bf uid)) :
    Decodes (runOps w ops).bf uid (ledger (entries uid ops)) ↔ NeverNegative (entries uid ops) := by
  have hrec := record_runOps w ops (nonneg_of_isOpen hopen)
  have hne : entries uid ops ≠ [] := by
    intro h
    rw [hrec, h] at hopen
    exact hclosed hopen
  rw [added, if_neg hne, if_neg hclosed] at hrec
  rw [decodes_iff hrec]
  have hexact := accumulate_exact_iff truncated_le INITBALANCE (entries uid ops)
  have hpre : NeverNegative (entries uid ops) ↔
      ∀ pre, pre <+: entries uid ops → truncated (INITBALANCE + pre.sum) = INITBALANCE + pre.sum :=
    forall_congr' fun pre => imp_congr (List.mem_inits _ _) (truncated_eq_iff _).symm
  rw [hpre, ← hexact]
  have hlow := le_accumulate truncated_le INITBALANCE (entries uid ops)
  have hup := truncated_le (accumulate truncated INITBALANCE (entries uid ops))
  unfold ledger
  refine ⟨?_, ?_⟩
  · exact fun h => h.2
  · exact fun h => ⟨le_antisymm (h ▸ hup) hlow, h⟩

/-- a banker -/
def clerk : Customer := ⟨1, ['c'], true, false, 1000⟩

/-- open account 5 and transfer 3 to it: the ledger value 13 was never negative -/
theorem ledger_exact_transfer :
    Decodes (runOps ⟨[], ⟨[], 0⟩⟩ [.openAcct 5, .trans clerk TR_XFER 5 3 []]).bf 5 13 := by
  have h := ledger_exact_iff ⟨[], ⟨[], 0⟩⟩ [.openAcct 5, .trans clerk TR_XFER 5 3 []] 5 (by decide) (by decide)
  exact h.2 (by decide)

/-- open account 5, then fine it 11 -/
def fineOps : List LedgerOp := [.openAcct 5, .trans clerk TR_FINE 5 11 []]

/-- **A fine below zero drifts.** The ledger value is -1 and the record stores -1, but `balance` and `addbalance` take
it for 0. -/
theorem fine_drifts :
    ¬ IsOpen (record [] 5) ∧ IsOpen (record (runOps ⟨[], ⟨[], 0⟩⟩ fineOps).bf 5) ∧
      ledger (entries 5 fineOps) = -1 ∧ balance (runOps ⟨[], ⟨[], 0⟩⟩ fineOps).bf 5 0 = (0, 0) ∧
      ¬ Decodes (runOps ⟨[], ⟨[], 0⟩⟩ fineOps).bf 5 (ledger (entries 5 fineOps)) := by
  decide

end MNetSoft.Bank
