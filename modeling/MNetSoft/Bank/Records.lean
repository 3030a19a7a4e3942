/-
The bank file of `bank.c`: one `long` for every uid, which packs the state of the account and its balance by parity.
- zero, or no record at all: no account;
- even: the account has been applied for, the value is the date it opens;
- odd: the account is open, and a balance `b` is stored as `2 * b + 1`.
C arithmetic on `long` is modelled by ℤ with the truncating `/` and `%` of C (`Int.tdiv`, `Int.tmod`), that is for
amounts small enough not to overflow. Locking is modelled in `Bank.Lock`; here a read or write has the file to itself.

Four places decode an open record. `wealthy()` and `listall()` take `(r - 1) / 2`, which is the stored balance;
`balance()` and `addbalance()` take `r / 2`, which C rounds towards zero, so that they read a stored balance `b < 0` as
`b + 1` (`balance_open`, `oldbalance_open`). What `listall` lists are the open accounts, each with its stored balance
(`mem_listallScan`), and `wealthy` ranks the same but for uid 0 (`mem_wealthyScan`).
-/
import Mathlib.Tactic
import MNetSoft.Core.Records

namespace MNetSoft.Bank

open MNetSoft.Records

/-! ## Model -/

/-- days to wait before opening an account -/
def OPENDELAY : ℤ := 1

/-- how much to give new account openers -/
def INITBALANCE : ℤ := 10

def SECSPERDAY : ℤ := 86400

/-- the bank file: one long for every uid from 0 on -/
abbrev BankFile := List ℤ

/-- `lseek(bf, uid * sizeof(long), 0)` and a read of one long; both a refused seek and a short read give `none` -/
def readLong (bf : BankFile) (uid : ℤ) : Option ℤ := if uid < 0 then none else readAt bf uid.toNat

/-- place a user's balance in `*bal`, whose value before the call is `bal`. Returns 0 if successful, 1 if the user has
no account and has not asked for one, 2 if the account is not open yet; then `*bal` is the date it opens. -/
def balance (bf : BankFile) (uid bal : ℤ) : ℕ × ℤ :=
  match readLong bf uid with
  | none => (1, bal)
  | some b => if b.tmod 2 = 0 then (if b = 0 then 1 else 2, b) else (0, b.tdiv 2)

/-- write a new value into a user's account -/
def writebalance (bf : BankFile) (uid bal : ℤ) : BankFile := if 0 ≤ uid then writeAt 0 bf uid.toNat bal else bf

/-- the balance `addbalance` starts from: the initial deposit if the account was not open -/
def oldbalance (bf : BankFile) (uid : ℤ) : ℤ :=
  match readLong bf uid with
  | none => INITBALANCE
  | some oldbal => if oldbal.tmod 2 = 0 then INITBALANCE else oldbal.tdiv 2

/-- increase the balance of uid's account by bal; open it with the initial deposit if it was not open -/
def addbalance (bf : BankFile) (uid bal : ℤ) : BankFile :=
  if uid < 0 then bf else writebalance bf uid ((bal + oldbalance bf uid) * 2 + 1)

/-- create an account with the usual time lag, `now` being what `time()` returns -/
def openaccount (bf : BankFile) (uid : ℤ) (now : ℕ) : BankFile :=
  let tm : ℤ := now + OPENDELAY * SECSPERDAY
  writebalance bf uid (if tm.tmod 2 = 1 then tm - 1 else tm)

/-- what the loop of `wealthy()` takes an open record for -/
def wealthyBucks (new : ℤ) : ℤ := (new - 1).tdiv 2

/-- what the loop of `listall()` takes an open record for -/
def listallBal (bal : ℤ) : ℤ := (bal - 1).tdiv 2

/-- the accounts the loop of `wealthy()` ranks: the open ones, uid 0 passed over -/
def wealthyScan (bf : BankFile) : List (ℕ × ℤ) :=
  (bf.zipIdx.drop 1).filterMap fun (new, cuid) => if new.tmod 2 = 0 then none else some (cuid, wealthyBucks new)

/-- the accounts the loop of `listall()` finds open -/
def listallScan (bf : BankFile) : List (ℕ × ℤ) :=
  bf.zipIdx.filterMap fun (bal, cuid) => if bal.tmod 2 = 0 then none else some (cuid, listallBal bal)

/-! ## The record of a uid -/

/-- the record of a uid, 0 where there is none -/
def record (bf : BankFile) (uid : ℤ) : ℤ := (readLong bf uid).getD 0

/-- the account is open: its record is odd -/
def IsOpen (r : ℤ) : Prop := r.tmod 2 ≠ 0

instance (r : ℤ) : Decidable (IsOpen r) := by unfold IsOpen; infer_instance

/-- the balance an open record stores -/
def stored (r : ℤ) : ℤ := (r - 1) / 2

/-- the record that stores an open balance -/
def openRecord (b : ℤ) : ℤ := b * 2 + 1

theorem tmod_two (r : ℤ) : r.tmod 2 = 0 ↔ r % 2 = 0 := by
  rw [← Int.dvd_iff_tmod_eq_zero, Int.dvd_iff_emod_eq_zero]

theorem tdiv_two (r : ℤ) : r.tdiv 2 = if 0 ≤ r then r / 2 else -(-r / 2) := by
  split_ifs with h
  · exact Int.tdiv_eq_ediv_of_nonneg h
  · have hneg : r.tdiv 2 = -(-r).tdiv 2 := by rw [Int.neg_tdiv, neg_neg]
    rw [hneg, Int.tdiv_eq_ediv_of_nonneg (by omega)]

@[simp] theorem isOpen_openRecord (b : ℤ) : IsOpen (openRecord b) := by
  unfold IsOpen openRecord
  rw [ne_eq, tmod_two]
  omega

@[simp] theorem stored_openRecord (b : ℤ) : stored (openRecord b) = b := by
  unfold stored openRecord
  omega

theorem openRecord_stored {r : ℤ} (h : IsOpen r) : openRecord (stored r) = r := by
  unfold IsOpen at h
  rw [ne_eq, tmod_two] at h
  unfold stored openRecord
  omega

theorem isOpen_of_eq {r b : ℤ} (h : r = openRecord b) : IsOpen r := by
  rw [h]
  exact isOpen_openRecord b

theorem not_isOpen_of_even {r : ℤ} (h : r % 2 = 0) : ¬ IsOpen r := by
  unfold IsOpen
  rw [ne_eq, tmod_two, not_not]
  exact h

@[simp] theorem not_isOpen_zero : ¬ IsOpen 0 := not_isOpen_of_even rfl

/-- the rounding of `r / 2` at an open record -/
def truncated (b : ℤ) : ℤ := if b < 0 then b + 1 else b

theorem tdiv_openRecord (b : ℤ) : (openRecord b).tdiv 2 = truncated b := by
  rw [tdiv_two]
  unfold openRecord truncated
  split_ifs <;> omega

theorem sub_one_tdiv_openRecord (b : ℤ) : (openRecord b - 1).tdiv 2 = b := by
  rw [tdiv_two]
  unfold openRecord
  split_ifs <;> omega

/-! ## Reads and writes by uid -/

theorem record_of_neg {bf : BankFile} {uid : ℤ} (h : uid < 0) : record bf uid = 0 := by
  simp [record, readLong, h]

theorem nonneg_of_isOpen {bf : BankFile} {uid : ℤ} (h : IsOpen (record bf uid)) : 0 ≤ uid := by
  by_contra hneg
  rw [record_of_neg (by omega)] at h
  exact not_isOpen_zero h

theorem record_of_nonneg {bf : BankFile} {uid : ℤ} (h : 0 ≤ uid) : record bf uid = valueAt 0 bf uid.toNat := by
  simp [record, readLong, valueAt, not_lt.2 h]

/-- an open account has a record in the file -/
theorem readAt_of_open {bf : BankFile} {uid b : ℤ} (h : record bf uid = openRecord b) :
    readAt bf uid.toNat = some (openRecord b) := by
  have hopen := isOpen_of_eq h
  rw [record_of_nonneg (nonneg_of_isOpen hopen), valueAt] at h hopen
  cases hr : readAt bf uid.toNat with
  | none =>
    rw [hr] at hopen
    exact absurd hopen not_isOpen_zero
  | some r =>
    rw [hr] at h
    exact congrArg some h

theorem record_of_readAt {bf : BankFile} {uid : ℕ} {r : ℤ} (h : readAt bf uid = some r) : record bf uid = r := by
  rw [record_of_nonneg (Int.natCast_nonneg uid), Int.toNat_natCast, valueAt, h, Option.getD_some]

/-- **A write changes one record**, and none at all for a negative uid -/
theorem record_writebalance (bf : BankFile) (uid v u : ℤ) :
    record (writebalance bf uid v) u = if u = uid ∧ 0 ≤ uid then v else record bf u := by
  unfold writebalance
  by_cases huid : 0 ≤ uid
  · rw [if_pos huid]
    by_cases hu : 0 ≤ u
    · rw [record_of_nonneg hu, record_of_nonneg hu]
      by_cases heq : u = uid
      · subst heq
        simp [huid]
      · have hne : u.toNat ≠ uid.toNat := by omega
        simp [heq, valueAt_writeAt_of_ne 0 bf v hne]
    · rw [record_of_neg (by omega), record_of_neg (by omega)]
      split_ifs with h <;> omega
  · rw [if_neg huid, if_neg fun h => huid h.2]

/-- `addbalance` stores the old balance plus `bal` in uid's record and changes no other -/
theorem record_addbalance (bf : BankFile) (uid bal u : ℤ) :
    record (addbalance bf uid bal) u =
      if u = uid ∧ 0 ≤ uid then openRecord (bal + oldbalance bf uid) else record bf u := by
  unfold addbalance
  split_ifs with h1 h2 h2
  · omega
  · rfl
  · rw [record_writebalance, if_pos h2]; rfl
  · rw [record_writebalance, if_neg h2]

/-- the opening date `openaccount` writes is even -/
theorem record_openaccount (bf : BankFile) (uid : ℤ) (now : ℕ) :
    ∃ date : ℤ, date % 2 = 0 ∧ now < date ∧
      ∀ u, record (openaccount bf uid now) u = if u = uid ∧ 0 ≤ uid then date else record bf u := by
  have hdate : OPENDELAY * SECSPERDAY = 86400 := rfl
  have hmod : ((now : ℤ) + 86400).tmod 2 = ((now : ℤ) + 86400) % 2 := Int.tmod_eq_emod_of_nonneg (by omega)
  refine ⟨_, ?_, ?_, record_writebalance _ _ _⟩
  · simp only [hdate, hmod]
    split_ifs <;> omega
  · simp only [hdate, hmod]
    split_ifs <;> omega

theorem oldbalance_eq (bf : BankFile) (uid : ℤ) :
    oldbalance bf uid = if IsOpen (record bf uid) then (record bf uid).tdiv 2 else INITBALANCE := by
  unfold oldbalance record IsOpen
  cases readLong bf uid with
  | none => simp
  | some r => by_cases h : r.tmod 2 = 0 <;> simp [h]

/-- a closed account starts from the initial deposit -/
theorem oldbalance_closed {bf : BankFile} {uid : ℤ} (h : ¬ IsOpen (record bf uid)) :
    oldbalance bf uid = INITBALANCE := by
  rw [oldbalance_eq, if_neg h]

theorem oldbalance_open {bf : BankFile} {uid b : ℤ} (h : record bf uid = openRecord b) :
    oldbalance bf uid = truncated b := by
  rw [oldbalance_eq, h, if_pos (isOpen_openRecord b), tdiv_openRecord]

/-- **What `balance` returns**: 0 for an open account, 1 where there is no record or a zero one, 2 and the date for a
pending one -/
theorem balance_cases (bf : BankFile) (uid bal : ℤ) :
    (IsOpen (record bf uid) ∧ balance bf uid bal = (0, (record bf uid).tdiv 2)) ∨
      (record bf uid = 0 ∧ (balance bf uid bal).1 = 1) ∨
      (¬ IsOpen (record bf uid) ∧ record bf uid ≠ 0 ∧ balance bf uid bal = (2, record bf uid)) := by
  unfold balance record IsOpen
  cases hr : readLong bf uid with
  | none => exact Or.inr (Or.inl ⟨rfl, rfl⟩)
  | some r =>
    simp only [Option.getD_some]
    by_cases hodd : r.tmod 2 = 0
    · by_cases hz : r = 0
      · exact Or.inr (Or.inl ⟨hz, by simp [hz]⟩)
      · exact Or.inr (Or.inr ⟨by simp [hodd], hz, by simp [hodd, hz]⟩)
    · exact Or.inl ⟨hodd, by simp [hodd]⟩

theorem balance_open {bf : BankFile} {uid b : ℤ} (h : record bf uid = openRecord b) (bal : ℤ) :
    balance bf uid bal = (0, truncated b) := by
  have hopen := isOpen_of_eq h
  rcases balance_cases bf uid bal with ⟨_, hb⟩ | ⟨h0, _⟩ | ⟨hclosed, _⟩
  · rw [hb, h, tdiv_openRecord]
  · rw [h0] at hopen
    exact absurd hopen not_isOpen_zero
  · exact absurd hopen hclosed

/-! ## The scans of `wealthy` and `listall` -/

/-- what the loops of `wealthy` and `listall` do with one record -/
theorem scan_record_iff (r : ℤ) (cuid uid : ℕ) (b : ℤ) :
    (if r.tmod 2 = 0 then none else some (cuid, (r - 1).tdiv 2)) = some (uid, b) ↔ cuid = uid ∧ r = openRecord b := by
  split_ifs with hclosed
  · exact iff_of_false (by simp) fun h => isOpen_of_eq h.2 hclosed
  · have hr : r = openRecord (stored r) := (openRecord_stored hclosed).symm
    have hdecode : (r - 1).tdiv 2 = stored r := by
      calc (r - 1).tdiv 2
        _ = (openRecord (stored r) - 1).tdiv 2 := by rw [← hr]
        _ = stored r := sub_one_tdiv_openRecord (stored r)
    rw [Option.some.injEq, Prod.mk.injEq, hdecode]
    refine and_congr_right fun _ => ⟨fun h => ?_, fun h => ?_⟩
    · rw [← h]
      exact hr
    · rw [h, stored_openRecord]

/-- **What `listall` lists**: the open accounts, each with the balance its record stores -/
theorem mem_listallScan (bf : BankFile) (uid : ℕ) (b : ℤ) :
    (uid, b) ∈ listallScan bf ↔ record bf uid = openRecord b := by
  simp only [listallScan, listallBal, List.mem_filterMap, Prod.exists, scan_record_iff, List.mem_zipIdx_iff_getElem?]
  refine ⟨?_, ?_⟩
  · intro h
    obtain ⟨r, cuid, hr, rfl, rfl⟩ := h
    exact record_of_readAt hr
  · intro h
    exact ⟨openRecord b, uid, readAt_of_open h, rfl, rfl⟩

/-- **What `wealthy` ranks**: the same, but for uid 0 -/
theorem mem_wealthyScan (bf : BankFile) (uid : ℕ) (b : ℤ) :
    (uid, b) ∈ wealthyScan bf ↔ uid ≠ 0 ∧ record bf uid = openRecord b := by
  have hdrop : ∀ (r : ℤ) (cuid : ℕ), (r, cuid) ∈ bf.zipIdx.drop 1 ↔ cuid ≠ 0 ∧ readAt bf cuid = some r := by
    intro r cuid
    cases bf with
    | nil => simp [readAt]
    | cons x bf =>
      rw [List.zipIdx_cons, List.drop_one, List.tail_cons, List.mem_zipIdx_iff_le_and_getElem?_sub]
      cases cuid with
      | zero => simp
      | succ n => simp [readAt]
  simp only [wealthyScan, wealthyBucks, List.mem_filterMap, Prod.exists, scan_record_iff, hdrop]
  refine ⟨?_, ?_⟩
  · intro h
    obtain ⟨r, cuid, ⟨hne, hr⟩, rfl, rfl⟩ := h
    exact ⟨hne, record_of_readAt hr⟩
  · intro h
    exact ⟨openRecord b, uid, ⟨h.1, readAt_of_open h.2⟩, rfl, rfl⟩

end MNetSoft.Bank
