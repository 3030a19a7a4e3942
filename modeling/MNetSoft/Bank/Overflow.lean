/-
`addbalance` of `bank.c` in 64-bit arithmetic. What is stored is twice the new balance and one more, and signed overflow
is undefined (`none`); elsewhere in `Bank` the balances are taken to be small enough.
- `addbalance64_eq_some`: when nothing overflows; the result is then that of `addbalance`.
- `exact_iff`: a transaction whose amount `parsetrans` or `asktrans` has accepted is recorded exactly if and only if the
  balance of the other customer stays below 2 ^ 62 and does not become negative.
- `huge_gift`: a gift that overflows.
-/
import Mathlib.Tactic
import MNetSoft.Bank.Customer

namespace MNetSoft.Bank

/-! ## Model -/

/-- a value of a `long` -/
def IsLong (x : ℤ) : Prop := -2 ^ 63 ≤ x ∧ x < 2 ^ 63

instance (x : ℤ) : Decidable (IsLong x) := by unfold IsLong; infer_instance

/-- the result of an operation on longs -/
def long (x : ℤ) : Option ℤ := if IsLong x then some x else none

/-- a bank file, as it can be read -/
structure LongFile where
  bf : BankFile
  long : ∀ r ∈ bf, IsLong r

/-- `addbalance` in longs -/
def addbalance64 (bf : BankFile) (uid bal : ℤ) : Option BankFile :=
  if uid < 0 then some bf
  else do
    let sum ← long (bal + oldbalance bf uid)
    let double ← long (sum * 2)
    let new ← long (double + 1)
    some (writebalance bf uid new)

/-- what `dotrans` adds to the balance of the other customer -/
def share (type : ℕ) (amt : ℤ) : ℤ := if type = TR_FINE then -amt else amt

/-- what `dotrans` does to the bank file, in longs -/
def dotrans64 (c : Customer) (type : ℕ) (uid amt : ℤ) (bf : BankFile) : Option BankFile := do
  let bf ← if type = TR_XFER then addbalance64 bf c.myuid (-amt) else some bf
  addbalance64 bf uid (share type amt)

/-! ## When nothing overflows -/

/-- the balances that can be stored -/
def Storable (b : ℤ) : Prop := -2 ^ 62 ≤ b ∧ b < 2 ^ 62

instance (b : ℤ) : Decidable (Storable b) := by unfold Storable; infer_instance

theorem storable_iff (b : ℤ) : Storable b ↔ IsLong b ∧ IsLong (b * 2) ∧ IsLong (b * 2 + 1) := by
  unfold Storable IsLong
  omega

/-- **When nothing overflows.** -/
theorem addbalance64_eq_some {bf bf' : BankFile} {uid bal : ℤ} (huid : 0 ≤ uid) :
    addbalance64 bf uid bal = some bf' ↔ Storable (bal + oldbalance bf uid) ∧ bf' = addbalance bf uid bal := by
  rw [storable_iff, addbalance64, if_neg (not_lt.2 huid), addbalance, if_neg (not_lt.2 huid)]
  unfold long
  by_cases h₁ : IsLong (bal + oldbalance bf uid)
  · by_cases h₂ : IsLong ((bal + oldbalance bf uid) * 2)
    · by_cases h₃ : IsLong ((bal + oldbalance bf uid) * 2 + 1)
      · simp [h₁, h₂, h₃, eq_comm]
      · simp [h₁, h₂, h₃]
    · simp [h₁, h₂]
  · simp [h₁]

/-- a stored balance can be stored, and so can the initial deposit -/
theorem storable_oldbalance (f : LongFile) (uid : ℤ) : Storable (oldbalance f.bf uid) := by
  have hrec : IsLong (record f.bf uid) := by
    rw [record]
    cases hr : readLong f.bf uid with
    | none => decide
    | some r =>
      rw [readLong] at hr
      split_ifs at hr with hneg
      exact f.long r (List.mem_of_getElem? hr)
  rw [oldbalance_eq]
  split_ifs with hopen
  · rw [tdiv_two]
    unfold IsLong at hrec
    unfold Storable
    split_ifs <;> omega
  · decide

/-! ## What is recorded -/

/-- a transaction whose amount `parsetrans` or `asktrans` has let pass -/
structure Accepted (c : Customer) (type : ℕ) (uid amt : ℤ) (bf : BankFile) : Prop where
  kind : type = TR_XFER ∨ type = TR_GIFT ∨ type = TR_FINE
  nonneg : 0 ≤ uid
  other : uid ≠ c.myuid
  positive : 0 < amt
  isLong : IsLong amt
  covered : type = TR_XFER → ∃ mybal, balance bf c.myuid 0 = (0, mybal) ∧ amt ≤ mybal

/-- everything that reads the record of a uid reads this balance -/
def DecodesTo (bf : BankFile) (uid b : ℤ) : Prop := balance bf uid 0 = (0, b) ∧ listallBal (record bf uid) = b

/-- nothing overflows, and the records decode to the old balances and the amount -/
def Exact (c : Customer) (type : ℕ) (uid amt : ℤ) (bf : BankFile) : Prop :=
  ∃ bf', dotrans64 c type uid amt bf = some bf' ∧ DecodesTo bf' uid (oldbalance bf uid + share type amt) ∧
    (type = TR_XFER → DecodesTo bf' c.myuid (oldbalance bf c.myuid - amt))

theorem decodesTo_openRecord {bf : BankFile} {uid b : ℤ} (h : record bf uid = openRecord b) :
    DecodesTo bf uid b ↔ 0 ≤ b := by
  rw [DecodesTo, balance_open h, h, listallBal, sub_one_tdiv_openRecord, truncated]
  split_ifs with hneg
  · simp
    omega
  · simp [not_lt.1 hneg]

/-- `addbalance` starts from what `balance` answers -/
theorem oldbalance_of_balance {bf : BankFile} {uid b : ℤ} (h : balance bf uid 0 = (0, b)) :
    0 ≤ uid ∧ oldbalance bf uid = b := by
  rcases balance_cases bf uid 0 with ⟨hopen, hb⟩ | ⟨-, hb⟩ | ⟨-, -, hb⟩
  · rw [h] at hb
    cases hb
    exact ⟨nonneg_of_isOpen hopen, by rw [oldbalance_eq, if_pos hopen]⟩
  · rw [h] at hb
    cases hb
  · rw [h] at hb
    cases hb

theorem oldbalance_congr {bf bf' : BankFile} {uid : ℤ} (h : record bf' uid = record bf uid) :
    oldbalance bf' uid = oldbalance bf uid := by
  rw [oldbalance_eq, oldbalance_eq, h]

/-- one half of a transaction is recorded exactly if the new balance can be stored and is not negative -/
theorem addbalance64_exact_iff (f : LongFile) {bf bf' : BankFile} {uid bal : ℤ} (huid : 0 ≤ uid)
    (hsame : record bf uid = record f.bf uid) :
    (addbalance64 bf uid bal = some bf' ∧ DecodesTo bf' uid (oldbalance f.bf uid + bal)) ↔
      bf' = addbalance bf uid bal ∧ 0 ≤ oldbalance f.bf uid + bal ∧ oldbalance f.bf uid + bal < 2 ^ 62 := by
  have hold := oldbalance_congr hsame
  have hrec : record (addbalance bf uid bal) uid = openRecord (oldbalance f.bf uid + bal) := by
    rw [record_addbalance, if_pos ⟨rfl, huid⟩, hold, add_comm]
  rw [addbalance64_eq_some huid, hold, add_comm bal]
  refine ⟨?_, ?_⟩
  · intro h
    rcases h with ⟨⟨hstorable, rfl⟩, hdec⟩
    exact ⟨rfl, (decodesTo_openRecord hrec).1 hdec, hstorable.2⟩
  · intro h
    rcases h with ⟨rfl, hnonneg, hlt⟩
    refine ⟨⟨⟨?_, hlt⟩, rfl⟩, (decodesTo_openRecord hrec).2 hnonneg⟩
    linarith [show (0 : ℤ) ≤ 2 ^ 62 by norm_num]

/-- **Exact transactions.** A transaction that has been accepted is recorded without an overflow, and read as the sum,
if and only if the new balance of the other customer is not negative and below 2 ^ 62. -/
theorem exact_iff (f : LongFile) (c : Customer) (type : ℕ) (uid amt : ℤ) (h : Accepted c type uid amt f.bf) :
    Exact c type uid amt f.bf ↔
      0 ≤ oldbalance f.bf uid + share type amt ∧ oldbalance f.bf uid + share type amt < 2 ^ 62 := by
  unfold Exact dotrans64
  by_cases hxfer : type = TR_XFER
  · obtain ⟨mybal, hbal, hcovered⟩ := h.covered hxfer
    obtain ⟨hmyuid, hold⟩ := oldbalance_of_balance hbal
    -- the customer's own half is always exact
    have hmax := (storable_oldbalance f c.myuid).2
    have hpos := h.positive
    rw [hold] at hmax
    have hrange : 0 ≤ oldbalance f.bf c.myuid + -amt ∧ oldbalance f.bf c.myuid + -amt < 2 ^ 62 := by
      rw [hold]
      omega
    obtain ⟨hmine, -⟩ := (addbalance64_exact_iff f hmyuid rfl).2 ⟨rfl, hrange⟩
    set bf₁ := addbalance f.bf c.myuid (-amt) with hbf₁
    have hrec₁ : record bf₁ c.myuid = openRecord (oldbalance f.bf c.myuid - amt) := by
      rw [hbf₁, record_addbalance, if_pos ⟨rfl, hmyuid⟩, sub_eq_neg_add]
    have hsame : record bf₁ uid = record f.bf uid := by
      rw [hbf₁, record_addbalance, if_neg fun h' => h.other h'.1]
    have hkept : ∀ bf', bf' = addbalance bf₁ uid (share type amt) →
        DecodesTo bf' c.myuid (oldbalance f.bf c.myuid - amt) := by
      rintro - rfl
      refine (decodesTo_openRecord ?_).2 (by rw [sub_eq_add_neg]; exact hrange.1)
      rw [record_addbalance, if_neg fun h' => h.other h'.1.symm, hrec₁]
    rw [if_pos hxfer, hmine, Option.bind_eq_bind, Option.bind_some]
    refine ⟨?_, fun hother => ?_⟩
    · intro hcase
      rcases hcase with ⟨bf', hdone, hdec, -⟩
      exact ((addbalance64_exact_iff f h.nonneg hsame).1 ⟨hdone, hdec⟩).2
    · obtain ⟨hdone, hdec⟩ := (addbalance64_exact_iff f h.nonneg hsame).2 ⟨rfl, hother⟩
      exact ⟨_, hdone, hdec, fun _ => hkept _ rfl⟩
  · rw [if_neg hxfer, Option.bind_eq_bind, Option.bind_some]
    refine ⟨?_, fun hother => ?_⟩
    · intro hcase
      rcases hcase with ⟨bf', hdone, hdec, -⟩
      exact ((addbalance64_exact_iff f h.nonneg rfl).1 ⟨hdone, hdec⟩).2
    · obtain ⟨hdone, hdec⟩ := (addbalance64_exact_iff f h.nonneg rfl).2 ⟨rfl, hother⟩
      exact ⟨_, hdone, hdec, fun hx => absurd hx hxfer⟩

def noAccounts : LongFile := ⟨[], by simp⟩

def midas : Customer := ⟨1, ['m'], true, false, 0⟩

theorem accepted_gift {amt : ℤ} (hpos : 0 < amt) (hlong : IsLong amt) : Accepted midas TR_GIFT 5 amt noAccounts.bf :=
  ⟨Or.inr (Or.inl rfl), by norm_num, by decide, hpos, hlong, fun h => absurd h (by decide)⟩

theorem exact_gift : Exact midas TR_GIFT 5 7 noAccounts.bf :=
  (exact_iff noAccounts midas TR_GIFT 5 7 (accepted_gift (by norm_num) (by decide))).2 (by decide)

/-- **A gift that overflows.** 2 ^ 62 gribblies are a positive long, and with the initial deposit they are too many. -/
theorem huge_gift : Accepted midas TR_GIFT 5 (2 ^ 62) noAccounts.bf ∧
    dotrans64 midas TR_GIFT 5 (2 ^ 62) noAccounts.bf = none ∧ ¬ Exact midas TR_GIFT 5 (2 ^ 62) noAccounts.bf := by
  have hnone : dotrans64 midas TR_GIFT 5 (2 ^ 62) noAccounts.bf = none := by decide
  refine ⟨accepted_gift (by norm_num) (by decide), hnone, ?_⟩
  intro h
  rcases h with ⟨bf', hdone, -⟩
  rw [hnone] at hdone
  cases hdone

end MNetSoft.Bank
