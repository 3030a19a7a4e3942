/-
The opening delay: a run of operations by customers who are not bankers (visits and command line transfers, one after
the other, on any uids and at any times). An account that was not open may become open in an operation only if it was
pending, with an opening date not later than the time of that operation (`OpensOnTime`).

Four places open accounts. `checkme` applies the date test. In `asktrans` the test reads `hisbal < tm`, so a recipient
whose date has passed is turned away and one whose date has not come is opened on the spot. `parsetrans` does not
look at the recipient at all, and the `addbalance` in `dotrans` opens his account whatever its state.

- `opensOnTime_iff`: one operation opens accounts on time if and only if it is not one of these two (`OpensEarly`).
- `opening_delay_iff`: so does a whole run, if and only if none of its operations is.
- `early_opening`: two operations, the first of which applies for an account and the second of which opens it.
-/
import Mathlib.Tactic
import MNetSoft.Bank.Customer

namespace MNetSoft.Bank

open MNetSoft.CString MNetSoft.Proc

/-! ## Operations -/

/-- a customer who is not a banker -/
structure NonBanker extends Customer where
  notBanker : banker = false

/-- what a customer can do: a visit (`checkme`, then perhaps `asktrans`), or `bank -t` (`-b` and `-f` are refused) -/
inductive CustomerOp where
  | visit (c : NonBanker) (v : Visit)
  | cmdline (c : NonBanker) (type : ℕ) (a : Args) (ch : Char) (now : ℕ)

namespace CustomerOp

def session : CustomerOp → Session Unit
  | .visit c v => Bank.visit c.toCustomer v
  | .cmdline c type a ch now => parsetrans c.toCustomer type a ch now

/-- the time of the operation -/
def tm : CustomerOp → ℕ
  | .visit c _ => c.tm
  | .cmdline c _ _ _ _ => c.tm

end CustomerOp

/-- run one operation to its end -/
def afterOp (w : Files) (op : CustomerOp) : Files := (exec files op.session w).1

abbrev opStep (w : Files) (op : CustomerOp) : Option Files := some (afterOp w op)

/-- an account record turns open only if it was pending with an opening date not later than `tm` -/
def OnTime (tm : ℕ) (bf bf' : BankFile) : Prop :=
  ∀ uid, ¬ IsOpen (record bf uid) → IsOpen (record bf' uid) → record bf uid ≠ 0 ∧ record bf uid ≤ tm

def OpensOnTime (w : Files) (op : CustomerOp) : Prop := OnTime op.tm w.bf (afterOp w op).bf

/-! ## The two operations that open early -/

/-- `checkme` lets the owner of this record in: it is open, or its date has come -/
def Ripe (r : ℤ) (tm : ℕ) : Prop := IsOpen r ∨ (r ≠ 0 ∧ r ≤ tm)

/-- what `checkme` then returns -/
def mybalOf (r : ℤ) : ℤ := if IsOpen r then r.tdiv 2 else INITBALANCE

/-- the visit gets to `asktrans`, and the recipient it names is pending and his date has not come -/
def AsksEarly (bf : BankFile) (c : Customer) (v : Visit) : Prop :=
  Ripe (record bf c.myuid) c.tm ∧ c.report = false ∧ 0 < mybalOf (record bf c.myuid) ∧ v.declines = false ∧
    v.answers.hisuid ≠ c.myuid ∧ record bf v.answers.hisuid ≠ 0 ∧ ¬ Ripe (record bf v.answers.hisuid) c.tm

/-- the transfer is made, and the recipient named on the command line has no account or his date has not come -/
def SendsEarly (bf : BankFile) (c : Customer) (type : ℕ) (a : Args) : Prop :=
  type = TR_XFER ∧ 4 ≤ a.argc ∧ a.argc ≤ 5 ∧ 0 < a.amt ∧ Ripe (record bf c.myuid) c.tm ∧
    a.amt ≤ mybalOf (record bf c.myuid) ∧
    ∃ uid ∈ a.who, uid ≠ c.myuid ∧ 0 ≤ uid ∧ ¬ Ripe (record bf uid) c.tm

def OpensEarly (w : Files) : CustomerOp → Prop
  | .visit c v => AsksEarly w.bf c.toCustomer v
  | .cmdline c type a _ _ => SendsEarly w.bf c.toCustomer type a

/-! ## Which accounts a call opens -/

theorem isOpen_addbalance (bf : BankFile) (uid bal u : ℤ) :
    IsOpen (record (addbalance bf uid bal) u) ↔ IsOpen (record bf u) ∨ (u = uid ∧ 0 ≤ uid) := by
  rw [record_addbalance]
  split_ifs with h
  · exact iff_of_true (isOpen_openRecord _) (Or.inr h)
  · exact ⟨Or.inl, fun ho => ho.resolve_right h⟩

theorem isOpen_openaccount {bf : BankFile} {uid u : ℤ} {now : ℕ} (h : IsOpen (record (openaccount bf uid now) u)) :
    IsOpen (record bf u) := by
  obtain ⟨date, hdate, -, hrec⟩ := record_openaccount bf uid now
  rw [hrec] at h
  split_ifs at h
  · exact absurd h (not_isOpen_of_even hdate)
  · exact h

theorem isOpen_transBalances (c : Customer) (type : ℕ) (uid amt : ℤ) (bf : BankFile) (u : ℤ) :
    IsOpen (record (transBalances c type uid amt bf) u) ↔
      IsOpen (record bf u) ∨ (type = TR_XFER ∧ u = c.myuid ∧ 0 ≤ c.myuid) ∨ (u = uid ∧ 0 ≤ uid) := by
  unfold transBalances
  rw [isOpen_addbalance]
  split_ifs with hx
  · rw [isOpen_addbalance]
    tauto
  · tauto

/-! ## What `checkme` does -/

/-- **`checkme` for a customer.** If his account is open or its date has come, it returns his balance and has opened at
most his own account; otherwise it ends the program and has opened none. -/
theorem checkme_cases (c : NonBanker) (ch : Char) (now : ℕ) (w : Files) :
    (Ripe (record w.bf c.myuid) c.tm ∧ ∃ bf, exec files (checkme c.toCustomer ch now) w =
        (⟨bf, w.tf⟩, some (mybalOf (record w.bf c.myuid))) ∧ IsOpen (record bf c.myuid) ∧
        ∀ u, u ≠ c.myuid → record bf u = record w.bf u) ∨
      (¬ Ripe (record w.bf c.myuid) c.tm ∧ ∃ bf, exec files (checkme c.toCustomer ch now) w = (⟨bf, w.tf⟩, none) ∧
        ∀ u, IsOpen (record bf u) → IsOpen (record w.bf u)) := by
  have hnb := c.notBanker
  unfold checkme
  simp only [Prog.bind_eq, exec_doBalance, hnb]
  rcases balance_cases w.bf c.myuid 0 with ⟨hopen, hb⟩ | ⟨hzero, hb⟩ | ⟨hclosed, hne, hb⟩
  · -- open
    left
    refine ⟨Or.inl hopen, w.bf, ?_, hopen, fun u _ => rfl⟩
    simp [hb, mybalOf, hopen]
  · -- no account: at most an application is made
    right
    refine ⟨?_, ?_⟩
    · intro hripe
      rcases hripe with ho | ⟨hr, -⟩
      · rw [hzero] at ho
        exact not_isOpen_zero ho
      · exact hr hzero
    · simp only [hb, if_true, Bool.false_eq_true, if_false]
      split_ifs
      · exact ⟨w.bf, rfl, fun u hu => hu⟩
      · exact ⟨w.bf, rfl, fun u hu => hu⟩
      · exact ⟨openaccount w.bf c.myuid now, rfl, fun u hu => isOpen_openaccount hu⟩
  · by_cases hdate : (c.tm : ℤ) < record w.bf c.myuid
    · -- pending, and too early
      right
      refine ⟨?_, w.bf, ?_, fun u hu => hu⟩
      · intro hripe
        rcases hripe with ho | ⟨-, hr⟩
        · exact hclosed ho
        · omega
      · simp [hb, hdate]
    · -- pending, and time is up
      left
      have hnonneg : 0 ≤ c.myuid := by
        by_contra hneg
        exact hne (record_of_neg (by omega))
      refine ⟨Or.inr ⟨hne, by omega⟩, addbalance w.bf c.myuid 0, ?_, ?_, ?_⟩
      · simp [hb, hdate, mybalOf, hclosed]
      · exact (isOpen_addbalance _ _ _ _).2 (Or.inr ⟨rfl, hnonneg⟩)
      · intro u hu
        rw [record_addbalance, if_neg fun h => hu h.1]

/-! ## What the rest of an operation opens -/

/-- once both accounts are open, paying opens none and closes none -/
theorem isOpen_askamount (c : Customer) (mybal : ℤ) (a : Answers) (w : Files) (hme : IsOpen (record w.bf c.myuid))
    (hhim : IsOpen (record w.bf a.hisuid)) (u : ℤ) :
    IsOpen (record (exec files (askamount c TR_XFER mybal a) w).1.bf u) ↔ IsOpen (record w.bf u) := by
  unfold askamount
  split_ifs
  · exact Iff.rfl
  · exact Iff.rfl
  · rw [exec_dotrans, isOpen_transBalances]
    refine ⟨fun hopen => ?_, Or.inl⟩
    rcases hopen with hu | ⟨-, rfl, -⟩ | ⟨rfl, -⟩
    · exact hu
    · exact hme
    · exact hhim

/-- **`asktrans` for a customer whose account is open.** It opens the recipient's account if that is pending with a date
that has not passed, and otherwise none. -/
theorem asktrans_cases (c : NonBanker) (mybal : ℤ) (a : Answers) (w : Files) (hme : IsOpen (record w.bf c.myuid)) :
    ((a.hisuid = c.myuid ∨ record w.bf a.hisuid = 0 ∨ Ripe (record w.bf a.hisuid) c.tm) ∧
        ∀ u, IsOpen (record (exec files (asktrans c.toCustomer TR_XFER mybal a) w).1.bf u) → IsOpen (record w.bf u)) ∨
      (a.hisuid ≠ c.myuid ∧ record w.bf a.hisuid ≠ 0 ∧
        ∀ u, IsOpen (record (exec files (asktrans c.toCustomer TR_XFER mybal a) w).1.bf u) ↔
          IsOpen (record w.bf u) ∨ u = a.hisuid) := by
  have hnb := c.notBanker
  unfold asktrans
  by_cases hneg : a.hisuid < 0
  · left
    rw [if_pos hneg]
    exact ⟨Or.inr (Or.inl (record_of_neg hneg)), fun u hu => hu⟩
  rw [if_neg hneg]
  by_cases hself : a.hisuid = c.myuid
  · left
    rw [if_pos hself]
    exact ⟨Or.inl hself, fun u hu => hu⟩
  rw [if_neg hself]
  simp only [Prog.bind_eq, exec_doBalance, hnb]
  rcases balance_cases w.bf a.hisuid 0 with ⟨hopen, hb⟩ | ⟨hzero, hb⟩ | ⟨hclosed, hne, hb⟩
  · -- open
    left
    refine ⟨Or.inr (Or.inr (Or.inl hopen)), fun u => ?_⟩
    simp only [hb]
    exact (isOpen_askamount c.toCustomer mybal a w hme hopen u).1
  · -- no account: one is applied for
    left
    refine ⟨Or.inr (Or.inl hzero), fun u hu => ?_⟩
    simp only [hb, if_true, Bool.false_eq_true, not_false_eq_true] at hu
    exact isOpen_openaccount hu
  · by_cases hdate : record w.bf a.hisuid < c.tm
    · -- pending, and turned away although time is up
      left
      refine ⟨Or.inr (Or.inr (Or.inr ⟨hne, by omega⟩)), fun u hu => ?_⟩
      simpa [hb, hdate] using hu
    · -- pending, and opened
      right
      refine ⟨hself, hne, fun u => ?_⟩
      have hme' : IsOpen (record (addbalance w.bf a.hisuid 0) c.myuid) :=
        (isOpen_addbalance _ _ _ _).2 (Or.inl hme)
      have hhim' : IsOpen (record (addbalance w.bf a.hisuid 0) a.hisuid) :=
        (isOpen_addbalance _ _ _ _).2 (Or.inr ⟨rfl, by omega⟩)
      have hpay := isOpen_askamount c.toCustomer mybal a ⟨addbalance w.bf a.hisuid 0, w.tf⟩ hme' hhim' u
      have htwo : ¬ (2 : ℕ) = 1 := by decide
      simp only [hb, hdate, htwo, and_false, if_false, if_true, exec_doAddbalance]
      rw [hpay, isOpen_addbalance]
      exact or_congr_right (and_iff_left (by omega))

/-- an operation that opens its own customer's account and one other opens on time if the other's date has come -/
theorem onTime_iff {tm : ℕ} {bf bf' : BankFile} {me him : ℤ} (hme : Ripe (record bf me) tm)
    (hnew : ∀ u, IsOpen (record bf' u) → IsOpen (record bf u) ∨ u = me ∨ u = him) (hhim : IsOpen (record bf' him)) :
    OnTime tm bf bf' ↔ Ripe (record bf him) tm := by
  refine ⟨?_, ?_⟩
  · intro h
    by_cases ho : IsOpen (record bf him)
    · exact Or.inl ho
    · exact Or.inr (h him ho hhim)
  · intro h u hclosed hopen
    rcases hnew u hopen with ho | rfl | rfl
    · exact absurd ho hclosed
    · exact hme.resolve_left hclosed
    · exact h.resolve_left hclosed

/-- an operation that opens at most its own customer's account opens on time -/
theorem onTime_own {tm : ℕ} {bf bf' : BankFile} {me : ℤ} (hme : Ripe (record bf me) tm)
    (hnew : ∀ u, IsOpen (record bf' u) → IsOpen (record bf u) ∨ u = me) : OnTime tm bf bf' := by
  intro u hclosed hopen
  rcases hnew u hopen with ho | rfl
  · exact absurd ho hclosed
  · exact hme.resolve_left hclosed

/-- where only one record has changed, no other account has been opened -/
theorem opens_own {bf bf' : BankFile} {me : ℤ} (hrest : ∀ u, u ≠ me → record bf' u = record bf u) :
    ∀ u, IsOpen (record bf' u) → IsOpen (record bf u) ∨ u = me := by
  intro u hu
  by_cases hum : u = me
  · exact Or.inr hum
  · rw [hrest u hum] at hu
    exact Or.inl hu

/-! ## One operation, and a run -/

/-- a visit from where `checkme` returns -/
theorem afterOp_visit (c : NonBanker) (v : Visit) {w : Files} {bf : BankFile} {mybal : ℤ}
    (hexec : exec files (checkme c.toCustomer v.ch v.now) w = (⟨bf, w.tf⟩, some mybal)) :
    afterOp w (.visit c v) =
      if c.report = false ∧ 0 < mybal ∧ v.declines = false then
        (exec files (asktrans c.toCustomer TR_XFER mybal v.answers) ⟨bf, (scantrans w.tf c.myuid).1⟩).1
      else ⟨bf, (scantrans w.tf c.myuid).1⟩ := by
  simp only [afterOp, CustomerOp.session, Bank.visit, Prog.bind_eq]
  rw [exec_bind, hexec, andThen_some, exec_doScantrans]
  simp only [c.notBanker, Bool.false_eq_true, if_false]
  cases c.report with
  | true => rfl
  | false =>
    by_cases hasks : 0 < mybal ∧ v.declines = false
    · simp [hasks]
    · simp only [Bool.false_eq_true, if_false, true_and, Bool.not_eq_true, if_neg hasks]
      rfl

/-- `asktrans` after `checkme`: only a recipient who is pending, and whose date has not come, is opened too early -/
theorem asks_onTime_iff (c : NonBanker) (mybal : ℤ) (a : Answers) {w : Files} {bf : BankFile} (tf : TransFile)
    (hripe : Ripe (record w.bf c.myuid) c.tm) (hme : IsOpen (record bf c.myuid))
    (hrest : ∀ u, u ≠ c.myuid → record bf u = record w.bf u) :
    OnTime c.tm w.bf (exec files (asktrans c.toCustomer TR_XFER mybal a) ⟨bf, tf⟩).1.bf ↔
      ¬ (a.hisuid ≠ c.myuid ∧ record w.bf a.hisuid ≠ 0 ∧ ¬ Ripe (record w.bf a.hisuid) c.tm) := by
  have hown := opens_own hrest
  rcases asktrans_cases c mybal a ⟨bf, tf⟩ hme with ⟨hwhy, hnew⟩ | ⟨hself, hne, hnew⟩
  · refine iff_of_true (onTime_own hripe fun u hu => hown u (hnew u hu)) fun h => ?_
    obtain ⟨hself, hne, hearly⟩ := h
    rw [← hrest _ hself] at hne hearly
    rcases hwhy with hwhy | hwhy | hwhy
    · exact hself hwhy
    · exact hne hwhy
    · exact hearly hwhy
  · have hnew' : ∀ u, IsOpen (record (exec files (asktrans c.toCustomer TR_XFER mybal a) ⟨bf, tf⟩).1.bf u) →
        IsOpen (record w.bf u) ∨ u = c.myuid ∨ u = a.hisuid := by
      intro u hu
      rcases (hnew u).1 hu with hu | hu
      · exact (hown u hu).imp_right Or.inl
      · exact Or.inr (Or.inr hu)
    rw [hrest _ hself] at hne
    rw [onTime_iff hripe hnew' ((hnew a.hisuid).2 (Or.inr rfl))]
    refine ⟨fun h hearly => hearly.2.2 h, fun h => ?_⟩
    by_contra hearly
    exact h ⟨hself, hne, hearly⟩

theorem visit_onTime_iff (c : NonBanker) (v : Visit) (w : Files) :
    OpensOnTime w (.visit c v) ↔ ¬ AsksEarly w.bf c.toCustomer v := by
  unfold OpensOnTime AsksEarly
  rcases checkme_cases c v.ch v.now w with ⟨hripe, bf, hexec, hme, hrest⟩ | ⟨hnot, bf, hexec, hclosed⟩
  · rw [afterOp_visit c v hexec]
    split_ifs with hasks
    · have hiff := asks_onTime_iff c (mybalOf (record w.bf c.myuid))
        v.answers (scantrans w.tf c.myuid).1 hripe hme hrest
      refine hiff.trans (not_congr ?_)
      exact ⟨fun h => ⟨hripe, hasks.1, hasks.2.1, hasks.2.2, h⟩, fun h => h.2.2.2.2⟩
    · refine iff_of_true (onTime_own hripe (opens_own hrest)) fun h => ?_
      exact hasks ⟨h.2.1, h.2.2.1, h.2.2.2.1⟩
  · have hafter : (afterOp w (.visit c v)).bf = bf := by
      simp only [afterOp, CustomerOp.session, Bank.visit, Prog.bind_eq, exec_bind, hexec, andThen_none]
    rw [hafter]
    exact iff_of_true (fun u hc ho => absurd (hclosed u ho) hc) fun h => hnot h.1

theorem onTime_refl (tm : ℕ) (bf : BankFile) : OnTime tm bf bf := fun _ hclosed hopen => absurd hopen hclosed

/-- the arguments of a command line transfer that `parsetrans` accepts before it looks at the account -/
def GoodArgs (type : ℕ) (a : Args) : Prop :=
  type = TR_XFER ∧ 4 ≤ a.argc ∧ a.argc ≤ 5 ∧ a.who.isSome ∧ 0 < a.amt

theorem parsetrans_refuses (c : NonBanker) {type : ℕ} {a : Args} (ch : Char) (now : ℕ) (h : ¬ GoodArgs type a) :
    parsetrans c.toCustomer type a ch now = .ret () := by
  have hnb : ¬ c.banker = true := by rw [c.notBanker]; exact Bool.false_ne_true
  unfold parsetrans
  by_cases h1 : type ≠ TR_XFER ∧ ¬ c.banker = true
  · rw [if_pos h1]
    rfl
  rw [if_neg h1]
  by_cases h2 : a.argc < 4 ∨ 5 < a.argc
  · rw [if_pos h2]
    rfl
  rw [if_neg h2]
  cases hwho : a.who with
  | none => rfl
  | some uid =>
    have hle : a.amt ≤ 0 := by
      by_contra hpos
      exact h ⟨not_not.1 fun hx => h1 ⟨hx, hnb⟩, by omega, by omega, by rw [hwho]; rfl, by omega⟩
    simp only [hle, if_true]
    rfl

theorem parsetrans_accepts (c : NonBanker) {a : Args} (ch : Char) (now : ℕ) {uid : ℤ} (h : GoodArgs TR_XFER a)
    (hwho : a.who = some uid) :
    parsetrans c.toCustomer TR_XFER a ch now = (checkme c.toCustomer ch now).bind fun mybal =>
      if mybal < a.amt then .ret ()
      else if c.myuid = uid then .ret ()
      else dotrans c.toCustomer TR_XFER uid a.amt (if a.argc = 4 then [] else a.reason) := by
  obtain ⟨-, hlo, hhi, -, hamt⟩ := h
  simp [parsetrans, hwho, not_lt.2 hlo, not_lt.2 hhi, not_le.2 hamt]

/-- a command line transfer from where `checkme` returns -/
theorem afterOp_cmdline (c : NonBanker) {a : Args} {ch : Char} {now : ℕ} {uid mybal : ℤ} {w : Files} {bf : BankFile}
    (h : GoodArgs TR_XFER a) (hwho : a.who = some uid)
    (hexec : exec files (checkme c.toCustomer ch now) w = (⟨bf, w.tf⟩, some mybal)) :
    (afterOp w (.cmdline c TR_XFER a ch now)).bf =
      if a.amt ≤ mybal ∧ uid ≠ c.myuid then transBalances c.toCustomer TR_XFER uid a.amt bf else bf := by
  have hafter : afterOp w (.cmdline c TR_XFER a ch now) = _ :=
    congrArg (fun p => (exec files p w).1) (parsetrans_accepts c ch now h hwho)
  rw [hafter, exec_bind, hexec, andThen_some]
  by_cases hfunds : mybal < a.amt
  · rw [if_pos hfunds, if_neg fun h => absurd hfunds (not_lt.2 h.1)]
    rfl
  rw [if_neg hfunds]
  by_cases hself : c.myuid = uid
  · rw [if_pos hself, if_neg fun h => h.2 hself.symm]
    rfl
  have hsends : a.amt ≤ mybal ∧ uid ≠ c.myuid := ⟨not_lt.1 hfunds, Ne.symm hself⟩
  rw [if_neg hself, exec_dotrans, if_pos hsends]

/-- a transfer after `checkme`: any recipient whose account is not open, or may not be opened, is opened too early -/
theorem pays_onTime_iff (c : NonBanker) (uid amt : ℤ) {w : Files} {bf : BankFile}
    (hripe : Ripe (record w.bf c.myuid) c.tm) (hrest : ∀ u, u ≠ c.myuid → record bf u = record w.bf u) :
    OnTime c.tm w.bf (transBalances c.toCustomer TR_XFER uid amt bf) ↔ ¬ (0 ≤ uid ∧ ¬ Ripe (record w.bf uid) c.tm) := by
  have hnew : ∀ u, IsOpen (record (transBalances c.toCustomer TR_XFER uid amt bf) u) →
      IsOpen (record w.bf u) ∨ u = c.myuid ∨ (u = uid ∧ 0 ≤ uid) := by
    intro u hu
    rcases (isOpen_transBalances _ _ _ _ _ _).1 hu with h | ⟨-, h, -⟩ | h
    · exact (opens_own hrest u h).imp_right Or.inl
    · exact Or.inr (Or.inl h)
    · exact Or.inr (Or.inr h)
  by_cases huid : 0 ≤ uid
  · have hhim : IsOpen (record (transBalances c.toCustomer TR_XFER uid amt bf) uid) :=
      (isOpen_transBalances _ _ _ _ _ _).2 (Or.inr (Or.inr ⟨rfl, huid⟩))
    rw [onTime_iff hripe (fun u hu => (hnew u hu).imp_right (Or.imp_right And.left)) hhim]
    refine ⟨fun h hearly => hearly.2 h, fun h => ?_⟩
    by_contra hearly
    exact h ⟨huid, hearly⟩
  · -- a uid that has no record
    refine iff_of_true (onTime_own hripe fun u hu => ?_) fun h => huid h.1
    exact (hnew u hu).imp_right fun h => h.resolve_right fun h => huid h.2

theorem cmdline_onTime_iff (c : NonBanker) (type : ℕ) (a : Args) (ch : Char) (now : ℕ) (w : Files) :
    OpensOnTime w (.cmdline c type a ch now) ↔ ¬ SendsEarly w.bf c.toCustomer type a := by
  unfold OpensOnTime SendsEarly
  by_cases hargs : GoodArgs type a
  · obtain ⟨rfl, hlo, hhi, hwho, hamt⟩ := id hargs
    obtain ⟨uid, huid⟩ := Option.isSome_iff_exists.1 hwho
    rcases checkme_cases c ch now w with ⟨hripe, bf, hexec, -, hrest⟩ | ⟨hnot, bf, hexec, hclosed⟩
    · rw [afterOp_cmdline c hargs huid hexec, huid]
      split_ifs with hsends
      · refine (pays_onTime_iff c uid a.amt hripe hrest).trans (not_congr ⟨fun h => ?_, fun h => ?_⟩)
        · exact ⟨rfl, hlo, hhi, hamt, hripe, hsends.1, uid, rfl, hsends.2, h⟩
        · obtain ⟨-, -, -, -, -, -, u, hu, -, hearly⟩ := h
          cases hu
          exact hearly
      · refine iff_of_true (onTime_own hripe (opens_own hrest)) fun h => ?_
        obtain ⟨-, -, -, -, -, hle, u, hu, hne, -⟩ := h
        cases hu
        exact hsends ⟨hle, hne⟩
    · have hafter : (afterOp w (.cmdline c TR_XFER a ch now)).bf = bf := by
        simp only [afterOp, CustomerOp.session, parsetrans_accepts c ch now hargs huid, exec_bind, hexec, andThen_none]
      rw [hafter]
      exact iff_of_true (fun u hc ho => absurd (hclosed u ho) hc) fun h => hnot h.2.2.2.2.1
  · have hafter : afterOp w (.cmdline c type a ch now) = w :=
      congrArg (fun p => (exec files p w).1) (parsetrans_refuses c ch now hargs)
    rw [hafter]
    refine iff_of_true (onTime_refl _ _) fun h => ?_
    obtain ⟨hx, hlo, hhi, hamt, -, -, uid, huid, -⟩ := h
    exact hargs ⟨hx, hlo, hhi, by rw [Option.mem_def.1 huid]; rfl, hamt⟩

/-- **One operation** opens accounts on time if and only if it is not one of the two that open early -/
theorem opensOnTime_iff (w : Files) (op : CustomerOp) : OpensOnTime w op ↔ ¬ OpensEarly w op := by
  cases op with
  | visit c v => exact visit_onTime_iff c v w
  | cmdline c type a ch now => exact cmdline_onTime_iff c type a ch now w

/-- **Opening delay, exactly.** In a run of operations of non-bankers from any bank file, accounts turn open only when
they were pending and their date had come, if and only if no visit asks for a transfer to a pending account whose date
has not come, and no command line transfer goes to an account that is neither open nor due. -/
theorem opening_delay_iff (w : Files) (ops : List CustomerOp) :
    Runs.Along opStep OpensOnTime w ops ↔ Runs.Along opStep (fun v op => ¬ OpensEarly v op) w ops :=
  Runs.along_congr (I := fun _ => True) (fun _ _ _ _ _ => trivial) (fun v op _ _ _ => opensOnTime_iff v op) ops trivial

/-! ## Witness -/

/-- customer 5 at time 1000, and customer 6 -/
def carol : NonBanker := ⟨⟨5, ['c'], false, false, 1000⟩, rfl⟩

def dave : NonBanker := ⟨⟨6, ['d'], false, false, 1000⟩, rfl⟩

/-- customer 6 applies for an account; customer 5, who has one, then gives him a transfer in a visit -/
def earlyOps : List CustomerOp :=
  [.visit dave ⟨'y', 1000, true, ⟨-1, 0, [], 0⟩, []⟩, .visit carol ⟨'y', 1000, false, ⟨6, 1, [], 1000⟩, []⟩]

/-- **Opened a day early.** The account of customer 6 is to open at 87400; at time 1000 it is open. -/
theorem early_opening :
    record (afterOp ⟨[0, 0, 0, 0, 0, 21], ⟨[], 0⟩⟩ (.visit dave ⟨'y', 1000, true, ⟨-1, 0, [], 0⟩, []⟩)).bf 6 = 87400 ∧
      ¬ Runs.Along opStep OpensOnTime ⟨[0, 0, 0, 0, 0, 21], ⟨[], 0⟩⟩ earlyOps := by
  refine ⟨by decide, fun h => ?_⟩
  have hsecond := ((h _ rfl).2 _ rfl).1 6 (by decide) (by decide)
  exact absurd hsecond.2 (by decide)

end MNetSoft.Bank
