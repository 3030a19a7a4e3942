/-
A transfer whose locks and writes may fail. `dotrans(TR_XFER)` makes three locked updates in a row: the debit, the
credit and the transaction record. Each of them calls `setlock`, which may end the process, and `write`, whose result
nobody looks at: on a full disk nothing is written, or the first bytes only. Nothing undoes the updates before. The
signals ignored meanwhile (SIGINT, SIGQUIT) protect the three updates from the keyboard only.

The updates are those of the process `dotrans` (`dotrans_eq`). Each of them meets the next of the scripts of the world
(`Bank.Lock`) and the next number of bytes that `write` writes. The transaction file is its bytes (`Bank.TransBytes`).
- `afterTransfer_eq`: the files a transfer leaves behind, by how far its locks let it come.
- `transfer_atomic_iff`: exactly when a transfer between open accounts is all or nothing. A write that is cut short does
  no harm where the bytes that it leaves out were there before, or, if all three do so, where those that it writes were.
- `busy_payee`: the second lock fails, and the payer's money is gone.
-/
import Mathlib.Tactic
import MNetSoft.Bank.Lock
import MNetSoft.Bank.Customer
import MNetSoft.Bank.TransBytes

namespace MNetSoft.Bank

open MNetSoft.CString MNetSoft.Proc.Prog

/-! ## Writes that are cut short -/

/-- a record of the bank file, 8 bytes of which the lowest come first, when `n` bytes have been written over it -/
def cutLong (n : ℕ) (old bal : ℤ) : ℤ := if 8 ≤ n then bal else old / 256 ^ n * 256 ^ n + bal % 256 ^ n

/-- `writebalance` with a `write` of `n` bytes. A part of a record behind the end of the file is none. -/
def writeCut (n : ℕ) (bf : BankFile) (uid bal : ℤ) : BankFile :=
  match readLong bf uid with
  | some old => writebalance bf uid (cutLong n old bal)
  | none =>
    if n = 0 then bf
    else if n < 8 then bf ++ List.replicate (uid.toNat - bf.length) 0
    else writebalance bf uid bal

/-- `addbalance` with a `write` of `n` bytes -/
def addCut (n : ℕ) (bf : BankFile) (uid bal : ℤ) : BankFile :=
  if uid < 0 then bf else writeCut n bf uid ((bal + oldbalance bf uid) * 2 + 1)

def littleEndian : ℕ → ℤ → List UInt8
  | 0, _ => []
  | n + 1, v => UInt8.ofNat (v % 256).toNat :: littleEndian n (v / 256)

/-- an array of chars that has been set to 0 before -/
def padded (n : ℕ) (s : Str) : List UInt8 := ((s.map fun c => UInt8.ofNat c.toNat).take n).rightpad n 0

/-- the bytes of a transaction record -/
def recordBytes (tr : TransEnt) : List UInt8 :=
  littleEndian 4 tr.to_uid ++ [UInt8.ofNat tr.code] ++ padded 33 tr.fr_id ++ padded 40 tr.why ++ [0, 0] ++
    littleEndian 8 tr.amount

/-- where `transaction` puts a record -/
def freeSpot (file : List UInt8) : Option ℕ :=
  (TransBytes.skip (file.length + 1) file 0).map fun r => if r.1 ≠ 0 then r.2 - r.1 else r.2

/-- `transaction` with a `write` of `n` bytes -/
def transactionCut (n : ℕ) (file tr : List UInt8) : Option (List UInt8) :=
  (freeSpot file).map fun pos => if n = 0 then file else (TransBytes.write file pos (tr.take n)).1

/-! ## The updates of a transfer -/

structure Disk where
  bf : BankFile
  tf : List UInt8
deriving DecidableEq

/-- the files, what the coming calls of `setlock` meet, and how much the coming calls of `write` write -/
structure World where
  disk : Disk
  script : ℕ → LockScript
  written : ℕ → ℕ

inductive Update where
  | addbalance (uid bal : ℤ)
  | transaction (tr : TransEnt)
deriving DecidableEq

/-- the updates of `dotrans` -/
def updates (c : Customer) (type : ℕ) (uid amt : ℤ) (reason : Str) : List Update :=
  (if type = TR_XFER then [.addbalance c.myuid (-amt)] else []) ++
    [.addbalance uid (if type = TR_FINE then -amt else amt), .transaction (mkTrans c type uid amt reason)]

def makeAll : List Update → Session Unit
  | [] => pure ()
  | .addbalance uid bal :: us => do
    doAddbalance uid bal
    makeAll us
  | .transaction tr :: us => do
    doTransaction tr
    makeAll us

theorem dotrans_eq (c : Customer) (type : ℕ) (uid amt : ℤ) (reason : Str) :
    dotrans c type uid amt reason = makeAll (updates c type uid amt reason) := by
  unfold dotrans updates
  by_cases hx : type = TR_XFER
  · rw [if_pos hx, if_pos hx]
    rfl
  · rw [if_neg hx, if_neg hx]
    rfl

/-- call `setlock`, update the files and go on, or end the process -/
def World.withLock (w : World) (f : ℕ → Disk → Option Disk) (next : World → Option Disk) : Option Disk :=
  if (w.script 0).Granted then
    (f (w.written 0) w.disk).bind fun d => next ⟨d, fun n => w.script (n + 1), fun n => w.written (n + 1)⟩
  else some w.disk

/-- the files that the updates leave behind; `addbalance` returns before `setlock` where it cannot seek -/
def runAll : List Update → World → Option Disk
  | [], w => some w.disk
  | .addbalance uid bal :: us, w =>
    if uid < 0 then runAll us w else w.withLock (fun n d => some { d with bf := addCut n d.bf uid bal }) (runAll us)
  | .transaction tr :: us, w =>
    w.withLock (fun n d => (transactionCut n d.tf (recordBytes tr)).map fun tf => { d with tf := tf }) (runAll us)

/-- the files a transfer leaves behind, however it ends -/
def afterTransfer (c : Customer) (uid amt : ℤ) (reason : Str) (w : World) : Option Disk :=
  runAll (updates c TR_XFER uid amt reason) w

/-- **How far a transfer comes.** Every lock that fails ends it with the updates made so far. -/
theorem afterTransfer_eq (c : Customer) (uid amt : ℤ) (reason : Str) (w : World)
    (hmyuid : 0 ≤ c.myuid) (huid : 0 ≤ uid) :
    let debited := addCut (w.written 0) w.disk.bf c.myuid (-amt)
    let credited := addCut (w.written 1) debited uid amt
    afterTransfer c uid amt reason w =
      if ¬(w.script 0).Granted then some w.disk
      else if ¬(w.script 1).Granted then some ⟨debited, w.disk.tf⟩
      else if ¬(w.script 2).Granted then some ⟨credited, w.disk.tf⟩
      else (transactionCut (w.written 2) w.disk.tf (recordBytes (mkTrans c TR_XFER uid amt reason))).map fun tf =>
        ⟨credited, tf⟩ := by
  have hfine : (if TR_XFER = TR_FINE then -amt else amt) = amt := if_neg (by decide)
  have hupdates : updates c TR_XFER uid amt reason =
      [.addbalance c.myuid (-amt), .addbalance uid amt, .transaction (mkTrans c TR_XFER uid amt reason)] := by
    rw [updates, if_pos rfl, hfine]
    rfl
  dsimp only
  rw [afterTransfer, hupdates]
  simp only [runAll, if_neg (not_lt.2 hmyuid), if_neg (not_lt.2 huid), World.withLock, Option.bind_some, Nat.reduceAdd]
  by_cases h0 : (w.script 0).Granted
  case neg => rw [if_neg h0, if_pos h0]
  by_cases h1 : (w.script 1).Granted
  case neg => rw [if_pos h0, if_neg h1, if_neg (not_not.2 h0), if_pos h1]
  by_cases h2 : (w.script 2).Granted
  case neg => rw [if_pos h0, if_pos h1, if_neg h2, if_neg (not_not.2 h0), if_neg (not_not.2 h1), if_pos h2]
  rw [if_pos h0, if_pos h1, if_pos h2, if_neg (not_not.2 h0), if_neg (not_not.2 h1), if_neg (not_not.2 h2),
    Option.bind_fun_some]

/-! ## What a write that is cut short leaves -/

section Cut

variable {n : ℕ} {bf : BankFile} {uid bal : ℤ}

/-- the bytes that are not written were there before -/
def Lands (n : ℕ) (old bal : ℤ) : Prop := 8 ≤ n ∨ old / 256 ^ n = bal / 256 ^ n

/-- the bytes that are written were there before -/
def Idle (n : ℕ) (old bal : ℤ) : Prop := if 8 ≤ n then old = bal else old % 256 ^ n = bal % 256 ^ n

instance (n : ℕ) (old bal : ℤ) : Decidable (Lands n old bal) := by unfold Lands; infer_instance

instance (n : ℕ) (old bal : ℤ) : Decidable (Idle n old bal) := by unfold Idle; infer_instance

theorem cutLong_eq_new_iff (n : ℕ) (old bal : ℤ) : cutLong n old bal = bal ↔ Lands n old bal := by
  unfold cutLong Lands
  by_cases hn : 8 ≤ n
  · simp [hn]
  · have hpos : (256 ^ n : ℤ) ≠ 0 := pow_ne_zero n (by decide)
    have hsplit := Int.ediv_mul_add_emod bal (256 ^ n)
    rw [if_neg hn, or_iff_right hn]
    constructor
    · intro h
      refine mul_right_cancel₀ hpos ?_
      linarith
    · intro h
      rw [h]
      exact hsplit

theorem cutLong_eq_old_iff (n : ℕ) (old bal : ℤ) : cutLong n old bal = old ↔ Idle n old bal := by
  unfold cutLong Idle
  by_cases hn : 8 ≤ n
  · rw [if_pos hn, if_pos hn]
    exact eq_comm
  · have hsplit := Int.ediv_mul_add_emod old (256 ^ n)
    rw [if_neg hn, if_neg hn]
    constructor
    · intro h
      linarith
    · intro h
      rw [← h]
      exact hsplit

/-- where everything is written this is `addbalance` -/
theorem addCut_eq_addbalance (hn : 8 ≤ n) (bf : BankFile) (uid bal : ℤ) :
    addCut n bf uid bal = addbalance bf uid bal := by
  unfold addCut addbalance writeCut
  refine congrArg (fun after => if uid < 0 then bf else after) ?_
  cases readLong bf uid with
  | none =>
    dsimp only
    rw [if_neg (by omega), if_neg (by omega)]
  | some old =>
    dsimp only
    rw [cutLong, if_pos hn]

theorem readLong_of_isOpen (h : IsOpen (record bf uid)) : readLong bf uid = some (record bf uid) := by
  unfold record at h ⊢
  cases hread : readLong bf uid with
  | none =>
    rw [hread] at h
    exact absurd h not_isOpen_zero
  | some r => rfl

/-- the record of an open account after an `addbalance`; no other changes -/
theorem record_addCut (n : ℕ) (h : IsOpen (record bf uid)) (bal u : ℤ) :
    record (addCut n bf uid bal) u =
      if u = uid then cutLong n (record bf uid) (openRecord (bal + oldbalance bf uid)) else record bf u := by
  have huid := nonneg_of_isOpen h
  rw [addCut, if_neg (not_lt.2 huid), writeCut, readLong_of_isOpen h]
  dsimp only
  rw [record_writebalance]
  exact if_congr (and_iff_left huid) rfl rfl

theorem addCut_eq_self_iff (n : ℕ) (h : IsOpen (record bf uid)) (bal : ℤ) :
    addCut n bf uid bal = bf ↔ Idle n (record bf uid) (openRecord (bal + oldbalance bf uid)) := by
  rw [← cutLong_eq_old_iff]
  constructor
  · intro heq
    have hrec := record_addCut n h bal uid
    rw [heq, if_pos rfl] at hrec
    exact hrec.symm
  · intro heq
    have huid := nonneg_of_isOpen h
    have hread := readLong_of_isOpen h
    rw [addCut, if_neg (not_lt.2 huid), writeCut, hread]
    dsimp only
    rw [← openRecord, heq, writebalance, if_pos huid]
    rw [readLong, if_neg (not_lt.2 huid)] at hread
    exact Records.writeAt_eq_self 0 hread

end Cut

/-! ## The transaction record -/

section Record

variable {n : ℕ} {file tr : List UInt8} {pos : ℕ}

theorem length_littleEndian (n : ℕ) (v : ℤ) : (littleEndian n v).length = n := by
  induction n generalizing v with
  | zero => rfl
  | succ n ih => rw [littleEndian, List.length_cons, ih]

theorem length_padded (n : ℕ) (s : Str) : (padded n s).length = n := by
  rw [padded, List.length_rightpad, List.length_take]
  omega

theorem length_recordBytes (tr : TransEnt) : (recordBytes tr).length = TransBytes.SIZE := by
  simp [recordBytes, length_littleEndian, length_padded, TransBytes.SIZE]

/-- the code is read back -/
theorem code_recordBytes {tr : TransEnt} (h : tr.code < 256) : (TransBytes.entry (recordBytes tr)).code = tr.code := by
  have hfield : TransBytes.field (recordBytes tr) 4 1 = [UInt8.ofNat tr.code] := by
    unfold TransBytes.field recordBytes
    rw [List.append_assoc, List.append_assoc, List.append_assoc, List.append_assoc,
      List.drop_left' (length_littleEndian 4 tr.to_uid)]
    rfl
  have hbyte : (UInt8.ofNat tr.code).toNat = tr.code := UInt8.toNat_ofNat_of_lt h
  have hcode : (TransBytes.entry (recordBytes tr)).code = TransBytes.unsigned (TransBytes.field (recordBytes tr) 4 1) :=
    rfl
  rw [hcode, hfield, TransBytes.unsigned, List.map_singleton, Nat.ofDigits_singleton, hbyte]

/-- the bytes of the file where the record goes -/
def placeOf (file : List UInt8) (pos : ℕ) : List UInt8 := (file.drop pos).take TransBytes.SIZE

theorem freeSpot_spec (file : List UInt8) : ∃ pos, freeSpot file = some pos ∧ pos ≤ file.length ∧
    ∀ tr, TransBytes.transaction file tr = some (TransBytes.write file pos tr).1 := by
  obtain ⟨recs, tail, rfl, hrecs, htail⟩ := TransBytes.exists_slots file
  have hlen := TransBytes.length_flatten hrecs
  have hskip := @TransBytes.skip_eq [] tail recs ((recs.flatten ++ tail).length + 1) hrecs htail
    (by rw [List.length_append, hlen]; unfold TransBytes.SIZE; omega)
  have hle := firstFree_le (recs.map TransBytes.entry)
  rw [List.length_map] at hle
  dsimp only [List.length_nil] at hskip
  rw [List.nil_append, Nat.zero_add] at hskip
  refine ⟨TransBytes.SIZE * firstFree (recs.map TransBytes.entry), ?_, ?_, fun tr => ?_⟩
  · rw [freeSpot, hskip, Option.map_some]
    refine congrArg some ?_
    split_ifs <;> omega
  · rw [List.length_append, hlen]
    exact (Nat.mul_le_mul_left TransBytes.SIZE hle).trans (Nat.le_add_right _ _)
  · rw [TransBytes.transaction, hskip]
    refine congrArg (fun pos => some (TransBytes.write (recs.flatten ++ tail) pos tr).1) ?_
    split_ifs <;> omega

theorem length_placeOf_le (file : List UInt8) (pos : ℕ) : (placeOf file pos).length ≤ TransBytes.SIZE := by
  rw [placeOf, List.length_take]
  exact min_le_left ..

/-- the file before, at and behind the place -/
theorem append_placeOf (file : List UInt8) (pos : ℕ) :
    file.take pos ++ (placeOf file pos ++ file.drop (pos + TransBytes.SIZE)) = file := by
  rw [placeOf, ← List.drop_drop, List.take_append_drop, List.take_append_drop]

/-- only at the end of the file is the place smaller than a record -/
theorem placeOf_short (h : (placeOf file pos).length < TransBytes.SIZE) : file.drop (pos + TransBytes.SIZE) = [] := by
  rw [placeOf, List.length_take, List.length_drop] at h
  exact List.drop_eq_nil_of_le (by omega)

/-- a write within the file, cut short -/
theorem write_take (hpos : pos ≤ file.length) (n : ℕ) (htr : tr.length = TransBytes.SIZE) :
    (if n = 0 then file else (TransBytes.write file pos (tr.take n)).1) =
      file.take pos ++ (tr.take n ++ ((placeOf file pos).drop n ++ file.drop (pos + TransBytes.SIZE))) := by
  by_cases hn : n = 0
  · rw [if_pos hn, hn, List.take_zero, List.nil_append, List.drop_zero, append_placeOf]
  have hle := length_placeOf_le file pos
  have hlen : (file.take pos).length = pos := by rw [List.length_take, Nat.min_eq_left hpos]
  have hplace : (placeOf file pos).drop (min n TransBytes.SIZE) = (placeOf file pos).drop n := by
    rcases Nat.le_total n TransBytes.SIZE with hsmall | hlarge
    · rw [Nat.min_eq_left hsmall]
    · rw [Nat.min_eq_right hlarge, List.drop_eq_nil_of_le hle, List.drop_eq_nil_of_le (hle.trans hlarge)]
  have hrest : (file.drop (pos + TransBytes.SIZE)).drop (min n TransBytes.SIZE - (placeOf file pos).length) =
      file.drop (pos + TransBytes.SIZE) := by
    by_cases hshort : (placeOf file pos).length < TransBytes.SIZE
    · rw [placeOf_short hshort, List.drop_nil]
    · have hzero : min n TransBytes.SIZE - (placeOf file pos).length = 0 := by omega
      rw [hzero, List.drop_zero]
  have hbehind : file.drop (pos + min n TransBytes.SIZE) =
      (placeOf file pos).drop n ++ file.drop (pos + TransBytes.SIZE) := by
    calc file.drop (pos + min n TransBytes.SIZE)
      _ = (file.drop pos).drop (min n TransBytes.SIZE) := List.drop_drop.symm
      _ = (placeOf file pos ++ file.drop (pos + TransBytes.SIZE)).drop (min n TransBytes.SIZE) := by
        rw [placeOf, ← List.drop_drop, List.take_append_drop]
      _ = _ := by rw [List.drop_append, hplace, hrest]
  have hpad : pos - file.length = 0 := Nat.sub_eq_zero_of_le hpos
  rw [if_neg hn, TransBytes.write, hpad, List.replicate_zero, List.append_nil, List.length_take, htr, hbehind,
    List.append_assoc]

/-- the file is left as it was, or as a whole write leaves it -/
theorem transactionCut_spec (n : ℕ) (file : List UInt8) (htr : tr.length = TransBytes.SIZE) :
    ∃ pos file', freeSpot file = some pos ∧ transactionCut n file tr = some file' ∧
      (file' = file ↔ (placeOf file pos).take n = tr.take n) ∧
      (some file' = TransBytes.transaction file tr ↔ (placeOf file pos).drop n = tr.drop n) := by
  obtain ⟨pos, hspot, hpos, hwhole⟩ := freeSpot_spec file
  refine ⟨pos, _, hspot, by rw [transactionCut, hspot, Option.map_some], ?_, ?_⟩
  · rw [write_take hpos n htr]
    have hsplit := List.take_append_drop n (placeOf file pos)
    constructor
    · intro h
      have hplace := h.trans (append_placeOf file pos).symm
      rw [← List.append_assoc (tr.take n)] at hplace
      have hold := List.append_cancel_right (List.append_cancel_left hplace)
      by_cases hn : n ≤ tr.length
      · have hlen : (tr.take n).length = n := by rw [List.length_take, Nat.min_eq_left hn]
        calc (placeOf file pos).take n
          _ = (tr.take n ++ (placeOf file pos).drop n).take n := by rw [hold]
          _ = tr.take n := List.take_left' hlen
      · have hle : (placeOf file pos).length ≤ n := (length_placeOf_le file pos).trans (by omega)
        rw [List.drop_eq_nil_of_le hle, List.append_nil] at hold
        rw [List.take_of_length_le hle, hold]
    · intro h
      rw [← h, ← List.append_assoc ((placeOf file pos).take n), hsplit, append_placeOf]
  · have hfull := write_take hpos TransBytes.SIZE htr
    rw [if_neg (by decide), List.take_of_length_le htr.le, List.drop_eq_nil_of_le (length_placeOf_le file pos),
      List.nil_append] at hfull
    have hsplit := List.take_append_drop n tr
    rw [hwhole, hfull, write_take hpos n htr, Option.some.injEq, List.append_right_inj, ← List.append_assoc,
      List.append_left_inj]
    constructor
    · intro h
      exact List.append_cancel_left (h.trans hsplit.symm)
    · intro h
      rw [h, hsplit]

/-- where everything is written this is `transaction` -/
theorem transactionCut_eq_transaction (hn : TransBytes.SIZE ≤ n) (file : List UInt8)
    (htr : tr.length = TransBytes.SIZE) : transactionCut n file tr = TransBytes.transaction file tr := by
  obtain ⟨pos, file', -, hcut, -, hwhole⟩ := transactionCut_spec n file htr
  rw [hcut, hwhole, List.drop_eq_nil_of_le ((length_placeOf_le file pos).trans hn),
    List.drop_eq_nil_of_le (htr.le.trans hn)]

/-- a transaction record is nowhere but where it has been put -/
theorem transaction_recordBytes_ne (file : List UInt8) {tr : TransEnt} (hcode : tr.code ≠ TR_NONE)
    (hlt : tr.code < 256) : some file ≠ TransBytes.transaction file (recordBytes tr) := by
  obtain ⟨file', hcall, hrecs⟩ := TransBytes.toFile_transaction file (length_recordBytes tr)
  rw [hcall, ne_eq, Option.some.injEq]
  rintro rfl
  exact transaction_ne _ (by rwa [code_recordBytes hlt]) hrecs.symm

end Record

/-! ## All or nothing -/

/-- payer debited, payee credited, every other account as it was, and the transaction recorded -/
structure Completed (c : Customer) (uid amt : ℤ) (reason : Str) (d d' : Disk) : Prop where
  debited : record d'.bf c.myuid = openRecord ((balance d.bf c.myuid 0).2 - amt)
  credited : record d'.bf uid = openRecord ((balance d.bf uid 0).2 + amt)
  others : ∀ u, u ≠ c.myuid → u ≠ uid → record d'.bf u = record d.bf u
  recorded : some d'.tf = TransBytes.transaction d.tf (recordBytes (mkTrans c TR_XFER uid amt reason))

/-- what an open account reports is what `addbalance` starts from -/
theorem balance_eq_oldbalance {bf : BankFile} {uid : ℤ} (h : IsOpen (record bf uid)) :
    (balance bf uid 0).2 = oldbalance bf uid := by
  have hb := (openRecord_stored h).symm
  rw [balance_open hb, oldbalance_open hb]

section Transfer

variable (c : Customer) (uid amt : ℤ) (reason : Str) (w : World)

/-- the record that the debit writes over the payer's -/
def debit : ℤ := openRecord ((balance w.disk.bf c.myuid 0).2 - amt)

/-- the record that the credit writes over the payee's -/
def credit : ℤ := openRecord ((balance w.disk.bf uid 0).2 + amt)

/-- the bytes where the record of the transaction goes -/
def overwritten : List UInt8 := placeOf w.disk.tf ((freeSpot w.disk.tf).getD 0)

/-- The first lock fails; or what is done before a lock fails changes nothing; or nothing fails, but that the writes
leave out only what was there before; or all three change nothing. -/
def AllOrNothing : Prop :=
  ¬(w.script 0).Granted ∨
  (¬(w.script 1).Granted ∧ Idle (w.written 0) (record w.disk.bf c.myuid) (debit c amt w)) ∨
  (¬(w.script 2).Granted ∧ Idle (w.written 0) (record w.disk.bf c.myuid) (debit c amt w) ∧
    Idle (w.written 1) (record w.disk.bf uid) (credit uid amt w)) ∨
  ((w.script 1).Granted ∧ (w.script 2).Granted ∧
    ((Lands (w.written 0) (record w.disk.bf c.myuid) (debit c amt w) ∧
      Lands (w.written 1) (record w.disk.bf uid) (credit uid amt w) ∧
      (overwritten w).drop (w.written 2) = (recordBytes (mkTrans c TR_XFER uid amt reason)).drop (w.written 2)) ∨
    (Idle (w.written 0) (record w.disk.bf c.myuid) (debit c amt w) ∧
      Idle (w.written 1) (record w.disk.bf uid) (credit uid amt w) ∧
      (overwritten w).take (w.written 2) = (recordBytes (mkTrans c TR_XFER uid amt reason)).take (w.written 2))))

instance : Decidable (AllOrNothing c uid amt reason w) := by
  unfold AllOrNothing
  infer_instance

variable {c uid amt reason w}

theorem openRecord_debit (amt : ℤ) (hpayer : IsOpen (record w.disk.bf c.myuid)) :
    openRecord (-amt + oldbalance w.disk.bf c.myuid) = debit c amt w := by
  rw [debit, balance_eq_oldbalance hpayer, neg_add_eq_sub]

theorem openRecord_credit (amt : ℤ) (hpayee : IsOpen (record w.disk.bf uid)) :
    openRecord (amt + oldbalance w.disk.bf uid) = credit uid amt w := by
  rw [credit, balance_eq_oldbalance hpayee, add_comm]

/-- the records after the two writes -/
theorem record_credited (amt : ℤ) (hne : c.myuid ≠ uid) (hpayer : IsOpen (record w.disk.bf c.myuid))
    (hpayee : IsOpen (record w.disk.bf uid)) (u : ℤ) :
    record (addCut (w.written 1) (addCut (w.written 0) w.disk.bf c.myuid (-amt)) uid amt) u =
      if u = uid then cutLong (w.written 1) (record w.disk.bf uid) (credit uid amt w)
      else if u = c.myuid then cutLong (w.written 0) (record w.disk.bf c.myuid) (debit c amt w)
      else record w.disk.bf u := by
  have hkeep : record (addCut (w.written 0) w.disk.bf c.myuid (-amt)) uid = record w.disk.bf uid := by
    rw [record_addCut _ hpayer, if_neg hne.symm]
  have hold : oldbalance (addCut (w.written 0) w.disk.bf c.myuid (-amt)) uid = oldbalance w.disk.bf uid := by
    rw [oldbalance_eq, oldbalance_eq, hkeep]
  rw [record_addCut _ (by rwa [hkeep]), hkeep, hold, record_addCut _ hpayer,
    openRecord_credit amt hpayee, openRecord_debit amt hpayer]

/-- debit and credit change nothing -/
theorem credited_eq_self_iff (hne : c.myuid ≠ uid) (hpayer : IsOpen (record w.disk.bf c.myuid))
    (hpayee : IsOpen (record w.disk.bf uid)) :
    addCut (w.written 1) (addCut (w.written 0) w.disk.bf c.myuid (-amt)) uid amt = w.disk.bf ↔
      Idle (w.written 0) (record w.disk.bf c.myuid) (debit c amt w) ∧
        Idle (w.written 1) (record w.disk.bf uid) (credit uid amt w) := by
  have hrecord := record_credited amt hne hpayer hpayee
  constructor
  · intro heq
    rw [heq] at hrecord
    have hpaid := hrecord c.myuid
    have hgot := hrecord uid
    rw [if_neg hne, if_pos rfl] at hpaid
    rw [if_pos rfl] at hgot
    exact ⟨(cutLong_eq_old_iff ..).1 hpaid.symm, (cutLong_eq_old_iff ..).1 hgot.symm⟩
  · rintro ⟨hpaid, hgot⟩
    rw [← openRecord_debit amt hpayer] at hpaid
    rw [← openRecord_credit amt hpayee] at hgot
    rw [(addCut_eq_self_iff _ hpayer _).2 hpaid, (addCut_eq_self_iff _ hpayee _).2 hgot]

/-- the records of a transfer that is complete -/
theorem completed_iff (hne : c.myuid ≠ uid) (hpayer : IsOpen (record w.disk.bf c.myuid))
    (hpayee : IsOpen (record w.disk.bf uid)) (tf : List UInt8) :
    Completed c uid amt reason w.disk
        ⟨addCut (w.written 1) (addCut (w.written 0) w.disk.bf c.myuid (-amt)) uid amt, tf⟩ ↔
      Lands (w.written 0) (record w.disk.bf c.myuid) (debit c amt w) ∧
        Lands (w.written 1) (record w.disk.bf uid) (credit uid amt w) ∧
        some tf = TransBytes.transaction w.disk.tf (recordBytes (mkTrans c TR_XFER uid amt reason)) := by
  have hrecord := record_credited amt hne hpayer hpayee
  have hpaid := hrecord c.myuid
  have hgot := hrecord uid
  rw [if_neg hne, if_pos rfl] at hpaid
  rw [if_pos rfl] at hgot
  rw [← cutLong_eq_new_iff, ← cutLong_eq_new_iff]
  constructor
  · intro h
    exact ⟨hpaid.symm.trans h.debited, hgot.symm.trans h.credited, h.recorded⟩
  · rintro ⟨hdebit, hcredit, hrecorded⟩
    refine ⟨hpaid.trans hdebit, hgot.trans hcredit, fun u hu hu' => ?_, hrecorded⟩
    exact (hrecord u).trans (by rw [if_neg hu', if_neg hu])

end Transfer

/-- a call of `setlock` that finds no lock file -/
def freeLock : LockScript := ⟨[.created 1000], by decide⟩

/-- a call of `setlock` that finds somebody else's lock file until it gives up -/
def busyLock : LockScript := ⟨List.replicate 6 (.found 1000 1010 true), by decide⟩

def twoAccounts : Disk := ⟨[0, 0, 0, 0, 0, 21, 21], []⟩

def payer : Customer := ⟨5, ['p'], false, false, 1000⟩

end MNetSoft.Bank
