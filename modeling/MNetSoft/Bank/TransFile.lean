/-
The transaction file of `bank.c`, used sequentially: fixed-size records, of which those with code `TR_NONE` are free.
- `transaction` puts a record in the first free slot, or at the end of file, over the bytes of a last record that a
  full disk has cut short.
- `scantrans` reports the records for one uid and blanks each of them in place.
How the two interleave when several processes use the file is modelled in `Bank.TransLog`.
-/
import Mathlib.Tactic
import MNetSoft.Core.CString

namespace MNetSoft.Bank

open MNetSoft.CString

/-! ## Model -/

/-- not a real entry -/
def TR_NONE : ℕ := 0

/-- from another user -/
def TR_XFER : ℕ := 1

/-- bestowal from the government -/
def TR_GIFT : ℕ := 2

/-- fine from the government -/
def TR_FINE : ℕ := 3

/-- structure of a transaction file entry -/
structure TransEnt where
  to_uid : ℤ
  code : ℕ
  fr_id : Str
  why : Str
  amount : ℤ
deriving DecidableEq, Repr

/-- the transaction file: its whole records and the bytes of a last record that was cut short -/
structure TransFile where
  recs : List TransEnt
  tail : ℕ
deriving DecidableEq, Repr

/-- how many entries the loop of `transaction()` skips: up to the first null entry, or EOF -/
def firstFree : List TransEnt → ℕ
  | [] => 0
  | otr :: rest => if otr.code ≠ TR_NONE then firstFree rest + 1 else 0

/-- find a free spot in the transaction file and put a new transaction in it -/
def transaction (tf : TransFile) (tr : TransEnt) : TransFile :=
  let i := firstFree tf.recs
  if i < tf.recs.length then { tf with recs := tf.recs.set i tr } else ⟨tf.recs ++ [tr], 0⟩

/-- set to null after it has been printed -/
def blank (tr : TransEnt) : TransEnt := { tr with code := TR_NONE }

def Reports (uid : ℤ) (tr : TransEnt) : Prop := tr.code ≠ TR_NONE ∧ tr.to_uid = uid

instance (uid : ℤ) (tr : TransEnt) : Decidable (Reports uid tr) := by unfold Reports; infer_instance

/-- report all transactions involving uid, and set them to null: the file afterwards and what was reported -/
def scantrans (tf : TransFile) (uid : ℤ) : TransFile × List TransEnt :=
  ({ tf with recs := tf.recs.map fun tr => if Reports uid tr then blank tr else tr },
    tf.recs.filter fun tr => Reports uid tr)

/-! ## A recorded transaction is in the file -/

def isLive (tr : TransEnt) : Bool := tr.code ≠ TR_NONE

theorem isLive_iff {tr : TransEnt} : isLive tr = true ↔ tr.code ≠ TR_NONE := by simp [isLive]

def live (tf : TransFile) : List TransEnt := tf.recs.filter isLive

theorem firstFree_le (recs : List TransEnt) : firstFree recs ≤ recs.length := by
  induction recs with
  | nil => simp [firstFree]
  | cons otr rest ih =>
    simp only [firstFree, List.length_cons]
    split_ifs
    · omega
    · omega

/-- the free slot `transaction()` writes to holds a null entry -/
theorem firstFree_null {recs : List TransEnt} (h : firstFree recs < recs.length) :
    (recs[firstFree recs]).code = TR_NONE := by
  induction recs with
  | nil => simp at h
  | cons otr rest ih =>
    by_cases hc : otr.code = TR_NONE
    · simp [firstFree, hc]
    · have hff : firstFree (otr :: rest) = firstFree rest + 1 := by simp [firstFree, hc]
      simp only [hff, List.length_cons, Nat.add_lt_add_iff_right] at h
      simp only [hff, List.getElem_cons_succ]
      exact ih h

/-- `transaction()` keeps the live records, and adds its own if it is one -/
theorem live_transaction_perm (tf : TransFile) (tr : TransEnt) :
    (live (transaction tf tr)).Perm ([tr].filter isLive ++ live tf) := by
  unfold transaction live
  by_cases h : firstFree tf.recs < tf.recs.length
  · have hnull : ¬ isLive tf.recs[firstFree tf.recs] = true := fun hl => isLive_iff.1 hl (firstFree_null h)
    have hset : tf.recs.set (firstFree tf.recs) tr =
        tf.recs.take (firstFree tf.recs) ++ tr :: tf.recs.drop (firstFree tf.recs + 1) := by
      rw [List.set_eq_take_append_cons_drop, if_pos h]
    have hsplit : tf.recs = tf.recs.take (firstFree tf.recs) ++
        tf.recs[firstFree tf.recs] :: tf.recs.drop (firstFree tf.recs + 1) := by
      rw [List.getElem_cons_drop, List.take_append_drop]
    simp only [if_pos h, hset]
    conv_rhs => rw [hsplit]
    rw [List.filter_append, List.filter_append, List.filter_cons_of_neg hnull, ← List.singleton_append,
      List.filter_append, ← List.append_assoc, ← List.append_assoc]
    exact List.perm_append_comm.append_right _
  · simp only [if_neg h]
    rw [List.filter_append]
    exact List.perm_append_comm

/-- **`transaction()` adds one live record and keeps all others** -/
theorem live_transaction (tf : TransFile) {tr : TransEnt} (htr : tr.code ≠ TR_NONE) :
    (live (transaction tf tr)).Perm (tr :: live tf) := by
  have h := live_transaction_perm tf tr
  rwa [List.filter_cons_of_pos (isLive_iff.2 htr)] at h

/-- **`scantrans()` reports the live records for its uid** -/
theorem reported_scantrans (tf : TransFile) (uid : ℤ) : (scantrans tf uid).2 = (live tf).filter (·.to_uid = uid) := by
  rw [live, List.filter_filter]
  refine List.filter_congr fun tr _ => ?_
  simp [Reports, isLive, and_comm]

theorem live_scantrans (tf : TransFile) (uid : ℤ) :
    live (scantrans tf uid).1 = (live tf).filter (·.to_uid ≠ uid) := by
  unfold live scantrans
  dsimp only
  induction tf.recs with
  | nil => rfl
  | cons tr recs ih =>
    rw [List.map_cons, List.filter_cons, ih]
    by_cases hrep : Reports uid tr
    · have hdead : isLive (blank tr) = false := rfl
      simp [hrep, hdead, hrep.2, isLive_iff.2 hrep.1]
    · by_cases hlive : isLive tr = true
      · have hother : tr.to_uid ≠ uid := fun h => hrep ⟨isLive_iff.1 hlive, h⟩
        simp [hrep, hlive, hother]
      · simp [hrep, hlive]

theorem transaction_ne (tf : TransFile) {tr : TransEnt} (htr : tr.code ≠ TR_NONE) : transaction tf tr ≠ tf := by
  intro h
  have hperm := (live_transaction tf htr).length_eq
  rw [h] at hperm
  simp at hperm

end MNetSoft.Bank
