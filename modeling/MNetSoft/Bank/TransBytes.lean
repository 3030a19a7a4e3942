/-
The transaction file as the bytes it consists of, read and written one record of 88 bytes at a time: `transaction` and
`scantrans` of `bank.c` with their lseek, read and write, used by one process after the other. The file may have any
contents, and end with a part of a record.

What `scantrans` prints of a record has a name for its code, from a table of four. A record with another code, which
`bank` does not write, makes it read outside the table (undefined behaviour, `none`).
- `toFile_transaction`, `toFile_scantrans`: on the records the calls do what `Bank.TransFile` says.
- `call_right_iff`: a call does what it should do to a book of pending records, and leaves the others where they are, if
  and only if it does not print a record with an unknown code.
- `log_right_iff`: the same for runs.
- `unknown_code`: a file with one record, of code 7.
-/
import Mathlib.Tactic
import MNetSoft.Bank.TransFile

namespace MNetSoft.Bank.TransBytes

open MNetSoft.CString

/-! ## Model -/

/-- `sizeof(struct trans_ent)`: a uid, a char, two arrays of 33 and 40 chars, two bytes of padding, a long -/
def SIZE : ℕ := 88

/-- a little-endian number -/
def unsigned (bs : List UInt8) : ℕ := Nat.ofDigits 256 (bs.map UInt8.toNat)

def chars (bs : List UInt8) : Str := bs.map fun b => Char.ofNat b.toNat

def field (tr : List UInt8) (pos n : ℕ) : List UInt8 := (tr.drop pos).take n

/-- the fields of a record -/
def entry (tr : List UInt8) : TransEnt where
  to_uid := unsigned (field tr 0 4)
  code := unsigned (field tr 4 1)
  fr_id := cstr (chars (field tr 5 33))
  why := cstr (chars (field tr 38 40))
  amount := (unsigned (field tr 80 8) : ℤ).bmod (2 ^ 64)

/-- read up to `n` bytes at `pos`: the bytes and the new position -/
def read (file : List UInt8) (pos n : ℕ) : List UInt8 × ℕ :=
  let buf := (file.drop pos).take n
  (buf, pos + buf.length)

/-- write at `pos`: the file and the new position -/
def write (file : List UInt8) (pos : ℕ) (buf : List UInt8) : List UInt8 × ℕ :=
  (file.take pos ++ List.replicate (pos - file.length) 0 ++ buf ++ file.drop (pos + buf.length), pos + buf.length)

/-- skip to first null entry, or EOF: what the last read returned, and the position behind it -/
def skip : ℕ → List UInt8 → ℕ → Option (ℕ × ℕ)
  | 0, _, _ => none
  | fuel + 1, file, pos =>
    let (otr, pos) := read file pos SIZE
    if otr.length = SIZE ∧ (entry otr).code ≠ TR_NONE then skip fuel file pos else some (otr.length, pos)

/-- find a free spot in the transaction file and put a new transaction in it -/
def transaction (file tr : List UInt8) : Option (List UInt8) := do
  let (n, pos) ← skip (file.length + 1) file 0
  -- if not at EOF, rewind to beginning of last read
  let pos := if n ≠ 0 then pos - n else pos
  return (write file pos tr).1

def trname (code : ℕ) : Option String := ["bug", "transfer", "gift", "fine"][code]?

/-- a `uid_t` compared with an int -/
def toUid (uid : ℤ) : ℤ := uid % 2 ^ 32

/-- the loop of `scantrans`, at `pos` in the file and with its own idea of it in `offset` -/
def scanLoop (uid : ℤ) (silent : Bool) : ℕ → List UInt8 → ℕ → ℕ → Option (List UInt8 × List TransEnt)
  | 0, _, _, _ => none
  | fuel + 1, file, pos, offset =>
    let (tr, pos) := read file pos SIZE
    if tr.length ≠ SIZE then some (file, [])
    else if (entry tr).code ≠ TR_NONE ∧ (entry tr).to_uid = toUid uid then do
      guard (silent = true ∨ (trname (entry tr).code).isSome)
      let (file, pos) := write file offset (tr.set 4 0)
      let (file, reported) ← scanLoop uid silent fuel file pos (offset + SIZE)
      return (file, entry tr :: reported)
    else scanLoop uid silent fuel file pos (offset + SIZE)

/-- report all transactions involving uid and set them to null: the file and what is reported -/
def scantrans (file : List UInt8) (uid : ℤ) (silent : Bool) : Option (List UInt8 × List TransEnt) :=
  scanLoop uid silent (file.length + 1) file 0 0

/-! ## Whole records -/

def slotsFrom : ℕ → List UInt8 → List (List UInt8)
  | 0, _ => []
  | n + 1, file => file.take SIZE :: slotsFrom n (file.drop SIZE)

/-- the complete slots of a file -/
def slots (file : List UInt8) : List (List UInt8) := slotsFrom (file.length / SIZE) file

/-- the file as records -/
def toFile (file : List UInt8) : TransFile := ⟨(slots file).map entry, file.length % SIZE⟩

section Slots

variable {recs : List (List UInt8)} {tail : List UInt8}

theorem length_flatten (h : ∀ r ∈ recs, r.length = SIZE) : recs.flatten.length = SIZE * recs.length := by
  induction recs with
  | nil => rfl
  | cons r recs ih =>
    rw [List.flatten_cons, List.length_append, h r List.mem_cons_self,
      ih fun s hs => h s (List.mem_cons_of_mem r hs), List.length_cons, Nat.mul_succ, Nat.add_comm]

theorem slotsFrom_flatten (h : ∀ r ∈ recs, r.length = SIZE) : slotsFrom recs.length (recs.flatten ++ tail) = recs := by
  induction recs with
  | nil => rfl
  | cons r recs ih =>
    have hr := h r List.mem_cons_self
    rw [List.length_cons, slotsFrom, List.flatten_cons, List.append_assoc, ← hr, List.take_left, List.drop_left,
      ih fun s hs => h s (List.mem_cons_of_mem r hs)]

theorem slots_flatten (h : ∀ r ∈ recs, r.length = SIZE) (htail : tail.length < SIZE) :
    slots (recs.flatten ++ tail) = recs ∧ (recs.flatten ++ tail).length % SIZE = tail.length := by
  have hlen := length_flatten h
  have hdiv : (SIZE * recs.length + tail.length) / SIZE = recs.length := by
    rw [Nat.mul_add_div (by decide), Nat.div_eq_of_lt htail, Nat.add_zero]
  rw [slots, List.length_append, hlen, hdiv]
  exact ⟨slotsFrom_flatten h, by rw [Nat.mul_add_mod, Nat.mod_eq_of_lt htail]⟩

/-- every file is complete slots and less than a record more -/
theorem exists_slots (file : List UInt8) :
    ∃ recs tail, file = List.flatten recs ++ tail ∧ (∀ r ∈ recs, r.length = SIZE) ∧ tail.length < SIZE := by
  induction hlen : file.length using Nat.strong_induction_on generalizing file with
  | _ n ih =>
    subst hlen
    by_cases hshort : file.length < SIZE
    · exact ⟨[], file, rfl, by simp, hshort⟩
    have hlt : (file.drop SIZE).length < file.length := by
      rw [List.length_drop]
      unfold SIZE at *
      omega
    obtain ⟨recs, tail, hrest, hrecs, htail⟩ := ih _ hlt (file.drop SIZE) rfl
    refine ⟨file.take SIZE :: recs, tail, ?_, ?_, htail⟩
    · rw [List.flatten_cons, List.append_assoc, ← hrest, List.take_append_drop]
    · refine List.forall_mem_cons.2 ⟨?_, hrecs⟩
      rw [List.length_take]
      omega

theorem length_of_mem_slots {file r : List UInt8} (h : r ∈ slots file) : r.length = SIZE := by
  obtain ⟨recs, tail, rfl, hrecs, htail⟩ := exists_slots file
  rw [(slots_flatten hrecs htail).1] at h
  exact hrecs r h

end Slots

/-! ## Reading and writing at a slot -/

section Loops

variable {pre tr old tail rest : List UInt8} {recs : List (List UInt8)} {fuel : ℕ}

theorem read_slot (htr : tr.length = SIZE) :
    read (pre ++ (tr ++ rest)) pre.length SIZE = (tr, (pre ++ tr).length) := by
  rw [read, List.drop_left, ← htr, List.take_left, List.length_append]

theorem read_tail (htail : tail.length < SIZE) :
    read (pre ++ tail) pre.length SIZE = (tail, pre.length + tail.length) := by
  rw [read, List.drop_left, List.take_of_length_le htail.le]

theorem write_slot (hlen : tr.length = old.length) :
    write (pre ++ (old ++ rest)) pre.length tr = (pre ++ (tr ++ rest), (pre ++ tr).length) := by
  have hdrop : (pre ++ (old ++ rest)).drop (pre.length + tr.length) = rest := by
    rw [hlen, ← List.append_assoc, ← List.length_append, List.drop_left]
  have hpad : pre.length - (pre ++ (old ++ rest)).length = 0 := by
    rw [List.length_append]
    omega
  rw [write, List.take_left, hdrop, hpad, List.replicate_zero, List.append_nil, List.append_assoc, List.length_append]

theorem write_tail (hlen : tail.length ≤ tr.length) : (write (pre ++ tail) pre.length tr).1 = pre ++ tr := by
  have hdrop : (pre ++ tail).drop (pre.length + tr.length) = [] :=
    List.drop_eq_nil_of_le (by rw [List.length_append]; omega)
  have hpad : pre.length - (pre ++ tail).length = 0 := by
    rw [List.length_append]
    omega
  rw [write, List.take_left, hdrop, hpad, List.replicate_zero, List.append_nil, List.append_nil]

/-! ## The two loops -/

/-- **Where the search ends**: behind the first null entry, or behind the tail, with the length of what it has read -/
theorem skip_eq (h : ∀ r ∈ recs, r.length = SIZE) (htail : tail.length < SIZE) (hfuel : recs.length < fuel) :
    let i := firstFree (recs.map entry)
    let n := if i < recs.length then SIZE else tail.length
    skip fuel (pre ++ (recs.flatten ++ tail)) pre.length = some (n, pre.length + SIZE * i + n) := by
  induction recs generalizing pre fuel with
  | nil =>
    obtain ⟨fuel, rfl⟩ := Nat.exists_eq_succ_of_ne_zero (Nat.ne_of_gt hfuel)
    rw [skip, List.flatten_nil, List.nil_append, read_tail htail]
    exact if_neg fun hfull => absurd hfull.1 htail.ne
  | cons r recs ih =>
    obtain ⟨fuel, rfl⟩ := Nat.exists_eq_succ_of_ne_zero (Nat.ne_of_gt (Nat.zero_lt_of_lt hfuel))
    obtain ⟨hr, hrecs⟩ := List.forall_mem_cons.1 h
    rw [skip, List.flatten_cons, List.append_assoc, read_slot hr]
    dsimp only
    by_cases hcode : (entry r).code = TR_NONE
    · rw [if_neg fun hlive => hlive.2 hcode]
      simp [firstFree, hcode, hr]
    · have hnext := @ih (pre ++ r) fuel hrecs (Nat.lt_of_succ_lt_succ hfuel)
      rw [List.append_assoc] at hnext
      rw [if_pos ⟨hr, hcode⟩, hnext]
      simp only [List.map_cons, firstFree, if_pos hcode, List.length_cons, Nat.succ_lt_succ_iff, List.length_append, hr]
      congr 2
      ring

/-- **What `transaction()` does to the bytes**: the record goes over the first null entry, or over the tail -/
theorem transaction_eq (h : ∀ r ∈ recs, r.length = SIZE) (htail : tail.length < SIZE) (htr : tr.length = SIZE) :
    transaction (recs.flatten ++ tail) tr = some (if firstFree (recs.map entry) < recs.length then
      (recs.set (firstFree (recs.map entry)) tr).flatten ++ tail else (recs ++ [tr]).flatten) := by
  have hlen := length_flatten h
  have hskip := @skip_eq [] tail recs ((recs.flatten ++ tail).length + 1) h htail
    (by rw [List.length_append, hlen]; unfold SIZE; omega)
  have hle := firstFree_le (recs.map entry)
  rw [List.length_map] at hle
  dsimp only [List.length_nil] at hskip
  rw [List.nil_append, Nat.zero_add] at hskip
  rw [transaction, hskip]
  set i := firstFree (recs.map entry) with hi
  simp only [Option.bind_eq_bind, Option.bind_some]
  split
  case isTrue hlt =>
    have hsplit : recs = recs.take i ++ recs[i] :: recs.drop (i + 1) := by simp
    have hpos : SIZE * i = (recs.take i).flatten.length := by
      rw [length_flatten fun r hr => h r (List.mem_of_mem_take hr), List.length_take, Nat.min_eq_left hle]
    have hbytes : recs.flatten ++ tail =
        (recs.take i).flatten ++ (recs[i] ++ ((recs.drop (i + 1)).flatten ++ tail)) := by
      calc recs.flatten ++ tail
        _ = (recs.take i ++ recs[i] :: recs.drop (i + 1)).flatten ++ tail := by rw [← hsplit]
        _ = _ := by rw [List.flatten_append, List.flatten_cons, List.append_assoc, List.append_assoc]
    have hset : (recs.set i tr).flatten ++ tail =
        (recs.take i).flatten ++ (tr ++ ((recs.drop (i + 1)).flatten ++ tail)) := by
      calc (recs.set i tr).flatten ++ tail
        _ = (recs.take i ++ tr :: recs.drop (i + 1)).flatten ++ tail := by
          rw [List.set_eq_take_append_cons_drop, if_pos hlt]
        _ = _ := by rw [List.flatten_append, List.flatten_cons, List.append_assoc, List.append_assoc]
    rw [if_pos (by decide), Nat.add_sub_cancel, hpos, hbytes,
      write_slot (htr.trans (h _ (List.getElem_mem hlt)).symm), hset]
    rfl
  case isFalse hge =>
    have hend : SIZE * i = recs.flatten.length := by rw [hlen, show i = recs.length by omega]
    have hpos : (if tail.length ≠ 0 then SIZE * i + tail.length - tail.length else SIZE * i + tail.length) =
        recs.flatten.length := by
      split_ifs <;> omega
    rw [hpos, write_tail (htail.le.trans htr.ge), List.flatten_append, List.flatten_singleton]
    rfl

/-- what a scan for `uid` leaves of a record -/
def blanked (uid : ℤ) (tr : List UInt8) : List UInt8 := if Reports (toUid uid) (entry tr) then tr.set 4 0 else tr

/-- a record that can be printed, or need not be -/
def Printable (silent : Bool) (tr : TransEnt) : Prop := silent = true ∨ (trname tr.code).isSome

instance (silent : Bool) (tr : TransEnt) : Decidable (Printable silent tr) := by
  unfold Printable
  infer_instance

theorem scanLoop_slot (uid : ℤ) (silent : Bool) (htr : tr.length = SIZE) :
    scanLoop uid silent (fuel + 1) (pre ++ (tr ++ rest)) pre.length pre.length =
      if Reports (toUid uid) (entry tr) then
        if Printable silent (entry tr) then
          (scanLoop uid silent fuel (pre ++ tr.set 4 0 ++ rest) (pre ++ tr.set 4 0).length
            (pre ++ tr.set 4 0).length).map fun r => (r.1, entry tr :: r.2)
        else none
      else scanLoop uid silent fuel (pre ++ tr ++ rest) (pre ++ tr).length (pre ++ tr).length := by
  have hset : (tr.set 4 0).length = tr.length := List.length_set
  have hoff : pre.length + SIZE = (pre ++ tr).length := by rw [List.length_append, htr]
  have hoff' : pre.length + SIZE = (pre ++ tr.set 4 0).length := by rw [List.length_append, hset, htr]
  rw [scanLoop, read_slot htr]
  dsimp only
  rw [if_neg (not_not.2 htr), write_slot hset, List.append_assoc, List.append_assoc]
  by_cases hrep : Reports (toUid uid) (entry tr)
  · -- the record is printed, and goes back without its code
    have hfound : (entry tr).code ≠ TR_NONE ∧ (entry tr).to_uid = toUid uid := hrep
    rw [if_pos hrep, if_pos hfound, hoff']
    by_cases hprint : Printable silent (entry tr)
    · rw [if_pos hprint,
        show guard (silent = true ∨ (trname (entry tr).code).isSome = true) = some () from if_pos hprint,
        Option.map_eq_bind]
      rfl
    · rw [if_neg hprint, show guard (silent = true ∨ (trname (entry tr).code).isSome = true) = none from if_neg hprint]
      rfl
  · have hother : ¬((entry tr).code ≠ TR_NONE ∧ (entry tr).to_uid = toUid uid) := hrep
    rw [if_neg hrep, if_neg hother, hoff]

/-- **What `scantrans()` does to the bytes**, if it can print all that it finds -/
theorem scanLoop_eq {uid : ℤ} {silent : Bool} (h : ∀ r ∈ recs, r.length = SIZE) (htail : tail.length < SIZE)
    (hfuel : recs.length < fuel) :
    scanLoop uid silent fuel (pre ++ (recs.flatten ++ tail)) pre.length pre.length =
      if ∀ r ∈ recs, Reports (toUid uid) (entry r) → Printable silent (entry r) then
        some (pre ++ ((recs.map (blanked uid)).flatten ++ tail),
          (recs.map entry).filter fun tr => Reports (toUid uid) tr)
      else none := by
  induction recs generalizing pre fuel with
  | nil =>
    obtain ⟨fuel, rfl⟩ := Nat.exists_eq_succ_of_ne_zero (Nat.ne_of_gt hfuel)
    rw [scanLoop, List.flatten_nil, List.nil_append, read_tail htail, if_pos (by simp)]
    exact if_pos htail.ne
  | cons r recs ih =>
    obtain ⟨fuel, rfl⟩ := Nat.exists_eq_succ_of_ne_zero (Nat.ne_of_gt (Nat.zero_lt_of_lt hfuel))
    obtain ⟨hr, hrecs⟩ := List.forall_mem_cons.1 h
    have hnext := fun pre => @ih pre fuel hrecs (Nat.lt_of_succ_lt_succ hfuel)
    rw [List.flatten_cons, List.append_assoc, scanLoop_slot uid silent hr, hnext, hnext]
    by_cases hrep : Reports (toUid uid) (entry r)
    · by_cases hprint : Printable silent (entry r)
      · simp [hrep, hprint, blanked]
      · simp [hrep, hprint]
    · simp [hrep, blanked]

theorem scantrans_eq {uid : ℤ} {silent : Bool} (h : ∀ r ∈ recs, r.length = SIZE) (htail : tail.length < SIZE) :
    scantrans (recs.flatten ++ tail) uid silent =
      if ∀ r ∈ recs, Reports (toUid uid) (entry r) → Printable silent (entry r) then
        some ((recs.map (blanked uid)).flatten ++ tail, (recs.map entry).filter fun tr => Reports (toUid uid) tr)
      else none := by
  have hfuel : recs.length < (recs.flatten ++ tail).length + 1 := by
    rw [List.length_append, length_flatten h]
    unfold SIZE
    omega
  exact @scanLoop_eq [] tail recs _ uid silent h htail hfuel

end Loops

/-! ## On the records -/

section Refines

variable {file file' tr : List UInt8} {rs : List TransEnt}

theorem field_set {pos n : ℕ} (h : 4 < pos ∨ pos + n ≤ 4) : field (tr.set 4 0) pos n = field tr pos n := by
  unfold field
  rcases h with h | h
  · rw [List.drop_set_of_lt h]
  · rw [List.drop_set, if_neg (by omega), List.take_set_of_le (by omega)]

theorem entry_set (htr : tr.length = SIZE) : entry (tr.set 4 0) = blank (entry tr) := by
  have hlt : 4 < tr.length := by rw [htr]; decide
  have hcode : field (tr.set 4 0) 4 1 = [0] := by
    rw [field, List.drop_eq_getElem_cons (by rwa [List.length_set]), List.getElem_set_self]
    rfl
  have hnone : unsigned [0] = TR_NONE := by decide
  simp only [entry, blank]
  rw [hcode, hnone, field_set (by omega), field_set (by omega), field_set (by omega), field_set (by omega)]

theorem entry_blanked (uid : ℤ) (htr : tr.length = SIZE) :
    entry (blanked uid tr) = if Reports (toUid uid) (entry tr) then blank (entry tr) else entry tr := by
  unfold blanked
  split_ifs
  · exact entry_set htr
  · rfl

theorem length_blanked (uid : ℤ) : (blanked uid tr).length = tr.length := by
  unfold blanked
  split_ifs
  · exact List.length_set
  · rfl

theorem slots_transaction (file : List UInt8) (htr : tr.length = SIZE) :
    ∃ file', transaction file tr = some file' ∧
      if firstFree ((slots file).map entry) < (slots file).length then
        slots file' = (slots file).set (firstFree ((slots file).map entry)) tr ∧
          file'.length % SIZE = file.length % SIZE
      else slots file' = slots file ++ [tr] ∧ file'.length % SIZE = 0 := by
  obtain ⟨recs, tail, rfl, hrecs, htail⟩ := exists_slots file
  obtain ⟨hslots, hmod⟩ := slots_flatten hrecs htail
  refine ⟨_, transaction_eq hrecs htail htr, ?_⟩
  rw [hslots, hmod]
  split
  case isTrue hlt =>
    have hset : ∀ r ∈ recs.set (firstFree (recs.map entry)) tr, r.length = SIZE := fun r hr =>
      (List.mem_or_eq_of_mem_set hr).elim (hrecs r) fun heq => heq ▸ htr
    exact slots_flatten hset htail
  case isFalse hge =>
    have hend : ∀ r ∈ recs ++ [tr], r.length = SIZE := fun r hr =>
      (List.mem_append.1 hr).elim (hrecs r) fun heq => List.mem_singleton.1 heq ▸ htr
    have h := @slots_flatten (recs ++ [tr]) [] hend (by decide)
    rwa [List.append_nil] at h

/-- **`transaction()` on the records** -/
theorem toFile_transaction (file : List UInt8) (htr : tr.length = SIZE) :
    ∃ file', transaction file tr = some file' ∧ toFile file' = Bank.transaction (toFile file) (entry tr) := by
  obtain ⟨file', hcall, h⟩ := slots_transaction file htr
  refine ⟨file', hcall, ?_⟩
  rw [Bank.transaction, toFile, toFile]
  dsimp only
  rw [List.length_map]
  split
  case isTrue hlt =>
    rw [if_pos hlt] at h
    rw [h.1, h.2, List.map_set]
  case isFalse hge =>
    rw [if_neg hge] at h
    rw [h.1, h.2, List.map_append]
    rfl

/-- `scantrans()` on the slots, when it can print all that it finds -/
theorem slots_scantrans (file : List UInt8) (uid : ℤ) (silent : Bool) :
    if ∀ r ∈ slots file, Reports (toUid uid) (entry r) → Printable silent (entry r) then
      ∃ file', scantrans file uid silent = some (file', (toFile file).recs.filter fun tr => Reports (toUid uid) tr) ∧
        slots file' = (slots file).map (blanked uid) ∧ file'.length % SIZE = file.length % SIZE
    else scantrans file uid silent = none := by
  obtain ⟨recs, tail, rfl, hrecs, htail⟩ := exists_slots file
  obtain ⟨hslots, hmod⟩ := slots_flatten hrecs htail
  have hblanked : ∀ r ∈ recs.map (blanked uid), r.length = SIZE := by
    intro r hr
    obtain ⟨s, hs, rfl⟩ := List.mem_map.1 hr
    rw [length_blanked, hrecs s hs]
  rw [toFile, hslots, hmod, scantrans_eq hrecs htail]
  split
  case isTrue hprint => exact ⟨_, rfl, slots_flatten hblanked htail⟩
  case isFalse hprint => rfl

/-- **`scantrans()` on the records**, when it returns -/
theorem toFile_scantrans {uid : ℤ} {silent : Bool} (h : scantrans file uid silent = some (file', rs)) :
    (toFile file', rs) = Bank.scantrans (toFile file) (toUid uid) := by
  have hscan := slots_scantrans file uid silent
  split at hscan
  case isTrue hprint =>
    obtain ⟨f, hcall, hslots, hmod⟩ := hscan
    rw [h] at hcall
    injection hcall with hcall
    injection hcall with hfile hrs
    subst hfile
    have hmap : (slots file).map (entry ∘ blanked uid) =
        ((slots file).map entry).map fun tr => if Reports (toUid uid) tr then blank tr else tr := by
      rw [List.map_map]
      exact List.map_congr_left fun r hr => entry_blanked uid (length_of_mem_slots hr)
    rw [hrs, toFile, hslots, hmod, List.map_map, hmap]
    rfl
  case isFalse hprint =>
    rw [h] at hscan
    cases hscan

end Refines

/-! ## The book of pending records -/

/-- the calls; the padding of a record is among its bytes -/
inductive Call where
  | transaction (tr : Vector UInt8 SIZE)
  | scantrans (uid : ℤ) (silent : Bool)
deriving DecidableEq, Repr

/-- a call: the file and what is reported -/
def call (file : List UInt8) : Call → Option (List UInt8 × List TransEnt)
  | .transaction tr => (transaction file tr.toList).map fun file => (file, [])
  | .scantrans uid silent => scantrans file uid silent

/-- what a call should report, of the records that are pending -/
def reported (book : Multiset TransEnt) : Call → Multiset TransEnt
  | .transaction _ => 0
  | .scantrans uid _ => book.filter fun tr => tr.to_uid = toUid uid

/-- what is pending after a call; a record with code `TR_NONE` is none -/
def pending (book : Multiset TransEnt) : Call → Multiset TransEnt
  | .transaction tr => if isLive (entry tr.toList) then entry tr.toList ::ₘ book else book
  | .scantrans uid _ => book.filter fun tr => tr.to_uid ≠ toUid uid

/-- the records in the complete slots of a file -/
def bookOf (file : List UInt8) : Multiset TransEnt := live (toFile file)

/-- the live records that are not reported stay in their slots -/
def Spares (c : Call) (file file' : List UInt8) : Prop :=
  ∀ (i : ℕ) (r : List UInt8), (slots file)[i]? = some r → isLive (entry r) → entry r ∉ reported (bookOf file) c →
    (slots file')[i]? = some r

/-- every call of a run returns, reports what it should, and spares the other records -/
def Right (file : List UInt8) (book : Multiset TransEnt) : List Call → Prop
  | [] => True
  | c :: cs => ∃ file' rs, call file c = some (file', rs) ∧ (rs : Multiset TransEnt) = reported book c ∧
      Spares c file file' ∧ Right file' (pending book c) cs

/-- a scan that prints finds no pending record with a code that has no name -/
def Named (book : Multiset TransEnt) (c : Call) : Prop :=
  ∀ uid, c = .scantrans uid false → ∀ tr ∈ book, tr.to_uid = toUid uid → tr.code ≤ TR_FINE

/-- so it is with all scans of a run -/
def AllNamed (book : Multiset TransEnt) : List Call → Prop
  | [] => True
  | c :: cs => Named book c ∧ AllNamed (pending book c) cs

/-! ## Calls and runs -/

section Runs

variable {file : List UInt8}

/-- a record that is live in a slot is in the book -/
theorem mem_bookOf {tr : TransEnt} : tr ∈ bookOf file ↔ ∃ r ∈ slots file, entry r = tr ∧ isLive tr := by
  rw [bookOf, Multiset.mem_coe, live, List.mem_filter, toFile]
  simp only [List.mem_map]
  constructor
  · intro h
    obtain ⟨⟨r, hr, htr⟩, hlive⟩ := h
    exact ⟨r, hr, htr, hlive⟩
  · intro h
    obtain ⟨r, hr, htr, hlive⟩ := h
    exact ⟨⟨r, hr, htr⟩, hlive⟩

theorem isSome_trname (code : ℕ) : (trname code).isSome ↔ code ≤ TR_FINE := by
  have hlen : (trname code).isSome ↔ code < 4 := by simp [trname]
  rw [hlen]
  exact Nat.lt_succ_iff

/-- a scan can print what it finds just if the codes have names -/
theorem printable_iff_named (uid : ℤ) (silent : Bool) :
    (∀ r ∈ slots file, Reports (toUid uid) (entry r) → Printable silent (entry r)) ↔
      Named (bookOf file) (.scantrans uid silent) := by
  refine ⟨?_, ?_⟩
  · rintro h uid' heq tr htr huid
    injection heq with huid' hsilent
    subst huid' hsilent
    obtain ⟨r, hr, rfl, hlive⟩ := mem_bookOf.1 htr
    have hprint := h r hr ⟨isLive_iff.1 hlive, huid⟩
    exact (isSome_trname _).1 (hprint.resolve_left Bool.false_ne_true)
  · intro h r hr hrep
    cases hs : silent with
    | true => exact Or.inl rfl
    | false =>
      subst hs
      have hmem : entry r ∈ bookOf file := mem_bookOf.2 ⟨r, hr, rfl, isLive_iff.2 hrep.1⟩
      exact Or.inr ((isSome_trname _).2 (h uid rfl (entry r) hmem hrep.2))

/-- a live record is not where `transaction()` writes -/
theorem spares_transaction {file' : List UInt8} {tr : Vector UInt8 SIZE} (h : transaction file tr.toList = some file') :
    Spares (.transaction tr) file file' := by
  obtain ⟨f, hcall, hslots⟩ := slots_transaction file (@Vector.length_toList _ _ tr)
  rw [h] at hcall
  injection hcall with hcall
  subst hcall
  intro i r hi hlive _
  obtain ⟨hlt, hr⟩ := List.getElem?_eq_some_iff.1 hi
  split at hslots
  case isTrue hfree =>
    have hnull := firstFree_null (by rwa [List.length_map] : firstFree ((slots file).map entry) < _)
    have hne : firstFree ((slots file).map entry) ≠ i := by
      intro heq
      subst heq
      rw [List.getElem_map, hr] at hnull
      exact isLive_iff.1 hlive hnull
    rw [hslots.1, List.getElem?_set_ne hne, hi]
  case isFalse hge => rw [hslots.1, List.getElem?_append_left hlt, hi]

/-- a live record that is not reported is not blanked -/
theorem spares_scantrans {uid : ℤ} {silent : Bool} {file' : List UInt8}
    (h : slots file' = (slots file).map (blanked uid)) : Spares (.scantrans uid silent) file file' := by
  intro i r hi hlive hnot
  have hmem : entry r ∈ bookOf file := mem_bookOf.2 ⟨r, List.mem_of_getElem? hi, rfl, hlive⟩
  have hother : ¬Reports (toUid uid) (entry r) := fun hrep => hnot (Multiset.mem_filter.2 ⟨hmem, hrep.2⟩)
  rw [h, List.getElem?_map, hi, Option.map_some, blanked, if_neg hother]

/-- what is in the file after a call that returns is what should be pending -/
theorem bookOf_call {c : Call} {file' : List UInt8} {rs : List TransEnt} (h : call file c = some (file', rs)) :
    bookOf file' = pending (bookOf file) c := by
  cases c with
  | transaction tr =>
    obtain ⟨f, hcall, hf⟩ := toFile_transaction file (@Vector.length_toList _ _ tr)
    rw [call, hcall] at h
    injection h with h
    injection h with h _
    subst h
    have hperm := live_transaction_perm (toFile file) (entry tr.toList)
    rw [bookOf, hf, Multiset.coe_eq_coe.2 hperm, pending]
    by_cases hlive : isLive (entry tr.toList) = true
    · rw [if_pos hlive, List.filter_cons_of_pos hlive]
      rfl
    · rw [if_neg hlive, List.filter_cons_of_neg hlive]
      rfl
  | scantrans uid silent =>
    have hfile' := congrArg Prod.fst (toFile_scantrans h)
    dsimp only at hfile'
    rw [bookOf, hfile', live_scantrans]
    rfl

/-- **When a call is right**: it returns, reports what it should and spares the other records -/
theorem call_right_iff (file : List UInt8) (c : Call) :
    (∃ file' rs, call file c = some (file', rs) ∧ (rs : Multiset TransEnt) = reported (bookOf file) c ∧
      Spares c file file') ↔ Named (bookOf file) c := by
  cases c with
  | transaction tr =>
    obtain ⟨file', hcall, -⟩ := toFile_transaction file (@Vector.length_toList _ _ tr)
    have hright : call file (.transaction tr) = some (file', []) := by
      rw [call, hcall]
      rfl
    exact ⟨fun _ uid heq => Call.noConfusion heq, fun _ => ⟨file', [], hright, rfl, spares_transaction hcall⟩⟩
  | scantrans uid silent =>
    have hscan := slots_scantrans file uid silent
    by_cases hnamed : Named (bookOf file) (.scantrans uid silent)
    · rw [if_pos ((printable_iff_named uid silent).2 hnamed)] at hscan
      obtain ⟨file', hcall, hslots, -⟩ := hscan
      have hrs : (toFile file).recs.filter (fun tr => Reports (toUid uid) tr) =
          (live (toFile file)).filter (·.to_uid = toUid uid) := reported_scantrans (toFile file) (toUid uid)
      refine iff_of_true ⟨file', _, hcall, ?_, spares_scantrans hslots⟩ hnamed
      rw [hrs]
      rfl
    · rw [if_neg (mt (printable_iff_named uid silent).1 hnamed)] at hscan
      refine iff_of_false ?_ hnamed
      intro h
      obtain ⟨file', rs, hcall, -⟩ := h
      rw [call, hscan] at hcall
      cases hcall

end Runs

/-- **The transaction log, used sequentially.** For every file, every run of calls is right if and only if no scan in it
that prints finds a record for its uid with an unknown code. -/
theorem log_right_iff (file : List UInt8) (cs : List Call) :
    Right file (bookOf file) cs ↔ AllNamed (bookOf file) cs := by
  induction cs generalizing file with
  | nil => exact Iff.rfl
  | cons c cs ih =>
    have hiff := call_right_iff file c
    refine ⟨?_, ?_⟩
    · intro h
      obtain ⟨file', rs, hcall, hrs, hspares, hrest⟩ := h
      rw [← bookOf_call hcall] at hrest
      refine ⟨hiff.1 ⟨file', rs, hcall, hrs, hspares⟩, ?_⟩
      rw [← bookOf_call hcall]
      exact (ih file').1 hrest
    · intro h
      obtain ⟨hnamed, hrest⟩ := h
      obtain ⟨file', rs, hcall, hrs, hspares⟩ := hiff.2 hnamed
      rw [← bookOf_call hcall] at hrest
      refine ⟨file', rs, hcall, hrs, hspares, ?_⟩
      rw [← bookOf_call hcall]
      exact (ih file').2 hrest

/-- a record for uid 5, of code 7 -/
def odd : List UInt8 := [5, 0, 0, 0, 7] ++ List.replicate 83 0

/-- **A code without a name.** The report of the record reads outside the table of names. -/
theorem unknown_code : bookOf odd = {⟨5, 7, [], [], 0⟩} ∧ call odd (.scantrans 5 false) = none ∧
    ¬Right odd (bookOf odd) [.scantrans 5 false] := by
  have hnone : call odd (.scantrans 5 false) = none := by decide +kernel
  refine ⟨by decide +kernel, hnone, ?_⟩
  intro h
  rcases h with ⟨file', rs, hcall, -⟩
  rw [hnone] at hcall
  cases hcall

end MNetSoft.Bank.TransBytes
