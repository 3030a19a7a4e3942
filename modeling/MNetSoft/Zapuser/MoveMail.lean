/-
`move_mail` of `zapuser`: the mailbox of a deleted user is unlinked, and what can be read of it is copied into a new
file `UNREAD_MAIL`. `Calls` is what the calls answer: a read delivers some of what is left, but not more than `BFSZ`
characters, or fails; a write takes some of what it is given, or fails, and what it answers is not looked at.

- `copyLoop_eq_iff`: exactly when the copy is complete.
- `move_mail_keeps_iff`: exactly when no mail is lost.
- `disk_full`: a mailbox that is gone, and an empty copy of it.
-/
import Mathlib.Tactic
import MNetSoft.Zapuser.Immortal

namespace MNetSoft.Zapuser.MoveMail

open MNetSoft.CString

/-! ## Model -/

/-- what `open` with O_EXCL answers; EEXIST is `eexist` -/
inductive Creation
  | created
  | eexist
  | failed
deriving DecidableEq, Repr

/-- what the calls answer, reads and writes in the order in which they are made: the mailbox is opened, each name for
the save file, `unlink`, how much a read delivers at most, beyond the first character, and how much a write takes -/
structure Calls where
  opens : Bool
  creates : ℕ → Creation
  unlinks : Bool
  reads : ℕ → Option ℕ
  writes : ℕ → Option ℕ

/-- the names for the save file, from number `i` on; `left` more are tried if it exists -/
def createLoop (creates : ℕ → Creation) : ℕ → ℕ → Creation
  -- i > 99: mail not saved
  | 0, i => creates i
  | left + 1, i =>
    match creates i with
    | .eexist => createLoop creates left (i + 1)
    | r => r

/-- how much the `k`-th read delivers, if so much is left -/
def chunk (c : Calls) (k : ℕ) : ℕ := ((c.reads k).map fun m => min (m + 1) BFSZ).getD 0

/-- do the copy: what is written to the new file. A read takes at least one character of what is left, whose length is
enough fuel. -/
def copyLoop (c : Calls) : ℕ → ℕ → Str → Str
  | 0, _, _ => []
  | fuel + 1, k, rest =>
    let bf := rest.take (chunk c k)
    -- read failed, or end of file
    if bf = [] then []
    else bf.take ((c.writes k).getD 0) ++ copyLoop c fuel (k + 1) (rest.drop (chunk c k))

/-- the mailbox, if it is still there, and the save file, if this call has made one -/
structure Mail where
  mailfile : Option Str
  savefile : Option Str
deriving DecidableEq, Repr

def move_mail (c : Calls) (content : Str) : Mail :=
  if ¬c.opens then ⟨some content, none⟩
  else
    match createLoop c.creates 100 0 with
    | .eexist => ⟨some content, none⟩
    | .failed => ⟨some content, none⟩
    | .created =>
      -- if the old file cannot be unlinked, it is copied all the same
      ⟨if c.unlinks then none else some content, some (copyLoop c content.length 0 content)⟩

/-! ## Mail is kept -/

/-- the mailbox, or a complete copy of it -/
def Kept (c : Calls) (content : Str) : Prop :=
  (move_mail c content).mailfile = some content ∨ (move_mail c content).savefile = some content

/-- one of the names is free -/
def Created (c : Calls) : Prop := ∃ i ≤ 100, c.creates i = .created ∧ ∀ j < i, c.creates j = .eexist

/-- how much has been read before the read after `n` others, of which `k` is the first -/
def position (c : Calls) (k : ℕ) : ℕ → ℕ
  | 0 => 0
  | n + 1 => chunk c k + position c (k + 1) n

/-- as long as something of the `size` characters is left, the next read succeeds, and the write after it takes all that
was read -/
def Copies (c : Calls) (k size : ℕ) : Prop :=
  ∀ n, position c k n < size →
    c.reads (k + n) ≠ none ∧ min (chunk c (k + n)) (size - position c k n) ≤ (c.writes (k + n)).getD 0

/-! ## The save file -/

theorem createLoop_created (creates : ℕ → Creation) (left i : ℕ) : createLoop creates left i = .created ↔
    ∃ n ≤ left, creates (i + n) = .created ∧ ∀ j < n, creates (i + j) = .eexist := by
  induction left generalizing i with
  | zero =>
    rw [createLoop]
    refine ⟨fun h => ⟨0, le_rfl, h, fun j hj => absurd hj (Nat.not_lt_zero j)⟩, ?_⟩
    intro h
    obtain ⟨n, hn, hcreated, -⟩ := h
    obtain rfl : n = 0 := Nat.le_zero.1 hn
    exact hcreated
  | succ left ih =>
    rw [createLoop]
    cases hi : creates i with
    | created => exact iff_of_true rfl ⟨0, Nat.zero_le _, hi, fun j hj => absurd hj (Nat.not_lt_zero j)⟩
    | failed =>
      refine iff_of_false (by simp) ?_
      intro h
      obtain ⟨n, -, hcreated, hexists⟩ := h
      cases n with
      | zero => rw [Nat.add_zero, hi] at hcreated; cases hcreated
      | succ n =>
        have h0 := hexists 0 (Nat.zero_lt_succ n)
        rw [Nat.add_zero, hi] at h0
        cases h0
    | eexist =>
      simp only [ih]
      refine ⟨?_, ?_⟩
      · intro h
        obtain ⟨n, hn, hcreated, hexists⟩ := h
        refine ⟨n + 1, Nat.succ_le_succ hn, by rw [← hcreated]; congr 1; omega, fun j hj => ?_⟩
        cases j with
        | zero => exact hi
        | succ j =>
          rw [← hexists j (Nat.lt_of_succ_lt_succ hj)]
          congr 1
          omega
      · intro h
        obtain ⟨n, hn, hcreated, hexists⟩ := h
        cases n with
        | zero => rw [Nat.add_zero, hi] at hcreated; cases hcreated
        | succ n =>
          refine ⟨n, Nat.le_of_succ_le_succ hn, by rw [← hcreated]; congr 1; omega, fun j hj => ?_⟩
          rw [← hexists (j + 1) (Nat.succ_lt_succ hj)]
          congr 1
          omega

theorem created_iff (c : Calls) : createLoop c.creates 100 0 = .created ↔ Created c := by
  rw [createLoop_created]
  simp only [Nat.zero_add]
  exact Iff.rfl

/-! ## The copy -/

theorem chunk_eq_zero {c : Calls} {k : ℕ} : chunk c k = 0 ↔ c.reads k = none := by
  rw [chunk]
  cases c.reads k with
  | none => simp
  | some m => simp [BFSZ]

theorem copyLoop_length_le (c : Calls) (fuel k : ℕ) (rest : Str) : (copyLoop c fuel k rest).length ≤ rest.length := by
  induction fuel generalizing k rest with
  | zero => exact Nat.zero_le _
  | succ fuel ih =>
    rw [copyLoop]
    split_ifs with hbf
    · exact Nat.zero_le _
    · have hrest := ih (k + 1) (rest.drop (chunk c k))
      rw [List.length_drop] at hrest
      rw [List.length_append, List.length_take, List.length_take]
      omega

theorem copies_succ {c : Calls} {k size : ℕ} (hsize : 0 < size) : Copies c k size ↔
    c.reads k ≠ none ∧ min (chunk c k) size ≤ (c.writes k).getD 0 ∧ Copies c (k + 1) (size - chunk c k) := by
  refine ⟨?_, ?_⟩
  · intro h
    obtain ⟨hread, hwrite⟩ := h 0 hsize
    refine ⟨hread, hwrite, fun n hn => ?_⟩
    have hnext := h (n + 1) (by rw [position]; omega)
    rwa [position, show k + (n + 1) = k + 1 + n by omega, ← Nat.sub_sub] at hnext
  · intro h n hn
    obtain ⟨hread, hwrite, hrest⟩ := h
    cases n with
    | zero => exact ⟨hread, hwrite⟩
    | succ n =>
      rw [position] at hn ⊢
      have hnext := hrest n (by omega)
      rwa [show k + (n + 1) = k + 1 + n by omega, ← Nat.sub_sub]

/-- **The copy is complete** exactly when, as long as something is left, reads succeed and writes take all. -/
theorem copyLoop_eq_iff (c : Calls) (fuel k : ℕ) (rest : Str) (hfuel : rest.length ≤ fuel) :
    copyLoop c fuel k rest = rest ↔ Copies c k rest.length := by
  induction fuel generalizing k rest with
  | zero =>
    obtain rfl : rest = [] := List.length_eq_zero_iff.1 (Nat.le_zero.1 hfuel)
    exact iff_of_true rfl fun n hn => absurd hn (Nat.not_lt_zero _)
  | succ fuel ih =>
    rcases eq_or_ne rest [] with rfl | hne
    · refine iff_of_true ?_ fun n hn => absurd hn (Nat.not_lt_zero _)
      rw [copyLoop]
      simp
    · have hpos : 0 < rest.length := List.length_pos_iff.2 hne
      rw [copies_succ hpos, copyLoop]
      by_cases hread : c.reads k = none
      · -- the loop ends, and the rest is missing
        have hbf : rest.take (chunk c k) = [] := by rw [chunk_eq_zero.2 hread, List.take_zero]
        rw [if_pos hbf]
        exact iff_of_false (fun h => hne h.symm) fun h => h.1 hread
      · have hchunk : 0 < chunk c k := Nat.pos_of_ne_zero fun h => hread (chunk_eq_zero.1 h)
        have hbf : rest.take (chunk c k) ≠ [] := by
          intro h
          have hlen := congrArg List.length h
          rw [List.length_take, List.length_nil] at hlen
          omega
        rw [if_neg hbf]
        have hrest := ih (k + 1) (rest.drop (chunk c k)) (by rw [List.length_drop]; omega)
        rw [List.length_drop] at hrest
        refine ⟨?_, ?_⟩
        · intro h
          -- what was read has been written whole, or too little is written in all
          have hlen := congrArg List.length h
          have hle := copyLoop_length_le c fuel (k + 1) (rest.drop (chunk c k))
          rw [List.length_append, List.length_take, List.length_take] at hlen
          rw [List.length_drop] at hle
          have hwrite : min (chunk c k) rest.length ≤ (c.writes k).getD 0 := by omega
          rw [List.take_of_length_le (by rw [List.length_take]; exact hwrite)] at h
          have hsame : rest.take (chunk c k) ++ copyLoop c fuel (k + 1) (rest.drop (chunk c k)) =
              rest.take (chunk c k) ++ rest.drop (chunk c k) := by rw [h, List.take_append_drop]
          exact ⟨hread, hwrite, hrest.1 (List.append_cancel_left hsame)⟩
        · intro h
          obtain ⟨-, hwrite, hcopies⟩ := h
          rw [List.take_of_length_le (by rw [List.length_take]; exact hwrite), hrest.2 hcopies,
            List.take_append_drop]

/-- **When no mail is lost.** For every mailbox and everything the calls answer: exactly when the mailbox is not
unlinked, or the copy is made without a failing read before its end and without a write that takes less than was
read. -/
theorem move_mail_keeps_iff (c : Calls) (content : Str) :
    Kept c content ↔ ¬c.opens ∨ ¬Created c ∨ ¬c.unlinks ∨ Copies c 0 content.length := by
  have hcopy := copyLoop_eq_iff c content.length 0 content le_rfl
  unfold Kept move_mail
  rw [← created_iff]
  cases c.opens with
  | false => simp
  | true =>
    cases createLoop c.creates 100 0 with
    | eexist => simp
    | failed => simp
    | created =>
      cases c.unlinks with
      | false => simp
      | true => simpa using hcopy

/-- **A full disk.** The write fails, the mailbox is gone, and the copy is empty. A short write leaves a part. -/
theorem disk_full :
    move_mail ⟨true, fun _ => .created, true, fun _ => some 1000, fun _ => none⟩ ['h', 'i'] = ⟨none, some []⟩ ∧
      ¬Kept ⟨true, fun _ => .created, true, fun _ => some 1000, fun _ => none⟩ ['h', 'i'] ∧
      move_mail ⟨true, fun _ => .created, true, fun _ => some 1000, fun _ => some 1⟩ ['h', 'i'] = ⟨none, some ['h']⟩ ∧
      ¬Kept ⟨true, fun _ => .created, true, fun _ => some 1000, fun _ => some 1⟩ ['h', 'i'] := by
  refine ⟨by decide, ?_, by decide, ?_⟩
  · unfold Kept
    decide
  · unfold Kept
    decide

end MNetSoft.Zapuser.MoveMail
