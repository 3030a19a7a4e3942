/-
Files of fixed-size records addressed by record number, as `lseek` to `n * size` followed by one whole-record read or
write sees them. Nothing here is about a particular record type.

- `readAt`: the record at a position; `none` where the read comes back short, at or beyond the end of file.
- `writeAt`: the file after one whole record is written at a position. A write beyond the end leaves a hole that reads
  back as `zero` records.
- `valueAt`: what a reader gets that treats a short read as a `zero` record.
-/
import Mathlib.Tactic

namespace MNetSoft.Records

variable {ρ : Type*} (zero : ρ)

/-- the record at position `n`, `none` at and beyond the end of file -/
def readAt (file : List ρ) (n : ℕ) : Option ρ := file[n]?

/-- the file after a record is written at position `n` -/
def writeAt (file : List ρ) (n : ℕ) (v : ρ) : List ρ :=
  if n < file.length then file.set n v else file ++ List.replicate (n - file.length) zero ++ [v]

/-- the record at position `n`, a short read taken as a zero record -/
def valueAt (file : List ρ) (n : ℕ) : ρ := (readAt file n).getD zero

@[simp] theorem readAt_writeAt_self (file : List ρ) (n : ℕ) (v : ρ) : readAt (writeAt zero file n v) n = some v := by
  unfold writeAt readAt
  split_ifs with h
  · simp [h]
  · rw [List.getElem?_append_right (by simp; omega)]
    simp [show n - (file.length + (n - file.length)) = 0 by omega]

/-- a write changes no other record; at most it fills a hole with zero records -/
theorem readAt_writeAt_of_ne (file : List ρ) {n m : ℕ} (v : ρ) (h : m ≠ n) :
    readAt (writeAt zero file n v) m = readAt file m ∨
      (readAt file m = none ∧ readAt (writeAt zero file n v) m = some zero) := by
  unfold writeAt readAt
  split_ifs with hn
  · left
    rw [List.getElem?_set_ne (Ne.symm h)]
  · by_cases hm : m < file.length
    · left
      rw [List.getElem?_append_left (by simp; omega), List.getElem?_append_left hm]
    · have hnone : file[m]? = none := List.getElem?_eq_none (by omega)
      by_cases hmn : m < n
      · right
        refine ⟨hnone, ?_⟩
        rw [List.getElem?_append_left (by simp; omega), List.getElem?_append_right (by omega)]
        simp only [List.getElem?_replicate]
        rw [if_pos (by omega)]
      · left
        rw [hnone, List.getElem?_eq_none_iff]
        simp only [List.length_append, List.length_replicate, List.length_singleton]
        omega

@[simp] theorem valueAt_writeAt_self (file : List ρ) (n : ℕ) (v : ρ) : valueAt zero (writeAt zero file n v) n = v := by
  simp [valueAt]

theorem valueAt_writeAt_of_ne (file : List ρ) {n m : ℕ} (v : ρ) (h : m ≠ n) :
    valueAt zero (writeAt zero file n v) m = valueAt zero file m := by
  unfold valueAt
  rcases readAt_writeAt_of_ne zero file v h with h | ⟨h1, h2⟩
  · rw [h]
  · rw [h1, h2]; rfl

/-- a write within the file or at its end leaves no hole -/
theorem readAt_writeAt_of_le {file : List ρ} {n : ℕ} (v : ρ) (h : n ≤ file.length) (m : ℕ) :
    readAt (writeAt zero file n v) m = if m = n then some v else readAt file m := by
  split_ifs with hm
  · rw [hm, readAt_writeAt_self]
  · unfold writeAt readAt
    split_ifs with hn
    · rw [List.getElem?_set_ne (Ne.symm hm)]
    · obtain rfl : n = file.length := by omega
      rw [Nat.sub_self, List.replicate_zero, List.append_nil]
      by_cases hlt : m < file.length
      · rw [List.getElem?_append_left hlt]
      · rw [List.getElem?_eq_none (by simp; omega), List.getElem?_eq_none (by omega)]

theorem le_length_writeAt (file : List ρ) (n : ℕ) (v : ρ) : file.length ≤ (writeAt zero file n v).length := by
  unfold writeAt
  split_ifs <;> simp

/-- writing what is there already -/
theorem writeAt_eq_self {file : List ρ} {n : ℕ} {v : ρ} (h : readAt file n = some v) :
    writeAt zero file n v = file := by
  obtain ⟨hlt, hv⟩ := List.getElem?_eq_some_iff.1 h
  rw [writeAt, if_pos hlt, ← hv, List.set_getElem_self]

end MNetSoft.Records
