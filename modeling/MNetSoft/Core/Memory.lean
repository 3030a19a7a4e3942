/-
The cells of one object in memory (a buffer, a string, an array), for programs that work in place. A position outside
the object is undefined behaviour (`none`). A position reached by a scan is given by what stands in front of it, and the
lemmas are stated that way: `load_append`, `store_append` and `blit_append` read and write at the seam of an append.
What is given a pointer and walks on from it is a function of the cells from the pointer on; `onward` calls it.
- `Local`: a function that stays within the cells it has does the same with more cells behind them.
- `onward_frame`: such a call changes its cells and nothing around them.
-/
import Mathlib.Tactic

namespace MNetSoft.Memory

variable {α : Type*} {m m' pre post old new : List α} {a b : α} {i : ℕ}

def load (m : List α) (i : ℕ) : Option α := m[i]?

/-- write a run of cells -/
def blit (m : List α) (i : ℕ) (new : List α) : Option (List α) :=
  if i + new.length ≤ m.length then some (m.take i ++ new ++ m.drop (i + new.length)) else none

/-- write one cell -/
def store (m : List α) (i : ℕ) (a : α) : Option (List α) := blit m i [a]

/-! ## At the seam of an append -/

theorem load_append (hi : i = pre.length) : load (pre ++ a :: post) i = some a := by simp [load, hi]

theorem blit_append (hi : i = pre.length) (hlen : new.length = old.length) :
    blit (pre ++ old ++ post) i new = some (pre ++ new ++ post) := by
  have hfit : i + new.length ≤ (pre ++ old ++ post).length := by
    rw [List.length_append, List.length_append]
    omega
  have htake : (pre ++ old ++ post).take i = pre := by
    rw [hi, List.append_assoc, List.take_left]
  have hdrop : (pre ++ old ++ post).drop (i + new.length) = post := by
    rw [hi, hlen, ← List.length_append, List.drop_left]
  rw [blit, if_pos hfit, htake, hdrop]

theorem store_append (hi : i = pre.length) : store (pre ++ a :: post) i b = some (pre ++ b :: post) := by
  have h := @blit_append α pre post [a] [b] i hi rfl
  simpa [store] using h

theorem store_frame (h : store m i a = some m') (pre post : List α) :
    store (pre ++ m ++ post) (pre.length + i) a = some (pre ++ m' ++ post) := by
  unfold store blit at h ⊢
  split at h
  case isTrue hfit =>
    cases h
    rw [List.length_singleton] at hfit ⊢
    have htake : (pre ++ m ++ post).take (pre.length + i) = pre ++ m.take i := by
      rw [List.append_assoc, List.take_length_add_append, List.take_append_of_le_length (by omega)]
    have hdrop : (pre ++ m ++ post).drop (pre.length + i + 1) = m.drop (i + 1) ++ post := by
      rw [List.append_assoc, add_assoc, List.drop_length_add_append, List.drop_append_of_le_length (by omega)]
    rw [if_pos (by simp only [List.length_append]; omega), htake, hdrop]
    simp
  case isFalse => cases h

theorem store_eq_set (h : store m i a = some m') : i < m.length ∧ m' = m.set i a := by
  unfold store blit at h
  rw [List.length_singleton] at h
  split at h
  case isTrue hfit =>
    cases h
    refine ⟨by omega, ?_⟩
    rw [List.set_eq_take_append_cons_drop, if_pos (by omega), List.append_assoc, List.singleton_append]
  case isFalse => cases h

theorem length_blit (h : blit m i new = some m') : m'.length = m.length := by
  unfold blit at h
  split at h
  case isTrue hfit =>
    cases h
    simp only [List.length_append, List.length_take, List.length_drop]
    omega
  case isFalse => cases h

/-! ## Calls with a pointer -/

/-- a call of `f` with a pointer to the cell `p` -/
def onward (m : List α) (p : ℕ) (f : List α → Option (List α)) : Option (List α) := (f (m.drop p)).map (m.take p ++ ·)

/-- where `f` stays within its cells, it does the same with more cells behind them -/
def Local (f : List α → Option (List α)) : Prop := ∀ m m' post, f m = some m' → f (m ++ post) = some (m' ++ post)

/-- the same for a function that only reads -/
def LocalRead {β : Type*} (f : List α → Option β) : Prop := ∀ m b post, f m = some b → f (m ++ post) = some b

theorem onward_zero (m : List α) (f : List α → Option (List α)) : onward m 0 f = f m := by simp [onward]

theorem onward_frame {f : List α → Option (List α)} (hf : Local f) (h : f m = some m') (pre post : List α) :
    onward (pre ++ m ++ post) pre.length f = some (pre ++ m' ++ post) := by
  have hdrop : (pre ++ m ++ post).drop pre.length = m ++ post := by rw [List.append_assoc, List.drop_left]
  have htake : (pre ++ m ++ post).take pre.length = pre := by rw [List.append_assoc, List.take_left]
  rw [onward, hdrop, hf m m' post h, htake, Option.map_some, List.append_assoc]

end MNetSoft.Memory
