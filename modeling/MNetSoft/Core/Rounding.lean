/-
Accumulators that are rounded each time they are read back. `round` is any function that never rounds down; an amount
is added to the rounded accumulator, and so on. Nothing here is about a particular program.

- `le_accumulate`: the accumulator is never below the exact sum.
- `accumulate_exact_iff`: reading the accumulator gives the exact sum if and only if `round` was exact on the exact sum
  after every prefix of the amounts.
-/
import Mathlib.Tactic
import Mathlib.Algebra.Order.Group.Defs
import Mathlib.Algebra.BigOperators.Group.List.Basic

namespace MNetSoft.Rounding

variable {G : Type*} [AddCommGroup G] (round : G → G)

/-- start from `b` and add the amounts, rounding the accumulator before each addition -/
def accumulate (b : G) (ds : List G) : G := ds.foldl (fun s d => round s + d) b

@[simp] theorem accumulate_nil (b : G) : accumulate round b [] = b := rfl

@[simp] theorem accumulate_cons (b d : G) (ds : List G) :
    accumulate round b (d :: ds) = accumulate round (round b + d) ds := rfl

theorem accumulate_append (b : G) (ds es : List G) :
    accumulate round b (ds ++ es) = accumulate round (accumulate round b ds) es := by
  simp [accumulate, List.foldl_append]

variable [PartialOrder G] [IsOrderedAddMonoid G] {round}

theorem le_accumulate (hround : ∀ b, b ≤ round b) (b : G) (ds : List G) : b + ds.sum ≤ accumulate round b ds := by
  induction ds generalizing b with
  | nil => simp
  | cons d ds ih =>
    calc b + (d :: ds).sum = b + d + ds.sum := by rw [List.sum_cons, add_assoc]
      _ ≤ round b + d + ds.sum := add_le_add_left (add_le_add_left (hround b) d) ds.sum
      _ ≤ accumulate round (round b + d) ds := ih (round b + d)

/-- **Exactness of a rounded accumulator.** Reading it gives the exact sum if and only if `round` is exact on the sum
of every prefix. -/
theorem accumulate_exact_iff (hround : ∀ b, b ≤ round b) (b : G) (ds : List G) :
    round (accumulate round b ds) = b + ds.sum ↔
      ∀ pre, pre <+: ds → round (b + pre.sum) = b + pre.sum := by
  induction ds generalizing b with
  | nil => simp
  | cons d ds ih =>
    rw [accumulate_cons, List.sum_cons]
    refine ⟨?_, ?_⟩
    · intro h pre hpre
      -- rounding at the start can only have been exact, since nothing is ever rounded down again
      have hlow : round b + d + ds.sum ≤ b + (d + ds.sum) := by
        rw [← h]
        exact (le_accumulate hround _ _).trans (hround _)
      have hb : round b = b := by
        rw [add_assoc] at hlow
        exact le_antisymm (le_of_add_le_add_right hlow) (hround b)
      rcases List.prefix_cons_iff.1 hpre with rfl | ⟨pre', rfl, hpre'⟩
      · simpa using hb
      · rw [hb, ← add_assoc] at h
        have hrec := (ih (b + d)).1 h pre' hpre'
        simpa [List.sum_cons, add_assoc] using hrec
    · intro h
      have hb : round b = b := by simpa using h [] List.nil_prefix
      rw [hb, ← add_assoc]
      refine (ih (b + d)).2 fun pre hpre => ?_
      have hrec := h (d :: pre) (List.prefix_cons_iff.2 (Or.inr ⟨pre, rfl, hpre⟩))
      simpa [List.sum_cons, add_assoc] using hrec

end MNetSoft.Rounding
