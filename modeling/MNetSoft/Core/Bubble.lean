/-
Bubble sort, by a key. A pass carries an element to the right: wherever the next one has a smaller key the two change
places, and else the next one is carried on. After a pass over the first elements the greatest of these is the last of
them, so the next pass can be shorter by one.

- `carry_perm`, `le_carry`: what a pass moves, and what it carries to its end.
- `bubble_perm`, `bubble_sorted`: the passes leave a list in the order of the keys, with the elements there were.
-/
import Mathlib.Tactic

namespace MNetSoft.Bubble

variable {α β : Type*} [LinearOrder β] (key : α → β)

/-- carry `x` through a list: what is left behind, and what arrives -/
def carry : α → List α → List α × α
  | x, [] => ([], x)
  | x, y :: l =>
    if key y < key x then (y :: (carry x l).1, (carry x l).2) else (x :: (carry y l).1, (carry y l).2)

/-- a pass over the first `i + 1` elements -/
def pass (i : ℕ) : List α → List α
  | [] => []
  | x :: l => (carry key x (l.take i)).1 ++ (carry key x (l.take i)).2 :: l.drop i

/-- passes over the first `i + 1` elements, the first `i`, and so on -/
def bubble : ℕ → List α → List α
  | 0, l => l
  | i + 1, l => bubble i (pass key (i + 1) l)

theorem length_carry (x : α) (l : List α) : (carry key x l).1.length = l.length := by
  induction l generalizing x with
  | nil => rfl
  | cons y l ih =>
    rw [carry]
    split_ifs
    · rw [List.length_cons, ih, List.length_cons]
    · rw [List.length_cons, ih, List.length_cons]

/-- nothing is lost -/
theorem carry_perm (x : α) (l : List α) : ((carry key x l).1 ++ [(carry key x l).2]).Perm (x :: l) := by
  induction l generalizing x with
  | nil => exact List.Perm.refl _
  | cons y l ih =>
    rw [carry]
    split_ifs
    · exact ((ih x).cons y).trans (List.Perm.swap x y l)
    · exact (ih y).cons x

theorem le_carry_self (x : α) (l : List α) : key x ≤ key (carry key x l).2 := by
  induction l generalizing x with
  | nil => exact le_rfl
  | cons y l ih =>
    rw [carry]
    split_ifs with h
    · exact ih x
    · exact (not_lt.1 h).trans (ih y)

/-- what arrives has the greatest key -/
theorem le_carry (x : α) (l : List α) : ∀ y ∈ (carry key x l).1, key y ≤ key (carry key x l).2 := by
  induction l generalizing x with
  | nil => exact fun y hy => absurd hy List.not_mem_nil
  | cons y l ih =>
    rw [carry]
    split_ifs with h
    · exact List.forall_mem_cons.2 ⟨h.le.trans (le_carry_self key x l), ih x⟩
    · exact List.forall_mem_cons.2 ⟨(not_lt.1 h).trans (le_carry_self key y l), ih y⟩

theorem pass_perm (i : ℕ) (l : List α) : (pass key i l).Perm l := by
  cases l with
  | nil => exact List.Perm.refl _
  | cons x l =>
    have hfront := (carry_perm key x (l.take i)).append_right (l.drop i)
    rw [List.append_assoc, List.singleton_append, List.cons_append, List.take_append_drop] at hfront
    exact hfront

theorem length_pass (i : ℕ) (l : List α) : (pass key i l).length = l.length := (pass_perm key i l).length_eq

theorem bubble_perm (i : ℕ) (l : List α) : (bubble key i l).Perm l := by
  induction i generalizing l with
  | zero => exact List.Perm.refl _
  | succ i ih => exact (ih _).trans (pass_perm key _ l)

/-- **The passes sort** the first elements, if the others are in order behind them. -/
theorem bubble_sorted {i : ℕ} {front back : List α} (hlen : front.length = i + 1)
    (hle : ∀ x ∈ front, ∀ y ∈ back, key x ≤ key y) (hback : back.Pairwise fun x y => key x ≤ key y) :
    (bubble key i (front ++ back)).Pairwise fun x y => key x ≤ key y := by
  induction i generalizing front back with
  | zero =>
    obtain ⟨x, rfl⟩ := List.length_eq_one_iff.1 hlen
    exact List.pairwise_cons.2 ⟨hle x List.mem_cons_self, hback⟩
  | succ i ih =>
    cases front with
    | nil => cases hlen
    | cons x l =>
      have hl : l.length = i + 1 := Nat.succ.inj hlen
      have hpass : pass key (i + 1) (x :: l ++ back) = (carry key x l).1 ++ ((carry key x l).2 :: back) := by
        rw [List.cons_append, pass, List.take_left' hl, List.drop_left' hl]
      have hmem : ∀ y, y ∈ (carry key x l).1 ∨ y = (carry key x l).2 → y ∈ x :: l := by
        intro y hy
        rw [← (carry_perm key x l).mem_iff, List.mem_append, List.mem_singleton]
        exact hy
      rw [bubble, hpass]
      refine ih ((length_carry key x l).trans hl) ?_ ?_
      · intro y hy
        refine List.forall_mem_cons.2 ⟨le_carry key x l y hy, ?_⟩
        exact hle y (hmem y (Or.inl hy))
      · exact List.pairwise_cons.2 ⟨hle _ (hmem _ (Or.inr rfl)), hback⟩

end MNetSoft.Bubble
