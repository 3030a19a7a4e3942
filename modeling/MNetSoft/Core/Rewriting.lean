/-
Two letters in a row, `a` and `b`, that are replaced by a text `e` again and again, the first ones first, until there
are none; `a` is not in `e`. A replacement can make new ones, of an `a` in front of it and a `b` at its beginning or
behind it.
- `find_eq_some`, `find_eq_zero`: where the first ones are.
- `normal_replace`: a replacement, anywhere, does not change what is left in the end.
- `normal_of_find`, `find_normal`: what is left in the end is what has none of them.
- `count_replace`: every replacement takes an `a` away, so there is an end.
-/
import Mathlib.Tactic

namespace MNetSoft.Rewriting

variable {α : Type*} [DecidableEq α]

/-- the place of the first `a` and `b` in a row -/
def find (a b : α) : List α → Option ℕ
  | [] => none
  | c :: s => if c = a ∧ s.head? = some b then some 0 else (find a b s).map (· + 1)

/-- a letter in front of a text in which nothing is to be replaced -/
def push (a b : α) (e : List α) (c : α) (t : List α) : List α :=
  if c = a ∧ t.head? = some b then e ++ t.tail else c :: t

/-- what is left in the end -/
def normal (a b : α) (e s : List α) : List α := s.foldr (push a b e) []

section Find

variable {a b c : α} {s t u v : List α} {n : ℕ}

theorem find_eq_some (h : find a b s = some n) : ∃ u v, s = u ++ a :: b :: v ∧ u.length = n := by
  induction s generalizing n with
  | nil => cases h
  | cons c s ih =>
    rw [find] at h
    split_ifs at h with hc
    · obtain ⟨rfl, hs⟩ := hc
      obtain ⟨v, rfl⟩ := List.head?_eq_some_iff.1 hs
      exact ⟨[], v, rfl, Option.some.inj h⟩
    · obtain ⟨m, hm, rfl⟩ := Option.map_eq_some_iff.1 h
      obtain ⟨u, v, rfl, hu⟩ := ih hm
      exact ⟨c :: u, v, rfl, by rw [List.length_cons, hu]⟩

theorem find_cons : find a b (c :: s) = none ↔ ¬(c = a ∧ s.head? = some b) ∧ find a b s = none := by
  rw [find]
  split_ifs with hc
  · exact iff_of_false (by simp) fun h => h.1 hc
  · rw [Option.map_eq_none_iff]
    exact (and_iff_right hc).symm

theorem find_append (hu : a ∉ u) : find a b (u ++ t) = none ↔ find a b t = none := by
  induction u with
  | nil => rfl
  | cons c u ih =>
    have hc : c ≠ a := fun h => hu (h ▸ List.mem_cons_self)
    rw [List.cons_append, find_cons, and_iff_right fun h => hc h.1]
    exact ih fun h => hu (List.mem_cons_of_mem c h)

/-- the first ones are at the beginning -/
theorem find_eq_zero : find a b s = some 0 ↔ [a, b] <+: s := by
  cases s with
  | nil => simp [find]
  | cons c s =>
    rw [find, List.cons_prefix_cons]
    cases s with
    | nil => simp [find]
    | cons d s =>
      rw [List.cons_prefix_cons]
      split_ifs with hc
      · exact iff_of_true rfl ⟨hc.1.symm, (Option.some.inj hc.2).symm, List.nil_prefix⟩
      · refine iff_of_false (fun h => ?_) fun h => hc ⟨h.1.symm, congrArg some h.2.1.symm⟩
        obtain ⟨m, -, hm⟩ := Option.map_eq_some_iff.1 h
        exact absurd hm (Nat.succ_ne_zero m)

end Find

section Normal

variable {a b : α} {e s t u v : List α} (hab : a ≠ b) (he : a ∉ e)

theorem normal_append (u v : List α) : normal a b e (u ++ v) = u.foldr (push a b e) (normal a b e v) :=
  List.foldr_append

theorem normal_append_of_not_mem (hu : a ∉ u) (v : List α) : normal a b e (u ++ v) = u ++ normal a b e v := by
  rw [normal_append]
  induction u with
  | nil => rfl
  | cons c u ih =>
    have hc : c ≠ a := fun h => hu (h ▸ List.mem_cons_self)
    rw [List.foldr_cons, ih fun h => hu (List.mem_cons_of_mem c h), push, if_neg fun h => hc h.1, List.cons_append]

/-- a text without them is left as it is -/
theorem normal_of_find (h : find a b s = none) : normal a b e s = s := by
  induction s with
  | nil => rfl
  | cons c s ih =>
    obtain ⟨hc, hs⟩ := find_cons.1 h
    have hcons : normal a b e (c :: s) = push a b e c (normal a b e s) := rfl
    rw [hcons, ih hs, push, if_neg hc]

include hab he

/-- **A replacement** does not change what is left in the end. -/
theorem normal_replace (u v : List α) : normal a b e (u ++ a :: b :: v) = normal a b e (u ++ (e ++ v)) := by
  have hv : normal a b e (a :: b :: v) = normal a b e (e ++ v) := by
    calc normal a b e (a :: b :: v) = push a b e a (push a b e b (normal a b e v)) := rfl
      _ = push a b e a (b :: normal a b e v) := congrArg _ (if_neg fun h => hab h.1.symm)
      _ = e ++ normal a b e v := if_pos ⟨rfl, rfl⟩
      _ = normal a b e (e ++ v) := (normal_append_of_not_mem he v).symm
  rw [normal_append, hv, ← normal_append]

omit hab in
/-- nothing is to be replaced in what is left in the end -/
theorem find_normal (s : List α) : find a b (normal a b e s) = none := by
  induction s with
  | nil => rfl
  | cons c s ih =>
    have hcons : normal a b e (c :: s) = push a b e c (normal a b e s) := rfl
    rw [hcons, push]
    split_ifs with hc
    · obtain ⟨t, ht⟩ := List.head?_eq_some_iff.1 hc.2
      rw [ht] at ih
      rw [ht, List.tail_cons, find_append he]
      exact (find_cons.1 ih).2
    · exact find_cons.2 ⟨hc, ih⟩

theorem count_normal_le (s : List α) : (normal a b e s).count a ≤ s.count a := by
  induction s with
  | nil => exact le_rfl
  | cons c s ih =>
    have hcons : normal a b e (c :: s) = push a b e c (normal a b e s) := rfl
    have hle : s.count a ≤ (c :: s).count a := List.count_le_count_cons
    rw [hcons, push]
    split_ifs with hc
    · obtain ⟨t, ht⟩ := List.head?_eq_some_iff.1 hc.2
      rw [ht, List.count_cons_of_ne hab.symm] at ih
      rw [ht, List.tail_cons, List.count_append, List.count_eq_zero.2 he, zero_add]
      exact ih.trans hle
    · rw [List.count_cons, List.count_cons]
      exact Nat.add_le_add_right ih _

/-- every replacement takes an `a` away -/
theorem count_replace (u v : List α) : (u ++ a :: b :: v).count a = (u ++ (e ++ v)).count a + 1 := by
  rw [List.count_append, List.count_append, List.count_append, List.count_cons_self, List.count_cons_of_ne hab.symm,
    List.count_eq_zero.2 he, zero_add, Nat.add_assoc]

end Normal

end MNetSoft.Rewriting
