/-
The random order in which `vote.c` shows the candidates: `rndorder`. Two arrays are sorted in step by random numbers; a
read or write outside an array is `none`. Memory is not exhausted.

- `innerLoop_eq`, `outerLoop_eq`: the loops on the two arrays are the passes of a bubble sort of one list, `rnd` being
  the random numbers of `p` throughout.
- `rndorder_perm`: every number below `n` stands in `p` once, whatever the random numbers are.
-/
import Mathlib.Tactic
import MNetSoft.Core.Bubble
import MNetSoft.Core.Memory

namespace MNetSoft.Vote

open MNetSoft.Memory MNetSoft.Bubble

/-! ## Model -/

structure Arrays where
  rnd : List ℤ
  p : List ℕ
deriving DecidableEq, Repr

/-- `p[i] = i` and `rnd[i] = arc4random()`, for `k` values of `i` -/
def fillLoop (random : ℕ → ℤ) : ℕ → ℕ → Arrays → Option Arrays
  | 0, _, a => some a
  | k + 1, i, a => do
    let p ← store a.p i i
    let rnd ← store a.rnd i (random i)
    fillLoop random k (i + 1) ⟨rnd, p⟩

/-- the body of the inner loop -/
def compareSwap (j : ℕ) (a : Arrays) : Option Arrays := do
  let tmp ← load a.rnd j
  let prev ← load a.rnd (j - 1)
  if tmp < prev then
    let rnd ← store a.rnd j prev
    let rnd ← store rnd (j - 1) tmp
    let itmp ← load a.p j
    let before ← load a.p (j - 1)
    let p ← store a.p j before
    let p ← store p (j - 1) itmp
    return ⟨rnd, p⟩
  else return a

/-- the inner loop, for `k` values of `j` -/
def innerLoop : ℕ → ℕ → Arrays → Option Arrays
  | 0, _, a => some a
  | k + 1, j, a => do
    let a ← compareSwap j a
    innerLoop k (j + 1) a

/-- the outer loop, from `i` down to 1 -/
def outerLoop : ℕ → Arrays → Option Arrays
  | 0, a => some a
  | i + 1, a => do
    let a ← innerLoop (i + 1) 1 a
    outerLoop i a

/-- `random i` is the number drawn for `i` -/
def rndorder (random : ℕ → ℤ) (p : List ℕ) (n : ℕ) : Option (List ℕ) := do
  let a ← fillLoop random n 0 ⟨List.replicate n 0, p⟩
  let a ← outerLoop (n - 1) a
  return a.p

/-! ## The loops -/

section Loops

variable (random : ℕ → ℤ)

/-- the arrays when `rnd` has the random numbers of `p` -/
def Arrays.of (p : List ℕ) : Arrays := ⟨p.map random, p⟩

theorem fillLoop_eq {k i : ℕ} {p₁ p₂ : List ℕ} {rnd₂ : List ℤ} (hi : i = p₁.length) (hp : p₂.length = k)
    (hrnd : rnd₂.length = k) :
    fillLoop random k i ⟨p₁.map random ++ rnd₂, p₁ ++ p₂⟩ = some (.of random (p₁ ++ List.range' i k)) := by
  induction k generalizing i p₁ p₂ rnd₂ with
  | zero =>
    rw [List.length_eq_zero_iff.1 hp, List.length_eq_zero_iff.1 hrnd]
    simp [fillLoop, Arrays.of]
  | succ k ih =>
    obtain ⟨a, p₂, rfl⟩ := List.exists_cons_of_length_eq_add_one hp
    obtain ⟨b, rnd₂, rfl⟩ := List.exists_cons_of_length_eq_add_one hrnd
    have hp' : store (p₁ ++ a :: p₂) i i = some (p₁ ++ [i] ++ p₂) := by
      rw [store_append hi, List.append_assoc, List.singleton_append]
    have hrnd' : store (p₁.map random ++ b :: rnd₂) i (random i) = some ((p₁ ++ [i]).map random ++ rnd₂) := by
      rw [store_append (by rw [hi, List.length_map]), List.map_append, List.append_assoc]
      rfl
    have hrec : fillLoop random k (i + 1) ⟨(p₁ ++ [i]).map random ++ rnd₂, p₁ ++ [i] ++ p₂⟩ =
        some (.of random (p₁ ++ [i] ++ List.range' (i + 1) k)) :=
      ih (by simp [hi]) (Nat.succ.inj hp) (Nat.succ.inj hrnd)
    rw [fillLoop]
    simp only [hp', hrnd', Option.bind_eq_bind, Option.bind_some, hrec]
    rw [List.range'_succ, List.append_assoc, List.singleton_append]

theorem append_two {α : Type} (l r : List α) (a b : α) : l ++ a :: b :: r = l ++ [a] ++ b :: r := by
  rw [List.append_assoc, List.singleton_append]

theorem store_swap {α : Type} {l : List α} {j : ℕ} (hl : l.length + 1 = j) (r : List α) (a b : α) :
    (store (l ++ a :: b :: r) j a >>= fun m => store m (j - 1) b) = some (l ++ b :: a :: r) := by
  have hright : store (l ++ a :: b :: r) j a = some (l ++ a :: a :: r) := by
    rw [append_two, store_append (by simp [← hl]), ← append_two]
  rw [hright, Option.bind_eq_bind, Option.bind_some]
  exact store_append (by omega)

/-- **The body of the inner loop** puts two neighbours in order. -/
theorem compareSwap_eq {pre post : List ℕ} {x y j : ℕ} (hj : j = pre.length + 1) :
    compareSwap j (.of random (pre ++ x :: y :: post)) =
      some (.of random (if random y < random x then pre ++ y :: x :: post else pre ++ x :: y :: post)) := by
  have hj' : j - 1 = pre.length := by omega
  have hrnd : (pre ++ x :: y :: post).map random = pre.map random ++ random x :: random y :: post.map random := by simp
  have hfirst : load (pre.map random ++ random x :: random y :: post.map random) (j - 1) = some (random x) :=
    load_append (by rw [hj', List.length_map])
  have hsecond : load (pre.map random ++ random x :: random y :: post.map random) j = some (random y) := by
    rw [append_two]
    exact load_append (by simp [hj])
  rw [compareSwap, Arrays.of, hrnd]
  simp only [hfirst, hsecond, Option.bind_eq_bind, Option.bind_some]
  split_ifs with hlt
  · have hpfirst : load (pre ++ x :: y :: post) (j - 1) = some x := load_append hj'
    have hpsecond : load (pre ++ x :: y :: post) j = some y := by
      rw [append_two]
      exact load_append (by simp [hj])
    have hlength : (pre.map random).length + 1 = j := by rw [List.length_map, hj]
    have hr := store_swap hlength (post.map random) (random x) (random y)
    have hp := store_swap hj.symm post x y
    obtain ⟨r₁, hr₁, hr₂⟩ := Option.bind_eq_some_iff.1 hr
    obtain ⟨p₁, hp₁, hp₂⟩ := Option.bind_eq_some_iff.1 hp
    simp only [hr₁, hr₂, hpfirst, hpsecond, hp₁, hp₂, Option.bind_some, Option.pure_def]
    simp [Arrays.of]
  · rw [Option.pure_def, Arrays.of, hrnd]

/-- **The inner loop** is a pass. -/
theorem innerLoop_eq {k j x : ℕ} {pre mid post : List ℕ} (hj : j = pre.length + 1) (hmid : mid.length = k) :
    innerLoop k j (.of random (pre ++ x :: (mid ++ post))) =
      some (.of random (pre ++ ((carry random x mid).1 ++ (carry random x mid).2 :: post))) := by
  induction k generalizing j x pre mid with
  | zero =>
    rw [List.length_eq_zero_iff.1 hmid]
    rfl
  | succ k ih =>
    obtain ⟨y, mid, rfl⟩ := List.exists_cons_of_length_eq_add_one hmid
    have hcons : ∀ (a : ℕ) (r : List ℕ), pre ++ a :: r = pre ++ [a] ++ r := by simp
    rw [innerLoop, List.cons_append, compareSwap_eq random hj, carry, Option.bind_eq_bind, Option.bind_some]
    split_ifs
    · rw [hcons, ih (by simp [hj]) (Nat.succ.inj hmid), List.cons_append, ← hcons]
    · rw [hcons, ih (by simp [hj]) (Nat.succ.inj hmid), List.cons_append, ← hcons]

/-- **The outer loop** is the passes. -/
theorem outerLoop_eq {i : ℕ} {p : List ℕ} (hi : i < p.length) :
    outerLoop i (.of random p) = some (.of random (bubble random i p)) := by
  induction i generalizing p with
  | zero => rfl
  | succ i ih =>
    cases p with
    | nil => cases hi
    | cons x l =>
      rw [List.length_cons] at hi
      have hinner : innerLoop (i + 1) 1 (.of random ([] ++ x :: (l.take (i + 1) ++ l.drop (i + 1)))) =
          some (.of random (pass random (i + 1) (x :: l))) :=
        innerLoop_eq random rfl (List.length_take_of_le (by omega))
      rw [List.take_append_drop] at hinner
      have hlen : i < (pass random (i + 1) (x :: l)).length := by
        rw [length_pass, List.length_cons]
        omega
      rw [outerLoop, ← List.nil_append (x :: l), hinner, Option.bind_eq_bind, Option.bind_some]
      exact ih hlen

/-- **The order** is a permutation, by increasing random numbers. -/
theorem rndorder_perm {p : List ℕ} {n : ℕ} (hp : p.length = n) : ∃ q, rndorder random p n = some q ∧
    q.Perm (List.range n) ∧ q.Pairwise fun a b => random a ≤ random b := by
  have hfill : fillLoop random n 0 ⟨List.replicate n 0, p⟩ = some (.of random (List.range n)) := by
    rw [List.range_eq_range']
    have hempty : (0 : ℕ) = ([] : List ℕ).length := rfl
    exact fillLoop_eq random hempty hp List.length_replicate
  refine ⟨bubble random (n - 1) (List.range n), ?_, bubble_perm random _ _, ?_⟩
  · rw [rndorder, hfill, Option.bind_eq_bind, Option.bind_some]
    cases n with
    | zero => rfl
    | succ n =>
      rw [outerLoop_eq random (by rw [List.length_range]; omega)]
      rfl
  · cases n with
    | zero => exact List.Pairwise.nil
    | succ n =>
      have hsorted : (bubble random n (List.range (n + 1) ++ [])).Pairwise fun a b => random a ≤ random b :=
        bubble_sorted random List.length_range (fun _ _ y hy => absurd hy List.not_mem_nil) List.Pairwise.nil
      rwa [List.append_nil] at hsorted

end Loops

end MNetSoft.Vote
