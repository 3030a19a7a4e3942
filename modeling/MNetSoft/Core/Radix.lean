/-
Numbers as big-endian lists of digits, and the two passes over such a list that convert between bases: division by a
small number from the left, and multiplication by one with a carry from the right. Digits are natural numbers; the base
and the number divided or multiplied by are parameters.

- `value`: the number a list of digits stands for (Mathlib's `Nat.ofDigits`, most significant digit first).
- `fixedDigits`: the digits of a number, as many as asked for.
- `longDivide_value`, `mulAdd_value`: what the two passes do to the value.
-/
import Mathlib.Tactic
import Mathlib.Data.Nat.Digits.Defs

namespace MNetSoft.Radix

variable {b d : ℕ}

/-! ## The value of a list of digits -/

/-- the number whose digits these are, most significant first -/
def value (b : ℕ) (ds : List ℕ) : ℕ := Nat.ofDigits b ds.reverse

@[simp] theorem value_nil : value b [] = 0 := rfl

theorem value_cons (x : ℕ) (ds : List ℕ) : value b (x :: ds) = x * b ^ ds.length + value b ds := by
  rw [value, List.reverse_cons, Nat.ofDigits_append, Nat.ofDigits_singleton, List.length_reverse, value]
  ring

theorem value_concat (ds : List ℕ) (x : ℕ) : value b (ds ++ [x]) = value b ds * b + x := by
  rw [value, List.reverse_append, List.reverse_singleton, List.singleton_append, Nat.ofDigits_cons, value]
  ring

theorem value_lt (hb : 1 < b) {ds : List ℕ} (h : ∀ x ∈ ds, x < b) : value b ds < b ^ ds.length := by
  have hlt := Nat.ofDigits_lt_base_pow_length hb fun x hx => h x (List.mem_reverse.1 hx)
  rwa [List.length_reverse] at hlt

/-- lists of digits of one length are told apart by their values -/
theorem value_inj (hb : 1 < b) {ds es : List ℕ} (hlen : ds.length = es.length) (hd : ∀ x ∈ ds, x < b)
    (he : ∀ x ∈ es, x < b) (h : value b ds = value b es) : ds = es := by
  have hrev := Nat.ofDigits_inj_of_len_eq hb (by simpa using hlen) (fun x hx => hd x (List.mem_reverse.1 hx))
    (fun x hx => he x (List.mem_reverse.1 hx)) h
  exact List.reverse_injective hrev

/-! ## The digits of a number -/

/-- the last `n` digits of `v` -/
def fixedDigits (b : ℕ) : ℕ → ℕ → List ℕ
  | 0, _ => []
  | n + 1, v => fixedDigits b n (v / b) ++ [v % b]

@[simp] theorem length_fixedDigits (n v : ℕ) : (fixedDigits b n v).length = n := by
  induction n generalizing v with
  | zero => rfl
  | succ n ih => simp [fixedDigits, ih]

theorem fixedDigits_lt (hb : 0 < b) (n v : ℕ) : ∀ x ∈ fixedDigits b n v, x < b := by
  induction n generalizing v with
  | zero => simp [fixedDigits]
  | succ n ih =>
    intro x hx
    rcases List.mem_append.1 hx with hx | hx
    · exact ih _ x hx
    · rw [List.mem_singleton.1 hx]
      exact Nat.mod_lt v hb

theorem value_fixedDigits (n v : ℕ) : value b (fixedDigits b n v) = v % b ^ n := by
  induction n generalizing v with
  | zero => simp [fixedDigits, Nat.mod_one]
  | succ n ih =>
    calc value b (fixedDigits b (n + 1) v) = value b (fixedDigits b n (v / b)) * b + v % b := value_concat _ _
      _ = v / b % b ^ n * b + v % b := by rw [ih]
      _ = v % b ^ (n + 1) := by
          rw [pow_succ', Nat.mod_mul]
          ring

/-! ## Division from the left -/

/-- divide by `d` with the remainder `r` of the digits to the left: the digits of the quotient, and the remainder -/
def longDivide (b d : ℕ) (r : ℕ) : List ℕ → List ℕ × ℕ
  | [] => ([], r)
  | x :: xs =>
    let rest := longDivide b d ((r * b + x) % d) xs
    ((r * b + x) / d :: rest.1, rest.2)

@[simp] theorem length_longDivide (r : ℕ) (ds : List ℕ) : (longDivide b d r ds).1.length = ds.length := by
  induction ds generalizing r with
  | nil => rfl
  | cons x xs ih => simp [longDivide, ih]

theorem longDivide_rem_lt {r : ℕ} (hr : r < d) (ds : List ℕ) : (longDivide b d r ds).2 < d := by
  induction ds generalizing r with
  | nil => exact hr
  | cons x xs ih => exact ih (Nat.mod_lt _ (Nat.zero_lt_of_lt hr))

/-- **Long division**: quotient times divisor plus remainder is what was there -/
theorem longDivide_value (r : ℕ) (ds : List ℕ) :
    value b (longDivide b d r ds).1 * d + (longDivide b d r ds).2 = r * b ^ ds.length + value b ds := by
  induction ds generalizing r with
  | nil => simp [longDivide]
  | cons x xs ih =>
    have hdiv := Nat.div_add_mod (r * b + x) d
    calc value b (longDivide b d r (x :: xs)).1 * d + (longDivide b d r (x :: xs)).2
        = (r * b + x) / d * b ^ xs.length * d + (value b (longDivide b d ((r * b + x) % d) xs).1 * d +
            (longDivide b d ((r * b + x) % d) xs).2) := by
          simp only [longDivide, value_cons, length_longDivide]
          ring
      _ = (d * ((r * b + x) / d) + (r * b + x) % d) * b ^ xs.length + value b xs := by
          rw [ih]
          ring
      _ = r * b ^ (x :: xs).length + value b (x :: xs) := by
          rw [hdiv, value_cons, List.length_cons, pow_succ]
          ring

theorem longDivide_zero (hd : 0 < d) (ds : List ℕ) :
    value b (longDivide b d 0 ds).1 = value b ds / d ∧ (longDivide b d 0 ds).2 = value b ds % d := by
  have hv := longDivide_value (b := b) (d := d) 0 ds
  have hr := longDivide_rem_lt (b := b) hd ds
  rw [Nat.zero_mul, Nat.zero_add] at hv
  rw [← hv]
  constructor
  · rw [Nat.mul_comm, Nat.mul_add_div hd, Nat.div_eq_of_lt hr, Nat.add_zero]
  · rw [Nat.mul_comm, Nat.mul_add_mod, Nat.mod_eq_of_lt hr]

/-! ## Multiplication from the right -/

/-- multiply by `d` and add `c`: the digits of the result, and the carry out of the leftmost one -/
def mulAdd (b d : ℕ) (c : ℕ) : List ℕ → List ℕ × ℕ
  | [] => ([], c)
  | x :: xs =>
    let rest := mulAdd b d c xs
    ((rest.2 + x * d) % b :: rest.1, (rest.2 + x * d) / b)

@[simp] theorem length_mulAdd (c : ℕ) (ds : List ℕ) : (mulAdd b d c ds).1.length = ds.length := by
  induction ds with
  | nil => rfl
  | cons x xs ih => simp [mulAdd, ih]

/-- **Multiply and add**: result and carry together are the product plus `c` -/
theorem mulAdd_value (c : ℕ) (ds : List ℕ) :
    value b (mulAdd b d c ds).1 + (mulAdd b d c ds).2 * b ^ ds.length = value b ds * d + c := by
  induction ds with
  | nil => simp [mulAdd]
  | cons x xs ih =>
    have hdiv := Nat.div_add_mod ((mulAdd b d c xs).2 + x * d) b
    calc value b (mulAdd b d c (x :: xs)).1 + (mulAdd b d c (x :: xs)).2 * b ^ (x :: xs).length
        = (b * (((mulAdd b d c xs).2 + x * d) / b) + ((mulAdd b d c xs).2 + x * d) % b) * b ^ xs.length +
            value b (mulAdd b d c xs).1 := by
          simp only [mulAdd, value_cons, length_mulAdd, List.length_cons, pow_succ]
          ring
      _ = x * d * b ^ xs.length + (value b (mulAdd b d c xs).1 + (mulAdd b d c xs).2 * b ^ xs.length) := by
          rw [hdiv]
          ring
      _ = value b (x :: xs) * d + c := by
          rw [ih, value_cons]
          ring

end MNetSoft.Radix
