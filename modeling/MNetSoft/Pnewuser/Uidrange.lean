/-
The range of user ids that `nuseradd` passes on to `useradd`, two numbers with two dots between them: `valid_uidrange`
(`nuseradd.c`) is to accept numbers from MINUID to UID_MAX, the first not after the second.

Each number is read by `strtol`, which skips white space and reads nothing as 0, and is stored in a `uid_t` of 32 bits
before it is compared. So UID_MAX is never exceeded, and the two numbers are not compared with each other.
- `valid_uidrange_iff`: what is accepted.
- `uidrange_right_iff`: it is right if and only if there is memory, and a text that is accepted has no white space, its
  first number is not negative, and its second one is not before it nor beyond UID_MAX.
- `reversed`: a range that ends before it starts.

`strtol` reads a long of 64 bits to any base (`strtoll`). UID_MAX is the greatest `uid_t`.
-/
import Mathlib.Tactic
import Mathlib.Data.BitVec
import MNetSoft.Core.CString
import MNetSoft.Core.Numerals

namespace MNetSoft.Pnewuser.Nuseradd

open MNetSoft.CString MNetSoft.Numerals

/-! ## Model -/

def MINUID : ℕ := 100

def UID_MAX : ℕ := 2 ^ 32 - 1

/-- `strtol` into a `uid_t`; `none` if something is left of the text -/
def strtouid (str : Str) : Option (BitVec 32) :=
  let (r, p, _) := strtoll str
  if p ≠ [] then none else some (BitVec.ofInt 32 r)

/-- `strchr` finds the first dot; `memory` is whether `strdup` finds some -/
def valid_uidrange (memory : Bool) (uidrange : Str) : ℕ :=
  if !memory then 0
  else
    let minstr := uidrange.takeWhile (· ≠ '.')
    match uidrange.dropWhile (· ≠ '.') with
    | _ :: '.' :: maxstr =>
      match strtouid minstr, strtouid maxstr with
      | some min, some max =>
        if min.toNat < MINUID then 0
        else if max.toNat > UID_MAX then 0
        else 1
      | _, _ => 0
    | _ => 0

/-! ## Ranges -/

/-- two numbers with two dots between them, from MINUID to UID_MAX and in order -/
def IsRange (s : Str) : Prop :=
  ∃ a b : Str, ∃ m n : ℤ, s = a ++ '.' :: '.' :: b ∧ number a = some m ∧ number b = some n ∧
    MINUID ≤ m ∧ m ≤ n ∧ n ≤ UID_MAX

/-- Exactly the ranges are accepted. -/
def UidrangeRight (memory : Bool) (s : Str) : Prop := valid_uidrange memory s = 1 ↔ IsRange s

/-- a number as a long, and what is left of it in a `uid_t` -/
def low (v : ℤ) : BitVec 32 := BitVec.ofInt 32 (max (-2 ^ 63) (min v (2 ^ 63 - 1)))

/-- If the first number is one, after white space, and not below MINUID as a `uid_t`, and the second one is nothing or a
number after white space: there is no white space, and they are in order. -/
def Strict (s : Str) : Prop :=
  ∀ a b : Str, ∀ m : ℤ, s = a ++ '.' :: '.' :: b → '.' ∉ a → number (skipSpace a) = some m → MINUID ≤ (low m).toNat →
    (b = [] ∨ (number (skipSpace b)).isSome) →
      skipSpace a = a ∧ skipSpace b = b ∧ 0 ≤ m ∧ ∃ n ∈ number b, m ≤ n ∧ n ≤ UID_MAX

/-! ## What is accepted -/

/-- **What is read**: nothing, which is 0, or a number after white space. -/
theorem strtouid_eq (s : Str) :
    strtouid s = if s = [] then some 0 else (number (skipSpace s)).map low := by
  by_cases hnil : s = []
  · subst hnil
    rfl
  rw [if_neg hnil, strtouid]
  cases hv : number (skipSpace s) with
  | none =>
    have hrest : (strtoll s).2.1 ≠ [] := by
      rcases strtoll_none hv with hne | hnone
      · exact hne
      · rw [hnone]
        exact hnil
    exact if_pos hrest
  | some v =>
    rw [strtoll_number hv, Option.map_some, low]
    split_ifs with hlo hhi
    · rw [min_eq_left (by omega), max_eq_left (by omega)]
      rfl
    · rw [min_eq_right (by omega), max_eq_right (by norm_num)]
      rfl
    · rw [min_eq_left (by omega), max_eq_right (by omega)]
      rfl

/-- a text with two dots is accepted if both numbers are read, and the first one is not below MINUID -/
theorem valid_uidrange_dots {a : Str} (ha : '.' ∉ a) (b : Str) : valid_uidrange true (a ++ '.' :: '.' :: b) = 1 ↔
    ∃ min max, strtouid a = some min ∧ strtouid b = some max ∧ MINUID ≤ min.toNat := by
  have hall : ∀ c ∈ a, (decide (c ≠ '.')) = true := fun c hc => decide_eq_true fun h => ha (h ▸ hc)
  have htake : (a ++ '.' :: '.' :: b).takeWhile (· ≠ '.') = a := by
    rw [List.takeWhile_append_of_pos hall, List.takeWhile_cons_of_neg (by decide), List.append_nil]
  have hdrop : (a ++ '.' :: '.' :: b).dropWhile (· ≠ '.') = '.' :: '.' :: b := by
    rw [List.dropWhile_append_of_pos hall, List.dropWhile_cons_of_neg (by decide)]
  rw [valid_uidrange]
  simp only [htake, hdrop, Bool.not_true, Bool.false_eq_true, if_false]
  cases strtouid a with
  | none => simp
  | some min =>
    cases strtouid b with
    | none => simp
    | some max =>
      have hmax : ¬max.toNat > UID_MAX := not_lt.2 (Nat.le_sub_one_of_lt max.isLt)
      by_cases hmin : min.toNat < MINUID
      · simp [hmin]
      · simpa [hmin, hmax] using not_lt.1 hmin

theorem exists_dots {s : Str} (h : valid_uidrange true s = 1) : ∃ a b : Str, '.' ∉ a ∧ s = a ++ '.' :: '.' :: b := by
  have hsplit := List.takeWhile_append_dropWhile (p := (· ≠ '.')) (l := s)
  have hdot : '.' ∉ s.takeWhile (· ≠ '.') := fun h => by simpa using List.mem_takeWhile_imp h
  rw [valid_uidrange] at h
  simp only [Bool.not_true, Bool.false_eq_true, if_false] at h
  split at h
  · rename_i c b hdrop
    have hc : c = '.' := by
      have hne : s.dropWhile (fun c => decide (c ≠ '.')) ≠ [] := by
        rw [hdrop]
        exact List.cons_ne_nil c _
      have hhead := List.head_dropWhile_not (fun c => decide (c ≠ '.')) hne
      simpa only [hdrop, List.head_cons, decide_eq_false_iff_not, not_not] using hhead
    rw [hdrop, hc] at hsplit
    exact ⟨_, b, hdot, hsplit.symm⟩
  · cases h

/-- **What is accepted**: a number from MINUID on as a `uid_t`, two dots, and nothing or a number; both may have white
space in front. -/
theorem valid_uidrange_iff (s : Str) : valid_uidrange true s = 1 ↔
    ∃ a b : Str, ∃ m : ℤ, s = a ++ '.' :: '.' :: b ∧ '.' ∉ a ∧ number (skipSpace a) = some m ∧
      MINUID ≤ (low m).toNat ∧ (b = [] ∨ (number (skipSpace b)).isSome) := by
  have hread : ∀ b, (∃ max, strtouid b = some max) ↔ b = [] ∨ (number (skipSpace b)).isSome := by
    intro b
    rw [strtouid_eq]
    by_cases hnil : b = []
    · simp [hnil]
    · simp [hnil, Option.isSome_iff_exists]
  have hmin : ∀ a, (∃ min, strtouid a = some min ∧ MINUID ≤ min.toNat) ↔
      ∃ m, number (skipSpace a) = some m ∧ MINUID ≤ (low m).toNat := by
    intro a
    rw [strtouid_eq]
    by_cases hnil : a = []
    · subst hnil
      simp [MINUID, number, skipSpace, scanSign, scanBase, skipPrefix]
    · simp [hnil]
  constructor
  · intro h
    obtain ⟨a, b, ha, rfl⟩ := exists_dots h
    obtain ⟨min, max, hread₁, hread₂, hle⟩ := (valid_uidrange_dots ha b).1 h
    obtain ⟨m, hm, hlow⟩ := (hmin a).1 ⟨min, hread₁, hle⟩
    exact ⟨a, b, m, rfl, ha, hm, hlow, (hread b).1 ⟨max, hread₂⟩⟩
  · rintro ⟨a, b, m, rfl, ha, hm, hlow, hb⟩
    obtain ⟨min, hread₁, hle⟩ := (hmin a).2 ⟨m, hm, hlow⟩
    obtain ⟨max, hread₂⟩ := (hread b).2 hb
    exact (valid_uidrange_dots ha b).2 ⟨min, max, hread₁, hread₂, hle⟩

/-! ## When it is right -/

theorem dot_not_mem {a : Str} {m : ℤ} (h : number a = some m) : '.' ∉ a := by
  intro hmem
  rcases number_chars h _ hmem with hc | hc | hc <;> cases hc

theorem toNat_low {m : ℤ} (h0 : 0 ≤ m) (h1 : m ≤ UID_MAX) : ((low m).toNat : ℤ) = m := by
  have hmax : (UID_MAX : ℤ) = 2 ^ 32 - 1 := rfl
  rw [low, min_eq_left (by omega), max_eq_right (by omega), BitVec.toNat_ofInt]
  omega

theorem valid_of_isRange {s : Str} (h : IsRange s) : valid_uidrange true s = 1 := by
  obtain ⟨a, b, m, n, rfl, hm, hn, hmin, hle, hmax⟩ := h
  have hlow := toNat_low (show 0 ≤ m by omega) (hle.trans hmax)
  refine (valid_uidrange_iff _).2 ⟨a, b, m, rfl, dot_not_mem hm, by rwa [skipSpace_number hm], by omega, Or.inr ?_⟩
  rw [skipSpace_number hn, hn]
  rfl

/-- **Exactly the ranges are accepted** if and only if there is memory, or the text is none, and a text that is accepted
has no white space, its first number is not negative, and its second one is not before it nor beyond UID_MAX. -/
theorem uidrange_right_iff (memory : Bool) (s : Str) :
    UidrangeRight memory s ↔ if memory then Strict s else ¬IsRange s := by
  cases memory with
  | false => simp [UidrangeRight, valid_uidrange]
  | true =>
    rw [if_pos rfl, UidrangeRight]
    constructor
    · intro h a b m hs ha hm hlow hb
      have hvalid := (valid_uidrange_iff s).2 ⟨a, b, m, hs, ha, hm, hlow, hb⟩
      obtain ⟨a', b', m', n, hs', hm', hn, hmin, hle, hmax⟩ := h.1 hvalid
      obtain ⟨rfl, htail⟩ := append_cons_inj ha (dot_not_mem hm') (hs.symm.trans hs')
      obtain rfl : b = b' := (List.cons.inj htail).2
      have hskip := skipSpace_number hm'
      rw [hskip, hm', Option.some_inj] at hm
      subst hm
      exact ⟨hskip, skipSpace_number hn, by omega, n, hn, hle, hmax⟩
    · intro h
      refine ⟨fun hvalid => ?_, valid_of_isRange⟩
      obtain ⟨a, b, m, hs, ha, hm, hlow, hb⟩ := (valid_uidrange_iff s).1 hvalid
      obtain ⟨ha', -, h0, n, hn, hle, hmax⟩ := h a b m hs ha hm hlow hb
      have hsame := toNat_low h0 (hle.trans hmax)
      exact ⟨a, b, m, n, hs, by rwa [ha'] at hm, hn, by omega, hle, hmax⟩

/-- A range that ends before it starts is accepted. -/
theorem reversed : ¬UidrangeRight true "500..200".toList := by
  have hvalid : valid_uidrange true "500..200".toList = 1 := by decide
  intro h
  obtain ⟨a, b, m, n, hs, hm, hn, -, hle, -⟩ := h.1 hvalid
  obtain ⟨rfl, htail⟩ := append_cons_inj (dot_not_mem hm) (show '.' ∉ "500".toList by decide)
    (hs.symm.trans (show "500..200".toList = "500".toList ++ '.' :: ".200".toList by decide))
  obtain rfl : b = "200".toList := (List.cons.inj htail).2
  have hm' : number "500".toList = some 500 := by decide
  have hn' : number "200".toList = some 200 := by decide
  rw [hm', Option.some_inj] at hm
  rw [hn', Option.some_inj] at hn
  omega

end MNetSoft.Pnewuser.Nuseradd
