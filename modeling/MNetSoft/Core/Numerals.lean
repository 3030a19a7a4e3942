/-
How C prints and reads integers: the conversions `%d` and `%lX` of `printf`, `atoi` and `strtol`, and `%d` and `%lx` of
`scanf`. Texts are `Str`; an int has 32 bits, a long has 64. A number too big for a long is read as the greatest one, as
`strtol` and `strtoul` do, and an int is what is left of a long in 32 bits.

- `scanDigits_toDigits`: digits of any base are read as the number they were printed from.
- `scanInt_printInt`, `scanHex_printHex`: what `printf` prints, `scanf` reads.
- `strtoll_number`, `strtoll_none`: what is made of a text that is a number to any base, and of one that is none.
-/
import Mathlib.Tactic
import MNetSoft.Core.CString

namespace MNetSoft.Numerals

open MNetSoft.CString

/-! ## Digits -/

/-- the value of a digit, letters of either case coming after 9 -/
def digitVal (c : Char) : Option ℕ :=
  if '0' ≤ c ∧ c ≤ '9' then some (c.toNat - 48)
  else if 'a' ≤ c ∧ c ≤ 'z' then some (c.toNat - 87)
  else if 'A' ≤ c ∧ c ≤ 'Z' then some (c.toNat - 55)
  else none

/-- the value of a digit of base `b` -/
def digit (b : ℕ) (c : Char) : Option ℕ := (digitVal c).filter (· < b)

/-- a text goes on with a digit of base `b` -/
def StartsWithDigit (b : ℕ) (s : Str) : Prop := ∃ c ∈ s.head?, (digit b c).isSome = true

instance (b : ℕ) (s : Str) : Decidable (StartsWithDigit b s) :=
  Option.decidableExistsMem s.head?

/-- read digits as long as there are some, `acc` being the value so far -/
def scanDigits (b acc : ℕ) : Str → ℕ × Str
  | [] => (acc, [])
  | c :: s =>
    match digit b c with
    | none => (acc, c :: s)
    | some d => scanDigits b (acc * b + d) s

theorem scanDigits_of_not_starts {b : ℕ} {s : Str} (h : ¬ StartsWithDigit b s) (acc : ℕ) :
    scanDigits b acc s = (acc, s) := by
  cases s with
  | nil => rfl
  | cons c s =>
    have hc : digit b c = none := by
      rw [← Option.not_isSome_iff_eq_none]
      exact fun hc => h ⟨c, rfl, hc⟩
    rw [scanDigits, hc]

/-- a number is read up to its end -/
theorem scanDigits_append {b : ℕ} {s t : Str} (hs : ∀ c ∈ s, (digit b c).isSome = true) (ht : ¬ StartsWithDigit b t)
    (acc : ℕ) : scanDigits b acc (s ++ t) = ((scanDigits b acc s).1, t) := by
  induction s generalizing acc with
  | nil => exact scanDigits_of_not_starts ht acc
  | cons c s ih =>
    obtain ⟨hc, hs⟩ := List.forall_mem_cons.1 hs
    obtain ⟨d, hd⟩ := Option.isSome_iff_exists.1 hc
    simp only [List.cons_append, scanDigits, hd, ih hs]

/-- digits printed by `Nat.toDigits`, with the characters changed by `φ`, are read as their number -/
theorem scanDigits_toDigits {b : ℕ} {φ : Char → Char} (hb : 1 < b)
    (hφ : ∀ d < b, digit b (φ (Nat.digitChar d)) = some d) (n : ℕ) (s : Str) :
    scanDigits b 0 ((Nat.toDigits b n).map φ ++ s) = scanDigits b n s := by
  induction n using Nat.strong_induction_on generalizing s with
  | _ n ih =>
    rw [Nat.toDigits_eq_if hb]
    split_ifs with hn
    · simp only [List.map_singleton, List.singleton_append, scanDigits, hφ n hn, zero_mul, zero_add]
    · have hlt : n / b < n := Nat.div_lt_self (by omega) hb
      have hmod : n % b < b := Nat.mod_lt n (by omega)
      calc scanDigits b 0 ((Nat.toDigits b (n / b) ++ [Nat.digitChar (n % b)]).map φ ++ s)
          = scanDigits b 0 ((Nat.toDigits b (n / b)).map φ ++ φ (Nat.digitChar (n % b)) :: s) := by
            rw [List.map_append, List.append_assoc]; rfl
        _ = scanDigits b (n / b) (φ (Nat.digitChar (n % b)) :: s) := ih _ hlt _
        _ = scanDigits b (n / b * b + n % b) s := by rw [scanDigits, hφ _ hmod]
        _ = scanDigits b n s := by rw [Nat.div_add_mod' n b]

theorem isSome_of_mem_toDigits {b : ℕ} {φ : Char → Char} (hb : 1 < b)
    (hφ : ∀ d < b, digit b (φ (Nat.digitChar d)) = some d) (n : ℕ) :
    ∀ c ∈ (Nat.toDigits b n).map φ, (digit b c).isSome = true := by
  induction n using Nat.strong_induction_on with
  | _ n ih =>
    intro c hc
    rw [Nat.toDigits_eq_if hb] at hc
    split_ifs at hc with hn
    · rw [List.map_singleton, List.mem_singleton] at hc
      rw [hc, hφ n hn]
      rfl
    · rw [List.map_append, List.map_singleton] at hc
      rcases List.mem_append.1 hc with hc | hc
      · exact ih _ (Nat.div_lt_self (by omega) hb) c hc
      · rw [List.mem_singleton.1 hc, hφ _ (Nat.mod_lt n (by omega))]
        rfl

theorem startsWithDigit_append {b : ℕ} {ds : Str} (hne : ds ≠ []) (h : ∀ c ∈ ds, (digit b c).isSome = true) (s : Str) :
    StartsWithDigit b (ds ++ s) := by
  cases ds with
  | nil => exact absurd rfl hne
  | cons c ds => exact ⟨c, rfl, h c List.mem_cons_self⟩

/-- what is printed starts with a digit -/
theorem startsWithDigit_toDigits {b : ℕ} {φ : Char → Char} (hb : 1 < b)
    (hφ : ∀ d < b, digit b (φ (Nat.digitChar d)) = some d) (n : ℕ) (s : Str) :
    StartsWithDigit b ((Nat.toDigits b n).map φ ++ s) :=
  startsWithDigit_append (fun h => Nat.toDigits_ne_nil (List.map_eq_nil_iff.1 h)) (isSome_of_mem_toDigits hb hφ n) s

theorem digit_decimal : ∀ d < 10, digit 10 (id (Nat.digitChar d)) = some d := by decide

theorem digit_of_decimal {c : Char} (h : '0' ≤ c ∧ c ≤ '9') : (digit 10 c).isSome = true := by
  have hval : c.toNat ≤ 57 := h.2
  rw [digit, digitVal, if_pos h, Option.filter_some, if_pos (by simp; omega)]
  rfl

/-- decimal digits are read as their number -/
theorem scanDigits_decimal (n : ℕ) {s : Str} (hs : ¬ StartsWithDigit 10 s) :
    scanDigits 10 0 (Nat.toDigits 10 n ++ s) = (n, s) := by
  have hscan := scanDigits_toDigits (by norm_num) digit_decimal n s
  rw [List.map_id] at hscan
  rw [hscan, scanDigits_of_not_starts hs]

theorem startsWithDigit_decimal (n : ℕ) (s : Str) : StartsWithDigit 10 (Nat.toDigits 10 n ++ s) := by
  have hstart := startsWithDigit_toDigits (by norm_num) digit_decimal n s
  rwa [List.map_id] at hstart

theorem digit_hex : ∀ d < 16, digit 16 (Nat.digitChar d).toUpper = some d := by decide

/-! ## Printing -/

/-- `%d` -/
def printInt (n : ℤ) : Str := (if n < 0 then ['-'] else []) ++ Nat.toDigits 10 n.natAbs

/-- `%lX` -/
def printHex (n : BitVec 64) : Str := (Nat.toDigits 16 n.toNat).map Char.toUpper

/-! ## Reading -/

/-- a sign, if there is one -/
def scanSign : Str → Bool × Str
  | '-' :: s => (true, s)
  | '+' :: s => (false, s)
  | s => (false, s)

/-- a long from its digits and its sign -/
def toLong (neg : Bool) (n : ℕ) : ℤ := if neg then -(min n (2 ^ 63) : ℕ) else (min n (2 ^ 63 - 1) : ℕ)

/-- an unsigned long from its digits and its sign -/
def toULong (neg : Bool) (n : ℕ) : BitVec 64 :=
  if 2 ^ 64 ≤ n then BitVec.allOnes 64 else if neg then -BitVec.ofNat 64 n else BitVec.ofNat 64 n

/-- a long stored in an int -/
def toInt (n : ℤ) : ℤ := n.bmod (2 ^ 32)

/-- `atoi`, 0 for a text that does not start with a number -/
def atoi (s : Str) : ℤ :=
  let (neg, s) := scanSign (skipSpace s)
  toInt (toLong neg (scanDigits 10 0 s).1)

/-- `atoi`, where it is defined: the number has to be an int -/
def atoiInt (s : Str) : Option ℤ :=
  let (neg, s) := scanSign (skipSpace s)
  let n : ℤ := if neg then -(scanDigits 10 0 s).1 else (scanDigits 10 0 s).1
  if -2 ^ 31 ≤ n ∧ n < 2 ^ 31 then some n else none

/-- `strtol` to base 10: the long and what is left, the whole text if it does not start with a number -/
def strtol (s : Str) : ℤ × Str :=
  let (neg, t) := scanSign (skipSpace s)
  if StartsWithDigit 10 t then (toLong neg (scanDigits 10 0 t).1, (scanDigits 10 0 t).2) else (0, s)

/-- `%d`: the int and what is left -/
def scanInt (s : Str) : Option (ℤ × Str) :=
  let (neg, s) := scanSign (skipSpace s)
  if StartsWithDigit 10 s then some (toInt (toLong neg (scanDigits 10 0 s).1), (scanDigits 10 0 s).2) else none

/-- a `0x` in front of hexadecimal digits -/
def skipPrefix : Str → Str
  | '0' :: x :: s => if (x = 'x' ∨ x = 'X') ∧ StartsWithDigit 16 s then s else '0' :: x :: s
  | s => s

/-- the base of a number is seen from its beginning (base 0 of `strtol`); what follows are its digits -/
def scanBase (s : Str) : ℕ × Str :=
  if skipPrefix s ≠ s then (16, skipPrefix s) else if s.head? = some '0' then (8, s) else (10, s)

inductive Errno where
  | EINVAL
  | ERANGE
deriving DecidableEq, Repr

/-- `strtoll` to base 0: the number, what is left (the whole text if it does not start with a number) and `errno` -/
def strtoll (s : Str) : ℤ × Str × Option Errno :=
  let (neg, t) := scanSign (skipSpace s)
  let (b, t) := scanBase t
  if StartsWithDigit b t then
    let (n, rest) := scanDigits b 0 t
    let r : ℤ := if neg then -n else n
    if r < -2 ^ 63 then (-2 ^ 63, rest, some .ERANGE)
    else if 2 ^ 63 - 1 < r then (2 ^ 63 - 1, rest, some .ERANGE)
    else (r, rest, none)
  else (0, s, some .EINVAL)

/-- the integer a text is the literal of: decimal, octal or hexadecimal, with or without a sign -/
def number (s : Str) : Option ℤ :=
  let (neg, t) := scanSign s
  let (b, t) := scanBase t
  if t ≠ [] ∧ ∀ c ∈ t, (digit b c).isSome then
    some (if neg then -(scanDigits b 0 t).1 else (scanDigits b 0 t).1)
  else none

/-- `%lx`: the unsigned long and what is left -/
def scanHex (s : Str) : Option (BitVec 64 × Str) :=
  let (neg, s) := scanSign (skipSpace s)
  let s := skipPrefix s
  if StartsWithDigit 16 s then some (toULong neg (scanDigits 16 0 s).1, (scanDigits 16 0 s).2) else none

/-! ## What is printed is read -/

theorem toInt_of_range {n : ℤ} (h0 : -2 ^ 31 ≤ n) (h1 : n < 2 ^ 31) : toInt n = n := by
  rw [toInt]
  apply Int.bmod_eq_of_le
  · norm_num at h0 ⊢
    omega
  · norm_num at h1 ⊢
    omega

theorem toLong_of_lt {n : ℕ} (h : n < 2 ^ 63) : toLong false n = n := by
  rw [toLong, if_neg Bool.false_ne_true, min_eq_left (by omega)]

theorem toULong_toNat (n : BitVec 64) : toULong false n.toNat = n := by
  rw [toULong, if_neg (by have := n.isLt; omega), if_neg Bool.false_ne_true, BitVec.ofNat_toNat, BitVec.setWidth_eq]

/-- what is no digit ends a number -/
theorem not_startsWithDigit_cons {b : ℕ} {c : Char} (h : digit b c = none) (s : Str) :
    ¬ StartsWithDigit b (c :: s) := by
  intro ⟨a, ha, hd⟩
  cases ha
  rw [h] at hd
  cases hd

/-- a digit is not white space and no sign -/
theorem digit_none_of_space {b : ℕ} {c : Char} (h : isspace c = true ∨ c = '-' ∨ c = '+') : digit b c = none := by
  have hval : digitVal c = none := by
    rcases h with h | rfl | rfl
    · simp only [isspace, List.mem_cons, List.not_mem_nil, or_false, decide_eq_true_eq] at h
      rcases h with rfl | rfl | rfl | rfl | rfl | rfl <;> rfl
    · rfl
    · rfl
  rw [digit, hval, Option.filter_none]

theorem skipSpace_of_digit {b : ℕ} {s : Str} (h : StartsWithDigit b s) : skipSpace s = s := by
  obtain ⟨c, hc, hd⟩ := h
  cases s with
  | nil => cases hc
  | cons a s =>
    cases hc
    apply List.dropWhile_cons_of_neg
    intro hspace
    rw [digit_none_of_space (Or.inl hspace)] at hd
    cases hd

theorem scanSign_of_digit {b : ℕ} {s : Str} (h : StartsWithDigit b s) : scanSign s = (false, s) := by
  obtain ⟨c, hc, hd⟩ := h
  have hsign : ¬ (c = '-' ∨ c = '+') := by
    intro h
    rw [digit_none_of_space (Or.inr h)] at hd
    cases hd
  cases s with
  | nil => cases hc
  | cons a s =>
    cases hc
    rw [scanSign]
    · intro t ht
      exact hsign (Or.inl (List.cons.inj ht).1)
    · intro t ht
      exact hsign (Or.inr (List.cons.inj ht).1)

theorem skipSpace_cons {c : Char} (h : isspace c = true) (s : Str) : skipSpace (c :: s) = skipSpace s :=
  List.dropWhile_cons_of_pos h

theorem skipSpace_of_not_space {s : Str} (hs : ∀ c ∈ s, isspace c = false) : skipSpace s = s := by
  cases s with
  | nil => rfl
  | cons c s => exact List.dropWhile_cons_of_neg (by simp [hs c List.mem_cons_self])

/-- **`%d` reads what `%d` printed**, after any white space and in front of anything but a digit. -/
theorem scanInt_printInt {n : ℤ} (h0 : -2 ^ 31 ≤ n) (h1 : n < 2 ^ 31) {s : Str} (hs : ¬ StartsWithDigit 10 s) :
    scanInt (printInt n ++ s) = some (n, s) := by
  have hstart : StartsWithDigit 10 (Nat.toDigits 10 n.natAbs ++ s) := startsWithDigit_decimal n.natAbs s
  have hscan : scanDigits 10 0 (Nat.toDigits 10 n.natAbs ++ s) = (n.natAbs, s) := scanDigits_decimal n.natAbs hs
  rw [printInt, List.append_assoc]
  split_ifs with hneg
  · have hlong : toLong true n.natAbs = n := by
      rw [toLong, if_pos rfl, min_eq_left (by norm_num at h0 ⊢; omega)]
      omega
    have hskip : skipSpace ('-' :: (Nat.toDigits 10 n.natAbs ++ s)) = '-' :: (Nat.toDigits 10 n.natAbs ++ s) :=
      List.dropWhile_cons_of_neg (by decide)
    rw [List.singleton_append, scanInt, hskip, scanSign]
    simp only [if_pos hstart, hscan, hlong, toInt_of_range h0 h1]
  · have hlong : toLong false n.natAbs = n := by
      rw [toLong_of_lt (by norm_num at h1 ⊢; omega)]
      omega
    rw [List.nil_append, scanInt, skipSpace_of_digit hstart, scanSign_of_digit hstart]
    simp only [if_pos hstart, hscan, hlong, toInt_of_range h0 h1]

theorem scanDigits_append_cons {b : ℕ} {c : Char} (hc : digit b c = none) (acc : ℕ) (s t : Str) :
    scanDigits b acc (s ++ c :: t) = ((scanDigits b acc s).1, (scanDigits b acc s).2 ++ c :: t) := by
  induction s generalizing acc with
  | nil => simp [scanDigits, hc]
  | cons d s ih =>
    rw [List.cons_append, scanDigits, scanDigits]
    cases digit b d with
    | none => rfl
    | some d => exact ih _

theorem scanDigits_suffix (b acc : ℕ) (s : Str) : (scanDigits b acc s).2 <:+ s := by
  induction s generalizing acc with
  | nil => exact List.suffix_rfl
  | cons c s ih =>
    rw [scanDigits]
    cases digit b c with
    | none => exact List.suffix_rfl
    | some d => exact (ih _).trans (List.suffix_cons c s)

theorem scanSign_suffix (s : Str) : (scanSign s).2 <:+ s := by
  rw [scanSign.eq_def]
  split
  · exact List.suffix_cons _ _
  · exact List.suffix_cons _ _
  · exact List.suffix_rfl

theorem scanInt_suffix {s r : Str} {n : ℤ} (h : scanInt s = some (n, r)) : r <:+ s := by
  simp only [scanInt] at h
  split_ifs at h
  cases h
  exact (scanDigits_suffix _ _ _).trans ((scanSign_suffix _).trans (List.dropWhile_suffix _))

/-- **`%d` does not look behind** the character that ends the number. -/
theorem scanInt_append {s r : Str} {n : ℤ} (h : scanInt s = some (n, r)) {c : Char} (hc : digit 10 c = none) (t : Str) :
    scanInt (s ++ c :: t) = some (n, r ++ c :: t) := by
  simp only [scanInt] at h
  split_ifs at h with hstart
  have hne : skipSpace s ≠ [] := by
    intro hnil
    rw [hnil] at hstart
    obtain ⟨d, hd, -⟩ := hstart
    cases hd
  have hskip : skipSpace (s ++ c :: t) = skipSpace s ++ c :: t := by
    rw [skipSpace, List.dropWhile_append, if_neg (by simpa [skipSpace] using hne)]
    rfl
  have hsign : scanSign (skipSpace s ++ c :: t) =
      ((scanSign (skipSpace s)).1, (scanSign (skipSpace s)).2 ++ c :: t) := by
    obtain ⟨d, u, hu⟩ := List.exists_cons_of_ne_nil hne
    rw [hu, List.cons_append, scanSign.eq_def, scanSign.eq_def]
    split <;> simp_all
  have hstart' : StartsWithDigit 10 ((scanSign (skipSpace s)).2 ++ c :: t) := by
    obtain ⟨d, hd, hdigit⟩ := hstart
    exact ⟨d, by rw [Option.mem_def] at hd ⊢; rw [List.head?_append, hd]; rfl, hdigit⟩
  rw [scanInt, hskip, hsign]
  simp only [if_pos hstart', scanDigits_append_cons hc]
  cases h
  rfl

/-- `atoi` does not look behind a NUL -/
theorem atoiInt_append_nul (s t : Str) : atoiInt (s ++ '\x00' :: t) = atoiInt s := by
  have hnul : digit 10 '\x00' = none := by decide
  have hskip : skipSpace (s ++ '\x00' :: t) = skipSpace s ++ '\x00' :: t := by
    rw [skipSpace, skipSpace, List.dropWhile_append]
    cases s.dropWhile isspace with
    | nil => rfl
    | cons c u => rfl
  have hsign : scanSign (skipSpace s ++ '\x00' :: t) =
      ((scanSign (skipSpace s)).1, (scanSign (skipSpace s)).2 ++ '\x00' :: t) := by
    cases skipSpace s with
    | nil => rfl
    | cons c u =>
      rw [List.cons_append, scanSign.eq_def, scanSign.eq_def]
      split <;> simp_all
  rw [atoiInt, atoiInt, hskip, hsign]
  simp only [scanDigits_append_cons hnul]

/-- a number that is not negative starts with a digit -/
theorem startsWithDigit_printInt {n : ℤ} (hn : 0 ≤ n) (s : Str) : StartsWithDigit 10 (printInt n ++ s) := by
  rw [printInt, if_neg (by omega), List.nil_append]
  exact startsWithDigit_decimal n.natAbs s

/-- `atoi` reads what `%d` printed, if it is not negative -/
theorem atoi_printInt {n : ℤ} (h0 : 0 ≤ n) (h1 : n < 2 ^ 31) {s : Str} (hs : ¬ StartsWithDigit 10 s) :
    atoi (printInt n ++ s) = n := by
  have hstart : StartsWithDigit 10 (Nat.toDigits 10 n.natAbs ++ s) := startsWithDigit_decimal n.natAbs s
  have hlong : toLong false n.natAbs = n := by
    rw [toLong_of_lt (by norm_num at h1 ⊢; omega)]
    omega
  rw [printInt, if_neg (by omega), List.nil_append, atoi, skipSpace_of_digit hstart, scanSign_of_digit hstart]
  simp only [scanDigits_decimal n.natAbs hs, hlong]
  exact toInt_of_range (by omega) h1

/-- `strtol` reads what `%ld` printed, if it is not negative -/
theorem strtol_printInt {n : ℤ} (h0 : 0 ≤ n) (h1 : n < 2 ^ 63) : strtol (printInt n) = (n, []) := by
  have hstart : StartsWithDigit 10 (Nat.toDigits 10 n.natAbs) := by
    simpa using startsWithDigit_decimal n.natAbs []
  have hscan : scanDigits 10 0 (Nat.toDigits 10 n.natAbs) = (n.natAbs, []) := by
    simpa using scanDigits_decimal n.natAbs (s := []) (by simp [StartsWithDigit])
  have hlong : toLong false n.natAbs = n := by
    rw [toLong_of_lt (by norm_num at h1 ⊢; omega)]
    omega
  rw [printInt, if_neg (by omega), List.nil_append, strtol, skipSpace_of_digit hstart, scanSign_of_digit hstart]
  simp only [if_pos hstart, hscan, hlong]

/-! ## What a number looks like -/

theorem length_printInt_le {n : ℤ} (h0 : -2 ^ 31 ≤ n) (h1 : n < 2 ^ 31) : (printInt n).length ≤ 11 := by
  have hdigits : (Nat.toDigits 10 n.natAbs).length ≤ 10 := by
    rw [Nat.length_toDigits_le_iff (by norm_num) (by norm_num)]
    norm_num at h0 h1 ⊢
    omega
  rw [printInt, List.length_append]
  split_ifs
  · rw [List.length_singleton]
    omega
  · rw [List.length_nil]
    omega

theorem length_printHex_le (n : BitVec 64) : (printHex n).length ≤ 16 := by
  rw [printHex, List.length_map, Nat.length_toDigits_le_iff (by norm_num) (by norm_num)]
  exact n.isLt

/-- a number that is not negative has no character that is not a digit -/
theorem not_mem_printInt {n : ℤ} (h : 0 ≤ n) {c : Char} (hc : digit 10 c = none) : c ∉ printInt n := by
  intro hmem
  rw [printInt, if_neg (by omega), List.nil_append] at hmem
  have hd := isSome_of_mem_toDigits (φ := id) (by norm_num) digit_decimal n.natAbs c (by rwa [List.map_id])
  rw [hc] at hd
  cases hd

theorem not_mem_printHex (n : BitVec 64) {c : Char} (hc : digit 16 c = none) : c ∉ printHex n := by
  intro hmem
  have hd := isSome_of_mem_toDigits (by norm_num) digit_hex n.toNat c hmem
  rw [hc] at hd
  cases hd

/-- hexadecimal digits without a prefix are left as they are -/
theorem skipPrefix_digits {ds s : Str} (hne : ds ≠ []) (h : ∀ c ∈ ds, (digit 16 c).isSome = true)
    (hs : ∀ c ∈ s.head?, c ≠ 'x' ∧ c ≠ 'X') : skipPrefix (ds ++ s) = ds ++ s := by
  have hhead : ∀ x t, ds ++ s = '0' :: x :: t → ¬ (x = 'x' ∨ x = 'X') := by
    intro x t hx
    cases ds with
    | nil => exact absurd rfl hne
    | cons c ds =>
      cases ds with
      | nil =>
        have hxs : s = x :: t := (List.cons.inj hx).2
        rw [not_or]
        exact hs x (by rw [hxs]; rfl)
      | cons c2 ds =>
        have hx2 : c2 = x := (List.cons.inj (List.cons.inj hx).2).1
        have hd : (digit 16 x).isSome = true := hx2 ▸ h c2 (List.mem_cons_of_mem c List.mem_cons_self)
        intro hcase
        rcases hcase with rfl | rfl
        · exact absurd hd (by decide)
        · exact absurd hd (by decide)
  rw [skipPrefix.eq_def]
  split
  · rename_i x t hx
    rw [if_neg fun hcond => hhead x t hx hcond.1, hx]
  · rfl

/-- **`%lx` reads what `%lX` printed**, in front of anything but a hexadecimal digit or an x. -/
theorem scanHex_printHex (n : BitVec 64) {s : Str} (hs : ¬ StartsWithDigit 16 s)
    (hx : ∀ c ∈ s.head?, c ≠ 'x' ∧ c ≠ 'X') : scanHex (printHex n ++ s) = some (n, s) := by
  have hmem := isSome_of_mem_toDigits (by norm_num) digit_hex n.toNat
  have hne : printHex n ≠ [] := fun h => Nat.toDigits_ne_nil (List.map_eq_nil_iff.1 h)
  have hstart : StartsWithDigit 16 (printHex n ++ s) := startsWithDigit_append hne hmem s
  have hscan : scanDigits 16 0 (printHex n ++ s) = (n.toNat, s) := by
    rw [printHex, scanDigits_toDigits (by norm_num) digit_hex, scanDigits_of_not_starts hs]
  rw [scanHex, skipSpace_of_digit hstart, scanSign_of_digit hstart]
  simp only [skipPrefix_digits hne hmem hx, if_pos hstart, hscan, toULong_toNat]

/-! ## Numbers to any base -/

theorem scanDigits_snd_eq_nil {b : ℕ} (acc : ℕ) (t : Str) :
    (scanDigits b acc t).2 = [] ↔ ∀ c ∈ t, (digit b c).isSome = true := by
  induction t generalizing acc with
  | nil => simp [scanDigits]
  | cons c t ih =>
    rw [scanDigits, List.forall_mem_cons]
    cases digit b c with
    | none => simp
    | some d => simpa using ih _

/-- what is skipped in front of hexadecimal digits -/
theorem skipPrefix_cases (s : Str) :
    skipPrefix s = s ∨ ∃ x t, s = '0' :: x :: t ∧ (x = 'x' ∨ x = 'X') ∧ skipPrefix s = t := by
  rw [skipPrefix.eq_def]
  split
  · rename_i x t
    split_ifs with hx
    · exact Or.inr ⟨x, t, rfl, hx.1, rfl⟩
    · exact Or.inl rfl
  · exact Or.inl rfl

/-- a number has no characters but its sign, digits and the letter of a prefix -/
theorem number_chars {s : Str} {v : ℤ} (hv : number s = some v) :
    ∀ c ∈ s, c = '-' ∨ c = '+' ∨ (digitVal c).isSome = true := by
  have hdigit : ∀ {b c}, (digit b c).isSome = true → (digitVal c).isSome = true := by
    intro b c h
    obtain ⟨d, hd⟩ := Option.isSome_iff_exists.1 h
    exact Option.isSome_iff_exists.2 ⟨d, (Option.filter_eq_some_iff.1 hd).1⟩
  have hbase : ∀ t : Str, (∀ c ∈ (scanBase t).2, (digit (scanBase t).1 c).isSome = true) →
      ∀ c ∈ t, (digitVal c).isSome = true := by
    intro t ht c hc
    rw [scanBase] at ht
    split_ifs at ht with hprefix
    · obtain ⟨x, u, rfl, hx, hu⟩ := (skipPrefix_cases t).resolve_left hprefix
      rw [hu] at ht
      simp only [List.mem_cons] at hc
      rcases hc with rfl | rfl | hc
      · rfl
      · rcases hx with rfl | rfl <;> rfl
      · exact hdigit (ht c hc)
    · exact hdigit (ht c hc)
    · exact hdigit (ht c hc)
  rw [number] at hv
  dsimp only at hv
  obtain ⟨⟨-, hall⟩, -⟩ := Option.ite_none_right_eq_some.1 hv
  have hrest := hbase _ hall
  intro c hc
  rw [scanSign.eq_def] at hrest
  split at hrest
  · exact (List.mem_cons.1 hc).imp_right fun hc => Or.inr (hrest c hc)
  · exact Or.inr ((List.mem_cons.1 hc).imp_right (hrest c))
  · exact Or.inr (Or.inr (hrest c hc))

/-- there is no white space in a number -/
theorem skipSpace_number {s : Str} {v : ℤ} (hv : number s = some v) : skipSpace s = s := by
  refine skipSpace_of_not_space fun c hc => ?_
  rcases number_chars hv c hc with rfl | rfl | hd
  · rfl
  · rfl
  · by_contra hspace
    rw [Bool.not_eq_false] at hspace
    simp only [isspace, List.mem_cons, List.not_mem_nil, or_false, decide_eq_true_eq] at hspace
    rcases hspace with rfl | rfl | rfl | rfl | rfl | rfl <;> cases hd

/-- a text that is a number is read up to its end; the number is cut off at the ends of the range -/
theorem strtoll_number {s : Str} {v : ℤ} (hv : number (skipSpace s) = some v) :
    strtoll s = if v < -2 ^ 63 then (-2 ^ 63, [], some .ERANGE)
      else if 2 ^ 63 - 1 < v then (2 ^ 63 - 1, [], some .ERANGE) else (v, [], none) := by
  rw [number] at hv
  rw [strtoll]
  dsimp only at hv ⊢
  generalize skipSpace s = t at hv ⊢
  obtain ⟨hall, hv⟩ := Option.ite_none_right_eq_some.1 hv
  have hstart : StartsWithDigit (scanBase (scanSign t).2).1 (scanBase (scanSign t).2).2 := by
    simpa using startsWithDigit_append hall.1 hall.2 []
  rw [if_pos hstart, (scanDigits_snd_eq_nil 0 _).2 hall.2, Option.some.inj hv]

/-- a text that is none has something left, or nothing is read -/
theorem strtoll_none {s : Str} (hv : number (skipSpace s) = none) :
    (strtoll s).2.1 ≠ [] ∨ strtoll s = (0, s, some .EINVAL) := by
  rw [number] at hv
  rw [strtoll]
  dsimp only at hv ⊢
  generalize skipSpace s = t at hv ⊢
  split_ifs at hv with hall
  by_cases hstart : StartsWithDigit (scanBase (scanSign t).2).1 (scanBase (scanSign t).2).2
  · refine Or.inl ?_
    have hne : (scanBase (scanSign t).2).2 ≠ [] := by
      intro h
      obtain ⟨c, hc, -⟩ := hstart
      rw [h] at hc
      cases hc
    have hrest := fun h => hall ⟨hne, (scanDigits_snd_eq_nil 0 _).1 h⟩
    rw [if_pos hstart]
    split_ifs <;> exact hrest
  · rw [if_neg hstart]
    exact Or.inr rfl

end MNetSoft.Numerals
