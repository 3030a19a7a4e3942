/-
`decode` of the authentication daemon (`webauthd.c`) with all it stores: the bytes written from `dst[0]` on are kept
also where 0 is returned, and a counter that would wrap below zero gives `none`.

- `decodeStores`: `decode` as such a run; `decodeStores_decode` says that `decode` is what is left of it.
- `decodeStores_bounds`: whatever is decoded, nothing is stored behind the buffer and the counter does not wrap.
- `base64`: the standard encoding, with its padding.
- `base64_right_iff`: for which strings and buffers the encoding of a string is decoded to it, or not at all.
- `one_byte_short`: a string that would fit is refused, and one that does not fit is cut.
-/
import Mathlib.Tactic
import MNetSoft.Sbin.Webauthd

namespace MNetSoft.Webauthd

open MNetSoft.CString

/-! ## Model -/

/-- what is returned, and the bytes stored -/
structure Decoded where
  ret : Bool
  dst : Str
deriving DecidableEq, Repr

/-- `len -= n`; `none` if it wraps -/
def lower (len n : ℕ) : Option ℕ := if n ≤ len then some (len - n) else none

/-- store one byte more, if it is wanted and there is room, and go on -/
def storing (want : Bool) (c : Char) (len : ℕ) (d : Str) (next : ℕ → Str → Option Decoded) : Option Decoded :=
  if want then
    if len ≤ 1 then some ⟨false, d⟩ else (lower len 1).bind fun len => next len (d ++ [c])
  else next len d

/-- the NUL at the end -/
def finish (len : ℕ) (d : Str) : Option Decoded := some (if len < 1 then ⟨false, d⟩ else ⟨true, d ++ ['\x00']⟩)

/-- behind the loop: the bytes of the last group -/
def decodeRest (v k len : ℕ) (d : Str) : Option Decoded :=
  let v := if k ≠ 0 then v <<< (6 * (4 - k)) else v
  storing (k ≥ 1) (octet v 16) len d fun len d =>
    storing (k ≥ 2) (octet v 8) len d fun len d =>
      storing (k = 3) (octet v 0) len d finish

/-- the loop of `decode` and what is behind it -/
def decodeFrom : Str → ℕ → ℕ → ℕ → Str → Option Decoded
  | [], v, k, len, d => decodeRest v k len d
  | c :: s, v, k, len, d =>
    if c = '\x00' ∨ c = '=' ∨ ¬ len > 1 then decodeRest v k len d
    else
      match B64TAB.idxOf? c with
      | none => some ⟨false, d⟩
      | some i =>
        let v := (v <<< 6) ||| i
        if k + 1 = 4 then
          if len ≤ 3 then some ⟨false, d⟩
          else (lower len 3).bind fun len => decodeFrom s 0 0 len (d ++ [octet v 16, octet v 8, octet v 0])
        else decodeFrom s v (k + 1) len d

theorem decodeFrom_cons (c : Char) (s : Str) (v k len : ℕ) (d : Str) :
    decodeFrom (c :: s) v k len d =
      if c = '\x00' ∨ c = '=' ∨ ¬ len > 1 then decodeRest v k len d
      else
        match B64TAB.idxOf? c with
        | none => some ⟨false, d⟩
        | some i =>
          let v := (v <<< 6) ||| i
          if k + 1 = 4 then
            if len ≤ 3 then some ⟨false, d⟩
            else (lower len 3).bind fun len => decodeFrom s 0 0 len (d ++ [octet v 16, octet v 8, octet v 0])
          else decodeFrom s v (k + 1) len d := rfl

/-- `decode`, with what it returns and stores -/
def decodeStores (src : Str) (len : ℕ) : Option Decoded := decodeFrom src 0 0 len []

/-! ### The encoding -/

/-- the digit of a number below 64 -/
def sextet (n : ℕ) : Char := B64TAB.getD n '='

/-- three bytes as one number -/
def triple (a b c : Char) : ℕ := a.toNat * 65536 + b.toNat * 256 + c.toNat

/-- base64, with padding -/
def base64 : Str → Str
  | a :: b :: c :: x =>
    let v := triple a b c
    sextet (v / 262144 % 64) :: sextet (v / 4096 % 64) :: sextet (v / 64 % 64) :: sextet (v % 64) :: base64 x
  | [a, b] =>
    let v := triple a b '\x00'
    [sextet (v / 262144 % 64), sextet (v / 4096 % 64), sextet (v / 64 % 64), '=']
  | [a] =>
    let v := triple a '\x00' '\x00'
    [sextet (v / 262144 % 64), sextet (v / 4096 % 64), '=', '=']
  | [] => []

/-- The encoding of `x` is decoded to `x` and a NUL where that fits, and refused where it does not. -/
def Base64Right (x : Str) (len : ℕ) : Prop :=
  ∃ r, decodeStores (base64 x) len = some r ∧
    if x.length + 1 ≤ len then r.ret = true ∧ x ++ ['\x00'] <+: r.dst else r.ret = false

/-! ## Bounds -/

section Bounds

variable {len n : ℕ} {d : Str}

theorem lower_of_le (h : n ≤ len) : lower len n = some (len - n) := if_pos h

/-- The run ends without a wrap, at most `n` bytes have been stored, and a NUL is among them if 1 is returned. -/
def Bounded (n : ℕ) (r : Option Decoded) : Prop :=
  ∃ q, r = some q ∧ q.dst.length ≤ n ∧ (q.ret = true → '\x00' ∈ q.dst)

theorem bounded_fail (h : d.length ≤ n) : Bounded n (some ⟨false, d⟩) := ⟨_, rfl, h, fun h => by cases h⟩

theorem finish_bounded (h : d.length + len = n) : Bounded n (finish len d) := by
  unfold finish
  split_ifs with hlen
  · exact bounded_fail (by omega)
  · refine ⟨_, rfl, ?_, fun _ => by simp⟩
    rw [List.length_append, List.length_singleton]
    omega

/-- a byte more takes one off the counter -/
theorem storing_bounded {want : Bool} {c : Char} {next : ℕ → Str → Option Decoded} (h : d.length + len = n)
    (hnext : ∀ len d, d.length + len = n → Bounded n (next len d)) : Bounded n (storing want c len d next) := by
  unfold storing
  split_ifs with hwant hlen
  · exact bounded_fail (by omega)
  · rw [lower_of_le (by omega), Option.bind_some]
    apply hnext
    rw [List.length_append, List.length_singleton]
    omega
  · exact hnext len d h

theorem decodeRest_bounded (v k : ℕ) (h : d.length + len = n) : Bounded n (decodeRest v k len d) := by
  apply storing_bounded h
  intro len d h
  apply storing_bounded h
  intro len d h
  apply storing_bounded h
  intro len d h
  exact finish_bounded h

/-- the bytes stored and the counter make up the length of the buffer -/
theorem decodeFrom_bounded (s : Str) (v k : ℕ) (h : d.length + len = n) : Bounded n (decodeFrom s v k len d) := by
  induction s generalizing v k len d with
  | nil => exact decodeRest_bounded v k h
  | cons c s ih =>
    rw [decodeFrom_cons]
    by_cases hstop : c = '\x00' ∨ c = '=' ∨ ¬ len > 1
    · rw [if_pos hstop]
      exact decodeRest_bounded v k h
    · rw [if_neg hstop]
      cases B64TAB.idxOf? c with
      | none => exact bounded_fail (by omega)
      | some i =>
        dsimp only
        split_ifs with hk hlen
        · exact bounded_fail (by omega)
        · rw [lower_of_le (by omega), Option.bind_some]
          apply ih
          rw [List.length_append]
          simp only [List.length_cons, List.length_nil]
          omega
        · exact ih _ _ h

end Bounds

/-- **Bounds.** Whatever is decoded into a buffer of whatever length, at most that many bytes are stored, the counter
never wraps, and there is a NUL among the bytes if 1 is returned. -/
theorem decodeStores_bounds (src : Str) (len : ℕ) :
    ∃ r, decodeStores src len = some r ∧ r.dst.length ≤ len ∧ (r.ret = true → '\x00' ∈ r.dst) :=
  decodeFrom_bounded src 0 0 (Nat.zero_add len)

/-! ## The two models of `decode` -/

/-- what is left of a run: the bytes before the final NUL, if 1 is returned -/
def Decoded.bytes (r : Decoded) : Option Str := if r.ret then some r.dst.dropLast else none

theorem finish_bytes (len : ℕ) (d : Str) : (finish len d).bind Decoded.bytes = if len < 1 then none else some d := by
  unfold finish
  split_ifs
  · rfl
  · simp [Decoded.bytes]

theorem storing_bytes {want : Bool} {c : Char} {len : ℕ} {d : Str} {next : ℕ → Str → Option Decoded} :
    (storing want c len d next).bind Decoded.bytes =
      (put want c (len, d)).bind fun q => (next q.1 q.2).bind Decoded.bytes := by
  unfold storing put
  split_ifs with hwant hlen
  · rfl
  · rw [lower_of_le (by omega), Option.bind_some, Option.bind_some]
  · rfl

theorem decodeRest_bytes (v k len : ℕ) (d : Str) :
    (decodeRest v k len d).bind Decoded.bytes =
      let v := if k ≠ 0 then v <<< (6 * (4 - k)) else v
      (put (k ≥ 1) (octet v 16) (len, d)).bind fun q =>
        (put (k ≥ 2) (octet v 8) q).bind fun q =>
          (put (k = 3) (octet v 0) q).bind fun q => if q.1 < 1 then none else some q.2 := by
  simp only [decodeRest, storing_bytes, finish_bytes]

theorem decodeFrom_bytes {s : Str} (hnul : '\x00' ∉ s) (v k len : ℕ) (d : Str) :
    (decodeFrom s v k len d).bind Decoded.bytes =
      (decodeLoop s v k len d).bind fun r => (decodeRest r.1 r.2.1 r.2.2.1 r.2.2.2).bind Decoded.bytes := by
  induction s generalizing v k len d with
  | nil => rfl
  | cons c s ih =>
    obtain ⟨hc, hs⟩ : c ≠ '\x00' ∧ '\x00' ∉ s := by simpa [eq_comm] using hnul
    rw [decodeFrom_cons, decodeLoop]
    by_cases hstop : c = '=' ∨ ¬ len > 1
    · rw [if_pos (Or.inr hstop), if_pos hstop, Option.bind_some]
    · have hgo : ¬ (c = '\x00' ∨ c = '=' ∨ ¬ len > 1) := fun h => h.elim hc hstop
      rw [if_neg hgo, if_neg hstop]
      cases B64TAB.idxOf? c with
      | none => rfl
      | some i =>
        rw [Option.bind_some]
        dsimp only
        by_cases hk : k + 1 = 4
        · rw [if_pos hk, if_pos hk]
          by_cases hlen : len ≤ 3
          · rw [if_pos hlen, if_pos hlen]
            rfl
          · rw [if_neg hlen, if_neg hlen, lower_of_le (by omega), Option.bind_some]
            exact ih hs 0 0 _ _
        · rw [if_neg hk, if_neg hk]
          exact ih hs _ _ _ _

/-- `decode` is what is left of the run. -/
theorem decodeStores_decode {src : Str} (hnul : '\x00' ∉ src) (len : ℕ) :
    (decodeStores src len).bind Decoded.bytes = decode src len := by
  rw [decodeStores, decodeFrom_bytes hnul]
  simp only [decodeRest_bytes]
  rfl

/-! ## Decoding an encoded string -/

theorem map_toNat_digits :
    B64TAB.map Char.toNat = List.range' 65 26 ++ List.range' 97 26 ++ List.range' 48 10 ++ [43, 47] := by
  unfold B64TAB
  rw [String.toList_ofList]
  rfl

theorem nodup_digits : B64TAB.Nodup := by
  refine List.Nodup.of_map Char.toNat ?_
  rw [map_toNat_digits]
  decide

theorem length_digits : B64TAB.length = 64 := by
  rw [← List.length_map Char.toNat, map_toNat_digits]
  rfl

theorem end_not_digit : '\x00' ∉ B64TAB ∧ '=' ∉ B64TAB := by
  unfold B64TAB
  rw [String.toList_ofList]
  decide

/-- a digit is found at its place, and ends neither the string nor the digits -/
theorem idxOf_sextet {n : ℕ} (hn : n < 64) :
    B64TAB.idxOf? (sextet n) = some n ∧ sextet n ≠ '\x00' ∧ sextet n ≠ '=' := by
  have hlen : n < B64TAB.length := by rwa [length_digits]
  have hdigit : sextet n = B64TAB[n] := (List.getElem_eq_getD '=').symm
  have hmem : sextet n ∈ B64TAB := hdigit ▸ List.getElem_mem hlen
  refine ⟨?_, fun h => end_not_digit.1 (h ▸ hmem), fun h => end_not_digit.2 (h ▸ hmem)⟩
  rw [List.idxOf?_eq_some_iff]
  refine ⟨hlen, hdigit.symm, fun j hj h => ?_⟩
  rw [hdigit] at h
  exact absurd ((nodup_digits.getElem_inj_iff).1 h) (by omega)

theorem octet_eq (v k : ℕ) : octet v k = Char.ofNat (v / 2 ^ k % 256) := by
  rw [octet, Nat.shiftRight_eq_div_pow]
  exact congrArg Char.ofNat (Nat.and_two_pow_sub_one_eq_mod _ 8)

/-- a digit below the bits read so far -/
theorem shifted_in {n : ℕ} (hn : n < 64) (v : ℕ) : (v <<< 6) ||| n = v * 64 + n := by
  rw [← Nat.shiftLeft_add_eq_or_of_lt hn, Nat.shiftLeft_eq]

theorem digit_lt (v : ℕ) : v % 64 < 64 := Nat.mod_lt v (by norm_num)

/-- the first three digits of a group -/
theorem decodeFrom_digit {n : ℕ} (hn : n < 64) {k len : ℕ} (hk : k < 3) (hlen : 1 < len) (s : Str) (v : ℕ) (d : Str) :
    decodeFrom (sextet n :: s) v k len d = decodeFrom s (v * 64 + n) (k + 1) len d := by
  obtain ⟨hidx, hnul, heq⟩ := idxOf_sextet hn
  rw [decodeFrom_cons, if_neg (by simp [hnul, heq, hlen]), hidx]
  dsimp only
  rw [if_neg (by omega), shifted_in hn]

/-- the last digit of a group -/
theorem decodeFrom_last {n : ℕ} (hn : n < 64) {len : ℕ} (hlen : 1 < len) (s : Str) (v : ℕ) (d : Str) :
    decodeFrom (sextet n :: s) v 3 len d =
      if len ≤ 3 then some ⟨false, d⟩
      else decodeFrom s 0 0 (len - 3)
        (d ++ [octet (v * 64 + n) 16, octet (v * 64 + n) 8, octet (v * 64 + n) 0]) := by
  obtain ⟨hidx, hnul, heq⟩ := idxOf_sextet hn
  rw [decodeFrom_cons, if_neg (by simp [hnul, heq, hlen]), hidx]
  dsimp only
  rw [if_pos rfl, shifted_in hn]
  split_ifs with hle
  · rfl
  · rw [lower_of_le (by omega), Option.bind_some]

/-- with one byte left nothing more is decoded -/
theorem decodeFrom_full (s : Str) {len : ℕ} (hlen : len ≤ 1) (d : Str) : decodeFrom s 0 0 len d = finish len d := by
  cases s with
  | nil => rfl
  | cons c s =>
    rw [decodeFrom_cons, if_pos (by simp [hlen])]
    rfl

/-- the bytes of a group -/
theorem octet_triple {a b c : Char} (ha : a.toNat < 256) (hb : b.toNat < 256) (hc : c.toNat < 256) :
    octet (triple a b c) 16 = a ∧ octet (triple a b c) 8 = b ∧ octet (triple a b c) 0 = c := by
  have hchar : ∀ (v k : ℕ) (x : Char), v / 2 ^ k % 256 = x.toNat → octet v k = x := by
    intro v k x h
    rw [octet_eq, h, Char.ofNat_toNat]
  unfold triple
  refine ⟨hchar _ _ _ ?_, hchar _ _ _ ?_, hchar _ _ _ ?_⟩
  · omega
  · omega
  · omega

theorem triple_lt {a b c : Char} (ha : a.toNat < 256) (hb : b.toNat < 256) (hc : c.toNat < 256) :
    triple a b c < 16777216 := by
  unfold triple
  omega

/-- a whole group, where there is room -/
theorem decodeFrom_group {a b c : Char} (ha : a.toNat < 256) (hb : b.toNat < 256) (hc : c.toNat < 256) (x : Str)
    {len : ℕ} (hlen : 1 < len) (d : Str) :
    decodeFrom (base64 (a :: b :: c :: x)) 0 0 len d =
      if len ≤ 3 then some ⟨false, d⟩ else decodeFrom (base64 x) 0 0 (len - 3) (d ++ [a, b, c]) := by
  obtain ⟨h₁, h₂, h₃⟩ := octet_triple ha hb hc
  have hlt := triple_lt ha hb hc
  generalize hv : triple a b c = v at h₁ h₂ h₃ hlt
  have hsum : (((0 * 64 + v / 262144 % 64) * 64 + v / 4096 % 64) * 64 + v / 64 % 64) * 64 + v % 64 = v := by omega
  rw [base64, hv, decodeFrom_digit (digit_lt _) (by norm_num) hlen, decodeFrom_digit (digit_lt _) (by norm_num) hlen,
    decodeFrom_digit (digit_lt _) (by norm_num) hlen, decodeFrom_last (digit_lt _) hlen, hsum, h₁, h₂, h₃]

/-- padding ends the loop -/
theorem decodeFrom_padding (s : Str) (v k len : ℕ) (d : Str) :
    decodeFrom ('=' :: s) v k len d = decodeRest v k len d := by
  rw [decodeFrom_cons, if_pos (Or.inr (Or.inl rfl))]

/-- a byte that is wanted, where there is room and where there is none -/
theorem storing_room {c : Char} {len : ℕ} (hlen : 1 < len) (d : Str) (next : ℕ → Str → Option Decoded) :
    storing true c len d next = next (len - 1) (d ++ [c]) := by
  rw [storing, if_pos rfl, if_neg (by omega), lower_of_le (by omega), Option.bind_some]

theorem storing_full {c : Char} {len : ℕ} (hlen : len ≤ 1) (d : Str) (next : ℕ → Str → Option Decoded) :
    storing true c len d next = some ⟨false, d⟩ := by
  rw [storing, if_pos rfl, if_pos hlen]

/-- a last group of one byte: a NUL is stored behind it before the one at the end -/
theorem decodeFrom_one {a : Char} (ha : a.toNat < 256) {len : ℕ} (hlen : 1 < len) (d : Str) :
    decodeFrom (base64 [a]) 0 0 len d =
      storing true a len d fun len d => storing true '\x00' len d finish := by
  have hnul : '\x00'.toNat < 256 := by decide
  obtain ⟨h₁, h₂, -⟩ := octet_triple ha hnul hnul
  have hshift : (((0 * 64 + triple a '\x00' '\x00' / 262144 % 64) * 64 + triple a '\x00' '\x00' / 4096 % 64) <<<
      (6 * (4 - 2)) : ℕ) = triple a '\x00' '\x00' := by
    have h0 : '\x00'.toNat = 0 := rfl
    rw [Nat.shiftLeft_eq, triple, h0]
    omega
  rw [base64, decodeFrom_digit (digit_lt _) (by norm_num) hlen, decodeFrom_digit (digit_lt _) (by norm_num) hlen,
    decodeFrom_padding, decodeRest]
  rw [if_pos (by norm_num), hshift, h₁, h₂]
  rfl

/-- a last group of two bytes: so is it here -/
theorem decodeFrom_two {a b : Char} (ha : a.toNat < 256) (hb : b.toNat < 256) {len : ℕ} (hlen : 1 < len) (d : Str) :
    decodeFrom (base64 [a, b]) 0 0 len d =
      storing true a len d fun len d => storing true b len d fun len d => storing true '\x00' len d finish := by
  have hnul : '\x00'.toNat < 256 := by decide
  obtain ⟨h₁, h₂, h₃⟩ := octet_triple ha hb hnul
  have hshift : ((((0 * 64 + triple a b '\x00' / 262144 % 64) * 64 + triple a b '\x00' / 4096 % 64) * 64 +
      triple a b '\x00' / 64 % 64) <<< (6 * (4 - 3)) : ℕ) = triple a b '\x00' := by
    have h0 : '\x00'.toNat = 0 := rfl
    rw [Nat.shiftLeft_eq, triple, h0]
    omega
  rw [base64, decodeFrom_digit (digit_lt _) (by norm_num) hlen, decodeFrom_digit (digit_lt _) (by norm_num) hlen,
    decodeFrom_digit (digit_lt _) (by norm_num) hlen, decodeFrom_padding, decodeRest]
  rw [if_pos (by norm_num), hshift, h₁, h₂, h₃]
  rfl

/-- The lengths of the buffer with which 1 is returned for `n` bytes: those that end the loop between two groups, and
those with room for the bytes, a NUL, and another NUL if the last group is not whole. -/
def Accepted (n len : ℕ) : Prop := (len % 3 = 1 ∧ len ≤ n) ∨ (n + 1 ≤ len ∧ ¬ (len = n + 1 ∧ n % 3 ≠ 0))

/-- What becomes of an encoded string behind the bytes `d`. -/
def Outcome (x : Str) (len : ℕ) (d : Str) (r : Decoded) : Prop :=
  (r.ret = true ↔ Accepted x.length len) ∧ (r.ret = true → x.length + 1 ≤ len → d ++ x ++ ['\x00'] <+: r.dst)

theorem outcome_fail {x d e : Str} {len : ℕ} (h : ¬ Accepted x.length len) : Outcome x len d ⟨false, e⟩ :=
  ⟨iff_of_false Bool.false_ne_true h, fun h => by cases h⟩

/-- no room for a byte: 1 is returned, unless there is not even one for the NUL -/
theorem outcome_full {x : Str} {len : ℕ} (hlen : len ≤ 1) (hx : x ≠ []) (d : Str) :
    ∃ r, finish len d = some r ∧ Outcome x len d r := by
  have hpos := List.length_pos_iff.2 hx
  unfold finish
  split_ifs with h
  · refine ⟨_, rfl, outcome_fail ?_⟩
    unfold Accepted
    omega
  · refine ⟨_, rfl, iff_of_true rfl (Or.inl ?_), fun _ hle => ?_⟩
    · omega
    · omega

/-- the NUL at the end, behind bytes that begin with those of the string -/
theorem outcome_finish {x d e : Str} {len len' : ℕ} (hlen' : 0 < len') (hle : x.length + 1 ≤ len)
    (hroom : ¬ (len = x.length + 1 ∧ x.length % 3 ≠ 0)) (he : d ++ x ++ ['\x00'] <+: e ++ ['\x00']) :
    ∃ r, finish len' e = some r ∧ Outcome x len d r := by
  unfold finish
  rw [if_neg (by omega)]
  exact ⟨_, rfl, iff_of_true rfl (Or.inr ⟨hle, hroom⟩), fun _ _ => he⟩

/-- the bytes of a last group that is not whole have been stored: the NUL behind them -/
theorem outcome_padded {x : Str} {len len' : ℕ} (hx : x.length % 3 ≠ 0) (hlen : len = len' + x.length)
    (hpos : 0 < len') (d : Str) :
    ∃ r, storing true '\x00' len' (d ++ x) finish = some r ∧ Outcome x len d r := by
  by_cases hfull : len' ≤ 1
  · rw [storing_full hfull]
    refine ⟨_, rfl, outcome_fail ?_⟩
    unfold Accepted
    omega
  · rw [storing_room (by omega)]
    apply outcome_finish (by omega)
    · omega
    · omega
    · exact ⟨['\x00'], by simp⟩

/-- an encoded string, by the groups of the encoding -/
theorem decodeFrom_base64 {x : Str} (hx : ∀ c ∈ x, c.toNat < 256) (len : ℕ) (d : Str) :
    ∃ r, decodeFrom (base64 x) 0 0 len d = some r ∧ Outcome x len d r := by
  induction x using base64.induct generalizing len d with
  | case1 a b c x ih =>
    obtain ⟨ha, hb, hc, hx⟩ : a.toNat < 256 ∧ b.toNat < 256 ∧ c.toNat < 256 ∧ ∀ e ∈ x, e.toNat < 256 := by
      simpa using hx
    by_cases hlen : len ≤ 1
    · rw [decodeFrom_full _ hlen]
      exact outcome_full hlen (List.cons_ne_nil _ _) d
    · rw [decodeFrom_group ha hb hc x (by omega)]
      by_cases hle : len ≤ 3
      · rw [if_pos hle]
        refine ⟨_, rfl, outcome_fail ?_⟩
        simp only [Accepted, List.length_cons]
        omega
      · rw [if_neg hle]
        obtain ⟨r, hr, hret, hdst⟩ := ih hx (len - 3) (d ++ [a, b, c])
        refine ⟨r, hr, hret.trans ?_, fun h hroom => ?_⟩
        · simp only [Accepted, List.length_cons]
          omega
        · rw [List.length_cons, List.length_cons, List.length_cons] at hroom
          simpa using hdst h (by omega)
  | case2 a b =>
    obtain ⟨ha, hb⟩ : a.toNat < 256 ∧ b.toNat < 256 := by simpa using hx
    by_cases hlen : len ≤ 1
    · rw [decodeFrom_full _ hlen]
      exact outcome_full hlen (List.cons_ne_nil _ _) d
    · rw [decodeFrom_two ha hb (by omega), storing_room (by omega)]
      by_cases h2 : len ≤ 2
      · rw [storing_full (by omega)]
        exact ⟨_, rfl, outcome_fail (by simp [Accepted]; omega)⟩
      · rw [storing_room (by omega), List.append_assoc]
        apply outcome_padded
        · simp
        · simp only [List.length_append, List.length_cons, List.length_nil]
          omega
        · omega
  | case3 a =>
    have ha : a.toNat < 256 := by simpa using hx
    by_cases hlen : len ≤ 1
    · rw [decodeFrom_full _ hlen]
      exact outcome_full hlen (List.cons_ne_nil _ _) d
    · rw [decodeFrom_one ha (by omega), storing_room (by omega)]
      apply outcome_padded
      · simp
      · simp only [List.length_cons, List.length_nil]
        omega
      · omega
  | case4 =>
    by_cases hlen : len = 0
    · subst hlen
      exact ⟨_, rfl, outcome_fail (by simp [Accepted])⟩
    · apply outcome_finish (by omega)
      · rw [List.length_nil]
        omega
      · simp
      · simp

/-! ## Main result -/

/-- **Round trip.** The encoding of a string of bytes is decoded to it where it fits with a NUL, and refused where it
does not, except in a buffer that ends between two groups before the end of the string, and in one that fits exactly a
string whose last group is not whole. -/
theorem base64_right_iff {x : Str} (hx : ∀ c ∈ x, c.toNat < 256) (len : ℕ) :
    Base64Right x len ↔ ¬ (len % 3 = 1 ∧ len ≤ x.length) ∧ ¬ (len = x.length + 1 ∧ x.length % 3 ≠ 0) := by
  obtain ⟨r, hr, hret, hdst⟩ := decodeFrom_base64 hx len []
  have hright : Base64Right x len ↔
      if x.length + 1 ≤ len then r.ret = true ∧ x ++ ['\x00'] <+: r.dst else r.ret = false := by
    constructor
    · rintro ⟨q, hq, h⟩
      rwa [Option.some.inj (hr.symm.trans hq)]
    · exact fun h => ⟨r, hr, h⟩
  rw [hright]
  split_ifs with hfits
  · have hprefix : r.ret = true → x ++ ['\x00'] <+: r.dst := fun h => hdst h hfits
    rw [and_iff_left_of_imp hprefix, hret, Accepted]
    omega
  · rw [← Bool.not_eq_true, hret, Accepted]
    omega

theorem base64_right_man : (∀ c ∈ ['M', 'a', 'n'], c.toNat < 256) ∧ Base64Right ['M', 'a', 'n'] 4 :=
  ⟨by decide, (base64_right_iff (by decide) 4).2 (by decide)⟩

/-- One byte does not fit two, and four bytes are cut to three in a buffer of four. -/
theorem one_byte_short : ¬ Base64Right ['a'] 2 ∧ ¬ Base64Right ['a', 'b', 'c', 'd'] 4 := by
  constructor
  · rintro ⟨r, hr, h⟩
    have hrun : decodeStores (base64 ['a']) 2 = some ⟨false, ['a']⟩ := by decide
    rw [← Option.some.inj (hrun.symm.trans hr)] at h
    exact absurd h (by decide)
  · rintro ⟨r, hr, h⟩
    have hrun : decodeStores (base64 ['a', 'b', 'c', 'd']) 4 = some ⟨true, ['a', 'b', 'c', '\x00']⟩ := by decide
    rw [← Option.some.inj (hrun.symm.trans hr)] at h
    exact absurd h (by decide)

end MNetSoft.Webauthd
