/-
The decoding of a form: `urldecode` of `formvars.c`. The text is decoded in place: the loop has the cells in front of
`dbrk`, those between `dbrk` and `url` and those from `url` on. A read behind the cells is `none`; the table is the list
of the pointers that are stored in it, however many it has room for. Memory is not exhausted.

The table has two slots for every `=`. One is taken by the first name, one by what follows every `=` and every `&`, and
one by the NULL at the end, so a form as it should be takes one more than there are. The two characters behind a `%` are
taken without a look at them, and a lower-case letter for the second digit counts 32 too much.
- `decodeLoop_escape`, `decodeLoop_count`: what an escape does, and how many pointers are stored.
- `urldecode_within_iff`: when the table is large enough and nothing is read behind the text.
- `one_pair`: a form of one pair, and one that ends in a `%`.
- `decodeLoop_text`, `component_eq_iff`: what a name or a value is decoded to, and when it is what it was written for.
- `form_overruns`: a form of names and values is never within its table.
- `urldecode_right_iff`: which forms are decoded to what they were written for.
- `lower_case`: a lower-case digit.
-/
import Mathlib.Tactic
import MNetSoft.Ownu.Cgi

namespace MNetSoft.Vote

open MNetSoft.Ownu (Bytes bytes cstring cstring_nul Digit Complete complete_cons)

/-! ## Model -/

def hex2Int (c : UInt8) : UInt8 := if 'A'.toUInt8 ≤ c then c - ('A'.toUInt8 - 10) else c - '0'.toUInt8

/-- the byte of an escape with these digits -/
def escaped (c c' : UInt8) : UInt8 := 16 * hex2Int c + hex2Int c'

/-- the text after decoding and the pointers stored, by the places they point to -/
structure Decoded where
  buf : Bytes
  vartab : List (Option ℕ)
deriving DecidableEq, Repr

/-- the number of `=` in front of the NUL -/
def countPairs : Bytes → Option ℕ
  | [] => none
  | c :: m => if c = 0 then some 0 else (countPairs m).map fun n => if c = '='.toUInt8 then n + 1 else n

/-- is there an escaped LF; the cells are read one by one -/
def newlineNext : Bytes → Option Bool
  | [] => none
  | a :: url =>
    if a = '%'.toUInt8 then
      match url with
      | [] => none
      | b :: url =>
        if b = '0'.toUInt8 then
          match url with
          | [] => none
          | e :: _ => some (e = 'A'.toUInt8)
        else some false
    else some false

/-- the loop with the cells in front of `dbrk`, the pointers stored, the cells from `dbrk` to `url`, how far `url` is to
be moved, and the cells from `url` on -/
def decodeLoop (out : Bytes) (vtp : List (Option ℕ)) (gap : Bytes) : ℕ → Bytes → Option Decoded
  | _, [] => none
  | skip + 1, c :: url => decodeLoop out vtp (gap ++ [c]) skip url
  | 0, c :: url =>
    if c = 0 then some ⟨out ++ 0 :: (gap ++ c :: url).tail, vtp ++ [none]⟩
    else if c = '%'.toUInt8 then
      match url with
      | c₁ :: c₂ :: url =>
        match if escaped c₁ c₂ = 0x0D then newlineNext url else some false with
        | none => none
        -- CR and LF are one newline
        | some true => decodeLoop (out ++ ['\n'.toUInt8]) vtp (gap ++ [c, c₁, c₂]).tail 3 url
        | some false => decodeLoop (out ++ [escaped c₁ c₂]) vtp (gap ++ [c, c₁, c₂]).tail 0 url
      | _ => none
    else if c = '+'.toUInt8 then decodeLoop (out ++ [' '.toUInt8]) vtp (gap ++ [c]).tail 0 url
    else if c = '='.toUInt8 ∨ c = '&'.toUInt8 then
      decodeLoop (out ++ [0]) (vtp ++ [some (out.length + 1)]) (gap ++ [c]).tail 0 url
    else decodeLoop (out ++ [c]) vtp (gap ++ [c]).tail 0 url

/-- `urldecode`; without a pair nothing is stored in the table -/
def urldecode (url : Bytes) : Option Decoded := do
  let nvars ← countPairs url
  if nvars = 0 then return ⟨url, []⟩
  else decodeLoop [] [some 0] [] 0 url

/-- the whole slots in `2 * nvars * sizeof(char *) + 1` bytes -/
def slots (nvars : ℕ) : ℕ := (2 * nvars * 8 + 1) / 8

/-! ## What is claimed -/

/-- nothing behind the NUL of the text is read, and there is a slot for each pointer stored -/
def Within (s : Bytes) : Prop := ∃ r, urldecode (s ++ [0]) = some r ∧ r.vartab.length ≤ slots (s.count '='.toUInt8)

/-- the `=` and `&` that do not belong to an escape -/
def separators : Bytes → ℕ
  | [] => 0
  | c :: s =>
    if c = '%'.toUInt8 then
      match s with
      | _ :: _ :: s => separators s
      | _ => 0
    else separators s + if c = '='.toUInt8 ∨ c = '&'.toUInt8 then 1 else 0

/-- the second digit of an escape is a lower-case letter -/
def LowerEscape : Bytes → Prop
  | [] => False
  | c :: s =>
    if c = '%'.toUInt8 then
      match s with
      | _ :: c₂ :: s => 'a'.toUInt8 ≤ c₂ ∨ LowerEscape s
      | _ => False
    else LowerEscape s

/-- the ways to write a byte in a form -/
inductive Encodes : UInt8 → Bytes → Prop where
  | plain {c : UInt8} (h : c ∉ ['%'.toUInt8, '+'.toUInt8, '='.toUInt8, '&'.toUInt8, ' '.toUInt8]) : Encodes c [c]
  | plus : Encodes ' '.toUInt8 ['+'.toUInt8]
  | escape {c d d' : UInt8} (hd : Digit (c.toNat / 16) d) (hd' : Digit (c.toNat % 16) d') :
      Encodes c ['%'.toUInt8, d, d']

/-- the ways to write a string -/
inductive EncodesAll : Bytes → Bytes → Prop where
  | nil : EncodesAll [] []
  | cons {c : UInt8} {s t u : Bytes} (h : Encodes c t) (hs : EncodesAll s u) : EncodesAll (c :: s) (t ++ u)

/-- a name and a value -/
structure Field where
  name : Bytes
  value : Bytes
  name_bytes : ∀ c ∈ name, c ≠ 0 ∧ c ≠ 0x0D
  value_bytes : ∀ c ∈ value, c ≠ 0 ∧ c ≠ 0x0D

/-- the ways to write a name and its value -/
def EncodesField (f : Field) (q : Bytes) : Prop :=
  ∃ t u, EncodesAll f.name t ∧ EncodesAll f.value u ∧ q = t ++ '='.toUInt8 :: u

/-- the ways to write a form -/
def EncodesForm (fs : List Field) (q : Bytes) : Prop :=
  ∃ qs, List.Forall₂ EncodesField fs qs ∧ q = ['&'.toUInt8].intercalate qs

/-- the table holds a pointer to each of the strings, in order, and NULL -/
def Decoded.Reads (r : Decoded) (ss : List Bytes) : Prop :=
  ∃ ps, r.vartab = ps.map some ++ [none] ∧ List.Forall₂ (fun p s => cstring (r.buf.drop p) = some s) ps ss

/-- the names and values of a form -/
def texts (fs : List Field) : List Bytes := fs.flatMap fun f => [f.name, f.value]

/-- the table decoded is the names and values of the form -/
def FormRight (fs : List Field) (q : Bytes) : Prop := ∃ r, urldecode (q ++ [0]) = some r ∧ r.Reads (texts fs)

/-! ## Steps of the loop -/

section Steps

variable {out gap url : Bytes} {vtp : List (Option ℕ)} {c c₁ c₂ : UInt8}

theorem decodeLoop_cons : decodeLoop out vtp gap 0 (c :: url) =
    if c = 0 then some ⟨out ++ 0 :: (gap ++ c :: url).tail, vtp ++ [none]⟩
    else if c = '%'.toUInt8 then
      match url with
      | c₁ :: c₂ :: url =>
        match if escaped c₁ c₂ = 0x0D then newlineNext url else some false with
        | none => none
        | some true => decodeLoop (out ++ ['\n'.toUInt8]) vtp (gap ++ [c, c₁, c₂]).tail 3 url
        | some false => decodeLoop (out ++ [escaped c₁ c₂]) vtp (gap ++ [c, c₁, c₂]).tail 0 url
      | _ => none
    else if c = '+'.toUInt8 then decodeLoop (out ++ [' '.toUInt8]) vtp (gap ++ [c]).tail 0 url
    else if c = '='.toUInt8 ∨ c = '&'.toUInt8 then
      decodeLoop (out ++ [0]) (vtp ++ [some (out.length + 1)]) (gap ++ [c]).tail 0 url
    else decodeLoop (out ++ [c]) vtp (gap ++ [c]).tail 0 url := by
  rw [decodeLoop.eq_def]
  rfl

theorem decodeLoop_nul : decodeLoop out vtp gap 0 (0 :: url) =
    some ⟨out ++ 0 :: (gap ++ 0 :: url).tail, vtp ++ [none]⟩ := by
  rw [decodeLoop_cons]
  rfl

theorem decodeLoop_short (h : url.length < 2) : decodeLoop out vtp gap 0 ('%'.toUInt8 :: url) = none := by
  rw [decodeLoop_cons]
  match url with
  | [] => rfl
  | [_] => rfl

theorem decodeLoop_plus : decodeLoop out vtp gap 0 ('+'.toUInt8 :: url) =
    decodeLoop (out ++ [' '.toUInt8]) vtp (gap ++ ['+'.toUInt8]).tail 0 url := by
  rw [decodeLoop_cons]
  rfl

theorem decodeLoop_separator (h : c = '='.toUInt8 ∨ c = '&'.toUInt8) : decodeLoop out vtp gap 0 (c :: url) =
    decodeLoop (out ++ [0]) (vtp ++ [some (out.length + 1)]) (gap ++ [c]).tail 0 url := by
  rw [decodeLoop_cons]
  rcases h with rfl | rfl
  · rfl
  · rfl

theorem decodeLoop_plain (h : c ∉ [0, '%'.toUInt8, '+'.toUInt8, '='.toUInt8, '&'.toUInt8]) :
    decodeLoop out vtp gap 0 (c :: url) = decodeLoop (out ++ [c]) vtp (gap ++ [c]).tail 0 url := by
  simp only [List.mem_cons, List.not_mem_nil, or_false, not_or] at h
  rw [decodeLoop_cons]
  simp only [h.1, h.2.1, h.2.2.1, h.2.2.2.1, h.2.2.2.2, or_self, if_false]

theorem newlineNext_true : newlineNext url = some true ↔ ['%'.toUInt8, '0'.toUInt8, 'A'.toUInt8] <+: url := by
  fun_cases newlineNext url with
  | case1 => simp
  | case2 => simp
  | case3 => simp
  | case4 e _ => simp [eq_comm]
  | case5 b _ hb => simp [Ne.symm hb]
  | case6 a _ ha => simp [Ne.symm ha]

theorem decodeLoop_of_newlineNext (h : newlineNext url = none) : decodeLoop out vtp gap 0 url = none := by
  fun_cases newlineNext url with
  | case1 => rfl
  | case2 => exact decodeLoop_short Nat.two_pos
  | case3 => exact decodeLoop_short Nat.one_lt_two
  | case4 e _ => simp [newlineNext] at h
  | case5 b _ hb => simp [newlineNext, hb] at h
  | case6 a _ ha => simp [newlineNext, ha] at h

/-- **An escape** is a byte, and a CR in front of an escaped LF is left out. -/
theorem decodeLoop_escape : decodeLoop out vtp gap 0 ('%'.toUInt8 :: c₁ :: c₂ :: url) =
    if escaped c₁ c₂ = 0x0D ∧ ['%'.toUInt8, '0'.toUInt8, 'A'.toUInt8] <+: url then
      decodeLoop out vtp (0 :: (gap ++ ['%'.toUInt8, c₁, c₂]).tail) 0 url
    else decodeLoop (out ++ [escaped c₁ c₂]) vtp (gap ++ ['%'.toUInt8, c₁, c₂]).tail 0 url := by
  rw [decodeLoop_cons]
  simp only [show ('%'.toUInt8 = 0) = False by decide, if_false, if_true]
  by_cases hd : escaped c₁ c₂ = 0x0D
  · rcases hn : newlineNext url with _ | _ | _
    · simp [hd, ← newlineNext_true, hn, decodeLoop_of_newlineNext hn]
    · simp [hd, ← newlineNext_true, hn]
    · have hlf := newlineNext_true.1 hn
      obtain ⟨url, rfl⟩ := hlf
      have h3 (out gap : Bytes) : decodeLoop out vtp gap 3 ('%'.toUInt8 :: '0'.toUInt8 :: 'A'.toUInt8 :: url) =
          decodeLoop out vtp (gap ++ ['%'.toUInt8, '0'.toUInt8, 'A'.toUInt8]) 0 url := by
        simp [decodeLoop]
      have h0 (gap : Bytes) : decodeLoop out vtp gap 0 ('%'.toUInt8 :: '0'.toUInt8 :: 'A'.toUInt8 :: url) =
          decodeLoop (out ++ ['\n'.toUInt8]) vtp (gap ++ ['%'.toUInt8, '0'.toUInt8, 'A'.toUInt8]).tail 0 url := by
        rw [decodeLoop_cons]
        rfl
      simp [hd, h3, h0]
  · simp [hd]

end Steps

/-! ## The number of pointers -/

theorem separators_separator {c : UInt8} (h : c = '='.toUInt8 ∨ c = '&'.toUInt8) (s : Bytes) :
    separators (c :: s) = separators s + 1 := by
  rw [separators.eq_def]
  rcases h with rfl | rfl
  · rfl
  · rfl

theorem separators_plain {c : UInt8} (h : c ∉ ['%'.toUInt8, '='.toUInt8, '&'.toUInt8]) (s : Bytes) :
    separators (c :: s) = separators s := by
  simp only [List.mem_cons, List.not_mem_nil, or_false, not_or] at h
  rw [separators.eq_def]
  simp only [h.1, h.2.1, h.2.2, or_self, if_false, add_zero]

/-- **The run of the loop**: it ends if every escape is complete, and stores a pointer for each separator and NULL. -/
theorem decodeLoop_count {s : Bytes} (hs : 0 ∉ s) (out gap : Bytes) (vtp : List (Option ℕ)) (n : ℕ) :
    (∃ r, decodeLoop out vtp gap 0 (s ++ [0]) = some r ∧ r.vartab.length ≤ n) ↔
      Complete s ∧ vtp.length + separators s + 1 ≤ n := by
  fun_induction separators s generalizing out gap vtp with
  | case1 =>
    rw [List.nil_append, decodeLoop_nul]
    simp [Complete]
  | case2 a b s ih =>
    have hs : 0 ∉ s := fun h => hs (List.mem_cons_of_mem _ (List.mem_cons_of_mem _ (List.mem_cons_of_mem _ h)))
    have hsep : separators ('%'.toUInt8 :: a :: b :: s) = separators s := by
      rw [separators.eq_def]
      rfl
    have hcomplete : Complete ('%'.toUInt8 :: a :: b :: s) ↔ Complete s := by
      rw [Complete.eq_def]
      rfl
    rw [List.cons_append, List.cons_append, List.cons_append, decodeLoop_escape, hcomplete]
    split_ifs
    · exact ih hs _ _ _
    · exact ih hs _ _ _
  | case3 s h =>
    have hcomplete : ¬Complete ('%'.toUInt8 :: s) := by
      rw [Complete.eq_def]
      rcases s with _ | ⟨a, _ | ⟨b, s⟩⟩
      · exact id
      · exact id
      · exact (h a b s rfl).elim
    apply iff_of_false
    · rw [List.cons_append]
      rcases s with _ | ⟨a, _ | ⟨b, s⟩⟩
      · simp [decodeLoop_short]
      · rw [List.cons_append, List.nil_append, decodeLoop_escape]
        split_ifs
        · simp [decodeLoop]
        · simp [decodeLoop]
      · exact (h a b s rfl).elim
    · exact fun h => hcomplete h.1
  | case4 c s hc ih =>
    have hne : c ≠ 0 := fun h => hs (h ▸ List.mem_cons_self)
    have hs : 0 ∉ s := fun h => hs (List.mem_cons_of_mem _ h)
    rw [List.cons_append, complete_cons hc]
    by_cases hsep : c = '='.toUInt8 ∨ c = '&'.toUInt8
    · rw [decodeLoop_separator hsep, ih hs, if_pos hsep, List.length_append, List.length_singleton]
      exact and_congr_right fun _ => by omega
    · rw [if_neg hsep, add_zero]
      by_cases hplus : c = '+'.toUInt8
      · rw [hplus, decodeLoop_plus]
        exact ih hs _ _ _
      · rw [decodeLoop_plain (by simp_all)]
        exact ih hs _ _ _

/-! ## The buffers -/

theorem countPairs_nul {s : Bytes} (hs : 0 ∉ s) : countPairs (s ++ [0]) = some (s.count '='.toUInt8) := by
  induction s with
  | nil => rfl
  | cons c s ih =>
    rw [List.mem_cons, not_or] at hs
    rw [List.cons_append, countPairs, if_neg (Ne.symm hs.1), ih hs.2, Option.map_some, List.count_cons]
    simp only [beq_iff_eq, apply_ite some]
    split_ifs
    · rfl
    · rfl

theorem urldecode_nul {s : Bytes} (hs : 0 ∉ s) :
    urldecode (s ++ [0]) = if '='.toUInt8 ∈ s then decodeLoop [] [some 0] [] 0 (s ++ [0]) else some ⟨s ++ [0], []⟩ := by
  rw [urldecode, countPairs_nul hs]
  by_cases h : '='.toUInt8 ∈ s
  · rw [if_pos h]
    exact if_neg (List.count_pos_iff.2 h).ne'
  · rw [if_neg h]
    exact if_pos (List.count_eq_zero.2 h)

theorem slots_eq (n : ℕ) : slots n = 2 * n := by
  rw [slots]
  omega

/-- a string in front of its NUL -/
structure CText where
  bytes : Bytes
  no_nul : 0 ∉ bytes

theorem within_iff {s : Bytes} (hs : 0 ∉ s) :
    Within s ↔ '='.toUInt8 ∉ s ∨ Complete s ∧ separators s + 2 ≤ 2 * s.count '='.toUInt8 := by
  rw [Within, urldecode_nul hs, slots_eq]
  by_cases h : '='.toUInt8 ∈ s
  · rw [if_pos h, decodeLoop_count hs, List.length_singleton, add_right_comm, add_comm (1 + 1)]
    exact ⟨.inr, fun hr => hr.resolve_left (not_not_intro h)⟩
  · rw [if_neg h]
    exact ⟨fun _ => .inl h, fun _ => ⟨_, rfl, Nat.zero_le _⟩⟩

/-- **The decoding stays in its buffers** if there is no `=`, or if every escape is complete and there are enough `=`
for the separators and the NULL. -/
theorem urldecode_within_iff (s : CText) : Within s.bytes ↔ '='.toUInt8 ∉ s.bytes ∨
    Complete s.bytes ∧ separators s.bytes + 2 ≤ 2 * s.bytes.count '='.toUInt8 := within_iff s.no_nul

/-- **A pair.** For `a=b` there are two slots, and the NULL is stored behind them; at the end of `a=%` the loop takes
the NUL for a digit and goes on behind it. -/
theorem one_pair : 0 ∉ bytes "a=b" ∧ ¬Within (bytes "a=b") ∧ 0 ∉ bytes "a=%" ∧ ¬Within (bytes "a=%") := by
  refine ⟨by decide, ?_, by decide, ?_⟩
  · intro ⟨r, hr, hle⟩
    have hrun : urldecode (bytes "a=b" ++ [0]) = some ⟨[97, 0, 98, 0], [some 0, some 2, none]⟩ := by decide
    rw [hrun] at hr
    rw [← Option.some.inj hr] at hle
    exact absurd hle (by decide)
  · intro ⟨r, hr, _⟩
    have hrun : urldecode (bytes "a=%" ++ [0]) = none := by decide
    exact nomatch hrun.symm.trans hr

/-! ## Digits -/

section Digits

variable {c d d' : UInt8} {n : ℕ}

/-- the value of a digit; a lower-case letter has 32 more -/
theorem hex2Int_digit (hn : n < 16) (h : Digit n d) :
    16 * hex2Int d = 16 * UInt8.ofNat n ∧
      hex2Int d = UInt8.ofNat n + (if 'a'.toUInt8 ≤ d then 32 else 0) ∧ ('a'.toUInt8 ≤ d → 10 ≤ n) ∧
      d ∉ [0, '='.toUInt8] := by
  have hdecimal : ∀ n < 10, 16 * hex2Int ('0'.toUInt8 + UInt8.ofNat n) = 16 * UInt8.ofNat n ∧
      hex2Int ('0'.toUInt8 + UInt8.ofNat n) = UInt8.ofNat n ∧
      ¬ 'a'.toUInt8 ≤ '0'.toUInt8 + UInt8.ofNat n ∧ '0'.toUInt8 + UInt8.ofNat n ∉ [0, '='.toUInt8] := by decide
  have hupper : ∀ k < 6, 16 * hex2Int ('A'.toUInt8 + UInt8.ofNat k) = 16 * UInt8.ofNat (k + 10) ∧
      hex2Int ('A'.toUInt8 + UInt8.ofNat k) = UInt8.ofNat (k + 10) ∧
      ¬ 'a'.toUInt8 ≤ 'A'.toUInt8 + UInt8.ofNat k ∧ 'A'.toUInt8 + UInt8.ofNat k ∉ [0, '='.toUInt8] := by decide
  have hlower : ∀ k < 6, 16 * hex2Int ('a'.toUInt8 + UInt8.ofNat k) = 16 * UInt8.ofNat (k + 10) ∧
      hex2Int ('a'.toUInt8 + UInt8.ofNat k) = UInt8.ofNat (k + 10) + 32 ∧
      'a'.toUInt8 ≤ 'a'.toUInt8 + UInt8.ofNat k ∧ 'a'.toUInt8 + UInt8.ofNat k ∉ [0, '='.toUInt8] := by decide
  rcases h with ⟨hlt, rfl⟩ | ⟨hge, rfl | rfl⟩
  · obtain ⟨hmul, hval, hcase, hne⟩ := hdecimal n hlt
    exact ⟨hmul, by rw [hval, if_neg hcase, UInt8.add_zero], fun h => (hcase h).elim, hne⟩
  · obtain ⟨hmul, hval, hcase, hne⟩ := hupper (n - 10) (by omega)
    rw [Nat.sub_add_cancel hge] at hmul hval
    exact ⟨hmul, by rw [hval, if_neg hcase, UInt8.add_zero], fun _ => hge, hne⟩
  · obtain ⟨hmul, hval, hcase, hne⟩ := hlower (n - 10) (by omega)
    rw [Nat.sub_add_cancel hge] at hmul hval
    exact ⟨hmul, by rw [hval, if_pos hcase], fun _ => hge, hne⟩

/-- **Only the case of the second digit matters**: 32 times 16 is 0. -/
theorem escaped_digits (hd : Digit (c.toNat / 16) d) (hd' : Digit (c.toNat % 16) d') :
    escaped d d' = if 'a'.toUInt8 ≤ d' then c + 32 else c := by
  have hc := c.toNat_lt
  obtain ⟨hhigh, -⟩ := hex2Int_digit (by omega) hd
  obtain ⟨-, hlow, -⟩ := hex2Int_digit (by omega) hd'
  have hbyte : 16 * UInt8.ofNat (c.toNat / 16) + UInt8.ofNat (c.toNat % 16) = c := by
    apply UInt8.toNat.inj
    simp
    omega
  rw [escaped, hhigh, hlow, ← UInt8.add_assoc, hbyte]
  split_ifs
  · rfl
  · exact UInt8.add_zero c

theorem add_case (c : UInt8) : c + 32 ≠ c := by
  intro h
  have hc := c.toNat_lt
  have h := congrArg UInt8.toNat h
  rw [UInt8.toNat_add, show (32 : UInt8).toNat = 32 from rfl] at h
  omega

end Digits

/-! ## A text without separators -/

/-- what a text without separators is decoded to -/
def component : Bytes → Bytes
  | [] => []
  | c :: s =>
    if c = '%'.toUInt8 then
      match s with
      | c₁ :: c₂ :: s =>
        if escaped c₁ c₂ = 0x0D ∧ ['%'.toUInt8, '0'.toUInt8, 'A'.toUInt8] <+: s then component s
        else escaped c₁ c₂ :: component s
      | _ => []
    else if c = '+'.toUInt8 then ' '.toUInt8 :: component s
    else c :: component s

section Component

variable {c c₁ c₂ d d' : UInt8} {s t u rest : Bytes}

theorem component_escape : component ('%'.toUInt8 :: c₁ :: c₂ :: s) =
    if escaped c₁ c₂ = 0x0D ∧ ['%'.toUInt8, '0'.toUInt8, 'A'.toUInt8] <+: s then component s
    else escaped c₁ c₂ :: component s := by
  rw [component.eq_def]
  rfl

theorem component_plus : component ('+'.toUInt8 :: s) = ' '.toUInt8 :: component s := by
  rw [component.eq_def]
  rfl

theorem component_plain (h : c ≠ '%'.toUInt8) (h' : c ≠ '+'.toUInt8) : component (c :: s) = c :: component s := by
  rw [component.eq_def]
  exact (if_neg h).trans (if_neg h')

theorem lowerEscape_escape : LowerEscape ('%'.toUInt8 :: c₁ :: c₂ :: s) ↔ 'a'.toUInt8 ≤ c₂ ∨ LowerEscape s := by
  rw [LowerEscape.eq_def]
  rfl

theorem lowerEscape_plain (h : c ≠ '%'.toUInt8) : LowerEscape (c :: s) ↔ LowerEscape s := by
  rw [LowerEscape.eq_def]
  exact Iff.of_eq (if_neg h)

/-- an escaped LF is in the text, or it is not there -/
theorem newline_prefix (h : EncodesAll s t) (hrest : rest.head? ≠ some '%'.toUInt8) :
    ['%'.toUInt8, '0'.toUInt8, 'A'.toUInt8] <+: t ++ rest ↔ ['%'.toUInt8, '0'.toUInt8, 'A'.toUInt8] <+: t := by
  cases h with
  | nil =>
    match rest with
    | [] => exact Iff.rfl
    | c :: rest =>
      have hc : '%'.toUInt8 ≠ c := fun h => hrest (congrArg some h.symm)
      simp [hc]
  | cons h _ =>
    cases h with
    | plain h =>
      simp only [List.mem_cons, not_or] at h
      simp [Ne.symm h.1]
    | plus => simp [show '%'.toUInt8 ≠ '+'.toUInt8 by decide]
    | escape => simp

/-- **The run over a text**: it is decoded by itself, whatever there is behind it. -/
theorem decodeLoop_text (h : EncodesAll s t) (hs : 0 ∉ s) (hrest : rest.head? ≠ some '%'.toUInt8) (out gap : Bytes)
    (vtp : List (Option ℕ)) : ∃ gap', decodeLoop out vtp gap 0 (t ++ rest) =
      decodeLoop (out ++ component t) vtp gap' 0 rest := by
  induction h generalizing out gap with
  | nil => exact ⟨gap, by rw [component, List.append_nil, List.nil_append]⟩
  | @cons c s t u h hu ih =>
    rw [List.mem_cons, not_or] at hs
    cases h with
    | plain h =>
      obtain ⟨gap', hgap⟩ := ih hs.2 (out ++ [c]) (gap ++ [c]).tail
      simp only [List.mem_cons, List.not_mem_nil, or_false, not_or] at h
      refine ⟨gap', ?_⟩
      calc decodeLoop out vtp gap 0 (c :: (u ++ rest))
        _ = decodeLoop (out ++ [c]) vtp (gap ++ [c]).tail 0 (u ++ rest) := decodeLoop_plain (by simp [Ne.symm hs.1, h])
        _ = decodeLoop (out ++ [c] ++ component u) vtp gap' 0 rest := hgap
        _ = decodeLoop (out ++ component (c :: u)) vtp gap' 0 rest := by
          rw [component_plain h.1 h.2.1, List.append_assoc, List.singleton_append]
    | plus =>
      obtain ⟨gap', hgap⟩ := ih hs.2 (out ++ [' '.toUInt8]) (gap ++ ['+'.toUInt8]).tail
      refine ⟨gap', ?_⟩
      calc decodeLoop out vtp gap 0 ('+'.toUInt8 :: (u ++ rest))
        _ = decodeLoop (out ++ [' '.toUInt8]) vtp (gap ++ ['+'.toUInt8]).tail 0 (u ++ rest) := decodeLoop_plus
        _ = decodeLoop (out ++ [' '.toUInt8] ++ component u) vtp gap' 0 rest := hgap
        _ = decodeLoop (out ++ component ('+'.toUInt8 :: u)) vtp gap' 0 rest := by
          rw [component_plus, List.append_assoc, List.singleton_append]
    | escape _ _ =>
      simp only [List.cons_append, List.nil_append, decodeLoop_escape, component_escape, newline_prefix hu hrest]
      split_ifs
      · exact ih hs.2 _ _
      · obtain ⟨gap', hgap⟩ := ih hs.2 (out ++ [escaped _ _]) _
        exact ⟨gap', hgap.trans (by rw [List.append_assoc, List.singleton_append])⟩

/-- **A text is decoded to what it was written for** if no second digit is a lower-case letter. -/
theorem component_eq_iff (h : EncodesAll s t) (hs : 0x0D ∉ s) : component t = s ↔ ¬LowerEscape t := by
  induction h with
  | nil => exact iff_of_true rfl id
  | @cons c s t u h hu ih =>
    rw [List.mem_cons, not_or] at hs
    cases h with
    | plain h =>
      simp only [List.mem_cons, List.not_mem_nil, or_false, not_or] at h
      rw [List.singleton_append, component_plain h.1 h.2.1, lowerEscape_plain h.1, ← ih hs.2]
      exact List.cons_inj_right c
    | plus =>
      rw [List.singleton_append, component_plus, lowerEscape_plain (by decide), ← ih hs.2]
      exact List.cons_inj_right _
    | @escape _ d d' hd hd' =>
      simp only [List.cons_append, List.nil_append]
      rw [component_escape, lowerEscape_escape, escaped_digits hd hd']
      by_cases hlower : 'a'.toUInt8 ≤ d'
      · apply iff_of_false _ fun h => h (.inl hlower)
        rw [if_pos hlower]
        by_cases hcr : c + 32 = 0x0D ∧ ['%'.toUInt8, '0'.toUInt8, 'A'.toUInt8] <+: u
        · obtain ⟨hcr, v, rfl⟩ := hcr
          rw [if_pos ⟨hcr, List.prefix_append _ _⟩]
          have hlf : component (['%'.toUInt8, '0'.toUInt8, 'A'.toUInt8] ++ v) = '\n'.toUInt8 :: component v :=
            component_escape
          intro h
          rw [← (List.cons.inj (hlf.symm.trans h)).1] at hcr
          exact absurd hcr (by decide)
        · rw [if_neg hcr]
          exact fun h => add_case c (List.cons.inj h).1
      · rw [if_neg hlower, if_neg fun h => hs.1 h.1.symm, or_iff_right hlower, ← ih hs.2]
        exact List.cons_inj_right c

/-- an encoded string and what it is decoded to are strings -/
theorem encodesAll_nul (h : EncodesAll s t) (hs : 0 ∉ s) : 0 ∉ t ∧ 0 ∉ component t := by
  induction h with
  | nil => exact ⟨List.not_mem_nil, List.not_mem_nil⟩
  | @cons c s t u h hu ih =>
    rw [List.mem_cons, not_or] at hs
    obtain ⟨ht, hc⟩ := ih hs.2
    cases h with
    | plain h =>
      simp only [List.mem_cons, List.not_mem_nil, or_false, not_or] at h
      rw [List.singleton_append, component_plain h.1 h.2.1]
      exact ⟨List.not_mem_cons_of_ne_of_not_mem hs.1 ht, List.not_mem_cons_of_ne_of_not_mem hs.1 hc⟩
    | plus =>
      rw [List.singleton_append, component_plus]
      exact ⟨List.not_mem_cons_of_ne_of_not_mem (by decide) ht, List.not_mem_cons_of_ne_of_not_mem (by decide) hc⟩
    | @escape _ d d' hd hd' =>
      have hlt := c.toNat_lt
      obtain ⟨-, -, -, hmem⟩ := hex2Int_digit (by omega) hd
      obtain ⟨-, -, hcase, hmem'⟩ := hex2Int_digit (by omega) hd'
      have hd0 : d ≠ 0 := fun h => hmem (h ▸ List.mem_cons_self)
      have hd0' : d' ≠ 0 := fun h => hmem' (h ▸ List.mem_cons_self)
      have hne : escaped d d' ≠ 0 := by
        rw [escaped_digits hd hd']
        split_ifs with hlower
        · -- the second digit of the byte is at least 10, and so it stays
          have hten := hcase hlower
          intro h
          have h := congrArg UInt8.toNat h
          rw [UInt8.toNat_add, show (32 : UInt8).toNat = 32 from rfl, show (0 : UInt8).toNat = 0 from rfl] at h
          omega
        · exact Ne.symm hs.1
      simp only [List.cons_append, List.nil_append]
      rw [component_escape]
      refine ⟨by simp [ht, Ne.symm hd0, Ne.symm hd0', show (0 : UInt8) ≠ '%'.toUInt8 by decide], ?_⟩
      split_ifs
      · exact hc
      · exact List.not_mem_cons_of_ne_of_not_mem (Ne.symm hne) hc

theorem lowerEscape_append (h : EncodesAll s t) (rest : Bytes) :
    LowerEscape (t ++ rest) ↔ LowerEscape t ∨ LowerEscape rest := by
  induction h with
  | nil => exact (or_iff_right id).symm
  | cons h _ ih =>
    cases h with
    | plain h =>
      simp only [List.mem_cons, not_or] at h
      rw [List.singleton_append, List.cons_append, lowerEscape_plain h.1, lowerEscape_plain h.1, ih]
    | plus =>
      rw [List.singleton_append, List.cons_append, lowerEscape_plain (by decide), lowerEscape_plain (by decide), ih]
    | escape =>
      simp only [List.cons_append, List.nil_append]
      rw [lowerEscape_escape, lowerEscape_escape, ih, or_assoc]

/-- no separator is in a text, and no `=` -/
theorem encodesAll_count (h : EncodesAll s t) (rest : Bytes) :
    separators (t ++ rest) = separators rest ∧ (t ++ rest).count '='.toUInt8 = rest.count '='.toUInt8 := by
  induction h with
  | nil => exact ⟨rfl, rfl⟩
  | @cons c s t u h _ ih =>
    cases h with
    | plain h =>
      simp only [List.mem_cons, List.not_mem_nil, or_false, not_or] at h
      constructor
      · exact (separators_plain (by simp [h]) (u ++ rest)).trans ih.1
      · exact (List.count_cons_of_ne h.2.2.1).trans ih.2
    | plus =>
      constructor
      · exact (separators_plain (by decide) (u ++ rest)).trans ih.1
      · exact (List.count_cons_of_ne (by decide)).trans ih.2
    | @escape _ d d' hd hd' =>
      have hlt := c.toNat_lt
      obtain ⟨-, -, -, hmem⟩ := hex2Int_digit (by omega) hd
      obtain ⟨-, -, -, hmem'⟩ := hex2Int_digit (by omega) hd'
      have hne : d ≠ '='.toUInt8 := fun h => hmem (h ▸ List.mem_cons_of_mem _ List.mem_cons_self)
      have hne' : d' ≠ '='.toUInt8 := fun h => hmem' (h ▸ List.mem_cons_of_mem _ List.mem_cons_self)
      have hsep : separators ('%'.toUInt8 :: d :: d' :: (u ++ rest)) = separators (u ++ rest) := by
        rw [separators.eq_def]
        rfl
      constructor
      · exact hsep.trans ih.1
      · calc ('%'.toUInt8 :: d :: d' :: (u ++ rest)).count '='.toUInt8
          _ = (d :: d' :: (u ++ rest)).count '='.toUInt8 := List.count_cons_of_ne (by decide)
          _ = (d' :: (u ++ rest)).count '='.toUInt8 := List.count_cons_of_ne hne
          _ = (u ++ rest).count '='.toUInt8 := List.count_cons_of_ne hne'
          _ = rest.count '='.toUInt8 := ih.2

end Component

/-! ## The table -/

/-- where the strings start that stand one behind the other from `k` on, each with its NUL -/
def starts : ℕ → List Bytes → List ℕ
  | _, [] => []
  | k, s :: ss => k :: starts (k + s.length + 1) ss

theorem starts_read {ss : List Bytes} (hs : ∀ s ∈ ss, 0 ∉ s) (pre post : Bytes) :
    List.Forall₂ (fun p s => cstring ((pre ++ ss.flatMap (· ++ [0]) ++ post).drop p) = some s) (starts pre.length ss)
      ss := by
  induction ss generalizing pre with
  | nil => exact .nil
  | cons s ss ih =>
    have hpre : pre ++ (s :: ss).flatMap (· ++ [0]) ++ post = pre ++ s ++ [0] ++ ss.flatMap (· ++ [0]) ++ post := by
      simp
    refine .cons ?_ ?_
    · rw [List.flatMap_cons, List.append_assoc pre, List.drop_left, List.append_assoc s, List.append_assoc s]
      exact cstring_nul (hs s List.mem_cons_self) _
    · have h := ih (fun s' hs' => hs s' (List.mem_cons_of_mem s hs')) (pre ++ s ++ [0])
      rw [List.length_append, List.length_append, List.length_singleton] at h
      rw [hpre]
      exact h

/-- from a start of a string on, the cells are decoded to the strings, however the loop gets there -/
def Decodes (cells : Bytes) (ss : List Bytes) : Prop :=
  ∀ out vtp gap, ∃ junk, decodeLoop out vtp gap 0 cells =
    some ⟨out ++ ss.flatMap (· ++ [0]) ++ junk, vtp ++ (starts out.length ss).tail.map some ++ [none]⟩

section Table

variable {d : UInt8} {s t cells : Bytes} {ss : List Bytes}

theorem decodes_last (h : EncodesAll s t) (hs : 0 ∉ s) : Decodes (t ++ [0]) [component t] := by
  intro out vtp gap
  have hrest : ([0] : Bytes).head? ≠ some '%'.toUInt8 := by decide
  obtain ⟨gap', hgap⟩ := decodeLoop_text h hs hrest out gap vtp
  refine ⟨(gap' ++ [0]).tail, ?_⟩
  rw [hgap, decodeLoop_nul]
  simp [starts]

/-- **A separator** ends a string, and what is behind it is the next one. -/
theorem decodes_cons (h : EncodesAll s t) (hs : 0 ∉ s) (hd : d = '='.toUInt8 ∨ d = '&'.toUInt8)
    (hcells : Decodes cells ss) (hss : ss ≠ []) : Decodes (t ++ d :: cells) (component t :: ss) := by
  intro out vtp gap
  have hrest : (d :: cells).head? ≠ some '%'.toUInt8 := by
    rcases hd with rfl | rfl
    · exact fun h => absurd (Option.some.inj h) (by decide)
    · exact fun h => absurd (Option.some.inj h) (by decide)
  obtain ⟨gap', hgap⟩ := decodeLoop_text h hs hrest out gap vtp
  obtain ⟨junk, hjunk⟩ := hcells (out ++ component t ++ [0]) (vtp ++ [some ((out ++ component t).length + 1)])
    (gap' ++ [d]).tail
  refine ⟨junk, ?_⟩
  obtain ⟨s', ss, rfl⟩ := List.exists_cons_of_ne_nil hss
  rw [hgap, decodeLoop_separator hd, hjunk]
  simp [starts, ← add_assoc]

/-- **The run over a form**: the table holds strings that are the names and values if no second digit is a lower-case
letter. -/
theorem decodes_form {fs : List Field} {qs : List Bytes} (h : List.Forall₂ EncodesField fs qs) (hfs : fs ≠ []) :
    0 ∉ ['&'.toUInt8].intercalate qs ∧ '='.toUInt8 ∈ ['&'.toUInt8].intercalate qs ∧
      ∃ ss, ss ≠ [] ∧ (∀ s ∈ ss, 0 ∉ s) ∧ Decodes (['&'.toUInt8].intercalate qs ++ [0]) ss ∧
        (ss = texts fs ↔ ¬LowerEscape (['&'.toUInt8].intercalate qs)) := by
  induction h with
  | nil => exact (hfs rfl).elim
  | @cons f q fs qs hq hqs ih =>
    obtain ⟨t, u, ht, hu, rfl⟩ := hq
    have hname : 0 ∉ f.name := fun h => (f.name_bytes 0 h).1 rfl
    have hvalue : 0 ∉ f.value := fun h => (f.value_bytes 0 h).1 rfl
    obtain ⟨ht0, hct0⟩ := encodesAll_nul ht hname
    obtain ⟨hu0, hcu0⟩ := encodesAll_nul hu hvalue
    have htiff := component_eq_iff ht fun h => (f.name_bytes _ h).2 rfl
    have huiff := component_eq_iff hu fun h => (f.value_bytes _ h).2 rfl
    cases hqs with
    | nil =>
      have hinter : ['&'.toUInt8].intercalate [t ++ '='.toUInt8 :: u] = t ++ '='.toUInt8 :: u := by simp
      rw [hinter]
      refine ⟨?_, List.mem_append_right t List.mem_cons_self, [component t, component u], List.cons_ne_nil _ _, ?_,
        ?_, ?_⟩
      · simp [ht0, hu0, show (0 : UInt8) ≠ '='.toUInt8 by decide]
      · simp [hct0, hcu0]
      · rw [List.append_assoc, List.cons_append]
        exact decodes_cons ht hname (.inl rfl) (decodes_last hu hvalue) (List.cons_ne_nil _ _)
      · rw [lowerEscape_append ht, lowerEscape_plain (by decide), not_or, ← htiff, ← huiff]
        simp [texts]
    | @cons f' q' fs qs hq' hqs =>
      obtain ⟨h0, -, ss, hss, hsnul, hdec, hiff⟩ := ih (List.cons_ne_nil _ _)
      have hinter : ['&'.toUInt8].intercalate ((t ++ '='.toUInt8 :: u) :: q' :: qs) =
          t ++ '='.toUInt8 :: (u ++ '&'.toUInt8 :: ['&'.toUInt8].intercalate (q' :: qs)) := by
        simp [List.intercalate]
      rw [hinter]
      generalize ['&'.toUInt8].intercalate (q' :: qs) = q at h0 hdec hiff
      refine ⟨?_, List.mem_append_right t List.mem_cons_self, component t :: component u :: ss, List.cons_ne_nil _ _,
        ?_, ?_, ?_⟩
      · simp [ht0, hu0, h0, show (0 : UInt8) ≠ '='.toUInt8 by decide, show (0 : UInt8) ≠ '&'.toUInt8 by decide]
      · intro s hs
        rcases List.mem_cons.1 hs with rfl | hs
        · exact hct0
        · rcases List.mem_cons.1 hs with rfl | hs
          · exact hcu0
          · exact hsnul s hs
      · rw [List.append_assoc, List.cons_append, List.append_assoc, List.cons_append]
        exact decodes_cons ht hname (.inl rfl) (decodes_cons hu hvalue (.inr rfl) hdec hss) (List.cons_ne_nil _ _)
      · rw [lowerEscape_append ht, lowerEscape_plain (by decide), lowerEscape_append hu, lowerEscape_plain (by decide),
          not_or, not_or, ← htiff, ← huiff, ← hiff]
        simp [texts]

end Table

/-- a form has one separator less than two for each `=` -/
theorem form_count {fs : List Field} {qs : List Bytes} (h : List.Forall₂ EncodesField fs qs) (hfs : fs ≠ []) :
    separators (['&'.toUInt8].intercalate qs) + 1 = 2 * (['&'.toUInt8].intercalate qs).count '='.toUInt8 := by
  induction h with
  | nil => exact (hfs rfl).elim
  | @cons f q fs qs hq hqs ih =>
    obtain ⟨t, u, ht, hu, rfl⟩ := hq
    cases hqs with
    | nil =>
      have hinter : ['&'.toUInt8].intercalate [t ++ '='.toUInt8 :: u] = t ++ '='.toUInt8 :: (u ++ []) := by simp
      rw [hinter, (encodesAll_count ht _).1, (encodesAll_count ht _).2, separators_separator (.inl rfl),
        List.count_cons_self, (encodesAll_count hu _).1, (encodesAll_count hu _).2]
      rfl
    | @cons f' q' fs qs hq' hqs =>
      have hrest := ih (List.cons_ne_nil _ _)
      have hinter : ['&'.toUInt8].intercalate ((t ++ '='.toUInt8 :: u) :: q' :: qs) =
          t ++ '='.toUInt8 :: (u ++ '&'.toUInt8 :: ['&'.toUInt8].intercalate (q' :: qs)) := by
        simp [List.intercalate]
      rw [hinter, (encodesAll_count ht _).1, (encodesAll_count ht _).2, separators_separator (.inl rfl),
        List.count_cons_self, (encodesAll_count hu _).1, (encodesAll_count hu _).2, separators_separator (.inr rfl),
        List.count_cons_of_ne (by decide)]
      omega

/-- **Every form overruns its table**, if it is written as it should be. -/
theorem form_overruns {fs : List Field} {q : Bytes} (h : EncodesForm fs q) (hfs : fs ≠ []) : ¬Within q := by
  obtain ⟨qs, hqs, rfl⟩ := h
  obtain ⟨h0, heq, -⟩ := decodes_form hqs hfs
  have hcount := form_count hqs hfs
  rw [within_iff h0]
  intro h
  have hle := (h.resolve_left (not_not_intro heq)).2
  omega

/-- the strings of a table are what they are -/
theorem reads_unique {r : Decoded} {ss ss' : List Bytes} (h : r.Reads ss) (h' : r.Reads ss') : ss = ss' := by
  obtain ⟨ps, hps, hss⟩ := h
  obtain ⟨ps', hps', hss'⟩ := h'
  have hmap := List.append_cancel_right (hps.symm.trans hps')
  have heq : ps = ps' := List.map_injective_iff.2 (Option.some_injective ℕ) hmap
  subst heq
  clear hps hps' hmap
  induction hss generalizing ss' with
  | nil =>
    cases hss'
    rfl
  | cons hs _ ih =>
    cases hss' with
    | cons hs' hss' => rw [Option.some.inj (hs.symm.trans hs'), ih hss']

/-- **The form comes back** if it is not empty and no second digit of an escape is a lower-case letter. -/
theorem urldecode_right_iff {fs : List Field} {q : Bytes} (h : EncodesForm fs q) :
    FormRight fs q ↔ fs ≠ [] ∧ ¬LowerEscape q := by
  obtain ⟨qs, hqs, rfl⟩ := h
  by_cases hfs : fs = []
  · subst hfs
    cases hqs
    refine iff_of_false ?_ fun h => h.1 rfl
    intro ⟨r, hr, ps, hps, _⟩
    rw [show urldecode (['&'.toUInt8].intercalate [] ++ [0]) = some ⟨[0], []⟩ from rfl] at hr
    rw [← Option.some.inj hr] at hps
    simp at hps
  · obtain ⟨h0, heq, ss, hss, hsnul, hdec, hiff⟩ := decodes_form hqs hfs
    obtain ⟨junk, hjunk⟩ := hdec [] [some 0] []
    have hrun := urldecode_nul h0
    rw [if_pos heq, hjunk] at hrun
    have hreads : Decoded.Reads ⟨[] ++ ss.flatMap (· ++ [0]) ++ junk,
        [some 0] ++ (starts 0 ss).tail.map some ++ [none]⟩ ss := by
      refine ⟨starts 0 ss, ?_, starts_read hsnul [] junk⟩
      obtain ⟨s, ss, rfl⟩ := List.exists_cons_of_ne_nil hss
      rfl
    rw [← hiff, FormRight, hrun, and_iff_right hfs]
    constructor
    · intro ⟨r, hr, hr'⟩
      rw [← Option.some.inj hr] at hr'
      exact reads_unique hreads hr'
    · intro h
      exact ⟨_, rfl, h ▸ hreads⟩

def slash : Field where
  name := bytes "a"
  value := bytes "/"
  name_bytes := List.forall_mem_singleton.2 (by decide)
  value_bytes := List.forall_mem_singleton.2 (by decide)

/-- with upper-case digits the slash comes back -/
theorem upper_case : EncodesForm [slash] (bytes "a=%2F") ∧ FormRight [slash] (bytes "a=%2F") := by
  have hname : EncodesAll (bytes "a") (bytes "a") := .cons (.plain (by decide)) .nil
  have hvalue : EncodesAll (bytes "/") (bytes "%2F") :=
    .cons (.escape (Or.inl ⟨by decide, rfl⟩) (Or.inr ⟨by decide, Or.inl rfl⟩)) .nil
  have hform : EncodesForm [slash] (bytes "a=%2F") := ⟨[bytes "a=%2F"], .cons ⟨_, _, hname, hvalue, rfl⟩ .nil, rfl⟩
  refine ⟨hform, (urldecode_right_iff hform).2 ⟨List.cons_ne_nil _ _, ?_⟩⟩
  rintro (h | h)
  · exact absurd h (by decide)
  · exact h

/-- **A lower-case digit.** The slash written as `%2f` is decoded to an `O`. -/
theorem lower_case : EncodesForm [slash] (bytes "a=%2f") ∧ ¬FormRight [slash] (bytes "a=%2f") := by
  have hname : EncodesAll (bytes "a") (bytes "a") := .cons (.plain (by decide)) .nil
  have hvalue : EncodesAll (bytes "/") (bytes "%2f") :=
    .cons (.escape (Or.inl ⟨by decide, rfl⟩) (Or.inr ⟨by decide, Or.inr rfl⟩)) .nil
  refine ⟨⟨[bytes "a=%2f"], .cons ⟨_, _, hname, hvalue, rfl⟩ .nil, rfl⟩, ?_⟩
  intro ⟨r, hr, hreads⟩
  have hrun : urldecode (bytes "a=%2f" ++ [0]) = some ⟨[97, 0, 79, 0, 102, 0], [some 0, some 2, none]⟩ := by decide
  rw [← Option.some.inj (hrun.symm.trans hr)] at hreads
  have hreads' : Decoded.Reads ⟨[97, 0, 79, 0, 102, 0], [some 0, some 2, none]⟩ [bytes "a", bytes "O"] :=
    ⟨[0, 2], rfl, .cons (by decide) (.cons (by decide) .nil)⟩
  exact absurd (reads_unique hreads hreads') (by decide)

end MNetSoft.Vote
