/-
`print_expand` of `cgi-output.c`, which writes a string into a page: in a field of a given width, cut at a given length,
with the characters of markup as entities, and if wanted with control characters as `^` and a letter.

The entities are chosen for the byte as it is. The control characters come after that: a byte from 0x80 on is written as
`M-` and the byte without its high bit, and this may be a `<`, a `>` or a `&`. The length of the string goes through an
`int`. A sum that does not fit one is undefined (`none`).
- `expand_clean`, `clean_cells_iff`: what is written of one character, and of a string.
- `print_expand_iff`: when no markup gets out, and the field has its width.
- `markup`: a string of one byte that comes out as markup.
-/
import Mathlib.Tactic
import MNetSoft.Ownu.Fields

namespace MNetSoft.Ownu

/-! ## Model -/

def toascii (c : UInt8) : UInt8 := c &&& 0x7f

/-- the `default` of the `switch`: control characters, if wanted -/
def expandCntl (cntl : Bool) (ch : UInt8) : Bytes :=
  if cntl then
    let mark := if isascii ch then [] else bytes "M-"
    let ch := if isascii ch then ch else toascii ch
    if isprint ch then mark ++ [ch]
    else mark ++ ['^'.toUInt8, if ch = 0x7f then '?'.toUInt8 else ch + '@'.toUInt8]
  else [ch]

/-- what is written of one character -/
def expand (cntl : Bool) (ch : UInt8) : Bytes :=
  if ch = '<'.toUInt8 then bytes "&lt;"
  else if ch = '>'.toUInt8 then bytes "&gt;"
  else if ch = '&'.toUInt8 then bytes "&amp;"
  else expandCntl cntl ch

/-- what is written: spaces, each character in its place, spaces -/
structure Printed where
  before : ℕ
  cells : List Bytes
  after : ℕ
deriving DecidableEq

def spaces (n : ℕ) : Bytes := List.replicate n ' '.toUInt8

def Printed.bytes (f : Printed) : Bytes := spaces f.before ++ f.cells.flatten ++ spaces f.after

/-- a character counts for one, whatever is written for it -/
def Printed.width (f : Printed) : ℕ := f.before + f.cells.length + f.after

def print_expand (s : Bytes) (left cntl : Bool) (minlen maxlen : ℤ) : Option Printed :=
  let len : ℤ := Int.bmod s.length (2 ^ 32)
  let len := if maxlen ≠ -1 ∧ len > maxlen then maxlen else len
  let pad := if len < minlen then minlen - len else 0
  if pad ≥ 2 ^ 31 then none
  else
    let pad := pad.toNat
    some ⟨if left then 0 else pad, (s.take len.toNat).map (expand cntl), if left then pad else 0⟩

/-! ## What is wanted -/

/-- the entities without their `&` -/
def names : List Bytes := [bytes "lt;", bytes "gt;", bytes "amp;"]

/-- an entity goes on here -/
def Named (s : Bytes) : Prop := ∃ e ∈ names, e <+: s

/-- no `<` and no `>`, and every `&` begins an entity -/
def Clean : Bytes → Prop
  | [] => True
  | c :: s => c ≠ '<'.toUInt8 ∧ c ≠ '>'.toUInt8 ∧ (c = '&'.toUInt8 → Named s) ∧ Clean s

/-- no markup, no more characters than wanted, and the width that is wanted -/
def PrintedRight (s : Bytes) (left cntl : Bool) (minlen maxlen : ℤ) : Prop :=
  ∃ f, print_expand s left cntl minlen maxlen = some f ∧ Clean f.bytes ∧
    (maxlen ≠ -1 → (f.cells.length : ℤ) ≤ maxlen) ∧ (f.width : ℤ) = max minlen f.cells.length

/-- no character becomes markup without its high bit -/
def Harmless : Bytes → Prop
  | [] => True
  | c :: s => c ≠ 0xbc ∧ c ≠ 0xbe ∧ (c = 0xa6 → Named s) ∧ Harmless s

instance (s : Bytes) : Decidable (Named s) := by
  unfold Named
  infer_instance

instance Harmless.decidable : ∀ s, Decidable (Harmless s)
  | [] => isTrue trivial
  | c :: s =>
    have := Harmless.decidable s
    inferInstanceAs (Decidable (c ≠ 0xbc ∧ c ≠ 0xbe ∧ (c = 0xa6 → Named s) ∧ Harmless s))

/-- how many characters are written -/
def rendered (s : Bytes) (maxlen : ℤ) : ℕ :=
  if maxlen = -1 then s.length % 2 ^ 32 else min (s.length % 2 ^ 32) maxlen.toNat

/-! ## One character -/

/-- what is said of all bytes of a text is decided along the text -/
instance (priority := 1100) (s : Bytes) (p : UInt8 → Prop) [DecidablePred p] : Decidable (∀ c ∈ s, p c) :=
  List.decidableBAll p s

/-- a character that markup does not care about -/
def Plain (c : UInt8) : Prop := c ≠ '<'.toUInt8 ∧ c ≠ '>'.toUInt8 ∧ c ≠ '&'.toUInt8

instance : DecidablePred Plain := fun c => by
  unfold Plain
  infer_instance

theorem plain_mark : ∀ c ∈ bytes "M-", Plain c := by decide

theorem toNat_toascii (c : UInt8) : (toascii c).toNat = c.toNat % 128 := by
  rw [toascii, UInt8.toNat_and]
  exact Nat.and_two_pow_sub_one_eq_mod c.toNat 7

/-- what becomes an ASCII character that is below 0x80 -/
theorem toascii_eq_iff {c d : UInt8} (hc : isascii c = false) (hd : d.toNat < 128) : toascii c = d ↔ c = d + 0x80 := by
  have hge : 128 ≤ c.toNat := by simpa [isascii, UInt8.lt_iff_toNat_lt] using hc
  have hlt := c.toNat_lt
  rw [← UInt8.toNat_inj, ← UInt8.toNat_inj, toNat_toascii, UInt8.toNat_add]
  simp only [UInt8.reduceToNat]
  omega

/-- the letter behind a `^` -/
theorem plain_letter {c : UInt8} (hc : isascii c = true) (hp : isprint c = false) :
    Plain (if c = 0x7f then '?'.toUInt8 else c + '@'.toUInt8) := by
  by_cases hdel : c = 0x7f
  · rw [if_pos hdel]
    decide
  · rw [if_neg hdel]
    have hlt : c.toNat < 128 := by simpa [isascii, UInt8.lt_iff_toNat_lt] using hc
    have hsmall : c.toNat < 32 := by
      by_contra hge
      rw [← UInt8.toNat_inj] at hdel
      refine absurd hp ?_
      simp only [isprint, UInt8.le_iff_toNat_le, Bool.and_eq_false_iff, decide_eq_false_iff_not, not_or, not_not]
      simp only [UInt8.reduceToNat] at hdel
      exact ⟨not_lt.1 hge, Nat.le_of_lt_succ (lt_of_le_of_ne (Nat.le_of_lt_succ hlt) hdel)⟩
    have hletter : (c + '@'.toUInt8).toNat = c.toNat + 64 := by
      rw [UInt8.toNat_add]
      exact Nat.mod_eq_of_lt (Nat.lt_of_lt_of_le (Nat.add_lt_add_right hsmall 64) (by decide))
    have hne : ∀ d : UInt8, d.toNat < 64 → c + '@'.toUInt8 ≠ d := by
      rintro d hd rfl
      rw [hletter] at hd
      omega
    exact ⟨hne _ (by decide), hne _ (by decide), hne _ (by decide)⟩

/-- what is written of a control character -/
theorem expandCntl_plain {cntl : Bool} {c : UInt8} (hc : Plain c)
    (h : cntl = true → c ≠ 0xbc ∧ c ≠ 0xbe ∧ c ≠ 0xa6) : ∀ d ∈ expandCntl cntl c, Plain d := by
  unfold expandCntl
  cases cntl with
  | false => simpa using hc
  | true =>
    have hcaret : Plain '^'.toUInt8 := by decide
    obtain ⟨hlt, hgt, hamp⟩ := h rfl
    rw [if_pos rfl]
    dsimp only
    by_cases hascii : isascii c = true
    · rw [if_pos hascii, if_pos hascii]
      by_cases hp : isprint c = true
      · simpa [hp] using hc
      · have hletter := plain_letter hascii (by simpa using hp)
        rw [if_neg hp]
        simpa [hcaret] using hletter
    · have hhigh : isascii c = false := by simpa using hascii
      have hlow : isascii (toascii c) = true := by
        have := Nat.mod_lt c.toNat (show 0 < 128 by decide)
        simpa [isascii, UInt8.lt_iff_toNat_lt, toNat_toascii] using this
      rw [if_neg hascii, if_neg hascii]
      by_cases hp : isprint (toascii c) = true
      · have hplain : Plain (toascii c) :=
          ⟨mt (toascii_eq_iff hhigh (by decide)).1 hlt, mt (toascii_eq_iff hhigh (by decide)).1 hgt,
            mt (toascii_eq_iff hhigh (by decide)).1 hamp⟩
        rw [if_pos hp, List.forall_mem_append]
        exact ⟨plain_mark, by simpa using hplain⟩
      · have hletter := plain_letter hlow (by simpa using hp)
        rw [if_neg hp, List.forall_mem_append]
        exact ⟨plain_mark, by simpa [hcaret] using hletter⟩

theorem clean_plain {p s : Bytes} (hp : ∀ c ∈ p, Plain c) : Clean (p ++ s) ↔ Clean s := by
  induction p with
  | nil => exact Iff.rfl
  | cons c p ih =>
    obtain ⟨⟨hlt, hgt, hamp⟩, hp⟩ := List.forall_mem_cons.1 hp
    rw [List.cons_append, Clean, ih hp]
    exact ⟨fun h => h.2.2.2, fun h => ⟨hlt, hgt, fun h => absurd h hamp, h⟩⟩

theorem clean_entity {e s : Bytes} (he : e ∈ names) : Clean ('&'.toUInt8 :: (e ++ s)) ↔ Clean s := by
  have hplain : ∀ e ∈ names, ∀ c ∈ e, Plain c := by decide
  rw [Clean, clean_plain (hplain e he)]
  exact ⟨fun h => h.2.2.2, fun h => ⟨by decide, by decide, fun _ => ⟨e, he, List.prefix_append e s⟩, h⟩⟩

/-- a byte that loses its high bit -/
theorem expand_high {d : UInt8} (h : expand true (d + 0x80) = bytes "M-" ++ [d]) (s : Bytes) :
    Clean (expand true (d + 0x80) ++ s) ↔ Clean (d :: s) := by
  rw [h, List.append_assoc, clean_plain plain_mark]
  rfl

/-- **One character.** It brings no markup, but for the three bytes that lose their high bit. -/
theorem expand_clean (cntl : Bool) (c : UInt8) (s : Bytes) :
    Clean (expand cntl c ++ s) ↔
      (cntl = true → c ≠ 0xbc ∧ c ≠ 0xbe ∧ (c = 0xa6 → Named s)) ∧ Clean s := by
  by_cases hplain : Plain c
  · have hexpand : expand cntl c = expandCntl cntl c := by
      rw [expand, if_neg hplain.1, if_neg hplain.2.1, if_neg hplain.2.2]
    by_cases hbad : cntl = true ∧ (c = 0xbc ∨ c = 0xbe ∨ c = 0xa6)
    · obtain ⟨rfl, rfl | rfl | rfl⟩ := hbad
      · rw [show (0xbc : UInt8) = '<'.toUInt8 + 0x80 by decide, expand_high (by decide), Clean]
        simp
      · rw [show (0xbe : UInt8) = '>'.toUInt8 + 0x80 by decide, expand_high (by decide), Clean]
        simp
      · rw [show (0xa6 : UInt8) = '&'.toUInt8 + 0x80 by decide, expand_high (by decide), Clean]
        refine ⟨fun h => ⟨fun _ => ⟨by decide, by decide, fun _ => h.2.2.1 rfl⟩, h.2.2.2⟩, fun h => ?_⟩
        exact ⟨by decide, by decide, fun _ => (h.1 rfl).2.2 rfl, h.2⟩
    · have hgood : cntl = true → c ≠ 0xbc ∧ c ≠ 0xbe ∧ c ≠ 0xa6 := fun h =>
        ⟨fun hc => hbad ⟨h, Or.inl hc⟩, fun hc => hbad ⟨h, Or.inr (Or.inl hc)⟩, fun hc => hbad ⟨h, Or.inr (Or.inr hc)⟩⟩
      rw [hexpand, clean_plain (expandCntl_plain hplain hgood)]
      refine (and_iff_right fun h => ?_).symm
      exact ⟨(hgood h).1, (hgood h).2.1, fun hc => absurd hc (hgood h).2.2⟩
  · have hentity : ∃ e ∈ names, expand cntl c = '&'.toUInt8 :: e ∧ c ≠ 0xbc ∧ c ≠ 0xbe ∧ c ≠ 0xa6 := by
      unfold Plain at hplain
      by_cases hlt : c = '<'.toUInt8
      · exact ⟨bytes "lt;", by decide, by rw [expand, if_pos hlt]; rfl, by rw [hlt]; decide⟩
      by_cases hgt : c = '>'.toUInt8
      · exact ⟨bytes "gt;", by decide, by rw [expand, if_neg hlt, if_pos hgt]; rfl, by rw [hgt]; decide⟩
      have hamp : c = '&'.toUInt8 := by_contra fun hamp => hplain ⟨hlt, hgt, hamp⟩
      exact ⟨bytes "amp;", by decide, by rw [expand, if_neg hlt, if_neg hgt, if_pos hamp]; rfl, by rw [hamp]; decide⟩
    obtain ⟨e, he, hexpand, hlt, hgt, hamp⟩ := hentity
    rw [hexpand, List.cons_append, clean_entity he]
    exact (and_iff_right fun _ => ⟨hlt, hgt, fun h => absurd h hamp⟩).symm

/-! ## A string -/

/-- a character that is written as it is, and with which nothing else begins -/
def Literal (c : UInt8) : Prop :=
  expand true c = [c] ∧ c ≠ '&'.toUInt8 ∧ c ≠ 'M'.toUInt8 ∧ c ≠ '^'.toUInt8 ∧ c ≠ ' '.toUInt8

/-- what is written of a character begins with the character, or with one of three -/
theorem expand_head (d : UInt8) :
    ∃ c t, expand true d = c :: t ∧ (c = d ∨ c = '&'.toUInt8 ∨ c = 'M'.toUInt8 ∨ c = '^'.toUInt8) := by
  unfold expand expandCntl
  rw [if_pos rfl]
  dsimp only
  split_ifs
  · exact ⟨_, _, rfl, Or.inr (Or.inl rfl)⟩
  · exact ⟨_, _, rfl, Or.inr (Or.inl rfl)⟩
  · exact ⟨_, _, rfl, Or.inr (Or.inl rfl)⟩
  · exact ⟨_, _, rfl, Or.inl rfl⟩
  · exact ⟨_, _, rfl, Or.inr (Or.inr (Or.inr rfl))⟩
  · exact ⟨_, _, rfl, Or.inr (Or.inr (Or.inr rfl))⟩
  all_goals exact ⟨_, _, rfl, Or.inr (Or.inr (Or.inl rfl))⟩

/-- what is written begins with a literal text if and only if the string does -/
theorem literal_prefix {e : Bytes} (he : ∀ c ∈ e, Literal c) (s : Bytes) (n : ℕ) :
    e <+: (s.map (expand true)).flatten ++ spaces n ↔ e <+: s := by
  induction e generalizing s with
  | nil => exact iff_of_true (List.nil_prefix) (List.nil_prefix)
  | cons c e ih =>
    obtain ⟨⟨hself, hamp, hM, hcaret, hspace⟩, hrest⟩ := List.forall_mem_cons.1 he
    cases s with
    | nil =>
      refine iff_of_false (fun h => ?_) (by simp)
      have hmem : c ∈ spaces n := by simpa using h.subset List.mem_cons_self
      exact hspace (List.eq_of_mem_replicate hmem)
    | cons d s =>
      rw [List.map_cons, List.flatten_cons, List.append_assoc]
      by_cases hd : d = c
      · subst hd
        rw [hself, List.singleton_append, List.prefix_cons_inj, List.prefix_cons_inj]
        exact ih hrest s
      · obtain ⟨x, t, hexpand, hx⟩ := expand_head d
        rw [hexpand, List.cons_append, List.cons_prefix_cons, List.cons_prefix_cons]
        refine iff_of_false ?_ fun h => hd h.1.symm
        rintro ⟨rfl, -⟩
        exact hx.elim (fun h => hd h.symm) fun h => h.elim hamp fun h => h.elim hM hcaret

theorem named_iff (s : Bytes) (n : ℕ) : Named ((s.map (expand true)).flatten ++ spaces n) ↔ Named s := by
  have hliteral : ∀ e ∈ names, ∀ c ∈ e, Literal c := by
    unfold Literal
    decide
  unfold Named
  refine exists_congr fun e => and_congr_right fun he => ?_
  exact literal_prefix (hliteral e he) s n

theorem plain_spaces (n : ℕ) : ∀ c ∈ spaces n, Plain c := by
  intro c hc
  rw [List.eq_of_mem_replicate hc]
  decide

/-- **A string.** It brings markup if one of its bytes becomes markup without its high bit. -/
theorem clean_cells_iff (s : Bytes) (cntl : Bool) (n : ℕ) :
    Clean ((s.map (expand cntl)).flatten ++ spaces n) ↔ (cntl = true → Harmless s) := by
  induction s with
  | nil =>
    have hclean := (@clean_plain (spaces n) [] (plain_spaces n)).2 trivial
    rw [List.append_nil] at hclean
    exact iff_of_true hclean fun _ => trivial
  | cons c s ih =>
    rw [List.map_cons, List.flatten_cons, List.append_assoc, expand_clean, ih]
    cases cntl with
    | false => simp
    | true =>
      rw [named_iff]
      simp only [forall_const, Harmless, and_assoc]

/-! ## The field -/

/-- the length that `print_expand` works with: of the string, or the largest that is wanted -/
theorem taken_length {s : Bytes} {maxlen : ℤ} (hmax : -1 ≤ maxlen) (hint : s.length % 2 ^ 32 < 2 ^ 31) :
    (let len : ℤ := Int.bmod s.length (2 ^ 32)
     if maxlen ≠ -1 ∧ len > maxlen then maxlen else len) = rendered s maxlen := by
  have hbmod : Int.bmod s.length (2 ^ 32) = (s.length % 2 ^ 32 : ℕ) := by
    rw [Int.bmod_def]
    omega
  dsimp only
  rw [hbmod, rendered]
  split_ifs <;> omega

/-- **When the field is right.** The length of the string fits an `int` as it is taken, and if control characters are
expanded, no byte that is written becomes markup. -/
theorem print_expand_iff (s : Bytes) (left cntl : Bool) (minlen maxlen : ℤ) (hmin : 0 ≤ minlen) (hint : minlen < 2 ^ 31)
    (hmax : -1 ≤ maxlen) :
    PrintedRight s left cntl minlen maxlen ↔
      s.length % 2 ^ 32 < 2 ^ 31 ∧ (cntl = true → Harmless (s.take (rendered s maxlen))) := by
  unfold PrintedRight print_expand
  dsimp only
  by_cases hlen : s.length % 2 ^ 32 < 2 ^ 31
  · have htaken := taken_length hmax hlen
    dsimp only at htaken
    rw [htaken, and_iff_right hlen]
    have hle : rendered s maxlen ≤ s.length := by
      unfold rendered
      split_ifs <;> omega
    have hmaxlen : maxlen ≠ -1 → (rendered s maxlen : ℤ) ≤ maxlen := by
      intro h
      rw [rendered, if_neg h]
      omega
    set n := rendered s maxlen
    set pad : ℤ := if (n : ℤ) < minlen then minlen - n else 0 with hpad
    have hfit : ¬pad ≥ 2 ^ 31 := by
      rw [hpad]
      split_ifs <;> omega
    rw [if_neg hfit, Int.toNat_natCast]
    have hcells : ((s.take n).map (expand cntl)).length = n := by
      rw [List.length_map, List.length_take, min_eq_left hle]
    have hclean (a b : ℕ) : Clean (Printed.bytes ⟨a, (s.take n).map (expand cntl), b⟩) ↔
        (cntl = true → Harmless (s.take n)) := by
      rw [Printed.bytes, List.append_assoc, clean_plain (plain_spaces a)]
      exact clean_cells_iff (s.take n) cntl b
    have hwidth : pad.toNat + n = max minlen n := by
      rw [hpad]
      split_ifs <;> omega
    constructor
    · rintro ⟨f, hf, hmarkup, -, -⟩
      cases hf
      exact (hclean _ _).1 hmarkup
    · intro h
      refine ⟨_, rfl, (hclean _ _).2 h, ?_, ?_⟩
      · rw [hcells]
        exact hmaxlen
      · rw [Printed.width, hcells, ← hwidth]
        cases left <;> simp [add_comm]
  · refine iff_of_false ?_ fun h => hlen h.1
    have hneg : Int.bmod s.length (2 ^ 32) < 0 := by
      rw [Int.bmod_def]
      omega
    generalize Int.bmod s.length (2 ^ 32) = len at hneg ⊢
    have hsame : (if maxlen ≠ -1 ∧ len > maxlen then maxlen else len) = len := if_neg (by omega)
    rintro ⟨f, hf, -, -, hwidth⟩
    rw [hsame, if_pos (show len < minlen by omega), Int.toNat_of_nonpos hneg.le] at hf
    split_ifs at hf <;>
    · cases hf
      simp [Printed.width] at hwidth
      omega

/-- a name with an accent, control characters expanded -/
theorem accent_printed :
    ((0 : ℤ) ≤ 8 ∧ (8 : ℤ) < 2 ^ 31 ∧ (-1 : ℤ) ≤ 4) ∧ PrintedRight (bytes "Ren" ++ [0xe9]) true true 8 4 :=
  ⟨by decide, (print_expand_iff _ true true 8 4 (by decide) (by decide) (by decide)).2 ⟨by decide, by decide⟩⟩

/-- **A string of one byte that comes out as markup.** -/
theorem markup :
    print_expand [0xbc] true true 0 (-1) = some ⟨0, [bytes "M-<"], 0⟩ ∧ ¬PrintedRight [0xbc] true true 0 (-1) := by
  have hmarkup : print_expand [0xbc] true true 0 (-1) = some ⟨0, [bytes "M-<"], 0⟩ := by decide
  refine ⟨hmarkup, ?_⟩
  rintro ⟨f, hf, hclean, -⟩
  rw [hmarkup] at hf
  cases hf
  exact hclean.2.2.2.2.2.2.1 rfl

end MNetSoft.Ownu
