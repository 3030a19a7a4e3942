/-
The quoting of the arguments of a process in the answers of `robocop` (`strtoc` of `ps.c`). The stores into `dst` are
made one behind the other, so they are the text stored; a string ends where its list does, at the NUL.

`strtoc` leaves the escape out when it counts the space an escaped character takes, takes the space of the quotes and
the NUL from `outlen` before it looks whether there is as much, and does not escape backslashes.
- `Right`: what `dst` is to hold.
- `unescape_prefix_iff`: which prefixes of the source come back as prefixes of it.
- `strtoc_right_iff`: for which sources and sizes `dst` is right.
- `two_newlines`: a source for which too much is written.
-/
import Mathlib.Tactic
import MNetSoft.Core.CString

namespace MNetSoft.Robocop

open MNetSoft.CString

/-! ## Model -/

/-- the characters that are escaped -/
def special (ch : Char) : Bool := ch = '\n' ∨ ch = '\r' ∨ ch = '\x00' ∨ ch = '"'

/-- what stands behind the backslash for a character -/
def letter (ch : Char) : Char :=
  if ch = '\n' then 'n' else if ch = '\r' then 'r' else if ch = '\x00' then '0' else ch

/-- the loop, with what is left of `outlen` -/
def strtocLoop : Str → BitVec 64 → Str
  | [], _ => []
  | ch :: s, outlen =>
    if outlen > 0 then
      if special ch then
        if outlen < 2 then [] else '\x5c' :: letter ch :: strtocLoop s (outlen - 1)
      else ch :: strtocLoop s (outlen - 1)
    else []

/-- what is stored from `dst` on; `src` may be null -/
def strtoc (src : Option Str) (outlen : BitVec 64) : Str :=
  if outlen < 3 then []
  else
    match src with
    | none => ['\x00']
    | some s => '"' :: (strtocLoop s (outlen - 3 - 1) ++ ['"', '\x00'])

/-! ## What is to be stored -/

/-- the character an escape stands for -/
def unescapeChar (c : Char) : Option Char :=
  if c = 'n' then some '\n'
  else if c = 'r' then some '\r'
  else if c = '0' then some '\x00'
  else if c = '"' ∨ c = '\x5c' then some c
  else none

/-- the text between two quotes, if it is well formed -/
def unescape : Str → Option Str
  | [] => some []
  | [c] => if c = '\x5c' ∨ c = '"' then none else some [c]
  | c :: d :: s =>
    if c = '\x5c' then (unescapeChar d).bind fun x => (unescape s).map (x :: ·)
    else if c = '"' then none
    else (unescape (d :: s)).map (c :: ·)

/-- how a character is written -/
def escape (ch : Char) : Str := if special ch then ['\x5c', letter ch] else [ch]

/-- the source as it is written -/
def escaped (src : Str) : Str := src.flatMap escape

/-- `dst` fits its size, and is a quoted string, ended by a NUL, which stands for a prefix of the source, and for the
whole source if that fits -/
def Right (src : Str) (outlen : BitVec 64) (dst : Str) : Prop :=
  dst.length ≤ outlen.toNat ∧ ∃ body p, dst = '"' :: (body ++ ['"', '\x00']) ∧ unescape body = some p ∧ p <+: src ∧
    ((escaped src).length + 3 ≤ outlen.toNat → p = src)

theorem escaped_cons (ch : Char) (l : Str) : escaped (ch :: l) = escape ch ++ escaped l := List.flatMap_cons

theorem escaped_append (a l : Str) : escaped (a ++ l) = escaped a ++ escaped l := List.flatMap_append

/-! ## The loop -/

/-- the first characters of the source, for which there is room; the last one is left out if it is to be escaped -/
def copied (src : Str) (room : ℕ) : Str :=
  if src[room - 1]?.any special then src.take (room - 1) else src.take room

theorem copied_cons_succ (ch : Char) (src : Str) {room : ℕ} (h : 0 < room) :
    copied (ch :: src) (room + 1) = ch :: copied src room := by
  obtain ⟨r, rfl⟩ := Nat.exists_eq_add_one.2 h
  simp only [copied, Nat.add_sub_cancel, List.getElem?_cons_succ, List.take_succ_cons]
  split_ifs <;> rfl

theorem strtocLoop_eq (s : Str) (outlen : BitVec 64) : strtocLoop s outlen = escaped (copied s outlen.toNat) := by
  induction s generalizing outlen with
  | nil => simp [strtocLoop, copied, escaped]
  | cons ch s ih =>
    rw [strtocLoop, ih]
    by_cases h0 : outlen.toNat = 0
    · have hout : ¬ outlen > 0 := by simp [BitVec.lt_def, h0]
      rw [if_neg hout, h0]
      simp [copied, escaped]
    · have hout : outlen > 0 := by simp [BitVec.lt_def]; omega
      have hsub : (outlen - 1).toNat = outlen.toNat - 1 := by
        rw [BitVec.toNat_sub_of_le (by rw [BitVec.le_def]; simp; omega)]
        rfl
      have hlt : outlen < 2 ↔ outlen.toNat - 1 = 0 := by
        rw [BitVec.lt_def]
        simp
        omega
      rw [if_pos hout, hsub]
      obtain ⟨room, hroom⟩ : ∃ room, outlen.toNat = room + 1 := ⟨outlen.toNat - 1, by omega⟩
      simp only [hlt, hroom, Nat.add_sub_cancel]
      by_cases hr : room = 0
      · subst hr
        by_cases hs : special ch = true <;> simp [hs, copied, escaped, escape]
      · rw [copied_cons_succ ch s (by omega), if_neg hr, escaped_cons, escape]
        split_ifs <;> simp only [List.cons_append, List.nil_append]

theorem copied_isPrefix (s : Str) (room : ℕ) : copied s room <+: s := by
  unfold copied
  split_ifs
  · exact List.take_prefix _ _
  · exact List.take_prefix _ _

/-! ## What comes back -/

theorem unescape_cons {c : Char} (hb : c ≠ '\x5c') (hq : c ≠ '"') (s : Str) :
    unescape (c :: s) = (unescape s).map (c :: ·) := by
  cases s with
  | nil => simp [unescape, hb, hq]
  | cons d s => rw [unescape, if_neg hb, if_neg hq]

theorem unescape_quote (s : Str) : unescape ('"' :: s) = none := by
  cases s <;> rfl

theorem unescape_backslash (d : Char) (s : Str) :
    unescape ('\x5c' :: d :: s) = (unescapeChar d).bind fun x => (unescape s).map (x :: ·) := rfl

theorem letter_cases {ch : Char} (h : special ch = true) :
    ch = '"' ∧ letter ch = '"' ∨ letter ch ≠ ch ∧ letter ch ≠ '\x5c' ∧ letter ch ≠ '"' := by
  simp only [special, decide_eq_true_eq] at h
  rcases h with rfl | rfl | rfl | rfl <;> decide

theorem unescapeChar_letter {ch : Char} (h : special ch = true) : unescapeChar (letter ch) = some ch := by
  simp only [special, decide_eq_true_eq] at h
  rcases h with rfl | rfl | rfl | rfl <;> rfl

/-- every character but the backslash comes back -/
theorem unescape_escape {ch : Char} (h : ch ≠ '\x5c') (s : Str) :
    unescape (escape ch ++ s) = (unescape s).map (ch :: ·) := by
  by_cases hs : special ch = true
  · rw [escape, if_pos hs, List.cons_append, List.singleton_append, unescape_backslash, unescapeChar_letter hs,
      Option.bind_some]
  · have hq : ch ≠ '"' := by
      rintro rfl
      exact hs rfl
    rw [escape, if_neg hs, List.singleton_append, unescape_cons h hq]

theorem unescape_plain {l : Str} (h : '\x5c' ∉ l) (s : Str) :
    unescape (escaped l ++ s) = (unescape s).map (l ++ ·) := by
  induction l with
  | nil => simp [escaped]
  | cons ch l ih =>
    rw [List.mem_cons, not_or] at h
    obtain ⟨hch, hl⟩ := h
    rw [escaped_cons, List.append_assoc, unescape_escape (Ne.symm hch), ih hl, Option.map_map]
    rfl

/-- two backslashes come back as one -/
theorem unescape_replicate (j : ℕ) (s : Str) :
    unescape (List.replicate (2 * j) '\x5c' ++ s) = (unescape s).map (List.replicate j '\x5c' ++ ·) := by
  induction j with
  | zero => simp
  | succ j ih =>
    rw [Nat.mul_succ, List.replicate_succ, List.replicate_succ, List.cons_append, List.cons_append, unescape_backslash,
      ih, List.replicate_succ]
    simp [unescapeChar, Function.comp_def]

theorem escaped_replicate (m : ℕ) : escaped (List.replicate m '\x5c') = List.replicate m '\x5c' := by
  induction m with
  | zero => rfl
  | succ m ih =>
    rw [List.replicate_succ, escaped_cons, ih]
    rfl

theorem head_of_prefix_replicate {j m : ℕ} {b x : Char} {p u : Str} (h : j < m)
    (hp : List.replicate j b ++ x :: p <+: List.replicate m b ++ u) : x = b := by
  obtain ⟨k, rfl⟩ := Nat.exists_eq_add_of_lt h
  rw [add_assoc, List.replicate_add, List.append_assoc, List.prefix_append_right_inj, List.replicate_succ,
    List.cons_append, List.cons_prefix_cons] at hp
  exact hp.1

/-- of backslashes that begin a text nothing comes back but their half -/
theorem replicate_of_prefix_unescape {m : ℕ} (hm : 0 < m) {r rest p : Str} (hr : ∀ c ∈ r.head?, c ≠ '\x5c')
    (hp : unescape (List.replicate m '\x5c' ++ escaped r) = some p)
    (hpre : p <+: List.replicate m '\x5c' ++ (r ++ rest)) : r = [] ∧ ∃ j, m = 2 * j := by
  rcases Nat.even_or_odd' m with ⟨j, rfl | rfl⟩
  · refine ⟨?_, j, rfl⟩
    cases r with
    | nil => rfl
    | cons c r =>
      -- the character behind the backslashes comes back where there is a backslash
      have hc : c ≠ '\x5c' := hr c rfl
      rw [unescape_replicate, escaped_cons, unescape_escape hc, Option.map_map] at hp
      obtain ⟨p', -, rfl⟩ := Option.map_eq_some_iff.1 hp
      exact absurd (head_of_prefix_replicate (by omega) hpre) hc
  · rw [List.replicate_succ', List.append_assoc, unescape_replicate, List.singleton_append] at hp
    obtain ⟨p', hp', rfl⟩ := Option.map_eq_some_iff.1 hp
    cases r with
    | nil => cases hp'
    | cons c r =>
      have hc : c ≠ '\x5c' := hr c rfl
      rw [escaped_cons, escape] at hp'
      split_ifs at hp' with hs
      · -- the last backslash makes one of that in front of the letter
        rw [List.cons_append, unescape_backslash, List.singleton_append] at hp'
        obtain ⟨p'', hp'', rfl⟩ : ∃ p'', unescape (letter c :: escaped r) = some p'' ∧ '\x5c' :: p'' = p' := by
          simpa [unescapeChar] using hp'
        rcases letter_cases hs with ⟨-, hq⟩ | ⟨hne, hb, hq⟩
        · rw [hq, unescape_quote] at hp''
          cases hp''
        · rw [unescape_cons hb hq] at hp''
          obtain ⟨q, -, rfl⟩ := Option.map_eq_some_iff.1 hp''
          cases j with
          | zero =>
            have hpre' : '\x5c' :: letter c :: q <+: '\x5c' :: c :: (r ++ rest) := hpre
            rw [List.cons_prefix_cons, List.cons_prefix_cons] at hpre'
            exact absurd hpre'.2.1 hne
          | succ j =>
            have hpre' : List.replicate (j + 2) '\x5c' ++ letter c :: q <+:
                List.replicate (2 * (j + 1) + 1) '\x5c' ++ (c :: r ++ rest) := by
              rw [List.replicate_succ' (n := j + 1), List.append_assoc]
              exact hpre
            exact absurd (head_of_prefix_replicate (by omega) hpre') hb
      · rw [List.singleton_append, unescape_backslash] at hp'
        obtain ⟨x, hx, hp'⟩ := Option.bind_eq_some_iff.1 hp'
        obtain ⟨q, -, rfl⟩ := Option.map_eq_some_iff.1 hp'
        have hxb : x = '\x5c' := head_of_prefix_replicate (by omega) hpre
        subst hxb
        -- only a backslash stands for a backslash
        unfold unescapeChar at hx
        split_ifs at hx with h1 h2 h3 h4 <;> simp_all

theorem exists_replicate_append (b : Char) (t : Str) :
    ∃ m r, t = List.replicate m b ++ r ∧ ∀ c ∈ r.head?, c ≠ b := by
  induction t with
  | nil => exact ⟨0, [], rfl, by simp⟩
  | cons c t ih =>
    by_cases hc : c = b
    · obtain ⟨m, r, rfl, hr⟩ := ih
      exact ⟨m + 1, r, by rw [hc, List.replicate_succ, List.cons_append], hr⟩
    · exact ⟨0, c :: t, rfl, by simpa using hc⟩

/-- **What comes back.** The written prefix of a source is read as a prefix of the source if and only if it has no
backslashes but an even number of them at its end. -/
theorem unescape_prefix_iff {l rest p : Str} :
    (unescape (escaped l) = some p ∧ p <+: l ++ rest) ↔
      ∃ a j, '\x5c' ∉ a ∧ l = a ++ List.replicate (2 * j) '\x5c' ∧ p = a ++ List.replicate j '\x5c' := by
  constructor
  · intro ⟨hp, hpre⟩
    by_cases hl : '\x5c' ∈ l
    · obtain ⟨a, t, rfl, ha⟩ := List.eq_append_cons_of_mem hl
      obtain ⟨m, r, rfl, hr⟩ := exists_replicate_append '\x5c' t
      rw [← List.cons_append, ← List.replicate_succ] at hp hpre ⊢
      rw [escaped_append, unescape_plain ha, escaped_append, escaped_replicate] at hp
      obtain ⟨p', hp', rfl⟩ := Option.map_eq_some_iff.1 hp
      rw [List.append_assoc, List.prefix_append_right_inj, List.append_assoc] at hpre
      obtain ⟨rfl, j, hj⟩ := replicate_of_prefix_unescape (by omega) hr hp' hpre
      refine ⟨a, j, ha, by rw [List.append_nil, hj], ?_⟩
      rw [hj, unescape_replicate] at hp'
      simpa [escaped, unescape] using hp'.symm
    · have hback := unescape_plain hl []
      rw [List.append_nil, hp] at hback
      exact ⟨l, 0, hl, by simp, by simpa [unescape] using hback⟩
  · rintro ⟨a, j, ha, rfl, rfl⟩
    constructor
    · have hrep := unescape_replicate j []
      rw [List.append_nil] at hrep
      rw [escaped_append, unescape_plain ha, escaped_replicate, hrep]
      simp [unescape]
    · rw [two_mul, List.replicate_add, ← List.append_assoc, List.append_assoc (a ++ _)]
      exact List.prefix_append _ _

theorem length_escaped (l : Str) : (escaped l).length = l.length + l.countP special := by
  induction l with
  | nil => rfl
  | cons ch l ih =>
    rw [escaped_cons, List.length_append, ih, List.length_cons, List.countP_cons, escape]
    split_ifs <;> simp <;> omega

/-! ## The result -/

theorem strtoc_some (src : Str) {outlen : BitVec 64} (h : 3 ≤ outlen.toNat) :
    strtoc (some src) outlen = '"' :: (escaped (copied src (outlen - 4).toNat) ++ ['"', '\x00']) := by
  have hout : ¬ outlen < 3 := by
    rw [BitVec.lt_def]
    exact not_lt.2 h
  rw [strtoc, if_neg hout, strtocLoop_eq, show outlen - 3 - 1 = outlen - 4 by bv_omega]

/-- the whole source is written: it comes back if there is no backslash in it -/
theorem whole_right_iff {src : Str} {outlen : ℕ} (hfit : (escaped src).length + 3 ≤ outlen) :
    (∃ p, unescape (escaped src) = some p ∧ p <+: src ∧ ((escaped src).length + 3 ≤ outlen → p = src)) ↔
      '\x5c' ∉ src := by
  constructor
  · rintro ⟨p, hp, -, hall⟩
    obtain rfl := hall hfit
    obtain ⟨a, j, ha, hl, hp⟩ := unescape_prefix_iff.1 ⟨hp, List.prefix_append p []⟩
    have hj : a ++ List.replicate (2 * j) '\x5c' = a ++ List.replicate j '\x5c' := hl.symm.trans hp
    have hlen := congrArg List.length hj
    simp only [List.length_append, List.length_replicate] at hlen
    obtain rfl : j = 0 := by omega
    rw [hl]
    simpa using ha
  · intro h
    have hp : unescape (escaped src) = some src :=
      ((@unescape_prefix_iff src [] src).2 ⟨src, 0, h, by simp, by simp⟩).1
    exact ⟨src, hp, List.prefix_rfl, fun _ => rfl⟩

/-- a proper prefix `l` of the source is written -/
theorem part_right_iff {l rest : Str} (hrest : rest ≠ []) (outlen : ℕ) :
    (∃ p, unescape (escaped l) = some p ∧ p <+: l ++ rest ∧
        ((escaped (l ++ rest)).length + 3 ≤ outlen → p = l ++ rest)) ↔
      outlen < (escaped (l ++ rest)).length + 3 ∧ ∃ a j, '\x5c' ∉ a ∧ l = a ++ List.replicate (2 * j) '\x5c' := by
  constructor
  · rintro ⟨p, hp, hpre, hall⟩
    obtain ⟨a, j, ha, hl, hpe⟩ := unescape_prefix_iff.1 ⟨hp, hpre⟩
    refine ⟨?_, a, j, ha, hl⟩
    by_contra hfit
    have hlen := congrArg List.length (hall (by omega))
    have hpos := List.length_pos_iff.2 hrest
    rw [hpe, hl] at hlen
    simp only [List.length_append, List.length_replicate] at hlen
    omega
  · rintro ⟨hfit, a, j, ha, hl⟩
    obtain ⟨hp, hpre⟩ := (@unescape_prefix_iff l rest _).2 ⟨a, j, ha, hl, rfl⟩
    exact ⟨_, hp, hpre, fun h => absurd h (by omega)⟩

/-- **`strtoc`.** What is stored is right if and only if the copied prefix `l` fits when it is escaped and quoted, and
either it is the whole source, without backslashes, or the source does not fit, and no backslashes are in the prefix but
an even number of them at its end. -/
theorem strtoc_right_iff (src : Str) (outlen : BitVec 64) (h : 3 ≤ outlen.toNat) :
    Right src outlen (strtoc (some src) outlen) ↔
      let l := copied src (outlen - 4).toNat
      l.length + l.countP special + 3 ≤ outlen.toNat ∧
        (l = src ∧ '\x5c' ∉ src ∨
          l ≠ src ∧ outlen.toNat < src.length + src.countP special + 3 ∧
            ∃ a j, '\x5c' ∉ a ∧ l = a ++ List.replicate (2 * j) '\x5c') := by
  obtain ⟨rest, hsrc⟩ := copied_isPrefix src (outlen - 4).toNat
  rw [strtoc_some src h, Right]
  dsimp only
  generalize copied src (outlen - 4).toNat = l at hsrc
  have hlen : ('"' :: (escaped l ++ ['"', '\x00'])).length = l.length + l.countP special + 3 := by
    rw [List.length_cons, List.length_append, length_escaped]
    rfl
  have hbody : ∀ body, '"' :: (escaped l ++ ['"', '\x00']) = '"' :: (body ++ ['"', '\x00']) ↔ body = escaped l := by
    intro body
    rw [List.cons.injEq, List.append_cancel_right_eq]
    simp [eq_comm]
  rw [hlen, ← length_escaped src]
  refine and_congr_right fun hfit => ?_
  simp only [hbody]
  by_cases hl : l = src
  · subst hl
    rw [← length_escaped] at hfit
    have hw := whole_right_iff hfit
    simpa using hw
  · subst hsrc
    have hrest : rest ≠ [] := by
      rintro rfl
      exact hl (List.append_nil l).symm
    have hp := part_right_iff (l := l) hrest outlen.toNat
    simpa [hl] using hp

/-- a name fits the size that `yamllst` gives -/
theorem strtoc_man : Right ['m', 'a', 'n'] 257 (strtoc (some ['m', 'a', 'n']) 257) :=
  (strtoc_right_iff ['m', 'a', 'n'] 257 (by decide)).2 ⟨by decide, Or.inl ⟨by decide, by decide⟩⟩

/-- nine bytes are stored where there is space for eight -/
theorem two_newlines :
    strtoc (some ['\n', '\n', 'c', 'd']) 8 = ['"', '\x5c', 'n', '\x5c', 'n', 'c', 'd', '"', '\x00'] ∧
      ¬ Right ['\n', '\n', 'c', 'd'] 8 (strtoc (some ['\n', '\n', 'c', 'd']) 8) := by
  have hstored : strtoc (some ['\n', '\n', 'c', 'd']) 8 =
      ['"', '\x5c', 'n', '\x5c', 'n', 'c', 'd', '"', '\x00'] := by decide
  refine ⟨hstored, ?_⟩
  rw [Right, hstored]
  intro ⟨hlen, _⟩
  exact absurd hlen (by decide)

end MNetSoft.Robocop
