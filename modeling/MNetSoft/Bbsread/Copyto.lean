/-
The header fields of an item in `bbsread` (`copyto` of `readitem.c`): what is stored into the title, the name and the
login, and what is read of the line. `copyto` stops at the newline or when it has copied `n` characters, not `n - 1`,
and not at the NUL.

- `copytoStores`: the loop on the cells of a string; a read behind them is undefined (`none`).
- `header_dispLine`: the calls listed are those that fill the fields.
- `copytoStores_cstr`: whatever stands behind the string, the field is what the model of `dispitem` has for it.
- `copyto_right_iff`: one call is right exactly if the newline is one of the first `n` characters.
- `copytos_right_iff`: all calls of `dispitem` on an item file.
- `long_login`: a login of nine characters.
-/
import Mathlib.Tactic
import MNetSoft.Bbsread.Item

namespace MNetSoft.Bbsread

open MNetSoft.CString

/-! ## Model -/

/-- the cells stored from `a` on -/
def copytoStores (ch : Char) : Str → ℕ → Option Str
  | [], _ => none
  | x :: b, n =>
    if x ≠ ch ∧ n > 0 then (copytoStores ch b (n - 1)).map (x :: ·) else some ['\x00']

/-- the calls that `dispitem` makes for a string of the file: the source and the size -/
def copytoCalls (buf : Str) (d : Disp) : List (Str × ℕ) :=
  match buf with
  | ',' :: k :: rest =>
    if d.printing then
      if k = 'H' ∨ k = 'A' then [(rest, BFSZ)]
      else if k = 'U' then
        match rest.dropWhile (· ≠ ',') with
        | [] => []
        | _ :: a => [(a, 9)]
      else []
    else []
  | _ => []

/-- something holds for each string that the loop of `dispitem` comes to -/
def LoopAlong (c : Call) (P : Str → Disp → Prop) : List Str → Disp → Prop
  | [], _ => True
  | buf :: l, d => P buf d ∧ ∀ d', dispLine c buf d = .more d' → LoopAlong c P l d'

/-- the same from the first string on, which must be the magic one -/
def Along (c : Call) (P : Str → Disp → Prop) : List Str → Prop
  | [] => True
  | buf :: l => buf = ['!', '<', 'p', 's', '0', '2', '>', '\n'] → LoopAlong c P l .init

/-! ## What is asked -/

/-- nothing behind the NUL of `b` is read, at most `n` cells are stored, and they hold the longest prefix of `b` of at
most `n - 1` characters without `ch` -/
def CopyRight (b : Str) (ch : Char) (n : ℕ) : Prop :=
  ∃ stored, copytoStores ch (b ++ ['\x00']) n = some stored ∧ stored.length ≤ n ∧
    cstr stored = (b.takeWhile (· ≠ ch)).take (n - 1)

/-- the newline comes in time: after a title or an alias, and within 9 characters for a login -/
def InTime (buf : Str) : Prop :=
  match buf with
  | ',' :: k :: rest =>
    if k = 'H' ∨ k = 'A' then '\n' ∈ rest.take BFSZ
    else if k = 'U' then
      match rest.dropWhile (· ≠ ',') with
      | [] => True
      | _ :: a => '\n' ∈ a.take 9
    else True
  | _ => True

/-! ## One call -/

variable {ch : Char} {b : Str}

theorem copytoStores_succ {x : Char} (hx : x ≠ ch) (b : Str) (n : ℕ) :
    copytoStores ch (x :: b) (n + 1) = (copytoStores ch b n).map (x :: ·) := by
  rw [copytoStores, if_pos ⟨hx, n.succ_pos⟩, Nat.add_sub_cancel]

theorem takeWhile_take_of_not_mem {n : ℕ} (h : ch ∉ b.take n) : (b.takeWhile (· ≠ ch)).take n = b.take n := by
  rw [List.take_takeWhile, List.takeWhile_eq_self_iff]
  intro x hx
  simpa using fun e : x = ch => h (e ▸ hx)

/-- the loop that finds `ch` in time -/
theorem copytoStores_of_mem {n : ℕ} (h : ch ∈ b.take n) (rest : Str) :
    copytoStores ch (b ++ rest) n = some (b.takeWhile (· ≠ ch) ++ ['\x00']) ∧
      (b.takeWhile (· ≠ ch)).length < n := by
  induction b generalizing n with
  | nil => simp at h
  | cons x b ih =>
    obtain _ | n := n
    · simp at h
    · rw [List.cons_append]
      by_cases hx : x = ch
      · simp [copytoStores, hx]
      · rw [List.take_succ_cons, List.mem_cons] at h
        obtain ⟨hrun, hlen⟩ := ih (h.resolve_left (Ne.symm hx))
        rw [copytoStores_succ hx, List.takeWhile_cons_of_pos (by simpa using hx), hrun, List.length_cons]
        exact ⟨rfl, by omega⟩

/-- the loop that does not, and has enough to copy -/
theorem copytoStores_full {n : ℕ} (h : ch ∉ b.take n) (hn : n ≤ b.length) (rest : Str) :
    copytoStores ch (b ++ '\x00' :: rest) n = some (b.take n ++ ['\x00']) := by
  induction b generalizing n with
  | nil =>
    obtain rfl : n = 0 := by simpa using hn
    simp [copytoStores]
  | cons x b ih =>
    rw [List.cons_append]
    obtain _ | n := n
    · simp [copytoStores]
    · rw [List.take_succ_cons, List.mem_cons, not_or] at h
      rw [copytoStores_succ (Ne.symm h.1), List.take_succ_cons, ih h.2 (by simpa using hn)]
      rfl

/-- the loop that has not copies the NUL and goes on behind it -/
theorem copytoStores_beyond {n : ℕ} (h : ch ∉ b) (hch : ch ≠ '\x00') (rest : Str) :
    copytoStores ch (b ++ '\x00' :: rest) (b.length + 1 + n) =
      (copytoStores ch rest n).map fun s => b ++ '\x00' :: s := by
  induction b with
  | nil =>
    rw [List.nil_append, List.length_nil, zero_add, add_comm 1 n, copytoStores_succ (Ne.symm hch)]
    rfl
  | cons x b ih =>
    rw [List.mem_cons, not_or] at h
    have e : (x :: b).length + 1 + n = (b.length + 1 + n) + 1 := by rw [List.length_cons]; omega
    rw [e, List.cons_append, copytoStores_succ (Ne.symm h.1), ih h.2, Option.map_map]
    rfl

/-- **One call.** It is right if and only if `ch` is one of the first `n` characters. -/
theorem copyto_right_iff (hch : ch ≠ '\x00') (hb : '\x00' ∉ b) (n : ℕ) : CopyRight b ch n ↔ ch ∈ b.take n := by
  constructor
  · rintro ⟨stored, hrun, hlen, -⟩
    by_contra h
    rcases le_or_gt n b.length with hn | hn
    · -- one cell too many is stored
      rw [copytoStores_full h hn] at hrun
      obtain rfl := Option.some.inj hrun
      simp [hn] at hlen
    · -- the cell behind the NUL is read
      obtain ⟨m, rfl⟩ := Nat.exists_eq_add_of_lt hn
      rw [List.take_of_length_le (by omega)] at h
      rw [show b.length + m + 1 = b.length + 1 + m by omega, copytoStores_beyond h hch] at hrun
      cases hrun
  · intro h
    obtain ⟨hrun, hlen⟩ := copytoStores_of_mem h ['\x00']
    refine ⟨_, hrun, by simpa using hlen, ?_⟩
    have hnul : '\x00' ∉ b.takeWhile (· ≠ ch) := fun hm => hb ((List.takeWhile_sublist _).subset hm)
    rw [cstr_append_nul hnul, List.take_of_length_le (by omega)]

/-- what the field holds as a string, whatever stands behind the source -/
theorem copytoStores_cstr (hch : ch ≠ '\x00') (hb : '\x00' ∉ b) {n : ℕ} {rest stored : Str}
    (h : copytoStores ch (b ++ '\x00' :: rest) n = some stored) : cstr stored = copyto b ch n := by
  have hcut : ∀ {l : Str}, (∀ x ∈ l, x ∈ b) → '\x00' ∉ l := fun hl hm => hb (hl _ hm)
  rw [copyto]
  by_cases hmem : ch ∈ b.take n
  · obtain ⟨hrun, hlen⟩ := copytoStores_of_mem hmem ('\x00' :: rest)
    rw [hrun] at h
    obtain rfl := Option.some.inj h
    rw [cstr_append_nul (hcut fun x hx => (List.takeWhile_sublist _).subset hx), List.take_of_length_le (by omega)]
  · rcases le_or_gt n b.length with hn | hn
    · rw [copytoStores_full hmem hn] at h
      obtain rfl := Option.some.inj h
      rw [cstr_append_nul (hcut fun x hx => List.mem_of_mem_take hx), takeWhile_take_of_not_mem hmem]
    · obtain ⟨m, rfl⟩ := Nat.exists_eq_add_of_lt hn
      rw [List.take_of_length_le (by omega)] at hmem
      rw [show b.length + m + 1 = b.length + 1 + m by omega, copytoStores_beyond hmem hch] at h
      obtain ⟨s, -, rfl⟩ := Option.map_eq_some_iff.1 h
      have htake := takeWhile_take_of_not_mem (b := b) (n := b.length + m + 1)
        (by rwa [List.take_of_length_le (by omega)])
      rw [cstr_append_nul hb, htake, List.take_of_length_le (by omega)]

/-! ## All calls -/

/-- the fields of the header -/
def Disp.header (d : Disp) : List Str := [d.title, d.fullname, d.login]

theorem header_endResp (c : Call) (d : Disp) : ∀ s ∈ (endResp c d).header, s ∈ d.header ∨ s = [] := by
  by_cases hu : d.uid = -1 <;> simp [endResp, Disp.header, hu]

theorem header_putText (s : Str) (d : Disp) : (putText s d).header = d.header := by
  unfold putText
  split_ifs <;> rfl

theorem header_dateLine {c : Call} {rest : Str} {d d' : Disp} (h : dateLine c rest d = .more d') :
    d'.header = d.header := by
  unfold dateLine at h
  dsimp only at h
  split_ifs at h <;> cases h <;> rfl

/-- the fields change by `endResp` and the calls of `copyto` only -/
theorem header_dispLine {c : Call} {buf : Str} {d d' : Disp} (h : dispLine c buf d = .more d') :
    ∀ s ∈ d'.header, s ∈ d.header ∨ s = [] ∨ ∃ call ∈ copytoCalls buf d, s = copyto call.1 '\n' call.2 := by
  have hsame : d'.header = d.header → ∀ s ∈ d'.header, s ∈ d.header ∨ s = [] ∨
      ∃ call ∈ copytoCalls buf d, s = copyto call.1 '\n' call.2 := fun e s hs => Or.inl (e ▸ hs)
  have hended : d' = endResp c d → ∀ s ∈ d'.header, s ∈ d.header ∨ s = [] ∨
      ∃ call ∈ copytoCalls buf d, s = copyto call.1 '\n' call.2 :=
    fun e s hs => (header_endResp c d s (e ▸ hs)).imp_right Or.inl
  unfold dispLine at h
  split at h
  · rename_i k rest
    dsimp only at h
    split_ifs at h with hH hp hA hp hU hp hD hp hT hR he hE hcolon hcomma
    · cases h
      simp [Disp.header, copytoCalls, hp, hH]
    · cases h
      exact hsame rfl
    · cases h
      simp [Disp.header, copytoCalls, hp, hA]
    · cases h
      exact hsame rfl
    · rcases hdrop : rest.dropWhile (· ≠ ',') with _ | ⟨x, a⟩
      · rw [hdrop] at h
        cases h
      · rw [hdrop] at h
        cases h
        simp only [ne_eq, decide_not] at hdrop
        simp [Disp.header, copytoCalls, hp, hU, hdrop]
    · cases h
      exact hsame rfl
    · exact hsame (header_dateLine h)
    · cases h
      exact hsame rfl
    · cases h
      exact hsame rfl
    · cases h
      exact hsame rfl
    · cases h
      exact fun s hs => (header_endResp c _ s hs).imp_right Or.inl
    · cases h
      exact hended rfl
    · cases h
      exact hsame (header_putText _ _)
    · cases h
      exact hsame (header_putText _ _)
  · cases h
  · cases h
    exact hsame (header_putText _ _)

/-- what is behind characters of a string has no NUL either -/
theorem nul_not_mem_of_suffix {a buf : Str} (h : '\x00' ∉ buf) (ha : a <:+ buf) : '\x00' ∉ a :=
  fun hm => h (ha.subset hm)

theorem copytoCalls_right_iff {buf : Str} (hbuf : '\x00' ∉ buf) (d : Disp) :
    (∀ call ∈ copytoCalls buf d, CopyRight call.1 '\n' call.2) ↔ (d.printing = true → InTime buf) := by
  have hnl : '\n' ≠ '\x00' := by decide
  unfold copytoCalls InTime
  split
  · rename_i k rest
    have hrest : '\x00' ∉ rest := nul_not_mem_of_suffix hbuf ((List.suffix_cons k rest).trans (List.suffix_cons ',' _))
    by_cases hprint : d.printing = true
    · rw [if_pos hprint]
      simp only [hprint, forall_const]
      by_cases hHA : k = 'H' ∨ k = 'A'
      · rw [if_pos hHA, if_pos hHA, List.forall_mem_singleton]
        exact copyto_right_iff hnl hrest BFSZ
      · rw [if_neg hHA, if_neg hHA]
        by_cases hU : k = 'U'
        · rw [if_pos hU, if_pos hU]
          rcases hdrop : rest.dropWhile (· ≠ ',') with _ | ⟨x, a⟩
          · simp
          · have ha : '\x00' ∉ a :=
              nul_not_mem_of_suffix hrest ((List.suffix_cons x a).trans (hdrop ▸ List.dropWhile_suffix _))
            rw [List.forall_mem_singleton]
            exact copyto_right_iff hnl ha 9
        · simp [hU]
    · simp [hprint]
  · simp

theorem loopAlong_congr {c : Call} {P Q : Str → Disp → Prop} {l : List Str} (h : ∀ buf ∈ l, ∀ d, P buf d ↔ Q buf d)
    (d : Disp) : LoopAlong c P l d ↔ LoopAlong c Q l d := by
  induction l generalizing d with
  | nil => exact Iff.rfl
  | cons buf l ih =>
    obtain ⟨hbuf, hl⟩ := List.forall_mem_cons.1 h
    exact and_congr (hbuf d) (forall₂_congr fun d' _ => ih hl d')

theorem along_congr {c : Call} {P Q : Str → Disp → Prop} {l : List Str} (h : ∀ buf ∈ l, ∀ d, P buf d ↔ Q buf d) :
    Along c P l ↔ Along c Q l := by
  cases l with
  | nil => exact Iff.rfl
  | cons buf l => exact imp_congr_right fun _ => loopAlong_congr (List.forall_mem_cons.1 h).2 .init

/-- **The header fields.** For every item file, the calls that `dispitem` makes are all right if and only if, in each
title, alias and user line that it reads while it prints, the newline comes in time. -/
theorem copytos_right_iff (c : Call) (file : Str) :
    Along c (fun buf d => ∀ call ∈ copytoCalls buf d, CopyRight call.1 '\n' call.2) ((fgetsAll BFSZ file).map cstr) ↔
      Along c (fun buf d => d.printing = true → InTime buf) ((fgetsAll BFSZ file).map cstr) := by
  refine along_congr fun buf hbuf d => copytoCalls_right_iff ?_ d
  obtain ⟨l, -, rfl⟩ := List.mem_map.1 hbuf
  exact nul_not_mem_cstr l

/-- an item whose author has a login of nine characters, without the newlines -/
def longLogin : List Str :=
  [['!', '<', 'p', 's', '0', '2', '>'], [',', 'H', 'H', 'i'], [',', 'R', '0', '0', '0', '0'],
    [',', 'U', '7', ',', 'm', 'e', 'l', 'i', 's', 's', 'a', 'n', 'e']]

theorem fgetsAll_longLogin :
    (fgetsAll BFSZ (unlines longLogin)).map cstr =
      [['!', '<', 'p', 's', '0', '2', '>', '\n'], [',', 'H', 'H', 'i', '\n'], [',', 'R', '0', '0', '0', '0', '\n'],
        [',', 'U', '7', ',', 'm', 'e', 'l', 'i', 's', 's', 'a', 'n', 'e', '\n']] := by
  rw [fgetsAll_lines longLogin (by decide)]
  decide

/-- the tenth byte of the login is stored behind its array -/
theorem long_login :
    ¬ Along ⟨1, 0, -1, 0, 1, false⟩ (fun buf d => ∀ call ∈ copytoCalls buf d, CopyRight call.1 '\n' call.2)
      ((fgetsAll BFSZ (unlines longLogin)).map cstr) := by
  rw [fgetsAll_longLogin]
  intro h
  have huser := (((h rfl).2 _ rfl).2 _ rfl).1 (['m', 'e', 'l', 'i', 's', 's', 'a', 'n', 'e', '\n'], 9) (by decide)
  exact absurd ((copyto_right_iff (by decide) (by decide) 9).1 huser) (by decide)

end MNetSoft.Bbsread
