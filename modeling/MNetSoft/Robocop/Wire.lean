/-
How robocop sends strings over a connection (`nprint.c`): `<length>:<string>,\r\n`. A byte is a character. `write` may
take any positive number of the bytes it is given, as a plan of the next calls has it, or fail; `read` gives at most the
bytes asked for, from the next piece of the stream; an empty piece, or the end of the stream, is an end of file or an
error.

- `nread_fits`: whatever the stream, `nread` stores nothing outside its two buffers.
- `nread_message`: a message that was sent is read, in whatever pieces it arrives.
- `wire_correct`: so is a sequence of messages, in whatever pieces they were written.
-/
import Mathlib.Tactic
import MNetSoft.Core.CString
import MNetSoft.Core.Numerals

namespace MNetSoft.Robocop

open MNetSoft.CString MNetSoft.Numerals

/-! ## Model -/

/-! ### Writing -/

/-- a connection to write to -/
structure Sink where
  /-- the bytes written -/
  out : Str
  /-- what the next calls of `write` do: fail, or take one byte and that many more; later calls take everything -/
  plan : List (Option ℕ)

/-- the number of bytes taken, `none` for an error -/
def write (b : Str) (k : Sink) : Option ℕ × Sink :=
  match k.plan with
  | [] => (some b.length, ⟨k.out ++ b, []⟩)
  | none :: p => (none, ⟨k.out, p⟩)
  | some w :: p => (some (min (w + 1) b.length), ⟨k.out ++ b.take (w + 1), p⟩)

theorem write_pos {b : Str} (hb : b ≠ []) {k k' : Sink} {w : ℕ} (h : write b k = (some w, k')) : 0 < w := by
  have hlen : 0 < b.length := List.length_pos_iff.2 hb
  unfold write at h
  split at h
  · cases h
    exact hlen
  · cases h
  · cases h
    omega

/-- `write` until everything is written -/
def nwriteLoop (b : Str) (k : Sink) : ℤ × Sink :=
  if _hb : b = [] then (0, k)
  else
    match hw : write b k with
    | (none, k') => (-1, k')
    | (some w, k') => nwriteLoop (b.drop w) k'
termination_by b.length
decreasing_by
  have hlen : 0 < b.length := List.length_pos_iff.2 _hb
  have hpos := write_pos _hb hw
  rw [List.length_drop]
  omega

/-- the length goes through an int -/
def nwrite (buf : Str) (k : Sink) : ℤ × Sink := nwriteLoop (buf.take (toInt buf.length).toNat) k

/-- go on with `f` unless the call before returned a negative number -/
def orFail (r : ℤ × Sink) (f : Sink → ℤ × Sink) : ℤ × Sink := if r.1 < 0 then (-1, r.2) else f r.2

def nswrite (buf : Str) (k : Sink) : ℤ × Sink :=
  orFail (nwrite (printInt buf.length ++ [':']) k) fun k =>
    orFail (nwrite buf k) fun k =>
      orFail (nwrite [',', '\r', '\n'] k) fun k => (0, k)

/-! ### Reading -/

/-- the pieces in which the bytes arrive -/
abbrev Stream := List Str

/-- at most `n` bytes; none at all for an end of file or an error -/
def read (n : ℕ) : Stream → Str × Stream
  | [] => ([], [])
  | c :: s => if c.length ≤ n then (c, s) else (c.take n, c.drop n :: s)

/-- store bytes in a buffer from index `i` on; `none` if they do not fit -/
def store (buf : Str) (i : ℕ) (b : Str) : Option Str :=
  if i + b.length ≤ buf.length then some (buf.take i ++ b ++ buf.drop (i + b.length)) else none

/-- `none` for a store outside a buffer; else the result, `none` for -1, and the rest of the stream -/
abbrev Result (α : Type) := Option (Option α × Stream)

def fail {α : Type} (s : Stream) : Result α := some (none, s)

/-- go on with `f`, unless the result is -1 -/
def andThen {α β : Type} (r : Result α) (f : α → Stream → Result β) : Result β :=
  match r with
  | none => none
  | some (none, s) => fail s
  | some (some a, s) => f a s

/-- store bytes and go on with `f` -/
def storing {β : Type} (buf : Str) (i : ℕ) (b : Str) (f : Str → Result β) : Result β := (store buf i b).bind f

/-- read `k` bytes at most, up to a colon, into `rbuf` from index `n` on; the index of the last one too -/
def lengthLoop : ℕ → Str → ℕ → Stream → Result (Str × ℕ)
  | 0, rbuf, n, s => some (some (rbuf, n), s)
  | k + 1, rbuf, n, s =>
    match read 1 s with
    | ([c], s) =>
      storing rbuf n [c] fun rbuf => if c = ':' then some (some (rbuf, n), s) else lengthLoop k rbuf (n + 1) s
    | (_, s) => fail s

/-- read the length of a string -/
def readLength (s : Stream) : Result ℤ :=
  andThen (lengthLoop 63 (List.replicate 64 '\x00') 0 s) fun p s =>
    if p.1[p.2]? ≠ some ':' then fail s
    else
      storing p.1 p.2 ['\x00'] fun rbuf =>
        if (strtol (cstr rbuf)).2 ≠ [] then fail s else some (some (toInt (strtol (cstr rbuf)).1), s)

theorem length_read_le (n : ℕ) (s : Stream) : (read n s).1.length ≤ n := by
  cases s with
  | nil => simp [read]
  | cons c s =>
    rw [read]
    split_ifs with h
    · exact h
    · simp

/-- read `n` bytes into `buf` from index `i` on; the index after the last one too -/
def payloadLoop (buf : Str) (i n : ℕ) (s : Stream) : Result (Str × ℕ) :=
  if n = 0 then some (some (buf, i), s)
  else
    match (read n s).1 with
    | [] => fail (read n s).2
    | c :: r =>
      storing buf i (c :: r) fun buf =>
        payloadLoop buf (i + (c :: r).length) (n - (c :: r).length) (read n s).2
termination_by n

/-- the comma, and the newline with or without a return before it -/
def readEnd (buf : Str) (s : Stream) : Result Str :=
  match read 1 s with
  | ([','], s) =>
    match read 1 s with
    | ([c], s) =>
      -- any character is taken for the return, and any character after it
      if c = '\n' then some (some buf, s)
      else
        match read 1 s with
        | ([_], s) => some (some buf, s)
        | (_, s) => fail s
    | (_, s) => fail s
  | (_, s) => fail s

/-- read a string into a buffer, which is cleared first -/
def nread (buf : Str) (s : Stream) : Result Str :=
  andThen (readLength s) fun n s =>
    if n < 0 ∨ buf.length ≤ n then fail s
    else
      andThen (payloadLoop (List.replicate buf.length '\x00') 0 n.toNat s) fun p s =>
        storing p.1 p.2 ['\x00'] fun buf => readEnd buf s

/-! ## Writing -/

theorem write_spec {b : Str} {k : Sink} (hk : none ∉ k.plan) :
    ∃ w p, write b k = (some w, ⟨k.out ++ b.take w, p⟩) ∧ none ∉ p := by
  unfold write
  split
  · exact ⟨b.length, [], by rw [List.take_length], by simp⟩
  · simp_all
  · next w p hp =>
    refine ⟨min (w + 1) b.length, p, ?_, fun h => hk (by rw [hp]; exact List.mem_cons_of_mem _ h)⟩
    have htake : b.take (min (w + 1) b.length) = b.take (w + 1) := by
      rw [← List.take_take, List.take_length]
    rw [htake]

theorem nwriteLoop_spec (b : Str) (k : Sink) (hk : none ∉ k.plan) :
    ∃ p, nwriteLoop b k = (0, ⟨k.out ++ b, p⟩) ∧ none ∉ p := by
  induction hn : b.length using Nat.strong_induction_on generalizing b k with
  | _ n ih =>
    by_cases hb : b = []
    · rw [nwriteLoop, dif_pos hb]
      exact ⟨k.plan, by rw [hb, List.append_nil], hk⟩
    · obtain ⟨w, p, hw, hp⟩ := write_spec (b := b) hk
      have hpos := write_pos hb hw
      have hlen : 0 < b.length := List.length_pos_iff.2 hb
      obtain ⟨p', hloop, hp'⟩ := ih (b.drop w).length (by rw [List.length_drop]; omega) (b.drop w)
        ⟨k.out ++ b.take w, p⟩ hp rfl
      refine ⟨p', ?_, hp'⟩
      rw [nwriteLoop, dif_neg hb]
      split
      · next h => rw [hw] at h; cases h
      · next w' k' h =>
        rw [hw] at h
        cases h
        rw [hloop, List.append_assoc, List.take_append_drop]

theorem nwrite_spec {b : Str} (hb : b.length < 2 ^ 31) {k : Sink} (hk : none ∉ k.plan) :
    ∃ p, nwrite b k = (0, ⟨k.out ++ b, p⟩) ∧ none ∉ p := by
  have hlen : (toInt b.length).toNat = b.length := by
    rw [toInt_of_range (by omega) (by norm_num at hb ⊢; omega)]
    rfl
  rw [nwrite, hlen, List.take_length]
  exact nwriteLoop_spec b k hk

/-- a string as it is sent -/
def frame (m : Str) : Str := printInt m.length ++ [':'] ++ m ++ [',', '\r', '\n']

theorem nswrite_spec {m : Str} (hm : m.length < 2 ^ 31) {k : Sink} (hk : none ∉ k.plan) :
    ∃ p, nswrite m k = (0, ⟨k.out ++ frame m, p⟩) ∧ none ∉ p := by
  have hdigits : (printInt m.length ++ [':']).length < 2 ^ 31 := by
    have := length_printInt_le (n := m.length) (by omega) (by norm_num at hm ⊢; omega)
    rw [List.length_append, List.length_singleton]
    norm_num
    omega
  obtain ⟨p₁, h₁, hp₁⟩ := nwrite_spec hdigits hk
  obtain ⟨p₂, h₂, hp₂⟩ := nwrite_spec hm (k := ⟨k.out ++ (printInt m.length ++ [':']), p₁⟩) hp₁
  obtain ⟨p₃, h₃, hp₃⟩ := nwrite_spec (b := [',', '\r', '\n']) (by norm_num)
    (k := ⟨k.out ++ (printInt m.length ++ [':']) ++ m, p₂⟩) hp₂
  refine ⟨p₃, ?_, hp₃⟩
  have hframe : frame m = printInt m.length ++ [':'] ++ (m ++ [',', '\r', '\n']) := by simp [frame]
  have horFail : ∀ (k : Sink) (f : Sink → ℤ × Sink), orFail (0, k) f = f k := fun _ _ => rfl
  rw [nswrite, h₁, horFail, h₂, horFail, h₃, horFail, hframe]
  simp only [List.append_assoc]

/-! ## Nothing is stored outside the buffers -/

theorem length_store {buf buf' b : Str} {i : ℕ} (h : store buf i b = some buf') : buf'.length = buf.length := by
  unfold store at h
  split_ifs at h with hle
  cases h
  simp
  omega

/-- no fault, and what is returned satisfies `P` -/
def Fits {α : Type} (r : Result α) (P : α → Prop) : Prop := ∃ o s, r = some (o, s) ∧ ∀ a ∈ o, P a

section Fits

variable {α β : Type} {P : α → Prop} {Q : β → Prop}

theorem fits_fail (s : Stream) : Fits (fail s) P := ⟨none, s, rfl, by simp⟩

theorem fits_some {a : α} (h : P a) (s : Stream) : Fits (some (some a, s)) P := ⟨some a, s, rfl, by simpa using h⟩

theorem Fits.andThen {r : Result α} {f : α → Stream → Result β} (h : Fits r P) (hf : ∀ a s, P a → Fits (f a s) Q) :
    Fits (andThen r f) Q := by
  obtain ⟨o, s, rfl, ho⟩ := h
  cases o with
  | none => exact fits_fail s
  | some a => exact hf a s (ho a rfl)

theorem fits_storing {buf b : Str} {i : ℕ} {f : Str → Result β} (h : i + b.length ≤ buf.length)
    (hf : ∀ buf' : Str, buf'.length = buf.length → Fits (f buf') Q) : Fits (storing buf i b f) Q := by
  have hstore : store buf i b = some (buf.take i ++ b ++ buf.drop (i + b.length)) := if_pos h
  rw [storing, hstore]
  exact hf _ (length_store hstore)

end Fits

theorem lengthLoop_fits (k : ℕ) (rbuf : Str) (n : ℕ) (s : Stream) (h : n + k ≤ rbuf.length) :
    Fits (lengthLoop k rbuf n s) fun p => p.1.length = rbuf.length ∧ p.2 ≤ n + k := by
  induction k generalizing rbuf n s with
  | zero => exact fits_some ⟨rfl, le_refl _⟩ s
  | succ k ih =>
    rw [lengthLoop]
    split
    · next c s' _ =>
      refine fits_storing (by simp; omega) fun rbuf' hlen => ?_
      split_ifs
      · exact fits_some ⟨hlen, by omega⟩ s'
      · have hrec := ih rbuf' (n + 1) s' (by omega)
        rwa [hlen, show n + 1 + k = n + (k + 1) by omega] at hrec
    · exact fits_fail _

theorem readLength_fits (s : Stream) : Fits (readLength s) fun _ => True := by
  refine (lengthLoop_fits 63 _ 0 s (by simp)).andThen fun p s hp => ?_
  obtain ⟨hlen, hi⟩ := hp
  rw [List.length_replicate] at hlen
  split_ifs
  · exact fits_fail s
  · refine fits_storing (by simp; omega) fun rbuf _ => ?_
    split_ifs
    · exact fits_fail s
    · exact fits_some trivial s

theorem payloadLoop_fits (buf : Str) (i n : ℕ) (s : Stream) (h : i + n ≤ buf.length) :
    Fits (payloadLoop buf i n s) fun p => p.1.length = buf.length ∧ p.2 = i + n := by
  induction n using Nat.strong_induction_on generalizing buf i s with
  | _ n ih =>
    rw [payloadLoop]
    split_ifs with hn
    · exact fits_some ⟨rfl, by omega⟩ s
    · have hle := length_read_le n s
      split
      · exact fits_fail _
      · next c r hread =>
        rw [hread] at hle
        have hpos : 0 < (c :: r).length := Nat.succ_pos _
        refine fits_storing (by omega) fun buf' hlen => ?_
        have hrec := ih (n - (c :: r).length) (by omega) buf' (i + (c :: r).length) (read n s).2 (by omega)
        rwa [hlen, show i + (c :: r).length + (n - (c :: r).length) = i + n by omega] at hrec

theorem readEnd_fits {P : Str → Prop} {buf : Str} (h : P buf) (s : Stream) : Fits (readEnd buf s) P := by
  unfold readEnd
  split
  · split
    · split_ifs
      · exact fits_some h _
      · split
        · exact fits_some h _
        · exact fits_fail _
    · exact fits_fail _
  · exact fits_fail _

/-- **No fault.** Whatever arrives, nothing is stored outside the buffers. -/
theorem nread_fits (buf : Str) (s : Stream) : Fits (nread buf s) fun b => b.length = buf.length := by
  refine (readLength_fits s).andThen fun n s _ => ?_
  split_ifs with hn
  · exact fits_fail s
  · refine (payloadLoop_fits (List.replicate buf.length '\x00') 0 n.toNat s (by simp; omega)).andThen fun p s hp => ?_
    obtain ⟨hlen, hi⟩ := hp
    rw [List.length_replicate] at hlen
    exact fits_storing (by simp; omega) fun buf' hlen' => readEnd_fits (hlen'.trans hlen) s

/-! ## Messages -/

/-- the bytes to come, in pieces that are not empty -/
def Delivers (s : Stream) (t : Str) : Prop := [] ∉ s ∧ s.flatten = t

/-- the bytes `t` are to come before the stream is `s₀` -/
def Ahead (s : Stream) (t : Str) (s₀ : Stream) : Prop := ∃ s₁, s = s₁ ++ s₀ ∧ Delivers s₁ t

theorem ahead_nil {s : Stream} {t : Str} : Ahead s t [] ↔ Delivers s t := by
  simp [Ahead]

variable {s s₀ : Stream}

/-- `read` gives some bytes when there are some -/
theorem read_ahead {t : Str} (h : Ahead s t s₀) (ht : t ≠ []) {n : ℕ} (hn : 0 < n) :
    ∃ q t', t = q ++ t' ∧ q ≠ [] ∧ q.length ≤ n ∧ (read n s).1 = q ∧ Ahead (read n s).2 t' s₀ := by
  obtain ⟨s₁, rfl, hne, rfl⟩ := h
  cases s₁ with
  | nil => exact absurd rfl ht
  | cons c s₁ =>
    have hc : c ≠ [] := fun h => hne (by simp [h])
    have hs₁ : [] ∉ s₁ := fun h => hne (List.mem_cons_of_mem _ h)
    rw [List.cons_append, read, List.flatten_cons]
    split_ifs with hle
    · -- the whole piece is read
      exact ⟨c, s₁.flatten, rfl, hc, hle, rfl, s₁, rfl, hs₁, rfl⟩
    · -- part of it is left
      have hdrop : c.drop n ≠ [] := by
        rw [ne_eq, List.drop_eq_nil_iff]
        exact hle
      refine ⟨c.take n, c.drop n ++ s₁.flatten, ?_, ?_, ?_, rfl, c.drop n :: s₁, rfl, ?_, rfl⟩
      · rw [← List.append_assoc, List.take_append_drop]
      · rw [ne_eq, List.take_eq_nil_iff, not_or]
        exact ⟨hn.ne', hc⟩
      · exact List.length_take_le n c
      · exact fun h => (List.mem_cons.1 h).elim (fun e => hdrop e.symm) hs₁

/-- `read` of one byte -/
theorem read_one {c : Char} {t : Str} (h : Ahead s (c :: t) s₀) : ∃ s', read 1 s = ([c], s') ∧ Ahead s' t s₀ := by
  obtain ⟨q, t', hq, hne, hlen, hread, hrest⟩ := read_ahead h (by simp) one_pos
  obtain ⟨d, q, rfl⟩ := List.exists_cons_of_ne_nil hne
  obtain rfl : q = [] := List.length_eq_zero_iff.1 (by simpa using hlen)
  obtain ⟨rfl, rfl⟩ := List.cons.inj hq
  exact ⟨(read 1 s).2, Prod.ext hread rfl, hrest⟩

/-- a store in the middle -/
theorem storing_append {β : Type} {a x b y : Str} {i : ℕ} (hi : a.length = i) (hx : x.length = y.length)
    (f : Str → Result β) : storing (a ++ x ++ b) i y f = f (a ++ y ++ b) := by
  subst hi
  have hfit : a.length + y.length ≤ (a ++ x ++ b).length := by simp; omega
  have htake : (a ++ x ++ b).take a.length = a := by simp
  have hdrop : (a ++ x ++ b).drop (a.length + y.length) = b := by rw [← hx]; simp
  rw [storing, store, if_pos hfit, htake, hdrop, Option.bind_some]

theorem storing_char {β : Type} (a : Str) (x y : Char) (b : Str) (f : Str → Result β) :
    storing (a ++ x :: b) a.length [y] f = f (a ++ y :: b) := by
  have h := storing_append (x := [x]) (y := [y]) (b := b) (rfl : a.length = a.length) rfl f
  simpa using h

/-- the length loop reads what stands before a colon -/
theorem lengthLoop_digits {ds t : Str} (hds : ':' ∉ ds) {k m : ℕ} (hk : ds.length < k) (hm : ds.length < m) (a : Str)
    (h : Ahead s (ds ++ ':' :: t) s₀) :
    ∃ s', lengthLoop k (a ++ List.replicate m '\x00') a.length s =
        some (some (a ++ ds ++ ':' :: List.replicate (m - ds.length - 1) '\x00', a.length + ds.length), s') ∧
      Ahead s' t s₀ := by
  induction ds generalizing a k m s with
  | nil =>
    obtain ⟨k, rfl⟩ := Nat.exists_eq_succ_of_ne_zero (Nat.pos_iff_ne_zero.1 hk)
    obtain ⟨m, rfl⟩ := Nat.exists_eq_succ_of_ne_zero (Nat.pos_iff_ne_zero.1 hm)
    obtain ⟨s', hread, hs'⟩ := read_one h
    refine ⟨s', ?_, hs'⟩
    rw [lengthLoop, hread]
    dsimp only
    rw [List.replicate_succ, storing_char, if_pos rfl]
    simp
  | cons d ds ih =>
    obtain ⟨k, rfl⟩ := Nat.exists_eq_succ_of_ne_zero (show k ≠ 0 by omega)
    obtain ⟨m, rfl⟩ := Nat.exists_eq_succ_of_ne_zero (show m ≠ 0 by omega)
    have hd : d ≠ ':' := fun h => hds (by simp [h])
    have hlen : (d :: ds).length = ds.length + 1 := List.length_cons
    obtain ⟨s₁, hread, hs₁⟩ := read_one h
    obtain ⟨s', hloop, hs'⟩ :=
      ih (k := k) (m := m) (fun h => hds (List.mem_cons_of_mem _ h)) (by omega) (by omega) (a ++ [d]) hs₁
    refine ⟨s', ?_, hs'⟩
    rw [lengthLoop, hread]
    dsimp only
    rw [List.replicate_succ, storing_char, if_neg hd, List.append_cons]
    rw [List.length_append, List.length_singleton] at hloop
    rw [hloop, hlen, show m + 1 - (ds.length + 1) - 1 = m - ds.length - 1 by omega,
      show a.length + 1 + ds.length = a.length + (ds.length + 1) by omega]
    simp

/-- a text that is taken for the length `n` -/
def LengthText (ds : Str) (n : ℤ) : Prop :=
  ':' ∉ ds ∧ ds.length < 63 ∧ (strtol (cstr ds)).2 = [] ∧ toInt (strtol (cstr ds)).1 = n

/-- what stands before the colon is given to `strtol` -/
theorem readLength_colon {ds t : Str} (hcolon : ':' ∉ ds) (hlen : ds.length < 63) (h : Ahead s (ds ++ ':' :: t) s₀) :
    ∃ s', readLength s =
        (if (strtol (cstr ds)).2 ≠ [] then fail s' else some (some (toInt (strtol (cstr ds)).1), s')) ∧
      Ahead s' t s₀ := by
  obtain ⟨s', hloop, hs'⟩ := lengthLoop_digits hcolon (k := 63) (m := 64) (by omega) (by omega) [] h
  rw [List.nil_append, List.nil_append, List.length_nil, zero_add] at hloop
  refine ⟨s', ?_, hs'⟩
  have hat : (ds ++ ':' :: List.replicate (64 - ds.length - 1) '\x00')[ds.length]? = some ':' := by simp
  have hcstr : cstr (ds ++ '\x00' :: List.replicate (64 - ds.length - 1) '\x00') = cstr ds :=
    takeWhile_append_cons rfl ds _
  rw [readLength, hloop, andThen, if_neg (by rw [hat]; simp), storing_char, hcstr]

/-- a text that is taken for a length is read -/
theorem readLength_of {ds t : Str} {n : ℤ} (hds : LengthText ds n) (h : Ahead s (ds ++ ':' :: t) s₀) :
    ∃ s', readLength s = some (some n, s') ∧ Ahead s' t s₀ := by
  obtain ⟨hcolon, hlen, hall, rfl⟩ := hds
  obtain ⟨s', hread, hs'⟩ := readLength_colon hcolon hlen h
  exact ⟨s', by rw [hread, if_neg (by simp [hall])], hs'⟩

/-- a length that was printed -/
theorem lengthText_printInt {n : ℕ} (hn : n < 2 ^ 31) : LengthText (printInt n) n := by
  have hlen : (printInt n).length ≤ 11 := length_printInt_le (by omega) (by norm_num at hn ⊢; omega)
  have hcolon : ':' ∉ printInt n := not_mem_printInt (by omega) (by decide)
  have hnul : '\x00' ∉ printInt n := not_mem_printInt (by omega) (by decide)
  have hlong : strtol (printInt n) = ((n : ℤ), []) := strtol_printInt (by omega) (by norm_num at hn ⊢; omega)
  refine ⟨hcolon, by omega, ?_, ?_⟩
  · rw [cstr_of_not_mem hnul, hlong]
  · rw [cstr_of_not_mem hnul, hlong, toInt_of_range (by omega) (by norm_num at hn ⊢; omega)]

theorem exists_of_append_eq {p t q t' : Str} (h : p ++ t = q ++ t') (hle : q.length ≤ p.length) :
    ∃ p', p = q ++ p' ∧ t' = p' ++ t := by
  rcases List.append_eq_append_iff.1 h with ⟨a, rfl, rfl⟩ | ⟨p', rfl, rfl⟩
  · have ha : a = [] := by
      rw [List.length_append] at hle
      exact List.length_eq_zero_iff.1 (by omega)
    exact ⟨[], by simp [ha], by simp [ha]⟩
  · exact ⟨p', rfl, rfl⟩

/-- the payload loop reads the whole payload -/
theorem payloadLoop_spec (a p t : Str) {m : ℕ} (hm : p.length ≤ m) (h : Ahead s (p ++ t) s₀) :
    ∃ s', payloadLoop (a ++ List.replicate m '\x00') a.length p.length s =
        some (some (a ++ p ++ List.replicate (m - p.length) '\x00', a.length + p.length), s') ∧ Ahead s' t s₀ := by
  induction hn : p.length using Nat.strong_induction_on generalizing a p m s with
  | _ n ih =>
    subst hn
    rw [payloadLoop]
    by_cases hp : p.length = 0
    · rw [if_pos hp]
      obtain rfl := List.length_eq_zero_iff.1 hp
      exact ⟨s, by simp, h⟩
    · obtain ⟨q, t', hsplit, hq, hle, hread, hrest⟩ := read_ahead h (by simp_all) (Nat.pos_of_ne_zero hp)
      obtain ⟨p', rfl, rfl⟩ := exists_of_append_eq hsplit hle
      have hlen : (q ++ p').length = q.length + p'.length := List.length_append
      have hqpos : 0 < q.length := List.length_pos_iff.2 hq
      obtain ⟨s', hloop, hs'⟩ := ih p'.length (by omega) (a ++ q) p' (show p'.length ≤ m - q.length by omega) hrest rfl
      refine ⟨s', ?_, hs'⟩
      have hzeros : List.replicate m '\x00' = List.replicate q.length '\x00' ++
          List.replicate (m - q.length) '\x00' := by
        rw [List.replicate_append_replicate, Nat.add_sub_cancel' (by omega)]
      rw [if_neg hp]
      obtain ⟨c, r, rfl⟩ := List.exists_cons_of_ne_nil hq
      rw [hread]
      dsimp only
      rw [hzeros, ← List.append_assoc, storing_append rfl List.length_replicate]
      rw [List.length_append] at hloop
      have hsub : (c :: r ++ p').length - (c :: r).length = p'.length := by omega
      rw [hsub, hloop, hlen, Nat.sub_sub, Nat.add_assoc, List.append_assoc a]

/-- the end of a message is read -/
theorem readEnd_spec (buf : Str) {t : Str} (h : Ahead s (',' :: '\r' :: '\n' :: t) s₀) :
    ∃ s', readEnd buf s = some (some buf, s') ∧ Ahead s' t s₀ := by
  obtain ⟨s₁, h₁, hs₁⟩ := read_one h
  obtain ⟨s₂, h₂, hs₂⟩ := read_one hs₁
  obtain ⟨s₃, h₃, hs₃⟩ := read_one hs₂
  refine ⟨s₃, ?_, hs₃⟩
  simp only [readEnd, h₁, h₂, h₃, Char.reduceEq, if_false]

/-- the length and the payload of a message are read, and its end is left -/
theorem nread_payload {buf ds p t : Str} (hds : LengthText ds p.length) (hlt : p.length < buf.length)
    (h : Ahead s (ds ++ ':' :: (p ++ t)) s₀) :
    ∃ k s', nread buf s = readEnd (p ++ '\x00' :: List.replicate k '\x00') s' ∧ Ahead s' t s₀ := by
  obtain ⟨s₁, h₁, hs₁⟩ := readLength_of hds h
  obtain ⟨s₂, h₂, hs₂⟩ := payloadLoop_spec [] p t (m := buf.length) hlt.le hs₁
  obtain ⟨k, hk⟩ : ∃ k, buf.length - p.length = k + 1 := ⟨buf.length - p.length - 1, by omega⟩
  refine ⟨k, s₂, ?_, hs₂⟩
  simp only [List.nil_append, List.length_nil, zero_add, hk] at h₂
  rw [nread, h₁, andThen, if_neg (by omega), Int.toNat_natCast, h₂, andThen]
  dsimp only
  rw [List.replicate_succ, storing_char]

/-- **One message.** A message shorter than the buffer is read as it was sent, and nothing beyond it. -/
theorem nread_message {m buf : Str} (hnul : '\x00' ∉ m) (hm : m.length < buf.length) (hbuf : buf.length < 2 ^ 31)
    {t : Str} {s : Stream} (h : Delivers s (frame m ++ t)) :
    ∃ buf' s', nread buf s = some (some buf', s') ∧ cstr buf' = m ∧ Delivers s' t := by
  have hframe : frame m ++ t = printInt m.length ++ ':' :: (m ++ ',' :: '\r' :: '\n' :: t) := by simp [frame]
  rw [hframe, ← ahead_nil] at h
  obtain ⟨k, s₂, hread, hs₂⟩ := nread_payload (lengthText_printInt (by omega)) hm h
  obtain ⟨s₃, h₃, hs₃⟩ := readEnd_spec (m ++ '\x00' :: List.replicate k '\x00') hs₂
  exact ⟨_, s₃, hread.trans h₃, cstr_append_nul hnul _, ahead_nil.1 hs₃⟩

/-! ## Sequences of messages -/

/-- send strings one after another -/
def nswrites : List Str → Sink → ℤ × Sink
  | [], k => (0, k)
  | m :: ms, k => orFail (nswrite m k) (nswrites ms)

/-- read strings one after another, each into its buffer; the strings read -/
def nreads : List Str → Stream → Result (List Str)
  | [], s => some (some [], s)
  | buf :: bufs, s =>
    andThen (nread buf s) fun b s => andThen (nreads bufs s) fun ms s => some (some (cstr b :: ms), s)

theorem nswrites_spec {ms : List Str} (hms : ∀ m ∈ ms, m.length < 2 ^ 31) {k : Sink} (hk : none ∉ k.plan) :
    ∃ p, nswrites ms k = (0, ⟨k.out ++ ms.flatMap frame, p⟩) := by
  induction ms generalizing k with
  | nil => exact ⟨k.plan, by simp [nswrites]⟩
  | cons m ms ih =>
    obtain ⟨p, hp, hplan⟩ := nswrite_spec (hms m List.mem_cons_self) hk
    obtain ⟨p', hp'⟩ := ih (fun m' hm' => hms m' (List.mem_cons_of_mem _ hm')) (k := ⟨k.out ++ frame m, p⟩) hplan
    refine ⟨p', ?_⟩
    rw [nswrites, hp, orFail, if_neg (lt_irrefl _), hp', List.flatMap_cons, List.append_assoc]

theorem nreads_spec {ms bufs : List Str}
    (h : List.Forall₂ (fun m buf => '\x00' ∉ m ∧ m.length < buf.length ∧ buf.length < 2 ^ 31) ms bufs) {s : Stream}
    (hs : Delivers s (ms.flatMap frame)) : ∃ s', nreads bufs s = some (some ms, s') ∧ Delivers s' [] := by
  induction h generalizing s with
  | nil => exact ⟨s, rfl, hs⟩
  | cons hm _ ih =>
    obtain ⟨hnul, hlen, hbuf⟩ := hm
    rw [List.flatMap_cons] at hs
    obtain ⟨b, s₁, h₁, rfl, hs₁⟩ := nread_message hnul hlen hbuf hs
    obtain ⟨s₂, h₂, hs₂⟩ := ih hs₁
    exact ⟨s₂, by rw [nreads, h₁, andThen, h₂, andThen], hs₂⟩

/-- **The wire format.** Messages without NUL, each shorter than the buffer it is read into, are written without an
error in whatever pieces `write` takes them, and read as they were in whatever pieces they arrive, nothing being left;
and no stream makes `nread` store outside its buffers. -/
theorem wire_correct :
    (∀ (ms bufs : List Str) (plan : List (Option ℕ)), none ∉ plan →
      List.Forall₂ (fun m buf => '\x00' ∉ m ∧ m.length < buf.length ∧ buf.length < 2 ^ 31) ms bufs →
      ∃ k, nswrites ms ⟨[], plan⟩ = (0, k) ∧
        ∀ s : Stream, [] ∉ s → s.flatten = k.out →
          ∃ s', nreads bufs s = some (some ms, s') ∧ s'.flatten = []) ∧
    ∀ (buf : Str) (s : Stream), nread buf s ≠ none := by
  constructor
  · intro ms bufs plan hplan h
    have hlen : ∀ m ∈ ms, m.length < 2 ^ 31 := by
      have hboth : List.Forall₂ (fun m buf : Str => m.length < 2 ^ 31 ∧ m.length < buf.length) ms bufs :=
        h.imp fun m buf hm => ⟨hm.2.1.trans hm.2.2, hm.2.1⟩
      exact (List.forall₂_and_left ms bufs).1 hboth |>.1
    obtain ⟨p, hp⟩ := nswrites_spec hlen (k := ⟨[], plan⟩) hplan
    refine ⟨_, hp, fun s hne hs => ?_⟩
    obtain ⟨s', hread, hs'⟩ := nreads_spec h ⟨hne, hs⟩
    exact ⟨s', hread, hs'.2⟩
  · intro buf s hfault
    obtain ⟨o, s', h, -⟩ := nread_fits buf s
    rw [h] at hfault
    cases hfault

end MNetSoft.Robocop
