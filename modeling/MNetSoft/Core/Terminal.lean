/-
A terminal on which a program writes: the lines that are finished, and the one the cursor is on. A backspace moves the
cursor to the left and erases nothing, a bell is only heard, and any other character but a newline goes where the cursor
is, in place of what is there. Lines do not wrap.
- `feed_text`: characters on a line.
- `feed_rubout`: a backspace, a blank and a backspace take the last character away.
- `feed_unwind`: as many backspaces as there are characters take the cursor back to the first.
- `Shows`: what is seen, but for blanks at the ends of lines, with the cursor behind it.
-/
import Mathlib.Tactic

namespace MNetSoft.Terminal

/-- `front` is what is in front of the cursor, the nearest first -/
structure Screen where
  above : List (List Char)
  front : List Char
  behind : List Char
deriving DecidableEq, Repr

def blank : Screen := ⟨[], [], []⟩

def Screen.putc (scr : Screen) (c : Char) : Screen :=
  if c = '\n' then ⟨scr.above ++ [scr.front.reverse ++ scr.behind], [], []⟩
  else if c = '\x08' then ⟨scr.above, scr.front.tail, scr.front.take 1 ++ scr.behind⟩
  else if c = '\x07' then scr
  else ⟨scr.above, c :: scr.front, scr.behind.tail⟩

def Screen.feed (scr : Screen) (s : List Char) : Screen := s.foldl Screen.putc scr

/-- the line without the blanks at its end -/
def rstrip (s : List Char) : List Char := (s.reverse.dropWhile (· = ' ')).reverse

/-- goes to a place on the line of its own -/
def Printable (c : Char) : Prop := c ≠ '\n' ∧ c ≠ '\x08' ∧ c ≠ '\x07'

instance (c : Char) : Decidable (Printable c) := inferInstanceAs (Decidable (_ ∧ _))

variable (scr : Screen) {above : List (List Char)} {front behind s t : List Char} {c : Char}

@[simp] theorem feed_nil : scr.feed [] = scr := rfl

theorem feed_cons (c : Char) (s : List Char) : scr.feed (c :: s) = (scr.putc c).feed s := rfl

theorem feed_append (s t : List Char) : scr.feed (s ++ t) = (scr.feed s).feed t := List.foldl_append

@[simp] theorem putc_backspace :
    (⟨above, c :: front, behind⟩ : Screen).putc '\x08' = ⟨above, front, c :: behind⟩ := rfl

theorem putc_printable (hc : Printable c) :
    (⟨above, front, behind⟩ : Screen).putc c = ⟨above, c :: front, behind.tail⟩ := by
  obtain ⟨hnl, hbs, hbell⟩ := hc
  rw [Screen.putc, if_neg hnl, if_neg hbs, if_neg hbell]

/-! ## Texts -/

theorem feed_text (hs : ∀ c ∈ s, Printable c) :
    (⟨above, front, behind⟩ : Screen).feed s = ⟨above, s.reverse ++ front, behind.drop s.length⟩ := by
  induction s generalizing front behind with
  | nil => rfl
  | cons c s ih =>
    obtain ⟨hc, hs⟩ := List.forall_mem_cons.1 hs
    rw [feed_cons, putc_printable hc, ih hs, List.reverse_cons, List.append_assoc, List.length_cons]
    simp only [List.singleton_append, List.drop_tail]

/-! ## Moving back -/

theorem feed_unwind (s : List Char) : (⟨above, s.reverse ++ front, behind⟩ : Screen).feed
    (List.replicate s.length '\x08') = ⟨above, front, s ++ behind⟩ := by
  induction s using List.reverseRecOn generalizing behind with
  | nil => rfl
  | append_singleton s c ih =>
    rw [List.reverse_append, List.reverse_singleton, List.length_append, List.length_singleton, List.replicate_succ,
      feed_cons, List.singleton_append, List.cons_append, putc_backspace, ih, List.append_assoc, List.singleton_append]

theorem printable_space : Printable ' ' := by decide

theorem feed_rubout :
    (⟨above, c :: front, behind⟩ : Screen).feed ['\x08', ' ', '\x08'] = ⟨above, front, ' ' :: behind⟩ := by
  rw [feed_cons, putc_backspace, feed_cons, putc_printable printable_space, feed_cons, putc_backspace, feed_nil,
    List.tail_cons]

/-- the last characters are taken away one after the other -/
theorem feed_rubouts (s : List Char) :
    (⟨above, s.reverse ++ front, behind⟩ : Screen).feed (List.replicate s.length ['\x08', ' ', '\x08']).flatten =
      ⟨above, front, List.replicate s.length ' ' ++ behind⟩ := by
  induction s using List.reverseRecOn generalizing behind with
  | nil => rfl
  | append_singleton s c ih =>
    rw [List.reverse_append, List.reverse_singleton, List.length_append, List.length_singleton, List.replicate_succ,
      List.flatten_cons, feed_append, List.singleton_append, List.cons_append, feed_rubout, ih,
      List.replicate_succ', List.append_assoc, List.singleton_append]

/-! ## Blanks -/

theorem rstrip_blanks (s : List Char) (k : ℕ) : rstrip (s ++ List.replicate k ' ') = rstrip s := by
  induction k with
  | zero => rw [List.replicate_zero, List.append_nil]
  | succ k ih =>
    rw [List.replicate_succ', ← List.append_assoc, rstrip, List.reverse_append, List.reverse_singleton,
      List.singleton_append, List.dropWhile_cons_of_pos (by decide), ← rstrip, ih]

/-! ## What is seen -/

/-- lines above, the text in front of the cursor, and nothing behind it -/
structure Shows (scr : Screen) (lines : List (List Char)) (cur : List Char) : Prop where
  cursor : scr.front = cur.reverse
  clear : ∃ k, scr.behind = List.replicate k ' '
  above : scr.above.map rstrip = lines.map rstrip

section Shows

variable {scr : Screen} {lines ls : List (List Char)} {cur : List Char}

theorem shows_blank : Shows blank [] [] := ⟨rfl, ⟨0, rfl⟩, rfl⟩

theorem Shows.text (h : Shows scr lines cur) (hs : ∀ c ∈ s, Printable c) : Shows (scr.feed s) lines (cur ++ s) := by
  obtain ⟨hcursor, ⟨k, hclear⟩, habove⟩ := h
  have hfeed : scr.feed s = ⟨scr.above, s.reverse ++ scr.front, scr.behind.drop s.length⟩ := feed_text hs
  rw [hfeed]
  refine ⟨?_, ⟨k - s.length, ?_⟩, habove⟩
  · rw [hcursor, List.reverse_append]
  · rw [hclear, List.drop_replicate]

theorem Shows.bell (h : Shows scr lines cur) : Shows (scr.feed ['\x07']) lines cur := h

theorem Shows.newline (h : Shows scr lines cur) : Shows (scr.feed ['\n']) (lines ++ [cur]) [] := by
  obtain ⟨hcursor, ⟨k, hclear⟩, habove⟩ := h
  refine ⟨rfl, ⟨0, rfl⟩, ?_⟩
  rw [feed_cons, feed_nil]
  show (scr.above ++ [scr.front.reverse ++ scr.behind]).map rstrip = _
  rw [List.map_append, List.map_append, habove, hcursor, hclear, List.reverse_reverse, List.map_singleton,
    List.map_singleton, rstrip_blanks]

theorem Shows.line (h : Shows scr lines cur) (hs : ∀ c ∈ s, Printable c) :
    Shows (scr.feed (s ++ ['\n'])) (lines ++ [cur ++ s]) [] := by
  rw [feed_append]
  exact (h.text hs).newline

theorem Shows.whole (h : Shows scr lines []) (hs : ∀ l ∈ ls, ∀ c ∈ l, Printable c) :
    Shows (scr.feed (ls.map (· ++ ['\n'])).flatten) (lines ++ ls) [] := by
  induction ls generalizing scr lines with
  | nil => simpa using h
  | cons l ls ih =>
    obtain ⟨hl, hs⟩ := List.forall_mem_cons.1 hs
    rw [List.map_cons, List.flatten_cons, feed_append]
    have hrest := ih (h.line hl) hs
    rwa [List.append_assoc, List.nil_append, List.singleton_append] at hrest

/-- back to where a text begins, and another one of the same length in its place -/
theorem Shows.rewrite (h : Shows scr lines (cur ++ s)) (ht : ∀ c ∈ t, Printable c) (hlen : t.length = s.length) :
    Shows (scr.feed (List.replicate s.length '\x08' ++ t)) lines (cur ++ t) := by
  obtain ⟨hcursor, hclear, habove⟩ := h
  have hback : scr.feed (List.replicate s.length '\x08') = ⟨scr.above, cur.reverse, s ++ scr.behind⟩ := by
    have hunwind : (⟨scr.above, s.reverse ++ cur.reverse, scr.behind⟩ : Screen).feed
        (List.replicate s.length '\x08') = ⟨scr.above, cur.reverse, s ++ scr.behind⟩ := feed_unwind s
    rwa [← List.reverse_append, ← hcursor] at hunwind
  rw [feed_append, hback, feed_text ht, hlen, List.drop_left]
  exact ⟨by rw [List.reverse_append], hclear, habove⟩

/-- back over blanks -/
theorem Shows.back {k : ℕ} (h : Shows scr lines (cur ++ List.replicate k ' ')) :
    Shows (scr.feed (List.replicate k '\x08')) lines cur := by
  obtain ⟨hcursor, ⟨j, hclear⟩, habove⟩ := h
  have hunwind : (⟨scr.above, (List.replicate k ' ').reverse ++ cur.reverse, scr.behind⟩ : Screen).feed
      (List.replicate (List.replicate k ' ').length '\x08') =
        ⟨scr.above, cur.reverse, List.replicate k ' ' ++ scr.behind⟩ :=
    feed_unwind (List.replicate k ' ')
  rw [← List.reverse_append, ← hcursor, List.length_replicate] at hunwind
  rw [show scr.feed (List.replicate k '\x08') = _ from hunwind]
  refine ⟨rfl, ⟨k + j, ?_⟩, habove⟩
  rw [hclear, List.replicate_append_replicate]

theorem Shows.rubouts (h : Shows scr lines (cur ++ s)) :
    Shows (scr.feed (List.replicate s.length ['\x08', ' ', '\x08']).flatten) lines cur := by
  obtain ⟨hcursor, ⟨j, hclear⟩, habove⟩ := h
  have hrub : (⟨scr.above, s.reverse ++ cur.reverse, scr.behind⟩ : Screen).feed
      (List.replicate s.length ['\x08', ' ', '\x08']).flatten =
        ⟨scr.above, cur.reverse, List.replicate s.length ' ' ++ scr.behind⟩ := feed_rubouts s
  rw [← List.reverse_append, ← hcursor] at hrub
  rw [show scr.feed (List.replicate s.length ['\x08', ' ', '\x08']).flatten = _ from hrub]
  refine ⟨rfl, ⟨s.length + j, ?_⟩, habove⟩
  rw [hclear, List.replicate_append_replicate]

end Shows

end MNetSoft.Terminal
