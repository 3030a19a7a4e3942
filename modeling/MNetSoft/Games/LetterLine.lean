/-
How a player of `letter` types a word (`readword`), one key at a time in cbreak mode: the program echoes the letters,
rubs them out, and draws the line anew, by what it writes to the terminal. `Editor` is what the player has in mind: a
text of at most `n` letters behind a question mark.

A newline that comes too early looks at the first character of the buffer, which is the letter that was typed last in
that place, also when it has been rubbed out or is of the word before.
- `pressed_spec`: what one key does, to the buffer and on the screen.
- `readKeys_spec`: the same for any keys.
- `readword_spec`: what is returned.
- `Editor.words_keys`: the words that are typed, one after another.
- `readword_follows`: the screen after every key, and what is returned.
-/
import Mathlib.Tactic
import MNetSoft.Core.CString
import MNetSoft.Core.Memory
import MNetSoft.Core.Numerals
import MNetSoft.Core.Terminal
import MNetSoft.Games.Letter

namespace MNetSoft.Games.Letter

open MNetSoft.CString MNetSoft.Numerals MNetSoft.Terminal

/-! ## Model -/

/-- the characters that the terminal has for editing, `cooked.c_cc` -/
structure Cc where
  EOF_CHAR : Char
  ERASE_CHAR : Char
  KILL_CHAR : Char
  WERASE_CHAR : Char
deriving DecidableEq, Repr

/-- a word guessed; the score is -1 if it is not in the dictionary -/
structure Hist where
  score : ℤ
  word : Str
deriving DecidableEq, Repr

/-- what is printed of it, before the newline -/
def Hist.line (p : Hist) : Str :=
  if p.score < 0 then ' ' :: p.word ++ " not in dictionary".toList else ' ' :: p.word ++ ' ' :: printInt p.score

def show_hist (n : ℕ) (hist : List Hist) : Str :=
  List.replicate (n + 4) '-' ++ '\n' :: (hist.map fun p => p.line ++ ['\n']).flatten

/-- the variables of `readword`, and what it has written -/
structure Editing where
  i : ℕ
  bf : Str
  out : Str
deriving DecidableEq, Repr

def Editing.puts (st : Editing) (s : Str) : Editing := { st with out := st.out ++ s }

inductive Outcome where
  | next (st : Editing)
  /-- out of the loop -/
  | stop (rc : ℕ) (st : Editing)
  /-- `return 1` -/
  | quit (st : Editing)
deriving DecidableEq, Repr

def rubout : Str := ['\x08', ' ', '\x08']

section Readword

variable (n : ℕ) (hist : List Hist) (cc : Cc)

/-- one key; `none` if a character outside of the buffer is used -/
def pressed (st : Editing) (ch : Char) : Option Outcome :=
  let ch := ch.toLower
  if islower ch then
    if st.i < n then (Memory.store st.bf st.i ch).map fun bf => .next ⟨st.i + 1, bf, st.out ++ [ch]⟩
    else some (.next (st.puts ['\x07']))
  else if ch = '\n' then
    if st.i = n then (Memory.store st.bf st.i '\x00').map fun bf => .stop 0 { st with bf := bf }
    else if 1 < n then
      (Memory.load st.bf 0).map fun first =>
        if first = 'q' then .quit (st.puts ['\n'])
        else if first = 'r' then .next { st.puts ('\n' :: show_hist n hist ++ ['?']) with i := 0 }
        else .next (st.puts ['\x07'])
    else some (.next (st.puts ['\x07']))
  else if ch = cc.EOF_CHAR then some (.stop 1 st)
  else if ch = cc.ERASE_CHAR then
    if 0 < st.i then some (.next { st.puts rubout with i := st.i - 1 }) else some (.next (st.puts ['\x07']))
  else if ch = cc.KILL_CHAR ∨ ch = cc.WERASE_CHAR then
    some (.next { st.puts (List.replicate st.i rubout).flatten with i := 0 })
  else if ch = '\x0c' ∨ ch = '\x12' then
    some (.next (st.puts (List.replicate (st.i + 1) '\x08' ++ List.replicate (st.i + 1) ' ' ++
      List.replicate (st.i + 1) '\x08' ++ show_hist n hist ++ '?' :: st.bf.take st.i)))
  else some (.next st)

/-- the loop, and the keys that are left; it goes on behind all of them -/
def readKeys : Editing → List Char → Option (Outcome × List Char)
  | st, [] => some (.next st, [])
  | st, ch :: keys => (pressed n hist cc st ch).bind fun
    | .next st => readKeys st keys
    | out => some (out, keys)

/-- in place of the question mark -/
def Editing.erase_question (st : Editing) : Editing :=
  st.puts (List.replicate (st.i + 1) '\x08' ++ ' ' :: st.bf.take st.i)

/-- what is returned, the buffer, what is written, and the keys that are left -/
structure Reading where
  rc : ℕ
  bf : Str
  out : Str
  keys : List Char
deriving DecidableEq, Repr

/-- behind the last key there is `EOF` -/
def Outcome.reading (keys : List Char) : Outcome → Reading
  | .next st => ⟨1, st.bf, st.erase_question.out, keys⟩
  | .stop rc st => ⟨rc, st.bf, st.erase_question.out, keys⟩
  | .quit st => ⟨1, st.bf, st.out, keys⟩

def readword (bf : Str) (keys : List Char) : Option Reading :=
  (readKeys n hist cc ⟨0, bf, ['?']⟩ keys).map fun p => p.1.reading p.2

end Readword

/-! ## The editor -/

/-- the text, what the buffer begins with, and the lines above -/
structure Editor where
  typed : Str
  first : Char
  lines : List Str
deriving DecidableEq, Repr

/-- how typing ends -/
inductive Typed where
  | word
  | eof
  | quit
deriving DecidableEq, Repr

section Editor

variable (n : ℕ) (hist : List Hist) (cc : Cc)

def histLines : List Str := List.replicate (n + 4) '-' :: hist.map Hist.line

/-- one key; the editor after it, and whether that was the last one -/
def Editor.press (e : Editor) (ch : Char) : Editor × Option Typed :=
  let ch := ch.toLower
  if islower ch then
    if e.typed.length < n then
      ({ e with typed := e.typed ++ [ch], first := if e.typed = [] then ch else e.first }, none)
    else (e, none)
  else if ch = '\n' then
    if e.typed.length = n then ({ e with first := if n = 0 then '\x00' else e.first }, some .word)
    else if n ≤ 1 then (e, none)
    else if e.first = 'q' then ({ e with lines := e.lines ++ ['?' :: e.typed] }, some .quit)
    else if e.first = 'r' then
      ({ e with typed := [], lines := e.lines ++ ['?' :: e.typed] ++ histLines n hist }, none)
    else (e, none)
  else if ch = cc.EOF_CHAR then (e, some .eof)
  else if ch = cc.ERASE_CHAR then ({ e with typed := e.typed.dropLast }, none)
  else if ch = cc.KILL_CHAR ∨ ch = cc.WERASE_CHAR then ({ e with typed := [] }, none)
  else if ch = '\x0c' ∨ ch = '\x12' then ({ e with lines := e.lines ++ histLines n hist }, none)
  else (e, none)

def Editor.keys : Editor → List Char → (Editor × Option Typed) × List Char
  | e, [] => ((e, none), [])
  | e, ch :: keys =>
    match e.press n hist cc ch with
    | (e, none) => e.keys keys
    | (e, some how) => ((e, some how), keys)

/-- the words that are typed one after another; what the buffer begins with stays between them -/
def Editor.words : Editor → List Char → List Str
  | _, [] => []
  | e, ch :: keys =>
    match e.press n [] cc ch with
    | (e, none) => e.words keys
    | (e, some .word) => e.typed :: (Editor.mk [] e.first []).words keys
    | (_, some _) => []

end Editor

/-! ## One key -/

/-- the buffer begins with the text, and the screen shows it behind the question mark -/
structure Follows (n : ℕ) (scr : Screen) (st : Editing) (e : Editor) : Prop where
  fits : e.typed.length ≤ n
  lower : ∀ c ∈ e.typed, islower c = true
  cursor : st.i = e.typed.length
  room : n < st.bf.length
  buffer : e.typed <+: st.bf
  first : st.bf.head? = some e.first
  shows : Shows (scr.feed st.out) e.lines ('?' :: e.typed)

variable {n : ℕ} {hist : List Hist} {cc : Cc} {scr : Screen} {st : Editing} {e : Editor}

theorem printable_of_islower {c : Char} (hc : islower c = true) : Printable c := by
  have hle := (islower_iff.1 hc).1
  refine ⟨?_, ?_, ?_⟩
  all_goals
    rintro rfl
    revert hle
    decide

theorem printable_digit {c : Char} (hc : (digit 10 c).isSome = true) : Printable c := by
  refine ⟨?_, ?_, ?_⟩
  all_goals
    rintro rfl
    revert hc
    decide

theorem printable_printInt (k : ℤ) : ∀ c ∈ printInt k, Printable c := by
  intro c hc
  rw [printInt, List.mem_append] at hc
  rcases hc with hc | hc
  · split_ifs at hc
    · rw [List.mem_singleton.1 hc]
      decide
    · exact absurd hc List.not_mem_nil
  · have hdigits := isSome_of_mem_toDigits (by norm_num) digit_decimal k.natAbs c
    rw [List.map_id] at hdigits
    exact printable_digit (hdigits hc)

/-- the words guessed have letters only -/
def Letters (hist : List Hist) : Prop := ∀ p ∈ hist, ∀ c ∈ p.word, islower c = true

theorem printable_line {p : Hist} (hp : ∀ c ∈ p.word, islower c = true) : ∀ c ∈ p.line, Printable c := by
  have hword : ∀ c ∈ ' ' :: p.word, Printable c :=
    List.forall_mem_cons.2 ⟨printable_space, fun c hc => printable_of_islower (hp c hc)⟩
  rw [Hist.line]
  split_ifs
  · exact List.forall_mem_append.2 ⟨hword, by decide⟩
  · exact List.forall_mem_append.2
      ⟨hword, List.forall_mem_cons.2 ⟨printable_space, printable_printInt p.score⟩⟩

theorem show_hist_eq (n : ℕ) (hist : List Hist) :
    show_hist n hist = ((histLines n hist).map (· ++ ['\n'])).flatten := by
  rw [show_hist, histLines, List.map_cons, List.flatten_cons, List.append_assoc, List.singleton_append, List.map_map]
  rfl

theorem shows_hist (hhist : Letters hist) {lines : List Str} (h : Shows scr lines []) :
    Shows (scr.feed (show_hist n hist)) (lines ++ histLines n hist) [] := by
  rw [show_hist_eq]
  refine h.whole (List.forall_mem_cons.2 ⟨?_, ?_⟩)
  · intro c hc
    rw [List.eq_of_mem_replicate hc]
    decide
  · intro l hl
    obtain ⟨p, hp, rfl⟩ := List.mem_map.1 hl
    exact printable_line (hhist p hp)

theorem printable_typed (h : Follows n scr st e) : ∀ c ∈ e.typed, Printable c :=
  fun c hc => printable_of_islower (h.lower c hc)

theorem printable_question : Printable '?' := by decide

theorem Follows.take (h : Follows n scr st e) : st.bf.take st.i = e.typed := by
  rw [h.cursor]
  exact (List.prefix_iff_eq_take.1 h.buffer).symm

theorem Follows.bell (h : Follows n scr st e) : Follows n scr (st.puts ['\x07']) e where
  fits := h.fits
  lower := h.lower
  cursor := h.cursor
  room := h.room
  buffer := h.buffer
  first := h.first
  shows := by
    rw [Editing.puts, feed_append]
    exact h.shows.bell

/-- a letter, while there is place for it -/
theorem Follows.letter (h : Follows n scr st e) {c : Char} (hc : islower c = true) (hlt : e.typed.length < n) :
    ∃ bf, Memory.store st.bf st.i c = some bf ∧ Follows n scr ⟨st.i + 1, bf, st.out ++ [c]⟩
      { e with typed := e.typed ++ [c], first := if e.typed = [] then c else e.first } := by
  obtain ⟨rest, hrest⟩ := h.buffer
  cases rest with
  | nil =>
    have hroom := h.room
    rw [← hrest, List.append_nil] at hroom
    omega
  | cons old rest =>
    refine ⟨e.typed ++ c :: rest, ?_, ?_⟩
    · rw [← hrest]
      exact Memory.store_append h.cursor
    · refine ⟨?_, ?_, ?_, ?_, ⟨rest, ?_⟩, ?_, ?_⟩
      · rw [List.length_append, List.length_singleton]
        exact hlt
      · exact List.forall_mem_append.2 ⟨h.lower, List.forall_mem_singleton.2 hc⟩
      · rw [h.cursor, List.length_append, List.length_singleton]
      · have hroom := h.room
        rw [← hrest, List.length_append, List.length_cons] at hroom
        rwa [List.length_append, List.length_cons]
      · rw [List.append_assoc, List.singleton_append]
      · have hfirst := h.first
        rw [← hrest] at hfirst
        cases htyped : e.typed with
        | nil => rfl
        | cons c' typed =>
          rw [htyped] at hfirst
          exact hfirst
      · rw [feed_append]
        exact h.shows.text (List.forall_mem_singleton.2 (printable_of_islower hc))

theorem Follows.erase (h : Follows n scr st e) (hpos : 0 < st.i) :
    Follows n scr { st.puts rubout with i := st.i - 1 } { e with typed := e.typed.dropLast } where
  fits := by
    rw [List.length_dropLast]
    exact le_trans (Nat.sub_le _ 1) h.fits
  lower := fun c hc => h.lower c (List.mem_of_mem_dropLast hc)
  cursor := by rw [List.length_dropLast, h.cursor]
  room := h.room
  buffer := (List.dropLast_prefix e.typed).trans h.buffer
  first := h.first
  shows := by
    have hne : e.typed ≠ [] := by
      rw [h.cursor] at hpos
      exact List.length_pos_iff.1 hpos
    have hshows := h.shows
    rw [← List.dropLast_append_getLast hne, ← List.cons_append] at hshows
    rw [Editing.puts, feed_append]
    exact hshows.rubouts

theorem Follows.kill (h : Follows n scr st e) :
    Follows n scr { st.puts (List.replicate st.i rubout).flatten with i := 0 } { e with typed := [] } where
  fits := Nat.zero_le n
  lower := List.forall_mem_nil _
  cursor := rfl
  room := h.room
  buffer := List.nil_prefix
  first := h.first
  shows := by
    have hshows : Shows (scr.feed st.out) e.lines (['?'] ++ e.typed) := h.shows
    rw [Editing.puts, feed_append, h.cursor]
    exact hshows.rubouts

theorem Follows.redraw (h : Follows n scr st e) (hhist : Letters hist) :
    Follows n scr (st.puts (List.replicate (st.i + 1) '\x08' ++ List.replicate (st.i + 1) ' ' ++
      List.replicate (st.i + 1) '\x08' ++ show_hist n hist ++ '?' :: st.bf.take st.i))
      { e with lines := e.lines ++ histLines n hist } where
  fits := h.fits
  lower := h.lower
  cursor := h.cursor
  room := h.room
  buffer := h.buffer
  first := h.first
  shows := by
    have hlen : st.i + 1 = ('?' :: e.typed).length := by rw [List.length_cons, h.cursor]
    have hblank : Shows ((scr.feed st.out).feed (List.replicate (st.i + 1) '\x08' ++ List.replicate (st.i + 1) ' '))
        e.lines (List.replicate (st.i + 1) ' ') := by
      have hshows : Shows (scr.feed st.out) e.lines ([] ++ '?' :: e.typed) := h.shows
      rw [hlen]
      refine hshows.rewrite ?_ List.length_replicate
      intro c hc
      rw [List.eq_of_mem_replicate hc]
      exact printable_space
    have hstart : Shows (((scr.feed st.out).feed (List.replicate (st.i + 1) '\x08' ++
        List.replicate (st.i + 1) ' ')).feed (List.replicate (st.i + 1) '\x08')) e.lines [] := Shows.back hblank
    rw [Editing.puts, feed_append, feed_append, feed_append, feed_append, h.take]
    exact (shows_hist hhist hstart).text (List.forall_mem_cons.2 ⟨printable_question, printable_typed h⟩)

/-- the history instead of a word -/
theorem Follows.review (h : Follows n scr st e) (hhist : Letters hist) :
    Follows n scr { st.puts ('\n' :: show_hist n hist ++ ['?']) with i := 0 }
      { e with typed := [], lines := e.lines ++ ['?' :: e.typed] ++ histLines n hist } where
  fits := Nat.zero_le n
  lower := List.forall_mem_nil _
  cursor := rfl
  room := h.room
  buffer := List.nil_prefix
  first := h.first
  shows := by
    rw [Editing.puts, feed_append, ← List.singleton_append, List.append_assoc, feed_append, feed_append]
    exact (shows_hist hhist h.shows.newline).text (List.forall_mem_singleton.2 printable_question)

theorem Follows.load (h : Follows n scr st e) : Memory.load st.bf 0 = some e.first := by
  rw [Memory.load, ← List.head?_eq_getElem?, h.first]

/-- the end of a word -/
theorem Follows.terminate (h : Follows n scr st e) (hn : e.typed.length = n) :
    ∃ bf, Memory.store st.bf st.i '\x00' = some bf ∧ bf.take (n + 1) = e.typed ++ ['\x00'] ∧
      Follows n scr { st with bf := bf } { e with first := if n = 0 then '\x00' else e.first } := by
  obtain ⟨rest, hrest⟩ := h.buffer
  cases rest with
  | nil =>
    have hroom := h.room
    rw [← hrest, List.append_nil] at hroom
    omega
  | cons old rest =>
    refine ⟨e.typed ++ '\x00' :: rest, ?_, ?_, ⟨h.fits, h.lower, h.cursor, ?_, ⟨_, rfl⟩, ?_, h.shows⟩⟩
    · rw [← hrest]
      exact Memory.store_append h.cursor
    · rw [← List.singleton_append, ← List.append_assoc, List.take_left']
      rw [List.length_append, hn, List.length_singleton]
    · have hroom := h.room
      rw [← hrest, List.length_append, List.length_cons] at hroom
      rwa [List.length_append, List.length_cons]
    · have hfirst := h.first
      rw [← hrest] at hfirst
      cases htyped : e.typed with
      | nil =>
        rw [htyped] at hn
        rw [if_pos (show n = 0 from hn.symm)]
        rfl
      | cons c typed =>
        rw [htyped] at hn hfirst
        rw [if_neg (show n ≠ 0 by rw [← hn, List.length_cons]; exact Nat.succ_ne_zero _)]
        exact hfirst

/-- an outcome, and what the editor makes of the same keys -/
def Agree (n : ℕ) (scr : Screen) : Outcome → Editor × Option Typed → Prop
  | .next st, (e, none) => Follows n scr st e
  | .stop rc st, (e, some .word) =>
    rc = 0 ∧ Follows n scr st e ∧ e.typed.length = n ∧ st.bf.take (n + 1) = e.typed ++ ['\x00']
  | .stop rc st, (e, some .eof) => rc = 1 ∧ Follows n scr st e
  | .quit st, (e, some .quit) => st.bf.head? = some e.first ∧ Shows (scr.feed st.out) e.lines []
  | _, _ => False

theorem pressed_spec (h : Follows n scr st e) (hhist : Letters hist) (ch : Char) :
    ∃ out, pressed n hist cc st ch = some out ∧ Agree n scr out (e.press n hist cc ch) := by
  rw [pressed, Editor.press]
  dsimp only
  by_cases hlower : islower ch.toLower = true
  · rw [if_pos hlower, if_pos hlower, h.cursor]
    by_cases hlt : e.typed.length < n
    · obtain ⟨bf, hstore, hnext⟩ := h.letter hlower hlt
      rw [if_pos hlt, if_pos hlt, ← h.cursor, hstore]
      exact ⟨_, rfl, hnext⟩
    · rw [if_neg hlt, if_neg hlt]
      exact ⟨_, rfl, h.bell⟩
  rw [if_neg hlower, if_neg hlower]
  by_cases hnl : ch.toLower = '\n'
  · rw [if_pos hnl, if_pos hnl, h.load, Option.map_some]
    by_cases hn : e.typed.length = n
    · obtain ⟨bf, hstore, htake, hnext⟩ := h.terminate hn
      rw [if_pos (h.cursor.trans hn), if_pos hn, hstore]
      exact ⟨_, rfl, rfl, hnext, hn, htake⟩
    rw [if_neg fun hi => hn (h.cursor.symm.trans hi), if_neg hn]
    by_cases hone : 1 < n
    · rw [if_pos hone, if_neg (Nat.not_le.2 hone)]
      by_cases hq : e.first = 'q'
      · rw [if_pos hq, if_pos hq]
        refine ⟨_, rfl, h.first, ?_⟩
        rw [Editing.puts, feed_append]
        exact h.shows.newline
      rw [if_neg hq, if_neg hq]
      by_cases hr : e.first = 'r'
      · rw [if_pos hr, if_pos hr]
        exact ⟨_, rfl, h.review hhist⟩
      · rw [if_neg hr, if_neg hr]
        exact ⟨_, rfl, h.bell⟩
    · rw [if_neg hone, if_pos (Nat.not_lt.1 hone)]
      exact ⟨_, rfl, h.bell⟩
  rw [if_neg hnl, if_neg hnl]
  by_cases heof : ch.toLower = cc.EOF_CHAR
  · rw [if_pos heof, if_pos heof]
    exact ⟨_, rfl, rfl, h⟩
  rw [if_neg heof, if_neg heof]
  by_cases herase : ch.toLower = cc.ERASE_CHAR
  · rw [if_pos herase, if_pos herase]
    by_cases hpos : 0 < st.i
    · rw [if_pos hpos]
      exact ⟨_, rfl, h.erase hpos⟩
    · have hnil : e.typed = [] := by
        rw [h.cursor] at hpos
        exact List.length_eq_zero_iff.1 (Nat.eq_zero_of_not_pos hpos)
      have hsame : { e with typed := e.typed.dropLast } = e := by
        rw [hnil, List.dropLast_nil, ← hnil]
      rw [if_neg hpos, hsame]
      exact ⟨_, rfl, h.bell⟩
  rw [if_neg herase, if_neg herase]
  by_cases hkill : ch.toLower = cc.KILL_CHAR ∨ ch.toLower = cc.WERASE_CHAR
  · rw [if_pos hkill, if_pos hkill]
    exact ⟨_, rfl, h.kill⟩
  rw [if_neg hkill, if_neg hkill]
  by_cases hredraw : ch.toLower = '\x0c' ∨ ch.toLower = '\x12'
  · rw [if_pos hredraw, if_pos hredraw]
    exact ⟨_, rfl, h.redraw hhist⟩
  · rw [if_neg hredraw, if_neg hredraw]
    exact ⟨_, rfl, h⟩

/-! ## All keys -/

theorem readKeys_spec (h : Follows n scr st e) (hhist : Letters hist) (keys : List Char) :
    ∃ out, readKeys n hist cc st keys = some (out, (e.keys n hist cc keys).2) ∧
      Agree n scr out (e.keys n hist cc keys).1 := by
  induction keys generalizing st e with
  | nil => exact ⟨_, rfl, h⟩
  | cons ch keys ih =>
    have hkey : ∃ out, pressed n hist cc st ch = some out ∧ Agree n scr out (e.press n hist cc ch) :=
      pressed_spec h hhist ch
    obtain ⟨out, hout, hagree⟩ := hkey
    rw [readKeys, hout, Option.bind_some, Editor.keys]
    rcases hpress : e.press n hist cc ch with ⟨e', how⟩
    rw [hpress] at hagree
    cases out with
    | next st' =>
      cases how with
      | none => exact ih hagree
      | some how => cases how <;> exact hagree.elim
    | stop rc st' =>
      cases how with
      | none => exact hagree.elim
      | some how => exact ⟨_, rfl, hagree⟩
    | quit st' =>
      cases how with
      | none => exact hagree.elim
      | some how => exact ⟨_, rfl, hagree⟩

/-- at the start of a line -/
theorem follows_start {bf : Str} {first : Char} (hroom : n < bf.length) (hfirst : bf.head? = some first)
    {lines : List Str} (h : Shows scr lines []) : Follows n scr ⟨0, bf, ['?']⟩ ⟨[], first, lines⟩ where
  fits := Nat.zero_le n
  lower := List.forall_mem_nil _
  cursor := rfl
  room := hroom
  buffer := List.nil_prefix
  first := hfirst
  shows := h.text (List.forall_mem_singleton.2 printable_question)

theorem Follows.erase_question (h : Follows n scr st e) :
    Shows (scr.feed st.erase_question.out) e.lines (' ' :: e.typed) := by
  have hlen : st.i + 1 = ('?' :: e.typed).length := by rw [List.length_cons, h.cursor]
  have hshows : Shows (scr.feed st.out) e.lines ([] ++ '?' :: e.typed) := h.shows
  rw [Editing.erase_question, Editing.puts, feed_append, h.take, hlen]
  exact hshows.rewrite (List.forall_mem_cons.2 ⟨printable_space, printable_typed h⟩) rfl

/-- What is returned for how typing ended. A word is `n` letters, which the buffer ends with a NUL behind and the screen
shows without the question mark. -/
def Returned (n : ℕ) (scr : Screen) (e : Editor) (r : Reading) : Option Typed → Prop
  | some .word =>
    r.rc = 0 ∧ (∃ guess : Guess n, guess.word = e.typed) ∧ r.bf.take (n + 1) = e.typed ++ ['\x00'] ∧
      Shows (scr.feed r.out) e.lines (' ' :: e.typed)
  | some .quit => r.rc = 1 ∧ Shows (scr.feed r.out) e.lines []
  | _ => r.rc = 1 ∧ Shows (scr.feed r.out) e.lines (' ' :: e.typed)

theorem returned_of_agree {outcome : Outcome} {how : Option Typed} (h : Agree n scr outcome (e, how))
    (keys : List Char) :
    (outcome.reading keys).bf.head? = some e.first ∧ Returned n scr e (outcome.reading keys) how := by
  cases outcome with
  | next st =>
    cases how with
    | none => exact ⟨h.first, rfl, h.erase_question⟩
    | some how => cases how <;> exact h.elim
  | stop rc st =>
    cases how with
    | none => exact h.elim
    | some how =>
      cases how with
      | word =>
        obtain ⟨rfl, hfollows, hlen, htake⟩ := h
        exact ⟨hfollows.first, rfl, ⟨⟨e.typed, hlen, hfollows.lower⟩, rfl⟩, htake, hfollows.erase_question⟩
      | eof => exact ⟨h.2.first, h.1, h.2.erase_question⟩
      | quit => exact h.elim
  | quit st =>
    cases how with
    | none => exact h.elim
    | some how =>
      cases how with
      | quit => exact ⟨h.1, rfl, h.2⟩
      | word => exact h.elim
      | eof => exact h.elim

theorem readword_spec {bf : Str} {first : Char} {lines : List Str} (hroom : n < bf.length)
    (hfirst : bf.head? = some first) (hhist : Letters hist) (hscr : Shows scr lines []) (keys : List Char) :
    ∃ r, readword n hist cc bf keys = some r ∧ r.keys = ((Editor.mk [] first lines).keys n hist cc keys).2 ∧
      r.bf.head? = some ((Editor.mk [] first lines).keys n hist cc keys).1.1.first ∧
      Returned n scr ((Editor.mk [] first lines).keys n hist cc keys).1.1 r
        ((Editor.mk [] first lines).keys n hist cc keys).1.2 := by
  have hloop : ∃ out, readKeys n hist cc ⟨0, bf, ['?']⟩ keys =
      some (out, ((Editor.mk [] first lines).keys n hist cc keys).2) ∧
      Agree n scr out ((Editor.mk [] first lines).keys n hist cc keys).1 :=
    readKeys_spec (follows_start hroom hfirst hscr) hhist keys
  obtain ⟨out, hout, hagree⟩ := hloop
  obtain ⟨hhead, hreturned⟩ := returned_of_agree hagree ((Editor.mk [] first lines).keys n hist cc keys).2
  refine ⟨out.reading ((Editor.mk [] first lines).keys n hist cc keys).2, ?_, ?_, hhead, hreturned⟩
  · rw [readword, hout, Option.map_some]
  · cases out <;> rfl

/-- the editor wants more keys only behind all of them -/
theorem Editor.keys_rest {keys : List Char} (h : (e.keys n hist cc keys).1.2 = none) :
    (e.keys n hist cc keys).2 = [] := by
  induction keys generalizing e with
  | nil => rfl
  | cons ch keys ih =>
    rw [Editor.keys] at h ⊢
    rcases hpress : e.press n hist cc ch with ⟨e', how⟩
    rw [hpress] at h
    cases how with
    | none => exact ih h
    | some how => cases h

/-- they differ in the lines above at most -/
def Editor.Alike (e e' : Editor) : Prop := e'.typed = e.typed ∧ e'.first = e.first

/-- the history is only shown -/
theorem Editor.Alike.press {e e' : Editor} (h : e.Alike e') (n : ℕ) (hist hist' : List Hist) (cc : Cc) (ch : Char) :
    (e.press n hist cc ch).1.Alike (e'.press n hist' cc ch).1 ∧
      (e'.press n hist' cc ch).2 = (e.press n hist cc ch).2 := by
  obtain ⟨typed, first, lines⟩ := e
  obtain ⟨typed', first', lines'⟩ := e'
  obtain ⟨rfl, rfl⟩ : typed' = typed ∧ first' = first := h
  unfold Editor.press
  dsimp only
  split_ifs
  all_goals exact ⟨⟨rfl, rfl⟩, rfl⟩

/-- the first word is what the editor ends with, and the others are typed with the keys that are left -/
theorem Editor.words_keys (n : ℕ) (hist : List Hist) (cc : Cc) {e e' : Editor} (h : e.Alike e') (keys : List Char) :
    e'.words n cc keys =
      if (e.keys n hist cc keys).1.2 = some .word then
        (e.keys n hist cc keys).1.1.typed ::
          (Editor.mk [] (e.keys n hist cc keys).1.1.first []).words n cc (e.keys n hist cc keys).2
      else [] := by
  induction keys generalizing e e' with
  | nil => rfl
  | cons ch keys ih =>
    obtain ⟨halike, hhow⟩ := h.press n hist [] cc ch
    rw [Editor.words, Editor.keys]
    rcases hpress : e.press n hist cc ch with ⟨e₁, how⟩
    rcases hpress' : e'.press n [] cc ch with ⟨e₁', how'⟩
    rw [hpress, hpress'] at halike hhow
    obtain rfl : how' = how := hhow
    obtain ⟨htyped, hfirst⟩ : e₁.Alike e₁' := halike
    cases how' with
    | none => exact ih ⟨htyped, hfirst⟩
    | some how =>
      cases how with
      | word =>
        dsimp only
        rw [if_pos rfl, htyped, hfirst]
      | eof => rfl
      | quit => rfl

/-- **The player sees what is typed.** On a buffer of more than `n` characters, as long as typing goes on the screen
shows the question mark and the text of the editor, with the cursor behind it; and what is returned is what the
editor ends with. -/
theorem readword_follows (n : ℕ) (hist : List Hist) (cc : Cc) {bf : Str} {first : Char}
    {scr : Screen} {lines : List Str}
    (hroom : n < bf.length) (hfirst : bf.head? = some first) (hhist : Letters hist) (hscr : Shows scr lines [])
    (keys : List Char) :
    (∀ typed, typed <+: keys → ((Editor.mk [] first lines).keys n hist cc typed).1.2 = none →
      ∃ st, readKeys n hist cc ⟨0, bf, ['?']⟩ typed = some (.next st, []) ∧
        Shows (scr.feed st.out) ((Editor.mk [] first lines).keys n hist cc typed).1.1.lines
          ('?' :: ((Editor.mk [] first lines).keys n hist cc typed).1.1.typed)) ∧
    ∃ r, readword n hist cc bf keys = some r ∧ r.keys = ((Editor.mk [] first lines).keys n hist cc keys).2 ∧
      Returned n scr ((Editor.mk [] first lines).keys n hist cc keys).1.1 r
        ((Editor.mk [] first lines).keys n hist cc keys).1.2 := by
  refine ⟨fun typed _ hgoing => ?_, ?_⟩
  · have hloop : ∃ out, readKeys n hist cc ⟨0, bf, ['?']⟩ typed =
        some (out, ((Editor.mk [] first lines).keys n hist cc typed).2) ∧
        Agree n scr out ((Editor.mk [] first lines).keys n hist cc typed).1 :=
      readKeys_spec (follows_start hroom hfirst hscr) hhist typed
    obtain ⟨out, hout, hagree⟩ := hloop
    rw [Editor.keys_rest hgoing] at hout
    rw [← Prod.mk.eta (p := ((Editor.mk [] first lines).keys n hist cc typed).1), hgoing] at hagree
    cases out with
    | next st => exact ⟨st, hout, hagree.shows⟩
    | stop rc st => exact hagree.elim
    | quit st => exact hagree.elim
  · obtain ⟨r, hr, hkeys, -, hreturned⟩ := readword_spec hroom hfirst hhist hscr keys
    exact ⟨r, hr, hkeys, hreturned⟩

/-- a letter is rubbed out before the word is ended -/
theorem rubbed_follows :
    ∃ r, readword 2 [] ⟨'\x04', '\x7f', '\x15', '\x17'⟩ [' ', ' ', ' '] "Ax\x7fb\n".toList = some r ∧
    r.rc = 0 ∧ Shows (blank.feed r.out) [] " ab".toList := by
  obtain ⟨-, r, hr, -, hreturned⟩ :=
    readword_follows 2 [] ⟨'\x04', '\x7f', '\x15', '\x17'⟩ (by decide : 2 < [' ', ' ', ' '].length)
    rfl (List.forall_mem_nil _) shows_blank "Ax\x7fb\n".toList
  have hkeys : (Editor.mk [] ' ' []).keys 2 [] ⟨'\x04', '\x7f', '\x15', '\x17'⟩ "Ax\x7fb\n".toList =
      ((⟨"ab".toList, 'a', []⟩, some .word), []) := by decide
  rw [hkeys] at hreturned
  exact ⟨r, hr, hreturned.1, hreturned.2.2.2⟩

end MNetSoft.Games.Letter
