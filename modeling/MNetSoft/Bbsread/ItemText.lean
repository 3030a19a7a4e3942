/-
The text that `dispitem` prints of an item file whose lines of text have any length. A line that does not fit into the
buffer is read in pieces, and each of them is taken for a line: a blank is printed in front of it, the comma that it may
start with is removed, and what looks like a control line is one.

A line to be printed that does not fit never comes out right, whatever is behind it: the first character after its first
piece that is not a blank has a blank too many in front of it, or is missing. What a piece of another line does that
looks like a control line depends on all that follows.
- `not_emits_rest`, `emits_lines`: when lines that are printed come out right.
- `dispLoop_tail_hidden`, `dispLoop_tail_shown`: which lines of a section are printed.
- `text_right_iff`: when the text of an item comes out right.
- `long_line`: a long line, one in a scribbled response, and a range that ends in front of the item text.
-/
import Mathlib.Tactic
import MNetSoft.Core.Pieces
import MNetSoft.Bbsread.Item

namespace MNetSoft.Bbsread

open MNetSoft.CString

/-! ## Files -/

/-- a line with its newline -/
def IsLine (l : Str) : Prop := ∃ t, '\n' ∉ t ∧ '\x00' ∉ t ∧ l = t ++ ['\n']

/-- an item whose strings are lines; those of the headings fit into the buffer -/
structure ItemFile where
  item : Item
  lines : ∀ l ∈ item.lines, IsLine l
  title_lt : item.title.length + 3 < BFSZ
  head_lt : ∀ s ∈ item.text :: item.resps, ∀ l ∈ s.head, l.length < BFSZ

def ItemFile.file (i : ItemFile) : Str := i.item.lines.flatten

/-! ## What is claimed -/

/-- the line without the comma that protects it -/
def plain : Str → Str
  | ',' :: ':' :: s => s
  | ',' :: ',' :: s => ',' :: s
  | s => s

/-- scribbled: `,R0003` -/
def Section.Scribbled (s : Section) : Prop := s.flags[3]? = some '3'

instance : DecidablePred Section.Scribbled := fun s => inferInstanceAs (Decidable (s.flags[3]? = some '3'))

/-- the lines of the version that is asked for, if there is one -/
def Section.version (c : Call) (s : Section) : List Str := if c.prefer_html && !s.html.isEmpty then s.html else s.body

/-- the lines of the other one -/
def Section.other (c : Call) (s : Section) : List Str := if c.prefer_html && !s.html.isEmpty then s.body else s.html

/-- lines as they are to be printed -/
def printed (ls : List Str) : Str := ls.flatMap fun l => ' ' :: plain l

/-- the number is in the range -/
def Call.Spans (c : Call) (j : ℤ) : Prop := c.first_resp ≤ j ∧ j ≤ c.last

instance (c : Call) : DecidablePred c.Spans := fun j => inferInstanceAs (Decidable (c.first_resp ≤ j ∧ j ≤ c.last))

/-- the text of the sections in the range that are not scribbled, from the section `j` on -/
def expected (c : Call) : ℤ → List Section → Str
  | _, [] => []
  | j, s :: ss => (if c.Spans j ∧ ¬s.Scribbled then printed (s.version c) else []) ++ expected c (j + 1) ss

/-- what an event prints of the text -/
def Event.emitted : Event → Str
  | .text s => ' ' :: s
  | _ => []

def emitted (out : List Event) : Str := out.flatMap Event.emitted

/-- the text printed is what is expected; where only the header is asked for, there is none -/
def TextRight (c : Call) (i : ItemFile) : Prop :=
  ∃ r out, dispitem c (fgetsAll BFSZ i.file) = some (r, out) ∧
    emitted out = if c.show_header = 2 then [] else expected c 0 (i.item.text :: i.item.resps)

/-- the property of the sections and their numbers, from the section `j` on -/
def Each (P : ℤ → Section → Prop) : ℤ → List Section → Prop
  | _, [] => True
  | j, s :: ss => P j s ∧ Each P (j + 1) ss

/-- the lines that are printed fit into the buffer, and so they should be printed: the item text is printed whatever the
end of the range -/
def Fits (c : Call) (j : ℤ) (s : Section) : Prop :=
  c.Shows j → ¬s.Scribbled → ∀ l ∈ s.version c, j ≤ c.last ∧ l.length < BFSZ

/-- no piece of the line but the first looks like a control line -/
def QuietLine (l : Str) : Prop := ∀ p ∈ (fgetsAll BFSZ l).tail, IsText p

/-- the lines that are not printed are quiet -/
def Quiet (c : Call) (j : ℤ) (s : Section) : Prop :=
  ((c.Shows j ∧ ¬s.Scribbled) ∨ ∀ l ∈ s.version c, QuietLine l) ∧ ∀ l ∈ s.other c, QuietLine l

/-! ## Pieces of a line -/

section Lines

variable {n : ℕ} {t l : Str}

theorem fgetsAll_fits (hn : 2 ≤ n) (ht : '\n' ∉ t) (hlen : t.length + 1 < n) :
    fgetsAll n (t ++ ['\n']) = [t ++ ['\n']] := by
  rw [fgetsAll_cons hn (fgets_line ht hlen []), fgetsAll_nil]

theorem fgetsAll_cut (hn : 2 ≤ n) (ht : '\n' ∉ t) (hlen : n ≤ t.length + 1) :
    fgetsAll n (t ++ ['\n']) = t.take (n - 1) :: fgetsAll n (t.drop (n - 1) ++ ['\n']) := by
  have hpiece : Piece n (t.take (n - 1)) :=
    .inr ⟨fun h => ht (List.mem_of_mem_take h), List.length_take_of_le (by omega)⟩
  have hget := fgets_piece hn hpiece (t.drop (n - 1) ++ ['\n'])
  rw [← List.append_assoc, List.take_append_drop] at hget
  exact fgetsAll_cons hn hget

/-- the first piece of a line of text is text -/
theorem isText_take {k : ℕ} (hk : 2 ≤ k) (hl : IsText l) : IsText (l.take k) := by
  obtain ⟨k, rfl⟩ := Nat.exists_eq_add_of_le' hk
  match l with
  | [] => exact hl
  | [c] => exact hl
  | c :: c' :: l => exact hl

theorem plain_take {k : ℕ} (hk : 2 ≤ k) (hl : IsText l) : plain l = plain (l.take k) ++ l.drop k := by
  obtain ⟨k, rfl⟩ := Nat.exists_eq_add_of_le' hk
  match l with
  | [] => rfl
  | [c] => simp [plain]
  | c :: c' :: l =>
    by_cases hc : c = ','
    · subst hc
      rcases hl rfl with rfl | rfl
      · simp [plain]
      · simp [plain]
    · simp [plain, hc]

end Lines

/-! ## What is emitted -/

section Emitted

variable {c : Call} {d d' : Disp} {l l' ls : List Str} {e s : Str}

theorem emitted_append (out out' : List Event) : emitted (out ++ out') = emitted out ++ emitted out' :=
  List.flatMap_append

/-- what is emitted begins with a blank -/
theorem emitted_head (out : List Event) : emitted out = [] ∨ ∃ e, emitted out = ' ' :: e := by
  induction out with
  | nil => exact .inl rfl
  | cons ev out ih =>
    cases ev with
    | text s => exact .inr ⟨s ++ emitted out, rfl⟩
    | _ => exact ih

theorem dispLine_isText (hs : IsText s) (d : Disp) : dispLine c s d = .more (putText (plain s) d) := by
  match s with
  | [] => exact hs.elim
  | [k] =>
    have hk : k ≠ ',' := hs
    unfold dispLine
    split <;> simp_all [plain]
  | k :: k' :: rest =>
    by_cases hk : k = ','
    · subst hk
      rcases hs rfl with rfl | rfl
      · rfl
      · rfl
    · unfold dispLine
      split <;> simp_all [plain]

/-- the events so far stay -/
def Next.Extends (d : Disp) : Next → Prop
  | .more d' => d.out <+: d'.out
  | .header d' => d.out <+: d'.out
  | .weird => True

theorem endResp_extends (c : Call) (d : Disp) : d.out <+: (endResp c d).out := by
  simp only [endResp]
  split_ifs
  all_goals first
    | exact List.prefix_append _ _
    | exact List.prefix_rfl

theorem putText_extends (s : Str) (d : Disp) : d.out <+: (putText s d).out := by
  rw [putText]
  split_ifs
  · exact List.prefix_append _ _
  · exact List.prefix_rfl

theorem dateLine_extends (c : Call) (rest : Str) (d : Disp) : (dateLine c rest d).Extends d := by
  simp only [dateLine]
  split_ifs
  all_goals first
    | exact List.prefix_append _ _
    | exact List.prefix_rfl
    | exact (List.prefix_append _ _).trans (List.prefix_append _ _)

theorem dispLine_extends (c : Call) (buf : Str) (d : Disp) : (dispLine c buf d).Extends d := by
  unfold dispLine
  split
  · split_ifs
    all_goals first
      | exact List.prefix_rfl
      | exact trivial
      | exact dateLine_extends c _ d
      | exact endResp_extends c _
      | exact putText_extends _ d
      | skip
    · split
      · exact trivial
      · exact List.prefix_rfl
    · dsimp only
      split_ifs
      · exact List.prefix_rfl
      · exact endResp_extends c { d with scribbled := _ }
  · exact trivial
  · exact putText_extends _ d

/-- **The loop** only adds events. -/
theorem dispLoop_out (l : List Str) (d : Disp) {r : ℤ} {out : List Event} (h : dispLoop c l d = some (r, out)) :
    d.out <+: out := by
  induction l generalizing d with
  | nil =>
    cases h
    exact List.prefix_rfl
  | cons buf l ih =>
    have hline := dispLine_extends c buf d
    rw [dispLoop] at h
    cases hd : dispLine c buf d with
    | more d' =>
      rw [hd] at h hline
      exact hline.trans (ih d' h)
    | header d' =>
      rw [hd] at h hline
      cases h
      exact hline
    | weird =>
      rw [hd] at h
      cases h

/-- from here on the loop emits the text -/
structure Emits (c : Call) (l : List Str) (d : Disp) (e : Str) : Prop where
  run : ∃ r out, dispLoop c l d = some (r, out) ∧ emitted out = emitted d.out ++ e

/-- what the loop emits begins with a blank -/
theorem Emits.head (h : Emits c l d e) : e = [] ∨ ∃ e', e = ' ' :: e' := by
  obtain ⟨r, out, hloop, hout⟩ := h.run
  obtain ⟨out', rfl⟩ := dispLoop_out l d hloop
  rw [emitted_append] at hout
  rw [← List.append_cancel_left hout]
  exact emitted_head out'

theorem emits_congr (hloop : dispLoop c l d = dispLoop c l' d') (hout : emitted d.out = emitted d'.out) (e : Str) :
    Emits c l d e ↔ Emits c l' d' e := by
  constructor
  · intro ⟨r, out, h, h'⟩
    exact ⟨r, out, hloop ▸ h, hout ▸ h'⟩
  · intro ⟨r, out, h, h'⟩
    exact ⟨r, out, hloop ▸ h, hout ▸ h'⟩

/-- the text is being printed -/
structure Disp.Showing (d : Disp) : Prop where
  printing : d.printing = true
  scribbled : d.scribbled = false
  thisversion : d.thisversion = true

/-- lines have been printed -/
def Disp.put (ls : List Str) (d : Disp) : Disp :=
  { d with out := d.out ++ ls.map fun l => .text (plain l), gotversion := d.gotversion || !ls.isEmpty }

theorem Disp.Showing.put (h : d.Showing) (ls : List Str) : (d.put ls).Showing := ⟨h.1, h.2, h.3⟩

theorem emitted_put (ls : List Str) (d : Disp) : emitted (d.put ls).out = emitted d.out ++ printed ls := by
  rw [Disp.put, emitted_append]
  congr 1
  induction ls with
  | nil => rfl
  | cons l ls ih => exact congrArg (' ' :: plain l ++ ·) ih

theorem put_put (ls ls' : List Str) (d : Disp) : (d.put ls).put ls' = d.put (ls ++ ls') := by
  simp [Disp.put, List.append_assoc, Bool.or_assoc]
  cases ls <;> simp

theorem dispLine_shown (hd : d.Showing) (hs : IsText s) : dispLine c s d = .more (d.put [s]) := by
  rw [dispLine_isText hs, putText, if_pos ⟨hd.1, by simp [hd.2], hd.3⟩]
  simp [Disp.put]

theorem dispLine_hidden (hd : ¬d.Showing) (hs : IsText s) : dispLine c s d = .more d := by
  rw [dispLine_isText hs, putText, if_neg]
  intro ⟨hp, hscr, ht⟩
  exact hd ⟨hp, by simpa using hscr, ht⟩

/-- a string that is printed -/
theorem emits_shown (hd : d.Showing) (hs : IsText s) :
    Emits c (s :: l) d e ↔ ∃ e', e = ' ' :: plain s ++ e' ∧ Emits c l (d.put [s]) e' := by
  have hloop : dispLoop c (s :: l) d = dispLoop c l (d.put [s]) := dispLoop_more (dispLine_shown hd hs) l
  have hput : emitted (d.put [s]).out = emitted d.out ++ ' ' :: plain s := by
    rw [emitted_put]
    simp [printed]
  constructor
  · intro ⟨r, out, h, hout⟩
    rw [hloop] at h
    obtain ⟨out', rfl⟩ := dispLoop_out l _ h
    rw [emitted_append, hput, List.append_assoc] at hout
    exact ⟨emitted out', (List.append_cancel_left hout).symm, r, _, h, emitted_append _ _⟩
  · intro ⟨e', he, r, out, h, hout⟩
    exact ⟨r, out, hloop.trans h, by rw [hout, hput, he, List.append_assoc]⟩

end Emitted

/-! ## Lines of text -/

section Text

variable {c : Call} {d : Disp} {l ls : List Str} {e s t : Str}

theorem isText_of_ne {x : Char} (hx : x ≠ ',') (s : Str) : IsText (x :: s) := by
  cases s with
  | nil => exact hx
  | cons y s => exact fun h => absurd h hx

theorem plain_of_ne {x : Char} (hx : x ≠ ',') (s : Str) : plain (x :: s) = x :: s := by
  match s with
  | [] => simp [plain]
  | y :: s => simp [plain, hx]

theorem ne_of_blanks {j : ℕ} {x : Char} (hx : x ≠ ' ') (e e' : Str) :
    List.replicate j ' ' ++ x :: e ≠ ' ' :: List.replicate j ' ' ++ e' := by
  intro h
  rw [← List.replicate_succ, List.replicate_succ', List.append_assoc, List.singleton_append] at h
  exact hx (List.cons.inj (List.append_cancel_left h)).1

/-- **What follows a first piece** does not come out: there is a blank too many in front of it, or something is left
out. -/
theorem not_emits_rest (hd : d.Showing) (ht : '\n' ∉ t) {j : ℕ} (hj : List.replicate j ' ' <+: t) {x : Char}
    (hx : x ≠ ' ') (e : Str) :
    ¬Emits c (fgetsAll BFSZ (t ++ ['\n']) ++ l) d (List.replicate j ' ' ++ x :: e) := by
  induction h : t.length using Nat.strong_induction_on generalizing t d j with
  | _ m ih =>
    subst h
    cases j with
    | zero =>
      intro h
      rcases h.head with h | ⟨e', h⟩
      · cases h
      · exact hx (List.cons.inj h).1
    | succ j =>
      obtain ⟨u, rfl⟩ := hj
      have hn : 2 ≤ BFSZ := by decide
      have htext (k : ℕ) (v : Str) : IsText (List.replicate (k + 1) ' ' ++ v) := isText_of_ne (by decide) _
      have hplain (k : ℕ) (v : Str) : plain (List.replicate (k + 1) ' ' ++ v) = List.replicate (k + 1) ' ' ++ v :=
        plain_of_ne (by decide) _
      by_cases hlen : (List.replicate (j + 1) ' ' ++ u).length + 1 < BFSZ
      · rw [fgetsAll_fits hn ht hlen, List.singleton_append, List.append_assoc, emits_shown hd (htext _ _), hplain]
        intro ⟨e', he, _⟩
        rw [List.cons_append, List.append_assoc] at he
        exact ne_of_blanks hx _ _ he
      · rw [fgetsAll_cut hn ht (by omega), List.cons_append]
        by_cases hj : j + 1 ≤ BFSZ - 1
        · -- the first character that is not a blank may be in this piece
          have htake : (List.replicate (j + 1) ' ' ++ u).take (BFSZ - 1) =
              List.replicate (j + 1) ' ' ++ u.take (BFSZ - 1 - (j + 1)) := by
            rw [List.take_append, List.length_replicate, List.take_of_length_le (by rwa [List.length_replicate])]
          rw [htake, emits_shown hd (htext _ _), hplain]
          intro ⟨e', he, _⟩
          rw [List.cons_append, List.append_assoc] at he
          exact ne_of_blanks hx _ _ he
        · -- the piece is blank, and what remains has as many blanks less than before
          obtain ⟨k, rfl⟩ : ∃ k, j = BFSZ - 1 + k := ⟨j - (BFSZ - 1), by omega⟩
          have hsplit : List.replicate (BFSZ - 1 + k + 1) ' ' ++ u =
              List.replicate (BFSZ - 1) ' ' ++ (List.replicate (k + 1) ' ' ++ u) := by
            rw [add_assoc, List.replicate_add, List.append_assoc]
          have hlength : (List.replicate (BFSZ - 1) ' ').length = BFSZ - 1 := List.length_replicate
          rw [hsplit] at ht ih ⊢
          rw [List.take_left' hlength, List.drop_left' hlength]
          have hshown := emits_shown (c := c) (s := List.replicate (BFSZ - 1) ' ')
            (l := fgetsAll BFSZ (List.replicate (k + 1) ' ' ++ u ++ ['\n']) ++ l)
            (e := List.replicate (BFSZ - 1 + k + 1) ' ' ++ x :: e) hd (isText_of_ne (by decide) _)
          rw [hshown]
          intro ⟨e', he, hemits⟩
          have hblank : plain (List.replicate (BFSZ - 1) ' ') = List.replicate (BFSZ - 1) ' ' :=
            plain_of_ne (by decide) _
          have he' : e' = List.replicate k ' ' ++ x :: e := by
            rw [hblank, ← List.replicate_succ, add_right_comm, List.replicate_add, List.append_assoc] at he
            exact (List.append_cancel_left he).symm
          subst he'
          have hpos : 0 < BFSZ - 1 := by decide
          have hshorter : (List.replicate (k + 1) ' ' ++ u).length <
              (List.replicate (BFSZ - 1) ' ' ++ (List.replicate (k + 1) ' ' ++ u)).length := by
            have hsum : (List.replicate (BFSZ - 1) ' ' ++ (List.replicate (k + 1) ' ' ++ u)).length =
                (List.replicate (BFSZ - 1) ' ').length + (List.replicate (k + 1) ' ' ++ u).length := List.length_append
            rw [hsum, hlength]
            omega
          have hblanks : List.replicate k ' ' <+: List.replicate (k + 1) ' ' ++ u := by
            rw [List.replicate_succ', List.append_assoc]
            exact List.prefix_append _ _
          exact ih _ hshorter (hd.put _) (fun h => ht (List.mem_append_right _ h)) hblanks rfl hemits

/-- the blanks that a line begins with -/
theorem exists_blanks (t : Str) :
    ∃ j x u, x ≠ ' ' ∧ List.replicate j ' ' <+: t ∧ t ++ ['\n'] = List.replicate j ' ' ++ x :: u := by
  induction t with
  | nil => exact ⟨0, '\n', [], by decide, List.nil_prefix, rfl⟩
  | cons y t ih =>
    by_cases hy : y = ' '
    · obtain ⟨j, x, u, hx, hj, ht⟩ := ih
      refine ⟨j + 1, x, u, hx, ?_, ?_⟩
      · rw [List.replicate_succ, hy]
        exact (List.prefix_cons_inj ' ').2 hj
      · rw [List.cons_append, ht, hy]
        rfl
    · exact ⟨0, y, t ++ ['\n'], hy, List.nil_prefix, rfl⟩

/-- the pieces of a quiet line -/
theorem isText_pieces (hline : IsLine s) (hs : IsText s) (hquiet : QuietLine s) : ∀ p ∈ fgetsAll BFSZ s, IsText p := by
  obtain ⟨t, ht, -, rfl⟩ := hline
  have hn : 2 ≤ BFSZ := by decide
  by_cases hlen : t.length + 1 < BFSZ
  · rw [fgetsAll_fits hn ht hlen]
    exact List.forall_mem_singleton.2 hs
  · have htake : (t ++ ['\n']).take (BFSZ - 1) = t.take (BFSZ - 1) := List.take_append_of_le_length (by omega)
    have hfirst := isText_take (k := BFSZ - 1) (by decide) hs
    rw [QuietLine, fgetsAll_cut hn ht (by omega)] at hquiet
    rw [htake] at hfirst
    rw [fgetsAll_cut hn ht (by omega)]
    exact List.forall_mem_cons.2 ⟨hfirst, hquiet⟩

/-- a line is read in one piece, or not printed as it should be -/
theorem emits_line (hd : d.Showing) (hline : IsLine s) (hs : IsText s) :
    Emits c (fgetsAll BFSZ s ++ l) d (' ' :: plain s ++ e) ↔ s.length < BFSZ ∧ Emits c l (d.put [s]) e := by
  obtain ⟨t, ht, -, rfl⟩ := hline
  have hn : 2 ≤ BFSZ := by decide
  have hlength : (t ++ ['\n']).length = t.length + 1 := List.length_append
  rw [hlength]
  by_cases hlen : t.length + 1 < BFSZ
  · rw [fgetsAll_fits hn ht hlen, List.singleton_append, emits_shown hd hs, and_iff_right hlen]
    constructor
    · intro ⟨e', he, h⟩
      rw [List.append_cancel_left he]
      exact h
    · exact fun h => ⟨e, rfl, h⟩
  · refine iff_of_false ?_ fun h => hlen h.1
    have htake : (t ++ ['\n']).take (BFSZ - 1) = t.take (BFSZ - 1) := List.take_append_of_le_length (by omega)
    have hdrop : (t ++ ['\n']).drop (BFSZ - 1) = t.drop (BFSZ - 1) ++ ['\n'] := List.drop_append_of_le_length (by omega)
    have hfirst := isText_take (k := BFSZ - 1) (by decide) hs
    rw [plain_take (k := BFSZ - 1) (by decide) hs, htake, hdrop, fgetsAll_cut hn ht (by omega), List.cons_append]
    rw [htake] at hfirst
    rw [emits_shown hd hfirst]
    intro ⟨e', he, h⟩
    obtain ⟨j, x, u, hx, hj, hrest⟩ := exists_blanks (t.drop (BFSZ - 1))
    have he' : e' = List.replicate j ' ' ++ x :: (u ++ e) := by
      rw [List.cons_append, List.cons_append, List.append_assoc, hrest] at he
      have hcancel := List.append_cancel_left (List.cons.inj he).2
      rw [← hcancel, List.append_assoc, List.cons_append]
    subst he'
    exact not_emits_rest (hd.put _) (fun h => ht (List.mem_of_mem_drop h)) hj hx _ h

/-- lines that are printed -/
theorem emits_lines (hd : d.Showing) (hline : ∀ s ∈ ls, IsLine s) (hs : ∀ s ∈ ls, IsText s) :
    Emits c (ls.flatMap (fgetsAll BFSZ) ++ l) d (printed ls ++ e) ↔
      (∀ s ∈ ls, s.length < BFSZ) ∧ Emits c l (d.put ls) e := by
  induction ls generalizing d with
  | nil =>
    have hput : emitted (d.put []).out = emitted d.out := (emitted_put [] d).trans (List.append_nil _)
    have hloop : dispLoop c l d = dispLoop c l (d.put []) := by simp [Disp.put]
    rw [and_iff_right (by simp), ← emits_congr hloop hput.symm]
    rfl
  | cons s ls ih =>
    obtain ⟨hline₁, hline⟩ := List.forall_mem_cons.1 hline
    obtain ⟨hs₁, hs⟩ := List.forall_mem_cons.1 hs
    have hprinted : printed (s :: ls) = ' ' :: plain s ++ printed ls := rfl
    rw [List.flatMap_cons, List.append_assoc, hprinted, List.append_assoc, emits_line hd hline₁ hs₁,
      ih (hd.put [s]) hline hs, put_put, List.forall_mem_cons, and_assoc]
    rfl

/-- a line that is printed leaves a blank at least -/
theorem not_emits_nil (hd : d.Showing) (hline : IsLine s) (hs : IsText s) : ¬Emits c (fgetsAll BFSZ s ++ l) d [] := by
  obtain ⟨t, ht, -, rfl⟩ := hline
  have hn : 2 ≤ BFSZ := by decide
  by_cases hlen : t.length + 1 < BFSZ
  · rw [fgetsAll_fits hn ht hlen, List.singleton_append, emits_shown hd hs]
    intro ⟨e', he, _⟩
    cases he
  · have htake : (t ++ ['\n']).take (BFSZ - 1) = t.take (BFSZ - 1) := List.take_append_of_le_length (by omega)
    have hfirst := isText_take (k := BFSZ - 1) (by decide) hs
    rw [htake] at hfirst
    rw [fgetsAll_cut hn ht (by omega), List.cons_append, emits_shown hd hfirst]
    intro ⟨e', he, _⟩
    cases he

/-- lines that are not printed -/
theorem dispLoop_hidden (hd : ¬d.Showing) (hline : ∀ s ∈ ls, IsLine s) (hs : ∀ s ∈ ls, IsText s)
    (hquiet : ∀ s ∈ ls, QuietLine s) (l : List Str) :
    dispLoop c (ls.flatMap (fgetsAll BFSZ) ++ l) d = dispLoop c l d := by
  have hpieces (ps l : List Str) (hps : ∀ p ∈ ps, IsText p) : dispLoop c (ps ++ l) d = dispLoop c l d := by
    induction ps with
    | nil => rfl
    | cons p ps ih =>
      obtain ⟨hp, hps⟩ := List.forall_mem_cons.1 hps
      rw [List.cons_append, dispLoop_more (dispLine_hidden hd hp), ih hps]
  induction ls with
  | nil => rfl
  | cons s ls ih =>
    obtain ⟨hline₁, hline⟩ := List.forall_mem_cons.1 hline
    obtain ⟨hs₁, hs⟩ := List.forall_mem_cons.1 hs
    obtain ⟨hquiet₁, hquiet⟩ := List.forall_mem_cons.1 hquiet
    rw [List.flatMap_cons, List.append_assoc, hpieces _ _ (isText_pieces hline₁ hs₁ hquiet₁), ih hline hs hquiet]

end Text

/-! ## Sections -/

section Sections

variable {c : Call} {d : Disp} {j : ℤ} {s : Section}

/-- a section is being read, and its text comes next -/
structure Disp.Before (c : Call) (j : ℤ) (s : Section) (d : Disp) : Prop where
  resp : d.resp = j
  printing : d.printing = decide (c.Shows j)
  scribbled : d.scribbled = decide s.Scribbled
  version : c.Shows j → d.thisversion = c.prefer_html ∧ d.gotversion = false

theorem scribbled_flags (s : Section) : ((s.flags ++ ['\n'])[3]? == some '3') = decide s.Scribbled := by
  rw [List.getElem?_append_left s.flags_le, Bool.eq_iff_iff, beq_iff_eq, decide_eq_true_eq]
  rfl

theorem emitted_endResp (c : Call) (d : Disp) : emitted (endResp c d).out = emitted d.out := by
  simp only [endResp]
  split_ifs
  all_goals first
    | rfl
    | exact (emitted_append _ _).trans (List.append_nil _)

/-- the head of a response -/
theorem dispLoop_head (hj : 0 < j) (hd : d.Ready c j) (s : Section) (l : List Str) :
    ∃ d', dispLoop c (s.head ++ l) d = dispLoop c l d' ∧ d'.Before c j s ∧ emitted d'.out = emitted d.out := by
  obtain ⟨d₁, hflags, hresp, hprint, hscr, hout⟩ : ∃ d₁, dispLine c ([',', 'R'] ++ s.flags ++ ['\n']) d = .more d₁ ∧
      d₁.resp = j ∧ d₁.printing = decide (c.Shows j) ∧ d₁.scribbled = decide s.Scribbled ∧
      emitted d₁.out = emitted d.out := by
    refine ⟨_, rfl, ?_⟩
    rcases hd with ⟨hE, hresp, hprint⟩ | ⟨hE, hresp⟩
    · simp only [hE, if_true]
      exact ⟨hresp, hprint, scribbled_flags s, trivial⟩
    · simp only [hE, Bool.false_eq_true, if_false]
      rw [resp_endResp, printing_endResp, emitted_endResp, hresp, sub_add_cancel]
      refine ⟨rfl, decide_eq_decide.2 (c.shows_of_pos hj).symm, ?_, rfl⟩
      rw [← scribbled_flags]
      simp only [endResp]
      split_ifs
      · rfl
      · rfl
  obtain ⟨uid, login, huser⟩ := dispLine_user_eq (c := c) s.uid s.login d₁
  obtain ⟨fullname, halias⟩ := dispLine_alias_eq (c := c) s.fullname { d₁ with uid := uid, login := login }
  have hdate : ∃ d', dispLine c ([',', 'D'] ++ s.date ++ ['\n'])
      { d₁ with uid := uid, login := login, fullname := fullname } = .more d' ∧ d'.Before c j s ∧
        emitted d'.out = emitted d₁.out := by
    by_cases hs : c.Shows j
    · have hprint₁ : d₁.printing = true := by rw [hprint, decide_eq_true hs]
      refine ⟨_, (if_pos hprint₁).trans (if_neg (by dsimp only; omega)), ⟨?_, ?_, ?_, fun _ => ⟨rfl, rfl⟩⟩, ?_⟩
      all_goals simp only [hprint₁, if_true]
      · exact hresp
      · exact (decide_eq_true hs).symm
      · exact hscr
      · exact (emitted_append _ _).trans (List.append_nil _)
    · have hprint₁ : ¬d₁.printing = true := by rw [hprint, decide_eq_true_eq]; exact hs
      exact ⟨_, if_neg hprint₁, ⟨hresp, hprint, hscr, fun h => absurd h hs⟩, rfl⟩
  obtain ⟨d', hdate, hbefore, hout'⟩ := hdate
  refine ⟨d', ?_, hbefore, hout'.trans hout⟩
  rw [Section.head_append, dispLoop_more hflags, dispLoop_more huser, dispLoop_more halias, dispLoop_more hdate]

/-- the end of a section -/
theorem dispLoop_end (hj : 0 ≤ j) (hresp : d.resp = j) (hE : d.didE = false) (s : Section) (l : List Str) :
    ∃ d', dispLoop c ((if s.ended then [[',', 'E', '\n']] else []) ++ l) d = dispLoop c l d' ∧ d'.Ready c (j + 1) ∧
      emitted d'.out = emitted d.out := by
  cases s.ended with
  | true =>
    refine ⟨endResp c d, rfl, .inl ⟨rfl, by rw [resp_endResp, hresp], ?_⟩, emitted_endResp c d⟩
    rw [printing_endResp, hresp]
    exact decide_eq_decide.2 (c.shows_of_pos (by omega)).symm
  | false => exact ⟨d, rfl, .inr ⟨hE, by rw [hresp, add_sub_cancel_right]⟩, rfl⟩

/-- the strings of the text as they are read -/
theorem tail_pieces (s : Section) (l : List Str) : s.tail.flatMap (fgetsAll BFSZ) ++ l =
    s.html.flatMap (fgetsAll BFSZ) ++ [',', 'T', '\n'] ::
      (s.body.flatMap (fgetsAll BFSZ) ++ ((if s.ended then [[',', 'E', '\n']] else []) ++ l)) := by
  have hT : fgetsAll BFSZ [',', 'T', '\n'] = [[',', 'T', '\n']] := by decide
  have hE : fgetsAll BFSZ [',', 'E', '\n'] = [[',', 'E', '\n']] := by decide
  have hend : (if s.ended then [[',', 'E', '\n']] else []).flatMap (fgetsAll BFSZ) =
      if s.ended then [[',', 'E', '\n']] else [] := by
    split_ifs
    · rw [List.flatMap_singleton, hE]
    · rfl
  simp only [Section.tail, List.flatMap_append, List.flatMap_cons, hT, hend, List.append_assoc, List.cons_append,
    List.nil_append]

/-- the strings of a section are lines, and those of the heading fit into the buffer -/
structure Section.Lines (s : Section) : Prop where
  head : ∀ l ∈ s.head, IsLine l ∧ l.length < BFSZ
  html : ∀ l ∈ s.html, IsLine l
  body : ∀ l ∈ s.body, IsLine l

theorem flatMap_fits {ls : List Str} (h : ∀ l ∈ ls, IsLine l ∧ l.length < BFSZ) : ls.flatMap (fgetsAll BFSZ) = ls := by
  induction ls with
  | nil => rfl
  | cons l ls ih =>
    obtain ⟨⟨⟨t, ht, -, rfl⟩, hlen⟩, hls⟩ := List.forall_mem_cons.1 h
    rw [List.length_append] at hlen
    rw [List.flatMap_cons, fgetsAll_fits (by decide) ht hlen, ih hls]
    rfl

theorem dispLoop_T (l : List Str) (d : Disp) :
    dispLoop c ([',', 'T', '\n'] :: l) d = dispLoop c l { d with thisversion := !d.gotversion, didE := false } := rfl

/-- **A section that is not printed** emits nothing. -/
theorem dispLoop_tail_hidden (hj : 0 ≤ j) (hd : d.Before c j s) (hs : ¬(c.Shows j ∧ ¬s.Scribbled)) (hlines : s.Lines)
    (hhtml : ∀ l ∈ s.html, QuietLine l) (hbody : ∀ l ∈ s.body, QuietLine l) (l : List Str) :
    ∃ d', dispLoop c (s.tail.flatMap (fgetsAll BFSZ) ++ l) d = dispLoop c l d' ∧ d'.Ready c (j + 1) ∧
      emitted d'.out = emitted d.out := by
  have hshow (b b' : Bool) : ¬Disp.Showing { d with thisversion := b, didE := b' } := by
    intro ⟨hp, hscr, _⟩
    apply hs
    exact ⟨of_decide_eq_true (hd.printing.symm.trans hp), of_decide_eq_false (hd.scribbled.symm.trans hscr)⟩
  obtain ⟨d', hend, hready, hout⟩ := dispLoop_end (c := c)
    (d := { d with thisversion := !d.gotversion, didE := false }) hj hd.resp rfl s l
  refine ⟨d', ?_, hready, hout⟩
  rw [tail_pieces, dispLoop_hidden (hshow _ _) hlines.html s.html_text hhtml, dispLoop_T,
    dispLoop_hidden (hshow _ _) hlines.body s.body_text hbody, hend]

/-- **A section that is printed**: the loop gets to the lines of the version that is printed, and then to the end. -/
theorem dispLoop_tail_shown (hj : 0 ≤ j) (hd : d.Before c j s) (hs : c.Shows j) (hscr : ¬s.Scribbled) (hlines : s.Lines)
    (hquiet : ∀ l ∈ s.other c, QuietLine l) (l : List Str) :
    ∃ d₁ l', dispLoop c (s.tail.flatMap (fgetsAll BFSZ) ++ l) d =
        dispLoop c ((s.version c).flatMap (fgetsAll BFSZ) ++ l') d₁ ∧ d₁.Showing ∧ emitted d₁.out = emitted d.out ∧
      ∃ d', dispLoop c l' (d₁.put (s.version c)) = dispLoop c l d' ∧ d'.Ready c (j + 1) ∧
        emitted d'.out = emitted (d₁.put (s.version c)).out := by
  obtain ⟨hthis, hgot⟩ := hd.version hs
  have hprint : d.printing = true := hd.printing.trans (decide_eq_true hs)
  have hscr' : d.scribbled = false := hd.scribbled.trans (decide_eq_false hscr)
  by_cases hver : (c.prefer_html && !s.html.isEmpty) = true
  · -- the other version is behind the `,T`
    rw [Section.other, if_pos hver] at hquiet
    rw [Section.version, if_pos hver]
    obtain ⟨hpref, hne⟩ := Bool.and_eq_true_iff.1 hver
    have hshow : d.Showing := ⟨hprint, hscr', hthis.trans hpref⟩
    have hgot' : (d.put s.html).gotversion = true := by rw [Disp.put, hgot, hne]; rfl
    obtain ⟨d', hend, hready, hout⟩ := dispLoop_end (c := c)
      (d := { d.put s.html with thisversion := !(d.put s.html).gotversion, didE := false }) hj hd.resp rfl s l
    refine ⟨d, _, by rw [tail_pieces], hshow, rfl, d', ?_, hready, hout⟩
    rw [dispLoop_T, dispLoop_hidden _ hlines.body s.body_text hquiet, hend]
    intro h
    have hthis := h.thisversion
    rw [hgot'] at hthis
    cases hthis
  · rw [Section.other, if_neg hver] at hquiet
    rw [Section.version, if_neg hver]
    have hhtml (l : List Str) : dispLoop c (s.html.flatMap (fgetsAll BFSZ) ++ l) d = dispLoop c l d := by
      by_cases hpref : c.prefer_html = true
      · have hnil : s.html = [] := by simpa [hpref] using hver
        rw [hnil]
        rfl
      · apply dispLoop_hidden _ hlines.html s.html_text hquiet l
        intro h
        exact hpref (hthis.symm.trans h.thisversion)
    obtain ⟨d', hend, hready, hout⟩ := dispLoop_end (c := c)
      (d := Disp.put s.body { d with thisversion := !d.gotversion, didE := false }) hj hd.resp rfl s l
    refine ⟨{ d with thisversion := !d.gotversion, didE := false }, _, ?_, ⟨hprint, hscr', ?_⟩, rfl, d', hend, hready,
      hout⟩
    · rw [tail_pieces, hhtml, dispLoop_T]
    · rw [hgot]
      rfl

theorem Call.Spans.shows (h : c.Spans j) : c.Shows j := by
  rw [Call.Shows]
  split_ifs with h0
  · exact h0 ▸ h.1
  · exact h

theorem Call.Shows.spans (h : c.Shows j) (hlast : j ≤ c.last) : c.Spans j := by
  refine ⟨?_, hlast⟩
  rw [Call.Shows] at h
  split_ifs at h with h0
  · exact h0 ▸ h
  · exact h.1

/-- **The text of a section.** If the item text is printed and should not be, then nothing more should be. -/
theorem emits_tail (hj : 0 ≤ j) (hd : d.Before c j s) (hlines : s.Lines) (hquiet : Quiet c j s) (l : List Str) :
    ∃ d', d'.Ready c (j + 1) ∧ ∀ e, (c.Shows j → ¬c.Spans j → e = []) →
      (Emits c (s.tail.flatMap (fgetsAll BFSZ) ++ l) d
        ((if c.Spans j ∧ ¬s.Scribbled then printed (s.version c) else []) ++ e) ↔ Fits c j s ∧ Emits c l d' e) := by
  by_cases hs : c.Shows j ∧ ¬s.Scribbled
  · obtain ⟨hshows, hscr⟩ := hs
    obtain ⟨d₁, l', hloop, hshow, hout, d', hend, hready, hout'⟩ :=
      dispLoop_tail_shown hj hd hshows hscr hlines hquiet.2 l
    have hversion : (∀ l ∈ s.version c, IsLine l) ∧ ∀ l ∈ s.version c, IsText l := by
      rw [Section.version]
      split_ifs
      · exact ⟨hlines.html, s.html_text⟩
      · exact ⟨hlines.body, s.body_text⟩
    refine ⟨d', hready, fun e he => ?_⟩
    rw [emits_congr hloop hout.symm]
    by_cases hspan : c.Spans j
    · rw [if_pos ⟨hspan, hscr⟩, emits_lines hshow hversion.1 hversion.2, emits_congr hend hout'.symm]
      apply and_congr_left'
      constructor
      · exact fun h _ _ l hl => ⟨hspan.2, h l hl⟩
      · exact fun h l hl => (h hshows hscr l hl).2
    · rw [if_neg fun h => hspan h.1, he hshows hspan]
      have hlast : ¬j ≤ c.last := fun h => hspan (hshows.spans h)
      rcases hv : s.version c with _ | ⟨x, ls⟩
      · -- there is nothing to print
        rw [hv] at hend hout'
        have hnil : ∀ l ∈ ([] : List Str), IsLine l ∧ IsText l := nofun
        have hnone := emits_lines (c := c) (l := l') (e := []) hshow (fun l hl => (hnil l hl).1)
          fun l hl => (hnil l hl).2
        have hfits : Fits c j s := by
          intro _ _ l hl
          rw [hv] at hl
          cases hl
        rw [emits_congr hend hout'.symm] at hnone
        exact hnone.trans (and_congr_left' (iff_of_true (by simp) hfits))
      · rw [hv] at hversion
        apply iff_of_false
        · rw [List.flatMap_cons, List.append_assoc]
          exact not_emits_nil hshow (hversion.1 x List.mem_cons_self) (hversion.2 x List.mem_cons_self)
        · exact fun h => hlast (h.1 hshows hscr x (hv ▸ List.mem_cons_self)).1
  · have hquiet' : (∀ l ∈ s.html, QuietLine l) ∧ ∀ l ∈ s.body, QuietLine l := by
      have hversion := hquiet.1.resolve_left hs
      have hother := hquiet.2
      rw [Section.version] at hversion
      rw [Section.other] at hother
      split_ifs at hversion hother
      · exact ⟨hversion, hother⟩
      · exact ⟨hother, hversion⟩
    obtain ⟨d', hloop, hready, hout⟩ := dispLoop_tail_hidden hj hd hs hlines hquiet'.1 hquiet'.2 l
    have hfits : Fits c j s := fun hshows hscr => absurd ⟨hshows, hscr⟩ hs
    refine ⟨d', hready, fun e _ => ?_⟩
    rw [if_neg fun h => hs ⟨h.1.shows, h.2⟩, List.nil_append, emits_congr hloop hout.symm, and_iff_right hfits]

/-- **The text of the responses.** -/
theorem emits_sections {ss : List Section} (hj : 0 < j) (hd : d.Ready c j) (hlines : ∀ s ∈ ss, s.Lines)
    (hquiet : Each (Quiet c) j ss) :
    Emits c ((ss.flatMap fun s => s.head ++ s.tail).flatMap (fgetsAll BFSZ)) d (expected c j ss) ↔
      Each (Fits c) j ss := by
  induction ss generalizing j d with
  | nil =>
    refine iff_of_true ⟨_, _, rfl, ?_⟩ trivial
    exact (List.append_nil _).symm
  | cons s ss ih =>
    obtain ⟨hlines₁, hlines⟩ := List.forall_mem_cons.1 hlines
    obtain ⟨d₁, hloop, hbefore, hout⟩ := dispLoop_head hj hd s
      (s.tail.flatMap (fgetsAll BFSZ) ++ (ss.flatMap fun s => s.head ++ s.tail).flatMap (fgetsAll BFSZ))
    obtain ⟨d', hready, htail⟩ := emits_tail hj.le hbefore hlines₁ hquiet.1
      ((ss.flatMap fun s => s.head ++ s.tail).flatMap (fgetsAll BFSZ))
    have hspans : c.Shows j → ¬c.Spans j → expected c (j + 1) ss = [] :=
      fun hshows hspan => absurd ((c.shows_of_pos hj).1 hshows) hspan
    rw [List.flatMap_cons, List.flatMap_append, List.flatMap_append, flatMap_fits hlines₁.head, List.append_assoc]
    calc Emits c (s.head ++ (s.tail.flatMap (fgetsAll BFSZ) ++
          (ss.flatMap fun s => s.head ++ s.tail).flatMap (fgetsAll BFSZ))) d (expected c j (s :: ss))
      _ ↔ Emits c (s.tail.flatMap (fgetsAll BFSZ) ++
          (ss.flatMap fun s => s.head ++ s.tail).flatMap (fgetsAll BFSZ)) d₁ (expected c j (s :: ss)) :=
        emits_congr hloop hout.symm _
      _ ↔ Fits c j s ∧ Emits c ((ss.flatMap fun s => s.head ++ s.tail).flatMap (fgetsAll BFSZ)) d'
          (expected c (j + 1) ss) := htail _ hspans
      _ ↔ Fits c j s ∧ Each (Fits c) (j + 1) ss := and_congr_right' (ih (by omega) hready hlines hquiet.2)

/-- nothing is expected behind the end of the range -/
theorem expected_nil (ss : List Section) (hj : c.last < j) : expected c j ss = [] := by
  induction ss generalizing j with
  | nil => rfl
  | cons s ss ih =>
    rw [expected, ih (by omega), List.append_nil, if_neg]
    intro ⟨hspan, _⟩
    exact absurd hspan.2 (by omega)

/-- the date of the item: only the header is asked for, or the text comes next -/
theorem dateLine_item (hresp : d.resp = 0) (hprint : d.printing = true) (hscr : d.scribbled = decide s.Scribbled)
    (hout : d.out = []) (t : Str) :
    (c.show_header = 2 → ∃ d', dateLine c t d = .header d' ∧ emitted d'.out = []) ∧
      (c.show_header ≠ 2 → ∃ d', dateLine c t d = .more d' ∧ d'.Before c 0 s ∧ emitted d'.out = []) := by
  have hshows : c.Shows 0 ↔ ¬c.first_resp > 0 := by
    rw [Call.Shows, if_pos rfl, not_lt]
  rw [dateLine, if_pos hresp]
  constructor
  · intro h2
    refine ⟨_, if_pos h2, ?_⟩
    rw [if_pos (by omega), hout]
    rfl
  · intro h2
    refine ⟨_, if_neg h2, ⟨?_, ?_, ?_, fun _ => ⟨rfl, rfl⟩⟩, ?_⟩
    · split_ifs
      all_goals exact hresp
    · by_cases hf : c.first_resp > 0
      · rw [if_pos hf]
        exact (decide_eq_false (mt hshows.1 (not_not_intro hf))).symm
      · rw [if_neg hf, decide_eq_true (hshows.2 hf)]
        split_ifs
        all_goals exact hprint
    · split_ifs
      all_goals exact hscr
    · split_ifs
      all_goals
        rw [hout]
        rfl

end Sections

/-! ## Item files -/

theorem ItemFile.section_lines (i : ItemFile) : ∀ s ∈ i.item.text :: i.item.resps, s.Lines := by
  intro s hs
  have hmem (l : Str) (hl : l ∈ s.head ++ s.tail) : l ∈ i.item.lines :=
    List.mem_cons_of_mem _ (List.mem_cons_of_mem _ (List.mem_flatMap.2 ⟨s, hs, hl⟩))
  refine ⟨fun l hl => ⟨i.lines l (hmem l (List.mem_append_left _ hl)), i.head_lt s hs l hl⟩, ?_, ?_⟩
  · exact fun l hl => i.lines l (hmem l (List.mem_append_right _ (List.mem_append_left _ hl)))
  · exact fun l hl => i.lines l (hmem l (List.mem_append_right _ (List.mem_append_right _ (List.mem_cons_of_mem _
      (List.mem_append_left _ hl)))))

/-- the strings of a file are the pieces of its lines -/
theorem fgetsAll_file {ls : List Str} (h : ∀ l ∈ ls, IsLine l) :
    fgetsAll BFSZ ls.flatten = ls.flatMap (fgetsAll BFSZ) := by
  induction ls with
  | nil => rfl
  | cons l ls ih =>
    obtain ⟨⟨t, ht, -, rfl⟩, hls⟩ := List.forall_mem_cons.1 h
    rw [List.flatten_cons, List.append_assoc, List.singleton_append, fgetsAll_line (by decide) ht, ih hls,
      List.flatMap_cons]

theorem ItemFile.pieces (i : ItemFile) : fgetsAll BFSZ i.file =
    ['!', '<', 'p', 's', '0', '2', '>', '\n'] :: ([',', 'H'] ++ i.item.title ++ ['\n']) ::
      (i.item.text.head ++ (i.item.text.tail.flatMap (fgetsAll BFSZ) ++
        (i.item.resps.flatMap fun s => s.head ++ s.tail).flatMap (fgetsAll BFSZ))) := by
  have hmagic : fgetsAll BFSZ ['!', '<', 'p', 's', '0', '2', '>', '\n'] =
      [['!', '<', 'p', 's', '0', '2', '>', '\n']] := by
    decide
  have htitle : ([[',', 'H'] ++ i.item.title ++ ['\n']]).flatMap (fgetsAll BFSZ) =
      [[',', 'H'] ++ i.item.title ++ ['\n']] := by
    apply flatMap_fits
    rw [List.forall_mem_singleton]
    refine ⟨i.lines _ (List.mem_cons_of_mem _ List.mem_cons_self), ?_⟩
    have hlt := i.title_lt
    simp
    omega
  rw [List.flatMap_singleton] at htitle
  rw [ItemFile.file, fgetsAll_file i.lines, Item.lines, List.flatMap_cons, List.flatMap_cons, hmagic, htitle,
    List.flatMap_cons, List.flatMap_append, List.flatMap_append,
    flatMap_fits (i.section_lines _ List.mem_cons_self).head, List.append_assoc i.item.text.head]
  rfl

/-- the call reads the item up to its date -/
theorem ItemFile.call (i : ItemFile) (c : Call) :
    ∃ d : Disp, (d.resp = 0 ∧ d.printing = true ∧ d.scribbled = decide i.item.text.Scribbled ∧ d.out = []) ∧
      dispitem c (fgetsAll BFSZ i.file) =
        match dateLine c (i.item.text.date ++ ['\n']) d with
        | .more d => dispLoop c (i.item.text.tail.flatMap (fgetsAll BFSZ) ++
            (i.item.resps.flatMap fun s => s.head ++ s.tail).flatMap (fgetsAll BFSZ)) d
        | .header d => some (-1, d.out)
        | .weird => none := by
  obtain ⟨d, ⟨hresp, hprint, hscr, hout⟩, hcall⟩ := dispitem_head c i.item.title i.item.text
    (i.item.text.tail.flatMap (fgetsAll BFSZ) ++
      (i.item.resps.flatMap fun s => s.head ++ s.tail).flatMap (fgetsAll BFSZ))
  exact ⟨d, ⟨hresp, hprint, hscr.trans (scribbled_flags _), hout⟩, by rw [i.pieces]; exact hcall⟩

/-- where only the header is asked for, there is no text -/
theorem textRight_header {c : Call} (h2 : c.show_header = 2) (i : ItemFile) : TextRight c i := by
  obtain ⟨d, ⟨hresp, hprint, hscr, hout⟩, hcall⟩ := i.call c
  obtain ⟨d', hline, hout'⟩ := (dateLine_item hresp hprint hscr hout (i.item.text.date ++ ['\n'])).1 h2
  refine ⟨-1, d'.out, by rw [hcall, hline], ?_⟩
  rw [hout', if_pos h2]

theorem textRight_iff {c : Call} (h2 : c.show_header ≠ 2) (i : ItemFile)
    (hquiet : Each (Quiet c) 0 (i.item.text :: i.item.resps)) :
    TextRight c i ↔ Each (Fits c) 0 (i.item.text :: i.item.resps) := by
  obtain ⟨hlines₁, hlines⟩ := List.forall_mem_cons.1 i.section_lines
  obtain ⟨d, ⟨hresp, hprint, hscr, hout⟩, hcall⟩ := i.call c
  obtain ⟨d₁, hline, hbefore, hout₁⟩ := (dateLine_item hresp hprint hscr hout (i.item.text.date ++ ['\n'])).2 h2
  obtain ⟨d', hready, htail⟩ := emits_tail le_rfl hbefore hlines₁ hquiet.1
    ((i.item.resps.flatMap fun s => s.head ++ s.tail).flatMap (fgetsAll BFSZ))
  have hrest : c.Shows 0 → ¬c.Spans 0 → expected c (0 + 1) i.item.resps = [] := by
    intro hshows hspan
    apply expected_nil
    by_contra hlast
    exact hspan (hshows.spans (by omega))
  have hresps := emits_sections (zero_add (1 : ℤ) ▸ one_pos) hready hlines hquiet.2
  have hright : TextRight c i ↔ Emits c (i.item.text.tail.flatMap (fgetsAll BFSZ) ++
      (i.item.resps.flatMap fun s => s.head ++ s.tail).flatMap (fgetsAll BFSZ)) d₁
        (expected c 0 (i.item.text :: i.item.resps)) := by
    rw [TextRight, hcall, hline, if_neg h2]
    constructor
    · intro ⟨r, out, hloop, h⟩
      exact ⟨r, out, hloop, by rw [hout₁]; exact h⟩
    · intro ⟨r, out, hloop, h⟩
      rw [hout₁] at h
      exact ⟨r, out, hloop, h⟩
  calc TextRight c i
    _ ↔ Emits c (i.item.text.tail.flatMap (fgetsAll BFSZ) ++
        (i.item.resps.flatMap fun s => s.head ++ s.tail).flatMap (fgetsAll BFSZ)) d₁
          (expected c 0 (i.item.text :: i.item.resps)) := hright
    _ ↔ Fits c 0 i.item.text ∧ Emits c ((i.item.resps.flatMap fun s => s.head ++ s.tail).flatMap (fgetsAll BFSZ)) d'
          (expected c (0 + 1) i.item.resps) := htail _ hrest
    _ ↔ Each (Fits c) 0 (i.item.text :: i.item.resps) := and_congr_right' hresps

/-- **The text of an item.** Unless only the header is asked for: where no later piece of a hidden line looks like a
control line, the text comes out right exactly if the lines that are printed should be and fit into the buffer. -/
theorem text_right_iff (c : Call) (i : ItemFile)
    (hquiet : c.show_header ≠ 2 → Each (Quiet c) 0 (i.item.text :: i.item.resps)) :
    TextRight c i ↔ c.show_header = 2 ∨ Each (Fits c) 0 (i.item.text :: i.item.resps) := by
  by_cases h2 : c.show_header = 2
  · exact iff_of_true (textRight_header h2 i) (.inl h2)
  · rw [textRight_iff h2 i (hquiet h2), or_iff_right h2]

theorem isLine_iff {l : Str} : IsLine l ↔ '\n' ∉ l.dropLast ∧ '\x00' ∉ l.dropLast ∧ l = l.dropLast ++ ['\n'] := by
  constructor
  · intro ⟨t, ht, ht', hl⟩
    rw [hl, List.dropLast_concat]
    exact ⟨ht, ht', rfl⟩
  · exact fun h => ⟨l.dropLast, h⟩

instance : DecidablePred IsLine := fun _ => decidable_of_iff' _ isLine_iff

/-- a response with a line that has this behind the characters that fit into the buffer, and one more line -/
def reply (flag : Char) (s : Str) : Section :=
  { hello with
    flags := ['0', '0', '0', flag]
    body := [List.replicate (BFSZ - 1) 'x' ++ s, ['O', 'u', 't', '\n']]
    flags_le := le_rfl
    body_text := List.forall_mem_cons.2 ⟨isText_of_ne (by decide) _, by decide⟩ }

/-- a response with a line of 1024 characters -/
def long : ItemFile := ⟨⟨['H', 'i'], hello, [reply '0' ['y', '\n']]⟩, by decide +kernel, by decide, by decide⟩

/-- a scribbled response with a line that has something like flags where the buffer is full -/
def leaky : ItemFile :=
  ⟨⟨['H', 'i'], hello, [reply '3' [',', 'R', '0', '0', '0', '0', '\n']]⟩, by decide +kernel, by decide, by decide⟩

/-- an item with one response, both short -/
def short : ItemFile := ⟨⟨['H', 'i'], hello, [hello]⟩, by decide, by decide, by decide⟩

theorem short_quiet (c : Call) : Each (Quiet c) 0 (short.item.text :: short.item.resps) := by
  have hversion : Section.version c hello = hello.body := by simp [Section.version, hello]
  have hother : Section.other c hello = [] := by simp [Section.other, hello]
  have hquiet (j : ℤ) : Quiet c j hello := by
    refine ⟨.inr ?_, ?_⟩
    · rw [hversion]
      unfold QuietLine
      decide
    · rw [hother]
      exact nofun
  exact ⟨hquiet 0, hquiet 1, trivial⟩

/-- the response is printed as it is -/
theorem short_right : TextRight ⟨4, 1, 1, 1, 0, false⟩ short := by
  rw [text_right_iff ⟨4, 1, 1, 1, 0, false⟩ short fun _ => short_quiet _]
  refine .inr ⟨?_, ?_, trivial⟩
  · intro h
    exact absurd h (by decide)
  · intro _ _ l hl
    exact ⟨by decide, by revert l; decide⟩

/-- **A long line.** What follows its first 1023 characters gets a blank of its own. In a scribbled response it may look
like the flags of one that is not, and the next line is printed. And the item text is printed for the range from 0 to
-2. -/
theorem long_line :
    ¬TextRight ⟨4, 1, 1, 1, 0, false⟩ long ∧
      (reply '3' [',', 'R', '0', '0', '0', '0', '\n']).Scribbled ∧ ¬TextRight ⟨4, 1, -1, 1, 0, false⟩ leaky ∧
      ¬TextRight ⟨4, 0, -2, 1, 0, false⟩ short := by
  refine ⟨?_, rfl, ?_, ?_⟩
  · have hquiet : Each (Quiet ⟨4, 1, 1, 1, 0, false⟩) 0 (long.item.text :: long.item.resps) := by
      refine ⟨(short_quiet _).1, ⟨.inl (by decide), nofun⟩, trivial⟩
    rw [textRight_iff (by decide) long hquiet]
    intro ⟨_, h, _⟩
    have hlt := (h (by decide) (by decide) _ List.mem_cons_self).2
    rw [List.length_append, List.length_replicate] at hlt
    exact absurd hlt (by decide)
  · intro ⟨r, out, hrun, hout⟩
    have hleak : (dispitem ⟨4, 1, -1, 1, 0, false⟩ (fgetsAll BFSZ leaky.file)).map (fun p => emitted p.2) =
        some [' ', 'O', 'u', 't', '\n'] := by decide +kernel
    rw [hrun, Option.map_some, hout] at hleak
    exact absurd hleak (by decide)
  · rw [textRight_iff (by decide) short (short_quiet _)]
    intro ⟨h, _⟩
    exact absurd (h (by decide) (by decide) _ List.mem_cons_self).1 (by decide)

end MNetSoft.Bbsread
