/-
How `ylc` prints a list of names (`print` of `ylc.c`): sorted, in columns of 15 characters, under a title. With one
column there is no title, and each name is to have a line of its own.

Before a name that would not fit a new line is begun, also if nothing has been printed on the line yet. A first name
that is wider than all the columns leaves an empty line above it (only the indentation if there are columns).
- `loop_isSome`: when no int overflows in the loop.
- `lines_good`, `single_lines`: the lines, with several columns and with one.
- `print_right_iff`: the layout is what it should be if and only if the first name is not too wide and no int overflows.
- `blank_line`: a first name that is too wide.

A name is a C string; what the program prints is kept in pieces, so that a newline in a name is not one of the
program's.
-/
import Mathlib.Tactic
import Mathlib.Data.List.Sort
import MNetSoft.Core.CString

namespace MNetSoft.Cmd.Ylc

open MNetSoft.CString

/-! ## Model -/

def COLUMNWIDTH : ℕ := 15

def INDENT : ℕ := 4

/-- what `print` depends on: `ncolumns` and `manyflag` -/
structure Columns where
  ncolumns : ℕ
  manyflag : Bool
  pos : 0 < ncolumns

/-- the output of a call of `printf`: a text, a newline, or `%*s` -/
inductive Piece where
  | text (s : Str)
  | newline
  | name (width : ℕ) (s : Str)
deriving DecidableEq, Repr

def Piece.render : Piece → Str
  | .text s => s
  | .newline => ['\n']
  | .name width s => List.replicate (width - s.length) ' ' ++ s

def pindent : Piece := .text (List.replicate INDENT ' ')

/-- `qsort` with `pstrcmp`; names that compare equal are the same -/
def qsort (names : List Str) : List Str := names.insertionSort (· ≤ ·)

namespace Columns

variable (c : Columns)

/-- the indentation of a line -/
def indent : List Piece := if 1 < c.ncolumns then pindent :: (if c.manyflag then [pindent] else []) else []

def start : ℕ := if 1 < c.ncolumns then INDENT + (if c.manyflag then INDENT else 0) else 0

def maxposition : ℕ := c.ncolumns * COLUMNWIDTH + c.start

/-- the columns a name takes at a position, with what is missing to the next column -/
def used (position : ℕ) (name : Str) : ℕ :=
  name.length + if c.start < position then COLUMNWIDTH - (position - c.start) % COLUMNWIDTH else 0

/-- the position a line begins with that is begun at `position`; with one column it goes on -/
def newPosition (position : ℕ) : ℕ := if 1 < c.ncolumns then c.start else position

/-- the numbers of the loop are ints -/
def IntSafe (position : ℕ) (name : Str) : Prop := name.length < 2 ^ 31 ∧ position + c.used position name < 2 ^ 31

instance (position : ℕ) (name : Str) : Decidable (c.IntSafe position name) := inferInstanceAs (Decidable (_ ∧ _))

/-- what is printed for the names and the position behind them; `none` if an int overflows -/
def loop : ℕ → List Str → Option (List Piece × ℕ)
  | position, [] => some ([], position)
  | position, name :: names =>
    if ¬c.IntSafe position name then none
    else if c.maxposition < position + c.used position name then
      (loop (c.newPosition position + name.length) names).map fun r =>
        (.newline :: c.indent ++ .name name.length name :: r.1, r.2)
    else
      (loop (position + c.used position name) names).map fun r => (.name (c.used position name) name :: r.1, r.2)

end Columns

/-- what is printed: the prefix with the title, and the lines -/
structure Printed where
  head : Str
  body : List Piece
deriving DecidableEq

/-- the prefix and the title -/
def heading (c : Columns) (title dirprefix : Str) : Str :=
  dirprefix ++
    if 1 < c.ncolumns then (if c.manyflag then List.replicate INDENT ' ' else []) ++ title ++ ":\n".toList else []

/-- `none` if an int overflows; the index of a name is one, too -/
def print (c : Columns) (title dirprefix : Str) (names : List Str) : Option Printed :=
  if names = [] then some ⟨[], []⟩
  else if ¬(c.maxposition < 2 ^ 31 ∧ names.length < 2 ^ 31) then none
  else
    (c.loop c.start (qsort names)).map fun r =>
      ⟨heading c title dirprefix, c.indent ++ r.1 ++ if r.2 ≠ 0 then [.newline] else []⟩

/-! ## What the lines should be -/

/-- the lines of an output, the last one without its newline if it has none -/
def linesOf : List Piece → List (List Piece)
  | [] => []
  | .newline :: rest => [] :: linesOf rest
  | p :: rest =>
    match linesOf rest with
    | [] => [[p]]
    | l :: ls => (p :: l) :: ls

def renderLine (l : List Piece) : Str := l.flatMap Piece.render

/-- the names of a line that begins at `position`, and the columns where they begin -/
def columns : ℕ → List Piece → List (ℕ × Str)
  | _, [] => []
  | position, .name width s :: rest =>
    (position + (width - s.length), s) :: columns (position + (Piece.name width s).render.length) rest
  | position, p :: rest => columns (position + p.render.length) rest

/-- a line has a name; names are in columns, and if there are several, inside of the last column; with one column there
is one name and nothing else -/
structure GoodLine (c : Columns) (l : List Piece) : Prop where
  named : columns 0 l ≠ []
  aligned : ∀ x ∈ columns 0 l, ∃ k, x.1 = c.start + COLUMNWIDTH * k
  within : 2 ≤ (columns 0 l).length → ∀ x ∈ columns 0 l, x.1 + x.2.length ≤ c.maxposition
  single : c.ncolumns = 1 → ∃ x, columns 0 l = [x] ∧ renderLine l = x.2

/-- a list of names that are not empty -/
structure Names where
  names : List Str
  ne_nil : ∀ s ∈ names, s ≠ []

/-- all names are printed in order, in good lines, each with a newline -/
def Right (c : Columns) (title dirprefix : Str) (l : Names) : Prop :=
  ∃ out, print c title dirprefix l.names = some out ∧
    (l.names ≠ [] → out.head = heading c title dirprefix ∧ ∃ body, out.body = body ++ [.newline]) ∧
    ((linesOf out.body).flatMap fun line => (columns 0 line).map Prod.snd) = qsort l.names ∧
    ∀ line ∈ linesOf out.body, GoodLine c line

/-- no int overflows on the way through the names -/
def NoOverflow (c : Columns) : ℕ → List Str → Prop
  | _, [] => True
  | position, name :: names =>
    c.IntSafe position name ∧
      NoOverflow c
        (if c.maxposition < position + c.used position name then c.newPosition position + name.length
          else position + c.used position name) names

/-! ## Pieces -/

section Pieces

variable {p : Piece} {l l' : List Piece} {c : Columns} {position : ℕ} {names : List Str} {r : List Piece × ℕ}

theorem linesOf_append (h : Piece.newline ∉ l) (rest : List Piece) :
    linesOf (l ++ .newline :: rest) = l :: linesOf rest := by
  induction l with
  | nil => rfl
  | cons p l ih =>
    obtain ⟨hp, hl⟩ := not_or.1 (List.mem_cons.not.1 h)
    have hrest := ih hl
    cases p with
    | newline => exact absurd rfl hp
    | text s =>
      rw [List.cons_append, linesOf, hrest]
      exact hp ∘ Eq.symm
    | name width s =>
      rw [List.cons_append, linesOf, hrest]
      exact hp ∘ Eq.symm

theorem columns_append (l l' : List Piece) (position : ℕ) :
    columns position (l ++ l') = columns position l ++ columns (position + (renderLine l).length) l' := by
  induction l generalizing position with
  | nil => rfl
  | cons p l ih =>
    have hlen : (renderLine (p :: l)).length = p.render.length + (renderLine l).length := by
      rw [renderLine, List.flatMap_cons, List.length_append]
      rfl
    rw [List.cons_append, hlen, ← Nat.add_assoc]
    cases p with
    | newline => rw [columns, columns, ih]; all_goals simp
    | text s => rw [columns, columns, ih]; all_goals simp
    | name width s => rw [columns, columns, ih, List.cons_append]

theorem length_name {width : ℕ} {s : Str} (h : s.length ≤ width) : (Piece.name width s).render.length = width := by
  rw [Piece.render, List.length_append, List.length_replicate]
  omega

theorem length_renderLine_append (l l' : List Piece) :
    (renderLine (l ++ l')).length = (renderLine l).length + (renderLine l').length := by
  rw [renderLine, List.flatMap_append, List.length_append]
  rfl

theorem newline_not_mem_indent (c : Columns) : Piece.newline ∉ c.indent := by
  rw [Columns.indent, pindent]
  split_ifs <;> simp

theorem columns_indent (c : Columns) : columns 0 c.indent = [] := by
  rw [Columns.indent, pindent]
  split_ifs <;> rfl

theorem length_indent (c : Columns) : (renderLine c.indent).length = c.start := by
  rw [Columns.indent, Columns.start, pindent]
  split_ifs <;> rfl

/-- the loop ends with all names printed unless an int overflows -/
theorem loop_isSome (names : List Str) (position : ℕ) :
    (c.loop position names).isSome ↔ NoOverflow c position names := by
  induction names generalizing position with
  | nil => exact iff_of_true rfl trivial
  | cons name names ih =>
    rw [Columns.loop, NoOverflow]
    by_cases hsafe : c.IntSafe position name
    · rw [if_neg (not_not.2 hsafe), and_iff_right hsafe]
      split_ifs
      · rw [Option.isSome_map, ih]
      · rw [Option.isSome_map, ih]
    · rw [if_pos hsafe]
      exact iff_of_false Bool.false_ne_true fun h => hsafe h.1

end Pieces

/-! ## Several columns -/

section Several

variable {c : Columns} {position : ℕ} {names : List Str} {cur : List Piece} {r : List Piece × ℕ}

/-- the line that is being printed, and the names to come: if there is none on it yet, the next one fits -/
structure Open (c : Columns) (cur : List Piece) (position : ℕ) (names : List Str) : Prop where
  newline : Piece.newline ∉ cur
  width : (renderLine cur).length = position
  start_le : c.start ≤ position
  aligned : ∀ x ∈ columns 0 cur, ∃ k, x.1 = c.start + COLUMNWIDTH * k
  ends : ∀ x ∈ columns 0 cur, x.1 + x.2.length ≤ position
  within : 2 ≤ (columns 0 cur).length → position ≤ c.maxposition
  empty : columns 0 cur = [] → position = c.start ∧ ∃ name ∈ names.head?, c.start + name.length ≤ c.maxposition
  begun : columns 0 cur ≠ [] → c.start < position

theorem Open.good (h : Open c cur position names) (hne : columns 0 cur ≠ []) (hc : 1 < c.ncolumns) : GoodLine c cur :=
  ⟨hne, h.aligned, fun h2 x hx => (h.ends x hx).trans (h.within h2), fun h1 => absurd h1 hc.ne'⟩

/-- a line that begins with a name -/
theorem open_first {name : Str} (hname : name ≠ []) (names : List Str) :
    Open c (c.indent ++ [.name name.length name]) (c.start + name.length) names := by
  have hcolumns : columns 0 (c.indent ++ [.name name.length name]) = [(c.start, name)] := by
    rw [columns_append, columns_indent, length_indent, columns, Nat.sub_self]
    simp [columns]
  have hpos := List.length_pos_iff.2 hname
  refine ⟨by simp [newline_not_mem_indent], ?_, Nat.le_add_right _ _, ?_, ?_, ?_, ?_, fun _ => by omega⟩
  · have hone : renderLine [.name name.length name] = (Piece.name name.length name).render := List.append_nil _
    rw [length_renderLine_append, length_indent, hone, length_name le_rfl]
  · rw [hcolumns]
    simp only [List.mem_singleton, forall_eq]
    exact ⟨0, rfl⟩
  · rw [hcolumns]
    simp
  · rw [hcolumns]
    intro h
    simp at h
  · rw [hcolumns]
    intro h
    cases h

/-- a name goes on the line -/
theorem Open.append (h : Open c cur position names) {name : Str} (hname : name ≠ [])
    (hfits : position + c.used position name ≤ c.maxposition) (names' : List Str) :
    Open c (cur ++ [.name (c.used position name) name]) (position + c.used position name) names' := by
  have hpos := List.length_pos_iff.2 hname
  have hused : name.length ≤ c.used position name := Nat.le_add_right _ _
  have hpad : c.used position name - name.length =
      if c.start < position then COLUMNWIDTH - (position - c.start) % COLUMNWIDTH else 0 := Nat.add_sub_cancel_left _ _
  have hcolumns : columns 0 (cur ++ [.name (c.used position name) name]) =
      columns 0 cur ++ [(position + (c.used position name - name.length), name)] := by
    rw [columns_append, Nat.zero_add, h.width]
    rfl
  have hle := h.start_le
  refine ⟨by simp [h.newline], ?_, by omega, ?_, ?_, fun _ => hfits, ?_, fun _ => by omega⟩
  · have hone : renderLine [.name (c.used position name) name] = (Piece.name (c.used position name) name).render :=
      List.append_nil _
    rw [length_renderLine_append, h.width, hone, length_name hused]
  · rw [hcolumns, List.forall_mem_append]
    refine ⟨h.aligned, ?_⟩
    simp only [List.mem_singleton, forall_eq]
    rw [hpad]
    split_ifs with hlt
    · refine ⟨(position - c.start) / COLUMNWIDTH + 1, ?_⟩
      have hdiv := Nat.div_add_mod (position - c.start) COLUMNWIDTH
      have hmod := Nat.mod_lt (position - c.start) (by decide : COLUMNWIDTH > 0)
      rw [COLUMNWIDTH] at hdiv hmod ⊢
      omega
    · exact ⟨0, by omega⟩
  · rw [hcolumns, List.forall_mem_append]
    refine ⟨fun x hx => (h.ends x hx).trans (Nat.le_add_right _ _), ?_⟩
    simp only [List.mem_singleton, forall_eq]
    omega
  · rw [hcolumns]
    intro hnil
    exact absurd hnil (List.append_ne_nil_of_right_ne_nil _ (List.cons_ne_nil _ _))

/-- the names of a line that has one more -/
theorem columns_name (cur : List Piece) (width : ℕ) (name : Str) :
    (columns 0 (cur ++ [.name width name])).map Prod.snd = (columns 0 cur).map Prod.snd ++ [name] := by
  rw [columns_append, List.map_append]
  rfl

/-- **The lines**, from a line on that is being printed. -/
theorem lines_good (hc : 1 < c.ncolumns) (hnames : ∀ s ∈ names, s ≠ []) (h : Open c cur position names)
    (hr : c.loop position names = some r) :
    (∀ line ∈ linesOf (cur ++ r.1 ++ [.newline]), GoodLine c line) ∧
      ((linesOf (cur ++ r.1 ++ [.newline])).flatMap fun line => (columns 0 line).map Prod.snd) =
        (columns 0 cur).map Prod.snd ++ names ∧ c.start ≤ r.2 := by
  induction names generalizing cur position r with
  | nil =>
    cases hr
    have hne : columns 0 cur ≠ [] := fun hnil => by
      obtain ⟨-, name, hname, -⟩ := h.empty hnil
      cases hname
    rw [List.append_nil, linesOf_append h.newline]
    exact ⟨List.forall_mem_singleton.2 (h.good hne hc), by simp [linesOf], h.start_le⟩
  | cons name names ih =>
    obtain ⟨hname, hnames⟩ := List.forall_mem_cons.1 hnames
    rw [Columns.loop] at hr
    split_ifs at hr with hsafe hbreak
    · -- a new line is begun
      obtain ⟨r', hr', rfl⟩ := Option.map_eq_some_iff.1 hr
      have hne : columns 0 cur ≠ [] := by
        intro hnil
        obtain ⟨hstart, first, hfirst, hfits⟩ := h.empty hnil
        cases hfirst
        rw [hstart, Columns.used, if_neg (lt_irrefl _)] at hbreak
        omega
      rw [Columns.newPosition, if_pos hc] at hr'
      obtain ⟨hgood, horder, hlast⟩ := ih hnames (open_first hname names) hr'
      have hsplit : cur ++ (.newline :: c.indent ++ .name name.length name :: r'.1) ++ [.newline] =
          cur ++ .newline :: (c.indent ++ [.name name.length name] ++ r'.1 ++ [.newline]) := by simp
      have hcolumns : (columns 0 (c.indent ++ [.name name.length name])).map Prod.snd = [name] := by
        rw [columns_name, columns_indent]
        rfl
      rw [hsplit, linesOf_append h.newline, List.flatMap_cons, horder, hcolumns]
      exact ⟨List.forall_mem_cons.2 ⟨h.good hne hc, hgood⟩, rfl, hlast⟩
    · obtain ⟨r', hr', rfl⟩ := Option.map_eq_some_iff.1 hr
      obtain ⟨hgood, horder, hlast⟩ := ih hnames (h.append hname (not_lt.1 hbreak) names) hr'
      have hsplit : cur ++ (.name (c.used position name) name :: r'.1) ++ [.newline] =
          cur ++ [.name (c.used position name) name] ++ r'.1 ++ [.newline] := by simp
      rw [hsplit]
      rw [columns_name] at horder
      exact ⟨hgood, horder.trans (List.append_assoc _ _ _), hlast⟩

end Several

/-! ## One column -/

section One

variable {c : Columns} {position : ℕ} {names : List Str} {r : List Piece × ℕ}

theorem start_one (hc : c.ncolumns = 1) : c.start = 0 := if_neg (by omega)

theorem indent_one (hc : c.ncolumns = 1) : c.indent = [] := if_neg (by omega)

theorem maxposition_one (hc : c.ncolumns = 1) : c.maxposition = 15 := by
  rw [Columns.maxposition, start_one hc, hc, COLUMNWIDTH]

/-- behind the first name, every name begins a line -/
theorem loop_one (hc : c.ncolumns = 1) (hnames : ∀ s ∈ names, s ≠ []) (hpos : 0 < position)
    (hr : c.loop position names = some r) :
    (r.1 = names.flatMap fun s => [.newline, .name s.length s]) ∧ 0 < r.2 := by
  induction names generalizing position r with
  | nil =>
    cases hr
    exact ⟨rfl, hpos⟩
  | cons name names ih =>
    obtain ⟨hname, hnames⟩ := List.forall_mem_cons.1 hnames
    have hlen := List.length_pos_iff.2 hname
    have hbreak : c.maxposition < position + c.used position name := by
      have hmod := Nat.mod_le position COLUMNWIDTH
      have hlt := Nat.mod_lt position (by decide : COLUMNWIDTH > 0)
      rw [maxposition_one hc, Columns.used, start_one hc, if_pos hpos, Nat.sub_zero]
      rw [COLUMNWIDTH] at hmod hlt ⊢
      omega
    have hnew : c.newPosition position = position := if_neg (by omega)
    rw [Columns.loop, if_pos hbreak, hnew, indent_one hc] at hr
    split_ifs at hr
    obtain ⟨r', hr', rfl⟩ := Option.map_eq_some_iff.1 hr
    obtain ⟨hrest, hlast⟩ := ih hnames (by omega) hr'
    rw [List.flatMap_cons, hrest]
    exact ⟨rfl, hlast⟩

theorem linesOf_one (name : Str) (names : List Str) :
    linesOf (.name name.length name :: (names.flatMap fun s => [.newline, .name s.length s]) ++ [.newline]) =
      (name :: names).map fun s => [.name s.length s] := by
  induction names generalizing name with
  | nil => rfl
  | cons next names ih =>
    have hsplit := linesOf_append (l := [.name name.length name]) (by simp)
      (.name next.length next :: (names.flatMap fun s => [.newline, .name s.length s]) ++ [.newline])
    rw [ih] at hsplit
    exact hsplit

theorem good_one (hc : c.ncolumns = 1) (s : Str) : GoodLine c [.name s.length s] := by
  have hcolumns : columns 0 [.name s.length s] = [(0, s)] := by
    rw [columns, columns, Nat.sub_self]
  refine ⟨?_, ?_, ?_, fun _ => ⟨(0, s), hcolumns, ?_⟩⟩
  · rw [hcolumns]
    exact List.cons_ne_nil _ _
  · rw [hcolumns]
    exact List.forall_mem_singleton.2 ⟨0, (start_one hc).symm⟩
  · rw [hcolumns]
    intro h
    rw [List.length_singleton] at h
    omega
  · rw [renderLine, List.flatMap_singleton, Piece.render, Nat.sub_self]
    rfl

/-- **The lines with one column** -/
theorem single_lines (hc : c.ncolumns = 1) {name : Str} (hname : name ≠ []) (hnames : ∀ s ∈ names, s ≠ [])
    (hfits : name.length ≤ COLUMNWIDTH) (hr : c.loop 0 (name :: names) = some r) :
    (∀ line ∈ linesOf (r.1 ++ [.newline]), GoodLine c line) ∧
      ((linesOf (r.1 ++ [.newline])).flatMap fun line => (columns 0 line).map Prod.snd) = name :: names ∧ 0 < r.2 := by
  have hlen := List.length_pos_iff.2 hname
  have hused : c.used 0 name = name.length := by
    rw [Columns.used, if_neg (Nat.not_lt_zero _), Nat.add_zero]
  have hbreak : ¬15 < 0 + name.length := by
    rw [COLUMNWIDTH] at hfits
    omega
  rw [Columns.loop, hused, maxposition_one hc, if_neg hbreak] at hr
  split_ifs at hr
  obtain ⟨r', hr', rfl⟩ := Option.map_eq_some_iff.1 hr
  obtain ⟨hrest, hlast⟩ := loop_one hc hnames (by omega) hr'
  dsimp only
  rw [hrest, linesOf_one]
  refine ⟨fun line hline => ?_, ?_, hlast⟩
  · obtain ⟨s, -, rfl⟩ := List.mem_map.1 hline
    exact good_one hc s
  · rw [List.flatMap_map]
    exact List.flatMap_singleton' _

end One

/-! ## The layout -/

section Layout

variable {c : Columns} {name : Str} {names : List Str} {r : List Piece × ℕ}

/-- **The lines of a list** whose first name is not too wide. -/
theorem body_good (hnames : ∀ s ∈ name :: names, s ≠ []) (hfits : name.length ≤ c.ncolumns * COLUMNWIDTH)
    (hr : c.loop c.start (name :: names) = some r) :
    (∀ line ∈ linesOf (c.indent ++ r.1 ++ [.newline]), GoodLine c line) ∧
      ((linesOf (c.indent ++ r.1 ++ [.newline])).flatMap fun line => (columns 0 line).map Prod.snd) = name :: names ∧
      r.2 ≠ 0 := by
  obtain ⟨hname, hrest⟩ := List.forall_mem_cons.1 hnames
  by_cases hc : 1 < c.ncolumns
  · have hopen : Open c c.indent c.start (name :: names) := by
      refine ⟨newline_not_mem_indent c, length_indent c, le_rfl, ?_, ?_, ?_, fun _ => ⟨rfl, name, rfl, ?_⟩, ?_⟩
      · rw [columns_indent]
        exact fun x hx => absurd hx List.not_mem_nil
      · rw [columns_indent]
        exact fun x hx => absurd hx List.not_mem_nil
      · rw [columns_indent]
        exact fun h => absurd h (Nat.not_succ_le_zero 1)
      · rw [Columns.maxposition]
        omega
      · exact fun h => absurd (columns_indent c) h
    obtain ⟨hgood, horder, hlast⟩ := lines_good hc hnames hopen hr
    rw [columns_indent] at horder
    refine ⟨hgood, horder, ?_⟩
    rw [Columns.start, if_pos hc, INDENT] at hlast
    omega
  · have hone : c.ncolumns = 1 := by
      have hpos := c.pos
      omega
    rw [start_one hone] at hr
    rw [hone, Nat.one_mul] at hfits
    obtain ⟨hgood, horder, hlast⟩ := single_lines hone hname hrest hfits hr
    rw [indent_one hone, List.nil_append]
    exact ⟨hgood, horder, hlast.ne'⟩

/-- a first name that is too wide leaves a line without a name -/
theorem body_bad (hwide : c.ncolumns * COLUMNWIDTH < name.length) (hr : c.loop c.start (name :: names) = some r)
    (rest : List Piece) : ∃ line ∈ linesOf (c.indent ++ r.1 ++ rest), ¬GoodLine c line := by
  have hused : c.used c.start name = name.length := by
    rw [Columns.used, if_neg (lt_irrefl _), Nat.add_zero]
  have hbreak : c.maxposition < c.start + name.length := by
    rw [Columns.maxposition]
    omega
  rw [Columns.loop, hused, if_pos hbreak] at hr
  split_ifs at hr
  obtain ⟨r', -, rfl⟩ := Option.map_eq_some_iff.1 hr
  have hsplit : c.indent ++ (.newline :: c.indent ++ .name name.length name :: r'.1) ++ rest =
      c.indent ++ .newline :: (c.indent ++ .name name.length name :: r'.1 ++ rest) := by simp
  dsimp only
  rw [hsplit, linesOf_append (newline_not_mem_indent c)]
  exact ⟨c.indent, List.mem_cons_self, fun h => h.named (columns_indent c)⟩

end Layout

/-- **When the layout is right**: the first name is not wider than all columns, and no int overflows. -/
theorem print_right_iff (c : Columns) (title dirprefix : Str) (l : Names) :
    Right c title dirprefix l ↔ l.names = [] ∨
      (∀ name ∈ (qsort l.names).head?, name.length ≤ c.ncolumns * COLUMNWIDTH) ∧
        c.maxposition < 2 ^ 31 ∧ l.names.length < 2 ^ 31 ∧ NoOverflow c c.start (qsort l.names) := by
  by_cases hnil : l.names = []
  · refine iff_of_true ⟨⟨[], []⟩, if_pos hnil, fun h => absurd hnil h, ?_, ?_⟩ (Or.inl hnil)
    · rw [hnil]
      rfl
    · exact fun line hline => absurd hline List.not_mem_nil
  · have hperm : (qsort l.names).Perm l.names := List.perm_insertionSort _ _
    have hne : ∀ s ∈ qsort l.names, s ≠ [] := fun s hs => l.ne_nil s (hperm.mem_iff.1 hs)
    have hsome : qsort l.names ≠ [] := fun h => hnil (List.nil_perm.1 (h ▸ hperm))
    obtain ⟨name, names, hsort⟩ := List.exists_cons_of_ne_nil hsome
    rw [or_iff_right hnil, Right, print, if_neg hnil]
    rw [hsort] at hne ⊢
    by_cases hint : c.maxposition < 2 ^ 31 ∧ l.names.length < 2 ^ 31
    · rw [if_neg (not_not.2 hint), ← loop_isSome]
      cases hr : c.loop c.start (name :: names) with
      | none => exact iff_of_false (fun ⟨_, h, _⟩ => nomatch h) fun h => absurd h.2.2.2 Bool.false_ne_true
      | some r =>
        constructor
        · rintro ⟨_, hout, -, -, hgood⟩
          cases hout
          refine ⟨fun first hfirst => ?_, hint.1, hint.2, rfl⟩
          cases hfirst
          by_contra hwide
          obtain ⟨line, hline, hbad⟩ := body_bad (not_le.1 hwide) hr (if r.2 ≠ 0 then [.newline] else [])
          exact hbad (hgood line hline)
        · rintro ⟨hfits, -⟩
          obtain ⟨hgood, horder, hlast⟩ := body_good hne (hfits name rfl) hr
          have hbody : (c.indent ++ r.1 ++ if r.2 ≠ 0 then [.newline] else []) = c.indent ++ r.1 ++ [.newline] := by
            rw [if_pos hlast]
          rw [Option.map_some, hbody]
          exact ⟨_, rfl, fun _ => ⟨rfl, _, rfl⟩, horder, hgood⟩
    · rw [if_pos hint]
      exact iff_of_false (fun ⟨_, h, _⟩ => nomatch h) fun h => hint ⟨h.2.1, h.2.2.1⟩

/-- A name of 16 characters has an empty line above it. -/
theorem blank_line : ¬Right ⟨1, false, by decide⟩ "Files".toList []
    ⟨["a-very-long-name".toList], by decide⟩ := by
  rintro ⟨out, hout, -, -, hgood⟩
  have hprint : print ⟨1, false, by decide⟩ "Files".toList [] ["a-very-long-name".toList] =
      some ⟨[], [.newline, .name 16 "a-very-long-name".toList, .newline]⟩ := by decide
  cases Option.some.inj (hprint.symm.trans hout)
  exact (hgood [] (by decide)).named rfl

end MNetSoft.Cmd.Ylc
