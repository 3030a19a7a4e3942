/-
The pager of `resh`: `page` of `pg.c`, which prints a file until the rows of the window are used up, and then waits for
a key. A line counts for as many rows as it is wider than the window.

The rows and columns are what the terminal says, and it may say 0. With one row or none the loop that reads does not run
at all, and with no columns the first line divides by zero. What `fgets` reads is printed up to the first NUL in it.
- `page_copied`: what a run that returns has printed.
- `page_returns`: where there are two rows, as many keys as lines are enough.
- `pages_iff`: for which windows and inputs the pager works.
- `one_row`: a window of one row.
-/
import Mathlib.Tactic
import MNetSoft.Core.CString
import MNetSoft.Core.Pieces

namespace MNetSoft.Pager

open MNetSoft.CString

/-! ## Model -/

/-- what `TIOCGWINSZ` reports -/
structure Winsize where
  ws_row : UInt16
  ws_col : UInt16

/-- `resize`: the rows and columns of the terminal -/
def resize (ws : Winsize) : ℤ × ℤ := (ws.ws_row.toNat, ws.ws_col.toNat)

inductive Event where
  /-- `fgets` has read a line, and this much of it is printed -/
  | fputs (s : Str)
  /-- the message on the terminal, which asks for a key -/
  | prompt
  /-- blanks over the message -/
  | erase
deriving DecidableEq

inductive Outcome where
  /-- a division by zero -/
  | crashed
  | returned (out : List Event)
  /-- the keys are used up, and the pager waits for one more -/
  | waiting (out : List Event)
deriving DecidableEq

/-- an outcome with what has come out before -/
def Outcome.after (out : List Event) : Outcome → Outcome
  | .crashed => .crashed
  | .returned out' => .returned (out ++ out')
  | .waiting out' => .waiting (out ++ out')

/-- the loop over the rows of one screen, with the lines `fgets` has yet to deliver: what is printed and the lines that
are left, `none` for them if the file has come to its end -/
def screen (rows columns : ℤ) : ℤ → List Str → Option (List Event × Option (List Str))
  | i, [] => some ([], if i < rows - 1 then none else some [])
  | i, buf :: lines =>
    if i < rows - 1 then
      if columns = 0 then none
      else
        (screen rows columns (i + ((cstr buf).length + columns - 1) / columns) lines).map fun r =>
          (.fputs (cstr buf) :: r.1, r.2)
    else some ([], some (buf :: lines))

/-- the key `getch` returns: `q` or `Q` -/
def Quits (ch : ℤ) : Prop := ch = ('Q'.toNat : ℤ) ∨ ch = ('q'.toNat : ℤ)

instance (ch : ℤ) : Decidable (Quits ch) := by
  unfold Quits
  infer_instance

/-- the loop of `page` with the keys that are pressed -/
def pageLoop (rows columns : ℤ) : List ℤ → List Str → Outcome
  | keys, lines =>
    match screen rows columns 0 lines with
    | none => .crashed
    | some (out, none) => .returned out
    | some (out, some rest) =>
      match keys with
      | [] => .waiting (out ++ [.prompt])
      | ch :: keys =>
        if Quits ch then .returned (out ++ [.prompt, .erase])
        else (pageLoop rows columns keys rest).after (out ++ [.prompt, .erase])

def page (ws : Winsize) (keys : List ℤ) (input : Str) : Outcome :=
  pageLoop (resize ws).1 (resize ws).2 keys (fgetsAll 2048 input)

/-! ## What is wanted -/

/-- what is copied to the output -/
def copied (out : List Event) : Str :=
  out.flatMap fun
    | .fputs s => s
    | _ => []

/-- a line is read between any two prompts; `true` if one has been read since the last prompt, or there was none -/
def Spaced : Bool → List Event → Prop
  | _, [] => True
  | _, .fputs _ :: out => Spaced true out
  | fresh, .prompt :: out => fresh = true ∧ Spaced false out
  | fresh, .erase :: out => Spaced fresh out

/-- whatever keys other than `q` are pressed, after finitely many of them the pager has returned, has copied the input,
and has read lines between its prompts -/
def Pages (ws : Winsize) (input : Str) : Prop :=
  ∀ keys : ℕ → ℤ, (∀ n, ¬Quits (keys n)) →
    ∃ n out, page ws ((List.range n).map keys) input = .returned out ∧ copied out = input ∧ Spaced true out

/-! ## One screen -/

section Loop

variable {rows columns : ℤ}

/-- what is printed of the lines -/
def shown (lines : List Str) : List Event := lines.map fun buf => .fputs (cstr buf)

/-- **One screen.** Lines are read in order, at least one where there are two rows and a line is left; the loop stops
for a key, or at the end of the file. -/
theorem screen_spec (hcol : columns ≠ 0) (i : ℤ) (lines : List Str) :
    ∃ read rest o, lines = read ++ rest ∧ screen rows columns i lines = some (shown read, o) ∧
      (o = none ∧ rest = [] ∨ o = some rest ∧ (i < rows - 1 → read ≠ [])) := by
  induction lines generalizing i with
  | nil =>
    refine ⟨[], [], _, rfl, rfl, ?_⟩
    by_cases hi : i < rows - 1
    · exact Or.inl ⟨if_pos hi, rfl⟩
    · exact Or.inr ⟨if_neg hi, fun h => absurd h hi⟩
  | cons buf lines ih =>
    by_cases hi : i < rows - 1
    · obtain ⟨read, rest, o, rfl, hscreen, ho⟩ := ih (i + ((cstr buf).length + columns - 1) / columns)
      refine ⟨buf :: read, rest, o, rfl, ?_, ho.imp_right fun h => ⟨h.1, fun _ => List.cons_ne_nil buf read⟩⟩
      rw [screen, if_pos hi, if_neg hcol, hscreen]
      rfl
    · exact ⟨[], buf :: lines, _, rfl, by rw [screen, if_neg hi]; rfl, Or.inr ⟨rfl, fun h => absurd h hi⟩⟩

theorem copied_append (out out' : List Event) : copied (out ++ out') = copied out ++ copied out' :=
  List.flatMap_append

theorem copied_shown (lines : List Str) : copied (shown lines) = (lines.map cstr).flatten := by
  induction lines with
  | nil => rfl
  | cons buf lines ih => exact congrArg (cstr buf ++ ·) ih

theorem spaced_shown (lines : List Str) (fresh : Bool) (out : List Event) (h : lines ≠ [] → Spaced true out)
    (h' : lines = [] → Spaced fresh out) : Spaced fresh (shown lines ++ out) := by
  induction lines generalizing fresh with
  | nil => exact h' rfl
  | cons buf lines ih => exact ih true (fun _ => h (List.cons_ne_nil _ _)) fun _ => h (List.cons_ne_nil _ _)

theorem spaced_lines (lines : List Str) (fresh : Bool) : Spaced fresh (shown lines) := by
  have hspaced := spaced_shown lines fresh [] (fun _ => trivial) fun _ => trivial
  rwa [List.append_nil] at hspaced

/-! ## The run -/

/-- **One turn.** It returns at the end of the file, and otherwise goes on with the lines it has left. -/
theorem pageLoop_turn (hcol : columns ≠ 0) (lines : List Str) :
    ∃ read rest, lines = read ++ rest ∧
      ((rest = [] ∧ ∀ keys, pageLoop rows columns keys lines = .returned (shown read)) ∨
        (1 < rows → read ≠ []) ∧ pageLoop rows columns [] lines = .waiting (shown read ++ [.prompt]) ∧
        ∀ ch keys, ¬Quits ch → pageLoop rows columns (ch :: keys) lines =
          (pageLoop rows columns keys rest).after (shown read ++ [.prompt, .erase])) := by
  obtain ⟨read, rest, o, hlines, hscreen, ho⟩ := @screen_spec rows columns hcol 0 lines
  refine ⟨read, rest, hlines, ho.imp ?_ ?_⟩
  · rintro ⟨rfl, hrest⟩
    refine ⟨hrest, fun keys => ?_⟩
    cases keys <;> rw [pageLoop, hscreen]
  · rintro ⟨rfl, hread⟩
    refine ⟨fun h => hread (by omega), by rw [pageLoop, hscreen], fun ch keys hch => ?_⟩
    rw [pageLoop, hscreen]
    exact if_neg hch

theorem after_eq_returned {out out' : List Event} {r : Outcome} (h : r.after out = .returned out') :
    ∃ out'', r = .returned out'' ∧ out' = out ++ out'' := by
  cases r with
  | returned out'' =>
    cases h
    exact ⟨out'', rfl, rfl⟩
  | crashed => cases h
  | waiting => cases h

/-- **What is copied**: the lines, each up to its first NUL. -/
theorem page_copied (hcol : columns ≠ 0) {keys : List ℤ} (hkeys : ∀ ch ∈ keys, ¬Quits ch) {lines : List Str}
    {out : List Event} (h : pageLoop rows columns keys lines = .returned out) :
    copied out = (lines.map cstr).flatten := by
  induction keys generalizing lines out with
  | nil =>
    obtain ⟨read, rest, rfl, ⟨rfl, hend⟩ | ⟨-, hwait, -⟩⟩ := @pageLoop_turn rows columns hcol lines
    · cases (hend []).symm.trans h
      rw [copied_shown, List.append_nil]
    · cases hwait.symm.trans h
  | cons ch keys ih =>
    obtain ⟨hch, hkeys⟩ := List.forall_mem_cons.1 hkeys
    obtain ⟨read, rest, rfl, ⟨rfl, hend⟩ | ⟨-, -, hgo⟩⟩ := @pageLoop_turn rows columns hcol lines
    · cases (hend (ch :: keys)).symm.trans h
      rw [copied_shown, List.append_nil]
    · obtain ⟨out', hout', rfl⟩ := after_eq_returned ((hgo ch keys hch).symm.trans h)
      rw [copied_append, copied_append, copied_shown, ih hkeys hout', List.map_append, List.flatten_append]
      simp [copied]

/-- **As many keys as lines are enough**, and a line is read between any two prompts. -/
theorem page_returns (hcol : columns ≠ 0) (hrow : 1 < rows) {keys : List ℤ} (hkeys : ∀ ch ∈ keys, ¬Quits ch)
    {lines : List Str} (hlen : lines.length ≤ keys.length) (fresh : Bool) :
    ∃ out, pageLoop rows columns keys lines = .returned out ∧ Spaced fresh out := by
  induction keys generalizing lines fresh with
  | nil =>
    obtain ⟨read, rest, rfl, ⟨rfl, hend⟩ | ⟨hread, -, -⟩⟩ := @pageLoop_turn rows columns hcol lines
    · exact ⟨_, hend [], spaced_lines read fresh⟩
    · have hpos := List.length_pos_iff.2 (hread hrow)
      rw [List.length_append, List.length_nil] at hlen
      omega
  | cons ch keys ih =>
    obtain ⟨hch, hkeys⟩ := List.forall_mem_cons.1 hkeys
    obtain ⟨read, rest, rfl, ⟨rfl, hend⟩ | ⟨hread, -, hgo⟩⟩ := @pageLoop_turn rows columns hcol lines
    · exact ⟨_, hend _, spaced_lines read fresh⟩
    · have hpos := List.length_pos_iff.2 (hread hrow)
      rw [List.length_append, List.length_cons] at hlen
      obtain ⟨out, hout, hspaced⟩ := @ih hkeys rest (by omega) false
      refine ⟨_, by rw [hgo ch keys hch, hout]; rfl, ?_⟩
      rw [List.append_assoc]
      exact spaced_shown read fresh _ (fun _ => ⟨rfl, hspaced⟩) fun h => absurd h (hread hrow)

/-- with one row nothing is read, and there is a prompt after every key -/
theorem pageLoop_one_row (hrow : rows ≤ 1) {keys : List ℤ} (hkeys : ∀ ch ∈ keys, ¬Quits ch) (lines : List Str) :
    ∃ out, pageLoop rows columns keys lines = .waiting out := by
  have hscreen : screen rows columns 0 lines = some ([], some lines) := by
    cases lines <;> rw [screen, if_neg (by omega)]
  induction keys with
  | nil => exact ⟨[] ++ [.prompt], by rw [pageLoop, hscreen]⟩
  | cons ch keys ih =>
    obtain ⟨hch, hkeys⟩ := List.forall_mem_cons.1 hkeys
    obtain ⟨out, hout⟩ := ih hkeys
    refine ⟨[] ++ [.prompt, .erase] ++ out, ?_⟩
    rw [pageLoop, hscreen]
    exact (if_neg hch).trans (by rw [hout]; rfl)

/-- with no columns the first line divides by zero -/
theorem pageLoop_no_columns (hrow : 1 < rows) (keys : List ℤ) {lines : List Str} (hlines : lines ≠ []) :
    pageLoop rows 0 keys lines = .crashed := by
  obtain ⟨buf, rest, rfl⟩ := List.exists_cons_of_ne_nil hlines
  have hscreen : screen rows 0 0 (buf :: rest) = none := by
    rw [screen, if_pos (by omega), if_pos rfl]
  cases keys <;> rw [pageLoop, hscreen]

end Loop

/-! ## When the pager works -/

theorem cstr_eq_iff {l : Str} : cstr l = l ↔ '\x00' ∉ l :=
  ⟨fun h => h ▸ nul_not_mem_cstr l, cstr_of_not_mem⟩

theorem length_map_cstr (lines : List Str) : (lines.map cstr).flatten.length ≤ lines.flatten.length := by
  induction lines with
  | nil => exact le_rfl
  | cons l lines ih =>
    have hle := length_cstr_le l
    simp only [List.map_cons, List.flatten_cons, List.length_append]
    omega

/-- nothing is lost of lines without NULs, and something of all others -/
theorem map_cstr_eq_iff (lines : List Str) : (lines.map cstr).flatten = lines.flatten ↔ '\x00' ∉ lines.flatten := by
  induction lines with
  | nil => simp
  | cons l lines ih =>
    rw [List.map_cons, List.flatten_cons, List.flatten_cons, List.mem_append, not_or, ← ih, ← cstr_eq_iff]
    refine ⟨fun h => ?_, fun h => by rw [h.1, h.2]⟩
    have hle := length_cstr_le l
    have hrest := length_map_cstr lines
    have hlen := congrArg List.length h
    rw [List.length_append, List.length_append] at hlen
    exact List.append_inj h (by omega)

theorem space_not_quits : ¬Quits 32 := by decide

theorem pressed {keys : ℕ → ℤ} (h : ∀ n, ¬Quits (keys n)) (n : ℕ) : ∀ ch ∈ (List.range n).map keys, ¬Quits ch := by
  intro ch hch
  obtain ⟨k, -, rfl⟩ := List.mem_map.1 hch
  exact h k

/-- **When the pager works**: with at least two rows, with a column if there is something to read, and without NULs. -/
theorem pages_iff (ws : Winsize) (input : Str) :
    Pages ws input ↔ 2 ≤ ws.ws_row.toNat ∧ (input = [] ∨ ws.ws_col.toNat ≠ 0) ∧ '\x00' ∉ input := by
  set lines := fgetsAll 2048 input with hlines
  have hflat : lines.flatten = input := flatten_fgetsAll (by decide) input
  have hspaces := pressed fun _ => space_not_quits
  constructor
  · intro h
    obtain ⟨n, out, hout, hcopied, -⟩ := h (fun _ => 32) fun _ => space_not_quits
    unfold page resize at hout
    dsimp only at hout
    have hrow : 2 ≤ ws.ws_row.toNat := by
      by_contra hrow
      obtain ⟨out', hout'⟩ := @pageLoop_one_row ws.ws_row.toNat ws.ws_col.toNat (by omega) _ (hspaces n) lines
      cases hout'.symm.trans hout
    have hcol : input = [] ∨ ws.ws_col.toNat ≠ 0 := by
      refine or_iff_not_imp_left.2 fun hne hzero => ?_
      have hne' : lines ≠ [] := by
        rintro hnil
        rw [hnil] at hflat
        exact hne hflat.symm
      rw [hzero, Nat.cast_zero, pageLoop_no_columns (by omega) _ hne'] at hout
      cases hout
    refine ⟨hrow, hcol, ?_⟩
    rcases hcol with rfl | hcol
    · exact List.not_mem_nil
    · have hprinted := page_copied (by exact_mod_cast hcol) (hspaces n) hout
      rw [← hflat, ← map_cstr_eq_iff, ← hprinted, hcopied, hflat]
  · rintro ⟨hrow, hcol, hnul⟩ keys hkeys
    rcases hcol with rfl | hcol
    · refine ⟨0, [], ?_, rfl, trivial⟩
      have hempty : pageLoop ws.ws_row.toNat ws.ws_col.toNat [] [] = .returned [] := by
        rw [pageLoop, screen, if_pos (by omega)]
      exact hempty
    · have hpressed := pressed hkeys lines.length
      have hcol' : ((ws.ws_col.toNat : ℕ) : ℤ) ≠ 0 := by exact_mod_cast hcol
      obtain ⟨out, hout, hspaced⟩ := @page_returns ws.ws_row.toNat _ hcol' (by omega) _ hpressed lines (by simp) true
      have hprinted := page_copied hcol' hpressed hout
      refine ⟨lines.length, out, hout, ?_, hspaced⟩
      rw [hprinted, (map_cstr_eq_iff lines).2 (by rwa [hflat]), hflat]

/-- **A window of one row.** The pager asks for a key again and again, and reads nothing. -/
theorem one_row : ¬Pages ⟨1, 80⟩ ['a', '\n'] := by
  intro h
  obtain ⟨n, out, hout, -⟩ := h (fun _ => 32) fun _ => space_not_quits
  have hpressed := pressed (fun _ => space_not_quits) n
  obtain ⟨out', hout'⟩ := @pageLoop_one_row 1 80 le_rfl _ hpressed (fgetsAll 2048 ['a', '\n'])
  cases hout'.symm.trans hout

end MNetSoft.Pager
