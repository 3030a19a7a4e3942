/-
The fortunes of `resh`. `indexfile` of `fortuneindex.c` writes where in a file the fortunes start, and the loop of
`fortune.c` prints the fortune that starts there. Between two fortunes stands a line of one `%`.

Both look for this line through three characters. The window of `indexfile` slides over the whole file; that of the loop
starts anew at each fortune, and because it prints the character before the last one read, it never prints the last
character of the file. `indexfile` writes one offset more at the end of the file, whether a fortune starts there or not.
- `indexfile_joined`: the offsets are the starts of the fortunes.
- `fortunes_printed`: what is printed from each of them.
- `fortunes_right_iff`: when index and loop agree with the file.
- `percent_last`: a file whose last line is the `%`.
-/
import Mathlib.Tactic
import MNetSoft.Core.CString

namespace MNetSoft.Fortune

open MNetSoft.CString

/-! ## Model -/

/-- the loop of `indexfile` on the rest of the file, which starts at `tell`: the offsets it writes -/
def indexLoop : Str → ℕ → ℕ → Char → Char → List ℕ
  | [], _, pos, _, _ => [pos]
  | ch :: s, tell, pos, ch0, ch1 =>
    if (ch1 = '\n' ∨ ch1 = '\x00') ∧ ch0 = '%' ∧ ch = '\n' then pos :: indexLoop s (tell + 1) (tell + 1) ch ch0
    else indexLoop s (tell + 1) pos ch ch0

def indexfile (s : Str) : List ℕ := indexLoop s 0 0 '\x00' '\x00'

/-- the loop of `fortune` with `ch1` and the file from `ch0` on: what it prints -/
def showLoop : Char → Str → Str
  | ch1, ch0 :: ch :: s =>
    if (ch1 = '\x00' ∨ ch1 = '\n') ∧ ch0 = '%' ∧ ch = '\n' then [] else ch0 :: showLoop ch0 (ch :: s)
  | _, _ => []

/-- what is printed from an offset on -/
def fortune (s : Str) (pos : ℕ) : Str := showLoop '\x00' (s.drop pos)

/-! ## Files of fortunes -/

/-- a line of a fortune -/
structure Line where
  chars : Str
  no_newline : '\n' ∉ chars
  no_nul : '\x00' ∉ chars
  ne_percent : chars ≠ ['%']

/-- a fortune as it stands in the file -/
def text (f : List Line) : Str := f.flatMap fun l => l.chars ++ ['\n']

def percent : Str := ['%', '\n']

/-- the fortunes with a `%` line between any two of them -/
def joined : List (List Line) → Str
  | [] => []
  | [f] => text f
  | f :: g :: fs => text f ++ percent ++ joined (g :: fs)

/-- fortunes in a file, with or without a `%` line at the end -/
structure File where
  fortunes : List (List Line)
  nonempty : fortunes ≠ []
  ended : Bool

def File.text (f : File) : Str := joined f.fortunes ++ if f.ended then percent else []

/-- there are as many offsets as fortunes, and each fortune is printed from its offset -/
def Agree (f : File) : Prop := (indexfile f.text).map (fortune f.text) = f.fortunes.map Fortune.text

theorem text_cons (l : Line) (f : List Line) : text (l :: f) = l.chars ++ '\n' :: text f := by simp [text]

theorem Line.chars_ne (l : Line) : ∀ c ∈ l.chars, c ≠ '\n' ∧ c ≠ '\x00' :=
  fun _ hc => ⟨fun h => l.no_newline (h ▸ hc), fun h => l.no_nul (h ▸ hc)⟩

/-! ## The index -/

section Index

variable {ch0 ch1 : Char} {tell pos : ℕ} {l s : Str}

theorem indexLoop_skip {ch : Char} (h : ¬((ch1 = '\n' ∨ ch1 = '\x00') ∧ ch0 = '%' ∧ ch = '\n')) :
    indexLoop (ch :: s) tell pos ch0 ch1 = indexLoop s (tell + 1) pos ch ch0 := by
  rw [indexLoop, if_neg h]

/-- the rest of a line, where the window does not see the start of the line any more -/
theorem indexLoop_inside (hl : ∀ c ∈ l, c ≠ '\n' ∧ c ≠ '\x00') (h0 : ch0 ≠ '\n' ∧ ch0 ≠ '\x00')
    (h1 : ch1 ≠ '\n' ∧ ch1 ≠ '\x00') :
    ∃ c, indexLoop (l ++ '\n' :: s) tell pos ch0 ch1 = indexLoop s (tell + l.length + 1) pos '\n' c := by
  induction l generalizing ch0 ch1 tell with
  | nil => exact ⟨ch0, indexLoop_skip fun h => h.1.elim h1.1 h1.2⟩
  | cons c l ih =>
    obtain ⟨hc, hl⟩ := List.forall_mem_cons.1 hl
    obtain ⟨d, hd⟩ := @ih c ch0 (tell + 1) hl hc h0
    refine ⟨d, ?_⟩
    rw [List.cons_append, indexLoop_skip fun h => h.1.elim h1.1 h1.2, hd, List.length_cons]
    congr 1
    omega

/-- **A line.** The window fires at the end of a `%` line, and nowhere else. -/
theorem indexLoop_line (h0 : ch0 = '\n' ∨ ch0 = '\x00') (hl : ∀ c ∈ l, c ≠ '\n' ∧ c ≠ '\x00') :
    ∃ c, indexLoop (l ++ '\n' :: s) tell pos ch0 ch1 =
      if l = ['%'] then pos :: indexLoop s (tell + 2) (tell + 2) '\n' c
      else indexLoop s (tell + l.length + 1) pos '\n' c := by
  have hfirst : ch0 ≠ '%' := by
    rintro rfl
    exact absurd h0 (by decide)
  match l, hl with
  | [], _ => exact ⟨ch0, indexLoop_skip fun h => hfirst h.2.1⟩
  | [c], _ =>
    refine ⟨c, ?_⟩
    rw [List.singleton_append, indexLoop_skip fun h => hfirst h.2.1]
    by_cases hc : c = '%'
    · rw [hc, indexLoop, if_pos ⟨h0, rfl, rfl⟩, if_pos rfl]
    · rw [indexLoop_skip fun h => hc h.2.1, if_neg fun h => hc (List.cons.inj h).1]
      rfl
  | c :: d :: l, hl =>
    obtain ⟨hc, hl⟩ := List.forall_mem_cons.1 hl
    obtain ⟨hd, hl⟩ := List.forall_mem_cons.1 hl
    obtain ⟨e, he⟩ := @indexLoop_inside d c (tell + 1 + 1) pos l s hl hd hc
    refine ⟨e, ?_⟩
    rw [List.cons_append, List.cons_append, indexLoop_skip fun h => hfirst h.2.1,
      indexLoop_skip fun h => hd.1 h.2.2, he, if_neg (by simp), List.length_cons, List.length_cons]
    congr 1
    omega

/-- no offset is written in a fortune -/
theorem indexLoop_text (f : List Line) (h0 : ch0 = '\n' ∨ ch0 = '\x00') :
    ∃ c d, (c = '\n' ∨ c = '\x00') ∧
      indexLoop (text f ++ s) tell pos ch0 ch1 = indexLoop s (tell + (text f).length) pos c d := by
  induction f generalizing ch0 ch1 tell with
  | nil => exact ⟨ch0, ch1, h0, rfl⟩
  | cons l f ih =>
    obtain ⟨e, he⟩ := @indexLoop_line ch0 ch1 tell pos l.chars (text f ++ s) h0 l.chars_ne
    obtain ⟨c, d, hc, hd⟩ := @ih '\n' e (tell + l.chars.length + 1) (Or.inl rfl)
    refine ⟨c, d, hc, ?_⟩
    calc indexLoop (text (l :: f) ++ s) tell pos ch0 ch1
      _ = indexLoop (l.chars ++ '\n' :: (text f ++ s)) tell pos ch0 ch1 := by
        rw [text_cons, List.append_assoc, List.cons_append]
      _ = indexLoop (text f ++ s) (tell + l.chars.length + 1) pos '\n' e := by rw [he, if_neg l.ne_percent]
      _ = indexLoop s (tell + l.chars.length + 1 + (text f).length) pos c d := hd
      _ = indexLoop s (tell + (text (l :: f)).length) pos c d := by
        rw [text_cons, List.length_append, List.length_cons]
        congr 1
        omega

/-- where the fortunes start, if the first one starts at `tell` -/
def starts : ℕ → List (List Line) → List ℕ
  | _, [] => []
  | tell, f :: fs => tell :: starts (tell + (text f).length + 2) fs

theorem indexLoop_joined {fs : List (List Line)} (hfs : fs ≠ []) (h0 : ch0 = '\n' ∨ ch0 = '\x00') :
    indexLoop (joined fs) tell tell ch0 ch1 = starts tell fs := by
  induction fs generalizing ch0 ch1 tell with
  | nil => exact absurd rfl hfs
  | cons f fs ih =>
    cases fs with
    | nil =>
      obtain ⟨c, d, -, h⟩ := @indexLoop_text ch0 ch1 tell tell [] f h0
      rw [List.append_nil] at h
      rw [joined, h]
      rfl
    | cons g fs =>
      obtain ⟨c, d, hc, h⟩ := @indexLoop_text ch0 ch1 tell tell (percent ++ joined (g :: fs)) f h0
      obtain ⟨e, he⟩ := @indexLoop_line c d (tell + (text f).length) tell ['%'] (joined (g :: fs)) hc (by decide)
      calc indexLoop (joined (f :: g :: fs)) tell tell ch0 ch1
        _ = indexLoop (text f ++ (percent ++ joined (g :: fs))) tell tell ch0 ch1 := by
          rw [joined, List.append_assoc]
        _ = indexLoop (['%'] ++ '\n' :: joined (g :: fs)) (tell + (text f).length) tell c d := h
        _ = tell :: indexLoop (joined (g :: fs)) (tell + (text f).length + 2) (tell + (text f).length + 2) '\n' e := by
          rw [he, if_pos rfl]
        _ = starts tell (f :: g :: fs) := by
          rw [ih (List.cons_ne_nil g fs) (Or.inl rfl)]
          rfl

/-- **The index** is the list of where the fortunes start. -/
theorem indexfile_joined {fs : List (List Line)} (hfs : fs ≠ []) : indexfile (joined fs) = starts 0 fs :=
  indexLoop_joined hfs (Or.inr rfl)

end Index

/-! ## The loop that prints -/

section Show

variable {ch1 : Char} {l s : Str}

/-- what is printed of a newline and the file behind it: nothing if it is the last character -/
def behind (s : Str) : Str := if s = [] then [] else '\n' :: showLoop '\n' s

theorem showLoop_newline (ch1 : Char) (s : Str) : showLoop ch1 ('\n' :: s) = behind s := by
  cases s with
  | nil => rfl
  | cons c s => exact if_neg fun h => absurd h.2.1 (by decide)

theorem showLoop_skip {ch0 ch : Char} (h : ¬((ch1 = '\x00' ∨ ch1 = '\n') ∧ ch0 = '%' ∧ ch = '\n')) :
    showLoop ch1 (ch0 :: ch :: s) = ch0 :: showLoop ch0 (ch :: s) := by
  rw [showLoop, if_neg h]

/-- the rest of a line, where the window does not see the start of the line any more -/
theorem showLoop_inside (hl : ∀ c ∈ l, c ≠ '\n' ∧ c ≠ '\x00') (h1 : ch1 ≠ '\n' ∧ ch1 ≠ '\x00') :
    showLoop ch1 (l ++ '\n' :: s) = l ++ behind s := by
  induction l generalizing ch1 with
  | nil => exact showLoop_newline ch1 s
  | cons c l ih =>
    obtain ⟨hc, hl⟩ := List.forall_mem_cons.1 hl
    obtain ⟨d, m, hdm⟩ : ∃ d m, l ++ '\n' :: s = d :: m := by
      cases l with
      | nil => exact ⟨_, _, rfl⟩
      | cons d l => exact ⟨_, _, rfl⟩
    rw [List.cons_append, hdm, showLoop_skip fun h => h.1.elim h1.2 h1.1, ← hdm, ih hl hc]
    rfl

/-- **A line.** It is printed, but for a newline that is the last character of the file. -/
theorem showLoop_line (ch1 : Char) (l : Line) (s : Str) :
    showLoop ch1 (l.chars ++ '\n' :: s) = l.chars ++ behind s := by
  have hl := l.chars_ne
  have hne := l.ne_percent
  match l.chars, hl, hne with
  | [], _, _ => exact showLoop_newline ch1 s
  | [c], _, hne =>
    rw [List.singleton_append, showLoop_skip fun h => hne (by rw [h.2.1]), showLoop_newline]
    rfl
  | c :: d :: l, hl, _ =>
    obtain ⟨hc, hl⟩ := List.forall_mem_cons.1 hl
    have hd := (List.forall_mem_cons.1 hl).1
    have hrest := @showLoop_inside c (d :: l) s hl hc
    rw [List.cons_append] at hrest
    rw [List.cons_append, List.cons_append, showLoop_skip fun h => hd.1 h.2.2, hrest]
    rfl

/-- a fortune with more of the file behind it -/
theorem showLoop_text (f : List Line) (hs : s ≠ []) (h1 : ch1 = '\x00' ∨ ch1 = '\n') :
    ∃ c, (c = '\x00' ∨ c = '\n') ∧ showLoop ch1 (text f ++ s) = text f ++ showLoop c s := by
  induction f generalizing ch1 with
  | nil => exact ⟨ch1, h1, rfl⟩
  | cons l f ih =>
    obtain ⟨c, hc, h⟩ := ih (Or.inr rfl)
    have hmore : text f ++ s ≠ [] := List.append_ne_nil_of_right_ne_nil _ hs
    refine ⟨c, hc, ?_⟩
    calc showLoop ch1 (text (l :: f) ++ s)
      _ = showLoop ch1 (l.chars ++ '\n' :: (text f ++ s)) := by rw [text_cons, List.append_assoc, List.cons_append]
      _ = l.chars ++ '\n' :: showLoop '\n' (text f ++ s) := by rw [showLoop_line, behind, if_neg hmore]
      _ = l.chars ++ '\n' :: (text f ++ showLoop c s) := by rw [h]
      _ = text (l :: f) ++ showLoop c s := by rw [text_cons, List.append_assoc, List.cons_append]

/-- the last fortune loses its last character -/
theorem showLoop_last (f : List Line) : showLoop ch1 (text f) = (text f).dropLast := by
  induction f generalizing ch1 with
  | nil => rfl
  | cons l f ih =>
    rw [text_cons, showLoop_line, behind]
    by_cases hf : text f = []
    · rw [if_pos hf, hf, List.append_nil, List.dropLast_concat]
    · rw [if_neg hf, ih, List.dropLast_append_of_ne_nil (List.cons_ne_nil _ _), List.dropLast_cons_of_ne_nil hf]

end Show

/-- what comes out for each fortune -/
def printed : List (List Line) → List Str
  | [] => []
  | [f] => [(text f).dropLast]
  | f :: g :: fs => text f :: printed (g :: fs)

/-- what is printed from the starts of the fortunes, with something in front of them -/
theorem starts_printed (pre : Str) (fs : List (List Line)) :
    (starts pre.length fs).map (fortune (pre ++ joined fs)) = printed fs := by
  induction fs generalizing pre with
  | nil => rfl
  | cons f fs ih =>
    rw [starts, List.map_cons, fortune, List.drop_left]
    cases fs with
    | nil =>
      rw [joined, showLoop_last]
      rfl
    | cons g fs =>
      have hpre : pre ++ joined (f :: g :: fs) = pre ++ text f ++ percent ++ joined (g :: fs) := by
        simp [joined, List.append_assoc]
      have hlen : pre.length + (text f).length + 2 = (pre ++ text f ++ percent).length := by
        simp [percent, Nat.add_assoc]
      obtain ⟨c, hc, h⟩ := @showLoop_text '\x00' (percent ++ joined (g :: fs)) f (by simp [percent]) (Or.inl rfl)
      have hstop : showLoop c (percent ++ joined (g :: fs)) = [] := if_pos ⟨hc, rfl, rfl⟩
      rw [hpre, hlen, ih, joined, List.append_assoc, h, hstop, List.append_nil]
      rfl

/-- **What is printed** from the offsets of a file -/
theorem fortunes_printed {fs : List (List Line)} (hfs : fs ≠ []) :
    (indexfile (joined fs)).map (fortune (joined fs)) = printed fs := by
  rw [indexfile_joined hfs]
  exact starts_printed [] fs

/-! ## When index and loop agree -/

theorem length_printed (fs : List (List Line)) : (printed fs).length = fs.length := by
  induction fs with
  | nil => rfl
  | cons f fs ih =>
    cases fs with
    | nil => rfl
    | cons g fs => exact congrArg (· + 1) ih

theorem text_eq_nil {f : List Line} : text f = [] ↔ f = [] := by
  cases f with
  | nil => exact iff_of_true rfl rfl
  | cons l f => simp [text_cons]

theorem dropLast_eq_iff {s : Str} : s.dropLast = s ↔ s = [] := by
  refine ⟨fun h => ?_, fun h => by rw [h]; rfl⟩
  have hlen := congrArg List.length h
  rw [List.length_dropLast] at hlen
  exact List.eq_nil_of_length_eq_zero (by omega)

theorem printed_eq_iff {fs : List (List Line)} (hfs : fs ≠ []) : printed fs = fs.map text ↔ fs.getLast hfs = [] := by
  induction fs with
  | nil => exact absurd rfl hfs
  | cons f fs ih =>
    cases fs with
    | nil =>
      calc printed [f] = [f].map text
        _ ↔ (text f).dropLast = text f := by simp [printed]
        _ ↔ text f = [] := dropLast_eq_iff
        _ ↔ f = [] := text_eq_nil
    | cons g fs =>
      rw [printed, List.map_cons, List.cons_inj_right, List.getLast_cons (List.cons_ne_nil g fs)]
      exact ih (List.cons_ne_nil g fs)

/-- a `%` line at the end is the same as an empty fortune behind it -/
theorem joined_ended {fs : List (List Line)} (hfs : fs ≠ []) : joined fs ++ percent = joined (fs ++ [[]]) := by
  induction fs with
  | nil => exact absurd rfl hfs
  | cons f fs ih =>
    cases fs with
    | nil => simp [joined, text]
    | cons g fs =>
      have hrest := ih (List.cons_ne_nil g fs)
      rw [List.cons_append] at hrest
      rw [joined, List.append_assoc, hrest]
      rfl

/-- **When index and loop agree with the file**: no `%` line at the end, and the last fortune is empty. -/
theorem fortunes_right_iff (f : File) : Agree f ↔ f.ended = false ∧ f.fortunes.getLast f.nonempty = [] := by
  unfold Agree File.text
  cases f.ended with
  | true =>
    rw [if_pos rfl, joined_ended f.nonempty, fortunes_printed (by simp)]
    refine iff_of_false (fun h => ?_) (by simp)
    have hlen := congrArg List.length h
    rw [length_printed] at hlen
    simp at hlen
  | false =>
    rw [if_neg (by simp), List.append_nil, fortunes_printed f.nonempty, printed_eq_iff f.nonempty]
    simp

/-- one fortune of one line, and the `%` line behind it -/
def oneEnded : File := ⟨[[⟨['a'], by decide, by decide, by decide⟩]], by decide, true⟩

/-- **A file whose last line is the `%`.** Behind it starts a second fortune, which is empty. -/
theorem percent_last : indexfile oneEnded.text = [0, 4] ∧ fortune oneEnded.text 4 = [] ∧ ¬Agree oneEnded := by
  refine ⟨by decide, by decide, ?_⟩
  unfold Agree
  decide

end MNetSoft.Fortune
