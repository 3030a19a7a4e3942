/-
What `wrap_text` of `wnu-getu.c` makes of a text: it breaks lines that are too long at their last space, and joins
what is left of them to the next line where the text had a newline that is no longer wanted.

`col` counts the space at which a line was broken to the next line, so it is the length of the current line or one more.
The length of a value goes through an `int`, so the count of its characters does not overflow one.
- `wrapChar_step`, `breakLine_cases`: what a character does.
- `wrapLoop_run`: what holds before and after every character holds at the end.
- `Between`: the invariant, with one lemma for each of its parts.
- `wrap_text_right`: all of them, for every text.
-/
import Mathlib.Tactic
import MNetSoft.Ownu.Fields

namespace MNetSoft.Ownu

def blank : UInt8 := ' '.toUInt8

def tab : UInt8 := '\t'.toUInt8

/-- a character at which a line may be broken -/
def White (c : UInt8) : Prop := c = blank ∨ c = tab ∨ c = newline

/-- what a character may become -/
def Becomes (c d : UInt8) : Prop := ¬White c ∧ d = c ∨ White c ∧ (d = blank ∨ d = newline)

/-- a line that is longer than 72 characters has no place to break it -/
def Fits (l : Bytes) : Prop := 72 < l.length → blank ∉ l ∧ tab ∉ l

/-- **What is wanted** of a text and the wrapped one -/
structure Wrapped (s r : Bytes) : Prop where
  length : r.length = s.length
  others : ∀ (i : ℕ) c, s[i]? = some c → ¬White c → r[i]? = some c
  white : ∀ (i : ℕ) c, s[i]? = some c → White c → r[i]? = some blank ∨ r[i]? = some newline
  newlines : ∀ i : ℕ, s[i]? = some newline → s[i + 1]? = some newline →
    r[i]? = some newline ∧ r[i + 1]? = some newline
  lines : ∀ l ∈ r.splitOn newline, Fits l

/-! ## One character -/

section Wrap

variable {w w' : Wrap} {c : UInt8} {next : Option UInt8} {u : Bytes}

/-- what the `switch` does: the character is kept, or it becomes a space or a newline -/
inductive Step (w : Wrap) (c : UInt8) (next : Option UInt8) : Wrap → Prop
  | kept (hc : ¬White c) : Step w c next { w with text := w.text ++ [c], col := w.col + 1 }
  | space (hc : White c) (hcol : w.col ≤ MAXCOL) (hjoin : c = newline → next ≠ some newline ∧ w.have_wrapped = true) :
    Step w c next ⟨w.text ++ [blank], w.col + 1, some w.text.length, w.have_wrapped⟩
  | line (wrapped : Bool) (hc : White c) (hnew : c = newline → wrapped = false) :
    Step w c next ⟨w.text ++ [newline], 0, none, wrapped⟩

theorem wrapChar_step (h : wrapChar w c next = some w') : Step w c next w' := by
  unfold wrapChar at h
  dsimp only at h
  by_cases hnew : c = newline
  · have hwhite : White c := Or.inr (Or.inr hnew)
    rw [if_pos hnew] at h
    by_cases hjoin : w.have_wrapped = true ∧ w.col < MINCOL
    · rw [if_pos hjoin] at h
      obtain ⟨d, rfl, rfl⟩ := Option.map_eq_some_iff.1 h
      split_ifs with hd
      · refine Step.space hwhite (hjoin.2.le.trans (by decide)) fun _ => ⟨?_, hjoin.1⟩
        simpa using hd.1
      · exact Step.line false hwhite fun _ => rfl
    · rw [if_neg hjoin] at h
      cases h
      exact Step.line false hwhite fun _ => rfl
  · rw [if_neg hnew] at h
    by_cases hspace : c = ' '.toUInt8 ∨ c = '\t'.toUInt8
    · have hwhite : White c := hspace.imp_right Or.inl
      rw [if_pos hspace] at h
      split_ifs at h with hcol
      · cases h
        exact Step.line _ hwhite fun hc => absurd hc hnew
      · cases h
        exact Step.space hwhite (not_lt.1 hcol) fun hc => absurd hc hnew
    · rw [if_neg hspace] at h
      cases h
      exact Step.kept fun hc => hc.elim (fun h => hspace (Or.inl h)) fun h => h.elim (fun h => hspace (Or.inr h)) hnew

/-- the line is broken at its last space, or there is no need to -/
theorem breakLine_cases (w : Wrap) (c : UInt8) :
    (∃ l, w.last_space = some l ∧ c ≠ newline ∧ MAXCOL < w.col ∧
      breakLine w c = ⟨w.text.set l newline, w.text.length - l, none, true⟩) ∨
    breakLine w c = w ∧ ∀ l, w.last_space = some l → c ≠ newline → w.col ≤ MAXCOL := by
  unfold breakLine
  cases hlast : w.last_space with
  | none => exact Or.inr ⟨rfl, fun l h => nomatch h⟩
  | some l =>
    dsimp only
    split_ifs with h
    · exact Or.inl ⟨l, rfl, h.2, h.1, rfl⟩
    · exact Or.inr ⟨rfl, fun _ _ hc => not_lt.1 fun hcol => h ⟨hcol, hc⟩⟩

/-- **The run.** What holds of the text read so far, the text to come and the variables, and is kept by every character,
holds at the end. -/
theorem wrapLoop_run {P : Bytes → Bytes → Wrap → Prop} (post : Bytes)
    (hstep : ∀ u c s w w', P u (c :: s) w → c ≠ 0 →
      Step (breakLine w c) c (s ++ 0 :: post).head? w' → P (u ++ [c]) s w') {s : Bytes} (hs : 0 ∉ s) (h : P u s w) :
    ∃ w', wrapLoop (s ++ 0 :: post) w = some (w'.text ++ 0 :: post) ∧ P (u ++ s) [] w' := by
  induction s generalizing u w with
  | nil => exact ⟨w, if_pos rfl, by rwa [List.append_nil]⟩
  | cons c s ih =>
    obtain ⟨hc, hs⟩ := not_or.1 (mt List.mem_cons.2 hs)
    obtain ⟨d, m, hdm⟩ : ∃ d m, s ++ 0 :: post = d :: m := by
      cases s with
      | nil => exact ⟨_, _, rfl⟩
      | cons d s => exact ⟨_, _, rfl⟩
    obtain ⟨w₁, hw₁⟩ : ∃ w₁, wrapChar (breakLine w c) c (s ++ 0 :: post).head? = some w₁ := by
      rw [hdm]
      unfold wrapChar
      dsimp only
      split_ifs <;> exact ⟨_, rfl⟩
    obtain ⟨w', hw', hP⟩ := ih hs (hstep u c s w w₁ h (Ne.symm hc) (wrapChar_step hw₁))
    refine ⟨w', ?_, ?_⟩
    · rw [List.cons_append, wrapLoop, if_neg (Ne.symm hc), hw₁]
      exact hw'
    · rwa [List.append_assoc] at hP

/-! ## The invariant -/

/-- no place to break -/
def Solid (l : Bytes) : Prop := ∀ c ∈ l, ¬White c

/-- lines with their newlines -/
def closed (ls : List Bytes) : Bytes := ls.flatMap (· ++ [newline])

/-- `last_space` is the last space of the line that starts behind `pre`, and with a space in it the line is short -/
def LastSpace (w : Wrap) (pre cur : Bytes) : Prop :=
  w.last_space = none ∧ Solid cur ∨
    ∃ a b, cur = a ++ blank :: b ∧ w.last_space = some (pre ++ a).length ∧ newline ∉ a ∧ Solid b ∧ w.col ≤ 72

/-- the lines so far fit, and behind them is the current one -/
def Lined (w : Wrap) : Prop :=
  ∃ ls cur, (∀ l ∈ ls, newline ∉ l ∧ Fits l) ∧ w.text = closed ls ++ cur ∧ cur.length ≤ w.col ∧
    LastSpace w (closed ls) cur

/-- newlines side by side stay -/
def Doubled (u text : Bytes) : Prop :=
  ∀ i : ℕ, u[i]? = some newline → u[i + 1]? = some newline → text[i]? = some newline ∧ text[i + 1]? = some newline

/-- what holds between two characters: `u` has been read, and `s` is to come -/
structure Between (u s : Bytes) (w : Wrap) : Prop where
  kept : List.Forall₂ Becomes u w.text
  doubled : Doubled u w.text
  ending : u.getLast? = some newline → s.head? = some newline → w.text.getLast? = some newline ∧ w.have_wrapped = false
  lined : Lined w

theorem white_newline : White newline := Or.inr (Or.inr rfl)

theorem solid_nil : Solid [] := fun _ hc => absurd hc List.not_mem_nil

theorem solid_not_mem {l : Bytes} (h : Solid l) : blank ∉ l ∧ tab ∉ l ∧ newline ∉ l :=
  ⟨fun hc => h _ hc (Or.inl rfl), fun hc => h _ hc (Or.inr (Or.inl rfl)), fun hc => h _ hc white_newline⟩

theorem solid_concat {l : Bytes} (h : Solid l) (hc : ¬White c) : Solid (l ++ [c]) := by
  intro d hd
  rcases List.mem_append.1 hd with hd | hd
  · exact h d hd
  · rwa [List.mem_singleton.1 hd]

theorem closed_concat (ls : List Bytes) (l : Bytes) : closed (ls ++ [l]) = closed ls ++ l ++ [newline] := by
  simp [closed]

/-- the line as it is now fits -/
theorem fits_current {pre cur : Bytes} (hcol : cur.length ≤ w.col) (h : LastSpace w pre cur) :
    newline ∉ cur ∧ Fits cur := by
  rcases h with ⟨-, hsolid⟩ | ⟨a, b, rfl, -, ha, hb, hshort⟩
  · obtain ⟨hblank, htab, hnew⟩ := solid_not_mem hsolid
    exact ⟨hnew, fun _ => ⟨hblank, htab⟩⟩
  · refine ⟨?_, fun hlong => absurd (hlong.trans_le hcol) (not_lt.2 hshort)⟩
    have hne : newline ≠ blank := by decide
    simp [ha, hne, (solid_not_mem hb).2.2]

/-- a newline in the place of the last space -/
theorem set_last_space (pre a b : Bytes) :
    (pre ++ (a ++ blank :: b)).set (pre ++ a).length newline = pre ++ a ++ newline :: b := by
  rw [← List.append_assoc, List.set_append_right _ _ le_rfl, Nat.sub_self, List.set_cons_zero]

/-- a line that is broken: the part in front of the space fits, and the part behind it has no space -/
theorem breakLine_lined (h : Lined w) (c : UInt8) :
    Lined (breakLine w c) ∧ (c ≠ newline → (breakLine w c).last_space ≠ none → (breakLine w c).col ≤ MAXCOL) := by
  obtain ⟨ls, cur, hls, htext, hcol, hlast⟩ := h
  rcases breakLine_cases w c with ⟨l, hl, -, -, hbreak⟩ | ⟨hsame, hshort⟩
  · rw [hbreak]
    refine ⟨?_, fun _ h => absurd rfl h⟩
    rcases hlast with ⟨hnone, -⟩ | ⟨a, b, rfl, hsome, ha, hb, hshort⟩
    · cases hnone.symm.trans hl
    · obtain rfl : (closed ls ++ a).length = l := Option.some.inj (hsome.symm.trans hl)
      have hset : w.text.set (closed ls ++ a).length newline = closed (ls ++ [a]) ++ b := by
        rw [htext, set_last_space, closed_concat]
        simp
      have hlen : w.text.length - (closed ls ++ a).length = b.length + 1 := by
        rw [htext]
        simp only [List.length_append, List.length_cons]
        omega
      refine ⟨ls ++ [a], b, ?_, hset, ?_, Or.inl ⟨rfl, hb⟩⟩
      · refine List.forall_mem_append.2 ⟨hls, List.forall_mem_singleton.2 ⟨ha, fun hlong => ?_⟩⟩
        rw [List.length_append] at hcol
        omega
      · rw [hlen]
        exact Nat.le_succ _
  · rw [hsame]
    refine ⟨⟨ls, cur, hls, htext, hcol, hlast⟩, fun hc hne => ?_⟩
    obtain ⟨l, hl⟩ := Option.ne_none_iff_exists'.1 hne
    exact hshort l hl hc

theorem step_lined (h : Lined w) (hshort : c ≠ newline → w.last_space ≠ none → w.col ≤ MAXCOL)
    (hstep : Step w c next w') : Lined w' := by
  obtain ⟨ls, cur, hls, htext, hcol, hlast⟩ := h
  obtain ⟨hnew, hfits⟩ := fits_current hcol hlast
  cases hstep with
  | kept hc =>
    refine ⟨ls, cur ++ [c], hls, by simp [htext], by simpa using hcol, ?_⟩
    rcases hlast with ⟨hnone, hsolid⟩ | ⟨a, b, rfl, hsome, ha, hb, -⟩
    · exact Or.inl ⟨hnone, solid_concat hsolid hc⟩
    · refine Or.inr ⟨a, b ++ [c], by simp, hsome, ha, solid_concat hb hc, ?_⟩
      have hc' : c ≠ newline := fun h => hc (h ▸ white_newline)
      exact Nat.succ_le_succ (hshort hc' (by simp [hsome]))
  | space hc hle hjoin =>
    refine ⟨ls, cur ++ [blank], hls, by simp [htext], by simpa using hcol, Or.inr ⟨cur, [], rfl, ?_, hnew, ?_, ?_⟩⟩
    · rw [htext]
    · exact solid_nil
    · exact Nat.succ_le_succ hle
  | line wrapped hc hnewline =>
    refine ⟨ls ++ [cur], [], ?_, ?_, Nat.zero_le _, Or.inl ⟨rfl, solid_nil⟩⟩
    · exact List.forall_mem_append.2 ⟨hls, List.forall_mem_singleton.2 ⟨hnew, hfits⟩⟩
    · rw [htext, closed_concat, List.append_nil]

/-! ## The characters -/

/-- a space may become a newline later -/
theorem kept_break {p b : Bytes} (h : List.Forall₂ Becomes u (p ++ blank :: b)) :
    List.Forall₂ Becomes u (p ++ newline :: b) := by
  induction p generalizing u with
  | nil =>
    cases h with
    | cons hd htl =>
      refine List.Forall₂.cons ?_ htl
      rcases hd with ⟨hc, rfl⟩ | ⟨hc, -⟩
      · exact absurd (Or.inl rfl) hc
      · exact Or.inr ⟨hc, Or.inr rfl⟩
  | cons d p ih =>
    cases h with
    | cons hd htl => exact List.Forall₂.cons hd (ih htl)

theorem breakLine_kept (h : Lined w) (hkept : List.Forall₂ Becomes u w.text) (c : UInt8) :
    List.Forall₂ Becomes u (breakLine w c).text := by
  rcases breakLine_cases w c with ⟨l, hl, -, -, hbreak⟩ | ⟨hsame, -⟩
  · obtain ⟨ls, cur, -, htext, -, ⟨hnone, -⟩ | ⟨a, b, rfl, hsome, -⟩⟩ := h
    · cases hnone.symm.trans hl
    · obtain rfl : (closed ls ++ a).length = l := Option.some.inj (hsome.symm.trans hl)
      rw [htext, ← List.append_assoc] at hkept
      rw [hbreak, htext, set_last_space]
      exact kept_break hkept
  · rwa [hsame]

theorem step_kept (hkept : List.Forall₂ Becomes u w.text) (hstep : Step w c next w') :
    List.Forall₂ Becomes (u ++ [c]) w'.text := by
  have happend {d : UInt8} (hd : Becomes c d) : List.Forall₂ Becomes (u ++ [c]) (w.text ++ [d]) :=
    List.rel_append hkept (List.Forall₂.cons hd List.Forall₂.nil)
  cases hstep with
  | kept hc => exact happend (Or.inl ⟨hc, rfl⟩)
  | space hc _ _ => exact happend (Or.inr ⟨hc, Or.inl rfl⟩)
  | line _ hc _ => exact happend (Or.inr ⟨hc, Or.inr rfl⟩)

theorem breakLine_newline {i : ℕ} (h : w.text[i]? = some newline) (c : UInt8) :
    (breakLine w c).text[i]? = some newline := by
  rcases breakLine_cases w c with ⟨l, -, -, -, hbreak⟩ | ⟨hsame, -⟩
  · rw [hbreak, List.getElem?_set]
    obtain ⟨hi, -⟩ := List.getElem?_eq_some_iff.1 h
    split_ifs with hli
    · rfl
    · omega
    · exact h
  · rwa [hsame]

theorem step_newline {i : ℕ} (h : w.text[i]? = some newline) (hstep : Step w c next w') :
    w'.text[i]? = some newline := by
  obtain ⟨hi, -⟩ := List.getElem?_eq_some_iff.1 h
  cases hstep <;>
  · dsimp only
    rwa [List.getElem?_append_left hi]

/-! ## The text -/

/-- a newline behind a newline -/
theorem step_second {s : Bytes} (h : Between u (newline :: s) w) (hu : u.getLast? = some newline)
    (hstep : Step (breakLine w newline) newline next w') :
    w'.text[u.length - 1]? = some newline ∧ w'.text[u.length]? = some newline := by
  obtain ⟨hlast, hwrapped⟩ := h.ending hu rfl
  have hlen := h.kept.length_eq
  have hsame : breakLine w newline = w := by
    rcases breakLine_cases w newline with ⟨l, -, hne, -⟩ | ⟨hsame, -⟩
    · exact absurd rfl hne
    · exact hsame
  rw [hsame] at hstep
  rw [List.getLast?_eq_getElem?, ← hlen] at hlast
  refine ⟨step_newline hlast hstep, ?_⟩
  cases hstep with
  | kept hc => exact absurd white_newline hc
  | space _ _ hjoin => exact absurd (hjoin rfl).2 (by simp [hwrapped])
  | line =>
    rw [hlen]
    exact List.getElem?_concat_length

theorem step_doubled {s : Bytes} (h : Between u (c :: s) w) (hstep : Step (breakLine w c) c next w') :
    Doubled (u ++ [c]) w'.text := by
  intro i hi hnext
  obtain ⟨hlt, -⟩ := List.getElem?_eq_some_iff.1 hnext
  rw [List.length_append, List.length_singleton] at hlt
  rw [List.getElem?_append_left (by omega)] at hi
  rcases Nat.lt_or_ge (i + 1) u.length with hold | hnew
  · rw [List.getElem?_append_left hold] at hnext
    obtain ⟨hfst, hsnd⟩ := h.doubled i hi hnext
    exact ⟨step_newline (breakLine_newline hfst c) hstep, step_newline (breakLine_newline hsnd c) hstep⟩
  · have heq : u.length = i + 1 := by omega
    rw [← heq, List.getElem?_concat_length, Option.some_inj] at hnext
    subst hnext
    have hlast : u.getLast? = some newline := by rw [List.getLast?_eq_getElem?, heq]; exact hi
    have hboth := step_second h hlast hstep
    rw [heq] at hboth
    exact hboth

/-- **One character** keeps the invariant. -/
theorem between_step {s post : Bytes} (h : Between u (c :: s) w)
    (hstep : Step (breakLine w c) c (s ++ 0 :: post).head? w') : Between (u ++ [c]) s w' := by
  have hbroken := breakLine_lined h.lined c
  have hkept := step_kept (breakLine_kept h.lined h.kept c) hstep
  refine ⟨hkept, step_doubled h hstep, ?_, step_lined hbroken.1 hbroken.2 hstep⟩
  intro hc hs
  obtain rfl : c = newline := by simpa using hc
  obtain ⟨s, rfl⟩ : ∃ s', s = newline :: s' := by
    cases s with
    | nil => cases hs
    | cons d s => exact ⟨s, by rw [Option.some.inj hs]⟩
  cases hstep with
  | kept hc => exact absurd white_newline hc
  | space _ _ hjoin => exact absurd rfl (hjoin rfl).1
  | line wrapped _ hnew => exact ⟨by simp, hnew rfl⟩

/-- the lines of a text are those before its last newline and the rest -/
theorem splitOn_closed {ls : List Bytes} {cur : Bytes} (hls : ∀ l ∈ ls, newline ∉ l) (hcur : newline ∉ cur) :
    (closed ls ++ cur).splitOn newline = ls ++ [cur] := by
  have hsingle {l : Bytes} (hl : newline ∉ l) : l.splitOn newline = [l] :=
    List.splitOnP_eq_singleton fun c hc => by
      simp only [beq_eq_false_iff_ne, ne_eq]
      rintro rfl
      exact hl hc
  induction ls with
  | nil => exact hsingle hcur
  | cons l ls ih =>
    obtain ⟨hl, hls⟩ := List.forall_mem_cons.1 hls
    have hfirst : closed (l :: ls) ++ cur = l ++ newline :: (closed ls ++ cur) := by simp [closed]
    have hcut : (l ++ newline :: (closed ls ++ cur)).splitOn newline =
        l.splitOn newline ++ (closed ls ++ cur).splitOn newline := List.splitOnP_append_cons _ _ (by simp)
    rw [hfirst, hcut, hsingle hl, ih hls]
    rfl

theorem Between.wrapped {s : Bytes} (h : Between s [] w) : Wrapped s w.text := by
  have hlen := h.kept.length_eq
  have hbecomes {i : ℕ} {c : UInt8} (hc : s[i]? = some c) : ∃ d, w.text[i]? = some d ∧ Becomes c d := by
    obtain ⟨hi, rfl⟩ := List.getElem?_eq_some_iff.1 hc
    exact ⟨_, List.getElem?_eq_getElem (hlen ▸ hi), h.kept.get hi (hlen ▸ hi)⟩
  refine ⟨hlen.symm, fun i c hc hwhite => ?_, fun i c hc hwhite => ?_, h.doubled, ?_⟩
  · obtain ⟨d, hd, ⟨-, rfl⟩ | ⟨hw, -⟩⟩ := hbecomes hc
    · exact hd
    · exact absurd hw hwhite
  · obtain ⟨d, hd, ⟨hw, -⟩ | ⟨-, rfl | rfl⟩⟩ := hbecomes hc
    · exact absurd hwhite hw
    · exact Or.inl hd
    · exact Or.inr hd
  · obtain ⟨ls, cur, hls, htext, hcol, hlast⟩ := h.lined
    obtain ⟨hnew, hfits⟩ := fits_current hcol hlast
    rw [htext, splitOn_closed (fun l hl => (hls l hl).1) hnew]
    exact List.forall_mem_append.2 ⟨fun l hl => (hls l hl).2, List.forall_mem_singleton.2 hfits⟩

/-- nothing has been read -/
theorem between_start (s : Bytes) : Between [] s ⟨[], 0, none, false⟩ := by
  refine ⟨List.Forall₂.nil, fun i h => absurd h (by simp), fun h => absurd h (by simp), [], [], ?_, rfl, le_rfl,
    Or.inl ⟨rfl, solid_nil⟩⟩
  exact fun l h => absurd h List.not_mem_nil

/-- the run over a text -/
theorem wrap_text_between {s : Bytes} (hs : 0 ∉ s) (post : Bytes) :
    ∃ w', wrap_text (s ++ 0 :: post) = some (w'.text ++ 0 :: post) ∧ Between s [] w' :=
  wrapLoop_run post (fun _ _ _ _ _ h _ hstep => between_step h hstep) hs (between_start s)

end Wrap

/-- **What `wrap_text` does**, for every text with its NUL, whatever is in memory behind it. -/
theorem wrap_text_right (s post : Bytes) (hs : 0 ∉ s) :
    ∃ r, wrap_text (s ++ 0 :: post) = some (r ++ 0 :: post) ∧ Wrapped s r := by
  obtain ⟨w', hrun, hw'⟩ := wrap_text_between hs post
  exact ⟨w'.text, hrun, hw'.wrapped⟩

/-- a word of 70 letters and two short ones, a line each but for the first two -/
def longLine : Bytes := List.replicate 70 'a'.toUInt8 ++ bytes " bbb\ncc\n"

/-- the first line is broken behind its long word, and what is left of it is joined to the second -/
def longWrapped : Bytes := List.replicate 70 'a'.toUInt8 ++ bytes "\nbbb cc\n"

set_option maxRecDepth 8000 in
theorem longLine_eq : wrap_text (longLine ++ [0]) = some (longWrapped ++ [0]) := by rfl

theorem long_wrapped : 0 ∉ longLine ∧ wrap_text (longLine ++ [0]) = some (longWrapped ++ [0]) ∧
    Wrapped longLine longWrapped := by
  have hnul : 0 ∉ longLine := by decide
  obtain ⟨r, hr, hwrapped⟩ := wrap_text_right longLine [] hnul
  rw [longLine_eq] at hr
  have hsame := List.append_cancel_right (Option.some.inj hr)
  exact ⟨hnul, longLine_eq, hsame ▸ hwrapped⟩

end MNetSoft.Ownu
