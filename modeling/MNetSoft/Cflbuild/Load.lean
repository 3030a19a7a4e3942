/-
The lines of the two files that the `.cflist` editor reads: the names of the user's file (`main`, `ExtractTokens`), and
the class and the name of a line of the catalogue (`ExtractConfName`).

`main` reads pieces of at most 127 characters and drops the last character of each, which is meant to be the newline.
`ExtractTokens` delivers an empty name for a piece of separators alone. `ExtractConfName` looks for the blank behind a
name and not for the end of the line.
- `tokens_eq`: what comes of a piece with the last character dropped.
- `cflist_right_iff`: for which files the names are those of the file, and are read back after they have been written.
- `ExtractConfName_right_iff`: for which lines the class and the name are those of the format.
- `unterminated`, `name_at_end`: a file without a newline at its end, and a name at the end of its line.
-/
import Mathlib.Tactic
import MNetSoft.Core.Pieces
import MNetSoft.Core.Words
import MNetSoft.Cflbuild.Session

namespace MNetSoft.Cflbuild

open MNetSoft.CString MNetSoft.Words

/-! ## The names of the user's file -/

/-- what stands between names -/
def isStop (c : Char) : Bool := c ∈ [' ', ',', '\t', '\n']

/-- the names that `main` loads -/
def loaded (cflist : Str) : List Str := (fgetsAll 128 cflist).flatMap loadLine

/-- the names are those of the file, none is empty, and they are read back after they have been written -/
def CflistRight (cflist : Str) : Prop :=
  loaded cflist = wordsBy isStop cflist ∧ (∀ n ∈ loaded cflist, n ≠ []) ∧
    loaded (written (loaded cflist)) = loaded cflist

/-- A piece of the file ends with no character of a name, and if it has no name, then it has no comma or is the
comma. -/
def Kept (FileBuf : Str) : Prop :=
  FileBuf.getLast?.any isStop = true ∧ (¬ (∀ c ∈ FileBuf, isStop c = true) ∨ ',' ∉ FileBuf ∨ FileBuf.length = 1)

instance : DecidablePred Kept := fun FileBuf => by unfold Kept; infer_instance

theorem tokens_dropWhile {s : Str} (hs : s.dropWhile isSep ≠ []) : tokens s = tokens (s.dropWhile isSep) := by
  cases s with
  | nil => rfl
  | cons c s =>
    obtain ⟨d, t, ht⟩ := List.exists_cons_of_ne_nil hs
    have hd : isSep d = false := by simpa [ht] using List.head_dropWhile_not isSep hs
    have hdrop : (d :: t).dropWhile isSep = d :: t := List.dropWhile_cons_of_neg (by simp [hd])
    rw [tokens, ht, tokens, ExtractTokens, ExtractTokens, ht, hdrop]

theorem isSep_eq {c : Char} (hc : c ≠ '\n') : isSep c = isStop c := by simp [isSep, isStop, hc]

theorem tokens_words {s : Str} (h : s.dropWhile isSep = s) : tokens s = wordsBy isSep s := by
  induction s using tokens.induct with
  | case1 => rw [tokens, wordsBy_nil]
  | case2 c s ih =>
    have hc : isSep c = false := by
      by_contra hc
      rw [Bool.not_eq_false] at hc
      have hlen := (List.dropWhile_sublist isSep (l := s)).length_le
      rw [← List.dropWhile_cons_of_pos hc, h, List.length_cons] at hlen
      omega
    rw [tokens, ih (List.dropWhile_idempotent _ _), wordsBy_takeWhile hc, ExtractTokens, h, wordsBy_dropWhile]

/-- **The tokens** of a text without newlines are its words, or an empty one if it has separators and nothing else. -/
theorem tokens_eq {s : Str} (hnl : '\n' ∉ s) :
    tokens s = if s ≠ [] ∧ ∀ c ∈ s, isStop c = true then [[]] else wordsBy isStop s := by
  have hstop : ∀ c ∈ s, isSep c = isStop c := fun c hc => isSep_eq fun h => hnl (h ▸ hc)
  by_cases hdrop : s.dropWhile isSep = []
  · have hall : ∀ c ∈ s, isStop c = true := fun c hc => hstop c hc ▸ List.dropWhile_eq_nil_iff.1 hdrop c hc
    cases s with
    | nil => rw [tokens, if_neg (by simp), wordsBy_nil]
    | cons c s =>
      rw [if_pos ⟨List.cons_ne_nil c s, hall⟩, tokens, ExtractTokens, hdrop]
      rw [List.takeWhile_nil, List.dropWhile_nil, List.dropWhile_nil, tokens]
  · rw [if_neg, tokens_dropWhile hdrop, tokens_words (List.dropWhile_idempotent _ _), wordsBy_dropWhile,
      wordsBy_congr hstop]
    rintro ⟨-, hall⟩
    exact hdrop (List.dropWhile_eq_nil_iff.2 fun c hc => (hstop c hc).trans (hall c hc))

theorem loadLine_eq {l : Str} (hnul : '\x00' ∉ l) (hcr : '\r' ∉ l) (hnl : '\n' ∉ l.dropLast) :
    loadLine l = if (∀ c ∈ l, isStop c = true ∧ c ≠ ',') then []
      else if l.dropLast ≠ [] ∧ ∀ c ∈ l.dropLast, isStop c = true then [[]] else wordsBy isStop l.dropLast := by
  have hblank : Isblank l = true ↔ ∀ c ∈ l, isStop c = true ∧ c ≠ ',' := by
    rw [Isblank, List.all_eq_true]
    refine forall₂_congr fun c hc => ?_
    have hne : c ≠ '\r' := fun h => hcr (h ▸ hc)
    simp only [isStop, List.mem_cons, List.not_mem_nil, or_false, decide_eq_true_eq, hne, false_or]
    constructor
    · rintro (rfl | rfl | rfl) <;> decide
    · tauto
  rw [loadLine, loadBuf, cstr_of_not_mem hnul, tokens_eq hnl]
  simp only [hblank]

/-- the names of a piece are what it has, up to the last character -/
theorem flatten_loadLine {l : Str} (hnul : '\x00' ∉ l) (hcr : '\r' ∉ l) (hnl : '\n' ∉ l.dropLast) :
    (loadLine l).flatten = l.dropLast.filter fun c => !isStop c := by
  have hnone : (∀ c ∈ l.dropLast, isStop c = true) → l.dropLast.filter (fun c => !isStop c) = [] := fun h =>
    List.filter_eq_nil_iff.2 fun c hc => by simp [h c hc]
  rw [loadLine_eq hnul hcr hnl]
  split_ifs with hblank hstop
  · rw [hnone fun c hc => (hblank c (List.dropLast_subset l hc)).1, List.flatten_nil]
  · rw [hnone hstop.2, List.flatten_singleton]
  · rw [flatten_wordsBy]

/-- a piece is kept if and only if it ends with no character of a name and its names are loaded -/
theorem kept_concat_iff {t : Str} {c : Char} (hnul : '\x00' ∉ t ++ [c]) (hcr : '\r' ∉ t ++ [c]) (hnl : '\n' ∉ t)
    (hc : isStop c = true) : Kept (t ++ [c]) ↔ loadLine (t ++ [c]) = wordsBy isStop (t ++ [c]) := by
  have hkept : Kept (t ++ [c]) ↔ ¬ (∀ d ∈ t, isStop d = true) ∨ ',' ∉ t ++ [c] ∨ t = [] := by
    have hlen : (t ++ [c]).length = 1 ↔ t = [] := by rw [List.length_append, List.length_singleton]; simp
    have hall : (∀ d ∈ t ++ [c], isStop d = true) ↔ ∀ d ∈ t, isStop d = true := by
      rw [List.forall_mem_append, List.forall_mem_singleton]
      exact and_iff_left hc
    rw [Kept, List.getLast?_concat, hlen, hall]
    exact and_iff_right hc
  rw [hkept, loadLine_eq hnul hcr (by rwa [List.dropLast_concat]), List.dropLast_concat, wordsBy_concat hc]
  split_ifs with hblank hstop
  · have hnone : wordsBy isStop t = [] :=
      wordsBy_eq_nil_iff.2 fun d hd => (hblank d (List.mem_append_left _ hd)).1
    exact iff_of_true (Or.inr (Or.inl fun h => (hblank _ h).2 rfl)) hnone.symm
  · -- there are only separators, and a comma is one of them
    apply iff_of_false
    · rintro (hno | hcomma | hnil)
      · exact hno hstop.2
      · apply hblank
        intro d hd
        refine ⟨?_, fun h => hcomma (h ▸ hd)⟩
        rcases List.mem_append.1 hd with hd | hd
        · exact hstop.2 d hd
        · rwa [List.mem_singleton.1 hd]
      · exact hstop.1 hnil
    · rw [wordsBy_eq_nil_iff.2 hstop.2]
      exact List.cons_ne_nil _ _
  · refine iff_of_true ?_ rfl
    by_cases hnil : t = []
    · exact Or.inr (Or.inr hnil)
    · exact Or.inl fun hall => hstop ⟨hnil, hall⟩

/-- what the two readers need to know of a piece -/
def Plain (l : Str) : Prop := '\x00' ∉ l ∧ '\r' ∉ l ∧ '\n' ∉ l.dropLast ∧ l ≠ []

theorem plain_of_mem {cflist l : Str} (hnul : '\x00' ∉ cflist) (hcr : '\r' ∉ cflist) (hl : l ∈ fgetsAll 128 cflist) :
    Plain l := by
  have hmem : ∀ c ∈ l, c ∈ cflist := by
    intro c hc
    rw [← flatten_fgetsAll (n := 128) (by norm_num) cflist]
    exact List.mem_flatten.2 ⟨l, hl, hc⟩
  exact ⟨fun h => hnul (hmem _ h), fun h => hcr (hmem _ h), newline_not_mem_dropLast hl,
    (pieces_fgetsAll (n := 128) (by norm_num) cflist).1.ne_nil (by norm_num) l hl⟩

/-- if no character of a name is lost, no piece ends with one -/
theorem ends_of_flatten {ls : List Str} (hls : ∀ l ∈ ls, Plain l)
    (h : (ls.flatMap loadLine).flatten = ls.flatten.filter fun c => !isStop c) :
    ∀ l ∈ ls, ∃ t c, l = t ++ [c] ∧ isStop c = true := by
  have hload : (ls.flatMap loadLine).flatten.length =
      (ls.map fun l => (l.dropLast.filter fun c => !isStop c).length).sum := by
    clear h
    induction ls with
    | nil => rfl
    | cons l ls ih =>
      obtain ⟨⟨hnul, hcr, hnl, -⟩, hls⟩ := List.forall_mem_cons.1 hls
      rw [List.flatMap_cons, List.flatten_append, List.length_append, ih hls, flatten_loadLine hnul hcr hnl,
        List.map_cons, List.sum_cons]
  have hfile : (ls.flatten.filter fun c => !isStop c).length =
      (ls.map fun l => (l.filter fun c => !isStop c).length).sum := by
    rw [List.filter_flatten, List.length_flatten, List.map_map]
    rfl
  rw [h, hfile] at hload
  by_contra hno
  push Not at hno
  obtain ⟨l, hl, hno⟩ := hno
  refine absurd hload (ne_of_gt (List.sum_lt_sum _ _ (fun l _ => ?_) ⟨l, hl, ?_⟩))
  · exact ((List.dropLast_sublist l).filter _).length_le
  · -- the last character is dropped
    obtain ⟨t, c, rfl⟩ := (List.eq_nil_or_concat l).resolve_left (hls l hl).2.2.2
    rw [List.concat_eq_append] at hno ⊢
    have hc : isStop c = false := Bool.eq_false_iff.2 (hno t c rfl)
    rw [List.dropLast_concat, List.filter_append, List.filter_cons_of_pos (by simp [hc]), List.length_append]
    exact Nat.lt_add_of_pos_right (Nat.succ_pos _)

/-- names are read back from the lines that are written for them -/
theorem loaded_written {ns : List Str} (h : ∀ n ∈ ns, n ≠ [] ∧ n.length < 127 ∧
    ∀ c ∈ n, isStop c = false ∧ c ≠ '\x00' ∧ c ≠ '\r') : loaded (written ns) = ns := by
  have hlines : ∀ n ∈ ns, '\n' ∉ n ∧ n.length + 1 < 128 := by
    intro n hn
    obtain ⟨-, hlen, hchars⟩ := h n hn
    refine ⟨fun hnl => ?_, by omega⟩
    exact absurd (hchars _ hnl).1 (by decide)
  rw [loaded, written_eq fun n hn => (h n hn).2.1.trans (by norm_num), fgetsAll_lines ns hlines, List.flatMap_map]
  have hline : ∀ n ∈ ns, loadLine (n ++ ['\n']) = [n] := by
    intro n hn
    obtain ⟨hne, -, hchars⟩ := h n hn
    obtain ⟨c, s, hcons⟩ := List.exists_cons_of_ne_nil hne
    have hc : c ∈ n := by rw [hcons]; exact List.mem_cons_self
    have hnot : ∀ d, d ≠ '\n' → (∀ e ∈ n, e ≠ d) → d ∉ n ++ ['\n'] := by
      intro d hd hne hmem
      rcases List.mem_append.1 hmem with hmem | hmem
      · exact hne d hmem rfl
      · exact hd (List.mem_singleton.1 hmem)
    have hkept : Kept (n ++ ['\n']) := by
      refine ⟨by rw [List.getLast?_concat]; rfl, Or.inl fun hall => ?_⟩
      have hstop := hall c (List.mem_append_left _ hc)
      rw [(hchars c hc).1] at hstop
      cases hstop
    calc loadLine (n ++ ['\n'])
        = wordsBy isStop (n ++ ['\n']) := (kept_concat_iff (hnot _ (by decide) fun e he => (hchars e he).2.1)
          (hnot _ (by decide) fun e he => (hchars e he).2.2) (hlines n hn).1 (by decide)).1 hkept
      _ = wordsBy isStop n := wordsBy_concat (by decide) n
      _ = [n] := wordsBy_word hne fun e he => (hchars e he).1
  rw [List.flatMap_congr hline, List.flatMap_singleton']

section File

variable {cflist : Str} (hnul : '\x00' ∉ cflist) (hcr : '\r' ∉ cflist)

include hnul hcr

/-- a piece that ends with no character of a name -/
theorem kept_iff {l : Str} (hl : l ∈ fgetsAll 128 cflist) (hends : ∃ t c, l = t ++ [c] ∧ isStop c = true) :
    Kept l ↔ loadLine l = wordsBy isStop l := by
  obtain ⟨t, c, rfl, hc⟩ := hends
  obtain ⟨hnul, hcr, hnl, -⟩ := plain_of_mem hnul hcr hl
  exact kept_concat_iff hnul hcr (by rwa [List.dropLast_concat] at hnl) hc

theorem CflistRight.kept (h : CflistRight cflist) : ∀ l ∈ fgetsAll 128 cflist, Kept l := by
  intro l hl
  obtain ⟨hload, hne, -⟩ := h
  obtain ⟨t, c, rfl, hc⟩ : ∃ t c, l = t ++ [c] ∧ isStop c = true := by
    refine ends_of_flatten (fun l hl => plain_of_mem hnul hcr hl) ?_ l hl
    rw [← loaded, hload, flatten_wordsBy, flatten_fgetsAll (by norm_num)]
  rw [kept_iff hnul hcr hl ⟨t, c, rfl, hc⟩]
  -- no name is empty, so this is not a piece of separators with a comma
  obtain ⟨hnul, hcr, hnl, -⟩ := plain_of_mem hnul hcr hl
  have hnil : [] ∉ loadLine (t ++ [c]) := fun h => hne [] (List.mem_flatMap.2 ⟨_, hl, h⟩) rfl
  rw [loadLine_eq hnul hcr hnl, List.dropLast_concat] at hnil ⊢
  rw [wordsBy_concat hc]
  split_ifs with hblank hstop
  · exact (wordsBy_eq_nil_iff.2 fun d hd => (hblank d (List.mem_append_left _ hd)).1).symm
  · rw [if_neg hblank, if_pos hstop] at hnil
    exact absurd (List.mem_singleton_self []) hnil
  · rfl

theorem cflistRight_of_kept (h : ∀ l ∈ fgetsAll 128 cflist, Kept l) : CflistRight cflist := by
  have hends : ∀ l ∈ fgetsAll 128 cflist, ∃ t c, l = t ++ [c] ∧ isStop c = true := by
    intro l hl
    obtain ⟨c, hc, hstop⟩ := (Option.any_eq_true _ _).1 (h l hl).1
    obtain ⟨t, rfl⟩ := List.getLast?_eq_some_iff.1 hc
    exact ⟨t, c, rfl, hstop⟩
  have hload : loaded cflist = wordsBy isStop cflist := by
    calc loaded cflist
        = (fgetsAll 128 cflist).flatMap (wordsBy isStop) :=
          List.flatMap_congr fun l hl => (kept_iff hnul hcr hl (hends l hl)).1 (h l hl)
      _ = wordsBy isStop (fgetsAll 128 cflist).flatten := (wordsBy_flatten hends).symm
      _ = wordsBy isStop cflist := by rw [flatten_fgetsAll (by norm_num)]
  have hne : ∀ n ∈ loaded cflist, n ≠ [] := fun n hn => (mem_wordsBy (hload ▸ hn)).1
  refine ⟨hload, hne, loaded_written fun n hn => ⟨hne n hn, ?_, fun c hc => ?_⟩⟩
  · obtain ⟨l, hl, hn⟩ := List.mem_flatMap.1 hn
    have hle := (loadLine_names hl hn).2
    have hlen := length_of_mem_fgetsAll hl
    obtain ⟨hnul, -, -, hl⟩ := plain_of_mem hnul hcr hl
    have hpos := List.length_pos_iff.2 hl
    rw [loadBuf, cstr_of_not_mem hnul, List.length_dropLast] at hle
    omega
  · rw [hload] at hn
    have hmem : c ∈ (wordsBy isStop cflist).flatten := List.mem_flatten.2 ⟨n, hn, hc⟩
    rw [flatten_wordsBy] at hmem
    have hfile := (List.mem_filter.1 hmem).1
    exact ⟨(mem_wordsBy hn).2 c hc, fun h => hnul (h ▸ hfile), fun h => hcr (h ▸ hfile)⟩

/-- **The file.** For every file without NULs and carriage returns, the names that are loaded are those of the file, and
are read back after they have been written, if and only if each piece that is read ends with no character of a name and
has a name, or no comma, or is one comma. -/
theorem cflist_right_iff : CflistRight cflist ↔ ∀ l ∈ fgetsAll 128 cflist, Kept l :=
  ⟨fun h => h.kept hnul hcr, cflistRight_of_kept hnul hcr⟩

end File

/-- two names on a line, and one on the next, with a blank line between them -/
theorem two_lines : CflistRight "agora, music\n\nweb\n".toList :=
  (cflist_right_iff (by decide) (by decide)).2 (by decide)

/-- The last line has no newline, and its name loses a letter. -/
theorem unterminated : '\x00' ∉ "agora\nmusic".toList ∧ '\r' ∉ "agora\nmusic".toList ∧
    ¬ CflistRight "agora\nmusic".toList := by
  refine ⟨by decide, by decide, fun h => ?_⟩
  exact absurd (h.kept (by decide) (by decide)) (by decide)

/-! ## The lines of the catalogue -/

/-- The class and the name by the format: blank lines, lines of categories with a colon, and lines of conferences, which
begin with a space. -/
def formatOf (line : Str) : Extracted :=
  if ∀ c ∈ line, c ∈ [' ', '\t', '\r', '\n'] then .neither
  else if line.head? = some ' ' then .conf ((line.dropWhile isGap).takeWhile fun c => c ∉ [' ', '\t', '\n'])
  else if ':' ∈ line then .category (line.takeWhile (· ≠ ':'))
  else .neither

/-- the scan stays on the line and its NUL, and delivers what is there by the format -/
def ExtractRight (FileBuf : Str) : Prop := ExtractConfName (cstr FileBuf ++ ['\x00']) = some (formatOf (cstr FileBuf))

/-- The name on a line that begins with a space has a space or a tab behind it, and no line with a colon begins with a
tab. -/
def WellEnded (line : Str) : Prop :=
  (line.head? = some ' ' → ¬ Isblank line = true → (line.dropWhile isGap).any isGap = true) ∧
    (line.head? = some '\t' → ':' ∉ line)

instance : DecidablePred ExtractRight := fun FileBuf => by unfold ExtractRight; infer_instance

instance : DecidablePred WellEnded := fun line => by unfold WellEnded; infer_instance

section Line

variable {line : Str}

theorem isblank_iff : Isblank line = true ↔ ∀ c ∈ line, c ∈ [' ', '\t', '\r', '\n'] := by
  rw [Isblank, List.all_eq_true]
  refine forall₂_congr fun c _ => ?_
  simp only [List.mem_cons, List.not_mem_nil, or_false, decide_eq_true_eq]
  tauto

/-- a line with something on it, and the blanks in front of it -/
theorem dropWhile_isGap (hblank : ¬ Isblank line = true) (t : Str) :
    (line ++ t).dropWhile isGap = line.dropWhile isGap ++ t := by
  rw [isblank_iff] at hblank
  push Not at hblank
  obtain ⟨c, hc, hne⟩ := hblank
  refine dropWhile_append_of_mem hc ?_ t
  simp only [List.mem_cons, List.not_mem_nil, or_false, not_or] at hne
  simp [isGap, hne]

theorem conf_name (hnl : '\n' ∉ line.dropLast) (hgap : (line.dropWhile isGap).any isGap = true) (t : Str) :
    (line.dropWhile isGap ++ t).takeWhile (fun c => !isGap c) =
      (line.dropWhile isGap).takeWhile fun c => c ∉ [' ', '\t', '\n'] := by
  obtain ⟨g, hfind⟩ := Option.isSome_iff_exists.1 (List.find?_isSome.2 (List.any_eq_true.1 hgap))
  obtain ⟨hg, w, rest, hd, hw⟩ := List.find?_eq_some_iff_append.1 hfind
  have hnl' : '\n' ∉ w := by
    intro hmem
    apply hnl
    rw [← List.takeWhile_append_dropWhile (p := isGap) (l := line), hd, ← List.append_assoc,
      List.dropLast_append_of_ne_nil (List.cons_ne_nil _ _)]
    exact List.mem_append_left _ (List.mem_append_right _ hmem)
  have hstop : ∀ c ∈ w, c ∉ [' ', '\t', '\n'] := by
    intro c hc
    have hne : c ≠ '\n' := fun h => hnl' (h ▸ hc)
    simpa [isGap, hne] using hw c hc
  rw [hd, List.append_assoc, List.cons_append, takeWhile_append_cons (by simp [hg]), takeWhile_append_cons]
  · rw [List.takeWhile_eq_self_iff.2, List.takeWhile_eq_self_iff.2]
    · simpa using hstop
    · simpa using hw
  · have hmem : g = ' ' ∨ g = '\t' := by simpa [isGap] using hg
    rcases hmem with rfl | rfl <;> decide

/-- the text in front of a colon, without the blanks in front of it -/
theorem category_name {w rest : Str} (hw : ':' ∉ w) (hnl : '\n' ∉ (w ++ ':' :: rest).dropLast) (hnul : '\x00' ∉ w)
    (t : Str) :
    ((w ++ ':' :: rest).dropWhile isGap ++ t).takeWhile (fun c => c ≠ ':' && c ≠ '\n' && c ≠ '\x00') =
      w.dropWhile isGap := by
  have hdrop : (w ++ ':' :: rest).dropWhile isGap = w.dropWhile isGap ++ ':' :: rest := by
    rw [List.dropWhile_append]
    split_ifs with hnil
    · rw [List.isEmpty_iff.1 hnil]
      rfl
    · rfl
  rw [hdrop, List.append_assoc, List.cons_append, takeWhile_append_cons (by simp), List.takeWhile_eq_self_iff]
  intro c hc
  have hc' := (List.dropWhile_sublist isGap).subset hc
  have hne₁ : c ≠ ':' := fun h => hw (h ▸ hc')
  have hne₂ : c ≠ '\n' := by
    rintro rfl
    rw [List.dropLast_append_of_ne_nil (List.cons_ne_nil _ _)] at hnl
    exact hnl (List.mem_append_left _ hc')
  have hne₃ : c ≠ '\x00' := fun h => hnul (h ▸ hc')
  simp [hne₁, hne₂, hne₃]

end Line

/-- **A line of the catalogue.** The scan stays on the line, and class and name are those of the format, if and only if
the name on a line that begins with a space has a space or a tab behind it, and a line that begins with a tab has no
colon. -/
theorem ExtractConfName_right_iff {FileBuf : Str} (hnl : '\n' ∉ FileBuf.dropLast) :
    ExtractRight FileBuf ↔ WellEnded (cstr FileBuf) := by
  have hnl' := newline_not_mem_dropLast_cstr hnl
  have hnul := nul_not_mem_cstr FileBuf
  rw [ExtractRight]
  generalize cstr FileBuf = line at hnl' hnul
  have hcstr : cstr (line ++ ['\x00']) = line := cstr_append_nul hnul []
  have hhead : (line ++ ['\x00']).head? ≠ some ' ' ↔ line.head? ≠ some ' ' := by
    cases line with
    | nil => simp
    | cons c line => rfl
  rw [ExtractConfName, formatOf, WellEnded, hcstr]
  dsimp only
  simp only [hhead, ← isblank_iff]
  by_cases hspace : line.head? = some ' '
  · -- the line of a conference
    rw [if_neg (fun h => h.1 hspace), if_neg (not_not.2 hspace), if_pos hspace]
    by_cases hblank : Isblank line = true
    · rw [if_pos hblank, if_pos hblank]
      exact iff_of_true rfl ⟨fun _ h => absurd hblank h, fun h => by simp [hspace] at h⟩
    · rw [if_neg hblank, if_neg hblank, dropWhile_isGap hblank]
      by_cases hgap : (line.dropWhile isGap).any isGap = true
      · rw [conf_name hnl' hgap, if_neg]
        · exact iff_of_true rfl ⟨fun _ _ => hgap, fun h => by simp [hspace] at h⟩
        · obtain ⟨c, hc, hgap⟩ := List.any_eq_true.1 hgap
          exact fun h => h c (List.mem_append_left _ hc) hgap
      · rw [if_pos]
        · exact iff_of_false (by simp) fun h => hgap (h.1 hspace hblank)
        · intro c hc hc'
          rcases List.mem_append.1 hc with hc | hc
          · exact hgap (List.any_eq_true.2 ⟨c, hc, hc'⟩)
          · rw [List.mem_singleton.1 hc] at hc'
            exact absurd hc' (by decide)
  by_cases hcolon : ':' ∈ line
  · have hblank : ¬ Isblank line = true := fun h => absurd (isblank_iff.1 h _ hcolon) (by decide)
    rw [if_neg (fun h => h.2 hcolon), if_neg hblank, if_pos hspace, if_neg hblank, if_neg hspace, if_pos hcolon]
    obtain ⟨w, rest, rfl, hw⟩ := List.eq_append_cons_of_mem hcolon
    rw [dropWhile_isGap hblank, category_name hw hnl' (fun h => hnul (List.mem_append_left _ h)),
      takeWhile_append_cons (by simp), List.takeWhile_eq_self_iff.2 fun c hc => by
        simpa using fun h : c = ':' => hw (h ▸ hc)]
    have hright : w.dropWhile isGap = w ↔ (w ++ ':' :: rest).head? ≠ some '\t' := by
      cases w with
      | nil => simp
      | cons c w =>
        have hc : c ≠ ' ' := by simpa using hspace
        rw [List.dropWhile_eq_self_iff]
        simp [isGap, hc]
    simp only [Option.some.injEq, Extracted.category.injEq, hright, hspace, hcolon, false_imp_iff, true_and,
      not_true_eq_false]
  · rw [if_pos ⟨hspace, hcolon⟩, if_neg hspace, if_neg hcolon, ite_self]
    exact iff_of_true rfl ⟨fun h => absurd h hspace, fun _ => hcolon⟩

/-- a conference with its description -/
theorem agora_line : ExtractRight " agora  General\n".toList :=
  (ExtractConfName_right_iff (by decide)).2 (by decide)

/-- The name is at the end of its line. -/
theorem name_at_end : '\n' ∉ " agora\n".toList.dropLast ∧ ¬ ExtractRight " agora\n".toList := by
  decide

end MNetSoft.Cflbuild
