/-
The list of users `zapuser` must not delete: `add_immort`, `load_immortals` and `is_immortal` of `immortal.c`. The file
is read line by line, every name is put into its place in a table by insertion, and the table is looked up by binary
search. The table is `immort[0..nimmort)`, a row as the C string in it; error messages are left out.

The insertion loop runs while `i > 0`, so that a name never moves above the first row: the first name read stays there.
- `load_immortals_eq`: the names in the table are those of the lines.
- `add_immort_sorted`: the rows after the first are kept sorted.
- `immortals_iff`: the table is sorted, and the look-up right for every name, if and only if no line comes before the
  first one in the order of `strcmp`.
- `early_name`: two lines in the wrong order, and an immortal who is not found.
-/
import Mathlib.Tactic
import MNetSoft.Core.CString
import MNetSoft.Core.BinarySearch

namespace MNetSoft.Zapuser

open MNetSoft.CString MNetSoft.BinarySearch

/-! ## Model -/

def MAX_LOGIN : ℕ := 32

def BFSZ : ℕ := 1024

/-- the loop of `add_immort` from row `i` down: rows above `name` move on by one, and `name` goes below the others -/
def shiftDown (name : Str) : ℕ → List Str → List Str
  | 0, immort => immort.set 1 (strncpy name MAX_LOGIN)
  | i + 1, immort =>
    if 0 < strncmp (immort.getD (i + 1) []) name MAX_LOGIN then
      shiftDown name i (immort.set (i + 2) (strncpy (immort.getD (i + 1) []) MAX_LOGIN))
    else immort.set (i + 2) (strncpy name MAX_LOGIN)

/-- add a name to the copy of the immortals list in memory -/
def add_immort (immort : List Str) (name : Str) : List Str :=
  match immort.length with
  -- the loop starts at -1
  | 0 => [strncpy name MAX_LOGIN]
  | n + 1 => shiftDown name n (immort ++ [[]])

/-- one pass of the loop of `load_immortals`: a line that is cut off, or too long, is reported and skipped -/
def loadLine (immort : List Str) (bf : Str) : List Str :=
  if '\n' ∉ cstr bf then immort
  else if MAX_LOGIN < ((cstr bf).takeWhile (· ≠ '\n')).length then immort
  else add_immort immort ((cstr bf).takeWhile (· ≠ '\n'))

/-- load the immortals file into memory; no table where no file is configured or it cannot be opened -/
def load_immortals (file : Option Str) : List Str :=
  match file with
  | none => []
  | some file => (fgetsAll BFSZ file).foldl loadLine []

/-- check if the named user is immortal -/
def is_immortal (immort : List Str) (name : Str) : ℕ :=
  if (searchTable (fun i => strcmp name (immort.getD i [])) immort.length).isSome then 1 else 0

/-! ## Insertion -/

def Sorted (immort : List Str) : Prop := immort.Pairwise fun a b => strcmp a b ≤ 0

theorem strcmp_le (a b : Str) : strcmp a b ≤ 0 ↔ a ≤ b := by rw [← not_lt, strcmp_pos, not_lt]

theorem sorted_iff (immort : List Str) : Sorted immort ↔ immort.Pairwise (· ≤ ·) := by
  simp only [Sorted, strcmp_le]

def Fits (immort : List Str) : Prop := ∀ row ∈ immort, row.length ≤ MAX_LOGIN

/-- **What the loop does**: it passes the rows after the first from the last on, as long as they are above `name`, and
puts `name` below them -/
theorem shiftDown_eq (name first : Str) (rows moved : List Str) (gap : Str) (hname : name.length ≤ MAX_LOGIN)
    (hrows : Fits rows) :
    ∃ pre post, rows = pre ++ post ∧ (∀ row ∈ post, name < row) ∧ (∀ row ∈ pre.getLast?, row ≤ name) ∧
      shiftDown name rows.length (first :: rows ++ gap :: moved) = first :: pre ++ name :: post ++ moved := by
  induction rows using List.reverseRecOn generalizing moved gap with
  | nil => exact ⟨[], [], rfl, by simp, by simp, by simp [shiftDown, strncpy_of_le hname]⟩
  | append_singleton rows last ih =>
    have hlast : last.length ≤ MAX_LOGIN := hrows last (by simp)
    have hread : (first :: (rows ++ [last]) ++ gap :: moved).getD (rows.length + 1) [] = last := by
      simp [List.getD]
    rw [List.length_append, List.length_singleton, shiftDown, hread, strncmp_of_le hlast hname]
    split_ifs with hcmp
    · obtain ⟨pre, post, hsplit, hpost, hpre, hshift⟩ :=
        ih (last :: moved) last fun row hrow => hrows row (List.mem_append_left _ hrow)
      refine ⟨pre, post ++ [last], by rw [hsplit, List.append_assoc], ?_, hpre, ?_⟩
      · intro row hrow
        rcases List.mem_append.1 hrow with hrow | hrow
        · exact hpost row hrow
        · rw [List.mem_singleton.1 hrow]
          exact (strcmp_pos last name).1 hcmp
      · have hset : (first :: (rows ++ [last]) ++ gap :: moved).set (rows.length + 2) (strncpy last MAX_LOGIN) =
            first :: rows ++ last :: last :: moved := by
          simp [strncpy_of_le hlast]
        rw [hset, hshift]
        simp
    · refine ⟨rows ++ [last], [], by simp, by simp, ?_, ?_⟩
      · intro row hrow
        rw [List.getLast?_concat, Option.mem_some_iff] at hrow
        rw [← hrow, ← strcmp_le]
        exact not_lt.1 hcmp
      · simp [strncpy_of_le hname]

theorem add_immort_eq (first : Str) {rows : List Str} {name : Str} (hname : name.length ≤ MAX_LOGIN)
    (hrows : Fits rows) :
    ∃ pre post, rows = pre ++ post ∧ (∀ row ∈ post, name < row) ∧ (∀ row ∈ pre.getLast?, row ≤ name) ∧
      add_immort (first :: rows) name = first :: (pre ++ name :: post) := by
  obtain ⟨pre, post, hsplit, hpost, hpre, hshift⟩ := shiftDown_eq name first rows [] [] hname hrows
  refine ⟨pre, post, hsplit, hpost, hpre, ?_⟩
  rw [List.append_nil] at hshift
  exact hshift

/-- a row is added, and none is lost -/
theorem add_immort_perm {immort : List Str} {name : Str} (hname : name.length ≤ MAX_LOGIN) (hfits : Fits immort) :
    (add_immort immort name).Perm (name :: immort) := by
  cases immort with
  | nil => rw [add_immort, List.length_nil, strncpy_of_le hname]
  | cons first rows =>
    have hrows : Fits rows := fun row hrow => hfits row (List.mem_cons_of_mem first hrow)
    obtain ⟨pre, post, hsplit, -, -, hadd⟩ := add_immort_eq first hname hrows
    rw [hadd, hsplit]
    exact (List.perm_middle.cons first).trans (List.Perm.swap name first (pre ++ post))

/-- the first row stays where it is -/
theorem add_immort_head {immort : List Str} {name : Str} (hname : name.length ≤ MAX_LOGIN) (hfits : Fits immort) :
    (add_immort immort name).head? = some (immort.head?.getD name) := by
  cases immort with
  | nil => simp [add_immort, strncpy_of_le hname]
  | cons first rows =>
    have hrows : Fits rows := fun row hrow => hfits row (List.mem_cons_of_mem first hrow)
    obtain ⟨pre, post, -, -, -, hadd⟩ := add_immort_eq first hname hrows
    simp [hadd]

/-- the rows after the first are kept sorted -/
theorem add_immort_sorted {immort : List Str} {name : Str} (hname : name.length ≤ MAX_LOGIN) (hfits : Fits immort)
    (hsorted : immort.tail.Pairwise (· ≤ ·)) : (add_immort immort name).tail.Pairwise (· ≤ ·) := by
  cases immort with
  | nil => simp [add_immort]
  | cons first rows =>
    have hrows : Fits rows := fun row hrow => hfits row (List.mem_cons_of_mem first hrow)
    obtain ⟨pre, post, hsplit, hpost, hpre, hadd⟩ := add_immort_eq first hname hrows
    rw [List.tail_cons, hsplit, List.pairwise_append] at hsorted
    obtain ⟨hs1, hs2, hcross⟩ := hsorted
    -- the last row before `name` is the largest of those before it
    have hle : ∀ row ∈ pre, row ≤ name := by
      intro row hrow
      have hne : pre ≠ [] := List.ne_nil_of_mem hrow
      have hlast := hpre (pre.getLast hne) (by rw [List.getLast?_eq_some_getLast hne]; rfl)
      refine le_trans ?_ hlast
      rw [← List.dropLast_append_getLast hne, List.pairwise_append] at hs1
      rw [← List.dropLast_append_getLast hne] at hrow
      rcases List.mem_append.1 hrow with hrow | hrow
      · exact hs1.2.2 row hrow _ (List.mem_singleton_self _)
      · exact (List.mem_singleton.1 hrow).le
    rw [hadd, List.tail_cons, List.pairwise_append, List.pairwise_cons]
    refine ⟨hs1, ⟨fun row hrow => (hpost row hrow).le, hs2⟩, fun row hrow row' hrow' => ?_⟩
    rcases List.mem_cons.1 hrow' with rfl | hrow'
    · exact hle row hrow
    · exact hcross row hrow row' hrow'

/-! ## Loading a file -/

/-- the lines that are logins; a line with a NUL byte in it is not -/
def names (lines : List Str) : List Str := lines.filter fun l => '\x00' ∉ l

/-- one line of the file -/
theorem loadLine_line (immort : List Str) {l : Str} (hnl : '\n' ∉ l) (hlen : l.length ≤ MAX_LOGIN) :
    loadLine immort (l ++ ['\n']) = if '\x00' ∉ l then add_immort immort l else immort := by
  unfold loadLine
  by_cases hnul : '\x00' ∈ l
  · have hcut : '\n' ∉ cstr (l ++ ['\n']) := by
      rw [cstr_append_of_mem hnul]
      exact fun h => hnl (mem_of_mem_cstr h)
    rw [if_pos hcut, if_neg (not_not.2 hnul)]
  · have hwhole : cstr (l ++ ['\n']) = l ++ ['\n'] := cstr_of_not_mem (by simp [hnul])
    rw [hwhole, takeWhile_line hnl, if_neg (by simp), if_neg (not_lt.2 hlen), if_pos hnul]

/-- the table after a text file has been read, starting from some table -/
theorem foldl_loadLine {lines : List Str} (h : ∀ l ∈ lines, '\n' ∉ l ∧ l.length ≤ MAX_LOGIN) (immort : List Str) :
    (lines.map (· ++ ['\n'])).foldl loadLine immort = (names lines).foldl add_immort immort := by
  induction lines generalizing immort with
  | nil => rfl
  | cons l lines ih =>
    obtain ⟨hnl, hlen⟩ := h l List.mem_cons_self
    rw [List.map_cons, List.foldl_cons, loadLine_line immort hnl hlen,
      ih fun l' hl' => h l' (List.mem_cons_of_mem l hl')]
    by_cases hnul : '\x00' ∈ l
    · simp [names, hnul]
    · simp [names, hnul]

/-- **What is kept while names are added**: the table holds the names, its first row is the first name, and the others
are sorted -/
theorem foldl_add_immort {ns : List Str} (h : Fits ns) {immort : List Str} (hfits : Fits immort)
    (hsorted : immort.tail.Pairwise (· ≤ ·)) :
    (ns.foldl add_immort immort).Perm (ns ++ immort) ∧
      (ns.foldl add_immort immort).head? = (immort ++ ns).head? ∧
      (ns.foldl add_immort immort).tail.Pairwise (· ≤ ·) := by
  induction ns generalizing immort with
  | nil => simpa using hsorted
  | cons name ns ih =>
    have hname := h name List.mem_cons_self
    have hperm := add_immort_perm hname hfits
    have hfits' : Fits (add_immort immort name) := by
      intro row hrow
      rcases List.mem_cons.1 (hperm.subset hrow) with rfl | hrow
      · exact hname
      · exact hfits row hrow
    obtain ⟨hp, hh, hs⟩ := ih (fun row hrow => h row (List.mem_cons_of_mem name hrow)) hfits'
      (add_immort_sorted hname hfits hsorted)
    refine ⟨hp.trans ?_, hh.trans ?_, hs⟩
    · exact ((hperm.append_left ns).trans List.perm_middle)
    · rw [List.head?_append, add_immort_head hname hfits, Option.some_or, List.head?_append, List.head?_cons]
      cases immort.head? <;> rfl

/-- the table a file of logins leaves -/
theorem load_immortals_eq {lines : List Str} (h : ∀ l ∈ lines, '\n' ∉ l ∧ l.length ≤ MAX_LOGIN) :
    (load_immortals (some (unlines lines))).Perm (names lines) ∧
      (load_immortals (some (unlines lines))).head? = (names lines).head? ∧
      (load_immortals (some (unlines lines))).tail.Pairwise (· ≤ ·) := by
  have hread : fgetsAll BFSZ (unlines lines) = lines.map (· ++ ['\n']) := by
    refine fgetsAll_lines lines fun l hl => ⟨(h l hl).1, ?_⟩
    have hlen := (h l hl).2
    unfold MAX_LOGIN at hlen
    unfold BFSZ
    omega
  have hfits : Fits (names lines) := fun row hrow => (h row (List.mem_filter.1 hrow).1).2
  have hempty : Fits [] := by simp [Fits]
  have hload := foldl_add_immort hfits hempty (by simp)
  rw [List.append_nil, List.nil_append] at hload
  rw [load_immortals, hread, foldl_loadLine h]
  exact hload

/-! ## Looking up -/

/-- the look-up is right for every name -/
def FindsAll (immort : List Str) (lines : List Str) : Prop :=
  ∀ name, '\x00' ∉ name → (is_immortal immort name = 1 ↔ name ∈ lines)

/-- in a sorted table the look-up finds what is there -/
theorem is_immortal_iff {immort : List Str} (h : immort.Pairwise (· ≤ ·)) (name : Str) :
    is_immortal immort name = 1 ↔ name ∈ immort := by
  have hrow : ∀ (i : ℕ) (row : Str), immort[i]? = some row → immort.getD i [] = row := by
    intro i row hi
    rw [List.getD_eq_getElem?_getD, hi, Option.getD_some]
  have hfound : (searchTable (fun i => strcmp name (immort.getD i [])) immort.length).isSome ↔ name ∈ immort := by
    refine search_isSome_iff h name (fun i row hi => ?_) fun i row hi => ?_
    · rw [hrow i row hi, strcmp_neg]
    · rw [hrow i row hi, strcmp_zero]
  rw [is_immortal, ← hfound]
  split_ifs with hsome
  · exact iff_of_true rfl hsome
  · exact iff_of_false (by decide) hsome

/-- **When the immortals are found.** For a file of lines of at most `MAX_LOGIN` characters, in any order and with any
repeats: the table is sorted and the look-up right, if and only if the first name comes before no other. -/
theorem immortals_iff (lines : List Str) (h : ∀ l ∈ lines, '\n' ∉ l ∧ l.length ≤ MAX_LOGIN) :
    (Sorted (load_immortals (some (unlines lines))) ∧ FindsAll (load_immortals (some (unlines lines))) lines) ↔
      ∀ first ∈ (names lines).head?, ∀ name ∈ names lines, strcmp first name ≤ 0 := by
  obtain ⟨hperm, hhead, htail⟩ := load_immortals_eq h
  set immort := load_immortals (some (unlines lines)) with himmort
  have hsorted : Sorted immort ↔ ∀ first ∈ (names lines).head?, ∀ name ∈ names lines, strcmp first name ≤ 0 := by
    rw [sorted_iff, ← hhead]
    cases himm : immort with
    | nil => simp
    | cons first rows =>
      rw [himm, List.tail_cons] at htail
      rw [himm] at hperm
      simp only [List.pairwise_cons, htail, and_true, List.head?_cons, Option.mem_some_iff, forall_eq', strcmp_le]
      refine ⟨?_, ?_⟩
      · intro hle name hname
        rcases List.mem_cons.1 (hperm.symm.subset hname) with rfl | hname
        · exact le_rfl
        · exact hle name hname
      · exact fun hle row hrow => hle row (hperm.subset (List.mem_cons_of_mem first hrow))
  rw [← hsorted, and_iff_left_iff_imp]
  intro hs name hnul
  rw [is_immortal_iff ((sorted_iff immort).1 hs), hperm.mem_iff]
  simp [names, hnul]

def orderlyLines : List Str := [['a'], ['c'], ['b'], ['c']]

theorem immortals_orderly :
    Sorted (load_immortals (some (unlines orderlyLines))) ∧
      FindsAll (load_immortals (some (unlines orderlyLines))) orderlyLines :=
  (immortals_iff orderlyLines (by decide)).2 (by decide)

def disorderlyLines : List Str := [['b'], ['a']]

/-- **A name that belongs at the top.** The table of these two lines is not sorted, and the second one is not found. -/
theorem early_name :
    (∀ l ∈ disorderlyLines, '\n' ∉ l ∧ l.length ≤ MAX_LOGIN) ∧
      load_immortals (some (unlines disorderlyLines)) = [['b'], ['a']] ∧
      is_immortal (load_immortals (some (unlines disorderlyLines))) ['a'] = 0 ∧
      ¬(Sorted (load_immortals (some (unlines disorderlyLines))) ∧
        FindsAll (load_immortals (some (unlines disorderlyLines))) disorderlyLines) := by
  refine ⟨by decide, by decide, by decide, fun h => ?_⟩
  have hfound := (h.2 ['a'] (by decide)).2 (by decide)
  exact absurd hfound (by decide)

end MNetSoft.Zapuser
