/-
C strings and the parts of `string.h` and `stdio.h` the modelled programs use. A `Str` is the characters of a string
before its terminating NUL, or the characters of a file; a byte is the character with its code.

- `strcmp_neg`, `strcmp_pos`, `strcmp_zero`: `strcmp` decides the lexicographic order of `Str`, so what is known of a
  linear order applies to tables kept in `strcmp` order.
- `strncmp_of_le`, `strncpy_of_le`: within their limit, `strncmp` and `strncpy` are `strcmp` and a plain copy.
- `fgetsAll_lines`: a file of newline-terminated lines shorter than the buffer is read back line by line.
- `drain_cons`, `drain_fuel`: what a reader delivers call by call, whatever it is that it reads.
- `scanWord_word`: a word in front of white space is read back.
- `file_induction`: a file is empty, a last line without a newline, or a line and a file.
-/
import Mathlib.Tactic
import Mathlib.Order.Lex
import Mathlib.Data.List.DropRight
import Mathlib.Data.List.Lex
import Mathlib.Data.Char

namespace MNetSoft.CString

abbrev Str := List Char

instance : LawfulBEq Str := inferInstanceAs (LawfulBEq (List Char))

/-- what is said of all characters of a text is decided along the text -/
instance (priority := 1100) (s : Str) (p : Char → Prop) [DecidablePred p] : Decidable (∀ c ∈ s, p c) :=
  List.decidableBAll p s

/-- what is before the first NUL: the C string that starts a buffer -/
def cstr (s : Str) : Str := s.takeWhile (· ≠ '\x00')

theorem length_cstr_le (s : Str) : (cstr s).length ≤ s.length := (List.takeWhile_sublist _).length_le

theorem cstr_of_not_mem {s : Str} (h : '\x00' ∉ s) : cstr s = s := by
  have hall : (s ++ []).takeWhile (· ≠ '\x00') = s ++ [].takeWhile (· ≠ '\x00') :=
    List.takeWhile_append_of_pos fun c hc => by
      simp only [ne_eq, decide_eq_true_eq]
      rintro rfl
      exact h hc
  rwa [List.takeWhile_nil, List.append_nil] at hall

section Scan

variable {s : Str} {p : Char → Bool} {c : Char}

/-- a scan does not go past a character that stops it -/
theorem takeWhile_append_cons (hp : p c = false) (s t : Str) : (s ++ c :: t).takeWhile p = s.takeWhile p := by
  induction s with
  | nil => exact List.takeWhile_cons_of_neg (by simp [hp])
  | cons d s ih => rw [List.cons_append, List.takeWhile_cons, List.takeWhile_cons, ih]

theorem takeWhile_append_of_mem (hc : c ∈ s) (hp : p c = false) (t : Str) : (s ++ t).takeWhile p = s.takeWhile p := by
  obtain ⟨s₁, s₂, rfl⟩ := List.append_of_mem hc
  rw [List.append_assoc, List.cons_append, takeWhile_append_cons hp, takeWhile_append_cons hp]

/-- what a scan leaves is still there with more behind it, if something stops the scan -/
theorem dropWhile_append_of_mem (hc : c ∈ s) (hp : p c = false) (t : Str) :
    (s ++ t).dropWhile p = s.dropWhile p ++ t := by
  refine (List.append_right_inj (s.takeWhile p)).1 ?_
  rw [← List.append_assoc, List.takeWhile_append_dropWhile, ← takeWhile_append_of_mem hc hp t,
    List.takeWhile_append_dropWhile]

end Scan

/-- texts are parted in one way at the first place of a character -/
theorem append_cons_inj {c : Char} {s s' t t' : Str} (h : c ∉ s) (h' : c ∉ s') (heq : s ++ c :: t = s' ++ c :: t') :
    s = s' ∧ t = t' := by
  rcases List.append_eq_append_iff.1 heq with ⟨u, rfl, hu⟩ | ⟨u, rfl, hu⟩
  · cases u with
    | nil => exact ⟨(List.append_nil s).symm, (List.cons.inj hu).2⟩
    | cons d u =>
      rw [(List.cons.inj hu).1] at h'
      exact absurd (List.mem_append_right _ List.mem_cons_self) h'
  · cases u with
    | nil => exact ⟨List.append_nil s', (List.cons.inj hu).2.symm⟩
    | cons d u =>
      rw [(List.cons.inj hu).1] at h
      exact absurd (List.mem_append_right _ List.mem_cons_self) h

/-- what is behind a NUL does not matter -/
theorem cstr_append_of_mem {s : Str} (h : '\x00' ∈ s) (t : Str) : cstr (s ++ t) = cstr s :=
  takeWhile_append_of_mem h (by simp) t

/-- a string ends at the first NUL -/
theorem cstr_append_nul {s : Str} (h : '\x00' ∉ s) (t : Str) : cstr (s ++ '\x00' :: t) = s := by
  rw [cstr, takeWhile_append_cons (by simp)]
  exact cstr_of_not_mem h

/-- a buffer is the string in it, a NUL and what is behind -/
theorem eq_cstr_append {s : Str} (h : '\x00' ∈ s) : ∃ t, s = cstr s ++ '\x00' :: t := by
  obtain ⟨s₁, s₂, rfl, hs₁⟩ := List.eq_append_cons_of_mem h
  exact ⟨s₂, by rw [cstr_append_nul hs₁]⟩

/-- a C string has no NUL in it -/
theorem nul_not_mem_cstr (s : Str) : '\x00' ∉ cstr s := by
  intro hmem
  have hall := List.all_eq_true.1 (List.all_takeWhile (p := (· ≠ '\x00')) (l := s)) _ hmem
  simp at hall

theorem mem_of_mem_cstr {s : Str} {c : Char} (h : c ∈ cstr s) : c ∈ s := (List.takeWhile_sublist _).subset h

/-! ## Comparing and copying -/

def strcmp : Str → Str → ℤ
  | [], [] => 0
  | [], _ :: _ => -1
  | _ :: _, [] => 1
  | a :: as, b :: bs => if a < b then -1 else if b < a then 1 else strcmp as bs

/-- compare at most the first `n` characters -/
def strncmp (a b : Str) (n : ℕ) : ℤ := strcmp (a.take n) (b.take n)

/-- copy at most `n` characters -/
def strncpy (src : Str) (n : ℕ) : Str := src.take n

/-- copy into a buffer of `size` bytes, the last of them for the NUL -/
def strlcpy (src : Str) (size : ℕ) : Str := src.take (size - 1)

theorem strcmp_neg (a b : Str) : strcmp a b < 0 ↔ a < b := by
  induction a generalizing b with
  | nil =>
    cases b with
    | nil => simp [strcmp]
    | cons b bs => simp [strcmp]
  | cons a as ih =>
    cases b with
    | nil => simp [strcmp]
    | cons b bs =>
      rw [List.cons_lt_cons_iff, strcmp]
      split_ifs with h1 h2
      · simp [h1]
      · simp [h1, h2.ne']
      · have hab : a = b := le_antisymm (not_lt.1 h2) (not_lt.1 h1)
        simp [hab, ih bs]

theorem strcmp_swap (a b : Str) : strcmp b a = -strcmp a b := by
  induction a generalizing b with
  | nil => cases b <;> simp [strcmp]
  | cons a as ih =>
    cases b with
    | nil => simp [strcmp]
    | cons b bs =>
      simp only [strcmp]
      split_ifs with h1 h2
      · exact absurd h2 h1.asymm
      · rfl
      · rfl
      · exact ih bs

theorem strcmp_pos (a b : Str) : 0 < strcmp a b ↔ b < a := by
  rw [← strcmp_neg b a, strcmp_swap a b]
  omega

theorem strcmp_zero (a b : Str) : strcmp a b = 0 ↔ a = b := by
  refine ⟨?_, ?_⟩
  · intro h
    have h1 : ¬ a < b := by rw [← strcmp_neg]; omega
    have h2 : ¬ b < a := by rw [← strcmp_pos]; omega
    exact le_antisymm (not_lt.1 h2) (not_lt.1 h1)
  · rintro rfl
    have h1 : ¬ strcmp a a < 0 := by rw [strcmp_neg]; exact lt_irrefl a
    have h2 : ¬ 0 < strcmp a a := by rw [strcmp_pos]; exact lt_irrefl a
    omega

theorem strncmp_of_le {a b : Str} {n : ℕ} (ha : a.length ≤ n) (hb : b.length ≤ n) : strncmp a b n = strcmp a b := by
  rw [strncmp, List.take_of_length_le ha, List.take_of_length_le hb]

theorem strncpy_of_le {a : Str} {n : ℕ} (ha : a.length ≤ n) : strncpy a n = a := List.take_of_length_le ha

/-! ## Reading lines -/

/-- the next line, its newline included, cut after `k` characters; and what is left -/
def takeLine : ℕ → Str → Str × Str
  | 0, s => ([], s)
  | _ + 1, [] => ([], [])
  | k + 1, c :: s =>
    if c = '\n' then ([c], s) else (c :: (takeLine k s).1, (takeLine k s).2)

/-- `fgets(bf, n, fp)`: the characters it stores and what is left of the file; `none` at end of file -/
def fgets (n : ℕ) (s : Str) : Option (Str × Str) := if s = [] then none else some (takeLine (n - 1) s)

/-- `isspace` in the C locale -/
def isspace (c : Char) : Bool := c ∈ [' ', '\t', '\n', '\x0b', '\x0c', '\r']

def skipSpace (s : Str) : Str := s.dropWhile isspace

/-- white space taken off both ends -/
def strip (s : Str) : Str := (skipSpace s).rdropWhile isspace

/-- `%s` of `scanf`: the next word and what is left; `none` at end of file -/
def scanWord (s : Str) : Option (Str × Str) :=
  if skipSpace s = [] then none
  else some ((skipSpace s).takeWhile fun c => !isspace c, (skipSpace s).dropWhile fun c => !isspace c)

/-- what successive calls of a reader deliver until it fails, `fuel` bounding their number -/
def drain {α : Type*} (next : Str → Option (α × Str)) : ℕ → Str → List α
  | 0, _ => []
  | fuel + 1, s =>
    match next s with
    | none => []
    | some (a, rest) => a :: drain next fuel rest

/-- `while (fscanf(fp, "%s", bf) == 1)` -/
def scanWords (s : Str) : List Str := drain scanWord s.length s

/-- what successive calls of `fgets` deliver up to the end of file, `fuel` bounding their number -/
def fgetsLoop (n : ℕ) : ℕ → Str → List Str
  | 0, _ => []
  | fuel + 1, s =>
    match fgets n s with
    | none => []
    | some (l, rest) => l :: fgetsLoop n fuel rest

/-- `while (fgets(bf, n, fp) != NULL)`: every call takes at least one character, so the length of the file is enough
fuel -/
def fgetsAll (n : ℕ) (s : Str) : List Str := fgetsLoop n s.length s

section Drain

variable {α : Type*} {next : Str → Option (α × Str)} (h : ∀ s a rest, next s = some (a, rest) → rest.length < s.length)
include h

/-- a reader that takes something at every call finds nothing at the end -/
theorem drain_nil (fuel : ℕ) : drain next fuel [] = [] := by
  cases fuel with
  | zero => rfl
  | succ fuel =>
    rw [drain]
    cases hn : next [] with
    | none => rfl
    | some ar => exact absurd (h [] ar.1 ar.2 hn) (Nat.not_lt_zero _)

/-- it does not need more fuel than there are characters -/
theorem drain_fuel {m n : ℕ} {s : Str} (hm : s.length ≤ m) (hn : s.length ≤ n) : drain next m s = drain next n s := by
  induction m generalizing n s with
  | zero => rw [List.length_eq_zero_iff.1 (Nat.le_zero.1 hm), drain_nil h, drain_nil h]
  | succ m ih =>
    cases n with
    | zero => rw [List.length_eq_zero_iff.1 (Nat.le_zero.1 hn), drain_nil h, drain_nil h]
    | succ n =>
      rw [drain, drain]
      cases hs : next s with
      | none => rfl
      | some ar =>
        have hlt := h s ar.1 ar.2 hs
        have hrest : drain next m ar.2 = drain next n ar.2 := ih (by omega) (by omega)
        simp only [hrest]

theorem drain_cons {s rest : Str} {a : α} (hs : next s = some (a, rest)) :
    drain next s.length s = a :: drain next rest.length rest := by
  have hlt := h s a rest hs
  obtain ⟨m, hm⟩ : ∃ m, s.length = m + 1 := ⟨s.length - 1, by omega⟩
  rw [hm, drain, hs]
  simp only
  rw [drain_fuel h (by omega) le_rfl]

end Drain

/-- the lines of a text, the last one being what follows the last newline -/
def splitLines : Str → List Str
  | [] => [[]]
  | c :: s =>
    if c = '\n' then [] :: splitLines s
    else
      match splitLines s with
      | [] => [[c]]
      | l :: ls => (c :: l) :: ls

/-- a text has a first line -/
theorem splitLines_eq_cons (s : Str) : ∃ l ls, splitLines s = l :: ls := by
  cases s with
  | nil => exact ⟨[], [], rfl⟩
  | cons c s =>
    rw [splitLines]
    split_ifs
    · exact ⟨_, _, rfl⟩
    · split
      · exact ⟨_, _, rfl⟩
      · exact ⟨_, _, rfl⟩

/-- a text file: every line followed by its newline -/
def unlines (lines : List Str) : Str := lines.flatMap (· ++ ['\n'])

theorem takeLine_line {l : Str} (hl : '\n' ∉ l) {k : ℕ} (hk : l.length < k) (rest : Str) :
    takeLine k (l ++ '\n' :: rest) = (l ++ ['\n'], rest) := by
  induction l generalizing k with
  | nil =>
    cases k with
    | zero => simp at hk
    | succ k => simp [takeLine]
  | cons c l ih =>
    cases k with
    | zero => simp at hk
    | succ k =>
      have hc : c ≠ '\n' := fun h => hl (by simp [h])
      have hrec := ih (fun h => hl (List.mem_cons_of_mem c h)) (by simpa using hk)
      simp [takeLine, hc, hrec]

/-- a line as long as the buffer is read without its newline -/
theorem takeLine_full {l : Str} (hl : '\n' ∉ l) {k : ℕ} (hk : l.length = k) (rest : Str) :
    takeLine k (l ++ rest) = (l, rest) := by
  induction l generalizing k with
  | nil => rw [← hk]; rfl
  | cons c l ih =>
    have hc : c ≠ '\n' := fun h => hl (by simp [h])
    have hrec := ih (fun h => hl (List.mem_cons_of_mem c h)) rfl
    rw [← hk, List.length_cons, List.cons_append, takeLine, if_neg hc, hrec]

/-- a last line that fits the buffer is read whole -/
theorem takeLine_all {l : Str} (hl : '\n' ∉ l) {k : ℕ} (hk : l.length ≤ k) : takeLine k l = (l, []) := by
  induction l generalizing k with
  | nil => cases k <;> rfl
  | cons c l ih =>
    obtain ⟨k, rfl⟩ := Nat.exists_eq_add_one.2 (Nat.zero_lt_of_lt hk)
    have hc : c ≠ '\n' := fun h => hl (by simp [h])
    rw [takeLine, if_neg hc, ih (fun h => hl (List.mem_cons_of_mem c h)) (Nat.succ_le_succ_iff.1 hk)]

theorem splitLines_line {l : Str} (hl : '\n' ∉ l) (s : Str) : splitLines (l ++ '\n' :: s) = l :: splitLines s := by
  induction l with
  | nil => simp [splitLines]
  | cons c l ih =>
    have hc : c ≠ '\n' := fun h => hl (by simp [h])
    have hrec := ih fun h => hl (List.mem_cons_of_mem c h)
    simp [splitLines, hc, hrec]

/-- a text file splits into its lines, and nothing after the last newline -/
theorem splitLines_unlines {lines : List Str} (h : ∀ l ∈ lines, '\n' ∉ l) :
    splitLines (unlines lines) = lines ++ [[]] := by
  induction lines with
  | nil => rfl
  | cons l lines ih =>
    have hrest := ih fun l' hl' => h l' (List.mem_cons_of_mem l hl')
    have hcons : unlines (l :: lines) = l ++ '\n' :: unlines lines := by simp [unlines]
    rw [hcons, splitLines_line (h l List.mem_cons_self), hrest, List.cons_append]

/-- `strchr(bf, '\n')` on a line: what is before its newline -/
theorem takeWhile_line {l : Str} (hl : '\n' ∉ l) (rest : Str) : (l ++ '\n' :: rest).takeWhile (· ≠ '\n') = l := by
  rw [List.takeWhile_append_of_pos]
  · simp
  · intro c hc
    simp only [ne_eq, decide_eq_true_eq]
    rintro rfl
    exact hl hc

/-- a line that fits the buffer is read whole -/
theorem fgets_line {l : Str} {n : ℕ} (hl : '\n' ∉ l) (hn : l.length + 1 < n) (rest : Str) :
    fgets n (l ++ '\n' :: rest) = some (l ++ ['\n'], rest) := by
  rw [fgets, if_neg (by simp), takeLine_line hl (by omega)]

/-- `fgetsAll` as a drain -/
theorem fgetsAll_eq_drain (n : ℕ) (s : Str) : fgetsAll n s = drain (fgets n) s.length s := by
  have hloop : ∀ fuel s, fgetsLoop n fuel s = drain (fgets n) fuel s := by
    intro fuel
    induction fuel with
    | zero => intro s; rfl
    | succ fuel ih =>
      intro s
      rw [fgetsLoop, drain]
      cases fgets n s with
      | none => rfl
      | some lr => simp only [ih]
  rw [fgetsAll, hloop]

theorem length_takeLine (k : ℕ) (s : Str) : (takeLine k s).1.length + (takeLine k s).2.length = s.length := by
  induction k generalizing s with
  | zero => simp [takeLine]
  | succ k ih =>
    cases s with
    | nil => rfl
    | cons c s =>
      rw [takeLine]
      split_ifs
      · simp [Nat.add_comm]
      · have hrec := ih s
        simp only [List.length_cons]
        omega

theorem length_takeLine_le (k : ℕ) (s : Str) : (takeLine k s).1.length ≤ k := by
  induction k generalizing s with
  | zero => rfl
  | succ k ih =>
    cases s with
    | nil => exact Nat.zero_le _
    | cons c s =>
      rw [takeLine]
      split_ifs
      · simp
      · have hrec := ih s
        simp only [List.length_cons]
        omega

/-- a call of `fgets` takes at least one character -/
theorem fgets_shrinks {n : ℕ} (hn : 2 ≤ n) (s l rest : Str) (h : fgets n s = some (l, rest)) :
    rest.length < s.length := by
  rw [fgets] at h
  split_ifs at h with hs
  obtain ⟨k, hk⟩ : ∃ k, n - 1 = k + 1 := ⟨n - 2, by omega⟩
  cases s with
  | nil => exact absurd rfl hs
  | cons c s =>
    rw [hk, takeLine, Option.some.injEq] at h
    split_ifs at h
    · obtain ⟨rfl, rfl⟩ := Prod.mk.inj h
      exact Nat.lt_succ_self _
    · obtain ⟨rfl, rfl⟩ := Prod.mk.inj h
      have hlen := length_takeLine k s
      rw [List.length_cons]
      omega

theorem fgetsAll_cons {n : ℕ} (hn : 2 ≤ n) {s l rest : Str} (h : fgets n s = some (l, rest)) :
    fgetsAll n s = l :: fgetsAll n rest := by
  rw [fgetsAll_eq_drain, fgetsAll_eq_drain, drain_cons (fgets_shrinks hn) h]

/-- what `fgets` delivers is a line of what was left of the file -/
theorem exists_of_mem_fgetsAll {n : ℕ} {s l : Str} (h : l ∈ fgetsAll n s) : ∃ t, (takeLine (n - 1) t).1 = l := by
  rw [fgetsAll] at h
  generalize s.length = fuel at h
  induction fuel generalizing s with
  | zero => cases h
  | succ fuel ih =>
    rw [fgetsLoop] at h
    cases hs : fgets n s with
    | none => rw [hs] at h; cases h
    | some lr =>
      rw [hs] at h
      rcases List.mem_cons.1 h with rfl | h
      · rw [fgets] at hs
        split_ifs at hs
        exact ⟨s, congrArg Prod.fst (Option.some.inj hs)⟩
      · exact ih h

/-- nothing that `fgets` delivers is longer than its buffer allows -/
theorem length_of_mem_fgetsAll {n : ℕ} {s l : Str} (h : l ∈ fgetsAll n s) : l.length ≤ n - 1 := by
  obtain ⟨t, rfl⟩ := exists_of_mem_fgetsAll h
  exact length_takeLine_le _ t

theorem newline_not_mem_dropLast_takeLine (k : ℕ) (s : Str) : '\n' ∉ (takeLine k s).1.dropLast := by
  induction k generalizing s with
  | zero => exact List.not_mem_nil
  | succ k ih =>
    cases s with
    | nil => exact List.not_mem_nil
    | cons c s =>
      rw [takeLine]
      split_ifs with hc
      · exact List.not_mem_nil
      · have hrec := ih s
        dsimp only
        cases h : (takeLine k s).1 with
        | nil => exact List.not_mem_nil
        | cons d t =>
          rw [h] at hrec
          rw [List.dropLast_cons_of_ne_nil (List.cons_ne_nil d t), List.mem_cons, not_or]
          exact ⟨Ne.symm hc, hrec⟩

/-- a newline is the last character of what `fgets` delivers, if there is one -/
theorem newline_not_mem_dropLast {n : ℕ} {s l : Str} (h : l ∈ fgetsAll n s) : '\n' ∉ l.dropLast := by
  obtain ⟨t, rfl⟩ := exists_of_mem_fgetsAll h
  exact newline_not_mem_dropLast_takeLine _ t

theorem newline_not_mem_dropLast_cstr {l : Str} (h : '\n' ∉ l.dropLast) : '\n' ∉ (cstr l).dropLast := by
  obtain ⟨t, ht⟩ : cstr l <+: l := List.takeWhile_prefix _
  cases t with
  | nil => rwa [← ht, List.append_nil] at h
  | cons c t =>
    rw [← ht, List.dropLast_append_of_ne_nil (List.cons_ne_nil c t), List.mem_append, not_or] at h
    exact fun hmem => h.1 ((List.dropLast_sublist _).subset hmem)

/-- the lines of a file, each with its newline; the last one may lack it -/
def rawLines : Str → List Str
  | [] => []
  | c :: s =>
    if c = '\n' then [c] :: rawLines s
    else
      match rawLines s with
      | [] => [[c]]
      | l :: ls => (c :: l) :: ls

theorem rawLines_line {l : Str} (hl : '\n' ∉ l) (s : Str) :
    rawLines (l ++ '\n' :: s) = (l ++ ['\n']) :: rawLines s := by
  induction l with
  | nil => simp [rawLines]
  | cons c l ih =>
    have hc : c ≠ '\n' := fun h => hl (by simp [h])
    have hrec := ih fun h => hl (List.mem_cons_of_mem c h)
    simp [rawLines, hc, hrec]

/-- a text without a newline is one line -/
theorem rawLines_last {l : Str} (hl : '\n' ∉ l) (hne : l ≠ []) : rawLines l = [l] := by
  induction l with
  | nil => exact absurd rfl hne
  | cons c l ih =>
    have hc : c ≠ '\n' := fun h => hl (by simp [h])
    rw [rawLines, if_neg hc]
    cases l with
    | nil => rfl
    | cons d l => rw [ih (fun h => hl (List.mem_cons_of_mem c h)) (List.cons_ne_nil d l)]

/-- a file is empty, or a last line without a newline, or a line and a file -/
theorem file_cases (s : Str) : s = [] ∨ ('\n' ∉ s ∧ s ≠ []) ∨ ∃ l t, '\n' ∉ l ∧ s = l ++ '\n' :: t := by
  by_cases hs : '\n' ∈ s
  · obtain ⟨l, t, rfl, hl⟩ := List.eq_append_cons_of_mem hs
    exact Or.inr (Or.inr ⟨l, t, hl, rfl⟩)
  · rcases eq_or_ne s [] with rfl | hne
    · exact Or.inl rfl
    · exact Or.inr (Or.inl ⟨hs, hne⟩)

/-- induction over the lines of a file -/
@[elab_as_elim]
theorem file_induction {motive : Str → Prop} (s : Str) (nil : motive [])
    (last : ∀ l, '\n' ∉ l → l ≠ [] → motive l) (line : ∀ l t, '\n' ∉ l → motive t → motive (l ++ '\n' :: t)) :
    motive s := by
  induction h : s.length using Nat.strong_induction_on generalizing s with
  | _ m ih =>
    subst h
    rcases file_cases s with rfl | ⟨hs, hne⟩ | ⟨l, t, hl, rfl⟩
    · exact nil
    · exact last s hs hne
    · exact line l t hl (ih t.length (by simp; omega) t rfl)

/-- a call of `fgets` does not look past the end of a line -/
theorem takeLine_append {l : Str} (hl : '\n' ∉ l) (k : ℕ) (s : Str) :
    takeLine k (l ++ '\n' :: s) = ((takeLine k (l ++ ['\n'])).1, (takeLine k (l ++ ['\n'])).2 ++ s) := by
  induction l generalizing k with
  | nil =>
    cases k with
    | zero => rfl
    | succ k => simp [takeLine]
  | cons c l ih =>
    cases k with
    | zero => simp [takeLine]
    | succ k =>
      have hc : c ≠ '\n' := fun h => hl (by simp [h])
      simp [takeLine, hc, ih fun h => hl (List.mem_cons_of_mem c h)]

/-- what is left of a line is nothing, or a shorter line -/
theorem takeLine_rest {l : Str} (hl : '\n' ∉ l) {k : ℕ} (hk : 0 < k) : (takeLine k (l ++ ['\n'])).2 = [] ∨
    ∃ l', '\n' ∉ l' ∧ l'.length < l.length ∧ (takeLine k (l ++ ['\n'])).2 = l' ++ ['\n'] := by
  induction l generalizing k with
  | nil =>
    obtain ⟨k, rfl⟩ := Nat.exists_eq_add_one.2 hk
    exact Or.inl (by simp [takeLine])
  | cons c l ih =>
    obtain ⟨k, rfl⟩ := Nat.exists_eq_add_one.2 hk
    have hc : c ≠ '\n' := fun h => hl (by simp [h])
    have hl' : '\n' ∉ l := fun h => hl (List.mem_cons_of_mem c h)
    rw [List.cons_append, takeLine, if_neg hc]
    rcases Nat.eq_zero_or_pos k with rfl | hk
    · exact Or.inr ⟨l, hl', Nat.lt_succ_self _, rfl⟩
    · rcases ih hl' hk with h | ⟨l'', hl'', hlt, h⟩
      · exact Or.inl h
      · exact Or.inr ⟨l'', hl'', hlt.trans (Nat.lt_succ_self _), h⟩

/-- a line is delivered by itself, in as many pieces as it takes -/
theorem fgetsAll_line {n : ℕ} (hn : 2 ≤ n) {l : Str} (hl : '\n' ∉ l) (s : Str) :
    fgetsAll n (l ++ '\n' :: s) = fgetsAll n (l ++ ['\n']) ++ fgetsAll n s := by
  induction h : l.length using Nat.strong_induction_on generalizing l with
  | _ m ih =>
    subst h
    have hget : ∀ t : Str, t ≠ [] → fgets n t = some ((takeLine (n - 1) t).1, (takeLine (n - 1) t).2) :=
      fun t ht => if_neg ht
    rw [fgetsAll_cons hn (hget (l ++ '\n' :: s) (by simp)), fgetsAll_cons hn (hget (l ++ ['\n']) (by simp)),
      takeLine_append hl]
    dsimp only
    rcases takeLine_rest hl (show 0 < n - 1 by omega) with hrest | ⟨l', hl', hlt, hrest⟩
    · rw [hrest]
      rfl
    · rw [hrest, List.append_assoc, List.singleton_append, ih _ hlt hl' rfl, List.cons_append]

/-- **Files are delivered line by line.** -/
theorem fgetsAll_rawLines {n : ℕ} (hn : 2 ≤ n) (s : Str) : fgetsAll n s = (rawLines s).flatMap (fgetsAll n) := by
  induction s using file_induction with
  | nil => rfl
  | last l hl hne => rw [rawLines_last hl hne, List.flatMap_singleton]
  | line l t hl ih => rw [fgetsAll_line hn hl, rawLines_line hl, List.flatMap_cons, ih]

/-- **Text files are read line by line.** A file whose lines, each with its newline, fit the buffer is delivered line
by line. -/
theorem fgetsAll_lines {n : ℕ} (lines : List Str) (hn : ∀ l ∈ lines, '\n' ∉ l ∧ l.length + 1 < n) :
    fgetsAll n (unlines lines) = lines.map (· ++ ['\n']) := by
  induction lines with
  | nil => rfl
  | cons l lines ih =>
    obtain ⟨⟨hnl, hlen⟩, hrest⟩ := List.forall_mem_cons.1 hn
    have hcons : unlines (l :: lines) = l ++ '\n' :: unlines lines := by simp [unlines]
    rw [hcons, fgetsAll_cons (by omega) (fgets_line hnl hlen _), ih hrest, List.map_cons]

/-! ## Words -/

theorem mem_of_mem_strip {s : Str} {c : Char} (h : c ∈ strip s) : c ∈ s :=
  (List.dropWhile_sublist _).subset ((List.rdropWhile_prefix _ _).subset h)

/-- a word has nothing to take off -/
theorem strip_word {s : Str} (h : ∀ c ∈ s, isspace c = false) : strip s = s := by
  have hskip : skipSpace s = s := by
    cases s with
    | nil => rfl
    | cons c s => rw [skipSpace, List.dropWhile_cons_of_neg (by rw [h c List.mem_cons_self]; exact Bool.false_ne_true)]
  rw [strip, hskip, List.rdropWhile_eq_self_iff]
  intro hne hlast
  rw [h _ (List.getLast_mem hne)] at hlast
  exact Bool.false_ne_true hlast

/-- a call of `scanWord` takes at least one character -/
theorem scanWord_shrinks (s w rest : Str) (h : scanWord s = some (w, rest)) : rest.length < s.length := by
  rw [scanWord] at h
  split_ifs at h with hs
  obtain ⟨rfl, rfl⟩ := Prod.mk.inj (Option.some.inj h)
  have hskip : (skipSpace s).length ≤ s.length := (List.dropWhile_sublist _).length_le
  obtain ⟨c, t, hct⟩ := List.exists_cons_of_ne_nil hs
  have hc : isspace c = false := by
    have hhead := List.head_dropWhile_not isspace (l := s) (by rwa [skipSpace] at hs)
    simp only [skipSpace] at hct
    simpa [hct] using hhead
  rw [hct, List.dropWhile_cons_of_pos (by simp [hc])]
  rw [hct, List.length_cons] at hskip
  have htail : (t.dropWhile fun c => !isspace c).length ≤ t.length := (List.dropWhile_sublist _).length_le
  omega

/-- a word in front of white space is read as it is -/
theorem scanWord_word {w : Str} (hw : w ≠ []) (hspace : ∀ c ∈ w, isspace c = false) {sp : Char}
    (hsp : isspace sp = true) (s : Str) : scanWord (w ++ sp :: s) = some (w, sp :: s) := by
  have hskip : skipSpace (w ++ sp :: s) = w ++ sp :: s := by
    obtain ⟨c, t, rfl⟩ := List.exists_cons_of_ne_nil hw
    exact List.dropWhile_cons_of_neg (by simp [hspace c List.mem_cons_self])
  have htake : ∀ c ∈ w, (!isspace c) = true := fun c hc => by rw [hspace c hc]; rfl
  rw [scanWord, hskip, if_neg (by simp), List.takeWhile_append_of_pos htake, List.dropWhile_append_of_pos htake,
    List.takeWhile_cons_of_neg (by simp [hsp]), List.dropWhile_cons_of_neg (by simp [hsp]), List.append_nil]

theorem scanWord_space {sp : Char} (hsp : isspace sp = true) (s : Str) : scanWord (sp :: s) = scanWord s := by
  rw [scanWord, scanWord, skipSpace, List.dropWhile_cons_of_pos hsp, ← skipSpace]

theorem scanWords_cons {s w rest : Str} (h : scanWord s = some (w, rest)) : scanWords s = w :: scanWords rest :=
  drain_cons scanWord_shrinks h

theorem scanWords_space {sp : Char} (hsp : isspace sp = true) (s : Str) : scanWords (sp :: s) = scanWords s := by
  cases h : scanWord s with
  | none =>
    have hnil : ∀ t, scanWord t = none → scanWords t = [] := by
      intro t ht
      rw [scanWords]
      cases t.length with
      | zero => rfl
      | succ k => rw [drain, ht]
    rw [hnil _ h, hnil _ ((scanWord_space hsp s).trans h)]
  | some wr => rw [scanWords_cons (w := wr.1) h, scanWords_cons (w := wr.1) ((scanWord_space hsp s).trans h)]

end MNetSoft.CString
