/-
The records of `letter`: behind the letters of a word that is played with, its line has the number of guesses of the
best game, with three digits, and eight characters for the login of the player, `*` being what ends a shorter one.
`save_score` writes a line with a new record.

A number of guesses from 1000 on has more than three digits and moves the login; a login that begins with a digit makes
the number longer; a `*` in it ends it. `atoi` of a number that is no int is undefined.
- `slot_iff`: when number and login are read from what is written.
- `fgets_one_line`: when the line is still one line.
- `save_score_right_iff`: when `save_score` does what it should.
- `thousand`: a game of a thousand guesses.
-/
import Mathlib.Tactic
import MNetSoft.Core.CString
import MNetSoft.Core.Numerals
import MNetSoft.Core.Pieces
import MNetSoft.Games.Letter

namespace MNetSoft.Games.Letter

open MNetSoft.CString MNetSoft.Numerals

/-! ## Model -/

def isdigit (c : Char) : Bool := '0' ≤ c ∧ c ≤ '9'

/-- `fwrite` at an offset -/
def fwrite (file : Str) (offset : ℕ) (bs : Str) : Str := file.take offset ++ bs ++ file.drop (offset + bs.length)

/-- `%03d` of a number that is not negative -/
def printInt03 (k : ℕ) : Str := List.replicate (3 - (Nat.toDigits 10 k).length) '0' ++ Nat.toDigits 10 k

/-- the line that is written -/
def scoreLine (n : ℕ) (word : Str) (guesses : ℕ) (user : Str) : Str :=
  let bf := (word ++ printInt03 guesses ++ user).take (BFSZ - 1)
  bf.take (n + 11) ++ List.replicate (n + 11 - bf.length) '*' ++ ['\n']

/-- the login of a line, as it is printed: up to a `*` among the first eight characters -/
def olduser (n : ℕ) (bf : Str) : Str :=
  if '*' ∈ (bf.drop (n + 3)).take 8 then ((bf.drop (n + 3)).take 8).takeWhile (· ≠ '*') else bf.drop (n + 3)

/-- what is printed, and the file; `none` if a number is read for which `atoi` is undefined -/
def save_score (n line1 : ℕ) (file word : Str) (wordno guesses : ℕ) (getlogin : Option Str) : Option (Str × Str) :=
  let offset := wordno * (n + 12) + line1
  match fgets BFSZ (file.drop offset) with
  | none => some ("Could not read data file line back.  Score not saved.\n".toList, file)
  | some (bf, _) =>
    if strncmp word bf n ≠ 0 then some ("Data file change?  Score not saved.\n".toList, file)
    else if !isdigit (bf.getD n '\x00') then some ("Data line lacks score slot.  Score not saved.\n".toList, file)
    else
      match atoiInt (bf.drop n) with
      | none => none
      | some oldscore =>
        let out := if 0 < oldscore then
            "You ".toList ++ (if guesses < oldscore then [] else "did not ".toList) ++
              "beat the previous record for this word: ".toList ++ olduser n bf ++ " ".toList ++ printInt oldscore ++
              " guesses\n".toList
          else []
        if 0 < oldscore ∧ oldscore ≤ guesses then some (out, file)
        else
          match getlogin with
          | none => some (out ++ "Who are you?  Score not saved.\n".toList, file)
          | some user => some (out, fwrite file offset (scoreLine n word guesses user))

/-- the number of guesses and the login of a line -/
def readScore (n : ℕ) (bf : Str) : Option ℤ × Str :=
  (atoiInt (bf.drop n), ((bf.drop (n + 3)).take 8).takeWhile (· ≠ '*'))

/-! ## Records -/

/-- a word with a score slot, by the number of its line -/
structure Target (d : WordFile) where
  wordno : ℕ
  bf : Str
  line : d.lines[wordno]? = some bf
  slot : isdigit (bf.getD d.n '\x00') = true

/-- what `guesses` may be: a positive int -/
structure Guesses where
  count : ℕ
  pos : 0 < count
  lt : count < 2 ^ 31

/-- a C string -/
structure Login where
  name : Str
  text : '\x00' ∉ name

/-- the record there is cannot be broken by this number -/
def Kept (d : WordFile) (t : Target d) (g : Guesses) : Prop :=
  ∃ old ∈ atoiInt (t.bf.drop d.n), 0 < old ∧ old ≤ g.count

/-- Only the line changes, and it is still the line of the word. A record is kept that is as good, otherwise number and
login are what is read then. -/
def RecordRight (d : WordFile) (t : Target d) (g : Guesses) (user : Login) : Prop :=
  ∃ out file bf rest,
    save_score d.n d.line1 d.file (t.bf.take d.n) t.wordno g.count (some user.name) = some (out, file) ∧
    file.length = d.file.length ∧ file.take (d.offset t.wordno) = d.file.take (d.offset t.wordno) ∧
    file.drop (d.offset t.wordno + (d.n + 12)) = d.file.drop (d.offset t.wordno + (d.n + 12)) ∧
    fgets BFSZ (file.drop (d.offset t.wordno)) = some (bf, rest) ∧ bf.length = d.n + 12 ∧
    bf.take d.n = t.bf.take d.n ∧
    (Kept d t g ∧ file = d.file ∨ ¬Kept d t g ∧ readScore d.n bf = (some (g.count : ℤ), user.name.take 8))

/-! ## The slot -/

section Slot

variable {g : ℕ} {user : Str}

/-- what is behind the word -/
def slot (g : ℕ) (user : Str) : Str :=
  (printInt03 g ++ user).take 11 ++ List.replicate (11 - (printInt03 g ++ user).length) '*'

theorem length_slot (g : ℕ) (user : Str) : (slot g user).length = 11 := by
  rw [slot, List.length_append, List.length_take, List.length_replicate]
  omega

/-- zeros in front of a number -/
theorem scanDigits_zeros (k : ℕ) (s : Str) : scanDigits 10 0 (List.replicate k '0' ++ s) = scanDigits 10 0 s := by
  induction k with
  | zero => rfl
  | succ k ih => rw [List.replicate_succ, List.cons_append, scanDigits, ← ih]; rfl

theorem scanDigits_printInt03 (g : ℕ) (s : Str) : scanDigits 10 0 (printInt03 g ++ s) = scanDigits 10 g s := by
  have hscan := scanDigits_toDigits (by norm_num) digit_decimal g s
  rw [List.map_id] at hscan
  rw [printInt03, List.append_assoc, scanDigits_zeros, hscan]

theorem le_scanDigits (acc : ℕ) (s : Str) : acc ≤ (scanDigits 10 acc s).1 := by
  induction s generalizing acc with
  | nil => exact le_rfl
  | cons c s ih =>
    rw [scanDigits]
    cases digit 10 c with
    | none => exact le_rfl
    | some v => exact le_trans (by omega) (ih _)

theorem printInt03_digits (g : ℕ) : ∀ c ∈ printInt03 g, (digit 10 c).isSome = true := by
  intro c hc
  rcases List.mem_append.1 hc with hc | hc
  · rw [List.eq_of_mem_replicate hc]
    rfl
  · have hdigits := isSome_of_mem_toDigits (φ := id) (by norm_num) digit_decimal g
    rw [List.map_id] at hdigits
    exact hdigits c hc

theorem length_printInt03 (g : ℕ) : (printInt03 g).length = max 3 (Nat.toDigits 10 g).length := by
  rw [printInt03, List.length_append, List.length_replicate]
  omega

theorem length_printInt03_le (hlt : g < 2 ^ 31) : (printInt03 g).length ≤ 10 := by
  have hdigits : (Nat.toDigits 10 g).length ≤ 10 := by
    rw [Nat.length_toDigits_le_iff (by norm_num) (by norm_num)]
    omega
  rw [length_printInt03]
  omega

/-- there are three digits up to 999 -/
theorem length_printInt03_eq_iff (g : ℕ) : (printInt03 g).length = 3 ↔ g < 1000 := by
  have hdigits : (Nat.toDigits 10 g).length ≤ 3 ↔ g < 1000 := Nat.length_toDigits_le_iff (by norm_num) (by norm_num)
  rw [length_printInt03, ← hdigits]
  omega

/-- the number that is read in front of a text -/
theorem atoiInt_printInt03 (g : ℕ) (s : Str) :
    atoiInt (printInt03 g ++ s) = if (scanDigits 10 g s).1 < 2 ^ 31 then
      some ((scanDigits 10 g s).1 : ℤ) else none := by
  have hne : printInt03 g ≠ [] := by
    intro hnil
    have hlen := length_printInt03 g
    rw [hnil, List.length_nil] at hlen
    omega
  have hstart := startsWithDigit_append hne (printInt03_digits g) s
  have hrange : (-2 ^ 31 ≤ ((scanDigits 10 g s).1 : ℤ) ∧ ((scanDigits 10 g s).1 : ℤ) < 2 ^ 31) ↔
      (scanDigits 10 g s).1 < 2 ^ 31 := by omega
  rw [atoiInt, skipSpace_of_digit hstart, scanSign_of_digit hstart]
  simp only [scanDigits_printInt03, Bool.false_eq_true, if_false, hrange]

/-- what is behind the number -/
def behind (g : ℕ) (user : Str) : Str :=
  user.take (11 - (printInt03 g).length) ++
    List.replicate (11 - ((printInt03 g).length + user.length)) '*'

theorem behind_eq (h3 : (printInt03 g).length = 3) (user : Str) :
    behind g user = user.take 8 ++ List.replicate (8 - user.length) '*' := by
  rw [behind, h3]
  congr 2
  omega

theorem slot_eq (hlt : g < 2 ^ 31) (user : Str) : slot g user = printInt03 g ++ behind g user := by
  have hlen := length_printInt03_le hlt
  rw [slot, List.take_append, List.take_of_length_le (by omega), List.length_append, behind, List.append_assoc]

/-- **What is read from the slot.** -/
theorem slot_iff (hpos : 0 < g) (hlt : g < 2 ^ 31) (user : Str) :
    (atoiInt (slot g user ++ ['\n']) = some (g : ℤ) ∧
      (((slot g user ++ ['\n']).drop 3).take 8).takeWhile (· ≠ '*') = user.take 8) ↔
    g < 1000 ∧ ¬StartsWithDigit 10 user ∧ '*' ∉ user.take 8 := by
  have hlen := length_printInt03_le hlt
  rw [slot_eq hlt, List.append_assoc, atoiInt_printInt03]
  constructor
  · rintro ⟨hnumber, huser⟩
    have hval : (scanDigits 10 g (behind g user ++ ['\n'])).1 = g := by
      split_ifs at hnumber
      exact_mod_cast Option.some.inj hnumber
    have hdigit : ¬StartsWithDigit 10 user := by
      rintro ⟨c, hc, hsome⟩
      obtain ⟨v, hv⟩ := Option.isSome_iff_exists.1 hsome
      obtain ⟨u, rfl⟩ : ∃ u, user = c :: u := by
        cases user with
        | nil => cases hc
        | cons d u => exact ⟨u, by cases hc; rfl⟩
      obtain ⟨k, hk⟩ : ∃ k, 11 - (printInt03 g).length = k + 1 := ⟨10 - (printInt03 g).length, by omega⟩
      rw [behind, hk, List.take_succ_cons, List.cons_append, List.cons_append, scanDigits, hv] at hval
      have hle := le_scanDigits (g * 10 + v) (u.take k ++
        List.replicate (11 - ((printInt03 g).length + (c :: u).length)) '*' ++ ['\n'])
      simp only at hval
      omega
    refine ⟨?_, hdigit, ?_⟩
    · by_contra hge
      have h4 : 3 < (printInt03 g).length :=
        lt_of_le_of_ne (by rw [length_printInt03]; exact le_max_left _ _)
          (Ne.symm fun h => hge ((length_printInt03_eq_iff g).1 h))
      have hdrop := List.drop_eq_getElem_cons h4
      have hfirst := printInt03_digits g _ (List.getElem_mem h4)
      have hstar : ((printInt03 g)[3] ≠ '*') := by
        intro heq
        rw [heq] at hfirst
        exact absurd hfirst (by decide)
      rw [List.drop_append_of_le_length h4.le, hdrop, List.cons_append, List.take_succ_cons,
        List.takeWhile_cons_of_pos (by simpa using hstar)] at huser
      refine hdigit ⟨(printInt03 g)[3], ?_, hfirst⟩
      cases user with
      | nil => cases huser
      | cons d u =>
        rw [List.take_succ_cons] at huser
        rw [(List.cons.inj huser).1]
        rfl
    · rw [← huser]
      intro hmem
      simpa using List.mem_takeWhile_imp hmem
  · rintro ⟨hthree, hdigit, hstar⟩
    have h3 := (length_printInt03_eq_iff g).2 hthree
    have hbehind := behind_eq h3 user
    have hnot : ¬StartsWithDigit 10 (behind g user ++ ['\n']) := by
      rw [hbehind]
      cases user with
      | nil => exact not_startsWithDigit_cons (by decide) _
      | cons c u =>
        refine not_startsWithDigit_cons (Option.not_isSome_iff_eq_none.1 fun h => hdigit ⟨c, rfl, h⟩) _
    have hlength : (behind g user).length = 8 := by
      rw [hbehind, List.length_append, List.length_take, List.length_replicate]
      omega
    rw [scanDigits_of_not_starts hnot, if_pos hlt, List.drop_left' h3, List.take_left' hlength, hbehind]
    refine ⟨rfl, ?_⟩
    rw [List.takeWhile_append_of_pos fun c hc => by simpa using fun h : c = '*' => hstar (h ▸ hc)]
    cases 8 - user.length with
    | zero => rw [List.replicate_zero, List.takeWhile_nil, List.append_nil]
    | succ k => rw [List.replicate_succ, List.takeWhile_cons_of_neg (by simp), List.append_nil]

end Slot

/-! ## The file -/

section Line

variable {d : WordFile}

/-- the file in front of the line of a word, and behind it -/
theorem Target.split (t : Target d) : ∃ pre post, d.lines = pre ++ t.bf :: post ∧ pre.length = t.wordno := by
  obtain ⟨hlt, hget⟩ := List.getElem?_eq_some_iff.1 t.line
  refine ⟨d.lines.take t.wordno, d.lines.drop (t.wordno + 1), ?_, List.length_take_of_le hlt.le⟩
  rw [← hget, ← List.drop_eq_getElem_cons hlt, List.take_append_drop]

theorem Target.mem (t : Target d) : t.bf ∈ d.lines := List.mem_of_getElem? t.line

theorem Target.length_bf (t : Target d) : t.bf.length = d.n + 12 := d.length_line t.mem

/-- the lines fit in the buffer -/
theorem Target.n_le (t : Target d) : d.n + 12 ≤ 1023 := by
  have hlen := length_of_mem_fgetsAll t.mem
  rw [t.length_bf] at hlen
  exact hlen

theorem scoreLine_eq {n : ℕ} {word : Str} (hword : word.length = n) (hn : n + 12 ≤ 1023) (g : ℕ) (user : Str) :
    scoreLine n word g user = word ++ (slot g user ++ ['\n']) := by
  have htake : (word ++ printInt03 g ++ user).take (n + 11) = word ++ (printInt03 g ++ user).take 11 := by
    rw [List.append_assoc, List.take_append, List.take_of_length_le (by omega), hword, Nat.add_sub_cancel_left]
  have hcount : n + 11 - ((word ++ printInt03 g ++ user).take (BFSZ - 1)).length =
      11 - (printInt03 g ++ user).length := by
    rw [List.length_take, List.append_assoc, List.length_append, hword, BFSZ]
    omega
  rw [scoreLine, hcount, List.take_take, min_eq_left (by rw [BFSZ]; omega), htake, slot, List.append_assoc,
    List.append_assoc, List.append_assoc]

/-- **The line that is written is one line** only if there is no newline in it. -/
theorem fgets_one_line {bf bf' post rest : Str} (hget : fgets BFSZ (bf ++ '\n' :: post) = some (bf', rest))
    (hlen : bf'.length = bf.length + 1) : '\n' ∉ bf ∧ bf' = bf ++ ['\n'] := by
  have hne : bf ++ '\n' :: post ≠ [] := by simp
  obtain ⟨happend, -⟩ := takeLine_piece two_le_BFSZ _ hne
  have hdrop := newline_not_mem_dropLast_takeLine (BFSZ - 1) (bf ++ '\n' :: post)
  rw [fgets, if_neg hne] at hget
  rw [Option.some.inj hget] at happend hdrop
  have hsplit : bf' ++ rest = (bf ++ ['\n']) ++ post := by
    rw [happend, List.append_assoc]
    rfl
  have heq := (List.append_inj hsplit (by rw [hlen, List.length_append]; rfl)).1
  dsimp only at hdrop
  rw [heq, List.dropLast_concat] at hdrop
  exact ⟨hdrop, heq⟩

/-- the file is what is in front of the line, the line, and what is behind it -/
theorem Target.file_eq (t : Target d) : ∃ before after, d.file = before ++ (t.bf ++ after) ∧
    before.length = d.offset t.wordno ∧ fgets BFSZ (t.bf ++ after) = some (t.bf, after) := by
  obtain ⟨pre, post, hlines, hpre⟩ := t.split
  have hdrop := d.drop_offset hlines
  have hall := d.fgetsAll_offset hlines
  rw [hdrop] at hall
  rw [hpre, List.flatten_cons] at hdrop
  rw [List.flatten_cons] at hall
  have hne : t.bf ++ post.flatten ≠ [] := by
    intro hnil
    have hlen := t.length_bf
    rw [(List.append_eq_nil_iff.1 hnil).1, List.length_nil] at hlen
    omega
  have hget : fgets BFSZ (t.bf ++ post.flatten) = some (takeLine (BFSZ - 1) (t.bf ++ post.flatten)) := if_neg hne
  obtain ⟨happend, -⟩ := takeLine_piece two_le_BFSZ _ hne
  have hfirst := fgetsAll_cons two_le_BFSZ (hget.trans (congrArg some (Prod.mk.eta.symm)))
  rw [hall] at hfirst
  have hbf := (List.cons.inj hfirst).1
  rw [← hbf] at happend
  refine ⟨d.file.take (d.offset t.wordno), post.flatten, by rw [← hdrop, List.take_append_drop], ?_, ?_⟩
  · refine List.length_take_of_le (not_lt.1 fun hlt => hne ?_)
    rw [← hdrop, List.drop_eq_nil_of_le hlt.le]
  · rw [hget]
    exact congrArg some (Prod.ext hbf.symm (List.append_cancel_left happend))

variable {g : Guesses}

theorem save_score_eq (t : Target d) (g : Guesses) (getlogin : Option Str) :
    ∃ out : ℤ → Str, save_score d.n d.line1 d.file (t.bf.take d.n) t.wordno g.count getlogin =
      match atoiInt (t.bf.drop d.n) with
      | none => none
      | some oldscore =>
        if 0 < oldscore ∧ oldscore ≤ g.count then some (out oldscore, d.file)
        else match getlogin with
          | none => some (out oldscore ++ "Who are you?  Score not saved.\n".toList, d.file)
          | some user => some (out oldscore,
              fwrite d.file (d.offset t.wordno) (scoreLine d.n (t.bf.take d.n) g.count user)) := by
  obtain ⟨before, after, hfile, hbefore, hget⟩ := t.file_eq
  have hoffset : t.wordno * (d.n + 12) + d.line1 = d.offset t.wordno := Nat.add_comm _ _
  have hdrop : d.file.drop (d.offset t.wordno) = t.bf ++ after := by rw [hfile, List.drop_left' hbefore]
  have hword : strncmp (t.bf.take d.n) t.bf d.n = 0 := by
    rw [strncmp, List.take_take, min_self]
    exact (strcmp_zero _ _).2 rfl
  have hslot : ¬(!isdigit (t.bf.getD d.n '\x00')) = true := by rw [t.slot]; exact Bool.false_ne_true
  refine ⟨fun oldscore => if 0 < oldscore then
      "You ".toList ++ (if g.count < oldscore then [] else "did not ".toList) ++
        "beat the previous record for this word: ".toList ++ olduser d.n t.bf ++ " ".toList ++ printInt oldscore ++
        " guesses\n".toList
    else [], ?_⟩
  rw [save_score, hoffset, hdrop, hget]
  dsimp only
  rw [if_neg (not_not.2 hword), if_neg hslot]

end Line

/-! ## Which records are right -/

section Right

variable {d : WordFile} {g : Guesses}

/-- a number and a login that can be read back -/
def Recordable (g : ℕ) (user : Str) : Prop :=
  g < 1000 ∧ ¬StartsWithDigit 10 user ∧ '*' ∉ user.take 8 ∧ '\n' ∉ user.take 8

theorem recordRight_of_kept {t : Target d} (hkept : Kept d t g) (user : Login) : RecordRight d t g user := by
  obtain ⟨out, hout⟩ := save_score_eq t g (some user.name)
  obtain ⟨before, after, hfile, hbefore, hget⟩ := t.file_eq
  have hold := hkept
  obtain ⟨old, hold, hcond⟩ := hold
  rw [Option.mem_def.1 hold] at hout
  dsimp only at hout
  rw [if_pos hcond] at hout
  refine ⟨_, _, t.bf, after, hout, rfl, rfl, rfl, ?_, t.length_bf, rfl, Or.inl ⟨hkept, rfl⟩⟩
  rw [hfile, List.drop_left' hbefore, hget]

/-- **A record is written.** -/
theorem recordRight_iff_of_saved {t : Target d} {old : ℤ} (hold : atoiInt (t.bf.drop d.n) = some old)
    (hnot : ¬(0 < old ∧ old ≤ g.count)) (user : Login) : RecordRight d t g user ↔ Recordable g.count user.name := by
  obtain ⟨out, hout⟩ := save_score_eq t g (some user.name)
  rw [hold] at hout
  dsimp only at hout
  rw [if_neg hnot] at hout
  obtain ⟨before, after, hfile, hbefore, -⟩ := t.file_eq
  have hword : (t.bf.take d.n).length = d.n := by
    rw [List.length_take, t.length_bf]
    omega
  have hline := scoreLine_eq hword t.n_le g.count user.name
  have hlenline : (scoreLine d.n (t.bf.take d.n) g.count user.name).length = d.n + 12 := by
    rw [hline, List.length_append, List.length_append, length_slot, hword]
    rfl
  have hnew : fwrite d.file (d.offset t.wordno) (scoreLine d.n (t.bf.take d.n) g.count user.name) =
      before ++ (scoreLine d.n (t.bf.take d.n) g.count user.name ++ after) := by
    rw [fwrite, hlenline, hfile, List.take_left' hbefore, ← List.drop_drop, List.drop_left' hbefore,
      List.drop_left' t.length_bf, List.append_assoc]
  have hkept : ¬Kept d t g := by
    rintro ⟨v, hv, hcond⟩
    rw [Option.mem_def, hold] at hv
    exact hnot (Option.some.inj hv ▸ hcond)
  have hdrop : (before ++ (scoreLine d.n (t.bf.take d.n) g.count user.name ++ after)).drop (d.offset t.wordno) =
      (t.bf.take d.n ++ slot g.count user.name) ++ '\n' :: after := by
    rw [List.drop_left' hbefore, hline]
    simp only [List.append_assoc, List.cons_append, List.nil_append]
  have hscore : readScore d.n ((t.bf.take d.n ++ slot g.count user.name) ++ ['\n']) =
      (atoiInt (slot g.count user.name ++ ['\n']),
        (((slot g.count user.name ++ ['\n']).drop 3).take 8).takeWhile (· ≠ '*')) := by
    rw [readScore, List.append_assoc, List.drop_left' hword, ← List.drop_drop, List.drop_left' hword]
  have hnl : g.count < 1000 → ('\n' ∈ slot g.count user.name ↔ '\n' ∈ user.name.take 8) := by
    intro hthree
    rw [slot_eq g.lt, behind_eq ((length_printInt03_eq_iff _).2 hthree)]
    have hdigits : '\n' ∉ printInt03 g.count := fun hmem => absurd (printInt03_digits _ _ hmem) (by decide)
    simp [hdigits, List.mem_replicate]
  have hlen : (t.bf.take d.n ++ slot g.count user.name).length = d.n + 11 := by
    rw [List.length_append, hword, length_slot]
  constructor
  · rintro ⟨_, file, bf, rest, hsave, -, -, -, hget, hbf, -, hright⟩
    rw [hout] at hsave
    cases hsave
    obtain ⟨-, hread⟩ := hright.resolve_left fun h => hkept h.1
    rw [hnew, hdrop] at hget
    obtain ⟨hnone, rfl⟩ := fgets_one_line hget (by rw [hbf, hlen])
    rw [hscore] at hread
    obtain ⟨hthree, hdigit, hstar⟩ := (slot_iff g.pos g.lt user.name).1 (Prod.mk.inj hread)
    exact ⟨hthree, hdigit, hstar, fun hmem => hnone (List.mem_append_right _ ((hnl hthree).2 hmem))⟩
  · rintro ⟨hthree, hdigit, hstar, hnone⟩
    have hwordnl : '\n' ∉ t.bf.take d.n := by
      have hlast := newline_not_mem_dropLast t.mem
      rw [List.dropLast_eq_take, t.length_bf] at hlast
      exact fun hmem => hlast ((List.take_subset_take_left _ (by omega)) hmem)
    have hnl' : '\n' ∉ t.bf.take d.n ++ slot g.count user.name := by
      rw [List.mem_append, not_or]
      exact ⟨hwordnl, fun hmem => hnone ((hnl hthree).1 hmem)⟩
    have hle := t.n_le
    have hget := fgets_line hnl' (n := BFSZ) (by rw [hlen, BFSZ]; omega) after
    rw [← hdrop, ← hnew] at hget
    refine ⟨_, _, _, _, hout, ?_, ?_, ?_, hget, ?_, ?_, Or.inr ⟨hkept, ?_⟩⟩
    · rw [hnew, hfile]
      simp only [List.length_append, hlenline, t.length_bf]
    · rw [hnew, hfile, List.take_left' hbefore, List.take_left' hbefore]
    · have hend : ∀ s : Str, s.length = d.n + 12 →
          (before ++ (s ++ after)).drop (d.offset t.wordno + (d.n + 12)) = after := by
        intro s hs
        rw [← List.append_assoc, List.drop_left' (by rw [List.length_append, hbefore, hs])]
      rw [hnew, hfile, hend _ hlenline, hend _ t.length_bf]
    · rw [List.length_append, hlen]
      rfl
    · rw [List.append_assoc, List.take_left' hword]
    · rw [hscore]
      exact Prod.ext_iff.2 ((slot_iff g.pos g.lt user.name).2 ⟨hthree, hdigit, hstar⟩)

/-- **When `save_score` does what it should**: what is in the line can be read, and there is a record that is as good or
number and login can be read back. -/
theorem save_score_right_iff (d : WordFile) (t : Target d) (g : Guesses) (user : Login) :
    RecordRight d t g user ↔
      (atoiInt (t.bf.drop d.n)).isSome ∧ (Kept d t g ∨ Recordable g.count user.name) := by
  cases hold : atoiInt (t.bf.drop d.n) with
  | none =>
    refine iff_of_false ?_ fun h => absurd h.1 Bool.false_ne_true
    rintro ⟨out, file, bf, rest, hsave, -⟩
    obtain ⟨out', hout⟩ := save_score_eq t g (some user.name)
    rw [hout, hold] at hsave
    cases hsave
  | some old =>
    by_cases hcond : 0 < old ∧ old ≤ g.count
    · have hkept : Kept d t g := ⟨old, hold, hcond⟩
      exact iff_of_true (recordRight_of_kept hkept user) ⟨rfl, Or.inl hkept⟩
    · have hkept : ¬Kept d t g := by
        rintro ⟨v, hv, hcond'⟩
        rw [Option.mem_def, hold] at hv
        exact hcond (Option.some.inj hv ▸ hcond')
      rw [recordRight_iff_of_saved hold hcond user, or_iff_right hkept]
      exact (and_iff_right rfl).symm

end Right

/-- the word `ab` of the file with one word -/
def onlyTarget : Target oneWord.toWordFile where
  wordno := 0
  bf := "ab000********\n".toList
  line := by decide
  slot := by decide

/-- After a game of a thousand guesses the login in the line begins with a digit. -/
theorem thousand : ¬RecordRight oneWord.toWordFile onlyTarget ⟨1000, by decide, by decide⟩
    ⟨"jan".toList, by decide⟩ := by
  rintro ⟨_, file, bf, rest, hsave, -, -, -, hget, -, -, hright⟩
  have hfile : save_score 2 10 "2 1 1 One\nab000********\n".toList "ab".toList 0 1000 (some "jan".toList) =
      some ([], "2 1 1 One\nab1000jan****\n".toList) := by decide
  have hline : fgets BFSZ ("2 1 1 One\nab1000jan****\n".toList.drop 10) = some ("ab1000jan****\n".toList, []) := by
    decide
  have hscore : readScore 2 "ab1000jan****\n".toList = (some 1000, "0jan".toList) := by decide
  cases Option.some.inj (hfile.symm.trans hsave)
  cases Option.some.inj (hline.symm.trans hget)
  rcases hright with ⟨⟨old, hold, hpos, -⟩, -⟩ | ⟨-, hread⟩
  · have hzero : atoiInt (onlyTarget.bf.drop oneWord.n) = some 0 := by decide
    rw [Option.mem_def, hzero] at hold
    cases hold
    exact absurd hpos (lt_irrefl 0)
  · exact absurd (hscore.symm.trans hread) (by decide)

end MNetSoft.Games.Letter
