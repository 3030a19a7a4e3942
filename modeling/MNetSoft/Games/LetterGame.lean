/-
Whole games of `letter`. In a round a word with a score slot is chosen (`choose_word`), the player types words until
one of them is it (`readword`, `check_word`), and the number of them is saved with the login (`save_score`); then
there is another round if the player wants one (`yes`). The table of letters is computed once, before the first
round, while the rounds write to the file.
- `guessing_spec`: what has been counted and kept of a round that is won, by the words typed.
- `round_recorded`: one round leaves the file as it is but for the record of one word.
- `run_kept`: after any number of rounds the file is one that `hash_file` accepts, with the same table, words and slots.
-/
import Mathlib.Tactic
import MNetSoft.Core.CString
import MNetSoft.Core.Numerals
import MNetSoft.Core.Pieces
import MNetSoft.Core.Runs
import MNetSoft.Games.Letter
import MNetSoft.Games.LetterLine
import MNetSoft.Games.LetterScore

namespace MNetSoft.Games.Letter

open MNetSoft.CString MNetSoft.Numerals

/-! ## Model -/

/-- what is known before the first round -/
structure Setting where
  n : ℕ
  line1 : ℕ
  targets : ℤ
  hash : List ℕ
  cc : Cc
  nosave : Bool
  getlogin : Option Str

/-- the loop of `choose_word`, from a line on; nothing if there are not enough targets -/
def chooseLoop (n : ℕ) : ℕ → ℕ → List Str → Option (Str × ℕ)
  | _, _, [] => none
  | i, wordno, bf :: rest =>
    if isdigit (bf.getD n '\x00') then
      if i = 0 then some (cstr (bf.take n), wordno) else chooseLoop n (i - 1) (wordno + 1) rest
    else chooseLoop n i (wordno + 1) rest

/-- The word chosen, and the number of its line. Without one the word is what it was, nothing before the first round.
A remainder by 0 is undefined. -/
def choose_word (p : Setting) (file : Str) (random : ℕ) (target : Option Str) : Option (Option Str × ℕ) :=
  if p.targets = 0 then none
  else
    let lines := fgetsAll BFSZ (file.drop p.line1)
    some (match chooseLoop p.n (random % p.targets.natAbs) 0 lines with
      | some (word, wordno) => (some word, wordno)
      | none => (target, lines.length))

/-- how many letters are in place -/
def scoreOf (n : ℕ) (target guess : Str) : ℕ :=
  (List.range n).countP fun i => target.getD i '\x00' = guess.getD i '\x00'

/-- whether it is the word, the history with the guess if not, and what is printed -/
def check_word (p : Setting) (file : Str) (hist : List Hist) (guess target : Str) : Option (Bool × List Hist × Str) :=
  if strncmp guess target p.n = 0 then some (true, hist, ' ' :: printInt p.n ++ " YES!\n".toList)
  else
    (find_word p.n file p.hash guess).map fun offset =>
      if offset = 0 then (false, hist ++ [⟨-1, guess.take p.n⟩], " not in dictionary.\n".toList)
      else (false, hist ++ [⟨scoreOf p.n target guess, guess.take p.n⟩],
        ' ' :: printInt (scoreOf p.n target guess) ++ ['\n'])

/-- the loop of `yes`: the answer, what is written, and the keys that are left -/
def yesLoop (cc : Cc) : Bool → Bool → List Char → Bool × Str × List Char
  | _, _, [] => (false, ['\n'], [])
  | got, rc, ch :: keys =>
    let echo (s : Str) (r : Bool × Str × List Char) := (r.1, s ++ r.2.1, r.2.2)
    if ch = 'Y' ∨ ch = 'y' then echo [ch] (yesLoop cc true true keys)
    else if ch = 'n' ∨ ch = 'N' then echo [ch] (yesLoop cc true false keys)
    else if ch = '\n' then (got && rc, ['\n'], keys)
    else if ch = cc.ERASE_CHAR ∨ ch = cc.KILL_CHAR then
      if got then echo rubout (yesLoop cc false rc keys) else yesLoop cc got rc keys
    else if ch = cc.EOF_CHAR then (false, ['\n'], keys)
    else echo ['\x07'] (yesLoop cc got rc keys)

def yes (cc : Cc) (keys : List Char) : Bool × Str × List Char := yesLoop cc false false keys

/-- a round, from the word chosen on -/
structure Round where
  bf : Str
  out : Str
  keys : List Char
  hist : List Hist
  guesses : ℕ
deriving DecidableEq, Repr

/-- One guess, and how the round ends if it does: with the word, or without. An int that becomes 2^31 is undefined. -/
def Round.turn (p : Setting) (file target : Str) (r : Round) : Option (Round × Option Bool) :=
  (readword p.n r.hist p.cc r.bf r.keys).bind fun reading =>
    let r := { r with bf := reading.bf, out := r.out ++ reading.out, keys := reading.keys }
    if reading.rc ≠ 0 then some (r, some false)
    else if 2 ^ 31 ≤ r.guesses + 1 then none
    else (check_word p file r.hist (cstr r.bf) target).map fun checked =>
      ({ r with out := r.out ++ checked.2.2, hist := checked.2.1, guesses := r.guesses + 1 },
        if checked.1 then some true else none)

theorem pressed_next {n : ℕ} {hist : List Hist} {cc : Cc} {keys left : List Char} {st : Editing} {out : Outcome}
    (h : readKeys n hist cc st keys = some (out, left)) : (∃ st', out = .next st') ∨ left.length < keys.length := by
  induction keys generalizing st with
  | nil =>
    cases h
    exact Or.inl ⟨st, rfl⟩
  | cons ch keys ih =>
    rw [readKeys, Option.bind_eq_some_iff] at h
    obtain ⟨first, -, hrest⟩ := h
    cases first with
    | next st' => exact (ih hrest).imp id fun hlt => Nat.lt_succ_of_lt hlt
    | stop rc st' =>
      cases hrest
      exact Or.inr (Nat.lt_succ_self _)
    | quit st' =>
      cases hrest
      exact Or.inr (Nat.lt_succ_self _)

/-- a word is not returned before a key is pressed -/
theorem readword_keys {n : ℕ} {hist : List Hist} {cc : Cc} {bf : Str} {keys : List Char} {r : Reading}
    (h : readword n hist cc bf keys = some r) (hrc : r.rc = 0) : r.keys.length < keys.length := by
  rw [readword, Option.map_eq_some_iff] at h
  obtain ⟨⟨out, left⟩, hout, rfl⟩ := h
  rcases pressed_next hout with ⟨st, rfl⟩ | hlt
  · exact absurd hrc one_ne_zero
  · cases out <;> exact hlt

theorem Round.turn_keys {p : Setting} {file target : Str} {r r' : Round} (h : r.turn p file target = some (r', none)) :
    r'.keys.length < r.keys.length := by
  rw [Round.turn, Option.bind_eq_some_iff] at h
  obtain ⟨reading, hreading, hrest⟩ := h
  dsimp only at hrest
  split_ifs at hrest with hrc hguesses
  · cases hrest
  · rw [Option.map_eq_some_iff] at hrest
    obtain ⟨checked, -, heq⟩ := hrest
    rw [← (Prod.mk.inj heq).1]
    exact readword_keys hreading (not_not.1 hrc)

/-- the guesses of a round, and whether it is won -/
def Round.guessing (p : Setting) (file target : Str) (r : Round) : Option (Round × Bool) :=
  match _h : r.turn p file target with
  | none => none
  | some (r', some won) => some (r', won)
  | some (r', none) => r'.guessing p file target
termination_by r.keys.length
decreasing_by exact Round.turn_keys _h

/-- between the rounds -/
structure Game where
  file : Str
  word : Option Str
  bf : Str
  out : Str
  keys : List Char
  ended : Bool
deriving DecidableEq, Repr

/-- what a won round is saved with; `nosave` if the file cannot be written -/
def Game.save (p : Setting) (file target : Str) (wordno guesses : ℕ) : Option (Str × Str) :=
  if p.nosave then some ([], file) else save_score p.n p.line1 file target wordno guesses p.getlogin

/-- One round, by the number that `random` gives. A word that has not been set is undefined. -/
def Game.round (p : Setting) (g : Game) (random : ℕ) : Option Game :=
  if g.ended then none
  else
    (choose_word p g.file random g.word).bind fun chosen =>
      chosen.1.bind fun target =>
        (Round.guessing p g.file target ⟨g.bf, g.out ++ "Word chosen...\n".toList, g.keys, [], 0⟩).bind fun played =>
          let r := played.1
          if played.2 then
            (Game.save p g.file target chosen.2 r.guesses).map fun saved =>
              let answer := yes p.cc r.keys
              let out := r.out ++ "Got it in ".toList ++ printInt r.guesses ++ " guess".toList ++
                (if r.guesses ≠ 1 then "es".toList else []) ++ ".\n".toList ++ saved.1 ++ "Again? ".toList
              ⟨saved.2, some target, r.bf, out ++ answer.2.1, answer.2.2, !answer.1⟩
          else some ⟨g.file, some target, r.bf, r.out ++ "The word was: ".toList ++ target ++ ['\n'], r.keys, true⟩

/-! ## The file -/

/-- the same words in the same places, with the same slots -/
structure Same (d d' : WordFile) : Prop where
  n : d'.n = d.n
  header : d'.header = d.header
  hash : d'.hash = d.hash
  words : d'.words = d.words
  slots : d'.lines.map (fun bf => isdigit (bf.getD d.n '\x00')) = d.lines.map fun bf => isdigit (bf.getD d.n '\x00')

theorem Same.refl (d : WordFile) : Same d d := ⟨rfl, rfl, rfl, rfl, rfl⟩

theorem Same.trans {a b c : WordFile} (hab : Same a b) (hbc : Same b c) : Same a c where
  n := hbc.n.trans hab.n
  header := hbc.header.trans hab.header
  hash := hbc.hash.trans hab.hash
  words := hbc.words.trans hab.words
  slots := by
    have hslots := hbc.slots
    rw [hab.n] at hslots
    exact hslots.trans hab.slots

section Hash

variable {n : ℕ} {st st' : Hashing}

/-- lines that `hash_file` cannot tell apart -/
theorem hashLoop_replace {bf bf' : Str} (h : ∀ st, hashLine n st bf = hashLine n st bf') (pre post : List Str) :
    hashLoop n st (pre ++ bf :: post) = hashLoop n st (pre ++ bf' :: post) := by
  induction pre generalizing st with
  | nil => rw [List.nil_append, List.nil_append, hashLoop, hashLoop, h]
  | cons l pre ih =>
    rw [List.cons_append, List.cons_append, hashLoop, hashLoop]
    congr 1
    funext st'
    exact ih

theorem hashLoop_heads {ls : List Str} (h : hashLoop n st ls = some st') :
    ∀ bf ∈ ls, bf.headD '\x00' = st.lastchar ∨ islower (bf.headD '\x00') = true := by
  induction ls generalizing st with
  | nil => exact List.forall_mem_nil _
  | cons bf ls ih =>
    rw [hashLoop, Option.bind_eq_some_iff] at h
    obtain ⟨st₁, hline, hrest⟩ := h
    rw [hashLine] at hline
    dsimp only at hline
    split_ifs at hline with hlen hlast hlower
    · cases hline
      have hheads := ih hrest
      exact List.forall_mem_cons.2 ⟨Or.inl hlast, hheads⟩
    · cases hline
      rw [Bool.not_eq_true', Bool.not_eq_false] at hlower
      refine List.forall_mem_cons.2 ⟨Or.inr hlower, fun bf' hbf' => Or.inr ?_⟩
      rcases ih hrest bf' hbf' with heq | hlow
      · rw [heq]
        exact hlower
      · exact hlow

end Hash

variable {d : WordFile}

/-- the words have letters -/
theorem Target.pos (t : Target d) : 0 < d.n := by
  rcases Nat.eq_zero_or_pos d.n with hzero | hpos
  · obtain ⟨st, hst, -⟩ := d.hashLoop_eq
    have hslot := t.slot
    have hhead : t.bf.getD 0 '\x00' = t.bf.headD '\x00' := by cases t.bf <;> rfl
    rw [hzero, hhead] at hslot
    have hdigit : '0' ≤ t.bf.headD '\x00' ∧ t.bf.headD '\x00' ≤ '9' := of_decide_eq_true hslot
    rcases hashLoop_heads hst t.bf t.mem with hlast | hlower
    · rw [hlast] at hdigit
      have hnine : ¬Char.ofNat 96 ≤ '9' := by decide
      exact absurd hdigit.2 hnine
    · have hle : 97 ≤ (t.bf.headD '\x00').toNat := (islower_iff.1 hlower).1
      have hle' : (t.bf.headD '\x00').toNat ≤ 57 := hdigit.2
      omega
  · exact hpos

/-- another line that `hash_file` cannot tell from the one there was -/
theorem WordFile.replace {pre post : List Str} {bf bf' : Str} (hlines : d.lines = pre ++ bf :: post)
    (hpiece : Piece BFSZ bf') (hnul : '\x00' ∉ bf') (hsame : ∀ st, hashLine d.n st bf = hashLine d.n st bf') :
    ∃ d' : WordFile, d'.n = d.n ∧ d'.header = d.header ∧ d'.hash = d.hash ∧ d'.lines = pre ++ bf' :: post := by
  have hall : Pieces BFSZ d.lines := (pieces_fgetsAll two_le_BFSZ d.body).1
  have hbody : fgetsAll BFSZ (pre ++ bf' :: post).flatten = pre ++ bf' :: post :=
    fgetsAll_flatten two_le_BFSZ (Pieces.replace (hlines ▸ hall) hpiece)
  have htext : '\x00' ∉ (pre ++ bf' :: post).flatten := by
    intro hmem
    obtain ⟨l, hl, hnul'⟩ := List.mem_flatten.1 hmem
    rcases List.mem_append.1 hl with hl | hl
    · exact d.nul_not_mem (hlines ▸ List.mem_append_left _ hl) hnul'
    · rcases List.mem_cons.1 hl with rfl | hl
      · exact hnul hnul'
      · exact d.nul_not_mem (hlines ▸ List.mem_append_right pre (List.mem_cons_of_mem _ hl)) hnul'
  have haccepted : hash_file d.n d.header.length (d.header ++ (pre ++ bf' :: post).flatten) = some d.hash := by
    have hold := d.accepted
    have hlines' : fgetsAll BFSZ d.body = pre ++ bf :: post := hlines
    rw [hash_file, List.drop_left] at hold ⊢
    rwa [hbody, ← hashLoop_replace hsame, ← hlines']
  exact ⟨⟨d.n, d.header, _, d.hash, d.header_ne, htext, haccepted⟩, rfl, rfl, rfl, hbody⟩

namespace Target

variable (t : Target d) {x : Str}

/-- the line with another slot -/
def line_with (x : Str) : Str := t.bf.take d.n ++ x ++ ['\n']

theorem length_word : (t.bf.take d.n).length = d.n := List.length_take_of_le (by rw [t.length_bf]; omega)

theorem length_line_with (hlen : x.length = 11) : (t.line_with x).length = d.n + 12 := by
  rw [line_with, List.length_append, List.length_append, t.length_word, hlen]
  rfl

theorem nul_not_mem_line_with (hnul : '\x00' ∉ x) : '\x00' ∉ t.line_with x := by
  have hword : '\x00' ∉ t.bf.take d.n := fun h => d.nul_not_mem t.mem (List.mem_of_mem_take h)
  rw [line_with, List.mem_append, List.mem_append, not_or, not_or]
  exact ⟨⟨hword, hnul⟩, by decide⟩

theorem piece_line_with (hlen : x.length = 11) (hnl : '\n' ∉ x) : Piece BFSZ (t.line_with x) := by
  have hfront : t.bf.take d.n <+: t.bf.dropLast := by
    rw [List.dropLast_eq_take, t.length_bf]
    exact List.take_prefix_take_left (by omega)
  refine Or.inl ⟨t.bf.take d.n ++ x, ?_, rfl, ?_⟩
  · rw [List.mem_append, not_or]
    exact ⟨fun h => newline_not_mem_dropLast t.mem (hfront.subset h), hnl⟩
  · have hle := t.n_le
    rw [List.length_append, t.length_word, hlen, BFSZ]
    omega

/-- it has the length and the first letter of the line -/
theorem hashLine_line_with (hlen : x.length = 11) (hnul : '\x00' ∉ x) (st : Hashing) :
    hashLine d.n st t.bf = hashLine d.n st (t.line_with x) := by
  have hhead : (t.line_with x).headD '\x00' = t.bf.headD '\x00' := by
    rw [← headD_take t.pos t.bf, line_with, List.append_assoc]
    cases htake : t.bf.take d.n with
    | nil =>
      have hpos := t.pos
      have hword := t.length_word
      rw [htake, List.length_nil] at hword
      omega
    | cons c word => rfl
  rw [hashLine, hashLine, cstr_of_not_mem (d.nul_not_mem t.mem), cstr_of_not_mem (t.nul_not_mem_line_with hnul),
    t.length_line_with hlen, t.length_bf, hhead]

theorem getD_line_with (hlen : x.length = 11) : (t.line_with x).getD d.n '\x00' = x.headD '\x00' := by
  cases x with
  | nil => cases hlen
  | cons c x =>
    rw [line_with, List.append_assoc, List.getD_eq_getElem?_getD, List.getElem?_append_right t.length_word.le,
      t.length_word, Nat.sub_self]
    rfl

/-- the file that is written -/
theorem fwrite_eq {pre post : List Str} {bf' : Str} (hlines : d.lines = pre ++ t.bf :: post)
    (hpre : pre.length = t.wordno) (hlen : bf'.length = d.n + 12) :
    fwrite d.file (d.offset t.wordno) bf' = d.header ++ (pre ++ bf' :: post).flatten := by
  obtain ⟨before, after, hfile, hbefore, -⟩ := t.file_eq
  have hwhole : d.file = d.header ++ pre.flatten ++ (t.bf ++ post.flatten) := by
    rw [WordFile.file, ← d.flatten_lines, hlines, List.flatten_append, List.flatten_cons, List.append_assoc]
  have hafter := d.drop_offset hlines
  rw [hpre, hfile, List.drop_left' hbefore, List.flatten_cons] at hafter
  have hfront : before = d.header ++ pre.flatten := by
    rw [hfile, hafter] at hwhole
    exact List.append_cancel_right hwhole
  calc fwrite d.file (d.offset t.wordno) bf'
      = before ++ bf' ++ ((t.bf ++ after).drop (d.n + 12)) := by
        rw [fwrite, hlen, hfile, List.take_left' hbefore, ← List.drop_drop, List.drop_left' hbefore]
    _ = before ++ bf' ++ post.flatten := by rw [hafter, List.drop_left' t.length_bf]
    _ = d.header ++ (pre ++ bf' :: post).flatten := by
        rw [hfront, List.flatten_append, List.flatten_cons, List.append_assoc, List.append_assoc]

/-- **Another record leaves the words and the table as they are.** -/
theorem rewrite (hlen : x.length = 11) (hnl : '\n' ∉ x) (hnul : '\x00' ∉ x) (hslot : isdigit (x.headD '\x00') = true) :
    ∃ d' : WordFile, d'.file = fwrite d.file (d.offset t.wordno) (t.line_with x) ∧ Same d d' ∧
      d'.lines = d.lines.set t.wordno (t.line_with x) := by
  obtain ⟨pre, post, hlines, hpre⟩ := t.split
  have hset : d.lines.set t.wordno (t.line_with x) = pre ++ t.line_with x :: post := by
    rw [hlines, ← hpre, List.set_append_right _ _ le_rfl, Nat.sub_self, List.set_cons_zero]
  obtain ⟨d', hn, hheader, hhash, hlines'⟩ := d.replace hlines (t.piece_line_with hlen hnl)
    (t.nul_not_mem_line_with hnul) (t.hashLine_line_with hlen hnul)
  refine ⟨d', ?_, ⟨hn, hheader, hhash, ?_, ?_⟩, hlines'.trans hset.symm⟩
  · rw [t.fwrite_eq hlines hpre (t.length_line_with hlen), WordFile.file, ← d'.flatten_lines, hlines', hheader]
  · have htake : (t.line_with x).take d.n = t.bf.take d.n := by
      rw [line_with, List.append_assoc, List.take_left' t.length_word]
    rw [WordFile.words, hn, hlines', WordFile.words, hlines, List.map_append, List.map_append, List.map_cons,
      List.map_cons, htake]
  · rw [hlines', hlines, List.map_append, List.map_append, List.map_cons, List.map_cons, t.getD_line_with hlen, hslot,
      t.slot]

end Target

/-! ## Rounds -/

theorem isdigit_of_digit {c : Char} (h : (digit 10 c).isSome = true) : isdigit c = true := by
  rw [digit, digitVal] at h
  split_ifs at h with hdec hlow hup
  · exact decide_eq_true hdec
  · have hge : 97 ≤ c.toNat := hlow.1
    rw [Option.filter_some, if_neg (by rw [decide_eq_true_eq]; omega)] at h
    cases h
  · have hge : 65 ≤ c.toNat := hup.1
    rw [Option.filter_some, if_neg (by rw [decide_eq_true_eq]; omega)] at h
    cases h
  · cases h

section Slot

variable {user : Str} {c : Char}

theorem not_mem_slot (g : ℕ) (huser : c ∉ user) (hc : (digit 10 c).isSome ≠ true) (hstar : c ≠ '*') :
    c ∉ slot g user := by
  intro hmem
  rcases List.mem_append.1 hmem with hmem | hmem
  · rcases List.mem_append.1 (List.mem_of_mem_take hmem) with hmem | hmem
    · exact hc (printInt03_digits g c hmem)
    · exact huser hmem
  · exact hstar (List.eq_of_mem_replicate hmem)

theorem isdigit_slot (g : ℕ) (user : Str) : isdigit ((slot g user).headD '\x00') = true := by
  have hthree : 3 ≤ (printInt03 g).length := by
    rw [length_printInt03]
    exact le_max_left _ _
  cases hprint : printInt03 g with
  | nil =>
    rw [hprint, List.length_nil] at hthree
    omega
  | cons d ds =>
    have hd := printInt03_digits g d (hprint ▸ List.mem_cons_self)
    rw [slot, hprint]
    exact isdigit_of_digit hd

end Slot

/-- a login, as `getlogin` has it -/
def CleanLogin (user : Str) : Prop := '\x00' ∉ user ∧ '\n' ∉ user

/-- the setting of a file -/
structure Opened (d : WordFile) (p : Setting) : Prop where
  n : p.n = d.n
  line1 : p.line1 = d.line1
  hash : p.hash = d.hash
  login : ∀ user ∈ p.getlogin, CleanLogin user

theorem Opened.same {p : Setting} {d' : WordFile} (h : Opened d p) (hsame : Same d d') : Opened d' p where
  n := h.n.trans hsame.n.symm
  line1 := by
    rw [h.line1, WordFile.line1, WordFile.line1, hsame.header]
  hash := h.hash.trans hsame.hash.symm
  login := h.login

/-- the file after a round: the line of one word may have another record -/
def Recorded (d : WordFile) (file : Str) : Prop :=
  ∃ d' : WordFile, d'.file = file ∧ Same d d' ∧
  (d'.lines = d.lines ∨ ∃ t : Target d, ∃ x, d'.lines = d.lines.set t.wordno x)

theorem recorded_self (d : WordFile) : Recorded d d.file := ⟨d, rfl, Same.refl d, Or.inl rfl⟩

variable {p : Setting}

theorem save_score_recorded (hlogin : ∀ user ∈ p.getlogin, CleanLogin user) (t : Target d)
    (g : Guesses) {out file : Str}
    (h : save_score d.n d.line1 d.file (t.bf.take d.n) t.wordno g.count p.getlogin = some (out, file)) :
    Recorded d file := by
  obtain ⟨text, htext⟩ := save_score_eq t g p.getlogin
  rw [htext] at h
  cases hold : atoiInt (t.bf.drop d.n) with
  | none =>
    rw [hold] at h
    cases h
  | some old =>
    rw [hold] at h
    dsimp only at h
    split_ifs at h with hkept
    · cases h
      exact recorded_self d
    · cases huser : p.getlogin with
      | none =>
        rw [huser] at h
        cases h
        exact recorded_self d
      | some user =>
        rw [huser] at h
        cases h
        obtain ⟨hnul, hnl⟩ := hlogin user huser
        have hline : scoreLine d.n (t.bf.take d.n) g.count user = t.line_with (slot g.count user) := by
          rw [scoreLine_eq t.length_word t.n_le, Target.line_with, List.append_assoc]
        obtain ⟨d', hfile, hsame, hset⟩ := t.rewrite (length_slot g.count user)
          (not_mem_slot g.count hnl (by decide) (by decide)) (not_mem_slot g.count hnul (by decide) (by decide))
          (isdigit_slot g.count user)
        rw [hline]
        exact ⟨d', hfile, hsame, Or.inr ⟨t, _, hset⟩⟩

/-- nothing is saved behind the last line -/
theorem save_score_end (word : Str) (guesses : ℕ) (getlogin : Option Str) :
    save_score d.n d.line1 d.file word d.lines.length guesses getlogin =
      some ("Could not read data file line back.  Score not saved.\n".toList, d.file) := by
  have hall : d.lines = d.lines ++ [] := (List.append_nil _).symm
  have hdrop := d.drop_offset hall
  have hoffset : d.lines.length * (d.n + 12) + d.line1 = d.offset d.lines.length := Nat.add_comm _ _
  rw [save_score, hoffset, hdrop]
  rfl

/-- what `choose_word` finds is a word with a slot -/
theorem chooseLoop_spec {ls : List Str} {i wordno wordno' : ℕ} {word : Str} {n : ℕ}
    (h : chooseLoop n i wordno ls = some (word, wordno')) :
    ∃ bf, wordno ≤ wordno' ∧ ls[wordno' - wordno]? = some bf ∧ isdigit (bf.getD n '\x00') = true ∧
      word = cstr (bf.take n) := by
  induction ls generalizing i wordno with
  | nil => cases h
  | cons bf ls ih =>
    have hlater : ∀ j, chooseLoop n j (wordno + 1) ls = some (word, wordno') → ∃ bf', wordno ≤ wordno' ∧
        (bf :: ls)[wordno' - wordno]? = some bf' ∧ isdigit (bf'.getD n '\x00') = true ∧ word = cstr (bf'.take n) := by
      intro j hj
      obtain ⟨bf', hle, hget, hslot, hword⟩ := ih hj
      refine ⟨bf', by omega, ?_, hslot, hword⟩
      rw [show wordno' - wordno = wordno' - (wordno + 1) + 1 by omega, List.getElem?_cons_succ, hget]
    rw [chooseLoop] at h
    split_ifs at h with hslot hi
    · cases h
      exact ⟨bf, le_rfl, by rw [Nat.sub_self, List.getElem?_cons_zero], hslot, rfl⟩
    · exact hlater _ h
    · exact hlater _ h

/-- a word with a slot by the number of its line, or the end of the file -/
theorem choose_word_spec (hp : Opened d p) {random wordno : ℕ} {old target : Option Str}
    (h : choose_word p d.file random old = some (target, wordno)) :
    (∃ t : Target d, target = some (t.bf.take d.n) ∧ wordno = t.wordno) ∨ (target = old ∧ wordno = d.lines.length) := by
  have hlines : fgetsAll BFSZ (d.file.drop p.line1) = d.lines := by
    rw [hp.line1, WordFile.file, WordFile.line1, List.drop_left]
    rfl
  rw [choose_word, hlines] at h
  dsimp only at h
  split_ifs at h with hzero
  cases hloop : chooseLoop p.n (random % p.targets.natAbs) 0 d.lines with
  | none =>
    rw [hloop] at h
    cases h
    exact Or.inr ⟨rfl, rfl⟩
  | some found =>
    rw [hloop] at h
    cases h
    obtain ⟨bf, -, hget, hslot, hword⟩ := chooseLoop_spec hloop
    rw [Nat.sub_zero] at hget
    rw [hp.n] at hslot hword
    refine Or.inl ⟨⟨found.2, bf, hget, hslot⟩, ?_, rfl⟩
    rw [hword, cstr_of_not_mem]
    exact fun hmem => d.nul_not_mem (List.mem_of_getElem? hget) (List.mem_of_mem_take hmem)

/-- what every guess keeps holds before the last one -/
theorem Round.guessing_rule {I : Round → Prop} {Q : Round → Bool → Prop} {file target : Str}
    (hnext : ∀ r r', I r → r.turn p file target = some (r', none) → I r')
    (hlast : ∀ r r' won, I r → r.turn p file target = some (r', some won) → Q r' won) {r r' : Round} {won : Bool}
    (hr : I r) (h : r.guessing p file target = some (r', won)) : Q r' won := by
  induction r using Round.guessing.induct p file target with
  | case1 r hturn =>
    rw [Round.guessing] at h
    split at h
    · cases h
    · rename_i heq
      rw [hturn] at heq
      cases heq
    · rename_i heq
      rw [hturn] at heq
      cases heq
  | case2 r r₁ won₁ hturn =>
    rw [Round.guessing] at h
    split at h
    · cases h
    · rename_i heq
      cases h
      exact hlast r _ _ hr heq
    · rename_i heq
      rw [hturn] at heq
      cases heq
  | case3 r r₁ hturn ih =>
    rw [Round.guessing] at h
    split at h
    · cases h
    · rename_i heq
      rw [hturn] at heq
      cases heq
    · rename_i heq
      cases hturn.symm.trans heq
      exact ih (hnext r _ hr heq) h

theorem Round.guessing_next {file target : Str} {r r' : Round} (h : r.turn p file target = some (r', none)) :
    r.guessing p file target = r'.guessing p file target := by
  rw [Round.guessing]
  split
  · rename_i heq
    cases heq.symm.trans h
  · rename_i heq
    cases heq.symm.trans h
  · rename_i heq
    cases heq.symm.trans h
    rfl

theorem Round.guessing_last {file target : Str} {r r' : Round} {won : Bool}
    (h : r.turn p file target = some (r', some won)) : r.guessing p file target = some (r', won) := by
  rw [Round.guessing]
  split
  · rename_i heq
    cases heq.symm.trans h
  · rename_i heq
    cases heq.symm.trans h
    rfl
  · rename_i heq
    cases heq.symm.trans h

/-- the parts of one guess -/
theorem Round.turn_cases {file target : Str} {r r' : Round} {how : Option Bool}
    (h : r.turn p file target = some (r', how)) : ∃ reading, readword p.n r.hist p.cc r.bf r.keys = some reading ∧
      (reading.rc ≠ 0 ∧ how = some false ∨
        reading.rc = 0 ∧ r'.bf = reading.bf ∧ r'.keys = reading.keys ∧ r'.guesses = r.guesses + 1 ∧
        r'.guesses < 2 ^ 31 ∧ ∃ yes out, check_word p file r.hist (cstr reading.bf) target = some (yes, r'.hist, out) ∧
            how = if yes then some true else none) := by
  rw [Round.turn, Option.bind_eq_some_iff] at h
  obtain ⟨reading, hreading, hrest⟩ := h
  refine ⟨reading, hreading, ?_⟩
  dsimp only at hrest
  split_ifs at hrest with hrc hguesses
  · cases hrest
    exact Or.inl ⟨hrc, rfl⟩
  · rw [Option.map_eq_some_iff] at hrest
    obtain ⟨⟨yes, hist, out⟩, hchecked, heq⟩ := hrest
    obtain ⟨hr, hhow⟩ := Prod.mk.inj heq
    subst hr
    exact Or.inr ⟨not_not.1 hrc, rfl, rfl, rfl, Nat.lt_of_not_le hguesses, yes, out, hchecked, hhow.symm⟩

/-- the number of guesses of a round that is won is a positive int -/
theorem Round.guessing_guesses {file target : Str} {r r' : Round} (h : r.guessing p file target = some (r', true)) :
    ∃ g : Guesses, g.count = r'.guesses := by
  refine Round.guessing_rule (I := fun _ => True) (Q := fun r' won => won = true → ∃ g : Guesses, g.count = r'.guesses)
    (fun _ _ _ _ => trivial) ?_ trivial h rfl
  intro r₁ r₂ won _ hturn hwon
  obtain ⟨reading, -, ⟨-, hhow⟩ | ⟨-, -, -, hguesses, hlt, -⟩⟩ := Round.turn_cases hturn
  · rw [Option.some.inj hhow] at hwon
    cases hwon
  · exact ⟨⟨r₂.guesses, by rw [hguesses]; exact Nat.succ_pos _, hlt⟩, rfl⟩

/-- **One round leaves the file as it is but for the record of one word.** -/
theorem round_recorded (hp : Opened d p) {g g' : Game} {random : ℕ} (hfile : g.file = d.file)
    (h : g.round p random = some g') : Recorded d g'.file := by
  rw [Game.round] at h
  split_ifs at h with hended
  obtain ⟨⟨word, wordno⟩, hchosen, h⟩ := Option.bind_eq_some_iff.1 h
  obtain ⟨target, htarget, h⟩ := Option.bind_eq_some_iff.1 h
  obtain ⟨⟨r, won⟩, hplayed, h⟩ := Option.bind_eq_some_iff.1 h
  dsimp only at htarget h
  cases won with
  | false =>
    rw [if_neg Bool.false_ne_true] at h
    cases h
    rw [hfile]
    exact recorded_self d
  | true =>
    rw [if_pos rfl] at h
    obtain ⟨⟨saved, file⟩, hsave, h⟩ := Option.map_eq_some_iff.1 h
    cases h
    obtain ⟨guesses, hguesses⟩ := Round.guessing_guesses hplayed
    rw [Game.save, hfile] at hsave
    split_ifs at hsave with hnosave
    · cases hsave
      exact recorded_self d
    · rw [hp.n, hp.line1, ← hguesses] at hsave
      rw [hfile] at hchosen
      rcases choose_word_spec hp hchosen with ⟨t, rfl, rfl⟩ | ⟨-, rfl⟩
      · cases htarget
        exact save_score_recorded hp.login t guesses hsave
      · rw [save_score_end] at hsave
        cases hsave
        exact recorded_self d

/-- a round with its word -/
theorem Game.round_won {g : Game} {random wordno : ℕ} {target out file : Str} {r : Round} (hgoing : g.ended = false)
    (hchosen : choose_word p g.file random g.word = some (some target, wordno))
    (hwon : Round.guessing p g.file target ⟨g.bf, g.out ++ "Word chosen...\n".toList, g.keys, [], 0⟩ = some (r, true))
    (hsave : Game.save p g.file target wordno r.guesses = some (out, file)) :
    ∃ g', g.round p random = some g' ∧ g'.file = file := by
  rw [Game.round, hgoing, if_neg Bool.false_ne_true, hchosen, Option.bind_some, Option.bind_some,
    hwon, Option.bind_some, if_pos rfl, hsave]
  exact ⟨_, rfl, rfl⟩

/-- the file of a game that began with the file `d` -/
def Playing (d : WordFile) (g : Game) : Prop := ∃ d' : WordFile, d'.file = g.file ∧ Same d d'

/-- **Whole games.** After every round of a game, whatever keys are pressed and whatever words are chosen, the file
is one that `hash_file` accepts, with the words, the slots and the table there were at the start. -/
theorem run_kept (d : WordFile) {p : Setting} (hp : Opened d p) {g : Game} (hfile : g.file = d.file)
    (randoms : List ℕ) : Runs.Always (Game.round p) (Playing d) g randoms := by
  refine Runs.always_of_step ?_ randoms ⟨d, hfile.symm, Same.refl d⟩
  rintro s random t ⟨d', hd', hsame⟩ hround
  obtain ⟨d'', hd'', hsame', -⟩ := round_recorded (hp.same hsame) hd'.symm hround
  exact ⟨d'', hd'', hsame.trans hsame'⟩

/-- the file with one word, opened by `jan` -/
def oneSetting : Setting :=
  ⟨2, 10, 1, oneWord.hash, ⟨'\x04', '\x7f', '\x15', '\x17'⟩, false, some "jan".toList⟩

theorem oneSetting_opened : Opened oneWord.toWordFile oneSetting where
  n := rfl
  line1 := rfl
  hash := rfl
  login := by
    rintro user ⟨rfl⟩
    exact ⟨by decide, by decide⟩

/-- a round before the first guess -/
def oneRound : Round := ⟨[' ', ' ', ' '], "Word chosen...\n".toList, "aa\nab\nn\n".toList, [], 0⟩

/-- the word is the second guess -/
theorem oneRound_won : ∃ r, Round.guessing oneSetting oneWord.file "ab".toList oneRound = some (r, true) ∧
    r.guesses = 2 ∧ r.keys = "n\n".toList := by
  have hfirst : ∃ r, oneRound.turn oneSetting oneWord.file "ab".toList = some (r, none) ∧
      ∃ r', r.turn oneSetting oneWord.file "ab".toList = some (r', some true) ∧ r'.guesses = 2 ∧
        r'.keys = "n\n".toList := ⟨_, rfl, _, rfl, rfl, rfl⟩
  obtain ⟨r, hnext, r', hlast, hguesses, hkeys⟩ := hfirst
  exact ⟨r', (Round.guessing_next hnext).trans (Round.guessing_last hlast), hguesses, hkeys⟩

/-- a game of one round -/
theorem oneGame_kept : ∃ g, Runs.run (Game.round oneSetting)
    ⟨oneWord.file, none, [' ', ' ', ' '], [], "aa\nab\nn\n".toList, false⟩ [7] = some g ∧
    g.file = "2 1 1 One\nab002jan*****\n".toList ∧ Playing oneWord.toWordFile g := by
  obtain ⟨r, hwon, hguesses, hkeys⟩ := oneRound_won
  have hchosen : choose_word oneSetting oneWord.file 7 none = some (some "ab".toList, 0) := by decide
  have hsave : Game.save oneSetting oneWord.file "ab".toList 0 r.guesses =
      some ([], "2 1 1 One\nab002jan*****\n".toList) := by
    rw [hguesses]
    decide
  obtain ⟨g, hround, hfile⟩ := Game.round_won
    (g := ⟨oneWord.file, none, [' ', ' ', ' '], [], "aa\nab\nn\n".toList, false⟩) rfl hchosen hwon hsave
  have hrun : Runs.run (Game.round oneSetting) ⟨oneWord.file, none, [' ', ' ', ' '], [], "aa\nab\nn\n".toList, false⟩
      [7] = some g := by
    rw [Runs.run_cons, hround]
    rfl
  exact ⟨g, hrun, hfile, (run_kept oneWord.toWordFile oneSetting_opened rfl [7]).run hrun⟩

/-! ## What is counted -/

section Transcript

variable {dict : Dictionary} {target : Str}

/-- the words that are typed from here on -/
def Round.words (p : Setting) (r : Round) : List Str := (Editor.mk [] (r.bf.headD '\x00') []).words p.n p.cc r.keys

/-- what the history has of a wrong word -/
def entry (dict : Dictionary) (target word : Str) : Hist :=
  ⟨if word ∈ dict.words then scoreOf dict.n target word else -1, word⟩

/-- the history and the number of guesses are those of these words, which are wrong -/
structure Transcript (dict : Dictionary) (target : Str) (r : Round) (guesses : List Str) : Prop where
  hist : r.hist = guesses.map (entry dict target)
  count : r.guesses = guesses.length
  wrong : target ∉ guesses
  letters : ∀ word ∈ guesses, ∃ guess : Guess dict.n, guess.word = word

theorem Transcript.letters_hist {r : Round} {guesses : List Str} (h : Transcript dict target r guesses) :
    Letters r.hist := by
  intro p hp
  rw [h.hist] at hp
  obtain ⟨word, hword, rfl⟩ := List.mem_map.1 hp
  obtain ⟨guess, rfl⟩ := h.letters word hword
  exact guess.lower

/-- the word that is read is the first that is typed -/
theorem readword_guess {n : ℕ} {hist : List Hist} {cc : Cc} {bf : Str} {keys : List Char} {reading : Reading}
    (hroom : n < bf.length) (hhist : Letters hist) (h : readword n hist cc bf keys = some reading)
    (hrc : reading.rc = 0) : n < reading.bf.length ∧ ∃ guess : Guess n, cstr reading.bf = guess.word ∧
      (Editor.mk [] (bf.headD '\x00') []).words n cc keys =
        guess.word :: (Editor.mk [] (reading.bf.headD '\x00') []).words n cc reading.keys := by
  have hbf : bf ≠ [] := by
    rintro rfl
    exact absurd hroom (Nat.not_lt_zero _)
  obtain ⟨first, bf, rfl⟩ := List.exists_cons_of_ne_nil hbf
  have hspec : ∃ r, readword n hist cc (first :: bf) keys = some r ∧
      r.keys = (Editor.keys n hist cc ⟨[], first, []⟩ keys).2 ∧
      r.bf.head? = some (Editor.keys n hist cc ⟨[], first, []⟩ keys).1.1.first ∧ Returned n Terminal.blank
        (Editor.keys n hist cc ⟨[], first, []⟩ keys).1.1 r (Editor.keys n hist cc ⟨[], first, []⟩ keys).1.2 :=
    readword_spec hroom rfl hhist Terminal.shows_blank keys
  obtain ⟨r, hr, hkeys, hhead, hreturned⟩ := hspec
  cases hr.symm.trans h
  have hwords := Editor.words_keys n hist cc
    (⟨rfl, rfl⟩ : (Editor.mk [] first []).Alike (Editor.mk [] first [])) keys
  cases hhow : (Editor.keys n hist cc ⟨[], first, []⟩ keys).1.2 with
  | none =>
    rw [hhow] at hreturned
    exact absurd (hrc.symm.trans hreturned.1) zero_ne_one
  | some how =>
    rw [hhow] at hreturned hwords
    cases how with
    | word =>
      obtain ⟨-, ⟨guess, hguess⟩, htake, -⟩ := hreturned
      rw [← hguess] at htake
      have hlen : (reading.bf.take (n + 1)).length = n + 1 := by
        rw [htake, List.length_append, guess.length_word]
        rfl
      rw [List.length_take] at hlen
      refine ⟨by omega, guess, ?_, ?_⟩
      · rw [← List.take_append_drop (n + 1) reading.bf, htake, List.append_assoc, List.singleton_append]
        refine cstr_append_nul (fun hmem => ?_) _
        exact absurd (guess.lower _ hmem) (by decide)
      · rw [if_pos rfl] at hwords
        rw [List.headD_cons, hwords, hguess, hkeys, List.headD_eq_head?_getD, hhead]
        rfl
    | eof => exact absurd (hrc.symm.trans hreturned.1) zero_ne_one
    | quit => exact absurd (hrc.symm.trans hreturned.1) zero_ne_one

/-- an offset in a file that is not too long is an int other than 0 -/
theorem toInt_offset_ne_zero (hfile : dict.file.length < 2 ^ 31) {guess : Str} (hmem : guess ∈ dict.words) :
    toInt (dict.offset (dict.words.idxOf guess)) ≠ 0 := by
  have hidx : dict.words.idxOf guess < dict.lines.length := by
    have hlt := List.idxOf_lt_length_iff.2 hmem
    rwa [WordFile.words, List.length_map] at hlt
  have hfit : dict.offset (dict.words.idxOf guess) ≤ dict.file.length := by
    have hsum : dict.body.length = dict.lines.length * (dict.n + 12) := by
      rw [← dict.flatten_lines, List.length_flatten, List.map_congr_left (g := fun _ => dict.n + 12), List.map_const',
        List.sum_replicate, smul_eq_mul]
      exact fun l hl => dict.length_line hl
    rw [WordFile.offset, WordFile.file, List.length_append, hsum, WordFile.line1]
    have hmul := Nat.mul_le_mul_right (dict.n + 12) hidx.le
    omega
  have hline1 : 0 < dict.line1 := List.length_pos_iff.2 dict.header_ne
  rw [(toInt_eq_iff _).2 (by omega)]
  rw [WordFile.offset]
  omega

/-- one guess that is checked -/
theorem check_word_spec (hn : 0 < dict.n) (hfile : dict.file.length < 2 ^ 31) (hp : Opened dict.toWordFile p)
    (htarget : target.length = dict.n) {hist hist' : List Hist} {guess : Guess dict.n} {yes : Bool} {out : Str}
    (h : check_word p dict.file hist guess.word target = some (yes, hist', out)) :
    yes = true ∧ guess.word = target ∧ hist' = hist ∨
      yes = false ∧ guess.word ≠ target ∧ hist' = hist ++ [entry dict target guess.word] := by
  have hsame : strncmp guess.word target p.n = 0 ↔ guess.word = target := by
    rw [hp.n, strncmp_word guess.length_word, List.take_of_length_le htarget.le]
    exact strcmp_zero _ _
  have htake : guess.word.take p.n = guess.word := List.take_of_length_le (by rw [hp.n, guess.length_word])
  have hfind : find_word p.n dict.file p.hash guess.word = dict.find_word guess.word := by
    rw [hp.n, hp.hash]
    rfl
  rw [check_word, htake, hfind, Dictionary.find_word_eq hn] at h
  split_ifs at h with heq hmem hbeyond
  · cases h
    exact Or.inl ⟨rfl, hsame.1 heq, rfl⟩
  · rw [Option.map_some, if_neg (toInt_offset_ne_zero hfile hmem), hp.n] at h
    cases h
    refine Or.inr ⟨rfl, fun hword => heq (hsame.2 hword), ?_⟩
    rw [entry, if_pos hmem]
  · rw [Option.map_some, if_pos rfl] at h
    cases h
    refine Or.inr ⟨rfl, fun hword => heq (hsame.2 hword), ?_⟩
    rw [entry, if_neg hmem]
  · cases h

/-- one guess of a round -/
theorem turn_spec (hn : 0 < dict.n) (hfile : dict.file.length < 2 ^ 31) (hp : Opened dict.toWordFile p)
    (htarget : target.length = dict.n) {r r' : Round} {guesses : List Str} {how : Option Bool}
    (hroom : dict.n < r.bf.length) (hr : Transcript dict target r guesses)
    (h : r.turn p dict.file target = some (r', how)) :
    how = some false ∨
      how = some true ∧ r'.hist = r.hist ∧ r'.guesses = r.guesses + 1 ∧ cstr r'.bf = target ∧
        r.words p = target :: r'.words p ∨
      how = none ∧ dict.n < r'.bf.length ∧
        ∃ word, r.words p = word :: r'.words p ∧ Transcript dict target r' (guesses ++ [word]) := by
  obtain ⟨reading, hreading, ⟨-, hhow⟩ | ⟨hrc, hbf, hkeys, hguesses, -, yes, out, hchecked, hhow⟩⟩ := Round.turn_cases h
  · exact Or.inl hhow
  · rw [hp.n] at hreading
    obtain ⟨hroom', guess, hguess, hwords⟩ := readword_guess hroom hr.letters_hist hreading hrc
    rw [hguess] at hchecked
    have htyped : r.words p = guess.word :: r'.words p := by
      rw [Round.words, Round.words, hp.n, hwords, hbf, hkeys]
    rcases check_word_spec hn hfile hp htarget hchecked with ⟨rfl, hword, hsame⟩ | ⟨rfl, hword, hnew⟩
    · exact Or.inr (Or.inl ⟨hhow, hsame, hguesses, by rw [hbf, hguess, hword], hword ▸ htyped⟩)
    · refine Or.inr (Or.inr ⟨hhow, hbf ▸ hroom', guess.word, htyped, ?_, ?_, ?_, ?_⟩)
      · rw [hnew, hr.hist, List.map_append, List.map_singleton]
      · rw [hguesses, hr.count, List.length_append, List.length_singleton]
      · rw [List.mem_append, List.mem_singleton, not_or]
        exact ⟨hr.wrong, fun heq => hword heq.symm⟩
      · exact List.forall_mem_append.2 ⟨hr.letters, List.forall_mem_singleton.2 ⟨guess, rfl⟩⟩

/-- **A round that is won** has counted the words typed: the history has the wrong ones up to the word, in their order,
each with its letters in place or -1 if it is no word of the dictionary, and the number of guesses is one more. -/
theorem guessing_spec (dict : Dictionary) (hn : 0 < dict.n) (hfile : dict.file.length < 2 ^ 31) {p : Setting}
    (hp : Opened dict.toWordFile p) {target : Str} (htarget : target.length = dict.n) {bf out : Str} {keys : List Char}
    (hroom : dict.n < bf.length) {r : Round}
    (h : Round.guessing p dict.file target ⟨bf, out, keys, [], 0⟩ = some (r, true)) :
    let typed := Round.words p ⟨bf, out, keys, [], 0⟩
    let guesses := typed.takeWhile (· ≠ target)
    typed = guesses ++ target :: r.words p ∧ r.hist = guesses.map (entry dict target) ∧
      r.guesses = guesses.length + 1 ∧ (∀ word ∈ guesses, ∃ guess : Guess dict.n, guess.word = word) ∧
      cstr r.bf = target := by
  have hcounted : ∃ guesses, Round.words p ⟨bf, out, keys, [], 0⟩ = guesses ++ target :: r.words p ∧
      r.hist = guesses.map (entry dict target) ∧ r.guesses = guesses.length + 1 ∧ target ∉ guesses ∧
      (∀ word ∈ guesses, ∃ guess : Guess dict.n, guess.word = word) ∧ cstr r.bf = target := by
    refine Round.guessing_rule
      (I := fun r => dict.n < r.bf.length ∧ ∃ guesses,
        Round.words p ⟨bf, out, keys, [], 0⟩ = guesses ++ r.words p ∧ Transcript dict target r guesses)
      (Q := fun r won => won = true → ∃ guesses, Round.words p ⟨bf, out, keys, [], 0⟩ = guesses ++ target :: r.words p ∧
        r.hist = guesses.map (entry dict target) ∧ r.guesses = guesses.length + 1 ∧ target ∉ guesses ∧
        (∀ word ∈ guesses, ∃ guess : Guess dict.n, guess.word = word) ∧ cstr r.bf = target)
      ?_ ?_ ⟨hroom, [], rfl, rfl, rfl, List.not_mem_nil, List.forall_mem_nil _⟩ h rfl
    · rintro r₁ r₂ ⟨hroom₁, guesses, htyped, hr⟩ hturn
      rcases turn_spec hn hfile hp htarget hroom₁ hr hturn with hhow | ⟨hhow, -⟩ | ⟨-, hroom₂, word, hword, hr₂⟩
      · cases hhow
      · cases hhow
      · exact ⟨hroom₂, _, by rw [htyped, hword, List.append_assoc, List.singleton_append], hr₂⟩
    · rintro r₁ r₂ won ⟨hroom₁, guesses, htyped, hr⟩ hturn rfl
      rcases turn_spec hn hfile hp htarget hroom₁ hr hturn with hhow | ⟨-, hhist, hcount, hbf, hword⟩ | ⟨hhow, -⟩
      · cases hhow
      · exact ⟨guesses, by rw [htyped, hword], hhist.trans hr.hist, by rw [hcount, hr.count], hr.wrong, hr.letters, hbf⟩
      · cases hhow
  obtain ⟨guesses, htyped, hhist, hcount, hwrong, hletters, hbf⟩ := hcounted
  have htake : (Round.words p ⟨bf, out, keys, [], 0⟩).takeWhile (· ≠ target) = guesses := by
    have hall : ∀ word ∈ guesses, decide (word ≠ target) = true := fun word hword =>
      decide_eq_true fun heq : word = target => hwrong (heq ▸ hword)
    rw [htyped, List.takeWhile_append_of_pos hall, List.takeWhile_cons_of_neg (by simp), List.append_nil]
  dsimp only
  rw [htake]
  exact ⟨htyped, hhist, hcount, hletters, hbf⟩

/-- a wrong guess and the word -/
theorem oneRound_counted : ∃ r, Round.guessing oneSetting oneWord.file "ab".toList oneRound = some (r, true) ∧
    oneRound.words oneSetting = ["aa".toList, "ab".toList] ∧ r.hist = [⟨-1, "aa".toList⟩] ∧
    r.guesses = 2 := by
  obtain ⟨r, hwon, -⟩ := oneRound_won
  have hwords : oneRound.words oneSetting = ["aa".toList, "ab".toList] := by decide
  obtain ⟨-, hhist, hguesses, -⟩ := guessing_spec oneWord (by decide) (by decide) oneSetting_opened rfl
    (by decide : oneWord.n < [' ', ' ', ' '].length) hwon
  have htyped : Round.words oneSetting ⟨[' ', ' ', ' '], "Word chosen...\n".toList, "aa\nab\nn\n".toList, [], 0⟩ =
      ["aa".toList, "ab".toList] := hwords
  have hentry : entry oneWord "ab".toList "aa".toList = ⟨-1, "aa".toList⟩ := by decide
  rw [htyped] at hhist hguesses
  exact ⟨r, hwon, hwords, hhist.trans (congrArg ([·]) hentry), hguesses⟩

end Transcript

end MNetSoft.Games.Letter
