/-
The table of players of `letter`. `show_score` counts for each player the words with a record of theirs, and adds up the
guesses; `save_score` writes the records, game after game, whoever plays. What `printf` makes of an average in floating
point is a parameter.

- `gather_spec`: what the loop over the lines has in its array.
- `show_score_counts`: the rows that are printed are those of the players, once each and in order, with their numbers.
- `play_recorded`: what one game does to the record of its word.
- `plays_shown`: after any number of games the record of a word is the first of the best ones, and these are what the
  table counts.
-/
import Mathlib.Tactic
import MNetSoft.Core.CString
import MNetSoft.Core.Grouping
import MNetSoft.Core.Numerals
import MNetSoft.Games.Letter
import MNetSoft.Games.LetterGame
import MNetSoft.Games.LetterScore

namespace MNetSoft.Games.Letter

open MNetSoft.CString MNetSoft.Numerals MNetSoft.Grouping

/-! ## Model -/

/-- an element of the array `scores` -/
structure Sc where
  login : Str
  ngames : ℤ
  total : ℤ
deriving DecidableEq, Repr

/-- one more game; an int that becomes 2^31 is undefined -/
def Sc.add (sc : Sc) (scr : ℤ) : Option Sc :=
  if sc.ngames + 1 < 2 ^ 31 ∧ sc.total + scr < 2 ^ 31 then some ⟨sc.login, sc.ngames + 1, sc.total + scr⟩ else none

/-- look for the login in the array, and count the game -/
def countGame (login : Str) (scr : ℤ) : List Sc → Option (List Sc)
  | [] => some [⟨strncpy login 8, 1, scr⟩]
  | sc :: scores =>
    if strncmp login sc.login 8 = 0 then (sc.add scr).map (· :: scores)
    else (countGame login scr scores).map (sc :: ·)

/-- `fgets`: the line and a NUL, and behind them what was in the buffer -/
def fill (bf line : Str) : Str := line ++ '\x00' :: bf.drop (line.length + 1)

/-- the buffer after every line -/
def buffers : Str → List Str → List Str
  | _, [] => []
  | bf, line :: lines => fill bf line :: buffers (fill bf line) lines

/-- The loop over the lines, by the buffer after each. A text without an end in the buffer is read on behind it,
which is undefined. -/
def gather (n : ℕ) : List Sc → List Str → Option (List Sc)
  | scores, [] => some scores
  | scores, bf :: rest =>
    if '\x00' ∉ bf.drop n then none
    else if isdigit (bf.getD n '\x00') then
      match atoiInt (bf.drop n) with
      | none => none
      | some scr =>
        if 0 < scr then
          if '\x00' ∉ bf.drop (n + 3) then none
          else (countGame (cstr (bf.drop (n + 3))) scr scores).bind fun scores => gather n scores rest
        else gather n scores rest
    else gather n scores rest

/-- `cmp_scores`: the order of two elements is not after -/
def cmp_scores (a b : Sc) : Prop := strncmp a.login b.login 8 ≤ 0

instance : DecidableRel cmp_scores := fun a b => inferInstanceAs (Decidable (strncmp a.login b.login 8 ≤ 0))

/-- a row of the table -/
def Sc.row (average : ℤ → ℤ → Str) (sc : Sc) : Str :=
  ((sc.login ++ List.replicate (8 - sc.login.length) '\x00').map fun c => if c = '*' then ' ' else c) ++
    (printInt sc.ngames).leftpad 5 ' ' ++ average sc.total sc.ngames ++ ['\n']

/-- what is printed of the lines; elements with the same login are not there to be sorted -/
def show_score (average : ℤ → ℤ → Str) (n : ℕ) (bf : Str) (lines : List Str) : Option Str :=
  (gather n [] (buffers bf lines)).map fun scores =>
    "user     games average\n----------------------\n".toList ++
      (scores.insertionSort cmp_scores).flatMap (Sc.row average)

/-! ## The table -/

/-- the record of a line, or of what is in the buffer: the number of guesses, and the eight characters of the login -/
def recordOf (n : ℕ) (bf : Str) : Option (ℤ × Str) :=
  if isdigit (bf.getD n '\x00') then
    (atoiInt (bf.drop n)).bind fun scr => if 0 < scr then some (scr, strncpy (cstr (bf.drop (n + 3))) 8) else none
  else none

/-- the numbers of guesses of the records of a login -/
def scoresOf (login : Str) (records : List (ℤ × Str)) : List ℤ := (records.filter fun r => r.2 = login).map Prod.fst

/-- records are counted by their logins -/
def players : Rule Sc Str (ℤ × Str) where
  key sc := sc.login
  keyOf r := r.2
  start r := ⟨r.2, 1, r.1⟩
  join sc r := sc.add r.1
  key_start _ := rfl
  key_join h := by
    rw [Sc.add] at h
    split_ifs at h
    cases h
    rfl

theorem countGame_eq {scores : List Sc} (hlogin : ∀ sc ∈ scores, sc.login.length ≤ 8) (login : Str) (scr : ℤ) :
    countGame login scr scores = enter players scores (scr, strncpy login 8) := by
  induction scores with
  | nil => rfl
  | cons sc scores ih =>
    obtain ⟨hsc, hscores⟩ := List.forall_mem_cons.1 hlogin
    have hsame : strncmp login sc.login 8 = 0 ↔ sc.login = strncpy login 8 := by
      rw [strncmp, strcmp_zero, List.take_of_length_le hsc, eq_comm, strncpy]
    rw [countGame, enter, ih hscores]
    exact if_congr hsame rfl rfl

theorem entry_players {records : List (ℤ × Str)} {sc : Sc} (h : Grouping.entry players records = some sc) :
    sc.ngames = records.length ∧ sc.total = (records.map Prod.fst).sum := by
  have hfold : ∀ (rs : List (ℤ × Str)) (s : Sc), rs.foldlM players.join s = some sc →
      sc.ngames = s.ngames + rs.length ∧ sc.total = s.total + (rs.map Prod.fst).sum := by
    intro rs
    induction rs with
    | nil =>
      intro s hs
      cases hs
      simp
    | cons r rs ih =>
      intro s hs
      rw [List.foldlM_cons] at hs
      obtain ⟨s', hs', hrest⟩ := Option.bind_eq_some_iff.1 hs
      have hjoin : s.add r.1 = some s' := hs'
      rw [Sc.add] at hjoin
      split_ifs at hjoin
      cases hjoin
      obtain ⟨hgames, htotal⟩ := ih _ hrest
      simp only [hgames, htotal, List.length_cons, List.map_cons, List.sum_cons, Nat.cast_add, Nat.cast_one]
      constructor <;> ring
  cases records with
  | nil => cases h
  | cons r rs =>
    obtain ⟨hgames, htotal⟩ := hfold rs _ h
    have hstart : players.start r = ⟨r.2, 1, r.1⟩ := rfl
    rw [hstart] at hgames htotal
    simp only [hgames, htotal, List.length_cons, List.map_cons, List.sum_cons, Nat.cast_add, Nat.cast_one]
    exact ⟨add_comm _ _, trivial⟩

theorem recordOf_fill {n : ℕ} {line : Str} (hlen : n + 3 ≤ line.length) (hnul : '\x00' ∉ line) (bf : Str) :
    recordOf n (fill bf line) = recordOf n line := by
  have hslot : (fill bf line).getD n '\x00' = line.getD n '\x00' := by
    rw [fill, List.getD_eq_getElem?_getD, List.getD_eq_getElem?_getD, List.getElem?_append_left (by omega)]
  have hnumber : atoiInt ((fill bf line).drop n) = atoiInt (line.drop n) := by
    rw [fill, List.drop_append_of_le_length (by omega), atoiInt_append_nul]
  have hlogin : cstr ((fill bf line).drop (n + 3)) = cstr (line.drop (n + 3)) := by
    have hbehind : '\x00' ∉ line.drop (n + 3) := fun h => hnul (List.mem_of_mem_drop h)
    rw [fill, List.drop_append_of_le_length hlen, cstr_append_nul hbehind, cstr_of_not_mem hbehind]
  rw [recordOf, recordOf, hslot, hnumber, hlogin]

theorem records_of_lines {n : ℕ} {lines : List Str}
    (h : ∀ line ∈ lines, n + 3 ≤ line.length ∧ '\x00' ∉ line) (bf : Str) :
    (buffers bf lines).filterMap (recordOf n) = lines.filterMap (recordOf n) := by
  induction lines generalizing bf with
  | nil => rfl
  | cons line lines ih =>
    obtain ⟨⟨hlen, hnul⟩, hlines⟩ := List.forall_mem_cons.1 h
    rw [buffers, List.filterMap_cons, List.filterMap_cons, recordOf_fill hlen hnul, ih hlines]

/-- **The array holds the records.** -/
theorem gather_spec {n : ℕ} {lines : List Str} {scores scores' : List Sc} {records : List (ℤ × Str)}
    (hle : ∀ r ∈ records, r.2.length ≤ 8) (h : Holds players scores records)
    (hgather : gather n scores lines = some scores') :
    Holds players scores' (records ++ lines.filterMap (recordOf n)) := by
  induction lines generalizing scores records with
  | nil =>
    cases hgather
    rwa [List.filterMap_nil, List.append_nil]
  | cons bf lines ih =>
    have hskip : recordOf n bf = none → gather n scores lines = some scores' →
        Holds players scores' (records ++ (bf :: lines).filterMap (recordOf n)) := by
      intro hnone hrest
      rw [List.filterMap_cons_none hnone]
      exact ih hle h hrest
    have hcount : ∀ r : ℤ × Str, r.2.length ≤ 8 → recordOf n bf = some r →
        ((enter players scores r).bind fun scores => gather n scores lines) = some scores' →
          Holds players scores' (records ++ (bf :: lines).filterMap (recordOf n)) := by
      intro r hr hrecord hrest
      obtain ⟨scores₁, hcount, hrest⟩ := Option.bind_eq_some_iff.1 hrest
      have hall := ih (List.forall_mem_append.2 ⟨hle, List.forall_mem_singleton.2 hr⟩) (holds_enter h hcount) hrest
      rwa [List.append_assoc, List.singleton_append, ← List.filterMap_cons_some hrecord] at hall
    rw [gather] at hgather
    by_cases hshort : '\x00' ∉ bf.drop n
    · rw [if_pos hshort] at hgather
      cases hgather
    rw [if_neg hshort] at hgather
    by_cases hslot : isdigit (bf.getD n '\x00') = true
    · rw [if_pos hslot] at hgather
      cases hatoi : atoiInt (bf.drop n) with
      | none =>
        rw [hatoi] at hgather
        cases hgather
      | some scr =>
        rw [hatoi] at hgather
        dsimp only at hgather
        by_cases hpos : 0 < scr
        · rw [if_pos hpos] at hgather
          by_cases hname : '\x00' ∉ bf.drop (n + 3)
          · rw [if_pos hname] at hgather
            cases hgather
          · rw [if_neg hname, countGame_eq] at hgather
            · refine hcount _ ?_ ?_ hgather
              · rw [strncpy, List.length_take]
                exact min_le_left _ _
              · rw [recordOf, if_pos hslot, hatoi, Option.bind_some, if_pos hpos]
            · intro sc hsc
              obtain ⟨r, hr, hkey⟩ := h.came_up hsc
              have hsame : r.2 = sc.login := hkey
              exact hsame ▸ hle r hr
        · rw [if_neg hpos] at hgather
          refine hskip ?_ hgather
          rw [recordOf, if_pos hslot, hatoi, Option.bind_some, if_neg hpos]
    · rw [if_neg hslot] at hgather
      exact hskip (if_neg hslot) hgather

/-- the rows for some records: one for each player, in order, with the number and the sum of the records -/
structure Rows (rows : List Sc) (records : List (ℤ × Str)) : Prop where
  increasing : (rows.map Sc.login).Pairwise (· < ·)
  counts : ∀ sc, sc ∈ rows ↔ scoresOf sc.login records ≠ [] ∧ sc.ngames = (scoresOf sc.login records).length ∧
    sc.total = (scoresOf sc.login records).sum

theorem cmp_scores_iff {a b : Sc} (ha : a.login.length ≤ 8) (hb : b.login.length ≤ 8) :
    cmp_scores a b ↔ a.login ≤ b.login := by
  rw [cmp_scores, strncmp, List.take_of_length_le ha, List.take_of_length_le hb, ← not_lt, strcmp_pos, not_lt]

theorem rows_of_holds {scores : List Sc} {records : List (ℤ × Str)} (hle : ∀ r ∈ records, r.2.length ≤ 8)
    (h : Holds players scores records) : Rows (scores.insertionSort cmp_scores) records := by
  have hlogin : ∀ sc ∈ scores, sc.login.length ≤ 8 := by
    intro sc hsc
    obtain ⟨r, hr, hkey⟩ := h.came_up hsc
    have hsame : r.2 = sc.login := hkey
    exact hsame ▸ hle r hr
  constructor
  · have hnodup : (scores.map Sc.login).Nodup := h.nodup
    have hsorted : ((scores.insertionSort cmp_scores).map Sc.login) = (scores.map Sc.login).insertionSort (· ≤ ·) :=
      List.map_insertionSort _ _ _ _ fun a ha b hb => cmp_scores_iff (hlogin a ha) (hlogin b hb)
    rw [hsorted]
    exact (List.sortedLE_insertionSort.sortedLT_of_nodup
      ((List.perm_insertionSort (· ≤ ·) (scores.map Sc.login)).nodup_iff.2 hnodup)).pairwise
  · intro sc
    have hscores : scoresOf sc.login records = (ofKey players sc.login records).map Prod.fst := rfl
    rw [List.mem_insertionSort, hscores, List.length_map]
    constructor
    · intro hsc
      have hmade := h.made sc hsc
      obtain ⟨hgames, htotal⟩ := entry_players hmade
      refine ⟨fun hnil => ?_, hgames, htotal⟩
      have hkey : players.key sc = sc.login := rfl
      rw [hkey, List.map_eq_nil_iff.1 hnil] at hmade
      cases hmade
    · rintro ⟨hne, hgames, htotal⟩
      obtain ⟨r, hr⟩ := List.exists_mem_of_ne_nil _ fun hnil => hne (List.map_eq_nil_iff.2 hnil)
      obtain ⟨hmem, hkey⟩ := List.mem_filter.1 hr
      obtain ⟨e, he, hsame⟩ := List.mem_map.1 (h.complete r hmem)
      have hlog : e.login = sc.login := hsame.trans (of_decide_eq_true hkey)
      obtain ⟨hgames', htotal'⟩ := entry_players (h.made e he)
      have hkey' : players.key e = sc.login := hlog
      rw [hkey'] at hgames' htotal'
      have heq : e = sc := by
        cases e
        cases sc
        simp_all
      exact heq ▸ he

theorem rows_of_gather {n : ℕ} {lines : List Str} {scores : List Sc} (h : gather n [] lines = some scores) :
    Rows (scores.insertionSort cmp_scores) (lines.filterMap (recordOf n)) := by
  have hholds := gather_spec (List.forall_mem_nil _) (Holds.nil players) h
  rw [List.nil_append] at hholds
  refine rows_of_holds ?_ hholds
  intro r hr
  obtain ⟨bf, -, hrecord⟩ := List.mem_filterMap.1 hr
  rw [recordOf] at hrecord
  split_ifs at hrecord
  obtain ⟨scr, -, hscr⟩ := Option.bind_eq_some_iff.1 hrecord
  split_ifs at hscr
  cases hscr
  rw [strncpy, List.length_take]
  exact min_le_left _ _

/-- **The table.** Of any lines and whatever is in the buffer, if the numbers are ints, the rows that are printed are
those of the players with a record there after one of the lines. -/
theorem show_score_counts (average : ℤ → ℤ → Str) (n : ℕ) (bf : Str) (lines : List Str) {out : Str}
    (h : show_score average n bf lines = some out) :
    ∃ rows, Rows rows ((buffers bf lines).filterMap (recordOf n)) ∧
      out = "user     games average\n----------------------\n".toList ++ rows.flatMap (Sc.row average) := by
  obtain ⟨scores, hgather, rfl⟩ := Option.map_eq_some_iff.1 h
  exact ⟨_, rows_of_gather hgather, rfl⟩

/-- three records of two players, and an empty line -/
def threeLines : List Str :=
  ["ab012jan*****\n".toList, "ac003al******\n".toList, "ba000********\n".toList, "bc004jan*****\n".toList, "\n".toList]

/-- behind the empty line the buffer has the last record still, and it counts twice -/
theorem threeLines_shown : ∃ rows,
    Rows rows [(12, "jan*****".toList), (3, "al******".toList), (4, "jan*****".toList), (4, "jan*****".toList)] ∧
    "user     games average\n----------------------\nal          1 3/1\njan         3 20/3\n".toList =
      "user     games average\n----------------------\n".toList ++
        rows.flatMap (Sc.row fun total ngames => ' ' :: printInt total ++ ['/'] ++ printInt ngames) := by
  have hshow : show_score (fun total ngames => ' ' :: printInt total ++ ['/'] ++ printInt ngames) 2
      (List.replicate 20 '#') threeLines =
        some "user     games average\n----------------------\nal          1 3/1\njan         3 20/3\n".toList := by
    decide
  exact show_score_counts _ 2 (List.replicate 20 '#') threeLines hshow

/-! ## Games -/

/-- a game that is won -/
structure Play where
  wordno : ℕ
  guesses : Guesses
  user : Login

/-- the login as it is written into a line -/
def stored (user : Str) : Str := user.take 8 ++ List.replicate (8 - user.length) '*'

/-- the record that the game would be -/
def Play.record (p : Play) : ℤ × Str := (p.guesses.count, stored p.user.name)

/-- the game is saved -/
def Play.save (d : WordFile) (file : Str) (p : Play) : Option Str :=
  (save_score d.n d.line1 file (d.words.getD p.wordno []) p.wordno p.guesses.count (some p.user.name)).map Prod.snd

/-- a word to play with, and a number and a login that can be read back -/
def Play.Fair (d : WordFile) (p : Play) : Prop :=
  (∃ t : Target d, t.wordno = p.wordno) ∧ Recordable p.guesses.count p.user.name

/-- the record of a word -/
def board (d : WordFile) (i : ℕ) : Option (ℤ × Str) := d.lines[i]?.bind (recordOf d.n)

/-- the numbers in the slots are ints -/
def Readable (d : WordFile) : Prop :=
  ∀ bf ∈ d.lines, isdigit (bf.getD d.n '\x00') = true → (atoiInt (bf.drop d.n)).isSome

/-- the record after one more game: a better one takes its place -/
def better (old : Option (ℤ × Str)) (r : ℤ × Str) : Option (ℤ × Str) :=
  match old with
  | none => some r
  | some old => if old.1 ≤ r.1 then some old else some r

variable {d : WordFile}

theorem recordOf_line_with (t : Target d) {g : Guesses} {user : Login} (hrec : Recordable g.count user.name) :
    recordOf d.n (t.line_with (slot g.count user.name)) = some ((g.count : ℤ), stored user.name) ∧
      atoiInt ((t.line_with (slot g.count user.name)).drop d.n) = some (g.count : ℤ) := by
  obtain ⟨hthree, hdigit, hstar, -⟩ := hrec
  have hlen := length_slot g.count user.name
  have hdrop : (t.line_with (slot g.count user.name)).drop d.n = slot g.count user.name ++ ['\n'] := by
    rw [Target.line_with, List.append_assoc, List.drop_left' t.length_word]
  have hatoi := ((slot_iff g.pos g.lt user.name).2 ⟨hthree, hdigit, hstar⟩).1
  have h3 := (length_printInt03_eq_iff g.count).2 hthree
  have hbehind : behind g.count user.name = stored user.name := behind_eq h3 user.name
  have hlogin : (t.line_with (slot g.count user.name)).drop (d.n + 3) = stored user.name ++ ['\n'] := by
    rw [← List.drop_drop, hdrop, slot_eq g.lt, List.append_assoc, List.drop_left' h3, hbehind]
  have hnul : '\x00' ∉ stored user.name ++ ['\n'] := by
    intro hmem
    rcases List.mem_append.1 hmem with hmem | hmem
    · rcases List.mem_append.1 hmem with hmem | hmem
      · exact user.text (List.mem_of_mem_take hmem)
      · exact absurd (List.eq_of_mem_replicate hmem) (by decide)
    · exact absurd (List.mem_singleton.1 hmem) (by decide)
  have hlength : (stored user.name).length = 8 := by
    rw [stored, List.length_append, List.length_take, List.length_replicate]
    omega
  refine ⟨?_, by rw [hdrop, hatoi]⟩
  rw [recordOf, t.getD_line_with hlen, if_pos (isdigit_slot g.count user.name), hdrop, hatoi, Option.bind_some,
    if_pos (by exact_mod_cast g.pos), hlogin, cstr_of_not_mem hnul, strncpy, List.take_left' hlength]

/-- **One game.** -/
theorem play_recorded (hread : Readable d) {p : Play} (hp : p.Fair d) :
    ∃ d' : WordFile, Play.save d d.file p = some d'.file ∧ Same d d' ∧ Readable d' ∧
      ∀ i, board d' i = if i = p.wordno then better (board d i) p.record else board d i := by
  obtain ⟨⟨t, ht⟩, hrec⟩ := hp
  obtain ⟨out, hout⟩ := save_score_eq t p.guesses (some p.user.name)
  obtain ⟨old, hold⟩ := Option.isSome_iff_exists.1 (hread t.bf t.mem t.slot)
  have hword : d.words.getD p.wordno [] = t.bf.take d.n := by
    rw [← ht, WordFile.words, List.getD_eq_getElem?_getD, List.getElem?_map, t.line]
    rfl
  have hboard : board d p.wordno = if 0 < old then some (old, strncpy (cstr (t.bf.drop (d.n + 3))) 8) else none := by
    rw [board, ← ht, t.line, Option.bind_some, recordOf, if_pos t.slot, hold, Option.bind_some]
  rw [hold] at hout
  dsimp only at hout
  rw [Play.save, hword, ← ht, hout]
  by_cases hkept : 0 < old ∧ old ≤ p.guesses.count
  · -- the record is kept
    rw [if_pos hkept]
    refine ⟨d, rfl, Same.refl d, hread, fun i => ?_⟩
    split_ifs with hi
    · have hle : old ≤ p.record.1 := hkept.2
      rw [hi, ht, hboard, if_pos hkept.1, better]
      exact (if_pos hle).symm
    · rfl
  · -- there is a new one
    rw [if_neg hkept]
    have hline : scoreLine d.n (t.bf.take d.n) p.guesses.count p.user.name =
        t.line_with (slot p.guesses.count p.user.name) := by
      rw [scoreLine_eq t.length_word t.n_le, Target.line_with, List.append_assoc]
    have hlen := length_slot p.guesses.count p.user.name
    have hnl : '\n' ∉ slot p.guesses.count p.user.name := by
      rw [slot_eq p.guesses.lt, behind_eq ((length_printInt03_eq_iff _).2 hrec.1)]
      have hdigits : '\n' ∉ printInt03 p.guesses.count := fun hmem => absurd (printInt03_digits _ _ hmem) (by decide)
      simp [hdigits, hrec.2.2.2, List.mem_replicate]
    obtain ⟨hrecord, hatoi⟩ := recordOf_line_with t hrec
    obtain ⟨d', hfile, hsame, hlines⟩ :=
      t.rewrite hlen hnl (not_mem_slot p.guesses.count p.user.text (by decide) (by decide))
      (isdigit_slot p.guesses.count p.user.name)
    have hlt : t.wordno < d.lines.length := (List.getElem?_eq_some_iff.1 t.line).1
    refine ⟨d', by rw [hline, hfile]; rfl, hsame, ?_, fun i => ?_⟩
    · intro bf hbf hslot
      rw [hsame.n] at hslot ⊢
      rw [hlines] at hbf
      rcases List.mem_or_eq_of_mem_set hbf with hbf | rfl
      · exact hread bf hbf hslot
      · rw [hatoi]
        rfl
    · rw [board, hsame.n, hlines]
      split_ifs with hi
      · rw [hi, List.getElem?_set_self hlt, Option.bind_some, hrecord, ht, hboard]
        by_cases hpos : 0 < old
        · have hgt : ¬old ≤ p.record.1 := fun hle => hkept ⟨hpos, hle⟩
          rw [if_pos hpos, better]
          exact (if_neg hgt).symm
        · rw [if_neg hpos]
          rfl
      · rw [List.getElem?_set_ne (Ne.symm hi), board]

/-- the games with a word -/
def gamesOn (i : ℕ) (plays : List Play) : List (ℤ × Str) := (plays.filter fun p => p.wordno = i).map Play.record

theorem foldl_better (o : Option (ℤ × Str)) (rs : List (ℤ × Str)) :
    rs.foldl better o = List.argmin Prod.fst (o.toList ++ rs) := by
  induction rs using List.reverseRecOn with
  | nil => cases o <;> simp
  | append_singleton rs r ih =>
    rw [List.foldl_append, ih, ← List.append_assoc, List.argmin_concat]
    cases List.argmin Prod.fst (o.toList ++ rs) with
    | none => rfl
    | some old =>
      rw [List.foldl_cons, List.foldl_nil, better]
      simp only [← not_lt, ite_not]

theorem Play.Fair.same {d' : WordFile} {p : Play} (hp : p.Fair d) (hsame : Same d d') : p.Fair d' := by
  obtain ⟨⟨t, ht⟩, hrec⟩ := hp
  have hslots := congrArg (·[p.wordno]?) hsame.slots
  simp only [List.getElem?_map, ← ht, t.line, Option.map_some, t.slot, Option.map_eq_some_iff] at hslots
  obtain ⟨bf, hline, hslot⟩ := hslots
  exact ⟨⟨⟨t.wordno, bf, hline, by rw [hsame.n, hslot]⟩, ht⟩, hrec⟩

theorem Play.save_same {d' : WordFile} (hsame : Same d d') : Play.save d' = Play.save d := by
  funext file p
  rw [Play.save, Play.save, hsame.n, hsame.words, WordFile.line1, hsame.header, WordFile.line1]

theorem plays_better {plays : List Play} (hread : Readable d) (hplays : ∀ p ∈ plays, p.Fair d) :
    ∃ d' : WordFile, plays.foldlM (Play.save d) d.file = some d'.file ∧ Same d d' ∧
      ∀ i, board d' i = (gamesOn i plays).foldl better (board d i) := by
  induction plays generalizing d with
  | nil => exact ⟨d, rfl, Same.refl d, fun _ => rfl⟩
  | cons p plays ih =>
    obtain ⟨hp, hrest⟩ := List.forall_mem_cons.1 hplays
    obtain ⟨d₁, hsave, hsame, hread₁, hboard⟩ := play_recorded hread hp
    obtain ⟨d', hsaves, hsame', hboard'⟩ := ih hread₁ fun q hq => (hrest q hq).same hsame
    rw [Play.save_same hsame] at hsaves
    refine ⟨d', ?_, hsame.trans hsame', fun i => ?_⟩
    · rw [List.foldlM_cons, hsave]
      exact hsaves
    · rw [hboard' i, hboard i]
      by_cases hi : p.wordno = i
      · have hgames : gamesOn i (p :: plays) = p.record :: gamesOn i plays := by simp [gamesOn, hi]
        rw [if_pos hi.symm, hgames, List.foldl_cons]
      · have hgames : gamesOn i (p :: plays) = gamesOn i plays := by simp [gamesOn, hi]
        rw [if_neg (Ne.symm hi), hgames]

theorem filterMap_range {α β : Type} (f : α → Option β) (l : List α) :
    (List.range l.length).filterMap (fun i => l[i]?.bind f) = l.filterMap f := by
  induction l with
  | nil => rfl
  | cons a l ih =>
    rw [List.length_cons, List.range_succ_eq_map, List.filterMap_cons, List.filterMap_map, List.filterMap_cons, ← ih]
    rfl

/-- the best record of a word after some games, the first of the best ones if there are several -/
noncomputable def best (d : WordFile) (plays : List Play) (i : ℕ) : Option (ℤ × Str) :=
  List.argmin Prod.fst ((board d i).toList ++ gamesOn i plays)

/-- **Games and table.** Whoever plays and in whatever order, each word then has the first of its best games as its
record, and the table that is shown has one row for each player with a record, with the number of these words and the
sum of the guesses. -/
theorem plays_shown (d : WordFile) (hread : Readable d) (plays : List Play) (hplays : ∀ p ∈ plays, p.Fair d) :
    ∃ d' : WordFile, plays.foldlM (Play.save d) d.file = some d'.file ∧ Same d d' ∧ (∀ i, board d' i = best d plays i) ∧
      ∀ average bf out, show_score average d'.n bf d'.lines = some out →
        ∃ rows, Rows rows ((List.range d.lines.length).filterMap (best d plays)) ∧
          out = "user     games average\n----------------------\n".toList ++ rows.flatMap (Sc.row average) := by
  obtain ⟨d', hsaves, hsame, hboard⟩ := plays_better hread hplays
  have hbest : ∀ i, board d' i = best d plays i := fun i => (hboard i).trans (foldl_better _ _)
  refine ⟨d', hsaves, hsame, hbest, fun average bf out hout => ?_⟩
  obtain ⟨scores, hgather, rfl⟩ := Option.map_eq_some_iff.1 hout
  have hlength : d'.lines.length = d.lines.length := by
    have hwords := congrArg List.length hsame.words
    rwa [WordFile.words, WordFile.words, List.length_map, List.length_map] at hwords
  have hrecords : d'.lines.filterMap (recordOf d'.n) = (List.range d.lines.length).filterMap (best d plays) := by
    rw [← filterMap_range, hlength]
    exact List.filterMap_congr fun i _ => hbest i
  have hlines : ∀ line ∈ d'.lines, d'.n + 3 ≤ line.length ∧ '\x00' ∉ line := fun line hline =>
    ⟨by rw [d'.length_line hline]; omega, d'.nul_not_mem hline⟩
  exact ⟨_, hrecords ▸ records_of_lines hlines bf ▸ rows_of_gather hgather, rfl⟩

/-- the word of the file with one word, won by `al`, by `jan` with fewer guesses, and by `al` with as many -/
def threePlays : List Play :=
  [⟨0, ⟨5, by decide, by decide⟩, ⟨"al".toList, by decide⟩⟩, ⟨0, ⟨2, by decide, by decide⟩, ⟨"jan".toList, by decide⟩⟩,
    ⟨0, ⟨2, by decide, by decide⟩, ⟨"al".toList, by decide⟩⟩]

theorem threePlays_shown : ∃ d' : WordFile,
    threePlays.foldlM (Play.save oneWord.toWordFile) oneWord.file = some d'.file ∧
    board d' 0 = some (2, "jan*****".toList) := by
  have hread : Readable oneWord.toWordFile := by
    have hlines : oneWord.lines = ["ab000********\n".toList] := by decide
    intro bf hbf _
    rw [hlines] at hbf
    rw [List.mem_singleton.1 hbf]
    decide
  have hletter : ∀ user : Str, user = "al".toList ∨ user = "jan".toList → ¬StartsWithDigit 10 user := by
    rintro user (rfl | rfl) ⟨c, hc, hdigit⟩
    · cases hc
      exact absurd hdigit (by decide)
    · cases hc
      exact absurd hdigit (by decide)
  have hfair : ∀ p ∈ threePlays, p.Fair oneWord.toWordFile := by
    have hone : ∃ t : Target oneWord.toWordFile, t.wordno = 0 := ⟨onlyTarget, rfl⟩
    refine List.forall_mem_cons.2 ⟨?_, List.forall_mem_cons.2 ⟨?_, List.forall_mem_singleton.2 ?_⟩⟩
    · exact ⟨hone, by decide, hletter _ (Or.inl rfl), by decide, by decide⟩
    · exact ⟨hone, by decide, hletter _ (Or.inr rfl), by decide, by decide⟩
    · exact ⟨hone, by decide, hletter _ (Or.inl rfl), by decide, by decide⟩
  obtain ⟨d', hsaves, -, hbest, -⟩ := plays_shown oneWord.toWordFile hread threePlays hfair
  have hgames : (gamesOn 0 threePlays).foldl better (board oneWord.toWordFile 0) = some (2, "jan*****".toList) := by
    decide
  exact ⟨d', hsaves, (hbest 0).trans ((foldl_better _ _).symm.trans hgames)⟩

end MNetSoft.Games.Letter
