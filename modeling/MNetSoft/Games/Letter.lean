/-
The dictionary of `letter`, a game of guessing words (`letter.c`). After a header there is a line for each word: `n`
letters, eleven characters for the record, and a newline. `hash_file` checks that all lines are of this length, and
keeps where the words of each letter begin. `find_word` reads from there on until it has found the word or is past it.

When the file ends before that, `find_word` ends without a `return`: what its caller gets is undefined. It also returns
an int, so that an offset from 2^31 on is not what is returned.
- `hashLoop_spec`: what `hash_file` keeps for a letter.
- `findLoop_spec`: how the search ends.
- `find_word_right_iff`: it finds what is there if and only if the guess is not beyond the last word, or its letter has
  no words, and the offset of its line is an int.
- `past_the_end`: a guess beyond the last word.
-/
import Mathlib.Tactic
import Mathlib.Order.Lex
import MNetSoft.Core.CString
import MNetSoft.Core.Numerals
import MNetSoft.Core.Pieces

namespace MNetSoft.Games.Letter

open MNetSoft.CString MNetSoft.Numerals

/-! ## Model -/

def BFSZ : ℕ := 1024

def islower (c : Char) : Bool := 'a' ≤ c ∧ c ≤ 'z'

/-- `c - 'a'` -/
def letterIndex (c : Char) : ℕ := c.toNat - 97

/-- what `hash_file` has in its variables, and where it is in the file -/
structure Hashing where
  lastchar : Char
  hash : List ℕ
  pos : ℕ

/-- one line; `none` if the program ends -/
def hashLine (n : ℕ) (st : Hashing) (bf : Str) : Option Hashing :=
  let st := { st with pos := st.pos + bf.length }
  let c := bf.headD '\x00'
  if (cstr bf).length ≠ n + 12 then none
  else if c = st.lastchar then some st
  else if !islower c then none
  else
    -- from the letter behind the last one on
    let gap := List.range' (st.lastchar.toNat + 1 - 97) (letterIndex c - (st.lastchar.toNat + 1 - 97))
    let hash := gap.foldl (fun hash i => hash.set i 0) st.hash
    some { st with lastchar := c, hash := hash.set (letterIndex c) (st.pos - (n + 12)) }

def hashLoop (n : ℕ) : Hashing → List Str → Option Hashing
  | st, [] => some st
  | st, bf :: rest => (hashLine n st bf).bind fun st => hashLoop n st rest

/-- where the words of each letter begin, 0 if there are none; `hash` has zeros before -/
def hash_file (n line1 : ℕ) (file : Str) : Option (List ℕ) :=
  (hashLoop n ⟨Char.ofNat 96, List.replicate 26 0, line1⟩ (fgetsAll BFSZ (file.drop line1))).map Hashing.hash

/-- the loop of `find_word` from a place in the file on; `none` if it ends without a `return` -/
def findLoop (n : ℕ) (word : Str) : ℕ → List Str → Option ℤ
  | _, [] => none
  | pos, bf :: rest =>
    let pos := pos + bf.length
    let c := strncmp word bf n
    if c = 0 then some (toInt (pos - (n + 12) : ℤ))
    else if c < 0 then some 0
    else findLoop n word pos rest

/-- the offset of the line of a word, 0 if it is not there; a word without letters is looked for outside of `hash` -/
def find_word (n : ℕ) (file : Str) (hash : List ℕ) : Str → Option ℤ
  | [] => none
  | c :: word =>
    let start := hash.getD (letterIndex c) 0
    if start = 0 then some 0 else findLoop n (c :: word) start (fgetsAll BFSZ (file.drop start))

/-! ## Word files -/

/-- a text with a header, whose other lines `hash_file` accepts -/
structure WordFile where
  n : ℕ
  header : Str
  body : Str
  hash : List ℕ
  header_ne : header ≠ []
  text : '\x00' ∉ body
  accepted : hash_file n header.length (header ++ body) = some hash

namespace WordFile

variable (d : WordFile)

def file : Str := d.header ++ d.body

def line1 : ℕ := d.header.length

def lines : List Str := fgetsAll BFSZ d.body

def words : List Str := d.lines.map (List.take d.n)

/-- where the line with this number begins -/
def offset (i : ℕ) : ℕ := d.line1 + i * (d.n + 12)

def find_word (guess : Str) : Option ℤ := Letter.find_word d.n d.file d.hash guess

end WordFile

theorem two_le_BFSZ : 2 ≤ BFSZ := by decide

/-- a word file in alphabetical order -/
structure Dictionary extends WordFile where
  increasing : toWordFile.words.Pairwise (· ≤ ·)

/-- `n` small letters -/
structure Guess (n : ℕ) where
  word : Str
  length_word : word.length = n
  lower : ∀ c ∈ word, islower c = true

/-- the guess is found where its line is, and nothing is found if it has none -/
def Right (d : Dictionary) (guess : Str) : Prop :=
  d.find_word guess = some (if guess ∈ d.words then (d.offset (d.words.idxOf guess) : ℤ) else 0)

/-! ## The table of letters -/

section Hash

variable {n line1 : ℕ} {st st' : Hashing} {bf : Str} {ls : List Str}

theorem hashLoop_length (h : hashLoop n st ls = some st') : ∀ bf ∈ ls, (cstr bf).length = n + 12 := by
  induction ls generalizing st with
  | nil => exact fun _ h => absurd h List.not_mem_nil
  | cons bf ls ih =>
    rw [hashLoop, Option.bind_eq_some_iff] at h
    obtain ⟨st₁, hline, hrest⟩ := h
    refine List.forall_mem_cons.2 ⟨?_, ih hrest⟩
    by_contra hne
    rw [hashLine] at hline
    dsimp only at hline
    rw [if_pos hne] at hline
    cases hline

/-- indices at which zeros have been put -/
theorem getD_zeros (idx : List ℕ) (hash : List ℕ) (k : ℕ) :
    (idx.foldl (fun hash i => hash.set i 0) hash).getD k 0 = if k ∈ idx then 0 else hash.getD k 0 := by
  induction idx generalizing hash with
  | nil => simp
  | cons i idx ih =>
    have hset : (hash.set i 0).getD k 0 = if k = i then 0 else hash.getD k 0 := by
      simp only [List.getD_eq_getElem?_getD, List.getElem?_set]
      by_cases hk : k = i
      · subst hk
        by_cases hlt : k < hash.length
        · simp [hlt]
        · simp [hlt]
      · simp [hk, Ne.symm hk]
    rw [List.foldl_cons, ih, hset]
    by_cases hk : k ∈ idx
    · rw [if_pos hk, if_pos (List.mem_cons_of_mem i hk)]
    · rw [if_neg hk]
      by_cases hki : k = i
      · rw [if_pos hki, if_pos (hki ▸ List.mem_cons_self)]
      · rw [if_neg hki, if_neg fun h => (List.mem_cons.1 h).elim hki hk]

theorem length_zeros (idx : List ℕ) (hash : List ℕ) :
    (idx.foldl (fun hash i => hash.set i 0) hash).length = hash.length := by
  induction idx generalizing hash with
  | nil => rfl
  | cons i idx ih => rw [List.foldl_cons, ih, List.length_set]

/-- what is known of the table while the file is read: there is nothing yet for the letters behind the last one -/
structure Filling (st : Hashing) : Prop where
  length_hash : st.hash.length = 26
  lastchar_le : 96 ≤ st.lastchar.toNat
  later : ∀ c, islower c = true → st.lastchar < c → st.hash.getD (letterIndex c) 0 = 0

theorem islower_iff {c : Char} : islower c = true ↔ 97 ≤ c.toNat ∧ c.toNat ≤ 122 := by
  rw [islower, decide_eq_true_eq]
  exact Iff.rfl

/-- a line of a letter that has had lines before, or the first line of a letter -/
theorem hashLine_spec (hst : Filling st) (hlen : bf.length = n + 12) (hge : st.lastchar ≤ bf.headD '\x00')
    (h : hashLine n st bf = some st') :
    Filling st' ∧ st'.pos = st.pos + (n + 12) ∧ st'.lastchar = bf.headD '\x00' ∧
      ∀ c, islower c = true → st'.hash.getD (letterIndex c) 0 =
        if c = bf.headD '\x00' ∧ c ≠ st.lastchar then st.pos else st.hash.getD (letterIndex c) 0 := by
  rw [hashLine, hlen] at h
  dsimp only at h
  split_ifs at h with hcstr hlast hlower
  · cases h
    refine ⟨⟨hst.length_hash, hst.lastchar_le, hst.later⟩, rfl, hlast.symm, fun c _ => ?_⟩
    rw [if_neg fun hc => hc.2 (hc.1.trans hlast)]
  · cases h
    rw [Bool.not_eq_true', Bool.not_eq_false] at hlower
    obtain ⟨hlo, hhi⟩ := islower_iff.1 hlower
    have hlt : st.lastchar < bf.headD '\x00' := lt_of_le_of_ne hge (Ne.symm hlast)
    have hlt' : st.lastchar.toNat < (bf.headD '\x00').toNat := hlt
    have hget : ∀ c, islower c = true → (List.set (List.foldl (fun hash i => hash.set i 0) st.hash
        (List.range' (st.lastchar.toNat + 1 - 97) (letterIndex (bf.headD '\x00') - (st.lastchar.toNat + 1 - 97))))
        (letterIndex (bf.headD '\x00')) (st.pos + (n + 12) - (n + 12))).getD (letterIndex c) 0 =
          if c = bf.headD '\x00' ∧ c ≠ st.lastchar then st.pos else st.hash.getD (letterIndex c) 0 := by
      intro c hc
      obtain ⟨hclo, hchi⟩ := islower_iff.1 hc
      by_cases heq : c = bf.headD '\x00'
      · have hidx : letterIndex (bf.headD '\x00') < 26 := by
          rw [letterIndex]
          omega
        rw [if_pos ⟨heq, heq ▸ hlt.ne'⟩, heq, List.getD_eq_getElem?_getD, List.getElem?_set_self
          (by rw [length_zeros, hst.length_hash]; exact hidx), Option.getD_some, Nat.add_sub_cancel]
      · have hne : letterIndex (bf.headD '\x00') ≠ letterIndex c := by
          intro hidx
          refine heq (Char.toNat_inj.1 ?_)
          rw [letterIndex, letterIndex] at hidx
          omega
        rw [if_neg fun hc => heq hc.1, List.getD_eq_getElem?_getD, List.getElem?_set_ne hne,
          ← List.getD_eq_getElem?_getD, getD_zeros]
        split_ifs with hgap
        · rw [hst.later c hc]
          rw [List.mem_range'_1, letterIndex] at hgap
          have hless : st.lastchar.toNat < c.toNat := by
            have hle := hst.lastchar_le
            omega
          exact hless
        · rfl
    refine ⟨⟨?_, by dsimp only; omega, fun c hc hlater => ?_⟩, rfl, rfl, hget⟩
    · dsimp only
      rw [List.length_set, length_zeros, hst.length_hash]
    · dsimp only at hlater ⊢
      rw [hget c hc, if_neg fun h => hlater.ne' h.1]
      exact hst.later c hc (hlt.trans hlater)

/-- where the lines of a letter begin, if `pos` is where the first of the lines begins -/
def Begins (n : ℕ) (ls : List Str) (pos : ℕ) (c : Char) (v : ℕ) : Prop :=
  (v = 0 ∧ ∀ l ∈ ls, l.headD '\x00' ≠ c) ∨
    ∃ pre l post, ls = pre ++ l :: post ∧ l.headD '\x00' = c ∧ (∀ l ∈ pre, l.headD '\x00' ≠ c) ∧
      v = pos + pre.length * (n + 12)

theorem Begins.cons {pos v : ℕ} {c : Char} (hne : bf.headD '\x00' ≠ c) (h : Begins n ls (pos + (n + 12)) c v) :
    Begins n (bf :: ls) pos c v := by
  rcases h with ⟨hv, hall⟩ | ⟨pre, l, post, rfl, hl, hpre, hv⟩
  · exact Or.inl ⟨hv, List.forall_mem_cons.2 ⟨hne, hall⟩⟩
  · refine Or.inr ⟨bf :: pre, l, post, rfl, hl, List.forall_mem_cons.2 ⟨hne, hpre⟩, ?_⟩
    rw [hv, List.length_cons]
    ring

/-- **The table**, when the first letters are in order. -/
theorem hashLoop_spec (hst : Filling st) (hlen : ∀ bf ∈ ls, bf.length = n + 12)
    (hsorted : (st.lastchar :: ls.map (·.headD '\x00')).Pairwise (· ≤ ·)) (h : hashLoop n st ls = some st') :
    ∀ c, islower c = true →
      if c ≤ st.lastchar then st'.hash.getD (letterIndex c) 0 = st.hash.getD (letterIndex c) 0
      else Begins n ls st.pos c (st'.hash.getD (letterIndex c) 0) := by
  induction ls generalizing st with
  | nil =>
    cases h
    intro c hc
    split_ifs with hle
    · rfl
    · exact Or.inl ⟨hst.later c hc (not_le.1 hle), fun _ hmem => absurd hmem List.not_mem_nil⟩
  | cons bf ls ih =>
    rw [hashLoop, Option.bind_eq_some_iff] at h
    obtain ⟨st₁, hline, hrest⟩ := h
    obtain ⟨hbf, hls⟩ := List.forall_mem_cons.1 hlen
    rw [List.map_cons] at hsorted
    obtain ⟨hfirst, hsorted⟩ := List.pairwise_cons.1 hsorted
    have hge : st.lastchar ≤ bf.headD '\x00' := hfirst _ List.mem_cons_self
    obtain ⟨hst₁, hpos, hlast, hget⟩ := hashLine_spec hst hbf hge hline
    intro c hc
    have hih := ih hst₁ hls (hlast ▸ hsorted) hrest c hc
    rw [hlast, hpos] at hih
    by_cases hle : c ≤ st.lastchar
    · have hsame : ¬(c = bf.headD '\x00' ∧ c ≠ st.lastchar) := fun h => h.2 (le_antisymm hle (h.1 ▸ hge))
      rw [if_pos hle]
      rwa [if_pos (hle.trans hge), hget c hc, if_neg hsame] at hih
    · rw [if_neg hle]
      by_cases heq : c = bf.headD '\x00'
      · rw [if_pos heq.le, hget c hc, if_pos ⟨heq, fun h => hle h.le⟩] at hih
        exact Or.inr ⟨[], bf, ls, rfl, heq.symm, fun _ h => absurd h List.not_mem_nil,
          by rw [hih, List.length_nil, Nat.zero_mul, Nat.add_zero]⟩
      · have hsame := (hget c hc).trans (if_neg fun h => heq h.1)
        rw [hsame] at hih
        split_ifs at hih with hlt
        · refine Or.inl ⟨hih.trans (hst.later c hc (not_le.1 hle)), fun l hl => ?_⟩
          have hbefore := lt_of_le_of_ne hlt heq
          rcases List.mem_cons.1 hl with rfl | hl
          · exact hbefore.ne'
          · exact (hbefore.trans_le ((List.pairwise_cons.1 hsorted).1 _ (List.mem_map_of_mem hl))).ne'
        · exact hih.cons (Ne.symm heq)

end Hash

/-! ## The search -/

section Find

variable {n : ℕ} {word : Str} {ls : List Str}

theorem strncmp_word (hword : word.length = n) (bf : Str) : strncmp word bf n = strcmp word (bf.take n) := by
  rw [strncmp, List.take_of_length_le hword.le]

/-- **How the search ends**: with the line of the word, past its place, or with the file. -/
theorem findLoop_spec (hword : word.length = n) (hlen : ∀ bf ∈ ls, bf.length = n + 12)
    (hsorted : (ls.map (List.take n)).Pairwise (· ≤ ·)) (pos : ℕ) :
    findLoop n word pos ls =
      if word ∈ ls.map (List.take n) then some (toInt ((pos + (ls.map (List.take n)).idxOf word * (n + 12) : ℕ) : ℤ))
      else if ∃ w ∈ ls.map (List.take n), word < w then some 0 else none := by
  induction ls generalizing pos with
  | nil => simp [findLoop]
  | cons bf ls ih =>
    obtain ⟨hbf, hls⟩ := List.forall_mem_cons.1 hlen
    rw [List.map_cons] at hsorted
    obtain ⟨hfirst, hsorted⟩ := List.pairwise_cons.1 hsorted
    rw [findLoop, strncmp_word hword, hbf, List.map_cons]
    rcases lt_trichotomy word (bf.take n) with hlt | heq | hgt
    · have hneg := (strcmp_neg _ _).2 hlt
      have hnot : word ∉ bf.take n :: ls.map (List.take n) := by
        intro hmem
        rcases List.mem_cons.1 hmem with heq | hmem
        · exact hlt.ne heq
        · exact absurd (hfirst _ hmem) (not_le.2 hlt)
      rw [if_neg hneg.ne, if_pos hneg, if_neg hnot, if_pos ⟨_, List.mem_cons_self, hlt⟩]
    · rw [if_pos ((strcmp_zero _ _).2 heq), if_pos (heq ▸ List.mem_cons_self), heq, List.idxOf_cons_self]
      push_cast
      ring_nf
    · have hpos := (strcmp_pos _ _).2 hgt
      have hmem : word ∈ bf.take n :: ls.map (List.take n) ↔ word ∈ ls.map (List.take n) := by
        rw [List.mem_cons, or_iff_right hgt.ne']
      have hbeyond : (∃ w ∈ bf.take n :: ls.map (List.take n), word < w) ↔ ∃ w ∈ ls.map (List.take n), word < w := by
        simp [hgt.asymm]
      rw [if_neg hpos.ne', if_neg hpos.asymm, ih hls hsorted, List.idxOf_cons_ne _ hgt.ne]
      simp only [hmem, hbeyond]
      congr 4
      rw [Nat.succ_eq_add_one]
      ring

end Find

/-! ## Word files -/

namespace WordFile

variable (d : WordFile)

theorem flatten_lines : d.lines.flatten = d.body := flatten_fgetsAll two_le_BFSZ d.body

theorem nul_not_mem {l : Str} (hl : l ∈ d.lines) : '\x00' ∉ l := fun h =>
  d.text (d.flatten_lines ▸ List.mem_flatten.2 ⟨l, hl, h⟩)

theorem hashLoop_eq : ∃ st, hashLoop d.n ⟨Char.ofNat 96, List.replicate 26 0, d.line1⟩ d.lines = some st ∧
    st.hash = d.hash := by
  have h := d.accepted
  rw [hash_file, List.drop_left, Option.map_eq_some_iff] at h
  exact h

/-- all lines have the length that `hash_file` asks for -/
theorem length_line {l : Str} (hl : l ∈ d.lines) : l.length = d.n + 12 := by
  obtain ⟨st, hst, -⟩ := d.hashLoop_eq
  rw [← hashLoop_length hst l hl, cstr_of_not_mem (d.nul_not_mem hl)]

/-- the file from the beginning of a line on -/
theorem drop_offset {pre post : List Str} (h : d.lines = pre ++ post) :
    d.file.drop (d.offset pre.length) = post.flatten := by
  have hpre : pre.flatten.length = pre.length * (d.n + 12) := by
    rw [List.length_flatten, List.map_congr_left (g := fun _ => d.n + 12), List.map_const', List.sum_replicate,
      smul_eq_mul]
    exact fun l hl => d.length_line (h ▸ List.mem_append_left post hl)
  have hfile : d.file = d.header ++ pre.flatten ++ post.flatten := by
    rw [file, ← d.flatten_lines, h, List.flatten_append, List.append_assoc]
  rw [hfile, List.drop_left']
  rw [List.length_append, hpre]
  rfl

theorem fgetsAll_offset {pre post : List Str} (h : d.lines = pre ++ post) :
    fgetsAll BFSZ (d.file.drop (d.offset pre.length)) = post := by
  have hpieces := (pieces_fgetsAll two_le_BFSZ d.body).1
  rw [d.drop_offset h]
  exact fgetsAll_flatten two_le_BFSZ (hpieces.sublist (h ▸ List.sublist_append_right pre post : post.Sublist d.lines))

/-- the first line of all begins with a small letter or the character before -/
theorem le_head {l : Str} {ls : List Str} (h : d.lines = l :: ls) : Char.ofNat 96 ≤ l.headD '\x00' := by
  obtain ⟨st, hst, -⟩ := d.hashLoop_eq
  rw [h, hashLoop, Option.bind_eq_some_iff] at hst
  obtain ⟨st₁, hline, -⟩ := hst
  rw [hashLine] at hline
  dsimp only at hline
  split_ifs at hline with hlen hlast hlower
  · exact hlast.ge
  · rw [Bool.not_eq_true', Bool.not_eq_false] at hlower
    have hlo : 97 ≤ (l.headD '\x00').toNat := (islower_iff.1 hlower).1
    have hle : (Char.ofNat 96).toNat ≤ (l.headD '\x00').toNat := le_trans (by decide) hlo
    exact hle

end WordFile

/-- the order of texts is that of their first characters -/
theorem headD_le {a b : Str} (ha : a ≠ []) (hb : b ≠ []) (h : a ≤ b) : a.headD '\x00' ≤ b.headD '\x00' := by
  cases a with
  | nil => exact absurd rfl ha
  | cons c a =>
    cases b with
    | nil => exact absurd rfl hb
    | cons d b => exact not_lt.1 fun hlt => absurd (List.cons_lt_cons_iff.2 (Or.inl hlt)) (not_lt.2 h)

theorem headD_take {n : ℕ} (hn : 0 < n) (l : Str) : (l.take n).headD '\x00' = l.headD '\x00' := by
  obtain ⟨n, rfl⟩ := Nat.exists_eq_succ_of_ne_zero hn.ne'
  cases l <;> rfl

namespace Dictionary

variable (d : Dictionary)

theorem take_ne_nil (hn : 0 < d.n) {l : Str} (hl : l ∈ d.lines) : l.take d.n ≠ [] := by
  have hlen := d.length_line hl
  intro hnil
  have h := congrArg List.length hnil
  rw [List.length_take, List.length_nil] at h
  omega

/-- the first letters are in order -/
theorem heads_sorted (hn : 0 < d.n) : (Char.ofNat 96 :: d.lines.map (·.headD '\x00')).Pairwise (· ≤ ·) := by
  have hsorted : (d.lines.map (·.headD '\x00')).Pairwise (· ≤ ·) := by
    have hwords := List.pairwise_map.1 d.increasing
    refine List.pairwise_map.2 (hwords.imp_of_mem fun {a b} ha hb hle => ?_)
    rw [← headD_take hn a, ← headD_take hn b]
    exact headD_le (d.take_ne_nil hn ha) (d.take_ne_nil hn hb) hle
  refine List.pairwise_cons.2 ⟨?_, hsorted⟩
  cases hlines : d.lines with
  | nil => exact fun _ h => absurd h List.not_mem_nil
  | cons l ls =>
    have hfirst := d.le_head hlines
    rw [hlines, List.map_cons] at hsorted
    exact List.forall_mem_cons.2 ⟨hfirst, fun c hc => hfirst.trans ((List.pairwise_cons.1 hsorted).1 c hc)⟩

/-- where the words of a letter begin -/
theorem begins (hn : 0 < d.n) {c : Char} (hc : islower c = true) :
    Begins d.n d.lines d.line1 c (d.hash.getD (letterIndex c) 0) := by
  obtain ⟨st, hst, hhash⟩ := d.hashLoop_eq
  have hstart : Filling ⟨Char.ofNat 96, List.replicate 26 0, d.line1⟩ :=
    ⟨rfl, (by decide : 96 ≤ (Char.ofNat 96).toNat), fun c _ _ => by
      simp only [List.getD_eq_getElem?_getD, List.getElem?_replicate]
      split_ifs <;> rfl⟩
  have hspec := hashLoop_spec hstart (fun l hl => d.length_line hl) (d.heads_sorted hn) hst c hc
  rwa [if_neg, hhash] at hspec
  intro hle
  have hlo := (islower_iff.1 hc).1
  have hle' : c.toNat ≤ (Char.ofNat 96).toNat := hle
  exact absurd (hlo.trans hle') (by decide)

variable {d}

/-- **What `find_word` returns** -/
theorem find_word_eq (hn : 0 < d.n) (guess : Guess d.n) :
    d.find_word guess.word =
      if guess.word ∈ d.words then some (toInt (d.offset (d.words.idxOf guess.word)))
      else if (∀ w ∈ d.words, w.headD '\x00' ≠ guess.word.headD '\x00') ∨ ∃ w ∈ d.words, guess.word < w then some 0
      else none := by
  obtain ⟨word, hlen, hlower⟩ := guess
  dsimp only
  cases word with
  | nil =>
    rw [List.length_nil] at hlen
    omega
  | cons c word =>
    have hhead : ∀ l ∈ d.lines, (l.take d.n).headD '\x00' = l.headD '\x00' := fun l _ => headD_take hn l
    rw [WordFile.find_word, find_word]
    rcases d.begins hn (hlower c List.mem_cons_self) with ⟨hzero, hall⟩ | ⟨pre, l, post, hlines, hl, hpre, hv⟩
    · have hfirst : ∀ w ∈ d.words, w.headD '\x00' ≠ c := by
        intro w hw
        obtain ⟨l, hl, rfl⟩ := List.mem_map.1 hw
        rw [hhead l hl]
        exact hall l hl
      rw [if_pos hzero, if_neg fun hmem => hfirst _ hmem rfl]
      exact (if_pos (Or.inl hfirst)).symm
    · have hlen' : ∀ bf ∈ l :: post, bf.length = d.n + 12 := fun bf hbf =>
        d.length_line (hlines ▸ List.mem_append_right pre hbf)
      have hwords : d.words = pre.map (List.take d.n) ++ (l :: post).map (List.take d.n) := by
        rw [WordFile.words, hlines, List.map_append]
      have hsorted := d.increasing
      rw [hwords] at hsorted
      obtain ⟨-, hsorted, hbefore⟩ := List.pairwise_append.1 hsorted
      -- the lines before those of the letter have smaller words
      have hsmall : ∀ w ∈ pre.map (List.take d.n), ¬c :: word ≤ w := by
        intro w hw hle
        obtain ⟨l', hl', rfl⟩ := List.mem_map.1 hw
        have hmem' : l' ∈ d.lines := hlines ▸ List.mem_append_left _ hl'
        have hmem : l ∈ d.lines := hlines ▸ List.mem_append_right pre List.mem_cons_self
        have hge := headD_le (List.cons_ne_nil c word) (d.take_ne_nil hn hmem') hle
        have hup := headD_le (d.take_ne_nil hn hmem') (d.take_ne_nil hn hmem)
          (hbefore _ hw _ (List.mem_map_of_mem List.mem_cons_self))
        rw [hhead l' hmem'] at hge hup
        rw [hhead l hmem, hl] at hup
        exact hpre l' hl' (le_antisymm hup hge)
      have hnot : c :: word ∉ pre.map (List.take d.n) := fun hmem => hsmall _ hmem le_rfl
      have hstart : d.hash.getD (letterIndex c) 0 = d.offset pre.length := hv
      have hpos : d.offset pre.length ≠ 0 := by
        have hline1 : 0 < d.line1 := List.length_pos_iff.2 d.header_ne
        rw [WordFile.offset]
        omega
      have hletter : ¬∀ w ∈ d.words, w.headD '\x00' ≠ c := by
        intro hall
        have hmem : l ∈ d.lines := hlines ▸ List.mem_append_right pre List.mem_cons_self
        exact hall _ (List.mem_map_of_mem hmem) ((hhead l hmem).trans hl)
      have hbeyond : (∃ w ∈ d.words, c :: word < w) ↔ ∃ w ∈ (l :: post).map (List.take d.n), c :: word < w := by
        rw [hwords]
        constructor
        · rintro ⟨w, hw, hlt⟩
          exact ⟨w, (List.mem_append.1 hw).resolve_left fun hmem => hsmall w hmem hlt.le, hlt⟩
        · rintro ⟨w, hw, hlt⟩
          exact ⟨w, List.mem_append_right _ hw, hlt⟩
      have hmem : c :: word ∈ d.words ↔ c :: word ∈ (l :: post).map (List.take d.n) := by
        rw [hwords, List.mem_append, or_iff_right hnot]
      have hoffset : d.offset pre.length + ((l :: post).map (List.take d.n)).idxOf (c :: word) * (d.n + 12) =
          d.offset (d.words.idxOf (c :: word)) := by
        rw [hwords, List.idxOf_append_of_notMem hnot, List.length_map, WordFile.offset, WordFile.offset]
        ring
      rw [hstart, if_neg hpos, d.fgetsAll_offset hlines, findLoop_spec hlen hlen' hsorted, hoffset]
      simp only [List.headD_cons, hmem, hbeyond, or_iff_right hletter]

end Dictionary

/-- an offset is what an int holds of it -/
theorem toInt_eq_iff (n : ℕ) : toInt n = n ↔ n < 2 ^ 31 := by
  constructor
  · intro h
    have hlt := Int.bmod_lt (x := (n : ℤ)) (m := 2 ^ 32) (by norm_num)
    rw [toInt] at h
    omega
  · intro h
    exact toInt_of_range (by omega) (by exact_mod_cast h)

/-- **When `find_word` is right**: the guess is not beyond the last word, or its letter has no words, and its line is
not too far behind. -/
theorem find_word_right_iff (d : Dictionary) (guess : Guess d.n) :
    Right d guess.word ↔ 0 < d.n ∧
      ((∀ w ∈ d.words, w.headD '\x00' ≠ guess.word.headD '\x00') ∨ ∃ w ∈ d.words, guess.word ≤ w) ∧
      (guess.word ∈ d.words → d.offset (d.words.idxOf guess.word) < 2 ^ 31) := by
  rcases Nat.eq_zero_or_pos d.n with hn | hn
  · have hnil : guess.word = [] := List.length_eq_zero_iff.1 (guess.length_word.trans hn)
    refine iff_of_false (fun h => ?_) fun h => absurd hn h.1.ne'
    rw [Right, hnil] at h
    cases h
  · rw [Right, Dictionary.find_word_eq hn, and_iff_right hn]
    by_cases hmem : guess.word ∈ d.words
    · rw [if_pos hmem, if_pos hmem, Option.some_inj, toInt_eq_iff]
      exact ⟨fun h => ⟨Or.inr ⟨_, hmem, le_rfl⟩, fun _ => h⟩, fun h => h.2 hmem⟩
    · have hlt : (∃ w ∈ d.words, guess.word < w) ↔ ∃ w ∈ d.words, guess.word ≤ w :=
        ⟨fun ⟨w, hw, h⟩ => ⟨w, hw, h.le⟩, fun ⟨w, hw, h⟩ => ⟨w, hw, lt_of_le_of_ne h fun heq => hmem (heq ▸ hw)⟩⟩
      rw [if_neg hmem, if_neg hmem, ← hlt]
      split_ifs with hcond
      · exact iff_of_true rfl ⟨hcond, fun h => absurd h hmem⟩
      · exact iff_of_false (fun h => nomatch h) fun h => hcond h.1

/-- a word file with the one word `ab` -/
def oneWord : Dictionary where
  n := 2
  header := "2 1 1 One\n".toList
  body := "ab000********\n".toList
  hash := 10 :: List.replicate 25 0
  header_ne := by decide
  text := by decide
  accepted := by decide
  increasing := by decide

/-- Nothing is returned for a guess beyond the last word. -/
theorem past_the_end : ¬Right oneWord (⟨"az".toList, rfl, by decide⟩ : Guess oneWord.n).word := by
  unfold Right
  decide

end MNetSoft.Games.Letter
