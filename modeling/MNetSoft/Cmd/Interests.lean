/-
The list of people that `watch` tells of: `initialize` and `interesting` of `watch.c`. The names are those on the
command line and the words of a file, lines with `#` comments; they are looked up in a search tree.

The tree gets pointers. Those to the words of the file point into `line`, a local buffer of `initialize`: every line
that is read is written over the one before, and when `initialize` is done the memory is no longer its own.
- `wordLoop_run`: the tree gets nothing but the words of the line.
- `wordLoop_reading`: it stays in order while the words of one line are put in.
- `stable_initializePeople`: as long as all words are arguments, there are only arguments in the tree.
- `last_line_watched`: what is found with the buffer as `initialize` leaves it.
- `watches_iff`: when the people of the list are found, whatever comes into the memory of the buffer.
- `overwritten`: two lines, and the buffer as the second one leaves it.
-/
import Mathlib.Tactic
import MNetSoft.Core.Pieces
import MNetSoft.Core.SearchTree
import MNetSoft.Core.Words

namespace MNetSoft.Interests

open MNetSoft.CString MNetSoft.SearchTree MNetSoft.Words

/-! ## Model -/

/-- a pointer that is put in the tree: to an argument, or into the buffer `line` -/
inductive Ptr where
  | arg (s : Str)
  | line (p : ℕ)
deriving DecidableEq

/-- what it points to, with what is in the memory of the buffer -/
def Ptr.string (line : Str) : Ptr → Str
  | .arg s => s
  | .line p => cstr (line.drop p)

def cmpstring (line : Str) (a b : Ptr) : ℤ := strcmp (a.string line) (b.string line)

/-- the separators of `strsep` -/
def isSep (c : Char) : Bool := c ∈ [',', ' ', '\t', '\r', '\n', '\x0b', '\x0c']

/-- `strsep`: the token from `p` on is ended, and what is behind it is the next one -/
def strsep (line : Str) (p : ℕ) : Str × Option ℕ :=
  match (cstr (line.drop p)).findIdx? isSep with
  | none => (line, none)
  | some i => (line.set (p + i) '\x00', some (p + i + 1))

structure St (τ : Type*) where
  line : Str
  people : Tree τ Ptr

section Model

variable {τ : Type*} (lib : Balancer τ Ptr)

/-- put a pointer into the tree -/
def watch (line : Str) (u : Ptr) (people : Tree τ Ptr) : Tree τ Ptr := tsearch lib (cmpstring line u) u people

/-- the loop over the words of a line, from `p` on -/
def wordLoop : ℕ → Str → ℕ → Tree τ Ptr → St τ
  | 0, line, _, people => ⟨line, people⟩
  | fuel + 1, line, p, people =>
    let (line, next) := strsep line p
    let people := if (Ptr.line p).string line = [] then people else watch lib line (.line p) people
    match next with
    | none => ⟨line, people⟩
    | some p => wordLoop fuel line p people

/-- a line: it is written into the buffer, and the comment is cut off -/
def readLine (st : St τ) (l : Str) : St τ :=
  let line := l ++ '\x00' :: st.line.drop (l.length + 1)
  let line :=
    match strchr line '#' with
    | none => line
    | some p => line.set p '\x00'
  wordLoop lib (line.length + 1) line 0 st.people

/-- the loop over the arguments -/
def watchArgs (argv : List Str) (line : Str) : Tree τ Ptr :=
  argv.foldl (fun people a => watch lib line (.arg a) people) .leaf

/-- the arguments and the file, `none` if it cannot be opened; the buffer is as it is at first -/
def initializePeople (argv : List Str) (file : Option Str) (line : Str) : St τ :=
  match file with
  | none => ⟨line, watchArgs lib argv line⟩
  | some s => (fgetsAll 1024 s).foldl (readLine lib) ⟨line, watchArgs lib argv line⟩

/-- with what is in the memory of the buffer by then -/
def interesting (line : Str) (people : Tree τ Ptr) (name : Str) : Bool :=
  (find (cmpstring line (.arg name)) people).isSome

/-- the words of a line, in front of a comment -/
def lineWords (l : Str) : List Str := wordsBy isSep ((cstr l).takeWhile (· ≠ '#'))

/-- whatever was in the memory of the buffer, and is there afterwards: interesting are the arguments and the words of
the file -/
def Watches (argv : List Str) (file : Option Str) : Prop :=
  ∀ line after name, interesting after (initializePeople lib argv file line).people name = true ↔
    name ∈ argv ∨ ∃ s ∈ file, ∃ l ∈ rawLines s, name ∈ lineWords l

end Model

/-! ## The words of a line -/

section Line

variable {m : Str} {i k : ℕ}

theorem cstr_drop (hk : k ≤ (cstr m).length) : cstr (m.drop k) = (cstr m).drop k := by
  induction k generalizing m with
  | zero => rfl
  | succ k ih =>
    cases m with
    | nil => simp [cstr] at hk
    | cons c m =>
      rw [cstr_cons] at hk ⊢
      split_ifs at hk ⊢ with hc
      · simp at hk
      · exact ih (Nat.le_of_succ_le_succ hk)

theorem cstr_set (hi : i < (cstr m).length) : cstr (m.set i '\x00') = (cstr m).take i := by
  induction i generalizing m with
  | zero =>
    cases m with
    | nil => rfl
    | cons c m => rfl
  | succ i ih =>
    cases m with
    | nil => rfl
    | cons c m =>
      rw [cstr_cons] at hi ⊢
      split_ifs at hi ⊢ with hc
      · simp at hi
      · rw [List.set_cons_succ, cstr_cons, if_neg hc, ih (Nat.lt_of_succ_lt_succ hi), List.take_succ_cons]

theorem cstr_set_behind (hk : m[k]? = some '\x00') (hi : k < i) : cstr (m.set i '\x00') = cstr m := by
  induction m generalizing i k with
  | nil => rfl
  | cons c m ih =>
    obtain ⟨i, rfl⟩ := Nat.exists_eq_succ_of_ne_zero (Nat.ne_zero_of_lt hi)
    rw [List.set_cons_succ, cstr_cons, cstr_cons]
    split_ifs with hc
    · rfl
    · cases k with
      | zero => exact absurd (Option.some.inj hk) hc
      | succ k => rw [ih hk (Nat.lt_of_succ_lt_succ hi)]

/-- what `strsep` does: the rest of the line is a word, or a word, a separator and the rest behind it -/
theorem strsep_cases (line : Str) (p : ℕ) :
    (strsep line p = (line, none) ∧ ∀ c ∈ cstr (line.drop p), isSep c = false) ∨
      ∃ w c s i, strsep line p = (line.set i '\x00', some (i + 1)) ∧ p ≤ i ∧ i < line.length ∧
        cstr (line.drop p) = w ++ c :: s ∧ isSep c = true ∧ (∀ c ∈ w, isSep c = false) ∧
        cstr ((line.set i '\x00').drop p) = w ∧ cstr ((line.set i '\x00').drop (i + 1)) = s := by
  unfold strsep
  cases h : (cstr (line.drop p)).findIdx? isSep with
  | none => exact Or.inl ⟨rfl, by simpa using h⟩
  | some i =>
    obtain ⟨hi, hsep, hbefore⟩ := List.findIdx?_eq_some_iff_getElem.1 h
    have hlen := length_cstr_le (line.drop p)
    rw [List.length_drop] at hlen
    refine Or.inr ⟨(cstr (line.drop p)).take i, (cstr (line.drop p))[i], (cstr (line.drop p)).drop (i + 1), p + i, rfl,
      Nat.le_add_right p i, by omega, ?_, hsep, ?_, ?_, ?_⟩
    · rw [← List.drop_eq_getElem_cons hi, List.take_append_drop]
    · intro c hc
      obtain ⟨j, hj, rfl⟩ := List.mem_iff_getElem.1 hc
      rw [List.length_take] at hj
      rw [List.getElem_take]
      simpa using hbefore j (by omega)
    · rw [List.drop_set, if_neg (by omega), Nat.add_sub_cancel_left, cstr_set hi]
    · rw [List.drop_set, if_pos (by omega), Nat.add_assoc, ← List.drop_drop, cstr_drop hi]

end Line

/-! ## The run -/

section Run

variable {τ : Type*} {lib : Balancer τ Ptr} {P : Tree τ Ptr → Prop} {argv : List Str}

/-- **The loop over the words.** What is kept when a word of the line is put in, with the buffer as it is then, holds at
the end. -/
theorem wordLoop_run {ws : List Str}
    (hkeep : ∀ line p people, (Ptr.line p).string line ∈ ws → P people → P (watch lib line (.line p) people))
    (fuel : ℕ) (line : Str) (p : ℕ) (people : Tree τ Ptr) (hws : ∀ w ∈ wordsBy isSep (cstr (line.drop p)), w ∈ ws)
    (h : P people) : P (wordLoop lib fuel line p people).people := by
  induction fuel generalizing line p people with
  | zero => exact h
  | succ fuel ih =>
    rw [wordLoop]
    rcases strsep_cases line p with ⟨hlast, hword⟩ | ⟨w, c, s, i, hnext, -, -, hline, hc, hword, hw, hs⟩
    · rw [hlast]
      dsimp only
      split_ifs with hempty
      · exact h
      · have hself : wordsBy isSep (cstr (line.drop p)) = [cstr (line.drop p)] := wordsBy_word hempty hword
        refine hkeep line p people (hws _ ?_) h
        rw [hself]
        exact List.mem_singleton_self _
    · rw [hnext]
      dsimp only
      rw [hline, wordsBy_append_cons hc] at hws
      refine ih (line.set i '\x00') (i + 1) _ (fun x hx => hws x ?_) ?_
      · rw [hs] at hx
        exact List.mem_append_right _ hx
      · split_ifs with hempty
        · exact h
        · refine hkeep _ p people (hws _ (List.mem_append_left _ ?_)) h
          have hstring : (Ptr.line p).string (line.set i '\x00') = w := hw
          rw [hstring] at hempty ⊢
          rw [wordsBy_word hempty hword]
          exact List.mem_singleton_self _

/-- what the loop over the words gets of a line -/
theorem readLine_eq (lib : Balancer τ Ptr) (st : St τ) (l : Str) :
    ∃ line, cstr line = (cstr l).takeWhile (· ≠ '#') ∧
      readLine lib st l = wordLoop lib (line.length + 1) line 0 st.people := by
  have hpiece (t : Str) : cstr (l ++ '\x00' :: t) = cstr l := takeWhile_append_cons (by decide) l t
  refine ⟨_, ?_, rfl⟩
  cases hcomment : strchr (l ++ '\x00' :: st.line.drop (l.length + 1)) '#' with
  | none =>
    have hno := strchr_eq_none.1 hcomment
    rw [hpiece] at hno
    dsimp only
    rw [hpiece, eq_comm, List.takeWhile_eq_self_iff]
    intro c hc
    exact decide_eq_true fun h => hno (h ▸ hc)
  | some p =>
    dsimp only
    rw [cstr_set_strchr hcomment, hpiece]

/-- **A line.** -/
theorem readLine_run {st : St τ} {l : Str}
    (hkeep : ∀ line p people, (Ptr.line p).string line ∈ lineWords l → P people → P (watch lib line (.line p) people))
    (h : P st.people) : P (readLine lib st l).people := by
  obtain ⟨line, hwords, hread⟩ := readLine_eq lib st l
  rw [hread]
  refine wordLoop_run hkeep _ _ _ _ (fun w hw => ?_) h
  rwa [List.drop_zero, hwords] at hw

/-- **Lines.** -/
theorem readLines_run {st : St τ} {ls : List Str}
    (hkeep : ∀ l ∈ ls, ∀ line p people, (Ptr.line p).string line ∈ lineWords l → P people →
      P (watch lib line (.line p) people))
    (h : P st.people) : P (ls.foldl (readLine lib) st).people :=
  List.foldlRecOn (motive := fun st : St τ => P st.people) ls (readLine lib) h
    fun _ h l hl => readLine_run (hkeep l hl) h

/-- **The file.** What holds when the arguments are in the tree, and is kept when a word of the file is put in. -/
theorem initialize_run {file : Option Str} (line : Str) (hargs : P (watchArgs lib argv line))
    (hkeep : ∀ s ∈ file, ∀ l ∈ fgetsAll 1024 s, ∀ line p people, (Ptr.line p).string line ∈ lineWords l → P people →
      P (watch lib line (.line p) people)) :
    P (initializePeople lib argv file line).people := by
  cases file with
  | none => exact hargs
  | some s => exact readLines_run (hkeep s rfl) hargs

/-! ## What is in the tree -/

/-- the tree has the arguments, and pointers into the buffer -/
theorem people_cases {file : Option Str} (line : Str) :
    ∀ a ∈ (initializePeople lib argv file line).people.toList, (∃ s ∈ argv, a = .arg s) ∨ ∃ p, a = .line p := by
  refine initialize_run (P := fun people => ∀ a ∈ people.toList, (∃ s ∈ argv, a = .arg s) ∨ ∃ p, a = .line p) line ?_ ?_
  · refine List.foldlRecOn
      (motive := fun people : Tree τ Ptr => ∀ a ∈ people.toList, (∃ s ∈ argv, a = .arg s) ∨ ∃ p, a = .line p) argv _
      (fun a ha => absurd ha List.not_mem_nil) fun people h s hs a ha => ?_
    rcases mem_tsearch ha with rfl | ha
    · exact Or.inl ⟨s, hs, rfl⟩
    · exact h a ha
  · intro _ _ _ _ line p people _ h a ha
    rcases mem_tsearch ha with rfl | ha
    · exact Or.inr ⟨p, rfl⟩
    · exact h a ha

/-- only arguments are in the tree, in order; what is in the buffer does not matter then -/
structure Stable (people : Tree τ Ptr) (names : Set Str) : Prop where
  args : ∀ a ∈ people.toList, ∃ s, a = .arg s
  holding : Holding (Ptr.string []) people names

variable {people : Tree τ Ptr} {names : Set Str}

theorem Stable.decides (h : Stable people names) (line : Str) (u : Ptr) :
    Decides (cmpstring line u) (u.string line) (Ptr.string []) people := by
  intro a ha
  obtain ⟨s, rfl⟩ := h.args a ha
  exact ⟨strcmp_neg _ _, strcmp_zero _ _⟩

theorem Stable.find_isSome (h : Stable people names) (line : Str) (u : Ptr) :
    (find (cmpstring line u) people).isSome ↔ u.string line ∈ names :=
  h.holding.find_isSome (h.decides line u)

theorem Stable.arg (h : Stable people names) (line s : Str) :
    Stable (watch lib line (.arg s) people) (Insert.insert s names) := by
  refine ⟨fun a ha => ?_, h.holding.tsearch (h.decides line (.arg s))⟩
  rcases mem_tsearch ha with rfl | ha
  · exact ⟨s, rfl⟩
  · exact h.args a ha

theorem Stable.word (h : Stable people names) {line : Str} {p : ℕ} (hp : (Ptr.line p).string line ∈ names) :
    Stable (watch lib line (.line p) people) names := by
  have hsame : (watch lib line (.line p) people).toList = people.toList :=
    toList_tsearch_of_found ((h.find_isSome line (.line p)).2 hp)
  refine ⟨?_, h.holding.congr hsame⟩
  rw [hsame]
  exact h.args

theorem stable_watchArgs (argv : List Str) (line : Str) : Stable (watchArgs lib argv line) {w | w ∈ argv} := by
  induction argv using List.reverseRecOn with
  | nil =>
    have hnone : {w : Str | w ∈ ([] : List Str)} = ∅ := by simp
    rw [hnone]
    exact ⟨fun a ha => absurd ha List.not_mem_nil, Holding.leaf _⟩
  | append_singleton argv a ih =>
    have hmore : {w | w ∈ argv ++ [a]} = Insert.insert a {w | w ∈ argv} := by
      ext w
      simp [or_comm]
    rw [hmore, watchArgs, List.foldl_append]
    exact ih.arg line a

/-- **Where all words are arguments**, only arguments are in the tree. -/
theorem stable_initializePeople {file : Option Str}
    (hall : ∀ s ∈ file, ∀ l ∈ fgetsAll 1024 s, ∀ w ∈ lineWords l, w ∈ argv) (line : Str) :
    Stable (initializePeople lib argv file line).people {w | w ∈ argv} :=
  initialize_run (P := fun people => Stable people {w | w ∈ argv}) line (stable_watchArgs argv line)
    fun s hs l hl _ _ _ hw h => h.word (hall s hs l hl _ hw)

/-! ## Right after `initialize` -/

/-- the tree is in order with what is in the buffer, and every word in it has its NUL in front of `p` -/
structure Reading (m : Str) (p : ℕ) (people : Tree τ Ptr) (names : Set Str) : Prop where
  holding : Holding (Ptr.string m) people names
  ended : ∀ q, Ptr.line q ∈ people.toList → ∃ k, q ≤ k ∧ k < p ∧ m[k]? = some '\x00'

variable {m : Str} {p q i : ℕ}

theorem decides_string (m : Str) (u : Ptr) (people : Tree τ Ptr) :
    Decides (cmpstring m u) (u.string m) (Ptr.string m) people :=
  fun _ _ => ⟨strcmp_neg _ _, strcmp_zero _ _⟩

theorem Stable.reading (h : Stable people names) (m : Str) : Reading m 0 people names := by
  refine ⟨h.holding.congr_val fun a ha => ?_, fun q hq => ?_⟩
  · obtain ⟨s, rfl⟩ := h.args a ha
    rfl
  · obtain ⟨s, hs⟩ := h.args _ hq
    cases hs

/-- a NUL behind the words does not change them -/
theorem Reading.set (h : Reading m p people names) (hp : p ≤ i) :
    Reading (m.set i '\x00') (i + 1) people names := by
  refine ⟨h.holding.congr_val fun a ha => ?_, fun q hq => ?_⟩
  · cases a with
    | arg s => rfl
    | line q =>
      obtain ⟨k, hqk, hkp, hnul⟩ := h.ended q ha
      have hstring : (m.drop q)[k - q]? = some '\x00' := by
        rwa [List.getElem?_drop, Nat.add_sub_cancel' hqk]
      rw [Ptr.string, Ptr.string, List.drop_set, if_neg (by omega)]
      exact cstr_set_behind hstring (by omega)
  · obtain ⟨k, hqk, hkp, hnul⟩ := h.ended q hq
    exact ⟨k, hqk, by omega, by rwa [List.getElem?_set_ne (by omega)]⟩

theorem Reading.word (h : Reading m q people names) (hend : ∃ k, p ≤ k ∧ k < q ∧ m[k]? = some '\x00') :
    Reading m q (watch lib m (.line p) people) (Insert.insert ((Ptr.line p).string m) names) := by
  refine ⟨h.holding.tsearch (decides_string m (.line p) people), fun r hr => ?_⟩
  rcases mem_tsearch hr with heq | hr
  · cases heq
    exact hend
  · exact h.ended r hr

theorem union_word (w : Str) (names : Set Str) : names ∪ {x | x ∈ [w]} = Insert.insert w names := by
  ext x
  simp [or_comm]

theorem union_words (ws ws' : List Str) (names : Set Str) :
    names ∪ {x | x ∈ ws ++ ws'} = names ∪ {x | x ∈ ws} ∪ {x | x ∈ ws'} := by
  ext x
  simp [or_assoc]

theorem Reading.token (h : Reading m q people names) (hend : ∃ k, p ≤ k ∧ k < q ∧ m[k]? = some '\x00')
    (hword : ∀ c ∈ (Ptr.line p).string m, isSep c = false) :
    Reading m q (if (Ptr.line p).string m = [] then people else watch lib m (.line p) people)
      (names ∪ {w | w ∈ wordsBy isSep ((Ptr.line p).string m)}) := by
  split_ifs with hempty
  · rw [hempty, wordsBy_nil]
    simpa using h
  · rw [wordsBy_word hempty hword, union_word]
    exact h.word hend

/-- **The loop over the words**, with the buffer as it leaves it: the words of the line are found, and what was
found. -/
theorem wordLoop_reading (fuel : ℕ) (m : Str) (p : ℕ) (people : Tree τ Ptr) (names : Set Str)
    (hfuel : (cstr (m.drop p)).length < fuel) (h : Reading m p people names) :
    Holding (Ptr.string (wordLoop lib fuel m p people).line) (wordLoop lib fuel m p people).people
      (names ∪ {w | w ∈ wordsBy isSep (cstr (m.drop p))}) := by
  induction fuel generalizing m p people names with
  | zero => exact absurd hfuel (Nat.not_lt_zero _)
  | succ fuel ih =>
    rw [wordLoop]
    rcases strsep_cases m p with ⟨hlast, hword⟩ | ⟨w, c, s, i, hnext, hpi, hi, hline, hc, hword, hw, hs⟩
    · rw [hlast]
      dsimp only
      split_ifs with hempty
      · have hnone : cstr (m.drop p) = [] := hempty
        simpa [hnone, wordsBy_nil] using h.holding
      · have hself : wordsBy isSep (cstr (m.drop p)) = [(Ptr.line p).string m] := wordsBy_word hempty hword
        rw [hself, union_word]
        exact h.holding.tsearch (decides_string m (.line p) people)
    · rw [hnext]
      dsimp only
      have hstring : (Ptr.line p).string (m.set i '\x00') = w := hw
      have hend : ∃ k, p ≤ k ∧ k < i + 1 ∧ (m.set i '\x00')[k]? = some '\x00' :=
        ⟨i, hpi, Nat.lt_succ_self i, List.getElem?_set_self hi⟩
      have hlen : (cstr ((m.set i '\x00').drop (i + 1))).length < fuel := by
        rw [hline, List.length_append, List.length_cons] at hfuel
        rw [hs]
        omega
      have hwords : names ∪ {x | x ∈ wordsBy isSep ((Ptr.line p).string (m.set i '\x00'))} ∪
          {x | x ∈ wordsBy isSep (cstr ((m.set i '\x00').drop (i + 1)))} =
            names ∪ {x | x ∈ wordsBy isSep (cstr (m.drop p))} := by
        rw [hstring, hs, hline, wordsBy_append_cons hc, union_words]
      rw [← hwords]
      exact ih _ _ _ _ hlen ((h.set hpi).token hend (by rwa [hstring]))

/-- a line behind lines of which all words are arguments -/
theorem Stable.readLine {st : St τ} (h : Stable st.people names) (l : Str) :
    Holding (Ptr.string (readLine lib st l).line) (readLine lib st l).people (names ∪ {w | w ∈ lineWords l}) := by
  obtain ⟨m, hwords, hread⟩ := readLine_eq lib st l
  have hself : lineWords l = wordsBy isSep (cstr (m.drop 0)) := by
    rw [List.drop_zero, hwords]
    rfl
  rw [hread, hself]
  apply wordLoop_reading
  · rw [List.drop_zero]
    exact Nat.lt_succ_of_le (length_cstr_le m)
  · exact h.reading m

end Run

/-! ## When the list is right -/

/-- **Right after `initialize`**, with the buffer as it is then, the words of the last line are found, if those of the
lines in front of it are arguments. -/
theorem last_line_watched {τ : Type*} (lib : Balancer τ Ptr) {argv : List Str} {s l : Str} {ls : List Str}
    (hshort : ∀ l ∈ rawLines s, l.length < 1024) (hlines : rawLines s = ls ++ [l])
    (hargs : ∀ l' ∈ ls, ∀ w ∈ lineWords l', w ∈ argv) (line name : Str) :
    let st := initializePeople lib argv (some s) line
    interesting st.line st.people name = true ↔ name ∈ argv ∨ name ∈ lineWords l := by
  intro st
  have hst : st = readLine lib (ls.foldl (readLine lib) ⟨line, watchArgs lib argv line⟩) l := by
    have hpieces := fgetsAll_eq_of_short (n := 1024) (by decide) hshort
    simp only [st, initializePeople, hpieces, hlines, List.foldl_append, List.foldl_cons, List.foldl_nil]
  have hstable : Stable (ls.foldl (readLine lib) ⟨line, watchArgs lib argv line⟩).people {w | w ∈ argv} :=
    readLines_run (P := fun people => Stable people {w | w ∈ argv})
      (fun l' hl' _ _ _ hw h => h.word (hargs l' hl' _ hw)) (stable_watchArgs argv line)
  rw [hst]
  exact (hstable.readLine l).find_isSome (decides_string _ (.arg name) _)

/-- **When the list is right**, if the lines of the file are shorter than the buffer: all its words are arguments. -/
theorem watches_iff {τ : Type*} (lib : Balancer τ Ptr) (argv : List Str) (file : Option Str)
    (hshort : ∀ s ∈ file, ∀ l ∈ rawLines s, l.length < 1024) :
    Watches lib argv file ↔ ∀ s ∈ file, ∀ l ∈ rawLines s, ∀ w ∈ lineWords l, w ∈ argv := by
  constructor
  · intro h s hs l hl w hw
    -- all words that are not arguments have become empty
    have hfound := (h [] (List.replicate 1024 '\x00') w).2 (Or.inr ⟨s, hs, l, hl, hw⟩)
    obtain ⟨a, ha⟩ := Option.isSome_iff_exists.1 hfound
    obtain ⟨hmem, hcmp⟩ := find_some ha
    have heq := (strcmp_zero _ _).1 hcmp
    rcases people_cases [] a hmem with ⟨s', hs', rfl⟩ | ⟨p, rfl⟩
    · have hname : w = s' := heq
      exact hname ▸ hs'
    · have hempty : (Ptr.line p).string (List.replicate 1024 '\x00') = [] := by
        rw [Ptr.string, List.drop_replicate]
        cases 1024 - p <;> rfl
      exact absurd (heq.trans hempty) (mem_wordsBy hw).1
  · intro hall line after name
    have hpieces : ∀ s ∈ file, fgetsAll 1024 s = rawLines s :=
      fun s hs => fgetsAll_eq_of_short (by decide) (hshort s hs)
    have hstable : Stable (initializePeople lib argv file line).people {w | w ∈ argv} :=
      stable_initializePeople (fun s hs l hl => hall s hs l (hpieces s hs ▸ hl)) line
    calc interesting after (initializePeople lib argv file line).people name = true
      _ ↔ name ∈ argv := hstable.find_isSome after (.arg name)
      _ ↔ _ := by
        refine (or_iff_left_of_imp ?_).symm
        rintro ⟨s, hs, l, hl, hw⟩
        exact hall s hs l hl name hw

/-- the file names only joe, who is also on the command line -/
theorem joe_named : Watches unbalanced [['j', 'o', 'e']] (some ['j', 'o', 'e', ' ', '#', 'x', '\n']) :=
  (watches_iff unbalanced _ _ (by decide +kernel)).2 (by decide +kernel)

/-- Joe's line is followed by Ann's, and what stands where Joe's name stood is hers: joe is not found. -/
theorem overwritten :
    let file := ['j', 'o', 'e', '\n', 'a', 'n', 'n', '\n']
    let st := initializePeople unbalanced [] (some file) (List.replicate 1024 '\x00')
    (∀ l ∈ rawLines file, l.length < 1024) ∧ interesting st.line st.people ['j', 'o', 'e'] = false ∧
      interesting st.line st.people ['a', 'n', 'n'] = true ∧ ¬Watches unbalanced [] (some file) := by
  intro file st
  have hlost : interesting st.line st.people ['j', 'o', 'e'] = false := by decide +kernel
  refine ⟨by decide +kernel, hlost, by decide +kernel, fun h => ?_⟩
  have hword : ['j', 'o', 'e'] ∈ lineWords ['j', 'o', 'e', '\n'] := by decide +kernel
  have hfound := (h (List.replicate 1024 '\x00') st.line ['j', 'o', 'e']).2
    (Or.inr ⟨file, rfl, ['j', 'o', 'e', '\n'], by decide +kernel, hword⟩)
  rw [hlost] at hfound
  exact Bool.false_ne_true hfound

end MNetSoft.Interests
