/-
The tokenizer of `resh`: `tokenizeq` of `token.c`, which cuts a line into words in place. A word is plain, or stands
between quotes, with every quote and every backslash in it written twice. White space and closing quotes are overwritten
with NULs, a token is where it starts in the line.

The functions that walk along the line are given the cells from their pointer on, and return these cells with what they
have written, and how far the pointer has moved. A read or write behind the memory of the line is undefined (`none`).

`tokenizeq` has `quotedtoken` look for the closing quote from the second character of a word on, and `quotedtoken` skips
three characters at a backslash, not two. So the search can get out of step with the doubled characters.
- `stops`: where the search ends, from the characters of a word alone.
- `unquote_spec`: what `unquote` makes of the cells up to the first NUL.
- `tokenizeq_right_iff`: when a line of words comes out as these words.
- `quote_first`: a word that begins with a quote.
-/
import Mathlib.Tactic
import MNetSoft.Core.CString
import MNetSoft.Core.Memory

namespace MNetSoft.Resh

open MNetSoft.CString MNetSoft.Memory

/-! ## Model -/

def nul : Char := '\x00'

def quote : Char := '\x27'

def backslash : Char := '\x5c'

/-- a call of `f` with a pointer to the cell `p` -/
def along (m : Str) (p : ℕ) (f : Str → Option (Str × ℕ)) : Option (Str × ℕ) :=
  (f (m.drop p)).map fun r => (m.take p ++ r.1, p + r.2)

/-- `l` stays, and the pointer moves over it -/
def past (l : Str) (r : Str × ℕ) : Str × ℕ := (l ++ r.1, l.length + r.2)

/-- the loop of `unquote` with the cells between `d` and `s` and the cells from `s` on: the cells from `d` on -/
def unquoteLoop : Str → Str → Option Str
  | _, [] => none
  | mid, c :: m =>
    if c = nul then some (nul :: (mid ++ c :: m).tail)
    else if c = quote ∨ c = backslash then
      if m.head? = some nul then (unquoteLoop (mid ++ [nul]).tail m).map (nul :: ·)
      else
        match m with
        | [] => none
        | c' :: m' => (unquoteLoop (mid ++ [c, c']).tail m').map (c' :: ·)
    else (unquoteLoop (mid ++ [c]).tail m).map (c :: ·)

/-- remove the quotes and backslashes in front of what they quote -/
def unquote (str : Str) : Option (Str × ℕ) := (unquoteLoop [] str).map fun m => (m, 0)

/-- look for the quote that ends a token, and cut it there -/
def quotedtoken : Str → Option (Str × ℕ)
  | [] => none
  | c :: m =>
    if c = nul then some (c :: m, 0)
    else if c = quote then
      match m with
      | [] => none
      | c' :: m' => if c' = quote then (quotedtoken m').map (past [c, c']) else some (nul :: m, 1)
    else if c = backslash then
      if m.head? = some nul then (quotedtoken m).map (past [c])
      else
        match m with
        | c' :: c'' :: m'' => (quotedtoken m'').map (past [c, c', c''])
        | _ => none
    else (quotedtoken m).map (past [c])

/-- look for the end of a plain token -/
def simpletoken : Str → Option (Str × ℕ)
  | [] => none
  | c :: m => if c ≠ nul ∧ c ≠ quote ∧ ¬isspace c then (simpletoken m).map (past [c]) else some (c :: m, 0)

/-- `while (isspace(*p)) *p++ = 0` -/
def skipBlanks : Str → Option (Str × ℕ)
  | [] => none
  | c :: m => if isspace c then (skipBlanks m).map (past [nul]) else some (c :: m, 0)

/-- the `switch` of `tokenizeq`: the line, the pointer and the tokens -/
def token (m : Str) (p : ℕ) (toks : List ℕ) : Option (Str × ℕ × List ℕ) := do
  let c ← load m p
  if c = nul then return (m, p, toks)
  else if c = quote then
    let m ← store m p nul
    let tok := p + 1
    let (m, p) ← along m (tok + 1) quotedtoken
    let (m, _) ← along m tok unquote
    return (m, p, toks ++ [tok])
  else
    let tok := p
    let (m, p) ← along m p simpletoken
    return (m, p, toks ++ [tok])

/-- the loop of `tokenizeq`: the line and the tokens -/
def tokenLoop (maxtoks : ℤ) : ℕ → Str → ℕ → List ℕ → Option (Str × List ℕ)
  | 0, _, _, _ => none
  | fuel + 1, m, p, toks => do
    let c ← load m p
    if c = nul then return (m, toks)
    else
      let (m, p) ← along m p skipBlanks
      let (m, p, toks) ← token m p toks
      if toks.length ≥ maxtoks then return (m, toks) else tokenLoop maxtoks fuel m p toks

/-- the number of tokens, the line and the tokens -/
def tokenizeq (str : Str) (maxtoks : ℤ) : Option (ℤ × Str × List ℕ) :=
  if maxtoks ≤ 0 then some (-1, str, [])
  else (tokenLoop maxtoks (str.length + 1) str 0 []).map fun r => (r.2.length, r)

/-! ## Lines of words -/

/-- a word with the white space in front of it -/
structure Piece where
  gap : Str
  word : Str
  quoted : Bool
  isspace_gap : ∀ c ∈ gap, isspace c = true
  no_nul : nul ∉ word
  plain : quoted = false → word ≠ [] ∧ ∀ c ∈ word, isspace c = false ∧ c ≠ quote ∧ c ≠ backslash

/-- every quote and every backslash twice -/
def doubled (w : Str) : Str := w.flatMap fun c => if c = quote ∨ c = backslash then [c, c] else [c]

/-- a word as it is written in the line -/
def Piece.written (p : Piece) : Str :=
  if p.quoted then quote :: (doubled p.word ++ [quote]) else p.word

/-- the words with the white space between them -/
def text (ps : List Piece) : Str := ps.flatMap fun p => p.gap ++ p.written

/-- words with white space between any two of them -/
structure Line where
  pieces : List Piece
  separated : ∀ p ∈ pieces.tail, p.gap ≠ []

def Line.words (l : Line) : List Str := l.pieces.map Piece.word

/-- whatever is in memory behind the line and its NUL, the tokens are the first words -/
def Right (l : Line) (maxtoks : ℤ) : Prop :=
  ∀ behind, ∃ m toks, tokenizeq (text l.pieces ++ nul :: behind) maxtoks =
      some (min (l.pieces.length : ℤ) maxtoks, m, toks) ∧
      toks.map (fun t => cstr (m.drop t)) = l.words.take maxtoks.toNat

/-! ## When the tokens are right -/

/-- where the search for the closing quote ends -/
inductive Stop where
  /-- at the closing quote -/
  | closed
  /-- it goes on behind the closing quote -/
  | missed
  /-- it goes on one character further behind -/
  | beyond
  /-- at a doubled quote in the word -/
  | cut
deriving DecidableEq, Repr

/-- where the search ends in a word, and `true` if it has skipped the first character of what is written -/
def stops : Bool → Str → Stop
  | false, [] => .closed
  | false, c :: w => stops (c = backslash) w
  | true, [] => .missed
  | true, [c] => if c = quote then .missed else if c = backslash then .beyond else .closed
  | true, c :: d :: w =>
    if c = quote then if d = quote then stops true (d :: w) else .cut
    else if c = backslash then stops (¬(d = quote ∨ d = backslash)) w
    else stops false (d :: w)

/-- the closing quote of a quoted word is found, or missed where nothing comes behind it -/
def Piece.Closed (p : Piece) (last : Prop) : Prop :=
  p.quoted = true → stops true p.word = .closed ∨ last ∧ stops true p.word = .missed

instance (p : Piece) (last : Prop) [Decidable last] : Decidable (p.Closed last) := by
  unfold Piece.Closed
  infer_instance

/-- the closing quotes of the first `k` words are found, and if there are more words, the last of the `k` is quoted -/
def Tokenizable : List Piece → ℕ → Prop
  | [], _ => True
  | _ :: _, 0 => True
  | p :: ps, k + 1 => p.Closed (ps = []) ∧ (k = 0 → ps = [] ∨ p.quoted = true) ∧ Tokenizable ps k

instance Tokenizable.decidable : ∀ ps k, Decidable (Tokenizable ps k)
  | [], _ => isTrue trivial
  | _ :: _, 0 => isTrue trivial
  | p :: ps, k + 1 =>
    have := Tokenizable.decidable ps k
    inferInstanceAs (Decidable (p.Closed (ps = []) ∧ (k = 0 → ps = [] ∨ p.quoted = true) ∧ Tokenizable ps k))

/-! ## The search for the closing quote -/

theorem quotedtoken_nul (m : Str) : quotedtoken (nul :: m) = some (nul :: m, 0) := by
  unfold quotedtoken
  exact if_pos rfl

theorem quotedtoken_pair (m : Str) : quotedtoken (quote :: quote :: m) = (quotedtoken m).map (past [quote, quote]) := by
  rw [quotedtoken, if_neg (by decide), if_pos rfl]
  exact if_pos rfl

theorem quotedtoken_single {c : Char} (hc : c ≠ quote) (m : Str) :
    quotedtoken (quote :: c :: m) = some (nul :: c :: m, 1) := by
  rw [quotedtoken, if_neg (by decide), if_pos rfl]
  exact if_neg hc

/-- a backslash takes two more characters along -/
theorem quotedtoken_backslash {c : Char} (hc : c ≠ nul) (d : Char) (m : Str) :
    quotedtoken (backslash :: c :: d :: m) = (quotedtoken m).map (past [backslash, c, d]) := by
  rw [quotedtoken, if_neg (by decide), if_neg (by decide), if_pos rfl, if_neg]
  simpa using hc

theorem quotedtoken_char {c : Char} (hnul : c ≠ nul) (hquote : c ≠ quote) (hback : c ≠ backslash) (m : Str) :
    quotedtoken (c :: m) = (quotedtoken m).map (past [c]) := by
  rw [quotedtoken.eq_def]
  dsimp only
  rw [if_neg hnul, if_neg hquote, if_neg hback]

theorem map_past_past (l l' : Str) (x : Option (Str × ℕ)) :
    (x.map (past l')).map (past l) = x.map (past (l ++ l')) := by
  rw [Option.map_map]
  congr 1
  funext r
  simp only [past, Function.comp, List.append_assoc, List.length_append, Nat.add_assoc]

theorem map_past_nil (x : Option (Str × ℕ)) : x.map (past []) = x := by
  have hid : past [] = id := by
    funext r
    simp [past]
  rw [hid, Option.map_id, id]

theorem doubled_special {c : Char} (hc : c = quote ∨ c = backslash) (w : Str) :
    doubled (c :: w) = c :: c :: doubled w := by simp [doubled, hc]

theorem doubled_char {c : Char} (hquote : c ≠ quote) (hback : c ≠ backslash) (w : Str) :
    doubled (c :: w) = c :: doubled w := by simp [doubled, hquote, hback]

theorem exists_doubled_cons (c : Char) (w : Str) : ∃ l, doubled (c :: w) = c :: l := by
  by_cases hc : c = quote ∨ c = backslash
  · exact ⟨_, doubled_special hc w⟩
  · obtain ⟨hquote, hback⟩ := not_or.1 hc
    exact ⟨_, doubled_char hquote hback w⟩

theorem length_le_doubled (w : Str) : w.length ≤ (doubled w).length := by
  induction w with
  | nil => exact le_rfl
  | cons c w ih =>
    obtain ⟨l, hl⟩ : ∃ l, doubled (c :: w) = c :: l ++ doubled w := by
      by_cases hc : c = quote ∨ c = backslash
      · exact ⟨[c], doubled_special hc w⟩
      · exact ⟨[], doubled_char (not_or.1 hc).1 (not_or.1 hc).2 w⟩
    rw [hl, List.length_append, List.length_cons, List.length_cons]
    omega

theorem nul_not_mem_doubled {w : Str} (hw : nul ∉ w) : nul ∉ doubled w := by
  intro h
  obtain ⟨c, hc, hmem⟩ := List.mem_flatMap.1 h
  have heq : nul = c := by
    split_ifs at hmem <;> simpa using hmem
  exact hw (heq ▸ hc)

/-- what the search has passed when it ends, and what it does there -/
inductive Ends (w t : Str) : Stop → Str → Option (Str × ℕ) → Prop
  | closed : Ends w t .closed (doubled w) (some (nul :: t, 1))
  | missed : Ends w t .missed (doubled w ++ [quote]) (quotedtoken t)
  | beyond (c : Char) (t' : Str) (ht : t = c :: t') : Ends w t .beyond (doubled w ++ [quote, c]) (quotedtoken t')
  | cut (u v m : Str) (hw : w = u ++ quote :: v) : Ends w t .cut (doubled u ++ [quote]) (some (nul :: m, 1))

/-- one more character in front -/
theorem Ends.cons {w t l : Str} {st : Stop} {x : Option (Str × ℕ)} (h : Ends w t st l x) {c : Char} (l₀ : Str)
    (hd : ∀ w, doubled (c :: w) = l₀ ++ doubled w) : Ends (c :: w) t st (l₀ ++ l) x := by
  cases h with
  | closed =>
    rw [← hd]
    exact Ends.closed
  | missed =>
    rw [← List.append_assoc, ← hd]
    exact Ends.missed
  | beyond d t' ht =>
    rw [← List.append_assoc, ← hd]
    exact Ends.beyond d t' ht
  | cut u v m hw =>
    rw [← List.append_assoc, ← hd]
    exact Ends.cut (c :: u) v m (by rw [hw, List.cons_append])

/-- **Where the search ends.** It starts behind `f`, which is the first character of what is written, or nothing. -/
theorem quotedtoken_ends (s : Bool) (w : Str) (hw : nul ∉ w) {t : Str} {c : Char} {t' : Str} (ht : t = c :: t')
    (hc : c ≠ quote) :
    ∃ f cells l x, f.length = s.toNat ∧ doubled w ++ quote :: t = f ++ cells ∧ Ends w t (stops s w) (f ++ l) x ∧
      quotedtoken cells = x.map (past l) := by
  subst ht
  fun_induction stops s w with
  | case1 => exact ⟨[], _, [], _, rfl, rfl, Ends.closed, by rw [map_past_nil]; exact quotedtoken_single hc t'⟩
  | case2 d w ih =>
    obtain ⟨hd, hw⟩ := not_or.1 (mt List.mem_cons.2 hw)
    obtain ⟨f, cells, l, x, hf, hcells, hends, hsearch⟩ := ih hw
    by_cases hback : d = backslash
    · -- the two backslashes and the first character of what follows are skipped
      subst hback
      obtain ⟨e, rfl⟩ := List.length_eq_one_iff.1 (show f.length = 1 from hf)
      have hdd := doubled_special (c := backslash) (Or.inr rfl)
      refine ⟨[], doubled (backslash :: w) ++ quote :: c :: t', backslash :: backslash :: e :: l, x, rfl, rfl,
        hends.cons [backslash, backslash] hdd, ?_⟩
      rw [hdd, List.cons_append, List.cons_append, hcells, List.singleton_append, quotedtoken_backslash (by decide),
        hsearch, map_past_past]
      rfl
    · obtain rfl : f = [] := List.eq_nil_of_length_eq_zero (by simpa [hback] using hf)
      by_cases hquote : d = quote
      · subst hquote
        have hdd := doubled_special (c := quote) (Or.inl rfl)
        refine ⟨[], doubled (quote :: w) ++ quote :: c :: t', quote :: quote :: l, x, rfl, rfl,
          hends.cons [quote, quote] hdd, ?_⟩
        rw [hdd, List.cons_append, List.cons_append, hcells, List.nil_append, quotedtoken_pair, hsearch, map_past_past]
        rfl
      · have hdd := doubled_char hquote hback
        refine ⟨[], doubled (d :: w) ++ quote :: c :: t', d :: l, x, rfl, rfl, hends.cons [d] hdd, ?_⟩
        rw [hdd, List.cons_append, hcells, List.nil_append, quotedtoken_char (Ne.symm hd) hquote hback, hsearch,
          map_past_past]
        rfl
  | case3 => exact ⟨[quote], c :: t', [], _, rfl, rfl, Ends.missed, (map_past_nil _).symm⟩
  | case4 =>
    exact ⟨[quote], quote :: quote :: c :: t', [quote, quote], _, rfl, rfl, Ends.missed, quotedtoken_pair _⟩
  | case5 hquote =>
    exact ⟨[backslash], backslash :: quote :: c :: t', [backslash, quote, c], _, rfl, rfl, Ends.beyond c t' rfl,
      quotedtoken_backslash (by decide) c t'⟩
  | case6 d hquote hback =>
    have hdd := doubled_char hquote hback []
    refine ⟨[d], quote :: c :: t', [], some (nul :: c :: t', 1), rfl, by rw [hdd]; rfl, ?_, quotedtoken_single hc t'⟩
    have hends := @Ends.closed [d] (c :: t')
    rwa [hdd] at hends
  | case7 w ih =>
    obtain ⟨f, cells, l, x, hf, hcells, hends, hsearch⟩ := ih (mt (List.mem_cons_of_mem _) hw)
    obtain ⟨e, rfl⟩ := List.length_eq_one_iff.1 (show f.length = 1 from hf)
    have hdd := doubled_special (c := quote) (Or.inl rfl)
    obtain rfl : quote = e := by
      rw [hdd] at hcells
      exact (List.cons.inj hcells).1
    refine ⟨[quote], quote :: (doubled (quote :: w) ++ quote :: c :: t'), quote :: quote :: l, x, rfl, ?_,
      hends.cons [quote, quote] hdd, ?_⟩
    · rw [hdd (quote :: w)]
      rfl
    · rw [hcells, List.singleton_append, quotedtoken_pair, hsearch, map_past_past]
      rfl
  | case8 d w hquote =>
    obtain ⟨m, hm⟩ := exists_doubled_cons d w
    refine ⟨[quote], quote :: (doubled (d :: w) ++ quote :: c :: t'), [], some (nul :: (d :: m ++ quote :: c :: t'), 1),
      rfl, ?_, Ends.cut [] (d :: w) _ rfl, ?_⟩
    · rw [doubled_special (Or.inl rfl)]
      rfl
    · rw [hm, List.cons_append, quotedtoken_single hquote]
      rfl
  | case9 d w hquote ih =>
    obtain ⟨hd, hw⟩ := not_or.1 (mt List.mem_cons.2 (mt (List.mem_cons_of_mem _) hw))
    obtain ⟨f, cells, l, x, hf, hcells, hends, hsearch⟩ := ih hw
    have hbb := doubled_special (c := backslash) (Or.inr rfl)
    refine ⟨[backslash], backslash :: (doubled (d :: w) ++ quote :: c :: t'), backslash :: doubled [d] ++ (f ++ l), x,
      rfl, by rw [hbb]; rfl, ?_, ?_⟩
    · have hdd : ∀ w, doubled (d :: w) = doubled [d] ++ doubled w := fun w => by simp [doubled]
      exact (hends.cons (doubled [d]) hdd).cons [backslash, backslash] hbb
    · by_cases hspecial : d = quote ∨ d = backslash
      · obtain rfl : f = [] := List.eq_nil_of_length_eq_zero (by simpa [hspecial] using hf)
        rw [doubled_special hspecial, doubled_special hspecial, List.cons_append, List.cons_append, hcells,
          List.nil_append, quotedtoken_backslash (Ne.symm hd), hsearch, map_past_past]
        rfl
      · obtain ⟨e, rfl⟩ := List.length_eq_one_iff.1 (show f.length = 1 by simpa [hspecial] using hf)
        obtain ⟨hquote', hback⟩ := not_or.1 hspecial
        rw [doubled_char hquote' hback, doubled_char hquote' hback, List.cons_append, hcells, List.singleton_append,
          quotedtoken_backslash (Ne.symm hd), hsearch, map_past_past]
        rfl
  | case10 e d w hquote hback ih =>
    obtain ⟨f, cells, l, x, hf, hcells, hends, hsearch⟩ := ih (mt (List.mem_cons_of_mem _) hw)
    obtain rfl : f = [] := List.eq_nil_of_length_eq_zero hf
    have hdd := doubled_char hquote hback
    refine ⟨[e], cells, l, x, rfl, ?_, hends.cons [e] hdd, hsearch⟩
    rw [hdd, List.cons_append, hcells]
    rfl

/-! ## Removing the quotes -/

/-- a string without the quotes and backslashes that quote something -/
def unquoted : Str → Str
  | [] => []
  | [c] => if c = quote ∨ c = backslash then [] else [c]
  | c :: d :: m => if c = quote ∨ c = backslash then d :: unquoted m else c :: unquoted (d :: m)

theorem unquoted_doubled (w m : Str) : unquoted (doubled w ++ m) = w ++ unquoted m := by
  induction w with
  | nil => rfl
  | cons c w ih =>
    by_cases hc : c = quote ∨ c = backslash
    · rw [doubled_special hc, List.cons_append, List.cons_append, unquoted, if_pos hc, ih, List.cons_append]
    · obtain ⟨hquote, hback⟩ := not_or.1 hc
      rw [doubled_char hquote hback, List.cons_append, List.cons_append, ← ih]
      cases doubled w ++ m with
      | nil => exact if_neg hc
      | cons d m => rw [unquoted, if_neg hc]

theorem special_ne_nul {c : Char} (hc : c = quote ∨ c = backslash) : c ≠ nul := by
  rcases hc with rfl | rfl <;> decide

/-- a quote with nothing behind it becomes a NUL -/
theorem unquoteLoop_last {c : Char} (hc : c = quote ∨ c = backslash) (mid m : Str) :
    unquoteLoop mid (c :: nul :: m) = (unquoteLoop (mid ++ [nul]).tail (nul :: m)).map (nul :: ·) := by
  conv_lhs => unfold unquoteLoop
  rw [if_neg (special_ne_nul hc), if_pos hc]
  exact if_pos rfl

theorem unquoteLoop_special {c d : Char} (hc : c = quote ∨ c = backslash) (hd : d ≠ nul) (mid m : Str) :
    unquoteLoop mid (c :: d :: m) = (unquoteLoop (mid ++ [c, d]).tail m).map (d :: ·) := by
  have hhead : (d :: m).head? ≠ some nul := by simpa using hd
  conv_lhs => unfold unquoteLoop
  rw [if_neg (special_ne_nul hc), if_pos hc]
  exact if_neg hhead

theorem unquoteLoop_char {c : Char} (hnul : c ≠ nul) (hc : ¬(c = quote ∨ c = backslash)) (mid m : Str) :
    unquoteLoop mid (c :: m) = (unquoteLoop (mid ++ [c]).tail m).map (c :: ·) := by
  conv_lhs => unfold unquoteLoop
  rw [if_neg hnul, if_neg hc]

/-- cells from `d` on, when the loop stands at the NUL -/
theorem unquoteLoop_nul (mid rest : Str) :
    ∃ x, unquoteLoop mid (nul :: rest) = some (x ++ nul :: rest) ∧ x.length = mid.length ∧
      ∃ junk, x ++ [nul] = nul :: junk := by
  unfold unquoteLoop
  rw [if_pos rfl]
  cases mid with
  | nil => exact ⟨[], rfl, rfl, [], rfl⟩
  | cons c mid => exact ⟨nul :: mid, by simp, rfl, mid ++ [nul], rfl⟩

/-- **What `unquote` does**: the string is replaced by the unquoted one, which is not longer, and the cell of its NUL
and all behind it stay as they are -/
theorem unquote_spec {body : Str} (hbody : nul ∉ body) (mid rest : Str) :
    ∃ x, unquoteLoop mid (body ++ nul :: rest) = some (x ++ nul :: rest) ∧ x.length = mid.length + body.length ∧
      ∃ junk, x ++ [nul] = unquoted body ++ nul :: junk := by
  fun_induction unquoted body generalizing mid with
  | case1 => exact unquoteLoop_nul mid rest
  | case2 c hc =>
    obtain ⟨x, hloop, hlen, junk, hx⟩ := unquoteLoop_nul (mid ++ [nul]).tail rest
    refine ⟨nul :: x, ?_, by simp [hlen], x ++ [nul], rfl⟩
    rw [List.singleton_append, unquoteLoop_last hc, hloop]
    rfl
  | case3 c hc =>
    have hnul : c ≠ nul := fun h => hbody (by simp [h])
    obtain ⟨x, hloop, hlen, junk, hx⟩ := unquoteLoop_nul (mid ++ [c]).tail rest
    refine ⟨c :: x, ?_, by simp [hlen], junk, by rw [List.cons_append, hx]; rfl⟩
    rw [List.singleton_append, unquoteLoop_char hnul hc, hloop]
    rfl
  | case4 c d m hc ih =>
    have hnul : d ≠ nul := fun h => hbody (by simp [h])
    obtain ⟨x, hloop, hlen, junk, hx⟩ := ih (fun h => hbody (by simp [h])) (mid ++ [c, d]).tail
    refine ⟨d :: x, ?_, by simp [hlen]; omega, junk, by rw [List.cons_append, hx]; rfl⟩
    rw [List.cons_append, List.cons_append, unquoteLoop_special hc hnul, hloop]
    rfl
  | case5 c d m hc ih =>
    have hnul : c ≠ nul := fun h => hbody (by simp [h])
    obtain ⟨x, hloop, hlen, junk, hx⟩ := ih (fun h => hbody (List.mem_cons_of_mem _ h)) (mid ++ [c]).tail
    refine ⟨c :: x, ?_, by simp [hlen]; omega, junk, by rw [List.cons_append, hx]; rfl⟩
    rw [List.cons_append, unquoteLoop_char hnul hc, hloop]
    rfl

/-- without a NUL in memory `unquote` does not end -/
theorem unquoteLoop_none {m : Str} (hm : nul ∉ m) (mid : Str) : unquoteLoop mid m = none := by
  fun_induction unquoteLoop mid m with
  | case1 => rfl
  | case2 => exact absurd List.mem_cons_self hm
  | case3 mid c m _ _ _ ih =>
    rw [ih (mt (List.mem_cons_of_mem _) hm)]
    rfl
  | case4 => rfl
  | case5 mid c _ _ d m _ ih =>
    rw [ih fun h => hm (List.mem_cons_of_mem _ (List.mem_cons_of_mem _ h))]
    rfl
  | case6 mid c m _ _ ih =>
    rw [ih (mt (List.mem_cons_of_mem _) hm)]
    rfl

/-! ## One token -/

section Token

variable {pre t w : Str} {toks : List ℕ} {c : Char} {t' : Str}

theorem along_append {p : ℕ} (hp : p = pre.length) (suf : Str) (f : Str → Option (Str × ℕ)) :
    along (pre ++ suf) p f = (f suf).map fun r => (pre ++ r.1, p + r.2) := by
  rw [along, hp, List.drop_left, List.take_left]

theorem simpletoken_word (hw : ∀ c ∈ w, c ≠ nul ∧ c ≠ quote ∧ ¬isspace c) (ht : t = c :: t')
    (hc : c = nul ∨ isspace c = true) : simpletoken (w ++ t) = some (w ++ t, w.length) := by
  induction w with
  | nil =>
    have hstop : ¬(c ≠ nul ∧ c ≠ quote ∧ ¬isspace c) := fun h => hc.elim h.1 h.2.2
    rw [ht, List.nil_append, simpletoken, if_neg hstop]
    rfl
  | cons d w ih =>
    obtain ⟨hd, hw⟩ := List.forall_mem_cons.1 hw
    rw [List.cons_append, simpletoken, if_pos hd, ih hw, Option.map_some, past]
    simp [Nat.add_comm]

/-- a plain word -/
theorem token_plain (hne : w ≠ []) (hw : ∀ c ∈ w, c ≠ nul ∧ c ≠ quote ∧ ¬isspace c) (ht : t = c :: t')
    (hc : c = nul ∨ isspace c = true) :
    token (pre ++ (w ++ t)) pre.length toks = some (pre ++ w ++ t, (pre ++ w).length, toks ++ [pre.length]) := by
  have hsimple := simpletoken_word hw ht hc
  obtain ⟨d, w', rfl⟩ := List.exists_cons_of_ne_nil hne
  obtain ⟨hd, -⟩ := List.forall_mem_cons.1 hw
  rw [token, List.cons_append, load_append rfl, Option.bind_eq_bind, Option.bind_some, if_neg hd.1, if_neg hd.2.1,
    ← List.cons_append, along_append rfl, hsimple]
  simp

/-- a quoted word: the search for its end, and `unquote` on what it leaves -/
theorem token_quoted (hw : nul ∉ w) (ht : t = c :: t') (hc : c ≠ quote) :
    ∃ l x, Ends w t (stops true w) l x ∧
      token (pre ++ quote :: (doubled w ++ quote :: t)) pre.length toks = x.bind fun r =>
        (unquote (l ++ r.1)).map fun u =>
          (pre ++ nul :: u.1, pre.length + 1 + l.length + r.2, toks ++ [pre.length + 1]) := by
  obtain ⟨f, cells, l, x, hf, hcells, hends, hsearch⟩ := quotedtoken_ends true w hw ht hc
  refine ⟨f ++ l, x, hends, ?_⟩
  have hsplit : pre ++ nul :: (doubled w ++ quote :: t) = pre ++ nul :: f ++ cells := by
    rw [hcells, List.append_assoc, List.cons_append]
  have hlen : pre.length + 1 + 1 = (pre ++ nul :: f).length := by
    rw [List.length_append, List.length_cons, hf]
    rfl
  rw [token, load_append rfl, Option.bind_eq_bind, Option.bind_some, if_neg (by decide), if_pos rfl, store_append rfl,
    hsplit]
  simp only [Option.bind_eq_bind, Option.bind_some, along_append hlen, hsearch]
  cases x with
  | none => rfl
  | some r =>
    have hcut : pre ++ nul :: f ++ (l ++ r.1) = (pre ++ [nul]) ++ (f ++ l ++ r.1) := by simp
    simp only [Option.map_some, Option.bind_some, past]
    rw [hcut, along_append (by simp)]
    cases unquote (f ++ l ++ r.1) with
    | none => rfl
    | some u =>
      have hpos : pre.length + 1 + 1 + (l.length + r.2) = pre.length + 1 + (f ++ l).length + r.2 := by
        rw [List.length_append, hf]
        simp only [Bool.toNat_true]
        omega
      simp [hpos]

/-- the token `tok` is the word `w` as soon as a NUL comes behind `pre` -/
def Holds (pre : Str) (tok : ℕ) (w : Str) : Prop := tok ≤ pre.length ∧ cstr ((pre ++ [nul]).drop tok) = w

theorem Holds.final {tok : ℕ} {m : Str} (h : Holds pre tok w) (hm : pre ++ [nul] <+: m) : cstr (m.drop tok) = w := by
  obtain ⟨l, rfl⟩ := hm
  have hmem : '\x00' ∈ (pre ++ [nul]).drop tok := by
    rw [List.drop_append_of_le_length h.1]
    exact List.mem_append_right _ (List.mem_singleton_self _)
  rw [List.drop_append_of_le_length (by rw [List.length_append]; exact h.1.trans (Nat.le_add_right _ _)),
    cstr_append_of_mem hmem, h.2]

theorem Holds.mono {pre' : Str} {tok : ℕ} (h : Holds pre tok w) (hp : pre ++ [nul] <+: pre') : Holds pre' tok w := by
  have hlen := hp.length_le
  rw [List.length_append] at hlen
  exact ⟨h.1.trans (by omega), h.final (hp.trans (List.prefix_append _ _))⟩

/-- what ends a word is no quote -/
theorem ne_quote (hc : c = nul ∨ isspace c = true) : c ≠ quote := by
  rintro rfl
  exact absurd hc (by decide)

theorem ne_backslash (hc : c = nul ∨ isspace c = true) : c ≠ backslash := by
  rintro rfl
  exact absurd hc (by decide)

theorem Piece.written_quoted {p : Piece} (hquoted : p.quoted = true) (t : Str) :
    p.written ++ t = quote :: (doubled p.word ++ quote :: t) := by
  rw [Piece.written, if_pos hquoted]
  simp

/-- a word, and a quote with a NUL behind it -/
theorem unquote_last (hw : nul ∉ w) (y : Str) :
    ∃ x, unquoteLoop [] (doubled w ++ [quote] ++ nul :: y) = some (x ++ nul :: y) ∧
      x.length = (doubled w ++ [quote]).length ∧ ∃ junk, x ++ [nul] = w ++ nul :: junk := by
  have hbody : nul ∉ doubled w ++ [quote] := by
    intro h
    rcases List.mem_append.1 h with h | h
    · exact nul_not_mem_doubled hw h
    · exact absurd (List.mem_singleton.1 h) (by decide)
  have hword : unquoted (doubled w ++ [quote]) = w := by
    rw [unquoted_doubled]
    exact List.append_nil _
  obtain ⟨x, hloop, hlen, hx⟩ := unquote_spec hbody [] y
  rw [hword] at hx
  exact ⟨x, hloop, hlen.trans (Nat.zero_add _), hx⟩

/-- the token behind a NUL -/
theorem drop_behind (pre s : Str) (c : Char) : (pre ++ c :: s).drop (pre.length + 1) = s := by
  rw [← List.drop_drop, List.drop_left, List.drop_one, List.tail_cons]

/-- **A piece whose closing quote is found** comes out as its word -/
theorem token_closed (p : Piece) (ht : t = c :: t') (hc : c = nul ∨ isspace c = true) (hp : p.Closed (c = nul)) :
    ∃ pre' tok, pre <+: pre' ∧
      token (pre ++ (p.written ++ t)) pre.length toks = some (pre' ++ t, pre'.length, toks ++ [tok]) ∧
      Holds pre' tok p.word ∧ (p.quoted = true → c ≠ nul → nul ∈ pre'.drop tok) ∧
      (p.quoted = false → pre' = pre ++ p.word ∧ tok = pre.length) := by
  by_cases hquoted : p.quoted = true
  · obtain ⟨l, x, hends, htoken⟩ := @token_quoted pre t p.word toks c t' p.no_nul ht (ne_quote hc)
    rw [Piece.written_quoted hquoted, htoken]
    rcases hp hquoted with hst | ⟨rfl, hst⟩
    · rw [hst] at hends
      cases hends
      obtain ⟨x, hloop, hlen, junk, hx⟩ := unquote_spec (nul_not_mem_doubled p.no_nul) [] t
      have hword : unquoted (doubled p.word) = p.word := by simpa [unquoted] using unquoted_doubled p.word []
      rw [hword] at hx
      have hdrop := drop_behind pre (x ++ [nul]) nul
      refine ⟨pre ++ nul :: (x ++ [nul]), pre.length + 1, List.prefix_append _ _, ?_, ⟨?_, ?_⟩, fun _ _ => ?_, ?_⟩
      · rw [Option.bind_some, unquote, hloop]
        simp [hlen]
        omega
      · simp
      · rw [List.append_assoc, List.cons_append, drop_behind, hx, List.append_assoc]
        exact cstr_append_nul p.no_nul _
      · rw [hdrop]
        simp
      · simp [hquoted]
    · -- nothing comes behind the quote that is missed
      rw [hst] at hends
      cases hends
      obtain ⟨x, hloop, hlen, junk, hx⟩ := unquote_last p.no_nul t'
      refine ⟨pre ++ nul :: x, pre.length + 1, List.prefix_append _ _, ?_, ⟨?_, ?_⟩, fun _ h => absurd rfl h, ?_⟩
      · rw [ht, quotedtoken_nul, Option.bind_some, unquote, hloop]
        simp [hlen]
        omega
      · simp
      · rw [List.append_assoc, List.cons_append, drop_behind, hx]
        exact cstr_append_nul p.no_nul _
      · simp [hquoted]
  · obtain ⟨hne, hword⟩ := p.plain (by simpa using hquoted)
    have hplain : ∀ d ∈ p.word, d ≠ nul ∧ d ≠ quote ∧ ¬isspace d := fun d hd =>
      ⟨fun h => p.no_nul (h ▸ hd), (hword d hd).2.1, by simp [(hword d hd).1]⟩
    have hwritten : p.written = p.word := if_neg hquoted
    refine ⟨pre ++ p.word, pre.length, List.prefix_append _ _, ?_, ?_, fun h => absurd h hquoted, fun _ => ⟨rfl, rfl⟩⟩
    · rw [hwritten]
      exact token_plain hne hplain ht hc
    · refine ⟨by simp, ?_⟩
      rw [List.append_assoc, List.drop_left]
      exact cstr_append_nul p.no_nul []

/-- a string that goes on behind the word is not the word -/
theorem cstr_ne (hw : nul ∉ w) (hc : c ≠ nul) (s : Str) : cstr (w ++ c :: s) ≠ w := by
  intro h
  have hall : ∀ d ∈ w ++ [c], decide (d ≠ nul) = true := by
    intro d hd
    rcases List.mem_append.1 hd with hd | hd
    · exact decide_eq_true fun h => hw (h ▸ hd)
    · exact decide_eq_true (List.mem_singleton.1 hd ▸ hc)
  have hlong : cstr (w ++ [c] ++ s) = w ++ [c] ++ cstr s := List.takeWhile_append_of_pos hall
  rw [List.append_assoc, List.singleton_append, h] at hlong
  have hlen := congrArg List.length hlong
  simp at hlen

/-- what `unquote` makes of a word, its closing quote and something behind -/
theorem unquote_over (hw : nul ∉ w) (hc : c ≠ nul) {y : Str} {u : Str × ℕ}
    (h : unquote (doubled w ++ quote :: c :: y) = some u) : w ++ [c] <+: u.1 := by
  have hdoubled := nul_not_mem_doubled hw
  by_cases hy : nul ∈ y
  · obtain ⟨y₁, y₂, rfl, hy₁⟩ := List.eq_append_cons_of_mem hy
    have hbody : nul ∉ doubled w ++ quote :: c :: y₁ := by
      simp [hdoubled, hc.symm, hy₁, show nul ≠ quote by decide]
    obtain ⟨x, hloop, -, junk, hx⟩ := unquote_spec hbody [] y₂
    have hunq : unquoted (doubled w ++ quote :: c :: y₁) = w ++ c :: unquoted y₁ := by
      rw [unquoted_doubled]
      rfl
    rw [unquote, show doubled w ++ quote :: c :: (y₁ ++ nul :: y₂) = doubled w ++ quote :: c :: y₁ ++ nul :: y₂ by simp,
      hloop, Option.map_some] at h
    injection h with h
    subst h
    refine ⟨unquoted y₁ ++ nul :: junk ++ y₂, ?_⟩
    have hjoin : x ++ nul :: y₂ = x ++ [nul] ++ y₂ := by simp
    rw [hjoin, hx, hunq]
    simp
  · have hnone : unquoteLoop [] (doubled w ++ quote :: c :: y) = none := unquoteLoop_none
      (by simp [hdoubled, hc.symm, hy, show nul ≠ quote by decide]) []
    rw [unquote, hnone] at h
    cases h

/-- the token of a word whose closing quote is missed, with something behind -/
theorem over_ne (hw : nul ∉ w) (hc : c ≠ nul) {y : Str} {u : Str × ℕ}
    (h : unquote (doubled w ++ quote :: c :: y) = some u) :
    ∃ bad, bad <+: pre ++ nul :: u.1 ∧ bad.length ≤ pre.length + 1 + (doubled w).length + 1 ∧
      ∀ m', bad <+: m' → cstr (m'.drop (pre.length + 1)) ≠ w := by
  refine ⟨pre ++ nul :: (w ++ [c]), ?_, ?_, ?_⟩
  · rw [List.prefix_append_right_inj, List.prefix_cons_inj]
    exact unquote_over hw hc h
  · have hlen := length_le_doubled w
    simp only [List.length_append, List.length_cons, List.length_nil]
    omega
  · intro m' hx
    rcases hx with ⟨s, rfl⟩
    rw [List.append_assoc, List.cons_append, drop_behind, List.append_assoc]
    exact cstr_ne hw hc s

/-- **A piece whose closing quote is missed** comes out as something else, whatever is done to the line behind -/
theorem token_not_closed (p : Piece) (ht : t = c :: t') (hc : c = nul ∨ isspace c = true) (hp : ¬p.Closed (c = nul))
    (hend : c = nul → t' = []) {m : Str} {q : ℕ} {toks' : List ℕ}
    (h : token (pre ++ (p.written ++ t)) pre.length toks = some (m, q, toks')) :
    ∃ bad tok, toks' = toks ++ [tok] ∧ bad <+: m ∧ bad.length ≤ q ∧ ∀ m', bad <+: m' → cstr (m'.drop tok) ≠ p.word := by
  obtain ⟨hquoted, hopen⟩ : p.quoted = true ∧
      ¬(stops true p.word = .closed ∨ c = nul ∧ stops true p.word = .missed) := by
    simpa [Piece.Closed] using hp
  obtain ⟨l, x, hends, htoken⟩ := @token_quoted pre t p.word toks c t' p.no_nul ht (ne_quote hc)
  rw [Piece.written_quoted hquoted, htoken] at h
  obtain ⟨r, rfl, h⟩ := Option.bind_eq_some_iff.1 h
  obtain ⟨u, hu, h⟩ := Option.map_eq_some_iff.1 h
  obtain ⟨rfl, rfl, rfl⟩ : pre ++ nul :: u.1 = m ∧ pre.length + 1 + l.length + r.2 = q ∧
      toks ++ [pre.length + 1] = toks' := by simpa using h
  generalize hst : stops true p.word = st at hends hopen
  generalize hx : some r = x at hends
  cases hends with
  | closed => exact absurd (Or.inl rfl) hopen
  | missed =>
    have hnul : c ≠ nul := fun h => hopen (Or.inr ⟨h, rfl⟩)
    rw [ht, quotedtoken_char hnul (ne_quote hc) (ne_backslash hc)] at hx
    obtain ⟨r', -, rfl⟩ := Option.map_eq_some_iff.1 hx.symm
    rw [List.append_assoc] at hu
    obtain ⟨bad, hbad, hlen, hne⟩ := @over_ne pre p.word c p.no_nul hnul _ _ hu
    refine ⟨bad, pre.length + 1, rfl, hbad, hlen.trans ?_, hne⟩
    simp only [List.length_append, List.length_cons, List.length_nil, past]
    omega
  | beyond d t'' ht' =>
    rw [ht] at ht'
    obtain ⟨rfl, rfl⟩ := List.cons.inj ht'
    by_cases hnul : c = nul
    · rw [hend hnul] at hx
      cases hx
    · rw [List.append_assoc] at hu
      obtain ⟨bad, hbad, hlen, hne⟩ := @over_ne pre p.word c p.no_nul hnul _ _ hu
      refine ⟨bad, pre.length + 1, rfl, hbad, hlen.trans ?_, hne⟩
      simp only [List.length_append, List.length_cons, List.length_nil]
      omega
  | cut u' v y hw =>
    cases hx
    have hu' : nul ∉ u' := fun h => p.no_nul (by rw [hw]; exact List.mem_append_left _ h)
    obtain ⟨x, hloop, hlen, junk, hx⟩ := unquote_last hu' y
    rw [unquote, hloop, Option.map_some] at hu
    injection hu with hu
    subst hu
    refine ⟨pre ++ nul :: (x ++ [nul]), pre.length + 1, rfl, ⟨y, by simp⟩, ?_, ?_⟩
    · simp at hlen ⊢
      omega
    · intro m' hcase heq
      rcases hcase with ⟨s, rfl⟩
      rw [List.append_assoc, List.cons_append, drop_behind, hx, List.append_assoc, List.cons_append] at heq
      have hcut : cstr (u' ++ nul :: (junk ++ s)) = u' := cstr_append_nul hu' _
      rw [hcut, hw] at heq
      simpa using congrArg List.length heq

end Token

/-! ## The loop -/

section Loop

variable {pre bad m m' : Str} {p q : ℕ} {toks toks' : List ℕ}

theorem along_keeps {f : Str → Option (Str × ℕ)} (hm : bad <+: m) (hp : bad.length ≤ p)
    (h : along m p f = some (m', q)) : bad <+: m' ∧ bad.length ≤ q := by
  obtain ⟨r, -, hr⟩ := Option.map_eq_some_iff.1 h
  injection hr with hm' hq
  subst hm' hq
  exact ⟨(List.prefix_take_iff.2 ⟨hm, hp⟩).trans (List.prefix_append _ _), hp.trans (Nat.le_add_right _ _)⟩

theorem store_keeps {a : Char} (hm : bad <+: m) (hp : bad.length ≤ p) (h : store m p a = some m') : bad <+: m' := by
  unfold store blit at h
  split at h
  case isTrue hfit =>
    injection h with h
    subst h
    rw [List.append_assoc]
    exact (List.prefix_take_iff.2 ⟨hm, hp⟩).trans (List.prefix_append _ _)
  case isFalse => cases h

/-- the line in front of the pointer is left alone, and tokens are only added -/
theorem token_keeps (hm : bad <+: m) (hp : bad.length ≤ p) (h : token m p toks = some (m', q, toks')) :
    bad <+: m' ∧ bad.length ≤ q ∧ toks <+: toks' := by
  unfold token at h
  obtain ⟨c, -, h⟩ := Option.bind_eq_some_iff.1 h
  split_ifs at h
  · cases h
    exact ⟨hm, hp, List.prefix_rfl⟩
  · obtain ⟨m₁, hm₁, h⟩ := Option.bind_eq_some_iff.1 h
    obtain ⟨⟨m₂, p₂⟩, hm₂, h⟩ := Option.bind_eq_some_iff.1 h
    obtain ⟨⟨m₃, p₃⟩, hm₃, h⟩ := Option.bind_eq_some_iff.1 h
    cases h
    have hk₂ := along_keeps (store_keeps hm hp hm₁) (by omega) hm₂
    have hk₃ := along_keeps hk₂.1 (by omega) hm₃
    exact ⟨hk₃.1, hk₂.2, List.prefix_append _ _⟩
  · obtain ⟨⟨m₁, p₁⟩, hm₁, h⟩ := Option.bind_eq_some_iff.1 h
    cases h
    have hk₁ := along_keeps hm hp hm₁
    exact ⟨hk₁.1, hk₁.2, List.prefix_append _ _⟩

theorem tokenLoop_keeps {maxtoks : ℤ} {fuel : ℕ} (hm : bad <+: m) (hp : bad.length ≤ p)
    (h : tokenLoop maxtoks fuel m p toks = some (m', toks')) : bad <+: m' ∧ toks <+: toks' := by
  induction fuel generalizing m p toks with
  | zero => cases h
  | succ fuel ih =>
    unfold tokenLoop at h
    obtain ⟨c, -, h⟩ := Option.bind_eq_some_iff.1 h
    split_ifs at h
    · cases h
      exact ⟨hm, List.prefix_rfl⟩
    · obtain ⟨⟨m₁, p₁⟩, hm₁, h⟩ := Option.bind_eq_some_iff.1 h
      obtain ⟨⟨m₂, p₂, toks₂⟩, hm₂, h⟩ := Option.bind_eq_some_iff.1 h
      have hk₁ := along_keeps hm hp hm₁
      have hk₂ := token_keeps hk₁.1 hk₁.2 hm₂
      dsimp only at h
      split_ifs at h
      · cases h
        exact ⟨hk₂.1, hk₂.2.2⟩
      · have hk₃ := ih hk₂.1 hk₂.2.1 h
        exact ⟨hk₃.1, hk₂.2.2.trans hk₃.2⟩

theorem skipBlanks_gap {gap s : Str} {c : Char} (hgap : ∀ d ∈ gap, isspace d = true) (hc : isspace c = false) :
    skipBlanks (gap ++ c :: s) = some (List.replicate gap.length nul ++ c :: s, gap.length) := by
  induction gap with
  | nil =>
    rw [List.nil_append, skipBlanks, if_neg (by simp [hc])]
    rfl
  | cons d gap ih =>
    obtain ⟨hd, hgap⟩ := List.forall_mem_cons.1 hgap
    rw [List.cons_append, skipBlanks, if_pos hd, ih hgap, Option.map_some, past]
    simp [List.replicate_succ, Nat.add_comm]

/-- a piece starts with a character that is neither white space nor a NUL -/
theorem Piece.exists_written (p : Piece) : ∃ d s, p.written = d :: s ∧ isspace d = false ∧ d ≠ nul := by
  unfold Piece.written
  split
  case isTrue => exact ⟨quote, _, rfl, by decide, by decide⟩
  case isFalse hquoted =>
    obtain ⟨hne, hword⟩ := p.plain (by simpa using hquoted)
    obtain ⟨d, s, hd⟩ := List.exists_cons_of_ne_nil hne
    have hmem : d ∈ p.word := by rw [hd]; exact List.mem_cons_self
    exact ⟨d, s, hd, (hword d hmem).1, fun h => p.no_nul (h ▸ hmem)⟩

/-- the loop at a piece: the white space is overwritten, then comes the token -/
theorem tokenLoop_piece (maxtoks : ℤ) (fuel : ℕ) (x : Piece) (t : Str) :
    tokenLoop maxtoks (fuel + 1) (pre ++ (x.gap ++ x.written ++ t)) pre.length toks =
      (token (pre ++ List.replicate x.gap.length nul ++ (x.written ++ t))
        (pre ++ List.replicate x.gap.length nul).length toks).bind fun r =>
        if (r.2.2.length : ℤ) ≥ maxtoks then some (r.1, r.2.2) else tokenLoop maxtoks fuel r.1 r.2.1 r.2.2 := by
  obtain ⟨d, s, hwritten, hspace, hnul⟩ := x.exists_written
  have hfirst : ∃ c l, x.gap ++ x.written ++ t = c :: l ∧ c ≠ nul := by
    cases hgap : x.gap with
    | nil => exact ⟨d, s ++ t, by rw [hwritten]; rfl, hnul⟩
    | cons c gap =>
      refine ⟨c, gap ++ x.written ++ t, rfl, ?_⟩
      rintro rfl
      exact absurd (x.isspace_gap nul (by rw [hgap]; exact List.mem_cons_self)) (by decide)
  obtain ⟨c, l, hcl, hc⟩ := hfirst
  have hblanks : skipBlanks (x.gap ++ x.written ++ t) =
      some (List.replicate x.gap.length nul ++ (x.written ++ t), x.gap.length) := by
    rw [hwritten, List.append_assoc, List.cons_append]
    exact skipBlanks_gap x.isspace_gap hspace
  have hload : load (pre ++ (x.gap ++ x.written ++ t)) pre.length = some c := by
    rw [hcl]
    exact load_append rfl
  rw [tokenLoop, hload, Option.bind_eq_bind, Option.bind_some, if_neg hc, along_append rfl, hblanks]
  simp [List.append_assoc]

/-- the tokens in the line are these words -/
def Words (m : Str) (toks : List ℕ) (ws : List Str) : Prop := toks.map (fun t => cstr (m.drop t)) = ws

theorem words_of_holds {ws : List Str} (h : List.Forall₂ (Holds pre) toks ws) (hm : pre ++ [nul] <+: m) :
    Words m toks ws := by
  induction h with
  | nil => rfl
  | cons hd _ ih => exact congrArg₂ List.cons (hd.final hm) ih

theorem words_append {toks₂ : List ℕ} {ws ws₂ : List Str} (hlen : toks.length = ws.length) :
    Words m (toks ++ toks₂) (ws ++ ws₂) ↔ Words m toks ws ∧ Words m toks₂ ws₂ := by
  unfold Words
  rw [List.map_append]
  exact ⟨fun h => List.append_inj h (by simpa using hlen), fun h => by rw [h.1, h.2]⟩

/-- the last token is right as it stands, if there is nothing behind it or it is cut already -/
theorem holds_last_iff {x : Piece} {tok : ℕ} {c : Char} {s : Str} (hc : c = nul ∨ isspace c = true)
    (hholds : Holds pre tok x.word) (hcut : x.quoted = true → c ≠ nul → nul ∈ pre.drop tok)
    (hplain : x.quoted = false → ∃ pre₀, pre = pre₀ ++ x.word ∧ tok = pre₀.length) :
    cstr ((pre ++ c :: s).drop tok) = x.word ↔ c = nul ∨ x.quoted = true := by
  by_cases hnul : c = nul
  · subst hnul
    exact iff_of_true (hholds.final ⟨s, by simp⟩) (Or.inl rfl)
  by_cases hquoted : x.quoted = true
  · have hmem : '\x00' ∈ pre.drop tok := hcut hquoted hnul
    have hword := hholds.2
    rw [List.drop_append_of_le_length hholds.1, cstr_append_of_mem hmem] at hword ⊢
    exact iff_of_true hword (Or.inr hquoted)
  · obtain ⟨pre₀, rfl, rfl⟩ := hplain (by simpa using hquoted)
    rw [List.append_assoc, List.drop_left]
    refine iff_of_false (cstr_ne x.no_nul hnul s) ?_
    simp [hnul, hquoted]

/-- what comes behind a piece: the NUL if it is the last one, and white space otherwise -/
theorem text_behind (behind : Str) (ps : List Piece) (hsep : ∀ x ∈ ps, x.gap ≠ []) :
    ∃ c s, text ps ++ nul :: behind = c :: s ∧ (c = nul ∨ isspace c = true) ∧ (c = nul ↔ ps = []) := by
  cases ps with
  | nil => exact ⟨nul, behind, rfl, Or.inl rfl, iff_of_true rfl rfl⟩
  | cons y ps =>
    obtain ⟨c, gap, hgap⟩ := List.exists_cons_of_ne_nil (hsep y List.mem_cons_self)
    have hspace := y.isspace_gap c (by rw [hgap]; exact List.mem_cons_self)
    refine ⟨c, gap ++ y.written ++ text ps ++ nul :: behind, by simp [text, hgap], Or.inr hspace, ?_⟩
    refine iff_of_false ?_ (List.cons_ne_nil y ps)
    rintro rfl
    exact absurd hspace (by decide)

/-- **The loop.** From a piece on, the tokens come out as the first words if the line is tokenizable, and only then if
nothing is in memory behind the line. -/
theorem tokenLoop_words (behind : Str) (maxtoks : ℤ) (ps : List Piece) (fuel : ℕ) (ws : List Str)
    (hfuel : ps.length < fuel) (hmax : (toks.length : ℤ) < maxtoks) (htoks : List.Forall₂ (Holds pre) toks ws)
    (hfirst : toks = [] ∨ ∀ x ∈ ps, x.gap ≠ []) (hsep : ∀ x ∈ ps.tail, x.gap ≠ []) :
    let k := (maxtoks - toks.length).toNat
    let Good := ∃ m toks',
      tokenLoop maxtoks fuel (pre ++ (text ps ++ nul :: behind)) pre.length toks = some (m, toks') ∧
      Words m toks' (ws ++ (ps.map Piece.word).take k)
    (Tokenizable ps k → Good) ∧ (behind = [] → Good → Tokenizable ps k) := by
  induction ps generalizing pre toks ws fuel with
  | nil =>
    obtain ⟨fuel, rfl⟩ := Nat.exists_eq_succ_of_ne_zero (Nat.ne_of_gt hfuel)
    refine ⟨fun _ => ⟨pre ++ nul :: behind, toks, ?_, ?_⟩, fun _ _ => trivial⟩
    · have hload : load (pre ++ (text [] ++ nul :: behind)) pre.length = some nul := load_append rfl
      rw [tokenLoop, hload, Option.bind_eq_bind, Option.bind_some, if_pos rfl]
      rfl
    · rw [List.map_nil, List.take_nil, List.append_nil]
      exact words_of_holds htoks ⟨behind, by simp⟩
  | cons x ps ih =>
    obtain ⟨fuel, rfl⟩ := Nat.exists_eq_succ_of_ne_zero (Nat.ne_of_gt (Nat.zero_lt_of_lt hfuel))
    dsimp only
    obtain ⟨c, s, ht, hc, hlast⟩ := text_behind behind ps hsep
    obtain ⟨k, hk⟩ : ∃ k, (maxtoks - toks.length).toNat = k + 1 := ⟨(maxtoks - toks.length).toNat - 1, by omega⟩
    have hstep := @tokenLoop_piece pre toks maxtoks fuel x (text ps ++ nul :: behind)
    have htext : text (x :: ps) ++ nul :: behind = x.gap ++ x.written ++ (text ps ++ nul :: behind) := by
      simp [text]
    have hlen : toks.length = ws.length := htoks.length_eq
    have hclosed_iff : x.Closed (ps = []) ↔ x.Closed (c = nul) := by rw [propext hlast]
    rw [htext, hstep, hk, List.map_cons, List.take_succ_cons, Tokenizable, hclosed_iff, ht]
    set pre₁ := pre ++ List.replicate x.gap.length nul with hpre₁
    by_cases hclosed : x.Closed (c = nul)
    · obtain ⟨pre', tok, hpre', htoken, hholds, hcut, hplain⟩ :=
        @token_closed pre₁ (c :: s) toks c s x rfl hc hclosed
      -- the tokens before are cut by the white space
      have hbefore : toks = [] ∨ pre ++ [nul] <+: pre' := by
        refine hfirst.imp_right fun hgap => List.IsPrefix.trans ?_ hpre'
        obtain ⟨d, gap, hd⟩ := List.exists_cons_of_ne_nil (hgap x List.mem_cons_self)
        exact ⟨List.replicate gap.length nul, by simp [hpre₁, hd, List.replicate_succ]⟩
      rw [htoken, Option.bind_some]
      dsimp only
      by_cases hfull : ((toks ++ [tok]).length : ℤ) ≥ maxtoks
      · -- the last token there is room for
        obtain rfl : k = 0 := by
          rw [List.length_append, List.length_singleton] at hfull
          omega
        have hright : Words (pre' ++ c :: s) (toks ++ [tok]) (ws ++ [x.word]) ↔ ps = [] ∨ x.quoted = true := by
          rw [words_append hlen, ← hlast, ← holds_last_iff hc hholds hcut fun h => ⟨pre₁, hplain h⟩]
          have hprior : Words (pre' ++ c :: s) toks ws := by
            rcases hbefore with rfl | hbefore
            · cases htoks
              rfl
            · exact words_of_holds htoks (hbefore.trans (List.prefix_append _ _))
          rw [and_iff_right hprior]
          exact ⟨fun h => (List.cons.inj h).1, fun h => congrArg (· :: []) h⟩
        rw [if_pos hfull, List.take_zero]
        refine ⟨fun h => ⟨_, _, rfl, hright.2 (h.2.1 rfl)⟩, ?_⟩
        rintro - ⟨m, toks', hres, hwords⟩
        cases hres
        refine ⟨hclosed, fun _ => hright.1 hwords, ?_⟩
        cases ps <;> trivial
      · have hold : List.Forall₂ (Holds pre') toks ws := by
          rcases hbefore with rfl | hbefore
          · cases htoks
            exact List.Forall₂.nil
          · exact htoks.imp fun tok w h => h.mono hbefore
        have hall := List.rel_append hold (List.Forall₂.cons hholds List.Forall₂.nil)
        have hrest := @ih pre' (toks ++ [tok]) fuel (ws ++ [x.word]) (Nat.lt_of_succ_lt_succ hfuel)
          (not_le.1 hfull) hall (Or.inr hsep) fun y hy => hsep y (List.mem_of_mem_tail hy)
        have hk' : (maxtoks - (toks ++ [tok]).length).toNat = k := by
          rw [List.length_append, List.length_singleton]
          omega
        have hpos : k ≠ 0 := by
          rw [List.length_append, List.length_singleton] at hfull
          omega
        simp only [hk', ht, List.append_assoc, List.singleton_append] at hrest
        rw [if_neg hfull]
        exact ⟨fun h => hrest.1 h.2.2, fun hb h => ⟨hclosed, fun h0 => absurd h0 hpos, hrest.2 hb h⟩⟩
    · refine ⟨fun h => absurd h.1 hclosed, ?_⟩
      rintro rfl ⟨m, toks', hres, hwords⟩
      obtain ⟨⟨m₁, q₁, toks₁⟩, htoken, hrest⟩ := Option.bind_eq_some_iff.1 hres
      have hend : c = nul → s = [] := by
        intro hnul
        rw [hlast.1 hnul] at ht
        exact (List.cons.inj ht).2.symm
      obtain ⟨bad, tok, rfl, hbad, hq, hne⟩ := token_not_closed x rfl hc hclosed hend htoken
      have hfinal : bad <+: m ∧ toks ++ [tok] <+: toks' := by
        dsimp only at hrest
        split_ifs at hrest
        · cases hrest
          exact ⟨hbad, List.prefix_rfl⟩
        · exact tokenLoop_keeps hbad hq hrest
      obtain ⟨hbad', z, rfl⟩ := hfinal
      rw [List.append_assoc, words_append hlen] at hwords
      exact absurd (List.cons.inj hwords.2).1 (hne m hbad')

theorem length_le_text (ps : List Piece) : ps.length ≤ (text ps).length := by
  induction ps with
  | nil => exact le_rfl
  | cons x ps ih =>
    obtain ⟨d, s, hwritten, -⟩ := x.exists_written
    have htext : text (x :: ps) = x.gap ++ x.written ++ text ps := rfl
    rw [htext, hwritten]
    simp only [List.length_append, List.length_cons]
    omega

end Loop

/-- **When a line is tokenized right.** For every line of words, plain or quoted, and every `maxtoks` from 1 on. -/
theorem tokenizeq_right_iff (l : Line) (maxtoks : ℤ) (hmax : 1 ≤ maxtoks) :
    Right l maxtoks ↔ Tokenizable l.pieces maxtoks.toNat := by
  have hloop := fun behind => @tokenLoop_words [] [] behind maxtoks l.pieces
    ((text l.pieces ++ nul :: behind).length + 1) []
    (by rw [List.length_append]; have := length_le_text l.pieces; omega) hmax List.Forall₂.nil (Or.inl rfl) l.separated
  simp only [List.length_nil, Nat.cast_zero, sub_zero, List.nil_append] at hloop
  constructor
  · intro h
    refine (hloop []).2 rfl ?_
    obtain ⟨m, toks, hres, hwords⟩ := h []
    rw [tokenizeq, if_neg (by omega)] at hres
    obtain ⟨r, hr, heq⟩ := Option.map_eq_some_iff.1 hres
    injection heq with _ heq
    exact ⟨m, toks, hr.trans (congrArg some heq), hwords⟩
  · intro h behind
    obtain ⟨m, toks, hres, hwords⟩ := (hloop behind).1 h
    have hlen := congrArg List.length hwords
    rw [List.length_map, List.length_take, List.length_map] at hlen
    refine ⟨m, toks, ?_, hwords⟩
    rw [tokenizeq, if_neg (by omega), hres, Option.map_some, hlen]
    congr 2
    omega

/-- a piece with these characters in quotes -/
def quotedPiece (word : Str) (h : nul ∉ word) : Piece :=
  ⟨[' '], word, true, by decide, h, fun h => absurd h (by decide)⟩

/-- the words "it's" and "a" -/
def its : Line := ⟨[quotedPiece ['i', 't', quote, 's'] (by decide), quotedPiece ['a'] (by decide)], by decide⟩

theorem its_right : 1 ≤ (9 : ℤ) ∧ Right its 9 := ⟨by decide, (tokenizeq_right_iff its 9 (by decide)).2 (by decide)⟩

/-- the word "'a" -/
def quoteA : Line := ⟨[quotedPiece [quote, 'a'] (by decide)], by decide⟩

/-- **A word that begins with a quote.** Its end is found too early, and "a" and the rest become tokens of their own. -/
theorem quote_first :
    tokenizeq (text quoteA.pieces ++ [nul, nul]) 9 = some (3, [nul, nul, nul, nul, 'a', nul, nul, nul], [2, 4, 6]) ∧
      ¬Right quoteA 9 := by
  have hthree :
      tokenizeq (text quoteA.pieces ++ [nul, nul]) 9 =
        some (3, [nul, nul, nul, nul, 'a', nul, nul, nul], [2, 4, 6]) := by
    decide
  refine ⟨hthree, fun h => ?_⟩
  obtain ⟨m, toks, hres, -⟩ := h [nul]
  rw [hthree] at hres
  injection hres with hres
  injection hres with hcount
  exact absurd hcount (by decide)

end MNetSoft.Resh
