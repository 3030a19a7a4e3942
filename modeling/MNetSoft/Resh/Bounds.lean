/-
What `tokenizeq` of `token.c` reads and writes. The line is given with its NUL and nothing behind it, so an access
behind the NUL is undefined (`none`).

`quotedtoken` takes quotes and backslashes in twos and threes, and it is called with the second character of the token.
Both lead over the NUL: a quote that opens a token and has nothing behind it, and in the search for the closing quote a
backslash with one character left.
- `quotedtoken_closing`, `unquote_within`: the two functions on a line from any place on.
- `tokenizeq_within_iff`: when the line is not left.
- `lone_quote`: the line of one quote.
-/
import Mathlib.Tactic
import MNetSoft.Resh.Token

namespace MNetSoft.Resh

open MNetSoft.CString MNetSoft.Memory

/-! ## When the line is not left -/

/-- what comes behind a token, from where its closing quote is searched on; `none` if the search leaves the line -/
def closing : Str → Option Str
  | [] => some []
  | c :: s =>
    if c = quote then
      match s with
      | [] => some []
      | d :: s' => if d = quote then closing s' else some (d :: s')
    else if c = backslash then
      match s with
      | [] => some []
      | [_] => none
      | _ :: _ :: s' => closing s'
    else closing s

/-- what comes behind a token, from its first character on -/
def rest : Str → Option Str
  | [] => some []
  | c :: s =>
    if c = quote then
      match s with
      | [] => none
      | _ :: s' => closing s'
    else some ((c :: s).dropWhile fun d => d ≠ quote ∧ ¬isspace d)

/-- the first `k` tokens end in the line -/
def Bounded : ℕ → Str → Prop
  | 0, _ => True
  | k + 1, s => ∃ t ∈ rest (s.dropWhile fun c => isspace c), Bounded k t

instance Bounded.decidable : ∀ k s, Decidable (Bounded k s)
  | 0, _ => isTrue trivial
  | k + 1, s =>
    have := Bounded.decidable k
    inferInstanceAs (Decidable (∃ t ∈ rest (s.dropWhile fun c => isspace c), Bounded k t))

/-- the tokenizer comes to an end in the line `l` and its NUL, with no more tokens than there is room for -/
def Within (l : Str) (maxtoks : ℤ) : Prop :=
  ∃ n m toks, tokenizeq (l ++ [nul]) maxtoks = some (n, m, toks) ∧ (toks.length : ℤ) ≤ maxtoks

/-! ## The two functions on a quoted token -/

/-- the search goes over `l` and does the same from there on -/
theorem exists_past {s : Str} {o : Option Str} (l : Str) {n : ℕ}
    (h : ∃ u, quotedtoken (s ++ [nul]) = o.map (fun t => (u ++ (t ++ [nul]), u.length)) ∧
      ∀ t ∈ o, (t = [] ∨ nul ∈ u) ∧ nul ∉ t ∧ t.length ≤ s.length) (hn : s.length ≤ n) :
    ∃ u, (quotedtoken (s ++ [nul])).map (past l) = o.map (fun t => (u ++ (t ++ [nul]), u.length)) ∧
      ∀ t ∈ o, (t = [] ∨ nul ∈ u) ∧ nul ∉ t ∧ t.length ≤ n := by
  obtain ⟨u, hu, ht⟩ := h
  refine ⟨l ++ u, ?_, fun t hmem => ?_⟩
  · rw [hu, Option.map_map]
    congr 1
    funext t
    simp [past]
  · obtain ⟨hend, hnul, hlen⟩ := ht t hmem
    exact ⟨hend.imp_right (List.mem_append_right l), hnul, hlen.trans hn⟩

/-- **The search for the closing quote.** It stops behind a NUL that it has put there, or at the NUL of the line. -/
theorem quotedtoken_closing (s : Str) (hs : nul ∉ s) :
    ∃ u, quotedtoken (s ++ [nul]) = (closing s).map (fun t => (u ++ (t ++ [nul]), u.length)) ∧
      ∀ t ∈ closing s, (t = [] ∨ nul ∈ u) ∧ nul ∉ t ∧ t.length ≤ s.length := by
  fun_induction closing s with
  | case1 => exact ⟨[], quotedtoken_nul [], by simp⟩
  | case2 => exact ⟨[nul], quotedtoken_single (by decide) [], by simp⟩
  | case3 s ih =>
    have hpast := exists_past [quote, quote] (ih (by simp_all)) (Nat.le_add_right _ 2)
    rw [List.cons_append, List.cons_append, quotedtoken_pair]
    exact hpast
  | case4 d s hd =>
    refine ⟨[nul], quotedtoken_single hd (s ++ [nul]), ?_⟩
    intro t ht
    cases ht
    exact ⟨Or.inr (List.mem_singleton_self _), fun h => hs (List.mem_cons_of_mem _ h), by simp⟩
  | case5 => exact ⟨[backslash], by decide, by simp⟩
  | case6 d =>
    have hd : d ≠ nul := by
      rintro rfl
      simp at hs
    exact ⟨[], quotedtoken_backslash hd nul [], by simp⟩
  | case7 d e s _ ih =>
    have hd : d ≠ nul := by
      rintro rfl
      simp at hs
    have hpast := exists_past [backslash, d, e] (ih (by simp_all)) (Nat.le_add_right _ 3)
    rw [List.cons_append, List.cons_append, List.cons_append, quotedtoken_backslash hd]
    exact hpast
  | case8 c s hquote hback ih =>
    have hc : c ≠ nul := by
      rintro rfl
      simp at hs
    have hpast := exists_past [c] (ih (by simp_all)) (Nat.le_add_right _ 1)
    rw [List.cons_append, quotedtoken_char hc hquote hback]
    exact hpast

/-- **Removing the quotes.** Nothing behind the first NUL is read or written. -/
theorem unquote_within (u t : Str) (h : t = [] ∨ nul ∈ u) :
    ∃ u', unquote (u ++ (t ++ [nul])) = some (u' ++ (t ++ [nul]), 0) ∧ u'.length = u.length := by
  by_cases hu : nul ∈ u
  · obtain ⟨body, behind, rfl, hbody⟩ := List.eq_append_cons_of_mem hu
    obtain ⟨x, hloop, hlen, -⟩ := unquote_spec hbody [] (behind ++ (t ++ [nul]))
    refine ⟨x ++ nul :: behind, ?_, by simp [hlen]⟩
    rw [unquote, List.append_assoc, List.cons_append, hloop]
    simp
  · obtain rfl := h.resolve_right hu
    obtain ⟨x, hloop, hlen, -⟩ := unquote_spec hu [] []
    refine ⟨x, ?_, by simpa using hlen⟩
    rw [unquote, List.nil_append, hloop]
    rfl

/-! ## The loop -/

section Loop

variable {pre s : Str} {toks : List ℕ} {maxtoks : ℤ}

theorem simpletoken_plain (hs : nul ∉ s) :
    simpletoken (s ++ [nul]) = some (s ++ [nul], (s.takeWhile fun d => d ≠ quote ∧ ¬isspace d).length) := by
  induction s with
  | nil => rfl
  | cons c s ih =>
    obtain ⟨hc, hs⟩ := not_or.1 (mt List.mem_cons.2 hs)
    by_cases hplain : c ≠ quote ∧ ¬isspace c
    · rw [List.cons_append, simpletoken, if_pos ⟨Ne.symm hc, hplain⟩, ih hs, Option.map_some, past]
      simp [hplain, Nat.add_comm]
    · rw [List.cons_append, simpletoken, if_neg fun h => hplain h.2, List.takeWhile_cons_of_neg (by simpa using hplain)]
      rfl

theorem token_end : token (pre ++ [nul]) pre.length toks = some (pre ++ [nul], pre.length, toks) := by
  rw [token, load_append rfl, Option.bind_eq_bind, Option.bind_some, if_pos rfl]
  rfl

theorem token_simple {c : Char} (hs : nul ∉ c :: s) (hquote : c ≠ quote) (hspace : isspace c = false) :
    ∃ w t, rest (c :: s) = some t ∧ c :: s = w ++ t ∧ w ≠ [] ∧
      token (pre ++ (c :: s ++ [nul])) pre.length toks =
        some (pre ++ w ++ (t ++ [nul]), (pre ++ w).length, toks ++ [pre.length]) := by
  have hnul : c ≠ nul := fun h => hs (h ▸ List.mem_cons_self)
  have hsplit := List.takeWhile_append_dropWhile (p := fun d => decide (d ≠ quote ∧ ¬isspace d)) (l := c :: s)
  refine ⟨_, _, if_neg hquote, hsplit.symm, ?_, ?_⟩
  · rw [List.takeWhile_cons_of_pos (by simp [hquote, hspace])]
    exact List.cons_ne_nil _ _
  · have hsimple := simpletoken_plain hs
    rw [List.cons_append] at hsimple ⊢
    rw [token, load_append rfl, Option.bind_eq_bind, Option.bind_some, if_neg hnul, if_neg hquote, along_append rfl,
      hsimple, List.append_assoc, ← List.append_assoc _ _ [nul], hsplit, List.length_append]
    rfl

/-- an opening quote: the token starts behind it, and its end is searched from the second character on -/
theorem token_opened (m : Str) :
    token (pre ++ quote :: m) pre.length toks =
      (along (pre ++ nul :: m) (pre.length + 1 + 1) quotedtoken).bind fun r =>
        (along r.1 (pre.length + 1) unquote).map fun u => (u.1, r.2, toks ++ [pre.length + 1]) := by
  rw [token, load_append rfl, Option.bind_eq_bind, Option.bind_some, if_neg (by decide), if_pos rfl, store_append rfl]
  simp only [Option.bind_eq_bind, Option.bind_some]
  congr 1
  funext r
  cases along r.1 (pre.length + 1) unquote <;> rfl

theorem token_quote (c : Char) (hs : nul ∉ s) :
    (closing s = none → token (pre ++ (quote :: c :: s ++ [nul])) pre.length toks = none) ∧
    ∀ t ∈ closing s, ∃ pre', token (pre ++ (quote :: c :: s ++ [nul])) pre.length toks =
      some (pre' ++ (t ++ [nul]), pre'.length, toks ++ [pre.length + 1]) := by
  obtain ⟨u, hu, hclosing⟩ := quotedtoken_closing s hs
  have hsearch : along (pre ++ nul :: (c :: s ++ [nul])) (pre.length + 1 + 1) quotedtoken =
      (closing s).map fun t => (pre ++ [nul] ++ (c :: u ++ (t ++ [nul])), (pre ++ [nul] ++ c :: u).length) := by
    have hcells : pre ++ nul :: (c :: s ++ [nul]) = pre ++ [nul, c] ++ (s ++ [nul]) := by simp
    rw [hcells, along_append (by simp), hu, Option.map_map]
    congr 1
    funext t
    simp
    omega
  rw [List.cons_append, token_opened, hsearch]
  refine ⟨fun hnone => by rw [hnone]; rfl, fun t ht => ?_⟩
  obtain ⟨hend, -, -⟩ := hclosing t ht
  obtain ⟨u', hunquote, hlen⟩ := unquote_within (c :: u) t (hend.imp_right (List.mem_cons_of_mem _))
  refine ⟨pre ++ [nul] ++ u', ?_⟩
  have hlen' : (pre ++ [nul] ++ c :: u).length = (pre ++ [nul] ++ u').length := by
    simp only [List.length_append, hlen]
  rw [Option.mem_def.1 ht, Option.map_some, Option.bind_some, along_append (by simp), hunquote, Option.map_some,
    Option.map_some, hlen', List.append_assoc (pre ++ [nul]) u']

/-- one token, where no white space is in front -/
theorem token_rest (hs : nul ∉ s) (hspace : ∀ c ∈ s.head?, isspace c = false) :
    (rest s = none → token (pre ++ (s ++ [nul])) pre.length toks = none) ∧
    ∀ t ∈ rest s, ∃ pre' new, token (pre ++ (s ++ [nul])) pre.length toks =
        some (pre' ++ (t ++ [nul]), pre'.length, toks ++ new) ∧
      nul ∉ t ∧ (s = [] → t = [] ∧ new = []) ∧ (s ≠ [] → t.length < s.length ∧ new.length = 1) := by
  cases s with
  | nil =>
    refine ⟨(nomatch ·), ?_⟩
    rintro t ⟨⟩
    exact ⟨pre, [], by simpa using token_end, by simp, fun _ => ⟨rfl, rfl⟩, fun h => absurd rfl h⟩
  | cons c s =>
    by_cases hquote : c = quote
    · subst hquote
      cases s with
      | nil =>
        refine ⟨fun _ => ?_, fun t ht => nomatch ht⟩
        have hbehind : pre.length + 1 + 1 = (pre ++ [nul, nul]).length := by simp
        have hcells : pre ++ nul :: ([] ++ [nul]) = pre ++ [nul, nul] ++ [] := by simp
        rw [List.cons_append, token_opened, hcells, along_append hbehind]
        rfl
      | cons d s =>
        have hs' : nul ∉ s := fun h => hs (List.mem_cons_of_mem _ (List.mem_cons_of_mem _ h))
        obtain ⟨hnone, hsome⟩ := @token_quote pre s toks d hs'
        refine ⟨hnone, fun t ht => ?_⟩
        obtain ⟨pre', htoken⟩ := hsome t ht
        obtain ⟨u, -, hclosing⟩ := quotedtoken_closing s hs'
        obtain ⟨-, hnul, hlen⟩ := hclosing t ht
        exact ⟨pre', _, htoken, hnul, (nomatch ·), fun _ => ⟨by simp; omega, rfl⟩⟩
    · obtain ⟨w, t, hrest, hsplit, hw, htoken⟩ := @token_simple pre s toks c hs hquote (hspace c rfl)
      refine ⟨fun h => absurd (hrest.symm.trans h) (by simp), fun t' ht' => ?_⟩
      obtain rfl : t = t' := Option.some.inj (hrest.symm.trans ht')
      refine ⟨_, _, htoken, fun h => hs (hsplit ▸ List.mem_append_right w h), (nomatch ·), fun _ => ⟨?_, rfl⟩⟩
      have hpos := List.length_pos_iff.2 hw
      rw [hsplit, List.length_append]
      omega

theorem bounded_nil (k : ℕ) : Bounded k [] := by
  induction k with
  | zero => trivial
  | succ k ih => exact ⟨[], rfl, ih⟩

theorem skipBlanks_line (s : Str) :
    skipBlanks (s ++ [nul]) = some (List.replicate (s.takeWhile fun c => isspace c).length nul ++
      (s.dropWhile (fun c => isspace c) ++ [nul]), (s.takeWhile fun c => isspace c).length) := by
  have hfirst : ∃ c m, s.dropWhile (fun c => isspace c) ++ [nul] = c :: m ∧ isspace c = false := by
    cases h : s.dropWhile fun c => isspace c with
    | nil => exact ⟨nul, [], rfl, by decide⟩
    | cons c m =>
      have hhead := List.head?_dropWhile_not (fun c => isspace c) s
      rw [h] at hhead
      exact ⟨c, m ++ [nul], rfl, by simpa using hhead⟩
  obtain ⟨c, m, hm, hc⟩ := hfirst
  rw [hm]
  calc skipBlanks (s ++ [nul])
    _ = skipBlanks ((s.takeWhile fun c => isspace c) ++ c :: m) := by
      rw [← hm, ← List.append_assoc, List.takeWhile_append_dropWhile]
    _ = _ := skipBlanks_gap (fun d hd => List.mem_takeWhile_imp hd) hc

theorem tokenLoop_turn {c : Char} (fuel : ℕ) (hc : c ≠ nul) :
    let gap := ((c :: s).takeWhile fun d => isspace d).length
    tokenLoop maxtoks (fuel + 1) (pre ++ (c :: s ++ [nul])) pre.length toks =
      (token (pre ++ List.replicate gap nul ++ ((c :: s).dropWhile (fun d => isspace d) ++ [nul]))
        (pre ++ List.replicate gap nul).length toks).bind fun r =>
          if (r.2.2.length : ℤ) ≥ maxtoks then some (r.1, r.2.2) else tokenLoop maxtoks fuel r.1 r.2.1 r.2.2 := by
  have hload : load (pre ++ (c :: s ++ [nul])) pre.length = some c := load_append rfl
  rw [tokenLoop, hload, Option.bind_eq_bind, Option.bind_some, if_neg hc, along_append rfl, skipBlanks_line]
  simp [List.append_assoc]

/-- **The loop.** It ends in the line if and only if the tokens do that there is room for. -/
theorem tokenLoop_bounded (fuel : ℕ) (hs : nul ∉ s) (hfuel : s.length < fuel) (hroom : (toks.length : ℤ) < maxtoks) :
    let run := tokenLoop maxtoks fuel (pre ++ (s ++ [nul])) pre.length toks
    let k := (maxtoks - toks.length).toNat
    (Bounded k s → ∃ m toks', run = some (m, toks') ∧ (toks'.length : ℤ) ≤ maxtoks) ∧ (¬Bounded k s → run = none) := by
  induction fuel generalizing pre s toks with
  | zero => omega
  | succ fuel ih =>
    cases s with
    | nil =>
      refine ⟨fun _ => ⟨pre ++ [nul], toks, ?_, hroom.le⟩, fun h => absurd (bounded_nil _) h⟩
      have hload : load (pre ++ ([] ++ [nul])) pre.length = some nul := load_append rfl
      rw [tokenLoop, hload, Option.bind_eq_bind, Option.bind_some, if_pos rfl]
      rfl
    | cons c s =>
      have hc : c ≠ nul := fun h => hs (h ▸ List.mem_cons_self)
      dsimp only
      rw [tokenLoop_turn fuel hc]
      obtain ⟨k, hk⟩ : ∃ k, (maxtoks - toks.length).toNat = k + 1 := ⟨(maxtoks - toks.length).toNat - 1, by omega⟩
      set pre₁ := pre ++ List.replicate ((c :: s).takeWhile fun d => isspace d).length nul with hpre₁
      set s₁ := (c :: s).dropWhile fun d => isspace d with hs₁
      have hsub : s₁ <:+ c :: s := List.dropWhile_suffix _
      have hspace : ∀ d ∈ s₁.head?, isspace d = false := by
        have hhead := List.head?_dropWhile_not (fun d => isspace d) (c :: s)
        rw [← hs₁] at hhead
        intro d hd
        rw [Option.mem_def.1 hd] at hhead
        simpa using hhead
      obtain ⟨hnone, hsome⟩ := @token_rest pre₁ s₁ toks (fun h => hs (hsub.subset h)) hspace
      rw [hk, Bounded, ← hs₁]
      cases hrest : rest s₁ with
      | none =>
        refine ⟨?_, fun _ => ?_⟩
        · rintro ⟨_, ht, -⟩
          cases ht
        · rw [hnone hrest]
          rfl
      | some t =>
        obtain ⟨pre₂, new, htoken, hnul, hempty, hnew⟩ := hsome t hrest
        have hbounded : (∃ t' ∈ some t, Bounded k t') ↔ Bounded k t := by simp
        rw [htoken, Option.bind_some, hbounded]
        dsimp only
        have hle : new.length ≤ 1 := by
          by_cases h : s₁ = []
          · simp [(hempty h).2]
          · exact (hnew h).2.le
        rw [List.length_append]
        by_cases hfull : ((toks.length + new.length : ℕ) : ℤ) ≥ maxtoks
        · obtain rfl : k = 0 := by omega
          rw [if_pos hfull]
          exact ⟨fun _ => ⟨_, _, rfl, by rw [List.length_append]; omega⟩, fun h => absurd trivial h⟩
        · rw [if_neg hfull]
          have hlen : t.length < fuel := by
            rw [List.length_cons] at hfuel
            by_cases h : s₁ = []
            · rw [(hempty h).1, List.length_nil]
              omega
            · have hshort := (hnew h).1
              have hsub := hsub.length_le
              rw [List.length_cons] at hsub
              omega
          have hrun := @ih pre₂ t (toks ++ new) hnul hlen (by rw [List.length_append]; omega)
          have hcount : Bounded (maxtoks - (toks ++ new).length).toNat t ↔ Bounded k t := by
            by_cases h : s₁ = []
            · rw [(hempty h).1]
              exact iff_of_true (bounded_nil _) (bounded_nil _)
            · have hone := (hnew h).2
              have hsame : (maxtoks - (toks ++ new).length).toNat = k := by
                rw [List.length_append]
                omega
              rw [hsame]
          dsimp only at hrun
          rwa [hcount] at hrun

end Loop

/-- **When the tokenizer stays in the line.** For every line and every `maxtoks` from 1 on. -/
theorem tokenizeq_within_iff (l : Str) (maxtoks : ℤ) (hl : nul ∉ l) (hmax : 1 ≤ maxtoks) :
    Within l maxtoks ↔ Bounded maxtoks.toNat l := by
  have hloop := @tokenLoop_bounded [] l [] maxtoks ((l ++ [nul]).length + 1) hl
    (by rw [List.length_append]; omega) (by rw [List.length_nil]; omega)
  simp only [List.nil_append, List.length_nil, Nat.cast_zero, sub_zero] at hloop
  obtain ⟨hin, hout⟩ := hloop
  unfold Within tokenizeq
  rw [if_neg (by omega)]
  constructor
  · rintro ⟨n, m, toks, hres, -⟩
    by_contra hnot
    rw [hout hnot] at hres
    cases hres
  · intro h
    obtain ⟨m, toks, hres, hlen⟩ := hin h
    exact ⟨toks.length, m, toks, by rw [hres]; rfl, hlen⟩

/-- the line a 'it''s' -/
theorem its_within :
    (nul ∉ ['a', ' ', quote, 'i', 't', quote, quote, 's', quote] ∧ 1 ≤ (9 : ℤ)) ∧
      Within ['a', ' ', quote, 'i', 't', quote, quote, 's', quote] 9 :=
  ⟨by decide, (tokenizeq_within_iff _ 9 (by decide) (by decide)).2 (by decide)⟩

/-- **A line of one quote.** The search for its end starts behind the NUL. -/
theorem lone_quote : nul ∉ [quote] ∧ 1 ≤ (9 : ℤ) ∧ ¬Within [quote] 9 := by
  refine ⟨by decide, by decide, ?_⟩
  rintro ⟨n, m, toks, hres, -⟩
  have hnone : tokenizeq ([quote] ++ [nul]) 9 = none := by decide
  rw [hnone] at hres
  cases hres

end MNetSoft.Resh
