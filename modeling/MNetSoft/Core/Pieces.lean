/-
The pieces in which `fgets` delivers a file, and the way C code looks at the part of a piece before a separator: it
finds the separator, writes a NUL over it, and puts it back.

A file can be cut into pieces in one way only: a piece ends with the first newline or is as long as the buffer allows,
and the last one may be shorter. So if some pieces of a file are left out, the others are the pieces of what is left.
- `fgetsAll_flatten`: pieces are read back as they are.
- `Pieces.sublist`: what is left of the pieces of a file are pieces.
- `fgetsAll_eq_rawLines`: where every piece has a newline, the pieces are the lines.
- `rawLines_filter`: with some of its lines left out a file has the other lines.
- `cstr_set_strchr`, `set_strchr`: the part before a separator, and the piece restored.
-/
import Mathlib.Tactic
import MNetSoft.Core.CString

namespace MNetSoft.CString

/-! ## The part before a separator -/

/-- `strchr`: where a character first stands in the string that starts a buffer -/
def strchr (s : Str) (c : Char) : Option ℕ := (cstr s).idxOf? c

theorem strchr_eq_none {s : Str} {c : Char} : strchr s c = none ↔ c ∉ cstr s := List.idxOf?_eq_none_iff

theorem cstr_cons (d : Char) (s : Str) : cstr (d :: s) = if d = '\x00' then [] else d :: cstr s := by
  rw [cstr, List.takeWhile_cons]
  split_ifs with h h' h'
  · simp [h'] at h
  · rfl
  · rfl
  · simp [h'] at h

/-- the separator is where `strchr` says, and a NUL over it ends the string there -/
theorem strchr_spec {s : Str} {c : Char} {p : ℕ} (h : strchr s c = some p) :
    s[p]? = some c ∧ cstr (s.set p '\x00') = (cstr s).takeWhile (· ≠ c) := by
  induction s generalizing p with
  | nil => cases h
  | cons d s ih =>
    rw [strchr, cstr_cons] at h
    split_ifs at h with hd
    · cases h
    · rw [List.idxOf?_cons] at h
      split_ifs at h with hdc
      · cases h
        obtain rfl : d = c := eq_of_beq hdc
        exact ⟨rfl, by rw [List.set_cons_zero, cstr_cons, if_pos rfl, cstr_cons, if_neg hd]; simp⟩
      · obtain ⟨q, hq, rfl⟩ := Option.map_eq_some_iff.1 h
        obtain ⟨hget, hcstr⟩ := ih hq
        have hne : d ≠ c := fun heq => hdc (beq_iff_eq.2 heq)
        refine ⟨hget, ?_⟩
        rw [List.set_cons_succ, cstr_cons, if_neg hd, cstr_cons, if_neg hd, hcstr,
          List.takeWhile_cons_of_pos (by simp [hne])]

theorem cstr_set_strchr {s : Str} {c : Char} {p : ℕ} (h : strchr s c = some p) :
    cstr (s.set p '\x00') = (cstr s).takeWhile (· ≠ c) := (strchr_spec h).2

theorem set_strchr {s : Str} {c : Char} {p : ℕ} (h : strchr s c = some p) : (s.set p '\x00').set p c = s := by
  obtain ⟨hlt, hget⟩ := List.getElem?_eq_some_iff.1 (strchr_spec h).1
  rw [List.set_set, ← hget, List.set_getElem_self]

/-! ## Pieces -/

/-- a piece that is not the last one: it ends with its newline, or is as long as the buffer allows -/
def Piece (n : ℕ) (p : Str) : Prop :=
  (∃ l, '\n' ∉ l ∧ p = l ++ ['\n'] ∧ l.length + 1 < n) ∨ ('\n' ∉ p ∧ p.length = n - 1)

/-- the pieces of a file, in order -/
inductive Pieces (n : ℕ) : List Str → Prop
  | nil : Pieces n []
  | last {p : Str} : '\n' ∉ p → p ≠ [] → p.length < n → Pieces n [p]
  | cons {p : Str} {ps : List Str} : Piece n p → Pieces n ps → Pieces n (p :: ps)

variable {n : ℕ} {s : Str}

theorem fgetsAll_nil (n : ℕ) : fgetsAll n [] = [] := rfl

theorem fgets_piece (hn : 2 ≤ n) {p : Str} (hp : Piece n p) (s : Str) : fgets n (p ++ s) = some (p, s) := by
  rcases hp with ⟨l, hl, rfl, hlen⟩ | ⟨hp, hlen⟩
  · rw [List.append_assoc, List.singleton_append]
    exact fgets_line hl hlen s
  · have hne : p ++ s ≠ [] := by
      intro h
      have hnil := congrArg List.length (List.append_eq_nil_iff.1 h).1
      rw [List.length_nil] at hnil
      omega
    rw [fgets, if_neg hne, takeLine_full hp hlen]

theorem Pieces.ne_nil (hn : 2 ≤ n) {ps : List Str} (hps : Pieces n ps) : ∀ p ∈ ps, p ≠ [] := by
  induction hps with
  | nil => simp
  | last _ hne _ => simpa using hne
  | cons hp _ ih =>
    refine List.forall_mem_cons.2 ⟨?_, ih⟩
    rintro rfl
    rcases hp with ⟨l, -, hnil, -⟩ | ⟨-, hlen⟩
    · exact List.append_ne_nil_of_right_ne_nil l (List.cons_ne_nil _ _) hnil.symm
    · rw [List.length_nil] at hlen
      omega

/-- another piece in the place of one, also of the last one -/
theorem Pieces.replace {p p' : Str} {pre post : List Str} (hps : Pieces n (pre ++ p :: post)) (hp' : Piece n p') :
    Pieces n (pre ++ p' :: post) := by
  induction pre with
  | nil =>
    cases hps with
    | last => exact .cons hp' .nil
    | cons _ hpost => exact .cons hp' hpost
  | cons q pre ih =>
    obtain ⟨rest, hrest⟩ : ∃ rest, pre ++ p :: post = rest := ⟨_, rfl⟩
    rw [List.cons_append, hrest] at hps
    cases hps with
    | last =>
      cases pre <;> cases hrest
    | cons hq hps => exact .cons hq (ih (hrest ▸ hps))

/-- **Pieces are read back** as they are. -/
theorem fgetsAll_flatten (hn : 2 ≤ n) {ps : List Str} (hps : Pieces n ps) : fgetsAll n ps.flatten = ps := by
  induction hps with
  | nil => rfl
  | @last p hp hne hlt =>
    have hget : fgets n p = some (p, []) := by rw [fgets, if_neg hne, takeLine_all hp (by omega)]
    rw [List.flatten_singleton, fgetsAll_cons hn hget, fgetsAll_nil]
  | cons hp _ ih => rw [List.flatten_cons, fgetsAll_cons hn (fgets_piece hn hp _), ih]

/-- a call takes a piece, or the rest of the file -/
theorem takeLine_piece (hn : 2 ≤ n) (s : Str) (hs : s ≠ []) :
    (takeLine (n - 1) s).1 ++ (takeLine (n - 1) s).2 = s ∧
      (Piece n (takeLine (n - 1) s).1 ∨
        ('\n' ∉ s ∧ s.length < n ∧ takeLine (n - 1) s = (s, []))) := by
  rcases file_cases s with rfl | ⟨hnl, -⟩ | ⟨l, t, hl, rfl⟩
  · exact absurd rfl hs
  · by_cases hlen : s.length < n
    · rw [takeLine_all hnl (by omega)]
      exact ⟨List.append_nil s, Or.inr ⟨hnl, hlen, rfl⟩⟩
    · have htake : takeLine (n - 1) s = (s.take (n - 1), s.drop (n - 1)) := by
        have hfull := takeLine_full (fun h => hnl (List.mem_of_mem_take h)) (List.length_take_of_le (by omega))
          (s.drop (n - 1)) (l := s.take (n - 1)) (k := n - 1)
        rwa [List.take_append_drop] at hfull
      rw [htake]
      refine ⟨List.take_append_drop _ s, Or.inl (Or.inr ⟨fun h => hnl (List.mem_of_mem_take h), ?_⟩)⟩
      exact List.length_take_of_le (by omega)
  · by_cases hlen : l.length + 1 < n
    · rw [takeLine_line hl (by omega)]
      exact ⟨by simp, Or.inl (Or.inl ⟨l, hl, rfl, hlen⟩)⟩
    · have htake : takeLine (n - 1) (l ++ '\n' :: t) = (l.take (n - 1), l.drop (n - 1) ++ '\n' :: t) := by
        have hfull := takeLine_full (fun h => hl (List.mem_of_mem_take h)) (List.length_take_of_le (by omega))
          (l.drop (n - 1) ++ '\n' :: t) (l := l.take (n - 1)) (k := n - 1)
        rwa [← List.append_assoc, List.take_append_drop] at hfull
      rw [htake]
      refine ⟨by rw [← List.append_assoc, List.take_append_drop], Or.inl (Or.inr ⟨?_, ?_⟩)⟩
      · exact fun h => hl (List.mem_of_mem_take h)
      · exact List.length_take_of_le (by omega)

/-- **A file is its pieces.** -/
theorem pieces_fgetsAll (hn : 2 ≤ n) (s : Str) : Pieces n (fgetsAll n s) ∧ (fgetsAll n s).flatten = s := by
  induction h : s.length using Nat.strong_induction_on generalizing s with
  | _ m ih =>
    subst h
    by_cases hs : s = []
    · rw [hs]
      exact ⟨Pieces.nil, rfl⟩
    · have hget : fgets n s = some ((takeLine (n - 1) s).1, (takeLine (n - 1) s).2) := if_neg hs
      obtain ⟨happend, hpiece⟩ := takeLine_piece hn s hs
      obtain ⟨hrest, hflatten⟩ := ih _ (fgets_shrinks hn s _ _ hget) _ rfl
      rw [fgetsAll_cons hn hget, List.flatten_cons, hflatten]
      refine ⟨?_, happend⟩
      rcases hpiece with hp | ⟨hnl, hlt, htake⟩
      · exact Pieces.cons hp hrest
      · rw [htake]
        exact Pieces.last hnl hs hlt

theorem flatten_fgetsAll (hn : 2 ≤ n) (s : Str) : (fgetsAll n s).flatten = s := (pieces_fgetsAll hn s).2

/-- pieces of which some are left out -/
theorem Pieces.sublist {ps qs : List Str} (hps : Pieces n ps) (h : qs.Sublist ps) : Pieces n qs := by
  induction hps generalizing qs with
  | nil =>
    rw [List.sublist_nil.1 h]
    exact Pieces.nil
  | last hp hne hlt =>
    rcases List.sublist_singleton.1 h with rfl | rfl
    · exact Pieces.nil
    · exact Pieces.last hp hne hlt
  | cons hp _ ih =>
    cases h with
    | cons _ h => exact ih h
    | cons_cons _ h => exact Pieces.cons hp (ih h)

/-- texts are equal if their pieces are -/
theorem Pieces.flatten_inj (hn : 2 ≤ n) {ps qs : List Str} (hps : Pieces n ps) (hqs : Pieces n qs)
    (h : ps.flatten = qs.flatten) : ps = qs := by
  rw [← fgetsAll_flatten hn hps, h, fgetsAll_flatten hn hqs]

/-! ## Leaving out -/

section LeavingOut

variable {α β : Type*} {f : α → List β} {P : α → Prop} {Q : β → Prop} [DecidablePred P] [DecidablePred Q]

/-- what is kept of whole groups is kept of their members, if these are kept whenever their group is -/
theorem flatMap_filter_sublist {l : List α} (h : ∀ a ∈ l, P a → ∀ b ∈ f a, Q b) :
    ((l.filter (P ·)).flatMap f).Sublist ((l.flatMap f).filter (Q ·)) := by
  induction l with
  | nil => exact List.Sublist.refl _
  | cons a l ih =>
    have hrest := ih fun b hb => h b (List.mem_cons_of_mem a hb)
    rw [List.flatMap_cons, List.filter_append, List.filter_cons]
    by_cases ha : P a
    · have hall : (f a).filter (Q ·) = f a :=
        List.filter_eq_self.2 fun b hb => decide_eq_true (h a List.mem_cons_self ha b hb)
      rw [if_pos (decide_eq_true ha), List.flatMap_cons, hall]
      exact hrest.append_left (f a)
    · rw [if_neg (by simpa using ha)]
      exact hrest.trans (List.sublist_append_right _ _)

/-- leaving out members leaves whole groups only if every member goes the way of its group -/
theorem keep_iff_of_filter_flatMap {l : List α} (h : (l.flatMap f).filter (Q ·) = (l.filter (P ·)).flatMap f) :
    ∀ a ∈ l, ∀ b ∈ f a, (Q b ↔ P a) := by
  have hin : ∀ a ∈ l, P a → ∀ b ∈ f a, Q b := by
    intro a ha hPa b hb
    have hmem : b ∈ (l.filter (P ·)).flatMap f :=
      List.mem_flatMap.2 ⟨a, List.mem_filter.2 ⟨ha, decide_eq_true hPa⟩, hb⟩
    rw [← h] at hmem
    exact of_decide_eq_true (List.mem_filter.1 hmem).2
  induction l with
  | nil => exact fun a ha => absurd ha List.not_mem_nil
  | cons a l ih =>
    have hinl : ∀ b ∈ l, P b → ∀ c ∈ f b, Q c := fun b hb => hin b (List.mem_cons_of_mem a hb)
    rw [List.flatMap_cons, List.filter_append, List.filter_cons] at h
    by_cases ha : P a
    · have hall : (f a).filter (Q ·) = f a :=
        List.filter_eq_self.2 fun b hb => decide_eq_true (hin a List.mem_cons_self ha b hb)
      rw [if_pos (decide_eq_true ha), List.flatMap_cons, hall, List.append_cancel_left_eq] at h
      intro b hb c hc
      rcases List.mem_cons.1 hb with rfl | hb
      · exact iff_of_true (hin b List.mem_cons_self ha c hc) ha
      · exact ih h hinl b hb c hc
    · rw [if_neg (by simpa using ha)] at h
      have hlen := congrArg List.length h
      have hle := (flatMap_filter_sublist hinl).length_le
      rw [List.length_append] at hlen
      have hnone : (f a).filter (Q ·) = [] := List.length_eq_zero_iff.1 (by omega)
      rw [hnone, List.nil_append] at h
      intro b hb c hc
      rcases List.mem_cons.1 hb with rfl | hb
      · refine iff_of_false (fun hQ => ?_) ha
        exact absurd (decide_eq_true hQ) (List.filter_eq_nil_iff.1 hnone c hc)
      · exact ih h hinl b hb c hc

end LeavingOut

/-! ## Lines -/

theorem flatten_rawLines (s : Str) : (rawLines s).flatten = s := by
  induction s using file_induction with
  | nil => rfl
  | last l hl hne => rw [rawLines_last hl hne, List.flatten_singleton]
  | line l t hl ih => rw [rawLines_line hl, List.flatten_cons, ih, List.append_assoc, List.singleton_append]

/-- with some of its lines left out a file has the other lines -/
theorem rawLines_filter (p : Str → Bool) (s : Str) :
    rawLines ((rawLines s).filter p).flatten = (rawLines s).filter p := by
  induction s using file_induction with
  | nil => rfl
  | last l hl hne =>
    rw [rawLines_last hl hne]
    cases hp : p l with
    | true => rw [List.filter_cons_of_pos hp, List.filter_nil, List.flatten_singleton, rawLines_last hl hne]
    | false =>
      rw [List.filter_cons_of_neg (by rw [hp]; exact Bool.false_ne_true)]
      rfl
  | line l t hl ih =>
    rw [rawLines_line hl, List.filter_cons]
    cases p (l ++ ['\n']) with
    | true => rw [if_pos rfl, List.flatten_cons, List.append_assoc, List.singleton_append, rawLines_line hl, ih]
    | false =>
      rw [if_neg Bool.false_ne_true]
      exact ih

/-- lines that are short enough are pieces -/
theorem pieces_rawLines (h : ∀ l ∈ rawLines s, l.length < n) : Pieces n (rawLines s) := by
  induction s using file_induction with
  | nil => exact Pieces.nil
  | last l hl hne =>
    rw [rawLines_last hl hne] at h ⊢
    exact Pieces.last hl hne (h l List.mem_cons_self)
  | line l t hl ih =>
    rw [rawLines_line hl] at h ⊢
    obtain ⟨hlen, hrest⟩ := List.forall_mem_cons.1 h
    refine Pieces.cons (Or.inl ⟨l, hl, rfl, ?_⟩) (ih hrest)
    rwa [List.length_append] at hlen

/-- a file whose lines are shorter than the buffer is read line by line -/
theorem fgetsAll_eq_of_short (hn : 2 ≤ n) (h : ∀ l ∈ rawLines s, l.length < n) : fgetsAll n s = rawLines s := by
  have hback := fgetsAll_flatten hn (pieces_rawLines h)
  rwa [flatten_rawLines] at hback

/-- where every piece has a newline, the pieces are the lines -/
theorem fgetsAll_eq_rawLines (hn : 2 ≤ n) (s : Str) (h : ∀ p ∈ fgetsAll n s, '\n' ∈ p) : fgetsAll n s = rawLines s := by
  obtain ⟨hpieces, hflatten⟩ := pieces_fgetsAll hn s
  have hlines : ∀ ps, Pieces n ps → (∀ p ∈ ps, '\n' ∈ p) → ps = rawLines ps.flatten := by
    intro ps hps hnl
    induction hps with
    | nil => rfl
    | last hp => exact absurd (hnl _ List.mem_cons_self) hp
    | cons hp _ ih =>
      rcases hp with ⟨l, hl, rfl, -⟩ | ⟨hp, -⟩
      · rw [List.flatten_cons, List.append_assoc, List.singleton_append, rawLines_line hl,
          ← ih fun q hq => hnl q (List.mem_cons_of_mem _ hq)]
      · exact absurd (hnl _ List.mem_cons_self) hp
  have heq := hlines _ hpieces h
  rwa [hflatten] at heq

end MNetSoft.CString
