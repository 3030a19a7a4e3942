/-
What `clean_text` of `wnu-getu.c` makes of a value: in four passes, without the carriage returns, the blank lines in
front and the white space behind, with one newline at the end, and wrapped. It works in the cells of the value, and
in a copy where there is no room for the newline.

For a value of white space alone the empty string is wanted. The second pass then stops at its NUL, but with `cp1` one
character further, and that is what it returns: a string only if the first pass has left something there.
- `stripLoop_filter`, `blankLoop_white`, `lastLoop_last`: the first three passes.
- `clean_spec`, `clean_white`: values with and without anything but white space.
- `clean_text_iff`: when the string is the wanted one.
- `only_newline`: a value of one newline.
-/
import Mathlib.Tactic
import Mathlib.Data.List.DropRight
import MNetSoft.Ownu.Layout
import MNetSoft.Ownu.Wrap

namespace MNetSoft.Ownu

open MNetSoft.Memory

/-! ## What is wanted -/

def cr : UInt8 := '\r'.toUInt8

/-- the white space in front of a text up to its last newline: the blank lines -/
def blankLines (s : Bytes) : Bytes := (s.takeWhile isspace).rdropWhile (· ≠ newline)

/-- without blank lines in front and white space behind, with one newline -/
def tidied (s : Bytes) : Bytes := (s.rdropWhile isspace).drop (blankLines s).length ++ [newline]

/-- the string that `clean_text` returns: in the cells of the value, or in a copy -/
def Cleaned.text (m : Bytes) : Cleaned → Option Bytes
  | .here p => cstring (m.drop p)
  | .copied copy p => cstring (copy.drop p)

/-- the cells of the value `v` and its NUL are not left, and what is returned is the text that is wanted -/
def CleanRight (v : Bytes) : Prop :=
  ∃ m r s, clean (v ++ [0]) 0 = some (m, r) ∧ r.text m = some s ∧
    ((∀ c ∈ v, isspace c = true) → s = []) ∧ ((∃ c ∈ v, isspace c = false) → Wrapped (tidied (v.filter (· ≠ cr))) s)

/-! ## The passes -/

section Passes

variable {s t w m post rest : Bytes} {c : UInt8}

/-- **The first pass** leaves the text without its carriage returns, a NUL, and the cells behind it as they were. -/
theorem stripLoop_filter (hs : 0 ∉ s) (mid post : Bytes) :
    stripLoop mid (s ++ 0 :: post) =
      some (s.filter (· ≠ cr) ++ 0 :: (mid ++ s ++ 0 :: post).drop ((s.filter (· ≠ cr)).length + 1),
        (s.filter (· ≠ cr)).length, s.length) := by
  induction s generalizing mid with
  | nil =>
    rw [List.nil_append, stripLoop, if_pos rfl]
    simp
  | cons c s ih =>
    obtain ⟨hc, hs⟩ := not_or.1 (mt List.mem_cons.2 hs)
    rw [List.cons_append, stripLoop, if_neg (Ne.symm hc)]
    by_cases hcr : c = cr
    · have hdrop : (c :: s).filter (· ≠ cr) = s.filter (· ≠ cr) := List.filter_cons_of_neg (by simp [hcr])
      have hc' : c = '\r'.toUInt8 := hcr
      rw [if_pos hc', ih hs, hdrop]
      simp
    · have hkeep : (c :: s).filter (· ≠ cr) = c :: s.filter (· ≠ cr) := List.filter_cons_of_pos (by simpa using hcr)
      have htail : (mid ++ [c]).tail ++ s ++ 0 :: post = (mid ++ c :: s ++ 0 :: post).tail := by cases mid <;> simp
      have hc' : ¬c = '\r'.toUInt8 := hcr
      rw [if_neg hc', ih hs, hkeep, Option.map_some, htail, List.drop_tail]
      rfl

/-- **The second pass**: over the white space in front, with the end of the blank lines. -/
theorem blankLoop_white (hw : ∀ c ∈ w, isspace c = true) (rest : Bytes) :
    blankLoop (w ++ rest) 0 0 = blankLoop rest w.length (w.rdropWhile (· ≠ newline)).length := by
  induction w using List.reverseRecOn generalizing rest with
  | nil => rfl
  | append_singleton w c ih =>
    obtain ⟨hw, hc⟩ := List.forall_mem_append.1 hw
    have hspace := hc c (List.mem_singleton_self c)
    have hnul : c ≠ 0 := by
      rintro rfl
      exact absurd hspace (by decide)
    rw [List.append_assoc, ih hw, List.singleton_append, blankLoop, if_pos ⟨hnul, hspace⟩, List.length_append,
      List.rdropWhile_concat]
    by_cases hnew : c = newline
    · simp [hnew]
    · simp [hnew]

/-- **The third pass**: back to the last character that is no white space. -/
theorem lastLoop_last (rest : Bytes) (ht : t.rdropWhile isspace ≠ []) :
    lastLoop (t ++ rest) t.length = some ((t.rdropWhile isspace).length - 1) := by
  induction t using List.reverseRecOn generalizing rest with
  | nil => exact absurd rfl ht
  | append_singleton t c ih =>
    rw [List.rdropWhile_concat] at ht ⊢
    rw [List.length_append, List.length_singleton, lastLoop, List.append_assoc, List.singleton_append,
      load_append rfl, Option.bind_eq_bind, Option.bind_some]
    by_cases hc : isspace c = true
    · rw [if_pos hc] at ht ⊢
      rw [if_pos hc]
      exact ih (c :: rest) ht
    · rw [if_neg hc, if_neg hc]
      simp

theorem prefix_rdropWhile {p : UInt8 → Bool} {d : UInt8} (hd : p d = false) (a b : Bytes) :
    a ++ [d] <+: (a ++ d :: b).rdropWhile p := by
  induction b using List.reverseRecOn with
  | nil => rw [List.rdropWhile_concat_neg _ _ _ (by simp [hd])]
  | append_singleton b e ih =>
    rw [← List.cons_append, ← List.append_assoc, List.rdropWhile_concat]
    split_ifs
    · exact ih
    · exact ⟨b ++ [e], by simp⟩

theorem clean_white (hs : 0 ∉ s) (hall : ∀ c ∈ s.filter (· ≠ cr), isspace c = true) :
    clean (s ++ [0]) 0 =
      some (s.filter (· ≠ cr) ++ 0 :: (s ++ [0]).drop ((s.filter (· ≠ cr)).length + 1),
        .here ((s.filter (· ≠ cr)).length + 1)) := by
  have hstrip := stripLoop_filter hs [] []
  have hblank := blankLoop_white hall (0 :: (s ++ [0]).drop ((s.filter (· ≠ cr)).length + 1))
  rw [List.nil_append] at hstrip
  have hstop (rest : Bytes) (cp1 start : ℕ) : blankLoop (0 :: rest) cp1 start = some (0, cp1 + 1, start) :=
    if_neg (by simp)
  rw [clean, List.drop_zero, hstrip, Option.bind_eq_bind, Option.bind_some]
  dsimp only
  rw [hblank, hstop, Option.bind_eq_bind, Option.bind_some]
  dsimp only
  rw [if_pos rfl, List.take_zero, List.nil_append, Nat.zero_add]
  rfl

theorem Wrapped.no_nul {r : Bytes} (h : Wrapped s r) (hs : 0 ∉ s) : 0 ∉ r := by
  intro hmem
  obtain ⟨i, hi⟩ := List.mem_iff_getElem?.1 hmem
  obtain ⟨hlt, -⟩ := List.getElem?_eq_some_iff.1 hi
  rw [h.length] at hlt
  have hc := List.getElem?_eq_getElem hlt
  by_cases hwhite : White s[i]
  · rcases h.white i _ hc hwhite with h | h <;> cases hi.symm.trans h
  · exact hs (List.mem_iff_getElem?.2 ⟨i, hc.trans ((h.others i _ hc hwhite).symm.trans hi)⟩)

/-- **The fourth pass**, from the end of the blank lines on, with the newline and the NUL in place -/
theorem wrap_tidy (hs : 0 ∉ s) {start : ℕ} (hstart : start ≤ s.length) (rest : Bytes) :
    ∃ m r, onward (s ++ newline :: 0 :: rest) start wrap_text = some m ∧ cstring (m.drop start) = some r ∧
      Wrapped (s.drop start ++ [newline]) r := by
  have hnul : 0 ∉ s.drop start ++ [newline] := by
    intro h
    rcases List.mem_append.1 h with h | h
    · exact hs (List.mem_of_mem_drop h)
    · exact absurd (List.mem_singleton.1 h) (by decide)
  obtain ⟨w, hrun, hw⟩ := wrap_text_between hnul rest
  have hdrop : (s ++ newline :: 0 :: rest).drop start = s.drop start ++ [newline] ++ 0 :: rest := by
    rw [List.drop_append_of_le_length hstart]
    simp
  refine ⟨s.take start ++ (w.text ++ 0 :: rest), w.text, ?_, ?_, hw.wrapped⟩
  · rw [onward, hdrop, hrun, Option.map_some, List.take_append_of_le_length hstart]
  · have hlen : (s.take start).length = start := List.length_take_of_le hstart
    rw [List.drop_append_of_le_length hlen.ge, List.drop_eq_nil_of_le hlen.le, List.nil_append]
    exact cstring_eq_some.2 ⟨hw.wrapped.no_nul hnul, rest, rfl⟩

/-- there is a first character that is no white space, and the blank lines end in front of it -/
theorem exists_first (hmore : ∃ c ∈ t, isspace c = false) :
    ∃ d t', t = t.takeWhile isspace ++ d :: t' ∧ isspace d = false ∧ t.rdropWhile isspace ≠ [] ∧
      (blankLines t).length ≤ (t.rdropWhile isspace).length := by
  obtain ⟨d, t', ht'⟩ : ∃ d t', t.dropWhile isspace = d :: t' := by
    refine List.exists_cons_of_ne_nil fun hnil => ?_
    obtain ⟨c, hc, hspace⟩ := hmore
    rw [List.dropWhile_eq_nil_iff.1 hnil c hc] at hspace
    cases hspace
  have hd : isspace d = false := by
    have hhead := List.head?_dropWhile_not isspace t
    rw [ht'] at hhead
    simpa using hhead
  have hsplit : t = t.takeWhile isspace ++ d :: t' := by rw [← ht', List.takeWhile_append_dropWhile]
  have hbody : t.takeWhile isspace ++ [d] <+: t.rdropWhile isspace := by
    have hprefix := prefix_rdropWhile hd (t.takeWhile isspace) t'
    rwa [← hsplit] at hprefix
  have hle := hbody.length_le
  have hblank : (blankLines t).length ≤ (t.takeWhile isspace).length := (List.rdropWhile_prefix _ _).length_le
  rw [List.length_append, List.length_singleton] at hle
  exact ⟨d, t', hsplit, hd, List.ne_nil_of_length_pos (by omega), by omega⟩

theorem clean_passes (hs : 0 ∉ s) (ht : s.filter (· ≠ cr) = t) (hmore : ∃ c ∈ t, isspace c = false) :
    let l := t ++ 0 :: (s ++ [0]).drop (t.length + 1)
    let body := t.rdropWhile isspace
    let start := (blankLines t).length
    clean (s ++ [0]) 0 =
      if body.length < s.length then
        (store l body.length newline).bind fun m => (store m (body.length + 1) 0).bind fun m =>
          (onward m start wrap_text).map fun m => (m, .here start)
      else (onward (l.take body.length ++ [newline, 0]) start wrap_text).map fun copy => (l, .copied copy start) := by
  have hstrip := stripLoop_filter hs [] []
  rw [List.nil_append, ht] at hstrip
  have hnul : 0 ∉ t := fun h => hs (List.mem_of_mem_filter (ht ▸ h))
  obtain ⟨d, t', hsplit, hd, hne, -⟩ := exists_first hmore
  have hd₀ : d ≠ 0 := fun h => hnul (by rw [hsplit, h]; simp)
  have hblank : blankLoop (t ++ 0 :: (s ++ [0]).drop (t.length + 1)) 0 0 =
      some (d, (t.takeWhile isspace).length + 1, (blankLines t).length) := by
    calc blankLoop (t ++ 0 :: (s ++ [0]).drop (t.length + 1)) 0 0
      _ = blankLoop (t.takeWhile isspace ++ (d :: t' ++ 0 :: (s ++ [0]).drop (t.length + 1))) 0 0 := by
        rw [← List.append_assoc, ← hsplit]
      _ = blankLoop (d :: t' ++ 0 :: (s ++ [0]).drop (t.length + 1)) (t.takeWhile isspace).length
          (blankLines t).length := blankLoop_white (fun c hc => List.mem_takeWhile_imp hc) _
      _ = _ := if_neg fun h => by simp [hd] at h
  have hlast := lastLoop_last (0 :: (s ++ [0]).drop (t.length + 1)) hne
  have hpos := List.length_pos_iff.2 hne
  have hbehind : (t.rdropWhile isspace).length - 1 + 1 = (t.rdropWhile isspace).length := by omega
  have hbehind' : (t.rdropWhile isspace).length - 1 + 2 = (t.rdropWhile isspace).length + 1 := by omega
  simp only [clean, List.drop_zero, hstrip, List.take_zero, List.nil_append, Nat.zero_add, hblank, hlast,
    Option.bind_eq_bind, Option.bind_some, if_neg hd₀, Nat.sub_zero, hbehind, hbehind', Option.pure_def]
  split_ifs
  · simp only [Option.map_eq_bind, Function.comp_def]
  · simp only [Option.map_eq_bind, Function.comp_def]

/-- **Values with more than white space**: the newline goes behind the text, or into a copy. -/
theorem clean_spec (hs : 0 ∉ s) (ht : s.filter (· ≠ cr) = t) (hmore : ∃ c ∈ t, isspace c = false) :
    ∃ m r x, clean (s ++ [0]) 0 = some (m, r) ∧ r.text m = some x ∧ Wrapped (tidied t) x := by
  have hpasses := clean_passes hs ht hmore
  obtain ⟨-, -, -, -, -, hstart⟩ := exists_first hmore
  have hprefix : t.rdropWhile isspace <+: t := List.rdropWhile_prefix _ _
  have hnul : 0 ∉ t.rdropWhile isspace := fun h => hs (List.mem_of_mem_filter (ht ▸ hprefix.subset h))
  have hlen : (t ++ (0 : UInt8) :: (s ++ [0]).drop (t.length + 1)).length = s.length + 1 := by
    have hle : t.length ≤ s.length := ht ▸ List.length_filter_le _ _
    simp only [List.length_append, List.length_cons, List.length_drop, List.length_nil]
    omega
  dsimp only at hpasses
  obtain ⟨e, he⟩ : t.rdropWhile isspace <+: t ++ 0 :: (s ++ [0]).drop (t.length + 1) :=
    hprefix.trans (List.prefix_append _ _)
  rw [← he] at hpasses hlen
  unfold tidied
  generalize t.rdropWhile isspace = body at *
  split_ifs at hpasses with hroom
  · -- the newline and the NUL fit behind the text
    obtain ⟨x, y, e, rfl⟩ : ∃ x y e', e = x :: y :: e' := by
      rw [List.length_append] at hlen
      match e, hlen with
      | [], h => simp at h; omega
      | [_], h => simp at h; omega
      | x :: y :: e, _ => exact ⟨x, y, e, rfl⟩
    have hsecond : store (body ++ newline :: y :: e) (body.length + 1) 0 = some (body ++ newline :: 0 :: e) := by
      have h := @store_append _ (body ++ [newline]) e y 0 (body.length + 1) (by simp)
      simpa using h
    obtain ⟨m, r, hwrap, hr, hwrapped⟩ := wrap_tidy hnul hstart e
    rw [store_append rfl, Option.bind_some, hsecond, Option.bind_some, hwrap, Option.map_some] at hpasses
    exact ⟨_, _, r, hpasses, hr, hwrapped⟩
  · obtain ⟨m, r, hwrap, hr, hwrapped⟩ := wrap_tidy hnul hstart []
    rw [List.take_left, hwrap, Option.map_some] at hpasses
    exact ⟨_, _, r, hpasses, hr, hwrapped⟩

end Passes

/-! ## When the value is right -/

theorem cstring_drop_eq_nil {s : Bytes} (hs : 0 ∉ s) (k : ℕ) :
    cstring ((s ++ [0]).drop k) = some [] ↔ k = s.length := by
  constructor
  · intro h
    obtain ⟨-, post, hpost⟩ := cstring_eq_some.1 h
    have hk : (s ++ [0])[k]? = some 0 := by
      rw [← Nat.add_zero k, ← List.getElem?_drop, hpost]
      rfl
    rcases Nat.lt_trichotomy k s.length with hlt | heq | hgt
    · rw [List.getElem?_append_left hlt] at hk
      exact absurd (List.mem_iff_getElem?.2 ⟨k, hk⟩) hs
    · exact heq
    · rw [List.getElem?_eq_none (by simp; omega)] at hk
      cases hk
  · rintro rfl
    rw [List.drop_left]
    rfl

theorem length_filter_cr (s : Bytes) : (s.filter (· ≠ cr)).length + s.count cr = s.length := by
  calc (s.filter (· ≠ cr)).length + s.count cr
    _ = s.countP (· == cr) + s.countP (fun c => ¬(c == cr) = true) := by
      rw [Nat.add_comm, List.countP_eq_length_filter (l := s) (p := fun c => ¬(c == cr) = true), List.count]
      simp
    _ = s.length := (List.length_eq_countP_add_countP _).symm

/-- **When the value is right**: there is more in it than white space, or exactly one carriage return. -/
theorem clean_text_iff (v : Bytes) (hv : 0 ∉ v) :
    CleanRight v ↔ (∃ c ∈ v, isspace c = false) ∨ v.count cr = 1 := by
  unfold CleanRight
  by_cases hall : ∀ c ∈ v, isspace c = true
  · have hwhite := clean_white hv fun c hc => hall c (List.mem_of_mem_filter hc)
    have hmore : ¬∃ c ∈ v, isspace c = false := fun ⟨c, hc, h⟩ => by simp [hall c hc] at h
    have hlen := length_filter_cr v
    rw [or_iff_right hmore]
    calc
      _ ↔ cstring ((v ++ [0]).drop ((v.filter (· ≠ cr)).length + 1)) = some [] := by
        have htext : Cleaned.text (v.filter (· ≠ cr) ++ 0 :: (v ++ [0]).drop ((v.filter (· ≠ cr)).length + 1))
            (.here ((v.filter (· ≠ cr)).length + 1)) = cstring ((v ++ [0]).drop ((v.filter (· ≠ cr)).length + 1)) := by
          rw [Cleaned.text, ← List.drop_drop, List.drop_left]
          rfl
        rw [hwhite]
        constructor
        · rintro ⟨m, r, s, hclean, hs, hempty, -⟩
          cases hclean
          rw [← htext, hs, hempty hall]
        · intro h
          exact ⟨_, _, [], rfl, htext.trans h, fun _ => rfl, fun h => absurd h hmore⟩
      _ ↔ (v.filter (· ≠ cr)).length + 1 = v.length := cstring_drop_eq_nil hv _
      _ ↔ v.count cr = 1 := by omega
  · obtain ⟨c, hc, hspace⟩ : ∃ c ∈ v, isspace c = false := by simpa using hall
    refine iff_of_true ?_ (Or.inl ⟨c, hc, hspace⟩)
    have hcr : c ≠ cr := by
      rintro rfl
      exact absurd hspace (by decide)
    obtain ⟨m, r, s, hclean, hs, hwrapped⟩ :=
      clean_spec hv rfl ⟨c, List.mem_filter.2 ⟨hc, decide_eq_true hcr⟩, hspace⟩
    exact ⟨m, r, s, hclean, hs, fun h => absurd h hall, fun _ => hwrapped⟩

/-- a value of two words and a carriage return -/
theorem words_cleaned : 0 ∉ bytes "\n a\r\n b " ∧ CleanRight (bytes "\n a\r\n b ") :=
  ⟨by decide, (clean_text_iff _ (by decide)).2 (Or.inl ⟨'a'.toUInt8, by decide, by decide⟩)⟩

/-- **A value of one newline.** What is returned is behind the value and its NUL. -/
theorem only_newline :
    0 ∉ [newline] ∧ clean ([newline] ++ [0]) 0 = some ([newline, 0], .here 2) ∧ ¬CleanRight [newline] := by
  have hclean : clean ([newline] ++ [0]) 0 = some ([newline, 0], .here 2) := rfl
  refine ⟨by decide, hclean, ?_⟩
  rintro ⟨m, r, s, h, hs, -⟩
  rw [hclean] at h
  cases h
  cases hs

end MNetSoft.Ownu
