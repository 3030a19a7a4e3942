/-
The cells of the buffer that the web `newuser` writes to. The values of the fields stay where they are in the buffer of
the query, and `check_fullname` and `clean_text` change them there. They do not get out of the value, as there is a NUL
in front of it: where the entries have cells of their own, a value is changed by the check of its own field only.
- `trim_spec`, `trim_agree`: what `check_fullname` makes of a name, and the cells in which it writes.
- `clean_agree`: the cells in which `clean_text` writes.
- `layout_load`: the entries of a query with complete escapes have cells of their own.
-/
import Mathlib.Tactic
import MNetSoft.Ownu.Newuser

namespace MNetSoft.Ownu

open MNetSoft.Memory MNetSoft.Effects

/-! ## Cells -/

section Cells

variable {A : Set ℕ} {m m' s t post : Bytes} {p i : ℕ} {c : UInt8}

theorem cstring_eq_some : cstring m = some s ↔ 0 ∉ s ∧ ∃ post, m = s ++ 0 :: post := by
  refine ⟨fun h => ?_, fun ⟨hs, post, h⟩ => h ▸ cstring_nul hs post⟩
  induction m generalizing s with
  | nil => cases h
  | cons c m ih =>
    rw [cstring] at h
    split_ifs at h with hc
    · cases h
      exact ⟨List.not_mem_nil, m, by rw [hc, List.nil_append]⟩
    · obtain ⟨u, hu, rfl⟩ := Option.map_eq_some_iff.1 h
      obtain ⟨hu₀, post, rfl⟩ := ih hu
      exact ⟨List.not_mem_cons_of_ne_of_not_mem (Ne.symm hc) hu₀, post, rfl⟩

/-- the cell behind a string -/
theorem getElem?_cstring (h : cstring (m.drop p) = some s) : m[p + s.length]? = some 0 := by
  obtain ⟨-, post, hpost⟩ := cstring_eq_some.1 h
  rw [← List.getElem?_drop, hpost]
  simp

/-- there is a string up to the next NUL, or a shorter one -/
theorem exists_cstring {q : ℕ} (h : m[q]? = some 0) (hp : p ≤ q) :
    ∃ s, cstring (m.drop p) = some s ∧ p + s.length ≤ q := by
  have hdrop : (m.drop p)[q - p]? = some 0 := by
    rw [List.getElem?_drop, Nat.add_sub_cancel' hp]
    exact h
  obtain ⟨s, post, hsplit, hs⟩ := List.eq_append_cons_of_mem (List.mem_of_getElem? hdrop)
  refine ⟨s, hsplit ▸ cstring_nul hs post, ?_⟩
  by_contra hlt
  have hmem : (m.drop p)[q - p]? = s[q - p]? := by
    rw [hsplit, List.getElem?_append_left (by omega)]
  exact hs (List.mem_of_getElem? (hmem.symm.trans hdrop))

/-- a string whose cells have not changed -/
theorem cstring_agree (h : Agree A m m') (hs : cstring (m.drop p) = some s)
    (hA : ∀ i, p ≤ i → i ≤ p + s.length → i ∉ A) : cstring (m'.drop p) = some s := by
  obtain ⟨hs₀, post, hpost⟩ := cstring_eq_some.1 hs
  have hcell : ∀ i, i ≤ s.length → (m'.drop p)[i]? = (m.drop p)[i]? := by
    intro i hi
    rw [List.getElem?_drop, List.getElem?_drop]
    exact h (p + i) (hA _ (by omega) (by omega))
  refine cstring_eq_some.2 ⟨hs₀, (m'.drop p).drop (s.length + 1), ?_⟩
  have htake : (m'.drop p).take (s.length + 1) = s ++ [0] := by
    refine List.ext_getElem? fun i => ?_
    rw [List.getElem?_take]
    split_ifs with hi
    · rw [hcell i (by omega), hpost]
      rcases Nat.lt_succ_iff_lt_or_eq.1 hi with hlt | rfl
      · rw [List.getElem?_append_left hlt, List.getElem?_append_left hlt]
      · simp
    · rw [List.getElem?_eq_none]
      simp
      omega
  calc m'.drop p = (m'.drop p).take (s.length + 1) ++ (m'.drop p).drop (s.length + 1) :=
        (List.take_append_drop _ _).symm
    _ = s ++ 0 :: (m'.drop p).drop (s.length + 1) := by rw [htake, List.append_assoc, List.singleton_append]

/-- a string and what has been written in its place -/
theorem agree_splice (h : m.drop p = s ++ post) (hlen : t.length = s.length) :
    Agree (Set.Ico p (p + s.length)) m (m.take p ++ (t ++ post)) := by
  intro i hi
  have hm : m[i]? = (m.take p ++ (s ++ post))[i]? := by rw [← h, List.take_append_drop]
  rw [hm]
  rcases le_or_gt p m.length with hp | hp
  · have htake : (m.take p).length = p := List.length_take_of_le hp
    rw [Set.mem_Ico, not_and_or, not_le, not_lt] at hi
    rcases hi with hi | hi
    · rw [List.getElem?_append_left (by omega), List.getElem?_append_left (by omega)]
    · rw [List.getElem?_append_right (by omega), List.getElem?_append_right (by omega),
        List.getElem?_append_right (by omega), List.getElem?_append_right (by omega), hlen]
  · rw [List.drop_eq_nil_of_le hp.le, List.nil_eq_append_iff] at h
    rw [h.1, List.length_nil, List.length_eq_zero_iff] at hlen
    rw [h.1, hlen]

theorem agree_store (h : store m i c = some m') (hi : i ∈ A ∨ m[i]? = some c) : Agree A m m' := by
  obtain ⟨hlt, rfl⟩ := store_eq_set h
  intro j hj
  by_cases hij : i = j
  · subst hij
    rw [List.getElem?_set_self hlt, hi.resolve_left hj]
  · exact List.getElem?_set_ne hij

end Cells

/-! ## Full names -/

section Names

variable {m m' s post l : Bytes} {val : ℕ} {bad : Option UInt8} {len : ℤ}

/-- tabs turned into spaces -/
def untab (c : UInt8) : UInt8 := if c = '\t'.toUInt8 then ' '.toUInt8 else c

/-- 3 to 40 printable characters that are allowed, no spaces at the ends -/
structure NameOk (n : Bytes) : Prop where
  length : 3 ≤ n.length ∧ n.length ≤ 40
  printable : ∀ c ∈ n, isprint c = true ∧ c ∉ badchars
  head : n.head? ≠ some ' '.toUInt8
  last : n.getLast? ≠ some ' '.toUInt8

theorem untab_ne_zero {c : UInt8} (hc : c ≠ 0) : untab c ≠ 0 := by
  unfold untab
  split_ifs
  · decide
  · exact hc

theorem untab_eq_space {c : UInt8} (h : untab c = ' '.toUInt8) : c ∈ bytes " \t" := by
  unfold untab at h
  split_ifs at h with hc
  · rw [hc]
    decide
  · rw [h]
    decide

theorem nameLoop_spec (hs : 0 ∉ s) :
    nameLoop (s ++ 0 :: post) = some (s.map untab ++ 0 :: post, s.length, (s.map untab).find? badname) := by
  induction s with
  | nil => rfl
  | cons c s ih =>
    rw [List.mem_cons, not_or] at hs
    rw [List.cons_append, nameLoop, if_neg (Ne.symm hs.1), ih hs.2, Option.map_some, List.map_cons, List.find?_cons]
    change some (untab c :: _, _, if badname (untab c) = true then _ else _) = _
    cases badname (untab c) <;> rfl

theorem trimLoop_spec {p q : ℕ} (h : trimLoop m p = some q) :
    q ≤ p ∧ 0 < q ∧ m[q - 1]? ≠ some ' '.toUInt8 ∧ ∀ i, q ≤ i → i < p → m[i]? = some ' '.toUInt8 := by
  induction p with
  | zero => cases h
  | succ p ih =>
    rw [trimLoop, Option.bind_eq_bind, Option.bind_eq_some_iff] at h
    obtain ⟨c, hc, h⟩ := h
    split_ifs at h with hspace
    · obtain ⟨hle, hpos, hne, hall⟩ := ih h
      refine ⟨by omega, hpos, hne, fun i hi hlt => ?_⟩
      rcases Nat.lt_succ_iff_lt_or_eq.1 hlt with hlt | rfl
      · exact hall i hi hlt
      · rw [← hspace]
        exact hc
    · obtain rfl := Option.some.inj h
      refine ⟨le_rfl, Nat.succ_pos p, fun hc' => hspace ?_, fun i hi hlt => by omega⟩
      exact Option.some.inj (hc.symm.trans hc')

/-- the steps of `trim` on a string -/
theorem trim_steps (h : trim m val = some (m', bad, len)) (hs : cstring (m.drop val) = some s) :
    ∃ post q, m.drop val = s ++ 0 :: post ∧ 0 ∉ s ∧ bad = (s.map untab).find? badname ∧
      trimLoop (m.take val ++ (s.map untab ++ 0 :: post)) (val + s.length) = some q ∧ len = q - val ∧
      store (m.take val ++ (s.map untab ++ 0 :: post)) q 0 = some m' := by
  obtain ⟨hs₀, post, hpost⟩ := cstring_eq_some.1 hs
  simp only [trim, hpost, nameLoop_spec hs₀, Option.bind_eq_bind, Option.bind_some, Option.bind_eq_some_iff] at h
  obtain ⟨q, hq, l, hl, hr⟩ := h
  cases hr
  exact ⟨post, q, hpost, hs₀, rfl, hq, rfl, hl⟩

/-- **What `check_fullname` lets pass.** -/
theorem trim_spec (h : trim m val = some (m', none, len)) (hs : cstring (m.drop val) = some s)
    (hhead : ∀ c, s.head? = some c → c ∉ bytes " \t") (hlen : ¬(len < MINREALNAME ∨ len > 40)) :
    ∃ n, cstring (m'.drop val) = some n ∧ NameOk n := by
  obtain ⟨post, q, hpost, hs₀, hbad, hq, rfl, hstore⟩ := trim_steps h hs
  obtain ⟨hle, -, hlast, -⟩ := trimLoop_spec hq
  rw [not_or, not_lt, not_lt, MINREALNAME] at hlen
  obtain ⟨k, rfl⟩ : ∃ k : ℕ, q = val + k := ⟨q - val, by omega⟩
  have hk : 3 ≤ k ∧ k ≤ 40 ∧ k ≤ s.length := by omega
  have hval : (m.take val).length = val := by
    have hlen' := congrArg List.length hpost
    rw [List.length_drop, List.length_append, List.length_cons] at hlen'
    rw [List.length_take_of_le (by omega)]
  obtain ⟨c, rest, hrest⟩ := List.exists_cons_of_ne_nil (l := (s.map untab).drop k ++ 0 :: post) (by simp)
  have hsplit : s.map untab ++ 0 :: post = (s.map untab).take k ++ c :: rest := by
    rw [← hrest, ← List.append_assoc, List.take_append_drop]
  have hsub : ∀ c ∈ (s.map untab).take k, c ∈ s.map untab := fun c hc => List.mem_of_mem_take hc
  have hnul : 0 ∉ (s.map untab).take k := by
    intro hmem
    obtain ⟨c, hc, h0⟩ := List.mem_map.1 (hsub 0 hmem)
    exact untab_ne_zero (fun h => hs₀ (h ▸ hc)) h0
  have hm' : m' = m.take val ++ ((s.map untab).take k ++ 0 :: rest) := by
    rw [hsplit, ← List.append_assoc, store_append (by simp [hval]; omega)] at hstore
    rw [← Option.some.inj hstore, List.append_assoc]
  refine ⟨(s.map untab).take k, ?_, ?_, fun c hc => ?_, ?_, ?_⟩
  · rw [hm', List.drop_left' hval]
    exact cstring_nul hnul rest
  · simp only [List.length_take, List.length_map]
    omega
  · have hok := List.find?_eq_none.1 hbad.symm c (hsub c hc)
    simp only [badname, Bool.or_eq_true, Bool.not_eq_true', decide_eq_true_eq, not_or] at hok
    exact ⟨Bool.not_eq_false _ ▸ hok.1.2, hok.2⟩
  · rw [List.head?_take, if_neg (by omega), List.head?_map]
    intro hspace
    obtain ⟨c, hc, hblank⟩ := Option.map_eq_some_iff.1 hspace
    exact hhead c hc (untab_eq_space hblank)
  · rw [List.getLast?_take, if_neg (by omega)]
    rw [List.getElem?_append_right (by omega), hval, List.getElem?_append_left (by rw [List.length_map]; omega),
      show val + k - 1 - val = k - 1 by omega] at hlast
    obtain ⟨x, hx⟩ : ∃ x, (s.map untab)[k - 1]? = some x :=
      ⟨_, List.getElem?_eq_getElem (by rw [List.length_map]; omega)⟩
    rwa [hx, Option.some_or, ← hx]

/-- **Where `check_fullname` writes.** There is a NUL in front of the value, at `lo`, and blanks from there to `val`. -/
theorem trim_agree {lo : ℕ} (h : trim m val = some (m', bad, len)) (hs : cstring (m.drop val) = some s)
    (hlo : m[lo]? = some 0) (hlt : lo < val) : Agree (Set.Ico (lo + 1) (val + s.length)) m m' := by
  obtain ⟨post, q, hpost, hs₀, -, hq, rfl, hstore⟩ := trim_steps h hs
  have hsplice : Agree (Set.Ico val (val + s.length)) m (m.take val ++ (s.map untab ++ 0 :: post)) :=
    agree_splice hpost (List.length_map untab)
  obtain ⟨hle, -, -, hall⟩ := trimLoop_spec hq
  have hge : lo < q := by
    by_contra hqlo
    have hspace := hall lo (not_lt.1 hqlo) (by omega)
    rw [hsplice lo (fun h => absurd h.1 (by omega)), hlo] at hspace
    exact absurd hspace (by decide)
  refine (hsplice.mono (Set.Ico_subset_Ico_left hlt)).trans (agree_store hstore ?_)
  rcases hle.lt_or_eq with hlt' | rfl
  · exact Or.inl ⟨hge, hlt'⟩
  · rw [hsplice _ (fun h => absurd h.2 (lt_irrefl _))]
    exact Or.inr (getElem?_cstring hs)

end Names

/-! ## Paragraphs -/

section Paragraphs

variable {m m' l s post : Bytes} {val lo i j k start p q : ℕ} {c : UInt8} {r : Cleaned}

theorem stripLoop_spec {mid : Bytes} (h : stripLoop mid (s ++ 0 :: post) = some (l, i, j)) (hs : 0 ∉ s) :
    ∃ x, l = x ++ 0 :: post ∧ x.length = mid.length + s.length ∧ i ≤ s.length ∧ j = s.length := by
  induction s generalizing mid l i j with
  | nil =>
    cases h
    cases mid with
    | nil => exact ⟨[], rfl, rfl, le_rfl, rfl⟩
    | cons a mid => exact ⟨0 :: mid, rfl, rfl, le_rfl, rfl⟩
  | cons c s ih =>
    rw [List.mem_cons, not_or] at hs
    rw [List.cons_append, stripLoop, if_neg (Ne.symm hs.1)] at h
    split_ifs at h
    · obtain ⟨⟨l', i', j'⟩, hrec, hr⟩ := Option.map_eq_some_iff.1 h
      cases hr
      obtain ⟨x, rfl, hx, hi, rfl⟩ := ih hrec hs.2
      refine ⟨x, rfl, ?_, Nat.le_succ_of_le hi, rfl⟩
      rw [hx, List.length_append, List.length_singleton, List.length_cons]
      omega
    · obtain ⟨⟨l', i', j'⟩, hrec, hr⟩ := Option.map_eq_some_iff.1 h
      cases hr
      obtain ⟨x, rfl, hx, hi, rfl⟩ := ih hrec hs.2
      refine ⟨c :: x, rfl, ?_, Nat.succ_le_succ hi, rfl⟩
      rw [List.length_cons, hx, List.length_tail, List.length_append, List.length_singleton, List.length_cons]
      omega

theorem blankLoop_spec {cp1 start' : ℕ} (h : blankLoop (s ++ 0 :: post) cp1 start = some (c, k, start'))
    (hstart : start ≤ cp1) : start' ≤ cp1 + s.length := by
  induction s generalizing cp1 start with
  | nil =>
    rw [List.nil_append, blankLoop, if_neg (by simp)] at h
    cases h
    exact hstart
  | cons d s ih =>
    rw [List.cons_append, blankLoop] at h
    split_ifs at h with hd hnl
    · have hrec := ih h le_rfl
      rw [List.length_cons]
      omega
    · have hrec := ih h (by omega)
      rw [List.length_cons]
      omega
    · cases h
      omega

theorem lastLoop_spec (h : lastLoop m p = some q) (hlo : m[lo]? = some 0) (hlt : lo < p) : lo ≤ q ∧ q < p := by
  induction p with
  | zero => cases h
  | succ p ih =>
    rw [lastLoop, Option.bind_eq_bind, Option.bind_eq_some_iff] at h
    obtain ⟨c, hc, h⟩ := h
    rcases Nat.lt_succ_iff_lt_or_eq.1 hlt with hlt | rfl
    · split_ifs at h
      · have hrec := ih h hlt
        omega
      · cases h
        omega
    · obtain rfl : c = 0 := Option.some.inj (hc.symm.trans hlo)
      rw [if_neg (by decide)] at h
      cases h
      omega

theorem length_wrapChar {w w' : Wrap} {next : Option UInt8} (h : wrapChar (breakLine w c) c next = some w') :
    w'.text.length = w.text.length + 1 := by
  have hbreak : (breakLine w c).text.length = w.text.length := by
    unfold breakLine
    split
    · split_ifs
      · exact List.length_set
      · rfl
    · rfl
  rw [← hbreak]
  simp only [wrapChar] at h
  split_ifs at h
  · obtain ⟨d, -, rfl⟩ := Option.map_eq_some_iff.1 h
    split_ifs <;> simp
  all_goals
    cases h
    simp

theorem wrapLoop_spec {w : Wrap} (h : wrapLoop (s ++ 0 :: post) w = some l) (hs : 0 ∉ s) :
    ∃ x, l = x ++ 0 :: post ∧ x.length = w.text.length + s.length := by
  induction s generalizing w with
  | nil =>
    rw [List.nil_append, wrapLoop, if_pos rfl] at h
    cases h
    exact ⟨w.text, rfl, rfl⟩
  | cons c s ih =>
    rw [List.mem_cons, not_or] at hs
    rw [List.cons_append, wrapLoop, if_neg (Ne.symm hs.1), Option.bind_eq_bind, Option.bind_eq_some_iff] at h
    obtain ⟨w', hw', hrec⟩ := h
    obtain ⟨x, hl, hx⟩ := ih hrec hs.2
    refine ⟨x, hl, ?_⟩
    rw [hx, length_wrapChar hw', List.length_cons]
    omega

/-- `wrap_text` stays within the text -/
theorem wrap_agree (h : onward m p wrap_text = some m') (hq : m[q]? = some 0) (hp : p ≤ q) :
    Agree (Set.Ico p q) m m' := by
  obtain ⟨s, hs, hle⟩ := exists_cstring hq hp
  obtain ⟨hs₀, post, hpost⟩ := cstring_eq_some.1 hs
  rw [onward, Option.map_eq_some_iff, hpost] at h
  obtain ⟨l, hl, rfl⟩ := h
  obtain ⟨x, rfl, hx⟩ := wrapLoop_spec hl hs₀
  rw [List.length_nil, Nat.zero_add] at hx
  exact (agree_splice hpost hx).mono (Set.Ico_subset_Ico_right hle)

/-- **Where `clean_text` writes.** There is a NUL in front of the value. -/
theorem clean_agree (h : clean m val = some (m', r)) (hs : cstring (m.drop val) = some s)
    (hlo : m[lo]? = some 0) (hval : val = lo + 1) : Agree (Set.Ico val (val + s.length)) m m' := by
  obtain ⟨hs₀, post, hpost⟩ := cstring_eq_some.1 hs
  simp only [clean, hpost, Option.bind_eq_bind, Option.bind_eq_some_iff] at h
  obtain ⟨⟨l, i, j⟩, hstrip, ⟨c, cp1, start⟩, hblank, h⟩ := h
  obtain ⟨x, rfl, hx, hi, rfl⟩ := stripLoop_spec hstrip hs₀
  rw [List.length_nil, Nat.zero_add] at hx
  have hend : m[val + s.length]? = some 0 := getElem?_cstring hs
  -- the first pass
  have hfirst : Agree (Set.Ico val (val + s.length)) m (m.take val ++ (x ++ 0 :: post)) := agree_splice hpost hx
  generalize m.take val ++ (x ++ 0 :: post) = m₁ at h hfirst
  have hlo₁ : m₁[lo]? = some 0 := (hfirst lo fun h => absurd h.1 (by omega)).trans hlo
  have hend₁ : m₁[val + s.length]? = some 0 := (hfirst _ fun h => absurd h.2 (lt_irrefl _)).trans hend
  have hstart : start ≤ s.length := by
    have hle := blankLoop_spec hblank le_rfl
    omega
  dsimp only at h
  split_ifs at h
  · cases h
    exact hfirst
  · obtain ⟨last, hlast, h⟩ := Option.bind_eq_some_iff.1 h
    obtain ⟨hge, hlt⟩ := lastLoop_spec hlast hlo₁ (by omega)
    split_ifs at h with hroom
    · obtain ⟨m₂, hnewline, h⟩ := Option.bind_eq_some_iff.1 h
      obtain ⟨m₃, hnul, h⟩ := Option.bind_eq_some_iff.1 h
      obtain ⟨m₄, hwrap, hr⟩ := Option.bind_eq_some_iff.1 h
      cases hr
      have h₂ : Agree (Set.Ico val (val + s.length)) m₁ m₂ := agree_store hnewline (Or.inl ⟨by omega, hroom⟩)
      have hend₂ := (h₂ _ fun h => absurd h.2 (lt_irrefl _)).trans hend₁
      have h₃ : Agree (Set.Ico val (val + s.length)) m₂ m₃ := by
        refine agree_store hnul ?_
        rcases Nat.lt_or_ge (last + 2) (val + s.length) with hlt' | hge'
        · exact Or.inl ⟨by omega, hlt'⟩
        · rw [show last + 2 = val + s.length by omega]
          exact Or.inr hend₂
      have hend₃ := (h₃ _ fun h => absurd h.2 (lt_irrefl _)).trans hend₂
      have h₄ := (wrap_agree hwrap hend₃ (by omega)).mono (Set.Ico_subset_Ico_left (Nat.le_add_right val start))
      exact hfirst.trans (h₂.trans (h₃.trans h₄))
    · obtain ⟨copy, -, hr⟩ := Option.bind_eq_some_iff.1 h
      cases hr
      exact hfirst

end Paragraphs

/-! ## The cells of the entries -/

section Layout

variable {N : Set Bytes} {m m' name : Bytes} {head : List Entry} {e e' : Entry} {i : ℕ}

/-- the string at a cell, where there is one -/
def textAt (m : Bytes) (p : ℕ) : Bytes := (cstring (m.drop p)).getD []

/-- where the last NUL of an entry is -/
def Entry.stop (m : Bytes) (e : Entry) : ℕ :=
  match e.value with
  | .blank => e.name + (textAt m e.name).length
  | .cell p => p + (textAt m p).length

/-- the cells of the value -/
def Entry.region (m : Bytes) (e : Entry) : Set ℕ :=
  match e.value with
  | .blank => ∅
  | .cell p => Set.Ico p (e.stop m)

/-- the cells of the values with certain names -/
def regions (m : Bytes) (head : List Entry) (N : Set Bytes) : Set ℕ :=
  {i | ∃ e ∈ head, textAt m e.name ∈ N ∧ i ∈ e.region m}

/-- there are a name and a value, the value behind the name -/
structure Entry.Laid (m : Bytes) (e : Entry) : Prop where
  name : cstring (m.drop e.name) = some (textAt m e.name)
  value : ∀ p, e.value = .cell p → p = e.name + (textAt m e.name).length + 1 ∧ cstring (m.drop p) = some (textAt m p)

/-- one entry is behind the other -/
def Entry.Apart (m : Bytes) (e e' : Entry) : Prop := e.stop m < e'.name ∨ e'.stop m < e.name

/-- the entries have cells of their own -/
structure Layout (m : Bytes) (head : List Entry) : Prop where
  laid : ∀ e ∈ head, e.Laid m
  apart : ∀ e ∈ head, ∀ e' ∈ head, e ≠ e' → e.Apart m e'

theorem textAt_eq {s : Bytes} {p : ℕ} (h : cstring (m.drop p) = some s) : textAt m p = s := by
  rw [textAt, h, Option.getD_some]

theorem Entry.Laid.name_le (h : e.Laid m) : e.name + (textAt m e.name).length ≤ e.stop m := by
  unfold Entry.stop
  cases hv : e.value with
  | blank => exact le_rfl
  | cell p =>
    have hp := (h.value p hv).1
    dsimp only
    omega

theorem Entry.Laid.region_sub (h : e.Laid m) (hi : i ∈ e.region m) :
    e.name + (textAt m e.name).length < i ∧ i < e.stop m := by
  unfold Entry.region at hi
  cases hv : e.value with
  | blank =>
    rw [hv] at hi
    exact absurd hi (Set.notMem_empty i)
  | cell p =>
    rw [hv] at hi
    have hp := (h.value p hv).1
    exact ⟨by have := hi.1; omega, hi.2⟩

/-- a place in an entry is in no value with the names but its own -/
theorem Layout.not_mem (h : Layout m head) (he : e ∈ head) (hlo : e.name ≤ i) (hhi : i ≤ e.stop m)
    (hown : textAt m e.name ∈ N → i ∉ e.region m) : i ∉ regions m head N := by
  intro hmem
  obtain ⟨e', he', hname, hi⟩ := hmem
  obtain ⟨hlo', hhi'⟩ := (h.laid e' he').region_sub hi
  by_cases hee : e = e'
  · subst hee
    exact hown hname hi
  · rcases h.apart e he e' he' hee with hlt | hlt
    · omega
    · omega

theorem Layout.name_not_mem (h : Layout m head) (he : e ∈ head) (hlo : e.name ≤ i)
    (hhi : i ≤ e.name + (textAt m e.name).length) : i ∉ regions m head N := by
  have hle := (h.laid e he).name_le
  refine h.not_mem he hlo (hhi.trans hle) fun _ hi => ?_
  have hlt := ((h.laid e he).region_sub hi).1
  omega

theorem Layout.stop_not_mem (h : Layout m head) (he : e ∈ head) : e.stop m ∉ regions m head N := by
  have hle := (h.laid e he).name_le
  refine h.not_mem he (by omega) le_rfl fun _ hi => ?_
  exact absurd ((h.laid e he).region_sub hi).2 (lt_irrefl _)

/-- the cells of an entry with another name -/
theorem Layout.cell_not_mem (h : Layout m head) (he : e ∈ head) (hN : textAt m e.name ∉ N) (hlo : e.name ≤ i)
    (hhi : i ≤ e.stop m) : i ∉ regions m head N := h.not_mem he hlo hhi fun hname => absurd hname hN

theorem getvar_agree (h : Layout m head) (hm : Agree (regions m head N) m m') {vs : List Entry} (hvs : vs ⊆ head) :
    getvar m' name vs = getvar m name vs := by
  induction vs with
  | nil => rfl
  | cons v vs ih =>
    have hv : v ∈ head := hvs List.mem_cons_self
    have hname := (h.laid v hv).name
    have hname' := cstring_agree hm hname fun i hlo hhi => h.name_not_mem hv hlo hhi
    rw [getvar, getvar, hname, hname', ih fun x hx => hvs (List.mem_cons_of_mem v hx)]

theorem getvar_spec (h : Layout m head) {v : Value} (hv : getvar m name head = some (some v)) :
    ∃ e ∈ head, e.value = v ∧ textAt m e.name = name := by
  have hlaid : ∀ e ∈ head, cstring (m.drop e.name) = some (textAt m e.name) := fun e he => (h.laid e he).name
  clear h
  induction head with
  | nil => cases hv
  | cons e es ih =>
    obtain ⟨he, hes⟩ := List.forall_mem_cons.1 hlaid
    rw [getvar, he, Option.bind_eq_bind, Option.bind_some] at hv
    split_ifs at hv with hname
    · exact ⟨e, List.mem_cons_self, Option.some.inj (Option.some.inj hv), hname⟩
    · obtain ⟨e', he', h⟩ := ih hv hes
      exact ⟨e', List.mem_cons_of_mem e he', h⟩

/-- an entry that has been read by itself, inside a buffer -/
theorem Entry.laid_shift {l : Bytes} {v : Bytes × Bytes} (hname : e.name = 0) (htext : e.text l = some v)
    (hvalue : ∀ p, e.value = .cell p → p = v.1.length + 1) (pre post : Bytes) :
    (e.shift pre.length).Laid (pre ++ l ++ post) ∧
      (e.shift pre.length).stop (pre ++ l ++ post) < pre.length + l.length := by
  simp only [Entry.text, Option.bind_eq_bind, Option.bind_eq_some_iff] at htext
  obtain ⟨n, hn, w, hw, hv⟩ := htext
  obtain rfl : (n, w) = v := Option.some.inj hv
  rw [hname] at hn
  have hnlen : n.length < l.length := by
    have hlt := (List.getElem?_eq_some_iff.1 (getElem?_cstring hn)).1
    omega
  have hn' := cstring_frame hn pre post
  rw [add_zero] at hn'
  have hshift : (e.shift pre.length).name = pre.length := by rw [Entry.shift, hname, add_zero]
  cases hval : e.value with
  | blank =>
    have hblank : (e.shift pre.length).value = .blank := by rw [Entry.shift, hval, Value.shift]
    refine ⟨⟨?_, fun p hp => ?_⟩, ?_⟩
    · rw [hshift, textAt_eq hn', hn']
    · rw [hblank] at hp
      cases hp
    · rw [Entry.stop, hblank]
      dsimp only
      rw [hshift, textAt_eq hn']
      omega
  | cell p =>
    rw [hval] at hw
    have hcell : (e.shift pre.length).value = .cell (pre.length + p) := by rw [Entry.shift, hval, Value.shift]
    have hw' := cstring_frame hw pre post
    refine ⟨⟨?_, fun q hq => ?_⟩, ?_⟩
    · rw [hshift, textAt_eq hn', hn']
    · obtain rfl : pre.length + p = q := Value.cell.inj (hcell.symm.trans hq)
      have hp : p = n.length + 1 := hvalue p hval
      exact ⟨by rw [hshift, textAt_eq hn', hp, add_assoc], by rw [textAt_eq hw', hw']⟩
    · have hlt := (List.getElem?_eq_some_iff.1 (getElem?_cstring hw)).1
      rw [Entry.stop, hcell]
      dsimp only
      rw [textAt_eq hw']
      omega

/-- entries that come one after the other -/
theorem place_laid {ss : List Bytes} {rs : List (Bytes × Entry)}
    (h : List.Forall₂ (fun s r => entryAt (s ++ [0]) 0 = some r) ss rs) (hnul : ∀ s ∈ ss, 0 ∉ s) (pre : Bytes) :
    (∀ e ∈ place pre.length rs, e.Laid (pre ++ rs.flatMap Prod.fst) ∧ pre.length ≤ e.name) ∧
      (place pre.length rs).Pairwise fun e e' => e.stop (pre ++ rs.flatMap Prod.fst) < e'.name := by
  induction h generalizing pre with
  | nil => exact ⟨by simp [place], List.Pairwise.nil⟩
  | @cons s r ss rs hs _ ih =>
    obtain ⟨l, e⟩ := r
    obtain ⟨hs₀, hnul⟩ := List.forall_mem_cons.1 hnul
    obtain ⟨hname, v, htext, hvalue⟩ := entryAt_value hs₀ hs
    have hhead := Entry.laid_shift hname htext hvalue pre (rs.flatMap Prod.fst)
    have htail := ih hnul (pre ++ l)
    have hbuffer : pre ++ ((l, e) :: rs).flatMap Prod.fst = pre ++ l ++ rs.flatMap Prod.fst := by
      rw [List.flatMap_cons, List.append_assoc]
    rw [List.length_append] at htail
    rw [hbuffer, place]
    refine ⟨List.forall_mem_cons.2 ⟨⟨hhead.1, Nat.le_add_right _ _⟩, fun e' he' => ?_⟩, List.pairwise_cons.2 ⟨?_, ?_⟩⟩
    · have h := htail.1 e' he'
      exact ⟨h.1, (Nat.le_add_right _ _).trans h.2⟩
    · exact fun e' he' => hhead.2.trans_le (htail.1 e' he').2
    · exact htail.2

/-- **Complete escapes keep the entries apart.** -/
theorem layout_load {q : Bytes} (hnul : 0 ∉ q) (hcomplete : ∀ s ∈ segments q, Complete s) :
    ∃ r, load_query (some q) = some r ∧ Layout r.buffer r.head := by
  rcases eq_or_ne q [] with rfl | hq
  · exact ⟨⟨[], []⟩, rfl, nofun, nofun⟩
  · obtain ⟨hjoin, hfree⟩ := segments_spec hnul hq
    obtain ⟨ts, hts⟩ := exists_alone (fun s hs => (hfree s hs).1) hcomplete
    obtain ⟨rs, hentries, hload, -⟩ := load_segments hts hfree (by rwa [hjoin])
    rw [hjoin] at hload
    obtain ⟨hlaid, happart⟩ := place_laid hentries (fun s hs => (hfree s hs).1) []
    rw [List.length_nil, List.nil_append] at hlaid happart
    refine ⟨_, hload, fun e he => (hlaid e (List.mem_reverse.1 he)).1, fun e he e' he' => ?_⟩
    have heither : (place 0 rs).Pairwise (Entry.Apart (rs.flatMap Prod.fst)) := happart.imp Or.inl
    have hsymm : Std.Symm (Entry.Apart (rs.flatMap Prod.fst)) := ⟨fun _ _ => Or.symm⟩
    exact heither.forall (List.mem_reverse.1 he) (List.mem_reverse.1 he')

end Layout

end MNetSoft.Ownu
