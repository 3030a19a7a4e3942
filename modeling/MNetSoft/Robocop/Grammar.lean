/-
What `nread` accepts (`nprint.c`). It is more than the format of `nswrite`: the length is whatever `strtol` takes as a
whole up to a NUL, also nothing, with white space, a sign or too many digits, and goes through an int; and behind the
comma any two characters stand for the return and the newline.

- `nread_accepts_iff`: what is accepted.
- `nread_right_iff`: when `nread` accepts what is in the grammar and nothing else.
- `no_length`: a message without a length.
-/
import Mathlib.Tactic
import MNetSoft.Robocop.Wire

namespace MNetSoft.Robocop

open MNetSoft.CString MNetSoft.Numerals

/-! ## The grammar -/

/-- the bytes that arrive before the end of the stream, or an error -/
def arriving (s : Stream) : Str := (s.takeWhile (· ≠ [])).flatten

/-- a decimal number of fewer than 63 digits -/
def Decimal (ds : Str) (n : ℕ) : Prop :=
  ds ≠ [] ∧ ds.length < 63 ∧ (∀ c ∈ ds, '0' ≤ c ∧ c ≤ '9') ∧ (scanDigits 10 0 ds).1 = n

/-- a text begins with a newline, or a return and a newline -/
def LineEnd (e : Str) : Prop := ['\n'] <+: e ∨ ['\r', '\n'] <+: e

/-- a text begins with a message shorter than `buflen` -/
def InGrammar (buflen : ℕ) (t : Str) : Prop :=
  ∃ ds p e, t = ds ++ ':' :: (p ++ ',' :: e) ∧ Decimal ds p.length ∧ p.length < buflen ∧ LineEnd e

/-- 0 is returned for what is in the grammar, and -1 for all else -/
def Exact (buf : Str) (s : Stream) : Prop :=
  (InGrammar buf.length (arriving s) → ∃ buf' s', nread buf s = some (some buf', s')) ∧
    (¬ InGrammar buf.length (arriving s) → ∃ s', nread buf s = some (none, s'))

/-- a text begins with a newline or has two characters -/
def LooseEnd (e : Str) : Prop := ['\n'] <+: e ∨ 2 ≤ e.length

/-- a text begins with what is taken for a message: `ds` for the length, `p` for the message, `e` for the end -/
def Taken (buflen : ℕ) (t ds p e : Str) : Prop :=
  t = ds ++ ':' :: (p ++ ',' :: e) ∧ LengthText ds p.length ∧ p.length < buflen ∧ LooseEnd e

/-! ## The end of the stream -/

/-- the stream is at its end, or there is an error -/
def Ended (s : Stream) : Prop := ∀ c ∈ s.head?, c = []

variable {s s₀ : Stream}

theorem exists_ahead (s : Stream) : ∃ s₀, Ended s₀ ∧ Ahead s (arriving s) s₀ := by
  refine ⟨s.dropWhile (· ≠ []), ?_, s.takeWhile (· ≠ []), List.takeWhile_append_dropWhile.symm, ?_, rfl⟩
  · intro c hc
    have hstop := List.head?_dropWhile_not (· ≠ []) s
    rw [Option.mem_def.1 hc] at hstop
    simpa using hstop
  · intro h
    simpa using List.mem_takeWhile_imp h

/-- at the end nothing is read -/
theorem read_ended (hs₀ : Ended s₀) (h : Ahead s [] s₀) (n : ℕ) : (read n s).1 = [] := by
  obtain ⟨s₁, rfl, hne, hflat⟩ := h
  have hs₁ : s₁ = [] := by
    cases s₁ with
    | nil => rfl
    | cons c s₁ => exact absurd (by simp [(List.append_eq_nil_iff.1 hflat).1]) hne
  subst hs₁
  cases s₀ with
  | nil => rfl
  | cons c s₀ =>
    obtain rfl : c = [] := hs₀ c rfl
    rfl

/-! ## What is accepted -/

theorem read_one_cases (hs₀ : Ended s₀) {t : Str} (h : Ahead s t s₀) :
    (∃ s', t = [] ∧ read 1 s = ([], s')) ∨ ∃ c t' s', t = c :: t' ∧ read 1 s = ([c], s') ∧ Ahead s' t' s₀ := by
  cases t with
  | nil => exact Or.inl ⟨(read 1 s).2, rfl, Prod.ext (read_ended hs₀ h 1) rfl⟩
  | cons c t' =>
    obtain ⟨s', hread, hs'⟩ := read_one h
    exact Or.inr ⟨c, t', s', rfl, hread, hs'⟩

theorem andThen_eq_some {α β : Type} {r : Result α} {f : α → Stream → Result β} {b : β} {s' : Stream}
    (h : andThen r f = some (some b, s')) : ∃ a s₁, r = some (some a, s₁) ∧ f a s₁ = some (some b, s') := by
  rcases r with _ | ⟨_ | a, s₁⟩
  · cases h
  · cases h
  · exact ⟨a, s₁, rfl, h⟩

theorem storing_eq_some {β : Type} {buf b : Str} {i : ℕ} {f : Str → Result β} {x : Option β × Stream}
    (h : storing buf i b f = some x) : ∃ buf', f buf' = some x := by
  obtain ⟨buf', -, h⟩ := Option.bind_eq_some_iff.1 h
  exact ⟨buf', h⟩

/-- without a colon the length loop ends at a cell that has not been stored into -/
theorem lengthLoop_colon (hs₀ : Ended s₀) {k m : ℕ} (hk : k < m) {a t : Str} (h : Ahead s t s₀) {r : Str × ℕ}
    {s' : Stream} (hloop : lengthLoop k (a ++ List.replicate m '\x00') a.length s = some (some r, s')) :
    (∃ ds t', t = ds ++ ':' :: t' ∧ ':' ∉ ds ∧ ds.length < k) ∨ r.1[r.2]? = some '\x00' := by
  obtain ⟨m, rfl⟩ := Nat.exists_eq_add_one_of_ne_zero (show m ≠ 0 by omega)
  induction k generalizing a t s m with
  | zero =>
    cases hloop
    exact Or.inr (by simp)
  | succ k ih =>
    obtain ⟨m, rfl⟩ := Nat.exists_eq_add_one_of_ne_zero (show m ≠ 0 by omega)
    rw [lengthLoop] at hloop
    rcases read_one_cases hs₀ h with ⟨s₁, rfl, hread⟩ | ⟨c, t', s₁, rfl, hread, hs₁⟩
    · rw [hread] at hloop
      cases hloop
    · rw [hread] at hloop
      dsimp only at hloop
      rw [List.replicate_succ, storing_char] at hloop
      split_ifs at hloop with hc
      · exact Or.inl ⟨[], t', by rw [hc]; rfl, by simp, by simp⟩
      · rw [List.append_cons] at hloop
        have hlen : a.length + 1 = (a ++ [c]).length := by simp
        rw [hlen] at hloop
        refine (ih hs₁ m (by omega) hloop).imp_left ?_
        rintro ⟨ds, t'', rfl, hds, hlt⟩
        exact ⟨c :: ds, t'', rfl, by simp [Ne.symm hc, hds], by simpa using hlt⟩

theorem readLength_inv (hs₀ : Ended s₀) {t : Str} (h : Ahead s t s₀) {n : ℤ} {s' : Stream}
    (hread : readLength s = some (some n, s')) :
    ∃ ds t', t = ds ++ ':' :: t' ∧ LengthText ds n ∧ Ahead s' t' s₀ := by
  have hread' := hread
  rw [readLength] at hread'
  obtain ⟨r, s₁, hloop, hrest⟩ := andThen_eq_some hread'
  rcases lengthLoop_colon hs₀ (by norm_num : 63 < 64) (a := []) h hloop with ⟨ds, t', rfl, hcolon, hlen⟩ | hnul
  · obtain ⟨s₂, hcase, hs₂⟩ := readLength_colon hcolon hlen h
    rw [hread] at hcase
    split_ifs at hcase with hall
    · cases hcase
    · cases hcase
      exact ⟨ds, t', rfl, ⟨hcolon, hlen, not_not.1 hall, rfl⟩, hs₂⟩
  · rw [if_pos (by rw [hnul]; simp)] at hrest
    cases hrest

/-- the payload that is read has arrived -/
theorem payloadLoop_inv (hs₀ : Ended s₀) {t : Str} (h : Ahead s t s₀) {buf : Str} {i n : ℕ} {r : Str × ℕ} {s' : Stream}
    (hloop : payloadLoop buf i n s = some (some r, s')) : n ≤ t.length := by
  induction n using Nat.strong_induction_on generalizing t s buf i with
  | _ n ih =>
    rw [payloadLoop] at hloop
    by_cases hn : n = 0
    · omega
    · rw [if_neg hn] at hloop
      by_cases ht : t = []
      · subst ht
        rw [read_ended hs₀ h] at hloop
        cases hloop
      · obtain ⟨q, t', rfl, hq, hle, hread, hs₁⟩ := read_ahead h ht (Nat.pos_of_ne_zero hn)
        obtain ⟨c, q, rfl⟩ := List.exists_cons_of_ne_nil hq
        rw [hread] at hloop
        obtain ⟨buf', hloop⟩ := storing_eq_some hloop
        have := ih _ (by rw [List.length_cons]; omega) hs₁ hloop
        rw [List.length_append]
        omega

theorem readEnd_of {e : Str} (he : LooseEnd e) (h : Ahead s (',' :: e) s₀) (buf : Str) :
    ∃ s', readEnd buf s = some (some buf, s') := by
  obtain ⟨s₁, h₁, hs₁⟩ := read_one h
  rcases e with _ | ⟨c, e⟩
  · simp [LooseEnd] at he
  · obtain ⟨s₂, h₂, hs₂⟩ := read_one hs₁
    by_cases hc : c = '\n'
    · exact ⟨s₂, by simp only [readEnd, h₁, h₂, if_pos hc]⟩
    · rcases e with _ | ⟨d, e⟩
      · simp [LooseEnd, Ne.symm hc] at he
      · obtain ⟨s₃, h₃, -⟩ := read_one hs₂
        exact ⟨s₃, by simp only [readEnd, h₁, h₂, if_neg hc, h₃]⟩

theorem readEnd_inv (hs₀ : Ended s₀) {t : Str} (h : Ahead s t s₀) {buf b : Str} {s' : Stream}
    (hread : readEnd buf s = some (some b, s')) : ∃ e, t = ',' :: e ∧ LooseEnd e := by
  rcases read_one_cases hs₀ h with ⟨s₁, rfl, h₁⟩ | ⟨c, t, s₁, rfl, h₁, hs₁⟩
  · simp [readEnd, h₁, fail] at hread
  · have hc : c = ',' := by
      by_contra hc
      simp [readEnd, h₁, fail, hc] at hread
    subst hc
    refine ⟨t, rfl, ?_⟩
    rcases read_one_cases hs₀ hs₁ with ⟨s₂, rfl, h₂⟩ | ⟨d, t, s₂, rfl, h₂, hs₂⟩
    · simp [readEnd, h₁, h₂, fail] at hread
    · by_cases hd : d = '\n'
      · exact Or.inl (by simp [hd])
      · rcases read_one_cases hs₀ hs₂ with ⟨s₃, rfl, h₃⟩ | ⟨x, t, s₃, rfl, h₃, -⟩
        · simp [readEnd, h₁, h₂, h₃, fail, hd] at hread
        · exact Or.inr (by simp)

/-- **What is accepted.** -/
theorem nread_accepts_iff (buf : Str) (s : Stream) :
    (∃ buf' s', nread buf s = some (some buf', s')) ↔ ∃ ds p e, Taken buf.length (arriving s) ds p e := by
  obtain ⟨s₀, hs₀, h⟩ := exists_ahead s
  constructor
  · rintro ⟨buf', s', hread⟩
    rw [nread] at hread
    obtain ⟨n, s₁, h₁, hread⟩ := andThen_eq_some hread
    obtain ⟨ds, t, ht, hds, hs₁⟩ := readLength_inv hs₀ h h₁
    rw [ht] at *
    split_ifs at hread with hn
    · cases hread
    · obtain ⟨r, s₂, h₂, hread⟩ := andThen_eq_some hread
      obtain ⟨b, hread⟩ := storing_eq_some hread
      have hlen := payloadLoop_inv hs₀ hs₁ h₂
      -- the payload that was read is the first bytes of what comes
      obtain ⟨p, t', rfl, hp⟩ : ∃ p t', t = p ++ t' ∧ p.length = n.toNat :=
        ⟨t.take n.toNat, t.drop n.toNat, (List.take_append_drop _ _).symm, List.length_take_of_le hlen⟩
      obtain ⟨s₃, h₃, hs₃⟩ := payloadLoop_spec [] p t' (m := buf.length) (by omega) hs₁
      rw [List.nil_append, List.length_nil, hp] at h₃
      rw [h₂] at h₃
      obtain rfl := (Prod.mk.inj (Option.some.inj h₃)).2
      obtain ⟨e, rfl, he⟩ := readEnd_inv hs₀ hs₃ hread
      refine ⟨ds, p, e, rfl, ?_, by omega, he⟩
      rw [hp, Int.toNat_of_nonneg (by omega)]
      exact hds
  · rintro ⟨ds, p, e, ht, hds, hlt, he⟩
    rw [ht] at h
    obtain ⟨k, s₂, hread, hs₂⟩ := nread_payload hds hlt h
    obtain ⟨s₃, h₃⟩ := readEnd_of he hs₂ (p ++ '\x00' :: List.replicate k '\x00')
    exact ⟨_, s₃, hread.trans h₃⟩

/-! ## The result -/

theorem taken_unique {buflen : ℕ} {t ds p e ds' p' e' : Str} (h : Taken buflen t ds p e)
    (h' : Taken buflen t ds' p' e') : ds = ds' ∧ p = p' ∧ e = e' := by
  obtain ⟨rfl, hds, -, -⟩ := h
  obtain ⟨ht, hds', -, -⟩ := h'
  obtain ⟨rfl, hrest⟩ := append_cons_inj hds.1 hds'.1 ht
  have hlen : (p.length : ℤ) = p'.length := hds.2.2.2.symm.trans hds'.2.2.2
  obtain ⟨rfl, he⟩ := List.append_inj hrest (by omega)
  exact ⟨rfl, rfl, (List.cons.inj he).2⟩

/-- a number that fits an int is taken for the length it says -/
theorem lengthText_decimal {ds : Str} {n : ℕ} (h : Decimal ds n) (hn : n < 2 ^ 31) : LengthText ds n := by
  obtain ⟨hne, hlen, hdigits, rfl⟩ := h
  have hsome : ∀ c ∈ ds, (digit 10 c).isSome = true := fun c hc => digit_of_decimal (hdigits c hc)
  have hstart : StartsWithDigit 10 ds := by simpa using startsWithDigit_append hne hsome []
  have hscan : scanDigits 10 0 ds = ((scanDigits 10 0 ds).1, []) := by
    simpa using scanDigits_append hsome (t := []) (by simp [StartsWithDigit]) 0
  have hnul : '\x00' ∉ ds := fun hc => absurd (hdigits _ hc) (by decide)
  have hlong : strtol ds = (((scanDigits 10 0 ds).1 : ℤ), []) := by
    rw [strtol, skipSpace_of_digit hstart, scanSign_of_digit hstart]
    dsimp only
    rw [if_pos hstart, hscan, toLong_of_lt (by omega)]
  refine ⟨fun hc => absurd (hdigits _ hc) (by decide), hlen, ?_, ?_⟩
  · rw [cstr_of_not_mem hnul, hlong]
  · rw [cstr_of_not_mem hnul, hlong, toInt_of_range (by omega) (by omega)]

theorem looseEnd_of_lineEnd {e : Str} (h : LineEnd e) : LooseEnd e :=
  h.imp_right fun h => by simpa using h.length_le

/-- **What `nread` accepts.** It is what is in the grammar if and only if whatever the stream is taken for has a plain
number for its length, that is the length, and a newline at its end, with or without a return before it. -/
theorem nread_right_iff (buf : Str) (s : Stream) (hbuf : buf.length < 2 ^ 31) :
    Exact buf s ↔
      ∀ ds p e, Taken buf.length (arriving s) ds p e → Decimal ds p.length ∧ LineEnd e := by
  have htaken : ∀ ds p e, arriving s = ds ++ ':' :: (p ++ ',' :: e) → Decimal ds p.length → p.length < buf.length →
      LineEnd e → Taken buf.length (arriving s) ds p e := fun ds p e ht hds hp he =>
    ⟨ht, lengthText_decimal hds (hp.trans hbuf), hp, looseEnd_of_lineEnd he⟩
  constructor
  · intro ⟨_, hreject⟩ ds p e h
    have hin : InGrammar buf.length (arriving s) := by
      by_contra hout
      obtain ⟨s', hs'⟩ := hreject hout
      obtain ⟨buf', s'', hs''⟩ := (nread_accepts_iff buf s).2 ⟨ds, p, e, h⟩
      rw [hs'] at hs''
      cases hs''
    obtain ⟨ds', p', e', ht, hds, hp, he⟩ := hin
    obtain ⟨rfl, rfl, rfl⟩ := taken_unique h (htaken ds' p' e' ht hds hp he)
    exact ⟨hds, he⟩
  · intro hall
    constructor
    · rintro ⟨ds, p, e, ht, hds, hp, he⟩
      exact (nread_accepts_iff buf s).2 ⟨ds, p, e, htaken ds p e ht hds hp he⟩
    · intro hout
      obtain ⟨o, s', hread, -⟩ := nread_fits buf s
      cases o with
      | none => exact ⟨s', hread⟩
      | some buf' =>
        obtain ⟨ds, p, e, h⟩ := (nread_accepts_iff buf s).1 ⟨buf', s', hread⟩
        obtain ⟨hds, he⟩ := hall ds p e h
        exact absurd ⟨ds, p, e, h.1, hds, h.2.2.1, he⟩ hout

/-- the answer `ok` to a command, in two pieces -/
theorem nread_ok : Exact (List.replicate 8 '\x00') [['2', ':', 'o'], ['k', ',', '\r', '\n']] := by
  refine (nread_right_iff _ _ (by decide)).2 fun ds p e h => ?_
  have hok : Taken 8 ['2', ':', 'o', 'k', ',', '\r', '\n'] ['2'] ['o', 'k'] ['\r', '\n'] :=
    ⟨rfl, ⟨by decide, by decide, by decide, by decide⟩, by decide, Or.inr (by decide)⟩
  obtain ⟨rfl, rfl, rfl⟩ := taken_unique hok h
  exact ⟨⟨by decide, by decide, by decide, by decide⟩, Or.inr (by decide)⟩

/-- a message without a length is taken for an empty one -/
theorem no_length :
    (∃ buf' s', nread (List.replicate 8 '\x00') [[':', ',', '\n']] = some (some buf', s')) ∧
      ¬ Exact (List.replicate 8 '\x00') [[':', ',', '\n']] := by
  have haccept : ∃ buf' s', nread (List.replicate 8 '\x00') [[':', ',', '\n']] = some (some buf', s') :=
    (nread_accepts_iff _ _).2
      ⟨[], [], ['\n'], rfl, ⟨by decide, by decide, by decide, by decide⟩, by decide, Or.inl (by decide)⟩
  refine ⟨haccept, fun h => ?_⟩
  have hout : ¬ InGrammar 8 [':', ',', '\n'] := by
    rintro ⟨ds, p, e, ht, hds, -, -⟩
    have hcolon : ':' ∉ ds := fun hc => absurd (hds.2.2.1 _ hc) (by decide)
    exact hds.1 (append_cons_inj (s := []) (by decide) hcolon ht).1.symm
  obtain ⟨buf', s', hread⟩ := haccept
  obtain ⟨s'', hreject⟩ := h.2 hout
  rw [hread] at hreject
  cases hreject

end MNetSoft.Robocop
