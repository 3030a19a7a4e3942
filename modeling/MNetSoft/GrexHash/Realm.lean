/-
The realm of a host, as it is stored: `kg_realmofhost` of `grexhash.c`, cell by cell. `GrexHash.Buffer` has the string
that it finds; here are the writes to `realm[0]` to `realm[rsize - 1]`, `none` being a write outside of them.

A dot at the end of the host name is copied like everything else, and then overwritten by the NUL. So the bound is
raised by one for it, and every character takes one off before it is compared with 0.
- `copyStores_spec`: the loop stays in the buffer as long as the bound is at most one more than there are cells, and not
  more than there are without a dot at the end.
- `kg_realmofhost_refines`: the string in the buffer is the one of `GrexHash.kg_realmofhost`.
- `kg_realmofhost_suffix`: which part of the host name this is.
- `realm_right`: all writes are in the buffer, and the realm is right, if the bound does not leave the range of an
  `int`.
- `smallest_int`: the bound that does.
-/
import Mathlib.Tactic
import MNetSoft.Core.Memory
import MNetSoft.GrexHash.Buffer

namespace MNetSoft.GrexHash.Realm

open MNetSoft.Memory

/-! ## Model -/

/-- an `int`, if it is one -/
def int (n : ℤ) : Option ℤ := if -2 ^ 31 ≤ n ∧ n < 2 ^ 31 then some n else none

/-- `islower(c) ? toupper(c) : c` -/
def upper (c : UInt8) : UInt8 := if 0x61 ≤ c ∧ c ≤ 0x7a then c - 0x20 else c

/-- the second loop, and the NUL behind it; `s2` and `s3` are places in `realm` -/
def copyStores (realm : List UInt8) (rsize : ℤ) (s2 : Option ℕ) (s3 : ℕ) : List UInt8 → Option (ℕ × List UInt8)
  | [] => do
    let realm ← store realm (s2.getD s3) 0
    some (0, realm)
  | c :: s4 => do
    let rsize ← int (rsize - 1)
    if rsize ≤ 0 then some (1, realm)
    else do
      let realm ← store realm s3 (upper c)
      copyStores realm rsize (if c = 0x2e then some s3 else none) (s3 + 1) s4

/-- what it returns, and the buffer -/
def kg_realmofhost (hostname realm : List UInt8) (rsize : ℤ) : Option (ℕ × List UInt8) :=
  let d := nextDot ⟨hostname, none, none, 0⟩ hostname
  match d.s3 with
  | none => some (1, realm)
  | some s3 =>
    if foreign d.s2 s3 d.c ∧ d.s4 = none then some (1, realm)
    else do
      let s4 := if foreign d.s2 s3 d.c then d.s4.getD s3 else s3
      let rsize ← int (rsize + d.c)
      copyStores realm rsize none 0 s4

/-! ## What is to be stored -/

structure Buffer where
  realm : List UInt8
  rsize : ℤ
  isInt : -2 ^ 31 ≤ rsize ∧ rsize < 2 ^ 31
  length_eq : realm.length = rsize.toNat

/-- a text without a dot at its end -/
def dropDot (s : List UInt8) : List UInt8 := if s.getLast? = some 0x2e then s.dropLast else s

/-- a text is the rest of a host name from its beginning or from behind a dot -/
def Starts (hostname t : List UInt8) : Prop :=
  ∃ pre, hostname = pre ++ t ∧ (pre = [] ∨ pre.getLast? = some 0x2e)

/-- All writes are in the buffer, and what is stored when it succeeds is a part of the host name. -/
def RealmRight (hostname : List UInt8) (b : Buffer) : Prop :=
  ∃ ret realm, kg_realmofhost hostname b.realm b.rsize = some (ret, realm) ∧
    (ret = 0 → ∃ suffix rest, Starts (dropDot hostname) suffix ∧ realm = suffix.map upper ++ 0 :: rest)

/-- the bound, with one more for a dot at the end and one less for a character, is an `int` -/
def CountFits (hostname : List UInt8) (rsize : ℤ) : Prop :=
  if hostname.getLast? = some 0x2e then rsize + 1 < 2 ^ 31 else -2 ^ 31 ≤ rsize - 1

instance (hostname : List UInt8) (rsize : ℤ) : Decidable (CountFits hostname rsize) := by
  unfold CountFits
  infer_instance

/-! ## Domains -/

section Domains

variable {hostname s t : List UInt8} {c : UInt8}

theorem getLast?_cons_ne (c : UInt8) (hne : s ≠ []) : (c :: s).getLast? = s.getLast? := by
  obtain ⟨b, t, rfl⟩ := List.exists_cons_of_ne_nil hne
  exact List.getLast?_cons_cons

theorem dropDot_cons (c : UInt8) (hne : s ≠ []) : dropDot (c :: s) = c :: dropDot s := by
  rw [dropDot, dropDot, getLast?_cons_ne c hne, List.dropLast_cons_of_ne_nil hne]
  split_ifs <;> rfl

theorem starts_dropDot (h : Starts hostname t) (hne : t ≠ []) : Starts (dropDot hostname) (dropDot t) := by
  obtain ⟨pre, rfl, hpre⟩ := h
  have hlast : (pre ++ t).getLast? = t.getLast? := List.getLast?_append_of_ne_nil pre hne
  refine ⟨pre, ?_, hpre⟩
  rw [dropDot, dropDot, hlast, List.dropLast_append_of_ne_nil hne]
  split_ifs <;> rfl

/-- all domains that have been found are parts of the host name -/
structure Found (hostname : List UInt8) (d : Domains) : Prop where
  s2 : Starts hostname d.s2
  s2_ne : d.s2 ≠ []
  s3 : ∀ t ∈ d.s3, Starts hostname t ∧ t ≠ []
  s4 : ∀ t ∈ d.s4, Starts hostname t ∧ t ≠ []

/-- **The loop over the dots** finds parts of the host name, and whether a dot ends it. -/
theorem nextDot_spec {d : Domains} (h : Found hostname d) (hc : d.c = 0) {pre : List UInt8} (hs : hostname = pre ++ s) :
    Found hostname (nextDot d s) ∧ (nextDot d s).c = if s.getLast? = some 0x2e then 1 else 0 := by
  induction s generalizing d pre with
  | nil => exact ⟨h, hc⟩
  | cons ch s1 ih =>
    have hs1 : hostname = (pre ++ [ch]) ++ s1 := by rw [hs, List.append_assoc, List.singleton_append]
    rw [nextDot]
    by_cases hdot : ch = 0x2e
    · rw [if_pos hdot]
      by_cases hnil : s1 = []
      · subst hnil
        rw [if_pos rfl, hdot]
        exact ⟨⟨h.s2, h.s2_ne, h.s3, h.s4⟩, rfl⟩
      · rw [if_neg hnil, getLast?_cons_ne ch hnil]
        have hstart : Starts hostname s1 := ⟨pre ++ [ch], hs1, Or.inr (by rw [List.getLast?_concat, hdot])⟩
        refine ih ⟨hstart, hnil, fun t ht => ?_, h.s3⟩ hc hs1
        rw [← Option.some.inj ht]
        exact ⟨h.s2, h.s2_ne⟩
    · rw [if_neg hdot]
      by_cases hnil : s1 = []
      · subst hnil
        have hlast : ¬[ch].getLast? = some 0x2e := fun h => hdot (Option.some.inj h)
        rw [if_neg hlast]
        exact ⟨h, hc⟩
      · rw [getLast?_cons_ne ch hnil]
        exact ih h hc hs1

end Domains

/-! ## The copy -/

section Copy

variable {hostname s4 t pre old : List UInt8} {rsize : ℤ} {c : UInt8}

theorem int_of_range (h0 : -2 ^ 31 ≤ rsize) (h1 : rsize < 2 ^ 31) : int rsize = some rsize := if_pos ⟨h0, h1⟩

theorem copyRealm_cons (n : ℕ) (c : UInt8) (s4 : List UInt8) : copyRealm n (c :: s4) =
    if n - 1 = 0 then none
    else (copyRealm (n - 1) s4).map fun realm => if c = 0x2e ∧ s4 = [] then realm else upper c :: realm := rfl

theorem copyRealm_eq {n : ℕ} (h : copyRealm n s4 = some t) : t = (dropDot s4).map upper := by
  induction s4 generalizing n t with
  | nil => exact (Option.some.inj h).symm
  | cons c s4 ih =>
    rw [copyRealm_cons] at h
    obtain ⟨-, h⟩ := Option.ite_none_left_eq_some.1 h
    obtain ⟨realm, hrealm, rfl⟩ := Option.map_eq_some_iff.1 h
    rw [ih hrealm]
    by_cases hnil : s4 = []
    · subst hnil
      by_cases hdot : c = 0x2e
      · rw [if_pos ⟨hdot, rfl⟩, hdot]
        rfl
      · have hlast : ¬[c].getLast? = some 0x2e := fun h => hdot (Option.some.inj h)
        rw [if_neg fun h => hdot h.1, dropDot, dropDot, if_neg hlast]
        rfl
    · rw [if_neg fun h => hnil h.2, dropDot_cons c hnil, List.map_cons]

/-- **The loop stays in the buffer** if its bound is at most one more than the cells from `s3` on, and no more than
these without a dot at the end; it stores the string that `copyRealm` finds, or fails. -/
theorem copyStores_spec (hne : s4 ≠ []) (hlo : -2 ^ 31 ≤ rsize - 1) (hhi : rsize - 1 < 2 ^ 31)
    (hroom : rsize ≤ old.length + if s4.getLast? = some 0x2e then 1 else 0) (pre : List UInt8) (s2 : Option ℕ) :
    (copyRealm rsize.toNat s4 = none → ∃ realm, copyStores (pre ++ old) rsize s2 pre.length s4 = some (1, realm)) ∧
      ∀ t, copyRealm rsize.toNat s4 = some t →
        ∃ rest, copyStores (pre ++ old) rsize s2 pre.length s4 = some (0, pre ++ t ++ 0 :: rest) := by
  induction s4 generalizing pre old rsize s2 with
  | nil => exact absurd rfl hne
  | cons c s4 ih =>
    rw [copyStores, int_of_range hlo hhi, copyRealm_cons]
    simp only [Option.bind_eq_bind, Option.bind_some]
    by_cases hsmall : rsize - 1 ≤ 0
    · rw [if_pos hsmall, if_pos (by omega)]
      exact ⟨fun _ => ⟨_, rfl⟩, fun t ht => by cases ht⟩
    rw [if_neg hsmall, if_neg (by omega), show rsize.toNat - 1 = (rsize - 1).toNat by omega]
    obtain ⟨b, old, rfl⟩ : ∃ b old', old = b :: old' := by
      refine List.exists_cons_of_ne_nil fun hnil => ?_
      rw [hnil, List.length_nil] at hroom
      split_ifs at hroom <;> omega
    rw [store_append rfl, Option.bind_some]
    rw [List.length_cons] at hroom
    by_cases hnil : s4 = []
    · subst hnil
      refine ⟨fun h => by simp [copyRealm] at h, fun t ht => ?_⟩
      rw [copyRealm, Option.map_some, Option.some_inj] at ht
      by_cases hdot : c = 0x2e
      · -- the NUL takes the place of the dot
        rw [if_pos ⟨hdot, rfl⟩] at ht
        rw [if_pos hdot, copyStores, Option.getD_some, store_append rfl, ← ht, List.append_nil]
        exact ⟨old, rfl⟩
      · have hlast : ¬[c].getLast? = some 0x2e := fun h => hdot (Option.some.inj h)
        rw [if_neg hlast] at hroom
        obtain ⟨b', old, rfl⟩ : ∃ b' old', old = b' :: old' := by
          refine List.exists_cons_of_ne_nil fun hnil => ?_
          rw [hnil, List.length_nil] at hroom
          omega
        rw [if_neg fun h => hdot h.1] at ht
        have hstore : store (pre ++ [upper c] ++ b' :: old) (pre.length + 1) 0 = some (pre ++ [upper c] ++ 0 :: old) :=
          store_append (by rw [List.length_append, List.length_singleton])
        rw [List.append_assoc, List.singleton_append] at hstore
        rw [if_neg hdot, copyStores, Option.getD_none, hstore, ← ht]
        exact ⟨old, rfl⟩
    · rw [getLast?_cons_ne c hnil] at hroom
      have hroom' : rsize - 1 ≤ old.length + if s4.getLast? = some 0x2e then 1 else 0 := by
        push_cast at hroom
        omega
      have hkeep : ∀ realm, (if c = 0x2e ∧ s4 = [] then realm else upper c :: realm) = upper c :: realm :=
        fun realm => if_neg fun h => hnil h.2
      have hstep := ih hnil (by omega) (by omega) hroom' (pre ++ [upper c]) (if c = 0x2e then some pre.length else none)
      rw [List.length_append, List.length_singleton, List.append_assoc, List.singleton_append] at hstep
      obtain ⟨hnone, hsome⟩ := hstep
      simp only [hkeep]
      refine ⟨fun h => hnone (Option.map_eq_none_iff.1 h), fun t ht => ?_⟩
      obtain ⟨realm, hrealm, rfl⟩ := Option.map_eq_some_iff.1 ht
      obtain ⟨rest, hrest⟩ := hsome realm hrealm
      exact ⟨rest, by rw [hrest]; simp⟩

end Copy

/-! ## The realm -/

section Right

variable {hostname t : List UInt8}

/-- the program fails, or copies a part of the host name with a bound that depends on whether a dot ends it -/
theorem kg_realmofhost_cases (hostname : List UInt8) :
    ((∀ n, GrexHash.kg_realmofhost hostname n = none) ∧
        ∀ realm rsize, kg_realmofhost hostname realm rsize = some (1, realm)) ∨
      ∃ s4, ∃ c : ℕ, (Starts hostname s4 ∧ s4 ≠ []) ∧ (c = if hostname.getLast? = some 0x2e then 1 else 0) ∧
        (∀ n, GrexHash.kg_realmofhost hostname n = copyRealm (n + c) s4) ∧
          ∀ realm rsize, kg_realmofhost hostname realm rsize =
            (int (rsize + c)).bind fun rsize => copyStores realm rsize none 0 s4 := by
  by_cases hnil : hostname = []
  · subst hnil
    exact Or.inl ⟨fun n => rfl, fun realm rsize => rfl⟩
  have hstart : Found hostname ⟨hostname, none, none, 0⟩ :=
    ⟨⟨[], rfl, Or.inl rfl⟩, hnil, fun t ht => absurd ht (Option.not_mem_none t),
      fun t ht => absurd ht (Option.not_mem_none t)⟩
  obtain ⟨hfound, hc⟩ := nextDot_spec hstart rfl (List.nil_append hostname).symm
  unfold kg_realmofhost GrexHash.kg_realmofhost
  generalize nextDot ⟨hostname, none, none, 0⟩ hostname = d at hfound hc ⊢
  dsimp only
  cases hs3 : d.s3 with
  | none => exact Or.inl ⟨fun n => rfl, fun realm rsize => rfl⟩
  | some s3 =>
    by_cases hfail : foreign d.s2 s3 d.c ∧ d.s4 = none
    · simp only [if_pos hfail]
      exact Or.inl ⟨fun n => trivial, fun realm rsize => trivial⟩
    · simp only [if_neg hfail]
      have hs3' := hfound.s3 s3 hs3
      refine Or.inr ⟨_, d.c, ?_, hc, fun n => rfl, fun realm rsize => rfl⟩
      split_ifs
      · cases hs4 : d.s4 with
        | none => exact hs3'
        | some s4 => exact hfound.s4 s4 hs4
      · exact hs3'

/-- **The string in the buffer** is the one that `GrexHash.kg_realmofhost` finds, if there is one. -/
theorem kg_realmofhost_refines (b : Buffer) (hcount : CountFits hostname b.rsize) :
    ∃ ret realm, kg_realmofhost hostname b.realm b.rsize = some (ret, realm) ∧
      match GrexHash.kg_realmofhost hostname b.rsize.toNat with
      | none => ret = 1
      | some t => ret = 0 ∧ ∃ rest, realm = t ++ 0 :: rest := by
  rcases kg_realmofhost_cases hostname with ⟨hnone, hfail⟩ | ⟨s4, c, ⟨hstart, hne⟩, hc, hfind, hcopy⟩
  · rw [hnone]
    exact ⟨1, b.realm, hfail _ _, rfl⟩
  have hlast : hostname.getLast? = s4.getLast? := by
    obtain ⟨pre, rfl, -⟩ := hstart
    exact List.getLast?_append_of_ne_nil pre hne
  have hisInt := b.isInt
  have hlen : b.rsize ≤ b.realm.length := by
    rw [b.length_eq]
    exact Int.self_le_toNat b.rsize
  have hrange : (-2 ^ 31 ≤ b.rsize + c ∧ b.rsize + c < 2 ^ 31) ∧ -2 ^ 31 ≤ b.rsize + c - 1 := by
    rw [CountFits] at hcount
    rw [hc]
    split_ifs at hcount ⊢ <;> push_cast <;> omega
  have hroom : b.rsize + c ≤ b.realm.length + if s4.getLast? = some 0x2e then 1 else 0 := by
    rw [hc, ← hlast]
    split_ifs <;> push_cast <;> omega
  obtain ⟨hnone, hsome⟩ := copyStores_spec hne hrange.2 (by omega) hroom [] none
  -- a negative bound is one that nothing fits in
  have hsame : copyRealm (b.rsize.toNat + c) s4 = copyRealm (b.rsize + c).toNat s4 := by
    by_cases h0 : 0 ≤ b.rsize
    · rw [show b.rsize.toNat + c = (b.rsize + c).toNat by omega]
    · have hc1 : c ≤ 1 := by
        rw [hc]
        split_ifs <;> omega
      obtain ⟨a, s4, rfl⟩ := List.exists_cons_of_ne_nil hne
      rw [copyRealm_cons, copyRealm_cons, if_pos (by omega), if_pos (by omega)]
  rw [hcopy, int_of_range hrange.1.1 hrange.1.2, hfind, hsame]
  cases hrealm : copyRealm (b.rsize + c).toNat s4 with
  | none =>
    obtain ⟨realm, h⟩ := hnone hrealm
    exact ⟨1, realm, h, rfl⟩
  | some t =>
    obtain ⟨rest, h⟩ := hsome t hrealm
    exact ⟨0, _, h, rfl, rest, rfl⟩

/-- **Which string it is**: a part of the host name without a dot at its end, in upper case. -/
theorem kg_realmofhost_suffix {n : ℕ} (h : GrexHash.kg_realmofhost hostname n = some t) :
    ∃ suffix, Starts (dropDot hostname) suffix ∧ t = suffix.map upper := by
  rcases kg_realmofhost_cases hostname with ⟨hnone, -⟩ | ⟨s4, c, ⟨hstart, hne⟩, -, hfind, -⟩
  · rw [hnone] at h
    cases h
  · rw [hfind] at h
    exact ⟨dropDot s4, starts_dropDot hstart hne, copyRealm_eq h⟩

/-- **All writes are in the buffer**, and it holds the realm when the program succeeds, if the bound stays an `int`. -/
theorem realm_right (hostname : List UInt8) (b : Buffer) (hcount : CountFits hostname b.rsize) :
    RealmRight hostname b := by
  obtain ⟨ret, realm, hrun, hfound⟩ := kg_realmofhost_refines b hcount
  refine ⟨ret, realm, hrun, fun hret => ?_⟩
  cases hrealm : GrexHash.kg_realmofhost hostname b.rsize.toNat with
  | none =>
    rw [hrealm, hret] at hfound
    cases hfound
  | some t =>
    rw [hrealm] at hfound
    obtain ⟨-, rest, hrest⟩ := hfound
    obtain ⟨suffix, hsuffix, rfl⟩ := kg_realmofhost_suffix hrealm
    exact ⟨suffix, rest, hsuffix, hrest⟩

/-- "a.bc." in a buffer of 5 bytes -/
def fiveCells : Buffer := ⟨[0, 0, 0, 0, 0], 5, by decide, rfl⟩

theorem realm_right_five : CountFits [0x61, 0x2e, 0x62, 0x63, 0x2e] fiveCells.rsize ∧
    RealmRight [0x61, 0x2e, 0x62, 0x63, 0x2e] fiveCells :=
  ⟨by decide, realm_right _ _ (by decide)⟩

def noCells : Buffer := ⟨[], -2 ^ 31, by decide, rfl⟩

/-- Its decrement is no `int`. -/
theorem smallest_int : ¬RealmRight [0x61, 0x2e, 0x62, 0x2e, 0x63] noCells := by
  have hrun : kg_realmofhost [0x61, 0x2e, 0x62, 0x2e, 0x63] noCells.realm noCells.rsize = none := by decide
  rintro ⟨ret, realm, h, -⟩
  rw [hrun] at h
  cases h

end Right

end MNetSoft.GrexHash.Realm
