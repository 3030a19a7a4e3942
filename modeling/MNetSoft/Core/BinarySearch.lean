/-
Binary search. First with an inclusive range, as C code writes it: `lo` and `hi` are integers, the loop runs while
`lo <= hi`, and the comparison of the key with the entry in the middle answers with a sign. The table is what the
comparison reads; `fuel` bounds the number of rounds, and the length of the range is always enough.

- `ends_search`: the loop ends, and `search` says how.
- `search_some`: whatever the table, an index that is found compares equal.
- `search_isSome_iff`: in a table sorted in the order the comparison decides, the key is found exactly when it is there.

Then with a range `i..j` without its end, which asks for the first index with a property (Go's `sort.Search`).
- `first_spec`: the property fails up to the answer and holds from there on, if it is one that stays.
-/
import Mathlib.Tactic

namespace MNetSoft.BinarySearch

/-! ## The search -/

/-- search `lo..hi` for an index at which the comparison answers 0 -/
def search (cmp : ℕ → ℤ) : ℕ → ℤ → ℤ → Option ℕ
  | 0, _, _ => none
  | fuel + 1, lo, hi =>
    if lo ≤ hi then
      let i := (lo + hi) / 2
      let c := cmp i.toNat
      if c = 0 then some i.toNat
      else if c < 0 then search cmp fuel lo (i - 1)
      else search cmp fuel (i + 1) hi
    else none

/-- how the loop ends from `lo..hi` on: with an index, or with -1 -/
inductive Ends (cmp : ℕ → ℤ) : ℤ → ℤ → Option ℕ → Prop
  | done {lo hi : ℤ} : hi < lo → Ends cmp lo hi none
  | found {lo hi : ℤ} : lo ≤ hi → cmp ((lo + hi) / 2).toNat = 0 → Ends cmp lo hi (some ((lo + hi) / 2).toNat)
  | left {lo hi : ℤ} {r : Option ℕ} : lo ≤ hi → cmp ((lo + hi) / 2).toNat < 0 →
      Ends cmp lo ((lo + hi) / 2 - 1) r → Ends cmp lo hi r
  | right {lo hi : ℤ} {r : Option ℕ} : lo ≤ hi → 0 < cmp ((lo + hi) / 2).toNat →
      Ends cmp ((lo + hi) / 2 + 1) hi r → Ends cmp lo hi r

def searchTable (cmp : ℕ → ℤ) (n : ℕ) : Option ℕ := search cmp n 0 (n - 1)

/-- **The loop ends**, whatever the table: the range gets shorter in every round. -/
theorem ends_search {cmp : ℕ → ℤ} {fuel : ℕ} {lo hi : ℤ} (hfuel : hi - lo < fuel) :
    Ends cmp lo hi (search cmp fuel lo hi) := by
  induction fuel generalizing lo hi with
  | zero => exact Ends.done (by omega)
  | succ fuel ih =>
    simp only [search]
    split_ifs with hle h0 hneg
    · exact Ends.found hle h0
    · exact Ends.left hle hneg (ih (by omega))
    · exact Ends.right hle (by omega) (ih (by omega))
    · exact Ends.done (not_le.1 hle)

theorem ends_searchTable (cmp : ℕ → ℤ) (n : ℕ) : Ends cmp 0 (n - 1) (searchTable cmp n) := ends_search (by omega)

theorem Ends.unique {cmp : ℕ → ℤ} {lo hi : ℤ} {r r' : Option ℕ} (h : Ends cmp lo hi r) (h' : Ends cmp lo hi r') :
    r = r' := by
  induction h with
  | done hlt =>
    cases h' with
    | done => rfl
    | found hle => omega
    | left hle => omega
    | right hle => omega
  | found hle h0 =>
    cases h' with
    | done hlt => omega
    | found => rfl
    | left _ hneg => omega
    | right _ hpos => omega
  | left hle hneg _ ih =>
    cases h' with
    | done hlt => omega
    | found _ h0 => omega
    | left _ _ hrest => exact ih hrest
    | right _ hpos => omega
  | right hle hpos _ ih =>
    cases h' with
    | done hlt => omega
    | found _ h0 => omega
    | left _ hneg => omega
    | right _ _ hrest => exact ih hrest

theorem search_some {cmp : ℕ → ℤ} {fuel i : ℕ} {lo hi : ℤ} (hlo : 0 ≤ lo) (h : search cmp fuel lo hi = some i) :
    cmp i = 0 ∧ lo ≤ i ∧ i ≤ hi := by
  induction fuel generalizing lo hi with
  | zero => cases h
  | succ fuel ih =>
    simp only [search] at h
    split_ifs at h with hle h0 hneg
    · cases h
      exact ⟨h0, by omega, by omega⟩
    · obtain ⟨hc, h1, h2⟩ := ih hlo h
      exact ⟨hc, h1, by omega⟩
    · obtain ⟨hc, h1, h2⟩ := ih (by omega) h
      exact ⟨hc, by omega, h2⟩

/-- an index that compares equal is not lost, if what lies on the wrong side of an entry never compares equal -/
theorem search_isSome {cmp : ℕ → ℤ} {fuel k : ℕ} {lo hi : ℤ} (hlo : 0 ≤ lo) (hk : cmp k = 0) (hlk : lo ≤ k)
    (hkh : k ≤ hi) (hneg : ∀ i j : ℕ, i ≤ j → j ≤ hi → cmp i < 0 → cmp j ≠ 0)
    (hpos : ∀ i j : ℕ, i ≤ j → j ≤ hi → 0 < cmp j → cmp i ≠ 0) (hfuel : hi - lo < fuel) :
    (search cmp fuel lo hi).isSome := by
  induction fuel generalizing lo hi with
  | zero => omega
  | succ fuel ih =>
    have hle : lo ≤ hi := hlk.trans hkh
    simp only [search, if_pos hle]
    have hmid : ((lo + hi) / 2).toNat = (lo + hi) / 2 := Int.toNat_of_nonneg (by omega)
    split_ifs with h0 hlt
    · rfl
    · have hki : k < ((lo + hi) / 2).toNat := by
        by_contra hge
        exact hneg _ k (not_lt.1 hge) hkh hlt hk
      exact ih hlo hlk (by omega) (fun i j hij hj => hneg i j hij (by omega))
        (fun i j hij hj => hpos i j hij (by omega)) (by omega)
    · have hki : ((lo + hi) / 2).toNat < k := by
        by_contra hge
        exact hpos k _ (not_lt.1 hge) (by omega) (by omega) hk
      exact ih (by omega) (by omega) hkh hneg hpos (by omega)

/-! ## The first index with a property -/

/-- search `i..j` for the first index with the property -/
def first (p : ℕ → Bool) : ℕ → ℕ → ℕ → ℕ
  | 0, i, _ => i
  | fuel + 1, i, j =>
    if i < j then
      let h := (i + j) / 2
      if p h then first p fuel i h else first p fuel (h + 1) j
    else i

def Search (n : ℕ) (p : ℕ → Bool) : ℕ := first p n 0 n

/-- what is known in every round: the property fails below `i` and holds from `j` on -/
theorem first_inv {p : ℕ → Bool} {n fuel i j : ℕ} (hstay : ∀ a b, a ≤ b → b < n → p a → p b) (hle : i ≤ j) (hj : j ≤ n)
    (hlo : ∀ a < i, ¬p a) (hhi : ∀ a, j ≤ a → a < n → p a) (hfuel : j - i ≤ fuel) :
    first p fuel i j ≤ n ∧ (∀ a < first p fuel i j, ¬p a) ∧ ∀ a, first p fuel i j ≤ a → a < n → p a := by
  induction fuel generalizing i j with
  | zero =>
    obtain rfl : i = j := by omega
    exact ⟨hj, hlo, hhi⟩
  | succ fuel ih =>
    simp only [first]
    split_ifs with hlt hp
    · refine ih (by omega) (by omega) hlo (fun a ha han => hstay _ a ha han hp) (by omega)
    · refine ih (by omega) hj (fun a ha hpa => hp (hstay a _ (by omega) (by omega) hpa)) hhi (by omega)
    · obtain rfl : i = j := by omega
      exact ⟨hj, hlo, hhi⟩

/-- **The first index with the property**, if an index has it with every smaller one that has it. -/
theorem first_spec {p : ℕ → Bool} {n : ℕ} (hstay : ∀ a b, a ≤ b → b < n → p a → p b) :
    Search n p ≤ n ∧ (∀ a < Search n p, ¬p a) ∧ ∀ a, Search n p ≤ a → a < n → p a :=
  first_inv hstay n.zero_le le_rfl (fun _ ha => absurd ha (Nat.not_lt_zero _)) (fun a ha han => by omega) (by omega)

/-! ## Sorted tables -/

variable {α : Type*} [LinearOrder α]

/-- **Binary search in a sorted table** finds the key exactly when it is there. -/
theorem search_isSome_iff {xs : List α} (hs : xs.Pairwise (· ≤ ·)) (key : α) {cmp : ℕ → ℤ}
    (hneg : ∀ (i : ℕ) (x : α), xs[i]? = some x → (cmp i < 0 ↔ key < x))
    (hzero : ∀ (i : ℕ) (x : α), xs[i]? = some x → (cmp i = 0 ↔ key = x)) :
    (searchTable cmp xs.length).isSome ↔ key ∈ xs := by
  have hget : ∀ i < xs.length, ∃ x, xs[i]? = some x := fun i hi => ⟨xs[i], List.getElem?_eq_getElem hi⟩
  have hmono : ∀ {i j : ℕ} {x y : α}, i ≤ j → xs[i]? = some x → xs[j]? = some y → x ≤ y := by
    intro i j x y hij hx hy
    obtain ⟨hi, rfl⟩ := List.getElem?_eq_some_iff.1 hx
    obtain ⟨hj, rfl⟩ := List.getElem?_eq_some_iff.1 hy
    rcases hij.eq_or_lt with rfl | hlt
    · exact le_rfl
    · exact List.pairwise_iff_getElem.1 hs i j hi hj hlt
  refine ⟨?_, ?_⟩
  · intro h
    obtain ⟨i, hi⟩ := Option.isSome_iff_exists.1 h
    obtain ⟨hc, -, hle⟩ := search_some le_rfl hi
    obtain ⟨x, hx⟩ := hget i (by omega)
    rw [(hzero i x hx).1 hc]
    exact List.mem_of_getElem? hx
  · intro h
    obtain ⟨k, hk⟩ := List.mem_iff_getElem?.1 h
    obtain ⟨hlt, -⟩ := List.getElem?_eq_some_iff.1 hk
    refine search_isSome le_rfl ((hzero k key hk).2 rfl) (Int.natCast_nonneg k) (by omega) ?_ ?_ (by omega)
    · intro i j hij hj hci hcj
      obtain ⟨x, hx⟩ := hget i (by omega)
      obtain ⟨y, hy⟩ := hget j (by omega)
      have hkx := (hneg i x hx).1 hci
      rw [(hzero j y hy).1 hcj] at hkx
      exact absurd (hmono hij hx hy) (not_le.2 hkx)
    · intro i j hij hj hcj hci
      obtain ⟨x, hx⟩ := hget i (by omega)
      obtain ⟨y, hy⟩ := hget j (by omega)
      have hkx := (hzero i x hx).1 hci
      have hyk : y < key := by
        refine lt_of_le_of_ne (not_lt.1 fun h => ?_) fun h => ?_
        · exact absurd ((hneg j y hy).2 h) (not_lt.2 hcj.le)
        · exact absurd ((hzero j y hy).2 h.symm) hcj.ne'
      rw [hkx] at hyk
      exact absurd (hmono hij hx hy) (not_le.2 hyk)

end MNetSoft.BinarySearch
