/-
Hash tables with linear probing and no deletion. A slot is read through `entry`, which gives the key and the value it
holds or nothing when it is vacant; `hash` gives the slot where the probing for a key begins.

- `probe`, `search`: the probing loop. `search` gives up after a full turn, and `search_eq_none` says that the loop
  would then go on for ever.
- `Chained`: every key is reached from its hash slot through occupied slots, and is held by one slot only.
- `Chained.search_spec`: in a chained table with a vacant slot the loop ends, at the key's slot or at a vacant one.
- `Contents`: a finite map; `Stores` relates a counted table to it.
- `Stores.search_spec`, `Stores.insert`: the slot found tells what the map has for the key, and filling it inserts into
  the map.
-/
import Mathlib.Tactic

namespace MNetSoft.Probing

variable {n : ℕ} {σ κ δ : Type*}

/-- the slot after `i`, and after the last one the first -/
def next (i : Fin n) : Fin n := if h : i + 1 < n then ⟨i + 1, h⟩ else ⟨0, i.pos⟩

/-- go from slot `i` to the first slot where `stop` holds; `none` when it is not among the next `fuel` slots -/
def probe (stop : σ → Bool) (t : Fin n → σ) : ℕ → Fin n → Option (Fin n)
  | 0, _ => none
  | fuel + 1, i => if stop (t i) then some i else probe stop t fuel (next i)

/-- the probing loop, given up after a full turn -/
def search (stop : σ → Bool) (t : Fin n → σ) (i : Fin n) : Option (Fin n) := probe stop t n i

/-- the slot `j` steps after `i` -/
def walk (i : Fin n) : ℕ → Fin n
  | 0 => i
  | j + 1 => walk (next i) j

variable {stop : σ → Bool} {t : Fin n → σ} {i r : Fin n}

/-! ## The loop -/

theorem next_val (i : Fin n) : (next i : ℕ) = (i + 1) % n := by
  have hi := i.isLt
  unfold next
  split_ifs with h
  · rw [Nat.mod_eq_of_lt h]
  · have : (i : ℕ) + 1 = n := by omega
    rw [this, Nat.mod_self]

theorem walk_val (i : Fin n) (j : ℕ) : (walk i j : ℕ) = (i + j) % n := by
  induction j generalizing i with
  | zero => exact (Nat.mod_eq_of_lt i.isLt).symm
  | succ j ih => rw [walk, ih, next_val, Nat.mod_add_mod, add_right_comm, add_assoc]

/-- a full turn comes past every slot -/
theorem exists_walk (i r : Fin n) : ∃ j < n, walk i j = r := by
  have hi := i.isLt
  have hr := r.isLt
  by_cases h : (i : ℕ) ≤ r
  · refine ⟨r - i, by omega, Fin.ext ?_⟩
    rw [walk_val, Nat.add_sub_cancel' h, Nat.mod_eq_of_lt hr]
  · refine ⟨n - i + r, by omega, Fin.ext ?_⟩
    have e : (i : ℕ) + (n - i + r) = r + n := by omega
    rw [walk_val, e, Nat.add_mod_right, Nat.mod_eq_of_lt hr]

theorem probe_eq_some {fuel : ℕ} : probe stop t fuel i = some r ↔
    ∃ j < fuel, walk i j = r ∧ stop (t r) = true ∧ ∀ j' < j, stop (t (walk i j')) = false := by
  induction fuel generalizing i with
  | zero => simp [probe]
  | succ fuel ih =>
    rw [probe]
    constructor
    · intro h
      split_ifs at h with hs
      · cases h
        exact ⟨0, by omega, rfl, hs, by simp⟩
      · obtain ⟨j, hj, hr, hstop, hbefore⟩ := ih.1 h
        refine ⟨j + 1, by omega, hr, hstop, fun j' hj' => ?_⟩
        cases j' with
        | zero => simpa [walk] using hs
        | succ j' => exact hbefore j' (by omega)
    · intro hx
      rcases hx with ⟨j, hj, rfl, hstop, hbefore⟩
      cases j with
      | zero => rw [if_pos (by simpa [walk] using hstop)]; rfl
      | succ j =>
        have h0 := hbefore 0 (by omega)
        rw [walk] at h0
        rw [if_neg (by simp [h0])]
        exact ih.2 ⟨j, by omega, rfl, hstop, fun j' hj' => hbefore (j' + 1) (by omega)⟩

theorem probe_eq_none {fuel : ℕ} : probe stop t fuel i = none ↔ ∀ j < fuel, stop (t (walk i j)) = false := by
  induction fuel generalizing i with
  | zero => simp [probe]
  | succ fuel ih =>
    rw [probe]
    constructor
    · intro h j hj
      split_ifs at h with hs
      cases j with
      | zero => simpa [walk] using hs
      | succ j => exact ih.1 h j (by omega)
    · intro h
      have h0 := h 0 (by omega)
      rw [walk] at h0
      rw [if_neg (by simp [h0])]
      exact ih.2 fun j hj => h (j + 1) (by omega)

theorem search_ne_none (h : ∃ r, stop (t r) = true) : search stop t i ≠ none := by
  obtain ⟨r, hr⟩ := h
  obtain ⟨j, hj, rfl⟩ := exists_walk i r
  intro hn
  rw [probe_eq_none.1 hn j hj] at hr
  cases hr

/-- a search that is given up would go on for ever -/
theorem search_eq_none : search stop t i = none ↔ ∀ fuel, probe stop t fuel i = none := by
  constructor
  · intro h fuel
    refine probe_eq_none.2 fun j _ => ?_
    by_contra hs
    exact search_ne_none ⟨_, by simpa using hs⟩ h
  · intro h
    exact h n

/-! ## Chained tables -/

variable (entry : σ → Option (κ × δ)) (hash : κ → Fin n)

/-- the probing for `k` stops at a vacant slot and at the slot that holds `k` -/
def stops [DecidableEq κ] (k : κ) (s : σ) : Bool :=
  match entry s with
  | none => true
  | some e => decide (e.1 = k)

/-- slot `r` is reached from the hash slot of `k` through occupied slots -/
def Reached (t : Fin n → σ) (k : κ) (r : Fin n) : Prop :=
  ∃ j, walk (hash k) j = r ∧ ∀ j' < j, (entry (t (walk (hash k) j'))).isSome

/-- every key can be found, and in one slot only -/
structure Chained (t : Fin n → σ) : Prop where
  reached : ∀ i k d, entry (t i) = some (k, d) → Reached entry hash t k i
  unique : ∀ i i' k d d', entry (t i) = some (k, d) → entry (t i') = some (k, d') → i = i'

/-- the occupied slots -/
def occupied (t : Fin n → σ) : Finset (Fin n) := Finset.univ.filter fun i => (entry (t i)).isSome

variable {entry hash} {k k' : κ} {d d' : δ} {s : σ}

theorem chained_of_vacant (h : ∀ i, entry (t i) = none) : Chained entry hash t := by
  constructor
  · intro i k d hi
    rw [h i] at hi
    cases hi
  · intro i i' k d d' hi
    rw [h i] at hi
    cases hi

theorem exists_vacant (h : (occupied entry t).card < n) : ∃ i, entry (t i) = none := by
  by_contra hall
  have huniv : occupied entry t = Finset.univ := by
    refine Finset.filter_true_of_mem fun i _ => ?_
    exact Option.ne_none_iff_isSome.1 fun hi => hall ⟨i, hi⟩
  rw [huniv, Finset.card_fin] at h
  exact lt_irrefl n h

theorem occupied_update (hs : (entry s).isSome) :
    occupied entry (Function.update t r s) = insert r (occupied entry t) := by
  ext i
  by_cases hi : i = r
  · subst hi
    simp [occupied, hs]
  · simp [occupied, hi]

/-- what a search in a chained table ends with -/
theorem Chained.search_spec [DecidableEq κ] (h : Chained entry hash t) (hv : ∃ i, entry (t i) = none) (k : κ) :
    ∃ r, search (stops entry k) t (hash k) = some r ∧ Reached entry hash t k r ∧
      ((∃ d, entry (t r) = some (k, d)) ∨ (entry (t r) = none ∧ ∀ i d, entry (t i) ≠ some (k, d))) := by
  obtain ⟨v, hv⟩ := hv
  have hne : search (stops entry k) t (hash k) ≠ none := search_ne_none ⟨v, by simp [stops, hv]⟩
  obtain ⟨r, hr⟩ := Option.ne_none_iff_exists'.1 hne
  obtain ⟨j, -, rfl, hstop, hbefore⟩ := probe_eq_some.1 hr
  refine ⟨_, hr, ⟨j, rfl, fun j' hj' => ?_⟩, ?_⟩
  · have := hbefore j' hj'
    cases he : entry (t (walk (hash k) j')) with
    | none => simp [stops, he] at this
    | some e => rfl
  · cases he : entry (t (walk (hash k) j)) with
    | some e =>
      left
      simp only [stops, he, decide_eq_true_eq] at hstop
      exact ⟨e.2, by rw [← hstop]⟩
    | none =>
      right
      refine ⟨rfl, fun i d hi => ?_⟩
      -- a slot that holds the key would lie at the vacant slot, before it, or beyond it
      obtain ⟨m, rfl, hocc⟩ := h.reached i k d hi
      rcases lt_trichotomy m j with hlt | rfl | hgt
      · have := hbefore m hlt
        simp [stops, hi] at this
      · rw [he] at hi
        cases hi
      · have := hocc j hgt
        simp [he] at this

/-- filling the slot found for a key keeps the table chained -/
theorem Chained.update (h : Chained entry hash t) (hs : entry s = some (k, d)) (hr : Reached entry hash t k r)
    (hfound : (∃ d, entry (t r) = some (k, d)) ∨ (entry (t r) = none ∧ ∀ i d, entry (t i) ≠ some (k, d))) :
    Chained entry hash (Function.update t r s) := by
  have hocc : ∀ i, (entry (t i)).isSome → (entry (Function.update t r s i)).isSome := by
    intro i hi
    by_cases e : i = r
    · subst e; simp [hs]
    · simpa [e] using hi
  have hat : ∀ i d', i ≠ r → entry (t i) ≠ some (k, d') := by
    intro i d' hi hk
    rcases hfound with ⟨d'', hd⟩ | ⟨-, hno⟩
    · exact hi (h.unique i r k d' d'' hk hd)
    · exact hno i d' hk
  constructor
  · intro i k' d' hi
    have hold : Reached entry hash t k' i := by
      by_cases e : i = r
      · subst e
        rw [Function.update_self, hs] at hi
        cases hi
        exact hr
      · rw [Function.update_of_ne e] at hi
        exact h.reached i k' d' hi
    obtain ⟨j, hj, hbefore⟩ := hold
    exact ⟨j, hj, fun j' hj' => hocc _ (hbefore j' hj')⟩
  · intro i i' k' d' d'' hi hi'
    by_cases e : i = r
    · by_cases e' : i' = r
      · rw [e, e']
      · rw [e, Function.update_self, hs] at hi
        rw [Function.update_of_ne e'] at hi'
        cases hi
        exact absurd hi' (hat i' d'' e')
    · rw [Function.update_of_ne e] at hi
      by_cases e' : i' = r
      · rw [e', Function.update_self, hs] at hi'
        cases hi'
        exact absurd hi (hat i d' e)
      · rw [Function.update_of_ne e'] at hi'
        exact h.unique i i' k' d' d'' hi hi'

/-! ## The map a table stores -/

/-- a finite map: its keys, and the value of each -/
structure Contents (κ δ : Type*) where
  keys : Finset κ
  value : κ → Option δ
  value_isSome : ∀ k, (value k).isSome ↔ k ∈ keys

/-- the map without keys -/
def Contents.empty : Contents κ δ := ⟨∅, fun _ => none, by simp⟩

/-- give `k` the value `d` -/
def Contents.insert [DecidableEq κ] (c : Contents κ δ) (k : κ) (d : δ) : Contents κ δ where
  keys := Insert.insert k c.keys
  value := Function.update c.value k (some d)
  value_isSome := by
    intro k'
    by_cases e : k' = k
    · subst e; simp
    · simp [e, c.value_isSome]

/-- an array of slots, with the number of those in use -/
structure Table (n : ℕ) (σ : Type*) where
  slots : Fin n → σ
  count : ℕ

variable (entry hash) in
/-- the table is chained, holds the entries of `c` and counts them -/
structure Stores (T : Table n σ) (c : Contents κ δ) : Prop where
  chained : Chained entry hash T.slots
  holds : ∀ k d, c.value k = some d ↔ ∃ i, entry (T.slots i) = some (k, d)
  occupied_card : (occupied entry T.slots).card = T.count
  count_eq : T.count = c.keys.card

variable {T : Table n σ} {c : Contents κ δ}

theorem stores_empty (h : ∀ i, entry (t i) = none) : Stores entry hash ⟨t, 0⟩ (Contents.empty : Contents κ δ) where
  chained := chained_of_vacant h
  holds := by simp [Contents.empty, h]
  occupied_card := by simp [occupied, h]
  count_eq := by simp [Contents.empty]

/-- the keys stored are those of the map -/
theorem Stores.mem_keys (h : Stores entry hash T c) : k ∈ c.keys ↔ ∃ i d, entry (T.slots i) = some (k, d) := by
  rw [← c.value_isSome, Option.isSome_iff_exists]
  constructor
  · intro hx
    rcases hx with ⟨d, hd⟩
    obtain ⟨i, hi⟩ := (h.holds k d).1 hd
    exact ⟨i, d, hi⟩
  · intro hx
    rcases hx with ⟨i, d, hi⟩
    exact ⟨d, (h.holds k d).2 ⟨i, hi⟩⟩

/-- with a slot left over every search ends, at a slot that tells what the map has for the key -/
theorem Stores.search_spec [DecidableEq κ] (h : Stores entry hash T c) (hn : T.count < n) (k : κ) :
    ∃ r, search (stops entry k) T.slots (hash k) = some r ∧ Reached entry hash T.slots k r ∧
      entry (T.slots r) = (c.value k).map fun d => (k, d) := by
  obtain ⟨r, hr, hreach, hfound⟩ := h.chained.search_spec (exists_vacant (h.occupied_card.trans_lt hn)) k
  refine ⟨r, hr, hreach, ?_⟩
  rcases hfound with ⟨d, hd⟩ | ⟨hvac, hno⟩
  · rw [(h.holds k d).2 ⟨r, hd⟩, hd, Option.map_some]
  · have : c.value k = none := by
      cases hv : c.value k with
      | none => rfl
      | some d =>
        obtain ⟨i, hi⟩ := (h.holds k d).1 hv
        exact absurd hi (hno i d)
    rw [this, hvac, Option.map_none]

/-- what filling the slot found for a key does; the count goes up when the slot was vacant -/
theorem Stores.insert [DecidableEq κ] (h : Stores entry hash T c) (hreach : Reached entry hash T.slots k r)
    (hr : entry (T.slots r) = (c.value k).map fun d => (k, d)) (hs : entry s = some (k, d)) :
    Stores entry hash
      ⟨Function.update T.slots r s, T.count + if (entry (T.slots r)).isSome then 0 else 1⟩ (c.insert k d) := by
  have hfound : (∃ d, entry (T.slots r) = some (k, d)) ∨
      (entry (T.slots r) = none ∧ ∀ i d, entry (T.slots i) ≠ some (k, d)) := by
    cases hv : c.value k with
    | some d' => exact Or.inl ⟨d', by rw [hr, hv, Option.map_some]⟩
    | none =>
      refine Or.inr ⟨by rw [hr, hv, Option.map_none], fun i d' hi => ?_⟩
      have := (h.holds k d').2 ⟨i, hi⟩
      rw [hv] at this
      cases this
  have hmem : (entry (T.slots r)).isSome ↔ k ∈ c.keys := by
    rw [hr, Option.isSome_map, c.value_isSome]
  constructor
  · exact h.chained.update hs hreach hfound
  · intro k' d'
    by_cases e : k' = k
    · subst e
      simp only [Contents.insert, Function.update_self, Option.some.injEq]
      constructor
      · rintro rfl
        exact ⟨r, by rw [Function.update_self, hs]⟩
      · intro hx
        rcases hx with ⟨i, hi⟩
        by_cases ei : i = r
        · rw [ei, Function.update_self, hs] at hi
          simpa using hi
        · rw [Function.update_of_ne ei] at hi
          rcases hfound with ⟨d'', hd⟩ | ⟨-, hno⟩
          · exact absurd (h.chained.unique i r _ d' d'' hi hd) ei
          · exact absurd hi (hno i d')
    · simp only [Contents.insert, Function.update_of_ne e, h.holds]
      constructor
      · intro hx
        rcases hx with ⟨i, hi⟩
        have ei : i ≠ r := by
          rintro rfl
          rw [hi] at hr
          cases hv : c.value k with
          | none => simp [hv] at hr
          | some d'' =>
            simp only [hv, Option.map_some, Option.some.injEq, Prod.mk.injEq] at hr
            exact e hr.1
        exact ⟨i, by rw [Function.update_of_ne ei, hi]⟩
      · intro hx
        rcases hx with ⟨i, hi⟩
        by_cases ei : i = r
        · rw [ei, Function.update_self, hs] at hi
          simp only [Option.some.injEq, Prod.mk.injEq] at hi
          exact absurd hi.1.symm e
        · exact ⟨i, by rwa [Function.update_of_ne ei] at hi⟩
  · rw [occupied_update (by simp [hs])]
    split_ifs with ho
    · rw [Finset.insert_eq_of_mem (by simpa [occupied] using ho), h.occupied_card, add_zero]
    · rw [Finset.card_insert_of_notMem (by simpa [occupied] using ho), h.occupied_card]
  · simp only [Contents.insert]
    split_ifs with ho
    · rw [Finset.insert_eq_of_mem (hmem.1 ho), h.count_eq, add_zero]
    · rw [Finset.card_insert_of_notMem (fun hk => ho (hmem.2 hk)), h.count_eq]

end MNetSoft.Probing
