/-
Tables with one entry for each key, in the order in which the keys came up. An item is looked up from the front: it
joins the entry of its key, or begins one behind the others. Entries, keys and items are parameters, and an entry may
fail to take an item.

- `enter_cases`: what one item does to a table.
- `holds_enter`: a table that holds some items holds one more after it is entered.
- `Holds.came_up`: what is in a table came up.
-/
import Mathlib.Tactic

namespace MNetSoft.Grouping

/-- how entries are made of items -/
structure Rule (ε κ ι : Type*) where
  key : ε → κ
  keyOf : ι → κ
  start : ι → ε
  join : ε → ι → Option ε
  key_start : ∀ i, key (start i) = keyOf i
  key_join : ∀ {e i e'}, join e i = some e' → key e' = key e

variable {ε κ ι : Type*} [DecidableEq κ] (R : Rule ε κ ι)

/-- an item joins the entry of its key, or begins one -/
def enter (R : Rule ε κ ι) : List ε → ι → Option (List ε)
  | [], i => some [R.start i]
  | e :: l, i => if R.key e = R.keyOf i then (R.join e i).map (· :: l) else (enter R l i).map (e :: ·)

/-- the entry of the items of one key -/
def entry (R : Rule ε κ ι) : List ι → Option ε
  | [] => none
  | i :: items => items.foldlM R.join (R.start i)

/-- the items of a key -/
def ofKey (R : Rule ε κ ι) (k : κ) (items : List ι) : List ι := items.filter fun i => R.keyOf i = k

/-- one entry for each key of the items, made of the items of this key -/
structure Holds (R : Rule ε κ ι) (l : List ε) (items : List ι) : Prop where
  nodup : (l.map R.key).Nodup
  made : ∀ e ∈ l, entry R (ofKey R (R.key e) items) = some e
  complete : ∀ i ∈ items, R.keyOf i ∈ l.map R.key

variable {R : Rule ε κ ι} {l l' : List ε} {i : ι} {items : List ι}

theorem enter_cases (h : enter R l i = some l') :
    (∃ pre e post e', l = pre ++ e :: post ∧ R.key e = R.keyOf i ∧ R.join e i = some e' ∧ l' = pre ++ e' :: post) ∨
      (R.keyOf i ∉ l.map R.key ∧ l' = l ++ [R.start i]) := by
  induction l generalizing l' with
  | nil =>
    cases h
    exact Or.inr ⟨List.not_mem_nil, rfl⟩
  | cons a l ih =>
    rw [enter] at h
    split_ifs at h with hkey
    · obtain ⟨e', he', rfl⟩ := Option.map_eq_some_iff.1 h
      exact Or.inl ⟨[], a, l, e', rfl, hkey, he', rfl⟩
    · obtain ⟨m, hm, rfl⟩ := Option.map_eq_some_iff.1 h
      obtain ⟨pre, e, post, e', rfl, hk, hj, rfl⟩ | ⟨hall, rfl⟩ := ih hm
      · exact Or.inl ⟨a :: pre, e, post, e', rfl, hk, hj, rfl⟩
      · refine Or.inr ⟨?_, rfl⟩
        rw [List.map_cons, List.mem_cons, not_or]
        exact ⟨Ne.symm hkey, hall⟩

omit [DecidableEq κ] in
theorem entry_concat (R : Rule ε κ ι) (hne : items ≠ []) (i : ι) :
    entry R (items ++ [i]) = (entry R items).bind (R.join · i) := by
  cases items with
  | nil => exact absurd rfl hne
  | cons a items => simp [entry, List.foldlM_append]

theorem ofKey_concat_self {k : κ} (hk : R.keyOf i = k) (items : List ι) :
    ofKey R k (items ++ [i]) = ofKey R k items ++ [i] := by
  simp [ofKey, List.filter_append, hk]

theorem ofKey_concat_ne {k : κ} (hk : R.keyOf i ≠ k) (items : List ι) : ofKey R k (items ++ [i]) = ofKey R k items := by
  simp [ofKey, List.filter_append, hk]

theorem Holds.nil (R : Rule ε κ ι) : Holds R [] [] := ⟨List.nodup_nil, List.forall_mem_nil _, List.forall_mem_nil _⟩

/-- **One more item.** -/
theorem holds_enter (h : Holds R l items) (henter : enter R l i = some l') : Holds R l' (items ++ [i]) := by
  obtain ⟨pre, e, post, e', rfl, hk, hj, rfl⟩ | ⟨hnew, rfl⟩ := enter_cases henter
  · have hke : R.key e' = R.keyOf i := (R.key_join hj).trans hk
    have hkeys : (pre ++ e' :: post).map R.key = (pre ++ e :: post).map R.key := by simp [hke, hk]
    have hnodup := h.nodup
    rw [← hkeys] at hnodup
    refine ⟨hnodup, fun x hx => ?_, fun j hj => ?_⟩
    · by_cases hxi : R.keyOf i = R.key x
      · have hxe : x = e' := List.inj_on_of_nodup_map hnodup hx (by simp) (hxi.symm.trans hke.symm)
        have he := h.made e (by simp)
        rw [hk, hxi] at he
        have hne : ofKey R (R.key x) items ≠ [] := by
          intro hnil
          rw [hnil] at he
          cases he
        rw [ofKey_concat_self hxi, entry_concat R hne, he, Option.bind_some, hj, hxe]
      · rw [ofKey_concat_ne hxi]
        refine h.made x ?_
        rw [List.mem_append, List.mem_cons] at hx ⊢
        exact hx.imp id fun hx => hx.imp (fun heq => absurd (heq ▸ hke.symm) hxi) id
    · rw [hkeys]
      rcases List.mem_append.1 hj with hj | hj
      · exact h.complete j hj
      · rw [List.mem_singleton.1 hj, ← hk]
        exact List.mem_map_of_mem (by simp)
  · have hnone : ofKey R (R.keyOf i) items = [] := by
      rw [ofKey, List.filter_eq_nil_iff]
      intro j hj hkey
      exact hnew (of_decide_eq_true hkey ▸ h.complete j hj)
    refine ⟨?_, fun x hx => ?_, fun j hj => ?_⟩
    · rw [List.map_append, List.map_singleton, R.key_start, List.nodup_append]
      refine ⟨h.nodup, List.nodup_singleton _, fun a ha b hb heq => hnew ?_⟩
      rwa [← List.mem_singleton.1 hb, ← heq]
    · rcases List.mem_append.1 hx with hx | hx
      · have hxi : R.keyOf i ≠ R.key x := fun heq => hnew (heq ▸ List.mem_map_of_mem hx)
        rw [ofKey_concat_ne hxi]
        exact h.made x hx
      · rw [List.mem_singleton.1 hx, R.key_start, ofKey_concat_self rfl, hnone]
        rfl
    · rw [List.map_append, List.mem_append]
      rcases List.mem_append.1 hj with hj | hj
      · exact Or.inl (h.complete j hj)
      · rw [List.mem_singleton.1 hj, List.map_singleton, R.key_start]
        exact Or.inr List.mem_cons_self

/-- what is in the table came up -/
theorem Holds.came_up (h : Holds R l items) {e : ε} (he : e ∈ l) : ∃ i ∈ items, R.keyOf i = R.key e := by
  have hmade := h.made e he
  cases hof : ofKey R (R.key e) items with
  | nil =>
    rw [hof] at hmade
    cases hmade
  | cons i rest =>
    obtain ⟨hi, hkey⟩ := List.mem_filter.1 (show i ∈ ofKey R (R.key e) items from hof ▸ List.mem_cons_self)
    exact ⟨i, hi, of_decide_eq_true hkey⟩

end MNetSoft.Grouping
