/-
Lists of entries kept in increasing order of a key, and the walks over them that give up at the first entry with a
greater key. Entries, keys and their order are parameters.

- `find`, `modify`, `alter`: look an entry up, change it, change it or put it in.
- `find_eq_find?`: in an increasing list giving up early misses nothing.
- `increasing_modify`, `increasing_alter`: the order is kept.
- `find_alter_self`, `find_alter_ne` and their like: what a walk for one key does to a look-up of this and of another.
-/
import Mathlib.Tactic

namespace MNetSoft.SortedTable

variable {ε κ : Type*} [LinearOrder κ] (key : ε → κ)

/-- the keys increase from entry to entry -/
def Increasing (l : List ε) : Prop := l.Pairwise fun a b => key a < key b

instance (l : List ε) : Decidable (Increasing key l) := inferInstanceAs (Decidable (List.Pairwise _ l))

/-- the entry with key `k`, if the walk comes to it before it gives up -/
def find (k : κ) : List ε → Option ε
  | [] => none
  | e :: l => if k < key e then none else if key e = k then some e else find k l

/-- change the entry with key `k` by `f` -/
def modify (k : κ) (f : ε → ε) : List ε → List ε
  | [] => []
  | e :: l => if k < key e then e :: l else if key e = k then f e :: l else e :: modify k f l

/-- change the entry with key `k` by `f`, or put `new` in where the walk ends without it -/
def alter (k : κ) (f : ε → ε) (new : ε) : List ε → List ε
  | [] => [new]
  | e :: l => if k < key e then new :: e :: l else if key e = k then f e :: l else e :: alter k f new l

variable {key} {k j : κ} {f : ε → ε} {new : ε}

/-! ## The entries -/

/-- what holds of the new entry, of the old ones and of the changed ones -/
theorem forall_mem_alter {P : ε → Prop} (hnew : P new) (hf : ∀ e, P e → P (f e)) {l : List ε} (h : ∀ e ∈ l, P e) :
    ∀ e ∈ alter key k f new l, P e := by
  induction l with
  | nil => exact List.forall_mem_singleton.2 hnew
  | cons a l ih =>
    obtain ⟨ha, hl⟩ := List.forall_mem_cons.1 h
    rw [alter]
    split_ifs
    · exact List.forall_mem_cons.2 ⟨hnew, h⟩
    · exact List.forall_mem_cons.2 ⟨hf a ha, hl⟩
    · exact List.forall_mem_cons.2 ⟨ha, ih hl⟩

theorem forall_mem_modify {P : ε → Prop} (hf : ∀ e, P e → P (f e)) {l : List ε} (h : ∀ e ∈ l, P e) :
    ∀ e ∈ modify key k f l, P e := by
  induction l with
  | nil => exact h
  | cons a l ih =>
    obtain ⟨ha, hl⟩ := List.forall_mem_cons.1 h
    rw [modify]
    split_ifs
    · exact h
    · exact List.forall_mem_cons.2 ⟨hf a ha, hl⟩
    · exact List.forall_mem_cons.2 ⟨ha, ih hl⟩

/-! ## The order -/

theorem increasing_cons {e : ε} {l : List ε} :
    Increasing key (e :: l) ↔ (∀ a ∈ l, key e < key a) ∧ Increasing key l := List.pairwise_cons

theorem increasing_iff_map (l : List ε) : Increasing key l ↔ (l.map key).Pairwise (· < ·) := List.pairwise_map.symm

/-- lists with the same keys are in order together -/
theorem increasing_congr {l m : List ε} (h : l.map key = m.map key) : Increasing key l ↔ Increasing key m := by
  rw [increasing_iff_map, increasing_iff_map, h]

theorem map_key_modify (hf : ∀ e, key (f e) = key e) (l : List ε) : (modify key k f l).map key = l.map key := by
  induction l with
  | nil => rfl
  | cons e l ih =>
    rw [modify]
    split_ifs
    · rfl
    · rw [List.map_cons, List.map_cons, hf]
    · rw [List.map_cons, List.map_cons, ih]

theorem increasing_modify (hf : ∀ e, key (f e) = key e) {l : List ε} (h : Increasing key l) :
    Increasing key (modify key k f l) := (increasing_congr (map_key_modify hf l)).2 h

/-- the keys after `alter` are those before it and `k` -/
theorem key_of_mem_alter (hf : ∀ e, key (f e) = key e) (hnew : key new = k) {l : List ε} {a : ε}
    (ha : a ∈ alter key k f new l) : key a = k ∨ ∃ b ∈ l, key b = key a := by
  induction l with
  | nil => exact Or.inl (List.mem_singleton.1 ha ▸ hnew)
  | cons e l ih =>
    rw [alter] at ha
    split_ifs at ha with h1 h2
    · rcases List.mem_cons.1 ha with rfl | ha
      · exact Or.inl hnew
      · exact Or.inr ⟨a, ha, rfl⟩
    · rcases List.mem_cons.1 ha with rfl | ha
      · exact Or.inl ((hf e).trans h2)
      · exact Or.inr ⟨a, List.mem_cons_of_mem e ha, rfl⟩
    · rcases List.mem_cons.1 ha with rfl | ha
      · exact Or.inr ⟨a, List.mem_cons_self, rfl⟩
      · rcases ih ha with h | ⟨b, hb, hab⟩
        · exact Or.inl h
        · exact Or.inr ⟨b, List.mem_cons_of_mem e hb, hab⟩

theorem increasing_alter (hf : ∀ e, key (f e) = key e) (hnew : key new = k) {l : List ε} (h : Increasing key l) :
    Increasing key (alter key k f new l) := by
  induction l with
  | nil => exact List.pairwise_singleton _ _
  | cons e l ih =>
    obtain ⟨hhead, htail⟩ := increasing_cons.1 h
    rw [alter]
    split_ifs with h1 h2
    · refine increasing_cons.2 ⟨fun a ha => ?_, h⟩
      rw [hnew]
      rcases List.mem_cons.1 ha with rfl | ha
      · exact h1
      · exact h1.trans (hhead a ha)
    · refine increasing_cons.2 ⟨fun a ha => ?_, htail⟩
      rw [hf]
      exact hhead a ha
    · refine increasing_cons.2 ⟨fun a ha => ?_, ih htail⟩
      rcases key_of_mem_alter hf hnew ha with hk | ⟨b, hb, hba⟩
      · rw [hk]
        exact lt_of_le_of_ne (not_lt.1 h1) h2
      · rw [← hba]
        exact hhead b hb

/-! ## Looking up -/

/-- a look-up sees of the entries what determines the key -/
theorem map_find {β : Type*} {g : ε → β} {key' : β → κ} (hg : ∀ e, key' (g e) = key e) (l : List ε) :
    (find key k l).map g = find key' k (l.map g) := by
  induction l with
  | nil => rfl
  | cons e l ih =>
    simp only [find, List.map_cons, hg]
    split_ifs
    · rfl
    · rfl
    · exact ih

/-- **Giving up early misses nothing.** -/
theorem find_eq_find? {l : List ε} (h : Increasing key l) : find key k l = l.find? (fun e => key e = k) := by
  induction l with
  | nil => rfl
  | cons e l ih =>
    obtain ⟨hhead, htail⟩ := increasing_cons.1 h
    rw [find]
    split_ifs with h1 h2
    · have hnone : ∀ a ∈ e :: l, ¬ key a = k := by
        intro a ha hk
        rcases List.mem_cons.1 ha with rfl | ha
        · exact h1.ne' hk
        · exact (h1.trans (hhead a ha)).ne' hk
      exact (List.find?_eq_none.2 fun a ha => by simpa using hnone a ha).symm
    · rw [List.find?_cons_of_pos (by simpa using h2)]
    · rw [ih htail, List.find?_cons_of_neg (by simpa using h2)]

/-- what is found is an entry with the key -/
theorem mem_of_find {l : List ε} {e : ε} (h : find key k l = some e) : e ∈ l ∧ key e = k := by
  induction l with
  | nil => cases h
  | cons a l ih =>
    rw [find] at h
    split_ifs at h with h1 h2
    · cases h
      exact ⟨List.mem_cons_self, h2⟩
    · obtain ⟨hmem, hkey⟩ := ih h
      exact ⟨List.mem_cons_of_mem _ hmem, hkey⟩

/-- in an increasing list every key is found -/
theorem exists_find {l : List ε} (h : Increasing key l) (hk : k ∈ l.map key) : ∃ e, find key k l = some e := by
  obtain ⟨e, he, rfl⟩ := List.mem_map.1 hk
  rw [find_eq_find? h]
  exact Option.isSome_iff_exists.1 (List.find?_isSome.2 ⟨e, he, by simp⟩)

theorem find_modify_self (hf : ∀ e, key (f e) = key e) (l : List ε) :
    find key k (modify key k f l) = (find key k l).map f := by
  induction l with
  | nil => rfl
  | cons e l ih =>
    simp only [modify, find]
    split_ifs with h1 h2
    · simp only [find, if_pos h1, Option.map_none]
    · simp only [find, hf, if_neg h1, if_pos h2, Option.map_some]
    · simp only [find, if_neg h1, if_neg h2, ih]

theorem find_modify_ne (hf : ∀ e, key (f e) = key e) (hjk : j ≠ k) (l : List ε) :
    find key j (modify key k f l) = find key j l := by
  induction l with
  | nil => rfl
  | cons e l ih =>
    simp only [modify]
    split_ifs with h1 h2
    · rfl
    · have hj : ¬ key e = j := fun h => hjk (h.symm.trans h2)
      simp only [find, hf, if_neg hj]
    · simp only [find, ih]

theorem find_alter_self (hf : ∀ e, key (f e) = key e) (hnew : key new = k) (l : List ε) :
    find key k (alter key k f new l) = some ((find key k l).elim new f) := by
  have hput : ∀ m, find key k (new :: m) = some new := fun m => by
    rw [find, if_neg (not_lt.2 hnew.le), if_pos hnew]
  induction l with
  | nil => exact hput []
  | cons e l ih =>
    simp only [alter, find]
    split_ifs with h1 h2
    · exact hput (e :: l)
    · simp only [find, hf, if_neg h1, if_pos h2, Option.elim_some]
    · simp only [find, if_neg h1, if_neg h2, ih]

theorem find_alter_ne (hf : ∀ e, key (f e) = key e) (hnew : key new = k) (hjk : j ≠ k) (l : List ε) :
    find key j (alter key k f new l) = find key j l := by
  have hj : ¬ key new = j := fun h => hjk (h.symm.trans hnew)
  induction l with
  | nil => simp only [alter, find, if_neg hj, ite_self]
  | cons e l ih =>
    simp only [alter]
    split_ifs with h1 h2
    · -- `j` is looked for in front of `new`, where the old list gives up too, or behind it
      rw [find, if_neg hj]
      split_ifs with h3
      · rw [find, if_pos (h3.trans (hnew.trans_lt h1))]
      · rfl
    · have hj : ¬ key e = j := fun h => hjk (h.symm.trans h2)
      simp only [find, hf, if_neg hj]
    · simp only [find, ih]

/-- an entry that is put in where there is none with its key -/
theorem find_put_self (hnew : key new = k) (l : List ε) :
    find key k (alter key k id new l) = some ((find key k l).getD new) := by
  have hkeep : ∀ e, key (id e) = key e := fun _ => rfl
  rw [find_alter_self hkeep hnew]
  cases find key k l <;> rfl

theorem find_put_ne (hnew : key new = k) (hjk : j ≠ k) (l : List ε) :
    find key j (alter key k id new l) = find key j l := by
  have hkeep : ∀ e, key (id e) = key e := fun _ => rfl
  exact find_alter_ne hkeep hnew hjk l

end MNetSoft.SortedTable
