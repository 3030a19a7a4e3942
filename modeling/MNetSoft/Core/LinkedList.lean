/-
Linked lists in a heap of records, for any type of records and any way the records are linked: a relation `R v b r c`
says that the record `r` stands for the value `v`, comes after the node `b` and before the node `c`. A list whose
records only point forward and one whose records point both ways are instances.

- `Links`: the nodes of a list, in order, stand for their values and are linked to their neighbours.
- `links_append`: a list is linked if and only if its two parts are, each up to the first or last node of the other.
- `Links.store_last`, `Links.store_first`: the effect of relinking the last or the first node of a list.
- `Links.unique`: a heap holds at most one list from a given address that ends.
-/
import Mathlib.Tactic

namespace MNetSoft.LinkedList

abbrev Addr := ℕ

/-- the records that are allocated -/
abbrev Heap (ρ : Type*) := Addr → Option ρ

variable {ρ α : Type*}

/-- write a record -/
def store (a : Addr) (r : ρ) (h : Heap ρ) : Heap ρ := Function.update h a (some r)

/-- give a record back -/
def free (a : Addr) (h : Heap ρ) : Heap ρ := Function.update h a none

@[simp] theorem store_self (a : Addr) (r : ρ) (h : Heap ρ) : store a r h a = some r := Function.update_self ..

theorem store_of_ne {a b : Addr} (hab : b ≠ a) (r : ρ) (h : Heap ρ) : store a r h b = h b :=
  Function.update_of_ne hab ..

theorem free_of_ne {a b : Addr} (hab : b ≠ a) (h : Heap ρ) : free a h b = h b := Function.update_of_ne hab ..

/-! ## Nodes and their neighbours -/

/-- the addresses of a list of nodes -/
def addrs (l : List (Addr × α)) : List Addr := l.map Prod.fst

/-- the first node, or the one after the list if there is none -/
def first : List (Addr × α) → Option Addr → Option Addr
  | [], c => c
  | (a, _) :: _, _ => some a

/-- the last node, or the one before the list if there is none -/
def last (b : Option Addr) : List (Addr × α) → Option Addr
  | [] => b
  | (a, _) :: l => last (some a) l

@[simp] theorem addrs_nil : addrs ([] : List (Addr × α)) = [] := rfl

@[simp] theorem addrs_cons (a : Addr) (v : α) (l : List (Addr × α)) : addrs ((a, v) :: l) = a :: addrs l := rfl

@[simp] theorem addrs_append (l₁ l₂ : List (Addr × α)) : addrs (l₁ ++ l₂) = addrs l₁ ++ addrs l₂ := List.map_append

theorem mem_addrs {l : List (Addr × α)} {a : Addr} : a ∈ addrs l ↔ ∃ v, (a, v) ∈ l := by
  simp [addrs]

@[simp] theorem first_nil (c : Option Addr) : first ([] : List (Addr × α)) c = c := rfl

@[simp] theorem first_cons (a : Addr) (v : α) (l : List (Addr × α)) (c : Option Addr) :
    first ((a, v) :: l) c = some a :=
  rfl

theorem first_append (l₁ l₂ : List (Addr × α)) (c : Option Addr) : first (l₁ ++ l₂) c = first l₁ (first l₂ c) := by
  cases l₁ with
  | nil => rfl
  | cons x l₁ => rfl

@[simp] theorem last_nil (b : Option Addr) : last b ([] : List (Addr × α)) = b := rfl

theorem last_append (b : Option Addr) (l₁ l₂ : List (Addr × α)) : last b (l₁ ++ l₂) = last (last b l₁) l₂ := by
  induction l₁ generalizing b with
  | nil => rfl
  | cons x l₁ ih => exact ih (some x.1)

@[simp] theorem last_concat (b : Option Addr) (l : List (Addr × α)) (a : Addr) (v : α) :
    last b (l ++ [(a, v)]) = some a := by
  rw [last_append]
  rfl

/-- a list is empty or has a last node -/
theorem last_cases (l : List (Addr × α)) : l = [] ∨ ∃ l' a v, l = l' ++ [(a, v)] := by
  cases l using List.reverseRecOn with
  | nil => exact Or.inl rfl
  | append_singleton l x => exact Or.inr ⟨l, x.1, x.2, rfl⟩

/-! ## Linked nodes -/

variable (R : α → Option Addr → ρ → Option Addr → Prop)

/-- the nodes stand for their values and are linked, between the node `b` before them and the node `c` after them -/
def Links (h : Heap ρ) : Option Addr → List (Addr × α) → Option Addr → Prop
  | _, [], _ => True
  | b, (a, v) :: l, c => (∃ r, h a = some r ∧ R v b r (first l c)) ∧ Links h (some a) l c

variable {R} {h h' : Heap ρ} {b b' c c' : Option Addr} {l l₁ l₂ : List (Addr × α)}

theorem links_nil : Links R h b [] c := trivial

theorem links_cons {a : Addr} {v : α} :
    Links R h b ((a, v) :: l) c ↔ (∃ r, h a = some r ∧ R v b r (first l c)) ∧ Links R h (some a) l c := Iff.rfl

theorem links_append :
    Links R h b (l₁ ++ l₂) c ↔ Links R h b l₁ (first l₂ c) ∧ Links R h (last b l₁) l₂ c := by
  induction l₁ generalizing b with
  | nil => exact (true_and _).symm ▸ Iff.rfl
  | cons x l₁ ih =>
    obtain ⟨a, v⟩ := x
    rw [List.cons_append, links_cons, links_cons, ih, first_append, and_assoc]
    rfl

theorem links_singleton {a : Addr} {v : α} : Links R h b [(a, v)] c ↔ ∃ r, h a = some r ∧ R v b r c :=
  iff_of_eq (and_true _)

/-- **Frame.** A list is as linked as before if its records are left alone. -/
theorem Links.congr (hl : Links R h b l c) (heq : ∀ a ∈ addrs l, h' a = h a) : Links R h' b l c := by
  induction l generalizing b with
  | nil => exact links_nil
  | cons x l ih =>
    obtain ⟨a, v⟩ := x
    obtain ⟨⟨r, hr, hR⟩, hl⟩ := hl
    rw [addrs_cons, List.forall_mem_cons] at heq
    exact ⟨⟨r, heq.1.trans hr, hR⟩, ih hl heq.2⟩

theorem Links.store (hl : Links R h b l c) {a : Addr} (ha : a ∉ addrs l) (r : ρ) : Links R (store a r h) b l c :=
  hl.congr fun _ hx => store_of_ne (ne_of_mem_of_not_mem hx ha) r h

theorem Links.free (hl : Links R h b l c) {a : Addr} (ha : a ∉ addrs l) : Links R (free a h) b l c :=
  hl.congr fun _ hx => free_of_ne (ne_of_mem_of_not_mem hx ha) h

/-- the records are allocated -/
theorem Links.isSome (hl : Links R h b l c) {a : Addr} (ha : a ∈ addrs l) : ∃ r, h a = some r := by
  induction l generalizing b with
  | nil => cases ha
  | cons x l ih =>
    obtain ⟨a', v⟩ := x
    obtain ⟨⟨r, hr, -⟩, hl⟩ := hl
    rcases List.mem_cons.1 ha with rfl | ha
    · exact ⟨r, hr⟩
    · exact ih hl ha

/-- the last record is changed to one that comes before another node -/
theorem Links.store_last {a : Addr} {v : α} {r : ρ} (hl : Links R h b (l ++ [(a, v)]) c) (ha : a ∉ addrs l)
    (hR : ∀ b' r', h a = some r' → R v b' r' c → R v b' r c') :
      Links R (LinkedList.store a r h) b (l ++ [(a, v)]) c' := by
  rw [links_append, links_singleton] at hl ⊢
  obtain ⟨hl, r', hr', hR'⟩ := hl
  exact ⟨hl.store ha r, r, store_self a r h, hR _ r' hr' hR'⟩

/-- the first record is changed to one that comes after another node -/
theorem Links.store_first {a : Addr} {v : α} {r : ρ} (hl : Links R h b ((a, v) :: l) c) (ha : a ∉ addrs l)
    (hR : ∀ c' r', h a = some r' → R v b r' c' → R v b' r c') :
      Links R (LinkedList.store a r h) b' ((a, v) :: l) c := by
  obtain ⟨⟨r', hr', hR'⟩, hl⟩ := hl
  exact ⟨⟨r, store_self a r h, hR _ r' hr' hR'⟩, hl.store ha r⟩

/-! ## Lists that end -/

/-- two lists from one node that end have the same nodes, if the records tell the next node and the value -/
theorem Links.unique (hnext : ∀ v v' b b' r c c', R v b r c → R v' b' r c' → v = v' ∧ c = c')
    (hl₁ : Links R h b l₁ none) (hl₂ : Links R h b' l₂ none) (hfirst : first l₁ none = first l₂ none) : l₁ = l₂ := by
  induction l₁ generalizing b b' l₂ with
  | nil =>
    cases l₂ with
    | nil => rfl
    | cons y l₂ => cases hfirst
  | cons x l₁ ih =>
    cases l₂ with
    | nil => cases hfirst
    | cons y l₂ =>
      obtain ⟨a, v⟩ := x
      obtain ⟨a', v'⟩ := y
      obtain ⟨⟨r, hr, hR⟩, hl₁⟩ := hl₁
      obtain ⟨⟨r', hr', hR'⟩, hl₂⟩ := hl₂
      obtain rfl : a = a' := Option.some.inj hfirst
      obtain rfl : r = r' := Option.some.inj (hr.symm.trans hr')
      obtain ⟨rfl, hc⟩ := hnext _ _ _ _ _ _ _ hR hR'
      rw [ih hl₁ hl₂ hc]

/-- no node occurs twice in a list that ends -/
theorem Links.nodup (hnext : ∀ v v' b b' r c c', R v b r c → R v' b' r c' → v = v' ∧ c = c')
    (hl : Links R h b l none) : (addrs l).Nodup := by
  induction l generalizing b with
  | nil => exact List.nodup_nil
  | cons x l ih =>
    obtain ⟨a, v⟩ := x
    rw [addrs_cons, List.nodup_cons]
    refine ⟨?_, ih hl.2⟩
    intro ha
    -- the list from the second occurrence on would be the whole list
    obtain ⟨v', hv'⟩ := mem_addrs.1 ha
    obtain ⟨l₁, l₂, rfl⟩ := List.append_of_mem hv'
    have htail : Links R h (last (some a) l₁) ((a, v') :: l₂) none := (links_append.1 hl.2).2
    have heq := congrArg List.length (Links.unique hnext hl htail rfl)
    simp at heq
    omega

end MNetSoft.LinkedList
