/-
Taking elements out of a list as marks spread: an element goes when a test on the marks so far says so, and its going
may add marks. Nothing here is about a particular program: `κ` is any type of marks, `α` any type of elements.

- `sweep`: one pass over the list, which tells the marks and the elements that stay.
- `Elim`: elements going one at a time, in any order.
- `sweep_elim`: a pass is such an elimination.
- `Elim.inv` (invariant rule), `Elim.gone` (an element that went was tested and marked under way) and `Elim.eq_filter`
  (what stays, where a property decides the test).
-/
import Mathlib.Tactic

namespace MNetSoft.Saturation

variable {κ α : Type*}

/-! ## One pass -/

/-- visit every element: it goes, with new marks, or it stays -/
def sweep (visit : κ → α → Option κ) : κ → List α → κ × List α
  | k, [] => (k, [])
  | k, a :: l =>
    match visit k a with
    | some k' => sweep visit k' l
    | none => ((sweep visit k l).1, a :: (sweep visit k l).2)

variable {visit : κ → α → Option κ} {k k' : κ} {a : α} {l l' : List α}

theorem sweep_nil : sweep visit k [] = (k, []) := rfl

theorem sweep_go (h : visit k a = some k') : sweep visit k (a :: l) = sweep visit k' l := by
  rw [sweep, h]

theorem sweep_stay (h : visit k a = none) :
    sweep visit k (a :: l) = ((sweep visit k l).1, a :: (sweep visit k l).2) := by
  rw [sweep, h]

theorem length_sweep_le (visit : κ → α → Option κ) (k : κ) (l : List α) : (sweep visit k l).2.length ≤ l.length := by
  induction l generalizing k with
  | nil => exact le_rfl
  | cons a l ih =>
    cases hv : visit k a with
    | some k' =>
      rw [sweep_go hv, List.length_cons]
      exact (ih k').trans (Nat.le_succ _)
    | none =>
      rw [sweep_stay hv, List.length_cons, List.length_cons]
      exact Nat.succ_le_succ (ih k)

/-- the marks are collected in the order of the list -/
theorem sweep_marks : (sweep visit k l).1 = l.foldl (fun k a => (visit k a).getD k) k := by
  induction l generalizing k with
  | nil => rfl
  | cons a l ih =>
    cases hv : visit k a with
    | some k' => rw [sweep_go hv, ih, List.foldl_cons, hv, Option.getD_some]
    | none => rw [sweep_stay hv, ih, List.foldl_cons, hv, Option.getD_none]

/-- a pass in which nothing goes leaves the marks alone -/
theorem sweep_of_length_eq (h : (sweep visit k l).2.length = l.length) :
    sweep visit k l = (k, l) ∧ ∀ a ∈ l, visit k a = none := by
  induction l generalizing k with
  | nil => exact ⟨rfl, by simp⟩
  | cons a l ih =>
    cases hv : visit k a with
    | some k' =>
      rw [sweep_go hv, List.length_cons] at h
      have hle := length_sweep_le visit k' l
      omega
    | none =>
      rw [sweep_stay hv, List.length_cons, List.length_cons, Nat.add_right_cancel_iff] at h
      obtain ⟨heq, hnone⟩ := ih h
      rw [sweep_stay hv, heq]
      exact ⟨rfl, List.forall_mem_cons.2 ⟨hv, hnone⟩⟩

/-- a visit that also notes that the element went -/
def flagged (visit : κ → α → Option κ) (k : κ × Bool) (a : α) : Option (κ × Bool) :=
  (visit k.1 a).map fun k' => (k', true)

/-- the note is made if and only if something went -/
theorem sweep_flagged (f : Bool) :
    sweep (flagged visit) (k, f) l =
      (((sweep visit k l).1, f || decide ((sweep visit k l).2.length < l.length)), (sweep visit k l).2) := by
  induction l generalizing k f with
  | nil => simp [sweep_nil]
  | cons a l ih =>
    cases hv : visit k a with
    | some k' =>
      have hvf : flagged visit (k, f) a = some (k', true) := by rw [flagged, hv]; rfl
      have hle := length_sweep_le visit k' l
      rw [sweep_go hv, sweep_go hvf, ih, List.length_cons, Bool.true_or, decide_eq_true (by omega), Bool.or_true]
    | none =>
      have hvf : flagged visit (k, f) a = none := by rw [flagged, hv]; rfl
      rw [sweep_stay hv, sweep_stay hvf, ih]
      simp

/-- where the marks do not matter, a pass is a filter -/
theorem sweep_filter {p : α → Bool} (hp : ∀ k a, (visit k a).isSome = p a) :
    (sweep visit k l).2 = l.filter fun a => !p a := by
  induction l generalizing k with
  | nil => rfl
  | cons a l ih =>
    cases hv : visit k a with
    | some k' =>
      have hpa : p a = true := by rw [← hp k a, hv]; rfl
      rw [sweep_go hv, ih, List.filter_cons, hpa]
      rfl
    | none =>
      have hpa : p a = false := by rw [← hp k a, hv]; rfl
      rw [sweep_stay hv, ih, List.filter_cons, hpa]
      rfl

/-- an element that stays was let stay when it was visited -/
theorem sweep_stayed (ha : a ∈ (sweep visit k l).2) : ∃ k', visit k' a = none := by
  induction l generalizing k with
  | nil => cases ha
  | cons x l ih =>
    cases hv : visit k x with
    | some k' =>
      rw [sweep_go hv] at ha
      exact ih ha
    | none =>
      rw [sweep_stay hv, List.mem_cons] at ha
      rcases ha with rfl | ha
      · exact ⟨k, hv⟩
      · exact ih ha

/-! ## Elements going one at a time -/

variable {test : κ → α → Prop} {mark : κ → α → κ}

variable (test mark) in
/-- elements go that pass the test, one after another -/
inductive Elim : κ → List α → κ → List α → Prop where
  | refl (k : κ) (l : List α) : Elim k l k l
  | drop {k k' : κ} {l₁ l₂ l' : List α} {a : α} : test k a → Elim (mark k a) (l₁ ++ l₂) k' l' →
      Elim k (l₁ ++ a :: l₂) k' l'

theorem Elim.trans {k₁ k₂ k₃ : κ} {l₁ l₂ l₃ : List α} (h : Elim test mark k₁ l₁ k₂ l₂)
    (h' : Elim test mark k₂ l₂ k₃ l₃) : Elim test mark k₁ l₁ k₃ l₃ := by
  induction h with
  | refl k l => exact h'
  | drop ht _ ih => exact .drop ht (ih h')

/-- a weaker test lets more elements go -/
theorem Elim.mono {test' : κ → α → Prop} (h : Elim test mark k l k' l') (ht : ∀ k a, test k a → test' k a) :
    Elim test' mark k l k' l' := by
  induction h with
  | refl k l => exact .refl k l
  | drop hta _ ih => exact .drop (ht _ _ hta) ih

/-- a pass lets elements go one at a time -/
theorem sweep_elim (hv : ∀ k a k', visit k a = some k' → test k a ∧ k' = mark k a) (pre : List α) :
    Elim test mark k (pre ++ l) (sweep visit k l).1 (pre ++ (sweep visit k l).2) := by
  induction l generalizing k pre with
  | nil => exact .refl k _
  | cons a l ih =>
    cases hva : visit k a with
    | some k' =>
      obtain ⟨ht, rfl⟩ := hv k a k' hva
      rw [sweep_go hva]
      exact .drop ht (ih pre)
    | none =>
      rw [sweep_stay hva]
      simpa using ih (k := k) (pre ++ [a])

theorem Elim.sublist (h : Elim test mark k l k' l') : l'.Sublist l := by
  induction h with
  | refl k l => exact List.Sublist.refl l
  | drop _ _ ih => exact ih.trans ((List.sublist_cons_self _ _).append_left _)

/-- **Invariant rule.** What the marks of the elements keep holds at the end. -/
theorem Elim.inv {P : κ → Prop} (h : Elim test mark k l k' l') (hk : P k)
    (hmark : ∀ k, ∀ a ∈ l, P k → test k a → P (mark k a)) : P k' := by
  induction h with
  | refl k l => exact hk
  | @drop k k' l₁ l₂ l' a ht _ ih =>
    refine ih (hmark k a (by simp) hk ht) fun k x hx => hmark k x ?_
    rw [List.mem_append] at hx
    exact List.mem_append.2 (hx.imp_right (List.mem_cons_of_mem a))

section Order

variable [Preorder κ]

theorem Elim.le (h : Elim test mark k l k' l') (hinfl : ∀ k a, k ≤ mark k a) : k ≤ k' := by
  induction h with
  | refl k l => exact le_rfl
  | drop _ _ ih => exact (hinfl _ _).trans ih

/-- an element that went passed the test, and was marked, on the way to the last marks -/
theorem Elim.gone (h : Elim test mark k l k' l') (hinfl : ∀ k a, k ≤ mark k a) (ha : a ∈ l) (hgone : a ∉ l') :
    ∃ k₁, test k₁ a ∧ mark k₁ a ≤ k' := by
  induction h with
  | refl k l => exact absurd ha hgone
  | @drop k k' l₁ l₂ l' a' ht hrest ih =>
    by_cases hmem : a ∈ l₁ ++ l₂
    · exact ih hmem hgone
    · obtain rfl : a = a' := by
        simp only [List.mem_append, List.mem_cons, not_or] at ha hmem
        rcases ha with h | h | h
        · exact absurd h hmem.1
        · exact h
        · exact absurd h hmem.2
      exact ⟨k, ht, hrest.le hinfl⟩

/-- where a property decides which elements pass the test under way, the others stay -/
theorem Elim.eq_filter {p : α → Bool} (h : Elim test mark k l k' l') (hinfl : ∀ k a, k ≤ mark k a)
    (hgone : ∀ k₁, ∀ a ∈ l, test k₁ a → mark k₁ a ≤ k' → p a = true) (hstay : ∀ a ∈ l', p a = false) :
    l' = l.filter fun a => !p a := by
  induction h with
  | refl k l => exact (List.filter_eq_self.2 fun a ha => by rw [hstay a ha]; rfl).symm
  | @drop k k' l₁ l₂ l' a ht hrest ih =>
    have hpa : p a = true := hgone k a (by simp) ht (hrest.le hinfl)
    have hrest' : l' = (l₁ ++ l₂).filter fun a => !p a := by
      refine ih (fun k₁ x hx => hgone k₁ x ?_) hstay
      rw [List.mem_append] at hx
      exact List.mem_append.2 (hx.imp_right (List.mem_cons_of_mem a))
    rw [hrest', List.filter_append, List.filter_append, List.filter_cons, hpa]
    rfl

end Order

end MNetSoft.Saturation
