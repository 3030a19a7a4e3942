/-
Search trees as `tsearch` and `tfind` keep them. The comparison is given at every call and answers with a sign, and it
may answer otherwise at the next call. A node has its element and a tag, in which an implementation keeps what it needs
to balance the tree; how it does that is a parameter, of which only the order of the elements matters.
- `find_some`, `toList_tsearch_of_found`, `mem_tsearch`: what holds whatever the comparison answers.
- `find_isSome_iff`, `ordered_tsearch`: in a tree in the order that the comparison decides.
- `Holding.tsearch`, `Holding.find_isSome`: found are the keys that have been put in.
-/
import Mathlib.Tactic

namespace MNetSoft.SearchTree

inductive Tree (τ α : Type*)
  | leaf
  | node (tag : τ) (l : Tree τ α) (a : α) (r : Tree τ α)

variable {τ α κ : Type*}

/-- the elements from left to right -/
def Tree.toList : Tree τ α → List α
  | .leaf => []
  | .node _ l a r => l.toList ++ a :: r.toList

/-- an implementation: the tag of a new node, and what is done to the tree at the end of a call -/
structure Balancer (τ α : Type*) where
  fresh : τ
  balance : Tree τ α → Tree τ α
  toList_balance : ∀ t, (balance t).toList = t.toList

/-- one that does not balance -/
def unbalanced : Balancer Unit α := ⟨(), id, fun _ => rfl⟩

/-- `tfind`, with the answers of the comparison of the key with an element -/
def find (cmp : α → ℤ) : Tree τ α → Option α
  | .leaf => none
  | .node _ l a r => if cmp a = 0 then some a else if cmp a < 0 then find cmp l else find cmp r

/-- the tree with a new node where the search ends, if it finds nothing -/
def insert (cmp : α → ℤ) (fresh : τ) (k : α) : Tree τ α → Tree τ α
  | .leaf => .node fresh .leaf k .leaf
  | .node tag l a r =>
    if cmp a = 0 then .node tag l a r
    else if cmp a < 0 then .node tag (insert cmp fresh k l) a r
    else .node tag l a (insert cmp fresh k r)

def tsearch (b : Balancer τ α) (cmp : α → ℤ) (k : α) (t : Tree τ α) : Tree τ α := b.balance (insert cmp b.fresh k t)

/-! ## Whatever the comparison answers -/

variable {b : Balancer τ α} {cmp : α → ℤ} {fresh : τ} {k a : α} {t : Tree τ α}

theorem find_some (h : find cmp t = some a) : a ∈ t.toList ∧ cmp a = 0 := by
  induction t with
  | leaf => cases h
  | node tag l c r ihl ihr =>
    rw [find] at h
    rw [Tree.toList, List.mem_append, List.mem_cons]
    split_ifs at h with h0 hneg
    · cases h
      exact ⟨Or.inr (Or.inl rfl), h0⟩
    · exact ⟨Or.inl (ihl h).1, (ihl h).2⟩
    · exact ⟨Or.inr (Or.inr (ihr h).1), (ihr h).2⟩

/-- what is found is not put in again -/
theorem insert_of_found (h : (find cmp t).isSome) : insert cmp fresh k t = t := by
  induction t with
  | leaf => cases h
  | node tag l c r ihl ihr =>
    rw [find] at h
    rw [insert]
    split_ifs at h ⊢
    · rfl
    · rw [ihl h]
    · rw [ihr h]

theorem toList_tsearch_of_found (h : (find cmp t).isSome) : (tsearch b cmp k t).toList = t.toList := by
  rw [tsearch, b.toList_balance, insert_of_found h]

theorem mem_insert (h : a ∈ (insert cmp fresh k t).toList) : a = k ∨ a ∈ t.toList := by
  induction t with
  | leaf => exact Or.inl (by simpa [insert, Tree.toList] using h)
  | node tag l c r ihl ihr =>
    rw [insert] at h
    rw [Tree.toList, List.mem_append, List.mem_cons]
    split_ifs at h
    · rw [Tree.toList, List.mem_append, List.mem_cons] at h
      exact Or.inr h
    · rw [Tree.toList, List.mem_append, List.mem_cons] at h
      rcases h with h | h
      · exact (ihl h).imp_right Or.inl
      · exact Or.inr (Or.inr h)
    · rw [Tree.toList, List.mem_append, List.mem_cons] at h
      rcases h with h | h | h
      · exact Or.inr (Or.inl h)
      · exact Or.inr (Or.inr (Or.inl h))
      · exact (ihr h).imp_right fun h => Or.inr (Or.inr h)

theorem mem_tsearch (h : a ∈ (tsearch b cmp k t).toList) : a = k ∨ a ∈ t.toList := by
  rw [tsearch, b.toList_balance] at h
  exact mem_insert h

open scoped List in
/-- a new element comes to the others -/
theorem insert_perm (h : find cmp t = none) : (insert cmp fresh k t).toList.Perm (k :: t.toList) := by
  induction t with
  | leaf => exact List.Perm.refl _
  | node tag l c r ihl ihr =>
    rw [find] at h
    rw [insert]
    split_ifs at h ⊢ with h0 hneg
    · exact (ihl h).append_right (c :: r.toList)
    · calc l.toList ++ c :: (insert cmp fresh k r).toList
        _ ~ l.toList ++ c :: k :: r.toList := ((ihr h).cons c).append_left l.toList
        _ ~ l.toList ++ k :: c :: r.toList := (List.Perm.swap k c r.toList).append_left l.toList
        _ ~ k :: (l.toList ++ c :: r.toList) := List.perm_middle

/-! ## In the order of the comparison -/

section Order

variable [LinearOrder κ] {val : α → κ} {x : κ}

/-- the comparison compares `x` with what the elements of the tree stand for -/
def Decides (cmp : α → ℤ) (x : κ) (val : α → κ) (t : Tree τ α) : Prop :=
  ∀ a ∈ t.toList, (cmp a < 0 ↔ x < val a) ∧ (cmp a = 0 ↔ x = val a)

theorem decides_node {tag : τ} {l r : Tree τ α} :
    Decides cmp x val (.node tag l a r) ↔
      Decides cmp x val l ∧ ((cmp a < 0 ↔ x < val a) ∧ (cmp a = 0 ↔ x = val a)) ∧ Decides cmp x val r := by
  unfold Decides
  rw [Tree.toList, List.forall_mem_append, List.forall_mem_cons]

/-- where the comparison does not answer as for smaller or equal ones -/
theorem lt_of_not (h : (cmp a < 0 ↔ x < val a) ∧ (cmp a = 0 ↔ x = val a)) (h0 : ¬cmp a = 0) (hneg : ¬cmp a < 0) :
    val a < x := by
  rcases lt_trichotomy x (val a) with hlt | heq | hgt
  · exact absurd (h.1.2 hlt) hneg
  · exact absurd (h.2.2 heq) h0
  · exact hgt

/-- what the elements stand for increases from left to right -/
def Ordered (val : α → κ) (t : Tree τ α) : Prop := t.toList.Pairwise fun a c => val a < val c

theorem ordered_node {tag : τ} {l r : Tree τ α} :
    Ordered val (.node tag l a r) ↔
      Ordered val l ∧ Ordered val r ∧ (∀ c ∈ l.toList, val c < val a) ∧ ∀ c ∈ r.toList, val a < val c := by
  unfold Ordered
  rw [Tree.toList, List.pairwise_append, List.pairwise_cons]
  constructor
  · rintro ⟨hl, ⟨hr, hrr⟩, hlr⟩
    exact ⟨hl, hrr, fun c hc => hlr c hc a List.mem_cons_self, hr⟩
  · rintro ⟨hl, hr, hla, har⟩
    refine ⟨hl, ⟨har, hr⟩, fun c hc d hd => ?_⟩
    rcases List.mem_cons.1 hd with rfl | hd
    · exact hla c hc
    · exact (hla c hc).trans (har d hd)

/-- **In an ordered tree** what is there is found. -/
theorem find_isSome_iff (hcmp : Decides cmp x val t) (ht : Ordered val t) :
    (find cmp t).isSome ↔ ∃ a ∈ t.toList, val a = x := by
  induction t with
  | leaf => simp [find, Tree.toList]
  | node tag l c r ihl ihr =>
    obtain ⟨hl, hr, hlc, hcr⟩ := ordered_node.1 ht
    obtain ⟨hcl, hc, hcr'⟩ := decides_node.1 hcmp
    simp only [find, Tree.toList, List.mem_append, List.mem_cons, or_and_right, exists_or, exists_eq_left]
    split_ifs with h0 hneg
    · exact iff_of_true rfl (Or.inr (Or.inl (hc.2.1 h0).symm))
    · have hlt := hc.1.1 hneg
      rw [ihl hcl hl]
      refine (or_iff_left ?_).symm
      rintro (heq | ⟨d, hd, heq⟩)
      · exact hlt.ne' heq
      · exact (hlt.trans (hcr d hd)).ne' heq
    · have hgt := lt_of_not hc h0 hneg
      rw [ihr hcr' hr]
      refine Iff.symm ((or_iff_right ?_).trans (or_iff_right hgt.ne))
      rintro ⟨d, hd, heq⟩
      exact ((hlc d hd).trans hgt).ne heq

/-- the order is kept -/
theorem ordered_insert (hcmp : Decides cmp (val k) val t) (ht : Ordered val t) :
    Ordered val (insert cmp fresh k t) := by
  induction t with
  | leaf => exact List.pairwise_singleton _ _
  | node tag l c r ihl ihr =>
    obtain ⟨hl, hr, hlc, hcr⟩ := ordered_node.1 ht
    obtain ⟨hcl, hc, hcr'⟩ := decides_node.1 hcmp
    rw [insert]
    split_ifs with h0 hneg
    · exact ht
    · refine ordered_node.2 ⟨ihl hcl hl, hr, fun d hd => ?_, hcr⟩
      rcases mem_insert hd with rfl | hd
      · exact hc.1.1 hneg
      · exact hlc d hd
    · refine ordered_node.2 ⟨hl, ihr hcr' hr, hlc, fun d hd => ?_⟩
      rcases mem_insert hd with rfl | hd
      · exact lt_of_not hc h0 hneg
      · exact hcr d hd

theorem ordered_tsearch (hcmp : Decides cmp (val k) val t) (ht : Ordered val t) : Ordered val (tsearch b cmp k t) := by
  unfold Ordered tsearch
  rw [b.toList_balance]
  exact ordered_insert hcmp ht

/-- a tree in order, with elements that stand for these keys -/
structure Holding (val : α → κ) (t : Tree τ α) (ks : Set κ) : Prop where
  ordered : Ordered val t
  keys : ∀ x, (∃ a ∈ t.toList, val a = x) ↔ x ∈ ks

theorem Holding.leaf (val : α → κ) : Holding val (.leaf : Tree τ α) ∅ :=
  ⟨List.Pairwise.nil, fun x => by simp [Tree.toList]⟩

theorem Holding.congr {t' : Tree τ α} {ks : Set κ} (h : Holding val t ks) (heq : t'.toList = t.toList) :
    Holding val t' ks := by
  refine ⟨?_, fun x => ?_⟩
  · unfold Ordered
    rw [heq]
    exact h.ordered
  · rw [heq]
    exact h.keys x

/-- what the elements stand for is the same -/
theorem Holding.congr_val {val' : α → κ} {ks : Set κ} (h : Holding val t ks) (heq : ∀ a ∈ t.toList, val' a = val a) :
    Holding val' t ks := by
  refine ⟨?_, fun x => ?_⟩
  · refine h.ordered.imp_of_mem fun ha hc hlt => ?_
    rwa [heq _ ha, heq _ hc]
  · rw [← h.keys x]
    exact exists_congr fun a => and_congr_right fun ha => by rw [heq a ha]

/-- **One more key**, with comparisons that decide the order -/
theorem Holding.tsearch {ks : Set κ} (h : Holding val t ks) (hcmp : Decides cmp (val k) val t) :
    Holding val (tsearch b cmp k t) (Insert.insert (val k) ks) := by
  refine ⟨ordered_tsearch hcmp h.ordered, fun x => ?_⟩
  rw [Set.mem_insert_iff, ← h.keys]
  cases hfind : find cmp t with
  | none =>
    have hperm : (SearchTree.insert cmp b.fresh k t).toList.Perm (k :: t.toList) := insert_perm hfind
    simp only [SearchTree.tsearch, b.toList_balance, hperm.mem_iff]
    rw [List.exists_mem_cons_iff, eq_comm]
  | some a =>
    have hfound : (find cmp t).isSome := by rw [hfind]; rfl
    rw [toList_tsearch_of_found hfound, or_iff_right_of_imp]
    rintro rfl
    exact (find_isSome_iff hcmp h.ordered).1 hfound

/-- what is found are the keys -/
theorem Holding.find_isSome {ks : Set κ} (h : Holding val t ks) (hcmp : Decides cmp x val t) :
    (find cmp t).isSome ↔ x ∈ ks :=
  (find_isSome_iff hcmp h.ordered).trans (h.keys x)

end Order

end MNetSoft.SearchTree
