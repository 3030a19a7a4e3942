/-
A tree of files and directories, as a finite set of paths with what is known of each: `N` is any type of names, and a
path is the list of names from the root of the file system. Nothing here is about a particular program.

- `WellFormed`: what is in a directory is in a directory. It is kept by `remove` of what has nothing in it, and by
  `chmod`.
- `eq_nil_of_no_entries`: below a directory without entries there is nothing.
- `Within root t t'`: `t'` is what `t` has become by changes at and below `root` that create nothing; a transitive
  relation, which `remove` and `chmod` below `root` are instances of.
- `below_ssubset`: there is less below an entry than below its directory.
-/
import Mathlib.Tactic
import Mathlib.Data.Finset.Image
import Mathlib.Data.Finset.Option

namespace MNetSoft.FileTree

variable {N : Type*} [DecidableEq N]

/-- what is known of a file or directory -/
structure Node where
  isDir : Bool
  mode : ℕ
  owner : ℕ
deriving DecidableEq, Repr

/-- the paths that exist, and their nodes -/
structure FileSys (N : Type*) where
  objects : Finset (List N)
  node : List N → Node

namespace FileSys

/-- `lstat` -/
def stat (t : FileSys N) (p : List N) : Option Node := if p ∈ t.objects then some (t.node p) else none

/-- there is a directory -/
def IsDir (t : FileSys N) (p : List N) : Prop := p ∈ t.objects ∧ (t.node p).isDir = true

instance (t : FileSys N) (p : List N) : Decidable (t.IsDir p) :=
  inferInstanceAs (Decidable (p ∈ t.objects ∧ (t.node p).isDir = true))

/-- the names in a directory -/
def entries (t : FileSys N) (p : List N) : Finset N :=
  (t.objects.image List.getLast?).eraseNone.filter fun n => p ++ [n] ∈ t.objects

def remove (t : FileSys N) (p : List N) : FileSys N := { t with objects := t.objects.erase p }

/-- a mode is set if the path exists -/
def chmod (t : FileSys N) (p : List N) (mode : ℕ) : FileSys N :=
  { t with node := Function.update t.node p ⟨(t.node p).isDir, mode, (t.node p).owner⟩ }

/-- what is strictly below a path -/
def below (t : FileSys N) (p : List N) : Finset (List N) := t.objects.filter fun q => p <+: q ∧ q ≠ p

/-- whatever is in a directory has a directory it is in -/
structure WellFormed (t : FileSys N) : Prop where
  parent : ∀ p n, p ++ [n] ∈ t.objects → t.IsDir p

/-- at and below `root` some objects may be gone and modes may be other, and the rest is as it was -/
structure Within (root : List N) (t t' : FileSys N) : Prop where
  objects : t'.objects ⊆ t.objects
  isDir : ∀ p, (t'.node p).isDir = (t.node p).isDir
  owner : ∀ p, (t'.node p).owner = (t.node p).owner
  outside : ∀ p, ¬root <+: p → t'.stat p = t.stat p

variable {t t' t'' : FileSys N} {root p q : List N} {n : N}

@[simp] theorem mem_entries : n ∈ t.entries p ↔ p ++ [n] ∈ t.objects := by
  rw [entries, Finset.mem_filter, Finset.mem_eraseNone, Finset.mem_image]
  exact and_iff_right_of_imp fun h => ⟨p ++ [n], h, by simp⟩

@[simp] theorem mem_below : q ∈ t.below p ↔ q ∈ t.objects ∧ p <+: q ∧ q ≠ p := by rw [below, Finset.mem_filter]

@[simp] theorem mem_remove : q ∈ (t.remove p).objects ↔ q ≠ p ∧ q ∈ t.objects := Finset.mem_erase

@[simp] theorem node_remove : (t.remove p).node = t.node := rfl

@[simp] theorem objects_chmod (mode : ℕ) : (t.chmod p mode).objects = t.objects := rfl

theorem node_chmod (mode : ℕ) :
    (t.chmod p mode).node = Function.update t.node p ⟨(t.node p).isDir, mode, (t.node p).owner⟩ := rfl

theorem isDir_chmod (mode : ℕ) (q : List N) : ((t.chmod p mode).node q).isDir = (t.node q).isDir := by
  rw [node_chmod]
  by_cases hq : q = p
  · rw [hq, Function.update_self]
  · rw [Function.update_of_ne hq]

theorem owner_chmod (mode : ℕ) (q : List N) : ((t.chmod p mode).node q).owner = (t.node q).owner := by
  rw [node_chmod]
  by_cases hq : q = p
  · rw [hq, Function.update_self]
  · rw [Function.update_of_ne hq]

theorem stat_eq_some {s : Node} : t.stat p = some s ↔ p ∈ t.objects ∧ t.node p = s := by
  rw [stat]
  split_ifs with h
  · simp [h]
  · simp [h]

theorem stat_eq_none : t.stat p = none ↔ p ∉ t.objects := by
  rw [stat]
  split_ifs with h
  · simp [h]
  · simp [h]

/-! ## Well-formed trees -/

omit [DecidableEq N] in
/-- what exists has all that is above it -/
theorem WellFormed.mem_of_append (h : t.WellFormed) (hpq : p ++ q ∈ t.objects) : p ∈ t.objects := by
  induction q using List.reverseRecOn with
  | nil => rwa [List.append_nil] at hpq
  | append_singleton q n ih =>
    rw [← List.append_assoc] at hpq
    exact ih (h.parent (p ++ q) n hpq).1

omit [DecidableEq N] in
/-- nothing is in what is not a directory -/
theorem WellFormed.not_mem (h : t.WellFormed) (hp : ¬t.IsDir p) (n : N) : p ++ [n] ∉ t.objects :=
  fun hmem => hp (h.parent p n hmem)

omit [DecidableEq N] in
/-- below a directory without entries there is nothing -/
theorem WellFormed.eq_nil_of_no_entries (h : t.WellFormed) (hp : ∀ n, p ++ [n] ∉ t.objects)
    (hpq : p ++ q ∈ t.objects) : q = [] := by
  cases q with
  | nil => rfl
  | cons n q =>
    rw [List.append_cons] at hpq
    exact absurd (h.mem_of_append hpq) (hp n)

theorem WellFormed.remove (h : t.WellFormed) (hp : ∀ n, p ++ [n] ∉ t.objects) : (t.remove p).WellFormed := by
  refine ⟨fun q n hqn => ?_⟩
  obtain ⟨-, hmem⟩ := mem_remove.1 hqn
  obtain ⟨hq, hdir⟩ := h.parent q n hmem
  refine ⟨mem_remove.2 ⟨?_, hq⟩, hdir⟩
  intro heq
  rw [heq] at hmem
  exact hp n hmem

theorem WellFormed.chmod (h : t.WellFormed) (p : List N) (mode : ℕ) : (t.chmod p mode).WellFormed := by
  refine ⟨fun q n hqn => ?_⟩
  obtain ⟨hq, hdir⟩ := h.parent q n hqn
  exact ⟨hq, by rw [isDir_chmod]; exact hdir⟩

/-! ## Changes below a path -/

theorem Within.refl (root : List N) (t : FileSys N) : Within root t t :=
  ⟨Finset.Subset.refl _, fun _ => rfl, fun _ => rfl, fun _ _ => rfl⟩

theorem Within.trans (h : Within root t t') (h' : Within root t' t'') : Within root t t'' :=
  ⟨h'.objects.trans h.objects, fun p => (h'.isDir p).trans (h.isDir p), fun p => (h'.owner p).trans (h.owner p),
    fun p hp => (h'.outside p hp).trans (h.outside p hp)⟩

theorem Within.remove (hp : root <+: p) : Within root t (t.remove p) := by
  refine ⟨Finset.erase_subset _ _, fun _ => rfl, fun _ => rfl, fun q hq => ?_⟩
  have hne : q ≠ p := fun heq => hq (heq ▸ hp)
  rw [stat, stat, node_remove]
  simp [hne]

theorem Within.chmod (hp : root <+: p) (mode : ℕ) : Within root t (t.chmod p mode) := by
  refine ⟨Finset.Subset.refl _, isDir_chmod mode, owner_chmod mode, fun q hq => ?_⟩
  have hne : q ≠ p := fun heq => hq (heq ▸ hp)
  rw [stat, stat, objects_chmod, node_chmod, Function.update_of_ne hne]

/-! ## How much there is -/

theorem below_subset (h : t'.objects ⊆ t.objects) (p : List N) : t'.below p ⊆ t.below p := by
  intro q hq
  rw [mem_below] at hq ⊢
  exact ⟨h hq.1, hq.2⟩

/-- **There is less below an entry** than below its directory. -/
theorem below_ssubset (h : p ++ [n] ∈ t.objects) : t.below (p ++ [n]) ⊂ t.below p := by
  rw [Finset.ssubset_iff_of_subset]
  · exact ⟨p ++ [n], mem_below.2 ⟨h, List.prefix_append p [n], by simp⟩, fun hmem => (mem_below.1 hmem).2.2 rfl⟩
  · intro q hq
    rw [mem_below] at hq ⊢
    obtain ⟨hmem, hprefix, -⟩ := hq
    refine ⟨hmem, (List.prefix_append p [n]).trans hprefix, ?_⟩
    intro heq
    have hlen := hprefix.length_le
    rw [heq, List.length_append, List.length_singleton] at hlen
    omega

theorem card_remove_lt (h : p ∈ t.objects) : (t.remove p).objects.card < t.objects.card := Finset.card_erase_lt_of_mem h

end FileSys

end MNetSoft.FileTree
