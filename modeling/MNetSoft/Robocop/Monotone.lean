/-
Two runs of `find_orph` on the same processes, the second with more active ttys and more hens. A process on an active
tty is dropped by the first pass and is not made a hen, so its children may lose the protection that they had from it.

- `Below`: one table of screeners has no less than another; `below_screeners`: more active ttys, more screeners.
- `Covered`: the children of the processes that are only dropped by the first pass of the second run are spared there
  for another reason.
- `spared_or_dropped`: then no process loses its protection.
- `find_orph_monotone_iff`: when the second run leaves no process that the first does not.
- `hen_logged_in`: a child of a hen on an active tty, and its child.
-/
import Mathlib.Tactic
import MNetSoft.Robocop.Orphans

namespace MNetSoft.Robocop

open MNetSoft.CString MNetSoft.LinkedList MNetSoft.Saturation

/-! ## Screeners -/

/-- the second table is full, or has what the first has -/
def Below (k k' : Finset uid_t × ℕ) : Prop := MAXSCREENERS ≤ k'.1.card + k'.2 ∨ k.1 ⊆ k'.1 ∧ k.2 ≤ k'.2

theorem Below.shielded {k k' : Finset uid_t × ℕ} (h : Below k k') {u : uid_t} (hu : Shielded k u) : Shielded k' u := by
  rcases h with hfull | ⟨hsub, hle⟩
  · exact Or.inl hfull
  · rcases hu with hfull | hmem
    · have hcard := Finset.card_le_card hsub
      exact Or.inl (by omega)
    · exact Or.inr (hsub hmem)

/-- a user is added to both -/
theorem Below.add {k k' : Finset uid_t × ℕ} (h : Below k k') (u : uid_t) : Below (addScreen k u) (addScreen k' u) := by
  by_cases hfull' : MAXSCREENERS ≤ k'.1.card + k'.2
  · rw [addScreen, addScreen, if_pos hfull']
    exact Or.inl hfull'
  · obtain ⟨hsub, hle⟩ := h.resolve_left hfull'
    have hcard := Finset.card_le_card hsub
    rw [addScreen, addScreen, if_neg hfull', if_neg (by omega)]
    split_ifs
    · exact Or.inr ⟨hsub, Nat.add_le_add_right hle 1⟩
    · exact Or.inr ⟨Finset.insert_subset_insert u hsub, hle⟩

/-- a user is added to the second -/
theorem Below.add_right {k k' : Finset uid_t × ℕ} (h : Below k k') (u : uid_t) : Below k (addScreen k' u) := by
  by_cases hfull' : MAXSCREENERS ≤ k'.1.card + k'.2
  · rw [addScreen, if_pos hfull']
    exact Or.inl hfull'
  · obtain ⟨hsub, hle⟩ := h.resolve_left hfull'
    rw [addScreen, if_neg hfull']
    split_ifs
    · exact Or.inr ⟨hsub, hle.trans (Nat.le_succ _)⟩
    · exact Or.inr ⟨hsub.trans (Finset.subset_insert u _), hle⟩

section TwoRuns

variable {A A' : Finset dev_t} {H H' : Finset pid_t} {l : List (Addr × Proc)}

theorem Marked.mono (hA : ∀ d, IsActive A d → IsActive A' d) {p : Proc} (h : Marked A p) : Marked A' p :=
  ⟨h.1, hA _ h.2⟩

theorem DroppedFirst.mono (hA : ∀ d, IsActive A d → IsActive A' d) {p : Proc} (h : DroppedFirst A p) :
    DroppedFirst A' p :=
  h.imp_left (Marked.mono hA)

/-- one process -/
theorem below_visitMarked (hA : ∀ d, IsActive A d → IsActive A' d) {k k' : Finset uid_t × ℕ} (h : Below k k')
    (x : Addr × Proc) : Below ((visitMarked A k x).getD k) ((visitMarked A' k' x).getD k') := by
  by_cases hm : Marked A x.2
  · rw [visitMarked, visitMarked, if_pos hm, if_pos (hm.mono hA), Option.getD_some, Option.getD_some]
    split_ifs
    · exact h.add _
    · exact h
  · have hstay : (visitMarked A k x).getD k = k := by
      rw [visitMarked, if_neg hm]
      split_ifs <;> rfl
    rw [hstay, visitMarked]
    split_ifs
    · exact h.add_right _
    · exact h
    · exact h
    · exact h

theorem below_screeners (hA : ∀ d, IsActive A d → IsActive A' d) (l : List (Addr × Proc)) :
    Below (screeners A l) (screeners A' l) := by
  unfold screeners
  rw [sweep_marks, sweep_marks]
  induction l using List.reverseRecOn with
  | nil => exact Or.inr ⟨subset_rfl, le_rfl⟩
  | append_singleton l x ih =>
    rw [List.foldl_append, List.foldl_append, List.foldl_cons, List.foldl_cons, List.foldl_nil, List.foldl_nil]
    exact below_visitMarked hA ih x

/-! ## The rule -/

/-- the rule spares the process in the second or third pass -/
abbrev SparedBy (l : List (Addr × Proc)) (A : Finset dev_t) (H : Finset pid_t) : Proc → Prop :=
  Spared (l.map Prod.snd) A H (shield A l)

/-- the hens that the rule makes fill their table -/
def Overflow (l : List (Addr × Proc)) (A : Finset dev_t) (H : Finset pid_t) : Prop :=
  HENMAX ≤ (hensOf (l.map Prod.snd) A H (shield A l)).card

/-- For each process that is spared in the first run and is dropped by the first pass of the second one, every child is
spared there for another reason: it is dropped by the first pass too, has a hen for its parent, or is a protected screen
process. -/
def Covered (l : List (Addr × Proc)) (A A' : Finset dev_t) (H H' : Finset pid_t) : Prop :=
  ∀ p c, SparedBy l A H p → DroppedFirst A' p → c ∈ l.map Prod.snd → c.ppid = p.pid →
    DroppedFirst A' c ∨ c.ppid ∈ H' ∨ Background c ∧ shield A' l c

variable (hA : ∀ d, IsActive A d → IsActive A' d)
  (hH : ∀ k, HENMAX ≤ H.card ∨ k ∈ H → HENMAX ≤ H'.card ∨ k ∈ H')

include hA hH in
/-- what the first run spares, the second one drops at once or spares too -/
theorem spared_or_dropped (hcard : H'.card < HENMAX) (hcover : Covered l A A' H H') {p : Proc} (hp : SparedBy l A H p) :
    DroppedFirst A' p ∨ SparedBy l A' H' p := by
  induction hp with
  | @hen p hmem hd hppid =>
    by_cases hd' : DroppedFirst A' p
    · exact Or.inl hd'
    · exact Or.inr (.hen hmem hd' ((hH _ (Or.inr hppid)).resolve_left (not_le.2 hcard)))
  | @child p q hmem hd hq hpid ih =>
    by_cases hd' : DroppedFirst A' p
    · exact Or.inl hd'
    · rcases ih with hdq | hsq
      · rcases hcover q p hq hdq hmem hpid with h | h | ⟨hback, hsh⟩
        · exact Or.inl h
        · exact Or.inr (.hen hmem hd' h)
        · exact Or.inr (.screen hmem hd' hback hsh)
      · exact Or.inr (.child hmem hd' hsq hpid)
  | @screen p hmem hd hback hsh =>
    by_cases hd' : DroppedFirst A' p
    · exact Or.inl hd'
    · exact Or.inr (.screen hmem hd' hback ((below_screeners hA l).shielded hsh))

include hA in
/-- what is not covered loses its protection -/
theorem covered_of_spared (hpids : ((l.map Prod.snd).map Proc.pid).Nodup)
    (h : ∀ p, SparedBy l A H p → DroppedFirst A' p ∨ SparedBy l A' H' p) : Covered l A A' H H' := by
  intro p c hp hd hc hppid
  by_cases hdc : DroppedFirst A' c
  · exact Or.inl hdc
  · have hsc : SparedBy l A H c := .child hc (fun hd => hdc (hd.mono hA)) hp hppid
    rcases (h c hsc).resolve_left hdc with ⟨-, -, hhen⟩ | @⟨_, q, -, -, hq, hpid⟩ | ⟨-, -, hback, hsh⟩
    · exact Or.inr (Or.inl hhen)
    · -- the parent is the only process with its pid, and it has been dropped
      have hqp : q = p := List.inj_on_of_nodup_map hpids hq.mem hp.mem (hpid.symm.trans hppid)
      obtain ⟨-, -, -, hdq⟩ := hq.survives
      exact absurd (hqp ▸ hd) hdq
    · exact Or.inr (Or.inr ⟨hback, hsh⟩)

/-- When the second run leaves no more: its table of hens gets full; or none does and every child is covered; or only
that of the first run does, and the second one leaves nothing. -/
def NoMore (l : List (Addr × Proc)) (A A' : Finset dev_t) (H H' : Finset pid_t) : Prop :=
  Overflow l A' H' ∨ (¬ Overflow l A H ∧ Covered l A A' H H') ∨
    (Overflow l A H ∧ ∀ p ∈ l.map Prod.snd, DroppedFirst A' p ∨ SparedBy l A' H' p)

include hA hH in
theorem orphans_subset_iff (hpids : ((l.map Prod.snd).map Proc.pid).Nodup) :
    (∀ x ∈ orphans l A' H' (shield A' l), x ∈ orphans l A H (shield A l)) ↔ NoMore l A A' H H' := by
  unfold NoMore
  by_cases hover' : Overflow l A' H'
  · refine iff_of_true (fun x hx => ?_) (Or.inl hover')
    exact absurd hover' (mem_orphans.1 hx).1
  · have hcard : H'.card < HENMAX := by
      refine lt_of_le_of_lt (Finset.card_le_card fun k hk => ?_) (not_le.1 hover')
      exact mem_hensOf.2 (Or.inl hk)
    have hleft : ∀ x, x ∈ orphans l A' H' (shield A' l) ↔
        x ∈ l ∧ ¬ (DroppedFirst A' x.2 ∨ SparedBy l A' H' x.2) := by
      intro x
      rw [mem_orphans, not_or]
      exact and_iff_right hover'
    by_cases hover : Overflow l A H
    · have hnone : ∀ x, x ∉ orphans l A H (shield A l) := fun x hx => (mem_orphans.1 hx).1 hover
      simp only [hover', hover, not_true_eq_false, false_and, false_or, true_and, hnone, hleft, imp_false, not_and,
        not_not, List.forall_mem_map]
    · simp only [hover', hover, not_false_eq_true, false_and, false_or, or_false, true_and]
      constructor
      · intro hsub
        refine covered_of_spared hA hpids fun p hp => ?_
        by_contra hlost
        obtain ⟨x, hx, rfl, -⟩ := hp.survives
        exact (mem_orphans.1 (hsub x ((hleft x).2 ⟨hx, hlost⟩))).2.2.2 hp
      · intro hcover x hx
        obtain ⟨hmem, hlost⟩ := (hleft x).1 hx
        refine mem_orphans.2 ⟨hover, hmem, fun hd => hlost (Or.inl (hd.mono hA)), fun hs => hlost ?_⟩
        exact spared_or_dropped hA hH hcard hcover hs

end TwoRuns

/-! ## Two runs -/

/-- `find_orph` ends, and leaves these processes on the list -/
def Leaves (fuel : ℕ) (s : State) (left : List (Addr × Proc)) : Prop :=
  ∃ b s', find_orph fuel s = some (b, s') ∧ Holds s' left

/-- **Two runs.** On the same processes, with distinct pids, both runs end; and where all active ttys and hens of the
first are such in the second, the second leaves no process that the first does not if and only if `NoMore` holds. -/
theorem find_orph_monotone_iff {s s' : State} {l : List (Addr × Proc)} {A A' : Finset dev_t} {H H' : Finset pid_t}
    (hs : Holds s l) (hs' : Holds s' l) (hpos : ∀ x ∈ l, x.2.pid ≠ 0) (hpids : ((l.map Prod.snd).map Proc.pid).Nodup)
    (hactive : Sound NODEV ACTIVEMAX s.tables.active A) (hactive' : Sound NODEV ACTIVEMAX s'.tables.active A')
    (hhen : Sound 0 HENMAX s.tables.hen H) (hhen' : Sound 0 HENMAX s'.tables.hen H')
    (hA : ∀ d, IsActive A d → IsActive A' d) (hH : ∀ k, HENMAX ≤ H.card ∨ k ∈ H → HENMAX ≤ H'.card ∨ k ∈ H') :
    ∃ left left', (∀ fuel, l.length + 1 < fuel → Leaves fuel s left ∧ Leaves fuel s' left') ∧
      ((∀ x ∈ left', x ∈ left) ↔ NoMore l A A' H H') := by
  refine ⟨_, _, fun fuel hfuel => ?_, orphans_subset_iff hA hH hpids⟩
  obtain ⟨s₁, hrun, hs₁, -⟩ := find_orph_spec hs hpos hactive hhen hfuel
  obtain ⟨s₂, hrun', hs₂, -⟩ := find_orph_spec hs' hpos hactive' hhen' hfuel
  exact ⟨⟨_, s₁, hrun, hs₁⟩, _, s₂, hrun', hs₂⟩

/-! ### A child of a hen, and its child -/

/-- a child of process 50 on tty 5 -/
def shell : Proc := ⟨100, 50, 7, 7, true, 5, (0, 0), [], [], [], false, false⟩

/-- a child of it without control tty -/
def job : Proc := ⟨101, 100, 7, 7, false, NODEV, (0, 0), [], [], [], false, false⟩

def family : List (Addr × Proc) := [(0, shell), (1, job)]

/-- the two processes in the heap -/
def familyState (active : Active) (hen : Hens) : State where
  heap a := if a = 0 then some ⟨shell, some 1⟩ else if a = 1 then some ⟨job, none⟩ else none
  proclist := some 0
  tables := ⟨active, hen, ⟨fun _ => 0, 0⟩, false⟩

theorem holds_familyState (active : Active) (hen : Hens) : Holds (familyState active hen) family := by
  refine ⟨rfl, ⟨_, rfl, rfl, rfl⟩, ⟨_, rfl, rfl, rfl⟩, trivial⟩

def noActive : Active := init_active ⟨fun _ => 0, 0⟩

theorem noActive_sound : Sound NODEV ACTIVEMAX noActive ∅ := sound_init (⟨fun _ => 0, 0⟩ : Active)

theorem not_isActive_empty (d : dev_t) : ¬ IsActive ∅ d := by simp [IsActive, ACTIVEMAX]

/-- process 50 is made a hen -/
theorem hen_added : ∃ K, add_hen noHens 50 = some K ∧ Sound 0 HENMAX K {50} :=
  noHens_sound.add_set (by decide) (by decide : (50 : pid_t) ≠ 0)

theorem not_overflow_family (A : Finset dev_t) : ¬ Overflow family A {50} := by
  have hcard : (hensOf (family.map Prod.snd) A {50} (shield A family)).card ≤ 1 + 2 := by
    refine (Finset.card_union_le _ _).trans (Nat.add_le_add_left ?_ 1)
    refine (List.toFinset_card_le _).trans ?_
    rw [List.length_map]
    exact List.length_filter_le _ _
  rw [Overflow, HENMAX]
  omega

/-- while the tty is not active both are spared -/
theorem family_spared : orphans family ∅ {50} (shield ∅ family) = [] := by
  have hshell : SparedBy family ∅ {50} shell := .hen (by decide) (by decide) (by decide)
  have hjob : SparedBy family ∅ {50} job := .child (by decide) (by decide) hshell rfl
  refine List.eq_nil_iff_forall_not_mem.2 fun x hx => ?_
  obtain ⟨-, hmem, -, hspared⟩ := mem_orphans.1 hx
  rcases List.mem_pair.1 hmem with rfl | rfl
  · exact hspared hshell
  · exact hspared hjob

/-- when it is, the second is not -/
theorem job_not_spared : ¬ SparedBy family {5} {50} job := by
  intro h
  rcases h with ⟨-, -, hhen⟩ | @⟨_, q, -, -, hq, hpid⟩ | ⟨-, -, hback, -⟩
  · exact absurd hhen (by decide)
  · obtain ⟨x, hx, rfl, hd⟩ := hq.survives
    rcases List.mem_pair.1 hx with rfl | rfl
    · exact hd (by decide)
    · exact absurd hpid (by decide)
  · exact absurd hback (by decide)

theorem job_left : orphans family {5} {50} (shield {5} family) = [(1, job)] := by
  classical
  have hroom : ¬ HENMAX ≤ (hensOf (family.map Prod.snd) {5} {50} (shield {5} family)).card := not_overflow_family {5}
  rw [orphans, if_neg hroom]
  have hshell : DroppedFirst {5} shell := by decide
  have hjob : ¬ DroppedFirst {5} job := by decide
  refine (List.filter_cons_of_neg fun h => ?_).trans (List.filter_cons_of_pos ?_)
  · exact (of_decide_eq_true h).1 hshell
  · exact decide_eq_true ⟨hjob, job_not_spared⟩

/-- the two runs of the family -/
theorem find_orph_monotone_family : ∃ T K, set_active noActive 5 = some T ∧ add_hen noHens 50 = some K ∧
    ∃ left left', (∀ fuel, family.length + 1 < fuel →
        Leaves fuel (familyState noActive K) left ∧ Leaves fuel (familyState T K) left') ∧
      ((∀ x ∈ left', x ∈ left) ↔ NoMore family ∅ {5} {50} {50}) := by
  obtain ⟨T, hT, hactive⟩ := tty_active
  obtain ⟨K, hK, hhen⟩ := hen_added
  refine ⟨T, K, hT, hK, ?_⟩
  exact find_orph_monotone_iff (holds_familyState noActive K) (holds_familyState T K) (by decide) (by decide)
    noActive_sound hactive hhen hhen (fun d hd => absurd hd (not_isActive_empty d)) (fun _ => id)

/-- the job is left, and may be killed, only if tty 5 is active -/
theorem hen_logged_in : ∃ T K, set_active noActive 5 = some T ∧ add_hen noHens 50 = some K ∧
    Leaves 4 (familyState noActive K) [] ∧ Leaves 4 (familyState T K) [(1, job)] := by
  obtain ⟨T, hT, hactive⟩ := tty_active
  obtain ⟨K, hK, hhen⟩ := hen_added
  obtain ⟨s₁, hrun, hs₁, -⟩ :=
    find_orph_spec (holds_familyState noActive K) (by decide) noActive_sound hhen (by decide : _ < 4)
  obtain ⟨s₂, hrun', hs₂, -⟩ :=
    find_orph_spec (holds_familyState T K) (by decide) hactive hhen (by decide : _ < 4)
  rw [family_spared] at hs₁
  rw [job_left] at hs₂
  exact ⟨T, K, hT, hK, ⟨_, s₁, hrun, hs₁⟩, _, s₂, hrun', hs₂⟩

end MNetSoft.Robocop
