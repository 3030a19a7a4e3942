/-
The final choice of orphans in robocop (`find_orph` and `drop_orph` of `scanproc.c`): the list of processes that
`scan_proc` left, a singly linked list in the heap, is gone through again and again, and processes are dropped from it
that are not to be killed. Bad pointers, and loops that have not ended within the fuel given, give `none`.

- `find_orph`: the three passes over the list, with the hash tables they look into and add to.
- `Spared`: the least set of processes protected by hens, by protected processes and by screen.
- `find_orph_spec`: what is left on the list, for any list and any tables.
- `find_orph_correct`: the same where no table is full, and what holds when one is.
- `root_screen`: a counterexample to the rule for screen without its exception of user 0.
-/
import Mathlib.Tactic
import MNetSoft.Core.LinkedList
import MNetSoft.Core.Saturation
import MNetSoft.Robocop.Tables

namespace MNetSoft.Robocop

open MNetSoft.CString MNetSoft.LinkedList MNetSoft.Saturation

/-! ## Model -/

/-- what is kept of a process -/
structure Proc where
  pid : pid_t
  ppid : pid_t
  uid : uid_t
  euid : uid_t
  has_ctty : Bool
  ctty : dev_t
  start : ℤ × ℤ
  comm : Str
  args : Str
  user : Str
  am_sh : Bool
  am_screen : Bool
deriving DecidableEq

/-- a node of the list -/
structure myproc extends Proc where
  next : Option Addr

/-- the hash tables, and whether another pass is to be made -/
structure Tables where
  active : Active
  hen : Hens
  screener : Screeners
  do_another_pass : Bool

structure State where
  heap : Heap myproc
  proclist : Option Addr
  tables : Tables

/-- is the second string part of the first -/
def strstr (s t : Str) : Bool := decide (t <:+: s)

/-- unlink and free the process `mp`, between `pmp` and `nmp`; `mp` becomes `pmp` -/
def drop_orph (mp : Addr) (pmp nmp : Option Addr) (s : State) : Option (Option Addr × State) :=
  let s := { s with heap := free mp s.heap }
  match pmp with
  | none => some (pmp, { s with proclist := nmp })
  | some p => (s.heap p).map fun m => (pmp, { s with heap := store p { m with next := nmp } s.heap })

/-- the loop over the list from `mp` on; the body tells whether to drop the process -/
def procLoop (body : Proc → Tables → Option (Bool × Tables)) : ℕ → Option Addr → Option Addr → State → Option State
  | 0, _, _, _ => none
  | _ + 1, none, _, s => some s
  | fuel + 1, some mp, pmp, s =>
    (s.heap mp).bind fun m =>
      let nmp := m.next
      (body m.toProc s.tables).bind fun r =>
        let s := { s with tables := r.2 }
        if r.1 then (drop_orph mp pmp nmp s).bind fun q => procLoop body fuel nmp q.1 q.2
        else procLoop body fuel nmp (some mp) s

/-- one pass over the whole list -/
def forProcs (body : Proc → Tables → Option (Bool × Tables)) (fuel : ℕ) (s : State) : Option State :=
  procLoop body fuel s.proclist none s

/-- first pass: drop processes on marked ttys, and shells that run the mailer -/
def onMarked (m : Proc) (t : Tables) : Option (Bool × Tables) :=
  (if m.has_ctty then get_active t.active m.ctty else some false).bind fun marked =>
    if marked then
      if m.am_screen then (add_screener t.screener m.uid).map fun screener => (true, { t with screener := screener })
      else some (true, t)
    else if m.am_sh && strstr m.args "sendmail".toList then some (true, t)
    else if m.am_sh && strstr m.args "master".toList then some (true, t)
    else some (false, t)

/-- second pass: drop children of hens and protected screen processes, and make them hens -/
def onScreen (m : Proc) (t : Tables) : Option (Bool × Tables) :=
  (is_hen t.hen m.ppid).bind fun chick =>
    (if chick then some true
      else if m.am_screen && !m.has_ctty then is_screener t.screener m.uid else some false).bind fun drop =>
      if drop then (add_hen t.hen m.pid).map fun hen => (true, { t with hen := hen, do_another_pass := true })
      else some (false, t)

/-- third pass: drop children of hens, and make them hens -/
def onChick (m : Proc) (t : Tables) : Option (Bool × Tables) :=
  (is_hen t.hen m.ppid).bind fun drop =>
    if drop then (add_hen t.hen m.pid).map fun hen => (true, { t with hen := hen, do_another_pass := true })
    else some (false, t)

/-- the third pass is made again while it drops processes -/
def chickLoop (n : ℕ) : ℕ → State → Option State
  | 0, _ => none
  | fuel + 1, s =>
    if s.tables.do_another_pass then
      (forProcs onChick n { s with tables := { s.tables with do_another_pass := false } }).bind fun s =>
        chickLoop n fuel s
    else some s

/-- drop the processes that are no orphans; are there any left -/
def find_orph (fuel : ℕ) (s : State) : Option (Bool × State) :=
  let s := { s with tables := { s.tables with do_another_pass := true, screener := init_screener s.tables.screener } }
  (forProcs onMarked fuel s).bind fun s =>
    (forProcs onScreen fuel s).bind fun s =>
      (chickLoop fuel fuel s).map fun s => (s.proclist.isSome, s)

/-! ## The rule -/

/-- the tty counts as active -/
def IsActive (A : Finset dev_t) (d : dev_t) : Prop := ACTIVEMAX ≤ A.card ∨ d ∈ A

instance (A : Finset dev_t) : DecidablePred (IsActive A) := fun _ => by
  unfold IsActive
  infer_instance

/-- a process on an active tty -/
def Marked (A : Finset dev_t) (p : Proc) : Prop := p.has_ctty = true ∧ IsActive A p.ctty

instance (A : Finset dev_t) : DecidablePred (Marked A) := fun _ => by
  unfold Marked
  infer_instance

/-- a shell that runs the mailer -/
def ProtectedSh (p : Proc) : Prop :=
  p.am_sh = true ∧ (strstr p.args "sendmail".toList = true ∨ strstr p.args "master".toList = true)

instance : DecidablePred ProtectedSh := fun _ => by
  unfold ProtectedSh
  infer_instance

/-- the process is dropped by the first pass -/
def DroppedFirst (A : Finset dev_t) (p : Proc) : Prop := Marked A p ∨ ProtectedSh p

instance (A : Finset dev_t) : DecidablePred (DroppedFirst A) := fun _ => by
  unfold DroppedFirst
  infer_instance

/-- a screen process without a control tty -/
def Background (p : Proc) : Prop := p.am_screen = true ∧ p.has_ctty = false

instance : DecidablePred Background := fun _ => by
  unfold Background
  infer_instance

/-- the users that run screen on an active tty -/
def screenUsers (A : Finset dev_t) (L : List Proc) : Finset uid_t :=
  ((L.filter fun p => Marked A p ∧ p.am_screen).map Proc.uid).toFinset

/-- The least set of processes not dropped by the first pass that has the children of hens and of its members, and the
screen processes without control tty that are protected. -/
inductive Spared (L : List Proc) (A : Finset dev_t) (H : Finset pid_t) (shielded : Proc → Prop) : Proc → Prop where
  | hen {p : Proc} : p ∈ L → ¬ DroppedFirst A p → p.ppid ∈ H → Spared L A H shielded p
  | child {p q : Proc} : p ∈ L → ¬ DroppedFirst A p → Spared L A H shielded q → p.ppid = q.pid → Spared L A H shielded p
  | screen {p : Proc} : p ∈ L → ¬ DroppedFirst A p → Background p → shielded p → Spared L A H shielded p

/-! ## The list in the heap -/

/-- the node holds the process and points to the node after it -/
def Node (p : Proc) (_ : Option Addr) (m : myproc) (c : Option Addr) : Prop := m.toProc = p ∧ m.next = c

theorem node_next (p p' : Proc) (b b' : Option Addr) (m : myproc) (c c' : Option Addr) (h : Node p b m c)
    (h' : Node p' b' m c') : p = p' ∧ c = c' :=
  ⟨h.1.symm.trans h'.1, h.2.symm.trans h'.2⟩

/-- the process list consists of these nodes -/
structure Holds (s : State) (l : List (Addr × Proc)) : Prop where
  start : s.proclist = first l none
  links : Links Node s.heap none l none

theorem Holds.nodup {s : State} {l : List (Addr × Proc)} (h : Holds s l) : (addrs l).Nodup := h.links.nodup node_next

/-- the node before a node makes no difference to it -/
theorem links_before {h : Heap myproc} {b : Option Addr} {l : List (Addr × Proc)} {c : Option Addr}
    (hl : Links Node h b l c) (b' : Option Addr) : Links Node h b' l c := by
  cases l with
  | nil => exact links_nil
  | cons x l => exact hl

/-- a dropped process is unlinked, and no other -/
theorem drop_orph_spec {s : State} {done todo : List (Addr × Proc)} {a : Addr} {p : Proc}
    (hs : Holds s (done ++ (a, p) :: todo)) :
    ∃ s', drop_orph a (last none done) (first todo none) s = some (last none done, s') ∧ s'.tables = s.tables ∧
      Holds s' (done ++ todo) := by
  have hnodup := hs.nodup
  simp only [addrs_append, addrs_cons, List.nodup_append, List.nodup_cons, List.mem_cons] at hnodup
  obtain ⟨hdone, ⟨htodo, -⟩, hapart⟩ := hnodup
  have hmem : a ∉ addrs done := fun ha => hapart a ha a (Or.inl rfl) rfl
  obtain ⟨hstart, hlinks⟩ := hs
  rw [links_append, links_cons] at hlinks
  obtain ⟨hfront, -, hback⟩ := hlinks
  replace hfront := hfront.free hmem
  replace hback := hback.free htodo
  rcases last_cases done with rfl | ⟨front, d, q, rfl⟩
  · exact ⟨_, rfl, rfl, rfl, links_before hback none⟩
  · rw [last_concat]
    obtain ⟨m, hm⟩ := hfront.isSome (a := d) (by simp)
    have hd : d ∉ addrs front := by
      rw [addrs_append, addrs_cons, addrs_nil] at hdone
      exact fun hd => (List.nodup_append.1 hdone).2.2 d hd d (by simp) rfl
    have hd' : d ∉ addrs todo := fun hd => hapart d (by simp) d (Or.inr hd) rfl
    refine ⟨{ s with heap := store d { m with next := first todo none } (free a s.heap) }, ?_, rfl, ?_, ?_⟩
    · unfold drop_orph
      exact Option.map_eq_some_iff.2 ⟨m, hm, rfl⟩
    · rw [hstart, first_append, first_append, first_append, first_append]
      rfl
    · rw [links_append, last_concat]
      refine ⟨hfront.store_last hd ?_, links_before (hback.store hd' _) _⟩
      intro b' m' hm' h
      rcases h with ⟨hval, -⟩
      obtain rfl := Option.some.inj (hm.symm.trans hm')
      exact ⟨hval, rfl⟩

/-- the body of a loop visits the processes of a list as a sweep does -/
def Visits {κ : Type} (body : Proc → Tables → Option (Bool × Tables)) (Rel : Tables → κ → Prop)
    (visit : κ → Addr × Proc → Option κ) (l : List (Addr × Proc)) : Prop :=
  ∀ x ∈ l, ∀ t k, Rel t k → ∃ t', body x.2 t = some ((visit k x).isSome, t') ∧ Rel t' ((visit k x).getD k)

/-- then the loop is the sweep -/
theorem procLoop_spec {κ : Type} {body : Proc → Tables → Option (Bool × Tables)} {Rel : Tables → κ → Prop}
    {visit : κ → Addr × Proc → Option κ} (done : List (Addr × Proc)) {todo : List (Addr × Proc)} {s : State} {k : κ}
    {fuel : ℕ} (hbody : Visits body Rel visit todo) (hrel : Rel s.tables k) (hs : Holds s (done ++ todo))
      (hfuel : todo.length < fuel) :
    ∃ s', procLoop body fuel (first todo none) (last none done) s = some s' ∧ Rel s'.tables (sweep visit k todo).1 ∧
      Holds s' (done ++ (sweep visit k todo).2) := by
  induction todo generalizing done s k fuel with
  | nil =>
    obtain ⟨fuel, rfl⟩ := Nat.exists_eq_add_of_lt hfuel
    exact ⟨s, rfl, hrel, hs⟩
  | cons x todo ih =>
    obtain ⟨a, p⟩ := x
    obtain ⟨fuel, rfl⟩ : ∃ n, fuel = n + 1 := ⟨fuel - 1, by omega⟩
    rw [List.length_cons, Nat.add_lt_add_iff_right] at hfuel
    rw [Visits, List.forall_mem_cons] at hbody
    obtain ⟨hbody, hrest⟩ := hbody
    obtain ⟨m, hm, rfl, hnext⟩ := (links_cons.1 (links_append.1 hs.links).2).1
    obtain ⟨t', ht', hrel'⟩ := hbody s.tables k hrel
    have hs' : Holds { s with tables := t' } (done ++ (a, m.toProc) :: todo) := ⟨hs.start, hs.links⟩
    rw [first_cons, procLoop, hm, Option.bind_some, ht', Option.bind_some, hnext]
    cases hv : visit k (a, m.toProc) with
    | none =>
      rw [hv] at hrel'
      rw [sweep_stay hv]
      have hnode := ih (done ++ [(a, m.toProc)]) hrest hrel' (by simpa using hs') hfuel
      rw [last_concat] at hnode
      simpa using hnode
    | some k' =>
      rw [hv] at hrel'
      rw [sweep_go hv]
      obtain ⟨s₂, hdrop, htables, hs₂⟩ := drop_orph_spec hs'
      dsimp only [Option.isSome_some]
      rw [if_pos rfl, hdrop, Option.bind_some]
      exact ih done hrest (by rw [htables]; exact hrel') hs₂ hfuel

theorem forProcs_spec {κ : Type} {body : Proc → Tables → Option (Bool × Tables)} {Rel : Tables → κ → Prop}
    {visit : κ → Addr × Proc → Option κ} {l : List (Addr × Proc)} {s : State} {k : κ} {fuel : ℕ}
    (hbody : Visits body Rel visit l) (hrel : Rel s.tables k) (hs : Holds s l) (hfuel : l.length < fuel) :
    ∃ s', forProcs body fuel s = some s' ∧ Rel s'.tables (sweep visit k l).1 ∧ Holds s' (sweep visit k l).2 := by
  rw [forProcs, hs.start]
  exact procLoop_spec [] hbody hrel hs hfuel

/-! ## The first pass -/

/-- The table of screeners holds a set of users; its count is too high by the times user 0 was put in, who stands for an
empty slot. -/
structure Screens (T : Screeners) (k : Finset uid_t × ℕ) : Prop where
  sound : Sound 0 MAXSCREENERS (⟨T.slots, k.1.card⟩ : Screeners) k.1
  count_eq : T.count = k.1.card + k.2

/-- a user counts as a screener -/
def Shielded (k : Finset uid_t × ℕ) (u : uid_t) : Prop := MAXSCREENERS ≤ k.1.card + k.2 ∨ u ∈ k.1

instance (k : Finset uid_t × ℕ) : DecidablePred (Shielded k) := fun _ => by
  unfold Shielded
  infer_instance

/-- a user is added to the table -/
def addScreen (k : Finset uid_t × ℕ) (u : uid_t) : Finset uid_t × ℕ :=
  if MAXSCREENERS ≤ k.1.card + k.2 then k else if u = 0 then (k.1, k.2 + 1) else (insert u k.1, k.2)

theorem screens_init (T : Screeners) : Screens (init_screener T) (∅, 0) := ⟨sound_init T, rfl⟩

section Screens

variable {T : Screeners} {k : Finset uid_t × ℕ}

theorem Screens.zero_not_mem (h : Screens T k) : (0 : uid_t) ∉ k.1 := by
  rw [h.sound.keys_eq]
  exact Finset.notMem_erase _ _

theorem Screens.is_screener (h : Screens T k) (u : uid_t) : is_screener T u = some (decide (Shielded k u)) := by
  by_cases hfull : MAXSCREENERS ≤ k.1.card + k.2
  · have hcount : T.count ≥ MAXSCREENERS := by rw [h.count_eq]; exact hfull
    simp [Robocop.is_screener, Robocop.in_set, hcount, Shielded, hfull]
  · have hcount : ¬ T.count ≥ MAXSCREENERS := by rw [h.count_eq]; exact hfull
    have hcard : ¬ MAXSCREENERS ≤ k.1.card := by omega
    have hin := h.sound.in_set (by decide) u
    rw [Robocop.in_set, if_neg hcard] at hin
    rw [Robocop.is_screener, Robocop.in_set, if_neg hcount, hin]
    simp [Shielded, hfull, hcard]

theorem Screens.add_screener (h : Screens T k) (u : uid_t) :
    ∃ T', add_screener T u = some T' ∧ Screens T' (addScreen k u) := by
  unfold addScreen
  by_cases hfull : MAXSCREENERS ≤ k.1.card + k.2
  · have hcount : T.count ≥ MAXSCREENERS := by rw [h.count_eq]; exact hfull
    rw [Robocop.add_screener, Robocop.add_set, if_pos hcount, if_pos hfull]
    exact ⟨T, rfl, h⟩
  · have hcount : ¬ T.count ≥ MAXSCREENERS := by rw [h.count_eq]; exact hfull
    have hcard : ¬ MAXSCREENERS ≤ k.1.card := by omega
    have hlt : (⟨T.slots, k.1.card⟩ : Screeners).count < SCREENERSIZE :=
      lt_of_not_ge fun hge => hcard (le_trans (by decide) hge)
    obtain ⟨i, hi, hval⟩ := h.sound.find_spec hlt u
    rw [Robocop.add_screener, Robocop.add_set, find_screener, if_neg hcount, if_neg hfull, hi, Option.map_some]
    refine ⟨_, rfl, ?_⟩
    by_cases hu : u = 0
    · -- the empty slot is filled with the value that stands for empty
      subst hu
      have hslot : T.slots i = 0 := not_not.1 fun hne => h.zero_not_mem (hval.1 hne)
      rw [if_pos hslot, if_pos rfl, ← hslot, Function.update_eq_self]
      exact ⟨h.sound, by rw [h.count_eq]; exact add_assoc ..⟩
    · rw [if_neg hu]
      obtain ⟨T', hT', hsound⟩ := h.sound.add_set (by decide) hu
      rw [Robocop.add_set, if_neg hcard, hi, Option.map_some, Option.some.injEq] at hT'
      rw [if_neg hcard] at hsound
      by_cases hmem : u ∈ k.1
      · rw [if_neg (hval.2 hmem)]
        rw [Finset.insert_eq_of_mem hmem]
        exact h
      · have hslot : T.slots i = 0 := not_not.1 fun hne => hmem (hval.1 hne)
        rw [if_pos hslot] at hT' ⊢
        have hnew := Finset.card_insert_of_notMem hmem
        rw [← hT'] at hsound
        refine ⟨?_, ?_⟩
        · dsimp only
          rw [hnew]
          exact hsound
        · dsimp only
          rw [hnew, h.count_eq]
          omega

end Screens

/-- what the first pass does with a process -/
def visitMarked (A : Finset dev_t) (k : Finset uid_t × ℕ) (x : Addr × Proc) : Option (Finset uid_t × ℕ) :=
  if Marked A x.2 then some (if x.2.am_screen then addScreen k x.2.uid else k)
  else if ProtectedSh x.2 then some k
  else none

theorem visitMarked_isSome (A : Finset dev_t) (k : Finset uid_t × ℕ) (x : Addr × Proc) :
    (visitMarked A k x).isSome = decide (DroppedFirst A x.2) := by
  unfold visitMarked DroppedFirst
  by_cases hm : Marked A x.2
  · simp [hm]
  · by_cases hp : ProtectedSh x.2
    · simp [hm, hp]
    · simp [hm, hp]

/-- the first pass looks at a process -/
theorem onMarked_spec {A : Finset dev_t} {t : Tables} (hA : Sound NODEV ACTIVEMAX t.active A) {k : Finset uid_t × ℕ}
    (hk : Screens t.screener k) (x : Addr × Proc) :
    ∃ T, onMarked x.2 t = some ((visitMarked A k x).isSome, { t with screener := T }) ∧
      Screens T ((visitMarked A k x).getD k) := by
  obtain ⟨a, m⟩ := x
  have hmarked : (if m.has_ctty then get_active t.active m.ctty else some false) = some (decide (Marked A m)) := by
    by_cases hc : m.has_ctty = true
    · rw [if_pos hc, get_active, hA.in_set (by decide)]
      simp [Marked, IsActive, hc]
    · simp [Marked, hc]
  have hsh : (if m.am_sh && strstr m.args "sendmail".toList then some (true, t)
      else if m.am_sh && strstr m.args "master".toList then some (true, t) else some (false, t)) =
      some (decide (ProtectedSh m), t) := by
    unfold ProtectedSh
    by_cases h₁ : m.am_sh = true
    · by_cases h₂ : strstr m.args "sendmail".toList = true
      · simp only [h₁, h₂, Bool.and_self, if_true, true_or, and_self, decide_true]
      · simp only [h₁, h₂, Bool.true_and, Bool.false_eq_true, if_false, false_or, true_and]
        by_cases h₃ : strstr m.args "master".toList = true
        · simp only [h₃, if_true, decide_true]
        · simp only [h₃, Bool.false_eq_true, if_false, decide_false]
    · simp [h₁]
  unfold onMarked visitMarked
  rw [hmarked, Option.bind_some]
  by_cases hm : Marked A m
  · rw [if_pos (decide_eq_true hm), if_pos hm]
    by_cases hs : m.am_screen = true
    · obtain ⟨T, hT, hscreens⟩ := hk.add_screener m.uid
      exact ⟨T, by rw [if_pos hs, hT]; rfl, by simpa [hs] using hscreens⟩
    · exact ⟨t.screener, by rw [if_neg hs]; rfl, by simpa [hs] using hk⟩
  · rw [if_neg (by simp [hm]), if_neg hm, hsh]
    by_cases hp : ProtectedSh m
    · exact ⟨t.screener, by simp [hp], by simpa [hp] using hk⟩
    · exact ⟨t.screener, by simp [hp], by simpa [hp] using hk⟩

/-! ## The other passes -/

/-- the process counts as the child of a hen -/
def IsChick (K : Finset pid_t) (p : Proc) : Prop := HENMAX ≤ K.card ∨ p.ppid ∈ K

instance (K : Finset pid_t) : DecidablePred (IsChick K) := fun _ => by
  unfold IsChick
  infer_instance

/-- a process becomes a hen, if there is room -/
def addPid (K : Finset pid_t) (k : pid_t) : Finset pid_t := if HENMAX ≤ K.card then K else insert k K

def addHen (K : Finset pid_t) (x : Addr × Proc) : Finset pid_t := addPid K x.2.pid

/-- what the third pass does with a process -/
def visitChick (K : Finset pid_t) (x : Addr × Proc) : Option (Finset pid_t) :=
  if IsChick K x.2 then some (addHen K x) else none

/-- what the second pass does with a process -/
def visitScreen (k : Finset uid_t × ℕ) (K : Finset pid_t) (x : Addr × Proc) : Option (Finset pid_t) :=
  if IsChick K x.2 ∨ (Background x.2 ∧ Shielded k x.2.uid) then some (addHen K x) else none

theorem subset_addPid (K : Finset pid_t) (k : pid_t) : K ⊆ addPid K k := by
  unfold addPid
  split_ifs
  · exact Finset.Subset.refl K
  · exact Finset.subset_insert ..

theorem subset_addHen (K : Finset pid_t) (x : Addr × Proc) : K ⊆ addHen K x := subset_addPid K x.2.pid

section Passes

variable {t : Tables} {K : Finset pid_t} {x : Addr × Proc}

/-- the process becomes a hen and is dropped, or it is left alone -/
theorem henned (hK : Sound 0 HENMAX t.hen K) (hx : x.2.pid ≠ 0) (drop : Prop) [Decidable drop] :
    ∃ T, (if decide drop then
        (add_hen t.hen x.2.pid).map fun hen => (true, { t with hen := hen, do_another_pass := true })
        else some (false, t)) =
      some (decide drop, { t with hen := T, do_another_pass := decide drop || t.do_another_pass }) ∧
      Sound 0 HENMAX T (if drop then addHen K x else K) := by
  by_cases hd : drop
  · obtain ⟨T, hT, hsound⟩ := hK.add_set (by decide) hx
    refine ⟨T, ?_, ?_⟩
    · rw [if_pos (decide_eq_true hd), add_hen, hT]
      simp [hd]
    · rw [if_pos hd]
      exact hsound
  · refine ⟨t.hen, ?_, ?_⟩
    · simp [hd]
    · rw [if_neg hd]
      exact hK

/-- the third pass looks at a process -/
theorem onChick_spec (hK : Sound 0 HENMAX t.hen K) (hx : x.2.pid ≠ 0) :
    ∃ T, onChick x.2 t = some ((visitChick K x).isSome,
        { t with hen := T, do_another_pass := (visitChick K x).isSome || t.do_another_pass }) ∧
      Sound 0 HENMAX T ((visitChick K x).getD K) := by
  have hisSome : (visitChick K x).isSome = decide (IsChick K x.2) := by
    unfold visitChick
    split_ifs with h
    · simp [h]
    · simp [h]
  have hgetD : (visitChick K x).getD K = if IsChick K x.2 then addHen K x else K := by
    unfold visitChick
    split_ifs
    · rfl
    · rfl
  rw [hisSome, hgetD]
  unfold onChick
  rw [is_hen, hK.in_set (by decide), Option.bind_some]
  exact henned hK hx (IsChick K x.2)

/-- the second pass looks at a process -/
theorem onScreen_spec {k : Finset uid_t × ℕ} (hU : Screens t.screener k) (hK : Sound 0 HENMAX t.hen K)
    (hx : x.2.pid ≠ 0) :
    ∃ T, onScreen x.2 t = some ((visitScreen k K x).isSome,
        { t with hen := T, do_another_pass := (visitScreen k K x).isSome || t.do_another_pass }) ∧
      Sound 0 HENMAX T ((visitScreen k K x).getD K) := by
  have hisSome : (visitScreen k K x).isSome = decide (IsChick K x.2 ∨ (Background x.2 ∧ Shielded k x.2.uid)) := by
    unfold visitScreen
    split_ifs with h
    · simp [h]
    · simp [h]
  have hgetD : (visitScreen k K x).getD K =
      if IsChick K x.2 ∨ (Background x.2 ∧ Shielded k x.2.uid) then addHen K x else K := by
    unfold visitScreen
    split_ifs
    · rfl
    · rfl
  have hdrop : (if decide (IsChick K x.2) then some true
      else if x.2.am_screen && !x.2.has_ctty then is_screener t.screener x.2.uid else some false) =
      some (decide (IsChick K x.2 ∨ (Background x.2 ∧ Shielded k x.2.uid))) := by
    by_cases hc : IsChick K x.2
    · simp [hc]
    · rw [if_neg (by simp [hc]), hU.is_screener]
      by_cases hb : Background x.2
      · rw [if_pos (by simp [hb.1, hb.2])]
        simp [hc, hb]
      · rw [if_neg (by simpa [Background] using hb)]
        simp [hc, hb]
  obtain ⟨T, hT, hsound⟩ := henned hK hx (IsChick K x.2 ∨ (Background x.2 ∧ Shielded k x.2.uid))
  rw [hisSome, hgetD]
  refine ⟨T, ?_, hsound⟩
  unfold onScreen
  rw [is_hen, hK.in_set (by decide), Option.bind_some]
  exact Eq.trans (congrArg (fun o => Option.bind o _) hdrop) hT

end Passes

/-! ## The users of screen -/

theorem mem_screenUsers {A : Finset dev_t} {L : List Proc} {u : uid_t} :
    u ∈ screenUsers A L ↔ ∃ p ∈ L, Marked A p ∧ p.am_screen = true ∧ p.uid = u := by
  simp [screenUsers, and_assoc]

/-- the users the first pass puts in the table -/
structure Gathered (users : Finset uid_t) (k : Finset uid_t × ℕ) : Prop where
  subset : k.1 ⊆ users
  complete : k.1.card + k.2 < MAXSCREENERS → ∀ u ∈ users, u ≠ 0 → u ∈ k.1
  excess : 0 ∉ users → k.2 = 0

theorem Gathered.add {users : Finset uid_t} {k : Finset uid_t × ℕ} (h : Gathered users k) (u : uid_t) :
    Gathered (insert u users) (addScreen k u) := by
  unfold addScreen
  by_cases hfull : MAXSCREENERS ≤ k.1.card + k.2
  · rw [if_pos hfull]
    refine ⟨h.subset.trans (Finset.subset_insert ..), fun hlt => ?_, fun h0 => h.excess fun hu => h0 ?_⟩
    · exact absurd hfull (not_le.2 hlt)
    · exact Finset.mem_insert_of_mem hu
  · rw [if_neg hfull]
    by_cases hu : u = 0
    · rw [if_pos hu]
      refine ⟨h.subset.trans (Finset.subset_insert ..), fun _ w hw hw0 => ?_, fun h0 => ?_⟩
      · rcases Finset.mem_insert.1 hw with rfl | hw
        · exact absurd hu hw0
        · exact h.complete (by omega) w hw hw0
      · exact absurd (Finset.mem_insert.2 (Or.inl hu.symm)) h0
    · rw [if_neg hu]
      refine ⟨Finset.insert_subset_insert u h.subset, fun _ w hw hw0 => ?_, fun h0 => h.excess fun hu => h0 ?_⟩
      · rcases Finset.mem_insert.1 hw with rfl | hw
        · exact Finset.mem_insert_self ..
        · exact Finset.mem_insert_of_mem (h.complete (by omega) w hw hw0)
      · exact Finset.mem_insert_of_mem hu

/-- the table of screeners after the first pass -/
def screeners (A : Finset dev_t) (l : List (Addr × Proc)) : Finset uid_t × ℕ := (sweep (visitMarked A) (∅, 0) l).1

theorem gathered_sweep (A : Finset dev_t) (l : List (Addr × Proc)) :
    Gathered (screenUsers A (l.map Prod.snd)) (screeners A l) := by
  unfold screeners
  induction l using List.reverseRecOn with
  | nil => exact ⟨by simp [sweep_nil], by simp [screenUsers], fun _ => rfl⟩
  | append_singleton l x ih =>
    rw [sweep_marks] at ih ⊢
    rw [List.foldl_append, List.foldl_cons, List.foldl_nil]
    generalize l.foldl (fun k a => (visitMarked A k a).getD k) (∅, 0) = k at ih ⊢
    have husers : screenUsers A ((l ++ [x]).map Prod.snd) =
        if Marked A x.2 ∧ x.2.am_screen = true then insert x.2.uid (screenUsers A (l.map Prod.snd))
        else screenUsers A (l.map Prod.snd) := by
      unfold screenUsers
      by_cases hm : Marked A x.2 ∧ x.2.am_screen = true
      · rw [if_pos hm]
        simp [List.filter_append, hm, Finset.union_comm]
      · rw [if_neg hm]
        simp [List.filter_append, hm]
    rw [husers]
    unfold visitMarked
    by_cases hm : Marked A x.2
    · by_cases hs : x.2.am_screen = true
      · rw [if_pos hm, if_pos hs, if_pos ⟨hm, hs⟩]
        exact ih.add x.2.uid
      · rw [if_pos hm, if_neg hs, if_neg fun h => hs h.2]
        exact ih
    · rw [if_neg hm, if_neg fun h => hm h.1]
      split_ifs
      · exact ih
      · exact ih

/-! ## The least set -/

/-- the process is dropped by the second or third pass -/
def Drops (shielded : Proc → Prop) (K : Finset pid_t) (x : Addr × Proc) : Prop :=
  IsChick K x.2 ∨ (Background x.2 ∧ shielded x.2)

open Classical in
/-- the hens that the rule would make, whatever the size of the table -/
noncomputable def hensOf (L : List Proc) (A : Finset dev_t) (H : Finset pid_t) (shielded : Proc → Prop) :
    Finset pid_t :=
  H ∪ ((L.filter fun p => Spared L A H shielded p).map Proc.pid).toFinset

open Classical in
/-- what the rule leaves on the list: nothing, if the hens fill their table -/
noncomputable def orphans (l : List (Addr × Proc)) (A : Finset dev_t) (H : Finset pid_t) (shielded : Proc → Prop) :
    List (Addr × Proc) :=
  if HENMAX ≤ (hensOf (l.map Prod.snd) A H shielded).card then []
  else l.filter fun x => ¬ DroppedFirst A x.2 ∧ ¬ Spared (l.map Prod.snd) A H shielded x.2

theorem Spared.mem {L : List Proc} {A : Finset dev_t} {H : Finset pid_t} {f : Proc → Prop} {p : Proc}
    (hp : Spared L A H f p) : p ∈ L := by
  rcases hp with ⟨h, -, -⟩ | ⟨h, -, -, -⟩ | ⟨h, -, -, -⟩
  all_goals exact h

section Least

variable {l : List (Addr × Proc)} {A : Finset dev_t} {H : Finset pid_t} {shielded : Proc → Prop}

theorem mem_hensOf {k : pid_t} :
    k ∈ hensOf (l.map Prod.snd) A H shielded ↔ k ∈ H ∨ ∃ p, Spared (l.map Prod.snd) A H shielded p ∧ p.pid = k := by
  simp only [hensOf, Finset.mem_union, List.mem_toFinset, List.mem_map, List.mem_filter, decide_eq_true_eq]
  constructor
  · intro hx
    rcases hx with h | ⟨p, ⟨-, hp⟩, rfl⟩
    · exact Or.inl h
    · exact Or.inr ⟨p, hp, rfl⟩
  · intro hx
    rcases hx with h | ⟨p, hp, rfl⟩
    · exact Or.inl h
    · exact Or.inr ⟨p, ⟨List.mem_map.1 hp.mem, hp⟩, rfl⟩

theorem Spared.survives {p : Proc} (hp : Spared (l.map Prod.snd) A H shielded p) :
    ∃ x ∈ l, x.2 = p ∧ ¬ DroppedFirst A p := by
  rcases hp with ⟨h, hd, -⟩ | ⟨h, hd, -, -⟩ | ⟨h, hd, -, -⟩
  all_goals
    obtain ⟨x, hx, hxp⟩ := List.mem_map.1 h
    exact ⟨x, hx, hxp, hd⟩

/-- the list after the first pass -/
theorem mem_survivors {x : Addr × Proc} :
    x ∈ l.filter (fun x => !decide (DroppedFirst A x.2)) ↔ x ∈ l ∧ ¬ DroppedFirst A x.2 := by
  simp

/-- while there is room for hens, only processes are dropped that the rule spares -/
theorem spared_of_drops {K : Finset pid_t} {x : Addr × Proc} (hx : x ∈ l ∧ ¬ DroppedFirst A x.2)
    (hK : K ⊆ hensOf (l.map Prod.snd) A H shielded) (hroom : K.card < HENMAX) (hdrop : Drops shielded K x) :
    Spared (l.map Prod.snd) A H shielded x.2 := by
  have hmem : x.2 ∈ l.map Prod.snd := List.mem_map_of_mem hx.1
  rcases hdrop with (hfull | hppid) | ⟨hback, hsh⟩
  · omega
  · rcases mem_hensOf.1 (hK hppid) with h | ⟨q, hq, hpid⟩
    · exact .hen hmem hx.2 h
    · exact .child hmem hx.2 hq hpid.symm
  · exact .screen hmem hx.2 hback hsh

theorem room_of_addHen {K K' : Finset pid_t} {x : Addr × Proc} (hle : addHen K x ⊆ K') (hroom : K'.card < HENMAX) :
    K ⊆ K' ∧ K.card < HENMAX ∧ x.2.pid ∈ K' := by
  have hsub : K ⊆ K' := (subset_addHen K x).trans hle
  have hcard : K.card < HENMAX := (Finset.card_le_card hsub).trans_lt hroom
  refine ⟨hsub, hcard, hle ?_⟩
  rw [addHen, addPid, if_neg (not_le.2 hcard)]
  exact Finset.mem_insert_self ..

/-- **Any order.** However the processes are dropped, one at a time and until none is to be dropped, the rule says which
are left. -/
theorem elim_orphans {K : Finset pid_t} {l' : List (Addr × Proc)}
    (h : Elim (Drops shielded) addHen H (l.filter fun x => !decide (DroppedFirst A x.2)) K l')
    (hdone : ∀ x ∈ l', ¬ Drops shielded K x) :
    l' = orphans l A H shielded ∧ (HENMAX ≤ K.card ↔ HENMAX ≤ (hensOf (l.map Prod.snd) A H shielded).card) := by
  classical
  have hK : K ⊆ hensOf (l.map Prod.snd) A H shielded := by
    refine h.inv (P := fun K => K ⊆ hensOf (l.map Prod.snd) A H shielded) (fun k hk => mem_hensOf.2 (Or.inl hk)) ?_
    intro K₁ x hx hK₁ hdrop
    unfold addHen addPid
    split_ifs with hfull
    · exact hK₁
    · refine Finset.insert_subset (mem_hensOf.2 (Or.inr ⟨x.2, ?_, rfl⟩)) hK₁
      exact spared_of_drops (mem_survivors.1 hx) hK₁ (not_le.1 hfull) hdrop
  by_cases hfull : HENMAX ≤ K.card
  · -- every process left would be a chick
    have hnil : l' = [] := List.eq_nil_iff_forall_not_mem.2 fun x hx => hdone x hx (Or.inl (Or.inl hfull))
    have hfull' := hfull.trans (Finset.card_le_card hK)
    exact ⟨by rw [hnil, orphans, if_pos hfull'], iff_of_true hfull hfull'⟩
  · have hroom : K.card < HENMAX := not_le.1 hfull
    have hgone : ∀ x ∈ l, ¬ DroppedFirst A x.2 → x ∉ l' → x.2.pid ∈ K := by
      intro x hx hd hx'
      obtain ⟨K₁, -, hle⟩ := h.gone subset_addHen (mem_survivors.2 ⟨hx, hd⟩) hx'
      exact (room_of_addHen hle hroom).2.2
    have hspared : ∀ p, Spared (l.map Prod.snd) A H shielded p → ∀ x ∈ l, x.2 = p → x ∉ l' := by
      intro p hp
      induction hp with
      | hen _ _ hH =>
        rintro x hx rfl hx'
        exact hdone x hx' (Or.inl (Or.inr (h.le subset_addHen hH)))
      | child _ _ hq hpid ih =>
        rintro x hx rfl hx'
        obtain ⟨y, hy, rfl, hd⟩ := hq.survives
        refine hdone x hx' (Or.inl (Or.inr ?_))
        rw [hpid]
        exact hgone y hy hd (ih y hy rfl)
      | screen _ _ hback hsh =>
        rintro x hx rfl hx'
        exact hdone x hx' (Or.inr ⟨hback, hsh⟩)
    have hall : hensOf (l.map Prod.snd) A H shielded ⊆ K := by
      intro k hk
      rcases mem_hensOf.1 hk with hk | ⟨p, hp, rfl⟩
      · exact h.le subset_addHen hk
      · obtain ⟨x, hx, rfl, hd⟩ := hp.survives
        exact hgone x hx hd (hspared _ hp x hx rfl)
    have hroom' : ¬ HENMAX ≤ (hensOf (l.map Prod.snd) A H shielded).card :=
      not_le.2 ((Finset.card_le_card hall).trans_lt hroom)
    refine ⟨?_, iff_of_false hfull hroom'⟩
    rw [orphans, if_neg hroom']
    have hfilter := h.eq_filter (p := fun x => decide (Spared (l.map Prod.snd) A H shielded x.2)) subset_addHen ?_ ?_
    · rw [hfilter, List.filter_filter]
      refine List.filter_congr fun x _ => ?_
      simp [Bool.and_comm]
    · intro K₁ x hx hdrop hle
      obtain ⟨hsub, hcard, -⟩ := room_of_addHen hle hroom
      exact decide_eq_true (spared_of_drops (mem_survivors.1 hx) (hsub.trans hK) hcard hdrop)
    · intro x hx
      exact decide_eq_false fun hp => hspared _ hp x (mem_survivors.1 (h.sublist.subset hx)).1 rfl hx

end Least

/-! ## The three passes together -/

section Run

variable {s : State} {l : List (Addr × Proc)} {n fuel : ℕ}

theorem first_pass {A : Finset dev_t} (hs : Holds s l) (hA : Sound NODEV ACTIVEMAX s.tables.active A)
    (hU : Screens s.tables.screener (∅, 0)) (hn : l.length < n) :
    ∃ s', forProcs onMarked n s = some s' ∧ Holds s' (l.filter fun x => !decide (DroppedFirst A x.2)) ∧
      Screens s'.tables.screener (screeners A l) ∧
      s'.tables.hen = s.tables.hen ∧ s'.tables.do_another_pass = s.tables.do_another_pass := by
  have hbody : Visits onMarked (fun t k => Screens t.screener k ∧ t.active = s.tables.active ∧
      t.hen = s.tables.hen ∧ t.do_another_pass = s.tables.do_another_pass) (visitMarked A) l := by
    rintro x - t k ⟨hscreens, hactive, hhen, hflag⟩
    obtain ⟨T, hT, hscreens'⟩ := onMarked_spec (by rw [hactive]; exact hA) hscreens x
    exact ⟨_, hT, hscreens', hactive, hhen, hflag⟩
  obtain ⟨s', hrun, ⟨hscreens, -, hhen, hflag⟩, hs'⟩ := forProcs_spec hbody (k := (∅, 0)) ⟨hU, rfl, rfl, rfl⟩ hs hn
  rw [sweep_filter (visitMarked_isSome A)] at hs'
  exact ⟨s', hrun, hs', hscreens, hhen, hflag⟩

theorem second_pass {k : Finset uid_t × ℕ} {K : Finset pid_t} (hs : Holds s l) (hpid : ∀ x ∈ l, x.2.pid ≠ 0)
    (hU : Screens s.tables.screener k) (hK : Sound 0 HENMAX s.tables.hen K)
    (hflag : s.tables.do_another_pass = true) (hn : l.length < n) :
    ∃ s' K' l', forProcs onScreen n s = some s' ∧ Holds s' l' ∧ s'.tables.screener = s.tables.screener ∧
      Sound 0 HENMAX s'.tables.hen K' ∧ s'.tables.do_another_pass = true ∧
      Elim (Drops fun p => Shielded k p.uid) addHen K l K' l' ∧
      ∀ x ∈ l', ¬ (Background x.2 ∧ Shielded k x.2.uid) := by
  have hbody : Visits onScreen (fun t K => t.screener = s.tables.screener ∧ Sound 0 HENMAX t.hen K ∧
      t.do_another_pass = true) (visitScreen k) l := by
    intro x hx t K₁ hcase
    rcases hcase with ⟨hscreener, hsound, hflag⟩
    obtain ⟨T, hT, hsound'⟩ := onScreen_spec (by rw [hscreener]; exact hU) hsound (hpid x hx)
    exact ⟨_, hT, hscreener, hsound', by simp [hflag]⟩
  obtain ⟨s', hrun, ⟨hscreener, hsound, hflag'⟩, hs'⟩ := forProcs_spec hbody (k := K) ⟨rfl, hK, hflag⟩ hs hn
  refine ⟨s', _, _, hrun, hs', hscreener, hsound, hflag', ?_, ?_⟩
  · refine sweep_elim ?_ []
    intro K₁ x K₂ hv
    unfold visitScreen at hv
    split_ifs at hv with h
    exact ⟨h, (Option.some.inj hv).symm⟩
  · intro x hx hback
    obtain ⟨K₁, hv⟩ := sweep_stayed hx
    rw [visitScreen, if_pos (Or.inr hback)] at hv
    cases hv

/-- the third pass, once -/
theorem third_pass {K : Finset pid_t} (hs : Holds s l) (hpid : ∀ x ∈ l, x.2.pid ≠ 0)
    (hK : Sound 0 HENMAX s.tables.hen K) (hn : l.length < n) :
    ∃ s', forProcs onChick n { s with tables := { s.tables with do_another_pass := false } } = some s' ∧
      Holds s' (sweep visitChick K l).2 ∧ s'.tables.screener = s.tables.screener ∧
      Sound 0 HENMAX s'.tables.hen (sweep visitChick K l).1 ∧
      s'.tables.do_another_pass = decide ((sweep visitChick K l).2.length < l.length) := by
  have hbody : Visits onChick (fun t (k : Finset pid_t × Bool) => t.screener = s.tables.screener ∧
      Sound 0 HENMAX t.hen k.1 ∧ t.do_another_pass = k.2) (flagged visitChick) l := by
    intro x hx t k h
    rcases h with ⟨hscreener, hsound, hflag⟩
    obtain ⟨T, hT, hsound'⟩ := onChick_spec hsound (hpid x hx)
    unfold flagged
    rw [Option.isSome_map]
    refine ⟨_, hT, hscreener, ?_⟩
    cases hv : visitChick k.1 x with
    | none =>
      rw [hv] at hsound'
      exact ⟨hsound', hflag⟩
    | some K' =>
      rw [hv] at hsound'
      exact ⟨hsound', rfl⟩
  obtain ⟨s', hrun, ⟨hscreener, hsound, hflag⟩, hs'⟩ := forProcs_spec hbody (k := (K, false))
    (s := { s with tables := { s.tables with do_another_pass := false } }) ⟨rfl, hK, rfl⟩ ⟨hs.start, hs.links⟩ hn
  rw [sweep_flagged] at hsound hflag hs'
  exact ⟨s', hrun, hs', hscreener, hsound, hflag⟩

/-- the third pass is made until it drops nothing -/
theorem chickLoop_spec {K : Finset pid_t} (hs : Holds s l) (hpid : ∀ x ∈ l, x.2.pid ≠ 0)
    (hK : Sound 0 HENMAX s.tables.hen K) (hflag : s.tables.do_another_pass = true) (hn : l.length < n)
    (hfuel : l.length + 1 < fuel) :
    ∃ s' K' l', chickLoop n fuel s = some s' ∧ Holds s' l' ∧ s'.tables.screener = s.tables.screener ∧
      Sound 0 HENMAX s'.tables.hen K' ∧ Elim (fun K x => IsChick K x.2) addHen K l K' l' ∧
      ∀ x ∈ l', ¬ IsChick K' x.2 := by
  induction fuel generalizing s l K with
  | zero => omega
  | succ fuel ih =>
    obtain ⟨s₁, hrun, hs₁, hscreener, hsound, hflag₁⟩ := third_pass hs hpid hK hn
    have helim : Elim (fun K x => IsChick K x.2) addHen K l (sweep visitChick K l).1 (sweep visitChick K l).2 := by
      refine sweep_elim ?_ []
      intro K₁ x K₂ hv
      unfold visitChick at hv
      split_ifs at hv with h
      exact ⟨h, (Option.some.inj hv).symm⟩
    rw [chickLoop, if_pos hflag, hrun, Option.bind_some]
    by_cases hdrop : (sweep visitChick K l).2.length < l.length
    · rw [decide_eq_true hdrop] at hflag₁
      have hpid₁ : ∀ x ∈ (sweep visitChick K l).2, x.2.pid ≠ 0 := fun x hx => hpid x (helim.sublist.subset hx)
      obtain ⟨s', K', l', hrun', hs', hscreener', hsound', helim', hdone⟩ :=
        ih hs₁ hpid₁ hsound hflag₁ (by omega) (by omega)
      exact ⟨s', K', l', hrun', hs', hscreener'.trans hscreener, hsound', helim.trans helim', hdone⟩
    · rw [decide_eq_false hdrop] at hflag₁
      have hlength : (sweep visitChick K l).2.length = l.length := by
        have hle := length_sweep_le visitChick K l
        omega
      obtain ⟨heq, hnone⟩ := sweep_of_length_eq hlength
      obtain ⟨fuel, rfl⟩ : ∃ n, fuel = n + 1 := ⟨fuel - 1, by omega⟩
      refine ⟨s₁, _, _, by rw [chickLoop, hflag₁]; rfl, hs₁, hscreener, hsound, helim, ?_⟩
      rw [heq]
      intro x hx hchick
      have hv := hnone x hx
      rw [visitChick, if_pos hchick] at hv
      cases hv

/-- what the table of screeners says of a process -/
def shield (A : Finset dev_t) (l : List (Addr × Proc)) (p : Proc) : Prop := Shielded (screeners A l) p.uid

/-- **What `find_orph` leaves.** It ends, and leaves on the list what the rule says, where a screen process is protected
if its user is in the table of screeners or the table full. -/
theorem find_orph_spec {A : Finset dev_t} {H : Finset pid_t} (hs : Holds s l) (hpid : ∀ x ∈ l, x.2.pid ≠ 0)
    (hA : Sound NODEV ACTIVEMAX s.tables.active A) (hH : Sound 0 HENMAX s.tables.hen H) (hfuel : l.length + 1 < fuel) :
    ∃ s', find_orph fuel s = some (!(orphans l A H (shield A l)).isEmpty, s') ∧ Holds s' (orphans l A H (shield A l)) ∧
      Screens s'.tables.screener (screeners A l) ∧
      (HENMAX ≤ s'.tables.hen.count ↔ HENMAX ≤ (hensOf (l.map Prod.snd) A H (shield A l)).card) := by
  obtain ⟨s₁, hrun₁, hs₁, hU, hhen, hflag⟩ :=
    first_pass (s := { s with tables :=
      { s.tables with do_another_pass := true, screener := init_screener s.tables.screener } })
      ⟨hs.start, hs.links⟩ hA (screens_init s.tables.screener) (by omega : l.length < fuel)
  have hlen₁ := List.length_filter_le (fun x : Addr × Proc => !decide (DroppedFirst A x.2)) l
  have hpid₁ : ∀ x ∈ l.filter (fun x => !decide (DroppedFirst A x.2)), x.2.pid ≠ 0 :=
    fun x hx => hpid x (mem_survivors.1 hx).1
  obtain ⟨s₂, K₂, l₂, hrun₂, hs₂, hscreener₂, hsound₂, hflag₂, helim₂, hback⟩ :=
    second_pass hs₁ hpid₁ hU (by rw [hhen]; exact hH) hflag (by omega : _ < fuel)
  have hlen₂ := helim₂.sublist.length_le
  obtain ⟨s₃, K₃, l₃, hrun₃, hs₃, hscreener₃, hsound₃, helim₃, hdone⟩ :=
    chickLoop_spec hs₂ (fun x hx => hpid₁ x (helim₂.sublist.subset hx)) hsound₂ hflag₂ (by omega : _ < fuel)
      (by omega : _ < fuel)
  obtain ⟨horphans, hfull⟩ := elim_orphans (helim₂.trans (helim₃.mono fun K x h => Or.inl h)) (by
    intro x hx hcase
    rcases hcase with h | h
    · exact hdone x hx h
    · exact hback x (helim₃.sublist.subset hx) h)
  change l₃ = orphans l A H (shield A l) at horphans
  refine ⟨s₃, ?_, by rw [← horphans]; exact hs₃, by rw [hscreener₃, hscreener₂]; exact hU, ?_⟩
  · rw [find_orph]
    dsimp only
    rw [hrun₁, Option.bind_some, hrun₂, Option.bind_some, hrun₃, Option.map_some, hs₃.start, ← horphans]
    cases l₃ with
    | nil => rfl
    | cons x l₃ => rfl
  · rw [hsound₃.count_eq]
    exact hfull

end Run

/-! ## Main results -/

/-- more protected processes, more processes spared -/
theorem Spared.mono {L : List Proc} {A : Finset dev_t} {H : Finset pid_t} {f g : Proc → Prop}
    (hfg : ∀ p ∈ L, Background p → f p → g p) {p : Proc} (h : Spared L A H f p) : Spared L A H g p := by
  induction h with
  | hen hp hd hH => exact .hen hp hd hH
  | child hp hd _ hpid ih => exact .child hp hd ih hpid
  | screen hp hd hback hf => exact .screen hp hd hback (hfg _ hp hback hf)

/-- without hens only a protected screen process would be spared -/
theorem not_spared {L : List Proc} {A : Finset dev_t} {f : Proc → Prop}
    (hf : ∀ p ∈ L, Background p → ¬ f p) (p : Proc) : ¬ Spared L A ∅ f p := by
  intro hp
  induction hp with
  | hen _ _ hH => exact Finset.notMem_empty _ hH
  | child _ _ _ _ ih => exact ih
  | screen hp _ hback hfp => exact hf _ hp hback hfp

theorem hensOf_empty {l : List (Addr × Proc)} {A : Finset dev_t} {f : Proc → Prop}
    (hf : ∀ p ∈ l.map Prod.snd, Background p → ¬ f p) : hensOf (l.map Prod.snd) A ∅ f = ∅ := by
  refine Finset.eq_empty_of_forall_notMem fun k hk => ?_
  rcases mem_hensOf.1 hk with hk | ⟨p, hp, -⟩
  · exact Finset.notMem_empty _ hk
  · exact not_spared hf p hp

theorem orphans_sublist (l : List (Addr × Proc)) (A : Finset dev_t) (H : Finset pid_t) (f : Proc → Prop) :
    (orphans l A H f).Sublist l := by
  unfold orphans
  split_ifs
  · exact List.nil_sublist l
  · exact List.filter_sublist

theorem mem_orphans {l : List (Addr × Proc)} {A : Finset dev_t} {H : Finset pid_t} {f : Proc → Prop} {x : Addr × Proc} :
    x ∈ orphans l A H f ↔ ¬ HENMAX ≤ (hensOf (l.map Prod.snd) A H f).card ∧ x ∈ l ∧ ¬ DroppedFirst A x.2 ∧
      ¬ Spared (l.map Prod.snd) A H f x.2 := by
  unfold orphans
  split_ifs with h
  · simp [h]
  · simp [h]

/-- a process is protected if its user, other than user 0, has a screen process on an active tty -/
def ByUser (A : Finset dev_t) (L : List Proc) (p : Proc) : Prop := p.uid ≠ 0 ∧ p.uid ∈ screenUsers A L

/-- **The orphans.** For every list of processes, `find_orph` ends and unlinks some of them. Every process left has no
active control tty, is no protected shell and is not in the least set that the rule describes; where neither the
table of hens nor that of screeners has become full, these are all of them. -/
theorem find_orph_correct {s : State} {l : List (Addr × Proc)} {A : Finset dev_t} {H : Finset pid_t} (hs : Holds s l)
    (hpid : ∀ x ∈ l, x.2.pid ≠ 0) (hA : Sound NODEV ACTIVEMAX s.tables.active A) (hH : Sound 0 HENMAX s.tables.hen H) :
    ∃ l' : List (Addr × Proc), l'.Sublist l ∧ ∀ fuel, l.length + 1 < fuel →
      ∃ s', find_orph fuel s = some (!l'.isEmpty, s') ∧ Holds s' l' ∧
        (∀ x ∈ l', ¬ DroppedFirst A x.2 ∧ ¬ Spared (l.map Prod.snd) A H (ByUser A (l.map Prod.snd)) x.2) ∧
        (s'.tables.hen.count < HENMAX → s'.tables.screener.count < MAXSCREENERS → ∀ x ∈ l,
          x ∈ l' ↔ ¬ DroppedFirst A x.2 ∧ ¬ Spared (l.map Prod.snd) A H (ByUser A (l.map Prod.snd)) x.2) := by
  have hgathered := gathered_sweep A l
  have hrule : ∀ p, ByUser A (l.map Prod.snd) p → shield A l p := by
    intro p hcase
    rcases hcase with ⟨h0, hu⟩
    by_cases hfull : MAXSCREENERS ≤ (screeners A l).1.card + (screeners A l).2
    · exact Or.inl hfull
    · exact Or.inr (hgathered.complete (not_le.1 hfull) _ hu h0)
  refine ⟨orphans l A H (shield A l), orphans_sublist .., fun fuel hfuel => ?_⟩
  obtain ⟨s', hrun, hs', hscreens, hhen⟩ := find_orph_spec hs hpid hA hH hfuel
  refine ⟨s', hrun, hs', ?_, ?_⟩
  · intro x hx
    obtain ⟨-, -, hd, hspared⟩ := mem_orphans.1 hx
    exact ⟨hd, fun h => hspared (h.mono fun p _ _ => hrule p)⟩
  · intro hroom hroom' x hx
    rw [hscreens.count_eq] at hroom'
    have hback : ∀ p, shield A l p → ByUser A (l.map Prod.snd) p := by
      intro p hcase
      rcases hcase with hfull | hmem
      · omega
      · exact ⟨fun h0 => hscreens.zero_not_mem (h0 ▸ hmem), hgathered.subset hmem⟩
    have hsame : shield A l = ByUser A (l.map Prod.snd) := funext fun p => propext ⟨hback p, hrule p⟩
    rw [mem_orphans, ← hhen, hsame]
    simp [hroom, hx]

/-! ### Two screen processes -/

/-- a screen process on tty 5 -/
def onTty (uid : uid_t) : Proc := ⟨100, 1, uid, uid, true, 5, (0, 0), [], [], [], false, true⟩

/-- a screen process without control tty -/
def detached (uid : uid_t) : Proc := ⟨101, 1, uid, uid, false, NODEV, (0, 0), [], [], [], false, true⟩

/-- the list of the two -/
def twoScreens (uid : uid_t) : List (Addr × Proc) := [(0, onTty uid), (1, detached uid)]

def noHens : Hens := init_hen ⟨fun _ => 0, 0⟩

/-- the two processes in the heap -/
def twoState (uid : uid_t) (active : Active) : State where
  heap a := if a = 0 then some ⟨onTty uid, some 1⟩ else if a = 1 then some ⟨detached uid, none⟩ else none
  proclist := some 0
  tables := ⟨active, noHens, ⟨fun _ => 0, 0⟩, false⟩

theorem holds_twoState (uid : uid_t) (active : Active) : Holds (twoState uid active) (twoScreens uid) := by
  refine ⟨rfl, ⟨_, rfl, rfl, rfl⟩, ⟨_, rfl, rfl, rfl⟩, trivial⟩

/-- tty 5 is made active -/
theorem tty_active : ∃ T, set_active (init_active ⟨fun _ => 0, 0⟩) 5 = some T ∧ Sound NODEV ACTIVEMAX T {5} := by
  have hinit : Sound NODEV ACTIVEMAX (init_active ⟨fun _ => 0, 0⟩) ∅ := sound_init (⟨fun _ => 0, 0⟩ : Active)
  exact hinit.add_set (by decide) (by decide : (5 : dev_t) ≠ NODEV)

theorem noHens_sound : Sound 0 HENMAX noHens ∅ := sound_init (⟨fun _ => 0, 0⟩ : Hens)

/-- the rule at a list of two screen processes of user 7 -/
theorem find_orph_correct_two : ∃ T, set_active (init_active ⟨fun _ => 0, 0⟩) 5 = some T ∧
    ∃ l' : List (Addr × Proc), l'.Sublist (twoScreens 7) ∧ ∀ fuel, (twoScreens 7).length + 1 < fuel →
      ∃ s', find_orph fuel (twoState 7 T) = some (!l'.isEmpty, s') ∧ Holds s' l' ∧
        (∀ x ∈ l', ¬ DroppedFirst {5} x.2 ∧
          ¬ Spared ((twoScreens 7).map Prod.snd) {5} ∅ (ByUser {5} ((twoScreens 7).map Prod.snd)) x.2) ∧
        (s'.tables.hen.count < HENMAX → s'.tables.screener.count < MAXSCREENERS → ∀ x ∈ twoScreens 7,
          x ∈ l' ↔ ¬ DroppedFirst {5} x.2 ∧
            ¬ Spared ((twoScreens 7).map Prod.snd) {5} ∅ (ByUser {5} ((twoScreens 7).map Prod.snd)) x.2) := by
  obtain ⟨T, hT, hsound⟩ := tty_active
  exact ⟨T, hT, find_orph_correct (holds_twoState 7 T) (by decide) hsound noHens_sound⟩

/-- User 0 has a screen process on an active tty, and still the one without control tty is left on the list. -/
theorem root_screen : ∃ T, set_active (init_active ⟨fun _ => 0, 0⟩) 5 = some T ∧
    Spared ((twoScreens 0).map Prod.snd) {5} ∅ (fun p => p.uid ∈ screenUsers {5} ((twoScreens 0).map Prod.snd))
      (detached 0) ∧
    ∃ s', find_orph 4 (twoState 0 T) = some (true, s') ∧ Holds s' [(1, detached 0)] ∧
      s'.tables.hen.count < HENMAX ∧ s'.tables.screener.count < MAXSCREENERS := by
  obtain ⟨T, hT, hsound⟩ := tty_active
  refine ⟨T, hT, ?_, ?_⟩
  · exact .screen (by decide) (by decide) (by decide) (by decide)
  · have hscreeners : screeners {5} (twoScreens 0) = (∅, 1) := by decide
    have hshield : ∀ p ∈ (twoScreens 0).map Prod.snd, Background p → ¬ shield {5} (twoScreens 0) p := by
      unfold shield
      rw [hscreeners]
      decide
    have hhens := hensOf_empty (A := {5}) hshield
    have horphans : orphans (twoScreens 0) {5} ∅ (shield {5} (twoScreens 0)) = [(1, detached 0)] := by
      classical
      have h₁ : DroppedFirst {5} (onTty 0) := by decide
      have h₂ : ¬ DroppedFirst {5} (detached 0) := by decide
      rw [orphans, hhens, if_neg (by decide)]
      refine (List.filter_cons_of_neg fun h => ?_).trans (List.filter_cons_of_pos ?_)
      · exact (of_decide_eq_true h).1 h₁
      · exact decide_eq_true ⟨h₂, not_spared hshield _⟩
    obtain ⟨s', hrun, hs', hscreens, hhen⟩ :=
      find_orph_spec (holds_twoState 0 T) (by decide) hsound noHens_sound (by decide : _ < 4)
    rw [horphans] at hrun hs'
    refine ⟨s', hrun, hs', ?_, ?_⟩
    · rw [hhens] at hhen
      exact not_le.1 fun hle => absurd (hhen.1 hle) (by decide)
    · rw [hscreens.count_eq, hscreeners]
      decide

end MNetSoft.Robocop
