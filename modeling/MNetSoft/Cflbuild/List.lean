/-
The list of conferences of the `.cflist` editor (`cflbuild.c`, `cflsub.c`): a doubly linked list behind a sentinel node,
relinked by hand. A node that is not allocated and a null pointer that is followed give `none`.

- `unlink`, `Insert`, `SwapNodes`, `append`: the statements that relink nodes.
- `Linked`: the nodes of a list, the sentinel first, in order, with their names and numbers.
- `unlink_spec`, `Insert_spec`, `SwapNodes_spec`, `append_spec`: what each does to a list.
- `lastLoop_spec`, `findLoop_spec`, `shuffleLoop_spec`, `sortOuter_spec`: the loops over the list.
-/
import Mathlib.Tactic
import MNetSoft.Core.CString
import MNetSoft.Core.LinkedList

namespace MNetSoft.Cflbuild

open MNetSoft.CString MNetSoft.LinkedList

/-! ## Model -/

/-- name and number of a conference -/
structure Entry where
  ConfName : Str
  ConfNum : ℤ
deriving DecidableEq

structure ConfList extends Entry where
  NextRecord : Option Addr
  PrevRecord : Option Addr

/-- `a->NextRecord = q` -/
def setNext (a : Addr) (q : Option Addr) (h : Heap ConfList) : Option (Heap ConfList) :=
  (h a).map fun r => store a { r with NextRecord := q } h

/-- `a->PrevRecord = q` -/
def setPrev (a : Addr) (q : Option Addr) (h : Heap ConfList) : Option (Heap ConfList) :=
  (h a).map fun r => store a { r with PrevRecord := q } h

/-- `if (a->NextRecord != NULL) a->NextRecord->PrevRecord = q` -/
def setPrevOfNext (a : Addr) (q : ConfList → Option Addr) (h : Heap ConfList) : Option (Heap ConfList) :=
  (h a).bind fun r =>
    match r.NextRecord with
    | none => some h
    | some n => setPrev n (q r) h

/-- `if (a->PrevRecord != NULL) a->PrevRecord->NextRecord = q` -/
def setNextOfPrev (a : Addr) (q : ConfList → Option Addr) (h : Heap ConfList) : Option (Heap ConfList) :=
  (h a).bind fun r =>
    match r.PrevRecord with
    | none => some h
    | some p => setNext p (q r) h

/-- take a node out, as `Delete` does -/
def unlink (conf : Addr) (h : Heap ConfList) : Option (Heap ConfList) :=
  (setNextOfPrev conf ConfList.NextRecord h).bind fun h => setPrevOfNext conf ConfList.PrevRecord h

/-- take a node out, as `Insert` does -/
def takeOut (conf : Addr) (h : Heap ConfList) : Option (Heap ConfList) :=
  ((h conf).bind fun r => r.PrevRecord.bind fun p => setNext p r.NextRecord h).bind fun h =>
    setPrevOfNext conf ConfList.PrevRecord h

/-- put `conf1` before `conf2` -/
def putBefore (conf1 conf2 : Addr) (h : Heap ConfList) : Option (Heap ConfList) :=
  ((h conf2).bind fun r => setPrev conf1 r.PrevRecord h).bind fun h =>
    (setNextOfPrev conf2 (fun _ => some conf1) h).bind fun h =>
      (setPrev conf2 (some conf1) h).bind fun h => setNext conf1 (some conf2) h

/-- move `conf1` before `conf2` -/
def Insert (conf1 conf2 : Addr) (h : Heap ConfList) : Option (Heap ConfList) :=
  (takeOut conf1 h).bind fun h => putBefore conf1 conf2 h

/-- exchange two nodes that follow each other -/
def swapAdjacent (conf1 conf2 : Addr) (h : Heap ConfList) : Option (Heap ConfList) :=
  ((h conf1).bind fun r => setPrev conf2 r.PrevRecord h).bind fun h =>
    (setPrev conf1 (some conf2) h).bind fun h =>
      ((h conf2).bind fun r => setNext conf1 r.NextRecord h).bind fun h => setNext conf2 (some conf1) h

/-- exchange two nodes that do not -/
def swapApart (conf1 conf2 : Addr) (h : Heap ConfList) : Option (Heap ConfList) :=
  ((h conf1).bind fun r => r.NextRecord.bind fun n => setPrev n (some conf2) h).bind fun h =>
    ((h conf2).bind fun r => r.PrevRecord.bind fun p => setNext p (some conf1) h).bind fun h =>
      ((h conf1).bind fun r₁ =>
        (h conf2).bind fun r₂ =>
          (setPrev conf1 r₂.PrevRecord h).bind fun h => setPrev conf2 r₁.PrevRecord h).bind fun h =>
        (h conf1).bind fun r₁ =>
          (h conf2).bind fun r₂ =>
            (setNext conf1 r₂.NextRecord h).bind fun h => setNext conf2 r₁.NextRecord h

def SwapNodes (conf1 conf2 : Addr) (h : Heap ConfList) : Option (Heap ConfList) :=
  (setNextOfPrev conf1 (fun _ => some conf2) h).bind fun h =>
    (setPrevOfNext conf2 (fun _ => some conf1) h).bind fun h =>
      (h conf1).bind fun r =>
        if r.NextRecord = some conf2 then swapAdjacent conf1 conf2 h else swapApart conf1 conf2 h

/-- put a new node behind the last one -/
def append (TempConf a : Addr) (e : Entry) (h : Heap ConfList) : Option (Heap ConfList) :=
  (setNext TempConf (some a) h).map fun h => store a { e with NextRecord := none, PrevRecord := some TempConf } h

/-- the last node from `a` on -/
def lastLoop : ℕ → Addr → Heap ConfList → Option Addr
  | 0, _, _ => none
  | fuel + 1, a, h =>
    (h a).bind fun r =>
      match r.NextRecord with
      | none => some a
      | some n => lastLoop fuel n h

/-- the first node from `p` on that meets a condition -/
def findLoop (found : Entry → Bool) : ℕ → Option Addr → Heap ConfList → Option (Option Addr)
  | 0, _, _ => none
  | _ + 1, none, _ => some none
  | fuel + 1, some a, h =>
    (h a).bind fun r => if found r.toEntry then some (some a) else findLoop found fuel r.NextRecord h

/-- number the nodes from `p` on -/
def shuffleLoop : ℕ → ℤ → Option Addr → Heap ConfList → Option (Heap ConfList)
  | 0, _, _, _ => none
  | _ + 1, _, none, h => some h
  | fuel + 1, num, some a, h =>
    (h a).bind fun r => shuffleLoop fuel (num + 1) r.NextRecord (store a { r with ConfNum := num } h)

/-- compare `conf1` with the nodes from `conf2` on, exchanging it for each that is to come before it; tells the node
that ends up in its place, and whether any were exchanged -/
def sortInner : ℕ → Addr → Option Addr → Bool → Heap ConfList → Option (Addr × Bool × Heap ConfList)
  | 0, _, _, _, _ => none
  | _ + 1, conf1, none, swapped, h => some (conf1, swapped, h)
  | fuel + 1, conf1, some conf2, swapped, h =>
    (h conf1).bind fun r₁ =>
      (h conf2).bind fun r₂ =>
        if strcmp r₁.ConfName r₂.ConfName > 0 then
          (SwapNodes conf1 conf2 h).bind fun h =>
            (h conf1).bind fun r => sortInner fuel conf2 r.NextRecord true h
        else sortInner fuel conf1 r₂.NextRecord swapped h

/-- the outer loop of `SortAll` -/
def sortOuter (n : ℕ) : ℕ → Option Addr → Bool → Heap ConfList → Option (Bool × Heap ConfList)
  | 0, _, _, _ => none
  | _ + 1, none, swapped, h => some (swapped, h)
  | fuel + 1, some conf1, swapped, h =>
    (h conf1).bind fun r =>
      (sortInner n conf1 r.NextRecord swapped h).bind fun q =>
        (q.2.2 q.1).bind fun r => sortOuter n fuel r.NextRecord q.2.1 q.2.2

/-! ## Lists -/

/-- the node holds the conference and points both ways -/
def Node (e : Entry) (b : Option Addr) (r : ConfList) (c : Option Addr) : Prop :=
  r.toEntry = e ∧ r.PrevRecord = b ∧ r.NextRecord = c

theorem node_next (e e' : Entry) (b b' : Option Addr) (r : ConfList) (c c' : Option Addr) (h : Node e b r c)
    (h' : Node e' b' r c') : e = e' ∧ c = c' :=
  ⟨h.1.symm.trans h'.1, h.2.2.symm.trans h'.2.2⟩

/-- a list of nodes that begins and ends here -/
abbrev Linked (h : Heap ConfList) (l : List (Addr × Entry)) : Prop := Links Node h none l none

/-- what `sortInner` makes of a node and those it is compared with: whether any are exchanged, the node that ends up in
its place, and the others -/
def sift : Addr × Entry → List (Addr × Entry) → Bool × (Addr × Entry) × List (Addr × Entry)
  | c, [] => (false, c, [])
  | c, y :: l =>
    if strcmp c.2.ConfName y.2.ConfName > 0 then (true, (sift y l).2.1, c :: (sift y l).2.2)
    else ((sift c l).1, (sift c l).2.1, y :: (sift c l).2.2)

theorem sift_perm (c : Addr × Entry) (l : List (Addr × Entry)) : ((sift c l).2.1 :: (sift c l).2.2).Perm (c :: l) := by
  induction l generalizing c with
  | nil => exact List.Perm.refl _
  | cons y l ih =>
    rw [sift]
    split_ifs
    · exact (List.Perm.swap _ _ _).trans ((ih y).cons c)
    · calc List.Perm _ (y :: (sift c l).2.1 :: (sift c l).2.2) := List.Perm.swap _ _ _
        List.Perm _ (y :: c :: l) := (ih c).cons y
        List.Perm _ (c :: y :: l) := List.Perm.swap _ _ _

theorem length_sift (c : Addr × Entry) (l : List (Addr × Entry)) : (sift c l).2.2.length = l.length :=
  Nat.succ.inj (sift_perm c l).length_eq

/-- if nothing is exchanged, everything stays in its place -/
theorem sift_unswapped {c : Addr × Entry} {l : List (Addr × Entry)} (h : (sift c l).1 = false) :
    (sift c l).2 = (c, l) := by
  induction l with
  | nil => rfl
  | cons y l ih =>
    rw [sift] at h ⊢
    split_ifs at h ⊢
    rw [ih h]

/-- what `sortOuter` makes of a list -/
def bubble : List (Addr × Entry) → Bool × List (Addr × Entry)
  | [] => (false, [])
  | c :: l => ((sift c l).1 || (bubble (sift c l).2.2).1, (sift c l).2.1 :: (bubble (sift c l).2.2).2)
termination_by l => l.length
decreasing_by all_goals simp [length_sift]

theorem bubble_perm (l : List (Addr × Entry)) : (bubble l).2.Perm l := by
  induction l using bubble.induct with
  | case1 => rw [bubble]
  | case2 c l ih =>
    rw [bubble]
    exact (ih.cons _).trans (sift_perm c l)

theorem bubble_unswapped {l : List (Addr × Entry)} (h : (bubble l).1 = false) : (bubble l).2 = l := by
  induction l using bubble.induct with
  | case1 => rw [bubble]
  | case2 c l ih =>
    rw [bubble] at h ⊢
    obtain ⟨hsift, hrest⟩ := Bool.or_eq_false_iff.1 h
    rw [ih hrest, sift_unswapped hsift]

def names (l : List (Addr × Entry)) : List (Addr × Str) := l.map fun n => (n.1, n.2.ConfName)

/-- number named nodes in order -/
def number : ℤ → List (Addr × Str) → List (Addr × Entry)
  | _, [] => []
  | num, (a, ConfName) :: l => (a, ⟨ConfName, num⟩) :: number (num + 1) l

theorem names_number (num : ℤ) (l : List (Addr × Str)) : names (number num l) = l := by
  induction l generalizing num with
  | nil => rfl
  | cons n l ih => rw [number, names, List.map_cons, ← names, ih]

theorem addrs_number (num : ℤ) (l : List (Addr × Str)) : addrs (number num l) = addrs l := by
  induction l generalizing num with
  | nil => rfl
  | cons n l ih => rw [number, addrs_cons, ih, addrs, addrs, List.map_cons]

theorem names_append (l₁ l₂ : List (Addr × Entry)) : names (l₁ ++ l₂) = names l₁ ++ names l₂ := List.map_append

theorem names_cons (a : Addr) (e : Entry) (l : List (Addr × Entry)) :
    names ((a, e) :: l) = (a, e.ConfName) :: names l :=
  rfl

theorem addrs_names (l : List (Addr × Entry)) : addrs (names l) = addrs l := by
  rw [addrs, names, List.map_map]
  rfl

theorem first_number (num : ℤ) (l : List (Addr × Str)) (c : Option Addr) : first (number num l) c = first l c := by
  cases l with
  | nil => rfl
  | cons n l => rfl

theorem first_names (l : List (Addr × Entry)) (c : Option Addr) : first (names l) c = first l c := by
  cases l with
  | nil => rfl
  | cons n l => rfl

/-- the sort of numbered nodes, by their names -/
theorem names_bubble_perm (l : List (Addr × Str)) : (names (bubble (number 0 l)).2).Perm l := by
  have hperm := (bubble_perm (number 0 l)).map fun n => (n.1, n.2.ConfName)
  rwa [← names, ← names, names_number] at hperm

theorem number_append (num : ℤ) (l₁ l₂ : List (Addr × Str)) :
    number num (l₁ ++ l₂) = number num l₁ ++ number (num + l₁.length) l₂ := by
  induction l₁ generalizing num with
  | nil => simp [number]
  | cons n l₁ ih =>
    rw [List.cons_append, number, ih, number, List.cons_append, List.length_cons, Nat.cast_succ, add_assoc,
      add_comm (1 : ℤ)]

theorem setNext_eq {a : Addr} {h : Heap ConfList} {r : ConfList} (hr : h a = some r) (q : Option Addr) :
    setNext a q h = some (store a { r with NextRecord := q } h) := by
  rw [setNext, hr, Option.map_some]

theorem setPrev_eq {a : Addr} {h : Heap ConfList} {r : ConfList} (hr : h a = some r) (q : Option Addr) :
    setPrev a q h = some (store a { r with PrevRecord := q } h) := by
  rw [setPrev, hr, Option.map_some]

/-- a node is made to point to another, and keeps the rest -/
theorem setNext_frame {a : Addr} {h : Heap ConfList} {r : ConfList} (hr : h a = some r) (q : Option Addr) :
    ∃ h', setNext a q h = some h' ∧ h' a = some { r with NextRecord := q } ∧ ∀ z, z ≠ a → h' z = h z :=
  ⟨_, setNext_eq hr q, store_self .., fun _ hz => store_of_ne hz ..⟩

/-- a node is made to point back to another, and keeps the rest -/
theorem setPrev_frame {a : Addr} {h : Heap ConfList} {r : ConfList} (hr : h a = some r) (q : Option Addr) :
    ∃ h', setPrev a q h = some h' ∧ h' a = some { r with PrevRecord := q } ∧ ∀ z, z ≠ a → h' z = h z :=
  ⟨_, setPrev_eq hr q, store_self .., fun _ hz => store_of_ne hz ..⟩

section Relinking

variable {h : Heap ConfList} {b c : Option Addr} {l pre post : List (Addr × Entry)} {a p x y : Addr} {e v v' : Entry}

/-- the last node of a list is made to point to another -/
theorem setNext_last (hl : Links Node h b (l ++ [(a, e)]) c) (ha : a ∉ addrs l) (c' : Option Addr) :
    ∃ h', setNext a c' h = some h' ∧ Links Node h' b (l ++ [(a, e)]) c' ∧ ∀ z, z ≠ a → h' z = h z := by
  obtain ⟨r, hr⟩ := hl.isSome (a := a) (by simp)
  refine ⟨_, setNext_eq hr c', hl.store_last ha ?_, fun z hz => store_of_ne hz ..⟩
  intro b' r' hr' hx
  rcases hx with ⟨he, hb, -⟩
  obtain rfl := Option.some.inj (hr.symm.trans hr')
  exact ⟨he, hb, rfl⟩

/-- the first node of a list is made to point back to another -/
theorem setPrev_first (hl : Links Node h b ((a, e) :: l) c) (ha : a ∉ addrs l) (b' : Option Addr) :
    ∃ h', setPrev a b' h = some h' ∧ Links Node h' b' ((a, e) :: l) c ∧ ∀ z, z ≠ a → h' z = h z := by
  obtain ⟨r, hr⟩ := hl.isSome (a := a) (by simp)
  refine ⟨_, setPrev_eq hr b', hl.store_first ha ?_, fun z hz => store_of_ne hz ..⟩
  intro c' r' hr' hx
  rcases hx with ⟨he, -, hc⟩
  obtain rfl := Option.some.inj (hr.symm.trans hr')
  exact ⟨he, rfl, hc⟩

theorem setNext_end (hl : Links Node h b l c) (hnil : l ≠ []) (hnodup : (addrs l).Nodup) (c' : Option Addr) :
    ∃ q h', (∀ b, last b l = some q) ∧ setNext q c' h = some h' ∧ Links Node h' b l c' ∧
      ∀ z, z ∉ addrs l → h' z = h z := by
  obtain ⟨init, q, w, rfl⟩ := (last_cases l).resolve_left hnil
  have hq : q ∉ addrs init := by
    rw [addrs_append] at hnodup
    exact fun hq => (List.nodup_append.1 hnodup).2.2 q hq q (by simp) rfl
  obtain ⟨h', hset, hl', hframe⟩ := setNext_last hl hq c'
  refine ⟨q, h', fun b => last_concat .., hset, hl', fun z hz => hframe z ?_⟩
  rintro rfl
  exact hz (by simp)

theorem setPrev_start (hl : Links Node h b l c) (hnil : l ≠ []) (hnodup : (addrs l).Nodup) (b' : Option Addr) :
    ∃ m h', (∀ c, first l c = some m) ∧ setPrev m b' h = some h' ∧ Links Node h' b' l c ∧
      ∀ z, z ∉ addrs l → h' z = h z := by
  obtain ⟨⟨m, w⟩, rest, rfl⟩ := List.exists_cons_of_ne_nil hnil
  obtain ⟨h', hset, hl', hframe⟩ := setPrev_first hl (List.nodup_cons.1 hnodup).1 b'
  refine ⟨m, h', fun c => first_cons .., hset, hl', fun z hz => hframe z ?_⟩
  rintro rfl
  exact hz List.mem_cons_self

/-- the node before a node is made to point to another -/
theorem setNextOfPrev_spec {r : ConfList} {q : ConfList → Option Addr} (hl : Links Node h b (pre ++ [(p, v)]) c)
    (hp : p ∉ addrs pre) (hr : h x = some r) (hprev : r.PrevRecord = some p) :
    ∃ h', setNextOfPrev x q h = some h' ∧ Links Node h' b (pre ++ [(p, v)]) (q r) ∧ ∀ z, z ≠ p → h' z = h z := by
  rw [setNextOfPrev, hr, Option.bind_some, hprev]
  exact setNext_last hl hp (q r)

/-- the node behind a node, if there is one, is made to point back to another -/
theorem setPrevOfNext_spec {r : ConfList} {q : ConfList → Option Addr} (hl : Links Node h b post none)
    (hpost : (addrs post).Nodup) (hr : h x = some r) (hnext : r.NextRecord = first post none) :
    ∃ h', setPrevOfNext x q h = some h' ∧ Links Node h' (q r) post none ∧ ∀ z, z ∉ addrs post → h' z = h z := by
  rw [setPrevOfNext, hr, Option.bind_some, hnext]
  cases post with
  | nil => exact ⟨h, rfl, links_nil, fun z _ => rfl⟩
  | cons n post =>
    obtain ⟨n, w⟩ := n
    obtain ⟨h', hset, hl', hframe⟩ := setPrev_first hl (List.nodup_cons.1 hpost).1 (q r)
    exact ⟨h', hset, hl', fun z hz => hframe z fun hzn => hz (hzn ▸ List.mem_cons_self)⟩

/-- a node in the middle of a list, with what is before and behind it -/
theorem linked_middle (hl : Linked h (pre ++ (p, v) :: (x, e) :: post)) :
    (Links Node h none (pre ++ [(p, v)]) (some x) ∧ (∃ r, h x = some r ∧ Node e (some p) r (first post none)) ∧
      Links Node h (some x) post none) ∧
    p ∉ addrs pre ∧ x ≠ p ∧ x ∉ addrs pre ∧ (∀ z ∈ addrs post, z ≠ p ∧ z ≠ x ∧ z ∉ addrs pre) ∧ (addrs post).Nodup := by
  have hnodup := hl.nodup node_next
  simp only [addrs_append, addrs_cons, List.nodup_append, List.nodup_cons, List.mem_cons] at hnodup
  obtain ⟨-, ⟨hp, hx, hpost⟩, hpre⟩ := hnodup
  rw [Linked, List.append_cons, links_append, links_cons, last_concat] at hl
  refine ⟨⟨hl.1, hl.2.1, hl.2.2⟩, ?_, ?_, ?_, ?_, hpost⟩
  · exact fun h => hpre p h p (Or.inl rfl) rfl
  · exact fun h => hp (Or.inl h.symm)
  · exact fun h => hpre x h x (Or.inr (Or.inl rfl)) rfl
  · intro z hz
    refine ⟨?_, ?_, ?_⟩
    · rintro rfl
      exact hp (Or.inr hz)
    · rintro rfl
      exact hx hz
    · exact fun h => hpre z h z (Or.inr (Or.inr hz)) rfl

/-- **Delete.** The node is taken out, and nothing else changes. -/
theorem unlink_spec (hl : Linked h (pre ++ (p, v) :: (x, e) :: post)) :
    ∃ h', unlink x h = some h' ∧ takeOut x h = some h' ∧ Linked h' (pre ++ (p, v) :: post) ∧
      ∀ z, z ∉ addrs (pre ++ (p, v) :: post) → h' z = h z := by
  obtain ⟨⟨hfront, ⟨r, hr, -, hprev, hnext⟩, hback⟩, hp, hxp, -, hpost, hnodup⟩ := linked_middle hl
  obtain ⟨h₁, hset₁, hfront₁, hframe₁⟩ := setNextOfPrev_spec (q := ConfList.NextRecord) hfront hp hr hprev
  have hr₁ : h₁ x = some r := (hframe₁ x hxp).trans hr
  have hback₁ : Links Node h₁ (some x) post none := hback.congr fun z hz => hframe₁ z (hpost z hz).1
  obtain ⟨h₂, hset₂, hback₂, hframe₂⟩ := setPrevOfNext_spec (q := ConfList.PrevRecord) hback₁ hnodup hr₁ hnext
  have htake : ((h x).bind fun r => r.PrevRecord.bind fun p => setNext p r.NextRecord h) = some h₁ := by
    rw [← hset₁, setNextOfPrev, hr, Option.bind_some, Option.bind_some, hprev]
    rfl
  refine ⟨h₂, ?_, ?_, ?_, ?_⟩
  · rw [unlink, hset₁, Option.bind_some, hset₂]
  · rw [takeOut, htake, Option.bind_some, hset₂]
  · rw [List.append_cons, Linked, links_append, last_concat, ← hprev, ← hnext]
    refine ⟨hfront₁.congr fun z hz => hframe₂ z fun hz' => ?_, hback₂⟩
    rw [addrs_append, List.mem_append] at hz
    rcases hz with hz | hz
    · exact (hpost z hz').2.2 hz
    · exact (hpost z hz').1 (by simpa using hz)
  · intro z hz
    simp only [addrs_append, addrs_cons, List.mem_append, List.mem_cons, not_or] at hz
    calc h₂ z = h₁ z := hframe₂ z hz.2.2
      _ = h z := hframe₁ z hz.2.1

/-- a node is put before another one -/
theorem putBefore_spec (hl : Linked h (pre ++ (p, v) :: (y, v') :: post)) {r : ConfList} (hr : h x = some r)
    (he : r.toEntry = e) (hx : x ∉ addrs (pre ++ (p, v) :: (y, v') :: post)) :
    ∃ h', putBefore x y h = some h' ∧ Linked h' (pre ++ (p, v) :: (x, e) :: (y, v') :: post) ∧
      ∀ z, z ∉ addrs (pre ++ (p, v) :: (x, e) :: (y, v') :: post) → h' z = h z := by
  obtain ⟨⟨hfront, ⟨s, hs, hv', hprev, hnext⟩, hback⟩, hp, hyp, hy, hpost, hnodup⟩ := linked_middle hl
  simp only [addrs_append, addrs_cons, List.mem_append, List.mem_cons, not_or] at hx
  obtain ⟨hx, hxp, hxy, hxpost⟩ := hx
  -- the node points back to `p`
  have hset₁ : setPrev x (some p) h = some (store x { r with PrevRecord := some p } h) := setPrev_eq hr _
  generalize hh₁ : store x { r with PrevRecord := some p } h = h₁ at hset₁
  have hself₁ : h₁ x = some { r with PrevRecord := some p } := by rw [← hh₁, store_self]
  have hframe₁ : ∀ z, z ≠ x → h₁ z = h z := fun z hz => by rw [← hh₁, store_of_ne hz]
  have hfront₁ : Links Node h₁ none (pre ++ [(p, v)]) (some y) := by
    refine hfront.congr fun z hz => hframe₁ z ?_
    rintro rfl
    simp [hx, hxp] at hz
  -- `p` points to the node
  obtain ⟨h₂, hset₂, hfront₂, hframe₂⟩ := setNextOfPrev_spec (q := fun _ => some x) hfront₁ hp
    ((hframe₁ y (Ne.symm hxy)).trans hs) hprev
  have hback₂ : Links Node h₂ (some p) ((y, v') :: post) none := by
    refine links_cons.2 ⟨⟨s, ?_, hv', hprev, hnext⟩, hback.congr fun z hz => ?_⟩
    · rw [hframe₂ y hyp, hframe₁ y (Ne.symm hxy), hs]
    · rw [hframe₂ z (hpost z hz).1, hframe₁ z (ne_of_mem_of_not_mem hz hxpost)]
  -- `y` points back to the node
  obtain ⟨h₃, hset₃, hback₃, hframe₃⟩ := setPrev_first hback₂ (fun hy' => (hpost y hy').2.1 rfl) (some x)
  have hself₃ : h₃ x = some { r with PrevRecord := some p } := by rw [hframe₃ x hxy, hframe₂ x hxp, hself₁]
  refine ⟨store x { r with PrevRecord := some p, NextRecord := some y } h₃, ?_, ?_, ?_⟩
  · rw [putBefore, hs, Option.bind_some, hprev, hset₁, Option.bind_some, hset₂, Option.bind_some,
      hset₃, Option.bind_some, setNext_eq hself₃]
  · rw [List.append_cons, Linked, links_append, last_concat, links_cons]
    refine ⟨(hfront₂.congr fun z hz => hframe₃ z ?_).store ?_ _, ⟨_, store_self .., he, rfl, rfl⟩, hback₃.store ?_ _⟩
    · rintro rfl
      simp [hy, hyp] at hz
    · simp [hx, hxp]
    · simp [hxy, hxpost]
  · intro z hz
    simp only [addrs_append, addrs_cons, List.mem_append, List.mem_cons, not_or] at hz
    obtain ⟨-, hzp, hzx, hzy, -⟩ := hz
    calc store x { r with PrevRecord := some p, NextRecord := some y } h₃ z = h₃ z := store_of_ne hzx ..
      _ = h₂ z := hframe₃ z hzy
      _ = h₁ z := hframe₂ z hzp
      _ = h z := hframe₁ z hzx

/-- **Move.** The node is put before the other one, wherever that is, and nothing else changes. -/
theorem Insert_spec {pre' post' : List (Addr × Entry)} {p' : Addr} {u' : Entry}
    (hl : Linked h (pre ++ (p, v) :: (x, e) :: post))
    (hrest : pre ++ (p, v) :: post = pre' ++ (p', u') :: (y, v') :: post') :
    ∃ h', Insert x y h = some h' ∧ Linked h' (pre' ++ (p', u') :: (x, e) :: (y, v') :: post') ∧
      ∀ z, z ∉ addrs (pre' ++ (p', u') :: (x, e) :: (y, v') :: post') → h' z = h z := by
  obtain ⟨⟨-, ⟨r, hr, he, -, -⟩, -⟩, -, hxp, hx, hpost, -⟩ := linked_middle hl
  have hout : x ∉ addrs (pre ++ (p, v) :: post) := by
    simp only [addrs_append, addrs_cons, List.mem_append, List.mem_cons, not_or]
    exact ⟨hx, hxp, fun hx' => (hpost x hx').2.1 rfl⟩
  obtain ⟨h₁, -, htake, hl₁, hframe₁⟩ := unlink_spec hl
  have hr₁ : h₁ x = some r := (hframe₁ x hout).trans hr
  rw [hrest] at hl₁ hframe₁ hout
  obtain ⟨h₂, hput, hl₂, hframe₂⟩ := putBefore_spec hl₁ hr₁ he hout
  refine ⟨h₂, ?_, hl₂, ?_⟩
  · rw [Insert, htake, Option.bind_some, hput]
  · intro z hz
    rw [hframe₂ z hz]
    apply hframe₁
    simp only [addrs_append, addrs_cons, List.mem_append, List.mem_cons, not_or] at hz ⊢
    exact ⟨hz.1, hz.2.1, hz.2.2.2⟩

section Exchange

variable {mid : List (Addr × Entry)}

/-- two nodes of a list, with what is before, between and behind them -/
theorem linked_two (hl : Linked h (pre ++ (p, v) :: (x, e) :: (mid ++ (y, v') :: post))) :
    Links Node h none (pre ++ [(p, v)]) (some x) ∧
      (∃ r, h x = some r ∧ Node e (some p) r (first mid (some y))) ∧ Links Node h (some x) mid (some y) ∧
      (∃ s, h y = some s ∧ Node v' (last (some x) mid) s (first post none)) ∧ Links Node h (some y) post none := by
  obtain ⟨⟨hfront, ⟨r, hr, hnode⟩, hback⟩, -⟩ := linked_middle hl
  rw [first_append, first_cons] at hnode
  rw [links_append, first_cons, links_cons] at hback
  exact ⟨hfront, ⟨r, hr, hnode⟩, hback.1, hback.2.1, hback.2.2⟩

/-- two nodes have been exchanged when the nodes before and behind each of them and they themselves point to their new
neighbours -/
theorem linked_exchanged {h' : Heap ConfList} {rx ry : ConfList}
    (hfront : Links Node h' none (pre ++ [(p, v)]) (some y)) (hry : h' y = some ry)
    (hy : Node v' (some p) ry (first mid (some x))) (hmid : Links Node h' (some y) mid (some x)) (hrx : h' x = some rx)
    (hx : Node e (last (some y) mid) rx (first post none)) (hpost : Links Node h' (some x) post none) :
    Linked h' (pre ++ (p, v) :: (y, v') :: (mid ++ (x, e) :: post)) := by
  rw [Linked, List.append_cons]
  refine links_append.2 ⟨hfront, ?_⟩
  rw [last_concat, links_cons, first_append, first_cons]
  exact ⟨⟨ry, hry, hy⟩, links_append.2 ⟨hmid, ⟨rx, hrx, hx⟩, hpost⟩⟩

/-- two nodes that follow each other point to their new neighbours -/
theorem swapAdjacent_spec {r s : ConfList} (hxy : x ≠ y) (hr : h x = some r) (hs : h y = some s) :
    ∃ h', swapAdjacent x y h = some h' ∧
      h' x = some { r with PrevRecord := some y, NextRecord := s.NextRecord } ∧
      h' y = some { s with PrevRecord := r.PrevRecord, NextRecord := some x } ∧
      ∀ z, z ≠ x → z ≠ y → h' z = h z := by
  obtain ⟨h₁, hset₁, hs₁, hframe₁⟩ := setPrev_frame hs r.PrevRecord
  obtain ⟨h₂, hset₂, hr₂, hframe₂⟩ := setPrev_frame ((hframe₁ x hxy).trans hr) (some y)
  have hs₂ := (hframe₂ y (Ne.symm hxy)).trans hs₁
  obtain ⟨h₃, hset₃, hr₃, hframe₃⟩ := setNext_frame hr₂ s.NextRecord
  obtain ⟨h₄, hset₄, hs₄, hframe₄⟩ := setNext_frame ((hframe₃ y (Ne.symm hxy)).trans hs₂) (some x)
  refine ⟨h₄, ?_, (hframe₄ x hxy).trans hr₃, hs₄, ?_⟩
  · rw [swapAdjacent, hr, Option.bind_some, hset₁, Option.bind_some, hset₂, Option.bind_some, hs₂, Option.bind_some]
    simp only [hset₃, Option.bind_some, hset₄]
  · intro z hzx hzy
    calc h₄ z = h₃ z := hframe₄ z hzy
      _ = h₂ z := hframe₃ z hzx
      _ = h₁ z := hframe₂ z hzx
      _ = h z := hframe₁ z hzy

/-- two nodes exchange their pointers -/
theorem exchangePointers_spec {r s : ConfList} (hxy : x ≠ y) (hr : h x = some r) (hs : h y = some s) :
    ∃ h₁ h', ((setPrev x s.PrevRecord h).bind fun h => setPrev y r.PrevRecord h) = some h₁ ∧
      h₁ x = some { r with PrevRecord := s.PrevRecord } ∧ h₁ y = some { s with PrevRecord := r.PrevRecord } ∧
      ((setNext x s.NextRecord h₁).bind fun h => setNext y r.NextRecord h) = some h' ∧
      h' x = some { r with PrevRecord := s.PrevRecord, NextRecord := s.NextRecord } ∧
      h' y = some { s with PrevRecord := r.PrevRecord, NextRecord := r.NextRecord } ∧
      ∀ z, z ≠ x → z ≠ y → h' z = h z := by
  obtain ⟨h₁, hset₁, hr₁, hframe₁⟩ := setPrev_frame hr s.PrevRecord
  obtain ⟨h₂, hset₂, hs₂, hframe₂⟩ := setPrev_frame ((hframe₁ y (Ne.symm hxy)).trans hs) r.PrevRecord
  have hr₂ := (hframe₂ x hxy).trans hr₁
  obtain ⟨h₃, hset₃, hr₃, hframe₃⟩ := setNext_frame hr₂ s.NextRecord
  obtain ⟨h₄, hset₄, hs₄, hframe₄⟩ := setNext_frame ((hframe₃ y (Ne.symm hxy)).trans hs₂) r.NextRecord
  refine ⟨h₂, h₄, ?_, hr₂, hs₂, ?_, (hframe₄ x hxy).trans hr₃, hs₄, ?_⟩
  · rw [hset₁, Option.bind_some, hset₂]
  · rw [hset₃, Option.bind_some, hset₄]
  · intro z hzx hzy
    calc h₄ z = h₃ z := hframe₄ z hzy
      _ = h₂ z := hframe₃ z hzx
      _ = h₁ z := hframe₂ z hzy
      _ = h z := hframe₁ z hzx

/-- the node behind `x` and the node in front of `y` are turned to the other one, then `x` and `y` exchange their
pointers -/
theorem swapApart_exchange {n p : Addr} {h₁ h₂ : Heap ConfList} {r r₂ s s₂ : ConfList} (hxy : x ≠ y) (hr : h x = some r)
    (hnext : r.NextRecord = some n) (hset₁ : setPrev n (some y) h = some h₁) (hs : h₁ y = some s)
    (hprev : s.PrevRecord = some p) (hset₂ : setNext p (some x) h₁ = some h₂) (hr₂ : h₂ x = some r₂)
    (hs₂ : h₂ y = some s₂) :
    ∃ h', swapApart x y h = some h' ∧
      h' x = some { r₂ with PrevRecord := s₂.PrevRecord, NextRecord := s₂.NextRecord } ∧
      h' y = some { s₂ with PrevRecord := r₂.PrevRecord, NextRecord := r₂.NextRecord } ∧
      ∀ z, z ≠ x → z ≠ y → h' z = h₂ z := by
  obtain ⟨h₃, h₄, hset₃, hr₃, hs₃, hset₄, hr₄, hs₄, heq₄⟩ := exchangePointers_spec hxy hr₂ hs₂
  have hfirst : ((h x).bind fun r => r.NextRecord.bind fun n => setPrev n (some y) h) = some h₁ := by
    rw [hr, Option.bind_some, hnext, Option.bind_some, hset₁]
  have hlast : ((h₁ y).bind fun r => r.PrevRecord.bind fun p => setNext p (some x) h₁) = some h₂ := by
    rw [hs, Option.bind_some, hprev, Option.bind_some, hset₂]
  refine ⟨h₄, ?_, hr₄, hs₄, heq₄⟩
  rw [swapApart, hfirst, Option.bind_some, hlast, Option.bind_some, hr₂, Option.bind_some, hs₂, Option.bind_some, hset₃,
    Option.bind_some, hr₃, Option.bind_some, hs₃, Option.bind_some, hset₄]

/-- two nodes with others between them, and the first and last of those, point to their new neighbours -/
theorem swapApart_spec {r s : ConfList} (hmid : Links Node h (some x) mid (some y)) (hnil : mid ≠ [])
    (hnodup : (addrs mid).Nodup) (hxm : x ∉ addrs mid) (hym : y ∉ addrs mid) (hxy : x ≠ y) (hr : h x = some r)
    (hrnext : r.NextRecord = first mid (some y)) (hs : h y = some s) (hsprev : s.PrevRecord = last (some x) mid) :
    ∃ h', swapApart x y h = some h' ∧ Links Node h' (some y) mid (some x) ∧
      h' x = some { r with PrevRecord := last (some y) mid, NextRecord := s.NextRecord } ∧
      h' y = some { s with PrevRecord := r.PrevRecord, NextRecord := first mid (some x) } ∧
      ∀ z, z ≠ x → z ≠ y → z ∉ addrs mid → h' z = h z := by
  -- the first node between them points back to `y`, the last one to `x`
  obtain ⟨m, h₁, hfirst, hset₁, hmid₁, hframe₁⟩ := setPrev_start hmid hnil hnodup (some y)
  have hs₁ : h₁ y = some s := (hframe₁ y hym).trans hs
  obtain ⟨q, h₂, hback, hset₂, hmid₂, hframe₂⟩ := setNext_end hmid₁ hnil hnodup (some x)
  have heq₂ : ∀ z, z ∉ addrs mid → h₂ z = h z := fun z hz => (hframe₂ z hz).trans (hframe₁ z hz)
  have hr₂ : h₂ x = some r := (heq₂ x hxm).trans hr
  have hs₂ : h₂ y = some s := (heq₂ y hym).trans hs
  -- the two nodes exchange their pointers
  obtain ⟨h₄, hswap, hr₄, hs₄, heq₄⟩ :=
    swapApart_exchange hxy hr (hrnext.trans (hfirst _)) hset₁ hs₁ (hsprev.trans (hback _)) hset₂ hr₂ hs₂
  refine ⟨h₄, hswap, ?_, ?_, ?_, ?_⟩
  · exact hmid₂.congr fun z hz => heq₄ z (ne_of_mem_of_not_mem hz hxm) (ne_of_mem_of_not_mem hz hym)
  · rw [hr₄, hsprev, hback, hback]
  · rw [hs₄, hrnext, hfirst, hfirst]
  · intro z hzx hzy hz
    rw [heq₄ z hzx hzy, heq₂ z hz]

/-- **Exchange.** Two nodes, the first of them before the second, change places, and nothing else changes. -/
theorem SwapNodes_spec (hl : Linked h (pre ++ (p, v) :: (x, e) :: (mid ++ (y, v') :: post))) :
    ∃ h', SwapNodes x y h = some h' ∧ Linked h' (pre ++ (p, v) :: (y, v') :: (mid ++ (x, e) :: post)) ∧
      ∀ z, z ∉ addrs (pre ++ (p, v) :: (x, e) :: (mid ++ (y, v') :: post)) → h' z = h z := by
  obtain ⟨hfront, ⟨r, hr, he, hrprev, hrnext⟩, hmid, ⟨s, hs, hv', hsprev, hsnext⟩, hpost⟩ := linked_two hl
  have hnodup := hl.nodup node_next
  simp only [addrs_append, addrs_cons, List.nodup_append, List.nodup_cons, List.mem_append, List.mem_cons, not_or]
    at hnodup
  obtain ⟨-, ⟨⟨hpx, hpm, hpy, hpp⟩, ⟨hxm, hxy, hxp⟩, hmd, ⟨hyp, hpd⟩, hmp⟩, hpre⟩ := hnodup
  have hnot : ∀ z, z = p ∨ z = x ∨ z ∈ addrs mid ∨ z = y ∨ z ∈ addrs post → z ∉ addrs pre :=
    fun z hz hz' => hpre z hz' z hz rfl
  have hym : y ∉ addrs mid := fun hy => hmp y hy y (Or.inl rfl) rfl
  -- the node before the first and the node behind the second
  obtain ⟨h₁, hset₁, hfront₁, hframe₁⟩ :=
    setNextOfPrev_spec (q := fun _ => some y) hfront (hnot p (Or.inl rfl)) hr hrprev
  have hs₁ : h₁ y = some s := (hframe₁ y (Ne.symm hpy)).trans hs
  have hpost₁ : Links Node h₁ (some y) post none := hpost.congr fun z hz => hframe₁ z (ne_of_mem_of_not_mem hz hpp)
  obtain ⟨h₂, hset₂, hpost₂, hframe₂⟩ := setPrevOfNext_spec (q := fun _ => some x) hpost₁ hpd hs₁ hsnext
  have heq₂ : ∀ z, z ≠ p → z ∉ addrs post → h₂ z = h z := fun z hzp hz =>
    calc h₂ z = h₁ z := hframe₂ z hz
      _ = h z := hframe₁ z hzp
  have hr₂ : h₂ x = some r := (heq₂ x (Ne.symm hpx) hxp).trans hr
  have hs₂ : h₂ y = some s := (heq₂ y (Ne.symm hpy) hyp).trans hs
  have hmid₂ : Links Node h₂ (some x) mid (some y) :=
    hmid.congr fun z hz => heq₂ z (ne_of_mem_of_not_mem hz hpm) fun hz' => hmp z hz z (Or.inr hz') rfl
  have hfront₂ : Links Node h₂ none (pre ++ [(p, v)]) (some y) := by
    refine hfront₁.congr fun z hz => hframe₂ z fun hz' => ?_
    simp only [addrs_append, addrs_cons, addrs_nil, List.mem_append, List.mem_singleton] at hz
    rcases hz with hz | rfl
    · exact hnot z (by simp [hz']) hz
    · exact hpp hz'
  -- the two nodes and what is between them
  have hrest : ∃ h', SwapNodes x y h = some h' ∧ Links Node h' (some y) mid (some x) ∧
      h' x = some { r with PrevRecord := last (some y) mid, NextRecord := s.NextRecord } ∧
      h' y = some { s with PrevRecord := r.PrevRecord, NextRecord := first mid (some x) } ∧
      ∀ z, z ≠ x → z ≠ y → z ∉ addrs mid → h' z = h₂ z := by
    rw [SwapNodes, hset₁, Option.bind_some, hset₂, Option.bind_some, hr₂, Option.bind_some, hrnext]
    by_cases hnil : mid = []
    · subst hnil
      obtain ⟨h₃, hset₃, hr₃, hs₃, hframe₃⟩ := swapAdjacent_spec hxy hr₂ hs₂
      exact ⟨h₃, (if_pos rfl).trans hset₃, links_nil, hr₃, hs₃, fun z hzx hzy _ => hframe₃ z hzx hzy⟩
    · obtain ⟨h₃, hset₃, hrest₃⟩ := swapApart_spec hmid₂ hnil hmd hxm hym hxy hr₂ hrnext hs₂ hsprev
      refine ⟨h₃, (if_neg ?_).trans hset₃, hrest₃⟩
      obtain ⟨⟨m, w⟩, rest, rfl⟩ := List.exists_cons_of_ne_nil hnil
      rw [first_cons, Option.some.injEq]
      exact fun hmy => hym (hmy ▸ List.mem_cons_self)
  obtain ⟨h', hswap, hmid', hr', hs', heq'⟩ := hrest
  refine ⟨h', hswap, linked_exchanged (hfront₂.congr ?_) hs' ⟨hv', hrprev, rfl⟩ hmid' hr' ⟨he, rfl, hsnext⟩
    (hpost₂.congr ?_), ?_⟩
  · intro z hz
    simp only [addrs_append, addrs_cons, addrs_nil, List.mem_append, List.mem_singleton] at hz
    rcases hz with hz | rfl
    · refine heq' z ?_ ?_ ?_
      · exact fun hzx => hnot z (by simp [hzx]) hz
      · exact fun hzy => hnot z (by simp [hzy]) hz
      · exact fun hzm => hnot z (by simp [hzm]) hz
    · exact heq' z hpx hpy hpm
  · intro z hz
    exact heq' z (ne_of_mem_of_not_mem hz hxp) (ne_of_mem_of_not_mem hz hyp) fun hzm => hmp z hzm z (Or.inr hz) rfl
  · intro z hz
    simp only [addrs_append, addrs_cons, List.mem_append, List.mem_cons, not_or] at hz
    obtain ⟨-, hzp, hzx, hzm, hzy, hzpost⟩ := hz
    calc h' z = h₂ z := heq' z hzx hzy hzm
      _ = h z := heq₂ z hzp hzpost

end Exchange

/-- **Append.** A new node is put behind the last one. -/
theorem append_spec (hl : Linked h (pre ++ [(p, v)])) (hx : x ∉ addrs (pre ++ [(p, v)])) (e : Entry) :
    ∃ h', append p x e h = some h' ∧ Linked h' (pre ++ [(p, v)] ++ [(x, e)]) := by
  have hp : p ∉ addrs pre := by
    have hnodup := hl.nodup node_next
    rw [addrs_append] at hnodup
    exact fun hp => (List.nodup_append.1 hnodup).2.2 p hp p (by simp) rfl
  obtain ⟨h₁, hset₁, hl₁, -⟩ := setNext_last hl hp (some x)
  refine ⟨_, by rw [append, hset₁, Option.map_some], ?_⟩
  refine links_append.2 ⟨hl₁.store hx _, links_singleton.2 ⟨_, store_self .., rfl, ?_, rfl⟩⟩
  rw [last_concat]

theorem lastLoop_spec {fuel : ℕ} (hl : Links Node h b ((a, e) :: l) none) (hfuel : l.length < fuel) :
    lastLoop fuel a h = last (some a) l := by
  induction l generalizing a b e fuel with
  | nil =>
    obtain ⟨fuel, rfl⟩ := Nat.exists_eq_add_one.2 (Nat.zero_lt_of_lt hfuel)
    obtain ⟨⟨r, hr, -, -, hnext⟩, -⟩ := hl
    rw [lastLoop, hr, Option.bind_some, hnext]
    rfl
  | cons n l ih =>
    obtain ⟨n, w⟩ := n
    obtain ⟨fuel, rfl⟩ := Nat.exists_eq_add_one.2 (Nat.zero_lt_of_lt hfuel)
    obtain ⟨⟨r, hr, -, -, hnext⟩, hl⟩ := hl
    rw [lastLoop, hr, Option.bind_some, hnext]
    exact ih hl (by simpa using hfuel)

/-- the search finds the first node that meets the condition -/
theorem findLoop_spec {fuel : ℕ} (found : Entry → Bool) (hl : Links Node h b l none) (hfuel : l.length < fuel) :
    findLoop found fuel (first l none) h = some ((l.find? fun n => found n.2).map Prod.fst) := by
  induction l generalizing b fuel with
  | nil =>
    obtain ⟨fuel, rfl⟩ := Nat.exists_eq_add_one.2 (Nat.zero_lt_of_lt hfuel)
    rfl
  | cons n l ih =>
    obtain ⟨n, w⟩ := n
    obtain ⟨fuel, rfl⟩ := Nat.exists_eq_add_one.2 (Nat.zero_lt_of_lt hfuel)
    obtain ⟨⟨r, hr, rfl, -, hnext⟩, hl⟩ := hl
    rw [first_cons, findLoop, hr, Option.bind_some, hnext, ih hl (by simpa using hfuel)]
    by_cases hfound : found r.toEntry = true
    · rw [if_pos hfound, List.find?_cons_of_pos (p := fun n : Addr × Entry => found n.2) hfound, Option.map_some]
    · rw [if_neg hfound, List.find?_cons_of_neg (p := fun n : Addr × Entry => found n.2) hfound]

/-- the nodes are numbered in order, and keep their names -/
theorem shuffleLoop_spec {fuel : ℕ} {num : ℤ} (hl : Links Node h b l none) (hnodup : (addrs l).Nodup)
    (hfuel : l.length < fuel) :
    ∃ h', shuffleLoop fuel num (first l none) h = some h' ∧ Links Node h' b (number num (names l)) none ∧
      ∀ z, z ∉ addrs l → h' z = h z := by
  induction l generalizing b fuel num h with
  | nil =>
    obtain ⟨fuel, rfl⟩ := Nat.exists_eq_add_one.2 (Nat.zero_lt_of_lt hfuel)
    exact ⟨h, rfl, links_nil, fun _ _ => rfl⟩
  | cons n l ih =>
    obtain ⟨n, w⟩ := n
    obtain ⟨fuel, rfl⟩ := Nat.exists_eq_add_one.2 (Nat.zero_lt_of_lt hfuel)
    obtain ⟨⟨r, hr, rfl, hprev, hnext⟩, hl⟩ := hl
    obtain ⟨hn, hnodup⟩ := List.nodup_cons.1 hnodup
    obtain ⟨h', hloop, hl', hframe⟩ := ih (hl.store hn { r with ConfNum := num }) hnodup (by simpa using hfuel)
    refine ⟨h', ?_, links_cons.2 ⟨⟨_, (hframe n hn).trans (store_self ..), rfl, hprev, ?_⟩, hl'⟩, ?_⟩
    · rw [first_cons, shuffleLoop, hr, Option.bind_some]
      exact hnext ▸ hloop
    · exact hnext.trans ((first_number _ _ _).trans (first_names _ _)).symm
    · intro z hz
      rw [addrs_cons, List.mem_cons, not_or] at hz
      rw [hframe z hz.2, store_of_ne hz.1]

theorem sortInner_spec {fuel : ℕ} {c : Addr × Entry} {mid rest : List (Addr × Entry)} (swapped : Bool)
    (hl : Linked h (pre ++ (p, v) :: c :: (mid ++ rest))) (hfuel : rest.length < fuel) :
    ∃ h', sortInner fuel c.1 (first rest none) swapped h = some ((sift c rest).2.1.1, swapped || (sift c rest).1, h') ∧
      Linked h' (pre ++ (p, v) :: (sift c rest).2.1 :: (mid ++ (sift c rest).2.2)) := by
  induction rest generalizing c mid fuel swapped h with
  | nil =>
    obtain ⟨fuel, rfl⟩ := Nat.exists_eq_add_one.2 (Nat.zero_lt_of_lt hfuel)
    exact ⟨h, by rw [first_nil, sortInner, sift, Bool.or_false], hl⟩
  | cons y rest ih =>
    obtain ⟨c, e⟩ := c
    obtain ⟨y, v'⟩ := y
    obtain ⟨fuel, rfl⟩ := Nat.exists_eq_add_one.2 (Nat.zero_lt_of_lt hfuel)
    have hlt : rest.length < fuel := by simpa using hfuel
    obtain ⟨-, ⟨r, hr, rfl, -, -⟩, -, ⟨s, hs, rfl, -, hsnext⟩, -⟩ := linked_two hl
    rw [first_cons, sortInner, hr, Option.bind_some, hs, Option.bind_some, sift]
    by_cases hgt : strcmp r.ConfName s.ConfName > 0
    · -- the node goes where the other one was, which takes its place
      rw [if_pos hgt, if_pos hgt]
      obtain ⟨h₁, hswap, hl₁, -⟩ := SwapNodes_spec hl
      obtain ⟨-, -, -, ⟨r₁, hr₁, -, -, hnext₁⟩, -⟩ := linked_two hl₁
      have hl₂ : Linked h₁ (pre ++ (p, v) :: (y, s.toEntry) :: ((mid ++ [(c, r.toEntry)]) ++ rest)) := by
        rwa [List.append_assoc]
      obtain ⟨h', hloop, hl'⟩ := ih true hl₂ hlt
      refine ⟨h', ?_, by rwa [List.append_assoc] at hl'⟩
      rw [hswap, Option.bind_some, hr₁, Option.bind_some, hnext₁, hloop, Bool.true_or, Bool.or_true]
    · rw [if_neg hgt, if_neg hgt, hsnext]
      have hl₁ : Linked h (pre ++ (p, v) :: (c, r.toEntry) :: ((mid ++ [(y, s.toEntry)]) ++ rest)) := by
        rwa [List.append_assoc]
      obtain ⟨h', hloop, hl'⟩ := ih swapped hl₁ hlt
      exact ⟨h', hloop, by rwa [List.append_assoc] at hl'⟩

theorem sortOuter_spec {n fuel : ℕ} (swapped : Bool) (hl : Linked h (pre ++ (p, v) :: l)) (hn : l.length ≤ n)
    (hfuel : l.length < fuel) :
    ∃ h', sortOuter n fuel (first l none) swapped h = some (swapped || (bubble l).1, h') ∧
      Linked h' (pre ++ (p, v) :: (bubble l).2) := by
  induction fuel generalizing pre p v l swapped h with
  | zero => omega
  | succ fuel ih =>
    cases l with
    | nil => exact ⟨h, by rw [first_nil, sortOuter, bubble, Bool.or_false], by rwa [bubble]⟩
    | cons c l =>
      rw [List.length_cons] at hn hfuel
      obtain ⟨c, e⟩ := c
      obtain ⟨-, ⟨r, hr, -, -, hnext⟩, -⟩ := (linked_middle hl).1
      have hl₀ : Linked h (pre ++ (p, v) :: (c, e) :: ([] ++ l)) := hl
      obtain ⟨h₁, hinner, hl₁⟩ := sortInner_spec swapped hl₀ (show l.length < n by omega)
      generalize hsift : sift (c, e) l = q at hinner hl₁
      obtain ⟨sw, ⟨m, w⟩, rest⟩ := q
      dsimp only at hinner hl₁
      rw [List.nil_append] at hl₁
      have hrest : rest.length = l.length := by rw [← length_sift (c, e) l, hsift]
      obtain ⟨-, ⟨r₁, hr₁, -, -, hnext₁⟩, -⟩ := (linked_middle hl₁).1
      rw [List.append_cons] at hl₁
      obtain ⟨h', houter, hl'⟩ := ih (swapped || sw) hl₁ (by omega) (by omega)
      refine ⟨h', ?_, ?_⟩
      · rw [first_cons, sortOuter, hr, Option.bind_some, hnext, hinner, Option.bind_some]
        dsimp only
        rw [hr₁, Option.bind_some, hnext₁, houter, bubble, hsift, Bool.or_assoc]
      · rw [bubble, hsift, List.append_cons]
        exact hl'

end Relinking

end MNetSoft.Cflbuild
