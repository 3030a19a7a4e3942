/-
The command of the `.cflist` editor that swaps two conferences (`Swap` and `SwapNodes` of `cflbuild.c`), for numbers
that are entered in either order. `SwapNodes` is told the nodes in the order of the numbers.

- `Swap`: the command, with what the user types.
- `SwapNodes_back`: the node entered first comes after the other one, and others are between them and behind it.
- `SwapNodes_beside`, `SwapNodes_end`: it comes right after the other one; it is the last one.
- `SwapNodes_right_iff`: for which two places the nodes are exchanged and all others left.
- `Swap_spec`: what the command makes of the list and of the file, for such numbers.
- `first_two_back`: the first two conferences in the wrong order.
-/
import Mathlib.Tactic
import MNetSoft.Cflbuild.Session

namespace MNetSoft.Cflbuild

open MNetSoft.CString MNetSoft.LinkedList MNetSoft.Numerals MNetSoft.Effects

/-! ## Model -/

/-- the two numbers of a line -/
def twoNumbers (ConStr : Str) : Option (ℤ × ℤ) :=
  (scanInt ConStr).bind fun a => (scanInt a.2).map fun b => (a.1, b.1)

def Swap (env : Env) : M PUnit :=
  prompt 25 fun ConStr =>
    match twoNumbers ConStr with
    | none => pure ⟨⟩
    | some (Node1, Node2) =>
      if Node1 = Node2 then pure ⟨⟩ else do
        match ← Find Node1 [] 0 with
        | none => pure ⟨⟩
        | some Conf1 => do
          match ← Find Node2 [] 0 with
          | none => pure ⟨⟩
          | some Conf2 => do
            onHeap fun s => SwapNodes Conf1 Conf2 s.heap
            Shuffle
            WriteTocflist env

/-- two members of a list change places -/
def exchange {α : Type} (l : List α) (i j : ℕ) : List α :=
  match l[i]?, l[j]? with
  | some x, some y => (l.set i y).set j x
  | _, _ => l

/-- The nodes in the places `i` and `j` behind the sentinel are exchanged, all others stay, and the list is linked both
ways. -/
def Swapped (h : Heap ConfList) (conf : Addr × Entry) (l : List (Addr × Entry)) (i j : ℕ) : Prop :=
  ∃ x y h', l[i]? = some x ∧ l[j]? = some y ∧ SwapNodes x.1 y.1 h = some h' ∧ Linked h' (conf :: exchange l i j)

/-! ## The nodes in the other order -/

section Back

variable {h : Heap ConfList} {pre mid post : List (Addr × Entry)} {p x y : Addr} {v e v' : Entry}

/-- **The second node first.** It is exchanged with the first one if there are nodes between them and behind it. -/
theorem SwapNodes_back (hl : Linked h (pre ++ (p, v) :: (x, e) :: (mid ++ (y, v') :: post))) (hmid : mid ≠ [])
    (hpost : post ≠ []) :
    ∃ h', SwapNodes y x h = some h' ∧ Linked h' (pre ++ (p, v) :: (y, v') :: (mid ++ (x, e) :: post)) ∧
      ∀ z, z ∉ addrs (pre ++ (p, v) :: (x, e) :: (mid ++ (y, v') :: post)) → h' z = h z := by
  obtain ⟨⟨n, u⟩, post', rfl⟩ := List.exists_cons_of_ne_nil hpost
  obtain ⟨hfront, ⟨r, hr, he, hrprev, hrnext⟩, hmid₀, ⟨s, hs, hv', hsprev, hsnext⟩, hback⟩ := linked_two hl
  have hnodup := hl.nodup node_next
  simp only [addrs_append, addrs_cons, List.nodup_append, List.nodup_cons, List.mem_append, List.mem_cons, not_or]
    at hnodup
  obtain ⟨-, ⟨⟨hpx, hpm, hpy, hpn, hpp⟩, ⟨hxm, hxy, hxn, hxp⟩, hmd, ⟨⟨hyn, hyp⟩, hnp, hpd⟩, hmp⟩, hpre⟩ := hnodup
  have hym : y ∉ addrs mid := fun hy => hmp y hy y (Or.inl rfl) rfl
  have hnm : n ∉ addrs mid := fun hn => hmp n hn n (Or.inr (Or.inl rfl)) rfl
  have hpp' : p ∉ addrs pre := fun hp => hpre p hp p (Or.inl rfl) rfl
  -- the last node between them points to `x`, the first one back to `y`
  obtain ⟨q, h₁, hend, hset₁, hmid₁, hframe₁⟩ := setNext_end hmid₀ hmid hmd (some x)
  have hset₁' : setNextOfPrev y (fun _ => some x) h = some h₁ := by
    rw [setNextOfPrev, hs, Option.bind_some, hsprev, hend]
    exact hset₁
  have hr₁ : h₁ x = some r := (hframe₁ x hxm).trans hr
  obtain ⟨m, h₂, hfirst, hset₂, hmid₂, hframe₂⟩ := setPrev_start hmid₁ hmid hmd (some y)
  have hset₂' : setPrevOfNext x (fun _ => some y) h₁ = some h₂ := by
    rw [setPrevOfNext, hr₁, Option.bind_some, hrnext, hfirst]
    exact hset₂
  have heq₂ : ∀ z, z ∉ addrs mid → h₂ z = h z := fun z hz => (hframe₂ z hz).trans (hframe₁ z hz)
  have hs₂ : h₂ y = some s := (heq₂ y hym).trans hs
  have hr₂ : h₂ x = some r := (heq₂ x hxm).trans hr
  -- the node behind them points back to `x`, the one before them to `y`
  have hback₂ : Links Node h₂ (some y) ((n, u) :: post') none := by
    apply hback.congr
    intro z hz
    apply heq₂
    exact fun hzm => hmp z hzm z (Or.inr (by simpa using hz)) rfl
  obtain ⟨h₃, hset₃, hback₃, hframe₃⟩ := setPrev_first hback₂ hnp (some x)
  have hfront₃ : Links Node h₃ none (pre ++ [(p, v)]) (some x) := by
    apply hfront.congr
    intro z hz
    have hz' : z ∈ addrs pre ∨ z = p := by simpa using hz
    have hzn : z ≠ n ∧ z ∉ addrs mid := by
      rcases hz' with hz' | rfl
      · exact ⟨hpre z hz' n (by simp), fun hzm => hpre z hz' z (by simp [hzm]) rfl⟩
      · exact ⟨hpn, hpm⟩
    rw [hframe₃ z hzn.1, heq₂ z hzn.2]
  obtain ⟨h₄, hset₄, hfront₄, hframe₄⟩ := setNext_last hfront₃ hpp' (some y)
  have heq₄ : ∀ z, z ≠ p → z ≠ n → h₄ z = h₂ z := fun z hzp hzn =>
    calc h₄ z = h₃ z := hframe₄ z hzp
      _ = h₂ z := hframe₃ z hzn
  have hs₄ : h₄ y = some s := (heq₄ y (Ne.symm hpy) hyn).trans hs₂
  have hr₃ : h₃ x = some r := (hframe₃ x hxn).trans hr₂
  have hr₄ : h₄ x = some r := (hframe₄ x (Ne.symm hpx)).trans hr₃
  -- the two nodes exchange their pointers
  obtain ⟨h₆, hswap, hs₆, hr₆, heq₆⟩ :=
    swapApart_exchange (Ne.symm hxy) hs₂ hsnext hset₃ hr₃ hrprev hset₄ hs₄ hr₄
  refine ⟨h₆, ?_, linked_exchanged ?_ hs₆ ⟨hv', hrprev, ?_⟩ ?_ hr₆ ⟨he, ?_, hsnext⟩ ?_, ?_⟩
  · rw [SwapNodes, hset₁', Option.bind_some, hset₂', Option.bind_some, hs₂, Option.bind_some, if_neg ?_]
    · exact hswap
    · rw [hsnext, first_cons, Option.some.injEq]
      exact Ne.symm hxn
  · apply hfront₄.congr
    intro z hz
    have hz' : z ∈ addrs pre ∨ z = p := by simpa using hz
    rcases hz' with hz' | rfl
    · exact heq₆ z (hpre z hz' y (by simp)) (hpre z hz' x (by simp))
    · exact heq₆ z hpy hpx
  · exact hrnext.trans ((hfirst _).trans (hfirst _).symm)
  · apply hmid₂.congr
    intro z hz
    rw [heq₆ z (ne_of_mem_of_not_mem hz hym) (ne_of_mem_of_not_mem hz hxm), heq₄ z (ne_of_mem_of_not_mem hz hpm)
      (ne_of_mem_of_not_mem hz hnm)]
  · exact hsprev.trans ((hend _).trans (hend _).symm)
  · apply hback₃.congr
    intro z hz
    have hz' : z = n ∨ z ∈ addrs post' := by simpa using hz
    have hne : z ≠ y ∧ z ≠ x ∧ z ≠ p := by
      rcases hz' with rfl | hz'
      · exact ⟨Ne.symm hyn, Ne.symm hxn, Ne.symm hpn⟩
      · exact ⟨ne_of_mem_of_not_mem hz' hyp, ne_of_mem_of_not_mem hz' hxp, ne_of_mem_of_not_mem hz' hpp⟩
    rw [heq₆ z hne.1 hne.2.1, hframe₄ z hne.2.2]
  · intro z hz
    simp only [addrs_append, addrs_cons, List.mem_append, List.mem_cons, not_or] at hz
    obtain ⟨-, hzp, hzx, hzm, hzy, hzn, -⟩ := hz
    calc h₆ z = h₄ z := heq₆ z hzy hzx
      _ = h₂ z := heq₄ z hzp hzn
      _ = h z := heq₂ z hzm

/-- only the node before `y` is changed -/
theorem setNextOfPrev_other {q : ConfList → Option Addr} {h' : Heap ConfList} {s : ConfList} {z : Addr}
    (hset : setNextOfPrev y q h = some h') (hs : h y = some s) (hz : s.PrevRecord ≠ some z) : h' z = h z := by
  rw [setNextOfPrev, hs, Option.bind_some] at hset
  cases hprev : s.PrevRecord with
  | none =>
    rw [hprev] at hset
    cases hset
    rfl
  | some a =>
    rw [hprev] at hset hz
    obtain ⟨r, -, rfl⟩ := Option.map_eq_some_iff.1 hset
    exact store_of_ne (fun hza => hz (by rw [hza])) _ _

/-- no node points to another one than before -/
theorem setPrevOfNext_next {q : ConfList → Option Addr} {h' : Heap ConfList} {s : ConfList} {z : Addr}
    (hset : setPrevOfNext x q h = some h') (hs : h z = some s) :
    ∃ s', h' z = some s' ∧ s'.NextRecord = s.NextRecord := by
  obtain ⟨r, -, hset⟩ := Option.bind_eq_some_iff.1 hset
  cases hnext : r.NextRecord with
  | none =>
    rw [hnext] at hset
    cases hset
    exact ⟨s, hs, rfl⟩
  | some a =>
    rw [hnext] at hset
    obtain ⟨t, ht, rfl⟩ := Option.map_eq_some_iff.1 hset
    by_cases hza : z = a
    · subst hza
      obtain rfl := Option.some.inj (hs.symm.trans ht)
      exact ⟨_, store_self .., rfl⟩
    · exact ⟨s, (store_of_ne hza _ _).trans hs, rfl⟩

/-- two nodes one behind the other -/
theorem linked_beside (hl : Linked h (pre ++ (p, v) :: (x, e) :: (y, v') :: post)) :
    (∃ r, h x = some r ∧ Node e (some p) r (some y)) ∧ (∃ s, h y = some s ∧ Node v' (some x) s (first post none)) ∧
      Links Node h (some y) post none := by
  have hl' : Linked h (pre ++ (p, v) :: (x, e) :: ([] ++ (y, v') :: post)) := hl
  obtain ⟨-, hx, -, hy, hback⟩ := linked_two hl'
  exact ⟨hx, hy, hback⟩

/-- **The node right behind first.** If it can be done at all, `x` points to `y` afterwards. -/
theorem SwapNodes_beside (hl : Linked h (pre ++ (p, v) :: (x, e) :: (y, v') :: post)) {h' : Heap ConfList}
    (hswap : SwapNodes y x h = some h') : ∃ r, h' x = some r ∧ r.NextRecord = some y := by
  obtain ⟨⟨r, hr, -, -, hrnext⟩, ⟨s, hs, -, hsprev, hsnext⟩, hback⟩ := linked_beside hl
  obtain ⟨-, -, -, -, hpost, -⟩ := linked_middle hl
  simp only [addrs_cons, List.mem_cons, forall_eq_or_imp] at hpost
  obtain ⟨⟨-, hyx, -⟩, hpost⟩ := hpost
  -- `x` points to itself, and back to `y`
  obtain ⟨h₁, hset₁, hr₁, hframe₁⟩ := setNext_frame hr (some x)
  have hset₁' : setNextOfPrev y (fun _ => some x) h = some h₁ := by
    rw [setNextOfPrev, hs, Option.bind_some, hsprev]
    exact hset₁
  obtain ⟨h₂, hset₂, hr₂, hframe₂⟩ := setPrev_frame hr₁ (some y)
  have hset₂' : setPrevOfNext x (fun _ => some y) h₁ = some h₂ := by
    rw [setPrevOfNext, hr₁, Option.bind_some]
    exact hset₂
  have hs₂ : h₂ y = some s := by rw [hframe₂ y hyx, hframe₁ y hyx, hs]
  rw [SwapNodes, hset₁', Option.bind_some, hset₂', Option.bind_some, hs₂, Option.bind_some, hsnext] at hswap
  cases post with
  | nil =>
    rw [first_nil, if_neg (by simp), swapApart, hs₂, Option.bind_some, hsnext] at hswap
    cases hswap
  | cons n post =>
    obtain ⟨n, u⟩ := n
    obtain ⟨hnx, hny⟩ : n ≠ x ∧ n ≠ y := by
      have hnodup := hl.nodup node_next
      simp only [addrs_append, addrs_cons, List.nodup_append, List.nodup_cons, List.mem_cons, not_or] at hnodup
      exact ⟨Ne.symm hnodup.2.1.2.1.2.1, Ne.symm hnodup.2.1.2.2.1.1⟩
    obtain ⟨⟨rn, hn, -⟩, -⟩ := links_cons.1 hback
    have hn₂ : h₂ n = some rn := by rw [hframe₂ n hnx, hframe₁ n hnx, hn]
    obtain ⟨h₃, hset₃, -, hframe₃⟩ := setPrev_frame hn₂ (some x)
    have hr₃ := (hframe₃ x (Ne.symm hnx)).trans hr₂
    -- `y` points to itself
    obtain ⟨h₄, hset₄, hs₄, hframe₄⟩ := setNext_frame ((hframe₃ y (Ne.symm hny)).trans hs₂) (some y)
    have hr₄ := (hframe₄ x (Ne.symm hyx)).trans hr₃
    obtain ⟨h₆, hswap₆, -, hr₆, -⟩ := swapApart_exchange hyx hs₂ hsnext hset₃ hr₃ rfl hset₄ hs₄ hr₄
    rw [first_cons, if_neg (by simpa using hnx)] at hswap
    rw [← Option.some.inj (hswap₆.symm.trans hswap)]
    exact ⟨_, hr₆, rfl⟩

/-- **The last node first.** A null pointer is followed. -/
theorem SwapNodes_end (hl : Linked h (pre ++ (p, v) :: (x, e) :: (mid ++ [(y, v')]))) : SwapNodes y x h = none := by
  obtain ⟨-, -, -, ⟨s, hs, -, hsprev, hsnext⟩, -⟩ := linked_two hl
  have hnodup := hl.nodup node_next
  simp only [addrs_append, addrs_cons, addrs_nil, List.nodup_append, List.nodup_cons, List.mem_append, List.mem_cons,
    List.not_mem_nil, or_false, not_or] at hnodup
  have hprev : s.PrevRecord ≠ some y := by
    rw [hsprev]
    rcases last_cases mid with rfl | ⟨init, q, w, rfl⟩
    · exact fun h => hnodup.2.1.2.1.2 (Option.some.inj h)
    · rw [last_concat]
      exact fun h => hnodup.2.1.2.2.2.2 q (by simp) y rfl (Option.some.inj h)
  rw [SwapNodes, Option.bind_eq_none_iff]
  intro h₁ hset₁
  rw [Option.bind_eq_none_iff]
  intro h₂ hset₂
  obtain ⟨s₂, hs₂, hnext₂⟩ := setPrevOfNext_next hset₂ ((setNextOfPrev_other hset₁ hs hprev).trans hs)
  rw [hs₂, Option.bind_some, hnext₂, hsnext, first_nil, if_neg (by simp), swapApart, hs₂, Option.bind_some, hnext₂,
    hsnext]
  rfl

end Back

/-! ## Places -/

section Places

variable {α β : Type} {l : List α} {i j : ℕ}

/-- two places divide a list -/
theorem places (hij : i < j) (hj : j < l.length) :
    ∃ pre x mid y post, l = pre ++ x :: (mid ++ y :: post) ∧ pre.length = i ∧ pre.length + 1 + mid.length = j := by
  obtain ⟨front, y, post, rfl, hlen⟩ : ∃ front y post, l = front ++ y :: post ∧ front.length = j := by
    refine ⟨l.take j, l[j], l.drop (j + 1), ?_, ?_⟩
    · rw [← List.drop_eq_getElem_cons hj, List.take_append_drop]
    · rw [List.length_take, min_eq_left hj.le]
  have hi : i < front.length := by omega
  refine ⟨front.take i, front[i], front.drop (i + 1), y, post, ?_, ?_, ?_⟩
  · rw [← List.cons_append, ← List.append_assoc, ← List.drop_eq_getElem_cons hi, List.take_append_drop]
  · rw [List.length_take, min_eq_left hi.le]
  · rw [List.length_take, List.length_drop]
    omega

variable (pre mid post : List α) (x y : α)

theorem getElem?_first : (pre ++ x :: (mid ++ y :: post))[pre.length]? = some x := by simp

theorem getElem?_second : (pre ++ x :: (mid ++ y :: post))[pre.length + 1 + mid.length]? = some y := by
  rw [List.append_cons, ← List.append_assoc]
  have hlen : pre.length + 1 + mid.length = (pre ++ [x] ++ mid).length := by
    simp only [List.length_append, List.length_singleton]
  rw [hlen]
  simp

theorem exchange_places :
    exchange (pre ++ x :: (mid ++ y :: post)) pre.length (pre.length + 1 + mid.length) =
      pre ++ y :: (mid ++ x :: post) := by
  rw [exchange, getElem?_first, getElem?_second]
  dsimp only
  rw [List.set_append_right _ _ le_rfl, Nat.sub_self, List.set_cons_zero, List.append_cons, ← List.append_assoc]
  have hlen : pre.length + 1 + mid.length = (pre ++ [y] ++ mid).length := by
    simp only [List.length_append, List.length_singleton]
  rw [hlen, List.set_append_right _ _ le_rfl, Nat.sub_self, List.set_cons_zero]
  simp

theorem exchange_comm (l : List α) (i j : ℕ) : exchange l i j = exchange l j i := by
  unfold exchange
  by_cases hij : i = j
  · rw [hij]
  · cases l[i]? with
    | none => cases l[j]? <;> rfl
    | some x =>
      cases l[j]? with
      | none => rfl
      | some y => exact List.set_comm y x hij

theorem exchange_subset (l : List α) (i j : ℕ) : exchange l i j ⊆ l := by
  unfold exchange
  cases hx : l[i]? with
  | none => exact List.Subset.refl l
  | some x =>
    cases hy : l[j]? with
    | none => exact List.Subset.refl l
    | some y =>
      intro z hz
      rcases List.mem_or_eq_of_mem_set hz with hz | rfl
      · rcases List.mem_or_eq_of_mem_set hz with hz | rfl
        · exact hz
        · exact List.mem_of_getElem? hy
      · exact List.mem_of_getElem? hx

theorem map_exchange (f : α → β) (l : List α) (i j : ℕ) : (exchange l i j).map f = exchange (l.map f) i j := by
  unfold exchange
  rw [List.getElem?_map, List.getElem?_map]
  cases l[i]? with
  | none => rfl
  | some x =>
    cases l[j]? with
    | none => rfl
    | some y => simp [List.map_set]

end Places

/-! ## Main results -/

section Main

variable {h : Heap ConfList} {conf : Addr × Entry} {l : List (Addr × Entry)} {i j : ℕ}

/-- the nodes in two places behind the sentinel, in the order of the list -/
theorem swapped_forward (hl : Linked h (conf :: l)) (hij : i < j) (hj : j < l.length) : Swapped h conf l i j := by
  obtain ⟨front, ⟨x, e⟩, mid, ⟨y, v'⟩, post, rfl, rfl, rfl⟩ := places hij hj
  obtain ⟨pre, p, v, hlast⟩ := (last_cases (conf :: front)).resolve_left (List.cons_ne_nil _ _)
  rw [← List.cons_append, hlast, List.append_assoc] at hl
  obtain ⟨h', hswap, hl', -⟩ := SwapNodes_spec hl
  refine ⟨_, _, h', getElem?_first .., getElem?_second .., hswap, ?_⟩
  rw [exchange_places, ← List.cons_append, hlast, List.append_assoc]
  exact hl'

/-- in the other order -/
theorem swapped_back_iff (hl : Linked h (conf :: l)) (hji : j < i) (hi : i < l.length) :
    Swapped h conf l i j ↔ j + 1 < i ∧ i + 1 < l.length := by
  obtain ⟨front, ⟨x, e⟩, mid, ⟨y, v'⟩, post, rfl, rfl, rfl⟩ := places hji hi
  obtain ⟨pre, p, v, hlast⟩ := (last_cases (conf :: front)).resolve_left (List.cons_ne_nil _ _)
  rw [← List.cons_append, hlast, List.append_assoc] at hl
  have hswapped : Swapped h conf (front ++ (x, e) :: (mid ++ (y, v') :: post)) (front.length + 1 + mid.length)
      front.length ↔
        ∃ h', SwapNodes y x h = some h' ∧ Linked h' (pre ++ (p, v) :: (y, v') :: (mid ++ (x, e) :: post)) := by
    unfold Swapped
    rw [getElem?_first, getElem?_second, exchange_comm, exchange_places, ← List.cons_append, hlast, List.append_assoc]
    simp
  rw [hswapped]
  simp only [List.length_append, List.length_cons]
  rcases eq_or_ne post [] with rfl | hpost
  · -- the last node
    rw [SwapNodes_end hl]
    refine iff_of_false (by simp) ?_
    rw [List.length_nil]
    omega
  · have hlen := List.length_pos_iff.2 hpost
    rcases eq_or_ne mid [] with rfl | hmid
    · -- the node right behind
      apply iff_of_false
      · rintro ⟨h', hswap, hl'⟩
        obtain ⟨r, hr, hnext⟩ := SwapNodes_beside hl hswap
        obtain ⟨-, ⟨r', hr', -, -, hnext'⟩, -⟩ := linked_beside hl'
        obtain rfl := Option.some.inj (hr.symm.trans hr')
        obtain ⟨⟨n, u⟩, post, rfl⟩ := List.exists_cons_of_ne_nil hpost
        have hny : n = y := Option.some.inj (hnext'.symm.trans hnext)
        rw [List.nil_append] at hl
        have hnodup := hl.nodup node_next
        rw [hny] at hnodup
        simp [List.nodup_append] at hnodup
      · rw [List.length_nil]
        omega
    · have hlen' := List.length_pos_iff.2 hmid
      obtain ⟨h', hswap, hl', -⟩ := SwapNodes_back hl hmid hpost
      refine iff_of_true ⟨h', hswap, hl'⟩ ?_
      omega

/-- **Swap.** For a well-formed list and the nodes in any two places of it behind the sentinel, `SwapNodes` exchanges
them and leaves all others, without following a null pointer, if and only if the node entered first comes before the
other one, or comes after it with at least one between them and one behind. -/
theorem SwapNodes_right_iff (hl : Linked h (conf :: l)) (hi : i < l.length) (hj : j < l.length) (hij : i ≠ j) :
    Swapped h conf l i j ↔ i < j ∨ (j + 1 < i ∧ i + 1 < l.length) := by
  rcases lt_or_gt_of_ne hij with hlt | hgt
  · exact iff_of_true (swapped_forward hl hlt hj) (Or.inl hlt)
  · rw [swapped_back_iff hl hgt hi, or_iff_right (not_lt.2 hgt.le)]

end Main

/-! ## The command -/

section Command

variable {env : Env} {s : State} {l : List (Addr × Str)}

/-- the places of the two numbers typed -/
def typedPlaces (stdin : Str) (l : List (Addr × Str)) : Option (ℕ × ℕ) :=
  (typed 25 stdin).bind fun r => (twoNumbers r.1).bind fun n =>
    (place l n.1).bind fun i => (place l n.2).map fun j => (i, j)

/-- the nodes in the two places are exchanged, if there are such places and they differ -/
def swappedList (stdin : Str) (l : List (Addr × Str)) : List (Addr × Str) :=
  match typedPlaces stdin l with
  | none => l
  | some (i, j) => if i = j then l else exchange l i j

theorem names_exchange (es : List (Addr × Entry)) (i j : ℕ) : names (exchange es i j) = exchange (names es) i j :=
  map_exchange _ es i j

/-- the nodes in two places are exchanged -/
theorem Shows.swap (hs : Shows env s l) {i j : ℕ} (hi : i < l.length) (hj : j < l.length)
    (hord : i < j ∨ (j + 1 < i ∧ i + 1 < l.length)) :
    ∃ x y h' es, l[i]? = some x ∧ l[j]? = some y ∧ SwapNodes x.1 y.1 s.heap = some h' ∧
      Holds env { s with heap := h' } es ∧ names es = exchange l i j := by
  have hlen : (number 0 l).length = l.length := by
    rw [← List.length_map (f := fun n : Addr × Entry => (n.1, n.2.ConfName)), ← names, names_number]
  have hswapped : Swapped s.heap (s.Conf, sentinel env) (number 0 l) i j := by
    rcases hord with hlt | hback
    · exact swapped_forward hs.linked hlt (hj.trans_eq hlen.symm)
    · refine (swapped_back_iff hs.linked (by omega) (hi.trans_eq hlen.symm)).2 ?_
      rwa [hlen]
  obtain ⟨x, y, h', hx, hy, hset, hl'⟩ := hswapped
  have hname : ∀ (k : ℕ) (z : Addr × Entry), (number 0 l)[k]? = some z → l[k]? = some (z.1, z.2.ConfName) := by
    intro k z hz
    rw [← names_number 0 l, names, List.getElem?_map, hz, Option.map_some]
  refine ⟨(x.1, x.2.ConfName), (y.1, y.2.ConfName), h', _, hname i x hx, hname j y hy, hset,
    Holds.of_linked hs hl' (exchange_subset _ i j), ?_⟩
  rw [names_exchange, names_number]

/-- **The command.** The nodes in the places typed are exchanged, and the list is numbered and written, if they are
typed in the order of the list, or with others between them and behind them. -/
theorem Swap_spec (hs : Shows env s l)
    (hord : ∀ i j, typedPlaces s.stdin l = some (i, j) → i = j ∨ i < j ∨ (j + 1 < i ∧ i + 1 < l.length)) :
    Ensures Exits (Swap env) s (After env s.cflist l fun l' => l' = swappedList s.stdin l) := by
  apply prompt_spec exits_exit
  · intro hquit rest
    apply after_same (hs.stdin rest) rfl
    rw [swappedList, typedPlaces, hquit]
    rfl
  intro ConStr rest htyped
  have hs' := hs.stdin rest
  cases hnum : twoNumbers ConStr with
  | none =>
    refine ensures_pure (after_same hs' rfl ?_)
    rw [swappedList, typedPlaces, htyped, Option.bind_some, hnum]
    rfl
  | some n =>
    obtain ⟨Node1, Node2⟩ := n
    have hplaces : typedPlaces s.stdin l = (place l Node1).bind fun i => (place l Node2).map fun j => (i, j) := by
      rw [typedPlaces, htyped, Option.bind_some, hnum, Option.bind_some]
    have hsame : l = swappedList s.stdin l →
        After env s.cflist l (fun l' => l' = swappedList s.stdin l) ⟨⟩ { s with stdin := rest } := fun h =>
      after_same hs' rfl h
    have hplaced : ∀ {n : ℤ} {i : ℕ}, place l n = some i → n = i ∧ ∃ x, l[i]? = some x := by
      intro n i h
      obtain ⟨hi, -, x, -, -, -, hx, -⟩ := place_eq_some h
      exact ⟨hi, x, hx⟩
    refine Ensures.ite (fun heq => ensures_pure (hsame ?_)) fun hne => ?_
    · rw [swappedList, hplaces, heq]
      cases place l Node2 with
      | none => rfl
      | some j => exact (if_pos rfl).symm
    apply Ensures.bind_eq (fun _ => Find_number_spec hs')
    cases hplace₁ : place l Node1 with
    | none =>
      refine ensures_pure (hsame ?_)
      rw [swappedList, hplaces, hplace₁]
      rfl
    | some i =>
      obtain ⟨hi, x, hx⟩ := hplaced hplace₁
      rw [Option.bind_some, hx]
      apply Ensures.bind_eq (fun _ => Find_number_spec hs')
      cases hplace₂ : place l Node2 with
      | none =>
        refine ensures_pure (hsame ?_)
        rw [swappedList, hplaces, hplace₁, hplace₂]
        rfl
      | some j =>
        obtain ⟨hj, y, hy⟩ := hplaced hplace₂
        have hpair : typedPlaces s.stdin l = some (i, j) := by rw [hplaces, hplace₁, hplace₂]; rfl
        have hij : i ≠ j := fun h => hne (by rw [hi, hj, h])
        obtain ⟨x', y', h', es, hx', hy', hset, hholds, hnames⟩ := hs'.swap (List.getElem?_eq_some_iff.1 hx).1
          (List.getElem?_eq_some_iff.1 hy).1 ((hord i j hpair).resolve_left hij)
        obtain rfl := Option.some.inj (hx.symm.trans hx')
        obtain rfl := Option.some.inj (hy.symm.trans hy')
        rw [Option.bind_some, hy]
        apply Ensures.bind_eq (fun _ => onHeap_spec hset)
        apply after_save hholds
        rw [hnames, swappedList, hpair]
        exact (if_neg hij).symm

end Command

/-! ### Two conferences -/

/-- the conferences, in the order of their addresses -/
def twoConfs : List (Addr × Entry) := [(1, ⟨['a'], 0⟩), (2, ⟨['b'], 1⟩)]

def twoHeap : Heap ConfList := fun a =>
  if a = 0 then some ⟨⟨[], -1⟩, some 1, none⟩
  else if a = 1 then some ⟨⟨['a'], 0⟩, some 2, some 0⟩
  else if a = 2 then some ⟨⟨['b'], 1⟩, none, some 1⟩
  else none

theorem linked_two_confs : Linked twoHeap ((0, ⟨[], -1⟩) :: twoConfs) :=
  ⟨⟨_, rfl, rfl, rfl, rfl⟩, ⟨_, rfl, rfl, rfl, rfl⟩, ⟨_, rfl, rfl, rfl, rfl⟩, trivial⟩

theorem first_two : Swapped twoHeap (0, ⟨[], -1⟩) twoConfs 0 1 :=
  (SwapNodes_right_iff linked_two_confs (by decide) (by decide) (by decide)).2 (Or.inl (by decide))

/-- The numbers 1 and 0 in this order. -/
theorem first_two_back : Linked twoHeap ((0, ⟨[], -1⟩) :: twoConfs) ∧ ¬ Swapped twoHeap (0, ⟨[], -1⟩) twoConfs 1 0 := by
  refine ⟨linked_two_confs, ?_⟩
  intro hswapped
  exact absurd ((swapped_back_iff linked_two_confs (by decide) (by decide)).1 hswapped) (by decide)

end MNetSoft.Cflbuild
