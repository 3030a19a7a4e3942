/-
The participation list of `bbsread` (`pf.c`, the PicoSpan build): what the user has read of each item of a conference.
The linked list is a list of its entries; ints are integers (`run_ints`: they stay in range), a date is the 64 bits of a
long. An operation is a call of `update_item`, with the time at which it is made, of `reset_item` or of `lost_items`.

- `mark_run`: the list refines a map from items to marks (the count, the forgotten flag and the count of the file), on
  which an operation changes at most the item it names.
- `last_read_history`: the list stays in order, and what `last_read` gives for an item follows from the operations on
  this item alone.
-/
import Mathlib.Tactic
import MNetSoft.Core.CString
import MNetSoft.Core.SortedTable

namespace MNetSoft.Bbsread

open MNetSoft.CString

/-! ## Model -/

def INT_MAX : ℤ := 2 ^ 31 - 1

def INT_MIN : ℤ := -2 ^ 31

/-- `struct pfe`: an entry of the participation list -/
structure Pfe where
  item_no : ℤ
  resp_no : ℤ
  forgotten : Bool
  /-- `resp_no` as it was read from the file -/
  old_resp_no : ℤ
  date : BitVec 64
  delete : Bool
deriving DecidableEq, Repr

/-- the globals of `pf.c` -/
structure Pf where
  /-- the buffer `alias` -/
  aliasbuf : Str
  pflist : List Pfe
  /-- don't use a participation file -/
  no_pf : Bool
deriving DecidableEq, Repr

/-- the number of the last response read and whether the item is forgotten; -1 if it is unread -/
def last_read (p : Pf) (item : ℤ) : ℤ × Bool :=
  if p.no_pf then (-1, false)
  else
    match SortedTable.find Pfe.item_no item p.pflist with
    | none => (-1, false)
    | some pf => (pf.resp_no - 1, pf.forgotten)

/-- what `update_item` does to an entry it finds -/
def touch (resp : ℤ) (now : BitVec 64) (pf : Pfe) : Pfe :=
  if resp = -1 then { pf with forgotten := !pf.forgotten }
  else { pf with resp_no := resp + 1, date := now }

/-- the entry it makes if it finds none -/
def fresh (item resp : ℤ) (now : BitVec 64) : Pfe :=
  if resp = -1 then ⟨item, 0, true, 0, 0, false⟩ else ⟨item, resp + 1, false, 0, now, false⟩

def update_item (item resp : ℤ) (now : BitVec 64) (p : Pf) : Pf :=
  if p.no_pf then p
  else { p with pflist := SortedTable.alter Pfe.item_no item (touch resp now) (fresh item resp now) p.pflist }

/-- what `reset_item` does to the entry -/
def restore (pf : Pfe) : Pfe := { pf with resp_no := pf.old_resp_no }

def reset_item (item : ℤ) (p : Pf) : Pf :=
  if p.no_pf then p else { p with pflist := SortedTable.modify Pfe.item_no item restore p.pflist }

/-- the loop of `lost_items` -/
def lostLoop (first last : ℤ) : ℕ → List Pfe → List Pfe
  | _, [] => []
  | state, pf :: rest =>
    let state := if state = 1 ∧ pf.item_no ≥ first then 2 else state
    if state = 2 then
      if pf.item_no > last then pf :: rest
      else { pf with delete := true } :: lostLoop first last state rest
    else pf :: lostLoop first last state rest

/-- -1 is the end of the conference -/
def lastItem (last : ℤ) : ℤ := if last = -1 then INT_MAX else last

def lost_items (first last : ℤ) (p : Pf) : Pf :=
  if p.no_pf ∨ last < first then p
  else { p with pflist := lostLoop first (lastItem last) 1 p.pflist }

/-- a call of one of the three -/
inductive Op where
  | update (item resp : ℤ) (now : BitVec 64)
  | reset (item : ℤ)
  | lost (first last : ℤ)
deriving DecidableEq, Repr

def Pf.apply (p : Pf) : Op → Pf
  | .update item resp now => update_item item resp now p
  | .reset item => reset_item item p
  | .lost first last => lost_items first last p

def Pf.run (p : Pf) (ops : List Op) : Pf := ops.foldl Pf.apply p

theorem Pf.run_snoc (p : Pf) (ops : List Op) (op : Op) : p.run (ops ++ [op]) = (p.run ops).apply op := by
  rw [Pf.run, Pf.run, List.foldl_append, List.foldl_cons, List.foldl_nil]

/-- the numbers the callers pass are ints, and `resp + 1` is one too -/
def Op.InRange : Op → Prop
  | .update item resp _ => INT_MIN ≤ item ∧ item ≤ INT_MAX ∧ -1 ≤ resp ∧ resp < INT_MAX
  | .reset item => INT_MIN ≤ item ∧ item ≤ INT_MAX
  | .lost first last => INT_MIN ≤ first ∧ first ≤ INT_MAX ∧ INT_MIN ≤ last ∧ last ≤ INT_MAX

instance : DecidablePred Op.InRange := fun op => by
  cases op <;> unfold Op.InRange <;> infer_instance

/-- the operation is about the item -/
def Op.Names (item : ℤ) : Op → Prop
  | .update i _ _ => i = item
  | .reset i => i = item
  | .lost _ _ => False

instance (item : ℤ) : DecidablePred (Op.Names item) := fun op => by
  cases op <;> unfold Op.Names <;> infer_instance

/-- the item numbers increase from entry to entry -/
abbrev Increasing (pflist : List Pfe) : Prop := SortedTable.Increasing Pfe.item_no pflist

/-! ## What the operations do to the entries -/

@[simp] theorem item_no_touch (resp : ℤ) (now : BitVec 64) (pf : Pfe) : (touch resp now pf).item_no = pf.item_no := by
  rw [touch]
  split_ifs
  · rfl
  · rfl

@[simp] theorem item_no_fresh (item resp : ℤ) (now : BitVec 64) : (fresh item resp now).item_no = item := by
  rw [fresh]
  split_ifs
  · rfl
  · rfl

@[simp] theorem item_no_restore (pf : Pfe) : (restore pf).item_no = pf.item_no := rfl

/-- `lost_items` only marks entries -/
theorem map_lostLoop {β : Type*} (g : Pfe → β) (hg : ∀ pf, g { pf with delete := true } = g pf) (first last : ℤ)
    (state : ℕ) (l : List Pfe) : (lostLoop first last state l).map g = l.map g := by
  induction l generalizing state with
  | nil => rfl
  | cons pf l ih =>
    simp only [lostLoop]
    generalize (if state = 1 ∧ pf.item_no ≥ first then 2 else state) = st
    split_ifs
    · rfl
    · rw [List.map_cons, List.map_cons, hg, ih]
    · rw [List.map_cons, List.map_cons, ih]

@[simp] theorem no_pf_apply (p : Pf) (op : Op) : (p.apply op).no_pf = p.no_pf := by
  cases op with
  | update item resp now =>
    rw [Pf.apply, update_item]
    split_ifs
    · rfl
    · rfl
  | reset item =>
    rw [Pf.apply, reset_item]
    split_ifs
    · rfl
    · rfl
  | lost first last =>
    rw [Pf.apply, lost_items]
    split_ifs
    · rfl
    · rfl

/-- what an operation does to the list when a participation file is in use -/
def Op.onList : Op → List Pfe → List Pfe
  | .update item resp now => SortedTable.alter Pfe.item_no item (touch resp now) (fresh item resp now)
  | .reset item => SortedTable.modify Pfe.item_no item restore
  | .lost first last => fun l =>
    if last < first then l else lostLoop first (lastItem last) 1 l

theorem pflist_apply {p : Pf} (h : p.no_pf = false) (op : Op) : (p.apply op).pflist = op.onList p.pflist := by
  cases op with
  | update item resp now => rw [Pf.apply, update_item, h]; rfl
  | reset item => rw [Pf.apply, reset_item, h]; rfl
  | lost first last =>
    rw [Pf.apply, lost_items, h]
    simp only [Op.onList, Bool.false_eq_true, false_or]
    split_ifs
    · rfl
    · rfl

/-- **Order, one operation.** -/
theorem increasing_onList (op : Op) {l : List Pfe} (h : Increasing l) : Increasing (op.onList l) := by
  cases op with
  | update item resp now => exact SortedTable.increasing_alter (item_no_touch resp now) (item_no_fresh item resp now) h
  | reset item => exact SortedTable.increasing_modify item_no_restore h
  | lost first last =>
    simp only [Op.onList]
    split_ifs
    · exact h
    · exact (SortedTable.increasing_congr (map_lostLoop Pfe.item_no (fun _ => rfl) _ _ _ l)).2 h

theorem run_spec {p : Pf} (h : p.no_pf = false) (ops : List Op) :
    (p.run ops).no_pf = false ∧ (p.run ops).pflist = ops.foldl (fun l op => op.onList l) p.pflist := by
  induction ops using List.reverseRecOn with
  | nil => exact ⟨h, rfl⟩
  | append_singleton ops op ih =>
    rw [Pf.run_snoc, no_pf_apply, pflist_apply ih.1, ih.2, List.foldl_append]
    exact ⟨ih.1, rfl⟩

/-- **Order, any number of operations.** -/
theorem increasing_run {p : Pf} (h : p.no_pf = false) (hord : Increasing p.pflist) (ops : List Op) :
    Increasing (p.run ops).pflist := by
  induction ops using List.reverseRecOn with
  | nil => exact hord
  | append_singleton ops op ih =>
    rw [Pf.run_snoc, pflist_apply (run_spec h ops).1]
    exact increasing_onList op ih

/-- the numbers of an entry are ints -/
def Pfe.Ints (pf : Pfe) : Prop :=
  ∀ n ∈ [pf.item_no, pf.resp_no, pf.old_resp_no], INT_MIN ≤ n ∧ n ≤ INT_MAX

instance : DecidablePred Pfe.Ints := fun pf => by unfold Pfe.Ints; infer_instance

/-- nothing overflows -/
theorem run_ints {p : Pf} (h : p.no_pf = false) (hints : ∀ pf ∈ p.pflist, pf.Ints) {ops : List Op}
    (hops : ∀ op ∈ ops, op.InRange) : ∀ pf ∈ (p.run ops).pflist, pf.Ints := by
  induction ops using List.reverseRecOn with
  | nil => exact hints
  | append_singleton ops op ih =>
    have ih := ih fun o ho => hops o (List.mem_append_left _ ho)
    have hop : op.InRange := hops op (List.mem_append_right _ List.mem_cons_self)
    rw [Pf.run_snoc, pflist_apply (run_spec h ops).1]
    cases op with
    | update item resp now =>
      obtain ⟨h1, h2, h3, h4⟩ := hop
      refine SortedTable.forall_mem_alter ?_ ?_ ih
      · rw [fresh]
        split_ifs
        · simp [Pfe.Ints, INT_MIN, INT_MAX] at h1 h2 ⊢
          omega
        · simp [Pfe.Ints, INT_MIN, INT_MAX] at h1 h2 h4 ⊢
          omega
      · intro pf hpf
        rw [touch]
        split_ifs
        · exact hpf
        · simp [Pfe.Ints, INT_MIN, INT_MAX] at hpf h4 ⊢
          omega
    | reset item =>
      refine SortedTable.forall_mem_modify ?_ ih
      intro pf hpf
      simp only [Pfe.Ints, restore, List.forall_mem_cons] at hpf ⊢
      exact ⟨hpf.1, hpf.2.2.1, hpf.2.2.1, hpf.2.2.2⟩
    | lost first last =>
      simp only [Op.onList]
      split_ifs
      · exact ih
      · intro pf hpf
        have hmap := map_lostLoop (fun e : Pfe => [e.item_no, e.resp_no, e.old_resp_no]) (fun _ => rfl) first
          (lastItem last) 1 (p.run ops).pflist
        have hmem : [pf.item_no, pf.resp_no, pf.old_resp_no] ∈
            (p.run ops).pflist.map fun e : Pfe => [e.item_no, e.resp_no, e.old_resp_no] := by
          rw [← hmap]
          exact List.mem_map_of_mem hpf
        obtain ⟨e, he, heq⟩ := List.mem_map.1 hmem
        have hints := ih e he
        rw [Pfe.Ints, heq] at hints
        exact hints

/-! ## The list as a map from items to marks -/

/-- what the list knows of an item -/
structure Mark where
  count : ℤ
  forgotten : Bool
  /-- the count to go back to -/
  loaded : ℤ
deriving DecidableEq, Repr

def Pfe.mark (pf : Pfe) : Mark := ⟨pf.resp_no, pf.forgotten, pf.old_resp_no⟩

/-- the mark of an item that has an entry -/
def mark (l : List Pfe) (item : ℤ) : Option Mark := (SortedTable.find Pfe.item_no item l).map Pfe.mark

/-- an item is read up to a response, or forgotten or remembered -/
def Mark.update (resp : ℤ) : Option Mark → Mark
  | none => if resp = -1 then ⟨0, true, 0⟩ else ⟨resp + 1, false, 0⟩
  | some m => if resp = -1 then { m with forgotten := !m.forgotten } else { m with count := resp + 1 }

/-- what an operation does to the mark of an item: nothing, unless it names the item -/
def Op.onMark (item : ℤ) (m : Option Mark) : Op → Option Mark
  | .update i resp _ => if i = item then some (Mark.update resp m) else m
  | .reset i => if i = item then m.map fun k => { k with count := k.loaded } else m
  | .lost _ _ => m

/-- **Refinement, one operation.** -/
theorem mark_onList (op : Op) (l : List Pfe) (item : ℤ) : mark (op.onList l) item = op.onMark item (mark l item) := by
  cases op with
  | update i resp now =>
    simp only [Op.onList, Op.onMark, mark]
    split_ifs with hi
    · subst hi
      rw [SortedTable.find_alter_self (item_no_touch resp now) (item_no_fresh i resp now), Option.map_some]
      cases SortedTable.find Pfe.item_no i l with
      | none =>
        simp only [Option.elim_none, Option.map_none, fresh, Mark.update]
        split_ifs
        · rfl
        · rfl
      | some pf =>
        simp only [Option.elim_some, Option.map_some, touch, Mark.update]
        split_ifs
        · rfl
        · rfl
    · rw [SortedTable.find_alter_ne (item_no_touch resp now) (item_no_fresh i resp now) (Ne.symm hi)]
  | reset i =>
    simp only [Op.onList, Op.onMark, mark]
    split_ifs with hi
    · subst hi
      rw [SortedTable.find_modify_self item_no_restore, Option.map_map, Option.map_map]
      rfl
    · rw [SortedTable.find_modify_ne item_no_restore (Ne.symm hi)]
  | lost first last =>
    have hkey : ∀ l : List Pfe, mark l item =
        (SortedTable.find Prod.fst item (l.map fun pf => (pf.item_no, pf.mark))).map Prod.snd := by
      intro l
      rw [← SortedTable.map_find (g := fun pf : Pfe => (pf.item_no, pf.mark)) fun _ => rfl, Option.map_map]
      rfl
    simp only [Op.onList, Op.onMark]
    split_ifs
    · rfl
    · rw [hkey, hkey, map_lostLoop _ fun _ => rfl]

/-- **Refinement, any number of operations.** -/
theorem mark_run {p : Pf} (h : p.no_pf = false) (ops : List Op) (item : ℤ) :
    mark (p.run ops).pflist item = ops.foldl (Op.onMark item) (mark p.pflist item) := by
  rw [(run_spec h ops).2]
  induction ops using List.reverseRecOn with
  | nil => rfl
  | append_singleton ops op ih =>
    rw [List.foldl_append, List.foldl_append, ← ih]
    exact mark_onList op _ item

theorem last_read_eq {p : Pf} (h : p.no_pf = false) (item : ℤ) :
    last_read p item = ((mark p.pflist item).map fun m => (m.count - 1, m.forgotten)).getD (-1, false) := by
  rw [last_read, h, mark, Option.map_map]
  cases SortedTable.find Pfe.item_no item p.pflist with
  | none => rfl
  | some pf => rfl

/-- **Frame.** An operation leaves the items alone that it does not name. -/
theorem onMark_of_not_names {op : Op} {item : ℤ} (h : ¬ op.Names item) (m : Option Mark) : op.onMark item m = m := by
  cases op with
  | update i resp now => exact if_neg h
  | reset i => exact if_neg h
  | lost first last => rfl

/-! ## The history of an item -/

/-- the count that the operation gives the item, if it gives it one: `loaded` is the one to go back to -/
def Op.count (item loaded : ℤ) : Op → Option ℤ
  | .update i resp _ => if i = item ∧ 0 ≤ resp then some (resp + 1) else none
  | .reset i => if i = item then some loaded else none
  | .lost _ _ => none

/-- the operation forgets the item, or remembers it -/
def Op.Toggles (item : ℤ) : Op → Prop
  | .update i resp _ => i = item ∧ resp = -1
  | _ => False

instance (item : ℤ) : DecidablePred (Op.Toggles item) := fun op => by
  cases op <;> unfold Op.Toggles <;> infer_instance

/-- the operation makes an entry for the item, if there is none -/
def Op.Makes (item : ℤ) : Op → Prop
  | .update i _ _ => i = item
  | _ => False

instance (item : ℤ) : DecidablePred (Op.Makes item) := fun op => by
  cases op <;> unfold Op.Makes <;> infer_instance

/-- the count an item has by its last operation that gives it one, or `first` -/
def lastCount (item loaded first : ℤ) (ops : List Op) : ℤ :=
  (ops.reverse.findSome? (Op.count item loaded)).getD first

/-- the number of times the item is forgotten or remembered -/
def toggles (item : ℤ) (ops : List Op) : ℕ := ops.countP (Op.Toggles item)

/-- what `last_read` should give for an item after some operations, from its entry in the list as loaded: the last
count it was given, and whether its forgotten flag has been turned an odd number of times -/
def history (entry : Option Pfe) (item : ℤ) (ops : List Op) : ℤ × Bool :=
  match entry with
  | some pf =>
    (lastCount item pf.old_resp_no pf.resp_no ops - 1, xor pf.forgotten (toggles item ops % 2 = 1))
  | none =>
    if ∃ op ∈ ops, op.Makes item then (lastCount item 0 0 ops - 1, decide (toggles item ops % 2 = 1))
    else (-1, false)

theorem lastCount_snoc (item loaded first : ℤ) (ops : List Op) (op : Op) :
    lastCount item loaded first (ops ++ [op]) = (op.count item loaded).getD (lastCount item loaded first ops) := by
  rw [lastCount, List.reverse_append, List.reverse_singleton, List.singleton_append, List.findSome?_cons]
  cases op.count item loaded with
  | none => rfl
  | some c => rfl

theorem toggles_snoc (item : ℤ) (ops : List Op) (op : Op) :
    toggles item (ops ++ [op]) = toggles item ops + if op.Toggles item then 1 else 0 := by
  rw [toggles, List.countP_append, List.countP_singleton, toggles]
  simp only [decide_eq_true_eq]

/-- an operation on a mark, by the count it gives and by whether it turns the flag -/
theorem onMark_some {op : Op} (hop : op.InRange) (item : ℤ) (m : Mark) :
    op.onMark item (some m) =
      some ⟨(op.count item m.loaded).getD m.count, xor m.forgotten (decide (op.Toggles item)), m.loaded⟩ := by
  cases op with
  | update i resp now =>
    have hresp : -1 ≤ resp := hop.2.2.1
    by_cases hi : i = item
    · by_cases h1 : resp = -1
      · simp [Op.onMark, Op.count, Op.Toggles, Mark.update, hi, h1]
      · have h0 : 0 ≤ resp := by omega
        simp [Op.onMark, Op.count, Op.Toggles, Mark.update, hi, h1, h0]
    · simp [Op.onMark, Op.count, Op.Toggles, hi]
  | reset i =>
    have ht : ¬ (Op.reset i).Toggles item := id
    by_cases hi : i = item
    · subst hi
      simp [Op.onMark, Op.count, ht]
    · simp [Op.onMark, Op.count, ht, hi]
  | lost first last =>
    have ht : ¬ (Op.lost first last).Toggles item := id
    simp [Op.onMark, Op.count, ht]

/-- the mark after some operations, for an item with an entry -/
theorem foldl_onMark_some {ops : List Op} (hops : ∀ op ∈ ops, op.InRange) (item : ℤ) (m : Mark) :
    ops.foldl (Op.onMark item) (some m) =
      some ⟨lastCount item m.loaded m.count ops, xor m.forgotten (toggles item ops % 2 = 1), m.loaded⟩ := by
  induction ops using List.reverseRecOn with
  | nil => simp [lastCount, toggles]
  | append_singleton ops op ih =>
    have hop : op.InRange := hops op (List.mem_append_right _ List.mem_cons_self)
    have hparity : ∀ n : ℕ, decide ((n + 1) % 2 = 1) = !decide (n % 2 = 1) := by
      intro n
      rw [← decide_not, decide_eq_decide]
      omega
    rw [List.foldl_append, ih fun o ho => hops o (List.mem_append_left _ ho), List.foldl_cons, List.foldl_nil,
      onMark_some hop, lastCount_snoc, toggles_snoc]
    by_cases ht : op.Toggles item
    · simp [ht, hparity]
    · simp [ht]

/-- what an operation makes of an item without an entry -/
def unmarked : Mark := ⟨0, false, 0⟩

theorem onMark_none (op : Op) (item : ℤ) :
    op.onMark item none = if op.Makes item then op.onMark item (some unmarked) else none := by
  cases op with
  | update i resp now =>
    by_cases hi : i = item
    · by_cases h1 : resp = -1
      · simp [Op.onMark, Op.Makes, Mark.update, unmarked, hi, h1]
      · simp [Op.onMark, Op.Makes, Mark.update, unmarked, hi, h1]
    · simp [Op.onMark, Op.Makes, hi]
  | reset i => simp [Op.onMark, Op.Makes]
  | lost first last => rfl

theorem onMark_unmarked {op : Op} {item : ℤ} (h : ¬ op.Makes item) :
    op.onMark item (some unmarked) = some unmarked := by
  cases op with
  | update i resp now => exact if_neg h
  | reset i => simp [Op.onMark, unmarked]
  | lost first last => rfl

/-- the mark after some operations, for an item without an entry: as if it had begun with nothing read -/
theorem foldl_onMark_none (ops : List Op) (item : ℤ) :
    ops.foldl (Op.onMark item) none =
      if ∃ op ∈ ops, op.Makes item then ops.foldl (Op.onMark item) (some unmarked) else none := by
  induction ops with
  | nil => simp
  | cons op ops ih =>
    rw [List.foldl_cons, List.foldl_cons, onMark_none]
    by_cases h : op.Makes item
    · rw [if_pos h, if_pos ⟨op, List.mem_cons_self, h⟩]
    · have hex : (∃ o ∈ op :: ops, o.Makes item) ↔ ∃ o ∈ ops, o.Makes item := by
        simp only [List.mem_cons, exists_eq_or_imp, h, false_or]
      rw [if_neg h, ih, onMark_unmarked h]
      simp only [hex]

/-- **The map by histories.** -/
theorem last_read_run {p : Pf} (h : p.no_pf = false) {ops : List Op} (hops : ∀ op ∈ ops, op.InRange) (item : ℤ) :
    last_read (p.run ops) item = history (SortedTable.find Pfe.item_no item p.pflist) item ops := by
  rw [last_read_eq (run_spec h ops).1, mark_run h, mark]
  cases SortedTable.find Pfe.item_no item p.pflist with
  | some pf =>
    rw [Option.map_some, foldl_onMark_some hops]
    rfl
  | none =>
    rw [Option.map_none, foldl_onMark_none, history, foldl_onMark_some hops]
    split_ifs
    · simp [unmarked]
    · rfl

/-! ## Main result -/

/-- **The participation list.** From a list in order, any calls leave a list in order. `last_read` gives for each item
what the calls for this item have made of its entry, and a call for one item changes nothing for another. -/
theorem last_read_history {p : Pf} (hpf : p.no_pf = false) (hord : Increasing p.pflist) {ops : List Op}
    (hops : ∀ op ∈ ops, op.InRange) :
    Increasing (p.run ops).pflist ∧ ((p.run ops).pflist.map Pfe.item_no).Nodup ∧
      (∀ item, last_read (p.run ops) item = history (p.pflist.find? fun pf => pf.item_no = item) item ops) ∧
      ∀ (op : Op) (item : ℤ), ¬ op.Names item → last_read ((p.run ops).apply op) item = last_read (p.run ops) item := by
  have hinc : Increasing (p.run ops).pflist := increasing_run hpf hord ops
  refine ⟨hinc, ?_, ?_, ?_⟩
  · exact ((SortedTable.increasing_iff_map _).1 hinc).imp fun hlt => hlt.ne
  · intro item
    rw [last_read_run hpf hops, SortedTable.find_eq_find? hord]
  · intro op item hop
    have hrun : (p.run ops).no_pf = false := (run_spec hpf ops).1
    rw [last_read_eq ((no_pf_apply _ op).trans hrun), last_read_eq hrun, pflist_apply hrun, mark_onList,
      onMark_of_not_names hop]

/-- items 2 and 5 are loaded; 3 is forgotten before it is read and is put between them, 5 is read and reset -/
theorem last_read_history_session :
    let p : Pf := ⟨[], [⟨2, 4, false, 4, 0, false⟩, ⟨5, 7, true, 7, 0, false⟩], false⟩
    let ops : List Op := [.update 3 (-1) 9, .update 5 8 9, .reset 5, .lost 4 (-1), .update 5 (-1) 9]
    Increasing (p.run ops).pflist ∧ ((p.run ops).pflist.map Pfe.item_no).Nodup ∧
      (∀ item, last_read (p.run ops) item = history (p.pflist.find? fun pf => pf.item_no = item) item ops) ∧
      ∀ (op : Op) (item : ℤ), ¬ op.Names item → last_read ((p.run ops).apply op) item = last_read (p.run ops) item :=
  last_read_history rfl (by decide) (by decide)

end MNetSoft.Bbsread
