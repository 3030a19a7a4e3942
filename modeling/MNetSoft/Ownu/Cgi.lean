/-
Queries of the web `newuser`: `load_query` and `getvar` of `cgi-decode.c`. The query is copied into a buffer, which is
then cut into entries in place: a segment, up to the next `&`, is unescaped and after that cut at its first `=`. A read
or write behind the buffer is undefined (`none`).

`unescape_url` takes the two characters behind a `%` without a look at them. At the end of a segment one of them is the
NUL that ends the segment, and the loop goes on behind it, in the next segment or behind the buffer. And a `%3D` in a
name is taken for the `=` of the segment, as that is looked for in the unescaped text.
- `entryAt_frame`: an entry that can be read where there is only its segment is read in the same way inside a buffer.
- `alone_iff`: when it can be read there.
- `alone_pair`: what is read of the written form of a name and a value.
- `query_right_iff`: when a query of names and values comes out as these, and when a query is read segment by segment.
- `equals_in_name`: a name with an `=` in it, and a segment that ends in a `%`.
-/
import Mathlib.Tactic
import Mathlib.Data.List.TakeWhile
import MNetSoft.Core.Memory

namespace MNetSoft.Ownu

open MNetSoft.Memory

/-! ## Model -/

abbrev Bytes := List UInt8

/-- the value of an entry: the literal "", or what starts in a cell of the buffer -/
inductive Value where
  | blank
  | cell (p : ℕ)
deriving DecidableEq, Repr

structure Entry where
  name : ℕ
  value : Value
deriving DecidableEq, Repr

/-- the string in front of the next NUL -/
def cstring : Bytes → Option Bytes
  | [] => none
  | c :: m => if c = 0 then some [] else (cstring m).map (c :: ·)

/-- how far away the first `c` of the string is -/
def index (c : UInt8) : Bytes → Option (Option ℕ)
  | [] => none
  | d :: m => if d = c then some (some 0) else if d = 0 then some none else (index c m).map (Option.map (· + 1))

/-- a hexadecimal digit; `char` is signed -/
def hexdigit (c : UInt8) : UInt8 :=
  if 'A'.toUInt8 ≤ c ∧ c < 0x80 then (c &&& 0xdf) - 'A'.toUInt8 + 10 else c - '0'.toUInt8

def x2c (c d : UInt8) : UInt8 := hexdigit c * 16 + hexdigit d

/-- the loop of `unescape_url` with the cells between `x` and `y` and the cells from `y` on: the cells from `x` on -/
def unescapeLoop : Bytes → Bytes → Option Bytes
  | _, [] => none
  | mid, c :: m =>
    if c = 0 then some (0 :: (mid ++ c :: m).tail)
    else if c = '%'.toUInt8 then
      match m with
      | d :: d' :: m => (unescapeLoop (mid ++ [c, d, d']).tail m).map (x2c d d' :: ·)
      | _ => none
    else (unescapeLoop (mid ++ [c]).tail m).map (c :: ·)

def unescape_url (url : Bytes) : Option Bytes := unescapeLoop [] url

/-- a plus sign stands for a space -/
def plus (c : UInt8) : UInt8 := if c = '+'.toUInt8 then ' '.toUInt8 else c

def plustospace : Bytes → Option Bytes
  | [] => none
  | c :: m => if c = 0 then some (c :: m) else (plustospace m).map (plus c :: ·)

/-- cut the string at the cell `p` where `index` has found something -/
def cut (m : Bytes) (p : ℕ) : Option ℕ → Option Bytes
  | none => some m
  | some i => store m (p + i) 0

/-- the value behind the `=` -/
def behind (p : ℕ) : Option ℕ → Value
  | none => .blank
  | some i => .cell (p + i + 1)

/-- the entry of the segment at `p`, which has been cut off -/
def entryAt (m : Bytes) (p : ℕ) : Option (Bytes × Entry) := do
  let m ← onward m p plustospace
  let m ← onward m p unescape_url
  let eq ← index '='.toUInt8 (m.drop p)
  let m ← cut m p eq
  return (m, ⟨p, behind p eq⟩)

/-- the loop of `load_query` -/
def loadLoop : ℕ → Bytes → ℕ → List Entry → Option (Bytes × List Entry)
  | 0, _, _, _ => none
  | fuel + 1, m, p, head => do
    let stop ← index '&'.toUInt8 (m.drop p)
    let m ← cut m p stop
    let (m, new) ← entryAt m p
    match stop with
    | none => return (m, new :: head)
    | some i => loadLoop fuel m (p + i + 1) (new :: head)

/-- the buffer and the entries -/
structure Query where
  buffer : Bytes
  head : List Entry
deriving DecidableEq, Repr

def load_query : Option Bytes → Option Query
  | none => some ⟨[], []⟩
  | some [] => some ⟨[], []⟩
  | some query => (loadLoop query.length.succ (query ++ [0]) 0 []).map fun r => ⟨r.1, r.2⟩

/-- the value of the first entry with the name; `NULL` where there is none -/
def getvar (m : Bytes) (name : Bytes) : List Entry → Option (Option Value)
  | [] => some none
  | v :: vs => do
    let s ← cstring (m.drop v.name)
    if s = name then return some v.value else getvar m name vs

/-! ## Texts -/

def Value.text (m : Bytes) : Value → Option Bytes
  | .blank => some []
  | .cell p => cstring (m.drop p)

/-- the name and the value -/
def Entry.text (m : Bytes) (e : Entry) : Option (Bytes × Bytes) := do
  let name ← cstring (m.drop e.name)
  let value ← e.value.text m
  return (name, value)

/-- the names and values of the entries -/
def Query.Reads (r : Query) (ts : List (Bytes × Bytes)) : Prop :=
  List.Forall₂ (fun e t => Entry.text r.buffer e = some t) r.head ts

/-- the value that `getvar` finds -/
def Query.value (r : Query) (name : Bytes) : Option (Option Bytes) := do
  match ← getvar r.buffer name r.head with
  | none => return none
  | some v => (v.text r.buffer).map some

/-! ## Names and values as they are written -/

def isalnum (c : UInt8) : Bool :=
  ('0'.toUInt8 ≤ c && c ≤ '9'.toUInt8) || ('A'.toUInt8 ≤ c && c ≤ 'Z'.toUInt8) ||
    ('a'.toUInt8 ≤ c && c ≤ 'z'.toUInt8)

/-- `c` is a digit for the number `n`, in either case -/
def Digit (n : ℕ) (c : UInt8) : Prop :=
  (n < 10 ∧ c = '0'.toUInt8 + UInt8.ofNat n) ∨
    10 ≤ n ∧ (c = 'A'.toUInt8 + UInt8.ofNat (n - 10) ∨ c = 'a'.toUInt8 + UInt8.ofNat (n - 10))

/-- the ways to write a byte -/
inductive Writes : UInt8 → Bytes → Prop where
  | plain {c : UInt8} (h : isalnum c = true) : Writes c [c]
  | plus : Writes ' '.toUInt8 ['+'.toUInt8]
  | escape {c d d' : UInt8} (h : isalnum c = false) (hd : Digit (c.toNat / 16) d) (hd' : Digit (c.toNat % 16) d') :
      Writes c ['%'.toUInt8, d, d']

/-- the ways to write a string -/
inductive WritesAll : Bytes → Bytes → Prop where
  | nil : WritesAll [] []
  | cons {c : UInt8} {s t u : Bytes} (h : Writes c t) (hs : WritesAll s u) : WritesAll (c :: s) (t ++ u)

/-- a name and a value -/
structure Pair where
  name : Bytes
  value : Bytes
  name_nul : 0 ∉ name
  value_nul : 0 ∉ value

def Pair.text (p : Pair) : Bytes × Bytes := (p.name, p.value)

/-- the ways to write a name and its value -/
def WritesPair (p : Pair) (s : Bytes) : Prop :=
  ∃ t u, WritesAll p.name t ∧ WritesAll p.value u ∧ s = t ++ '='.toUInt8 :: u

/-- the ways to write a query -/
def WritesQuery (ps : List Pair) (q : Bytes) : Prop :=
  ∃ ss, List.Forall₂ WritesPair ps ss ∧ q = ['&'.toUInt8].intercalate ss

/-- the query comes out as the names and values it has been written for -/
def Decoded (ps : List Pair) (q : Bytes) : Prop :=
  ∃ r, load_query (some q) = some r ∧ r.Reads (ps.map Pair.text).reverse ∧
    ∀ name, r.value name = some ((ps.filter fun p => p.name = name).getLast?.map Pair.value)

/-! ## Segments -/

/-- what is between the `&`s of a query -/
def segments (q : Bytes) : List Bytes := if q = [] then [] else q.splitOn '&'.toUInt8

/-- what is read of a segment where there is nothing else -/
def alone (s : Bytes) : Option (Bytes × Bytes) := do
  let (m, e) ← entryAt (s ++ [0]) 0
  e.text m

/-- each entry is what is read of its own segment -/
def BySegments (q : Bytes) : Prop :=
  ∃ r ts, load_query (some q) = some r ∧ r.Reads ts.reverse ∧
    List.Forall₂ (fun s t => alone s = some t) (segments q) ts

/-- behind every `%` there are two characters that belong to it -/
def Complete : Bytes → Prop
  | [] => True
  | c :: s =>
    if c = '%'.toUInt8 then
      match s with
      | _ :: _ :: s => Complete s
      | _ => False
    else Complete s

/-! ## Inside a buffer -/

section Frame

variable {pre post m m' : Bytes} {e : Entry} {v : Value} {c : UInt8}

theorem cstring_local : LocalRead cstring := by
  intro m s post h
  induction m generalizing s with
  | nil => cases h
  | cons c m ih =>
    rw [cstring] at h
    rw [List.cons_append, cstring]
    split_ifs at h ⊢
    · exact h
    · obtain ⟨t, ht, rfl⟩ := Option.map_eq_some_iff.1 h
      rw [ih t ht, Option.map_some]

theorem index_local (c : UInt8) : LocalRead (index c) := by
  intro m i post h
  induction m generalizing i with
  | nil => cases h
  | cons d m ih =>
    rw [index] at h
    rw [List.cons_append, index]
    split_ifs at h ⊢
    · exact h
    · exact h
    · obtain ⟨j, hj, rfl⟩ := Option.map_eq_some_iff.1 h
      rw [ih j hj, Option.map_some]

theorem plustospace_local : Local plustospace := by
  intro m m' post h
  induction m generalizing m' with
  | nil => cases h
  | cons c m ih =>
    rw [plustospace] at h
    rw [List.cons_append, plustospace]
    split_ifs at h ⊢
    · rw [← Option.some.inj h]
      rfl
    · obtain ⟨t, ht, rfl⟩ := Option.map_eq_some_iff.1 h
      rw [ih t ht, Option.map_some]
      rfl

theorem unescape_nul (mid m : Bytes) : unescapeLoop mid (0 :: m) = some (0 :: (mid ++ 0 :: m).tail) := by
  rw [unescapeLoop.eq_def]
  rfl

theorem unescape_plain (hc : c ≠ 0) (hc' : c ≠ '%'.toUInt8) (mid m : Bytes) :
    unescapeLoop mid (c :: m) = (unescapeLoop (mid ++ [c]).tail m).map (c :: ·) := by
  rw [unescapeLoop.eq_def]
  exact (if_neg hc).trans (if_neg hc')

theorem unescape_escape (d d' : UInt8) (mid m : Bytes) : unescapeLoop mid ('%'.toUInt8 :: d :: d' :: m) =
    (unescapeLoop (mid ++ ['%'.toUInt8, d, d']).tail m).map (x2c d d' :: ·) := by
  rw [unescapeLoop.eq_def]
  rfl

theorem unescapeLoop_append {mid m m' : Bytes} (h : unescapeLoop mid m = some m') (post : Bytes) :
    unescapeLoop mid (m ++ post) = some (m' ++ post) := by
  fun_induction unescapeLoop mid m generalizing m' with
  | case1 => cases h
  | case2 mid m =>
    rw [List.cons_append, unescape_nul, ← Option.some.inj h]
    cases mid <;> simp
  | case3 mid d d' m _ ih =>
    obtain ⟨t, ht, rfl⟩ := Option.map_eq_some_iff.1 h
    rw [List.cons_append, List.cons_append, List.cons_append, unescape_escape, ih ht]
    rfl
  | case4 => cases h
  | case5 mid c m hc hc' ih =>
    obtain ⟨t, ht, rfl⟩ := Option.map_eq_some_iff.1 h
    rw [List.cons_append, unescape_plain hc hc', ih ht]
    rfl

theorem unescape_url_local : Local unescape_url := fun _ _ post h => unescapeLoop_append h post

/-- the pointers, for cells that have others in front of them -/
def Value.shift (k : ℕ) : Value → Value
  | .blank => .blank
  | .cell p => .cell (k + p)

def Entry.shift (k : ℕ) (e : Entry) : Entry := ⟨k + e.name, e.value.shift k⟩

/-- **What is read of a segment by itself is read inside a buffer.** -/
theorem entryAt_frame (h : entryAt m 0 = some (m', e)) (pre post : Bytes) :
    entryAt (pre ++ m ++ post) pre.length = some (pre ++ m' ++ post, e.shift pre.length) := by
  simp only [entryAt, onward_zero, List.drop_zero, Option.bind_eq_bind, Option.bind_eq_some_iff] at h
  obtain ⟨m₁, hplus, m₂, hunescape, i, hindex, m₃, hcut, hr⟩ := h
  obtain ⟨rfl, rfl⟩ := Prod.mk.inj (Option.some.inj hr)
  have hdrop : (pre ++ m₂ ++ post).drop pre.length = m₂ ++ post := by rw [List.append_assoc, List.drop_left]
  simp only [entryAt, onward_frame plustospace_local hplus, onward_frame unescape_url_local hunescape, hdrop,
    index_local _ _ _ post hindex, Option.bind_eq_bind, Option.bind_some]
  cases i with
  | none =>
    cases hcut
    rfl
  | some i =>
    rw [cut, zero_add] at hcut
    rw [cut, store_frame hcut, Option.bind_some]
    simp [Entry.shift, Value.shift, behind, add_assoc]

theorem cstring_frame {s : Bytes} {p : ℕ} (h : cstring (m.drop p) = some s) (pre post : Bytes) :
    cstring ((pre ++ m ++ post).drop (pre.length + p)) = some s := by
  rw [List.append_assoc, List.drop_length_add_append]
  rcases le_or_gt p m.length with hp | hp
  · rw [List.drop_append_of_le_length hp]
    exact cstring_local _ _ post h
  · rw [List.drop_eq_nil_of_le hp.le] at h
    cases h

theorem Value.text_frame {s : Bytes} (h : v.text m = some s) (pre post : Bytes) :
    (v.shift pre.length).text (pre ++ m ++ post) = some s := by
  cases v with
  | blank => exact h
  | cell p => exact cstring_frame h pre post

theorem Entry.text_frame {t : Bytes × Bytes} (h : e.text m = some t) (pre post : Bytes) :
    (e.shift pre.length).text (pre ++ m ++ post) = some t := by
  simp only [Entry.text, Option.bind_eq_bind, Option.bind_eq_some_iff] at h ⊢
  obtain ⟨name, hname, value, hvalue, ht⟩ := h
  exact ⟨name, cstring_frame hname pre post, value, Value.text_frame hvalue pre post, ht⟩

end Frame

/-! ## A segment by itself -/

section Alone

variable {s t l m : Bytes} {c : UInt8}

theorem cstring_nul (hs : 0 ∉ s) (m : Bytes) : cstring (s ++ 0 :: m) = some s := by
  induction s with
  | nil => rfl
  | cons c s ih =>
    rw [List.mem_cons, not_or] at hs
    rw [List.cons_append, cstring, if_neg (Ne.symm hs.1), ih hs.2, Option.map_some]

theorem index_none (hs : 0 ∉ s) (hc : c ∉ s) (h0 : c ≠ 0) (m : Bytes) : index c (s ++ 0 :: m) = some none := by
  induction s with
  | nil => rw [List.nil_append, index, if_neg h0.symm, if_pos rfl]
  | cons d s ih =>
    rw [List.mem_cons, not_or] at hs hc
    rw [List.cons_append, index, if_neg (Ne.symm hc.1), if_neg (Ne.symm hs.1), ih hs.2 hc.2]
    rfl

theorem index_some (hs : 0 ∉ s) (hc : c ∉ s) (m : Bytes) : index c (s ++ c :: m) = some (some s.length) := by
  induction s with
  | nil => exact if_pos rfl
  | cons d s ih =>
    rw [List.mem_cons, not_or] at hs hc
    rw [List.cons_append, index, if_neg (Ne.symm hc.1), if_neg (Ne.symm hs.1), ih hs.2 hc.2]
    rfl

theorem plustospace_nul (hs : 0 ∉ s) (m : Bytes) : plustospace (s ++ 0 :: m) = some (s.map plus ++ 0 :: m) := by
  induction s with
  | nil => rfl
  | cons c s ih =>
    rw [List.mem_cons, not_or] at hs
    rw [List.cons_append, plustospace, if_neg (Ne.symm hs.1), ih hs.2]
    rfl

theorem length_plustospace (h : plustospace m = some l) : l.length = m.length := by
  induction m generalizing l with
  | nil => cases h
  | cons c m ih =>
    rw [plustospace] at h
    split_ifs at h
    · rw [← Option.some.inj h]
    · obtain ⟨t, ht, rfl⟩ := Option.map_eq_some_iff.1 h
      rw [List.length_cons, List.length_cons, ih ht]

/-- the loop keeps the number of cells and puts a NUL behind what it has unescaped -/
theorem unescapeLoop_spec {mid : Bytes} (h : unescapeLoop mid m = some l) :
    l.length = mid.length + m.length ∧ 0 ∈ l := by
  fun_induction unescapeLoop mid m generalizing l with
  | case1 => cases h
  | case2 mid m =>
    rw [← Option.some.inj h]
    refine ⟨?_, List.mem_cons_self⟩
    cases mid with
    | nil => simp
    | cons c mid =>
      simp
      omega
  | case3 mid d d' m _ ih =>
    obtain ⟨t, ht, rfl⟩ := Option.map_eq_some_iff.1 h
    obtain ⟨hlen, hmem⟩ := ih ht
    refine ⟨?_, List.mem_cons_of_mem _ hmem⟩
    simp [hlen]
    omega
  | case4 => cases h
  | case5 mid c m _ _ ih =>
    obtain ⟨t, ht, rfl⟩ := Option.map_eq_some_iff.1 h
    obtain ⟨hlen, hmem⟩ := ih ht
    refine ⟨?_, List.mem_cons_of_mem _ hmem⟩
    simp [hlen]
    omega

/-- a text at its first `=` -/
def split (s : Bytes) : Bytes × Bytes := (s.takeWhile (· ≠ '='.toUInt8), (s.dropWhile (· ≠ '='.toUInt8)).tail)

theorem split_of_not_mem (hs : '='.toUInt8 ∉ s) : split s = (s, []) := by
  have hne : ∀ c ∈ s, decide (c ≠ '='.toUInt8) = true := fun c hc => decide_eq_true fun h => hs (h ▸ hc)
  have htake := List.takeWhile_eq_self_iff.2 hne
  have hdrop := List.dropWhile_eq_nil_iff.2 hne
  rw [split, htake, hdrop, List.tail_nil]

theorem split_append (hs : '='.toUInt8 ∉ s) (t : Bytes) : split (s ++ '='.toUInt8 :: t) = (s, t) := by
  have hne : ∀ c ∈ s, decide (c ≠ '='.toUInt8) = true := fun c hc => decide_eq_true fun h => hs (h ▸ hc)
  rw [split, List.takeWhile_append_of_pos hne, List.dropWhile_append_of_pos hne]
  simp

/-- the last steps of `entryAt`, on an unescaped text -/
theorem entryAt_text (hplus : plustospace m = some l) (hunescape : unescape_url l = some (s ++ 0 :: t)) (hs : 0 ∉ s) :
    ∃ m' e, entryAt m 0 = some (m', e) ∧ e.text m' = some (split s) ∧ e.name = 0 ∧
      ∀ p, e.value = .cell p → p = (split s).1.length + 1 := by
  simp only [entryAt, onward_zero, hplus, hunescape, List.drop_zero, Option.bind_eq_bind, Option.bind_some]
  by_cases heq : '='.toUInt8 ∈ s
  · obtain ⟨a, b, rfl, ha⟩ := List.eq_append_cons_of_mem heq
    have hnul : 0 ∉ a ∧ 0 ∉ b := by
      simp only [List.mem_append, List.mem_cons, not_or] at hs
      exact ⟨hs.1, hs.2.2⟩
    rw [List.append_assoc, List.cons_append]
    refine ⟨a ++ 0 :: (b ++ 0 :: t), ⟨0, .cell (a.length + 1)⟩, ?_, ?_, rfl, ?_⟩
    · simp [index_some hnul.1 ha, cut, store_append, behind]
    · have hdrop : (a ++ 0 :: (b ++ 0 :: t)).drop (a.length + 1) = b ++ 0 :: t := by
        rw [List.drop_length_add_append, List.drop_one, List.tail_cons]
      simp [Entry.text, Value.text, cstring_nul hnul.1, hdrop, cstring_nul hnul.2, split_append ha]
    · intro p hp
      cases hp
      rw [split_append ha]
  · refine ⟨s ++ 0 :: t, ⟨0, .blank⟩, ?_, ?_, rfl, nofun⟩
    · simp [index_none hs heq (by decide), cut, behind]
    · simp [Entry.text, Value.text, cstring_nul hs, split_of_not_mem heq]

theorem plus_eq_percent (c : UInt8) : plus c = '%'.toUInt8 ↔ c = '%'.toUInt8 := by
  unfold plus
  split_ifs with h
  · rw [h]
    decide
  · rfl

theorem plus_eq_zero (c : UInt8) : plus c = 0 ↔ c = 0 := by
  unfold plus
  split_ifs with h
  · rw [h]
    decide
  · rfl

theorem zero_not_mem_map_plus (hs : 0 ∉ s) : 0 ∉ s.map plus := by
  intro h
  obtain ⟨c, hc, h0⟩ := List.mem_map.1 h
  exact hs ((plus_eq_zero c).1 h0 ▸ hc)

theorem complete_cons (hc : c ≠ '%'.toUInt8) (s : Bytes) : Complete (c :: s) ↔ Complete s := by
  rw [Complete.eq_def]
  exact Iff.of_eq (if_neg hc)

theorem complete_map_plus (s : Bytes) : Complete (s.map plus) ↔ Complete s := by
  fun_induction Complete s with
  | case1 => rfl
  | case2 d d' s ih => exact ih
  | case3 s hshort =>
    match s with
    | [] => rfl
    | [d] => rfl
    | d :: d' :: s => exact absurd rfl (hshort d d' s)
  | case4 c s hc ih =>
    rw [List.map_cons, complete_cons (mt (plus_eq_percent c).1 hc), ih]

/-- where the loop does not leave the segment -/
theorem unescapeLoop_iff (hs : 0 ∉ s) (mid : Bytes) : (∃ l, unescapeLoop mid (s ++ [0]) = some l) ↔ Complete s := by
  fun_induction Complete s generalizing mid with
  | case1 => exact iff_of_true ⟨_, unescape_nul mid []⟩ trivial
  | case2 d d' s ih =>
    have hs' : 0 ∉ s := fun h => hs (by simp [h])
    simp only [List.cons_append, unescape_escape, Option.map_eq_some_iff, ← ih hs' (mid ++ ['%'.toUInt8, d, d']).tail]
    exact ⟨fun ⟨_, l, hl, _⟩ => ⟨l, hl⟩, fun ⟨l, hl⟩ => ⟨_, l, hl, rfl⟩⟩
  | case3 s hshort =>
    refine iff_of_false (fun ⟨l, hl⟩ => ?_) id
    match s with
    | [] => cases hl
    | [d] =>
      have hend : unescapeLoop (mid ++ ['%'.toUInt8, d, 0]).tail [] = none := by rw [unescapeLoop.eq_def]
      rw [List.cons_append, List.cons_append, List.nil_append, unescape_escape, hend] at hl
      cases hl
    | d :: d' :: s => exact hshort d d' s rfl
  | case4 c s hc ih =>
    rw [List.mem_cons, not_or] at hs
    simp only [List.cons_append, unescape_plain (Ne.symm hs.1) hc, Option.map_eq_some_iff,
      ← ih hs.2 (mid ++ [c]).tail]
    exact ⟨fun ⟨_, l, hl, _⟩ => ⟨l, hl⟩, fun ⟨l, hl⟩ => ⟨_, l, hl, rfl⟩⟩

theorem length_cut {p : ℕ} {i : Option ℕ} (h : cut m p i = some l) : l.length = m.length := by
  cases i with
  | none => rw [← Option.some.inj h]
  | some i => exact length_blit h

theorem length_entryAt {e : Entry} (h : entryAt m 0 = some (l, e)) : l.length = m.length := by
  simp only [entryAt, onward_zero, Option.bind_eq_bind, Option.bind_eq_some_iff] at h
  obtain ⟨m₁, hplus, m₂, hunescape, i, -, m₃, hcut, hr⟩ := h
  obtain ⟨rfl, -⟩ := Prod.mk.inj (Option.some.inj hr)
  rw [length_cut hcut, (unescapeLoop_spec hunescape).1, length_plustospace hplus, List.length_nil, Nat.zero_add]

/-- the value is behind the name -/
theorem entryAt_value {e : Entry} (hs : 0 ∉ s) (h : entryAt (s ++ [0]) 0 = some (l, e)) :
    e.name = 0 ∧ ∃ v : Bytes × Bytes, e.text l = some v ∧ ∀ p, e.value = .cell p → p = v.1.length + 1 := by
  have hplus := plustospace_nul hs []
  have hsteps := h
  simp only [entryAt, onward_zero, hplus, Option.bind_eq_bind, Option.bind_some, Option.bind_eq_some_iff] at hsteps
  obtain ⟨u, hu, -⟩ := hsteps
  obtain ⟨w, x, rfl, hw⟩ := List.eq_append_cons_of_mem (unescapeLoop_spec hu).2
  obtain ⟨m', e', hentry, htext, hname, hvalue⟩ := entryAt_text hplus hu hw
  obtain ⟨rfl, rfl⟩ := Prod.mk.inj (Option.some.inj (h.symm.trans hentry))
  exact ⟨hname, split w, htext, hvalue⟩

theorem exists_of_alone {v : Bytes × Bytes} (h : alone s = some v) : ∃ r : Bytes × Entry,
    entryAt (s ++ [0]) 0 = some r ∧ r.2.text r.1 = some v := by
  rw [alone] at h
  obtain ⟨r, hentry, htext⟩ := Option.bind_eq_some_iff.1 h
  exact ⟨r, hentry, htext⟩

/-- **The segments that can be read.** -/
theorem alone_iff (hs : 0 ∉ s) : Complete s ↔ ∃ v, alone s = some v := by
  have hplus := plustospace_nul hs []
  have hiff := unescapeLoop_iff (zero_not_mem_map_plus hs) []
  rw [complete_map_plus] at hiff
  refine ⟨fun h => ?_, fun ⟨v, h⟩ => ?_⟩
  · obtain ⟨l, hl⟩ := hiff.2 h
    obtain ⟨u, v, rfl, hu⟩ := List.eq_append_cons_of_mem (unescapeLoop_spec hl).2
    obtain ⟨m, e, hentry, htext, -⟩ := entryAt_text hplus hl hu
    refine ⟨split u, ?_⟩
    rw [alone, hentry]
    exact htext
  · obtain ⟨r, hentry, -⟩ := exists_of_alone h
    simp only [entryAt, onward_zero, hplus, Option.bind_eq_bind, Option.bind_some, Option.bind_eq_some_iff] at hentry
    obtain ⟨l, hl, -⟩ := hentry
    exact hiff.1 ⟨l, hl⟩

end Alone

/-! ## The loop -/

/-- where the entries of segments are that come one after the other -/
def place : ℕ → List (Bytes × Entry) → List Entry
  | _, [] => []
  | k, r :: rs => r.2.shift k :: place (k + r.1.length) rs

theorem loadLoop_segments {ss : List Bytes} {rs : List (Bytes × Entry)}
    (h : List.Forall₂ (fun s r => entryAt (s ++ [0]) 0 = some r) ss rs) (hne : ss ≠ [])
    (hfree : ∀ s ∈ ss, 0 ∉ s ∧ '&'.toUInt8 ∉ s) {fuel : ℕ} (hfuel : ss.length ≤ fuel) (pre : Bytes)
    (head : List Entry) :
    loadLoop fuel (pre ++ (['&'.toUInt8].intercalate ss ++ [0])) pre.length head =
      some (pre ++ rs.flatMap Prod.fst, (place pre.length rs).reverse ++ head) := by
  induction h generalizing fuel pre head with
  | nil => exact absurd rfl hne
  | @cons s r ss rs hs hrest ih =>
    obtain ⟨m, e⟩ := r
    obtain ⟨hs₀, hfree⟩ := List.forall_mem_cons.1 hfree
    obtain ⟨fuel, rfl⟩ := Nat.exists_eq_add_one.2 (Nat.zero_lt_of_lt hfuel)
    have hlen := length_entryAt hs
    rw [List.length_append, List.length_singleton] at hlen
    rw [loadLoop, List.drop_left]
    cases ss with
    | nil =>
      cases hrest
      have hframe := entryAt_frame hs pre []
      rw [List.append_nil, List.append_nil] at hframe
      have hindex := index_none hs₀.1 hs₀.2 (by decide) []
      simp only [List.intercalate_singleton, hindex, Option.bind_eq_bind, Option.bind_some, cut, hframe]
      simp [place]
    | cons s' ss =>
      have hjoin : ['&'.toUInt8].intercalate (s :: s' :: ss) ++ [0] =
          s ++ '&'.toUInt8 :: (['&'.toUInt8].intercalate (s' :: ss) ++ [0]) := by
        simp [List.intercalate_cons_cons]
      have hcut : store (pre ++ (s ++ '&'.toUInt8 :: (['&'.toUInt8].intercalate (s' :: ss) ++ [0])))
          (pre.length + s.length) 0 = some (pre ++ (s ++ [0]) ++ (['&'.toUInt8].intercalate (s' :: ss) ++ [0])) := by
        rw [← List.append_assoc, store_append (by simp)]
        simp
      have hnext : pre.length + s.length + 1 = (pre ++ m).length := by
        rw [List.length_append, hlen, add_assoc]
      have hrec := ih (List.cons_ne_nil s' ss) hfree (Nat.succ_le_succ_iff.1 hfuel) (pre ++ m)
        (e.shift pre.length :: head)
      simp only [hjoin, index_some hs₀.1 hs₀.2, cut, hcut, Option.bind_eq_bind, Option.bind_some, entryAt_frame hs,
        hnext, hrec]
      simp [place]

theorem place_texts {rs : List (Bytes × Entry)} {ts : List (Bytes × Bytes)}
    (h : List.Forall₂ (fun r t => Entry.text r.1 r.2 = some t) rs ts) (pre : Bytes) :
    List.Forall₂ (fun e t => Entry.text (pre ++ rs.flatMap Prod.fst) e = some t) (place pre.length rs) ts := by
  induction h generalizing pre with
  | nil => exact .nil
  | @cons r t rs ts ht _ ih =>
    have hhead := Entry.text_frame ht pre (rs.flatMap Prod.fst)
    have htail := ih (pre ++ r.1)
    rw [List.length_append] at htail
    rw [List.append_assoc] at hhead htail
    exact .cons hhead htail

/-- there is an `&` between any two segments -/
theorem length_le_intercalate (c : UInt8) (ss : List Bytes) : ss.length ≤ ([c].intercalate ss).length + 1 := by
  induction ss with
  | nil => exact Nat.zero_le _
  | cons s ss ih =>
    cases ss with
    | nil => simp
    | cons s' ss =>
      rw [List.intercalate_cons_cons]
      simp only [List.length_cons, List.length_append, List.length_nil] at ih ⊢
      omega

theorem exists_entries {ss : List Bytes} {ts : List (Bytes × Bytes)}
    (h : List.Forall₂ (fun s t => alone s = some t) ss ts) :
    ∃ rs, List.Forall₂ (fun s r => entryAt (s ++ [0]) 0 = some r) ss rs ∧
      List.Forall₂ (fun r t => Entry.text r.1 r.2 = some t) rs ts := by
  induction h with
  | nil => exact ⟨[], .nil, .nil⟩
  | cons hs _ ih =>
    obtain ⟨r, hentry, htext⟩ := exists_of_alone hs
    obtain ⟨rs, hentries, htexts⟩ := ih
    exact ⟨r :: rs, .cons hentry hentries, .cons htext htexts⟩

/-- **Segments that can be read by themselves are read one after the other.** -/
theorem load_segments {ss : List Bytes} {ts : List (Bytes × Bytes)}
    (h : List.Forall₂ (fun s t => alone s = some t) ss ts) (hfree : ∀ s ∈ ss, 0 ∉ s ∧ '&'.toUInt8 ∉ s)
    (hne : ['&'.toUInt8].intercalate ss ≠ []) :
    ∃ rs, List.Forall₂ (fun s r => entryAt (s ++ [0]) 0 = some r) ss rs ∧
      load_query (some (['&'.toUInt8].intercalate ss)) = some ⟨rs.flatMap Prod.fst, (place 0 rs).reverse⟩ ∧
      Query.Reads ⟨rs.flatMap Prod.fst, (place 0 rs).reverse⟩ ts.reverse := by
  obtain ⟨rs, hentries, htexts⟩ := exists_entries h
  refine ⟨rs, hentries, ?_, List.forall₂_reverse_iff.2 (place_texts htexts [])⟩
  have hss : ss ≠ [] := fun hss => hne (by rw [hss]; rfl)
  have hloop := loadLoop_segments hentries hss hfree (length_le_intercalate '&'.toUInt8 ss) [] []
  obtain ⟨c, q, hq⟩ := List.exists_cons_of_ne_nil hne
  rw [hq] at hloop ⊢
  rw [List.nil_append, List.nil_append, List.append_nil, List.length_nil] at hloop
  rw [load_query, Nat.succ_eq_add_one, hloop]
  · rfl
  · exact List.cons_ne_nil c q

theorem splitOn_spec (c : UInt8) (q : Bytes) : ∀ s ∈ q.splitOn c, c ∉ s ∧ s ⊆ q := by
  induction q with
  | nil => simp
  | cons d q ih =>
    rw [List.splitOn_cons_eq_if_modifyHead]
    obtain ⟨s, ss, hss⟩ := List.exists_cons_of_ne_nil (List.splitOn_ne_nil c q)
    rw [hss] at ih ⊢
    obtain ⟨⟨hs, hsub⟩, hrest⟩ := List.forall_mem_cons.1 ih
    split_ifs with hd
    · refine List.forall_mem_cons.2 ⟨⟨List.not_mem_nil, List.nil_subset _⟩, fun l hl => ?_⟩
      exact ⟨(ih l hl).1, fun x hx => List.mem_cons_of_mem d ((ih l hl).2 hx)⟩
    · rw [List.modifyHead_cons]
      refine List.forall_mem_cons.2 ⟨⟨?_, List.cons_subset_cons d hsub⟩, fun l hl => ?_⟩
      · exact List.not_mem_cons_of_ne_of_not_mem (fun h => hd (beq_iff_eq.2 h.symm)) hs
      · exact ⟨(hrest l hl).1, fun x hx => List.mem_cons_of_mem d ((hrest l hl).2 hx)⟩

/-- a query by its segments -/
theorem segments_spec {q : Bytes} (hnul : 0 ∉ q) (hq : q ≠ []) : ['&'.toUInt8].intercalate (segments q) = q ∧
    ∀ s ∈ segments q, 0 ∉ s ∧ '&'.toUInt8 ∉ s := by
  rw [segments, if_neg hq]
  refine ⟨List.intercalate_splitOn '&'.toUInt8, fun s hs => ?_⟩
  obtain ⟨hamp, hsub⟩ := splitOn_spec '&'.toUInt8 q s hs
  exact ⟨fun h => hnul (hsub h), hamp⟩

theorem exists_alone {ss : List Bytes} (hnul : ∀ s ∈ ss, 0 ∉ s) (h : ∀ s ∈ ss, Complete s) :
    ∃ ts, List.Forall₂ (fun s t => alone s = some t) ss ts := by
  induction ss with
  | nil => exact ⟨[], .nil⟩
  | cons s ss ih =>
    obtain ⟨hs, hss⟩ := List.forall_mem_cons.1 h
    obtain ⟨hs₀, hss₀⟩ := List.forall_mem_cons.1 hnul
    obtain ⟨t, ht⟩ := (alone_iff hs₀).1 hs
    obtain ⟨ts, hts⟩ := ih hss₀ hss
    exact ⟨t :: ts, .cons ht hts⟩

/-- **When a query is read segment by segment.** -/
theorem bySegments_iff {q : Bytes} (hnul : 0 ∉ q) : BySegments q ↔ ∀ s ∈ segments q, Complete s := by
  rcases eq_or_ne q [] with rfl | hq
  · exact iff_of_true ⟨⟨[], []⟩, [], rfl, .nil, .nil⟩ (by simp [segments])
  · obtain ⟨hjoin, hfree⟩ := segments_spec hnul hq
    refine ⟨fun ⟨r, ts, _, _, halone⟩ s hs => ?_, fun h => ?_⟩
    · obtain ⟨i, hi, rfl⟩ := List.getElem_of_mem hs
      exact (alone_iff (hfree _ hs).1).2 ⟨_, halone.get hi (halone.length_eq ▸ hi)⟩
    · obtain ⟨ts, hts⟩ := exists_alone (fun s hs => (hfree s hs).1) h
      obtain ⟨rs, -, hload, hreads⟩ := load_segments hts hfree (by rwa [hjoin])
      rw [hjoin] at hload
      exact ⟨_, ts, hload, hreads, hts⟩

/-! ## Names and values -/

section Written

variable {c d d' : UInt8} {s t u : Bytes} {n : ℕ}

theorem isalnum_spec (h : isalnum c = true) :
    c ≠ 0 ∧ c ≠ '&'.toUInt8 ∧ c ≠ '%'.toUInt8 ∧ c ≠ '+'.toUInt8 := by
  refine ⟨?_, ?_, ?_, ?_⟩ <;>
  · intro hc
    subst hc
    exact absurd h (by decide)

theorem plus_of_isalnum (h : isalnum c = true) : plus c = c := if_neg (isalnum_spec h).2.2.2

theorem digit_spec (hn : n < 16) (h : Digit n d) : hexdigit d = UInt8.ofNat n ∧ isalnum d = true := by
  have hdecimal : ∀ n < 10, hexdigit ('0'.toUInt8 + UInt8.ofNat n) = UInt8.ofNat n ∧
      isalnum ('0'.toUInt8 + UInt8.ofNat n) = true := by decide
  have hupper : ∀ k < 6, hexdigit ('A'.toUInt8 + UInt8.ofNat k) = UInt8.ofNat (k + 10) ∧
      isalnum ('A'.toUInt8 + UInt8.ofNat k) = true := by decide
  have hlower : ∀ k < 6, hexdigit ('a'.toUInt8 + UInt8.ofNat k) = UInt8.ofNat (k + 10) ∧
      isalnum ('a'.toUInt8 + UInt8.ofNat k) = true := by decide
  rcases h with ⟨hlt, rfl⟩ | ⟨hge, rfl | rfl⟩
  · exact hdecimal n hlt
  · have h := hupper (n - 10) (by omega)
    rwa [Nat.sub_add_cancel hge] at h
  · have h := hlower (n - 10) (by omega)
    rwa [Nat.sub_add_cancel hge] at h

theorem x2c_digits (hd : Digit (c.toNat / 16) d) (hd' : Digit (c.toNat % 16) d') : x2c d d' = c := by
  have hc := c.toNat_lt
  rw [x2c, (digit_spec (by omega) hd).1, (digit_spec (by omega) hd').1]
  apply UInt8.toNat.inj
  simp
  omega

theorem writes_free (h : Writes c t) : 0 ∉ t ∧ '&'.toUInt8 ∉ t := by
  cases h with
  | plain h =>
    have hc := isalnum_spec h
    simp [hc.1.symm, hc.2.1.symm]
  | plus => decide
  | escape _ hd hd' =>
    have hc := c.toNat_lt
    have h₁ := isalnum_spec (digit_spec (by omega) hd).2
    have h₂ := isalnum_spec (digit_spec (by omega) hd').2
    have hpercent : (0 : UInt8) ≠ '%'.toUInt8 ∧ '&'.toUInt8 ≠ '%'.toUInt8 := by decide
    simp [h₁.1.symm, h₁.2.1.symm, h₂.1.symm, h₂.2.1.symm, hpercent]

theorem writesAll_free (h : WritesAll s t) : 0 ∉ t ∧ '&'.toUInt8 ∉ t := by
  induction h with
  | nil => simp
  | cons h _ ih =>
    have hc := writes_free h
    simp [hc.1, hc.2, ih.1, ih.2]

/-- the loop over a written byte -/
theorem writes_unescape (hc : c ≠ 0) (h : Writes c t) (mid m : Bytes) :
    ∃ mid', unescapeLoop mid (t.map plus ++ m) = (unescapeLoop mid' m).map (c :: ·) := by
  cases h with
  | plain h =>
    rw [List.map_singleton, plus_of_isalnum h]
    exact ⟨_, unescape_plain hc (isalnum_spec h).2.2.1 mid m⟩
  | plus => exact ⟨_, unescape_plain hc (by decide) mid m⟩
  | escape _ hd hd' =>
    have hlt := c.toNat_lt
    have h₁ := plus_of_isalnum (digit_spec (by omega) hd).2
    have h₂ := plus_of_isalnum (digit_spec (by omega) hd').2
    have hpercent : plus '%'.toUInt8 = '%'.toUInt8 := by decide
    simp only [List.map_cons, List.map_nil, h₁, h₂, hpercent, List.cons_append, List.nil_append]
    exact ⟨_, (unescape_escape _ _ mid m).trans (by rw [x2c_digits hd hd'])⟩

/-- the loop over a written string -/
theorem writesAll_unescape (hs : 0 ∉ s) (h : WritesAll s t) (mid m : Bytes) :
    ∃ mid', unescapeLoop mid (t.map plus ++ m) = (unescapeLoop mid' m).map (s ++ ·) := by
  induction h generalizing mid with
  | nil => exact ⟨mid, by simp⟩
  | @cons c s t u h _ ih =>
    rw [List.mem_cons, not_or] at hs
    obtain ⟨mid₁, hmid₁⟩ := writes_unescape (Ne.symm hs.1) h mid (u.map plus ++ m)
    obtain ⟨mid₂, hmid₂⟩ := ih hs.2 mid₁
    refine ⟨mid₂, ?_⟩
    rw [List.map_append, List.append_assoc, hmid₁, hmid₂, Option.map_map]
    rfl

theorem writesPair_free {p : Pair} (h : WritesPair p s) : 0 ∉ s ∧ '&'.toUInt8 ∉ s := by
  obtain ⟨t, u, ht, hu, rfl⟩ := h
  have hname := writesAll_free ht
  have hvalue := writesAll_free hu
  have heq : (0 : UInt8) ≠ '='.toUInt8 ∧ '&'.toUInt8 ≠ '='.toUInt8 := by decide
  simp [hname.1, hname.2, hvalue.1, hvalue.2, heq]

/-- **What is read of a written name and value.** -/
theorem alone_pair {p : Pair} (h : WritesPair p s) : alone s = some (split (p.name ++ '='.toUInt8 :: p.value)) := by
  have hfree := writesPair_free h
  obtain ⟨t, u, ht, hu, rfl⟩ := h
  have hplus := plustospace_nul hfree.1 []
  obtain ⟨mid, hname⟩ := writesAll_unescape p.name_nul ht [] ('='.toUInt8 :: (u.map plus ++ [0]))
  obtain ⟨mid', hvalue⟩ := writesAll_unescape p.value_nul hu (mid ++ ['='.toUInt8]).tail [0]
  have heq : plus '='.toUInt8 = '='.toUInt8 := by decide
  have hunescape : unescape_url ((t ++ '='.toUInt8 :: u).map plus ++ [0]) =
      some (p.name ++ '='.toUInt8 :: p.value ++ 0 :: (mid' ++ [0]).tail) := by
    calc unescape_url ((t ++ '='.toUInt8 :: u).map plus ++ [0])
      _ = unescapeLoop [] (t.map plus ++ '='.toUInt8 :: (u.map plus ++ [0])) := by
        rw [unescape_url, List.map_append, List.map_cons, heq, List.append_assoc, List.cons_append]
      _ = (unescapeLoop mid ('='.toUInt8 :: (u.map plus ++ [0]))).map (p.name ++ ·) := hname
      _ = (((unescapeLoop mid' [0]).map (p.value ++ ·)).map ('='.toUInt8 :: ·)).map (p.name ++ ·) := by
        rw [unescape_plain (by decide) (by decide), hvalue]
      _ = _ := by
        rw [unescape_nul]
        simp
  have hnul : 0 ∉ p.name ++ '='.toUInt8 :: p.value := by
    have h0 : (0 : UInt8) ≠ '='.toUInt8 := by decide
    simp [p.name_nul, p.value_nul, h0]
  obtain ⟨m, e, hentry, htext, -⟩ := entryAt_text hplus hunescape hnul
  rw [alone, hentry]
  exact htext

theorem split_pair (p : Pair) : split (p.name ++ '='.toUInt8 :: p.value) = p.text ↔ '='.toUInt8 ∉ p.name := by
  refine ⟨fun h hmem => ?_, fun h => split_append h p.value⟩
  have hname : (p.name ++ '='.toUInt8 :: p.value).takeWhile (· ≠ '='.toUInt8) = p.name := congrArg Prod.fst h
  rw [← hname] at hmem
  simpa using List.mem_takeWhile_imp hmem

end Written

theorem reads_unique {r : Query} {ts ts' : List (Bytes × Bytes)} (h : r.Reads ts) (h' : r.Reads ts') : ts = ts' :=
  List.right_unique_forall₂' (fun _ _ _ ht ht' => Option.some.inj (ht.symm.trans ht')) h h'

/-- what `getvar` finds -/
theorem value_of_reads {r : Query} {ts : List (Bytes × Bytes)} (h : r.Reads ts) (name : Bytes) :
    r.value name = some ((ts.find? fun t => t.1 = name).map Prod.snd) := by
  obtain ⟨m, es⟩ := r
  rw [Query.Reads] at h
  dsimp only at h
  induction h with
  | nil => rfl
  | @cons e t es ts ht _ ih =>
    simp only [Entry.text, Option.bind_eq_bind, Option.bind_eq_some_iff] at ht
    obtain ⟨n, hn, v, hv, hnv⟩ := ht
    obtain rfl : (n, v) = t := Option.some.inj hnv
    rw [Query.value] at ih ⊢
    rw [getvar, hn]
    by_cases hname : n = name
    · simp [hname, hv]
    · simpa [hname] using ih

theorem forall₂_alone {ps : List Pair} {ss : List Bytes} (h : List.Forall₂ WritesPair ps ss) :
    List.Forall₂ (fun s t => alone s = some t) ss (ps.map fun p => split (p.name ++ '='.toUInt8 :: p.value)) := by
  induction h with
  | nil => exact .nil
  | cons h _ ih => exact .cons (alone_pair h) ih

/-- **When names and values come out.** -/
theorem decoded_iff {ps : List Pair} {q : Bytes} (h : WritesQuery ps q) :
    Decoded ps q ↔ ∀ p ∈ ps, '='.toUInt8 ∉ p.name := by
  obtain ⟨ss, hss, rfl⟩ := h
  have hsplit : (ps.map fun p => split (p.name ++ '='.toUInt8 :: p.value)) = ps.map Pair.text ↔
      ∀ p ∈ ps, '='.toUInt8 ∉ p.name := by
    rw [List.map_inj_left]
    exact forall₂_congr fun p _ => split_pair p
  rw [← hsplit]
  have hload : ∃ r, load_query (some (['&'.toUInt8].intercalate ss)) = some r ∧
      r.Reads (ps.map fun p => split (p.name ++ '='.toUInt8 :: p.value)).reverse := by
    cases hss with
    | nil => exact ⟨⟨[], []⟩, rfl, .nil⟩
    | @cons p s ps ss hp hps =>
      have hfree : ∀ s' ∈ s :: ss, 0 ∉ s' ∧ '&'.toUInt8 ∉ s' := by
        intro s' hs'
        obtain ⟨i, hi, rfl⟩ := List.getElem_of_mem hs'
        exact writesPair_free ((List.Forall₂.cons hp hps).get ((List.Forall₂.cons hp hps).length_eq ▸ hi) hi)
      have hne : ['&'.toUInt8].intercalate (s :: ss) ≠ [] := by
        obtain ⟨t, u, -, -, rfl⟩ := hp
        cases ss <;> simp [List.intercalate_cons_cons]
      obtain ⟨rs, -, hload, hreads⟩ := load_segments (forall₂_alone (.cons hp hps)) hfree hne
      exact ⟨_, hload, hreads⟩
  obtain ⟨r, hload, hreads⟩ := hload
  refine ⟨fun ⟨r', hload', hreads', _⟩ => ?_, fun h => ?_⟩
  · rw [hload] at hload'
    cases hload'
    exact List.reverse_injective (reads_unique hreads hreads')
  · rw [h] at hreads
    refine ⟨r, hload, hreads, fun name => ?_⟩
    rw [value_of_reads hreads, ← List.getLast?_filter, List.filter_map, List.getLast?_map, Option.map_map]
    rfl

/-- **When a query of names and values comes out as these, and when a query is read segment by segment.** The first is
so if and only if there is no `=` in a name, the second if and only if no escape is cut off at the end of a segment. -/
theorem query_right_iff (ps : List Pair) (q : Bytes) :
    (WritesQuery ps q → (Decoded ps q ↔ ∀ p ∈ ps, '='.toUInt8 ∉ p.name)) ∧
      (0 ∉ q → (BySegments q ↔ ∀ s ∈ segments q, Complete s)) := ⟨decoded_iff, bySegments_iff⟩

/-- a text of bytes -/
def bytes (s : String) : Bytes := s.toList.map Char.toUInt8

def ab : Pair := ⟨bytes "a b", bytes "1", by decide, by decide⟩

theorem ab_written : WritesQuery [ab] (bytes "a+b=1") := by
  have hname : WritesAll (bytes "a b") (bytes "a+b") :=
    .cons (.plain (by decide)) (.cons .plus (.cons (.plain (by decide)) .nil))
  have hvalue : WritesAll (bytes "1") (bytes "1") := .cons (.plain (by decide)) .nil
  exact ⟨[bytes "a+b=1"], .cons ⟨_, _, hname, hvalue, rfl⟩ .nil, rfl⟩

/-- a query that is all right -/
theorem ab_is_1 : Decoded [ab] (bytes "a+b=1") ∧ BySegments (bytes "a+b=1") := by
  have hsegments : segments (bytes "a+b=1") = [bytes "a+b=1"] := by decide
  have hright := query_right_iff [ab] (bytes "a+b=1")
  refine ⟨(hright.1 ab_written).2 (by decide), (hright.2 (by decide)).2 ?_⟩
  rw [hsegments, List.forall_mem_singleton]
  exact trivial

def equals : Pair := ⟨bytes "a=b", bytes "c", by decide, by decide⟩

/-- **An `=` in a name.** The name `a=b` with the value `c`, written as it should be, is read as a name `a` with the
value `b=c`. And in a query that has a segment that ends in a `%`, the next one loses its name: it is `1`. -/
theorem equals_in_name :
    WritesQuery [equals] (bytes "a%3Db=c") ∧ ¬Decoded [equals] (bytes "a%3Db=c") ∧ ¬BySegments (bytes "a%&b=1") := by
  have hname : WritesAll (bytes "a=b") (bytes "a%3Db") :=
    .cons (.plain (by decide)) (.cons (.escape (by decide) (Or.inl ⟨by decide, rfl⟩) (Or.inr ⟨by decide, Or.inl rfl⟩))
      (.cons (.plain (by decide)) .nil))
  have hvalue : WritesAll (bytes "c") (bytes "c") := .cons (.plain (by decide)) .nil
  refine ⟨⟨[bytes "a%3Db=c"], .cons ⟨_, _, hname, hvalue, rfl⟩ .nil, rfl⟩, ?_, ?_⟩
  · intro ⟨r, hload, hreads, _⟩
    have hr : load_query (some (bytes "a%3Db=c")) =
        some ⟨[97, 0, 98, 61, 99, 0, 99, 0], [⟨0, .cell 2⟩]⟩ := by decide +kernel
    rw [hr] at hload
    cases hload
    have hreads' : Query.Reads ⟨[97, 0, 98, 61, 99, 0, 99, 0], [⟨0, .cell 2⟩]⟩ [(bytes "a", bytes "b=c")] :=
      .cons (by decide) .nil
    exact absurd (reads_unique hreads hreads') (by decide)
  · intro ⟨r, ts, hload, hreads, halone⟩
    have hsegments : segments (bytes "a%&b=1") = [bytes "a%", bytes "b=1"] := by decide
    have hlast : alone (bytes "b=1") = some (bytes "b", bytes "1") := by decide +kernel
    have hr : load_query (some (bytes "a%&b=1")) =
        some ⟨[97, 11, 0, 49, 0, 49, 0], [⟨3, .blank⟩, ⟨0, .cell 3⟩]⟩ := by decide +kernel
    rw [hr] at hload
    cases hload
    have hreads' : Query.Reads ⟨[97, 11, 0, 49, 0, 49, 0], [⟨3, .blank⟩, ⟨0, .cell 3⟩]⟩
        [(bytes "1", []), ([97, 11], bytes "1")] := .cons (by decide) (.cons (by decide) .nil)
    obtain rfl : ts = [([97, 11], bytes "1"), (bytes "1", [])] :=
      List.reverse_injective (reads_unique hreads hreads')
    rw [hsegments] at halone
    cases halone with
    | cons _ hrest =>
      cases hrest with
      | cons h _ =>
        rw [hlast] at h
        exact absurd h (by decide)

end MNetSoft.Ownu
