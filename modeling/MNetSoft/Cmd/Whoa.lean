/-
`whoa`, which prints who is logged in, one line for each first letter. `readUserLists` of `whoa.go` keeps a map from the
letter (the first rune of the name, in upper case) to a slice of names. A name is looked for by binary search, and put
in where it was not found by two calls of `append`, which write into the array of the slice if there is room in it.
`printUsers` colours the names in these arrays.
- `Lists`: what holds of the map while it is filled: its slices are sorted, and no two of them are in one array.
- `readUserLists_lists`: the slices of the map, for all records.
- `printUsers_output`: what is printed, colours included.
- `userLists_right`: each name is in the one list it belongs to, and the total is the number of names.

A byte is a number below 256, and a rune a natural number. `unicode.ToUpper` is a parameter.
-/
import Mathlib.Tactic
import Mathlib.Data.Finmap
import Mathlib.Data.Finset.Sort
import Mathlib.Data.List.Lex
import Mathlib.Order.Lex
import MNetSoft.Core.BinarySearch
import MNetSoft.Core.Slice

namespace MNetSoft.Cmd.Whoa

open MNetSoft.BinarySearch MNetSoft.Slices

/-! ## Model -/

abbrev Byte := Fin 256

abbrev Text := List Byte

abbrev Rune := ℕ

def text (s : String) : Text := s.toList.map fun c => Fin.ofNat 256 c.toNat

def resetColor : Text := text "\x1b[0m"
def headingColor : Text := text "\x1b[1;32m"
def letterColor : Text := text "\x1b[32m"
def countColor : Text := text "\x1b[1;34m"
def knownColor : Text := text "\x1b[1;36m"

/-- a record as it is in the file -/
structure Rec where
  Line : Vector Byte 8
  Name : Vector Byte 32
  Host : Vector Byte 256
  Time : Int64

structure Utmp where
  Name : Text
  Line : Text
  Host : Text
  Time : Int64

/-- what is before the first NUL, or everything -/
def binString (b : List Byte) : Text := b.take (b.idxOf 0)

/-- the next record with a name and a line, from a file of whole records -/
def nextUtmp : List Rec → Option (Utmp × List Rec)
  | [] => none
  | ut :: r =>
    if ut.Name[0] = 0 ∨ ut.Line[0] = 0 then nextUtmp r
    else some (⟨binString ut.Name.toList, binString ut.Line.toList, binString ut.Host.toList, ut.Time⟩, r)

/-- U+FFFD -/
def RuneError : Rune := 0xFFFD

/-- the second byte of a rune is in `lo..hi`, the others are in `0x80..0xBF` -/
def continues (lo hi : ℕ) : Text → ℕ → Bool
  | _, 0 => true
  | [], _ + 1 => false
  | b :: s, n + 1 => lo ≤ b.val && b.val ≤ hi && continues 0x80 0xBF s n

/-- six bits of each byte -/
def bits (r : ℕ) (s : Text) : Rune := s.foldl (fun r b => r * 64 + b.val % 64) r

/-- the first rune of a string, and its width; a wrong encoding is one byte and is `RuneError` -/
def DecodeRuneInString : Text → Rune × ℕ
  | [] => (RuneError, 0)
  | p0 :: s =>
    let p := p0.val
    if p < 0x80 then (p, 1)
    else if 0xC2 ≤ p ∧ p ≤ 0xDF ∧ continues 0x80 0xBF s 1 then (bits (p % 32) (s.take 1), 2)
    else if 0xE0 ≤ p ∧ p ≤ 0xEF ∧ continues (if p = 0xE0 then 0xA0 else 0x80) (if p = 0xED then 0x9F else 0xBF) s 2 then
      (bits (p % 16) (s.take 2), 3)
    else if 0xF0 ≤ p ∧ p ≤ 0xF4 ∧ continues (if p = 0xF0 then 0x90 else 0x80) (if p = 0xF4 then 0x8F else 0xBF) s 3 then
      (bits (p % 8) (s.take 3), 4)
    else (RuneError, 1)

example : DecodeRuneInString [0xC3, 0xA4, 0x74] = (0xE4, 2) := by decide

/-- the runtime of Go: `unicode.ToUpper`, and how large the arrays are that `append` makes -/
structure Runtime where
  ToUpper : Rune → Rune
  growth : Growth

/-- `map[rune][]string` -/
abbrev Users := Finmap fun _ : Rune => Slice

/-- `users[r]` -/
def Users.slice (users : Users) (r : Rune) : Slice := (users.lookup r).getD nil

/-- the names of `users[r]` -/
def Users.names (h : Heap Text) (users : Users) (r : Rune) : List Text := read h (users.slice r)

/-- `sort.SearchStrings` -/
def SearchStrings (a : List Text) (x : Text) : ℕ := Search a.length fun i => decide (x ≤ a.getD i [])

/-- the key of a name -/
def letter (go : Runtime) (name : Text) : Rune := go.ToUpper (DecodeRuneInString name).1

/-- the body of the loop of `readUserLists` -/
def addUser (go : Runtime) (h : Heap Text) (users : Users) (name : Text) : Heap Text × Users :=
  let r := letter go name
  let i := SearchStrings (users.names h r) name
  if i < (users.slice r).len ∧ (users.names h r)[i]? = some name then (h, users)
  else
    let (h, s) := Slices.insert go.growth [] h (users.slice r) name i
    (h, users.insert r s)

/-- the loop, `fuel` bounding its rounds -/
def readLoop (go : Runtime) : ℕ → List Rec → Heap Text × Users → Heap Text × Users
  | 0, _, m => m
  | fuel + 1, file, m =>
    match nextUtmp file with
    | none => m
    | some (ut, rest) => readLoop go fuel rest (addUser go m.1 m.2 ut.Name)

/-- every round takes a record, so their number is enough -/
def readUserLists (go : Runtime) (file : List Rec) : Heap Text × Users := readLoop go file.length file ([], ∅)

/-- the keys of a map come in any order, and are then sorted -/
def sortedKeys (users : Users) : List Rune := users.keys.sort

/-- what a user has asked for, and whom he knows -/
structure Options where
  nocolor : Bool
  iknow : Text → Bool

def colorize (o : Options) (s c : Text) : Text := if o.nocolor then s else c ++ s ++ resetColor

/-- `%c` -/
def encodeRune (r : Rune) : Text :=
  let put (lead n : ℕ) : Text :=
    Fin.ofNat 256 (lead + r / 64 ^ n) :: (List.range n).reverse.map fun k => Fin.ofNat 256 (0x80 + r / 64 ^ k % 64)
  if r < 0x80 then [Fin.ofNat 256 r]
  else if r < 0x800 then put 0xC0 1
  else if 0x10FFFF < r ∨ 0xD800 ≤ r ∧ r < 0xE000 then [0xEF, 0xBF, 0xBD]
  else if r < 0x10000 then put 0xE0 2
  else put 0xF0 3

/-- `%d` -/
def decimal (n : ℕ) : Text := (Nat.toDigits 10 n).map fun c => Fin.ofNat 256 c.toNat

/-- `%03d` -/
def decimal3 (n : ℕ) : Text := List.replicate (3 - (decimal n).length) 48 ++ decimal n

def title (o : Options) : Text := text "\n     " ++ colorize o (text "Current Grex Users") headingColor ++ text "\n\n"

/-- the line for a key -/
def row (o : Options) (r : Rune) (len : ℕ) (names : List Text) : Text :=
  text "     [" ++ colorize o (encodeRune r) letterColor ++ text "] (" ++ colorize o (decimal3 len) countColor ++
    text ") " ++ (text ", ").intercalate names ++ text "\n"

def total (o : Options) (nusers : ℕ) : Text :=
  text "\n     " ++ colorize o (decimal nusers ++ text " users total") headingColor ++ text "\n\n"

/-- what becomes of a name that is written again -/
def known (o : Options) (s : Text) : Option Text := if o.iknow s then some (colorize o s knownColor) else none

/-- the loop of `printUsers`; its state has the heap, what has been printed, and the number of users -/
def printRow (o : Options) (users : Users) (st : Heap Text × Text × ℕ) (r : Rune) : Heap Text × Text × ℕ :=
  let (h, out, nusers) := st
  let s := users.slice r
  let h := setAll (known o) s s.len 0 h
  (h, out ++ row o r s.len (read h s), nusers + s.len)

/-- what is printed -/
def printUsers (o : Options) (h : Heap Text) (users : Users) : Text :=
  let (_, out, nusers) := (sortedKeys users).foldl (printRow o users) (h, title o, 0)
  out ++ total o nusers

/-! ## A name is put in -/

section Sorted

variable {a : List Text} {x : Text}

/-- where a name belongs in a sorted list -/
theorem searchStrings_spec (hs : a.Pairwise (· < ·)) (x : Text) :
    SearchStrings a x ≤ a.length ∧ (∀ y ∈ a.take (SearchStrings a x), y < x) ∧
      ∀ y ∈ a.drop (SearchStrings a x), x ≤ y := by
  have hget : ∀ {i : ℕ} (hi : i < a.length), a.getD i [] = a[i] := fun hi => (List.getElem_eq_getD []).symm
  have hstay : ∀ i j, i ≤ j → j < a.length → decide (x ≤ a.getD i []) = true → decide (x ≤ a.getD j []) = true := by
    intro i j hij hj hi
    rw [decide_eq_true_eq, hget (hij.trans_lt hj)] at hi
    rw [decide_eq_true_eq, hget hj]
    rcases hij.eq_or_lt with rfl | hlt
    · exact hi
    · exact hi.trans (List.pairwise_iff_getElem.1 hs i j (hij.trans_lt hj) hj hlt).le
  obtain ⟨hle, hlo, hhi⟩ := first_spec hstay
  refine ⟨hle, fun y hy => ?_, fun y hy => ?_⟩
  · obtain ⟨i, hi, rfl⟩ := List.mem_take_iff_getElem.1 hy
    have hlt := hlo i (lt_of_lt_of_le hi (min_le_left _ _))
    rw [decide_eq_true_eq, hget (lt_of_lt_of_le hi (min_le_right _ _))] at hlt
    exact not_le.1 hlt
  · obtain ⟨i, hi, rfl⟩ := List.mem_drop_iff_getElem.1 hy
    rw [Nat.add_comm] at hi
    have hge := hhi (SearchStrings a x + i) (Nat.le_add_right _ _) hi
    rwa [decide_eq_true_eq, hget hi] at hge

/-- what is not there yet is put in where it belongs -/
theorem sorted_insert (hs : a.Pairwise (· < ·)) {i : ℕ} (hlo : ∀ y ∈ a.take i, y < x) (hhi : ∀ y ∈ a.drop i, x ≤ y)
    (hnot : a[i]? ≠ some x) : (a.take i ++ x :: a.drop i).Pairwise (· < ·) := by
  have hlt : ∀ y ∈ a.drop i, x < y := by
    intro y hy
    refine lt_of_le_of_ne (hhi y hy) ?_
    rintro rfl
    have hpos : i < a.length := by
      by_contra hge
      rw [List.drop_eq_nil_of_le (not_lt.1 hge)] at hy
      exact absurd hy List.not_mem_nil
    have hne : x ≠ a[i] := fun heq => hnot (heq ▸ List.getElem?_eq_getElem hpos)
    have hdrop := List.drop_eq_getElem_cons hpos
    have hfirst := hhi a[i] (hdrop ▸ List.mem_cons_self)
    have hrest := hs.sublist (List.drop_sublist i a)
    rw [hdrop] at hy hrest
    exact absurd ((List.pairwise_cons.1 hrest).1 x ((List.mem_cons.1 hy).resolve_left hne)) (not_lt.2 hfirst)
  refine List.pairwise_append.2 ⟨hs.sublist (List.take_sublist i a), ?_, ?_⟩
  · exact List.pairwise_cons.2 ⟨hlt, hs.sublist (List.drop_sublist i a)⟩
  · intro y hy z hz
    rcases List.mem_cons.1 hz with rfl | hz
    · exact hlo y hy
    · exact (hlo y hy).trans (hlt z hz)

theorem mem_insert {i : ℕ} {y : Text} : y ∈ a.take i ++ x :: a.drop i ↔ y = x ∨ y ∈ a := by
  conv_rhs => rw [← List.take_append_drop i a]
  simp only [List.mem_append, List.mem_cons]
  tauto

end Sorted

/-! ## The map -/

/-- the arrays of the slices of a map: there is room for each slice, and no array has two of them -/
structure Arrays (h : Heap Text) (users : Users) : Prop where
  valid : ∀ r, Valid h (users.slice r)
  apart : ∀ r r', r ≠ r' → ∀ i, (users.slice r).owns i → ¬(users.slice r').owns i

/-- the map when these names have been read -/
structure Lists (go : Runtime) (h : Heap Text) (users : Users) (seen : Set Text) : Prop extends Arrays h users where
  sorted : ∀ r, (users.names h r).Pairwise (· < ·)
  mem : ∀ r name, name ∈ users.names h r ↔ name ∈ seen ∧ letter go name = r
  key : ∀ name ∈ seen, letter go name ∈ users

variable {go : Runtime} {h h' : Heap Text} {users : Users} {seen : Set Text} {r r' : Rune}

theorem slice_insert (users : Users) (r : Rune) (s : Slice) : Users.slice (users.insert r s) r = s := by
  rw [Users.slice, Finmap.lookup_insert, Option.getD_some]

theorem slice_insert_ne (hne : r' ≠ r) (s : Slice) : Users.slice (users.insert r s) r' = users.slice r' := by
  rw [Users.slice, Users.slice, Finmap.lookup_insert_of_ne _ hne]

/-- another slice than the one that has been written to -/
theorem Arrays.other (ha : Arrays h users) (hap : Apart h h' (users.slice r).owns) (hne : r' ≠ r) :
    Valid h' (users.slice r') ∧ users.names h' r' = users.names h r' :=
  hap.valid (ha.valid r') (ha.apart r' r hne)

theorem arrays_insert (ha : Arrays h users) {s : Slice} {xs : List Text}
    (hs : Result h (users.slice r).owns xs (h', s)) : Arrays h' (users.insert r s) := by
  have hold : ∀ r', r' ≠ r → ∀ i, (users.slice r').owns i → ¬s.owns i := by
    intro r' hne i hi hsi
    rcases hs.place i hsi with hown | hnew
    · exact ha.apart r' r hne i hi hown
    · exact absurd ((ha.valid r').lt hi) (not_lt.2 hnew)
  refine ⟨fun r' => ?_, fun r₁ r₂ hne i h₁ h₂ => ?_⟩
  · by_cases hr : r' = r
    · rw [hr, slice_insert]
      exact hs.valid
    · rw [slice_insert_ne hr]
      exact (ha.other hs.apart hr).1
  · by_cases hr₁ : r₁ = r
    · rw [hr₁, slice_insert] at h₁
      rw [slice_insert_ne (hr₁ ▸ hne.symm)] at h₂
      exact hold r₂ (hr₁ ▸ hne.symm) i h₂ h₁
    · rw [slice_insert_ne hr₁] at h₁
      by_cases hr₂ : r₂ = r
      · rw [hr₂, slice_insert] at h₂
        exact hold r₁ hr₁ i h₁ h₂
      · rw [slice_insert_ne hr₂] at h₂
        exact ha.apart r₁ r₂ hne i h₁ h₂

theorem lists_empty (go : Runtime) : Lists go [] ∅ ∅ where
  valid _ := valid_nil _
  apart _ _ _ _ hi := absurd hi.1 (lt_irrefl 0)
  sorted _ := List.Pairwise.nil
  mem _ _ := ⟨fun h => absurd h List.not_mem_nil, fun h => h.1.elim⟩
  key _ h := h.elim

/-- **A name is read.** -/
theorem addUser_lists (hl : Lists go h users seen) (name : Text) :
    Lists go (addUser go h users name).1 (addUser go h users name).2 (Set.insert name seen) := by
  obtain ⟨hle, hlo, hhi⟩ := searchStrings_spec (hl.sorted (letter go name)) name
  have hlen : (users.names h (letter go name)).length = (users.slice (letter go name)).len :=
    (hl.valid (letter go name)).length_read
  unfold addUser
  dsimp only
  generalize SearchStrings (users.names h (letter go name)) name = i at hle hlo hhi ⊢
  split_ifs with hfound
  · have hseen := ((hl.mem _ name).1 (List.mem_of_getElem? hfound.2)).1
    rwa [show Set.insert name seen = seen from Set.insert_eq_of_mem hseen]
  · have hnot : (users.names h (letter go name))[i]? ≠ some name :=
      fun heq => hfound ⟨hlen ▸ (List.getElem?_eq_some_iff.1 heq).1, heq⟩
    have hres := insert_spec go.growth [] (hl.valid (letter go name)) name (hle.trans hlen.le)
    generalize Slices.insert go.growth [] h (users.slice (letter go name)) name i = res at hres ⊢
    obtain ⟨h', s⟩ := res
    have hnew : Users.names h' (users.insert (letter go name) s) (letter go name) =
        (users.names h (letter go name)).take i ++ name :: (users.names h (letter go name)).drop i := by
      rw [Users.names, slice_insert]
      exact hres.read
    have hother : ∀ r, r ≠ letter go name → Users.names h' (users.insert (letter go name) s) r = users.names h r := by
      intro r hne
      rw [Users.names, slice_insert_ne hne]
      exact (hl.other hres.apart hne).2
    refine ⟨arrays_insert hl.toArrays hres, fun r => ?_, fun r y => ?_, fun y hy => ?_⟩
    · by_cases hr : r = letter go name
      · rw [hr, hnew]
        exact sorted_insert (hl.sorted _) hlo hhi hnot
      · rw [hother r hr]
        exact hl.sorted r
    · have hins : y ∈ Set.insert name seen ↔ y = name ∨ y ∈ seen := Iff.rfl
      by_cases hr : r = letter go name
      · rw [hr, hnew, mem_insert, hl.mem, hins]
        constructor
        · rintro (rfl | ⟨hy, hk⟩)
          · exact ⟨Or.inl rfl, rfl⟩
          · exact ⟨Or.inr hy, hk⟩
        · rintro ⟨rfl | hy, hk⟩
          · exact Or.inl rfl
          · exact Or.inr ⟨hy, hk⟩
      · rw [hother r hr, hl.mem, hins]
        refine ⟨fun hy => ⟨Or.inr hy.1, hy.2⟩, fun hy => ⟨hy.1.resolve_left ?_, hy.2⟩⟩
        rintro rfl
        exact hr hy.2.symm
    · rcases hy with rfl | hy
      · exact Finmap.mem_insert.2 (Or.inl rfl)
      · exact Finmap.mem_insert.2 (Or.inr (hl.key y hy))

/-! ## The file -/

/-- the names of the records that have a name and a line -/
def logins (file : List Rec) : List Text :=
  (file.filter fun ut => binString ut.Name.toList ≠ [] ∧ binString ut.Line.toList ≠ []).map
    fun ut => binString ut.Name.toList

theorem binString_ne_nil {n : ℕ} (v : Vector Byte (n + 1)) : binString v.toList ≠ [] ↔ v[0] ≠ 0 := by
  have hcons : v.toList = v[0] :: v.toList.tail := by
    have hlen : 0 < v.toList.length := by simp
    have hdrop := List.drop_eq_getElem_cons hlen
    rwa [List.drop_zero, Vector.getElem_toList, zero_add, List.drop_one] at hdrop
  rw [hcons, binString, List.idxOf_cons]
  by_cases h0 : v[0] = 0
  · simp [h0]
  · simp [h0, cond_eq_ite]

/-- what `nextUtmp` returns, and what it leaves -/
theorem nextUtmp_spec (file : List Rec) :
    (nextUtmp file = none ∧ logins file = []) ∨
      ∃ ut rest, nextUtmp file = some (ut, rest) ∧ logins file = ut.Name :: logins rest ∧
      rest.length < file.length := by
  induction file with
  | nil => exact Or.inl ⟨rfl, rfl⟩
  | cons ut file ih =>
    by_cases hnone : ut.Name[0] = 0 ∨ ut.Line[0] = 0
    · have hskip : logins (ut :: file) = logins file := by
        rw [logins, List.filter_cons_of_neg, logins]
        simpa only [decide_eq_true_eq, binString_ne_nil, not_and_or, not_not] using hnone
      rw [nextUtmp, if_pos hnone, hskip]
      refine ih.imp_right ?_
      rintro ⟨u, rest, hu, hl, hlt⟩
      exact ⟨u, rest, hu, hl, hlt.trans (Nat.lt_succ_self _)⟩
    · refine Or.inr ⟨_, file, by rw [nextUtmp, if_neg hnone], ?_, Nat.lt_succ_self _⟩
      rw [logins, List.filter_cons_of_pos, List.map_cons, logins]
      simpa only [decide_eq_true_eq, binString_ne_nil, not_or] using hnone

theorem readLoop_lists {fuel : ℕ} {file : List Rec} (hl : Lists go h users seen) (hfuel : file.length ≤ fuel) :
    Lists go (readLoop go fuel file (h, users)).1 (readLoop go fuel file (h, users)).2
      (seen ∪ {name | name ∈ logins file}) := by
  induction fuel generalizing file h users seen with
  | zero =>
    obtain rfl := List.length_eq_zero_iff.1 (Nat.le_zero.1 hfuel)
    have hnone : {name | name ∈ logins []} = (∅ : Set Text) := Set.eq_empty_of_forall_notMem fun _ h => nomatch h
    rwa [hnone, Set.union_empty]
  | succ fuel ih =>
    rcases nextUtmp_spec file with ⟨hnext, hnone⟩ | ⟨ut, rest, hnext, hsome, hlt⟩
    · rw [readLoop, hnext, hnone]
      simpa using hl
    · have hfuel' : rest.length ≤ fuel := by omega
      have hrest := ih (addUser_lists hl ut.Name) hfuel'
      have hset : seen ∪ {name | name ∈ logins file} = Set.insert ut.Name seen ∪ {name | name ∈ logins rest} := by
        ext name
        simp only [hsome, Set.mem_union, Set.mem_ofPred, List.mem_cons]
        exact or_left_comm.trans or_assoc.symm
      have hloop : readLoop go (fuel + 1) file (h, users) = readLoop go fuel rest (addUser go h users ut.Name) := by
        rw [readLoop, hnext]
      rw [hloop, hset]
      exact hrest

/-- **The map when the file has been read.** -/
theorem readUserLists_lists (go : Runtime) (file : List Rec) :
    Lists go (readUserLists go file).1 (readUserLists go file).2 {name | name ∈ logins file} := by
  have hrun := readLoop_lists (lists_empty go) (le_refl file.length)
  rwa [Set.empty_union] at hrun

/-! ## What is printed -/

theorem mem_sortedKeys : r ∈ sortedKeys users ↔ r ∈ users := (Finset.mem_sort _).trans Finmap.mem_keys

theorem nodup_sortedKeys (users : Users) : (sortedKeys users).Nodup := Finset.sort_nodup _ _

/-- all the names, in the order in which they are printed -/
def allNames (h : Heap Text) (users : Users) : List Text := (sortedKeys users).flatMap (users.names h)

theorem mem_allNames (hl : Lists go h users seen) {name : Text} : name ∈ allNames h users ↔ name ∈ seen := by
  rw [allNames, List.mem_flatMap]
  constructor
  · rintro ⟨r, -, hr⟩
    exact ((hl.mem r name).1 hr).1
  · intro hn
    exact ⟨letter go name, mem_sortedKeys.2 (hl.key name hn), (hl.mem _ name).2 ⟨hn, rfl⟩⟩

theorem nodup_allNames (hl : Lists go h users seen) : (allNames h users).Nodup := by
  refine List.nodup_flatMap.2 ⟨fun r _ => (hl.sorted r).imp ne_of_lt, ?_⟩
  refine (nodup_sortedKeys users).imp fun {r r'} hne name hr hr' => hne ?_
  exact ((hl.mem r name).1 hr).2.symm.trans ((hl.mem r' name).1 hr').2

/-- the name as it is printed -/
def coloured (o : Options) (s : Text) : Text := (known o s).getD s

/-- the lines for some keys -/
theorem printRows (o : Options) (ha : Arrays h users) {ks : List Rune} (hks : ks.Nodup) (out : Text) (n : ℕ) :
    (ks.foldl (printRow o users) (h, out, n)).2 =
      (out ++ ks.flatMap fun r => row o r (users.names h r).length ((users.names h r).map (coloured o)),
        n + (ks.flatMap (users.names h)).length) := by
  induction ks generalizing h out n with
  | nil => simp
  | cons r ks ih =>
    obtain ⟨hnot, hks⟩ := List.nodup_cons.1 hks
    obtain ⟨hap, hv, hread⟩ := setAll_spec (known o) (users.slice r).len (ha.valid r) (Nat.zero_add _)
    have hother : ∀ r' ∈ ks, users.names (setAll (known o) (users.slice r) (users.slice r).len 0 h) r' =
        users.names h r' := fun r' hr' => (ha.other hap (fun heq => hnot (heq ▸ hr'))).2
    have ha' : Arrays (setAll (known o) (users.slice r) (users.slice r).len 0 h) users := by
      refine ⟨fun r' => ?_, ha.apart⟩
      by_cases hr : r' = r
      · exact hr ▸ hv
      · exact (ha.other hap hr).1
    have hlen : (users.slice r).len = (users.names h r).length := (ha.valid r).length_read.symm
    have hrows := List.flatMap_congr (l := ks) (f := fun r' => row o r'
        (users.names (setAll (known o) (users.slice r) (users.slice r).len 0 h) r').length
        ((users.names (setAll (known o) (users.slice r) (users.slice r).len 0 h) r').map (coloured o)))
      fun r' hr' => by rw [hother r' hr']
    rw [List.foldl_cons, printRow, ih ha' hks, List.flatMap_congr hother, hrows, hread, hlen]
    simp only [List.take_zero, List.nil_append, List.drop_zero, List.flatMap_cons,
      List.append_assoc, List.length_append]
    rw [Nat.add_assoc]
    rfl

/-- **What `printUsers` prints.** -/
theorem printUsers_output (o : Options) (ha : Arrays h users) :
    printUsers o h users =
      title o ++ ((sortedKeys users).flatMap fun r =>
        row o r (users.names h r).length ((users.names h r).map (coloured o))) ++
          total o (allNames h users).length := by
  have hrows := printRows o ha (nodup_sortedKeys users) (title o) 0
  rw [Nat.zero_add] at hrows
  rw [printUsers]
  generalize (sortedKeys users).foldl (printRow o users) (h, title o, 0) = st at hrows ⊢
  obtain ⟨h', out, n⟩ := st
  cases hrows
  rfl

/-- **The lists of users are right.** -/
theorem userLists_right (go : Runtime) (file : List Rec) (o : Options) :
    let (h, users) := readUserLists go file
    (∀ r, (users.names h r).Pairwise (· < ·)) ∧
    (∀ r name, name ∈ users.names h r ↔
      (∃ ut ∈ file, binString ut.Name.toList = name ∧ name ≠ [] ∧ binString ut.Line.toList ≠ []) ∧
        r = go.ToUpper (DecodeRuneInString name).1) ∧
    (allNames h users).Nodup ∧ (∀ name, name ∈ allNames h users ↔ name ∈ logins file) ∧
    printUsers o h users =
      title o ++ ((sortedKeys users).flatMap fun r =>
        row o r (users.names h r).length ((users.names h r).map (coloured o))) ++
        total o (logins file).toFinset.card := by
  have hl := readUserLists_lists go file
  generalize readUserLists go file = m at hl ⊢
  obtain ⟨h, users⟩ := m
  have hlogins : ∀ name, name ∈ logins file ↔
      ∃ ut ∈ file, binString ut.Name.toList = name ∧ name ≠ [] ∧ binString ut.Line.toList ≠ [] := by
    intro name
    simp only [logins, List.mem_map, List.mem_filter, decide_eq_true_eq]
    constructor
    · rintro ⟨ut, ⟨hut, hne⟩, rfl⟩
      exact ⟨ut, hut, rfl, hne⟩
    · rintro ⟨ut, hut, rfl, hne⟩
      exact ⟨ut, ⟨hut, hne⟩, rfl⟩
  have hcard : (allNames h users).length = (logins file).toFinset.card := by
    rw [← List.toFinset_card_of_nodup (nodup_allNames hl)]
    congr 1
    ext name
    rw [List.mem_toFinset, List.mem_toFinset]
    exact mem_allNames hl
  refine ⟨hl.sorted, fun r name => ?_, nodup_allNames hl, fun name => mem_allNames hl, ?_⟩
  · rw [hl.mem, ← hlogins, eq_comm]
    rfl
  · rw [printUsers_output o hl.toArrays, hcard]

end MNetSoft.Cmd.Whoa
