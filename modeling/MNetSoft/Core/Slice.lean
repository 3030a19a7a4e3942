/-
Slices of Go: a part of an array, with a length and room behind it. `append` writes into the room if there is enough of
it, so that other slices of the array see it, and otherwise copies to an array of its own. How much larger that is, is a
parameter.
- `append_spec`: what a slice has after an `append`, in which array, and what has not changed.
- `insert_spec`: an element put into a slice by two calls of `append`.
- `setAll_spec`: some of the elements of a slice replaced, one by one.
-/
import Mathlib.Tactic

namespace MNetSoft.Slices

variable {α : Type*}

/-- the arrays that have been allocated, at the addresses 0, 1, .. -/
abbrev Heap (α : Type*) := List (List α)

/-- `len` elements from `off` on in the array at `arr`, which may grow up to `cap` elements -/
structure Slice where
  arr : ℕ
  off : ℕ
  len : ℕ
  cap : ℕ
deriving DecidableEq

def nil : Slice := ⟨0, 0, 0, 0⟩

/-- the capacity of a new array: enough for what is needed -/
structure Growth where
  grow : ℕ → ℕ → ℕ
  le_grow : ∀ cap needed, needed ≤ grow cap needed

def array (h : Heap α) (i : ℕ) : List α := h[i]?.getD []

/-- the elements of a slice -/
def read (h : Heap α) (s : Slice) : List α := ((array h s.arr).drop s.off).take s.len

/-- the array the slice has room in, if it has room -/
def Slice.owns (s : Slice) (i : ℕ) : Prop := 0 < s.cap ∧ i = s.arr

/-- `s[:i]` -/
def Slice.upto (s : Slice) (i : ℕ) : Slice := { s with len := i }

/-- `s[i:]` -/
def Slice.behind (s : Slice) (i : ℕ) : Slice := ⟨s.arr, s.off + i, s.len - i, s.cap - i⟩

/-- elements written into an array from `i` on -/
def overwrite (m : List α) (i : ℕ) (xs : List α) : List α := m.take i ++ xs ++ m.drop (i + xs.length)

/-- a slice of a new array with these elements and `room` more, which have the zero value -/
def alloc (h : Heap α) (zero : α) (xs : List α) (cap : ℕ) : Heap α × Slice :=
  (h ++ [xs ++ List.replicate (cap - xs.length) zero], ⟨h.length, 0, xs.length, cap⟩)

def append (g : Growth) (zero : α) (h : Heap α) (s : Slice) (xs : List α) : Heap α × Slice :=
  if s.len + xs.length ≤ s.cap then
    (h.modify s.arr fun m => overwrite m (s.off + s.len) xs, { s with len := s.len + xs.length })
  else alloc h zero (read h s ++ xs) (g.grow s.cap (s.len + xs.length))

/-- `append(a[:i], append([]T{x}, a[i:]...)...)` -/
def insert (g : Growth) (zero : α) (h : Heap α) (a : Slice) (x : α) (i : ℕ) : Heap α × Slice :=
  let (h, one) := alloc h zero [x] 1
  let (h, tail) := append g zero h one (read h (a.behind i))
  append g zero h (a.upto i) (read h tail)

/-- `s[i] = x` -/
def set (h : Heap α) (s : Slice) (i : ℕ) (x : α) : Heap α := h.modify s.arr fun m => m.set (s.off + i) x

/-- the elements from `i` on, of which `f` replaces some; each is read when it is its turn -/
def setAll (f : α → Option α) (s : Slice) : ℕ → ℕ → Heap α → Heap α
  | 0, _, h => h
  | n + 1, i, h =>
    match (read h s)[i]? >>= f with
    | none => setAll f s n (i + 1) h
    | some y => setAll f s n (i + 1) (set h s i y)

/-! ## What a slice has -/

/-- the slice is in its array; without room it may be in none -/
structure Valid (h : Heap α) (s : Slice) : Prop where
  len_le : s.len ≤ s.cap
  cap_le : 0 < s.cap → s.off + s.cap ≤ (array h s.arr).length

variable {h h' : Heap α} {s t : Slice} {xs m : List α} {i j : ℕ} {x : α} {g : Growth} {zero : α}

theorem valid_nil (h : Heap α) : Valid h nil := ⟨le_rfl, fun hpos => absurd hpos (lt_irrefl 0)⟩

theorem Valid.length_read (hs : Valid h s) : (read h s).length = s.len := by
  have hlen := hs.len_le
  rw [read, List.length_take, List.length_drop]
  by_cases hcap : 0 < s.cap
  · have hle := hs.cap_le hcap
    omega
  · omega

theorem array_append_left (hi : i < h.length) (m : List α) : array (h ++ [m]) i = array h i := by
  rw [array, array, List.getElem?_append_left hi]

theorem array_append_right (h : Heap α) (m : List α) : array (h ++ [m]) h.length = m := by
  simp [array]

theorem array_modify (hi : i < h.length) (f : List α → List α) : array (h.modify i f) i = f (array h i) := by
  rw [array, array, List.getElem?_modify_eq, List.getElem?_eq_getElem hi]
  rfl

theorem array_modify_ne (hij : i ≠ j) (f : List α → List α) : array (h.modify i f) j = array h j := by
  rw [array, array, List.getElem?_modify]
  cases h[j]? with
  | none => rfl
  | some m => simp [hij]

theorem array_of_le (hi : h.length ≤ i) : array h i = [] := by
  rw [array, List.getElem?_eq_none hi, Option.getD_none]

/-- a slice with room is in an array that has been allocated -/
theorem Valid.lt (hs : Valid h s) (hi : s.owns i) : i < h.length := by
  obtain ⟨hcap, rfl⟩ := hi
  by_contra hge
  have hle := hs.cap_le hcap
  rw [array_of_le (not_lt.1 hge), List.length_nil] at hle
  omega

theorem overwrite_nil (m : List α) (i : ℕ) : overwrite m i [] = m := by
  rw [overwrite, List.append_nil, List.length_nil, Nat.add_zero, List.take_append_drop]

theorem length_overwrite (hi : i + xs.length ≤ m.length) : (overwrite m i xs).length = m.length := by
  simp only [overwrite, List.length_append, List.length_take, List.length_drop]
  omega

/-- the elements from `off` on, with others behind the first of them -/
theorem read_overwrite {off len : ℕ} (hi : off + len + xs.length ≤ m.length) :
    ((overwrite m (off + len) xs).drop off).take (len + xs.length) = (m.drop off).take len ++ xs := by
  have htake : (m.take (off + len)).drop off = (m.drop off).take len := by
    rw [List.drop_take, Nat.add_sub_cancel_left]
  have hlen : ((m.drop off).take len ++ xs).length = len + xs.length := by
    rw [List.length_append, List.length_take, List.length_drop]
    omega
  have hle : off ≤ (m.take (off + len) ++ xs).length := by
    rw [List.length_append, List.length_take]
    omega
  rw [overwrite, List.drop_append_of_le_length hle, List.drop_append_of_le_length, htake, ← hlen, List.take_left]
  rw [List.length_take]
  omega

/-! ## `append` -/

/-- What has become of a heap where only these arrays have been written to: the others that there were are the same. -/
structure Apart (h h' : Heap α) (own : ℕ → Prop) : Prop where
  length_le : h.length ≤ h'.length
  same : ∀ i < h.length, ¬own i → array h' i = array h i

variable {own other : ℕ → Prop}

theorem Apart.refl (h : Heap α) (own : ℕ → Prop) : Apart h h own := ⟨le_rfl, fun _ _ _ => rfl⟩

theorem Apart.trans {h'' : Heap α} (h1 : Apart h h' own) (h2 : Apart h' h'' own) : Apart h h'' own :=
  ⟨h1.length_le.trans h2.length_le,
    fun i hi hne => (h2.same i (hi.trans_le h1.length_le) hne).trans (h1.same i hi hne)⟩

/-- then only arrays are written to that were not there -/
theorem Apart.fresh {h'' : Heap α} (h1 : Apart h h' own) (h2 : Apart h' h'' other)
    (hnew : ∀ i, other i → h.length ≤ i) : Apart h h'' own :=
  ⟨h1.length_le.trans h2.length_le,
    fun i hi hne => (h2.same i (hi.trans_le h1.length_le) fun h => absurd (hnew i h) (not_le.2 hi)).trans
      (h1.same i hi hne)⟩

/-- a slice in another array -/
theorem Apart.valid (ha : Apart h h' own) (ht : Valid h t) (hne : ∀ i, t.owns i → ¬own i) :
    Valid h' t ∧ read h' t = read h t := by
  by_cases hcap : 0 < t.cap
  · have hsame := ha.same t.arr (ht.lt ⟨hcap, rfl⟩) (hne _ ⟨hcap, rfl⟩)
    exact ⟨⟨ht.len_le, fun _ => hsame ▸ ht.cap_le hcap⟩, by rw [read, read, hsame]⟩
  · have hlen : t.len = 0 := by
      have hle := ht.len_le
      omega
    exact ⟨⟨ht.len_le, fun h => absurd h hcap⟩, by rw [read, read, hlen, List.take_zero, List.take_zero]⟩

/-- a change in the array of a slice -/
theorem apart_modify (hcap : 0 < s.cap) (f : List α → List α) : Apart h (h.modify s.arr f) s.owns :=
  ⟨(List.length_modify ..).ge, fun _ _ hne => array_modify_ne (fun heq => hne ⟨hcap, heq.symm⟩) f⟩

/-- What an `append` or an `insert` leaves: the slice is in an array it was in before or in a new one, and has these
elements. -/
structure Result (h : Heap α) (own : ℕ → Prop) (xs : List α) (r : Heap α × Slice) : Prop where
  apart : Apart h r.1 own
  place : ∀ i, r.2.owns i → own i ∨ h.length ≤ i
  valid : Valid r.1 r.2
  read : Slices.read r.1 r.2 = xs

theorem alloc_spec (zero : α) (xs : List α) {cap : ℕ} (own : ℕ → Prop) (hcap : xs.length ≤ cap) :
    Result h own xs (alloc h zero xs cap) := by
  have hnew := array_append_right h (xs ++ List.replicate (cap - xs.length) zero)
  refine ⟨⟨by simp [alloc], fun i hi _ => array_append_left hi _⟩, fun i hi => Or.inr hi.2.ge, ⟨hcap, fun _ => ?_⟩, ?_⟩
  · dsimp only [alloc]
    rw [hnew, List.length_append, List.length_replicate]
    omega
  · rw [Slices.read, alloc, hnew, List.drop_zero, List.take_left]

/-- **`append`** -/
theorem append_spec (g : Growth) (zero : α) (hs : Valid h s) (xs : List α) :
    Result h s.owns (Slices.read h s ++ xs) (append g zero h s xs) := by
  unfold append
  split_ifs with hfit
  · by_cases hcap : 0 < s.cap
    · have hle := hs.cap_le hcap
      have harr := array_modify (hs.lt ⟨hcap, rfl⟩) fun m => overwrite m (s.off + s.len) xs
      refine ⟨apart_modify hcap _, fun i hi => Or.inl hi, ⟨hfit, fun _ => ?_⟩, ?_⟩
      · dsimp only
        rw [harr, length_overwrite (by omega)]
        exact hle
      · have hnew : s.off + s.len + xs.length ≤ (array h s.arr).length := by omega
        rw [Slices.read, harr]
        exact read_overwrite hnew
    · have hlen := hs.len_le
      have hxs : xs = [] := List.length_eq_zero_iff.1 (by omega)
      -- nothing is written
      have hsame : (h.modify s.arr fun m => overwrite m (s.off + s.len) xs) = h := by
        rw [hxs]
        simp only [overwrite_nil]
        exact List.modify_id s.arr h
      rw [hsame, hxs, List.append_nil]
      exact ⟨Apart.refl h _, fun i hi => Or.inl hi, hs, rfl⟩
  · have hcap := g.le_grow s.cap (s.len + xs.length)
    exact alloc_spec zero _ _ (by rw [List.length_append, hs.length_read]; exact hcap)

theorem read_behind (h : Heap α) (s : Slice) (i : ℕ) : read h (s.behind i) = (read h s).drop i := by
  rw [read, read, Slice.behind, List.drop_take, List.drop_drop]

theorem read_upto (hi : i ≤ s.len) : read h (s.upto i) = (read h s).take i := by
  rw [read, read, Slice.upto, List.take_take, min_eq_left hi]

theorem Valid.upto (hs : Valid h s) (hi : i ≤ s.len) : Valid h (s.upto i) := ⟨hi.trans hs.len_le, hs.cap_le⟩

/-- **An element is put in** at `i`. What is behind has been copied before the outer `append` writes over it. -/
theorem insert_spec (g : Growth) (zero : α) (hs : Valid h s) (x : α) (hi : i ≤ s.len) :
    Result h s.owns ((Slices.read h s).take i ++ x :: (Slices.read h s).drop i) (insert g zero h s x i) := by
  have hone : Result h (fun _ => False) [x] (alloc h zero [x] 1) := alloc_spec zero [x] _ le_rfl
  unfold insert
  generalize alloc h zero [x] 1 = r₁ at hone ⊢
  obtain ⟨h₁, one⟩ := r₁
  obtain ⟨-, hread₁⟩ := hone.apart.valid hs fun _ _ => not_false
  have htail := append_spec g zero hone.valid (Slices.read h₁ (s.behind i))
  rw [hone.read, read_behind, hread₁] at htail
  dsimp only
  rw [read_behind, hread₁]
  generalize append g zero h₁ one ((Slices.read h s).drop i) = r₂ at htail ⊢
  obtain ⟨h₂, tail⟩ := r₂
  have hnew : Apart h h₂ fun _ => False :=
    hone.apart.fresh htail.apart fun i hi => (hone.place i hi).resolve_left not_false
  obtain ⟨hs₂, hread₂⟩ := hnew.valid hs fun _ _ => not_false
  have hres := append_spec g zero (hs₂.upto hi) (Slices.read h₂ tail)
  rw [read_upto hi, hread₂, htail.read] at hres
  dsimp only
  rw [htail.read]
  have hboth : Apart h h₂ s.owns := (Apart.refl h s.owns).fresh hnew fun _ => False.elim
  exact ⟨hboth.trans hres.apart, fun i hi => (hres.place i hi).imp_right hnew.length_le.trans, hres.valid, hres.read⟩

/-! ## Elements replaced -/

theorem set_spec (hs : Valid h s) (hi : i < s.len) (x : α) :
    Apart h (set h s i x) s.owns ∧ Valid (set h s i x) s ∧ read (set h s i x) s = (read h s).set i x := by
  have hlen := hs.len_le
  have hpos : 0 < s.cap := by omega
  have harr := array_modify (hs.lt ⟨hpos, rfl⟩) fun m => m.set (s.off + i) x
  refine ⟨apart_modify hpos _, ⟨hlen, fun hcap => ?_⟩, ?_⟩
  · rw [set, harr, List.length_set]
    exact hs.cap_le hcap
  · rw [read, set, harr, List.drop_set, if_neg (by omega), Nat.add_sub_cancel_left, List.take_set]
    rfl

/-- **The elements are replaced** one by one, and nothing else is. -/
theorem setAll_spec (f : α → Option α) (n : ℕ) (hs : Valid h s) (hn : i + n = s.len) :
    Apart h (setAll f s n i h) s.owns ∧ Valid (setAll f s n i h) s ∧
      read (setAll f s n i h) s = (read h s).take i ++ ((read h s).drop i).map fun x => (f x).getD x := by
  induction n generalizing i h with
  | zero =>
    have hall : (read h s).length ≤ i := by
      rw [hs.length_read]
      omega
    exact ⟨Apart.refl h _, hs, by rw [setAll, List.drop_eq_nil_of_le hall, List.take_of_length_le hall]; simp⟩
  | succ n ih =>
    have hi : i < (read h s).length := by
      rw [hs.length_read]
      omega
    have hget : (read h s)[i]? = some (read h s)[i] := List.getElem?_eq_getElem hi
    have hdrop : (read h s).drop i = (read h s)[i] :: (read h s).drop (i + 1) := List.drop_eq_getElem_cons hi
    rw [setAll, hget, Option.bind_eq_bind, Option.bind_some]
    cases hf : f (read h s)[i] with
    | none =>
      obtain ⟨ha, hv, hr⟩ := ih (i := i + 1) hs (by omega)
      refine ⟨ha, hv, hr.trans ?_⟩
      calc (read h s).take (i + 1) ++ ((read h s).drop (i + 1)).map (fun x => (f x).getD x)
          = (read h s).take i ++ (read h s)[i] :: ((read h s).drop (i + 1)).map (fun x => (f x).getD x) := by
            rw [List.take_succ_eq_append_getElem hi, List.append_assoc, List.singleton_append]
        _ = (read h s).take i ++ ((read h s).drop i).map (fun x => (f x).getD x) := by
            rw [hdrop, List.map_cons, hf, Option.getD_none]
    | some y =>
      obtain ⟨ha₁, hv₁, hr₁⟩ := set_spec hs (by omega : i < s.len) y
      obtain ⟨ha, hv, hr⟩ := ih (i := i + 1) hv₁ (by omega)
      refine ⟨ha₁.trans ha, hv, hr.trans ?_⟩
      have hy : i < ((read h s).set i y).length := by
        rw [List.length_set]
        exact hi
      rw [hr₁]
      calc ((read h s).set i y).take (i + 1) ++ (((read h s).set i y).drop (i + 1)).map (fun x => (f x).getD x)
          = (read h s).take i ++ [y] ++ ((read h s).drop (i + 1)).map (fun x => (f x).getD x) := by
            rw [List.take_succ_eq_append_getElem hy, List.getElem_set_self, List.take_set_of_le le_rfl,
              List.drop_set_of_lt (Nat.lt_succ_self i)]
        _ = (read h s).take i ++ y :: ((read h s).drop (i + 1)).map (fun x => (f x).getD x) := by
            rw [List.append_assoc, List.singleton_append]
        _ = (read h s).take i ++ ((read h s).drop i).map (fun x => (f x).getD x) := by
            rw [hdrop, List.map_cons, hf, Option.getD_some]

end MNetSoft.Slices
