/-
The hash tables of robocop: the active ttys (`active.c`), the hens (`hen.c`), the screeners (`screen.c`) and the device
numbers of the ttys (`ttynumber.c`). Device numbers, process ids and user ids are 32 bits, of which the hash function
reads the four bytes. A probing loop that would never end gives `none`.

- `find_set`, `in_set`, `add_set`: what the three sets have in common, and `Sound`, the relation of such a table to a
  finite set.
- `TtySound`: the same for the tty table and a map from names, cut to `UT_LINESIZE` characters, to devices.
- `tables_correct`: over any sequence of insertions and lookups the four tables are the sets and the map they stand for,
  up to their maximum.
-/
import Mathlib.Tactic
import MNetSoft.Core.CString
import MNetSoft.Core.Probing

namespace MNetSoft.Robocop

open MNetSoft.CString MNetSoft.Probing

/-! ## Model -/

abbrev dev_t := BitVec 32

abbrev pid_t := BitVec 32

abbrev uid_t := BitVec 32

def NODEV : dev_t := -1

/-- the bytes of an object of 32 bits -/
def bytes (x : BitVec 32) : List (BitVec 8) :=
  [x.extractLsb' 0 8, x.extractLsb' 8 8, x.extractLsb' 16 8, x.extractLsb' 24 8]

/-- the hash of `len` signed chars; the first is read even if there are none -/
def hashfunc (s : List (BitVec 8)) (len tblsize : ℕ) : ℕ :=
  let hash := (s.take len).tail.foldl
    (fun (hash : BitVec 32) c => ((hash <<< 2) ||| (hash >>> 30)) ^^^ c.signExtend 32) ((s.headD 0).signExtend 32)
  hash.toNat % tblsize

/-- the slot of a table of `size` slots at which the probing begins -/
def hashslot (size : ℕ) [NeZero size] (s : List (BitVec 8)) (len : ℕ) : Fin size :=
  ⟨hashfunc s len size, Nat.mod_lt _ (NeZero.pos size)⟩

section Family

variable {size : ℕ} [NeZero size] (empty : BitVec 32) (max : ℕ)

/-- all slots empty -/
def init_set (_ : Table size (BitVec 32)) : Table size (BitVec 32) := ⟨fun _ => empty, 0⟩

/-- the slot of the key, or the first empty one after its hash slot -/
def find_set (t : Fin size → BitVec 32) (key : BitVec 32) : Option (Fin size) :=
  search (fun s => s == empty || s == key) t (hashslot size (bytes key) 4)

variable (find : (Fin size → BitVec 32) → BitVec 32 → Option (Fin size))

/-- is the key in the table; yes for every key when the table is full -/
def in_set (T : Table size (BitVec 32)) (key : BitVec 32) : Option Bool :=
  if T.count ≥ max then some true else (find T.slots key).map fun i => T.slots i != empty

/-- put the key in, if it is not there and the table not full -/
def add_set (T : Table size (BitVec 32)) (key : BitVec 32) : Option (Table size (BitVec 32)) :=
  if T.count ≥ max then some T
  else
    (find T.slots key).map fun i =>
      if T.slots i = empty then ⟨Function.update T.slots i key, T.count + 1⟩ else T

end Family

/-! ### `active.c` -/

def ACTIVEMAX : ℕ := 256

def ACTIVESIZE : ℕ := ACTIVEMAX * 3 / 2

instance : NeZero ACTIVESIZE := ⟨by decide⟩

abbrev Active := Table ACTIVESIZE dev_t

def init_active : Active → Active := init_set NODEV

abbrev find_active : (Fin ACTIVESIZE → dev_t) → dev_t → Option (Fin ACTIVESIZE) := find_set NODEV

def get_active : Active → dev_t → Option Bool := in_set NODEV ACTIVEMAX find_active

def set_active : Active → dev_t → Option Active := add_set NODEV ACTIVEMAX find_active

/-! ### `hen.c` -/

def HENMAX : ℕ := 256

def HENSIZE : ℕ := HENMAX * 3 / 2

instance : NeZero HENSIZE := ⟨by decide⟩

abbrev Hens := Table HENSIZE pid_t

def init_hen : Hens → Hens := init_set 0

abbrev find_hen : (Fin HENSIZE → pid_t) → pid_t → Option (Fin HENSIZE) := find_set 0

def is_hen : Hens → pid_t → Option Bool := in_set 0 HENMAX find_hen

def add_hen : Hens → pid_t → Option Hens := add_set 0 HENMAX find_hen

/-! ### `screen.c` -/

def MAXSCREENERS : ℕ := 32

def SCREENERSIZE : ℕ := MAXSCREENERS * 3 / 2

instance : NeZero SCREENERSIZE := ⟨by decide⟩

abbrev Screeners := Table SCREENERSIZE uid_t

def init_screener : Screeners → Screeners := init_set 0

abbrev find_screener : (Fin SCREENERSIZE → uid_t) → uid_t → Option (Fin SCREENERSIZE) := find_set 0

def is_screener : Screeners → uid_t → Option Bool := in_set 0 MAXSCREENERS find_screener

def add_screener : Screeners → uid_t → Option Screeners := add_set 0 MAXSCREENERS find_screener

/-! ### `ttynumber.c` -/

def UT_LINESIZE : ℕ := 8

def TTYNUMBERMAX : ℕ := 256

def TTYNUMBERSIZE : ℕ := TTYNUMBERMAX * 3 / 2

instance : NeZero TTYNUMBERSIZE := ⟨by decide⟩

/-- a slot of the tty table; it is empty if the name is -/
structure ttynonode where
  name : Str
  /-- the name fits its array -/
  name_le : name.length ≤ UT_LINESIZE
  device : dev_t

abbrev Ttynumbers := Table TTYNUMBERSIZE ttynonode

/-- the chars of a string -/
def chars (s : Str) : List (BitVec 8) := s.map fun c => BitVec.ofNat 8 c.toNat

def init_ttynumber (T : Ttynumbers) : Ttynumbers := ⟨fun i => ⟨[], by simp, (T.slots i).device⟩, 0⟩

def find_ttynumber (t : Fin TTYNUMBERSIZE → ttynonode) (tty : Str) : Option (Fin TTYNUMBERSIZE) :=
  let len := (tty.take UT_LINESIZE).length
  search (fun s => s.name == [] || strncmp s.name tty UT_LINESIZE == 0) t (hashslot TTYNUMBERSIZE (chars tty) len)

def get_ttynumber (T : Ttynumbers) (tty : Str) : Option dev_t :=
  (find_ttynumber T.slots tty).map fun i => if (T.slots i).name = [] then NODEV else (T.slots i).device

/-- a new entry for a tty -/
def newnode (tty : Str) (device : dev_t) : ttynonode :=
  ⟨strlcpy tty (UT_LINESIZE + 1), by simp [strlcpy], device⟩

def set_ttynumber (T : Ttynumbers) (tty : Str) (device : dev_t) : Option Ttynumbers :=
  if T.count ≥ TTYNUMBERMAX then some T
  else
    (find_ttynumber T.slots tty).map fun i =>
      if (T.slots i).name = [] then ⟨Function.update T.slots i (newnode tty device), T.count + 1⟩
      else ⟨Function.update T.slots i { T.slots i with device := device }, T.count⟩

/-! ### Sequences of operations -/

/-- look a key up, or put an entry in -/
inductive Op (α β : Type) where
  | look (key : α)
  | put (entry : β)
deriving DecidableEq

/-- one operation; `none` if a loop of it never ends -/
def step {τ α β γ : Type} (get : τ → α → Option γ) (put : τ → β → Option τ) (T : τ) : Op α β → Option τ
  | .look k => (get T k).map fun _ => T
  | .put e => put T e

/-- a sequence of operations -/
def runOps {τ α β γ : Type} (get : τ → α → Option γ) (put : τ → β → Option τ) (ops : List (Op α β)) (T : τ) :
    Option τ :=
  ops.foldlM (step get put) T

theorem runOps_concat {τ α β γ : Type} {get : τ → α → Option γ} {put : τ → β → Option τ} {ops : List (Op α β)}
    {T₀ T : τ} (h : runOps get put ops T₀ = some T) (op : Op α β) :
    runOps get put (ops ++ [op]) T₀ = step get put T op := by
  unfold runOps at h ⊢
  rw [List.foldlM_append, h, Option.bind_eq_bind, Option.bind_some, List.foldlM_cons, Option.bind_eq_bind]
  simp [List.foldlM_nil]

/-! ## The sets -/

section Family

variable {size : ℕ} [NeZero size] {empty : BitVec 32} {max : ℕ}

/-- what a slot holds -/
def keyOf (empty : BitVec 32) (s : BitVec 32) : Option (BitVec 32 × Unit) := if s = empty then none else some (s, ())

theorem keyOf_isSome (s : BitVec 32) : (keyOf empty s).isSome ↔ s ≠ empty := by
  by_cases h : s = empty <;> simp [keyOf, h]

theorem keyOf_eq_some {s k : BitVec 32} {u : Unit} : keyOf empty s = some (k, u) ↔ s = k ∧ k ≠ empty := by
  unfold keyOf
  split_ifs with h
  · simp only [h, false_iff, not_and, not_not]
    exact Eq.symm
  · simp only [Option.some.injEq, Prod.mk.injEq, and_true]
    constructor
    · rintro rfl
      exact ⟨rfl, h⟩
    · exact And.left

theorem stops_keyOf (k : BitVec 32) : (fun s => s == empty || s == k) = stops (keyOf empty) k := by
  funext s
  by_cases h : s = empty
  · simp [stops, keyOf, h]
  · simp [stops, keyOf, h, beq_eq_decide]

variable (empty max) in
/-- the table holds the keys of the set, which are not more than the maximum -/
def Sound (T : Table size (BitVec 32)) (K : Finset (BitVec 32)) : Prop :=
  ∃ c : Contents (BitVec 32) Unit,
    Stores (keyOf empty) (fun k => hashslot size (bytes k) 4) T c ∧ c.keys = K ∧ K.card ≤ max

theorem sound_init (T : Table size (BitVec 32)) : Sound empty max (init_set empty T) ∅ :=
  ⟨Contents.empty, stores_empty (by simp [keyOf]), rfl, by simp⟩

variable {T : Table size (BitVec 32)} {K : Finset (BitVec 32)}

theorem Sound.count_eq (h : Sound empty max T K) : T.count = K.card := by
  obtain ⟨c, hc, rfl, -⟩ := h
  exact hc.count_eq

theorem Sound.card_le (h : Sound empty max T K) : K.card ≤ max := by
  obtain ⟨c, -, -, hle⟩ := h
  exact hle

/-- the set is that of the keys in the slots -/
theorem Sound.keys_eq (h : Sound empty max T K) : K = (Finset.univ.image T.slots).erase empty := by
  obtain ⟨c, hc, rfl, -⟩ := h
  ext k
  simp only [hc.mem_keys, keyOf_eq_some, Finset.mem_erase, Finset.mem_image, Finset.mem_univ, true_and]
  constructor
  · intro hx
    rcases hx with ⟨i, -, hi, hne⟩
    exact ⟨hne, i, hi⟩
  · intro hx
    rcases hx with ⟨hne, i, hi⟩
    exact ⟨i, (), hi, hne⟩

/-- the slot found for a key is taken if and only if the key is in the set -/
theorem Sound.find_spec (h : Sound empty max T K) (hcount : T.count < size) (k : BitVec 32) :
    ∃ i, find_set empty T.slots k = some i ∧ (T.slots i ≠ empty ↔ k ∈ K) := by
  obtain ⟨c, hc, rfl, -⟩ := h
  obtain ⟨i, hi, -, hval⟩ := hc.search_spec hcount k
  refine ⟨i, by rw [find_set, stops_keyOf, hi], ?_⟩
  rw [← keyOf_isSome, hval, Option.isSome_map, c.value_isSome]

/-- a lookup -/
theorem Sound.in_set (h : Sound empty max T K) (hmax : max ≤ size) (k : BitVec 32) :
    in_set empty max (find_set empty) T k = some (decide (max ≤ K.card ∨ k ∈ K)) := by
  unfold Robocop.in_set
  rw [h.count_eq]
  split_ifs with hfull
  · simp [hfull]
  · obtain ⟨i, hi, hiff⟩ := h.find_spec (by rw [h.count_eq]; omega) k
    rw [hi, Option.map_some, Option.some.injEq, Bool.eq_iff_iff, bne_iff_ne, hiff, decide_eq_true_iff]
    constructor
    · exact Or.inr
    · intro hx
      rcases hx with hc | hk
      · exact absurd hc hfull
      · exact hk

/-- an insertion -/
theorem Sound.add_set (h : Sound empty max T K) (hmax : max ≤ size) {k : BitVec 32} (hk : k ≠ empty) :
    ∃ T', add_set empty max (find_set empty) T k = some T' ∧
      Sound empty max T' (if max ≤ K.card then K else insert k K) := by
  unfold Robocop.add_set
  rw [h.count_eq]
  split_ifs with hfull
  · exact ⟨T, rfl, h⟩
  · have hlt : T.count < size := by rw [h.count_eq]; omega
    have hle := h.card_le
    obtain ⟨c, hc, rfl, -⟩ := h
    obtain ⟨i, hi, hreach, hval⟩ := hc.search_spec hlt k
    have hfind : find_set empty T.slots k = some i := by rw [find_set, stops_keyOf, hi]
    rw [hfind, Option.map_some]
    refine ⟨_, rfl, ?_⟩
    have hcard : (insert k c.keys).card ≤ max := (Finset.card_insert_le _ _).trans (by omega)
    split_ifs with hvac
    · have hnew := hc.insert hreach hval (keyOf_eq_some.2 ⟨rfl, hk⟩ : keyOf empty k = some (k, ()))
      rw [if_neg (by simp [keyOf, hvac])] at hnew
      rw [← hc.count_eq]
      exact ⟨_, hnew, rfl, hcard⟩
    · -- the key is there, and the table is left as it is
      have hmem : k ∈ c.keys := by
        rw [← c.value_isSome, ← Option.isSome_map (f := fun d => (k, d)), ← hval, keyOf_isSome]
        exact hvac
      rw [Finset.insert_eq_of_mem hmem]
      exact ⟨c, hc, rfl, hle⟩

/-- **The sets.** After any insertions and lookups the count is that of the distinct keys stored and not above the
maximum; below the maximum the keys found are those inserted, at the maximum all keys are and nothing can be
inserted. -/
theorem runOps_sets (hmax : max ≤ size) (T₀ : Table size (BitVec 32)) (ops : List (Op (BitVec 32) (BitVec 32)))
    (hops : ∀ k, Op.put k ∈ ops → k ≠ empty) :
    ∃ T K, runOps (in_set empty max (find_set empty)) (add_set empty max (find_set empty)) ops (init_set empty T₀) =
      some T ∧ Sound empty max T K ∧ (K.card < max → ∀ k, k ∈ K ↔ Op.put k ∈ ops) := by
  induction ops using List.reverseRecOn with
  | nil => exact ⟨_, ∅, rfl, sound_init T₀, by simp⟩
  | append_singleton ops op ih =>
    obtain ⟨T, K, hrun, hT, hK⟩ := ih fun k hk => hops k (List.mem_append_left _ hk)
    rw [runOps_concat hrun]
    cases op with
    | look k =>
      refine ⟨T, K, by rw [step, hT.in_set hmax, Option.map_some], hT, fun hc k' => ?_⟩
      simpa using hK hc k'
    | put k =>
      obtain ⟨T', hadd, hT'⟩ := hT.add_set hmax (hops k (by simp))
      refine ⟨T', _, hadd, hT', fun hc k' => ?_⟩
      split_ifs at hc ⊢ with hfull
      · omega
      · rw [Finset.mem_insert, hK (by omega) k', List.mem_append, List.mem_singleton, Op.put.injEq, or_comm]

/-- what is asked of a set table: `put` for an insertion, `look` for a lookup -/
def SetCorrect (size : ℕ) (empty : BitVec 32) (max : ℕ) (start : Table size (BitVec 32) → Table size (BitVec 32))
    (look : Table size (BitVec 32) → BitVec 32 → Option Bool)
    (put : Table size (BitVec 32) → BitVec 32 → Option (Table size (BitVec 32))) : Prop :=
  ∀ (T₀ : Table size (BitVec 32)) (ops : List (Op (BitVec 32) (BitVec 32))), (∀ k, Op.put k ∈ ops → k ≠ empty) →
    ∃ T, runOps look put ops (start T₀) = some T ∧
      T.count = ((Finset.univ.image T.slots).erase empty).card ∧ T.count ≤ max ∧
      (T.count < max → ∀ k, look T k = some (decide (Op.put k ∈ ops))) ∧
      (T.count = max → ∀ k, look T k = some true ∧ put T k = some T)

theorem setCorrect (hmax : max ≤ size) :
    SetCorrect size empty max (init_set empty) (in_set empty max (find_set empty))
      (add_set empty max (find_set empty)) := by
  intro T₀ ops hops
  obtain ⟨T, K, hrun, hT, hK⟩ := runOps_sets hmax T₀ ops hops
  refine ⟨T, hrun, ?_, ?_, ?_, ?_⟩
  · rw [← hT.keys_eq, hT.count_eq]
  · rw [hT.count_eq]
    exact hT.card_le
  · intro hlt k
    rw [hT.count_eq] at hlt
    rw [hT.in_set hmax, Option.some.injEq, decide_eq_decide, hK hlt k]
    simp [hlt]
  · intro hfull k
    constructor
    · rw [in_set, if_pos hfull.ge]
    · rw [add_set, if_pos hfull.ge]

end Family

/-! ## The tty table -/

/-- what a slot of the tty table holds -/
def nameOf (s : ttynonode) : Option (Str × dev_t) := if s.name = [] then none else some (s.name, s.device)

theorem nameOf_isSome (s : ttynonode) : (nameOf s).isSome ↔ s.name ≠ [] := by
  by_cases h : s.name = [] <;> simp [nameOf, h]

theorem nameOf_eq_some {s : ttynonode} {k : Str} {d : dev_t} :
    nameOf s = some (k, d) ↔ s.name = k ∧ s.device = d ∧ s.name ≠ [] := by
  unfold nameOf
  split_ifs with h
  · simp [h]
  · simp [h]

/-- where the probing for a name begins -/
def nameslot (k : Str) : Fin TTYNUMBERSIZE := hashslot TTYNUMBERSIZE (chars k) k.length

/-- hashing the first characters is hashing what is left of the string when the others are cut off -/
theorem hashfunc_take (s : List (BitVec 8)) {m : ℕ} (hm : 0 < m) (tblsize : ℕ) :
    hashfunc s (s.take m).length tblsize = hashfunc (s.take m) (s.take m).length tblsize := by
  have h1 : s.take (s.take m).length = s.take m := by
    rw [List.length_take, ← List.take_take, List.take_length]
  have h2 : (s.take m).headD 0 = s.headD 0 := by
    cases s with
    | nil => simp
    | cons c s => simp [List.take_cons hm]
  unfold hashfunc
  rw [h1, h2, List.take_length]

theorem chars_take (s : Str) (m : ℕ) : chars (s.take m) = (chars s).take m := by simp [chars, List.map_take]

theorem length_chars (s : Str) : (chars s).length = s.length := by simp [chars]

/-- the loop looks for the name cut to its first `UT_LINESIZE` characters -/
theorem find_ttynumber_eq (t : Fin TTYNUMBERSIZE → ttynonode) (tty : Str) :
    find_ttynumber t tty = search (stops nameOf (tty.take UT_LINESIZE)) t (nameslot (tty.take UT_LINESIZE)) := by
  have hslot : hashslot TTYNUMBERSIZE (chars tty) (tty.take UT_LINESIZE).length = nameslot (tty.take UT_LINESIZE) := by
    apply Fin.ext
    change hashfunc _ _ _ = hashfunc _ _ _
    rw [chars_take, ← length_chars, chars_take, hashfunc_take _ (by decide)]
  have hstop : (fun s : ttynonode => s.name == [] || strncmp s.name tty UT_LINESIZE == 0) =
      stops nameOf (tty.take UT_LINESIZE) := by
    funext s
    by_cases h : s.name = []
    · simp [stops, nameOf, h]
    · simp [stops, nameOf, h, strncmp, strcmp_zero, List.take_of_length_le s.name_le, beq_eq_decide]
  rw [find_ttynumber, hslot, hstop]

/-- the table holds the entries of the map, which are not more than the maximum -/
def TtySound (T : Ttynumbers) (c : Contents Str dev_t) : Prop :=
  Stores nameOf nameslot T c ∧ c.keys.card ≤ TTYNUMBERMAX

theorem ttySound_init (T : Ttynumbers) : TtySound (init_ttynumber T) Contents.empty :=
  ⟨stores_empty (by simp [nameOf]), by simp [Contents.empty]⟩

variable {T : Ttynumbers} {c : Contents Str dev_t}

/-- the keys of the map are the names in the slots -/
theorem TtySound.keys_eq (h : TtySound T c) : c.keys = (Finset.univ.image fun i => (T.slots i).name).erase [] := by
  ext k
  simp only [h.1.mem_keys, nameOf_eq_some, Finset.mem_erase, Finset.mem_image, Finset.mem_univ, true_and]
  constructor
  · intro hx
    rcases hx with ⟨i, d, hi, -, hne⟩
    exact ⟨hi ▸ hne, i, hi⟩
  · intro hx
    rcases hx with ⟨hne, i, hi⟩
    exact ⟨i, _, hi, rfl, hi.symm ▸ hne⟩

/-- the slot found for a name has the device of the map, and is empty if there is none -/
theorem TtySound.find_spec (h : TtySound T c) (tty : Str) :
    ∃ i, find_ttynumber T.slots tty = some i ∧ Reached nameOf nameslot T.slots (tty.take UT_LINESIZE) i ∧
      nameOf (T.slots i) = (c.value (tty.take UT_LINESIZE)).map fun d => (tty.take UT_LINESIZE, d) := by
  have hlt : T.count < TTYNUMBERSIZE := by
    rw [h.1.count_eq]
    exact h.2.trans_lt (by decide)
  obtain ⟨i, hi, hreach, hval⟩ := h.1.search_spec hlt (tty.take UT_LINESIZE)
  exact ⟨i, by rw [find_ttynumber_eq, hi], hreach, hval⟩

/-- a lookup -/
theorem TtySound.get_ttynumber (h : TtySound T c) (tty : Str) :
    get_ttynumber T tty = some ((c.value (tty.take UT_LINESIZE)).getD NODEV) := by
  obtain ⟨i, hi, -, hval⟩ := h.find_spec tty
  rw [Robocop.get_ttynumber, hi, Option.map_some, Option.some.injEq]
  cases hv : c.value (tty.take UT_LINESIZE) with
  | none =>
    rw [hv, Option.map_none] at hval
    have hname : (T.slots i).name = [] := by
      by_contra hne
      rw [← ne_eq, ← nameOf_isSome, hval] at hne
      cases hne
    rw [if_pos hname, Option.getD_none]
  | some d =>
    rw [hv, Option.map_some, nameOf_eq_some] at hval
    obtain ⟨-, hd, hne⟩ := hval
    rw [if_neg hne, hd, Option.getD_some]

theorem nameOf_newnode {tty : Str} (htty : tty ≠ []) (device : dev_t) :
    nameOf (newnode tty device) = some (tty.take UT_LINESIZE, device) := by
  refine nameOf_eq_some.2 ⟨rfl, rfl, ?_⟩
  cases tty with
  | nil => exact absurd rfl htty
  | cons a l => simp [newnode, strlcpy, UT_LINESIZE]

/-- an insertion -/
theorem TtySound.set_ttynumber (h : TtySound T c) {tty : Str} (htty : tty ≠ []) (device : dev_t) :
    ∃ T', set_ttynumber T tty device = some T' ∧
      TtySound T' (if TTYNUMBERMAX ≤ c.keys.card then c else c.insert (tty.take UT_LINESIZE) device) := by
  unfold Robocop.set_ttynumber
  rw [h.1.count_eq]
  split_ifs with hfull
  · exact ⟨T, rfl, h⟩
  · obtain ⟨i, hi, hreach, hval⟩ := h.find_spec tty
    have hcard : (c.insert (tty.take UT_LINESIZE) device).keys.card ≤ TTYNUMBERMAX :=
      (Finset.card_insert_le _ _).trans (by omega)
    rw [hi, Option.map_some]
    refine ⟨_, rfl, ?_⟩
    rw [← h.1.count_eq]
    split_ifs with hvac
    · have hnew := h.1.insert hreach hval (nameOf_newnode htty device)
      rw [if_neg (by simp [nameOf, hvac])] at hnew
      exact ⟨hnew, hcard⟩
    · -- the name is there, and its device is changed
      have hname : (T.slots i).name = tty.take UT_LINESIZE := by
        obtain ⟨d, -, hd⟩ := Option.map_eq_some_iff.1 (hval.symm.trans (by rw [nameOf, if_neg hvac]))
        exact (congrArg Prod.fst hd).symm
      have hs : nameOf { T.slots i with device := device } = some (tty.take UT_LINESIZE, device) :=
        nameOf_eq_some.2 ⟨hname, rfl, hvac⟩
      have hnew := h.1.insert hreach hval hs
      rw [if_pos (by rwa [nameOf_isSome]), add_zero] at hnew
      exact ⟨hnew, hcard⟩

theorem set_ttynumber_full (h : TTYNUMBERMAX ≤ T.count) (tty : Str) (device : dev_t) :
    set_ttynumber T tty device = some T := by
  rw [set_ttynumber, if_pos h]

/-- the last device given for a name, names being compared on their first `UT_LINESIZE` characters -/
def lastDevice (tty : Str) : List (Op Str (Str × dev_t)) → dev_t :=
  List.foldl (fun d op =>
    match op with
    | .look _ => d
    | .put e => if e.1.take UT_LINESIZE = tty.take UT_LINESIZE then e.2 else d) NODEV

theorem lastDevice_concat (tty : Str) (ops : List (Op Str (Str × dev_t))) (op : Op Str (Str × dev_t)) :
    lastDevice tty (ops ++ [op]) =
      match op with
      | .look _ => lastDevice tty ops
      | .put e => if e.1.take UT_LINESIZE = tty.take UT_LINESIZE then e.2 else lastDevice tty ops := by
  rw [lastDevice, List.foldl_append]
  rfl

/-- the names inserted, cut to `UT_LINESIZE` characters -/
def names : List (Op Str (Str × dev_t)) → Finset Str
  | [] => ∅
  | .look _ :: ops => names ops
  | .put e :: ops => insert (e.1.take UT_LINESIZE) (names ops)

/-- the operations up to the one that makes the table full -/
def kept : List (Op Str (Str × dev_t)) → List (Op Str (Str × dev_t)) :=
  List.foldl (fun l op => if TTYNUMBERMAX ≤ (names l).card then l else l ++ [op]) []

theorem names_concat (ops : List (Op Str (Str × dev_t))) (op : Op Str (Str × dev_t)) :
    names (ops ++ [op]) =
      match op with
      | .look _ => names ops
      | .put e => insert (e.1.take UT_LINESIZE) (names ops) := by
  induction ops with
  | nil => cases op <;> rfl
  | cons o ops ih =>
    cases o with
    | look k => exact ih
    | put e' =>
      rw [List.cons_append, names, ih]
      cases op with
      | look k => rfl
      | put e => exact Finset.insert_comm _ _ _

theorem kept_concat (ops : List (Op Str (Str × dev_t))) (op : Op Str (Str × dev_t)) :
    kept (ops ++ [op]) = if TTYNUMBERMAX ≤ (names (kept ops)).card then kept ops else kept ops ++ [op] := by
  rw [kept, List.foldl_append]
  rfl

/-- below the maximum every operation is kept -/
theorem kept_eq_self {ops : List (Op Str (Str × dev_t))} (h : (names (kept ops)).card < TTYNUMBERMAX) :
    kept ops = ops := by
  induction ops using List.reverseRecOn with
  | nil => rfl
  | append_singleton ops op ih =>
    rw [kept_concat] at h ⊢
    split_ifs at h ⊢ with hfull
    · omega
    · rw [ih (by omega)]

/-- **The tty numbers.** After any insertions and lookups the table holds the names and devices given to it until it was
full, the last device for each name. -/
theorem runOps_ttys (T₀ : Ttynumbers) (ops : List (Op Str (Str × dev_t))) (hops : ∀ e, Op.put e ∈ ops → e.1 ≠ []) :
    ∃ T c, runOps get_ttynumber (fun T e => set_ttynumber T e.1 e.2) ops (init_ttynumber T₀) = some T ∧ TtySound T c ∧
      c.keys = names (kept ops) ∧ ∀ tty, (c.value (tty.take UT_LINESIZE)).getD NODEV = lastDevice tty (kept ops) := by
  induction ops using List.reverseRecOn with
  | nil => exact ⟨_, _, rfl, ttySound_init T₀, rfl, fun _ => rfl⟩
  | append_singleton ops op ih =>
    obtain ⟨T, c, hrun, hT, hkeys, hc⟩ := ih fun e he => hops e (List.mem_append_left _ he)
    rw [runOps_concat hrun, kept_concat, ← hkeys]
    cases op with
    | look tty =>
      refine ⟨T, c, by rw [step, hT.get_ttynumber, Option.map_some], hT, ?_⟩
      split_ifs
      · exact ⟨hkeys, hc⟩
      · simp only [names_concat, lastDevice_concat]
        exact ⟨hkeys, hc⟩
    | put e =>
      obtain ⟨T', hset, hT'⟩ := hT.set_ttynumber (hops e (by simp)) e.2
      refine ⟨T', _, hset, hT', ?_⟩
      split_ifs with hfull
      · exact ⟨hkeys, hc⟩
      · simp only [names_concat, lastDevice_concat, Contents.insert, hkeys, true_and]
        intro tty
        split_ifs with hsame
        · rw [hsame, Function.update_self, Option.getD_some]
        · rw [Function.update_of_ne (Ne.symm hsame)]
          exact hc tty

/-- what is asked of the tty table -/
def TtyCorrect : Prop :=
  ∀ (T₀ : Ttynumbers) (ops : List (Op Str (Str × dev_t))), (∀ e, Op.put e ∈ ops → e.1 ≠ []) →
    ∃ T, runOps get_ttynumber (fun T e => set_ttynumber T e.1 e.2) ops (init_ttynumber T₀) = some T ∧
      T.count = ((Finset.univ.image fun i => (T.slots i).name).erase []).card ∧ T.count ≤ TTYNUMBERMAX ∧
      (∀ tty, get_ttynumber T tty = some (lastDevice tty (kept ops))) ∧
      (T.count < TTYNUMBERMAX → kept ops = ops) ∧
      (T.count = TTYNUMBERMAX → ∀ tty device, set_ttynumber T tty device = some T)

theorem ttyCorrect : TtyCorrect := by
  intro T₀ ops hops
  obtain ⟨T, c, hrun, hT, hkeys, hc⟩ := runOps_ttys T₀ ops hops
  have hcount : T.count = c.keys.card := hT.1.count_eq
  refine ⟨T, hrun, ?_, ?_, ?_, ?_, ?_⟩
  · rw [hcount, hT.keys_eq]
  · rw [hcount]
    exact hT.2
  · intro tty
    rw [hT.get_ttynumber, hc]
  · intro hlt
    rw [hcount, hkeys] at hlt
    exact kept_eq_self hlt
  · intro hfull tty device
    exact set_ttynumber_full hfull.ge tty device

/-! ## The four tables -/

/-- **The hash tables.** In each of the four tables, after any insertions of keys other than the empty one and lookups:
every loop ends; the count is that of the distinct keys stored and at most the maximum; below the maximum a lookup
succeeds for the keys inserted (and gives a tty the last device given for its name); at the maximum insertions change
nothing and the three sets have every key. -/
theorem tables_correct :
    SetCorrect ACTIVESIZE NODEV ACTIVEMAX init_active get_active set_active ∧
    SetCorrect HENSIZE 0 HENMAX init_hen is_hen add_hen ∧
    SetCorrect SCREENERSIZE 0 MAXSCREENERS init_screener is_screener add_screener ∧ TtyCorrect :=
  ⟨setCorrect (by decide), setCorrect (by decide), setCorrect (by decide), ttyCorrect⟩

end MNetSoft.Robocop
