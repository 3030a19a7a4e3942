/-
The memory and processes of each user in robocop (`usermem.c`): a hash table with linear probing, which is emptied by
setting the numbers of processes to 0, and the check for users that have too much. A user's pages are 64 bits; the
number of processes is an `int` that counts the calls of one scan, which are no more than an `int`.

- `add_usermem`, `check_mem`: the functions.
- `Accounts`: what the table is to hold after some calls.
- `usermem_correct`: whatever the table held before, it holds that.
- `check_mem_right_iff`: for which tables the users are killed, logged and left alone as they should be.
- `four_gigabytes`: a user with that much memory is left alone.
-/
import Mathlib.Data.BitVec
import Mathlib.Tactic
import MNetSoft.Core.Numerals
import MNetSoft.Robocop.Tables

namespace MNetSoft.Robocop

open MNetSoft.Probing MNetSoft.Numerals

/-! ## Model -/

def MAXUSERS : ℕ := 256

def TABLESIZE : ℕ := MAXUSERS * 3 / 2

instance : NeZero TABLESIZE := ⟨by decide⟩

/-- a slot of the table; it is empty if `nproc` is 0 -/
structure userhash where
  uid : uid_t
  /-- pages -/
  mem : BitVec 64
  nproc : ℤ

/-- the table, with `n_user` -/
abbrev Users := Table TABLESIZE userhash

def init_usermem (T : Users) : Users := ⟨fun i => { T.slots i with nproc := 0 }, 0⟩

/-- where the probing for a user begins -/
def userslot (uid : uid_t) : Fin TABLESIZE := ⟨uid.toNat % TABLESIZE, Nat.mod_lt _ (by decide)⟩

/-- the probing loop, which gives up after a full turn -/
def find_user (t : Fin TABLESIZE → userhash) (uid : uid_t) : Option (Fin TABLESIZE) :=
  search (fun s => s.uid == uid || decide (s.nproc ≤ 0)) t (userslot uid)

def add_usermem (T : Users) (uid : uid_t) (mem : BitVec 64) : Users :=
  match find_user T.slots uid with
  | none => T
  | some i =>
    let s := T.slots i
    if s.nproc = 0 then
      if T.count ≥ MAXUSERS then T else ⟨Function.update T.slots i ⟨uid, mem, 1⟩, T.count + 1⟩
    else ⟨Function.update T.slots i { s with mem := s.mem + mem, nproc := s.nproc + 1 }, T.count⟩

/-- one call after another -/
def add_all (T : Users) (calls : List (uid_t × BitVec 64)) : Users := calls.foldl (fun T c => add_usermem T c.1 c.2) T

def LOG_MEMORY : ℤ := 16 * (1024 * 1024)

def LOG_NPROC : ℤ := 16

def MAX_MEMORY : ℤ := 40 * (1024 * 1024)

def MAX_NPROC : ℤ := 31

/-- what is done about a user -/
inductive Act where
  | killuser (uid : uid_t)
  | loguser (uid : uid_t)
deriving DecidableEq, Repr

/-- is the user in the list, which ends at -1 -/
def isProtected (uid : uid_t) : List uid_t → Bool
  | [] => false
  | j :: protect_uids => if j = -1 then false else if uid = j then true else isProtected uid protect_uids

/-- what is done about the user of a slot -/
def checkSlot (pagesize : BitVec 64) (protect_uids : List uid_t) (s : userhash) : Option Act :=
  if s.nproc = 0 then none
  else
    -- the bytes go through an int
    let mem := toInt (s.mem * pagesize).toNat
    if mem ≥ LOG_MEMORY ∨ s.nproc ≥ LOG_NPROC then
      if isProtected s.uid protect_uids then none
      else if mem ≥ MAX_MEMORY ∨ s.nproc ≥ MAX_NPROC then some (.killuser s.uid)
      else some (.loguser s.uid)
    else none

/-- what is done about each slot, from the first to the last -/
def check_mem (pagesize : BitVec 64) (protect_uids : List uid_t) (T : Users) : List (Option Act) :=
  (List.ofFn T.slots).map (checkSlot pagesize protect_uids)

/-! ## What is to be held -/

/-- the users of some calls, in the order of their first ones, as many as there is room for -/
def firstUids (calls : List (uid_t × BitVec 64)) : List uid_t := (calls.map Prod.fst).eraseDups.take MAXUSERS

/-- the calls of a user -/
def callsOf (calls : List (uid_t × BitVec 64)) (uid : uid_t) : List (BitVec 64) :=
  (calls.filter fun c => c.1 = uid).map Prod.snd

/-- **The accounts.** Each of the first users has one slot, with the sum of his pages and the number of his calls, and
no other user has one. -/
def Accounts (T : Users) (calls : List (uid_t × BitVec 64)) : Prop :=
  ∀ uid,
    (uid ∈ firstUids calls → ∃ i, T.slots i = ⟨uid, (callsOf calls uid).sum, (callsOf calls uid).length⟩ ∧
      ∀ j, (T.slots j).uid = uid → 0 < (T.slots j).nproc → j = i) ∧
    (uid ∉ firstUids calls → ∀ j, (T.slots j).uid = uid → ¬ 0 < (T.slots j).nproc)

/-! ## Accounting -/

/-- what a slot holds -/
def accountOf (s : userhash) : Option (uid_t × BitVec 64 × ℤ) :=
  if s.nproc ≤ 0 then none else some (s.uid, s.mem, s.nproc)

theorem accountOf_eq_some {s : userhash} {uid : uid_t} {d : BitVec 64 × ℤ} :
    accountOf s = some (uid, d) ↔ s = ⟨uid, d.1, d.2⟩ ∧ 0 < s.nproc := by
  obtain ⟨mem, n⟩ := d
  obtain ⟨uid', mem', n'⟩ := s
  unfold accountOf
  split_ifs with h
  · simp only [false_iff, not_and, not_lt]
    exact fun _ => h
  · simp only [Option.some.injEq, Prod.mk.injEq, userhash.mk.injEq]
    exact ⟨fun e => ⟨e, not_le.1 h⟩, And.left⟩

theorem stops_accountOf (uid : uid_t) :
    (fun s : userhash => s.uid == uid || decide (s.nproc ≤ 0)) = stops accountOf uid := by
  funext s
  by_cases h : s.nproc ≤ 0
  · simp [stops, accountOf, h]
  · simp [stops, accountOf, h, beq_eq_decide]

/-- the calls of a user when another call is added -/
theorem callsOf_concat (calls : List (uid_t × BitVec 64)) (c : uid_t × BitVec 64) (uid : uid_t) :
    callsOf (calls ++ [c]) uid = callsOf calls uid ++ if c.1 = uid then [c.2] else [] := by
  unfold callsOf
  rw [List.filter_append, List.map_append, List.filter_singleton]
  split_ifs <;> simp_all

theorem eraseDups_concat (uids : List uid_t) (uid : uid_t) :
    (uids ++ [uid]).eraseDups = uids.eraseDups ++ if uid ∈ uids then [] else [uid] := by
  rw [List.eraseDups_append]
  split_ifs with h <;> simp [List.removeAll, h, List.eraseDups_cons]

theorem nodup_eraseDups (uids : List uid_t) : uids.eraseDups.Nodup := by
  induction uids using List.reverseRecOn with
  | nil => simp
  | append_singleton uids uid ih =>
    rw [eraseDups_concat]
    split_ifs with h
    · simpa using ih
    · refine List.nodup_append.2 ⟨ih, by simp, fun u hu v hv => ?_⟩
      rw [List.mem_eraseDups] at hu
      rw [List.mem_singleton] at hv
      exact fun e => h (hv ▸ e ▸ hu)

theorem firstUids_nodup (calls : List (uid_t × BitVec 64)) : (firstUids calls).Nodup :=
  (nodup_eraseDups _).sublist (List.take_sublist _ _)

/-- the first users when another call is added -/
theorem firstUids_concat (calls : List (uid_t × BitVec 64)) (c : uid_t × BitVec 64) :
    firstUids (calls ++ [c]) =
      if c.1 ∈ firstUids calls ∨ MAXUSERS ≤ (firstUids calls).length then firstUids calls
      else firstUids calls ++ [c.1] := by
  have hlen : (firstUids calls).length = min MAXUSERS (calls.map Prod.fst).eraseDups.length := List.length_take
  unfold firstUids at hlen ⊢
  rw [List.map_append, List.map_singleton, eraseDups_concat]
  by_cases hfull : MAXUSERS ≤ (calls.map Prod.fst).eraseDups.length
  · rw [if_pos (Or.inr (by omega)), List.take_append_of_le_length hfull]
  · -- all users so far are among the first ones
    have hall : (calls.map Prod.fst).eraseDups.take MAXUSERS = (calls.map Prod.fst).eraseDups :=
      List.take_of_length_le (by omega)
    rw [hall] at hlen ⊢
    by_cases hmem : c.1 ∈ calls.map Prod.fst
    · rw [if_pos hmem, if_pos (Or.inl (List.mem_eraseDups.2 hmem)), List.append_nil, hall]
    · rw [if_neg hmem, if_neg, List.take_of_length_le]
      · rw [List.length_append, List.length_singleton]
        omega
      · rw [List.mem_eraseDups, not_or]
        exact ⟨hmem, by omega⟩

/-- the table stores the accounts -/
structure Holding (T : Users) (calls : List (uid_t × BitVec 64)) (c : Contents uid_t (BitVec 64 × ℤ)) : Prop where
  stores : Stores accountOf userslot T c
  nonneg : ∀ i, 0 ≤ (T.slots i).nproc
  keys : c.keys = (firstUids calls).toFinset
  value : ∀ uid ∈ firstUids calls, c.value uid = some ((callsOf calls uid).sum, ((callsOf calls uid).length : ℤ))

theorem holding_init (T : Users) : Holding (init_usermem T) [] Contents.empty where
  stores := stores_empty (by simp [accountOf])
  nonneg := by simp [init_usermem]
  keys := rfl
  value := by simp [firstUids]

variable {T : Users} {calls : List (uid_t × BitVec 64)} {c : Contents uid_t (BitVec 64 × ℤ)}

theorem firstUids_length_le (calls : List (uid_t × BitVec 64)) : (firstUids calls).length ≤ MAXUSERS := by
  rw [firstUids, List.length_take]
  exact min_le_left _ _

/-- as long as there is room nobody is left out -/
theorem callsOf_eq_nil (hroom : (firstUids calls).length < MAXUSERS) {uid : uid_t} (h : uid ∉ firstUids calls) :
    callsOf calls uid = [] := by
  have hlen : (firstUids calls).length = min MAXUSERS (calls.map Prod.fst).eraseDups.length := List.length_take
  rw [firstUids, List.take_of_length_le (by omega), List.mem_eraseDups] at h
  rw [callsOf, List.map_eq_nil_iff, List.filter_eq_nil_iff]
  intro c hc he
  exact h (List.mem_map.2 ⟨c, hc, by simpa using he⟩)

theorem Holding.count_eq (h : Holding T calls c) : T.count = (firstUids calls).length := by
  rw [h.stores.count_eq, h.keys, List.toFinset_card_of_nodup (firstUids_nodup calls)]

/-- the slot found for a user gets his account with one call more -/
theorem Holding.insert (h : Holding T calls c) {uid : uid_t} (mem : BitVec 64) {i : Fin TABLESIZE}
    (hreach : Reached accountOf userslot T.slots uid i)
    (hval : accountOf (T.slots i) = (c.value uid).map fun d => (uid, d))
    (hfirst : (firstUids (calls ++ [(uid, mem)])).toFinset = insert uid (firstUids calls).toFinset) :
    Holding ⟨Function.update T.slots i ⟨uid, (callsOf calls uid).sum + mem, (callsOf calls uid).length + 1⟩,
        T.count + if (accountOf (T.slots i)).isSome then 0 else 1⟩ (calls ++ [(uid, mem)])
      (c.insert uid ((callsOf calls uid).sum + mem, (callsOf calls uid).length + 1)) where
  stores := h.stores.insert hreach hval (accountOf_eq_some.2 ⟨rfl, by positivity⟩)
  nonneg := by
    intro j
    dsimp only
    by_cases e : j = i
    · rw [e, Function.update_self]
      positivity
    · rw [Function.update_of_ne e]
      exact h.nonneg j
  keys := by rw [hfirst, ← h.keys]; rfl
  value := by
    intro u hu
    rw [← List.mem_toFinset, hfirst, Finset.mem_insert, List.mem_toFinset] at hu
    rw [callsOf_concat, Contents.insert]
    dsimp only
    by_cases e : u = uid
    · subst e
      simp
    · rw [if_neg (Ne.symm e), List.append_nil, Function.update_of_ne e]
      exact h.value u (hu.resolve_left e)

/-- one call -/
theorem Holding.add_usermem (h : Holding T calls c) (uid : uid_t) (mem : BitVec 64) :
    ∃ c', Holding (add_usermem T uid mem) (calls ++ [(uid, mem)]) c' := by
  have hle := firstUids_length_le calls
  have hcount : T.count < TABLESIZE := by
    rw [h.count_eq]
    exact hle.trans_lt (by decide)
  obtain ⟨i, hi, hreach, hval⟩ := h.stores.search_spec hcount uid
  have hfind : find_user T.slots uid = some i := by rw [find_user, stops_accountOf, hi]
  rw [Robocop.add_usermem, hfind]
  dsimp only
  by_cases hmem : uid ∈ firstUids calls
  · -- the user has a slot, which is updated
    have hacc := hval
    rw [h.value uid hmem, Option.map_some] at hacc
    obtain ⟨hslot, hpos⟩ := accountOf_eq_some.1 hacc
    have hfirst : firstUids (calls ++ [(uid, mem)]) = firstUids calls := by
      rw [firstUids_concat, if_pos (Or.inl hmem)]
    have hnew := h.insert mem hreach hval (by rw [hfirst, Finset.insert_eq_of_mem (List.mem_toFinset.2 hmem)])
    rw [hacc, Option.isSome_some, if_pos rfl, add_zero] at hnew
    rw [if_neg hpos.ne', hslot]
    exact ⟨_, hnew⟩
  · have hnone : c.value uid = none := by
      rw [← Option.not_isSome_iff_eq_none, c.value_isSome, h.keys, List.mem_toFinset]
      exact hmem
    have hvac := hval
    rw [hnone, Option.map_none] at hvac
    have hzero : (T.slots i).nproc = 0 := by
      refine le_antisymm ?_ (h.nonneg i)
      by_contra hpos
      rw [accountOf, if_neg hpos] at hvac
      cases hvac
    rw [if_pos hzero, h.count_eq]
    split_ifs with hfull
    · -- there is no room for him
      have hfirst : firstUids (calls ++ [(uid, mem)]) = firstUids calls := by
        rw [firstUids_concat, if_pos (Or.inr hfull)]
      refine ⟨c, h.stores, h.nonneg, by rw [h.keys, hfirst], fun u hu => ?_⟩
      rw [hfirst] at hu
      rw [callsOf_concat, if_neg fun e : uid = u => hmem (e ▸ hu), List.append_nil]
      exact h.value u hu
    · have hfirst : firstUids (calls ++ [(uid, mem)]) = firstUids calls ++ [uid] := by
        rw [firstUids_concat, if_neg (by simp [hmem, hfull])]
      have hnew := h.insert mem hreach hval (by rw [hfirst]; ext u; simp)
      rw [hvac, Option.isSome_none, if_neg Bool.false_ne_true, callsOf_eq_nil (by omega) hmem] at hnew
      rw [← h.count_eq]
      exact ⟨_, by simpa using hnew⟩

/-- all calls -/
theorem holding_add_all (T₀ : Users) (calls : List (uid_t × BitVec 64)) :
    ∃ c, Holding (add_all (init_usermem T₀) calls) calls c := by
  induction calls using List.reverseRecOn with
  | nil => exact ⟨_, holding_init T₀⟩
  | append_singleton calls call ih =>
    obtain ⟨c, h⟩ := ih
    rw [add_all, List.foldl_append]
    exact h.add_usermem call.1 call.2

theorem Holding.accounts (h : Holding T calls c) : Accounts T calls := by
  intro uid
  constructor
  · intro hmem
    obtain ⟨i, hi⟩ := (h.stores.holds _ _).1 (h.value uid hmem)
    refine ⟨i, (accountOf_eq_some.1 hi).1, fun j hj hpos => ?_⟩
    exact h.stores.chained.unique j i uid ((T.slots j).mem, (T.slots j).nproc) _
      (accountOf_eq_some.2 ⟨by rw [← hj], hpos⟩) hi
  · intro hmem j hj hpos
    rw [← List.mem_toFinset, ← h.keys] at hmem
    refine hmem (h.stores.mem_keys.2 ⟨j, ((T.slots j).mem, (T.slots j).nproc), ?_⟩)
    exact accountOf_eq_some.2 ⟨by rw [← hj], hpos⟩

/-- **The accounting.** Whatever the table held before, after `init_usermem` and any calls each of the first users has
one slot with the number of his calls and the sum of his pages, and no other user has one. -/
theorem usermem_correct (T₀ : Users) (calls : List (uid_t × BitVec 64)) :
    Accounts (add_all (init_usermem T₀) calls) calls := by
  obtain ⟨c, h⟩ := holding_add_all T₀ calls
  exact h.accounts

/-! ## The check -/

/-- what is to be done about a user with so many bytes and processes -/
def verdict (uid : uid_t) (bytes nproc : ℤ) : Option Act :=
  if bytes ≥ MAX_MEMORY ∨ nproc ≥ MAX_NPROC then some (.killuser uid)
  else if bytes ≥ LOG_MEMORY ∨ nproc ≥ LOG_NPROC then some (.loguser uid)
  else none

/-- what is to be done about the user of a slot -/
def wanted (pagesize : BitVec 64) (protect_uids : List uid_t) (s : userhash) : Option Act :=
  if 0 < s.nproc ∧ ¬ (protect_uids.takeWhile (· ≠ -1)).contains s.uid then
    verdict s.uid (s.mem.toNat * pagesize.toNat) s.nproc
  else none

/-- the low 32 bits of the bytes lead to the same: the processes are enough to kill the user, or the bytes are less than
2 GiB, or what is left of them is at least the maximum and less than 2 GiB. A slot with less than no processes is to be
left alone. -/
def LowBitsDo (bytes nproc : ℤ) : Prop :=
  (0 < nproc ∧ (MAX_NPROC ≤ nproc ∨ bytes < 2 ^ 31 ∨ MAX_MEMORY ≤ bytes % 2 ^ 32 ∧ bytes % 2 ^ 32 < 2 ^ 31)) ∨
    (nproc < 0 ∧ (bytes % 2 ^ 32 < LOG_MEMORY ∨ 2 ^ 31 ≤ bytes % 2 ^ 32))

theorem isProtected_iff (uid : uid_t) (l : List uid_t) : isProtected uid l = true ↔ uid ∈ l.takeWhile (· ≠ -1) := by
  induction l with
  | nil => simp [isProtected]
  | cons j l ih =>
    rw [isProtected]
    by_cases hend : j = -1
    · simp [hend]
    · rw [if_neg hend, List.takeWhile_cons_of_pos (by simpa using hend), List.mem_cons, ← ih]
      split_ifs with h <;> simp [h]

theorem le_toInt {b k : ℤ} (hk : 0 < k) : k ≤ toInt b ↔ k ≤ b % 2 ^ 32 ∧ b % 2 ^ 32 < 2 ^ 31 := by
  rw [toInt, Int.bmod_def]
  norm_num
  split_ifs <;> omega

/-- the code comes to its decision by two tests, the first of them being implied by the second -/
theorem checkSlot_eq_verdict {pagesize : BitVec 64} {protect_uids : List uid_t} {s : userhash} (hzero : s.nproc ≠ 0)
    (hprot : ¬ isProtected s.uid protect_uids = true) :
    checkSlot pagesize protect_uids s = verdict s.uid (toInt (s.mem * pagesize).toNat) s.nproc := by
  unfold checkSlot verdict
  rw [if_neg hzero]
  generalize toInt (s.mem * pagesize).toNat = m
  by_cases hmax : m ≥ MAX_MEMORY ∨ s.nproc ≥ MAX_NPROC
  · have hlog : m ≥ LOG_MEMORY ∨ s.nproc ≥ LOG_NPROC := by
      simp only [LOG_MEMORY, MAX_MEMORY, LOG_NPROC, MAX_NPROC] at hmax ⊢
      omega
    rw [if_pos hlog, if_neg hprot, if_pos hmax, if_pos hmax]
  · simp only [hprot, hmax, Bool.false_eq_true, if_false]

theorem verdict_eq_killuser_iff {uid : uid_t} {bytes nproc : ℤ} :
    verdict uid bytes nproc = some (.killuser uid) ↔ MAX_MEMORY ≤ bytes ∨ MAX_NPROC ≤ nproc := by
  unfold verdict
  split_ifs with hmax hlog
  · exact iff_of_true rfl hmax
  · exact iff_of_false (by simp) hmax
  · exact iff_of_false (by simp) hmax

theorem verdict_eq_none_iff {uid : uid_t} {bytes nproc : ℤ} :
    verdict uid bytes nproc = none ↔ bytes < LOG_MEMORY ∧ nproc < LOG_NPROC := by
  have hmem : LOG_MEMORY ≤ MAX_MEMORY := by decide
  have hn : LOG_NPROC ≤ MAX_NPROC := by decide
  unfold verdict
  split_ifs with hmax hlog
  · exact iff_of_false (by simp) (by omega)
  · exact iff_of_false (by simp) (by omega)
  · exact iff_of_true rfl (by omega)

/-- the verdict on what is left of the bytes -/
theorem verdict_toInt_eq_iff {uid : uid_t} {bytes nproc : ℤ} (hb : 0 ≤ bytes) (hzero : nproc ≠ 0) :
    verdict uid (toInt bytes) nproc = (if 0 < nproc then verdict uid bytes nproc else none) ↔
      LowBitsDo bytes nproc := by
  have hlog : LOG_MEMORY ≤ toInt bytes ↔ _ := le_toInt (by decide)
  have hmax : MAX_MEMORY ≤ toInt bytes ↔ _ := le_toInt (by decide)
  rw [LowBitsDo]
  by_cases hpos : 0 < nproc
  · rw [if_pos hpos]
    by_cases hsmall : bytes < 2 ^ 31
    · rw [toInt_of_range (by omega) hsmall]
      exact iff_of_true rfl (Or.inl ⟨hpos, Or.inr (Or.inl hsmall)⟩)
    · -- with so many bytes the user is to be killed
      have hkill : verdict uid bytes nproc = some (.killuser uid) :=
        verdict_eq_killuser_iff.2 (Or.inl (by rw [MAX_MEMORY]; omega))
      rw [hkill, verdict_eq_killuser_iff, hmax]
      omega
  · rw [if_neg hpos, verdict_eq_none_iff, ← not_le, hlog, LOG_NPROC]
    omega

/-- the decision about a slot, with the bytes that go through the int -/
theorem checkSlot_eq_wanted_iff {pagesize : BitVec 64} {protect_uids : List uid_t} {s : userhash}
    (hfit : s.nproc ≠ 0 → s.mem.toNat * pagesize.toNat < 2 ^ 64) :
    checkSlot pagesize protect_uids s = wanted pagesize protect_uids s ↔
      s.nproc = 0 ∨ s.uid ∈ protect_uids.takeWhile (· ≠ -1) ∨
        LowBitsDo (s.mem.toNat * pagesize.toNat) s.nproc := by
  by_cases hzero : s.nproc = 0
  · simp [checkSlot, wanted, hzero]
  · by_cases hprot : s.uid ∈ protect_uids.takeWhile (· ≠ -1)
    · have hcode := (isProtected_iff _ _).2 hprot
      rw [wanted, if_neg fun h => h.2 (List.contains_iff_mem.2 hprot)]
      simp only [checkSlot, hcode, hprot, if_true, ite_self, true_or, or_true]
    · have hbytes : ((s.mem * pagesize).toNat : ℤ) = s.mem.toNat * pagesize.toNat := by
        rw [BitVec.toNat_mul, Nat.mod_eq_of_lt (hfit hzero), Nat.cast_mul]
      rw [checkSlot_eq_verdict hzero ((isProtected_iff _ _).not.2 hprot), hbytes, wanted]
      simp only [List.contains_iff_mem, hprot, hzero, not_false_eq_true, and_true, false_or]
      exact verdict_toInt_eq_iff (by positivity) hzero

/-- **The check.** For tables whose bytes fit 64 bits the users are killed, logged and left alone as they should be
exactly if, for each user who is not protected, the low 32 bits of his bytes lead to the same. -/
theorem check_mem_right_iff (pagesize : BitVec 64) (protect_uids : List uid_t) (T : Users)
    (hfit : ∀ i, (T.slots i).nproc ≠ 0 → (T.slots i).mem.toNat * pagesize.toNat < 2 ^ 64) :
    check_mem pagesize protect_uids T = (List.ofFn T.slots).map (wanted pagesize protect_uids) ↔
      ∀ i, (T.slots i).nproc = 0 ∨ (T.slots i).uid ∈ protect_uids.takeWhile (· ≠ -1) ∨
        LowBitsDo ((T.slots i).mem.toNat * pagesize.toNat) (T.slots i).nproc := by
  rw [check_mem, List.map_inj_left, List.forall_mem_ofFn_iff]
  exact forall_congr' fun i => checkSlot_eq_wanted_iff (hfit i)

/-- the table of one user with one process, who has so many pages -/
def oneUser (mem : BitVec 64) : Users := add_all (init_usermem ⟨fun _ => ⟨0, 0, 0⟩, 0⟩) [(1000, mem)]

/-- with 1 GiB he is killed -/
theorem one_gigabyte :
    check_mem 4096 [-1] (oneUser (2 ^ 18)) = (List.ofFn (oneUser (2 ^ 18)).slots).map (wanted 4096 [-1]) :=
  (check_mem_right_iff 4096 [-1] (oneUser (2 ^ 18)) (by decide +kernel)).2 fun i => by
    by_cases hi : i = userslot 1000
    · subst hi
      exact Or.inr (Or.inr (Or.inl (by decide)))
    · exact Or.inl (by revert i; decide +kernel)

/-- with 4 GiB he is left alone -/
theorem four_gigabytes :
    (∀ i, ((oneUser (2 ^ 20)).slots i).mem.toNat * (4096 : BitVec 64).toNat < 2 ^ 64) ∧
    check_mem 4096 [-1] (oneUser (2 ^ 20)) ≠ (List.ofFn (oneUser (2 ^ 20)).slots).map (wanted 4096 [-1]) := by
  decide +kernel

end MNetSoft.Robocop
