/-
The user list of `zapuser`: the logins asked for, in the order of `strcmp` after `sort_users`, those that `check_user`
has refused as NULL entries at the end. `check_deleted`, the loop in `main`, `reap_outbound` and `delete_mathom` look
logins up in it by binary search.

`qsort` is what its contract says: it permutes the list into an order of the comparison; equal logins may come in any
order, and so may the NULL entries, for which `ud_comp` answers 1 both ways.
- `in_user_list_some`: the entry that is found has the login looked for.
- `in_user_list_isSome`: in a sorted list, a login is found exactly when it is listed.
- `in_user_list_correct`: the loop ends, with an index of the login or, if it is refused or not asked for, with -1.
-/
import Mathlib.Tactic
import Mathlib.Order.WithBot
import MNetSoft.Core.CString
import MNetSoft.Core.BinarySearch

namespace MNetSoft.Zapuser

open MNetSoft.CString MNetSoft.BinarySearch

/-! ## Model -/

/-- what `zapuser` knows of a user when it deletes his files; NULL pointers are `none` -/
structure Udat where
  login : Option Str
  uid : ℕ
  home : Option Str
  mailbox : Str
deriving DecidableEq, Repr

/-- a login asked for, and what `check_user` says: refused, or his uid, home directory and mailbox -/
structure Request where
  login : Str
  checked : Option (ℕ × Str × Str)
deriving DecidableEq, Repr

/-- the entry of the user list after the checks; nothing reads the other fields of a refused one -/
def Request.entry (r : Request) : Udat :=
  match r.checked with
  | none => ⟨none, 0, none, []⟩
  | some (uid, home, mailbox) => ⟨some r.login, uid, some home, mailbox⟩

def ud_comp (a b : Udat) : ℤ :=
  match a.login, b.login with
  | none, _ => 1
  | some _, none => -1
  | some la, some lb => strcmp la lb

/-- what `sort_users` may make of a list -/
def SortsTo (us users : List Udat) : Prop :=
  users.Perm us ∧ users.Pairwise fun a b => ud_comp a b ≤ 0 ∨ (a.login = none ∧ b.login = none)

/-- the comparison of the search: NULLs sort to the end -/
def compareLogin (u : Str) : Option Str → ℤ
  | none => -1
  | some login => strcmp u login

/-- the index of the named user in the user list; -1 is `none` -/
def in_user_list (users : List Udat) (u : Str) : Option ℕ :=
  searchTable (fun i => compareLogin u ((users.map Udat.login).getD i none)) users.length

/-- the part before `sep` of a line or file name, if there is one -/
def before (sep : Char) (s : Str) : Option Str := if sep ∈ s then some (s.takeWhile (· ≠ sep)) else none

/-! ## The order of the list -/

/-- a login as a key, NULL above all logins -/
def Udat.key (u : Udat) : WithTop Str := u.login

theorem ud_comp_le_iff (a b : Udat) :
    (ud_comp a b ≤ 0 ∨ (a.login = none ∧ b.login = none)) ↔ a.key ≤ b.key := by
  unfold ud_comp Udat.key
  cases ha : a.login with
  | none =>
    cases hb : b.login with
    | none => exact iff_of_true (Or.inr ⟨rfl, rfl⟩) le_rfl
    | some lb =>
      apply iff_of_false (by simp)
      intro h
      exact absurd (top_le_iff.1 h) (WithTop.coe_ne_top)
  | some la =>
    cases hb : b.login with
    | none => exact iff_of_true (Or.inl (by norm_num)) le_top
    | some lb =>
      have hle : strcmp la lb ≤ 0 ↔ la ≤ lb := by rw [← not_lt, strcmp_pos, not_lt]
      simp only [hle, reduceCtorEq, false_and, or_false]
      exact WithTop.coe_le_coe.symm

theorem SortsTo.sorted {us users : List Udat} (h : SortsTo us users) : (users.map Udat.key).Pairwise (· ≤ ·) :=
  List.pairwise_map.2 (h.2.imp fun {a b} => (ud_comp_le_iff a b).1)

theorem compareLogin_neg (u : Str) (l : Option Str) : compareLogin u l < 0 ↔ (u : WithTop Str) < (l : WithTop Str) := by
  cases l with
  | none => exact iff_of_true (by norm_num [compareLogin]) (WithTop.coe_lt_top u)
  | some login => exact (strcmp_neg u login).trans WithTop.coe_lt_coe.symm

theorem compareLogin_zero (u : Str) (l : Option Str) : compareLogin u l = 0 ↔ some u = l := by
  cases l with
  | none => simp [compareLogin]
  | some login => simp [compareLogin, strcmp_zero]

/-! ## Looking up a login -/

theorem login_getD {users : List Udat} {i : ℕ} {u : Udat} (h : users[i]? = some u) :
    (users.map Udat.login).getD i none = u.login := by
  simp [List.getD_eq_getElem?_getD, h]

/-- an entry that is found has the login -/
theorem in_user_list_some {users : List Udat} {u : Str} {j : ℕ} (h : in_user_list users u = some j) :
    (users.map Udat.login)[j]? = some (some u) := by
  obtain ⟨hcmp, -, hle⟩ := search_some le_rfl h
  have hlt : j < users.length := by omega
  have hget : users[j]? = some users[j] := List.getElem?_eq_getElem hlt
  rw [login_getD hget, compareLogin_zero] at hcmp
  rw [List.getElem?_map, hget, Option.map_some, ← hcmp]

/-- **A login is found exactly when it is listed**, if the list is sorted. -/
theorem in_user_list_isSome {us users : List Udat} (hs : SortsTo us users) (u : Str) :
    (in_user_list users u).isSome ↔ some u ∈ users.map Udat.login := by
  have hkey : ∀ (i : ℕ) (k : WithTop Str), (users.map Udat.key)[i]? = some k →
      (users.map Udat.login).getD i none = k := by
    intro i k hk
    rw [List.getElem?_map, Option.map_eq_some_iff] at hk
    obtain ⟨e, he, rfl⟩ := hk
    exact login_getD he
  have hfound := search_isSome_iff hs.sorted (u : WithTop Str)
    (fun i k hk => by rw [← hkey i k hk]; exact compareLogin_neg u _)
    (fun i k hk => by rw [← hkey i k hk]; exact compareLogin_zero u _)
  rw [List.length_map] at hfound
  exact hfound

/-- **The look-up is right.** For every list of logins, any of them refused, in every order `qsort` may leave it in: the
loop ends as `in_user_list` says, and in no other way, with the index of an entry that has the login if it is one of
those that remain, and with -1 otherwise. -/
theorem in_user_list_correct (reqs : List Request) (users : List Udat) (hs : SortsTo (reqs.map Request.entry) users)
    (u : Str) :
    (∀ r, Ends (fun i => compareLogin u ((users.map Udat.login).getD i none)) 0 (users.length - 1) r ↔
        r = in_user_list users u) ∧
      (some u ∈ reqs.map (fun r => r.entry.login) →
        ∃ j, in_user_list users u = some j ∧ (users.map Udat.login)[j]? = some (some u)) ∧
      (some u ∉ reqs.map (fun r => r.entry.login) → in_user_list users u = none) := by
  have hmem : some u ∈ reqs.map (fun r => r.entry.login) ↔ (in_user_list users u).isSome := by
    have hlogins := (hs.1.map Udat.login).mem_iff (a := some u)
    rw [List.map_map] at hlogins
    exact hlogins.symm.trans (in_user_list_isSome hs u).symm
  refine ⟨fun r => ⟨?_, ?_⟩, ?_, ?_⟩
  · intro h
    exact h.unique (ends_searchTable _ _)
  · intro h
    rw [h]
    exact ends_searchTable _ _
  · intro h
    obtain ⟨j, hj⟩ := Option.isSome_iff_exists.1 (hmem.1 h)
    exact ⟨j, hj, in_user_list_some hj⟩
  · intro h
    rw [← Option.not_isSome_iff_eq_none]
    exact fun hsome => h (hmem.2 hsome)

/-- two logins and one that was refused: the second is found behind the first, and the refused one is not -/
theorem refused_not_found :
    in_user_list [⟨some ['a'], 1, some [], []⟩, ⟨some ['b'], 2, some [], []⟩, ⟨none, 0, none, []⟩] ['b'] = some 1 ∧
      in_user_list [⟨some ['a'], 1, some [], []⟩, ⟨some ['b'], 2, some [], []⟩, ⟨none, 0, none, []⟩] ['c'] = none := by
  have hs : SortsTo ([⟨['c'], none⟩, ⟨['b'], some (2, [], [])⟩, ⟨['a'], some (1, [], [])⟩].map Request.entry)
      [⟨some ['a'], 1, some [], []⟩, ⟨some ['b'], 2, some [], []⟩, ⟨none, 0, none, []⟩] := ⟨by decide, by decide⟩
  have hb := in_user_list_correct _ _ hs ['b']
  have hc := in_user_list_correct _ _ hs ['c']
  refine ⟨?_, hc.2.2 (by decide)⟩
  obtain ⟨j, hj, hget⟩ := hb.2.1 (by decide)
  rw [hj]
  have hlt : j < 3 := (List.getElem?_eq_some_iff.1 hget).1
  interval_cases j
  · cases hget
  · rfl
  · cases hget

/-- the look-up reads the logins alone -/
theorem in_user_list_congr {users users' : List Udat} (h : users'.map Udat.login = users.map Udat.login) (u : Str) :
    in_user_list users' u = in_user_list users u := by
  have hlen : users'.length = users.length := by
    have hmap := congrArg List.length h
    rwa [List.length_map, List.length_map] at hmap
  rw [in_user_list, in_user_list, h, hlen]

end MNetSoft.Zapuser
