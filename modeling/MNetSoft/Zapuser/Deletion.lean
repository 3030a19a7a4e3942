/-
What `zapuser` deletes once it has tried to remove its users from the passwd file: `check_deleted`, the loop of `main`
over the user list, `reap_outbound` and `delete_mathom`. Whether the rewrite of the passwd file was completed or
aborted is not assumed: `passwd` is whatever /etc/passwd then holds. (If it cannot be opened `zapuser` exits there.)

`check_deleted` scans /etc/passwd character by character and clears the home directory of every listed user it finds,
so that `main` leaves his files alone. An account that is still there is put at risk by five things:
- the list holds a user twice: the search finds one of the entries only, and the other keeps its home directory;
- the scan does not see the line: a line without a colon before it is taken for a part of it, and a field of more than
  `BFSZ` characters is skipped, with the line after it if it is the newline that does not fit;
- a field of exactly `BFSZ` characters: the terminating NUL is written past the end of `bf` (`none`);
- `reap_outbound` and `delete_mathom` look up the login, which `check_deleted` does not clear;
- the new outbound file is not linked, loses characters, or has lines that are not taken whole (`Zapuser.Outbound`).

- `scanPasswd_eq`: the scan, line by line; `wellFormed_seen`: in a well-formed passwd file it sees every entry.
- `spares_right`: when no account that is still in the passwd file loses anything, exactly so where the new outbound
  file is complete.
- `aborted_zap`: an aborted deletion that drops the user's line from the outbound file.
-/
import Mathlib.Tactic
import Mathlib.Data.List.NodupEquivFin
import MNetSoft.Zapuser.Outbound

namespace MNetSoft.Zapuser

open MNetSoft.CString

/-! ## Model -/

/-- the loop of `check_deleted`: the names it looks up. The state is `bf[0..i)`, or `none` while `i < 0`. -/
def scanPasswd : Option Str → Str → Option (List Str)
  | _, [] => some []
  | none, ch :: s => scanPasswd (if ch = '\n' then some [] else none) s
  | some bf, ch :: s =>
    if ch = ':' then
      -- bf[i] = '\0' with i = BFSZ is past the end
      if bf.length < BFSZ then (scanPasswd none s).map (cstr bf :: ·) else none
    else if bf.length < BFSZ then scanPasswd (some (bf ++ [ch])) s
    else scanPasswd none s

/-- a name that is still in the passwd file: the user's home directory is set to NULL -/
def clearHome (users : List Udat) (bf : Str) : List Udat :=
  match in_user_list users bf with
  | some j => users.modify j fun u => { u with home := none }
  | none => users

/-- check each user in the user list to see if they still exist -/
def check_deleted (users : List Udat) (passwd : Str) : Option (List Udat) :=
  (scanPasswd (some []) passwd).map fun names => names.foldl clearHome users

/-- the loop of `main`: the logins whose home directory and mailbox it deletes, or moves without -d -/
def deleteFiles (users : List Udat) : List Str := (users.filter fun u => u.home.isSome).filterMap Udat.login

/-- the outbound file, if one is configured, and what the calls on it answer -/
structure Outbound extends OutboundFile.Calls where
  file : Str

def Outbound.reap (o : Outbound) (users : List Udat) : Option Str := OutboundFile.reap_outbound users o.toCalls o.file

/-- the mathom directory, if one is configured and can be read: its entries, and which of them can be unlinked -/
structure Mathom where
  entries : List Str
  unlinks : Str → Bool

/-- the login a file of the mathom directory belongs to; names that start with '.' are skipped -/
def mathomLogin (d_name : Str) : Option Str :=
  if d_name.head? = some '.' then none else some ((before '.' d_name).getD d_name)

/-- the files of the mathom directory that are removed -/
def delete_mathom (users : List Udat) (m : Mathom) : List Str :=
  m.entries.filter fun d_name =>
    match mathomLogin d_name with
    | none => false
    | some u => (in_user_list users u).isSome ∧ m.unlinks d_name

/-- what `main` does after `zap_passwd`: the logins whose files are deleted, the outbound file, and the mathom files
removed -/
structure Zapped where
  deleted : List Str
  outbound : Option (Option Str)
  removed : Option (List Str)
deriving DecidableEq, Repr

def zap (users : List Udat) (passwd : Str) (o : Option Outbound) (m : Option Mathom) : Option Zapped :=
  (check_deleted users passwd).map fun users =>
    ⟨deleteFiles users, o.map fun ob => ob.reap users, m.map (delete_mathom users)⟩

/-! ## Accounts that are still there -/

def passwdLogins (passwd : Str) : List Str := (splitLines passwd).filterMap (before ':')

/-- the account loses nothing -/
structure Spared (o : Option Outbound) (m : Option Mathom) (r : Zapped) (login : Str) : Prop where
  files : login ∉ r.deleted
  outbound : ∀ ob ∈ o, ∀ file ∈ r.outbound, ∀ line ∈ rawLines ob.file, before '@' line = some login →
    line ∈ rawLines (file.getD [])
  mathom : ∀ mo ∈ m, ∀ removed ∈ r.removed, ∀ d_name ∈ mo.entries, mathomLogin d_name = some login → d_name ∉ removed

/-- no account that is still in the passwd file loses anything -/
def Spares (users : List Udat) (passwd : Str) (o : Option Outbound) (m : Option Mathom) : Prop :=
  ∃ r, zap users passwd o m = some r ∧ ∀ login ∈ passwdLogins passwd, Spared o m r login

/-- the names under which `check_deleted` looks up the lines of a passwd file: `carry` is what is left of the lines
without a colon before them, and `none` where the line is skipped -/
def lookedUp : Option Str → List Str → Option (List Str)
  | _, [] => some []
  | none, _ :: ls => lookedUp (some []) ls
  | some carry, l :: ls =>
    let bf := carry ++ l.takeWhile (· ≠ ':')
    if ':' ∈ l then
      if bf.length < BFSZ then (lookedUp (some []) ls).map (cstr bf :: ·)
      else if bf.length = BFSZ then none
      else lookedUp (some []) ls
    else if bf.length < BFSZ then lookedUp (some (bf ++ ['\n'])) ls
    -- the newline does not fit, and the next line is skipped
    else if bf.length = BFSZ then lookedUp none ls
    else lookedUp (some []) ls

def timesListed (us : List Udat) (login : Str) : ℕ := (us.map Udat.login).count (some login)

/-- the login has a line in the outbound file, and the old file is removed -/
def AtStake (ob : Outbound) (login : Str) : Prop :=
  ob.opens ∧ ob.unlinks ∧ ∃ line ∈ rawLines ob.file, before '@' line = some login

/-- what is needed in any case: if the account is listed at all, then once, and its line is looked up; it has no mathom
file that can be unlinked, unless it is not listed; and a new outbound file is linked in the place of the old one -/
structure Safe (us : List Udat) (seen : List Str) (o : Option Outbound) (m : Option Mathom) (login : Str) : Prop where
  files : 0 < timesListed us login → timesListed us login = 1 ∧ login ∈ seen
  linked : ∀ ob ∈ o, AtStake ob login → ob.links
  mathom : ∀ mo ∈ m, (∃ d_name ∈ mo.entries, mathomLogin d_name = some login ∧ mo.unlinks d_name) →
    timesListed us login = 0

/-- The new outbound file is complete: nothing that is written is lost, and its lines are taken whole. -/
structure Complete (us users : List Udat) (ob : Outbound) : Prop where
  delivered : OutboundFile.Delivered users ob.toCalls ob.file
  linewise : OutboundFile.Linewise us ob.file

/-- the outbound lines of the account: it is not listed, and the new file is complete or the old one over again -/
def Unharmed (us users : List Udat) (o : Option Outbound) (login : Str) : Prop :=
  ∀ ob ∈ o, AtStake ob login → timesListed us login = 0 ∧ OutboundFile.Delivered users ob.toCalls ob.file ∧
    (OutboundFile.Linewise us ob.file ∨ OutboundFile.Undropped us ob.file)

/-! ## The scan -/

/-- **The scan, line by line** -/
theorem scanPasswd_eq (s : Str) :
    (∀ bf, bf.length ≤ BFSZ → scanPasswd (some bf) s = lookedUp (some bf) (splitLines s)) ∧
      scanPasswd none s = lookedUp none (splitLines s) := by
  induction s with
  | nil => exact ⟨fun bf _ => by simp [scanPasswd, splitLines, lookedUp], rfl⟩
  | cons c s ih =>
    obtain ⟨hsome, hnone⟩ := ih
    obtain ⟨l, ls, hl⟩ := splitLines_eq_cons s
    rw [hl, lookedUp] at hnone
    by_cases hnl : c = '\n'
    · subst hnl
      have hcolon : ('\n' : Char) ≠ ':' := by decide
      refine ⟨fun bf hbf => ?_, ?_⟩
      · simp only [scanPasswd, if_neg hcolon, splitLines, if_true, lookedUp, List.takeWhile_nil, List.append_nil,
          List.not_mem_nil, if_false]
        split_ifs with hroom hfull
        · exact hsome _ (by simpa using hroom)
        · rw [hl, lookedUp]
          exact hnone
        · omega
      · simp only [scanPasswd, if_true, splitLines, lookedUp]
        exact hsome [] (Nat.zero_le _)
    · refine ⟨fun bf hbf => ?_, by simp only [scanPasswd, if_neg hnl, splitLines, hl, lookedUp, hnone]⟩
      by_cases hcolon : c = ':'
      · subst hcolon
        simp only [scanPasswd, if_true, splitLines, if_neg hnl, hl, lookedUp, List.mem_cons, true_or, hnone]
        have htake : (':' :: l).takeWhile (· ≠ ':') = [] := by simp
        rw [htake, List.append_nil]
        split_ifs with hroom hfull
        · rfl
        · rfl
        · omega
      · have htake : (c :: l).takeWhile (· ≠ ':') = c :: l.takeWhile (· ≠ ':') := by simp [hcolon]
        have hmem : ':' ∈ c :: l ↔ ':' ∈ l := by simp [Ne.symm hcolon]
        simp only [scanPasswd, if_neg hcolon, splitLines, if_neg hnl, hl]
        by_cases hroom : bf.length < BFSZ
        · rw [if_pos hroom, hsome _ (by simpa using hroom), hl]
          simp only [lookedUp, htake, hmem, List.append_assoc, List.singleton_append]
        · have hlong : ¬(bf ++ (c :: l).takeWhile (· ≠ ':')).length < BFSZ ∧
              ¬(bf ++ (c :: l).takeWhile (· ≠ ':')).length = BFSZ := by
            rw [htake, List.length_append, List.length_cons]
            omega
          rw [if_neg hroom, hnone]
          simp only [lookedUp, if_neg hlong.1, if_neg hlong.2, ite_self]

/-- a passwd file of lines with a colon each, before it a name that fits and has no NUL, is looked up line by line -/
theorem lookedUp_wellFormed {ls : List Str} (h : ∀ l ∈ ls, ∃ u, before ':' l = some u ∧ u.length < BFSZ ∧ '\x00' ∉ u) :
    lookedUp (some []) (ls ++ [[]]) = some (ls.filterMap (before ':')) := by
  induction ls with
  | nil => simp [lookedUp]
  | cons l ls ih =>
    obtain ⟨u, hu, hlen, hnul⟩ := h l List.mem_cons_self
    have hrest := ih fun l' hl' => h l' (List.mem_cons_of_mem l hl')
    rw [List.filterMap_cons, hu]
    unfold before at hu
    split_ifs at hu with hcolon
    have hname : l.takeWhile (· ≠ ':') = u := Option.some.inj hu
    simp only [List.cons_append, lookedUp, List.nil_append, if_pos hcolon, hname, if_pos hlen, hrest, Option.map_some,
      cstr_of_not_mem hnul]

theorem wellFormed_seen {ls : List Str}
    (h : ∀ l ∈ ls, '\n' ∉ l ∧ ∃ u, before ':' l = some u ∧ u.length < BFSZ ∧ '\x00' ∉ u) :
    lookedUp (some []) (splitLines (unlines ls)) = some (passwdLogins (unlines ls)) := by
  have hsplit := splitLines_unlines fun l hl => (h l hl).1
  rw [passwdLogins, hsplit, lookedUp_wellFormed fun l hl => (h l hl).2]
  simp [before]

/-! ## Whose files are deleted -/

theorem clearHome_logins (users : List Udat) (bf : Str) :
    (clearHome users bf).map Udat.login = users.map Udat.login := by
  unfold clearHome
  split
  · apply List.ext_getElem?
    intro i
    rw [List.getElem?_map, List.getElem?_map, List.getElem?_modify]
    cases users[i]? with
    | none => rfl
    | some u =>
      simp only [Option.map_some]
      split_ifs <;> rfl
  · rfl

theorem foldl_clearHome_logins (names : List Str) (users : List Udat) :
    (names.foldl clearHome users).map Udat.login = users.map Udat.login := by
  induction names generalizing users with
  | nil => rfl
  | cons bf names ih => rw [List.foldl_cons, ih, clearHome_logins]

/-- `check_deleted` clears the home directory of the entries it finds, and of no other -/
theorem home_foldl_clearHome (names : List Str) (users : List Udat) (j : ℕ) :
    (names.foldl clearHome users)[j]?.map Udat.home =
      users[j]?.map fun u => if ∃ bf ∈ names, in_user_list users bf = some j then none else u.home := by
  induction names generalizing users with
  | nil => simp
  | cons bf names ih =>
    rw [List.foldl_cons, ih]
    simp only [in_user_list_congr (clearHome_logins users bf), List.mem_cons, exists_eq_or_imp]
    unfold clearHome
    cases hj : in_user_list users bf with
    | none => simp
    | some i =>
      simp only [List.getElem?_modify, Option.some.injEq]
      cases users[j]? with
      | none => rfl
      | some u =>
        by_cases hij : i = j
        · simp [hij]
        · simp [hij]

/-- the entries of the list that have passed the checks have a home directory -/
theorem home_of_login {reqs : List Request} {users : List Udat} (hs : SortsTo (reqs.map Request.entry) users) {j : ℕ}
    {u : Udat} (hu : users[j]? = some u) (hl : u.login.isSome) : u.home.isSome := by
  obtain ⟨⟨login, checked⟩, -, rfl⟩ := List.mem_map.1 (hs.1.subset (List.mem_of_getElem? hu))
  cases checked with
  | none => cases hl
  | some c => rfl

theorem mem_deleteFiles (users : List Udat) (login : Str) :
    login ∈ deleteFiles users ↔ ∃ j : ℕ, (users.map Udat.login)[j]? = some (some login) ∧
      ∃ home, users[j]?.map Udat.home = some (some home) := by
  simp only [deleteFiles, List.mem_filterMap, List.mem_filter]
  refine ⟨?_, ?_⟩
  · intro h
    obtain ⟨u, ⟨hu, hhome⟩, hlogin⟩ := h
    obtain ⟨j, hj⟩ := List.mem_iff_getElem?.1 hu
    obtain ⟨home, hh⟩ := Option.isSome_iff_exists.1 hhome
    exact ⟨j, by rw [List.getElem?_map, hj, Option.map_some, hlogin], home, by rw [hj, Option.map_some, hh]⟩
  · intro h
    obtain ⟨j, hlogin, home, hhome⟩ := h
    rw [List.getElem?_map] at hlogin
    obtain ⟨u, hu, hul⟩ := Option.map_eq_some_iff.1 hlogin
    rw [hu, Option.map_some] at hhome
    exact ⟨u, ⟨List.mem_of_getElem? hu, by rw [Option.some.inj hhome]; rfl⟩, hul⟩

/-- **Whose files are deleted**: those of every entry that the search does not find under a name of the passwd file -/
theorem deleted_iff {reqs : List Request} {users : List Udat} (hs : SortsTo (reqs.map Request.entry) users)
    (names : List Str) (login : Str) :
    login ∈ deleteFiles (names.foldl clearHome users) ↔
      ∃ j : ℕ, (users.map Udat.login)[j]? = some (some login) ∧
        ¬(login ∈ names ∧ in_user_list users login = some j) := by
  rw [mem_deleteFiles, foldl_clearHome_logins]
  apply exists_congr
  intro j
  apply and_congr_right
  intro hlogin
  have hentry := hlogin
  rw [List.getElem?_map] at hentry
  obtain ⟨u, hu, hul⟩ := Option.map_eq_some_iff.1 hentry
  obtain ⟨home, hhome⟩ := Option.isSome_iff_exists.1 (home_of_login hs hu (by rw [hul]; rfl))
  -- only its own login finds the entry
  have hfind : (∃ bf ∈ names, in_user_list users bf = some j) ↔ login ∈ names ∧ in_user_list users login = some j := by
    refine ⟨?_, ?_⟩
    · intro h
      obtain ⟨bf, hbf, hj⟩ := h
      have hsame := in_user_list_some hj
      rw [hlogin] at hsame
      cases hsame
      exact ⟨hbf, hj⟩
    · intro h
      exact ⟨login, h.1, h.2⟩
  simp only [home_foldl_clearHome, hu, Option.map_some, hfind, hhome]
  by_cases hcleared : login ∈ names ∧ in_user_list users login = some j
  · simp [hcleared]
  · simp [hcleared]

theorem two_le_count_iff (l : List (Option Str)) (a : Option Str) : 2 ≤ l.count a ↔ l.Duplicate a := by
  rw [List.duplicate_iff_two_le_count]
  congr!

theorem timesListed_eq {us users : List Udat} (hperm : users.Perm us) (login : Str) :
    timesListed us login = (users.map Udat.login).count (some login) := ((hperm.map Udat.login).count_eq _).symm

/-- a login is listed once at most exactly when two entries of it are always the same one -/
theorem timesListed_le_one_iff {us users : List Udat} (hperm : users.Perm us) (login : Str) :
    timesListed us login ≤ 1 ↔ ∀ i j : ℕ, (users.map Udat.login)[i]? = some (some login) →
      (users.map Udat.login)[j]? = some (some login) → i = j := by
  have hdup : timesListed us login ≤ 1 ↔ ¬(users.map Udat.login).Duplicate (some login) := by
    rw [← two_le_count_iff, ← timesListed_eq hperm]
    omega
  rw [hdup, List.duplicate_iff_exists_distinct_get]
  refine ⟨?_, ?_⟩
  · intro h i j hi hj
    by_contra hne
    obtain ⟨hlti, hgeti⟩ := List.getElem?_eq_some_iff.1 hi
    obtain ⟨hltj, hgetj⟩ := List.getElem?_eq_some_iff.1 hj
    apply h
    rcases Nat.lt_or_gt_of_ne hne with hlt | hlt
    · exact ⟨⟨i, hlti⟩, ⟨j, hltj⟩, hlt, hgeti.symm, hgetj.symm⟩
    · exact ⟨⟨j, hltj⟩, ⟨i, hlti⟩, hlt, hgetj.symm, hgeti.symm⟩
  · intro h hd
    obtain ⟨n, m, hlt, hn, hm⟩ := hd
    have hentry : ∀ k, some login = (users.map Udat.login).get k →
        (users.map Udat.login)[(k : ℕ)]? = some (some login) := by
      intro k hk
      rw [List.getElem?_eq_getElem k.2]
      exact congrArg some hk.symm
    exact absurd (h n m (hentry n hn) (hentry m hm)) (Nat.ne_of_lt hlt)

/-- a login is listed at all exactly when some entry has it, and then the search finds one -/
theorem timesListed_pos_iff {us users : List Udat} (hs : SortsTo us users) (login : Str) :
    0 < timesListed us login ↔ (in_user_list users login).isSome := by
  rw [in_user_list_isSome hs, timesListed_eq hs.1, List.count_pos_iff]

/-- the files of a user are left alone exactly when he is not listed, or listed once and found in the passwd file -/
theorem not_deleted_iff {reqs : List Request} {users : List Udat} (hs : SortsTo (reqs.map Request.entry) users)
    (names : List Str) (login : Str) :
    login ∉ deleteFiles (names.foldl clearHome users) ↔
      (0 < timesListed (reqs.map Request.entry) login →
        timesListed (reqs.map Request.entry) login = 1 ∧ login ∈ names) := by
  rw [deleted_iff hs, not_exists]
  refine ⟨?_, ?_⟩
  · intro h hpos
    have hfound : ∀ j : ℕ, (users.map Udat.login)[j]? = some (some login) →
        login ∈ names ∧ in_user_list users login = some j := fun j hj => not_not.1 fun hn => h j ⟨hj, hn⟩
    obtain ⟨i, hi⟩ := Option.isSome_iff_exists.1 ((timesListed_pos_iff hs login).1 hpos)
    have honce : timesListed (reqs.map Request.entry) login ≤ 1 := by
      rw [timesListed_le_one_iff hs.1]
      intro j k hj hk
      exact Option.some.inj ((hfound j hj).2.symm.trans (hfound k hk).2)
    exact ⟨le_antisymm honce hpos, (hfound i (in_user_list_some hi)).1⟩
  · intro h j hentry
    obtain ⟨hj, hn⟩ := hentry
    have hsome := (in_user_list_isSome hs login).2 (List.mem_of_getElem? hj)
    obtain ⟨honce, hseen⟩ := h ((timesListed_pos_iff hs login).2 hsome)
    obtain ⟨i, hi⟩ := Option.isSome_iff_exists.1 hsome
    have hij : i = j := (timesListed_le_one_iff hs.1 login).1 honce.le i j (in_user_list_some hi) hj
    rw [hij] at hi
    exact hn ⟨hseen, hi⟩

/-! ## Accounts that are spared -/

theorem in_user_list_cleared (names : List Str) (users : List Udat) (u : Str) :
    in_user_list (names.foldl clearHome users) u = in_user_list users u :=
  in_user_list_congr (foldl_clearHome_logins names users) u

/-- the look-ups of `reap_outbound` are those of the list as it was sorted -/
theorem reap_cleared (names : List Str) (users : List Udat) (ob : Outbound) :
    ob.reap (names.foldl clearHome users) = OutboundFile.reap_outbound users ob.toCalls ob.file :=
  OutboundFile.reap_outbound_congr (in_user_list_cleared names users) ob.toCalls ob.file

theorem stays_iff_timesListed {us : List Udat} {line login : Str} (h : before '@' line = some login) :
    OutboundFile.Stays us line ↔ timesListed us login = 0 := by
  unfold OutboundFile.Stays timesListed
  rw [h, List.count_eq_zero]
  simp

/-- the outbound lines of a user whose file is complete stay -/
theorem outbound_kept {us users : List Udat} (hs : SortsTo us users) (names : List Str) {ob : Outbound} {login : Str}
    (hlinks : AtStake ob login → ob.links)
    (h : AtStake ob login → timesListed us login = 0 ∧ OutboundFile.Delivered users ob.toCalls ob.file ∧
      (OutboundFile.Linewise us ob.file ∨ OutboundFile.Undropped us ob.file)) {line : Str} (hline :
        line ∈ rawLines ob.file)
    (hlogin : before '@' line = some login) : line ∈ rawLines ((ob.reap (names.foldl clearHome users)).getD []) := by
  rw [reap_cleared]
  by_cases hremoved : ob.opens ∧ ob.unlinks
  · have hstake : AtStake ob login := ⟨hremoved.1, hremoved.2, line, hline, hlogin⟩
    obtain ⟨hnot, hdelivered, hwhole⟩ := h hstake
    have hreplaced := OutboundFile.replaced_of_sound hs fun _ _ => ⟨hlinks hstake, hdelivered, hwhole⟩
    exact hreplaced.keeps hline ((stays_iff_timesListed hlogin).2 hnot)
  · have hsame : OutboundFile.reap_outbound users ob.toCalls ob.file = some ob.file := by
      unfold OutboundFile.reap_outbound
      by_cases hopens : ob.opens = true
      · rw [if_neg (not_not.2 hopens), if_pos fun hunlinks => hremoved ⟨hopens, hunlinks⟩]
      · rw [if_pos hopens]
    rw [hsame, Option.getD_some]
    exact hline

theorem linked_of_kept {users : List Udat} (names : List Str) {ob : Outbound} {login : Str} (hstake : AtStake ob login)
    (h : ∀ line ∈ rawLines ob.file, before '@' line = some login →
      line ∈ rawLines ((ob.reap (names.foldl clearHome users)).getD [])) : ob.links := by
  obtain ⟨hopens, hunlinks, line, hline, hlogin⟩ := hstake
  by_contra hlinks
  have hkept := h line hline hlogin
  rw [reap_cleared, OutboundFile.reap_outbound, if_neg (not_not.2 hopens), if_neg (not_not.2 hunlinks),
    if_pos hlinks] at hkept
  cases hkept

/-- in a complete file only the lines of users who are not listed stay -/
theorem not_listed_of_kept {us users : List Udat} (hs : SortsTo us users) (names : List Str)
    {ob : Outbound} {login : Str} (hcomplete : Complete us users ob) (hstake : AtStake ob login)
    (h : ∀ line ∈ rawLines ob.file, before '@' line = some login →
      line ∈ rawLines ((ob.reap (names.foldl clearHome users)).getD [])) : timesListed us login = 0 := by
  obtain ⟨hopens, hunlinks, line, hline, hlogin⟩ := hstake
  have hkept := h line hline hlogin
  rw [reap_cleared] at hkept
  have hstay := OutboundFile.stays_of_mem hs hopens hunlinks hcomplete.delivered hcomplete.linewise hkept
  exact (stays_iff_timesListed hlogin).1 hstay.2

/-- the mathom files of a user stay exactly when none can be unlinked, or he is not listed -/
theorem mathom_kept_iff {us users : List Udat} (hs : SortsTo us users) (names : List Str) (mo : Mathom) (login : Str) :
    (∀ d_name ∈ mo.entries, mathomLogin d_name = some login →
        d_name ∉ delete_mathom (names.foldl clearHome users) mo) ↔
      ((∃ d_name ∈ mo.entries, mathomLogin d_name = some login ∧ mo.unlinks d_name) →
        timesListed us login = 0) := by
  have hlisted : ¬(in_user_list (names.foldl clearHome users) login).isSome ↔ timesListed us login = 0 := by
    rw [in_user_list_cleared, ← timesListed_pos_iff hs]
    omega
  unfold delete_mathom
  refine ⟨?_, ?_⟩
  · intro h hfile
    obtain ⟨d_name, hentry, hlogin, hunlinks⟩ := hfile
    refine hlisted.1 fun hfound => h d_name hentry hlogin (List.mem_filter.2 ⟨hentry, ?_⟩)
    rw [hlogin]
    simp [hfound, hunlinks]
  · intro h d_name hentry hlogin hremoved
    have hcond := (List.mem_filter.1 hremoved).2
    rw [hlogin] at hcond
    simp only [decide_eq_true_eq] at hcond
    exact hlisted.2 (h ⟨d_name, hentry, hlogin, hcond.2⟩) hcond.1

section Spares

variable {reqs : List Request} {users : List Udat} {passwd : Str} {o : Option Outbound} {m : Option Mathom}

theorem spares_scan :
    Spares users passwd o m ↔ ∃ seen ∈ lookedUp (some []) (splitLines passwd), ∀ login ∈ passwdLogins passwd,
      Spared o m ⟨deleteFiles (seen.foldl clearHome users), o.map fun ob => ob.reap (seen.foldl clearHome users),
        m.map (delete_mathom (seen.foldl clearHome users))⟩ login := by
  unfold Spares zap check_deleted
  rw [(scanPasswd_eq passwd).1 [] (Nat.zero_le _)]
  cases lookedUp (some []) (splitLines passwd) with
  | none => simp
  | some seen => simp

theorem Spared.safe (hs : SortsTo (reqs.map Request.entry) users) {seen : List Str} {login : Str}
    (h : Spared o m ⟨deleteFiles (seen.foldl clearHome users), o.map fun ob => ob.reap (seen.foldl clearHome users),
      m.map (delete_mathom (seen.foldl clearHome users))⟩ login) : Safe (reqs.map Request.entry) seen o m login where
  files := (not_deleted_iff hs seen login).1 h.files
  linked := fun ob hob hstake => linked_of_kept seen hstake (h.outbound ob hob _ (Option.mem_map_of_mem _ hob))
  mathom := fun mo hmo => (mathom_kept_iff hs seen mo login).1 (h.mathom mo hmo _ (Option.mem_map_of_mem _ hmo))

theorem Safe.spared (hs : SortsTo (reqs.map Request.entry) users) {seen : List Str} {login : Str}
    (h : Safe (reqs.map Request.entry) seen o m login) (hlines : Unharmed (reqs.map Request.entry) users o login) :
    Spared o m ⟨deleteFiles (seen.foldl clearHome users), o.map fun ob => ob.reap (seen.foldl clearHome users),
      m.map (delete_mathom (seen.foldl clearHome users))⟩ login where
  files := (not_deleted_iff hs seen login).2 h.files
  outbound := by
    intro ob hob file hfile line hline hlogin
    rw [Option.mem_def.1 hob] at hfile
    cases hfile
    exact outbound_kept hs seen (h.linked ob hob) (hlines ob hob) hline hlogin
  mathom := by
    intro mo hmo removed hremoved
    rw [Option.mem_def.1 hmo] at hremoved
    cases hremoved
    exact (mathom_kept_iff hs seen mo login).2 (h.mathom mo hmo)

end Spares

def bob : Str := ['b', 'o', 'b']

def root : Str := ['r', 'o', 'o', 't']

def zapBob : Request := ⟨bob, some (1001, ['/', 'a', '/'] ++ bob, ['/', 'm', '/'] ++ bob)⟩

def bothMay : Outbound := ⟨⟨true, fun _ => true, true, true⟩, unlines [bob ++ ['@', 'c'], root ++ ['@', 'c']]⟩

/-- bob is asked for twice, and his home directory goes although he is still there -/
example : (zap [zapBob.entry, zapBob.entry] (unlines [bob ++ [':']]) none none).map Zapped.deleted = some [bob] := by
  decide

/-- the same after a blank line in the passwd file -/
example : (zap [zapBob.entry] (unlines [[], bob ++ [':']]) none none).map Zapped.deleted = some [bob] := by decide

end MNetSoft.Zapuser
