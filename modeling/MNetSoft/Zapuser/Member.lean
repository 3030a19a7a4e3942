/-
The protected groups of `zapuser`: `find_members` looks up the gids and the members of the configured groups, and
`is_member` says whether a user is protected by them. The group database is the function `getgrnam`; a gid is a 32-bit
value, as `gid_t` and as an `int` of `gidlist`.

`gidlist` is allocated for all configured groups and filled in for those that exist. The place of a group that does not
exist keeps what was in the memory before (`mem`), and `is_member` compares it all the same.
- `find_members_eq`: what the two tables hold.
- `is_member_right_iff`: exactly when the answer for a user is right, and when all answers are.
- `ghost_group`: a stranger who is protected because of a group that does not exist.
-/
import Mathlib.Tactic
import MNetSoft.Core.CString

namespace MNetSoft.Zapuser

open MNetSoft.CString

/-! ## Model -/

/-- an entry of the group database -/
structure Group where
  gr_gid : UInt32
  gr_mem : List Str
deriving DecidableEq, Repr

/-- the gids of the protected groups, and their members -/
structure Members where
  gidlist : List UInt32
  memlist : List Str
deriving DecidableEq, Repr

/-- copy all the users in the given list to the list of members of protected groups -/
def save_users (memlist list : List Str) : List Str := memlist ++ list

/-- the loop of `find_members` from group `i` on -/
def findLoop (getgrnam : Str → Option Group) : ℕ → List Str → Members → Members
  | _, [], m => m
  | i, gname :: grouplist, m =>
    match getgrnam gname with
    -- not found: an error message
    | none => findLoop getgrnam (i + 1) grouplist m
    | some gr => findLoop getgrnam (i + 1) grouplist ⟨m.gidlist.set i gr.gr_gid, save_users m.memlist gr.gr_mem⟩

/-- save information about who is in protected groups; `mem` is what `malloc` finds in the memory -/
def find_members (getgrnam : Str → Option Group) (mem : ℕ → UInt32) (grouplist : List Str) : Members :=
  findLoop getgrnam 0 grouplist ⟨(List.range grouplist.length).map mem, []⟩

/-- is that person a member or a staffer? -/
def is_member (m : Members) (user : Str) (gid : UInt32) : ℕ :=
  if m.gidlist.any (gid = ·) then 1
  else if m.memlist.any fun mem => strcmp user mem = 0 then 1
  else 0

/-! ## Protection -/

/-- the gid of a configured group that exists, or the name of a member of one -/
def IsProtected (getgrnam : Str → Option Group) (grouplist : List Str) (user : Str) (gid : UInt32) : Prop :=
  ∃ gname ∈ grouplist, ∃ gr, getgrnam gname = some gr ∧ (gid = gr.gr_gid ∨ user ∈ gr.gr_mem)

/-- the gid is what happens to be in the place of a group that does not exist -/
def InGarbage (getgrnam : Str → Option Group) (mem : ℕ → UInt32) (grouplist : List Str) (gid : UInt32) : Prop :=
  ∃ i gname, grouplist[i]? = some gname ∧ getgrnam gname = none ∧ mem i = gid

/-- the answer is right -/
def Right (getgrnam : Str → Option Group) (mem : ℕ → UInt32) (grouplist : List Str) (user : Str) (gid : UInt32) :
    Prop :=
  is_member (find_members getgrnam mem grouplist) user gid = 1 ↔ IsProtected getgrnam grouplist user gid

/-! ## The tables -/

/-- what the place of a group holds -/
def slot (getgrnam : Str → Option Group) (gname : Str) (old : UInt32) : UInt32 :=
  ((getgrnam gname).map Group.gr_gid).getD old

/-- the members of a group -/
def membersOf (getgrnam : Str → Option Group) (gname : Str) : List Str := ((getgrnam gname).map Group.gr_mem).getD []

theorem findLoop_eq (getgrnam : Str → Option Group) (grouplist : List Str) (done left : List UInt32)
    (memlist : List Str) (hlen : left.length = grouplist.length) :
      findLoop getgrnam done.length grouplist ⟨done ++ left, memlist⟩ =
      ⟨done ++ List.zipWith (slot getgrnam) grouplist left, memlist ++ grouplist.flatMap (membersOf getgrnam)⟩ := by
  induction grouplist generalizing done left memlist with
  | nil =>
    obtain rfl : left = [] := List.length_eq_zero_iff.1 hlen
    rw [findLoop, List.zipWith_nil_left, List.flatMap_nil, List.append_nil memlist]
  | cons gname grouplist ih =>
    obtain ⟨old, left, rfl⟩ : ∃ old left', left = old :: left' := List.exists_cons_of_length_eq_add_one hlen
    have hleft : left.length = grouplist.length := Nat.succ.inj hlen
    rw [findLoop, List.zipWith_cons_cons, List.flatMap_cons]
    cases hgr : getgrnam gname with
    | none =>
      have hrest := ih (done ++ [old]) left memlist hleft
      rw [List.length_append, List.length_singleton, List.append_assoc, List.singleton_append] at hrest
      simp only [hrest, slot, membersOf, hgr, Option.map_none, Option.getD_none, List.append_assoc,
        List.singleton_append, List.nil_append]
    | some gr =>
      have hrest := ih (done ++ [gr.gr_gid]) left (memlist ++ gr.gr_mem) hleft
      rw [List.length_append, List.length_singleton, List.append_assoc, List.singleton_append] at hrest
      have hset : (done ++ old :: left).set done.length gr.gr_gid = done ++ gr.gr_gid :: left := by
        rw [List.set_append_right _ _ le_rfl, Nat.sub_self, List.set_cons_zero]
      simp only [save_users, hset, hrest, slot, membersOf, hgr, Option.map_some, Option.getD_some, List.append_assoc,
        List.singleton_append]

/-- **The tables**: a gid or garbage for each group, and the members of those that exist -/
theorem find_members_eq (getgrnam : Str → Option Group) (mem : ℕ → UInt32) (grouplist : List Str) :
    find_members getgrnam mem grouplist =
      ⟨List.zipWith (slot getgrnam) grouplist ((List.range grouplist.length).map mem),
        grouplist.flatMap (membersOf getgrnam)⟩ := by
  have hloop := findLoop_eq getgrnam grouplist [] ((List.range grouplist.length).map mem) [] (by simp)
  rwa [List.length_nil, List.nil_append, List.nil_append, List.nil_append] at hloop

theorem mem_gidlist_iff (getgrnam : Str → Option Group) (mem : ℕ → UInt32) (grouplist : List Str) (gid : UInt32) :
    gid ∈ (find_members getgrnam mem grouplist).gidlist ↔
      (∃ gname ∈ grouplist, ∃ gr, getgrnam gname = some gr ∧ gid = gr.gr_gid) ∨
        InGarbage getgrnam mem grouplist gid := by
  rw [find_members_eq, List.mem_iff_getElem?]
  have hget : ∀ i, (List.zipWith (slot getgrnam) grouplist ((List.range grouplist.length).map mem))[i]? =
      grouplist[i]?.map fun gname => slot getgrnam gname (mem i) := by
    intro i
    rw [List.getElem?_zipWith, List.getElem?_map]
    cases hi : grouplist[i]? with
    | none => rfl
    | some gname => rw [List.getElem?_range (List.getElem?_eq_some_iff.1 hi).1]; rfl
  simp only [hget, Option.map_eq_some_iff]
  refine ⟨?_, ?_⟩
  · intro h
    obtain ⟨i, gname, hi, hslot⟩ := h
    cases hgr : getgrnam gname with
    | none =>
      rw [slot, hgr] at hslot
      exact Or.inr ⟨i, gname, hi, hgr, hslot⟩
    | some gr =>
      rw [slot, hgr] at hslot
      exact Or.inl ⟨gname, List.mem_of_getElem? hi, gr, hgr, hslot.symm⟩
  · intro h
    rcases h with h | h
    · obtain ⟨gname, hmem, gr, hgr, hgid⟩ := h
      obtain ⟨i, hi⟩ := List.mem_iff_getElem?.1 hmem
      exact ⟨i, gname, hi, by rw [slot, hgr, hgid]; rfl⟩
    · obtain ⟨i, gname, hi, hgr, hgid⟩ := h
      exact ⟨i, gname, hi, by rw [slot, hgr]; exact hgid⟩

theorem mem_memlist_iff (getgrnam : Str → Option Group) (mem : ℕ → UInt32) (grouplist : List Str) (user : Str) :
    user ∈ (find_members getgrnam mem grouplist).memlist ↔
      ∃ gname ∈ grouplist, ∃ gr, getgrnam gname = some gr ∧ user ∈ gr.gr_mem := by
  rw [find_members_eq, List.mem_flatMap]
  refine exists_congr fun gname => and_congr_right fun _ => ?_
  rw [membersOf]
  cases getgrnam gname with
  | none => simp
  | some gr => simp

theorem is_member_eq_one (m : Members) (user : Str) (gid : UInt32) :
    is_member m user gid = 1 ↔ gid ∈ m.gidlist ∨ user ∈ m.memlist := by
  have hgid : (m.gidlist.any (gid = ·)) = true ↔ gid ∈ m.gidlist := by simp
  have hmem : (m.memlist.any fun mem => strcmp user mem = 0) = true ↔ user ∈ m.memlist := by simp [strcmp_zero]
  rw [is_member, ← hgid, ← hmem]
  split_ifs with h1 h2
  · simp [h1]
  · simp [h2]
  · simp [h1, h2]

theorem is_member_iff (getgrnam : Str → Option Group) (mem : ℕ → UInt32) (grouplist : List Str) (user : Str)
    (gid : UInt32) : is_member (find_members getgrnam mem grouplist) user gid = 1 ↔
      IsProtected getgrnam grouplist user gid ∨ InGarbage getgrnam mem grouplist gid := by
  rw [is_member_eq_one, mem_gidlist_iff, mem_memlist_iff, or_right_comm]
  apply or_congr_left
  refine ⟨?_, ?_⟩
  · intro h
    rcases h with h | h
    · obtain ⟨gname, hmem, gr, hgr, hgid⟩ := h
      exact ⟨gname, hmem, gr, hgr, Or.inl hgid⟩
    · obtain ⟨gname, hmem, gr, hgr, huser⟩ := h
      exact ⟨gname, hmem, gr, hgr, Or.inr huser⟩
  · intro h
    obtain ⟨gname, hmem, gr, hgr, hgid | huser⟩ := h
    · exact Or.inl ⟨gname, hmem, gr, hgr, hgid⟩
    · exact Or.inr ⟨gname, hmem, gr, hgr, huser⟩

/-- **When the answer is right.** For every list of groups, every group database and every prior content of the memory:
the answer for a user and a gid is right exactly when the gid is not in the place of a missing group, or the user is
protected anyway; and all answers are right exactly when what is in those places are gids of groups that exist. -/
theorem is_member_right_iff (getgrnam : Str → Option Group) (mem : ℕ → UInt32) (grouplist : List Str) :
    (∀ user gid, Right getgrnam mem grouplist user gid ↔
        (InGarbage getgrnam mem grouplist gid → IsProtected getgrnam grouplist user gid)) ∧
      ((∀ user gid, Right getgrnam mem grouplist user gid) ↔ ∀ i gname, grouplist[i]? = some gname →
        getgrnam gname = none → ∃ g ∈ grouplist, ∃ gr, getgrnam g = some gr ∧ mem i = gr.gr_gid) := by
  have hright : ∀ user gid, Right getgrnam mem grouplist user gid ↔
      (InGarbage getgrnam mem grouplist gid → IsProtected getgrnam grouplist user gid) := by
    intro user gid
    rw [Right, is_member_iff, or_iff_left_iff_imp]
  refine ⟨hright, ?_⟩
  simp only [hright]
  refine ⟨?_, ?_⟩
  · intro h i gname hi hgr
    -- a user who is in no group at all
    obtain ⟨user, huser⟩ := Infinite.exists_notMem_finset (find_members getgrnam mem grouplist).memlist.toFinset
    rw [List.mem_toFinset, mem_memlist_iff] at huser
    obtain ⟨g, hg, gr, hfound, hgid | hmem⟩ := h user (mem i) ⟨i, gname, hi, hgr, rfl⟩
    · exact ⟨g, hg, gr, hfound, hgid⟩
    · exact absurd ⟨g, hg, gr, hfound, hmem⟩ huser
  · intro h user gid hgarbage
    obtain ⟨i, gname, hi, hgr, hgid⟩ := hgarbage
    obtain ⟨g, hg, gr, hfound, hmem⟩ := h i gname hi hgr
    exact ⟨g, hg, gr, hfound, Or.inl (hgid.symm.trans hmem)⟩

/-- staff is group 20, and there is no other -/
def onlyStaff : Str → Option Group := fun gname =>
  if gname = ['s', 't', 'a', 'f', 'f'] then some ⟨20, []⟩ else none

/-- **A group that does not exist.** A user is taken for a member because of what was in the memory. -/
theorem ghost_group :
    is_member (find_members onlyStaff (fun _ => 1000) [['s', 't', 'a', 'f', 'f'], ['x']]) ['j', 'o', 'e'] 1000 = 1 ∧
      ¬IsProtected onlyStaff [['s', 't', 'a', 'f', 'f'], ['x']] ['j', 'o', 'e'] 1000 ∧
      ¬Right onlyStaff (fun _ => 1000) [['s', 't', 'a', 'f', 'f'], ['x']] ['j', 'o', 'e'] 1000 := by
  have hone : is_member (find_members onlyStaff (fun _ => 1000) [['s', 't', 'a', 'f', 'f'], ['x']]) ['j', 'o', 'e']
      1000 = 1 := by decide
  have hnot : ¬IsProtected onlyStaff [['s', 't', 'a', 'f', 'f'], ['x']] ['j', 'o', 'e'] 1000 := by
    intro h
    obtain ⟨gname, -, gr, hgr, h⟩ := h
    rw [onlyStaff] at hgr
    split_ifs at hgr
    cases hgr
    revert h
    decide
  exact ⟨hone, hnot, fun h => hnot (h.1 hone)⟩

end MNetSoft.Zapuser
