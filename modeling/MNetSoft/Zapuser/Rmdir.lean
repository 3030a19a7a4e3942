/-
`delete_directory` of `zapuser`: a directory tree is deleted in one loop, with a stack of the directories entered. In
each turn the current directory is opened and read; what is not a directory is unlinked, and the first directory found
is entered, and the next turn begins there; a directory that has been read to its end is left and removed, and the next
turn begins anew in the one above it.

`full` is a directory by its path, `sub` one in the current directory. `order` is what `readdir` delivers, whatever the
directory holds: the hypothesis is that it leaves out nothing. A call succeeds if what it is called for is there:
`unlink` for what is not a directory, `chdir` for a directory, `rmdir` for an empty one.

- `Inv`: the stack spells the current directory, which is there; what is outside of the tree is as it was.
- `scan_spec`: what reading a directory does. `turn_spec`: a turn goes on with less to do, or ends in the empty stack.
- `delete_directory_correct`: the loop ends with 0 and the tree is gone, and nothing else is changed at any time.
-/
import Mathlib.Tactic
import Mathlib.Data.Finset.Sort
import MNetSoft.Core.CString
import MNetSoft.Core.FileTree

namespace MNetSoft.Zapuser.Rmdir

open MNetSoft.CString MNetSoft.FileTree MNetSoft.FileTree.FileSys

/-! ## Model -/

abbrev Path := List Str

/-- the name of a directory: an absolute path, or an entry of the current directory -/
inductive Dir
  | full (path : Path)
  | sub (d_name : Str)
deriving DecidableEq, Repr

def Dir.resolve : Dir → Path → Path
  | full path, _ => path
  | sub d_name, cwd => cwd ++ [d_name]

/-- the file system, the current directory, the stack of directory names from its top, and how many directories have
been opened -/
structure State where
  fs : FileSys Str
  cwd : Path
  dirstack : List Dir
  opened : ℕ

def dot : Str := ['.']

def dotdot : Str := ['.', '.']

/-- push a directory name onto the stack and cd into it; an error if the chdir fails -/
def ds_push (dir : Dir) (s : State) : Except State State :=
  let p := dir.resolve s.cwd
  -- give ourselves read, write and execute access to the directory
  let s := { s with dirstack := dir :: s.dirstack, fs := s.fs.chmod p 0o700 }
  if s.fs.IsDir p then .ok { s with cwd := p } else .error s

def unlink (p : Path) (s : State) : Except State State :=
  if p ∈ s.fs.objects ∧ ¬s.fs.IsDir p then .ok { s with fs := s.fs.remove p } else .error s

def rmdir (p : Path) (s : State) : Except State State :=
  if s.fs.IsDir p ∧ s.fs.entries p = ∅ then .ok { s with fs := s.fs.remove p } else .error s

/-- how reading a directory ends -/
inductive Scan
  | fail (s : State)
  | newdir (s : State)
  | ended (s : State)

/-- the loop over the entries of the current directory -/
def scan : List Str → State → Scan
  | [], s => .ended s
  | d_name :: rest, s =>
    if d_name = dot ∨ d_name = dotdot then scan rest s
    else
      match s.fs.stat (s.cwd ++ [d_name]) with
      -- vanished
      | none => scan rest s
      | some st =>
        if st.isDir then
          match ds_push (.sub d_name) s with
          | .error s => .fail s
          | .ok s => .newdir s
        else
          match unlink (s.cwd ++ [d_name]) s with
          | .error s => .fail s
          | .ok s => scan rest s

/-- how a turn of the outer loop ends -/
inductive Turn
  | fail (s : State)
  | more (s : State)
  | done (s : State)

/-- cd out of the directory, take it off the stack and delete it -/
def leave (s : State) : Turn :=
  if ¬s.fs.IsDir s.cwd.dropLast then .fail s
  else
    let s := { s with cwd := s.cwd.dropLast }
    match s.dirstack with
    | [] => .fail s
    | sd :: dirstack =>
      match rmdir (sd.resolve s.cwd) { s with dirstack := dirstack } with
      | .error s => .fail s
      -- check if it was root dir
      | .ok s => if dirstack = [] then .done s else .more s

/-- one turn of the outer loop -/
def turn (order : ℕ → Finset Str → List Str) (uid : ℕ) (s : State) : Turn :=
  if ¬s.fs.IsDir s.cwd then .fail s
  else if (s.fs.node s.cwd).owner ≠ uid then .fail s
  else
    match scan (order s.opened ({dot, dotdot} ∪ s.fs.entries s.cwd)) { s with opened := s.opened + 1 } with
    | .fail s => .fail s
    | .newdir s => .more s
    | .ended s => leave s

/-- the value returned, if it has returned, and the state -/
structure Run where
  code : Option ℕ
  state : State

/-- the outer loop, for some turns -/
def loop (order : ℕ → Finset Str → List Str) (uid : ℕ) : ℕ → State → Run
  | 0, s => ⟨none, s⟩
  | fuel + 1, s =>
    match turn order uid s with
    | .fail s => ⟨some 1, s⟩
    | .done s => ⟨some 0, s⟩
    | .more s => loop order uid fuel s

/-- `delete_directory`, for some turns of its loop -/
def delete_directory (order : ℕ → Finset Str → List Str) (uid : ℕ) (dir : Dir) (fuel : ℕ) (s : State) : Run :=
  match ds_push dir { s with dirstack := [] } with
  | .error s => ⟨some 1, s⟩
  | .ok s => loop order uid fuel s

/-! ## The invariant -/

/-- the stack spells the path of the current directory, from the root of the tree down -/
inductive Spells (dir : Dir) (root : Path) : List Dir → Path → Prop
  | root : Spells dir root [dir] root
  | sub {dirstack : List Dir} {p : Path} (d_name : Str) :
      Spells dir root dirstack p → Spells dir root (.sub d_name :: dirstack) (p ++ [d_name])

/-- what holds at each turn, `t` being the file system at the beginning -/
structure Inv (t : FileSys Str) (dir : Dir) (root : Path) (s : State) : Prop where
  wf : s.fs.WellFormed
  within : Within root t s.fs
  cwd : s.fs.IsDir s.cwd
  stack : Spells dir root s.dirstack s.cwd

/-- the tree is gone, and the stack is empty -/
structure Gone (t : FileSys Str) (root : Path) (s : State) : Prop where
  within : Within root t s.fs
  removed : ∀ p, root <+: p → p ∉ s.fs.objects
  stack : s.dirstack = []

/-- how much is left to do: the objects that are there, and those below the current directory -/
def left (s : State) : ℕ ×ₗ ℕ := toLex (s.fs.objects.card, (s.fs.below s.cwd).card)

theorem Spells.prefix {dir : Dir} {root : Path} {dirstack : List Dir} {p : Path} (h : Spells dir root dirstack p) :
    root <+: p := by
  induction h with
  | root => exact List.prefix_rfl
  | sub n _ ih => exact ih.trans (List.prefix_append _ _)

theorem Spells.top {dir : Dir} {root : Path} {dirstack : List Dir} {p : Path} (h : Spells dir root dirstack p) :
    (dirstack = [dir] ∧ p = root) ∨ ∃ n dirstack' p', dirstack = .sub n :: dirstack' ∧ p = p' ++ [n] ∧
      Spells dir root dirstack' p' := by
  cases h with
  | root => exact Or.inl ⟨rfl, rfl⟩
  | sub n h => exact Or.inr ⟨n, _, _, rfl, rfl, h⟩

theorem Spells.ne_nil {dir : Dir} {root : Path} {dirstack : List Dir} {p : Path} (h : Spells dir root dirstack p) :
    dirstack ≠ [] := by
  cases h with
  | root => exact List.cons_ne_nil _ _
  | sub n _ => exact List.cons_ne_nil _ _

theorem resolve_above (dir : Dir) (cwd : Path) : dir.resolve (dir.resolve cwd).dropLast = dir.resolve cwd := by
  cases dir with
  | full path => rfl
  | sub d_name => simp [Dir.resolve]

/-! ## One directory -/

variable {t : FileSys Str} {dir : Dir} {root : Path} {s s' : State}

theorem ds_push_sub (hs : Inv t dir root s) {d_name : Str} (hd : s.fs.IsDir (s.cwd ++ [d_name])) :
    ∃ s', ds_push (.sub d_name) s = .ok s' ∧ Inv t dir root s' ∧ s'.fs.objects = s.fs.objects ∧
      s'.cwd = s.cwd ++ [d_name] := by
  have hroot : root <+: s.cwd ++ [d_name] := hs.stack.prefix.trans (List.prefix_append _ _)
  have hdir : (s.fs.chmod (s.cwd ++ [d_name]) 0o700).IsDir (s.cwd ++ [d_name]) :=
    ⟨hd.1, by rw [isDir_chmod]; exact hd.2⟩
  refine ⟨_, if_pos hdir, ?_, rfl, rfl⟩
  exact ⟨hs.wf.chmod _ _, hs.within.trans (Within.chmod hroot _), hdir, Spells.sub d_name hs.stack⟩

theorem unlink_entry (hs : Inv t dir root s) {d_name : Str} (hmem : s.cwd ++ [d_name] ∈ s.fs.objects)
    (hd : ¬s.fs.IsDir (s.cwd ++ [d_name])) : unlink (s.cwd ++ [d_name]) s =
      .ok { s with fs := s.fs.remove (s.cwd ++ [d_name]) } ∧
        Inv t dir root { s with fs := s.fs.remove (s.cwd ++ [d_name]) } := by
  have hroot : root <+: s.cwd ++ [d_name] := hs.stack.prefix.trans (List.prefix_append _ _)
  refine ⟨if_pos ⟨hmem, hd⟩, hs.wf.remove (hs.wf.not_mem hd), hs.within.trans (Within.remove hroot), ?_, hs.stack⟩
  exact ⟨mem_remove.2 ⟨by simp, hs.cwd.1⟩, hs.cwd.2⟩

/-- what reading a directory does: it ends in a directory entered, or with all entries that were delivered gone -/
inductive Scanned (t : FileSys Str) (dir : Dir) (root : Path) (s : State) (names : List Str) : Scan → Prop
  | newdir {s' : State} {d_name : Str} : Inv t dir root s' → s'.fs.objects ⊆ s.fs.objects →
      s'.cwd = s.cwd ++ [d_name] → Scanned t dir root s names (.newdir s')
  | ended {s' : State} : Inv t dir root s' → s'.fs.objects ⊆ s.fs.objects → s'.cwd = s.cwd →
      (∀ n ∈ names, n ≠ dot → n ≠ dotdot → s.cwd ++ [n] ∉ s'.fs.objects) → Scanned t dir root s names (.ended s')

theorem Scanned.cons {r : Scan} {names : List Str} {d_name : Str} (h : Scanned t dir root s' names r)
    (hobjects : s'.fs.objects ⊆ s.fs.objects) (hcwd : s'.cwd = s.cwd)
    (hgone : d_name ≠ dot → d_name ≠ dotdot → s.cwd ++ [d_name] ∉ s'.fs.objects) :
    Scanned t dir root s (d_name :: names) r := by
  cases h with
  | newdir hinv hsub hcwd' => exact Scanned.newdir hinv (hsub.trans hobjects) (hcwd'.trans (by rw [hcwd]))
  | ended hinv hsub hcwd' hrest =>
    refine Scanned.ended hinv (hsub.trans hobjects) (hcwd'.trans hcwd) ?_
    intro n hn hdot hdotdot hmem
    rcases List.mem_cons.1 hn with rfl | hn
    · exact hgone hdot hdotdot (hsub hmem)
    · rw [← hcwd] at hmem
      exact hrest n hn hdot hdotdot hmem

/-- **Reading a directory** -/
theorem scan_spec (hs : Inv t dir root s) (names : List Str) : Scanned t dir root s names (scan names s) := by
  induction names generalizing s with
  | nil => exact Scanned.ended hs (Finset.Subset.refl _) rfl fun n hn => absurd hn List.not_mem_nil
  | cons d_name names ih =>
    rw [scan]
    by_cases hdots : d_name = dot ∨ d_name = dotdot
    · rw [if_pos hdots]
      refine (ih hs).cons (Finset.Subset.refl _) rfl fun hdot hdotdot => ?_
      exact absurd hdots (not_or.2 ⟨hdot, hdotdot⟩)
    · rw [if_neg hdots]
      cases hstat : s.fs.stat (s.cwd ++ [d_name]) with
      | none => exact (ih hs).cons (Finset.Subset.refl _) rfl fun _ _ => stat_eq_none.1 hstat
      | some st =>
        obtain ⟨hmem, hnode⟩ := stat_eq_some.1 hstat
        by_cases hdir : st.isDir = true
        · obtain ⟨s', hpush, hinv, hobjects, hcwd⟩ := ds_push_sub hs ⟨hmem, by rw [hnode]; exact hdir⟩
          simp only [if_pos hdir, hpush]
          exact Scanned.newdir hinv hobjects.subset hcwd
        · obtain ⟨hunlink, hinv⟩ := unlink_entry hs hmem fun h => hdir (by rw [← hnode]; exact h.2)
          simp only [if_neg hdir, hunlink]
          refine (ih hinv).cons (Finset.erase_subset _ _) rfl fun _ _ hgone => ?_
          exact (mem_remove.1 hgone).1 rfl

/-! ## One turn -/

/-- what a turn does: it goes on with less to do, or the tree is gone -/
inductive Turned (t : FileSys Str) (dir : Dir) (root : Path) (s : State) : Turn → Prop
  | more {s' : State} : Inv t dir root s' → left s' < left s → Turned t dir root s (.more s')
  | done {s' : State} : Gone t root s' → Turned t dir root s (.done s')

theorem isDir_above (hs : Inv t dir root s) : s.fs.IsDir s.cwd.dropLast := by
  rcases List.eq_nil_or_concat' s.cwd with hnil | hconcat
  · have hcwd := hs.cwd
    rw [hnil] at hcwd ⊢
    exact hcwd
  · obtain ⟨p, n, hp⟩ := hconcat
    rw [hp, List.dropLast_concat]
    refine hs.wf.parent p n ?_
    rw [← hp]
    exact hs.cwd.1

/-- the state behind a directory that is left -/
def State.behind (s : State) (dirstack : List Dir) : State :=
  { s with cwd := s.cwd.dropLast, dirstack := dirstack, fs := s.fs.remove s.cwd }

/-- a directory with nothing in it is removed, by the name on top of the stack -/
theorem leave_eq (hs : Inv t dir root s) (hempty : ∀ n, s.cwd ++ [n] ∉ s.fs.objects) {sd : Dir} {dirstack : List Dir}
    (hds : s.dirstack = sd :: dirstack) (hsd : sd.resolve s.cwd.dropLast = s.cwd) :
    leave s = if dirstack = [] then .done (s.behind dirstack) else .more (s.behind dirstack) := by
  have hentries : s.fs.entries s.cwd = ∅ := by
    refine Finset.eq_empty_of_forall_notMem fun n hn => ?_
    exact hempty n (mem_entries.1 hn)
  rw [leave, if_neg (not_not.2 (isDir_above hs))]
  simp only [hds, hsd, rmdir, if_pos (And.intro hs.cwd hentries)]
  rfl

theorem leave_spec (hdir : dir.resolve root.dropLast = root) (hs : Inv t dir root s)
    (hempty : ∀ n, s.cwd ++ [n] ∉ s.fs.objects) : Turned t dir root s (leave s) := by
  have hremoved : Within root t (s.behind []).fs := hs.within.trans (Within.remove hs.stack.prefix)
  rcases hs.stack.top with ⟨hds, hcwd⟩ | ⟨n, dirstack, p, hds, hcwd, hstack⟩
  · rw [leave_eq hs hempty hds (by rw [hcwd, hdir]), if_pos rfl]
    refine Turned.done ⟨hremoved, ?_, rfl⟩
    intro q hq hmem
    obtain ⟨r, rfl⟩ := hq
    obtain ⟨hne, hmem⟩ := mem_remove.1 hmem
    rw [hcwd] at hempty hne
    exact hne (by rw [hs.wf.eq_nil_of_no_entries hempty hmem, List.append_nil])
  · have hsd : (Dir.sub n).resolve s.cwd.dropLast = s.cwd := by rw [hcwd, List.dropLast_concat]; rfl
    rw [leave_eq hs hempty hds hsd, if_neg hstack.ne_nil]
    refine Turned.more ⟨hs.wf.remove hempty, hremoved, ?_, ?_⟩ (Prod.Lex.left _ _ (card_remove_lt hs.cwd.1))
    · refine ⟨mem_remove.2 ⟨?_, (isDir_above hs).1⟩, (isDir_above hs).2⟩
      rw [State.behind, hcwd, List.dropLast_concat]
      simp
    · have hbehind : (s.behind dirstack).cwd = p := by rw [State.behind, hcwd, List.dropLast_concat]
      rw [hbehind]
      exact hstack

/-- **One turn** -/
theorem turn_spec {order : ℕ → Finset Str → List Str} {uid : ℕ} (horder : ∀ k names, ∀ n ∈ names, n ∈ order k names)
    (hnames : ∀ p n, p ++ [n] ∈ t.objects → n ≠ dot ∧ n ≠ dotdot)
    (howner : ∀ p, root <+: p → t.IsDir p → (t.node p).owner = uid) (hdir : dir.resolve root.dropLast = root)
    (hs : Inv t dir root s) : Turned t dir root s (turn order uid s) := by
  have hown : (s.fs.node s.cwd).owner = uid := by
    rw [hs.within.owner]
    refine howner _ hs.stack.prefix ⟨hs.within.objects hs.cwd.1, ?_⟩
    rw [← hs.within.isDir]
    exact hs.cwd.2
  rw [turn, if_neg (not_not.2 hs.cwd), if_neg (not_not.2 hown)]
  have hopened : Inv t dir root { s with opened := s.opened + 1 } := ⟨hs.wf, hs.within, hs.cwd, hs.stack⟩
  have hscan := scan_spec hopened (order s.opened ({dot, dotdot} ∪ s.fs.entries s.cwd))
  cases hr : scan (order s.opened ({dot, dotdot} ∪ s.fs.entries s.cwd)) { s with opened := s.opened + 1 } with
  | fail s' =>
    rw [hr] at hscan
    cases hscan
  | newdir s' =>
    rw [hr] at hscan
    cases hscan with
    | @newdir _ d_name hinv hsub hcwd =>
      refine Turned.more hinv ?_
      -- less below the directory entered, and not more in all
      have hbelow : s'.fs.below s'.cwd ⊂ s.fs.below s.cwd := by
        have hmem : s.cwd ++ [d_name] ∈ s'.fs.objects := hcwd ▸ hinv.cwd.1
        rw [hcwd]
        exact (below_ssubset hmem).trans_subset (below_subset hsub s.cwd)
      rcases (Finset.card_le_card hsub).lt_or_eq with hlt | heq
      · exact Prod.Lex.left _ _ hlt
      · rw [left, left, heq]
        exact Prod.Lex.right _ (Finset.card_lt_card hbelow)
  | ended s' =>
    rw [hr] at hscan
    cases hscan with
    | ended hinv hsub hcwd hgone =>
      have hempty : ∀ n, s'.cwd ++ [n] ∉ s'.fs.objects := by
        intro n hmem
        obtain ⟨hdot, hdotdot⟩ := hnames s'.cwd n (hinv.within.objects hmem)
        rw [hcwd] at hmem
        have hentry : n ∈ order s.opened ({dot, dotdot} ∪ s.fs.entries s.cwd) :=
          horder _ _ n (Finset.mem_union_right _ (mem_entries.2 (hsub hmem)))
        exact hgone n hentry hdot hdotdot hmem
      have hless : left s' ≤ left s := by
        have hbelow : s'.fs.below s'.cwd ⊆ s.fs.below s.cwd := by
          rw [hcwd]
          exact below_subset hsub s.cwd
        exact Prod.Lex.toLex_mono ⟨Finset.card_le_card hsub, Finset.card_le_card hbelow⟩
      have hleave := leave_spec hdir hinv hempty
      dsimp only
      cases hr' : leave s' with
      | fail s'' =>
        rw [hr'] at hleave
        cases hleave
      | done s'' =>
        rw [hr'] at hleave
        cases hleave with
        | done h => exact Turned.done h
      | more s'' =>
        rw [hr'] at hleave
        cases hleave with
        | more h hlt => exact Turned.more h (hlt.trans_le hless)

/-! ## The loop -/

variable {order : ℕ → Finset Str → List Str} {uid : ℕ}

/-- what a turn can do at all, along the loop: nothing outside of the tree changes -/
theorem loop_within (hturn : ∀ s, Inv t dir root s → Turned t dir root s (turn order uid s)) (fuel : ℕ)
    (hs : Inv t dir root s) : Within root t (loop order uid fuel s).state.fs := by
  induction fuel generalizing s with
  | zero => exact hs.within
  | succ fuel ih =>
    have hspec := hturn s hs
    rw [loop]
    cases hr : turn order uid s with
    | fail s' =>
      rw [hr] at hspec
      cases hspec
    | done s' =>
      rw [hr] at hspec
      cases hspec with
      | done hgone => exact hgone.within
    | more s' =>
      rw [hr] at hspec
      cases hspec with
      | more hinv _ => exact ih hinv

/-- **The loop ends**: each turn leaves less to do. -/
theorem loop_ends (hturn : ∀ s, Inv t dir root s → Turned t dir root s (turn order uid s)) (hs : Inv t dir root s) :
    ∃ n, ∀ fuel ≥ n, (loop order uid fuel s).code = some 0 ∧ Gone t root (loop order uid fuel s).state := by
  induction h : left s using WellFoundedLT.induction generalizing s with
  | ind _ ih =>
    subst h
    have hspec := hturn s hs
    cases hr : turn order uid s with
    | fail s' =>
      rw [hr] at hspec
      cases hspec
    | done s' =>
      rw [hr] at hspec
      cases hspec with
      | done hgone =>
        refine ⟨1, fun fuel hfuel => ?_⟩
        obtain ⟨fuel, rfl⟩ := Nat.exists_eq_add_one.2 hfuel
        rw [loop, hr]
        exact ⟨rfl, hgone⟩
    | more s' =>
      rw [hr] at hspec
      cases hspec with
      | more hinv hlt =>
        obtain ⟨n, hn⟩ := ih _ hlt hinv rfl
        refine ⟨n + 1, fun fuel hfuel => ?_⟩
        obtain ⟨fuel, rfl⟩ := Nat.exists_eq_add_one.2 (Nat.zero_lt_of_lt hfuel)
        rw [loop, hr]
        exact hn fuel (Nat.le_of_succ_le_succ hfuel)

/-- **A directory tree is deleted.** For every finite file system, every directory in it, given by its path or as an
entry of the current directory, every order in which `readdir` delivers entries, and with all directories of the tree
owned by `uid`: however many turns have been made, nothing outside of the tree has changed; and after finitely many
turns `delete_directory` returns 0, with nothing left at or below the directory and the stack empty. -/
theorem delete_directory_correct (order : ℕ → Finset Str → List Str)
    (horder : ∀ k names, ∀ n ∈ names, n ∈ order k names) (uid : ℕ) (dir : Dir) (s : State)
    (hwf : s.fs.WellFormed) (hnames : ∀ p n, p ++ [n] ∈ s.fs.objects → n ≠ dot ∧ n ≠ dotdot)
    (hdir : s.fs.IsDir (dir.resolve s.cwd))
    (howner : ∀ p, dir.resolve s.cwd <+: p → s.fs.IsDir p → (s.fs.node p).owner = uid) :
    (∀ fuel p, ¬dir.resolve s.cwd <+: p → (delete_directory order uid dir fuel s).state.fs.stat p = s.fs.stat p) ∧
      ∃ n, ∀ fuel ≥ n, (delete_directory order uid dir fuel s).code = some 0 ∧
        (∀ p, dir.resolve s.cwd <+: p → p ∉ (delete_directory order uid dir fuel s).state.fs.objects) ∧
        (delete_directory order uid dir fuel s).state.dirstack = [] := by
  have hentered : (s.fs.chmod (dir.resolve s.cwd) 0o700).IsDir (dir.resolve s.cwd) :=
    ⟨hdir.1, by rw [isDir_chmod]; exact hdir.2⟩
  -- the state in which the loop begins
  obtain ⟨s₁, hpush, hinv⟩ : ∃ s₁, ds_push dir { s with dirstack := [] } = .ok s₁ ∧
      Inv s.fs dir (dir.resolve s.cwd) s₁ :=
    ⟨_, if_pos hentered, hwf.chmod _ _, Within.chmod List.prefix_rfl _, hentered, Spells.root⟩
  have hturn : ∀ s', Inv s.fs dir (dir.resolve s.cwd) s' →
      Turned s.fs dir (dir.resolve s.cwd) s' (turn order uid s') :=
    fun s' hs' => turn_spec horder hnames howner (resolve_above dir s.cwd) hs'
  have hloop : ∀ fuel, delete_directory order uid dir fuel s = loop order uid fuel s₁ := by
    intro fuel
    rw [delete_directory, hpush]
  refine ⟨fun fuel p hp => ?_, ?_⟩
  · rw [hloop]
    exact (loop_within hturn fuel hinv).outside p hp
  · obtain ⟨n, hn⟩ := loop_ends hturn hinv
    refine ⟨n, fun fuel hfuel => ?_⟩
    obtain ⟨hcode, hgone⟩ := hn fuel hfuel
    rw [hloop]
    exact ⟨hcode, hgone.removed, hgone.stack⟩

/-- a home directory with a file, and with a directory that has a file in it -/
def smallTree : FileSys Str where
  objects := {[], [['h']], [['h'], ['a']], [['h'], ['d']], [['h'], ['d'], ['b']], [['x']]}
  node := fun p => ⟨p ∈ [[], [['h']], [['h'], ['d']]], 0o755, 7⟩

/-- entries in the order of `strcmp` -/
def inOrder (_ : ℕ) (names : Finset Str) : List Str := names.sort (· ≤ ·)

/-- the home directory of user 7 is deleted -/
theorem small_tree_deleted : ∃ n, ∀ fuel ≥ n,
    (delete_directory inOrder 7 (.full [['h']]) fuel ⟨smallTree, [], [], 0⟩).code = some 0 := by
  have hall : ∀ q ∈ smallTree.objects, q ≠ [] →
      smallTree.IsDir q.dropLast ∧ q.getLast? ≠ some dot ∧ q.getLast? ≠ some dotdot := by decide
  have hwf : smallTree.WellFormed := by
    refine ⟨fun p n hmem => ?_⟩
    have hparent := (hall _ hmem (by simp)).1
    rwa [List.dropLast_concat] at hparent
  have hnames : ∀ p n, p ++ [n] ∈ smallTree.objects → n ≠ dot ∧ n ≠ dotdot := by
    intro p n hmem
    obtain ⟨-, hdot, hdotdot⟩ := hall _ hmem (by simp)
    rw [List.getLast?_concat] at hdot hdotdot
    exact ⟨fun h => hdot (congrArg some h), fun h => hdotdot (congrArg some h)⟩
  have horder : ∀ k names, ∀ n ∈ names, n ∈ inOrder k names := fun k names n hn => (Finset.mem_sort _).2 hn
  obtain ⟨n, hn⟩ := (delete_directory_correct inOrder horder 7 (.full [['h']]) ⟨smallTree, [], [], 0⟩ hwf hnames
    (by decide) fun _ _ _ => rfl).2
  exact ⟨n, fun fuel hfuel => (hn fuel hfuel).1⟩

end MNetSoft.Zapuser.Rmdir
