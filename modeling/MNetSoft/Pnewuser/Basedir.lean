/-
The home directory that `nuseradd` is asked to create: `valid_basedir`, in `nuseradd.c` and its copy in
`nuseradd-openbsd.c`, resolves it with `realpath` and looks for a configured directory that the result begins with.
`realpath` stores the canonical path if it succeeds, and leaves some string in the buffer if it fails: the model's is a
function that answers with either. Neither copy looks at what it answers, and the second does not look at the character
behind the directory.

- `valid_basedir_eq_one`: what each copy accepts.
- `valid_basedir_contained_iff`: exactly when what is accepted is the canonical path of a place at or below a configured
  directory.
- `outside_accepted`: a directory that cannot be resolved, and a neighbour of a configured one.
-/
import Mathlib.Tactic
import MNetSoft.Core.CString

namespace MNetSoft.Pnewuser.Nuseradd

open MNetSoft.CString

/-! ## Model -/

/-- what `realpath` leaves in its buffer: the canonical path, or what it has got to when it fails -/
inductive Resolved
  | ok (path : Str)
  | failed (buffer : Str)
deriving DecidableEq, Repr

/-- the string in `realbase`, in both cases -/
def Resolved.realbase : Resolved → Str
  | ok path => path
  | failed buffer => buffer

/-- the loop over the configured directories -/
def anyDir (test : Str → Bool) : List Str → ℕ
  | [] => 0
  | dirp :: basedirs => if test dirp then 1 else anyDir test basedirs

/-- the test of `nuseradd.c`: the directory, and a '/' behind it -/
def testDir (realbase dirp : Str) : Bool :=
  strncmp realbase dirp dirp.length = 0 ∧ realbase.getD dirp.length '\x00' = '/'

/-- the test of `nuseradd-openbsd.c` -/
def testPrefix (realbase dirp : Str) : Bool := strncmp realbase dirp dirp.length = 0

/-- `valid_basedir` with the test of a copy; `userdev` is what `getlist` finds in the configuration -/
def validBasedir (test : Str → Str → Bool) (realpath : Str → Resolved) (userdev : Option (List Str)) (basedir : Str) :
    ℕ :=
  match userdev with
  | none => 0
  | some basedirs => anyDir (test (realpath basedir).realbase) basedirs

/-- `nuseradd.c` -/
def valid_basedir : (Str → Resolved) → Option (List Str) → Str → ℕ := validBasedir testDir

/-- `nuseradd-openbsd.c` -/
def valid_basedir_openbsd : (Str → Resolved) → Option (List Str) → Str → ℕ := validBasedir testPrefix

/-- an argument that is missing or empty, or that its check refuses, is an error of `checkargs` -/
def baditem (valid : Str → ℕ) (val : Option Str) : ℕ :=
  match val with
  | none => 1
  | some val => if val = [] then 1 else if valid val = 0 then 1 else 0

/-! ## Containment -/

/-- at or below a directory, at a '/' boundary -/
def Below (d p : Str) : Prop := p = d ∨ d ++ ['/'] <+: p ∨ (d <+: p ∧ d.getLast? = some '/')

instance (d p : Str) : Decidable (Below d p) :=
  inferInstanceAs (Decidable (p = d ∨ d ++ ['/'] <+: p ∨ (d <+: p ∧ d.getLast? = some '/')))

/-- `realpath` has succeeded, and the canonical path is at or below a configured directory -/
def Listed (realpath : Str → Resolved) (userdev : Option (List Str)) (basedir : Str) : Prop :=
  ∃ p, realpath basedir = .ok p ∧ ∃ basedirs ∈ userdev, ∃ d ∈ basedirs, Below d p

/-- a directory is accepted only if it is listed -/
def Contained (valid : (Str → Resolved) → Option (List Str) → Str → ℕ) (realpath : Str → Resolved)
    (userdev : Option (List Str)) (basedir : Str) : Prop :=
  valid realpath userdev basedir = 1 → Listed realpath userdev basedir

/-- the string in the buffer begins with a configured directory and a '/' -/
def BeginsDir (userdev : Option (List Str)) (s : Str) : Prop := ∃ basedirs ∈ userdev, ∃ d ∈ basedirs, d ++ ['/'] <+: s

/-- the string in the buffer begins with the characters of a configured directory -/
def Begins (userdev : Option (List Str)) (s : Str) : Prop := ∃ basedirs ∈ userdev, ∃ d ∈ basedirs, d <+: s

/-! ## What is accepted -/

theorem anyDir_eq_one (test : Str → Bool) (basedirs : List Str) :
    anyDir test basedirs = 1 ↔ ∃ d ∈ basedirs, test d = true := by
  induction basedirs with
  | nil => simp [anyDir]
  | cons d basedirs ih =>
    rw [anyDir]
    split_ifs with hd
    · exact iff_of_true rfl ⟨d, List.mem_cons_self, hd⟩
    · rw [ih]
      simp [hd]

theorem testPrefix_iff (s d : Str) : testPrefix s d = true ↔ d <+: s := by
  rw [testPrefix, decide_eq_true_eq, strncmp, List.take_length, strcmp_zero, List.prefix_iff_eq_take, eq_comm]

theorem testDir_iff (s d : Str) : testDir s d = true ↔ d ++ ['/'] <+: s := by
  have hprefix := testPrefix_iff s d
  rw [testPrefix, decide_eq_true_eq] at hprefix
  rw [testDir, decide_eq_true_eq, hprefix]
  refine ⟨?_, ?_⟩
  · intro h
    obtain ⟨⟨t, rfl⟩, hslash⟩ := h
    cases t with
    | nil => simp at hslash
    | cons c t =>
      obtain rfl : c = '/' := by simpa using hslash
      exact ⟨t, by simp⟩
  · intro h
    obtain ⟨t, rfl⟩ := h
    refine ⟨⟨'/' :: t, by simp⟩, ?_⟩
    simp

theorem validBasedir_le_one (test : Str → Str → Bool) (realpath : Str → Resolved) (userdev : Option (List Str))
    (basedir : Str) : validBasedir test realpath userdev basedir ≤ 1 := by
  have hany : ∀ (t : Str → Bool) (basedirs : List Str), anyDir t basedirs ≤ 1 := by
    intro t basedirs
    induction basedirs with
    | nil => exact Nat.zero_le 1
    | cons d basedirs ih =>
      rw [anyDir]
      split_ifs
      · exact le_rfl
      · exact ih
  cases userdev with
  | none => exact Nat.zero_le 1
  | some basedirs => exact hany _ basedirs

/-- **What each copy accepts**: by the string in the buffer alone -/
theorem valid_basedir_eq_one (realpath : Str → Resolved) (userdev : Option (List Str)) (basedir : Str) :
    (valid_basedir realpath userdev basedir = 1 ↔ BeginsDir userdev (realpath basedir).realbase) ∧
      (valid_basedir_openbsd realpath userdev basedir = 1 ↔ Begins userdev (realpath basedir).realbase) := by
  unfold valid_basedir valid_basedir_openbsd validBasedir BeginsDir Begins
  cases userdev with
  | none => simp
  | some basedirs => simp [anyDir_eq_one, testDir_iff, testPrefix_iff]

/-- **When what is accepted is contained.** For every argument, every configured list and every answer of `realpath`:
in `nuseradd.c` exactly when `realpath` succeeds, or what it leaves in the buffer does not begin with a configured
directory and a '/'; in the copy, exactly when it fails and leaves nothing that begins with a configured directory, or
it succeeds and the path, if it begins with one at all, is at or below one. -/
theorem valid_basedir_contained_iff (realpath : Str → Resolved) (userdev : Option (List Str)) (basedir : Str) :
    (Contained valid_basedir realpath userdev basedir ↔
        ∀ buffer, realpath basedir = .failed buffer → ¬BeginsDir userdev buffer) ∧
      (Contained valid_basedir_openbsd realpath userdev basedir ↔
        (∀ buffer, realpath basedir = .failed buffer → ¬Begins userdev buffer) ∧
          ∀ path, realpath basedir = .ok path → Begins userdev path →
            ∃ basedirs ∈ userdev, ∃ d ∈ basedirs, Below d path) := by
  obtain ⟨hone, hcopy⟩ := valid_basedir_eq_one realpath userdev basedir
  unfold Contained Listed
  rw [hone, hcopy]
  cases hreal : realpath basedir with
  | failed buffer =>
    simp [Resolved.realbase]
  | ok path =>
    simp only [Resolved.realbase, reduceCtorEq, false_imp_iff, implies_true, iff_true, true_and, Resolved.ok.injEq,
      forall_eq', exists_eq_left']
    refine ⟨?_, trivial⟩
    intro h
    obtain ⟨basedirs, hlist, d, hd, hbelow⟩ := h
    exact ⟨basedirs, hlist, d, hd, Or.inr (Or.inl hbelow)⟩

theorem home_contained {realpath : Str → Resolved} {userdev : Option (List Str)} {home : Str}
    (hreal : ∀ buffer, realpath home = .failed buffer → ¬BeginsDir userdev buffer)
    (h : baditem (valid_basedir realpath userdev) (some home) = 0) : Listed realpath userdev home := by
  have hone : valid_basedir realpath userdev home = 1 := by
    rw [baditem] at h
    split_ifs at h with _ hzero
    have hle := validBasedir_le_one testDir realpath userdev home
    rw [valid_basedir] at hzero ⊢
    omega
  rw [(valid_basedir_eq_one realpath userdev home).1] at hone
  cases hpath : realpath home with
  | failed buffer =>
    rw [hpath] at hone
    exact absurd hone (hreal buffer hpath)
  | ok path =>
    rw [hpath] at hone
    obtain ⟨basedirs, hlist, d, hd, hbelow⟩ := hone
    exact ⟨path, hpath, basedirs, hlist, d, hd, Or.inr (Or.inl hbelow)⟩

/-- a configured directory -/
def home : Str := ['/', 'h']

/-- **Outside, and accepted.** A path that cannot be resolved, of which the buffer keeps the beginning; and, by the
copy, a directory beside the configured one. -/
theorem outside_accepted :
    valid_basedir (fun _ => .failed ['/', 'h', '/', 'x']) (some [home]) ['/', 'h', '/', 'x', '/', '.', '.'] = 1 ∧
      ¬Contained valid_basedir (fun _ => .failed ['/', 'h', '/', 'x']) (some [home])
        ['/', 'h', '/', 'x', '/', '.', '.'] ∧
      valid_basedir_openbsd .ok (some [home]) ['/', 'h', 'i'] = 1 ∧
      ¬Contained valid_basedir_openbsd .ok (some [home]) ['/', 'h', 'i'] := by
  refine ⟨by decide, fun h => ?_, by decide, fun h => ?_⟩
  · obtain ⟨p, hp, -⟩ := h (by decide)
    cases hp
  · obtain ⟨p, hp, basedirs, hlist, d, hd, hbelow⟩ := h (by decide)
    cases hp
    cases hlist
    obtain rfl := List.mem_singleton.1 hd
    revert hbelow
    decide

end MNetSoft.Pnewuser.Nuseradd
