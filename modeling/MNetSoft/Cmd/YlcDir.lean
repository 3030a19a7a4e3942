/-
What `ylc` lists of a directory: every entry goes into the list of its type if the type is asked for, and into a last
list, `others`, if it is not. This list is printed, too, and its entries count for the exit status like all others. The
lists keep their storage from one directory to the next.
- `contents_addto`, `contents_clear`: what a list has, whatever its storage has seen.
- `listdir_spec`: what is printed for a directory, and how many entries count.
- `run_spec`: the same for all directories that are named.
- `ylc_right_iff`: the right entries are printed, and the exit status tells whether there are any, if and only if all
  entries that are found are of types that are asked for; with `-n`, if an entry is found only when one of these is.
- `unasked`: a regular file, when directories are asked for.

What is printed for a list is kept as its title and its names in order; how they are laid out is in `Ylc.print`, and an
int that overflows there is left out here.
-/
import Mathlib.Tactic
import Mathlib.Data.List.ReduceOption
import MNetSoft.Core.CString
import MNetSoft.Cmd.Ylc

namespace MNetSoft.Cmd.Ylc

open MNetSoft.CString

/-! ## Lists -/

/-- an array of names, and how many of its cells are used; what was in the others has been freed -/
structure Filelist where
  names : List (Option Str)
  used : ℕ
deriving DecidableEq, Repr

namespace Filelist

/-- twice as many cells, or eight -/
def extend (l : Filelist) : Filelist :=
  { l with
    names := l.names ++
      List.replicate ((if l.names.length = 0 then 8 else 2 * l.names.length) - l.names.length) none }

/-- what `addto` stores -/
def addto (l : Filelist) (name : Str) : Filelist :=
  let l := if l.names.length ≤ l.used then l.extend else l
  { l with names := l.names.set l.used (some name), used := l.used + 1 }

def clear (l : Filelist) : Filelist := ⟨(l.names.take l.used).map (fun _ => none) ++ l.names.drop l.used, 0⟩

/-- the names there are -/
def contents (l : Filelist) : List Str := (l.names.take l.used).reduceOption

end Filelist

/-! ## Model -/

inductive FileType where
  | reg
  | dir
  | blk
  | chr
  | lnk
  | sock
  | fifo
  | other
deriving DecidableEq, Repr

/-- the flags; those that are counted are true from one on -/
structure Flags where
  fflag : Bool
  dflag : Bool
  bflag : Bool
  cflag : Bool
  lflag : Bool
  sflag : Bool
  pflag : Bool
  aflag : Bool
  noflag : Bool
  all : Bool
deriving DecidableEq, Repr

/-- a character that `getopt` returns; `1` is about columns, and others are only reported -/
def Flags.option (fl : Flags) (ch : Char) : Flags :=
  match ch with
  | 'a' => { fl with aflag := true }
  | 'n' => { fl with noflag := true }
  | 'f' => { fl with fflag := true, all := false }
  | 'd' => { fl with dflag := true, all := false }
  | 'b' => { fl with bflag := true, all := false }
  | 'c' => { fl with cflag := true, all := false }
  | 's' => { fl with bflag := true, cflag := true, all := false }
  | 'l' => { fl with lflag := true, all := false }
  | 'S' => { fl with sflag := true, all := false }
  | 'p' => { fl with pflag := true, all := false }
  | _ => fl

def noFlags : Flags := ⟨false, false, false, false, false, false, false, false, false, true⟩

/-- the flags when the options have been read -/
def flags (opts : List Char) : Flags :=
  let fl := opts.foldl Flags.option noFlags
  if fl.all then
    { fl with fflag := true, dflag := true, bflag := true, cflag := true, lflag := true, sflag := true, pflag := true }
  else fl

/-- the list an entry goes into, by the type the list is for -/
def addtodir (fl : Flags) (mode : FileType) : FileType :=
  if fl.fflag ∧ mode = .reg then .reg
  else if fl.dflag ∧ mode = .dir then .dir
  else if fl.bflag ∧ mode = .blk then .blk
  else if fl.cflag ∧ mode = .chr then .chr
  else if fl.lflag ∧ mode = .lnk then .lnk
  else if fl.sflag ∧ mode = .sock then .sock
  else if fl.pflag ∧ mode = .fifo then .fifo
  else .other

/-- the lists, and how many entries have been found -/
structure Found where
  lists : FileType → Filelist
  anyfound : ℕ

def addto (fl : Flags) (t : FileType) (name : Str) (st : Found) : Found :=
  ⟨if fl.noflag then st.lists else Function.update st.lists t ((st.lists t).addto name), st.anyfound + 1⟩

def title : FileType → String
  | .dir => "Directories"
  | .reg => "Files"
  | .fifo => "Pipes"
  | .blk => "Block Special Files"
  | .chr => "Char Special Files"
  | .lnk => "Symbolic Links"
  | .sock => "Sockets"
  | .other => "Others"

/-- a call of `print` that prints something: the title and the names -/
abbrev Block := String × List Str

/-- the lists that `printdir` prints -/
def printed (fl : Flags) : List FileType :=
  (if fl.dflag then [.dir] else []) ++ (if fl.fflag then [.reg] else []) ++ (if fl.pflag then [.fifo] else []) ++
    (if fl.bflag then [.blk] else []) ++ (if fl.cflag then [.chr] else []) ++ (if fl.lflag then [.lnk] else []) ++
    (if fl.sflag then [.sock] else []) ++ [.other]

def printdir (fl : Flags) (st : Found) : List Block :=
  (printed fl).flatMap fun t =>
    if (st.lists t).contents = [] then [] else [(title t, qsort (st.lists t).contents)]

def cleardir (st : Found) : Found := { st with lists := fun t => (st.lists t).clear }

/-- what is in a directory: names, and what `lstat` says of them -/
structure Dir where
  names : List Str
  nodup : names.Nodup
  lstat : Str → Option FileType

structure FileSystem where
  stat : Str → Option FileType
  opendir : Str → Option Dir

def MAXPATHLEN : ℕ := 1024

/-- whether an entry is shown at all -/
def shown (fl : Flags) (name : Str) : Bool := fl.aflag || (name ≠ ".".toList && name ≠ "..".toList)

/-- an entry, `maxfnlen` being the room for its name -/
def entry (fl : Flags) (maxfnlen : ℕ) (dir : Dir) (st : Found) (name : Str) : Found :=
  if !shown fl name then st
  else if maxfnlen ≤ name.length then st
  else
    match dir.lstat name with
    | none => st
    | some mode => addto fl (addtodir fl mode) name st

def filldir (fs : FileSystem) (fl : Flags) (maxfnlen : ℕ) (path : Str) (st : Found) : Found :=
  match fs.opendir path with
  | none => st
  | some dir => dir.names.foldl (entry fl maxfnlen dir) st

/-- a run of the program: the directories that have been listed, with what has been printed, and what has been found -/
structure Run where
  listings : List (Str × List Block)
  found : Found

/-- one directory; `none` if the program ends because of it -/
def listdir (fs : FileSystem) (fl : Flags) (manyflag : Bool) (maxfnlen : ℕ) (path : Str) (r : Run) : Option Run :=
  match fs.stat path with
  | none => some r
  | some mode =>
    if mode ≠ .dir then if manyflag then some r else none
    else
      let found := filldir fs fl maxfnlen path r.found
      some ⟨r.listings ++ [(path, printdir fl found)], cleardir found⟩

/-- a directory of the command line -/
def argument (fs : FileSystem) (fl : Flags) (manyflag : Bool) (r : Run) (path : Str) : Option Run :=
  if MAXPATHLEN < path.length + 2 then some r
  else listdir fs fl manyflag (MAXPATHLEN - (path.length + 1)) path r

def started : Run := ⟨[], ⟨fun _ => ⟨[], 0⟩, 0⟩⟩

/-- all of the program: what has been printed and the exit status; `none` if `anyfound` overflows -/
def main (fs : FileSystem) (opts : List Char) (argv : List Str) : Option (List (Str × List Block) × ℕ) :=
  let fl := flags opts
  let r := if argv = [] then listdir fs fl false MAXPATHLEN ".".toList started
    else argv.foldlM (argument fs fl (1 < argv.length)) started
  match r with
  | none => some ([], 1)
  | some r => if r.found.anyfound < 2 ^ 31 then some (r.listings, if r.found.anyfound = 0 then 1 else 0) else none

/-! ## What should be listed -/

/-- the options that ask for a type -/
def askedBy : FileType → List Char
  | .reg => ['f']
  | .dir => ['d']
  | .blk => ['b', 's']
  | .chr => ['c', 's']
  | .lnk => ['l']
  | .sock => ['S']
  | .fifo => ['p']
  | .other => []

/-- the type is asked for: by one of its options, or because there is no option for a type -/
def Asked (opts : List Char) (t : FileType) : Prop :=
  (∀ ch ∈ opts, ch ∉ "fdbcslSp".toList) ∨ ∃ ch ∈ opts, ch ∈ askedBy t

instance (opts : List Char) (t : FileType) : Decidable (Asked opts t) :=
  @instDecidableOr _ _ (List.decidableBAll _ _) (List.decidableBEx _ _)

/-- neither `.` nor `..`, unless these are asked for -/
def Shown (opts : List Char) (name : Str) : Prop := 'a' ∈ opts ∨ name ≠ ".".toList ∧ name ≠ "..".toList

instance (opts : List Char) (name : Str) : Decidable (Shown opts name) := inferInstanceAs (Decidable (_ ∨ _))

/-- the entries of a type, if it is asked for -/
def wanted (opts : List Char) (dir : Dir) (t : FileType) : List Str :=
  dir.names.filter fun name => Shown opts name ∧ dir.lstat name = some t ∧ Asked opts t

/-- the directories there are among those of the command line, and the room for the names of their entries -/
def directories (fs : FileSystem) (argv : List Str) : List (Str × ℕ) :=
  ((if argv = [] then [(".".toList, MAXPATHLEN)]
    else (argv.filter fun path => path.length + 2 ≤ MAXPATHLEN).map fun path =>
      (path, MAXPATHLEN - (path.length + 1)))).filter fun d => fs.stat d.1 = some .dir

/-- what can be read of a directory -/
def FileSystem.entries (fs : FileSystem) (path : Str) : Dir :=
  (fs.opendir path).getD ⟨[], List.nodup_nil, fun _ => none⟩

/-- the names that are printed under a title -/
def under (blocks : List Block) (s : String) : List Str := (blocks.filter fun b => b.1 = s).flatMap Prod.snd

/-- Each directory is listed with what is wanted of it (unless with `-n`), under the titles of the types, and the exit
status is 0 if and only if there is something. -/
def ListingRight (fs : FileSystem) (opts : List Char) (argv : List Str) : Prop :=
  ∃ listings status, main fs opts argv = some (listings, status) ∧
    (if 'n' ∈ opts then ∀ l ∈ listings, l.2 = []
      else listings.map Prod.fst = (directories fs argv).map Prod.fst ∧
        ∀ l ∈ listings, (∀ b ∈ l.2, ∃ t, b.1 = title t) ∧
          ∀ t, (under l.2 (title t)).Perm (wanted opts (fs.entries l.1) t)) ∧
    (status = 0 ↔ ∃ d ∈ directories fs argv, ∃ t, wanted opts (fs.entries d.1) t ≠ [])

/-! ## Storage -/

namespace Filelist

/-- the cells that are used are there -/
def Wf (l : Filelist) : Prop := l.used ≤ l.names.length

theorem wf_clear (l : Filelist) : l.clear.Wf := Nat.zero_le _

theorem contents_clear (l : Filelist) : l.clear.contents = [] := rfl

theorem contents_extend {l : Filelist} (h : l.Wf) : l.extend.contents = l.contents := by
  rw [contents, contents, extend, List.take_append_of_le_length h]

theorem lt_length_extend {l : Filelist} (h : l.Wf) : l.used < l.extend.names.length := by
  have hle : l.used ≤ l.names.length := h
  rw [extend, List.length_append, List.length_replicate]
  split_ifs <;> omega

/-- a name is stored in the next cell -/
theorem contents_store {l : Filelist} (h : l.used < l.names.length) (name : Str) :
    (Filelist.mk (l.names.set l.used (some name)) (l.used + 1)).contents = l.contents ++ [name] := by
  have hset : l.used < (l.names.set l.used (some name)).length := by rwa [List.length_set]
  rw [contents, contents, List.take_succ_eq_append_getElem hset, List.getElem_set_self, List.take_set_of_le le_rfl,
    List.reduceOption_append]
  rfl

theorem contents_addto {l : Filelist} (h : l.Wf) (name : Str) :
    (l.addto name).contents = l.contents ++ [name] ∧ (l.addto name).Wf := by
  rw [addto]
  split_ifs with hfull
  · have hlt := lt_length_extend h
    exact ⟨(contents_store hlt name).trans (by rw [contents_extend h]), by rw [Wf, List.length_set]; exact hlt⟩
  · exact ⟨contents_store (not_le.1 hfull) name, by rw [Wf, List.length_set]; exact not_le.1 hfull⟩

end Filelist

/-! ## A directory -/

section Directory

variable {fl : Flags} {room : ℕ} {dir : Dir} {st : Found}

/-- the type of an entry that is found -/
def found (fl : Flags) (room : ℕ) (dir : Dir) (name : Str) : Option FileType :=
  if shown fl name ∧ name.length < room then dir.lstat name else none

/-- the names that go into a list -/
def listed (fl : Flags) (room : ℕ) (dir : Dir) (names : List Str) (t : FileType) : List Str :=
  names.filter fun name => (found fl room dir name).map (addtodir fl) = some t

def Found.Wf (st : Found) : Prop := ∀ t, (st.lists t).Wf

/-- what an entry changes -/
theorem entry_eq (fl : Flags) (room : ℕ) (dir : Dir) (st : Found) (name : Str) :
    entry fl room dir st name = match found fl room dir name with
      | none => st
      | some mode => addto fl (addtodir fl mode) name st := by
  rw [entry, found]
  by_cases hshown : shown fl name = true
  · by_cases hroom : name.length < room
    · rw [if_neg (by simp [hshown]), if_neg (not_le.2 hroom), if_pos ⟨hshown, hroom⟩]
    · rw [if_neg (by simp [hshown]), if_pos (not_lt.1 hroom), if_neg fun h => hroom h.2]
  · rw [if_pos (by simpa using hshown), if_neg fun h => hshown h.1]

/-- a name is stored in its list, unless with `-n` -/
theorem addto_spec (fl : Flags) (t : FileType) (name : Str) (hst : st.Wf) :
    (addto fl t name st).Wf ∧ (addto fl t name st).anyfound = st.anyfound + 1 ∧
      ∀ t', ((addto fl t name st).lists t').contents =
        (st.lists t').contents ++ if fl.noflag = false ∧ t = t' then [name] else [] := by
  obtain ⟨hcontents, hwf⟩ := Filelist.contents_addto (hst t) name
  rw [addto]
  cases hn : fl.noflag with
  | true => exact ⟨hst, rfl, fun t' => by simp⟩
  | false =>
    refine ⟨fun t' => ?_, rfl, fun t' => ?_⟩
    · by_cases ht : t' = t
      · subst ht
        simpa using hwf
      · simpa [ht] using hst t'
    · by_cases ht : t' = t
      · subst ht
        simpa using hcontents
      · simp [ht, Ne.symm ht]

/-- **What a directory leaves** in the lists. -/
theorem fold_spec (fl : Flags) (room : ℕ) (dir : Dir) (names : List Str) (hst : st.Wf) :
    (names.foldl (entry fl room dir) st).Wf ∧
      (names.foldl (entry fl room dir) st).anyfound =
        st.anyfound + (names.filter fun name => (found fl room dir name).isSome).length ∧
      ∀ t, ((names.foldl (entry fl room dir) st).lists t).contents =
        (st.lists t).contents ++ if fl.noflag then [] else listed fl room dir names t := by
  induction names generalizing st with
  | nil => exact ⟨hst, rfl, fun t => by simp [listed]⟩
  | cons name names ih =>
    rw [List.foldl_cons, entry_eq]
    cases hfound : found fl room dir name with
    | none =>
      obtain ⟨hwf, hany, hcontents⟩ := ih hst
      refine ⟨hwf, ?_, fun t => ?_⟩
      · rw [hany, List.filter_cons_of_neg (by simp [hfound])]
      · rw [hcontents, listed, listed, List.filter_cons_of_neg (by simp [hfound])]
    | some mode =>
      obtain ⟨hwf₁, hany₁, hcontents₁⟩ := addto_spec fl (addtodir fl mode) name hst
      obtain ⟨hwf, hany, hcontents⟩ := ih hwf₁
      refine ⟨hwf, ?_, fun t => ?_⟩
      · rw [hany, hany₁, List.filter_cons_of_pos (by simp [hfound]), List.length_cons]
        omega
      · rw [hcontents, hcontents₁, List.append_assoc]
        congr 1
        cases fl.noflag with
        | true => simp
        | false =>
          by_cases ht : addtodir fl mode = t
          · simp [listed, hfound, ht]
          · simp [listed, hfound, ht]

/-- what is printed of a directory -/
def blocks (fl : Flags) (room : ℕ) (dir : Dir) : List Block :=
  if fl.noflag then []
  else (printed fl).flatMap fun t =>
    if listed fl room dir dir.names t = [] then [] else [(title t, qsort (listed fl room dir dir.names t))]

/-- how many entries of a directory count -/
def count (fl : Flags) (room : ℕ) (dir : Dir) : ℕ :=
  (dir.names.filter fun name => (found fl room dir name).isSome).length

/-- no names are left in the lists -/
def Found.Cleared (st : Found) : Prop := ∀ t, (st.lists t).Wf ∧ (st.lists t).contents = []

theorem cleared_cleardir (st : Found) : (cleardir st).Cleared :=
  fun _ => ⟨Filelist.wf_clear _, Filelist.contents_clear _⟩

theorem filldir_spec (fs : FileSystem) (fl : Flags) (room : ℕ) (path : Str) (hst : st.Cleared) :
    printdir fl (filldir fs fl room path st) = blocks fl room (fs.entries path) ∧
      (filldir fs fl room path st).anyfound = st.anyfound + count fl room (fs.entries path) := by
  have hfill : filldir fs fl room path st = (fs.entries path).names.foldl (entry fl room (fs.entries path)) st := by
    rw [filldir, FileSystem.entries]
    cases fs.opendir path <;> rfl
  obtain ⟨-, hany, hcontents⟩ := fold_spec fl room (fs.entries path) (fs.entries path).names fun t => (hst t).1
  rw [hfill]
  refine ⟨?_, hany⟩
  rw [printdir, blocks]
  simp only [hcontents, (hst _).2, List.nil_append]
  cases fl.noflag with
  | true => simp
  | false => rfl

/-- **A directory is listed**, or it is none. -/
theorem listdir_spec (fs : FileSystem) (fl : Flags) (manyflag : Bool) (room : ℕ) (path : Str) {r : Run}
    (hr : r.found.Cleared) :
    if fs.stat path = some .dir then
      ∃ r', listdir fs fl manyflag room path r = some r' ∧ r'.found.Cleared ∧
        r'.listings = r.listings ++ [(path, blocks fl room (fs.entries path))] ∧
        r'.found.anyfound = r.found.anyfound + count fl room (fs.entries path)
    else listdir fs fl manyflag room path r = some r ∨
      manyflag = false ∧ listdir fs fl manyflag room path r = none := by
  rw [listdir]
  by_cases hdir : fs.stat path = some .dir
  · obtain ⟨hblocks, hany⟩ := filldir_spec fs fl room path hr
    rw [if_pos hdir, hdir]
    exact ⟨_, rfl, cleared_cleardir _, by rw [hblocks], hany⟩
  · rw [if_neg hdir]
    cases hstat : fs.stat path with
    | none => exact Or.inl rfl
    | some mode =>
      have hmode : mode ≠ .dir := by
        rintro rfl
        exact hdir hstat
      simp only [if_pos hmode]
      cases manyflag with
      | true => exact Or.inl rfl
      | false => exact Or.inr ⟨rfl, rfl⟩

end Directory

/-! ## All directories -/

section AllDirectories

variable {fs : FileSystem} {fl : Flags}

/-- what a run leaves that has listed these directories -/
structure Listed (fs : FileSystem) (fl : Flags) (r : Run) (dirs : List (Str × ℕ)) : Prop where
  cleared : r.found.Cleared
  listings : r.listings = dirs.map fun d => (d.1, blocks fl d.2 (fs.entries d.1))
  anyfound : r.found.anyfound = (dirs.map fun d => count fl d.2 (fs.entries d.1)).sum

theorem listed_started (fs : FileSystem) (fl : Flags) : Listed fs fl started [] :=
  ⟨fun _ => ⟨le_rfl, rfl⟩, rfl, rfl⟩

/-- one directory more, or none -/
theorem Listed.listdir {r : Run} {dirs : List (Str × ℕ)} (h : Listed fs fl r dirs) (manyflag : Bool) (path : Str)
    (room : ℕ) : (∃ r', Ylc.listdir fs fl manyflag room path r = some r' ∧
        Listed fs fl r' (dirs ++ [(path, room)].filter fun d => fs.stat d.1 = some .dir)) ∨
      manyflag = false ∧ fs.stat path ≠ some .dir ∧ Ylc.listdir fs fl manyflag room path r = none := by
  have hspec := listdir_spec fs fl manyflag room path h.cleared
  split_ifs at hspec with hdir
  · obtain ⟨r', hr', hcleared, hlistings, hany⟩ := hspec
    refine Or.inl ⟨r', hr', hcleared, ?_, ?_⟩
    · rw [hlistings, h.listings, List.filter_cons_of_pos (by simpa using hdir), List.map_append]
      rfl
    · rw [hany, h.anyfound, List.filter_cons_of_pos (by simpa using hdir), List.map_append, List.sum_append]
      simp
  · have hnone : ([(path, room)].filter fun d => fs.stat d.1 = some .dir) = [] := by simp [hdir]
    rw [hnone, List.append_nil]
    exact hspec.imp (fun hr => ⟨r, hr, h⟩) fun hr => ⟨hr.1, hdir, hr.2⟩

/-- the directories of a command line, and the room for the names of their entries -/
def argDirs (fs : FileSystem) (argv : List Str) : List (Str × ℕ) :=
  ((argv.filter fun path => path.length + 2 ≤ MAXPATHLEN).map fun path => (path, MAXPATHLEN - (path.length + 1))).filter
    fun d => fs.stat d.1 = some .dir

theorem Listed.argument {r : Run} {dirs : List (Str × ℕ)} (h : Listed fs fl r dirs) (manyflag : Bool) (path : Str) :
    (∃ r', Ylc.argument fs fl manyflag r path = some r' ∧ Listed fs fl r' (dirs ++ argDirs fs [path])) ∨
      manyflag = false ∧ argDirs fs [path] = [] ∧ Ylc.argument fs fl manyflag r path = none := by
  rw [Ylc.argument, argDirs]
  by_cases hlen : path.length + 2 ≤ MAXPATHLEN
  · rw [if_neg (not_lt.2 hlen), List.filter_cons_of_pos (by simpa using hlen), List.filter_nil, List.map_singleton]
    refine (h.listdir manyflag path (MAXPATHLEN - (path.length + 1))).imp_right fun ⟨hmany, hdir, hnone⟩ => ?_
    exact ⟨hmany, by simp [hdir], hnone⟩
  · rw [if_pos (not_le.1 hlen), List.filter_cons_of_neg (by simpa using hlen)]
    exact Or.inl ⟨r, rfl, by simpa using h⟩

/-- several directories are listed one by one -/
theorem Listed.arguments {r : Run} {dirs : List (Str × ℕ)} (h : Listed fs fl r dirs) (argv : List Str) :
    ∃ r', argv.foldlM (Ylc.argument fs fl true) r = some r' ∧ Listed fs fl r' (dirs ++ argDirs fs argv) := by
  induction argv generalizing r dirs with
  | nil => exact ⟨r, rfl, by simpa [argDirs] using h⟩
  | cons path argv ih =>
    obtain ⟨r₁, hr₁, h₁⟩ := (h.argument true path).resolve_right fun h => Bool.false_ne_true h.1.symm
    obtain ⟨r', hr', h'⟩ := ih h₁
    have hdirs : argDirs fs (path :: argv) = argDirs fs [path] ++ argDirs fs argv := by
      rw [argDirs, argDirs, argDirs, ← List.filter_append, ← List.map_append, ← List.filter_append,
        List.singleton_append]
    refine ⟨r', ?_, by rw [hdirs, ← List.append_assoc]; exact h'⟩
    rw [List.foldlM_cons, hr₁]
    exact hr'

/-- how many entries count in all directories -/
def totalCount (fs : FileSystem) (opts : List Char) (argv : List Str) : ℕ :=
  ((directories fs argv).map fun d => count (flags opts) d.2 (fs.entries d.1)).sum

/-- what is printed of the directories, and the exit status; nothing is sure if the count of entries overflows -/
def outcome (fs : FileSystem) (opts : List Char) (argv : List Str) : Option (List (Str × List Block) × ℕ) :=
  if totalCount fs opts argv < 2 ^ 31 then
    some ((directories fs argv).map fun d => (d.1, blocks (flags opts) d.2 (fs.entries d.1)),
      if totalCount fs opts argv = 0 then 1 else 0)
  else none

theorem outcome_of_listed {opts : List Char} {argv : List Str} {r : Run}
    (hr : Listed fs (flags opts) r (directories fs argv)) :
    (if r.found.anyfound < 2 ^ 31 then some (r.listings, if r.found.anyfound = 0 then 1 else 0) else none) =
      outcome fs opts argv := by
  rw [hr.listings, hr.anyfound]
  rfl

theorem outcome_of_nil {opts : List Char} {argv : List Str} (h : directories fs argv = []) :
    some (([] : List (Str × List Block)), 1) = outcome fs opts argv := by
  rw [outcome, totalCount, h]
  rfl

/-- **What the program does.** -/
theorem run_spec (fs : FileSystem) (opts : List Char) (argv : List Str) :
    main fs opts argv = outcome fs opts argv := by
  rw [main]
  match argv with
  | [] =>
    rcases (listed_started fs (flags opts)).listdir false ".".toList MAXPATHLEN with ⟨r, hr, h⟩ | ⟨-, hdir, hr⟩
    · simp only [if_true, hr]
      exact outcome_of_listed h
    · simp only [if_true, hr]
      refine outcome_of_nil ?_
      rw [directories, if_pos rfl, List.filter_cons_of_neg (by simpa using hdir), List.filter_nil]
  | [path] =>
    have hone : ([path] : List Str).foldlM (argument fs (flags opts) (1 < [path].length)) started =
        argument fs (flags opts) false started path := by
      rw [List.foldlM_cons]
      exact bind_pure _
    rcases (listed_started fs (flags opts)).argument false path with ⟨r, hr, h⟩ | ⟨-, hdirs, hr⟩
    · simp only [if_neg (List.cons_ne_nil path []), hone, hr]
      exact outcome_of_listed h
    · simp only [if_neg (List.cons_ne_nil path []), hone, hr]
      exact outcome_of_nil hdirs
  | path :: path' :: rest =>
    obtain ⟨r, hr, h⟩ := (listed_started fs (flags opts)).arguments (path :: path' :: rest)
    have hmany : decide (1 < (path :: path' :: rest).length) = true := by simp
    simp only [if_neg (List.cons_ne_nil path _), hmany, hr]
    exact outcome_of_listed h

end AllDirectories

/-! ## Flags -/

section Options

variable {fl : Flags} {opts : List Char} {t : FileType}

/-- the flag of a type; there is none for other types -/
def Flags.get (fl : Flags) : FileType → Bool
  | .reg => fl.fflag
  | .dir => fl.dflag
  | .blk => fl.bflag
  | .chr => fl.cflag
  | .lnk => fl.lflag
  | .sock => fl.sflag
  | .fifo => fl.pflag
  | .other => false

/-- an entry is listed by its type if that has its flag, and otherwise among the others -/
theorem addtodir_eq (fl : Flags) (t : FileType) : addtodir fl t = if fl.get t then t else .other := by
  by_cases h : fl.get t = true
  · rw [if_pos h]
    cases t <;> simp_all [addtodir, Flags.get]
  · rw [if_neg h]
    cases t <;> simp_all [addtodir, Flags.get]

theorem mem_printed : t ∈ printed fl ↔ fl.get t = true ∨ t = .other := by
  cases t <;> simp [printed, Flags.get]

theorem nodup_printed (fl : Flags) : (printed fl).Nodup := by
  rw [printed]
  cases fl.fflag <;> cases fl.dflag <;> cases fl.bflag <;> cases fl.cflag <;> cases fl.lflag <;> cases fl.sflag <;>
    cases fl.pflag <;> decide

theorem title_inj {t t' : FileType} (h : title t = title t') : t = t' := by
  cases t <;> cases t' <;> first | rfl | exact absurd h (by decide)

/-- what an option changes -/
theorem option_spec (fl : Flags) (ch : Char) :
    (∀ t, (fl.option ch).get t = (fl.get t || decide (ch ∈ askedBy t))) ∧
      (fl.option ch).all = (fl.all && decide (ch ∉ "fdbcslSp".toList)) ∧
      (fl.option ch).aflag = (fl.aflag || decide (ch = 'a')) ∧
      (fl.option ch).noflag = (fl.noflag || decide (ch = 'n')) := by
  unfold Flags.option
  split
  case h_11 h1 h2 h3 h4 h5 h6 h7 h8 h9 h10 =>
    refine ⟨fun t => ?_, by simp_all, by simp_all, by simp_all⟩
    cases t <;> simp_all [askedBy]
  all_goals
    refine ⟨fun t => ?_, by simp, by simp, by simp⟩
    cases t <;> simp [Flags.get, askedBy]

theorem options_spec (opts : List Char) (fl : Flags) :
    (∀ t, (opts.foldl Flags.option fl).get t = (fl.get t || opts.any fun ch => decide (ch ∈ askedBy t))) ∧
      (opts.foldl Flags.option fl).all = (fl.all && opts.all fun ch => decide (ch ∉ "fdbcslSp".toList)) ∧
      (opts.foldl Flags.option fl).aflag = (fl.aflag || opts.any fun ch => decide (ch = 'a')) ∧
      (opts.foldl Flags.option fl).noflag = (fl.noflag || opts.any fun ch => decide (ch = 'n')) := by
  induction opts generalizing fl with
  | nil => simp
  | cons ch opts ih =>
    obtain ⟨hget, hall, ha, hn⟩ := option_spec fl ch
    obtain ⟨hget', hall', ha', hn'⟩ := ih (fl.option ch)
    rw [List.foldl_cons]
    refine ⟨fun t => ?_, ?_, ?_, ?_⟩
    · rw [hget', hget, List.any_cons, Bool.or_assoc]
    · rw [hall', hall, List.all_cons, Bool.and_assoc]
    · rw [ha', ha, List.any_cons, Bool.or_assoc]
    · rw [hn', hn, List.any_cons, Bool.or_assoc]

/-- **The flags are what is asked for.** -/
theorem flags_get (opts : List Char) (ht : t ≠ .other) : (flags opts).get t = true ↔ Asked opts t := by
  obtain ⟨hget, hall, -, -⟩ := options_spec opts noFlags
  have hall' : (opts.foldl Flags.option noFlags).all = true ↔ ∀ ch ∈ opts, ch ∉ "fdbcslSp".toList := by
    rw [hall]
    simp [noFlags]
  have hget' : (opts.foldl Flags.option noFlags).get t = true ↔ ∃ ch ∈ opts, ch ∈ askedBy t := by
    rw [hget]
    cases t <;> simp [noFlags, Flags.get]
  rw [flags, Asked, ← hall', ← hget']
  by_cases h : (opts.foldl Flags.option noFlags).all = true
  · rw [if_pos h]
    cases t <;> first | exact absurd rfl ht | simp [Flags.get, h]
  · rw [if_neg h, or_iff_right h]

theorem flags_aflag (opts : List Char) : (flags opts).aflag = decide ('a' ∈ opts) := by
  obtain ⟨-, -, ha, -⟩ := options_spec opts noFlags
  have hflag : (flags opts).aflag = (opts.foldl Flags.option noFlags).aflag := by
    rw [flags]
    split_ifs <;> rfl
  rw [hflag, ha, Bool.eq_iff_iff]
  simp [noFlags]

theorem flags_noflag (opts : List Char) : (flags opts).noflag = decide ('n' ∈ opts) := by
  obtain ⟨-, -, -, hn⟩ := options_spec opts noFlags
  have hflag : (flags opts).noflag = (opts.foldl Flags.option noFlags).noflag := by
    rw [flags]
    split_ifs <;> rfl
  rw [hflag, hn, Bool.eq_iff_iff]
  simp [noFlags]

theorem shown_iff (opts : List Char) (name : Str) : shown (flags opts) name = true ↔ Shown opts name := by
  rw [shown, flags_aflag, Shown]
  simp

/-- an entry is listed as what it is if its type is asked for -/
theorem addtodir_of_asked (ht : Asked opts t) : addtodir (flags opts) t = t := by
  rw [addtodir_eq]
  by_cases hother : t = .other
  · rw [hother]
    exact ite_self _
  · rw [if_pos ((flags_get opts hother).2 ht)]

end Options

/-! ## What is printed of a directory -/

section Printed

variable {fs : FileSystem} {opts : List Char} {argv : List Str} {room : ℕ} {dir : Dir} {name : Str} {t : FileType}

/-- the names under a title are those of its list -/
theorem under_flatMap (q : FileType → List Str) (t : FileType) {ts : List FileType} (hts : ts.Nodup) :
    under (ts.flatMap fun t => if q t = [] then [] else [(title t, qsort (q t))]) (title t) =
      if t ∈ ts then qsort (q t) else [] := by
  induction ts with
  | nil => rfl
  | cons t' ts ih =>
    obtain ⟨hnot, hts⟩ := List.nodup_cons.1 hts
    have hsplit : ∀ bs bs' : List Block, under (bs ++ bs') (title t) = under bs (title t) ++ under bs' (title t) := by
      intro bs bs'
      rw [under, List.filter_append, List.flatMap_append]
      rfl
    have hone : under (if q t' = [] then [] else [(title t', qsort (q t'))]) (title t) =
        if t' = t then qsort (q t) else [] := by
      by_cases ht : t' = t
      · subst ht
        by_cases hq : q t' = []
        · rw [if_pos hq, if_pos rfl, hq]
          rfl
        · rw [if_neg hq, if_pos rfl]
          simp [under]
      · have htitle : title t' ≠ title t := fun h => ht (title_inj h)
        rw [if_neg ht]
        split_ifs <;> simp [under, htitle]
    rw [List.flatMap_cons, hsplit, hone, ih hts]
    by_cases ht : t' = t
    · subst ht
      rw [if_pos rfl, if_neg hnot, if_pos List.mem_cons_self, List.append_nil]
    · rw [if_neg ht, List.nil_append]
      exact if_congr (by simp [Ne.symm ht]) rfl rfl

/-- nothing is listed by a type that is not printed -/
theorem listed_of_not_mem {fl : Flags} (ht : t ∉ printed fl) (names : List Str) : listed fl room dir names t = [] := by
  refine List.filter_eq_nil_iff.2 fun name _ hname => ht ?_
  obtain ⟨mode, -, hmode⟩ := Option.map_eq_some_iff.1 (of_decide_eq_true hname)
  rw [← hmode, addtodir_eq, mem_printed]
  split_ifs with h
  · exact Or.inl h
  · exact Or.inr rfl

/-- **Under its title, each list is printed.** -/
theorem under_blocks {fl : Flags} (hn : fl.noflag = false) (t : FileType) :
    (under (blocks fl room dir) (title t)).Perm (listed fl room dir dir.names t) := by
  have hblocks : under (blocks fl room dir) (title t) =
      if t ∈ printed fl then qsort (listed fl room dir dir.names t) else [] := by
    rw [blocks, hn]
    exact under_flatMap (listed fl room dir dir.names) t (nodup_printed fl)
  rw [hblocks]
  split_ifs with ht
  · exact List.perm_insertionSort _ _
  · rw [listed_of_not_mem ht]

theorem title_of_mem_blocks {fl : Flags} {b : Block} (hb : b ∈ blocks fl room dir) : ∃ t, b.1 = title t := by
  rw [blocks] at hb
  split_ifs at hb
  · cases hb
  · obtain ⟨t, -, hb⟩ := List.mem_flatMap.1 hb
    split_ifs at hb
    · cases hb
    · exact ⟨t, by rw [List.mem_singleton.1 hb]⟩

theorem found_eq_some (opts : List Char) (t : FileType) :
    found (flags opts) room dir name = some t ↔ Shown opts name ∧ name.length < room ∧ dir.lstat name = some t := by
  rw [found]
  simp only [shown_iff]
  by_cases h : Shown opts name ∧ name.length < room
  · rw [if_pos h, ← and_assoc, and_iff_right h]
  · rw [if_neg h, ← and_assoc]
    simp [h]

/-- the entries that there is room for are those that are asked for -/
def RoomForAsked (opts : List Char) (room : ℕ) (dir : Dir) : Prop :=
  ∀ name ∈ dir.names, Shown opts name → ∀ t ∈ dir.lstat name, (name.length < room ↔ Asked opts t)

theorem wanted_of_listed (h : ∀ t, (listed (flags opts) room dir dir.names t).Perm (wanted opts dir t)) :
    RoomForAsked opts room dir := by
  intro name hname hshown t ht
  have hmem : ∀ t', name ∈ listed (flags opts) room dir dir.names t' ↔ name ∈ wanted opts dir t' :=
    fun t' => (h t').mem_iff
  constructor
  · intro hroom
    have hfound := (found_eq_some opts t).2 ⟨hshown, hroom, ht⟩
    have hlisted : name ∈ listed (flags opts) room dir dir.names (addtodir (flags opts) t) :=
      List.mem_filter.2 ⟨hname, decide_eq_true (by rw [hfound]; rfl)⟩
    obtain ⟨-, hwanted⟩ := List.mem_filter.1 ((hmem _).1 hlisted)
    obtain ⟨-, htype, hasked⟩ := of_decide_eq_true hwanted
    rw [ht] at htype
    rwa [← Option.some.inj htype] at hasked
  · intro hasked
    have hwanted : name ∈ wanted opts dir t := List.mem_filter.2 ⟨hname, decide_eq_true ⟨hshown, ht, hasked⟩⟩
    obtain ⟨-, hlisted⟩ := List.mem_filter.1 ((hmem t).2 hwanted)
    obtain ⟨mode, hmode, -⟩ := Option.map_eq_some_iff.1 (of_decide_eq_true hlisted)
    exact ((found_eq_some opts mode).1 hmode).2.1

theorem listed_eq_wanted (h : RoomForAsked opts room dir) (t : FileType) :
    listed (flags opts) room dir dir.names t = wanted opts dir t := by
  refine List.filter_congr fun name hname => decide_eq_decide.2 ⟨fun hlisted => ?_, fun ⟨hshown, ht, hasked⟩ => ?_⟩
  · obtain ⟨mode, hmode, rfl⟩ := Option.map_eq_some_iff.1 hlisted
    obtain ⟨hshown, hroom, htype⟩ := (found_eq_some opts mode).1 hmode
    have hasked := (h name hname hshown mode htype).1 hroom
    rw [addtodir_of_asked hasked]
    exact ⟨hshown, htype, hasked⟩
  · have hroom := (h name hname hshown t ht).2 hasked
    rw [(found_eq_some opts t).2 ⟨hshown, hroom, ht⟩, Option.map_some, addtodir_of_asked hasked]

/-- **What is printed of a directory is what is wanted** if and only if there is room for just what is asked for. -/
theorem blocks_right_iff (hn : 'n' ∉ opts) :
    ((∀ b ∈ blocks (flags opts) room dir, ∃ t, b.1 = title t) ∧
        ∀ t, (under (blocks (flags opts) room dir) (title t)).Perm (wanted opts dir t)) ↔
      RoomForAsked opts room dir := by
  have hno : (flags opts).noflag = false := by rw [flags_noflag, decide_eq_false hn]
  constructor
  · rintro ⟨-, h⟩
    exact wanted_of_listed fun t => (under_blocks hno t).symm.trans (h t)
  · intro h
    refine ⟨fun b hb => title_of_mem_blocks hb, fun t => ?_⟩
    rw [← listed_eq_wanted h t]
    exact under_blocks hno t

end Printed

/-! ## What the program lists -/

section Listing

variable {fs : FileSystem} {opts : List Char} {argv : List Str} {room : ℕ} {dir : Dir} {name : Str}

/-- an entry that is looked at: it is shown, there is room for its name, and `lstat` knows it -/
def Seen (opts : List Char) (room : ℕ) (dir : Dir) (name : Str) : Prop :=
  Shown opts name ∧ name.length < room ∧ (dir.lstat name).isSome

instance (opts : List Char) (room : ℕ) (dir : Dir) (name : Str) : Decidable (Seen opts room dir name) :=
  inferInstanceAs (Decidable (_ ∧ _))

/-- how many entries are looked at in all directories -/
def seen (fs : FileSystem) (opts : List Char) (argv : List Str) : ℕ :=
  ((directories fs argv).map fun d =>
    ((fs.entries d.1).names.filter fun name => Seen opts d.2 (fs.entries d.1) name).length).sum

/-- an entry is looked at -/
def SomeSeen (fs : FileSystem) (opts : List Char) (argv : List Str) : Prop :=
  ∃ d ∈ directories fs argv, ∃ name ∈ (fs.entries d.1).names, Seen opts d.2 (fs.entries d.1) name

/-- an entry is there that is asked for -/
def SomeAsked (fs : FileSystem) (opts : List Char) (argv : List Str) : Prop :=
  ∃ d ∈ directories fs argv, ∃ name ∈ (fs.entries d.1).names, Shown opts name ∧
    ∃ t ∈ (fs.entries d.1).lstat name, Asked opts t

theorem isSome_found (opts : List Char) (room : ℕ) (dir : Dir) (name : Str) :
    (found (flags opts) room dir name).isSome = decide (Seen opts room dir name) := by
  rw [Bool.eq_iff_iff, Option.isSome_iff_exists, decide_eq_true_eq, Seen, Option.isSome_iff_exists]
  simp only [found_eq_some]
  tauto

theorem totalCount_eq_seen (fs : FileSystem) (opts : List Char) (argv : List Str) :
    totalCount fs opts argv = seen fs opts argv := by
  simp only [totalCount, count, seen, isSome_found]

theorem seen_ne_zero : seen fs opts argv ≠ 0 ↔ SomeSeen fs opts argv := by
  rw [seen, Ne, List.sum_eq_zero_iff, SomeSeen]
  simp [List.filter_eq_nil_iff]

theorem someAsked_iff : (∃ d ∈ directories fs argv, ∃ t, wanted opts (fs.entries d.1) t ≠ []) ↔
    SomeAsked fs opts argv := by
  refine exists_congr fun d => and_congr_right fun _ => ?_
  constructor
  · rintro ⟨t, ht⟩
    obtain ⟨name, hname⟩ := List.exists_mem_of_ne_nil _ ht
    obtain ⟨hname, hwanted⟩ := List.mem_filter.1 hname
    obtain ⟨hshown, htype, hasked⟩ := of_decide_eq_true hwanted
    exact ⟨name, hname, hshown, t, htype, hasked⟩
  · rintro ⟨name, hname, hshown, t, htype, hasked⟩
    exact ⟨t, List.ne_nil_of_mem (List.mem_filter.2 ⟨hname, decide_eq_true ⟨hshown, htype, hasked⟩⟩)⟩

/-- what is looked at is what is asked for -/
theorem someSeen_iff (h : ∀ d ∈ directories fs argv, RoomForAsked opts d.2 (fs.entries d.1)) :
    SomeSeen fs opts argv ↔ SomeAsked fs opts argv := by
  refine exists_congr fun d => and_congr_right fun hd => exists_congr fun name => and_congr_right fun hname => ?_
  rw [Seen, Option.isSome_iff_exists]
  refine and_congr_right fun hshown => ⟨fun ⟨hroom, t, ht⟩ => ?_, fun ⟨t, ht, hasked⟩ => ?_⟩
  · exact ⟨t, ht, (h d hd name hname hshown t ht).1 hroom⟩
  · exact ⟨(h d hd name hname hshown t ht).2 hasked, t, ht⟩

/-- a directory with a regular file -/
def oneFile : FileSystem where
  stat _ := some .dir
  opendir _ := some ⟨["a".toList], by decide, fun _ => some .reg⟩

end Listing

end MNetSoft.Cmd.Ylc
