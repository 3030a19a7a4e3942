/-
`zap_passwd` of `zapuser`: master.passwd is copied into the lock file line by line, without the lines of the users on
the list, and `pw_mkdb` installs the copy. What the calls it makes answer is the parameter `Answers`; `pw_lock` is the
last call of it, as the loop around it waits while another process holds the lock. `fputs` answers 0 if it succeeds, as
it does on OpenBSD.

The login is isolated by a NUL over the colon, and the colon is put back before the line is written.
- `copyLoop_eof`: where the copy loop reaches the end of the file, the pieces it read are the lines, and it has written
  those whose login is not on the list.
- `zap_passwd_rewrite`: the copy that is installed, and the files that are never replaced.
-/
import Mathlib.Tactic
import MNetSoft.Core.Pieces
import MNetSoft.Zapuser.Users

namespace MNetSoft.Zapuser

open MNetSoft.CString

/-! ## Model -/

def PASSWDBUF : ℕ := 8192

/-- why the copy loop gives up, with the text it reports -/
inductive CopyError
  | tooLong (buf : Str)
  | noColon (buf : Str)
  | writeFailed
deriving DecidableEq, Repr

/-- the temporary file as it has been written, and the length it ought to have -/
structure Copied where
  temp : Str
  filesize : ℕ
deriving DecidableEq, Repr

/-- copy master into the temp lock file, dropping users in the user list; `puts` is what `fputs` answers, call by
call -/
def copyLoop (users : List Udat) (puts : ℕ → ℤ) : ℕ → Copied → List Str → Except CopyError Copied
  | _, c, [] => .ok c
  | k, c, buf :: bufs =>
    if strchr buf '\n' = none then .error (.tooLong ((cstr buf).take 20))
    else
      match strchr buf ':' with
      | none => .error (.noColon (cstr buf))
      | some p =>
        let buf := buf.set p '\x00'
        if (in_user_list users (cstr buf)).isSome then copyLoop users puts k c bufs
        else
          let buf := buf.set p ':'
          if puts k ≠ 0 then .error .writeFailed
          else copyLoop users puts (k + 1) ⟨c.temp ++ cstr buf, c.filesize + (cstr buf).length⟩ bufs

/-- what the calls around the loop answer: the lock is got, the two files are opened, `fputs` call by call, how much of
what is written is in the temporary file after `fflush`, `fstat`, and `pw_mkdb` -/
structure Answers where
  locks : Bool
  fdopens : Bool
  opens : Bool
  puts : ℕ → ℤ
  flushed : ℕ
  stats : Bool
  mkdb : Bool

/-- how `zap_passwd` ends: without the lock, aborted, or with the new file installed -/
inductive Rewrite
  | unlocked
  | aborted
  | installed (temp : Str)
deriving DecidableEq, Repr

def zap_passwd (users : List Udat) (a : Answers) (master : Str) : Rewrite :=
  if ¬a.locks then .unlocked
  else if ¬a.fdopens then .aborted
  else if ¬a.opens then .aborted
  else
    match copyLoop users a.puts 0 ⟨[], 0⟩ (fgetsAll PASSWDBUF master) with
    | .error _ => .aborted
    | .ok c =>
      let temp := c.temp.take a.flushed
      -- check file size
      if ¬a.stats then .aborted
      else if temp.length ≠ c.filesize then .aborted
      else if ¬a.mkdb then .aborted
      else .installed temp

/-! ## The copy loop -/

/-- the text of a line before its first colon -/
def loginOf (line : Str) : Str := line.takeWhile (· ≠ ':')

def keptLines (users : List Udat) (lines : List Str) : List Str :=
  lines.filter fun line => (in_user_list users (loginOf line)).isNone

theorem copyLoop_cons {users : List Udat} {puts : ℕ → ℤ} {k : ℕ} {c c' : Copied} {buf : Str} {bufs : List Str}
    (h : copyLoop users puts k c (buf :: bufs) = .ok c') : '\n' ∈ cstr buf ∧ ':' ∈ cstr buf ∧
      ∃ k', copyLoop users puts k' ⟨c.temp ++ (keptLines users [cstr buf]).flatten,
        c.filesize + (keptLines users [cstr buf]).flatten.length⟩ bufs = .ok c' := by
  rw [copyLoop] at h
  by_cases hnone : strchr buf '\n' = none
  · rw [if_pos hnone] at h
    cases h
  rw [if_neg hnone] at h
  have hnl : '\n' ∈ cstr buf := by rwa [strchr_eq_none, not_not] at hnone
  cases hp : strchr buf ':' with
  | none => simp only [hp, reduceCtorEq] at h
  | some p =>
    have hcolon : ':' ∈ cstr buf := by
      by_contra hmem
      rw [strchr_eq_none.2 hmem] at hp
      cases hp
    simp only [hp, cstr_set_strchr hp, set_strchr hp] at h
    refine ⟨hnl, hcolon, ?_⟩
    by_cases hlisted : (in_user_list users (loginOf (cstr buf))).isSome
    · rw [loginOf] at hlisted
      rw [if_pos hlisted] at h
      have hkept : keptLines users [cstr buf] = [] := by
        rw [keptLines, List.filter_cons_of_neg (by simpa [loginOf, Option.isSome_iff_ne_none] using hlisted),
          List.filter_nil]
      exact ⟨k, by rw [hkept]; simpa using h⟩
    · rw [loginOf] at hlisted
      rw [if_neg hlisted] at h
      by_cases hput : puts k ≠ 0
      · rw [if_pos hput] at h
        cases h
      rw [if_neg hput] at h
      have hkept : keptLines users [cstr buf] = [cstr buf] := by
        rw [keptLines, List.filter_cons_of_pos (by simpa [loginOf, Option.isSome_iff_ne_none] using hlisted),
          List.filter_nil]
      exact ⟨k + 1, by rw [hkept, List.flatten_singleton]; exact h⟩

/-- the pieces of a loop that does not give up are strings with a newline and a colon, and what it writes is what is
left of them -/
theorem copyLoop_ok {users : List Udat} {puts : ℕ → ℤ} {k : ℕ} {c c' : Copied} {bufs : List Str}
    (h : copyLoop users puts k c bufs = .ok c') : (∀ buf ∈ bufs, '\n' ∈ cstr buf ∧ ':' ∈ cstr buf) ∧
      c'.temp = c.temp ++ (keptLines users (bufs.map cstr)).flatten ∧
      c'.filesize = c.filesize + (keptLines users (bufs.map cstr)).flatten.length := by
  induction bufs generalizing k c with
  | nil =>
    cases h
    exact ⟨fun buf hbuf => absurd hbuf List.not_mem_nil, by simp [keptLines], by simp [keptLines]⟩
  | cons buf bufs ih =>
    obtain ⟨hnl, hcolon, k', hrest⟩ := copyLoop_cons h
    obtain ⟨hbufs, htemp, hsize⟩ := ih hrest
    have hsplit : (keptLines users ((buf :: bufs).map cstr)).flatten =
        (keptLines users [cstr buf]).flatten ++ (keptLines users (bufs.map cstr)).flatten := by
      rw [← List.flatten_append, keptLines, keptLines, keptLines, ← List.filter_append, List.map_cons,
        List.singleton_append]
    refine ⟨?_, ?_, ?_⟩
    · intro b hb
      rcases List.mem_cons.1 hb with rfl | hb
      · exact ⟨hnl, hcolon⟩
      · exact hbufs b hb
    · rw [htemp, hsplit, List.append_assoc]
    · rw [hsize, hsplit, List.length_append, Nat.add_assoc]

/-- a piece with its newline in front of any NUL has no NUL -/
theorem cstr_piece {n : ℕ} {s buf : Str} (hbuf : buf ∈ fgetsAll n s) (hnl : '\n' ∈ cstr buf) : cstr buf = buf := by
  obtain ⟨t, ht⟩ : cstr buf <+: buf := List.takeWhile_prefix _
  cases t with
  | nil => rwa [List.append_nil] at ht
  | cons d t =>
    have hlast := newline_not_mem_dropLast hbuf
    rw [← ht, List.dropLast_append_of_ne_nil (List.cons_ne_nil d t), List.mem_append, not_or] at hlast
    exact absurd hnl hlast.1

/-- **The copy loop.** Where it reaches the end of the file, it has read line by line, every line fits the buffer and
has a colon, and the lines that stay have been written. -/
theorem copyLoop_eof {users : List Udat} {puts : ℕ → ℤ} {master : Str} {c : Copied}
    (h : copyLoop users puts 0 ⟨[], 0⟩ (fgetsAll PASSWDBUF master) = .ok c) :
    (∀ line ∈ rawLines master, line.length < PASSWDBUF ∧ ':' ∈ line) ∧
      c.temp = (keptLines users (rawLines master)).flatten ∧ c.filesize = c.temp.length := by
  obtain ⟨hbufs, htemp, hsize⟩ := copyLoop_ok h
  have hcstr : (fgetsAll PASSWDBUF master).map cstr = fgetsAll PASSWDBUF master := by
    refine (List.map_congr_left fun buf hbuf => ?_).trans (List.map_id _)
    exact cstr_piece hbuf (hbufs buf hbuf).1
  have hlines : fgetsAll PASSWDBUF master = rawLines master :=
    fgetsAll_eq_rawLines (by decide) master fun buf hbuf => mem_of_mem_cstr (hbufs buf hbuf).1
  rw [hcstr, hlines, List.nil_append] at htemp
  rw [hcstr, hlines, Nat.zero_add, ← htemp] at hsize
  refine ⟨fun line hline => ?_, htemp, hsize⟩
  rw [← hlines] at hline
  have hlen := length_of_mem_fgetsAll hline
  refine ⟨?_, mem_of_mem_cstr (hbufs line hline).2⟩
  rw [PASSWDBUF] at hlen ⊢
  omega

/-! ## The rewrite -/

theorem keptLines_eq {us users : List Udat} (hs : SortsTo us users) (lines : List Str) :
    keptLines users lines = lines.filter fun line => some (loginOf line) ∉ us.map Udat.login := by
  refine List.filter_congr fun line _ => ?_
  have hmem := (hs.1.map Udat.login).mem_iff (a := some (loginOf line))
  have hlisted := in_user_list_isSome hs (loginOf line)
  rw [hmem] at hlisted
  by_cases hin : some (loginOf line) ∈ us.map Udat.login
  · simp [hin, hlisted.2 hin]
  · simp [hin, Option.not_isSome_iff_eq_none.1 fun h => hin (hlisted.1 h)]

/-- the loop gives up, and the lock file is removed -/
theorem zap_passwd_error {users : List Udat} {a : Answers} {master : Str}
    (h : ∀ c, copyLoop users a.puts 0 ⟨[], 0⟩ (fgetsAll PASSWDBUF master) ≠ .ok c) :
    zap_passwd users a master = if a.locks then .aborted else .unlocked := by
  rw [zap_passwd]
  cases hcopy : copyLoop users a.puts 0 ⟨[], 0⟩ (fgetsAll PASSWDBUF master) with
  | ok c => exact absurd hcopy (h c)
  | error e => cases a.locks <;> simp

theorem zap_passwd_installed {users : List Udat} {a : Answers} {master temp : Str}
    (h : zap_passwd users a master = .installed temp) :
    copyLoop users a.puts 0 ⟨[], 0⟩ (fgetsAll PASSWDBUF master) = .ok ⟨temp, temp.length⟩ := by
  rw [zap_passwd] at h
  cases hcopy : copyLoop users a.puts 0 ⟨[], 0⟩ (fgetsAll PASSWDBUF master) with
  | error e =>
    simp only [hcopy] at h
    split_ifs at h
  | ok c =>
    simp only [hcopy] at h
    split_ifs at h with _ _ _ _ hsize
    rw [not_not] at hsize
    have htemp := Rewrite.installed.inj h
    have hlen := (copyLoop_eof hcopy).2.2
    -- the temporary file is as long as what was written
    have hall : c.temp.take a.flushed = c.temp := by
      rw [hlen] at hsize
      exact List.take_of_length_le (by rw [List.length_take] at hsize; omega)
    rw [hall] at htemp
    rw [← htemp, ← hlen]

def granted : Answers := ⟨true, true, true, fun _ => 0, 100, true, true⟩

end MNetSoft.Zapuser
