/-
Who is a banker: `am_banker` of `bank.c`, which looks for a login in a file of logins, one a line. `fgets` fills a
buffer of 20 bytes, so that a line comes in pieces of at most 19 characters, its newline among them. The last
character of a piece is taken for the newline: what is compared is the piece without it, or as much as the login is
long.
- `matches_iff`: a piece is taken for a login if it is the login, or the login and one character more.
- `am_banker_iff`: when this is right.
- `last_line_unended`: a file whose last line lacks its newline.
-/
import Mathlib.Tactic
import MNetSoft.Core.CString

namespace MNetSoft.Bank

open MNetSoft.CString

/-! ## Model -/

/-- a login, as `main` keeps it in `myid[33]` -/
structure LoginId where
  id : Str
  length_le : id.length ≤ 32
  no_nul : '\x00' ∉ id
  no_newline : '\n' ∉ id

/-- the loop of `am_banker` over what `fgets` delivers -/
def bankerLoop (id : Str) : List Str → ℤ
  | [] => 0
  | buf :: rest =>
    let buf := cstr buf
    let buflen : ℤ := buf.length - 1
    let idlen : ℤ := if buflen > id.length then buflen else id.length
    if strncmp id buf idlen.toNat = 0 then 1 else bankerLoop id rest

/-- determine if the user "id" is a banker -/
def am_banker (bankers : Option Str) (id : Str) : ℤ :=
  match bankers with
  | none => 0
  | some file => bankerLoop id (fgetsAll 20 file)

/-- the logins in a file, one a line -/
def logins (file : Str) : List Str := (rawLines file).map fun l => l.takeWhile (· ≠ '\n')

/-! ## What a piece is taken for -/

/-- a piece of a line is taken for the login -/
def Matches (id buf : Str) : Prop := buf = id ∨ ∃ c, buf = id ++ [c]

theorem matches_iff (id buf : Str) :
    strncmp id buf (max (buf.length - 1) id.length) = 0 ↔ Matches id buf := by
  rw [strncmp, strcmp_zero, List.take_of_length_le (le_max_right _ _)]
  rcases List.eq_nil_or_concat buf with rfl | ⟨init, c, rfl⟩
  · rw [List.take_nil]
    refine ⟨fun h => Or.inl h.symm, ?_⟩
    intro hx
    rcases hx with h | ⟨c, h⟩
    · exact h.symm
    · exact absurd h (by simp)
  rw [List.concat_eq_append, List.length_append, List.length_singleton, Nat.add_sub_cancel]
  rcases Nat.lt_or_ge init.length id.length with hlt | hge
  · -- the login is at least as long as the piece
    rw [max_eq_right hlt.le, List.take_of_length_le (by simpa using hlt)]
    refine ⟨fun h => Or.inl h.symm, ?_⟩
    intro hx
    rcases hx with h | ⟨d, h⟩
    · exact h.symm
    · rw [← (List.append_inj' h rfl).1] at hlt
      exact absurd hlt (lt_irrefl _)
  · rw [max_eq_left hge, List.take_left]
    refine ⟨fun h => Or.inr ⟨c, by rw [h]⟩, ?_⟩
    intro hx
    rcases hx with h | ⟨d, h⟩
    · rw [← h, List.length_append] at hge
      simp at hge
    · exact (List.append_inj' h rfl).1.symm

theorem bankerLoop_eq_one {id : Str} {bufs : List Str} :
    bankerLoop id bufs = 1 ↔ ∃ buf ∈ bufs, Matches id (cstr buf) := by
  induction bufs with
  | nil => simp [bankerLoop]
  | cons buf bufs ih =>
    have hlen : (if ((cstr buf).length : ℤ) - 1 > id.length then ((cstr buf).length : ℤ) - 1 else id.length).toNat =
        max ((cstr buf).length - 1) id.length := by
      split_ifs <;> omega
    rw [bankerLoop, hlen, List.exists_mem_cons_iff, ← matches_iff id (cstr buf)]
    split_ifs with h
    · simp [h]
    · simp [h, ih]

theorem am_banker_eq_one {file id : Str} :
    am_banker (some file) id = 1 ↔ ∃ l ∈ rawLines file, ∃ buf ∈ fgetsAll 20 l, Matches id (cstr buf) := by
  rw [am_banker, bankerLoop_eq_one, fgetsAll_rawLines (by norm_num)]
  simp only [List.mem_flatMap]
  exact ⟨fun ⟨buf, ⟨l, hl, hbuf⟩, h⟩ => ⟨l, hl, buf, hbuf, h⟩, fun ⟨l, hl, buf, hbuf, h⟩ => ⟨buf, ⟨l, hl, hbuf⟩, h⟩⟩

/-! ## When this is right -/

/-- `am_banker` is right about a login -/
def RightAbout (file : Str) (id : LoginId) : Prop := am_banker (some file) id.id = 1 ↔ id.id ∈ logins file

/-- a line that `fgets` does not deliver whole with its newline at the end -/
def Misleading (l : Str) : Prop := '\n' ∉ l ∨ 20 ≤ l.length ∨ '\x00' ∈ l

instance (l : Str) : Decidable (Misleading l) := by unfold Misleading; infer_instance

/-- a login in the file is not too long, and a login not in the file is not what such a line is taken for -/
def Harmless (file : Str) (id : LoginId) : Prop :=
  (id.id ∈ logins file → id.id.length ≤ 19) ∧
    (id.id ∉ logins file → ∀ l ∈ rawLines file, Misleading l → ∀ buf ∈ fgetsAll 20 l, ¬ Matches id.id (cstr buf))

/-- a line of a file is a last one without a newline, or ends with its newline -/
theorem rawLines_cases {file l : Str} (h : l ∈ rawLines file) :
    ('\n' ∉ l ∧ l ≠ []) ∨ ∃ t, '\n' ∉ t ∧ l = t ++ ['\n'] := by
  induction file using file_induction with
  | nil => cases h
  | last t ht hne =>
    rw [rawLines_last ht hne, List.mem_singleton] at h
    subst h
    exact Or.inl ⟨ht, hne⟩
  | line t rest ht ih =>
    rw [rawLines_line ht, List.mem_cons] at h
    rcases h with rfl | h
    · exact Or.inr ⟨t, ht, rfl⟩
    · exact ih h

theorem login_of_matches {l : Str} {id : LoginId} (hl : ¬ Misleading l)
    (hlast : '\n' ∉ l ∨ ∃ t, '\n' ∉ t ∧ l = t ++ ['\n'])
    (h : ∃ buf ∈ fgetsAll 20 l, Matches id.id (cstr buf)) : l.takeWhile (· ≠ '\n') = id.id := by
  rw [Misleading, not_or, not_or, not_not, not_le] at hl
  obtain ⟨hnl, hshort, hnul⟩ := hl
  obtain ⟨t, ht, rfl⟩ := hlast.resolve_left (not_not.2 hnl)
  rw [List.length_append, List.length_singleton] at hshort
  have hwhole : fgetsAll 20 (t ++ ['\n']) = [t ++ ['\n']] :=
    (fgetsAll_cons (by norm_num) (fgets_line ht (by omega) [])).trans rfl
  obtain ⟨buf, hbuf, h⟩ := h
  rw [hwhole, List.mem_singleton] at hbuf
  rw [hbuf, cstr_of_not_mem hnul] at h
  rw [takeWhile_line ht]
  rcases h with h | ⟨c, h⟩
  · exact absurd (by rw [← h]; simp) id.no_newline
  · exact (List.append_inj' h rfl).1

theorem matches_of_login {file : Str} {id : LoginId} (hlen : id.id.length ≤ 19) (h : id.id ∈ logins file) :
    ∃ l ∈ rawLines file, ∃ buf ∈ fgetsAll 20 l, Matches id.id (cstr buf) := by
  obtain ⟨l, hl, hid⟩ := List.mem_map.1 h
  refine ⟨l, hl, ?_⟩
  rcases rawLines_cases hl with ⟨hnl, hne⟩ | ⟨t, ht, rfl⟩
  · -- the last line is one piece
    have hall : l.takeWhile (· ≠ '\n') = l := by
      rw [List.takeWhile_eq_self_iff]
      intro c hc
      simp only [ne_eq, decide_eq_true_eq]
      rintro rfl
      exact hnl hc
    obtain rfl : l = id.id := hall.symm.trans hid
    have hget : fgets 20 id.id = some (id.id, []) := by rw [fgets, if_neg hne, takeLine_all hnl hlen]
    refine ⟨id.id, ?_, Or.inl (cstr_of_not_mem id.no_nul)⟩
    rw [fgetsAll_cons (by norm_num) hget]
    exact List.mem_cons_self
  · rw [takeWhile_line ht] at hid
    subst hid
    rcases Nat.lt_or_ge id.id.length 19 with hlt | hge
    · have hget := fgets_line ht (show id.id.length + 1 < 20 by omega) []
      refine ⟨id.id ++ ['\n'], ?_, Or.inr ⟨'\n', cstr_of_not_mem (by simp [id.no_nul])⟩⟩
      rw [fgetsAll_cons (by norm_num) hget]
      exact List.mem_cons_self
    · -- the newline is a piece of its own
      have hget : fgets 20 (id.id ++ ['\n']) = some (id.id, ['\n']) := by
        rw [fgets, if_neg (by simp), takeLine_full ht (le_antisymm hlen hge)]
      refine ⟨id.id, ?_, Or.inl (cstr_of_not_mem id.no_nul)⟩
      rw [fgetsAll_cons (by norm_num) hget]
      exact List.mem_cons_self

/-- **Bankers.** `am_banker` is right about a login if and only if the login, when it is in the file, has at most 19
characters, and, when it is not, no piece of a line that is not delivered whole with its newline is the login or the
login and one character more. -/
theorem am_banker_iff (file : Str) (id : LoginId) : RightAbout file id ↔ Harmless file id := by
  rw [RightAbout, Harmless, am_banker_eq_one]
  by_cases hin : id.id ∈ logins file
  · simp only [hin, iff_true, forall_const, not_true_eq_false, false_implies, and_true]
    refine ⟨?_, fun hlen => matches_of_login hlen hin⟩
    intro hx
    rcases hx with ⟨l, -, buf, hbuf, hmatch⟩
    -- a piece has at most 19 characters
    have hle := length_of_mem_fgetsAll hbuf
    have hcstr := length_cstr_le buf
    rcases hmatch with h | ⟨c, h⟩
    · rw [h] at hcstr
      omega
    · rw [h, List.length_append] at hcstr
      omega
  · simp only [hin, iff_false, false_implies, not_false_eq_true, forall_const, true_and]
    refine ⟨fun h l hl _ buf hbuf hmatch => h ⟨l, hl, buf, hbuf, hmatch⟩, ?_⟩
    intro h hx
    rcases hx with ⟨l, hl, hmatch⟩
    by_cases hmis : Misleading l
    · obtain ⟨buf, hbuf, hmatch⟩ := hmatch
      exact h l hl hmis buf hbuf hmatch
    · have hlast := (rawLines_cases hl).imp_left And.left
      exact hin (List.mem_map.2 ⟨l, hl, login_of_matches hmis hlast hmatch⟩)

def bobb : LoginId := ⟨['b', 'o', 'b', 'b'], by decide, by decide, by decide⟩

/-- bobby's is the only login in the file, and its line lacks the newline -/
def unended : Str := ['b', 'o', 'b', 'b', 'y']

/-- **A last line without a newline.** Not only bobby is a banker, but bobb is, too. -/
theorem last_line_unended : logins unended = [unended] ∧ am_banker (some unended) bobb.id = 1 ∧
    ¬ RightAbout unended bobb := by
  have hone : am_banker (some unended) bobb.id = 1 := by decide
  refine ⟨by decide, hone, fun h => ?_⟩
  exact absurd (h.1 hone) (by decide)

end MNetSoft.Bank
