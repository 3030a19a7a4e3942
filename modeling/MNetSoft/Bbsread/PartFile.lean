/-
The participation file (`pf.c`, the PicoSpan build): `pfwrite` and `pfread`. The file has a line with a magic number, a
line with the alias, and a line for each entry: item number, response count and date, with a '-' in front of the
count if the item is forgotten. A text is its bytes; `fgets` cuts lines at the size of its buffer and a C string ends
at a NUL.

- `readEntry_line`: the line of an entry is read back as that entry, the forgotten flag of a count of 0 included.
- `pfread_pfwrite`: the round trip.
-/
import Mathlib.Tactic
import MNetSoft.Core.Numerals
import MNetSoft.Bbsread.Part

namespace MNetSoft.Bbsread

open MNetSoft.CString
open MNetSoft.Numerals

/-! ## Model -/

def BFSZ : ℕ := 1024

/-- the first character in `s` that is in `l`, and on -/
def firstin (s l : Str) : Str := s.dropWhile fun c => !l.contains c

/-- the first character in `s` that is not in `l`, and on -/
def firstout (s l : Str) : Str := s.dropWhile fun c => l.contains c

/-- the magic code number, without its newline -/
def magic : Str := ['!', '<', 'p', 'r', '0', '3', '>']

/-- what `pfwrite` prints for an entry: the count as a number without a sign, behind a '-' if the item is forgotten -/
def Pfe.line (pf : Pfe) : Str :=
  printInt pf.item_no ++ ' ' ::
    ((if pf.forgotten then ['-'] else []) ++ (printInt pf.resp_no ++ ' ' :: printHex pf.date))

def writeLoop : List Pfe → Str
  | [] => []
  | pf :: rest => if !pf.delete then pf.line ++ '\n' :: writeLoop rest else writeLoop rest

/-- how `pfwrite` ends -/
inductive Written where
  | unused
  | cannotOpen
  | file (text : Str)
deriving DecidableEq, Repr

/-- `pfwrite`; `opens` says whether the file can be opened -/
def pfwrite (p : Pf) (opens : Bool) : Written :=
  if p.no_pf then .unused
  else if !opens then .cannotOpen
  else .file (magic ++ '\n' :: (cstr p.aliasbuf ++ '\n' :: writeLoop p.pflist))

/-- an entry from a line in the buffer; `none` for a line in weird format -/
def readEntry (buf : Str) : Option Pfe :=
  if ¬ StartsWithDigit 10 buf then none
  else
    let t := firstout (firstin buf [' ']) [' ']
    let forgotten := decide (t.head? = some '-')
    let t := if forgotten then t.tail else t
    match scanInt t with
    | none => none
    | some (resp_no, t) =>
      match scanHex (skipSpace t) with
      | none => none
      | some (date, _) => some ⟨atoi buf, resp_no, forgotten, resp_no, date, false⟩

/-- how `pfread` ends: there is no file, it is in weird format, or it is read -/
inductive ReadResult where
  | missing
  | weird
  | read (p : Pf)
deriving DecidableEq, Repr

/-- `pfread`: `here` and `home` are the contents of the file under its full path and in the home directory, if it can
be opened there. With no entry in the file, `pflist` is what it was. -/
def pfread (p : Pf) (here home : Option Str) : ReadResult :=
  match here.or home with
  | none => .missing
  | some file =>
    match fgets BFSZ file with
    | none => .weird
    | some (buf, file) =>
      if strcmp (cstr buf) (magic ++ ['\n']) ≠ 0 then .weird
      else
        match fgets BFSZ file with
        | none => .weird
        | some (aliasbuf, file) =>
          match (fgetsAll BFSZ file).mapM fun buf => readEntry (cstr buf) with
          | none => .weird
          | some entries =>
            .read ⟨(cstr aliasbuf).takeWhile (· ≠ '\n'), if entries = [] then p.pflist else entries, false⟩

def start : Pf := ⟨[], [], true⟩

/-! ## An entry -/

/-- an entry whose item number and count are ints and not negative -/
structure Pfe.Counted (pf : Pfe) : Prop where
  item_nonneg : 0 ≤ pf.item_no
  item_le : pf.item_no ≤ INT_MAX
  resp_nonneg : 0 ≤ pf.resp_no
  resp_le : pf.resp_no ≤ INT_MAX

/-- what comes back of an entry: the count of the file is the one written -/
def Pfe.reloaded (pf : Pfe) : Pfe := { pf with old_resp_no := pf.resp_no, delete := false }

theorem firstin_append {s : Str} {c : Char} (h : c ∉ s) (t : Str) : firstin (s ++ c :: t) [c] = c :: t := by
  rw [firstin, List.dropWhile_append_of_pos]
  · exact List.dropWhile_cons_of_neg (by simp)
  · intro a ha
    have hac : a ≠ c := fun hac => h (hac ▸ ha)
    simpa using hac

theorem firstout_cons {c : Char} {t : Str} (h : ∀ a ∈ t.head?, a ≠ c) : firstout (c :: t) [c] = t := by
  rw [firstout, List.dropWhile_cons_of_pos (by simp)]
  cases t with
  | nil => rfl
  | cons a t => exact List.dropWhile_cons_of_neg (by simpa using h a rfl)

theorem scanHex_date (date : BitVec 64) :
    scanHex (skipSpace (' ' :: (printHex date ++ ['\n']))) = some (date, ['\n']) := by
  have hnl : ¬ StartsWithDigit 16 ['\n'] := by decide
  have hstart : StartsWithDigit 16 (printHex date ++ ['\n']) :=
    startsWithDigit_toDigits (by norm_num) digit_hex _ _
  have hx : ∀ c ∈ ['\n'].head?, c ≠ 'x' ∧ c ≠ 'X' := by
    intro c hc
    cases hc
    decide
  rw [skipSpace_cons (by decide), skipSpace_of_digit hstart]
  exact scanHex_printHex date hnl hx

/-- **The line of an entry is read back**, with or without a sign for forgotten. -/
theorem readEntry_line {pf : Pfe} (h : pf.Counted) : readEntry (pf.line ++ ['\n']) = some pf.reloaded := by
  have hi : pf.item_no < 2 ^ 31 := by have := h.item_le; rw [INT_MAX] at this; omega
  have hr : pf.resp_no < 2 ^ 31 := by have := h.resp_le; rw [INT_MAX] at this; omega
  have hitem0 := h.item_nonneg
  have hresp0 := h.resp_nonneg
  have hspace : digit 10 ' ' = none := by decide
  -- the text behind the sign, and behind the item number
  set tail : Str := printInt pf.resp_no ++ ' ' :: (printHex pf.date ++ ['\n']) with htail
  set sign : Str := if pf.forgotten then ['-'] else [] with hsign
  have hline : pf.line ++ ['\n'] = printInt pf.item_no ++ ' ' :: (sign ++ tail) := by
    simp only [Pfe.line, htail, hsign, List.append_assoc, List.cons_append]
  have hstart : StartsWithDigit 10 (pf.line ++ ['\n']) := hline ▸ startsWithDigit_printInt hitem0 _
  have hatoi : atoi (pf.line ++ ['\n']) = pf.item_no :=
    hline ▸ atoi_printInt hitem0 hi (not_startsWithDigit_cons hspace _)
  obtain ⟨d, hd, hdig⟩ := startsWithDigit_printInt hresp0 (' ' :: (printHex pf.date ++ ['\n']))
  have hhead : tail.head? = some d := hd
  have hd1 : d ≠ '-' := by rintro rfl; exact absurd hdig (by decide)
  have hd2 : d ≠ ' ' := by rintro rfl; exact absurd hdig (by decide)
  have ht : firstout (firstin (pf.line ++ ['\n']) [' ']) [' '] = sign ++ tail := by
    have hnot : ∀ a ∈ (sign ++ tail).head?, a ≠ ' ' := by
      intro a ha
      rw [hsign] at ha
      split_ifs at ha
      · cases ha
        decide
      · rw [List.nil_append, hhead] at ha
        cases ha
        exact hd2
    calc firstout (firstin (pf.line ++ ['\n']) [' ']) [' '] = firstout (' ' :: (sign ++ tail)) [' '] := by
          rw [hline, firstin_append (not_mem_printInt hitem0 hspace)]
      _ = sign ++ tail := firstout_cons hnot
  have hscan : scanInt tail = some (pf.resp_no, ' ' :: (printHex pf.date ++ ['\n'])) :=
    scanInt_printInt (by omega) hr (not_startsWithDigit_cons hspace _)
  have hhex := scanHex_date pf.date
  have hforgotten : decide ((sign ++ tail).head? = some '-') = pf.forgotten := by
    rw [hsign]
    cases pf.forgotten with
    | true => rfl
    | false =>
      rw [if_neg Bool.false_ne_true, List.nil_append, hhead]
      exact decide_eq_false fun hd => hd1 (Option.some.inj hd)
  have hsigned : (if pf.forgotten then (sign ++ tail).tail else sign ++ tail) = tail := by
    rw [hsign]
    split_ifs
    · rfl
    · rfl
  rw [readEntry, if_neg (not_not.2 hstart)]
  simp only [ht, hforgotten, hsigned, hscan, hhex, hatoi]
  rfl

theorem length_line_le {pf : Pfe} (h : pf.Counted) : pf.line.length ≤ 41 := by
  obtain ⟨h1, h2, h3, h4⟩ := h
  rw [INT_MAX] at h2 h4
  have hitem := length_printInt_le (n := pf.item_no) (by omega) (by omega)
  have hresp := length_printInt_le (n := pf.resp_no) (by omega) (by omega)
  have hdate := length_printHex_le pf.date
  simp only [Pfe.line, List.length_append, List.length_cons]
  split_ifs
  · rw [List.length_singleton]
    omega
  · rw [List.length_nil]
    omega

theorem not_mem_line {pf : Pfe} (h : pf.Counted) {c : Char} (h10 : digit 10 c = none) (h16 : digit 16 c = none)
    (hc : c ∉ [' ', '-']) : c ∉ pf.line := by
  have hitem := not_mem_printInt h.item_nonneg h10
  have hresp := not_mem_printInt h.resp_nonneg h10
  have hdate := not_mem_printHex pf.date h16
  have hspace : c ≠ ' ' := fun heq => hc (heq ▸ List.mem_cons_self)
  have hminus : c ≠ '-' := fun heq => hc (heq ▸ List.mem_cons_of_mem _ List.mem_cons_self)
  simp only [Pfe.line, List.mem_append, List.mem_cons, not_or]
  refine ⟨hitem, hspace, ?_, hresp, hspace, hdate⟩
  split_ifs
  · simpa using hminus
  · exact List.not_mem_nil

/-! ## The file -/

theorem writeLoop_eq (l : List Pfe) : writeLoop l = unlines ((l.filter fun pf => !pf.delete).map Pfe.line) := by
  induction l with
  | nil => rfl
  | cons pf l ih =>
    rw [writeLoop, List.filter_cons]
    split_ifs
    · rw [ih]
      simp [unlines]
    · exact ih

/-- the loop of `pfread` on what the loop of `pfwrite` wrote -/
theorem readLoop_writeLoop {l : List Pfe} (h : ∀ pf ∈ l, pf.Counted) :
    (fgetsAll BFSZ (writeLoop l)).mapM (fun buf => readEntry (cstr buf)) =
      some ((l.filter fun pf => !pf.delete).map Pfe.reloaded) := by
  have hkept : ∀ pf ∈ l.filter (fun pf => !pf.delete), pf.Counted := fun pf hpf => h pf (List.mem_of_mem_filter hpf)
  rw [writeLoop_eq]
  generalize (l.filter fun pf => !pf.delete) = kept at hkept
  have hlines : ∀ s ∈ kept.map Pfe.line, '\n' ∉ s ∧ s.length + 1 < BFSZ := by
    intro s hs
    obtain ⟨pf, hpf, rfl⟩ := List.mem_map.1 hs
    have hlen := length_line_le (hkept pf hpf)
    exact ⟨not_mem_line (hkept pf hpf) (by decide) (by decide) (by decide), by rw [BFSZ]; omega⟩
  rw [fgetsAll_lines _ hlines, List.map_map]
  clear hlines h
  induction kept with
  | nil => rfl
  | cons pf kept ih =>
    obtain ⟨hpf, hrest⟩ := List.forall_mem_cons.1 hkept
    have hcstr : cstr (pf.line ++ ['\n']) = pf.line ++ ['\n'] := by
      apply cstr_of_not_mem
      intro hmem
      rcases List.mem_append.1 hmem with hmem | hmem
      · exact not_mem_line hpf (by decide) (by decide) (by decide) hmem
      · exact absurd hmem (by decide)
    rw [List.map_cons, List.mapM_cons, List.map_cons]
    simp only [Function.comp_apply, hcstr, readEntry_line hpf, ih hrest]
    rfl

/-! ## Main result -/

/-- **Participation file round trip.** What `pfwrite` writes is accepted by `pfread` when a program starts, which yields
the same alias and the entries not marked `delete`, in order. -/
theorem pfread_pfwrite {p : Pf} (hpf : p.no_pf = false) (hnl : '\n' ∉ cstr p.aliasbuf)
    (hlen : (cstr p.aliasbuf).length < BFSZ - 1) (hcount : ∀ pf ∈ p.pflist, pf.Counted) :
    ∃ text, pfwrite p true = .file text ∧ ∀ home, pfread start (some text) home =
      .read ⟨cstr p.aliasbuf, (p.pflist.filter fun pf => !pf.delete).map Pfe.reloaded, false⟩ := by
  refine ⟨magic ++ '\n' :: (cstr p.aliasbuf ++ '\n' :: writeLoop p.pflist), ?_, ?_⟩
  · rw [pfwrite, hpf]
    rfl
  · intro home
    have hread1 : fgets BFSZ (magic ++ '\n' :: (cstr p.aliasbuf ++ '\n' :: writeLoop p.pflist)) =
        some (magic ++ ['\n'], cstr p.aliasbuf ++ '\n' :: writeLoop p.pflist) :=
      fgets_line (by decide) (by decide) _
    have hread2 : fgets BFSZ (cstr p.aliasbuf ++ '\n' :: writeLoop p.pflist) =
        some (cstr p.aliasbuf ++ ['\n'], writeLoop p.pflist) :=
      fgets_line hnl (by omega) _
    have hmagic : strcmp (cstr (magic ++ ['\n'])) (magic ++ ['\n']) = 0 := by
      rw [strcmp_zero]
      exact cstr_of_not_mem (by decide)
    have halias : (cstr (cstr p.aliasbuf ++ ['\n'])).takeWhile (· ≠ '\n') = cstr p.aliasbuf := by
      rw [cstr_of_not_mem]
      · exact takeWhile_line hnl []
      · intro hmem
        rcases List.mem_append.1 hmem with hmem | hmem
        · exact nul_not_mem_cstr _ hmem
        · exact absurd hmem (by decide)
    have hlist : ∀ l : List Pfe, (if l = [] then start.pflist else l) = l := by
      intro l
      split_ifs with hl
      · exact hl.symm
      · rfl
    simp only [pfread, Option.or, hread1, hmagic, ne_eq, not_true_eq_false, if_false, hread2, halias,
      readLoop_writeLoop hcount, hlist]

/-- a list with a forgotten item of which nothing has been read, and a deleted one -/
theorem pfread_pfwrite_unseen :
    let p : Pf := ⟨['j', 'o', 'e'],
      [⟨3, 0, true, 0, 0, false⟩, ⟨4, 2, false, 2, 255, true⟩, ⟨5, 12, true, 0, -1, false⟩], false⟩
    ∃ text, pfwrite p true = .file text ∧ ∀ home, pfread start (some text) home =
      .read ⟨cstr p.aliasbuf, (p.pflist.filter fun pf => !pf.delete).map Pfe.reloaded, false⟩ := by
  refine pfread_pfwrite rfl (by decide) (by decide) ?_
  intro pf hpf
  simp only [List.mem_cons, List.not_mem_nil, or_false] at hpf
  rcases hpf with rfl | rfl | rfl
  · exact ⟨by decide, by decide, by decide, by decide⟩
  · exact ⟨by decide, by decide, by decide, by decide⟩
  · exact ⟨by decide, by decide, by decide, by decide⟩

end MNetSoft.Bbsread
