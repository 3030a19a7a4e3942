/-
The line of the log file about a process (`scanproc.c`): its command line, made of its arguments by `save_args`, and the
formatting of the line by `write_orph`.

`save_args` looks at the character before the place it writes to, also when nothing has been written. `write_orph` keeps
the space that is left in `bl`, but does not take the first two texts off it (`bl -+ strlen(bp)`).
- `write_orph`: the stores into the buffer; `none` if one is outside of it.
- `save_args_right_iff`: for which arguments the command line is right.
- `write_orph_isSome_iff`: for which processes the line fits.
- `line_right_iff`: both.
- `no_name_long_line`: an empty first argument, and a process with long names.
-/
import Mathlib.Tactic
import MNetSoft.Core.Memory
import MNetSoft.Core.Numerals
import MNetSoft.Robocop.Scan

namespace MNetSoft.Robocop

open MNetSoft.CString MNetSoft.Numerals MNetSoft.Memory

/-! ## The command line -/

/-- a text behind a character, runs of blanks being reduced to one -/
def squeezeAfter (prev : Char) : Str → Str
  | [] => []
  | c :: s => if c = ' ' ∧ prev = ' ' then squeezeAfter prev s else c :: squeezeAfter c s

/-- a text with runs of blanks reduced to one -/
def squeeze : Str → Str
  | [] => []
  | c :: s => c :: squeezeAfter c s

/-- nothing before the buffer is read, and the command line is that of the arguments -/
def SaveRight (argv : List Str) : Prop :=
  save_args argv = some ((squeeze (List.intercalate [' '] argv)).take MAXCALEN)

/-- the first argument, if there is anything, begins with a character other than a blank -/
def StartsPlain (argv : List Str) : Prop :=
  argv = [] ∨ argv = [[]] ∨ ∃ c a arg, argv = (c :: a) :: arg ∧ c ≠ ' '

/-- a full buffer stays as it is -/
theorem saveArg_full {buf : Str} (h : MAXCALEN ≤ buf.length) (p : Str) : saveArg buf p = some buf := by
  cases p with
  | nil => rfl
  | cons c p => rw [saveArg, if_neg (not_lt.2 h)]

theorem saveArg_append (buf p q : Str) : saveArg buf (p ++ q) = (saveArg buf p).bind fun buf => saveArg buf q := by
  induction p generalizing buf with
  | nil => rfl
  | cons c p ih =>
    rw [List.cons_append, saveArg, saveArg]
    by_cases h : buf.length < MAXCALEN
    · rw [if_pos h, if_pos h, Option.bind_assoc]
      exact Option.bind_congr fun keep _ => ih _
    · rw [if_neg h, if_neg h, Option.bind_some, saveArg_full (not_lt.1 h)]

theorem endsWord_concat (b : Str) (prev : Char) : endsWord (b ++ [prev]) = some (prev != ' ') := by
  simp [endsWord]

/-- the buffer with a text behind it -/
theorem saveArg_concat (b : Str) (prev : Char) (p : Str) (h : (b ++ [prev]).length ≤ MAXCALEN) :
    saveArg (b ++ [prev]) p = some ((b ++ [prev] ++ squeezeAfter prev p).take MAXCALEN) := by
  induction p generalizing b prev with
  | nil => rw [saveArg, squeezeAfter, List.append_nil, List.take_of_length_le h]
  | cons c p ih =>
    by_cases hfull : MAXCALEN ≤ (b ++ [prev]).length
    · rw [saveArg_full hfull, List.take_append_of_le_length hfull, List.take_of_length_le h]
    · have hlen : (b ++ [prev] ++ [c]).length ≤ MAXCALEN := by
        rw [List.length_append, List.length_singleton]
        omega
      rw [saveArg, if_pos (not_le.1 hfull), endsWord_concat, squeezeAfter]
      by_cases hc : c = ' '
      · by_cases hp : prev = ' '
        · -- a blank behind a blank is dropped
          simp only [hc, hp, bne_self_eq_false, Bool.false_eq_true, if_false, Option.bind_some, and_self, if_true]
          rw [← hp]
          exact ih b prev h
        · have hkeep : (prev != ' ') = true := bne_iff_ne.2 hp
          simp only [hc, hp, hkeep, bne_self_eq_false, Bool.false_eq_true, if_false, if_true, Option.bind_some,
            and_false]
          rw [hc] at hlen
          rw [ih (b ++ [prev]) ' ' hlen, List.append_assoc (b ++ [prev]), List.singleton_append]
      · have hkeep : (c != ' ') = true := bne_iff_ne.2 hc
        simp only [hc, hkeep, if_true, Option.bind_some, false_and, if_false]
        rw [ih (b ++ [prev]) c hlen, List.append_assoc (b ++ [prev]), List.singleton_append]

theorem saveArg_some {buf : Str} (hne : buf ≠ []) (h : buf.length ≤ MAXCALEN) (p : Str) :
    ∃ buf', saveArg buf p = some buf' ∧ buf' ≠ [] ∧ buf'.length ≤ MAXCALEN := by
  rcases List.eq_nil_or_concat buf with rfl | ⟨b, prev, rfl⟩
  · exact absurd rfl hne
  · rw [List.concat_eq_append] at h ⊢
    refine ⟨_, saveArg_concat b prev p h, ?_, List.length_take_le _ _⟩
    rw [ne_eq, List.take_eq_nil_iff]
    simp [MAXCALEN]

/-- the other arguments, each with the blank before it -/
theorem saveRest_eq {buf : Str} (hne : buf ≠ []) (h : buf.length ≤ MAXCALEN) (arg : List Str) :
    saveRest buf arg = saveArg buf (arg.flatMap (' ' :: ·)) := by
  induction arg generalizing buf with
  | nil => rfl
  | cons a arg ih =>
    rw [List.flatMap_cons, saveRest, saveArg_append]
    by_cases hroom : buf.length < MAXCALEN
    · -- the blank and the argument are saved as one text
      have hstep : saveArg buf (' ' :: a) =
          (endsWord buf).bind fun sep => saveArg (if sep then buf ++ [' '] else buf) a := by
        rw [saveArg, if_pos hroom]
        rfl
      obtain ⟨buf', hbuf', hne', h'⟩ := saveArg_some hne h (' ' :: a)
      rw [if_pos hroom, ← Option.bind_assoc, ← hstep, hbuf', Option.bind_some, Option.bind_some]
      exact ih hne' h'
    · rw [if_neg hroom, saveArg_full (not_lt.1 hroom), Option.bind_some, saveArg_full (not_lt.1 hroom)]

theorem intercalate_cons (a : Str) (arg : List Str) :
    List.intercalate [' '] (a :: arg) = a ++ arg.flatMap (' ' :: ·) := by
  induction arg generalizing a with
  | nil => simp
  | cons x arg ih => rw [List.intercalate_cons_cons, ih, List.flatMap_cons, List.append_assoc]; rfl

/-- **The command line.** It is right if and only if the first argument begins with a character other than a blank, or
there is nothing in it and no other. -/
theorem save_args_right_iff (argv : List Str) : SaveRight argv ↔ StartsPlain argv := by
  unfold SaveRight StartsPlain
  rcases argv with _ | ⟨_ | ⟨c, a⟩, arg⟩
  · simp [save_args, squeeze]
  · rcases arg with _ | ⟨x, arg⟩
    · simp [save_args, saveArg, saveRest, squeeze]
    · simp [save_args, saveArg, saveRest, endsWord, MAXCALEN]
  · by_cases hc : c = ' '
    · subst hc
      simp [save_args, saveArg, endsWord, MAXCALEN]
    · have hkeep : (c != ' ') = true := bne_iff_ne.2 hc
      have hstart : saveArg [] (c :: a) = saveArg ([] ++ [c]) a := by
        simp only [saveArg, hkeep, if_true, Option.bind_some]
        rfl
      have hlen : ([] ++ [c]).length ≤ MAXCALEN := by simp [MAXCALEN]
      have hsave : save_args ((c :: a) :: arg) = saveArg ([] ++ [c]) (a ++ arg.flatMap (' ' :: ·)) := by
        obtain ⟨buf', hbuf', hne', h'⟩ := saveArg_some (by simp) hlen a
        rw [save_args, hstart, saveArg_append, hbuf', Option.bind_some, Option.bind_some, saveRest_eq hne' h']
      rw [hsave, saveArg_concat [] c _ hlen, intercalate_cons]
      simp [squeeze, hc]

/-! ## The line -/

/-- what the system tells: the time as a text of a fixed length, and the name of a device -/
structure Names where
  ctime : ℤ → Str
  ctime_length : ∀ t, (ctime t).length = 25
  devname : dev_t → Str

/-- `%6d %6d ` -/
def pids (mp : Proc) : Str :=
  (printInt mp.pid.toInt).leftpad 6 ' ' ++ [' '] ++ (printInt mp.ppid.toInt).leftpad 6 ' ' ++ [' ']

/-- `%s (%d/%d)` -/
def owner (mp : Proc) : Str :=
  mp.user ++ [' ', '('] ++ printInt mp.uid.toInt ++ ['/'] ++ printInt mp.euid.toInt ++ [')']

/-- `%-8.8s `, or that there is no tty -/
def tty (w : Names) (mp : Proc) : Str :=
  if mp.has_ctty then ((w.devname mp.ctty).take 8).rightpad 8 ' ' ++ [' '] else "(no tty) ".toList

/-- `%s (%s)\n`, without the command if there is none -/
def command (mp : Proc) : Str :=
  if mp.comm ≠ [] then mp.args ++ [' ', '('] ++ mp.comm ++ [')', '\n'] else mp.args ++ ['\n']

/-- store a string and its NUL -/
def put (buf : Str) (bp : ℕ) (s : Str) : Option Str := blit buf bp (s ++ ['\x00'])

/-- the line that is written, `buf` being the buffer as it is found; `none` if something is stored outside of it -/
def write_orph (w : Names) (buf : Str) (mp : Proc) : Option Str := do
  let bl := 100 + MAXCALEN
  let s := (pids mp).take (bl - 1)
  let buf ← put buf 0 s
  let bp := s.length
  -- `bl -+ strlen(bp)` leaves `bl` as it is, here and below
  let s := (owner mp).take (bl - 1)
  let buf ← put buf bp s
  let bp := bp + s.length
  let buf ← blit buf bp (List.replicate (32 - bp) ' ')
  let bp := max bp 32
  let buf ← put buf bp (strlcpy ((w.ctime mp.start.1).drop 11) bl)
  let bl := bl - 9
  let buf ← blit buf (bp + 8) [' ']
  let bp := bp + 9
  let s := (tty w mp).take (bl - 1)
  let buf ← put buf bp s
  let bl := bl - s.length
  let bp := bp + s.length
  let buf ← put buf bp ((command mp).take (bl - 1))
  return cstr buf

theorem exists_blit (buf : Str) (i : ℕ) (new : Str) (h : i + new.length ≤ buf.length) :
    ∃ buf', blit buf i new = some buf' ∧ buf'.length = buf.length := by
  have hfit : blit buf i new = some (buf.take i ++ new ++ buf.drop (i + new.length)) := by rw [blit, if_pos h]
  exact ⟨_, hfit, length_blit hfit⟩

theorem exists_put (buf : Str) (i : ℕ) (s : Str) (h : i + s.length + 1 ≤ buf.length) :
    ∃ buf', put buf i s = some buf' ∧ buf'.length = buf.length :=
  exists_blit buf i _ (by rw [List.length_append, List.length_singleton]; omega)

theorem length_printInt_toInt (x : BitVec 32) : (printInt x.toInt).length ≤ 11 :=
  length_printInt_le x.le_toInt x.toInt_lt

theorem length_pids_le (mp : Proc) : (pids mp).length ≤ 24 := by
  have h1 := length_printInt_toInt mp.pid
  have h2 := length_printInt_toInt mp.ppid
  simp only [pids, List.length_append, List.length_leftpad, List.length_singleton]
  omega

theorem length_owner_le {mp : Proc} (h : mp.user.length ≤ MAXLOGNAME) : (owner mp).length ≤ 58 := by
  have h1 := length_printInt_toInt mp.uid
  have h2 := length_printInt_toInt mp.euid
  rw [MAXLOGNAME] at h
  simp only [owner, List.length_append, List.length_cons, List.length_nil]
  omega

theorem length_tty (w : Names) (mp : Proc) : (tty w mp).length = 9 := by
  unfold tty
  split_ifs
  · simp
    omega
  · rfl

theorem length_command_le {mp : Proc} (hargs : mp.args.length ≤ MAXCALEN) (hcomm : mp.comm.length ≤ MAXCOMLEN) :
    (command mp).length ≤ 120 := by
  rw [MAXCALEN] at hargs
  rw [MAXCOMLEN] at hcomm
  unfold command
  split_ifs <;> simp only [List.length_append, List.length_cons, List.length_nil] <;> omega

/-- **The line.** It fits the buffer if and only if its parts do: the ids and the owner, which take 32 characters at
least, the time and the tty, and the command. -/
theorem write_orph_isSome_iff (w : Names) {buf : Str} {mp : Proc} (hbuf : buf.length = 100 + MAXCALEN)
    (hargs : mp.args.length ≤ MAXCALEN) (huser : mp.user.length ≤ MAXLOGNAME) (hcomm : mp.comm.length ≤ MAXCOMLEN) :
    (write_orph w buf mp).isSome ↔
      max ((pids mp).length + (owner mp).length) 32 + 18 + (command mp).length < 100 + MAXCALEN := by
  have hpids := length_pids_le mp
  have howner := length_owner_le huser
  have hcommand := length_command_le hargs hcomm
  have htime : (strlcpy ((w.ctime mp.start.1).drop 11) 200).length = 14 := by
    simp [strlcpy, w.ctime_length]
  have htty := length_tty w mp
  rw [MAXCALEN] at hbuf ⊢
  have hp : (pids mp).take (100 + 100 - 1) = pids mp := List.take_of_length_le (by omega)
  have ho : (owner mp).take (100 + 100 - 1) = owner mp := List.take_of_length_le (by omega)
  have ht : (tty w mp).take (100 + 100 - 9 - 1) = tty w mp := List.take_of_length_le (by omega)
  have hc : (command mp).take (100 + 100 - 9 - 9 - 1) = command mp := List.take_of_length_le (by omega)
  -- all but the last store fit
  obtain ⟨b₁, h₁, hb₁⟩ := exists_put buf 0 (pids mp) (by omega)
  obtain ⟨b₂, h₂, hb₂⟩ := exists_put b₁ (pids mp).length (owner mp) (by omega)
  obtain ⟨b₃, h₃, hb₃⟩ := exists_blit b₂ ((pids mp).length + (owner mp).length)
    (List.replicate (32 - ((pids mp).length + (owner mp).length)) ' ') (by rw [List.length_replicate]; omega)
  generalize hbp : max ((pids mp).length + (owner mp).length) 32 = bp
  obtain ⟨b₄, h₄, hb₄⟩ := exists_put b₃ bp (strlcpy ((w.ctime mp.start.1).drop 11) 200) (by omega)
  obtain ⟨b₅, h₅, hb₅⟩ := exists_blit b₄ (bp + 8) [' '] (by rw [List.length_singleton]; omega)
  obtain ⟨b₆, h₆, hb₆⟩ := exists_put b₅ (bp + 9) (tty w mp) (by omega)
  rw [write_orph]
  simp only [MAXCALEN, Option.bind_eq_bind, hp, h₁, ho, h₂, h₃, hbp, h₄, h₅, ht, h₆, htty, hc, Option.bind_some]
  by_cases hfit : bp + 18 + (command mp).length < 100 + 100
  · obtain ⟨b₇, h₇, -⟩ := exists_put b₆ (bp + 9 + 9) (command mp) (by omega)
    rw [h₇]
    exact iff_of_true rfl hfit
  · have hnone : put b₆ (bp + 9 + 9) (command mp) = none := by
      rw [put, blit, if_neg (by rw [List.length_append, List.length_singleton]; omega)]
    rw [hnone]
    exact iff_of_false Bool.false_ne_true hfit

/-! ## Both -/

/-- **The log line.** The command line is right if and only if the first argument begins with a character other than a
blank, or there is nothing in it and no other; and all stores of the line are inside its buffer if and only if its parts
fit. -/
theorem line_right_iff (argv : List Str) (w : Names) (buf : Str) (mp : Proc) (hbuf : buf.length = 100 + MAXCALEN)
    (hargs : mp.args.length ≤ MAXCALEN) (huser : mp.user.length ≤ MAXLOGNAME) (hcomm : mp.comm.length ≤ MAXCOMLEN) :
    (SaveRight argv ↔ StartsPlain argv) ∧
      ((write_orph w buf mp).isSome ↔
        max ((pids mp).length + (owner mp).length) 32 + 18 + (command mp).length < 100 + MAXCALEN) :=
  ⟨save_args_right_iff argv, write_orph_isSome_iff w hbuf hargs huser hcomm⟩

/-- what `ctime` gives for the time 0; no device has a name -/
def epoch : Names := ⟨fun _ => "Thu Jan  1 00:00:00 1970\n".toList, fun _ => rfl, fun _ => ['?', '?']⟩

/-- a process of user 1000000 with long arguments -/
def busy (user comm : Str) : Proc :=
  ⟨12345, 1, 1000000, 1000000, false, 0, (0, 0), comm, List.replicate 100 'x', user, false, false⟩

/-- the line of a process with short names -/
theorem line_of_joe :
    SaveRight [['v', 'i'], ['x']] ∧
      (write_orph epoch (List.replicate 200 '?') (busy ['j', 'o', 'e'] ['v', 'i'])).isSome := by
  obtain ⟨hsave, hwrite⟩ := line_right_iff [['v', 'i'], ['x']] epoch (List.replicate 200 '?')
    (busy ['j', 'o', 'e'] ['v', 'i']) (by rw [List.length_replicate, MAXCALEN]) (by decide) (by decide) (by decide)
  exact ⟨hsave.2 (Or.inr (Or.inr ⟨'v', ['i'], [['x']], rfl, by decide⟩)), hwrite.2 (by decide)⟩

/-- an empty first argument: the character before the buffer is read; long names: the line goes beyond its end -/
theorem no_name_long_line :
    save_args [[], ['x']] = none ∧ ¬ SaveRight [[], ['x']] ∧
      write_orph epoch (List.replicate 200 '?') (busy (List.replicate 31 'u') (List.replicate 16 'c')) = none := by
  have hsave : save_args [[], ['x']] = none := by decide
  refine ⟨hsave, ?_, ?_⟩
  · rw [SaveRight, hsave]
    simp
  · rw [← Option.not_isSome_iff_eq_none, write_orph_isSome_iff epoch (by rw [List.length_replicate, MAXCALEN])
      (by decide) (by decide) (by decide)]
    decide

end MNetSoft.Robocop
