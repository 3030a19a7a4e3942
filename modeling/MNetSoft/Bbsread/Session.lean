/-
A whole session of `bbsread`: `main_loop`, and the commands at its prompt (`rfp.c`). Items are gone through in the
order in which the scan of the sum file gives them; each is displayed if the options and its entry in the
participation file say so, and then commands are read until one of them goes on to the next item.

The lines typed are a list; when the pager is interrupted, what the item files hold and what time it is may depend on
everything displayed before. A pass through the sum file is given so many steps, which turn out to be enough. Which
items have been displayed in their turn (`visited`) is a ghost.
- `passLoop_spec`: a pass goes on to the next item that is to be displayed.
- `session_visits`: the items displayed in a session in which no responses are named are those that the loaded entries
  select, in their order.
- `calm_main_loop`: forwards and without a prompt the program only exits for an item that cannot be displayed.
-/
import Mathlib.Tactic
import MNetSoft.Core.Effects
import MNetSoft.Bbsread.Args
import MNetSoft.Bbsread.Item
import MNetSoft.Bbsread.Sum

namespace MNetSoft.Bbsread.Session

open MNetSoft.CString MNetSoft.Numerals MNetSoft.Effects

/-! ## Model -/

/-- what the user gets to see -/
inductive Shown where
  | display (item first last showhead : ℤ)
  | said (text : Str)
  | system (cmd : Str)
deriving DecidableEq

/-- how the program ends but by returning -/
inductive Leave where
  /-- by `exit(1)` -/
  | exit
  /-- a read behind a string -/
  | wild
  /-- the steps given to a pass were not enough -/
  | spent
deriving DecidableEq

/-- the globals of `rfp.c`, the position in the sum file, what has been shown -/
structure Bbs extends Reader where
  pos : ℕ
  sum_item : ℤ
  out : List Shown
  /-- the items displayed in their turn -/
  visited : List ℤ

def Bbs.scan (s : Bbs) : Scan := ⟨s.pos, s.sum_item, s.pf⟩

def Bbs.at (s : Bbs) (scan : Scan) : Bbs := { s with pos := scan.pos, sum_item := scan.sum_item, pf := scan.pf }

abbrev Rfp := Eff Leave Bbs

/-- what is outside, from what has been shown -/
structure Desk where
  /-- the pager or the pipe terminates -/
  interrupted : List Shown → Bool
  /-- the strings of the file of the item -/
  file : List Shown → List Str
  now : List Shown → BitVec 64

def emit (e : Shown) : Rfp PUnit := modify fun s => { s with out := s.out ++ [e] }

def ask {α : Type} (f : List Shown → α) : Rfp α := do
  let s ← get
  return f s.out

/-- the next item in the direction of the session -/
def scanStep (file : File) (g : Options) : Scan → Option (Option (ℤ × ℤ) × Scan) :=
  if g.reverse then prev_item file else next_item file

/-- the item is not beyond the range -/
def inRange (g : Options) (item : ℤ) : Bool :=
  if g.reverse then decide (g.item.first ≤ item) else decide (item ≤ g.item.last ∨ g.item.last = -1)

section Model

variable (d : Desk) (file : File) (g : Options)

def display (first last showhead : ℤ) : Rfp PUnit := do
  let s ← get
  emit (.display s.curitem first last showhead)
  let interrupted ← ask d.interrupted
  let strings ← ask d.file
  let now ← ask d.now
  match display_it first last showhead interrupted strings now s.toReader with
  | none => throw .exit
  | some r => modify fun s => { s with toReader := r }

/-- the end of `maybe_display` -/
def visit (read_from : ℤ) : Rfp Bool := do
  modify fun s => { s with visited := s.visited ++ [s.curitem] }
  display d read_from (-1) (if g.noresponse then 2 else 1)
  return true

/-- the item lacks responses that have been read -/
def missing (s : Bbs) (max_read : ℤ) : Rfp PUnit := do
  emit (.said ("Whoops...item ".toList ++ printInt s.curitem ++ " is missing ".toList ++
    printInt (max_read - s.max_resp) ++ " responses.\n".toList))
  let now ← ask d.now
  modify fun s => { s with pf := update_item s.curitem s.max_resp now s.pf, max_read := s.max_resp }

def maybe_display : Rfp Bool := do
  let s ← get
  let read := last_read s.pf s.curitem
  modify fun s => { s with max_read := read.1 }
  if read.2 then
    if g.read_forgotten = 0 then pure false else visit d g (if g.read_forgotten = 2 then 0 else read.1 + 1)
  else if read.1 ≥ s.max_resp then
    if read.1 > s.max_resp then do
      missing d s read.1
      visit d g 0
    else if g.read_old then visit d g 0
    else pure false
  else if read.1 = -1 then
    if g.read_brandnew then visit d g 0 else pure false
  else if g.read_newresp = 0 then pure false
  else visit d g (if g.read_newresp = 2 then 0 else read.1 + 1)

/-- the loop of `do_pass` -/
def passLoop : ℕ → Rfp Bool
  | 0 => throw .spent
  | fuel + 1 => do
    let s ← get
    match scanStep file g s.scan with
    | none => throw .exit
    | some (none, scan) => do
      modify fun s => s.at scan
      pure false
    | some (some (item, resp), scan) => do
      modify fun s => { s.at scan with curitem := item, max_resp := resp }
      if inRange g item then do
        modify fun s => { s with curresp := s.max_resp, max_resp := s.max_resp - 1 }
        let displayed ← maybe_display d g
        if displayed then pure true else passLoop fuel
      else pure false

variable (fuel : ℕ)

def do_pass : Rfp Bool := passLoop d file g fuel

/-- a command that only says something -/
def message (text : Str) : Rfp Bool := do
  emit (.said text)
  return true

def do_badcmd (cmd : Str) : Rfp Bool := message ("Unknown command: ".toList ++ cmd ++ ['\n'])

/-- a command that displays something of the current item -/
def shows (range : Reader → ℤ × ℤ × ℤ) : Rfp Bool := do
  let s ← get
  let (first, last, showhead) := range s.toReader
  display d first last showhead
  return true

def do_first : Rfp Bool := shows d fun _ => (1, -1, 0)

def do_last : Rfp Bool := shows d fun r => (r.max_resp, -1, 0)

def do_text : Rfp Bool := shows d fun _ => (0, -1, 0)

def do_current : Rfp Bool := shows d fun r => (r.curresp, -1, 0)

def do_again : Rfp Bool := shows d fun r => (r.againfirst, r.againlast, r.againhead)

def do_header : Rfp Bool := shows d fun _ => (0, 0, 2)

def do_only (arg : Str) : Rfp Bool :=
  if !isascii (arg.headD '\x00') || !isdigit (arg.headD '\x00') then
    message "The 'only' command requires a numeric argument.\n".toList
  else shows d fun _ => (atoi arg, atoi arg, 0)

/-- turn the flag of the current item -/
def turn (word : Str) : Rfp Bool := do
  let now ← ask d.now
  modify fun s => { s with pf := update_item s.curitem (-1) now s.pf }
  let s ← get
  message ("item ".toList ++ printInt s.curitem ++ [' '] ++ word ++ ['\n'])

def do_forget : Rfp Bool := turn d "forgotten".toList

def do_remember : Rfp Bool := turn d "remembered".toList

/-- go back to what had been read of the current item -/
def reset : Rfp PUnit := modify fun s => { s with pf := reset_item s.curitem s.pf }

def do_postpone : Rfp Bool := do
  reset
  do_pass d file g fuel

def do_new : Rfp Bool := do
  reset
  return false

def do_stop : Rfp Bool := pure false

def cant_act : Rfp Bool := message "Cannot change items -- use \"bbs\" for that.\n".toList

def cant_respond : Rfp Bool := message "Cannot respond to items -- use \"bbs\" for that.\n".toList

def cant_find : Rfp Bool := message "Text searching not supported.\n".toList

def cant_since : Rfp Bool := message "Date searching not supported.\n".toList

/-- what a name of a command calls -/
def rfp_cmds : List (Pattern × (Str → Rfp Bool)) :=
  [(⟨['r'], some "espond".toList, by decide⟩, fun _ => cant_respond),
    (⟨['p', 's'], some "eudonym".toList, by decide⟩, fun _ => cant_respond),
    (⟨"forget".toList, none, by decide⟩, fun _ => do_forget d),
    (⟨['p'], some "ass".toList, by decide⟩, fun _ => do_pass d file g fuel),
    (⟨['k'], some "ill".toList, by decide⟩, fun _ => cant_act),
    (⟨"rem".toList, some "ember".toList, by decide⟩, fun _ => do_remember d),
    (⟨"unf".toList, some "orget".toList, by decide⟩, fun _ => do_remember d),
    (⟨['h'], some "eader".toList, by decide⟩, fun _ => do_header d),
    (⟨"text".toList, none, by decide⟩, fun _ => do_text d),
    (⟨['a'], some "gain".toList, by decide⟩, fun _ => do_again d),
    (⟨"first".toList, none, by decide⟩, fun _ => do_first d),
    (⟨['c', 'u'], some "rrent".toList, by decide⟩, fun _ => do_current d),
    (⟨['l'], some "ast".toList, by decide⟩, fun _ => do_last d),
    (⟨['n'], some "ew".toList, by decide⟩, fun _ => do_new),
    (⟨['p', 'o'], some "stpone".toList, by decide⟩, fun _ => do_postpone d file g fuel),
    (⟨"freeze".toList, none, by decide⟩, fun _ => cant_act),
    (⟨"thaw".toList, none, by decide⟩, fun _ => cant_act),
    (⟨"sync".toList, some "hronous".toList, by decide⟩, fun _ => cant_act),
    (⟨"async".toList, some "hronous".toList, by decide⟩, fun _ => cant_act),
    (⟨"retire".toList, none, by decide⟩, fun _ => cant_act),
    (⟨"unretire".toList, none, by decide⟩, fun _ => cant_act),
    (⟨['e'], some "nter".toList, by decide⟩, fun _ => cant_respond),
    (⟨['f'], some "ind".toList, by decide⟩, fun _ => cant_find),
    (⟨['l', 'o'], some "cate".toList, by decide⟩, fun _ => cant_find),
    (⟨['s', 'i'], some "nce".toList, by decide⟩, fun _ => cant_since),
    (⟨"cen".toList, some "sor".toList, by decide⟩, fun _ => cant_act),
    (⟨"scr".toList, some "ibble".toList, by decide⟩, fun _ => cant_act),
    (⟨"onl".toList, some ['y'], by decide⟩, fun args => do_only d args),
    (⟨"stop".toList, none, by decide⟩, fun _ => do_stop),
    (⟨['q'], some "uit".toList, by decide⟩, fun _ => do_stop),
    (⟨['^'], none, by decide⟩, fun _ => do_first d),
    (⟨['$'], some ['$'], by decide⟩, fun _ => do_last d)]

/-- the first command of the table that the name abbreviates -/
def cmdLoop (cmd args : Str) : List (Pattern × (Str → Rfp Bool)) → Rfp Bool
  | [] => do_badcmd cmd
  | c :: cs =>
    match match_ (cmd ++ ['\x00']) (c.1.text ++ ['\x00']) with
    | none => throw .wild
    | some true => c.2 args
    | some false => cmdLoop cmd args cs

/-- a signed number: relative to the response displayed last -/
def relative (cmd : Str) : Rfp Bool :=
  match cmd.drop 1 with
  | [] => shows d fun r => (r.curresp + (if cmd.head? = some '-' then -1 else 1), -1, 0)
  | c :: _ =>
    if !isascii c || !isdigit c then do_badcmd cmd
    else shows d fun r => (r.curresp + (if cmd.head? = some '-' then -atoi (cmd.drop 1) else atoi (cmd.drop 1)), -1, 0)

/-- execute a line; the answer is whether to read another one -/
def rfp_command (buf : Str) : Rfp Bool :=
  let line := firstout (cstr buf) [' ', '\t']
  let cmd_end := firstin line [' ', '\t', '\n']
  let args := firstout cmd_end [' ', '\t', '\n']
  let cmd := line.take (line.length - cmd_end.length)
  match cmd with
  | [] => do_pass d file g fuel
  | c :: cs =>
    if !isascii c then do_badcmd cmd
    else if isdigit c then shows d fun _ => (atoi cmd, -1, 0)
    else if c = '-' ∨ c = '+' then relative d cmd
    else if c = '!' then do
      emit (.system (if args.length ≠ cmd_end.length then cs ++ ' ' :: (cmd_end.drop 1).takeWhile (· ≠ '\n') else cs))
      return true
    else cmdLoop cmd args (rfp_cmds d file g fuel)

/-- commands, until one of them ends the session or there are no more -/
def promptLoop : List Str → Rfp PUnit
  | [] => pure ⟨⟩
  | line :: lines => do
    emit (.said "\nResponse not possible.  Pass? ".toList)
    if ← rfp_command d file g fuel line then promptLoop lines else pure ⟨⟩

/-- one item after the other -/
def passAll : ℕ → Rfp PUnit
  | 0 => throw .spent
  | n + 1 => do
    if ← do_pass d file g fuel then passAll n else pure ⟨⟩

/-- the responses that the user has named -/
def do_extract : Rfp Bool := do
  let s ← get
  match next_item file s.scan with
  | none => throw .exit
  | some (none, scan) => do
    modify fun s => s.at scan
    pure false
  | some (some (item, resp), scan) => do
    modify fun s => { s.at scan with curitem := item, max_resp := resp }
    if item ≠ g.item.first then pure false
    else do
      modify fun s => { s with curresp := s.max_resp, max_resp := s.max_resp - 1 }
      modify fun s => { s with max_read := (last_read s.pf s.curitem).1 }
      display d g.resp.first g.resp.last (if g.resp.first = 0 then 1 else 0)
      pure true

def main_loop (lines : List Str) : Rfp PUnit := do
  modify fun s => s.at (seek_item file (if g.reverse then g.item.last else g.item.first) s.scan)
  if g.extracting then do
    if ← do_extract d file g then pure ⟨⟩ else emit (.said "No such item\n".toList)
  else do
    if ← do_pass d file g fuel then
      if g.prompt_rfp then promptLoop d file g fuel lines else passAll d file g fuel fuel
    else emit (.said "No items selected for display\n".toList)

end Model

/-- the state before a session -/
def start (g : Options) (p : Pf) : Bbs := ⟨⟨0, 0, 0, 0, g.extracting, 0, 0, 0, p⟩, 0, 0, [], []⟩

/-! ## The scan -/

section Scanning

/-- **Frame.** An operation leaves alone what is read of the items that it does not name. -/
theorem last_read_apply {p : Pf} (op : Op) {item : ℤ} (h : ¬op.Names item) :
    last_read (p.apply op) item = last_read p item := by
  cases hno : p.no_pf with
  | true =>
    have hsame : p.apply op = p := by
      cases op with
      | update i resp now => exact if_pos hno
      | reset i => exact if_pos hno
      | lost first last => exact if_pos (Or.inl hno)
    rw [hsame]
  | false =>
    have hno' : (p.apply op).no_pf = false := (no_pf_apply p op).trans hno
    rw [last_read_eq hno, last_read_eq hno', pflist_apply hno, mark_onList, onMark_of_not_names h]

theorem last_read_lost (first last : ℤ) (p : Pf) (item : ℤ) :
    last_read (lost_items first last p) item = last_read p item :=
  last_read_apply (.lost first last) id

theorem last_read_ite_lost (c : Prop) [Decidable c] (first last : ℤ) (p : Pf) (item : ℤ) :
    last_read (if c then lost_items first last p else p) item = last_read p item := by
  split_ifs
  · exact last_read_lost first last p item
  · rfl

/-- two scans are at the same place -/
def Scan.Beside (s t : Scan) : Prop := s.pos = t.pos ∧ s.sum_item = t.sum_item

/-- A scan does not look at the participation list, and changes nothing that is read of it; and no item comes twice. -/
structure Steady (next : Scan → Option (Option (ℤ × ℤ) × Scan)) : Prop where
  reads : ∀ {s r s'}, next s = some (r, s') → ∀ item, last_read s'.pf item = last_read s.pf item
  blind : ∀ {s t r s'}, Scan.Beside s t → next s = some (r, s') → ∃ t', next t = some (r, t') ∧ Scan.Beside s' t'
  distinct : ∀ {s ps s'}, Calls next (next s) ps s' → (ps.map Prod.fst).Nodup

variable {next : Scan → Option (Option (ℤ × ℤ) × Scan)}

theorem Steady.calls (h : Steady next) {s t s' : Scan} {ps : List (ℤ × ℤ)} (hst : Scan.Beside s t)
    (hcalls : Calls next (next s) ps s') : ∃ t', Calls next (next t) ps t' := by
  generalize hr : next s = r at hcalls
  induction hcalls generalizing s t with
  | done =>
    obtain ⟨t', ht, -⟩ := h.blind hst hr
    rw [ht]
    exact ⟨t', .done⟩
  | more _ ih =>
    obtain ⟨t', ht, hbeside⟩ := h.blind hst hr
    obtain ⟨t'', hcalls⟩ := ih hbeside rfl
    rw [ht]
    exact ⟨t'', .more hcalls⟩

/-- what one call of `next_item` does -/
theorem nextLoop_steps (file : File) (from_item : ℤ) (s t : Scan) (hst : Scan.Beside s t) :
    (∀ item, last_read (nextLoop file from_item s).2.pf item = last_read s.pf item) ∧
      (nextLoop file from_item t).1 = (nextLoop file from_item s).1 ∧
      Scan.Beside (nextLoop file from_item s).2 (nextLoop file from_item t).2 ∧
      ∀ x, (nextLoop file from_item s).1 = some x → s.sum_item ≤ x.1 ∧
        (nextLoop file from_item s).2.sum_item = x.1 + 1 := by
  induction hn : file.length - s.pos using Nat.strong_induction_on generalizing s t with
  | _ n ih =>
    obtain ⟨hpos, hitem⟩ := hst
    cases hread : fread file s.pos with
    | none =>
      rw [nextLoop_end hread, nextLoop_end (hpos ▸ hread)]
      refine ⟨fun item => last_read_ite_lost _ _ _ _ _, rfl, ⟨hpos, hitem⟩, ?_⟩
      rintro x ⟨⟩
    | some sum =>
      by_cases hreal : sum.Real
      · rw [nextLoop_real hread hreal, nextLoop_real (hpos ▸ hread) hreal]
        refine ⟨fun item => last_read_ite_lost _ _ _ _ _, ?_, ⟨?_, ?_⟩, ?_⟩
        · rw [hitem]
        · exact congrArg (· + sumeSize) hpos
        · exact congrArg (· + 1) hitem
        · rintro x hx
          cases hx
          exact ⟨le_refl _, rfl⟩
      · have hread' : fread file t.pos = some sum := hpos ▸ hread
        rw [nextLoop_missing (s := s) hread hreal, nextLoop_missing (s := t) hread' hreal]
        have hroom : s.pos + sumeSize ≤ file.length := by
          by_contra hno
          rw [fread, if_neg hno] at hread
          cases hread
        have hsize : 0 < sumeSize := by decide
        obtain ⟨hreads, hsame, hbeside, hnew⟩ := ih (file.length - (s.pos + sumeSize)) (by omega)
          ⟨s.pos + sumeSize, s.sum_item + 1, s.pf⟩ ⟨t.pos + sumeSize, t.sum_item + 1, t.pf⟩
          ⟨congrArg (· + sumeSize) hpos, congrArg (· + 1) hitem⟩ rfl
        refine ⟨hreads, hsame, hbeside, fun x hx => ?_⟩
        obtain ⟨hle, heq⟩ := hnew x hx
        exact ⟨(Int.le_add_one le_rfl).trans hle, heq⟩

theorem next_item_beyond (file : File) {s s' : Scan} {ps : List (ℤ × ℤ)}
    (hcalls : Calls (next_item file) (next_item file s) ps s') :
    (∀ x ∈ ps, s.sum_item ≤ x.1) ∧ (ps.map Prod.fst).Nodup := by
  generalize hr : next_item file s = r at hcalls
  induction hcalls generalizing s with
  | done => exact ⟨fun _ h => absurd h List.not_mem_nil, List.nodup_nil⟩
  | @more s₁ _ x ps _ ih =>
    obtain ⟨hrest, hnodup⟩ := ih rfl
    obtain ⟨-, -, -, hnew⟩ := nextLoop_steps file s.sum_item s s ⟨rfl, rfl⟩
    have hstep : nextLoop file s.sum_item s = (some x, s₁) := Option.some.inj hr
    rw [hstep] at hnew
    obtain ⟨hle, heq⟩ := hnew x rfl
    have heq : s₁.sum_item = x.1 + 1 := heq
    refine ⟨List.forall_mem_cons.2 ⟨hle, fun y hy => ?_⟩, List.nodup_cons.2 ⟨fun hmem => ?_, hnodup⟩⟩
    · have := hrest y hy
      omega
    · obtain ⟨y, hy, hxy⟩ := List.mem_map.1 hmem
      have := hrest y hy
      omega

theorem steady_next (file : File) : Steady (next_item file) where
  reads := by
    intro s r s' h item
    have hstep : nextLoop file s.sum_item s = (r, s') := Option.some.inj h
    have hreads := (nextLoop_steps file s.sum_item s s ⟨rfl, rfl⟩).1 item
    rwa [hstep] at hreads
  blind := by
    intro s t r s' hst h
    have hstep : nextLoop file s.sum_item s = (r, s') := Option.some.inj h
    obtain ⟨-, hsame, hbeside, -⟩ := nextLoop_steps file s.sum_item s t hst
    rw [hstep] at hsame hbeside
    refine ⟨(nextLoop file s.sum_item t).2, ?_, hbeside⟩
    rw [next_item, ← hst.2]
    exact congrArg some (Prod.ext hsame rfl)
  distinct := fun hcalls => (next_item_beyond file hcalls).2

/-- what one call of `prev_item` does -/
theorem prevLoop_steps (file : File) (from_item : ℤ) {s t s' : Scan} {r : Option (ℤ × ℤ)} (hst : Scan.Beside s t)
    (h : prevLoop file from_item s = some (r, s')) :
    (∀ item, last_read s'.pf item = last_read s.pf item) ∧
      (∃ t', prevLoop file from_item t = some (r, t') ∧ Scan.Beside s' t') ∧
      ∀ x, r = some x → x.1 ≤ s.sum_item ∧ s'.sum_item = x.1 - 1 := by
  induction hn : s.sum_item.toNat using Nat.strong_induction_on generalizing s t with
  | _ n ih =>
    obtain ⟨hpos, hitem⟩ := hst
    unfold prevLoop at h ⊢
    rw [← hpos, ← hitem]
    by_cases hmore : s.sum_item > 0
    · rw [dif_pos hmore] at h ⊢
      cases hread : fread file s.pos with
      | none =>
        rw [hread] at h
        cases h
      | some sum =>
        rw [hread] at h
        dsimp only at h ⊢
        by_cases hreal : sum.Real
        · rw [if_pos hreal] at h ⊢
          cases h
          refine ⟨fun item => last_read_ite_lost _ _ _ _ _, ⟨_, rfl, rfl, rfl⟩, ?_⟩
          rintro x ⟨⟩
          exact ⟨le_refl _, rfl⟩
        · rw [if_neg hreal] at h ⊢
          obtain ⟨hreads, hblind, hnew⟩ := ih (s.sum_item - 1).toNat (by omega)
            (s := ⟨fseek (offset_of (s.sum_item - 1)) (s.pos + sumeSize), s.sum_item - 1, s.pf⟩)
            (t := ⟨fseek (offset_of (s.sum_item - 1)) (s.pos + sumeSize), s.sum_item - 1, t.pf⟩) ⟨rfl, rfl⟩ h rfl
          refine ⟨hreads, hblind, fun x hx => ?_⟩
          obtain ⟨hle, heq⟩ := hnew x hx
          exact ⟨hle.trans (Int.sub_le_self _ Int.one_nonneg), heq⟩
    · rw [dif_neg hmore] at h ⊢
      cases h
      refine ⟨fun item => last_read_ite_lost _ _ _ _ _, ⟨_, rfl, rfl, rfl⟩, ?_⟩
      rintro x ⟨⟩

theorem prev_item_beyond (file : File) {s s' : Scan} {ps : List (ℤ × ℤ)}
    (hcalls : Calls (prev_item file) (prev_item file s) ps s') :
    (∀ x ∈ ps, x.1 ≤ s.sum_item) ∧ (ps.map Prod.fst).Nodup := by
  generalize hr : prev_item file s = r at hcalls
  induction hcalls generalizing s with
  | done => exact ⟨fun _ h => absurd h List.not_mem_nil, List.nodup_nil⟩
  | @more s₁ _ x ps _ ih =>
    obtain ⟨hrest, hnodup⟩ := ih rfl
    obtain ⟨-, -, hnew⟩ := prevLoop_steps file s.sum_item (t := s) ⟨rfl, rfl⟩ hr
    obtain ⟨hle, heq⟩ := hnew x rfl
    refine ⟨List.forall_mem_cons.2 ⟨hle, fun y hy => ?_⟩, List.nodup_cons.2 ⟨fun hmem => ?_, hnodup⟩⟩
    · have := hrest y hy
      omega
    · obtain ⟨y, hy, hxy⟩ := List.mem_map.1 hmem
      have := hrest y hy
      omega

theorem steady_prev (file : File) : Steady (prev_item file) where
  reads := fun h => (prevLoop_steps file _ ⟨rfl, rfl⟩ h).1
  blind := by
    intro s t r s' hst h
    rw [prev_item, ← hst.2]
    exact (prevLoop_steps file _ hst h).2.1
  distinct := fun hcalls => (prev_item_beyond file hcalls).2

theorem steady_scanStep (file : File) (g : Options) : Steady (scanStep file g) := by
  unfold scanStep
  split_ifs
  · exact steady_prev file
  · exact steady_next file

end Scanning

/-! ## Commands on the current item -/

section Commands

variable {d : Desk}

/-- the reader is at the same item, and only what is read of this item may have changed -/
structure Same (s t : Bbs) : Prop where
  visited : t.visited = s.visited
  curitem : t.curitem = s.curitem
  beside : Scan.Beside s.scan t.scan
  reads : ∀ item, item ≠ s.curitem → last_read t.pf item = last_read s.pf item

theorem Same.refl (s : Bbs) : Same s s := ⟨rfl, rfl, ⟨rfl, rfl⟩, fun _ _ => rfl⟩

theorem Same.trans {s t u : Bbs} (h : Same s t) (h' : Same t u) : Same s u where
  visited := h'.visited.trans h.visited
  curitem := h'.curitem.trans h.curitem
  beside := ⟨h.beside.1.trans h'.beside.1, h.beside.2.trans h'.beside.2⟩
  reads := fun item hitem => (h'.reads item (h.curitem ▸ hitem)).trans (h.reads item hitem)

/-- a program that stays at the item -/
def Stays {α : Type} (x : Rfp α) : Prop := Runs Same (fun s e t => Same s t ∧ e ≠ .spent) x

variable {α β : Type}

theorem stays_pure (a : α) : Stays (pure a : Rfp α) := runs_pure Same.refl a

theorem stays_get : Stays (get : Rfp Bbs) := runs_get Same.refl

theorem stays_modify {f : Bbs → Bbs} (h : ∀ s, Same s (f s)) : Stays (modify f : Rfp PUnit) := runs_modify h

theorem Stays.bind {x : Rfp α} {f : α → Rfp β} (hx : Stays x) (hf : ∀ a, Stays (f a)) : Stays (x >>= f) :=
  Runs.bind Same.trans (fun h h' => ⟨h.trans h'.1, h'.2⟩) hx hf

theorem Stays.ite {c : Prop} [Decidable c] {x y : Rfp α} (hx : Stays x) (hy : Stays y) : Stays (if c then x else y) :=
  Runs.ite (fun _ => hx) fun _ => hy

theorem stays_emit (e : Shown) : Stays (emit e) := stays_modify fun _ => ⟨rfl, rfl, ⟨rfl, rfl⟩, fun _ _ => rfl⟩

theorem stays_ask (f : List Shown → α) : Stays (ask f) := Stays.bind stays_get fun _ => stays_pure _

theorem stays_message (text : Str) : Stays (message text) := Stays.bind (stays_emit _) fun _ => stays_pure true

theorem last_read_update_ne {item item' : ℤ} (h : item' ≠ item) (resp : ℤ) (now : BitVec 64) (p : Pf) :
    last_read (update_item item resp now p) item' = last_read p item' :=
  last_read_apply (.update item resp now) fun hnames => h hnames.symm

theorem last_read_reset_ne {item item' : ℤ} (h : item' ≠ item) (p : Pf) :
    last_read (reset_item item p) item' = last_read p item' :=
  last_read_apply (.reset item) fun hnames => h hnames.symm

/-- a display marks the current item at most -/
theorem display_it_same {first last showhead : ℤ} {interrupted : Bool} {strings : List Str}
    {now : BitVec 64} {r r' : Reader} (h : display_it first last showhead interrupted strings now r = some r') :
    r'.curitem = r.curitem ∧ ∀ item, item ≠ r.curitem → last_read r'.pf item = last_read r.pf item := by
  rw [display_it] at h
  split_ifs at h
  · cases h
    exact ⟨rfl, fun _ _ => rfl⟩
  · obtain ⟨x, -, rfl⟩ := Option.map_eq_some_iff.1 h
    dsimp only
    split_ifs
    · exact ⟨rfl, fun item hitem => last_read_update_ne hitem _ _ _⟩
    · exact ⟨rfl, fun _ _ => rfl⟩

theorem exec_ask (f : List Shown → α) (s : Bbs) : exec (ask f) s = (.ok (f s.out), s) := rfl

theorem exec_emit (e : Shown) (s : Bbs) : exec (emit e) s = (.ok ⟨⟩, { s with out := s.out ++ [e] }) := rfl

theorem stays_display (first last showhead : ℤ) : Stays (display d first last showhead) := by
  intro s
  rw [display, exec_bind, exec_get, andThen_ok, exec_bind, exec_emit, andThen_ok]
  simp only [exec_bind, exec_ask, andThen_ok]
  split
  next r t h =>
    cases hdisplay : display_it first last showhead
        (d.interrupted (s.out ++ [.display s.curitem first last showhead]))
        (d.file (s.out ++ [.display s.curitem first last showhead]))
        (d.now (s.out ++ [.display s.curitem first last showhead])) s.toReader with
    | none =>
      rw [hdisplay] at h
      cases h
    | some r' =>
      rw [hdisplay] at h
      cases h
      obtain ⟨hcur, hreads⟩ := display_it_same hdisplay
      exact ⟨rfl, hcur, ⟨rfl, rfl⟩, hreads⟩
  next e t h =>
    cases hdisplay : display_it first last showhead
        (d.interrupted (s.out ++ [.display s.curitem first last showhead]))
        (d.file (s.out ++ [.display s.curitem first last showhead]))
        (d.now (s.out ++ [.display s.curitem first last showhead])) s.toReader with
    | none =>
      rw [hdisplay] at h
      cases h
      exact ⟨⟨rfl, rfl, ⟨rfl, rfl⟩, fun _ _ => rfl⟩, fun heq => by cases heq⟩
    | some r' =>
      rw [hdisplay] at h
      cases h

theorem stays_shows (range : Reader → ℤ × ℤ × ℤ) : Stays (shows d range) :=
  Stays.bind stays_get fun _ => Stays.bind (stays_display _ _ _) fun _ => stays_pure true

theorem stays_turn (word : Str) : Stays (turn d word) := by
  refine Stays.bind (stays_ask _) fun now => Stays.bind (stays_modify fun s => ?_) fun _ => ?_
  · exact ⟨rfl, rfl, ⟨rfl, rfl⟩, fun item hitem => last_read_update_ne hitem _ _ _⟩
  · exact Stays.bind stays_get fun _ => stays_message _

theorem stays_reset : Stays reset :=
  stays_modify fun _ => ⟨rfl, rfl, ⟨rfl, rfl⟩, fun _ hitem => last_read_reset_ne hitem _⟩

theorem stays_only (arg : Str) : Stays (do_only d arg) := Stays.ite (stays_message _) (stays_shows _)

theorem stays_relative (cmd : Str) : Stays (relative d cmd) := by
  unfold relative
  cases cmd.drop 1 with
  | nil => exact stays_shows _
  | cons c cs => exact Stays.ite (stays_message _) (stays_shows _)

end Commands

/-! ## Passing on -/

section Pass

variable (g : Options)

/-- does the user want to see an item with this entry and so many responses -/
def selected (read : ℤ × Bool) (max_resp : ℤ) : Bool :=
  if read.2 then decide (g.read_forgotten ≠ 0)
  else if read.1 > max_resp then true
  else if read.1 = max_resp then g.read_old
  else if read.1 = -1 then g.read_brandnew
  else decide (g.read_newresp ≠ 0)

/-- of a list of items with the numbers of their responses those that are selected, as the entries are -/
def wanted (p : Pf) (ps : List (ℤ × ℤ)) : List ℤ :=
  ((ps.takeWhile fun x => inRange g x.1).filter fun x => selected g (last_read p x.1) (x.2 - 1)).map Prod.fst

variable {g} {d : Desk} {file : File} {p : Pf} {ps : List (ℤ × ℤ)}

theorem wanted_append {done : List (ℤ × ℤ)} (hdone : ∀ x ∈ done, inRange g x.1 = true) (todo : List (ℤ × ℤ)) :
    wanted g p (done ++ todo) = wanted g p done ++ wanted g p todo := by
  have hall : done.takeWhile (fun x => inRange g x.1) = done := List.takeWhile_eq_self_iff.2 hdone
  rw [wanted, List.takeWhile_append_of_pos hdone, List.filter_append, List.map_append, wanted, wanted, hall]

theorem wanted_single {x : ℤ × ℤ} (hx : inRange g x.1 = true) :
    wanted g p [x] = if selected g (last_read p x.1) (x.2 - 1) then [x.1] else [] := by
  rw [wanted, List.takeWhile_cons, if_pos hx, List.takeWhile_nil]
  split_ifs with hsel
  · rw [List.filter_cons, if_pos hsel]
    rfl
  · rw [List.filter_cons, if_neg hsel]
    rfl

theorem wanted_beyond {x : ℤ × ℤ} (hx : ¬inRange g x.1 = true) (todo : List (ℤ × ℤ)) : wanted g p (x :: todo) = [] := by
  rw [wanted, List.takeWhile_cons, if_neg hx]
  rfl

theorem length_wanted_le (g : Options) (p : Pf) (ps : List (ℤ × ℤ)) : (wanted g p ps).length ≤ ps.length := by
  rw [wanted, List.length_map]
  exact (List.length_filter_le _ _).trans (List.takeWhile_sublist _).length_le

/-- what a program that has displayed the item in its turn has done -/
structure Turned (s t : Bbs) : Prop where
  visited : t.visited = s.visited ++ [s.curitem]
  curitem : t.curitem = s.curitem
  beside : Scan.Beside s.scan t.scan
  reads : ∀ item, item ≠ s.curitem → last_read t.pf item = last_read s.pf item

theorem Same.turned {s t u : Bbs} (h : Same s t) (h' : Turned t u) : Turned s u where
  visited := by rw [h'.visited, h.visited, h.curitem]
  curitem := h'.curitem.trans h.curitem
  beside := ⟨h.beside.1.trans h'.beside.1, h.beside.2.trans h'.beside.2⟩
  reads := fun item hitem => (h'.reads item (h.curitem ▸ hitem)).trans (h.reads item hitem)

/-- the item is displayed, or the program ends while it is -/
theorem visit_spec (read_from : ℤ) {s s₀ : Bbs} (hs : Same s₀ s) :
    Outcome (fun e t => e ≠ .spent ∧ Turned s₀ t) (visit d g read_from) s fun b t => b = true ∧ Turned s₀ t := by
  have hmark : Turned s₀ { s with visited := s.visited ++ [s.curitem] } :=
    hs.turned ⟨rfl, rfl, ⟨rfl, rfl⟩, fun _ _ => rfl⟩
  have hthen : ∀ {t : Bbs}, Same { s with visited := s.visited ++ [s.curitem] } t → Turned s₀ t := by
    intro t ht
    exact ⟨ht.visited.trans hmark.visited, ht.curitem.trans hmark.curitem,
      ⟨hmark.beside.1.trans ht.beside.1, hmark.beside.2.trans ht.beside.2⟩,
      fun item hitem => (ht.reads item (hs.curitem.symm ▸ hitem)).trans (hmark.reads item hitem)⟩
  unfold visit
  refine outcome_modify_bind ?_
  have hdisplay : Outcome (fun e t => e ≠ .spent ∧ Turned s₀ t)
      (display d read_from (-1) (if g.noresponse then 2 else 1))
      { s with visited := s.visited ++ [s.curitem] } fun _ t => Turned s₀ t :=
    (Runs.outcome (stays_display _ _ _) fun e t h => ⟨h.2, hthen h.1⟩).post fun _ t h => hthen h
  exact hdisplay.bind fun _ t ht => outcome_pure ⟨rfl, ht⟩

/-- an item is displayed if it is selected -/
theorem maybe_display_spec (s : Bbs) :
    Outcome (fun e t => e ≠ .spent ∧ selected g (last_read s.pf s.curitem) s.max_resp = true ∧ Turned s t)
      (maybe_display d g) s fun b t =>
      b = selected g (last_read s.pf s.curitem) s.max_resp ∧ if b then Turned s t else Same s t ∧ t.pf = s.pf := by
  have hread : Same s { s with max_read := (last_read s.pf s.curitem).1 } := ⟨rfl, rfl, ⟨rfl, rfl⟩, fun _ _ => rfl⟩
  have hvisit : ∀ (read_from : ℤ) {t : Bbs}, Same s t → selected g (last_read s.pf s.curitem) s.max_resp = true →
      Outcome (fun e t => e ≠ .spent ∧ selected g (last_read s.pf s.curitem) s.max_resp = true ∧ Turned s t)
        (visit d g read_from) t fun b t =>
        b = selected g (last_read s.pf s.curitem) s.max_resp ∧ if b then Turned s t else Same s t ∧ t.pf = s.pf := by
    intro read_from t ht hsel
    refine (visit_spec read_from ht).mono (fun e u h => ⟨h.1, hsel, h.2⟩) ?_
    rintro b u ⟨rfl, hu⟩
    exact ⟨hsel.symm, hu⟩
  have hpass : selected g (last_read s.pf s.curitem) s.max_resp = false →
      Outcome (fun e t => e ≠ .spent ∧ selected g (last_read s.pf s.curitem) s.max_resp = true ∧ Turned s t)
        (pure false : Rfp Bool) { s with max_read := (last_read s.pf s.curitem).1 } fun b t =>
          b = selected g (last_read s.pf s.curitem) s.max_resp ∧ if b then Turned s t else Same s t ∧ t.pf = s.pf :=
    fun hsel => outcome_pure ⟨hsel.symm, hread, rfl⟩
  unfold maybe_display
  refine outcome_get_bind (outcome_modify_bind ?_)
  refine Outcome.ite (fun hforgotten => ?_) fun hforgotten => ?_
  · have hsel : selected g (last_read s.pf s.curitem) s.max_resp = decide (g.read_forgotten ≠ 0) := if_pos hforgotten
    refine Outcome.ite (fun hzero => hpass ?_) fun hne => hvisit _ hread ?_
    · rw [hsel, decide_eq_false (not_not.2 hzero)]
    · rw [hsel, decide_eq_true hne]
  · have hsel : selected g (last_read s.pf s.curitem) s.max_resp =
        if (last_read s.pf s.curitem).1 > s.max_resp then true
        else if (last_read s.pf s.curitem).1 = s.max_resp then g.read_old
        else if (last_read s.pf s.curitem).1 = -1 then g.read_brandnew
        else decide (g.read_newresp ≠ 0) := if_neg hforgotten
    refine Outcome.ite (fun hge => ?_) fun hlt => ?_
    · refine Outcome.ite (fun hgt => ?_) fun hle => ?_
      · rw [if_pos hgt] at hsel
        refine Outcome.bind (Q := fun _ t => Same s t) ?_ fun _ t ht => hvisit 0 ht hsel
        exact ⟨rfl, rfl, ⟨rfl, rfl⟩, fun item hitem => last_read_update_ne hitem _ _ _⟩
      · have heq : (last_read s.pf s.curitem).1 = s.max_resp := le_antisymm (not_lt.1 hle) hge
        rw [if_neg hle, if_pos heq] at hsel
        refine Outcome.ite (fun hold => hvisit 0 hread (hsel.trans hold)) fun hold => hpass ?_
        exact hsel.trans (Bool.eq_false_iff.2 hold)
    · have hnot : ¬(last_read s.pf s.curitem).1 > s.max_resp := fun h => hlt (le_of_lt h)
      have hne : (last_read s.pf s.curitem).1 ≠ s.max_resp := fun h => hlt (le_of_eq h.symm)
      rw [if_neg hnot, if_neg hne] at hsel
      refine Outcome.ite (fun hnew => ?_) fun hold => ?_
      · rw [if_pos hnew] at hsel
        refine Outcome.ite (fun hbrand => hvisit 0 hread (hsel.trans hbrand)) fun hbrand => hpass ?_
        exact hsel.trans (Bool.eq_false_iff.2 hbrand)
      · rw [if_neg hold] at hsel
        refine Outcome.ite (fun hzero => hpass ?_) fun hnz => hvisit _ hread ?_
        · rw [hsel, decide_eq_false (not_not.2 hzero)]
        · rw [hsel, decide_eq_true hnz]

end Pass

/-! ## The session -/

section Session

variable {g : Options} {d : Desk} {file : File} {p : Pf} {ps : List (ℤ × ℤ)}

/-- what is left alone: items not displayed have the entries loaded -/
def Untouched (p : Pf) (s : Bbs) : Prop := ∀ item, item ∉ s.visited → last_read s.pf item = last_read p item

/-- what holds wherever the session ends -/
structure Orderly (g : Options) (p : Pf) (ps : List (ℤ × ℤ)) (s : Bbs) : Prop where
  visited : s.visited <+: wanted g p ps
  untouched : Untouched p s

/-- the session has come to the end of the items -/
structure Complete (g : Options) (p : Pf) (ps : List (ℤ × ℤ)) (s : Bbs) : Prop where
  visited : s.visited = wanted g p ps
  untouched : Untouched p s

theorem Complete.orderly {s : Bbs} (h : Complete g p ps s) : Orderly g p ps s :=
  ⟨h.visited ▸ List.prefix_refl _, h.untouched⟩

/-- between two items: those that are done, and those that the scan still gives -/
structure Between (file : File) (g : Options) (p : Pf) (ps done todo : List (ℤ × ℤ)) (s : Bbs) : Prop where
  split : ps = done ++ todo
  distinct : (ps.map Prod.fst).Nodup
  within : ∀ x ∈ done, inRange g x.1 = true
  visited : s.visited = wanted g p done
  untouched : Untouched p s
  calls : ∃ scan, Calls (scanStep file g) (scanStep file g s.scan) todo scan

/-- at the prompt: an item has been displayed -/
structure AtPrompt (file : File) (g : Options) (p : Pf) (ps : List (ℤ × ℤ)) (s : Bbs) : Prop where
  current : s.curitem ∈ s.visited
  between : ∃ done todo, Between file g p ps done todo s

theorem Between.orderly {done todo : List (ℤ × ℤ)} {s : Bbs} (h : Between file g p ps done todo s) :
    Orderly g p ps s := by
  refine ⟨?_, h.untouched⟩
  rw [h.split, wanted_append h.within, h.visited]
  exact List.prefix_append _ _

theorem AtPrompt.orderly {s : Bbs} (h : AtPrompt file g p ps s) : Orderly g p ps s := by
  obtain ⟨done, todo, hbetween⟩ := h.between
  exact hbetween.orderly

theorem AtPrompt.same {s t : Bbs} (h : AtPrompt file g p ps s) (ht : Same s t) : AtPrompt file g p ps t := by
  obtain ⟨done, todo, hbetween⟩ := h.between
  obtain ⟨scan, hcalls⟩ := hbetween.calls
  refine ⟨?_, done, todo, hbetween.split, hbetween.distinct, hbetween.within, ht.visited.trans hbetween.visited,
    fun item hitem => ?_, (steady_scanStep file g).calls ht.beside hcalls⟩
  · rw [ht.visited, ht.curitem]
    exact h.current
  · rw [ht.visited] at hitem
    have hne : item ≠ s.curitem := fun heq => hitem (heq ▸ h.current)
    exact (ht.reads item hne).trans (hbetween.untouched item hitem)

/-- wherever a session ends it is orderly, and the steps were enough -/
def Ends (g : Options) (p : Pf) (ps : List (ℤ × ℤ)) (e : Leave) (s : Bbs) : Prop := e ≠ .spent ∧ Orderly g p ps s

/-- an item that the scan gives and that is not in the list of those done has not been displayed -/
theorem Between.not_visited {done todo : List (ℤ × ℤ)} {x : ℤ × ℤ} {s : Bbs}
    (h : Between file g p ps done (x :: todo) s) : x.1 ∉ s.visited := by
  rw [h.visited]
  intro hmem
  obtain ⟨y, hy, heq⟩ := List.mem_map.1 hmem
  have hdone : y ∈ done := (List.takeWhile_sublist _).subset (List.mem_of_mem_filter hy)
  have hnodup := h.distinct
  rw [h.split, List.map_append, List.map_cons] at hnodup
  exact (List.nodup_append.1 hnodup).2.2 y.1 (List.mem_map_of_mem hdone) x.1 List.mem_cons_self heq

/-- an item has been passed, displayed or not -/
theorem Between.passed {done todo : List (ℤ × ℤ)} {x : ℤ × ℤ} {s t : Bbs} (h : Between file g p ps done (x :: todo) s)
    (hrange : inRange g x.1 = true) (hcalls : ∃ scan, Calls (scanStep file g) (scanStep file g t.scan) todo scan)
    (hvisited : t.visited = if selected g (last_read p x.1) (x.2 - 1) then s.visited ++ [x.1] else s.visited)
    (huntouched : Untouched p t) : Between file g p ps (done ++ [x]) todo t where
  split := by rw [h.split, List.append_assoc, List.singleton_append]
  distinct := h.distinct
  within := by
    intro y hy
    rcases List.mem_append.1 hy with hy | hy
    · exact h.within y hy
    · rw [List.mem_singleton.1 hy]
      exact hrange
  visited := by
    rw [hvisited, wanted_append h.within, wanted_single hrange, h.visited]
    split_ifs
    · rfl
    · exact (List.append_nil _).symm
  untouched := huntouched
  calls := hcalls

/-- **A pass** goes on to the next item that is selected, if there is one. -/
theorem passLoop_spec {fuel : ℕ} {done todo : List (ℤ × ℤ)} (hfuel : todo.length < fuel) {s : Bbs}
    (h : Between file g p ps done todo s) :
    Outcome (Ends g p ps) (passLoop d file g fuel) s fun b t =>
      if b then AtPrompt file g p ps t ∧ s.visited.length < t.visited.length else Complete g p ps t := by
  induction fuel generalizing done todo s with
  | zero => exact absurd hfuel (Nat.not_lt_zero _)
  | succ fuel ih =>
    obtain ⟨scan, hcalls⟩ := h.calls
    rw [passLoop]
    refine outcome_get_bind ?_
    generalize hstep : scanStep file g s.scan = r at hcalls
    cases hcalls with
    | @done scan =>
      dsimp only
      refine outcome_modify_bind (outcome_pure ⟨?_, fun item hitem => ?_⟩)
      · have hdone : ps = done := h.split.trans (List.append_nil done)
        rw [hdone]
        exact h.visited
      · exact ((steady_scanStep file g).reads hstep item).trans (h.untouched item hitem)
    | @more scan₁ _ x todo hrest =>
      obtain ⟨item, resp⟩ := x
      have hreads : ∀ i, last_read scan₁.pf i = last_read s.pf i := (steady_scanStep file g).reads hstep
      have hfresh : item ∉ s.visited := h.not_visited
      dsimp only
      refine outcome_modify_bind (Outcome.ite (fun hrange => ?_) fun hbeyond => ?_)
      · refine outcome_modify_bind ?_
        have hentry : last_read scan₁.pf item = last_read p item := (hreads item).trans (h.untouched item hfresh)
        have hothers : ∀ i, i ∉ s.visited → last_read scan₁.pf i = last_read p i :=
          fun i hi => (hreads i).trans (h.untouched i hi)
        -- the item has been displayed, or the program has ended meanwhile
        have hturned : ∀ {t : Bbs}, selected g (last_read p item) (resp - 1) = true →
            Turned { s.at scan₁ with curitem := item, curresp := resp, max_resp := resp - 1 } t →
              Between file g p ps (done ++ [(item, resp)]) todo t ∧ t.curitem ∈ t.visited := by
          intro t hsel ht
          refine ⟨h.passed hrange ((steady_scanStep file g).calls ht.beside hrest) ?_ fun i hi => ?_, ?_⟩
          · rw [if_pos hsel]
            exact ht.visited
          · rw [ht.visited] at hi
            obtain ⟨hold, hnew⟩ := not_or.1 (mt List.mem_append.2 hi)
            exact (ht.reads i fun heq => hnew (List.mem_singleton.2 heq)).trans (hothers i hold)
          · rw [ht.visited, ht.curitem]
            exact List.mem_append_right _ (List.mem_singleton_self _)
        have hmaybe : Outcome (Ends g p ps) (maybe_display d g)
            { s.at scan₁ with curitem := item, curresp := resp, max_resp := resp - 1 } fun b t =>
              if b then AtPrompt file g p ps t ∧ s.visited.length < t.visited.length
              else Between file g p ps (done ++ [(item, resp)]) todo t ∧ t.visited = s.visited := by
          refine (maybe_display_spec _).mono ?_ ?_
          · rintro e t ⟨he, hsel, ht⟩
            exact ⟨he, (hturned ((congrArg (selected g · (resp - 1)) hentry.symm).trans hsel) ht).1.orderly⟩
          · rintro b t ⟨hb, ht⟩
            have hb : b = selected g (last_read p item) (resp - 1) :=
              hb.trans (congrArg (selected g · (resp - 1)) hentry)
            cases b with
            | true =>
              obtain ⟨hbetween, hcurrent⟩ := hturned hb.symm ht
              refine ⟨⟨hcurrent, _, _, hbetween⟩, ?_⟩
              rw [ht.visited, List.length_append]
              exact Nat.lt_succ_self _
            | false =>
              obtain ⟨hsame, hpf⟩ := ht
              refine ⟨h.passed hrange ((steady_scanStep file g).calls hsame.beside hrest) ?_ fun i hi => ?_,
                hsame.visited⟩
              · rw [← hb]
                exact hsame.visited
              · rw [hsame.visited] at hi
                exact (congrArg (last_read · i) hpf).trans (hothers i hi)
        refine hmaybe.bind ?_
        rintro b t ht
        cases b with
        | true => exact outcome_pure ht
        | false =>
          obtain ⟨hbetween, hvisited⟩ := ht
          exact hvisited ▸ ih (Nat.lt_of_succ_lt_succ hfuel) hbetween
      · refine outcome_pure ⟨?_, fun i hi => (hreads i).trans (h.untouched i hi)⟩
        rw [h.split, wanted_append h.within, wanted_beyond hbeyond, List.append_nil]
        exact h.visited

/-- a command, from the prompt -/
def Turns (file : File) (g : Options) (p : Pf) (ps : List (ℤ × ℤ)) (x : Rfp Bool) : Prop :=
  ∀ s, AtPrompt file g p ps s → Outcome (Ends g p ps) x s fun b t =>
    if b then AtPrompt file g p ps t else Orderly g p ps t

theorem Stays.turns {x : Rfp Bool} (hx : Stays x) : Turns file g p ps x := by
  intro s hs
  refine (Runs.outcome hx fun e t h => ⟨h.2, (hs.same h.1).orderly⟩).post fun b t ht => ?_
  cases b with
  | true => exact hs.same ht
  | false => exact (hs.same ht).orderly

variable {fuel : ℕ} (hfuel : ps.length < fuel)

include hfuel

theorem turns_pass : Turns file g p ps (do_pass d file g fuel) := by
  intro s hs
  obtain ⟨done, todo, hbetween⟩ := hs.between
  have htodo : todo.length < fuel := by
    rw [hbetween.split, List.length_append] at hfuel
    omega
  refine (passLoop_spec htodo hbetween).post fun b t ht => ?_
  cases b with
  | true => exact ht.1
  | false => exact Complete.orderly ht

theorem turns_postpone : Turns file g p ps (do_postpone d file g fuel) := by
  intro s hs
  refine Outcome.bind (Q := fun _ t => AtPrompt file g p ps t) ?_ fun _ t ht => turns_pass hfuel t ht
  exact (Runs.outcome stays_reset fun e t h => ⟨h.2, (hs.same h.1).orderly⟩).post fun _ t ht => hs.same ht

theorem turns_cmds : ∀ c ∈ rfp_cmds d file g fuel, ∀ args, Turns file g p ps (c.2 args) := by
  have hsays : ∀ text, Turns file g p ps (message text) := fun text => (stays_message text).turns
  have hshows : ∀ range, Turns file g p ps (shows d range) := fun range => (stays_shows range).turns
  have hnew : Turns file g p ps do_new := (Stays.bind stays_reset fun _ => stays_pure false).turns
  have hstop : Turns file g p ps do_stop := (stays_pure false).turns
  simp only [rfp_cmds, List.forall_mem_cons]
  refine ⟨fun _ => hsays _, fun _ => hsays _, fun _ => (stays_turn _).turns, fun _ => turns_pass hfuel,
    fun _ => hsays _, fun _ => (stays_turn _).turns, fun _ => (stays_turn _).turns, fun _ => hshows _,
    fun _ => hshows _, fun _ => hshows _, fun _ => hshows _, fun _ => hshows _, fun _ => hshows _,
    fun _ => hnew, fun _ => turns_postpone hfuel, fun _ => hsays _,
    fun _ => hsays _, fun _ => hsays _, fun _ => hsays _, fun _ => hsays _, fun _ => hsays _, fun _ => hsays _,
    fun _ => hsays _, fun _ => hsays _, fun _ => hsays _, fun _ => hsays _, fun _ => hsays _,
    fun args => (stays_only args).turns, fun _ => hstop, fun _ => hstop, fun _ => hshows _, fun _ => hshows _, ?_⟩
  exact fun c hc => absurd hc List.not_mem_nil

omit hfuel in
theorem turns_cmdLoop {cs : List (Pattern × (Str → Rfp Bool))} (hcs : ∀ c ∈ cs, ∀ args, Turns file g p ps (c.2 args))
    (cmd args : Str) : Turns file g p ps (cmdLoop cmd args cs) := by
  induction cs with
  | nil => exact (stays_message _).turns
  | cons c cs ih =>
    obtain ⟨hc, hcs⟩ := List.forall_mem_cons.1 hcs
    intro s hs
    rw [cmdLoop]
    cases match_ (cmd ++ ['\x00']) (c.1.text ++ ['\x00']) with
    | none => exact ⟨Leave.noConfusion, hs.orderly⟩
    | some found =>
      cases found with
      | true => exact hc args s hs
      | false => exact ih hcs s hs

/-- **Any line** leaves the session at the prompt or ends it. -/
theorem turns_command (buf : Str) : Turns file g p ps (rfp_command d file g fuel buf) := by
  unfold rfp_command
  dsimp only
  generalize firstout (cstr buf) [' ', '\t'] = line
  generalize firstin line [' ', '\t', '\n'] = cmd_end
  generalize firstout cmd_end [' ', '\t', '\n'] = args
  cases line.take (line.length - cmd_end.length) with
  | nil => exact turns_pass hfuel
  | cons c cs =>
    intro s hs
    refine Outcome.ite (fun _ => (stays_message _).turns s hs) fun _ => ?_
    refine Outcome.ite (fun _ => (stays_shows _).turns s hs) fun _ => ?_
    refine Outcome.ite (fun _ => (stays_relative _).turns s hs) fun _ => ?_
    refine Outcome.ite (fun _ => ?_) fun _ => turns_cmdLoop (turns_cmds hfuel) _ _ s hs
    exact (Stays.bind (stays_emit _) fun _ => stays_pure true).turns s hs

theorem promptLoop_spec (lines : List Str) {s : Bbs} (hs : AtPrompt file g p ps s) :
    Outcome (Ends g p ps) (promptLoop d file g fuel lines) s fun _ t => Orderly g p ps t := by
  induction lines generalizing s with
  | nil => exact outcome_pure hs.orderly
  | cons line lines ih =>
    have hprompt : Outcome (Ends g p ps) (emit (.said "\nResponse not possible.  Pass? ".toList)) s
        fun _ t => AtPrompt file g p ps t :=
      (Runs.outcome (stays_emit _) fun e t h => ⟨h.2, (hs.same h.1).orderly⟩).post fun _ t ht => hs.same ht
    refine hprompt.bind fun _ t ht => (turns_command hfuel line t ht).bind fun b u hu => ?_
    cases b with
    | true => exact ih hu
    | false => exact outcome_pure hu

/-- without a prompt the session goes on to the end -/
theorem passAll_spec {n : ℕ} {s : Bbs} (hs : AtPrompt file g p ps s) (hn : ps.length < n + s.visited.length) :
    Outcome (Ends g p ps) (passAll d file g fuel n) s fun _ t => Complete g p ps t := by
  induction n generalizing s with
  | zero =>
    have hle := hs.orderly.visited.length_le.trans (length_wanted_le g p ps)
    omega
  | succ n ih =>
    obtain ⟨done, todo, hbetween⟩ := hs.between
    have htodo : todo.length < fuel := by
      rw [hbetween.split, List.length_append] at hfuel
      omega
    refine Outcome.bind (passLoop_spec htodo hbetween) fun b t ht => ?_
    cases b with
    | true => exact ih ht.1 (by have hlt : s.visited.length < t.visited.length := ht.2; omega)
    | false => exact outcome_pure ht

omit hfuel in
/-- before the first pass -/
theorem between_start (hcalls : ∃ scan, Calls (scanStep file g)
      (scanStep file g (seek_item file (if g.reverse then g.item.last else g.item.first) ⟨0, 0, p⟩)) ps scan) :
    Between file g p ps [] ps
      ((start g p).at (seek_item file (if g.reverse then g.item.last else g.item.first) ⟨0, 0, p⟩)) := by
  obtain ⟨scan, hscan⟩ := hcalls
  exact ⟨rfl, (steady_scanStep file g).distinct hscan, fun _ h => absurd h List.not_mem_nil, rfl,
    fun _ _ => rfl, scan, hscan⟩

/-- a session in which no responses are named -/
theorem main_loop_spec (hcalls : ∃ scan, Calls (scanStep file g)
      (scanStep file g (seek_item file (if g.reverse then g.item.last else g.item.first) ⟨0, 0, p⟩)) ps scan)
    (hext : g.extracting = false) (lines : List Str) :
    Outcome (Ends g p ps) (main_loop d file g fuel lines) (start g p) fun _ t =>
      Orderly g p ps t ∧ (g.prompt_rfp = false → t.visited = wanted g p ps) := by
  unfold main_loop
  refine outcome_modify_bind ?_
  rw [hext, if_neg Bool.false_ne_true]
  refine Outcome.bind (passLoop_spec hfuel (between_start hcalls)) fun b t ht => ?_
  cases b with
  | true =>
    obtain ⟨hprompt, -⟩ := ht
    rw [if_pos rfl]
    refine Outcome.ite (fun hrfp => ?_) fun _ => ?_
    · refine (promptLoop_spec hfuel lines hprompt).post fun _ u hu => ⟨hu, fun hno => ?_⟩
      rw [hno] at hrfp
      cases hrfp
    · refine (passAll_spec hfuel hprompt (by omega)).post fun _ u hu => ⟨hu.orderly, fun _ => hu.visited⟩
  | false =>
    have hcomplete : Complete g p ps t := ht
    exact outcome_modify ⟨⟨hcomplete.orderly.visited, hcomplete.untouched⟩, fun _ => hcomplete.visited⟩

end Session

/-- **The items of a session** in which no responses are named, if the scan of the sum file ends. Whatever is typed,
whatever the item files hold and whenever the pager is interrupted, the items displayed in their turn are the first
ones of those that the options select by the entries loaded and the scan of the sum file gives, in its order, each
once; the entries of all others stay as they were loaded. Without a prompt they are all of these, unless the program
exits. -/
theorem session_visits (d : Desk) (file : File) (g : Options) (p : Pf) (lines : List Str) (hext : g.extracting = false)
    {ps : List (ℤ × ℤ)} {scan : Scan} (hscan : Calls (scanStep file g)
      (scanStep file g (seek_item file (if g.reverse then g.item.last else g.item.first) ⟨0, 0, p⟩)) ps scan)
    {fuel : ℕ} (hfuel : ps.length < fuel) :
    ∃ r t, exec (main_loop d file g fuel lines) (start g p) = (r, t) ∧ r ≠ .error .spent ∧
      t.visited <+: wanted g p ps ∧ (wanted g p ps).Nodup ∧
      (∀ item, item ∉ t.visited → last_read t.pf item = last_read p item) ∧
      (g.prompt_rfp = false → r = .ok ⟨⟩ → t.visited = wanted g p ps) := by
  have hnodup : (wanted g p ps).Nodup :=
    ((List.filter_sublist.trans (List.takeWhile_sublist _)).map Prod.fst).nodup
      ((steady_scanStep file g).distinct hscan)
  have hspec := main_loop_spec (d := d) hfuel ⟨scan, hscan⟩ hext lines
  unfold Outcome at hspec
  rcases h : exec (main_loop d file g fuel lines) (start g p) with ⟨r, t⟩
  rw [h] at hspec
  cases r with
  | ok a => exact ⟨_, t, rfl, nofun, hspec.1.visited, hnodup, hspec.1.untouched, fun hno _ => hspec.2 hno⟩
  | error e =>
    obtain ⟨he, horderly⟩ := hspec
    refine ⟨_, t, rfl, fun heq => he (Except.error.inj heq), horderly.visited, hnodup, horderly.untouched, ?_⟩
    rintro - ⟨⟩

/-! ## Returning -/

section Returns

variable {d : Desk} {g : Options} {α β : Type}

/-- the program returns, or the steps are not enough -/
def Calm (x : Rfp α) : Prop := Runs (fun _ _ => True) (fun _ e _ => e = .spent) x

theorem calm_pure (a : α) : Calm (pure a : Rfp α) := runs_pure (fun _ => trivial) a

theorem calm_get : Calm (get : Rfp Bbs) := runs_get fun _ => trivial

theorem calm_modify (f : Bbs → Bbs) : Calm (modify f : Rfp PUnit) := runs_modify fun _ => trivial

theorem Calm.bind {x : Rfp α} {f : α → Rfp β} (hx : Calm x) (hf : ∀ a, Calm (f a)) : Calm (x >>= f) :=
  Runs.bind (fun _ _ => trivial) (fun _ he => he) hx hf

theorem Calm.ite {c : Prop} [Decidable c] {x y : Rfp α} (hx : Calm x) (hy : Calm y) : Calm (if c then x else y) :=
  Runs.ite (fun _ => hx) fun _ => hy

/-- whatever is shown before, the item file can be displayed -/
def Desk.Displayable (d : Desk) : Prop := ∀ out c, (dispitem c (d.file out)).isSome = true

theorem calm_display (hd : d.Displayable) (first last showhead : ℤ) : Calm (display d first last showhead) := by
  intro s
  rw [display, exec_bind, exec_get, andThen_ok, exec_bind, exec_emit, andThen_ok]
  simp only [exec_bind, exec_ask, andThen_ok]
  obtain ⟨r, hr⟩ := Option.isSome_iff_exists.1
    (hd (s.out ++ [.display s.curitem first last showhead]) (Reader.call s.toReader first last showhead))
  by_cases hint : d.interrupted (s.out ++ [.display s.curitem first last showhead]) = true
  · have hdisplay : ∀ now, display_it first last showhead
        (d.interrupted (s.out ++ [.display s.curitem first last showhead]))
        (d.file (s.out ++ [.display s.curitem first last showhead])) now s.toReader =
          some { s.toReader with againfirst := first, againlast := last, againhead := showhead } := by
      intro now
      rw [display_it, if_pos hint]
    rw [hdisplay]
    trivial
  · obtain ⟨r', hr', -⟩ := display_it_of_call (d.now (s.out ++ [.display s.curitem first last showhead])) hr
    rw [Bool.eq_false_iff.2 hint, hr']
    trivial

theorem calm_visit (hd : d.Displayable) (read_from : ℤ) : Calm (visit d g read_from) :=
  (calm_modify _).bind fun _ => (calm_display hd _ _ _).bind fun _ => calm_pure true

theorem calm_maybe_display (hd : d.Displayable) : Calm (maybe_display d g) := by
  have hmissing : ∀ s max_read, Calm (missing d s max_read) := fun s max_read =>
    (calm_modify _).bind fun _ => Calm.bind (calm_get.bind fun _ => calm_pure _) fun _ => calm_modify _
  refine calm_get.bind fun s => (calm_modify _).bind fun _ => Calm.ite (Calm.ite (calm_pure _) (calm_visit hd _)) ?_
  refine Calm.ite (Calm.ite ((hmissing s _).bind fun _ => calm_visit hd _) (Calm.ite (calm_visit hd _) (calm_pure _)))
    ?_
  exact Calm.ite (Calm.ite (calm_visit hd _) (calm_pure _)) (Calm.ite (calm_pure _) (calm_visit hd _))

variable {file : File}

theorem calm_passLoop (hd : d.Displayable) (hrev : g.reverse = false) (fuel : ℕ) : Calm (passLoop d file g fuel) := by
  induction fuel with
  | zero => exact runs_throw fun _ => rfl
  | succ fuel ih =>
    refine calm_get.bind fun s => ?_
    rw [scanStep, hrev, if_neg Bool.false_ne_true, next_item]
    rcases nextLoop file s.scan.sum_item s.scan with ⟨_ | ⟨item, resp⟩, scan⟩
    · exact (calm_modify _).bind fun _ => calm_pure _
    · refine (calm_modify _).bind fun _ => Calm.ite ((calm_modify _).bind fun _ => ?_) (calm_pure _)
      exact (calm_maybe_display hd).bind fun _ => Calm.ite (calm_pure _) ih

theorem calm_passAll (hd : d.Displayable) (hrev : g.reverse = false) (fuel n : ℕ) : Calm (passAll d file g fuel n) := by
  induction n with
  | zero => exact runs_throw fun _ => rfl
  | succ n ih => exact (calm_passLoop hd hrev fuel).bind fun _ => Calm.ite ih (calm_pure _)

/-- forwards and without a prompt the program only exits for an item that cannot be displayed -/
theorem calm_main_loop (file : File) (hd : d.Displayable) (hrev : g.reverse = false) (hrfp : g.prompt_rfp = false)
    (hext : g.extracting = false) (fuel : ℕ) (lines : List Str) : Calm (main_loop d file g fuel lines) := by
  refine (calm_modify _).bind fun _ => ?_
  rw [hext, if_neg Bool.false_ne_true]
  refine (calm_passLoop hd hrev fuel).bind fun _ => Calm.ite ?_ (calm_modify _)
  rw [hrfp, if_neg Bool.false_ne_true]
  exact calm_passAll hd hrev fuel fuel

end Returns

/-- nobody interrupts, and every item has a text and two responses -/
def greetDesk : Desk := ⟨fun _ => false, fun _ => greetings.lines, fun _ => 0⟩

theorem greetDesk_displayable : greetDesk.Displayable := by
  intro out c
  obtain ⟨shown, hshown, -⟩ := dispitem_spec c greetings
  exact Option.isSome_iff_exists.2 ⟨_, hshown⟩

/-- without a prompt -/
def straight : Options := { Options.init with prompt_rfp := false }

/-- of items 1 and 3, of which item 1 has been read, item 3 is displayed -/
theorem session_visits_third :
    ∃ t, exec (main_loop greetDesk (sumFile [1, 0, 3]) straight 3 []) (start straight ⟨[], [entry 1], false⟩) =
      (.ok ⟨⟩, t) ∧ t.visited = [3] := by
  obtain ⟨scan, hscan, -⟩ := forward_calls (sumFile [1, 0, 3]) ⟨0, 0, ⟨[], [entry 1], false⟩⟩
  have hreals : reals 1 (records (sumFile [1, 0, 3])) = [(1, 1), (3, 3)] := by decide
  rw [hreals] at hscan
  have hwanted : wanted straight ⟨[], [entry 1], false⟩ [(1, 1), (3, 3)] = [3] := by decide
  obtain ⟨r, t, hrun, hr, -, -, -, hall⟩ :=
    session_visits greetDesk (sumFile [1, 0, 3]) straight ⟨[], [entry 1], false⟩ [] rfl hscan (by decide : 2 < 3)
  have hcalm := calm_main_loop (sumFile [1, 0, 3])
    greetDesk_displayable (rfl : straight.reverse = false) rfl rfl 3 [] (start straight ⟨[], [entry 1], false⟩)
  rw [hrun] at hcalm
  cases r with
  | error e => exact absurd (congrArg Except.error hcalm) hr
  | ok a => exact ⟨t, hrun, (hall rfl rfl).trans hwanted⟩

end MNetSoft.Bbsread.Session
