/-
The commands `forget` and `remember` at the prompt of `bbsread` (`rfp.c`). What they print is left out.

Both make the same call of `update_item`, which turns the flag of the item whatever it is; and an item without an entry
gets one that is forgotten.
- `flag_commands`: the flag of an item is turned once for each command on it.
- `forget_right_iff`: after which commands the flags are what was asked for last.
- `forget_twice`: an item that is forgotten twice, and one that is remembered unread.
-/
import Mathlib.Tactic
import MNetSoft.Bbsread.Part

namespace MNetSoft.Bbsread

/-! ## Model -/

def do_forget (curitem : ℤ) (now : BitVec 64) (p : Pf) : Pf := update_item curitem (-1) now p

def do_remember (curitem : ℤ) (now : BitVec 64) (p : Pf) : Pf := update_item curitem (-1) now p

inductive Verb where
  | forget
  | remember
deriving DecidableEq, Repr

/-- a command, given when `curitem` is the current item -/
structure Command where
  verb : Verb
  curitem : ℤ
  now : BitVec 64
deriving DecidableEq, Repr

def Command.run (p : Pf) (c : Command) : Pf :=
  match c.verb with
  | .forget => do_forget c.curitem c.now p
  | .remember => do_remember c.curitem c.now p

def Pf.commands (p : Pf) (cs : List Command) : Pf := cs.foldl Command.run p

theorem Pf.commands_snoc (p : Pf) (cs : List Command) (c : Command) :
    p.commands (cs ++ [c]) = c.run (p.commands cs) := by
  rw [Pf.commands, Pf.commands, List.foldl_append, List.foldl_cons, List.foldl_nil]

/-! ## What is claimed -/

/-- the last command on the item, if there is one -/
def lastOn (cs : List Command) (item : ℤ) : Option Command := (cs.filter fun c => c.curitem = item).getLast?

/-- the flag that is asked for: by the last command on the item, or as it is loaded -/
def wanted (p : Pf) (cs : List Command) (item : ℤ) : Bool :=
  (lastOn cs item).elim (last_read p item).2 fun c => decide (c.verb = .forget)

/-- `last_read` reports for every item the flag that is asked for -/
def FlagsRight (p : Pf) (cs : List Command) : Prop := ∀ item, (last_read (p.commands cs) item).2 = wanted p cs item

/-- the number of commands on an item -/
def commandsOn (cs : List Command) (item : ℤ) : ℕ := cs.countP fun c => c.curitem = item

/-- Where a participation file is in use, the commands on the item are odd in number if the last of them asks for
another flag than the loaded one, and even if it asks for this; where none is in use, it does not forget the item. -/
def Matches (p : Pf) (cs : List Command) (item : ℤ) : Prop :=
  ∀ c ∈ lastOn cs item,
    if p.no_pf then c.verb = .remember
    else (commandsOn cs item % 2 = 1 ↔ decide (c.verb = .forget) ≠ (last_read p item).2)

instance (p : Pf) (cs : List Command) (item : ℤ) : Decidable (Matches p cs item) := by
  unfold Matches
  infer_instance

/-! ## Flags -/

section Flags

variable {p : Pf}

theorem run_eq_apply (p : Pf) (c : Command) : c.run p = p.apply (.update c.curitem (-1) c.now) := by
  cases h : c.verb with
  | forget => rw [Command.run, h]; rfl
  | remember => rw [Command.run, h]; rfl

theorem no_pf_commands (p : Pf) (cs : List Command) : (p.commands cs).no_pf = p.no_pf := by
  induction cs using List.reverseRecOn with
  | nil => rfl
  | append_singleton cs c ih => rw [Pf.commands_snoc, run_eq_apply, no_pf_apply, ih]

/-- **One command.** The flag of the current item is turned, and no other. -/
theorem flag_command (hpf : p.no_pf = false) (c : Command) (item : ℤ) :
    (last_read (c.run p) item).2 = xor (last_read p item).2 (decide (c.curitem = item)) := by
  rw [run_eq_apply, last_read_eq ((no_pf_apply _ _).trans hpf), last_read_eq hpf, pflist_apply hpf, mark_onList,
    Op.onMark]
  split_ifs with hitem
  · cases mark p.pflist item with
    | none => simp [Mark.update, hitem]
    | some m => simp [Mark.update, hitem]
  · simp [hitem]

theorem commandsOn_snoc (cs : List Command) (c : Command) (item : ℤ) :
    commandsOn (cs ++ [c]) item = commandsOn cs item + if c.curitem = item then 1 else 0 := by
  rw [commandsOn, List.countP_append, List.countP_singleton, commandsOn]
  simp only [decide_eq_true_eq]

/-- **Any number of commands.** The flag of an item is turned once for each command on it. -/
theorem flag_commands (hpf : p.no_pf = false) (cs : List Command) (item : ℤ) :
    (last_read (p.commands cs) item).2 = xor (last_read p item).2 (decide (commandsOn cs item % 2 = 1)) := by
  induction cs using List.reverseRecOn with
  | nil => simp [Pf.commands, commandsOn]
  | append_singleton cs c ih =>
    have hparity : decide ((commandsOn cs item + 1) % 2 = 1) = !decide (commandsOn cs item % 2 = 1) := by
      rw [← decide_not, decide_eq_decide]
      omega
    rw [Pf.commands_snoc, flag_command ((no_pf_commands p cs).trans hpf), ih, commandsOn_snoc]
    split_ifs with hitem
    · simp [hitem, hparity]
    · simp [hitem]

/-- without a participation file no item is forgotten -/
theorem flag_no_pf (hpf : p.no_pf = true) (item : ℤ) : (last_read p item).2 = false := by
  rw [last_read, if_pos hpf]

theorem commandsOn_of_lastOn {cs : List Command} {item : ℤ} (h : lastOn cs item = none) : commandsOn cs item = 0 := by
  rw [lastOn, List.getLast?_eq_none_iff] at h
  rw [commandsOn, List.countP_eq_length_filter, h, List.length_nil]

/-- the flag of one item -/
theorem flag_right_iff (p : Pf) (cs : List Command) (item : ℤ) :
    (last_read (p.commands cs) item).2 = wanted p cs item ↔ Matches p cs item := by
  cases hlast : lastOn cs item with
  | none =>
    have hwanted : wanted p cs item = (last_read p item).2 := by rw [wanted, hlast, Option.elim_none]
    refine iff_of_true ?_ fun c hc => by rw [hlast] at hc; cases hc
    cases hpf : p.no_pf with
    | true => rw [hwanted, flag_no_pf hpf, flag_no_pf ((no_pf_commands p cs).trans hpf)]
    | false =>
      rw [hwanted, flag_commands hpf, commandsOn_of_lastOn hlast]
      simp
  | some c =>
    have hwanted : wanted p cs item = decide (c.verb = .forget) := by rw [wanted, hlast, Option.elim_some]
    have hmatches : Matches p cs item ↔ if p.no_pf then c.verb = .remember
        else (commandsOn cs item % 2 = 1 ↔ decide (c.verb = .forget) ≠ (last_read p item).2) := by
      simp only [Matches, hlast, Option.mem_some_iff, forall_eq']
    rw [hwanted, hmatches]
    cases hpf : p.no_pf with
    | true =>
      rw [flag_no_pf ((no_pf_commands p cs).trans hpf), if_pos rfl]
      cases c.verb with
      | forget => decide
      | remember => decide
    | false =>
      rw [flag_commands hpf, if_neg Bool.false_ne_true]
      by_cases hodd : commandsOn cs item % 2 = 1
      · rw [decide_eq_true hodd, Bool.xor_true]
        cases (last_read p item).2 <;> cases c.verb <;> simp [hodd]
      · rw [decide_eq_false hodd, Bool.xor_false]
        cases (last_read p item).2 <;> cases c.verb <;> simp [hodd]

end Flags

/-! ## Main result -/

/-- **Forgetting and remembering.** After any commands `last_read` reports every item as its last command asks, and the
others as they are loaded, exactly if the commands on each item match its loaded flag. -/
theorem forget_right_iff (p : Pf) (cs : List Command) : FlagsRight p cs ↔ ∀ item, Matches p cs item :=
  forall_congr' fun item => flag_right_iff p cs item

/-- **Neither is idempotent.** Item 2, which is read, is forgotten twice, and is not forgotten; item 3, which is new, is
remembered, and is forgotten. -/
theorem forget_twice :
    let p : Pf := ⟨[], [⟨2, 4, false, 4, 0, false⟩], false⟩
    let twice : List Command := [⟨.forget, 2, 0⟩, ⟨.forget, 2, 0⟩]
    let once : List Command := [⟨.remember, 3, 0⟩]
    Increasing p.pflist ∧
      (last_read (p.commands twice) 2).2 = false ∧ ¬ FlagsRight p twice ∧
      (last_read (p.commands once) 3).2 = true ∧ ¬ FlagsRight p once := by
  refine ⟨by decide, by decide, fun h => ?_, by decide, fun h => ?_⟩
  · exact absurd (h 2) (by decide)
  · exact absurd (h 3) (by decide)

end MNetSoft.Bbsread
