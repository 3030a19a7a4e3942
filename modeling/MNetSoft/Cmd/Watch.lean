/-
`watch`, which tells of the people in a list when they come in and go out. `delta` of `watch.c` reads the table of
sessions (utmpx), one record a line, and compares it with what it knows of the lines from before.

What it knows is in the search tree `wason`, in blocks of type `Person`: a line and behind it the user. But `findline`
looks for a line in the tree `lines`, in which there is never anything, and puts a block of type `Line` into `wason`,
the line alone. `getperson` then finds that block. The user is outside of it: undefined behaviour (a fault), unless the
block from `malloc` happens to have room there, filled with zeros.
- `delta_lines`: with such blocks, `delta` does to each line on its own what `poll` does.
- `poll_right_iff`: when this tells of the user of a line what it should tell.
- `watch_right_iff`: in a run, the announcements are those of the last snapshot all the time if and only if there is
  room behind the lines, no interesting record has an empty name or line, and from one snapshot to the next no line
  goes over from an interesting user to another.
- `taken_over`: a line that goes over, and a snapshot with blocks that are as large as they are asked to be.
-/
import Mathlib.Tactic
import MNetSoft.Core.CString
import MNetSoft.Core.SortedTable

namespace MNetSoft.Cmd

open MNetSoft.CString MNetSoft.SortedTable

/-! ## Model -/

/-- a record of the table of sessions; `ut_user` has 32 characters, `ut_line` 16 -/
structure Utmpx where
  ut_user : Str
  ut_line : Str
  user_le : ut_user.length ≤ 32
  line_le : ut_line.length ≤ 16
deriving DecidableEq

/-- a block in `wason`: the line, and what is in memory where the user of a `Person` is, if there is such memory -/
structure Block where
  line : Str
  user : Option Str
deriving DecidableEq, Repr

/-- "in:" and "out:" -/
inductive Message where
  | cameIn (user line : Str)
  | wentOut (user line : Str)
deriving DecidableEq, Repr

/-- what does not change while `watch` runs -/
structure Watcher where
  mytty : Str
  people : Finset Str
  /-- a block for a `Line` from `malloc` has room for a `Person`, and zeros there -/
  room : Bool
  /-- the lines of the nodes that `twalk` visits, for the lines in the tree -/
  twalk : List Str → List Str
  mem_twalk : ∀ ls l, l ∈ twalk ls ↔ l ∈ ls
  mytty_ne : mytty ≠ []

/-- the search trees, a line given by its characters where only these matter, and what has been printed -/
structure Watch where
  lines : List Block
  wason : List Block
  seenlines : List Str
  printed : List Message
deriving DecidableEq, Repr

/-- why `delta` does not return -/
inductive Stop where
  | fault
  | exit
deriving DecidableEq, Repr

def start : Watch := ⟨[], [], [], []⟩

def interesting (c : Watcher) (name : Str) : Bool := name ∈ c.people

/-- a block for the line, unless there is one already -/
def tsearch (b : Block) (t : List Block) : List Block := alter Block.line b.line id b t

/-- find the line in `lines`, or put it into `wason` -/
def findline (c : Watcher) (line : Str) (w : Watch) : Watch :=
  let key := strlcpy line 17
  match find Block.line key w.lines with
  | some _ => w
  | none => { w with wason := tsearch ⟨key, if c.room then some [] else none⟩ w.wason }

/-- find the person on the line, or put one into `wason` -/
def getperson (line : Str) (w : Watch) : Watch :=
  let key := strlcpy line 17
  match find Block.line key w.wason with
  | some _ => w
  | none => { w with wason := tsearch ⟨key, some []⟩ w.wason }

/-- `p->user`, for the person on the line -/
def Watch.user (w : Watch) (line : Str) : Option Str := (find Block.line line w.wason).bind Block.user

def Block.withUser (user : Str) (b : Block) : Block := { b with user := some user }

/-- write to `p->user` -/
def Watch.setUser (w : Watch) (line user : Str) : Watch :=
  { w with wason := modify Block.line line (Block.withUser user) w.wason }

def Watch.print (w : Watch) (m : Message) : Watch := { w with printed := w.printed ++ [m] }

/-- what `delta` does about a record, with what it has seen of the own line -/
def record (c : Watcher) (r : Watch × Bool) (ut : Utmpx) : Except Stop (Watch × Bool) :=
  let (w, seenme) := r
  let user := strncpy ut.ut_user 32
  let line := strncpy ut.ut_line 16
  if line = [] then .ok (w, seenme)
  else
    let seenme := if strcmp line c.mytty = 0 then true else seenme
    let w := getperson line (findline c line w)
    match w.user line with
    | none => .error .fault
    | some old =>
      let w := if strcmp old user ≠ 0 ∧ interesting c user then
        (w.print (.cameIn user line)).setUser line (strlcpy user 33) else w
      .ok ({ w with seenlines := alter id line id line w.seenlines }, seenme)

/-- visit a node of `wason` -/
def prune (w : Watch) (line : Str) : Except Stop Watch :=
  match w.user line with
  | none => .error .fault
  | some user =>
    if user = [] then .ok w
    else
      match find id line w.seenlines with
      | some _ => .ok w
      | none => .ok ((w.print (.wentOut user line)).setUser line [])

/-- read the table of sessions and tell what has changed -/
def delta (c : Watcher) (w : Watch) (records : List Utmpx) : Except Stop Watch := do
  let (w, seenme) ← records.foldlM (record c) (w, false)
  if ¬seenme then throw .exit
  else
    let w ← (c.twalk (w.wason.map Block.line)).foldlM prune w
    -- tdelete the root until the tree is empty
    return { w with seenlines := [] }

/-! ## What should be announced -/

/-- a table of sessions with the own line and at most one record for a line -/
structure Snapshot (mytty : Str) where
  records : List Utmpx
  own : ∃ r ∈ records, r.ut_line = mytty
  once : records.Pairwise fun r r' => r.ut_line = r'.ut_line → r.ut_line = []

/-- the user has been announced in on the line, and not since announced out -/
def Announced (ms : List Message) (user line : Str) : Prop :=
  ∃ before after, ms = before ++ .cameIn user line :: after ∧ .wentOut user line ∉ after

/-- who is in on a line after some messages, if they alternate -/
def holder (line : Str) : Option (Option Str) → Message → Option (Option Str)
  | none, _ => none
  | some none, .cameIn u l => if l = line then some (some u) else some none
  | some (some v), .cameIn _ l => if l = line then none else some (some v)
  | some none, .wentOut _ l => if l = line then none else some none
  | some (some v), .wentOut u l => if l = line then if u = v then some none else none else some (some v)

/-- in and out messages alternate for the line -/
def Alternates (ms : List Message) (line : Str) : Prop := ms.foldl (holder line) (some none) ≠ none

/-- after the snapshot the interesting users in it are announced, and no others -/
def Right (c : Watcher) (ms : List Message) (records : List Utmpx) : Prop :=
  (∀ user line, Announced ms user line ↔ interesting c user ∧ ∃ r ∈ records, r.ut_user = user ∧ r.ut_line = line) ∧
    ∀ line, Alternates ms line

/-- it is so after each `delta` of a run -/
def RightAlong (c : Watcher) (w : Watch) : List (Snapshot c.mytty) → Prop
  | [] => True
  | s :: ss => ∃ w', delta c w s.records = .ok w' ∧ Right c w'.printed s.records ∧ RightAlong c w' ss

/-- the interesting records of the snapshot have names and lines, and no line of an interesting user before is now
another user's -/
def Undisturbed (c : Watcher) (before records : List Utmpx) : Prop :=
  (∀ r ∈ records, interesting c r.ut_user → r.ut_user ≠ [] ∧ r.ut_line ≠ []) ∧
    ∀ r ∈ before, interesting c r.ut_user → ∀ r' ∈ records, r'.ut_line = r.ut_line → r'.ut_user = r.ut_user

/-- it is so for each snapshot of a run and the one before -/
def AllUndisturbed (c : Watcher) (before : List Utmpx) : List (Snapshot c.mytty) → Prop
  | [] => True
  | s :: ss => c.room = true ∧ Undisturbed c before s.records ∧ AllUndisturbed c s.records ss

/-! ## Messages by lines -/

def Message.line : Message → Str
  | .cameIn _ l => l
  | .wentOut _ l => l

/-- the messages about a line -/
def heard (line : Str) (ms : List Message) : List Message := ms.filter fun m => m.line = line

theorem announced_concat (ms : List Message) (m : Message) (user line : Str) :
    Announced (ms ++ [m]) user line ↔ m = .cameIn user line ∨ (Announced ms user line ∧ m ≠ .wentOut user line) := by
  constructor
  · intro hx
    rcases hx with ⟨before, after, h, hafter⟩
    rcases List.eq_nil_or_concat after with rfl | ⟨after', m', rfl⟩
    · exact Or.inl (List.append_inj_right' h rfl |> List.cons.inj |>.1)
    · rw [List.concat_eq_append, ← List.cons_append, ← List.append_assoc] at h
      obtain ⟨hms, hm⟩ := List.append_inj' h rfl
      obtain rfl := (List.cons.inj hm).1
      simp only [List.concat_eq_append, List.mem_append, List.mem_singleton, not_or] at hafter
      exact Or.inr ⟨⟨before, after', hms, hafter.1⟩, Ne.symm hafter.2⟩
  · intro hx
    rcases hx with rfl | ⟨⟨before, after, rfl, hafter⟩, hm⟩
    · exact ⟨ms, [], rfl, List.not_mem_nil⟩
    · exact ⟨before, after ++ [m], by simp, by simp [hafter, hm.symm]⟩

theorem not_announced_nil (user line : Str) : ¬Announced [] user line := by
  intro hx
  rcases hx with ⟨before, after, h, -⟩
  simp at h

/-- only the messages about a line say who is announced on it -/
theorem announced_heard (ms : List Message) (user line : Str) :
    Announced (heard line ms) user line ↔ Announced ms user line := by
  induction ms using List.reverseRecOn with
  | nil => exact Iff.rfl
  | append_singleton ms m ih =>
    by_cases hm : m.line = line
    · have hheard : heard line (ms ++ [m]) = heard line ms ++ [m] := by simp [heard, hm]
      rw [hheard, announced_concat, announced_concat, ih]
    · have hheard : heard line (ms ++ [m]) = heard line ms := by simp [heard, hm]
      have hin : m ≠ .cameIn user line := by
        rintro rfl
        exact hm rfl
      have hout : m ≠ .wentOut user line := by
        rintro rfl
        exact hm rfl
      rw [hheard, announced_concat, ih]
      simp [hin, hout]

theorem holder_other {line : Str} {m : Message} (hm : m.line ≠ line) (st : Option (Option Str)) :
    holder line st m = st := by
  cases m with
  | cameIn u l => rcases st with _ | _ | v <;> simp_all [holder, Message.line]
  | wentOut u l => rcases st with _ | _ | v <;> simp_all [holder, Message.line]

theorem foldl_holder_heard (line : Str) (ms : List Message) (st : Option (Option Str)) :
    (heard line ms).foldl (holder line) st = ms.foldl (holder line) st := by
  induction ms generalizing st with
  | nil => rfl
  | cons m ms ih =>
    by_cases hm : m.line = line
    · have hheard : heard line (m :: ms) = m :: heard line ms := by simp [heard, hm]
      rw [hheard, List.foldl_cons, List.foldl_cons, ih]
    · have hheard : heard line (m :: ms) = heard line ms := by simp [heard, hm]
      rw [hheard, List.foldl_cons, holder_other hm, ih]

/-! ## One line -/

/-- who is known to be on a line, and the messages about it -/
structure LineSt where
  user : Str
  ms : List Message

/-- a record of the line -/
def LineSt.come (c : Watcher) (line user : Str) (s : LineSt) : LineSt :=
  if s.user ≠ user ∧ interesting c user then ⟨user, s.ms ++ [.cameIn user line]⟩ else s

/-- no record of the line -/
def LineSt.leave (line : Str) (s : LineSt) : LineSt :=
  if s.user = [] then s else ⟨[], s.ms ++ [.wentOut s.user line]⟩

/-- a look at the line -/
def poll (c : Watcher) (line : Str) (now : Option Str) (s : LineSt) : LineSt :=
  match now with
  | some user => s.come c line user
  | none => s.leave line

/-- the user known is interesting, and the one who is announced -/
structure Settled (c : Watcher) (line : Str) (s : LineSt) : Prop where
  announced : ∀ u, Announced s.ms u line ↔ s.user = u ∧ u ≠ []
  alternates : s.ms.foldl (holder line) (some none) = some (if s.user = [] then none else some s.user)
  interesting : s.user ≠ [] → interesting c s.user

/-- what a look finds is a named user, and not one who takes over the line -/
def Calm (c : Watcher) (now : Option Str) (s : LineSt) : Prop :=
  ∀ u, now = some u → (interesting c u → u ≠ []) ∧ (s.user ≠ [] → u = s.user)

/-- who is announced after an "in:" message -/
theorem announced_cameIn {c : Watcher} {line u v : Str} {s : LineSt} (h : Settled c line s) :
    Announced (s.ms ++ [.cameIn v line]) u line ↔ v = u ∨ (s.user = u ∧ u ≠ []) := by
  rw [announced_concat, h.announced]
  simp

/-- after an "out:" message nobody is announced -/
theorem not_announced_wentOut {c : Watcher} {line u : Str} {s : LineSt} (h : Settled c line s) :
    ¬Announced (s.ms ++ [.wentOut s.user line]) u line := by
  rw [announced_concat, h.announced]
  intro hx
  rcases hx with hin | ⟨⟨rfl, -⟩, hout⟩
  · cases hin
  · exact hout rfl

/-- **When a look at a line is right**: a new interesting user has a name, and nobody takes the line over -/
theorem poll_right_iff {c : Watcher} {line : Str} {s : LineSt} (h : Settled c line s) (now : Option Str) :
    (∀ u, Announced (poll c line now s).ms u line ↔ interesting c u ∧ now = some u) ↔ Calm c now s := by
  cases now with
  | none =>
    refine iff_of_true (fun u => iff_of_false ?_ (by simp)) (by simp [Calm])
    rw [poll, LineSt.leave]
    split
    case isTrue hnone =>
      rw [h.announced]
      intro hx
      rcases hx with ⟨rfl, hu⟩
      exact hu hnone
    case isFalse => exact not_announced_wentOut h
  | some v =>
    rw [poll, LineSt.come]
    split
    case isTrue hnew =>
      simp only [announced_cameIn h, Option.some.injEq]
      constructor
      · rintro hright u hu
        cases hu
        -- a user before would still be announced
        have hnobody : s.user = [] := by
          by_contra hsome
          exact hnew.1 ((hright s.user).1 (Or.inr ⟨rfl, hsome⟩)).2.symm
        exact ⟨fun _ hv => hnew.1 (hnobody.trans hv.symm), fun hsome => absurd hnobody hsome⟩
      · intro hcalm u
        obtain ⟨hname, hkeeps⟩ := hcalm v rfl
        have hnobody : s.user = [] := by
          by_contra hsome
          exact hnew.1 (hkeeps hsome).symm
        refine ⟨?_, fun hu => Or.inl hu.2⟩
        intro hx
        rcases hx with rfl | ⟨rfl, hu⟩
        · exact ⟨hnew.2, rfl⟩
        · exact absurd hnobody hu
    case isFalse hold =>
      simp only [h.announced, Option.some.injEq]
      constructor
      · rintro hright u hu
        cases hu
        exact ⟨fun hv => ((hright v).2 ⟨hv, rfl⟩).2, fun hsome => ((hright s.user).1 ⟨rfl, hsome⟩).2⟩
      · intro hcalm u
        obtain ⟨hname, hkeeps⟩ := hcalm v rfl
        constructor
        · intro hx
          rcases hx with ⟨rfl, hsome⟩
          exact ⟨h.interesting hsome, hkeeps hsome⟩
        · intro hx
          rcases hx with ⟨hu, rfl⟩
          have hsame : s.user = v := by
            by_contra hne
            exact hold ⟨hne, hu⟩
          exact ⟨hsame, hname hu⟩

/-- after a calm look the messages still alternate, and the one who is known is the one announced -/
theorem Settled.poll {c : Watcher} {line : Str} {s : LineSt} (h : Settled c line s) {now : Option Str}
    (hcalm : Calm c now s) : Settled c line (poll c line now s) := by
  cases now with
  | none =>
    rw [Cmd.poll, LineSt.leave]
    split
    case isTrue => exact h
    case isFalse hsome =>
      refine ⟨fun u => ?_, ?_, fun hne => absurd rfl hne⟩
      · refine iff_of_false (not_announced_wentOut h) ?_
        intro hx
        rcases hx with ⟨rfl, hu⟩
        exact hu rfl
      · rw [List.foldl_append, h.alternates, if_neg hsome, if_pos rfl]
        simp [holder]
  | some v =>
    rw [Cmd.poll, LineSt.come]
    split
    case isFalse => exact h
    case isTrue hnew =>
      obtain ⟨hname, hkeeps⟩ := hcalm v rfl
      have hnobody : s.user = [] := by
        by_contra hsome
        exact hnew.1 (hkeeps hsome).symm
      refine ⟨fun u => ?_, ?_, fun _ => hnew.2⟩
      · rw [announced_cameIn h, hnobody]
        constructor
        · intro hx
          rcases hx with rfl | ⟨rfl, hu⟩
          · exact ⟨rfl, hname hnew.2⟩
          · exact absurd rfl hu
        · exact fun hu => Or.inl hu.1
      · rw [List.foldl_append, h.alternates, if_pos hnobody, if_neg (hname hnew.2)]
        simp [holder]

/-! ## All lines -/

/-- what is known of a line -/
def Watch.view (w : Watch) (line : Str) : LineSt := ⟨(w.user line).getD [], heard line w.printed⟩

/-- every block in `wason` has room for a user -/
structure Ready (w : Watch) : Prop where
  lines : w.lines = []
  sorted : Increasing Block.line w.wason
  blocks : ∀ b ∈ w.wason, b.user ≠ none ∧ b.line ≠ []

def Seen (w : Watch) (line : Str) : Prop := find id line w.seenlines ≠ none

instance (w : Watch) (line : Str) : Decidable (Seen w line) := by
  unfold Seen
  infer_instance

theorem view_congr {w w' : Watch} {l : Str} (huser : w'.user l = w.user l)
    (hms : heard l w'.printed = heard l w.printed) :
    w'.view l = w.view l := by
  rw [Watch.view, Watch.view, huser, hms]

section Steps

variable {c : Watcher} {w : Watch} {line : Str}

theorem Ready.user_of_find (h : Ready w) {b : Block} (hb : find Block.line line w.wason = some b) :
    w.user line = some ((w.user line).getD []) := by
  have huser : w.user line = b.user := by rw [Watch.user, hb, Option.bind_some]
  rw [huser]
  cases hu : b.user with
  | none => exact absurd hu (h.blocks b (mem_of_find hb).1).1
  | some u => rfl

theorem Ready.print (h : Ready w) (m : Message) : Ready (w.print m) := ⟨h.lines, h.sorted, h.blocks⟩

theorem heard_print_self {m : Message} (hm : m.line = line) :
    heard line (w.print m).printed = heard line w.printed ++ [m] := by
  simp [heard, Watch.print, hm]

theorem heard_print_ne {m : Message} (hm : m.line ≠ line) : heard line (w.print m).printed = heard line w.printed := by
  simp [heard, Watch.print, hm]

theorem line_withUser (user : Str) (b : Block) : (b.withUser user).line = b.line := rfl

theorem Ready.setUser (h : Ready w) (l user : Str) : Ready (w.setUser l user) where
  lines := h.lines
  sorted := increasing_modify (line_withUser user) h.sorted
  blocks := forall_mem_modify (fun _ hb => ⟨Option.some_ne_none user, hb.2⟩) h.blocks

theorem user_setUser_self {b : Block} (hb : find Block.line line w.wason = some b) (user : Str) :
    (w.setUser line user).user line = some user := by
  rw [Watch.user, Watch.setUser, find_modify_self (line_withUser user), hb]
  rfl

theorem user_setUser_ne {l : Str} (hl : l ≠ line) (user : Str) : (w.setUser line user).user l = w.user l := by
  rw [Watch.user, Watch.setUser, find_modify_ne (line_withUser user) hl]
  rfl

/-- a line in `wason`, and the block that is there for it -/
theorem findline_spec (hroom : c.room = true) (h : Ready w) (hline : line ≠ []) (hle : line.length ≤ 16) :
    Ready (findline c line w) ∧ (∃ b, find Block.line line (findline c line w).wason = some b) ∧
      (findline c line w).user line = some ((w.user line).getD []) ∧
      (∀ l, l ≠ line → (findline c line w).user l = w.user l) ∧
      (findline c line w).printed = w.printed ∧ (findline c line w).seenlines = w.seenlines := by
  have hkey : strlcpy line 17 = line := List.take_of_length_le hle
  have hnone : find Block.line line w.lines = none := by rw [h.lines]; rfl
  have hfind : findline c line w = { w with wason := tsearch ⟨line, some []⟩ w.wason } := by
    rw [findline, hkey, hnone, hroom]
    rfl
  have hself : find Block.line line (tsearch ⟨line, some []⟩ w.wason) =
      some ((find Block.line line w.wason).getD ⟨line, some []⟩) :=
    @find_put_self _ _ _ Block.line line ⟨line, some []⟩ rfl w.wason
  rw [hfind]
  refine ⟨⟨h.lines, increasing_alter (fun _ => rfl) rfl h.sorted, ?_⟩, ⟨_, hself⟩, ?_, fun l hl => ?_, rfl, rfl⟩
  · exact forall_mem_alter ⟨Option.some_ne_none _, hline⟩ (fun _ hb => hb) h.blocks
  · rw [Watch.user, hself, Option.bind_some]
    cases hb : find Block.line line w.wason with
    | none => simp [Watch.user, hb]
    | some b =>
      rw [← h.user_of_find hb, Watch.user, hb]
      rfl
  · have hne : find Block.line l (tsearch ⟨line, some []⟩ w.wason) = find Block.line l w.wason :=
      find_put_ne rfl hl w.wason
    rw [Watch.user, hne]
    rfl

/-- `getperson` finds the block that `findline` has put there -/
theorem getperson_eq (hle : line.length ≤ 16) {b : Block} (hb : find Block.line line w.wason = some b) :
    getperson line w = w := by
  have hkey : strlcpy line 17 = line := List.take_of_length_le hle
  rw [getperson, hkey, hb]

/-- tell of a user who was not on the line before -/
def tell (c : Watcher) (line user : Str) (w : Watch) : Watch :=
  if (w.user line).getD [] ≠ user ∧ interesting c user then (w.print (.cameIn user line)).setUser line user else w

theorem tell_spec (h : Ready w) {b : Block} (hb : find Block.line line w.wason = some b) (user : Str) :
    Ready (tell c line user w) ∧ (tell c line user w).view line = (w.view line).come c line user ∧
      (∀ l, l ≠ line → (tell c line user w).view l = w.view l) ∧ (tell c line user w).seenlines = w.seenlines := by
  unfold tell
  split
  case isTrue hnew =>
    have hb' : find Block.line line (w.print (.cameIn user line)).wason = some b := hb
    refine ⟨(h.print _).setUser line user, ?_, fun l hl => ?_, rfl⟩
    · have hview : (w.view line).user ≠ user ∧ interesting c user := hnew
      rw [LineSt.come, if_pos hview, Watch.view, user_setUser_self hb', Option.getD_some]
      exact congrArg (LineSt.mk user) (heard_print_self rfl)
    · exact view_congr (user_setUser_ne hl user) (heard_print_ne (Ne.symm hl))
  case isFalse hold =>
    have hview : ¬((w.view line).user ≠ user ∧ interesting c user) := hold
    exact ⟨h, by rw [LineSt.come, if_neg hview], fun _ _ => rfl, rfl⟩

/-- **A record** is heard of on its line, and on no other -/
theorem record_spec (hroom : c.room = true) (h : Ready w) (seenme : Bool) (ut : Utmpx) (hline : ut.ut_line ≠ []) :
    ∃ w', record c (w, seenme) ut = .ok (w', if ut.ut_line = c.mytty then true else seenme) ∧ Ready w' ∧
      w'.view ut.ut_line = (w.view ut.ut_line).come c ut.ut_line ut.ut_user ∧
      (∀ l, l ≠ ut.ut_line → w'.view l = w.view l) ∧ ∀ l, Seen w' l ↔ l = ut.ut_line ∨ Seen w l := by
  have huser : strncpy ut.ut_user 32 = ut.ut_user := strncpy_of_le ut.user_le
  have hcopy : strncpy ut.ut_line 16 = ut.ut_line := strncpy_of_le ut.line_le
  have hstore : strlcpy ut.ut_user 33 = ut.ut_user := List.take_of_length_le ut.user_le
  obtain ⟨hready, ⟨b, hb⟩, hself, hother, hprinted, hseen⟩ := findline_spec hroom h hline ut.line_le
  set w₁ := findline c ut.ut_line w with hw₁
  obtain ⟨hready₂, hview, hviews, hseen₂⟩ := @tell_spec c w₁ ut.ut_line hready b hb ut.ut_user
  have hview₁ : ∀ l, w₁.view l = w.view l := by
    intro l
    have hms : heard l w₁.printed = heard l w.printed := by rw [hprinted]
    by_cases hl : l = ut.ut_line
    · rw [hl] at hms ⊢
      rw [Watch.view, hself, Option.getD_some, hms]
      rfl
    · exact view_congr (hother l hl) hms
  refine ⟨{ tell c ut.ut_line ut.ut_user w₁ with
    seenlines := alter id ut.ut_line id ut.ut_line (tell c ut.ut_line ut.ut_user w₁).seenlines }, ?_, ?_, ?_, ?_, ?_⟩
  · rw [record, huser, hcopy, hstore]
    dsimp only
    rw [if_neg hline, ← hw₁, getperson_eq ut.line_le hb, hself, tell, hself, Option.getD_some]
    simp only [strcmp_zero, ne_eq]
  · exact ⟨hready₂.lines, hready₂.sorted, hready₂.blocks⟩
  · exact hview.trans (by rw [hview₁])
  · intro l hl
    exact (hviews l hl).trans (hview₁ l)
  · intro l
    unfold Seen
    dsimp only
    by_cases hl : l = ut.ut_line
    · subst hl
      rw [@find_put_self Str Str _ id ut.ut_line ut.ut_line rfl]
      simp
    · rw [@find_put_ne Str Str _ id ut.ut_line l ut.ut_line rfl hl, hseen₂, hseen]
      simp [hl]

/-- the user of a line in a table of sessions -/
def userOn (line : Str) (records : List Utmpx) : Option Str :=
  (records.find? fun r => r.ut_line = line).map Utmpx.ut_user

theorem userOn_isSome {records : List Utmpx} : userOn line records ≠ none ↔ ∃ r ∈ records, r.ut_line = line := by
  simp [userOn, List.find?_eq_none]

theorem userOn_eq_some {records : List Utmpx} (hline : line ≠ [])
    (honce : records.Pairwise fun r r' => r.ut_line = r'.ut_line → r.ut_line = []) (u : Str) :
    userOn line records = some u ↔ ∃ r ∈ records, r.ut_user = u ∧ r.ut_line = line := by
  induction records with
  | nil => simp [userOn]
  | cons ut rs ih =>
    obtain ⟨hne, hrs⟩ := List.pairwise_cons.1 honce
    by_cases hl : ut.ut_line = line
    · have hfirst : userOn line (ut :: rs) = some ut.ut_user := by simp [userOn, hl]
      have honly : ∀ r ∈ rs, r.ut_line ≠ line := fun r hr h => hline (hl ▸ hne r hr (hl.trans h.symm))
      rw [hfirst, Option.some.injEq, List.exists_mem_cons_iff]
      exact ⟨fun h => Or.inl ⟨h, hl⟩, fun h => h.elim And.left fun ⟨r, hr, _, h⟩ => absurd h (honly r hr)⟩
    · have hrest : userOn line (ut :: rs) = userOn line rs := by simp [userOn, hl]
      rw [hrest, ih hrs, List.exists_mem_cons_iff]
      exact ⟨Or.inr, fun h => h.resolve_left fun h => hl h.2⟩

/-- what the records say of a line -/
def heardOf (c : Watcher) (line : Str) (now : Option Str) (s : LineSt) : LineSt :=
  match now with
  | some user => s.come c line user
  | none => s

/-- **The records of a table of sessions** -/
theorem records_spec (hroom : c.room = true) (records : List Utmpx)
    (honce : records.Pairwise fun r r' => r.ut_line = r'.ut_line → r.ut_line = []) (h : Ready w) (seenme : Bool) :
    ∃ w' me, records.foldlM (record c) (w, seenme) = .ok (w', me) ∧ Ready w' ∧
      (me = true ↔ seenme = true ∨ ∃ r ∈ records, r.ut_line = c.mytty) ∧ w'.view [] = w.view [] ∧
      (∀ l, l ≠ [] → w'.view l = heardOf c l (userOn l records) (w.view l)) ∧
      ∀ l, Seen w' l ↔ (l ≠ [] ∧ ∃ r ∈ records, r.ut_line = l) ∨ Seen w l := by
  induction records generalizing w seenme with
  | nil => exact ⟨w, seenme, rfl, h, by simp, rfl, fun _ _ => rfl, by simp⟩
  | cons ut rs ih =>
    obtain ⟨hne, hrs⟩ := List.pairwise_cons.1 honce
    rw [List.foldlM_cons]
    by_cases hline : ut.ut_line = []
    · -- a place holder
      have hskip : record c (w, seenme) ut = .ok (w, seenme) := by
        rw [record]
        exact if_pos (by rw [hline]; rfl)
      obtain ⟨w', me, hrest, hready, hme, hempty, hview, hseen⟩ := ih hrs h seenme
      refine ⟨w', me, by rw [hskip]; exact hrest, hready, ?_, hempty, fun l hl => ?_, fun l => ?_⟩
      · rw [hme, List.exists_mem_cons_iff]
        simp [hline, c.mytty_ne.symm]
      · have hother : userOn l (ut :: rs) = userOn l rs := by simp [userOn, hline, hl.symm]
        rw [hview l hl, hother]
      · rw [hseen, List.exists_mem_cons_iff, hline]
        refine or_congr_left (and_congr_right fun hl => ?_)
        simp [hl.symm]
    · obtain ⟨w₁, hrecord, hready₁, hself, hother, hseen₁⟩ := record_spec hroom h seenme ut hline
      obtain ⟨w', me, hrest, hready, hme, hempty, hview, hseen⟩ :=
        ih hrs hready₁ (if ut.ut_line = c.mytty then true else seenme)
      refine ⟨w', me, by rw [hrecord]; exact hrest, hready, ?_, ?_, fun l hl => ?_, fun l => ?_⟩
      · rw [hme, List.exists_mem_cons_iff]
        split <;> simp_all
      · rw [hempty, hother [] (Ne.symm hline)]
      · by_cases hl' : l = ut.ut_line
        · subst hl'
          have hfirst : userOn ut.ut_line (ut :: rs) = some ut.ut_user := by simp [userOn]
          have honly : userOn ut.ut_line rs = none := by
            by_contra hsome
            obtain ⟨r, hr, heq⟩ := userOn_isSome.1 hsome
            exact hline (hne r hr heq.symm)
          rw [hview _ hline, hfirst, honly]
          exact hself
        · have hskip : userOn l (ut :: rs) = userOn l rs := by simp [userOn, Ne.symm hl']
          rw [hview l hl, hskip, hother l hl']
      · rw [hseen, hseen₁, List.exists_mem_cons_iff]
        by_cases hl' : l = ut.ut_line
        · simp [hl', hline]
        · simp [hl', Ne.symm hl']

/-- **A visit of `twalk`** to a node -/
theorem prune_spec (h : Ready w) {b : Block} (hb : find Block.line line w.wason = some b) :
    ∃ w', prune w line = .ok w' ∧ Ready w' ∧ w'.wason.map Block.line = w.wason.map Block.line ∧
      w'.seenlines = w.seenlines ∧ (Seen w line → w'.view line = w.view line) ∧
      (¬Seen w line → w'.view line = (w.view line).leave line) ∧ ∀ l, l ≠ line → w'.view l = w.view l := by
  rw [prune, h.user_of_find hb]
  dsimp only
  split
  case isTrue hnobody =>
    have hleave : (w.view line).leave line = w.view line := if_pos hnobody
    exact ⟨w, rfl, h, rfl, rfl, fun _ => rfl, fun _ => hleave.symm, fun _ _ => rfl⟩
  case isFalse hsome =>
    cases hfind : find id line w.seenlines with
    | some l =>
      have hseen : Seen w line := by
        rw [Seen, hfind]
        exact Option.some_ne_none l
      exact ⟨w, rfl, h, rfl, rfl, fun _ => rfl, fun hnot => absurd hseen hnot, fun _ _ => rfl⟩
    | none =>
      refine ⟨_, rfl, (h.print _).setUser line [], ?_, rfl, fun hseen => absurd hfind hseen, fun _ => ?_,
        fun l hl => ?_⟩
      · exact map_key_modify (line_withUser []) w.wason
      · have hb' : find Block.line line (w.print (.wentOut ((w.user line).getD []) line)).wason = some b := hb
        have hview : ¬(w.view line).user = [] := hsome
        rw [LineSt.leave, if_neg hview, Watch.view, user_setUser_self hb', Option.getD_some]
        exact congrArg (LineSt.mk []) (heard_print_self rfl)
      · exact view_congr (user_setUser_ne hl []) (heard_print_ne (Ne.symm hl))

theorem leave_leave (line : Str) (s : LineSt) : (s.leave line).leave line = s.leave line := by
  unfold LineSt.leave
  split_ifs <;> simp_all

/-- **The visits of `twalk`**, in any order and as often as it likes -/
theorem prunes_spec (h : Ready w) (ls : List Str) (hls : ∀ l ∈ ls, l ∈ w.wason.map Block.line) :
    ∃ w', ls.foldlM prune w = .ok w' ∧ Ready w' ∧ w'.wason.map Block.line = w.wason.map Block.line ∧
      ∀ l, w'.view l = if l ∈ ls ∧ ¬Seen w l then (w.view l).leave l else w.view l := by
  induction ls generalizing w with
  | nil => exact ⟨w, rfl, h, rfl, fun l => by simp⟩
  | cons k ls ih =>
    obtain ⟨hk, hls⟩ := List.forall_mem_cons.1 hls
    obtain ⟨b, hb⟩ := exists_find h.sorted hk
    obtain ⟨w₁, hprune, hready₁, hkeys, hseen₁, hstay, hleave, hother⟩ := prune_spec h hb
    obtain ⟨w', hrest, hready, hkeys', hview⟩ := ih hready₁ (by rwa [hkeys])
    have hseen : ∀ l, Seen w₁ l ↔ Seen w l := fun l => by rw [Seen, Seen, hseen₁]
    refine ⟨w', by rw [List.foldlM_cons, hprune]; exact hrest, hready, hkeys'.trans hkeys, fun l => ?_⟩
    simp only [hview, hseen]
    by_cases hl : l = k
    · subst hl
      by_cases hs : Seen w l
      · rw [if_neg (fun h => h.2 hs), if_neg (fun h => h.2 hs), hstay hs]
      · rw [hleave hs, leave_leave, ite_self, if_pos ⟨List.mem_cons_self, hs⟩]
    · rw [hother l hl]
      simp [hl]

/-- **What `delta` does.** It looks at each line on its own. -/
theorem delta_lines (hroom : c.room = true) (h : Ready w) (hseen : w.seenlines = []) (s : Snapshot c.mytty) :
    ∃ w', delta c w s.records = .ok w' ∧ Ready w' ∧ w'.seenlines = [] ∧ w'.view [] = w.view [] ∧
      ∀ l, l ≠ [] → w'.view l = poll c l (userOn l s.records) (w.view l) := by
  obtain ⟨w₁, me, hrecords, hready₁, hme, hempty, hview₁, hseen₁⟩ := records_spec hroom s.records s.once h false
  obtain rfl : me = true := hme.2 (Or.inr s.own)
  have hnodes : ∀ l ∈ c.twalk (w₁.wason.map Block.line), l ∈ w₁.wason.map Block.line := fun l => (c.mem_twalk _ l).1
  obtain ⟨w₂, hprunes, hready₂, -, hview₂⟩ := prunes_spec hready₁ _ hnodes
  have hnotSeen : ∀ l, ¬Seen w l := by
    intro l
    rw [Seen, hseen]
    exact not_not.2 rfl
  have hnode : ∀ l, (w₁.view l).user ≠ [] → l ∈ w₁.wason.map Block.line := by
    intro l hl
    cases hb : find Block.line l w₁.wason with
    | none => exact absurd (by simp [Watch.view, Watch.user, hb]) hl
    | some b => exact List.mem_map.2 ⟨b, mem_of_find hb⟩
  refine ⟨{ w₂ with seenlines := [] }, ?_, ⟨hready₂.lines, hready₂.sorted, hready₂.blocks⟩, rfl, ?_, fun l hl => ?_⟩
  · rw [delta, hrecords]
    simp only [bind, Except.bind, not_true_eq_false, if_false, hprunes]
    rfl
  · have hnobody : (w₁.view []).leave [] = w₁.view [] := by
      apply if_pos
      by_contra hsome
      obtain ⟨b, hb, hline⟩ := List.mem_map.1 (hnode [] hsome)
      exact (hready₁.blocks b hb).2 hline
    refine (hview₂ []).trans ?_
    rw [hnobody, ite_self, hempty]
  · refine (hview₂ l).trans ?_
    have hseen : Seen w₁ l ↔ userOn l s.records ≠ none := by
      rw [hseen₁, or_iff_left (hnotSeen l), and_iff_right hl, userOn_isSome]
    simp only [hseen, c.mem_twalk]
    cases huser : userOn l s.records with
    | some u =>
      rw [if_neg (fun h => h.2 (Option.some_ne_none u)), hview₁ l hl, huser]
      rfl
    | none =>
      have hsame : w₁.view l = w.view l := by
        rw [hview₁ l hl, huser]
        rfl
      rw [hsame, poll]
      split
      case isTrue => rfl
      case isFalse hnot =>
        refine (if_pos ?_ : (w.view l).leave l = w.view l).symm
        by_contra hsome
        exact hnot ⟨hnode l (hsame ▸ hsome), fun h => h rfl⟩

end Steps

/-! ## Runs -/

/-- between two calls of `delta`, after the snapshot `before` -/
structure Inv (c : Watcher) (before : List Utmpx) (w : Watch) : Prop where
  ready : Ready w
  seenlines : w.seenlines = []
  settled : ∀ l, Settled c l (w.view l)
  known : ∀ u l, (w.view l).user = u ∧ u ≠ [] ↔ interesting c u ∧ ∃ r ∈ before, r.ut_user = u ∧ r.ut_line = l

theorem inv_start (c : Watcher) : Inv c [] start where
  ready := ⟨rfl, List.Pairwise.nil, by simp [start]⟩
  seenlines := rfl
  settled := fun l => ⟨fun u => iff_of_false (not_announced_nil u l) (fun h => h.2 h.1.symm), rfl,
    fun h => absurd rfl h⟩
  known := fun u l => iff_of_false (fun h => h.2 h.1.symm) (by simp)

section Inv

variable {c : Watcher} {w : Watch} {before : List Utmpx}

/-- nobody is on a line without a name -/
theorem Ready.view_nil (h : Ready w) : (w.view []).user = [] := by
  cases hb : find Block.line [] w.wason with
  | none => simp [Watch.view, Watch.user, hb]
  | some b => exact absurd (mem_of_find hb).2 (h.blocks b (mem_of_find hb).1).2

/-- a snapshot leaves the lines in peace, line by line -/
theorem undisturbed_iff (h : Inv c before w) (s : Snapshot c.mytty) :
    Undisturbed c before s.records ↔ (∀ r ∈ s.records, interesting c r.ut_user → r.ut_line ≠ []) ∧
      ∀ l, l ≠ [] → Calm c (userOn l s.records) (w.view l) := by
  have hon : ∀ l, l ≠ [] → ∀ u, userOn l s.records = some u ↔ ∃ r ∈ s.records, r.ut_user = u ∧ r.ut_line = l :=
    fun l hl u => userOn_eq_some hl s.once u
  constructor
  · intro hx
    rcases hx with ⟨hnamed, hkeep⟩
    refine ⟨fun r hr hu => (hnamed r hr hu).2, fun l hl u hu => ?_⟩
    obtain ⟨r, hr, rfl, rfl⟩ := (hon l hl u).1 hu
    refine ⟨fun hint => (hnamed r hr hint).1, fun hsome => ?_⟩
    obtain ⟨hint, r₀, hr₀, huser, hline⟩ := (h.known _ _).1 ⟨rfl, hsome⟩
    rw [← huser]
    exact hkeep r₀ hr₀ (huser ▸ hint) r hr hline.symm
  · intro hx
    rcases hx with ⟨hlines, hcalm⟩
    refine ⟨fun r hr hu => ?_, fun r hr hu r' hr' hline => ?_⟩
    · have hl := hlines r hr hu
      exact ⟨((hcalm _ hl) _ ((hon _ hl _).2 ⟨r, hr, rfl, rfl⟩)).1 hu, hl⟩
    · obtain ⟨hknown, hne⟩ := (h.known r.ut_user r.ut_line).2 ⟨hu, r, hr, rfl, rfl⟩
      have hl : r.ut_line ≠ [] := fun hnil => hne (by rw [← hknown, hnil, h.ready.view_nil])
      rw [← hknown] at hne
      exact (((hcalm _ hl) _ ((hon _ hl _).2 ⟨r', hr', rfl, hline⟩)).2 hne).trans hknown

/-- **When one `delta` is right**, and what is then known -/
theorem delta_right_iff (hroom : c.room = true) (h : Inv c before w) (s : Snapshot c.mytty) :
    ∃ w', delta c w s.records = .ok w' ∧ (Right c w'.printed s.records ↔ Undisturbed c before s.records) ∧
      (Undisturbed c before s.records → Inv c s.records w') := by
  obtain ⟨w', hdelta, hready, hseen, hempty, hview⟩ := delta_lines hroom h.ready h.seenlines s
  refine ⟨w', hdelta, ?_⟩
  have hon : ∀ l, l ≠ [] → ∀ u, userOn l s.records = some u ↔ ∃ r ∈ s.records, r.ut_user = u ∧ r.ut_line = l :=
    fun l hl u => userOn_eq_some hl s.once u
  have hann : ∀ u l, Announced w'.printed u l ↔ Announced (w'.view l).ms u l := fun u l =>
    (announced_heard w'.printed u l).symm
  have hnone : ∀ u, ¬Announced w'.printed u [] := by
    intro u hu
    rw [hann, hempty, (h.settled []).announced, h.ready.view_nil] at hu
    exact hu.2 hu.1.symm
  have hright : (∀ u l, Announced w'.printed u l ↔
      interesting c u ∧ ∃ r ∈ s.records, r.ut_user = u ∧ r.ut_line = l) ↔ Undisturbed c before s.records := by
    rw [undisturbed_iff h s]
    constructor
    · intro hright
      refine ⟨fun r hr hu hl => ?_, fun l hl => ?_⟩
      · exact hnone r.ut_user ((hright r.ut_user []).2 ⟨hu, r, hr, rfl, hl⟩)
      · refine (poll_right_iff (h.settled l) _).1 fun u => ?_
        rw [← hview l hl, ← hann, hright, hon l hl]
    · intro hx u l
      rcases hx with ⟨hlines, hcalm⟩
      by_cases hl : l = []
      · subst hl
        exact iff_of_false (hnone u) fun ⟨hu, r, hr, huser, hline⟩ => hlines r hr (huser ▸ hu) hline
      · rw [hann, hview l hl, (poll_right_iff (h.settled l) _).2 (hcalm l hl), hon l hl]
  have hsettled : Undisturbed c before s.records → ∀ l, Settled c l (w'.view l) := by
    intro hund l
    by_cases hl : l = []
    · subst hl
      rw [hempty]
      exact h.settled []
    · rw [hview l hl]
      exact (h.settled l).poll (((undisturbed_iff h s).1 hund).2 l hl)
  refine ⟨⟨fun hr => hright.1 hr.1, fun hund => ⟨hright.2 hund, fun l => ?_⟩⟩, fun hund => ?_⟩
  · rw [Alternates, ← foldl_holder_heard, show heard l w'.printed = (w'.view l).ms from rfl,
      (hsettled hund l).alternates]
    exact Option.some_ne_none _
  · refine ⟨hready, hseen, hsettled hund, fun u l => ?_⟩
    rw [← (hsettled hund l).announced, ← hann]
    exact hright.2 hund u l

end Inv

/-- without room behind the line, the first record of a line is a fault -/
theorem record_fault {c : Watcher} (hroom : c.room = false) (me : Bool) (ut : Utmpx) (hline : ut.ut_line ≠ []) :
    record c (start, me) ut = .error .fault := by
  have hcopy : strncpy ut.ut_line 16 = ut.ut_line := strncpy_of_le ut.line_le
  have hkey : strlcpy ut.ut_line 17 = ut.ut_line := List.take_of_length_le ut.line_le
  have hfind : findline c ut.ut_line start = { start with wason := [⟨ut.ut_line, none⟩] } := by
    rw [findline, hkey, hroom]
    rfl
  have hb : find Block.line ut.ut_line [⟨ut.ut_line, none⟩] = some ⟨ut.ut_line, none⟩ := by
    rw [find, if_neg (lt_irrefl _), if_pos rfl]
  have hnone : ({ start with wason := [⟨ut.ut_line, none⟩] } : Watch).user ut.ut_line = none := by
    rw [Watch.user, hb]
    rfl
  rw [record, hcopy]
  dsimp only
  rw [if_neg hline, hfind, getperson_eq ut.line_le hb, hnone]

theorem delta_fault {c : Watcher} (hroom : c.room = false) (s : Snapshot c.mytty) :
    delta c start s.records = .error .fault := by
  have hfold : ∀ records : List Utmpx, (∃ r ∈ records, r.ut_line ≠ []) →
      records.foldlM (record c) (start, false) = .error .fault := by
    intro records
    induction records with
    | nil =>
      intro hx
      rcases hx with ⟨r, hr, -⟩
      cases hr
    | cons ut rs ih =>
      intro h
      rw [List.foldlM_cons]
      by_cases hline : ut.ut_line = []
      · have hskip : record c (start, false) ut = .ok (start, false) := by
          rw [record]
          exact if_pos (by rw [hline]; rfl)
        rw [hskip]
        exact ih ((List.exists_mem_cons_iff _ _ _).1 h |>.resolve_left (not_not.2 hline))
      · rw [record_fault hroom false ut hline]
        rfl
  obtain ⟨r, hr, hown⟩ := s.own
  rw [delta, hfold s.records ⟨r, hr, hown ▸ c.mytty_ne⟩]
  rfl

/-- a run from a state between two calls -/
theorem rightAlong_iff {c : Watcher} (hroom : c.room = true) (ss : List (Snapshot c.mytty)) {w : Watch}
    {before : List Utmpx} (h : Inv c before w) : RightAlong c w ss ↔ AllUndisturbed c before ss := by
  induction ss generalizing w before with
  | nil => exact Iff.rfl
  | cons s ss ih =>
    obtain ⟨w', hdelta, hright, hinv⟩ := delta_right_iff hroom h s
    constructor
    · intro hx
      rcases hx with ⟨w'', hdelta', hr, hrest⟩
      rw [hdelta] at hdelta'
      cases hdelta'
      have hund := hright.1 hr
      exact ⟨hroom, hund, (ih (hinv hund)).1 hrest⟩
    · intro hx
      rcases hx with ⟨-, hund, hrest⟩
      exact ⟨w', hdelta, hright.2 hund, (ih (hinv hund)).2 hrest⟩

/-- **The announcements of `watch`.** For every set of people, every allocator and every sequence of snapshots. -/
theorem watch_right_iff (c : Watcher) (ss : List (Snapshot c.mytty)) :
    RightAlong c start ss ↔ AllUndisturbed c [] ss := by
  cases hroom : c.room with
  | true => exact rightAlong_iff hroom ss (inv_start c)
  | false =>
    cases ss with
    | nil => exact Iff.rfl
    | cons s ss =>
      refine iff_of_false ?_ fun h => absurd (h.1.symm.trans hroom) (by decide)
      intro hx
      rcases hx with ⟨w', hdelta, -⟩
      rw [delta_fault hroom s] at hdelta
      cases hdelta

/-- a watcher of joe on tty0 -/
def watcher (room : Bool) : Watcher :=
  ⟨['t', '0'], {['j', 'o', 'e']}, room, id, fun _ _ => Iff.rfl, by decide⟩

/-- a table of sessions with ann on tty0, and this user on tty1 -/
def table (user : Str) (h : user.length ≤ 32) : Snapshot ['t', '0'] where
  records := [⟨['a', 'n', 'n'], ['t', '0'], by decide, by decide⟩, ⟨user, ['t', '1'], h, by decide⟩]
  own := ⟨_, List.mem_cons_self, rfl⟩
  once := by simp

/-- **A line that is taken over.** Joe goes, ann gets his line, and joe has never gone out; this with room behind the
lines, for without it the first `delta` is a fault. -/
theorem taken_over :
    ¬RightAlong (watcher true) start [table ['j', 'o', 'e'] (by decide), table ['a', 'n', 'n'] (by decide)] ∧
      ¬RightAlong (watcher false) start [table ['j', 'o', 'e'] (by decide)] := by
  have hfirst : delta (watcher true) start (table ['j', 'o', 'e'] (by decide)).records =
      .ok ⟨[], [⟨['t', '0'], some []⟩, ⟨['t', '1'], some ['j', 'o', 'e']⟩], [],
        [.cameIn ['j', 'o', 'e'] ['t', '1']]⟩ := by
    rfl
  have hsecond : delta (watcher true)
      ⟨[], [⟨['t', '0'], some []⟩, ⟨['t', '1'], some ['j', 'o', 'e']⟩], [], [.cameIn ['j', 'o', 'e'] ['t', '1']]⟩
      (table ['a', 'n', 'n'] (by decide)).records =
      .ok ⟨[], [⟨['t', '0'], some []⟩, ⟨['t', '1'], some ['j', 'o', 'e']⟩], [],
        [.cameIn ['j', 'o', 'e'] ['t', '1']]⟩ := by
    rfl
  have hfault : delta (watcher false) start (table ['j', 'o', 'e'] (by decide)).records = .error .fault := by rfl
  refine ⟨?_, ?_⟩
  · intro h
    rcases h with ⟨w₁, hw₁, -, w₂, hw₂, hright, -⟩
    rw [hfirst] at hw₁
    cases hw₁
    rw [hsecond] at hw₂
    cases hw₂
    -- joe is still announced, and nowhere in the table
    obtain ⟨-, r, hr, huser, -⟩ := (hright.1 ['j', 'o', 'e'] ['t', '1']).1 ⟨[], [], rfl, List.not_mem_nil⟩
    fin_cases hr
    · exact absurd huser (by decide)
    · exact absurd huser (by decide)
  · intro h
    rcases h with ⟨w₁, hw₁, -⟩
    rw [hfault] at hw₁
    cases hw₁

end MNetSoft.Cmd
