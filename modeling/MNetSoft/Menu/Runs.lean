/-
Whole sessions of the menu shell. The calls of `menu` for the menus that are open are a stack, the innermost first;
every turn reads a line, so a session ends with its input.

- `main_stack`: the recursion of `menu` is the machine over the stack of open menus.
- `Open`: the menus that are open after a trace, by the lines typed in them.
- `turn_spec`: a turn does what it may, and opens or leaves the menu that its line says.
- `session_safe`: a session ends with a goodbye or dies with a message, it never panics, and it runs nothing but its own
  two programs, what is typed behind an exclamation mark, and the entry whose key was typed in the menu it belongs to.
- `session_leaves`: from any state, "exit" typed once for every open menu ends the session.
-/
import Mathlib.Tactic
import MNetSoft.Core.Traces
import MNetSoft.Menu.Shell

namespace MNetSoft.MenuShell

open MNetSoft.CString MNetSoft.Words MNetSoft.Effects MNetSoft.Nested
open MNetSoft.Traces (Grounded grounded_nil)

/-! ## What a session may do -/

section Safe

/-- what a line asks for -/
inductive Wish where
  | nothing
  | leave
  | help
  | cd (args : List Str)
  | system (cmd : Str)
  | entry (c : Choice)

/-- neither a line nor a file is read -/
def Event.Other : Event → Prop
  | .line _ => False
  | .readFile _ => False
  | _ => True

/-- the lines read at the prompt -/
def commands (trace : List Event) : List Str :=
  trace.filterMap fun e => match e with
    | .line l => some l
    | _ => none

variable (w : World)

/-- what a line asks for in a menu: the words of the shell come before the entries -/
def wish (m : Menu) (l : Str) : Wish :=
  let s := trimSpace l
  let c := w.case.lower s
  if c = [] then .nothing
  else if c = "exit".toList then .leave
  else if c = "help".toList then .help
  else
    match fields s with
    | [] => .nothing
    | c0 :: args =>
      if w.case.lower c0 = "!cd".toList ∨ w.case.lower c0 = "!chdir".toList then .cd args
      else
        match s with
        | '!' :: cmd => .system cmd
        | _ => .entry (choose w c m.entries)

/-- the line leaves the menu -/
def Leaves (m : Menu) (l : Str) : Prop := wish w m l = .leave ∨ wish w m l = .entry .exit

/-- the line is the key of the entry -/
def Keyed (l : Str) (e : Entry) : Prop := w.case.lower (trimSpace l) = w.case.lower e.key

/-- reading the file after this trace gives the menu, and it is accepted -/
def Reads (trace : List Event) (file : Str) (m : Menu) : Prop :=
  ∃ m₀, w.readFile (trace ++ [.readFile file]) file = .menu m₀ ∧ accept file m₀ = .ok m

/-- the menus that are open after a trace, the innermost first: a line is typed in the innermost -/
inductive Open : List Event → List Menu → Prop where
  | main {m : Menu} (h : Reads w [] mainFile m) : Open [.readFile mainFile] [m]
  | other {trace : List Event} {ms : List Menu} {e : Event} (h : Open trace ms) (he : e.Other) : Open (trace ++ [e]) ms
  | stay {trace : List Event} {m : Menu} {ms : List Menu} {l : Str} (h : Open trace (m :: ms)) (hl : ¬Leaves w m l) :
      Open (trace ++ [.line l]) (m :: ms)
  | leave {trace : List Event} {m : Menu} {ms : List Menu} {l : Str} (h : Open trace (m :: ms)) (hl : Leaves w m l) :
      Open (trace ++ [.line l]) ms
  | enter {trace : List Event} {m m' : Menu} {ms : List Menu} {l file : Str} (h : Open trace (m :: ms))
      (hl : wish w m l = .entry (.menu file)) (hread : Reads w (trace ++ [.line l]) file m') :
      Open (trace ++ [.line l] ++ [.readFile file]) (m' :: m :: ms)

/-- the line has just been typed in the menu, which is well formed -/
def Asked (trace : List Event) (m : Menu) (l : Str) : Prop :=
  ∃ before ms, trace = before ++ [.line l] ∧ Open w before (m :: ms) ∧ WellFormed m

/-- what a session may do after a trace -/
def Allowed (trace : List Event) : Event → Prop
  | .execv args =>
    args = ["clear".toList] ∨ ∃ m l, Asked w trace m l ∧
      ((w.case.lower (trimSpace l) = "help".toList ∧ args = ["grexmore".toList, helpFile]) ∨
        ∃ cmd, args = ["/bin/sh".toList, "-c".toList, cmd] ∧
          (trimSpace l = '!' :: cmd ∨ ∃ e ∈ m.entries, Keyed w l e ∧ e.exec = cmd))
  | .readFile file =>
    (trace = [] ∧ file = mainFile) ∨ ∃ m l, Asked w trace m l ∧ ∃ e ∈ m.entries, Keyed w l e ∧ e.menu = file
  | .chdir dir =>
    ∃ m l c0, Asked w trace m l ∧ (w.case.lower c0 = "!cd".toList ∨ w.case.lower c0 = "!chdir".toList) ∧
      ((fields (trimSpace l) = [c0] ∧ dir = w.myHomeDir) ∨ fields (trimSpace l) = [c0, dir])
  | _ => True

variable {w} {typed : List Str} {trace : List Event} {s : St} {m : Menu} {ms : List Menu} {l : Str}

theorem Reads.wellFormed {file : Str} (h : Reads w trace file m) : WellFormed m := by
  obtain ⟨m₀, -, hm⟩ := h
  exact accept_wellFormed hm

/-- **An open menu is well formed.** -/
theorem Open.wellFormed (h : Open w trace ms) : ∀ m ∈ ms, WellFormed m := by
  induction h with
  | main h => exact List.forall_mem_singleton.2 h.wellFormed
  | other _ _ ih => exact ih
  | stay _ _ ih => exact ih
  | leave _ _ ih => exact fun m hm => ih m (List.mem_cons_of_mem _ hm)
  | enter _ _ hread ih => exact List.forall_mem_cons.2 ⟨hread.wellFormed, ih⟩

variable (w typed) in
/-- the session has done nothing it may not, and has read its lines in order -/
structure Kept (s : St) : Prop where
  grounded : Grounded (Allowed w) s.trace
  order : (commands s.trace ++ s.input).Sublist typed

variable (w typed) in
def Ended (e : End) (t : St) : Prop := (e = .exit ∨ e = .fatal) ∧ Kept w typed t

variable (w typed) in
/-- these menus are open -/
structure At (ms : List Menu) (s : St) : Prop extends Kept w typed s where
  opened : Open w s.trace ms

variable (w typed) in
/-- the line has been typed in the innermost menu, and nothing has been done about it -/
structure Answering (m : Menu) (ms : List Menu) (l : Str) (s : St) : Prop extends Kept w typed s where
  typed : ∃ before, s.trace = before ++ [.line l] ∧ Open w before (m :: ms)

theorem Answering.asked (h : Answering w typed m ms l s) : Asked w s.trace m l := by
  obtain ⟨before, htrace, hopen⟩ := h.typed
  exact ⟨before, ms, htrace, hopen, hopen.wellFormed m List.mem_cons_self⟩

theorem Answering.stay (h : Answering w typed m ms l s) (hl : ¬Leaves w m l) : At w typed (m :: ms) s := by
  obtain ⟨before, htrace, hopen⟩ := h.typed
  exact ⟨h.toKept, htrace ▸ .stay hopen hl⟩

theorem Answering.leave (h : Answering w typed m ms l s) (hl : Leaves w m l) : At w typed ms s := by
  obtain ⟨before, htrace, hopen⟩ := h.typed
  exact ⟨h.toKept, htrace ▸ .leave hopen hl⟩

theorem commands_other {e : Event} (he : ∀ l, e ≠ .line l) (trace : List Event) :
    commands (trace ++ [e]) = commands trace := by
  cases e with
  | line l => exact absurd rfl (he l)
  | print text => simp [commands]
  | stderr text => simp [commands]
  | readFile file => simp [commands]
  | chdir dir => simp [commands]
  | execv args => simp [commands]

theorem Kept.emit (h : Kept w typed s) {e : Event} (he : Allowed w s.trace e) (hline : ∀ l, e ≠ .line l) :
    Kept w typed { s with trace := s.trace ++ [e] } := by
  refine ⟨h.grounded.snoc he, ?_⟩
  have horder := h.order
  rwa [← commands_other hline s.trace] at horder

theorem Event.Other.not_line {e : Event} (he : e.Other) : ∀ l, e ≠ .line l := by
  rintro l rfl
  exact he

theorem At.emit (h : At w typed ms s) {e : Event} (he : e.Other) (hallowed : Allowed w s.trace e) :
    At w typed ms { s with trace := s.trace ++ [e] } :=
  ⟨h.toKept.emit hallowed he.not_line, .other h.opened he⟩

/-! ### Programs that keep the open menus -/

variable (w typed) in
def Stays (ms : List Menu) {α : Type} (x : Session α) : Prop :=
  ∀ s, At w typed ms s → Outcome (Ended w typed) x s fun _ t => At w typed ms t

section Rules

variable {α β : Type} {x : Session α}

theorem stays_pure (a : α) : Stays w typed ms (pure a : Session α) := fun _ hs => hs

theorem Stays.bind {f : α → Session β} (hx : Stays w typed ms x) (hf : ∀ a, Stays w typed ms (f a)) :
    Stays w typed ms (x >>= f) := fun s hs => (hx s hs).bind fun a t ht => hf a t ht

theorem stays_print (text : Str) : Stays w typed ms (emit (.print text)) :=
  fun _ hs => outcome_modify (hs.emit trivial trivial)

theorem stays_stderr (text : Str) : Stays w typed ms (emit (.stderr text)) :=
  fun _ hs => outcome_modify (hs.emit trivial trivial)

theorem stays_clear : Stays w typed ms clear := fun _ hs => outcome_modify (hs.emit trivial (Or.inl rfl))

theorem stays_pause : Stays w typed ms pause := by
  refine (stays_print _).bind fun _ s hs => outcome_modify ⟨⟨hs.grounded, ?_⟩, hs.opened⟩
  exact ((List.Sublist.refl _).append (List.tail_sublist _)).trans hs.order

theorem stays_splash : Stays w typed ms splash := by
  intro s hs
  refine outcome_get_bind (Outcome.ite (fun _ => ?_) fun _ => outcome_pure hs)
  refine outcome_modify_bind ?_
  have hoff : At w typed ms { s with splashOnce := false } := ⟨⟨hs.grounded, hs.order⟩, hs.opened⟩
  exact ((stays_print _).bind fun _ => (stays_print _).bind fun _ => stays_print _) _ hoff

end Rules

theorem ended_fatal {α : Type} (text : Str) {Q : α → St → Prop} (h : Kept w typed s) :
    Outcome (Ended w typed) (fatal text : Session α) s Q :=
  outcome_modify_bind ⟨Or.inr rfl, h.emit trivial fun _ => Event.noConfusion⟩

theorem ended_goodbye {α : Type} {Q : α → St → Prop} (h : Kept w typed s) :
    Outcome (Ended w typed) (goodbye : Session α) s Q :=
  outcome_modify_bind ⟨Or.inl rfl, h.emit trivial fun _ => Event.noConfusion⟩

/-- after a command that is done the menu is shown again -/
theorem again_spec (h : At w typed (m :: ms) s) :
    Outcome (Ended w typed) (do pause; return .again : Session (Next Menu)) s fun next t =>
      At w typed (next.frames m ms) t :=
  (stays_pause s h).bind fun _ _ ht => outcome_pure ht

/-- a command that only does something else -/
theorem other_spec (h : Answering w typed m ms l s) (hl : ¬Leaves w m l) {e : Event} (he : e.Other)
    (hallowed : Allowed w s.trace e) {x : Session (Next Menu)}
    (hx : ∀ t, At w typed (m :: ms) t → Outcome (Ended w typed) x t fun next t => At w typed (next.frames m ms) t) :
    Outcome (Ended w typed) (emit e >>= fun _ => x) s fun next t => At w typed (next.frames m ms) t :=
  outcome_modify_bind (hx _ ((h.stay hl).emit he hallowed))

/-- what is read has been typed in the innermost menu -/
theorem readcmd_spec (h : At w typed (m :: ms) s) :
    Outcome (Ended w typed) (readcmd w) s fun a t => ∃ l, a = trimSpace l ∧ Answering w typed m ms l t := by
  obtain ⟨input, splashOnce, trace⟩ := s
  have hprompt := h.emit (e := .print "Command (or 'HELP'): ".toList) trivial trivial
  refine outcome_modify_bind (outcome_get_bind ?_)
  cases input with
  | nil =>
    cases hend : w.inputEnd with
    | none => exact ended_goodbye hprompt.toKept
    | some err => exact ended_fatal _ hprompt.toKept
  | cons l rest =>
    refine outcome_modify_bind (outcome_modify_bind (outcome_pure ⟨l, rfl, ⟨hprompt.grounded.snoc trivial, ?_⟩, _, rfl,
      hprompt.opened⟩))
    have horder := hprompt.order
    simpa [commands] using horder

/-- the menu of a file -/
theorem parsemenu_spec {file : Str} (h : Kept w typed s) (hallowed : Allowed w s.trace (.readFile file)) :
    Outcome (Ended w typed) (parsemenu w file) s fun m t =>
      Kept w typed t ∧ t.trace = s.trace ++ [.readFile file] ∧ Reads w s.trace file m := by
  have hread := h.emit hallowed fun _ => Event.noConfusion
  refine outcome_modify_bind (outcome_get_bind ?_)
  cases hfile : w.readFile (s.trace ++ [.readFile file]) file with
  | unreadable err => exact ended_fatal _ hread
  | unparsable err => exact ended_fatal _ hread
  | menu m₀ =>
    dsimp only
    cases haccept : accept file m₀ with
    | error text => exact ended_fatal _ hread
    | ok m => exact outcome_pure ⟨hread, rfl, m₀, hfile, haccept⟩

/-- what is chosen belongs to an entry of the key -/
theorem choose_spec (c : Str) (es : List Entry) :
    match choose w c es with
    | .menu file => ∃ e ∈ es, c = w.case.lower e.key ∧ e.menu = file
    | .exec cmd => ∃ e ∈ es, c = w.case.lower e.key ∧ e.exec = cmd
    | _ => True := by
  induction es with
  | nil => trivial
  | cons e es ih =>
    have hlater : ∀ {P : Entry → Prop}, (∃ x ∈ es, P x) → ∃ x ∈ e :: es, P x :=
      fun ⟨x, hx, hP⟩ => ⟨x, List.mem_cons_of_mem e hx, hP⟩
    have hrest : match choose w c es with
        | .menu file => ∃ x ∈ e :: es, c = w.case.lower x.key ∧ x.menu = file
        | .exec cmd => ∃ x ∈ e :: es, c = w.case.lower x.key ∧ x.exec = cmd
        | _ => True := by
      cases h : choose w c es with
      | exit => trivial
      | invalid => trivial
      | menu file =>
        rw [h] at ih
        exact hlater ih
      | exec cmd =>
        rw [h] at ih
        exact hlater ih
    rw [choose]
    by_cases hkey : c = w.case.lower e.key
    · rw [if_neg (not_not.2 hkey)]
      split_ifs with hexit hmenu hexec
      · trivial
      · exact ⟨e, List.mem_cons_self, hkey, rfl⟩
      · exact ⟨e, List.mem_cons_self, hkey, rfl⟩
      · exact hrest
    · rw [if_pos hkey]
      exact hrest

section Turn

variable (h : Answering w typed m ms l s)
include h

theorem select_spec (hwish : wish w m l = .entry (choose w (w.case.lower (trimSpace l)) m.entries)) :
    Outcome (Ended w typed) (select w m (trimSpace l)) s fun next t => At w typed (next.frames m ms) t := by
  have hchoose := choose_spec (w := w) (w.case.lower (trimSpace l)) m.entries
  unfold select
  cases hc : choose w (w.case.lower (trimSpace l)) m.entries with
  | exit => exact outcome_pure (h.leave (Or.inr (hwish.trans (congrArg Wish.entry hc))))
  | menu file =>
    rw [hc] at hchoose hwish
    obtain ⟨e, he, hkey, hfile⟩ := hchoose
    have hallowed : Allowed w s.trace (.readFile file) := Or.inr ⟨m, l, h.asked, e, he, hkey, hfile⟩
    refine (parsemenu_spec h.toKept hallowed).bind fun g t ht => outcome_pure ⟨ht.1, ?_⟩
    obtain ⟨-, htrace, hread⟩ := ht
    obtain ⟨before, hbefore, hopen⟩ := h.typed
    rw [hbefore] at htrace hread
    rw [htrace]
    exact .enter hopen hwish hread
  | exec cmd =>
    rw [hc] at hchoose hwish
    obtain ⟨e, he, hkey, hexec⟩ := hchoose
    have hstay : ¬Leaves w m l := by simp [Leaves, hwish]
    have hallowed : Allowed w s.trace (.execv ["/bin/sh".toList, "-c".toList, cmd]) :=
      Or.inr ⟨m, l, h.asked, Or.inr ⟨cmd, rfl, Or.inr ⟨e, he, hkey, hexec⟩⟩⟩
    exact other_spec h hstay (e := .execv _) trivial hallowed fun _ ht => again_spec ht
  | invalid =>
    rw [hc] at hwish
    have hstay : ¬Leaves w m l := by simp [Leaves, hwish]
    refine (stays_print _ s (h.stay hstay)).bind fun _ t ht => ?_
    exact (stays_print _ t ht).bind fun _ _ hu => again_spec hu

theorem cd_spec (hl : ¬Leaves w m l) {dir : Str} (hallowed : Allowed w s.trace (.chdir dir)) :
    Outcome (Ended w typed) (cd w dir) s fun _ t => At w typed (m :: ms) t := by
  have hdone := (h.stay hl).emit (e := .chdir dir) trivial hallowed
  refine outcome_modify_bind (outcome_get_bind ?_)
  cases w.chdir (s.trace ++ [.chdir dir]) dir with
  | none => exact outcome_pure hdone
  | some err => exact stays_stderr _ _ hdone

theorem cdCommand_spec (hl : ¬Leaves w m l) {c0 : Str} {args : List Str} (hf : fields (trimSpace l) = c0 :: args)
    (hcd : w.case.lower c0 = "!cd".toList ∨ w.case.lower c0 = "!chdir".toList) :
    Outcome (Ended w typed) (cdCommand w args) s fun _ t => At w typed (m :: ms) t := by
  match args with
  | [] => exact cd_spec h hl ⟨m, l, c0, h.asked, hcd, Or.inl ⟨hf, rfl⟩⟩
  | [dir] => exact cd_spec h hl ⟨m, l, c0, h.asked, hcd, Or.inr hf⟩
  | _ :: _ :: _ => exact stays_stderr _ s (h.stay hl)

theorem command_spec (hne : w.case.lower (trimSpace l) ≠ []) (hexit : w.case.lower (trimSpace l) ≠ "exit".toList)
    (hhelp : w.case.lower (trimSpace l) ≠ "help".toList) :
    Outcome (Ended w typed) (command w m (trimSpace l)) s fun next t => At w typed (next.frames m ms) t := by
  have hwish : wish w m l = match fields (trimSpace l) with
      | [] => .nothing
      | c0 :: args =>
        if w.case.lower c0 = "!cd".toList ∨ w.case.lower c0 = "!chdir".toList then .cd args
        else
          match trimSpace l with
          | '!' :: cmd => .system cmd
          | _ => .entry (choose w (w.case.lower (trimSpace l)) m.entries) := by
    rw [wish, if_neg hne, if_neg hexit, if_neg hhelp]
  unfold command
  cases hf : fields (trimSpace l) with
  | nil =>
    have hnil := fields_trimSpace hf
    rw [hnil] at hne
    exact absurd rfl hne
  | cons c0 args =>
    rw [hf] at hwish
    dsimp only at hwish ⊢
    refine Outcome.ite (fun hcd => ?_) fun hcd => ?_
    · rw [if_pos hcd] at hwish
      have hstay : ¬Leaves w m l := by simp [Leaves, hwish]
      exact (cdCommand_spec h hstay hf hcd).bind fun _ _ ht => again_spec ht
    · rw [if_neg hcd] at hwish
      split
      case h_1 cmd htrim =>
        rw [htrim] at hwish
        have hstay : ¬Leaves w m l := by simp [Leaves, hwish]
        have hallowed : Allowed w s.trace (.execv ["/bin/sh".toList, "-c".toList, cmd]) :=
          Or.inr ⟨m, l, h.asked, Or.inr ⟨cmd, rfl, Or.inl htrim⟩⟩
        exact other_spec h hstay (e := .execv _) trivial hallowed fun _ ht => again_spec ht
      case h_2 hbang =>
        split at hwish
        case h_1 cmd htrim => exact absurd htrim (hbang cmd)
        case h_2 => exact select_spec h hwish

end Turn

/-- **A turn does what it may, and opens or leaves the menu that its line says.** -/
theorem turn_spec (m : Menu) (ms : List Menu) (s : St) (h : At w typed (m :: ms) s) :
    Outcome (Ended w typed) (turn w m) s fun next t => At w typed (next.frames m ms) t := by
  refine (stays_clear s h).bind fun _ s₁ h₁ => (stays_splash s₁ h₁).bind fun _ s₂ h₂ => outcome_get_bind ?_
  refine (stays_print _ s₂ h₂).bind fun _ s₃ h₃ => (readcmd_spec h₃).bind fun a t ht => ?_
  obtain ⟨l, rfl, hl⟩ := ht
  dsimp only
  refine Outcome.ite (fun hnil => ?_) fun hne => Outcome.ite (fun hexit => ?_) fun hexit =>
    Outcome.ite (fun hhelp => ?_) fun hhelp => command_spec hl hne hexit hhelp
  · have hstay : ¬Leaves w m l := by simp [Leaves, wish, hnil]
    exact outcome_pure (hl.stay hstay)
  · have hwish : wish w m l = .leave := by simp [wish, hexit]
    exact outcome_pure (hl.leave (Or.inl hwish))
  · have hstay : ¬Leaves w m l := by simp [Leaves, wish, hhelp]
    have hallowed : Allowed w t.trace (.execv ["grexmore".toList, helpFile]) :=
      Or.inr ⟨m, l, hl.asked, Or.inl ⟨hhelp, rfl⟩⟩
    exact other_spec hl hstay (e := .execv _) trivial hallowed fun _ hu => again_spec hu

end Safe

/-! ## A turn reads a line -/

section Reads

variable {w : World}

/-- the program reads lines or none, and does not run out of fuel -/
def Shrinks {α : Type} (x : Session α) : Prop :=
  Runs (fun s t => t.input.length ≤ s.input.length) (fun _ e _ => e ≠ .fuel) x

variable {α β : Type}

theorem shrinks_pure (a : α) : Shrinks (pure a) := runs_pure (fun s => le_refl s.input.length) a

theorem shrinks_throw {e : End} (he : e ≠ .fuel) : Shrinks (throw e : Session α) := runs_throw fun _ => he

theorem Shrinks.bind {x : Session α} {f : α → Session β} (hx : Shrinks x) (hf : ∀ a, Shrinks (f a)) :
    Shrinks (x >>= f) :=
  Runs.bind (fun hst htu => htu.trans hst) (fun _ he => he) hx hf

theorem Shrinks.ite {p : Prop} [Decidable p] {x y : Session α} (hx : Shrinks x) (hy : Shrinks y) :
    Shrinks (if p then x else y) := Runs.ite (fun _ => hx) fun _ => hy

theorem Shrinks.outcome {x : Session α} (h : Shrinks x) (s : St) :
    Outcome (fun e _ => e ≠ .fuel) x s fun _ t => t.input.length ≤ s.input.length := Runs.outcome h fun _ _ he => he

theorem shrinks_get {f : St → Session β} (h : ∀ s, Shrinks (f s)) : Shrinks (get >>= f) :=
  Shrinks.bind (runs_get fun _ => le_rfl) h

theorem shrinks_emit (e : Event) : Shrinks (emit e) := runs_modify fun _ => le_rfl

theorem shrinks_fatal (text : Str) : Shrinks (fatal text : Session α) :=
  (shrinks_emit _).bind fun _ => shrinks_throw End.noConfusion

theorem shrinks_goodbye : Shrinks (goodbye : Session α) := (shrinks_emit _).bind fun _ => shrinks_throw End.noConfusion

theorem shrinks_pause : Shrinks pause :=
  (shrinks_emit _).bind fun _ => runs_modify fun s => (List.tail_sublist s.input).length_le

theorem shrinks_again : Shrinks (do pause; return .again : Session (Next Menu)) :=
  shrinks_pause.bind fun _ => shrinks_pure _

theorem shrinks_parsemenu (file : Str) : Shrinks (parsemenu w file) := by
  refine (shrinks_emit _).bind fun _ => shrinks_get fun s => ?_
  cases w.readFile s.trace file with
  | unreadable err => exact shrinks_fatal _
  | unparsable err => exact shrinks_fatal _
  | menu m₀ =>
    dsimp only
    cases accept file m₀ with
    | error text => exact shrinks_fatal _
    | ok m => exact shrinks_pure m

theorem shrinks_cd (dir : Str) : Shrinks (cd w dir) := by
  refine (shrinks_emit _).bind fun _ => shrinks_get fun s => ?_
  cases w.chdir s.trace dir with
  | none => exact shrinks_pure _
  | some err => exact shrinks_emit _

theorem shrinks_command (m : Menu) (s : Str) : Shrinks (command w m s) := by
  unfold command
  split
  case h_1 => exact shrinks_throw End.noConfusion
  case h_2 c0 args _ =>
    refine Shrinks.ite (Shrinks.bind ?_ fun _ => shrinks_again) ?_
    · match args with
      | [] => exact shrinks_cd _
      | [dir] => exact shrinks_cd dir
      | _ :: _ :: _ => exact shrinks_emit _
    · split
      case h_1 => exact (shrinks_emit _).bind fun _ => shrinks_again
      case h_2 =>
        unfold select
        cases choose w (w.case.lower s) m.entries with
        | exit => exact shrinks_pure _
        | menu file => exact (shrinks_parsemenu file).bind fun _ => shrinks_pure _
        | exec cmd => exact (shrinks_emit _).bind fun _ => shrinks_again
        | invalid => exact (shrinks_emit _).bind fun _ => (shrinks_emit _).bind fun _ => shrinks_again

theorem shrinks_splash : Shrinks splash := by
  refine shrinks_get fun s => Shrinks.ite ?_ (shrinks_pure _)
  have hoff : Shrinks (modify fun s => { s with splashOnce := false }) := runs_modify fun _ => le_rfl
  exact hoff.bind fun _ => (shrinks_emit _).bind fun _ => (shrinks_emit _).bind fun _ => shrinks_emit _

theorem readcmd_lt (s : St) :
    Outcome (fun e _ => e ≠ .fuel) (readcmd w) s fun _ t => t.input.length < s.input.length := by
  obtain ⟨input, splashOnce, trace⟩ := s
  refine outcome_modify_bind (outcome_get_bind ?_)
  cases input with
  | nil =>
    cases hend : w.inputEnd with
    | none =>
      have hexit : End.exit ≠ .fuel := End.noConfusion
      exact hexit
    | some err =>
      have hfatal : End.fatal ≠ .fuel := End.noConfusion
      exact hfatal
  | cons l rest =>
    exact outcome_modify_bind (outcome_modify_bind (outcome_pure (Nat.lt_succ_self rest.length)))

theorem turn_lt (m : Menu) (s : St) :
    Outcome (fun e _ => e ≠ .fuel) (turn w m) s fun _ t => t.input.length < s.input.length := by
  refine ((shrinks_emit _).outcome s).bind fun _ t₁ h₁ => (shrinks_splash.outcome t₁).bind fun _ t₂ h₂ => ?_
  refine outcome_get_bind (((shrinks_emit _).outcome t₂).bind fun _ t₃ h₃ => ?_)
  refine (readcmd_lt t₃).bind fun a t₄ h₄ => ?_
  have hhelp : Shrinks (do execv ["grexmore".toList, helpFile]; pause; return .again : Session (Next Menu)) :=
    (shrinks_emit _).bind fun _ => shrinks_again
  have hrest := Shrinks.ite (p := w.case.lower a = []) (shrinks_pure .again)
    (Shrinks.ite (p := w.case.lower a = "exit".toList) (shrinks_pure .leave)
      (Shrinks.ite (p := w.case.lower a = "help".toList) hhelp (shrinks_command (w := w) m a)))
  exact (hrest.outcome t₄).post fun _ t h => by omega

theorem turn_shrinks (m : Menu) (s : St) (next : Next Menu) (t : St) (h : exec (turn w m) s = (.ok next, t)) :
    t.input.length < s.input.length := by
  have hlt := turn_lt (w := w) m s
  unfold Outcome at hlt
  rw [h] at hlt
  exact hlt

theorem parsemenu_input {file : Str} {s t : St} {m : Menu} (h : exec (parsemenu w file) s = (.ok m, t)) :
    t.input.length ≤ s.input.length := by
  have hle := (shrinks_parsemenu (w := w) file).outcome s
  unfold Outcome at hle
  rw [h] at hle
  exact hle

end Reads

/-! ## Sessions -/

section Sessions

variable (w : World) {fuel : ℕ} {s : St}

/-- `main` with the machine over the open menus -/
def machine (fuel : ℕ) : Session PUnit := do
  let m ← parsemenu w mainFile
  stack .fuel (turn w) fuel [m]
  goodbye

theorem main_eq_machine (h : s.input.length < fuel) : exec (main w fuel) s = exec (machine w fuel) s := by
  rw [main, menu, machine, bind_assoc, exec_bind, exec_bind]
  rcases hparse : exec (parsemenu w mainFile) s with ⟨_ | m, t⟩
  · rfl
  · have hlt : t.input.length < fuel := (parsemenu_input hparse).trans_lt h
    rw [andThen_ok, andThen_ok, exec_bind, exec_bind, stack_cons .fuel turn_shrinks m [] hlt hlt]
    rcases hnested : exec (nested .fuel (turn w) fuel m) t with ⟨_ | a, u⟩
    · rw [hnested]
      rfl
    · rw [hnested, andThen_ok, andThen_ok, exec_stack_nil, andThen_ok]

/-- every turn takes a line, and there is fuel for more turns than lines -/
theorem machine_fueled (h : s.input.length < fuel) :
    Outcome (fun e _ => e ≠ .fuel) (machine w fuel) s fun _ _ => True := by
  refine ((shrinks_parsemenu mainFile).outcome s).bind fun m t ht => ?_
  have hstack : Outcome (fun e _ => e ≠ .fuel) (stack .fuel (turn w) fuel [m]) t fun _ _ => True :=
    stack_outcome (I := fun _ _ => True) End.fuel turn_shrinks
      (fun m _ s _ => (turn_lt m s).post fun _ _ _ => trivial) (ht.trans_lt h) trivial
  exact hstack.bind fun _ u _ => (shrinks_goodbye.outcome u).post fun _ _ _ => trivial

/-- **The open menus are a stack.** What the recursion of `menu` does with more fuel than there are lines, the machine
over the open menus does turn by turn, and neither runs out of it. -/
theorem main_stack (h : s.input.length < fuel) :
    exec (main w fuel) s = exec (machine w fuel) s ∧ (exec (main w fuel) s).1 ≠ .error .fuel := by
  have heq := main_eq_machine w h
  refine ⟨heq, ?_⟩
  have hfueled := machine_fueled w h
  unfold Outcome at hfueled
  rw [heq]
  rcases hexec : exec (machine w fuel) s with ⟨e | a, t⟩
  · rw [hexec] at hfueled
    exact fun he => hfueled (Except.error.inj he)
  · nofun

/-- **Every session.** It comes to its end with a goodbye or dies with a message, without a panic; the lines it has read
at the prompt were typed in this order; and whatever it has done, it had grounds for in the trace before. -/
theorem session_safe (typed : List Str) (h : typed.length < fuel) :
    let r := exec (main w fuel) ⟨typed, true, []⟩
    (r.1 = .error .exit ∨ r.1 = .error .fatal) ∧ (commands r.2.trace).Sublist typed ∧
      Grounded (Allowed w) r.2.trace := by
  have hstart : Kept w typed ⟨typed, true, []⟩ := ⟨grounded_nil, List.Sublist.refl _⟩
  have hrun : Outcome (Ended w typed) (machine w fuel) ⟨typed, true, []⟩ fun _ _ => False := by
    have hparse := parsemenu_spec hstart (Or.inl ⟨rfl, rfl⟩)
    refine hparse.returns.bind fun m t ht => ?_
    obtain ⟨⟨hkept, htrace, hread⟩, hexec⟩ := ht
    have hopen : At w typed [m] t := ⟨hkept, htrace ▸ .main hread⟩
    have hstack := stack_outcome (I := At w typed) End.fuel turn_shrinks turn_spec
      ((parsemenu_input hexec).trans_lt h) hopen
    exact hstack.bind fun _ _ hu => ended_goodbye hu.toKept
  unfold Outcome at hrun
  rw [← main_eq_machine w h] at hrun
  dsimp only
  rcases hexec : exec (main w fuel) ⟨typed, true, []⟩ with ⟨e | a, t⟩
  · rw [hexec] at hrun
    obtain ⟨hend, hkept⟩ := hrun
    exact ⟨hend.imp (congrArg Except.error) (congrArg Except.error), (List.sublist_append_left _ _).trans hkept.order,
      hkept.grounded⟩
  · rw [hexec] at hrun
    exact hrun.elim

end Sessions

/-- two menus: the main one leads to the other -/
def twoMenus : World where
  case := ⟨Char.toLower, fun _ _ => rfl⟩
  myHomeDir := "/home".toList
  inputEnd := none
  readFile _ file :=
    if file = mainFile then
      .menu ⟨"Main".toList, true, [], [], [⟨"B".toList, "@/bbs.json".toList, [], false, "Boards".toList⟩,
        ⟨"E".toList, [], [], true, "Exit".toList⟩]⟩
    else .menu ⟨"Boards".toList, false, [], [], [⟨"R".toList, [], "@/read".toList, false, "Read".toList⟩,
      ⟨"E".toList, [], [], true, "Exit".toList⟩]⟩
  chdir _ _ := none
  sysheader _ := []

/-- the second menu is opened, a program run, and both menus are left -/
def walk : List Str := ["b\n".toList, " R \n".toList, "\n".toList, "exit\n".toList, "e\n".toList]

theorem walk_stack : walk.length < 6 ∧
    exec (main twoMenus 6) ⟨walk, true, []⟩ = exec (machine twoMenus 6) ⟨walk, true, []⟩ ∧
      (exec (main twoMenus 6) ⟨walk, true, []⟩).1 ≠ .error .fuel :=
  ⟨by decide, main_stack twoMenus (s := ⟨walk, true, []⟩) (by decide)⟩

theorem walk_safe : walk.length < 6 ∧
    ((exec (main twoMenus 6) ⟨walk, true, []⟩).1 = .error .exit ∨
      (exec (main twoMenus 6) ⟨walk, true, []⟩).1 = .error .fatal) ∧
    (commands (exec (main twoMenus 6) ⟨walk, true, []⟩).2.trace).Sublist walk ∧
    Grounded (Allowed twoMenus) (exec (main twoMenus 6) ⟨walk, true, []⟩).2.trace :=
  ⟨by decide, session_safe twoMenus walk (by decide)⟩

/-! ## Leaving -/

/-- the session goes on without reading a file or running a program but `clear` -/
def Quiet (s t : St) : Prop :=
  ∃ new, t.trace = s.trace ++ new ∧ ∀ e ∈ new, e = .execv ["clear".toList] ∨ ∃ text, e = .print text ∨ e = .line text

theorem Quiet.trans {s t u : St} (hst : Quiet s t) (htu : Quiet t u) : Quiet s u := by
  obtain ⟨new, ht, hnew⟩ := hst
  obtain ⟨new', hu, hnew'⟩ := htu
  exact ⟨new ++ new', by rw [hu, ht, List.append_assoc], List.forall_mem_append.2 ⟨hnew, hnew'⟩⟩

/-- a line that says "exit", in whatever case and with white space around it -/
def SaysExit (w : World) (l : Str) : Prop := w.case.lower (trimSpace l) = "exit".toList

theorem splash_quiet (s : St) : ∃ t, exec splash s = (.ok ⟨⟩, t) ∧ t.input = s.input ∧ Quiet s t := by
  rw [splash, exec_bind, exec_get, andThen_ok, exec_ite]
  split_ifs
  · refine ⟨_, rfl, rfl, _, List.append_assoc _ _ _ |>.trans (List.append_assoc _ _ _), ?_⟩
    simp
  · exact ⟨s, rfl, rfl, [], (List.append_nil _).symm, List.forall_mem_nil _⟩

/-- "exit" leaves a menu, whatever its entries are -/
theorem turn_exit {w : World} (m : Menu) {s : St} {l : Str} {rest : List Str} (hinput : s.input = l :: rest)
    (hl : SaysExit w l) : ∃ t, exec (turn w m) s = (.ok .leave, t) ∧ t.input = rest ∧ Quiet s t := by
  have hclear : Quiet s { s with trace := s.trace ++ [.execv ["clear".toList]] } :=
    ⟨_, rfl, List.forall_mem_singleton.2 (Or.inl rfl)⟩
  obtain ⟨t, hsplash, htinput, htquiet⟩ := splash_quiet { s with trace := s.trace ++ [.execv ["clear".toList]] }
  have hshown : Quiet t { t with
      input := rest
      trace := t.trace ++ [.print (m.string (w.sysheader t.trace) ++ ['\n'])] ++
        [.print "Command (or 'HELP'): ".toList] ++ [.line l] } := by
    refine ⟨_, List.append_assoc _ _ _ |>.trans (List.append_assoc _ _ _), ?_⟩
    simp
  have hread : t.input = l :: rest := htinput.trans hinput
  have hne : "exit".toList ≠ [] := by decide
  refine ⟨_, ?_, rfl, (hclear.trans htquiet).trans hshown⟩
  rw [turn, exec_bind, clear, execv, emit, exec_modify, andThen_ok, exec_bind, hsplash, andThen_ok, exec_bind, exec_get,
    andThen_ok, exec_bind, println, emit, exec_modify, andThen_ok, exec_bind, readcmd, exec_bind, emit, exec_modify,
    andThen_ok, exec_bind, exec_get, andThen_ok]
  dsimp only
  rw [hread]
  dsimp only
  rw [exec_bind, exec_modify, andThen_ok, exec_bind, emit, exec_modify, andThen_ok, exec_pure,
    andThen_ok, hl, if_neg hne, if_pos rfl, exec_pure]

/-- **Leaving.** From any state of a session, "exit" for every open menu says goodbye and ends it: no menu can take the
word for itself, nothing is run, and what is typed behind is not read. -/
theorem session_leaves (w : World) (ms : List Menu) (lines rest : List Str) (s : St) {fuel : ℕ}
    (hlines : ∀ l ∈ lines, SaysExit w l) (hlen : lines.length = ms.length) (hinput : s.input = lines ++ rest)
    (hfuel : s.input.length < fuel) :
    ∃ t, exec (do stack .fuel (turn w) fuel ms; goodbye : Session PUnit) s = (.error .exit, t) ∧ t.input = rest ∧
      Quiet s t := by
  induction ms generalizing lines s fuel with
  | nil =>
    obtain rfl := List.length_eq_zero_iff.1 hlen
    refine ⟨{ s with trace := s.trace ++ [.print ("\nLeaving M-Net menu system.  Good bye!".toList ++ ['\n'])] }, ?_,
      hinput, [_], rfl, List.forall_mem_singleton.2 (Or.inr ⟨_, Or.inl rfl⟩)⟩
    rw [exec_bind, exec_stack_nil, andThen_ok]
    rfl
  | cons m ms ih =>
    obtain ⟨l, lines, rfl⟩ := List.exists_cons_of_length_eq_add_one hlen
    obtain ⟨hl, hlines⟩ := List.forall_mem_cons.1 hlines
    obtain ⟨t, hturn, htinput, htquiet⟩ := turn_exit m hinput hl
    have hlt := turn_shrinks m s _ t hturn
    obtain ⟨fuel, rfl⟩ := Nat.exists_eq_succ_of_ne_zero (Nat.ne_of_gt (Nat.zero_lt_of_lt hfuel))
    have hfuel' : t.input.length < fuel := by omega
    obtain ⟨u, hu, huinput, huquiet⟩ := ih lines t hlines (Nat.succ_injective hlen) htinput hfuel'
    refine ⟨u, ?_, huinput, htquiet.trans huquiet⟩
    rw [exec_bind] at hu ⊢
    rw [exec_stack_cons, hturn, andThen_ok]
    exact hu

/-- a menu whose only entry has the key "exit" -/
def exitKey : Menu := ⟨"Trap".toList, false, [], [], [⟨"exit".toList, [], "date".toList, false, []⟩]⟩

/-- "exit" and " EXIT " with two menus open, and a line that is not read -/
theorem exitKey_leaves :
    (∀ l ∈ ["exit\n".toList, " EXIT \n".toList], SaysExit twoMenus l) ∧
      ∃ t, exec (do stack .fuel (turn twoMenus) 4 [exitKey, exitKey]; goodbye : Session PUnit)
          ⟨["exit\n".toList, " EXIT \n".toList, "!ls\n".toList], false, []⟩ = (.error .exit, t) ∧
        t.input = ["!ls\n".toList] ∧ Quiet ⟨["exit\n".toList, " EXIT \n".toList, "!ls\n".toList], false, []⟩ t := by
  have hexit : ∀ l ∈ ["exit\n".toList, " EXIT \n".toList], SaysExit twoMenus l := by
    refine List.forall_mem_cons.2 ⟨?_, List.forall_mem_singleton.2 ?_⟩
    · unfold SaysExit
      decide
    · unfold SaysExit
      decide
  exact ⟨hexit, session_leaves twoMenus [exitKey, exitKey] _ _ _ hexit rfl rfl (by decide)⟩

end MNetSoft.MenuShell
