/-
A session of `resh`, the restricted login shell of new users: `main` of `resh.c` with `resh_init`, `resh_parse` and
`resh_eval`, and `dynegg` and `run_command` of `dyncmd.c`, which look for a command among the modules of one directory.

The session is a program that leaves a trace of events. What the dynamic loader and the modules answer may depend on all
that has happened before, and nothing is assumed of it. A module's `main` need not return. A line that makes the
tokenizer leave its memory ends the session in `undefined`.

- `modulePath_inDirectory`: the path of a command is the directory, its name behind the last slash, and ".so"; a path
  of exactly 128 characters loses the last one, and is still in the directory.
- `session_confined`: nothing outside the directory is ever loaded, whatever is typed.
- `session_words`: on lines of words the session is the interpreter of word lists `shell`.
-/
import Mathlib.Tactic
import MNetSoft.Core.Traces
import MNetSoft.Resh.Token

namespace MNetSoft.Resh

open MNetSoft.CString MNetSoft.Effects MNetSoft.Traces

/-! ## Model -/

/-- what the shell does that can be seen from outside -/
inductive Event where
  | printf (text : Str)
  | warning (text : Str)
  | perror (text : Str)
  | unlink (path : Str)
  | openr (path : Str)
  | dlopen (path : Str)
  | dlsym (path sym : Str)
  | tryegg (path cmd : Str)
  | call (path : Str) (argc : ℕ) (argv : List Str)
  | dlclose (path : Str)
  deriving DecidableEq

/-- the answers of the dynamic loader and of the modules, from the trace before them -/
structure Loader where
  dlopen : List Event → Str → Bool
  dlsym : List Event → Str → Str → Bool
  dlerror : List Event → Str
  dlclose : List Event → Str → Bool
  tryegg : List Event → Str → Option ℤ
  /-- `none` where the module does not return -/
  call : List Event → Str → List Str → Option ℤ

/-- how a session ends that does not come to the end of its input -/
inductive End where
  | exit
  | gone
  | undefined
  deriving DecidableEq

abbrev Shell := Tr End Event

def RESH_PATH : Str := "/cyberspace/grex/resh/lib/cmd".toList

def eggbasket : Str := RESH_PATH ++ "/eggbasket.so".toList

/-- what stands behind the last `c`, if there is one -/
def strrchr (c : Char) : Str → Option Str
  | [] => none
  | d :: s => (strrchr c s).or (if d = c then some s else none)

/-- the name of a command: `p = strrchr(cmd, '/')`, and `cmd = p + 1` if there is one -/
def commandName (cmd : Str) : Str := (strrchr '/' cmd).getD cmd

section Commands

variable (ld : Loader)

def dynegg (cmd : Str) : Shell ℤ := do
  emit (.dlopen eggbasket)
  if ← answer fun t => ld.dlopen t eggbasket then
    emit (.dlsym eggbasket "tryegg".toList)
    if ← answer fun t => ld.dlsym t eggbasket "tryegg".toList then
      emit (.tryegg eggbasket cmd)
      let r ← returned .gone fun t => ld.tryegg t cmd
      emit (.dlclose eggbasket)
      return r
    else
      emit (.dlclose eggbasket)
      return 0
  else return 0

/-- the text of `snprintf(path, sizeof(path), "%s/%s.so", RESH_PATH, cmd)` before it is cut -/
def fullPath (cmd : Str) : Str := RESH_PATH ++ '/' :: cmd ++ ".so".toList

def run_command (cmd : Str) (argc : ℕ) (argv : List Str) : Shell ℤ := do
  let cmd := commandName cmd
  if (fullPath cmd).length > 128 then
    emit (.warning (cmd ++ ": command too long.".toList))
    return -1
  else
    let path := strlcpy (fullPath cmd) 128
    emit (.dlopen path)
    if ← answer fun t => ld.dlopen t path then
      emit (.dlsym path "main".toList)
      if ← answer fun t => ld.dlsym t path "main".toList then
        emit (.call path argc argv)
        let r ← returned .gone fun t => ld.call t path argv
        emit (.dlclose path)
        if ← answer fun t => ld.dlclose t path then return r
        else
          emit (.perror (← answer ld.dlerror))
          return r
      else
        emit (.perror (← answer ld.dlerror))
        emit (.dlclose path)
        return -1
    else
      emit (.warning (cmd ++ ": command not found: ".toList ++ (← answer ld.dlerror)))
      return -1

/-- `char *argv[16 + 1]` up to its `NULL`: the tokenizer is given 16 places, so there is one for the `NULL` -/
structure rcommand where
  argv : List Str
  argv_le : argv.length ≤ 16

def rcommand.argc (cmd : rcommand) : ℕ := cmd.argv.length

/-- the words that end a session with a goodbye -/
def goodbyes : List Str := ["exit".toList, "quit".toList, "logoff".toList, "logout".toList, "bye".toList]

/-- `false` is the `NULL` of an empty line -/
def resh_eval (cmd : rcommand) : Shell Bool :=
  match cmd.argv with
  | [] => return false
  | c :: _ => do
    if c ∈ goodbyes then
      emit (.printf "Goodbye.\n".toList)
      throw .exit
    else if c = "reboot".toList then
      emit (.printf "Rebooting....\n".toList)
      emit (.printf "resh: Terminated by signal 15.\n".toList)
      throw .exit
    else
      if (← dynegg ld c) = 0 then
        let _ ← run_command ld c cmd.argc cmd.argv
        return true
      else return true

end Commands

theorem length_token {m m' : Str} {p q : ℕ} {toks toks' : List ℕ} (h : token m p toks = some (m', q, toks')) :
    toks'.length ≤ toks.length + 1 := by
  unfold token at h
  obtain ⟨c, -, h⟩ := Option.bind_eq_some_iff.1 h
  split_ifs at h
  · cases h
    omega
  · obtain ⟨m₁, -, h⟩ := Option.bind_eq_some_iff.1 h
    obtain ⟨⟨m₂, p₂⟩, -, h⟩ := Option.bind_eq_some_iff.1 h
    obtain ⟨⟨m₃, p₃⟩, -, h⟩ := Option.bind_eq_some_iff.1 h
    cases h
    simp
  · obtain ⟨⟨m₂, p₂⟩, -, h⟩ := Option.bind_eq_some_iff.1 h
    cases h
    simp

theorem length_tokenLoop {maxtoks fuel : ℕ} {m m' : Str} {p : ℕ} {toks toks' : List ℕ} (hroom : toks.length < maxtoks)
    (h : tokenLoop maxtoks fuel m p toks = some (m', toks')) : toks'.length ≤ maxtoks := by
  induction fuel generalizing m p toks with
  | zero => cases h
  | succ fuel ih =>
    rw [tokenLoop] at h
    obtain ⟨c, -, h⟩ := Option.bind_eq_some_iff.1 h
    split_ifs at h
    · cases h
      omega
    · obtain ⟨⟨m₁, p₁⟩, -, h⟩ := Option.bind_eq_some_iff.1 h
      obtain ⟨⟨m₂, p₂, toks₂⟩, htoken, h⟩ := Option.bind_eq_some_iff.1 h
      have hlen := length_token htoken
      dsimp only at h
      split_ifs at h with hfull
      · cases h
        omega
      · exact ih (by omega) h

theorem length_tokenizeq {maxtoks : ℕ} {str m : Str} {n : ℤ} {toks : List ℕ} (hmax : 0 < maxtoks)
    (h : tokenizeq str maxtoks = some (n, m, toks)) : n = toks.length ∧ toks.length ≤ maxtoks := by
  rw [tokenizeq, if_neg (by omega)] at h
  obtain ⟨⟨m', toks'⟩, hloop, heq⟩ := Option.map_eq_some_iff.1 h
  cases heq
  exact ⟨rfl, length_tokenLoop (by simpa using hmax) hloop⟩

/-- the words of a typed line -/
def resh_parse (str : Str) : Shell rcommand :=
  match h : tokenizeq (str ++ [nul]) (16 : ℕ) with
  | none => throw .undefined
  | some (_, m, toks) =>
    return ⟨toks.map fun tok => cstr (m.drop tok), by
      rw [List.length_map]
      exact (length_tokenizeq (by decide) h).2⟩

section Main

variable (ld : Loader)

/-- a user who was given a password has to change it first -/
def initpasswd (needpwchange : Bool) : Shell PUnit :=
  if needpwchange then do
    let _ ← run_command ld "passwd".toList 1 ["passwd".toList]
    emit (.unlink ".needpwchange".toList)
  else return

def resh_init (needpwchange : Bool) : Shell PUnit := do
  initpasswd ld needpwchange
  emit (.printf "Welcome to Grex.  This is resh.  Type 'help' if you are lost.\n".toList)

/-- the loop of `main` over the lines that `resh_read` returns before it returns `NULL` -/
def mainLoop : List Str → Shell PUnit
  | [] => return
  | str :: lines => do
    let cmd ← resh_parse str
    let _ ← resh_eval ld cmd
    mainLoop lines

def main (needpwchange : Bool) (lines : List Str) : Shell PUnit := do
  resh_init ld needpwchange
  mainLoop ld lines
  emit (.openr "/etc/motd".toList)

end Main

/-! ## What is loaded -/

/-- a file that stands directly in the directory of modules -/
def InDirectory (path : Str) : Prop :=
  ∃ file : Str, '/' ∉ file ∧ 3 ≤ file.length ∧ path = RESH_PATH ++ '/' :: file ∧ path.length < 128

/-- the module that a word names -/
def modulePath (word : Str) : Str := strlcpy (fullPath (commandName word)) 128

/-- the words that the tokenizer makes of a line -/
def reads (line : Str) : Option (List Str) :=
  (tokenizeq (line ++ [nul]) (16 : ℕ)).map fun r => r.2.2.map fun tok => cstr (r.2.1.drop tok)

/-- what a session with these lines may do -/
def Confined (lines : List Str) : Event → Prop
  | .dlopen path => InDirectory path
  | .dlsym path _ => InDirectory path
  | .dlclose path => InDirectory path
  | .tryegg path _ => path = eggbasket
  | .call path argc argv =>
    argc = argv.length ∧ argc ≤ 16 ∧ (∃ word, argv.head? = some word ∧ word ∉ goodbyes ∧ path = modulePath word) ∧
      (argv = ["passwd".toList] ∨ ∃ line ∈ lines, reads line = some argv)
  | .unlink path => path = ".needpwchange".toList
  | .openr path => path = "/etc/motd".toList
  | _ => True

theorem strrchr_spec (c : Char) (s : Str) :
    match strrchr c s with
    | none => c ∉ s
    | some t => c ∉ t ∧ ∃ pre, s = pre ++ c :: t := by
  induction s with
  | nil => exact List.not_mem_nil
  | cons d s ih =>
    rw [strrchr]
    cases h : strrchr c s with
    | some t =>
      rw [h] at ih
      obtain ⟨hc, pre, rfl⟩ := ih
      exact ⟨hc, d :: pre, rfl⟩
    | none =>
      rw [h] at ih
      rw [Option.none_or]
      split_ifs with hd
      · exact ⟨ih, [], by rw [hd, List.nil_append]⟩
      · exact fun hmem => (List.mem_cons.1 hmem).elim (fun heq => hd heq.symm) ih

theorem slash_not_mem_commandName (word : Str) : '/' ∉ commandName word := by
  have h := strrchr_spec '/' word
  unfold commandName
  cases hs : strrchr '/' word with
  | none =>
    rw [hs] at h
    exact h
  | some t =>
    rw [hs] at h
    exact h.1

theorem eggbasket_inDirectory : InDirectory eggbasket := ⟨"eggbasket.so".toList, by decide, by decide, rfl, by decide⟩

/-- the path that is opened is a file of the directory, also when it is cut -/
theorem modulePath_inDirectory {word : Str} (h : ¬(fullPath (commandName word)).length > 128) :
    InDirectory (modulePath word) := by
  have hslash : '/' ∉ commandName word ++ ".so".toList := by
    rw [List.mem_append, not_or]
    exact ⟨slash_not_mem_commandName word, by decide⟩
  have hpath : modulePath word = RESH_PATH ++ '/' :: (commandName word ++ ".so".toList).take 97 := by
    have hfull : fullPath (commandName word) = (RESH_PATH ++ ['/']) ++ (commandName word ++ ".so".toList) := by
      simp [fullPath]
    have hdir : (RESH_PATH ++ ['/']).length = 30 := by decide
    rw [modulePath, strlcpy, hfull, List.take_append, hdir, List.take_of_length_le (by rw [hdir]; decide),
      List.append_assoc, List.singleton_append]
  refine ⟨_, fun hmem => hslash (List.mem_of_mem_take hmem), ?_, hpath, ?_⟩
  · have hso : ".so".toList.length = 3 := rfl
    rw [List.length_take, List.length_append, hso]
    omega
  · rw [modulePath, strlcpy, List.length_take]
    omega

section Confined

variable {ld : Loader} {lines rest : List Str}

theorem dynegg_adds (cmd : Str) : Adds (Confined lines) (dynegg ld cmd) := by
  have hopen : Confined lines (.dlopen eggbasket) := eggbasket_inDirectory
  have hsym : Confined lines (.dlsym eggbasket "tryegg".toList) := eggbasket_inDirectory
  have htry : Confined lines (.tryegg eggbasket cmd) := rfl
  have hclose : Confined lines (.dlclose eggbasket) := eggbasket_inDirectory
  refine (adds_emit hopen).bind fun _ => (adds_answer _).bind fun found => ?_
  refine Adds.ite (fun _ => ?_) fun _ => adds_pure 0
  refine (adds_emit hsym).bind fun _ => (adds_answer _).bind fun found => ?_
  refine Adds.ite (fun _ => ?_) fun _ => ?_
  · refine (adds_emit htry).bind fun _ => (adds_returned _ _).bind fun r => ?_
    exact (adds_emit hclose).bind fun _ => adds_pure r
  · exact (adds_emit hclose).bind fun _ => adds_pure 0

/-- **One command.** Its module is the only one that is called, with the words of the command. -/
theorem run_command_adds {word : Str} {argv : List Str} (hhead : argv.head? = some word) (hlen : argv.length ≤ 16)
    (hword : word ∉ goodbyes) (htyped : argv = ["passwd".toList] ∨ ∃ line ∈ lines, reads line = some argv) :
    Adds (Confined lines) (run_command ld word argv.length argv) := by
  refine Adds.ite (fun _ => (adds_emit trivial).bind fun _ => adds_pure _) fun hfull => ?_
  have hpath : InDirectory (modulePath word) := modulePath_inDirectory hfull
  have hopen : Confined lines (.dlopen (modulePath word)) := hpath
  have hsym : Confined lines (.dlsym (modulePath word) "main".toList) := hpath
  have hcall : Confined lines (.call (modulePath word) argv.length argv) :=
    ⟨rfl, hlen, ⟨word, hhead, hword, rfl⟩, htyped⟩
  have hclose : Confined lines (.dlclose (modulePath word)) := hpath
  have hwarning : ∀ text, Confined lines (.warning text) := fun _ => trivial
  have hperror : ∀ text, Confined lines (.perror text) := fun _ => trivial
  refine (adds_emit hopen).bind fun _ => (adds_answer _).bind fun found => ?_
  refine Adds.ite (fun _ => ?_) fun _ => ?_
  · refine (adds_emit hsym).bind fun _ => (adds_answer _).bind fun found => ?_
    refine Adds.ite (fun _ => ?_) fun _ => ?_
    · refine (adds_emit hcall).bind fun _ => (adds_returned _ _).bind fun r => ?_
      refine (adds_emit hclose).bind fun _ => (adds_answer _).bind fun closed => ?_
      refine Adds.ite (fun _ => adds_pure r) fun _ => ?_
      exact (adds_answer _).bind fun text => (adds_emit (hperror text)).bind fun _ => adds_pure r
    · refine (adds_answer _).bind fun text => (adds_emit (hperror text)).bind fun _ => ?_
      exact (adds_emit hclose).bind fun _ => adds_pure _
  · exact (adds_answer _).bind fun text => (adds_emit (hwarning _)).bind fun _ => adds_pure _

theorem resh_eval_adds {cmd : rcommand} (htyped : ∃ line ∈ lines, reads line = some cmd.argv) :
    Adds (Confined lines) (resh_eval ld cmd) := by
  unfold resh_eval
  split
  case h_1 => exact adds_pure false
  case h_2 c rest hargv =>
    refine Adds.ite (fun _ => (adds_emit trivial).bind fun _ => adds_throw _) fun hc => ?_
    refine Adds.ite (fun _ => ?_) fun _ => ?_
    · exact (adds_emit trivial).bind fun _ => (adds_emit trivial).bind fun _ => adds_throw _
    · refine (dynegg_adds c).bind fun r => Adds.ite (fun _ => ?_) fun _ => adds_pure true
      have hhead : cmd.argv.head? = some c := by rw [hargv, List.head?_cons]
      exact (run_command_adds hhead cmd.argv_le hc (Or.inr htyped)).bind fun _ => adds_pure true

theorem resh_parse_cases (str : Str) :
    (resh_parse str = throw .undefined ∧ reads str = none) ∨
      ∃ cmd : rcommand, resh_parse str = pure cmd ∧ reads str = some cmd.argv := by
  unfold resh_parse reads
  split
  case h_1 h => exact Or.inl ⟨rfl, by rw [h]; rfl⟩
  case h_2 h => exact Or.inr ⟨_, rfl, congrArg (Option.map _) h⟩

theorem mainLoop_adds (hall : ∀ line ∈ rest, line ∈ lines) : Adds (Confined lines) (mainLoop ld rest) := by
  induction rest with
  | nil => exact adds_pure _
  | cons str rest ih =>
    rw [mainLoop]
    have hrest : ∀ line ∈ rest, line ∈ lines := fun line hline => hall line (List.mem_cons_of_mem str hline)
    rcases resh_parse_cases str with ⟨hparse, -⟩ | ⟨cmd, hparse, hreads⟩
    · rw [hparse]
      exact adds_throw End.undefined
    · rw [hparse, pure_bind]
      exact (resh_eval_adds ⟨str, hall str List.mem_cons_self, hreads⟩).bind fun _ => ih hrest

end Confined

/-- **Confinement.** Whatever is typed and whatever the loader and the modules answer, all that a session does is
confined, also when it does not come to its end. -/
theorem session_confined (ld : Loader) (needpwchange : Bool) (lines : List Str) :
    ∀ e ∈ (exec (main ld needpwchange lines) []).2, Confined lines e := by
  refine Adds.trace ?_
  have hunlink : Confined lines (.unlink ".needpwchange".toList) := rfl
  have hmotd : Confined lines (.openr "/etc/motd".toList) := rfl
  have hpasswd : Adds (Confined lines) (run_command ld "passwd".toList 1 ["passwd".toList]) :=
    run_command_adds rfl (by decide) (by decide) (Or.inl rfl)
  refine Adds.bind ?_ fun _ => (mainLoop_adds fun _ h => h).bind fun _ => adds_emit hmotd
  refine Adds.bind ?_ fun _ => adds_emit trivial
  exact Adds.ite (fun _ => hpasswd.bind fun _ => adds_emit hunlink) fun _ => adds_pure _

/-- a directory without modules -/
def noModules : Loader :=
  ⟨fun _ _ => false, fun _ _ _ => false, fun _ => "no such file".toList, fun _ _ => true, fun _ _ => none,
    fun _ _ _ => none⟩

/-! ## The interpreter of words -/

/-- the shell over lists of words, without lines and memory -/
def shell (ld : Loader) : List (List Str) → Shell PUnit
  | [] => return
  | [] :: rest => shell ld rest
  | (c :: words) :: rest =>
    if c ∈ goodbyes then do
      emit (.printf "Goodbye.\n".toList)
      throw .exit
    else if c = "reboot".toList then do
      emit (.printf "Rebooting....\n".toList)
      emit (.printf "resh: Terminated by signal 15.\n".toList)
      throw .exit
    else do
      let r ← dynegg ld c
      if r = 0 then
        let argv := (c :: words).take 16
        let _ ← run_command ld c argv.length argv
        shell ld rest
      else shell ld rest

section Words

variable {ld : Loader}

/-- the tokenizer reads the words of a line, as many as there is room for -/
theorem reads_text {l : Line} (h : Tokenizable l.pieces 16) : reads (text l.pieces) = some (l.words.take 16) := by
  have hfuel : l.pieces.length < (text l.pieces ++ [nul]).length + 1 := by
    have := length_le_text l.pieces
    rw [List.length_append]
    omega
  have hloop := (@tokenLoop_words [] [] [] (16 : ℕ) l.pieces _ [] hfuel (by decide) List.Forall₂.nil (Or.inl rfl)
    l.separated).1 h
  obtain ⟨m, toks, hres, hwords⟩ := hloop
  rw [reads, tokenizeq, if_neg (by decide)]
  rw [List.nil_append, List.length_nil] at hres
  rw [hres]
  exact congrArg some hwords

theorem resh_eval_nil {cmd : rcommand} (h : cmd.argv = []) : resh_eval ld cmd = pure false := by
  rw [resh_eval, h]

/-- one line -/
theorem resh_eval_shell {cmd : rcommand} {c : Str} {words : List Str} (h : cmd.argv = (c :: words).take 16)
    (rest : List (List Str)) :
    (do let _ ← resh_eval ld cmd; shell ld rest) = shell ld ((c :: words) :: rest) := by
  have hargv : cmd.argv = c :: words.take 15 := h
  have hargc : cmd.argc = ((c :: words).take 16).length := congrArg List.length h
  rw [resh_eval, hargv, shell, hargc]
  dsimp only
  split_ifs
  · rfl
  · rfl
  · rw [bind_assoc]
    refine bind_congr fun r => ?_
    split_ifs
    · rw [bind_assoc]
      rfl
    · rfl

theorem mainLoop_words {lines : List Line} (h : ∀ l ∈ lines, Tokenizable l.pieces 16) :
    mainLoop ld (lines.map fun l => text l.pieces) = shell ld (lines.map Line.words) := by
  induction lines with
  | nil => rfl
  | cons l lines ih =>
    have hl := reads_text (h l List.mem_cons_self)
    have hrest := ih fun x hx => h x (List.mem_cons_of_mem l hx)
    rw [List.map_cons, List.map_cons, mainLoop]
    rcases resh_parse_cases (text l.pieces) with ⟨-, hnone⟩ | ⟨cmd, hparse, hreads⟩
    · rw [hl] at hnone
      cases hnone
    · have hargv : cmd.argv = l.words.take 16 := Option.some.inj (hreads.symm.trans hl)
      rw [hparse, pure_bind, hrest]
      cases hwords : l.words with
      | nil =>
        rw [hwords, List.take_nil] at hargv
        rw [resh_eval_nil hargv, pure_bind, shell]
      | cons c words =>
        rw [hwords] at hargv
        exact resh_eval_shell hargv _

end Words

/-- a directory in which every command has a module, and no egg -/
def modules : Loader :=
  ⟨fun _ _ => true, fun _ _ _ => true, fun _ => [], fun _ _ => true, fun _ _ => some 0, fun _ _ _ => some 0⟩

/-- the calls of a command -/
def calls (word : Str) (argc : ℕ) (argv : List Str) : List Event :=
  [.dlopen (modulePath word), .dlsym (modulePath word) "main".toList, .call (modulePath word) argc argv,
    .dlclose (modulePath word)]

/-- the calls before a command -/
def eggCalls (word : Str) : List Event :=
  [.dlopen eggbasket, .dlsym eggbasket "tryegg".toList, .tryegg eggbasket word, .dlclose eggbasket]

theorem run_command_modules (word : Str) (h : ¬(fullPath (commandName word)).length > 128) (argc : ℕ) (argv : List Str)
    (t : List Event) : exec (run_command modules word argc argv) t = (.ok 0, t ++ calls word argc argv) := by
  unfold run_command
  rw [if_neg h]
  simp only [exec_bind, exec_emit, exec_answer, exec_returned, andThen_ok, modules, if_true,
    Option.elim_some, exec_pure, calls, modulePath, List.append_assoc, List.cons_append, List.nil_append]

/-- a command that is not one of the shell's own words -/
theorem shell_modules (word : Str) (hgoodbye : word ∉ goodbyes) (hreboot : word ≠ "reboot".toList)
    (h : ¬(fullPath (commandName word)).length > 128) (words : List Str) (t : List Event) :
    exec (shell modules [word :: words]) t =
      (.ok ⟨⟩, t ++ eggCalls word ++ calls word ((word :: words).take 16).length ((word :: words).take 16)) := by
  have hegg : exec (dynegg modules word) t = (.ok 0, t ++ eggCalls word) := by
    unfold dynegg
    simp only [exec_bind, exec_emit, exec_answer, exec_returned, andThen_ok, modules, if_true,
      Option.elim_some, exec_pure, eggCalls, List.append_assoc, List.cons_append, List.nil_append]
  rw [shell, if_neg hgoodbye, if_neg hreboot, exec_bind, hegg, andThen_ok, if_pos rfl, exec_bind,
    run_command_modules _ h, andThen_ok, shell, exec_pure]

/-- the password is changed first, and then the words "it's" and "a" are typed -/
theorem passwd_confined :
    let trace := (exec (main modules true [text its.pieces]) []).2
    .call (modulePath "passwd".toList) 1 ["passwd".toList] ∈ trace ∧
      .call (modulePath "it's".toList) 2 ["it's".toList, "a".toList] ∈ trace ∧ ∀ e ∈ trace,
      Confined [text its.pieces] e := by
  have hpasswd := run_command_modules "passwd".toList (by decide) 1 ["passwd".toList] []
  have hwords : its.words = ["it's".toList, "a".toList] := rfl
  have hloop : mainLoop modules [text its.pieces] = shell modules [its.words] :=
    mainLoop_words (by decide : ∀ l ∈ [its], Tokenizable l.pieces 16)
  rw [hwords] at hloop
  have htyped := shell_modules "it's".toList (by decide) (by decide) (by decide) ["a".toList]
  have htake : ("it's".toList :: ["a".toList]).take 16 = ["it's".toList, "a".toList] := rfl
  rw [htake] at htyped
  have hcalls : .call (modulePath "passwd".toList) 1 ["passwd".toList] ∈
        (exec (main modules true [text its.pieces]) []).2 ∧
      .call (modulePath "it's".toList) 2 ["it's".toList, "a".toList] ∈
        (exec (main modules true [text its.pieces]) []).2 := by
    rw [main, resh_init, initpasswd, if_pos rfl, hloop, exec_bind, exec_bind, exec_bind, hpasswd, andThen_ok, exec_emit,
      andThen_ok, exec_emit, andThen_ok, exec_bind, htyped, andThen_ok, exec_emit, calls, calls]
    simp
  exact ⟨hcalls.1, hcalls.2, session_confined modules true [text its.pieces]⟩

/-- **A session over words.** On lines that are tokenized right, the shell, which cuts its lines in place, does what the
interpreter of word lists does: one command for each line, with the words of the line, until a word ends the session. -/
theorem session_words (ld : Loader) (needpwchange : Bool) (lines : List Line)
    (h : ∀ l ∈ lines, Tokenizable l.pieces 16) :
    main ld needpwchange (lines.map fun l => text l.pieces) =
      (do
        resh_init ld needpwchange
        shell ld (lines.map Line.words)
        emit (.openr "/etc/motd".toList)) := by
  rw [main, mainLoop_words h]

/-- a session of the line " 'it''s' 'a'" -/
theorem session_its :
    (∀ l ∈ [its], Tokenizable l.pieces 16) ∧
      main noModules false ([its].map fun l => text l.pieces) =
        (do
          resh_init noModules false
          shell noModules ([its].map Line.words)
          emit (.openr "/etc/motd".toList)) :=
  ⟨by decide, session_words noModules false [its] (by decide)⟩

end MNetSoft.Resh
