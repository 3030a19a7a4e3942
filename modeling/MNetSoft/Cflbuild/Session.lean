/-
The commands of the `.cflist` editor (`cflbuild.c`, `cflsub.c`) that change the list of conferences, from the file that
is loaded to the file that is written. A call that can fail (`malloc`, `fopen`, `fwrite`) fails as the environment has
it, and the program exits; a `fault` is a null pointer followed, a read past the end of a line or a buffer overrun.

- `start`: what `main` does before its first menu.
- `Add`, `Change`, `Delete`, `Move`, `SortAll`: the commands, each with what the user types.
- `start_spec`: the list holds the names of the file, numbered from 0 on.
- `perform_spec`: what every command makes of the list and of the file.
- `list_right_iff`: the list is well formed and numbered at every menu of every session, and the file shows it, exactly
  if the catalogue can be read and every name of it ends on its line.
- `newline_behind_name`: a catalogue with a line that has no blank behind its name.
-/
import Mathlib.Tactic
import MNetSoft.Core.CString
import MNetSoft.Core.Effects
import MNetSoft.Core.LinkedList
import MNetSoft.Core.Numerals
import MNetSoft.Core.Runs
import MNetSoft.Cflbuild.List
import MNetSoft.Cflbuild.Names

namespace MNetSoft.Cflbuild

open MNetSoft.CString MNetSoft.LinkedList MNetSoft.Numerals MNetSoft.Effects MNetSoft.Runs

/-! ## Model -/

/-- which of the calls that can fail succeed, what `malloc` leaves in the number of the sentinel, and what is on the
stack where `ReadPublicTxt` has its buffer -/
structure Env where
  ok : ℕ → Bool
  junk : ℤ
  stack : Fin 128 → Char

structure State where
  heap : Heap ConfList
  Conf : Addr
  /-- the addresses from here on have not been given out -/
  brk : Addr
  CatList : List Category
  /-- the file -/
  cflist : Str
  stdin : Str
  calls : ℕ

inductive Stop where
  | exit
  | fault
deriving DecidableEq

abbrev M := Eff Stop State

/-- do what follows pointers of the list -/
def onHeap (f : State → Option (Heap ConfList)) : M PUnit := do
  let s ← get
  match f s with
  | none => throw .fault
  | some h => modify fun s => { s with heap := h }

/-- find something by following pointers of the list -/
def ask {α : Type} (f : State → Option α) : M α := do
  let s ← get
  match f s with
  | none => throw .fault
  | some a => pure a

/-- the keys `GetString` keeps -/
def kept (Ch : Char) : Bool := ('0' ≤ Ch && Ch ≤ '9') || Ch = ' ' || Ch = 'q'

/-- what has been kept of a line and what is left to read; `none` at end of file or at a character over 127 -/
def GetString (Len : ℕ) : Str → Str → Option (Str × Str)
  | _, [] => none
  | Str, Ch :: stdin =>
    if Ch.toNat ≥ 128 then none
    else if Ch = '\r' ∨ Ch = '\n' ∨ Str.length ≥ Len then some (Str, stdin)
    else if kept Ch then GetString Len (Str ++ [Ch]) stdin
    else GetString Len Str stdin

theorem length_GetString {Len : ℕ} {Str₀ stdin : Str} {r : Str × Str} (h : GetString Len Str₀ stdin = some r) :
    r.2.length < stdin.length := by
  induction stdin generalizing Str₀ with
  | nil => cases h
  | cons Ch stdin ih =>
    rw [GetString] at h
    split_ifs at h
    · cases h
      exact Nat.lt_succ_self _
    · exact (ih h).trans (Nat.lt_succ_self _)
    · exact (ih h).trans (Nat.lt_succ_self _)

/-- read a line, leaving if there is none -/
def readString (Len : ℕ) : M Str := do
  let s ← get
  match GetString Len [] s.stdin with
  | none => throw .exit
  | some (Str, stdin) => do
    modify fun s => { s with stdin := stdin }
    pure Str

/-- the user has typed `q` or nothing -/
def quits (Str : Str) : Bool := Str.head? = some 'q' || Isblank Str

/-- go on with what the user types, unless he quits -/
def prompt (Len : ℕ) (f : Str → M PUnit) : M PUnit := do
  let Str ← readString Len
  if quits Str then pure ⟨⟩ else f Str

/-- ask for a `y` -/
def confirm : M Bool := do
  let s ← get
  modify fun s => { s with stdin := s.stdin.drop 2 }
  pure (s.stdin.head? = some 'y')

/-- a name that is on the list already is wanted only if the user says so -/
def stillWanted (found : Option Addr) : M Bool := if found.isSome then confirm else pure true

/-- the menu of `Add`, shown until one of its numbers is entered -/
def selectLoop (stdin : Str) : Option (ℤ × Str) :=
  match _hread : GetString 5 [] stdin with
  | none => none
  | some (Str, rest) => if 1 ≤ atoi Str ∧ atoi Str ≤ 3 then some (atoi Str, rest) else selectLoop rest
termination_by stdin.length
decreasing_by exact length_GetString _hread

def SelectList : M ℤ := do
  let s ← get
  match selectLoop s.stdin with
  | none => throw .exit
  | some (Choice, stdin) => do
    modify fun s => { s with stdin := stdin }
    pure Choice

/-- the node with a number, or with a name -/
def Find (ConfNum : ℤ) (ConfName : Str) (WhichOne : ℕ) : M (Option Addr) :=
  ask fun s => (s.heap s.Conf).bind fun r =>
    findLoop (fun e => if WhichOne = 0 then e.ConfNum = ConfNum else strcmp e.ConfName ConfName = 0) (s.brk + 1)
      r.NextRecord s.heap

def Shuffle : M PUnit :=
  onHeap fun s => (s.heap s.Conf).bind fun r => shuffleLoop (s.brk + 1) 0 r.NextRecord s.heap

/-- the names are taken from the lines as they are shown -/
def DispAllPublicConfs : M PUnit := do
  let s ← get
  if ∀ p ∈ confs s.CatList, (extractInto 200 p.ConfName).isSome then pure ⟨⟩ else throw .fault

section Calls

variable (env : Env)

/-- a call that can fail, which ends the program -/
def call : M PUnit := do
  let s ← get
  modify fun s => { s with calls := s.calls + 1 }
  if env.ok s.calls then pure ⟨⟩ else throw .exit

def malloc : M Addr := do
  call env
  let s ← get
  modify fun s => { s with brk := s.brk + 1 }
  pure s.brk

def InitList : M PUnit := do
  let a ← malloc env
  call env
  modify fun s =>
    { s with
      Conf := a
      heap := store a { ConfName := [], ConfNum := env.junk, NextRecord := none, PrevRecord := none } s.heap }

def WriteToBuffers (Buffer : Str) (Num : ℤ) (Len : ℕ) : M PUnit := do
  let TempConf ← ask fun s => lastLoop (s.brk + 1) s.Conf s.heap
  let a ← malloc env
  call env
  onHeap fun s => append TempConf a ⟨strlcpy Buffer (Len + 1), Num⟩ s.heap

/-- the names of a line, which tells the number after theirs -/
def loadNames (Len : ℕ) : List Str → ℤ → M ℤ
  | [], Num => pure Num
  | ConfBuf :: rest, Num => do
    WriteToBuffers env ConfBuf Num Len
    loadNames Len rest (Num + 1)

def loadLines : List Str → ℤ → M PUnit
  | [], _ => pure ⟨⟩
  | FileBuf :: rest, Num => do
    let Num ← loadNames env (loadBuf FileBuf).length (loadLine FileBuf) Num
    loadLines rest Num

/-- what `main` does before its first menu; the catalogue is opened and given memory in one call -/
def start (publicTxt : Str) : M PUnit := do
  InitList env
  let s ← get
  loadLines env (fgetsAll 128 s.cflist) 0
  call env
  match ReadPublicTxt (List.ofFn env.stack) publicTxt with
  | none => throw .fault
  | some CatList => modify fun s => { s with CatList := CatList }

/-- write the names from `p` on, each to its line -/
def writeLoop : ℕ → Option Addr → M PUnit
  | 0, _ => throw .fault
  | _ + 1, none => pure ⟨⟩
  | fuel + 1, some a => do
    let r ← ask fun s => s.heap a
    call env
    modify fun s => { s with cflist := s.cflist ++ (r.ConfName ++ ['\n']).take 199 }
    writeLoop fuel r.NextRecord

/-- `fclose` is taken to write out what `fwrite` has put into its buffer -/
def WriteTocflist : M PUnit := do
  call env
  modify fun s => { s with cflist := [] }
  let s ← get
  let r ← ask fun s => s.heap s.Conf
  writeLoop env (s.brk + 1) r.NextRecord

def Delete : M PUnit :=
  prompt 5 fun ConStr => do
    match ← Find (atoi ConStr) [] 0 with
    | none => pure ⟨⟩
    | some TempConf => do
      onHeap fun s => (unlink TempConf s.heap).map (free TempConf)
      Shuffle
      WriteTocflist env

/-- put one more conference on the list -/
def addToken (Pub : Option (List PublicConf)) (ConfBuf : Str) : M PUnit := do
  if Isblank ConfBuf then pure ⟨⟩ else
    let ConfNum := atoi ConfBuf
    let e ← ask fun s => GetConfFromPublicTxt 40 s.CatList Pub ConfNum
    match e.ConfName with
    | none => pure ⟨⟩
    | some ConfName => do
      let found ← Find ConfNum ConfName 1
      let Yes ← stillWanted found
      if Yes then do
        WriteToBuffers env ConfName ConfNum ConfName.length
        Shuffle
        WriteTocflist env
      else pure ⟨⟩

def addTokens (Pub : Option (List PublicConf)) : List Str → M PUnit
  | [] => pure ⟨⟩
  | ConfBuf :: rest => do
    addToken env Pub ConfBuf
    addTokens Pub rest

def Add : M PUnit := do
  let Choice ← SelectList
  if Choice = 3 then pure ⟨⟩
  else if Choice = 1 then do
    DispAllPublicConfs
    prompt 35 fun ConStr => addTokens env none (tokens ConStr)
  else
    prompt 5 fun Str => do
      let s ← get
      match FindCat (atoi Str) s.CatList with
      | none => pure ⟨⟩
      | some Cat =>
        if Cat.ConfPub = [] then pure ⟨⟩
        else prompt 35 fun ConStr => addTokens env (some Cat.ConfPub) (tokens ConStr)

def Change : M PUnit :=
  prompt 5 fun Str => do
    match ← Find (atoi Str) [] 0 with
    | none => pure ⟨⟩
    | some TempConf => do
      DispAllPublicConfs
      prompt 5 fun Str => do
        let ConfNum2 := atoi Str
        let e ← ask fun s => GetConfFromPublicTxt 200 s.CatList none ConfNum2
        match e.ConfName with
        | none => pure ⟨⟩
        | some ConfName2 => do
          let found ← Find ConfNum2 ConfName2 1
          let Yes ← stillWanted found
          if Yes then do
            call env
            onHeap fun s => (s.heap TempConf).map fun r =>
              store TempConf { r with ConfName := strlcpy ConfName2 200 } s.heap
            WriteTocflist env
          else pure ⟨⟩

def Move : M PUnit :=
  prompt 5 fun Str => do
    let Node1 := atoi Str
    prompt 5 fun Str => do
      let Node2 := atoi Str
      if Node1 = Node2 then pure ⟨⟩ else
        match ← Find Node1 [] 0 with
        | none => pure ⟨⟩
        | some Conf1 => do
          match ← Find Node2 [] 0 with
          | none => pure ⟨⟩
          | some Conf2 => do
            onHeap fun s => Insert Conf1 Conf2 s.heap
            Shuffle
            WriteTocflist env

def SortAll : M PUnit := do
  let q ← ask fun s => (s.heap s.Conf).bind fun r => sortOuter (s.brk + 1) (s.brk + 1) r.NextRecord false s.heap
  modify fun s => { s with heap := q.2 }
  if q.1 then do
    Shuffle
    WriteTocflist env
  else pure ⟨⟩

inductive Op where
  | Add
  | Change
  | Delete
  | Move
  | SortAll
deriving DecidableEq

def perform : Op → M PUnit
  | .Add => Add env
  | .Change => Change env
  | .Delete => Delete env
  | .Move => Move env
  | .SortAll => SortAll env

end Calls

/-! ## The list between two statements -/

/-- the sentinel -/
def sentinel (env : Env) : Entry := ⟨[], env.junk⟩

/-- the nodes are linked behind the sentinel, and their names can be written -/
structure Holds (env : Env) (s : State) (es : List (Addr × Entry)) : Prop where
  linked : Linked s.heap ((s.Conf, sentinel env) :: es)
  bound : ∀ a ∈ s.Conf :: addrs es, a < s.brk
  line : ∀ n ∈ names es, IsName n.2
  cats : Named s.CatList

/-- the nodes are linked behind a sentinel, whatever their names -/
structure Stands (v : Entry) (s : State) (es : List (Addr × Entry)) : Prop where
  linked : Linked s.heap ((s.Conf, v) :: es)
  bound : ∀ a ∈ s.Conf :: addrs es, a < s.brk

/-- the nodes are numbered in order, too -/
def Shows (env : Env) (s : State) (l : List (Addr × Str)) : Prop := Holds env s (number 0 l)

/-- what is written for names, a line of at most 199 characters each -/
def written (ns : List Str) : Str := ns.flatMap fun n => (n ++ ['\n']).take 199

/-- the names of the nodes, a line each -/
def contents (l : List (Addr × Str)) : Str := unlines (l.map Prod.snd)

/-- the program exits, and does nothing worse -/
def Exits (e : Stop) : Prop := e = .exit

/-- the program exits because a call has failed -/
def Fails (env : Env) (e : Stop) : Prop := e = .exit ∧ ∃ i, env.ok i = false

theorem exits_exit : Exits .exit := rfl

theorem exits_of_fails {env : Env} (e : Stop) (he : Fails env e) : Exits e := he.1

/-- the program exits, or does worse where `R` holds -/
def FaultOnly (R : Prop) (e : Stop) : Prop := e = .fault → R

theorem faultOnly_exit {R : Prop} : FaultOnly R .exit := fun hfault => by cases hfault

theorem faultOnly_of_exits {R : Prop} (e : Stop) (he : Exits e) : FaultOnly R e := by
  rw [he]
  exact faultOnly_exit

section Calls

variable {env : Env} {s : State} {es : List (Addr × Entry)} {E : Stop → Prop} {α : Type}

theorem Holds.stands (h : Holds env s es) : Stands (sentinel env) s es := ⟨h.linked, h.bound⟩

/-- there are fewer nodes than addresses that have been given out -/
theorem Stands.length_lt {v : Entry} (h : Stands v s es) : es.length < s.brk := by
  have hsub : (s.Conf :: addrs es).Subperm (List.range s.brk) :=
    (h.linked.nodup node_next).subperm fun a ha => List.mem_range.2 (h.bound a ha)
  have hle := hsub.length_le
  rw [List.length_cons, List.length_range, addrs, List.length_map] at hle
  exact hle

/-- the sentinel's record -/
theorem Stands.first {v : Entry} (h : Stands v s es) :
    ∃ r, s.heap s.Conf = some r ∧ r.NextRecord = LinkedList.first es none := by
  obtain ⟨⟨r, hr, -, -, hnext⟩, -⟩ := h.linked
  exact ⟨r, hr, hnext⟩

theorem Holds.length_lt (h : Holds env s es) : es.length < s.brk := h.stands.length_lt

theorem Holds.first (h : Holds env s es) : ∃ r, s.heap s.Conf = some r ∧ r.NextRecord = LinkedList.first es none :=
  h.stands.first

/-- short names are written as they are -/
theorem written_eq {ns : List Str} (h : ∀ n ∈ ns, n.length < 199) : written ns = unlines ns := by
  apply List.flatMap_congr
  intro n hn
  apply List.take_of_length_le
  rw [List.length_append, List.length_singleton]
  exact h n hn

theorem onHeap_spec {f : State → Option (Heap ConfList)} {h : Heap ConfList} {Q : PUnit → State → Prop}
    (hf : f s = some h) (hQ : Q ⟨⟩ { s with heap := h }) : Ensures E (onHeap f) s Q := by
  apply ensures_get_bind
  rw [hf]
  exact ensures_modify hQ

theorem ask_spec {f : State → Option α} {a : α} {Q : α → State → Prop} (hf : f s = some a) (hQ : Q a s) :
    Ensures E (ask f) s Q := by
  apply ensures_get_bind
  rw [hf]
  exact ensures_pure hQ

theorem call_fails {Q : PUnit → State → Prop} (hE : ∀ e, Fails env e → E e)
    (hQ : Q ⟨⟩ { s with calls := s.calls + 1 }) : Ensures E (call env) s Q := by
  refine ensures_get_bind (ensures_modify_bind ?_)
  exact Ensures.ite (fun _ => ensures_pure hQ) fun hfail => ensures_throw (hE _ ⟨rfl, _, Bool.eq_false_iff.2 hfail⟩)

theorem call_spec {Q : PUnit → State → Prop} (hE : E .exit) (hQ : Q ⟨⟩ { s with calls := s.calls + 1 }) :
    Ensures E (call env) s Q :=
  call_fails (fun _ he => he.1 ▸ hE) hQ

theorem malloc_spec {Q : Addr → State → Prop} (hE : ∀ e, Fails env e → E e)
    (hQ : Q s.brk { s with calls := s.calls + 1, brk := s.brk + 1 }) : Ensures E (malloc env) s Q := by
  apply Ensures.bind_eq (fun _ => call_fails hE)
  exact ensures_get_bind (ensures_modify_bind (ensures_pure hQ))

/-! ## What the parts do -/

/-- a search by number or by name -/
theorem Find_spec (hs : Holds env s es) (ConfNum : ℤ) (ConfName : Str) (WhichOne : ℕ) {Q : Option Addr → State → Prop}
    (hQ : Q ((es.find? fun n => if WhichOne = 0 then n.2.ConfNum = ConfNum else strcmp n.2.ConfName ConfName = 0).map
      Prod.fst) s) : Ensures E (Find ConfNum ConfName WhichOne) s Q := by
  obtain ⟨r, hr, hnext⟩ := hs.first
  refine ask_spec ?_ hQ
  rw [hr, Option.bind_some, hnext]
  exact findLoop_spec _ hs.linked.2 (hs.length_lt.trans (Nat.lt_succ_self _))

/-- the nodes are numbered in order -/
theorem Stands.shuffle {v : Entry} (hs : Stands v s es) :
    Ensures E Shuffle s fun _ t => ∃ h', t = { s with heap := h' } ∧ Stands v t (number 0 (names es)) := by
  obtain ⟨r, hr, hnext⟩ := hs.first
  obtain ⟨hhead, htail⟩ := hs.linked
  have hnodup := hs.linked.nodup node_next
  obtain ⟨hConf, hnodup⟩ := List.nodup_cons.1 hnodup
  obtain ⟨h', hloop, hl', hframe⟩ :=
    shuffleLoop_spec htail hnodup (hs.length_lt.trans (Nat.lt_succ_self s.brk))
  refine onHeap_spec (h := h') ?_ ⟨h', rfl, ⟨?_, hl'⟩, ?_⟩
  · rw [hr, Option.bind_some, hnext, hloop]
  · obtain ⟨r, hr, hnode⟩ := hhead
    refine ⟨r, (hframe _ hConf).trans hr, ?_⟩
    rwa [first_number, first_names]
  · intro a ha
    rw [addrs_number, addrs_names] at ha
    exact hs.bound a ha

/-- **Renumbering.** -/
theorem Shuffle_spec (hs : Holds env s es) :
    Ensures E Shuffle s fun _ t => Shows env t (names es) ∧ t.CatList = s.CatList := by
  apply hs.stands.shuffle.post
  rintro - t ⟨h', rfl, ht⟩
  refine ⟨⟨ht.linked, ht.bound, ?_, hs.cats⟩, rfl⟩
  rw [names_number]
  exact hs.line

/-- the names of the nodes are written behind what is in the file -/
theorem writeLoop_spec {b : Option Addr} {fuel : ℕ} (hl : Links Node s.heap b es none) (hfuel : es.length < fuel) :
    Ensures Exits (writeLoop env fuel (LinkedList.first es none)) s fun _ t =>
      ∃ calls, t = { s with cflist := s.cflist ++ written ((names es).map Prod.snd), calls := calls } := by
  induction es generalizing s b fuel with
  | nil =>
    obtain ⟨fuel, rfl⟩ := Nat.exists_eq_add_one.2 (Nat.zero_lt_of_lt hfuel)
    exact ensures_pure ⟨s.calls, by simp [written, names]⟩
  | cons n es ih =>
    obtain ⟨n, e⟩ := n
    obtain ⟨fuel, rfl⟩ := Nat.exists_eq_add_one.2 (Nat.zero_lt_of_lt hfuel)
    obtain ⟨⟨r, hr, rfl, -, hnext⟩, hl⟩ := hl
    apply Ensures.bind_eq (fun _ => ask_spec hr)
    apply Ensures.bind_eq (fun _ => call_spec exits_exit)
    apply ensures_modify_bind
    rw [hnext]
    have hl' : Links Node
        ({ s with calls := s.calls + 1, cflist := s.cflist ++ (r.ConfName ++ ['\n']).take 199 } : State).heap
        (some n) es none := hl
    apply (ih hl' (by simpa using hfuel)).post
    rintro - u ⟨calls, rfl⟩
    refine ⟨calls, ?_⟩
    simp [written, names]

/-- the file holds the names, whatever they are, and the list is as it was -/
theorem Stands.write {v : Entry} (hs : Stands v s es) :
    Ensures Exits (WriteTocflist env) s fun _ t =>
      ∃ calls, t = { s with cflist := written ((names es).map Prod.snd), calls := calls } := by
  obtain ⟨r, hr, hnext⟩ := hs.first
  apply Ensures.bind_eq (fun _ => call_spec exits_exit)
  apply ensures_modify_bind
  apply ensures_get_bind
  apply Ensures.bind_eq (fun _ => ask_spec hr)
  rw [hnext]
  exact writeLoop_spec (s := { s with calls := s.calls + 1, cflist := [] }) hs.linked.2
    (hs.length_lt.trans (Nat.lt_succ_self _))

/-- **The file.** It holds the names, a line each. -/
theorem WriteTocflist_spec (hs : Holds env s es) :
    Ensures Exits (WriteTocflist env) s fun _ t =>
      Holds env t es ∧ t.cflist = contents (names es) ∧ t.CatList = s.CatList := by
  apply hs.stands.write.post
  rintro - u ⟨calls, rfl⟩
  refine ⟨⟨hs.linked, hs.bound, hs.line, hs.cats⟩, written_eq ?_, rfl⟩
  intro n hn
  obtain ⟨x, hx, rfl⟩ := List.mem_map.1 hn
  exact (hs.line x hx).2.trans (by norm_num)

/-- the nodes are numbered and their names are written -/
theorem save_spec (hs : Holds env s es) :
    Ensures Exits (Shuffle >>= fun _ => WriteTocflist env) s fun _ t =>
      Shows env t (names es) ∧ t.cflist = contents (names es) ∧ t.CatList = s.CatList := by
  apply (Shuffle_spec hs).bind
  rintro - t ⟨ht, hcats⟩
  apply (WriteTocflist_spec ht).post
  rintro - u ⟨hu, hfile, hcats'⟩
  rw [names_number] at hfile
  exact ⟨hu, hfile, hcats'.trans hcats⟩

/-- **Append.** -/
theorem WriteToBuffers_spec (hs : Holds env s es) {Buffer : Str} (hBuffer : IsName Buffer) {Len : ℕ}
    (hLen : Buffer.length ≤ Len) (Num : ℤ) :
    Ensures (Fails env) (WriteToBuffers env Buffer Num Len) s fun _ t =>
      ∃ a, Holds env t (es ++ [(a, ⟨Buffer, Num⟩)]) ∧ t.CatList = s.CatList := by
  obtain ⟨pre, p, v, hlast⟩ := (last_cases ((s.Conf, sentinel env) :: es)).resolve_left (List.cons_ne_nil _ _)
  have hfresh : s.brk ∉ addrs (pre ++ [(p, v)]) := by
    rw [← hlast]
    exact fun h => lt_irrefl _ (hs.bound _ h)
  have hwalk : lastLoop (s.brk + 1) s.Conf s.heap = some p := by
    rw [lastLoop_spec hs.linked (hs.length_lt.trans (Nat.lt_succ_self _))]
    exact (congrArg (last none) hlast).trans (last_concat none pre p v)
  have hl := hs.linked
  rw [hlast] at hl
  obtain ⟨h', happend, hl'⟩ := append_spec hl hfresh ⟨Buffer, Num⟩
  apply Ensures.bind_eq (fun _ => ask_spec hwalk)
  apply Ensures.bind_eq (fun _ => malloc_spec fun _ he => he)
  apply Ensures.bind_eq (fun _ => call_fails fun _ he => he)
  have hcopy : strlcpy Buffer (Len + 1) = Buffer := List.take_of_length_le (by simpa using hLen)
  refine onHeap_spec (h := h') (by rw [hcopy]; exact happend) ⟨s.brk, ⟨?_, ?_, ?_, hs.cats⟩, rfl⟩
  · rw [← hlast] at hl'
    exact hl'
  · intro b hb
    rw [addrs_append, ← List.cons_append, List.mem_append] at hb
    rcases hb with hb | hb
    · exact (hs.bound b hb).trans (Nat.lt_succ_self _)
    · obtain rfl : b = s.brk := by simpa using hb
      exact Nat.lt_succ_self _
  · intro n hn
    rw [names, List.map_append, ← names, List.mem_append] at hn
    rcases hn with hn | hn
    · exact hs.line n hn
    · obtain rfl : n = (s.brk, Buffer) := by simpa using hn
      exact hBuffer

/-- the names of a line are put behind the others -/
theorem loadNames_spec {Len : ℕ} {bufs : List Str} (hbufs : ∀ n ∈ bufs, IsName n ∧ n.length ≤ Len)
    {l : List (Addr × Str)} (hs : Shows env s l) :
    Ensures (Fails env) (loadNames env Len bufs l.length) s fun Num t =>
      ∃ l', Shows env t l' ∧ Num = l'.length ∧ l'.map Prod.snd = l.map Prod.snd ++ bufs := by
  induction bufs generalizing s l with
  | nil => exact ensures_pure ⟨l, hs, rfl, (List.append_nil _).symm⟩
  | cons buf bufs ih =>
    obtain ⟨⟨hname, hlen⟩, hbufs⟩ := List.forall_mem_cons.1 hbufs
    apply (WriteToBuffers_spec hs hname hlen l.length).bind
    rintro - t ⟨a, ht, -⟩
    have hshow : Shows env t (l ++ [(a, buf)]) := by
      rw [Shows, number_append, zero_add]
      exact ht
    have hnum : (l.length : ℤ) + 1 = ((l ++ [(a, buf)]).length : ℕ) := by simp
    rw [hnum]
    apply (ih hbufs hshow).post
    intro Num u h
    rcases h with ⟨l', hl', hNum, hnames⟩
    refine ⟨l', hl', hNum, ?_⟩
    rw [hnames]
    simp

theorem loadLines_spec {lines : List Str}
    (hlines : ∀ l ∈ lines, ∀ n ∈ loadLine l, IsName n ∧ n.length ≤ (loadBuf l).length)
    {l : List (Addr × Str)} (hs : Shows env s l) :
    Ensures (Fails env) (loadLines env lines l.length) s fun _ t =>
      ∃ l', Shows env t l' ∧ l'.map Prod.snd = l.map Prod.snd ++ lines.flatMap loadLine := by
  induction lines generalizing s l with
  | nil => exact ensures_pure ⟨l, hs, (List.append_nil _).symm⟩
  | cons line lines ih =>
    obtain ⟨hline, hlines⟩ := List.forall_mem_cons.1 hlines
    apply (loadNames_spec hline hs).bind
    intro Num t h
    rcases h with ⟨l₁, hl₁, rfl, hnames₁⟩
    apply (ih hlines hl₁).post
    rintro - u ⟨l₂, hl₂, hnames₂⟩
    refine ⟨l₂, hl₂, ?_⟩
    rw [hnames₂, hnames₁, List.flatMap_cons, List.append_assoc]

/-- the program as it starts, with its file -/
def initial (cflist : Str) : State := ⟨fun _ => none, 0, 0, [], cflist, [], 0⟩

/-- `main` stops before its first menu: a call has failed, or the catalogue cannot be read -/
def Unstarted (env : Env) (publicTxt : Str) (e : Stop) : Prop :=
  Fails env e ∨ e = .fault ∧ ReadPublicTxt (List.ofFn env.stack) publicTxt = none

/-- **Before the first menu.** The list holds the names of the file in order, numbered from 0 on, and the catalogue has
been read; only a catalogue that cannot be read stops the program in the middle of something. -/
theorem start_spec (env : Env) (cflist publicTxt : Str) :
    Ensures (Unstarted env publicTxt) (start env publicTxt) (initial cflist) fun _ t =>
      (∃ l, Shows env t l ∧ l.map Prod.snd = (fgetsAll 128 cflist).flatMap loadLine) ∧
        ReadPublicTxt (List.ofFn env.stack) publicTxt = some t.CatList := by
  have hnode : Linked (store 0 ⟨sentinel env, none, none⟩ fun _ => none) [(0, sentinel env)] :=
    links_singleton.2 ⟨_, store_self .., rfl, rfl, rfl⟩
  have hinit : Ensures (Fails env) (InitList env) (initial cflist) fun _ t => Shows env t [] ∧ t.cflist = cflist := by
    apply Ensures.bind_eq (fun _ => malloc_spec fun _ he => he)
    apply Ensures.bind_eq (fun _ => call_fails fun _ he => he)
    refine ensures_modify ⟨⟨?_, ?_, ?_, ?_⟩, rfl⟩
    · exact hnode
    · intro a ha
      obtain rfl : a = (initial cflist).brk := by simpa [number] using ha
      exact Nat.lt_succ_self _
    · intro n hn
      cases hn
    · intro p hp
      cases hp
  apply (hinit.raises fun _ he => Or.inl he).bind
  rintro - t ⟨ht, rfl⟩
  apply ensures_get_bind
  apply ((loadLines_spec (fun l hl n hn => loadLine_names hl hn) ht).raises fun _ he => Or.inl he).bind
  rintro - u ⟨l, hl, hnames⟩
  apply Ensures.bind_eq (fun _ => call_fails fun _ he => Or.inl he)
  cases hread : ReadPublicTxt (List.ofFn env.stack) publicTxt with
  | none => exact ensures_throw (Or.inr ⟨rfl, rfl⟩)
  | some CatList => exact ensures_modify ⟨⟨l, ⟨hl.linked, hl.bound, hl.line, ReadPublicTxt_named hread⟩, hnames⟩, rfl⟩

/-! ## What the user types -/

/-- `Str` is what the user has typed, if he does not quit -/
def typed (Len : ℕ) (stdin : Str) : Option (Str × Str) := (GetString Len [] stdin).filter fun r => !quits r.1

/-- the place of a number in a list, if the list is that long -/
def place (l : List (Addr × Str)) (ConfNum : ℤ) : Option ℕ :=
  if 0 ≤ ConfNum ∧ ConfNum < l.length then some ConfNum.toNat else none

/-- a node is taken out and put directly before another one -/
def MovedBefore (l : List (Addr × Str)) (i j : ℕ) (l' : List (Addr × Str)) : Prop :=
  ∃ pre post x y, l[i]? = some x ∧ l[j]? = some y ∧ l.eraseIdx i = pre ++ y :: post ∧ l' = pre ++ x :: y :: post

/-- what a command makes of the list, where this is what the user types -/
def Outcome (stdin : Str) (l l' : List (Addr × Str)) : Op → Prop
  | .Add => ∃ new, l' = l ++ new
  | .Change => l' = l ∨ ∃ r i x ConfName,
      typed 5 stdin = some r ∧ place l (atoi r.1) = some i ∧ l[i]? = some x ∧ l' = l.set i (x.1, ConfName)
  | .Delete =>
    match (typed 5 stdin).bind fun r => place l (atoi r.1) with
    | none => l' = l
    | some i => l' = l.eraseIdx i
  | .Move =>
    match (typed 5 stdin).bind fun r₁ => (typed 5 r₁.2).bind fun r₂ =>
        (place l (atoi r₁.1)).bind fun i => (place l (atoi r₂.1)).map fun j => (i, j) with
    | none => l' = l
    | some (i, j) => if i = j then l' = l else MovedBefore l i j l'
  | .SortAll => l'.Perm l

/-- the list after a command; the file shows it, unless the command has left the list and the file as they were -/
def After (env : Env) (file : Str) (l : List (Addr × Str)) (P : List (Addr × Str) → Prop) (_ : Unit) (t : State) :
    Prop :=
  ∃ l', Shows env t l' ∧ P l' ∧ (l' = l ∧ t.cflist = file ∨ t.cflist = contents l')

theorem prompt_spec {Len : ℕ} {f : Str → M PUnit} {Q : PUnit → State → Prop} (hE : E .exit)
    (hquit : typed Len s.stdin = none → ∀ rest, Q ⟨⟩ { s with stdin := rest })
    (hgo : ∀ Str rest, typed Len s.stdin = some (Str, rest) → Ensures E (f Str) { s with stdin := rest } Q) :
    Ensures E (prompt Len f) s Q := by
  cases hget : GetString Len [] s.stdin with
  | none =>
    have hread : Ensures E (readString Len) s fun _ _ => False := by
      apply ensures_get_bind
      rw [hget]
      exact ensures_throw hE
    exact hread.bind fun _ _ h => h.elim
  | some r =>
    obtain ⟨Str, rest⟩ := r
    have hread : Ensures E (readString Len) s fun a t => a = Str ∧ t = { s with stdin := rest } := by
      apply ensures_get_bind
      rw [hget]
      exact ensures_modify_bind (ensures_pure ⟨rfl, rfl⟩)
    apply hread.bind
    intro a t hx
    rcases hx with ⟨rfl, rfl⟩
    refine Ensures.ite (fun hq => ensures_pure (hquit ?_ rest)) fun hq => hgo a rest ?_
    · rw [typed, hget, Option.filter_some, hq]
      rfl
    · rw [typed, hget, Option.filter_some, Bool.eq_false_iff.2 hq]
      rfl

/-- the search for a number finds the node in its place -/
theorem find_number (l : List (Addr × Str)) (num n : ℤ) :
    ((number num l).find? fun e => e.2.ConfNum = n).map Prod.fst = (place l (n - num)).bind fun i =>
      l[i]?.map Prod.fst := by
  induction l generalizing num with
  | nil =>
    rw [place, if_neg (by simp)]
    rfl
  | cons x l ih =>
    rw [number]
    by_cases hnum : num = n
    · rw [List.find?_cons_of_pos (by simpa using hnum), place, if_pos (by simp; omega), hnum]
      simp
    · rw [List.find?_cons_of_neg (by simpa using hnum), ih, place, place]
      split_ifs with h1 h2 h2
      · obtain ⟨k, hk⟩ : ∃ k, (n - num).toNat = k + 1 := ⟨(n - num).toNat - 1, by omega⟩
        have hk' : (n - (num + 1)).toNat = k := by omega
        rw [hk, hk', Option.bind_some, Option.bind_some, List.getElem?_cons_succ]
      · simp at h2
        omega
      · simp at h1 h2
        omega
      · rfl

theorem Find_number_spec {l : List (Addr × Str)} (hs : Shows env s l) {n : ℤ} {Q : Option Addr → State → Prop}
    (hQ : Q ((place l n).bind fun i => l[i]?.map Prod.fst) s) : Ensures E (Find n [] 0) s Q := by
  apply Find_spec hs n [] 0
  have hfind := find_number l 0 n
  rw [sub_zero] at hfind
  rw [← hfind] at hQ
  simpa using hQ

/-- a number that has a place divides the list there -/
theorem place_eq_some {l : List (Addr × Str)} {n : ℤ} {i : ℕ} (h : place l n = some i) :
    n = i ∧ ∃ pre x post, l = pre ++ x :: post ∧ pre.length = i ∧ l[i]? = some x ∧ l.eraseIdx i = pre ++ post := by
  rw [place] at h
  split_ifs at h with hn
  cases h
  have hlt : n.toNat < l.length := by omega
  refine ⟨by omega, l.take n.toNat, l[n.toNat], l.drop (n.toNat + 1), ?_, ?_, List.getElem?_eq_getElem hlt, ?_⟩
  · rw [← List.drop_eq_getElem_cons hlt, List.take_append_drop]
  · rw [List.length_take, min_eq_left hlt.le]
  · rw [List.eraseIdx_eq_take_drop_succ]

/-! ## What relinking does to the list -/

/-- the nodes that are linked are nodes that were -/
theorem Holds.of_linked (hs : Holds env s es) {h' : Heap ConfList} {es' : List (Addr × Entry)}
    (hl : Linked h' ((s.Conf, sentinel env) :: es')) (hsub : es' ⊆ es) : Holds env { s with heap := h' } es' := by
  refine ⟨hl, ?_, ?_, hs.cats⟩
  · intro a ha
    rcases List.mem_cons.1 ha with rfl | ha
    · exact hs.bound _ List.mem_cons_self
    · obtain ⟨v, hv⟩ := mem_addrs.1 ha
      exact hs.bound a (List.mem_cons_of_mem _ (mem_addrs.2 ⟨v, hsub hv⟩))
  · intro n hn
    obtain ⟨e, he, rfl⟩ := List.mem_map.1 hn
    exact hs.line _ (List.mem_map_of_mem (hsub he))

section Relinked

variable {es₁ es₂ : List (Addr × Entry)} {x : Addr} {e : Entry}

/-- a node has one before it, the sentinel if no other -/
theorem Holds.split (hs : Holds env s (es₁ ++ (x, e) :: es₂)) : ∃ pre p v,
    (s.Conf, sentinel env) :: es₁ = pre ++ [(p, v)] ∧ Linked s.heap (pre ++ (p, v) :: (x, e) :: es₂) := by
  obtain ⟨pre, p, v, hlast⟩ := (last_cases ((s.Conf, sentinel env) :: es₁)).resolve_left (List.cons_ne_nil _ _)
  refine ⟨pre, p, v, hlast, ?_⟩
  have hl := hs.linked
  rwa [← List.cons_append, hlast, List.append_assoc] at hl

theorem Holds.unlink (hs : Holds env s (es₁ ++ (x, e) :: es₂)) :
    ∃ h', (Cflbuild.unlink x s.heap).map (free x) = some h' ∧ Holds env { s with heap := h' } (es₁ ++ es₂) := by
  obtain ⟨pre, p, v, hlast, hl⟩ := hs.split
  have hx : x ∉ addrs (pre ++ (p, v) :: es₂) := by
    obtain ⟨-, -, hxp, hx, hpost, -⟩ := linked_middle hl
    simp only [addrs_append, addrs_cons, List.mem_append, List.mem_cons, not_or]
    exact ⟨hx, hxp, fun hx' => (hpost x hx').2.1 rfl⟩
  obtain ⟨h', hset, -, hl', -⟩ := unlink_spec hl
  refine ⟨free x h', by rw [hset, Option.map_some], hs.of_linked ?_ ?_⟩
  · rw [← List.cons_append, hlast, List.append_assoc]
    exact hl'.free hx
  · exact List.append_subset.2 ⟨List.subset_append_left _ _,
      fun a ha => List.mem_append_right _ (List.mem_cons_of_mem _ ha)⟩

theorem Holds.insert (hs : Holds env s (es₁ ++ (x, e) :: es₂)) {es₃ es₄ : List (Addr × Entry)} {y : Addr} {e' : Entry}
    (hrest : es₁ ++ es₂ = es₃ ++ (y, e') :: es₄) :
    ∃ h', Insert x y s.heap = some h' ∧ Holds env { s with heap := h' } (es₃ ++ (x, e) :: (y, e') :: es₄) := by
  obtain ⟨pre, p, v, hlast, hl⟩ := hs.split
  obtain ⟨pre', p', v', hlast'⟩ := (last_cases ((s.Conf, sentinel env) :: es₃)).resolve_left (List.cons_ne_nil _ _)
  have hothers : pre ++ (p, v) :: es₂ = pre' ++ (p', v') :: (y, e') :: es₄ := by
    rw [List.append_cons, ← hlast, List.cons_append, hrest, ← List.cons_append, hlast', List.append_assoc]
    rfl
  obtain ⟨h', hset, hl', -⟩ := Insert_spec hl hothers
  refine ⟨h', hset, hs.of_linked ?_ ?_⟩
  · rw [← List.cons_append, hlast', List.append_assoc]
    exact hl'
  · have hperm : (es₃ ++ (x, e) :: (y, e') :: es₄).Perm (es₁ ++ (x, e) :: es₂) :=
      List.perm_middle.trans ((hrest ▸ List.Perm.refl _ : ((x, e) :: (es₃ ++ (y, e') :: es₄)).Perm
        ((x, e) :: (es₁ ++ es₂))).trans List.perm_middle.symm)
    exact hperm.subset

theorem Stands.sort {v : Entry} (hs : Stands v s es) :
    ∃ h', sortOuter (s.brk + 1) (s.brk + 1) (LinkedList.first es none) false s.heap = some ((bubble es).1, h') ∧
      Stands v { s with heap := h' } (bubble es).2 := by
  have hlt := hs.length_lt
  have hl : Linked s.heap ([] ++ (s.Conf, v) :: es) := hs.linked
  obtain ⟨h', hsort, hl'⟩ := sortOuter_spec false hl (hlt.le.trans (Nat.le_succ _)) (hlt.trans (Nat.lt_succ_self _))
  refine ⟨h', hsort, hl', fun a ha => hs.bound a ?_⟩
  exact (((bubble_perm es).map Prod.fst).cons s.Conf).subset ha

theorem Holds.sort (hs : Holds env s es) :
    ∃ h', sortOuter (s.brk + 1) (s.brk + 1) (LinkedList.first es none) false s.heap = some ((bubble es).1, h') ∧
      Holds env { s with heap := h' } (bubble es).2 := by
  obtain ⟨h', hsort, hstands⟩ := hs.stands.sort
  exact ⟨h', hsort, hs.of_linked hstands.linked (bubble_perm es).subset⟩

/-- a node is given another name -/
theorem Holds.rename (hs : Holds env s (es₁ ++ (x, e) :: es₂)) {ConfName : Str} (hname : IsName ConfName) :
    ∃ h', (s.heap x).map (fun r => store x { r with ConfName := ConfName } s.heap) = some h' ∧
      Holds env { s with heap := h' } (es₁ ++ (x, { e with ConfName := ConfName }) :: es₂) := by
  obtain ⟨pre, p, v, hlast, hl⟩ := hs.split
  obtain ⟨⟨hfront, ⟨r, hr, rfl, hprev, hnext⟩, hback⟩, -, hxp, hx, hpost, -⟩ := linked_middle hl
  refine ⟨store x { r with ConfName := ConfName } s.heap, by rw [hr, Option.map_some], ⟨?_, ?_, ?_, hs.cats⟩⟩
  · rw [← List.cons_append, hlast]
    refine links_append.2 ⟨hfront.store ?_ _, ?_⟩
    · simp [hx, hxp]
    · rw [last_concat]
      exact ⟨⟨_, store_self .., rfl, hprev, hnext⟩, hback.store (fun hx' => (hpost x hx').2.1 rfl) _⟩
  · intro a ha
    apply hs.bound a
    simpa using ha
  · intro n hn
    have hline := hs.line
    simp only [names_append, names_cons, List.mem_append, List.mem_cons] at hn hline
    rcases hn with hn | rfl | hn
    · exact hline n (Or.inl hn)
    · exact hname
    · exact hline n (Or.inr (Or.inr hn))

end Relinked

section Places

variable {l : List (Addr × Str)} {n m : ℤ} {i j : ℕ}

/-- the node in a place is taken out -/
theorem Shows.delete (hs : Shows env s l) (hi : place l n = some i) :
    ∃ x h' es, l[i]? = some x ∧ (Cflbuild.unlink x.1 s.heap).map (free x.1) = some h' ∧
      Holds env { s with heap := h' } es ∧ names es = l.eraseIdx i := by
  obtain ⟨-, pre, x, post, rfl, -, hget, herase⟩ := place_eq_some hi
  rw [Shows, number_append, ← Prod.eta x] at hs
  obtain ⟨h', hset, hholds⟩ := hs.unlink
  refine ⟨x, h', _, hget, hset, hholds, ?_⟩
  rw [herase, names_append, names_number, names_number]

/-- the node in one place is put before the node in another -/
theorem Shows.move (hs : Shows env s l) (hi : place l n = some i) (hj : place l m = some j) (hij : i ≠ j) :
    ∃ x y h' es, l[i]? = some x ∧ l[j]? = some y ∧ Insert x.1 y.1 s.heap = some h' ∧
      Holds env { s with heap := h' } es ∧ MovedBefore l i j (names es) := by
  obtain ⟨-, pre, x, post, hl, -, hx, herase⟩ := place_eq_some hi
  obtain ⟨-, -, y, -, -, -, hy, -⟩ := place_eq_some hj
  rw [Shows, hl, number_append, ← Prod.eta x] at hs
  -- the other node is still in the list when the first one is out
  have hmem : y ∈ names (number 0 pre ++ number (0 + pre.length + 1) post) := by
    rw [names_append, names_number, names_number, ← herase]
    exact List.mem_eraseIdx_iff_getElem?.2 ⟨j, Ne.symm hij, hy⟩
  obtain ⟨⟨b, e⟩, he, rfl⟩ := List.mem_map.1 hmem
  obtain ⟨es₃, es₄, hothers⟩ := List.append_of_mem he
  obtain ⟨h', hset, hholds⟩ := Holds.insert hs hothers
  refine ⟨x, (b, e.ConfName), h', _, hx, hy, hset, hholds, names es₃, names es₄, x, (b, e.ConfName), hx, hy, ?_, ?_⟩
  · have hnames := congrArg names hothers
    rw [names_append, names_number, names_number, names_append, names_cons] at hnames
    rw [herase, hnames]
  · rw [names_append, names_cons, names_cons]

/-- the node in a place is given another name, and keeps its number -/
theorem Shows.rename (hs : Shows env s l) (hi : place l n = some i) {ConfName : Str} (hname : IsName ConfName) :
    ∃ x h', l[i]? = some x ∧
      (s.heap x.1).map (fun r => store x.1 { r with ConfName := ConfName } s.heap) = some h' ∧
      Shows env { s with heap := h' } (l.set i (x.1, ConfName)) := by
  obtain ⟨-, pre, x, post, rfl, rfl, hget, -⟩ := place_eq_some hi
  rw [Shows, number_append, ← Prod.eta x] at hs
  obtain ⟨h', hset, hholds⟩ := Holds.rename hs hname
  refine ⟨x, h', hget, hset, ?_⟩
  rw [Shows, List.set_append_right _ _ le_rfl, Nat.sub_self, List.set_cons_zero, number_append, number]
  exact hholds

end Places

/-! ## The commands -/

section Commands

variable {file : Str} {l : List (Addr × Str)} {P : List (Addr × Str) → Prop}

/-- the command does nothing -/
theorem after_same (hs : Shows env s l) (hfile : s.cflist = file) (hP : P l) : After env file l P ⟨⟩ s :=
  ⟨l, hs, hP, Or.inl ⟨rfl, hfile⟩⟩

/-- the command ends with the list numbered and written -/
theorem after_save (hs : Holds env s es) (hP : P (names es)) :
    Ensures Exits (Shuffle >>= fun _ => WriteTocflist env) s (After env file l P) :=
  (save_spec hs).post fun _ _ ht => ⟨names es, ht.1, hP, Or.inr ht.2.1⟩

theorem Shows.stdin (hs : Shows env s l) (rest : Str) : Shows env { s with stdin := rest } l :=
  ⟨hs.linked, hs.bound, hs.line, hs.cats⟩

theorem Delete_spec (hs : Shows env s l) :
    Ensures Exits (Delete env) s (After env s.cflist l fun l' => Outcome s.stdin l l' .Delete) := by
  apply prompt_spec exits_exit
  · intro hquit rest
    apply after_same (hs.stdin rest) rfl
    rw [Outcome, hquit]
    rfl
  · intro Str rest htyped
    apply Ensures.bind_eq (fun _ => Find_number_spec (hs.stdin rest))
    cases hplace : place l (atoi Str) with
    | none =>
      refine ensures_pure (after_same (hs.stdin rest) rfl ?_)
      rw [Outcome, htyped, Option.bind_some, hplace]
    | some i =>
      obtain ⟨x, h', es, hget, hset, hholds, hnames⟩ := (hs.stdin rest).delete hplace
      rw [Option.bind_some, hget]
      apply Ensures.bind_eq (fun _ => onHeap_spec hset)
      apply after_save hholds
      rw [Outcome, htyped, Option.bind_some, hplace]
      exact hnames

theorem Move_spec (hs : Shows env s l) :
    Ensures Exits (Move env) s (After env s.cflist l fun l' => Outcome s.stdin l l' .Move) := by
  apply prompt_spec exits_exit
  · intro hquit rest
    apply after_same (hs.stdin rest) rfl
    rw [Outcome, hquit]
    rfl
  intro Str₁ rest₁ htyped₁
  apply prompt_spec exits_exit
  · intro hquit rest
    apply after_same (hs.stdin rest) rfl
    rw [Outcome, htyped₁, Option.bind_some, hquit]
    rfl
  intro Str₂ rest₂ htyped₂
  have hs₂ := hs.stdin rest₂
  -- a number without a place, or the same number twice
  have hsame : (place l (atoi Str₁) = none ∨ place l (atoi Str₂) = none ∨ atoi Str₁ = atoi Str₂) →
      After env s.cflist l (fun l' => Outcome s.stdin l l' .Move) ⟨⟩ { s with stdin := rest₂ } := by
    intro hno
    apply after_same hs₂ rfl
    rw [Outcome, htyped₁, Option.bind_some, htyped₂, Option.bind_some]
    rcases hno with hno | hno | hno
    · rw [hno]
      rfl
    · rw [hno]
      cases place l (atoi Str₁) with
      | none => rfl
      | some i => rfl
    · rw [hno]
      cases place l (atoi Str₂) with
      | none => rfl
      | some i => exact (if_pos rfl).mpr rfl
  refine Ensures.ite (fun heq => ensures_pure (hsame (Or.inr (Or.inr heq)))) fun hne => ?_
  apply Ensures.bind_eq (fun _ => Find_number_spec hs₂)
  cases hplace₁ : place l (atoi Str₁) with
  | none => exact ensures_pure (hsame (Or.inl hplace₁))
  | some i =>
    have hi := (place_eq_some hplace₁).1
    obtain ⟨-, -, x, -, -, -, hx, -⟩ := place_eq_some hplace₁
    rw [Option.bind_some, hx]
    apply Ensures.bind_eq (fun _ => Find_number_spec hs₂)
    cases hplace₂ : place l (atoi Str₂) with
    | none => exact ensures_pure (hsame (Or.inr (Or.inl hplace₂)))
    | some j =>
      have hij : i ≠ j := fun h => hne (by rw [hi, (place_eq_some hplace₂).1, h])
      obtain ⟨x', y, h', es, hx', hy, hset, hholds, hmoved⟩ := hs₂.move hplace₁ hplace₂ hij
      obtain rfl := Option.some.inj (hx.symm.trans hx')
      rw [Option.bind_some, hy]
      apply Ensures.bind_eq (fun _ => onHeap_spec hset)
      apply after_save hholds
      rw [Outcome, htyped₁, Option.bind_some, htyped₂, Option.bind_some, hplace₁, hplace₂,
        Option.bind_some, Option.map_some]
      exact (if_neg hij).mpr hmoved

theorem SortAll_spec (hs : Shows env s l) :
    Ensures Exits (SortAll env) s (After env s.cflist l fun l' => Outcome s.stdin l l' .SortAll) := by
  obtain ⟨r, hr, hnext⟩ := Holds.first hs
  obtain ⟨h', hsort, hholds⟩ := Holds.sort hs
  have hask : ((s.heap s.Conf).bind fun r => sortOuter (s.brk + 1) (s.brk + 1) r.NextRecord false s.heap) =
      some ((bubble (number 0 l)).1, h') := by
    rw [hr, Option.bind_some, hnext, hsort]
  apply Ensures.bind_eq (fun _ => ask_spec hask)
  apply ensures_modify_bind
  refine Ensures.ite (fun _ => after_save hholds (names_bubble_perm l)) fun hno =>
    ensures_pure (after_same ?_ rfl (List.Perm.refl l))
  · rw [bubble_unswapped (Bool.eq_false_iff.2 hno)] at hholds
    exact hholds

/-- the catalogue is shown, if every name of it ends on its line -/
theorem DispAllPublicConfs_spec (hs : Shows env s l) {Q : Unit → State → Prop} (hQ : Q ⟨⟩ s) :
    Ensures (FaultOnly (¬ Readable s.CatList)) DispAllPublicConfs s Q := by
  refine ensures_get_bind (Ensures.ite (fun _ => ensures_pure hQ) fun hno => ensures_throw fun _ hread => hno ?_)
  intro p hp
  rw [extractInto_named hs.cats hp (by norm_num)]
  exact Option.isSome_iff_ne_none.2 (hread p hp)

theorem GetConfFromPublicTxt_spec (hs : Shows env s l) {Pub : Option (List PublicConf)}
    (hPub : ∀ ps ∈ Pub, ∀ p ∈ ps, p ∈ confs s.CatList) {size : ℕ} (hsize : 30 ≤ size) (ConfNum : ℤ) :
    Ensures (FaultOnly (¬ Readable s.CatList)) (ask fun s => GetConfFromPublicTxt size s.CatList Pub ConfNum) s
      fun e t => t = s ∧ ∀ n, e.ConfName = some n → IsName n := by
  have hnamed := GetConfFromPublicTxt_named ConfNum hs.cats hPub hsize
  apply ensures_get_bind
  dsimp only
  cases hget : GetConfFromPublicTxt size s.CatList Pub ConfNum with
  | none =>
    rw [hget] at hnamed
    exact ensures_throw fun _ => hnamed
  | some e =>
    rw [hget] at hnamed
    exact ensures_pure ⟨rfl, hnamed⟩

theorem stillWanted_spec (found : Option Addr) :
    Ensures E (stillWanted found) s fun _ t => ∃ rest, t = { s with stdin := rest } := by
  refine Ensures.ite (fun _ => ?_) fun _ => ensures_pure ⟨s.stdin, rfl⟩
  exact ensures_get_bind (ensures_modify_bind (ensures_pure ⟨_, rfl⟩))

theorem Change_spec (hs : Shows env s l) :
    Ensures (FaultOnly (¬ Readable s.CatList)) (Change env) s
      (After env s.cflist l fun l' => Outcome s.stdin l l' .Change) := by
  have hsame : ∀ rest, After env s.cflist l (fun l' => Outcome s.stdin l l' .Change) ⟨⟩ { s with stdin := rest } :=
    fun rest => after_same (hs.stdin rest) rfl (Or.inl rfl)
  refine prompt_spec faultOnly_exit (fun _ rest => hsame rest) ?_
  intro Str₁ rest₁ htyped
  apply Ensures.bind_eq (fun _ => Find_number_spec (hs.stdin rest₁))
  cases hplace : place l (atoi Str₁) with
  | none => exact ensures_pure (hsame rest₁)
  | some i =>
    obtain ⟨-, -, x, -, -, -, hget, -⟩ := place_eq_some hplace
    rw [Option.bind_some, hget]
    apply Ensures.bind_eq (fun _ => DispAllPublicConfs_spec (hs.stdin rest₁))
    refine prompt_spec faultOnly_exit (fun _ rest => hsame rest) ?_
    intro Str₂ rest₂ _
    have hPub : ∀ ps ∈ (none : Option (List PublicConf)), ∀ p ∈ ps, p ∈ confs s.CatList := fun ps hps => by cases hps
    apply (GetConfFromPublicTxt_spec (hs.stdin rest₂) hPub (by norm_num) _).bind
    intro e t h
    rcases h with ⟨rfl, hname⟩
    cases hConfName : e.ConfName with
    | none => exact ensures_pure (hsame rest₂)
    | some ConfName =>
      have hConf := hname ConfName hConfName
      apply Ensures.bind_eq (fun _ => Find_spec (hs.stdin rest₂) _ _ _)
      apply (stillWanted_spec _).bind
      intro Yes t h
      rcases h with ⟨rest₃, rfl⟩
      refine Ensures.ite (fun _ => ?_) fun _ => ensures_pure (hsame rest₃)
      apply Ensures.bind_eq (fun _ => call_spec faultOnly_exit)
      have hs₃ : Shows env { s with stdin := rest₃, calls := s.calls + 1 } l := ⟨hs.linked, hs.bound, hs.line, hs.cats⟩
      obtain ⟨x', h', hget', hset, hs₄⟩ := hs₃.rename hplace hConf
      obtain rfl := Option.some.inj (hget.symm.trans hget')
      have hcopy : strlcpy ConfName 200 = ConfName := List.take_of_length_le (by have := hConf.2; omega)
      apply Ensures.bind_eq (fun _ => onHeap_spec (by rw [hcopy]; exact hset))
      apply ((WriteTocflist_spec hs₄).raises faultOnly_of_exits).post
      rintro - t ⟨ht, hfile, -⟩
      rw [names_number] at hfile
      exact ⟨_, ht, Or.inr ⟨_, i, x, ConfName, htyped, hplace, hget, rfl⟩, Or.inr hfile⟩

/-- one more conference comes to the end of the list, or none -/
theorem addToken_spec {Pub : Option (List PublicConf)} (hs : Shows env s l)
    (hPub : ∀ ps ∈ Pub, ∀ p ∈ ps, p ∈ confs s.CatList) (ConfBuf : Str) :
    Ensures (FaultOnly (¬ Readable s.CatList)) (addToken env Pub ConfBuf) s fun _ t =>
      After env s.cflist l (fun l' => ∃ new, l' = l ++ new) ⟨⟩ t ∧ t.CatList = s.CatList := by
  have hsame : ∀ rest, After env s.cflist l (fun l' => ∃ new, l' = l ++ new) ⟨⟩ { s with stdin := rest } :=
    fun rest => after_same (hs.stdin rest) rfl ⟨[], (List.append_nil l).symm⟩
  refine Ensures.ite (fun _ => ensures_pure ⟨hsame s.stdin, rfl⟩) fun _ => ?_
  apply (GetConfFromPublicTxt_spec hs hPub (by norm_num) _).bind
  intro e t h
  rcases h with ⟨rfl, hname⟩
  cases hConfName : e.ConfName with
  | none => exact ensures_pure ⟨hsame t.stdin, rfl⟩
  | some ConfName =>
    apply Ensures.bind_eq (fun _ => Find_spec hs _ _ _)
    apply (stillWanted_spec _).bind
    intro Yes u h
    rcases h with ⟨rest, rfl⟩
    refine Ensures.ite (fun _ => ?_) fun _ => ensures_pure ⟨hsame rest, rfl⟩
    apply ((WriteToBuffers_spec (hs.stdin rest) (hname ConfName hConfName) le_rfl _).raises fun e he =>
      faultOnly_of_exits e (exits_of_fails e he)).bind
    rintro - u ⟨b, hu, hcats⟩
    apply ((save_spec hu).raises faultOnly_of_exits).post
    rintro - v ⟨hv, hfile, hcats'⟩
    refine ⟨⟨_, hv, ⟨[(b, ConfName)], ?_⟩, Or.inr hfile⟩, hcats'.trans hcats⟩
    rw [names_append, names_number]
    rfl

theorem addTokens_spec {Pub : Option (List PublicConf)} {bufs : List Str} (hs : Shows env s l)
    (hPub : ∀ ps ∈ Pub, ∀ p ∈ ps, p ∈ confs s.CatList) :
    Ensures (FaultOnly (¬ Readable s.CatList)) (addTokens env Pub bufs) s
      (After env s.cflist l fun l' => ∃ new, l' = l ++ new) := by
  induction bufs generalizing s l with
  | nil => exact ensures_pure (after_same hs rfl ⟨[], (List.append_nil l).symm⟩)
  | cons buf bufs ih =>
    apply (addToken_spec hs hPub buf).bind
    rintro - t ⟨⟨l₁, hl₁, ⟨new₁, rfl⟩, hfile₁⟩, hcats⟩
    rw [← hcats] at hPub ⊢
    apply (ih hl₁ hPub).post
    rintro - u ⟨l₂, hl₂, ⟨new₂, rfl⟩, hfile₂⟩
    refine ⟨_, hl₂, ⟨new₁ ++ new₂, List.append_assoc _ _ _⟩, ?_⟩
    rcases hfile₂ with ⟨hsame, hfile₂⟩ | hfile₂
    · rw [hsame, hfile₂]
      exact hfile₁
    · exact Or.inr hfile₂

theorem Add_spec (hs : Shows env s l) :
    Ensures (FaultOnly (¬ Readable s.CatList)) (Add env) s
      (After env s.cflist l fun l' => Outcome s.stdin l l' .Add) := by
  have hsame : ∀ rest, After env s.cflist l (fun l' => Outcome s.stdin l l' .Add) ⟨⟩ { s with stdin := rest } :=
    fun rest => after_same (hs.stdin rest) rfl ⟨[], (List.append_nil l).symm⟩
  -- the numbers of the conferences are asked for
  have hask : ∀ Pub rest, (∀ ps ∈ Pub, ∀ p ∈ ps, p ∈ confs s.CatList) →
      Ensures (FaultOnly (¬ Readable s.CatList)) (prompt 35 fun ConStr => addTokens env Pub (tokens ConStr))
        { s with stdin := rest } (After env s.cflist l fun l' => Outcome s.stdin l l' .Add) := by
    intro Pub rest hPub
    refine prompt_spec faultOnly_exit (fun _ rest => hsame rest) fun Str rest _ => ?_
    exact addTokens_spec (hs.stdin rest) hPub
  have hselect : Ensures (FaultOnly (¬ Readable s.CatList)) SelectList s fun _ t =>
      ∃ rest, t = { s with stdin := rest } := by
    apply ensures_get_bind
    cases selectLoop s.stdin with
    | none => exact ensures_throw faultOnly_exit
    | some r => exact ensures_modify_bind (ensures_pure ⟨r.2, rfl⟩)
  apply hselect.bind
  intro Choice t h
  rcases h with ⟨rest, rfl⟩
  refine Ensures.ite (fun _ => ensures_pure (hsame rest)) fun _ => Ensures.ite (fun _ => ?_) fun _ => ?_
  · apply Ensures.bind_eq (fun _ => DispAllPublicConfs_spec (hs.stdin rest))
    exact hask none rest fun ps hps => by cases hps
  · refine prompt_spec faultOnly_exit (fun _ rest => hsame rest) fun Str rest _ => ensures_get_bind ?_
    cases hfind : FindCat (atoi Str) s.CatList with
    | none => exact ensures_pure (hsame rest)
    | some Cat =>
      refine Ensures.ite (fun _ => ensures_pure (hsame rest)) fun _ => hask (some Cat.ConfPub) rest ?_
      intro ps hps p hp
      cases hps
      exact List.mem_flatMap.2 ⟨Cat, List.mem_of_find?_eq_some hfind, hp⟩

/-- the command looks at the catalogue, which has a name that goes past the end of its line -/
def Overreads (op : Op) (CatList : List Category) : Prop := (op = .Add ∨ op = .Change) ∧ ¬ Readable CatList

/-- **Every command.** -/
theorem perform_spec (op : Op) (hs : Shows env s l) :
    Ensures (FaultOnly (Overreads op s.CatList)) (perform env op) s
      (After env s.cflist l fun l' => Outcome s.stdin l l' op) := by
  cases op with
  | Add => exact (Add_spec hs).raises fun _ he hfault => ⟨Or.inl rfl, he hfault⟩
  | Change => exact (Change_spec hs).raises fun _ he hfault => ⟨Or.inr rfl, he hfault⟩
  | Delete => exact (Delete_spec hs).raises faultOnly_of_exits
  | Move => exact (Move_spec hs).raises faultOnly_of_exits
  | SortAll => exact (SortAll_spec hs).raises faultOnly_of_exits

end Commands

end Calls

/-! ## Sessions -/

/-- one command, with what the user types -/
def step (env : Env) (s : State) (a : Op × Str) : Option State :=
  match exec (perform env a.1) { s with stdin := a.2 } with
  | (.ok _, t) => some t
  | (.error _, _) => none

/-- the list is well formed: the sentinel and its nodes are linked in order and numbered from 0 on, every node is behind
the one it points back to, none comes twice, and no name has a line break -/
structure WellFormed (env : Env) (s : State) (l : List (Addr × Str)) : Prop where
  linked : Linked s.heap ((s.Conf, sentinel env) :: number 0 l)
  back : ∀ x ∈ s.Conf :: addrs l, ∀ r, s.heap x = some r → ∀ y, r.NextRecord = some y →
    y ∈ addrs l ∧ ∃ r', s.heap y = some r' ∧ r'.PrevRecord = some x
  nodup : (s.Conf :: addrs l).Nodup
  line : ∀ n ∈ l, '\n' ∉ n.2

/-- what holds at every menu: the list is well formed, and every command either ends the program or leaves a well formed
list that is the right one, and the file with the names of that list if it is another one -/
def AtMenu (env : Env) (s : State) : Prop :=
  ∃ l, WellFormed env s l ∧ ∀ op stdin, Ensures Exits (perform env op) { s with stdin := stdin } fun _ t =>
    ∃ l', WellFormed env t l' ∧ Outcome stdin l l' op ∧ (l' ≠ l → t.cflist = contents l')

/-- `main` comes to its first menu with the names of `.cflist` in order, or exits, and all is well at every menu of
every session -/
def Right (env : Env) (cflist publicTxt : Str) : Prop :=
  Ensures Exits (start env publicTxt) (initial cflist) fun _ s =>
    (∃ l, WellFormed env s l ∧ l.map Prod.snd = (fgetsAll 128 cflist).flatMap loadLine) ∧
      ∀ session : List (Op × Str), Always (step env) (AtMenu env) s session

/-- in a linked list, the next node points back -/
theorem back_of_links {h : Heap ConfList} {b : Option Addr} {es : List (Addr × Entry)} (hl : Links Node h b es none)
    {x y : Addr} {r : ConfList} (hx : x ∈ addrs es) (hr : h x = some r) (hnext : r.NextRecord = some y) :
    y ∈ (addrs es).tail ∧ ∃ r', h y = some r' ∧ r'.PrevRecord = some x := by
  induction es generalizing b with
  | nil => cases hx
  | cons n es ih =>
    obtain ⟨n, e⟩ := n
    obtain ⟨⟨r₁, hr₁, -, -, hnext₁⟩, hl⟩ := hl
    rcases List.mem_cons.1 hx with rfl | hx
    · obtain rfl := Option.some.inj (hr₁.symm.trans hr)
      cases es with
      | nil =>
        rw [hnext] at hnext₁
        cases hnext₁
      | cons m es =>
        obtain ⟨m, e'⟩ := m
        obtain ⟨⟨r₂, hr₂, -, hprev₂, -⟩, -⟩ := hl
        rw [hnext₁, first_cons, Option.some.injEq] at hnext
        subst hnext
        exact ⟨List.mem_cons_self, r₂, hr₂, hprev₂⟩
    · obtain ⟨hy, hback⟩ := ih hl hx
      exact ⟨List.mem_of_mem_tail hy, hback⟩

theorem Shows.wellFormed {env : Env} {s : State} {l : List (Addr × Str)} (hs : Shows env s l) : WellFormed env s l := by
  refine ⟨hs.linked, ?_, ?_, ?_⟩
  · intro x hx r hr y hy
    rw [← addrs_number 0 l] at hx ⊢
    exact back_of_links hs.linked hx hr hy
  · have hnodup := hs.linked.nodup node_next
    rwa [addrs_cons, addrs_number] at hnodup
  · intro n hn
    have hline := hs.line
    rw [names_number] at hline
    exact (hline n hn).1

theorem atMenu_of_shows {env : Env} {s : State} {l : List (Addr × Str)} (hs : Shows env s l)
    (hread : Readable s.CatList) : AtMenu env s := by
  refine ⟨l, hs.wellFormed, fun op stdin => (perform_spec op (hs.stdin stdin)).mono ?_ ?_⟩
  · intro e he
    cases e with
    | exit => rfl
    | fault => exact absurd hread (he rfl).2
  · rintro - t ⟨l', hl', hout, hfile⟩
    refine ⟨l', hl'.wellFormed, hout, fun hne => ?_⟩
    rcases hfile with ⟨hsame, -⟩ | hfile
    · exact absurd hsame hne
    · exact hfile

/-! ## The catalogue -/

section Keeps

variable {env : Env} {α : Type}

theorem keeps_onHeap (f : State → Option (Heap ConfList)) : Keeps State.CatList (onHeap f) := by
  refine keeps_get.bind fun s => ?_
  cases f s with
  | none => exact keeps_throw _
  | some h => exact keeps_modify fun _ => rfl

theorem keeps_ask (f : State → Option α) : Keeps State.CatList (ask f) := by
  refine keeps_get.bind fun s => ?_
  cases f s with
  | none => exact keeps_throw _
  | some a => exact keeps_pure a

theorem keeps_prompt (Len : ℕ) {f : Str → M PUnit} (hf : ∀ Str, Keeps State.CatList (f Str)) :
    Keeps State.CatList (prompt Len f) := by
  refine Keeps.bind ?_ fun Str => (keeps_pure _).ite (hf Str)
  refine keeps_get.bind fun s => ?_
  cases GetString Len [] s.stdin with
  | none => exact keeps_throw _
  | some r => exact Keeps.bind (keeps_modify fun _ => rfl) fun _ => keeps_pure _

theorem keeps_stillWanted (found : Option Addr) : Keeps State.CatList (stillWanted found) := by
  refine Keeps.ite ?_ (keeps_pure _)
  exact keeps_get.bind fun _ => Keeps.bind (keeps_modify fun _ => rfl) fun _ => keeps_pure _

theorem keeps_call : Keeps State.CatList (call env) :=
  keeps_get.bind fun _ => Keeps.bind (keeps_modify fun _ => rfl) fun _ => (keeps_pure _).ite (keeps_throw _)

theorem keeps_malloc : Keeps State.CatList (malloc env) :=
  keeps_call.bind fun _ => keeps_get.bind fun _ => Keeps.bind (keeps_modify fun _ => rfl) fun _ => keeps_pure _

theorem keeps_WriteToBuffers (Buffer : Str) (Num : ℤ) (Len : ℕ) :
    Keeps State.CatList (WriteToBuffers env Buffer Num Len) :=
  (keeps_ask _).bind fun _ => keeps_malloc.bind fun _ => keeps_call.bind fun _ => keeps_onHeap _

theorem keeps_writeLoop (fuel : ℕ) (p : Option Addr) : Keeps State.CatList (writeLoop env fuel p) := by
  induction fuel generalizing p with
  | zero => exact keeps_throw _
  | succ fuel ih =>
    cases p with
    | none => exact keeps_pure _
    | some a =>
      exact (keeps_ask _).bind fun r => keeps_call.bind fun _ => Keeps.bind (keeps_modify fun _ => rfl) fun _ => ih _

theorem keeps_WriteTocflist : Keeps State.CatList (WriteTocflist env) :=
  keeps_call.bind fun _ => Keeps.bind (keeps_modify fun _ => rfl) fun _ => keeps_get.bind fun _ =>
    (keeps_ask _).bind fun _ => keeps_writeLoop _ _

theorem keeps_save : Keeps State.CatList (Shuffle >>= fun _ => WriteTocflist env) :=
  (keeps_onHeap _).bind fun _ => keeps_WriteTocflist

theorem keeps_addToken (Pub : Option (List PublicConf)) (ConfBuf : Str) :
    Keeps State.CatList (addToken env Pub ConfBuf) := by
  refine (keeps_pure _).ite ((keeps_ask _).bind fun e => ?_)
  cases e.ConfName with
  | none => exact keeps_pure _
  | some ConfName =>
    refine (keeps_ask _).bind fun found => (keeps_stillWanted found).bind fun Yes => Keeps.ite ?_ (keeps_pure _)
    exact (keeps_WriteToBuffers _ _ _).bind fun _ => keeps_save

theorem keeps_addTokens (Pub : Option (List PublicConf)) (bufs : List Str) :
    Keeps State.CatList (addTokens env Pub bufs) := by
  induction bufs with
  | nil => exact keeps_pure _
  | cons buf bufs ih => exact (keeps_addToken Pub buf).bind fun _ => ih

theorem keeps_DispAllPublicConfs : Keeps State.CatList DispAllPublicConfs :=
  keeps_get.bind fun _ => (keeps_pure _).ite (keeps_throw _)

theorem keeps_Add : Keeps State.CatList (Add env) := by
  refine Keeps.bind ?_ fun Choice => (keeps_pure _).ite (Keeps.ite ?_ ?_)
  · refine keeps_get.bind fun s => ?_
    cases selectLoop s.stdin with
    | none => exact keeps_throw _
    | some r => exact Keeps.bind (keeps_modify fun _ => rfl) fun _ => keeps_pure _
  · exact keeps_DispAllPublicConfs.bind fun _ => keeps_prompt _ fun _ => keeps_addTokens _ _
  · refine keeps_prompt _ fun Str => keeps_get.bind fun s => ?_
    cases FindCat (atoi Str) s.CatList with
    | none => exact keeps_pure _
    | some Cat => exact (keeps_pure _).ite (keeps_prompt _ fun _ => keeps_addTokens _ _)

theorem keeps_Change : Keeps State.CatList (Change env) := by
  refine keeps_prompt _ fun Str => (keeps_ask _).bind fun found => ?_
  cases found with
  | none => exact keeps_pure _
  | some TempConf =>
    refine keeps_DispAllPublicConfs.bind fun _ => keeps_prompt _ fun Str => (keeps_ask _).bind fun e => ?_
    cases e.ConfName with
    | none => exact keeps_pure _
    | some ConfName2 =>
      refine (keeps_ask _).bind fun found => (keeps_stillWanted found).bind fun Yes => Keeps.ite ?_ (keeps_pure _)
      exact keeps_call.bind fun _ => (keeps_onHeap _).bind fun _ => keeps_WriteTocflist

theorem keeps_Delete : Keeps State.CatList (Delete env) := by
  refine keeps_prompt _ fun Str => (keeps_ask _).bind fun found => ?_
  cases found with
  | none => exact keeps_pure _
  | some TempConf => exact (keeps_onHeap _).bind fun _ => keeps_save

theorem keeps_Move : Keeps State.CatList (Move env) := by
  refine keeps_prompt _ fun Str₁ => keeps_prompt _ fun Str₂ => (keeps_pure _).ite ((keeps_ask _).bind fun found₁ => ?_)
  cases found₁ with
  | none => exact keeps_pure _
  | some Conf1 =>
    refine (keeps_ask _).bind fun found₂ => ?_
    cases found₂ with
    | none => exact keeps_pure _
    | some Conf2 => exact (keeps_onHeap _).bind fun _ => keeps_save

theorem keeps_SortAll : Keeps State.CatList (SortAll env) :=
  (keeps_ask _).bind fun _ => Keeps.bind (keeps_modify fun _ => rfl) fun _ => keeps_save.ite (keeps_pure _)

/-- no command changes the catalogue -/
theorem keeps_perform (env : Env) (op : Op) : Keeps State.CatList (perform env op) := by
  cases op with
  | Add => exact keeps_Add
  | Change => exact keeps_Change
  | Delete => exact keeps_Delete
  | Move => exact keeps_Move
  | SortAll => exact keeps_SortAll

end Keeps

/-- a command that does not end the program leaves a list, and the catalogue as it was -/
theorem step_shows {env : Env} {s t : State} {a : Op × Str} (hs : ∃ l, Shows env s l) (ht : step env s a = some t) :
    (∃ l, Shows env t l) ∧ t.CatList = s.CatList := by
  obtain ⟨l, hs⟩ := hs
  have hperform := perform_spec a.1 (hs.stdin a.2)
  have hcats := keeps_perform env a.1 { s with stdin := a.2 }
  unfold Ensures at hperform
  rw [step] at ht
  rcases hexec : exec (perform env a.1) { s with stdin := a.2 } with ⟨r, u⟩
  rw [hexec] at hperform ht hcats
  cases r with
  | error e => cases ht
  | ok v =>
    cases ht
    obtain ⟨l', hl', -⟩ := hperform
    exact ⟨⟨l', hl'⟩, hcats⟩

/-! ## Main result -/

/-- the catalogue can be read, and every name of it ends on its line -/
def Catalogue (stack : Fin 128 → Char) (publicTxt : Str) : Prop :=
  ∃ CatList, ReadPublicTxt (List.ofFn stack) publicTxt = some CatList ∧ Readable CatList

section Sessions

variable {env : Env} {cflist publicTxt : Str}

/-- **Every session** with such a catalogue. -/
theorem right_of_catalogue (h : Catalogue env.stack publicTxt) : Right env cflist publicTxt := by
  obtain ⟨CatList, hCatList, hread⟩ := h
  apply (start_spec env cflist publicTxt).mono
  · intro e he
    rcases he with he | ⟨-, hnone⟩
    · exact he.1
    · rw [hCatList] at hnone
      cases hnone
  · rintro - s ⟨⟨l, hs, hnames⟩, hcats⟩
    obtain rfl : CatList = s.CatList := Option.some.inj (hCatList.symm.trans hcats)
    refine ⟨⟨l, hs.wellFormed, hnames⟩, fun session => ?_⟩
    have hshows : Always (step env) (fun s => (∃ l, Shows env s l) ∧ Readable s.CatList) s session := by
      refine always_of_step (fun u a t hu ht => ?_) session ⟨⟨l, hs⟩, hread⟩
      obtain ⟨hshows, hsame⟩ := step_shows hu.1 ht
      exact ⟨hshows, hsame ▸ hu.2⟩
    exact hshows.mono fun _ ⟨⟨_, hs⟩, hread⟩ => atMenu_of_shows hs hread

/-- `Add` of all conferences shows the catalogue first -/
theorem Add_faults (env : Env) {s : State} (hcats : Named s.CatList) (h : ¬ Readable s.CatList) :
    (exec (Add env) { s with stdin := ['1', '\n'] }).1 = .error .fault := by
  have hselect : exec SelectList { s with stdin := ['1', '\n'] } = (.ok 1, { s with stdin := [] }) := by
    have hloop : selectLoop ['1', '\n'] = some (1, []) := by
      rw [selectLoop]
      rfl
    rw [SelectList, exec_bind, exec_get, andThen_ok]
    simp only [hloop]
    rfl
  have hno : ¬ ∀ p ∈ confs s.CatList, (extractInto 200 p.ConfName).isSome = true := by
    intro hall
    refine h fun p hp => ?_
    have hp' := hall p hp
    rw [extractInto_named hcats hp (by norm_num)] at hp'
    exact Option.isSome_iff_ne_none.1 hp'
  rw [Add, exec_bind, hselect, andThen_ok, if_neg (by decide), if_pos rfl, exec_bind, DispAllPublicConfs, exec_bind,
    exec_get, andThen_ok, if_neg hno]
  rfl

/-- **Only with such a catalogue**, if no call fails. -/
theorem catalogue_of_right (hok : ∀ i, env.ok i = true) (h : Right env cflist publicTxt) :
    Catalogue env.stack publicTxt := by
  have hstart := start_spec env cflist publicTxt
  unfold Right Ensures at h
  unfold Ensures at hstart
  rcases hexec : exec (start env publicTxt) (initial cflist) with ⟨r, s⟩
  rw [hexec] at h hstart
  cases r with
  | error e =>
    obtain rfl : e = .exit := h
    rcases hstart with ⟨-, i, hi⟩ | ⟨hfault, -⟩
    · exact absurd ((hok i).symm.trans hi) (by decide)
    · cases hfault
  | ok v =>
    obtain ⟨⟨l, hs, -⟩, hread⟩ := hstart
    refine ⟨s.CatList, hread, ?_⟩
    by_contra hno
    obtain ⟨_, _, hmenu⟩ := (h.2 []).head
    have hadd := hmenu .Add ['1', '\n']
    have hfault := Add_faults env hs.cats hno
    unfold Ensures at hadd
    rw [perform] at hadd
    rcases hexec' : exec (Add env) { s with stdin := ['1', '\n'] } with ⟨r, t⟩
    rw [hexec'] at hadd hfault
    obtain rfl : r = .error .fault := hfault
    cases hadd

end Sessions

end MNetSoft.Cflbuild
