/-
The web `newuser` as a whole: `wnu_get_user_info` takes the fields of the query in the order of `vartab`, and then
`final_login_check` looks for the login in the passwd files and for its directory, with the passwd file locked.
- `Later`: what the checks of the fields leave as it is; above all, what has been rejected stays rejected.
- `lock_held_iff`: the lock is held when `wnu_get_user_info` returns if and only if it returns 0.
-/
import Mathlib.Tactic
import MNetSoft.Ownu.Fields

namespace MNetSoft.Ownu

open MNetSoft.Memory MNetSoft.Effects

/-! ## Model -/

/-- an entry of `vartab` -/
structure Uinfo where
  name : Bytes
  process : Option (Ptr → Wnu (Option Ptr))
  storage : Option Var

def loginInfo (env : Env) : Uinfo := ⟨bytes "login", some (check_login env), some .loginid⟩

def vartab (env : Env) : List Uinfo := [
  loginInfo env,
  ⟨bytes "passwd1", some (check_passwd env), some .userpass⟩,
  ⟨bytes "passwd2", some (check_passwd env), some .userpass⟩,
  ⟨bytes "fname", some check_fullname, some .full_name⟩,
  ⟨bytes "shell", some (check_shell env), some .shell⟩,
  ⟨bytes "editor", some (check_editor env), some .editor⟩,
  ⟨bytes "term", some (check_terminal env), none⟩,
  ⟨bytes "backspace", some check_backspace, none⟩,
  ⟨bytes "interupt", some check_interupt, none⟩,
  ⟨bytes "kill", some check_kill, none⟩,
  ⟨bytes "birth", none, some .birthdate⟩,
  ⟨bytes "sex", some set_sex, none⟩,
  ⟨bytes "email", some clean_text, some .email⟩,
  ⟨bytes "occupation", some clean_text, some .occupation⟩,
  ⟨bytes "interests", some clean_text, some .interests⟩,
  ⟨bytes "computers", some clean_text, some .computers⟩,
  ⟨bytes "how", some clean_text, some .how⟩,
  ⟨bytes "address", some clean_text, some .address⟩,
  ⟨bytes "telephone", none, some .telephone⟩,
  ⟨bytes "paranoid", some set_paranoia, none⟩]

def Uinfo.check (u : Uinfo) (val : Ptr) : Wnu (Option Ptr) :=
  match u.process with
  | some process => process val
  | none => pure (some val)

/-- one field: it is checked, and stored -/
def field (env : Env) (u : Uinfo) : Wnu Unit := do
  let val := (← findvar u.name).getD ⟨.nothing, env.before.length⟩
  errIf ((← string val).length > 4096) USER
  match u.storage, ← u.check val with
  | some v, some p => setVar v (some p)
  | _, _ => pure ()

def fields (env : Env) : List Uinfo → Wnu Unit
  | [] => pure ()
  | u :: us => do
    field env u
    fields env us

def set_lock (env : Env) : Wnu Unit := do
  modify fun s => { s with locked := true, set_locks := s.set_locks + 1 }
  library env.set_lock

def setGoodLogin (good : Bool) : Wnu Unit := modify fun s => { s with good_login := good }

/-- the string `loginid` -/
def login : Wnu Bytes := do
  match (← get).vars .loginid with
  | none => throw .fault
  | some p => string p

def ETCPASSWD : Bytes := bytes "/etc/passwd"

/-- the scan of a passwd file -/
def scanPwd (env : Env) (quick_scan : Bool) (login : Bytes) : List Passwd → Wnu Bool
  | [] => pure true
  | pwd :: pws => do
    library env.notthisone
    if ¬quick_scan ∧ pwd.pw_name = login then return false else scanPwd env quick_scan login pws

/-- whether the login is not in a passwd file -/
def check_pwd (env : Env) (passfile : Bytes) : Wnu Bool := do
  let lid ← login
  let reject := (← get).reject
  let quick_scan : Bool := reject ≠ 0 ∨ passfile = ETCPASSWD
  if quick_scan ∧ env.getpwnam lid ≠ none then return false
  else if reject = 0 then
    match env.entries passfile with
    | none => return true
    | some pws => scanPwd env quick_scan lid pws
  else return true

/-- the path of a directory of users, in a buffer of 80 bytes -/
def userPath (env : Env) (name : Bytes) : Wnu Bytes := do
  let path := env.usr ++ '/'.toUInt8 :: name
  if path.length < 80 then return path else throw .fault

/-- the scan of the directories of users -/
def scanUsr (env : Env) (login : Bytes) : List Dirent → Wnu Bool
  | [] => pure true
  | dp :: ds =>
    if dp.d_ino_zero then scanUsr env login ds
    else do
      let nbuf ← userPath env dp.d_name
      library (env.stat nbuf && env.notthisone)
      if dp.d_name = login then return false else scanUsr env login ds

def check_usr (env : Env) : Wnu Bool := do
  match env.opendir env.usr with
  | none =>
    err SYSTEM
    return false
  | some ds => scanUsr env (← login) ds

def quick_check_dir (env : Env) : Wnu Bool := do
  let nbuf ← userPath env (← login)
  if env.access nbuf then
    err USER
    return false
  else return true

/-- the checks of `final_login_check` that are made under the lock -/
def lockedChecks (env : Env) : Wnu Unit := do
  setGoodLogin (← check_pwd env env.passwd)
  (if (← get).good_login ∧ env.passwd ≠ ETCPASSWD then do setGoodLogin (← check_pwd env ETCPASSWD) else pure ())
  errIf (¬(← get).good_login) USER
  if (← get).good_login then
    library env.setuserdir
    setGoodLogin (← (if env.checkdirs then check_usr env else quick_check_dir env))
    errIf (¬(← get).good_login) USER

/-- the checks of the login that need the lock, which is kept if all is well -/
def final_login_check (env : Env) : Wnu Unit := do
  if ¬(← get).good_login then pure ()
  else
    let lockset : Bool := (← get).reject = 0
    (if lockset then set_lock env else pure ())
    lockedChecks env
    if lockset ∧ ¬(← get).good_login then un_lock

/-- the state of the program at its start -/
def start (env : Env) : St where
  buffer := []
  nothing := env.before ++ [0]
  copies := []
  head := []
  vars := fun _ => none
  sex := []
  paranoid := false
  shellpath := []
  bang := []
  edpath := []
  keyval := [cntl 'H', cntl 'C', cntl 'X', cntl 'D']
  cpt_pass := []
  good_login := false
  reject := 0
  locked := false
  set_locks := 0

/-- the entries of the query -/
def takeQuery (query : Option Bytes) : Wnu Unit := do
  modify fun s => { s with reject := 0 }
  let q ← defined (load_query query)
  modify fun s => { s with buffer := q.buffer, head := q.head }
  setVar .loginid none
  setVar .userpass none

/-- read and check the fields of a query: 0 if nothing is wrong with them -/
def wnu_get_user_info (env : Env) (query : Option Bytes) : Wnu ℕ := do
  takeQuery query
  fields env (vartab env)
  errIf (env.final_key_check (← get).keyval) USER
  final_login_check env
  return (← get).reject

/-! ## The query -/

theorem exec_takeQuery_none (env : Env) {query : Option Bytes} (h : load_query query = none) :
    exec (takeQuery query) (start env) = (.error .fault, start env) := by
  simp [takeQuery, h, defined, start]

theorem exec_takeQuery_some (env : Env) {query : Option Bytes} {q : Query} (h : load_query query = some q) :
    exec (takeQuery query) (start env) = (.ok ⟨⟩, { start env with buffer := q.buffer, head := q.head }) := by
  simp [takeQuery, h, defined, start, setVar]

/-! ## What changes nothing -/

/-- where the program ends, the lock is not held -/
def Ended (s : St) (e : Stop) (t : St) : Prop := t.set_locks = s.set_locks ∧ (e = .exit → t.locked = false)

/-- where it returns, the state is what it was -/
def Silent {α : Type} (x : Wnu α) : Prop := Runs (fun s t => t = s) Ended x

section Silent

variable {α β : Type} {x : Wnu α} {s : St}

theorem Silent.bind {f : α → Wnu β} (hx : Silent x) (hf : ∀ a, Silent (f a)) : Silent (x >>= f) :=
  Runs.bind (fun h h' => h'.trans h) (fun hst ht => hst ▸ ht) hx hf

theorem silent_pure (a : α) : Silent (pure a : Wnu α) := fun _ => rfl

theorem silent_get : Silent (get : Wnu St) := runs_get fun _ => rfl

theorem silent_fault : Silent (throw .fault : Wnu α) := runs_throw fun _ => ⟨rfl, nofun⟩

theorem Silent.ite {p : Prop} [Decidable p] {y : Wnu α} (hx : Silent x) (hy : Silent y) : Silent (if p then x else y) :=
  Runs.ite (fun _ => hx) fun _ => hy

theorem silent_defined (o : Option α) : Silent (defined o) := by
  cases o with
  | none => exact silent_fault
  | some a => exact silent_pure a

theorem silent_string (p : Ptr) : Silent (string p) := silent_get.bind fun _ => silent_defined _

theorem silent_cells (b : Block) : Silent (cells b) := silent_get.bind fun _ => silent_defined _

theorem silent_peek (p : Ptr) (i : ℕ) : Silent (peek p i) := (silent_cells _).bind fun _ => silent_defined _

theorem silent_findvar (name : Bytes) : Silent (findvar name) :=
  silent_get.bind fun _ => (silent_defined _).bind fun _ => silent_pure _

theorem silent_firstout (p : Ptr) (l : Bytes) : Silent (firstout p l) := (silent_string p).bind fun _ => silent_pure _

theorem silent_stored (v : Var) : Silent (stored v) := by
  refine silent_get.bind fun s => ?_
  cases s.vars v with
  | none => exact silent_pure _
  | some p => exact (silent_string p).bind fun _ => silent_pure _

theorem exec_err {type : ℕ} (h : type &&& SYSTEM = 0) (s : St) :
    exec (err type) s = (.ok ⟨⟩, { s with reject := s.reject ||| type }) := by
  simp [err, h]

theorem exec_err_system {type : ℕ} (h : type &&& SYSTEM ≠ 0) (s : St) :
    exec (err type) s = (.error .exit, { s with reject := s.reject ||| type, locked := false }) := by
  simp [err, h, un_lock]

/-- a system error does not return -/
theorem silent_err_system : Silent (err SYSTEM) := by
  intro s
  rw [exec_err_system (by decide)]
  exact ⟨rfl, fun _ => rfl⟩

theorem silent_library (dies : Bool) : Silent (library dies) := silent_err_system.ite (silent_pure ())

theorem silent_login : Silent login := by
  refine silent_get.bind fun s => ?_
  cases s.vars .loginid with
  | none => exact silent_fault
  | some p => exact silent_string p

theorem silent_scanPwd (env : Env) (quick_scan : Bool) (lid : Bytes) (pws : List Passwd) :
    Silent (scanPwd env quick_scan lid pws) := by
  induction pws with
  | nil => exact silent_pure _
  | cons pwd pws ih => exact (silent_library _).bind fun _ => (silent_pure _).ite ih

theorem silent_check_pwd (env : Env) (passfile : Bytes) : Silent (check_pwd env passfile) := by
  refine silent_login.bind fun lid => silent_get.bind fun s => (silent_pure _).ite (Silent.ite ?_ (silent_pure _))
  cases env.entries passfile with
  | none => exact silent_pure _
  | some pws => exact silent_scanPwd _ _ _ _

theorem silent_userPath (env : Env) (name : Bytes) : Silent (userPath env name) := (silent_pure _).ite silent_fault

theorem silent_scanUsr (env : Env) (lid : Bytes) (ds : List Dirent) : Silent (scanUsr env lid ds) := by
  induction ds with
  | nil => exact silent_pure _
  | cons dp ds ih =>
    refine ih.ite ((silent_userPath _ _).bind fun _ => (silent_library _).bind fun _ => ?_)
    exact (silent_pure _).ite ih

theorem silent_check_usr (env : Env) : Silent (check_usr env) := by
  unfold check_usr
  split
  case h_1 => exact silent_err_system.bind fun _ => silent_pure _
  case h_2 => exact silent_login.bind fun _ => silent_scanUsr _ _ _

theorem string_spec (p : Ptr) (s : St) :
    Ensures (fun _ => True) (string p) s fun w t => t = s ∧ s.string p = some w := by
  apply ensures_get_bind
  cases h : s.string p with
  | none => exact ensures_throw trivial
  | some w => exact ensures_pure ⟨rfl, rfl⟩

theorem login_spec (s : St) : Ensures (fun _ => True) login s fun lid t =>
    t = s ∧ ∃ p, s.vars .loginid = some p ∧ s.string p = some lid := by
  apply ensures_get_bind
  cases h : s.vars .loginid with
  | none => exact ensures_throw trivial
  | some p => exact (string_spec p s).post fun _ _ hp => ⟨hp.1, p, rfl, hp.2⟩

/-- go on after what changes nothing -/
theorem Silent.ensures_bind {f : α → Wnu β} {S : β → St → Prop} (hx : Silent x)
    (hf : ∀ a, Ensures (fun _ => True) (f a) s S) : Ensures (fun _ => True) (x >>= f) s S := by
  refine (hx.ensures s).bind ?_
  rintro a t rfl
  exact hf a

end Silent

/-! ## What the checks of the fields leave as it is -/

/-- the buffer has changed in cells of `A` only -/
def Agree (A : Set ℕ) (m m' : Bytes) : Prop := ∀ i ∉ A, m'[i]? = m[i]?

/-- what has been rejected stays rejected, and the lock is left alone. Of the buffer only cells of `A` have changed, of
the variables only those of `V`. -/
structure Later (A : Set ℕ) (V : Set Var) (s t : St) : Prop where
  reject : t.reject = 0 → s.reject = 0
  good_login : (s.good_login = false → s.reject ≠ 0) → t.good_login = false → t.reject ≠ 0
  locked : t.locked = s.locked
  set_locks : t.set_locks = s.set_locks
  head : t.head = s.head
  vars : ∀ v ∉ V, t.vars v = s.vars v
  buffer : Agree A s.buffer t.buffer

def Tame (A : Set ℕ) (V : Set Var) {α : Type} (x : Wnu α) : Prop := Runs (Later A V) Ended x

section Tame

variable {A A' : Set ℕ} {V V' : Set Var} {s t u : St} {α β : Type} {x : Wnu α}

theorem Agree.refl (A : Set ℕ) (m : Bytes) : Agree A m m := fun _ _ => rfl

theorem Agree.trans {m m' m'' : Bytes} (h : Agree A m m') (h' : Agree A m' m'') : Agree A m m'' :=
  fun i hi => (h' i hi).trans (h i hi)

theorem Agree.mono {m m' : Bytes} (h : Agree A m m') (hA : A ⊆ A') : Agree A' m m' := fun i hi => h i fun h => hi (hA h)

theorem Later.refl (A : Set ℕ) (V : Set Var) (s : St) : Later A V s s :=
  ⟨id, id, rfl, rfl, rfl, fun _ _ => rfl, Agree.refl A s.buffer⟩

theorem Later.trans (h : Later A V s t) (h' : Later A V t u) : Later A V s u where
  reject := fun hu => h.reject (h'.reject hu)
  good_login := fun hs => h'.good_login (h.good_login hs)
  locked := h'.locked.trans h.locked
  set_locks := h'.set_locks.trans h.set_locks
  head := h'.head.trans h.head
  vars := fun v hv => (h'.vars v hv).trans (h.vars v hv)
  buffer := h.buffer.trans h'.buffer

theorem Tame.bind {f : α → Wnu β} (hx : Tame A V x) (hf : ∀ a, Tame A V (f a)) : Tame A V (x >>= f) :=
  Runs.bind Later.trans (fun hst ht => ⟨ht.1.trans hst.set_locks, ht.2⟩) hx hf

theorem Silent.tame (h : Silent x) : Tame A V x := by
  refine Runs.mono h ?_ id
  rintro s t rfl
  exact Later.refl A V t

theorem tame_pure (a : α) : Tame A V (pure a : Wnu α) := (silent_pure a).tame

theorem Tame.ite {p : Prop} [Decidable p] {y : Wnu α} (hx : Tame A V x) (hy : Tame A V y) :
    Tame A V (if p then x else y) := Runs.ite (fun _ => hx) fun _ => hy

theorem tame_err (type : ℕ) : Tame A V (err type) := by
  intro s
  by_cases h : type &&& SYSTEM = 0
  · rw [exec_err h]
    have hreject : s.reject ||| type = 0 → s.reject = 0 := fun h => (Nat.or_eq_zero_iff.1 h).1
    exact ⟨hreject, fun hs ht h => hs ht (hreject h), rfl, rfl, rfl, fun _ _ => rfl, Agree.refl A s.buffer⟩
  · rw [exec_err_system h]
    exact ⟨rfl, fun _ => rfl⟩

theorem ensures_err {type : ℕ} (h : type ≠ 0) (s : St) : Ensures (fun _ => True) (err type) s fun _ t =>
    t = { s with reject := s.reject ||| type } ∧ t.reject ≠ 0 := by
  unfold Ensures
  by_cases hsystem : type &&& SYSTEM = 0
  · rw [exec_err hsystem]
    exact ⟨rfl, fun hreject => h (Nat.or_eq_zero_iff.1 hreject).2⟩
  · rw [exec_err_system hsystem]
    trivial

theorem tame_errIf (p : Prop) [Decidable p] (type : ℕ) : Tame A V (errIf p type) := (tame_err type).ite (tame_pure ())

theorem tame_errChar (bad : Option UInt8) : Tame A V (errChar bad) := by
  cases bad with
  | none => exact tame_pure ()
  | some c => exact tame_err _

/-- a change to other variables -/
theorem tame_modify {f : St → St} (h : ∀ s, Later A V s (f s)) : Tame A V (modify f) := runs_modify h

theorem tame_setVar {v : Var} (hv : v ∈ V) (p : Option Ptr) : Tame A V (setVar v p) := by
  refine tame_modify fun s => ⟨id, id, rfl, rfl, rfl, fun w hw => if_neg fun h => hw ?_, Agree.refl A s.buffer⟩
  rwa [h]

theorem tame_check_reserved (env : Env) (lid : Bytes) : Tame A V (check_reserved env lid) := by
  unfold check_reserved
  split
  case h_1 => exact tame_err SYSTEM
  case h_2 =>
    split
    case h_1 => exact tame_pure ()
    case h_2 => exact (silent_stored _).tame.bind fun _ => (silent_defined _).tame.bind fun _ => tame_errIf _ USER

theorem tame_loginChars (lid : Bytes) : Tame A V (loginChars lid) :=
  (tame_errIf _ _).bind fun _ => (tame_errChar _).bind fun _ => (tame_errIf _ USER).bind fun _ => tame_errIf _ USER

theorem tame_passwdChars (pass : Bytes) : Tame A V (passwdChars pass) := by
  induction pass with
  | nil => exact tame_pure ()
  | cons c cs ih => exact (tame_errIf _ USER).bind fun _ => ih

theorem tame_check_passwd (env : Env) (val : Ptr) : Tame A V (check_passwd env val) := by
  unfold check_passwd
  refine silent_get.tame.bind fun s => ?_
  split
  case h_1 p _ =>
    refine (silent_string val).tame.bind fun _ => (silent_string p).tame.bind fun _ => ?_
    exact (tame_errIf _ USER).bind fun _ => tame_pure _
  case h_2 =>
    refine (silent_string val).tame.bind fun pass => ?_
    refine Tame.ite ((tame_err USER).bind fun _ => tame_pure _) ?_
    refine Tame.ite ((tame_err USER).bind fun _ => tame_pure _) ?_
    refine (tame_errIf _ _).bind fun _ => (silent_stored _).tame.bind fun _ => (tame_errIf _ USER).bind fun _ => ?_
    refine (tame_passwdChars pass).bind fun _ => Tame.bind (tame_modify fun s => ?_) fun _ => tame_pure _
    exact ⟨id, id, rfl, rfl, rfl, fun _ _ => rfl, Agree.refl A s.buffer⟩

theorem tame_check_flist (fl : Flist) (val : Bytes) : Tame A V (check_flist fl val) :=
  Tame.ite ((tame_err _).bind fun _ => tame_pure _) (tame_pure _)

theorem tame_check_shell (env : Env) (val : Ptr) : Tame A V (check_shell env val) := by
  refine (silent_string val).tame.bind fun _ => (tame_check_flist _ _).bind fun _ => ?_
  refine Tame.bind (Tame.ite (tame_modify fun s => ?_) (tame_pure _)) fun _ => tame_pure _
  exact ⟨id, id, rfl, rfl, rfl, fun _ _ => rfl, Agree.refl A s.buffer⟩

theorem tame_check_editor (env : Env) (val : Ptr) : Tame A V (check_editor env val) := by
  refine (silent_string val).tame.bind fun _ => (tame_check_flist _ _).bind fun _ => ?_
  refine Tame.bind (Tame.ite (tame_modify fun s => ?_) (tame_pure _)) fun _ => tame_pure _
  exact ⟨id, id, rfl, rfl, rfl, fun _ _ => rfl, Agree.refl A s.buffer⟩

theorem tame_check_terminal (hV : .terminal ∈ V) (env : Env) (val : Ptr) : Tame A V (check_terminal env val) := by
  refine (silent_string val).tame.bind fun _ => ?_
  refine Tame.bind (Tame.ite (silent_findvar _).tame (tame_pure _)) fun val => ?_
  cases val with
  | none => exact (tame_err USER).bind fun _ => tame_pure _
  | some p =>
    refine (silent_string p).tame.bind fun term => ?_
    refine Tame.ite ((tame_err USER).bind fun _ => tame_pure _) ?_
    exact Tame.ite ((tame_err _).bind fun _ => tame_pure _) ((tame_setVar hV _).bind fun _ => tame_pure _)

theorem tame_set_paranoia (val : Ptr) : Tame A V (set_paranoia val) := by
  refine (silent_string val).tame.bind fun _ => Tame.bind (tame_modify fun s => ?_) fun _ => tame_pure _
  exact ⟨id, id, rfl, rfl, rfl, fun _ _ => rfl, Agree.refl A s.buffer⟩

theorem tame_set_sex (val : Ptr) : Tame A V (set_sex val) := by
  refine (silent_firstout val _).tame.bind fun p => (silent_string p).tame.bind fun _ => ?_
  refine Tame.bind (tame_modify fun s => ?_) fun _ => tame_pure _
  exact ⟨id, id, rfl, rfl, rfl, fun _ _ => rfl, Agree.refl A s.buffer⟩

theorem tame_setKey (key : ℕ) (c : UInt8) : Tame A V (setKey key c) := by
  refine Tame.bind (tame_modify fun s => ?_) fun _ => tame_errIf _ _
  exact ⟨id, id, rfl, rfl, rfl, fun _ _ => rfl, Agree.refl A s.buffer⟩

theorem tame_check_key (val : Ptr) (key : ℕ) : Tame A V (check_key val key) := by
  refine (silent_peek val 0).tame.bind fun c => Tame.ite (tame_pure ()) ((silent_peek val 1).tame.bind fun d => ?_)
  refine Tame.bind (Tame.ite ((silent_peek val 2).tame.bind fun _ => tame_pure _) (tame_pure false)) fun _ => ?_
  exact Tame.ite (tame_setKey _ _) (Tame.ite (tame_err _) (Tame.ite (tame_err _) (tame_setKey _ _)))

theorem exec_setCells (b : Block) (m : Bytes) (s : St) : exec (setCells b m) s = match s.setCells m b with
    | none => (.error .fault, s)
    | some t => (.ok ⟨⟩, t) := by
  rw [setCells, exec_bind, exec_get, andThen_ok, exec_bind]
  cases s.setCells m b <;> rfl

theorem tame_setCells (b : Block) (m : Bytes) : Tame Set.univ V (setCells b m) := by
  intro s
  rw [exec_setCells]
  cases h : s.setCells m b with
  | none => exact ⟨rfl, nofun⟩
  | some t =>
    cases b <;> cases h <;> exact ⟨id, id, rfl, rfl, rfl, fun _ _ => rfl, fun i hi => absurd (Set.mem_univ i) hi⟩

theorem tame_check_fullname (val : Ptr) : Tame Set.univ V (check_fullname val) := by
  refine (silent_firstout val _).tame.bind fun p => (silent_cells _).tame.bind fun _ => ?_
  refine (silent_defined _).tame.bind fun _ => (tame_setCells _ _).bind fun _ => (tame_errChar _).bind fun _ => ?_
  exact (tame_errIf _ USER).bind fun _ => tame_pure _

theorem tame_clean_text (val : Ptr) : Tame Set.univ V (clean_text val) := by
  refine (silent_cells _).tame.bind fun _ => (silent_defined _).tame.bind fun r => (tame_setCells _ _).bind fun _ => ?_
  cases r.2 with
  | here p => exact tame_pure _
  | copied c p =>
    refine silent_get.tame.bind fun s => Tame.bind (tame_modify fun s => ?_) fun _ => tame_pure _
    exact ⟨id, id, rfl, rfl, rfl, fun _ _ => rfl, Agree.refl _ s.buffer⟩

/-- a field that is checked by `u.check` and stored in a variable of `V` -/
theorem tame_field (env : Env) {u : Uinfo} (hcheck : ∀ val, Tame A V (u.check val))
    (hstorage : ∀ v, u.storage = some v → v ∈ V) : Tame A V (field env u) := by
  refine (silent_findvar _).tame.bind fun _ => (silent_string _).tame.bind fun _ => (tame_errIf _ USER).bind fun _ => ?_
  refine (hcheck _).bind fun val => ?_
  cases val with
  | none =>
    cases u.storage <;> exact tame_pure _
  | some p =>
    cases hv : u.storage with
    | none => exact tame_pure _
    | some v => exact tame_setVar (hstorage v hv) _

theorem tame_fields (env : Env) {us : List Uinfo} (h : ∀ u ∈ us, Tame A V (field env u)) :
    Tame A V (fields env us) := by
  induction us with
  | nil => exact tame_pure _
  | cons u us ih =>
    obtain ⟨hu, hus⟩ := List.forall_mem_cons.1 h
    exact hu.bind fun _ => ih hus

/-- the fields behind the login -/
theorem tame_tail (env : Env) : ∀ u ∈ (vartab env).tail, Tame Set.univ Set.univ (field env u) := by
  have hcheck : ∀ u ∈ (vartab env).tail, ∀ val, Tame Set.univ Set.univ (u.check val) := by
    simp only [vartab, List.tail_cons, List.forall_mem_cons, Uinfo.check]
    have hkey : ∀ val key, Tame Set.univ Set.univ (do check_key val key; return some val) := fun val key =>
      (tame_check_key val key).bind fun _ => tame_pure _
    exact ⟨tame_check_passwd env, tame_check_passwd env, tame_check_fullname, tame_check_shell env,
      tame_check_editor env, tame_check_terminal (Set.mem_univ _) env, (hkey · _), (hkey · _), (hkey · _),
      fun _ => tame_pure _, tame_set_sex,
      tame_clean_text, tame_clean_text, tame_clean_text, tame_clean_text, tame_clean_text, tame_clean_text,
      fun _ => tame_pure _, tame_set_paranoia, by simp⟩
  exact fun u hu => tame_field env (hcheck u hu) fun _ _ => trivial

end Tame

/-! ## The lock -/

/-- a login that is not good has been rejected -/
def Checked (s : St) : Prop := s.good_login = false → s.reject ≠ 0

/-- the lock is left alone, and what has been rejected stays rejected -/
structure Held (s t : St) : Prop where
  reject : t.reject = 0 → s.reject = 0
  locked : t.locked = s.locked
  set_locks : t.set_locks = s.set_locks

def Calm {α : Type} (x : Wnu α) : Prop := Runs Held Ended x

section Lock

variable {A : Set ℕ} {V : Set Var} {s t u : St} {α β : Type} {x : Wnu α}

theorem Held.trans (h : Held s t) (h' : Held t u) : Held s u :=
  ⟨fun hu => h.reject (h'.reject hu), h'.locked.trans h.locked, h'.set_locks.trans h.set_locks⟩

theorem Calm.bind {f : α → Wnu β} (hx : Calm x) (hf : ∀ a, Calm (f a)) : Calm (x >>= f) :=
  Runs.bind Held.trans (fun hst ht => ⟨ht.1.trans hst.set_locks, ht.2⟩) hx hf

theorem Tame.calm (h : Tame A V x) : Calm x := Runs.mono h (fun h => ⟨h.reject, h.locked, h.set_locks⟩) id

theorem Silent.calm (h : Silent x) : Calm x := (h.tame : Tame ∅ ∅ x).calm

theorem Calm.ite {p : Prop} [Decidable p] {y : Wnu α} (hx : Calm x) (hy : Calm y) : Calm (if p then x else y) :=
  Runs.ite (fun _ => hx) fun _ => hy

theorem calm_errIf (p : Prop) [Decidable p] (type : ℕ) : Calm (errIf p type) := (tame_errIf p type : Tame ∅ ∅ _).calm

theorem calm_setGoodLogin (good : Bool) : Calm (setGoodLogin good) := runs_modify fun _ => ⟨id, rfl, rfl⟩

/-- a login that turns out to be bad -/
theorem calm_bad (val : Option Ptr) (type : ℕ) : Calm (do
    err type
    modify fun s : St => { s with good_login := false }
    return val) := by
  refine (tame_err type : Tame ∅ ∅ _).calm.bind fun _ => Calm.bind (runs_modify fun _ => ?_) fun _ => ?_
  · exact ⟨id, rfl, rfl⟩
  · exact (silent_pure _).calm

theorem calm_check_login (env : Env) (val : Ptr) : Calm (check_login env val) := by
  refine (silent_string val).calm.bind fun lid => (tame_loginChars lid : Tame ∅ ∅ _).calm.bind fun _ => ?_
  refine Calm.bind (runs_modify fun _ => ⟨id, rfl, rfl⟩) fun _ => silent_get.calm.bind fun s => ?_
  refine (silent_pure _).calm.ite ((silent_stored _).calm.bind fun _ => ?_)
  refine (calm_errIf _ USER).bind fun _ => (calm_bad _ _).ite ((calm_bad _ _).ite ?_)
  have hreserved : Calm (check_reserved env lid) := (tame_check_reserved env lid : Tame ∅ ∅ _).calm
  exact (hreserved.ite (silent_pure _).calm).bind fun _ => (silent_pure _).calm

/-- nothing that a login is rejected for goes by without an `err` -/
theorem checked_check_login (env : Env) (val : Ptr) (s : St) :
    Ensures (fun _ => True) (check_login env val) s fun _ t => Checked t := by
  have hbad : ∀ type s, type ≠ 0 → Ensures (fun _ => True) (do
      err type
      modify fun s : St => { s with good_login := false }
      return (some val)) s fun _ t => Checked t := by
    intro type s htype
    refine (ensures_err htype s).bind fun _ s₁ h₁ => ensures_modify_bind (ensures_pure ?_)
    exact fun _ => h₁.2
  refine (silent_string val).ensures_bind fun lid => ?_
  refine ((tame_loginChars lid : Tame ∅ ∅ _).ensures s).bind fun _ s₁ _ => ?_
  apply ensures_modify_bind
  have hchecked : Checked { s₁ with good_login := s₁.reject = 0 } := of_decide_eq_false
  refine ensures_get_bind (Ensures.ite (fun _ => ensures_pure hchecked) fun _ => ?_)
  refine (silent_stored _).ensures_bind fun userpass => ?_
  refine ((tame_errIf _ USER : Tame ∅ ∅ _).ensures _).bind fun _ s₂ h₂ => ?_
  refine Ensures.ite (fun _ => hbad _ s₂ (by decide)) fun _ => Ensures.ite (fun _ => hbad _ s₂ (by decide)) fun _ => ?_
  have hreserved : Tame ∅ ∅ (check_reserved env lid) := tame_check_reserved env lid
  refine ((hreserved.ite (tame_pure ())).ensures s₂).bind fun _ s₃ h₃ => ?_
  exact ensures_pure (h₃.good_login (h₂.good_login hchecked))

theorem calm_field (env : Env) {u : Uinfo} (h : ∀ val, Calm (u.check val)) : Calm (field env u) := by
  refine (silent_findvar _).calm.bind fun _ => (silent_string _).calm.bind fun _ => ?_
  refine (calm_errIf _ USER).bind fun _ => (h _).bind fun val => ?_
  cases val with
  | none =>
    cases u.storage <;> exact (silent_pure _).calm
  | some p =>
    cases u.storage with
    | none => exact (silent_pure _).calm
    | some v => exact (tame_setVar (Set.mem_univ v) _ : Tame ∅ Set.univ _).calm

theorem calm_fields (env : Env) : Calm (fields env (vartab env)) :=
  (@calm_field env (loginInfo env) (calm_check_login env)).bind fun _ => (tame_fields env (tame_tail env)).calm

theorem checked_fields (env : Env) (s : St) :
    Ensures (fun _ => True) (fields env (vartab env)) s fun _ t => Checked t := by
  have hlogin : Ensures (fun _ => True) (field env (loginInfo env)) s fun _ t => Checked t := by
    refine (silent_findvar _).ensures_bind fun p => (silent_string _).ensures_bind fun w => ?_
    refine ((calm_errIf _ USER).ensures s).bind fun _ s₁ _ => ?_
    refine (checked_check_login env _ s₁).bind fun val s₂ h₂ => ?_
    cases val with
    | none => exact ensures_pure h₂
    | some p => exact ensures_modify h₂
  refine hlogin.bind fun _ t ht => ((tame_fields env (tame_tail env)).ensures t).post fun _ u hu => ?_
  exact hu.good_login ht

theorem calm_quick_check_dir (env : Env) : Calm (quick_check_dir env) := by
  refine silent_login.calm.bind fun _ => (silent_userPath _ _).calm.bind fun _ => ?_
  exact Calm.ite ((tame_err USER : Tame ∅ ∅ _).calm.bind fun _ => (silent_pure _).calm) (silent_pure _).calm

theorem calm_lockedChecks (env : Env) : Calm (lockedChecks env) := by
  refine (silent_check_pwd _ _).calm.bind fun _ => (calm_setGoodLogin _).bind fun _ => silent_get.calm.bind fun s => ?_
  refine Calm.bind (Calm.ite ?_ (silent_pure _).calm) fun _ => silent_get.calm.bind fun s => ?_
  · exact (silent_check_pwd _ _).calm.bind fun _ => calm_setGoodLogin _
  · refine (calm_errIf _ USER).bind fun _ => silent_get.calm.bind fun s => Calm.ite ?_ (silent_pure _).calm
    refine (silent_library _).calm.bind fun _ => ?_
    refine ((silent_check_usr env).calm.ite (calm_quick_check_dir env)).bind fun _ => ?_
    exact (calm_setGoodLogin _).bind fun _ => silent_get.calm.bind fun s => calm_errIf _ USER

/-- the login is not the name of an account -/
def Unlisted (env : Env) (s : St) : Prop :=
  ∃ p lid, s.vars .loginid = some p ∧ s.string p = some lid ∧ env.getpwnam lid = none

theorem check_pwd_spec (env : Env) (passfile : Bytes) (s : St) : Ensures (fun _ => True) (check_pwd env passfile) s
    fun free t => t = s ∧ (free = true → passfile = ETCPASSWD → Unlisted env s) := by
  have hsame := (silent_check_pwd env passfile).ensures s
  refine hsame.and ((login_spec s).bind ?_)
  intro lid t hx
  rcases hx with ⟨rfl, p, hp, hlid⟩
  refine ensures_get_bind (Ensures.ite (fun _ => ensures_pure nofun) fun hnot => ?_)
  have hfree : passfile = ETCPASSWD → Unlisted env t := fun hpass => by
    have hlisted : ¬env.getpwnam lid ≠ none := fun h => hnot ⟨decide_eq_true (Or.inr hpass), h⟩
    exact ⟨p, lid, hp, hlid, not_not.1 hlisted⟩
  refine Ensures.ite (fun _ => ?_) fun _ => ensures_pure fun _ => hfree
  cases env.entries passfile with
  | none => exact ensures_pure fun _ => hfree
  | some pws => exact ((silent_scanPwd _ _ _ _).ensures t).post fun _ _ _ _ => hfree

theorem quick_check_dir_spec (env : Env) (s : St) : Ensures (fun _ => True) (quick_check_dir env) s
    fun free t => ∃ r, t = { s with reject := r } ∧ (free = true → r = s.reject) := by
  refine silent_login.ensures_bind fun _ => (silent_userPath _ _).ensures_bind fun _ => ?_
  refine Ensures.ite (fun _ => ?_) fun _ => ?_
  · refine (ensures_err (by decide) s).bind ?_
    intro _ _ h
    rcases h with ⟨rfl, -⟩
    exact ensures_pure ⟨_, rfl, nofun⟩
  · exact ensures_pure ⟨_, rfl, fun _ => rfl⟩

/-- the checks under the lock: the login is found bad, and that is reported, or nothing is -/
theorem lockedChecks_spec (env : Env) (s : St) : Ensures (fun _ => True) (lockedChecks env) s fun _ t =>
    ∃ good r, t = { s with good_login := good, reject := r } ∧ (good = true → r = s.reject ∧ Unlisted env s) ∧
      (good = false → r ≠ 0) := by
  refine (check_pwd_spec env env.passwd s).bind ?_
  intro free₁ t hx
  rcases hx with ⟨rfl, hfree₁⟩
  refine ensures_modify_bind (ensures_get_bind ?_)
  -- the second passwd file
  have hsecond : Ensures (fun _ => True)
      (if free₁ = true ∧ env.passwd ≠ ETCPASSWD then do setGoodLogin (← check_pwd env ETCPASSWD) else pure ())
      { t with good_login := free₁ }
      fun _ u => ∃ free₂, u = { t with good_login := free₂ } ∧ (free₂ = true → Unlisted env t) := by
    refine Ensures.ite (fun _ => ?_) fun hnot => ensures_pure ⟨free₁, rfl, fun h => hfree₁ h ?_⟩
    · refine (check_pwd_spec env ETCPASSWD _).bind ?_
      intro free₂ u hx
      rcases hx with ⟨rfl, hfree₂⟩
      exact ensures_modify ⟨free₂, rfl, fun h => hfree₂ h rfl⟩
    · by_contra hne
      exact hnot ⟨h, hne⟩
  apply hsecond.bind
  intro _ u hx
  rcases hx with ⟨free₂, rfl, hfree₂⟩
  apply ensures_get_bind
  cases free₂ with
  | false =>
    refine Ensures.bind (Ensures.ite (fun _ => ensures_err (by decide) _) fun h => absurd nofun h) ?_
    intro _ _ hx
    rcases hx with ⟨rfl, hr⟩
    exact ensures_get_bind (ensures_pure ⟨false, _, rfl, nofun, fun _ => hr⟩)
  | true =>
    refine Ensures.bind (Q := fun _ u => u = { t with good_login := true })
      (Ensures.ite (fun h => absurd rfl h) fun _ => ensures_pure rfl) ?_
    rintro _ _ rfl
    refine ensures_get_bind ((silent_library _).ensures_bind fun _ => ?_)
    -- the directory
    have hdirectory : Ensures (fun _ => True) (if env.checkdirs = true then check_usr env else quick_check_dir env)
        { t with good_login := true } fun free u => ∃ r, u = { t with good_login := true, reject := r } ∧
          (free = true → r = t.reject) := by
      refine Ensures.ite (fun _ => ((silent_check_usr env).ensures _).post ?_) fun _ => quick_check_dir_spec env _
      rintro free _ rfl
      exact ⟨t.reject, rfl, fun _ => rfl⟩
    apply hdirectory.bind
    intro free₃ _ hx
    rcases hx with ⟨r, rfl, hr⟩
    refine ensures_modify_bind (ensures_get_bind ?_)
    cases free₃ with
    | false =>
      refine Ensures.ite (fun _ => (ensures_err (by decide) _).post ?_) fun h => absurd nofun h
      intro _ _ hx
      rcases hx with ⟨rfl, hr⟩
      exact ⟨false, _, rfl, nofun, fun _ => hr⟩
    | true =>
      refine Ensures.ite (fun h => absurd rfl h) fun _ => ensures_pure ?_
      exact ⟨true, r, rfl, fun _ => ⟨hr rfl, hfree₂ rfl⟩, nofun⟩

/-- the lock has been set once at most, and it is not held where a system error ends the program -/
def Freed (e : Stop) (s : St) : Prop := (e = .exit → s.locked = false) ∧ s.set_locks ≤ 1

theorem Calm.outcome (hx : Calm x) (h : s.set_locks ≤ 1) : Outcome Freed x s fun _ t => Held s t :=
  Runs.outcome hx fun _ _ he => ⟨he.2, he.1 ▸ h⟩

theorem final_login_check_lock (env : Env) (hs : Checked s) (hlocked : s.locked = false) (h0 : s.set_locks = 0) :
    Outcome Freed (final_login_check env) s fun _ t => (t.locked = true ↔ t.reject = 0) ∧ t.set_locks ≤ 1 := by
  refine outcome_get_bind (Outcome.ite (fun hgood => outcome_pure ?_) fun hgood => outcome_get_bind ?_)
  · have hreject := hs (Bool.not_eq_true _ ▸ hgood)
    exact ⟨iff_of_false (by rw [hlocked]; exact Bool.false_ne_true) hreject, h0 ▸ Nat.zero_le 1⟩
  · by_cases hreject : s.reject = 0
    · have hset : Outcome Freed (set_lock env) s fun _ t => t.locked = true ∧ t.set_locks = 1 ∧ t.reject = 0 := by
        refine outcome_modify_bind (Outcome.post (Runs.outcome (silent_library env.set_lock) fun e t he => ?_) ?_)
        · exact ⟨he.2, by rw [he.1, h0]⟩
        · rintro _ _ rfl
          exact ⟨rfl, by rw [h0], hreject⟩
      rw [hreject]
      refine hset.bind fun _ s₁ ⟨hlocked₁, hcount₁, hreject₁⟩ => ?_
      refine (((calm_lockedChecks env).outcome hcount₁.le).and (lockedChecks_spec env s₁)).bind ?_
      intro _ _ hx
      rcases hx with ⟨-, good, r, rfl, hfree, hbad⟩
      refine outcome_get_bind (Outcome.ite (fun h => outcome_modify ?_) fun h => outcome_pure ?_)
      · have hgood : good = false := Bool.not_eq_true _ ▸ h.2
        exact ⟨iff_of_false Bool.false_ne_true (hbad hgood), hcount₁.le⟩
      · have hgood : good = true := not_not.1 fun hnot => h ⟨decide_eq_true rfl, hnot⟩
        exact ⟨iff_of_true hlocked₁ ((hfree hgood).1.trans hreject₁), hcount₁.le⟩
    · have hset : decide (s.reject = 0) = false := decide_eq_false hreject
      rw [hset]
      refine ((calm_lockedChecks env).outcome (h0 ▸ Nat.zero_le 1)).bind fun _ t ht => ?_
      refine outcome_get_bind (Outcome.ite (fun h => absurd h.1 Bool.false_ne_true) fun _ => outcome_pure ?_)
      refine ⟨iff_of_false ?_ (mt ht.reject hreject), ?_⟩
      · rw [ht.locked, hlocked]
        exact Bool.false_ne_true
      · rw [ht.set_locks, h0]
        exact Nat.zero_le 1

/-- **The lock.** It is held when `wnu_get_user_info` returns if and only if it returns 0. It is not held where a system
error ends the program, and it is never set twice. -/
theorem lock_held_iff (env : Env) (query : Option Bytes) :
    Outcome Freed (wnu_get_user_info env query) (start env) fun r s =>
      (s.locked = true ↔ r = 0) ∧ s.set_locks ≤ 1 := by
  have hquery : Outcome Freed (takeQuery query) (start env) fun _ t => t.locked = false ∧ t.set_locks = 0 := by
    unfold Outcome
    cases h : load_query query with
    | none =>
      rw [exec_takeQuery_none env h]
      exact ⟨nofun, Nat.zero_le 1⟩
    | some q =>
      rw [exec_takeQuery_some env h]
      exact ⟨rfl, rfl⟩
  refine hquery.bind fun _ s₁ ⟨hlocked₁, hcount₁⟩ => ?_
  have hfields := ((calm_fields env).outcome (hcount₁ ▸ Nat.zero_le 1)).and (checked_fields env s₁)
  refine hfields.bind fun _ s₂ ⟨h₂, hchecked⟩ => outcome_get_bind ?_
  have hkeys : Tame ∅ ∅ (errIf (env.final_key_check s₂.keyval) USER) := tame_errIf _ _
  have hcount₂ : s₂.set_locks = 0 := h₂.set_locks.trans hcount₁
  refine (Runs.outcome hkeys fun e t he => ⟨he.2, by rw [he.1, hcount₂]; exact Nat.zero_le 1⟩).bind fun _ s₃ h₃ => ?_
  have hlocked₃ : s₃.locked = false := by
    calc s₃.locked = s₂.locked := h₃.locked
      _ = s₁.locked := h₂.locked
      _ = false := hlocked₁
  have hfinal := final_login_check_lock env (h₃.good_login hchecked) hlocked₃ (h₃.set_locks.trans hcount₂)
  exact hfinal.bind fun _ s₄ h₄ => outcome_get_bind (outcome_pure h₄)

end Lock

end MNetSoft.Ownu
