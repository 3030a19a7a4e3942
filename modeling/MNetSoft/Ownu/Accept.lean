/-
What is known of an application that the web `newuser` accepts. The checks are made field by field, and a value is as it
has been checked only if the checks of other fields have not written over it.

They have not if the escapes of the query are complete. `unescape_url` gets out of a segment at a cut off escape, and
then the next segments are read once more out of what it has written: the value of one field can be the end of the value
of another.
- `Passes`: what is known where nothing has been rejected.
- `accepted_sound`: what an accepted application with complete escapes fulfils.
- `newline_in_name`: an accepted application whose full name ends with a newline.
-/
import Mathlib.Tactic
import MNetSoft.Ownu.Layout

namespace MNetSoft.Ownu

open MNetSoft.Memory MNetSoft.Effects

/-! ## What nothing is rejected of -/

/-- where nothing has been rejected in the end, nothing had been before, and `Q` holds -/
def Passes {α : Type} (x : Wnu α) (Q : St → α → St → Prop) : Prop :=
  ∀ s, Ensures (fun _ => True) x s fun a t => t.reject = 0 → s.reject = 0 ∧ Q s a t

section Passes

variable {A : Set ℕ} {V : Set Var} {α β : Type} {x y : Wnu α} {Q R : St → α → St → Prop} {type : ℕ}

theorem Passes.mono (h : Passes x Q) (hQ : ∀ s a t, t.reject = 0 → Q s a t → R s a t) : Passes x R := by
  refine fun s => (h s).post fun a t ht ht₀ => ?_
  exact ⟨(ht ht₀).1, hQ s a t ht₀ (ht ht₀).2⟩

theorem Passes.bind {f : α → Wnu β} {S : α → St → β → St → Prop} (hx : Passes x Q) (hf : ∀ a, Passes (f a) (S a)) :
    Passes (x >>= f) fun s b u => ∃ a t, Q s a t ∧ S a t b u := by
  refine fun s => (hx s).bind fun a t ht => (hf a t).post fun b u hu hu₀ => ?_
  obtain ⟨ht₀, hS⟩ := hu hu₀
  obtain ⟨hs₀, hQ⟩ := ht ht₀
  exact ⟨hs₀, a, t, hQ, hS⟩

theorem Passes.ite {p : Prop} [Decidable p] (hx : Passes x Q) (hy : Passes y R) :
    Passes (if p then x else y) fun s a t => p ∧ Q s a t ∨ ¬p ∧ R s a t := by
  intro s
  refine Ensures.ite (fun h => (hx s).post ?_) fun h => (hy s).post ?_
  · exact fun a t ht ht₀ => ⟨(ht ht₀).1, Or.inl ⟨h, (ht ht₀).2⟩⟩
  · exact fun a t ht ht₀ => ⟨(ht ht₀).1, Or.inr ⟨h, (ht ht₀).2⟩⟩

theorem Tame.passes (h : Tame A V x) : Passes x fun s _ t => Later A V s t :=
  fun s => (h.ensures s).post fun _ _ h ht₀ => ⟨h.reject ht₀, h⟩

/-- what only reads -/
theorem passes_read {P : St → α → Prop} (h : ∀ s, Ensures (fun _ => True) x s fun a t => t = s ∧ P s a) :
    Passes x fun s a t => t = s ∧ P s a :=
  fun s => (h s).post fun _ _ h ht₀ => ⟨h.1 ▸ ht₀, h⟩

theorem passes_pure (a : α) : Passes (pure a) fun s b t => t = s ∧ b = a := passes_read fun _ => ensures_pure ⟨rfl, rfl⟩

theorem passes_get : Passes get fun s a t => t = s ∧ a = s := fun _ ht₀ => ⟨ht₀, rfl, rfl⟩

theorem passes_modify {f : St → St} (h : ∀ s, (f s).reject = s.reject) : Passes (modify f) fun s _ t => t = f s :=
  fun s => ensures_modify fun ht₀ => ⟨(h s) ▸ ht₀, rfl⟩

theorem passes_defined (o : Option α) : Passes (defined o) fun s a t => t = s ∧ o = some a := by
  refine passes_read fun s => ?_
  cases o with
  | none => exact ensures_throw trivial
  | some a => exact ensures_pure ⟨rfl, rfl⟩

theorem passes_string (p : Ptr) : Passes (string p) fun s w t => t = s ∧ s.string p = some w :=
  passes_read (string_spec p)

theorem passes_cells (b : Block) : Passes (cells b) fun s m t => t = s ∧ s.cells b = some m := by
  refine (passes_get.bind fun s => passes_defined (s.cells b)).mono ?_
  rintro s m t - ⟨_, _, ⟨rfl, rfl⟩, rfl, h⟩
  exact ⟨rfl, h⟩

theorem passes_findvar (name : Bytes) : Passes (findvar name) fun s o t =>
    t = s ∧ ∃ v, getvar s.buffer name s.head = some v ∧ o = v.map Value.ptr := by
  refine (passes_get.bind fun s => (passes_defined _).bind fun v => passes_pure _).mono ?_
  rintro s o t - ⟨_, _, ⟨rfl, rfl⟩, v, _, ⟨rfl, h⟩, rfl, rfl⟩
  exact ⟨rfl, v, h, rfl⟩

theorem passes_stored (v : Var) : Passes (stored v) fun s o t =>
    t = s ∧ ∀ p, s.vars v = some p → ∃ w, s.string p = some w ∧ o = some w := by
  refine passes_read fun s => ensures_get_bind ?_
  cases h : s.vars v with
  | none => exact ensures_pure ⟨rfl, nofun⟩
  | some p =>
    refine (string_spec p s).bind fun w t ht => ensures_pure ⟨ht.1, fun q hq => ?_⟩
    cases hq
    exact ⟨w, ht.2, rfl⟩

theorem passes_firstout (p : Ptr) (l : Bytes) : Passes (firstout p l) fun s q t => t = s ∧ ∃ w, s.string p = some w ∧
    q = { p with offset := p.offset + (w.takeWhile (· ∈ l)).length } := by
  refine ((passes_string p).bind fun w => passes_pure _).mono ?_
  rintro s q t - ⟨w, _, ⟨rfl, hw⟩, rfl, rfl⟩
  exact ⟨rfl, w, hw, rfl⟩

theorem passes_setCells (b : Block) (m : Bytes) : Passes (setCells b m) fun s _ t => s.setCells m b = some t := by
  intro s
  unfold Ensures
  rw [exec_setCells]
  cases h : s.setCells m b with
  | none => trivial
  | some t => cases b <;> cases h <;> exact fun ht₀ => ⟨ht₀, rfl⟩

theorem passes_err (h : type ≠ 0) : Passes (err type) fun _ _ _ => False :=
  fun s => (ensures_err h s).post fun _ _ ht ht₀ => absurd ht₀ ht.2

theorem passes_errIf (h : type ≠ 0) (p : Prop) [Decidable p] : Passes (errIf p type) fun s _ t => t = s ∧ ¬p := by
  refine ((passes_err h).ite (passes_pure _)).mono ?_
  rintro s _ t - (⟨-, hp⟩ | ⟨hp, rfl, -⟩)
  · exact hp.elim
  · exact ⟨rfl, hp⟩

theorem hostile_ne_zero (c : UInt8) : hostile c ≠ 0 := by
  unfold hostile
  split_ifs <;> decide

theorem passes_errChar (bad : Option UInt8) : Passes (errChar bad) fun s _ t => t = s ∧ bad = none := by
  cases bad with
  | none => exact (passes_pure _).mono fun _ _ _ _ h => ⟨h.1, rfl⟩
  | some c => exact (passes_err (hostile_ne_zero c)).mono fun _ _ _ _ h => h.elim

/-- nothing that comes behind an error makes up for it -/
theorem Passes.failed {f : α → Wnu β} {S : α → St → β → St → Prop} (hx : Passes x fun _ _ _ => False)
    (hf : ∀ a, Passes (f a) (S a)) : Passes (x >>= f) fun _ _ _ => False := by
  refine (hx.bind hf).mono ?_
  rintro s b u - ⟨_, _, h, -⟩
  exact h

end Passes

/-! ## The fields that have to be right -/

section Checks

variable {s t : St} {env : Env} {val : Ptr} {w : Bytes}

/-- 1 to 8 lower-case letters and digits, a letter first, and not `root` -/
structure LoginOk (w : Bytes) : Prop where
  length : 1 ≤ w.length ∧ w.length ≤ 8
  chars : ∀ c ∈ w, islower c = true ∨ isdigit c = true
  head : ∀ c, w.head? = some c → islower c = true
  not_root : w ≠ root

/-- 4 to 40 printable characters, not the login and not `password` -/
structure PasswdOk (login w : Bytes) : Prop where
  length : 4 ≤ w.length ∧ w.length ≤ 40
  printable : ∀ c ∈ w, isprint c = true
  not_login : w ≠ login
  not_password : w ≠ password

theorem passes_loginChars (w : Bytes) : Passes (loginChars w) fun s _ t =>
    t = s ∧ (w ≠ root → LoginOk w) := by
  refine ((passes_errIf (hostile_ne_zero _) _).bind fun _ => (passes_errChar _).bind fun _ =>
    (passes_errIf (by decide) _).bind fun _ => passes_errIf (by decide) _).mono ?_
  rintro s _ t - ⟨_, _, ⟨rfl, hdigit⟩, _, _, ⟨rfl, hbad⟩, _, _, ⟨rfl, hempty⟩, rfl, hlong⟩
  have hchars : ∀ c ∈ w, isascii c = true ∧ (islower c = true ∨ isdigit c = true) := by
    intro c hc
    have hok := List.find?_eq_none.1 hbad c hc
    simp only [badlogin, Bool.or_eq_true, Bool.and_eq_true, Bool.not_eq_true', not_or, not_and,
      Bool.not_eq_false] at hok
    exact ⟨hok.1, or_iff_not_imp_right.2 fun h => hok.2 (Bool.not_eq_true _ ▸ h)⟩
  refine ⟨rfl, fun hroot => ⟨by omega, fun c hc => (hchars c hc).2, fun c hc => ?_, hroot⟩⟩
  obtain ⟨hascii, hlower | hdigit'⟩ := hchars c (List.mem_of_head? hc)
  · exact hlower
  · rw [List.headD_eq_head?_getD, hc] at hdigit
    exact absurd ⟨hascii, hdigit'⟩ hdigit

theorem passes_check_reserved (env : Env) (w : Bytes) : Passes (check_reserved env w) fun s _ t => t = s := by
  unfold check_reserved
  split
  · exact (passes_err (by decide)).mono fun _ _ _ _ h => h.elim
  · split
    · exact (passes_pure _).mono fun _ _ _ _ h => h.1
    · refine ((passes_stored _).bind fun o => (passes_defined _).bind fun _ => passes_errIf (by decide) _).mono ?_
      rintro s _ t - ⟨_, _, ⟨rfl, -⟩, _, _, ⟨rfl, -⟩, rfl, -⟩
      rfl

theorem passes_good (g : St → Bool) : Passes (modify fun s => { s with good_login := g s }) fun s _ t =>
    t = { s with good_login := g s } := passes_modify fun _ => rfl

/-- **What `check_login` lets pass.** -/
theorem passes_check_login (env : Env) (val : Ptr) : Passes (check_login env val) fun s r t =>
    ∃ w good, s.string val = some w ∧ LoginOk w ∧ r = some val ∧ t = { s with good_login := good } := by
  have hbad : ∀ type, type ≠ 0 → Passes (do
      err type
      modify fun s : St => { s with good_login := false }
      return (some val)) fun _ _ _ => False := fun type htype =>
    (passes_err htype).failed fun _ => (passes_good _).bind fun _ => passes_pure _
  have hreserved : ∀ w, Passes (if env.rpwd ≠ [] then check_reserved env w else pure ()) fun s _ t => t = s := by
    intro w
    refine ((passes_check_reserved env w).ite (passes_pure _)).mono ?_
    rintro s _ t - (⟨-, rfl⟩ | ⟨-, rfl, -⟩) <;> rfl
  refine ((passes_string val).bind fun w => (passes_loginChars w).bind fun _ =>
    (passes_good _).bind fun _ => passes_get.bind fun a => (passes_pure _).ite
      ((passes_stored _).bind fun o => (passes_errIf (by decide) _).bind fun _ =>
        (hbad _ (by decide)).ite ((hbad _ (by decide)).ite ((hreserved w).bind fun _ => passes_pure _)))).mono ?_
  intro s r t ht hx
  rcases hx with ⟨w, _, ⟨rfl, hw⟩, _, _, ⟨rfl, hok⟩, _, _, rfl, a, _, ⟨rfl, rfl⟩, hcase⟩
  rcases hcase with ⟨hreject, rfl, -⟩ | ⟨-, o, _, ⟨rfl, -⟩, _, _, ⟨rfl, -⟩, hcase⟩
  · exact absurd ht hreject
  · rcases hcase with ⟨-, h⟩ | ⟨hroot, ⟨-, h⟩ | ⟨-, _, _, rfl, rfl, rfl⟩⟩
    · exact h.elim
    · exact h.elim
    · exact ⟨w, _, hw, hok hroot, rfl, rfl⟩

theorem passes_passwdChars (w : Bytes) : Passes (passwdChars w) fun s _ t => t = s ∧ ∀ c ∈ w, isprint c = true := by
  induction w with
  | nil => exact (passes_pure _).mono fun _ _ _ _ h => ⟨h.1, nofun⟩
  | cons c cs ih =>
    refine ((passes_errIf (by decide) _).bind fun _ => ih).mono ?_
    rintro s _ t - ⟨_, _, ⟨rfl, hc⟩, rfl, hcs⟩
    refine ⟨rfl, List.forall_mem_cons.2 ⟨?_, hcs⟩⟩
    simp only [badpasswd, Bool.or_eq_true, Bool.not_eq_true', not_or] at hc
    exact Bool.not_eq_false _ ▸ hc.1.1.2

/-- **What `check_passwd` lets pass.** The second copy is the same as the first. -/
theorem passes_check_passwd (env : Env) (val : Ptr) : Passes (check_passwd env val) fun s r t =>
    match s.vars .userpass with
    | some p => (∃ w, s.string val = some w ∧ s.string p = some w) ∧ t = s
    | none => ∃ w crypted, s.string val = some w ∧ r = some val ∧ t = { s with cpt_pass := crypted } ∧
        (4 ≤ w.length ∧ w.length ≤ 40) ∧ (∀ c ∈ w, isprint c = true) ∧
        ∀ p login, s.vars .loginid = some p → s.string p = some login → PasswdOk login w := by
  have hbad : Passes (do
      err USER
      return (env.stray val)) fun _ _ _ => False := (passes_err (by decide)).failed fun _ => passes_pure _
  have hcrypt : ∀ w, Passes (modify fun s => { s with cpt_pass := env.mkpasswd w }) fun s _ t =>
      t = { s with cpt_pass := env.mkpasswd w } := fun w => passes_modify fun _ => rfl
  have hsecond : ∀ p, Passes (do
      errIf ((← string val) ≠ (← string p)) USER
      return (env.stray val)) fun s _ t => (∃ w, s.string val = some w ∧ s.string p = some w) ∧ t = s := by
    intro p
    refine ((passes_string val).bind fun w => (passes_string p).bind fun w' =>
      (passes_errIf (by decide) _).bind fun _ => passes_pure _).mono ?_
    rintro s _ t - ⟨w, _, ⟨rfl, hw⟩, w', _, ⟨rfl, hw'⟩, _, _, ⟨rfl, heq⟩, rfl, -⟩
    exact ⟨⟨w, hw, not_not.1 heq ▸ hw'⟩, rfl⟩
  refine (passes_get.bind (S := fun s t r u => t = s → match s.vars .userpass with
    | some p => (∃ w, s.string val = some w ∧ s.string p = some w) ∧ u = s
    | none => ∃ w crypted, s.string val = some w ∧ r = some val ∧ u = { s with cpt_pass := crypted } ∧
        (4 ≤ w.length ∧ w.length ≤ 40) ∧ (∀ c ∈ w, isprint c = true) ∧
        ∀ p login, s.vars .loginid = some p → s.string p = some login → PasswdOk login w) fun s => ?_).mono ?_
  · cases hpass : s.vars .userpass with
    | some p =>
      refine (hsecond p).mono ?_
      rintro _ _ _ - h rfl
      exact h
    | none =>
      refine ((passes_string val).bind fun w => hbad.ite (hbad.ite ((passes_errIf (by decide) _).bind fun _ =>
        (passes_stored _).bind fun o => (passes_errIf (by decide) _).bind fun _ => (passes_passwdChars w).bind fun _ =>
        (hcrypt w).bind fun _ => passes_pure _))).mono ?_
      rintro _ r u - ⟨w, _, ⟨rfl, hw⟩, hcase⟩ rfl
      rcases hcase with ⟨-, h⟩ | ⟨-, ⟨-, h⟩ | ⟨hshort, hcase⟩⟩
      · exact h.elim
      · exact h.elim
      · obtain ⟨_, _, ⟨rfl, hlong⟩, o, _, ⟨rfl, hlogin⟩, _, _, ⟨rfl, hobvious⟩, hcase⟩ := hcase
        obtain ⟨_, _, ⟨rfl, hprint⟩, _, _, rfl, rfl, rfl⟩ := hcase
        have hlen : 4 ≤ w.length ∧ w.length ≤ 40 := by omega
        refine ⟨w, _, hw, rfl, rfl, hlen, hprint, fun p login hp hstring => ?_⟩
        obtain ⟨w', hw', rfl⟩ := hlogin p hp
        rw [hstring] at hw'
        cases hw'
        have hdiffer : ¬(some login = some w ∨ w = password) := fun h => hobvious ⟨nofun, h⟩
        exact ⟨hlen, hprint, fun h => hdiffer (Or.inl (h ▸ rfl)), fun h => hdiffer (Or.inr h)⟩
  · rintro s r t - ⟨_, _, ⟨rfl, rfl⟩, h⟩
    exact h rfl

/-- **What `check_fullname` lets pass.** -/
theorem passes_check_fullname (val : Ptr) : Passes (check_fullname val) fun s r t => ∃ w p m m' len,
    s.string val = some w ∧ p = val.offset + (w.takeWhile (· ∈ bytes " \t")).length ∧ s.cells val.block = some m ∧
      trim m p = some (m', none, len) ∧ ¬(len < MINREALNAME ∨ len > 40) ∧ s.setCells m' val.block = some t ∧
      r = some ⟨val.block, p⟩ := by
  refine ((passes_firstout val _).bind fun p => (passes_cells _).bind fun m => (passes_defined _).bind fun r =>
    (passes_setCells _ _).bind fun _ => (passes_errChar _).bind fun _ => (passes_errIf (by decide) _).bind fun _ =>
    passes_pure _).mono ?_
  rintro s _ t - ⟨_, _, ⟨rfl, w, hw, rfl⟩, m, _, ⟨rfl, hm⟩, ⟨m', bad, len⟩, _, ⟨rfl, htrim⟩, hset⟩
  obtain ⟨_, u, hset, _, _, ⟨rfl, rfl⟩, _, _, ⟨rfl, hlen⟩, rfl, rfl⟩ := hset
  exact ⟨w, _, m, m', len, hw, rfl, hm, htrim, hlen, hset, rfl⟩

theorem later_setCells {A : Set ℕ} {V : Set Var} {b : Block} {m : Bytes} (h : s.setCells m b = some t)
    (hm : b = .buffer → Agree A s.buffer m) : Later A V s t := by
  cases b with
  | buffer =>
    cases h
    exact ⟨id, id, rfl, rfl, rfl, fun _ _ => rfl, hm rfl⟩
  | nothing | copy =>
    cases h
    exact ⟨id, id, rfl, rfl, rfl, fun _ _ => rfl, Agree.refl A s.buffer⟩
  | literal | wild => cases h

/-- what `clean_text` changes -/
theorem passes_clean_text (val : Ptr) : Passes (clean_text val) fun s _ t => ∀ A V,
    (∀ m r, val.block = .buffer → clean s.buffer val.offset = some (m, r) → Agree A s.buffer m) → Later A V s t := by
  refine ((passes_cells _).bind fun m => (passes_defined _).bind fun r => (passes_setCells _ _).bind
    (S := fun _ s _ t => ∀ A V, Later A V s t) fun _ => ?_).mono ?_
  · cases r.2 with
    | here p => exact (passes_pure _).mono fun s _ t _ h A V => h.1 ▸ Later.refl A V s
    | copied c p =>
      have hcopy : Passes (modify fun s => { s with copies := s.copies ++ [c] }) fun s _ t =>
          t = { s with copies := s.copies ++ [c] } := passes_modify fun _ => rfl
      refine (passes_get.bind fun s => hcopy.bind fun _ => passes_pure _).mono ?_
      rintro s _ t - ⟨_, _, ⟨rfl, rfl⟩, _, _, rfl, rfl, -⟩ A V
      exact ⟨id, id, rfl, rfl, rfl, fun _ _ => rfl, Agree.refl A _⟩
  · rintro s _ t - ⟨m, _, ⟨rfl, hm⟩, ⟨m', r⟩, _, ⟨rfl, hclean⟩, _, u, hset, h⟩ A V hA
    refine (later_setCells hset fun hb => ?_).trans (h A V)
    rw [hb] at hm
    cases hm
    exact hA m' r hb hclean

end Checks

/-! ## Field by field -/

section Rows

variable {s t : St} {env : Env} {w : Bytes} {o : Option Value}

def St.put (s : St) (v : Var) (p : Option Ptr) : St := { s with vars := fun w => if w = v then p else s.vars w }

/-- the state when a field has been stored -/
def Uinfo.store (u : Uinfo) (r : Option Ptr) (s : St) : St :=
  match u.storage, r with
  | some v, some p => s.put v (some p)
  | _, _ => s

def passwdInfo (env : Env) (name : Bytes) : Uinfo := ⟨name, some (check_passwd env), some .userpass⟩

def fnameInfo : Uinfo := ⟨bytes "fname", some check_fullname, some .full_name⟩

/-- where a field is looked for -/
def fieldPtr (env : Env) (o : Option Value) : Ptr := (o.map Value.ptr).getD ⟨.nothing, env.before.length⟩

theorem passes_field (env : Env) (u : Uinfo) {Q : Ptr → St → Option Ptr → St → Prop}
    (h : ∀ val, Passes (u.check val) (Q val)) : Passes (field env u) fun s _ t => ∃ o w r t',
      getvar s.buffer u.name s.head = some o ∧ s.string (fieldPtr env o) = some w ∧ Q (fieldPtr env o) s r t' ∧
        t = u.store r t' := by
  have hstore : ∀ r, Passes (match u.storage, r with
      | some v, some p => setVar v (some p)
      | _, _ => pure ()) fun s _ t => t = u.store r s := by
    intro r
    unfold Uinfo.store
    cases u.storage with
    | none => exact (passes_pure _).mono fun _ _ _ _ h => h.1
    | some v =>
      cases r with
      | none => exact (passes_pure _).mono fun _ _ _ _ h => h.1
      | some p => exact passes_modify fun _ => rfl
  refine ((passes_findvar u.name).bind fun o => (passes_string _).bind fun w =>
    (passes_errIf (by decide) _).bind fun _ => (h _).bind fun r => hstore r).mono ?_
  rintro s _ t - ⟨_, _, ⟨rfl, o, ho, rfl⟩, w, _, ⟨rfl, hw⟩, _, _, ⟨rfl, -⟩, r, t', hQ, rfl⟩
  exact ⟨o, w, r, t', ho, hw, hQ, rfl⟩

/-- a value with characters is in the buffer -/
theorem cell_of_string (hs : s.nothing = env.before ++ [0]) (hw : s.string (fieldPtr env o) = some w) (hne : w ≠ []) :
    ∃ p, o = some (.cell p) ∧ cstring (s.buffer.drop p) = some w := by
  match o with
  | none =>
    have hempty : s.string (fieldPtr env none) = cstring (s.nothing.drop env.before.length) := rfl
    rw [hempty, hs, List.drop_left] at hw
    exact absurd (Option.some.inj hw).symm hne
  | some .blank => exact absurd (Option.some.inj hw).symm hne
  | some (.cell p) => exact ⟨p, rfl, hw⟩

theorem passes_login (env : Env) : Passes (field env (loginInfo env)) fun s _ t => s.nothing = env.before ++ [0] →
    ∃ p w good, getvar s.buffer (bytes "login") s.head = some (some (.cell p)) ∧
      cstring (s.buffer.drop p) = some w ∧ LoginOk w ∧
      t = { s.put .loginid (some ⟨.buffer, p⟩) with good_login := good } := by
  refine (passes_field env (loginInfo env) (passes_check_login env)).mono ?_
  rintro s _ t - ⟨o, _, r, _, ho, -, ⟨w, good, hw, hok, rfl, rfl⟩, rfl⟩ hs
  obtain ⟨p, rfl, hp⟩ := cell_of_string hs hw (List.ne_nil_of_length_pos hok.length.1)
  exact ⟨p, w, good, ho, hp, hok, rfl⟩

theorem passes_passwd1 (env : Env) (name : Bytes) : Passes (field env (passwdInfo env name)) fun s _ t =>
    s.nothing = env.before ++ [0] → s.vars .userpass = none →
    ∃ p w crypted, getvar s.buffer name s.head = some (some (.cell p)) ∧ cstring (s.buffer.drop p) = some w ∧
      (∀ q login, s.vars .loginid = some q → s.string q = some login → PasswdOk login w) ∧ w ≠ [] ∧
      t = { s.put .userpass (some ⟨.buffer, p⟩) with cpt_pass := crypted } := by
  refine (passes_field env (passwdInfo env name) (passes_check_passwd env)).mono ?_
  rintro s _ t - ⟨o, _, r, t', ho, -, hcheck, rfl⟩ hs hnone
  rw [hnone] at hcheck
  obtain ⟨w, crypted, hw, rfl, rfl, hlen, -, hok⟩ := hcheck
  have hne : w ≠ [] := List.ne_nil_of_length_pos (Nat.lt_of_lt_of_le (by decide) hlen.1)
  obtain ⟨p, rfl, hp⟩ := cell_of_string hs hw hne
  exact ⟨p, w, crypted, ho, hp, hok, hne, rfl⟩

theorem passes_passwd2 (env : Env) (name : Bytes) : Passes (field env (passwdInfo env name)) fun s _ t =>
    s.nothing = env.before ++ [0] → ∀ q w, s.vars .userpass = some q → s.string q = some w → w ≠ [] →
    (∃ p, getvar s.buffer name s.head = some (some (.cell p)) ∧ cstring (s.buffer.drop p) = some w) ∧
      ∃ r, t = s.put .userpass r := by
  refine (passes_field env (passwdInfo env name) (passes_check_passwd env)).mono ?_
  rintro s _ t - ⟨o, _, r, t', ho, -, hcheck, rfl⟩ hs q w hq hw hne
  rw [hq] at hcheck
  obtain ⟨⟨w', hval, hw'⟩, rfl⟩ := hcheck
  obtain rfl : w' = w := Option.some.inj (hw'.symm.trans hw)
  obtain ⟨p, rfl, hp⟩ := cell_of_string hs hval hne
  refine ⟨⟨p, ho, hp⟩, ?_⟩
  cases r with
  | some p => exact ⟨some p, rfl⟩
  | none =>
    have hsame : (fun v => if v = .userpass then t'.vars .userpass else t'.vars v) = t'.vars := by
      funext v
      split_ifs with hv
      · rw [hv]
      · rfl
    exact ⟨t'.vars .userpass, by rw [St.put, hsame]; rfl⟩

theorem cstring_drop {m : Bytes} {k : ℕ} (h : cstring m = some w) (hk : k ≤ w.length) :
    cstring (m.drop k) = some (w.drop k) := by
  obtain ⟨hw, post, rfl⟩ := cstring_eq_some.1 h
  rw [List.drop_append_of_le_length hk]
  exact cstring_nul (fun h => hw (List.mem_of_mem_drop h)) post

theorem Later.mono {A A' : Set ℕ} {V : Set Var} (h : Later A V s t) (hA : A ⊆ A') : Later A' V s t :=
  { h with buffer := h.buffer.mono hA }

theorem later_put {A : Set ℕ} {V : Set Var} {v : Var} (hv : v ∈ V) (p : Option Ptr) : Later A V s (s.put v p) :=
  ⟨id, id, rfl, rfl, rfl, fun _ hw => if_neg (ne_of_mem_of_not_mem hv hw).symm, Agree.refl A s.buffer⟩

/-- an entry with a value that is read: the NUL in front of the value, and the one behind it -/
theorem Layout.ends {m name : Bytes} {head : List Entry} {a : ℕ} (h : Layout m head)
    (hv : getvar m name head = some (some (.cell a))) : ∃ e ∈ head, textAt m e.name = name ∧
      e.region m = Set.Ico a (e.stop m) ∧ cstring (m.drop a) = some (textAt m a) ∧
      e.stop m = a + (textAt m a).length ∧ a = e.name + (textAt m e.name).length + 1 := by
  obtain ⟨e, he, hcell, hname⟩ := getvar_spec h hv
  obtain ⟨ha, htext⟩ := (h.laid e he).value a hcell
  exact ⟨e, he, hname, by rw [Entry.region, hcell], htext, by rw [Entry.stop, hcell], ha⟩

/-- **The full name.** It is stored, and only its own cells have changed. -/
theorem passes_fname (env : Env) : Passes (field env fnameInfo) fun s _ t => s.nothing = env.before ++ [0] →
    Layout s.buffer s.head → ∃ e ∈ s.head, ∃ p n, textAt s.buffer e.name = bytes "fname" ∧
      t.vars .full_name = some ⟨.buffer, p⟩ ∧ cstring (t.buffer.drop p) = some n ∧ NameOk n ∧ e.name ≤ p ∧
      p + n.length ≤ e.stop s.buffer ∧ Later (regions s.buffer s.head {bytes "fname"}) {.full_name} s t := by
  refine (passes_field env fnameInfo passes_check_fullname).mono ?_
  rintro s _ t - ⟨o, _, r, t', ho, -, ⟨w, p, m, m', len, hw, hp, hm, htrim, hlen, hset, rfl⟩, rfl⟩ hs hlayout
  -- an empty name is too short
  have hne : w ≠ [] := by
    rintro rfl
    rw [List.takeWhile_nil, List.length_nil, add_zero] at hp
    have htext : cstring (m.drop p) = some [] := by
      rw [St.string, hm, ← hp] at hw
      exact hw
    obtain ⟨_, q, -, -, -, hq, rfl, -⟩ := trim_steps htrim htext
    have hle := (trimLoop_spec hq).1
    rw [List.length_nil, add_zero] at hle
    exact hlen (Or.inl (by rw [MINREALNAME]; omega))
  obtain ⟨a, rfl, ha⟩ := cell_of_string hs hw hne
  cases hm
  have hp : p = a + (w.takeWhile (· ∈ bytes " \t")).length := hp
  have hset : some { s with buffer := m' } = some t' := hset
  obtain rfl := Option.some.inj hset
  obtain ⟨e, he, hname, hregion, htext, hstop, hbehind⟩ := hlayout.ends ho
  rw [textAt_eq ha] at htext hstop
  have hk : (w.takeWhile (· ∈ bytes " \t")).length ≤ w.length := (List.takeWhile_prefix _).length_le
  have hrest : cstring (s.buffer.drop p) = some (w.dropWhile (· ∈ bytes " \t")) := by
    have hsplit : w.drop (w.takeWhile (· ∈ bytes " \t")).length = w.dropWhile (· ∈ bytes " \t") := by
      have h := @List.drop_left _ (w.takeWhile (· ∈ bytes " \t")) (w.dropWhile (· ∈ bytes " \t"))
      rwa [List.takeWhile_append_dropWhile] at h
    have h := cstring_drop ha hk
    rwa [List.drop_drop, ← hp, hsplit] at h
  have hend : p + (w.dropWhile (· ∈ bytes " \t")).length = e.stop s.buffer := by
    have hlength := congrArg List.length (List.takeWhile_append_dropWhile (p := (· ∈ bytes " \t")) (l := w))
    rw [List.length_append] at hlength
    omega
  have hhead : ∀ c, (w.dropWhile (· ∈ bytes " \t")).head? = some c → c ∉ bytes " \t" := by
    intro c hc
    have h := List.head?_dropWhile_not (· ∈ bytes " \t") w
    rw [hc] at h
    exact of_decide_eq_false h
  obtain ⟨n, hn, hok⟩ := trim_spec htrim hrest hhead hlen
  -- the cells of the value
  have hlo : s.buffer[e.name + (textAt s.buffer e.name).length]? = some 0 :=
    getElem?_cstring (hlayout.laid e he).name
  have hagree := trim_agree htrim hrest hlo (by omega)
  rw [hend, ← hbehind] at hagree
  have hn' : p + n.length ≤ e.stop s.buffer := by
    have hlast : s.buffer[e.stop s.buffer]? = some 0 := hstop ▸ getElem?_cstring ha
    have hlast' := (hagree _ fun h => absurd h.2 (lt_irrefl _)).trans hlast
    obtain ⟨n', hn', hle⟩ := exists_cstring hlast' (by omega : p ≤ e.stop s.buffer)
    rwa [Option.some.inj (hn.symm.trans hn')]
  have hsub : Set.Ico a (e.stop s.buffer) ⊆ regions s.buffer s.head {bytes "fname"} := fun i hi =>
    ⟨e, he, hname, hregion ▸ hi⟩
  refine ⟨e, he, p, n, hname, rfl, hn, hok, by omega, hn', ?_⟩
  have hchecked : Later (regions s.buffer s.head {bytes "fname"}) {.full_name} s { s with buffer := m' } :=
    later_setCells (b := .buffer) rfl fun _ => hagree.mono hsub
  exact hchecked.trans (later_put (Set.mem_singleton Var.full_name) (some ⟨.buffer, p⟩))

/-! ## The other fields -/

/-- the names of the other fields, and the variables that they are stored in -/
def Others : Set Bytes := {n | n ≠ bytes "login" ∧ n ≠ bytes "fname"}

def Free : Set Var := {v | v ≠ .loginid ∧ v ≠ .full_name}

/-- where values have been changed in their own cells only, the cells of the other fields are changed only -/
def Spares (s t : St) : Prop := ∀ m, Layout m s.head → Agree (regions m s.head Set.univ) m s.buffer →
  Later (regions m s.head Others) Free s t

theorem regions_mono {m : Bytes} {head : List Entry} {N N' : Set Bytes} (h : N ⊆ N') :
    regions m head N ⊆ regions m head N' := fun _ ⟨e, he, hname, hi⟩ => ⟨e, he, h hname, hi⟩

theorem Spares.trans {u : St} (h : Spares s t) (h' : Spares t u) : Spares s u := by
  intro m hlayout hagree
  have hst := h m hlayout hagree
  have hbuffer := hagree.trans (hst.buffer.mono (regions_mono (Set.subset_univ _)))
  rw [← hst.head] at hlayout hbuffer
  have htu := h' m hlayout hbuffer
  rw [hst.head] at htu
  exact hst.trans htu

theorem Later.spares (h : Later ∅ Free s t) : Spares s t := fun _ _ _ => h.mono (Set.empty_subset _)

/-- a paragraph is cleaned in its own cells -/
theorem passes_paragraph (env : Env) {name : Bytes} {v : Var} (hname : name ∈ Others) (hv : v ∈ Free) :
    Passes (field env ⟨name, some clean_text, some v⟩) fun s _ t => Spares s t := by
  refine (passes_field env ⟨name, some clean_text, some v⟩ passes_clean_text).mono ?_
  rintro s _ t - ⟨o, _, r, t', ho, -, hcheck, rfl⟩ m hlayout hagree
  have hclean : Later (regions m s.head Others) Free s t' := by
    refine hcheck _ _ fun m' c hblock hclean => ?_
    match o with
    | none => cases hblock
    | some .blank => cases hblock
    | some (.cell a) =>
      rw [getvar_agree hlayout hagree (List.Subset.refl _)] at ho
      obtain ⟨e, he, hename, hregion, htext, hstop, hbehind⟩ := hlayout.ends ho
      have hlo : s.buffer[e.name + (textAt m e.name).length]? = some 0 :=
        (hagree _ (hlayout.name_not_mem he (Nat.le_add_right _ _) le_rfl)).trans
          (getElem?_cstring (hlayout.laid e he).name)
      have hlast : s.buffer[e.stop m]? = some 0 :=
        (hagree _ (hlayout.stop_not_mem he)).trans (hstop ▸ getElem?_cstring htext)
      obtain ⟨w, hw, hle⟩ := exists_cstring hlast (by omega : a ≤ e.stop m)
      refine (clean_agree hclean hw hlo hbehind).mono fun i hi => ⟨e, he, hename ▸ hname, ?_⟩
      rw [hregion]
      exact ⟨hi.1, hi.2.trans_le hle⟩
  cases r with
  | none => exact hclean
  | some p => exact hclean.trans (later_put hv _)

theorem passes_rest (env : Env) : ∀ u ∈ (vartab env).drop 4, Passes (field env u) fun s _ t => Spares s t := by
  have htame : ∀ {u : Uinfo}, (∀ val, Tame ∅ Free (u.check val)) → (∀ v, u.storage = some v → v ∈ Free) →
      Passes (field env u) fun s _ t => Spares s t :=
    fun hcheck hstorage => (tame_field env hcheck hstorage).passes.mono fun _ _ _ _ h => h.spares
  have hkey : ∀ val key, Tame ∅ Free (do check_key val key; return some val) := fun val key =>
    (tame_check_key val key).bind fun _ => tame_pure _
  have hnone : ∀ v, none = some v → v ∈ Free := fun v hv => absurd hv (Option.some_ne_none v).symm
  have hfree : ∀ v, v ≠ .loginid ∧ v ≠ .full_name → v ∈ Free := fun _ h => h
  have hsome : ∀ {v}, v ≠ .loginid ∧ v ≠ .full_name → ∀ w, some v = some w → w ∈ Free :=
    fun hv w hw => Option.some.inj hw ▸ hv
  simp only [vartab, List.drop_succ_cons, List.drop_zero, List.forall_mem_cons]
  refine ⟨htame (tame_check_shell env) (hsome (by decide)), htame (tame_check_editor env) (hsome (by decide)),
    htame (tame_check_terminal (V := Free) (hfree _ (by decide)) env) hnone,
    htame (hkey · _) hnone, htame (hkey · _) hnone, htame (hkey · _) hnone,
    htame (fun _ => tame_pure _) (hsome (by decide)), htame tame_set_sex hnone, ?_, ?_, ?_, ?_, ?_, ?_,
    htame (fun _ => tame_pure _) (hsome (by decide)), htame tame_set_paranoia hnone, List.forall_mem_nil _⟩
  all_goals exact passes_paragraph env ⟨by decide, by decide⟩ (hfree _ (by decide))

theorem passes_fields (env : Env) {us : List Uinfo} (h : ∀ u ∈ us, Passes (field env u) fun s _ t => Spares s t) :
    Passes (fields env us) fun s _ t => Spares s t := by
  induction us with
  | nil => exact (passes_pure _).mono fun s _ _ _ h => h.1 ▸ (Later.refl ∅ Free s).spares
  | cons u us ih =>
    obtain ⟨hu, hus⟩ := List.forall_mem_cons.1 h
    refine (hu.bind fun _ => ih hus).mono ?_
    rintro s _ t - ⟨_, u, hsu, hut⟩
    exact hsu.trans hut

end Rows

/-! ## The application -/

section Application

variable {env : Env} {q : Query} {s t : St} {w passwd name : Bytes}

/-- the variable holds the string -/
def St.Holds (s : St) (v : Var) (w : Bytes) : Prop := ∃ p, s.vars v = some p ∧ s.string p = some w

/-- the login, the password and the name of the query `q` are right, and these are what is stored -/
structure Valid (q : Query) (s : St) (login passwd name : Bytes) : Prop where
  login_value : q.value (bytes "login") = some (some login)
  passwd1_value : q.value (bytes "passwd1") = some (some passwd)
  passwd2_value : q.value (bytes "passwd2") = some (some passwd)
  login_stored : s.Holds .loginid login
  name_stored : s.Holds .full_name name
  login_ok : LoginOk login
  passwd_ok : PasswdOk login passwd
  name_ok : NameOk name

theorem value_of_getvar {n : Bytes} {p : ℕ} (h : getvar q.buffer n q.head = some (some (.cell p)))
    (hw : cstring (q.buffer.drop p) = some w) : q.value n = some (some w) := by
  simp only [Query.value, h, Option.bind_eq_bind, Option.bind_some, Value.text, hw, Option.map_some]

/-- **The fields.** -/
theorem passes_vartab (env : Env) : Passes (fields env (vartab env)) fun s _ t => s.nothing = env.before ++ [0] →
    Layout s.buffer s.head → s.vars .userpass = none →
    ∃ login passwd name, Valid ⟨s.buffer, s.head⟩ t login passwd name := by
  refine ((passes_login env).bind fun _ => (passes_passwd1 env _).bind fun _ => (passes_passwd2 env _).bind fun _ =>
    (passes_fname env).bind fun _ => passes_fields env (passes_rest env)).mono ?_
  rintro s _ t - ⟨_, s₁, h₁, _, s₂, h₂, _, s₃, h₃, _, s₄, h₄, hrest⟩ hs hlayout hnone
  obtain ⟨a, login, good, hlogin, ha, hok, rfl⟩ := h₁ hs
  obtain ⟨b, passwd, crypted, hpasswd₁, hb, hpasswd, hne, rfl⟩ := h₂ hs hnone
  obtain ⟨⟨c, hpasswd₂, hc⟩, r, rfl⟩ := h₃ hs ⟨.buffer, b⟩ passwd rfl hb hne
  obtain ⟨e, he, p, name, hname, hvar, hstring, hnameok, hlo, hhi, hlater₄⟩ := h₄ hs hlayout
  have hlater := hrest s.buffer (hlater₄.head.symm ▸ hlayout)
    (hlater₄.head.symm ▸ hlater₄.buffer.mono (regions_mono (Set.subset_univ _)))
  rw [hlater₄.head] at hlater
  have hlogin₄ := (hlater.vars .loginid fun h => h.1 rfl).trans (hlater₄.vars .loginid nofun)
  have hname₄ := hlater.vars .full_name fun h => h.2 rfl
  -- the cells of the login
  have hlogin_text : cstring (t.buffer.drop a) = some login := by
    obtain ⟨e', he', hname', -, -, hstop', hbehind'⟩ := hlayout.ends hlogin
    rw [textAt_eq ha] at hstop'
    have hother : Agree (regions s.buffer s.head {n | n ≠ bytes "login"}) s.buffer t.buffer := by
      refine (hlater₄.buffer.mono (regions_mono ?_)).trans (hlater.buffer.mono (regions_mono fun n hn => hn.1))
      rintro _ rfl
      exact (by decide : bytes "fname" ≠ bytes "login")
    refine cstring_agree hother ha fun i hlo' hhi' => hlayout.cell_not_mem he' (fun h => h hname') ?_ ?_
    · omega
    · omega
  -- the cells of the name
  have hname_text : cstring (t.buffer.drop p) = some name :=
    cstring_agree hlater.buffer hstring fun i hlo' hhi' =>
      hlayout.cell_not_mem he (fun h => h.2 hname) (hlo.trans hlo') (hhi'.trans hhi)
  exact ⟨login, passwd, name, value_of_getvar hlogin ha, value_of_getvar hpasswd₁ hb, value_of_getvar hpasswd₂ hc,
    ⟨_, hlogin₄, hlogin_text⟩, ⟨_, hname₄.trans hvar, hname_text⟩, hok, hpasswd _ login rfl ha, hnameok⟩

theorem passes_lockedChecks (env : Env) : Passes (lockedChecks env) fun s _ t =>
    Unlisted env s ∧ t = { s with good_login := true } := by
  intro s
  refine (lockedChecks_spec env s).post ?_
  intro _ _ h hr
  rcases h with ⟨good, r, rfl, hgood, hbad⟩
  cases good with
  | false => exact absurd hr (hbad rfl)
  | true =>
    obtain ⟨rfl, hunlisted⟩ := hgood rfl
    exact ⟨hr, hunlisted, rfl⟩

/-- **The account.** -/
theorem passes_final_login_check (env : Env) : Passes (final_login_check env) fun s _ t =>
    s.good_login = true → Unlisted env s ∧ ∃ good locked n,
      t = { s with good_login := good, locked := locked, set_locks := n } := by
  have hset : Passes (set_lock env) fun s _ t => t = { s with locked := true, set_locks := s.set_locks + 1 } := by
    refine fun s => ensures_modify_bind (((silent_library _).ensures _).post ?_)
    rintro _ _ rfl hr
    exact ⟨hr, rfl⟩
  have hunlock : Passes un_lock fun s _ t => t = { s with locked := false } := passes_modify fun _ => rfl
  refine (passes_get.bind fun a => (passes_pure _).ite (passes_get.bind fun b =>
    (hset.ite (passes_pure _)).bind fun _ => (passes_lockedChecks env).bind fun _ => passes_get.bind fun c =>
    hunlock.ite (passes_pure _))).mono ?_
  rintro s _ t - ⟨_, _, ⟨rfl, rfl⟩, ⟨hbad, -⟩ | ⟨-, h⟩⟩ hgood
  · exact absurd hgood hbad
  · obtain ⟨s, _, ⟨rfl, rfl⟩, _, u, hu, _, _, ⟨hunlisted, rfl⟩, _, _, ⟨rfl, rfl⟩, hend⟩ := h
    have hlocked : ∃ locked n, u = { s with locked := locked, set_locks := n } := by
      rcases hu with ⟨-, rfl⟩ | ⟨-, rfl, -⟩
      · exact ⟨true, _, rfl⟩
      · exact ⟨u.locked, u.set_locks, rfl⟩
    obtain ⟨locked, n, rfl⟩ := hlocked
    refine ⟨hunlisted, ?_⟩
    rcases hend with ⟨-, rfl⟩ | ⟨-, rfl, -⟩
    · exact ⟨true, false, n, rfl⟩
    · exact ⟨true, locked, n, rfl⟩

theorem Passes.and {α : Type} {x : Wnu α} {Q R : St → α → St → Prop} (h : Passes x Q) (h' : Passes x R) :
    Passes x fun s a t => Q s a t ∧ R s a t :=
  fun s => ((h s).and (h' s)).post fun _ _ ht ht₀ => ⟨(ht.1 ht₀).1, (ht.1 ht₀).2, (ht.2 ht₀).2⟩

/-- a login that has not been rejected is good -/
theorem passes_good_login (env : Env) : Passes (fields env (vartab env)) fun _ _ t => t.good_login = true := by
  refine fun s => (((calm_fields env).ensures s).and (checked_fields env s)).post fun _ t ht ht₀ => ?_
  exact ⟨ht.1.reject ht₀, eq_true_of_ne_false fun h => ht.2 h ht₀⟩

/-- what an application is accepted for: the state when 0 is returned is that of a valid one with a new login -/
structure Sound (env : Env) (query : Option Bytes) : Prop where
  returns : Ensures (fun _ => True) (wnu_get_user_info env query) (start env) fun r s => r = 0 →
    ∃ q login passwd name, load_query query = some q ∧ Valid q s login passwd name ∧ env.getpwnam login = none

theorem ensures_true {α : Type} (x : Wnu α) (s : St) : Ensures (fun _ => True) x s fun _ _ => True := by
  unfold Ensures
  split <;> trivial

/-- what is returned -/
theorem returns_reject (env : Env) (query : Option Bytes) (s : St) :
    Ensures (fun _ => True) (wnu_get_user_info env query) s fun r t => r = t.reject := by
  refine (ensures_true _ s).bind fun _ s₁ _ => (ensures_true _ s₁).bind fun _ s₂ _ => ensures_get_bind ?_
  refine (ensures_true _ s₂).bind fun _ s₃ _ => (ensures_true _ s₃).bind fun _ s₄ _ => ?_
  exact ensures_get_bind (ensures_pure rfl)

theorem takeQuery_spec (env : Env) (query : Option Bytes) : Ensures (fun _ => True) (takeQuery query) (start env)
    fun _ s => ∃ q, load_query query = some q ∧ s = { start env with buffer := q.buffer, head := q.head } := by
  unfold Ensures
  cases h : load_query query with
  | none =>
    rw [exec_takeQuery_none env h]
    trivial
  | some q =>
    rw [exec_takeQuery_some env h]
    exact ⟨q, rfl, rfl⟩

/-- entries with cells of their own -/
theorem sound_of_layout {query : Option Bytes} (h : ∀ q, load_query query = some q → Layout q.buffer q.head) :
    Sound env query := by
  have hchecks : Passes (do
      fields env (vartab env)
      errIf (env.final_key_check (← get).keyval) USER
      final_login_check env
      return (← get).reject) fun s _ t => s.nothing = env.before ++ [0] → Layout s.buffer s.head →
        s.vars .userpass = none →
        ∃ login passwd name, Valid ⟨s.buffer, s.head⟩ t login passwd name ∧ env.getpwnam login = none := by
    refine (((passes_vartab env).and (passes_good_login env)).bind fun _ => passes_get.bind fun a =>
      (passes_errIf (by decide) _).bind fun _ => (passes_final_login_check env).bind fun _ =>
      passes_get.bind fun b => passes_pure _).mono ?_
    rintro s _ t - ⟨_, _, ⟨hvalid, hgood⟩, _, s₁, ⟨rfl, rfl⟩, _, _, ⟨rfl, -⟩, hfinal⟩ hs hlayout hnone
    obtain ⟨_, _, hfinal, _, _, ⟨rfl, rfl⟩, rfl, -⟩ := hfinal
    obtain ⟨⟨p, lid, hp, hlid, hunlisted⟩, good, locked, n, rfl⟩ := hfinal hgood
    obtain ⟨login, passwd, name, hvalid⟩ := hvalid hs hlayout hnone
    refine ⟨login, passwd, name, ⟨hvalid.login_value, hvalid.passwd1_value, hvalid.passwd2_value, hvalid.login_stored,
      hvalid.name_stored, hvalid.login_ok, hvalid.passwd_ok, hvalid.name_ok⟩, ?_⟩
    obtain ⟨p', hp', hlogin⟩ := hvalid.login_stored
    obtain rfl : p = p' := Option.some.inj (hp.symm.trans hp')
    rwa [← Option.some.inj (hlid.symm.trans hlogin)]
  have hrun : Ensures (fun _ => True) (wnu_get_user_info env query) (start env) fun _ s => s.reject = 0 →
      ∃ q login passwd name, load_query query = some q ∧ Valid q s login passwd name ∧ env.getpwnam login = none := by
    refine (takeQuery_spec env query).bind ?_
    intro _ _ hx
    rcases hx with ⟨q, hq, rfl⟩
    refine (hchecks _).post fun r s hs hs₀ => ?_
    obtain ⟨login, passwd, name, hvalid⟩ := (hs hs₀).2 rfl (h q hq) rfl
    exact ⟨q, login, passwd, name, hq, hvalid⟩
  exact ⟨((returns_reject env query (start env)).and hrun).post fun r s hr hr₀ => hr.2 (hr.1.symm.trans hr₀)⟩

/-- **Accepted applications.** Where every escape of the query is complete, the login and the password of an accepted
application are as they have to be, the login is new, and the full name that is stored is as it has to be. -/
theorem accepted_sound (env : Env) (query : Option Bytes)
    (h : ∀ q, query = some q → 0 ∉ q ∧ ∀ s ∈ segments q, Complete s) : Sound env query := by
  refine sound_of_layout fun r hr => ?_
  cases query with
  | none =>
    cases hr
    exact ⟨nofun, nofun⟩
  | some q =>
    obtain ⟨r', hr', hlayout⟩ := layout_load (h q rfl).1 (h q rfl).2
    obtain rfl : r' = r := Option.some.inj (hr'.symm.trans hr)
    exact hlayout

end Application

/-! ## A name with a newline -/

/-- a choice of shells or editors with one that is called `sh` -/
def shOnly : Flist := ⟨fun w => if w = bytes "sh" then 1 else 0, fun _ => bytes "/bin/sh", fun _ => []⟩

/-- a site with no accounts -/
def site : Env where
  before := [0]
  stray := fun _ => none
  sh := shOnly
  ed := shOnly
  tgetent := fun _ => 0
  isalias := fun _ => true
  rpwd := []
  entries := fun _ => some []
  crypt := fun _ _ => none
  mkpasswd := id
  final_key_check := fun keys => ¬keys.Nodup
  passwd := ETCPASSWD
  getpwnam := fun _ => none
  set_lock := false
  setuserdir := false
  notthisone := false
  checkdirs := false
  usr := bytes "/a"
  opendir := fun _ => some []
  stat := fun _ => false
  access := fun _ => false

/-- an application as it should be -/
def alice : Bytes := bytes "login=alice&passwd1=abcd1&passwd2=abcd1&fname=Alice+B&shell=sh&editor=sh&term=ansi"

theorem complete_of_plain {s : Bytes} (h : '%'.toUInt8 ∉ s) : Complete s := by
  induction s with
  | nil => trivial
  | cons c s ih =>
    rw [List.mem_cons, not_or] at h
    exact (complete_cons (Ne.symm h.1) s).2 (ih h.2)

theorem alice_accepted : (exec (wnu_get_user_info site (some alice)) (start site)).1.toOption = some 0 ∧
    Sound site (some alice) := by
  refine ⟨by decide +kernel, accepted_sound site (some alice) fun q hq => ?_⟩
  obtain rfl := Option.some.inj hq
  have hplain : ∀ s ∈ segments alice, '%'.toUInt8 ∉ s := by decide +kernel
  exact ⟨by decide +kernel, fun s hs => complete_of_plain (hplain s hs)⟩

/-- a segment with an escape that is cut off. Its escape takes up the `&` and the first character of the next segment,
and that segment is then read again, out of what has been unescaped. -/
def cutOff : Bytes := bytes "login=joe&passwd1=abcd1&passwd2=abcd1&shell=sh&editor=sh&term=ansi&f%&" ++ [0x9e] ++
  bytes "ame&email%253D%250D%25=" ++ [0xb0] ++ bytes "xxxAlice B"

/-- what the run of a sound application shows -/
theorem Sound.name_ok {env : Env} {query : Option Bytes} {n : Bytes} (h : Sound env query) (hrun :
    let r := exec (wnu_get_user_info env query) (start env)
    (r.1.toOption, (r.2.vars .full_name).bind r.2.string) = (some 0, some n)) : NameOk n := by
  have hreturns := h.returns
  unfold Ensures at hreturns
  rcases hexec : exec (wnu_get_user_info env query) (start env) with ⟨r, s⟩
  rw [hexec] at hreturns hrun
  obtain ⟨hzero, hname⟩ := Prod.mk.inj hrun
  cases r with
  | error e => cases hzero
  | ok a =>
    obtain ⟨q, login, passwd, name, -, hvalid, -⟩ := hreturns (Option.some.inj hzero)
    obtain ⟨p, hp, hstring⟩ := hvalid.name_stored
    rw [hp, Option.bind_some, hstring] at hname
    exact Option.some.inj hname ▸ hvalid.name_ok

/-- **A newline in a name.** The application is accepted, and the full name that is stored is `ce B` with a newline at
the end: that is from `clean_text`, as the name is the end of the email address, too. -/
theorem newline_in_name : 0 ∉ cutOff ∧ ¬Sound site (some cutOff) := by
  have hrun : let r := exec (wnu_get_user_info site (some cutOff)) (start site)
      (r.1.toOption, (r.2.vars .full_name).bind r.2.string) = (some 0, some (bytes "ce B\n")) := by decide +kernel
  refine ⟨by decide +kernel, fun h => ?_⟩
  have hprintable := ((h.name_ok hrun).printable '\n'.toUInt8 (by decide)).1
  exact absurd hprintable (by decide)

end MNetSoft.Ownu
