/-
The candidates of an election: `getcands` of `vote.c`. The file `candlist` has been read into a buffer, which nothing
ends with a NUL; the cells behind the bytes of the file are the last one of the buffer, which is never written, and
whatever there is behind it. A read behind all of them is `none`. Memory is not exhausted, and what the voter has voted
for is asked of `votedfor`.

The name and the login are what stands in front of the next colon, in whichever line that is.
- `candFields_spec`, `candLoop_spec`: what the loop finds, and what becomes of it.
- `getcands_right_iff`: for which files the array is that of the candidates, and NULL if the file is malformed.
- `colon_of_next_line`: a line with one colon, and a file without a newline at its end.
- `candidates_placed`: every candidate found is in one slot of the array, and every slot has one.
-/
import Mathlib.Tactic
import MNetSoft.Core.Numerals
import MNetSoft.Vote.Ballot
import MNetSoft.Vote.Record
import MNetSoft.Vote.Rndorder

namespace MNetSoft.Vote

open MNetSoft.CString MNetSoft.Numerals MNetSoft.Memory

/-! ## Model -/

/-- couldn't open candlist file -/
def ERR_OPENCANDLIST : ℤ := 13

/-- error in candlist file format -/
def ERR_CANDFMT : ℤ := 15

/-- couldn't alloc permutation vector -/
def ERR_PERMUTE : ℤ := 17

/-- `strchr`, and a NUL where it has found something: the string in front and the cells behind -/
def cutAt (c : Char) : Str → Option (Option (Str × Str))
  | [] => none
  | d :: m =>
    if d = c then some (some ([], m))
    else if d = '\x00' then some none
    else (cutAt c m).map (Option.map fun r => (d :: r.1, r.2))

/-- what becomes of the pointer to the array: NULL, or not set at all, or an array of records, those not filled yet
being zero -/
inductive Clist where
  | null
  | unset
  | array (slots : List (Option CandRec))
deriving DecidableEq, Repr

/-- what `getcands` sets -/
structure Cands where
  err : ℤ
  ncands : Option ℤ
  nslots : Option ℤ
  clist : Clist
deriving DecidableEq, Repr

/-- the three fields of a candidate and the cells behind them -/
def candFields (cp : Str) : Option (Option ((Str × Str × Str) × Str)) := do
  match ← cutAt ':' cp with
  | none => return none
  | some (name, cp) =>
    match ← cutAt ':' cp with
    | none => return none
    | some (logid, cp) =>
      match ← cutAt '\n' cp with
      | none => return none
      | some (stmt, cp) => return some ((name, logid, stmt), cp)

/-- the loop over the candidates, with the slots they are put in; `cd i` says whether `votedfor` can enter its directory
for the candidate `i` -/
def candLoop (cd : ℕ → Bool) (vf : Option Str) : ℕ → List ℕ → Str → List (Option CandRec) → Option (ℤ × Clist)
  | _, [], _, slots => some (0, .array slots)
  | i, k :: p, cp, slots => do
    match ← candFields cp with
    | none => return (ERR_CANDFMT, .null)
    | some ((name, logid, stmt), cp) =>
      if votedfor (cd i) vf logid = 1 then
        candLoop cd vf (i + 1) p cp (← store slots k (some ⟨name, logid, stmt, true⟩))
      else if votedfor (cd i) vf logid = 0 then
        candLoop cd vf (i + 1) p cp (← store slots k (some ⟨name, logid, stmt, false⟩))
      else return (ERR_CDVOTES, .null)

/-- `file` is what `getfile` reads, if it does; `behind` are the cells behind that -/
def getcands (file : Option Str) (behind : Str) (random : ℕ → ℤ) (cd : ℕ → Bool) (vf : Option Str) : Option Cands :=
  match file with
  | none => some ⟨ERR_OPENCANDLIST, none, none, .null⟩
  | some text => do
    match ← cutAt '\n' (text ++ behind) with
    | none => return ⟨ERR_CANDFMT, none, none, .null⟩
    | some (line, cp) =>
      match scanInt line with
      | none => return ⟨ERR_CANDFMT, none, none, .null⟩
      | some (nc, _) =>
        match ← cutAt '\n' cp with
        | none => return ⟨ERR_CANDFMT, some nc, none, .null⟩
        | some (line, cp) =>
          match scanInt line with
          | none => return ⟨ERR_CANDFMT, some nc, none, .null⟩
          | some (ns, _) =>
            -- the size of the array is huge then
            if nc < 0 then return ⟨ERR_PERMUTE, some nc, some ns, .unset⟩
            else
              let p ← rndorder random (List.replicate nc.toNat 0) nc.toNat
              let (err, clist) ← candLoop cd vf 0 p cp (List.replicate nc.toNat none)
              return ⟨err, some nc, some ns, clist⟩

/-! ## Candidates as they are written -/

/-- a candidate as it stands in the file, with the characters that end its fields in their place -/
structure Cand where
  name : Str
  login : Str
  path : Str
  name_colon : ':' ∉ name
  login_colon : ':' ∉ login
  path_newline : '\n' ∉ path

def Cand.text (c : Cand) : Str := c.name ++ ':' :: (c.login ++ ':' :: (c.path ++ ['\n']))

/-- the record of a candidate -/
def Cand.record (vf : Option Str) (c : Cand) : CandRec := ⟨c.name, c.login, c.path, votedfor true vf c.login = 1⟩

/-- the candidates stand in front, without a NUL -/
def Leads (cs : List Cand) (rest cp : Str) : Prop := cp = cs.flatMap Cand.text ++ rest ∧ '\x00' ∉ cs.flatMap Cand.text

/-- there are `n` candidates in front -/
def Separated (n : ℕ) (cp : Str) : Prop := ∃ cs rest, cs.length = n ∧ Leads cs rest cp

/-! ## What is cut -/

section Cut

variable {c d : Char} {a b m : Str}

theorem cutAt_append (hc : c ∉ a) (hnul : '\x00' ∉ a) (m : Str) :
    cutAt c (a ++ m) = (cutAt c m).map (Option.map fun r => (a ++ r.1, r.2)) := by
  induction a with
  | nil => rcases hm : cutAt c m with _ | _ | r <;> simp [hm]
  | cons d a ih =>
    have hd : d ≠ c := fun h => hc (by simp [h])
    have hd' : d ≠ '\x00' := fun h => hnul (by simp [h])
    rw [List.cons_append, cutAt, if_neg hd, if_neg hd', ih (fun h => hc (List.mem_cons_of_mem d h)) fun h =>
      hnul (List.mem_cons_of_mem d h)]
    rcases cutAt c m with _ | _ | r <;> rfl

theorem cutAt_of_found (hc : c ∉ a) (hnul : '\x00' ∉ a) (b : Str) : cutAt c (a ++ c :: b) = some (some (a, b)) := by
  rw [cutAt_append hc hnul, cutAt, if_pos rfl, Option.map_some, Option.map_some, List.append_nil]

theorem cutAt_of_nul (hne : c ≠ '\x00') (hc : c ∉ a) (hnul : '\x00' ∉ a) (b : Str) :
    cutAt c (a ++ '\x00' :: b) = some none := by
  rw [cutAt_append hc hnul, cutAt, if_neg (Ne.symm hne), if_pos rfl, Option.map_some, Option.map_none]

/-- **A search** ends at what is looked for, or at a NUL, or goes on behind the cells there are. -/
theorem cutAt_cases (c : Char) (m : Str) :
    (∃ a b, m = a ++ c :: b ∧ c ∉ a ∧ '\x00' ∉ a ∧ cutAt c m = some (some (a, b))) ∨
    ((∀ a b, m = a ++ c :: b → '\x00' ∈ a) ∧ '\x00' ∈ m ∧ cutAt c m = some none) ∨
    (c ∉ m ∧ '\x00' ∉ m ∧ cutAt c m = none) := by
  induction m with
  | nil => exact Or.inr (Or.inr ⟨List.not_mem_nil, List.not_mem_nil, rfl⟩)
  | cons d m ih =>
    by_cases hd : d = c
    · subst hd
      exact Or.inl ⟨[], m, rfl, List.not_mem_nil, List.not_mem_nil, by rw [cutAt, if_pos rfl]⟩
    · rw [cutAt, if_neg hd]
      by_cases hd' : d = '\x00'
      · subst hd'
        refine Or.inr (Or.inl ⟨?_, List.mem_cons_self, by rw [if_pos rfl]⟩)
        intro a b h
        cases a with
        | nil => exact absurd (List.cons.inj h).1 hd
        | cons e a =>
          rw [← (List.cons.inj h).1]
          exact List.mem_cons_self
      · rw [if_neg hd']
        rcases ih with ⟨a, b, rfl, hc, hnul, h⟩ | ⟨hall, hmem, h⟩ | ⟨hc, hnul, h⟩
        · left
          exact ⟨d :: a, b, rfl, by simp [hc, Ne.symm hd], by simp [hnul, Ne.symm hd'], by rw [h]; rfl⟩
        · right; left
          refine ⟨?_, List.mem_cons_of_mem d hmem, by rw [h]; rfl⟩
          intro a b hab
          cases a with
          | nil => exact absurd (List.cons.inj hab).1 hd
          | cons e a => exact List.mem_cons_of_mem e (hall a b (List.cons.inj hab).2)
        · right; right
          exact ⟨by simp [hc, Ne.symm hd], by simp [hnul, Ne.symm hd'], by rw [h]; rfl⟩

end Cut

/-! ## What the loop finds -/

section Fields

variable {m rest : Str}

theorem Cand.nul_not_mem {c : Cand} (h : '\x00' ∉ c.text) : '\x00' ∉ c.name ∧ '\x00' ∉ c.login ∧ '\x00' ∉ c.path := by
  simp only [Cand.text, List.mem_append, List.mem_cons, not_or] at h
  exact ⟨h.1, h.2.2.1, h.2.2.2.2.1⟩

theorem candFields_of_cand {c : Cand} (h : '\x00' ∉ c.text) (rest : Str) :
    candFields (c.text ++ rest) = some (some ((c.name, c.login, c.path), rest)) := by
  obtain ⟨hname, hlogin, hpath⟩ := c.nul_not_mem h
  have htext : c.text ++ rest = c.name ++ ':' :: (c.login ++ ':' :: (c.path ++ '\n' :: rest)) := by simp [Cand.text]
  rw [htext, candFields, cutAt_of_found c.name_colon hname, Option.bind_eq_bind, Option.bind_some]
  simp only [cutAt_of_found c.login_colon hlogin, Option.bind_some, cutAt_of_found c.path_newline hpath]
  rfl

/-- **The fields** are those of a candidate, or a NUL stands in the way, or the search goes on behind the cells. -/
theorem candFields_spec (m : Str) :
    (∃ c : Cand, ∃ rest, m = c.text ++ rest ∧ '\x00' ∉ c.text ∧
      candFields m = some (some ((c.name, c.login, c.path), rest))) ∨
    ('\x00' ∈ m ∧ candFields m = some none) ∨ ('\x00' ∉ m ∧ candFields m = none) := by
  rw [candFields]
  rcases cutAt_cases ':' m with ⟨name, m₁, rfl, hc₁, hn₁, h₁⟩ | ⟨-, hn, h₁⟩ | ⟨-, hn, h₁⟩
  · simp only [h₁, Option.bind_eq_bind, Option.bind_some]
    rcases cutAt_cases ':' m₁ with ⟨login, m₂, rfl, hc₂, hn₂, h₂⟩ | ⟨-, hn, h₂⟩ | ⟨-, hn, h₂⟩
    · simp only [h₂, Option.bind_some]
      rcases cutAt_cases '\n' m₂ with ⟨path, rest, rfl, hc₃, hn₃, h₃⟩ | ⟨-, hn, h₃⟩ | ⟨-, hn, h₃⟩
      · left
        refine ⟨⟨name, login, path, hc₁, hc₂, hc₃⟩, rest, by simp [Cand.text], ?_, by rw [h₃]; rfl⟩
        simp [Cand.text, hn₁, hn₂, hn₃]
      · right; left
        exact ⟨by simp [hn], by rw [h₃]; rfl⟩
      · right; right
        exact ⟨by simp [hn₁, hn₂, hn], by rw [h₃]; rfl⟩
    · right; left
      exact ⟨by simp [hn], by rw [h₂]; rfl⟩
    · right; right
      exact ⟨by simp [hn₁, hn], by rw [h₂]; rfl⟩
  · right; left
    exact ⟨hn, by rw [h₁]; rfl⟩
  · right; right
    exact ⟨hn, by rw [h₁]; rfl⟩

/-- the records put in their slots -/
def place {α : Type} : List ℕ → List α → List (Option α) → List (Option α)
  | k :: p, r :: rs, slots => place p rs (slots.set k (some r))
  | _, _, slots => slots

theorem store_of_lt {α : Type} {m : List α} {k : ℕ} (hk : k < m.length) (a : α) : store m k a = some (m.set k a) := by
  rw [store, blit, if_pos (by simpa using hk), List.set_eq_take_append_cons_drop, if_pos hk]
  simp

variable {vf : Option Str} {cd : ℕ → Bool} {p : List ℕ} {slots : List (Option CandRec)}

theorem candLoop_cons {i k : ℕ} (hk : k < slots.length) (hcd : cd i = true) {c : Cand} (hc : '\x00' ∉ c.text)
    (rest : Str) :
    candLoop cd vf i (k :: p) (c.text ++ rest) slots =
      candLoop cd vf (i + 1) p rest (slots.set k (some (c.record vf))) := by
  have hvote : votedfor true vf c.login = 1 ∨ votedfor true vf c.login = 0 := by
    cases vf with
    | none => exact Or.inr rfl
    | some text =>
      simp only [votedfor, Bool.not_true, Bool.false_eq_true, if_false]
      split_ifs
      · exact Or.inl rfl
      · exact Or.inr rfl
  rw [candLoop, candFields_of_cand hc, Option.bind_eq_bind, Option.bind_some]
  simp only [hcd, store_of_lt hk, Cand.record]
  rcases hvote with h | h
  · rw [if_pos h]
    simp [h]
  · rw [if_neg (by rw [h]; decide), if_pos h]
    simp [h]

/-- **The loop** finds as many candidates as there are slots to fill, or one for whom `votedfor` fails, or a NUL stands
in the way, or the search goes on behind the cells. -/
theorem candLoop_spec (cd : ℕ → Bool) (vf : Option Str) (hp : ∀ k ∈ p, k < slots.length) (i : ℕ) (m : Str) :
    (∃ cs rest, cs.length = p.length ∧ Leads cs rest m ∧
      candLoop cd vf i p m slots = some (0, .array (place p (cs.map (Cand.record vf)) slots))) ∨
    (∃ j, cd j = false ∧ candLoop cd vf i p m slots = some (ERR_CDVOTES, .null)) ∨
    ('\x00' ∈ m ∧ candLoop cd vf i p m slots = some (ERR_CANDFMT, .null)) ∨
    ('\x00' ∉ m ∧ candLoop cd vf i p m slots = none) := by
  induction p generalizing i m slots with
  | nil => exact Or.inl ⟨[], m, rfl, ⟨rfl, List.not_mem_nil⟩, rfl⟩
  | cons k p ih =>
    obtain ⟨hk, hp⟩ := List.forall_mem_cons.1 hp
    rcases candFields_spec m with ⟨c, rest, rfl, hc, hfields⟩ | ⟨hmem, hfields⟩ | ⟨hmem, hfields⟩
    · cases hcd : cd i with
      | false =>
        right; left
        refine ⟨i, hcd, ?_⟩
        rw [candLoop, hfields, Option.bind_eq_bind, Option.bind_some]
        simp only [hcd]
        rfl
      | true =>
        rw [candLoop_cons hk hcd hc]
        have hp' : ∀ l ∈ p, l < (slots.set k (some (c.record vf))).length := fun l hl => by
          rw [List.length_set]
          exact hp l hl
        rcases ih hp' (i + 1) rest with ⟨cs, rest', hlen, ⟨rfl, hnul⟩, h⟩ | ⟨j, hj, h⟩ | ⟨hmem, h⟩ | ⟨hmem, h⟩
        · left
          refine ⟨c :: cs, rest', by rw [List.length_cons, hlen, List.length_cons], ⟨?_, ?_⟩, h⟩
          · rw [List.flatMap_cons, List.append_assoc]
          · rw [List.flatMap_cons, List.mem_append, not_or]
            exact ⟨hc, hnul⟩
        · right; left
          exact ⟨j, hj, h⟩
        · right; right; left
          exact ⟨List.mem_append_right _ hmem, h⟩
        · right; right; right
          exact ⟨by rw [List.mem_append, not_or]; exact ⟨hc, hmem⟩, h⟩
    · right; right; left
      refine ⟨hmem, ?_⟩
      rw [candLoop, hfields]
      rfl
    · right; right; right
      refine ⟨hmem, ?_⟩
      rw [candLoop, hfields]
      rfl

theorem candLoop_of_leads (hp : ∀ k ∈ p, k < slots.length) {cs : List Cand} {rest m : Str} (h : Leads cs rest m)
    (hlen : cs.length = p.length) (i : ℕ) (hcd : ∀ j, cd j = true) :
    candLoop cd vf i p m slots = some (0, .array (place p (cs.map (Cand.record vf)) slots)) := by
  obtain ⟨rfl, hnul⟩ := h
  induction p generalizing i cs slots with
  | nil =>
    rw [List.length_eq_zero_iff.1 hlen]
    rfl
  | cons k p ih =>
    obtain ⟨c, cs, rfl⟩ := List.exists_cons_of_length_eq_add_one hlen
    obtain ⟨hk, hp⟩ := List.forall_mem_cons.1 hp
    rw [List.flatMap_cons, List.mem_append, not_or] at hnul
    rw [List.flatMap_cons, List.append_assoc, candLoop_cons hk (hcd i) hnul.1]
    exact ih (fun l hl => by rw [List.length_set]; exact hp l hl) (Nat.succ.inj hlen) (i + 1) hnul.2

end Fields

/-! ## Slots -/

section Slots

variable {α : Type} {p : List ℕ}

theorem length_place (p : List ℕ) (rs : List α) (slots : List (Option α)) :
    (place p rs slots).length = slots.length := by
  induction p generalizing rs slots with
  | nil => rfl
  | cons k p ih =>
    cases rs with
    | nil => rfl
    | cons r rs => rw [place, ih, List.length_set]

theorem place_of_not_mem {k : ℕ} (hk : k ∉ p) (rs : List α) (slots : List (Option α)) :
    (place p rs slots)[k]? = slots[k]? := by
  induction p generalizing rs slots with
  | nil => rfl
  | cons l p ih =>
    cases rs with
    | nil => rfl
    | cons r rs =>
      rw [List.mem_cons, not_or] at hk
      rw [place, ih hk.2, List.getElem?_set_ne (Ne.symm hk.1)]

theorem map_place (rs : List α) {slots : List (Option α)} (hnodup : p.Nodup)
    (hp : ∀ k ∈ p, k < slots.length) (hlen : rs.length = p.length) :
    p.map (fun k => (place p rs slots)[k]?) = rs.map fun r => some (some r) := by
  induction p generalizing rs slots with
  | nil =>
    rw [List.length_eq_zero_iff.1 hlen]
    rfl
  | cons k p ih =>
    obtain ⟨r, rs, rfl⟩ := List.exists_cons_of_length_eq_add_one hlen
    obtain ⟨hk, hp⟩ := List.forall_mem_cons.1 hp
    obtain ⟨hnot, hnodup⟩ := List.nodup_cons.1 hnodup
    have hp' : ∀ l ∈ p, l < (slots.set k (some r)).length := by
      intro l hl
      rw [List.length_set]
      exact hp l hl
    have hrest := ih rs hnodup hp' (Nat.succ.inj hlen)
    rw [List.map_cons, List.map_cons, place, hrest, place_of_not_mem hnot, List.getElem?_set_self hk]

/-- **Placing in a random order.** Every record is in one slot, and every slot has one. -/
theorem place_perm {n : ℕ} (hp : p.Perm (List.range n)) {rs : List α} (hlen : rs.length = n)
    {slots : List (Option α)} (hslots : slots.length = n) :
    (place p rs slots).Perm (rs.map some) := by
  have hlt : ∀ k ∈ p, k < slots.length := by
    intro k hk
    rw [hslots]
    exact List.mem_range.1 (hp.mem_iff.1 hk)
  have hmap := map_place rs (hp.nodup_iff.2 List.nodup_range) hlt (by rw [hlen, hp.length_eq, List.length_range])
  have hrange : (List.range n).map (fun k => (place p rs slots)[k]?) = (place p rs slots).map some := by
    have hlen' : (place p rs slots).length = n := by rw [length_place, hslots]
    apply List.ext_getElem
    · rw [List.length_map, List.length_map, List.length_range, hlen']
    · intro i hi hi'
      rw [List.length_map] at hi'
      rw [List.getElem_map, List.getElem_map, List.getElem_range, List.getElem?_eq_getElem hi']
  have hperm := hp.map fun k => (place p rs slots)[k]?
  have hsome : (rs.map fun r => some (some r)) = (rs.map some).map some := by rw [List.map_map]; rfl
  rw [hmap, hrange, hsome, List.map_perm_map_iff (Option.some_injective _)] at hperm
  exact hperm.symm

end Slots

/-! ## Lines -/

/-- the text begins with a line, in front of any NUL -/
structure HasLine (text line rest : Str) : Prop where
  eq : text = line ++ '\n' :: rest
  newline : '\n' ∉ line
  nul : '\x00' ∉ line

section Lines

variable {text line rest behind : Str}

theorem HasLine.cutAt (h : HasLine text line rest) : cutAt '\n' text = some (some (line, rest)) := by
  rw [h.eq]
  exact cutAt_of_found h.newline h.nul rest

theorem HasLine.append (h : HasLine text line rest) (behind : Str) : HasLine (text ++ behind) line (rest ++ behind) :=
  ⟨by rw [h.eq, List.append_assoc, List.cons_append], h.newline, h.nul⟩

theorem HasLine.of_concat {c : Char} (hc : c ≠ '\n') (h : HasLine (text ++ [c]) line rest) :
    ∃ rest', rest = rest' ++ [c] ∧ HasLine text line rest' := by
  obtain ⟨heq, hnewline, hnul⟩ := h
  rcases List.eq_nil_or_concat rest with rfl | ⟨rest', d, rfl⟩
  · have hlast := congrArg List.getLast? heq
    simp only [List.getLast?_append, List.getLast?_singleton, Option.some_or, Option.some.injEq] at hlast
    exact absurd hlast hc
  · rw [List.concat_eq_append] at heq ⊢
    have hcons : line ++ '\n' :: (rest' ++ [d]) = (line ++ '\n' :: rest') ++ [d] := by simp
    rw [hcons] at heq
    obtain ⟨htext, hd⟩ := List.append_inj' heq rfl
    rw [← List.singleton_inj.1 hd]
    exact ⟨rest', rfl, htext, hnewline, hnul⟩

/-- **A search for a newline** ends with a line, or at a NUL, or goes on behind the cells there are. -/
theorem cutAt_newline (text : Str) :
    (∃ line rest, HasLine text line rest) ∨
    ((∀ line rest, ¬ HasLine text line rest) ∧ '\x00' ∈ text ∧ ∀ behind, cutAt '\n' (text ++ behind) = some none) ∨
    ('\x00' ∉ text ∧ cutAt '\n' text = none) := by
  rcases cutAt_cases '\n' text with ⟨line, rest, heq, hc, hn, -⟩ | ⟨hall, hn, -⟩ | ⟨-, hn, h⟩
  · exact Or.inl ⟨line, rest, heq, hc, hn⟩
  · refine Or.inr (Or.inl ⟨fun line rest h => h.nul (hall line rest h.eq), hn, fun behind => ?_⟩)
    obtain ⟨a, b, rfl, ha⟩ := List.eq_append_cons_of_mem hn
    have hnewline : '\n' ∉ a := by
      intro hmem
      obtain ⟨line, rest, rfl⟩ := List.append_of_mem hmem
      have hnul := hall line (rest ++ '\x00' :: b) (by simp)
      exact ha (List.mem_append_left _ hnul)
    rw [List.append_assoc, List.cons_append]
    exact cutAt_of_nul (by decide) hnewline ha (b ++ behind)
  · exact Or.inr (Or.inr ⟨hn, h⟩)

end Lines

/-! ## What is claimed -/

/-- the format: the number of candidates, the number of slots and the candidates, one on each line -/
structure CandFormat (head : Str) (cs : List Cand) : Prop where
  lines : ∃ first second, head = first ++ '\n' :: (second ++ '\n' :: cs.flatMap Cand.text) ∧
    '\n' ∉ first ∧ '\n' ∉ second ∧ (scanInt first).map Prod.fst = some (cs.length : ℤ) ∧
    (scanInt second).isSome = true
  one_line : ∀ c ∈ cs, '\n' ∉ c.name ∧ '\n' ∉ c.login

/-- a file that begins with what has the format -/
def WellFormed (text : Str) : Prop := ∃ head cs, head <+: text ∧ CandFormat head cs

/-- the array has the records of the candidates of the file, each in one slot -/
def FromLines (vf : Option Str) (text : Str) (slots : List (Option CandRec)) : Prop :=
  ∃ head cs, head <+: text ∧ CandFormat head cs ∧ slots.Perm (cs.map fun c => some (c.record vf))

/-- whatever is behind the file, and as long as `votedfor` does not fail: there is an array exactly if the file has the
format, with the records of its candidates -/
def CandsRight (text : Str) : Prop :=
  ∀ random vf, ∃ out, (∀ c beyond, getcands (some text) (c :: beyond) random (fun _ => true) vf = some out) ∧
    (WellFormed text → ∃ slots, out.clist = .array slots ∧ FromLines vf text slots) ∧
    (¬ WellFormed text → out.clist = .null)

/-- the file has the format, and no NUL up to the end of the candidates -/
def CleanFormat (text : Str) : Prop := ∃ head cs, head <+: text ∧ CandFormat head cs ∧ '\x00' ∉ head

/-- the file is rejected before its end: a line is no number, or a NUL stands in the way of a line or of the colons and
the newline of a candidate, in whichever line these are -/
inductive Rejected (text : Str) : Prop where
  | noFirst (h : ∀ line rest, ¬ HasLine text line rest) (hnul : '\x00' ∈ text)
  | first {line rest : Str} (h : HasLine text line rest) (hnc : scanInt line = none)
  | noSecond {line rest : Str} (h : HasLine text line rest) (hnc : (scanInt line).isSome = true)
      (h' : ∀ line' rest', ¬ HasLine rest line' rest') (hnul : '\x00' ∈ rest)
  | second {line rest line' rest' : Str} (h : HasLine text line rest) (hnc : (scanInt line).isSome = true)
      (h' : HasLine rest line' rest') (hns : scanInt line' = none)
  | cands {line rest line' rest' s : Str} {nc : ℤ} (h : HasLine text line rest) (hnc : scanInt line = some (nc, s))
      (h0 : 0 ≤ nc) (h' : HasLine rest line' rest') (hns : (scanInt line').isSome = true)
      (hcs : ¬ Separated nc.toNat rest') (hnul : '\x00' ∈ rest')

/-! ## What `getcands` does -/

section Getcands

variable {text line rest line' rest' s s' : Str} {nc ns : ℤ}

theorem getcands_lines (h : HasLine text line rest) (hnc : scanInt line = some (nc, s)) (h' : HasLine rest line' rest')
    (hns : scanInt line' = some (ns, s')) (h0 : 0 ≤ nc) (random : ℕ → ℤ) :
    ∃ p, p.Perm (List.range nc.toNat) ∧ ∀ behind cd vf, getcands (some text) behind random cd vf =
      (candLoop cd vf 0 p (rest' ++ behind) (List.replicate nc.toNat none)).map fun q =>
        ⟨q.1, some nc, some ns, q.2⟩ := by
  have hzero : (List.replicate nc.toNat 0).length = nc.toNat := List.length_replicate
  obtain ⟨p, hp, hperm, -⟩ := rndorder_perm random hzero
  refine ⟨p, hperm, fun behind cd vf => ?_⟩
  simp only [getcands, (h.append behind).cutAt, (h'.append behind).cutAt, hnc, hns, Option.bind_eq_bind,
    Option.bind_some, if_neg (not_lt.2 h0), hp]
  cases candLoop cd vf 0 p (rest' ++ behind) (List.replicate nc.toNat none) with
  | none => rfl
  | some q => rfl

/-- a negative number of candidates leaves the pointer as it is -/
theorem getcands_negative (h : HasLine text line rest) (hnc : scanInt line = some (nc, s))
    (h' : HasLine rest line' rest') (hns : scanInt line' = some (ns, s')) (h0 : nc < 0) (behind : Str)
    (random : ℕ → ℤ) (cd : ℕ → Bool) (vf : Option Str) :
    getcands (some text) behind random cd vf = some ⟨ERR_PERMUTE, some nc, some ns, .unset⟩ := by
  simp only [getcands, (h.append behind).cutAt, (h'.append behind).cutAt, hnc, hns, Option.bind_eq_bind,
    Option.bind_some, if_pos h0]
  rfl

theorem lt_of_perm {p : List ℕ} {n : ℕ} (hp : p.Perm (List.range n)) :
    ∀ k ∈ p, k < (List.replicate n (none : Option CandRec)).length := by
  intro k hk
  rw [List.length_replicate]
  exact List.mem_range.1 (hp.mem_iff.1 hk)

/-- a NUL behind the candidates found ends the search in the file -/
theorem not_separated_append {n : ℕ} (hcs : ¬ Separated n rest) (hnul : '\x00' ∈ rest) (behind : Str) :
    ¬ Separated n (rest ++ behind) := by
  intro hsep
  obtain ⟨cs, rest₂, hlen, heq, hclean⟩ := hsep
  rcases List.append_eq_append_iff.1 heq with ⟨t, ht, -⟩ | ⟨t, ht, -⟩
  · rw [ht] at hclean
    exact hclean (List.mem_append_left _ hnul)
  · exact hcs ⟨cs, t, hlen, ht, hclean⟩

/-- **What is rejected** is rejected whatever stands behind it, unless `votedfor` fails before. -/
theorem getcands_of_rejected (h : Rejected text) (random : ℕ → ℤ) (vf : Option Str) :
    ∃ out, out.clist = .null ∧ ∀ behind cd, getcands (some text) behind random cd vf = some out ∨
      ∃ j out', cd j = false ∧ out'.clist = .null ∧ getcands (some text) behind random cd vf = some out' := by
  cases h with
  | noFirst h hnul =>
    rcases cutAt_newline text with ⟨line, rest, hline⟩ | ⟨-, -, hcut⟩ | ⟨hnot, -⟩
    · exact absurd hline (h line rest)
    · refine ⟨⟨ERR_CANDFMT, none, none, .null⟩, rfl, fun behind cd => Or.inl ?_⟩
      simp only [getcands, hcut, Option.bind_eq_bind, Option.bind_some]
      rfl
    · exact absurd hnul hnot
  | first h hnc =>
    refine ⟨⟨ERR_CANDFMT, none, none, .null⟩, rfl, fun behind cd => Or.inl ?_⟩
    simp only [getcands, (h.append behind).cutAt, hnc, Option.bind_eq_bind, Option.bind_some]
    rfl
  | @noSecond line rest h hnc h' hnul =>
    obtain ⟨⟨nc, s⟩, hnc⟩ := Option.isSome_iff_exists.1 hnc
    rcases cutAt_newline rest with ⟨line', rest', hline⟩ | ⟨-, -, hcut⟩ | ⟨hnot, -⟩
    · exact absurd hline (h' line' rest')
    · refine ⟨⟨ERR_CANDFMT, some nc, none, .null⟩, rfl, fun behind cd => Or.inl ?_⟩
      simp only [getcands, (h.append behind).cutAt, hnc, hcut, Option.bind_eq_bind, Option.bind_some]
      rfl
    · exact absurd hnul hnot
  | second h hnc h' hns =>
    obtain ⟨⟨nc, s⟩, hnc⟩ := Option.isSome_iff_exists.1 hnc
    refine ⟨⟨ERR_CANDFMT, some nc, none, .null⟩, rfl, fun behind cd => Or.inl ?_⟩
    simp only [getcands, (h.append behind).cutAt, hnc, (h'.append behind).cutAt, hns, Option.bind_eq_bind,
      Option.bind_some]
    rfl
  | @cands line rest line' rest' s nc h hnc h0 h' hns hcs hnul =>
    obtain ⟨⟨ns, s'⟩, hns⟩ := Option.isSome_iff_exists.1 hns
    obtain ⟨p, hperm, hget⟩ := getcands_lines h hnc h' hns h0 random
    refine ⟨⟨ERR_CANDFMT, some nc, some ns, .null⟩, rfl, fun behind cd => ?_⟩
    rw [hget]
    rcases candLoop_spec cd vf (lt_of_perm hperm) 0 (rest' ++ behind) with
      ⟨cs, rest₂, hlen, hleads, -⟩ | ⟨j, hj, h⟩ | ⟨-, h⟩ | ⟨hnot, -⟩
    · rw [hperm.length_eq, List.length_range] at hlen
      exact absurd ⟨cs, rest₂, hlen, hleads⟩ (not_separated_append hcs hnul behind)
    · rw [h]
      exact Or.inr ⟨j, _, hj, rfl, rfl⟩
    · rw [h]
      exact Or.inl rfl
    · exact absurd (List.mem_append_left _ hnul) hnot

/-- **What there is in front of the candidates**: the two numbers, or what is rejected, or the search goes on behind the
cells there are. -/
theorem getcands_cases (text : Str) :
    (∃ line rest nc s line' rest' ns s', HasLine text line rest ∧ scanInt line = some (nc, s) ∧
      HasLine rest line' rest' ∧ scanInt line' = some (ns, s')) ∨
    Rejected text ∨ ∀ random cd vf, getcands (some text) [] random cd vf = none := by
  rcases cutAt_newline text with ⟨line, rest, h⟩ | ⟨hno, hnul, -⟩ | ⟨-, hcut⟩
  · cases hnc : scanInt line with
    | none => exact Or.inr (Or.inl (.first h hnc))
    | some r =>
      rcases cutAt_newline rest with ⟨line', rest', h'⟩ | ⟨hno, hnul, -⟩ | ⟨-, hcut⟩
      · cases hns : scanInt line' with
        | none => exact Or.inr (Or.inl (.second h (by rw [hnc]; rfl) h' hns))
        | some r' => exact Or.inl ⟨line, rest, r.1, r.2, line', rest', r'.1, r'.2, h, hnc, h', hns⟩
      · exact Or.inr (Or.inl (.noSecond h (by rw [hnc]; rfl) hno hnul))
      · refine Or.inr (Or.inr fun random cd vf => ?_)
        simp only [getcands, List.append_nil, h.cutAt, hnc, hcut, Option.bind_eq_bind, Option.bind_some]
        rfl
  · exact Or.inr (Or.inl (.noFirst hno hnul))
  · refine Or.inr (Or.inr fun random cd vf => ?_)
    simp only [getcands, List.append_nil, hcut, Option.bind_eq_bind]
    rfl

theorem getcands_behind (text behind : Str) (random : ℕ → ℤ) (cd : ℕ → Bool) (vf : Option Str) :
    getcands (some text) behind random cd vf = getcands (some (text ++ behind)) [] random cd vf := by
  simp only [getcands, List.append_nil]

/-- the two numbers stand in front, and behind them as many candidates as the first of them says -/
structure Found (text : Str) (cs : List Cand) (line rest line' rest' t : Str) : Prop where
  first : HasLine text line rest
  count : (scanInt line).map Prod.fst = some (cs.length : ℤ)
  second : HasLine rest line' rest'
  leads : Leads cs t rest'

/-- **What comes of it**: the pointer is not set, or it is NULL since the file is rejected or `votedfor` fails, or there
is an array with the candidates found in slots of their own. -/
theorem getcands_outcome {random : ℕ → ℤ} {cd : ℕ → Bool} {vf : Option Str} {out : Cands}
    (hget : getcands (some text) [] random cd vf = some out) :
    out.clist = .unset ∨ (out.clist = .null ∧ (Rejected text ∨ ∃ i, cd i = false)) ∨
      ∃ cs line rest line' rest' t p, Found text cs line rest line' rest' t ∧ p.Perm (List.range cs.length) ∧
        out.ncands = some (cs.length : ℤ) ∧
        out.clist = .array (place p (cs.map (Cand.record vf)) (List.replicate cs.length none)) := by
  rcases getcands_cases text with ⟨line, rest, nc, s, line', rest', ns, s', h, hnc, h', hns⟩ | hrej | hoff
  · rcases lt_or_ge nc 0 with h0 | h0
    · rw [getcands_negative h hnc h' hns h0] at hget
      cases hget
      exact Or.inl rfl
    · obtain ⟨p, hperm, hloop⟩ := getcands_lines h hnc h' hns h0 random
      have hlength : p.length = nc.toNat := by rw [hperm.length_eq, List.length_range]
      rw [hloop, List.append_nil] at hget
      rcases candLoop_spec cd vf (lt_of_perm hperm) 0 rest' with
        ⟨cs, t, hlen, hleads, hcand⟩ | ⟨j, hj, hcand⟩ | ⟨hmem, hcand⟩ | ⟨-, hcand⟩
      · right; right
        rw [hcand] at hget
        cases hget
        rw [hlength] at hlen
        have hcount : nc = cs.length := by rw [hlen, Int.toNat_of_nonneg h0]
        refine ⟨cs, line, rest, line', rest', t, p, ⟨h, by rw [hnc, hcount]; rfl, h', hleads⟩, by rwa [hlen], ?_, ?_⟩
        · rw [hcount]
        · rw [hlen]
      · right; left
        rw [hcand] at hget
        cases hget
        exact ⟨rfl, Or.inr ⟨j, hj⟩⟩
      · right; left
        rw [hcand] at hget
        cases hget
        refine ⟨rfl, or_iff_not_imp_right.2 fun hcd => .cands h hnc h0 h' (by rw [hns]; rfl) ?_ hmem⟩
        intro hsep
        obtain ⟨cs, t, hlen, hleads⟩ := hsep
        have hall : ∀ j, cd j = true := fun j => Bool.of_not_eq_false fun hj => hcd ⟨j, hj⟩
        rw [candLoop_of_leads (lt_of_perm hperm) hleads (hlen.trans hlength.symm) 0 hall] at hcand
        cases hcand
      · rw [hcand] at hget
        cases hget
  · obtain ⟨out', hnull, hrun⟩ := getcands_of_rejected hrej random vf
    right; left
    refine ⟨?_, Or.inl hrej⟩
    rcases hrun [] cd with hrun | ⟨j, out'', -, hnull', hrun⟩
    · rw [hget] at hrun
      cases hrun
      exact hnull
    · rw [hget] at hrun
      cases hrun
      exact hnull'
  · rw [hoff] at hget
    cases hget

end Getcands

/-! ## Candidates are found in one way -/

section Unique

variable {head text line rest line' rest' : Str} {cs : List Cand}

theorem leads_unique {cs' : List Cand} (hlen : cs.length = cs'.length)
    (h : cs.flatMap Cand.text ++ rest = cs'.flatMap Cand.text ++ rest') : cs = cs' := by
  induction cs generalizing cs' with
  | nil => rw [List.length_eq_zero_iff.1 hlen.symm]
  | cons c cs ih =>
    obtain ⟨c', cs', rfl⟩ := List.exists_cons_of_length_eq_add_one hlen.symm
    have htext : ∀ (d : Cand) (ds : List Cand) (t : Str), (d :: ds).flatMap Cand.text ++ t =
        d.name ++ ':' :: (d.login ++ ':' :: (d.path ++ '\n' :: (ds.flatMap Cand.text ++ t))) := by
      intro d ds t
      simp [Cand.text]
    rw [htext, htext] at h
    obtain ⟨hname, hname'⟩ := append_cons_inj c.name_colon c'.name_colon h
    obtain ⟨hlogin, hlogin'⟩ := append_cons_inj c.login_colon c'.login_colon hname'
    obtain ⟨hpath, hrest⟩ := append_cons_inj c.path_newline c'.path_newline hlogin'
    have hcs : cs = cs' := ih (Nat.succ.inj hlen) hrest
    obtain ⟨name, login, path, h1, h2, h3⟩ := c
    obtain ⟨name', login', path', h1', h2', h3'⟩ := c'
    cases hname
    cases hlogin
    cases hpath
    rw [hcs]

/-- the two lines of a file that has the format, and what is behind them -/
theorem CandFormat.split (h : CandFormat head cs) (hpre : head <+: text) (hl : HasLine text line rest)
    (hl' : HasLine rest line' rest') : (scanInt line).map Prod.fst = some (cs.length : ℤ) ∧
      head = line ++ '\n' :: (line' ++ '\n' :: cs.flatMap Cand.text) ∧ ∃ t, rest' = cs.flatMap Cand.text ++ t := by
  obtain ⟨first, second, rfl, hfirst, hsecond, hnc, -⟩ := h.lines
  obtain ⟨t, ht⟩ := hpre
  rw [hl.eq, hl'.eq, List.append_assoc, List.cons_append, List.append_assoc, List.cons_append] at ht
  obtain ⟨hline, hfirst'⟩ := append_cons_inj hfirst hl.newline ht
  obtain ⟨hline', hsecond'⟩ := append_cons_inj hsecond hl'.newline hfirst'
  rw [← hline, ← hline']
  exact ⟨hnc, rfl, t, hsecond'.symm⟩

theorem Leads.of_concat {c : Char} (hc : c ≠ '\n') {m : Str} (h : Leads cs rest (m ++ [c])) :
    ∃ rest', Leads cs rest' m := by
  obtain ⟨heq, hnul⟩ := h
  rcases List.eq_nil_or_concat rest with rfl | ⟨rest', d, rfl⟩
  · rw [List.append_nil] at heq
    rcases List.eq_nil_or_concat cs with rfl | ⟨cs', d, rfl⟩
    · exact absurd heq (by simp)
    · rw [List.concat_eq_append, List.flatMap_append, List.flatMap_singleton, Cand.text] at heq
      have hcand : cs'.flatMap Cand.text ++ (d.name ++ ':' :: (d.login ++ ':' :: (d.path ++ ['\n']))) =
          cs'.flatMap Cand.text ++ (d.name ++ ':' :: (d.login ++ ':' :: d.path)) ++ ['\n'] := by simp
      rw [hcand] at heq
      exact absurd (List.singleton_inj.1 (List.append_inj' heq rfl).2) hc
  · rw [List.concat_eq_append, ← List.append_assoc] at heq
    exact ⟨rest', (List.append_inj' heq rfl).1, hnul⟩

theorem Separated.append {n : ℕ} (h : Separated n text) (behind : Str) : Separated n (text ++ behind) := by
  obtain ⟨cs, rest, hlen, rfl, hnul⟩ := h
  exact ⟨cs, rest ++ behind, hlen, by rw [List.append_assoc], hnul⟩

/-- what is rejected with a character behind it is rejected without it -/
theorem Rejected.of_concat {c : Char} (hc : c ≠ '\n') (hc' : c ≠ '\x00') (h : Rejected (text ++ [c])) :
    Rejected text := by
  have hnul : ∀ s : Str, '\x00' ∈ s ++ [c] → '\x00' ∈ s := by
    intro s hmem
    rcases List.mem_append.1 hmem with hmem | hmem
    · exact hmem
    · exact absurd (List.mem_singleton.1 hmem).symm hc'
  cases h with
  | noFirst h hmem => exact .noFirst (fun line rest hl => h line _ (hl.append [c])) (hnul _ hmem)
  | first h hnc =>
    obtain ⟨rest, -, hl⟩ := h.of_concat hc
    exact .first hl hnc
  | noSecond h hnc h' hmem =>
    obtain ⟨rest, rfl, hl⟩ := h.of_concat hc
    exact .noSecond hl hnc (fun line' rest' hl' => h' line' _ (hl'.append [c])) (hnul _ hmem)
  | second h hnc h' hns =>
    obtain ⟨rest, rfl, hl⟩ := h.of_concat hc
    obtain ⟨rest', -, hl'⟩ := h'.of_concat hc
    exact .second hl hnc hl' hns
  | cands h hnc h0 h' hns hcs hmem =>
    obtain ⟨rest, rfl, hl⟩ := h.of_concat hc
    obtain ⟨rest', rfl, hl'⟩ := h'.of_concat hc
    exact .cands hl hnc h0 hl' hns (fun hsep => hcs (hsep.append [c])) (hnul _ hmem)

end Unique

/-! ## Which files are read right -/

/-- a file that is clean is read as it is written, whatever stands behind it -/
theorem getcands_of_clean {text : Str} (h : CleanFormat text) (random : ℕ → ℤ) (vf : Option Str) :
    ∃ out slots, out.clist = .array slots ∧ FromLines vf text slots ∧
      ∀ behind, getcands (some text) behind random (fun _ => true) vf = some out := by
  obtain ⟨head, cs, hpre, hformat, hnul⟩ := h
  obtain ⟨first, second, rfl, hfirst, hsecond, hnc, hns⟩ := hformat.lines
  obtain ⟨t, rfl⟩ := id hpre
  obtain ⟨⟨nc, s⟩, hscan, hcs⟩ := Option.map_eq_some_iff.1 hnc
  obtain ⟨⟨ns, s'⟩, hscan'⟩ := Option.isSome_iff_exists.1 hns
  obtain rfl : nc = cs.length := hcs
  simp only [List.mem_append, List.mem_cons, not_or] at hnul
  have hline : HasLine (first ++ '\n' :: (second ++ '\n' :: cs.flatMap Cand.text) ++ t) first
      (second ++ '\n' :: (cs.flatMap Cand.text ++ t)) := ⟨by simp, hfirst, hnul.1⟩
  have hline' : HasLine (second ++ '\n' :: (cs.flatMap Cand.text ++ t)) second (cs.flatMap Cand.text ++ t) :=
    ⟨rfl, hsecond, hnul.2.2.1⟩
  obtain ⟨p, hperm, hget⟩ := getcands_lines hline hscan hline' hscan' (Int.natCast_nonneg _) random
  rw [Int.toNat_natCast] at hperm hget
  refine ⟨⟨0, some cs.length, some ns, .array (place p (cs.map (Cand.record vf)) (List.replicate cs.length none))⟩, _,
    rfl, ⟨_, cs, hpre, hformat, ?_⟩, fun behind => ?_⟩
  · have hlength : (cs.map (Cand.record vf)).length = cs.length := List.length_map _
    have hempty : (List.replicate cs.length (none : Option CandRec)).length = cs.length := List.length_replicate
    have hplace := place_perm hperm hlength hempty
    rwa [List.map_map] at hplace
  · have hlen : cs.length = p.length := by rw [hperm.length_eq, List.length_range]
    rw [hget, candLoop_of_leads (lt_of_perm hperm) ⟨List.append_assoc _ _ _, hnul.2.2.2.2⟩ hlen 0 fun _ => rfl]
    rfl

/-- if the candidates of a well-formed file are found, whatever is behind it, there is no NUL up to their end -/
theorem clean_of_found {text line rest line' rest' t : Str} {cs : List Cand} (hw : WellFormed text)
    (h : Found (text ++ ['x']) cs line rest line' rest' t) : CleanFormat text := by
  obtain ⟨rest, rfl, hl⟩ := h.first.of_concat (by decide)
  obtain ⟨rest', rfl, hl'⟩ := h.second.of_concat (by decide)
  obtain ⟨t', hrest', hnul⟩ := h.leads.of_concat (by decide)
  obtain ⟨head, cs', hpre, hformat⟩ := hw
  obtain ⟨hlen', hhead, t'', hrest''⟩ := hformat.split hpre hl hl'
  have hlen : cs'.length = cs.length := Int.ofNat.inj (Option.some.inj (hlen'.symm.trans h.count))
  have hcs : cs' = cs := leads_unique hlen (hrest''.symm.trans hrest')
  refine ⟨head, cs', hpre, hformat, ?_⟩
  rw [hhead, hcs]
  simp [hl.nul, hl'.nul, hnul]

theorem candsRight_iff (text : Str) : CandsRight text ↔ CleanFormat text ∨ (¬ WellFormed text ∧ Rejected text) := by
  constructor
  · intro hright
    obtain ⟨out, hout, hwell, hill⟩ := hright (fun _ => 0) none
    have hget := hout 'x' []
    rw [getcands_behind] at hget
    rcases getcands_outcome hget with
      hunset | ⟨hnull, hrej⟩ | ⟨cs, line, rest, line', rest', t, p, hfound, -, -, harray⟩
    · by_cases hw : WellFormed text
      · obtain ⟨slots, hslots, -⟩ := hwell hw
        cases hunset.symm.trans hslots
      · cases hunset.symm.trans (hill hw)
    · right
      refine ⟨fun hw => ?_, ?_⟩
      · obtain ⟨slots, hslots, -⟩ := hwell hw
        cases hnull.symm.trans hslots
      · rcases hrej with hrej | ⟨j, hj⟩
        · exact hrej.of_concat (by decide) (by decide)
        · cases hj
    · left
      have hw : WellFormed text := by
        by_contra hw
        cases harray.symm.trans (hill hw)
      exact clean_of_found hw hfound
  · intro hx
    rcases hx with hclean | ⟨hill, hrej⟩
    · intro random vf
      obtain ⟨out, slots, hslots, hfrom, hget⟩ := getcands_of_clean hclean random vf
      refine ⟨out, fun c beyond => hget (c :: beyond), fun _ => ⟨slots, hslots, hfrom⟩, fun hill => ?_⟩
      obtain ⟨head, cs, hpre, hformat, -⟩ := hclean
      exact absurd ⟨head, cs, hpre, hformat⟩ hill
    · intro random vf
      obtain ⟨out, hnull, hget⟩ := getcands_of_rejected hrej random vf
      refine ⟨out, fun c beyond => ?_, fun hw => absurd hw hill, fun _ => hnull⟩
      rcases hget (c :: beyond) (fun _ => true) with hget | ⟨j, out', hj, -⟩
      · exact hget
      · cases hj

/-! ## Main results -/

/-- **Reading the candidates.** `getcands` gives an array for files that have the format and for no others, with the
records of the candidates and whatever stands behind the file, exactly if the file has the format without a NUL, or does
not have it and is rejected before its end. -/
theorem getcands_right_iff (text : Str) : CandsRight text ↔ CleanFormat text ∨ (¬ WellFormed text ∧ Rejected text) :=
  candsRight_iff text

/-- `2`, `1`, `Ann ann:p`, `Bob:bob:q`, `Cat:cat:r` -/
def oneColon : Str :=
  unlines [['2'], ['1'], ['A', 'n', 'n', ' ', 'a', 'n', 'n', ':', 'p'], ['B', 'o', 'b', ':', 'b', 'o', 'b', ':', 'q'],
    ['C', 'a', 't', ':', 'c', 'a', 't', ':', 'r']]

/-- `1`, `1`, `Ann:ann:p`, without a newline at the end -/
def noNewline : Str := ['1', '\n', '1', '\n', 'A', 'n', 'n', ':', 'a', 'n', 'n', ':', 'p']

/-- **A colon is missing, or the last newline.** The first candidate takes the colon of the next line, and one is lost;
and whether there is an array depends on what stands behind the file. -/
theorem colon_of_next_line :
    (getcands (some oneColon) ['\x00'] Int.ofNat (fun _ => true) none = some ⟨0, some 2, some 1, .array
      [some ⟨['A', 'n', 'n', ' ', 'a', 'n', 'n'], ['p', '\n', 'B', 'o', 'b'], ['b', 'o', 'b', ':', 'q'], false⟩,
        some ⟨['C', 'a', 't'], ['c', 'a', 't'], ['r'], false⟩]⟩ ∧ ¬ CandsRight oneColon) ∧
    ((getcands (some noNewline) ['\n'] Int.ofNat (fun _ => true) none).map Cands.clist =
        some (.array [some ⟨['A', 'n', 'n'], ['a', 'n', 'n'], ['p'], false⟩]) ∧
      (getcands (some noNewline) ['\x00'] Int.ofNat (fun _ => true) none).map Cands.clist = some .null ∧
      ¬ CandsRight noNewline) := by
  have hcolon : getcands (some oneColon) ['\x00'] Int.ofNat (fun _ => true) none = some ⟨0, some 2, some 1, .array
      [some ⟨['A', 'n', 'n', ' ', 'a', 'n', 'n'], ['p', '\n', 'B', 'o', 'b'], ['b', 'o', 'b', ':', 'q'], false⟩,
        some ⟨['C', 'a', 't'], ['c', 'a', 't'], ['r'], false⟩]⟩ := by decide +kernel
  have harray : (getcands (some noNewline) ['\n'] Int.ofNat (fun _ => true) none).map Cands.clist =
      some (.array [some ⟨['A', 'n', 'n'], ['a', 'n', 'n'], ['p'], false⟩]) := by decide
  have hnull : (getcands (some noNewline) ['\x00'] Int.ofNat (fun _ => true) none).map Cands.clist = some .null := by
    decide
  refine ⟨⟨hcolon, fun hright => ?_⟩, harray, hnull, fun hright => ?_⟩
  · obtain ⟨out, hout, -, hill⟩ := hright Int.ofNat none
    rw [hout] at hcolon
    cases hcolon
    have hw : WellFormed oneColon := by
      by_contra hw
      cases hill hw
    obtain ⟨head, cs, hpre, hformat⟩ := hw
    have hline : HasLine oneColon ['2'] (oneColon.drop 2) := ⟨by decide, by decide, by decide⟩
    have hline' : HasLine (oneColon.drop 2) ['1'] (oneColon.drop 4) := ⟨by decide, by decide, by decide⟩
    obtain ⟨hlen, -, t, ht⟩ := hformat.split hpre hline hline'
    let ann : Cand := ⟨['A', 'n', 'n', ' ', 'a', 'n', 'n'], ['p', '\n', 'B', 'o', 'b'], ['b', 'o', 'b', ':', 'q'],
      by decide, by decide, by decide⟩
    let cat : Cand := ⟨['C', 'a', 't'], ['c', 'a', 't'], ['r'], by decide, by decide, by decide⟩
    have hcands : oneColon.drop 4 = [ann, cat].flatMap Cand.text ++ [] := by decide
    have hcs : cs = [ann, cat] := by
      refine leads_unique ?_ (ht.symm.trans hcands)
      have hscan : (scanInt ['2']).map Prod.fst = some 2 := by decide
      rw [hscan, Option.some_inj] at hlen
      rw [List.length_cons, List.length_singleton]
      omega
    have hlogin := (hformat.one_line _ (by rw [hcs]; exact List.mem_cons_self)).2
    exact absurd hlogin (by decide)
  · obtain ⟨out, hout, -⟩ := hright Int.ofNat none
    rw [hout, Option.map_some] at harray hnull
    rw [harray] at hnull
    cases hnull

end MNetSoft.Vote
