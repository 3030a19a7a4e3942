/-
The list of the ten wealthiest customers that `wealthy()` of `bank.c` makes while it reads the bank file: an insertion
sort into a table of ten, which is not initialised (`rich` is what is on the stack). A read or write outside of the
table is undefined (`none`).
- `shift_spec`: the loop that makes room for an account.
- `place_spec`: the accounts of the table and a new one, sorted, without the last if there are more than ten.
- `wealthy_correct`: the table holds the largest accounts in order.
-/
import Mathlib.Tactic
import MNetSoft.Bank.Records

namespace MNetSoft.Bank

/-! ## Model -/

abbrev Rich := ℕ × ℤ

def putRich (rich : List Rich) (i : ℕ) (r : Rich) : Option (List Rich) :=
  if i < rich.length then some (rich.set i r) else none

/-- `for (i = n; i > 0 && new > rich[i - 1].bucks; i--)`: where the loop stops, and the table -/
def shift (new : ℤ) : ℕ → List Rich → Option (ℕ × List Rich)
  | 0, rich => some (0, rich)
  | i + 1, rich => do
    let r ← rich[i]?
    if new > r.2 then do
      let rich ← if i + 1 < 10 then putRich rich (i + 1) r else some rich
      shift new i rich
    else some (i + 1, rich)

/-- put an account into its place: the number of entries and the table -/
def place (cuid : ℕ) (new : ℤ) (n : ℕ) (rich : List Rich) : Option (ℕ × List Rich) := do
  let (i, rich) ← shift new n rich
  if i < 10 then do
    let rich ← putRich rich i (cuid, new)
    some (if n < 10 then n + 1 else n, rich)
  else some (n, rich)

/-- the scan loop over the records from uid `cuid` on -/
def richLoop : List ℤ → ℕ → ℕ → List Rich → Option (ℕ × List Rich)
  | [], _, n, rich => some (n, rich)
  | new :: rest, cuid, n, rich =>
    if new.tmod 2 = 0 then richLoop rest (cuid + 1) n rich
    else do
      let (n, rich) ← place cuid (wealthyBucks new) n rich
      richLoop rest (cuid + 1) n rich

/-- what `wealthy()` lists: nothing if there is no record at all -/
def wealthy (bf : BankFile) (rich : List Rich) : Option (ℕ × List Rich) :=
  match bf with
  | [] => some (0, rich)
  | new :: rest => do
    let rich ← putRich rich 0 (0, new)
    richLoop rest 1 0 rich

/-! ## Making room -/

/-- **Making room.** The accounts below the new one move up by one place, the last of ten is lost. -/
theorem shift_spec {new : ℤ} {l₁ l₂ : List Rich} (hl₁ : ∀ r ∈ l₁.getLast?, new ≤ r.2) (hl₂ : ∀ r ∈ l₂, r.2 < new)
    {t : List Rich} (hlen : l₁.length + l₂.length + t.length = 10) :
    ∃ t', shift new (l₁.length + l₂.length) (l₁ ++ l₂ ++ t) = some (l₁.length, l₁ ++ t') ∧
      t'.length = l₂.length + t.length ∧ t'.drop 1 = (l₂ ++ t.drop 1).take (l₂.length + t.length - 1) := by
  induction l₂ using List.reverseRecOn generalizing t with
  | nil =>
    refine ⟨t, ?_, by simp, by simp⟩
    rw [List.append_nil, List.length_nil, Nat.add_zero]
    rcases List.eq_nil_or_concat l₁ with rfl | ⟨l, r, rfl⟩
    · rfl
    · have hr := hl₁ r (by simp)
      simp [shift, not_lt.2 hr]
  | append_singleton l₂ r ih =>
    have hr : new > r.2 := hl₂ r (by simp)
    have hl₂' : ∀ r ∈ l₂, r.2 < new := fun b hb => hl₂ b (List.mem_append_left _ hb)
    have hread : (l₁ ++ (l₂ ++ [r]) ++ t)[l₁.length + l₂.length]? = some r := by
      rw [← List.length_append, ← List.append_assoc, List.append_assoc (l₁ ++ l₂), List.getElem?_append_right le_rfl,
        Nat.sub_self]
      rfl
    rw [List.length_append, List.length_singleton] at hlen
    rw [List.length_append, List.length_singleton, ← Nat.add_assoc, shift, hread, Option.bind_eq_bind, Option.bind_some,
      if_pos hr]
    cases t with
    | nil =>
      -- the last of ten
      obtain ⟨t', hshift, hlen', hdrop⟩ := ih hl₂' (t := [r]) (by simp at hlen ⊢; omega)
      refine ⟨t', ?_, by simpa using hlen', ?_⟩
      · rw [if_neg (by simp at hlen; omega), Option.bind_eq_bind, Option.bind_some, List.append_nil,
          ← List.append_assoc]
        exact hshift
      · rw [hdrop]
        simp
    | cons c t =>
      obtain ⟨t', hshift, hlen', hdrop⟩ := ih hl₂' (t := r :: r :: t) (by simp at hlen ⊢; omega)
      refine ⟨t', ?_, by simp at hlen' ⊢; omega, ?_⟩
      · have hput : putRich (l₁ ++ (l₂ ++ [r]) ++ c :: t) (l₁.length + l₂.length + 1) r =
            some (l₁ ++ l₂ ++ r :: r :: t) := by
          rw [putRich, if_pos (by simp; omega)]
          congr 1
          have hfront : l₁ ++ (l₂ ++ [r]) ++ c :: t = (l₁ ++ l₂ ++ [r]) ++ c :: t := by simp
          have hset : l₁.length + l₂.length + 1 = (l₁ ++ l₂ ++ [r]).length := by simp; omega
          rw [hfront, hset, List.set_append_right _ _ le_rfl, Nat.sub_self]
          simp
        rw [if_pos (by simp at hlen; omega), hput, Option.bind_eq_bind, Option.bind_some]
        exact hshift
      · have hmoved : l₂ ++ (r :: r :: t).drop 1 = l₂ ++ [r] ++ (c :: t).drop 1 := by simp
        rw [hdrop, hmoved]
        congr 1
        simp
        omega

/-- **Placing an account.** It comes behind the accounts with at least as much; the last of eleven is lost. -/
theorem place_spec {cuid : ℕ} {new : ℤ} {l₁ l₂ : List Rich} (hl₁ : ∀ r ∈ l₁.getLast?, new ≤ r.2)
    (hl₂ : ∀ r ∈ l₂, r.2 < new) {t : List Rich} (hlen : l₁.length + l₂.length + t.length = 10) :
    ∃ rich, place cuid new (l₁.length + l₂.length) (l₁ ++ l₂ ++ t) =
        some (min 10 (l₁.length + l₂.length + 1), rich) ∧ rich.length = 10 ∧
      rich.take (min 10 (l₁.length + l₂.length + 1)) = (l₁ ++ (cuid, new) :: l₂).take 10 := by
  obtain ⟨t', hshift, hlen', hdrop⟩ := shift_spec hl₁ hl₂ hlen
  rw [place, hshift, Option.bind_eq_bind, Option.bind_some]
  dsimp only
  rcases Nat.lt_or_ge l₁.length 10 with hlt | hge
  · obtain ⟨r, t', rfl⟩ : ∃ r s, t' = r :: s := List.exists_cons_of_length_pos (by omega)
    rw [List.drop_one, List.tail_cons] at hdrop
    have hput : putRich (l₁ ++ r :: t') l₁.length (cuid, new) = some (l₁ ++ (cuid, new) :: t') := by
      rw [putRich, if_pos (by simp), List.set_append_right _ _ le_rfl, Nat.sub_self]
      rfl
    have hcount : (if l₁.length + l₂.length < 10 then l₁.length + l₂.length + 1 else l₁.length + l₂.length) =
        min 10 (l₁.length + l₂.length + 1) := by
      split_ifs <;> omega
    rw [if_pos hlt, hput, Option.bind_eq_bind, Option.bind_some, hcount]
    refine ⟨_, rfl, by simp at hlen' ⊢; omega, ?_⟩
    have htable : l₁ ++ (cuid, new) :: t' = (l₁ ++ (cuid, new) :: l₂ ++ t.drop 1).take 10 := by
      have hroom : 10 - l₁.length = l₂.length + t.length - 1 + 1 := by simp at hlen'; omega
      rw [List.append_assoc, List.take_append, List.take_of_length_le hlt.le, List.cons_append, hroom,
        List.take_succ_cons, hdrop]
    have hsize : (l₁ ++ (cuid, new) :: l₂).length = l₁.length + l₂.length + 1 := by simp; omega
    rw [htable, List.take_take, min_eq_left (min_le_left _ _), List.take_append_of_le_length (by omega)]
    rcases Nat.le_total 10 (l₁.length + l₂.length + 1) with hfull | hroom
    · rw [min_eq_left hfull]
    · rw [min_eq_right hroom, List.take_of_length_le hsize.le, List.take_of_length_le (hsize.le.trans hroom)]
  · -- the new account is the smallest of eleven
    obtain rfl : l₂ = [] := List.eq_nil_of_length_eq_zero (by omega)
    obtain rfl : t = [] := List.eq_nil_of_length_eq_zero (by omega)
    have hten : l₁.length = 10 := by simpa using hlen
    obtain rfl : t' = [] := List.eq_nil_of_length_eq_zero hlen'
    rw [if_neg (by omega)]
    exact ⟨l₁ ++ [], by simp [hten], by simp [hten], by simp [hten]⟩

/-! ## The table -/

/-- an account comes before another in the table: it is larger, or as large and of a smaller uid -/
def Before (a b : Rich) : Prop := b.2 < a.2 ∨ (b.2 = a.2 ∧ a.1 < b.1)

/-- the table holds the first ten accounts of those that have been scanned, in order -/
structure Holds (scanned : List Rich) (n : ℕ) (rich : List Rich) : Prop where
  length : rich.length = 10
  count : n = min 10 scanned.length
  sorted : ∃ rest, (rich.take n ++ rest).Perm scanned ∧ (rich.take n ++ rest).Pairwise Before

theorem exists_place (uid : ℕ) (b : ℤ) {l : List Rich} (hl : l.Pairwise Before) (huid : ∀ r ∈ l, r.1 < uid) :
    ∃ l₁ l₂, l = l₁ ++ l₂ ∧ (∀ r ∈ l₁, b ≤ r.2) ∧ (∀ r ∈ l₂, r.2 < b) ∧ (l₁ ++ (uid, b) :: l₂).Pairwise Before := by
  induction l with
  | nil => exact ⟨[], [], rfl, by simp, by simp, List.pairwise_singleton _ _⟩
  | cons a l ih =>
    obtain ⟨ha, hl'⟩ := List.pairwise_cons.1 hl
    obtain ⟨hua, hul⟩ := List.forall_mem_cons.1 huid
    rcases lt_or_ge a.2 b with hlt | hge
    · -- all others are smaller still
      have hsmall : ∀ r ∈ a :: l, r.2 < b := by
        intro r hr
        rcases List.mem_cons.1 hr with rfl | hr
        · exact hlt
        · rcases ha r hr with h | h
          · exact h.trans hlt
          · omega
      exact ⟨[], a :: l, rfl, by simp, hsmall, List.pairwise_cons.2 ⟨fun r hr => Or.inl (hsmall r hr), hl⟩⟩
    · obtain ⟨l₁, l₂, rfl, h₁, h₂, hsorted⟩ := ih hl' hul
      refine ⟨a :: l₁, l₂, rfl, List.forall_mem_cons.2 ⟨hge, h₁⟩, h₂, List.pairwise_cons.2 ⟨?_, hsorted⟩⟩
      intro r hr
      rcases List.mem_append.1 hr with hr | hr
      · exact ha r (List.mem_append_left _ hr)
      · rcases List.mem_cons.1 hr with rfl | hr
        · unfold Before
          dsimp only
          omega
        · exact ha r (List.mem_append_right _ hr)

/-- **Step.** A record is scanned. -/
theorem Holds.place {scanned : List Rich} {n : ℕ} {rich : List Rich} (h : Holds scanned n rich) {cuid : ℕ}
    (huid : ∀ r ∈ scanned, r.1 < cuid) (new : ℤ) :
    ∃ n' rich', Bank.place cuid new n rich = some (n', rich') ∧ Holds (scanned ++ [(cuid, new)]) n' rich' := by
  obtain ⟨hlen, hn, rest, hperm, hsorted⟩ := h
  have htake : (rich.take n).length = n := by
    rw [List.length_take]
    omega
  have hcount : n + rest.length = scanned.length := by
    have := hperm.length_eq
    rwa [List.length_append, htake] at this
  obtain ⟨l₁, l₂, hsplit, hge, hlt, hsorted'⟩ :=
    exists_place cuid new hsorted fun r hr => huid r (hperm.subset hr)
  have hperm' : (l₁ ++ (cuid, new) :: l₂).Perm (scanned ++ [(cuid, new)]) := by
    rw [hsplit] at hperm
    calc List.Perm _ ((cuid, new) :: (l₁ ++ l₂)) := List.perm_middle
      List.Perm _ ((cuid, new) :: scanned) := hperm.cons _
      List.Perm _ (scanned ++ [(cuid, new)]) := (List.perm_append_singleton _ _).symm
  have hn' : min 10 (n + 1) = min 10 (scanned ++ [(cuid, new)]).length := by
    rw [List.length_append, List.length_singleton]
    omega
  have hroom : n + (rich.drop n).length = 10 := by
    rw [List.length_drop]
    omega
  -- the new account comes in the table, or behind it
  have hcases : (∃ l, rich.take n = l₁ ++ l ∧ l₂ = l ++ rest) ∨
      ∃ l, l ≠ [] ∧ l₁ = rich.take n ++ l ∧ rest = l ++ l₂ := by
    rcases List.append_eq_append_iff.1 hsplit with ⟨l, rfl, rfl⟩ | h
    · rcases eq_or_ne l [] with rfl | hne
      · exact Or.inl ⟨[], by simp, rfl⟩
      · exact Or.inr ⟨l, hne, rfl, rfl⟩
    · exact Or.inl h
  rcases hcases with ⟨l, htable, rfl⟩ | ⟨l, hne, rfl, rfl⟩
  · have hsize : l₁.length + l.length = n := by rw [← List.length_append, ← htable, htake]
    have hall : l₁ ++ l ++ rich.drop n = rich := by rw [← htable, List.take_append_drop]
    obtain ⟨rich', hplace, hlen', htake'⟩ := @place_spec cuid _ _ _ (fun r hr => hge r (List.mem_of_getLast? hr))
      (fun r hr => hlt r (List.mem_append_left _ hr)) (rich.drop n) (by rw [hsize]; exact hroom)
    rw [hall, hsize] at hplace
    rw [hsize] at htake'
    refine ⟨_, rich', hplace, hlen', hn', (l₁ ++ (cuid, new) :: l).drop 10 ++ rest, ?_⟩
    rw [htake', ← List.append_assoc, List.take_append_drop, List.append_assoc, List.cons_append]
    exact ⟨hperm', hsorted'⟩
  · have hten : n = 10 := by
      have := List.length_pos_of_ne_nil hne
      rw [List.length_append] at hcount
      omega
    have hall : rich.take n ++ [] ++ rich.drop n = rich := by rw [List.append_nil, List.take_append_drop]
    obtain ⟨rich', hplace, hlen', htake'⟩ := @place_spec cuid new (rich.take n) []
      (fun r hr => hge r (List.mem_append_left _ (List.mem_of_getLast? hr))) (fun r hr => by cases hr) (rich.drop n)
      (by rw [List.length_nil, htake]; exact hroom)
    rw [hall, List.length_nil, htake] at hplace
    rw [List.length_nil, htake, Nat.add_zero] at htake'
    have hsame : (rich.take n ++ [(cuid, new)]).take 10 = rich.take n := by
      rw [List.take_append_of_le_length (by rw [htake, hten]), List.take_of_length_le (by rw [htake, hten])]
    refine ⟨_, rich', hplace, hlen', hn', l ++ (cuid, new) :: l₂, ?_⟩
    rw [Nat.add_zero, htake', hsame, ← List.append_assoc]
    exact ⟨hperm', hsorted'⟩

theorem richLoop_spec {rest : List ℤ} {cuid n : ℕ} {rich scanned : List Rich} (h : Holds scanned n rich)
    (huid : ∀ r ∈ scanned, r.1 < cuid) :
    ∃ n' rich', richLoop rest cuid n rich = some (n', rich') ∧ Holds (scanned ++ (rest.zipIdx cuid).filterMap
      fun (new, cuid) => if new.tmod 2 = 0 then none else some (cuid, wealthyBucks new)) n' rich' := by
  induction rest generalizing cuid n rich scanned with
  | nil =>
    refine ⟨n, rich, rfl, ?_⟩
    rwa [List.zipIdx_nil, List.filterMap_nil, List.append_nil]
  | cons new rest ih =>
    rw [richLoop, List.zipIdx_cons, List.filterMap_cons]
    split_ifs with hodd
    · simp only [hodd, if_true]
      exact ih h fun r hr => (huid r hr).trans (Nat.lt_succ_self _)
    · simp only [hodd, if_false]
      obtain ⟨n₁, rich₁, hplace, h₁⟩ := h.place huid (wealthyBucks new)
      obtain ⟨n', rich', hloop, h'⟩ := @ih (cuid + 1) _ _ _ h₁ (by
        intro r hr
        rcases List.mem_append.1 hr with hr | hr
        · exact (huid r hr).trans (Nat.lt_succ_self _)
        · rw [List.mem_singleton.1 hr]
          exact Nat.lt_succ_self _)
      refine ⟨n', rich', ?_, ?_⟩
      · rw [hplace, Option.bind_eq_bind, Option.bind_some]
        exact hloop
      · rwa [List.append_assoc, List.singleton_append] at h'

/-- **The ten wealthiest.** Whatever is in the bank file and on the stack, `wealthy()` stays in its table, and the table
ends with the largest accounts but that of uid 0 in order, ten or as many as there are, each with its own balance. -/
theorem wealthy_correct (bf : BankFile) (stack : Fin 10 → Rich) :
    ∃ n rich, wealthy bf (List.ofFn stack) = some (n, rich) ∧ Holds (wealthyScan bf) n rich ∧
      ∀ uid b, (uid, b) ∈ rich.take n → uid ≠ 0 ∧ record bf uid = openRecord b := by
  have hscan : ∃ n rich, wealthy bf (List.ofFn stack) = some (n, rich) ∧ Holds (wealthyScan bf) n rich := by
    cases bf with
    | nil => exact ⟨0, _, rfl, List.length_ofFn, rfl, [], List.Perm.refl _, List.Pairwise.nil⟩
    | cons new rest =>
      have hput : putRich (List.ofFn stack) 0 (0, new) = some ((List.ofFn stack).set 0 (0, new)) :=
        if_pos (by rw [List.length_ofFn]; norm_num)
      have hstart : Holds [] 0 ((List.ofFn stack).set 0 (0, new)) :=
        ⟨by rw [List.length_set, List.length_ofFn], rfl, [], by simp, by simp⟩
      rw [wealthy, hput, Option.bind_eq_bind, Option.bind_some]
      exact richLoop_spec hstart fun r hr => by cases hr
  obtain ⟨n, rich, hwealthy, h⟩ := hscan
  refine ⟨n, rich, hwealthy, h, fun uid b hmem => (mem_wealthyScan bf uid b).1 ?_⟩
  obtain ⟨rest, hperm, -⟩ := h.sorted
  exact hperm.subset (List.mem_append_left _ hmem)

end MNetSoft.Bank
