/-
`setquota`, which sets the quota of the users that the lines of its input name (`setquota.c`). A line has six fields:
the user, the file system, two limits of blocks and two of inodes, the hard one first.

`parseline` is to accept a line if it has six fields. It looks at the cursor of `strsep` when it has six: nothing may be
behind them then except the one character that ended the last one. If there was none, the cursor is null and the program
reads what is there (a fault). The numbers are read as signed ones and stored in unsigned types.
- `parseline_iff`: which lines with six fields are accepted.
- `estrtou_eq`: which numbers are read, and as what.
- `setquota_right_iff`: a line with six fields is treated as it should be if and only if one character is behind them
  and it ends in `fatal`, or its limits are not negative, the last two being less than 2^32, and `quotactl` sets them.
- `unlimited`: a line with a negative number, which has a limit of 2^32 - 1 set.
-/
import Mathlib.Tactic
import Mathlib.Data.BitVec
import Mathlib.Data.List.DropRight
import MNetSoft.Core.CString
import MNetSoft.Core.Numerals
import MNetSoft.Core.Words

namespace MNetSoft.Pnewuser.Setquota

open MNetSoft.CString MNetSoft.Numerals MNetSoft.Words

/-! ## Model -/

/-- the text up to the next delimiter, and what is behind it -/
def strsep : Option Str → Option (Str × Option Str)
  | none => none
  | some s =>
    some (s.takeWhile fun c => !isspace c,
      match s.dropWhile fun c => !isspace c with
      | [] => none
      | _ :: s => some s)

/-- the loop of `parseline`, `k` being how many fields are missing and `fuel` bounding its rounds: the fields, and the
cursor -/
def parseLoop : ℕ → ℕ → Option Str → List Str × Option Str
  | 0, _, s => ([], s)
  | _ + 1, 0, s => ([], s)
  | fuel + 1, k + 1, s =>
    match strsep s with
    | none => ([], none)
    | some (v, s) =>
      if v = [] then parseLoop fuel (k + 1) s
      else
        let (argv, s) := parseLoop fuel k s
        (v :: argv, s)

/-- whether the line is accepted, and its fields; `none` if the null pointer is followed -/
def parseline (line : Str) : Option (Bool × List Str) :=
  let (argv, s) := parseLoop (line.length + 2) 6 (some line)
  if argv.length = 6 then
    match s with
    | none => none
    | some s => some (decide (s = []), argv)
  else some (false, argv)

/-- what a call of `quotactl` is about; the limits are those of a `struct dqblk`, its other fields are not touched -/
inductive Quotactl where
  | getquota (device : Str) (uid : ℕ)
  | setquota (device : Str) (uid : ℕ) (bhardlimit bsoftlimit : BitVec 64) (ihardlimit isoftlimit : BitVec 32)
deriving DecidableEq

/-- a number of `w` bits, or the message of `fatal` -/
def estrtou (w : ℕ) (str : Str) : Except Str (BitVec w) :=
  let (r, e, errno) := strtoll str
  if e ≠ [] ∨ r = 0 ∧ errno = some .EINVAL ∨ (r = -2 ^ 63 ∨ r = 2 ^ 63 - 1) ∧ errno = some .ERANGE then
    .error ("Poorly formatted unsigned integer \"".toList ++ str ++ "\".\n".toList)
  else .ok (BitVec.ofInt w r)

def estrtou64 (str : Str) : Except Str (BitVec 64) := estrtou 64 str

/-- a long has 64 bits -/
def estrtou32 (str : Str) : Except Str (BitVec 32) := estrtou 32 str

/-- the calls of `quotactl`, and whether they succeed; the second is made also if the first fails, and a failure is
reported only -/
def setquota (quotactl : Quotactl → Bool) (device : Str) (user : ℕ) (hard soft : BitVec 64) (ihard isoft : BitVec 32) :
    List (Quotactl × Bool) :=
  [.getquota device user, .setquota device user hard soft ihard isoft].map fun call => (call, quotactl call)

/-- what is outside the program -/
structure Machine where
  /-- the user id of a login -/
  getpwnam : Str → Option ℕ
  quotactl : Quotactl → Bool

/-- what is done for a line, or the message of `fatal` -/
def dosetquota (m : Machine) (argv : List Str) : Except Str (List (Quotactl × Bool)) := do
  let user := argv.getD 0 []
  let device := argv.getD 1 []
  let hard ← estrtou64 (argv.getD 2 [])
  let soft ← estrtou64 (argv.getD 3 [])
  let ihard ← estrtou32 (argv.getD 4 [])
  let isoft ← estrtou32 (argv.getD 5 [])
  match m.getpwnam user with
  | none => .error ("Unknown user ".toList ++ user ++ ".\n".toList)
  | some uid => .ok (setquota m.quotactl device uid hard soft ihard isoft)

/-! ## What a line says -/

def fields (line : Str) : List Str := wordsBy isspace line

/-- these limits are set, as unsigned numbers, for the user and the file system of the first two fields -/
def Sets (m : Machine) (fs : List Str) (calls : List (Quotactl × Bool)) : Prop :=
  ∃ uid bhard bsoft ihard isoft, m.getpwnam (fs.getD 0 []) = some uid ∧
    (.setquota (fs.getD 1 []) uid bhard bsoft ihard isoft, true) ∈ calls ∧
      (∀ c ∈ calls, c.1 = .getquota (fs.getD 1 []) uid ∨
        c.1 = .setquota (fs.getD 1 []) uid bhard bsoft ihard isoft) ∧
      (fs.drop 2).map number =
        [some (bhard.toNat : ℤ), some (bsoft.toNat : ℤ), some (ihard.toNat : ℤ), some (isoft.toNat : ℤ)]

/-- what is accepted is what has six fields, and then the limits are set to their numbers, or nothing is called -/
def Right (m : Machine) (line : Str) : Prop :=
  ((∃ argv, parseline line = some (true, argv)) ↔ (fields line).length = 6) ∧
  ∀ argv, parseline line = some (true, argv) →
    (∃ message, dosetquota m argv = .error message) ∨
    ∃ calls, dosetquota m argv = .ok calls ∧ Sets m (fields line) calls

/-- a number that fits in a long long -/
def Readable (s : Str) : Prop := ∃ v ∈ number s, -2 ^ 63 ≤ v ∧ v < 2 ^ 63

/-- a field that `fatal` is about -/
def Fatal (m : Machine) (fs : List Str) : Prop := m.getpwnam (fs.getD 0 []) = none ∨ ∃ s ∈ fs.drop 2, ¬Readable s

/-- no limit changes when it is stored -/
def Fits (fs : List Str) : Prop :=
  (∀ s ∈ fs.drop 2, ∀ v ∈ number s, 0 ≤ v) ∧ ∀ s ∈ fs.drop 4, ∀ v ∈ number s, v < 2 ^ 32

/-- `quotactl` sets these limits, if it is asked to -/
def Granted (m : Machine) (fs : List Str) : Prop :=
  ∀ uid ∈ m.getpwnam (fs.getD 0 []), ∀ hard ∈ number (fs.getD 2 []), ∀ soft ∈ number (fs.getD 3 []),
    ∀ ihard ∈ number (fs.getD 4 []), ∀ isoft ∈ number (fs.getD 5 []),
      m.quotactl (.setquota (fs.getD 1 []) uid (.ofInt 64 hard) (.ofInt 64 soft) (.ofInt 32 ihard) (.ofInt 32 isoft))

/-! ## Fields -/

theorem parseLoop_none (fuel k : ℕ) : parseLoop fuel k none = ([], none) := by
  cases fuel with
  | zero => rfl
  | succ fuel =>
    cases k with
    | zero => rfl
    | succ k => rfl

/-- what is left when there are enough fields: the text up to the last one, and one character more if there is one -/
def Behind (p : Str) (ws : List Str) (s : Option Str) : Prop :=
  ∃ u d, isspace d = false ∧ fields (u ++ [d]) = ws ∧
    (p = u ++ [d] ∧ s = none ∨ ∃ c r, isspace c = true ∧ p = u ++ [d] ++ c :: r ∧ s = some r)

theorem behind_cons {c : Char} {p : Str} {ws : List Str} {s : Option Str} (hc : isspace c = true) (v : Str)
    (h : Behind p ws s) : Behind (v ++ c :: p) (fields v ++ ws) s := by
  obtain ⟨u, d, hd, hu, hp⟩ := h
  refine ⟨v ++ c :: u, d, hd, ?_, ?_⟩
  · rw [List.append_assoc, List.cons_append, fields, wordsBy_append_cons hc]
    exact congrArg _ hu
  · rcases hp with ⟨rfl, rfl⟩ | ⟨c', r, hc', rfl, rfl⟩
    · exact Or.inl ⟨by simp, rfl⟩
    · exact Or.inr ⟨c', r, hc', by simp, rfl⟩

theorem behind_word {p v : Str} {s : Option Str} (hne : v ≠ []) (hv : ∀ d ∈ v, isspace d = false)
    (hp : p = v ∧ s = none ∨ ∃ c r, isspace c = true ∧ p = v ++ c :: r ∧ s = some r) : Behind p [v] s := by
  have hlast := List.dropLast_append_getLast hne
  exact ⟨v.dropLast, v.getLast hne, hv _ (List.getLast_mem hne), by rw [hlast, fields, wordsBy_word hne hv],
    by rwa [hlast]⟩

/-- **The loop of `parseline`**, which finds the first fields. -/
theorem parseLoop_spec {fuel : ℕ} (k : ℕ) {p : Str} (hfuel : p.length + 2 ≤ fuel) :
    (parseLoop fuel k (some p)).1 = (fields p).take k ∧
      (0 < k → k ≤ (fields p).length → Behind p ((fields p).take k) (parseLoop fuel k (some p)).2) := by
  induction fuel generalizing k p with
  | zero => omega
  | succ fuel ih =>
    cases k with
    | zero => exact ⟨rfl, fun h => absurd h (lt_irrefl 0)⟩
    | succ k =>
      have hv : ∀ d ∈ p.takeWhile fun c => !isspace c, isspace d = false := fun d hd => by
        simpa using List.mem_takeWhile_imp hd
      have hp := List.takeWhile_append_dropWhile (p := fun c => !isspace c) (l := p)
      rw [parseLoop, strsep]
      generalize (p.takeWhile fun c => !isspace c) = v at hv hp ⊢
      cases hrest : p.dropWhile fun c => !isspace c with
      | nil =>
        rw [hrest, List.append_nil] at hp
        subst hp
        dsimp only
        rw [parseLoop_none, parseLoop_none]
        by_cases hnil : v = []
        · rw [if_pos hnil, hnil]
          exact ⟨rfl, fun _ h => absurd h (Nat.not_succ_le_zero k)⟩
        · rw [if_neg hnil, fields, wordsBy_word hnil hv]
          rw [List.take_succ_cons, List.take_nil]
          exact ⟨rfl, fun _ _ => behind_word hnil hv (Or.inl ⟨rfl, rfl⟩)⟩
      | cons c r =>
        have hc : isspace c = true := by
          have hhead := List.head_dropWhile_not (fun c => !isspace c)
            (l := p) (by rw [hrest]; exact List.cons_ne_nil _ _)
          simpa [hrest] using hhead
        have hlen : r.length + 2 ≤ fuel := by
          have hlen := congrArg List.length hp
          rw [hrest, List.length_append, List.length_cons] at hlen
          omega
        rw [hrest] at hp
        subst hp
        have hfields : fields (v ++ c :: r) = fields v ++ fields r := wordsBy_append_cons hc v r
        dsimp only
        by_cases hnil : v = []
        · obtain ⟨hfst, hsnd⟩ := ih (k + 1) hlen
          subst hnil
          rw [if_pos rfl, hfields]
          exact ⟨hfst, fun hpos hle => behind_cons hc [] (hsnd hpos hle)⟩
        · obtain ⟨hfst, hsnd⟩ := ih k hlen
          have hword : fields v = [v] := wordsBy_word hnil hv
          rw [if_neg hnil, hfields, hword, List.singleton_append, List.take_succ_cons]
          refine ⟨by rw [hfst], fun _ hle => ?_⟩
          rcases Nat.eq_zero_or_pos k with rfl | hpos
          · have hcursor : (parseLoop fuel 0 (some r)).2 = some r := by
              cases fuel with
              | zero => rfl
              | succ fuel => rfl
            rw [List.take_zero]
            exact behind_word hnil hv (Or.inr ⟨c, r, hc, rfl, hcursor⟩)
          · have hrest := behind_cons hc v (hsnd hpos (Nat.le_of_succ_le_succ hle))
            rwa [hword] at hrest

theorem rtakeWhile_behind {u r : Str} {d : Char} (hd : isspace d = false) (hr : ∀ c ∈ r, isspace c = true) :
    (u ++ [d] ++ r).rtakeWhile isspace = r := by
  induction r using List.reverseRecOn with
  | nil => rw [List.append_nil, List.rtakeWhile_concat_neg _ _ _ (by simp [hd])]
  | append_singleton r c ih =>
    have hc : isspace c = true := hr c (by simp)
    rw [← List.append_assoc, List.rtakeWhile_concat_pos _ _ _ hc, ih fun c hc => hr c (by simp [hc])]

/-- **Which lines are accepted.** -/
theorem parseline_iff (line : Str) (argv : List Str) :
    parseline line = some (true, argv) ↔
      argv = fields line ∧ (fields line).length = 6 ∧ (line.rtakeWhile isspace).length = 1 := by
  obtain ⟨hfst, hsnd⟩ := parseLoop_spec 6 (le_refl (line.length + 2))
  rw [parseline]
  generalize parseLoop (line.length + 2) 6 (some line) = res at hfst hsnd ⊢
  obtain ⟨ws, s⟩ := res
  dsimp only at hfst hsnd ⊢
  have hlen : ws.length = 6 ↔ 6 ≤ (fields line).length := by
    rw [hfst, List.length_take]
    omega
  by_cases h6 : 6 ≤ (fields line).length
  · obtain ⟨u, d, hd, hu, hp⟩ := hsnd (by norm_num) h6
    rw [if_pos (hlen.2 h6)]
    rcases hp with ⟨hline, rfl⟩ | ⟨c, r, hc, hline, rfl⟩
    · have hnone : (line.rtakeWhile isspace).length = 0 := by
        rw [hline, List.rtakeWhile_concat_neg _ _ _ (by simp [hd])]
        rfl
      constructor
      · intro h
        cases h
      · rintro ⟨-, -, hone⟩
        omega
    · have hfields : fields line = (fields line).take 6 ++ fields r := by
        conv_lhs => rw [hline, fields, wordsBy_append_cons hc]
        exact congrArg (· ++ fields r) hu
      have hcount : (fields line).length = 6 + (fields r).length := by
        have hl := congrArg List.length hfields
        rwa [List.length_append, List.length_take, min_eq_left h6] at hl
      constructor
      · intro h
        obtain ⟨hr, rfl⟩ : r = [] ∧ ws = argv := by simpa using h
        subst hr
        have hall : fields line = ws := by
          rw [hfst, hfields]
          simp [fields, wordsBy_nil]
        refine ⟨hall.symm, by simpa [fields, wordsBy_nil] using hcount, ?_⟩
        rw [hline, rtakeWhile_behind hd (by simpa using hc)]
        rfl
      · rintro ⟨rfl, hsix, hone⟩
        have hnone : fields r = [] := List.length_eq_zero_iff.1 (by omega)
        have hr : ∀ c ∈ r, isspace c = true := wordsBy_eq_nil_iff.1 hnone
        rw [hline, rtakeWhile_behind hd (List.forall_mem_cons.2 ⟨hc, hr⟩), List.length_cons] at hone
        have hnil : r = [] := List.length_eq_zero_iff.1 (by omega)
        rw [hnil, hfst, List.take_of_length_le hsix.le]
        rfl
  · rw [if_neg fun h => h6 (hlen.1 h)]
    constructor
    · intro h
      cases h
    · rintro ⟨-, hsix, -⟩
      omega

example : parseline "abc / 0 0 0 1".toList = none := by decide

/-! ## Numbers -/

/-- **Which numbers are read**, and as what: in `w` bits there is what is left of the number. -/
theorem estrtou_eq (w : ℕ) {s : Str} (hs : ∀ c ∈ s, isspace c = false) :
    (∀ v ∈ number s, -2 ^ 63 ≤ v → v < 2 ^ 63 → estrtou w s = .ok (BitVec.ofInt w v)) ∧
      (¬Readable s → ∃ e, estrtou w s = .error e) := by
  have hskip : skipSpace s = s := skipSpace_of_not_space hs
  refine ⟨fun v hv hlo hhi => ?_, fun hnot => ?_⟩
  · rw [estrtou, strtoll_number (by rwa [hskip]), if_neg (not_lt.2 hlo), if_neg (not_lt.2 (Int.le_sub_one_of_lt hhi))]
    exact if_neg (by simp)
  · have hfatal : (strtoll s).2.1 ≠ [] ∨ (strtoll s).1 = 0 ∧ (strtoll s).2.2 = some .EINVAL ∨
        ((strtoll s).1 = -2 ^ 63 ∨ (strtoll s).1 = 2 ^ 63 - 1) ∧ (strtoll s).2.2 = some .ERANGE := by
      cases hv : number s with
      | none =>
        refine (strtoll_none (by rwa [hskip])).imp_right fun hnone => ?_
        rw [hnone]
        exact Or.inl ⟨rfl, rfl⟩
      | some v =>
        have hout : ¬(-2 ^ 63 ≤ v ∧ v < 2 ^ 63) := fun h => hnot ⟨v, hv, h⟩
        rw [strtoll_number (by rwa [hskip])]
        by_cases hlo : v < -2 ^ 63
        · rw [if_pos hlo]
          exact Or.inr (Or.inr ⟨Or.inl rfl, rfl⟩)
        · rw [if_neg hlo, if_pos (by omega)]
          exact Or.inr (Or.inr ⟨Or.inr rfl, rfl⟩)
    rw [estrtou]
    exact ⟨_, if_pos hfatal⟩

theorem estrtou_ok_iff (w : ℕ) {s : Str} (hs : ∀ c ∈ s, isspace c = false) (r : BitVec w) :
    estrtou w s = .ok r ↔ ∃ v ∈ number s, (-2 ^ 63 ≤ v ∧ v < 2 ^ 63) ∧ r = BitVec.ofInt w v := by
  obtain ⟨hok, herror⟩ := estrtou_eq w hs
  constructor
  · intro hr
    obtain ⟨v, hv, hrange⟩ : Readable s := by
      by_contra hnot
      obtain ⟨e, he⟩ := herror hnot
      rw [hr] at he
      cases he
    have hval := hok v hv hrange.1 hrange.2
    rw [hr] at hval
    exact ⟨v, hv, hrange, Except.ok.inj hval⟩
  · rintro ⟨v, hv, hrange, rfl⟩
    exact hok v hv hrange.1 hrange.2

/-! ## Limits -/

variable {m : Machine} {argv : List Str}

theorem dosetquota_ok_iff {calls : List (Quotactl × Bool)} : dosetquota m argv = .ok calls ↔
    ∃ uid hard soft ihard isoft, m.getpwnam (argv.getD 0 []) = some uid ∧ estrtou 64 (argv.getD 2 []) = .ok hard ∧
      estrtou 64 (argv.getD 3 []) = .ok soft ∧ estrtou 32 (argv.getD 4 []) = .ok ihard ∧
      estrtou 32 (argv.getD 5 []) = .ok isoft ∧
      calls = setquota m.quotactl (argv.getD 1 []) uid hard soft ihard isoft := by
  rw [dosetquota, estrtou64, estrtou64, estrtou32, estrtou32]
  generalize argv.getD 0 [] = user
  generalize argv.getD 1 [] = device
  cases estrtou 64 (argv.getD 2 []) with
  | error e => simp [bind, Except.bind]
  | ok hard =>
    cases estrtou 64 (argv.getD 3 []) with
    | error e => simp [bind, Except.bind]
    | ok soft =>
      cases estrtou 32 (argv.getD 4 []) with
      | error e => simp [bind, Except.bind]
      | ok ihard =>
        cases estrtou 32 (argv.getD 5 []) with
        | error e => simp [bind, Except.bind]
        | ok isoft =>
          cases m.getpwnam user with
          | none => simp [bind, Except.bind]
          | some uid => simp [bind, Except.bind, eq_comm]

theorem toNat_ofInt_iff (w : ℕ) (v : ℤ) : ((BitVec.ofInt w v).toNat : ℤ) = v ↔ 0 ≤ v ∧ v < 2 ^ w := by
  have hpos : (0 : ℤ) < 2 ^ w := by positivity
  rw [BitVec.toNat_ofInt, Int.toNat_of_nonneg (Int.emod_nonneg _ (by push_cast; exact hpos.ne'))]
  push_cast
  constructor
  · intro h
    rw [← h]
    exact ⟨Int.emod_nonneg _ hpos.ne', Int.emod_lt_of_pos _ hpos⟩
  · intro h
    exact Int.emod_eq_of_lt h.1 h.2

theorem sets_setquota_iff (fs : List Str) {uid : ℕ} {hard soft : BitVec 64} {ihard isoft : BitVec 32}
    (huser : m.getpwnam (fs.getD 0 []) = some uid) :
    Sets m fs (setquota m.quotactl (fs.getD 1 []) uid hard soft ihard isoft) ↔
      m.quotactl (.setquota (fs.getD 1 []) uid hard soft ihard isoft) = true ∧ (fs.drop 2).map number =
        [some (hard.toNat : ℤ), some (soft.toNat : ℤ), some (ihard.toNat : ℤ), some (isoft.toNat : ℤ)] := by
  have hcalls : setquota m.quotactl (fs.getD 1 []) uid hard soft ihard isoft =
      [(.getquota (fs.getD 1 []) uid, m.quotactl (.getquota (fs.getD 1 []) uid)),
        (.setquota (fs.getD 1 []) uid hard soft ihard isoft,
          m.quotactl (.setquota (fs.getD 1 []) uid hard soft ihard isoft))] := rfl
  rw [hcalls, Sets]
  constructor
  · rintro ⟨uid', bhard, bsoft, ihard', isoft', -, hmem, -, hlimits⟩
    rcases List.mem_cons.1 hmem with hget | hset
    · cases hget
    · obtain ⟨hop, hok⟩ := Prod.mk.inj (List.mem_singleton.1 hset)
      cases hop
      exact ⟨hok.symm, hlimits⟩
  · rintro ⟨hok, hlimits⟩
    refine ⟨uid, hard, soft, ihard, isoft, huser, by rw [hok]; simp, ?_, hlimits⟩
    intro c hc
    rcases List.mem_cons.1 hc with rfl | hc
    · exact Or.inl rfl
    · rw [List.mem_singleton.1 hc]
      exact Or.inr rfl

/-- **When the limits are right**, for six fields. -/
theorem dosetquota_right_iff {fs : List Str} (hlen : fs.length = 6) (hfs : ∀ s ∈ fs, ∀ c ∈ s, isspace c = false) :
    ((∃ message, dosetquota m fs = .error message) ∨ ∃ calls, dosetquota m fs = .ok calls ∧ Sets m fs calls) ↔
    Fatal m fs ∨ Fits fs ∧ Granted m fs := by
  obtain ⟨user, device, a, b, c, d, rfl⟩ : ∃ user device a b c d, fs = [user, device, a, b, c, d] := by
    match fs, hlen with
    | [user, device, a, b, c, d], _ => exact ⟨user, device, a, b, c, d, rfl⟩
  simp only [List.forall_mem_cons] at hfs
  obtain ⟨-, -, ha, hb, hc, hd, -⟩ := hfs
  have hnot : ¬Fatal m [user, device, a, b, c, d] ↔
      (∃ uid, m.getpwnam user = some uid) ∧ Readable a ∧ Readable b ∧ Readable c ∧ Readable d := by
    simp [Fatal, not_or, Option.ne_none_iff_exists']
  by_cases hfatal : Fatal m [user, device, a, b, c, d]
  · refine iff_of_true (Or.inl ?_) (Or.inl hfatal)
    cases hdo : dosetquota m [user, device, a, b, c, d] with
    | error message => exact ⟨message, rfl⟩
    | ok calls =>
      obtain ⟨uid, _, _, _, _, huser, h₁, h₂, h₃, h₄, -⟩ := dosetquota_ok_iff.1 hdo
      obtain ⟨v₁, hv₁, hr₁, -⟩ := (estrtou_ok_iff 64 ha _).1 h₁
      obtain ⟨v₂, hv₂, hr₂, -⟩ := (estrtou_ok_iff 64 hb _).1 h₂
      obtain ⟨v₃, hv₃, hr₃, -⟩ := (estrtou_ok_iff 32 hc _).1 h₃
      obtain ⟨v₄, hv₄, hr₄, -⟩ := (estrtou_ok_iff 32 hd _).1 h₄
      exact absurd hfatal (hnot.2 ⟨⟨uid, huser⟩, ⟨v₁, hv₁, hr₁⟩, ⟨v₂, hv₂, hr₂⟩, ⟨v₃, hv₃, hr₃⟩, v₄, hv₄, hr₄⟩)
  · obtain ⟨⟨uid, huser⟩, ⟨v₁, hv₁, hr₁⟩, ⟨v₂, hv₂, hr₂⟩, ⟨v₃, hv₃, hr₃⟩, v₄, hv₄, hr₄⟩ := hnot.1 hfatal
    have hdo : dosetquota m [user, device, a, b, c, d] = .ok (setquota m.quotactl device uid (BitVec.ofInt 64 v₁)
        (BitVec.ofInt 64 v₂) (BitVec.ofInt 32 v₃) (BitVec.ofInt 32 v₄)) :=
      dosetquota_ok_iff.2 ⟨uid, _, _, _, _, huser, (estrtou_ok_iff 64 ha _).2 ⟨v₁, hv₁, hr₁, rfl⟩,
        (estrtou_ok_iff 64 hb _).2 ⟨v₂, hv₂, hr₂, rfl⟩, (estrtou_ok_iff 32 hc _).2 ⟨v₃, hv₃, hr₃, rfl⟩,
        (estrtou_ok_iff 32 hd _).2 ⟨v₄, hv₄, hr₄, rfl⟩, rfl⟩
    have hsets : Sets m [user, device, a, b, c, d] (setquota m.quotactl device uid (BitVec.ofInt 64 v₁)
          (BitVec.ofInt 64 v₂) (BitVec.ofInt 32 v₃) (BitVec.ofInt 32 v₄)) ↔
        m.quotactl (.setquota device uid (.ofInt 64 v₁) (.ofInt 64 v₂) (.ofInt 32 v₃) (.ofInt 32 v₄)) = true ∧
          (0 ≤ v₁ ∧ v₁ < 2 ^ 64) ∧ (0 ≤ v₂ ∧ v₂ < 2 ^ 64) ∧ (0 ≤ v₃ ∧ v₃ < 2 ^ 32) ∧ 0 ≤ v₄ ∧ v₄ < 2 ^ 32 := by
      refine (sets_setquota_iff [user, device, a, b, c, d] huser).trans (and_congr_right fun _ => ?_)
      rw [← toNat_ofInt_iff, ← toNat_ofInt_iff, ← toNat_ofInt_iff, ← toNat_ofInt_iff]
      simp only [List.drop_succ_cons, List.drop_zero, List.map_cons, List.map_nil, Option.mem_def.1 hv₁,
        Option.mem_def.1 hv₂, Option.mem_def.1 hv₃, Option.mem_def.1 hv₄, List.cons.injEq, Option.some.injEq, and_true,
        eq_comm]
    have hfits : Fits [user, device, a, b, c, d] ↔
        (0 ≤ v₁ ∧ 0 ≤ v₂ ∧ 0 ≤ v₃ ∧ 0 ≤ v₄) ∧ v₃ < 2 ^ 32 ∧ v₄ < 2 ^ 32 := by
      simp [Fits, Option.mem_def.1 hv₁, Option.mem_def.1 hv₂, Option.mem_def.1 hv₃, Option.mem_def.1 hv₄]
    have hgranted : Granted m [user, device, a, b, c, d] ↔
        m.quotactl (.setquota device uid (.ofInt 64 v₁) (.ofInt 64 v₂) (.ofInt 32 v₃) (.ofInt 32 v₄)) = true := by
      simp [Granted, huser, Option.mem_def.1 hv₁, Option.mem_def.1 hv₂, Option.mem_def.1 hv₃, Option.mem_def.1 hv₄]
    rw [or_iff_right hfatal, hfits, hgranted, hdo]
    constructor
    · rintro (⟨_, h⟩ | ⟨calls, h, hset⟩)
      · cases h
      · cases h
        obtain ⟨hok, h₁, h₂, h₃, h₄⟩ := hsets.1 hset
        exact ⟨⟨⟨h₁.1, h₂.1, h₃.1, h₄.1⟩, h₃.2, h₄.2⟩, hok⟩
    · rintro ⟨⟨⟨h₁, h₂, h₃, h₄⟩, h₅, h₆⟩, hok⟩
      exact Or.inr ⟨_, rfl, hsets.2 ⟨hok, ⟨h₁, by omega⟩, ⟨h₂, by omega⟩, ⟨h₃, h₅⟩, h₄, h₆⟩⟩

/-- **When a line is treated as it should be**: it has not six fields, or one character is behind them and it ends in
`fatal`, or its limits are not changed when they are stored, and `quotactl` sets them. -/
theorem setquota_right_iff (m : Machine) (line : Str) :
    Right m line ↔ ((fields line).length = 6 → (line.rtakeWhile isspace).length = 1 ∧
      (Fatal m (fields line) ∨ Fits (fields line) ∧ Granted m (fields line))) := by
  have hfs : ∀ s ∈ fields line, ∀ c ∈ s, isspace c = false := fun s hs => (mem_wordsBy hs).2
  simp only [Right, parseline_iff]
  constructor
  · rintro ⟨haccept, hdo⟩ hlen
    obtain ⟨argv, rfl, -, hone⟩ := haccept.2 hlen
    exact ⟨hone, (dosetquota_right_iff hlen hfs).1 (hdo _ ⟨rfl, hlen, hone⟩)⟩
  · intro h
    refine ⟨⟨fun ⟨argv, _, hlen, _⟩ => hlen, fun hlen => ⟨_, rfl, hlen, (h hlen).1⟩⟩, ?_⟩
    rintro _ ⟨rfl, hlen, -⟩
    exact (dosetquota_right_iff hlen hfs).2 (h hlen).2

def onlyAbc : Machine where
  getpwnam user := if user = "abc".toList then some 1000 else none
  quotactl _ := true

/-- The limit `-1` is accepted and sets 2^32 - 1. -/
theorem unlimited : ¬Right onlyAbc "abc / 0 0 0 -1\n".toList := by
  have hline : parseline "abc / 0 0 0 -1\n".toList =
      some (true, ["abc".toList, "/".toList, "0".toList, "0".toList, "0".toList, "-1".toList]) := by decide
  have hdo : dosetquota onlyAbc ["abc".toList, "/".toList, "0".toList, "0".toList, "0".toList, "-1".toList] =
      .ok (setquota onlyAbc.quotactl "/".toList 1000 0 0 0 0xFFFFFFFF) := by decide
  have hnumbers : ((fields "abc / 0 0 0 -1\n".toList).drop 2).map number = [some 0, some 0, some 0, some (-1)] := by
    decide
  rintro ⟨-, hright⟩
  rcases hright _ hline with ⟨message, herror⟩ | ⟨calls, -, _, _, _, _, isoft, -, -, -, hlimits⟩
  · rw [hdo] at herror
    cases herror
  · rw [hnumbers] at hlimits
    simp only [List.cons.injEq, Option.some.injEq] at hlimits
    have hneg := hlimits.2.2.2.1
    omega

end MNetSoft.Pnewuser.Setquota
