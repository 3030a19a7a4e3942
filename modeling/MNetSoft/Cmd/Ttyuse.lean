/-
`ttyuse`, which draws a chart of the use of each terminal line for each day of a period, from the records of the wtmp
file. The chart of a line has a place for each slot of the day (three or five for an hour), and so has the head line.

A run that uses a place that is not there ends in `none`.
- `loop_isSome`: a run over records that are in order never does, whatever has been drawn before.
- `bounds_iff`: no place outside of the day is used if and only if no change of the clock that is reached sets it to
  another day: less than a slot before the midnight of the day it is made on, and before the midnight after it.
- `another_day`: a clock that is set to the day after.

Times are in UTC. A name or line is what is in front of the first NUL of its field. `qsort` is a parameter: what it does
with records of the same time is not known.
-/
import Mathlib.Tactic
import Mathlib.Data.List.Sort
import Mathlib.Data.List.Lex
import Mathlib.Data.List.DropRight
import Mathlib.Order.Lex
import MNetSoft.Core.CString

namespace MNetSoft.Cmd.Ttyuse

open MNetSoft.CString

/-! ## Records -/

structure Utmp where
  name : Str
  line : Str
  time : ℤ
deriving DecidableEq, Repr

def MAXDAYHOURS : ℤ := 25

def HOURSLOTS : ℕ := 3

def LONGHOURSLOTS : ℕ := 5

def HOUR : ℤ := 3600

def NAMESIZE : ℕ := 32

def BOOTCHAR : Char := '~'

def OLDTCHAR : Char := '|'

def NEWTCHAR : Char := '\x7b'

def OTHTCHAR : Char := '\x7d'

def BOOTLINE (line : Str) : Bool := line = [BOOTCHAR] || line = "reboot".toList

def OLDTLINE (line : Str) : Bool := line = [OLDTCHAR] || line.take 8 = "old time".toList

def NEWTLINE (line : Str) : Bool := line = [NEWTCHAR] || line = [OTHTCHAR] || line.take 8 = "new time".toList

def TIMELINE (line : Str) : Bool := OLDTLINE line || NEWTLINE line

def SPCLLINE (line : Str) : Bool := TIMELINE line || BOOTLINE line

/-- options and arguments: the first and the last time that are asked for, users, and the lines of `/dev` arguments -/
structure Config where
  lflag : Bool
  Rflag : Bool
  start : ℤ
  stop : ℤ
  argusers : List Str
  ttys : List Str
  nodup : ttys.Nodup
  plain : ∀ line ∈ ttys, SPCLLINE line = false

theorem plain_nil : ∀ line ∈ ([] : List Str), SPCLLINE line = false := fun _ h => absurd h List.not_mem_nil

/-- a sort that leaves the order of records with the same time open -/
structure Qsort where
  sort : List Utmp → List Utmp
  perm : ∀ l, (sort l).Perm l
  sorted : ∀ l, (sort l).Pairwise fun r r' => r.time ≤ r'.time

def DAY : ℤ := 24 * HOUR

def midnight (t : ℤ) : ℤ := t - t % DAY

namespace Config

def hourslots (cfg : Config) : ℕ := if cfg.lflag then LONGHOURSLOTS else HOURSLOTS

def starttime (cfg : Config) : ℤ := if cfg.Rflag then 0 else midnight cfg.start

def stoptime (cfg : Config) : ℤ := midnight (midnight cfg.stop + MAXDAYHOURS * HOUR)

def didttys (cfg : Config) : Bool := cfg.ttys ≠ []

/-- the seconds of a slot -/
def unit (cfg : Config) : ℤ := HOUR / cfg.hourslots

/-- the slot of a time so many seconds after midnight, as an `int` -/
def toSlot (cfg : Config) (secs : ℤ) : ℤ := (secs.tdiv cfg.unit).bmod (2 ^ 32)

end Config

/-! ## Steps on the records -/

/-- step 2: what is behind the last reboot before the start time; the second list is what is to stay -/
def fromReboot (starttime : ℤ) : List Utmp → List Utmp → List Utmp
  | [], utmp => utmp
  | r :: rs, utmp =>
    if r.time < starttime then fromReboot starttime rs (if BOOTLINE r.line then rs else utmp) else utmp

/-- steps 3 and 6: without records at the end, but never without the first one -/
def dropTrailing (p : Utmp → Bool) : List Utmp → List Utmp
  | [] => []
  | r :: rs => r :: rs.rdropWhile p

/-- step 4: records that count -/
def genuine (r : Utmp) : Bool :=
  r.time ≠ 0 && r.line ≠ [] && r.line.take 2 ≠ "ft".toList && r.line.take 2 ≠ "uu".toList &&
    r.line.take 4 ≠ "acct".toList

/-- step 7: the records of the lines that are asked for come first, and what was behind them stays behind them -/
def ttysFirst (cfg : Config) (recs : List Utmp) : List Utmp :=
  if cfg.didttys then
    let kept := recs.filter fun r => SPCLLINE r.line || r.line ∈ cfg.ttys
    kept ++ recs.drop kept.length
  else recs

/-- the final step: records between time changes are sorted; the first list is what is in front, up to the last one -/
def sortBetween (q : Qsort) : List Utmp → List Utmp → List Utmp
  | seg, [] => q.sort seg
  | seg, r :: rs => if TIMELINE r.line then q.sort seg ++ r :: sortBetween q [] rs else sortBetween q (seg ++ [r]) rs

/-- the records that are considered -/
def considered (q : Qsort) (cfg : Config) (file : List Utmp) : List Utmp :=
  let recs := fromReboot cfg.starttime file file
  let recs := dropTrailing (fun r => cfg.stoptime ≤ r.time) recs
  let recs := recs.filter genuine
  let recs := recs.dropWhile fun r => SPCLLINE r.line
  let recs := dropTrailing (fun r => SPCLLINE r.line) recs
  sortBetween q [] (ttysFirst cfg recs)

/-! ## Charts -/

section Charts

variable (dayslots : ℕ)

/-- a place of a chart or of the head line; there are `dayslots` -/
def place (l : List Char) (i : ℤ) : Option Char := if 0 ≤ i ∧ i < dayslots then some (l.getD i.toNat '\x00') else none

def put (l : List Char) (i : ℤ) (c : Char) : Option (List Char) :=
  if 0 ≤ i ∧ i < dayslots then some (l.set i.toNat c) else none

/-- a text, from some place on -/
def putText : List Char → ℤ → Str → Option (List Char)
  | l, _, [] => some l
  | l, i, c :: cs => do putText (← put dayslots l i c) (i + 1) cs

/-- the first loop of `colonize`, for at most `n` places -/
def blank (slot : ℤ) : ℕ → List Char → ℤ → Option (List Char)
  | 0, l, _ => some l
  | n + 1, l, i =>
    if i < dayslots then do
      if (← place dayslots l slot) ≠ ' ' then blank slot n (← put dayslots l i ' ') (i + 1) else some l
    else some l

/-- the second loop -/
def colons : ℕ → List Char → ℤ → Option (List Char)
  | 0, l, _ => some l
  | n + 1, l, slot =>
    if 0 ≤ slot then do
      if (← place dayslots l slot) = ' ' then colons n (← put dayslots l slot ':') (slot - 1) else some l
    else some l

def colonize (l : List Char) (slot : ℤ) : Option (List Char) := do
  colons dayslots dayslots (← blank dayslots slot dayslots l (slot + 1)) slot

end Charts

/-! ## Entries -/

/-- what is known of a line: who is logged in (nobody if empty) since when, and the seconds of the day -/
structure Entry where
  line : Str
  name : Str
  time : ℤ
  marked : Bool
  daysecs : ℤ
  l : List Char
deriving DecidableEq, Repr

/-- an entry for a line that nothing is known of -/
def newEntry (dayslots : ℕ) (line : Str) : Entry := ⟨line, [], 0, false, 0, List.replicate dayslots ' '⟩

/-- the entries when the entry of a line is looked up; `none` if there is none -/
def lookup (dayslots : ℕ) (entries : List Entry) (line : Str) (doenter : Bool) : Option (List Entry) :=
  if SPCLLINE line then none
  else if entries.any fun e => e.line = line then some entries
  else if doenter then some (entries ++ [newEntry dayslots line])
  else none

/-- the entries of `/dev` arguments -/
def argEntries (cfg : Config) : List Entry := cfg.ttys.map (newEntry 0)

/-- the scan back; what is given is the record it starts at and those in front of it, without the first one -/
def scanBack (didttys : Bool) : List Utmp → List Entry → List Entry
  | [], entries => entries
  | r :: rs, entries =>
    if BOOTLINE r.line then entries
    else
      match lookup 0 entries r.line (!didttys) with
      | none => scanBack didttys rs entries
      | some entries =>
        if entries.any fun e => e.line = r.line && e.marked then scanBack didttys rs entries
        else
          let entries := entries.map fun e => if e.line = r.line then { e with marked := true, name := r.name } else e
          if didttys && entries.all Entry.marked then entries else scanBack didttys rs entries

def namecmp (name name' : Str) : Bool := name.take NAMESIZE = name'.take NAMESIZE

/-- users that are not asked for are taken out -/
def zap (cfg : Config) (entries : List Entry) : List Entry :=
  if cfg.argusers = [] then entries
  else entries.map fun e => if cfg.argusers.any fun user => namecmp user e.name then e else { e with name := [] }

/-- the seconds of a session; no use at all counts as one second -/
def charge (secs : ℤ) (e : Entry) : Entry :=
  { e with daysecs := if e.daysecs + secs = 0 then e.daysecs + secs + 1 else e.daysecs + secs }

def closeEntry (dayslots : ℕ) (t slot : ℤ) (e : Entry) : Option Entry := do
  some { charge (t - e.time) e with l := ← colonize dayslots e.l slot }

/-- the same, if there is a session, and nobody is left on the line -/
def logout (dayslots : ℕ) (t slot : ℤ) (e : Entry) : Option Entry :=
  if e.name = [] then some e else do some { (← closeEntry dayslots t slot e) with name := [], time := 0 }

/-! ## Days -/

/-- what has been printed: days, and the seconds of each line that has any -/
abbrev Printed := List (ℤ × List (Str × ℤ))

structure St where
  entries : List Entry
  headline : List Char
  dayslots : ℕ
  printed : Printed

/-- the entries are left in the order of their lines -/
def dump (m : ℤ) (st : St) : St :=
  if (st.entries.map Entry.daysecs).sum = 0 then st
  else
    let entries := st.entries.insertionSort fun e e' => e.line ≤ e'.line
    { st with
      entries
      printed := st.printed ++ [(m, (entries.filter fun e => e.daysecs ≠ 0).map fun e => (e.line, e.daysecs))] }

/-- it is 24 for a midnight (`dayhours_eq`), so that the test for other numbers is left out -/
def dayhours (m : ℤ) : ℤ := (midnight (m + MAXDAYHOURS * HOUR) - m).tdiv HOUR

/-- the text for an hour in the head line -/
def hourText (cfg : Config) (i : ℕ) : Str :=
  let j := if i % 12 = 0 then 12 else i % 12
  (if j = 12 ∧ cfg.lflag then (if i = 0 then "Mid.-".toList else "Noon-".toList)
    else Nat.toDigits 10 j ++ "-----".toList).take cfg.hourslots

/-- the character for a time change; without one, `t` is 0 -/
def putHead (dayslots : ℕ) (t slot : ℤ) (headchar : Char) (l : List Char) : Option (List Char) :=
  if t = 0 then some l else put dayslots l slot headchar

/-- an entry for a new day -/
def renewEntry (dayslots : ℕ) (m t slot : ℤ) (headchar : Char) (e : Entry) : Option Entry :=
  let l := List.replicate dayslots ' '
  if e.name = [] then do
    some { e with daysecs := 0, time := 0, l := ← putHead dayslots t slot headchar l }
  else do
    let name := (e.name.take NAMESIZE).take (dayslots - slot).toNat
    some { e with daysecs := 0, time := if t = 0 then m else t, l := ← putText dayslots l slot name }

def newday (cfg : Config) (m t : ℤ) (headchar : Char) (st : St) : Option St := do
  let dayslots := cfg.hourslots * (dayhours m).toNat
  let slot := if t = 0 then 0 else cfg.toSlot (t - m)
  let headline ← putHead dayslots t slot headchar ((List.range (dayhours m).toNat).flatMap (hourText cfg))
  let entries ← st.entries.mapM (renewEntry dayslots m t slot headchar)
  some { st with entries, headline, dayslots }

/-- all sessions are closed, and nobody logs out -/
def closeAll (t slot : ℤ) (st : St) : Option St := do
  let entries ← st.entries.mapM fun e => if e.name = [] then some e else closeEntry st.dayslots t slot e
  some { st with entries }

/-- the end of a day, if it is one of the period -/
def closeDay (cfg : Config) (lastm : ℤ) (st : St) : Option St :=
  if cfg.starttime ≤ lastm ∧ lastm < cfg.stoptime then do
    some (dump lastm (← closeAll (lastm + dayhours lastm * HOUR) ((st.dayslots : ℤ) - 1) st))
  else some st

def changeDay (cfg : Config) (lastm m : ℤ) (st : St) : Option St :=
  if m = lastm then some st else do newday cfg m 0 '\x00' (← closeDay cfg lastm st)

/-! ## The loop -/

def reboot (t slot : ℤ) (st : St) : Option St := do
  let headline ← put st.dayslots st.headline slot BOOTCHAR
  let entries ← st.entries.mapM (logout st.dayslots t slot)
  some { st with headline, entries }

/-- the clock is changed from this time on -/
def oldTime (t slot : ℤ) (st : St) : Option St := do
  let headline ← put st.dayslots st.headline slot OLDTCHAR
  let entries ← st.entries.mapM fun e =>
    if e.name = [] then do some { e with l := ← put st.dayslots e.l slot OLDTCHAR }
    else closeEntry st.dayslots t slot e
  some { st with headline, entries }

def fudge (name : Str) : Str :=
  name.map fun c =>
    if c ∈ [BOOTCHAR, OLDTCHAR, NEWTCHAR, OTHTCHAR, ':', '*', ' ', '2', '3', '4', '5', '6', '7', '8', '9'] then '?'
    else if 128 ≤ c.toNat then '?'
    else if c.isUpper then c.toLower
    else if c.toNat < 32 ∨ c.toNat = 127 then '?'
    else c

/-- what is put in front of a name if its place is taken -/
def mark (c : Char) : Str :=
  if c.isUpper then ['2']
  else
    match "23456789**".toList.dropWhile (· ≠ c) with
    | _ :: c' :: _ => [c']
    | _ => []

/-- what is put into the chart for a login -/
def loginText (c : Char) (name : Str) : Str :=
  match mark c, (fudge name).take NAMESIZE with
  | [], c :: name => (if c.isLower then c.toUpper else c) :: name
  | cs, name => cs ++ name

/-- a record of the entry's line -/
def logEntry (cfg : Config) (dayslots : ℕ) (slot : ℤ) (r : Utmp) (e : Entry) : Option Entry := do
  let e ← logout dayslots r.time slot e
  if r.name = [] ∨ (cfg.argusers ≠ [] ∧ cfg.argusers.all fun user => !namecmp user r.name) then some e
  else
    let text := loginText (← place dayslots e.l slot) r.name
    let l ← putText dayslots e.l slot (text.take (dayslots - slot).toNat)
    some { e with time := r.time, name := (fudge r.name).take NAMESIZE, l }

def record (cfg : Config) (slot : ℤ) (r : Utmp) (st : St) : Option St :=
  match lookup st.dayslots st.entries r.line (!cfg.didttys) with
  | none => some st
  | some entries => do
    let entries ← entries.mapM fun e => if e.line = r.line then logEntry cfg st.dayslots slot r e else some e
    some { st with entries }

/-- what has been printed, and the exit status -/
structure Outcome where
  printed : Printed
  status : ℕ
deriving DecidableEq, Repr

/-- the loop over the records; `lastm`, `t` and `slot` are of the last one. A record of the old time is never the last
one of all, as step 6 leaves none of these at the end. -/
def loop (cfg : Config) : List Utmp → ℤ → ℤ → ℤ → St → Option Outcome
  | [], lastm, t, slot, st => do some ⟨(dump lastm (← closeAll t slot st)).printed, 0⟩
  | r :: rs, lastm, _, _, st => do
    let m := midnight r.time
    let st ← changeDay cfg lastm m st
    let slot := cfg.toSlot (r.time - m)
    if BOOTLINE r.line then loop cfg rs m r.time slot (← reboot r.time slot st)
    else if NEWTLINE r.line then some ⟨st.printed, 1⟩
    else if OLDTLINE r.line then
      match rs with
      | [] => some ⟨st.printed, 1⟩
      | r' :: rs' =>
        if NEWTLINE r'.line then do
          let st := dump lastm (← oldTime r.time slot st)
          let headchar := if r'.line.head? = some OTHTCHAR then OTHTCHAR else NEWTCHAR
          loop cfg rs' m r.time slot (← newday cfg m r'.time headchar st)
        else some ⟨st.printed, 1⟩
    else loop cfg rs m r.time slot (← record cfg slot r st)

/-- the records from the first one of the period on -/
def inPeriod (cfg : Config) (recs : List Utmp) : List Utmp :=
  if cfg.Rflag then recs else recs.dropWhile fun r => r.time < cfg.starttime

/-- the record the period begins with, and those in front of it, back to the second record -/
def scanned (cfg : Config) (recs : List Utmp) : List Utmp :=
  ((recs.take ((recs.takeWhile fun r => r.time < cfg.starttime).length + 1)).drop 1).reverse

/-- all of the program -/
def main (q : Qsort) (cfg : Config) (file : List Utmp) : Option Outcome :=
  let recs := considered q cfg file
  let entries :=
    if cfg.Rflag then argEntries cfg else zap cfg (scanBack cfg.didttys (scanned cfg recs) (argEntries cfg))
  if inPeriod cfg recs = [] ∧ !cfg.Rflag then some ⟨[], 0⟩
  else loop cfg (inPeriod cfg recs) (cfg.starttime - 1) 0 0 ⟨entries, [], 0, []⟩

/-! ## Places that are there -/

section Places

variable {d : ℕ} {l : List Char} {i slot : ℤ}

theorem place_of_lt (hi : 0 ≤ i ∧ i < d) : place d l i = some (l.getD i.toNat '\x00') := if_pos hi

theorem put_of_lt (hi : 0 ≤ i ∧ i < d) (c : Char) : put d l i c = some (l.set i.toNat c) := if_pos hi

/-- a text that fits in -/
theorem putText_isSome {text : Str} (hi : 0 ≤ i) (hlen : i + text.length ≤ d) (l : List Char) :
    ∃ l', putText d l i text = some l' := by
  induction text generalizing i l with
  | nil => exact ⟨l, rfl⟩
  | cons c text ih =>
    rw [List.length_cons] at hlen
    rw [putText, put_of_lt ⟨hi, by omega⟩]
    exact ih (by omega) (by omega) _

/-- a text that is cut at the end of the day -/
theorem putText_take (hi : 0 ≤ i ∧ i < d) (l : List Char) (text : Str) :
    ∃ l', putText d l i (text.take (d - i).toNat) = some l' := by
  refine putText_isSome hi.1 ?_ l
  have hlen := List.length_take_le (d - i).toNat text
  omega

theorem blank_isSome (hslot : 0 ≤ slot ∧ slot < d) (n : ℕ) (l : List Char) (hi : slot < i) :
    ∃ l', blank d slot n l i = some l' := by
  induction n generalizing l i with
  | zero => exact ⟨l, rfl⟩
  | succ n ih =>
    rw [blank]
    split_ifs with hd
    · rw [place_of_lt hslot, put_of_lt ⟨by omega, hd⟩]
      by_cases hc : l.getD slot.toNat '\x00' ≠ ' '
      · obtain ⟨l', hl'⟩ := ih (l.set i.toNat ' ') (i := i + 1) (by omega)
        refine ⟨l', ?_⟩
        simp only [Option.bind_eq_bind, Option.bind_some]
        rw [if_pos hc, hl']
      · refine ⟨l, ?_⟩
        simp only [Option.bind_eq_bind, Option.bind_some]
        rw [if_neg hc]
    · exact ⟨l, rfl⟩

theorem colons_isSome (n : ℕ) (l : List Char) (hslot : slot < d) : ∃ l', colons d n l slot = some l' := by
  induction n generalizing l slot with
  | zero => exact ⟨l, rfl⟩
  | succ n ih =>
    rw [colons]
    split_ifs with h0
    · rw [place_of_lt ⟨h0, hslot⟩, put_of_lt ⟨h0, hslot⟩]
      by_cases hc : l.getD slot.toNat '\x00' = ' '
      · have hslot' : slot - 1 < d := by omega
        obtain ⟨l', hl'⟩ := ih (l.set slot.toNat ':') hslot'
        refine ⟨l', ?_⟩
        simp only [Option.bind_eq_bind, Option.bind_some]
        rw [if_pos hc, hl']
      · refine ⟨l, ?_⟩
        simp only [Option.bind_eq_bind, Option.bind_some]
        rw [if_neg hc]
    · exact ⟨l, rfl⟩

theorem colonize_isSome (hslot : 0 ≤ slot ∧ slot < d) (l : List Char) : ∃ l', colonize d l slot = some l' := by
  obtain ⟨l₁, h₁⟩ := blank_isSome hslot d l (i := slot + 1) (by omega)
  obtain ⟨l₂, h₂⟩ := colons_isSome d l₁ hslot.2
  exact ⟨l₂, by rw [colonize, h₁]; exact h₂⟩

/-- a session is closed, and something is drawn -/
theorem closeEntry_spec (hslot : 0 ≤ slot ∧ slot < d) (t : ℤ) (e : Entry) :
    ∃ l, closeEntry d t slot e = some { charge (t - e.time) e with l } := by
  obtain ⟨l, hl⟩ := colonize_isSome hslot e.l
  exact ⟨l, by rw [closeEntry, hl]; rfl⟩

end Places

/-- what is done to each entry, done to all of them -/
theorem mapM_spec {α β : Type} {f : α → Option β} {P : α → β → Prop} {l : List α}
    (h : ∀ a ∈ l, ∃ b, f a = some b ∧ P a b) : ∃ l', l.mapM f = some l' ∧ List.Forall₂ P l l' := by
  induction l with
  | nil => exact ⟨[], rfl, List.Forall₂.nil⟩
  | cons a l ih =>
    obtain ⟨b, hb, hP⟩ := h a List.mem_cons_self
    obtain ⟨l', hl', hall⟩ := ih fun a ha => h a (List.mem_cons_of_mem _ ha)
    exact ⟨b :: l', by rw [List.mapM_cons, hb, hl']; rfl, List.Forall₂.cons hP hall⟩

/-! ## Slots of a day -/

section Slots

variable (cfg : Config)

/-- the slots of a day -/
def Config.slots : ℕ := 24 * cfg.hourslots

theorem unit_cases : cfg.unit = 1200 ∧ cfg.slots = 72 ∨ cfg.unit = 720 ∧ cfg.slots = 120 := by
  rw [Config.unit, Config.slots, Config.hourslots]
  cases cfg.lflag
  · exact Or.inl ⟨rfl, rfl⟩
  · exact Or.inr ⟨rfl, rfl⟩

/-- an `int` is a slot if the number it is made of is one, up to multiples of 2^32 -/
theorem slot_iff (x : ℤ) :
    (0 ≤ cfg.toSlot x ∧ cfg.toSlot x < cfg.slots) ↔ x.tdiv cfg.unit % 2 ^ 32 < cfg.slots := by
  rw [Config.toSlot, Int.bmod_eq_emod]
  rcases unit_cases cfg with ⟨-, hs⟩ | ⟨-, hs⟩ <;> rw [hs] <;> split_ifs <;> omega

/-- **A time has its slot** if it is less than a slot before the midnight, and less than a day after it; this is all
unless the time is so far away that its slot is no `int`. -/
theorem slot_near {x : ℤ} (hlow : -(2 ^ 31 * cfg.unit) < x) (hhigh : x < 2 ^ 31 * cfg.unit) :
    x.tdiv cfg.unit % 2 ^ 32 < cfg.slots ↔ -cfg.unit < x ∧ x < DAY := by
  have hday : DAY = 86400 := rfl
  rcases le_or_gt 0 x with hx | hx
  · rw [Int.tdiv_eq_ediv_of_nonneg hx]
    rcases unit_cases cfg with ⟨hu, hs⟩ | ⟨hu, hs⟩ <;> rw [hu] at hlow hhigh <;> rw [hu, hs, hday] <;> omega
  · have hneg : x.tdiv cfg.unit = -(-x / cfg.unit) := by
      rw [← Int.tdiv_eq_ediv_of_nonneg (by omega), Int.neg_tdiv, neg_neg]
    rw [hneg]
    rcases unit_cases cfg with ⟨hu, hs⟩ | ⟨hu, hs⟩ <;> rw [hu] at hlow hhigh <;> rw [hu, hs, hday] <;> omega

theorem midnight_le (t : ℤ) : midnight t ≤ t := by
  rw [midnight]
  have h := Int.emod_nonneg t (show DAY ≠ 0 by decide)
  omega

theorem lt_midnight (t : ℤ) : t - midnight t < DAY := by
  rw [midnight, sub_sub_cancel]
  exact Int.emod_lt_of_pos t (by decide)

theorem midnight_emod (t : ℤ) : midnight t % DAY = 0 := by
  rw [midnight, Int.sub_emod, Int.emod_emod, sub_self, Int.zero_emod]

theorem dayhours_eq {m : ℤ} (hm : m % DAY = 0) : dayhours m = 24 := by
  have hday : DAY = 86400 := rfl
  have hnext : midnight (m + MAXDAYHOURS * HOUR) = m + DAY := by
    rw [hday] at hm
    rw [midnight, MAXDAYHOURS, HOUR, hday]
    omega
  rw [dayhours, hnext, add_sub_cancel_left]
  rfl

/-- the slot of a record on its day -/
theorem slot_lt (t : ℤ) : 0 ≤ cfg.toSlot (t - midnight t) ∧ cfg.toSlot (t - midnight t) < cfg.slots := by
  have hday : DAY = 86400 := rfl
  have hle := midnight_le t
  have hlt := lt_midnight t
  rw [slot_iff, slot_near]
  all_goals rcases unit_cases cfg with ⟨hu, -⟩ | ⟨hu, -⟩ <;> omega

theorem starttime_emod : cfg.starttime % DAY = 0 := by
  rw [Config.starttime]
  split_ifs
  · rfl
  · exact midnight_emod _

end Slots

/-! ## What is done to the entries -/

section Entries

variable {cfg : Config} {st : St} {t slot m : ℤ} {r : Utmp}

/-- what is left of an entry when its session ends, up to what is drawn -/
def loggedOut (t : ℤ) (e : Entry) : Entry :=
  if e.name = [] then e else { charge (t - e.time) e with name := [], time := 0 }

/-- what a record makes of the entry of its line, up to what is drawn -/
def logged (cfg : Config) (r : Utmp) (e : Entry) : Entry :=
  if r.name = [] ∨ (cfg.argusers ≠ [] ∧ cfg.argusers.all fun user => !namecmp user r.name) then loggedOut r.time e
  else { loggedOut r.time e with time := r.time, name := (fudge r.name).take NAMESIZE }

/-- what is left of an entry at the end of a day, up to what is drawn -/
def charged (t : ℤ) (e : Entry) : Entry := if e.name = [] then e else charge (t - e.time) e

/-- what is left of an entry for a new day, up to what is drawn -/
def renewed (m t : ℤ) (e : Entry) : Entry :=
  { e with daysecs := 0, time := if e.name = [] then 0 else if t = 0 then m else t }

/-- the second entry is what a function makes of the first, up to what is drawn -/
def Drawn (f : Entry → Entry) (e e' : Entry) : Prop := ∃ l, e' = { f e with l }

theorem closeAll_spec (hslot : 0 ≤ slot ∧ slot < st.dayslots) (t : ℤ) :
    ∃ entries, closeAll t slot st = some { st with entries } ∧
      List.Forall₂ (Drawn (charged t)) st.entries entries := by
  obtain ⟨entries, hentries, hall⟩ : ∃ entries, (st.entries.mapM fun e =>
      if e.name = [] then some e else closeEntry st.dayslots t slot e) = some entries ∧
        List.Forall₂ (Drawn (charged t)) st.entries entries := by
    refine mapM_spec fun e _ => ?_
    by_cases hname : e.name = []
    · exact ⟨e, if_pos hname, e.l, by rw [charged, if_pos hname]⟩
    · obtain ⟨l, hl⟩ := closeEntry_spec hslot t e
      exact ⟨_, (if_neg hname).trans hl, l, by rw [charged, if_neg hname]⟩
  exact ⟨entries, by rw [closeAll, hentries]; rfl, hall⟩

theorem logout_spec {d : ℕ} (hslot : 0 ≤ slot ∧ slot < d) (t : ℤ) (e : Entry) :
    ∃ e', logout d t slot e = some e' ∧ Drawn (loggedOut t) e e' := by
  rw [logout]
  by_cases hname : e.name = []
  · exact ⟨e, if_pos hname, e.l, by rw [loggedOut, if_pos hname]⟩
  · obtain ⟨l, hl⟩ := closeEntry_spec hslot t e
    exact ⟨_, by rw [if_neg hname, hl]; rfl, l, by rw [loggedOut, if_neg hname]⟩

theorem reboot_spec (hslot : 0 ≤ slot ∧ slot < st.dayslots) (t : ℤ) :
    ∃ headline entries, reboot t slot st = some { st with headline, entries } ∧
      List.Forall₂ (Drawn (loggedOut t)) st.entries entries := by
  obtain ⟨entries, hentries, hall⟩ := mapM_spec (l := st.entries) fun e _ => logout_spec hslot t e
  exact ⟨_, entries, by rw [reboot, put_of_lt hslot, hentries]; rfl, hall⟩

theorem oldTime_spec (hslot : 0 ≤ slot ∧ slot < st.dayslots) (t : ℤ) :
    ∃ headline entries, oldTime t slot st = some { st with headline, entries } := by
  obtain ⟨entries, hentries, -⟩ : ∃ entries, (st.entries.mapM fun e =>
      if e.name = [] then do some { e with l := ← put st.dayslots e.l slot OLDTCHAR }
      else closeEntry st.dayslots t slot e) = some entries ∧ List.Forall₂ (fun _ _ => True) st.entries entries := by
    refine mapM_spec fun e _ => ?_
    by_cases hname : e.name = []
    · exact ⟨_, by rw [if_pos hname, put_of_lt hslot]; rfl, trivial⟩
    · obtain ⟨l, hl⟩ := closeEntry_spec hslot t e
      exact ⟨_, (if_neg hname).trans hl, trivial⟩
  exact ⟨_, entries, by rw [oldTime, put_of_lt hslot, hentries]; rfl⟩

theorem logEntry_spec {d : ℕ} (cfg : Config) (hslot : 0 ≤ slot ∧ slot < d) (r : Utmp) (e : Entry) :
    ∃ e', logEntry cfg d slot r e = some e' ∧ Drawn (logged cfg r) e e' := by
  obtain ⟨e₁, h₁, l₁, rfl⟩ := logout_spec hslot r.time e
  rw [logEntry, h₁]
  simp only [Option.bind_eq_bind, Option.bind_some]
  split_ifs with hskip
  · exact ⟨_, rfl, l₁, by rw [logged, if_pos hskip]⟩
  · obtain ⟨l, hl⟩ := putText_take hslot l₁ (loginText (l₁.getD slot.toNat '\x00') r.name)
    refine ⟨_, ?_, l, by rw [logged, if_neg hskip]⟩
    rw [place_of_lt hslot, Option.bind_some, hl]
    rfl

theorem record_spec (cfg : Config) (hslot : 0 ≤ slot ∧ slot < st.dayslots) (r : Utmp) :
    ∃ entries, record cfg slot r st = some { st with entries } ∧
      match lookup st.dayslots st.entries r.line (!cfg.didttys) with
      | none => entries = st.entries
      | some known =>
        List.Forall₂ (fun e e' : Entry => if e.line = r.line then Drawn (logged cfg r) e e' else e' = e)
          known entries := by
  rw [record]
  cases lookup st.dayslots st.entries r.line (!cfg.didttys) with
  | none => exact ⟨st.entries, rfl, rfl⟩
  | some known =>
    obtain ⟨entries, hentries, hall⟩ : ∃ entries, (known.mapM fun e =>
        if e.line = r.line then logEntry cfg st.dayslots slot r e else some e) = some entries ∧
        List.Forall₂ (fun e e' : Entry => if e.line = r.line then Drawn (logged cfg r) e e' else e' = e)
          known entries := by
      refine mapM_spec fun e _ => ?_
      split_ifs with hline
      · exact logEntry_spec cfg hslot r e
      · exact ⟨e, rfl, rfl⟩
    exact ⟨entries, by simp only [hentries]; rfl, hall⟩

theorem dayslots_eq (cfg : Config) (hm : m % DAY = 0) : cfg.hourslots * (dayhours m).toNat = cfg.slots := by
  rw [dayhours_eq hm, Config.slots, mul_comm]
  rfl

/-- **A new day begins** if its first slot is on the day. -/
theorem newday_spec (cfg : Config) (hm : m % DAY = 0) (headchar : Char) (st : St)
    (ht : t = 0 ∨ 0 ≤ cfg.toSlot (t - m) ∧ cfg.toSlot (t - m) < cfg.slots) :
    ∃ headline entries, newday cfg m t headchar st = some { st with entries, headline, dayslots := cfg.slots } ∧
      List.Forall₂ (Drawn (renewed m t)) st.entries entries := by
  obtain ⟨slot, hslot⟩ : ∃ slot, slot = if t = 0 then 0 else cfg.toSlot (t - m) := ⟨_, rfl⟩
  have hlt : 0 ≤ slot ∧ slot < cfg.slots := by
    rw [hslot]
    split_ifs with h0
    · rcases unit_cases cfg with ⟨-, hs⟩ | ⟨-, hs⟩ <;> rw [hs] <;> decide
    · exact ht.resolve_left h0
  have hhead : ∀ l, ∃ l', putHead cfg.slots t slot headchar l = some l' := by
    intro l
    rw [putHead]
    split_ifs
    · exact ⟨l, rfl⟩
    · exact ⟨_, put_of_lt hlt headchar⟩
  obtain ⟨entries, hentries, hall⟩ : ∃ entries,
      st.entries.mapM (renewEntry cfg.slots m t slot headchar) = some entries ∧
        List.Forall₂ (Drawn (renewed m t)) st.entries entries := by
    refine mapM_spec fun e _ => ?_
    rw [renewEntry]
    by_cases hname : e.name = []
    · obtain ⟨l, hl⟩ := hhead (List.replicate cfg.slots ' ')
      exact ⟨_, by rw [if_pos hname, hl]; rfl, l, by rw [renewed, if_pos hname]⟩
    · obtain ⟨l, hl⟩ := putText_take hlt (List.replicate cfg.slots ' ') (e.name.take NAMESIZE)
      exact ⟨_, by rw [if_neg hname]; dsimp only; rw [hl]; rfl, l, by rw [renewed, if_neg hname]⟩
  obtain ⟨headline, hheadline⟩ := hhead ((List.range (dayhours m).toNat).flatMap (hourText cfg))
  refine ⟨headline, entries, ?_, hall⟩
  rw [newday, dayslots_eq cfg hm]
  simp only [← hslot, hheadline, hentries, Option.bind_eq_bind, Option.bind_some]

theorem newday_eq_none (cfg : Config) (hm : m % DAY = 0) (headchar : Char) (st : St) (h0 : t ≠ 0)
    (ht : ¬ (0 ≤ cfg.toSlot (t - m) ∧ cfg.toSlot (t - m) < cfg.slots)) : newday cfg m t headchar st = none := by
  rw [newday, dayslots_eq cfg hm]
  simp only [if_neg h0, putHead, put, if_neg ht, Option.bind_eq_bind, Option.bind_none]

theorem closeDay_spec (cfg : Config) {lastm : ℤ} (hst : cfg.starttime ≤ lastm → st.dayslots = cfg.slots) :
    if cfg.starttime ≤ lastm ∧ lastm < cfg.stoptime then
      ∃ entries, closeDay cfg lastm st = some (dump lastm { st with entries }) ∧
        List.Forall₂ (Drawn (charged (lastm + dayhours lastm * HOUR))) st.entries entries
    else closeDay cfg lastm st = some st := by
  rw [closeDay]
  split_ifs with hperiod
  · have hlast : 0 ≤ (st.dayslots : ℤ) - 1 ∧ (st.dayslots : ℤ) - 1 < st.dayslots := by
      rw [hst hperiod.1]
      rcases unit_cases cfg with ⟨-, hs⟩ | ⟨-, hs⟩ <;> rw [hs] <;> decide
    obtain ⟨entries, hentries, hall⟩ := closeAll_spec hlast (lastm + dayhours lastm * HOUR)
    exact ⟨entries, by rw [hentries]; rfl, hall⟩
  · rfl

/-- another day: the last one is closed, and the entries are renewed -/
theorem changeDay_spec (cfg : Config) {lastm : ℤ} (hm : m % DAY = 0) (hne : m ≠ lastm)
    (hst : cfg.starttime ≤ lastm → st.dayslots = cfg.slots) :
    ∃ st₁ headline entries, closeDay cfg lastm st = some st₁ ∧
      changeDay cfg lastm m st = some { st₁ with entries, headline, dayslots := cfg.slots } ∧
        List.Forall₂ (Drawn (renewed m 0)) st₁.entries entries := by
  obtain ⟨st₁, hclose⟩ : ∃ st₁, closeDay cfg lastm st = some st₁ := by
    have hspec := closeDay_spec cfg hst
    split_ifs at hspec
    · obtain ⟨entries, hentries, -⟩ := hspec
      exact ⟨_, hentries⟩
    · exact ⟨st, hspec⟩
  obtain ⟨headline, entries, hnew, hall⟩ := newday_spec cfg hm '\x00' st₁ (Or.inl rfl)
  exact ⟨st₁, headline, entries, hclose, by rw [changeDay, if_neg hne, hclose]; exact hnew, hall⟩

end Entries

/-! ## Changes of the clock -/

/-- the changes of the clock that the loop gets to, as the times of both records -/
def pairs : List Utmp → List (ℤ × ℤ)
  | [] => []
  | r :: rs =>
    if BOOTLINE r.line then pairs rs
    else if NEWTLINE r.line then []
    else if OLDTLINE r.line then
      match rs with
      | [] => []
      | r' :: rs' => if NEWTLINE r'.line then (r.time, r'.time) :: pairs rs' else []
    else pairs rs

theorem pairs_cons (r : Utmp) (rs : List Utmp) : pairs (r :: rs) =
    if BOOTLINE r.line then pairs rs
    else if NEWTLINE r.line then []
    else if OLDTLINE r.line then
      match rs with
      | [] => []
      | r' :: rs' => if NEWTLINE r'.line then (r.time, r'.time) :: pairs rs' else []
    else pairs rs := pairs.eq_def (r :: rs)

/-- the new time has a slot on the day of the old time (up to 2^32 slots, as slots are `int`s) -/
def SameDay (cfg : Config) (p : ℤ × ℤ) : Prop := (p.2 - midnight p.1).tdiv cfg.unit % 2 ^ 32 < cfg.slots

/-- for times that are not too far from each other, it is on the day, or less than a slot in front of it -/
theorem sameDay_iff {cfg : Config} {p : ℤ × ℤ} (hlow : -(2 ^ 31 * cfg.unit) < p.2 - midnight p.1)
    (hhigh : p.2 - midnight p.1 < 2 ^ 31 * cfg.unit) :
    SameDay cfg p ↔ -cfg.unit < p.2 - midnight p.1 ∧ p.2 - midnight p.1 < DAY := slot_near cfg hlow hhigh

section Loop

variable {cfg : Config}

/-- a day has begun, or the loop has just been entered -/
def Begun (cfg : Config) (lastm : ℤ) (st : St) : Prop := lastm = cfg.starttime - 1 ∨ st.dayslots = cfg.slots

theorem changeDay_isSome {lastm : ℤ} {st : St} (h : Begun cfg lastm st) (t : ℤ) :
    ∃ st', changeDay cfg lastm (midnight t) st = some st' ∧ st'.dayslots = cfg.slots := by
  by_cases hm : midnight t = lastm
  · refine ⟨st, if_pos hm, h.resolve_left fun hlast => ?_⟩
    have hday : DAY = 86400 := rfl
    have hmod := midnight_emod t
    have hstart := starttime_emod cfg
    rw [hday] at hmod hstart
    omega
  · have hst : cfg.starttime ≤ lastm → st.dayslots = cfg.slots := fun hle => h.resolve_left (by omega)
    obtain ⟨st₁, headline, entries, -, hchange, -⟩ := changeDay_spec cfg (midnight_emod t) hm hst
    exact ⟨_, hchange, rfl⟩

theorem closeAll_nobody {st : St} (h : ∀ e ∈ st.entries, e.name = []) (t slot : ℤ) : closeAll t slot st = some st := by
  have hall : (st.entries.mapM fun e => if e.name = [] then some e else closeEntry st.dayslots t slot e) =
      some st.entries := by
    generalize st.entries = entries at h
    induction entries with
    | nil => rfl
    | cons e entries ih =>
      rw [List.mapM_cons, if_pos (h e List.mem_cons_self), ih fun e he => h e (List.mem_cons_of_mem _ he)]
      rfl
  rw [closeAll, hall]
  rfl

/-- the slot of a record on its day -/
def slotOf (cfg : Config) (r : Utmp) : ℤ := cfg.toSlot (r.time - midnight r.time)

section Records

variable {r : Utmp} {rs : List Utmp} {lastm t slot : ℤ} {st st₁ : St}

theorem loop_boot (hchange : changeDay cfg lastm (midnight r.time) st = some st₁) (hboot : BOOTLINE r.line = true) :
    loop cfg (r :: rs) lastm t slot st =
      (reboot r.time (slotOf cfg r) st₁).bind (loop cfg rs (midnight r.time) r.time (slotOf cfg r)) := by
  rw [loop, hchange]
  simp only [Option.bind_eq_bind, Option.bind_some, if_pos hboot]
  rfl

theorem loop_plain (hchange : changeDay cfg lastm (midnight r.time) st = some st₁) (hboot : ¬ BOOTLINE r.line = true)
    (hnew : ¬ NEWTLINE r.line = true) (hold : ¬ OLDTLINE r.line = true) :
    loop cfg (r :: rs) lastm t slot st =
      (record cfg (slotOf cfg r) r st₁).bind (loop cfg rs (midnight r.time) r.time (slotOf cfg r)) := by
  rw [loop, hchange]
  simp only [Option.bind_eq_bind, Option.bind_some, if_neg hboot, if_neg hnew, if_neg hold]
  rfl

/-- the clock is set: the record with the new time follows the one with the old time -/
theorem loop_set {r' : Utmp} (hchange : changeDay cfg lastm (midnight r.time) st = some st₁)
    (hboot : ¬ BOOTLINE r.line = true) (hnew : ¬ NEWTLINE r.line = true) (hold : OLDTLINE r.line = true)
    (hnew' : NEWTLINE r'.line = true) {st₂ : St} (holdTime : oldTime r.time (slotOf cfg r) st₁ = some st₂) :
    loop cfg (r :: r' :: rs) lastm t slot st =
      (newday cfg (midnight r.time) r'.time (if r'.line.head? = some OTHTCHAR then OTHTCHAR else NEWTCHAR)
        (dump lastm st₂)).bind (loop cfg rs (midnight r.time) r.time (slotOf cfg r)) := by
  rw [loop, hchange]
  simp only [Option.bind_eq_bind, Option.bind_some, if_neg hboot, if_neg hnew, if_pos hold, if_pos hnew']
  change ((oldTime r.time (slotOf cfg r) st₁).bind _) = _
  rw [holdTime]
  rfl

theorem changeDay_slot (h : Begun cfg lastm st) (r : Utmp) :
    ∃ st₁, changeDay cfg lastm (midnight r.time) st = some st₁ ∧ st₁.dayslots = cfg.slots ∧
      0 ≤ slotOf cfg r ∧ slotOf cfg r < st₁.dayslots := by
  obtain ⟨st₁, hchange, hd⟩ := changeDay_isSome h r.time
  refine ⟨st₁, hchange, hd, ?_⟩
  rw [hd]
  exact slot_lt cfg r.time

end Records

/-- **A run stays in its charts** as long as the clock is not set to another day. -/
theorem loop_isSome (rs : List Utmp) (htime : ∀ r ∈ rs, r.time ≠ 0) {lastm t slot : ℤ} {st : St}
    (h : Begun cfg lastm st) (hslot : rs = [] → (0 ≤ slot ∧ slot < st.dayslots) ∨ ∀ e ∈ st.entries, e.name = []) :
    (loop cfg rs lastm t slot st).isSome ↔ ∀ p ∈ pairs rs, SameDay cfg p := by
  induction rs using pairs.induct generalizing lastm t slot st with
  | case1 =>
    obtain ⟨st', hclose⟩ : ∃ st', closeAll t slot st = some st' := by
      rcases hslot rfl with hlt | hnobody
      · obtain ⟨entries, hentries, -⟩ := closeAll_spec hlt t
        exact ⟨_, hentries⟩
      · exact ⟨st, closeAll_nobody hnobody t slot⟩
    rw [loop, hclose]
    exact iff_of_true rfl fun p hp => absurd hp List.not_mem_nil
  | case2 r rs hboot ih =>
    obtain ⟨st₁, hchange, hd, hlt⟩ := changeDay_slot h r
    obtain ⟨headline, entries, hreboot, -⟩ := reboot_spec hlt r.time
    rw [loop_boot hchange hboot, hreboot, pairs_cons, if_pos hboot]
    exact ih (fun r hr => htime r (List.mem_cons_of_mem _ hr)) (Or.inr hd) fun _ => Or.inl hlt
  | case3 r rs hboot hnew =>
    obtain ⟨st₁, hchange, -⟩ := changeDay_isSome h r.time
    rw [loop, hchange, pairs_cons, if_neg hboot, if_pos hnew]
    simp only [Option.bind_eq_bind, Option.bind_some, if_neg hboot, if_pos hnew]
    exact iff_of_true rfl fun p hp => absurd hp List.not_mem_nil
  | case4 r hboot hnew hold =>
    obtain ⟨st₁, hchange, -⟩ := changeDay_isSome h r.time
    rw [loop, hchange, pairs_cons, if_neg hboot, if_neg hnew, if_pos hold]
    simp only [Option.bind_eq_bind, Option.bind_some, if_neg hboot, if_neg hnew, if_pos hold]
    exact iff_of_true rfl fun p hp => absurd hp List.not_mem_nil
  | case5 r hboot hnew hold r' rs hnew' ih =>
    obtain ⟨st₁, hchange, hd, hlt⟩ := changeDay_slot h r
    obtain ⟨headline, entries, holdTime⟩ := oldTime_spec hlt r.time
    have h0 : r'.time ≠ 0 := htime r' (List.mem_cons_of_mem _ List.mem_cons_self)
    rw [loop_set hchange hboot hnew hold hnew' holdTime, pairs_cons, if_neg hboot, if_neg hnew, if_pos hold]
    simp only [if_pos hnew', List.forall_mem_cons]
    by_cases hday : SameDay cfg (r.time, r'.time)
    · obtain ⟨headline', entries', hnewday, -⟩ := newday_spec cfg (midnight_emod r.time)
        (if r'.line.head? = some OTHTCHAR then OTHTCHAR else NEWTCHAR) (dump lastm { st₁ with headline, entries })
        (Or.inr ((slot_iff cfg (r'.time - midnight r.time)).2 hday))
      rw [hnewday, and_iff_right hday]
      have htime' : ∀ r ∈ rs, r.time ≠ 0 := fun r hr => htime r (List.mem_cons_of_mem _ (List.mem_cons_of_mem _ hr))
      exact ih htime' (Or.inr rfl) fun _ => Or.inl (slot_lt cfg r.time)
    · have hslots : ¬ (0 ≤ cfg.toSlot (r'.time - midnight r.time) ∧
          cfg.toSlot (r'.time - midnight r.time) < cfg.slots) := fun h => hday ((slot_iff cfg _).1 h)
      rw [newday_eq_none cfg (midnight_emod r.time) _ _ h0 hslots]
      exact iff_of_false Bool.false_ne_true fun h => hday h.1
  | case6 r hboot hnew hold r' rs hnew' =>
    obtain ⟨st₁, hchange, -⟩ := changeDay_isSome h r.time
    rw [loop, hchange, pairs_cons, if_neg hboot, if_neg hnew, if_pos hold]
    simp only [Option.bind_eq_bind, Option.bind_some, if_neg hboot, if_neg hnew, if_pos hold, if_neg hnew']
    exact iff_of_true rfl fun p hp => absurd hp List.not_mem_nil
  | case7 r rs hboot hnew hold ih =>
    obtain ⟨st₁, hchange, hd, hlt⟩ := changeDay_slot h r
    obtain ⟨entries, hrecord, -⟩ := record_spec cfg hlt r
    rw [loop_plain hchange hboot hnew hold, hrecord, pairs_cons, if_neg hboot, if_neg hnew, if_neg hold]
    exact ih (fun r hr => htime r (List.mem_cons_of_mem _ hr)) (Or.inr hd) fun _ => Or.inl hlt

end Loop

/-! ## The records that are considered -/

section Considered

variable {q : Qsort} {cfg : Config} {file : List Utmp} {r : Utmp}

theorem mem_of_mem_dropTrailing {p : Utmp → Bool} {rs : List Utmp} (h : r ∈ dropTrailing p rs) : r ∈ rs := by
  cases rs with
  | nil => exact h
  | cons r' rs =>
    rcases List.mem_cons.1 h with rfl | h
    · exact List.mem_cons_self
    · exact List.mem_cons_of_mem _ ((List.rdropWhile_prefix p rs).subset h)

theorem mem_sortBetween (q : Qsort) (seg rs : List Utmp) : r ∈ sortBetween q seg rs ↔ r ∈ seg ∨ r ∈ rs := by
  induction rs generalizing seg with
  | nil => rw [sortBetween, (q.perm seg).mem_iff]; simp
  | cons r' rs ih =>
    rw [sortBetween]
    split_ifs
    · rw [List.mem_append, List.mem_cons, ih, (q.perm seg).mem_iff]
      simp
    · rw [ih]
      simp [or_assoc]

theorem mem_of_mem_ttysFirst {recs : List Utmp} (h : r ∈ ttysFirst cfg recs) : r ∈ recs := by
  rw [ttysFirst] at h
  split_ifs at h
  · rcases List.mem_append.1 h with h | h
    · exact List.mem_of_mem_filter h
    · exact List.mem_of_mem_drop h
  · exact h

theorem genuine_of_mem_considered (h : r ∈ considered q cfg file) : genuine r = true := by
  have hsort := ((mem_sortBetween q _ _).1 h).resolve_left List.not_mem_nil
  have hplain := mem_of_mem_dropTrailing (mem_of_mem_ttysFirst hsort)
  exact List.of_mem_filter ((List.dropWhile_suffix _).subset hplain)

end Considered

/-- No place outside of the day is used. -/
def BoundsRight (q : Qsort) (cfg : Config) (file : List Utmp) : Prop := (main q cfg file).isSome

instance (q : Qsort) (cfg : Config) (file : List Utmp) : Decidable (BoundsRight q cfg file) :=
  inferInstanceAs (Decidable (_ = true))

/-- **No place outside of the day is used** if and only if each change of the clock that the loop gets to leaves the
time on its day, or less than a slot in front of it. -/
theorem bounds_iff (q : Qsort) (cfg : Config) (file : List Utmp) :
    BoundsRight q cfg file ↔ ∀ p ∈ pairs (inPeriod cfg (considered q cfg file)), SameDay cfg p := by
  have htime : ∀ r ∈ inPeriod cfg (considered q cfg file), r.time ≠ 0 := by
    intro r hr
    have hmem : r ∈ considered q cfg file := by
      rw [inPeriod] at hr
      split_ifs at hr
      · exact hr
      · exact (List.dropWhile_suffix _).subset hr
    have hgenuine := genuine_of_mem_considered hmem
    rw [genuine] at hgenuine
    simp only [Bool.and_eq_true, decide_eq_true_eq] at hgenuine
    exact hgenuine.1.1.1.1
  rw [BoundsRight, main]
  split_ifs with hempty hR
  · rw [hempty.1]
    exact iff_of_true rfl fun p hp => absurd hp List.not_mem_nil
  · refine loop_isSome _ htime (Or.inl rfl) fun _ => Or.inr fun e he => ?_
    obtain ⟨line, -, rfl⟩ := List.mem_map.1 he
    rfl
  · exact loop_isSome _ htime (Or.inl rfl) fun hnil => absurd ⟨hnil, by simpa using hR⟩ hempty

/-- a sort -/
def sorter : Qsort where
  sort := List.insertionSort fun r r' => r.time ≤ r'.time
  perm l := List.perm_insertionSort _ l
  sorted l := by
    have htotal : Std.Total fun r r' : Utmp => r.time ≤ r'.time := ⟨fun r r' => le_total r.time r'.time⟩
    have htrans : IsTrans Utmp fun r r' => r.time ≤ r'.time := ⟨fun _ _ _ => le_trans⟩
    exact List.pairwise_insertionSort _ l

/-- two days -/
def twoDays : Config where
  lflag := false
  Rflag := false
  start := 0
  stop := DAY
  argusers := []
  ttys := []
  nodup := List.nodup_nil
  plain := plain_nil

/-- The clock is set to the day after. -/
theorem another_day : ¬ BoundsRight sorter twoDays
    [⟨"u".toList, "a".toList, 10⟩, ⟨[], [OLDTCHAR], 20⟩, ⟨[], [NEWTCHAR], 100000⟩, ⟨[], "a".toList, 100010⟩] := by
  decide +kernel

end MNetSoft.Cmd.Ttyuse
