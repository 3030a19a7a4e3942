/-
`reapcheck`, the program that lists the accounts to be deleted: the loading of the members and of the immortals, and the
loop over the passwd file with its look-ups in lastlog. Output is what it prints without -v. An entry of the passwd file
is what `split` makes of a line, with the two numeric fields as integers; missing fields are empty or 0. Undefined
values count as 0, as they do in Perl.

What a listed account may be depends on more than the entry:
- `chop` takes the last character off every line of the two lists, newline or not;
- nobody looks whether the members command or the opening of lastlog has succeeded;
- the lastlog handle is moved only for a uid that is not one more than the uid before it, which is 0 at the start; a
  seek for a negative uid fails. So the handle can stand at another record than that of the uid.

- `standsAt`, `readAt_standsAt`: which record that is, by the uids before.
- `mem_reapcheck`: exactly which entries are printed.
- `sound_iff`: exactly when nothing is printed that should not be.
- `sound_of_tidy`: lists that end in a newline, a members command that works, a lastlog that opens and uids in good
  order are enough.
- `cut_immortal`: an immortals file without a newline at its end, and an immortal on the list.
-/
import Mathlib.Tactic
import Mathlib.Data.Nat.Digits.Defs
import MNetSoft.Core.CString

namespace MNetSoft.Sbin

open MNetSoft.CString

/-! ## Model -/

def lastlog_sz : ℕ := 268

def threeWeeks : ℤ := 1814400

def threeMonths : ℤ := 7776000

/-- what `while (<FILE>)` delivers: the lines with their newlines, the last one as it is -/
def readLines : Str → List Str
  | [] => []
  | c :: s =>
    if c = '\n' then ['\n'] :: readLines s
    else
      match readLines s with
      | [] => [[c]]
      | l :: ls => (c :: l) :: ls

/-- `chop`: without the last character, whatever it is -/
def chop (l : Str) : Str := l.dropLast

/-- the keys of `%members` and `%immortals` -/
def chopped (text : Str) : List Str := (readLines text).map chop

/-- a line without its newline, if it has one -/
def chomp (l : Str) : Str := if l.getLast? = some '\n' then l.dropLast else l

def listed (text : Str) : List Str := (readLines text).map chomp

/-- a run of the members command: what it prints, whether it succeeds, and who is a member now. If it succeeds it lists
the members. -/
structure Members where
  output : Str
  ok : Bool
  current : List Str
  contract : ok = true → ∀ u, u ∈ current ↔ u ∈ listed output

structure Entry where
  user : Str
  uid : ℤ
  group : ℤ
  homedir : Str
deriving DecidableEq, Repr

structure World where
  now : ℤ
  members : Members
  /-- `none` if the file cannot be opened -/
  immortals : Option Str
  passwd : List Entry
  lastlog : List UInt8
  /-- lastlog can be opened -/
  opened : Bool
  /-- the modification time `stat` reports for a home directory -/
  mtime : Str → Option ℤ

/-- `unpack("l", buf)`: four bytes, little-endian and signed; undefined for a shorter buffer -/
def unpackL (buf : List UInt8) : ℤ :=
  if buf.length < 4 then 0
  else
    let v := Nat.ofDigits 256 ((buf.take 4).map UInt8.toNat)
    if v < 2 ^ 31 then v else v - 2 ^ 32

/-- what a `read` at a byte position of lastlog delivers -/
def World.readAt (w : World) (pos : ℕ) : List UInt8 := (w.lastlog.drop pos).take lastlog_sz

/-- the position after the `seek`, if there is one and it succeeds -/
def seekTo (pos : ℕ) (prev_uid uid : ℤ) : ℕ :=
  if prev_uid ≠ uid - 1 ∧ 0 ≤ uid then uid.toNat * lastlog_sz else pos

/-- the user is nukeable, going by `last_on` -/
def World.Nukes (w : World) (last_on : ℤ) (e : Entry) : Prop :=
  if last_on = 0 then ∃ mtime ∈ w.mtime e.homedir, 0 < mtime ∧ mtime < w.now - threeWeeks
  else last_on < w.now - threeMonths

instance (w : World) (last_on : ℤ) (e : Entry) : Decidable (w.Nukes last_on e) := by
  unfold World.Nukes
  infer_instance

/-- the user is printed, going by `last_on` -/
def World.Prints (w : World) (immortals : Str) (last_on : ℤ) (e : Entry) : Prop :=
  w.Nukes last_on e ∧ 1000 ≤ e.uid ∧ e.user ∉ chopped w.members.output ∧ e.user ∉ chopped immortals

instance (w : World) (immortals : Str) (last_on : ℤ) (e : Entry) : Decidable (w.Prints immortals last_on e) := by
  unfold World.Prints
  infer_instance

/-- the loop over the passwd file, the lastlog handle at `pos`: the entries printed -/
def reapLoop (w : World) (immortals : Str) : ℕ → ℤ → List Entry → List Entry
  | _, _, [] => []
  | pos, prev_uid, e :: es =>
    if e.group < 1000 then reapLoop w immortals pos prev_uid es
    else
      let pos := seekTo pos prev_uid e.uid
      let buf := if w.opened then w.readAt pos else []
      let rest := reapLoop w immortals (pos + buf.length) e.uid es
      if w.Prints immortals (unpackL buf) e then e :: rest else rest

/-- the entries whose users are printed -/
def reapcheck (w : World) : List Entry :=
  match w.immortals with
  | none => []
  | some immortals => reapLoop w immortals 0 0 w.passwd

/-! ## What may be printed -/

/-- the last login in the lastlog record at index `uid`, 0 for none -/
def World.lastOn (w : World) (uid : ℕ) : ℤ := unpackL (w.readAt (uid * lastlog_sz))

/-- a last login more than 90 days ago; or none ever, and a home directory last modified more than 3 weeks ago -/
def World.Stale (w : World) (last_on : ℤ) (e : Entry) : Prop :=
  (last_on ≠ 0 ∧ last_on < w.now - threeMonths) ∨
    (last_on = 0 ∧ ∃ mtime ∈ w.mtime e.homedir, mtime < w.now - threeWeeks)

structure Reapable (w : World) (e : Entry) : Prop where
  uid : 1000 ≤ e.uid
  group : 1000 ≤ e.group
  notImmortal : ∀ immortals ∈ w.immortals, e.user ∉ listed immortals
  notMember : e.user ∉ w.members.current
  stale : w.Stale (w.lastOn e.uid.toNat) e

def Sound (w : World) : Prop := ∀ e ∈ reapcheck w, Reapable w e

/-! ## Where the lastlog handle stands -/

def considered (es : List Entry) : List Entry := es.filter fun e => 1000 ≤ e.group

/-- the record read for a uid, the uids looked up before it given from the last one back: its own after a seek, the one
after the record read before otherwise -/
def standsAt : List ℤ → ℤ → ℕ
  | [], uid => if 0 ≠ uid - 1 ∧ 0 ≤ uid then uid.toNat else 0
  | p :: before, uid => if p ≠ uid - 1 ∧ 0 ≤ uid then uid.toNat else standsAt before p + 1

/-- the position `pos` reads what record `k` would: it is there, or both are past the end -/
def World.Aligned (w : World) (pos k : ℕ) : Prop :=
  pos = k * lastlog_sz ∨ (w.lastlog.length ≤ pos ∧ w.lastlog.length ≤ k * lastlog_sz)

theorem World.Aligned.readAt {w : World} {pos k : ℕ} (h : w.Aligned pos k) :
    w.readAt pos = w.readAt (k * lastlog_sz) := by
  rcases h with rfl | ⟨hpos, hk⟩
  · rfl
  · rw [World.readAt, World.readAt, List.drop_eq_nil_of_le hpos, List.drop_eq_nil_of_le hk]

/-- a read moves the handle to the next record -/
theorem World.Aligned.next {w : World} {pos k : ℕ} (h : w.Aligned pos k) :
    w.Aligned (pos + (w.readAt pos).length) (k + 1) := by
  have hlen : (w.readAt pos).length = min lastlog_sz (w.lastlog.length - pos) := by
    rw [World.readAt, List.length_take, List.length_drop]
  rw [hlen]
  unfold World.Aligned at *
  unfold lastlog_sz at *
  omega

/-- the record that follows the ones read before -/
def nextRecord : List ℤ → ℕ
  | [] => 0
  | p :: before => standsAt before p + 1

theorem standsAt_eq (before : List ℤ) (uid : ℤ) :
    standsAt before uid = if before.headD 0 ≠ uid - 1 ∧ 0 ≤ uid then uid.toNat else nextRecord before := by
  cases before <;> rfl

/-- **Which record is read** -/
theorem readAt_standsAt {w : World} {pos : ℕ} {before : List ℤ} (h : w.Aligned pos (nextRecord before)) (uid : ℤ) :
    w.Aligned (seekTo pos (before.headD 0) uid) (standsAt before uid) := by
  rw [standsAt_eq, seekTo]
  split_ifs
  · exact Or.inl rfl
  · exact h

def World.lastOnRead (w : World) (before : List ℤ) (uid : ℤ) : ℤ :=
  if w.opened then w.lastOn (standsAt before uid) else 0

/-- the loop prints an entry exactly when it is considered and what is read for it says so -/
theorem mem_reapLoop {w : World} {immortals : Str} {es : List Entry} {pos : ℕ} {before : List ℤ}
    (h : w.opened = true → w.Aligned pos (nextRecord before)) (e : Entry) :
    e ∈ reapLoop w immortals pos (before.headD 0) es ↔
      ∃ pre post, considered es = pre ++ e :: post ∧
        w.Prints immortals (w.lastOnRead ((pre.map Entry.uid).reverse ++ before) e.uid) e := by
  induction es generalizing pos before with
  | nil => simp [reapLoop, considered]
  | cons x es ih =>
    by_cases hgroup : x.group < 1000
    · have hskip : considered (x :: es) = considered es := by simp [considered, hgroup]
      rw [reapLoop, if_pos hgroup, hskip, ih h]
    · have hkeep : considered (x :: es) = x :: considered es := by simp [considered, not_lt.1 hgroup]
      set pos' := seekTo pos (before.headD 0) x.uid with hpos'
      set buf := (if w.opened then w.readAt pos' else []) with hbuf
      -- what is read for this entry, and where the handle stands then
      have hread : unpackL buf = w.lastOnRead before x.uid := by
        cases hop : w.opened with
        | false => simp [hbuf, hop, World.lastOnRead, unpackL]
        | true =>
          have haligned := readAt_standsAt (h hop) x.uid
          rw [hbuf, hop, if_pos rfl, World.lastOnRead, hop, if_pos rfl, World.lastOn, hpos', haligned.readAt]
      have hnext : w.opened = true → w.Aligned (pos' + buf.length) (nextRecord (x.uid :: before)) := by
        intro hop
        have haligned := readAt_standsAt (h hop) x.uid
        rw [hbuf, hop, if_pos rfl]
        exact haligned.next
      have hrest := ih hnext
      rw [List.headD_cons] at hrest
      have hmem : e ∈ reapLoop w immortals pos (before.headD 0) (x :: es) ↔
          (e = x ∧ w.Prints immortals (w.lastOnRead before x.uid) x) ∨
            e ∈ reapLoop w immortals (pos' + buf.length) x.uid es := by
        rw [reapLoop, if_neg hgroup]
        simp only [← hpos', ← hbuf, hread]
        split_ifs with hprints
        · simp [hprints]
        · simp [hprints]
      rw [hmem, hrest, hkeep]
      refine ⟨?_, ?_⟩
      · intro hfirst
        rcases hfirst with ⟨rfl, hprints⟩ | ⟨pre, post, hsplit, hprints⟩
        · exact ⟨[], considered es, rfl, hprints⟩
        · refine ⟨x :: pre, post, by rw [hsplit, List.cons_append], ?_⟩
          simpa using hprints
      · intro hsome
        obtain ⟨pre, post, hsplit, hprints⟩ := hsome
        cases pre with
        | nil =>
          obtain ⟨rfl, -⟩ := List.cons.inj hsplit
          exact Or.inl ⟨rfl, hprints⟩
        | cons y pre =>
          obtain ⟨rfl, htail⟩ := List.cons.inj hsplit
          refine Or.inr ⟨pre, post, htail, ?_⟩
          simpa using hprints

/-- **Which entries are printed** -/
theorem mem_reapcheck (w : World) (e : Entry) :
    e ∈ reapcheck w ↔ ∃ immortals ∈ w.immortals, ∃ pre post, considered w.passwd = pre ++ e :: post ∧
      w.Prints immortals (w.lastOnRead (pre.map Entry.uid).reverse e.uid) e := by
  unfold reapcheck
  cases w.immortals with
  | none => simp
  | some immortals =>
    have hstart : w.opened = true → w.Aligned 0 (nextRecord []) := fun _ => Or.inl (Nat.zero_mul _).symm
    have h : e ∈ reapLoop w immortals 0 0 w.passwd ↔ _ := mem_reapLoop hstart e
    simpa using h

/-! ## When the list is sound -/

/-- the last line of a text, if no newline ends it -/
def cutLine (text : Str) : Option Str := (readLines text).getLast?.filter fun l => l.getLast? ≠ some '\n'

/-- every line but the last ends in a newline -/
theorem readLines_dropLast (s : Str) : ∀ l ∈ (readLines s).dropLast, l.getLast? = some '\n' := by
  induction s with
  | nil => simp [readLines]
  | cons c s ih =>
    rw [readLines]
    split_ifs with hc
    · intro l hl
      cases hr : readLines s with
      | nil => simp [hr] at hl
      | cons l' ls =>
        rw [hr] at hl ih
        rcases List.mem_cons.1 hl with rfl | hl
        · rfl
        · exact ih l hl
    · cases hr : readLines s with
      | nil => simp
      | cons l ls =>
        cases ls with
        | nil => simp
        | cons l' ls =>
          rw [hr] at ih
          intro m hm
          rcases List.mem_cons.1 hm with rfl | hm
          · have hl := ih l List.mem_cons_self
            rw [List.getLast?_cons, hl]
            rfl
          · exact ih m (List.mem_cons_of_mem l hm)

/-- a name that `chop` spoils is the last line, without a newline -/
theorem mem_listed_iff {text u : Str} (h : u ∉ chopped text) : u ∈ listed text ↔ cutLine text = some u := by
  unfold listed cutLine
  refine ⟨?_, ?_⟩
  · intro hu
    obtain ⟨l, hl, rfl⟩ := List.mem_map.1 hu
    have hend : l.getLast? ≠ some '\n' := by
      intro hnl
      refine h (List.mem_map.2 ⟨l, hl, ?_⟩)
      rw [chomp, if_pos hnl, chop]
    have hne : readLines text ≠ [] := List.ne_nil_of_mem hl
    have hlast : l = (readLines text).getLast hne := by
      rw [← List.dropLast_append_getLast hne] at hl
      rcases List.mem_append.1 hl with hl | hl
      · exact absurd (readLines_dropLast text l hl) hend
      · exact List.mem_singleton.1 hl
    rw [List.getLast?_eq_some_getLast hne, ← hlast, chomp, if_neg hend, Option.filter_some]
    simp [hend]
  · intro hu
    obtain ⟨hlast, hend⟩ := Option.filter_eq_some_iff.1 hu
    refine List.mem_map.2 ⟨u, List.mem_of_getLast? hlast, ?_⟩
    rw [chomp, if_neg (by simpa using hend)]

/-- none of the things that can go wrong matters for the entry -/
structure Harmless (w : World) (immortals : Str) (before : List ℤ) (e : Entry) : Prop where
  /-- the user is not the immortal on a last line without a newline -/
  immortals : cutLine immortals ≠ some e.user
  /-- the members command works and he is not the member on such a line, or it fails and he is none -/
  members : if w.members.ok then cutLine w.members.output ≠ some e.user else e.user ∉ w.members.current
  /-- lastlog is open and the record read is his own, or that one says the same -/
  lastlog : (w.opened = true ∧ standsAt before e.uid = e.uid.toNat) ∨ w.Stale (w.lastOn e.uid.toNat) e

theorem World.Nukes.stale {w : World} {last_on : ℤ} {e : Entry} (h : w.Nukes last_on e) : w.Stale last_on e := by
  unfold World.Nukes at h
  split_ifs at h with h0
  · obtain ⟨mtime, hm, -, hlt⟩ := h
    exact Or.inr ⟨h0, mtime, hm, hlt⟩
  · exact Or.inl ⟨h0, h⟩

/-- for an entry that is printed, what may be printed and what can go wrong come to the same -/
theorem reapable_iff_harmless {w : World} {immortals : Str} {before : List ℤ} {e : Entry}
    (himm : w.immortals = some immortals) (hgroup : 1000 ≤ e.group)
    (hp : w.Prints immortals (w.lastOnRead before e.uid) e) : Reapable w e ↔ Harmless w immortals before e := by
  obtain ⟨hnukes, huid, hmembers, himmortals⟩ := hp
  have hmember : e.user ∉ w.members.current ↔
      if w.members.ok then cutLine w.members.output ≠ some e.user else e.user ∉ w.members.current := by
    split_ifs with hok
    · rw [w.members.contract hok, mem_listed_iff hmembers]
    · exact Iff.rfl
  refine ⟨?_, ?_⟩
  · intro h
    refine ⟨?_, hmember.1 h.notMember, Or.inr h.stale⟩
    rw [ne_eq, ← mem_listed_iff himmortals]
    exact h.notImmortal immortals himm
  · intro h
    refine ⟨huid, hgroup, fun text htext => ?_, hmember.2 h.members, ?_⟩
    · rw [himm] at htext
      cases htext
      rw [mem_listed_iff himmortals]
      exact h.immortals
    · rcases h.lastlog with ⟨hop, hown⟩ | hstale
      · rw [World.lastOnRead, if_pos hop, hown] at hnukes
        exact hnukes.stale
      · exact hstale

theorem group_considered {w : World} {pre : List Entry} {e : Entry} {post : List Entry}
    (hsplit : considered w.passwd = pre ++ e :: post) : 1000 ≤ e.group := by
  have hmem : e ∈ considered w.passwd := by
    rw [hsplit]
    exact List.mem_append_right _ List.mem_cons_self
  exact of_decide_eq_true (List.mem_filter.1 hmem).2

theorem sound_of_harmless {w : World}
    (h : ∀ immortals ∈ w.immortals, ∀ pre e post, considered w.passwd = pre ++ e :: post →
      w.Prints immortals (w.lastOnRead (pre.map Entry.uid).reverse e.uid) e →
        Harmless w immortals (pre.map Entry.uid).reverse e) : Sound w := by
  intro e he
  obtain ⟨immortals, himm, pre, post, hsplit, hp⟩ := (mem_reapcheck w e).1 he
  exact (reapable_iff_harmless himm (group_considered hsplit) hp).2 (h immortals himm pre e post hsplit hp)

/-- **When the list is sound.** For every passwd file, lastlog, immortals file and run of the members command: exactly
when nothing that can go wrong matters for an entry that is printed. -/
theorem sound_iff (w : World) :
    Sound w ↔ ∀ immortals ∈ w.immortals, ∀ pre e post, considered w.passwd = pre ++ e :: post →
      w.Prints immortals (w.lastOnRead (pre.map Entry.uid).reverse e.uid) e →
        Harmless w immortals (pre.map Entry.uid).reverse e := by
  refine ⟨?_, sound_of_harmless⟩
  intro h immortals himm pre e post hsplit hp
  refine (reapable_iff_harmless himm (group_considered hsplit) hp).1 (h e ?_)
  exact (mem_reapcheck w e).2 ⟨immortals, himm, pre, post, hsplit, hp⟩

/-- uids from 0 on, the first of them not 1, are read from their own records -/
theorem standsAt_own {before : List ℤ} {uid : ℤ} (hpos : ∀ u ∈ uid :: before, 0 ≤ u)
    (hfirst : (uid :: before).getLast? ≠ some 1) : standsAt before uid = uid.toNat := by
  induction before generalizing uid with
  | nil =>
    have huid := hpos uid List.mem_cons_self
    have hne : uid ≠ 1 := fun h => hfirst (by rw [h]; rfl)
    exact if_pos ⟨by omega, huid⟩
  | cons p before ih =>
    have huid := hpos uid List.mem_cons_self
    have hp := hpos p (List.mem_cons_of_mem uid List.mem_cons_self)
    rw [standsAt]
    split_ifs with hseek
    · rfl
    · have hprev : p = uid - 1 := by
        by_contra hne
        exact hseek ⟨hne, huid⟩
      have hrest := ih (fun u hu => hpos u (List.mem_cons_of_mem uid hu)) hfirst
      omega

/-- **Tidy input is enough**: lists that end in a newline, a members command that works, a lastlog that opens, and uids
from 0 on of which the first looked up is not 1. -/
theorem sound_of_tidy (w : World) (himm : ∀ immortals ∈ w.immortals, cutLine immortals = none)
    (hok : w.members.ok = true) (hout : cutLine w.members.output = none) (hop : w.opened = true)
    (hpos : ∀ e ∈ considered w.passwd, 0 ≤ e.uid) (hfirst : ∀ e ∈ (considered w.passwd).head?, e.uid ≠ 1) :
    Sound w := by
  refine sound_of_harmless fun immortals himmortals pre e post hsplit _ => ⟨?_, ?_, Or.inl ⟨hop, ?_⟩⟩
  · rw [himm immortals himmortals]
    simp
  · rw [if_pos hok, hout]
    simp
  · have huids : e.uid :: (pre.map Entry.uid).reverse = ((pre ++ [e]).map Entry.uid).reverse := by simp
    apply standsAt_own
    · intro u hu
      rw [huids, List.mem_reverse] at hu
      obtain ⟨x, hx, rfl⟩ := List.mem_map.1 hu
      refine hpos x ?_
      rw [hsplit, List.append_cons]
      exact List.mem_append_left post hx
    · rw [huids, List.getLast?_reverse, List.head?_map]
      intro hone
      obtain ⟨x, hx, hx1⟩ := Option.map_eq_some_iff.1 hone
      refine hfirst x ?_ hx1
      rw [hsplit, List.append_cons, List.head?_append, hx]
      rfl

/-! ## Lists that are not sound -/

def bob : Str := ['b', 'o', 'b']

def old : Str → Option ℤ := fun _ => some 1

def noMembers : Members := ⟨[], true, [], fun _ u => by simp [listed, readLines]⟩

/-- bob has never logged in, and is no immortal -/
def tidy : World := ⟨10000000, noMembers, some ['r', 'o', 'o', 't', '\n'], [⟨bob, 1001, 1001, []⟩], [], true, old⟩

/-- bob is printed, and may be -/
example : (reapcheck tidy).map Entry.user = [bob] ∧ Sound tidy :=
  ⟨by decide, sound_of_tidy tidy (by decide) rfl (by decide) rfl (by decide) (by decide)⟩

/-- bob is the last immortal, and no newline ends the file -/
def untidy : World := { tidy with immortals := some (['r', 'o', 'o', 't', '\n'] ++ bob) }

/-- **A cut name.** `chop` makes "bo" of bob, and bob is printed. -/
theorem cut_immortal : (reapcheck untidy).map Entry.user = [bob] ∧ bob ∈ listed (['r', 'o', 'o', 't', '\n'] ++ bob) ∧
    ¬Sound untidy := by
  refine ⟨by decide, by decide, fun h => ?_⟩
  have hbob := (h ⟨bob, 1001, 1001, []⟩ (by decide)).notImmortal (['r', 'o', 'o', 't', '\n'] ++ bob) rfl
  exact absurd hbob (by decide)

/-- bob has logged in a second ago, but lastlog cannot be opened -/
example : (reapcheck ⟨10000000, noMembers, some [], [⟨bob, 1001, 1001, []⟩],
    List.replicate (1001 * 268) 0 ++ [0x7f, 0x96, 0x98, 0], false, old⟩).map Entry.user = [bob] := by
  decide

end MNetSoft.Sbin
