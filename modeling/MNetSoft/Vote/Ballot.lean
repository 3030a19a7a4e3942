/-
The voter's file of the vote programs: what `record` writes in `vote.c` and in `board.c`, and how the two programs read
it back, `votedfor` (`vote.c`) line by line into a buffer of 80 bytes, `getcands` (`board.c`) word by word into one of
128. A login is a C string; the file has one for each candidate voted for, padded to 32 columns, a longer one not cut.

- `voteLines_eq`, `boardLines_eq`: both programs write the ballot of the logins voted for.
- `votedfor_iff`: which logins `votedfor` finds in a ballot of logins it can read.
- `getvotes_ballot`: `getcands` finds exactly the logins of a ballot, if they fit its buffer.
-/
import Mathlib.Tactic
import MNetSoft.Core.CString

namespace MNetSoft.Vote

open MNetSoft.CString

/-! ## Model -/

/-- a candidate in `vote.c` -/
structure CandRec where
  name : Str
  logid : Str
  stmt : Str
  /-- 1 iff the user voted for them -/
  votefor : Bool
deriving DecidableEq, Repr

/-- a candidate in `board.c` -/
structure Candtag where
  descrip : Str
  dir : Str
  /-- user's vote (1 if for, 0 if against) -/
  uvote : Bool
deriving DecidableEq, Repr

/-- max input line length of `board.c` -/
def LINEMAX : ℕ := 128

/-- `%-32s` -/
def pad32 (s : Str) : Str := s ++ List.replicate (32 - s.length) ' '

/-- the lines of the file, `"%-32s\n"` each -/
def ballot (logins : List Str) : Str := unlines (logins.map pad32)

/-- the loop of `record` in `vote.c` -/
def voteLines : List CandRec → Str
  | [] => []
  | c :: cr => if c.votefor then pad32 c.logid ++ '\n' :: voteLines cr else voteLines cr

/-- the loop of `record` in `board.c` -/
def boardLines : List Candtag → Str
  | [] => []
  | c :: candlist => if c.uvote then pad32 c.dir ++ '\n' :: boardLines candlist else boardLines candlist

/-- the characters of `alphanum` -/
def alphanum (c : Char) : Bool := ('a' ≤ c ∧ c ≤ 'z') ∨ ('0' ≤ c ∧ c ≤ '9')

/-- the buffer after `*(vbuf + strspn(vbuf, alphanum)) = '\0'` -/
def cutAlphanum (vbuf : Str) : Str := (cstr vbuf).takeWhile alphanum

/-- `votedfor`; `cd` says whether the directory can be entered, `vf` is the voter's file, if it can be opened -/
def votedfor (cd : Bool) (vf : Option Str) (login : Str) : ℤ :=
  if !cd then -1
  else
    match vf with
    | none => 0
    | some text => if (fgetsAll 80 text).any fun vbuf => strcmp (cutAlphanum vbuf) login = 0 then 1 else 0

/-- set `uvote` of the first candidate with this id, if there is one -/
def setVote (candid : Str) : List Candtag → Option (List Candtag)
  | [] => none
  | c :: candlist =>
    if strcmp c.dir (cstr candid) ≠ 0 then (setVote candid candlist).map (c :: ·)
    else some ({ c with uvote := true } :: candlist)

/-- one turn of the loop that fills in the user's votes: the candidates and `numvotes`. A word that does not fit
`candid` is written past its end, after which nothing is promised: `none`. -/
def readVote (st : List Candtag × ℤ) (candid : Str) : Option (List Candtag × ℤ) :=
  if LINEMAX ≤ candid.length then none
  else
    match setVote candid st.1 with
    | none => some st
    | some candlist => some (candlist, st.2 + 1)

/-- the part of `getcands` of `board.c` that reads the user's votes: the candidates with their `uvote`, and
`numvotes` -/
def getvotes (userfile : Option Str) (candlist : List Candtag) : Option (List Candtag × ℤ) :=
  let cleared := candlist.map fun c => { c with uvote := false }
  match userfile with
  | none => some (cleared, 0)
  | some text => (scanWords text).foldlM readVote (cleared, 0)

/-! ## What is written -/

/-- the logins `vote.c` writes -/
def chosen (cr : List CandRec) : List Str := (cr.filter CandRec.votefor).map CandRec.logid

/-- the logins `board.c` writes -/
def flagged (candlist : List Candtag) : List Str := (candlist.filter Candtag.uvote).map Candtag.dir

theorem ballot_cons (l : Str) (logins : List Str) : ballot (l :: logins) = pad32 l ++ '\n' :: ballot logins := by
  simp [ballot, unlines]

theorem voteLines_eq (cr : List CandRec) : voteLines cr = ballot (chosen cr) := by
  induction cr with
  | nil => rfl
  | cons c cr ih =>
    rw [voteLines, chosen, List.filter_cons]
    split_ifs
    · rw [List.map_cons, ballot_cons, ih, chosen]
    · exact ih

theorem boardLines_eq (candlist : List Candtag) : boardLines candlist = ballot (flagged candlist) := by
  induction candlist with
  | nil => rfl
  | cons c candlist ih =>
    rw [boardLines, flagged, List.filter_cons]
    split_ifs
    · rw [List.map_cons, ballot_cons, ih, flagged]
    · exact ih

/-! ## Reading by lines -/

/-- a login that `votedfor` can read: lower-case letters and digits alone, 79 of them at most -/
def Plain (l : Str) : Prop := (∀ c ∈ l, alphanum c = true) ∧ l.length < 80

instance : DecidablePred Plain := fun l => by unfold Plain; infer_instance

theorem plain_of_mem {text vbuf : Str} (h : vbuf ∈ fgetsAll 80 text) : Plain (cutAlphanum vbuf) := by
  refine ⟨fun c hc => ?_, ?_⟩
  · exact List.all_eq_true.1 (List.all_takeWhile (p := alphanum) (l := cstr vbuf)) c hc
  · have hlen := length_of_mem_fgetsAll h
    have hcut : (cutAlphanum vbuf).length ≤ vbuf.length :=
      ((List.takeWhile_sublist _).trans (List.takeWhile_sublist _)).length_le
    omega

theorem alphanum_ne {l : Str} (h : ∀ c ∈ l, alphanum c = true) {c : Char} (hc : alphanum c = false) : c ∉ l := by
  intro hmem
  rw [h c hmem] at hc
  cases hc

theorem cutAlphanum_append {l : Str} (h : ∀ c ∈ l, alphanum c = true) {c : Char} (hc : alphanum c = false)
    {s : Str} (hs : '\x00' ∉ c :: s) : cutAlphanum (l ++ c :: s) = l := by
  have hnul : '\x00' ∉ l ++ c :: s := by
    intro hmem
    rcases List.mem_append.1 hmem with hmem | hmem
    · exact alphanum_ne h (by decide) hmem
    · exact hs hmem
  calc cutAlphanum (l ++ c :: s) = (l ++ c :: s).takeWhile alphanum := by rw [cutAlphanum, cstr_of_not_mem hnul]
    _ = l ++ (c :: s).takeWhile alphanum := List.takeWhile_append_of_pos h
    _ = l := by rw [List.takeWhile_cons_of_neg (by simp [hc]), List.append_nil]

/-- what `fgets` delivers of a plain line, as `votedfor` cuts it: the login, and nothing more if the line is too long
for the buffer by its newline -/
theorem fgetsAll_plain {l : Str} (h : Plain l) (s : Str) :
    (fgetsAll 80 (pad32 l ++ '\n' :: s)).map cutAlphanum = l :: (fgetsAll 80 s).map cutAlphanum ∨
    (fgetsAll 80 (pad32 l ++ '\n' :: s)).map cutAlphanum = l :: [] :: (fgetsAll 80 s).map cutAlphanum := by
  obtain ⟨hchars, hlen⟩ := h
  have hnl : '\n' ∉ pad32 l := by
    intro hmem
    rcases List.mem_append.1 hmem with hmem | hmem
    · exact alphanum_ne hchars (by decide) hmem
    · exact absurd (List.eq_of_mem_replicate hmem) (by decide)
  by_cases hfit : l.length < 79
  · left
    have hpad : (pad32 l).length + 1 < 80 := by
      rw [pad32, List.length_append, List.length_replicate]
      omega
    have hcut : cutAlphanum (pad32 l ++ ['\n']) = l := by
      rw [pad32, List.append_assoc]
      cases hk : 32 - l.length with
      | zero => exact cutAlphanum_append hchars (by decide) (by decide)
      | succ k =>
        rw [List.replicate_succ, List.cons_append]
        refine cutAlphanum_append hchars (by decide) ?_
        intro hmem
        rcases List.mem_cons.1 hmem with hmem | hmem
        · exact absurd hmem (by decide)
        · rcases List.mem_append.1 hmem with hmem | hmem
          · exact absurd (List.eq_of_mem_replicate hmem) (by decide)
          · exact absurd hmem (by decide)
    rw [fgetsAll_cons (by norm_num) (fgets_line hnl hpad s), List.map_cons, hcut]
  · right
    have hl : l.length = 79 := by omega
    have hpad : pad32 l = l := by rw [pad32, hl]; exact List.append_nil l
    have hnl' : '\n' ∉ l := hpad ▸ hnl
    have hread : fgets 80 (l ++ '\n' :: s) = some (l, '\n' :: s) := by
      rw [fgets, if_neg (by simp), takeLine_full hnl' hl]
    have hcut1 : cutAlphanum l = l := by
      have hall : (l ++ []).takeWhile alphanum = l ++ [].takeWhile alphanum := List.takeWhile_append_of_pos hchars
      rw [cutAlphanum, cstr_of_not_mem (alphanum_ne hchars (by decide))]
      rwa [List.takeWhile_nil, List.append_nil] at hall
    have hrest : fgets 80 ('\n' :: s) = some (['\n'], s) := fgets_line (l := []) (by decide) (by norm_num) s
    rw [hpad, fgetsAll_cons (by norm_num) hread, fgetsAll_cons (by norm_num) hrest, List.map_cons, List.map_cons, hcut1]
    rfl

theorem votedfor_one_iff (text login : Str) :
    votedfor true (some text) login = 1 ↔ login ∈ (fgetsAll 80 text).map cutAlphanum := by
  have hany : ((fgetsAll 80 text).any fun vbuf => strcmp (cutAlphanum vbuf) login = 0) = true ↔
      login ∈ (fgetsAll 80 text).map cutAlphanum := by
    simp only [List.any_eq_true, decide_eq_true_eq, strcmp_zero, List.mem_map]
  rw [← hany, votedfor]
  simp only [Bool.not_true, Bool.false_eq_true, if_false]
  split_ifs with h
  · exact iff_of_true rfl h
  · exact iff_of_false (by decide) h

/-- **What `votedfor` finds** in a ballot of plain logins. -/
theorem votedfor_iff {S : List Str} (hS : ∀ l ∈ S, Plain l) {login : Str} (hne : login ≠ []) :
    votedfor true (some (ballot S)) login = 1 ↔ login ∈ S := by
  rw [votedfor_one_iff]
  induction S with
  | nil => exact Iff.rfl
  | cons l S ih =>
    obtain ⟨hl, hrest⟩ := List.forall_mem_cons.1 hS
    rw [ballot_cons, List.mem_cons, ← ih hrest]
    rcases fgetsAll_plain hl (ballot S) with h | h
    · rw [h, List.mem_cons]
    · rw [h, List.mem_cons, List.mem_cons, or_iff_right hne]

/-! ## Reading by words -/

/-- a login as the claims about the file need it: a C string, not empty, no white space in it -/
structure Word (l : Str) : Prop where
  nonempty : l ≠ []
  no_space : ∀ c ∈ l, isspace c = false
  no_nul : '\x00' ∉ l

theorem scanWords_ballot {S : List Str} (hS : ∀ l ∈ S, Word l) : scanWords (ballot S) = S := by
  induction S with
  | nil => rfl
  | cons l S ih =>
    obtain ⟨hl, hrest⟩ := List.forall_mem_cons.1 hS
    have hblank : ∀ (k : ℕ) (s : Str), scanWords (List.replicate k ' ' ++ s) = scanWords s := by
      intro k s
      induction k with
      | zero => rfl
      | succ k ihk => rw [List.replicate_succ, List.cons_append, scanWords_space (by decide), ihk]
    obtain ⟨sp, t, hsp, ht⟩ : ∃ sp t, isspace sp = true ∧
        List.replicate (32 - l.length) ' ' ++ '\n' :: ballot S = sp :: t := by
      cases 32 - l.length with
      | zero => exact ⟨_, _, by decide, rfl⟩
      | succ k => exact ⟨_, _, by decide, rfl⟩
    have hword : scanWords (l ++ sp :: t) = l :: scanWords (sp :: t) :=
      scanWords_cons (scanWord_word hl.nonempty hl.no_space hsp t)
    calc scanWords (ballot (l :: S)) = scanWords (l ++ sp :: t) := by
          rw [ballot_cons, pad32, List.append_assoc, ht]
      _ = l :: scanWords (sp :: t) := hword
      _ = l :: scanWords (ballot S) := by rw [← ht, hblank, scanWords_space (by decide)]
      _ = l :: S := by rw [ih hrest]

theorem setVote_of_mem {candlist : List Candtag} (hnodup : (candlist.map Candtag.dir).Nodup) {candid : Str}
    (hnul : '\x00' ∉ candid) (hmem : candid ∈ candlist.map Candtag.dir) :
    setVote candid candlist = some (candlist.map fun c => { c with uvote := c.uvote || decide (c.dir = candid) }) := by
  induction candlist with
  | nil => cases hmem
  | cons c candlist ih =>
    obtain ⟨hnot, hnodup⟩ := List.nodup_cons.1 hnodup
    rw [setVote, cstr_of_not_mem hnul, List.map_cons]
    simp only [ne_eq, strcmp_zero]
    by_cases h : c.dir = candid
    · have hrest : ∀ a ∈ candlist, { a with uvote := a.uvote || decide (a.dir = candid) } = a := by
        intro a ha
        have hne : a.dir ≠ candid := fun heq => hnot (h ▸ heq ▸ List.mem_map_of_mem ha)
        simp [hne]
      rw [if_neg (not_not.2 h), List.map_congr_left hrest, List.map_id']
      simp [h]
    · have hrest : candid ∈ candlist.map Candtag.dir := (List.mem_cons.1 hmem).resolve_left (Ne.symm h)
      rw [if_pos h, ih hnodup hrest]
      simp [h]

theorem foldlM_readVote {candlist : List Candtag} (hnodup : (candlist.map Candtag.dir).Nodup) {words : List Str}
    (hw : ∀ w ∈ words, w ∈ candlist.map Candtag.dir ∧ '\x00' ∉ w ∧ w.length < LINEMAX) (n : ℤ) :
    words.foldlM readVote (candlist, n) =
      some (candlist.map fun c => { c with uvote := c.uvote || decide (c.dir ∈ words) }, n + words.length) := by
  induction words generalizing candlist n with
  | nil => simp
  | cons w words ih =>
    obtain ⟨⟨hmem, hnul, hlen⟩, hrest⟩ := List.forall_mem_cons.1 hw
    set marked := candlist.map fun c => { c with uvote := c.uvote || decide (c.dir = w) } with hmarked
    have hdirs : marked.map Candtag.dir = candlist.map Candtag.dir := by
      rw [hmarked, List.map_map]
      rfl
    have hread : readVote (candlist, n) w = some (marked, n + 1) := by
      rw [readVote, if_neg (by omega), setVote_of_mem hnodup hnul hmem]
    rw [List.foldlM_cons, hread]
    simp only [Option.bind_eq_bind, Option.bind_some]
    rw [ih (hdirs ▸ hnodup) (hdirs ▸ hrest), hmarked, List.map_map]
    refine congrArg some (Prod.ext ?_ ?_)
    · apply List.map_congr_left
      intro c _
      simp only [Function.comp_apply, List.mem_cons, Bool.decide_or, Bool.or_assoc]
    · simp only [List.length_cons, Nat.cast_add, Nat.cast_one]
      ring

/-- **What `getcands` finds** in a ballot of candidates' logins that fit its buffer. -/
theorem getvotes_ballot {candlist : List Candtag} (hnodup : (candlist.map Candtag.dir).Nodup) {S : List Str}
    (hS : ∀ l ∈ S, l ∈ candlist.map Candtag.dir ∧ Word l ∧ l.length < LINEMAX) :
    getvotes (some (ballot S)) candlist =
      some (candlist.map fun c => { c with uvote := decide (c.dir ∈ S) }, (S.length : ℤ)) := by
  set cleared := candlist.map fun c => { c with uvote := false } with hcleared
  have hdirs : cleared.map Candtag.dir = candlist.map Candtag.dir := by
    rw [hcleared, List.map_map]
    rfl
  have hwords : ∀ w ∈ S, w ∈ cleared.map Candtag.dir ∧ '\x00' ∉ w ∧ w.length < LINEMAX := by
    intro w hw
    rw [hdirs]
    exact ⟨(hS w hw).1, (hS w hw).2.1.no_nul, (hS w hw).2.2⟩
  have hread : getvotes (some (ballot S)) candlist = S.foldlM readVote (cleared, 0) := by
    rw [getvotes, scanWords_ballot fun l hl => (hS l hl).2.1]
  rw [hread, foldlM_readVote (hdirs.symm ▸ hnodup) hwords, hcleared, List.map_map]
  refine congrArg some (Prod.ext ?_ ?_)
  · apply List.map_congr_left
    intro c _
    simp only [Function.comp_apply, Bool.false_or]
  · exact zero_add _

end MNetSoft.Vote
