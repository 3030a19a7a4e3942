/-
How `board.c` starts: its `getcands` reads the candidates into `candlist` and marks those the user has voted for. Unlike
`vote.c` it has an array of 50 candidates and a buffer of 4096 bytes for their names and logins, reads the file in lines
of at most 127 bytes and cuts them with `strtok`, which takes no empty field. The statement files are left out, and
`rndorder` is that of `vote.c`.

- `fillCands_of_fits`, `fits_of_fillCands`: the loop over the lines has the logins of a file exactly if the file fits.
- `length_getcands_le`: there are never more candidates than the array has room for.
- `readers_agree_iff`: both programs read back what either has written exactly when every login written is lower-case
  letters and digits alone, no longer than 79 characters, the candidates fit `board.c`, and the files can be reached.
- `underscore_lost`: a login with an underscore.
-/
import Mathlib.Tactic
import Mathlib.Data.List.ReduceOption
import MNetSoft.Vote.Candlist

namespace MNetSoft.Vote

open MNetSoft.CString MNetSoft.Numerals MNetSoft.Memory

/-! ## Model -/

/-- ridiculously high max # of candidates -/
def MAXCAND : ℕ := 50

def MAXBALLOT : ℕ := 4096

/-- how the program ends, if it does not stay at its menu -/
inductive Ending where
  | exit (status : ℕ)
  /-- a null pointer is used -/
  | crash
  /-- it waits for the end of a line in a file that is at its end -/
  | hangs
  /-- memory outside a buffer or an array is used: nothing is promised -/
  | undefined
deriving DecidableEq, Repr

structure Board where
  candlist : List Candtag
  /-- number of slots to be filled -/
  numslots : ℤ
  /-- number of votes cast -/
  numvotes : ℤ
deriving DecidableEq, Repr

/-- what `getcands` finds: whether the directories can be entered, whether the polls are open, the two files, if they
can be opened, and the random numbers -/
structure Setting where
  cdBoard : Bool
  polls : Bool
  candfile : Option Str
  random : ℕ → ℤ
  cdVotes : Bool
  userfile : Option Str

/-- `fscanf` of a number, and `while (getc(candfile) != '\n')` -/
def scanLine (status : ℕ) (candfile : Str) : Except Ending (ℤ × Str) :=
  match scanInt candfile with
  | none => .error (.exit status)
  | some (n, rest) =>
    match rest.dropWhile (· ≠ '\n') with
    | [] => .error .hangs
    | _ :: rest => .ok (n, rest)

/-- `strtok` for one delimiter: the token, and what is left behind the delimiter that ends it -/
def strtok (delim : Char) (s : Str) : Option (Str × Str) :=
  match s.dropWhile (· = delim) with
  | [] => none
  | c :: s => some ((c :: s).takeWhile (· ≠ delim), ((c :: s).dropWhile (· ≠ delim)).drop 1)

/-- `descripfield` and `dirfield`, if there is a `stmtfield` as well -/
def lineFields (linebuf : Str) : Option (Str × Str) :=
  match strtok ':' linebuf with
  | none => none
  | some (descripfield, s) =>
    match strtok ':' s with
    | none => none
    | some (dirfield, s) => (strtok '\n' s).map fun _ => (descripfield, dirfield)

/-- a field is copied to `balbuf`: the string there, and what is left of `bbuflen`. With none left `strlcpy` writes no
NUL, and `strlen` goes on behind the buffer. -/
def putField (bbuflen : ℕ) (field : Str) : Except Ending (Str × ℕ) :=
  if bbuflen = 0 then .error .undefined
  else .ok (strlcpy field bbuflen, bbuflen - ((strlcpy field bbuflen).length + 1))

/-- the loop over the candidates, with what is left of `permute` and of `bbuflen` -/
def fillCands : List ℕ → ℕ → Str → List (Option Candtag) → Except Ending (List (Option Candtag))
  | [], _, _, candlist => .ok candlist
  | j :: permute, bbuflen, candfile, candlist =>
    match fgets LINEMAX candfile with
    | none => .error (.exit 6)
    | some (linebuf, candfile) =>
      -- `linebuf[linelen - 1]`
      if cstr linebuf = [] then .error .undefined
      else if (cstr linebuf).getLast? ≠ some '\n' then .error (.exit 7)
      else
        match lineFields (cstr linebuf) with
        | none => .error (.exit 8)
        | some (descripfield, dirfield) =>
          match putField bbuflen descripfield with
          | .error e => .error e
          | .ok (descrip, bbuflen) =>
            match putField bbuflen dirfield with
            | .error e => .error e
            | .ok (dir, bbuflen) =>
              match store candlist j (some ⟨descrip, dir, false⟩) with
              | none => .error .undefined
              | some candlist => fillCands permute bbuflen candfile candlist

/-- the candidates in random order. `permute` and `candlist` have room for `MAXCAND`, of which `numcand` are used. -/
def readCands (random : ℕ → ℤ) (numcand : ℤ) (candfile : Str) : Except Ending (List Candtag) :=
  if MAXCAND < numcand then .error .undefined
  else
    match rndorder random (List.replicate numcand.toNat 0) numcand.toNat with
    | none => .error .undefined
    | some permute =>
      (fillCands permute MAXBALLOT candfile (List.replicate numcand.toNat none)).map List.reduceOption

/-- `getcands` of `board.c` -/
def Setting.getcands (s : Setting) : Except Ending Board :=
  if !s.cdBoard then .error (.exit 2)
  else if !s.polls then .error (.exit 0)
  else
    match s.candfile with
    | none => .error (.exit 3)
    | some candfile =>
      match scanLine 5 candfile with
      | .error e => .error e
      | .ok (numcand, candfile) =>
        match scanLine 4 candfile with
        | .error e => .error e
        | .ok (numslots, candfile) =>
          match readCands s.random numcand candfile with
          | .error e => .error e
          | .ok candlist =>
            if !s.cdVotes then .error (.exit 9)
            else
              match getvotes s.userfile candlist with
              | none => .error .undefined
              | some (candlist, numvotes) => .ok ⟨candlist, numslots, numvotes⟩

/-! ## What is claimed -/

/-- a candidate list as it stands in a file: pairwise distinct logins, which are words without a colon, in lines of
three fields -/
structure Listed (cs : List Cand) : Prop where
  nodup : (cs.map Cand.login).Nodup
  word : ∀ c ∈ cs, Word c.login
  line : ∀ c ∈ cs, '\x00' ∉ c.text ∧ '\n' ∉ c.name ∧ ':' ∉ c.path

/-- the cells of `balbuf` for a candidate -/
def Cand.size (c : Cand) : ℕ := c.name.length + 1 + (c.login.length + 1)

/-- the line of a candidate fits `linebuf` and has three fields -/
def Cand.Fits (c : Cand) : Prop := c.text.length < LINEMAX ∧ c.name ≠ [] ∧ c.path ≠ []

instance : DecidablePred Cand.Fits := fun c => by unfold Cand.Fits; infer_instance

/-- the candidates fit `board.c` -/
structure Fits (bbuflen : ℕ) (cs : List Cand) : Prop where
  line : ∀ c ∈ cs, c.Fits
  room : (cs.map Cand.size).sum ≤ bbuflen

/-- a candidate list of either program, at the time its `record` is called -/
inductive Slate where
  | vote (cr : List CandRec)
  | board (candlist : List Candtag)

def Slate.logins : Slate → List Str
  | .vote cr => cr.map CandRec.logid
  | .board candlist => candlist.map Candtag.dir

/-- the logins of the candidates voted for -/
def Slate.chosen : Slate → List Str
  | .vote cr => Vote.chosen cr
  | .board candlist => flagged candlist

def Slate.text : Slate → Str
  | .vote cr => voteLines cr
  | .board candlist => boardLines candlist

/-- what the two readers can reach: the directories, the files and the polls. The calls of `votedfor` are numbered by
the candidates; none of them closes the file it has opened. -/
structure Access where
  cd : ℕ → Bool
  opens : ℕ → Bool
  cdBoard : Bool
  polls : Bool
  candfile : Bool
  cdVotes : Bool
  userfile : Bool

/-- what `board.c` finds, the candidates being in the file `text` and the votes in `ballot` -/
def Access.setting (a : Access) (random : ℕ → ℤ) (text ballot : Str) : Setting where
  cdBoard := a.cdBoard
  polls := a.polls
  candfile := if a.candfile then some text else none
  random := random
  cdVotes := a.cdVotes
  userfile := if a.userfile then some ballot else none

/-- both readers recover exactly `S`: `votedfor` returns 1 for the logins in it, and `getcands`, which has all the
candidates, sets `uvote` for them -/
def BothRead (a : Access) (random : ℕ → ℤ) (text : Str) (cs : List Cand) (S : List Str) (ballot : Str) : Prop :=
  (∀ i c, cs[i]? = some c →
    (votedfor (a.cd i) (if a.opens i then some ballot else none) c.login = 1 ↔ c.login ∈ S)) ∧
  ∃ b, (a.setting random text ballot).getcands = .ok b ∧ (b.candlist.map Candtag.dir).Perm (cs.map Cand.login) ∧
    ∀ c ∈ b.candlist, c.uvote = true ↔ c.dir ∈ S

/-- what has to be reached for `S` to be read -/
structure Reached (a : Access) (cs : List Cand) (S : List Str) : Prop where
  vote : ∀ i c, cs[i]? = some c → c.login ∈ S → a.cd i = true ∧ a.opens i = true
  board : a.cdBoard = true ∧ a.polls = true ∧ a.candfile = true ∧ a.cdVotes = true
  userfile : S ≠ [] → a.userfile = true

/-! ## Lines -/

section Tokens

variable {delim : Char} {a : Str}

theorem dropWhile_delim (hne : a ≠ []) (hdelim : delim ∉ a) (s : Str) : (a ++ s).dropWhile (· = delim) = a ++ s := by
  obtain ⟨c, a, rfl⟩ := List.exists_cons_of_ne_nil hne
  have hc : c ≠ delim := fun h => hdelim (by simp [h])
  exact List.dropWhile_cons_of_neg (by simpa using hc)

theorem strtok_field (hne : a ≠ []) (hdelim : delim ∉ a) (s : Str) : strtok delim (a ++ delim :: s) = some (a, s) := by
  have hpos : ∀ c ∈ a, decide (c ≠ delim) = true := by
    intro c hc
    simpa using fun h : c = delim => hdelim (h ▸ hc)
  rw [strtok, dropWhile_delim hne hdelim]
  obtain ⟨c, a, rfl⟩ := List.exists_cons_of_ne_nil hne
  simp only [List.cons_append]
  rw [← List.cons_append, List.takeWhile_append_of_pos hpos, List.dropWhile_append_of_pos hpos]
  simp

theorem strtok_last (hne : a ≠ []) (hdelim : delim ∉ a) : strtok delim a = some (a, []) := by
  have hpos : ∀ c ∈ a, decide (c ≠ delim) = true := by
    intro c hc
    simpa using fun h : c = delim => hdelim (h ▸ hc)
  have hdrop : a.dropWhile (· = delim) = a := by simpa using dropWhile_delim hne hdelim []
  rw [strtok, hdrop]
  obtain ⟨c, a, rfl⟩ := List.exists_cons_of_ne_nil hne
  simp only
  rw [List.takeWhile_eq_self_iff.2 hpos, List.dropWhile_eq_nil_iff.2 hpos]
  rfl

end Tokens

section Lines

variable {cs : List Cand} {c : Cand}

/-- **The fields of a line** are those of the candidate, if none is empty. -/
theorem lineFields_text (h : Listed cs) (hc : c ∈ cs) :
    lineFields c.text = if c.name = [] ∨ c.path = [] then none else some (c.name, c.login) := by
  have hlogin : c.login ≠ [] := (h.word c hc).nonempty
  have hpath : ':' ∉ c.path ++ ['\n'] := by
    have := (h.line c hc).2.2
    simpa using this
  rw [lineFields, Cand.text]
  by_cases hname : c.name = []
  · have hskip : strtok ':' (':' :: (c.login ++ ':' :: (c.path ++ ['\n']))) = some (c.login, c.path ++ ['\n']) := by
      rw [← strtok_field hlogin c.login_colon (c.path ++ ['\n']), strtok, strtok,
        List.dropWhile_cons_of_pos (by decide)]
    have hlast : strtok ':' (c.path ++ ['\n']) = some (c.path ++ ['\n'], []) := strtok_last (by simp) hpath
    rw [if_pos (Or.inl hname), hname, List.nil_append, hskip]
    simp only [hlast]
    rfl
  · rw [strtok_field hname c.name_colon]
    simp only [strtok_field hlogin c.login_colon]
    by_cases hp : c.path = []
    · rw [if_pos (Or.inr hp), hp]
      rfl
    · rw [if_neg (by simp [hname, hp]), strtok_field hp c.path_newline []]
      rfl

/-- the line of a candidate without its newline -/
theorem Cand.text_eq (c : Cand) (rest : Str) :
    c.text ++ rest = (c.name ++ ':' :: (c.login ++ ':' :: c.path)) ++ '\n' :: rest := by simp [Cand.text]

theorem newline_not_mem_line (h : Listed cs) (hc : c ∈ cs) : '\n' ∉ c.name ++ ':' :: (c.login ++ ':' :: c.path) := by
  have hlogin : '\n' ∉ c.login := fun hmem => absurd ((h.word c hc).no_space _ hmem) (by decide)
  simp [(h.line c hc).2.1, hlogin, c.path_newline]

/-- the line of a candidate that fills the buffer before its newline -/
theorem fgets_long (h : Listed cs) (hc : c ∈ cs) (hlong : LINEMAX ≤ c.text.length) (rest : Str) :
    ∃ piece behind, fgets LINEMAX (c.text ++ rest) = some (piece, behind) ∧
      piece ≠ [] ∧ '\n' ∉ piece ∧ '\x00' ∉ piece := by
  set body := c.name ++ ':' :: (c.login ++ ':' :: c.path) with hbody
  have hnl : '\n' ∉ body := newline_not_mem_line h hc
  have htext : c.text = body ++ ['\n'] := (List.append_nil _).symm.trans (c.text_eq [])
  have hlen : c.text.length = body.length + 1 := by simp [htext]
  have hfull : (body.take (LINEMAX - 1)).length = LINEMAX - 1 := List.length_take_of_le (by omega)
  have hnl' : '\n' ∉ body.take (LINEMAX - 1) := fun hmem => hnl (List.mem_of_mem_take hmem)
  refine ⟨body.take (LINEMAX - 1), body.drop (LINEMAX - 1) ++ '\n' :: rest, ?_, ?_, hnl', fun hmem => ?_⟩
  · rw [c.text_eq rest, fgets, if_neg (by simp), ← takeLine_full hnl' hfull (body.drop (LINEMAX - 1) ++ '\n' :: rest),
      ← List.append_assoc, List.take_append_drop]
  · intro hnil
    rw [hnil] at hfull
    cases hfull
  · exact (h.line c hc).1 (by rw [htext]; exact List.mem_append_left _ (List.mem_of_mem_take hmem))

theorem fgets_text (h : Listed cs) (hc : c ∈ cs) (hshort : c.text.length < LINEMAX) (rest : Str) :
    fgets LINEMAX (c.text ++ rest) = some (c.text, rest) := by
  have hnl := newline_not_mem_line h hc
  have htext := (List.append_nil _).symm.trans (c.text_eq [])
  rw [c.text_eq rest, htext]
  rw [htext, List.length_append] at hshort
  exact fgets_line hnl hshort rest

theorem fillCands_cons (h : Listed cs) (hc : c ∈ cs) (j : ℕ) (permute : List ℕ) (bbuflen : ℕ) (rest : Str)
    (candlist : List (Option Candtag)) :
    fillCands (j :: permute) bbuflen (c.text ++ rest) candlist =
      if LINEMAX ≤ c.text.length then .error (.exit 7)
      else if c.name = [] ∨ c.path = [] then .error (.exit 8)
      else
        match putField bbuflen c.name with
        | .error e => .error e
        | .ok (descrip, bbuflen) =>
          match putField bbuflen c.login with
          | .error e => .error e
          | .ok (dir, bbuflen) =>
            match store candlist j (some ⟨descrip, dir, false⟩) with
            | none => .error .undefined
            | some candlist => fillCands permute bbuflen rest candlist := by
  rw [fillCands]
  by_cases hlong : LINEMAX ≤ c.text.length
  · obtain ⟨piece, behind, hread, hne, hnl, hnul⟩ := fgets_long h hc hlong rest
    rw [if_pos hlong, hread]
    simp only [cstr_of_not_mem hnul]
    rw [if_neg hne, if_pos]
    intro hlast
    exact hnl (List.mem_of_getLast? hlast)
  · have hlast : c.text.getLast? = some '\n' := by
      rw [(List.append_nil _).symm.trans (c.text_eq []), List.getLast?_concat]
    have hne : c.text ≠ [] := by
      intro hnil
      rw [hnil] at hlast
      cases hlast
    rw [if_neg hlong, fgets_text h hc (not_le.1 hlong) rest]
    simp only [cstr_of_not_mem (h.line c hc).1]
    rw [if_neg hne, if_neg (not_not.2 hlast), lineFields_text h hc]
    split_ifs <;> rfl

end Lines

/-! ## The loop over the lines -/

section Fill

variable {cs : List Cand} {permute : List ℕ} {candlist out : List (Option Candtag)} {bbuflen : ℕ} {rest : Str}

theorem Listed.tail {c : Cand} (h : Listed (c :: cs)) : Listed cs :=
  ⟨h.nodup.of_cons, fun d hd => h.word d (List.mem_cons_of_mem c hd), fun d hd => h.line d (List.mem_cons_of_mem c hd)⟩

theorem putField_of_lt {field : Str} (h : field.length < bbuflen) :
    putField bbuflen field = .ok (field, bbuflen - (field.length + 1)) := by
  have hwhole : strlcpy field bbuflen = field := List.take_of_length_le (by omega)
  rw [putField, if_neg (by omega), hwhole]

/-- what is copied, and when it is the field -/
theorem putField_spec {field s : Str} {n : ℕ} (h : putField bbuflen field = .ok (s, n)) :
    (s = field ∧ field.length < bbuflen ∧ n = bbuflen - (field.length + 1)) ∨ (s ≠ field ∧ n = 0) := by
  rw [putField] at h
  split_ifs at h with hzero
  cases h
  by_cases hlt : field.length < bbuflen
  · have hwhole : strlcpy field bbuflen = field := List.take_of_length_le (by omega)
    rw [hwhole]
    exact Or.inl ⟨rfl, hlt, rfl⟩
  · have hlen : (strlcpy field bbuflen).length = bbuflen - 1 := List.length_take_of_le (by omega)
    refine Or.inr ⟨fun heq => ?_, by omega⟩
    rw [heq] at hlen
    omega

/-- the candidate as it is stored when there is room -/
def Cand.tag (c : Cand) : Candtag := ⟨c.name, c.login, false⟩

/-- **A file that fits** is stored whole. -/
theorem fillCands_of_fits (h : Listed cs) (hfits : Fits bbuflen cs) (hp : ∀ k ∈ permute, k < candlist.length)
    (hlen : permute.length = cs.length) (rest : Str) :
    fillCands permute bbuflen (cs.flatMap Cand.text ++ rest) candlist =
      .ok (place permute (cs.map Cand.tag) candlist) := by
  induction cs generalizing permute bbuflen candlist with
  | nil =>
    rw [List.length_eq_zero_iff.1 hlen]
    rfl
  | cons c cs ih =>
    obtain ⟨j, permute, rfl⟩ := List.exists_cons_of_length_eq_add_one hlen
    obtain ⟨hj, hp⟩ := List.forall_mem_cons.1 hp
    obtain ⟨hline, hname, hpath⟩ := hfits.line c List.mem_cons_self
    have hroom : c.name.length + 1 + (c.login.length + 1) + (cs.map Cand.size).sum ≤ bbuflen := hfits.room
    have hrest : Fits (bbuflen - (c.name.length + 1) - (c.login.length + 1)) cs :=
      ⟨fun d hd => hfits.line d (List.mem_cons_of_mem c hd), by omega⟩
    rw [List.flatMap_cons, List.append_assoc, fillCands_cons h List.mem_cons_self, if_neg (by omega),
      if_neg (by simp [hname, hpath]), putField_of_lt (by omega)]
    simp only [putField_of_lt (show c.login.length < bbuflen - (c.name.length + 1) by omega), store_of_lt hj]
    exact ih h.tail hrest (fun k hk => by rw [List.length_set]; exact hp k hk) (Nat.succ.inj hlen)

/-- **What is stored**, and that the file fits if these are its logins. -/
theorem fits_of_fillCands (h : Listed cs) (hlen : permute.length = cs.length)
    (hout : fillCands permute bbuflen (cs.flatMap Cand.text ++ rest) candlist = .ok out) :
    ∃ tags : List Candtag, tags.length = cs.length ∧ out = place permute tags candlist ∧
      ((tags.map Candtag.dir).Perm (cs.map Cand.login) → Fits bbuflen cs) := by
  induction cs generalizing permute bbuflen candlist with
  | nil =>
    rw [List.length_eq_zero_iff.1 hlen] at hout ⊢
    cases hout
    exact ⟨[], rfl, rfl, fun _ => ⟨fun c hc => absurd hc List.not_mem_nil, Nat.zero_le _⟩⟩
  | cons c cs ih =>
    obtain ⟨j, permute, rfl⟩ := List.exists_cons_of_length_eq_add_one hlen
    rw [List.flatMap_cons, List.append_assoc, fillCands_cons h List.mem_cons_self] at hout
    split_ifs at hout with hline hfields
    rw [not_or] at hfields
    cases hdescrip : putField bbuflen c.name with
    | error e => rw [hdescrip] at hout; cases hout
    | ok r =>
      obtain ⟨descrip, n⟩ := r
      simp only [hdescrip] at hout
      cases hdir : putField n c.login with
      | error e => rw [hdir] at hout; cases hout
      | ok r =>
        obtain ⟨dir, m⟩ := r
        simp only [hdir] at hout
        cases hstore : store candlist j (some ⟨descrip, dir, false⟩) with
        | none => rw [hstore] at hout; cases hout
        | some candlist' =>
          simp only [hstore] at hout
          obtain ⟨tags, htags, rfl, hfits⟩ := ih h.tail (Nat.succ.inj hlen) hout
          refine ⟨⟨descrip, dir, false⟩ :: tags, by rw [List.length_cons, htags, List.length_cons], ?_, fun hperm => ?_⟩
          · rw [place, (store_eq_set hstore).2]
          · rw [List.map_cons, List.map_cons] at hperm
            rcases putField_spec hdir with ⟨rfl, hlt, hm⟩ | ⟨hne, rfl⟩
            · obtain ⟨hline', hroom⟩ := hfits hperm.cons_inv
              rcases putField_spec hdescrip with ⟨-, hlt', hn⟩ | ⟨-, hn⟩
              · refine ⟨List.forall_mem_cons.2 ⟨⟨by omega, hfields⟩, hline'⟩, ?_⟩
                rw [List.map_cons, List.sum_cons, Cand.size]
                omega
              · omega
            · -- the login has been cut, so there is no room for another candidate
              cases cs with
              | nil =>
                rw [List.length_eq_zero_iff.1 htags] at hperm
                exact absurd (List.singleton_perm_singleton.1 hperm) hne
              | cons d cs =>
                obtain ⟨k, permute, rfl⟩ := List.exists_cons_of_length_eq_add_one (Nat.succ.inj hlen)
                rw [List.flatMap_cons, List.append_assoc, fillCands_cons h.tail List.mem_cons_self] at hout
                split_ifs at hout
                have hzero : putField 0 d.name = .error .undefined := rfl
                rw [hzero] at hout
                cases hout

theorem length_fillCands (hout : fillCands permute bbuflen rest candlist = .ok out) : out.length = candlist.length := by
  induction permute generalizing bbuflen rest candlist with
  | nil => cases hout; rfl
  | cons j permute ih =>
    rw [fillCands] at hout
    split at hout
    case h_1 => cases hout
    case h_2 =>
      split_ifs at hout
      repeat' split at hout
      all_goals try cases hout
      case h_2 hstore =>
        rw [ih hout, (store_eq_set hstore).2, List.length_set]

end Fill

/-! ## The whole start -/

section Start

variable {cs : List Cand} {random : ℕ → ℤ} {rest : Str} {candlist read : List Candtag}

/-- the array has what has been stored, in some order -/
theorem stored_perm {permute : List ℕ} {n : ℕ} (horder : permute.Perm (List.range n)) {tags : List Candtag}
    (htags : tags.length = n) : (place permute tags (List.replicate n none)).reduceOption.Perm tags := by
  have hall : (tags.map some).reduceOption = tags := by simp [List.reduceOption]
  have hplace : (place permute tags (List.replicate n none)).Perm (tags.map some) :=
    place_perm horder htags List.length_replicate
  have hfilled := hplace.filterMap id
  exact hfilled.trans (List.Perm.of_eq hall)

/-- the order in which the candidates are stored -/
theorem exists_permute (random : ℕ → ℤ) (n : ℕ) : ∃ permute, rndorder random (List.replicate n 0) n = some permute ∧
    permute.Perm (List.range n) ∧ (∀ k ∈ permute, k < (List.replicate n (none : Option Candtag)).length) := by
  obtain ⟨permute, hrnd, hperm, -⟩ := rndorder_perm random (List.length_replicate (n := n) (a := 0))
  refine ⟨permute, hrnd, hperm, fun k hk => ?_⟩
  rw [List.length_replicate]
  exact List.mem_range.1 (hperm.mem_iff.1 hk)

theorem readCands_of_fits (h : Listed cs) (hmax : cs.length ≤ MAXCAND) (hfits : Fits MAXBALLOT cs) (random : ℕ → ℤ)
    (rest : Str) : ∃ candlist, readCands random cs.length (cs.flatMap Cand.text ++ rest) = .ok candlist ∧
      candlist.Perm (cs.map Cand.tag) := by
  obtain ⟨permute, hrnd, hperm, hlt⟩ := exists_permute random cs.length
  have hlen : permute.length = cs.length := by rw [hperm.length_eq, List.length_range]
  refine ⟨_, ?_, stored_perm hperm (List.length_map Cand.tag)⟩
  rw [readCands, if_neg (by omega), Int.toNat_natCast, hrnd]
  simp only [fillCands_of_fits h hfits hlt hlen, Except.map]

theorem fits_of_readCands (h : Listed cs)
    (hout : readCands random cs.length (cs.flatMap Cand.text ++ rest) = .ok candlist)
    (hperm : (candlist.map Candtag.dir).Perm (cs.map Cand.login)) : cs.length ≤ MAXCAND ∧ Fits MAXBALLOT cs := by
  obtain ⟨permute, hrnd, horder, -⟩ := exists_permute random cs.length
  have hlen : permute.length = cs.length := by rw [horder.length_eq, List.length_range]
  rw [readCands] at hout
  split_ifs at hout with hmax
  rw [Int.toNat_natCast, hrnd] at hout
  simp only at hout
  cases hfill : fillCands permute MAXBALLOT (cs.flatMap Cand.text ++ rest) (List.replicate cs.length none) with
  | error e => rw [hfill] at hout; cases hout
  | ok slots =>
    rw [hfill] at hout
    cases hout
    obtain ⟨tags, htags, rfl, hfits⟩ := fits_of_fillCands h hlen hfill
    exact ⟨by omega, hfits (((stored_perm horder htags).map Candtag.dir).symm.trans hperm)⟩

theorem length_readCands_le {numcand : ℤ} (hout : readCands random numcand rest = .ok candlist) :
    candlist.length ≤ MAXCAND := by
  rw [readCands] at hout
  split_ifs at hout with hmax
  split at hout
  case h_1 => cases hout
  case h_2 permute _ =>
    cases hfill : fillCands permute MAXBALLOT rest (List.replicate numcand.toNat none) with
    | error e => rw [hfill] at hout; cases hout
    | ok slots =>
      rw [hfill] at hout
      cases hout
      have hlen := length_fillCands hfill
      rw [List.length_replicate] at hlen
      have hle : slots.reduceOption.length ≤ slots.length := List.length_filterMap_le _ _
      rw [not_lt] at hmax
      omega

theorem map_dir_setVote {candid : Str} (h : setVote candid candlist = some read) :
    read.map Candtag.dir = candlist.map Candtag.dir := by
  induction candlist generalizing read with
  | nil => cases h
  | cons c candlist ih =>
    rw [setVote] at h
    split_ifs at h
    · obtain ⟨r, hr, rfl⟩ := Option.map_eq_some_iff.1 h
      rw [List.map_cons, List.map_cons, ih hr]
    · cases h
      rfl

theorem map_dir_getvotes {userfile : Option Str} {numvotes : ℤ}
    (h : getvotes userfile candlist = some (read, numvotes)) : read.map Candtag.dir = candlist.map Candtag.dir := by
  have hclear : ∀ candlist : List Candtag,
      (candlist.map fun c => { c with uvote := false }).map Candtag.dir = candlist.map Candtag.dir := by
    intro candlist
    rw [List.map_map]
    rfl
  cases userfile with
  | none =>
    cases h
    exact hclear candlist
  | some text =>
    rw [getvotes] at h
    rw [← hclear candlist]
    generalize scanWords text = words at h
    generalize (candlist.map fun c => { c with uvote := false }) = start, (0 : ℤ) = n at h ⊢
    induction words generalizing start n with
    | nil => cases h; rfl
    | cons w words ih =>
      rw [List.foldlM_cons] at h
      obtain ⟨⟨next, m⟩, hword, h⟩ := Option.bind_eq_some_iff.1 h
      rw [ih next m h]
      rw [readVote] at hword
      split_ifs at hword
      cases hset : setVote w start with
      | none => simp only [hset] at hword; cases hword; rfl
      | some marked => simp only [hset] at hword; cases hword; exact map_dir_setVote hset

theorem scanLine_line {line r : Str} {n : ℤ} (hnl : '\n' ∉ line) (hscan : scanInt line = some (n, r)) (status : ℕ)
    (t : Str) : scanLine status (line ++ '\n' :: t) = .ok (n, t) := by
  have hpos : ∀ c ∈ r, decide (c ≠ '\n') = true := by
    intro c hc
    have hmem : c ∈ line := (scanInt_suffix hscan).subset hc
    simpa using fun h : c = '\n' => hnl (h ▸ hmem)
  rw [scanLine, scanInt_append hscan (by decide)]
  simp only [List.dropWhile_append_of_pos hpos]
  rfl

/-- what `getcands` does with a file in the format, once it can be read -/
theorem getcands_format {text head : Str} (hpre : head <+: text) (hformat : CandFormat head cs) : ∃ numslots rest,
    ∀ s : Setting, s.cdBoard = true → s.polls = true → s.candfile = some text → s.getcands =
      match readCands s.random cs.length (cs.flatMap Cand.text ++ rest) with
      | .error e => .error e
      | .ok candlist =>
        if !s.cdVotes then .error (.exit 9)
        else
          match getvotes s.userfile candlist with
          | none => .error .undefined
          | some (candlist, numvotes) => .ok ⟨candlist, numslots, numvotes⟩ := by
  obtain ⟨first, second, rfl, hfirst, hsecond, hnc, hns⟩ := hformat.lines
  obtain ⟨rest, rfl⟩ := hpre
  obtain ⟨⟨nc, r⟩, hscan, hcs⟩ := Option.map_eq_some_iff.1 hnc
  obtain ⟨⟨ns, r'⟩, hscan'⟩ := Option.isSome_iff_exists.1 hns
  obtain rfl : nc = cs.length := hcs
  refine ⟨ns, rest, fun s hboard hpolls hfile => ?_⟩
  have htext : first ++ '\n' :: (second ++ '\n' :: cs.flatMap Cand.text) ++ rest =
      first ++ '\n' :: (second ++ '\n' :: (cs.flatMap Cand.text ++ rest)) := by simp
  rw [Setting.getcands, hboard, hpolls, hfile, htext]
  simp only [scanLine_line hfirst hscan, scanLine_line hsecond hscan', Bool.not_true, Bool.false_eq_true, if_false]

/-- what `getcands` has reached when it gets through -/
theorem reached_of_getcands {s : Setting} {b : Board} (h : s.getcands = .ok b) :
    s.cdBoard = true ∧ s.polls = true ∧ s.candfile.isSome = true ∧ s.cdVotes = true := by
  rw [Setting.getcands] at h
  cases hfile : s.candfile with
  | none =>
    rw [hfile] at h
    split_ifs at h
  | some candfile =>
    split_ifs at h with hboard hpolls hvotes
    · repeat' split at h
      all_goals cases h
    · exact ⟨by simpa using hboard, by simpa using hpolls, rfl, by simpa using hvotes⟩

/-- the candidates are read, and then the votes -/
theorem read_of_getcands {s : Setting} {b : Board} (h : s.getcands = .ok b) : ∃ numcand rest candlist,
    readCands s.random numcand rest = .ok candlist ∧ getvotes s.userfile candlist = some (b.candlist, b.numvotes) := by
  rw [Setting.getcands] at h
  split_ifs at h
  repeat' split at h
  all_goals try cases h
  case h_2 hread _ _ _ hvotes => exact ⟨_, _, _, hread, hvotes⟩

/-- **The array is never left** when `getcands` gets through. -/
theorem length_getcands_le {s : Setting} {b : Board} (h : s.getcands = .ok b) : b.candlist.length ≤ MAXCAND := by
  obtain ⟨numcand, rest, candlist, hread, hvotes⟩ := read_of_getcands h
  rw [← List.length_map Candtag.dir, map_dir_getvotes hvotes, List.length_map]
  exact length_readCands_le hread

end Start

/-! ## Main result -/

theorem Slate.text_eq (w : Slate) : w.text = ballot w.chosen := by
  cases w with
  | vote cr => exact voteLines_eq cr
  | board candlist => exact boardLines_eq candlist

theorem Slate.mem_logins {w : Slate} {l : Str} (h : l ∈ w.chosen) : l ∈ w.logins := by
  cases w with
  | vote cr => exact ((List.filter_sublist).map _).subset h
  | board candlist => exact ((List.filter_sublist).map _).subset h

/-- a call of `votedfor` that finds a login has reached the file, and the login is plain -/
theorem plain_of_votedfor {cd opens : Bool} {text login : Str}
    (h : votedfor cd (if opens then some text else none) login = 1) : cd = true ∧ opens = true ∧ Plain login := by
  cases cd with
  | false => cases h
  | true =>
    cases opens with
    | false => cases h
    | true =>
      obtain ⟨vbuf, hvbuf, hcut⟩ := List.mem_map.1 ((votedfor_one_iff text login).1 h)
      exact ⟨rfl, rfl, hcut ▸ plain_of_mem hvbuf⟩

section Agree

variable {w : Slate} {cs : List Cand} {text head : Str} {a : Access} {random : ℕ → ℤ}

/-- what has been read has been reached, and fits -/
theorem fits_of_bothRead (hpre : head <+: text) (hformat : CandFormat head cs) (h : Listed cs)
    (hsame : w.logins.Perm (cs.map Cand.login)) (hread : BothRead a random text cs w.chosen w.text) :
    (∀ l ∈ w.chosen, Plain l) ∧ Reached a cs w.chosen ∧ cs.length ≤ MAXCAND ∧ Fits MAXBALLOT cs := by
  obtain ⟨hvote, b, hget, hperm, hflags⟩ := hread
  have hmem : ∀ l ∈ w.chosen, l ∈ cs.map Cand.login := fun l hl => hsame.mem_iff.1 (Slate.mem_logins hl)
  have hplain : ∀ l ∈ w.chosen, Plain l := by
    intro l hl
    obtain ⟨c, hc, rfl⟩ := List.mem_map.1 (hmem l hl)
    obtain ⟨i, hi⟩ := List.mem_iff_getElem?.1 hc
    exact (plain_of_votedfor ((hvote i c hi).2 hl)).2.2
  obtain ⟨numslots, rest, hstart⟩ := getcands_format hpre hformat
  have hboard : a.cdBoard = true ∧ a.polls = true ∧ a.candfile = true ∧ a.cdVotes = true := by
    obtain ⟨hcd, hpolls, hfile, hvotes⟩ := reached_of_getcands hget
    refine ⟨hcd, hpolls, ?_, hvotes⟩
    by_contra hno
    simp [Access.setting, hno] at hfile
  rw [hstart _ hboard.1 hboard.2.1 (by simp [Access.setting, hboard.2.2.1])] at hget
  split at hget
  case h_1 => cases hget
  case h_2 candlist hcands =>
    split_ifs at hget
    split at hget
    case h_1 => cases hget
    case h_2 read numvotes hvotes =>
      cases hget
      have hdirs := map_dir_getvotes hvotes
      obtain ⟨hmax, hfits⟩ := fits_of_readCands h hcands (hdirs ▸ hperm)
      refine ⟨hplain, ⟨?_, hboard, ?_⟩, hmax, hfits⟩
      · intro i c hi hc
        obtain ⟨hcd', hopens, -⟩ := plain_of_votedfor ((hvote i c hi).2 hc)
        exact ⟨hcd', hopens⟩
      · -- somebody is voted for, so there is a flag
        intro hne
        obtain ⟨l, hl⟩ := List.exists_mem_of_ne_nil _ hne
        obtain ⟨t, ht, rfl⟩ := List.mem_map.1 (hperm.mem_iff.2 (hmem l hl))
        by_contra huser
        simp only [Access.setting, if_neg huser] at hvotes
        cases hvotes
        obtain ⟨u, -, rfl⟩ := List.mem_map.1 ht
        exact absurd ((hflags _ ht).2 hl) Bool.false_ne_true

/-- `getcands` reads the votes back, or there are none and no file is opened -/
theorem getvotes_reached (text : Str) (random : ℕ → ℤ) (h : Listed cs)
    (hsame : w.logins.Perm (cs.map Cand.login)) (hplain : ∀ l ∈ w.chosen, Plain l)
    (hreach : Reached a cs w.chosen) {candlist : List Candtag}
    (hdirs : (candlist.map Candtag.dir).Perm (cs.map Cand.login)) :
    ∃ numvotes, getvotes (a.setting random text (ballot w.chosen)).userfile candlist =
      some (candlist.map fun c => { c with uvote := decide (c.dir ∈ w.chosen) }, numvotes) := by
  by_cases huser : a.userfile = true
  · refine ⟨w.chosen.length, ?_⟩
    simp only [Access.setting, if_pos huser]
    refine getvotes_ballot (hdirs.nodup_iff.2 h.nodup) fun l hl => ?_
    have hmem : l ∈ cs.map Cand.login := hsame.mem_iff.1 (Slate.mem_logins hl)
    have hlen : l.length < 80 := (hplain l hl).2
    obtain ⟨c, hc, rfl⟩ := List.mem_map.1 hmem
    exact ⟨hdirs.mem_iff.2 hmem, h.word c hc, by rw [LINEMAX]; omega⟩
  · have hempty : w.chosen = [] := by
      by_contra hne
      exact huser (hreach.userfile hne)
    refine ⟨0, ?_⟩
    simp only [Access.setting, if_neg huser, hempty]
    rfl

/-- **Both programs read back the ballot** that either of them wrote for the candidates of a file, in whatever order it
had them, exactly when every login on it is plain, the candidates fit `board.c` and the files can be reached. -/
theorem readers_agree_iff (hpre : head <+: text) (hformat : CandFormat head cs) (h : Listed cs)
    (hsame : w.logins.Perm (cs.map Cand.login)) :
    BothRead a random text cs w.chosen w.text ↔
      (∀ l ∈ w.chosen, Plain l) ∧ Reached a cs w.chosen ∧ cs.length ≤ MAXCAND ∧ Fits MAXBALLOT cs := by
  refine ⟨fits_of_bothRead hpre hformat h hsame, fun hcond => ?_⟩
  obtain ⟨hplain, hreach, hmax, hfits⟩ := hcond
  rw [w.text_eq]
  refine ⟨fun i c hi => ?_, ?_⟩
  · have hc : c ∈ cs := List.mem_of_getElem? hi
    by_cases hin : c.login ∈ w.chosen
    · obtain ⟨hcd, hopens⟩ := hreach.vote i c hi hin
      rw [hcd, hopens, if_pos rfl]
      exact votedfor_iff hplain (h.word c hc).nonempty
    · refine iff_of_false (fun hone => ?_) hin
      obtain ⟨hcd, hopens, -⟩ := plain_of_votedfor hone
      rw [hcd, hopens, if_pos rfl] at hone
      exact hin ((votedfor_iff hplain (h.word c hc).nonempty).1 hone)
  · obtain ⟨numslots, rest, hstart⟩ := getcands_format hpre hformat
    obtain ⟨hcd, hpolls, hfile, hvotes⟩ := hreach.board
    obtain ⟨candlist, hread, hperm⟩ := readCands_of_fits h hmax hfits random rest
    have hdirs : (candlist.map Candtag.dir).Perm (cs.map Cand.login) := by
      have hmap := hperm.map Candtag.dir
      rwa [List.map_map] at hmap
    obtain ⟨numvotes, hget⟩ := getvotes_reached text random h hsame hplain hreach hdirs
    refine ⟨⟨candlist.map fun c => { c with uvote := decide (c.dir ∈ w.chosen) }, numslots, numvotes⟩, ?_, ?_, ?_⟩
    · rw [hstart _ hcd hpolls (by simp [Access.setting, hfile])]
      have hrandom : (a.setting random text (ballot w.chosen)).random = random := rfl
      have hcdVotes : (a.setting random text (ballot w.chosen)).cdVotes = true := hvotes
      simp only [hrandom, hread, hget, hcdVotes, Bool.not_true, Bool.false_eq_true, if_false]
    · rw [List.map_map]
      exact hdirs
    · intro c hc
      obtain ⟨t, -, rfl⟩ := List.mem_map.1 hc
      exact decide_eq_true_iff

end Agree

/-- everything can be reached -/
def everything : Access := ⟨fun _ => true, fun _ => true, true, true, true, true, true⟩

/-- two candidates, one of them voted for in `vote.c`, which had them the other way round -/
theorem readers_agree_plain :
    let text : Str := unlines [['2'], ['1'], ['B', ':', 'b', '7', ':', 'p'], ['A', ':', 'a', '_', ':', 'q']]
    let w : Slate := .vote [⟨['A'], ['a', '_'], ['q'], false⟩, ⟨['B'], ['b', '7'], ['p'], true⟩]
    ∃ cs : List Cand, cs.map Cand.login = [['b', '7'], ['a', '_']] ∧
      (BothRead everything (fun i => 1 - i) text cs w.chosen w.text ↔
        (∀ l ∈ w.chosen, Plain l) ∧ Reached everything cs w.chosen ∧ cs.length ≤ MAXCAND ∧ Fits MAXBALLOT cs) := by
  intro text w
  let bob : Cand := ⟨['B'], ['b', '7'], ['p'], by decide, by decide, by decide⟩
  let ann : Cand := ⟨['A'], ['a', '_'], ['q'], by decide, by decide, by decide⟩
  have hformat : CandFormat text [bob, ann] :=
    ⟨⟨['2'], ['1'], rfl, by decide, by decide, by decide, by decide⟩, by decide⟩
  have hlisted : Listed [bob, ann] := by
    refine ⟨by decide, ?_, by decide⟩
    intro c hc
    rcases List.mem_pair.1 hc with rfl | rfl
    · exact ⟨by decide, by decide, by decide⟩
    · exact ⟨by decide, by decide, by decide⟩
  exact ⟨[bob, ann], rfl, readers_agree_iff List.prefix_rfl hformat hlisted (List.Perm.swap _ _ _)⟩

/-- **A login with an underscore** is written by both programs, found by `getcands`, and not by `votedfor`. -/
theorem underscore_lost :
    let text : Str := unlines [['1'], ['1'], ['A', ':', 'a', '_', 'b', ':', 'p']]
    let w : Slate := .board [⟨['A'], ['a', '_', 'b'], true⟩]
    ∃ cs : List Cand, CandFormat text cs ∧ Listed cs ∧ w.logins.Perm (cs.map Cand.login) ∧
      Reached everything cs w.chosen ∧ cs.length ≤ MAXCAND ∧ Fits MAXBALLOT cs ∧
      ¬ BothRead everything (fun _ => 0) text cs w.chosen w.text := by
  intro text w
  let ann : Cand := ⟨['A'], ['a', '_', 'b'], ['p'], by decide, by decide, by decide⟩
  refine ⟨[ann], ⟨⟨['1'], ['1'], rfl, by decide, by decide, by decide, by decide⟩, by decide⟩,
    ⟨by decide, ?_, by decide⟩,
    List.Perm.refl _, ⟨fun _ _ _ _ => ⟨rfl, rfl⟩, ⟨rfl, rfl, rfl, rfl⟩, fun _ => rfl⟩, by decide,
    ⟨by decide, by decide⟩, ?_⟩
  · intro c hc
    rw [List.mem_singleton.1 hc]
    exact ⟨by decide, by decide, by decide⟩
  · intro hread
    have hvoted : votedfor true (some w.text) ['a', '_', 'b'] = 1 := (hread.1 0 ann rfl).2 (by decide)
    exact absurd hvoted (by decide)

end MNetSoft.Vote
