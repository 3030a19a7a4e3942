/-
How `bbsread` displays an item (`readitem.c`) and marks it as read (`rfp.c`). A call works on the strings that `fgets`
delivers of the item file; what it prints is a list of events. An item file is well formed as the format of PicoSpan has
it: a title, the item text and the responses, each with its flags, author, alias, date and text, and `,E` lines some of
which may be missing.

- `dispitem_spec`: which item text and responses are displayed, and what is returned.
- `dispRight_iff`: the number returned is that of the last one displayed exactly if the last section that is ended is
  displayed, and no later one.
- `read_marks_iff`: exactly when both hold, the number returned and the mark that `display_it` makes.
-/
import Mathlib.Tactic
import MNetSoft.Core.Numerals
import MNetSoft.Bbsread.PartFile

namespace MNetSoft.Bbsread

open MNetSoft.CString MNetSoft.Numerals

/-! ## Model -/

/-- the arguments of `dispitem` -/
structure Call where
  item_no : ℤ
  first_resp : ℤ
  last_resp : ℤ
  max_resp : ℤ
  show_header : ℤ
  prefer_html : Bool

/-- -1 is the end of the item -/
def Call.last (c : Call) : ℤ := if c.last_resp = -1 then INT_MAX else c.last_resp

/-- what is printed -/
inductive Event where
  | itemHead (item_no : ℤ) (title : Str) (date : BitVec 64) (fullname login : Str) (scribbled : Bool)
  /-- prints nothing: from here on the text of the item is printed -/
  | itemText
  | respHead (resp : ℤ) (date : BitVec 64) (fullname login : Str) (scribbled : Bool)
  | newResponses (first max : ℤ) (printing : Bool)
  /-- a line of text, after a blank -/
  | text (s : Str)
deriving DecidableEq, Repr

/-- the variables of `dispitem` -/
structure Disp where
  title : Str
  fullname : Str
  login : Str
  uid : ℤ
  date : BitVec 64
  resp : ℤ
  printing : Bool
  scribbled : Bool
  thisversion : Bool
  gotversion : Bool
  didE : Bool
  out : List Event

def Disp.init : Disp := ⟨[], [], [], -1, 0, 0, true, false, false, false, true, []⟩

/-- what stands before the first `ch`, at most `n` characters -/
def copyto (b : Str) (ch : Char) (n : ℕ) : Str := (b.takeWhile (· ≠ ch)).take n

/-- hexadecimal digits -/
def atolh (s : Str) : BitVec 64 := BitVec.ofNat 64 (scanDigits 16 0 s).1

/-- the end of the item text or of a response -/
def endResp (c : Call) (d : Disp) : Disp :=
  let out :=
    if d.resp = 0 ∧ c.last = INT_MAX then
      d.out ++ [.newResponses c.first_resp c.max_resp (d.printing || decide (c.show_header ≠ 0))]
    else d.out
  let d := if d.uid ≠ -1 then { d with fullname := [], login := [], uid := -1, date := -1 } else d
  { d with
    didE := true
    resp := d.resp + 1
    printing := decide (c.first_resp ≤ d.resp + 1 ∧ d.resp + 1 ≤ c.last)
    out := out }

/-- a line of text -/
def putText (s : Str) (d : Disp) : Disp :=
  if d.printing ∧ ¬ d.scribbled ∧ d.thisversion then { d with out := d.out ++ [.text s], gotversion := true } else d

/-- how the loop goes on after a string -/
inductive Next where
  | more (d : Disp)
  /-- return -1 -/
  | header (d : Disp)
  /-- exit: the item file is in a weird format -/
  | weird

/-- a date line: the heading is printed, and the printing may be over -/
def dateLine (c : Call) (rest : Str) (d : Disp) : Next :=
  let d := { d with date := atolh rest }
  if d.resp = 0 then
    let d :=
      if c.show_header ≠ 0 then
        { d with out := d.out ++ [.itemHead c.item_no d.title d.date d.fullname d.login d.scribbled] }
      else d
    if c.show_header = 2 then .header d
    else
      let d := if c.first_resp > 0 then { d with printing := false } else { d with out := d.out ++ [.itemText] }
      .more { d with thisversion := c.prefer_html, gotversion := false }
  else
    let d :=
      if d.printing then { d with out := d.out ++ [.respHead d.resp d.date d.fullname d.login d.scribbled] } else d
    .more { d with thisversion := c.prefer_html, gotversion := false }

/-- One string of the item file. Of a line of fewer than four flags the source looks at what a string before has left in
the buffer; here the item is not scribbled then. -/
def dispLine (c : Call) (buf : Str) (d : Disp) : Next :=
  match buf with
  | ',' :: k :: rest =>
    if k = 'H' then .more (if d.printing then { d with title := copyto rest '\n' BFSZ } else d)
    else if k = 'A' then .more (if d.printing then { d with fullname := copyto rest '\n' BFSZ } else d)
    else if k = 'U' then
      if d.printing then
        match rest.dropWhile (· ≠ ',') with
        | [] => .weird
        | _ :: a => .more { d with uid := atoi rest, login := copyto a '\n' 9 }
      else .more d
    else if k = 'D' then (if d.printing then dateLine c rest d else .more d)
    else if k = 'T' then .more { d with thisversion := !d.gotversion, didE := false }
    else if k = 'R' then
      let d := { d with scribbled := rest[3]? == some '3' }
      -- the end of the response before is missing
      .more (if d.didE then d else endResp c d)
    else if k = 'E' then .more (endResp c d)
    else if k = ':' then .more (putText rest d)
    else if k = ',' then .more (putText (k :: rest) d)
    else .weird
  | [','] => .weird
  | _ => .more (putText buf d)

/-- the loop of `dispitem`: the number returned and what was printed; `none` if it exits -/
def dispLoop (c : Call) : List Str → Disp → Option (ℤ × List Event)
  | [], d => some (d.resp - 1, d.out)
  | buf :: l, d =>
    match dispLine c buf d with
    | .more d => dispLoop c l d
    | .header d => some (-1, d.out)
    | .weird => none

def dispitem (c : Call) : List Str → Option (ℤ × List Event)
  | [] => none
  | buf :: l => if buf = ['!', '<', 'p', 's', '0', '2', '>', '\n'] then dispLoop c l .init else none

/-! ### Well-formed item files -/

/-- a string that is not taken for a control line -/
def IsText : Str → Prop
  | [] => False
  | [c] => c ≠ ','
  | c :: k :: _ => c = ',' → k = ',' ∨ k = ':'

instance : DecidablePred IsText := fun s =>
  match s with
  | [] => isFalse id
  | [_] => inferInstanceAs (Decidable (_ ≠ _))
  | _ :: _ :: _ => inferInstanceAs (Decidable (_ → _))

/-- the item text or a response -/
structure Section where
  flags : Str
  uid : Str
  login : Str
  fullname : Str
  date : Str
  /-- the strings of another version of the text, before `,T` -/
  html : List Str
  /-- the strings of the text -/
  body : List Str
  /-- `,E` is not missing -/
  ended : Bool
  flags_le : 4 ≤ flags.length
  login_le : login.length ≤ 8
  html_text : ∀ s ∈ html, IsText s
  body_text : ∀ s ∈ body, IsText s

/-- the strings of the flags, the author, the alias and the date -/
def Section.head (s : Section) : List Str :=
  [[',', 'R'] ++ s.flags ++ ['\n'], [',', 'U'] ++ s.uid ++ [','] ++ s.login ++ ['\n'],
    [',', 'A'] ++ s.fullname ++ ['\n'], [',', 'D'] ++ s.date ++ ['\n']]

theorem Section.head_append (s : Section) (rest : List Str) :
    s.head ++ rest =
      ([',', 'R'] ++ s.flags ++ ['\n']) :: ([',', 'U'] ++ s.uid ++ [','] ++ s.login ++ ['\n']) ::
        ([',', 'A'] ++ s.fullname ++ ['\n']) :: ([',', 'D'] ++ s.date ++ ['\n']) :: rest := rfl

/-- the strings of the text -/
def Section.tail (s : Section) : List Str :=
  s.html ++ [',', 'T', '\n'] :: (s.body ++ if s.ended then [[',', 'E', '\n']] else [])

/-- a well-formed item: its title, its text and its responses -/
structure Item where
  title : Str
  text : Section
  resps : List Section

/-- the strings of an item file -/
def Item.lines (i : Item) : List Str :=
  ['!', '<', 'p', 's', '0', '2', '>', '\n'] :: ([',', 'H'] ++ i.title ++ ['\n']) ::
    (i.text :: i.resps).flatMap fun s => s.head ++ s.tail

/-! ## What is displayed -/

/-- the item text (0) or the response whose display begins with an event -/
def shown : Event → Option ℤ
  | .itemText => some 0
  | .respHead resp _ _ _ _ => some resp
  | _ => none

def displayed (out : List Event) : List ℤ := out.filterMap shown

theorem displayed_append (out out' : List Event) : displayed (out ++ out') = displayed out ++ displayed out' :=
  List.filterMap_append

/-- the section `j` is within the range of a call -/
def Call.Shows (c : Call) (j : ℤ) : Prop := if j = 0 then c.first_resp ≤ 0 else c.first_resp ≤ j ∧ j ≤ c.last

instance (c : Call) : DecidablePred c.Shows := fun _ => by
  unfold Call.Shows
  infer_instance

theorem Call.shows_of_pos (c : Call) {j : ℤ} (hj : 0 < j) : c.Shows j ↔ c.first_resp ≤ j ∧ j ≤ c.last := by
  rw [Call.Shows, if_neg (by omega)]

/-! ### Single strings -/

/-- the same section is being read, and nothing more was displayed -/
structure Disp.Same (d d' : Disp) : Prop where
  resp : d'.resp = d.resp
  printing : d'.printing = d.printing
  didE : d'.didE = d.didE
  displayed : displayed d'.out = displayed d.out

theorem Disp.Same.refl (d : Disp) : d.Same d := ⟨rfl, rfl, rfl, rfl⟩

theorem Disp.Same.trans {d d' d'' : Disp} (h : d.Same d') (h' : d'.Same d'') : d.Same d'' :=
  ⟨h'.resp.trans h.resp, h'.printing.trans h.printing, h'.didE.trans h.didE, h'.displayed.trans h.displayed⟩

theorem same_putText (s : Str) (d : Disp) : d.Same (putText s d) := by
  unfold putText
  split_ifs
  · exact ⟨rfl, rfl, rfl, by rw [displayed_append]; exact List.append_nil _⟩
  · exact .refl d

theorem displayed_endResp (c : Call) (d : Disp) : displayed (endResp c d).out = displayed d.out := by
  simp only [endResp]
  split_ifs
  all_goals first
    | rfl
    | exact (displayed_append _ _).trans (List.append_nil _)

theorem resp_endResp (c : Call) (d : Disp) : (endResp c d).resp = d.resp + 1 := by
  simp only [endResp]
  split_ifs <;> rfl

theorem printing_endResp (c : Call) (d : Disp) :
    (endResp c d).printing = decide (c.first_resp ≤ d.resp + 1 ∧ d.resp + 1 ≤ c.last) := by
  simp only [endResp]
  split_ifs <;> rfl

variable {c : Call}

theorem dispLine_text {s : Str} (hs : IsText s) (d : Disp) : ∃ d', dispLine c s d = .more d' ∧ d.Same d' := by
  match s with
  | [] => exact hs.elim
  | [k] =>
    have hk : k ≠ ',' := hs
    exact ⟨putText [k] d, by unfold dispLine; split <;> simp_all, same_putText _ d⟩
  | k :: k' :: rest =>
    by_cases hk : k = ','
    · subst hk
      rcases hs rfl with rfl | rfl
      · exact ⟨putText (',' :: rest) d, rfl, same_putText _ d⟩
      · exact ⟨putText rest d, rfl, same_putText _ d⟩
    · exact ⟨putText (k :: k' :: rest) d, by unfold dispLine; split <;> simp_all, same_putText _ d⟩

theorem dispLoop_more {s : Str} {d d' : Disp} (h : dispLine c s d = .more d') (rest : List Str) :
    dispLoop c (s :: rest) d = dispLoop c rest d' := by
  rw [dispLoop, h]

theorem dispLoop_texts {l : List Str} (hl : ∀ s ∈ l, IsText s) (rest : List Str) (d : Disp) :
    ∃ d', dispLoop c (l ++ rest) d = dispLoop c rest d' ∧ d.Same d' := by
  induction l generalizing d with
  | nil => exact ⟨d, rfl, .refl d⟩
  | cons s l ih =>
    obtain ⟨hs, hl⟩ := List.forall_mem_cons.1 hl
    obtain ⟨d₁, h₁, hd₁⟩ := dispLine_text (c := c) hs d
    obtain ⟨d', h', hd'⟩ := ih hl d₁
    exact ⟨d', by rw [List.cons_append, dispLoop_more h₁, h'], hd₁.trans hd'⟩

/-! ### Sections -/

/-- the text of a section -/
theorem dispLoop_tail (s : Section) (rest : List Str) (d : Disp) :
    ∃ d', dispLoop c (s.tail ++ rest) d = dispLoop c rest d' ∧ displayed d'.out = displayed d.out ∧ d'.didE = s.ended ∧
      (s.ended = true → d'.resp = d.resp + 1 ∧
        d'.printing = decide (c.first_resp ≤ d.resp + 1 ∧ d.resp + 1 ≤ c.last)) ∧
      (s.ended = false → d'.resp = d.resp) := by
  obtain ⟨d₁, h₁, hd₁⟩ := dispLoop_texts (c := c) s.html_text
    ([',', 'T', '\n'] :: (s.body ++ ((if s.ended then [[',', 'E', '\n']] else []) ++ rest))) d
  obtain ⟨d₃, h₃, hd₃⟩ := dispLoop_texts (c := c) s.body_text ((if s.ended then [[',', 'E', '\n']] else []) ++ rest)
    { d₁ with thisversion := !d₁.gotversion, didE := false }
  have htail : dispLoop c (s.tail ++ rest) d =
      dispLoop c ((if s.ended then [[',', 'E', '\n']] else []) ++ rest) d₃ := by
    rw [Section.tail, List.append_assoc, List.cons_append, List.append_assoc, h₁, ← h₃]
    rfl
  have hresp : d₃.resp = d.resp := hd₃.resp.trans hd₁.resp
  have hdisp : displayed d₃.out = displayed d.out := hd₃.displayed.trans hd₁.displayed
  cases hend : s.ended with
  | true =>
    refine ⟨endResp c d₃, ?_, ?_, rfl, fun _ => ?_, by simp⟩
    · rw [htail, hend]
      rfl
    · rw [displayed_endResp, hdisp]
    · rw [resp_endResp, printing_endResp, hresp]
      exact ⟨rfl, rfl⟩
  | false =>
    refine ⟨d₃, ?_, hdisp, hd₃.didE, by simp, fun _ => hresp⟩
    rw [htail, hend]
    rfl

/-- the section `j` comes next: the one before is ended, or lacks its `,E` -/
def Disp.Ready (c : Call) (d : Disp) (j : ℤ) : Prop :=
  (d.didE = true ∧ d.resp = j ∧ d.printing = decide (c.Shows j)) ∨ (d.didE = false ∧ d.resp = j - 1)

/-- the flags of a response -/
theorem dispLine_flags {d : Disp} {j : ℤ} (hj : 0 < j) (hd : d.Ready c j) (f : Str) :
    ∃ d', dispLine c ([',', 'R'] ++ f ++ ['\n']) d = .more d' ∧ d'.resp = j ∧ d'.printing = decide (c.Shows j) ∧
      displayed d'.out = displayed d.out := by
  refine ⟨_, rfl, ?_⟩
  rcases hd with ⟨hE, hresp, hprint⟩ | ⟨hE, hresp⟩
  · simp only [hE, if_true]
    exact ⟨hresp, hprint, trivial⟩
  · simp only [hE, Bool.false_eq_true, if_false]
    rw [resp_endResp, printing_endResp, displayed_endResp, hresp, sub_add_cancel]
    exact ⟨rfl, decide_eq_decide.2 (c.shows_of_pos hj).symm, rfl⟩

theorem dispLine_user_eq (u l : Str) (d : Disp) :
    ∃ uid login, dispLine c ([',', 'U'] ++ u ++ [','] ++ l ++ ['\n']) d =
      .more { d with uid := uid, login := login } := by
  have hcomma : ∃ a, (u ++ [','] ++ l ++ ['\n']).dropWhile (· ≠ ',') = ',' :: a := by
    induction u with
    | nil => exact ⟨l ++ ['\n'], rfl⟩
    | cons k u ih =>
      by_cases hk : k = ','
      · exact ⟨u ++ [','] ++ l ++ ['\n'], by simp [hk]⟩
      · obtain ⟨a, ha⟩ := ih
        exact ⟨a, by rw [← ha]; simp [hk]⟩
  obtain ⟨a, ha⟩ := hcomma
  have hline : dispLine c ([',', 'U'] ++ u ++ [','] ++ l ++ ['\n']) d =
      if d.printing then
        match (u ++ [','] ++ l ++ ['\n']).dropWhile (· ≠ ',') with
        | [] => .weird
        | _ :: a => .more { d with uid := atoi (u ++ [','] ++ l ++ ['\n']), login := copyto a '\n' 9 }
      else .more d := rfl
  rw [hline, ha]
  split_ifs
  · exact ⟨_, _, rfl⟩
  · exact ⟨d.uid, d.login, rfl⟩

theorem dispLine_user (u l : Str) (d : Disp) :
    ∃ d', dispLine c ([',', 'U'] ++ u ++ [','] ++ l ++ ['\n']) d = .more d' ∧ d.Same d' := by
  obtain ⟨uid, login, h⟩ := dispLine_user_eq (c := c) u l d
  exact ⟨_, h, rfl, rfl, rfl, rfl⟩

theorem dispLine_alias_eq (a : Str) (d : Disp) :
    ∃ fullname, dispLine c ([',', 'A'] ++ a ++ ['\n']) d = .more { d with fullname := fullname } := by
  have hline : dispLine c ([',', 'A'] ++ a ++ ['\n']) d =
      .more (if d.printing then { d with fullname := copyto (a ++ ['\n']) '\n' BFSZ } else d) := rfl
  rw [hline]
  split_ifs
  · exact ⟨_, rfl⟩
  · exact ⟨d.fullname, rfl⟩

theorem dispLine_alias (a : Str) (d : Disp) :
    ∃ d', dispLine c ([',', 'A'] ++ a ++ ['\n']) d = .more d' ∧ d.Same d' := by
  obtain ⟨fullname, h⟩ := dispLine_alias_eq (c := c) a d
  exact ⟨_, h, rfl, rfl, rfl, rfl⟩

/-- the date of a response -/
theorem dispLine_date {d : Disp} {j : ℤ} (hj : 0 < j) (hresp : d.resp = j) (hprint : d.printing = decide (c.Shows j))
    (t : Str) :
    ∃ d', dispLine c ([',', 'D'] ++ t ++ ['\n']) d = .more d' ∧ d'.resp = j ∧
      displayed d'.out = displayed d.out ++ if c.Shows j then [j] else [] := by
  have hline : dispLine c ([',', 'D'] ++ t ++ ['\n']) d =
      if d.printing then dateLine c (t ++ ['\n']) d else .more d := rfl
  rw [hline, hprint]
  by_cases hs : c.Shows j
  · simp only [hs, decide_true, if_true]
    rw [dateLine, if_neg (by dsimp only; omega)]
    simp only [hprint, hs, decide_true, if_true]
    exact ⟨_, rfl, hresp, by rw [displayed_append, ← hresp]; rfl⟩
  · simp only [hs, decide_false, Bool.false_eq_true, if_false]
    exact ⟨d, rfl, hresp, by rw [List.append_nil]⟩

/-- a response -/
theorem dispLoop_section (s : Section) (rest : List Str) {d : Disp} {j : ℤ} (hj : 0 < j) (hd : d.Ready c j) :
    ∃ d', dispLoop c (s.head ++ s.tail ++ rest) d = dispLoop c rest d' ∧ d'.Ready c (j + 1) ∧ d'.didE = s.ended ∧
      displayed d'.out = displayed d.out ++ if c.Shows j then [j] else [] := by
  obtain ⟨d₁, h₁, hr₁, hp₁, hs₁⟩ := dispLine_flags hj hd s.flags
  obtain ⟨d₂, h₂, hd₂⟩ := dispLine_user (c := c) s.uid s.login d₁
  obtain ⟨d₃, h₃, hd₃⟩ := dispLine_alias (c := c) s.fullname d₂
  have hd₁₃ := hd₂.trans hd₃
  obtain ⟨d₄, h₄, hr₄, hs₄⟩ := dispLine_date hj (hd₁₃.resp.trans hr₁) (hd₁₃.printing.trans hp₁) s.date
  obtain ⟨d', h', hs', hE, hended, hnot⟩ := dispLoop_tail (c := c) s rest d₄
  refine ⟨d', ?_, ?_, hE, ?_⟩
  · rw [List.append_assoc, Section.head_append]
    rw [dispLoop_more h₁, dispLoop_more h₂, dispLoop_more h₃, dispLoop_more h₄, h']
  · cases he : s.ended with
    | true =>
      obtain ⟨hr', hp'⟩ := hended he
      refine Or.inl ⟨hE.trans he, by rw [hr', hr₄], ?_⟩
      rw [hp', hr₄]
      exact decide_eq_decide.2 (c.shows_of_pos (by omega)).symm
    | false =>
      refine Or.inr ⟨hE.trans he, ?_⟩
      rw [hnot he, hr₄, add_sub_cancel_right]
  · rw [hs', hs₄, hd₁₃.displayed, hs₁]

/-- the sections displayed among `n` from `j` on -/
def Call.showing (c : Call) : ℤ → ℕ → List ℤ
  | _, 0 => []
  | j, n + 1 => (if c.Shows j then [j] else []) ++ c.showing (j + 1) n

/-- responses one after another -/
theorem dispLoop_sections (ss : List Section) {s₀ : Section} {d : Disp} {j : ℤ} (hj : 0 < j) (hd : d.Ready c j)
    (hE : d.didE = s₀.ended) :
    ∃ d' : Disp, dispLoop c (ss.flatMap fun s => s.head ++ s.tail) d = some (d'.resp - 1, d'.out) ∧
      d'.Ready c (j + ss.length) ∧
      d'.didE = (ss.getLastD s₀).ended ∧ displayed d'.out = displayed d.out ++ c.showing j ss.length := by
  induction ss generalizing d j s₀ with
  | nil => exact ⟨d, rfl, by simpa using hd, hE, by simp [Call.showing]⟩
  | cons s ss ih =>
    obtain ⟨d₁, h₁, hd₁, hE₁, hs₁⟩ := dispLoop_section s (ss.flatMap fun s => s.head ++ s.tail) hj hd
    obtain ⟨d', h', hd', hE', hs'⟩ := ih (by omega) hd₁ hE₁
    refine ⟨d', by rw [List.flatMap_cons, h₁, h'], ?_, by rw [List.getLastD_cons, hE'], ?_⟩
    · rw [List.length_cons, Nat.cast_succ, add_comm (ss.length : ℤ), ← add_assoc]
      exact hd'
    · rw [hs', hs₁, List.length_cons, Call.showing, List.append_assoc]

/-- the date of the item: the heading, and where the printing of the text may be over -/
theorem dateLine_text {d : Disp} (hresp : d.resp = 0) (t : Str) :
    (c.show_header = 2 → ∃ d', dateLine c t d = .header d' ∧ displayed d'.out = displayed d.out) ∧
    (c.show_header ≠ 2 → ∃ d', dateLine c t d = .more d' ∧ d'.resp = 0 ∧
      displayed d'.out = displayed d.out ++ if c.Shows 0 then [0] else []) := by
  have hshows : c.Shows 0 ↔ ¬ c.first_resp > 0 := by
    rw [Call.Shows, if_pos rfl, not_lt]
  have hhead : ∀ e : Event, shown e = none → displayed (d.out ++ [e]) = displayed d.out := by
    intro e he
    have hnone : displayed [e] = [] := List.filterMap_cons_none he
    rw [displayed_append, hnone, List.append_nil]
  have htext : ∀ out, displayed (out ++ [.itemText]) = displayed out ++ [0] := fun out => displayed_append _ _
  rw [dateLine, if_pos hresp]
  constructor
  · intro h2
    refine ⟨_, if_pos h2, ?_⟩
    rw [if_pos (by omega)]
    exact hhead _ rfl
  · intro h2
    refine ⟨_, if_neg h2, ?_⟩
    by_cases h0 : c.show_header ≠ 0
    · by_cases hf : c.first_resp > 0
      · rw [if_pos h0, if_pos hf, if_neg (by rwa [hshows, not_not]), List.append_nil]
        exact ⟨hresp, hhead _ rfl⟩
      · rw [if_pos h0, if_neg hf, if_pos (hshows.2 hf)]
        exact ⟨hresp, by rw [htext, hhead _ rfl]⟩
    · by_cases hf : c.first_resp > 0
      · rw [if_neg h0, if_pos hf, if_neg (by rwa [hshows, not_not]), List.append_nil]
        exact ⟨hresp, rfl⟩
      · rw [if_neg h0, if_neg hf, if_pos (hshows.2 hf)]
        exact ⟨hresp, htext _⟩

/-- the title, and the item text up to its date -/
theorem dispitem_head (c : Call) (title : Str) (s : Section) (rest : List Str) :
    ∃ d : Disp, (d.resp = 0 ∧ d.printing = true ∧ d.scribbled = ((s.flags ++ ['\n'])[3]? == some '3') ∧ d.out = []) ∧
      dispitem c (['!', '<', 'p', 's', '0', '2', '>', '\n'] :: ([',', 'H'] ++ title ++ ['\n']) :: (s.head ++ rest)) =
        match dateLine c (s.date ++ ['\n']) d with
        | .more d => dispLoop c rest d
        | .header d => some (-1, d.out)
        | .weird => none := by
  let d₀ : Disp := { Disp.init with title := copyto (title ++ ['\n']) '\n' BFSZ }
  let d₁ : Disp := { d₀ with scribbled := (s.flags ++ ['\n'])[3]? == some '3' }
  obtain ⟨uid, login, huser⟩ := dispLine_user_eq (c := c) s.uid s.login d₁
  obtain ⟨fullname, halias⟩ := dispLine_alias_eq (c := c) s.fullname { d₁ with uid := uid, login := login }
  have htitle : dispLine c ([',', 'H'] ++ title ++ ['\n']) .init = .more d₀ := rfl
  have hflags : dispLine c ([',', 'R'] ++ s.flags ++ ['\n']) d₀ = .more d₁ := rfl
  refine ⟨{ d₁ with uid := uid, login := login, fullname := fullname }, ⟨rfl, rfl, rfl, rfl⟩, ?_⟩
  rw [Section.head_append, dispitem, if_pos rfl, dispLoop_more htitle, dispLoop_more hflags, dispLoop_more huser,
    dispLoop_more halias, dispLoop]
  rfl

/-- the number of sections that are counted as ended: all but the last one, whose `,E` may be missing -/
def Item.ended (i : Item) : ℤ := i.resps.length + if (i.resps.getLastD i.text).ended then 1 else 0

/-- **What a call does.** It displays the sections in its range, and returns the number of the last section that is
ended whatever it displayed; with a `show_header` of 2 it displays nothing and returns -1. -/
theorem dispitem_spec (c : Call) (i : Item) :
    ∃ out, dispitem c i.lines = some (if c.show_header = 2 then -1 else i.ended - 1, out) ∧
      displayed out = if c.show_header = 2 then [] else c.showing 0 (i.resps.length + 1) := by
  obtain ⟨d, ⟨hresp, -, -, hnil⟩, hcall⟩ := dispitem_head c i.title i.text
    (i.text.tail ++ i.resps.flatMap fun s => s.head ++ s.tail)
  have hout : displayed d.out = [] := congrArg displayed hnil
  rw [Item.lines, List.flatMap_cons, List.append_assoc i.text.head, hcall]
  by_cases h2 : c.show_header = 2
  · obtain ⟨d', hline, hs⟩ := (dateLine_text hresp (i.text.date ++ ['\n'])).1 h2
    rw [hline, if_pos h2, if_pos h2]
    exact ⟨d'.out, rfl, hs.trans hout⟩
  · obtain ⟨d₁, hline, hr₁, hs₁⟩ := (dateLine_text hresp (i.text.date ++ ['\n'])).2 h2
    obtain ⟨d₂, htail, hs₂, hE₂, hended, hnot⟩ := dispLoop_tail (c := c) i.text
      (i.resps.flatMap fun s => s.head ++ s.tail) d₁
    have hready : d₂.Ready c 1 := by
      cases he : i.text.ended with
      | true =>
        obtain ⟨hr, hp⟩ := hended he
        refine Or.inl ⟨hE₂.trans he, by rw [hr, hr₁, zero_add], ?_⟩
        rw [hp, hr₁, zero_add]
        exact decide_eq_decide.2 (c.shows_of_pos one_pos).symm
      | false => exact Or.inr ⟨hE₂.trans he, by rw [hnot he, hr₁, sub_self]⟩
    obtain ⟨d', hloop, hd', hE', hs'⟩ := dispLoop_sections i.resps one_pos hready hE₂
    have hcount : d'.resp = i.ended := by
      rw [Item.ended, ← hE']
      rcases hd' with ⟨hE, hr, -⟩ | ⟨hE, hr⟩
      · rw [hr, hE, if_pos rfl, add_comm]
      · rw [hr, hE, if_neg Bool.false_ne_true, add_zero, add_sub_cancel_left]
    rw [hline, if_neg h2, if_neg h2]
    dsimp only
    refine ⟨d'.out, by rw [htail, hloop, hcount], ?_⟩
    rw [hs', hs₂, hs₁, hout, List.nil_append, Call.showing, zero_add]

/-! ## The number returned -/

theorem Call.mem_showing {j i : ℤ} {n : ℕ} : i ∈ c.showing j n ↔ j ≤ i ∧ i < j + n ∧ c.Shows i := by
  induction n generalizing j with
  | zero =>
    simp only [Call.showing, List.not_mem_nil, Nat.cast_zero, add_zero, false_iff]
    omega
  | succ n ih =>
    rw [Call.showing, List.mem_append, ih]
    push_cast
    constructor
    · intro hx
      rcases hx with h | ⟨h1, h2, h3⟩
      · split_ifs at h with hj
        · obtain rfl := List.mem_singleton.1 h
          exact ⟨le_rfl, by omega, hj⟩
        · cases h
      · exact ⟨by omega, by omega, h3⟩
    · intro hx
      rcases hx with ⟨h1, h2, h3⟩
      by_cases hij : i = j
      · subst hij
        exact Or.inl (by simp [h3])
      · exact Or.inr ⟨by omega, by omega, h3⟩

theorem Call.showing_succ (c : Call) (j : ℤ) (n : ℕ) :
    c.showing j (n + 1) = c.showing j n ++ if c.Shows (j + n) then [j + n] else [] := by
  induction n generalizing j with
  | zero => simp [Call.showing]
  | succ n ih =>
    rw [Call.showing, ih (j + 1), Call.showing, List.append_assoc, add_assoc, add_comm 1 (n : ℤ), ← Nat.cast_succ]

/-- the last of `n` sections displayed is the `n`-th, or there is none, if the `n`-th is displayed or there is none -/
theorem Call.last_showing (c : Call) (n : ℕ) : (c.showing 0 n).getLastD (-1) = n - 1 ↔ n = 0 ∨ c.Shows (n - 1) := by
  cases n with
  | zero => simp [Call.showing]
  | succ n =>
    have hcast : ((n + 1 : ℕ) : ℤ) - 1 = n := by push_cast; ring
    rw [hcast, Call.showing_succ, zero_add, or_iff_right (Nat.succ_ne_zero n)]
    split_ifs with hn
    · rw [List.getLastD_concat]
      simp [hn]
    · rw [List.append_nil]
      constructor
      · intro hlast
        have hmem := List.getLastD_mem_cons (l := c.showing 0 n) (a := (-1 : ℤ))
        rw [hlast] at hmem
        rcases List.mem_cons.1 hmem with h | h
        · omega
        · have := (Call.mem_showing.1 h).2.1
          omega
      · exact fun h => absurd h hn

/-- the number returned is that of the last section displayed, or -1 if there is none -/
def DispRight (c : Call) (file : List Str) : Prop :=
  ∃ r out, dispitem c file = some (r, out) ∧ r = (displayed out).getLastD (-1)

/-- Only the header is asked for; or the last section that is ended is displayed, or none is ended, and a section after
it is not. -/
def LastShown (c : Call) (i : Item) : Prop :=
  c.show_header = 2 ∨ ((i.ended = 0 ∨ c.Shows (i.ended - 1)) ∧ ¬ (i.ended ≤ i.resps.length ∧ c.Shows i.ended))

theorem dispRight_iff (c : Call) (i : Item) : DispRight c i.lines ↔ LastShown c i := by
  obtain ⟨out, hcall, hout⟩ := dispitem_spec c i
  have hright : DispRight c i.lines ↔
      (if c.show_header = 2 then -1 else i.ended - 1) = (displayed out).getLastD (-1) := by
    constructor
    · intro hx
      rcases hx with ⟨r, out', hcall', hr⟩
      rw [hcall] at hcall'
      cases hcall'
      exact hr
    · exact fun h => ⟨_, out, hcall, h⟩
  rw [hright, hout, LastShown]
  by_cases h2 : c.show_header = 2
  · simp [h2]
  · rw [if_neg h2, if_neg h2, or_iff_right h2, eq_comm, Item.ended]
    split_ifs with hE
    · have hlast := c.last_showing (i.resps.length + 1)
      rw [Nat.cast_succ] at hlast
      rw [hlast]
      constructor
      · intro h
        exact ⟨Or.inr (h.resolve_left (Nat.succ_ne_zero _)), fun hlate => by omega⟩
      · intro hx
        rcases hx with ⟨h | h, -⟩
        · omega
        · exact Or.inr h
    · -- the last section lacks its `,E`, and may be displayed all the same
      rw [add_zero, Call.showing_succ, zero_add]
      split_ifs with hn
      · rw [List.getLastD_concat]
        constructor
        · intro h
          omega
        · intro hx
          rcases hx with ⟨-, h⟩
          exact absurd ⟨le_rfl, hn⟩ h
      · rw [List.append_nil, c.last_showing]
        constructor
        · intro h
          exact ⟨h.imp_left fun h0 => by omega, fun hlate => hn hlate.2⟩
        · intro hx
          rcases hx with ⟨h, -⟩
          exact h.imp_left fun h0 => by omega

/-! ## The mark -/

/-- what `display_it` works on -/
structure Reader where
  curitem : ℤ
  max_resp : ℤ
  /-- the greatest response number read before -/
  max_read : ℤ
  curresp : ℤ
  extracting : Bool
  againfirst : ℤ
  againlast : ℤ
  againhead : ℤ
  pf : Pf

/-- the call that `display_it` makes -/
def Reader.call (r : Reader) (first last showhead : ℤ) : Call := ⟨r.curitem, first, last, r.max_resp, showhead, false⟩

/-- Display a range and mark it as read. `interrupted` says that the pager or the pipe terminates meanwhile; `none`
is an exit in `dispitem`. -/
def display_it (first last showhead : ℤ) (interrupted : Bool) (file : List Str) (now : BitVec 64) (r : Reader) :
    Option Reader :=
  let r := { r with againfirst := first, againlast := last, againhead := showhead }
  if interrupted then some r
  else
    (dispitem (r.call first last showhead) file).map fun p =>
      let r :=
        if p.1 > r.max_read ∧ (¬ r.extracting ∨ first ≤ r.max_read) then
          { r with pf := update_item r.curitem p.1 now r.pf, max_read := p.1 }
        else r
      { r with curresp := p.1 + 1 }

/-- display one response -/
def do_only (n : ℤ) : Bool → List Str → BitVec 64 → Reader → Option Reader := display_it n n 0

/-- after an update with a count an entry tells the response it was updated with -/
theorem last_read_update {p : Pf} (h : p.no_pf = false) (item : ℤ) {resp : ℤ} (hresp : resp ≠ -1) (now : BitVec 64) :
    (last_read (update_item item resp now p) item).1 = resp := by
  have hkey : ∀ e, Pfe.item_no (touch resp now e) = Pfe.item_no e := item_no_touch resp now
  have hfind := SortedTable.find_alter_self hkey (item_no_fresh item resp now) p.pflist
  rw [update_item, h, if_neg Bool.false_ne_true, last_read, if_neg Bool.false_ne_true]
  dsimp only
  rw [hfind]
  cases SortedTable.find Pfe.item_no item p.pflist with
  | none => simp [fresh, hresp]
  | some pf => simp [touch, hresp]

/-- the entry of the item tells a response number no larger than one that was displayed or had been read before -/
def MarkRight (first last showhead : ℤ) (interrupted : Bool) (file : List Str) (now : BitVec 64) (r : Reader) : Prop :=
  ∃ r', display_it first last showhead interrupted file now r = some r' ∧
    ((last_read r'.pf r.curitem).1 ≤ r.max_read ∨
      ∃ n out, dispitem (r.call first last showhead) file = some (n, out) ∧
        ∃ j ∈ displayed out, (last_read r'.pf r.curitem).1 ≤ j)

/-- Nothing is marked; or the last section that is ended was read before or is displayed, or the one after it is. -/
def MarkSafe (first last showhead : ℤ) (interrupted : Bool) (i : Item) (r : Reader) : Prop :=
  interrupted = true ∨ r.pf.no_pf = true ∨ showhead = 2 ∨ (r.extracting = true ∧ r.max_read < first) ∨
    i.ended - 1 ≤ r.max_read ∨ (r.call first last showhead).Shows (i.ended - 1) ∨
    (i.ended ≤ i.resps.length ∧ (r.call first last showhead).Shows i.ended)

/-- an uninterrupted display updates the entry with the number the call returns, where that is news -/
theorem display_it_of_call {first last showhead : ℤ} {file : List Str} {r : Reader} {n : ℤ} {out : List Event}
    (now : BitVec 64) (hcall : dispitem (r.call first last showhead) file = some (n, out)) :
    ∃ r', display_it first last showhead false file now r = some r' ∧
      r'.pf = if n > r.max_read ∧ (¬ r.extracting ∨ first ≤ r.max_read) then update_item r.curitem n now r.pf
        else r.pf := by
  refine ⟨_, by rw [display_it, if_neg Bool.false_ne_true]; exact congrArg _ hcall, ?_⟩
  dsimp only
  split_ifs
  · rfl
  · rfl

/-- when the call is not interrupted the number it returns decides -/
theorem markRight_of_call {first last showhead : ℤ} {file : List Str} {now : BitVec 64} {r : Reader}
    (hmax : -1 ≤ r.max_read) (hread : (last_read r.pf r.curitem).1 ≤ r.max_read) {n : ℤ} {out : List Event}
    (hcall : dispitem (r.call first last showhead) file = some (n, out)) :
    MarkRight first last showhead false file now r ↔
      n ≤ r.max_read ∨ (r.extracting = true ∧ r.max_read < first) ∨ r.pf.no_pf = true ∨ ∃ j ∈ displayed out, n ≤ j := by
  obtain ⟨r', hr', hpf⟩ := display_it_of_call now hcall
  have hmark : MarkRight first last showhead false file now r ↔
      (last_read r'.pf r.curitem).1 ≤ r.max_read ∨ ∃ j ∈ displayed out, (last_read r'.pf r.curitem).1 ≤ j := by
    constructor
    · intro hx
      rcases hx with ⟨r'', hr'', h⟩
      rw [hr'] at hr''
      cases hr''
      apply h.imp_right
      intro hx
      rcases hx with ⟨n', out', hcall', h⟩
      rw [hcall] at hcall'
      cases hcall'
      exact h
    · exact fun h => ⟨r', hr', h.imp_right fun h => ⟨n, out, hcall, h⟩⟩
  rw [hmark, hpf]
  split_ifs with hupd
  · obtain ⟨hlt, hext⟩ := hupd
    have hnot : ¬ (r.extracting = true ∧ r.max_read < first) := by
      intro hx
      rcases hx with ⟨he, hlt⟩
      exact hext.elim (absurd he) fun hle => by omega
    cases hno : r.pf.no_pf with
    | true =>
      rw [update_item, if_pos hno]
      simp [hread]
    | false =>
      rw [last_read_update hno r.curitem (by omega)]
      simp [hnot]
  · apply iff_of_true (Or.inl hread)
    by_cases hle : n ≤ r.max_read
    · exact Or.inl hle
    · simp only [not_and, not_or, not_not, not_le] at hupd
      exact Or.inr (Or.inl (hupd (by omega)))

theorem markRight_iff (first last showhead : ℤ) (interrupted : Bool) (i : Item) (now : BitVec 64) {r : Reader}
    (hmax : -1 ≤ r.max_read) (hread : (last_read r.pf r.curitem).1 ≤ r.max_read) :
    MarkRight first last showhead interrupted i.lines now r ↔ MarkSafe first last showhead interrupted i r := by
  obtain ⟨out, hcall, hout⟩ := dispitem_spec (r.call first last showhead) i
  have hhead : (r.call first last showhead).show_header = showhead := rfl
  have hended : i.resps.length ≤ i.ended ∧ i.ended ≤ i.resps.length + 1 := by
    rw [Item.ended]
    split_ifs <;> omega
  rw [hhead] at hcall hout
  cases interrupted with
  | true => exact iff_of_true ⟨_, rfl, Or.inl hread⟩ (Or.inl rfl)
  | false =>
    rw [markRight_of_call hmax hread hcall, hout, MarkSafe]
    by_cases h2 : showhead = 2
    · simp [h2, hmax]
    · rw [if_neg h2, if_neg h2]
      have hshown : (∃ j ∈ (r.call first last showhead).showing 0 (i.resps.length + 1), i.ended - 1 ≤ j) ↔
          (0 < i.ended ∧ (r.call first last showhead).Shows (i.ended - 1)) ∨
            (i.ended ≤ i.resps.length ∧ (r.call first last showhead).Shows i.ended) := by
        simp only [Call.mem_showing]
        push_cast
        constructor
        · intro hx
          rcases hx with ⟨j, ⟨h0, hlt, hj⟩, hle⟩
          obtain rfl | rfl : j = i.ended - 1 ∨ j = i.ended := by omega
          · exact Or.inl ⟨by omega, hj⟩
          · exact Or.inr ⟨by omega, hj⟩
        · intro hx
          rcases hx with ⟨h0, hj⟩ | ⟨hle, hj⟩
          · exact ⟨_, ⟨by omega, by omega, hj⟩, le_rfl⟩
          · exact ⟨_, ⟨by omega, by omega, hj⟩, by omega⟩
      rw [hshown]
      constructor
      · intro hx
        rcases hx with h | h | h | ⟨-, h⟩ | h
        all_goals simp [h]
      · intro hx
        rcases hx with h | h | h | h | h | h | h
        · cases h
        · exact Or.inr (Or.inr (Or.inl h))
        · exact absurd h h2
        · exact Or.inr (Or.inl h)
        · exact Or.inl h
        · by_cases h0 : 0 < i.ended
          · exact Or.inr (Or.inr (Or.inr (Or.inl ⟨h0, h⟩)))
          · exact Or.inl (by omega)
        · exact Or.inr (Or.inr (Or.inr (Or.inr h)))

/-- **What is marked as read.** For a well-formed item file: a call returns the number of the last section it displayed
exactly if that is the last section that is ended (or only the header is asked for); and `display_it` marks no response
that was neither shown nor read before exactly if it marks nothing, or the last section that is ended was read before or
lies within what is displayed. -/
theorem read_marks_iff {i : Item} {file : Str} (hfile : fgetsAll BFSZ file = i.lines) :
    (∀ c : Call, DispRight c (fgetsAll BFSZ file) ↔ LastShown c i) ∧
    ∀ (first last showhead : ℤ) (interrupted : Bool) (now : BitVec 64) (r : Reader),
      -1 ≤ r.max_read → (last_read r.pf r.curitem).1 ≤ r.max_read →
      (MarkRight first last showhead interrupted (fgetsAll BFSZ file) now r ↔
        MarkSafe first last showhead interrupted i r) := by
  rw [hfile]
  constructor
  · exact fun c => dispRight_iff c i
  · exact fun first last showhead interrupted now r hmax hread =>
      markRight_iff first last showhead interrupted i now hmax hread

/-- a short section -/
def hello : Section where
  flags := ['0', '0', '0', '0']
  uid := ['7']
  login := ['j', 'o', 'e']
  fullname := ['J', 'o', 'e']
  date := ['3', 'd']
  html := []
  body := [['H', 'e', 'l', 'l', 'o', '\n']]
  ended := true
  flags_le := by decide
  login_le := by decide
  html_text := by decide
  body_text := by decide

/-- an item with two responses -/
def greetings : Item := ⟨['H', 'i'], hello, [hello, hello]⟩

/-- its file, without the newlines -/
def greetingsLines : List Str := greetings.lines.map List.dropLast

/-- a reader who has read the item text -/
def newReader : Reader := ⟨4, 2, 0, 1, false, 0, 0, 0, ⟨[], [⟨4, 1, false, 1, 0, false⟩], false⟩⟩

/-- reading the item to its end is marked right -/
theorem read_to_end :
    DispRight (newReader.call 1 (-1) 0) (fgetsAll BFSZ (unlines greetingsLines)) ∧
      MarkRight 1 (-1) 0 false (fgetsAll BFSZ (unlines greetingsLines)) 0 newReader := by
  have hfile : fgetsAll BFSZ (unlines greetingsLines) = greetings.lines :=
    (fgetsAll_lines greetingsLines (by decide)).trans (by decide)
  obtain ⟨hreturn, hmark⟩ := read_marks_iff hfile
  constructor
  · rw [hreturn]
    exact Or.inr (by decide)
  · rw [hmark _ _ _ _ _ _ (by decide) (by decide)]
    exact Or.inr (Or.inr (Or.inr (Or.inr (Or.inr (Or.inl (by decide))))))

/-- `only 1` displays the first response, returns 2 and marks both as read -/
theorem only_one :
    (∃ out, dispitem (newReader.call 1 1 0) greetings.lines = some (2, out) ∧ displayed out = [1]) ∧
      ¬ DispRight (newReader.call 1 1 0) greetings.lines ∧
      (∃ r, do_only 1 false greetings.lines 0 newReader = some r ∧ (last_read r.pf 4).1 = 2) ∧
      ¬ MarkRight 1 1 0 false greetings.lines 0 newReader := by
  obtain ⟨out, hcall, hout⟩ := dispitem_spec (newReader.call 1 1 0) greetings
  obtain ⟨r', hr', hpf⟩ := display_it_of_call 0 hcall
  refine ⟨⟨out, hcall, hout.trans (by decide)⟩, ?_, ⟨r', hr', ?_⟩, ?_⟩
  · rw [dispRight_iff]
    unfold LastShown
    decide
  · rw [hpf]
    decide
  · rw [markRight_iff 1 1 0 false greetings 0 (by decide) (by decide)]
    unfold MarkSafe
    decide

end MNetSoft.Bbsread
