/-
The two files the `.cflist` editor (`cflbuild.c`, `cflsub.c`) reads conferences from: the user's own list of names, and
the public catalogue, whose lines start with a blank and the name of a conference, below lines that name a category.

- `ExtractTokens`, `loadLine`: the names on a line of `.cflist`.
- `ExtractConfName`, `ReadPublicTxt`: the catalogue; `none` stands for a read past the end of a buffer or a name too
  long for its own.
- `loadLine_names`: what is loaded is the name of a conference.
- `ReadPublicTxt_named`: once the catalogue has been read, what is taken from a line of it is the name of a conference.
-/
import Mathlib.Tactic
import MNetSoft.Core.CString

namespace MNetSoft.Cflbuild

open MNetSoft.CString

/-! ## Model -/

def Isblank (FileBuf : Str) : Bool := FileBuf.all (· ∈ ['\r', '\n', '\t', ' '])

/-- blanks, commas and tabs stand between names -/
def isSep (c : Char) : Bool := c ∈ [' ', ',', '\t']

/-- the next name, and the text from the one after it on -/
def ExtractTokens (FileBuf : Str) : Str × Str :=
  let FileBuf := FileBuf.dropWhile isSep
  (FileBuf.takeWhile fun c => !isSep c, (FileBuf.dropWhile fun c => !isSep c).dropWhile isSep)

theorem length_ExtractTokens (c : Char) (s : Str) : (ExtractTokens (c :: s)).2.length < (c :: s).length := by
  rw [ExtractTokens]
  dsimp only
  have hdrop : ∀ (p : Char → Bool) (t : Str), (t.dropWhile p).length ≤ t.length := fun p t =>
    (List.dropWhile_sublist p).length_le
  by_cases hc : isSep c = true
  · rw [List.dropWhile_cons_of_pos hc]
    apply Nat.lt_succ_of_le
    calc _ ≤ ((s.dropWhile isSep).dropWhile fun c => !isSep c).length := hdrop _ _
      _ ≤ (s.dropWhile isSep).length := hdrop _ _
      _ ≤ s.length := hdrop _ _
  · rw [List.dropWhile_cons_of_neg hc, List.dropWhile_cons_of_pos (by simpa using hc)]
    exact Nat.lt_succ_of_le ((hdrop _ _).trans (hdrop _ _))

/-- `while (Index < Len)`: the names of a text -/
def tokens : Str → List Str
  | [] => []
  | c :: s => (ExtractTokens (c :: s)).1 :: tokens (ExtractTokens (c :: s)).2
termination_by s => s.length
decreasing_by exact length_ExtractTokens c s

/-- a line of `.cflist` without its last character -/
def loadBuf (FileBuf : Str) : Str := (cstr FileBuf).dropLast

/-- the names on a line of `.cflist` -/
def loadLine (FileBuf : Str) : List Str := if Isblank (cstr FileBuf) then [] else tokens (loadBuf FileBuf)

/-- what `ExtractConfName` returns: 0, or 1 or 2 with the name -/
inductive Extracted where
  | neither
  | category (ConfName : Str)
  | conf (ConfName : Str)
deriving DecidableEq

def Extracted.ConfName : Extracted → Option Str
  | .neither => none
  | .category ConfName => some ConfName
  | .conf ConfName => some ConfName

/-- a blank or a tab -/
def isGap (c : Char) : Bool := c = ' ' || c = '\t'

/-- `FileBuf` is the line with all that is behind it in its memory -/
def ExtractConfName (FileBuf : Str) : Option Extracted :=
  let k := FileBuf.head? ≠ some ' '
  if k ∧ ':' ∉ cstr FileBuf then some .neither
  else if Isblank (cstr FileBuf) then some .neither
  else
    let FileBuf := FileBuf.dropWhile isGap
    if k then some (.category (FileBuf.takeWhile fun c => c ≠ ':' && c ≠ '\n' && c ≠ '\x00'))
    -- not even the end of the line stops this scan
    else if ∀ c ∈ FileBuf, ¬ isGap c then none
    else some (.conf (FileBuf.takeWhile fun c => !isGap c))

/-- a name is taken into a buffer of `size` bytes -/
def extractInto (size : ℕ) (FileBuf : Str) : Option Extracted :=
  (ExtractConfName FileBuf).filter fun e => e.ConfName.all fun n => n.length < size

/-- a line of the catalogue, with its number in the category and in all -/
structure PublicConf where
  ConfName : Str
  ConfNum : ℤ
  SerialNum : ℤ

set_option linter.dupNamespace false in
structure Category where
  Category : Str
  CatNum : ℤ
  ConfPub : List PublicConf

/-- a line is put behind the others of its category, if there is one -/
def addConf (CatNum : ℤ) (Pub : PublicConf) : List Category → List Category
  | [] => []
  | Cat :: CatList =>
    if Cat.CatNum = CatNum then { Cat with ConfPub := Cat.ConfPub ++ [Pub] } :: CatList
    else Cat :: addConf CatNum Pub CatList

/-- what `ReadPublicTxt` keeps from line to line -/
structure Reading where
  CatList : List Category
  CatNum : ℤ
  ConfNum : ℤ
  SerialNum : ℤ
  FileBuf : Str

/-- a buffer after `fgets` has put a line into it -/
def fill (line FileBuf : Str) : Str := line ++ '\x00' :: FileBuf.drop (line.length + 1)

def readLine (r : Reading) (line : Str) : Option Reading :=
  let FileBuf := fill line r.FileBuf
  (extractInto 30 FileBuf).map fun
    | .neither => { r with FileBuf := FileBuf }
    | .category ConfName =>
      { r with
        CatList := r.CatList ++ [⟨ConfName, r.CatNum, []⟩]
        CatNum := r.CatNum + 1
        ConfNum := 0
        FileBuf := FileBuf }
    | .conf _ =>
      { r with
        CatList := addConf (r.CatNum - 1) ⟨cstr FileBuf, r.ConfNum, r.SerialNum⟩ r.CatList
        ConfNum := r.ConfNum + 1
        SerialNum := r.SerialNum + 1
        FileBuf := FileBuf }

/-- `FileBuf` is what is on the stack -/
def ReadPublicTxt (FileBuf file : Str) : Option (List Category) :=
  ((fgetsAll 128 file).foldlM readLine ⟨[], 0, 0, 0, FileBuf⟩).map Reading.CatList

/-- the lines of the catalogue -/
def confs (CatList : List Category) : List PublicConf := CatList.flatMap Category.ConfPub

/-- `FindCat` -/
def FindCat (CatNum : ℤ) (CatList : List Category) : Option Category := CatList.find? fun Cat => Cat.CatNum = CatNum

/-- the line of a number in all, or in the category that has been chosen -/
def findConf (CatList : List Category) (Pub : Option (List PublicConf)) (ConfNum : ℤ) : Option PublicConf :=
  match Pub with
  | none => (confs CatList).find? fun p => p.SerialNum = ConfNum
  | some Pub => Pub.find? fun p => p.ConfNum = ConfNum

/-- the name of a conference by its number, taken into a buffer of `size` bytes -/
def GetConfFromPublicTxt (size : ℕ) (CatList : List Category) (Pub : Option (List PublicConf)) (ConfNum : ℤ) :
    Option Extracted :=
  match findConf CatList Pub ConfNum with
  | none => some .neither
  | some p => extractInto size p.ConfName

/-! ## Names -/

/-- a name can be written to a line that `WriteTocflist` does not cut -/
def IsName (n : Str) : Prop := '\n' ∉ n ∧ n.length < 128

theorem tokens_sublist {s t : Str} (h : t ∈ tokens s) : t.Sublist s := by
  induction s using tokens.induct with
  | case1 =>
    rw [tokens] at h
    cases h
  | case2 c s ih =>
    have hdrop : ∀ (p : Char → Bool) (t : Str), (t.dropWhile p).Sublist t := fun p t => List.dropWhile_sublist p
    rw [tokens] at h
    rcases List.mem_cons.1 h with rfl | h
    · exact (List.takeWhile_sublist _).trans (hdrop _ _)
    · exact (ih h).trans ((hdrop _ _).trans ((hdrop _ _).trans (hdrop _ _)))

theorem loadLine_names {file l n : Str} (hl : l ∈ fgetsAll 128 file) (hn : n ∈ loadLine l) :
    IsName n ∧ n.length ≤ (loadBuf l).length := by
  rw [loadLine] at hn
  split_ifs at hn
  · cases hn
  have hsub := tokens_sublist hn
  have hlen : (loadBuf l).length ≤ 127 := by
    calc (loadBuf l).length ≤ (cstr l).length := (List.dropLast_sublist _).length_le
      _ ≤ l.length := length_cstr_le l
      _ ≤ 127 := length_of_mem_fgetsAll hl
  have hnl : '\n' ∉ loadBuf l := newline_not_mem_dropLast_cstr (newline_not_mem_dropLast hl)
  exact ⟨⟨fun h => hnl (hsub.subset h), by have := hsub.length_le; omega⟩, hsub.length_le⟩

theorem newline_not_mem_ConfName {l n : Str} {e : Extracted} (hl : '\n' ∉ l.dropLast) (he : ExtractConfName l = some e)
    (hn : e.ConfName = some n) : '\n' ∉ n := by
  rw [ExtractConfName] at he
  dsimp only at he
  split_ifs at he with h1 h2 h3 h4
  · cases he
    cases hn
  · cases he
    cases hn
  · cases he
    cases hn
    intro hmem
    have hall := List.all_eq_true.1 List.all_takeWhile _ hmem
    simp at hall
  · cases he
    cases hn
    -- what stops the scan is behind the name
    have hstop : (l.dropWhile isGap).dropWhile (fun c => !isGap c) ≠ [] := by
      intro hnil
      rw [List.dropWhile_eq_nil_iff] at hnil
      apply h4
      intro c hc
      simpa using hnil c hc
    intro hmem
    apply hl
    have hparts : l = l.takeWhile isGap ++ ((l.dropWhile isGap).takeWhile (fun c => !isGap c) ++
        (l.dropWhile isGap).dropWhile (fun c => !isGap c)) := by
      rw [List.takeWhile_append_dropWhile, List.takeWhile_append_dropWhile]
    rw [hparts, List.dropLast_append_of_ne_nil (List.append_ne_nil_of_right_ne_nil _ hstop),
      List.dropLast_append_of_ne_nil hstop]
    exact List.mem_append_right _ (List.mem_append_left _ hmem)

theorem ExtractConfName_append {l : Str} {e : Extracted} (hl : '\x00' ∉ l) (he : ExtractConfName l = some e) (t : Str) :
    ExtractConfName (l ++ '\x00' :: t) = some e := by
  have hhead : (l ++ '\x00' :: t).head? ≠ some ' ' ↔ l.head? ≠ some ' ' := by
    cases l with
    | nil => simp
    | cons c l => rfl
  rw [ExtractConfName] at he ⊢
  dsimp only at he ⊢
  rw [cstr_of_not_mem hl] at he
  rw [cstr_append_nul hl]
  simp only [hhead]
  by_cases hneither : l.head? ≠ some ' ' ∧ ':' ∉ l
  · rwa [if_pos hneither] at he ⊢
  rw [if_neg hneither] at he ⊢
  by_cases hblank : Isblank l = true
  · rwa [if_pos hblank] at he ⊢
  rw [if_neg hblank] at he ⊢
  -- the blanks end before the line does
  obtain ⟨c, hc, hgap⟩ : ∃ c ∈ l, isGap c = false := by
    rw [Isblank, List.all_eq_true] at hblank
    push Not at hblank
    obtain ⟨c, hc, hne⟩ := hblank
    refine ⟨c, hc, ?_⟩
    simp only [ne_eq, decide_eq_true_eq, List.mem_cons, not_or] at hne
    simp [isGap, hne]
  rw [dropWhile_append_of_mem hc hgap]
  by_cases hk : l.head? ≠ some ' '
  · rw [if_pos hk] at he ⊢
    rwa [takeWhile_append_cons (by simp)]
  rw [if_neg hk] at he ⊢
  split_ifs at he with hall
  obtain ⟨d, hd, hgap⟩ : ∃ d ∈ l.dropWhile isGap, isGap d = true := by simpa using hall
  rw [if_neg fun h => h d (List.mem_append_left _ hd) hgap, takeWhile_append_of_mem hd (by simp [hgap])]
  exact he

/-- what is taken from a line of the catalogue is the name of a conference -/
def Named (CatList : List Category) : Prop :=
  ∀ p ∈ confs CatList, ∀ e, ExtractConfName p.ConfName = some e → ∀ n, e.ConfName = some n → '\n' ∉ n ∧ n.length < 30

/-- every name of the catalogue ends on its line -/
def Readable (CatList : List Category) : Prop := ∀ p ∈ confs CatList, ExtractConfName p.ConfName ≠ none

theorem extractInto_eq_some {size : ℕ} {l : Str} {e : Extracted} :
    extractInto size l = some e ↔ ExtractConfName l = some e ∧ ∀ n, e.ConfName = some n → n.length < size := by
  rw [extractInto, Option.filter_eq_some_iff]
  cases he : e.ConfName with
  | none => simp
  | some n => simp

theorem mem_confs_addConf {CatNum : ℤ} {Pub p : PublicConf} {CatList : List Category}
    (h : p ∈ confs (addConf CatNum Pub CatList)) : p = Pub ∨ p ∈ confs CatList := by
  induction CatList with
  | nil => cases h
  | cons Cat CatList ih =>
    rw [addConf] at h
    split_ifs at h with hnum
    · simp only [confs, List.flatMap_cons, List.mem_append, List.mem_singleton] at h ⊢
      tauto
    · simp only [confs, List.flatMap_cons, List.mem_append] at h ih ⊢
      exact h.elim (fun h => Or.inr (Or.inl h)) fun h => (ih h).imp_right Or.inr

theorem cstr_fill (line FileBuf : Str) : cstr (fill line FileBuf) = cstr line := by
  by_cases hnul : '\x00' ∈ line
  · exact cstr_append_of_mem hnul _
  · rw [fill, cstr_append_nul hnul, cstr_of_not_mem hnul]

theorem readLine_named {r r' : Reading} {l : Str} (hr : Named r.CatList) (hl : '\n' ∉ l.dropLast)
    (h : readLine r l = some r') : Named r'.CatList := by
  rw [readLine, Option.map_eq_some_iff] at h
  obtain ⟨e, he, rfl⟩ := h
  cases e with
  | neither => exact hr
  | category n =>
    intro p hp
    apply hr p
    simpa [confs] using hp
  | conf n =>
    intro p hp
    rcases mem_confs_addConf hp with rfl | hp
    · intro e' he' n' hn'
      dsimp only at he'
      have hline : '\n' ∉ (cstr (fill l r.FileBuf)).dropLast := by
        rw [cstr_fill]
        exact newline_not_mem_dropLast_cstr hl
      refine ⟨newline_not_mem_ConfName hline he' hn', ?_⟩
      -- the same name has been taken from the buffer
      obtain ⟨t, ht⟩ := eq_cstr_append (s := fill l r.FileBuf) (by simp [fill])
      obtain ⟨hbuf, hlen⟩ := extractInto_eq_some.1 he
      rw [ht, ExtractConfName_append (nul_not_mem_cstr _) he'] at hbuf
      cases hbuf
      exact hlen n' hn'
    · exact hr p hp

/-- **The catalogue has names.** -/
theorem ReadPublicTxt_named {FileBuf file : Str} {CatList : List Category}
    (h : ReadPublicTxt FileBuf file = some CatList) : Named CatList := by
  rw [ReadPublicTxt, Option.map_eq_some_iff] at h
  obtain ⟨r, hr, rfl⟩ := h
  have hlines : ∀ l ∈ fgetsAll 128 file, '\n' ∉ l.dropLast := fun l hl => newline_not_mem_dropLast hl
  have hinit : Named (Reading.CatList ⟨[], 0, 0, 0, FileBuf⟩) := fun p hp => by cases hp
  generalize (⟨[], 0, 0, 0, FileBuf⟩ : Reading) = r₀ at hr hinit
  generalize fgetsAll 128 file = lines at hr hlines
  induction lines generalizing r₀ with
  | nil =>
    cases hr
    exact hinit
  | cons l lines ih =>
    rw [List.foldlM_cons, Option.bind_eq_bind, Option.bind_eq_some_iff] at hr
    obtain ⟨r₁, hr₁, hr⟩ := hr
    obtain ⟨hl, hlines⟩ := List.forall_mem_cons.1 hlines
    exact ih r₁ (readLine_named hinit hl hr₁) hr hlines

/-- what can be taken from a line of the catalogue fits a buffer of at least 30 bytes -/
theorem extractInto_named {size : ℕ} {CatList : List Category} {p : PublicConf} (hnamed : Named CatList)
    (hp : p ∈ confs CatList) (hsize : 30 ≤ size) : extractInto size p.ConfName = ExtractConfName p.ConfName := by
  cases he : ExtractConfName p.ConfName with
  | none => rw [extractInto, he, Option.filter_none]
  | some e => exact extractInto_eq_some.2 ⟨he, fun n hn => (hnamed p hp e he n hn).2.trans_le hsize⟩

/-- the name of a conference is found by its number, or goes past the end of its line -/
theorem GetConfFromPublicTxt_named {size : ℕ} {CatList : List Category} {Pub : Option (List PublicConf)} (ConfNum : ℤ)
    (hnamed : Named CatList) (hPub : ∀ l ∈ Pub, ∀ p ∈ l, p ∈ confs CatList) (hsize : 30 ≤ size) :
    match GetConfFromPublicTxt size CatList Pub ConfNum with
    | none => ¬ Readable CatList
    | some e => ∀ n, e.ConfName = some n → IsName n := by
  rw [GetConfFromPublicTxt]
  cases hfind : findConf CatList Pub ConfNum with
  | none =>
    intro n hn
    cases hn
  | some p =>
    have hp : p ∈ confs CatList := by
      cases Pub with
      | none => exact List.mem_of_find?_eq_some hfind
      | some l => exact hPub l rfl p (List.mem_of_find?_eq_some hfind)
    dsimp only
    rw [extractInto_named hnamed hp hsize]
    cases he : ExtractConfName p.ConfName with
    | none => exact fun hread => hread p hp he
    | some e =>
      intro n hn
      obtain ⟨hnl, hlen⟩ := hnamed p hp e he n hn
      exact ⟨hnl, hlen.trans (by norm_num)⟩

end MNetSoft.Cflbuild
