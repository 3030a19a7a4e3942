/-
How `warning` and `fatal` put the error text into their format: `fmterror` (`warning.c`) replaces every `%r` of it and
passes the result to `vfprintf`. It works in a buffer of 1024 bytes on the stack, and in a block from `malloc` if
that is too small; when the text in the block grows, `realloc` is called, and the old pointers are used on.

A cell of memory is `none` until it is written. A read of such a cell, or of a block that has moved, or a read or write
outside of an object is undefined, and the run ends in `none`. `malloc` and `realloc` do not fail.
- `expandTo_spec`: what is written in one round.
- `round_heap`, `round_stack`, `round_malloc`: the rounds, by where the text is and goes.
- `clean_iff`: the loop stops when there is no `%r`, also in a `%%r`, so the formats for which this does not matter.
- `expansion_right_iff`: what is passed on is the format with the error text if and only if there is no `%%r` in it, and
  no block is moved; with an error text of less than two characters, if the format does not start on the heap, or starts
  with `%r` and is short enough for the stack then.
- `escaped`: a format with a `%%r`.
-/
import Mathlib.Tactic
import MNetSoft.Core.CString
import MNetSoft.Core.Memory
import MNetSoft.Core.Rewriting

namespace MNetSoft.Libgrex

open MNetSoft.CString MNetSoft.Memory MNetSoft.Rewriting

/-! ## Memory -/

abbrev Object := List (Option Char)

/-- what `malloc` gives, or a buffer on the stack -/
def fresh (size : ℕ) : Object := List.replicate size none

/-- a string and its NUL -/
def stored (s : Str) : Object := s.map some ++ [some '\x00']

/-- the string at the beginning of some cells -/
def readStr : Object → Option Str
  | [] => none
  | none :: _ => none
  | some c :: m => if c = '\x00' then some [] else (readStr m).map (c :: ·)

/-- a run of cells that is to be copied -/
def cells (m : Object) (i n : ℕ) : Option Object := if i + n ≤ m.length then some ((m.drop i).take n) else none

/-- what `realloc` does to a block that it leaves where it is -/
def resize (a : Object) (size : ℕ) : Object := a.take size ++ fresh (size - a.length)

/-! ## Model -/

/-- `sizeof(buf)` -/
def BUFSIZE : ℕ := 1024

/-- `buf`, the block that `malloc` or `realloc` has given (none as long as `a` is NULL), and whether `f` is `buf` -/
structure St where
  buf : Object
  block : Option Object
  onStack : Bool

/-- the object that `f` points to -/
def St.f (st : St) : Option Object := if st.onStack then some st.buf else st.block

/-- `strlcpy` into an object, `l` being its size -/
def strlcpyTo (m : Object) (src : Str) (l : ℕ) : Option Object := blit m 0 (stored (strlcpy src l))

/-- the two calls of `memmove` in a round, from the object `f` to the object `t`; `p` is a place in `f` -/
def expandTo (e : Str) (p : ℕ) (f t : Object) : Option Object := do
  let s ← readStr f
  let rest ← readStr (f.drop (p + 2))
  let b := s.length - 2 + e.length - rest.length
  let tail ← cells f (p + 2) (s.length - p - 2 + 1)
  let t ← blit t b tail
  blit t p (e.map some)

/-- a round of the loop, `s` being the string at `f`; if `realloc` moves the block, `strlen(f)` reads what is no more
there -/
def round (e : Str) (moved : Bool) (st : St) (s : Str) (p : ℕ) : Option St := do
  let f ← st.f
  let l := s.length - 2 + e.length + 1
  if BUFSIZE < l then
    match st.block with
    | none =>
      let t ← expandTo e p f (← strlcpyTo (fresh l) (← readStr st.buf) l)
      some { st with block := some t, onStack := false }
    | some a =>
      if st.onStack || moved then none
      else
        let t ← expandTo e p (resize a l) (resize a l)
        some { st with block := some t }
  else
    let t ← expandTo e p f st.buf
    some { st with buf := t, onStack := true }

/-- the loop, from round `i` on; `moves` tells in which rounds `realloc` would move the block -/
def expandLoop (e : Str) (moves : ℕ → Bool) : ℕ → ℕ → St → Option St
  | 0, _, _ => none
  | fuel + 1, i, st => do
    let s ← readStr (← st.f)
    match find '%' 'r' s with
    | none => some st
    | some p => expandLoop e moves fuel (i + 1) (← round e (moves i) st s p)

/-- the format is copied to the stack, or to the heap if it is too long -/
def start (fmt : Str) : Option St := do
  let l := fmt.length + 1
  if BUFSIZE < l then some ⟨fresh BUFSIZE, some (← strlcpyTo (fresh l) fmt l), false⟩
  else some ⟨← strlcpyTo (fresh BUFSIZE) fmt l, none, true⟩

/-- what is passed to `vfprintf`; every round takes a `%` away, so their number is enough -/
def fmterror (e : Str) (moves : ℕ → Bool) (fmt : Str) : Option Str := do
  let st ← expandLoop e moves (fmt.count '%' + 1) 0 (← start fmt)
  readStr (← st.f)

/-! ## What is to be passed on -/

/-- a format, the text of the error, and where `realloc` puts its blocks -/
structure Input where
  fmt : Str
  error : Str
  moves : ℕ → Bool
  fmt_nul : '\x00' ∉ fmt
  error_nul : '\x00' ∉ error
  error_percent : '%' ∉ error

/-- every `%r` of a format is replaced; a `%%` is no part of one -/
def expand (e : Str) : Str → Str
  | [] => []
  | '%' :: '%' :: s => '%' :: '%' :: expand e s
  | '%' :: 'r' :: s => e ++ expand e s
  | c :: s => c :: expand e s

/-- how many there are -/
def directives : Str → ℕ
  | [] => 0
  | '%' :: '%' :: s => directives s
  | '%' :: 'r' :: s => directives s + 1
  | _ :: s => directives s

/-- What is passed on is the format with the error text. -/
def ExpansionRight (inp : Input) : Prop := fmterror inp.error inp.moves inp.fmt = some (expand inp.error inp.fmt)

/-- no `%%` comes to stand in front of an `r` -/
def Clean (e : Str) : Str → Prop
  | [] => True
  | '%' :: '%' :: s => (expand e s).head? ≠ some 'r' ∧ Clean e s
  | '%' :: 'r' :: s => Clean e s
  | _ :: s => Clean e s

/-- The text stays where the program looks for it. -/
def Stays (inp : Input) : Prop :=
  directives inp.fmt = 0 ∨
    if inp.error.length < 2 then
      inp.fmt.length < BUFSIZE ∨ ['%', 'r'] <+: inp.fmt ∧ inp.fmt.length + inp.error.length < BUFSIZE + 2
    else ∀ i < directives inp.fmt, BUFSIZE ≤ inp.fmt.length + i * (inp.error.length - 2) → inp.moves i = false

/-! ## Formats -/

section Formats

variable {e : Str} (he : '%' ∉ e)

include he

theorem normal_expand (s : Str) : normal '%' 'r' e (expand e s) = normal '%' 'r' e s := by
  fun_induction expand e s with
  | case1 => rfl
  | case2 s ih => exact congrArg (fun t => push '%' 'r' e '%' (push '%' 'r' e '%' t)) ih
  | case3 s ih =>
    rw [normal_append_of_not_mem he, ih]
    have h := normal_replace (show '%' ≠ 'r' by decide) he [] s
    rw [List.nil_append, List.nil_append, normal_append_of_not_mem he] at h
    exact h.symm
  | case4 c s _ _ ih => exact congrArg (push '%' 'r' e c) ih

/-- **Formats in which nothing is replaced too much**: there is no `%r` when they have been expanded. -/
theorem clean_iff (s : Str) : Clean e s ↔ find '%' 'r' (expand e s) = none := by
  fun_induction expand e s with
  | case1 => exact iff_of_true trivial rfl
  | case2 s ih =>
    rw [Clean, ih, find_cons, find_cons]
    simp
  | case3 s ih => rw [Clean, ih, find_append he]
  | case4 c s hpair hverb ih =>
    have hhead : ¬(c = '%' ∧ (expand e s).head? = some 'r') := by
      rintro ⟨rfl, hr⟩
      cases s with
      | nil => cases hr
      | cons d s =>
        have hd : d ≠ '%' ∧ d ≠ 'r' := ⟨fun h => hpair s rfl (by rw [h]), fun h => hverb s rfl (by rw [h])⟩
        rw [expand.eq_def] at hr
        split at hr
        · cases hr
        · rename_i heq
          exact hd.1 (List.cons.inj heq).1
        · rename_i heq
          exact hd.1 (List.cons.inj heq).1
        · rename_i heq
          rw [List.head?_cons, Option.some_inj] at hr
          exact hd.2 ((List.cons.inj heq).1.trans hr)
    rw [find_cons, and_iff_right hhead, ← ih, Clean]
    · exact hpair
    · exact hverb

theorem count_expand (s : Str) : (expand e s).count '%' + directives s = s.count '%' := by
  fun_induction expand e s with
  | case1 => rfl
  | case2 s ih =>
    rw [directives, List.count_cons_self, List.count_cons_self, List.count_cons_self, List.count_cons_self]
    omega
  | case3 s ih =>
    rw [directives, List.count_append, List.count_eq_zero.2 he, List.count_cons_self,
      List.count_cons_of_ne (show 'r' ≠ '%' by decide)]
    omega
  | case4 c s hpair hverb ih =>
    rw [directives, List.count_cons, List.count_cons]
    · omega
    · exact hpair
    · exact hverb

/-- the loop leaves what is wanted if and only if the format is one of these -/
theorem normal_eq_expand_iff (s : Str) : normal '%' 'r' e s = expand e s ↔ Clean e s := by
  rw [clean_iff he]
  constructor
  · intro h
    rw [← h]
    exact find_normal he s
  · intro h
    rw [← normal_expand he, normal_of_find h]

end Formats

/-! ## Strings in memory -/

section Strings

variable {s u v e : Str} {m d pre : Object}

theorem length_stored (s : Str) : (stored s).length = s.length + 1 := by simp [stored]

theorem length_fresh (size : ℕ) : (fresh size).length = size := List.length_replicate

theorem stored_append (s t : Str) : stored (s ++ t) = s.map some ++ stored t := by simp [stored]

theorem readStr_stored (hs : '\x00' ∉ s) (m : Object) : readStr (stored s ++ m) = some s := by
  induction s with
  | nil => rfl
  | cons c s ih =>
    obtain ⟨hc, hs⟩ := not_or.1 (List.mem_cons.not.1 hs)
    have hcons : stored (c :: s) ++ m = some c :: (stored s ++ m) := rfl
    rw [hcons, readStr, if_neg (Ne.symm hc), ih hs]
    rfl

/-- cells without a NUL hold no string -/
theorem readStr_map (hs : '\x00' ∉ s) : readStr (s.map some) = none := by
  induction s with
  | nil => rfl
  | cons c s ih =>
    obtain ⟨hc, hs⟩ := not_or.1 (List.mem_cons.not.1 hs)
    rw [List.map_cons, readStr, if_neg (Ne.symm hc), ih hs]
    rfl

theorem strlcpyTo_eq (s : Str) (h : s.length + 1 ≤ m.length) {l : ℕ} (hl : s.length + 1 ≤ l) :
    strlcpyTo m s l = some (stored s ++ m.drop (s.length + 1)) := by
  have hcopy : strlcpy s l = s := List.take_of_length_le (by omega)
  rw [strlcpyTo, hcopy, blit, length_stored, if_pos (by omega), List.take_zero, List.nil_append, zero_add]

theorem length_text (u v : Str) : (u ++ '%' :: 'r' :: v).length = u.length + v.length + 2 := by
  simp only [List.length_append, List.length_cons]
  omega

/-- what is behind a `%r` in memory -/
theorem drop_text (u v : Str) (m : Object) :
    (stored (u ++ '%' :: 'r' :: v) ++ m).drop (u.length + 2) = stored v ++ m := by
  have hsplit : stored (u ++ '%' :: 'r' :: v) ++ m = (u ++ ['%', 'r']).map some ++ (stored v ++ m) := by
    rw [show u ++ '%' :: 'r' :: v = (u ++ ['%', 'r']) ++ v by simp, stored_append, List.append_assoc]
  rw [hsplit]
  exact List.drop_left' (by simp)

/-- the two writes: the rest and its NUL in its new place, then the error text in front of it -/
theorem blit_twice (hpre : pre.length = u.length) (hd : e.length + v.length + 1 ≤ d.length) :
    ((blit (pre ++ d) (u.length + e.length) (stored v)).bind fun t => blit t u.length (e.map some)) =
      some (pre ++ (stored (e ++ v) ++ d.drop (e.length + v.length + 1))) := by
  obtain ⟨d₁, d₂, d₃, rfl, h₁, h₂⟩ : ∃ d₁ d₂ d₃ : Object, d = d₁ ++ (d₂ ++ d₃) ∧ d₁.length = e.length ∧
      d₂.length = v.length + 1 := by
    refine ⟨d.take e.length, (d.drop e.length).take (v.length + 1), (d.drop e.length).drop (v.length + 1), ?_, ?_, ?_⟩
    · rw [List.take_append_drop, List.take_append_drop]
    · rw [List.length_take]
      omega
    · rw [List.length_take, List.length_drop]
      omega
  have htail : blit (pre ++ d₁ ++ d₂ ++ d₃) (u.length + e.length) (stored v) = some (pre ++ d₁ ++ stored v ++ d₃) :=
    blit_append (by rw [List.length_append, hpre, h₁]) (by rw [length_stored, h₂])
  have herror : blit (pre ++ d₁ ++ (stored v ++ d₃)) u.length (e.map some) =
      some (pre ++ e.map some ++ (stored v ++ d₃)) :=
    blit_append hpre.symm (by rw [List.length_map, h₁])
  have hrest : (d₁ ++ d₂ ++ d₃).drop (e.length + v.length + 1) = d₃ :=
    List.drop_left' (by rw [List.length_append, h₁, h₂]; omega)
  rw [← List.append_assoc d₁, hrest]
  calc ((blit (pre ++ (d₁ ++ d₂ ++ d₃)) (u.length + e.length) (stored v)).bind fun t => blit t u.length (e.map some))
      = blit (pre ++ d₁ ++ stored v ++ d₃) u.length (e.map some) := by
        rw [← List.append_assoc, ← List.append_assoc, htail, Option.bind_some]
    _ = some (pre ++ e.map some ++ (stored v ++ d₃)) := by rw [List.append_assoc, herror]
    _ = some (pre ++ (stored (e ++ v) ++ d₃)) := by rw [stored_append, List.append_assoc, List.append_assoc]

/-- **The writes of a round**: what is in front of the `%r` is left as it is in `t`, and behind it the error text and
the rest of `f` are stored. -/
theorem expandTo_spec (hu : '\x00' ∉ u) (hv : '\x00' ∉ v) (m : Object) (hpre : pre.length = u.length)
    (hd : e.length + v.length + 1 ≤ d.length) :
    expandTo e u.length (stored (u ++ '%' :: 'r' :: v) ++ m) (pre ++ d) =
      some (pre ++ (stored (e ++ v) ++ d.drop (e.length + v.length + 1))) := by
  have hnul : '\x00' ∉ u ++ '%' :: 'r' :: v := by
    simp only [List.mem_append, List.mem_cons, not_or]
    exact ⟨hu, by decide, by decide, hv⟩
  have hcells : cells (stored (u ++ '%' :: 'r' :: v) ++ m) (u.length + 2) (v.length + 1) = some (stored v) := by
    have hin : u.length + 2 + (v.length + 1) ≤ (stored (u ++ '%' :: 'r' :: v) ++ m).length := by
      rw [List.length_append, length_stored, length_text]
      omega
    rw [cells, if_pos hin, drop_text, List.take_left' (length_stored v)]
  rw [expandTo, readStr_stored hnul, drop_text, readStr_stored hv]
  simp only [Option.bind_eq_bind, Option.bind_some, length_text]
  rw [show u.length + v.length + 2 - u.length - 2 + 1 = v.length + 1 by omega, hcells, Option.bind_some,
    show u.length + v.length + 2 - 2 + e.length - v.length = u.length + e.length by omega]
  exact blit_twice hpre hd

end Strings

/-! ## Rounds -/

/-- the text is on the stack -/
structure OnStack (s : Str) (st : St) : Prop where
  onStack : st.onStack = true
  length : st.buf.length = BUFSIZE
  buf : ∃ m, st.buf = stored s ++ m
  nul : '\x00' ∉ s

/-- the text is on the heap -/
structure OnHeap (s : Str) (st : St) : Prop where
  onStack : st.onStack = false
  block : ∃ m, st.block = some (stored s ++ m)
  nul : '\x00' ∉ s

section Rounds

variable {e s u v : Str} {st : St} {moved : Bool}

theorem OnStack.read (h : OnStack s st) : st.f.bind readStr = some s := by
  obtain ⟨m, hm⟩ := h.buf
  rw [St.f, if_pos h.onStack, Option.bind_some, hm, readStr_stored h.nul]

theorem OnHeap.f (h : OnHeap s st) : st.f = st.block := if_neg (by rw [h.onStack]; exact Bool.false_ne_true)

theorem OnHeap.read (h : OnHeap s st) : st.f.bind readStr = some s := by
  obtain ⟨m, hm⟩ := h.block
  rw [h.f, hm, Option.bind_some, readStr_stored h.nul]

theorem OnStack.lt (h : OnStack s st) : s.length < BUFSIZE := by
  obtain ⟨m, hm⟩ := h.buf
  have hlen := h.length
  rw [hm, List.length_append, length_stored] at hlen
  omega

theorem length_replaced (u v e : Str) : (u ++ (e ++ v)).length = u.length + v.length + e.length := by
  simp only [List.length_append]
  omega

theorem nul_parts (h : '\x00' ∉ u ++ '%' :: 'r' :: v) : '\x00' ∉ u ∧ '\x00' ∉ v := by
  simp only [List.mem_append, List.mem_cons, not_or] at h
  exact ⟨h.1, h.2.2.2⟩

theorem nul_replaced (he : '\x00' ∉ e) (h : '\x00' ∉ u ++ '%' :: 'r' :: v) : '\x00' ∉ u ++ (e ++ v) := by
  obtain ⟨hu, hv⟩ := nul_parts h
  simp only [List.mem_append, not_or]
  exact ⟨hu, he, hv⟩

/-- the size that a round asks for -/
theorem size_eq (u v e : Str) : (u ++ '%' :: 'r' :: v).length - 2 + e.length + 1 = (u ++ (e ++ v)).length + 1 := by
  rw [length_text, length_replaced]
  omega

/-- the writes of a round into an object that has the text already, or in which it is -/
theorem expandTo_text (hs : '\x00' ∉ u ++ '%' :: 'r' :: v) (m m' : Object)
    (hlen : (u ++ (e ++ v)).length + 1 ≤ (stored (u ++ '%' :: 'r' :: v) ++ m').length) :
    ∃ m'', expandTo e u.length (stored (u ++ '%' :: 'r' :: v) ++ m) (stored (u ++ '%' :: 'r' :: v) ++ m') =
      some (stored (u ++ (e ++ v)) ++ m'') ∧
        (stored (u ++ (e ++ v)) ++ m'').length = (stored (u ++ '%' :: 'r' :: v) ++ m').length := by
  obtain ⟨hu, hv⟩ := nul_parts hs
  have hsplit : stored (u ++ '%' :: 'r' :: v) ++ m' = u.map some ++ (stored ('%' :: 'r' :: v) ++ m') := by
    rw [stored_append, List.append_assoc]
  have hd : e.length + v.length + 1 ≤ (stored ('%' :: 'r' :: v) ++ m').length := by
    have hmap : (stored (u ++ '%' :: 'r' :: v) ++ m').length = u.length + (stored ('%' :: 'r' :: v) ++ m').length := by
      rw [hsplit]
      simp only [List.length_append, List.length_map]
    rw [length_replaced] at hlen
    omega
  have hspec := expandTo_spec hu hv m (show (u.map some).length = u.length from List.length_map some) hd
  rw [← hsplit, ← List.append_assoc, ← stored_append] at hspec
  refine ⟨_, hspec, ?_⟩
  simp only [List.length_append, length_stored, List.length_drop, List.length_cons] at hd ⊢
  omega

/-- a round whose text goes to the stack -/
theorem round_fits {m : Object} (h : st.f = some m) (hfit : (u ++ (e ++ v)).length < BUFSIZE) (moved : Bool) (p : ℕ) :
    round e moved st (u ++ '%' :: 'r' :: v) p =
      (expandTo e p m st.buf).map fun t => { st with buf := t, onStack := true } := by
  rw [round, h, size_eq, Option.map_eq_bind]
  simp only [Option.bind_eq_bind, Option.bind_some]
  exact if_neg (by omega)

/-- a round that calls `realloc` -/
theorem round_realloc (h : OnHeap s st) {a : Object} (hblock : st.block = some a) {l : ℕ}
    (hl : s.length - 2 + e.length + 1 = l) (hbig : BUFSIZE < l) (moved : Bool) (p : ℕ) :
    round e moved st s p =
      if moved then none
      else (expandTo e p (resize a l) (resize a l)).map fun t => { st with block := some t } := by
  rw [round, h.f, hblock, hl, h.onStack, Option.map_eq_bind]
  simp only [Option.bind_eq_bind, Option.bind_some, Bool.false_or]
  exact if_pos hbig

/-- **A round on the stack** that stays there. -/
theorem round_stack (he : '\x00' ∉ e) (h : OnStack (u ++ '%' :: 'r' :: v) st)
    (hfit : (u ++ (e ++ v)).length < BUFSIZE) (moved : Bool) :
    ∃ st', round e moved st (u ++ '%' :: 'r' :: v) u.length = some st' ∧ OnStack (u ++ (e ++ v)) st' ∧
      st'.block = st.block := by
  obtain ⟨m, hm⟩ := h.buf
  have hlen := h.length
  rw [hm] at hlen
  obtain ⟨m', hto, hlen'⟩ := expandTo_text h.nul m m (show (u ++ (e ++ v)).length + 1 ≤ _ by omega)
  refine ⟨{ st with buf := stored (u ++ (e ++ v)) ++ m', onStack := true }, ?_,
    ⟨rfl, hlen'.trans hlen, ⟨m', rfl⟩, nul_replaced he h.nul⟩, rfl⟩
  rw [round_fits (if_pos h.onStack) hfit, hm, hto, Option.map_some]

/-- **A round from the stack to the heap.** -/
theorem round_malloc (he : '\x00' ∉ e) (h : OnStack (u ++ '%' :: 'r' :: v) st) (hblock : st.block = none)
    (hbig : BUFSIZE ≤ (u ++ (e ++ v)).length) (moved : Bool) :
    ∃ st', round e moved st (u ++ '%' :: 'r' :: v) u.length = some st' ∧ OnHeap (u ++ (e ++ v)) st' := by
  obtain ⟨m, hm⟩ := h.buf
  have hlt := h.lt
  have hcopy := strlcpyTo_eq (u ++ '%' :: 'r' :: v) (m := fresh ((u ++ (e ++ v)).length + 1))
    (by rw [length_fresh]; omega) (l := (u ++ (e ++ v)).length + 1) (by omega)
  have hsize : (u ++ (e ++ v)).length + 1 ≤ (stored (u ++ '%' :: 'r' :: v) ++
      (fresh ((u ++ (e ++ v)).length + 1)).drop ((u ++ '%' :: 'r' :: v).length + 1)).length := by
    generalize u ++ '%' :: 'r' :: v = s at *
    generalize u ++ (e ++ v) = t at *
    rw [List.length_append, length_stored, List.length_drop, length_fresh]
    omega
  obtain ⟨m', hto, -⟩ := expandTo_text h.nul m _ hsize
  refine ⟨{ st with block := some (stored (u ++ (e ++ v)) ++ m'), onStack := false }, ?_,
    ⟨rfl, ⟨m', rfl⟩, nul_replaced he h.nul⟩⟩
  rw [round, size_eq, St.f, if_pos h.onStack, hm, readStr_stored h.nul, hblock]
  simp only [Option.bind_eq_bind, Option.bind_some]
  rw [if_pos (by omega), hcopy, Option.bind_some, hto]
  rfl

/-- what `realloc` leaves of a text, if it is no smaller than that -/
theorem resize_stored (s : Str) (m : Object) {l : ℕ} (hl : s.length + 1 ≤ l) :
    ∃ m', resize (stored s ++ m) l = stored s ++ m' ∧ l ≤ (stored s ++ m').length := by
  have htake : (stored s ++ m).take l = stored s ++ m.take (l - (s.length + 1)) := by
    rw [List.take_append, length_stored, List.take_of_length_le (by rw [length_stored]; exact hl)]
  refine ⟨m.take (l - (s.length + 1)) ++ fresh (l - (stored s ++ m).length), ?_, ?_⟩
  · rw [resize, htake, List.append_assoc]
  · simp only [List.length_append, length_stored, List.length_take, length_fresh]
    omega

/-- **A round on the heap** in which the block is not moved. -/
theorem round_heap (he : '\x00' ∉ e) (he₂ : 2 ≤ e.length) (h : OnHeap (u ++ '%' :: 'r' :: v) st)
    (hbig : BUFSIZE ≤ (u ++ (e ++ v)).length) :
    ∃ st', round e false st (u ++ '%' :: 'r' :: v) u.length = some st' ∧ OnHeap (u ++ (e ++ v)) st' := by
  obtain ⟨m, hm⟩ := h.block
  have hgrow : (u ++ '%' :: 'r' :: v).length + 1 ≤ (u ++ (e ++ v)).length + 1 := by
    rw [length_text, length_replaced]
    omega
  obtain ⟨m', hresize, hsize⟩ := resize_stored _ m hgrow
  obtain ⟨m'', hto, -⟩ := expandTo_text h.nul m' m' hsize
  refine ⟨{ st with block := some (stored (u ++ (e ++ v)) ++ m'') }, ?_,
    ⟨h.onStack, ⟨m'', rfl⟩, nul_replaced he h.nul⟩⟩
  rw [round_realloc h hm (size_eq u v e) (Nat.lt_succ_of_le hbig), if_neg Bool.false_ne_true, hresize, hto,
    Option.map_some]

/-- if the block is moved, the program goes on in the old one -/
theorem round_moved (h : OnHeap s st) (hbig : BUFSIZE < s.length - 2 + e.length + 1) (p : ℕ) :
    round e true st s p = none := by
  obtain ⟨m, hm⟩ := h.block
  exact (round_realloc h hm rfl hbig true p).trans (if_pos rfl)

/-- a block that is made smaller than the text in it has no NUL -/
theorem round_shrink (h : OnHeap s st) (hblock : st.block = some (stored s)) (hs : 2 ≤ s.length) (he : e.length < 2)
    (hbig : BUFSIZE < s.length - 2 + e.length + 1) (p : ℕ) : round e moved st s p = none := by
  cases moved with
  | true => exact round_moved h hbig p
  | false =>
    have hcut : resize (stored s) (s.length - 2 + e.length + 1) = (s.take (s.length - 2 + e.length + 1)).map some := by
      rw [resize, length_stored, show s.length - 2 + e.length + 1 - (s.length + 1) = 0 by omega, stored,
        List.take_append_of_le_length (by rw [List.length_map]; omega), List.map_take]
      exact List.append_nil _
    have hread : readStr (resize (stored s) (s.length - 2 + e.length + 1)) = none := by
      rw [hcut]
      exact readStr_map fun h' => h.nul (List.mem_of_mem_take h')
    rw [round_realloc h hblock rfl hbig, if_neg Bool.false_ne_true, expandTo, hread]
    rfl

/-- **A round from the heap to the stack**: only what is behind the `%r` is copied to `buf`. -/
theorem round_back (h : OnHeap (u ++ '%' :: 'r' :: v) st) (hbuf : st.buf = fresh BUFSIZE)
    (hfit : (u ++ (e ++ v)).length < BUFSIZE) (moved : Bool) :
    ∃ st' m, round e moved st (u ++ '%' :: 'r' :: v) u.length = some st' ∧ st'.onStack = true ∧
      st'.buf = fresh u.length ++ (stored (e ++ v) ++ m) ∧ st'.buf.length = BUFSIZE := by
  obtain ⟨m, hm⟩ := h.block
  obtain ⟨hu, hv⟩ := nul_parts h.nul
  have hnew := length_replaced u v e
  have hsplit : fresh BUFSIZE = fresh u.length ++ fresh (BUFSIZE - u.length) := by
    rw [fresh, fresh, fresh, List.replicate_append_replicate, Nat.add_sub_cancel' (by omega)]
  have hto := expandTo_spec (e := e) (d := fresh (BUFSIZE - u.length)) hu hv m (length_fresh u.length)
    (by rw [length_fresh]; omega)
  rw [← hsplit] at hto
  refine ⟨{ st with buf := _, onStack := true }, (fresh (BUFSIZE - u.length)).drop (e.length + v.length + 1), ?_,
    rfl, rfl, ?_⟩
  · rw [round_fits (h.f.trans hm) hfit, hbuf, hto, Option.map_some]
  · simp only [List.length_append, length_stored, List.length_drop, length_fresh]
    omega

end Rounds

/-! ## The loop -/

/-- the text at `f` when the loop is left -/
def left (e : Str) (moves : ℕ → Bool) (fuel i : ℕ) (st : St) : Option Str :=
  (expandLoop e moves fuel i st).bind fun st => st.f.bind readStr

section Loop

variable {e s t u v : Str} {st : St} {moves : ℕ → Bool} {fuel i p : ℕ}

theorem left_none (hread : st.f.bind readStr = none) : left e moves fuel i st = none := by
  cases fuel with
  | zero => rfl
  | succ fuel =>
    rw [left, expandLoop, Option.bind_eq_bind, Option.bind_eq_bind, ← Option.bind_assoc st.f readStr, hread]
    rfl

theorem left_end (hread : st.f.bind readStr = some s) (hfind : find '%' 'r' s = none) :
    left e moves (fuel + 1) i st = some s := by
  have hloop : expandLoop e moves (fuel + 1) i st = some st := by
    rw [expandLoop, Option.bind_eq_bind, Option.bind_eq_bind, ← Option.bind_assoc st.f readStr, hread,
      Option.bind_some, hfind]
  rw [left, hloop, Option.bind_some, hread]

theorem left_round (hread : st.f.bind readStr = some s) (hfind : find '%' 'r' s = some p) :
    left e moves (fuel + 1) i st = (round e (moves i) st s p).bind (left e moves fuel (i + 1)) := by
  rw [left, expandLoop, Option.bind_eq_bind, Option.bind_eq_bind, ← Option.bind_assoc st.f readStr, hread,
    Option.bind_some, hfind, Option.bind_eq_bind, Option.bind_assoc]
  rfl

/-- how many rounds there are -/
def rounds (e s : Str) : ℕ := s.count '%' - (normal '%' 'r' e s).count '%'

theorem rounds_of_find (h : find '%' 'r' s = none) : rounds e s = 0 := by
  rw [rounds, normal_of_find h, Nat.sub_self]

theorem rounds_replace (he : '%' ∉ e) (u v : Str) :
    rounds e (u ++ '%' :: 'r' :: v) = rounds e (u ++ (e ++ v)) + 1 := by
  have hab : '%' ≠ 'r' := by decide
  have hle := count_normal_le hab he (u ++ (e ++ v))
  rw [rounds, rounds, normal_replace hab he, count_replace hab he]
  omega

/-- **The loop on the stack**: with an error text of less than two characters the text never leaves it. -/
theorem left_stack (he : '%' ∉ e) (hnul : '\x00' ∉ e) (hlen : e.length < 2) (h : OnStack s st)
    (hfuel : s.count '%' < fuel) : left e moves fuel i st = some (normal '%' 'r' e s) := by
  induction fuel generalizing s st i with
  | zero => exact absurd hfuel (Nat.not_lt_zero _)
  | succ fuel ih =>
    cases hfind : find '%' 'r' s with
    | none => rw [left_end h.read hfind, normal_of_find hfind]
    | some p =>
      obtain ⟨u, v, rfl, rfl⟩ := find_eq_some hfind
      have hab : '%' ≠ 'r' := by decide
      have hfit : (u ++ (e ++ v)).length < BUFSIZE := by
        have hlt := h.lt
        rw [length_text] at hlt
        rw [length_replaced]
        omega
      obtain ⟨st', hround, h', -⟩ := round_stack hnul h hfit (moves i)
      rw [count_replace hab he] at hfuel
      calc left e moves (fuel + 1) i st
          = (round e (moves i) st (u ++ '%' :: 'r' :: v) u.length).bind (left e moves fuel (i + 1)) :=
            left_round h.read hfind
        _ = left e moves fuel (i + 1) st' := by rw [hround, Option.bind_some]
        _ = some (normal '%' 'r' e (u ++ (e ++ v))) := ih h' (by omega)
        _ = some (normal '%' 'r' e (u ++ '%' :: 'r' :: v)) := by rw [normal_replace hab he]

/-- **The loop from the heap** with an error text of less than two characters: the text must go to the stack in the
first round, and there must be nothing in front of the `%r` then. -/
theorem left_heap (he : '%' ∉ e) (hnul : '\x00' ∉ e) (hlen : e.length < 2) (h : OnHeap s st)
    (hblock : st.block = some (stored s)) (hbuf : st.buf = fresh BUFSIZE) (hfuel : s.count '%' < fuel) :
    left e moves fuel i st = some t ↔ normal '%' 'r' e s = t ∧
      (rounds e s = 0 ∨ ['%', 'r'] <+: s ∧ s.length + e.length < BUFSIZE + 2) := by
  obtain ⟨fuel, rfl⟩ : ∃ n, fuel = n + 1 := ⟨fuel - 1, by omega⟩
  cases hfind : find '%' 'r' s with
  | none =>
    rw [left_end h.read hfind, normal_of_find hfind, Option.some_inj, and_iff_left (Or.inl (rounds_of_find hfind))]
  | some p =>
    rw [left_round h.read hfind, ← find_eq_zero, hfind, Option.some_inj]
    obtain ⟨u, v, rfl, rfl⟩ := find_eq_some hfind
    have hab : '%' ≠ 'r' := by decide
    have hrounds : rounds e (u ++ '%' :: 'r' :: v) ≠ 0 := by
      rw [rounds_replace he]
      exact Nat.succ_ne_zero _
    rw [or_iff_right hrounds]
    have htext := length_text u v
    have hnew := length_replaced u v e
    by_cases hfit : (u ++ (e ++ v)).length < BUFSIZE
    · obtain ⟨st', m, hround, hstack, hbuf', hsize⟩ := round_back h hbuf hfit (moves i)
      rw [hround, Option.bind_some]
      cases u with
      | nil =>
        have h' : OnStack ([] ++ (e ++ v)) st' := ⟨hstack, hsize, ⟨m, hbuf'⟩, nul_replaced hnul h.nul⟩
        rw [count_replace hab he] at hfuel
        rw [left_stack he hnul hlen h' (by omega), normal_replace hab he, Option.some_inj]
        exact (and_iff_left ⟨rfl, by omega⟩).symm
      | cons c u =>
        have hread : st'.f.bind readStr = none := by
          rw [St.f, if_pos hstack, hbuf']
          rfl
        rw [left_none hread]
        exact iff_of_false (Option.some_ne_none t).symm fun h => absurd h.2.1 (Nat.succ_ne_zero _)
    · rw [round_shrink h hblock (by omega) hlen (by omega)]
      exact iff_of_false (Option.some_ne_none t).symm fun h => by omega

/-- where the text is with an error text of at least two characters: on the heap once it is too long for the stack -/
def Placed (s : Str) (st : St) : Prop := OnStack s st ∧ st.block = none ∨ OnHeap s st ∧ BUFSIZE ≤ s.length

theorem Placed.read (h : Placed s st) : st.f.bind readStr = some s := h.elim (fun h => h.1.read) fun h => h.1.read

/-- **A round** with an error text of at least two characters. -/
theorem round_placed (hnul : '\x00' ∉ e) (hlen : 2 ≤ e.length) (h : Placed (u ++ '%' :: 'r' :: v) st) {moved : Bool}
    (hmoved : BUFSIZE ≤ (u ++ '%' :: 'r' :: v).length → moved = false) :
    ∃ st', round e moved st (u ++ '%' :: 'r' :: v) u.length = some st' ∧ Placed (u ++ (e ++ v)) st' := by
  have htext := length_text u v
  have hnew := length_replaced u v e
  rcases h with ⟨h, hblock⟩ | ⟨h, hbig⟩
  · by_cases hfit : (u ++ (e ++ v)).length < BUFSIZE
    · obtain ⟨st', hround, h', hblock'⟩ := round_stack hnul h hfit moved
      exact ⟨st', hround, Or.inl ⟨h', hblock'.trans hblock⟩⟩
    · obtain ⟨st', hround, h'⟩ := round_malloc hnul h hblock (Nat.le_of_not_lt hfit) moved
      exact ⟨st', hround, Or.inr ⟨h', Nat.le_of_not_lt hfit⟩⟩
  · have hbig' : BUFSIZE ≤ (u ++ (e ++ v)).length := by omega
    rw [hmoved hbig]
    obtain ⟨st', hround, h'⟩ := round_heap hnul hlen h hbig'
    exact ⟨st', hround, Or.inr ⟨h', hbig'⟩⟩

/-- a round with a block that is moved -/
theorem round_lost (hlen : 2 ≤ e.length) (h : Placed (u ++ '%' :: 'r' :: v) st)
    (hbig : BUFSIZE ≤ (u ++ '%' :: 'r' :: v).length) :
    round e true st (u ++ '%' :: 'r' :: v) u.length = none := by
  rcases h with ⟨h, -⟩ | ⟨h, -⟩
  · exact absurd hbig (Nat.not_le_of_lt h.lt)
  · exact round_moved h (by omega) _

/-- **The loop** with an error text of at least two characters: no block must be moved. -/
theorem left_placed (he : '%' ∉ e) (hnul : '\x00' ∉ e) (hlen : 2 ≤ e.length) (h : Placed s st)
    (hfuel : s.count '%' < fuel) :
    left e moves fuel i st = some t ↔ normal '%' 'r' e s = t ∧
      ∀ j < rounds e s, BUFSIZE ≤ s.length + j * (e.length - 2) → moves (i + j) = false := by
  induction fuel generalizing s st i with
  | zero => exact absurd hfuel (Nat.not_lt_zero _)
  | succ fuel ih =>
    cases hfind : find '%' 'r' s with
    | none =>
      rw [left_end h.read hfind, normal_of_find hfind, Option.some_inj, rounds_of_find hfind]
      exact (and_iff_left fun j hj => absurd hj (Nat.not_lt_zero j)).symm
    | some p =>
      rw [left_round h.read hfind]
      obtain ⟨u, v, rfl, rfl⟩ := find_eq_some hfind
      have hab : '%' ≠ 'r' := by decide
      rw [rounds_replace he, Nat.forall_lt_succ_left']
      simp only [Nat.zero_mul, Nat.add_zero]
      by_cases hmoved : BUFSIZE ≤ (u ++ '%' :: 'r' :: v).length → moves i = false
      · obtain ⟨st', hround, h'⟩ := round_placed hnul hlen h hmoved
        have hnext : ∀ j, (u ++ '%' :: 'r' :: v).length + (j + 1) * (e.length - 2) =
            (u ++ (e ++ v)).length + j * (e.length - 2) := by
          intro j
          rw [length_text, length_replaced, Nat.succ_mul]
          omega
        rw [count_replace hab he] at hfuel
        rw [hround, Option.bind_some, ih h' (by omega), normal_replace hab he, and_iff_right hmoved]
        simp only [hnext, Nat.add_assoc, Nat.add_comm 1]
      · obtain ⟨hbig, hmoves⟩ := Classical.not_imp.1 hmoved
        rw [Bool.eq_true_of_not_eq_false hmoves, round_lost hlen h hbig]
        exact iff_of_false (Option.some_ne_none t).symm fun h => nomatch h.2.1 hbig

end Loop

/-! ## The function -/

section Function

variable {e fmt t : Str} {moves : ℕ → Bool}

theorem start_stack (hnul : '\x00' ∉ fmt) (h : fmt.length < BUFSIZE) :
    ∃ st, start fmt = some st ∧ OnStack fmt st ∧ st.block = none := by
  have hcopy := strlcpyTo_eq (m := fresh BUFSIZE) fmt (by rw [length_fresh]; exact h) le_rfl
  refine ⟨⟨stored fmt ++ (fresh BUFSIZE).drop (fmt.length + 1), none, true⟩, ?_, ⟨rfl, ?_, ⟨_, rfl⟩, hnul⟩, rfl⟩
  · rw [start, if_neg (by omega), hcopy]
    rfl
  · simp only [List.length_append, length_stored, List.length_drop, length_fresh]
    omega

theorem start_heap (h : BUFSIZE ≤ fmt.length) : start fmt = some ⟨fresh BUFSIZE, some (stored fmt), false⟩ := by
  have hcopy := strlcpyTo_eq (m := fresh (fmt.length + 1)) fmt (by rw [length_fresh]) le_rfl
  rw [List.drop_of_length_le (by rw [length_fresh]), List.append_nil] at hcopy
  rw [start, if_pos (by omega), hcopy]
  rfl

theorem fmterror_eq (e : Str) (moves : ℕ → Bool) (fmt : Str) :
    fmterror e moves fmt = (start fmt).bind (left e moves (fmt.count '%' + 1) 0) := rfl

/-- **An error text of less than two characters.** -/
theorem fmterror_short (he : '%' ∉ e) (hnul : '\x00' ∉ e) (hfmt : '\x00' ∉ fmt) (hlen : e.length < 2) :
    fmterror e moves fmt = some t ↔ normal '%' 'r' e fmt = t ∧
      (rounds e fmt = 0 ∨ fmt.length < BUFSIZE ∨ ['%', 'r'] <+: fmt ∧ fmt.length + e.length < BUFSIZE + 2) := by
  rw [fmterror_eq]
  by_cases hfit : fmt.length < BUFSIZE
  · obtain ⟨st, hstart, h, -⟩ := start_stack hfmt hfit
    rw [hstart, Option.bind_some, left_stack he hnul hlen h (Nat.lt_succ_self _), Option.some_inj]
    exact (and_iff_left (Or.inr (Or.inl hfit))).symm
  · have h : OnHeap fmt ⟨fresh BUFSIZE, some (stored fmt), false⟩ := ⟨rfl, ⟨[], by rw [List.append_nil]⟩, hfmt⟩
    rw [start_heap (Nat.le_of_not_lt hfit), Option.bind_some, left_heap he hnul hlen h rfl rfl (Nat.lt_succ_self _),
      or_iff_right hfit]

/-- **An error text of at least two characters.** -/
theorem fmterror_long (he : '%' ∉ e) (hnul : '\x00' ∉ e) (hfmt : '\x00' ∉ fmt) (hlen : 2 ≤ e.length) :
    fmterror e moves fmt = some t ↔ normal '%' 'r' e fmt = t ∧
      ∀ i < rounds e fmt, BUFSIZE ≤ fmt.length + i * (e.length - 2) → moves i = false := by
  have hstart : ∃ st, start fmt = some st ∧ Placed fmt st := by
    by_cases hfit : fmt.length < BUFSIZE
    · obtain ⟨st, hst, h, hblock⟩ := start_stack hfmt hfit
      exact ⟨st, hst, Or.inl ⟨h, hblock⟩⟩
    · exact ⟨_, start_heap (Nat.le_of_not_lt hfit),
        Or.inr ⟨⟨rfl, ⟨[], by rw [List.append_nil]⟩, hfmt⟩, Nat.le_of_not_lt hfit⟩⟩
  obtain ⟨st, hst, h⟩ := hstart
  rw [fmterror_eq, hst, Option.bind_some, left_placed he hnul hlen h (Nat.lt_succ_self _)]
  simp only [Nat.zero_add]

theorem rounds_eq_directives (he : '%' ∉ e) (h : Clean e fmt) : rounds e fmt = directives fmt := by
  have hcount := count_expand he fmt
  rw [rounds, (normal_eq_expand_iff he fmt).2 h]
  omega

end Function

/-- **The format that is passed on**: it has the error text in the place of every `%r` if and only if there is no `%%r`,
and the text stays where the program looks for it. -/
theorem expansion_right_iff (inp : Input) : ExpansionRight inp ↔ Clean inp.error inp.fmt ∧ Stays inp := by
  obtain ⟨fmt, e, moves, hfmt, hnul, he⟩ := inp
  by_cases hlen : e.length < 2
  · rw [ExpansionRight, fmterror_short he hnul hfmt hlen, normal_eq_expand_iff he]
    refine and_congr_right fun hclean => ?_
    rw [Stays, if_pos hlen, rounds_eq_directives he hclean]
  · rw [ExpansionRight, fmterror_long he hnul hfmt (Nat.le_of_not_lt hlen), normal_eq_expand_iff he]
    refine and_congr_right fun hclean => ?_
    rw [Stays, if_neg hlen, rounds_eq_directives he hclean]
    refine (or_iff_right_of_imp fun h => ?_).symm
    rw [h]
    exact fun i hi => absurd hi (Nat.not_lt_zero i)

/-- The `%r` of a `%%r` is replaced as well: with the error text `x`, `%x` is passed on. -/
theorem escaped : ¬ExpansionRight ⟨['%', '%', 'r'], ['x'], fun _ => false, by decide, by decide, by decide⟩ := by
  have hpassed : fmterror ['x'] (fun _ => false) ['%', '%', 'r'] = some ['%', 'x'] := by decide +kernel
  intro hright
  exact absurd (hpassed.symm.trans hright) (by decide)

end MNetSoft.Libgrex
