/-
`vcgifprintf` of `cgi-output.c`: `printf` with two directives more, `%S` and `%C`, which write a string or a character
with markup as entities. Every directive is copied into the scratch buffer `lfmt` of 55 cells, a `*` as the number it
stands for, and what is there goes to `fprintf`. The index into the buffer is only looked at in the loops.

The format is given as the cells of memory from its first character on. What makes the behaviour undefined is a fault: a
read behind the memory of the format, an argument that is not there or of another type, a write behind `lfmt`. The
arguments are a list; `D` is the type of doubles. `fprintf` is a parameter.

- `vcgifprintf_no_overflow`: no format and no arguments make it write behind `lfmt`; its last cell can be reached.
- `vcgifprintf_render`: on a format of directives within the limits, it does what each directive says.
- `cgiprintf_clean`: whatever the arguments are, a format without markup makes a page without markup.
-/
import Mathlib.Tactic
import MNetSoft.Core.Numerals
import MNetSoft.Ownu.Expand

namespace MNetSoft.Ownu.Printf

/-! ## Model -/

inductive Fault where
  | past
  | args
  | overflow
  | undefined
  | fuel
  deriving DecidableEq

/-- what the variable arguments are -/
inductive Arg (D : Type) where
  | int (n : BitVec 32)
  | long (n : BitVec 64)
  | str (s : Bytes)
  | double (x : D)

/-- where a piece of output goes: `default` prints to `stdout`, whatever `fp` is -/
inductive Stream where
  | fp
  | stdout
  deriving DecidableEq

abbrev Chunk := Stream × Bytes

def LFSZ : ℕ := 40

def room : ℕ := LFSZ + 15

/-- `char lfmt[LFSZ+15]` up to the index `i` -/
structure Lfmt where
  cells : Bytes
  fits : cells.length ≤ room

def Lfmt.i (l : Lfmt) : ℕ := l.cells.length

/-- `lfmt[i++] = c` -/
def put (l : Lfmt) (c : UInt8) : Except Fault Lfmt :=
  if h : l.i < room then .ok ⟨l.cells ++ [c], by rw [List.length_append]; exact h⟩ else .error .overflow

def printInt (n : ℤ) : Bytes := (Numerals.printInt n).map Char.toUInt8

/-- `sprintf(lfmt+i, "%d%n", n, &k); i += k`, with the NUL behind the number -/
def putInt (l : Lfmt) (n : ℤ) : Except Fault Lfmt :=
  if h : l.i + (printInt n).length < room then
    .ok ⟨l.cells ++ printInt n, by rw [List.length_append]; exact h.le⟩
  else .error .overflow

/-- `lfmt[i] = '\0'`: the string in the buffer -/
def close (l : Lfmt) : Except Fault Bytes :=
  if l.i < room then .ok (l.cells.takeWhile (· ≠ 0)) else .error .overflow

/-- `index("#0-+ ", c) != NULL`: the NUL of the string is found too -/
def isFlag (c : UInt8) : Bool := c ∈ bytes "#0-+ " ++ [0]

/-- scan past flags: the format, `lfmt`, `left` and `cntl` -/
def scanFlags : Bytes → Lfmt → Bool → Bool → Except Fault (Bytes × Lfmt × Bool × Bool)
  | [], _, _, _ => .error .past
  | c :: m, l, left, cntl =>
    if isFlag c ∧ l.i < 8 then do
      let l ← put l c
      scanFlags m l (left || c = '-'.toUInt8) (cntl || c = '#'.toUInt8)
    else .ok (c :: m, l, left, cntl)

def digitsValue (ds : Bytes) : ℕ := ds.foldl (fun n c => n * 10 + (c.toNat - 48)) 0

/-- `atoi` of a text that starts with a digit -/
def atoi (m : Bytes) : Except Fault ℤ :=
  if m.all isdigit then .error .past
  else .ok (Numerals.toInt (Numerals.toLong false (digitsValue (m.takeWhile isdigit))))

/-- `do lfmt[i++] = *(fmt++); while (isdigit(*fmt) && i < LFSZ)` -/
def scanDigits : Bytes → Lfmt → Except Fault (Bytes × Lfmt)
  | [], _ => .error .past
  | c :: m, l => do
    let l ← put l c
    match m with
    | [] => .error .past
    | d :: m' => if isdigit d ∧ l.i < LFSZ then scanDigits (d :: m') l else .ok (d :: m', l)

section Model

variable {D : Type}

/-- scan the width, or the precision: the format, `lfmt`, the arguments and the number -/
def scanNumber (m : Bytes) (l : Lfmt) (args : List (Arg D)) : Except Fault (Bytes × Lfmt × List (Arg D) × ℤ) :=
  match m with
  | [] => .error .past
  | c :: m' =>
    if isdigit c then do
      let n ← atoi (c :: m')
      let (m, l) ← scanDigits (c :: m') l
      return (m, l, args, n)
    else if c = '*'.toUInt8 then
      match args with
      | .int n :: args => do
        let n := if n.toInt > 10000 then 10000 else n.toInt
        let l ← putInt l n
        return (m', l, args, n)
      | _ => .error .args
    else return (m, l, args, -1)

/-- check for a separator -/
def scanDot (m : Bytes) (l : Lfmt) : Except Fault (Bytes × Lfmt) :=
  match m with
  | [] => .error .past
  | c :: m' =>
    if c = '.'.toUInt8 then do
      let l ← put l c
      return (m', l)
    else return (m, l)

/-- scan the data-width modifier: `dwflag` is the character that stands there, whatever it is -/
def scanSize (m : Bytes) (l : Lfmt) : Except Fault (Bytes × Lfmt × UInt8) :=
  match m with
  | [] => .error .past
  | c :: m' =>
    if c = 'h'.toUInt8 ∨ c = 'l'.toUInt8 then do
      let l ← put l c
      return (m', l, c)
    else return (m, l, c)

/-- the `switch`: what is printed, and the arguments that are left -/
def convert (fprintf : Bytes → Arg D → Bytes) (c dwflag : UInt8) (left cntl : Bool) (width precision : ℤ) (lfmt : Bytes)
    (args : List (Arg D)) : Except Fault (Chunk × List (Arg D)) :=
  let expanded (s : Bytes) (args : List (Arg D)) : Except Fault (Chunk × List (Arg D)) :=
    match print_expand s left cntl width precision with
    | some f => .ok ((.fp, f.bytes), args)
    | none => .error .undefined
  if c = 'S'.toUInt8 then
    match args with
    | .str s :: args => expanded s args
    | _ => .error .args
  else if c = 'C'.toUInt8 then
    match args with
    | .int n :: args => expanded ([UInt8.ofNat n.toNat].takeWhile (· ≠ 0)) args
    | _ => .error .args
  else if c ∈ bytes "ps" then
    match args with
    | .str s :: args => .ok ((.fp, fprintf lfmt (.str s)), args)
    | _ => .error .args
  else if c ∈ bytes "feg" then
    match args with
    | .double x :: args => .ok ((.fp, fprintf lfmt (.double x)), args)
    | _ => .error .args
  else if c = 'c'.toUInt8 then
    match args with
    | .int n :: args => .ok ((.fp, fprintf lfmt (.int n)), args)
    | _ => .error .args
  else if c ∈ bytes "diouXx" then
    if dwflag = 'l'.toUInt8 then
      match args with
      | .long n :: args => .ok ((.fp, fprintf lfmt (.long n)), args)
      | _ => .error .args
    -- `va_arg(ap, short)`: a short is passed as an int
    else if dwflag = 'h'.toUInt8 then .error .undefined
    else
      match args with
      | .int n :: args => .ok ((.fp, fprintf lfmt (.int n)), args)
      | _ => .error .args
  else .ok ((.stdout, lfmt), args)

variable (fprintf : Bytes → Arg D → Bytes)

/-- a directive, from behind its `%` on: what it prints, the format behind it and the arguments that are left -/
def directive (m : Bytes) (args : List (Arg D)) : Except Fault (Chunk × Bytes × List (Arg D)) := do
  let (m, l, left, cntl) ← scanFlags m ⟨['%'.toUInt8], by decide⟩ false false
  let (m, l, args, width) ← scanNumber m l args
  let (m, l) ← scanDot m l
  let (m, l, args, precision) ← scanNumber m l args
  let (m, l, dwflag) ← scanSize m l
  match m with
  | [] => .error .past
  | c :: m => do
    let l ← put l c
    let lfmt ← close l
    let (chunk, args) ← convert fprintf c dwflag left cntl width precision lfmt args
    return (chunk, m, args)

/-- the loop of `vcgifprintf` -/
def vcgifprintf : ℕ → Bytes → List (Arg D) → Except Fault (List Chunk)
  | 0, _, _ => .error .fuel
  | _ + 1, [], _ => .error .past
  | fuel + 1, c :: m, args =>
    if c = 0 then .ok []
    else if c = '%'.toUInt8 then
      match m with
      | [] => .error .past
      | d :: m' =>
        if d = '%'.toUInt8 then do
          let out ← vcgifprintf fuel m' args
          return (.fp, [d]) :: out
        else do
          let (chunk, m, args) ← directive fprintf m args
          let out ← vcgifprintf fuel m args
          return chunk :: out
    else do
      let out ← vcgifprintf fuel m args
      return (.fp, [c]) :: out

end Model

/-! ## The scratch buffer -/

/-- the program returns with `Q`, and if it does not return, that is neither for want of room nor of fuel -/
def Fine {α : Type} (x : Except Fault α) (Q : α → Prop) : Prop :=
  match x with
  | .ok a => Q a
  | .error e => e ≠ .overflow ∧ e ≠ .fuel

section Buffer

variable {α β D : Type} {x : Except Fault α} {Q : β → Prop}

theorem Fine.bind {P : α → Prop} {f : α → Except Fault β} (hx : Fine x P) (hf : ∀ a, P a → Fine (f a) Q) :
    Fine (x >>= f) Q := by
  cases x with
  | error e => exact hx
  | ok a => exact hf a hx

theorem Fine.mono {P : α → Prop} {P' : α → Prop} (hx : Fine x P) (h : ∀ a, P a → P' a) : Fine x P' := by
  cases x with
  | error e => exact hx
  | ok a => exact h a hx

theorem fine_past : Fine (.error .past : Except Fault β) Q := ⟨by decide, by decide⟩

theorem fine_args : Fine (.error .args : Except Fault β) Q := ⟨by decide, by decide⟩

theorem fine_undefined : Fine (.error .undefined : Except Fault β) Q := ⟨by decide, by decide⟩

variable {l : Lfmt}

theorem fine_put (c : UInt8) (h : l.i < 55) : Fine (put l c) fun l' => l'.i = l.i + 1 := by
  have hroom : l.i < room := h
  rw [put, dif_pos hroom]
  exact List.length_append

/-- a number that fits an int has at most eleven characters -/
theorem length_printInt_le {n : ℤ} (h : n.natAbs ≤ 2 ^ 31) : (printInt n).length ≤ 11 := by
  have hdigits : (Nat.toDigits 10 n.natAbs).length ≤ 10 :=
    Nat.toDigits_length 10 n.natAbs 10 (by decide) (h.trans_lt (by decide))
  rw [printInt, List.length_map, Numerals.printInt, List.length_append]
  split_ifs
  · rw [List.length_singleton]
    omega
  · rw [List.length_nil]
    omega

/-- a number for a `*`, after it is cut -/
theorem natAbs_star (n : BitVec 32) : (if n.toInt > 10000 then 10000 else n.toInt).natAbs ≤ 2 ^ 31 := by
  have hlo := BitVec.le_toInt n
  split_ifs <;> omega

theorem fine_putInt {n : ℤ} (hn : n.natAbs ≤ 2 ^ 31) (h : l.i + 11 < 55) :
    Fine (putInt l n) fun l' => l'.i ≤ l.i + 11 := by
  have hlen := length_printInt_le hn
  have hroom : room = 55 := rfl
  rw [putInt, dif_pos (by omega)]
  have happend : (l.cells ++ printInt n).length ≤ l.cells.length + 11 := by
    rw [List.length_append]
    omega
  exact happend

theorem fine_scanFlags (m : Bytes) (left cntl : Bool) (h : l.i ≤ 8) :
    Fine (scanFlags m l left cntl) fun r => r.1.length ≤ m.length ∧ r.2.1.i ≤ 8 := by
  induction m generalizing l left cntl with
  | nil => exact fine_past
  | cons c m ih =>
    rw [scanFlags]
    split_ifs with hflag
    · refine (fine_put c (by omega)).bind fun l' hl' => ?_
      exact (ih _ _ (by omega)).mono fun r hr => ⟨hr.1.trans (Nat.le_succ _), hr.2⟩
    · exact ⟨le_rfl, h⟩

/-- the loop over digits stops at `LFSZ`, but stores one before it looks -/
theorem fine_scanDigits (m : Bytes) (h : l.i < 54) :
    Fine (scanDigits m l) fun r => r.1.length ≤ m.length ∧ r.2.i ≤ max 40 (l.i + 1) := by
  induction m generalizing l with
  | nil => exact fine_past
  | cons c m ih =>
    rw [scanDigits]
    refine (fine_put c (by omega)).bind fun l' hl' => ?_
    cases m with
    | nil => exact fine_past
    | cons d m =>
      dsimp only
      have hLFSZ : LFSZ = 40 := rfl
      split_ifs with hmore
      · exact (ih (by omega)).mono fun r hr => ⟨hr.1.trans (Nat.le_succ _), hr.2.trans (by omega)⟩
      · exact ⟨Nat.le_succ _, hl'.le.trans (le_max_right _ _)⟩

/-- a number makes the index at most 40, or adds at most eleven to it -/
theorem fine_scanNumber (m : Bytes) (args : List (Arg D)) (h : l.i + 11 < 55) :
    Fine (scanNumber m l args) fun r => r.1.length ≤ m.length ∧ r.2.1.i ≤ max 40 (l.i + 11) := by
  cases m with
  | nil => exact fine_past
  | cons c m =>
    unfold scanNumber
    dsimp only
    split_ifs with hdigit hstar
    · have hatoi : Fine (atoi (c :: m)) fun _ => True := by
        rw [atoi]
        split_ifs
        · exact fine_past
        · trivial
      refine hatoi.bind fun n _ => (fine_scanDigits (c :: m) (by omega)).bind fun r hr => ?_
      exact ⟨hr.1, hr.2.trans (by omega)⟩
    · split
      case h_1 n args =>
        refine (fine_putInt (natAbs_star n) h).bind fun l' hl' => ?_
        exact ⟨Nat.le_succ _, hl'.trans (by omega)⟩
      case h_2 => exact fine_args
    · exact ⟨le_rfl, (Nat.le_add_right _ _).trans (le_max_right _ _)⟩

theorem fine_scanDot (m : Bytes) (h : l.i < 55) :
    Fine (scanDot m l) fun r => r.1.length ≤ m.length ∧ r.2.i ≤ l.i + 1 := by
  cases m with
  | nil => exact fine_past
  | cons c m =>
    rw [scanDot]
    split_ifs
    · exact (fine_put c h).bind fun l' hl' => ⟨Nat.le_succ _, hl'.le⟩
    · exact ⟨le_rfl, Nat.le_succ _⟩

theorem fine_scanSize (m : Bytes) (h : l.i < 55) :
    Fine (scanSize m l) fun r => r.1.length ≤ m.length ∧ r.2.1.i ≤ l.i + 1 := by
  cases m with
  | nil => exact fine_past
  | cons c m =>
    rw [scanSize]
    split_ifs
    · exact (fine_put c h).bind fun l' hl' => ⟨Nat.le_succ _, hl'.le⟩
    · exact ⟨le_rfl, Nat.le_succ _⟩

variable (fprintf : Bytes → Arg D → Bytes)

theorem fine_convert (c dwflag : UInt8) (left cntl : Bool) (width precision : ℤ) (lfmt : Bytes) (args : List (Arg D)) :
    Fine (convert fprintf c dwflag left cntl width precision lfmt args) fun _ => True := by
  have hexpanded : ∀ s (args : List (Arg D)), Fine (match print_expand s left cntl width precision with
      | some f => .ok (((.fp, f.bytes) : Chunk), args)
      | none => .error .undefined) fun _ => True := by
    intro s args
    cases print_expand s left cntl width precision with
    | none => exact fine_undefined
    | some f => trivial
  unfold convert
  split_ifs
  all_goals try split
  all_goals first | exact hexpanded _ _ | exact fine_args | exact fine_undefined | trivial

/-- **One directive.** From the flags to the NUL: 8, 40, 41, 52, 53, 54 cells, and the last for the NUL. -/
theorem fine_directive (m : Bytes) (args : List (Arg D)) :
    Fine (directive fprintf m args) fun r => r.2.1.length < m.length := by
  refine (fine_scanFlags m false false (by decide)).bind ?_
  rintro ⟨m₁, l₁, left, cntl⟩ ⟨hm₁, hl₁⟩
  dsimp only at hm₁ hl₁
  refine (fine_scanNumber m₁ args (by omega)).bind ?_
  rintro ⟨m₂, l₂, args₂, width⟩ ⟨hm₂, hl₂⟩
  dsimp only at hm₂ hl₂
  refine (fine_scanDot m₂ (by omega)).bind ?_
  rintro ⟨m₃, l₃⟩ ⟨hm₃, hl₃⟩
  dsimp only at hm₃ hl₃
  refine (fine_scanNumber m₃ args₂ (by omega)).bind ?_
  rintro ⟨m₄, l₄, args₄, precision⟩ ⟨hm₄, hl₄⟩
  dsimp only at hm₄ hl₄
  refine (fine_scanSize m₄ (by omega)).bind ?_
  rintro ⟨m₅, l₅, dwflag⟩ ⟨hm₅, hl₅⟩
  dsimp only at hm₅ hl₅
  cases m₅ with
  | nil => exact fine_past
  | cons c m₆ =>
    refine (fine_put c (by omega)).bind fun l₆ hl₆ => ?_
    have hclose : Fine (close l₆) fun _ => True := by
      have hroom : room = 55 := rfl
      rw [close, if_pos (by omega)]
      trivial
    refine hclose.bind fun lfmt _ => (fine_convert fprintf c dwflag left cntl width precision lfmt args₄).bind ?_
    rintro ⟨chunk, args'⟩ -
    have hlen : m₆.length + 1 ≤ m₄.length := hm₅
    exact (by omega : m₆.length < m.length)

end Buffer

/-- **No overflow.** Whatever the memory of the format holds and whatever the arguments are, `lfmt` has room for what is
written to it, and the loop comes to an end. -/
theorem vcgifprintf_no_overflow {D : Type} (fprintf : Bytes → Arg D → Bytes) (m : Bytes) (args : List (Arg D)) :
    vcgifprintf fprintf (m.length + 1) m args ≠ .error .overflow ∧
      vcgifprintf fprintf (m.length + 1) m args ≠ .error .fuel := by
  have hfine : ∀ fuel m (args : List (Arg D)), m.length < fuel →
      Fine (vcgifprintf fprintf fuel m args) fun _ => True := by
    intro fuel
    induction fuel with
    | zero => exact fun m _ h => absurd h (Nat.not_lt_zero _)
    | succ fuel ih =>
      intro m args h
      have hmore : ∀ (chunk : Chunk) m' (args' : List (Arg D)), m'.length < fuel →
          Fine (do let out ← vcgifprintf fprintf fuel m' args'; return chunk :: out) fun _ => True :=
        fun chunk m' args' h' => (ih m' args' h').bind fun _ _ => trivial
      cases m with
      | nil => exact fine_past
      | cons c m =>
        rw [List.length_cons] at h
        unfold vcgifprintf
        dsimp only
        split_ifs
        · trivial
        · cases m with
          | nil => exact fine_past
          | cons d m =>
            rw [List.length_cons] at h
            dsimp only
            split_ifs
            · exact hmore _ _ _ (by omega)
            · refine (fine_directive fprintf (d :: m) args).bind ?_
              rintro ⟨chunk, m', args'⟩ hlt
              have hlt' : m'.length < m.length + 1 := hlt
              exact hmore chunk m' args' (by omega)
        · exact hmore _ _ _ (by omega)
  have h := hfine (m.length + 1) m args (Nat.lt_succ_self _)
  unfold Fine at h
  cases hrun : vcgifprintf fprintf (m.length + 1) m args with
  | ok out => exact ⟨nofun, nofun⟩
  | error e =>
    rw [hrun] at h
    exact ⟨fun heq => h.1 (Except.error.inj heq), fun heq => h.2 (Except.error.inj heq)⟩

/-- seven flags, 32 digits, a dot, the least int, a modifier and a conversion: with the NUL, all cells are used -/
example : (directive (fun lfmt _ => lfmt) (bytes "-------11111111111111111111111111111111.*ld" ++ [0])
    [.int (BitVec.intMin 32), (.long 0 : Arg ℕ)]).map (fun r => r.1.2.length) = .ok 54 := by decide +kernel

/-! ## Directives -/

/-- a width or a precision as it is written -/
inductive Num where
  | none
  | star
  | digits (ds : Bytes)

def Num.text : Num → Bytes
  | .none => []
  | .star => ['*'.toUInt8]
  | .digits ds => ds

/-- the most cells it takes in `lfmt` -/
def Num.size : Num → ℕ
  | .none => 0
  | .star => 11
  | .digits ds => ds.length

/-- written out, behind `k` cells: not empty, and not beyond the cells the loops look at -/
def Num.Fits (k : ℕ) : Num → Prop
  | .digits ds => ds ≠ [] ∧ (∀ c ∈ ds, isdigit c = true) ∧ k + ds.length ≤ LFSZ
  | _ => True

/-- a directive of `printf` within the limits of the buffer -/
structure Dir where
  flags : Bytes
  width : Num
  dot : Bool
  precision : Num
  size : Option UInt8
  conv : UInt8
  flags_mem : ∀ c ∈ flags, c ∈ bytes "#0-+ "
  flags_le : flags.length ≤ 7
  width_fits : width.Fits (1 + flags.length)
  /-- a zero in front is a flag -/
  width_head : width.text.head? ≠ some '0'.toUInt8
  precision_fits : precision.Fits (1 + flags.length + width.size + 1)
  precision_dot : dot = false → precision = .none
  size_mem : ∀ c ∈ size, c ∈ bytes "hl"
  conv_alpha : isalpha conv = true
  conv_size : conv ∉ bytes "hl"

def Dir.dotText (d : Dir) : Bytes := if d.dot then bytes "." else []

/-- the directive behind its `%` -/
def Dir.text (d : Dir) : Bytes :=
  d.flags ++ (d.width.text ++ (d.dotText ++ (d.precision.text ++ (d.size.toList ++ [d.conv]))))

section Meaning

variable {D : Type}

/-- what a number comes to: its text in `lfmt`, its value, and the arguments that are left -/
def Num.read (args : List (Arg D)) : Num → Except Fault (Bytes × ℤ × List (Arg D))
  | .none => .ok ([], -1, args)
  | .digits ds => .ok (ds, Numerals.toInt (Numerals.toLong false (digitsValue ds)), args)
  | .star =>
    match args with
    | .int n :: args =>
      let n := if n.toInt > 10000 then 10000 else n.toInt
      .ok (printInt n, n, args)
    | _ => .error .args

variable (fprintf : Bytes → Arg D → Bytes)

/-- what a directive says: the numbers for its stars, its flags, and the directive with its stars as numbers -/
def Dir.meaning (d : Dir) (args : List (Arg D)) : Except Fault (Chunk × List (Arg D)) := do
  let (widthText, width, args) ← d.width.read args
  let (precisionText, precision, args) ← d.precision.read args
  let lfmt := '%'.toUInt8 :: d.flags ++ widthText ++ d.dotText ++ precisionText ++ d.size.toList ++ [d.conv]
  convert fprintf d.conv (d.size.getD d.conv) ('-'.toUInt8 ∈ d.flags) ('#'.toUInt8 ∈ d.flags) width precision lfmt args

/-- a format is made of characters, signs of per cent and directives -/
inductive Piece where
  | lit (c : UInt8) (h : c ≠ 0 ∧ c ≠ '%'.toUInt8)
  | percent
  | dir (d : Dir)

def Piece.text : Piece → Bytes
  | .lit c _ => [c]
  | .percent => bytes "%%"
  | .dir d => '%'.toUInt8 :: d.text

def Piece.meaning (args : List (Arg D)) : Piece → Except Fault (Chunk × List (Arg D))
  | .lit c _ => .ok ((.fp, [c]), args)
  | .percent => .ok ((.fp, bytes "%"), args)
  | .dir d => d.meaning fprintf args

def render (ps : List Piece) : Bytes := ps.flatMap Piece.text

/-- the pieces one after another -/
def meaning : List Piece → List (Arg D) → Except Fault (List Chunk)
  | [], _ => .ok []
  | p :: ps, args => do
    let (chunk, args) ← p.meaning fprintf args
    let out ← meaning ps args
    return chunk :: out

end Meaning

section Scan

variable {D : Type} {l : Lfmt}

theorem put_ok (c : UInt8) (h : l.i < 55) : ∃ l', put l c = .ok l' ∧ l'.cells = l.cells ++ [c] := by
  have hroom : l.i < room := h
  exact ⟨_, dif_pos hroom, rfl⟩

theorem scanFlags_append {fs : Bytes} {c : UInt8} (hfs : ∀ f ∈ fs, f ∈ bytes "#0-+ ") (hc : isFlag c = false)
    (hlen : l.i + fs.length ≤ 8) (m : Bytes) (left cntl : Bool) :
    ∃ l', scanFlags (fs ++ c :: m) l left cntl =
        .ok (c :: m, l', left || decide ('-'.toUInt8 ∈ fs), cntl || decide ('#'.toUInt8 ∈ fs)) ∧
      l'.cells = l.cells ++ fs := by
  induction fs generalizing l left cntl with
  | nil =>
    refine ⟨l, ?_, (List.append_nil _).symm⟩
    rw [List.nil_append, scanFlags, if_neg (by simp [hc])]
    simp
  | cons f fs ih =>
    obtain ⟨hf, hfs⟩ := List.forall_mem_cons.1 hfs
    rw [List.length_cons] at hlen
    obtain ⟨l₁, hput, hl₁⟩ := @put_ok l f (by omega)
    have hi : l₁.i = l.i + 1 := (congrArg List.length hl₁).trans List.length_append
    have hflag : isFlag f = true := decide_eq_true (List.mem_append_left _ hf)
    obtain ⟨l', hscan, hl'⟩ := ih hfs (l := l₁) (by omega) (left || f = '-'.toUInt8) (cntl || f = '#'.toUInt8)
    refine ⟨l', ?_, by rw [hl', hl₁, List.append_assoc, List.singleton_append]⟩
    rw [List.cons_append, scanFlags, if_pos ⟨hflag, by omega⟩, hput]
    refine hscan.trans ?_
    simp only [List.mem_cons, Bool.decide_or, Bool.or_assoc, eq_comm (a := f)]

theorem scanDigits_append {ds : Bytes} {c : UInt8} (hne : ds ≠ []) (hds : ∀ d ∈ ds, isdigit d = true)
    (hc : isdigit c = false) (hlen : l.i + ds.length ≤ LFSZ) (m : Bytes) :
    ∃ l', scanDigits (ds ++ c :: m) l = .ok (c :: m, l') ∧ l'.cells = l.cells ++ ds := by
  have hLFSZ : LFSZ = 40 := rfl
  induction ds generalizing l with
  | nil => exact absurd rfl hne
  | cons d ds ih =>
    obtain ⟨hd, hds⟩ := List.forall_mem_cons.1 hds
    rw [List.length_cons] at hlen
    obtain ⟨l₁, hput, hl₁⟩ := @put_ok l d (by omega)
    have hi : l₁.i = l.i + 1 := (congrArg List.length hl₁).trans List.length_append
    rw [List.cons_append, scanDigits, hput]
    cases ds with
    | nil =>
      refine ⟨l₁, ?_, hl₁⟩
      have hstop : ¬(isdigit c = true ∧ l₁.i < LFSZ) := by simp [hc]
      exact if_neg hstop
    | cons d' ds =>
      rw [List.length_cons] at hlen
      obtain ⟨l', hscan, hl'⟩ := ih (l := l₁) (List.cons_ne_nil d' ds) hds (by rw [List.length_cons]; omega)
      refine ⟨l', ?_, by rw [hl', hl₁, List.append_assoc, List.singleton_append]⟩
      have hgo : isdigit d' = true ∧ l₁.i < LFSZ := ⟨hds d' List.mem_cons_self, by omega⟩
      exact (if_pos hgo).trans hscan

theorem atoi_append {ds : Bytes} {c : UInt8} (hds : ∀ d ∈ ds, isdigit d = true) (hc : isdigit c = false) (m : Bytes) :
    atoi (ds ++ c :: m) = .ok (Numerals.toInt (Numerals.toLong false (digitsValue ds))) := by
  have hall : ¬(ds ++ c :: m).all isdigit = true := by
    rw [List.all_eq_true]
    intro h
    rw [h c (List.mem_append_right _ List.mem_cons_self)] at hc
    cases hc
  have htake : (ds ++ c :: m).takeWhile isdigit = ds := by
    rw [List.takeWhile_append_of_pos hds, List.takeWhile_cons_of_neg (by simp [hc]), List.append_nil]
  rw [atoi, if_neg hall, htake]

/-- a number is printed with digits and a sign -/
theorem mem_printInt {n : ℤ} {c : UInt8} (h : c ∈ printInt n) : 45 ≤ c.toNat ∧ c.toNat ≤ 57 := by
  obtain ⟨d, hd, rfl⟩ := List.mem_map.1 h
  have hprint : d = '-' ∨ d ∈ Nat.toDigits 10 n.natAbs := by
    rw [Numerals.printInt, List.mem_append] at hd
    refine hd.imp_left fun hd => ?_
    split_ifs at hd
    · exact List.mem_singleton.1 hd
    · cases hd
  have hcode : 45 ≤ d.toNat ∧ d.toNat ≤ 57 := by
    rcases hprint with rfl | hdigit
    · decide
    · have hisDigit := Nat.isDigit_of_mem_toDigits (by decide) (by decide) hdigit
      rw [Char.isDigit, Bool.and_eq_true, decide_eq_true_eq, decide_eq_true_eq] at hisDigit
      exact ⟨(by decide : 45 ≤ 48).trans hisDigit.1, hisDigit.2⟩
  have hval : d.val.toNat = d.toNat := rfl
  rw [Char.toUInt8, UInt32.toNat_toUInt8, hval]
  omega

/-- no text of a number has a NUL in it, and it is not longer than is reckoned -/
theorem read_text {k : Num} {j : ℕ} (hk : k.Fits j) {args args' : List (Arg D)} {text : Bytes} {n : ℤ}
    (h : k.read args = .ok (text, n, args')) : text.length ≤ k.size ∧ 0 ∉ text := by
  cases k with
  | none =>
    cases h
    exact ⟨le_rfl, List.not_mem_nil⟩
  | digits ds =>
    simp only [Num.read, Except.ok.injEq, Prod.mk.injEq] at h
    obtain ⟨rfl, -, -⟩ := h
    refine ⟨le_rfl, fun hmem => ?_⟩
    exact absurd (hk.2.1 0 hmem) (by decide)
  | star =>
    match args with
    | .int v :: args =>
      simp only [Num.read, Except.ok.injEq, Prod.mk.injEq] at h
      obtain ⟨rfl, -, -⟩ := h
      exact ⟨length_printInt_le (natAbs_star v), fun hmem => absurd (mem_printInt hmem).1 (by decide)⟩
    | [] => cases h
    | .long v :: args => cases h
    | .str s :: args => cases h
    | .double x :: args => cases h

theorem scanNumber_append {k : Num} {c : UInt8} (hk : k.Fits l.i) (hroom : l.i + 11 < 55) (hdigit : isdigit c = false)
    (hstar : c ≠ '*'.toUInt8) (m : Bytes) (args : List (Arg D)) :
    match k.read args with
    | .error e => scanNumber (k.text ++ c :: m) l args = .error e
    | .ok (text, n, args') => ∃ l', scanNumber (k.text ++ c :: m) l args = .ok (c :: m, l', args', n) ∧
        l'.cells = l.cells ++ text := by
  cases k with
  | none =>
    refine ⟨l, ?_, (List.append_nil _).symm⟩
    unfold scanNumber
    dsimp only [Num.text, List.nil_append]
    rw [if_neg (by simp [hdigit]), if_neg hstar]
    rfl
  | digits ds =>
    obtain ⟨hne, hds, hlen⟩ := hk
    obtain ⟨l', hscan, hl'⟩ := scanDigits_append hne hds hdigit hlen m
    have hatoi := atoi_append hds hdigit m
    refine ⟨l', ?_, hl'⟩
    obtain ⟨d, ds, rfl⟩ := List.exists_cons_of_ne_nil hne
    unfold scanNumber
    dsimp only [Num.text]
    rw [List.cons_append] at hscan hatoi ⊢
    dsimp only
    rw [if_pos (hds d List.mem_cons_self), hatoi, hscan]
    rfl
  | star =>
    have hstar' : isdigit '*'.toUInt8 = false := by decide
    unfold scanNumber Num.read
    dsimp only [Num.text, List.cons_append, List.nil_append]
    rw [if_neg (by simp [hstar']), if_pos rfl]
    match args with
    | .int v :: args =>
      dsimp only
      have hlen := length_printInt_le (natAbs_star v)
      have hfit : l.i + (printInt (if v.toInt > 10000 then 10000 else v.toInt)).length < room := by
        have hroom' : room = 55 := rfl
        omega
      refine ⟨⟨l.cells ++ printInt (if v.toInt > 10000 then 10000 else v.toInt), ?_⟩, ?_, rfl⟩
      · rw [List.length_append]
        exact hfit.le
      · rw [putInt, dif_pos hfit]
        rfl
    | [] => rfl
    | .long v :: args => rfl
    | .str s :: args => rfl
    | .double x :: args => rfl

/-- a character that ends the flags, and a number -/
def Stops (c : UInt8) : Prop := isFlag c = false ∧ isdigit c = false ∧ c ≠ '*'.toUInt8

instance (c : UInt8) : Decidable (Stops c) := by
  unfold Stops
  infer_instance

theorem isdigit_of_alpha {c : UInt8} (h : isalpha c = true) : isdigit c = false := by
  simp only [isalpha, isupper, islower, isdigit, Bool.or_eq_true, Bool.and_eq_true, decide_eq_true_eq,
    UInt8.le_iff_toNat_le] at h ⊢
  have hdigits : ('0'.toUInt8.toNat = 48 ∧ '9'.toUInt8.toNat = 57) ∧ 'A'.toUInt8.toNat = 65 ∧
      'a'.toUInt8.toNat = 97 := by
    decide
  rw [Bool.and_eq_false_iff, decide_eq_false_iff_not, decide_eq_false_iff_not]
  omega

/-- a letter ends both, and is no dot -/
theorem stops_of_alpha {c : UInt8} (h : isalpha c = true) : Stops c ∧ c ≠ '.'.toUInt8 := by
  have hno : ∀ d ∈ bytes "#0-+ *." ++ [0], isalpha d = false := by decide
  have hmem : c ∉ bytes "#0-+ *." ++ [0] := fun hc => by
    rw [hno c hc] at h
    cases h
  refine ⟨⟨?_, isdigit_of_alpha h, fun hc => ?_⟩, fun hc => ?_⟩
  · have hsub : ∀ d ∈ bytes "#0-+ " ++ [0], d ∈ bytes "#0-+ *." ++ [0] := by decide
    exact decide_eq_false fun hflag => hmem (hsub c hflag)
  · rw [hc] at hmem
    exact hmem (by decide)
  · rw [hc] at hmem
    exact hmem (by decide)

theorem scanDot_append {dot : Bool} {c : UInt8} (hroom : l.i < 55) (hc : dot = false → c ≠ '.'.toUInt8) (m : Bytes) :
    ∃ l', scanDot ((if dot then bytes "." else []) ++ c :: m) l = .ok (c :: m, l') ∧
      l'.cells = l.cells ++ (if dot then bytes "." else []) := by
  cases dot with
  | false =>
    refine ⟨l, ?_, (List.append_nil _).symm⟩
    rw [if_neg Bool.false_ne_true, List.nil_append, scanDot, if_neg (hc rfl)]
    rfl
  | true =>
    obtain ⟨l', hput, hl'⟩ := @put_ok l '.'.toUInt8 hroom
    refine ⟨l', ?_, hl'⟩
    have hdot : (if true = true then bytes "." else []) ++ c :: m = '.'.toUInt8 :: c :: m := rfl
    rw [hdot, scanDot, if_pos rfl, hput]
    rfl

theorem scanSize_append {size : Option UInt8} {c : UInt8} (hroom : l.i < 55) (hsize : ∀ d ∈ size, d ∈ bytes "hl")
    (hc : c ∉ bytes "hl") (m : Bytes) :
    ∃ l', scanSize (size.toList ++ c :: m) l = .ok (c :: m, l', size.getD c) ∧ l'.cells = l.cells ++ size.toList := by
  have hhl : ∀ d, d ∈ bytes "hl" ↔ d = 'h'.toUInt8 ∨ d = 'l'.toUInt8 := by
    intro d
    simp [bytes]
  cases size with
  | none =>
    refine ⟨l, ?_, (List.append_nil _).symm⟩
    rw [hhl] at hc
    exact if_neg hc
  | some d =>
    obtain ⟨l', hput, hl'⟩ := @put_ok l d hroom
    refine ⟨l', ?_, hl'⟩
    have hd : d = 'h'.toUInt8 ∨ d = 'l'.toUInt8 := (hhl d).1 (hsize d rfl)
    have htext : (some d).toList ++ c :: m = d :: c :: m := rfl
    rw [htext, scanSize, if_pos hd, hput]
    rfl

theorem ok_bind {α β : Type} (a : α) (f : α → Except Fault β) : (Except.ok a >>= f) = f a := rfl

/-- what stands behind the precision, the separator, the width begins with a letter, with that or a dot, with no flag -/
theorem Dir.heads (d : Dir) (m : Bytes) :
    (∃ c s, d.size.toList ++ d.conv :: m = c :: s ∧ Stops c ∧ c ≠ '.'.toUInt8) ∧
      (∃ c s, d.dotText ++ (d.precision.text ++ (d.size.toList ++ d.conv :: m)) = c :: s ∧ Stops c) ∧
      ∃ c s, d.width.text ++ (d.dotText ++ (d.precision.text ++ (d.size.toList ++ d.conv :: m))) = c :: s ∧
        isFlag c = false ∧ c ≠ '%'.toUInt8 := by
  have hletters : ∀ c ∈ bytes "hl", isalpha c = true := by decide
  obtain ⟨c, s, hlast, halpha⟩ : ∃ c s, d.size.toList ++ d.conv :: m = c :: s ∧ isalpha c = true := by
    cases hsize : d.size with
    | none => exact ⟨d.conv, m, rfl, d.conv_alpha⟩
    | some c => exact ⟨c, d.conv :: m, rfl, hletters c (d.size_mem c hsize)⟩
  obtain ⟨hstops, hdot⟩ := stops_of_alpha halpha
  have hsecond : ∃ c s, d.dotText ++ (d.precision.text ++ (d.size.toList ++ d.conv :: m)) = c :: s ∧ Stops c ∧
      c ≠ '%'.toUInt8 := by
    cases hd : d.dot with
    | true => exact ⟨'.'.toUInt8, _, by rw [Dir.dotText, if_pos hd]; rfl, by decide, by decide⟩
    | false =>
      refine ⟨c, s, ?_, hstops, ?_⟩
      · rw [Dir.dotText, hd, d.precision_dot hd, if_neg Bool.false_ne_true]
        exact hlast
      · rintro rfl
        exact absurd halpha (by decide)
  refine ⟨⟨c, s, hlast, hstops, hdot⟩, ?_, ?_⟩
  · obtain ⟨c', s', h, hs, -⟩ := hsecond
    exact ⟨c', s', h, hs⟩
  · cases hwidth : d.width with
    | none =>
      obtain ⟨c', s', h, hs, hp⟩ := hsecond
      exact ⟨c', s', h, hs.1, hp⟩
    | star => exact ⟨'*'.toUInt8, _, rfl, by decide, by decide⟩
    | digits ds =>
      have hfits := d.width_fits
      have hhead := d.width_head
      rw [hwidth] at hfits hhead
      obtain ⟨e, ds, rfl⟩ := List.exists_cons_of_ne_nil hfits.1
      have hdigit := hfits.2.1 e List.mem_cons_self
      have hzero : e ≠ '0'.toUInt8 := fun h => hhead (congrArg some h)
      have hno : ∀ f ∈ bytes "#0-+ " ++ [0], f = '0'.toUInt8 ∨ isdigit f = false := by decide
      refine ⟨e, _, rfl, decide_eq_false fun hflag => ?_, ?_⟩
      · rcases hno e hflag with h | h
        · exact hzero h
        · rw [h] at hdigit
          cases hdigit
      · rintro rfl
        exact absurd hdigit (by decide)

theorem fits_mono {k : Num} {i j : ℕ} (h : k.Fits j) (hij : i ≤ j) : k.Fits i := by
  cases k with
  | none => trivial
  | star => trivial
  | digits ds => exact ⟨h.1, h.2.1, (Nat.add_le_add_right hij _).trans h.2.2⟩

theorem size_le {k : Num} {j : ℕ} (h : k.Fits j) : j + k.size ≤ 40 ∨ k.size ≤ 11 := by
  cases k with
  | none => exact Or.inr (Nat.zero_le _)
  | star => exact Or.inr le_rfl
  | digits ds => exact Or.inl h.2.2

theorem close_ok (h : l.i < 55) (hzero : 0 ∉ l.cells) : close l = .ok l.cells := by
  have hroom : l.i < room := h
  have hall : l.cells.takeWhile (· ≠ 0) = l.cells :=
    List.takeWhile_eq_self_iff.2 fun c hc => decide_eq_true fun hc0 => hzero (hc0 ▸ hc)
  rw [close, if_pos hroom, hall]

/-- there is no NUL in the directive that goes to `fprintf` -/
theorem Dir.zero_not_mem (d : Dir) {text text' : Bytes} (h : 0 ∉ text) (h' : 0 ∉ text') :
    0 ∉ '%'.toUInt8 :: d.flags ++ text ++ d.dotText ++ text' ++ d.size.toList ++ [d.conv] := by
  have hflags : 0 ∉ d.flags := fun hmem => absurd (d.flags_mem 0 hmem) (by decide)
  have hdot : 0 ∉ d.dotText := by
    rw [Dir.dotText]
    split_ifs <;> decide
  have hsize : 0 ∉ d.size.toList := fun hmem => absurd (d.size_mem 0 (Option.mem_toList.1 hmem)) (by decide)
  have hconv : 0 ≠ d.conv := fun hzero => absurd d.conv_alpha (by rw [← hzero]; decide)
  have hpercent : (0 : UInt8) ≠ '%'.toUInt8 := by decide
  simp only [List.mem_append, List.mem_cons, List.not_mem_nil, or_false, not_or]
  exact ⟨⟨⟨⟨⟨⟨hpercent, hflags⟩, h⟩, hdot⟩, h'⟩, hsize⟩, hconv⟩

/-- **A directive is read as it is written.** -/
theorem directive_text (fprintf : Bytes → Arg D → Bytes) (d : Dir) (m : Bytes) (args : List (Arg D)) :
    directive fprintf (d.text ++ m) args = (d.meaning fprintf args).map fun r => (r.1, m, r.2) := by
  obtain ⟨⟨c₄, s₄, h₄, hstops₄, hdot₄⟩, ⟨c₂, s₂, h₂, hstops₂⟩, c₁, s₁, h₁, hflag₁, -⟩ := d.heads m
  have htext : d.text ++ m =
      d.flags ++ (d.width.text ++ (d.dotText ++ (d.precision.text ++ (d.size.toList ++ d.conv :: m)))) := by
    simp [Dir.text]
  have hflags := d.flags_le
  obtain ⟨l₁, hscan₁, hl₁⟩ := scanFlags_append (l := ⟨['%'.toUInt8], by decide⟩) d.flags_mem hflag₁
    (show 1 + d.flags.length ≤ 8 by omega) s₁ false false
  have hi₁ : l₁.i = 1 + d.flags.length := (congrArg List.length hl₁).trans (by rw [List.length_append]; rfl)
  rw [htext, h₁, directive, hscan₁, ok_bind, Dir.meaning]
  dsimp only
  -- the width
  have hwidth := scanNumber_append (by rw [hi₁]; exact d.width_fits) (by omega) hstops₂.2.1 hstops₂.2.2 s₂ args
  rw [← h₂, h₁] at hwidth
  cases hread₁ : d.width.read args with
  | error e =>
    rw [hread₁] at hwidth
    dsimp only at hwidth
    rw [hwidth]
    rfl
  | ok r =>
  obtain ⟨text₂, width, args₂⟩ := r
  rw [hread₁] at hwidth
  obtain ⟨l₂, hscan₂, hl₂⟩ := hwidth
  obtain ⟨htext₂, hzero₂⟩ := read_text d.width_fits hread₁
  have hi₂ : l₂.i = l₁.i + text₂.length := (congrArg List.length hl₂).trans List.length_append
  have hroom₂ := size_le d.width_fits
  rw [hscan₂, ok_bind, ok_bind]
  dsimp only
  -- the separator
  obtain ⟨c₃, s₃, h₃⟩ : ∃ c s, d.precision.text ++ (d.size.toList ++ d.conv :: m) = c :: s :=
    List.exists_cons_of_ne_nil (by simp)
  have hdot : d.dot = false → c₃ ≠ '.'.toUInt8 := by
    intro hno
    rw [d.precision_dot hno] at h₃
    rw [← (List.cons.inj (h₄.symm.trans h₃)).1]
    exact hdot₄
  obtain ⟨l₃, hscan₃, hl₃⟩ : ∃ l₃, scanDot (d.dotText ++ c₃ :: s₃) l₂ = .ok (c₃ :: s₃, l₃) ∧
      l₃.cells = l₂.cells ++ d.dotText := scanDot_append (by omega) hdot s₃
  have hdotlen : d.dotText.length ≤ 1 := by
    rw [Dir.dotText]
    split_ifs <;> decide
  have hi₃ : l₃.i = l₂.i + d.dotText.length := (congrArg List.length hl₃).trans List.length_append
  rw [h₃, hscan₃, ok_bind, ← h₃]
  dsimp only
  -- the precision
  have hprecision := scanNumber_append (fits_mono d.precision_fits (by omega)) (by omega)
    hstops₄.2.1 hstops₄.2.2 s₄ args₂ (l := l₃)
  rw [← h₄] at hprecision
  cases hread₂ : d.precision.read args₂ with
  | error e =>
    rw [hread₂] at hprecision
    dsimp only at hprecision
    rw [hprecision]
    rfl
  | ok r =>
  obtain ⟨text₄, precision, args₄⟩ := r
  rw [hread₂] at hprecision
  obtain ⟨l₄, hscan₄, hl₄⟩ := hprecision
  obtain ⟨htext₄, hzero₄⟩ := read_text d.precision_fits hread₂
  have hi₄ : l₄.i = l₃.i + text₄.length := (congrArg List.length hl₄).trans List.length_append
  have hroom₄ := size_le d.precision_fits
  rw [hscan₄, ok_bind, ok_bind]
  dsimp only
  -- the modifier, the conversion and the NUL
  obtain ⟨l₅, hscan₅, hl₅⟩ := scanSize_append (l := l₄) (by omega) d.size_mem d.conv_size m
  have hsizelen : d.size.toList.length ≤ 1 := by
    cases d.size with
    | none => exact Nat.zero_le 1
    | some c => exact le_rfl
  have hi₅ : l₅.i = l₄.i + d.size.toList.length := (congrArg List.length hl₅).trans List.length_append
  obtain ⟨l₆, hput, hl₆⟩ := @put_ok l₅ d.conv (by omega)
  have hi₆ : l₆.i = l₅.i + 1 := (congrArg List.length hl₆).trans List.length_append
  have hcells : l₆.cells = '%'.toUInt8 :: d.flags ++ text₂ ++ d.dotText ++ text₄ ++ d.size.toList ++ [d.conv] := by
    rw [hl₆, hl₅, hl₄, hl₃, hl₂, hl₁]
    rfl
  have hzero : 0 ∉ l₆.cells := by
    rw [hcells]
    exact d.zero_not_mem hzero₂ hzero₄
  have hclose : close l₆ = .ok l₆.cells := close_ok (by omega) hzero
  rw [hscan₅, ok_bind]
  dsimp only
  rw [hput, ok_bind, hclose, ok_bind, hcells, Bool.false_or, Bool.false_or]
  cases convert fprintf d.conv (d.size.getD d.conv) ('-'.toUInt8 ∈ d.flags) ('#'.toUInt8 ∈ d.flags) width precision
      ('%'.toUInt8 :: d.flags ++ text₂ ++ d.dotText ++ text₄ ++ d.size.toList ++ [d.conv]) args₄ with
  | error e => rfl
  | ok r => rfl

/-- a directive is no sign of per cent -/
theorem Dir.text_head (d : Dir) (m : Bytes) : ∃ c s, d.text ++ m = c :: s ∧ c ≠ '%'.toUInt8 := by
  obtain ⟨-, -, c, s, h, -, hc⟩ := d.heads m
  have htext : d.text ++ m =
      d.flags ++ (d.width.text ++ (d.dotText ++ (d.precision.text ++ (d.size.toList ++ d.conv :: m)))) := by
    simp [Dir.text]
  rw [htext]
  cases hflags : d.flags with
  | nil => exact ⟨c, s, h, hc⟩
  | cons f fs =>
    have hf : f ∈ bytes "#0-+ " := d.flags_mem f (by rw [hflags]; exact List.mem_cons_self)
    have hno : ∀ f ∈ bytes "#0-+ ", f ≠ '%'.toUInt8 := by decide
    exact ⟨f, _, rfl, hno f hf⟩

end Scan

section Render

variable {D : Type} (fprintf : Bytes → Arg D → Bytes)

theorem vcgifprintf_nul (fuel : ℕ) (m : Bytes) (args : List (Arg D)) :
    vcgifprintf fprintf (fuel + 1) (0 :: m) args = .ok [] := by
  unfold vcgifprintf
  exact if_pos rfl

/-- **One piece.** -/
theorem vcgifprintf_piece (fuel : ℕ) (p : Piece) (m : Bytes) (args : List (Arg D)) :
    vcgifprintf fprintf (fuel + 1) (p.text ++ m) args = (do
      let (chunk, args) ← p.meaning fprintf args
      let out ← vcgifprintf fprintf fuel m args
      return chunk :: out) := by
  have hpercent : ('%'.toUInt8 : UInt8) ≠ 0 := by decide
  cases p with
  | lit c h =>
    have hcell : Piece.text (.lit c h) ++ m = c :: m := rfl
    rw [hcell]
    exact (if_neg h.1).trans (if_neg h.2)
  | percent =>
    have hcell : Piece.text .percent ++ m = '%'.toUInt8 :: '%'.toUInt8 :: m := rfl
    rw [hcell]
    exact (if_neg hpercent).trans (if_pos rfl)
  | dir d =>
    obtain ⟨c, s, htext, hc⟩ := d.text_head m
    have hcell : Piece.text (.dir d) ++ m = '%'.toUInt8 :: c :: s := congrArg ('%'.toUInt8 :: ·) htext
    rw [hcell]
    refine ((if_neg hpercent).trans (if_pos rfl)).trans ((if_neg hc).trans ?_)
    rw [← htext, directive_text]
    have hmeaning : Piece.meaning fprintf args (.dir d) = d.meaning fprintf args := rfl
    rw [hmeaning]
    cases d.meaning fprintf args with
    | error e => rfl
    | ok r => rfl

theorem render_cons (p : Piece) (ps : List Piece) : render (p :: ps) = p.text ++ render ps := List.flatMap_cons

theorem vcgifprintf_pieces (ps : List Piece) (behind : Bytes) (args : List (Arg D)) {fuel : ℕ} (h : ps.length < fuel) :
    vcgifprintf fprintf fuel (render ps ++ 0 :: behind) args = meaning fprintf ps args := by
  induction ps generalizing args fuel with
  | nil =>
    obtain ⟨fuel, rfl⟩ := Nat.exists_eq_succ_of_ne_zero (Nat.ne_of_gt h)
    exact vcgifprintf_nul fprintf fuel behind args
  | cons p ps ih =>
    obtain ⟨fuel, rfl⟩ := Nat.exists_eq_succ_of_ne_zero (Nat.ne_of_gt (Nat.zero_lt_of_lt h))
    rw [render_cons, List.append_assoc, vcgifprintf_piece, meaning]
    cases p.meaning fprintf args with
    | error e => rfl
    | ok r =>
      obtain ⟨chunk, args'⟩ := r
      rw [ok_bind, ok_bind]
      dsimp only
      rw [ih args' (Nat.lt_of_succ_lt_succ h)]

theorem length_le_render (ps : List Piece) : ps.length ≤ (render ps).length := by
  induction ps with
  | nil => exact le_rfl
  | cons p ps ih =>
    have hp : 1 ≤ p.text.length := by
      cases p with
      | lit c _ => exact le_rfl
      | percent => decide
      | dir d => exact Nat.succ_le_succ (Nat.zero_le _)
    rw [render_cons, List.length_append, List.length_cons]
    omega

end Render

/-- **Directives within the limits.** On a format that is made of them, `vcgifprintf` takes the pieces one after
another, and does for each what it says; it does not matter what is in memory behind the format. -/
theorem vcgifprintf_render {D : Type} (fprintf : Bytes → Arg D → Bytes) (ps : List Piece) (behind : Bytes)
    (args : List (Arg D)) :
    vcgifprintf fprintf ((render ps ++ 0 :: behind).length + 1) (render ps ++ 0 :: behind) args =
      meaning fprintf ps args := by
  refine vcgifprintf_pieces fprintf ps behind args ?_
  have hlen := length_le_render ps
  rw [List.length_append]
  omega

/-! ## Markup -/

/-- an argument without bytes from 0x80 on -/
def Arg.Ascii {D : Type} : Arg D → Prop
  | .str s => ∀ c ∈ s, c < 0x80
  | .int n => UInt8.ofNat n.toNat < 0x80
  | _ => True

/-- a directive that does not hand its argument on as it is; control characters are only expanded of ASCII -/
def Dir.Guarded {D : Type} (args : List (Arg D)) (d : Dir) : Prop :=
  d.conv ∉ bytes "psc" ∧ (d.conv ∈ bytes "SC" → '#'.toUInt8 ∈ d.flags → ∀ a ∈ args, a.Ascii)

/-- the argument is a number of the type that the directive takes -/
def Takes {D : Type} (c dwflag : UInt8) : Arg D → Prop
  | .double _ => c ∈ bytes "feg"
  | .long _ => c ∈ bytes "diouXx" ∧ dwflag = 'l'.toUInt8
  | .int _ => c ∈ bytes "diouXx" ∧ dwflag ∉ bytes "hl"
  | .str _ => False

/-- what is documented of `fprintf`: by a directive for numbers, with its stars as numbers, a number is printed with
digits, letters, signs, points and blanks -/
def PrintsNumbers {D : Type} (fprintf : Bytes → Arg D → Bytes) : Prop :=
  ∀ (d : Dir) (args args₁ args₂ : List (Arg D)) (widthText precisionText : Bytes) (width precision : ℤ) (a : Arg D),
    d.width.read args = .ok (widthText, width, args₁) →
    d.precision.read args₁ = .ok (precisionText, precision, args₂) → Takes d.conv (d.size.getD d.conv) a →
    ∀ c ∈ fprintf
      ('%'.toUInt8 :: d.flags ++ widthText ++ d.dotText ++ precisionText ++ d.size.toList ++ [d.conv]) a, Plain c

section Markup

variable {D : Type} {fprintf : Bytes → Arg D → Bytes}

theorem harmless_of_ascii {s : Bytes} (h : ∀ c ∈ s, c < 0x80) : Harmless s := by
  induction s with
  | nil => trivial
  | cons c s ih =>
    obtain ⟨hc, hs⟩ := List.forall_mem_cons.1 h
    have hne : ∀ d : UInt8, ¬d < 0x80 → c ≠ d := fun d hd heq => hd (heq ▸ hc)
    exact ⟨hne 0xbc (by decide), hne 0xbe (by decide), fun h => absurd h (hne 0xa6 (by decide)), ih hs⟩

theorem clean_of_plain {s : Bytes} (h : ∀ c ∈ s, Plain c) : Clean s := by
  have hclean := (@clean_plain s [] h).2 trivial
  rwa [List.append_nil] at hclean

theorem print_expand_clean {s : Bytes} {left cntl : Bool} {minlen maxlen : ℤ} {f : Printed}
    (h : print_expand s left cntl minlen maxlen = some f) (hs : cntl = true → ∀ c ∈ s, c < 0x80) : Clean f.bytes := by
  obtain ⟨n, a, b, rfl⟩ : ∃ n a b, f = ⟨a, (s.take n).map (expand cntl), b⟩ := by
    unfold print_expand at h
    dsimp only at h
    exact ⟨_, _, _, (Option.some.inj (Option.ite_none_left_eq_some.1 h).2).symm⟩
  rw [Printed.bytes, List.append_assoc, clean_plain (plain_spaces _), clean_cells_iff]
  exact fun hcntl => harmless_of_ascii fun c hc => hs hcntl c (List.mem_of_mem_take hc)

theorem convert_clean {c dwflag : UInt8} {left cntl : Bool} {width precision : ℤ} {lfmt : Bytes}
    {args args' : List (Arg D)} {chunk : Chunk} (hfprintf : ∀ a, Takes c dwflag a → ∀ d ∈ fprintf lfmt a, Plain d)
    (hc : c ∉ bytes "psc") (hplain : ∀ d ∈ lfmt, Plain d) (hcntl : c ∈ bytes "SC" → cntl = true → ∀ a ∈ args, a.Ascii)
    (h : convert fprintf c dwflag left cntl width precision lfmt args = .ok (chunk, args')) :
    Clean chunk.2 ∧ args' ⊆ args := by
  have hprint : ∀ a, Takes c dwflag a → Clean (fprintf lfmt a) := fun a ha => clean_of_plain (hfprintf a ha)
  have hps : c ∉ bytes "ps" := fun hmem => hc ((by decide : ∀ d ∈ bytes "ps", d ∈ bytes "psc") c hmem)
  have hcc : c ≠ 'c'.toUInt8 := fun heq => hc (by rw [heq]; decide)
  unfold convert at h
  dsimp only at h
  -- `%S` and `%C`
  have hexpanded : ∀ (s : Bytes) (rest : List (Arg D)), (cntl = true → ∀ d ∈ s, d < 0x80) →
      (match print_expand s left cntl width precision with
        | some f => (.ok ((.fp, f.bytes), rest) : Except Fault (Chunk × List (Arg D)))
        | none => .error .undefined) = .ok (chunk, args') → Clean chunk.2 ∧ args' = rest := by
    intro s rest hs h
    cases hexpand : print_expand s left cntl width precision with
    | none =>
      rw [hexpand] at h
      cases h
    | some f =>
      rw [hexpand] at h
      cases h
      exact ⟨print_expand_clean hexpand hs, rfl⟩
  split_ifs at h with hS hC hfeg hd hl hh
  · match args, h, hcntl with
    | .str s :: args, h, hcntl =>
      have hascii : cntl = true → ∀ d ∈ s, d < 0x80 := fun hon =>
        hcntl (by rw [hS]; decide) hon (.str s) List.mem_cons_self
      obtain ⟨hclean, rfl⟩ := hexpanded s args hascii h
      exact ⟨hclean, List.subset_cons_self _ _⟩
  · match args, h, hcntl with
    | .int n :: args, h, hcntl =>
      have hascii : cntl = true → ∀ d ∈ [UInt8.ofNat n.toNat].takeWhile (· ≠ 0), d < 0x80 := fun hon d hd => by
        rw [List.mem_singleton.1 ((List.takeWhile_sublist _).subset hd)]
        exact hcntl (by rw [hC]; decide) hon (.int n) List.mem_cons_self
      obtain ⟨hclean, rfl⟩ := hexpanded _ args hascii h
      exact ⟨hclean, List.subset_cons_self _ _⟩
  · match args, h with
    | .double x :: args, h =>
      cases h
      exact ⟨hprint (.double x) hfeg, List.subset_cons_self _ _⟩
  · match args, h with
    | .long n :: args, h =>
      cases h
      exact ⟨hprint (.long n) ⟨hd, hl⟩, List.subset_cons_self _ _⟩
  · match args, h with
    | .int n :: args, h =>
      cases h
      have hflag : dwflag ∉ bytes "hl" := fun hmem =>
        (List.mem_cons.1 hmem).elim hh fun hmem => hl (List.mem_singleton.1 hmem)
      exact ⟨hprint (.int n) ⟨hd, hflag⟩, List.subset_cons_self _ _⟩
  · cases h
    exact ⟨clean_of_plain hplain, List.Subset.refl _⟩

theorem plain_of_code {c : UInt8} (h : 45 ≤ c.toNat ∧ c.toNat ≤ 57) : Plain c := by
  have hcodes : '<'.toUInt8.toNat = 60 ∧ '>'.toUInt8.toNat = 62 ∧ '&'.toUInt8.toNat = 38 := by decide
  refine ⟨?_, ?_, ?_⟩
  all_goals
    rintro rfl
    omega

theorem read_plain {k : Num} {j : ℕ} (hk : k.Fits j) {args args' : List (Arg D)} {text : Bytes} {n : ℤ}
    (h : k.read args = .ok (text, n, args')) : (∀ c ∈ text, Plain c) ∧ args' ⊆ args := by
  cases k with
  | none =>
    cases h
    exact ⟨List.forall_mem_nil _, List.Subset.refl _⟩
  | digits ds =>
    simp only [Num.read, Except.ok.injEq, Prod.mk.injEq] at h
    obtain ⟨rfl, -, rfl⟩ := h
    refine ⟨fun c hc => plain_of_code ?_, List.Subset.refl _⟩
    have hdigit := hk.2.1 c hc
    simp only [isdigit, Bool.and_eq_true, decide_eq_true_eq, UInt8.le_iff_toNat_le] at hdigit
    have hcodes : '0'.toUInt8.toNat = 48 ∧ '9'.toUInt8.toNat = 57 := by decide
    omega
  | star =>
    match args with
    | .int v :: args =>
      simp only [Num.read, Except.ok.injEq, Prod.mk.injEq] at h
      obtain ⟨rfl, -, rfl⟩ := h
      exact ⟨fun c hc => plain_of_code (mem_printInt hc), List.subset_cons_self _ _⟩
    | [] => cases h
    | .long v :: args => cases h
    | .str s :: args => cases h
    | .double x :: args => cases h

theorem plain_of_alpha {c : UInt8} (h : isalpha c = true) : Plain c := by
  refine ⟨?_, ?_, ?_⟩
  all_goals
    rintro rfl
    exact absurd h (by decide)

theorem Dir.meaning_clean (hfprintf : PrintsNumbers fprintf) {d : Dir} {args args' : List (Arg D)} {chunk : Chunk}
    (hd : d.Guarded args) (h : d.meaning fprintf args = .ok (chunk, args')) : Clean chunk.2 ∧ args' ⊆ args := by
  unfold Dir.meaning at h
  cases hread₁ : d.width.read args with
  | error e =>
    rw [hread₁] at h
    cases h
  | ok r =>
  obtain ⟨text, width, args₁⟩ := r
  rw [hread₁, ok_bind] at h
  dsimp only at h
  cases hread₂ : d.precision.read args₁ with
  | error e =>
    rw [hread₂] at h
    cases h
  | ok r =>
  obtain ⟨text', precision, args₂⟩ := r
  rw [hread₂, ok_bind] at h
  dsimp only at h
  obtain ⟨hplain₁, hsub₁⟩ := read_plain d.width_fits hread₁
  obtain ⟨hplain₂, hsub₂⟩ := read_plain d.precision_fits hread₂
  have hflags : ∀ c ∈ d.flags, Plain c := fun c hc =>
    (by decide : ∀ c ∈ bytes "#0-+ ", Plain c) c (d.flags_mem c hc)
  have hdot : ∀ c ∈ d.dotText, Plain c := by
    rw [Dir.dotText]
    split_ifs <;> decide
  have hsize : ∀ c ∈ d.size.toList, Plain c := fun c hc =>
    (by decide : ∀ c ∈ bytes "hl", Plain c) c (d.size_mem c (Option.mem_toList.1 hc))
  have hlfmt : ∀ c ∈ '%'.toUInt8 :: d.flags ++ text ++ d.dotText ++ text' ++ d.size.toList ++ [d.conv], Plain c := by
    simp only [List.forall_mem_append, List.forall_mem_cons]
    exact ⟨⟨⟨⟨⟨⟨by decide, hflags⟩, hplain₁⟩, hdot⟩, hplain₂⟩, hsize⟩, plain_of_alpha d.conv_alpha,
      List.forall_mem_nil _⟩
  have hcntl : d.conv ∈ bytes "SC" → decide ('#'.toUInt8 ∈ d.flags) = true → ∀ a ∈ args₂, a.Ascii :=
    fun hSC hon a ha => hd.2 hSC (of_decide_eq_true hon) a (hsub₁ (hsub₂ ha))
  have hprint := fun a => hfprintf d args args₁ args₂ text text' width precision a hread₁ hread₂
  obtain ⟨hclean, hsub⟩ := convert_clean hprint hd.1 hlfmt hcntl h
  exact ⟨hclean, List.Subset.trans hsub (List.Subset.trans hsub₂ hsub₁)⟩

/-- a piece that is not a character of the format's own -/
def Piece.Clean (p : Piece) (chunk : Chunk) : Prop :=
  match p with
  | .lit c _ => chunk.2 = [c]
  | _ => Ownu.Clean chunk.2

theorem meaning_clean (hfprintf : PrintsNumbers fprintf) {ps : List Piece} {args : List (Arg D)} {out : List Chunk}
    (hps : ∀ d, .dir d ∈ ps → d.Guarded args) (h : meaning fprintf ps args = .ok out) :
    List.Forall₂ Piece.Clean ps out := by
  induction ps generalizing args out with
  | nil =>
    cases h
    exact List.Forall₂.nil
  | cons p ps ih =>
    rw [meaning] at h
    cases hp : p.meaning fprintf args with
    | error e =>
      rw [hp] at h
      cases h
    | ok r =>
    obtain ⟨chunk, args'⟩ := r
    rw [hp, ok_bind] at h
    dsimp only at h
    have hone : p.Clean chunk ∧ args' ⊆ args := by
      cases p with
      | lit c hc =>
        cases hp
        exact ⟨rfl, List.Subset.refl _⟩
      | percent =>
        cases hp
        exact ⟨clean_of_plain (by decide), List.Subset.refl _⟩
      | dir d => exact d.meaning_clean hfprintf (hps d List.mem_cons_self) hp
    cases hrest : meaning fprintf ps args' with
    | error e =>
      rw [hrest] at h
      cases h
    | ok rest =>
      rw [hrest] at h
      cases h
      refine List.Forall₂.cons hone.1 (ih (fun d hd => ?_) hrest)
      have hd' := hps d (List.mem_cons_of_mem p hd)
      exact ⟨hd'.1, fun hSC hon a ha => hd'.2 hSC hon a (hone.2 ha)⟩

end Markup

/-- **No markup from arguments.** On a format of directives that do not hand strings on as they are, the only markup is
that of the format's own characters, whatever the arguments are: what the directives write has no `<` and no `>`, and
every `&` in it begins an entity. -/
theorem cgiprintf_clean {D : Type} (fprintf : Bytes → Arg D → Bytes)
    (hfprintf : PrintsNumbers fprintf) (ps : List Piece)
    (behind : Bytes) (args : List (Arg D)) (hps : ∀ d, .dir d ∈ ps → d.Guarded args) (out : List Chunk)
    (h : vcgifprintf fprintf ((render ps ++ 0 :: behind).length + 1) (render ps ++ 0 :: behind) args = .ok out) :
    List.Forall₂ Piece.Clean ps out := by
  have hlen : ps.length < (render ps ++ 0 :: behind).length + 1 := by
    have := length_le_render ps
    rw [List.length_append]
    omega
  rw [vcgifprintf_pieces fprintf ps behind args hlen] at h
  exact meaning_clean hfprintf hps h

/-- "%#S" and "%d" -/
def plainDir (flags : Bytes) (conv : UInt8) (hflags : ∀ c ∈ flags, c ∈ bytes "#0-+ ") (hle : flags.length ≤ 7)
    (halpha : isalpha conv = true) (hsize : conv ∉ bytes "hl") : Dir :=
  ⟨flags, .none, false, .none, none, conv, hflags, hle, trivial, nofun, trivial, fun _ => rfl, nofun, halpha, hsize⟩

def expandedDir : Dir := plainDir (bytes "#") 'S'.toUInt8 (by decide) (by decide) (by decide) (by decide)

def intDir : Dir := plainDir [] 'd'.toUInt8 (by decide) (by decide) (by decide) (by decide)

/-- `fprintf` on "%d" -/
def printsInt (_ : Bytes) : Arg ℕ → Bytes
  | .int n => printInt n.toInt
  | _ => []

/-- a message with a login from a form and a number -/
def shown : List Piece := [.lit '<'.toUInt8 (by decide), .dir expandedDir, .dir intDir]

def attack : List (Arg ℕ) := [.str (bytes "<b>&"), .int 7]

def shownOut : List Chunk := [(.fp, bytes "<"), (.fp, bytes "&lt;b&gt;&amp;"), (.fp, bytes "7")]

theorem attack_clean :
    PrintsNumbers printsInt ∧ (∀ d, .dir d ∈ shown → d.Guarded attack) ∧
      vcgifprintf printsInt ((render shown ++ 0 :: []).length + 1) (render shown ++ 0 :: []) attack = .ok shownOut ∧
      List.Forall₂ Piece.Clean shown shownOut := by
  have hnumbers : PrintsNumbers printsInt := by
    intro d args args₁ args₂ widthText precisionText width precision a _ _ _ c hc
    cases a with
    | int n => exact plain_of_code (mem_printInt hc)
    | long n => cases hc
    | str s => cases hc
    | double x => cases hc
  have hguarded : ∀ d, .dir d ∈ shown → d.Guarded attack := by
    intro d hd
    have hcases : d = expandedDir ∨ d = intDir := by simpa [shown] using hd
    rcases hcases with rfl | rfl
    · refine ⟨by decide, fun _ _ => List.forall_mem_cons.2 ⟨?_, List.forall_mem_singleton.2 ?_⟩⟩
      · exact (by decide : ∀ c ∈ bytes "<b>&", c < 0x80)
      · exact (by decide : UInt8.ofNat (7 : BitVec 32).toNat < 0x80)
    · exact ⟨by decide, fun hSC => absurd hSC (by decide)⟩
  have hrun : vcgifprintf printsInt ((render shown ++ 0 :: []).length + 1) (render shown ++ 0 :: []) attack =
      .ok shownOut := by rfl
  exact ⟨hnumbers, hguarded, hrun, cgiprintf_clean _ hnumbers shown [] attack hguarded _ hrun⟩

end MNetSoft.Ownu.Printf
