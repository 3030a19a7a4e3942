/-
The text form of a password hash: `kg_bin_to_str` and `kg_str_to_bin` of `grexhash.c`. A key is a string of bytes, its
text form its digits in base 85, most significant first, in the printable characters without ',', ':', ';' and '\'.

`kg_bin_to_str` works in a scratch buffer: it is meant to copy the key there, to divide it by 85 again and again, and to
put the remainders behind it, last digit first. The digits grow down towards the key; the first one overwrites the
last byte of the quotient, which is not used any more. A write before the start of the buffer is undefined (`none`).
The buffer is `ktemp` on the stack or, for a key too long for it, `mem` from `malloc`; both have old contents.

The copy is `memmove(key, temp, ksize)`, whose first argument is where to copy to: the old contents of the scratch
buffer replace the key, and are what is converted.
- `textForm_iff`: for keys of at most 20 bytes the text form is right if and only if the key is not empty and the
  scratch buffer happened to hold it.
- `stale_scratch`: a key, and a buffer of zeros.
-/
import Mathlib.Tactic
import MNetSoft.Core.Radix

namespace MNetSoft.GrexHash

open MNetSoft.Radix

/-! ## Model -/

def HBASE : ℕ := 85

/-- the number of digits of a key of `ksize` bytes, 81800 / 65536 being just over ln 256 / ln 85 -/
def hlen (ksize : ℕ) : ℕ := 1 + ((ksize * 81800 + 65535) >>> 16)

/-- one pass over the key in the scratch buffer, with the remainder `r` so far: the quotient and the remainder -/
def divPass (r : ℕ) : List UInt8 → List UInt8 × ℕ
  | [] => ([], r)
  | b :: up =>
    let r := r * 256 + b.toNat
    let rest := divPass (r % HBASE) up
    (UInt8.ofNat (r / HBASE) :: rest.1, rest.2)

/-- the character of a digit -/
def toChar (r : ℕ) : ℕ :=
  let r := r + 0x21
  let r := if 0x2c ≤ r then r + 1 else r
  let r := if 0x3a ≤ r then r + 1 else r
  let r := if 0x3b ≤ r then r + 1 else r
  if 0x5c ≤ r then r + 1 else r

/-- `n` more passes over the first `ksize` bytes of the buffer, the next character going below `rp` -/
def emit (ksize : ℕ) : ℕ → List UInt8 → ℕ → Option (List UInt8 × ℕ)
  | 0, temp, rp => some (temp, rp)
  | n + 1, temp, rp =>
    let pass := divPass 0 (temp.take ksize)
    if rp = 0 then none
    else emit ksize n ((pass.1 ++ temp.drop ksize).set (rp - 1) (UInt8.ofNat (toChar pass.2))) (rp - 1)

/-- the C string at the start of some memory -/
def cstring (m : List UInt8) : List UInt8 := m.takeWhile (· ≠ 0)

/-- what `kg_bin_to_str` leaves behind: its value, the string, and the key -/
structure Converted where
  ret : ℕ
  str : List UInt8
  key : List UInt8
deriving DecidableEq, Repr

/-- convert a binary data object to an ascii text representation; 1 on failure -/
def kg_bin_to_str (key : List UInt8) (strsize : ℕ) (ktemp mem : List UInt8) : Option Converted :=
  let ksize := key.length
  if strsize < hlen ksize then some ⟨1, [], key⟩
  else
    let temp := if ksize + hlen ksize < 128 then ktemp else mem
    -- memmove(key, temp, ksize)
    let key := temp.take ksize
    let rp := ksize + hlen ksize - 1
    (emit ksize (hlen ksize) (temp.set rp 0) rp).map fun (temp, rp) =>
      ⟨0, (cstring (temp.drop rp)).take (strsize - 1), key⟩

/-- the digit of a character, `r -= 0x21` being unsigned -/
def ofChar (c : ℕ) : Option ℕ :=
  if c = 0x5c then none
  else
    let r := if 0x5c < c then c - 1 else c
    if r = 0x3b then none
    else if r = 0x3a then none
    else
      let r := if 0x3a < r then r - 2 else r
      if r = 0x2c then none
      else
        let r := if 0x2c < r then r - 1 else r
        let r := (r + 2 ^ 32 - 0x21) % 2 ^ 32
        if HBASE ≤ r then none else some r

/-- multiply the key by 85 and add `r`: the key and the carry -/
def mulPass (r : ℕ) : List UInt8 → List UInt8 × ℕ
  | [] => ([], r)
  | b :: up =>
    let rest := mulPass r up
    let r := rest.2 + b.toNat * HBASE
    (UInt8.ofNat r :: rest.1, r >>> 8)

/-- the loop of `kg_str_to_bin` over the characters of the string -/
def readDigits : List UInt8 → List UInt8 → ℕ × List UInt8
  | [], key => (0, key)
  | c :: str, key =>
    match ofChar c.toNat with
    | none => (1, key)
    | some r =>
      let pass := mulPass r key
      if pass.2 ≠ 0 then (1, pass.1) else readDigits str pass.1

/-- convert an ascii text representation back to the original binary data: its value and the key -/
def kg_str_to_bin (str : List UInt8) (ksize : ℕ) : ℕ × List UInt8 :=
  readDigits (cstring str) (List.replicate ksize 0)

/-! ## What the text form should be -/

/-- the number a key is, as big-endian bytes -/
def keyValue (key : List UInt8) : ℕ := value 256 (key.map UInt8.toNat)

/-- the printable characters from '!' on, without ',', ':', ';' and '\' -/
def alphabet : List UInt8 := ((List.range' 0x21 89).map UInt8.ofNat).filter fun c => c ∉ [0x2c, 0x3a, 0x3b, 0x5c]

/-- the base-85 digits of a key in the alphabet -/
def base85 (key : List UInt8) : List UInt8 :=
  (fixedDigits HBASE (hlen key.length) (keyValue key)).map fun d => alphabet.getD d 0

/-- the conversion succeeds with the base-85 form of the key, leaves the key alone, and can be undone -/
def TextForm (key : List UInt8) (res : Option Converted) : Prop :=
  res = some ⟨0, base85 key, key⟩ ∧ kg_str_to_bin (base85 key) key.length = (0, key)

/-! ## The passes over the key -/

theorem bytes_lt (key : List UInt8) : ∀ x ∈ key.map UInt8.toNat, x < 256 := by
  intro x hx
  obtain ⟨b, -, rfl⟩ := List.mem_map.1 hx
  exact b.toNat_lt

theorem keyValue_lt (key : List UInt8) : keyValue key < 256 ^ key.length := by
  have h := value_lt (by decide : 1 < 256) (bytes_lt key)
  rwa [List.length_map] at h

theorem keyValue_inj {key key' : List UInt8} (hlen : key.length = key'.length) (h : keyValue key = keyValue key') :
    key = key' := by
  have hmap := value_inj (by decide : 1 < 256) (by simpa using hlen) (bytes_lt key) (bytes_lt key') h
  exact List.map_injective_iff.2 (fun a b => UInt8.toNat_inj.1) hmap

/-- a pass is a long division: no quotient is cut off -/
theorem divPass_eq {r : ℕ} (hr : r < HBASE) (up : List UInt8) :
    (divPass r up).1.map UInt8.toNat = (longDivide 256 HBASE r (up.map UInt8.toNat)).1 ∧
      (divPass r up).2 = (longDivide 256 HBASE r (up.map UInt8.toNat)).2 := by
  induction up generalizing r with
  | nil => exact ⟨rfl, rfl⟩
  | cons b up ih =>
    have hbyte := b.toNat_lt
    have hquot : (r * 256 + b.toNat) / HBASE < 256 := by
      unfold HBASE at *
      omega
    obtain ⟨h1, h2⟩ := ih (Nat.mod_lt (r * 256 + b.toNat) (by decide : 0 < HBASE))
    refine ⟨?_, h2⟩
    simp only [divPass, longDivide, List.map_cons, h1]
    rw [UInt8.toNat_ofNat_of_lt' hquot]

theorem length_divPass (r : ℕ) (up : List UInt8) : (divPass r up).1.length = up.length := by
  induction up generalizing r with
  | nil => rfl
  | cons b up ih => simp [divPass, ih]

theorem divPass_value (up : List UInt8) :
    keyValue (divPass 0 up).1 = keyValue up / HBASE ∧ (divPass 0 up).2 = keyValue up % HBASE := by
  obtain ⟨h1, h2⟩ := divPass_eq (by decide : 0 < HBASE) up
  obtain ⟨hv1, hv2⟩ := longDivide_zero (b := 256) (by decide : 0 < HBASE) (up.map UInt8.toNat)
  exact ⟨by rw [keyValue, h1, hv1]; rfl, by rw [h2, hv2]; rfl⟩

theorem mulPass_eq (r : ℕ) (up : List UInt8) :
    (mulPass r up).1.map UInt8.toNat = (mulAdd 256 HBASE r (up.map UInt8.toNat)).1 ∧
      (mulPass r up).2 = (mulAdd 256 HBASE r (up.map UInt8.toNat)).2 := by
  induction up with
  | nil => exact ⟨rfl, rfl⟩
  | cons b up ih =>
    obtain ⟨h1, h2⟩ := ih
    constructor
    · simp only [mulPass, mulAdd, List.map_cons, h1, h2, UInt8.toNat_ofNat']
    · simp only [mulPass, mulAdd, List.map_cons, h2, Nat.shiftRight_eq_div_pow]

theorem length_mulPass (r : ℕ) (up : List UInt8) : (mulPass r up).1.length = up.length := by
  induction up with
  | nil => rfl
  | cons b up ih => simp [mulPass, ih]

/-- a pass multiplies the key by 85 and adds `r` -/
theorem mulPass_value (r : ℕ) (up : List UInt8) :
    keyValue (mulPass r up).1 + (mulPass r up).2 * 256 ^ up.length = keyValue up * HBASE + r := by
  obtain ⟨h1, h2⟩ := mulPass_eq r up
  have hv := mulAdd_value (b := 256) (d := HBASE) r (up.map UInt8.toNat)
  rw [List.length_map, ← h1, ← h2] at hv
  exact hv

/-! ## The characters -/

/-- `kg_bin_to_str` emits the characters of the alphabet in order -/
theorem toChar_eq : ∀ d < HBASE, UInt8.ofNat (toChar d) = alphabet.getD d 0 := by decide

theorem ofChar_alphabet : ∀ d < HBASE, ofChar (alphabet.getD d 0).toNat = some d := by decide

theorem alphabet_ne_zero : ∀ d < HBASE, alphabet.getD d 0 ≠ 0 := by decide

/-- what the digits of a list stand for in a string -/
def chars (ds : List ℕ) : List UInt8 := ds.map fun d => alphabet.getD d 0

theorem cstring_chars {ds : List ℕ} (h : ∀ d ∈ ds, d < HBASE) (m : List UInt8) :
    cstring (chars ds ++ m) = chars ds ++ cstring m := by
  apply List.takeWhile_append_of_pos
  intro c hc
  obtain ⟨d, hd, rfl⟩ := List.mem_map.1 hc
  simpa using alphabet_ne_zero d (h d hd)

/-! ## From the buffer to the string -/

/-- **What the passes emit**: the last `n` base-85 digits of the number in the buffer, below `rp` -/
theorem emit_eq (ksize n : ℕ) (temp : List UInt8) (hksize : 0 < ksize) (hlen : ksize + n ≤ temp.length) :
    ∃ temp', emit ksize n temp (ksize + n - 1) = some (temp', ksize - 1) ∧
      temp'.drop (ksize - 1) =
        chars (fixedDigits HBASE n (keyValue (temp.take ksize))) ++ temp.drop (ksize + n - 1) := by
  induction n generalizing temp with
  | zero => exact ⟨temp, rfl, rfl⟩
  | succ n ih =>
    obtain ⟨hquot, hrem⟩ := divPass_value (temp.take ksize)
    have hpass : (divPass 0 (temp.take ksize)).1.length = ksize := by
      rw [length_divPass, List.length_take]
      omega
    set q := (divPass 0 (temp.take ksize)).1 with hq
    set c := UInt8.ofNat (toChar (divPass 0 (temp.take ksize)).2) with hc
    have hchar : c = alphabet.getD (keyValue (temp.take ksize) % HBASE) 0 := by
      rw [hc, hrem]
      exact toChar_eq _ (Nat.mod_lt _ (by decide))
    set temp₁ := (q ++ temp.drop ksize).set (ksize + n - 1) c with htemp₁
    have hlen₁ : temp₁.length = temp.length := by
      rw [htemp₁, List.length_set, List.length_append, hpass, List.length_drop]
      omega
    obtain ⟨temp', hemit, hdrop⟩ := ih temp₁ (by omega)
    refine ⟨temp', ?_, ?_⟩
    · rw [emit, if_neg (by omega), show ksize + (n + 1) - 1 - 1 = ksize + n - 1 by omega]
      exact hemit
    · -- the new character stands right below the ones emitted before
      have htail : temp₁.drop (ksize + n - 1) = c :: temp.drop (ksize + (n + 1) - 1) := by
        have hlt : ksize + n - 1 < temp₁.length := by omega
        rw [List.drop_eq_getElem_cons hlt]
        congr 1
        · simp [htemp₁]
        · rw [htemp₁, List.drop_set_of_lt (by omega), List.drop_append, hpass, List.drop_eq_nil_of_le (by omega),
            List.nil_append, List.drop_drop]
          congr 1
          omega
      rw [hdrop, htail]
      cases n with
      | zero => simp [fixedDigits, chars, hchar]
      | succ n =>
        have hkey : temp₁.take ksize = q := by
          rw [htemp₁, List.take_set_of_le (by omega), ← hpass, List.take_left]
        rw [hkey, hquot, hchar]
        conv_rhs => rw [fixedDigits]
        simp only [chars, List.map_append, List.map_cons, List.map_nil, List.append_assoc, List.singleton_append]

/-- **What `kg_bin_to_str` does**: it converts the old contents of the scratch buffer, and copies them into the key. The
room it asks for is that of the digits, without the NUL. -/
theorem kg_bin_to_str_cut {key ktemp : List UInt8} {strsize : ℕ} (mem : List UInt8) (hpos : 0 < key.length)
    (hkey : key.length ≤ 20) (hbuf : ktemp.length = 128) (hstr : hlen key.length ≤ strsize) :
    kg_bin_to_str key strsize ktemp mem =
      some ⟨0, (base85 (ktemp.take key.length)).take (strsize - 1), ktemp.take key.length⟩ := by
  have hlen_le : ∀ k ≤ 20, k + hlen k < 128 ∧ 0 < hlen k := by decide
  obtain ⟨hfits, hdigits⟩ := hlen_le key.length hkey
  set rp := key.length + hlen key.length - 1 with hrp
  obtain ⟨temp', hemit, hdrop⟩ := emit_eq key.length (hlen key.length) (ktemp.set rp 0) hpos
    (by rw [List.length_set, hbuf]; exact hfits.le)
  have htake : (ktemp.set rp 0).take key.length = ktemp.take key.length := List.take_set_of_le (by omega)
  have hlt : rp < (ktemp.set rp 0).length := by
    rw [List.length_set]
    omega
  have hnul : (ktemp.set rp 0).drop rp = 0 :: (ktemp.set rp 0).drop (rp + 1) := by
    rw [List.drop_eq_getElem_cons hlt, List.getElem_set_self]
  rw [← hrp, hnul, htake] at hdrop
  have hcopy : (ktemp.take key.length).length = key.length := by
    rw [List.length_take]
    omega
  have hstring : cstring (temp'.drop (key.length - 1)) = base85 (ktemp.take key.length) := by
    rw [hdrop, cstring_chars (fixedDigits_lt (by decide) _ _), base85, hcopy]
    simp [cstring, chars]
  rw [← hrp] at hemit
  simp only [kg_bin_to_str, if_neg (not_lt.2 hstr), if_pos hfits, ← hrp, hemit, Option.map_some, hstring]

theorem length_base85 (key : List UInt8) : (base85 key).length = hlen key.length := by
  rw [base85, List.length_map, length_fixedDigits]

theorem kg_bin_to_str_eq {key ktemp : List UInt8} {strsize : ℕ} (mem : List UInt8) (hpos : 0 < key.length)
    (hkey : key.length ≤ 20) (hbuf : ktemp.length = 128) (hstr : hlen key.length < strsize) :
    kg_bin_to_str key strsize ktemp mem =
      some ⟨0, base85 (ktemp.take key.length), ktemp.take key.length⟩ := by
  have hcopy : (ktemp.take key.length).length = key.length := by
    rw [List.length_take]
    omega
  have hwhole : (base85 (ktemp.take key.length)).take (strsize - 1) = base85 (ktemp.take key.length) := by
    apply List.take_of_length_le
    rw [length_base85, hcopy]
    omega
  rw [kg_bin_to_str_cut mem hpos hkey hbuf hstr.le, hwhole]

theorem kg_bin_to_str_nil {ktemp : List UInt8} {strsize : ℕ} (mem : List UInt8) (hstr : hlen 0 < strsize) :
    kg_bin_to_str [] strsize ktemp mem = none := by
  have hlen0 : hlen 0 = 1 := by decide
  simp only [kg_bin_to_str, List.length_nil, if_neg (not_lt.2 hstr.le)]
  simp [hlen0, emit]

/-! ## From the string to the key -/

/-- reading digits that stand for a number the key has room for -/
theorem readDigits_chars {ds : List ℕ} (h : ∀ d ∈ ds, d < HBASE) (key : List UInt8)
    (hroom : keyValue key * HBASE ^ ds.length + value HBASE ds < 256 ^ key.length) :
    ∃ key', readDigits (chars ds) key = (0, key') ∧ key'.length = key.length ∧
      keyValue key' = keyValue key * HBASE ^ ds.length + value HBASE ds := by
  induction ds generalizing key with
  | nil => exact ⟨key, rfl, rfl, by simp⟩
  | cons d ds ih =>
    have hpass := mulPass_value d key
    have hlen := length_mulPass d key
    have hsplit : keyValue key * HBASE ^ (d :: ds).length + value HBASE (d :: ds) =
        (keyValue key * HBASE + d) * HBASE ^ ds.length + value HBASE ds := by
      rw [value_cons, List.length_cons, pow_succ]
      ring
    -- the prefix read so far is no larger than the whole number
    have hcarry : (mulPass d key).2 = 0 := by
      by_contra hne
      have hbig : 256 ^ key.length ≤ (mulPass d key).2 * 256 ^ key.length :=
        Nat.le_mul_of_pos_left _ (Nat.pos_of_ne_zero hne)
      have hprefix : keyValue key * HBASE + d ≤ (keyValue key * HBASE + d) * HBASE ^ ds.length :=
        Nat.le_mul_of_pos_right _ (pow_pos (by decide) _)
      omega
    rw [hcarry, Nat.zero_mul, Nat.add_zero] at hpass
    rw [hsplit] at hroom ⊢
    obtain ⟨key', hread, hlen', hval⟩ := ih (fun e he => h e (List.mem_cons_of_mem d he)) (mulPass d key).1
      (by rw [hpass, hlen]; exact hroom)
    refine ⟨key', ?_, hlen'.trans hlen, by rw [hval, hpass]⟩
    rw [chars, List.map_cons, readDigits, ofChar_alphabet d (h d List.mem_cons_self)]
    simp only [hcarry, ne_eq, not_true_eq_false, if_false]
    exact hread

/-- **Round trip**: the base-85 form of a key of at most 20 bytes reads back as the key -/
theorem kg_str_to_bin_base85 {key : List UInt8} (hkey : key.length ≤ 20) :
    kg_str_to_bin (base85 key) key.length = (0, key) := by
  have henough : ∀ k ≤ 20, 256 ^ k ≤ HBASE ^ hlen k := by decide
  have hdigits : ∀ d ∈ fixedDigits HBASE (hlen key.length) (keyValue key), d < HBASE := fixedDigits_lt (by decide) _ _
  have hstring : cstring (base85 key) = chars (fixedDigits HBASE (hlen key.length) (keyValue key)) := by
    calc cstring (base85 key)
        = cstring (chars (fixedDigits HBASE (hlen key.length) (keyValue key)) ++ []) := by rw [List.append_nil]; rfl
      _ = chars (fixedDigits HBASE (hlen key.length) (keyValue key)) ++ cstring [] := cstring_chars hdigits []
      _ = chars (fixedDigits HBASE (hlen key.length) (keyValue key)) := List.append_nil _
  have hzero : keyValue (List.replicate key.length 0) = 0 := by
    have hmap : (List.replicate key.length (0 : UInt8)).map UInt8.toNat = List.replicate key.length 0 := by simp
    rw [keyValue, hmap, value, List.reverse_replicate]
    exact Nat.ofDigits_replicate_zero
  have hfits : keyValue key < HBASE ^ hlen key.length := by
    calc keyValue key < 256 ^ key.length := keyValue_lt key
      _ ≤ HBASE ^ hlen key.length := henough key.length hkey
  have hval : value HBASE (fixedDigits HBASE (hlen key.length) (keyValue key)) = keyValue key := by
    rw [value_fixedDigits]
    exact Nat.mod_eq_of_lt hfits
  obtain ⟨key', hread, hlen', hkey'⟩ := readDigits_chars hdigits (List.replicate key.length 0)
    (by rw [hzero, Nat.zero_mul, Nat.zero_add, hval, List.length_replicate]; exact keyValue_lt key)
  rw [hzero, Nat.zero_mul, Nat.zero_add, hval] at hkey'
  rw [List.length_replicate] at hlen'
  rw [kg_str_to_bin, hstring, hread, keyValue_inj hlen' hkey']

/-- distinct keys have distinct base-85 forms -/
theorem base85_inj {key key' : List UInt8} (hkey : key.length ≤ 20) (hlen : key.length = key'.length)
    (h : base85 key = base85 key') : key = key' := by
  have h1 := kg_str_to_bin_base85 hkey
  have h2 := kg_str_to_bin_base85 (hlen ▸ hkey)
  rw [h, hlen] at h1
  exact (Prod.mk.inj (h1.symm.trans h2)).2

/-- **When the text form is right.** For every key of at most 20 bytes, every old contents of the scratch buffer and a
large enough output buffer. -/
theorem textForm_iff (key ktemp mem : List UInt8) (strsize : ℕ) (hkey : key.length ≤ 20) (hbuf : ktemp.length = 128)
    (hstr : hlen key.length < strsize) :
    TextForm key (kg_bin_to_str key strsize ktemp mem) ↔ 0 < key.length ∧ ktemp.take key.length = key := by
  refine ⟨?_, ?_⟩
  · intro h
    obtain ⟨hres, -⟩ := h
    by_cases hpos : 0 < key.length
    · rw [kg_bin_to_str_eq mem hpos hkey hbuf hstr] at hres
      injection hres with hres
      injection hres with _ _ hsame
      exact ⟨hpos, hsame⟩
    · obtain rfl : key = [] := List.eq_nil_of_length_eq_zero (Nat.eq_zero_of_not_pos hpos)
      rw [kg_bin_to_str_nil mem hstr] at hres
      cases hres
  · intro h
    obtain ⟨hpos, hsame⟩ := h
    refine ⟨?_, kg_str_to_bin_base85 hkey⟩
    rw [kg_bin_to_str_eq mem hpos hkey hbuf hstr, hsame]

/-- a scratch buffer that holds the key 1 2 3 at its start -/
def luckyScratch : List UInt8 := [1, 2, 3] ++ List.replicate 125 0

theorem textForm_lucky : TextForm [1, 2, 3] (kg_bin_to_str [1, 2, 3] 30 luckyScratch []) :=
  (textForm_iff [1, 2, 3] luckyScratch [] 30 (by decide) (by simp [luckyScratch]) (by decide)).2 (by decide)

/-- **A scratch buffer of zeros.** The key 1 2 3 comes out as "!!!!!", and is zero afterwards. -/
theorem stale_scratch :
    kg_bin_to_str [1, 2, 3] 30 (List.replicate 128 0) [] = some ⟨0, List.replicate 5 0x21, [0, 0, 0]⟩ ∧
      ¬TextForm [1, 2, 3] (kg_bin_to_str [1, 2, 3] 30 (List.replicate 128 0) []) := by
  have hzeros : base85 [0, 0, 0] = List.replicate 5 0x21 := by decide
  have hres : kg_bin_to_str [1, 2, 3] 30 (List.replicate 128 0) [] = some ⟨0, List.replicate 5 0x21, [0, 0, 0]⟩ := by
    have htake : (List.replicate 128 (0 : UInt8)).take 3 = [0, 0, 0] := List.take_replicate
    have h := @kg_bin_to_str_eq [1, 2, 3] (List.replicate 128 0) 30 [] (by decide) (by decide) List.length_replicate
      (by decide)
    rw [List.length_cons, List.length_cons, List.length_cons, List.length_nil, htake, hzeros] at h
    exact h
  refine ⟨hres, fun h => ?_⟩
  have hkey := h.1
  rw [hres] at hkey
  injection hkey with hkey
  injection hkey with _ _ hkey
  exact absurd hkey (by decide)

end MNetSoft.GrexHash
