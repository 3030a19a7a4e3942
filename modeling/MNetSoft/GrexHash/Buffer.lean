/-
The buffer of a password hash: `grexhash_r` of `grexhash.c`, which hashes a password into a buffer of `reslen` bytes.

Three tests of the length stand one behind the other. `grexhash_r` turns away less than `HLEN` = 26 bytes and passes the
rest on as an `int`, `kg_pwhash` turns away less than 3 and stores the tag "%!", and `kg_bin_to_str`, with what is left,
turns away less than the 26 digits; none of them counts the NUL behind the digits. With 28 bytes `strlcpy` drops the
last digit, and the call succeeds.

The realm is that of `GREXHASHREALM`, which `libgrex.h` defines. Outside the arguments a hash depends on SHA-1 (not
part of the repository, here any function to 20 bytes) and, through the `memmove` of `kg_bin_to_str`, on the old
contents of the scratch buffer of the call.
- `hash_whole_iff`: a call fails or stores the whole hash, the string that another call stores, if and only if the
  length as an `int` is less than 28, or both calls (the other one if it succeeds) find the key in the scratch buffer
  and have a length other than 28 modulo 2 ^ 32.
- `hash_in_28`: the buffer of 28 bytes.
-/
import Mathlib.Tactic
import MNetSoft.Core.Memory
import MNetSoft.GrexHash.Text

namespace MNetSoft.GrexHash

open MNetSoft.Memory MNetSoft.Radix

/-! ## Model -/

def HLEN : ℕ := 26

/-- the last domains of a host name, and whether a dot ends it -/
structure Domains where
  s2 : List UInt8
  s3 : Option (List UInt8)
  s4 : Option (List UInt8)
  c : ℕ

/-- go on to the next '.' of the host name -/
def nextDot (d : Domains) : List UInt8 → Domains
  | [] => d
  | ch :: s1 =>
    if ch = 0x2e then
      if s1 = [] then { d with c := 1 } else nextDot { d with s4 := d.s3, s3 := some d.s2, s2 := s1 } s1
    else nextDot d s1

/-- `FOREIGN`: a country, and a domain in it that is none of its own -/
def foreign (a b : List UInt8) (c : ℕ) : Bool := a.length - c = 2 ∧ b.length - c ≤ 6

/-- copy the realm in upper case, without a dot at its end; `none` if it does not fit -/
def copyRealm : ℕ → List UInt8 → Option (List UInt8)
  | _, [] => some []
  | rsize, c :: s4 =>
    if rsize - 1 = 0 then none
    else (copyRealm (rsize - 1) s4).map fun realm =>
      if c = 0x2e ∧ s4 = [] then realm else (if 0x61 ≤ c ∧ c ≤ 0x7a then c - 0x20 else c) :: realm

def kg_realmofhost (hostname : List UInt8) (rsize : ℕ) : Option (List UInt8) :=
  let d := nextDot ⟨hostname, none, none, 0⟩ hostname
  match d.s3 with
  | none => none
  | some s3 =>
    if foreign d.s2 s3 d.c ∧ d.s4 = none then none
    else copyRealm (rsize + d.c) (if foreign d.s2 s3 d.c then d.s4.getD s3 else s3)

/-- "grex.cyberspace.org" -/
def GREXHASHREALM : List UInt8 :=
  [0x67, 0x72, 0x65, 0x78, 0x2e, 0x63, 0x79, 0x62, 0x65, 0x72, 0x73, 0x70, 0x61, 0x63, 0x65, 0x2e, 0x6f, 0x72, 0x67]

/-- the realm of the local host -/
def kg_localrealm (lsize : ℕ) : Option (List UInt8) := kg_realmofhost GREXHASHREALM lsize

section Call

variable (sha1 : List UInt8 → Vector UInt8 20)

/-- the key of a password: two rounds of SHA-1, with '\' and '6' for padding -/
def kg_string_to_key (clear user inst realm : List UInt8) : Vector UInt8 20 :=
  let len := clear.length + 1
  let pad := fun c : UInt8 => List.replicate (128 - len % 64) c
  let key := sha1 (pad 0x5c ++ (clear ++ [0]) ++ (user ++ [0]) ++ (inst ++ [0]) ++ (realm ++ [0]))
  sha1 ((clear ++ [0]) ++ pad 0x36 ++ key.toList)

/-- what a call leaves behind: whether it returns the buffer (or NULL), and the buffer -/
structure Call where
  ret : Bool
  res : List UInt8
deriving DecidableEq, Repr

/-- `ktemp` is what is in the scratch buffer of `kg_bin_to_str` on the stack -/
def kg_pwhash (ktemp : Vector UInt8 128) (clear user result : List UInt8) (rsize : ℤ) : Option Call :=
  if rsize < 3 then some ⟨false, result⟩
  else
    match kg_localrealm 64 with
    | none => some ⟨false, result⟩
    | some realm => do
      let key := kg_string_to_key sha1 clear user [] realm
      -- strlcpy(result, "%!", rsize)
      let result ← blit result 0 ([0x25, 0x21].take (rsize - 1).toNat ++ [0])
      let conv ← kg_bin_to_str key.toList (rsize - 2).toNat ktemp.toList []
      let result ← blit result 2 (conv.str ++ [0])
      return ⟨conv.ret = 0, result⟩

/-- the buffer of a call, and the scratch buffer that it finds -/
structure Buffers where
  res : List UInt8
  ktemp : Vector UInt8 128

/-- hash a password into `res`; the length is cut to an `int` on its way -/
def grexhash_r (pass user : List UInt8) (b : Buffers) : Option Call :=
  if b.res.length < HLEN then some ⟨false, b.res⟩
  else kg_pwhash sha1 b.ktemp pass user b.res ((b.res.length : ℤ).bmod (2 ^ 32))

/-! ## What a hash should be -/

/-- "CYBERSPACE.ORG" -/
def realm : List UInt8 := [0x43, 0x59, 0x42, 0x45, 0x52, 0x53, 0x50, 0x41, 0x43, 0x45, 0x2e, 0x4f, 0x52, 0x47]

/-- the key of a password, in the realm of the host -/
def keyOf (pass user : List UInt8) : List UInt8 := (kg_string_to_key sha1 pass user [] realm).toList

/-- the complete hash: the tag, and the key in its text form -/
def hash (pass user : List UInt8) : List UInt8 := [0x25, 0x21] ++ base85 (keyOf sha1 pass user)

/-- a call with the buffers `b` fails, or stores the complete hash and its NUL, the string that a call with `b'` stores
if it succeeds -/
def WholeOrNull (pass user : List UInt8) (b b' : Buffers) : Prop :=
  ∃ call, grexhash_r sha1 pass user b = some call ∧
    (call.ret = true → (∃ rest, call.res = hash sha1 pass user ++ 0 :: rest) ∧
      ∀ call', grexhash_r sha1 pass user b' = some call' → call'.ret = true → cstring call'.res = cstring call.res)

/-- the key happens to be in the scratch buffer, and the length is not the one that loses a digit -/
def Complete (pass user : List UInt8) (b : Buffers) : Prop :=
  b.ktemp.toList.take 20 = keyOf sha1 pass user ∧ b.res.length % 2 ^ 32 ≠ 28

end Call

/-- the length is too small for any hash, as an `int` -/
def TooSmall (reslen : ℕ) : Prop := (reslen : ℤ).bmod (2 ^ 32) < 28

instance (reslen : ℕ) : Decidable (TooSmall reslen) := by
  unfold TooSmall
  infer_instance

/-! ## What a call stores -/

theorem kg_localrealm_eq : kg_localrealm 64 = some realm := by decide

section Stores

variable (sha1 : List UInt8 → Vector UInt8 20) (pass user : List UInt8) (b : Buffers)

/-- the digits of what is in the scratch buffer -/
def digits : List UInt8 := base85 (b.ktemp.toList.take 20)

theorem length_digits : (digits b).length = HLEN := by
  have hlen : (b.ktemp.toList.take 20).length = 20 := by simp
  rw [digits, length_base85, hlen]
  decide

theorem base85_mem_alphabet (key : List UInt8) : ∀ c ∈ base85 key, c ∈ alphabet := by
  have hmem : ∀ d < HBASE, alphabet.getD d 0 ∈ alphabet := by
    intro d hd
    have hlen : d < alphabet.length := hd
    rw [← List.getElem_eq_getD 0]
    exact List.getElem_mem hlen
  intro c hc
  obtain ⟨d, hd, rfl⟩ := List.mem_map.1 hc
  exact hmem d (fixedDigits_lt (by decide) _ _ d hd)

theorem alphabet_ne_nul : ∀ c ∈ alphabet, c ≠ 0 := by decide +kernel

/-- the string that a tag, characters of the alphabet and a NUL are -/
theorem cstring_tag {ds : List UInt8} (h : ∀ c ∈ ds, c ∈ alphabet) (rest : List UInt8) :
    cstring ([0x25, 0x21] ++ ds ++ 0 :: rest) = [0x25, 0x21] ++ ds := by
  have hall : ∀ c ∈ [0x25, 0x21] ++ ds, (c ≠ 0 : Bool) = true := by
    intro c hc
    rcases List.mem_append.1 hc with htag | hds
    · fin_cases htag <;> decide
    · simpa using alphabet_ne_nul c (h c hds)
  rw [cstring, List.takeWhile_append_of_pos hall]
  simp

theorem length_keyOf : (keyOf sha1 pass user).length = 20 := Vector.length_toList

variable {b}

/-- `strlcpy(result, "%!", rsize)` has room for the tag and its NUL -/
theorem blit_tag {res : List UInt8} {rsize : ℤ} (h3 : 3 ≤ rsize) (hfit : rsize ≤ res.length) :
    blit res 0 ([0x25, 0x21].take (rsize - 1).toNat ++ [0]) = some ([0x25, 0x21, 0] ++ res.drop 3) := by
  have htag : [(0x25 : UInt8), 0x21].take (rsize - 1).toNat = [0x25, 0x21] := List.take_of_length_le (by simp; omega)
  rw [htag, blit, if_pos (by simp; omega)]
  simp

theorem kg_pwhash_small {rsize : ℤ} (hsmall : rsize < 28) (hfit : rsize ≤ b.res.length) :
    ∃ res', kg_pwhash sha1 b.ktemp pass user b.res rsize = some ⟨false, res'⟩ := by
  by_cases h3 : rsize < 3
  · exact ⟨b.res, if_pos h3⟩
  have hhlen : hlen 20 = 26 := by decide
  have hconv : kg_bin_to_str (keyOf sha1 pass user) (rsize - 2).toNat b.ktemp.toList [] =
      some ⟨1, [], keyOf sha1 pass user⟩ := by
    rw [kg_bin_to_str, length_keyOf, if_pos (by omega)]
  have hnul : blit ([0x25, 0x21, 0] ++ b.res.drop 3) 2 [0] = some ([0x25, 0x21, 0] ++ b.res.drop 3) := by
    rw [blit, if_pos (by simp)]
    simp
  refine ⟨[0x25, 0x21, 0] ++ b.res.drop 3, ?_⟩
  rw [keyOf] at hconv
  rw [kg_pwhash, if_neg h3, kg_localrealm_eq]
  simp only [hconv, blit_tag (by omega) hfit, Option.bind_eq_bind, Option.bind_some, List.nil_append, hnul]
  rfl

/-- with 28 bytes or more, the tag, as many digits as leave room for a NUL, and the NUL -/
theorem kg_pwhash_eq {rsize : ℤ} (hlarge : 28 ≤ rsize) (hfit : rsize ≤ b.res.length) :
    ∃ rest, kg_pwhash sha1 b.ktemp pass user b.res rsize =
      some ⟨true, [0x25, 0x21] ++ (digits b).take (rsize - 3).toNat ++ 0 :: rest⟩ := by
  set cut := (digits b).take (rsize - 3).toNat with hcut
  have hcutlen : cut.length ≤ (rsize - 3).toNat := List.length_take_le _ _
  have hhlen : hlen 20 = 26 := by decide
  have hkey := length_keyOf sha1 pass user
  have hconv : kg_bin_to_str (keyOf sha1 pass user) (rsize - 2).toNat b.ktemp.toList [] =
      some ⟨0, cut, b.ktemp.toList.take 20⟩ := by
    have h := @kg_bin_to_str_cut (keyOf sha1 pass user) b.ktemp.toList (rsize - 2).toNat []
      (by rw [hkey]; decide) (by rw [hkey]) (by simp) (by rw [hkey]; omega)
    rw [hkey, show (rsize - 2).toNat - 1 = (rsize - 3).toNat by omega] at h
    exact h
  have hblit : blit ([0x25, 0x21, 0] ++ b.res.drop 3) 2 (cut ++ [0]) =
      some ([0x25, 0x21] ++ cut ++ 0 :: b.res.drop (3 + cut.length)) := by
    rw [blit, if_pos (by simp; omega)]
    simp [show 2 + (cut.length + 1) = 3 + cut.length by omega, Nat.add_comm 3]
  refine ⟨b.res.drop (3 + cut.length), ?_⟩
  rw [keyOf] at hconv
  rw [kg_pwhash, if_neg (by omega), kg_localrealm_eq]
  simp only [hconv, blit_tag (by omega) hfit, Option.bind_eq_bind, Option.bind_some, hblit]
  rfl

theorem bmod_le (n : ℕ) : (n : ℤ).bmod (2 ^ 32) ≤ n := by
  rw [Int.bmod_def]
  split <;> omega

theorem bmod_eq_28 (n : ℕ) : (n : ℤ).bmod (2 ^ 32) = 28 ↔ n % 2 ^ 32 = 28 := by
  rw [Int.bmod_def]
  split <;> omega

/-- a call with a buffer that is too small fails -/
theorem grexhash_r_null (hsmall : TooSmall b.res.length) :
    ∃ res', grexhash_r sha1 pass user b = some ⟨false, res'⟩ := by
  by_cases hlen : b.res.length < HLEN
  · exact ⟨b.res, if_pos hlen⟩
  · rw [grexhash_r, if_neg hlen]
    exact kg_pwhash_small sha1 pass user hsmall (bmod_le _)

theorem take_digits (hlarge : ¬TooSmall b.res.length) :
    (digits b).take ((b.res.length : ℤ).bmod (2 ^ 32) - 3).toNat =
      if b.res.length % 2 ^ 32 = 28 then (digits b).dropLast else digits b := by
  have hint : 28 ≤ (b.res.length : ℤ).bmod (2 ^ 32) := not_lt.1 hlarge
  have h28 := bmod_eq_28 b.res.length
  have hlen : (digits b).length = 26 := length_digits b
  split
  case isTrue hmod => rw [h28.2 hmod, List.dropLast_eq_take, hlen, show ((28 : ℤ) - 3).toNat = 26 - 1 from rfl]
  case isFalse hmod =>
    have hne : (b.res.length : ℤ).bmod (2 ^ 32) ≠ 28 := fun h => hmod (h28.1 h)
    exact List.take_of_length_le (by omega)

theorem grexhash_r_eq (hlarge : ¬TooSmall b.res.length) :
    ∃ rest, grexhash_r sha1 pass user b = some ⟨true, [0x25, 0x21] ++
      (if b.res.length % 2 ^ 32 = 28 then (digits b).dropLast else digits b) ++ 0 :: rest⟩ := by
  have hint : 28 ≤ (b.res.length : ℤ).bmod (2 ^ 32) := not_lt.1 hlarge
  have hle := bmod_le b.res.length
  have hlen : ¬b.res.length < HLEN := by
    unfold HLEN
    omega
  rw [grexhash_r, if_neg hlen, ← take_digits hlarge]
  exact kg_pwhash_eq sha1 pass user hint hle

/-- the string that such a call stores -/
def stored (b : Buffers) : List UInt8 :=
  [0x25, 0x21] ++ if b.res.length % 2 ^ 32 = 28 then (digits b).dropLast else digits b

theorem cstring_stored (b : Buffers) (rest : List UInt8) : cstring (stored b ++ 0 :: rest) = stored b := by
  have hmem := base85_mem_alphabet (b.ktemp.toList.take 20)
  unfold stored
  split_ifs
  · exact cstring_tag (fun c hc => hmem c (List.dropLast_subset _ hc)) rest
  · exact cstring_tag hmem rest

theorem cstring_hash (rest : List UInt8) : cstring (hash sha1 pass user ++ 0 :: rest) = hash sha1 pass user :=
  cstring_tag (base85_mem_alphabet _) rest

/-- it is the complete hash with the key in the scratch buffer, and a length other than 28 -/
theorem stored_eq_hash_iff : stored b = hash sha1 pass user ↔ Complete sha1 pass user b := by
  have hdigits : (digits b).length = 26 := length_digits b
  have hkey := length_keyOf sha1 pass user
  have htake : (b.ktemp.toList.take 20).length = 20 := by simp
  have hhash : (base85 (keyOf sha1 pass user)).length = 26 := by
    rw [length_base85, hkey]
    decide
  unfold stored hash Complete
  rw [List.append_right_inj]
  by_cases h28 : b.res.length % 2 ^ 32 = 28
  · rw [if_pos h28]
    refine iff_of_false (fun h => ?_) fun h => h.2 h28
    have hlen := congrArg List.length h
    rw [List.length_dropLast, hdigits, hhash] at hlen
    omega
  · rw [if_neg h28, and_iff_left h28]
    constructor
    · exact base85_inj htake.le (htake.trans hkey.symm)
    · exact congrArg base85

end Stores

/-- **When a hash is whole.** For every SHA-1, password and user, and the buffers of two calls. -/
theorem hash_whole_iff (sha1 : List UInt8 → Vector UInt8 20) (pass user : List UInt8) (b b' : Buffers) :
    WholeOrNull sha1 pass user b b' ↔
      TooSmall b.res.length ∨
        (Complete sha1 pass user b ∧ (TooSmall b'.res.length ∨ Complete sha1 pass user b')) := by
  by_cases hsmall : TooSmall b.res.length
  · obtain ⟨out, hcall⟩ := grexhash_r_null sha1 pass user hsmall
    exact iff_of_true ⟨_, hcall, fun h => absurd h Bool.false_ne_true⟩ (Or.inl hsmall)
  obtain ⟨rest, hcall⟩ := grexhash_r_eq sha1 pass user hsmall
  rw [or_iff_right hsmall]
  constructor
  · intro hwhole
    obtain ⟨call, hcall', hok⟩ := hwhole
    rw [hcall] at hcall'
    injection hcall' with hcall'
    subst hcall'
    obtain ⟨⟨rest', hres⟩, hsame⟩ := hok rfl
    have hhash : stored b = hash sha1 pass user := by
      rw [← cstring_stored b rest, ← cstring_hash sha1 pass user rest']
      exact congrArg cstring hres
    refine ⟨(stored_eq_hash_iff ..).1 hhash, or_iff_not_imp_left.2 fun hlarge' => ?_⟩
    obtain ⟨rest', hcall'⟩ := grexhash_r_eq sha1 pass user hlarge'
    have hstr : cstring (stored b' ++ 0 :: rest') = cstring (stored b ++ 0 :: rest) := hsame _ hcall' rfl
    rw [cstring_stored, cstring_stored] at hstr
    exact (stored_eq_hash_iff ..).1 (hstr.trans hhash)
  · intro h
    obtain ⟨hb, hb'⟩ := h
    have hhash := (stored_eq_hash_iff ..).2 hb
    refine ⟨_, hcall, fun _ => ⟨⟨rest, congrArg (· ++ 0 :: rest) hhash⟩, fun call' hcall' hret => ?_⟩⟩
    by_cases hsmall' : TooSmall b'.res.length
    · -- the other call fails
      obtain ⟨out, hfail⟩ := grexhash_r_null sha1 pass user hsmall'
      rw [hfail] at hcall'
      injection hcall' with hcall'
      subst hcall'
      exact absurd hret Bool.false_ne_true
    · obtain ⟨rest', heq⟩ := grexhash_r_eq sha1 pass user hsmall'
      rw [hcall'] at heq
      injection heq with heq
      have hhash' := (stored_eq_hash_iff ..).2 (hb'.resolve_left hsmall')
      calc cstring call'.res = cstring (stored b' ++ 0 :: rest') := by rw [heq]; rfl
        _ = stored b := by rw [cstring_stored, hhash', hhash]
        _ = cstring (stored b ++ 0 :: rest) := (cstring_stored b rest).symm

/-- a digest of zeros -/
def zeros : List UInt8 → Vector UInt8 20 := fun _ => Vector.replicate 20 0

/-- a buffer of `n` bytes, and a scratch buffer with the key of zeros -/
def room (n : ℕ) : Buffers := ⟨List.replicate n 0xff, Vector.replicate 128 0⟩

/-- **A buffer of 28 bytes.** The call succeeds, with 25 of the 26 digits. -/
theorem hash_in_28 :
    grexhash_r zeros [0x70, 0x77] [0x6a, 0x6f, 0x65] (room 28) =
      some ⟨true, [0x25, 0x21] ++ List.replicate 25 0x21 ++ [0]⟩ ∧
    (room 28).ktemp.toList.take 20 = keyOf zeros [0x70, 0x77] [0x6a, 0x6f, 0x65] ∧
    ¬WholeOrNull zeros [0x70, 0x77] [0x6a, 0x6f, 0x65] (room 28) (room 29) := by
  have hcall : grexhash_r zeros [0x70, 0x77] [0x6a, 0x6f, 0x65] (room 28) =
      some ⟨true, [0x25, 0x21] ++ List.replicate 25 0x21 ++ [0]⟩ := by decide +kernel
  refine ⟨hcall, by decide, ?_⟩
  intro hwhole
  obtain ⟨call, hcall', hok⟩ := hwhole
  rw [hcall] at hcall'
  injection hcall' with hcall'
  subst hcall'
  obtain ⟨⟨rest, hres⟩, -⟩ := hok rfl
  have hcount := congrArg List.length hres
  have hdigits : hlen 20 = 26 := by decide
  simp only [hash, List.length_append, length_base85, length_keyOf, hdigits, List.length_cons, List.length_nil,
    List.length_replicate] at hcount
  omega

end MNetSoft.GrexHash
