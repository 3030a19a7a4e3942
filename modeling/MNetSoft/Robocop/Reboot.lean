/-
The remote commands of robocop (`reboot.c`): a client sends a command, gets a challenge and answers with the hexadecimal
digest of it under the key in `/root/.robokey`. The hash function `sha` is a parameter; the client is a stream of pieces
and a plan of what the connection takes (`Wire.lean`). What a command does is left to its name.

- `exchange_of_frames`: a client that sends two short strings gets them to the server.
- `doroboserver_accepted`: a command is run exactly if the response is the digest under the key blocks.
- `authentic_iff`: that a key had to be read first is so exactly if one was, or the client does not answer with the
  digest under the zero blocks that are there without one.
-/
import Mathlib.Tactic
import MNetSoft.Robocop.Tables
import MNetSoft.Robocop.Wire

namespace MNetSoft.Robocop

open MNetSoft.CString MNetSoft.Numerals

/-! ## Model -/

def SHA256_BLOCK_LENGTH : ℕ := 64

def MAXSTRLEN : ℕ := 2 * SHA256_BLOCK_LENGTH + 1

/-! ### The key -/

/-- what `getrobokey` finds -/
inductive KeyFile where
  /-- `open` fails -/
  | missing
  /-- `read` fails -/
  | unreadable
  /-- `read` gives these bytes, none at the end of the file -/
  | bytes (b : List (BitVec 8))

/-- some bytes of a key were read -/
def KeyFile.Read (f : KeyFile) : Prop := ∃ b, b ≠ [] ∧ f = .bytes b

/-- the key blocks `roboikey` and `robookey` -/
structure Keys where
  ikey : List (BitVec 8)
  okey : List (BitVec 8)

def noKeys : Keys := ⟨List.replicate SHA256_BLOCK_LENGTH 0, List.replicate SHA256_BLOCK_LENGTH 0⟩

/-- fold the two halves of the raw key together and pad them -/
def setrobokey (rawkey : List (BitVec 8)) : Keys :=
  let key := List.zipWith (· ^^^ ·) (rawkey.take SHA256_BLOCK_LENGTH)
    ((rawkey.drop SHA256_BLOCK_LENGTH).take SHA256_BLOCK_LENGTH)
  ⟨key.map (· ^^^ 0x5c), key.map (· ^^^ 0x36)⟩

/-- put a NUL in place of the first newline of the string in a buffer; what comes after it stays -/
def cutNewline : List (BitVec 8) → List (BitVec 8)
  | [] => []
  | b :: l => if b = 0 then b :: l else if b = 10 then 0 :: l else b :: cutNewline l

/-- read the key, or leave the key blocks zero -/
def getrobokey : KeyFile → Keys
  | .missing => noKeys
  | .unreadable => noKeys
  | .bytes b =>
    if b = [] then noKeys
    else
      let b := b.take (MAXSTRLEN - 1)
      setrobokey (cutNewline (b ++ List.replicate (MAXSTRLEN - b.length) 0))

/-! ### Challenge and response -/

/-- `%08lx` of a word -/
def hexWord (w : BitVec 32) : Str := (Nat.toDigits 16 w.toNat).leftpad 8 '0'

/-- eight random words in hexadecimal -/
def genchallenge (chal : Fin 8 → BitVec 32) : Str := (List.ofFn chal).flatMap hexWord

/-- a digest in hexadecimal -/
def hexBytes (d : List (BitVec 8)) : Str :=
  d.flatMap fun b => [Nat.digitChar (b.toNat / 16), Nat.digitChar (b.toNat % 16)]

section Sha

variable (sha : List (BitVec 8) → List (BitVec 8))

/-- the digest of the challenge, which is hashed with all of its buffer but the last byte -/
def genresponse (keys : Keys) (challenge : Str) : Str :=
  let buf := chars challenge ++ List.replicate (MAXSTRLEN - 1 - challenge.length) 0
  hexBytes (sha (keys.okey ++ sha (keys.ikey ++ buf)))

def checkresponse (keys : Keys) (challenge response : Str) : ℤ :=
  if strncmp ['r', '='] response 2 ≠ 0 then -1
  else if strcmp (genresponse sha keys challenge) (response.drop 2) ≠ 0 then -1
  else 1

/-! ### The server -/

/-- `nprint`, the formatted string being `s` -/
def nprint (s : Str) (k : Sink) : ℤ × Sink := if s.length ≥ 128 then (-1, k) else nswrite s k

/-- what is left of the connection after a write that went well -/
def wrote (r : ℤ × Sink) : Option Sink := if r.1 < 0 then none else some r.2

/-- the string read into a buffer of `size` bytes, if that went well, and the rest of the stream -/
def received (size : ℕ) (s : Stream) : Option (Str × Stream) :=
  match nread (List.replicate size '\x00') s with
  | some (some buf, s) => some (cstr buf, s)
  | _ => none

/-- greet the client, read a command, send the challenge, read the response -/
def exchange (challenge : Str) (k : Sink) (s : Stream) : Option (Str × Str) :=
  (wrote (nprint [] k)).bind fun k =>
    (received 120 s).bind fun cmd =>
      (wrote (nprint (['c', '='] ++ challenge) k)).bind fun _ =>
        (received (MAXSTRLEN + 2) cmd.2).map fun response => (cmd.1, response.1)

/-- what a client can have done -/
inductive Command where
  | printwho
  | restartrobo
  | quitrobo
  | doreboot
  | printprocs
  | printandreboot
  | kickrobo
deriving DecidableEq, Repr

/-- the commands run for a command string -/
def commands (cmd : Str) : List Command :=
  [(['w'], Command.printwho), (['s'], .restartrobo), (['Q'], .quitrobo), (['r'], .doreboot), (['p'], .printprocs),
    (['p', 'r'], .printandreboot), (['a'], .kickrobo)].filterMap fun c => if cmd = c.1 then some c.2 else none

/-- how a connection ends -/
inductive Outcome where
  /-- reading or writing failed -/
  | gone
  /-- the response was wrong -/
  | rejected
  /-- the response was right, and these commands were run -/
  | accepted (done : List Command)
deriving DecidableEq, Repr

def doroboserver (keys : Keys) (chal : Fin 8 → BitVec 32) (k : Sink) (s : Stream) : Outcome :=
  match exchange (genchallenge chal) k s with
  | none => .gone
  | some m =>
    if checkresponse sha keys (genchallenge chal) m.2 < 0 then .rejected else .accepted (commands m.1)

/-! ## The exchange -/

variable {sha}

theorem wrote_nprint {m : Str} (hm : m.length < 128) {k : Sink} (hk : none ∉ k.plan) :
    ∃ k', wrote (nprint m k) = some k' ∧ none ∉ k'.plan := by
  obtain ⟨p, hp, hplan⟩ := nswrite_spec (m := m) (by omega) hk
  exact ⟨_, by rw [nprint, if_neg (by omega), hp]; rfl, hplan⟩

theorem received_frame {m t : Str} (hnul : '\x00' ∉ m) {size : ℕ} (hm : m.length < size) (hsize : size < 2 ^ 31)
    {s : Stream} (h : Delivers s (frame m ++ t)) : ∃ s', received size s = some (m, s') ∧ Delivers s' t := by
  have hbuf : m.length < (List.replicate size '\x00').length := by simpa using hm
  obtain ⟨buf, s', hread, rfl, hs'⟩ := nread_message hnul hbuf (by simpa using hsize) h
  exact ⟨s', by rw [received, hread], hs'⟩

theorem exchange_of_frames {cmd response challenge : Str} (hcmd : '\x00' ∉ cmd) (hlen : cmd.length < 120)
    (hresponse : '\x00' ∉ response) (hlen' : response.length < MAXSTRLEN + 2)
    (hchal : challenge.length < 126) {k : Sink}
    (hk : none ∉ k.plan) {s : Stream} (h : Delivers s (frame cmd ++ frame response)) :
    exchange challenge k s = some (cmd, response) := by
  obtain ⟨k₁, hk₁, hplan⟩ := wrote_nprint (m := []) (by simp) hk
  obtain ⟨s₁, hs₁, hrest⟩ := received_frame hcmd hlen (by norm_num) h
  obtain ⟨k₂, hk₂, -⟩ := wrote_nprint (m := ['c', '='] ++ challenge) (by simp; omega) hplan
  rw [← List.append_nil (frame response)] at hrest
  obtain ⟨s₂, hs₂, -⟩ := received_frame hresponse hlen' (by norm_num [MAXSTRLEN, SHA256_BLOCK_LENGTH]) hrest
  rw [exchange, hk₁, Option.bind_some, hs₁, Option.bind_some, hk₂, Option.bind_some, hs₂, Option.map_some]

variable (sha)

/-! ## The check -/

theorem checkresponse_neg (keys : Keys) (challenge response : Str) :
    checkresponse sha keys challenge response < 0 ↔ response ≠ ['r', '='] ++ genresponse sha keys challenge := by
  simp only [checkresponse, strncmp, ne_eq, strcmp_zero, ite_not]
  have hsplit : response = response.take 2 ++ response.drop 2 := (List.take_append_drop 2 response).symm
  split_ifs with hr hdigest
  · have hresponse : response = ['r', '='] ++ genresponse sha keys challenge := by
      rw [hsplit, ← hr, ← hdigest]
      rfl
    constructor
    · intro hneg
      omega
    · intro hne
      exact absurd hresponse hne
  · simp only [Int.reduceNeg, Int.neg_neg_iff_pos, zero_lt_one, true_iff]
    rintro rfl
    exact hdigest rfl
  · simp only [Int.reduceNeg, Int.neg_neg_iff_pos, zero_lt_one, true_iff]
    rintro rfl
    exact hr rfl

theorem doroboserver_accepted (keys : Keys) (chal : Fin 8 → BitVec 32) (k : Sink) (s : Stream) (done : List Command) :
    doroboserver sha keys chal k s = .accepted done ↔
      ∃ cmd, exchange (genchallenge chal) k s = some (cmd, ['r', '='] ++ genresponse sha keys (genchallenge chal)) ∧
        done = commands cmd := by
  unfold doroboserver
  cases h : exchange (genchallenge chal) k s with
  | none => simp
  | some m =>
    obtain ⟨cmd, response⟩ := m
    dsimp only
    split_ifs with hneg
    · rw [checkresponse_neg] at hneg
      simp only [false_iff, not_exists, not_and, Option.some.injEq, Prod.mk.injEq]
      intro _ hresponse
      exact absurd hresponse.2 hneg
    · rw [checkresponse_neg, not_not] at hneg
      subst hneg
      constructor
      · intro hdone
        cases hdone
        exact ⟨cmd, rfl, rfl⟩
      · intro hx
        rcases hx with ⟨cmd', hcmd, rfl⟩
        cases hcmd
        rfl

theorem getrobokey_not_read {f : KeyFile} (h : ¬ f.Read) : getrobokey f = noKeys := by
  cases f with
  | missing => rfl
  | unreadable => rfl
  | bytes b =>
    have hb : b = [] := by
      by_contra hb
      exact h ⟨b, hb, rfl⟩
    rw [getrobokey, if_pos hb]

/-! ## Authentication -/

/-- A command is run only if a key was read and the response is the digest under it; without a key every response is
rejected. -/
def Authentic (f : KeyFile) (chal : Fin 8 → BitVec 32) (k : Sink) (s : Stream) : Prop :=
  (∀ done, doroboserver sha (getrobokey f) chal k s = .accepted done → done ≠ [] → f.Read ∧
    ∃ cmd, exchange (genchallenge chal) k s =
      some (cmd, ['r', '='] ++ genresponse sha (getrobokey f) (genchallenge chal))) ∧
  (¬ f.Read → ∀ done, doroboserver sha (getrobokey f) chal k s ≠ .accepted done)

/-- **Authentication.** It is so exactly if a key was read or the client's second string is not the digest of the
challenge under zero blocks. -/
theorem authentic_iff (f : KeyFile) (chal : Fin 8 → BitVec 32) (k : Sink) (s : Stream) :
    Authentic sha f chal k s ↔
      f.Read ∨ ∀ cmd, exchange (genchallenge chal) k s ≠
        some (cmd, ['r', '='] ++ genresponse sha noKeys (genchallenge chal)) := by
  constructor
  · intro h
    rw [or_iff_not_imp_left]
    intro hf cmd hcmd
    apply h.2 hf (commands cmd)
    rw [doroboserver_accepted, getrobokey_not_read hf]
    exact ⟨cmd, hcmd, rfl⟩
  · intro h
    constructor
    · intro done hdone _
      obtain ⟨cmd, hcmd, -⟩ := (doroboserver_accepted sha _ _ _ _ _).1 hdone
      refine ⟨?_, cmd, hcmd⟩
      by_contra hf
      rw [getrobokey_not_read hf] at hcmd
      exact h.resolve_left hf cmd hcmd
    · intro hf done hdone
      obtain ⟨cmd, hcmd, -⟩ := (doroboserver_accepted sha _ _ _ _ _).1 hdone
      rw [getrobokey_not_read hf] at hcmd
      exact h.resolve_left hf cmd hcmd

end Sha

/-- without a key file a client that answers with the digest under the zero blocks reboots the machine -/
theorem reboot_without_key :
    let sha := fun _ : List (BitVec 8) => List.replicate 32 (0 : BitVec 8)
    let s : Stream := [frame ['r'] ++ frame (['r', '='] ++ List.replicate 64 '0')]
    doroboserver sha (getrobokey .missing) (fun _ => 0) ⟨[], []⟩ s = .accepted [.doreboot] ∧
      ¬ Authentic sha .missing (fun _ => 0) ⟨[], []⟩ s := by
  intro sha s
  have hdigest : genresponse sha noKeys (genchallenge fun _ => 0) = List.replicate 64 '0' := by decide
  have hexchange : exchange (genchallenge fun _ => 0) ⟨[], []⟩ s = some (['r'], ['r', '='] ++ List.replicate 64 '0') :=
    exchange_of_frames (by decide) (by decide) (by decide) (by decide) (by decide) (by simp) ⟨by decide, by simp [s]⟩
  have hserver : doroboserver sha (getrobokey .missing) (fun _ => 0) ⟨[], []⟩ s = .accepted [.doreboot] := by
    rw [doroboserver_accepted]
    exact ⟨['r'], by rw [hexchange, getrobokey, hdigest], by decide⟩
  constructor
  · exact hserver
  · intro h
    exact h.2 (by rintro ⟨b, -, hb⟩; cases hb) _ hserver

end MNetSoft.Robocop
