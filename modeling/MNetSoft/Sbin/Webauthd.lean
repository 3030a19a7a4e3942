/-
The authentication daemon of the web server (`webauthd.c`): a request is read line by line, and the reply tells whether
the user and password of its `Authorization` line are right. Bytes are characters; the shadow file and `crypt` are
parameters.

- `process`: what the daemon writes for a request, with `chomp`, `strsep` and `decode`.
- `expected`: the reply that the header lines of the request call for.
- `process_iff`: exactly when the daemon writes that reply; and exactly when it does whatever the passwords are.
- `no_authorization`: a request without an answer.
-/
import Mathlib.Tactic
import MNetSoft.Core.CString
import MNetSoft.Core.Words

namespace MNetSoft.Webauthd

open MNetSoft.CString MNetSoft.Words

/-! ## Model -/

/-- what is outside the program -/
structure Passwords where
  /-- the password hash of a user -/
  getpwnam_shadow : Str → Option Str
  /-- `none` is NULL, as for a hash such as `*` -/
  crypt : Str → Str → Option Str

/-- cut a line at its newline and carriage return, and take white space off both ends -/
def chomp (line : Str) : Str := strip ((line.takeWhile (· ≠ '\n')).takeWhile (· ≠ '\r'))

def B64TAB : Str := "ABCDEFGHIJKLMNOPQRSTUVWXYZabcdefghijklmnopqrstuvwxyz0123456789+/".toList

/-- one byte of `v` -/
def octet (v shift : ℕ) : Char := Char.ofNat ((v >>> shift) &&& 0xFF)

/-- the loop of `decode`: the characters of a group so far, their number, the space left and the bytes written -/
def decodeLoop : Str → ℕ → ℕ → ℕ → Str → Option (ℕ × ℕ × ℕ × Str)
  | [], v, k, len, d => some (v, k, len, d)
  | c :: s, v, k, len, d =>
    if c = '=' ∨ ¬ len > 1 then some (v, k, len, d)
    else
      (B64TAB.idxOf? c).bind fun i =>
        let v := (v <<< 6) ||| i
        if k + 1 = 4 then
          if len ≤ 3 then none else decodeLoop s 0 0 (len - 3) (d ++ [octet v 16, octet v 8, octet v 0])
        else decodeLoop s v (k + 1) len d

/-- write one byte more, if it is wanted -/
def put (want : Bool) (c : Char) (q : ℕ × Str) : Option (ℕ × Str) :=
  if want then if q.1 ≤ 1 then none else some (q.1 - 1, q.2 ++ [c]) else some q

/-- base64, into a buffer of `len` bytes; the bytes before the final NUL -/
def decode (src : Str) (len : ℕ) : Option Str :=
  (decodeLoop src 0 0 len []).bind fun r =>
    let v := if r.2.1 ≠ 0 then r.1 <<< (6 * (4 - r.2.1)) else r.1
    let k := r.2.1
    (put (k ≥ 1) (octet v 16) r.2.2).bind fun q =>
      (put (k ≥ 2) (octet v 8) q).bind fun q =>
        (put (k = 3) (octet v 0) q).bind fun q => if q.1 < 1 then none else some q.2

/-- `none` if the child ends in `strcmp` with a null pointer -/
def authenticate (db : Passwords) (user pass : Str) : Option Bool :=
  match db.getpwnam_shadow user with
  | none => some false
  | some hash => (db.crypt pass hash).map fun hp => strcmp hp hash = 0

def AHEADER : Str := "Authorization:".toList

def BASIC : Str := "Basic".toList

def s200 : Str := "HTTP/1.1 200 OK\r\nConnection: close\r\n".toList

def s401 : Str :=
  ("HTTP/1.1 401 Unauthorized\r\nWWW-Authenticate: Basic realm=\"grex.org\"\r\nContent-Length: 0\r\n" ++
    "Connection: close\r\n").toList

def crnl : Str := "\r\n".toList

def reply200 (user : Str) : Str := s200 ++ "X-Username: ".toList ++ user ++ crnl ++ crnl

def reply401 : Str := s401 ++ crnl

/-- compare at most `n` characters, capital and small letters being the same -/
def strncasecmp (a b : Str) (n : ℕ) : ℤ := strcmp ((a.take n).map Char.toLower) ((b.take n).map Char.toLower)

/-- the delimiters of tokens -/
def isblank (c : Char) : Bool := c = ' ' ∨ c = '\t'

/-- the text up to the next delimiter, and what is behind it -/
def strsep : Option Str → Option (Str × Option Str)
  | none => none
  | some p =>
    some (p.takeWhile fun c => !isblank c,
      match p.dropWhile fun c => !isblank c with
      | [] => none
      | _ :: p => some p)

/-- the next `k` tokens that are not empty, `fuel` bounding the number of calls -/
def tokenLoop : ℕ → ℕ → Option Str → List Str
  | 0, _, _ => []
  | _ + 1, 0, _ => []
  | fuel + 1, k + 1, p =>
    match strsep p with
    | none => []
    | some (t, p) => if t = [] then tokenLoop fuel (k + 1) p else t :: tokenLoop fuel k p

/-- user and password, at the first colon -/
def splitUser (authdata : Str) : Option (Str × Str) :=
  if ':' ∈ authdata then some (authdata.takeWhile (· ≠ ':'), (authdata.dropWhile (· ≠ ':')).tail) else none

/-- user and password of an `Authorization` line, if the daemon makes them out -/
def credentials (p : Str) : Option (Str × Str) :=
  match tokenLoop (p.length + 2) 4 (some p) with
  | _ :: scheme :: cred :: _ =>
    if strncasecmp scheme BASIC 5 ≠ 0 then none
    else (decode cred 1024).bind fun authdata => splitUser (cstr authdata)
  | _ => none

/-- the reply for a user and password; a child that ends before writes nothing -/
def reply (db : Passwords) (c : Str × Str) : Str :=
  match authenticate db c.1 c.2 with
  | none => []
  | some true => reply200 c.1
  | some false => reply401

/-- what is written when these pieces are read -/
def serve (db : Passwords) : List Str → Str
  | [] => []
  | line :: rest =>
    let p := chomp (cstr line)
    if p = [] then []
    else if strncasecmp p AHEADER 14 ≠ 0 then serve db rest
    else
      match credentials p with
      | none => []
      | some c => reply db c

/-- what the daemon writes for a request; lines are read in pieces of 1023 bytes at most -/
def process (db : Passwords) (request : Str) : Str := serve db (fgetsAll 1024 request)

/-! ## The reply called for -/

/-- the words of a text -/
def words (s : Str) : List Str := (s.splitOnP isblank).filter (· ≠ [])

/-- a line without the carriage return at its end -/
def dropCR (l : Str) : Str := if l.getLast? = some '\r' then l.dropLast else l

/-- the header lines, up to the first empty line -/
def headerLines (request : Str) : List Str := ((splitLines request).map dropCR).takeWhile (· ≠ [])

/-- the line is named `Authorization` -/
def isAuthorization (l : Str) : Bool :=
  ':' ∈ l ∧ (l.takeWhile (· ≠ ':')).map Char.toLower = "authorization".toList

/-- user and password of a header line of scheme `Basic` -/
def lineCredentials (l : Str) : Option (Str × Str) :=
  match words (l.dropWhile (· ≠ ':')).tail with
  | scheme :: cred :: _ =>
    if scheme.map Char.toLower = "basic".toList then
      (decode cred (cred.length + 4)).bind fun authdata => splitUser (cstr authdata)
    else none
  | _ => none

/-- user and password of a request -/
def requestCredentials (request : Str) : Option (Str × Str) :=
  ((headerLines request).find? isAuthorization).bind lineCredentials

/-- the reply that a request calls for -/
def expected (db : Passwords) (request : Str) : Str :=
  match requestCredentials request with
  | none => reply401
  | some c => if authenticate db c.1 c.2 = some true then reply200 c.1 else reply401

/-! ## Tokens -/

/-- the loop finds the first words -/
theorem tokenLoop_eq (fuel k : ℕ) {p : Str} (hfuel : p.length + 2 ≤ fuel) :
    tokenLoop fuel k (some p) = (words p).take k := by
  induction fuel generalizing k p with
  | zero => omega
  | succ fuel ih =>
    cases k with
    | zero => rw [tokenLoop, List.take_zero]
    | succ k =>
      unfold words
      rw [tokenLoop, strsep, splitOnP_takeWhile]
      have hlen := (List.dropWhile_sublist (fun c => !isblank c) (l := p)).length_le
      cases hrest : p.dropWhile fun c => !isblank c with
      | nil =>
        have hnone : ∀ k, tokenLoop fuel k none = [] := by
          intro k
          obtain ⟨fuel, rfl⟩ : ∃ n, fuel = n + 1 := ⟨fuel - 1, by omega⟩
          cases k with
          | zero => rfl
          | succ k => rfl
        dsimp only
        rw [hnone, hnone]
        by_cases ht : (p.takeWhile fun c => !isblank c) = []
        · rw [if_pos ht, ht]
          rfl
        · rw [if_neg ht, List.filter_cons_of_pos (by simpa using ht), List.filter_nil,
            List.take_succ_cons, List.take_nil]
      | cons c rest =>
        rw [hrest, List.length_cons] at hlen
        have hih : ∀ k, tokenLoop fuel k (some rest) = (words rest).take k := fun k => ih k (by omega)
        dsimp only
        rw [hih, hih]
        by_cases ht : (p.takeWhile fun c => !isblank c) = []
        · rw [if_pos ht, ht, List.filter_cons_of_neg (by simp)]
          rfl
        · rw [if_neg ht, List.filter_cons_of_pos (by simpa using ht), List.take_succ_cons]
          rfl

/-- user and password of a line by its words: the second begins with the scheme, the third has them encoded -/
def wordCredentials (p : Str) : Option (Str × Str) :=
  match words p with
  | _ :: scheme :: cred :: _ =>
    if strncasecmp scheme BASIC 5 ≠ 0 then none
    else (decode cred 1024).bind fun authdata => splitUser (cstr authdata)
  | _ => none

theorem credentials_eq (p : Str) : credentials p = wordCredentials p := by
  unfold credentials wordCredentials
  rw [tokenLoop_eq _ _ le_rfl]
  cases words p with
  | nil => rfl
  | cons a l =>
    cases l with
    | nil => rfl
    | cons b l =>
      cases l with
      | nil => rfl
      | cons c l => rfl

/-! ## Requests -/

/-- the daemon does not read on after this piece -/
def stops (line : Str) : Bool := chomp (cstr line) = [] ∨ strncasecmp (chomp (cstr line)) AHEADER 14 = 0

/-- user and password of the first piece that stops the daemon -/
def pieceCredentials (request : Str) : Option (Str × Str) :=
  ((fgetsAll 1024 request).find? stops).bind fun line => wordCredentials (chomp (cstr line))

theorem serve_eq (db : Passwords) (lines : List Str) :
    serve db lines =
      match (lines.find? stops).bind fun line => wordCredentials (chomp (cstr line)) with
      | none => []
      | some c => reply db c := by
  induction lines with
  | nil => rfl
  | cons line lines ih =>
    rw [serve, List.find?_cons]
    by_cases hblank : chomp (cstr line) = []
    · have hstops : stops line = true := by simp [stops, hblank]
      have hnone : wordCredentials [] = none := rfl
      simp only [hblank, hstops, if_true, Option.bind_some, hnone]
    · by_cases hname : strncasecmp (chomp (cstr line)) AHEADER 14 = 0
      · have hstops : stops line = true := by simp [stops, hname]
        simp only [hblank, hname, hstops, if_false, ne_eq, not_true_eq_false, Option.bind_some, credentials_eq]
      · have hstops : stops line = false := by simp [stops, hblank, hname]
        simp only [hblank, hname, hstops, if_false, ne_eq, not_false_eq_true, if_true]
        exact ih

theorem process_eq (db : Passwords) (request : Str) :
    process db request =
      match pieceCredentials request with
      | none => []
      | some c => reply db c :=
  serve_eq db _

/-! ### Replies -/

theorem reply200_inj {u v : Str} (h : reply200 u = reply200 v) : u = v := by
  unfold reply200 at h
  exact List.append_cancel_left (List.append_cancel_right (List.append_cancel_right h))

theorem getElem?_append_of_some {l l' : Str} {i : ℕ} {c : Char} (h : l[i]? = some c) : (l ++ l')[i]? = some c := by
  rw [List.getElem?_append_left (List.getElem?_eq_some_iff.1 h).1]
  exact h

/-- the status begins at the tenth character -/
theorem s200_tenth : s200[9]? = some '2' := by
  unfold s200
  rw [String.toList_ofList]
  rfl

theorem s401_tenth : s401[9]? = some '4' := by
  unfold s401
  rw [String.toList_append, String.toList_ofList]
  rfl

theorem reply200_tenth (u : Str) : (reply200 u)[9]? = some '2' := by
  unfold reply200
  simp only [List.append_assoc]
  exact getElem?_append_of_some s200_tenth

theorem reply401_tenth : reply401[9]? = some '4' :=
  getElem?_append_of_some s401_tenth

theorem reply200_ne_reply401 (u : Str) : reply200 u ≠ reply401 := by
  intro h
  have htenth := reply200_tenth u
  rw [h, reply401_tenth] at htenth
  cases htenth

theorem reply401_ne_nil : reply401 ≠ [] := by
  intro h
  have htenth := reply401_tenth
  rw [h] at htenth
  cases htenth

theorem reply200_ne_nil (u : Str) : reply200 u ≠ [] := by
  intro h
  have htenth := reply200_tenth u
  rw [h] at htenth
  cases htenth

theorem expected_ne_nil (db : Passwords) (request : Str) : expected db request ≠ [] := by
  unfold expected
  split
  · exact reply401_ne_nil
  · split_ifs
    · exact reply200_ne_nil _
    · exact reply401_ne_nil

/-- a user and password get the reply that those of the request call for: the same user is let in, or none, and `crypt`
does not fail -/
def SameReply (db : Passwords) (c : Str × Str) (c' : Option (Str × Str)) : Prop :=
  match authenticate db c.1 c.2 with
  | none => False
  | some true => ∃ pass, c' = some (c.1, pass) ∧ authenticate db c.1 pass = some true
  | some false => ∀ d, c' = some d → authenticate db d.1 d.2 ≠ some true

theorem reply_eq_expected_iff (db : Passwords) (c : Str × Str) (request : Str) :
    reply db c = expected db request ↔ SameReply db c (requestCredentials request) := by
  unfold SameReply
  cases hc : authenticate db c.1 c.2 with
  | none =>
    rw [reply, hc]
    exact iff_of_false (expected_ne_nil db request).symm id
  | some ok =>
    rw [reply, hc, expected]
    cases ok with
    | true =>
      cases hr : requestCredentials request with
      | none => exact iff_of_false (reply200_ne_reply401 _) (by simp)
      | some d =>
        obtain ⟨user, pass⟩ := d
        dsimp only
        by_cases hd : authenticate db user pass = some true
        · rw [if_pos hd]
          constructor
          · intro h
            obtain rfl := reply200_inj h
            exact ⟨pass, rfl, hd⟩
          · intro hx
            rcases hx with ⟨pass', h, -⟩
            cases h
            rfl
        · rw [if_neg hd]
          refine iff_of_false (reply200_ne_reply401 _) ?_
          intro hx
          rcases hx with ⟨pass', h, hauth⟩
          cases h
          exact hd hauth
    | false =>
      cases hr : requestCredentials request with
      | none => exact iff_of_true rfl fun d h => by cases h
      | some d =>
        dsimp only
        by_cases hd : authenticate db d.1 d.2 = some true
        · rw [if_pos hd]
          exact iff_of_false (reply200_ne_reply401 _).symm fun h => h d rfl hd
        · rw [if_neg hd]
          refine iff_of_true rfl fun d' h => ?_
          cases h
          exact hd

/-- the daemon writes the reply called for -/
theorem process_eq_expected_iff (db : Passwords) (request : Str) :
    process db request = expected db request ↔
      ∃ c, pieceCredentials request = some c ∧ SameReply db c (requestCredentials request) := by
  rw [process_eq]
  cases hc : pieceCredentials request with
  | none => exact iff_of_false (expected_ne_nil db request).symm (by simp)
  | some c =>
    constructor
    · exact fun h => ⟨c, rfl, (reply_eq_expected_iff ..).1 h⟩
    · intro hx
      rcases hx with ⟨c', hc', h⟩
      cases hc'
      exact (reply_eq_expected_iff ..).2 h

/-- `crypt` never returns NULL -/
def Passwords.Crypts (db : Passwords) : Prop := ∀ pass hash, (db.crypt pass hash).isSome

theorem authenticate_isSome {db : Passwords} (h : db.Crypts) (user pass : Str) :
    (authenticate db user pass).isSome := by
  unfold authenticate
  cases db.getpwnam_shadow user with
  | none => rfl
  | some hash => rw [Option.isSome_map]; exact h pass hash

/-- a shadow file that knows one user and password only -/
def onlyUser (c : Str × Str) : Passwords where
  getpwnam_shadow user := if user = c.1 then some ['h'] else none
  crypt pass hash := some (if pass = c.2 then hash else [])

theorem crypts_onlyUser (c : Str × Str) : (onlyUser c).Crypts := fun _ _ => rfl

theorem authenticate_onlyUser (c d : Str × Str) : authenticate (onlyUser c) d.1 d.2 = some (decide (d = c)) := by
  unfold authenticate onlyUser
  dsimp only
  by_cases h₁ : d.1 = c.1
  · rw [if_pos h₁]
    dsimp only [Option.map_some]
    refine congrArg some (decide_eq_decide.2 ?_)
    rw [strcmp_zero]
    by_cases h₂ : d.2 = c.2
    · rw [if_pos h₂]
      exact iff_of_true rfl (Prod.ext h₁ h₂)
    · rw [if_neg h₂]
      exact iff_of_false (by simp) fun h => h₂ (congrArg Prod.snd h)
  · rw [if_neg h₁, decide_eq_false fun h => h₁ (congrArg Prod.fst h)]

/-! ## Main result -/

/-- **When a request is answered right.** The daemon writes the reply called for if and only if it makes out a user and
password, from the first piece that is blank or begins with `Authorization:`, for which `crypt` does not fail and which
get the reply that those of the first header line of that name call for; and whatever the passwords are, with a `crypt`
that never fails, if and only if they are the same. -/
theorem process_iff (request : Str) :
    (∀ db, process db request = expected db request ↔
      ∃ c, pieceCredentials request = some c ∧ SameReply db c (requestCredentials request)) ∧
    ((∀ db : Passwords, db.Crypts → process db request = expected db request) ↔
      ∃ c, pieceCredentials request = some c ∧ requestCredentials request = some c) := by
  refine ⟨fun db => process_eq_expected_iff db request, fun h => ?_, ?_⟩
  · have hright := fun c => (process_eq_expected_iff (onlyUser c) request).1 (h _ (crypts_onlyUser c))
    obtain ⟨c, hc, -⟩ := hright ([], [])
    obtain ⟨c', hc', hsame⟩ := hright c
    rw [hc] at hc'
    cases hc'
    have hauth : authenticate (onlyUser c) c.1 c.2 = some true := by
      rw [authenticate_onlyUser, decide_eq_true rfl]
    rw [SameReply, hauth] at hsame
    obtain ⟨pass, hreq, hpass⟩ := hsame
    have heq := authenticate_onlyUser c (c.1, pass)
    dsimp only at heq
    rw [heq] at hpass
    rw [of_decide_eq_true (Option.some.inj hpass)] at hreq
    exact ⟨c, hc, hreq⟩
  · intro hx db hdb
    rcases hx with ⟨c, hc, hreq⟩
    rw [process_eq_expected_iff]
    refine ⟨c, hc, ?_⟩
    have hsome := authenticate_isSome hdb c.1 c.2
    unfold SameReply
    rw [hreq]
    cases hauth : authenticate db c.1 c.2 with
    | none =>
      rw [hauth] at hsome
      cases hsome
    | some ok =>
      cases ok with
      | true => exact ⟨c.2, rfl, hauth⟩
      | false =>
        intro d hd
        cases hd
        rw [hauth]
        simp

/-- a request without an `Authorization` line gets no answer -/
theorem no_authorization :
    process (onlyUser ("joe".toList, "pw".toList)) "Host: grex\r\n\r\n".toList = [] ∧
      expected (onlyUser ("joe".toList, "pw".toList)) "Host: grex\r\n\r\n".toList = reply401 ∧ reply401 ≠ [] := by
  refine ⟨by decide, ?_, reply401_ne_nil⟩
  have hnone : requestCredentials "Host: grex\r\n\r\n".toList = none := by decide
  rw [expected, hnone]

/-- a scheme that begins with `Basic` is taken for it -/
example :
    pieceCredentials "Authorization: Basicx am9lOnB3\r\n\r\n".toList = some (['j', 'o', 'e'], ['p', 'w']) ∧
      requestCredentials "Authorization: Basicx am9lOnB3\r\n\r\n".toList = none := by
  decide

end MNetSoft.Webauthd
