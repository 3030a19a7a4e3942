/-
The sum file of a conference in `bbsread` (`sum.c`): a header of 20 bytes and one `struct sume` for each item, of 24
bytes where a long has eight. A file is its bytes; a record whose response count and date are both zero is that of a
missing item. `offset_of` and `items_in` compute in 64-bit `size_t`.

- `forward_calls`, `backward_calls`: what the calls of `next_item` and of `prev_item` return, to the last one.
- `purge_iff`: the forward scan marks the missing items before the last real one, so the marks are right exactly if the
  participation list has no unmarked entry of a missing item after it.
- `not_agree`: `last_no` is never the number of records of a file, and the backward scan leaves the last one out.
-/
import Mathlib.Tactic
import MNetSoft.Bbsread.Part

namespace MNetSoft.Bbsread

/-! ## Model -/

structure Sume where
  flags : BitVec 32
  resp_no : BitVec 32
  resp_date : BitVec 64
  item_date : BitVec 64
deriving DecidableEq, Repr

/-- the size of `struct sume` -/
def sumeSize : ℕ := 24

def HEADSIZE : ℕ := 20

/-- the value of bytes, the lowest first -/
def littleEndian : List (BitVec 8) → ℕ
  | [] => 0
  | b :: l => b.toNat + 256 * littleEndian l

/-- the structure in 24 bytes -/
def Sume.ofBytes (b : List (BitVec 8)) : Sume where
  flags := BitVec.ofNat 32 (littleEndian (b.take 4))
  resp_no := BitVec.ofNat 32 (littleEndian ((b.drop 4).take 4))
  resp_date := BitVec.ofNat 64 (littleEndian ((b.drop 8).take 8))
  item_date := BitVec.ofNat 64 (littleEndian ((b.drop 16).take 8))

/-- the item is not missing -/
def Sume.Real (sum : Sume) : Prop := sum.resp_no ≠ 0 ∨ sum.resp_date ≠ 0

instance (sum : Sume) : Decidable sum.Real := inferInstanceAs (Decidable (_ ∨ _))

abbrev File := List (BitVec 8)

/-- a `size_t` product, as the long that `fseek` takes -/
def offset_of (n : ℤ) : ℤ := (BitVec.ofNat 64 sumeSize * BitVec.ofInt 64 (n - 1) + BitVec.ofNat 64 HEADSIZE).toInt

/-- a `size_t` quotient -/
def items_in (n : BitVec 64) : BitVec 64 :=
  (n - 2 * BitVec.ofNat 64 sumeSize + BitVec.ofNat 64 HEADSIZE) / BitVec.ofNat 64 sumeSize

/-- the quotient, stored in an int -/
def last_no (file : File) : ℤ := ((items_in (BitVec.ofNat 64 file.length)).truncate 32).toInt

/-- the position in the sum file, `sum_item` and the participation list -/
structure Scan where
  pos : ℕ
  sum_item : ℤ
  pf : Pf

/-- the structure at a position, if there are enough bytes -/
def fread (file : File) (pos : ℕ) : Option Sume :=
  if pos + sumeSize ≤ file.length then some (Sume.ofBytes ((file.drop pos).take sumeSize)) else none

/-- where `fseek` goes; it fails for a negative offset -/
def fseek (offset : ℤ) (pos : ℕ) : ℕ := if offset < 0 then pos else offset.toNat

def seek_item (file : File) (item_no : ℤ) (s : Scan) : Scan :=
  let item := if item_no = -1 then last_no file else item_no
  { s with sum_item := item, pos := fseek (offset_of item) s.pos }

/-- the loop of `next_item`: the item and its response count, or nothing at the end of the file -/
def nextLoop (file : File) (start_item : ℤ) (s : Scan) : Option (ℤ × ℤ) × Scan :=
  match _h : fread file s.pos with
  | none => (none, { s with pf := if s.sum_item ≠ start_item then lost_items start_item (-1) s.pf else s.pf })
  | some sum =>
    if sum.Real then
      (some (s.sum_item, sum.resp_no.toInt),
        { pos := s.pos + sumeSize
          sum_item := s.sum_item + 1
          pf := if s.sum_item ≠ start_item then lost_items start_item (s.sum_item - 1) s.pf else s.pf })
    else nextLoop file start_item { s with pos := s.pos + sumeSize, sum_item := s.sum_item + 1 }
termination_by file.length - s.pos
decreasing_by
  unfold fread at _h
  split_ifs at _h
  simp only [sumeSize] at *
  omega

def next_item (file : File) (s : Scan) : Option (Option (ℤ × ℤ) × Scan) := some (nextLoop file s.sum_item s)

/-- the loop of `prev_item`; `none` when it exits -/
def prevLoop (file : File) (start_item : ℤ) (s : Scan) : Option (Option (ℤ × ℤ) × Scan) :=
  if _h : s.sum_item > 0 then
    match fread file s.pos with
    | none => none
    | some sum =>
      if sum.Real then
        some (some (s.sum_item, sum.resp_no.toInt),
          { pos :=
              if s.sum_item - 1 > 0 then fseek (offset_of (s.sum_item - 1)) (s.pos + sumeSize) else s.pos + sumeSize
            sum_item := s.sum_item - 1
            pf := if s.sum_item ≠ start_item then lost_items (s.sum_item + 1) start_item s.pf else s.pf })
      else
        prevLoop file start_item
          { s with sum_item := s.sum_item - 1, pos := fseek (offset_of (s.sum_item - 1)) (s.pos + sumeSize) }
  else some (none, { s with pf := if s.sum_item ≠ start_item then lost_items 1 start_item s.pf else s.pf })
termination_by s.sum_item.toNat
decreasing_by omega

def prev_item (file : File) (s : Scan) : Option (Option (ℤ × ℤ) × Scan) := prevLoop file s.sum_item s

/-- what a call returned, and the calls of `next` after it to the one that returns 1: the pairs, and the last state -/
inductive Calls (next : Scan → Option (Option (ℤ × ℤ) × Scan)) :
    Option (Option (ℤ × ℤ) × Scan) → List (ℤ × ℤ) → Scan → Prop
  | done {s} : Calls next (some (none, s)) [] s
  | more {s s' p ps} (h : Calls next (next s) ps s') : Calls next (some (some p, s)) (p :: ps) s'

/-! ## The records -/

/-- the record at index `i` -/
def record (file : File) (i : ℕ) : Sume := Sume.ofBytes ((file.drop (HEADSIZE + sumeSize * i)).take sumeSize)

/-- the records of a file; the first is that of item 1 -/
def records (file : File) : List Sume := (List.range ((file.length - HEADSIZE) / sumeSize)).map (record file)

theorem length_records (file : File) : (records file).length = (file.length - HEADSIZE) / sumeSize := by
  rw [records, List.length_map, List.length_range]

/-- reading at a record gives it, and past the last one nothing -/
theorem fread_record (file : File) (i : ℕ) : fread file (HEADSIZE + sumeSize * i) = (records file)[i]? := by
  have hiff : HEADSIZE + sumeSize * i + sumeSize ≤ file.length ↔ i < (file.length - HEADSIZE) / sumeSize := by
    simp only [HEADSIZE, sumeSize]
    omega
  rw [fread]
  split_ifs with h
  · have hi := hiff.1 h
    simp [records, record, hi]
  · rw [hiff] at h
    simp [records, h]

/-- the real items of records numbered from `n` on, with their response counts -/
def reals : ℤ → List Sume → List (ℤ × ℤ)
  | _, [] => []
  | n, sum :: l => if sum.Real then (n, sum.resp_no.toInt) :: reals (n + 1) l else reals (n + 1) l

theorem reals_append (n : ℤ) (l l' : List Sume) : reals n (l ++ l') = reals n l ++ reals (n + l.length) l' := by
  induction l generalizing n with
  | nil => simp [reals]
  | cons sum l ih =>
    have hlen : n + (sum :: l).length = n + 1 + l.length := by
      rw [List.length_cons]
      push_cast
      ring
    rw [List.cons_append, reals, reals, ih, hlen]
    split_ifs
    · rfl
    · rfl

/-- the participation list after a scan of records numbered from `n` on, by a call that began at `start` -/
def purge : ℤ → ℤ → List Sume → Pf → Pf
  | start, n, [], p => if n ≠ start then lost_items start (-1) p else p
  | start, n, sum :: l, p =>
    if sum.Real then purge (n + 1) (n + 1) l (if n ≠ start then lost_items start (n - 1) p else p)
    else purge start (n + 1) l p

/-! ## The two scans -/

/-- the position is at the record of index `i`, and `sum_item` is its number -/
def Scan.At (s : Scan) (i : ℕ) : Prop := s.pos = HEADSIZE + sumeSize * i ∧ s.sum_item = i + 1

theorem Scan.At.step {s : Scan} {i : ℕ} (h : s.At i) (p : Pf) :
    Scan.At ⟨s.pos + sumeSize, s.sum_item + 1, p⟩ (i + 1) := by
  obtain ⟨hpos, hitem⟩ := h
  constructor
  · rw [hpos, Nat.mul_succ, Nat.add_assoc]
  · push_cast
    rw [hitem]

theorem nextLoop_end {file : File} {s : Scan} (h : fread file s.pos = none) (start : ℤ) :
    nextLoop file start s =
      (none, { s with pf := if s.sum_item ≠ start then lost_items start (-1) s.pf else s.pf }) := by
  rw [nextLoop]
  split
  · rfl
  · next h' => rw [h] at h'; cases h'

theorem nextLoop_real {file : File} {s : Scan} {sum : Sume} (h : fread file s.pos = some sum)
    (hreal : sum.Real) (start : ℤ) : nextLoop file start s =
      (some (s.sum_item, sum.resp_no.toInt),
        ⟨s.pos + sumeSize, s.sum_item + 1,
          if s.sum_item ≠ start then lost_items start (s.sum_item - 1) s.pf else s.pf⟩) := by
  rw [nextLoop]
  split
  · next h' => rw [h] at h'; cases h'
  · next h' =>
    rw [h] at h'
    cases h'
    rw [if_pos hreal]

theorem nextLoop_missing {file : File} {s : Scan} {sum : Sume} (h : fread file s.pos = some sum) (hreal : ¬ sum.Real)
    (start : ℤ) : nextLoop file start s = nextLoop file start ⟨s.pos + sumeSize, s.sum_item + 1, s.pf⟩ := by
  rw [nextLoop]
  split
  · next h' => rw [h] at h'; cases h'
  · next h' =>
    rw [h] at h'
    cases h'
    rw [if_neg hreal]

/-- the calls of `next_item` to come when one that began at `start` has got to the record of index `i` -/
theorem nextLoop_calls (file : File) {l : List Sume} {i : ℕ} (hl : (records file).drop i = l) (start : ℤ) {s : Scan}
    (hs : s.At i) :
    ∃ s', Calls (next_item file) (some (nextLoop file start s)) (reals (i + 1) l) s' ∧
      s'.pf = purge start (i + 1) l s.pf := by
  have hread : fread file s.pos = l.head? := by
    rw [hs.1, fread_record, ← hl, List.head?_drop]
  induction l generalizing i start s with
  | nil =>
    rw [nextLoop_end hread]
    exact ⟨_, Calls.done, by rw [purge, hs.2]⟩
  | cons sum l ih =>
    have hl' : (records file).drop (i + 1) = l := by
      rw [← List.drop_drop, hl, List.drop_one, List.tail_cons]
    have hread' : ∀ p, fread file (Scan.pos ⟨s.pos + sumeSize, s.sum_item + 1, p⟩) = l.head? := by
      intro p
      rw [(hs.step p).1, fread_record, ← hl', List.head?_drop]
    by_cases hreal : sum.Real
    · obtain ⟨s', hcalls, hpf⟩ := ih hl' (s.sum_item + 1) (hs.step _)
        (hread' (if s.sum_item ≠ start then lost_items start (s.sum_item - 1) s.pf else s.pf))
      rw [nextLoop_real hread hreal, reals, purge, if_pos hreal, if_pos hreal, ← hs.2]
      refine ⟨s', Calls.more ?_, ?_⟩
      · have hnum : reals (s.sum_item + 1) l = reals ((i + 1 : ℕ) + 1) l := by rw [hs.2, Nat.cast_succ]
        rw [hnum]
        exact hcalls
      · rw [hpf, hs.2]
        push_cast
        rfl
    · obtain ⟨s', hcalls, hpf⟩ := ih hl' start (hs.step s.pf) (hread' s.pf)
      rw [nextLoop_missing hread hreal, reals, purge, if_neg hreal, if_neg hreal]
      push_cast at hcalls hpf
      exact ⟨s', hcalls, hpf⟩

theorem seek_first (file : File) (s : Scan) : (seek_item file 1 s).At 0 := by
  constructor
  · have hoff : offset_of 1 = 20 := by decide
    simp [seek_item, fseek, hoff, HEADSIZE]
  · simp [seek_item]

/-- the forward scan -/
theorem forward_calls (file : File) (s : Scan) :
    ∃ s', Calls (next_item file) (next_item file (seek_item file 1 s)) (reals 1 (records file)) s' ∧
      s'.pf = purge 1 1 (records file) s.pf := by
  have hseek := seek_first file s
  obtain ⟨s', hcalls, hpf⟩ := nextLoop_calls file (List.drop_zero) (seek_item file 1 s).sum_item hseek
  refine ⟨s', hcalls, ?_⟩
  rw [hpf, hseek.2]
  rfl

/-- the calls that follow a call are determined by it -/
theorem Calls.unique {next : Scan → Option (Option (ℤ × ℤ) × Scan)} {r : Option (Option (ℤ × ℤ) × Scan)}
    {ps ps' : List (ℤ × ℤ)} {s s' : Scan} (h : Calls next r ps s) (h' : Calls next r ps' s') : ps = ps' ∧ s = s' := by
  induction h generalizing ps' with
  | done => cases h' with | done => exact ⟨rfl, rfl⟩
  | more _ ih =>
    cases h' with
    | more h' =>
      obtain ⟨rfl, rfl⟩ := ih h'
      exact ⟨rfl, rfl⟩

/-! ## The marks -/

/-- mark the entries of some items -/
def markIf (P : ℤ → Bool) (pf : Pfe) : Pfe := if P pf.item_no then { pf with delete := true } else pf

@[simp] theorem item_no_markIf (P : ℤ → Bool) (pf : Pfe) : (markIf P pf).item_no = pf.item_no := by
  rw [markIf]
  split_ifs
  · rfl
  · rfl

theorem delete_markIf (P : ℤ → Bool) (pf : Pfe) : (markIf P pf).delete = (pf.delete || P pf.item_no) := by
  rw [markIf]
  split_ifs with h
  · simp [h]
  · simp [h]

theorem markIf_markIf (P Q : ℤ → Bool) (pf : Pfe) : markIf P (markIf Q pf) = markIf (fun i => Q i || P i) pf := by
  unfold markIf
  by_cases hQ : Q pf.item_no
  · by_cases hP : P pf.item_no <;> simp [hP, hQ]
  · simp [hQ]

/-- marking no entry of the list leaves it as it is -/
theorem map_markIf_none {P : ℤ → Bool} {l : List Pfe} (h : ∀ pf ∈ l, P pf.item_no = false) : l.map (markIf P) = l := by
  refine List.map_congr_left (fun pf hpf => ?_) |>.trans (List.map_id l)
  rw [markIf, h pf hpf, if_neg Bool.false_ne_true, id]

/-- the items of a range -/
def between (first last : ℤ) (i : ℤ) : Bool := decide (first ≤ i ∧ i ≤ last)

/-- once the loop has begun to mark it goes on up to `last` -/
theorem lostLoop_two (first last : ℤ) {l : List Pfe} (h : Increasing l) (hfirst : ∀ pf ∈ l, first ≤ pf.item_no) :
    lostLoop first last 2 l = l.map (markIf (between first last)) := by
  induction l with
  | nil => rfl
  | cons pf l ih =>
    obtain ⟨hpf, hl⟩ := List.pairwise_cons.1 h
    obtain ⟨hge, hrest⟩ := List.forall_mem_cons.1 hfirst
    rw [lostLoop]
    simp only [OfNat.ofNat_ne_one, false_and, if_false, if_true]
    split_ifs with hlast
    · refine (map_markIf_none ?_).symm
      refine List.forall_mem_cons.2 ⟨by simp [between]; omega, fun e he => ?_⟩
      have := hpf e he
      simp [between]
      omega
    · have hmark : markIf (between first last) pf = { pf with delete := true } := by
        rw [markIf, if_pos (by simp [between]; omega)]
      rw [ih hl hrest, List.map_cons, hmark]

theorem lostLoop_one (first last : ℤ) {l : List Pfe} (h : Increasing l) :
    lostLoop first last 1 l = l.map (markIf (between first last)) := by
  induction l with
  | nil => rfl
  | cons pf l ih =>
    obtain ⟨hpf, hl⟩ := List.pairwise_cons.1 h
    by_cases hge : pf.item_no ≥ first
    · have hall : ∀ e ∈ pf :: l, first ≤ e.item_no := by
        refine List.forall_mem_cons.2 ⟨hge, fun e he => ?_⟩
        have := hpf e he
        omega
      rw [← lostLoop_two first last h hall, lostLoop, lostLoop]
      simp only [hge, and_self, if_true, OfNat.ofNat_ne_one, false_and, if_false]
    · have hmark : markIf (between first last) pf = pf := by
        rw [markIf, if_neg (by simp [between]; omega)]
      rw [lostLoop, if_neg (by omega : ¬ (1 = 1 ∧ pf.item_no ≥ first)), List.map_cons, hmark]
      simp only [OfNat.one_ne_ofNat, if_false]
      rw [ih hl]

/-- the list with the entries of some items marked, if a participation file is used -/
def Pf.marked (p : Pf) (P : ℤ → Bool) : Pf := { p with pflist := p.pflist.map (markIf fun i => !p.no_pf && P i) }

theorem Pf.marked_none {p : Pf} {P : ℤ → Bool} (h : ∀ i, P i = false) : p.marked P = p := by
  rw [Pf.marked, map_markIf_none (by simp [h])]

theorem Pf.marked_marked (p : Pf) (P Q : ℤ → Bool) : (p.marked Q).marked P = p.marked fun i => Q i || P i := by
  have hmark : ∀ pf, markIf (fun i => !p.no_pf && P i) (markIf (fun i => !p.no_pf && Q i) pf) =
      markIf (fun i => !p.no_pf && (Q i || P i)) pf := by
    intro pf
    rw [markIf_markIf]
    congr 1
    funext i
    cases p.no_pf <;> simp
  simp only [Pf.marked, List.map_map, Function.comp_def, hmark]

theorem Pf.increasing_marked {p : Pf} (h : Increasing p.pflist) (P : ℤ → Bool) : Increasing (p.marked P).pflist := by
  unfold Increasing SortedTable.Increasing at h ⊢
  rw [Pf.marked, List.pairwise_map]
  exact h.imp (by simp)

/-- `lost_items` with a range marks the entries in it -/
theorem lost_items_range {p : Pf} (h : Increasing p.pflist) (first : ℤ) {last : ℤ} (hlast : last ≠ -1) :
    lost_items first last p = p.marked (between first last) := by
  rw [lost_items, lastItem, if_neg hlast]
  by_cases hrange : last < first
  · rw [if_pos (Or.inr hrange), Pf.marked_none]
    intro i
    simp [between]
    omega
  · cases hno : p.no_pf with
    | true =>
      rw [if_pos (Or.inl rfl), Pf.marked, map_markIf_none (by simp [hno])]
    | false =>
      rw [if_neg (by simp [hrange]), lostLoop_one first last h, Pf.marked, hno]
      simp

/-- the call that is to mark everything to the end of the conference does nothing -/
theorem lost_items_end (p : Pf) {first : ℤ} (hfirst : 0 ≤ first) : lost_items first (-1) p = p := by
  rw [lost_items, if_pos (Or.inr (by omega))]

/-- the items that a scan of records numbered from `n` on marks, by a call that began at `start` -/
def gaps : ℤ → ℤ → List Sume → ℤ → Bool
  | _, _, [], _ => false
  | start, n, sum :: l, i =>
    if sum.Real then between start (n - 1) i || gaps (n + 1) (n + 1) l i else gaps start (n + 1) l i

theorem purge_eq {p : Pf} (h : Increasing p.pflist) {start n : ℤ} (h1 : 1 ≤ start) (hn : start ≤ n) (l : List Sume) :
    purge start n l p = p.marked (gaps start n l) := by
  induction l generalizing start n p with
  | nil =>
    rw [purge, lost_items_end p (by omega), ite_self, Pf.marked_none]
    exact fun _ => rfl
  | cons sum l ih =>
    rw [purge]
    split_ifs with hreal hstart
    · rw [lost_items_range h start (by omega), ih (p.increasing_marked h _) (by omega) le_rfl, Pf.marked_marked]
      simp only [Pf.marked, gaps, if_pos hreal]
    · have hnone : ∀ i, between start (n - 1) i = false := by
        intro i
        simp only [between, decide_eq_false_iff_not]
        omega
      rw [ih h (by omega) le_rfl]
      simp only [Pf.marked, gaps, if_pos hreal, hnone, Bool.false_or]
    · rw [ih h h1 (by omega)]
      simp only [Pf.marked, gaps, if_neg hreal]

/-- the sum file has a record for the item that is not empty -/
def RealItem (file : File) (i : ℤ) : Prop := 1 ≤ i ∧ ∃ sum, (records file)[(i - 1).toNat]? = some sum ∧ sum.Real

/-- the item's record is empty, or it would lie beyond the last one -/
def Missing (file : File) (i : ℤ) : Prop := 1 ≤ i ∧ ∀ sum, (records file)[(i - 1).toNat]? = some sum → ¬ sum.Real

instance (file : File) : DecidablePred (RealItem file) := fun i =>
  inferInstanceAs (Decidable (1 ≤ i ∧ ∃ sum ∈ (records file)[(i - 1).toNat]?, sum.Real))

instance (file : File) : DecidablePred (Missing file) := fun i =>
  inferInstanceAs (Decidable (1 ≤ i ∧ ∀ sum ∈ (records file)[(i - 1).toNat]?, ¬ sum.Real))

theorem missing_iff (file : File) (i : ℤ) : Missing file i ↔ 1 ≤ i ∧ ¬ RealItem file i := by
  unfold Missing RealItem
  constructor
  · intro hx
    rcases hx with ⟨h1, h⟩
    exact ⟨h1, fun ⟨_, sum, hsum, hreal⟩ => h sum hsum hreal⟩
  · intro hx
    rcases hx with ⟨h1, h⟩
    exact ⟨h1, fun sum hsum hreal => h ⟨h1, sum, hsum, hreal⟩⟩

/-- the items with a record that is not empty, the records being numbered from `n` on -/
theorem mem_reals {n j : ℤ} {l : List Sume} :
    (∃ r, (j, r) ∈ reals n l) ↔ n ≤ j ∧ ∃ sum, l[(j - n).toNat]? = some sum ∧ sum.Real := by
  induction l generalizing n with
  | nil => simp [reals]
  | cons sum l ih =>
    obtain rfl | hlt | hgt : j = n ∨ j < n ∨ n < j := by omega
    · have hno : ¬ ∃ r, (j, r) ∈ reals (j + 1) l := by
        rw [ih]
        intro hx
        rcases hx with ⟨h, -⟩
        omega
      rw [reals]
      split_ifs with hreal
      · simp [hreal]
      · rw [iff_false_left hno]
        simp [hreal]
    · have hno : ¬ ∃ r, (j, r) ∈ reals (n + 1) l := by
        rw [ih]
        intro hx
        rcases hx with ⟨h, -⟩
        omega
      rw [reals]
      split_ifs with hreal
      · simp only [List.mem_cons, Prod.mk.injEq]
        constructor
        · intro hx
          rcases hx with ⟨r, ⟨rfl, -⟩ | hr⟩
          · omega
          · exact absurd ⟨r, hr⟩ hno
        · intro hx
          rcases hx with ⟨h, -⟩
          omega
      · rw [iff_false_left hno]
        intro hx
        rcases hx with ⟨h, -⟩
        omega
    · have hrec : (sum :: l)[(j - n).toNat]? = l[(j - (n + 1)).toNat]? := by
        rw [show (j - n).toNat = (j - (n + 1)).toNat + 1 by omega, List.getElem?_cons_succ]
      have hmem : (∃ r, (j, r) ∈ reals n (sum :: l)) ↔ ∃ r, (j, r) ∈ reals (n + 1) l := by
        rw [reals]
        split_ifs
        · have hj : j ≠ n := by omega
          simp [hj]
        · rfl
      rw [hmem, ih, hrec]
      constructor
      · intro hx
        rcases hx with ⟨-, h⟩
        exact ⟨by omega, h⟩
      · intro hx
        rcases hx with ⟨-, h⟩
        exact ⟨by omega, h⟩

/-- the items marked are those without a real record and before one that has one -/
theorem gaps_iff {start n : ℤ} (hn : start ≤ n) (l : List Sume) (i : ℤ) :
    gaps start n l i = true ↔
      start ≤ i ∧ (¬ ∃ r, (i, r) ∈ reals n l) ∧ ∃ j, i < j ∧ ∃ r, (j, r) ∈ reals n l := by
  induction l generalizing start n with
  | nil => simp [gaps, reals]
  | cons sum l ih =>
    have hlow : ∀ {j}, (∃ r, (j, r) ∈ reals (n + 1) l) → n < j := by
      intro j hj
      have := (mem_reals.1 hj).1
      omega
    rw [gaps, reals]
    split_ifs with hreal
    · have hmem : ∀ j, (∃ r, (j, r) ∈ (n, sum.resp_no.toInt) :: reals (n + 1) l) ↔
          j = n ∨ ∃ r, (j, r) ∈ reals (n + 1) l := by
        intro j
        simp only [List.mem_cons, Prod.mk.injEq, exists_or, exists_and_left, exists_eq, and_true]
      rw [Bool.or_eq_true, ih le_rfl, between, decide_eq_true_iff]
      simp only [hmem]
      constructor
      · intro hx
        rcases hx with ⟨h1, h2⟩ | ⟨h1, h2, j, hij, hj⟩
        · refine ⟨h1, ?_, n, by omega, Or.inl rfl⟩
          intro hx
          rcases hx with rfl | hi
          · omega
          · have := hlow hi
            omega
        · refine ⟨by omega, ?_, j, hij, Or.inr hj⟩
          intro hx
          rcases hx with rfl | hi
          · omega
          · exact h2 hi
      · intro hx
        rcases hx with ⟨h1, h2, j, hij, hj⟩
        have hne : i ≠ n := fun h => h2 (Or.inl h)
        by_cases hlt : i < n
        · exact Or.inl ⟨h1, by omega⟩
        · refine Or.inr ⟨by omega, fun hi => h2 (Or.inr hi), j, hij, ?_⟩
          rcases hj with rfl | hj
          · omega
          · exact hj
    · rw [ih (by omega)]

theorem gaps_records (file : File) (i : ℤ) :
    gaps 1 1 (records file) i = true ↔ Missing file i ∧ ∃ j, i < j ∧ RealItem file j := by
  rw [gaps_iff le_rfl, missing_iff]
  simp only [mem_reals]
  rw [and_assoc]
  rfl

/-- **The purge.** After the forward scan the entries marked are exactly those of missing items, if and only if every
entry marked before is that of a missing item, and every entry of a missing item was marked before or has, a
participation file being used, a number below that of some real item. -/
theorem purge_iff (file : File) (s : Scan) (h : Increasing s.pf.pflist) :
    ∃ ps s', Calls (next_item file) (next_item file (seek_item file 1 s)) ps s' ∧
      s'.pf.pflist.map Pfe.item_no = s.pf.pflist.map Pfe.item_no ∧
      ((∀ pf ∈ s'.pf.pflist, pf.delete = true ↔ Missing file pf.item_no) ↔
        ∀ pf ∈ s.pf.pflist, (pf.delete = true → Missing file pf.item_no) ∧
          (Missing file pf.item_no →
            pf.delete = true ∨ (s.pf.no_pf = false ∧ ∃ j, pf.item_no < j ∧ RealItem file j))) := by
  obtain ⟨s', hcalls, hpf⟩ := forward_calls file s
  rw [purge_eq h le_rfl le_rfl] at hpf
  refine ⟨_, s', hcalls, ?_, ?_⟩
  · simp [hpf, Pf.marked]
  · have hdelete : ∀ pf : Pfe, (markIf (fun i => !s.pf.no_pf && gaps 1 1 (records file) i) pf).delete = true ↔
        pf.delete = true ∨ (s.pf.no_pf = false ∧ Missing file pf.item_no ∧ ∃ j, pf.item_no < j ∧ RealItem file j) := by
      intro pf
      rw [delete_markIf, Bool.or_eq_true, Bool.and_eq_true, Bool.not_eq_true', gaps_records]
    rw [hpf, Pf.marked]
    simp only [List.forall_mem_map, item_no_markIf, hdelete]
    refine forall_congr' fun pf => imp_congr_right fun _ => ?_
    constructor
    · intro hiff
      refine ⟨fun hd => hiff.1 (Or.inl hd), fun hm => ?_⟩
      exact (hiff.2 hm).imp_right fun ⟨hno, _, hj⟩ => ⟨hno, hj⟩
    · intro hx
      rcases hx with ⟨hd, hm⟩
      constructor
      · intro hx
        rcases hx with hdel | ⟨-, hmiss, -⟩
        · exact hd hdel
        · exact hmiss
      · intro hmiss
        exact (hm hmiss).imp_right fun ⟨hno, hj⟩ => ⟨hno, hmiss, hj⟩

/-- a sum file with a record for each given response count -/
def sumFile (counts : List (BitVec 8)) : File :=
  List.replicate HEADSIZE 0 ++ counts.flatMap fun c => List.replicate 4 0 ++ c :: List.replicate 19 0

/-- an unmarked entry -/
def entry (item : ℤ) : Pfe := ⟨item, 1, false, 1, 0, false⟩

/-- with a missing item between two real ones the marks are right -/
theorem purge_gap :
    ∃ ps s', Calls (next_item (sumFile [1, 0, 2]))
        (next_item (sumFile [1, 0, 2]) (seek_item (sumFile [1, 0, 2]) 1 ⟨0, 0, ⟨[], [entry 1, entry 2], false⟩⟩))
          ps s' ∧
      ∀ pf ∈ s'.pf.pflist, pf.delete = true ↔ Missing (sumFile [1, 0, 2]) pf.item_no := by
  obtain ⟨ps, s', hcalls, -, hiff⟩ := purge_iff (sumFile [1, 0, 2]) ⟨0, 0, ⟨[], [entry 1, entry 2], false⟩⟩ (by decide)
  refine ⟨ps, s', hcalls, hiff.2 ?_⟩
  have h1 : ¬ Missing (sumFile [1, 0, 2]) 1 := by decide
  have h2 : Missing (sumFile [1, 0, 2]) 2 := by decide
  have h3 : RealItem (sumFile [1, 0, 2]) 3 := by decide
  intro pf hpf
  rcases List.mem_pair.1 hpf with rfl | rfl
  · exact ⟨by decide, fun h => absurd h h1⟩
  · exact ⟨fun _ => h2, fun _ => Or.inr ⟨rfl, 3, by decide, h3⟩⟩

/-- the entry of an item whose empty record is the last one is not marked -/
theorem empty_at_end :
    ∃ ps s', Calls (next_item (sumFile [1, 0]))
        (next_item (sumFile [1, 0]) (seek_item (sumFile [1, 0]) 1 ⟨0, 0, ⟨[], [entry 1, entry 2], false⟩⟩)) ps s' ∧
      ¬ ∀ pf ∈ s'.pf.pflist, pf.delete = true ↔ Missing (sumFile [1, 0]) pf.item_no := by
  obtain ⟨s', hcalls, hpf⟩ := forward_calls (sumFile [1, 0]) ⟨0, 0, ⟨[], [entry 1, entry 2], false⟩⟩
  rw [purge_eq (by decide) le_rfl le_rfl] at hpf
  have hlist : s'.pf.pflist = [entry 1, entry 2] := by
    rw [hpf]
    decide
  have h2 : Missing (sumFile [1, 0]) 2 := by decide
  refine ⟨_, s', hcalls, fun h => ?_⟩
  rw [hlist] at h
  have hmark := (h (entry 2) (by simp)).2 h2
  cases hmark

/-! ## Backwards -/

/-- within the ints the offset does not wrap around -/
theorem offset_of_eq {n : ℤ} (h0 : 0 < n) (h1 : n < 2 ^ 31) : offset_of n = sumeSize * (n - 1) + HEADSIZE := by
  have hbits : BitVec.ofNat 64 sumeSize * BitVec.ofInt 64 (n - 1) + BitVec.ofNat 64 HEADSIZE =
      BitVec.ofInt 64 (sumeSize * (n - 1) + HEADSIZE) := by
    rw [BitVec.ofInt_add, BitVec.ofInt_mul, BitVec.ofInt_natCast, BitVec.ofInt_natCast]
  rw [offset_of, hbits, BitVec.toInt_ofInt]
  simp only [sumeSize, HEADSIZE]
  rw [Int.bmod_eq_of_le]
  · omega
  · omega

/-- `fseek` to a record -/
theorem fseek_record {i : ℕ} (hi : i + 1 < 2 ^ 31) (pos : ℕ) :
    fseek (offset_of (i + 1 : ℕ)) pos = HEADSIZE + sumeSize * i := by
  have hoff : (sumeSize : ℤ) * ((i + 1 : ℕ) - 1) + HEADSIZE = (HEADSIZE + sumeSize * i : ℕ) := by
    push_cast
    ring
  rw [offset_of_eq (by omega) (by exact_mod_cast hi), hoff, fseek, if_neg (by omega), Int.toNat_natCast]

/-- the calls of `prev_item` to come when `sum_item` is `m` -/
theorem prevLoop_calls (file : File) {m : ℕ} (hm : m ≤ (records file).length) (hint : m < 2 ^ 31) (start : ℤ) {s : Scan}
    (hitem : s.sum_item = m) (hpos : ∀ i, m = i + 1 → s.pos = HEADSIZE + sumeSize * i) :
    ∃ s', Calls (prev_item file) (prevLoop file start s) (reals 1 ((records file).take m)).reverse s' := by
  induction m generalizing start s with
  | zero =>
    rw [prevLoop, dif_neg (by omega)]
    exact ⟨_, Calls.done⟩
  | succ m ih =>
    have hread : fread file s.pos = some (records file)[m] := by
      rw [hpos m rfl, fread_record, List.getElem?_eq_getElem]
    have htake : reals 1 ((records file).take (m + 1)) =
        reals 1 ((records file).take m) ++ reals (1 + m) [(records file)[m]] := by
      rw [List.take_succ_eq_append_getElem (by omega), reals_append, List.length_take_of_le (by omega)]
    have hseek : ∀ i, m = i + 1 → ∀ pos, fseek (offset_of (s.sum_item - 1)) pos = HEADSIZE + sumeSize * i := by
      rintro i rfl pos
      rw [show s.sum_item - 1 = ((i + 1 : ℕ) : ℤ) by omega, fseek_record (by omega)]
    have hreals : reals (1 + m) [(records file)[m]] =
        if (records file)[m].Real then [(s.sum_item, (records file)[m].resp_no.toInt)] else [] := by
      rw [reals, hitem, Nat.cast_succ, add_comm (1 : ℤ)]
      rfl
    rw [prevLoop, dif_pos (by omega), hread, htake, hreals]
    dsimp only
    by_cases hreal : (records file)[m].Real
    · rw [if_pos hreal, if_pos hreal, List.reverse_append, List.reverse_singleton, List.singleton_append]
      have hpos' : ∀ i, m = i + 1 →
          (if s.sum_item - 1 > 0 then fseek (offset_of (s.sum_item - 1)) (s.pos + sumeSize) else s.pos + sumeSize) =
            HEADSIZE + sumeSize * i := by
        intro i hi
        rw [if_pos (by omega), hseek i hi]
      obtain ⟨s', hcalls⟩ := ih (by omega) (by omega) (s.sum_item - 1)
        (s := ⟨if s.sum_item - 1 > 0 then fseek (offset_of (s.sum_item - 1)) (s.pos + sumeSize) else s.pos + sumeSize,
          s.sum_item - 1, if s.sum_item ≠ start then lost_items (s.sum_item + 1) start s.pf else s.pf⟩)
        (by dsimp only; omega) hpos'
      exact ⟨s', Calls.more hcalls⟩
    · rw [if_neg hreal, if_neg hreal, List.append_nil]
      exact ih (by omega) (by omega) start (by dsimp only; omega) fun i hi => hseek i hi _

/-! ## The number of records -/

/-- in a file of `k` records `last_no` is one less, within the ints -/
theorem last_no_succ {file : File} {k : ℕ} (hk : file.length = HEADSIZE + sumeSize * (k + 1)) (hint : k + 1 < 2 ^ 31) :
    last_no file = k := by
  have hquot : (items_in (BitVec.ofNat 64 file.length)).toNat = k := by
    rw [hk, items_in, BitVec.toNat_udiv, BitVec.toNat_add, BitVec.toNat_sub]
    have htwo : (2 : BitVec 64).toNat = 2 := rfl
    simp only [HEADSIZE, sumeSize, BitVec.toNat_mul, BitVec.toNat_ofNat, htwo, Nat.reducePow,
      Nat.reduceMod, Nat.reduceMul]
    omega
  have hint' : (items_in (BitVec.ofNat 64 file.length)).truncate 32 = BitVec.ofNat 32 k := by
    rw [← hquot, BitVec.truncate_eq_setWidth, BitVec.ofNat_toNat]
  rw [last_no, hint', BitVec.toInt_ofNat']
  exact Int.bmod_eq_of_le (by omega) (by omega)

/-- without records it is negative -/
theorem last_no_zero {file : File} (hk : file.length = HEADSIZE) : last_no file = -1431655766 := by
  rw [last_no, hk]
  decide

/-- it is never the number of records -/
theorem last_no_ne {file : File} {k : ℕ} (hk : file.length = HEADSIZE + sumeSize * k) : last_no file ≠ k := by
  obtain rfl | ⟨hpos, hint⟩ | hbig : k = 0 ∨ (0 < k ∧ k < 2 ^ 31) ∨ 2 ^ 31 ≤ k := by omega
  · rw [last_no_zero hk]
    decide
  · obtain ⟨m, rfl⟩ := Nat.exists_eq_succ_of_ne_zero hpos.ne'
    rw [last_no_succ hk hint]
    omega
  · have hlt := BitVec.toInt_lt (x := (items_in (BitVec.ofNat 64 file.length)).truncate 32)
    rw [← last_no] at hlt
    omega

/-- what is asked of a sum file of `k` records -/
def Agree (file : File) (k : ℕ) (s : Scan) : Prop :=
  last_no file = k ∧
    ∃ ps qs s' s'', Calls (next_item file) (next_item file (seek_item file 1 s)) ps s' ∧
      Calls (prev_item file) (prev_item file (seek_item file (-1) s)) qs s'' ∧ qs = ps.reverse

/-- the backward scan sees the records but the last one -/
theorem backward_calls {file : File} {k : ℕ} (hk : file.length = HEADSIZE + sumeSize * k)
    (hint : k < 2 ^ 31) (s : Scan) :
    ∃ s', Calls (prev_item file) (prev_item file (seek_item file (-1) s))
      (reals 1 ((records file).take (k - 1))).reverse s' := by
  have hlen : (records file).length = k := by
    rw [length_records, hk]
    simp [sumeSize]
  have hseek : (seek_item file (-1) s).sum_item = last_no file := by simp [seek_item]
  cases k with
  | zero =>
    have hneg : ¬ (seek_item file (-1) s).sum_item > 0 := by
      rw [hseek, last_no_zero hk]
      decide
    rw [prev_item, prevLoop, dif_neg hneg]
    exact ⟨_, Calls.done⟩
  | succ m =>
    have hlast := last_no_succ hk hint
    refine prevLoop_calls file (by omega) (by omega) _ (by rw [hseek, hlast]; rfl) fun i hi => ?_
    have hm : m = i + 1 := hi
    have hone : (m : ℤ) ≠ -1 := by omega
    simp only [seek_item, if_true, hlast]
    rw [hm, fseek_record (by omega)]

/-- **Forwards and backwards.** In a sum file of `k` records `last_no` is never `k`; the backward scan gives the reverse
of the forward scan if and only if there is no record or the last one is empty. -/
theorem not_agree {file : File} {k : ℕ} (hk : file.length = HEADSIZE + sumeSize * k) (s : Scan) :
    ¬ Agree file k s ∧
      (k < 2 ^ 31 → ∃ ps qs s' s'', Calls (next_item file) (next_item file (seek_item file 1 s)) ps s' ∧
        Calls (prev_item file) (prev_item file (seek_item file (-1) s)) qs s'' ∧
        (qs = ps.reverse ↔ ∀ sum ∈ (records file).getLast?, ¬ sum.Real)) := by
  constructor
  · exact fun h => last_no_ne hk h.1
  · intro hint
    obtain ⟨s', hfwd, -⟩ := forward_calls file s
    obtain ⟨s'', hbwd⟩ := backward_calls hk hint s
    refine ⟨_, _, s', s'', hfwd, hbwd, ?_⟩
    have hlen : (records file).length = k := by
      rw [length_records, hk]
      simp [sumeSize]
    rw [List.reverse_inj, ← hlen, ← List.dropLast_eq_take]
    rcases List.eq_nil_or_concat (records file) with hnil | ⟨l, sum, hl⟩
    · simp [hnil]
    · rw [hl, List.concat_eq_append, List.dropLast_concat, reals_append, List.getLast?_concat]
      simp only [List.self_eq_append_right, reals, Option.mem_def, Option.some.injEq, forall_eq']
      split_ifs with hreal
      · simp [hreal]
      · simp [hreal]

/-- one record that is not empty -/
theorem not_agree_one : ¬ Agree (sumFile [1]) 1 ⟨0, 0, ⟨[], [], false⟩⟩ := (not_agree (k := 1) (by decide) _).1

/-- the item of the only record is found forwards, not backwards, and is not counted -/
theorem last_record_lost :
    last_no (sumFile [1]) = 0 ∧ ¬ Agree (sumFile [1]) 1 ⟨0, 0, ⟨[], [], false⟩⟩ ∧
      (∃ s', Calls (next_item (sumFile [1]))
        (next_item (sumFile [1]) (seek_item (sumFile [1]) 1 ⟨0, 0, ⟨[], [], false⟩⟩)) [(1, 1)] s') ∧
      ∃ s', Calls (prev_item (sumFile [1]))
        (prev_item (sumFile [1]) (seek_item (sumFile [1]) (-1) ⟨0, 0, ⟨[], [], false⟩⟩)) [] s' := by
  have hlen : (sumFile [1]).length = HEADSIZE + sumeSize * 1 := by decide
  refine ⟨last_no_succ hlen (by decide), fun h => last_no_ne hlen h.1, ?_, ?_⟩
  · obtain ⟨s', hfwd, -⟩ := forward_calls (sumFile [1]) ⟨0, 0, ⟨[], [], false⟩⟩
    exact ⟨s', by simpa only using (show reals 1 (records (sumFile [1])) = [(1, 1)] by decide) ▸ hfwd⟩
  · exact backward_calls hlen (by decide) _

end MNetSoft.Bbsread
