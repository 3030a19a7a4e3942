/-
The transaction file as several processes use it at once: `transaction` reads and writes under the transaction lock,
which is taken to exclude other holders, and `scantrans` takes no lock. Every lseek, read and write of one record is a
step of its own. Each process has a file offset of its own.

Every slot carries, for the statements only, the number of the call of `transaction` that last wrote a record to it
(0 for what was there before); a process that has read a slot remembers the number along with its copy.

`scantrans` blanks a record by writing its copy back, without its code, to the offset it remembers. A record is lost
when the slot has been blanked by another scan and reused by `transaction` between that read and that write.
- `logInv_step`: the invariant. The holder of the lock is about to write to a free slot or at the end of file, and a
  scan's copy is what its slot still holds, unless the slot has been blanked or written since.
- `log_kept_iff`: in a run, every record stays in its slot until a scan for its own uid that has read it blanks it, if
  and only if no scan writes over a record that `transaction` has put there since the scan read the slot.
- `transaction_alone`, `scantrans_alone`: undisturbed, the steps of the two do to the file what `Bank.TransFile` says.
- `refilled_slot`: three processes, and a record that nobody has read is gone.
-/
import Mathlib.Tactic
import MNetSoft.Core.Runs
import MNetSoft.Core.Records
import MNetSoft.Bank.TransFile

namespace MNetSoft.Bank

open MNetSoft.Records

/-! ## Model -/

/-- a record of the file and the number of the call of `transaction` that last wrote a record there -/
structure Slot where
  tr : TransEnt
  stamp : ℕ
deriving DecidableEq, Repr

/-- where a process is -/
inductive LogPc where
  | idle
  /-- in `transaction`: at `setlock` -/
  | locking (tr : TransEnt)
  /-- at the read of slot `pos` -/
  | reading (tr : TransEnt) (pos : ℕ)
  /-- at the lseek back to slot `pos` -/
  | rewinding (tr : TransEnt) (pos : ℕ)
  /-- at the write to slot `pos` -/
  | writing (tr : TransEnt) (pos : ℕ)
  /-- at `unlock` -/
  | unlocking
  /-- in `scantrans`: at the read of slot `pos` -/
  | scanning (uid : ℤ) (pos : ℕ)
  /-- the record read is reported: at the lseek back to it -/
  | seeking (uid : ℤ) (pos : ℕ) (copy : Slot)
  /-- at the write of the copy without its code -/
  | blanking (uid : ℤ) (pos : ℕ) (copy : Slot)
deriving DecidableEq, Repr

/-- the file, the holder of the transaction lock, the number the next written record gets, and the processes -/
structure LogSt where
  slots : List Slot
  tail : ℕ
  lock : Option ℕ
  stamp : ℕ
  procs : ℕ → LogPc

inductive LogOp where
  | transaction (p : ℕ) (tr : TransEnt)
  | scantrans (p : ℕ) (uid : ℤ)
  /-- the next system call of process `p` -/
  | go (p : ℕ)
  /-- `setlock` gives up and ends the process -/
  | giveUp (p : ℕ)
deriving DecidableEq, Repr

def LogSt.move (st : LogSt) (p : ℕ) (pc : LogPc) : LogSt := { st with procs := Function.update st.procs p pc }

@[simp] theorem LogSt.move_slots (st : LogSt) (p : ℕ) (pc : LogPc) : (st.move p pc).slots = st.slots := rfl

@[simp] theorem LogSt.move_tail (st : LogSt) (p : ℕ) (pc : LogPc) : (st.move p pc).tail = st.tail := rfl

@[simp] theorem LogSt.move_lock (st : LogSt) (p : ℕ) (pc : LogPc) : (st.move p pc).lock = st.lock := rfl

@[simp] theorem LogSt.move_move (st : LogSt) (p : ℕ) (a b : LogPc) : (st.move p a).move p b = st.move p b := by
  simp [LogSt.move]

def zeroSlot : Slot := ⟨⟨0, TR_NONE, [], [], 0⟩, 0⟩

/-- `transaction` writes its record to slot `pos`, over the bytes of a cut-off last record if that is the end of file -/
def LogSt.put (st : LogSt) (tr : TransEnt) (pos : ℕ) : LogSt :=
  { st with
    slots := writeAt zeroSlot st.slots pos ⟨tr, st.stamp⟩
    tail := if pos < st.slots.length then st.tail else 0
    stamp := st.stamp + 1 }

theorem readAt_put {st : LogSt} {pos : ℕ} (hpos : pos ≤ st.slots.length) (tr : TransEnt) (i : ℕ) :
    readAt (st.put tr pos).slots i = if i = pos then some ⟨tr, st.stamp⟩ else readAt st.slots i :=
  readAt_writeAt_of_le _ _ hpos i

/-- `scantrans` writes a record back to slot `pos` -/
def LogSt.rewrite (st : LogSt) (tr : TransEnt) (pos : ℕ) : LogSt :=
  { st with slots := writeAt zeroSlot st.slots pos ⟨tr, (valueAt zeroSlot st.slots pos).stamp⟩ }

theorem readAt_rewrite {st : LogSt} {pos : ℕ} (hpos : pos < st.slots.length) (tr : TransEnt) (i : ℕ) :
    readAt (st.rewrite tr pos).slots i =
      if i = pos then some ⟨tr, (valueAt zeroSlot st.slots pos).stamp⟩ else readAt st.slots i :=
  readAt_writeAt_of_le _ _ hpos.le i

/-- the next system call of process `p`; a process at a lock held by another waits -/
def goLog (st : LogSt) (p : ℕ) : LogPc → Option LogSt
  | .idle => none
  | .locking tr => if st.lock = none then some (LogSt.move { st with lock := some p } p (.reading tr 0)) else none
  | .reading tr pos =>
    match readAt st.slots pos with
    | some otr => some (st.move p (if otr.tr.code ≠ TR_NONE then .reading tr (pos + 1) else .rewinding tr pos))
    | none => some (st.move p (if st.tail ≠ 0 then .rewinding tr pos else .writing tr pos))
  | .rewinding tr pos => some (st.move p (.writing tr pos))
  | .writing tr pos => some ((st.put tr pos).move p .unlocking)
  | .unlocking => some (LogSt.move { st with lock := none } p .idle)
  | .scanning uid pos =>
    match readAt st.slots pos with
    | some s => some (st.move p (if Reports uid s.tr then .seeking uid pos s else .scanning uid (pos + 1)))
    | none => some (st.move p .idle)
  | .seeking uid pos copy => some (st.move p (.blanking uid pos copy))
  | .blanking uid pos copy => some ((st.rewrite (blank copy.tr) pos).move p (.scanning uid (pos + 1)))

/-- `dotrans` passes `transaction` nothing but real entries -/
def logStep (st : LogSt) : LogOp → Option LogSt
  | .transaction p tr => if st.procs p = .idle ∧ tr.code ≠ TR_NONE then some (st.move p (.locking tr)) else none
  | .scantrans p uid => if st.procs p = .idle then some (st.move p (.scanning uid 0)) else none
  | .go p => goLog st p (st.procs p)
  | .giveUp p =>
    match st.procs p with
    | .locking _ => some (st.move p .idle)
    | _ => none

/-! ## What should be kept, and when it is -/

/-- the step is the blanking of the record `s` in slot `i` by a scan for its own uid that has read it -/
def BlanksOwn (st : LogSt) (op : LogOp) (i : ℕ) (s : Slot) : Prop :=
  ∃ p, op = .go p ∧ st.procs p = .blanking s.tr.to_uid i s

/-- every record in the file stays where it is, unchanged, unless a scan for its own uid that has read it blanks it -/
def Kept (st : LogSt) (op : LogOp) : Prop :=
  ∀ t, logStep st op = some t → ∀ i s, readAt st.slots i = some s → s.tr.code ≠ TR_NONE →
    readAt t.slots i = some s ∨ BlanksOwn st op i s

/-- at the blanking write of a scan, its slot holds no record that was written after the scan read it -/
def NotRefilled (st : LogSt) : LogOp → Prop
  | .go p =>
    match st.procs p with
    | .blanking _ pos copy => ∀ s ∈ readAt st.slots pos, s.tr.code ≠ TR_NONE → s.stamp = copy.stamp
    | _ => True
  | _ => True

instance (st : LogSt) (op : LogOp) : Decidable (NotRefilled st op) := by
  unfold NotRefilled
  split
  · split <;> infer_instance
  · infer_instance

/-! ## The invariant -/

/-- what is known of a process in the middle of a call -/
def LogPc.Ok (st : LogSt) (p : ℕ) : LogPc → Prop
  | .idle => True
  | .locking tr => tr.code ≠ TR_NONE
  | .reading tr pos => tr.code ≠ TR_NONE ∧ st.lock = some p ∧ pos ≤ st.slots.length
  | .rewinding tr pos | .writing tr pos =>
    tr.code ≠ TR_NONE ∧ st.lock = some p ∧ pos ≤ st.slots.length ∧
      ∀ s, readAt st.slots pos = some s → s.tr.code = TR_NONE
  | .unlocking => st.lock = some p
  | .scanning _ _ => True
  | .seeking uid pos copy | .blanking uid pos copy =>
    Reports uid copy.tr ∧ pos < st.slots.length ∧ copy.stamp < st.stamp ∧
      ∀ s, readAt st.slots pos = some s → s.stamp = copy.stamp → s = copy ∨ s.tr.code = TR_NONE

structure LogInv (st : LogSt) : Prop where
  procs : ∀ p, (st.procs p).Ok st p
  stamps : ∀ i s, readAt st.slots i = some s → s.stamp < st.stamp

/-- no process is inside `transaction` or `scantrans` -/
def LogSt.Quiet (st : LogSt) : Prop := st.lock = none ∧ (∀ p, st.procs p = .idle) ∧ ∀ s ∈ st.slots, s.stamp < st.stamp

theorem LogSt.Quiet.inv {st : LogSt} (h : st.Quiet) : LogInv st := by
  obtain ⟨-, hidle, hstamp⟩ := h
  constructor
  case procs =>
    intro p
    rw [hidle p]
    trivial
  case stamps => exact fun i s hs => hstamp s (List.mem_of_getElem? hs)

/-! ## What a process can rely on -/

/-- what the steps of the other processes leave to process `q` -/
structure Rely (st t : LogSt) (q : ℕ) : Prop where
  /-- nobody takes its lock away -/
  lock : st.lock = some q → t.lock = some q
  length : st.slots.length ≤ t.slots.length
  stamp : st.stamp ≤ t.stamp
  /-- nobody writes a record to a free slot while it holds the lock -/
  free : st.lock = some q → ∀ i ≤ st.slots.length, (∀ s, readAt st.slots i = some s → s.tr.code = TR_NONE) →
    ∀ s, readAt t.slots i = some s → s.tr.code = TR_NONE
  /-- a slot without a new record is as it was or free -/
  slots : ∀ i < st.slots.length, ∀ s, readAt t.slots i = some s → s.stamp < st.stamp →
    readAt st.slots i = some s ∨ s.tr.code = TR_NONE

theorem LogPc.Ok.rely {st t : LogSt} {q : ℕ} {pc : LogPc} (h : pc.Ok st q) (hr : Rely st t q) : pc.Ok t q := by
  have hcopy : ∀ {pos : ℕ} {copy : Slot}, pos < st.slots.length → copy.stamp < st.stamp →
      (∀ s, readAt st.slots pos = some s → s.stamp = copy.stamp → s = copy ∨ s.tr.code = TR_NONE) →
      ∀ s, readAt t.slots pos = some s → s.stamp = copy.stamp → s = copy ∨ s.tr.code = TR_NONE := by
    intro pos copy hpos hstamp hold s hs hsc
    rcases hr.slots pos hpos s hs (by rw [hsc]; exact hstamp) with hs | hs
    · exact hold s hs hsc
    · exact Or.inr hs
  cases pc with
  | idle => trivial
  | locking tr => exact h
  | reading tr pos => exact ⟨h.1, hr.lock h.2.1, h.2.2.trans hr.length⟩
  | rewinding tr pos => exact ⟨h.1, hr.lock h.2.1, h.2.2.1.trans hr.length, hr.free h.2.1 pos h.2.2.1 h.2.2.2⟩
  | writing tr pos => exact ⟨h.1, hr.lock h.2.1, h.2.2.1.trans hr.length, hr.free h.2.1 pos h.2.2.1 h.2.2.2⟩
  | unlocking => exact hr.lock h
  | scanning uid pos => trivial
  | seeking uid pos copy =>
    exact ⟨h.1, h.2.1.trans_le hr.length, h.2.2.1.trans_le hr.stamp, hcopy h.2.1 h.2.2.1 h.2.2.2⟩
  | blanking uid pos copy =>
    exact ⟨h.1, h.2.1.trans_le hr.length, h.2.2.1.trans_le hr.stamp, hcopy h.2.1 h.2.2.1 h.2.2.2⟩

/-- a step that leaves the file alone; `q` does not lose the lock -/
theorem Rely.of_slots {st t : LogSt} {q : ℕ} (hslots : t.slots = st.slots) (hstamp : t.stamp = st.stamp)
    (hlock : st.lock = some q → t.lock = some q) : Rely st t q := by
  constructor
  case lock => exact hlock
  case length => rw [hslots]
  case stamp => rw [hstamp]
  case free =>
    intro _ i _ hfree
    rw [hslots]
    exact hfree
  case slots =>
    intro i _ s hs _
    rw [hslots] at hs
    exact Or.inl hs

/-- the write of the holder of the lock -/
theorem Rely.put {st : LogSt} {p q : ℕ} (tr : TransEnt) {pos : ℕ} (hlock : st.lock = some p) (hqp : q ≠ p)
    (hpos : pos ≤ st.slots.length) : Rely st (st.put tr pos) q := by
  have hother : st.lock ≠ some q := by
    rw [hlock]
    exact fun h => hqp (Option.some.inj h).symm
  constructor
  case lock => exact id
  case length => exact le_length_writeAt _ _ _ _
  case stamp => exact Nat.le_succ _
  case free => exact fun h => absurd h hother
  case slots =>
    intro i _ s hs hlt
    rw [readAt_put hpos] at hs
    split_ifs at hs
    · -- the new record has a new number
      cases hs
      exact absurd hlt (lt_irrefl _)
    · exact Or.inl hs

/-- the blanking write of a scan -/
theorem Rely.rewrite {st : LogSt} {q : ℕ} (tr : TransEnt) {pos : ℕ} (hpos : pos < st.slots.length) :
    Rely st (st.rewrite (blank tr) pos) q := by
  constructor
  case lock => exact id
  case length => exact le_length_writeAt _ _ _ _
  case stamp => exact le_rfl
  case free =>
    intro _ i _ hfree s hs
    rw [readAt_rewrite hpos] at hs
    split_ifs at hs
    · cases hs
      rfl
    · exact hfree s hs
  case slots =>
    intro i _ s hs _
    rw [readAt_rewrite hpos] at hs
    split_ifs at hs
    · cases hs
      exact Or.inr rfl
    · exact Or.inl hs

/-! ## The invariant holds throughout -/

/-- process `p` moves, and the others can rely on what it has done -/
theorem LogInv.move {st t : LogSt} {p : ℕ} {pc : LogPc} (hI : LogInv st) (hprocs : t.procs = st.procs)
    (hpc : pc.Ok t p) (hr : ∀ q, q ≠ p → Rely st t q) (ht : ∀ i s, readAt t.slots i = some s → s.stamp < t.stamp) :
    LogInv (t.move p pc) := by
  constructor
  case procs =>
    intro q
    by_cases hqp : q = p
    · subst hqp
      simp only [LogSt.move, Function.update_self]
      exact hpc
    · simp only [LogSt.move, Function.update_of_ne hqp, hprocs]
      have hq : (st.procs q).Ok t q := (hI.procs q).rely (hr q hqp)
      exact hq
  case stamps => exact ht

/-- the process alone moves -/
theorem LogInv.move_self {st : LogSt} {p : ℕ} {pc : LogPc} (hI : LogInv st) (hpc : pc.Ok st p) :
    LogInv (st.move p pc) :=
  hI.move rfl hpc (fun _ _ => Rely.of_slots rfl rfl id) hI.stamps

theorem lt_of_readAt {st : LogSt} {i : ℕ} {s : Slot} (h : readAt st.slots i = some s) : i < st.slots.length :=
  (List.getElem?_eq_some_iff.1 h).1

/-- the next system call of a process keeps the invariant -/
theorem logInv_go {st t : LogSt} {p : ℕ} (hI : LogInv st) (h : goLog st p (st.procs p) = some t) : LogInv t := by
  have hok := hI.procs p
  cases hpc : st.procs p with
  | idle => rw [hpc] at h; cases h
  | locking tr =>
    rw [hpc] at h hok
    simp only [goLog] at h
    split_ifs at h with hfree
    cases h
    refine hI.move rfl ⟨hok, rfl, Nat.zero_le _⟩ (fun q _ => Rely.of_slots rfl rfl fun hq => ?_) hI.stamps
    rw [hfree] at hq
    cases hq
  | reading tr pos =>
    rw [hpc] at h hok
    obtain ⟨htr, hlock, hpos⟩ := hok
    simp only [goLog] at h
    split at h
    · rename_i otr hotr
      cases h
      apply hI.move_self
      split_ifs with hlive
      · exact ⟨htr, hlock, lt_of_readAt hotr⟩
      · refine ⟨htr, hlock, hpos, fun s hs => ?_⟩
        rw [hotr] at hs
        cases hs
        exact not_not.1 hlive
    · rename_i hend
      cases h
      apply hI.move_self
      have hnone : ∀ s, readAt st.slots pos = some s → s.tr.code = TR_NONE := by
        intro s hs
        rw [hend] at hs
        cases hs
      split_ifs
      · exact ⟨htr, hlock, hpos, hnone⟩
      · exact ⟨htr, hlock, hpos, hnone⟩
  | rewinding tr pos =>
    rw [hpc] at h hok
    cases h
    exact hI.move_self hok
  | writing tr pos =>
    rw [hpc] at h hok
    obtain ⟨htr, hlock, hpos, hfree⟩ := hok
    cases h
    refine hI.move rfl hlock (fun q hq => Rely.put tr hlock hq hpos) fun i s hs => ?_
    rw [readAt_put hpos] at hs
    split_ifs at hs
    · cases hs
      exact Nat.lt_succ_self _
    · exact Nat.lt_succ_of_lt (hI.stamps i s hs)
  | unlocking =>
    rw [hpc] at h hok
    have hlock : st.lock = some p := hok
    cases h
    refine hI.move rfl trivial (fun q hq => Rely.of_slots rfl rfl fun hq' => ?_) hI.stamps
    rw [hlock] at hq'
    exact absurd (Option.some.inj hq').symm hq
  | scanning uid pos =>
    rw [hpc] at h
    simp only [goLog] at h
    split at h
    · rename_i s hs
      cases h
      apply hI.move_self
      split_ifs with hrep
      · refine ⟨hrep, lt_of_readAt hs, hI.stamps pos s hs, fun s' hs' _ => ?_⟩
        rw [hs] at hs'
        exact Or.inl (Option.some.inj hs').symm
      · trivial
    · cases h
      exact hI.move_self trivial
  | seeking uid pos copy =>
    rw [hpc] at h hok
    cases h
    exact hI.move_self hok
  | blanking uid pos copy =>
    rw [hpc] at h hok
    obtain ⟨-, hpos, -, -⟩ := hok
    cases h
    refine hI.move rfl trivial (fun q _ => Rely.rewrite copy.tr hpos) fun i s hs => ?_
    rw [readAt_rewrite hpos] at hs
    split_ifs at hs
    · cases hs
      have hold : readAt st.slots pos = some st.slots[pos] := List.getElem?_eq_getElem hpos
      simp only [valueAt, hold, Option.getD_some]
      exact hI.stamps pos _ hold
    · exact hI.stamps i s hs

theorem logInv_step {st t : LogSt} {op : LogOp} (hI : LogInv st) (h : logStep st op = some t) : LogInv t := by
  cases op with
  | transaction p tr =>
    simp only [logStep] at h
    split_ifs at h with hp
    cases h
    exact hI.move_self hp.2
  | scantrans p uid =>
    simp only [logStep] at h
    split_ifs at h with hp
    cases h
    exact hI.move_self trivial
  | go p => exact logInv_go hI h
  | giveUp p =>
    simp only [logStep] at h
    split at h
    · cases h
      exact hI.move_self trivial
    · cases h

/-! ## When records are kept -/

/-- a step that leaves the file alone keeps every record -/
theorem kept_of_slots {st : LogSt} {op : LogOp} (h : ∀ t, logStep st op = some t → t.slots = st.slots) :
    Kept st op := by
  intro t ht i s hs _
  rw [h t ht]
  exact Or.inl hs

/-- `transaction` overwrites no record: its slot is free, or at the end of file -/
theorem kept_writing {st : LogSt} {p pos : ℕ} {tr : TransEnt} (hI : LogInv st) (hpc : st.procs p = .writing tr pos) :
    Kept st (.go p) := by
  intro t ht i s hs hlive
  have hok := hI.procs p
  rw [hpc] at hok
  obtain ⟨-, -, hpos, hfree⟩ := hok
  simp only [logStep, hpc, goLog] at ht
  cases ht
  have hne : i ≠ pos := by
    rintro rfl
    exact hlive (hfree s hs)
  apply Or.inl
  rw [LogSt.move_slots, readAt_put hpos, if_neg hne]
  exact hs

/-- a blanking write keeps every record exactly when its slot has not been refilled -/
theorem kept_blanking_iff {st : LogSt} {p pos : ℕ} {uid : ℤ} {copy : Slot} (hI : LogInv st)
    (hpc : st.procs p = .blanking uid pos copy) : Kept st (.go p) ↔ NotRefilled st (.go p) := by
  have hok := hI.procs p
  rw [hpc] at hok
  obtain ⟨hrep, hpos, -, hcopy⟩ := hok
  have hstep : logStep st (.go p) = some ((st.rewrite (blank copy.tr) pos).move p (.scanning uid (pos + 1))) := by
    simp only [logStep, hpc, goLog]
  have hread : ∀ i, readAt ((st.rewrite (blank copy.tr) pos).move p (.scanning uid (pos + 1))).slots i =
      if i = pos then some ⟨blank copy.tr, (valueAt zeroSlot st.slots pos).stamp⟩ else readAt st.slots i :=
    readAt_rewrite hpos (blank copy.tr)
  simp only [NotRefilled, hpc]
  refine ⟨?_, ?_⟩
  · intro hkept s hs hlive
    rcases hkept _ hstep pos s hs hlive with hsame | ⟨q, hq, hqpc⟩
    · -- the slot now holds a null entry
      rw [hread pos, if_pos rfl] at hsame
      cases hsame
      exact absurd rfl hlive
    · cases hq
      rw [hpc] at hqpc
      cases hqpc
      rfl
  · intro hnot t ht i s hs hlive
    rw [hstep] at ht
    cases ht
    by_cases hi : i = pos
    · subst hi
      obtain rfl : s = copy := (hcopy s hs (hnot s hs hlive)).resolve_right hlive
      refine Or.inr ⟨p, rfl, ?_⟩
      rw [hpc, hrep.2]
    · exact Or.inl (by rw [hread i, if_neg hi, hs])

/-- a step keeps every record exactly when it is no write over a refilled slot -/
theorem kept_iff_notRefilled {st : LogSt} (hI : LogInv st) (op : LogOp) : Kept st op ↔ NotRefilled st op := by
  cases op with
  | transaction p tr =>
    refine iff_of_true (kept_of_slots fun t ht => ?_) trivial
    simp only [logStep] at ht
    split_ifs at ht
    cases ht
    rfl
  | scantrans p uid =>
    refine iff_of_true (kept_of_slots fun t ht => ?_) trivial
    simp only [logStep] at ht
    split_ifs at ht
    cases ht
    rfl
  | giveUp p =>
    refine iff_of_true (kept_of_slots fun t ht => ?_) trivial
    simp only [logStep] at ht
    split at ht
    · cases ht
      rfl
    · cases ht
  | go p =>
    cases hpc : st.procs p with
    | blanking uid pos copy => exact kept_blanking_iff hI hpc
    | writing tr pos => exact iff_of_true (kept_writing hI hpc) (by simp only [NotRefilled, hpc])
    | idle =>
      refine iff_of_true (kept_of_slots fun t ht => ?_) (by simp only [NotRefilled, hpc])
      simp only [logStep, hpc, goLog] at ht
      cases ht
    | _ =>
      refine iff_of_true (kept_of_slots fun t ht => ?_) (by simp only [NotRefilled, hpc])
      simp only [logStep, hpc, goLog] at ht
      first
        | cases ht; rfl
        | split_ifs at ht; cases ht; rfl
        | split at ht <;> (cases ht; rfl)

/-- **No lost record.** In a run that starts with nobody in the file, every record stays in its slot until a scan for
its own uid has read it and blanks it, if and only if no scan blanks a slot over a record that was written there after
it read the slot. -/
theorem log_kept_iff (st : LogSt) (ops : List LogOp) (h0 : st.Quiet) :
    Runs.Along logStep Kept st ops ↔ Runs.Along logStep NotRefilled st ops :=
  Runs.along_congr (fun _ _ _ hI h => logInv_step hI h) (fun _ op _ hI _ => kept_iff_notRefilled hI op) ops h0.inv

/-! ## One process alone -/

def LogSt.file (st : LogSt) : TransFile := ⟨st.slots.map Slot.tr, st.tail⟩

/-- one system call of a process that has been moved -/
theorem go_move (st : LogSt) (p : ℕ) (pc : LogPc) : logStep (st.move p pc) (.go p) = goLog (st.move p pc) p pc := by
  simp only [logStep, LogSt.move, Function.update_self]

/-- the loop of `transaction` passes the records before the first free slot -/
theorem reads_to_free (st : LogSt) (p pos k : ℕ) (tr : TransEnt)
    (hk : firstFree ((st.slots.drop pos).map Slot.tr) = k) :
    Runs.Repeats logStep (.go p) (st.move p (.reading tr pos)) (st.move p (.reading tr (pos + k))) := by
  induction k generalizing pos with
  | zero => exact .refl _ _
  | succ k ih =>
    cases hd : st.slots.drop pos with
    | nil => rw [hd] at hk; cases hk
    | cons otr rest =>
      have hread : readAt st.slots pos = some otr := by
        rw [readAt, ← List.head?_drop, hd, List.head?_cons]
      have hrest : st.slots.drop (pos + 1) = rest := by rw [← List.tail_drop, hd, List.tail_cons]
      rw [hd, List.map_cons, firstFree] at hk
      split_ifs at hk with hlive
      have hstep : logStep (st.move p (.reading tr pos)) (.go p) = some (st.move p (.reading tr (pos + 1))) := by
        rw [go_move]
        simp only [goLog, LogSt.move_slots, hread, if_pos hlive, LogSt.move_move]
      refine .head hstep ?_
      rw [show pos + (k + 1) = pos + 1 + k by omega]
      exact ih (pos + 1) (by rw [hrest]; omega)

/-- from the read of a free slot, or of the end of file, to the write there -/
theorem rewinds (st : LogSt) (p pos : ℕ) (tr : TransEnt)
    (hfree : ∀ s, readAt st.slots pos = some s → s.tr.code = TR_NONE) :
    Runs.Repeats logStep (.go p) (st.move p (.reading tr pos)) (st.move p (.writing tr pos)) := by
  have hread : logStep (st.move p (.reading tr pos)) (.go p) = some (st.move p (.rewinding tr pos)) ∨
      logStep (st.move p (.reading tr pos)) (.go p) = some (st.move p (.writing tr pos)) := by
    rw [go_move]
    simp only [goLog, LogSt.move_slots, LogSt.move_tail]
    cases hr : readAt st.slots pos with
    | some s => simp [hfree s hr]
    | none =>
      by_cases htail : st.tail = 0
      · simp [htail]
      · simp [htail]
  have hseek : logStep (st.move p (.rewinding tr pos)) (.go p) = some (st.move p (.writing tr pos)) := by
    rw [go_move]
    simp only [goLog, LogSt.move_move]
  rcases hread with h | h
  · exact .head h (.head hseek (.refl _ _))
  · exact .head h (.refl _ _)

/-- the write puts the record where `transaction` of `Bank.TransFile` does -/
theorem put_file (st : LogSt) (tr : TransEnt) : (st.put tr (firstFree st.file.recs)).file = transaction st.file tr := by
  have hle : firstFree st.file.recs ≤ st.slots.length := by
    have h := firstFree_le st.file.recs
    rwa [LogSt.file, List.length_map] at h
  have hlen : st.file.recs.length = st.slots.length := List.length_map _
  unfold transaction LogSt.put writeAt
  simp only [hlen]
  split_ifs with h
  · simp [LogSt.file, List.map_set]
  · have hend : firstFree st.file.recs - st.slots.length = 0 := Nat.sub_eq_zero_of_le hle
    rw [hend]
    simp [LogSt.file]

/-- **`transaction` alone.** A process that finds the lock free and is not disturbed leaves the file that
`Bank.TransFile` says. -/
theorem transaction_alone (st : LogSt) (p : ℕ) (tr : TransEnt) (hidle : st.procs p = .idle) (hlock : st.lock = none)
    (htr : tr.code ≠ TR_NONE) :
    ∃ u t, logStep st (.transaction p tr) = some u ∧ Runs.Repeats logStep (.go p) u t ∧ t.procs p = .idle ∧
      t.file = transaction st.file tr := by
  let st₁ : LogSt := { st with lock := some p }
  let i := firstFree st.file.recs
  have hstart : logStep st (.transaction p tr) = some (st.move p (.locking tr)) := by
    simp only [logStep, hidle, true_and, if_pos htr]
  have hset : logStep (st.move p (.locking tr)) (.go p) = some (st₁.move p (.reading tr 0)) := by
    rw [go_move]
    simp only [goLog, LogSt.move_lock, hlock, if_true]
    exact congrArg some (st₁.move_move p _ _)
  have hfree : ∀ s, readAt st₁.slots i = some s → s.tr.code = TR_NONE := by
    intro s hs
    obtain ⟨hlt, rfl⟩ := List.getElem?_eq_some_iff.1 hs
    have hlt' : firstFree st.file.recs < st.file.recs.length := by
      rw [LogSt.file, List.length_map]
      exact hlt
    have hnull := firstFree_null hlt'
    simp only [LogSt.file, List.getElem_map] at hnull
    exact hnull
  have hwrite : logStep (st₁.move p (.writing tr i)) (.go p) = some ((st₁.put tr i).move p .unlocking) := by
    rw [go_move]
    exact congrArg some ((st₁.put tr i).move_move p _ _)
  have hunlock : logStep ((st₁.put tr i).move p .unlocking) (.go p) = some ((st.put tr i).move p .idle) := by
    rw [go_move]
    simp [goLog, LogSt.put, LogSt.move, st₁, hlock]
  refine ⟨_, (st.put tr i).move p .idle, hstart, .head hset ?_, Function.update_self _ _ _, put_file st tr⟩
  have hreads := reads_to_free st₁ p 0 i tr rfl
  rw [Nat.zero_add] at hreads
  exact hreads.trans ((rewinds st₁ p i tr hfree).trans (.head hwrite (.head hunlock (.refl _ _))))

/-- what a scan for `uid` leaves of a record -/
def scanned (uid : ℤ) (s : Slot) : Slot := if Reports uid s.tr then ⟨blank s.tr, s.stamp⟩ else s

/-- the loop of `scantrans` from slot `pos` on -/
theorem scans (st : LogSt) (p pos : ℕ) (uid : ℤ) (rest : List Slot) (hrest : st.slots.drop pos = rest) :
    ∃ t, Runs.Repeats logStep (.go p) (st.move p (.scanning uid pos)) t ∧ t.procs p = .idle ∧ t.tail = st.tail ∧
      t.slots = st.slots.take pos ++ rest.map (scanned uid) := by
  induction rest generalizing st pos with
  | nil =>
    have hend : readAt st.slots pos = none := List.getElem?_eq_none (List.drop_eq_nil_iff.1 hrest)
    have hstep : logStep (st.move p (.scanning uid pos)) (.go p) = some (st.move p .idle) := by
      rw [go_move]
      simp only [goLog, LogSt.move_slots, hend, LogSt.move_move]
    refine ⟨st.move p .idle, .head hstep (.refl _ _), Function.update_self _ _ _, rfl, ?_⟩
    rw [List.map_nil, List.append_nil, List.take_of_length_le (List.drop_eq_nil_iff.1 hrest)]
    rfl
  | cons s rest ih =>
    have hread : readAt st.slots pos = some s := by rw [readAt, ← List.head?_drop, hrest, List.head?_cons]
    have hlt := lt_of_readAt hread
    have hs : st.slots[pos] = s := (List.getElem?_eq_some_iff.1 hread).2
    have htail : st.slots.drop (pos + 1) = rest := by rw [← List.tail_drop, hrest, List.tail_cons]
    by_cases hrep : Reports uid s.tr
    · have hstep : logStep (st.move p (.scanning uid pos)) (.go p) = some (st.move p (.seeking uid pos s)) := by
        rw [go_move]
        simp only [goLog, LogSt.move_slots, hread, if_pos hrep, LogSt.move_move]
      have hseek : logStep (st.move p (.seeking uid pos s)) (.go p) = some (st.move p (.blanking uid pos s)) := by
        rw [go_move]
        simp only [goLog, LogSt.move_move]
      have hblank : logStep (st.move p (.blanking uid pos s)) (.go p) =
          some ((st.rewrite (blank s.tr) pos).move p (.scanning uid (pos + 1))) := by
        rw [go_move]
        exact congrArg some ((st.rewrite (blank s.tr) pos).move_move p _ _)
      have hslots : (st.rewrite (blank s.tr) pos).slots = st.slots.set pos (scanned uid s) := by
        simp only [LogSt.rewrite, writeAt, if_pos hlt, valueAt, hread, Option.getD_some, scanned, if_pos hrep]
      obtain ⟨t, ht, hidle, htl, hst⟩ := ih (st.rewrite (blank s.tr) pos) (pos + 1)
        (by rw [hslots, List.drop_set_of_lt (Nat.lt_succ_self pos), htail])
      refine ⟨t, .head hstep (.head hseek (.head hblank ht)), hidle, htl, ?_⟩
      rw [hst, hslots, List.map_cons, List.take_succ_eq_append_getElem (by rw [List.length_set]; exact hlt),
        List.getElem_set_self, List.take_set_of_le (le_refl pos), List.append_assoc, List.singleton_append]
    · have hstep : logStep (st.move p (.scanning uid pos)) (.go p) = some (st.move p (.scanning uid (pos + 1))) := by
        rw [go_move]
        simp only [goLog, LogSt.move_slots, hread, if_neg hrep, LogSt.move_move]
      obtain ⟨t, ht, hidle, htl, hst⟩ := ih st (pos + 1) htail
      refine ⟨t, .head hstep ht, hidle, htl, ?_⟩
      rw [hst, List.map_cons, scanned, if_neg hrep, List.take_succ_eq_append_getElem hlt, hs, List.append_assoc,
        List.singleton_append]

/-- **`scantrans` alone** leaves the file that `Bank.TransFile` says. -/
theorem scantrans_alone (st : LogSt) (p : ℕ) (uid : ℤ) (hidle : st.procs p = .idle) :
    ∃ u t, logStep st (.scantrans p uid) = some u ∧ Runs.Repeats logStep (.go p) u t ∧ t.procs p = .idle ∧
      t.file = (scantrans st.file uid).1 := by
  obtain ⟨t, ht, hend, htail, hslots⟩ := scans st p 0 uid st.slots rfl
  refine ⟨st.move p (.scanning uid 0), t, by simp only [logStep, hidle, if_true], ht, hend, ?_⟩
  rw [List.take_zero, List.nil_append] at hslots
  simp only [LogSt.file, hslots, htail, scantrans, List.map_map, TransFile.mk.injEq, and_true]
  apply List.map_congr_left
  intro s _
  simp only [Function.comp_apply, scanned]
  split_ifs <;> rfl

/-! ## A refilled slot -/

def gift : TransEnt := ⟨5, TR_GIFT, ['b'], [], 7⟩

def xfer : TransEnt := ⟨6, TR_XFER, ['p'], [], 3⟩

/-- the gift is the only record, and nobody is at work -/
def oneGift : LogSt := ⟨[⟨gift, 0⟩], 0, none, 1, fun _ => .idle⟩

/-- customer 5 reads about the gift, and then the transfer takes its slot -/
def scanThenPut : List LogOp :=
  [.scantrans 0 5, .go 0, .go 0, .go 0, .transaction 2 xfer, .go 2, .go 2, .go 2, .go 2, .go 2]

theorem log_kept_scanThenPut : oneGift.Quiet ∧ Runs.Along logStep Kept oneGift scanThenPut := by
  have h0 : oneGift.Quiet := ⟨rfl, fun _ => rfl, by decide⟩
  exact ⟨h0, (log_kept_iff oneGift scanThenPut h0).2 (by decide)⟩

/-- customer 5 runs two scans at once: the second has read the gift when the first blanks it, and blanks the slot when
the transfer to customer 6 has taken it -/
def twoScans : List LogOp :=
  [.scantrans 1 5, .go 1, .go 1] ++ scanThenPut

/-- **A refilled slot is blanked.** Nobody has read the transfer to customer 6, and it is gone. -/
theorem refilled_slot :
    oneGift.Quiet ∧
      ((Runs.run logStep oneGift twoScans).map LogSt.slots) = some [⟨xfer, 1⟩] ∧
      ((Runs.run logStep oneGift (twoScans ++ [.go 1])).map LogSt.slots) = some [⟨blank gift, 1⟩] ∧
      ¬Runs.Along logStep Kept oneGift (twoScans ++ [.go 1]) := by
  have hbefore : (Runs.run logStep oneGift twoScans).map LogSt.slots = some [⟨xfer, 1⟩] := by decide
  have hafter : (Runs.run logStep oneGift (twoScans ++ [.go 1])).map LogSt.slots = some [⟨blank gift, 1⟩] := by decide
  refine ⟨⟨rfl, fun _ => rfl, by decide⟩, hbefore, hafter, fun h => ?_⟩
  obtain ⟨st, hst, hslots⟩ := Option.map_eq_some_iff.1 hbefore
  obtain ⟨t, ht, hslots'⟩ := Option.map_eq_some_iff.1 hafter
  rw [Runs.run_append, hst, Option.bind_some, Runs.run_cons] at ht
  obtain ⟨u, hu, hut⟩ := Option.bind_eq_some_iff.1 ht
  cases hut
  rcases h.of_prefix hst hu t hu 0 ⟨xfer, 1⟩ (by rw [hslots]; rfl) (by decide) with hsame | ⟨p, hp, hpc⟩
  · rw [hslots'] at hsame
    cases hsame
  · cases hp
    have hprocs : (Runs.run logStep oneGift twoScans).map (fun st => st.procs 1) = some (.blanking 5 0 ⟨gift, 0⟩) := by
      decide
    rw [hst, Option.map_some, hpc] at hprocs
    exact absurd hprocs (by decide)

end MNetSoft.Bank
