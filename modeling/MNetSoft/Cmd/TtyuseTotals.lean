/-
The seconds that `ttyuse` prints for each line and day, for a file without changes of the clock, and without `-R`,
`/dev` arguments and users. They are right if the program begins with the right sessions: it takes those that are
open at the start of the period from a scan back that begins one record too late, at the first record of the period,
and ends one record too early, at the second record of all.
- `Inv`: what the entries have to do with the sessions of the records.
- `loop_totals`: what is printed, from some record on.
- `printed_totals`: what is printed is right for the sessions that the scan finds.
- `sessions_some`: a session that is open at the start is one more, and the others are the same.
- `totals_right_iff`: all printed seconds are right if and only if, for each line and each day that is printed, the scan
  finds what is true, or the line's first session is over before the day; or it is over in the first second of the day,
  and the next one there has no length.
- `login_charged`: a login that is the first record of its period.

Sessions are those of the records that are considered, in the order they are considered in.
-/
import Mathlib.Tactic
import Mathlib.Data.List.Forall2
import MNetSoft.Cmd.Ttyuse

namespace MNetSoft.Cmd.Ttyuse

open MNetSoft.CString

/-! ## Sessions -/

/-- the last record of a line after the last reboot is a login -/
def loggedIn (line : Str) (recs : List Utmp) : Bool :=
  ((recs.reverse.takeWhile fun r => !BOOTLINE r.line).find? fun r => r.line = line).any fun r => r.name ≠ []

/-- a session that is open is closed -/
def closed (on : Option ℤ) (t : ℤ) : List (ℤ × ℤ) := on.toList.map fun a => (a, t)

/-- the sessions of a line, one being open since `on`: from a login to the next record of the line, to the next
reboot, or to the last record; `t` is the time of the record in front of these -/
def sessions (line : Str) : Option ℤ → ℤ → List Utmp → List (ℤ × ℤ)
  | on, t, [] => closed on t
  | on, _, r :: rs =>
    if BOOTLINE r.line then closed on r.time ++ sessions line none r.time rs
    else if r.line = line then
      closed on r.time ++ sessions line (if r.name = [] then none else some r.time) r.time rs
    else sessions line on r.time rs

/-- a session reaches into the day that begins at `m` -/
def Touches (m : ℤ) (s : ℤ × ℤ) : Prop := s.1 < m + DAY ∧ m ≤ s.2

instance (m : ℤ) (s : ℤ × ℤ) : Decidable (Touches m s) := inferInstanceAs (Decidable (_ ∧ _))

/-- how long it is on this day -/
def overlap (m : ℤ) (s : ℤ × ℤ) : ℤ := min s.2 (m + DAY) - max s.1 m

/-- a total of zero after a session counts as one second -/
def addSecs (tot secs : ℤ) : ℤ := if tot + secs = 0 then 1 else tot + secs

/-- the sessions of a day, as seconds -/
def overlaps (m : ℤ) (ss : List (ℤ × ℤ)) : List ℤ := (ss.filter fun s => Touches m s).map (overlap m)

/-- the seconds of a day, `tot` being there already -/
def totalFrom (tot m : ℤ) (ss : List (ℤ × ℤ)) : ℤ := (overlaps m ss).foldl addSecs tot

/-- the seconds that are printed for a line -/
def secs (printed : List (Str × ℤ)) (line : Str) : ℤ := ((printed.find? fun p => p.1 = line).map Prod.snd).getD 0

/-- a file without changes of the clock, and a period -/
structure Input where
  lflag : Bool
  start : ℤ
  stop : ℤ
  file : List Utmp
  plain : ∀ r ∈ file, TIMELINE r.line = false

namespace Input

def cfg (inp : Input) : Config where
  lflag := inp.lflag
  Rflag := false
  start := inp.start
  stop := inp.stop
  argusers := []
  ttys := []
  nodup := List.nodup_nil
  plain := plain_nil

variable (q : Qsort) (inp : Input)

def recs : List Utmp := considered q inp.cfg inp.file

/-- the records before the period -/
def before : List Utmp := (inp.recs q).takeWhile fun r => r.time < inp.cfg.starttime

/-- the records of the period, and those that follow it -/
def period : List Utmp := (inp.recs q).dropWhile fun r => r.time < inp.cfg.starttime

/-- a session of the line is open at the start of the period -/
def openAtStart (line : Str) : Bool := loggedIn line (inp.before q)

/-- the same for the records from the second one on, up to the first one of the period -/
def openInScan (line : Str) : Bool := loggedIn line (((inp.recs q).take ((inp.before q).length + 1)).drop 1)

/-- the sessions of a line, counted from the start of the period -/
def sessionsFrom (on : Bool) (line : Str) : List (ℤ × ℤ) :=
  sessions line (if on then some inp.cfg.starttime else none) 0 (inp.period q)

/-- All seconds that are printed for a day of the period are right. -/
def TotalsRight : Prop :=
  ∃ out, main q inp.cfg inp.file = some out ∧ ∀ p ∈ out.printed, inp.cfg.starttime ≤ p.1 → p.1 < inp.cfg.stoptime →
    ∀ line, secs p.2 line = totalFrom 0 p.1 (inp.sessionsFrom q (inp.openAtStart q line) line)

end Input

/-! ## Sums -/

section Sums

variable {m tot : ℤ} {ss : List (ℤ × ℤ)} {s : ℤ × ℤ}

theorem overlap_nonneg (hs : s.1 ≤ s.2) (ht : Touches m s) : 0 ≤ overlap m s := by
  have hday : DAY = 86400 := rfl
  obtain ⟨h1, h2⟩ := ht
  rw [overlap]
  omega

theorem nonneg_of_mem_overlaps (hss : ∀ s ∈ ss, s.1 ≤ s.2) : ∀ d ∈ overlaps m ss, 0 ≤ d := by
  intro d hd
  obtain ⟨s, hs, rfl⟩ := List.mem_map.1 hd
  obtain ⟨hmem, htouch⟩ := List.mem_filter.1 hs
  exact overlap_nonneg (hss s hmem) (of_decide_eq_true htouch)

theorem addSecs_pos {a b : ℤ} (ha : 0 ≤ a) (hb : 0 ≤ b) : 0 < addSecs a b := by
  rw [addSecs]
  split_ifs <;> omega

theorem totalFrom_cons (tot m : ℤ) (s : ℤ × ℤ) (ss : List (ℤ × ℤ)) :
    totalFrom tot m (s :: ss) = totalFrom (if Touches m s then addSecs tot (overlap m s) else tot) m ss := by
  rw [totalFrom, totalFrom, overlaps, overlaps]
  by_cases h : Touches m s
  · rw [List.filter_cons_of_pos (by simpa using h), if_pos h, List.map_cons, List.foldl_cons]
  · rw [List.filter_cons_of_neg (by simpa using h), if_neg h]

theorem overlaps_eq_nil (h : ∀ s ∈ ss, ¬ Touches m s) : overlaps m ss = [] := by
  rw [overlaps, List.filter_eq_nil_iff.2 fun s hs => by simpa using h s hs]
  rfl

theorem totalFrom_eq_self (h : ∀ s ∈ ss, ¬ Touches m s) (tot : ℤ) : totalFrom tot m ss = tot := by
  rw [totalFrom, overlaps_eq_nil h]
  rfl

/-- a positive total is only added to -/
theorem foldl_addSecs_of_pos {ds : List ℤ} (htot : 0 < tot) (hds : ∀ d ∈ ds, 0 ≤ d) :
    ds.foldl addSecs tot = tot + ds.sum := by
  induction ds generalizing tot with
  | nil => simp
  | cons d ds ih =>
    have hd := hds d List.mem_cons_self
    have hadd : addSecs tot d = tot + d := if_neg (by omega)
    rw [List.foldl_cons, hadd, ih (by omega) fun d hd => hds d (List.mem_cons_of_mem _ hd), List.sum_cons]
    ring

theorem foldl_addSecs_pos {ds : List ℤ} (htot : 0 ≤ tot) (hds : ∀ d ∈ ds, 0 ≤ d) (hne : ds ≠ []) :
    0 < ds.foldl addSecs tot := by
  obtain ⟨d, ds, rfl⟩ := List.exists_cons_of_ne_nil hne
  have hd := addSecs_pos htot (hds d List.mem_cons_self)
  have hds' : ∀ d ∈ ds, 0 ≤ d := fun d hd => hds d (List.mem_cons_of_mem _ hd)
  rw [List.foldl_cons, foldl_addSecs_of_pos hd hds']
  have hsum := List.sum_nonneg hds'
  omega

/-- **One session more** makes no difference if and only if it has a second at most, and the next one has none. -/
theorem extra_iff {d : ℤ} {ds : List ℤ} (hd : 0 ≤ d) (hds : ∀ d ∈ ds, 0 ≤ d) :
    (d :: ds).foldl addSecs 0 = ds.foldl addSecs 0 ↔ d ≤ 1 ∧ ds.head? = some 0 := by
  have hfirst : ∀ d, 0 ≤ d → addSecs 0 d = max d 1 := by
    intro d hd
    rw [addSecs]
    split_ifs <;> omega
  rw [List.foldl_cons, hfirst d hd, foldl_addSecs_of_pos (by omega) hds]
  cases ds with
  | nil =>
    simp only [List.sum_nil, List.foldl_nil, List.head?_nil, reduceCtorEq, and_false, iff_false]
    omega
  | cons d' ds =>
    have hd' := hds d' List.mem_cons_self
    have hds' : ∀ d ∈ ds, 0 ≤ d := fun d hd => hds d (List.mem_cons_of_mem _ hd)
    rw [List.foldl_cons, hfirst d' hd', foldl_addSecs_of_pos (by omega) hds', List.sum_cons, List.head?_cons,
      Option.some_inj]
    omega

end Sums

section Sessions

variable {line : Str} {on : Option ℤ} {t T D a : ℤ} {r : Utmp} {rs : List Utmp}

/-- when a session that is open ends -/
def firstEnd (line : Str) : ℤ → List Utmp → ℤ
  | t, [] => t
  | _, r :: rs => if BOOTLINE r.line ∨ r.line = line then r.time else firstEnd line r.time rs

/-- **A session that is open** is one more than the others. -/
theorem sessions_some (line : Str) (a t : ℤ) (rs : List Utmp) :
    sessions line (some a) t rs = (a, firstEnd line t rs) :: sessions line none t rs := by
  induction rs generalizing t with
  | nil => rfl
  | cons r rs ih =>
    rw [sessions, sessions, firstEnd]
    by_cases hboot : BOOTLINE r.line = true
    · rw [if_pos hboot, if_pos hboot, if_pos (Or.inl hboot)]
      rfl
    · by_cases hline : r.line = line
      · rw [if_neg hboot, if_neg hboot, if_pos hline, if_pos hline, if_pos (Or.inr hline)]
        rfl
      · rw [if_neg hboot, if_neg hboot, if_neg hline, if_neg hline, if_neg fun h => h.elim hboot hline, ih]

theorem le_firstEnd (ht : T ≤ t) (hrs : ∀ r ∈ rs, T ≤ r.time) (line : Str) : T ≤ firstEnd line t rs := by
  induction rs generalizing t with
  | nil => exact ht
  | cons r rs ih =>
    have hr := hrs r List.mem_cons_self
    rw [firstEnd]
    split_ifs
    · exact hr
    · exact ih hr fun r hr => hrs r (List.mem_cons_of_mem _ hr)

/-- who is logged in on a line after a record, since when -/
def stepOn (r : Utmp) (line : Str) (on : Option ℤ) : Option ℤ :=
  if BOOTLINE r.line then none else if r.line = line then (if r.name = [] then none else some r.time) else on

theorem sessions_cons (line : Str) (on : Option ℤ) (t : ℤ) (r : Utmp) (rs : List Utmp) :
    sessions line on t (r :: rs) = (if BOOTLINE r.line ∨ r.line = line then closed on r.time else []) ++
      sessions line (stepOn r line on) r.time rs := by
  rw [sessions, stepOn]
  by_cases hboot : BOOTLINE r.line = true
  · rw [if_pos hboot, if_pos hboot, if_pos (Or.inl hboot)]
  · by_cases hline : r.line = line
    · rw [if_neg hboot, if_neg hboot, if_pos hline, if_pos hline, if_pos (Or.inr hline)]
    · rw [if_neg hboot, if_neg hboot, if_neg hline, if_neg hline, if_neg fun h => h.elim hboot hline, List.nil_append]

/-- sessions begin with a record, and end after it -/
theorem le_of_mem_sessions (line : Str) (t : ℤ) (hsorted : rs.Pairwise fun r r' => r.time ≤ r'.time)
    (hrs : ∀ r ∈ rs, T ≤ r.time) : ∀ s ∈ sessions line none t rs, T ≤ s.1 ∧ s.1 ≤ s.2 := by
  induction rs generalizing t T with
  | nil => exact fun s hs => absurd hs List.not_mem_nil
  | cons r rs ih =>
    intro s hs
    obtain ⟨hfirst, hsorted⟩ := List.pairwise_cons.1 hsorted
    have hr := hrs r List.mem_cons_self
    have hrest : ∀ s ∈ sessions line none r.time rs, T ≤ s.1 ∧ s.1 ≤ s.2 :=
      ih r.time hsorted fun r hr => hrs r (List.mem_cons_of_mem _ hr)
    have hclosed : (if BOOTLINE r.line ∨ r.line = line then closed none r.time else []) = [] := by
      split_ifs <;> rfl
    rw [sessions_cons, hclosed, List.nil_append] at hs
    cases hon : stepOn r line none with
    | none =>
      rw [hon] at hs
      exact hrest s hs
    | some a =>
      have ha : a = r.time := by
        rw [stepOn] at hon
        split_ifs at hon
        exact (Option.some.inj hon).symm
      rw [hon, sessions_some, ha] at hs
      rcases List.mem_cons.1 hs with rfl | hs
      · exact ⟨hr, le_firstEnd le_rfl hfirst line⟩
      · exact hrest s hs

/-- what is charged when an open session ends -/
def ended (on : Option ℤ) (tot D t : ℤ) : ℤ :=
  match on with
  | none => tot
  | some a => addSecs tot (t - max a D)

/-- a session that ends on a day is charged -/
theorem totalFrom_closed (hon : ∀ a ∈ on, a ≤ t) (hlow : D ≤ t) (hhigh : t < D + DAY) (tot : ℤ) (ss : List (ℤ × ℤ)) :
    totalFrom tot D (closed on t ++ ss) = totalFrom (ended on tot D t) D ss := by
  cases on with
  | none => rfl
  | some a =>
    have ha := hon a rfl
    have htouch : Touches D (a, t) := ⟨by dsimp only; omega, hlow⟩
    have hoverlap : overlap D (a, t) = t - max a D := by
      rw [overlap, min_eq_left hhigh.le]
    calc totalFrom tot D (closed (some a) t ++ ss)
        = totalFrom (if Touches D (a, t) then addSecs tot (overlap D (a, t)) else tot) D ss := totalFrom_cons _ _ _ _
      _ = totalFrom (addSecs tot (t - max a D)) D ss := by rw [if_pos htouch, hoverlap]

/-- on later days, it is over -/
theorem totalFrom_closed_later (hlater : t < D) (tot : ℤ) (ss : List (ℤ × ℤ)) :
    totalFrom tot D (closed on t ++ ss) = totalFrom tot D ss := by
  cases on with
  | none => rfl
  | some a =>
    have htouch : ¬ Touches D (a, t) := fun h => not_le.2 hlater h.2
    calc totalFrom tot D (closed (some a) t ++ ss)
        = totalFrom (if Touches D (a, t) then addSecs tot (overlap D (a, t)) else tot) D ss := totalFrom_cons _ _ _ _
      _ = totalFrom tot D ss := by rw [if_neg htouch]

/-- at the end of a day, an open session is charged up to midnight, and there are no others -/
theorem totalFrom_midnight (hon : ∀ a ∈ on, a < D + DAY) (hsorted : (r :: rs).Pairwise fun r r' => r.time ≤ r'.time)
    (hr : D + DAY ≤ r.time) (line : Str) (t tot : ℤ) :
    totalFrom tot D (sessions line on t (r :: rs)) = ended on tot D (D + DAY) := by
  have hday : DAY = 86400 := rfl
  have hrs : ∀ r' ∈ r :: rs, D + DAY ≤ r'.time := by
    rintro r' (_ | ⟨_, hr'⟩)
    · exact hr
    · exact hr.trans ((List.pairwise_cons.1 hsorted).1 r' hr')
  have hrest : ∀ s ∈ sessions line none t (r :: rs), ¬ Touches D s := by
    intro s hs htouch
    exact not_lt.2 (le_of_mem_sessions line t hsorted hrs s hs).1 htouch.1
  cases on with
  | none => exact totalFrom_eq_self hrest tot
  | some a =>
    have ha := hon a rfl
    have hend : D + DAY ≤ firstEnd line t (r :: rs) := le_firstEnd (t := r.time) hr hrs line
    have htouch : Touches D (a, firstEnd line t (r :: rs)) := ⟨ha, by dsimp only; omega⟩
    have hoverlap : overlap D (a, firstEnd line t (r :: rs)) = D + DAY - max a D := by
      rw [overlap, min_eq_right hend]
    rw [sessions_some, totalFrom_cons, if_pos htouch, hoverlap, totalFrom_eq_self hrest]
    rfl

end Sessions

/-! ## Entries -/

section Entries

variable {on on' : Str → Option ℤ} {acc acc' : Str → ℤ} {D D' : ℤ} {entries entries' : List Entry} {e : Entry}

/-- what an entry has to do with the records of its line: who is logged in since when, and the seconds of the day -/
def Known (on : Str → Option ℤ) (acc : Str → ℤ) (D : ℤ) (e : Entry) : Prop :=
  (e.name = [] ↔ on e.line = none) ∧ (∀ a ∈ on e.line, e.time = max a D) ∧ e.daysecs = acc e.line

/-- the entries are right, and there is nothing to know of lines that have none -/
structure Inv (on : Str → Option ℤ) (acc : Str → ℤ) (D : ℤ) (entries : List Entry) : Prop where
  known : ∀ e ∈ entries, Known on acc D e
  unknown : ∀ line, (∀ e ∈ entries, e.line ≠ line) → on line = none ∧ acc line = 0

/-- entries that are changed one by one -/
theorem inv_of_drawn {f : Entry → Entry} (hall : List.Forall₂ (Drawn f) entries entries')
    (hline : ∀ e, (f e).line = e.line) (hknown : ∀ e ∈ entries, Known on acc D (f e))
    (hunknown : ∀ line, (∀ e ∈ entries, e.line ≠ line) → on line = none ∧ acc line = 0) : Inv on acc D entries' := by
  constructor
  · intro e' he'
    obtain ⟨n, hn, rfl⟩ := List.mem_iff_getElem.1 he'
    have hn' : n < entries.length := hall.length_eq ▸ hn
    obtain ⟨l, hl⟩ := hall.get hn' hn
    rw [List.get_eq_getElem, List.get_eq_getElem] at hl
    rw [hl]
    exact hknown _ (List.getElem_mem hn')
  · intro line hnone
    refine hunknown line fun e he => ?_
    obtain ⟨n, hn, rfl⟩ := List.mem_iff_getElem.1 he
    have hn' : n < entries'.length := hall.length_eq ▸ hn
    obtain ⟨l, hl⟩ := hall.get hn hn'
    rw [List.get_eq_getElem, List.get_eq_getElem] at hl
    have hne := hnone _ (List.getElem_mem hn')
    rw [hl] at hne
    exact fun h => hne ((hline _).trans h)

theorem Inv.map (h : Inv on acc D entries) {f : Entry → Entry} (hall : List.Forall₂ (Drawn f) entries entries')
    (hline : ∀ e, (f e).line = e.line) (hknown : ∀ e ∈ entries, Known on acc D e → Known on' acc' D' (f e))
    (hunknown : ∀ line, (∀ e ∈ entries, e.line ≠ line) → on line = none → acc line = 0 →
      on' line = none ∧ acc' line = 0) : Inv on' acc' D' entries' := by
  refine inv_of_drawn hall hline (fun e he => hknown e he (h.known e he)) fun line hnone => ?_
  obtain ⟨hon, hacc⟩ := h.unknown line hnone
  exact hunknown line hnone hon hacc

theorem line_loggedOut (t : ℤ) (e : Entry) : (loggedOut t e).line = e.line := by
  rw [loggedOut]
  split_ifs <;> rfl

theorem daysecs_charge (secs : ℤ) (e : Entry) : (charge secs e).daysecs = addSecs e.daysecs secs := by
  rw [charge, addSecs]
  split_ifs with h
  · rw [h]
    rfl
  · rfl

/-- the seconds of a line when its session ends -/
theorem Known.ended (h : Known on acc D e) (t : ℤ) :
    (if e.name = [] then e.daysecs else addSecs e.daysecs (t - e.time)) = ended (on e.line) (acc e.line) D t := by
  obtain ⟨hname, htime, hsecs⟩ := h
  rw [hsecs]
  cases hon : on e.line with
  | none => exact if_pos (hname.2 hon)
  | some a =>
    rw [if_neg fun hnil => Option.some_ne_none a (hon.symm.trans (hname.1 hnil)), htime a hon]
    rfl

theorem daysecs_charged (h : Known on acc D e) (t : ℤ) :
    (charged t e).daysecs = ended (on e.line) (acc e.line) D t := by
  rw [← h.ended t, charged]
  split_ifs
  · rfl
  · exact daysecs_charge _ _

theorem loggedOut_spec (h : Known on acc D e) (t : ℤ) :
    (loggedOut t e).name = [] ∧ (loggedOut t e).daysecs = ended (on e.line) (acc e.line) D t := by
  rw [← h.ended t, loggedOut]
  split_ifs with hname
  · exact ⟨hname, rfl⟩
  · exact ⟨rfl, daysecs_charge _ _⟩

/-- a reboot ends all sessions -/
theorem Inv.reboot (h : Inv on acc D entries) {t : ℤ} (hall : List.Forall₂ (Drawn (loggedOut t)) entries entries') :
    Inv (fun _ => none) (fun line => ended (on line) (acc line) D t) D entries' := by
  refine h.map hall (line_loggedOut t) (fun e he hknown => ?_) fun line _ hon hacc => ⟨rfl, by rw [hon]; exact hacc⟩
  obtain ⟨hname, hsecs⟩ := loggedOut_spec hknown t
  rw [Known, line_loggedOut]
  exact ⟨iff_of_true hname rfl, (fun a ha => absurd ha (Option.not_mem_none a)), hsecs⟩

/-- at midnight all sessions are charged -/
theorem Inv.charged (h : Inv on acc D entries) {t : ℤ} (hall : List.Forall₂ (Drawn (charged t)) entries entries') :
    Inv on (fun line => ended (on line) (acc line) D t) D entries' := by
  have hfields : ∀ e, (Ttyuse.charged t e).line = e.line ∧ (Ttyuse.charged t e).name = e.name ∧
      (Ttyuse.charged t e).time = e.time := by
    intro e
    rw [Ttyuse.charged]
    split_ifs <;> exact ⟨rfl, rfl, rfl⟩
  refine h.map hall (fun e => (hfields e).1) (fun e he hknown => ?_)
    fun line _ hon hacc => ⟨hon, by rw [hon]; exact hacc⟩
  have hsecs := daysecs_charged hknown t
  obtain ⟨hline, hname, htime⟩ := hfields e
  rw [Known, hline, hname, htime]
  exact ⟨hknown.1, hknown.2.1, hsecs⟩

/-- a new day begins, whatever the times of the entries are -/
theorem inv_renewed {m : ℤ} (hname : ∀ e ∈ entries, e.name = [] ↔ on e.line = none)
    (hnone : ∀ line, (∀ e ∈ entries, e.line ≠ line) → on line = none) (hon : ∀ line, ∀ a ∈ on line, a ≤ m)
    (hall : List.Forall₂ (Drawn (renewed m 0)) entries entries') : Inv on (fun _ => 0) m entries' := by
  refine inv_of_drawn hall (fun e => rfl) (fun e he => ⟨hname e he, fun a ha => ?_, rfl⟩)
    fun line hline => ⟨hnone line hline, rfl⟩
  have hne : e.name ≠ [] := fun hnil => Option.some_ne_none a (Eq.trans (Eq.symm ha) ((hname e he).1 hnil))
  rw [max_eq_right (hon e.line a ha), renewed]
  simp only [if_neg hne, if_pos]

theorem Inv.renewed (h : Inv on acc D entries) {m : ℤ} (hon : ∀ line, ∀ a ∈ on line, a ≤ m)
    (hall : List.Forall₂ (Drawn (renewed m 0)) entries entries') : Inv on (fun _ => 0) m entries' :=
  inv_renewed (fun e he => (h.known e he).1) (fun line hline => (h.unknown line hline).1) hon hall

/-- a record ends the session of its line, and may begin one -/
theorem Inv.logged {cfg : Config} (hcfg : cfg.argusers = []) (h : Inv on acc D entries) {r : Utmp} (hr : D ≤ r.time)
    (hmem : ∃ e ∈ entries, e.line = r.line)
    (hall : List.Forall₂ (fun e e' : Entry => if e.line = r.line then Drawn (logged cfg r) e e' else e' = e)
      entries entries') :
    Inv (fun line => if r.line = line then (if r.name = [] then none else some r.time) else on line)
      (fun line => if r.line = line then ended (on line) (acc line) D r.time else acc line) D entries' := by
  have hline : ∀ e, (Ttyuse.logged cfg r e).line = e.line := by
    intro e
    rw [Ttyuse.logged]
    split_ifs
    · exact line_loggedOut _ _
    · exact line_loggedOut _ _
  have hdrawn : List.Forall₂ (Drawn fun e => if e.line = r.line then Ttyuse.logged cfg r e else e)
      entries entries' := by
    refine hall.imp fun e e' he => ?_
    split_ifs at he with heq
    · obtain ⟨l, rfl⟩ := he
      exact ⟨l, by simp only [if_pos heq]⟩
    · exact ⟨e.l, by simp only [if_neg heq, he]⟩
  refine h.map hdrawn (fun e => ?_) (fun e he hknown => ?_) fun line hnone hon hacc => ?_
  · split_ifs
    · exact hline e
    · rfl
  · by_cases heq : e.line = r.line
    · obtain ⟨hname, hsecs⟩ := loggedOut_spec hknown r.time
      rw [if_pos heq, Known, hline, if_pos heq.symm, if_pos heq.symm]
      by_cases hlogin : r.name = []
      · have hskip : Ttyuse.logged cfg r e = loggedOut r.time e := if_pos (Or.inl hlogin)
        rw [hskip, if_pos hlogin]
        exact ⟨iff_of_true hname rfl, (fun a ha => absurd ha (Option.not_mem_none a)), hsecs⟩
      · have hskip : Ttyuse.logged cfg r e =
            { loggedOut r.time e with time := r.time, name := (fudge r.name).take NAMESIZE } :=
          if_neg fun h => h.elim hlogin fun h => h.1 hcfg
        have hfudge : (fudge r.name).take NAMESIZE ≠ [] := by
          obtain ⟨c, name, hc⟩ := List.exists_cons_of_ne_nil hlogin
          rw [hc]
          exact List.cons_ne_nil _ _
        rw [hskip, if_neg hlogin]
        refine ⟨iff_of_false hfudge (Option.some_ne_none _), fun a ha => ?_, hsecs⟩
        rw [← Option.some.inj ha, max_eq_left hr]
    · rw [if_neg heq, Known, if_neg (Ne.symm heq), if_neg (Ne.symm heq)]
      exact hknown
  · obtain ⟨e, he, heq⟩ := hmem
    have hne : ¬ r.line = line := fun h => hnone e he (heq.trans h)
    rw [if_neg hne, if_neg hne]
    exact ⟨hon, hacc⟩

/-- a line that is looked up has an entry -/
theorem Inv.lookup (h : Inv on acc D entries) (d : ℕ) {line : Str} (hline : SPCLLINE line = false) :
    ∃ known, lookup d entries line true = some known ∧ Inv on acc D known ∧ ∃ e ∈ known, e.line = line := by
  rw [Ttyuse.lookup, if_neg (by rw [hline]; exact Bool.false_ne_true)]
  by_cases hany : (entries.any fun e => e.line = line) = true
  · obtain ⟨e, he, heq⟩ := List.any_eq_true.1 hany
    exact ⟨entries, if_pos hany, h, e, he, of_decide_eq_true heq⟩
  · have hnone : ∀ e ∈ entries, e.line ≠ line := by
      intro e he heq
      exact hany (List.any_eq_true.2 ⟨e, he, decide_eq_true heq⟩)
    obtain ⟨hon, hacc⟩ := h.unknown line hnone
    refine ⟨_, by rw [if_neg hany]; rfl, ⟨fun e he => ?_, fun line' hnone' => ?_⟩, _,
      List.mem_append_right _ List.mem_cons_self, rfl⟩
    · rcases List.mem_append.1 he with he | he
      · exact h.known e he
      · rw [List.mem_singleton.1 he]
        refine ⟨iff_of_true rfl hon, fun a ha => ?_, hacc.symm⟩
        exact absurd ((Eq.symm ha).trans hon) (Option.some_ne_none a)
    · exact h.unknown line' fun e he => hnone' e (List.mem_append_left _ he)

theorem Inv.of_mem (h : Inv on acc D entries) (hmem : ∀ e, e ∈ entries' ↔ e ∈ entries) : Inv on acc D entries' :=
  ⟨fun e he => h.known e ((hmem e).1 he), fun line hnone => h.unknown line fun e he => hnone e ((hmem e).2 he)⟩

end Entries

/-! ## What is printed -/

section Printed

variable {on : Str → Option ℤ} {acc : Str → ℤ} {D : ℤ}

theorem secs_entries {entries : List Entry} (hsecs : ∀ e ∈ entries, e.daysecs = acc e.line)
    (hnone : ∀ line, (∀ e ∈ entries, e.line ≠ line) → acc line = 0) (line : Str) :
    secs ((entries.filter fun e => e.daysecs ≠ 0).map fun e => (e.line, e.daysecs)) line = acc line := by
  rw [secs]
  cases hfind : ((entries.filter fun e => e.daysecs ≠ 0).map fun e => (e.line, e.daysecs)).find?
      fun p => decide (p.1 = line) with
  | some p =>
    obtain ⟨e, he, rfl⟩ := List.mem_map.1 (List.mem_of_find?_eq_some hfind)
    have hline : e.line = line := by simpa using List.find?_some hfind
    rw [← hline]
    exact hsecs e (List.mem_of_mem_filter he)
  | none =>
    by_contra hne
    have hacc : acc line ≠ 0 := fun h => hne h.symm
    obtain ⟨e, he, hline⟩ : ∃ e ∈ entries, e.line = line := by
      by_contra h
      exact hacc (hnone line fun e he hline => h ⟨e, he, hline⟩)
    have hdaysecs : e.daysecs ≠ 0 := by rw [hsecs e he, hline]; exact hacc
    have hfilter : e ∈ entries.filter fun e => e.daysecs ≠ 0 := List.mem_filter.2 ⟨he, decide_eq_true hdaysecs⟩
    have hmem := List.mem_map_of_mem (f := fun e : Entry => (e.line, e.daysecs)) hfilter
    exact List.find?_eq_none.1 hfind _ hmem (decide_eq_true hline)

/-- **What `dump` prints**: the seconds of all lines, if there are any. -/
theorem dump_spec (st : St) (h : Inv on acc D st.entries) (hacc : ∀ line, 0 ≤ acc line) (m : ℤ) :
    ∃ new, (dump m st).printed = st.printed ++ new ∧ (∀ e, e ∈ (dump m st).entries ↔ e ∈ st.entries) ∧
      (∀ p ∈ new, p.1 = m ∧ (∃ line, acc line ≠ 0) ∧ ∀ line, secs p.2 line = acc line) ∧
      ((∃ line, acc line ≠ 0) → ∃ p ∈ new, p.1 = m) := by
  have hsecs : ∀ e ∈ st.entries, e.daysecs = acc e.line := fun e he => (h.known e he).2.2
  have hnonneg : ∀ d ∈ st.entries.map Entry.daysecs, 0 ≤ d := by
    intro d hd
    obtain ⟨e, he, rfl⟩ := List.mem_map.1 hd
    rw [hsecs e he]
    exact hacc e.line
  have hsome : (∃ line, acc line ≠ 0) ↔ (st.entries.map Entry.daysecs).sum ≠ 0 := by
    constructor
    · rintro ⟨line, hline⟩ hsum
      obtain ⟨e, he, rfl⟩ : ∃ e ∈ st.entries, e.line = line := by
        by_contra h'
        exact hline (h.unknown line fun e he heq => h' ⟨e, he, heq⟩).2
      rw [← hsecs e he] at hline
      exact hline (List.all_zero_of_le_zero_le_of_sum_eq_zero hnonneg hsum (List.mem_map_of_mem he))
    · intro hsum
      by_contra h'
      refine hsum (List.sum_eq_zero fun d hd => ?_)
      obtain ⟨e, he, rfl⟩ := List.mem_map.1 hd
      rw [hsecs e he]
      exact not_not.1 fun hne => h' ⟨e.line, hne⟩
  rw [dump]
  by_cases hsum : (st.entries.map Entry.daysecs).sum = 0
  · rw [if_pos hsum]
    exact ⟨[], (List.append_nil _).symm, fun e => Iff.rfl, fun p hp => absurd hp List.not_mem_nil,
      fun hline => absurd hsum (hsome.1 hline)⟩
  · rw [if_neg hsum]
    have hmem : ∀ e, (e ∈ st.entries.insertionSort fun e e' => e.line ≤ e'.line) ↔ e ∈ st.entries :=
      fun e => List.mem_insertionSort _
    refine ⟨_, rfl, hmem, fun p hp => ?_, fun _ => ⟨_, List.mem_cons_self, rfl⟩⟩
    rw [List.mem_singleton.1 hp]
    refine ⟨rfl, hsome.2 hsum, secs_entries (fun e he => hsecs e ((hmem e).1 he)) fun line hnone => ?_⟩
    exact (h.unknown line fun e he => hnone e ((hmem e).2 he)).2

end Printed

/-! ## The loop -/

section Totals

variable {cfg : Config} {on : Str → Option ℤ} {acc : Str → ℤ} {r : Utmp} {rs : List Utmp} {lastm t slot : ℤ}
  {st st₁ : St}

/-- the seconds of a line after a record -/
def stepAcc (r : Utmp) (line : Str) (on : Option ℤ) (acc : ℤ) : ℤ :=
  if BOOTLINE r.line ∨ r.line = line then ended on acc (midnight r.time) r.time else acc

theorem totalFrom_same {on : Option ℤ} (hon : ∀ a ∈ on, a ≤ r.time) (line : Str) (t tot : ℤ) (rs : List Utmp) :
    totalFrom tot (midnight r.time) (sessions line on t (r :: rs)) =
      totalFrom (stepAcc r line on tot) (midnight r.time) (sessions line (stepOn r line on) r.time rs) := by
  have hlt := lt_midnight r.time
  rw [sessions_cons, stepAcc]
  split_ifs
  · exact totalFrom_closed hon (midnight_le r.time) (by omega) tot _
  · rfl

theorem totalFrom_later (hlater : r.time < D) (line : Str) (on : Option ℤ) (t tot : ℤ) (rs : List Utmp) :
    totalFrom tot D (sessions line on t (r :: rs)) = totalFrom tot D (sessions line (stepOn r line on) r.time rs) := by
  rw [sessions_cons]
  split_ifs
  · exact totalFrom_closed_later hlater tot _
  · rfl

/-- the seconds of a day, `acc` being those of the day of the loop -/
def dayTotal (lastm : ℤ) (on : Str → Option ℤ) (acc : Str → ℤ) (t : ℤ) (rs : List Utmp) (m : ℤ) (line : Str) : ℤ :=
  totalFrom (if m = lastm then acc line else 0) m (sessions line (on line) t rs)

/-- a day of the loop, or of a record that is still to come -/
def IsDay (lastm : ℤ) (rs : List Utmp) (m : ℤ) : Prop := m = lastm ∨ ∃ r ∈ rs, midnight r.time = m

/-- what is printed is right, and each day of the period is printed that has any seconds -/
structure Prints (cfg : Config) (lastm : ℤ) (on : Str → Option ℤ) (acc : Str → ℤ) (t : ℤ) (rs : List Utmp)
    (new : Printed) : Prop where
  right : ∀ p ∈ new, IsDay lastm rs p.1 ∧ (∃ line, dayTotal lastm on acc t rs p.1 line ≠ 0) ∧
    ∀ line, secs p.2 line = dayTotal lastm on acc t rs p.1 line
  complete : ∀ m, IsDay lastm rs m → cfg.starttime ≤ m → m < cfg.stoptime →
    (∃ line, dayTotal lastm on acc t rs m line ≠ 0) → ∃ p ∈ new, p.1 = m

/-- the same total, for other days -/
theorem Prints.congr {on' : Str → Option ℤ} {acc' : Str → ℤ} {lastm' t' : ℤ} {rs' : List Utmp} {new : Printed}
    (h : Prints cfg lastm on acc t rs new) (hday : ∀ m, IsDay lastm' rs' m ↔ IsDay lastm rs m)
    (htotal : ∀ m, IsDay lastm rs m → ∀ line,
      dayTotal lastm' on' acc' t' rs' m line = dayTotal lastm on acc t rs m line) :
    Prints cfg lastm' on' acc' t' rs' new := by
  constructor
  · intro p hp
    obtain ⟨hm, ⟨line, hline⟩, hsecs⟩ := h.right p hp
    refine ⟨(hday p.1).2 hm, ⟨line, by rwa [htotal p.1 hm line]⟩, fun line => ?_⟩
    rw [hsecs line, htotal p.1 hm line]
  · rintro m hm hstart hstop ⟨line, hline⟩
    have hm' := (hday m).1 hm
    exact h.complete m hm' hstart hstop ⟨line, by rwa [← htotal m hm' line]⟩

theorem midnight_mono {t t' : ℤ} (h : t ≤ t') : midnight t ≤ midnight t' := by
  have hday : DAY = 86400 := rfl
  rw [midnight, midnight, hday]
  omega

theorem midnight_lt {t t' : ℤ} (h : midnight t < midnight t') : midnight t + DAY ≤ midnight t' := by
  have hday : DAY = 86400 := rfl
  have h1 := midnight_emod t
  have h2 := midnight_emod t'
  rw [hday] at h1 h2 ⊢
  omega

/-- what is printed from a record on is what is printed after it -/
theorem Prints.step {new : Printed} (hon : ∀ line, ∀ a ∈ on line, a ≤ r.time) (hrs : ∀ r' ∈ rs, r.time ≤ r'.time)
    (h : Prints cfg (midnight r.time) (fun line => stepOn r line (on line))
      (fun line => stepAcc r line (on line) (acc line)) r.time rs new) (t : ℤ) :
    Prints cfg (midnight r.time) on acc t (r :: rs) new := by
  refine h.congr (fun m => ?_) fun m hm line => ?_
  · rw [IsDay, IsDay, List.exists_mem_cons_iff, ← or_assoc, eq_comm (a := midnight r.time), or_self]
  · rw [dayTotal, dayTotal]
    by_cases hsame : m = midnight r.time
    · rw [if_pos hsame, if_pos hsame, hsame]
      exact totalFrom_same (hon line) line t (acc line) rs
    · rw [if_neg hsame, if_neg hsame]
      obtain ⟨r', hr', rfl⟩ := hm.resolve_left hsame
      have hlt : midnight r.time < midnight r'.time := lt_of_le_of_ne (midnight_mono (hrs r' hr')) (Ne.symm hsame)
      have hnext := midnight_lt hlt
      have hhigh := lt_midnight r.time
      exact totalFrom_later (by omega) line (on line) t 0 rs

/-- what is printed for a day, and then for those that follow it -/
theorem Prints.append {new₀ new₁ : Printed} (h : Prints cfg (midnight r.time) on (fun _ => 0) t (r :: rs) new₁)
    (hrs : ∀ r' ∈ rs, r.time ≤ r'.time) (hlt : lastm < midnight r.time)
    (hright : ∀ p ∈ new₀, p.1 = lastm ∧ (∃ line, dayTotal lastm on acc t (r :: rs) lastm line ≠ 0) ∧
      ∀ line, secs p.2 line = dayTotal lastm on acc t (r :: rs) lastm line)
    (hcomplete : lastm < cfg.stoptime → (∃ line, dayTotal lastm on acc t (r :: rs) lastm line ≠ 0) →
      ∃ p ∈ new₀, p.1 = lastm) : Prints cfg lastm on acc t (r :: rs) (new₀ ++ new₁) := by
  -- a day that is still to come begins without seconds
  have hnext : ∀ m, m ≠ lastm → ∀ line,
      dayTotal lastm on acc t (r :: rs) m line = dayTotal (midnight r.time) on (fun _ => 0) t (r :: rs) m line := by
    intro m hm line
    rw [dayTotal, dayTotal, if_neg hm, ite_self]
  have hpast : ∀ m, IsDay (midnight r.time) (r :: rs) m → (∃ r' ∈ r :: rs, midnight r'.time = m) ∧ m ≠ lastm := by
    intro m hm
    have hrecord : ∃ r' ∈ r :: rs, midnight r'.time = m := by
      rcases hm with rfl | hm
      · exact ⟨r, List.mem_cons_self, rfl⟩
      · exact hm
    obtain ⟨r', hr', rfl⟩ := hrecord
    have hle : midnight r.time ≤ midnight r'.time := by
      rcases List.mem_cons.1 hr' with rfl | hr'
      · exact le_rfl
      · exact midnight_mono (hrs r' hr')
    exact ⟨⟨r', hr', rfl⟩, by omega⟩
  constructor
  · intro p hp
    rcases List.mem_append.1 hp with hp | hp
    · obtain ⟨hm, hline, hsecs⟩ := hright p hp
      rw [hm]
      exact ⟨Or.inl rfl, hline, hsecs⟩
    · obtain ⟨hm, hline, hsecs⟩ := h.right p hp
      obtain ⟨hrecord, hne⟩ := hpast p.1 hm
      simp only [hnext p.1 hne]
      exact ⟨Or.inr hrecord, hline, hsecs⟩
  · intro m hm hstart hstop hline
    by_cases hne : m = lastm
    · subst hne
      obtain ⟨p, hp, hpm⟩ := hcomplete hstop hline
      exact ⟨p, List.mem_append_left _ hp, hpm⟩
    · simp only [hnext m hne] at hline
      obtain ⟨p, hp, hpm⟩ := h.complete m (Or.inr (hm.resolve_left hne)) hstart hstop hline
      exact ⟨p, List.mem_append_right _ hp, hpm⟩

theorem ended_nonneg {on : Option ℤ} {tot D t : ℤ} (htot : 0 ≤ tot) (hon : ∀ a ∈ on, a ≤ t) (hD : D ≤ t) :
    0 ≤ ended on tot D t := by
  cases on with
  | none => exact htot
  | some a => exact (addSecs_pos htot (sub_nonneg.2 (max_le (hon a rfl) hD))).le

theorem stepAcc_nonneg {on : Option ℤ} {tot : ℤ} (htot : 0 ≤ tot) (hon : ∀ a ∈ on, a ≤ r.time) (line : Str) :
    0 ≤ stepAcc r line on tot := by
  rw [stepAcc]
  split_ifs
  · exact ended_nonneg htot hon (midnight_le r.time)
  · exact htot

theorem stepOn_le {on : Option ℤ} (hon : ∀ a ∈ on, a ≤ r.time) (line : Str) : ∀ a ∈ stepOn r line on, a ≤ r.time := by
  intro a ha
  rw [stepOn] at ha
  split_ifs at ha
  · cases ha
  · cases ha
  · rw [← Option.some.inj ha]
  · exact hon a ha

/-- where the loop is: on the day of the last record, which is one of the period or a later one -/
structure At (cfg : Config) (lastm : ℤ) (on : Str → Option ℤ) (acc : Str → ℤ) (t slot : ℤ) (st : St) : Prop where
  day : lastm = midnight t
  start : cfg.starttime ≤ lastm
  dayslots : st.dayslots = cfg.slots
  slot : 0 ≤ slot ∧ slot < cfg.slots
  on_le : ∀ line, ∀ a ∈ on line, a ≤ t
  acc_nonneg : ∀ line, 0 ≤ acc line
  inv : Inv on acc lastm st.entries

/-- **A record**, on its day. -/
theorem loop_record (husers : cfg.argusers = []) (httys : cfg.ttys = []) (hplain : TIMELINE r.line = false)
    (hchange : changeDay cfg lastm (midnight r.time) st = some st₁) (hd : st₁.dayslots = cfg.slots)
    (hstart : cfg.starttime ≤ midnight r.time) (hon : ∀ line, ∀ a ∈ on line, a ≤ r.time) (hacc : ∀ line, 0 ≤ acc line)
    (h : Inv on acc (midnight r.time) st₁.entries) (rs : List Utmp) (t slot : ℤ) :
    ∃ st₂, loop cfg (r :: rs) lastm t slot st = loop cfg rs (midnight r.time) r.time (slotOf cfg r) st₂ ∧
      st₂.printed = st₁.printed ∧
        At cfg (midnight r.time) (fun line => stepOn r line (on line))
          (fun line => stepAcc r line (on line) (acc line)) r.time (slotOf cfg r) st₂ := by
  have hlt : 0 ≤ slotOf cfg r ∧ slotOf cfg r < st₁.dayslots := by
    rw [hd]
    exact slot_lt cfg r.time
  have hat : ∀ st₂ : St, st₂.dayslots = cfg.slots → Inv (fun line => stepOn r line (on line))
      (fun line => stepAcc r line (on line) (acc line)) (midnight r.time) st₂.entries → At cfg (midnight r.time)
        (fun line => stepOn r line (on line)) (fun line => stepAcc r line (on line) (acc line))
          r.time (slotOf cfg r) st₂ :=
    fun st₂ hd₂ hinv => ⟨rfl, hstart, hd₂, slot_lt cfg r.time, fun line => stepOn_le (hon line) line,
      fun line => stepAcc_nonneg (hacc line) (hon line) line, hinv⟩
  obtain ⟨hold, hnew⟩ : OLDTLINE r.line = false ∧ NEWTLINE r.line = false := by simpa [TIMELINE] using hplain
  by_cases hboot : BOOTLINE r.line = true
  · obtain ⟨headline, entries, hreboot, hall⟩ := reboot_spec hlt r.time
    refine ⟨{ st₁ with headline, entries }, by rw [loop_boot hchange hboot, hreboot]; rfl, rfl, hat _ hd ?_⟩
    simpa only [stepOn, stepAcc, if_pos hboot, if_pos (Or.inl hboot)] using h.reboot hall
  · have hspecial : SPCLLINE r.line = false := by simp [SPCLLINE, hplain, hboot]
    obtain ⟨known, hknown, hinv, hmem⟩ := h.lookup st₁.dayslots hspecial
    have hdid : (!cfg.didttys) = true := by simp [Config.didttys, httys]
    obtain ⟨entries, hrecord, hall⟩ := record_spec cfg hlt r
    rw [hdid, hknown] at hall
    have hplain' : ∀ line, (BOOTLINE r.line = true ∨ r.line = line) ↔ r.line = line := fun line => or_iff_right hboot
    have hloop : loop cfg (r :: rs) lastm t slot st =
        (record cfg (slotOf cfg r) r st₁).bind (loop cfg rs (midnight r.time) r.time (slotOf cfg r)) :=
      loop_plain hchange hboot (by simp [hnew]) (by simp [hold])
    refine ⟨{ st₁ with entries }, by rw [hloop, hrecord]; rfl, rfl, hat _ hd ?_⟩
    simpa only [stepOn, stepAcc, if_neg hboot, hplain'] using hinv.logged husers (midnight_le r.time) hmem hall

/-- the end of the day -/
theorem At.closeDay (h : At cfg lastm on acc t slot st) (hsorted : (r :: rs).Pairwise fun r r' => r.time ≤ r'.time)
    (hlater : lastm + DAY ≤ midnight r.time) :
    ∃ st₁ new, Ttyuse.closeDay cfg lastm st = some st₁ ∧ st₁.printed = st.printed ++ new ∧
      (∃ acc', Inv on acc' lastm st₁.entries) ∧
      (∀ p ∈ new, p.1 = lastm ∧ (∃ line, dayTotal lastm on acc t (r :: rs) lastm line ≠ 0) ∧
        ∀ line, secs p.2 line = dayTotal lastm on acc t (r :: rs) lastm line) ∧
      (lastm < cfg.stoptime → (∃ line, dayTotal lastm on acc t (r :: rs) lastm line ≠ 0) → ∃ p ∈ new, p.1 = lastm) := by
  have hday : lastm + dayhours lastm * HOUR = lastm + DAY := by
    rw [dayhours_eq (by rw [h.day]; exact midnight_emod t)]
    rfl
  have hhigh : t < lastm + DAY := by
    have := lt_midnight t
    rw [h.day]
    omega
  have hon : ∀ line, ∀ a ∈ on line, a < lastm + DAY := fun line a ha => (h.on_le line a ha).trans_lt hhigh
  have htotal : ∀ line,
      dayTotal lastm on acc t (r :: rs) lastm line = ended (on line) (acc line) lastm (lastm + DAY) := by
    intro line
    rw [dayTotal, if_pos rfl]
    exact totalFrom_midnight (hon line) hsorted (hlater.trans (midnight_le r.time)) line t (acc line)
  have hst : cfg.starttime ≤ lastm → st.dayslots = cfg.slots := fun _ => h.dayslots
  have hclose := closeDay_spec cfg hst
  split_ifs at hclose with hperiod
  · obtain ⟨entries, hentries, hall⟩ := hclose
    rw [hday] at hall
    have hinv := h.inv.charged hall
    have hnonneg : ∀ line, 0 ≤ ended (on line) (acc line) lastm (lastm + DAY) := by
      intro line
      have hD : lastm ≤ lastm + DAY := by
        have hday : DAY = 86400 := rfl
        omega
      exact ended_nonneg (h.acc_nonneg line) (fun a ha => (hon line a ha).le) hD
    obtain ⟨new, hprinted, hmem, hright, hcomplete⟩ := dump_spec { st with entries } hinv hnonneg lastm
    refine ⟨_, new, hentries, hprinted, ⟨_, hinv.of_mem hmem⟩, ?_, ?_⟩
    · simpa only [htotal] using hright
    · simpa only [htotal] using fun _ => hcomplete
  · refine ⟨st, [], hclose, (List.append_nil _).symm, ⟨acc, h.inv⟩, fun p hp => absurd hp List.not_mem_nil, ?_⟩
    exact fun hstop => absurd ⟨h.start, hstop⟩ hperiod

/-- **What is printed** from some record on: the totals of the sessions of the days. -/
theorem loop_totals (husers : cfg.argusers = []) (httys : cfg.ttys = []) (rs : List Utmp)
    (hplain : ∀ r ∈ rs, TIMELINE r.line = false) (hsorted : rs.Pairwise fun r r' => r.time ≤ r'.time)
    (hrs : ∀ r ∈ rs, t ≤ r.time) (h : At cfg lastm on acc t slot st) :
    ∃ out new, loop cfg rs lastm t slot st = some out ∧ out.printed = st.printed ++ new ∧
      Prints cfg lastm on acc t rs new := by
  induction rs generalizing lastm on acc t slot st with
  | nil =>
    have hlow : lastm ≤ t := by
      rw [h.day]
      exact midnight_le t
    have hhigh : t < lastm + DAY := by
      have hlt := lt_midnight t
      rw [h.day]
      omega
    have hslot : 0 ≤ slot ∧ slot < st.dayslots := by
      rw [h.dayslots]
      exact h.slot
    have htotal : ∀ line, dayTotal lastm on acc t [] lastm line = ended (on line) (acc line) lastm t := by
      intro line
      rw [dayTotal, if_pos rfl, sessions, ← List.append_nil (closed (on line) t)]
      exact totalFrom_closed (h.on_le line) hlow hhigh (acc line) []
    obtain ⟨entries, hentries, hall⟩ := closeAll_spec hslot t
    have hnonneg : ∀ line, 0 ≤ ended (on line) (acc line) lastm t :=
      fun line => ended_nonneg (h.acc_nonneg line) (h.on_le line) hlow
    obtain ⟨new, hprinted, -, hright, hcomplete⟩ := dump_spec { st with entries } (h.inv.charged hall) hnonneg lastm
    simp only [← htotal] at hright hcomplete
    refine ⟨_, new, by rw [loop, hentries]; rfl, hprinted, fun p hp => ?_, fun m hm _ _ hline => ?_⟩
    · obtain ⟨hm, hline, hsecs⟩ := hright p hp
      rw [hm]
      exact ⟨Or.inl rfl, hline, hsecs⟩
    · rcases hm with rfl | ⟨r, hr, -⟩
      · exact hcomplete hline
      · exact absurd hr List.not_mem_nil
  | cons r rs ih =>
    obtain ⟨hfirst, hsorted'⟩ := List.pairwise_cons.1 hsorted
    have hr : t ≤ r.time := hrs r List.mem_cons_self
    have hplain' : ∀ r' ∈ rs, TIMELINE r'.line = false := fun r' hr' => hplain r' (List.mem_cons_of_mem _ hr')
    have hon : ∀ line, ∀ a ∈ on line, a ≤ r.time := fun line a ha => (h.on_le line a ha).trans hr
    have hmono : lastm ≤ midnight r.time := by
      rw [h.day]
      exact midnight_mono hr
    by_cases hsame : midnight r.time = lastm
    · obtain ⟨st₂, hloop, hprinted, hat⟩ := loop_record husers httys (hplain r List.mem_cons_self) (if_pos hsame)
        h.dayslots (h.start.trans hmono) hon h.acc_nonneg (by rw [hsame]; exact h.inv) rs t slot
      obtain ⟨out, new, hout, hnew, hprints⟩ := ih hplain' hsorted' hfirst hat
      refine ⟨out, new, hloop.trans hout, by rw [hnew, hprinted], ?_⟩
      rw [← hsame]
      exact hprints.step hon hfirst t
    · have hday : DAY = 86400 := rfl
      have hlater : lastm + DAY ≤ midnight r.time := by
        rw [h.day] at hsame hmono ⊢
        exact midnight_lt (lt_of_le_of_ne hmono (Ne.symm hsame))
      have hst : cfg.starttime ≤ lastm → st.dayslots = cfg.slots := fun _ => h.dayslots
      obtain ⟨st₁, new₀, hclose, hprinted₀, ⟨acc₁, hinv₁⟩, hright₀, hcomplete₀⟩ := h.closeDay hsorted hlater
      obtain ⟨st₁', headline, entries, hclose', hchange, hall⟩ := changeDay_spec cfg (midnight_emod r.time) hsame hst
      obtain rfl : st₁ = st₁' := Option.some.inj (hclose.symm.trans hclose')
      have hon' : ∀ line, ∀ a ∈ on line, a ≤ midnight r.time := by
        intro line a ha
        have hle := h.on_le line a ha
        have hlt := lt_midnight t
        rw [h.day] at hlater
        omega
      obtain ⟨st₂, hloop, hprinted, hat⟩ := loop_record husers httys (hplain r List.mem_cons_self) hchange rfl
        (h.start.trans hmono) hon (fun _ => le_rfl) (hinv₁.renewed hon' hall) rs t slot
      obtain ⟨out, new₁, hout, hnew, hprints⟩ := ih hplain' hsorted' hfirst hat
      have hprints₁ : Prints cfg (midnight r.time) on (fun _ => 0) t (r :: rs) new₁ := hprints.step hon hfirst t
      have hlt : lastm < midnight r.time := lt_of_le_of_ne hmono (Ne.symm hsame)
      refine ⟨out, new₀ ++ new₁, hloop.trans hout, ?_, hprints₁.append hfirst hlt hright₀ hcomplete₀⟩
      calc out.printed = st₂.printed ++ new₁ := hnew
        _ = st₁.printed ++ new₁ := by rw [hprinted]
        _ = st.printed ++ (new₀ ++ new₁) := by rw [hprinted₀, List.append_assoc]

end Totals

/-! ## The start of the period -/

section Start

variable {names : Str → Option Str} {entries : List Entry} {rs : List Utmp}

/-- what the scan back has found: the names of the lines it has seen -/
structure Found (names : Str → Option Str) (entries : List Entry) : Prop where
  known : ∀ e ∈ entries, e.marked = true ∧ names e.line = some e.name
  unknown : ∀ line, (∀ e ∈ entries, e.line ≠ line) → names line = none

/-- a line that is seen for the first time -/
theorem Found.newLine (h : Found names entries) {r : Utmp} (hnone : ∀ e ∈ entries, e.line ≠ r.line) :
    Found (fun line => (names line).or (if r.line = line then some r.name else none))
      ((entries ++ [newEntry 0 r.line]).map
        fun e => if e.line = r.line then { e with marked := true, name := r.name } else e) := by
  have hlines : ∀ e : Entry,
      (if e.line = r.line then { e with marked := true, name := r.name } else e).line = e.line := by
    intro e
    split_ifs <;> rfl
  constructor
  · intro e' he'
    obtain ⟨e, he, rfl⟩ := List.mem_map.1 he'
    rcases List.mem_append.1 he with he | he
    · rw [if_neg (hnone e he), (h.known e he).2]
      exact ⟨(h.known e he).1, rfl⟩
    · have hline : (newEntry 0 r.line).line = r.line := rfl
      rw [List.mem_singleton.1 he, if_pos hline]
      refine ⟨rfl, ?_⟩
      simp only [hline, if_true, h.unknown r.line hnone, Option.none_or]
  · intro line hline
    have hmem : ∀ e ∈ entries ++ [newEntry 0 r.line], e.line ≠ line := by
      intro e he
      rw [← hlines e]
      exact hline _ (List.mem_map_of_mem he)
    have hne : r.line ≠ line := hmem _ (List.mem_append_right _ List.mem_cons_self)
    rw [h.unknown line fun e he => hmem e (List.mem_append_left _ he), if_neg hne]
    rfl

/-- **The scan back** finds the last record of each line, after the last reboot. -/
theorem scanBack_spec (hplain : ∀ r ∈ rs, TIMELINE r.line = false) (h : Found names entries) :
    Found (fun line => (names line).or
        (((rs.takeWhile fun r => !BOOTLINE r.line).find? fun r => r.line = line).map Utmp.name))
      (scanBack false rs entries) := by
  induction rs generalizing names entries with
  | nil => simpa [scanBack] using h
  | cons r rs ih =>
    have hplain' : ∀ r' ∈ rs, TIMELINE r'.line = false := fun r' hr' => hplain r' (List.mem_cons_of_mem _ hr')
    rw [scanBack]
    by_cases hboot : BOOTLINE r.line = true
    · rw [if_pos hboot, List.takeWhile_cons_of_neg (by simp [hboot])]
      simpa using h
    · have hspecial : SPCLLINE r.line = false := by simp [SPCLLINE, hplain r List.mem_cons_self, hboot]
      rw [if_neg hboot, List.takeWhile_cons_of_pos (by simp [hboot]), lookup, if_neg (by simp [hspecial])]
      by_cases hany : (entries.any fun e => e.line = r.line) = true
      · obtain ⟨e, he, heq⟩ := List.any_eq_true.1 hany
        have hline : e.line = r.line := of_decide_eq_true heq
        have hmarked : (entries.any fun e => e.line = r.line && e.marked) = true :=
          List.any_eq_true.2 ⟨e, he, by simp [hline, (h.known e he).1]⟩
        simp only [if_pos hany, if_pos hmarked]
        convert ih hplain' h using 2 with line
        by_cases heq : r.line = line
        · have hname : names line = some e.name := by
            rw [← heq, ← hline]
            exact (h.known e he).2
          rw [hname, Option.some_or, Option.some_or]
        · rw [List.find?_cons_of_neg (by simpa using heq)]
      · have hnone : ∀ e ∈ entries, e.line ≠ r.line := by
          intro e he heq
          exact hany (List.any_eq_true.2 ⟨e, he, decide_eq_true heq⟩)
        have hmarked : ¬ ((entries ++ [newEntry 0 r.line]).any
            fun e => e.line = r.line && e.marked) = true := by
          simpa [newEntry] using fun e he heq => absurd heq (hnone e he)
        simp only [if_neg hany, Bool.not_false, if_true, if_neg hmarked, Bool.false_and, Bool.false_eq_true, if_false]
        convert ih hplain' (h.newLine hnone) using 2 with line
        by_cases heq : r.line = line
        · rw [if_pos heq, List.find?_cons_of_pos (by simpa using heq), Option.or_assoc]
          rfl
        · rw [if_neg heq, List.find?_cons_of_neg (by simpa using heq), Option.or_none]

end Start

section Considered

variable {q : Qsort} {r : Utmp}

theorem mem_fromReboot (starttime : ℤ) (rs utmp : List Utmp) (h : r ∈ fromReboot starttime rs utmp) :
    r ∈ rs ∨ r ∈ utmp := by
  induction rs generalizing utmp with
  | nil => exact Or.inr h
  | cons r' rs ih =>
    rw [fromReboot] at h
    split_ifs at h with hbefore hboot
    · exact Or.inl (List.mem_cons_of_mem _ ((ih rs h).elim id id))
    · exact (ih utmp h).imp_left (List.mem_cons_of_mem _)
    · exact Or.inr h

/-- without changes of the clock, all records are sorted together -/
theorem sortBetween_eq (q : Qsort) (seg rs : List Utmp) (hplain : ∀ r ∈ rs, TIMELINE r.line = false) :
    sortBetween q seg rs = q.sort (seg ++ rs) := by
  induction rs generalizing seg with
  | nil => rw [sortBetween, List.append_nil]
  | cons r rs ih =>
    have hr : ¬ TIMELINE r.line = true := by
      rw [hplain r List.mem_cons_self]
      exact Bool.false_ne_true
    rw [sortBetween, if_neg hr, ih (seg ++ [r]) fun r' hr' => hplain r' (List.mem_cons_of_mem _ hr'), List.append_assoc]
    rfl

theorem le_of_mem_dropWhile {T : ℤ} {rs : List Utmp} (hsorted : rs.Pairwise fun r r' => r.time ≤ r'.time) :
    ∀ r ∈ rs.dropWhile fun r => r.time < T, T ≤ r.time := by
  induction rs with
  | nil => exact fun r hr => absurd hr List.not_mem_nil
  | cons r rs ih =>
    obtain ⟨hfirst, hsorted⟩ := List.pairwise_cons.1 hsorted
    by_cases hr : r.time < T
    · rw [List.dropWhile_cons_of_pos (by simpa using hr)]
      exact ih hsorted
    · rw [List.dropWhile_cons_of_neg (by simpa using hr)]
      rintro r' (_ | ⟨_, hr'⟩)
      · exact not_lt.1 hr
      · exact (not_lt.1 hr).trans (hfirst r' hr')

namespace Input

variable (q : Qsort) (inp : Input)

theorem recs_spec : (∀ r ∈ inp.recs q, TIMELINE r.line = false) ∧
    (inp.recs q).Pairwise fun r r' => r.time ≤ r'.time := by
  have hfile : ∀ r, r ∈ dropTrailing (fun r => SPCLLINE r.line) (((dropTrailing (fun r => inp.cfg.stoptime ≤ r.time)
      (fromReboot inp.cfg.starttime inp.file inp.file)).filter genuine).dropWhile fun r => SPCLLINE r.line) →
        TIMELINE r.line = false := by
    intro r hr
    have hmem := List.mem_of_mem_filter ((List.dropWhile_suffix _).subset (mem_of_mem_dropTrailing hr))
    exact inp.plain r ((mem_fromReboot _ _ _ (mem_of_mem_dropTrailing hmem)).elim id id)
  have hrecs : inp.recs q = q.sort ([] ++ _) := sortBetween_eq q [] _ hfile
  rw [hrecs]
  exact ⟨fun r hr => hfile r ((q.perm _).mem_iff.1 hr), q.sorted _⟩

theorem period_sorted : (inp.period q).Pairwise fun r r' => r.time ≤ r'.time :=
  (inp.recs_spec q).2.sublist (List.dropWhile_suffix _).sublist

theorem period_plain : ∀ r ∈ inp.period q, TIMELINE r.line = false :=
  fun r hr => (inp.recs_spec q).1 r ((List.dropWhile_suffix _).subset hr)

/-- the records of the period are not before its start -/
theorem starttime_le : ∀ r ∈ inp.period q, inp.cfg.starttime ≤ r.time := le_of_mem_dropWhile (inp.recs_spec q).2

/-- nor are their days -/
theorem starttime_le_midnight : ∀ r ∈ inp.period q, inp.cfg.starttime ≤ midnight r.time := by
  intro r hr
  have hle := midnight_mono (inp.starttime_le q r hr)
  rwa [midnight, starttime_emod inp.cfg, sub_zero] at hle

end Input

end Considered

/-! ## All of the program -/

namespace Input

variable (q : Qsort) (inp : Input)

/-- the entries that the scan back leaves -/
theorem scan_spec : ∀ line, ∀ entries, entries = scanBack false (scanned inp.cfg (inp.recs q)) [] →
    (∀ e ∈ entries, e.name = [] ↔ inp.openInScan q e.line = false) ∧
      ((∀ e ∈ entries, e.line ≠ line) → inp.openInScan q line = false) := by
  intro line entries hentries
  have hplain : ∀ r ∈ scanned inp.cfg (inp.recs q), TIMELINE r.line = false := by
    intro r hr
    exact (inp.recs_spec q).1 r (List.mem_of_mem_take (List.mem_of_mem_drop (List.mem_reverse.1 hr)))
  have hnone : Found (fun _ => none) [] := ⟨fun e he => absurd he List.not_mem_nil, fun _ _ => rfl⟩
  have hfound := scanBack_spec hplain hnone
  rw [← hentries] at hfound
  simp only [Option.none_or] at hfound
  constructor
  · intro e he
    have hname := (hfound.known e he).2
    obtain ⟨r, hr, hrname⟩ := Option.map_eq_some_iff.1 hname
    have hopen : inp.openInScan q e.line = decide (r.name ≠ []) := by
      rw [openInScan, loggedIn]
      rw [scanned] at hr
      exact (congrArg (Option.any fun r : Utmp => decide (r.name ≠ [])) hr).trans rfl
    rw [hopen, ← hrname]
    simp
  · intro hnone
    have hr := Option.map_eq_none_iff.1 (hfound.unknown line hnone)
    rw [scanned] at hr
    rw [openInScan, loggedIn]
    exact (congrArg (Option.any fun r : Utmp => decide (r.name ≠ [])) hr).trans rfl

theorem main_eq : main q inp.cfg inp.file =
    if inp.period q = [] then some ⟨[], 0⟩
    else loop inp.cfg (inp.period q) (inp.cfg.starttime - 1) 0 0
      ⟨scanBack false (scanned inp.cfg (inp.recs q)) [], [], 0, []⟩ := by
  have hperiod : inPeriod inp.cfg (considered q inp.cfg inp.file) = inp.period q := rfl
  have hentries : zap inp.cfg (scanBack inp.cfg.didttys (scanned inp.cfg (inp.recs q)) (argEntries inp.cfg)) =
      scanBack false (scanned inp.cfg (inp.recs q)) [] := rfl
  rw [main]
  simp only [hperiod]
  by_cases hempty : inp.period q = []
  · rw [if_pos hempty, if_pos ⟨hempty, rfl⟩]
  · rw [if_neg hempty, if_neg fun h => hempty h.1]
    exact congrArg (fun entries => loop inp.cfg (inp.period q) (inp.cfg.starttime - 1) 0 0 ⟨entries, [], 0, []⟩)
      hentries

/-- the seconds of a line and a day, for the sessions that the scan back has found -/
def foundTotal (m : ℤ) (line : Str) : ℤ := totalFrom 0 m (inp.sessionsFrom q (inp.openInScan q line) line)

/-- **What is printed** is right for the sessions that the scan back has found, and no day is left out. -/
theorem printed_totals : ∃ out, main q inp.cfg inp.file = some out ∧
    (∀ p ∈ out.printed, (∃ r ∈ inp.period q, midnight r.time = p.1) ∧ (∃ line, inp.foundTotal q p.1 line ≠ 0) ∧
      ∀ line, secs p.2 line = inp.foundTotal q p.1 line) ∧
    ∀ r ∈ inp.period q, midnight r.time < inp.cfg.stoptime → (∃ line, inp.foundTotal q (midnight r.time) line ≠ 0) →
      ∃ p ∈ out.printed, p.1 = midnight r.time := by
  rw [main_eq]
  have hsorted := inp.period_sorted q
  have hplain := inp.period_plain q
  have hstart := inp.starttime_le_midnight q
  have hscan := fun line => inp.scan_spec q line _ rfl
  have htotal : ∀ m line, inp.foundTotal q m line = totalFrom 0 m
      (sessions line (if inp.openInScan q line then some inp.cfg.starttime else none) 0 (inp.period q)) :=
    fun m line => rfl
  cases hperiod : inp.period q with
  | nil =>
    rw [if_pos rfl]
    exact ⟨_, rfl, fun p hp => absurd hp List.not_mem_nil, fun r hr => absurd hr List.not_mem_nil⟩
  | cons r rs =>
    rw [hperiod] at hsorted hplain hstart htotal
    obtain ⟨hfirst, hsorted'⟩ := List.pairwise_cons.1 hsorted
    rw [if_neg (List.cons_ne_nil r rs)]
    generalize hon : (fun line => if inp.openInScan q line then some inp.cfg.starttime else none) = on
    generalize hst : (⟨scanBack false (scanned inp.cfg (inp.recs q)) [], [], 0, []⟩ : St) = st
    have hopen : ∀ line, on line = if inp.openInScan q line then some inp.cfg.starttime else none :=
      fun line => (congrFun hon line).symm
    have hday : DAY = 86400 := rfl
    have hstartmod := starttime_emod inp.cfg
    have hmod := midnight_emod r.time
    have hD : inp.cfg.starttime ≤ midnight r.time := hstart r List.mem_cons_self
    have hon_le : ∀ line, ∀ a ∈ on line, a ≤ midnight r.time := by
      intro line a ha
      rw [hopen] at ha
      split_ifs at ha
      · exact (Option.some.inj ha) ▸ hD
      · exact absurd ha (Option.not_mem_none a)
    have hon_le' : ∀ line, ∀ a ∈ on line, a ≤ r.time := fun line a ha => (hon_le line a ha).trans (midnight_le r.time)
    have hne : midnight r.time ≠ inp.cfg.starttime - 1 := by
      rw [hday] at hstartmod hmod
      omega
    have hnostart : ¬ inp.cfg.starttime ≤ inp.cfg.starttime - 1 := by omega
    have hslots : inp.cfg.starttime ≤ inp.cfg.starttime - 1 → st.dayslots = inp.cfg.slots := fun h => absurd h hnostart
    obtain ⟨st₁, headline, entries, hclose, hchange, hall⟩ := changeDay_spec inp.cfg hmod hne hslots
    obtain rfl : st = st₁ := by
      rw [closeDay, if_neg fun h => hnostart h.1] at hclose
      exact Option.some.inj hclose
    have hinv : Inv on (fun _ => 0) (midnight r.time) entries := by
      refine inv_renewed (fun e he => ?_) (fun line hnone => ?_) hon_le hall
      · rw [← hst] at he
        rw [hopen, (hscan e.line).1 e he]
        cases inp.openInScan q e.line <;> simp
      · rw [← hst] at hnone
        rw [hopen, (hscan line).2 hnone]
        rfl
    obtain ⟨st₂, hloop, hprinted, hat⟩ := loop_record rfl rfl (hplain r List.mem_cons_self) hchange rfl hD hon_le'
      (fun _ => le_rfl) hinv rs 0 0
    obtain ⟨out, new, hout, hnew, hprints⟩ :=
      loop_totals rfl rfl rs (fun r' hr' => hplain r' (List.mem_cons_of_mem _ hr')) hsorted' hfirst hat
    have hprints₁ : Prints inp.cfg (midnight r.time) on (fun _ => 0) 0 (r :: rs) new :=
      hprints.step hon_le' hfirst 0
    have htotal' : ∀ m line,
        dayTotal (midnight r.time) on (fun _ => 0) 0 (r :: rs) m line = inp.foundTotal q m line := by
      intro m line
      rw [dayTotal, ite_self, htotal, hopen]
    have hprinted' : out.printed = new := by
      rw [hnew, hprinted, ← hst]
      rfl
    refine ⟨out, hloop.trans hout, fun p hp => ?_, fun r' hr' hstop hline => ?_⟩
    · obtain ⟨hm, hline, hsecs⟩ := hprints₁.right p (hprinted' ▸ hp)
      simp only [htotal'] at hline hsecs
      refine ⟨?_, hline, hsecs⟩
      rcases hm with hm | hm
      · exact ⟨r, List.mem_cons_self, hm.symm⟩
      · exact hm
    · simp only [← htotal'] at hline
      have hle : inp.cfg.starttime ≤ midnight r'.time := by
        rcases List.mem_cons.1 hr' with rfl | hr'
        · exact hD
        · exact hD.trans (midnight_mono (hfirst r' hr'))
      rw [hprinted']
      exact hprints₁.complete _ (Or.inr ⟨r', hr', rfl⟩) hle hstop hline

/-- a line's session that is open at the start of the period adds nothing to a day: it is over before the day, or in its
first second, and then the next session of the day has no length -/
def Harmless (m : ℤ) (line : Str) : Prop :=
  firstEnd line 0 (inp.period q) < m ∨ firstEnd line 0 (inp.period q) ≤ m + 1 ∧
    (overlaps m (sessions line none 0 (inp.period q))).head? = some 0

/-- a line has a session on the day, as far as the scan back has found -/
def InUse (m : ℤ) : Prop := ∃ line, ∃ s ∈ inp.sessionsFrom q (inp.openInScan q line) line, Touches m s

section Days

variable {m : ℤ} (hm : inp.cfg.starttime ≤ m)

include hm

/-- **One session more** at the start of the period. -/
theorem harmless_iff (line : Str) : totalFrom 0 m (inp.sessionsFrom q true line) =
    totalFrom 0 m (inp.sessionsFrom q false line) ↔ inp.Harmless q m line := by
  have hday : DAY = 86400 := rfl
  have hle := le_of_mem_sessions line 0 (inp.period_sorted q) (inp.starttime_le q)
  have hds := nonneg_of_mem_overlaps (m := m) fun s hs => (hle s hs).2
  have hsome : inp.sessionsFrom q true line =
      (inp.cfg.starttime, firstEnd line 0 (inp.period q)) :: inp.sessionsFrom q false line :=
    sessions_some line inp.cfg.starttime 0 (inp.period q)
  have hnone : inp.sessionsFrom q false line = sessions line none 0 (inp.period q) := rfl
  rw [Harmless, hsome, hnone, totalFrom_cons]
  generalize firstEnd line 0 (inp.period q) = b
  by_cases hb : b < m
  · have htouch : ¬ Touches m (inp.cfg.starttime, b) := fun h => not_le.2 hb h.2
    rw [if_neg htouch]
    exact iff_of_true rfl (Or.inl hb)
  · have htouch : Touches m (inp.cfg.starttime, b) := ⟨by dsimp only; omega, not_lt.1 hb⟩
    have hoverlap : overlap m (inp.cfg.starttime, b) = min b (m + DAY) - m := by
      rw [overlap, max_eq_right hm]
    rw [if_pos htouch, hoverlap, or_iff_right hb]
    calc totalFrom (addSecs 0 (min b (m + DAY) - m)) m (sessions line none 0 (inp.period q)) =
          totalFrom 0 m (sessions line none 0 (inp.period q))
        ↔ ((min b (m + DAY) - m) :: overlaps m (sessions line none 0 (inp.period q))).foldl addSecs 0 =
            (overlaps m (sessions line none 0 (inp.period q))).foldl addSecs 0 := Iff.rfl
      _ ↔ min b (m + DAY) - m ≤ 1 ∧ (overlaps m (sessions line none 0 (inp.period q))).head? = some 0 :=
        extra_iff (by omega) hds
      _ ↔ b ≤ m + 1 ∧ (overlaps m (sessions line none 0 (inp.period q))).head? = some 0 :=
        and_congr_left fun _ => by omega

theorem same_total_iff (on on' : Bool) (line : Str) :
    totalFrom 0 m (inp.sessionsFrom q on line) = totalFrom 0 m (inp.sessionsFrom q on' line) ↔
      on = on' ∨ inp.Harmless q m line := by
  have h := inp.harmless_iff q hm line
  cases on <;> cases on'
  · exact iff_of_true rfl (Or.inl rfl)
  · rw [eq_comm, h, or_iff_right Bool.false_ne_true]
  · rw [h, or_iff_right Bool.true_eq_false_eq_False]
  · exact iff_of_true rfl (Or.inl rfl)

end Days

/-- a day with a session has seconds -/
theorem inUse_iff {r : Utmp} (hr : r ∈ inp.period q) (m : ℤ) :
    (∃ line, inp.foundTotal q m line ≠ 0) ↔ inp.InUse q m := by
  refine exists_congr fun line => ?_
  have hsorted := inp.period_sorted q
  have hstart := inp.starttime_le q
  have hle : ∀ s ∈ inp.sessionsFrom q (inp.openInScan q line) line, s.1 ≤ s.2 := by
    have hrest : ∀ s ∈ sessions line none 0 (inp.period q), s.1 ≤ s.2 :=
      fun s hs => (le_of_mem_sessions line 0 hsorted hstart s hs).2
    rw [sessionsFrom]
    cases inp.openInScan q line with
    | false => exact hrest
    | true =>
      rw [if_pos rfl, sessions_some]
      rintro s (_ | ⟨_, hs⟩)
      · cases hperiod : inp.period q with
        | nil => exact absurd (hperiod ▸ hr) List.not_mem_nil
        | cons r' rs =>
          rw [hperiod] at hstart
          exact le_firstEnd (t := r'.time) (hstart r' List.mem_cons_self) hstart line
      · exact hrest s hs
  rw [foundTotal]
  constructor
  · intro hne
    by_contra hnone
    exact hne (totalFrom_eq_self (fun s hs htouch => hnone ⟨s, hs, htouch⟩) 0)
  · rintro ⟨s, hs, htouch⟩
    have hmem : overlap m s ∈ overlaps m (inp.sessionsFrom q (inp.openInScan q line) line) :=
      List.mem_map_of_mem (List.mem_filter.2 ⟨hs, decide_eq_true htouch⟩)
    exact (foldl_addSecs_pos le_rfl (nonneg_of_mem_overlaps hle) (List.ne_nil_of_mem hmem)).ne'

/-- **All printed seconds are right** if and only if, for each day that is printed and each line, the scan back finds
what is true at the start of the period, or the difference makes none on this day. -/
theorem totals_right_iff : inp.TotalsRight q ↔ ∀ r ∈ inp.period q, midnight r.time < inp.cfg.stoptime →
    inp.InUse q (midnight r.time) → ∀ line,
      inp.openInScan q line = inp.openAtStart q line ∨ inp.Harmless q (midnight r.time) line := by
  obtain ⟨out, hmain, hright, hcomplete⟩ := inp.printed_totals q
  have hperiod := inp.starttime_le_midnight q
  constructor
  · rintro ⟨out', hmain', htotals⟩ r hr hstop huse line
    obtain rfl : out = out' := Option.some.inj (hmain.symm.trans hmain')
    obtain ⟨p, hp, hday⟩ := hcomplete r hr hstop ((inp.inUse_iff q hr _).2 huse)
    have htrue := htotals p hp (by rw [hday]; exact hperiod r hr) (by rw [hday]; exact hstop) line
    have hfound := (hright p hp).2.2 line
    rw [hday] at htrue hfound
    exact (inp.same_total_iff q (hperiod r hr) _ _ line).1 (hfound.symm.trans htrue)
  · intro h
    refine ⟨out, hmain, fun p hp hstart hstop line => ?_⟩
    obtain ⟨⟨r, hr, hday⟩, hline, hsecs⟩ := hright p hp
    rw [← hday] at hline hstop hstart
    have hfound := h r hr hstop ((inp.inUse_iff q hr _).1 hline) line
    rw [hsecs, ← hday]
    exact (inp.same_total_iff q hstart _ _ line).2 hfound

end Input

/-- a login that is the first record of the period -/
def loginFirst : Input where
  lflag := false
  start := DAY
  stop := DAY
  file := [⟨"v".toList, "b".toList, 100⟩, ⟨[], "b".toList, 200⟩, ⟨"u".toList, "a".toList, DAY + 1000⟩,
    ⟨[], "a".toList, DAY + 1600⟩]
  plain := by decide

/-- It is charged from midnight on. -/
theorem login_charged : ¬ loginFirst.TotalsRight sorter := by
  rintro ⟨out, hmain, hright⟩
  have hrun : main sorter loginFirst.cfg loginFirst.file = some ⟨[(DAY, [("a".toList, 1600)])], 0⟩ := by decide +kernel
  obtain rfl := Option.some.inj (hrun.symm.trans hmain)
  have htotal := hright _ List.mem_cons_self (by decide) (by decide) "a".toList
  exact absurd htotal (by decide +kernel)

end MNetSoft.Cmd.Ttyuse
