/-
What `reap_outbound` leaves under the name of the outbound file. The file is read in pieces of `BFSZ - 1` characters at
most, the pieces of users who are not on the list are put into a temporary file, the old file is unlinked, and the
temporary file is linked in its place. `Calls` is what the calls answer; which of the characters put into the temporary
file reach it is arbitrary, as neither `fputs` nor `fclose` is checked.

Other than the complete old file or the complete new one is left by three things:
- the old file is unlinked, and the new one cannot be linked (`none`: the name is gone);
- characters put into the temporary file do not reach it;
- a line longer than a piece is not treated as one (or a NUL cuts off the end of it).

- `reapLoop_pieces`: what the loop puts into the temporary file.
- `replaced_of_sound`: what is enough for a complete file. `sound_of_replaced`: why it is needed; the lost characters
  of a file, or what a NUL cuts off, might by chance be those that should have been left out.
- `reap_outbound_replaces`: both, for every content, user list and outcome of the calls.
- `link_fails_write_lost`: a file that is gone, and one of which nothing is left.
- `Replaced.keeps`, `stays_of_mem`: the lines that are left.
-/
import Mathlib.Tactic
import MNetSoft.Core.Pieces
import MNetSoft.Zapuser.Immortal
import MNetSoft.Zapuser.Users

namespace MNetSoft.Zapuser.OutboundFile

open MNetSoft.CString

/-! ## Model -/

/-- what the calls answer: both files are opened (and the old one can be stat'ed), which characters of the temporary
file arrive, `unlink` and `link` -/
structure Calls where
  opens : Bool
  arrives : ℕ → Bool
  unlinks : Bool
  links : Bool

/-- read through the old file, writing undeleted users to the new file -/
def reapLoop (users : List Udat) : List Str → Str
  | [] => []
  | bf :: bfs =>
    match strchr bf '@' with
    | none => cstr bf ++ reapLoop users bfs
    | some p =>
      let bf := bf.set p '\x00'
      if (in_user_list users (cstr bf)).isSome then reapLoop users bfs
      else
        let bf := bf.set p '@'
        cstr bf ++ reapLoop users bfs

/-- the characters of a stream that reach the file -/
def arrived (arrives : ℕ → Bool) : ℕ → Str → Str
  | _, [] => []
  | i, c :: s => if arrives i then c :: arrived arrives (i + 1) s else arrived arrives (i + 1) s

/-- what the name of the outbound file stands for afterwards -/
def reap_outbound (users : List Udat) (c : Calls) (content : Str) : Option Str :=
  if ¬c.opens then some content
  else
    let tmp_file := arrived c.arrives 0 (reapLoop users (fgetsAll BFSZ content))
    -- remove old file, and mv new file to old file
    if ¬c.unlinks then some content
    else if ¬c.links then none
    else some tmp_file

/-! ## A complete file -/

/-- the part before '@' is not on the list -/
def Stays (us : List Udat) (line : Str) : Prop := ∀ u ∈ before '@' line, some u ∉ us.map Udat.login

instance (us : List Udat) : DecidablePred (Stays us) := fun line =>
  inferInstanceAs (Decidable (∀ u ∈ before '@' line, some u ∉ us.map Udat.login))

/-- the complete filtered content -/
def filtered (us : List Udat) (content : Str) : Str := ((rawLines content).filter (Stays us ·)).flatten

/-- the old content, or the filtered one, complete -/
def Replaced (us users : List Udat) (c : Calls) (content : Str) : Prop :=
  reap_outbound users c content = some content ∨ reap_outbound users c content = some (filtered us content)

/-- every piece of a line is treated as the line is, and no line that stays has a NUL -/
def Linewise (us : List Udat) (content : Str) : Prop :=
  ∀ line ∈ rawLines content, (Stays us line → '\x00' ∉ line) ∧
    ∀ bf ∈ fgetsAll BFSZ line, (Stays us (cstr bf) ↔ Stays us line)

/-- no piece is left out -/
def Undropped (us : List Udat) (content : Str) : Prop :=
  '\x00' ∉ content ∧ ∀ bf ∈ fgetsAll BFSZ content, Stays us bf

/-- every buffered write and the close succeed -/
def Delivered (users : List Udat) (c : Calls) (content : Str) : Prop :=
  ∀ i < (reapLoop users (fgetsAll BFSZ content)).length, c.arrives i

/-- if the old file is removed, the new one is put in its place, nothing of it is lost, and lines are taken whole -/
def Sound (us users : List Udat) (c : Calls) (content : Str) : Prop :=
  c.opens → c.unlinks → c.links ∧ Delivered users c content ∧ (Linewise us content ∨ Undropped us content)

/-! ## The characters that arrive -/

theorem arrived_sublist (arrives : ℕ → Bool) (i : ℕ) (s : Str) : (arrived arrives i s).Sublist s := by
  induction s generalizing i with
  | nil => exact List.Sublist.refl _
  | cons c s ih =>
    rw [arrived]
    split_ifs
    · exact (ih (i + 1)).cons_cons c
    · exact (ih (i + 1)).cons c

theorem arrived_eq_iff (arrives : ℕ → Bool) (i : ℕ) (s : Str) :
    arrived arrives i s = s ↔ ∀ j < s.length, arrives (i + j) := by
  induction s generalizing i with
  | nil => simp [arrived]
  | cons c s ih =>
    rw [arrived]
    split_ifs with hi
    · rw [List.cons_inj_right, ih]
      refine ⟨?_, ?_⟩
      · intro h j hj
        cases j with
        | zero => exact hi
        | succ j =>
          rw [← Nat.add_assoc, Nat.add_right_comm]
          exact h j (Nat.lt_of_succ_lt_succ hj)
      · intro h j hj
        rw [Nat.add_right_comm, Nat.add_assoc]
        exact h (j + 1) (Nat.succ_lt_succ hj)
    · refine iff_of_false ?_ fun h => hi (h 0 (Nat.zero_lt_succ _))
      intro h
      have hlen := (arrived_sublist arrives (i + 1) s).length_le
      rw [h, List.length_cons] at hlen
      omega

theorem arrived_eq_iff_delivered (users : List Udat) (c : Calls) (content : Str) :
    arrived c.arrives 0 (reapLoop users (fgetsAll BFSZ content)) = reapLoop users (fgetsAll BFSZ content) ↔
      Delivered users c content := by
  rw [arrived_eq_iff]
  simp only [Nat.zero_add]
  exact Iff.rfl

/-! ## The loop -/

theorem stays_iff {us users : List Udat} (hs : SortsTo us users) (line : Str) :
    Stays us line ↔ ∀ u ∈ before '@' line, ¬(in_user_list users u).isSome := by
  refine forall_congr' fun u => forall_congr' fun _ => not_congr ?_
  rw [in_user_list_isSome hs]
  exact (hs.1.map Udat.login).mem_iff.symm

/-- **The loop** puts the pieces that stay into the temporary file. -/
theorem reapLoop_pieces {us users : List Udat} (hs : SortsTo us users) (bfs : List Str) :
    reapLoop users bfs = ((bfs.map cstr).filter (Stays us ·)).flatten := by
  induction bfs with
  | nil => rfl
  | cons bf bfs ih =>
    rw [List.map_cons, List.filter_cons, reapLoop]
    have hstays := stays_iff hs (cstr bf)
    cases hp : strchr bf '@' with
    | none =>
      have hbefore : before '@' (cstr bf) = none := if_neg (strchr_eq_none.1 hp)
      have hstay : Stays us (cstr bf) := hstays.2 fun u hu => by rw [hbefore] at hu; cases hu
      simp only [hstay, decide_true, if_true, List.flatten_cons, ih]
    | some p =>
      have hmem : '@' ∈ cstr bf := by
        by_contra hmem
        rw [strchr_eq_none.2 hmem] at hp
        cases hp
      have hbefore : before '@' (cstr bf) = some ((cstr bf).takeWhile (· ≠ '@')) := if_pos hmem
      simp only [cstr_set_strchr hp, set_strchr hp, ih]
      by_cases hlisted : (in_user_list users ((cstr bf).takeWhile (· ≠ '@'))).isSome
      · have hgo : ¬Stays us (cstr bf) := fun h => hstays.1 h _ hbefore hlisted
        simp only [hlisted, hgo, decide_false, if_true, Bool.false_eq_true, if_false]
      · have hstay : Stays us (cstr bf) := hstays.2 fun u hu => by
          rw [hbefore] at hu
          cases hu
          exact hlisted
        simp only [hlisted, hstay, decide_true, if_true, Bool.false_eq_true, if_false, List.flatten_cons]

/-- a name that is not opened or not unlinked stays; else the temporary file takes its place, if it can be linked -/
theorem replaced_iff {us users : List Udat} {c : Calls} {content : Str} :
    Replaced us users c content ↔ (c.opens → c.unlinks → c.links ∧
      (arrived c.arrives 0 (reapLoop users (fgetsAll BFSZ content)) = content ∨
        arrived c.arrives 0 (reapLoop users (fgetsAll BFSZ content)) = filtered us content)) := by
  unfold Replaced reap_outbound
  cases c.opens with
  | false => simp
  | true =>
    cases c.unlinks with
    | false => simp
    | true => cases c.links <;> simp

/-- the pieces of a text without a NUL are strings as they are -/
theorem map_cstr_pieces {s : Str} (h : '\x00' ∉ s) : (fgetsAll BFSZ s).map cstr = fgetsAll BFSZ s := by
  refine (List.map_congr_left fun bf hbf => cstr_of_not_mem fun hnul => h ?_).trans (List.map_id _)
  rw [← flatten_fgetsAll (n := BFSZ) (by decide) s]
  exact List.mem_flatten_of_mem hbf hnul

theorem reapLoop_line {us : List Udat} {line : Str}
    (h : (Stays us line → '\x00' ∉ line) ∧ ∀ bf ∈ fgetsAll BFSZ line, (Stays us (cstr bf) ↔ Stays us line)) :
    (((fgetsAll BFSZ line).map cstr).filter (Stays us ·)).flatten = if Stays us line then line else [] := by
  obtain ⟨hnul, hpieces⟩ := h
  split_ifs with hstay
  · have hall : ∀ bf ∈ (fgetsAll BFSZ line).map cstr, decide (Stays us bf) = true := by
      intro bf hbf
      obtain ⟨p, hp, rfl⟩ := List.mem_map.1 hbf
      exact decide_eq_true ((hpieces p hp).2 hstay)
    rw [List.filter_eq_self.2 hall, map_cstr_pieces (hnul hstay), flatten_fgetsAll (by decide)]
  · have hnone : ∀ bf ∈ (fgetsAll BFSZ line).map cstr, ¬decide (Stays us bf) = true := by
      intro bf hbf
      obtain ⟨p, hp, rfl⟩ := List.mem_map.1 hbf
      exact fun h => hstay ((hpieces p hp).1 (of_decide_eq_true h))
    rw [List.filter_eq_nil_iff.2 hnone, List.flatten_nil]

theorem reapLoop_linewise {us users : List Udat} (hs : SortsTo us users) {content : Str} (h : Linewise us content) :
    reapLoop users (fgetsAll BFSZ content) = filtered us content := by
  rw [reapLoop_pieces hs, fgetsAll_rawLines (by decide), filtered]
  unfold Linewise at h
  generalize rawLines content = lines at h
  induction lines with
  | nil => rfl
  | cons line lines ih =>
    rw [List.flatMap_cons, List.map_append, List.filter_append, List.flatten_append,
      reapLoop_line (h line List.mem_cons_self), ih fun l hl => h l (List.mem_cons_of_mem line hl), List.filter_cons]
    by_cases hstay : Stays us line
    · simp [hstay]
    · simp [hstay]

theorem reapLoop_undropped {us users : List Udat} (hs : SortsTo us users) {content : Str} (h : Undropped us content) :
    reapLoop users (fgetsAll BFSZ content) = content := by
  have hall : ∀ bf ∈ fgetsAll BFSZ content, decide (Stays us bf) = true := fun bf hbf => decide_eq_true (h.2 bf hbf)
  rw [reapLoop_pieces hs, map_cstr_pieces h.1, List.filter_eq_self.2 hall, flatten_fgetsAll (by decide)]

/-- **What is enough** for a complete file -/
theorem replaced_of_sound {us users : List Udat} (hs : SortsTo us users) {c : Calls} {content : Str}
    (h : Sound us users c content) : Replaced us users c content := by
  rw [replaced_iff]
  intro hopens hunlinks
  obtain ⟨hlinks, hdelivered, hwhole⟩ := h hopens hunlinks
  rw [(arrived_eq_iff_delivered users c content).2 hdelivered]
  refine ⟨hlinks, ?_⟩
  rcases hwhole with hlines | hundropped
  · exact Or.inr (reapLoop_linewise hs hlines)
  · exact Or.inl (reapLoop_undropped hs hundropped)

/-! ## What is needed -/

theorem nul_not_mem_reapLoop {us users : List Udat} (hs : SortsTo us users) (bfs : List Str) :
    '\x00' ∉ reapLoop users bfs := by
  rw [reapLoop_pieces hs]
  intro h
  obtain ⟨s, hmem, hnul⟩ := List.mem_flatten.1 h
  obtain ⟨bf, -, rfl⟩ := List.mem_map.1 (List.mem_filter.1 hmem).1
  exact nul_not_mem_cstr bf hnul

/-- nothing is put into the temporary file that is not in the old one -/
theorem reapLoop_sublist {us users : List Udat} (hs : SortsTo us users) (content : Str) :
    (reapLoop users (fgetsAll BFSZ content)).Sublist content := by
  rw [reapLoop_pieces hs]
  have hcut : ∀ bfs : List Str, (bfs.map cstr).flatten.Sublist bfs.flatten := by
    intro bfs
    induction bfs with
    | nil => exact List.Sublist.refl _
    | cons bf bfs ih => exact (List.takeWhile_sublist _).append ih
  have hfilter : ((fgetsAll BFSZ content).map cstr |>.filter (Stays us ·)).flatten.Sublist
      ((fgetsAll BFSZ content).map cstr).flatten := List.filter_sublist.flatten
  have hle := hfilter.trans (hcut (fgetsAll BFSZ content))
  rwa [flatten_fgetsAll (by decide)] at hle

variable {us users : List Udat} {content : Str}

/-- what the loop leaves of a text without a NUL is the filtered content only if every piece goes the way of its
line -/
theorem linewise_of_filtered (hs : SortsTo us users) (hnul : '\x00' ∉ content)
    (h : reapLoop users (fgetsAll BFSZ content) = filtered us content) : Linewise us content := by
  have hn : 2 ≤ BFSZ := by decide
  rw [reapLoop_pieces hs, map_cstr_pieces hnul, filtered] at h
  -- both sides as pieces
  have hleft : Pieces BFSZ ((fgetsAll BFSZ content).filter (Stays us ·)) :=
    (pieces_fgetsAll hn content).1.sublist List.filter_sublist
  have hright : Pieces BFSZ (((rawLines content).filter (Stays us ·)).flatMap (fgetsAll BFSZ)) := by
    refine (pieces_fgetsAll hn content).1.sublist ?_
    rw [fgetsAll_rawLines hn content]
    exact List.filter_sublist.flatMap (fgetsAll BFSZ)
  have hflatten : (((rawLines content).filter (Stays us ·)).flatMap (fgetsAll BFSZ)).flatten =
      ((rawLines content).filter (Stays us ·)).flatten := by
    generalize (rawLines content).filter (Stays us ·) = lines
    induction lines with
    | nil => rfl
    | cons line lines ih =>
      rw [List.flatMap_cons, List.flatten_append, ih, flatten_fgetsAll hn, List.flatten_cons]
  have hpieces := hleft.flatten_inj hn hright (h.trans hflatten.symm)
  rw [fgetsAll_rawLines hn content] at hpieces
  intro line hline
  have hline_nul : '\x00' ∉ line := by
    intro hmem
    rw [← flatten_rawLines content] at hnul
    exact hnul (List.mem_flatten_of_mem hline hmem)
  refine ⟨fun _ => hline_nul, fun bf hbf => ?_⟩
  have hbf_nul : '\x00' ∉ bf := by
    intro hmem
    rw [← flatten_fgetsAll hn line] at hline_nul
    exact hline_nul (List.mem_flatten_of_mem hbf hmem)
  rw [cstr_of_not_mem hbf_nul]
  exact keep_iff_of_filter_flatMap hpieces line hline bf hbf

theorem undropped_of_eq (hs : SortsTo us users) (h : reapLoop users (fgetsAll BFSZ content) = content) :
    Undropped us content := by
  have hnul : '\x00' ∉ content := by
    rw [← h]
    exact nul_not_mem_reapLoop hs _
  refine ⟨hnul, fun bf hbf => ?_⟩
  have hn : 2 ≤ BFSZ := by decide
  rw [reapLoop_pieces hs, map_cstr_pieces hnul] at h
  have hleft : Pieces BFSZ ((fgetsAll BFSZ content).filter (Stays us ·)) :=
    (pieces_fgetsAll hn content).1.sublist List.filter_sublist
  have hall := hleft.flatten_inj hn (pieces_fgetsAll hn content).1 (h.trans (flatten_fgetsAll hn content).symm)
  exact of_decide_eq_true (List.filter_eq_self.1 hall bf hbf)

/-- **Why it is needed.** Where a complete file is left though the old one was removed: the new one has been linked in
its place; no line that stays has a NUL; and, in a file without a NUL, if one of the two holds, that every character
arrives and that the lines are taken whole, then so does the other (or nothing at all is left out). -/
theorem sound_of_replaced (hs : SortsTo us users) {c : Calls} (h : Replaced us users c content)
    (hopens : c.opens) (hunlinks : c.unlinks) :
    c.links ∧ (∀ line ∈ rawLines content, Stays us line → '\x00' ∉ line) ∧
      ('\x00' ∉ content → Delivered users c content ∨ Linewise us content → Sound us users c content) := by
  rw [replaced_iff] at h
  obtain ⟨hlinks, htmp⟩ := h hopens hunlinks
  have hsub := arrived_sublist c.arrives 0 (reapLoop users (fgetsAll BFSZ content))
  have hdelivered := arrived_eq_iff_delivered users c content
  refine ⟨hlinks, ?_, ?_⟩
  · intro line hline hstay hnul
    have hclean := fun hmem => nul_not_mem_reapLoop hs (fgetsAll BFSZ content) (hsub.subset hmem)
    rcases htmp with h | h
    · rw [h, ← flatten_rawLines content] at hclean
      exact hclean (List.mem_flatten_of_mem hline hnul)
    · rw [h, filtered] at hclean
      exact hclean (List.mem_flatten_of_mem (List.mem_filter.2 ⟨hline, decide_eq_true hstay⟩) hnul)
  · intro hnul hone _ _
    refine ⟨hlinks, ?_⟩
    rcases hone with hall | hlines
    · refine ⟨hall, ?_⟩
      rw [hdelivered.2 hall] at htmp
      rcases htmp with h | h
      · exact Or.inr (undropped_of_eq hs h)
      · exact Or.inl (linewise_of_filtered hs hnul h)
    · refine ⟨hdelivered.1 ?_, Or.inl hlines⟩
      rcases htmp with h | h
      · -- the old content, and so all of what was put in
        apply hsub.eq_of_length_le
        rw [h]
        exact (reapLoop_sublist hs content).length_le
      · rw [h, reapLoop_linewise hs hlines]

/-- **A complete outbound file.** For every content, user list and outcome of the calls: the name stands for a complete
file if, when the old file is removed, the new one is linked, nothing of it is lost and its lines are taken whole. That
is needed too, for a file without a NUL where one of the last two holds; and in any case if the new file cannot be
linked, or a line that stays has a NUL. -/
theorem reap_outbound_replaces (us users : List Udat) (hs : SortsTo us users) (c : Calls) (content : Str) :
    (Sound us users c content → Replaced us users c content) ∧
      ('\x00' ∉ content → Delivered users c content ∨ Linewise us content →
        (Replaced us users c content ↔ Sound us users c content)) ∧
      (c.opens → c.unlinks → (¬c.links ∨ ∃ line ∈ rawLines content, Stays us line ∧ '\x00' ∈ line) →
        ¬Replaced us users c content) := by
  refine ⟨replaced_of_sound hs, ?_, ?_⟩
  · intro hnul hone
    refine ⟨fun h hopens hunlinks => ?_, replaced_of_sound hs⟩
    exact (sound_of_replaced hs h hopens hunlinks).2.2 hnul hone hopens hunlinks
  · intro hopens hunlinks hbad h
    obtain ⟨hlinks, hclean, -⟩ := sound_of_replaced hs h hopens hunlinks
    rcases hbad with hbad | hbad
    · exact hbad hlinks
    · obtain ⟨line, hline, hstay, hnul⟩ := hbad
      exact hclean line hline hstay hnul

/-- one user who is not on the list -/
def oneLine : Str := ['a', '@', 'c', '\n']

/-- nothing fails, and the file is as it was -/
theorem one_line_kept : Replaced [] [] ⟨true, fun _ => true, true, true⟩ oneLine := by
  refine (reap_outbound_replaces [] [] ⟨List.Perm.refl _, List.Pairwise.nil⟩ _ oneLine).1 fun _ _ => ?_
  refine ⟨rfl, fun _ _ => rfl, Or.inl ?_⟩
  have hlines : rawLines oneLine = [oneLine] := by decide
  intro line hline
  rw [hlines, List.mem_singleton] at hline
  subst hline
  have hpieces : fgetsAll BFSZ oneLine = [oneLine] := by decide
  rw [hpieces]
  exact ⟨fun _ => by decide, fun bf hbf => by rw [List.mem_singleton.1 hbf]; decide⟩

/-- **The file is gone**, as the new one cannot be linked; **or empty**, as nothing that was written reaches it. -/
theorem link_fails_write_lost :
    reap_outbound [] ⟨true, fun _ => true, true, false⟩ oneLine = none ∧
      ¬Replaced [] [] ⟨true, fun _ => true, true, false⟩ oneLine ∧
      reap_outbound [] ⟨true, fun _ => false, true, true⟩ oneLine = some [] ∧
      ¬Replaced [] [] ⟨true, fun _ => false, true, true⟩ oneLine := by
  refine ⟨by decide, ?_, by decide, ?_⟩
  · intro h
    rcases h with h | h
    · revert h; decide
    · revert h; decide
  · intro h
    rcases h with h | h
    · revert h; decide
    · revert h; decide

/-! ## The lines that are left -/

theorem reapLoop_congr {users users' : List Udat}
    (h : ∀ u, in_user_list users u = in_user_list users' u) (bfs : List Str) :
    reapLoop users bfs = reapLoop users' bfs := by
  induction bfs with
  | nil => rfl
  | cons bf bfs ih => simp only [reapLoop, h, ih]

theorem reap_outbound_congr {users users' : List Udat}
    (h : ∀ u, in_user_list users u = in_user_list users' u) (c : Calls)
    (content : Str) : reap_outbound users c content = reap_outbound users' c content := by
  unfold reap_outbound
  rw [reapLoop_congr h]

theorem Replaced.keeps {c : Calls} (h : Replaced us users c content) {line : Str} (hline : line ∈ rawLines content)
    (hstay : Stays us line) : line ∈ rawLines ((reap_outbound users c content).getD []) := by
  rcases h with h | h
  · rw [h, Option.getD_some]
    exact hline
  · rw [h, Option.getD_some, filtered, rawLines_filter]
    exact List.mem_filter.2 ⟨hline, decide_eq_true hstay⟩

/-- where nothing is lost and lines are taken whole, the lines that do not stay are gone -/
theorem stays_of_mem (hs : SortsTo us users) {c : Calls} (hopens : c.opens) (hunlinks : c.unlinks)
    (hdelivered : Delivered users c content) (hlines : Linewise us content) {line : Str}
    (h : line ∈ rawLines ((reap_outbound users c content).getD [])) : c.links ∧ Stays us line := by
  rw [reap_outbound, if_neg (not_not.2 hopens), if_neg (not_not.2 hunlinks),
    (arrived_eq_iff_delivered users c content).2 hdelivered, reapLoop_linewise hs hlines] at h
  by_cases hlinks : c.links = true
  · rw [if_neg (not_not.2 hlinks), Option.getD_some, filtered, rawLines_filter] at h
    exact ⟨hlinks, of_decide_eq_true (List.mem_filter.1 h).2⟩
  · rw [if_pos hlinks] at h
    cases h

end MNetSoft.Zapuser.OutboundFile
