/-
The words of a text: the longest runs of elements that are no separators. Which elements are separators is a parameter,
and nothing here is about a particular program.

- `wordsBy_append_cons`: the words before and behind a separator are apart.
- `mem_wordsBy`: a word is not empty and has no separator.
- `flatten_wordsBy`: the words together are the text without its separators.
- `wordsBy_flatten`: texts that end with separators have their words one after another.
-/
import Mathlib.Tactic

namespace MNetSoft.Words

variable {α : Type*} (p : α → Bool)

/-- the words between the elements that meet `p` -/
def wordsBy (s : List α) : List (List α) := (s.splitOnP p).filter fun w => !w.isEmpty

variable {p} {c : α} {s t w : List α}

theorem wordsBy_nil : wordsBy p [] = [] := rfl

theorem wordsBy_append_cons (hc : p c = true) (s t : List α) :
    wordsBy p (s ++ c :: t) = wordsBy p s ++ wordsBy p t := by
  rw [wordsBy, List.splitOnP_append_cons s t hc, List.filter_append]
  rfl

theorem wordsBy_cons (hc : p c = true) (s : List α) : wordsBy p (c :: s) = wordsBy p s :=
  wordsBy_append_cons hc [] s

theorem wordsBy_concat (hc : p c = true) (s : List α) : wordsBy p (s ++ [c]) = wordsBy p s := by
  rw [wordsBy_append_cons hc, wordsBy_nil, List.append_nil]

theorem wordsBy_word (hw : w ≠ []) (h : ∀ c ∈ w, p c = false) : wordsBy p w = [w] := by
  rw [wordsBy, List.splitOnP_eq_singleton h, List.filter_cons_of_pos (by simpa using hw), List.filter_nil]

/-- a text is cut at its first separator -/
theorem splitOnP_takeWhile (s : List α) :
    s.splitOnP p = (s.takeWhile fun c => !p c) ::
      (match s.dropWhile fun c => !p c with
        | [] => []
        | _ :: s => s.splitOnP p) := by
  induction s with
  | nil => rfl
  | cons c s ih =>
    rw [List.splitOnP_cons_eq_if_modifyHead]
    cases hc : p c with
    | true => simp [hc]
    | false =>
      rw [if_neg Bool.false_ne_true, ih, List.takeWhile_cons, List.dropWhile_cons]
      simp [hc]

/-- the first word is in front if the text begins with no separator -/
theorem wordsBy_takeWhile (hc : p c = false) (s : List α) :
    wordsBy p (c :: s) = (c :: s).takeWhile (fun c => !p c) :: wordsBy p ((c :: s).dropWhile fun c => !p c) := by
  rw [wordsBy, splitOnP_takeWhile, List.filter_cons_of_pos (by simp [hc])]
  cases hrest : (c :: s).dropWhile fun c => !p c with
  | nil => rfl
  | cons d t =>
    have hd : p d = true := by
      have hne : (c :: s).dropWhile (fun c => !p c) ≠ [] := by simp [hrest]
      simpa [hrest] using List.head_dropWhile_not _ hne
    rw [wordsBy_cons hd]
    rfl

/-- separators in front do not count -/
theorem wordsBy_dropWhile (s : List α) : wordsBy p (s.dropWhile p) = wordsBy p s := by
  induction s with
  | nil => rfl
  | cons c s ih =>
    cases hc : p c with
    | false => rw [List.dropWhile_cons_of_neg (by simp [hc])]
    | true => rw [List.dropWhile_cons_of_pos hc, ih, wordsBy_cons hc]

theorem wordsBy_congr {q : α → Bool} (h : ∀ c ∈ s, p c = q c) : wordsBy p s = wordsBy q s := by
  have hsplit : s.splitOnP p = s.splitOnP q := by
    induction s with
    | nil => rfl
    | cons c s ih =>
      obtain ⟨hc, hs⟩ := List.forall_mem_cons.1 h
      rw [List.splitOnP_cons_eq_if_modifyHead, List.splitOnP_cons_eq_if_modifyHead, hc, ih hs]
  rw [wordsBy, wordsBy, hsplit]

theorem flatten_splitOnP (s : List α) : (s.splitOnP p).flatten = s.filter fun c => !p c := by
  induction s with
  | nil => rfl
  | cons c s ih =>
    rw [List.splitOnP_cons_eq_if_modifyHead]
    cases hc : p c with
    | true => rw [if_pos rfl, List.filter_cons_of_neg (by simp [hc]), ← ih, List.flatten_cons, List.nil_append]
    | false =>
      obtain ⟨w, ws, hs⟩ := List.exists_cons_of_ne_nil (List.splitOnP_ne_nil p s)
      rw [if_neg Bool.false_ne_true, List.filter_cons_of_pos (by simp [hc]), ← ih, hs]
      rfl

theorem flatten_wordsBy (s : List α) : (wordsBy p s).flatten = s.filter fun c => !p c := by
  rw [wordsBy, List.flatten_filter_not_isEmpty, flatten_splitOnP]

theorem mem_wordsBy (h : w ∈ wordsBy p s) : w ≠ [] ∧ ∀ c ∈ w, p c = false := by
  refine ⟨by simpa using (List.mem_filter.1 h).2, fun c hc => ?_⟩
  have hmem : c ∈ (wordsBy p s).flatten := List.mem_flatten.2 ⟨w, h, hc⟩
  rw [flatten_wordsBy] at hmem
  simpa using (List.mem_filter.1 hmem).2

/-- a text has no words if it has only separators -/
theorem wordsBy_eq_nil_iff : wordsBy p s = [] ↔ ∀ c ∈ s, p c = true := by
  constructor
  · intro h
    have hfilter := flatten_wordsBy (p := p) s
    rw [h, List.flatten_nil, eq_comm, List.filter_eq_nil_iff] at hfilter
    simpa using hfilter
  · intro h
    induction s with
    | nil => rfl
    | cons c s ih =>
      obtain ⟨hc, hs⟩ := List.forall_mem_cons.1 h
      rw [wordsBy_cons hc, ih hs]

/-- texts that end with a separator, one behind the other -/
theorem wordsBy_flatten {ls : List (List α)} (h : ∀ l ∈ ls, ∃ t c, l = t ++ [c] ∧ p c = true) :
    wordsBy p ls.flatten = ls.flatMap (wordsBy p) := by
  induction ls with
  | nil => rfl
  | cons l ls ih =>
    obtain ⟨hl, hls⟩ := List.forall_mem_cons.1 h
    obtain ⟨t, c, rfl, hc⟩ := hl
    rw [List.flatten_cons, List.append_assoc, List.singleton_append, wordsBy_append_cons hc, ih hls, List.flatMap_cons,
      wordsBy_concat hc]

end MNetSoft.Words
