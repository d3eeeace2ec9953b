import Mathlib.Tactic.Common

/-! # Words

The pieces of a list between separators, where several separators in a row count as one.
-/
namespace Xv6
open List

variable {α : Type} {sep : α → Bool} {c : α} {l : List α}

/-- The longest parts without a separator. -/
def words (sep : α → Bool) (l : List α) : List (List α) := (l.splitOnP sep).filter (!·.isEmpty)

theorem words_nil : words sep [] = [] := by simp [words]

theorem words_cons_sep (h : sep c = true) : words sep (c :: l) = words sep l := by
  simp [words, splitOnP_cons_eq_if_modifyHead, h]

theorem words_dropWhile (l : List α) : words sep (l.dropWhile sep) = words sep l := by
  induction l with
  | nil => rfl
  | cons c l ih =>
    by_cases h : sep c = true
    · rw [dropWhile_cons_of_pos h, ih, words_cons_sep h]
    · rw [dropWhile_cons_of_neg h]

theorem words_of_forall (hw : ∀ x ∈ w, sep x = false) (hne : w ≠ []) : words sep w = [w] := by
  rw [words, splitOnP_eq_singleton hw]
  simp [hne]

theorem words_append_cons (hw : ∀ x ∈ w, sep x = false) (hne : w ≠ []) (hc : sep c = true) :
    words sep (w ++ c :: l) = w :: words sep l := by
  rw [words, splitOnP_append_cons_of_forall_mem hw _ hc]
  simp [hne, words]

/-- A list that does not begin with a separator begins with a word. -/
theorem exists_word (h : sep c = false) (l : List α) :
    ∃ w rest, (c :: l).takeWhile (!sep ·) = w ∧ (c :: l).dropWhile (!sep ·) = rest ∧ c :: l = w ++ rest ∧
      w ≠ [] ∧ (∀ x ∈ w, sep x = false) ∧ ∀ s ∈ rest.head?, sep s = true := by
  refine ⟨_, _, rfl, rfl, takeWhile_append_dropWhile.symm, by simp [h],
    fun x hx => by simpa using all_eq_true.mp all_takeWhile x hx, fun s hs => ?_⟩
  have hhead := head?_dropWhile_not (!sep ·) (c :: l)
  rw [Option.mem_def.mp hs] at hhead
  simpa using hhead

theorem words_cons (h : sep c = false) :
    words sep (c :: l) = (c :: l).takeWhile (!sep ·) :: words sep ((c :: l).dropWhile (!sep ·)) := by
  obtain ⟨w, rest, htake, hdrop, heq, hne, hw, hrest⟩ := exists_word h l
  rw [htake, hdrop, heq]
  cases rest with
  | nil => rw [append_nil, words_of_forall hw hne, words_nil]
  | cons s =>
    have hs : sep s = true := hrest s rfl
    rw [words_append_cons hw hne hs, words_cons_sep hs]

end Xv6
