import Mathlib.Data.List.FinRange
import Mathlib.Order.Basic

/-! # Linear searches

A loop that keeps a candidate and replaces it by every admissible element that
compares better.
-/
namespace Xv6
open List

variable {α : Type}

/-- The candidate left after a loop over `xs` that started with `a`. -/
def best (ok : α → Prop) (better : α → α → Prop) [DecidablePred ok]
    [∀ x y, Decidable (better x y)] (xs : List α) (a : α) : α :=
  xs.foldl (fun b x => if ok x ∧ better x b then x else b) a

variable {ok : α → Prop} {better : α → α → Prop} [DecidablePred ok]
  [∀ x y, Decidable (better x y)]

theorem best_ok (xs : List α) (ha : ok a) : ok (best ok better xs a) := by
  induction xs generalizing a with
  | nil => exact ha
  | cons x xs ih =>
    rw [best, foldl_cons]
    by_cases hx : ok x ∧ better x a
    · rw [if_pos hx]
      exact ih hx.1
    · rw [if_neg hx]
      exact ih ha

theorem not_of_find?_sorted [LinearOrder α] {xs : List α} (hxs : xs.Pairwise (· < ·)) {p : α → Bool}
    {c r : α} (h : xs.find? p = some c) (hr : r ∈ xs) (hlt : r < c) : p r = false := by
  induction xs with
  | nil => cases hr
  | cons x xs ih =>
    obtain ⟨hx, hxs⟩ := pairwise_cons.mp hxs
    cases hp : p x with
    | true =>
      rw [find?_cons_of_pos hp] at h
      cases h
      rcases mem_cons.mp hr with rfl | hr
      · exact absurd hlt (lt_irrefl _)
      · exact absurd (hx r hr) hlt.not_gt
    | false =>
      rw [find?_cons_of_neg (by simp [hp])] at h
      rcases mem_cons.mp hr with rfl | hr
      · exact hp
      · exact ih hxs h hr

section Key
variable {β : Type} [LinearOrder α] [LinearOrder β] (key : α → β)

/-- What a search for the smallest key over an increasing list finds: the start, unless an
admissible element has a smaller key, and then the first element with the smallest one. -/
theorem best_spec (hkey : ∀ x y, better x y ↔ key x < key y) {xs : List α}
    (hxs : xs.Pairwise (· < ·)) (a : α) : (∀ x ∈ xs, ok x → key (best ok better xs a) ≤ key x) ∧
      (best ok better xs a = a ∨ best ok better xs a ∈ xs ∧ key (best ok better xs a) < key a ∧
        ∀ x ∈ xs, x < best ok better xs a → ok x → key (best ok better xs a) < key x) := by
  induction xs generalizing a with
  | nil => exact ⟨(fun x hx => by cases hx), .inl rfl⟩
  | cons x xs ih =>
    obtain ⟨hlt, hxs⟩ := pairwise_cons.mp hxs
    by_cases hx : ok x ∧ better x a
    · have hstep : best ok better (x :: xs) a = best ok better xs x := by
        rw [best, foldl_cons, if_pos hx]
        rfl
      rw [hstep]
      have hxa := (hkey x a).mp hx.2
      obtain ⟨hle, hend⟩ := ih hxs x
      generalize best ok better xs x = r at hle hend
      have hrx : key r ≤ key x := by
        rcases hend with rfl | ⟨-, hend, -⟩
        · exact le_rfl
        · exact hend.le
      refine ⟨?_, .inr ⟨?_, hrx.trans_lt hxa, ?_⟩⟩
      · intro y hy hok
        rcases mem_cons.mp hy with rfl | hy
        · exact hrx
        · exact hle y hy hok
      · rcases hend with rfl | ⟨hmem, -, -⟩
        · exact mem_cons_self
        · exact mem_cons_of_mem _ hmem
      · intro y hy hyr hok
        rcases mem_cons.mp hy with rfl | hy'
        · rcases hend with rfl | ⟨-, hend, -⟩
          · exact absurd hyr (lt_irrefl _)
          · exact hend
        · rcases hend with rfl | ⟨-, -, hfirst⟩
          · exact absurd (hlt y hy') hyr.not_gt
          · exact hfirst y hy' hyr hok
    · have hstep : best ok better (x :: xs) a = best ok better xs a := by
        rw [best, foldl_cons, if_neg hx]
        rfl
      rw [hstep]
      have hax : ok x → key a ≤ key x := fun hok =>
        not_lt.mp fun hlt => hx ⟨hok, (hkey x a).mpr hlt⟩
      obtain ⟨hle, hend⟩ := ih hxs a
      generalize best ok better xs a = r at hle hend
      have hra : key r ≤ key a := by
        rcases hend with rfl | ⟨-, hend, -⟩
        · exact le_rfl
        · exact hend.le
      refine ⟨?_, hend.imp id fun h => ⟨mem_cons_of_mem _ h.1, h.2.1, ?_⟩⟩
      · intro y hy hok
        rcases mem_cons.mp hy with rfl | hy
        · exact hra.trans (hax hok)
        · exact hle y hy hok
      · intro y hy hyr hok
        rcases mem_cons.mp hy with rfl | hy
        · exact h.2.1.trans_le (hax hok)
        · exact h.2.2 y hy hyr hok

theorem best_eq_iff (hkey : ∀ x y, better x y ↔ key x < key y) {xs : List α}
    (hxs : xs.Pairwise (· < ·)) (hall : ∀ x, x ∈ xs) {a r : α} (ha : ok a) :
    best ok better xs a = r ↔ ok r ∧ (∀ x, ok x → key r ≤ key x) ∧
      (r = a ∨ key r < key a ∧ ∀ x < r, ok x → key r < key x) := by
  have hok : ok (best ok better xs a) := best_ok xs ha
  obtain ⟨hle, hend⟩ : _ ∧ (best ok better xs a = a ∨ _) := best_spec key hkey hxs a
  generalize best ok better xs a = b at hle hend hok
  constructor
  · rintro rfl
    refine ⟨hok, fun x hx => hle x (hall x) hx, hend.imp id fun h => ⟨h.2.1, ?_⟩⟩
    exact fun x hx hokx => h.2.2 x (hall x) hx hokx
  · rintro ⟨hr, hmin, hfirst⟩
    have hkeys : key b = key r := le_antisymm (hle r (hall r) hr) (hmin b hok)
    rcases hend with rfl | ⟨-, hba, hbfirst⟩
    · rcases hfirst with rfl | ⟨hlt, -⟩
      · rfl
      · exact absurd hkeys hlt.ne'
    · rcases hfirst with rfl | ⟨-, hrfirst⟩
      · exact absurd hkeys hba.ne
      · rcases lt_trichotomy b r with hlt | heq | hgt
        · exact absurd hkeys (hrfirst b hlt hok).ne'
        · exact heq
        · exact absurd hkeys (hbfirst r (hall r) hgt hr).ne

end Key
end Xv6
