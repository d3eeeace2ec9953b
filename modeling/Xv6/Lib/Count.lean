import Mathlib.Algebra.BigOperators.Group.Finset.Piecewise
import Mathlib.Algebra.Order.Group.Multiset
import Mathlib.Data.Fintype.Card

/-! # Counting threads

How many threads are in a class of states, and how that number moves when one thread
changes its state.
-/
namespace Xv6
open Function Finset

variable {ι β : Type} [Fintype ι] (P : β → Prop) [DecidablePred P]

/-- The number of threads whose state satisfies `P`. -/
def countThreads (f : ι → β) : ℕ := (Finset.univ.filter fun i => P (f i)).card

theorem countThreads_eq_zero {f : ι → β} : countThreads P f = 0 ↔ ∀ i, ¬ P (f i) := by
  simp [countThreads, filter_eq_empty_iff]

theorem countThreads_pos {f : ι → β} (h : P (f i)) : 0 < countThreads P f :=
  Nat.pos_of_ne_zero fun hzero => (countThreads_eq_zero P).mp hzero i h

variable {P} in
theorem countThreads_le {Q : β → Prop} [DecidablePred Q] (h : ∀ b, P b → Q b) (f : ι → β) : countThreads P f ≤ countThreads Q f :=
  card_le_card (monotone_filter_right _ fun i _ => h (f i))

variable {P} in
/-- A thread in the larger class only. -/
theorem countThreads_lt {Q : β → Prop} [DecidablePred Q] (h : ∀ b, P b → Q b) {f : ι → β} (hQ : Q (f i)) (hP : ¬ P (f i)) :
    countThreads P f < countThreads Q f := by
  refine card_lt_card ⟨monotone_filter_right _ fun i _ => h (f i), fun hsub => hP ?_⟩
  have hi := hsub (mem_filter.mpr ⟨mem_univ i, hQ⟩)
  exact (mem_filter.mp hi).2

variable [DecidableEq ι]

theorem countThreads_update (f : ι → β) (p : ι) (c : β) :
    countThreads P (update f p c) + (if P (f p) then 1 else 0) =
      countThreads P f + (if P c then 1 else 0) := by
  have hrest : ∑ i ∈ univ.erase p, (if P (update f p c i) then 1 else 0) =
      ∑ i ∈ univ.erase p, (if P (f i) then 1 else 0) := by
    apply sum_congr rfl
    intro i hi
    rw [update_of_ne (ne_of_mem_erase hi)]
  simp only [countThreads, card_filter]
  rw [← add_sum_erase _ _ (mem_univ p), hrest, update_self,
    ← add_sum_erase _ (fun i => if P (f i) then 1 else 0) (mem_univ p)]
  omega

/-- What all threads have together, where one of them gets something else. -/
theorem sum_update {M : Type} [AddCommMonoid M] (f : ι → M) (p : ι) (c : M) :
    ∑ i, update f p c i + f p = ∑ i, f i + c := by
  rw [sum_update_of_mem (mem_univ p), sdiff_singleton_eq_erase, add_assoc,
    sum_erase_add _ f (mem_univ p), add_comm]

/-- The same, where the others are known to have what they had. -/
theorem sum_of_ne {M : Type} [AddCommMonoid M] {f g : ι → M} (h : ∀ q, q ≠ p → g q = f q) :
    ∑ i, g i + f p = ∑ i, f i + g p := by
  have hupdate : g = update f p (g p) := funext fun q => by
    by_cases hq : q = p
    · rw [hq, update_self]
    · rw [update_of_ne hq]
      exact h q hq
  rw [hupdate, sum_update, update_self]

theorem sum_of_ne_pair {M : Type} [AddCommMonoid M] {f g : ι → M} (hpr : p ≠ r)
    (h : ∀ q, q ≠ p → q ≠ r → g q = f q) : ∑ i, g i + (f p + f r) = ∑ i, f i + (g p + g r) := by
  have hfirst := sum_update f p (g p)
  have hsecond := sum_of_ne (f := update f p (g p)) (g := g) (p := r) fun q hq => by
    by_cases hqp : q = p
    · rw [hqp, update_self]
    · rw [update_of_ne hqp]
      exact h q hqp hq
  rw [update_of_ne hpr.symm] at hsecond
  calc ∑ i, g i + (f p + f r)
      = (∑ i, g i + f r) + f p := by rw [add_comm (f p), add_assoc]
    _ = (∑ i, update f p (g p) i + f p) + g r := by rw [hsecond, add_right_comm]
    _ = ∑ i, f i + (g p + g r) := by rw [hfirst, add_assoc]

section Multisets
variable {α : Type}

def one (a : Option α) : Multiset α := a.elim 0 ({·})

@[simp] theorem one_none : one (none : Option α) = 0 := rfl
@[simp] theorem one_some (a : α) : one (some a) = {a} := rfl

theorem count_one [DecidableEq α] (o : Option α) (a : α) : (one o).count a = if o = some a then 1 else 0 := by
  cases o with
  | none => simp
  | some =>
    rw [one_some, Multiset.count_singleton]
    simp only [Option.some.injEq, eq_comm]

omit [DecidableEq ι] in
theorem count_sum_one [DecidableEq α] (f : ι → Option α) (a : α) :
    (∑ i, one (f i)).count a = (univ.filter fun i => f i = some a).card := by
  rw [Multiset.count_sum', card_filter]
  exact sum_congr rfl fun i _ => count_one (f i) a

end Multisets
end Xv6
