import Mathlib.Logic.Function.Basic

/-! # Maps that change at one place -/
namespace Xv6
open Function

variable {ι β κ : Type} [DecidableEq ι] {f : ι → β} {a : ι} {b : β}

theorem forall_update {P : ι → β → Prop} (hf : ∀ i, i ≠ a → P i (f i)) (hb : P a b) (i : ι) : P i (update f a b i) :=
  (forall_update_iff f (p := fun i x => P i x)).mpr ⟨hb, hf⟩ i

/-- The keys of the values in `A` stay distinct if that of the new value is. -/
theorem distinct_update {A : β → Prop} {K : β → κ} (hf : ∀ i j, A (f i) → A (f j) → K (f i) = K (f j) → i = j)
    (hb : A b → ∀ j, j ≠ a → A (f j) → K b ≠ K (f j)) (i j : ι) (hi : A (update f a b i)) (hj : A (update f a b j))
    (heq : K (update f a b i) = K (update f a b j)) : i = j := by
  by_cases hia : i = a <;> by_cases hja : j = a
  · rw [hia, hja]
  · subst hia
    rw [update_self] at hi heq
    rw [update_of_ne hja] at hj heq
    exact (hb hi j hja hj heq).elim
  · subst hja
    rw [update_of_ne hia] at hi heq
    rw [update_self] at hj heq
    exact (hb hj i hia hi heq.symm).elim
  · rw [update_of_ne hia] at hi heq
    rw [update_of_ne hja] at hj heq
    exact hf i j hi hj heq

theorem distinct_update_some {C : β → Option κ} (hf : ∀ i j x, C (f i) = some x → C (f j) = some x → i = j)
    (hb : ∀ x, C b = some x → ∀ j, j ≠ a → C (f j) ≠ some x) (i j : ι) (x : κ) (hi : C (update f a b i) = some x)
    (hj : C (update f a b j) = some x) : i = j :=
  distinct_update (A := fun y => C y = some x) (K := fun _ => ()) (fun i j hi hj _ => hf i j x hi hj)
    (fun hx j hj hfj _ => hb x hx j hj hfj) i j hi hj rfl

end Xv6
