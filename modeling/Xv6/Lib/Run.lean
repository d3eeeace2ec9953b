import Mathlib.Data.List.Induction
import Mathlib.Tactic.Common

/-! # Runs of a labelled transition system

The trace of a run lists, for each step, the state before it and its label. A
condition on steps is therefore a predicate on traces, and a safety property is an
invariant that steps meeting the condition keep.
-/
namespace Xv6
open List

variable {σ ℓ : Type} {step : σ → ℓ → σ → Prop}

inductive Run (step : σ → ℓ → σ → Prop) (s₀ : σ) : List (σ × ℓ) → σ → Prop
  | start : Run step s₀ [] s₀
  | snoc {tr : List (σ × ℓ)} {s s' : σ} {l : ℓ} :
      Run step s₀ tr s → step s l s' → Run step s₀ (tr ++ [(s, l)]) s'

/-- Every step of the trace meets `C`. -/
def Meets (C : σ → ℓ → Prop) (tr : List (σ × ℓ)) : Prop := ∀ e ∈ tr, C e.1 e.2

theorem meets_nil (C : σ → ℓ → Prop) : Meets C [] := by
  intro e he
  cases he

variable {C : σ → ℓ → Prop} {tr : List (σ × ℓ)} {s s₀ s₁ : σ}

theorem meets_snoc : Meets C (tr ++ [(s, l)]) ↔ Meets C tr ∧ C s l := by
  simp only [Meets, mem_append, mem_singleton]
  constructor
  · intro h
    exact ⟨fun e he => h e (.inl he), h (s, l) (.inr rfl)⟩
  · rintro ⟨h, hs⟩ e (he | rfl)
    · exact h e he
    · exact hs

theorem run_guarded {G : σ → ℓ → Prop} :
    Run (fun s l s' => step s l s' ∧ G s l) s₀ tr s ↔ Run step s₀ tr s ∧ Meets G tr := by
  constructor
  · intro hr
    induction hr with
    | start => exact ⟨.start, meets_nil G⟩
    | snoc _ hs ih => exact ⟨.snoc ih.1 hs.1, meets_snoc.mpr ⟨ih.2, hs.2⟩⟩
  · rintro ⟨hr, hg⟩
    induction hr with
    | start => exact .start
    | snoc _ hs ih =>
      obtain ⟨hg, hl⟩ := meets_snoc.mp hg
      exact .snoc (ih hg) ⟨hs, hl⟩

namespace Run
variable {C P : σ → ℓ → Prop} {I : σ → Prop} {s₀ s : σ} {tr : List (σ × ℓ)}

theorem invariant (hstep : ∀ s l s', I s → C s l → step s l s' → I s')
    (hr : Run step s₀ tr s) (h0 : I s₀) (hc : Meets C tr) : I s := by
  induction hr with
  | start => exact h0
  | snoc _ hs ih =>
    obtain ⟨hc, hl⟩ := meets_snoc.mp hc
    exact hstep _ _ _ (ih hc) hl hs

theorem meets (hstep : ∀ s l s', I s → C s l → step s l s' → I s' ∧ P s l)
    (hr : Run step s₀ tr s) (h0 : I s₀) (hc : Meets C tr) : Meets P tr := by
  induction hr with
  | start => exact meets_nil P
  | snoc hr hs ih =>
    obtain ⟨hc, hl⟩ := meets_snoc.mp hc
    have hI := hr.invariant (fun s l s' hi hl hs => (hstep s l s' hi hl hs).1) h0 hc
    exact meets_snoc.mpr ⟨ih hc, (hstep _ _ _ hI hl hs).2⟩

variable {tr' : List (σ × ℓ)} {s' : σ} {l : ℓ}

theorem trans (h : Run step s₀ tr s₁) (h' : Run step s₁ tr' s) : Run step s₀ (tr ++ tr') s := by
  induction h' with
  | start =>
    rw [append_nil]
    exact h
  | snoc _ hs ih =>
    rw [← append_assoc]
    exact .snoc ih hs

theorem of_snoc (h : Run step s₀ (tr ++ [(s, l)]) s') : Run step s₀ tr s ∧ step s l s' := by
  generalize htr : tr ++ [(s, l)] = tr' at h
  cases h with
  | start => simp at htr
  | snoc hr hs =>
    obtain ⟨rfl, he⟩ := append_inj' htr rfl
    cases he
    exact ⟨hr, hs⟩

theorem of_nil (h : Run step s₀ [] s) : s = s₀ := by
  generalize htr : [] = tr at h
  cases h with
  | start => rfl
  | snoc => simp at htr

/-- A run is cut where the first part of its trace ends. -/
theorem of_append (h : Run step s₀ (tr ++ tr') s') : ∃ s, Run step s₀ tr s ∧ Run step s tr' s' := by
  induction tr' using reverseRecOn generalizing s' with
  | nil => exact ⟨s', by simpa using h, .start⟩
  | append_singleton tr' e ih =>
    rw [← append_assoc] at h
    obtain ⟨hr, hs⟩ := h.of_snoc
    obtain ⟨s, hr, hr'⟩ := ih hr
    exact ⟨s, hr, .snoc hr' hs⟩

theorem split (h : Run step s₀ (tr ++ (s, l) :: tr') s') :
    Run step s₀ tr s ∧ ∃ s₁, step s l s₁ ∧ Run step s₁ tr' s' := by
  rw [append_cons] at h
  obtain ⟨s₁, hr, hr'⟩ := h.of_append
  obtain ⟨hr, hs⟩ := hr.of_snoc
  exact ⟨hr, s₁, hs, hr'⟩

theorem of_cons (h : Run step s₀ ((s, l) :: tr) s') : s = s₀ ∧ ∃ s₁, step s l s₁ ∧ Run step s₁ tr s' := by
  have h : Run step s₀ ([] ++ (s, l) :: tr) s' := h
  obtain ⟨hr, hs⟩ := h.split
  exact ⟨hr.of_nil, hs⟩

end Run

section Exec
variable (next : σ → ℓ → Option σ)

def Steps (s : σ) (l : ℓ) (s' : σ) : Prop := next s l = some s'

/-- The state after a step; a step that is not possible leaves it as it is. -/
def after (s : σ) (l : ℓ) : σ := (next s l).getD s

/-- All the steps are possible, one after the other. -/
def possible (s : σ) : List ℓ → Bool
  | [] => true
  | l :: ls => (next s l).isSome && possible (after next s l) ls

def trace (s : σ) : List ℓ → List (σ × ℓ)
  | [] => []
  | l :: ls => (s, l) :: trace (after next s l) ls

variable {next} {s : σ} {l : ℓ} {ls : List ℓ}

theorem steps_after (h : (next s l).isSome) : Steps next s l (after next s l) := by
  obtain ⟨s', hs'⟩ := Option.isSome_iff_exists.mp h
  rw [Steps, after, hs']
  rfl

theorem Run.cons (h : step s₀ l s₁) (hr : Run step s₁ tr s) : Run step s₀ ((s₀, l) :: tr) s := by
  induction hr with
  | start => exact .snoc Run.start h
  | snoc _ hs ih => exact .snoc ih hs

theorem run_trace (h : possible next s ls = true) :
    Run (Steps next) s (trace next s ls) (ls.foldl (after next) s) := by
  induction ls generalizing s with
  | nil => exact .start
  | cons l ls ih =>
    rw [possible, Bool.and_eq_true] at h
    exact .cons (steps_after h.1) (ih h.2)

theorem meets_trace (h : ∀ l ∈ ls, ∀ s, C s l) : Meets C (trace next s ls) := by
  induction ls generalizing s with
  | nil => exact meets_nil C
  | cons l ls ih =>
    intro e he
    rcases mem_cons.mp he with rfl | he
    · exact h l mem_cons_self s
    · exact ih (fun l hl => h l (mem_cons_of_mem _ hl)) e he

end Exec
end Xv6
