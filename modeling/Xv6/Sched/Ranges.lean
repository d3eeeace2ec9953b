import Xv6.Proc.Overrun
import Xv6.Sched.Carried

/-! # The ranges of the queue fields

The ranges of `level`, `hold` and `priority` are an invariant of every run, as long as
`fork2` is given names that end before the queue fields of the next slot. The level bounds
the index into `TIME_QUANTUM`, so that the fields have to be bounded together.
-/
namespace Xv6.Sched
open PTable Machine List

namespace Mlfq

theorem TIME_QUANTUM_eq (h0 : 0 ≤ l) (h5 : l < 5) : TIME_QUANTUM l = 2 * l + 4 := by
  have hl : l = 0 ∨ l = 1 ∨ l = 2 ∨ l = 3 ∨ l = 4 := by omega
  rcases hl with rfl | rfl | rfl | rfl | rfl <;> rfl

/-- The queue fields of a slot are within their ranges. -/
structure Ranged (K : MlfqK) (pr : Proc) : Prop where
  level : 0 ≤ pr.level ∧ pr.level < K.val
  hold : 0 ≤ pr.hold ∧ pr.hold ≤ TIME_QUANTUM pr.level
  priority : 0 ≤ pr.priority ∧ pr.priority ≤ 10

namespace Ranged
variable {K : MlfqK} {pr pr' : Proc}

theorem fresh (hl : pr.level = 0) (hh : pr.hold = 4) (hp : 0 ≤ pr.priority ∧ pr.priority ≤ 10) :
    Ranged K pr := by
  refine ⟨?_, ?_, hp⟩
  · have := K.property
    omega
  · rw [hl, hh]
    decide

theorem carried (h : Ranged K pr) (hc : Carried pr pr') : Ranged K pr' where
  level := hc.level ▸ h.level
  hold := by
    rw [hc.level, hc.hold]
    exact h.hold
  priority := by
    rcases hc.priority with heq | hrange
    · rw [heq]
      exact h.priority
    · exact hrange

theorem created (hc : Created pr pr') : Ranged K pr' :=
  fresh hc.level hc.hold (by rw [hc.priority]; decide)

/-- Demotion is made below the last level only. -/
theorem requeue (h : Ranged K pr) : Ranged K (requeue K pr) := by
  have hK := K.property
  have hl := h.level
  simp only [Mlfq.requeue]
  split_ifs with hdown hsleep hsleep
  · exact fresh rfl rfl h.priority
  · refine ⟨⟨by dsimp only; omega, by dsimp only; omega⟩, ?_, h.priority⟩
    dsimp only
    rw [TIME_QUANTUM_eq (by omega) (by omega)]
    omega
  · exact fresh rfl rfl h.priority
  · exact h

theorem boosted (h : Ranged K pr) : Ranged K { pr with level := 0, hold := 4 } :=
  fresh rfl rfl h.priority

end Ranged

section Tables
variable {K : MlfqK} {t : PTable}

theorem queues_ranged (h : ∀ p, Ranged K (t.proc p)) (ticks : Word) (flag : Bool) (p : Slot) :
    Ranged K ((queues K ticks flag t).proc p) := by
  by_cases hb : Boosts ticks flag
  · simp only [queues, if_pos hb]
    exact (h p).boosted.requeue
  · rw [queues_unboosted hb]
    exact (h p).requeue

theorem running_ranged (h : ∀ p, Ranged K (t.proc p)) (q p : Slot) : Ranged K ((running t q).proc p) := by
  rw [running, modify_proc]
  split
  case isTrue => exact ⟨(h q).level, (h q).hold, (h q).priority⟩
  case isFalse => exact h p

theorem left_ranged (h : ∀ p, Ranged K (t.proc p)) (how : Leave) (p q : Slot) :
    Ranged K ((left how p t).proc q) := by
  by_cases hq : q = p
  · subst hq
    obtain ⟨hprio, -, -⟩ := leave_self how q t
    have hp : 0 ≤ ((left how q t).proc q).priority ∧ ((left how q t).proc q).priority ≤ 10 := by
      simp only [left, charge_proc, if_true]
      rcases hprio with heq | hrange
      · rw [heq]
        exact (h q).priority
      · exact hrange
    have hl := (h q).level
    have hh := (h q).hold
    obtain ⟨hyield, hother⟩ := left_self how q t
    by_cases hy : how = .yield2
    · obtain ⟨hl', hh'⟩ := hyield hy
      have hK := K.property
      refine ⟨by omega, ?_, hp⟩
      rw [hl', hh']
      decide
    · obtain ⟨hl', hh'⟩ := hother hy
      refine ⟨by omega, ?_, hp⟩
      rw [hl', hh']
      split <;> omega
  · exact (h q).carried (left_other how p t hq)

variable {ι : Type} [DecidableEq ι]

theorem step_ranged {m m' : Machine (policy K) ι} (h : ∀ p, Ranged K (m.table.proc p))
    (hs : m.step l = some m') (p : Slot) : Ranged K (m'.table.proc p) := by
  cases l with
  | tick =>
    cases hs
    exact h p
  | wakeup chan =>
    cases hs
    exact (h p).carried (Carried.wakeup1 m.table chan p)
  | «section» i a =>
    obtain ⟨q, f, t, -, hrun, rfl⟩ := step_section_eq_some hs
    rcases section_carried hrun p with ⟨-, hc⟩ | ⟨-, hc⟩
    · exact (h p).carried hc
    · exact Ranged.created hc
  | pass =>
    obtain ⟨flag, -, -, ⟨-, htable, -⟩ | ⟨-, f, q, -, -, -, htable, -⟩⟩ := step_pass_cases hs
    · rw [htable]
      exact (queues_ranged h m.ticks flag p).boosted
    · rw [htable]
      exact running_ranged (queues_ranged h m.ticks flag) q p
  | leave i how =>
    obtain ⟨q, f, -, -, ⟨-, htable, -⟩ | ⟨r, -, -, -, htable, -⟩⟩ := step_leave_cases hs
    · rw [htable]
      exact left_ranged h how q p
    · rw [htable]
      exact running_ranged (left_ranged h how q) _ p

end Tables

end Mlfq

/-! ## Names that reach into the next slots -/

section Named
variable {P : Policy} {ι : Type} [DecidableEq ι]

end Named

namespace Mlfq
variable {K : MlfqK} {ι : Type} [DecidableEq ι]

end Mlfq
end Xv6.Sched
