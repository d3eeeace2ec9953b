import Mathlib.Logic.Function.Basic
import Mathlib.Tactic.Common

/-! # Replaying writes

A log of writes to addresses, applied in order to a store. Only the last write to an
address counts, so that a store changed at written addresses alone replays to the same.
-/
namespace Xv6
open Function

variable {α δ : Type} [DecidableEq α]

def replay (ws : List (α × δ)) (f : α → δ) : α → δ :=
  ws.foldl (fun g w => update g w.1 w.2) f

theorem replay_append (ws vs : List (α × δ)) (f : α → δ) : replay (ws ++ vs) f = replay vs (replay ws f) := by
  rw [replay, List.foldl_append]
  rfl

theorem replay_snoc (ws : List (α × δ)) (a : α) (v : δ) (f : α → δ) :
    replay (ws ++ [(a, v)]) f = update (replay ws f) a v := by
  rw [replay_append]
  rfl

theorem replay_of_not_mem (h : a ∉ ws.map Prod.fst) (f : α → δ) : replay ws f a = f a := by
  induction ws generalizing f with
  | nil => rfl
  | cons w ws ih =>
    rw [List.map_cons, List.mem_cons, not_or] at h
    change replay ws (update f w.1 w.2) a = f a
    rw [ih h.2, update_of_ne h.1]

end Xv6
