import Mathlib.Data.Fin.Basic
import Mathlib.Data.List.Range
import Mathlib.Data.Nat.ModEq
import Mathlib.Tactic.Common

/-! # Circular buffers

The cells of a buffer of `N` cells that a run of consecutive positions falls on, where
positions are counted on and reduced modulo `N`.
-/
namespace Xv6
open List

variable {α : Type} {N : ℕ} [NeZero N] {buf : Fin N → α} {a b n : ℕ}

/-- The `n` cells from position `a` on. -/
def window (buf : Fin N → α) (a n : ℕ) : List α := (List.range n).map fun i => buf (Fin.ofNat N (a + i))

theorem ofNat_eq_of_mod_eq (h : a % N = b % N) : Fin.ofNat N a = Fin.ofNat N b := Fin.ext h

theorem window_mod (h : a % N = b % N) : window buf a n = window buf b n := by
  refine map_congr_left fun i _ => congrArg buf (ofNat_eq_of_mod_eq ?_)
  rw [Nat.add_mod, h, ← Nat.add_mod]

theorem window_succ : window buf a (n + 1) = window buf a n ++ [buf (Fin.ofNat N (a + n))] := by
  rw [window, range_succ, map_append]
  rfl

theorem window_cons : window buf a (n + 1) = buf (Fin.ofNat N a) :: window buf (a + 1) n := by
  rw [window, range_succ_eq_map, map_cons, map_map]
  refine congrArg (_ :: ·) (map_congr_left fun i _ => ?_)
  rw [Function.comp_apply, Nat.succ_eq_add_one, Nat.add_comm i, Nat.add_assoc]

theorem window_add : window buf a (m + n) = window buf a m ++ window buf (a + m) n := by
  induction n with
  | zero => exact (append_nil _).symm
  | succ n ih => rw [← Nat.add_assoc, window_succ, window_succ, ih, append_assoc, Nat.add_assoc]

/-- A write to a later cell, less than one round ahead. -/
theorem window_update (hn : n ≤ j) (hj : j < N) :
    window (Function.update buf (Fin.ofNat N (a + j)) x) a n = window buf a n := by
  refine map_congr_left fun i hi => Function.update_of_ne (fun heq => ?_) ..
  have hi := mem_range.mp hi
  have hmod : (a + i) % N = (a + j) % N := congrArg Fin.val heq
  have hsame : i ≡ j [MOD N] := Nat.ModEq.add_left_cancel' a hmod
  have heq := hsame.eq_of_lt_of_lt (by omega) hj
  omega

end Xv6
