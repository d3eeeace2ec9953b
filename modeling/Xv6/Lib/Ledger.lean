import Mathlib.Data.Set.Insert

/-! # Ledgers

Blocks that are handed out by an allocator: a block in use is reserved, or loose, in the
hands of whoever has just taken it, or held in exactly one place.
-/
namespace Xv6
open Function

variable {X B : Type}

structure Ledger (own : X → Option B) (loose reserved used : Set B) : Prop where
  used_iff : ∀ b, b ∈ used ↔ b ∈ reserved ∨ b ∈ loose ∨ ∃ x, own x = some b
  single : ∀ x y b, own x = some b → own y = some b → x = y
  held : ∀ x b, own x = some b → b ∉ reserved ∧ b ∉ loose
  apart : ∀ b ∈ loose, b ∉ reserved

namespace Ledger
variable {own : X → Option B} {loose reserved used : Set B} {x : X} {b : B}

section
variable (h : Ledger own loose reserved used)
include h

theorem used_of_own (hx : own x = some b) : b ∈ used :=
  (h.used_iff b).mpr (.inr (.inr ⟨x, hx⟩))

theorem used_of_loose (hb : b ∈ loose) : b ∈ used :=
  (h.used_iff b).mpr (.inr (.inl hb))

theorem ne_of_loose (hb : b ∈ loose) (x : X) : own x ≠ some b :=
  fun hx => (h.held x b hx).2 hb

theorem used_eq (hu : ∀ b, b ∈ used' ↔ b ∈ used) : Ledger own loose reserved used' :=
  { h with used_iff := fun b => (hu b).trans (h.used_iff b) }

theorem take (hb : b ∉ used) : Ledger own (insert b loose) reserved (insert b used) := by
  have hfree := (h.used_iff b).not.mp hb
  push Not at hfree
  obtain ⟨hres, hloose, hown⟩ := hfree
  refine ⟨fun c => ?_, h.single, fun x c hc => ⟨(h.held x c hc).1, ?_⟩, fun c hc => ?_⟩
  · rw [Set.mem_insert_iff, Set.mem_insert_iff, h.used_iff]
    rw [or_left_comm, or_assoc]
  · rintro (rfl | hc')
    · exact hown x hc
    · exact (h.held x c hc).2 hc'
  · rcases hc with rfl | hc
    · exact hres
    · exact h.apart c hc

theorem drop (hb : b ∈ loose) : Ledger own (loose \ {b}) reserved (used \ {b}) := by
  refine ⟨fun c => ?_, h.single, fun x c hc => ⟨(h.held x c hc).1, fun hc' => (h.held x c hc).2 hc'.1⟩,
    fun c hc => h.apart c hc.1⟩
  rw [Set.mem_sdiff, Set.mem_sdiff, h.used_iff, Set.mem_singleton_iff]
  constructor
  · rintro ⟨hc, hne⟩
    exact hc.imp_right fun hc => hc.imp_left fun hc => ⟨hc, hne⟩
  · rintro (hc | ⟨hc, hne⟩ | ⟨x, hx⟩)
    · refine ⟨.inl hc, ?_⟩
      rintro rfl
      exact h.apart c hb hc
    · exact ⟨.inr (.inl hc), hne⟩
    · refine ⟨.inr (.inr ⟨x, hx⟩), ?_⟩
      rintro rfl
      exact h.ne_of_loose hb x hx

end

section Places
variable [DecidableEq X]

theorem attach (h : Ledger own loose reserved used) (hb : b ∈ loose) (hx : own x = none) :
    Ledger (update own x (some b)) (loose \ {b}) reserved used := by
  have hold {y : X} {c : B} (hy : y ≠ x) : update own x (some b) y = some c ↔ own y = some c := by
    rw [update_of_ne hy]
  have hnew {c : B} : update own x (some b) x = some c ↔ c = b := by
    rw [update_self, Option.some.injEq, eq_comm]
  have hother := h.ne_of_loose hb
  refine ⟨fun c => ?_, fun y z c hy hz => ?_, fun y c hy => ?_, fun c hc => h.apart c hc.1⟩
  · rw [h.used_iff, Set.mem_sdiff, Set.mem_singleton_iff]
    constructor
    · rintro (hc | hc | ⟨y, hy⟩)
      · exact .inl hc
      · by_cases hcb : c = b
        · exact .inr (.inr ⟨x, hnew.mpr hcb⟩)
        · exact .inr (.inl ⟨hc, hcb⟩)
      · have hyx : y ≠ x := by
          rintro rfl
          rw [hx] at hy
          cases hy
        exact .inr (.inr ⟨y, (hold hyx).mpr hy⟩)
    · rintro (hc | ⟨hc, -⟩ | ⟨y, hy⟩)
      · exact .inl hc
      · exact .inr (.inl hc)
      · by_cases hyx : y = x
        · subst hyx
          rw [hnew.mp hy]
          exact .inr (.inl hb)
        · exact .inr (.inr ⟨y, (hold hyx).mp hy⟩)
  · by_cases hyx : y = x <;> by_cases hzx : z = x
    · rw [hyx, hzx]
    · subst hyx
      rw [hnew.mp hy, hold hzx] at hz
      exact (hother z hz).elim
    · subst hzx
      rw [hnew.mp hz, hold hyx] at hy
      exact (hother y hy).elim
    · exact h.single y z c ((hold hyx).mp hy) ((hold hzx).mp hz)
  · by_cases hyx : y = x
    · subst hyx
      rw [hnew.mp hy]
      exact ⟨h.apart b hb, fun hc => hc.2 rfl⟩
    · obtain ⟨hres, hloose⟩ := h.held y c ((hold hyx).mp hy)
      exact ⟨hres, fun hc => hloose hc.1⟩

theorem release (h : Ledger own loose reserved used) (hx : own x = some b) :
    Ledger (update own x none) loose reserved (used \ {b}) := by
  have hne {y : X} {c : B} : update own x none y = some c ↔ y ≠ x ∧ own y = some c := by
    by_cases hy : y = x
    · simp [hy]
    · simp [hy]
  refine ⟨fun c => ?_, fun y z c hy hz => h.single y z c (hne.mp hy).2 (hne.mp hz).2,
    fun y c hy => h.held y c (hne.mp hy).2, h.apart⟩
  obtain ⟨hres, hloose⟩ := h.held x b hx
  rw [Set.mem_sdiff, h.used_iff, Set.mem_singleton_iff]
  constructor
  · rintro ⟨hc | hc | ⟨y, hy⟩, hcb⟩
    · exact .inl hc
    · exact .inr (.inl hc)
    · refine .inr (.inr ⟨y, hne.mpr ⟨?_, hy⟩⟩)
      rintro rfl
      exact hcb (Option.some.inj (hy.symm.trans hx))
  · rintro (hc | hc | ⟨y, hy⟩)
    · exact ⟨.inl hc, fun hcb => hres (hcb ▸ hc)⟩
    · exact ⟨.inr (.inl hc), fun hcb => hloose (hcb ▸ hc)⟩
    · obtain ⟨hyx, hy⟩ := hne.mp hy
      exact ⟨.inr (.inr ⟨y, hy⟩), fun hcb => hyx (h.single y x b (hcb ▸ hy) hx)⟩

end Places
end Ledger
end Xv6
