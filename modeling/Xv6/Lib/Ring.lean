import Mathlib.Data.List.Nodup
import Mathlib.Logic.Function.Basic
import Mathlib.Tactic.Common

/-! # Doubly linked rings

A ring runs through a head that holds no element. A node is an element, or `none` for the
head. The operations are the assignments by which elements are taken out and put behind the
head; what they do is said in terms of the list of the elements in the order of the ring.
-/
namespace Xv6
open Function List

structure Links (α : Type) where
  next : Option α → Option α
  prev : Option α → Option α

namespace Links
variable {α : Type}

section Operations
variable [DecidableEq α] (L : Links α) (b : α)

def setNext (x y : Option α) : Links α := { L with next := update L.next x y }

def setPrev (x y : Option α) : Links α := { L with prev := update L.prev x y }

/-- Take `b` out: `b->next->prev = b->prev`, then `b->prev->next = b->next`. -/
def unlink : Links α :=
  let L := L.setPrev (L.next (some b)) (L.prev (some b))
  L.setNext (L.prev (some b)) (L.next (some b))

/-- Put `b` behind the head. -/
def pushFront : Links α :=
  let L := L.setNext (some b) (L.next none)
  let L := L.setPrev (some b) none
  let L := L.setPrev (L.next none) (some b)
  L.setNext none (some b)

end Operations

/-- Follow the pointers of `f` from a node up to an element with `P`, or to the head. -/
def scan (f : Option α → Option α) (P : α → Bool) : (turns : ℕ) → Option α → Option α
  | 0, _ => none
  | _ + 1, none => none
  | turns + 1, some a => if P a then some a else scan f P turns (f (some a))

theorem scan_some {f : Option α → Option α} {P : α → Bool} (h : scan f P turns x = some a) : P a = true := by
  induction turns generalizing x with
  | zero => cases h
  | succ turns ih =>
    cases x with
    | none => cases h
    | some =>
      rw [scan] at h
      split at h
      case isTrue hb =>
        cases h
        exact hb
      case isFalse => exact ih h

/-- From the head `f` leads through the elements of `l` in this order, and back to the head. -/
structure Follows (f : Option α → Option α) (l : List α) : Prop where
  first : f none = l.head?
  next : ∀ l₁ a l₂, l = l₁ ++ a :: l₂ → f (some a) = l₂.head?

/-- The links form one ring through the head, with the elements of `l` in this order. -/
structure Ring (L : Links α) (l : List α) : Prop where
  nodup : l.Nodup
  next : Follows L.next l
  prev : Follows L.prev l.reverse

section Follows
variable {f g : Option α → Option α} {l l₁ l₂ : List α} {b : α} {P : α → Bool}

theorem Follows.scan (h : Follows f l) (hturns : l.length ≤ turns) : scan f P turns (f none) = l.find? P := by
  have hfrom (l₂ : List α) : ∀ l₁ turns, l = l₁ ++ l₂ → l₂.length ≤ turns → Links.scan f P turns l₂.head? = l₂.find? P := by
    induction l₂ with
    | nil =>
      intro l₁ turns _ _
      cases turns <;> rfl
    | cons a l₂ ih =>
      intro l₁ turns hl hlen
      cases turns with
      | zero => exact absurd hlen (by simp)
      | succ turns =>
        rw [head?_cons, Links.scan, find?_cons]
        cases hP : P a with
        | true => rfl
        | false =>
          rw [if_neg (by simp), h.next l₁ a l₂ hl]
          exact ih (l₁ ++ [a]) turns (by simp [hl]) (Nat.le_of_succ_le_succ hlen)
  rw [h.first]
  exact hfrom l [] turns rfl hturns

theorem ne_getLast {m1 m : List α} {a d : α} (hnodup : (m1 ++ a :: d :: m).Nodup) : some a ≠ (m1 ++ a :: d :: m).getLast? := by
  rw [getLast?_append_cons, getLast?_cons_cons]
  intro hlast
  exact (nodup_cons.mp (nodup_append.mp hnodup).2.1).1 (mem_of_getLast? hlast.symm)

variable [DecidableEq α]

theorem Follows.skip (h : Follows f (l₁ ++ b :: l₂)) (hnodup : (l₁ ++ l₂).Nodup)
    (hg : ∀ x, g x = if x = l₁.getLast? then l₂.head? else f x) : Follows g (l₁ ++ l₂) := by
  have hdisj := (nodup_append.mp hnodup).2.2
  refine ⟨?_, fun m1 a m2 hm => ?_⟩
  · rw [hg, h.first]
    cases l₁ with
    | nil => rfl
    | cons => rw [getLast?_cons, if_neg (by simp), cons_append, cons_append, head?_cons, head?_cons]
  have hbehind (m : List α) (hl : l₂ = m ++ a :: m2) : g (some a) = m2.head? := by
    have ha : a ∉ l₁ := fun ha => hdisj a ha a (hl ▸ mem_append_right m mem_cons_self) rfl
    rw [hg, if_neg fun hlast => ha (mem_of_getLast? hlast.symm)]
    exact h.next (l₁ ++ b :: m) a m2 (by simp [hl])
  rcases append_eq_append_iff.mp hm with ⟨m, -, hl⟩ | ⟨m, hl1, hl⟩
  · exact hbehind m hl
  cases m with
  | nil => exact hbehind [] hl.symm
  | cons c m =>
    obtain ⟨rfl, rfl⟩ := cons.inj hl
    subst hl1
    rw [hg]
    cases m with
    | nil =>
      rw [getLast?_append_cons, getLast?_singleton, if_pos rfl]
      rfl
    | cons d m =>
      rw [if_neg (ne_getLast (nodup_append.mp hnodup).1), h.next m1 a (d :: m ++ b :: l₂) (by simp)]
      rfl

theorem Follows.insert (h : Follows f (l₁ ++ l₂)) (hnodup : (l₁ ++ l₂).Nodup) (hb : b ∉ l₁ ++ l₂)
    (hg : ∀ x, g x = if x = l₁.getLast? then some b else if x = some b then l₂.head? else f x) : Follows g (l₁ ++ b :: l₂) := by
  have hdisj := (nodup_append.mp hnodup).2.2
  have hne {a : α} (ha : a ∈ l₁ ++ l₂) : some a ≠ some b := fun hab => hb (Option.some.inj hab ▸ ha)
  refine ⟨?_, fun m1 a m2 hm => ?_⟩
  · rw [hg, h.first]
    cases l₁ with
    | nil => rfl
    | cons => rw [getLast?_cons, if_neg (by simp), if_neg (by simp), cons_append, cons_append,
        head?_cons, head?_cons]
  have hself : g (some b) = l₂.head? := by
    rw [hg, if_neg fun hlast => hb (mem_append_left l₂ (mem_of_getLast? hlast.symm)), if_pos rfl]
  rcases append_eq_append_iff.mp hm with ⟨m, -, hl⟩ | ⟨m, hl1, hl⟩
  · cases m with
    | nil =>
      obtain ⟨rfl, rfl⟩ := cons.inj hl
      exact hself
    | cons c m =>
      obtain ⟨-, hl⟩ := cons.inj hl
      have hmem : a ∈ l₂ := hl ▸ mem_append_right m mem_cons_self
      have ha : a ∉ l₁ := fun ha => hdisj a ha a hmem rfl
      rw [hg, if_neg fun hlast => ha (mem_of_getLast? hlast.symm), if_neg (hne (mem_append_right l₁ hmem))]
      exact h.next (l₁ ++ m) a m2 (by simp [hl])
  · cases m with
    | nil =>
      obtain ⟨rfl, rfl⟩ := cons.inj hl
      exact hself
    | cons c m =>
      obtain ⟨rfl, rfl⟩ := cons.inj hl
      subst hl1
      rw [hg]
      cases m with
      | nil =>
        rw [getLast?_append_cons, getLast?_singleton, if_pos rfl]
        rfl
      | cons d m =>
        rw [if_neg (ne_getLast (nodup_append.mp hnodup).1), if_neg (hne (by simp)), h.next m1 a (d :: m ++ l₂) (by simp)]
        rfl

end Follows

namespace Ring
variable {L : Links α} {l l₁ l₂ : List α} {b : α} {P : α → Bool}

theorem nil (hnext : L.next none = none) (hprev : L.prev none = none) : Ring L [] :=
  ⟨nodup_nil, ⟨hnext, fun _ _ _ h => by simp at h⟩, ⟨hprev, fun _ _ _ h => by simp at h⟩⟩

theorem scan_prev (h : Ring L l) (hturns : l.length ≤ turns) :
    scan L.prev P turns (L.prev none) = l.reverse.find? P := h.prev.scan (by rwa [length_reverse])

variable [DecidableEq α]

theorem pushFront (h : Ring L l) (hb : b ∉ l) : Ring (L.pushFront b) (b :: l) := by
  have hprev := h.prev
  rw [← append_nil l.reverse] at hprev
  have hnext : Follows L.next ([] ++ l) := h.next
  refine ⟨nodup_cons.mpr ⟨hb, h.nodup⟩, hnext.insert h.nodup hb fun x => ?_, ?_⟩
  · simp only [Links.pushFront, setNext, setPrev, update_apply, h.next.first, getLast?_nil]
    congr
  · rw [reverse_cons]
    refine hprev.insert (by simpa using h.nodup) (by simpa using hb) fun x => ?_
    simp only [Links.pushFront, setNext, setPrev, update_apply, h.next.first, if_neg (Option.some_ne_none b).symm,
      getLast?_reverse, head?_nil]

theorem foldl_pushFront (h : Ring L l) {as : List α} (has : (as.reverse ++ l).Nodup) :
    Ring (as.foldl Links.pushFront L) (as.reverse ++ l) := by
  induction as generalizing L l with
  | nil => exact h
  | cons a as ih =>
    rw [reverse_cons, append_assoc, singleton_append] at has ⊢
    have ha : a ∉ l := fun ha => (nodup_cons.mp (nodup_append.mp has).2.1).1 ha
    exact ih (h.pushFront ha) has

theorem unlink (h : Ring L (l₁ ++ b :: l₂)) : Ring (L.unlink b) (l₁ ++ l₂) := by
  obtain ⟨hb, hnodup⟩ := nodup_cons.mp (nodup_middle.mp h.nodup)
  have hprev := h.prev
  rw [reverse_append, reverse_cons, append_assoc, singleton_append] at hprev
  have hb2 : some b ≠ l₂.head? := fun hhead => hb (mem_append_right l₁ (mem_of_head? hhead.symm))
  have hnext_b : L.next (some b) = l₂.head? := h.next.next l₁ b l₂ rfl
  have hprev_b : L.prev (some b) = l₁.getLast? := (hprev.next l₂.reverse b l₁.reverse rfl).trans (head?_reverse ..)
  refine ⟨hnodup, h.next.skip hnodup fun x => ?_, ?_⟩
  · simp only [Links.unlink, setNext, setPrev, update_apply, hnext_b, hprev_b, if_neg hb2]
  · rw [reverse_append]
    refine hprev.skip ?_ fun x => ?_
    · rw [← reverse_append]
      exact nodup_reverse.mpr hnodup
    · simp only [Links.unlink, setNext, setPrev, update_apply, hnext_b, hprev_b, getLast?_reverse, head?_reverse]

theorem moveFront (h : Ring L (l₁ ++ b :: l₂)) : Ring ((L.unlink b).pushFront b) (b :: (l₁ ++ l₂)) :=
  h.unlink.pushFront (nodup_cons.mp (nodup_middle.mp h.nodup)).1

end Ring
end Links
end Xv6
