import Xv6.Lib.Comp

/-! # Programs over atomic operations

A program is a tree of operations and their possible answers. Run alone against a
handler it is a computation; several programs on one state interleave at their
operations. A protocol says what an operation may be used for and what its answer may
be relied upon, in terms of a ghost state of the program that uses it.
-/
namespace Xv6

inductive Prog (Op : Type) (Ans : Op → Type) (α : Type) : Type
  | ret (a : α)
  | op (o : Op) (k : Ans o → Prog Op Ans α)

namespace Prog
variable {Op : Type} {Ans : Op → Type} {α β σ : Type}

protected def bind : Prog Op Ans α → (α → Prog Op Ans β) → Prog Op Ans β
  | ret a, f => f a
  | op o k, f => op o fun b => (k b).bind f

instance : Monad (Prog Op Ans) where
  pure := ret
  bind := Prog.bind

def call (o : Op) : Prog Op Ans (Ans o) := op o ret

instance : LawfulMonad (Prog Op Ans) := LawfulMonad.mk' (Prog Op Ans)
  (fun p => by
    induction p with
    | ret a => rfl
    | op o k ih => exact congrArg (op o) (funext ih))
  (fun _ _ => rfl)
  (fun p f h => by
    induction p with
    | ret a => rfl
    | op o k ih => exact congrArg (op o) (funext ih))

def run (sem : (o : Op) → Comp σ (Ans o)) : Prog Op Ans α → Comp σ α
  | ret a => pure a
  | op o k => sem o >>= fun b => (k b).run sem

variable (sem : (o : Op) → Comp σ (Ans o))

@[simp] theorem run_call (o : Op) : (call o).run sem = sem o := by
  change (sem o >>= fun b => pure b) = sem o
  exact bind_pure (sem o)

@[simp] theorem run_bind (p : Prog Op Ans α) (f : α → Prog Op Ans β) :
    (p >>= f).run sem = p.run sem >>= fun a => (f a).run sem := by
  induction p with
  | ret => rfl
  | op o k ih =>
    change (sem o >>= fun b => (k b >>= f).run sem) = _
    simp only [ih]
    exact (bind_assoc (sem o) _ _).symm

variable {p : Prog Op Ans α} {f : α → Prog Op Ans β} {o : Op}

theorem run_bind_eq_ok : (p >>= f).run sem s = .ok (b, u) ↔
      ∃ a t, p.run sem s = .ok (a, t) ∧ (f a).run sem t = .ok (b, u) := by
  rw [run_bind]
  exact Comp.bind_eq_ok

variable {sem} in
theorem of_bind {f : α → Prog Op Ans β} (h : (p >>= f).run sem s = .ok (b, u)) :
    ∃ a t, p.run sem s = .ok (a, t) ∧ (f a).run sem t = .ok (b, u) := (run_bind_eq_ok sem).mp h

variable {sem} in
theorem bind_ok {f : α → Prog Op Ans β} (hp : p.run sem s = .ok (a, t))
    (hf : (f a).run sem t = .ok (b, u)) : (p >>= f).run sem s = .ok (b, u) := (run_bind_eq_ok sem).mpr ⟨a, t, hp, hf⟩

variable {sem} in
theorem of_call (h : (call o).run sem s = .ok (b, t)) : sem o s = .ok (b, t) :=
  (congrFun (run_call sem o) s).symm.trans h

/-- Every operation of the program is in the class `C`. -/
def Uses (C : Op → Prop) : Prog Op Ans α → Prop
  | ret _ => True
  | op o k => C o ∧ ∀ b, (k b).Uses C

section Uses
variable {C D : Op → Prop} {p : Prog Op Ans α} {f : α → Prog Op Ans β}

theorem uses_pure (a : α) : (pure a : Prog Op Ans α).Uses C := trivial

theorem uses_call (h : C o) : (call o : Prog Op Ans _).Uses C := ⟨h, fun _ => trivial⟩

theorem Uses.bind (hp : p.Uses C) (hf : ∀ a, (f a).Uses C) : (p >>= f).Uses C := by
  induction p with
  | ret a => exact hf a
  | op o k ih => exact ⟨hp.1, fun b => ih b (hp.2 b)⟩

theorem Uses.mono (hp : p.Uses C) (h : ∀ o, C o → D o) : p.Uses D := by
  induction p with
  | ret => trivial
  | op o k ih => exact ⟨h o hp.1, fun b => ih b (hp.2 b)⟩

theorem Uses.ite {c : Prop} [Decidable c] (hp : p.Uses C) (hq : q.Uses C) : (if c then p else q).Uses C := by
  split
  case isTrue => exact hp
  case isFalse => exact hq

theorem uses_bind_call {f : Ans o → Prog Op Ans β} (h : C o) (hf : ∀ b, (f b).Uses C) :
    (call o >>= f).Uses C := ⟨h, hf⟩

theorem Uses.run_rel {sem : (o : Op) → Comp σ (Ans o)} {R : σ → σ → Prop} (hp : p.Uses C)
    (hrefl : ∀ s, R s s) (htrans : ∀ s t u, R s t → R t u → R s u)
    (hC : ∀ o, C o → ∀ s b t, sem o s = .ok (b, t) → R s t) (hr : p.run sem s = .ok (a, s')) : R s s' := by
  induction p generalizing s with
  | ret =>
    cases hr
    exact hrefl _
  | op o k ih =>
    obtain ⟨b, t, ho, hk⟩ := Comp.bind_eq_ok.mp hr
    exact htrans s t s' (hC o hp.1 s b t ho) (ih b (hp.2 b) hk)

end Uses

/-- A way from the start of a program to its end: the operations with their answers. -/
inductive Path : Prog Op Ans α → List (Σ o, Ans o) → α → Prop
  | ret (a : α) : Path (ret a) [] a
  | op {o : Op} {k : Ans o → Prog Op Ans α} {tr : List (Σ o, Ans o)} {a : α} (b : Ans o) :
      Path (k b) tr a → Path (op o k) (⟨o, b⟩ :: tr) a

theorem path_bind_call {f : Ans o → Prog Op Ans β} {tr : List (Σ o, Ans o)}
    (h : (f b).Path tr a) : (call o >>= f).Path (⟨o, b⟩ :: tr) a := .op b h

/-- Run from a state, the program comes to an operation in another state. -/
inductive Reach (sem : (o : Op) → Comp σ (Ans o)) : Prog Op Ans α → σ → Op → σ → Prop
  | here {o : Op} {k : Ans o → Prog Op Ans α} {s : σ} : Reach sem (op o k) s o s
  | next {o o' : Op} {k : Ans o → Prog Op Ans α} {b : Ans o} {s t u : σ} :
      sem o s = .ok (b, t) → Reach sem (k b) t o' u → Reach sem (op o k) s o' u

end Prog

/-- A discipline for the use of operations. In ghost state `g` the operation `o` is
allowed if `allow g o`, its answer `b` is known to satisfy `answer g o b`, and the
program goes on in ghost state `next g o b`. -/
structure Protocol (Op : Type) (Ans : Op → Type) where
  Ghost : Type
  allow : Ghost → Op → Prop
  answer : Ghost → (o : Op) → Ans o → Prop
  next : Ghost → (o : Op) → Ans o → Ghost

def Protocol.after {Op : Type} {Ans : Op → Type} (P : Protocol Op Ans) (g : P.Ghost)
    (tr : List (Σ o, Ans o)) : P.Ghost := tr.foldl (fun g e => P.next g e.1 e.2) g

namespace Prog
variable {Op : Type} {Ans : Op → Type} {α β σ : Type} {P : Protocol Op Ans}

/-- The program keeps to the protocol, and `Q` holds of its result where it returns. -/
def Obeys (P : Protocol Op Ans) : Prog Op Ans α → P.Ghost → (α → P.Ghost → Prop) → Prop
  | ret a, g, Q => Q a g
  | op o k, g, Q => P.allow g o ∧ ∀ b, P.answer g o b → (k b).Obeys P (P.next g o b) Q

section Obeys
variable {p : Prog Op Ans α} {f : α → Prog Op Ans β} {g : P.Ghost} {Q R : α → P.Ghost → Prop} {a : α} {o : Op}
  {C : Op → Prop} {I : σ → P.Ghost → Prop}

theorem obeys_pure (h : Q a g) : (pure a : Prog Op Ans α).Obeys P g Q := h

theorem obeys_call {Q : Ans o → P.Ghost → Prop} (h : P.allow g o)
    (hQ : ∀ b, P.answer g o b → Q b (P.next g o b)) : (call o).Obeys P g Q := ⟨h, hQ⟩

theorem Obeys.mono (h : p.Obeys P g Q) (hQ : ∀ a g, Q a g → R a g) : p.Obeys P g R := by
  induction p generalizing g with
  | ret a => exact hQ a g h
  | op o k ih => exact ⟨h.1, fun b hb => ih b (h.2 b hb)⟩

theorem Obeys.bind {Q : β → P.Ghost → Prop} (h : p.Obeys P g fun a g => (f a).Obeys P g Q) :
    (p >>= f).Obeys P g Q := by
  induction p generalizing g with
  | ret => exact h
  | op o k ih => exact ⟨h.1, fun b hb => ih b (h.2 b hb)⟩

theorem obeys_bind_call {f : Ans o → Prog Op Ans β} {Q : β → P.Ghost → Prop} (h : P.allow g o)
    (hf : ∀ b, P.answer g o b → (f b).Obeys P (P.next g o b) Q) : (call o >>= f).Obeys P g Q := ⟨h, hf⟩

theorem Obeys.seq {Q : β → P.Ghost → Prop} (h : p.Obeys P g R)
    (hf : ∀ a g, R a g → (f a).Obeys P g Q) : (p >>= f).Obeys P g Q := (h.mono hf).bind

theorem Obeys.ite {c : Prop} [Decidable c] (hp : c → p.Obeys P g Q)
    (hq : ¬ c → q.Obeys P g Q) : (if c then p else q).Obeys P g Q := by
  split
  case isTrue h => exact hp h
  case isFalse h => exact hq h

theorem Uses.obeys (hp : p.Uses C) (hC : ∀ o, C o → P.allow g o ∧ ∀ b, P.next g o b = g) :
    p.Obeys P g fun _ g' => g' = g := by
  induction p with
  | ret => rfl
  | op o k ih =>
    obtain ⟨hallow, hnext⟩ := hC o hp.1
    refine ⟨hallow, fun b _ => ?_⟩
    rw [hnext b]
    exact ih b (hp.2 b)

/-- A program that keeps to a protocol keeps to any other one that takes up its rules for
the operations in use; `φ` places the ghost state of the first in that of the second. -/
theorem Obeys.lift (P' : Protocol Op Ans) (φ : P.Ghost → P'.Ghost)
    (hφ : ∀ g o, C o → P.allow g o → P'.allow (φ g) o ∧
      ∀ b, P'.answer (φ g) o b → P.answer g o b ∧ P'.next (φ g) o b = φ (P.next g o b))
    (hp : p.Uses C) (h : p.Obeys P g Q) : p.Obeys P' (φ g) fun a g' => ∃ g1, Q a g1 ∧ g' = φ g1 := by
  induction p generalizing g with
  | ret => exact ⟨g, h, rfl⟩
  | op o k ih =>
    obtain ⟨hallow, hnext⟩ := hφ g o hp.1 h.1
    refine ⟨hallow, fun b hb => ?_⟩
    obtain ⟨hans, hstep⟩ := hnext b hb
    rw [hstep]
    exact ih b (hp.2 b) (h.2 b hans)

/-- Every path of a program that keeps to a protocol and gets the answers that it relies on. -/
theorem Obeys.path (h : p.Obeys P g Q) {tr : List (Σ o, Ans o)} (hp : p.Path tr a)
    (hans : ∀ e ∈ tr, ∀ g, P.answer g e.1 e.2) : Q a (P.after g tr) := by
  induction hp generalizing g with
  | ret => exact h
  | op b _ ih => exact ih (h.2 b (hans _ List.mem_cons_self g)) fun e he => hans e (List.mem_cons_of_mem _ he)

/-- Where a program that keeps to such a protocol comes to an operation, it is allowed. -/
theorem Obeys.reach {sem : (o : Op) → Comp σ (Ans o)}
    (hsem : ∀ s g o b s', I s g → P.allow g o → sem o s = .ok (b, s') → P.answer g o b ∧ I s' (P.next g o b))
    (h : p.Obeys P g Q) (hI : I s g) (hr : p.Reach sem s o t) : ∃ g', I t g' ∧ P.allow g' o := by
  induction hr generalizing g with
  | here => exact ⟨g, hI, h.1⟩
  | next ho _ ih =>
    obtain ⟨hans, hI'⟩ := hsem _ g _ _ _ hI h.1 ho
    exact ih (h.2 _ hans) hI'

theorem Obeys.run {sem : (o : Op) → Comp σ (Ans o)}
    (hsem : ∀ s g o b s', I s g → P.allow g o → sem o s = .ok (b, s') → P.answer g o b ∧ I s' (P.next g o b))
    (h : p.Obeys P g Q) (hI : I s g) (hr : p.run sem s = .ok (a, s')) : ∃ g', Q a g' ∧ I s' g' := by
  induction p generalizing g s with
  | ret =>
    cases hr
    exact ⟨g, h, hI⟩
  | op o k ih =>
    obtain ⟨b, t, ho, hk⟩ := Comp.bind_eq_ok.mp hr
    obtain ⟨hans, hI'⟩ := hsem s g o b t hI h.1 ho
    exact ih b (h.2 b hans) hI' hk

end Obeys
end Prog
end Xv6
