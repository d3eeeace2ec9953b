import Xv6.Lib.Wp

/-! # Runs amid other parties

Before each operation of a program other parties may act on the state. What the program
has done so far is noted beside the state, and what others may do can depend on it. For a
fixed choice of what they do the run is determined, so that the rules for sequential runs
apply; the results hold for every choice.
-/
namespace Xv6

/-- The state, the notes of the program, and the number of operations that it has done. -/
structure Point (σ γ : Type) where
  state : σ
  notes : γ
  time : ℕ

namespace Prog
variable {Op : Type} {Ans : Op → Type} {α β δ σ γ : Type}

/-- An operation, after the others have acted. -/
def amid (sem : (o : Op) → Comp σ (Ans o)) (note : γ → σ → (o : Op) → Ans o → γ) (act : ℕ → γ → σ → σ) (o : Op) :
    Comp (Point σ γ) (Ans o) := fun s =>
  match sem o (act s.time s.notes s.state) with
  | .ok (b, t) => .ok (b, ⟨t, note s.notes (act s.time s.notes s.state) o b, s.time + 1⟩)
  | .error e => .error e

variable {o : Op} {b : Ans o}

theorem amid_of_ok {sem : (o : Op) → Comp σ (Ans o)} {note : γ → σ → (o : Op) → Ans o → γ} {act : ℕ → γ → σ → σ}
    (h : sem o (act s.time s.notes s.state) = .ok (b, t)) :
    amid sem note act o s = .ok (b, ⟨t, note s.notes (act s.time s.notes s.state) o b, s.time + 1⟩) := by
  rw [amid, h]

theorem amid_eq_ok {sem : (o : Op) → Comp σ (Ans o)} {note : γ → σ → (o : Op) → Ans o → γ} {act : ℕ → γ → σ → σ}
    (h : amid sem note act o s = .ok (b, t)) :
    sem o (act s.time s.notes s.state) = .ok (b, t.state) ∧ t.notes = note s.notes (act s.time s.notes s.state) o b := by
  unfold amid at h
  split at h
  case h_1 b' k hsem =>
    cases h
    exact ⟨hsem, rfl⟩
  case h_2 => cases h

variable {sem : (o : Op) → Comp σ (Ans o)} {C : Op → Prop}

/-- The run of a program comes to a state in which another program is left to run. -/
inductive Comes (sem : (o : Op) → Comp σ (Ans o)) : Prog Op Ans α → σ → Prog Op Ans α → σ → Prop
  | here {x : Prog Op Ans α} {s : σ} : Comes sem x s x s
  | next {o : Op} {k : Ans o → Prog Op Ans α} {b : Ans o} {s t u : σ} {y : Prog Op Ans α} :
      sem o s = .ok (b, t) → Comes sem (k b) t y u → Comes sem (op o k) s y u

section Comes
variable {x y z : Prog Op Ans α} {f : α → Prog Op Ans β} {s t u : σ} {a : α}

theorem Comes.bind (h : Comes sem x s y t) (f : α → Prog Op Ans β) : Comes sem (x >>= f) s (y >>= f) t := by
  induction h with
  | here => exact .here
  | next ho _ ih => exact .next ho ih

theorem comes_of_run (h : x.run sem s = .ok (a, t)) (f : α → Prog Op Ans β) : Comes sem (x >>= f) s (f a) t := by
  induction x generalizing s with
  | ret =>
    cases h
    exact .here
  | op o k ih =>
    obtain ⟨b, u, ho, h⟩ := Comp.bind_eq_ok.mp h
    exact .next ho (ih b h)

theorem Comes.trans (h : Comes sem x s y t) (h' : Comes sem y t z u) : Comes sem x s z u := by
  induction h with
  | here => exact h'
  | next ho _ ih => exact .next ho (ih h')

theorem Wp.comes {fine : Op → σ → Prop} {Q : α → σ → Prop} (h : x.Wp sem fine Q s) (hc : Comes sem x s y t) :
    y.Wp sem fine Q t := by
  induction hc with
  | here => exact h
  | next ho _ ih => exact ih (h.2 _ _ ho)

theorem Wp.visits {P : σ → Prop} (h : x.Wp sem (fun _ s => P s) (fun _ s => P s) s) (hc : Comes sem x s y t) : P t := by
  have hy := h.comes hc
  cases y with
  | ret => exact hy
  | op => exact hy.1

end Comes

def Avoids (sem : (o : Op) → Comp σ (Ans o)) (C : Op → Prop) (x : Prog Op Ans α) (s : σ) : Prop :=
  ∀ o t, Reach sem x s o t → ¬ C o

section Avoids
variable {x : Prog Op Ans α} {f : α → Prog Op Ans β} {s t : σ} {a : α}

theorem Reach.bind (h : Reach sem x s o t) (f : α → Prog Op Ans β) : Reach sem (x >>= f) s o t := by
  induction h with
  | here => exact .here
  | next ho _ ih => exact .next ho ih

theorem Comes.reach (h : Comes sem x s y t) (hr : Reach sem y t o u) : Reach sem x s o u := by
  induction h with
  | here => exact hr
  | next ho _ ih => exact .next ho (ih hr)

theorem Avoids.left (h : Avoids sem C (x >>= f) s) : Avoids sem C x s := fun o t hr => h o t (hr.bind f)

theorem Avoids.right (h : Avoids sem C (x >>= f) s) (hr : x.run sem s = .ok (a, t)) : Avoids sem C (f a) t :=
  fun o u hu => h o u ((comes_of_run hr f).reach hu)

end Avoids

/-- Wherever the run comes to a program of the class `Y`, that avoids the operations of `C`. -/
def Spares (sem : (o : Op) → Comp σ (Ans o)) (C : Op → Prop) (Y : Prog Op Ans δ → Prop) (x : Prog Op Ans α) (s : σ) : Prop :=
  ∀ (y : Prog Op Ans δ) (f : δ → Prog Op Ans α) (t : σ), Y y → Comes sem x s (y >>= f) t → Avoids sem C y t

section Spares
variable {Y : Prog Op Ans δ → Prop} {x : Prog Op Ans α} {f : α → Prog Op Ans β} {s t : σ} {a : α}

theorem Spares.left (h : Spares sem C Y (x >>= f) s) : Spares sem C Y x s := by
  intro y g t hy hc
  refine h y (fun d => g d >>= f) t hy ?_
  have hbind := hc.bind f
  rwa [bind_assoc] at hbind

theorem Spares.right (h : Spares sem C Y (x >>= f) s) (hr : x.run sem s = .ok (a, t)) : Spares sem C Y (f a) t :=
  fun y g u hy hc => h y g u hy ((comes_of_run hr f).trans hc)

theorem Spares.self (h : Spares sem C Y y s) (hy : Y y) : Avoids sem C y s := by
  refine h y pure s hy ?_
  rw [bind_pure]
  exact .here

theorem Avoids.spares (h : Avoids sem C x s) : Spares sem C Y x s :=
  fun _ f _ _ hc o u hu => h o u (hc.reach (hu.bind f))

end Spares

def visited (sem : (o : Op) → Comp σ (Ans o)) : Prog Op Ans α → σ → List Op
  | ret _, _ => []
  | op o k, s => o :: match sem o s with
    | .ok (b, t) => (k b).visited sem t
    | .error _ => []

theorem Reach.mem_visited (h : Reach sem x s o t) : o ∈ x.visited sem s := by
  induction h with
  | here =>
    rw [visited]
    exact List.mem_cons_self
  | next ho _ ih =>
    rw [visited, ho]
    exact List.mem_cons_of_mem _ ih

theorem avoids_of_visited {x : Prog Op Ans α} (h : ∀ o ∈ x.visited sem s, ¬ C o) : Avoids sem C x s :=
  fun o _ hr => h o hr.mem_visited

end Prog
end Xv6
