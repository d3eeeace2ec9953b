import Mathlib.Tactic.Common

/-! # Sequential computations on an explicit state

A computation transforms a state and returns a value, or stops: it blocks on a
condition that does not hold, or it panics. Every spec lemma of the development
is an inversion of a successful outcome, so bind and branch are inverted once.
-/
namespace Xv6

/-- Why a computation did not return. -/
inductive Stop
  | blocked
  | panic (msg : String)
  deriving DecidableEq, Repr

/-- State computations that may stop before returning. -/
def Comp (σ α : Type) : Type := σ → Except Stop (α × σ)

namespace Comp
variable {σ α β : Type}

protected def pure (a : α) : Comp σ α := fun s => .ok (a, s)

protected def bind (x : Comp σ α) (f : α → Comp σ β) : Comp σ β := fun s =>
  match x s with
  | .ok (a, t) => f a t
  | .error e => .error e

instance : Monad (Comp σ) where
  pure := Comp.pure
  bind := Comp.bind

def get : Comp σ σ := fun s => .ok (s, s)

def modify (f : σ → σ) : Comp σ Unit := fun s => .ok ((), f s)

def panic (msg : String) : Comp σ α := fun _ => .error (.panic msg)

def block : Comp σ α := fun _ => .error .blocked

@[simp] theorem pure_apply (a : α) (s : σ) : (pure a : Comp σ α) s = .ok (a, s) := rfl
@[simp] theorem get_apply (s : σ) : (get : Comp σ σ) s = .ok (s, s) := rfl
@[simp] theorem modify_apply (f : σ → σ) (s : σ) : modify f s = .ok ((), f s) := rfl
@[simp] theorem panic_apply (msg : String) (s : σ) : (panic msg : Comp σ α) s = .error (.panic msg) := rfl
@[simp] theorem block_apply (s : σ) : (block : Comp σ α) s = .error .blocked := rfl

theorem bind_apply (x : Comp σ α) (f : α → Comp σ β) (s : σ) :
    (x >>= f) s = match x s with | .ok (a, t) => f a t | .error e => .error e := rfl

variable {s t : σ} {a : α} {e : Stop} {u : σ → σ} {c : Prop}

theorem get_bind {f : σ → Comp σ β} (h : (get >>= f) s = r) : f s s = r := h

variable {f : α → Comp σ β} {x y : Comp σ α}

theorem bind_of_ok (h : x s = .ok (a, t)) : (x >>= f) s = f a t := by
  rw [bind_apply, h]

theorem bind_eq_ok {s u : σ} : (x >>= f) s = .ok (b, u) ↔ ∃ a t, x s = .ok (a, t) ∧ f a t = .ok (b, u) := by
  rw [bind_apply]
  constructor
  · intro h
    split at h
    next a t hx => exact ⟨a, t, hx, h⟩
    next => cases h
  · rintro ⟨a, t, hx, hf⟩
    rw [hx]
    exact hf

theorem bind_eq_error :
    (x >>= f) s = .error e ↔ x s = .error e ∨ ∃ a t, x s = .ok (a, t) ∧ f a t = .error e := by
  rw [bind_apply]
  cases x s with
  | error => simp
  | ok r =>
    obtain ⟨a, t⟩ := r
    simp

theorem pure_eq_ok : (pure a : Comp σ α) s = .ok (b, t) ↔ a = b ∧ s = t := by
  simp

theorem ite_apply (c : Prop) [Decidable c] (x y : Comp σ α) (s : σ) :
    (if c then x else y) s = if c then x s else y s := by
  split <;> rfl

def zoom {τ : Type} (get : σ → τ) (set : σ → τ → σ) (x : Comp τ α) : Comp σ α := fun s =>
  match x (get s) with
  | .ok (a, t) => .ok (a, set s t)
  | .error e => .error e

theorem zoom_eq_ok {τ : Type} {get : σ → τ} {set : σ → τ → σ} {x : Comp τ α} :
    zoom get set x s = .ok (a, s') ↔ ∃ t, x (get s) = .ok (a, t) ∧ s' = set s t := by
  rw [zoom]
  constructor
  · intro h
    split at h
    case h_1 b t hx =>
      cases h
      exact ⟨t, hx, rfl⟩
    case h_2 => cases h
  · rintro ⟨t, hx, rfl⟩
    rw [hx]

theorem zoom_eq_error {τ : Type} {get : σ → τ} {set : σ → τ → σ} {x : Comp τ α} :
    zoom get set x s = .error e ↔ x (get s) = .error e := by
  rw [zoom]
  split
  case h_1 a t hx => simp [hx]
  case h_2 e' hx => simp [hx]

/-- Run the computation and test what it returns. -/
def test (x : Comp σ α) (s : σ) (P : α → σ → Bool) : Bool :=
  match x s with
  | .ok (a, t) => P a t
  | .error _ => false

theorem test_eq_true {P : α → σ → Bool} (h : x.test s P = true) : ∃ a t, x s = .ok (a, t) ∧ P a t = true := by
  unfold test at h
  split at h
  case h_1 a t hx => exact ⟨a, t, hx, h⟩
  case h_2 => cases h

/-- Run the computation and test whether it panics with this message. -/
def panics (x : Comp σ α) (s : σ) (msg : String) : Bool :=
  match x s with
  | .error (.panic m) => m = msg
  | _ => false

theorem panics_eq_true (h : x.panics s msg = true) : x s = .error (.panic msg) := by
  unfold panics at h
  split at h
  case h_1 m hx => rw [hx, of_decide_eq_true h]
  case h_2 => cases h

/-- The computation does not change the part `f` of the state. -/
def Fixes {τ : Type} (f : σ → τ) (x : Comp σ α) : Prop := ∀ s a t, x s = .ok (a, t) → f t = f s

section Fixes
variable {τ υ : Type} {f : σ → τ} {x : Comp σ α} {g : α → Comp σ β}

theorem fixes_pure (a : α) : Fixes f (pure a : Comp σ α) := by
  intro s b t h
  rw [(pure_eq_ok.mp h).2]

theorem fixes_get : Fixes f (get : Comp σ σ) := by
  intro s b t h
  cases h
  rfl

theorem fixes_modify (h : ∀ s, f (u s) = f s) : Fixes f (modify u) := by
  intro s b t ht
  cases ht
  exact h s

theorem fixes_panic (msg : String) : Fixes f (panic msg : Comp σ α) := by
  intro s b t h
  cases h

theorem fixes_block : Fixes f (block : Comp σ α) := by
  intro s b t h
  cases h

theorem Fixes.bind (hx : Fixes f x) (hg : ∀ a, Fixes f (g a)) : Fixes f (x >>= g) := by
  intro s b u h
  obtain ⟨a, t, hxs, hgt⟩ := bind_eq_ok.mp h
  rw [hg a t b u hgt, hx s a t hxs]

theorem Fixes.ite [Decidable c] (hx : Fixes f x) (hy : Fixes f y) : Fixes f (if c then x else y) := by
  split
  case isTrue => exact hx
  case isFalse => exact hy

theorem fixes_zoom {get : σ → υ} {set : σ → υ → σ} {y : Comp υ α}
    (h : ∀ s a t, y (get s) = .ok (a, t) → f (set s t) = f s) : Fixes f (zoom get set y) := by
  intro s a t hs
  obtain ⟨u, hy, rfl⟩ := zoom_eq_ok.mp hs
  exact h s a u hy

end Fixes

def Keeps (I : σ → Prop) (x : Comp σ α) : Prop := ∀ s a t, I s → x s = .ok (a, t) → I t

section Keeps
variable {τ : Type} {I : σ → Prop} {x : Comp σ α} {g : α → Comp σ β}

theorem keeps_modify (h : ∀ s, I s → I (u s)) : Keeps I (modify u) := by
  intro s a t hs ht
  cases ht
  exact h s hs

theorem Fixes.keeps {f : σ → τ} (hx : Fixes f x) (hI : ∀ s t, f t = f s → I s → I t) : Keeps I x :=
  fun s a t hs h => hI s t (hx s a t h) hs

theorem keeps_pure (a : α) : Keeps I (pure a : Comp σ α) := by
  intro s b t hs h
  cases h
  exact hs

theorem Keeps.bind (hx : Keeps I x) (hg : ∀ a, Keeps I (g a)) : Keeps I (x >>= g) := by
  intro s b u hs h
  obtain ⟨a, t, hxs, hgt⟩ := bind_eq_ok.mp h
  exact hg a t b u (hx s a t hs hxs) hgt

/-- What is read from the state is read where the invariant holds. -/
theorem keeps_get_bind {g : σ → Comp σ β} (h : ∀ s, I s → Keeps I (g s)) : Keeps I (get >>= g) := by
  intro s b u hs hb
  have hgt := Comp.get_bind hb
  exact h s hs s b u hs hgt

theorem Keeps.ite [Decidable c] (hx : Keeps I x) (hy : Keeps I y) : Keeps I (if c then x else y) := by
  split
  case isTrue => exact hx
  case isFalse => exact hy

theorem keeps_panic (msg : String) : Keeps I (panic msg : Comp σ α) := by
  intro s b t _ h
  cases h

theorem keeps_block : Keeps I (block : Comp σ α) := by
  intro s b t _ h
  cases h

end Keeps

/-- What the computation does where `P` holds, which it keeps, it also does in the state
changed by `g`. -/
def Carries (P : σ → Prop) (g : σ → σ) (x : Comp σ α) : Prop :=
  ∀ s a t, P s → x s = .ok (a, t) → x (g s) = .ok (a, g t) ∧ P t

section Carries
variable {P : σ → Prop} {g : σ → σ} {x y : Comp σ α} {f : α → Comp σ β}

theorem carries_pure (a : α) : Carries P g (pure a : Comp σ α) := by
  intro s b t hs h
  cases h
  exact ⟨rfl, hs⟩

theorem carries_modify (hu : ∀ s, u (g s) = g (u s)) (hP : ∀ s, P s → P (u s)) : Carries P g (modify u) := by
  intro s b t hs h
  cases h
  rw [modify_apply, hu]
  exact ⟨rfl, hP s hs⟩

theorem carries_panic (msg : String) : Carries P g (panic msg : Comp σ α) := by
  intro s b t _ h
  cases h

theorem carries_block : Carries P g (block : Comp σ α) := by
  intro s b t _ h
  cases h

theorem Carries.bind (hx : Carries P g x) (hf : ∀ a, Carries P g (f a)) : Carries P g (x >>= f) := by
  intro s b u hs h
  obtain ⟨a, t, hxs, hft⟩ := bind_eq_ok.mp h
  obtain ⟨hxg, ht⟩ := hx s a t hs hxs
  obtain ⟨hfg, hu⟩ := hf a t b u ht hft
  exact ⟨bind_eq_ok.mpr ⟨a, g t, hxg, hfg⟩, hu⟩

theorem carries_modify_bind {f : Unit → Comp σ β} (hu : ∀ s, u (g s) = g (u s)) (hP : ∀ s, P s → P (u s))
    (hf : ∀ a, Carries P g (f a)) : Carries P g (modify u >>= f) := (carries_modify hu hP).bind hf

theorem carries_get_bind {f : σ → Comp σ β} (hg : ∀ s, f (g s) = f s) (hf : ∀ s, Carries P g (f s)) :
    Carries P g (get >>= f) := by
  intro s b u hs h
  have h : f s s = .ok (b, u) := h
  change f (g s) (g s) = _ ∧ _
  rw [hg]
  exact hf s s b u hs h

theorem Carries.ite [Decidable c] (hx : Carries P g x) (hy : Carries P g y) :
    Carries P g (if c then x else y) := by
  split
  case isTrue => exact hx
  case isFalse => exact hy

end Carries

instance : LawfulMonad (Comp σ) := LawfulMonad.mk' (Comp σ)
  (fun x => by
    funext s
    change (x >>= fun a => pure (id a)) s = x s
    rw [bind_apply]
    rcases x s with e | ⟨a, t⟩ <;> rfl)
  (fun _ _ => rfl)
  (fun x f g => by
    funext s
    simp only [bind_apply]
    rcases x s with e | ⟨a, t⟩ <;> rfl)

end Comp
end Xv6
