import Xv6.Lib.Prog

/-! # What a program does when it runs alone

Pre- and postconditions for sequential runs: `Wp` says that every operation to which the
run comes is fine in the state it comes to it, and that a run to the end ends in `Q`.
-/
namespace Xv6.Prog
open Comp

variable {Op : Type} {Ans : Op → Type} {α β σ : Type} {sem : (o : Op) → Comp σ (Ans o)} {fine : Op → σ → Prop}

def Wp (sem : (o : Op) → Comp σ (Ans o)) (fine : Op → σ → Prop) (Q : α → σ → Prop) : Prog Op Ans α → σ → Prop
  | ret a, s => Q a s
  | op o k, s => fine o s ∧ ∀ b t, sem o s = .ok (b, t) → (k b).Wp sem fine Q t

variable {x : Prog Op Ans α} {f : α → Prog Op Ans β} {Q R : α → σ → Prop} {P : β → σ → Prop} {s : σ}

theorem Wp.mono (h : x.Wp sem fine Q s) (hR : ∀ a t, Q a t → R a t) : x.Wp sem fine R s := by
  induction x generalizing s with
  | ret a => exact hR a s h
  | op o k ih => exact ⟨h.1, fun b t hb => ih b (h.2 b t hb)⟩

theorem Wp.bind (h : x.Wp sem fine Q s) (hf : ∀ a t, Q a t → (f a).Wp sem fine P t) :
    (x >>= f).Wp sem fine P s := by
  induction x generalizing s with
  | ret a => exact hf a s h
  | op o k ih => exact ⟨h.1, fun b t hb => ih b (h.2 b t hb)⟩

variable {a : α} {o : Op} {t : σ} {e : Stop} {C : Op → Prop} {fine' : Op → σ → Prop}

theorem wp_pure (h : Q a s) : (pure a : Prog Op Ans α).Wp sem fine Q s := h

theorem wp_call {Q : Ans o → σ → Prop} (h : fine o s) (hQ : ∀ b t, sem o s = .ok (b, t) → Q b t) :
    (call o).Wp sem fine Q s := ⟨h, hQ⟩

theorem wp_call_bind {f : Ans o → Prog Op Ans β} (h : fine o s)
    (hf : ∀ b t, sem o s = .ok (b, t) → (f b).Wp sem fine P t) : (call o >>= f).Wp sem fine P s := ⟨h, hf⟩

theorem wp_ite {c : Prop} [Decidable c] (hx : c → x.Wp sem fine Q s)
    (hy : ¬ c → y.Wp sem fine Q s) : (if c then x else y).Wp sem fine Q s := by
  split
  case isTrue h => exact hx h
  case isFalse h => exact hy h

theorem Wp.run (h : x.Wp sem fine Q s) (hr : x.run sem s = .ok (a, t)) : Q a t := by
  induction x generalizing s with
  | ret =>
    cases hr
    exact h
  | op o k ih =>
    obtain ⟨b, u, ho, hr⟩ := bind_eq_ok.mp hr
    exact ih b (h.2 b u ho) hr

theorem Wp.and_run (h : x.Wp sem fine Q s) :
    x.Wp sem fine (fun a t => Q a t ∧ x.run sem s = .ok (a, t)) s := by
  induction x generalizing s with
  | ret => exact ⟨h, rfl⟩
  | op o k ih =>
    refine ⟨h.1, fun b t ho => (ih b (h.2 b t ho)).mono fun a u hu => ⟨hu.1, ?_⟩⟩
    exact bind_eq_ok.mpr ⟨b, t, ho, hu.2⟩

theorem Wp.reach (h : x.Wp sem fine Q s) (hr : Reach sem x s o t) : fine o t := by
  induction hr with
  | here => exact h.1
  | next ho _ ih => exact ih (h.2 _ _ ho)

/-- A run stops where one of its operations does. -/
theorem exists_reach_of_error (h : x.run sem s = .error e) :
    ∃ o t, Reach sem x s o t ∧ sem o t = .error e := by
  induction x generalizing s with
  | ret => cases h
  | op o k ih =>
    cases ho : sem o s with
    | error e' =>
      have hstop : (sem o >>= fun b => (k b).run sem) s = .error e' := by rw [bind_apply, ho]
      cases hstop.symm.trans h
      exact ⟨o, s, .here, ho⟩
    | ok r =>
      obtain ⟨b, t⟩ := r
      have hnext : (k b).run sem t = .error e := (bind_of_ok ho).symm.trans h
      obtain ⟨o', u, hreach, hu⟩ := ih b hnext
      exact ⟨o', u, .next ho hreach, hu⟩

theorem run_of_reach (h : Reach sem x s o t) (ho : sem o t = .error e) : x.run sem s = .error e := by
  induction h with
  | here => exact bind_eq_error.mpr (.inl ho)
  | next hb _ ih => exact bind_eq_error.mpr (.inr ⟨_, _, hb, ih ho⟩)

theorem Uses.wp (hx : x.Uses C) (hC : ∀ o, C o → ∀ t, fine o t)
    (hQ : ∀ a t, x.run sem s = .ok (a, t) → Q a t) : x.Wp sem fine Q s := by
  induction x generalizing s with
  | ret a => exact hQ a s rfl
  | op o k ih =>
    refine ⟨hC o hx.1 s, fun b t ho => ih b (hx.2 b) fun a u hu => hQ a u ?_⟩
    exact bind_eq_ok.mpr ⟨b, t, ho, hu⟩

/-- Operations that are fine where an invariant holds, which they keep. -/
theorem Uses.wp_keeps {I : σ → Prop} (hx : x.Uses C) (hs : I s)
    (hI : ∀ o, C o → ∀ t, I t → fine o t ∧ ∀ b u, sem o t = .ok (b, u) → I u) : x.Wp sem fine (fun _ t => I t) s := by
  induction x generalizing s with
  | ret => exact hs
  | op o k ih =>
    obtain ⟨hfine, hkeep⟩ := hI o hx.1 s hs
    exact ⟨hfine, fun b t ho => ih b (hx.2 b) (hkeep b t ho)⟩

theorem wp_of_run (hr : x.run sem s = .ok (a, t)) :
    x.Wp sem (fun o u => ∃ b v, sem o u = .ok (b, v)) (fun a' t' => a' = a ∧ t' = t) s := by
  induction x generalizing s with
  | ret =>
    cases hr
    exact ⟨rfl, rfl⟩
  | op o k ih =>
    obtain ⟨b, u, ho, hr⟩ := bind_eq_ok.mp hr
    refine ⟨⟨b, u, ho⟩, fun b' u' ho' => ?_⟩
    cases ho.symm.trans ho'
    exact ih b hr

theorem Wp.and (h : x.Wp sem fine Q s) (h' : x.Wp sem fine' R s) :
    x.Wp sem (fun o t => fine o t ∧ fine' o t) (fun a t => Q a t ∧ R a t) s := by
  induction x generalizing s with
  | ret => exact ⟨h, h'⟩
  | op o k ih => exact ⟨⟨h.1, h'.1⟩, fun b t ho => ih b (h.2 b t ho) (h'.2 b t ho)⟩

theorem Wp.mono_fine (h : x.Wp sem fine Q s) (hfine : ∀ o t, fine o t → fine' o t) : x.Wp sem fine' Q s := by
  induction x generalizing s with
  | ret => exact h
  | op o k ih => exact ⟨hfine o s h.1, fun b t ho => ih b (h.2 b t ho)⟩

/-- Another handler that agrees on the operations of the program, with another condition
that they meet everywhere. -/
theorem Wp.transfer {sem' : (o : Op) → Comp σ (Ans o)} (hx : x.Uses C)
    (hC : ∀ o, C o → sem' o = sem o ∧ ∀ t, fine' o t) (h : x.Wp sem fine Q s) : x.Wp sem' fine' Q s := by
  induction x generalizing s with
  | ret => exact h
  | op o k ih =>
    obtain ⟨hsem, hfine⟩ := hC o hx.1
    refine ⟨hfine s, fun b t ho => ih b (hx.2 b) (h.2 b t ?_)⟩
    rwa [hsem] at ho

end Xv6.Prog
