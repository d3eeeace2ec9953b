import Mathlib.Data.DFinsupp.WellFounded
import Xv6.Lib.Prog
import Xv6.Lib.Run

/-! # Interleaved programs

Threads that each run one call after another on a shared state, with a step for each
operation. If every call keeps to a protocol, and each operation keeps an invariant
between the state and the ghost states of all threads, then the invariant holds in
every interleaving.
-/
namespace Xv6.Pool
open Function

variable {Op : Type} {Ans : Op → Type} {σ ι κ α : Type}

structure State (Op : Type) (Ans : Op → Type) (σ ι α : Type) where
  shared : σ
  thread : ι → Prog Op Ans α

inductive Label (Op : Type) (Ans : Op → Type) (ι κ : Type)
  | start (i : ι) (c : κ)
  | exec (i : ι) (o : Op) (b : Ans o)

variable [DecidableEq ι]

/-- A thread that has returned may start its next call; any other thread may execute
its next operation, unless the operation blocks or panics. -/
inductive Step (sem : (o : Op) → Comp σ (Ans o)) (body : ι → κ → Prog Op Ans α) :
    State Op Ans σ ι α → Label Op Ans ι κ → State Op Ans σ ι α → Prop
  | start {s : State Op Ans σ ι α} {i : ι} {a : α} (c : κ) (h : s.thread i = .ret a) :
      Step sem body s (.start i c)
        { s with thread := update s.thread i (body i c) }
  | exec {s : State Op Ans σ ι α} {i : ι} {o : Op} {k : Ans o → Prog Op Ans α} {b : Ans o} {t : σ}
      (h : s.thread i = .op o k) (ho : sem o s.shared = .ok (b, t)) :
      Step sem body s (.exec i o b) ⟨t, update s.thread i (k b)⟩

variable {sem : (o : Op) → Comp σ (Ans o)} {body : ι → κ → Prog Op Ans α}
  {P : Protocol Op Ans}

/-- Every thread keeps to the protocol from its ghost state on, and `I` relates the
steps made, the shared state and the ghost states. -/
def Inv (P : Protocol Op Ans) (I : List (Label Op Ans ι κ) → σ → (ι → P.Ghost) → Prop)
    (J : P.Ghost → Prop) (ls : List (Label Op Ans ι κ)) (s : State Op Ans σ ι α)
    (γ : ι → P.Ghost) : Prop :=
  I ls s.shared γ ∧ ∀ i, (s.thread i).Obeys P (γ i) fun _ g => J g

variable {s₀ s : State Op Ans σ ι α}

section Soundness
variable {I : List (Label Op Ans ι κ) → σ → (ι → P.Ghost) → Prop} {J : P.Ghost → Prop}
  {C : State Op Ans σ ι α → Label Op Ans ι κ → Prop} {ls : List (Label Op Ans ι κ)}
  {s s' : State Op Ans σ ι α} {γ : ι → P.Ghost} {l : Label Op Ans ι κ}

variable
  (hstart : ∀ ls s γ i c, I ls s.shared γ → C s (.start i c) → J (γ i) →
    ∃ g, (body i c).Obeys P g (fun _ g => J g) ∧ I (ls ++ [.start i c]) s.shared (update γ i g))
  (hsem : ∀ ls s γ i o b t, I ls s.shared γ → C s (.exec i o b) → P.allow (γ i) o → sem o s.shared = .ok (b, t) →
    P.answer (γ i) o b ∧ I (ls ++ [.exec i o b]) t (update γ i (P.next (γ i) o b)))
include hstart hsem

theorem step_inv (h : Inv P I J ls s γ) (hl : C s l) (hs : Step sem body s l s') :
    ∃ γ', Inv P I J (ls ++ [l]) s' γ' := by
  obtain ⟨hI, hobeys⟩ := h
  -- only the thread that makes the step has a new program and a new ghost state
  have hupdate (i : ι) {x : Prog Op Ans α} {g : P.Ghost} (hx : x.Obeys P g fun _ g => J g) (j : ι) :
      (update s.thread i x j).Obeys P (update γ i g j) fun _ g => J g := by
    by_cases hj : j = i
    · subst hj
      rw [update_self, update_self]
      exact hx
    · rw [update_of_ne hj, update_of_ne hj]
      exact hobeys j
  cases hs with
  | @start i a c hi =>
    have hidle := hobeys i
    rw [hi] at hidle
    obtain ⟨g, hbody, hI'⟩ := hstart ls s γ i c hI hl hidle
    exact ⟨_, hI', hupdate i hbody⟩
  | @exec i o k b t hi ho =>
    have hop := hobeys i
    rw [hi] at hop
    obtain ⟨hans, hI'⟩ := hsem ls s γ i o b t hI hl hop.1 ho
    exact ⟨_, hI', hupdate i (hop.2 b hans)⟩

variable {tr : List (State Op Ans σ ι α × Label Op Ans ι κ)} {γ₀ : ι → P.Ghost}

theorem run_inv (hr : Run (Step sem body) s₀ tr s) (hc : Meets C tr)
    (h0 : Inv P I J [] s₀ γ₀) : ∃ γ, Inv P I J (tr.map Prod.snd) s γ := by
  induction hr with
  | start => exact ⟨γ₀, h0⟩
  | snoc _ hs ih =>
    obtain ⟨hc, hl⟩ := meets_snoc.mp hc
    obtain ⟨γ, hγ⟩ := ih hc
    rw [List.map_append]
    exact step_inv hstart hsem hγ hl hs

theorem run_meets {R : State Op Ans σ ι α → Label Op Ans ι κ → Prop} (hR : ∀ s i c, R s (.start i c))
    (hRsem : ∀ ls s γ i o b t, I ls s.shared γ → P.allow (γ i) o → sem o s.shared = .ok (b, t) →
      R s (.exec i o b)) (hr : Run (Step sem body) s₀ tr s) (hc : Meets C tr)
    (h0 : Inv P I J [] s₀ γ₀) : Meets R tr := by
  induction hr with
  | start => exact meets_nil R
  | snoc hr hs ih =>
    obtain ⟨hc, hl⟩ := meets_snoc.mp hc
    obtain ⟨γ, hI, hobeys⟩ := run_inv hstart hsem hr hc h0
    refine meets_snoc.mpr ⟨ih hc, ?_⟩
    cases hs with
    | @start i a c hi => exact hR _ i c
    | @exec i o k b t hi ho =>
      have hop := hobeys i
      rw [hi] at hop
      exact hRsem _ _ γ i o b t hI hop.1 ho

end Soundness

variable {i : ι} {o : Op} {th : ι → Prog Op Ans α} {k t : σ} {x : Prog Op Ans α} {a r : α} {c : κ}

theorem run_cons {f : Ans o → Prog Op Ans α} (ho : sem o k = .ok (b, k'))
    (hr : Run (Step sem body) ⟨k', update th i (f b)⟩ tr s) (htr : ∀ e ∈ tr, ∃ o b, e.2 = Label.exec i o b) :
    ∃ tr', Run (Step sem body) ⟨k, update th i (.op o f)⟩ tr' s ∧ ∀ e ∈ tr', ∃ o b, e.2 = Label.exec i o b := by
  have hstep : Step sem body ⟨k, update th i (.op o f)⟩ (.exec i o b)
      ⟨k', update (update th i (.op o f)) i (f b)⟩ :=
    Step.exec (update_self ..) ho
  rw [update_idem] at hstep
  refine ⟨_, .cons hstep hr, fun e he => ?_⟩
  rcases List.mem_cons.mp he with rfl | he
  · exact ⟨o, b, rfl⟩
  · exact htr e he

theorem run_alone (h : x.run sem k = .ok (a, t)) :
    ∃ tr, Run (Step sem body) ⟨k, update th i x⟩ tr ⟨t, update th i (.ret a)⟩ ∧
      ∀ e ∈ tr, ∃ o b, e.2 = Label.exec i o b := by
  induction x generalizing k with
  | ret =>
    cases h
    exact ⟨[], .start, fun e he => by cases he⟩
  | op o f ih =>
    obtain ⟨b, k', ho, h⟩ := Comp.bind_eq_ok.mp h
    obtain ⟨tr, hr, htr⟩ := ih b h
    exact run_cons ho hr htr

theorem run_reach (h : Prog.Reach sem x k o t) :
    ∃ tr f, Run (Step sem body) ⟨k, update th i x⟩ tr ⟨t, update th i (.op o f)⟩ ∧
      ∀ e ∈ tr, ∃ o b, e.2 = Label.exec i o b := by
  induction h with
  | @here o f s => exact ⟨[], f, .start, fun e he => by cases he⟩
  | next ho _ ih =>
    obtain ⟨tr, f, hr, htr⟩ := ih
    obtain ⟨tr', hr', htr'⟩ := run_cons ho hr htr
    exact ⟨tr', f, hr', htr'⟩

theorem run_call (hi : th i = .ret r) (h : (body i c).run sem k = .ok (a, t)) :
    ∃ tr, Run (Step sem body) ⟨k, th⟩ ((⟨k, th⟩, .start i c) :: tr) ⟨t, update th i (.ret a)⟩ ∧
      ∀ e ∈ tr, ∃ o b, e.2 = Label.exec i o b := by
  obtain ⟨tr, hr, htr⟩ := run_alone (i := i) h
  exact ⟨tr, .cons (.start c hi) hr, htr⟩

/-- A call whose run on its own has been tested, and the conditions that such a run meets. -/
theorem run_test (body : ι → κ → Prog Op Ans α) {P : α → σ → Bool} (hi : th i = .ret r)
    (h : ((body i c).run sem).test k P = true) :
    ∃ tr a t, Run (Step sem body) ⟨k, th⟩ tr ⟨t, update th i (.ret a)⟩ ∧ P a t = true ∧
      ∀ C : State Op Ans σ ι α → Label Op Ans ι κ → Prop, C ⟨k, th⟩ (.start i c) →
        (∀ s o b, C s (.exec i o b)) → Meets C tr := by
  obtain ⟨a, t, hrun, ht⟩ := Comp.test_eq_true h
  obtain ⟨tr, hr, hexec⟩ := run_call hi hrun
  refine ⟨_, a, t, hr, ht, fun C hstart hC e he => ?_⟩
  rcases List.mem_cons.mp he with rfl | he
  · exact hstart
  · obtain ⟨o, b, hl⟩ := hexec e he
    rw [hl]
    exact hC e.1 o b

theorem exec_wellFounded [Finite ι] [LinearOrder ι] (sem : (o : Op) → Comp σ (Ans o)) (body : ι → κ → Prog Op Ans α) :
    WellFounded fun t s : State Op Ans σ ι α => ∃ i o b, Step sem body s (.exec i o b) t := by
  -- every step leaves the thread that makes it with a part of its program
  let part : Prog Op Ans α → Prog Op Ans α → Prop := fun y x => ∃ o k b, x = .op o k ∧ y = k b
  have hpart : WellFounded part := by
    refine ⟨fun x => ?_⟩
    induction x with
    | ret => exact ⟨_, fun y ⟨_, _, _, h, _⟩ => by cases h⟩
    | op o k ih =>
      refine ⟨_, fun y ⟨_, _, b, h, hy⟩ => ?_⟩
      cases h
      exact hy ▸ ih b
  have hlex := Pi.Lex.wellFounded (α := fun _ : ι => Prog Op Ans α) (· < ·) fun _ => hpart
  refine Subrelation.wf ?_ (InvImage.wf State.thread hlex)
  rintro t s ⟨i, o, b, hstep⟩
  cases hstep with
  | @exec _ _ k _ u hi ho =>
    refine ⟨i, fun j hj => update_of_ne hj.ne _ _, o, k, b, hi, ?_⟩
    exact update_self ..

section Alone
variable (sem body) (ok : σ → ι → κ → Bool)

/-- Calls one after the other, each of which starts in a state that is `ok` for it. -/
def alone : List (ι × κ) → Comp σ Unit
  | [] => pure ()
  | (i, c) :: cs => do
    if ok (← Comp.get) i c then
      let _ ← (body i c).run sem
      alone cs
    else Comp.block

variable {sem body ok}

theorem run_calls (hth : ∀ i, ∃ r, th i = .ret r) (h : alone sem body ok cs k = .ok ((), t)) :
    ∃ tr th', Run (Step sem body) ⟨k, th⟩ tr ⟨t, th'⟩ ∧ (∀ i, ∃ r, th' i = .ret r) ∧
      Meets (fun s l => ∀ i c, l = .start i c → ok s.shared i c = true) tr := by
  induction cs generalizing k th with
  | nil =>
    cases h
    exact ⟨[], th, .start, hth, meets_nil _⟩
  | cons ic cs ih =>
    obtain ⟨i, c⟩ := ic
    have h := Comp.get_bind h
    split at h
    case isFalse => cases h
    case isTrue hok =>
      obtain ⟨a, k1, hrun, h⟩ := Comp.bind_eq_ok.mp h
      obtain ⟨r, hr⟩ := hth i
      obtain ⟨tr, hcall, hexec⟩ := run_call hr hrun
      have hth' (j : ι) : ∃ r, update th i (.ret a) j = .ret r := by
        by_cases hj : j = i
        · exact ⟨a, by rw [hj, update_self]⟩
        · rw [update_of_ne hj]
          exact hth j
      obtain ⟨tr', th', hrest, hret, hmeets⟩ := ih hth' h
      refine ⟨_, th', hcall.trans hrest, hret, fun e he => ?_⟩
      rcases List.mem_append.mp he with he | he
      · rcases List.mem_cons.mp he with rfl | he
        · rintro i' c' heq
          cases heq
          exact hok
        · obtain ⟨o, b, hl⟩ := hexec e he
          rintro i' c' heq
          rw [hl] at heq
          cases heq
      · exact hmeets e he

end Alone
end Xv6.Pool
