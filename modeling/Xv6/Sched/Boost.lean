import Xv6.Sched.Pass

/-! # The periodic boost

On one processor both reads of `ticks` in a pass give the same value, so that a pass
leaves `flag` set exactly when it did not begin at a multiple of 100. The boost therefore
depends on the ticks at which this pass and the one before it began.
-/
namespace Xv6.Sched
open Function PTable Machine List

def Label.isTick {ι : Type} : Label ι → Bool
  | .tick => true
  | _ => false

def Label.isPass {ι : Type} : Label ι → Bool
  | .pass _ _ => true
  | _ => false

/-- One processor takes no timer interrupt between the two reads of `ticks`, since it
holds `ptable.lock` there. -/
def Alone {P : Policy} (_ : Machine P Unit) : Label Unit → Prop
  | .pass _ n => n = 0
  | _ => True

/-- The steps of one processor so far, each with the state before it. -/
abbrev History (P : Policy) := List (Machine P Unit × Label Unit)

namespace History
variable {P : Policy}

def elapsed (tr : History P) : ℕ := tr.countP fun e => e.2.isTick

/-- The state in which the last pass began. -/
def lastPass (tr : History P) : Option (Machine P Unit) :=
  (tr.reverse.find? fun e => e.2.isPass).map Prod.fst

theorem lastPass_snoc (tr : History P) (m : Machine P Unit) (l : Label Unit) :
    lastPass (tr ++ [(m, l)]) = if l.isPass then some m else lastPass tr := by
  simp only [lastPass, reverse_append, reverse_singleton, singleton_append,
    find?_cons]
  cases l.isPass <;> rfl

variable {m₀ m : Machine P Unit} {tr : History P} {e : Machine P Unit × Label Unit}

theorem ticks_eq (hr : Run (Steps step) m₀ tr m)
    (hone : Meets Alone tr) : m.ticks = m₀.ticks + BitVec.ofNat 32 (elapsed tr) := by
  induction hr with
  | start => simp [elapsed]
  | @snoc tr m m' l _ hs ih =>
    obtain ⟨hpre, hl⟩ := meets_snoc.mp hone
    have ih := ih hpre
    have hcount : elapsed (tr ++ [(m, l)]) = elapsed tr + if l.isTick then 1 else 0 := by
      simp [elapsed, countP_cons]
    rw [hcount]
    cases l with
    | tick =>
      cases hs
      simp only [ih, Label.isTick, if_true, BitVec.ofNat_add]
      exact BitVec.add_assoc _ _ _
    | wakeup =>
      cases hs
      exact ih
    | «section» i a =>
      obtain ⟨p, f, t, -, -, rfl⟩ := step_section_eq_some hs
      exact ih
    | pass =>
      obtain ⟨fl, -, rfl⟩ := step_pass_eq_some hs
      cases hl
      simpa [Label.isTick] using ih
    | leave i how =>
      obtain ⟨p, f, -, rfl⟩ := step_leave_eq_some hs
      have hticks : (m.enter i (P.resume f p (how.run p m.table))).ticks = m.ticks := by
        cases P.resume f p (how.run p m.table) <;> rfl
      rw [hticks]
      exact ih

/-- While the clock stands still all states have one value of `ticks`. -/
theorem ticks_of_elapsed
    (hr : Run (Steps step) m₀ tr m) (hone : Meets Alone tr) (hstill : elapsed tr = 0) (he : e ∈ tr) : e.1.ticks = m₀.ticks := by
  obtain ⟨pre, post, rfl⟩ := append_of_mem he
  have hpre : elapsed pre = 0 := by
    simp only [elapsed, countP_append] at hstill ⊢
    omega
  have hticks := ticks_eq hr.split.1 fun e he => hone e (mem_append_left _ he)
  rw [hticks, hpre]
  exact BitVec.add_zero _

/-- The ticks at which the passes of a history began, from the count `c` on. -/
def passTicks (c : ℕ) : History P → List ℕ
  | [] => []
  | (_, .tick) :: tr => passTicks (c + 1) tr
  | (_, .pass _ _) :: tr => c :: passTicks c tr
  | _ :: tr => passTicks c tr

/-- The count of ticks, which unlike `ticks` does not wrap. -/
def clock (m₀ : Machine P Unit) (tr : History P) : ℕ := m₀.ticks.toNat + elapsed tr

/-- A pass that begins after `tr` is the first one at or after tick `n`. -/
def FirstFrom (m₀ : Machine P Unit) (n : ℕ) (tr : History P) : Prop :=
  n ≤ clock m₀ tr ∧ ∀ c ∈ passTicks m₀.ticks.toNat tr, c < n

instance (m₀ : Machine P Unit) (n : ℕ) (tr : History P) : Decidable (FirstFrom m₀ n tr) :=
  inferInstanceAs (Decidable (_ ∧ _))

theorem lastPass_append (pre : History P) (he : e ∈ tr)
    (hpass : e.2.isPass = true) : ∃ e' ∈ tr, lastPass (pre ++ tr) = some e'.1 := by
  have hsome : (tr.reverse.find? fun e => e.2.isPass).isSome := by
    rw [find?_isSome]
    exact ⟨e, mem_reverse.mpr he, hpass⟩
  obtain ⟨e', he'⟩ := Option.isSome_iff_exists.mp hsome
  refine ⟨e', mem_reverse.mp (mem_of_find?_eq_some he'), ?_⟩
  rw [lastPass, reverse_append, find?_append, he']
  rfl

end History

namespace Mlfq
open History
variable {K : MlfqK}

/-- `flag`, which the scheduler keeps on its stack while a process runs. -/
def flagOf : Cpu (policy K) → Bool
  | .scheduler flag => flag
  | .process _ f => Frame.flag f

theorem nextFlag_self (ticks : Word) (flag : Bool) :
    nextFlag ticks ticks flag = true ↔ ticks.toNat % 100 ≠ 0 := by
  by_cases h : ticks.toNat % 100 = 0
  · cases flag <;> simp [nextFlag, Boosts, h]
  · simp [nextFlag, h]

variable {m₀ m m' : Machine (policy K) Unit} {tr : History (policy K)} {n : ℕ}

/-- `flag` is set exactly while the last pass is one that did not begin at a multiple of
100, or before the first pass. -/
theorem flag_iff (hstart : m₀.cpu () = .scheduler true) (hr : Run (Steps step) m₀ tr m)
    (hone : Meets Alone tr) :
    flagOf (m.cpu ()) = true ↔ ∀ s, lastPass tr = some s → s.ticks.toNat % 100 ≠ 0 := by
  induction hr with
  | start =>
    rw [hstart]
    constructor
    · intro _ s hs
      cases hs
    · intro _
      rfl
  | @snoc tr m m' l _ hs ih =>
    obtain ⟨hpre, hl⟩ := meets_snoc.mp hone
    have ih := ih hpre
    rw [lastPass_snoc]
    cases l with
    | tick | wakeup =>
      cases hs
      exact ih
    | «section» i a =>
      obtain ⟨p, f, t, -, -, rfl⟩ := step_section_eq_some hs
      exact ih
    | pass =>
      cases hl
      obtain ⟨flag, -, -, hend⟩ := step_pass_cases hs
      have hflag : flagOf (m'.cpu ()) = nextFlag m.ticks m.ticks flag := by
        rcases hend with ⟨-, -, hcpu⟩ | ⟨-, f, p, hf, -, -, -, hcpu⟩
        · rw [hcpu, update_self, BitVec.add_zero]
          rfl
        · rw [hcpu, update_self]
          rw [BitVec.add_zero] at hf
          exact hf
      rw [hflag, nextFlag_self]
      constructor
      · intro h s hs
        cases hs
        exact h
      · intro h
        exact h m rfl
    | leave =>
      obtain ⟨p, f, hcpu, -, hend⟩ := step_leave_cases hs
      have hflag : flagOf (m'.cpu ()) = flagOf (m.cpu ()) := by
        rw [hcpu]
        rcases hend with ⟨-, -, hcpu'⟩ | ⟨q, -, -, -, -, hcpu'⟩
        · rw [hcpu', update_self]
          rfl
        · rw [hcpu', update_self]
          rfl
      rw [hflag]
      exact ih

/-- The pass that begins in `m` takes the branch of the periodic boost. -/
def PeriodicBoost (m : Machine (policy K) Unit) : Prop :=
  ∃ flag : Bool, m.cpu () = .scheduler flag ∧ Boosts m.ticks flag

/-- The pass begins at a multiple of 100, and the one before it did not. -/
def OnTime (tr : History (policy K)) (m : Machine (policy K) Unit) : Prop :=
  m.ticks.toNat % 100 = 0 ∧ ∀ s, lastPass tr = some s → s.ticks.toNat % 100 ≠ 0

theorem periodicBoost_iff (hstart : m₀.cpu () = .scheduler true) (hr : Run (Steps step) m₀ tr m)
    (hone : Meets Alone tr) (hs : Steps step m (.pass () n) m') : PeriodicBoost m ↔ OnTime tr m := by
  obtain ⟨(flag : Bool), hcpu, -⟩ := step_pass_eq_some hs
  have hflag := flag_iff hstart hr hone
  rw [hcpu] at hflag
  constructor
  · rintro ⟨fl, hcpu', hmod, hset⟩
    rw [hcpu] at hcpu'
    cases hcpu'
    exact ⟨hmod, hflag.mp hset⟩
  · rintro ⟨hmod, hlast⟩
    exact ⟨flag, hcpu, hmod, hflag.mpr hlast⟩

theorem PeriodicBoost.fresh (hb : PeriodicBoost m) (hs : Steps step m (.pass () n) m') (p : Slot) :
    (m'.table.proc p).level = 0 ∧ (m'.table.proc p).hold = 4 := by
  obtain ⟨fl, hfl, hb⟩ := hb
  obtain ⟨flag, hcpu, -, hend⟩ := step_pass_cases hs
  rw [hcpu] at hfl
  cases hfl
  rcases hend with ⟨-, htable, -⟩ | ⟨-, f, q, -, -, -, htable, -⟩
  · rw [htable]
    exact ⟨rfl, rfl⟩
  · obtain ⟨hl, hh⟩ := running_quota (queues K m.ticks fl m.table) q p
    rw [htable, hl, hh]
    exact queues_boosted hb m.table p

/-- Two passes that begin at one tick do not both boost: the first one has cleared `flag`,
and no pass in between has found another tick to set it at. -/
theorem not_periodicBoost_twice {m₀ s s' s'' : Machine (policy K) Unit} {pre mid : History (policy K)}
    (hstart : m₀.cpu () = .scheduler true) (hr : Run (Steps step) m₀ (pre ++ (s, .pass () 0) :: mid) s')
    (hone : Meets Alone (pre ++ (s, .pass () 0) :: mid)) (hstill : elapsed mid = 0)
    (hs' : Steps step s' (.pass () 0) s'') (hb : PeriodicBoost s) : ¬ PeriodicBoost s' := by
  intro hb'
  obtain ⟨hpre, s1, hs, hmid⟩ := hr.split
  have hone' : Meets Alone ((s, .pass () 0) :: mid) :=
    fun e he => hone e (mem_append_right _ he)
  obtain ⟨e, he, hlast⟩ := lastPass_append pre
    (mem_cons_self (a := ((s, .pass () 0) : Machine (policy K) Unit × Label Unit)) (l := mid)) rfl
  have hticks : e.1.ticks = s.ticks := by
    refine ticks_of_elapsed (.cons hs hmid) hone' ?_ he
    simpa [elapsed, Label.isTick] using hstill
  have hmod := ((periodicBoost_iff hstart hr hone hs').mp hb').2 e.1 hlast
  rw [hticks] at hmod
  obtain ⟨fl, -, hzero, -⟩ := hb
  exact hmod hzero

/-- The first pass at or after tick `100 * k` boosts every process exactly when it begins
at a multiple of 100 and the pass before it did not; a tick never boosts twice. -/
theorem first_pass_boosts_iff {m₀ m : Machine (policy K) Unit} {tr : History (policy K)}
    (hstart : m₀.cpu () = .scheduler true) (hr : Run (Steps Machine.step) m₀ tr m)
    (hone : Meets Alone tr) :
    (∀ k pre s post, tr = pre ++ (s, .pass () 0) :: post → FirstFrom m₀ (100 * k) pre →
      (PeriodicBoost s ↔ OnTime pre s) ∧
      (OnTime pre s → ∀ s', Steps Machine.step s (.pass () 0) s' →
        ∀ p, (s'.table.proc p).level = 0 ∧ (s'.table.proc p).hold = 4)) ∧
    ∀ c pre s mid s' post, tr = pre ++ (s, .pass () 0) :: (mid ++ (s', .pass () 0) :: post) →
      clock m₀ pre = c → clock m₀ (pre ++ (s, .pass () 0) :: mid) = c →
        PeriodicBoost s → ¬ PeriodicBoost s' := by
  constructor
  · rintro k pre s post rfl -
    obtain ⟨hpre, s₁, hs, -⟩ := hr.split
    have hiff := periodicBoost_iff hstart hpre (fun e he => hone e (mem_append_left _ he)) hs
    exact ⟨hiff, fun h s' hs' p => (hiff.mpr h).fresh hs' p⟩
  · rintro c pre s mid s' post rfl hc hc' hb
    rw [← cons_append, ← append_assoc] at hr hone
    obtain ⟨hpre, s'', hs', -⟩ := hr.split
    refine not_periodicBoost_twice hstart hpre (fun e he => hone e (mem_append_left _ he)) ?_ hs' hb
    simp only [clock, elapsed, countP_append, countP_cons, Label.isTick] at hc hc' ⊢
    omega

/-- Two new processes at tick 99, just before a pass. -/
def lateStart : Machine (policy ⟨2, two_levels⟩) Unit where
  table := ⟨fun p => if p = 0 then { pid := 1, state := .runnable, hold := 4 }
    else if p = 1 then { pid := 2, state := .runnable, hold := 4 } else {}, 3, some 0⟩
  ticks := 99
  cpu := fun _ => .scheduler true

/-- The pass begins only after tick 100 has come. -/
theorem lateStart_boosted :
    FirstFrom lateStart (100 * 1) [(lateStart, .tick)] ∧
      ∀ s', Steps Machine.step (after Machine.step lateStart .tick) (.pass () 0) s' →
        ∀ p, (s'.table.proc p).level = 0 ∧ (s'.table.proc p).hold = 4 := by
  have hr : Run (Steps step) lateStart (trace step lateStart [.tick, .pass () 0]) _ :=
    run_trace (by decide +kernel)
  have hone : Meets Alone (trace step lateStart [.tick, .pass () 0]) :=
    meets_trace (by simp [Alone])
  have hfirst : FirstFrom lateStart (100 * 1) [(lateStart, .tick)] := by decide +kernel
  refine ⟨hfirst, ?_⟩
  refine ((first_pass_boosts_iff rfl hr hone).1 1 [(lateStart, .tick)] _ [] rfl hfirst).2 ?_
  refine ⟨by decide +kernel, ?_⟩
  intro s hs
  cases hs

/-- The pass begins at tick 99 and gives each process a turn of one tick, so that the next
one begins at tick 101 and finds both with three turns left. -/
theorem lateStart_skipped :
    ∃ tr m, Run (Steps Machine.step) lateStart tr m ∧ Meets Alone tr ∧
      ∃ pre s, tr = pre ++ [(s, .pass () 0)] ∧ FirstFrom lateStart (100 * 1) pre ∧
        ¬ ∀ p, (m.table.proc p).level = 0 ∧ (m.table.proc p).hold = 4 := by
  have hr : Run (Steps step) lateStart (trace step lateStart
      [.pass () 0, .tick, .leave () .yield, .tick, .leave () .yield, .pass () 0]) _ :=
    run_trace (by decide +kernel)
  refine ⟨_, _, hr, meets_trace (by simp [Alone]), (trace step lateStart
    [.pass () 0, .tick, .leave () .yield, .tick, .leave () .yield]), _, rfl, by decide +kernel, ?_⟩
  intro h
  exact absurd (h 0).2 (by decide +kernel)

end Mlfq
end Xv6.Sched
