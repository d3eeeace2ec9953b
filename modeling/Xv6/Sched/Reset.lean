import Xv6.Sched.Quantum

/-! # Getting the processor back

`yield2` refills the quantum before the switch, and the scheduler then charges the turn that
has ended; a sleeper is reset by a pass that finds it asleep. What a process finds at its
next turn therefore depends on the passes since it left.
-/
namespace Xv6.Sched.Mlfq
open PTable Machine List
variable {K : MlfqK}

def Full (pr : Proc) : Prop := pr.level = 0 ∧ pr.hold = TIME_QUANTUM 0

def Short (pr : Proc) : Prop := 0 ≤ pr.level ∧ (pr.level = 0 → pr.hold < TIME_QUANTUM 0)

theorem Short.not_full (h : Short pr) : ¬ Full pr := by
  rintro ⟨hl, hh⟩
  have hlt := h.2 hl
  omega

/-- `p` is off the processor and waits for it. -/
structure Away (p : Slot) (m : Machine (policy K) Unit) : Prop where
  cpu : m.onCpu ≠ some p
  waiting : Waiting (m.table.proc p)

variable {p : Slot} {m m' : Machine (policy K) Unit} {l : Label Unit} {how : Leave}

theorem Away.quota (h : Away p m) (hs : m.step l = some m') :
    (refills p m l = true ∧ Full (m'.table.proc p)) ∨
    (refills p m l = false ∧ (Full (m.table.proc p) → Full (m'.table.proc p)) ∧
      (Short (m.table.proc p) → Short (m'.table.proc p))) := by
  have hquantum : TIME_QUANTUM 0 = 4 := rfl
  cases step_spent hs p with
  | refilled hr _ hlevel hhold => exact .inl ⟨hr, hlevel, hhold⟩
  | demoted _ hr _ _ =>
    refine .inr ⟨hr, ?_, ?_⟩
    · rintro ⟨-, hfull⟩
      omega
    · rintro ⟨hpos, -⟩
      exact ⟨by omega, fun h0 => by omega⟩
  | created _ hfree =>
    rcases h.waiting with hw | hw <;> rw [hfree] at hw <;> cases hw
  | yielded _ _ hcpu _ _ | charged _ _ hcpu _ _ _ => exact absurd hcpu h.cpu
  | kept he _ _ hlevel hhold =>
    have hr : refills p m l = false := by
      rw [enters, Bool.or_eq_false_iff, Bool.or_eq_false_iff] at he
      exact he.1.1
    refine Or.inr ⟨hr, ?_, ?_⟩
    · rw [Full, Full, hlevel, hhold]
      exact id
    · rw [Short, Short, hlevel, hhold]
      exact id

theorem running_other (t : PTable) (h : p ≠ q) : (running t q).proc p = t.proc p := by
  rw [running, modify_proc, if_neg h]

/-- A process stays away until it is switched to. -/
theorem Away.step (h : Away p m) (hs : m.step l = some m') (hd : m.dispatched l ≠ some p) : Away p m' := by
  have hcpu : m'.onCpu ≠ some p := by
    rcases step_onCpu hs with hon | ⟨-, hon⟩
    · rw [hon]
      exact hd
    · rw [hon]
      exact h.cpu
  refine ⟨hcpu, ?_⟩
  cases l with
  | tick =>
    cases hs
    exact h.waiting
  | wakeup chan =>
    cases hs
    exact (Carried.wakeup1 m.table chan p).waiting h.waiting
  | «section» i a =>
    obtain ⟨q, f, t, -, ha, rfl⟩ := step_section_eq_some hs
    rcases section_carried ha p with ⟨-, hc⟩ | ⟨-, hc⟩
    · exact hc.waiting h.waiting
    · rcases h.waiting with hw | hw <;> rw [hc.unused] at hw <;> cases hw
  | pass =>
    obtain ⟨flag, -, -, hend⟩ := step_pass_cases hs
    have hstate : (m'.table.proc p).state = (m.table.proc p).state := by
      rw [← queues_state K m.ticks flag m.table p]
      rcases hend with ⟨-, htable, -⟩ | ⟨-, f, q, -, -, hout, htable, -⟩
      · rw [htable]
        rfl
      · have hne : p ≠ q := fun he => hd (he ▸ dispatched_of_outcome hout)
        rw [htable, running_other _ hne]
    rw [Waiting, hstate]
    exact h.waiting
  | leave i how =>
    obtain ⟨q, f, hq, -, hend⟩ := step_leave_cases hs
    have hne : p ≠ q := fun he => h.cpu (he ▸ onCpu_process hq)
    have hw := (left_other how q m.table hne).waiting h.waiting
    rcases hend with ⟨-, htable, -⟩ | ⟨r, -, -, hout, htable, -⟩
    · rw [htable]
      exact hw
    · have hne' : p ≠ choose (left how q m.table) f.now_level r := fun he =>
        hd (he ▸ dispatched_of_outcome hout)
      rw [htable, running_other _ hne']
      exact hw

def Resets (how : Leave) : Prop := how = .yield2 ∨ ∃ chan, how = .sleep chan

theorem short_of_leave (hrange : Ranged K (m.table.proc p)) (hon : m.onCpu = some p)
    (hs : m.step (.leave () how) = some m') : Short (m'.table.proc p) := by
  have hquantum : TIME_QUANTUM 0 = 4 := rfl
  have hl := hrange.level
  have hh := hrange.hold.2
  cases step_spent hs p with
  | refilled hr => cases hr
  | demoted _ _ hcpu =>
    rw [hon] at hcpu
    cases hcpu
  | created hc => cases hc
  | yielded _ _ _ => exact ⟨by omega, fun _ => by omega⟩
  | charged _ _ _ _ hlevel hhold =>
    refine ⟨by omega, fun h0 => ?_⟩
    rw [hlevel] at h0
    rw [h0] at hh
    rw [hhold]
    split <;> omega
  | kept _ _ hcpu =>
    obtain ⟨hnone, hon'⟩ := hcpu hon
    rw [leave_onCpu hs, hnone] at hon'
    cases hon'

theorem away_of_leave (hhow : Resets how) (hon : m.onCpu = some p) (hs : m.step (.leave () how) = some m')
    (hd : m.dispatched (.leave () how) ≠ some p) : Away p m' := by
  refine ⟨by rw [leave_onCpu hs]; exact hd, ?_⟩
  obtain ⟨q, f, hcpu, -, hend⟩ := step_leave_cases hs
  have hq : q = p := Option.some.inj ((onCpu_process hcpu).symm.trans hon)
  subst hq
  have hw : Waiting ((left how q m.table).proc q) := by
    rw [left, charge_proc, if_pos rfl]
    rcases hhow with rfl | ⟨chan, rfl⟩
    · left
      simp only [Leave.run, PTable.yield2, modify_proc, if_true]
    · right
      simp only [Leave.run, PTable.sleep, modify_proc, if_true]
  rcases hend with ⟨-, htable, -⟩ | ⟨r, -, -, hout, htable, -⟩
  · rw [htable]
    exact hw
  · have hne : q ≠ choose (left how q m.table) f.now_level r := fun he =>
      hd (he ▸ dispatched_of_outcome hout)
    rw [htable, running_other _ hne]
    exact hw

/-- Since a process left, its quantum is full if a pass has refilled it and is not
otherwise. -/
theorem away_of_run {s s' : Machine (policy K) Unit} {tr : History (policy K)}
    (hr : Run (Steps step) s tr s') (ha : Away p s) (hshort : Short (s.table.proc p))
    (hd : Meets (fun m l => m.dispatched l ≠ some p) tr) :
    Away p s' ∧ (((∃ e ∈ tr, refills p e.1 e.2 = true) ∧ Full (s'.table.proc p)) ∨
      (Meets (fun m l => refills p m l = false) tr ∧ Short (s'.table.proc p))) := by
  induction hr with
  | start => exact ⟨ha, .inr ⟨meets_nil _, hshort⟩⟩
  | @snoc tr m m' l _ hs ih =>
    obtain ⟨hd, hl⟩ := meets_snoc.mp hd
    obtain ⟨haway, hquota⟩ := ih hd
    refine ⟨haway.step hs hl, ?_⟩
    rcases haway.quota hs with ⟨hrefill, hfull⟩ | ⟨hno, hfull, hshort'⟩
    · exact .inl ⟨⟨(m, l), by simp, hrefill⟩, hfull⟩
    · rcases hquota with ⟨⟨e, he, hrefill⟩, hf⟩ | ⟨hnone, hsh⟩
      · exact .inl ⟨⟨e, mem_append_left _ he, hrefill⟩, hfull hf⟩
      · exact .inr ⟨meets_snoc.mpr ⟨hnone, hno⟩, hshort' hsh⟩

theorem quota_of_dispatches (hs : m.step l = some m') (h : m.Dispatches l p t) : m'.table = running t p := by
  obtain ⟨f, hout⟩ := h
  cases l with
  | tick | wakeup | «section» => cases hout
  | pass i n | leave i how =>
    simp only [step, hout, Option.map_some, Option.some.injEq] at hs
    rw [← hs]
    rfl

/-- A process gives up the processor in `s`, through the `yield` system call or `sleep`, and is
switched to again first in `s'`. It is then in level 0 with a full quantum exactly if some
pass since, that of the switch included, has boosted or has found it asleep. -/
theorem full_at_next_turn_iff {m₀ m s s' : Machine (policy K) Unit} {tr : History (policy K)}
    {how : Leave} {l : Label Unit} {p : Slot} {t : PTable}
    (hr₀ : ∀ p, Ranged K (m₀.table.proc p)) (hr : Run (Steps Machine.step) m₀ tr m)
    (pre init post : History (policy K)) (htr : tr = pre ++ (init ++ (s', l) :: post))
    (hhead : (init ++ [(s', l)]).head? = some (s, .leave () how)) (hhow : Resets how)
    (hon : s.onCpu = some p) (hd : Meets (fun m l => m.dispatched l ≠ some p) init)
    (ht : s'.Dispatches l p t) :
    ((t.proc p).level = 0 ∧ (t.proc p).hold = TIME_QUANTUM 0) ↔
      ∃ e ∈ init ++ [(s', l)], refills p e.1 e.2 = true := by
  subst htr
  obtain ⟨s₀, hpre, hseg⟩ := hr.of_append
  have hranged : ∀ q, Ranged K (s₀.table.proc q) :=
    hpre.invariant (fun s l s' hs _ hstep => step_ranged hs hstep) hr₀ (C := fun _ _ => True)
      fun _ _ => trivial
  obtain ⟨hinit, s'', hs'', -⟩ := hseg.split
  obtain ⟨hl, hh⟩ := running_quota t p p
  rw [← hl, ← hh, ← quota_of_dispatches hs'' ht]
  cases init with
  | nil =>
    -- the scheduler switches back to the process in the step in which it left
    cases hinit.of_nil
    cases hhead
    have hshort := short_of_leave (hranged p) hon hs''
    refine ⟨fun hfull => absurd hfull hshort.not_full, ?_⟩
    rintro ⟨e, he, hrefill⟩
    cases mem_singleton.mp he
    cases hrefill
  | cons e rest =>
    cases hhead
    obtain ⟨rfl, s₁, hs, hrest⟩ := hinit.of_cons
    have hd₀ := hd _ mem_cons_self
    have hd' : Meets (fun m l => m.dispatched l ≠ some p) rest := fun e he => hd e (mem_cons_of_mem _ he)
    obtain ⟨haway, hquota⟩ := away_of_run hrest (away_of_leave hhow hon hs hd₀)
      (short_of_leave (hranged p) hon hs) hd'
    rcases haway.quota hs'' with ⟨hrefill, hfull⟩ | ⟨hno, hfull, hshort⟩
    · exact ⟨fun _ => ⟨(s', l), by simp, hrefill⟩, fun _ => hfull⟩
    · rcases hquota with ⟨⟨e, he, hrefill⟩, hf⟩ | ⟨hnone, hsh⟩
      · refine ⟨fun _ => ⟨e, ?_, hrefill⟩, fun _ => hfull hf⟩
        exact mem_append_left _ (mem_cons_of_mem _ he)
      · refine ⟨fun h => absurd h (hshort hsh).not_full, ?_⟩
        rintro ⟨e, he, hrefill⟩
        simp only [cons_append, mem_cons, mem_append, not_mem_nil, or_false] at he
        rcases he with rfl | he | rfl
        · cases hrefill
        · rw [hnone e he] at hrefill
          cases hrefill
        · rw [hno] at hrefill
          cases hrefill

/-- The first process sleeps until the clock wakes it, and a pass comes in between. -/
def nap : History (policy ⟨2, two_levels⟩) :=
  trace Machine.step (after Machine.step newborn (.pass () 0))
    [.leave () (.sleep .ticks), .pass () 0, .wakeup .ticks]

/-- The state in which the first process gets the processor back. -/
def napped : Machine (policy ⟨2, two_levels⟩) Unit :=
  [.pass () 0, .leave () (.sleep .ticks), .pass () 0, .wakeup .ticks].foldl (after Machine.step) newborn

theorem nap_full :
    ∃ t, napped.Dispatches (.pass () 0) 0 t ∧ (t.proc 0).level = 0 ∧ (t.proc 0).hold = TIME_QUANTUM 0 := by
  have hr : Run (Steps step) newborn (trace step newborn
      [.pass () 0, .leave () (.sleep .ticks), .pass () 0, .wakeup .ticks, .pass () 0]) _ :=
    run_trace (by decide +kernel)
  have hd : Meets (fun m l => m.dispatched l ≠ some 0) nap := by
    simp only [Meets, nap, trace, forall_mem_cons, not_mem_nil, false_implies,
      implies_true, and_true]
    decide +kernel
  have hdisp : napped.dispatched (.pass () 0) = some 0 := by decide +kernel
  obtain ⟨t, ht⟩ := dispatched_iff.mp hdisp
  have hiff := full_at_next_turn_iff newborn_ranged hr [(newborn, .pass () 0)] nap [] rfl rfl
    (Or.inr ⟨.ticks, rfl⟩) (by decide +kernel) hd ht
  refine ⟨t, ht, hiff.mpr ?_⟩
  refine ⟨_, mem_append_left _ (mem_cons_of_mem _ mem_cons_self), ?_⟩
  decide +kernel

/-- The first process calls `yield`; at its next turn a unit of its quantum is gone. -/
theorem yield_charged :
    ∃ tr m, Run (Steps Machine.step) newborn tr m ∧ Meets Alone tr ∧
      ∃ s s', tr = [(newborn, .pass () 0), (s, .leave () .yield2), (s', .pass () 0)] ∧
        s.onCpu = some 0 ∧ ∃ t, s'.Dispatches (.pass () 0) 0 t ∧ (t.proc 0).hold = 3 := by
  have hr : Run (Steps step) newborn
      (trace step newborn [.pass () 0, .leave () .yield2, .pass () 0]) _ :=
    run_trace (by decide +kernel)
  refine ⟨_, _, hr, meets_trace (by simp [Alone]), _, _, rfl, by decide +kernel, ?_⟩
  obtain ⟨t, ht⟩ := dispatched_iff.mp (show (after step (after step newborn
    (.pass () 0)) (.leave () .yield2)).dispatched (.pass () 0) = some 0 by decide +kernel)
  refine ⟨t, ht, ?_⟩
  rw [← (running_quota t 0 0).2, ← quota_of_dispatches (steps_after (by decide +kernel)) ht]
  decide +kernel

end Xv6.Sched.Mlfq
