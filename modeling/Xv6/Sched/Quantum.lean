import Xv6.Sched.Boost
import Xv6.Sched.Ranges

/-! # The quantum of a process

What one step does to `level` and `hold` of a slot is said once, in `step_spent`. Two
results over runs on one processor follow: the number of turns that a process has had in
its level, and what it finds when it gets the processor back after giving it up.
-/
namespace Xv6.Sched
open Function Machine

section OnCpu
variable {P : Policy}

/-- The process on the only processor. -/
def Machine.onCpu (m : Machine P Unit) : Option Slot :=
  match m.cpu () with
  | .process p _ => some p
  | .scheduler _ => none

theorem Machine.onCpu_process {m : Machine P Unit} (h : m.cpu () = .process p f) : m.onCpu = some p := by
  rw [onCpu, h]

theorem Machine.onCpu_scheduler {m : Machine P Unit} (h : m.cpu () = .scheduler l) : m.onCpu = none := by
  rw [onCpu, h]

end OnCpu

namespace Mlfq
open PTable
variable {K : MlfqK}

theorem queues_cases (K : MlfqK) (ticks : Word) (flag : Bool) (t : PTable) (p : Slot) :
    ((Boosts ticks flag ∨ (t.proc p).state = .sleeping) ∧
      ((queues K ticks flag t).proc p).level = 0 ∧ ((queues K ticks flag t).proc p).hold = 4) ∨
    (¬ Boosts ticks flag ∧ (t.proc p).state ≠ .sleeping ∧
      ((t.proc p).level < K.val - 1 ∧ (t.proc p).hold ≤ 0) ∧
      ((queues K ticks flag t).proc p).level = (t.proc p).level + 1 ∧
      ((queues K ticks flag t).proc p).hold = TIME_QUANTUM ((t.proc p).level + 1)) ∨
    (¬ Boosts ticks flag ∧ (t.proc p).state ≠ .sleeping ∧
      ¬ ((t.proc p).level < K.val - 1 ∧ (t.proc p).hold ≤ 0) ∧
      ((queues K ticks flag t).proc p).level = (t.proc p).level ∧
      ((queues K ticks flag t).proc p).hold = (t.proc p).hold) := by
  by_cases hb : Boosts ticks flag
  · exact .inl ⟨.inl hb, queues_boosted hb t p⟩
  · rw [queues_unboosted hb, requeue]
    by_cases hd : (t.proc p).level < K.val - 1 ∧ (t.proc p).hold ≤ 0
    · rw [if_pos hd]
      by_cases hs : (t.proc p).state = .sleeping
      · rw [if_pos hs]
        exact .inl ⟨.inr hs, rfl, rfl⟩
      · rw [if_neg hs]
        exact .inr (.inl ⟨hb, hs, hd, rfl, rfl⟩)
    · rw [if_neg hd]
      by_cases hs : (t.proc p).state = .sleeping
      · rw [if_pos hs]
        exact .inl ⟨.inr hs, rfl, rfl⟩
      · rw [if_neg hs]
        exact .inr (.inr ⟨hb, hs, hd, rfl, rfl⟩)

/-- A pass that boosts, for either reason, or that finds `p` asleep. -/
def refill (K : MlfqK) (p : Slot) (ticks : Word) (flag : Bool) (t : PTable) : Bool :=
  Boosts ticks flag ∨ Starved K (queues K ticks flag t) ∨ (t.proc p).state = .sleeping

/-- A pass that moves `p` down, its quantum being used up. -/
def demotion (K : MlfqK) (p : Slot) (ticks : Word) (flag : Bool) (t : PTable) : Bool :=
  ¬ Boosts ticks flag ∧ (t.proc p).level < K.val - 1 ∧ (t.proc p).hold ≤ 0

def refills (p : Slot) (m : Machine (policy K) Unit) : Label Unit → Bool
  | .pass _ _ =>
    match m.cpu () with
    | .scheduler flag => refill K p m.ticks flag m.table
    | .process _ _ => false
  | _ => false

def demotes (p : Slot) (m : Machine (policy K) Unit) : Label Unit → Bool
  | .pass _ _ =>
    match m.cpu () with
    | .scheduler flag => demotion K p m.ticks flag m.table
    | .process _ _ => false
  | _ => false

def creates (p : Slot) (m : Machine (policy K) Unit) : Label Unit → Bool
  | .section _ a => a.allocates m.table = some p
  | _ => false

/-- `p` calls `yield`. -/
def yields (p : Slot) (m : Machine (policy K) Unit) : Label Unit → Bool
  | .leave _ .yield2 => m.onCpu = some p
  | _ => false

/-- `p` enters a level: by creation, demotion, a boost or the reset of a sleeper. -/
def enters (p : Slot) (m : Machine (policy K) Unit) (l : Label Unit) : Bool :=
  refills p m l || demotes p m l || creates p m l

/-- All that a step can do to the level and the quantum of `p`. -/
inductive Spent (p : Slot) (m : Machine (policy K) Unit) (l : Label Unit)
    (m' : Machine (policy K) Unit) : Prop
  | refilled (h : refills p m l = true) (hcpu : m.onCpu = none)
      (hlevel : (m'.table.proc p).level = 0) (hhold : (m'.table.proc p).hold = 4)
  | demoted (h : demotes p m l = true) (hr : refills p m l = false) (hcpu : m.onCpu = none)
      (hlast : (m.table.proc p).level < K.val - 1) (hspent : (m.table.proc p).hold ≤ 0)
      (hlevel : (m'.table.proc p).level = (m.table.proc p).level + 1)
      (hhold : (m'.table.proc p).hold = TIME_QUANTUM ((m.table.proc p).level + 1))
  | created (h : creates p m l = true) (hfree : (m.table.proc p).state = .unused)
      (hlevel : (m'.table.proc p).level = 0) (hhold : (m'.table.proc p).hold = 4)
  | yielded (h : yields p m l = true) (he : enters p m l = false) (hcpu : m.onCpu = some p)
      (hlevel : (m'.table.proc p).level = 0) (hhold : (m'.table.proc p).hold = 3)
  | charged (he : enters p m l = false) (hy : yields p m l = false) (hcpu : m.onCpu = some p)
      (hcpu' : m'.onCpu = m.dispatched l)
      (hlevel : (m'.table.proc p).level = (m.table.proc p).level)
      (hhold : (m'.table.proc p).hold =
        if 0 < (m.table.proc p).hold then (m.table.proc p).hold - 1 else (m.table.proc p).hold)
  | kept (he : enters p m l = false) (hy : yields p m l = false)
      (hcpu : m.onCpu = some p → m.dispatched l = none ∧ m'.onCpu = some p)
      (hlevel : (m'.table.proc p).level = (m.table.proc p).level)
      (hhold : (m'.table.proc p).hold = (m.table.proc p).hold)

variable {p : Slot} {m m' : Machine (policy K) Unit} {flag : Bool} {n : ℕ} {how : Leave} {l : Label Unit} {c : Option ℕ}

theorem refills_pass (h : m.cpu () = .scheduler flag) (n : ℕ) :
    refills p m (.pass () n) = refill K p m.ticks flag m.table := by
  rw [refills, h]

theorem demotes_pass (h : m.cpu () = .scheduler flag) (n : ℕ) :
    demotes p m (.pass () n) = demotion K p m.ticks flag m.table := by
  rw [demotes, h]

theorem pass_onCpu (h : m.step (.pass () n) = some m') : m'.onCpu = m.dispatched (.pass () n) := by
  obtain ⟨flag, hcpu, -, ⟨hs, -, hcpu'⟩ | ⟨-, f, p, -, -, hout, -, hcpu'⟩⟩ := step_pass_cases h
  · have hout : m.outcome (.pass () n) = some (pass K m.ticks (m.ticks + BitVec.ofNat 32 n) flag m.table) :=
      outcome_pass hcpu n
    rcases pass_cases K m.ticks (m.ticks + BitVec.ofNat 32 n) flag m.table with ⟨-, hp⟩ | ⟨hs', -⟩
    · rw [dispatched, hout, hp, onCpu, hcpu', update_self]
    · exact absurd hs hs'
  · rw [dispatched_of_outcome hout, onCpu, hcpu', update_self]

theorem leave_onCpu (h : m.step (.leave () how) = some m') : m'.onCpu = m.dispatched (.leave () how) := by
  obtain ⟨p, f, hcpu, -, ⟨hnone, -, hcpu'⟩ | ⟨q, -, -, hout, -, hcpu'⟩⟩ := step_leave_cases h
  · have hout : m.outcome (.leave () how) = some (scan (left how p m.table) f (slots.filter (p < ·))) :=
      outcome_leave hcpu how
    rcases scan_cases (left how p m.table) f (slots.filter (p < ·)) with ⟨-, hs⟩ | ⟨q, hq, -⟩
    · rw [dispatched, hout, hs, onCpu, hcpu', update_self]
    · rw [hnone] at hq
      cases hq
  · rw [dispatched_of_outcome hout, onCpu, hcpu', update_self]

theorem pass_spent (h : m.step (.pass () n) = some m') : Spent p m (.pass () n) m' := by
  obtain ⟨flag, hcpu, -, hend⟩ := step_pass_cases h
  have hon := onCpu_scheduler hcpu
  have hr := refills_pass (p := p) hcpu n
  have hd := demotes_pass (p := p) hcpu n
  rcases hend with ⟨hs, htable, -⟩ | ⟨hs, f, q, -, -, -, htable, -⟩
  · refine .refilled ?_ hon ?_ ?_
    · rw [hr]
      exact decide_eq_true (.inr (.inl hs))
    · rw [htable]
      rfl
    · rw [htable]
      rfl
  · obtain ⟨hl, hh⟩ := running_quota (queues K m.ticks flag m.table) q p
    rw [← htable] at hl hh
    rcases queues_cases K m.ticks flag m.table p with
      ⟨hfill, hl', hh'⟩ | ⟨hb, hsleep, hdown, hl', hh'⟩ | ⟨hb, hsleep, hdown, hl', hh'⟩
    · refine .refilled ?_ hon (hl.trans hl') (hh.trans hh')
      rw [hr]
      refine decide_eq_true ?_
      rcases hfill with hb | hsleep
      · exact .inl hb
      · exact .inr (.inr hsleep)
    · have hno : refills p m (.pass () n) = false := by
        rw [hr]
        exact decide_eq_false (by rintro (h | h | h) <;> contradiction)
      refine .demoted ?_ hno hon hdown.1 hdown.2 (hl.trans hl') (hh.trans hh')
      rw [hd]
      exact decide_eq_true ⟨hb, hdown⟩
    · have hno : refills p m (.pass () n) = false := by
        rw [hr]
        exact decide_eq_false (by rintro (h | h | h) <;> contradiction)
      have hno' : demotes p m (.pass () n) = false := by
        rw [hd]
        exact decide_eq_false fun h => hdown h.2
      refine .kept ?_ rfl (fun hp => ?_) (hl.trans hl') (hh.trans hh')
      · rw [enters, hno, hno']
        rfl
      · rw [hon] at hp
        cases hp

theorem leave_spent (h : m.step (.leave () how) = some m') : Spent p m (.leave () how) m' := by
  obtain ⟨q, f, hcpu, -, hend⟩ := step_leave_cases h
  have hon := onCpu_process hcpu
  have hquota : (m'.table.proc p).level = ((left how q m.table).proc p).level ∧
      (m'.table.proc p).hold = ((left how q m.table).proc p).hold := by
    rcases hend with ⟨-, htable, -⟩ | ⟨r, -, -, -, htable, -⟩
    · rw [htable]
      exact ⟨rfl, rfl⟩
    · rw [htable]
      exact running_quota _ _ p
  obtain ⟨hl, hh⟩ := hquota
  by_cases hp : p = q
  · subst hp
    obtain ⟨hyield, hother⟩ := left_self how p m.table
    by_cases hy : how = .yield2
    · obtain ⟨hl', hh'⟩ := hyield hy
      subst hy
      exact .yielded (decide_eq_true hon) rfl hon (hl.trans hl') (hh.trans hh')
    · obtain ⟨hl', hh'⟩ := hother hy
      have hno : yields p m (.leave () how) = false := by
        cases how with
        | yield2 => exact absurd rfl hy
        | _ => rfl
      exact .charged rfl hno hon (leave_onCpu h) (hl.trans hl') (hh.trans hh')
  · have hc := left_other how q m.table hp
    have hno : yields p m (.leave () how) = false := by
      cases how with
      | yield2 =>
        refine decide_eq_false ?_
        rw [hon]
        exact fun he => hp (Option.some.inj he).symm
      | _ => rfl
    refine .kept rfl hno (fun he => ?_) (hl.trans hc.level) (hh.trans hc.hold)
    rw [hon] at he
    exact absurd (Option.some.inj he).symm hp

theorem step_spent (h : m.step l = some m') (p : Slot) : Spent p m l m' := by
  cases l with
  | tick =>
    cases h
    exact .kept rfl rfl (fun hp => ⟨rfl, hp⟩) rfl rfl
  | wakeup chan =>
    cases h
    have hc := Carried.wakeup1 m.table chan p
    exact .kept rfl rfl (fun hp => ⟨rfl, hp⟩) hc.level hc.hold
  | «section» i a =>
    obtain ⟨q, f, t, hcpu, hrun, rfl⟩ := step_section_eq_some h
    rcases section_carried hrun p with ⟨ha, hc⟩ | ⟨ha, hc⟩
    · have hno : creates p m (.section i a) = false := decide_eq_false ha
      exact .kept (by rw [enters, hno]; rfl) rfl (fun hp => ⟨rfl, hp⟩) hc.level hc.hold
    · exact .created (decide_eq_true ha) hc.unused hc.level hc.hold
  | pass => exact pass_spent h
  | leave => exact leave_spent h

theorem step_onCpu (h : m.step l = some m') :
    m'.onCpu = m.dispatched l ∨ (m.dispatched l = none ∧ m'.onCpu = m.onCpu) := by
  cases l with
  | tick | wakeup chan =>
    cases h
    exact .inr ⟨rfl, rfl⟩
  | «section» i a =>
    obtain ⟨q, f, t, -, -, rfl⟩ := step_section_eq_some h
    exact .inr ⟨rfl, rfl⟩
  | pass => exact .inl (pass_onCpu h)
  | leave => exact .inl (leave_onCpu h)

/-- A process is switched to only while it is ready. -/
theorem running_of_dispatched (h : m.step l = some m') (hp : m.dispatched l = some p) :
    (m'.table.proc p).state = .running ∧ 0 < (m'.table.proc p).hold := by
  have hrun : ∀ (t : PTable) (q : Slot), Ready t q → ((running t q).proc q).state = .running ∧
      0 < ((running t q).proc q).hold := by
    intro t q hq
    rw [running, modify_proc, if_pos rfl]
    exact ⟨rfl, hq.2⟩
  cases l with
  | tick | wakeup | «section» => cases hp
  | pass =>
    obtain ⟨flag, -, -, ⟨hs, -, hcpu'⟩ | ⟨-, f, q, -, hready, hout, htable, -⟩⟩ := step_pass_cases h
    · have hnone := pass_onCpu h
      rw [hp, onCpu, hcpu', update_self] at hnone
      cases hnone
    · rw [dispatched_of_outcome hout] at hp
      cases hp
      rw [htable]
      exact hrun _ _ hready.1
  | leave =>
    obtain ⟨r, f, -, -, ⟨hs, -, hcpu'⟩ | ⟨q, -, hready, hout, htable, -⟩⟩ := step_leave_cases h
    · have hnone := leave_onCpu h
      rw [hp, onCpu, hcpu', update_self] at hnone
      cases hnone
    · rw [dispatched_of_outcome hout] at hp
      cases hp
      rw [htable]
      exact hrun _ _ (best_ok slots hready : ReadyAt _ _ _).1

theorem running_used (hq : Ready t q)
    (h : ((running t q).proc p).state ≠ .unused) : (t.proc p).state ≠ .unused := by
  rw [running, modify_proc] at h
  split at h
  case isTrue heq =>
    rw [heq, hq.1]
    decide
  case isFalse => exact h

/-- A slot comes into use by creation only. -/
theorem used_of_step (h : m.step l = some m') (hon : m.onCpu = some p → (m.table.proc p).state = .running)
    (hu : (m'.table.proc p).state ≠ .unused) : creates p m l = true ∨ (m.table.proc p).state ≠ .unused := by
  cases l with
  | tick =>
    cases h
    exact .inr hu
  | wakeup chan =>
    cases h
    exact .inr ((Carried.wakeup1 m.table chan p).used hu)
  | «section» i a =>
    obtain ⟨q, f, t, hcpu, hrun, rfl⟩ := step_section_eq_some h
    rcases section_carried hrun p with ⟨-, hc⟩ | ⟨ha, -⟩
    · exact .inr (hc.used hu)
    · exact .inl (decide_eq_true ha)
  | pass =>
    right
    obtain ⟨flag, -, -, ⟨-, htable, -⟩ | ⟨-, f, q, -, hready, -, htable, -⟩⟩ := step_pass_cases h
    · rw [htable] at hu
      rw [← queues_state K m.ticks flag m.table p]
      exact hu
    · rw [htable] at hu
      rw [← queues_state K m.ticks flag m.table p]
      exact running_used hready.1 hu
  | leave i how =>
    right
    obtain ⟨q, f, hcpu, -, hend⟩ := step_leave_cases h
    by_cases hp : p = q
    · rw [hon (hp ▸ onCpu_process hcpu)]
      decide
    · refine (left_other how q m.table hp).used ?_
      rcases hend with ⟨-, htable, -⟩ | ⟨r, -, hready, -, htable, -⟩
      · rw [htable] at hu
        exact hu
      · rw [htable] at hu
        exact running_used (best_ok slots hready : ReadyAt _ _ _).1 hu

/-- The turns of `p` since it entered its level, after one more step; none are counted once
it has called `yield` there. -/
def account (p : Slot) (m : Machine (policy K) Unit) (l : Label Unit) (c : Option ℕ) : Option ℕ :=
  let c := if enters p m l then some 0 else if yields p m l then none else c
  if m.dispatched l = some p then c.map (· + 1) else c

def turns (p : Slot) (tr : History (policy K)) : Option ℕ :=
  tr.foldl (fun c e => account p e.1 e.2 c) (some 0)

/-- Turns and what is left of the quantum add up; the turn on the processor is charged at
its end. -/
structure Books (p : Slot) (c : Option ℕ) (m : Machine (policy K) Unit) : Prop where
  ranged : Ranged K (m.table.proc p)
  running : m.onCpu = some p → (m.table.proc p).state = .running ∧ 0 < (m.table.proc p).hold
  quota : (m.table.proc p).state ≠ .unused → ∀ n, c = some n →
    (n : ℤ) + (m.table.proc p).hold =
      2 * (m.table.proc p).level + 4 + if m.onCpu = some p then 1 else 0

theorem Books.before (hb : Books p c m) (h : m.step l = some m') (hu : (m'.table.proc p).state ≠ .unused)
    (hn : (if enters p m l then some 0 else if yields p m l then none else c) = some n) :
    (n : ℤ) + (m'.table.proc p).hold = 2 * (m'.table.proc p).level + 4 +
      if m.dispatched l = none ∧ m'.onCpu = some p then 1 else 0 := by
  have hK := K.property
  have hl := hb.ranged.level
  -- a process that is not on the processor gets there by a switch only
  have hoff : m.onCpu ≠ some p → ¬ (m.dispatched l = none ∧ m'.onCpu = some p) := by
    rintro hne ⟨hnone, hp⟩
    rcases step_onCpu h with h | ⟨-, h⟩
    · rw [h, hnone] at hp
      cases hp
    · exact hne (h.symm.trans hp)
  have hcount : enters p m l = false → yields p m l = false → c = some n := by
    intro he hy
    rw [he, hy] at hn
    exact hn
  cases step_spent h p with
  | refilled he hcpu hlevel hhold =>
    rw [enters, he] at hn
    cases hn
    rw [if_neg (hoff (by rw [hcpu]; exact nofun)), hlevel, hhold]
    rfl
  | demoted he hr hcpu hlast hspent hlevel hhold =>
    rw [enters, he, Bool.or_true] at hn
    cases hn
    rw [if_neg (hoff (by rw [hcpu]; exact nofun)), hlevel, hhold, TIME_QUANTUM_eq (by omega) (by omega)]
    omega
  | created he hfree hlevel hhold =>
    rw [enters, he, Bool.or_true] at hn
    cases hn
    rw [if_neg (hoff fun hp => by rw [(hb.running hp).1] at hfree; cases hfree), hlevel, hhold]
    rfl
  | yielded hy he =>
    rw [he, hy] at hn
    cases hn
  | charged he hy hcpu hcpu' hlevel hhold =>
    obtain ⟨hrun, hpos⟩ := hb.running hcpu
    have hq := hb.quota (by rw [hrun]; decide) n (hcount he hy)
    have hno : ¬ (m.dispatched l = none ∧ m'.onCpu = some p) := by
      rintro ⟨hnone, hp⟩
      rw [hcpu', hnone] at hp
      cases hp
    rw [if_pos hcpu] at hq
    rw [if_neg hno, hlevel, hhold, if_pos hpos]
    omega
  | kept he hy hcpu hlevel hhold =>
    have hused : (m.table.proc p).state ≠ .unused := by
      rcases used_of_step h (fun hp => (hb.running hp).1) hu with hc | hused
      · rw [enters, hc, Bool.or_true] at he
        cases he
      · exact hused
    have hq := hb.quota hused n (hcount he hy)
    rw [hlevel, hhold, hq]
    by_cases hp : m.onCpu = some p
    · rw [if_pos hp, if_pos (hcpu hp)]
    · rw [if_neg hp, if_neg (hoff hp)]

theorem running_of_stays (h : m.step l = some m') (hd : m.dispatched l = none) (hp : m'.onCpu = some p)
    (hrun : (m.table.proc p).state = .running ∧ 0 < (m.table.proc p).hold) :
    (m'.table.proc p).state = .running ∧ 0 < (m'.table.proc p).hold := by
  have hcarried : Carried (m.table.proc p) (m'.table.proc p) := by
    cases l with
    | tick =>
      cases h
      exact .refl _
    | wakeup chan =>
      cases h
      exact Carried.wakeup1 m.table chan p
    | «section» i a =>
      obtain ⟨q, f, t, -, ha, rfl⟩ := step_section_eq_some h
      rcases section_carried ha p with ⟨-, hc⟩ | ⟨-, hc⟩
      · exact hc
      · rw [hc.unused] at hrun
        cases hrun.1
    | pass =>
      rw [pass_onCpu h, hd] at hp
      cases hp
    | leave =>
      rw [leave_onCpu h, hd] at hp
      cases hp
  exact ⟨hcarried.running hrun.1, hcarried.hold ▸ hrun.2⟩

theorem Books.step (hb : Books p c m) (h : m.step l = some m') (hr : ∀ q, Ranged K (m.table.proc q)) :
    Books p (account p m l c) m' where
  ranged := step_ranged hr h p
  running := by
    intro hp
    rcases step_onCpu h with hon | ⟨hnone, hon⟩
    · exact running_of_dispatched h (hon.symm.trans hp)
    · exact running_of_stays h hnone hp (hb.running (hon.symm.trans hp))
  quota := by
    intro hu n hn
    simp only [account] at hn
    by_cases hd : m.dispatched l = some p
    · rw [if_pos hd] at hn
      obtain ⟨k, hk, rfl⟩ := Option.map_eq_some_iff.mp hn
      have hq := hb.before h hu hk
      have hon : m'.onCpu = some p := by
        rcases step_onCpu h with hon | ⟨hnone, -⟩
        · exact hon.trans hd
        · rw [hd] at hnone
          cases hnone
      rw [if_neg (by rw [hd]; exact fun hc => nomatch hc.1)] at hq
      rw [if_pos hon]
      omega
    · rw [if_neg hd] at hn
      rw [hb.before h hu hn]
      have hiff : (m.dispatched l = none ∧ m'.onCpu = some p) ↔ m'.onCpu = some p := by
        refine ⟨And.right, fun hp => ⟨?_, hp⟩⟩
        rcases step_onCpu h with hon | ⟨hnone, -⟩
        · exact absurd (hon.symm.trans hp) hd
        · exact hnone
      simp only [hiff]

theorem books_kept {m0 m : Machine (policy K) Unit} {tr : History (policy K)}
    (hcpu : m0.cpu () = .scheduler flag) (hr0 : ∀ p, Ranged K (m0.table.proc p))
    (hfull : ∀ p, (m0.table.proc p).state ≠ .unused →
      (m0.table.proc p).hold = TIME_QUANTUM (m0.table.proc p).level)
    (hr : Run (Steps step) m0 tr m) (p : Slot) : Books p (turns p tr) m := by
  have hK := K.property
  induction hr with
  | start =>
    refine ⟨hr0 p, ?_, ?_⟩
    · intro hp
      rw [onCpu_scheduler hcpu] at hp
      cases hp
    · intro hu n hn
      cases hn
      have hl := (hr0 p).level
      rw [if_neg (by rw [onCpu_scheduler hcpu]; exact nofun), hfull p hu,
        TIME_QUANTUM_eq (by omega) (by omega)]
      omega
  | @snoc tr m m' l hr hs ih =>
    have hranged : ∀ q, Ranged K (m.table.proc q) :=
      hr.invariant (fun s l s' hs _ hstep => step_ranged hs hstep) hr0 (C := fun _ _ => True)
        fun _ _ => trivial
    rw [turns, List.foldl_append]
    exact ih.step hs hranged

/-- With the quantum of the last level used up, a step that switches to the process is one
that refills the quantum or in which the process calls `yield`. -/
theorem Books.not_dispatched (hb : Books p (some n) m) (hu : (m.table.proc p).state ≠ .unused)
    (hlast : (m.table.proc p).level = K.val - 1) (hn : (n : ℤ) = 2 * (K.val - 1) + 4)
    (hs : m.step l = some m') (he : enters p m l = false) (hy : yields p m l = false) :
    m.dispatched l ≠ some p := by
  intro hd
  have hq := hb.quota hu n rfl
  have hpos := (running_of_dispatched hs hd).2
  cases step_spent hs p with
  | refilled h =>
    rw [enters, h] at he
    cases he
  | demoted => omega
  | created _ hfree => exact hu hfree
  | yielded h =>
    rw [h] at hy
    cases hy
  | charged _ _ hon _ _ hhold =>
    rw [if_pos hon] at hq
    rw [hhold, if_pos (by omega)] at hpos
    omega
  | kept _ _ hon =>
    by_cases hp : m.onCpu = some p
    · rw [hd] at hon
      cases (hon hp).1
    · rw [if_neg hp] at hq
      omega

/-- The slot holds no process, or one that has used up the quantum of the last level. -/
structure UsedUp (p : Slot) (n : ℕ) (m : Machine (policy K) Unit) : Prop where
  ranged : ∀ q, Ranged K (m.table.proc q)
  books : Books p (some n) m
  last : (m.table.proc p).state ≠ .unused → (m.table.proc p).level = K.val - 1

theorem UsedUp.step (hn : (n : ℤ) = 2 * (K.val - 1) + 4) (h : UsedUp p n m) (hs : m.step l = some m')
    (he : enters p m l = false) (hy : yields p m l = false) : UsedUp p n m' ∧ m.dispatched l ≠ some p := by
  have hused : (m'.table.proc p).state ≠ .unused → (m.table.proc p).state ≠ .unused := by
    intro hu
    rcases used_of_step hs (fun hp => (h.books.running hp).1) hu with hc | hu
    · rw [enters, hc, Bool.or_true] at he
      cases he
    · exact hu
  have hd : m.dispatched l ≠ some p := by
    intro hd
    have hu := hused (by rw [(running_of_dispatched hs hd).1]; decide)
    exact h.books.not_dispatched hu (h.last hu) hn hs he hy hd
  have hcount : account p m l (some n) = some n := by
    simp only [account, he, hy, if_neg hd, Bool.false_eq_true, if_false]
  refine ⟨⟨step_ranged h.ranged hs, hcount ▸ h.books.step hs h.ranged, ?_⟩, hd⟩
  intro hu
  have hlast := h.last (hused hu)
  cases step_spent hs p with
  | refilled hr =>
    rw [enters, hr] at he
    cases he
  | demoted => omega
  | created _ hfree => exact absurd hfree (hused hu)
  | yielded h =>
    rw [h] at hy
    cases hy
  | charged _ _ _ _ hlevel _ | kept _ _ _ hlevel _ => exact hlevel.trans hlast

/-- For a process that has not called `yield` since it entered its level: its turns there and
its `hold` add up to the quantum, one more while it is on the processor; it moves down only
after a full quantum of turns; and with the quantum of the last level used up it is not
switched to before a boost or the reset of a sleeper. -/
theorem quantum_accounting {m₀ m : Machine (policy K) Unit} {tr : History (policy K)} {flag : Bool}
    (hcpu : m₀.cpu () = .scheduler flag) (hr₀ : ∀ p, Ranged K (m₀.table.proc p))
    (hfull : ∀ p, (m₀.table.proc p).state ≠ .unused →
      (m₀.table.proc p).hold = TIME_QUANTUM (m₀.table.proc p).level)
    (hr : Run (Steps Machine.step) m₀ tr m) {p : Slot} {n : ℕ}
    (hu : (m.table.proc p).state ≠ .unused) (hn : turns p tr = some n) :
    (m.onCpu ≠ some p → (n : ℤ) + (m.table.proc p).hold = 2 * (m.table.proc p).level + 4) ∧
    (m.onCpu = some p → (n : ℤ) + (m.table.proc p).hold = 2 * (m.table.proc p).level + 5) ∧
    (∀ l m', Steps Machine.step m l m' →
      (m'.table.proc p).level = (m.table.proc p).level + 1 →
        (n : ℤ) = 2 * (m.table.proc p).level + 4) ∧
    ((m.table.proc p).level = K.val - 1 → (n : ℤ) = 2 * (K.val - 1) + 4 →
      ∀ tr' m', Run (Steps Machine.step) m tr' m' →
        Meets (fun s l => enters p s l = false ∧ yields p s l = false) tr' →
          Meets (fun s l => s.dispatched l ≠ some p) tr') := by
  have hb := books_kept hcpu hr₀ hfull hr p
  have hq := hb.quota hu n hn
  have hrange := hb.ranged.level
  have hhold := hb.ranged.hold.1
  refine ⟨?_, ?_, ?_, ?_⟩
  · intro hoff
    rw [if_neg hoff] at hq
    omega
  · intro hon
    rw [if_pos hon] at hq
    omega
  · intro l m' hs hdown
    cases step_spent hs p with
    | refilled _ _ hlevel _ => omega
    | demoted _ _ hoff _ hspent _ _ =>
      rw [if_neg (by rw [hoff]; exact nofun)] at hq
      omega
    | created _ hfree _ _ => exact absurd hfree hu
    | yielded _ _ _ hlevel _ => omega
    | charged _ _ _ _ hlevel _ => omega
    | kept _ _ _ hlevel _ => omega
  · intro hlast hspent tr' m' hr' hc
    have hranged : ∀ q, Ranged K (m.table.proc q) := fun q => (books_kept hcpu hr₀ hfull hr q).ranged
    rw [hn] at hb
    exact hr'.meets (fun s l s' hs hc hstep => hs.step hspent hstep hc.1 hc.2)
      (⟨hranged, hb, fun _ => hlast⟩ : UsedUp p n m) hc

/-- The first process, just created. -/
def newborn : Machine (policy ⟨2, two_levels⟩) Unit where
  table := ⟨fun p => if p = 0 then { pid := 1, state := .runnable, hold := 4 } else {}, 2, some 0⟩
  ticks := 1
  cpu := fun _ => .scheduler true

theorem newborn_ranged : ∀ p, Ranged ⟨2, by decide⟩ (newborn.table.proc p) := by
  have h : ∀ p, (0 ≤ (newborn.table.proc p).level ∧ (newborn.table.proc p).level < 2) ∧
      (0 ≤ (newborn.table.proc p).hold ∧
        (newborn.table.proc p).hold ≤ TIME_QUANTUM (newborn.table.proc p).level) ∧
      (0 ≤ (newborn.table.proc p).priority ∧ (newborn.table.proc p).priority ≤ 10) := by
    decide +kernel
  exact fun p => ⟨(h p).1, (h p).2.1, (h p).2.2⟩

/-- One turn later it has had one turn and three are left. -/
theorem newborn_one_turn :
    turns 0 (trace Machine.step newborn [.pass () 0, .tick, .leave () .yield]) = some 1 ∧
      ((1 : ℕ) : ℤ) + (([.pass () 0, .tick, .leave () .yield].foldl (after Machine.step)
        newborn).table.proc 0).hold = 2 * (([.pass () 0, .tick, .leave () .yield].foldl
          (after Machine.step) newborn).table.proc 0).level + 4 := by
  have hr : Run (Steps step) newborn
      (trace step newborn [.pass () 0, .tick, .leave () .yield]) _ :=
    run_trace (by decide +kernel)
  have hfull : ∀ p, (newborn.table.proc p).state ≠ .unused →
      (newborn.table.proc p).hold = TIME_QUANTUM (newborn.table.proc p).level := by
    decide +kernel
  have hn : turns 0 (trace step newborn [.pass () 0, .tick, .leave () .yield]) = some 1 := by
    decide +kernel
  exact ⟨hn, (quantum_accounting rfl newborn_ranged hfull hr (by decide +kernel) hn).1
    (by decide +kernel)⟩

/-- During its first turn the turn counts already, and `hold` is still 4. -/
theorem newborn_on_cpu :
    ∃ tr m n, Run (Steps Machine.step) newborn tr m ∧ turns 0 tr = some n ∧
      (m.table.proc 0).state ≠ .unused ∧
      (n : ℤ) + (m.table.proc 0).hold ≠ 2 * (m.table.proc 0).level + 4 := by
  have hr : Run (Steps step) newborn (trace step newborn [.pass () 0]) _ :=
    run_trace (by decide +kernel)
  refine ⟨_, _, 1, hr, ?_, ?_, ?_⟩ <;> decide +kernel

end Mlfq
end Xv6.Sched
