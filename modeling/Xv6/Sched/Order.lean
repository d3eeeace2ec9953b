import Xv6.Sched.Boost
import Xv6.Sched.Mlq

/-! # Which process a scan chooses

Both schedulers search the whole table from the slot at which the scan stands, and keep the
first best candidate: the highest priority in a level, the earliest `time_c` in the odd
queue. Among equals the choice therefore depends on where the scan stands and on the slots.
-/
namespace Xv6.Sched
open PTable Machine

theorem slots_sorted : slots.Pairwise (· < ·) := List.pairwise_lt_finRange NPROC

namespace Mlfq
variable {K : MlfqK}

/-- A scan that stands at `q` chooses `p`: no ready process of the level has a higher
priority, and an equal one is passed over only if it comes later. -/
def Ahead (t : PTable) (l : ℤ) (q p : Slot) : Prop :=
  (∀ r, ReadyAt t l r → (t.proc r).priority ≤ (t.proc p).priority) ∧
    (p = q ∨ (t.proc q).priority < (t.proc p).priority ∧
      ∀ r < p, ReadyAt t l r → (t.proc r).priority < (t.proc p).priority)

instance (t : PTable) (l : ℤ) (q p : Slot) : Decidable (Ahead t l q p) :=
  inferInstanceAs (Decidable (_ ∧ _))

theorem choose_eq_iff (hq : ReadyAt t l q) (hp : ReadyAt t l p) : choose t l q = p ↔ Ahead t l q p := by
  rw [choose, best_eq_iff (fun r => -(t.proc r).priority) (fun _ _ => Int.neg_lt_neg_iff.symm)
    slots_sorted mem_slots hq, Ahead]
  simp only [Int.neg_le_neg_iff, Int.neg_lt_neg_iff, hp, true_and]

/-- The slots that the scan has still to visit when the scheduler runs next. -/
def positions (m : Machine (policy K) Unit) : List Slot :=
  match m.cpu () with
  | .scheduler _ => slots
  | .process p _ => slots.filter (p < ·)

theorem outcome_choose {m : Machine (policy K) Unit} {l : Label Unit} {f : Frame} {q : Slot} {t : PTable}
    (h : m.outcome l = some (.swtch f q t)) :
    ∃ r, (positions m).find? (fun r => ReadyAt t f.now_level r) = some r ∧
      ReadyAt t f.now_level r ∧ q = choose t f.now_level r := by
  cases l with
  | tick | wakeup | «section» => cases h
  | pass i n =>
    cases hcpu : m.cpu () with
    | process => simp only [outcome, hcpu, reduceCtorEq] at h
    | scheduler flag =>
      have hp := (pass_eq K m.ticks (m.ticks + BitVec.ofNat 32 n) flag m.table).symm.trans
        (Option.some.inj ((outcome_pass hcpu n).symm.trans h))
      rw [select] at hp
      split at hp
      case isTrue => cases hp
      case isFalse =>
        rw [positions, hcpu]
        exact (scan_swtch hp).2
  | leave i how =>
    cases hcpu : m.cpu () with
    | scheduler => simp only [outcome, hcpu, reduceCtorEq] at h
    | process p f' =>
      have hp : resume f' p (how.run p m.table) = .swtch f q t :=
        Option.some.inj ((outcome_leave hcpu how).symm.trans h)
      rw [positions, hcpu]
      exact (scan_swtch hp).2

/-- The process that a step switches to from level `l`, with its pid. -/
def dispatchFrom (l : ℤ) (e : Machine (policy K) Unit × Label Unit) : Option (Slot × ℤ) :=
  match e.1.outcome e.2 with
  | some (.swtch _ p t) => if (t.proc p).level = l then some (p, (t.proc p).pid) else none
  | _ => none

/-- The process that was last switched to from level `l`. -/
def lastFrom (l : ℤ) (tr : History (policy K)) : Option (Slot × ℤ) :=
  tr.reverse.findSome? (dispatchFrom l)

/-- At every switch of a run to a process of level `l`: the process `p` that was last
switched to from that level, if it is still there, `RUNNABLE` and with some of its quantum
left, is the one switched to exactly if it is ahead from where the scan stands. -/
theorem last_process_continues_iff {m₀ m s : Machine (policy K) Unit} {tr : History (policy K)}
    (_hr : Run (Steps Machine.step) m₀ tr m) (pre post : History (policy K)) {a : Label Unit}
    (_htr : tr = pre ++ (s, a) :: post) {l pid : ℤ} {p q : Slot} {t : PTable}
    (hq : s.Dispatches a q t) (hlevel : (t.proc q).level = l)
    (_hlast : lastFrom l pre = some (p, pid)) (_hpid : (t.proc p).pid = pid)
    (hrun : (t.proc p).state = .runnable) (hp : (t.proc p).level = l) (hhold : 0 < (t.proc p).hold) :
    q = p ↔ ∀ r, (positions s).find? (fun r => ReadyAt t l r) = some r → Ahead t l r p := by
  obtain ⟨f, hout⟩ := hq
  obtain ⟨r, hfind, hr, rfl⟩ := outcome_choose hout
  have hl : f.now_level = l := (best_ok slots hr : ReadyAt t f.now_level _).2.symm.trans hlevel
  rw [hl] at hfind hr ⊢
  rw [choose_eq_iff hr ⟨⟨hrun, hhold⟩, hp⟩]
  constructor
  · intro h r' hr'
    rw [hfind] at hr'
    cases hr'
    exact h
  · intro h
    exact h r hfind

/-- Two new processes, the first with the higher priority. -/
def favoured : Machine (policy ⟨2, two_levels⟩) Unit where
  table := ⟨fun p => if p = 0 then { pid := 1, state := .runnable, hold := 4, priority := 1 }
    else if p = 1 then { pid := 2, state := .runnable, hold := 4 } else {}, 3, some 0⟩
  ticks := 1
  cpu := fun _ => .scheduler true

def favouredRunning : Machine (policy ⟨2, two_levels⟩) Unit := after Machine.step favoured (.pass () 0)

set_option maxRecDepth 4000 in
/-- When the first process yields, the scan stands at the second one and goes back. -/
theorem favoured_continues :
    ∃ q t, favouredRunning.Dispatches (.leave () .yield) q t ∧ q = 0 := by
  have hr : Run (Steps step) favoured
      (trace step favoured [.pass () 0, .leave () .yield]) _ := run_trace (by decide +kernel)
  have hd : favouredRunning.Dispatches (.leave () .yield) 0 (left .yield 0 favouredRunning.table) :=
    ⟨⟨0, true⟩, rfl⟩
  have hiff := last_process_continues_iff hr [(favoured, .pass () 0)] [] rfl hd rfl
    (show lastFrom 0 [(favoured, .pass () 0)] = some (0, 1) by decide +kernel)
    (by decide +kernel) (by decide +kernel) (by decide +kernel) (by decide +kernel)
  refine ⟨0, _, hd, hiff.mpr ?_⟩
  intro r hr
  have hnext : (positions favouredRunning).find?
      (fun r => ReadyAt (left .yield 0 favouredRunning.table) 0 r) = some 1 := by decide +kernel
  cases hnext.symm.trans hr
  decide +kernel

set_option maxRecDepth 4000 in
/-- The first process of a pair of equal priority yields with five turns left, and the
second one gets the processor. -/
theorem pair_switches :
    ∃ tr m, Run (Steps step) pair tr m ∧ Meets Alone tr ∧
      ∃ s q t, tr = [(pair, .pass () 0), (s, .leave () .yield)] ∧ s.Dispatches (.leave () .yield) q t ∧
        (t.proc q).level = 1 ∧ lastFrom 1 [(pair, .pass () 0)] = some (0, (t.proc 0).pid) ∧
        (t.proc 0).state = .runnable ∧ (t.proc 0).level = 1 ∧ 0 < (t.proc 0).hold ∧ q ≠ 0 := by
  have hr : Run (Steps step) pair (trace step pair [.pass () 0, .leave () .yield]) _ :=
    run_trace (by decide +kernel)
  refine ⟨_, _, hr, meets_trace (by simp [Alone]), _, 1, left .yield 0 pairRunning.table, rfl, ⟨⟨1, true⟩, rfl⟩, ?_⟩
  decide +kernel

end Mlfq

namespace Mlq

/-- A scan that stands at `q` chooses `p`: no odd process that is `RUNNABLE` is older by its
stamp, and one with the same stamp is passed over only if it comes later. -/
def Ahead (t : PTable) (q p : Slot) : Prop :=
  (∀ r, OddRunnable t r → (t.proc p).time_c.toNat ≤ (t.proc r).time_c.toNat) ∧
    (p = q ∨ (t.proc p).time_c.toNat < (t.proc q).time_c.toNat ∧
      ∀ r < p, OddRunnable t r → (t.proc p).time_c.toNat < (t.proc r).time_c.toNat)

instance (t : PTable) (q p : Slot) : Decidable (Ahead t q p) :=
  inferInstanceAs (Decidable (_ ∧ _))

variable {t : PTable} {ps : List Slot} {p q : Slot}

theorem minOdd_eq_best (hp : OddRunnable t p) : minOdd t ps p = some (best (OddRunnable t)
      (fun temp_p p => (t.proc p).time_c > (t.proc temp_p).time_c) ps p) := by
  induction ps generalizing p with
  | nil => rfl
  | cons r ps ih =>
    rw [minOdd, if_neg fun he => hp.2 he.2, best, List.foldl_cons]
    split
    case isTrue hr => exact ih hr.1
    case isFalse => exact ih hp

theorem minOdd_eq_iff (hq : OddRunnable t q) (hp : OddRunnable t p) :
    minOdd t slots q = some p ↔ Ahead t q p := by
  rw [minOdd_eq_best hq, Option.some_inj,
    best_eq_iff (fun r => (t.proc r).time_c.toNat) (fun _ _ => BitVec.lt_def) slots_sorted
      List.mem_finRange hq, Ahead]
  simp only [hp, true_and]

theorem oddLoop_eq_swtch (h : oddLoop t ps = .swtch q) :
    ∃ s, ps.find? (fun s => (t.proc s).state = .runnable) = some s ∧ OddRunnable t s ∧
      minOdd t slots s = some q := by
  induction ps with
  | nil => cases h
  | cons p ps ih =>
    rw [oddLoop] at h
    by_cases hp : (t.proc p).state = .runnable
    · rw [if_neg (not_not.mpr hp)] at h
      refine ⟨p, by simp [hp], ?_⟩
      by_cases heven : (t.proc p).pid % 2 = 0
      · rw [minOdd_of_even ⟨hp, heven⟩] at h
        cases h
      · refine ⟨⟨hp, heven⟩, ?_⟩
        split at h
        case h_1 => cases h
        case h_2 r hr =>
          cases h
          exact hr
    · rw [if_pos hp] at h
      rw [List.find?_cons_of_neg (by simpa using hp)]
      exact ih h

theorem existRunnable_odd (h : existRunnable t ps = .swtch f q t') (hq : (t'.proc q).pid % 2 ≠ 0) :
    t' = t ∧ oddLoop t slots = .swtch q := by
  fun_induction existRunnable t ps with
  | case1 ps r hr =>
    cases h
    have heven : EvenRunnable t q := by simpa using List.find?_some hr
    exact absurd heven.2 hq
  | case2 ps _ _ ih | case3 ps _ hnone _ ih => exact ih h
  | case4 ps _ hnone r hodd =>
    cases h
    exact ⟨rfl, hodd⟩
  | case5 => cases h

variable {ι : Type}

/-- The slots that the odd loop has still to visit when the step begins. -/
def positions (m : Machine policy ι) : Label ι → List Slot
  | .leave i _ =>
    match m.cpu i with
    | .process p .odd => slots.filter (p < ·)
    | _ => slots
  | _ => slots

theorem outcome_odd (h : m.Dispatches l q t) (hq : (t.proc q).pid % 2 ≠ 0) :
    oddLoop t (positions m l) = .swtch q := by
  obtain ⟨f, hout⟩ := h
  cases l with
  | tick | wakeup | «section» => cases hout
  | pass =>
    rw [outcome] at hout
    split at hout
    case h_1 =>
      obtain ⟨rfl, hodd⟩ := existRunnable_odd (Option.some.inj hout) hq
      exact hodd
    case h_2 => cases hout
  | leave i how =>
    rw [outcome] at hout
    rw [positions]
    split at hout
    case h_1 => cases hout
    case h_2 p g hcpu =>
      rw [hcpu]
      cases g with
      | even =>
        obtain ⟨rfl, hodd⟩ := existRunnable_odd (Option.some.inj hout) hq
        exact hodd
      | odd =>
        have hres : resume .odd p (how.run p m.table) = .swtch f q t := Option.some.inj hout
        simp only [resume] at hres
        split at hres
        case h_1 hgoto =>
          -- the jump is made for an even process, which then goes first
          obtain ⟨r, hr⟩ := exists_even_of_goto hgoto
          obtain ⟨rfl, hnone⟩ := existRunnable_eq_swtch hres
          exact absurd hr (hnone hq r)
        case h_2 r hr =>
          cases hres
          exact hr
        case h_3 => cases hres

/-- The odd process with the lowest pid among those that are `RUNNABLE`. -/
def Oldest (t : PTable) (r : Slot) : Prop :=
  OddRunnable t r ∧ ∀ s, OddRunnable t s → s ≠ r → (t.proc r).pid < (t.proc s).pid

instance (t : PTable) (r : Slot) : Decidable (Oldest t r) := inferInstanceAs (Decidable (_ ∧ _))

variable [DecidableEq ι]

/-- In every run, each switch to an odd process goes to the one that was created first
exactly if that one is ahead from where the odd loop stands. -/
theorem oldest_dispatched_iff {m₀ m : Machine policy ι} {tr : List (Machine policy ι × Label ι)}
    (hr : Run (Steps Machine.step) m₀ tr m) :
    ∀ e ∈ tr, ∀ q t, e.1.Dispatches e.2 q t → (t.proc q).pid % 2 ≠ 0 → ∀ r, Oldest t r →
      (q = r ↔ ∀ s, (positions e.1 e.2).find? (fun s => (t.proc s).state = .runnable) = some s →
        Ahead t s r) := by
  have hall : Meets (fun m l => ∀ q t, m.Dispatches l q t → (t.proc q).pid % 2 ≠ 0 →
      ∀ r, Oldest t r →
      (q = r ↔ ∀ s, (positions m l).find? (fun s => (t.proc s).state = .runnable) = some s →
        Ahead t s r)) tr := by
    refine hr.meets (I := fun _ => True) (C := fun _ _ => True) ?_ trivial fun _ _ => trivial
    intro m l _ _ _ _
    refine ⟨trivial, fun q t hd hq r hold => ?_⟩
    obtain ⟨s, hs, hodd, hmin⟩ := oddLoop_eq_swtch (outcome_odd hd hq)
    have hiff := minOdd_eq_iff hodd hold.1
    rw [hmin, Option.some_inj] at hiff
    rw [hiff]
    constructor
    · intro h s' hs'
      cases hs.symm.trans hs'
      exact h
    · intro h
      exact h s hs
  exact hall

set_option maxRecDepth 4000 in
/-- The older one of a pair yields; the scan stands at the younger one and goes back. -/
theorem pair_oldest :
    ∃ q t, pairRunning.Dispatches (.leave () .yield) q t ∧ Oldest t 0 ∧ q = 0 := by
  have hr : Run (Steps step) pairRunning
      (trace step pairRunning [.leave () .yield]) _ := run_trace rfl
  have hd : pairRunning.Dispatches (.leave () .yield) 0 (pairRunning.table.yield 0) := ⟨.odd, rfl⟩
  have hold : Oldest (pairRunning.table.yield 0) 0 := by decide +kernel
  refine ⟨0, _, hd, hold, (oldest_dispatched_iff hr _ List.mem_cons_self 0 _ hd (by decide +kernel)
    0 hold).mpr ?_⟩
  intro s hs
  have hnext : (positions pairRunning (.leave () .yield)).find?
      (fun s => ((pairRunning.table.yield 0).proc s).state = .runnable) = some 1 := by decide +kernel
  cases hnext.symm.trans hs
  decide +kernel

/-- Two odd processes that were created in the same tick; the first one runs. -/
def tied : Machine policy Unit where
  table := ⟨fun p => if p = 0 then { pid := 3, state := .running, time_c := 5 }
    else if p = 1 then { pid := 5, state := .runnable, time_c := 5 } else {}, 6, none⟩
  ticks := 9
  cpu := fun _ => .process 0 .odd

set_option maxRecDepth 4000 in
/-- When it yields, the second one is switched to. -/
theorem tied_youngest :
    ∃ tr m, Run (Steps step) tied tr m ∧ ∃ e ∈ tr, ∃ q t, e.1.Dispatches e.2 q t ∧
      (t.proc q).pid % 2 ≠ 0 ∧ ∃ r, Oldest t r ∧ q ≠ r := by
  have hr : Run (Steps step) tied (trace step tied [.leave () .yield]) _ :=
    run_trace rfl
  refine ⟨_, _, hr, _, List.mem_cons_self, 1, tied.table.yield 0, ⟨.odd, rfl⟩, ?_, 0, ?_⟩
  · decide +kernel
  · decide +kernel

end Mlq
end Xv6.Sched
