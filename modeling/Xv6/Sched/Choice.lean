import Mathlib.Algebra.BigOperators.Ring.Finset
import Mathlib.Algebra.Order.BigOperators.Group.Finset
import Xv6.Sched.Order
import Xv6.Sched.Quantum

/-! # The dispatches of one pass

A pass goes through the processes of the level that it selected at its start, always to one
with the highest priority. The scan may go back to earlier slots, but every turn costs one
tick of a quantum, so the pass ends when the quanta of the level are used up.
-/
namespace Xv6.Sched.Mlfq
open Function PTable Machine List

variable {K : MlfqK}

section Choice
variable {ι : Type} [DecidableEq ι] {m₀ m m' : Machine (policy K) ι} {tr : List (Machine (policy K) ι × Label ι)} {l : Label ι}
  {f : Frame} {p q : Slot} {t : PTable}

/-- The level that a pass on processor `i` selects. -/
def selects (i : ι) (e : Machine (policy K) ι × Label ι) : Option ℤ :=
  match e.2, e.1.cpu i with
  | .pass j _, .scheduler flag => if j = i then some (nowLevel K (queues K e.1.ticks flag e.1.table)) else none
  | _, _ => none

/-- The level of the last pass that began on processor `i`. -/
def selected (i : ι) (tr : List (Machine (policy K) ι × Label ι)) : Option ℤ := tr.reverse.findSome? (selects i)

theorem selected_snoc (i : ι) (e : Machine (policy K) ι × Label ι) :
    selected i (tr ++ [e]) = (selects i e).or (selected i tr) := by
  unfold selected
  rw [reverse_append, reverse_singleton, singleton_append, findSome?_cons]
  cases selects i e <;> rfl

theorem choose_highest (hr : ReadyAt t f.now_level r) (hq : ReadyAt t f.now_level q) :
    ReadyAt t f.now_level (choose t f.now_level r) ∧ (t.proc q).priority ≤ (t.proc (choose t f.now_level r)).priority :=
  have hbest : ReadyAt t f.now_level (choose t f.now_level r) := best_ok slots hr
  ⟨hbest, ((choose_eq_iff hr hbest).mp rfl).1 q hq⟩

theorem outcome_cases (h : m.outcome l = some (.swtch f p t)) :
    (∃ r, ReadyAt t f.now_level r ∧ p = choose t f.now_level r) ∧
      ((∃ i n flag, l = .pass i n ∧ m.cpu i = .scheduler flag ∧ f.now_level = nowLevel K (queues K m.ticks flag m.table)) ∨
        ∃ i how q, l = .leave i how ∧ m.cpu i = .process q f) := by
  cases l with
  | tick | wakeup | «section» => cases h
  | pass i n =>
    cases hcpu : m.cpu i with
    | process => simp only [outcome, hcpu, reduceCtorEq] at h
    | scheduler flag =>
      have hp := (pass_eq K m.ticks (m.ticks + BitVec.ofNat 32 n) flag m.table).symm.trans
        (Option.some.inj ((outcome_pass hcpu n).symm.trans h))
      rw [select] at hp
      split at hp
      case isTrue => cases hp
      case isFalse =>
        obtain ⟨rfl, r, -, hr⟩ := scan_swtch hp
        exact ⟨⟨r, hr⟩, .inl ⟨i, n, flag, rfl, hcpu, rfl⟩⟩
  | leave i how =>
    cases hcpu : m.cpu i with
    | scheduler => simp only [outcome, hcpu, reduceCtorEq] at h
    | process q f' =>
      have hp : scan _ f' _ = _ := Option.some.inj ((outcome_leave hcpu how).symm.trans h)
      obtain ⟨rfl, r, -, hr⟩ := scan_swtch hp
      exact ⟨⟨r, hr⟩, .inr ⟨i, how, q, rfl, hcpu⟩⟩

/-- Every processor outside the scheduler keeps the level of its pass. -/
theorem step_selected (h : ∀ i q f, m.cpu i = .process q f → selected i tr = some f.now_level) (hs : m.step l = some m') :
    ∀ i q f, m'.cpu i = .process q f → selected i (tr ++ [(m, l)]) = some f.now_level := by
  intro i q f hcpu
  rw [selected_snoc]
  -- a process that is still on its processor: nothing has been selected there
  have hsame {q : Slot} (hno : selects i (m, l) = none) (hcpu : m.cpu i = .process q f) :
      (selects i (m, l)).or (selected i tr) = some f.now_level := by
    rw [hno]
    exact h i q f hcpu
  have hupdate {j : ι} {c : Cpu (policy K)} (hc : m'.cpu = update m.cpu j c) :
      (i = j ∧ c = .process q f) ∨ (i ≠ j ∧ m.cpu i = .process q f) := by
    rw [hc, update_apply] at hcpu
    split at hcpu
    case isTrue hij => exact .inl ⟨hij, hcpu⟩
    case isFalse hij => exact .inr ⟨hij, hcpu⟩
  cases l with
  | tick | wakeup chan =>
    cases hs
    exact hsame rfl hcpu
  | «section» j a =>
    obtain ⟨-, -, t, -, -, rfl⟩ := step_section_eq_some hs
    exact hsame rfl hcpu
  | pass j n =>
    have hother (hi : m.cpu i = .process q f) : (selects i (m, .pass j n)).or (selected i tr) = some f.now_level :=
      hsame (by simp [selects, hi]) hi
    obtain ⟨flag, hj, -, ⟨-, -, hcpu'⟩ | ⟨-, g, r, -, -, hout, -, hcpu'⟩⟩ := step_pass_cases hs
    · rcases hupdate hcpu' with ⟨-, hc⟩ | ⟨-, hi⟩
      · cases hc
      · exact hother hi
    · rcases hupdate hcpu' with ⟨rfl, hc⟩ | ⟨-, hi⟩
      · cases hc
        obtain ⟨-, ⟨i', n', flag', hl, hcpu0, hlevel⟩ | ⟨_, _, _, hl, -⟩⟩ := outcome_cases hout
        · cases hl
          simp [selects, hcpu0, hlevel]
        · cases hl
      · exact hother hi
  | leave =>
    obtain ⟨r, g, hj, -, ⟨-, -, hcpu'⟩ | ⟨c, -, -, -, -, hcpu'⟩⟩ := step_leave_cases hs
    · rcases hupdate hcpu' with ⟨-, hc⟩ | ⟨-, hi⟩
      · cases hc
      · exact hsame rfl hi
    · rcases hupdate hcpu' with ⟨rfl, hc⟩ | ⟨-, hi⟩
      · cases hc
        exact hsame rfl hj
      · exact hsame rfl hi

theorem run_selected (hr : Run (Steps step) m₀ tr m) (h0 : ∀ i, ∃ flag, m₀.cpu i = .scheduler flag) :
    ∀ i q f, m.cpu i = .process q f → selected i tr = some f.now_level := by
  induction hr with
  | start =>
    intro i q f hcpu
    obtain ⟨flag, hi⟩ := h0 i
    cases hi.symm.trans hcpu
  | snoc hr hs ih => exact step_selected ih hs

/-- At every dispatch of every run the process is ready in the level that the pass on its
processor selected, and no other such process has a higher priority. -/
theorem dispatches_highest_priority (hr : Run (Steps Machine.step) m₀ tr m) (h₀ : ∀ i, ∃ flag, m₀.cpu i = .scheduler flag)
    (h : m.Dispatches l p t) : ∃ i level, ((∃ n, l = .pass i n) ∨ ∃ how, l = .leave i how) ∧
      selected i (tr ++ [(m, l)]) = some level ∧ ReadyAt t level p ∧
      ∀ q, ReadyAt t level q → (t.proc q).priority ≤ (t.proc p).priority := by
  obtain ⟨f, hout⟩ := h
  obtain ⟨⟨r, hready, rfl⟩, hwhere⟩ := outcome_cases hout
  have hselected : ∃ i, ((∃ n, l = .pass i n) ∨ ∃ how, l = .leave i how) ∧ selected i (tr ++ [(m, l)]) = some f.now_level := by
    rcases hwhere with ⟨i, n, flag, rfl, hcpu, hlevel⟩ | ⟨i, how, q, rfl, hcpu⟩
    · exact ⟨i, Or.inl ⟨n, rfl⟩, by simp [selected_snoc, selects, hcpu, hlevel]⟩
    · refine ⟨i, Or.inr ⟨how, rfl⟩, ?_⟩
      rw [selected_snoc]
      exact run_selected hr h₀ i q f hcpu
  obtain ⟨i, hl, hi⟩ := hselected
  exact ⟨i, f.now_level, hl, hi, (choose_highest hready hready).1, fun q hq => (choose_highest hready hq).2⟩

set_option maxRecDepth 4000 in
/-- The second process of a pair gets its turn when the first one yields. -/
theorem dispatches_highest_priority_pair : pairRunning.Dispatches (.leave () .yield) 1 (charge (pairRunning.table.yield 0) 0) ∧
    ∃ i level, ((∃ n, Label.leave () .yield = .pass i n) ∨ ∃ how, Label.leave () .yield = .leave i how) ∧
      selected i ([(pair, .pass () 0)] ++ [(pairRunning, .leave () .yield)]) = some level ∧
      ReadyAt (charge (pairRunning.table.yield 0) 0) level 1 ∧
      ∀ q, ReadyAt (charge (pairRunning.table.yield 0) 0) level q →
        ((charge (pairRunning.table.yield 0) 0).proc q).priority ≤ ((charge (pairRunning.table.yield 0) 0).proc 1).priority := by
  have hd : pairRunning.Dispatches (.leave () .yield) 1 (charge (pairRunning.table.yield 0) 0) := ⟨⟨1, true⟩, rfl⟩
  exact ⟨hd, dispatches_highest_priority run_pairRunning (fun _ => ⟨true, rfl⟩) hd⟩

end Choice

section Ending
variable {m m₁ m' : Machine (policy K) Unit} {tr : History (policy K)} {l : Label Unit} {t t' : PTable} {p : Slot} {level : ℤ} {bound c : ℕ}

/-- The turns that a process has left in a level. `hold` is never negative. -/
def share (level : ℤ) (pr : Proc) : ℕ := if pr.state ≠ .unused ∧ pr.level = level then pr.hold.toNat else 0

def allowance (level : ℤ) (t : PTable) : ℕ := ∑ p, share level (t.proc p)

/-- During a pass no process is created, and none gives up its turn by the system call. -/
def Plain (m : Machine (policy K) Unit) : Label Unit → Prop
  | .pass _ _ => False
  | .section _ a => a.allocates m.table = none
  | .leave _ how => how ≠ .yield2
  | _ => True

theorem share_le (h : Carried pr pr') : share level pr' ≤ share level pr := by
  unfold share
  rw [h.level, h.hold]
  split
  case isTrue hin => rw [if_pos ⟨h.used hin.1, hin.2⟩]
  case isFalse => exact Nat.zero_le _

/-- A turn is paid for when it ends. -/
theorem allowance_left (hhow : how ≠ .yield2) (hused : (t.proc p).state ≠ .unused) (hlevel : (t.proc p).level = level)
    (hhold : 0 < (t.proc p).hold) : allowance level (left how p t) < allowance level t := by
  have hself : share level ((left how p t).proc p) < share level (t.proc p) := by
    obtain ⟨hl, hh⟩ := (left_self how p t).2 hhow
    unfold share
    rw [hl, hh, if_pos hhold, if_pos (⟨hused, hlevel⟩ : (t.proc p).state ≠ .unused ∧ (t.proc p).level = level)]
    split <;> omega
  refine Finset.sum_lt_sum (fun q _ => ?_) ⟨p, Finset.mem_univ p, hself⟩
  by_cases hq : q = p
  · rw [hq]
    exact hself.le
  · exact share_le (left_other how p t hq)

theorem allowance_running (h : ReadyAt t level p) : allowance level (running t p) = allowance level t := by
  refine Finset.sum_congr rfl fun q _ => ?_
  obtain ⟨hl, hh⟩ := running_quota t p q
  unfold share
  rw [hl, hh]
  by_cases hq : q = p
  · simp [hq, running, modify_proc, h.1.1]
  · simp [running, modify_proc, hq]

theorem allowance_pos (hused : (t.proc p).state ≠ .unused) (hlevel : (t.proc p).level = level) (hhold : 0 < (t.proc p).hold) :
    0 < allowance level t := by
  have hshare : 0 < share level (t.proc p) := by
    unfold share
    rw [if_pos ⟨hused, hlevel⟩]
    omega
  exact hshare.trans_le (Finset.single_le_sum (f := fun q => share level (t.proc q)) (fun _ _ => Nat.zero_le _) (Finset.mem_univ p))

/-- After `c` dispatches of a pass. The turn of the process on the processor is still to be
paid for. -/
def Paying (level : ℤ) (bound c : ℕ) (m : Machine (policy K) Unit) : Prop :=
  match m.cpu () with
  | .scheduler _ => c ≤ bound
  | .process p f => f.now_level = level ∧ (m.table.proc p).state = .running ∧ (m.table.proc p).level = level ∧
      0 < (m.table.proc p).hold ∧ c + allowance level m.table ≤ bound + 1

theorem Paying.le (h : Paying level bound c m) : c ≤ bound := by
  unfold Paying at h
  cases hcpu : m.cpu () with
  | scheduler => rwa [hcpu] at h
  | process =>
    rw [hcpu] at h
    obtain ⟨-, hstate, hlevel, hhold, hle⟩ := h
    have hpos := allowance_pos (by rw [hstate]; decide) hlevel hhold
    omega

/-- A critical section or an interrupt, which leaves the processor as it is. -/
theorem Paying.carried (h : Paying level bound c m) (hcpu : m'.cpu = m.cpu)
    (hc : ∀ q, Carried (m.table.proc q) (m'.table.proc q)) : Paying level bound c m' := by
  unfold Paying at h ⊢
  rw [hcpu]
  cases hon : m.cpu () with
  | scheduler => rwa [hon] at h
  | process p =>
    rw [hon] at h
    obtain ⟨hf, hstate, hlevel, hhold, hle⟩ := h
    have hless : allowance level m'.table ≤ allowance level m.table :=
      Finset.sum_le_sum fun q _ => share_le (hc q)
    refine ⟨hf, (hc p).running hstate, (hc p).level.trans hlevel, ?_, by omega⟩
    rwa [(hc p).hold]

theorem paying_swtch {f : Frame} (hf : f.now_level = level) (hready : ReadyAt t level p) (hle : c + allowance level t ≤ bound + 1)
    (htable : m'.table = running t p) (hcpu : m'.cpu () = .process p f) : Paying level bound c m' := by
  have hstate : ((running t p).proc p).state = .running := by simp [running, modify_proc]
  obtain ⟨hl, hh⟩ := running_quota t p p
  unfold Paying
  rw [hcpu, htable]
  refine ⟨hf, hstate, hl.trans hready.2, hh ▸ hready.1.2, ?_⟩
  rwa [allowance_running hready]

/-- The dispatches of a run. -/
def dispatches (tr : History (policy K)) : ℕ := tr.countP fun e => (e.1.dispatched e.2).isSome

theorem Paying.step (h : Paying level bound c m) (hl : Plain m l) (hs : m.step l = some m') :
    Paying level bound (c + if (m.dispatched l).isSome then 1 else 0) m' := by
  cases l with
  | tick =>
    cases hs
    exact h.carried rfl fun q => .refl _
  | wakeup chan =>
    cases hs
    exact h.carried rfl fun q => Carried.wakeup1 m.table chan q
  | «section» i a =>
    obtain ⟨p, f, t, -, hrun, rfl⟩ := step_section_eq_some hs
    refine h.carried rfl fun q => ?_
    rcases section_carried hrun q with ⟨-, hc⟩ | ⟨hcreated, -⟩
    · exact hc
    · rw [show a.allocates m.table = none from hl] at hcreated
      cases hcreated
  | pass => exact hl.elim
  | leave i how =>
    obtain ⟨p, f, hcpu, -, hend⟩ := step_leave_cases hs
    have hpaying := h
    unfold Paying at hpaying
    rw [hcpu] at hpaying
    obtain ⟨hf, hstate, hlevel, hhold, hle⟩ := hpaying
    have hless := allowance_left hl (by rw [hstate]; decide) hlevel hhold
    rcases hend with ⟨hnone, -, hcpu'⟩ | ⟨q, -, hready, hout, htable, hcpu'⟩
    · have hno : m.dispatched (.leave i how) = none :=
        (leave_onCpu hs).symm.trans (onCpu_scheduler (by rw [hcpu']; exact update_self ..))
      rw [hno]
      unfold Paying
      rw [hcpu', update_self]
      exact h.le
    · rw [dispatched_of_outcome hout]
      rw [hf] at hready
      refine paying_swtch hf (best_ok slots hready : ReadyAt _ level (choose _ level q)) ?_ (hf ▸ htable) ?_
      · simp only [Option.isSome_some, if_true]
        omega
      · rw [hcpu', hf]
        exact update_self ..

end Ending
end Xv6.Sched.Mlfq
