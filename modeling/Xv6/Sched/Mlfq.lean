import Xv6.Lib.Scan
import Xv6.Sched.Machine

/-! # The multilevel feedback queue

`scheduler` of a kernel built with `MLFQ_SCHED`. A pass fixes `now_level` before its
first switch and keeps it, so that a process which becomes ready in a smaller level
while the pass is under way waits for the next pass.
-/
namespace Xv6.Sched
open Machine List

/-- `MLFQ_K`: the number of levels, from 2 to 5. -/
abbrev MlfqK := { k : ℤ // 2 ≤ k ∧ k ≤ 5 }

theorem two_levels : (2 : ℤ) ≤ 2 ∧ (2 : ℤ) ≤ 5 := by decide

namespace Mlfq
open PTable

structure Frame where
  now_level : ℤ
  flag : Bool

/-- `RUNNABLE` with some of its quantum left. -/
def Ready (t : PTable) (p : Slot) : Prop :=
  (t.proc p).state = .runnable ∧ 0 < (t.proc p).hold

instance (t : PTable) (p : Slot) : Decidable (Ready t p) :=
  inferInstanceAs (Decidable (_ ∧ _))

/-- The processes that a pass at level `l` chooses from. -/
def ReadyAt (t : PTable) (l : ℤ) (p : Slot) : Prop := Ready t p ∧ (t.proc p).level = l

instance (t : PTable) (l : ℤ) : DecidablePred (ReadyAt t l) := fun _ =>
  inferInstanceAs (Decidable (_ ∧ _))

def boost (t : PTable) : PTable :=
  { t with proc := fun p => { t.proc p with level := 0, hold := 4 } }

/-- The queue moves at the start of a pass: down after a used quantum, up to level 0
for a sleeper. -/
def requeue (K : MlfqK) (p : Proc) : Proc :=
  let p := if p.level < K.val - 1 ∧ p.hold ≤ 0 then
      { p with level := p.level + 1, hold := TIME_QUANTUM (p.level + 1) } else p
  if p.state = .sleeping then { p with level := 0, hold := TIME_QUANTUM 0 } else p

def nowLevel (K : MlfqK) (t : PTable) : ℤ :=
  slots.foldl (fun l p => if Ready t p ∧ (t.proc p).level < l then (t.proc p).level else l) K.val

/-- The inner loop: the highest priority among the processes of the level. -/
def choose (t : PTable) (l : ℤ) (p : Slot) : Slot :=
  best (ReadyAt t l) (fun temp_p new_p => (t.proc temp_p).priority > (t.proc new_p).priority)
    slots p

/-- The outer loop, from its next slots on. -/
def scan (t : PTable) (f : Frame) : List Slot → Outcome Frame Bool
  | [] => .release f.flag t
  | p :: ps =>
    if ReadyAt t f.now_level p then .swtch f (choose t f.now_level p) t else scan t f ps

/-- The rest of a pass after the queue moves, in the table they leave. -/
def select (K : MlfqK) (flag : Bool) (t : PTable) : Outcome Frame Bool :=
  if nowLevel K t = K.val then .release flag (boost t)
  else scan t ⟨nowLevel K t, flag⟩ slots

def pass (K : MlfqK) (ticks ticks' : Word) (flag : Bool) (t : PTable) : Outcome Frame Bool :=
  let boosting : Bool := ticks.toNat % 100 = 0 ∧ flag
  let t := if boosting then boost t else t
  let flag := if boosting then false else flag
  let flag := if ticks'.toNat % 100 ≠ 0 then true else flag
  select K flag { t with proc := fun p => requeue K (t.proc p) }

def charge (t : PTable) (p : Slot) : PTable :=
  t.modify p (fun pr => { pr with hold := if 0 < pr.hold then pr.hold - 1 else pr.hold })

def resume (f : Frame) (p : Slot) (t : PTable) : Outcome Frame Bool :=
  scan (charge t p) f (slots.filter (p < ·))

/-- The policy; its local across passes is `flag`. -/
def policy (K : MlfqK) : Policy where
  Locals := Bool
  Frame := Frame
  mlfq := true
  pass := pass K
  resume := resume

theorem mem_slots (p : Slot) : p ∈ slots := mem_finRange p

variable {t t' : PTable} {p : Slot} {ps : List Slot} {f : Frame} {flag : Bool}

theorem scan_eq_swtch (h : scan t f ps = .swtch f' p t') :
    t' = t ∧ ReadyAt t f.now_level p ∧ ∃ q ∈ ps, ReadyAt t f.now_level q := by
  induction ps with
  | nil => cases h
  | cons q ps ih =>
    rw [scan] at h
    split at h
    case isTrue hq =>
      cases h
      exact ⟨rfl, best_ok slots hq, q, mem_cons_self, hq⟩
    case isFalse hq =>
      obtain ⟨ht, hp, r, hr, hready⟩ := ih h
      exact ⟨ht, hp, r, mem_cons_of_mem q hr, hready⟩

theorem scan_eq_release (h : scan t f ps = .release flag t') : ∀ q ∈ ps, ¬ ReadyAt t f.now_level q := by
  induction ps with
  | nil =>
    intro q hq
    cases hq
  | cons p ps ih =>
    rw [scan] at h
    split at h
    case isTrue hp => cases h
    case isFalse hp =>
      intro q hq
      rcases mem_cons.mp hq with rfl | hq
      · exact hp
      · exact ih h q hq

/-- A fold that lowers a bound to every smaller level of a ready process ends below
all of them. -/
theorem foldl_level_le (t : PTable) (ps : List Slot) (b : ℤ) :
    ps.foldl (fun l p => if Ready t p ∧ (t.proc p).level < l then (t.proc p).level else l) b ≤ b ∧
      ∀ q ∈ ps, Ready t q →
        ps.foldl (fun l p => if Ready t p ∧ (t.proc p).level < l then (t.proc p).level else l) b ≤
          (t.proc q).level := by
  induction ps generalizing b with
  | nil => exact ⟨Int.le_refl b, fun q hq => by cases hq⟩
  | cons p ps ih =>
    rw [foldl_cons]
    by_cases hp : Ready t p ∧ (t.proc p).level < b
    · rw [if_pos hp]
      obtain ⟨hle, hall⟩ := ih (t.proc p).level
      refine ⟨by omega, ?_⟩
      intro q hq hready
      rcases mem_cons.mp hq with rfl | hq
      · exact hle
      · exact hall q hq hready
    · rw [if_neg hp]
      obtain ⟨hle, hall⟩ := ih b
      refine ⟨hle, ?_⟩
      intro q hq hready
      rcases mem_cons.mp hq with rfl | hq
      · have hge : b ≤ (t.proc q).level := by
          apply Int.not_lt.mp
          intro hlt
          exact hp ⟨hready, hlt⟩
        omega
      · exact hall q hq hready

theorem nowLevel_le (K : MlfqK) (t : PTable) (hq : Ready t q) : nowLevel K t ≤ (t.proc q).level :=
  (foldl_level_le t slots K.val).2 q (mem_slots q) hq

def Highest (t : PTable) (l : ℤ) : Prop := ∀ q, Ready t q → l ≤ (t.proc q).level

theorem select_highest (h : select K flag t = .swtch f p t') : Highest t' (t'.proc p).level := by
  rw [select] at h
  split at h
  case isTrue => cases h
  case isFalse =>
    obtain ⟨rfl, hp, -⟩ := scan_eq_swtch h
    intro q hq
    rw [hp.2]
    exact nowLevel_le K _ hq

/-- The table that the scheduler finds when `p` has left the processor lets the pass go
on: no smaller level is ready, or no later slot has a process of this level. -/
def Undisturbed (f : Frame) (p : Slot) (t : PTable) : Prop :=
  Highest (charge t p) f.now_level ∨ ∀ q, p < q → ¬ ReadyAt (charge t p) f.now_level q

theorem resume_highest_iff (f : Frame) (p : Slot) (t : PTable) :
    (∀ f' q t', resume f p t = .swtch f' q t' → Highest t' (t'.proc q).level) ↔ Undisturbed f p t := by
  constructor
  · intro h
    by_cases hex : ∃ q, p < q ∧ ReadyAt (charge t p) f.now_level q
    · obtain ⟨q, hpq, hq⟩ := hex
      cases hres : resume f p t with
      | swtch f' r t' =>
        have hhigh := h f' r t' hres
        obtain ⟨rfl, hr, -⟩ := scan_eq_swtch hres
        rw [hr.2] at hhigh
        exact .inl hhigh
      | release =>
        have hmem : q ∈ slots.filter (p < ·) := mem_filter.mpr ⟨mem_slots q, by simpa using hpq⟩
        exact absurd hq (scan_eq_release hres q hmem)
    · right
      intro q hpq hq
      exact hex ⟨q, hpq, hq⟩
  · intro h f' q t' hres
    obtain ⟨rfl, hq, r, hr, hready⟩ := scan_eq_swtch hres
    have hpr : p < r := by simpa using (mem_filter.mp hr).2
    rcases h with h | h
    · rw [hq.2]
      exact h
    · exact absurd hready (h r hpr)

variable {K : MlfqK} {ι : Type}

/-- A process may leave a processor only at a point where its pass is undisturbed. -/
def LeavesUndisturbed (m : Machine (policy K) ι) : Label ι → Prop
  | .leave i how =>
    match m.cpu i with
    | .process p f => Undisturbed f p (how.run p m.table)
    | .scheduler _ => True
  | _ => True

theorem dispatch_highest (hl : LeavesUndisturbed m l) (h : m.Dispatches l p t) : Highest t (t.proc p).level := by
  obtain ⟨f, hf⟩ := h
  cases l with
  | tick | wakeup | «section» => cases hf
  | pass =>
    rw [outcome] at hf
    split at hf
    case h_1 flag hcpu => exact select_highest (Option.some.inj hf)
    case h_2 => cases hf
  | leave =>
    rw [outcome] at hf
    rw [LeavesUndisturbed] at hl
    split at hf
    case h_1 => cases hf
    case h_2 q g hcpu =>
      rw [hcpu] at hl
      exact (resume_highest_iff g q _).mpr hl f p t (Option.some.inj hf)

variable [DecidableEq ι]

/-- Along every run in which processes leave their processors only while the pass is
undisturbed, every switch goes to the smallest level that has a ready process. -/
theorem dispatches_smallest_level {m₀ m : Machine (policy K) ι}
    {tr : List (Machine (policy K) ι × Label ι)} (hr : Run (Steps Machine.step) m₀ tr m)
    (hc : Meets LeavesUndisturbed tr) :
    ∀ e ∈ tr, ∀ p t, e.1.Dispatches e.2 p t →
      ∀ q, (t.proc q).state = .runnable → 0 < (t.proc q).hold →
        (t.proc p).level ≤ (t.proc q).level := by
  have hall : Meets (fun m l => ∀ p t, m.Dispatches l p t → Highest t (t.proc p).level) tr := by
    refine hr.meets (I := fun _ => True) ?_ trivial hc
    intro s l s' _ hl _
    exact ⟨trivial, fun p t h => dispatch_highest hl h⟩
  intro e he p t h q hrun hhold
  exact hall e he p t h q ⟨hrun, hhold⟩

def levelOne (pid : ℤ) : Proc := { pid := pid, state := .runnable, level := 1, hold := 6 }

/-- Two processes in level 1 of a kernel with two levels, on one processor. -/
def pair : Machine (policy ⟨2, two_levels⟩) Unit where
  table := ⟨fun p => if p = 0 then levelOne 1 else if p = 1 then levelOne 2 else {}, 3, some 0⟩
  ticks := 1
  cpu := fun _ => .scheduler true

def pairRunning : Machine (policy ⟨2, two_levels⟩) Unit := after Machine.step pair (.pass () 0)

theorem run_pairRunning : Run (Steps step) pair [(pair, .pass () 0)] pairRunning :=
  Run.snoc Run.start (steps_after rfl)

/-- The first process yields and the second one gets its turn. -/
theorem dispatches_smallest_level_pair :
    Meets LeavesUndisturbed [(pair, .pass () 0), (pairRunning, .leave () .yield)] ∧
      ∀ e ∈ [(pair, .pass () 0), (pairRunning, .leave () .yield)],
        ∀ p t, e.1.Dispatches e.2 p t →
          ∀ q, (t.proc q).state = .runnable → 0 < (t.proc q).hold →
            (t.proc p).level ≤ (t.proc q).level := by
  have hyield : Undisturbed ⟨1, true⟩ 0 (pairRunning.table.yield 0) := by
    left
    change ∀ q, _ ∧ _ → _
    decide +kernel
  have hc : Meets LeavesUndisturbed [(pair, .pass () 0), (pairRunning, .leave () .yield)] := by
    rintro e (_ | ⟨_, _ | ⟨_, he⟩⟩)
    · trivial
    · exact hyield
    · cases he
  exact ⟨hc, dispatches_smallest_level (run_pairRunning.snoc (steps_after rfl)) hc⟩

/-- The first process has forked. -/
def pairForked : Machine (policy ⟨2, two_levels⟩) Unit :=
  after Machine.step (after Machine.step pairRunning (.section () .alloc)) (.section () (.forked 2))

set_option maxRecDepth 4000 in
/-- The child is ready in level 0, yet the pass goes on with the second process of
level 1 when the first one yields. -/
theorem dispatches_level_one_past_child :
    ∃ tr m, Run (Steps step) pair tr m ∧ ∃ e ∈ tr, ∃ p t, e.1.Dispatches e.2 p t ∧
      ∃ q, (t.proc q).state = .runnable ∧ 0 < (t.proc q).hold ∧
        (t.proc q).level < (t.proc p).level := by
  have hr := ((run_pairRunning.snoc (steps_after (l := .section () .alloc) rfl)).snoc
    (steps_after (l := .section () (.forked 2)) rfl)).snoc
    (steps_after (l := .leave () .yield) rfl)
  refine ⟨_, _, hr, _, mem_append_right _ (mem_singleton_self _), 1,
    charge (pairForked.table.yield 0) 0, ⟨⟨1, true⟩, rfl⟩, 2, rfl, ?_⟩
  decide +kernel

end Mlfq
end Xv6.Sched
