import Xv6.Lib.Scan
import Xv6.Sched.Machine

/-! # The two-queue scheduler

`scheduler` of a kernel built with `MULTILEVEL_SCHED`: even pids run round robin, odd
pids in the order of their creation. The loop over the odd queue looks for an even
process only at its own position, not over the table.
-/
namespace Xv6.Sched.Mlq
open PTable Machine

/-- The loop that a switch is made from. -/
inductive Queue
  | even
  | odd
  deriving DecidableEq

def EvenRunnable (t : PTable) (p : Slot) : Prop :=
  (t.proc p).state = .runnable ∧ (t.proc p).pid % 2 = 0

instance (t : PTable) : DecidablePred (EvenRunnable t) := fun _ =>
  inferInstanceAs (Decidable (_ ∧ _))

def OddRunnable (t : PTable) (p : Slot) : Prop :=
  (t.proc p).state = .runnable ∧ (t.proc p).pid % 2 ≠ 0

instance (t : PTable) : DecidablePred (OddRunnable t) := fun _ =>
  inferInstanceAs (Decidable (_ ∧ _))

/-- The inner loop over `temp_p`; `none` is `goto EXIST_RUNNABLE`. -/
def minOdd (t : PTable) : List Slot → Slot → Option Slot
  | [], p => some p
  | temp_p :: ps, p =>
    if EvenRunnable t p then none
    else if OddRunnable t temp_p ∧ (t.proc p).time_c > (t.proc temp_p).time_c then
      minOdd t ps temp_p
    else minOdd t ps p

inductive OddLoop
  | goto
  | swtch (p : Slot)
  | release

/-- The loop over the odd queue up to its next switch. The test of the pid after the
inner loop is left out: by `minOdd_odd` it always succeeds. -/
def oddLoop (t : PTable) : List Slot → OddLoop
  | [] => .release
  | p :: ps =>
    if (t.proc p).state ≠ .runnable then oddLoop t ps
    else
      match minOdd t slots p with
      | none => .goto
      | some q => .swtch q

variable {t : PTable} {ps : List Slot} {p : Slot}

theorem minOdd_odd (hp : OddRunnable t p) (h : minOdd t ps p = some q) : OddRunnable t q := by
  induction ps generalizing p with
  | nil =>
    cases h
    exact hp
  | cons r ps ih =>
    rw [minOdd, if_neg (fun he => hp.2 he.2)] at h
    split at h
    case isTrue hr => exact ih hr.1 h
    case isFalse => exact ih hp h

theorem minOdd_ne_none (hp : OddRunnable t p) : minOdd t ps p ≠ none := by
  induction ps generalizing p with
  | nil => exact Option.some_ne_none p
  | cons r ps ih =>
    rw [minOdd, if_neg (fun he => hp.2 he.2)]
    split
    case isTrue hr => exact ih hr.1
    case isFalse => exact ih hp

theorem minOdd_of_even (hp : EvenRunnable t p) : minOdd t slots p = none := by
  rw [show slots = 0 :: slots.tail from by decide, minOdd, if_pos hp]

theorem oddLoop_cases (t : PTable) (ps : List Slot) :
    (ps.find? (fun p => (t.proc p).state = .runnable) = none ∧ oddLoop t ps = .release) ∨
    ∃ p, ps.find? (fun p => (t.proc p).state = .runnable) = some p ∧
      ((EvenRunnable t p ∧ oddLoop t ps = .goto) ∨
        (OddRunnable t p ∧ ∃ q, OddRunnable t q ∧ oddLoop t ps = .swtch q)) := by
  induction ps with
  | nil => exact .inl ⟨rfl, rfl⟩
  | cons p ps ih =>
    by_cases hp : (t.proc p).state = .runnable
    · right
      refine ⟨p, by simp [hp], ?_⟩
      rw [oddLoop, if_neg (not_not.mpr hp)]
      by_cases heven : (t.proc p).pid % 2 = 0
      · left
        rw [minOdd_of_even ⟨hp, heven⟩]
        exact ⟨⟨hp, heven⟩, rfl⟩
      · right
        refine ⟨⟨hp, heven⟩, ?_⟩
        cases hq : minOdd t slots p with
        | none => exact absurd hq (minOdd_ne_none ⟨hp, heven⟩)
        | some q => exact ⟨q, minOdd_odd ⟨hp, heven⟩ hq, rfl⟩
    · rw [oddLoop, if_pos hp, List.find?_cons_of_neg (by simpa using hp)]
      exact ih

theorem exists_even_of_goto (h : oddLoop t ps = .goto) : ∃ p, EvenRunnable t p := by
  rcases oddLoop_cases t ps with ⟨-, hr⟩ | ⟨p, -, ⟨hp, -⟩ | ⟨-, q, -, hq⟩⟩
  · rw [h] at hr
    cases hr
  · exact ⟨p, hp⟩
  · rw [h] at hq
    cases hq

theorem find_even_slots (h : ∃ p, EvenRunnable t p) : (slots.find? (fun p => EvenRunnable t p)).isSome := by
  obtain ⟨p, hp⟩ := h
  rw [List.find?_isSome]
  exact ⟨p, List.mem_finRange p, by simpa using hp⟩

/-- From the label `EXIST_RUNNABLE`, with the even loop at the slots `ps`. -/
def existRunnable (t : PTable) (ps : List Slot) : Outcome Queue Unit :=
  match _hps : ps.find? (fun p => EvenRunnable t p) with
  | some p => .swtch .even p t
  | none =>
    if _hex : ∃ p, EvenRunnable t p then existRunnable t slots
    else
      match _hodd : oddLoop t slots with
      | .goto => existRunnable t slots
      | .swtch p => .swtch .odd p t
      | .release => .release () t
  termination_by if (ps.find? (fun p => EvenRunnable t p)).isSome then 0 else 1
  decreasing_by
    · rw [if_pos (find_even_slots _hex), _hps]
      decide
    · exact absurd (exists_even_of_goto _hodd) _hex

def resume (f : Queue) (p : Slot) (t : PTable) : Outcome Queue Unit :=
  match f with
  | .even => existRunnable t (slots.filter (p < ·))
  | .odd =>
    match oddLoop t (slots.filter (p < ·)) with
    | .goto => existRunnable t slots
    | .swtch q => .swtch .odd q t
    | .release => .release () t

def policy : Policy where
  Locals := Unit
  Frame := Queue
  mlfq := false
  pass := fun _ _ _ t => existRunnable t slots
  resume := resume

theorem existRunnable_eq_swtch (h : existRunnable t ps = .swtch f p t') :
    t' = t ∧ ((t.proc p).pid % 2 ≠ 0 → ∀ q, ¬ EvenRunnable t q) := by
  fun_induction existRunnable t ps with
  | case1 ps r hr =>
    cases h
    have heven : EvenRunnable t p := by simpa using List.find?_some hr
    exact ⟨rfl, fun hodd => absurd heven.2 hodd⟩
  | case2 ps _ _ ih | case3 ps _ hnone _ ih => exact ih h
  | case4 ps _ hnone r _ =>
    cases h
    exact ⟨rfl, fun _ => not_exists.mp hnone⟩
  | case5 => cases h

/-- The table that the scheduler finds when the odd process in slot `p` has left the
processor lets the odd loop go on: no even process is `RUNNABLE`, or the next
`RUNNABLE` slot, if any, has an even one. -/
def Undisturbed (p : Slot) (t : PTable) : Prop :=
  (∀ q, ¬ EvenRunnable t q) ∨
    ∀ q, (slots.filter (p < ·)).find? (fun q => (t.proc q).state = .runnable) = some q →
      (t.proc q).pid % 2 = 0

theorem resume_odd_iff (p : Slot) (t : PTable) :
    (∀ f q t', resume .odd p t = .swtch f q t' → (t'.proc q).pid % 2 ≠ 0 →
      ∀ r, ¬ EvenRunnable t' r) ↔ Undisturbed p t := by
  rcases oddLoop_cases t (slots.filter (p < ·)) with
    ⟨hfind, hloop⟩ | ⟨s, hfind, ⟨hs, hloop⟩ | ⟨hs, q, hq, hloop⟩⟩
  · constructor
    · intro _
      right
      intro q hq
      rw [hfind] at hq
      cases hq
    · intro _ f q t' hres
      simp only [resume, hloop] at hres
      cases hres
  · constructor
    · intro _
      right
      intro q hq
      rw [hfind] at hq
      cases hq
      exact hs.2
    · intro _ f q t' hres
      simp only [resume, hloop] at hres
      obtain ⟨rfl, hodd⟩ := existRunnable_eq_swtch hres
      exact hodd
  · have hres : resume .odd p t = .swtch .odd q t := by simp only [resume, hloop]
    constructor
    · intro h
      exact .inl (h .odd q t hres hq.2)
    · rintro (h | h) f r t' hres'
      · rw [hres] at hres'
        cases hres'
        exact fun _ => h
      · exact absurd (h s hfind) hs.2

variable {ι : Type}

/-- An odd process may leave a processor only where the odd loop is undisturbed. -/
def LeavesUndisturbed (m : Machine policy ι) : Label ι → Prop
  | .leave i how =>
    match m.cpu i with
    | .process p .odd => Undisturbed p (how.run p m.table)
    | _ => True
  | _ => True

theorem dispatch_even_first (hl : LeavesUndisturbed m l) (h : m.Dispatches l p t) (hp : (t.proc p).pid % 2 ≠ 0) :
    ∀ q, ¬ EvenRunnable t q := by
  obtain ⟨f, hf⟩ := h
  cases l with
  | tick | wakeup | «section» => cases hf
  | pass =>
    rw [outcome] at hf
    split at hf
    case h_1 =>
      obtain ⟨rfl, hodd⟩ := existRunnable_eq_swtch (Option.some.inj hf)
      exact hodd hp
    case h_2 => cases hf
  | leave =>
    rw [outcome] at hf
    rw [LeavesUndisturbed] at hl
    split at hf
    case h_1 => cases hf
    case h_2 q g hcpu =>
      rw [hcpu] at hl
      cases g with
      | even =>
        obtain ⟨rfl, hodd⟩ := existRunnable_eq_swtch (Option.some.inj hf)
        exact hodd hp
      | odd => exact (resume_odd_iff q _).mpr hl f p t (Option.some.inj hf) hp

variable [DecidableEq ι]

/-- Along every run in which odd processes leave their processors only while the odd
loop is undisturbed, an odd process is switched to only when no even one is `RUNNABLE`. -/
theorem odd_dispatched_without_even {m₀ m : Machine policy ι}
    {tr : List (Machine policy ι × Label ι)} (hr : Run (Steps Machine.step) m₀ tr m)
    (hc : Meets LeavesUndisturbed tr) :
    ∀ e ∈ tr, ∀ p t, e.1.Dispatches e.2 p t → (t.proc p).pid % 2 ≠ 0 →
      ∀ q, (t.proc q).pid % 2 = 0 → (t.proc q).state ≠ .runnable := by
  have hall : Meets (fun m l => ∀ p t, m.Dispatches l p t → (t.proc p).pid % 2 ≠ 0 →
      ∀ q, ¬ EvenRunnable t q) tr := by
    refine hr.meets (I := fun _ => True) ?_ trivial hc
    intro s l s' _ hl _
    exact ⟨trivial, fun p t h hp => dispatch_even_first hl h hp⟩
  intro e he p t h hp q heven hrun
  exact hall e he p t h hp q ⟨hrun, heven⟩

/-- Two odd processes on one processor; the next pid is even. -/
def pair : Machine policy Unit where
  table := ⟨fun p => if p = 0 then { pid := 1, state := .runnable, time_c := 1 }
    else if p = 1 then { pid := 3, state := .runnable, time_c := 2 } else {}, 4, some 0⟩
  ticks := 5
  cpu := fun _ => .scheduler ()

def pairRunning : Machine policy Unit :=
  { pair.enter () (.swtch .odd 0 pair.table) with ticks := pair.ticks + BitVec.ofNat 32 0 }

set_option maxRecDepth 4000 in
theorem run_pairRunning : Run (Steps step) pair [(pair, .pass () 0)] pairRunning := by
  have hnone : ¬ ∃ p, EvenRunnable pair.table p := by decide +kernel
  have hfind : slots.find? (fun p => EvenRunnable pair.table p) = none := by decide +kernel
  have hodd : oddLoop pair.table slots = .swtch 0 := rfl
  have hpass : existRunnable pair.table slots = .swtch .odd 0 pair.table := by
    unfold existRunnable
    split
    case h_1 p hp => simp [hfind] at hp
    case h_2 =>
      rw [dif_neg hnone]
      split
      case h_1 hgoto => exact absurd (exists_even_of_goto hgoto) hnone
      case h_2 p hp =>
        rw [hodd] at hp
        cases hp
        rfl
      case h_3 hrel =>
        rw [hodd] at hrel
        cases hrel
  have hout : pair.outcome (.pass () 0) = some (.swtch .odd 0 pair.table) := congrArg some hpass
  refine .snoc Run.start ?_
  simp only [Steps, step, hout]
  rfl

/-- The first process yields, and no even process is `RUNNABLE`. -/
theorem odd_dispatched_without_even_pair :
    Meets LeavesUndisturbed [(pair, .pass () 0), (pairRunning, .leave () .yield)] ∧
      ∀ e ∈ [(pair, .pass () 0), (pairRunning, .leave () .yield)],
        ∀ p t, e.1.Dispatches e.2 p t → (t.proc p).pid % 2 ≠ 0 →
          ∀ q, (t.proc q).pid % 2 = 0 → (t.proc q).state ≠ .runnable := by
  have hyield : Undisturbed 0 (pairRunning.table.yield 0) := by
    left
    decide +kernel
  have hc : Meets LeavesUndisturbed [(pair, .pass () 0), (pairRunning, .leave () .yield)] := by
    rintro e (_ | ⟨_, _ | ⟨_, he⟩⟩)
    · trivial
    · exact hyield
    · cases he
  exact ⟨hc, odd_dispatched_without_even (run_pairRunning.snoc (steps_after rfl)) hc⟩

/-- The first process has forked a child with pid 4. -/
def pairForked : Machine policy Unit :=
  after Machine.step (after Machine.step pairRunning (.section () .alloc)) (.section () (.forked 2))

set_option maxRecDepth 4000 in
/-- The child is `RUNNABLE`, yet the odd loop goes on with an odd process when the first
one yields. -/
theorem odd_dispatched_past_even_child :
    ∃ tr m, Run (Steps step) pair tr m ∧ ∃ e ∈ tr, ∃ p t, e.1.Dispatches e.2 p t ∧
      (t.proc p).pid % 2 ≠ 0 ∧ ∃ q, (t.proc q).pid % 2 = 0 ∧ (t.proc q).state = .runnable := by
  have hr := ((run_pairRunning.snoc (steps_after (l := .section () .alloc) rfl)).snoc
    (steps_after (l := .section () (.forked 2)) rfl)).snoc
    (steps_after (l := .leave () .yield) rfl)
  refine ⟨_, _, hr, _, List.mem_append_right _ (List.mem_singleton_self _), 0,
    pairForked.table.yield 0, ⟨.odd, rfl⟩, ?_, 2, ?_⟩
  · decide +kernel
  · decide +kernel

end Xv6.Sched.Mlq
