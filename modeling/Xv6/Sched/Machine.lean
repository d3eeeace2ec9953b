import Xv6.Lib.Run
import Xv6.Proc.Table

/-! # Processors that share the process table

A processor is either in `scheduler` or runs the process it switched to. The
scheduler holds `ptable.lock` from the start of a pass to `swtch`, and a process
comes back to it with the lock held, so that each stretch of the scheduler between
two switches is one step. A scheduling policy gives these stretches.
-/
namespace Xv6.Sched

/-- Where a stretch of the scheduler ends: at the `swtch` to `p`, with `f` kept on the
scheduler's stack, or at the end of the pass. `t` is the table at that point. -/
inductive Outcome (Frame Locals : Type)
  | swtch (f : Frame) (p : Slot) (t : PTable)
  | release (l : Locals) (t : PTable)

/-- One `scheduler` function. `pass` runs from the top of the outer loop, with the
values of the first and the second read of `ticks`; `resume` runs from the return of
the `swtch` to `p`. -/
structure Policy where
  Locals : Type
  Frame : Type
  mlfq : Bool
  pass : Word → Word → Locals → PTable → Outcome Frame Locals
  resume : Frame → Slot → PTable → Outcome Frame Locals

inductive Cpu (P : Policy)
  | scheduler (l : P.Locals)
  | process (p : Slot) (f : P.Frame)

structure Machine (P : Policy) (ι : Type) where
  table : PTable
  ticks : Word
  cpu : ι → Cpu P

/-- Critical sections that a running process goes through without giving up its
processor. `fork` is `alloc`, then `abandon` or `forked`. -/
inductive Section
  | alloc
  | abandon (np : Slot)
  | forked (np : Slot)
  | awake
  | wakeup (chan : Chan)
  | kill (pid : ℤ)
  | setpriority (pid priority : ℤ)
  | wait
  deriving DecidableEq

namespace Section

/-- `none` is a section that `p` cannot go through in this table. -/
def run (mlfq : Bool) (ticks : Word) (p : Slot) (t : PTable) : Section → Option PTable
  | alloc => some (match t.allocproc mlfq ticks with
      | some (_, t') => t'
      | none => t)
  | abandon np =>
    if (t.proc np).state = .embryo then
      some (t.modify np (fun pr => { pr with kstack := none, state := .unused }))
    else none
  | forked np =>
    if (t.proc np).state = .embryo then
      some (t.modify np (fun pr => { pr with parent := some p, state := .runnable }))
    else none
  | awake => some (t.modify p (fun pr => { pr with chan := none }))
  | wakeup chan => some (t.wakeup1 chan)
  | kill pid => some (t.kill pid).2
  | setpriority pid priority => (t.setpriority p pid priority).map Prod.snd
  | wait =>
    match t.wait p with
    | .reaped _ _ t' => some t'
    | .none => some t
    | .sleep => none

end Section

/-- How a process gives up its processor: the timer calls `yield`, the system call
of an MLFQ kernel `yield2`. -/
inductive Leave
  | yield
  | yield2
  | sleep (chan : Chan)
  | exit
  deriving DecidableEq

def Leave.run (p : Slot) (t : PTable) : Leave → PTable
  | yield => t.yield p
  | yield2 => t.yield2 p
  | sleep chan => t.sleep p chan
  | exit => t.exit p

/-- `pass i n` is a stretch from the top of the loop during which `n` timer ticks
reach other processors between the two reads of `ticks`. -/
inductive Label (ι : Type)
  | tick
  | wakeup (chan : Chan)
  | section (i : ι) (a : Section)
  | pass (i : ι) (n : ℕ)
  | leave (i : ι) (how : Leave)

namespace Machine
variable {P : Policy} {ι : Type} [DecidableEq ι]

/-- The scheduler's stretch that a step runs, if any. -/
def outcome (m : Machine P ι) : Label ι → Option (Outcome P.Frame P.Locals)
  | .pass i n =>
    match m.cpu i with
    | .scheduler l => some (P.pass m.ticks (m.ticks + BitVec.ofNat 32 n) l m.table)
    | .process _ _ => none
  | .leave i how =>
    match m.cpu i with
    | .scheduler _ => none
    | .process p f => some (P.resume f p (how.run p m.table))
  | _ => none

/-- The end of a stretch on processor `i`; `swtch` marks the process `RUNNING`. -/
def enter (m : Machine P ι) (i : ι) : Outcome P.Frame P.Locals → Machine P ι
  | .swtch f p t =>
    { m with
      table := t.modify p (fun pr => { pr with state := .running })
      cpu := Function.update m.cpu i (.process p f) }
  | .release l t => { m with table := t, cpu := Function.update m.cpu i (.scheduler l) }

def step (m : Machine P ι) (l : Label ι) : Option (Machine P ι) :=
  match l with
  | .tick => some { m with ticks := m.ticks + 1 }
  | .wakeup chan => some { m with table := m.table.wakeup1 chan }
  | .section i a =>
    match m.cpu i with
    | .scheduler _ => none
    | .process p _ => (a.run P.mlfq m.ticks p m.table).map fun t => { m with table := t }
  | .pass i n =>
    (m.outcome l).map fun o => { m.enter i o with ticks := m.ticks + BitVec.ofNat 32 n }
  | .leave i _ => (m.outcome l).map (m.enter i)

/-- The step `l` switches to `p`, which it chose in table `t`. -/
def Dispatches (m : Machine P ι) (l : Label ι) (p : Slot) (t : PTable) : Prop :=
  ∃ f, m.outcome l = some (.swtch f p t)

/-- The slot that the step switches to, if any. -/
def dispatched (m : Machine P ι) (l : Label ι) : Option Slot :=
  match m.outcome l with
  | some (.swtch _ p _) => some p
  | _ => none

variable {m : Machine P ι} {l : Label ι} {f : P.Frame} {p : Slot}

theorem dispatched_of_outcome (h : m.outcome l = some (.swtch f p t)) : m.dispatched l = some p := by
  rw [dispatched, h]

theorem dispatched_iff : m.dispatched l = some p ↔ ∃ t, m.Dispatches l p t := by
  constructor
  · intro h
    rw [dispatched] at h
    split at h
    case h_1 f q t hq =>
      cases h
      exact ⟨t, f, hq⟩
    case h_2 => cases h
  · rintro ⟨t, f, h⟩
    exact dispatched_of_outcome h

section Inversion
variable {m m' : Machine P ι} {i : ι}

theorem step_section_eq_some (h : m.step (.section i a) = some m') :
    ∃ p f t, m.cpu i = .process p f ∧ a.run P.mlfq m.ticks p m.table = some t ∧
      m' = { m with table := t } := by
  cases hcpu : m.cpu i with
  | scheduler => simp only [step, hcpu, reduceCtorEq] at h
  | process p f =>
    simp only [step, hcpu, Option.map_eq_some_iff] at h
    obtain ⟨t, ht, rfl⟩ := h
    exact ⟨p, f, t, rfl, ht, rfl⟩

theorem step_pass_eq_some {n : ℕ} (h : m.step (.pass i n) = some m') : ∃ l, m.cpu i = .scheduler l ∧
      m' = { m.enter i (P.pass m.ticks (m.ticks + BitVec.ofNat 32 n) l m.table) with
        ticks := m.ticks + BitVec.ofNat 32 n } := by
  cases hcpu : m.cpu i with
  | process => simp only [step, outcome, hcpu, Option.map_none, reduceCtorEq] at h
  | scheduler l =>
    simp only [step, outcome, hcpu, Option.map_some, Option.some.injEq] at h
    exact ⟨l, rfl, h.symm⟩

theorem step_leave_eq_some (h : m.step (.leave i how) = some m') :
    ∃ p f, m.cpu i = .process p f ∧ m' = m.enter i (P.resume f p (how.run p m.table)) := by
  cases hcpu : m.cpu i with
  | scheduler => simp only [step, outcome, hcpu, Option.map_none, reduceCtorEq] at h
  | process p f =>
    simp only [step, outcome, hcpu, Option.map_some, Option.some.injEq] at h
    exact ⟨p, f, rfl, h.symm⟩

theorem outcome_pass {l : P.Locals} (hcpu : m.cpu i = .scheduler l) (n : ℕ) :
    m.outcome (.pass i n) = some (P.pass m.ticks (m.ticks + BitVec.ofNat 32 n) l m.table) := by
  rw [outcome, hcpu]

theorem outcome_leave (hcpu : m.cpu i = .process p f) (how : Leave) :
    m.outcome (.leave i how) = some (P.resume f p (how.run p m.table)) := by
  rw [outcome, hcpu]

end Inversion

end Machine
end Xv6.Sched
