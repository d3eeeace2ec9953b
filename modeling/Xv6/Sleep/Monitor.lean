import Mathlib.Data.List.Basic
import Xv6.Lib.Run
import Xv6.Proc.Table

/-! # Sleeping on a channel under a spin-lock

Processes that share data under a lock `lk` and call `sleep(chan, lk)` and `wakeup(chan)`.
`sleep` and `wakeup` run at the steps of `proc.c`, one for each lock operation, on the
process table; what a process does between two such calls is a parameter.
-/
namespace Xv6.Monitor

/-- `ptable.lock`, and a lock that is not `ptable.lock`. -/
inductive Lock
  | ptable | own
  deriving DecidableEq

/-- What a process does next. `wakeup1` is for callers that hold `ptable.lock`. -/
inductive Act (D L : Type)
  | acquire (l : L)
  | release (l : L)
  | update (d : D) (l : L)
  | sleep (chan : Chan) (l : L)
  | wakeup (chan : Chan) (l : L)
  | wakeup1 (chan : Chan) (l : L)
  | ret (r : ℤ)

/-- Code over the data `D`: its program points `L`, and the action at each of them, which
may depend on the data and on `myproc()->killed`. -/
structure Client (D L C : Type) where
  lk : Lock
  enter : C → L
  act : L → D → (killed : Bool) → Act D L

/-- Where a process is: out of a call, at a program point, at a line of `sleep`, or at a line
of `wakeup`. -/
inductive Pc (L : Type)
  | idle (r : ℤ)
  | run (l : L)
  | lockTable (chan : Chan) (l : L)
  | giveUp (chan : Chan) (l : L)
  | fall (chan : Chan) (l : L)
  | sched (chan : Chan) (l : L)
  | asleep (chan : Chan) (l : L)
  | tidy (l : L)
  | unlock (l : L)
  | relock (l : L)
  | wake (chan : Chan) (l : L)
  | waking (chan : Chan) (l : L)
  | woken (l : L)

/-- The history counts the updates of the data and the calls of `wakeup` on each channel:
`made p` lists the updates by `p`, `answered c` those whose maker has called `wakeup(c)`
after them, `seen p` is the number of updates when `p` last called `sleep`, and `began p` the
number of calls of `wakeup` on its channel when it then gave up the lock. -/
structure State (D L : Type) where
  pt : PTable
  holder : Lock → Option Slot
  data : D
  pc : Slot → Pc L
  updates : ℕ := 0
  made : Slot → List ℕ := fun _ => []
  answered : Chan → List ℕ := fun _ => []
  wakeups : Chan → ℕ := fun _ => 0
  seen : Slot → ℕ := fun _ => 0
  began : Slot → ℕ := fun _ => 0

variable {D L C : Type}

namespace State
variable (s : State D L) (p : Slot)

def setPc (c : Pc L) : State D L := { s with pc := Function.update s.pc p c }

def acquire (l : Lock) (c : Pc L) : Option (State D L) :=
  if s.holder l = none then some { s.setPc p c with holder := Function.update s.holder l (some p) } else none

def release (l : Lock) (c : Pc L) : Option (State D L) :=
  if s.holder l = some p then some { s.setPc p c with holder := Function.update s.holder l none } else none

def update (d : D) : State D L :=
  { s with
    data := d
    updates := s.updates + 1
    made := Function.update s.made p ((s.updates + 1) :: s.made p) }

def look : State D L := { s with seen := Function.update s.seen p s.updates }

def begin (chan : Chan) : State D L := { s with began := Function.update s.began p (s.wakeups chan) }

def wakeup1 (chan : Chan) : State D L :=
  { s with
    pt := s.pt.wakeup1 chan
    wakeups := Function.update s.wakeups chan (s.wakeups chan + 1)
    answered := Function.update s.answered chan (s.made p ++ s.answered chan) }

end State

def perform (cl : Client D L C) (s : State D L) (p : Slot) : Act D L → Option (State D L)
  | .acquire l => s.acquire p cl.lk (.run l)
  | .release l => s.release p cl.lk (.run l)
  | .update d l => if s.holder cl.lk = some p then some ((s.update p d).setPc p (.run l)) else none
  | .sleep chan l =>
    if s.holder cl.lk = some p then
      if cl.lk = .ptable then some (((s.look p).begin p chan).setPc p (.fall chan l))
      else some ((s.look p).setPc p (.lockTable chan l))
    else none
  | .wakeup chan l => some (s.setPc p (.wake chan l))
  | .wakeup1 chan l => if s.holder .ptable = some p then some ((s.wakeup1 p chan).setPc p (.run l)) else none
  | .ret r => some (s.setPc p (.idle r))

/-- The next step of a process. The scheduler releases `ptable.lock` for a process that
sleeps, and holds it when it lets a runnable process go on. -/
def go (cl : Client D L C) (s : State D L) (p : Slot) : Option (State D L) :=
  match s.pc p with
  | .idle _ => none
  | .run l => perform cl s p (cl.act l s.data (s.pt.proc p).killed)
  | .lockTable chan l => s.acquire p .ptable (.giveUp chan l)
  | .giveUp chan l => (s.begin p chan).release p cl.lk (.fall chan l)
  | .fall chan l => some (State.setPc { s with pt := s.pt.sleep p chan } p (.sched chan l))
  | .sched chan l => s.release p .ptable (.asleep chan l)
  | .asleep _ l =>
    if (s.pt.proc p).state = .runnable then
      State.acquire { s with pt := s.pt.modify p fun pr => { pr with state := .running } } p .ptable (.tidy l)
    else none
  | .tidy l =>
    some (State.setPc { s with pt := s.pt.modify p fun pr => { pr with chan := none } } p
      (if cl.lk = .ptable then .run l else .unlock l))
  | .unlock l => s.release p .ptable (.relock l)
  | .relock l => s.acquire p cl.lk (.run l)
  | .wake chan l => s.acquire p .ptable (.waking chan l)
  | .waking chan l => some ((s.wakeup1 p chan).setPc p (.woken l))
  | .woken l => s.release p .ptable (.run l)

inductive Label (C : Type)
  | start (p : Slot) (call : C)
  | go (p : Slot)
  | kill (pid : ℤ)

/-- A process that runs may start a call; any process in a call may take its next step; and
`kill` may come in whenever `ptable.lock` is free. -/
def step (cl : Client D L C) (s : State D L) : Label C → Option (State D L)
  | .start p call =>
    match s.pc p with
    | .idle _ => if (s.pt.proc p).state = .running then some (s.setPc p (.run (cl.enter call))) else none
    | _ => none
  | .go p => go cl s p
  | .kill pid => if s.holder .ptable = none then some { s with pt := (s.pt.kill pid).2 } else none

/-- Everything that a step can do, with what it has tested. -/
inductive Move (cl : Client D L C) (s : State D L) : Label C → State D L → Prop
  | start {p : Slot} {call : C} {r : ℤ} (hpc : s.pc p = .idle r) (hrun : (s.pt.proc p).state = .running) :
      Move cl s (.start p call) (s.setPc p (.run (cl.enter call)))
  | kill {pid : ℤ} (hfree : s.holder .ptable = none) : Move cl s (.kill pid) { s with pt := (s.pt.kill pid).2 }
  | acquire {p : Slot} {l l' : L} (hpc : s.pc p = .run l)
      (hact : cl.act l s.data (s.pt.proc p).killed = .acquire l') (hfree : s.holder cl.lk = none) :
      Move cl s (.go p) { s.setPc p (.run l') with holder := Function.update s.holder cl.lk (some p) }
  | release {p : Slot} {l l' : L} (hpc : s.pc p = .run l)
      (hact : cl.act l s.data (s.pt.proc p).killed = .release l') (hheld : s.holder cl.lk = some p) :
      Move cl s (.go p) { s.setPc p (.run l') with holder := Function.update s.holder cl.lk none }
  | update {p : Slot} {l l' : L} {d : D} (hpc : s.pc p = .run l)
      (hact : cl.act l s.data (s.pt.proc p).killed = .update d l') (hheld : s.holder cl.lk = some p) :
      Move cl s (.go p) ((s.update p d).setPc p (.run l'))
  | sleepTable {p : Slot} {l l' : L} {chan : Chan} (hpc : s.pc p = .run l)
      (hact : cl.act l s.data (s.pt.proc p).killed = .sleep chan l') (hheld : s.holder cl.lk = some p)
      (hlk : cl.lk = .ptable) : Move cl s (.go p) (((s.look p).begin p chan).setPc p (.fall chan l'))
  | sleep {p : Slot} {l l' : L} {chan : Chan} (hpc : s.pc p = .run l)
      (hact : cl.act l s.data (s.pt.proc p).killed = .sleep chan l') (hheld : s.holder cl.lk = some p)
      (hlk : cl.lk ≠ .ptable) : Move cl s (.go p) ((s.look p).setPc p (.lockTable chan l'))
  | wakeup {p : Slot} {l l' : L} {chan : Chan} (hpc : s.pc p = .run l)
      (hact : cl.act l s.data (s.pt.proc p).killed = .wakeup chan l') :
      Move cl s (.go p) (s.setPc p (.wake chan l'))
  | wakeup1 {p : Slot} {l l' : L} {chan : Chan} (hpc : s.pc p = .run l)
      (hact : cl.act l s.data (s.pt.proc p).killed = .wakeup1 chan l') (hheld : s.holder .ptable = some p) :
      Move cl s (.go p) ((s.wakeup1 p chan).setPc p (.run l'))
  | ret {p : Slot} {l : L} {r : ℤ} (hpc : s.pc p = .run l)
      (hact : cl.act l s.data (s.pt.proc p).killed = .ret r) : Move cl s (.go p) (s.setPc p (.idle r))
  | lockTable {p : Slot} {l : L} {chan : Chan} (hpc : s.pc p = .lockTable chan l)
      (hfree : s.holder .ptable = none) :
      Move cl s (.go p) { s.setPc p (.giveUp chan l) with holder := Function.update s.holder .ptable (some p) }
  | giveUp {p : Slot} {l : L} {chan : Chan} (hpc : s.pc p = .giveUp chan l) (hheld : s.holder cl.lk = some p) :
      Move cl s (.go p)
        { (s.begin p chan).setPc p (.fall chan l) with holder := Function.update s.holder cl.lk none }
  | fall {p : Slot} {l : L} {chan : Chan} (hpc : s.pc p = .fall chan l) :
      Move cl s (.go p) (State.setPc { s with pt := s.pt.sleep p chan } p (.sched chan l))
  | sched {p : Slot} {l : L} {chan : Chan} (hpc : s.pc p = .sched chan l) (hheld : s.holder .ptable = some p) :
      Move cl s (.go p) { s.setPc p (.asleep chan l) with holder := Function.update s.holder .ptable none }
  | resume {p : Slot} {l : L} {chan : Chan} (hpc : s.pc p = .asleep chan l)
      (hwoken : (s.pt.proc p).state = .runnable) (hfree : s.holder .ptable = none) :
      Move cl s (.go p)
        { s.setPc p (.tidy l) with
          pt := s.pt.modify p fun pr => { pr with state := .running }
          holder := Function.update s.holder .ptable (some p) }
  | tidy {p : Slot} {l : L} (hpc : s.pc p = .tidy l) :
      Move cl s (.go p) (State.setPc { s with pt := s.pt.modify p fun pr => { pr with chan := none } } p
        (if cl.lk = .ptable then .run l else .unlock l))
  | unlock {p : Slot} {l : L} (hpc : s.pc p = .unlock l) (hheld : s.holder .ptable = some p) :
      Move cl s (.go p) { s.setPc p (.relock l) with holder := Function.update s.holder .ptable none }
  | relock {p : Slot} {l : L} (hpc : s.pc p = .relock l) (hfree : s.holder cl.lk = none) :
      Move cl s (.go p) { s.setPc p (.run l) with holder := Function.update s.holder cl.lk (some p) }
  | wake {p : Slot} {l : L} {chan : Chan} (hpc : s.pc p = .wake chan l) (hfree : s.holder .ptable = none) :
      Move cl s (.go p) { s.setPc p (.waking chan l) with holder := Function.update s.holder .ptable (some p) }
  | waking {p : Slot} {l : L} {chan : Chan} (hpc : s.pc p = .waking chan l) :
      Move cl s (.go p) ((s.wakeup1 p chan).setPc p (.woken l))
  | woken {p : Slot} {l : L} (hpc : s.pc p = .woken l) (hheld : s.holder .ptable = some p) :
      Move cl s (.go p) { s.setPc p (.run l) with holder := Function.update s.holder .ptable none }

section Moves
variable {cl : Client D L C} {s s' : State D L} {p : Slot}

theorem State.acquire_eq_some {l : Lock} {c : Pc L} (h : s.acquire p l c = some s') :
    s.holder l = none ∧ s' = { s.setPc p c with holder := Function.update s.holder l (some p) } := by
  unfold State.acquire at h
  split at h
  case isTrue hfree =>
    cases h
    exact ⟨hfree, rfl⟩
  case isFalse => cases h

theorem State.release_eq_some {l : Lock} {c : Pc L} (h : s.release p l c = some s') :
    s.holder l = some p ∧ s' = { s.setPc p c with holder := Function.update s.holder l none } := by
  unfold State.release at h
  split at h
  case isTrue hheld =>
    cases h
    exact ⟨hheld, rfl⟩
  case isFalse => cases h

theorem perform_move (hpc : s.pc p = .run l)
    (hact : cl.act l s.data (s.pt.proc p).killed = a) (h : perform cl s p a = some s') : Move cl s (.go p) s' := by
  cases a with
  | acquire =>
    obtain ⟨hfree, rfl⟩ := State.acquire_eq_some h
    exact .acquire hpc hact hfree
  | release =>
    obtain ⟨hheld, rfl⟩ := State.release_eq_some h
    exact .release hpc hact hheld
  | update =>
    obtain ⟨hheld, h⟩ := Option.ite_none_right_eq_some.mp h
    cases h
    exact .update hpc hact hheld
  | sleep =>
    obtain ⟨hheld, h⟩ := Option.ite_none_right_eq_some.mp h
    split at h
    case isTrue hlk =>
      cases h
      exact .sleepTable hpc hact hheld hlk
    case isFalse hlk =>
      cases h
      exact .sleep hpc hact hheld hlk
  | wakeup =>
    cases h
    exact .wakeup hpc hact
  | wakeup1 =>
    obtain ⟨hheld, h⟩ := Option.ite_none_right_eq_some.mp h
    cases h
    exact Move.wakeup1 hpc hact hheld
  | ret =>
    cases h
    exact .ret hpc hact

theorem go_move (h : go cl s p = some s') : Move cl s (.go p) s' := by
  unfold go at h
  cases hpc : s.pc p with
  | idle =>
    rw [hpc] at h
    cases h
  | run =>
    rw [hpc] at h
    exact perform_move hpc rfl h
  | lockTable =>
    rw [hpc] at h
    obtain ⟨hfree, rfl⟩ := State.acquire_eq_some h
    exact .lockTable hpc hfree
  | giveUp =>
    rw [hpc] at h
    obtain ⟨hheld, rfl⟩ := State.release_eq_some h
    exact .giveUp hpc hheld
  | fall =>
    rw [hpc] at h
    cases h
    exact .fall hpc
  | sched =>
    rw [hpc] at h
    obtain ⟨hheld, rfl⟩ := State.release_eq_some h
    exact .sched hpc hheld
  | asleep =>
    rw [hpc] at h
    obtain ⟨hwoken, h⟩ := Option.ite_none_right_eq_some.mp h
    obtain ⟨hfree, rfl⟩ := State.acquire_eq_some h
    exact .resume hpc hwoken hfree
  | tidy =>
    rw [hpc] at h
    cases h
    exact .tidy hpc
  | unlock =>
    rw [hpc] at h
    obtain ⟨hheld, rfl⟩ := State.release_eq_some h
    exact .unlock hpc hheld
  | relock =>
    rw [hpc] at h
    obtain ⟨hfree, rfl⟩ := State.acquire_eq_some h
    exact .relock hpc hfree
  | wake =>
    rw [hpc] at h
    obtain ⟨hfree, rfl⟩ := State.acquire_eq_some h
    exact .wake hpc hfree
  | waking =>
    rw [hpc] at h
    cases h
    exact .waking hpc
  | woken =>
    rw [hpc] at h
    obtain ⟨hheld, rfl⟩ := State.release_eq_some h
    exact .woken hpc hheld

theorem step_move (h : step cl s l = some s') : Move cl s l s' := by
  cases l with
  | start p =>
    cases hpc : s.pc p with
    | idle =>
      simp only [step, hpc] at h
      obtain ⟨hrun, h⟩ := Option.ite_none_right_eq_some.mp h
      cases h
      exact .start hpc hrun
    | _ =>
      simp only [step, hpc] at h
      cases h
  | go => exact go_move h
  | kill =>
    obtain ⟨hfree, h⟩ := Option.ite_none_right_eq_some.mp h
    cases h
    exact .kill hfree

/-- The data change only where the code says so. -/
theorem Move.data (h : Move cl s lb s') : s'.data = s.data ∨
    ∃ l killed l', cl.act l s.data killed = .update s'.data l' := by
  cases h with
  | update hpc hact => exact .inr ⟨_, _, _, hact⟩
  | _ => exact .inl rfl

end Moves
end Xv6.Monitor
