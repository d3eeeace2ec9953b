import Mathlib.Data.List.FinRange
import Mathlib.Logic.Function.Basic
import Xv6.Lib.CString
import Xv6.Vm.PageTable

/-! # The process table

`struct proc` and the critical sections of `proc.c` under `ptable.lock`, each a
function on the whole table. Slots are table indices, so a `struct proc *` is a
slot and a null pointer is `none`.
-/
namespace Xv6

def NPROC : ℕ := 64
def NOFILE : ℕ := 16
def NFILE : ℕ := 100
def NINODE : ℕ := 50

instance : NeZero NPROC := ⟨by decide⟩
instance : NeZero NFILE := ⟨by decide⟩
instance : NeZero NINODE := ⟨by decide⟩

abbrev Slot := Fin NPROC
/-- An index into `ftable.file`, for `struct file *`. -/
abbrev FileIdx := Fin NFILE
/-- An index into `icache.inode`, for `struct inode *`. -/
abbrev InodeIdx := Fin NINODE

inductive ProcState
  | unused | embryo | sleeping | runnable | running | zombie
  deriving DecidableEq, Repr

inductive ExecMode
  | user | administrator
  deriving DecidableEq, Repr

/-- Sleep channels: the addresses that callers of `sleep` use. -/
inductive Chan
  | proc (p : Slot)
  | ticks
  | addr (a : ℕ)
  deriving DecidableEq, Repr

/-- The saved user registers that system calls read or set. -/
structure Trapframe where
  eip : Word := 0
  esp : Word := 0
  eax : Word := 0
  deriving DecidableEq

structure Proc where
  sz : Word := 0
  pgdir : Vm.Pgdir := ⟨0, [], fun _ => none⟩
  kstack : Option Vm.Frame := none
  state : ProcState := .unused
  pid : ℤ := 0
  parent : Option Slot := none
  tf : Trapframe := {}
  chan : Option Chan := none
  killed : Bool := false
  ofile : Fin NOFILE → Option FileIdx := fun _ => none
  cwd : Option InodeIdx := none
  name : List UInt8 := []
  time_c : Word := 0
  priority : ℤ := 0
  level : ℤ := 0
  hold : ℤ := 0
  mode : ExecMode := .user
  limit : Word := 0
  userid : CStr := .empty

/-- `ptable` with the globals that go with it. -/
structure PTable where
  proc : Slot → Proc
  nextpid : ℤ
  initproc : Option Slot

def MIN_PRIORITY : ℤ := 0
def MAX_PRIORITY : ℤ := 10
def TIME_QUANTUM (level : ℤ) : ℤ := ([4, 6, 8, 10, 12] : List ℤ).getD level.toNat 0

def root : CStr := CStr.ofString "root"

namespace PTable

def modify (t : PTable) (p : Slot) (f : Proc → Proc) : PTable :=
  { t with proc := Function.update t.proc p (f (t.proc p)) }

theorem modify_proc (t : PTable) (p q : Slot) (f : Proc → Proc) :
    (t.modify p f).proc q = if q = p then f (t.proc p) else t.proc q := by
  simp only [modify, Function.update_apply]

/-- The slots in table order, for the loops `for(p = ptable.proc; ...)`. -/
def slots : List Slot := List.finRange NPROC

/-- The scan of `allocproc`: the first `UNUSED` slot. -/
def firstUnused (t : PTable) : Option Slot := slots.find? (fun p => (t.proc p).state = .unused)

/-- What `allocproc` stores into the slot it found; the queue fields are set only
in a kernel built with `MLFQ_SCHED`. -/
def embryo (mlfq : Bool) (ticks : Word) (pid : ℤ) (p : Proc) : Proc :=
  { p with
    state := .embryo
    pid := pid
    time_c := ticks
    priority := if mlfq then MIN_PRIORITY else p.priority
    level := if mlfq then 0 else p.level
    hold := if mlfq then TIME_QUANTUM 0 else p.hold
    mode := .user
    limit := 0
    userid := root }

/-- The critical section of `allocproc`. -/
def allocproc (mlfq : Bool) (ticks : Word) (t : PTable) : Option (Slot × PTable) :=
  t.firstUnused.map fun np =>
    (np, { t.modify np (embryo mlfq ticks t.nextpid) with nextpid := t.nextpid + 1 })

def wakeup1 (t : PTable) (chan : Chan) : PTable :=
  { t with proc := fun p =>
      if (t.proc p).state = .sleeping ∧ (t.proc p).chan = some chan then
        { t.proc p with state := .runnable }
      else t.proc p }

/-- What `kill` does to the process it found. -/
def killed (p : Proc) : Proc :=
  { p with killed := true, state := if p.state = .sleeping then .runnable else p.state }

def kill (t : PTable) (pid : ℤ) : ℤ × PTable :=
  match slots.find? (fun p => (t.proc p).pid = pid) with
  | some p => (0, t.modify p killed)
  | none => (-1, t)

def sleep (t : PTable) (p : Slot) (chan : Chan) : PTable :=
  t.modify p (fun pr => { pr with chan := some chan, state := .sleeping })

def yield (t : PTable) (p : Slot) : PTable :=
  t.modify p (fun pr => { pr with state := .runnable })

/-- The `yield` system call of an `MLFQ_SCHED` kernel. -/
def yield2 (t : PTable) (p : Slot) : PTable :=
  t.modify p (fun pr => { pr with state := .runnable, level := 0, hold := TIME_QUANTUM 0 })

/-- The children of `p` are passed to init; `wakeup1(initproc)` runs for each of
them that is a zombie. -/
def reparent (p : Slot) : List Slot → PTable → PTable
  | [], t => t
  | q :: qs, t =>
    if (t.proc q).parent = some p then
      let t' := t.modify q (fun pr => { pr with parent := t.initproc })
      match (t.proc q).state, t.initproc with
      | .zombie, some i => reparent p qs (t'.wakeup1 (.proc i))
      | _, _ => reparent p qs t'
    else reparent p qs t

/-- The critical section of `exit`, up to the call of `sched`. -/
def exit (t : PTable) (p : Slot) : PTable :=
  let t := match (t.proc p).parent with
    | some q => t.wakeup1 (.proc q)
    | none => t
  (reparent p slots t).modify p (fun pr => { pr with state := .zombie })

/-- What one round of the loop in `wait` finds. -/
inductive WaitResult
  | reaped (child : Slot) (pid : ℤ) (t : PTable)
  | none
  | sleep

/-- What `wait` stores into the slot of a zombie child. -/
def reap (p : Proc) : Proc :=
  { p with kstack := none, pid := 0, parent := none, name := [], killed := false, state := .unused }

/-- One round of the loop in `wait`, without the release of the child's memory. -/
def wait (t : PTable) (p : Slot) : WaitResult :=
  match slots.find? (fun q => (t.proc q).parent = some p ∧ (t.proc q).state = .zombie) with
  | some q => .reaped q (t.proc q).pid (t.modify q reap)
  | none =>
    if (∀ q, (t.proc q).parent ≠ some p) ∨ (t.proc p).killed = true then .none else .sleep

/-- `setpriority` follows `p->parent` of every slot whose pid matches; `none` is a
null pointer dereference. -/
def setpriority (t : PTable) (caller : Slot) (pid priority : ℤ) : Option (ℤ × PTable) :=
  if priority < MIN_PRIORITY ∨ MAX_PRIORITY < priority then some (-2, t)
  else if ∃ p, (t.proc p).pid = pid ∧ (t.proc p).parent = none then none
  else
    let hit (p : Slot) : Prop := (t.proc p).pid = pid ∧
      ∃ q, (t.proc p).parent = some q ∧ (t.proc q).pid = (t.proc caller).pid
    if ∃ p, hit p then
      some (0, { t with proc := fun p => if hit p then { t.proc p with priority := priority } else t.proc p })
    else some (-1, t)

def getadmin (t : PTable) (p : Slot) (password : CStr) : ℤ × PTable :=
  if password = CStr.ofString "2016024875" then
    (0, t.modify p (fun pr => { pr with mode := .administrator }))
  else (-1, t)

/-- The scan stops at the first slot that is in use and has the pid; `p->sz > limit`
compares unsigned, and `limit` is not negative there. -/
def setmemorylimit (t : PTable) (caller : Slot) (pid : ℤ) (limit : Word) : ℤ × PTable :=
  if limit.toInt < 0 ∨ (t.proc caller).mode ≠ .administrator then (-1, t)
  else
    match slots.find? (fun p => (t.proc p).pid = pid ∧ (t.proc p).state ≠ .unused) with
    | some p =>
      if (t.proc p).sz > limit ∧ limit ≠ 0 then (-1, t)
      else (0, t.modify p (fun pr => { pr with limit := limit }))
    | none => (-1, t)

end PTable
end Xv6
