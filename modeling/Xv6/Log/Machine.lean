import Xv6.Lib.Replay
import Xv6.Lib.Run
import Xv6.Log.Recovery

/-! # The logging system with its buffer cache and its disk

Any number of processes read and log blocks between `begin_op` and `end_op`; the
process whose `end_op` is the last one commits. Every write of a block to the disk is a
step of its own, and the machine may crash between any two steps, also while it
recovers. `log_write` is two steps, since it makes its tests before it takes `log.lock`.
-/
namespace Xv6.Logging
open Function

/-- A buffer of the cache. `holder` is the process that has its sleep-lock. -/
structure Buf (ι : Type) where
  blockno : Option Word := none
  data : Block := fun _ => 0
  dirty : Bool := false
  holder : Option ι := none

/-- What a process is doing. `logging j` is inside `log_write` on buffer `j`, after the
tests and before the lock. -/
inductive Pc
  | idle
  | op
  | logging (j : Fin NBUF)
  | committing
  deriving DecidableEq

/-- The next disk write of `commit` or `recover_from_log`, if one of them is running. -/
inductive Phase
  | running
  | writeLog (tail : ℕ)
  | writeHead
  | install (boot : Bool) (tail : ℕ)
  | clear (boot : Bool)
  | finish
  | boot
  deriving DecidableEq

/-- `pending` lists the `log_write` calls of the current group, in order, and
`committed` those of the groups whose header has been written; both are history. -/
structure State (ι : Type) where
  disk : Disk
  buf : Fin NBUF → Buf ι
  log : Log
  pc : ι → Pc
  phase : Phase
  pending : List (Word × Block) := []
  committed : List (List (Word × Block)) := []

inductive Label (ι : Type)
  | beginOp (p : ι)
  | bread (p : ι) (b : Word) (j : Fin NBUF)
  | brelse (p : ι) (j : Fin NBUF)
  | check (p : ι) (j : Fin NBUF) (data : Block)
  | record (p : ι)
  | endOp (p : ι)
  | writeLog (j k : Fin NBUF)
  | writeHead (j : Fin NBUF)
  | install (j k : Fin NBUF)
  | clear (j : Fin NBUF)
  | finish (p : ι)
  | crash
  | readHead (j : Fin NBUF)

variable {ι : Type} [DecidableEq ι]

/-- `bget` can return buffer `j` for block `b`: it caches `b`, or it is recycled. -/
def Gets (buf : Fin NBUF → Buf ι) (b : Word) (j : Fin NBUF) : Prop :=
  (buf j).holder = none ∧
    ((buf j).blockno = some b ∨ ((∀ i, (buf i).blockno ≠ some b) ∧ (buf j).dirty = false))

instance (buf : Fin NBUF → Buf ι) (b : Word) (j : Fin NBUF) : Decidable (Gets buf b j) :=
  inferInstanceAs (Decidable (_ ∧ _))

/-- The cache after `bread` of block `b` into buffer `j`. -/
def load (disk : Disk) (buf : Fin NBUF → Buf ι) (b : Word) (j : Fin NBUF) : Fin NBUF → Buf ι :=
  if (buf j).blockno = some b then buf
  else update buf j { blockno := some b, data := disk b }

/-- `bwrite`: the buffer has new data, which is on the disk. -/
def clean (buf : Fin NBUF → Buf ι) (j : Fin NBUF) (data : Block) : Fin NBUF → Buf ι :=
  update buf j { buf j with data := data, dirty := false }

namespace State
variable (g : LogArea)

/-- Whether processes run: not before `recover_from_log` has returned. -/
def up (s : State ι) : Bool :=
  match s.phase with
  | .boot | .install true _ | .clear true => false
  | _ => true

def nextPhase (n tail : ℕ) (loop : ℕ → Phase) (done : Phase) : Phase :=
  if tail + 1 < n then loop (tail + 1) else done

/-- One turn of the loop of `write_log`. -/
def writeLog (s : State ι) (tail : ℕ) (b : Word) (j k : Fin NBUF) : State ι :=
  let buf := load s.disk (load s.disk s.buf (g.logBlock tail) j) b k
  let data := (buf k).data
  { s with
    disk := update s.disk (g.logBlock tail) data
    buf := clean buf j data
    phase := nextPhase s.log.lh.length tail .writeLog .writeHead }

/-- One turn of the loop of `install_trans`. -/
def install (s : State ι) (boot : Bool) (tail : ℕ) (b : Word) (j k : Fin NBUF) : State ι :=
  let buf := load s.disk (load s.disk s.buf (g.logBlock tail) j) b k
  let data := (buf j).data
  { s with
    disk := update s.disk b data
    buf := clean buf k data
    phase := nextPhase s.log.lh.length tail (.install boot) (.clear boot) }

/-- `write_head` with the header list `lh`. -/
def putHead (s : State ι) (lh : List Word) (j : Fin NBUF) : State ι :=
  let buf := load s.disk s.buf g.start j
  let data := Xv6.writeHead lh (buf j).data
  { s with disk := update s.disk g.start data, buf := clean buf j data }

/-- The machine after a power failure: the disk is what is left. -/
def crash (s : State ι) : State ι :=
  { s with
    buf := fun _ => {}
    log := { size := g.size }
    pc := fun _ => .idle
    phase := .boot
    pending := [] }

def step (s : State ι) : Label ι → Option (State ι)
  | .beginOp p =>
    match s.pc p, s.up, s.log.beginOp with
    | .idle, true, .ok (_, log) => some { s with log := log, pc := update s.pc p .op }
    | _, _, _ => none
  | .bread p b j =>
    if (s.pc p = .idle ∨ s.pc p = .op) ∧ s.up ∧ g.Home b ∧ Gets s.buf b j then
      let buf := load s.disk s.buf b j
      some { s with buf := update buf j { buf j with holder := some p } }
    else none
  | .brelse p j =>
    if (s.pc p = .idle ∨ s.pc p = .op) ∧ (s.buf j).holder = some p then
      some { s with buf := update s.buf j { s.buf j with holder := none } }
    else none
  | .check p j data =>
    match s.log.checkWrite with
    | .ok _ =>
      if s.pc p = .op ∧ (s.buf j).holder = some p then
        some { s with
          buf := update s.buf j { s.buf j with data := data }
          pc := update s.pc p (.logging j) }
      else none
    | .error _ => none
  | .record p =>
    match s.pc p with
    | .logging j =>
      match (s.buf j).blockno with
      | some b =>
        match s.log.record b with
        | .ok (_, log) =>
          some { s with
            log := log
            buf := update s.buf j { s.buf j with dirty := true }
            pc := update s.pc p .op
            pending := s.pending ++ [(b, (s.buf j).data)] }
        | .error _ => none
      | none => none
    | _ => none
  | .endOp p =>
    match s.pc p, s.log.endOp with
    | .op, .ok (true, log) =>
      some { s with
        log := log
        pc := update s.pc p .committing
        phase := if 0 < log.lh.length then .writeLog 0 else .finish }
    | .op, .ok (false, log) => some { s with log := log, pc := update s.pc p .idle }
    | _, _ => none
  | .writeLog j k =>
    match s.phase with
    | .writeLog tail =>
      match s.log.lh[tail]? with
      | some b =>
        if Gets s.buf (g.logBlock tail) j ∧ k ≠ j ∧ Gets (load s.disk s.buf (g.logBlock tail) j) b k
        then some (s.writeLog g tail b j k) else none
      | none => none
    | _ => none
  | .writeHead j =>
    if s.phase = .writeHead ∧ Gets s.buf g.start j then
      some { s.putHead g s.log.lh j with
        phase := .install false 0
        pending := []
        committed := s.committed ++ [s.pending] }
    else none
  | .install j k =>
    match s.phase with
    | .install boot tail =>
      match s.log.lh[tail]? with
      | some b =>
        if Gets s.buf (g.logBlock tail) j ∧ k ≠ j ∧ Gets (load s.disk s.buf (g.logBlock tail) j) b k
        then some (s.install g boot tail b j k) else none
      | none => none
    | _ => none
  | .clear j =>
    match s.phase with
    | .clear boot =>
      if Gets s.buf g.start j then
        some { s.putHead g [] j with
          log := { s.log with lh := [] }
          phase := if boot then .running else .finish }
      else none
    | _ => none
  | .finish p =>
    match s.pc p, s.phase, s.log.endCommit with
    | .committing, .finish, .ok (_, log) =>
      some { s with log := log, pc := update s.pc p .idle, phase := .running }
    | _, _, _ => none
  | .crash => some (s.crash g)
  | .readHead j =>
    if s.phase = .boot ∧ Gets s.buf g.start j then
      let buf := load s.disk s.buf g.start j
      let lh := Xv6.readHead (buf j).data
      some { s with
        buf := buf
        log := { s.log with lh := lh }
        phase := if 0 < lh.length then .install true 0 else .clear true }
    else none

end State

/-- A machine that boots from a disk whose log is empty, as `mkfs` leaves it. -/
structure Boots (g : LogArea) (s : State ι) : Prop where
  header : Xv6.readHead (s.disk g.start) = []
  fresh : s = s.crash g
  committed : s.committed = []

end Xv6.Logging
