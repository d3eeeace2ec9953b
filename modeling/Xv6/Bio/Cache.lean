import Xv6.Lib.Ring
import Xv6.Lib.Run
import Xv6.Log.Header

/-! # The buffer cache

The functions of `bio.c`, with `log_write`, at the grain of their locks: what is done under
`bcache.lock` is one step, and so are the taking and giving back of a sleep-lock and the end
of a request to the disk. A process may hold several buffers at once.
-/
namespace Xv6.Bio
open Function

structure BlockId where
  dev : Word
  blockno : Word
  deriving DecidableEq

/-- `struct buf` but for its links. The sleep-lock is the process that holds it. -/
structure Buf (ι : Type) where
  valid : Bool := false
  dirty : Bool := false
  block : BlockId := ⟨0, 0⟩
  holder : Option ι := none
  refcnt : ℕ := 0
  data : Block := fun _ => 0

/-- What a process is doing in `bio.c`. -/
inductive Pc
  | idle
  /-- in `bget`, in front of `acquiresleep` -/
  | got (j : Fin NBUF) (b : BlockId)
  /-- `bget` has returned to `bread` -/
  | locked (j : Fin NBUF) (b : BlockId)
  /-- in `iderw`, from `bread` -/
  | reading (j : Fin NBUF) (b : BlockId)
  /-- in `iderw`, from `bwrite` -/
  | writing (j : Fin NBUF)
  /-- in `brelse`, after `releasesleep` -/
  | releasing (j : Fin NBUF)

structure State (ι : Type) where
  links : Links (Fin NBUF)
  buf : Fin NBUF → Buf ι
  disk : BlockId → Block
  log : Log
  pc : ι → Pc

/-- The links after `binit`. -/
def binit : Links (Fin NBUF) :=
  let L : Links (Fin NBUF) := ⟨fun _ => none, fun _ => none⟩
  let L := L.setPrev none none
  let L := L.setNext none none
  (List.finRange NBUF).foldl Links.pushFront L

variable {ι : Type}

def boot (disk : BlockId → Block) (log : Log) : State ι where
  links := binit
  buf := fun _ => {}
  disk := disk
  log := log
  pc := fun _ => .idle

inductive Label (ι : Type)
  | bget (p : ι) (b : BlockId)
  | acquiresleep (p : ι)
  | check (p : ι)
  | iderw (p : ι)
  | bwrite (p : ι) (j : Fin NBUF) (data : Block)
  | logWrite (p : ι) (j : Fin NBUF) (data : Block)
  | releasesleep (p : ι) (j : Fin NBUF)
  | unref (p : ι)
  | setLog (log : Log)

namespace State
variable [DecidableEq ι] (s : State ι)

def setBuf (j : Fin NBUF) (c : Buf ι) : State ι := { s with buf := update s.buf j c }

def setPc (p : ι) (c : Pc) : State ι := { s with pc := update s.pc p c }

/-- The first loop of `bget`. -/
def cached (b : BlockId) : Option (Fin NBUF) :=
  Links.scan s.links.next (fun j => decide ((s.buf j).block = b)) NBUF (s.links.next none)

/-- The second loop of `bget`. -/
def unused : Option (Fin NBUF) :=
  Links.scan s.links.prev (fun j => decide ((s.buf j).refcnt = 0 ∧ (s.buf j).dirty = false)) NBUF (s.links.prev none)

theorem of_unused (h : s.unused = some j) : (s.buf j).refcnt = 0 ∧ (s.buf j).dirty = false := by
  unfold unused at h
  have hj := Links.scan_some h
  simpa using hj

/-- `bget` up to the release of `bcache.lock`; `none` is its panic. -/
def bget (p : ι) (b : BlockId) : Option (State ι) :=
  match s.cached b with
  | some j => some ((s.setBuf j { s.buf j with refcnt := (s.buf j).refcnt + 1 }).setPc p (.got j b))
  | none =>
    match s.unused with
    | some j =>
      some ((s.setBuf j { s.buf j with block := b, valid := false, dirty := false, refcnt := 1 }).setPc p (.got j b))
    | none => none

/-- A request to the disk has been served: `iderw` with `ideintr`. -/
def iderw (p : ι) (j : Fin NBUF) : Option (State ι) :=
  let c := s.buf j
  if c.holder ≠ some p then none
  else if c.valid = true ∧ c.dirty = false then none
  else if c.dirty = true then
    some { s.setBuf j { c with valid := true, dirty := false } with disk := update s.disk c.block c.data }
  else some (s.setBuf j { c with data := s.disk c.block, valid := true })

/-- The last part of `brelse`, under `bcache.lock`. -/
def unref (j : Fin NBUF) : State ι :=
  let s := s.setBuf j { s.buf j with refcnt := (s.buf j).refcnt - 1 }
  if (s.buf j).refcnt = 0 then { s with links := (s.links.unlink j).pushFront j } else s

/-- A process that holds the sleep-lock of a buffer and is not in `bio.c` may use the buffer. -/
def Holds (p : ι) (j : Fin NBUF) : Prop :=
  match s.pc p with
  | .idle => (s.buf j).holder = some p
  | _ => False

instance (p : ι) (j : Fin NBUF) : Decidable (s.Holds p j) := by
  unfold Holds
  split <;> infer_instance

/-- `bwrite` and `logWrite` come with the store to `data` in front of them; `setLog` is what
the rest of `log.c` does to the log. -/
def step : Label ι → Option (State ι)
  | .bget p b =>
    match s.pc p with
    | .idle => s.bget p b
    | _ => none
  | .acquiresleep p =>
    match s.pc p with
    | .got j b =>
      if (s.buf j).holder = none then some ((s.setBuf j { s.buf j with holder := some p }).setPc p (.locked j b)) else none
    | _ => none
  | .check p =>
    match s.pc p with
    | .locked j b => some (s.setPc p (if (s.buf j).valid then .idle else .reading j b))
    | _ => none
  | .iderw p =>
    match s.pc p with
    | .reading j _ | .writing j => (s.iderw p j).map fun s => s.setPc p .idle
    | _ => none
  | .bwrite p j data =>
    if s.Holds p j then some ((s.setBuf j { s.buf j with data := data, dirty := true }).setPc p (.writing j)) else none
  | .logWrite p j data =>
    if s.Holds p j then
      match (Log.checkWrite >>= fun _ => Log.record (s.buf j).block.blockno) s.log with
      | .ok (_, log) => some { s.setBuf j { s.buf j with data := data, dirty := true } with log := log }
      | .error _ => none
    else none
  | .releasesleep p j =>
    if s.Holds p j then some ((s.setBuf j { s.buf j with holder := none }).setPc p (.releasing j)) else none
  | .unref p =>
    match s.pc p with
    | .releasing j => some ((s.unref j).setPc p .idle)
    | _ => none
  | .setLog log => some { s with log := log }

omit [DecidableEq ι] in
variable {s} in
theorem holds_iff : s.Holds p j ↔ s.pc p = .idle ∧ (s.buf j).holder = some p := by
  unfold Holds
  cases s.pc p <;> simp

/-- What a step can do. -/
inductive Moves : Label ι → State ι → Prop
  | hit {p : ι} {b : BlockId} {j : Fin NBUF} (hpc : s.pc p = .idle) (hj : s.cached b = some j) :
      Moves (.bget p b) ((s.setBuf j { s.buf j with refcnt := (s.buf j).refcnt + 1 }).setPc p (.got j b))
  | recycle {p : ι} {b : BlockId} {j : Fin NBUF} (hpc : s.pc p = .idle) (hnone : s.cached b = none) (hj : s.unused = some j) :
      Moves (.bget p b)
        ((s.setBuf j { s.buf j with block := b, valid := false, dirty := false, refcnt := 1 }).setPc p (.got j b))
  | acquiresleep {p : ι} {b : BlockId} {j : Fin NBUF} (hpc : s.pc p = .got j b) (hnone : (s.buf j).holder = none) :
      Moves (.acquiresleep p) ((s.setBuf j { s.buf j with holder := some p }).setPc p (.locked j b))
  | check {p : ι} {b : BlockId} {j : Fin NBUF} (hpc : s.pc p = .locked j b) :
      Moves (.check p) (s.setPc p (if (s.buf j).valid then .idle else .reading j b))
  | read {p : ι} {b : BlockId} {j : Fin NBUF} {t : State ι} (hpc : s.pc p = .reading j b) (ht : s.iderw p j = some t) :
      Moves (.iderw p) (t.setPc p .idle)
  | write {p : ι} {j : Fin NBUF} {t : State ι} (hpc : s.pc p = .writing j) (ht : s.iderw p j = some t) :
      Moves (.iderw p) (t.setPc p .idle)
  | bwrite {p : ι} {j : Fin NBUF} {data : Block} (hp : s.Holds p j) :
      Moves (.bwrite p j data) ((s.setBuf j { s.buf j with data := data, dirty := true }).setPc p (.writing j))
  | logWrite {p : ι} {j : Fin NBUF} (data : Block) (log : Log) (hp : s.Holds p j) :
      Moves (.logWrite p j data) { s.setBuf j { s.buf j with data := data, dirty := true } with log := log }
  | releasesleep {p : ι} {j : Fin NBUF} (hp : s.Holds p j) :
      Moves (.releasesleep p j) ((s.setBuf j { s.buf j with holder := none }).setPc p (.releasing j))
  | unref {p : ι} {j : Fin NBUF} (hpc : s.pc p = .releasing j) : Moves (.unref p) ((s.unref j).setPc p .idle)
  | setLog (log : Log) : Moves (.setLog log) { s with log := log }

theorem moves_of_step (hs : Steps step s l s') : s.Moves l s' := by
  unfold Steps at hs
  cases l with
  | bget =>
    rw [step] at hs
    split at hs
    case h_2 => cases hs
    case h_1 hpc =>
      rw [bget] at hs
      split at hs
      case h_1 j hj =>
        cases hs
        exact .hit hpc hj
      case h_2 hnone =>
        split at hs
        case h_2 => cases hs
        case h_1 j hj =>
          cases hs
          exact .recycle hpc hnone hj
  | acquiresleep =>
    rw [step] at hs
    split at hs
    case h_2 => cases hs
    case h_1 hpc =>
      split at hs
      case isFalse => cases hs
      case isTrue hnone =>
        cases hs
        exact .acquiresleep hpc hnone
  | check =>
    rw [step] at hs
    split at hs
    case h_2 => cases hs
    case h_1 hpc =>
      cases hs
      exact .check hpc
  | iderw =>
    rw [step] at hs
    split at hs
    case h_3 => cases hs
    case h_1 hpc =>
      obtain ⟨t, ht, rfl⟩ := Option.map_eq_some_iff.mp hs
      exact .read hpc ht
    case h_2 hpc =>
      obtain ⟨t, ht, rfl⟩ := Option.map_eq_some_iff.mp hs
      exact .write hpc ht
  | bwrite =>
    rw [step] at hs
    split at hs
    case isFalse => cases hs
    case isTrue hp =>
      cases hs
      exact .bwrite hp
  | logWrite p j data =>
    rw [step] at hs
    split at hs
    case isFalse => cases hs
    case isTrue hp =>
      split at hs
      case h_2 => cases hs
      case h_1 log _ =>
        cases hs
        exact .logWrite data log hp
  | releasesleep =>
    rw [step] at hs
    split at hs
    case isFalse => cases hs
    case isTrue hp =>
      cases hs
      exact .releasesleep hp
  | unref =>
    rw [step] at hs
    split at hs
    case h_2 => cases hs
    case h_1 hpc =>
      cases hs
      exact .unref hpc
  | setLog log =>
    cases hs
    exact .setLog log

/-- The return from `bread` that a step makes: to whom, with which buffer and for which block. -/
def returned : Label ι → Option (ι × Fin NBUF × BlockId)
  | .check p =>
    match s.pc p with
    | .locked j b => if (s.buf j).valid then some (p, j, b) else none
    | _ => none
  | .iderw p =>
    match s.pc p with
    | .reading j b => some (p, j, b)
    | _ => none
  | _ => none

/-- What the blocks hold for those who use the cache, after a step. -/
def written (mem : BlockId → Block) : Label ι → BlockId → Block
  | .bwrite _ j data | .logWrite _ j data => update mem (s.buf j).block data
  | _ => mem

end State

/-- For each block what was written to it last through the cache, or what the disk held. -/
def stored [DecidableEq ι] (disk : BlockId → Block) (tr : List (State ι × Label ι)) : BlockId → Block :=
  tr.foldl (fun mem e => e.1.written mem e.2) disk

def Buf.Live (c : Buf ι) : Prop := c.valid = true ∨ 0 < c.refcnt

def OneRing (L : Links (Fin NBUF)) : Prop := ∃ l, L.Ring l ∧ ∀ j, j ∈ l

end Xv6.Bio
