import Mathlib.Data.List.FinRange
import Xv6.Vm.PageTable

/-! # The log in memory and its header block

The record `log`, the critical sections of `log.c` under `log.lock`, and the block
that `read_head` and `write_head` exchange with the disk.
-/
namespace Xv6
open List

def MAXOPBLOCKS : ℕ := 10
def LOGSIZE : ℕ := MAXOPBLOCKS * 3
def NBUF : ℕ := MAXOPBLOCKS * 3

instance : NeZero NBUF := ⟨by decide⟩

/-- `struct log`; `lh.n` is the length of `lh`. -/
structure Log where
  size : ℕ
  outstanding : ℤ := 0
  committing : Bool := false
  lh : List Word := []

namespace Log

/-- One turn of the loop in `begin_op`, which blocks where the source sleeps. -/
def beginOp : Comp Log Unit := do
  let log ← Comp.get
  if log.committing then Comp.block
  else if log.lh.length + (log.outstanding + 1) * MAXOPBLOCKS > LOGSIZE then Comp.block
  else Comp.modify fun log => { log with outstanding := log.outstanding + 1 }

/-- The first critical section of `end_op`; the value is `do_commit`. -/
def endOp : Comp Log Bool := do
  Comp.modify fun log => { log with outstanding := log.outstanding - 1 }
  let log ← Comp.get
  if log.committing then Comp.panic "log.committing"
  else if log.outstanding = 0 then do
    Comp.modify fun log => { log with committing := true }
    return true
  else return false

/-- The second critical section of `end_op`, after `commit`. -/
def endCommit : Comp Log Unit :=
  Comp.modify fun log => { log with committing := false }

/-- The tests of `log_write`, which are made before it takes the lock. -/
def checkWrite : Comp Log Unit := do
  let log ← Comp.get
  if LOGSIZE ≤ log.lh.length ∨ log.size - 1 ≤ log.lh.length then Comp.panic "too big a transaction"
  else if log.outstanding < 1 then Comp.panic "log_write outside of trans"
  else pure ()

/-- The critical section of `log_write`: a block that is in the header is absorbed. -/
def record (b : Word) : Comp Log Unit :=
  Comp.modify fun log => { log with lh := if b ∈ log.lh then log.lh else log.lh ++ [b] }

variable {l l' : Log}

theorem beginOp_apply (l : Log) : beginOp l = if l.committing then .error .blocked
    else if l.lh.length + (l.outstanding + 1) * MAXOPBLOCKS > LOGSIZE then .error .blocked
    else .ok ((), { l with outstanding := l.outstanding + 1 }) := by
  simp only [beginOp, Comp.bind_apply, Comp.get_apply, Comp.ite_apply]
  rfl

theorem endOp_apply (l : Log) : endOp l = if l.committing then .error (.panic "log.committing")
    else if l.outstanding - 1 = 0 then
      .ok (true, { l with outstanding := l.outstanding - 1, committing := true })
    else .ok (false, { l with outstanding := l.outstanding - 1 }) := by
  simp only [endOp, Comp.bind_apply, Comp.get_apply, Comp.modify_apply, Comp.ite_apply]
  rfl

theorem checkWrite_apply (l : Log) : checkWrite l =
    if LOGSIZE ≤ l.lh.length ∨ l.size - 1 ≤ l.lh.length then .error (.panic "too big a transaction")
    else if l.outstanding < 1 then .error (.panic "log_write outside of trans") else .ok ((), l) := by
  simp only [checkWrite, Comp.bind_apply, Comp.get_apply, Comp.ite_apply]
  rfl

theorem beginOp_eq_ok (h : beginOp l = .ok (u, l')) :
    l.committing = false ∧ l' = { l with outstanding := l.outstanding + 1 } := by
  rw [beginOp_apply] at h
  split at h
  case isTrue => cases h
  case isFalse hc =>
    split at h
    case isTrue => cases h
    case isFalse =>
      cases h
      exact ⟨by simpa using hc, rfl⟩

theorem beginOp_room (h : beginOp l = .ok (u, l')) :
    l.lh.length + (l.outstanding + 1) * MAXOPBLOCKS ≤ LOGSIZE := by
  rw [beginOp_apply] at h
  split at h
  case isTrue => cases h
  case isFalse =>
    split at h
    case isTrue => cases h
    case isFalse hroom => exact not_lt.mp hroom

theorem endOp_eq_ok (h : endOp l = .ok (c, l')) : l.committing = false ∧ (c = true ↔ l.outstanding = 1) ∧
      l' = { l with outstanding := l.outstanding - 1, committing := c } := by
  rw [endOp_apply] at h
  split at h
  case isTrue => cases h
  case isFalse hc =>
    have hcommitting : l.committing = false := by simpa using hc
    split at h
    case isTrue ho =>
      cases h
      exact ⟨hcommitting, by simp; omega, rfl⟩
    case isFalse ho =>
      cases h
      exact ⟨hcommitting, by simp; omega, by rw [← hcommitting]⟩

end Log

abbrev Block := Fin 128 → Word

/-- `write_head` into the buffer of the header block: words past the list stay. -/
def writeHead (lh : List Word) (hb : Block) : Block := fun i =>
  if i = 0 then BitVec.ofNat 32 lh.length else (lh[i.val - 1]?).getD (hb i)

def readHead (hb : Block) : List Word :=
  ((List.finRange 127).take (hb 0).toInt.toNat).map fun i => hb i.succ

theorem readHead_writeHead (h : lh.length ≤ 127) (hb : Block) : readHead (writeHead lh hb) = lh := by
  have hn : (writeHead lh hb 0).toInt.toNat = lh.length := by
    simp only [writeHead, if_true, BitVec.toInt_eq_toNat_cond, BitVec.toNat_ofNat]
    omega
  apply ext_getElem?
  intro i
  rw [readHead, hn, getElem?_map, getElem?_take]
  by_cases hi : i < lh.length
  · have hfin : (finRange 127)[i]? = some ⟨i, by omega⟩ := by
      rw [getElem?_eq_getElem (by rw [length_finRange]; omega), getElem_finRange]
      rfl
    rw [if_pos hi, hfin, Option.map_some, writeHead, if_neg (by simp [Fin.ext_iff])]
    simp [hi]
  · rw [if_neg hi, Option.map_none, getElem?_eq_none (by omega)]

end Xv6
