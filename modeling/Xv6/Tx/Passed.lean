import Mathlib.Data.Finset.Card
import Mathlib.Data.Multiset.AddSub
import Xv6.Kernel.Outcome
import Xv6.Lib.Amid
import Xv6.Sys.File

/-! # What a transaction passes to `log_write`

The blocks that a transaction has passed to `log_write` are noted beside the kernel state,
with the references that its process holds. Between its operations other processes act.
They leave alone what the process has locked, and the entries to which it holds references
stay entries for the same inodes.
-/
namespace Xv6
open Kernel Comp

/-- The block that an operation passes to `log_write`. -/
def FsOp.logged (k : Kernel) : FsOp → Option Word
  | iupdate i => some (k.iblock (k.icache i).inum)
  | ifree i => some (k.iblock (k.icache i).inum)
  | claimInode inum _ => if (k.dinode inum).type = .free then some (k.iblock inum) else none
  | claimBlock b => (firstFree k.bitmap k.sb.size BPB b).map k.bblock
  | bfree b => if k.bitmap b.toNat then some (k.bblock b.toNat) else none
  | bzero b => some b
  | writeBlock b _ _ => some b
  | _ => none

/-- The references that a process holds, and the blocks passed since the last `begin_op`. -/
structure Work where
  refs : Multiset InodeIdx
  passed : Finset Word

namespace Work

def refsAfter (refs : Multiset InodeIdx) : (o : Op) → o.Ans → Multiset InodeIdx
  | .fs (.iget _), i => i ::ₘ refs
  | .fs (.idup i), _ => i ::ₘ refs
  | .fs (.dropRef i), _ => refs.erase i
  | _, _ => refs

def passedAfter (passed : Finset Word) (k : Kernel) : Op → Finset Word
  | .log .beginOp => ∅
  | .fs o =>
    match o.logged k with
    | some b => insert b passed
    | none => passed
  | _ => passed

/-- The notes after an operation in state `k`. -/
def note (g : Work) (k : Kernel) (o : Op) (b : o.Ans) : Work := ⟨refsAfter g.refs o b, passedAfter g.passed k o⟩

theorem mem_passedAfter {passed : Finset Word} :
    w ∈ passedAfter passed k (.fs o) ↔ o.logged k = some w ∨ w ∈ passed := by
  change w ∈ (match o.logged k with
    | some b => insert b passed
    | none => passed) ↔ _
  cases o.logged k with
  | none => simp
  | some => rw [Finset.mem_insert, Option.some.injEq, eq_comm]

end Work

section Logged
variable {k k' : Kernel}

/-- The header of the log after one more block. -/
def absorb (lh : List Word) (b : Word) : List Word := if b ∈ lh then lh else lh ++ [b]

theorem Kernel.logWrite_lh (h : logWrite b k = .ok (u, k')) : k'.log.lh = absorb k.log.lh b := by
  obtain ⟨l, hl, rfl⟩ := onLog_eq_ok.mp h
  obtain ⟨_, t, hc, hr⟩ := bind_eq_ok.mp hl
  obtain rfl : t = k.log := Log.checkWrite_fixes k.log _ t hc
  cases hr
  rfl

/-- What an operation of `fs.c` passes to `log_write` is taken into the header of the log. -/
theorem FsOp.lh_eq {o : FsOp} {b : o.Ans} (h : o.sem k = .ok (b, k')) :
    k'.log.lh = (o.logged k).elim k.log.lh (absorb k.log.lh) := by
  have hlh {o : FsOp} (hnone : o.logged k = none) (hsame : k'.log = k.log) :
      k'.log.lh = (o.logged k).elim k.log.lh (absorb k.log.lh) := by
    rw [hsame, hnone]
    rfl
  have hwrite {b : Word} {k1 : Kernel} {u : Unit} (hlog : logWrite b k = .ok (u, k1)) (hsame : k'.log = k1.log) :
      k'.log.lh = (some b).elim k.log.lh (absorb k.log.lh) := by
    rw [hsame, logWrite_lh hlog]
    rfl
  cases o with
  | iget =>
    refine hlh rfl ?_
    rcases iget_eq_ok h with ⟨-, -, rfl⟩ | ⟨-, -, rfl⟩ <;> rfl
  | ilock =>
    refine hlh rfl ?_
    obtain ⟨-, -, ⟨-, rfl⟩ | ⟨-, -, rfl⟩⟩ := ilock_eq_ok h <;> rfl
  | iunlock =>
    obtain rfl := iunlock_eq_ok h
    exact hlh rfl rfl
  | acquiresleep =>
    obtain ⟨-, rfl⟩ := acquiresleep_eq_ok h
    exact hlh rfl rfl
  | store =>
    obtain ⟨copies, rfl⟩ := store_eq_ok h
    exact hlh rfl rfl
  | consoleread =>
    obtain ⟨input, rfl⟩ := consoleread_eq_ok h
    exact hlh rfl rfl
  | iupdate =>
    have h := get_bind h
    obtain ⟨_, k1, hlog, h⟩ := bind_eq_ok.mp h
    cases h
    exact hwrite hlog rfl
  | ifree =>
    obtain ⟨_, _, hset, h⟩ := bind_eq_ok.mp h
    cases hset
    obtain ⟨_, k2, hupdate, h⟩ := bind_eq_ok.mp h
    cases h
    have hupdate := get_bind hupdate
    obtain ⟨_, k1, hlog, h⟩ := bind_eq_ok.mp hupdate
    cases h
    have hlh := logWrite_lh hlog
    rw [setInode_self] at hlh
    exact hlh
  | claimInode =>
    have h := get_bind h
    rw [Comp.ite_apply] at h
    rw [logged]
    split at h
    case isTrue hfree =>
      obtain ⟨_, k1, hlog, h⟩ := bind_eq_ok.mp h
      cases h
      rw [if_pos hfree]
      exact hwrite hlog rfl
    case isFalse hfree =>
      cases h
      rw [if_neg hfree]
      rfl
  | claimBlock =>
    have h := get_bind h
    rw [logged]
    generalize firstFree _ _ _ _ = found at h ⊢
    cases found with
    | none =>
      cases h
      rfl
    | some =>
      obtain ⟨_, k1, hlog, h⟩ := bind_eq_ok.mp h
      cases h
      exact hwrite hlog rfl
  | bfree =>
    have h := get_bind h
    rw [Comp.ite_apply] at h
    rw [logged]
    split at h
    case isTrue hused =>
      obtain ⟨_, k1, hlog, h⟩ := bind_eq_ok.mp h
      cases h
      rw [if_pos hused]
      exact hwrite hlog rfl
    case isFalse => cases h
  | bzero | writeBlock =>
    obtain ⟨_, k1, hlog, h⟩ := bind_eq_ok.mp h
    cases h
    exact hwrite hlog rfl
  | _ =>
    cases h
    exact hlh rfl rfl

end Logged
end Xv6
