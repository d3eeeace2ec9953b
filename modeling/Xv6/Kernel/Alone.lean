import Xv6.Kernel.Frame

/-! # Transactions side by side

What an operation on files does inside a transaction does not depend on how many other
transactions are open: it is what it does where there is no other.
-/
namespace Xv6
open Comp

/-- The kernel with only one transaction open. -/
def Kernel.alone (k : Kernel) : Kernel := { k with log := { k.log with outstanding := 1 } }

def Kernel.InTransaction (k : Kernel) : Prop := 1 ≤ k.log.outstanding

/-- The operation does the same where no other transaction is open. -/
abbrev Unaware {α : Type} (x : Comp Kernel α) : Prop := Carries Kernel.InTransaction Kernel.alone x

theorem unaware_setInode (i : InodeIdx) (f : Inode → Inode) : Unaware (modify fun k => k.setInode i f) :=
  carries_modify (fun _ => rfl) fun _ => id

theorem unaware_logWrite (b : Word) : Unaware (Kernel.logWrite b) := by
  intro k u k' hk h
  obtain ⟨l, hl, rfl⟩ := Kernel.onLog_eq_ok.mp h
  obtain ⟨_, l1, hcheck, hrecord⟩ := bind_eq_ok.mp hl
  obtain rfl : l1 = k.log := Log.checkWrite_fixes k.log _ l1 hcheck
  cases hrecord
  refine ⟨Kernel.onLog_eq_ok.mpr ⟨_, bind_eq_ok.mpr ⟨(), k.alone.log, ?_, rfl⟩, rfl⟩, hk⟩
  rw [Log.checkWrite_apply] at hcheck ⊢
  split at hcheck
  case isTrue => cases hcheck
  case isFalse hroom => exact (if_neg hroom).trans (if_neg (by decide : ¬ (1 : ℤ) < 1))

theorem unaware_iupdate (i : InodeIdx) : Unaware (FsOp.iupdate.sem i) :=
  carries_get_bind (fun _ => rfl) fun _ => (unaware_logWrite _).bind fun _ => carries_modify (fun _ => rfl) fun _ => id

theorem FsOp.unaware (o : FsOp) : Unaware o.sem := by
  cases o with
  | iget =>
    refine carries_get_bind (fun _ => rfl) fun k => ?_
    split
    · exact (unaware_setInode _ _).bind fun _ => carries_pure _
    · split
      · exact carries_panic _
      · exact (unaware_setInode _ _).bind fun _ => carries_pure _
  | ilock =>
    refine carries_get_bind (fun _ => rfl) fun k => .ite (carries_panic _) (.ite carries_block ?_)
    refine .ite (unaware_setInode _ _) (.ite (carries_panic _) ?_)
    exact carries_modify (fun _ => rfl) fun _ => id
  | iunlock =>
    exact carries_get_bind (fun _ => rfl) fun _ => .ite (carries_panic _) (unaware_setInode _ _)
  | acquiresleep =>
    exact carries_get_bind (fun _ => rfl) fun _ => .ite carries_block (unaware_setInode _ _)
  | store i u =>
    refine (unaware_setInode _ _).bind fun _ => ?_
    cases u with
    | userid => exact carries_modify (fun _ => rfl) fun _ => id
    | _ => exact carries_pure _
  | iupdate i => exact unaware_iupdate i
  | ifree i => exact (unaware_setInode _ _).bind fun _ => (unaware_iupdate i).bind fun _ => unaware_setInode _ _
  | claimInode =>
    refine carries_get_bind (fun _ => rfl) fun _ => .ite ?_ (carries_pure _)
    exact (unaware_logWrite _).bind fun _ => carries_modify_bind (fun _ => rfl) (fun _ => id) fun _ => carries_pure _
  | claimBlock =>
    refine carries_get_bind (fun _ => rfl) fun k => ?_
    split
    · exact carries_pure _
    · exact (unaware_logWrite _).bind fun _ => carries_modify_bind (fun _ => rfl) (fun _ => id) fun _ => carries_pure _
  | bzero b
  | writeBlock b => exact (unaware_logWrite b).bind fun _ => carries_modify (fun _ => rfl) fun _ => id
  | bfree =>
    refine carries_get_bind (fun _ => rfl) fun _ => .ite ?_ (carries_panic _)
    exact (unaware_logWrite _).bind fun _ => carries_modify (fun _ => rfl) fun _ => id
  | consoleread =>
    have hdone (input : List UInt8) (r : ℤ × List UInt8) :
        Unaware (modify (fun k => { k with input := input }) >>= fun _ => pure r) :=
      carries_modify_bind (fun _ => rfl) (fun _ => id) fun _ => carries_pure _
    exact carries_get_bind (fun _ => rfl) fun k => .ite (hdone _ _) (.ite (hdone _ _) carries_block)
  | consolewrite => exact carries_pure _
  | idup | releasesleep | dropRef => exact unaware_setInode _ _
  | _ => exact carries_get_bind (fun _ => rfl) fun _ => carries_pure _

end Xv6
