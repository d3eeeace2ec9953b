import Xv6.Fs.Usage
import Xv6.Sys.File

/-! # What the file-system calls hold

The parts of `sysfile.c` between the lookups and the transaction brackets give back what
they take.
-/
namespace Xv6.Sys
open Prog Usage Fs
open KProg hiding panic

variable {p : Slot} {g : Usage} {ip dp : InodeIdx}

theorem ne_of_unlocked (h : (g.locked dp).locks ip = false) : ip ≠ dp := by
  rintro rfl
  rw [Usage.locked, Usage.setLock_locks] at h
  cases h

theorem unlocked_of_ne (hne : ip ≠ dp) : (g.locked dp).locks ip = g.locks ip := setLock_of_ne hne true

theorem newInode_usage (hroom : g.refs.card < room) (type : InodeType) (major minor : BitVec 16) (owner : CStr) :
    (newInode p type major minor owner).Obeys (usage p) g fun i g' => g.locks i = false ∧ g' = g.locked i := by
  refine (ialloc_usage hroom type).seq fun i g1 hg1 => ?_
  subst hg1
  refine ilock_usage fun (hfree : g.locks i = false) => ignored_bind (store_ignored i _) fun _ => ?_
  refine ignored_bind (store_ignored i _) fun _ => ignored_bind (store_ignored i _) fun _ => ?_
  exact ignored_bind (iupdate_ignored i) fun _ => ⟨hfree, rfl⟩

theorem linkInto_usage (hroom : g.refs.card + 1 < room) (hcwd : ∀ i, g.cwd = some i → i ∈ g.refs) (new : CStr) :
    Balanced p g (linkInto p ip new) := by
  refine (namex_usage hroom hcwd new true).seq fun r g' hg => ?_
  subst hg
  cases r with
  | none => rfl
  | some r =>
    refine ilock_usage fun (hfree : g.locks r.1 = false) => ignored_bind (inode_ignored ip) fun i => ?_
    refine balanced_bind (dirlink_usage (g := g.locked r.1) ?_ r.2 i.inum) fun r' => ?_
    · rwa [card_locked]
    · exact iunlockput_bind_usage hfree rfl

theorem isemptyFrom_usage (turns off : ℕ) : Balanced p g (isemptyFrom p dp turns off) := by
  induction turns generalizing off with
  | zero => rfl
  | succ turns ih =>
    refine balanced_bind (readDirent_usage off _) fun de => ?_
    split
    · rfl
    · exact ih _

theorem nonemptyDir_usage : Balanced p g (nonemptyDir p ip) := by
  refine ignored_bind (inode_ignored ip) fun i => ?_
  split
  · refine balanced_bind (ignored_bind (inode_ignored ip) fun i => ?_) fun empty => rfl
    exact isemptyFrom_usage _ _
  · rfl

theorem lessLink_usage : Balanced p g (lessLink ip) := by
  refine ignored_bind (inode_ignored ip) fun i => ignored_bind (store_ignored ip _) fun _ => ?_
  exact ignored_balanced (uses_call (iupdate_ignored ip))

theorem whenDir_usage (h : Balanced p g x) : Balanced p g (whenDir type x) := by
  unfold whenDir
  split
  · exact h
  · rfl

theorem unlinkEntry_usage (hdp : g.locks dp = false) (hip : (g.locked dp).locks ip = false) (off : ℕ) :
    (unlinkEntry p dp ip off).Obeys (usage p) ((g.locked dp).locked ip) fun _ g' => g' = g := by
  have hne := ne_of_unlocked hip
  refine balanced_bind (writei_usage _ _) fun r => ?_
  split
  · exact panic_usage _
  refine ignored_bind (inode_ignored ip) fun i => balanced_bind (whenDir_usage lessLink_usage) fun _ => ?_
  rw [locked_swap hne]
  have hdp' : (g.locked ip).locks dp = false := (unlocked_of_ne (Ne.symm hne)).trans hdp
  refine iunlockput_bind_usage hdp' (balanced_bind lessLink_usage fun _ => ?_)
  exact iunlockput_usage ((unlocked_of_ne hne).symm.trans hip)

theorem createDots_usage (hroom : g.refs.card < room) : Balanced p g (createDots p ip dp) := by
  refine ignored_bind (inode_ignored dp) fun i => ignored_bind (store_ignored dp _) fun _ => ?_
  refine ignored_bind (iupdate_ignored dp) fun _ => ignored_bind (inode_ignored ip) fun i => ?_
  refine balanced_bind (dirlink_usage hroom _ _) fun r => .ite (fun _ => panic_usage _) fun _ => ?_
  refine ignored_bind (inode_ignored dp) fun i => balanced_bind (dirlink_usage hroom _ _) fun r => ?_
  exact .ite (fun _ => panic_usage _) fun _ => rfl

theorem createNew_usage (hroom : g.refs.card + 2 < room) (hdp : g.locks dp = false) (name : List UInt8)
    (type : InodeType) (major minor : BitVec 16) :
    (createNew p dp name type major minor).Obeys (usage p) (g.locked dp)
      fun i g' => g.locks i = false ∧ g' = g.locked i := by
  refine ignored_bind (myproc_ignored p) fun pr => ?_
  refine (newInode_usage (by rw [card_locked]; omega) type major minor pr.userid).seq fun i g' hg => ?_
  obtain ⟨hi, rfl⟩ := hg
  have hne := ne_of_unlocked hi
  have hcard : ((g.locked dp).locked i).refs.card < room := by
    rw [card_locked, card_locked]
    omega
  refine balanced_bind (whenDir_usage (createDots_usage hcard)) fun _ => ignored_bind (inode_ignored i) fun _ => ?_
  refine balanced_bind (dirlink_usage hcard _ _) fun r => .ite (fun _ => panic_usage _) fun _ => ?_
  rw [locked_swap hne]
  have hdp' : (g.locked i).locks dp = false := (unlocked_of_ne (Ne.symm hne)).trans hdp
  exact iunlockput_bind_usage hdp' ⟨(unlocked_of_ne hne).symm.trans hi, rfl⟩

end Xv6.Sys
