import Xv6.Kernel.Op

/-! # What the operations leave alone

A part of the kernel state that does not depend on the tables a group of operations
works on is the same after each of them.
-/
namespace Xv6
open Comp Kernel FsOp Fixes

variable {τ : Type} {f : Kernel → τ}

/-- `f` does not look at what the operations of `fs.c` change. -/
structure FsBlind (f : Kernel → τ) : Prop where
  icache : ∀ k c, f { k with icache := c } = f k
  dinode : ∀ k d, f { k with dinode := d } = f k
  bitmap : ∀ k b, f { k with bitmap := b } = f k
  block : ∀ k b, f { k with block := b } = f k
  input : ∀ k i, f { k with input := i } = f k
  copies : ∀ k c, f { k with copies := c } = f k
  lh : ∀ k l, f { k with log := { k.log with lh := l } } = f k

theorem Log.checkWrite_fixes : Fixes id Log.checkWrite :=
  fixes_get.bind fun _ => ite (fixes_panic _) (ite (fixes_panic _) (fixes_pure _))

theorem Log.write_eq_ok {l l' : Log} {b : Word} {u : Unit}
    (h : (Log.checkWrite >>= fun _ => Log.record b) l = .ok (u, l')) : ∃ lh, l' = { l with lh := lh } := by
  obtain ⟨_, t, hc, hr⟩ := bind_eq_ok.mp h
  obtain rfl : t = l := Log.checkWrite_fixes l _ t hc
  cases hr
  exact ⟨_, rfl⟩

namespace FsBlind
variable (hf : FsBlind f)
include hf

theorem setInode (i : InodeIdx) (g : Inode → Inode) :
    Fixes f (modify fun k => k.setInode i g) := fixes_modify fun k => hf.icache k _

theorem copied (k : Kernel) (field : IdField) (s : CStr) : f (k.copied field s) = f k :=
  hf.copies k _

theorem logWrite (b : Word) : Fixes f (logWrite b) := by
  apply fixes_zoom
  intro k u l h
  obtain ⟨lh, rfl⟩ := Log.write_eq_ok h
  exact hf.lh k lh

theorem iget (inum : ℕ) : Fixes f (iget.sem inum) := by
  refine fixes_get.bind fun k => ?_
  split
  · exact (hf.setInode _ _).bind fun _ => fixes_pure _
  · split
    · exact fixes_panic _
    · exact (hf.setInode _ _).bind fun _ => fixes_pure _

theorem ilock (p : Slot) (i : InodeIdx) : Fixes f (ilock.sem p i) := by
  refine fixes_get.bind fun k => ite (fixes_panic _) (ite fixes_block ?_)
  refine ite (hf.setInode _ _) (ite (fixes_panic _) (fixes_modify fun k => ?_))
  rw [hf.copied]
  exact hf.icache k _

theorem iunlock (p : Slot) (i : InodeIdx) : Fixes f (iunlock.sem p i) :=
  fixes_get.bind fun _ => ite (fixes_panic _) (hf.setInode _ _)

theorem acquiresleep (p : Slot) (i : InodeIdx) : Fixes f (acquiresleep.sem p i) :=
  fixes_get.bind fun _ => ite fixes_block (hf.setInode _ _)

theorem store (i : InodeIdx) (u : InodeUpdate) : Fixes f (store.sem i u) := by
  refine (hf.setInode _ _).bind fun _ => ?_
  cases u with
  | userid => exact fixes_modify fun k => hf.copied k _ _
  | _ => exact fixes_pure _

theorem iupdate (i : InodeIdx) : Fixes f (iupdate.sem i) := by
  refine fixes_get.bind fun k => (hf.logWrite _).bind fun _ => fixes_modify fun k' => ?_
  rw [hf.copied]
  exact hf.dinode k' _

theorem ifree (i : InodeIdx) : Fixes f (ifree.sem i) :=
  (hf.setInode _ _).bind fun _ => (hf.iupdate i).bind fun _ => hf.setInode _ _

theorem claimInode (inum : ℕ) (type : InodeType) : Fixes f (claimInode.sem inum type) := by
  refine fixes_get.bind fun k => ite ?_ (fixes_pure _)
  refine (hf.logWrite _).bind fun _ => (fixes_modify fun k' => ?_).bind fun _ => fixes_pure _
  rw [hf.copied]
  exact hf.dinode k' _

theorem claimBlock (b : ℕ) : Fixes f (claimBlock.sem b) := by
  refine fixes_get.bind fun k => ?_
  split
  · exact fixes_pure _
  · exact (hf.logWrite _).bind fun _ => (fixes_modify fun k' => hf.bitmap k' _).bind fun _ => fixes_pure _

theorem consoleread (p : Slot) (n : ℕ) : Fixes f (consoleread.sem p n) := by
  have done (input : List UInt8) (r : ℤ × List UInt8) :
      Fixes f (modify (fun k => { k with input := input }) >>= fun _ => pure r) :=
    (fixes_modify fun k => hf.input k _).bind fun _ => fixes_pure _
  exact fixes_get.bind fun k => ite (done _ _) (ite (done _ _) fixes_block)

theorem sem (o : FsOp) : Fixes f o.sem := by
  cases o with
  | iget inum => exact hf.iget inum
  | ilock p i => exact hf.ilock p i
  | iunlock p i => exact hf.iunlock p i
  | acquiresleep p i => exact hf.acquiresleep p i
  | store i u => exact hf.store i u
  | iupdate i => exact hf.iupdate i
  | ifree i => exact hf.ifree i
  | claimInode inum type => exact hf.claimInode inum type
  | claimBlock b => exact hf.claimBlock b
  | bzero b | writeBlock b => exact (hf.logWrite b).bind fun _ => fixes_modify fun k => hf.block k _
  | bfree =>
    refine fixes_get.bind fun k => ite ?_ (fixes_panic _)
    exact (hf.logWrite _).bind fun _ => fixes_modify fun k => hf.bitmap k _
  | consoleread p n => exact hf.consoleread p n
  | consolewrite => exact fixes_pure _
  | idup | releasesleep | dropRef => exact hf.setInode _ _
  | _ => exact fixes_get.bind fun _ => fixes_pure _

end FsBlind

theorem Kernel.onLog_eq_ok {α : Type} {x : Comp Log α} {a : α} :
    onLog x k = .ok (a, k') ↔ ∃ l, x k.log = .ok (a, l) ∧ k' = { k with log := l } :=
  zoom_eq_ok

theorem Kernel.onLog_eq_error {α : Type} {x : Comp Log α} :
    onLog x k = .error e ↔ x k.log = .error e := zoom_eq_error

theorem Kernel.onPhys_eq_ok {α : Type} {x : Comp Vm.Phys α} {a : α} :
    onPhys x k = .ok (a, k') ↔ ∃ m, x k.phys = .ok (a, m) ∧ k' = { k with phys := m } :=
  zoom_eq_ok

theorem fixes_onLog {α : Type} (h : ∀ k l, f { k with log := l } = f k) (x : Comp Log α) :
    Fixes f (onLog x) := fixes_zoom fun k _ l _ => h k l

theorem fixes_onPhys {α : Type} (h : ∀ k m, f { k with phys := m } = f k) (x : Comp Vm.Phys α) :
    Fixes f (onPhys x) := fixes_zoom fun k _ m _ => h k m

theorem LogOp.sem_fixes (h : ∀ k l, f { k with log := l } = f k) (o : LogOp) : Fixes f o.sem := by
  cases o <;> exact fixes_onLog h _

theorem VmOp.sem_fixes (h : ∀ k m, f { k with phys := m } = f k) (o : VmOp) : Fixes f o.sem := by
  cases o <;> exact fixes_onPhys h _

theorem ProcOp.sem_fixes (hpt : ∀ k t, f { k with pt := t } = f k)
    (hphys : ∀ k m, f { k with phys := m } = f k) (hc : ∀ k c, f { k with copies := c } = f k)
    (o : ProcOp) : Fixes f o.sem := by
  have hcopied (k : Kernel) (field : IdField) (s : CStr) : f (k.copied field s) = f k := hc k _
  cases o with
  | proc | initproc => exact fixes_get.bind fun _ => fixes_pure _
  | alloc =>
    refine fixes_get.bind fun k => ?_
    split
    · exact fixes_pure _
    · refine (fixes_modify fun k => ?_).bind fun _ => fixes_pure _
      rw [hcopied]
      exact hpt k _
  | initChild =>
    refine fixes_modify fun k => ?_
    rw [hcopied]
    exact hpt k _
  | wait =>
    refine fixes_get.bind fun k => ?_
    split
    · exact fixes_pure _
    · exact fixes_block
    · split
      · exact fixes_panic _
      · refine (fixes_onPhys hphys _).bind fun _ => (fixes_onPhys hphys _).bind fun _ => ?_
        exact (fixes_modify fun k => hpt k _).bind fun _ => fixes_pure _
  | growproc =>
    refine fixes_get.bind fun k => (fixes_onPhys hphys _).bind fun r => ?_
    exact (fixes_modify fun k => hpt k _).bind fun _ => fixes_pure _
  | getadmin | setmemorylimit =>
    exact fixes_get.bind fun _ => (fixes_modify fun k => hpt k _).bind fun _ => fixes_pure _
  | kill => exact fixes_get.bind fun _ => (fixes_modify fun k => hpt k _).bind fun _ => fixes_pure _
  | _ => exact fixes_modify fun k => hpt k _

theorem FileOp.sem_fixes (hft : ∀ k t, f { k with ftable := t } = f k)
    (hofile : ∀ k p (u : Proc → Fin NOFILE → Option FileIdx),
      f (k.setProc p fun pr => { pr with ofile := u pr }) = f k)
    (hpipe : ∀ k p, f { k with pipe := p } = f k)
    (hphys : ∀ k m, f { k with phys := m } = f k) (o : FileOp) : Fixes f o.sem := by
  have setFile (i : FileIdx) (g : File → File) : Fixes f (modify fun k => k.setFile i g) :=
    fixes_modify fun k => hft k _
  cases o with
  | filealloc =>
    refine fixes_get.bind fun k => ?_
    split
    · exact fixes_pure _
    · exact (setFile _ _).bind fun _ => fixes_pure _
  | filedup => exact fixes_get.bind fun _ => ite (fixes_panic _) (setFile _ _)
  | fileclose =>
    refine fixes_get.bind fun k => ite (fixes_panic _) (ite ?_ ?_)
    · exact (setFile _ _).bind fun _ => fixes_pure _
    · exact (setFile _ _).bind fun _ => fixes_pure _
  | openInode | openPipe | setOff => exact setFile _ _
  | fdalloc p =>
    refine fixes_get.bind fun k => ?_
    split
    · exact fixes_pure _
    · exact (fixes_modify fun k => hofile k p _).bind fun _ => fixes_pure _
  | setFd p => exact fixes_modify fun k => hofile k p _
  | pipeclose =>
    refine (fixes_modify fun k => hpipe k _).bind fun _ => fixes_get.bind fun k => ?_
    exact ite (fixes_onPhys hphys _) (fixes_pure _)
  | initPipe => exact fixes_modify fun k => hpipe k _
  | piperead =>
    refine fixes_get.bind fun k => ite (ite (fixes_pure _) fixes_block) ?_
    exact (fixes_modify fun k => hpipe k _).bind fun _ => fixes_pure _
  | file => exact fixes_get.bind fun _ => fixes_pure _

theorem UserOp.sem_fixes (h : ∀ k t, f { k with utable := t } = f k)
    (hc : ∀ k c, f { k with copies := c } = f k) (o : UserOp) : Fixes f o.sem := by
  cases o with
  | acquire => exact fixes_get.bind fun _ => ite fixes_block (fixes_modify fun k => h k _)
  | release => exact fixes_get.bind fun _ => ite (fixes_modify fun k => h k _) (fixes_panic _)
  | read => exact fixes_get.bind fun _ => fixes_pure _
  | strcpy =>
    refine fixes_modify fun k => ?_
    rw [copied, hc]
    exact h k _
  | _ => exact fixes_modify fun k => h k _

theorem core_fixes {α : Type} {x : KProg α} (hf : FsBlind f) (hx : x.Uses Op.Core) :
    Fixes f (x.run Op.sem) := by
  intro k a k' hr
  refine hx.run_rel (R := fun s t => f t = f s) (fun _ => rfl) (fun _ _ _ h h' => h'.trans h) ?_ hr
  intro o ho s b t hsem
  cases o with
  | panic => cases hsem
  | fs o => exact hf.sem o s b t hsem
  | _ => exact ho.elim

end Xv6
