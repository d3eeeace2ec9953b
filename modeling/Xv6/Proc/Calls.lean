import Xv6.Proc.Exec
import Xv6.Proc.Fork

/-! # The process system calls -/
namespace Xv6.Sys
open Prog Fs Comp
open KProg hiding panic

inductive ProcCall
  | fork
  | fork2 (username : CStr)
  | exec (path : CStr) (argv : List CStr)
  | exec2 (path : CStr) (argv : List CStr) (stacksize : Word)
  | exit
  | wait
  | getadmin (password : CStr)
  | growproc (n : Word)
  | setmemorylimit (pid : ℤ) (limit : Word)

/-- `exit` does not return; its end stands for the last switch to the scheduler. -/
def ProcCall.body (p : Slot) : ProcCall → KProg ℤ
  | fork => Sys.fork p
  | fork2 username => Sys.fork2 p username
  | exec path argv => Sys.exec p path argv
  | exec2 path argv stacksize => Sys.exec2 p path argv stacksize
  | exit => do
    Sys.exit p
    return 0
  | wait => Sys.wait p
  | getadmin password => Sys.getadmin p password
  | growproc n => Sys.growproc p n
  | setmemorylimit pid limit => Sys.setmemorylimit p pid limit

/-- Operations that leave the size, the limit, the identity and the state of every process alone. -/
def Aside : Op → Prop
  | .proc (.proc _) => True
  | .proc .initproc => True
  | .proc (.setKstack _ _) => True
  | .proc (.setCwd _ _) => True
  | .proc (.setName _ _) => True
  | .proc _ => False
  | _ => True

def Routine : Op → Prop
  | .fs (.store _ (.userid _)) => False
  | .user (.strcpy _ _) => False
  | o => Aside o

/-- Those of `exec`, which gives its caller a new image. -/
def Loads (p : Slot) : Op → Prop
  | .proc (.setImage q _ _ _ _) => q = p
  | o => Routine o

section Uses
variable {α : Type} {p : Slot} {x : KProg α}

theorem Routine.aside (ho : Routine o) : Aside o := by
  cases o with
  | proc => exact ho
  | _ => trivial

theorem routine_of_core (h : x.Uses Op.Core) : x.Uses Routine := h.mono fun o ho => by
  cases o with
  | panic => trivial
  | fs o =>
    cases o with
    | store i u =>
      cases u with
      | userid => exact ho.elim
      | _ => trivial
    | _ => trivial
  | _ => exact ho.elim

theorem loads_of_routine (h : x.Uses Routine) : x.Uses (Loads p) := h.mono fun o ho => by
  cases o with
  | proc o =>
    cases o with
    | setImage => exact ho.elim
    | _ => exact ho
  | _ => exact ho

theorem loads_of_core (h : x.Uses Op.Core) : x.Uses (Loads p) := loads_of_routine (routine_of_core h)

theorem loads_of_image (h : x.Uses (Image p)) : x.Uses (Loads p) := h.mono fun o ho => by
  cases o with
  | proc o =>
    cases o with
    | proc | setName => trivial
    | setImage => exact ho
    | _ => exact ho.elim
  | fs o =>
    cases o with
    | store i u =>
      cases u with
      | userid => exact ho.elim
      | _ => trivial
    | _ => trivial
  | user => exact ho.elim
  | _ => trivial

theorem endOp_routine : endOp.Uses Routine := by
  refine uses_bind_call trivial fun (last : Bool) => .ite ?_ (uses_pure _)
  exact uses_bind_call trivial fun _ => uses_call trivial

theorem fail_routine (h : undo.Uses Routine) : (fail undo).Uses Routine :=
  h.bind fun _ => endOp_routine.bind fun _ => uses_pure _

theorem putInode_routine (p : Slot) (i : Option InodeIdx) : (putInode p i).Uses Routine := by
  cases i with
  | some i => exact routine_of_core (iput_core p i)
  | none => exact panic_uses trivial

theorem fileclose_routine (p : Slot) (f : FileIdx) : (fileclose p f).Uses Routine := by
  refine uses_bind_call trivial fun (ff : Option File) => ?_
  cases ff with
  | none => exact uses_pure _
  | some =>
    dsimp only [closed]
    split
    · exact uses_call trivial
    · exact uses_bind_call trivial fun _ => (putInode_routine p _).bind fun _ => endOp_routine
    · exact uses_pure _

theorem closeFiles_routine (p : Slot) (fds : List (Fin NOFILE)) : (closeFiles p fds).Uses Routine := by
  induction fds with
  | nil => exact uses_pure _
  | cons fd fds ih =>
    refine uses_bind_call trivial fun (pr : Proc) => ?_
    split
    · exact (fileclose_routine p _).bind fun _ => uses_bind_call trivial fun _ => ih
    · exact ih

theorem dupFiles_routine (curproc : Proc) (np : Slot) (fds : List (Fin NOFILE)) :
    (dupFiles curproc np fds).Uses Routine := by
  induction fds with
  | nil => exact uses_pure _
  | cons fd fds ih =>
    unfold dupFiles
    split
    · exact uses_bind_call trivial fun _ => uses_bind_call trivial fun _ => ih
    · exact ih

theorem dupCwd_routine (np : Slot) (i : Option InodeIdx) : (dupCwd np i).Uses Routine := by
  cases i with
  | some i => exact (routine_of_core (idup_core i)).bind fun _ => uses_call trivial
  | none => exact panic_uses trivial

theorem kfreeStack_routine (f : Option Vm.Frame) : (kfreeStack f).Uses Routine := by
  cases f with
  | some => exact uses_call trivial
  | none => exact panic_uses trivial

theorem execInode_loads (p : Slot) (ip : InodeIdx) (path : CStr) (argv : List CStr) (pages : Word) :
    (execInode p ip path argv pages).Uses (Loads p) := by
  have hput : (iunlockput p ip).Uses Routine := routine_of_core (iunlockput_core p ip)
  refine (loads_of_core (readi_core p ip _ _)).bind fun r => ?_
  refine .ite (loads_of_routine (fail_routine hput)) (uses_bind_call trivial fun (pg : Option Vm.Pgdir) => ?_)
  cases pg with
  | none => exact loads_of_routine (fail_routine hput)
  | some pg =>
    refine (loads_of_image (loadSegments_image p ip _ _ pg 0)).bind fun r => .ite ?_ ?_
    · refine (loads_of_routine hput).bind fun _ => (loads_of_routine endOp_routine).bind fun _ => ?_
      exact loads_of_image (execStack_image p path argv _ pages _ _)
    · exact loads_of_routine (fail_routine (uses_bind_call trivial fun _ => hput))

theorem exec_loads (p : Slot) (path : CStr) (argv : List CStr) : (exec p path argv).Uses (Loads p) := by
  refine uses_bind_call trivial fun _ => (loads_of_core (namei_core p path)).bind fun r => ?_
  cases r with
  | none => exact loads_of_routine (fail_routine (uses_pure _))
  | some ip =>
    refine uses_bind_call trivial fun _ => uses_bind_call trivial fun (ok : Bool) => .ite ?_ ?_
    · exact loads_of_routine (fail_routine (routine_of_core (iunlockput_core p ip)))
    · exact execInode_loads p ip path argv 2

theorem exec2_loads (p : Slot) (path : CStr) (argv : List CStr) (stacksize : Word) :
    (exec2 p path argv stacksize).Uses (Loads p) := by
  have hfail : (fail (pure ())).Uses (Loads p) := loads_of_routine (fail_routine (uses_pure _))
  refine uses_bind_call trivial fun _ => uses_bind_call trivial fun (pr : Proc) => ?_
  refine .ite hfail (.ite hfail ((loads_of_core (namei_core p path)).bind fun r => ?_))
  cases r with
  | none => exact hfail
  | some ip => exact uses_bind_call trivial fun _ => execInode_loads p ip path argv _

end Uses

theorem aside_fixes {τ : Type} {f : Proc → τ} (hkstack : ∀ pr s, f { pr with kstack := s } = f pr)
    (hcwd : ∀ pr i, f { pr with cwd := i } = f pr) (hname : ∀ pr n, f { pr with name := n } = f pr)
    (hofile : ∀ pr o, f { pr with ofile := o } = f pr) (ho : Aside o) (q : Slot) :
    Fixes (fun k : Kernel => f (k.pt.proc q)) o.sem := by
  have hset {g : Proc → Proc} (hg : ∀ pr, f (g pr) = f pr) (k : Kernel) (p : Slot) :
      f ((k.setProc p g).pt.proc q) = f (k.pt.proc q) := by
    rw [Kernel.setProc, PTable.modify_proc]
    split
    case isTrue hq =>
      subst hq
      exact hg _
    case isFalse => rfl
  cases o with
  | panic => exact fixes_panic _
  | log o => exact LogOp.sem_fixes (fun _ _ => rfl) o
  | fs o => exact FsBlind.sem (by constructor <;> intros <;> rfl) o
  | file o =>
    exact FileOp.sem_fixes (fun _ _ => rfl) (fun k p u => hset (fun pr => hofile pr _) k p)
      (fun _ _ => rfl) (fun _ _ => rfl) o
  | vm o => exact VmOp.sem_fixes (fun _ _ => rfl) o
  | user o => exact UserOp.sem_fixes (fun _ _ => rfl) (fun _ _ => rfl) o
  | proc o =>
    cases o with
    | proc | initproc => exact fixes_get.bind fun _ => fixes_pure _
    | setKstack np => exact fixes_modify fun k => hset (fun pr => hkstack pr _) k np
    | setCwd p => exact fixes_modify fun k => hset (fun pr => hcwd pr _) k p
    | setName p => exact fixes_modify fun k => hset (fun pr => hname pr _) k p
    | _ => exact ho.elim

theorem aside_globals (ho : Aside o) : Fixes (fun k : Kernel => (k.pt.nextpid, k.pt.initproc)) o.sem := by
  cases o with
  | panic => exact fixes_panic _
  | log o => exact LogOp.sem_fixes (fun _ _ => rfl) o
  | fs o => exact FsBlind.sem (by constructor <;> intros <;> rfl) o
  | file o => exact FileOp.sem_fixes (fun _ _ => rfl) (fun _ _ _ => rfl) (fun _ _ => rfl) (fun _ _ => rfl) o
  | vm o => exact VmOp.sem_fixes (fun _ _ => rfl) o
  | user o => exact UserOp.sem_fixes (fun _ _ => rfl) (fun _ _ => rfl) o
  | proc o =>
    cases o with
    | proc | initproc => exact fixes_get.bind fun _ => fixes_pure _
    | setKstack | setCwd | setName => exact fixes_modify fun k => rfl
    | _ => exact ho.elim

end Xv6.Sys
