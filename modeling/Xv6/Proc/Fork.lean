import Xv6.Sys.File

/-! # Creating and ending processes -/
namespace Xv6.Sys
open KProg hiding panic
open Fs

def allocSlot : KProg (Option Slot) := proc .alloc
def copyuvm (pg : Vm.Pgdir) (sz : Word) : KProg (Option Vm.Pgdir) := vm (.copyuvm pg sz)

def allocproc : KProg (Option Slot) := do
  match ← allocSlot with
  | none => return none
  | some np =>
    match ← kalloc with
    | none =>
      proc (.abandon np)
      return none
    | some f =>
      proc (.setKstack np f)
      return some np

def kfreeStack : Option Vm.Frame → KProg Unit
  | some f => vm (.kfree f)
  | none => KProg.panic "kfree"

/-- The loop over the open files in `fork`. -/
def dupFiles (curproc : Proc) (np : Slot) : List (Fin NOFILE) → KProg Unit
  | [] => return
  | fd :: fds => do
    match curproc.ofile fd with
    | some f =>
      filedup f
      file (.setFd np fd (some f))
      dupFiles curproc np fds
    | none => dupFiles curproc np fds

def dupCwd (np : Slot) : Option InodeIdx → KProg Unit
  | some i => do
    let i ← idup i
    proc (.setCwd np (some i))
  | none => KProg.panic "idup: null inode"

/-- The body that `fork` and `fork2` share; `userid` is the source of their `strcpy`. -/
def forkWith (p : Slot) (userid : Proc → CStr) : KProg ℤ := do
  match ← allocproc with
  | none => return -1
  | some np =>
    let curproc ← myproc p
    match ← copyuvm curproc.pgdir curproc.sz with
    | none =>
      kfreeStack (← myproc np).kstack
      proc (.abandon np)
      return -1
    | some pg =>
      proc (.initChild np p pg (userid curproc))
      dupFiles curproc np (List.finRange NOFILE)
      dupCwd np curproc.cwd
      proc (.setName np curproc.name)
      let pid := (← myproc np).pid
      proc (.publish np)
      return pid

def fork (p : Slot) : KProg ℤ := forkWith p Proc.userid

def fork2 (p : Slot) (username : CStr) : KProg ℤ := forkWith p fun _ => username

/-- The loop over the open files in `exit`. -/
def closeFiles (p : Slot) : List (Fin NOFILE) → KProg Unit
  | [] => return
  | fd :: fds => do
    match (← myproc p).ofile fd with
    | some f =>
      fileclose p f
      file (.setFd p fd none)
      closeFiles p fds
    | none => closeFiles p fds

def initproc : KProg (Option Slot) := proc .initproc

def exit (p : Slot) : KProg Unit := do
  if (← initproc) = some p then KProg.panic "init exiting"
  else
    closeFiles p (List.finRange NOFILE)
    beginOp
    putInode p (← cwd p)
    endOp
    proc (.setCwd p none)
    proc (.exit p)

def wait (p : Slot) : KProg ℤ := proc (.wait p)
def growproc (p : Slot) (n : Word) : KProg ℤ := proc (.growproc p n)
def getadmin (p : Slot) (password : CStr) : KProg ℤ := proc (.getadmin p password)
def kill (pid : ℤ) : KProg ℤ := proc (.kill pid)
def setmemorylimit (p : Slot) (pid : ℤ) (limit : Word) : KProg ℤ := proc (.setmemorylimit p pid limit)

end Xv6.Sys
