import Xv6.Kernel.State
import Xv6.Lib.Prog
import Xv6.Proc.Growproc
import Xv6.Vm.Space

/-! # Atomic operations of the kernel

What a system call does between two points where others may run: a critical section
under a spin-lock, or an access to what a sleep-lock gives it alone. Each operation has
an answer and a handler on the kernel state.
-/
namespace Xv6
open Function Kernel

inductive LogOp
  | beginOp
  | endOp
  | commit
  | endCommit

/-- The places that test the permission bits of an inode. -/
inductive Site
  | namex | create | «open» | unlink | chdir | exec
  deriving DecidableEq

/-- Assignments to the fields of a locked inode. -/
inductive InodeUpdate
  | dev (major minor : BitVec 16)
  | nlink (n : BitVec 16)
  | size (n : Word)
  | addr (k : Fin 8) (a : Word)
  | mode (m : Word)
  | userid (s : CStr)

def InodeUpdate.apply : InodeUpdate → Dinode → Dinode
  | .dev major minor, d => { d with major := major, minor := minor }
  | .nlink n, d => { d with nlink := n }
  | .size n, d => { d with size := n }
  | .addr n a, d => { d with addrs := update d.addrs n a }
  | .mode m, d => { d with mode := m }
  | .userid s, d => { d with userid := s }

/-- Operations of `fs.c` on the inode cache and on blocks. -/
inductive FsOp
  | iget (inum : ℕ)
  | idup (i : InodeIdx)
  | ilock (p : Slot) (i : InodeIdx)
  | iunlock (p : Slot) (i : InodeIdx)
  | acquiresleep (p : Slot) (i : InodeIdx)
  | releasesleep (i : InodeIdx)
  | ref (i : InodeIdx)
  | dropRef (i : InodeIdx)
  | inode (i : InodeIdx)
  | store (i : InodeIdx) (u : InodeUpdate)
  | iupdate (i : InodeIdx)
  | ifree (i : InodeIdx)
  | claimInode (inum : ℕ) (type : InodeType)
  | sb
  | claimBlock (b : ℕ)
  | bzero (b : Word)
  | bfree (b : Word)
  | readBlock (b : Word)
  | writeBlock (b : Word) (off : ℕ) (src : List UInt8)
  | cwd (p : Slot)
  | access (site : Site) (p : Slot) (i : InodeIdx) (usr oth : Word)
  | consoleread (p : Slot) (n : ℕ)
  | consolewrite (src : List UInt8)

inductive FileOp
  | filealloc
  | filedup (f : FileIdx)
  | fileclose (f : FileIdx)
  | openInode (f : FileIdx) (i : InodeIdx) (readable writable : Bool)
  | fdalloc (p : Slot) (f : FileIdx)
  | setFd (p : Slot) (fd : Fin NOFILE) (f : Option FileIdx)
  | initPipe (pi : Vm.Frame)
  | openPipe (f : FileIdx) (pi : Vm.Frame) (writable : Bool)
  | pipeclose (pi : Vm.Frame) (writable : Bool)
  | piperead (p : Slot) (pi : Vm.Frame) (n : ℕ)
  | file (f : FileIdx)
  | setOff (f : FileIdx) (off : Word)

inductive ProcOp
  | proc (p : Slot)
  | alloc
  | setKstack (np : Slot) (f : Vm.Frame)
  | abandon (np : Slot)
  | initChild (np p : Slot) (pg : Vm.Pgdir) (userid : CStr)
  | setCwd (p : Slot) (i : Option InodeIdx)
  | setName (p : Slot) (name : List UInt8)
  | publish (np : Slot)
  | initproc
  | exit (p : Slot)
  | wait (p : Slot)
  | setImage (p : Slot) (pg : Vm.Pgdir) (sz eip esp : Word)
  | growproc (p : Slot) (n : Word)
  | getadmin (p : Slot) (password : CStr)
  | setmemorylimit (p : Slot) (pid : ℤ) (limit : Word)
  | kill (pid : ℤ)

inductive VmOp
  | kalloc
  | kfree (f : Vm.Frame)
  | setupkvm
  | allocuvm (pg : Vm.Pgdir) (oldsz newsz : Word)
  | freevm (pg : Vm.Pgdir)
  | copyuvm (pg : Vm.Pgdir) (sz : Word)
  | poke (f : Vm.Frame) (bs : List UInt8)
  | clearpteu (pg : Vm.Pgdir) (uva : Word)
  | copyout (pg : Vm.Pgdir) (va : Word) (buf : List UInt8)

inductive UserOp
  | initlock
  | acquire
  | release
  | read
  | strcpy (addr : ℕ) (s : CStr)
  | write (addr : ℕ) (bs : List UInt8)
  | setPtr (i : InodeIdx)

inductive Op
  | panic (msg : String)
  | log (o : LogOp)
  | fs (o : FsOp)
  | file (o : FileOp)
  | proc (o : ProcOp)
  | vm (o : VmOp)
  | user (o : UserOp)

def LogOp.Ans : LogOp → Type
  | endOp => Bool
  | _ => Unit

def FsOp.Ans : FsOp → Type
  | iget _ => InodeIdx
  | ref _ => ℤ
  | inode _ => Inode
  | claimInode _ _ => Bool
  | sb => Superblock
  | claimBlock _ => Option Word
  | readBlock _ => ℕ → UInt8
  | cwd _ => Option InodeIdx
  | access _ _ _ _ _ => Bool
  | consoleread _ _ => ℤ × List UInt8
  | _ => Unit

def FileOp.Ans : FileOp → Type
  | filealloc => Option FileIdx
  | fileclose _ => Option File
  | fdalloc _ _ => Option (Fin NOFILE)
  | piperead _ _ _ => ℤ × List UInt8
  | file _ => File
  | _ => Unit

def ProcOp.Ans : ProcOp → Type
  | proc _ => Proc
  | alloc => Option Slot
  | initproc => Option Slot
  | wait _ => ℤ
  | growproc _ _ => ℤ
  | getadmin _ _ => ℤ
  | setmemorylimit _ _ _ => ℤ
  | kill _ => ℤ
  | _ => Unit

def VmOp.Ans : VmOp → Type
  | kalloc => Option Vm.Frame
  | setupkvm => Option Vm.Pgdir
  | allocuvm _ _ _ => Word × Vm.Pgdir
  | copyuvm _ _ => Option Vm.Pgdir
  | clearpteu _ _ => Vm.Pgdir
  | copyout _ _ _ => Bool
  | _ => Unit

def UserOp.Ans : UserOp → Type
  | read => UTable
  | _ => Unit

def Op.Ans : Op → Type
  | panic _ => Empty
  | log o => o.Ans
  | fs o => o.Ans
  | file o => o.Ans
  | proc o => o.Ans
  | vm o => o.Ans
  | user o => o.Ans

/-- The operations of path lookup and of reading, writing and freeing inodes. -/
def FsOp.Core : FsOp → Prop
  | store _ (.size _) => True
  | store _ (.addr _ _) => True
  | store _ _ => False
  | claimInode _ _ => False
  | access .namex _ _ _ _ => True
  | access _ _ _ _ _ => False
  | _ => True

def FsOp.panics : List String :=
  ["balloc: out of blocks", "bmap: out of range", "dirlookup not DIR", "dirlookup read", "dirlink read", "dirlink",
    "isdirempty: readi", "idup: null inode"]

def Op.Core : Op → Prop
  | panic msg => msg ∈ FsOp.panics
  | fs o => o.Core
  | _ => False

/-- Of these, the ones on the size and the blocks of inodes, which neither take nor give
back a lock or a reference, nor free an inode. -/
def FsOp.Contents : FsOp → Prop
  | store _ (.size _) => True
  | store _ (.addr _ _) => True
  | ref _ => True
  | inode _ => True
  | iupdate _ => True
  | sb => True
  | claimBlock _ => True
  | bzero _ => True
  | bfree _ => True
  | readBlock _ => True
  | writeBlock _ _ _ => True
  | _ => False

def Op.Contents : Op → Prop
  | panic msg => msg ∈ FsOp.panics
  | fs o => o.Contents
  | _ => False

/-- Kernel code, from one atomic operation to the next. -/
abbrev KProg (α : Type) := Prog Op Op.Ans α

namespace Kernel

def onLog {α : Type} (x : Comp Log α) : Comp Kernel α :=
  Comp.zoom Kernel.log (fun k l => { k with log := l }) x

def onPhys {α : Type} (x : Comp Vm.Phys α) : Comp Kernel α :=
  Comp.zoom Kernel.phys (fun k m => { k with phys := m }) x

def setInode (k : Kernel) (i : InodeIdx) (f : Inode → Inode) : Kernel :=
  { k with icache := update k.icache i (f (k.icache i)) }

def setFile (k : Kernel) (f : FileIdx) (g : File → File) : Kernel :=
  { k with ftable := update k.ftable f (g (k.ftable f)) }

def setProc (k : Kernel) (p : Slot) (f : Proc → Proc) : Kernel :=
  { k with pt := k.pt.modify p f }

/-- A `strcpy` into an identity field. -/
def copied (k : Kernel) (field : IdField) (s : CStr) : Kernel :=
  { k with copies := k.copies ++ [(field, s)] }

def logWrite (b : Word) : Comp Kernel Unit := onLog do
  Log.checkWrite
  Log.record b

def iblock (k : Kernel) (inum : ℕ) : Word := BitVec.ofNat 32 (inum / IPB + k.sb.inodestart)

def bblock (k : Kernel) (b : ℕ) : Word := BitVec.ofNat 32 (b / BPB + k.sb.bmapstart)

end Kernel

def LogOp.sem : (o : LogOp) → Comp Kernel o.Ans
  | beginOp => Kernel.onLog Log.beginOp
  | endOp => Kernel.onLog Log.endOp
  | commit => Kernel.onLog (Comp.modify fun log => { log with lh := [] })
  | endCommit => Kernel.onLog Log.endCommit

namespace FsOp

def entries : List InodeIdx := List.finRange NINODE

def iget.sem (inum : ℕ) : Comp Kernel InodeIdx := do
  let k ← Comp.get
  match entries.find? fun i => 0 < (k.icache i).ref ∧ (k.icache i).inum = inum with
  | some i =>
    Comp.modify fun k => k.setInode i fun ip => { ip with ref := ip.ref + 1 }
    return i
  | none =>
    match entries.find? fun i => (k.icache i).ref = 0 with
    | none => Comp.panic "iget: no inodes"
    | some i =>
      Comp.modify fun k => k.setInode i fun ip => { ip with inum := inum, ref := 1, valid := false }
      return i

/-- The lock is taken and, if the entry is not valid, the inode is read from its block. -/
def ilock.sem (p : Slot) (i : InodeIdx) : Comp Kernel Unit := do
  let k ← Comp.get
  let ip := k.icache i
  if ip.ref < 1 then Comp.panic "ilock"
  else if ip.lock.isSome then Comp.block
  else if ip.valid then Comp.modify fun k => k.setInode i fun ip => { ip with lock := some p }
  else
    let d := k.dinode ip.inum
    if d.type = .free then Comp.panic "ilock: no type"
    else
      Comp.modify fun k =>
        (k.setInode i fun ip => { ip with lock := some p, valid := true, d := d }).copied
          (.inodeUserid i) d.userid

def iunlock.sem (p : Slot) (i : InodeIdx) : Comp Kernel Unit := do
  let k ← Comp.get
  let ip := k.icache i
  if ip.lock ≠ some p ∨ ip.ref < 1 then Comp.panic "iunlock"
  else Comp.modify fun k => k.setInode i fun ip => { ip with lock := none }

def acquiresleep.sem (p : Slot) (i : InodeIdx) : Comp Kernel Unit := do
  let k ← Comp.get
  if (k.icache i).lock.isSome then Comp.block
  else Comp.modify fun k => k.setInode i fun ip => { ip with lock := some p }

def store.sem (i : InodeIdx) (u : InodeUpdate) : Comp Kernel Unit := do
  Comp.modify fun k => k.setInode i fun ip => { ip with d := u.apply ip.d }
  match u with
  | .userid s => Comp.modify fun k => k.copied (.inodeUserid i) s
  | _ => pure ()

def iupdate.sem (i : InodeIdx) : Comp Kernel Unit := do
  let k ← Comp.get
  let ip := k.icache i
  Kernel.logWrite (k.iblock ip.inum)
  Comp.modify fun k =>
    Kernel.copied { k with dinode := update k.dinode ip.inum ip.d }
      (.dinodeUserid ip.inum) ip.d.userid

/-- The end of `iput` for an inode without links, all of it under `ip->lock`. -/
def ifree.sem (i : InodeIdx) : Comp Kernel Unit := do
  Comp.modify fun k => k.setInode i fun ip => { ip with d := { ip.d with type := .free } }
  iupdate.sem i
  Comp.modify fun k => k.setInode i fun ip => { ip with valid := false }

/-- The mode that `ialloc` gives to a new inode. -/
def defaultMode : InodeType → Word
  | .file => MODE_RUSR ||| MODE_WUSR ||| MODE_ROTH
  | .dir => MODE_RUSR ||| MODE_WUSR ||| MODE_XUSR ||| MODE_ROTH ||| MODE_XOTH
  | .dev => MODE_RUSR ||| MODE_WUSR ||| MODE_XUSR ||| MODE_ROTH ||| MODE_WOTH ||| MODE_XOTH
  | .free => 0

def system : CStr := CStr.ofString "SYSTEM"

/-- One turn of the loop in `ialloc`. -/
def claimInode.sem (inum : ℕ) (type : InodeType) : Comp Kernel Bool := do
  let k ← Comp.get
  if (k.dinode inum).type = .free then
    Kernel.logWrite (k.iblock inum)
    let d : Dinode := { type := type, userid := system, mode := defaultMode type }
    Comp.modify fun k =>
      Kernel.copied { k with dinode := update k.dinode inum d } (.dinodeUserid inum) system
    return true
  else return false

/-- The first clear bit among the `n` bits from `b` on. -/
def firstFree (bitmap : ℕ → Bool) (size : ℕ) : (n : ℕ) → ℕ → Option ℕ
  | 0, _ => none
  | n + 1, b =>
    if b < size then if bitmap b then firstFree bitmap size n (b + 1) else some b
    else none

/-- One turn of the outer loop in `balloc`, on the free-map block of bit `b`. -/
def claimBlock.sem (b : ℕ) : Comp Kernel (Option Word) := do
  let k ← Comp.get
  match firstFree k.bitmap k.sb.size BPB b with
  | none => return none
  | some b =>
    Kernel.logWrite (k.bblock b)
    Comp.modify fun k => { k with bitmap := update k.bitmap b true }
    return some (BitVec.ofNat 32 b)

def bfree.sem (b : Word) : Comp Kernel Unit := do
  let k ← Comp.get
  if k.bitmap b.toNat then
    Kernel.logWrite (k.bblock b.toNat)
    Comp.modify fun k => { k with bitmap := update k.bitmap b.toNat false }
  else Comp.panic "freeing free block"

def writeBlock.sem (b : Word) (off : ℕ) (src : List UInt8) : Comp Kernel Unit := do
  Kernel.logWrite b
  Comp.modify fun k => { k with block := update k.block b (Mem.write (k.block b) off src) }

def bzero.sem (b : Word) : Comp Kernel Unit := do
  Kernel.logWrite b
  Comp.modify fun k => { k with block := update k.block b fun _ => 0 }

/-- What the loop of `consoleread` takes from the input buffer, what it leaves there,
and whether it is done, as opposed to out of input. -/
def readLine : (n : ℕ) → (first : Bool) → List UInt8 → List UInt8 × List UInt8 × Bool
  | 0, _, input => ([], input, true)
  | _ + 1, _, [] => ([], [], false)
  | n + 1, first, c :: input =>
    if c = 4 then ([], if first then input else c :: input, true)
    else if c = 10 then ([c], input, true)
    else
      let (line, rest, done) := readLine n false input
      (c :: line, rest, done)

/-- The value returned, and the bytes stored; a reader that is not killed sleeps until
its line is complete. -/
def consoleread.sem (p : Slot) (n : ℕ) : Comp Kernel (ℤ × List UInt8) := do
  let k ← Comp.get
  let (line, rest, done) := readLine n true k.input
  if done then
    Comp.modify fun k => { k with input := rest }
    return (line.length, line)
  else if (k.pt.proc p).killed then
    Comp.modify fun k => { k with input := rest }
    return (-1, line)
  else Comp.block

def sem : (o : FsOp) → Comp Kernel o.Ans
  | iget inum => iget.sem inum
  | idup i => Comp.modify fun k => k.setInode i fun ip => { ip with ref := ip.ref + 1 }
  | ilock p i => ilock.sem p i
  | iunlock p i => iunlock.sem p i
  | acquiresleep p i => acquiresleep.sem p i
  | releasesleep i => Comp.modify fun k => k.setInode i fun ip => { ip with lock := none }
  | ref i => do return ((← Comp.get).icache i).ref
  | dropRef i => Comp.modify fun k => k.setInode i fun ip => { ip with ref := ip.ref - 1 }
  | inode i => do return (← Comp.get).icache i
  | store i u => store.sem i u
  | iupdate i => iupdate.sem i
  | ifree i => ifree.sem i
  | claimInode inum type => claimInode.sem inum type
  | sb => do return (← Comp.get).sb
  | claimBlock b => claimBlock.sem b
  | bzero b => bzero.sem b
  | bfree b => bfree.sem b
  | readBlock b => do return (← Comp.get).block b
  | writeBlock b off src => writeBlock.sem b off src
  | cwd p => do return ((← Comp.get).pt.proc p).cwd
  | access _ p i usr oth => do
    let k ← Comp.get
    return mayAccess (k.pt.proc p).userid (k.icache i).d usr oth
  | consoleread p n => consoleread.sem p n
  | consolewrite _ => pure ()

end FsOp

namespace FileOp

def filealloc.sem : Comp Kernel (Option FileIdx) := do
  let k ← Comp.get
  match (List.finRange NFILE).find? fun f => (k.ftable f).ref = 0 with
  | none => return none
  | some f =>
    Comp.modify fun k => k.setFile f fun f => { f with ref := 1 }
    return some f

/-- The critical section of `fileclose`; the answer is the copy that it goes on with
after the last reference is gone. -/
def fileclose.sem (f : FileIdx) : Comp Kernel (Option File) := do
  let k ← Comp.get
  let ff := { k.ftable f with ref := (k.ftable f).ref - 1 }
  if (k.ftable f).ref < 1 then Comp.panic "fileclose"
  else if 0 < ff.ref then
    Comp.modify fun k => k.setFile f fun _ => ff
    return none
  else
    Comp.modify fun k => k.setFile f fun _ => { ff with type := .none }
    return some ff

def fdalloc.sem (p : Slot) (f : FileIdx) : Comp Kernel (Option (Fin NOFILE)) := do
  let k ← Comp.get
  match (List.finRange NOFILE).find? fun fd => (k.pt.proc p).ofile fd = none with
  | none => return none
  | some fd =>
    Comp.modify fun k => k.setProc p fun pr => { pr with ofile := update pr.ofile fd (some f) }
    return some fd

def pipeclose.sem (pi : Vm.Frame) (writable : Bool) : Comp Kernel Unit := do
  Comp.modify fun k =>
    let pipe := k.pipe pi
    let pipe := if writable then { pipe with writeopen := false } else { pipe with readopen := false }
    { k with pipe := update k.pipe pi pipe }
  let k ← Comp.get
  if (k.pipe pi).readopen = false ∧ (k.pipe pi).writeopen = false then Kernel.onPhys (Vm.kfree pi)
  else pure ()

/-- The loop of `piperead` over at most `n` bytes: what it copies, and the pipe after it. -/
def drain : (n : ℕ) → Pipe → List UInt8 × Pipe
  | 0, d => ([], d)
  | n + 1, d =>
    if d.nread = d.nwrite then ([], d)
    else
      let (bytes, rest) := drain n { d with nread := d.nread + 1 }
      (d.data (Pipe.slot d.nread.toNat) :: bytes, rest)

/-- A reader that is not killed sleeps while the pipe is empty and open for writing. -/
def piperead.sem (p : Slot) (pi : Vm.Frame) (n : ℕ) : Comp Kernel (ℤ × List UInt8) := do
  let k ← Comp.get
  let d := k.pipe pi
  if d.nread = d.nwrite ∧ d.writeopen then
    if (k.pt.proc p).killed then return (-1, []) else Comp.block
  else
    let (bytes, rest) := drain n d
    Comp.modify fun k => { k with pipe := update k.pipe pi rest }
    return (bytes.length, bytes)

def sem : (o : FileOp) → Comp Kernel o.Ans
  | filealloc => filealloc.sem
  | filedup f => do
    let k ← Comp.get
    if (k.ftable f).ref < 1 then Comp.panic "filedup"
    else Comp.modify fun k => k.setFile f fun f => { f with ref := f.ref + 1 }
  | fileclose f => fileclose.sem f
  | openInode f i readable writable => Comp.modify fun k => k.setFile f fun f =>
      { f with type := .inode, ip := some i, off := 0, readable := readable, writable := writable }
  | fdalloc p f => fdalloc.sem p f
  | setFd p fd f => Comp.modify fun k => k.setProc p fun pr =>
      { pr with ofile := update pr.ofile fd f }
  | initPipe pi => Comp.modify fun k =>
      let pipe := { k.pipe pi with readopen := true, writeopen := true, nwrite := 0, nread := 0 }
      { k with pipe := update k.pipe pi pipe }
  | openPipe f pi writable => Comp.modify fun k => k.setFile f fun f =>
      { f with type := .pipe, readable := !writable, writable := writable, pipe := pi }
  | pipeclose pi writable => pipeclose.sem pi writable
  | piperead p pi n => piperead.sem p pi n
  | file f => do return (← Comp.get).ftable f
  | setOff f off => Comp.modify fun k => k.setFile f fun f => { f with off := off }

end FileOp

namespace ProcOp

/-- The critical section of `allocproc`. -/
def alloc.sem : Comp Kernel (Option Slot) := do
  let k ← Comp.get
  match k.pt.allocproc k.mlfq k.ticks with
  | none => return none
  | some (np, pt) =>
    Comp.modify fun k => Kernel.copied { k with pt := pt } (.procUserid np) root
    return some np

/-- What `fork` and `fork2` copy from the caller to the child, with the user id that
they differ in. -/
def child (np : Proc) (p : Slot) (curproc : Proc) (pg : Vm.Pgdir) (userid : CStr) : Proc :=
  { np with
    pgdir := pg
    sz := curproc.sz
    parent := some p
    tf := { curproc.tf with eax := 0 }
    mode := curproc.mode
    limit := curproc.limit
    userid := userid }

/-- One round of the loop in `wait`, with the child's memory freed under the lock. -/
def wait.sem (p : Slot) : Comp Kernel ℤ := do
  let k ← Comp.get
  match k.pt.wait p with
  | .none => return -1
  | .sleep => Comp.block
  | .reaped q pid pt =>
    match (k.pt.proc q).kstack with
    | none => Comp.panic "kfree"
    | some f =>
      Kernel.onPhys (Vm.kfree f)
      Kernel.onPhys (Vm.freevm (k.pt.proc q).pgdir)
      Comp.modify fun k => { k with pt := pt }
      return pid

def sem : (o : ProcOp) → Comp Kernel o.Ans
  | proc p => do return (← Comp.get).pt.proc p
  | alloc => alloc.sem
  | setKstack np f => Comp.modify fun k => k.setProc np fun pr => { pr with kstack := some f }
  | abandon np => Comp.modify fun k => k.setProc np fun pr =>
      { pr with kstack := none, state := .unused }
  | initChild np p pg userid => Comp.modify fun k =>
      (k.setProc np fun pr => child pr p (k.pt.proc p) pg userid).copied (.procUserid np) userid
  | setCwd p i => Comp.modify fun k => k.setProc p fun pr => { pr with cwd := i }
  | setName p name => Comp.modify fun k => k.setProc p fun pr => { pr with name := name }
  | publish np => Comp.modify fun k => k.setProc np fun pr => { pr with state := .runnable }
  | initproc => do return (← Comp.get).pt.initproc
  | exit p => Comp.modify fun k => { k with pt := k.pt.exit p }
  | wait p => wait.sem p
  | setImage p pg sz eip esp => Comp.modify fun k => k.setProc p fun pr =>
      { pr with pgdir := pg, sz := sz, tf := { pr.tf with eip := eip, esp := esp } }
  | growproc p n => do
    let k ← Comp.get
    let (r, pr) ← Kernel.onPhys (Xv6.growproc (k.pt.proc p) n)
    Comp.modify fun k => k.setProc p fun _ => pr
    return r
  | getadmin p password => do
    let k ← Comp.get
    Comp.modify fun k => { k with pt := (k.pt.getadmin p password).2 }
    return (k.pt.getadmin p password).1
  | setmemorylimit p pid limit => do
    let k ← Comp.get
    Comp.modify fun k => { k with pt := (k.pt.setmemorylimit p pid limit).2 }
    return (k.pt.setmemorylimit p pid limit).1
  | kill pid => do
    let k ← Comp.get
    Comp.modify fun k => { k with pt := (k.pt.kill pid).2 }
    return (k.pt.kill pid).1

end ProcOp

def VmOp.sem : (o : VmOp) → Comp Kernel o.Ans
  | kalloc => Kernel.onPhys Vm.kalloc
  | kfree f => Kernel.onPhys (Vm.kfree f)
  | setupkvm => Kernel.onPhys Vm.setupkvm
  | allocuvm pg oldsz newsz => Kernel.onPhys (Vm.allocuvm pg oldsz newsz)
  | freevm pg => Kernel.onPhys (Vm.freevm pg)
  | copyuvm pg sz => Kernel.onPhys (Vm.copyuvm pg sz)
  | poke f bs => Kernel.onPhys (Vm.poke f 0 bs)
  | clearpteu pg uva => Kernel.onPhys (Vm.clearpteu pg uva)
  | copyout pg va buf => Kernel.onPhys (Vm.copyout pg va buf)

def Kernel.setUtable (k : Kernel) (f : UTable → UTable) : Kernel := { k with utable := f k.utable }

def UserOp.sem : (o : UserOp) → Comp Kernel o.Ans
  | initlock => Comp.modify fun k => k.setUtable fun t => { t with locked := false }
  | acquire => do
    let k ← Comp.get
    if k.utable.locked then Comp.block
    else Comp.modify fun k => k.setUtable fun t => { t with locked := true }
  | release => do
    let k ← Comp.get
    if k.utable.locked then Comp.modify fun k => k.setUtable fun t => { t with locked := false }
    else Comp.panic "release"
  | read => do return (← Comp.get).utable
  | strcpy addr s => Comp.modify fun k =>
      (k.setUtable fun t => { t with mem := t.mem.strcpy addr s }).copied (.utable addr) s
  | write addr bs => Comp.modify fun k => k.setUtable fun t => { t with mem := t.mem.write addr bs }
  | setPtr i => Comp.modify fun k => k.setUtable fun t => { t with ptr := some i }

def Op.sem : (o : Op) → Comp Kernel o.Ans
  | panic msg => Comp.panic msg
  | log o => o.sem
  | fs o => o.sem
  | file o => o.sem
  | proc o => o.sem
  | vm o => o.sem
  | user o => o.sem

end Xv6
