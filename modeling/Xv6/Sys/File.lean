import Xv6.Fs.Dir
import Xv6.Kernel.Frame

/-! # File-system calls

The system calls of `sysfile.c` that work on path names, with the transaction brackets
where the source has them. An argument is what `argstr` or `argint` fetches, `none`
where the fetch fails.
-/
namespace Xv6.Sys
open KProg hiding panic
open Fs

def beginOp : KProg Unit := log .beginOp

def logEnd : KProg Bool := log .endOp

def endOp : KProg Unit := do
  if ← logEnd then
    log .commit
    log .endCommit
  else return

def fail (undo : KProg Unit) : KProg ℤ := do
  undo
  endOp
  return -1

def filealloc : KProg (Option FileIdx) := file .filealloc
def filedup (f : FileIdx) : KProg Unit := file (.filedup f)
def fdalloc (p : Slot) (f : FileIdx) : KProg (Option (Fin NOFILE)) := file (.fdalloc p f)
theorem filealloc_run : filealloc.run Op.sem = FileOp.filealloc.sem := Prog.run_call ..
theorem fdalloc_run (p : Slot) (f : FileIdx) : (fdalloc p f).run Op.sem = FileOp.fdalloc.sem p f :=
  Prog.run_call ..
def dropFile (f : FileIdx) : KProg (Option File) := file (.fileclose f)

def putInode (p : Slot) : Option InodeIdx → KProg Unit
  | some i => iput p i
  | none => KProg.panic "iput: null inode"

/-- What `fileclose` does with the copy of a file that nothing refers to any more. -/
def closed (p : Slot) (ff : File) : KProg Unit := do
  match ff.type with
  | .pipe => file (.pipeclose ff.pipe ff.writable)
  | .inode =>
    beginOp
    putInode p ff.ip
    endOp
  | .none => return

def fileclose (p : Slot) (f : FileIdx) : KProg Unit := do
  match ← dropFile f with
  | some ff => closed p ff
  | none => return

/-- `argfd`: the descriptor that an argument names, and its file. -/
def fetchFd (p : Slot) (fd : Option Word) : KProg (Option (Fin NOFILE × FileIdx)) := do
  match fd with
  | none => return none
  | some fd =>
    if h : 0 ≤ fd.toInt ∧ fd.toInt < NOFILE then
      let fd : Fin NOFILE := ⟨fd.toInt.toNat, by omega⟩
      return ((← myproc p).ofile fd).map fun f => (fd, f)
    else return none

def sysDup (p : Slot) (fd : Option Word) : KProg ℤ := do
  match ← fetchFd p fd with
  | none => return -1
  | some (_, f) =>
    match ← fdalloc p f with
    | none => return -1
    | some fd =>
      filedup f
      return fd.val

def sysClose (p : Slot) (fd : Option Word) : KProg ℤ := do
  match ← fetchFd p fd with
  | none => return -1
  | some (fd, f) =>
    file (.setFd p fd none)
    fileclose p f
    return 0

def kalloc : KProg (Option Vm.Frame) := vm .kalloc

def pipealloc (p : Slot) : KProg (Option (FileIdx × FileIdx)) := do
  match ← filealloc with
  | none => return none
  | some f0 =>
    match ← filealloc with
    | none =>
      fileclose p f0
      return none
    | some f1 =>
      match ← kalloc with
      | none =>
        fileclose p f0
        fileclose p f1
        return none
      | some pi =>
        file (.initPipe pi)
        file (.openPipe f0 pi false)
        file (.openPipe f1 pi true)
        return some (f0, f1)

/-- The descriptors of `sys_pipe`, which takes the first one back if there is no second. -/
def pipeFds (p : Slot) : KProg (Option (Fin NOFILE × Fin NOFILE)) := do
  match ← pipealloc p with
  | none => return none
  | some (rf, wf) =>
    match ← fdalloc p rf with
    | none =>
      fileclose p rf
      fileclose p wf
      return none
    | some fd0 =>
      match ← fdalloc p wf with
      | none =>
        file (.setFd p fd0 none)
        fileclose p rf
        fileclose p wf
        return none
      | some fd1 => return some (fd0, fd1)

/-- The body of `sys_link` once the link count is raised; `false` is `goto bad`. -/
def linkInto (p : Slot) (ip : InodeIdx) (new : CStr) : KProg Bool := do
  match ← nameiparent p new with
  | none => return false
  | some (dp, name) =>
    ilock p dp
    let r ← dirlink p dp name (← inode ip).inum
    iunlockput p dp
    return !decide (r < 0)

def sysLink (p : Slot) (old new : Option CStr) : KProg ℤ := do
  match old, new with
  | some old, some new =>
    beginOp
    match ← namei p old with
    | none => fail (pure ())
    | some ip =>
      ilock p ip
      let d := (← inode ip).d
      if d.type = .dir then fail (iunlockput p ip)
      else
        store ip (.nlink (d.nlink + 1))
        iupdate ip
        iunlock p ip
        if ← linkInto p ip new then
          iput p ip
          endOp
          return 0
        else fail do
          ilock p ip
          store ip (.nlink ((← inode ip).d.nlink - 1))
          iupdate ip
          iunlockput p ip
  | _, _ => return -1

/-- The loop of `isdirempty`. -/
def isemptyFrom (p : Slot) (dp : InodeIdx) : (turns : ℕ) → (off : ℕ) → KProg Bool
  | 0, _ => return true
  | turns + 1, off => do
    let de ← readDirent p dp off "isdirempty: readi"
    if de.inum ≠ 0 then return false else isemptyFrom p dp turns (off + SIZEOF_DIRENT)

def isdirempty (p : Slot) (dp : InodeIdx) : KProg Bool := do
  isemptyFrom p dp (direntTurns (← inode dp).d.size (2 * SIZEOF_DIRENT)) (2 * SIZEOF_DIRENT)

/-- A directory that `unlink` must keep. -/
def nonemptyDir (p : Slot) (i : InodeIdx) : KProg Bool := do
  if (← inode i).d.type = .dir then return !(← isdirempty p i) else return false

def lessLink (i : InodeIdx) : KProg Unit := do
  store i (.nlink ((← inode i).d.nlink - 1))
  iupdate i

def whenDir (type : InodeType) (x : KProg Unit) : KProg Unit := if type = .dir then x else return

/-- The end of `sys_unlink`, with both inodes locked. -/
def unlinkEntry (p : Slot) (dp ip : InodeIdx) (off : ℕ) : KProg Unit := do
  let r ← writei p dp (List.replicate SIZEOF_DIRENT 0) (BitVec.ofNat 32 off)
  if r ≠ SIZEOF_DIRENT then KProg.panic "unlink: writei"
  else
    whenDir (← inode ip).d.type (lessLink dp)
    iunlockput p dp
    lessLink ip
    iunlockput p ip

def dot : List UInt8 := [46]
def dotdot : List UInt8 := [46, 46]

def sysUnlink (p : Slot) (path : Option CStr) : KProg ℤ := do
  match path with
  | none => return -1
  | some path =>
    beginOp
    match ← nameiparent p path with
    | none => fail (pure ())
    | some (dp, name) =>
      ilock p dp
      if !(← access .unlink p dp MODE_WUSR MODE_WOTH) then fail (iunlockput p dp)
      else if dirName name = dot ∨ dirName name = dotdot then fail (iunlockput p dp)
      else
        match ← dirlookup p dp name with
        | none => fail (iunlockput p dp)
        | some (ip, off) =>
          ilock p ip
          if (← inode ip).d.nlink.toInt < 1 then KProg.panic "unlink: nlink < 1"
          else if ← nonemptyDir p ip then
            fail do
              iunlockput p ip
              iunlockput p dp
          else
            unlinkEntry p dp ip off
            endOp
            return 0

/-- The part of `create` that makes the entries of a new directory. -/
def createDots (p : Slot) (ip dp : InodeIdx) : KProg Unit := do
  store dp (.nlink ((← inode dp).d.nlink + 1))
  iupdate dp
  if (← dirlink p ip dot (← inode ip).inum) < 0 then KProg.panic "create dots"
  else if (← dirlink p ip dotdot (← inode dp).inum) < 0 then KProg.panic "create dots"
  else return

def newInode (p : Slot) (type : InodeType) (major minor : BitVec 16) (owner : CStr) :
    KProg InodeIdx := do
  let ip ← ialloc type
  ilock p ip
  store ip (.dev major minor)
  store ip (.nlink 1)
  store ip (.userid owner)
  iupdate ip
  return ip

/-- The part of `create` for a name that is new; the parent is locked. -/
def createNew (p : Slot) (dp : InodeIdx) (name : List UInt8) (type : InodeType)
    (major minor : BitVec 16) : KProg InodeIdx := do
  let ip ← newInode p type major minor (← myproc p).userid
  whenDir type (createDots p ip dp)
  if (← dirlink p dp name (← inode ip).inum) < 0 then KProg.panic "create: dirlink"
  else
    iunlockput p dp
    return ip

/-- Where the permission test fails, `create` closes the bracket that its caller has
opened, and returns null. -/
def createDenied (p : Slot) (i : InodeIdx) : KProg (Option InodeIdx) := do
  iunlockput p i
  endOp
  return none

/-- The part of `create` for a name that exists. -/
def createExisting (p : Slot) (ip : InodeIdx) (type : InodeType) : KProg (Option InodeIdx) := do
  ilock p ip
  if !(← access .create p ip MODE_WUSR MODE_WOTH) then createDenied p ip
  else if type = .file ∧ (← inode ip).d.type = .file then return some ip
  else
    iunlockput p ip
    return none

def create (p : Slot) (path : CStr) (type : InodeType) (major minor : BitVec 16) :
    KProg (Option InodeIdx) := do
  match ← nameiparent p path with
  | none => return none
  | some (dp, name) =>
    ilock p dp
    match ← dirlookup p dp name with
    | some (ip, _) =>
      iunlockput p dp
      createExisting p ip type
    | none =>
      if !(← access .create p dp MODE_WUSR MODE_WOTH) then createDenied p dp
      else return some (← createNew p dp name type major minor)

def O_RDONLY : Word := 0
def O_WRONLY : Word := 1
def O_RDWR : Word := 2
def O_CREATE : Word := 0x200

/-- The permission test of `sys_open`, which looks at the value of `omode`. -/
def openAccess (p : Slot) (ip : InodeIdx) (omode : Word) : KProg Bool :=
  if omode = O_RDONLY then access .open p ip MODE_RUSR MODE_ROTH
  else if omode = O_WRONLY then access .open p ip MODE_WUSR MODE_WOTH
  else if omode = O_RDWR then access .open p ip (MODE_WUSR ||| MODE_RUSR) (MODE_WOTH ||| MODE_ROTH)
  else return true

/-- The inode to open without `O_CREATE`, locked. -/
def openExisting (p : Slot) (path : CStr) (omode : Word) : KProg (Option InodeIdx) := do
  match ← namei p path with
  | none => return none
  | some ip =>
    ilock p ip
    if !(← openAccess p ip omode) then
      iunlockput p ip
      return none
    else if (← inode ip).d.type = .dir ∧ omode ≠ O_RDONLY then
      iunlockput p ip
      return none
    else return some ip

/-- The end of `sys_open`: the bits of `omode` say what the file is open for. -/
def openFile (p : Slot) (ip : InodeIdx) (omode : Word) : KProg ℤ := do
  match ← filealloc with
  | none => fail (iunlockput p ip)
  | some f =>
    match ← fdalloc p f with
    | none => fail do
        fileclose p f
        iunlockput p ip
    | some fd =>
      iunlock p ip
      endOp
      file (.openInode f ip (omode &&& O_WRONLY = 0) (omode &&& O_WRONLY ≠ 0 ∨ omode &&& O_RDWR ≠ 0))
      return fd.val

def sysOpen (p : Slot) (path : Option CStr) (omode : Option Word) : KProg ℤ := do
  match path, omode with
  | some path, some omode =>
    beginOp
    match ← (if omode &&& O_CREATE ≠ 0 then create p path .file 0 0 else openExisting p path omode) with
    | none => fail (pure ())
    | some ip => openFile p ip omode
  | _, _ => return -1

/-- `sys_mkdir` and `sys_mknod` after their arguments are fetched. -/
def makeNode (p : Slot) (path : CStr) (type : InodeType) (major minor : BitVec 16) : KProg ℤ := do
  match ← create p path type major minor with
  | none => fail (pure ())
  | some ip =>
    iunlockput p ip
    endOp
    return 0

def sysMkdir (p : Slot) (path : Option CStr) : KProg ℤ := do
  beginOp
  match path with
  | some path => makeNode p path .dir 0 0
  | none => fail (pure ())

def sysMknod (p : Slot) (path : Option CStr) (major minor : Option Word) : KProg ℤ := do
  beginOp
  match path, major, minor with
  | some path, some major, some minor =>
    makeNode p path .dev (major.setWidth 16) (minor.setWidth 16)
  | _, _, _ => fail (pure ())

def sysChdir (p : Slot) (path : Option CStr) : KProg ℤ := do
  beginOp
  match path with
  | none => fail (pure ())
  | some path =>
    match ← namei p path with
    | none => fail (pure ())
    | some ip =>
      ilock p ip
      if !(← access .chdir p ip MODE_XUSR MODE_XOTH) then fail (iunlockput p ip)
      else if (← inode ip).d.type ≠ .dir then fail (iunlockput p ip)
      else
        iunlock p ip
        putInode p (← cwd p)
        endOp
        proc (.setCwd p (some ip))
        return 0

/-! Runs of the bracket, and what they leave alone. -/
section Steps
open Prog

variable {k k' : Kernel}

theorem fail_run (h : (fail undo).run Op.sem k = .ok (r, k')) : r = -1 := by
  obtain ⟨_, k1, -, h⟩ := of_bind h
  obtain ⟨_, k2, -, h⟩ := of_bind h
  cases h
  rfl

theorem log_run (h : (log o).run Op.sem k = .ok (b, k')) : ∃ l, k' = { k with log := l } := by
  have ho : o.sem k = .ok (b, k') := of_call h
  cases o <;> exact (Kernel.onLog_eq_ok.mp ho).imp fun l hl => hl.2

theorem endOp_run (h : endOp.run Op.sem k = .ok (u, k')) : ∃ l, k' = { k with log := l } := by
  obtain ⟨last, k1, hend, h⟩ := of_bind h
  obtain ⟨l, rfl⟩ := log_run hend
  cases last with
  | false =>
    cases h
    exact ⟨l, rfl⟩
  | true =>
    obtain ⟨_, k2, hcommit, h⟩ := of_bind h
    obtain ⟨l', rfl⟩ := log_run hcommit
    obtain ⟨l'', rfl⟩ := log_run h
    exact ⟨l'', rfl⟩

theorem blind_pt : FsBlind Kernel.pt := by constructor <;> intros <;> rfl

theorem core_pt {α : Type} {x : KProg α} {a : α} (hx : x.Uses Op.Core)
    (h : x.run Op.sem k = .ok (a, k')) : k'.pt = k.pt := core_fixes blind_pt hx k a k' h

end Steps

/-! The helpers of the calls use the operations of inodes only, and none of the permission tests of
`create`. -/
section Inner
open Prog
variable {α : Type} {x : KProg α} {p : Slot} {ip dp : InodeIdx}

def Inner : Op → Prop
  | .panic _ => True
  | .fs (.access .create _ _ _ _) => False
  | .fs _ => True
  | .proc (.proc _) => True
  | _ => False

theorem Inner.of_core (ho : o.Core) : Inner o := by
  cases o with
  | panic => trivial
  | fs o =>
    cases o with
    | access site =>
      cases site with
      | create => exact ho.elim
      | _ => trivial
    | _ => trivial
  | _ => exact ho.elim

theorem inner_of_core (h : x.Uses Op.Core) : x.Uses Inner := h.mono fun _ => Inner.of_core

theorem iunlockput_inner (i : InodeIdx) : (iunlockput p i).Uses Inner := inner_of_core (iunlockput_core p i)

theorem dirlink_inner (name : List UInt8) (inum : ℕ) : (dirlink p dp name inum).Uses Inner :=
  inner_of_core (dirlink_core p dp name inum)

theorem lessLink_inner : (lessLink ip).Uses Inner :=
  uses_bind_call trivial fun _ => uses_bind_call trivial fun _ => uses_call trivial

theorem whenDir_inner {type : InodeType} {x : KProg Unit} (h : x.Uses Inner) : (whenDir type x).Uses Inner :=
  Uses.ite h (uses_pure _)

theorem linkInto_inner (new : CStr) : (linkInto p ip new).Uses Inner := by
  refine (inner_of_core (namex_core p new true)).bind fun r => ?_
  cases r with
  | none => exact uses_pure _
  | some =>
    refine uses_bind_call trivial fun _ => uses_bind_call trivial fun _ => ?_
    exact (dirlink_inner _ _).bind fun _ => (iunlockput_inner _).bind fun _ => uses_pure _

theorem nonemptyDir_inner : (nonemptyDir p ip).Uses Inner := by
  have hfrom (turns off : ℕ) : (isemptyFrom p ip turns off).Uses Inner := by
    induction turns generalizing off with
    | zero => exact uses_pure _
    | succ turns ih =>
      exact (inner_of_core (readDirent_core p ip off (by decide))).bind fun _ => .ite (uses_pure _) (ih _)
  refine uses_bind_call trivial fun _ => .ite ?_ (uses_pure _)
  exact (uses_bind_call trivial fun _ => hfrom _ _).bind fun _ => uses_pure _

theorem unlinkEntry_inner (off : ℕ) : (unlinkEntry p dp ip off).Uses Inner := by
  refine (inner_of_core (writei_core p dp _ _)).bind fun _ => .ite (panic_uses trivial) ?_
  refine uses_bind_call trivial fun _ => (whenDir_inner lessLink_inner).bind fun _ => ?_
  exact (iunlockput_inner dp).bind fun _ => lessLink_inner.bind fun _ => iunlockput_inner ip

theorem ialloc_inner (type : InodeType) : (ialloc type).Uses Inner := by
  have hfrom (turns inum : ℕ) : (iallocFrom type turns inum).Uses Inner := by
    induction turns generalizing inum with
    | zero => exact panic_uses trivial
    | succ turns ih => exact uses_bind_call trivial fun (ok : Bool) => .ite (uses_call trivial) (ih _)
  exact uses_bind_call trivial fun _ => hfrom _ _

theorem newInode_inner (type : InodeType) (major minor : BitVec 16) (owner : CStr) :
    (newInode p type major minor owner).Uses Inner := by
  refine (ialloc_inner type).bind fun i => uses_bind_call trivial fun _ => uses_bind_call trivial fun _ => ?_
  refine uses_bind_call trivial fun _ => uses_bind_call trivial fun _ => ?_
  exact uses_bind_call trivial fun _ => uses_pure _

theorem createDots_inner : (createDots p ip dp).Uses Inner := by
  refine uses_bind_call trivial fun _ => uses_bind_call trivial fun _ => uses_bind_call trivial fun _ => ?_
  refine uses_bind_call trivial fun _ => (dirlink_inner _ _).bind fun r => .ite (panic_uses trivial) ?_
  refine uses_bind_call trivial fun _ => (dirlink_inner _ _).bind fun r => ?_
  exact .ite (panic_uses trivial) (uses_pure _)

theorem createNew_inner (name : List UInt8) (type : InodeType) (major minor : BitVec 16) :
    (createNew p dp name type major minor).Uses Inner := by
  refine uses_bind_call trivial fun _ => (newInode_inner _ _ _ _).bind fun i => ?_
  refine (whenDir_inner createDots_inner).bind fun _ => uses_bind_call trivial fun _ => (dirlink_inner _ _).bind fun r => ?_
  exact .ite (panic_uses trivial) ((iunlockput_inner dp).bind fun _ => uses_pure _)

end Inner

end Xv6.Sys
