import Xv6.Kernel.Op

/-! # Inodes and their contents

The functions of `fs.c` on blocks and inodes, as programs over the atomic operations.
`p` is the process that makes the call.
-/
namespace Xv6
open FsOp Prog

namespace KProg

def panic {α : Type} (msg : String) : KProg α := Prog.op (Op.panic msg) (Empty.elim ·)
def log (o : LogOp) : KProg o.Ans := Prog.call (Op.log o)
def fs (o : FsOp) : KProg o.Ans := Prog.call (Op.fs o)
def file (o : FileOp) : KProg o.Ans := Prog.call (Op.file o)
def proc (o : ProcOp) : KProg o.Ans := Prog.call (Op.proc o)
def vm (o : VmOp) : KProg o.Ans := Prog.call (Op.vm o)
def user (o : UserOp) : KProg o.Ans := Prog.call (Op.user o)

end KProg

namespace Fs
open KProg hiding panic

def myproc (p : Slot) : KProg Proc := proc (.proc p)
def iget (inum : ℕ) : KProg InodeIdx := fs (.iget inum)
def ilock (p : Slot) (i : InodeIdx) : KProg Unit := fs (.ilock p i)
def iunlock (p : Slot) (i : InodeIdx) : KProg Unit := fs (.iunlock p i)
def iupdate (i : InodeIdx) : KProg Unit := fs (.iupdate i)
def inode (i : InodeIdx) : KProg Inode := fs (.inode i)
def store (i : InodeIdx) (u : InodeUpdate) : KProg Unit := fs (.store i u)

def claimInode (inum : ℕ) (type : InodeType) : KProg Bool := fs (.claimInode inum type)
def claimBlock (b : ℕ) : KProg (Option Word) := fs (.claimBlock b)
def readBlock (b : Word) : KProg Mem := fs (.readBlock b)
def cwd (p : Slot) : KProg (Option InodeIdx) := fs (.cwd p)

/-- The test of the permission bits of a locked inode; `site` says where it stands. -/
def access (site : Site) (p : Slot) (i : InodeIdx) (usr oth : Word) : KProg Bool :=
  fs (.access site p i usr oth)

def idup (i : InodeIdx) : KProg InodeIdx := do
  fs (.idup i)
  return i

/-- The turns of the outer loop in `balloc`, from bit `b` on. -/
def ballocFrom : (turns : ℕ) → ℕ → KProg Word
  | 0, _ => KProg.panic "balloc: out of blocks"
  | turns + 1, b => do
    match ← claimBlock b with
    | some a =>
      fs (.bzero a)
      return a
    | none => ballocFrom turns (b + BPB)

def balloc : KProg Word := do
  let sb : Superblock ← fs .sb
  ballocFrom ((sb.size + BPB - 1) / BPB) 0

def bfree (b : Word) : KProg Unit := fs (.bfree b)

/-- The turns of the loop in `ialloc`, from `inum` on. -/
def iallocFrom (type : InodeType) : (turns : ℕ) → ℕ → KProg InodeIdx
  | 0, _ => KProg.panic "ialloc: no inodes"
  | turns + 1, inum => do
    if ← claimInode inum type then iget inum
    else iallocFrom type turns (inum + 1)

def ialloc (type : InodeType) : KProg InodeIdx := do
  let sb : Superblock ← fs .sb
  iallocFrom type (sb.ninodes - 1) 1

/-- The address in slot `n` of `ip->addrs`, with a new block if there is none. -/
def addrOf (i : InodeIdx) (n : Fin 8) : KProg Word := do
  let ip ← inode i
  if ip.d.addrs n = 0 then
    let a ← balloc
    store i (.addr n a)
    return a
  else return ip.d.addrs n

/-- The address in word `bn` of the indirect block `a`, with a new block if there is none. -/
def indirectAddrOf (a : Word) (bn : ℕ) : KProg Word := do
  let data ← readBlock a
  if Mem.word data (4 * bn) = 0 then
    let b ← balloc
    fs (.writeBlock a (4 * bn) (wordBytes b))
    return b
  else return Mem.word data (4 * bn)

def bmap (i : InodeIdx) (bn : ℕ) : KProg Word :=
  if h : bn < NDIRECT then addrOf i ⟨bn, lt_addrs h⟩
  else if bn - NDIRECT < NINDIRECT then do
    let a ← addrOf i ⟨NDIRECT, Nat.lt_succ_self _⟩
    indirectAddrOf a (bn - NDIRECT)
  else KProg.panic "bmap: out of range"

/-- Free the block in slot `n` of `ip->addrs`, if there is one. -/
def freeAddr (i : InodeIdx) (n : Fin 8) : KProg Unit := do
  let ip ← inode i
  if ip.d.addrs n = 0 then return
  else
    bfree (ip.d.addrs n)
    store i (.addr n 0)

def freeBlocks : List Word → KProg Unit
  | [] => return
  | a :: as => do
    if a = 0 then freeBlocks as
    else
      bfree a
      freeBlocks as

/-- Free the blocks that the indirect block names, and the indirect block. -/
def freeIndirect (i : InodeIdx) : KProg Unit := do
  let ip ← inode i
  let a := ip.d.addrs ⟨NDIRECT, Nat.lt_succ_self _⟩
  if a = 0 then return
  else
    let data ← readBlock a
    freeBlocks ((List.range NINDIRECT).map fun j => Mem.word data (4 * j))
    freeAddr i ⟨NDIRECT, Nat.lt_succ_self _⟩

def freeAddrs (i : InodeIdx) : List (Fin 8) → KProg Unit
  | [] => return
  | n :: ns => do
    freeAddr i n
    freeAddrs i ns

def itrunc (i : InodeIdx) : KProg Unit := do
  freeAddrs i [0, 1, 2, 3, 4, 5, 6]
  freeIndirect i
  store i (.size 0)
  iupdate i

/-- The part of `iput` that frees an inode with no links and no other references. -/
def iputFree (i : InodeIdx) : KProg Unit := do
  let ip ← inode i
  if ip.valid ∧ ip.d.nlink = 0 then
    let r : ℤ ← fs (.ref i)
    if r = 1 then
      itrunc i
      fs (.ifree i)
    else return
  else return

def iput (p : Slot) (i : InodeIdx) : KProg Unit := do
  fs (.acquiresleep p i)
  iputFree i
  fs (.releasesleep i)
  fs (.dropRef i)

def iunlockput (p : Slot) (i : InodeIdx) : KProg Unit := do
  iunlock p i
  iput p i

/-- The loop of `readi`; a turn copies at least one byte. -/
def readLoop (i : InodeIdx) : (turns : ℕ) → (off n : ℕ) → KProg (List UInt8)
  | 0, _, _ => return []
  | turns + 1, off, n => do
    if n = 0 then return []
    else
      let data ← readBlock (← bmap i (off / BSIZE))
      let m := min n (BSIZE - off % BSIZE)
      let rest ← readLoop i turns (off + m) (n - m)
      return (List.range m).map (fun j => data (off % BSIZE + j)) ++ rest

/-- `devsw[major].read`; only the console has one. -/
def devRead (p : Slot) (i : InodeIdx) (n : Word) : KProg (ℤ × List UInt8) := do
  iunlock p i
  let r : ℤ × List UInt8 ← fs (.consoleread p n.toInt.toNat)
  ilock p i
  return r

/-- The value returned, and the bytes stored at `dst`. -/
def readi (p : Slot) (i : InodeIdx) (off n : Word) : KProg (ℤ × List UInt8) := do
  let ip ← inode i
  if ip.d.type = .dev then
    if ip.d.major = BitVec.ofNat 16 CONSOLE then devRead p i n else return (-1, [])
  else if off > ip.d.size ∨ off + n < off then return (-1, [])
  else
    let n := if off + n > ip.d.size then ip.d.size - off else n
    let bytes ← readLoop i n.toNat off.toNat n.toNat
    return (n.toInt, bytes)

/-- The loop of `writei`; a turn copies at least one byte. -/
def writeLoop (i : InodeIdx) : (turns : ℕ) → (off : ℕ) → List UInt8 → KProg Unit
  | 0, _, _ => return
  | turns + 1, off, src => do
    if src = [] then return
    else
      let a ← bmap i (off / BSIZE)
      let m := BSIZE - off % BSIZE
      fs (.writeBlock a (off % BSIZE) (src.take m))
      writeLoop i turns (off + (src.take m).length) (src.drop m)

def devWrite (p : Slot) (i : InodeIdx) (src : List UInt8) : KProg ℤ := do
  iunlock p i
  fs (.consolewrite src)
  ilock p i
  return src.length

/-- The end of `writei`: the file grows to `off`. -/
def growTo (i : InodeIdx) (off : Word) (n : ℕ) : KProg Unit := do
  let ip ← inode i
  if 0 < n ∧ off > ip.d.size then
    store i (.size off)
    iupdate i
  else return

def writei (p : Slot) (i : InodeIdx) (src : List UInt8) (off : Word) : KProg ℤ := do
  let n := BitVec.ofNat 32 src.length
  let ip ← inode i
  if ip.d.type = .dev then
    if ip.d.major = BitVec.ofNat 16 CONSOLE then devWrite p i src else return -1
  else if off > ip.d.size ∨ off + n < off then return -1
  else if (off + n).toNat > MAXFILE * BSIZE then return -1
  else
    writeLoop i src.length off.toNat src
    growTo i (off + n) src.length
    return n.toInt

/-! Runs of single operations. -/
section Runs
variable {α : Type} {k : Kernel} (p : Slot) (i : InodeIdx)

theorem myproc_bind_run (f : Proc → KProg α) :
    (myproc p >>= f).run Op.sem k = (f (k.pt.proc p)).run Op.sem k := rfl
theorem inode_bind_run (f : Inode → KProg α) :
    (inode i >>= f).run Op.sem k = (f (k.icache i)).run Op.sem k := rfl
theorem readBlock_bind_run (b : Word) (f : (ℕ → UInt8) → KProg α) :
    (readBlock b >>= f).run Op.sem k = (f (k.block b)).run Op.sem k := rfl
theorem access_bind_run (site : Site) (usr oth : Word) (f : Bool → KProg α) :
    (access site p i usr oth >>= f).run Op.sem k =
      (f (mayAccess (k.pt.proc p).userid (k.icache i).d usr oth)).run Op.sem k := rfl
theorem iget_run (inum : ℕ) : (iget inum).run Op.sem = iget.sem inum := run_call ..
theorem ilock_run : (ilock p i).run Op.sem = ilock.sem p i := run_call ..
theorem iunlock_run : (iunlock p i).run Op.sem = iunlock.sem p i := run_call ..
theorem iupdate_run : (iupdate i).run Op.sem = iupdate.sem i := run_call ..
theorem store_run (u : InodeUpdate) : (store i u).run Op.sem = store.sem i u := run_call ..
theorem claimInode_run (inum : ℕ) (type : InodeType) :
    (claimInode inum type).run Op.sem = claimInode.sem inum type := run_call ..

end Runs

/-! The functions above use no operations but those of `Op.Core`, and mostly only those of
`Op.Contents`; `ialloc` is the exception. -/
section Core
open Prog

theorem panic_uses {α : Type} {C : Op → Prop} (h : C (.panic msg)) :
    (.panic msg : KProg α).Uses C := ⟨h, fun b => b.elim⟩

theorem panic_contents {α : Type} (h : msg ∈ panics) :
    (.panic msg : KProg α).Uses Op.Contents := panic_uses h

theorem fs_contents (h : o.Contents) : (fs o).Uses Op.Contents := uses_call h

theorem fs_bind_contents {α : Type} {f : o.Ans → KProg α} (h : o.Contents)
    (hf : ∀ b, (f b).Uses Op.Contents) : (fs o >>= f).Uses Op.Contents := .bind (fs_contents h) hf

theorem ballocFrom_contents (turns b : ℕ) : (ballocFrom turns b).Uses Op.Contents := by
  induction turns generalizing b with
  | zero => exact panic_contents (by decide)
  | succ turns ih =>
    refine fs_bind_contents trivial fun a => ?_
    cases a with
    | none => exact ih _
    | some => exact fs_bind_contents trivial fun _ => uses_pure _

theorem balloc_contents : balloc.Uses Op.Contents :=
  fs_bind_contents trivial fun _ => ballocFrom_contents _ _

theorem addrOf_contents (i : InodeIdx) (n : Fin 8) : (addrOf i n).Uses Op.Contents := by
  refine fs_bind_contents trivial fun ip => .ite ?_ (uses_pure _)
  exact balloc_contents.bind fun a => fs_bind_contents trivial fun _ => uses_pure _

theorem indirectAddrOf_contents (a : Word) (bn : ℕ) : (indirectAddrOf a bn).Uses Op.Contents := by
  refine fs_bind_contents trivial fun data => .ite ?_ (uses_pure _)
  exact balloc_contents.bind fun b => fs_bind_contents trivial fun _ => uses_pure _

theorem bmap_contents (i : InodeIdx) (bn : ℕ) : (bmap i bn).Uses Op.Contents := by
  unfold bmap
  split
  case isTrue => exact addrOf_contents i _
  case isFalse =>
    refine .ite ?_ (panic_contents (by decide))
    exact (addrOf_contents i _).bind fun a => indirectAddrOf_contents a _

theorem freeAddr_contents (i : InodeIdx) (n : Fin 8) : (freeAddr i n).Uses Op.Contents := by
  refine fs_bind_contents trivial fun ip => .ite (uses_pure _) ?_
  exact fs_bind_contents trivial fun _ => fs_contents trivial

theorem freeBlocks_contents (as : List Word) : (freeBlocks as).Uses Op.Contents := by
  induction as with
  | nil => exact uses_pure _
  | cons a as ih => exact .ite ih (fs_bind_contents trivial fun _ => ih)

theorem freeIndirect_contents (i : InodeIdx) : (freeIndirect i).Uses Op.Contents := by
  refine fs_bind_contents trivial fun ip => .ite (uses_pure _) ?_
  refine fs_bind_contents trivial fun data => ?_
  exact (freeBlocks_contents _).bind fun _ => freeAddr_contents i _

theorem freeAddrs_contents (i : InodeIdx) (ns : List (Fin 8)) : (freeAddrs i ns).Uses Op.Contents := by
  induction ns with
  | nil => exact uses_pure _
  | cons n ns ih => exact (freeAddr_contents i n).bind fun _ => ih

theorem itrunc_contents (i : InodeIdx) : (itrunc i).Uses Op.Contents := by
  refine (freeAddrs_contents i _).bind fun _ => (freeIndirect_contents i).bind fun _ => ?_
  exact fs_bind_contents trivial fun _ => fs_contents trivial

theorem readLoop_contents (i : InodeIdx) (turns off n : ℕ) : (readLoop i turns off n).Uses Op.Contents := by
  induction turns generalizing off n with
  | zero => exact uses_pure _
  | succ turns ih =>
    refine .ite (uses_pure _) ?_
    refine (bmap_contents i _).bind fun a => fs_bind_contents trivial fun data => ?_
    exact (ih _ _).bind fun _ => uses_pure _

theorem writeLoop_contents (i : InodeIdx) (turns off : ℕ) (src : List UInt8) :
    (writeLoop i turns off src).Uses Op.Contents := by
  induction turns generalizing off src with
  | zero => exact uses_pure _
  | succ turns ih =>
    refine .ite (uses_pure _) ?_
    exact (bmap_contents i _).bind fun a => fs_bind_contents trivial fun _ => ih _ _

theorem growTo_contents (i : InodeIdx) (off : Word) (n : ℕ) : (growTo i off n).Uses Op.Contents := by
  refine fs_bind_contents trivial fun ip => .ite ?_ (uses_pure _)
  exact fs_bind_contents trivial fun _ => fs_contents trivial

theorem core_of_contents {α : Type} {x : KProg α} (h : x.Uses Op.Contents) : x.Uses Op.Core :=
  h.mono fun o ho => by
    cases o with
    | panic => exact ho
    | fs o =>
      cases o with
      | store i u =>
        cases u with
        | size | addr => trivial
        | _ => exact ho.elim
      | claimInode | access => exact ho.elim
      | _ => trivial
    | _ => exact ho.elim

theorem panic_core {α : Type} (h : msg ∈ panics) : (KProg.panic msg : KProg α).Uses Op.Core :=
  panic_uses h

theorem fs_core (h : o.Core) : (fs o).Uses Op.Core := uses_call h

theorem fs_bind_core {α : Type} {f : o.Ans → KProg α} (h : o.Core)
    (hf : ∀ b, (f b).Uses Op.Core) : (fs o >>= f).Uses Op.Core := .bind (fs_core h) hf

theorem ilock_core (p : Slot) (i : InodeIdx) : (ilock p i).Uses Op.Core := fs_core trivial

theorem idup_core (i : InodeIdx) : (idup i).Uses Op.Core :=
  fs_bind_core trivial fun _ => uses_pure _

theorem iputFree_core (i : InodeIdx) : (iputFree i).Uses Op.Core := by
  refine fs_bind_core trivial fun ip => .ite ?_ (uses_pure _)
  refine fs_bind_core trivial fun (r : ℤ) => .ite ?_ (uses_pure _)
  exact (core_of_contents (itrunc_contents i)).bind fun _ => fs_core trivial

theorem iput_core (p : Slot) (i : InodeIdx) : (iput p i).Uses Op.Core := by
  refine fs_bind_core trivial fun _ => (iputFree_core i).bind fun _ => ?_
  exact fs_bind_core trivial fun _ => fs_core trivial

theorem iunlockput_core (p : Slot) (i : InodeIdx) : (iunlockput p i).Uses Op.Core :=
  fs_bind_core trivial fun _ => iput_core p i

theorem devRead_core (p : Slot) (i : InodeIdx) (n : Word) : (devRead p i n).Uses Op.Core := by
  refine fs_bind_core trivial fun _ => fs_bind_core trivial fun r => ?_
  exact fs_bind_core trivial fun _ => uses_pure _

theorem readi_core (p : Slot) (i : InodeIdx) (off n : Word) : (readi p i off n).Uses Op.Core := by
  refine fs_bind_core trivial fun ip => .ite ?_ (.ite (uses_pure _) ?_)
  · exact .ite (devRead_core p i n) (uses_pure _)
  · exact (core_of_contents (readLoop_contents i _ _ _)).bind fun _ => uses_pure _

theorem writei_core (p : Slot) (i : InodeIdx) (src : List UInt8) (off : Word) :
    (writei p i src off).Uses Op.Core := by
  refine fs_bind_core trivial fun ip => .ite ?_ (.ite (uses_pure _) (.ite (uses_pure _) ?_))
  · refine .ite ?_ (uses_pure _)
    refine fs_bind_core trivial fun _ => fs_bind_core trivial fun _ => ?_
    exact fs_bind_core trivial fun _ => uses_pure _
  · refine (core_of_contents (writeLoop_contents i _ _ _)).bind fun _ => ?_
    exact (core_of_contents (growTo_contents i _ _)).bind fun _ => uses_pure _

end Core
end Fs
end Xv6
