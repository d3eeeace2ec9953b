import Xv6.Sys.File

/-! # Running a program -/
namespace Xv6.Sys
open Vm
open KProg hiding panic
open Fs

def ELF_MAGIC : Word := 0x464C457F
def ELF_PROG_LOAD : Word := 1
def SIZEOF_ELFHDR : Word := 52
def SIZEOF_PROGHDR : Word := 32
def MAXARG : ℕ := 32

structure Elfhdr where
  magic : Word
  entry : Word
  phoff : Word
  phnum : BitVec 16

structure Proghdr where
  type : Word
  off : Word
  vaddr : Word
  filesz : Word
  memsz : Word

def memOf (bytes : List UInt8) : Mem := fun a => bytes.getD a 0

def elfhdr (bytes : List UInt8) : Elfhdr where
  magic := (memOf bytes).word 0
  entry := (memOf bytes).word 24
  phoff := (memOf bytes).word 28
  phnum := (memOf bytes).halfword 44

def proghdr (bytes : List UInt8) : Proghdr where
  type := (memOf bytes).word 0
  off := (memOf bytes).word 4
  vaddr := (memOf bytes).word 8
  filesz := (memOf bytes).word 16
  memsz := (memOf bytes).word 20

def setupkvm : KProg (Option Vm.Pgdir) := vm .setupkvm
def allocuvm (pg : Vm.Pgdir) (oldsz newsz : Word) : KProg (Word × Vm.Pgdir) :=
  vm (.allocuvm pg oldsz newsz)
def freevm (pg : Vm.Pgdir) : KProg Unit := vm (.freevm pg)
def clearpteu (pg : Vm.Pgdir) (uva : Word) : KProg Vm.Pgdir := vm (.clearpteu pg uva)
def copyout (pg : Vm.Pgdir) (va : Word) (buf : List UInt8) : KProg Bool := vm (.copyout pg va buf)

/-- The loop of `loaduvm`, page by page. -/
def loadPages (p : Slot) (pg : Vm.Pgdir) (ip : InodeIdx) :
    (turns : ℕ) → (addr offset sz : Word) → KProg Bool
  | 0, _, _, _ => return true
  | turns + 1, addr, offset, sz => do
    let vpn := addr.toNat / Vm.PGSIZE
    if pg.HasTable vpn then
      let n : Word := if sz < BitVec.ofNat 32 Vm.PGSIZE then sz else BitVec.ofNat 32 Vm.PGSIZE
      let (r, bytes) ← readi p ip offset n
      vm (.poke ((pg.lookup vpn).elim 0 Vm.Pte.frame) bytes)
      if r = n.toInt then
        loadPages p pg ip turns (addr + BitVec.ofNat 32 Vm.PGSIZE) (offset + n) (sz - n)
      else return false
    else KProg.panic "loaduvm: address should exist"

def loaduvm (p : Slot) (pg : Vm.Pgdir) (addr : Word) (ip : InodeIdx) (offset sz : Word) :
    KProg Bool :=
  if addr.toNat % Vm.PGSIZE ≠ 0 then KProg.panic "loaduvm: addr must be page aligned"
  else loadPages p pg ip (Vm.pageCount sz) addr offset sz

/-- The loop over the program headers; the flag says whether it ended without `goto bad`. -/
def loadSegments (p : Slot) (ip : InodeIdx) :
    (turns : ℕ) → (off : Word) → Vm.Pgdir → (sz : Word) → KProg (Bool × Vm.Pgdir × Word)
  | 0, _, pg, sz => return (true, pg, sz)
  | turns + 1, off, pg, sz => do
    let (r, bytes) ← readi p ip off SIZEOF_PROGHDR
    let ph := proghdr bytes
    if r ≠ SIZEOF_PROGHDR.toInt then return (false, pg, sz)
    else if ph.type ≠ ELF_PROG_LOAD then loadSegments p ip turns (off + SIZEOF_PROGHDR) pg sz
    else if ph.memsz < ph.filesz ∨ ph.vaddr + ph.memsz < ph.vaddr then return (false, pg, sz)
    else
      let (sz, pg) ← allocuvm pg sz (ph.vaddr + ph.memsz)
      if sz = 0 ∨ ph.vaddr.toNat % Vm.PGSIZE ≠ 0 then return (false, pg, sz)
      else if ← loaduvm p pg ph.vaddr ip ph.off ph.filesz then
        loadSegments p ip turns (off + SIZEOF_PROGHDR) pg sz
      else return (false, pg, sz)

/-- The loop over the argument strings: the stack pointer and the addresses. -/
def pushArgs (pg : Vm.Pgdir) : (argc : ℕ) → List CStr → Word → List Word → KProg (Option (Word × List Word))
  | _, [], sp, addrs => return some (sp, addrs)
  | argc, arg :: args, sp, addrs => do
    if argc ≥ MAXARG then return none
    else
      let sp := (sp - BitVec.ofNat 32 (arg.length + 1)) &&& ~~~3#32
      if ← copyout pg sp (arg.bytes ++ [0]) then pushArgs pg (argc + 1) args sp (addrs ++ [sp])
      else return none

/-- The words of `ustack`: a return address, `argc`, `argv` and the strings. -/
def ustack (sp : Word) (addrs : List Word) : List Word :=
  let argc := BitVec.ofNat 32 addrs.length
  [0xffffffff, argc, sp - (argc + 1) * 4] ++ addrs ++ [0]

/-- The program's name: what follows the last slash, as `safestrcpy` cuts it. -/
def progName (path : CStr) : List UInt8 :=
  (path.bytes.reverse.takeWhile (· ≠ slash)).reverse.take 15

/-- The part of `exec` after the image is loaded, with `pages` pages for the guard and
the stack. -/
def execStack (p : Slot) (path : CStr) (argv : List CStr) (entry : Word) (pages : Word)
    (pg : Vm.Pgdir) (sz : Word) : KProg ℤ := do
  let bytes : Word := pages * BitVec.ofNat 32 Vm.PGSIZE
  let (sz, pg) ← allocuvm pg (Vm.pgRoundUp sz) (Vm.pgRoundUp sz + bytes)
  if sz = 0 then bad pg
  else
    let pg ← clearpteu pg (sz - bytes)
    match ← pushArgs pg 0 argv sz [] with
    | none => bad pg
    | some (sp, addrs) =>
      let stack := ustack sp addrs
      let sp := sp - BitVec.ofNat 32 (4 * stack.length)
      if ← copyout pg sp (stack.flatMap wordBytes) then
        let oldpgdir := (← myproc p).pgdir
        proc (.setName p (progName path))
        proc (.setImage p pg sz entry sp)
        freevm oldpgdir
        return 0
      else bad pg
where
  bad (pg : Vm.Pgdir) : KProg ℤ := do
    freevm pg
    return -1

/-- What `exec` and `exec2` do with the locked inode of the program. -/
def execInode (p : Slot) (ip : InodeIdx) (path : CStr) (argv : List CStr) (pages : Word) : KProg ℤ := do
  let (r, bytes) ← readi p ip 0 SIZEOF_ELFHDR
  let elf := elfhdr bytes
  if r ≠ SIZEOF_ELFHDR.toInt ∨ elf.magic ≠ ELF_MAGIC then fail (iunlockput p ip)
  else
    match ← setupkvm with
    | none => fail (iunlockput p ip)
    | some pg =>
      let (ok, pg, sz) ← loadSegments p ip elf.phnum.toNat elf.phoff pg 0
      if ok then
        iunlockput p ip
        endOp
        execStack p path argv elf.entry pages pg sz
      else
        fail do
          freevm pg
          iunlockput p ip

def exec (p : Slot) (path : CStr) (argv : List CStr) : KProg ℤ := do
  beginOp
  match ← namei p path with
  | none => fail (pure ())
  | some ip =>
    ilock p ip
    if !(← access .exec p ip MODE_XUSR MODE_XOTH) then fail (iunlockput p ip)
    else execInode p ip path argv 2

/-- For administrators, with a stack of `stacksize` pages and no test of the file's mode. -/
def exec2 (p : Slot) (path : CStr) (argv : List CStr) (stacksize : Word) : KProg ℤ := do
  beginOp
  if (← myproc p).mode ≠ .administrator then fail (pure ())
  else if stacksize.toInt < 1 ∨ stacksize.toInt > 100 then fail (pure ())
  else
    match ← namei p path with
    | none => fail (pure ())
    | some ip =>
      ilock p ip
      execInode p ip path argv (1 + stacksize)

/-- What loading a program uses, beside the file system: memory, and in the end the
fields of the caller that describe the image. -/
def Image (p : Slot) : Op → Prop
  | .panic _ => True
  | .vm _ => True
  | .proc (.proc _) => True
  | .proc (.setName q _) => q = p
  | .proc (.setImage q _ _ _ _) => q = p
  | .proc _ => False
  | o => o.Core

section Image
open Prog

theorem image_of_core {α : Type} {x : KProg α} (h : x.Uses Op.Core) :
    x.Uses (Image p) := h.mono fun o ho => by
  cases o with
  | panic => trivial
  | fs => exact ho
  | _ => exact ho.elim

theorem loadPages_image (p : Slot) (pg : Pgdir) (ip : InodeIdx) (turns : ℕ) (addr offset sz : Word) :
    (loadPages p pg ip turns addr offset sz).Uses (Image p) := by
  induction turns generalizing addr offset sz with
  | zero => exact uses_pure _
  | succ turns ih =>
    refine .ite ?_ (panic_uses trivial)
    refine .bind (image_of_core (readi_core p ip _ _)) fun r => uses_bind_call trivial fun _ => ?_
    exact .ite (ih _ _ _) (uses_pure _)

theorem loadSegments_image (p : Slot) (ip : InodeIdx) (turns : ℕ) (off : Word) (pg : Pgdir)
    (sz : Word) : (loadSegments p ip turns off pg sz).Uses (Image p) := by
  induction turns generalizing off pg sz with
  | zero => exact uses_pure _
  | succ turns ih =>
    refine .bind (image_of_core (readi_core p ip _ _)) fun r => .ite (uses_pure _) ?_
    refine .ite (ih _ _ _) (.ite (uses_pure _) (uses_bind_call trivial fun r => .ite (uses_pure _) ?_))
    refine .bind ?_ fun ok => .ite (ih _ _ _) (uses_pure _)
    exact .ite (panic_uses trivial) (loadPages_image p _ ip _ _ _ _)

theorem pushArgs_image (p : Slot) (pg : Pgdir) (argc : ℕ) (args : List CStr) (sp : Word) (addrs : List Word) :
    (pushArgs pg argc args sp addrs).Uses (Image p) := by
  induction args generalizing argc sp addrs with
  | nil => exact uses_pure _
  | cons arg args ih =>
    refine .ite (uses_pure _) (uses_bind_call trivial fun (ok : Bool) => ?_)
    exact .ite (ih _ _ _) (uses_pure _)

theorem execStack_image (p : Slot) (path : CStr) (argv : List CStr) (entry pages : Word)
    (pg : Pgdir) (sz : Word) : (execStack p path argv entry pages pg sz).Uses (Image p) := by
  have bad (pg : Pgdir) : (execStack.bad pg).Uses (Image p) := uses_bind_call trivial fun _ => uses_pure _
  refine uses_bind_call trivial fun r => .ite (bad _) (uses_bind_call trivial fun pg => ?_)
  refine .bind (pushArgs_image p pg 0 argv _ _) fun r => ?_
  cases r with
  | none => exact bad _
  | some =>
    refine uses_bind_call trivial fun (ok : Bool) => .ite ?_ (bad _)
    refine uses_bind_call trivial fun pr => uses_bind_call rfl fun _ => uses_bind_call rfl fun _ => ?_
    exact uses_bind_call trivial fun _ => uses_pure _

end Image
end Xv6.Sys
