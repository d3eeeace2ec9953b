import Xv6.Lib.CString
import Xv6.Vm.Uvm

/-! # Whole address spaces

Building, copying and freeing a page directory, and writing into one that is not the
current one. The mappings of the kernel half are the same in every directory, so only
the frames of its page tables are kept.
-/
namespace Xv6.Vm

def DEVSPACE : ℕ := 0xFE000000

/-- Page tables of the kernel half: `KERNBASE` to `P2V(PHYSTOP)` and the devices. -/
def KERNTABLES : ℕ := PHYSTOP / (NPTENTRIES * PGSIZE) + 8

def freeFrames : List Frame → Comp Phys Unit
  | [] => pure ()
  | f :: fs => do
    kfree f
    freeFrames fs

def freevm (pg : Pgdir) : Comp Phys Unit := do
  let (_, pg) ← deallocuvm pg (BitVec.ofNat 32 KERNBASE) 0#32
  freeFrames ((List.range (NPDENTRIES / 2)).filterMap fun i => (pg.pde i).map PgTab.frame)
  freeFrames pg.kern
  kfree pg.frame

/-- The page tables that `mappages` creates for the entries of `kmap`. -/
def mapKernel : ℕ → Pgdir → Comp Phys (Option Pgdir)
  | 0, pg => pure (some pg)
  | n + 1, pg => do
    match ← kalloc with
    | none =>
      freevm pg
      pure none
    | some t =>
      memset t 0
      mapKernel n { pg with kern := pg.kern ++ [t] }

def setupkvm : Comp Phys (Option Pgdir) := do
  match ← kalloc with
  | none => pure none
  | some f =>
    memset f 0
    mapKernel KERNTABLES ⟨f, [], fun _ => none⟩

/-- The loop of `copyuvm` over the `n` pages from `vpn` on. -/
def copyPages (pg : Pgdir) : (n : ℕ) → ℕ → Pgdir → Comp Phys (Option Pgdir)
  | 0, _, d => pure (some d)
  | n + 1, vpn, d =>
    if pg.HasTable vpn then
      match pg.lookup vpn with
      | none => Comp.panic "copyuvm: page not present"
      | some e => do
        match ← kalloc with
        | none =>
          freevm d
          pure none
        | some mem =>
          Comp.modify fun m => { m with mem := Function.update m.mem mem (m.mem e.frame) }
          let (ok, d) ← mappages 1 d vpn mem e.perm
          if ok then copyPages pg n (vpn + 1) d
          else
            kfree mem
            freevm d
            pure none
    else Comp.panic "copyuvm: pte should exist"

def copyuvm (pg : Pgdir) (sz : Word) : Comp Phys (Option Pgdir) := do
  match ← setupkvm with
  | none => pure none
  | some d => copyPages pg (pageCount sz) 0 d

def clearpteu (pg : Pgdir) (uva : Word) : Comp Phys Pgdir :=
  let vpn := uva.toNat / PGSIZE
  if pg.HasTable vpn then
    pure (pg.setPte vpn ((pg.lookup vpn).map fun e => { e with perm := { e.perm with u := false } }))
  else Comp.panic "clearpteu"

def userFrame (pg : Pgdir) (uva : Word) : Option Frame :=
  (pg.lookup (uva.toNat / PGSIZE)).bind fun e => if e.perm.u then some e.frame else none

/-- The pages for which `setupkvm` makes page tables. -/
def KernelPage (vpn : ℕ) : Prop :=
  (KERNBASE / PGSIZE ≤ vpn ∧ vpn < (KERNBASE + PHYSTOP) / PGSIZE) ∨ DEVSPACE / PGSIZE ≤ vpn

instance (vpn : ℕ) : Decidable (KernelPage vpn) := inferInstanceAs (Decidable (_ ∨ _))

/-- No entry of the kernel half has `PTE_U`. Without a page table the source reads through
a null pointer. -/
def uva2ka (pg : Pgdir) (uva : Word) : Comp Phys (Option Frame) :=
  let vpn := uva.toNat / PGSIZE
  if pg.HasTable vpn then pure (userFrame pg uva)
  else if KernelPage vpn then pure none
  else Comp.panic "uva2ka: null page table"

def poke (f : Frame) (off : ℕ) (bs : List UInt8) : Comp Phys Unit :=
  Comp.modify fun m => { m with mem := Function.update m.mem f (Mem.write (m.mem f) off bs) }

/-- The loop of `copyout`, with the lookup that it uses; a turn copies at least one byte. -/
def copyoutLoop (uva2ka : Word → Comp Phys (Option Frame)) : ℕ → Word → List UInt8 → Comp Phys Bool
  | _, _, [] => pure true
  | 0, _, _ => pure true
  | turns + 1, va, buf => do
    let va0 : Word := BitVec.ofNat 32 (va.toNat / PGSIZE * PGSIZE)
    match ← uva2ka va0 with
    | none => pure false
    | some pa0 =>
      let off := (va - va0).toNat
      poke pa0 off (buf.take (PGSIZE - off))
      copyoutLoop uva2ka turns (va0 + BitVec.ofNat 32 PGSIZE) (buf.drop (PGSIZE - off))

def copyout (pg : Pgdir) (va : Word) (buf : List UInt8) : Comp Phys Bool :=
  copyoutLoop (uva2ka pg) buf.length va buf

/-- `copyout` with an address that has no page table taken as inaccessible. -/
def copyoutChecked (pg : Pgdir) (va : Word) (buf : List UInt8) : Comp Phys Bool :=
  copyoutLoop (fun uva => pure (userFrame pg uva)) buf.length va buf

end Xv6.Vm
