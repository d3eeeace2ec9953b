import Mathlib.Algebra.Ring.Int.Defs
import Mathlib.Algebra.Ring.Nat
import Mathlib.Logic.Function.Basic
import Xv6.Lib.Comp

/-! # Physical pages and two-level page tables

Physical memory is the kernel's free list of page frames and the bytes of every
frame (`kalloc.c`). A page directory is the tree `vm.c` walks: each directory
entry holds a page table, each table entry a frame with its permission bits. The
user half is indexed by page number, so `PDX` and `PTX` of an address are the
quotient and the remainder of its page number.
-/
namespace Xv6
open Function BitVec

/-- The C type `uint`, and an `int` argument before its sign is looked at. -/
abbrev Word := BitVec 32

instance : LawfulBEq Word := inferInstance

namespace Vm

def PGSIZE : ℕ := 4096
def NPDENTRIES : ℕ := 1024
def NPTENTRIES : ℕ := 1024
def KERNBASE : ℕ := 0x80000000
def PHYSTOP : ℕ := 0xE000000

/-- `PGROUNDUP` in 32-bit arithmetic. -/
def pgRoundUp (sz : Word) : Word := (sz + 4095#32) &&& ~~~4095#32

/-- The number of pages below `PGROUNDUP(sz)`. -/
def pageCount (sz : Word) : ℕ := (sz.toNat + 4095) / PGSIZE

theorem and_not_ones (x : Word) (w : ℕ) : x &&& ~~~(BitVec.ofNat 32 (2 ^ w - 1)) = (x >>> w) <<< w := by
  apply eq_of_getLsbD_eq
  intro i hi
  have hlow : (BitVec.ofNat 32 (2 ^ w - 1)).getLsbD i = decide (i < w) := by
    rw [getLsbD_ofNat, Nat.testBit_two_pow_sub_one]
    simp [hi]
  simp only [getLsbD_and, getLsbD_not, hlow, getLsbD_shiftLeft,
    getLsbD_ushiftRight, hi, decide_true, Bool.true_and]
  by_cases h : i < w
  · simp [h]
  · have : w + (i - w) = i := by omega
    simp [h, this]

theorem and_not_low (x : Word) : x &&& ~~~4095#32 = (x >>> 12) <<< 12 := and_not_ones x 12

theorem pgRoundUp_toNat (h : sz.toNat + 4095 < 2 ^ 32) : (pgRoundUp sz).toNat = pageCount sz * PGSIZE := by
  have hadd : (sz + 4095#32).toNat = sz.toNat + 4095 := by
    rw [toNat_add]
    exact Nat.mod_eq_of_lt h
  rw [pgRoundUp, and_not_low, toNat_shiftLeft, toNat_ushiftRight, hadd,
    Nat.shiftRight_eq_div_pow, Nat.shiftLeft_eq, pageCount, PGSIZE]
  omega

abbrev Frame := ℕ
abbrev Page := ℕ → UInt8

/-- The flag bits of a present page-table entry that `vm.c` sets. -/
structure Perm where
  w : Bool
  u : Bool
  deriving DecidableEq, Repr

/-- `PTE_W|PTE_U`, the permissions of every user page but the guard page. -/
def Perm.user : Perm := ⟨true, true⟩

/-- A page-table entry with `PTE_P` set. -/
structure Pte where
  frame : Frame
  perm : Perm
  deriving DecidableEq, Repr

structure PgTab where
  frame : Frame
  pte : ℕ → Option Pte

/-- A page directory: its own frame, the frames of the page tables `setupkvm`
built for the kernel half, and the page tables of the user half. -/
structure Pgdir where
  frame : Frame
  kern : List Frame
  pde : ℕ → Option PgTab

def pdx (vpn : ℕ) : ℕ := vpn / NPTENTRIES
def ptx (vpn : ℕ) : ℕ := vpn % NPTENTRIES

theorem page_ext (hd : pdx v = pdx w) (ht : ptx v = ptx w) : v = w := by
  simp only [pdx, ptx, NPTENTRIES] at hd ht
  omega

/-- The entry that maps a page, if its table exists and the entry is present. -/
def Pgdir.lookup (pg : Pgdir) (vpn : ℕ) : Option Pte :=
  (pg.pde (pdx vpn)).bind (fun t => t.pte (ptx vpn))

def Pgdir.setPte (pg : Pgdir) (vpn : ℕ) (e : Option Pte) : Pgdir :=
  let tab := (pg.pde (pdx vpn)).map (fun t => { t with pte := update t.pte (ptx vpn) e })
  { pg with pde := update pg.pde (pdx vpn) tab }

def Pgdir.addTable (pg : Pgdir) (vpn : ℕ) (f : Frame) : Pgdir :=
  { pg with pde := update pg.pde (pdx vpn) (some ⟨f, fun _ => none⟩) }

def Pgdir.HasTable (pg : Pgdir) (vpn : ℕ) : Prop := (pg.pde (pdx vpn)).isSome = true

instance (pg : Pgdir) (vpn : ℕ) : Decidable (pg.HasTable vpn) := inferInstanceAs (Decidable (_ = true))

variable {pg : Pgdir} {vpn : ℕ}

theorem Pgdir.lookup_eq_none (h : ¬ pg.HasTable vpn) : pg.lookup vpn = none := by
  simp only [Pgdir.HasTable, Bool.not_eq_true, Option.isSome_eq_false_iff, Option.isNone_iff_eq_none] at h
  simp [Pgdir.lookup, h]

theorem Pgdir.lookup_setPte (h : pg.HasTable vpn) (e : Option Pte) (v : ℕ) :
    (pg.setPte vpn e).lookup v = if v = vpn then e else pg.lookup v := by
  obtain ⟨t, ht⟩ := Option.isSome_iff_exists.mp h
  simp only [Pgdir.lookup, Pgdir.setPte, ht, Option.map_some]
  by_cases hd : pdx v = pdx vpn
  · rw [hd, update_self, ht]
    by_cases hv : v = vpn
    · simp [hv]
    · have : ptx v ≠ ptx vpn := fun h => hv (page_ext hd h)
      simp [hv, this]
  · have : v ≠ vpn := fun h => hd (by rw [h])
    rw [update_of_ne hd]
    simp [this]

theorem Pgdir.hasTable_addTable (pg : Pgdir) (vpn : ℕ) (f : Frame) : (pg.addTable vpn f).HasTable vpn := by
  simp [Pgdir.HasTable, Pgdir.addTable]

theorem Pgdir.lookup_addTable (h : ¬ pg.HasTable vpn) (f : Frame) (v : ℕ) :
    (pg.addTable vpn f).lookup v = pg.lookup v := by
  by_cases hd : pdx v = pdx vpn
  · have hv : ¬ pg.HasTable v := by simpa [Pgdir.HasTable, hd] using h
    rw [Pgdir.lookup_eq_none hv]
    simp [Pgdir.lookup, Pgdir.addTable, hd]
  · simp [Pgdir.lookup, Pgdir.addTable, hd]

/-- Physical memory: the first frame after the kernel (`end`), `kmem.freelist`,
and the contents of the frames. -/
structure Phys where
  lowest : Frame
  freelist : List Frame
  mem : Frame → Page

/-- The frames `kfree` accepts. -/
def Phys.Valid (m : Phys) (f : Frame) : Prop := m.lowest ≤ f ∧ f < PHYSTOP / PGSIZE

instance (m : Phys) (f : Frame) : Decidable (m.Valid f) := inferInstanceAs (Decidable (_ ∧ _))

def memset (f : Frame) (c : UInt8) : Comp Phys Unit :=
  Comp.modify fun m => { m with mem := update m.mem f (fun _ => c) }

def kfree (f : Frame) : Comp Phys Unit := fun m =>
  if m.Valid f then
    .ok ((), { m with mem := update m.mem f (fun _ => 1), freelist := f :: m.freelist })
  else .error (.panic "kfree")

/-- `none` when the free list is empty. -/
def kalloc : Comp Phys (Option Frame) := fun m =>
  match m.freelist with
  | [] => .ok (none, m)
  | f :: rest => .ok (some f, { m with freelist := rest })

/-- The result says whether an entry for the page exists; with `alloc` a missing
page table is created. -/
def walkpgdir (pg : Pgdir) (vpn : ℕ) (alloc : Bool) : Comp Phys (Bool × Pgdir) :=
  if pg.HasTable vpn then pure (true, pg)
  else if alloc then do
    match ← kalloc with
    | none => pure (false, pg)
    | some f =>
      memset f 0
      pure (true, pg.addTable vpn f)
  else pure (false, pg)

/-- Map `npages` consecutive pages to consecutive frames; `false` is the source's -1. -/
def mappages : (npages : ℕ) → Pgdir → ℕ → Frame → Perm → Comp Phys (Bool × Pgdir)
  | 0, pg, _, _, _ => pure (true, pg)
  | n + 1, pg, vpn, pa, perm => do
    let (found, pg) ← walkpgdir pg vpn true
    if found then
      if (pg.lookup vpn).isSome then Comp.panic "remap"
      else mappages n (pg.setPte vpn (some ⟨pa, perm⟩)) (vpn + 1) (pa + 1) perm
    else pure (false, pg)

end Vm
end Xv6
