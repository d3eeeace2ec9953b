import Xv6.Proc.Loader

/-! # The address space of a new program

`exec` is cut where it comes to the arguments. Before that, the program is loaded and the
pages of its stack are there, with a page below them that user code may not access.
-/
namespace Xv6.Sys
open Prog Fs
open KProg hiding panic
open Vm (Frame Phys Pgdir Perm Space Account Touches Sized PGSIZE KERNBASE pageCount pgRoundUp)

/-- Undo what a failing `exec` holds, and close the bracket. -/
def giveUp {α : Type} (undo : KProg Unit) : KProg (Option α) := do
  undo
  endOp
  return none

/-- `execStack` up to the arguments. -/
def addStack (entry pages : Word) (pg : Pgdir) (sz : Word) : KProg (Option (Word × Pgdir × Word)) := do
  let bytes : Word := pages * BitVec.ofNat 32 PGSIZE
  let (sz, pg) ← allocuvm pg (pgRoundUp sz) (pgRoundUp sz + bytes)
  if sz = 0 then
    freevm pg
    return none
  else
    let pg ← clearpteu pg (sz - bytes)
    return some (entry, pg, sz)

/-- `execInode` up to the arguments: the entry point, the address space and its size. -/
def loadInode (p : Slot) (ip : InodeIdx) (pages : Word) : KProg (Option (Word × Pgdir × Word)) := do
  let (r, bytes) ← readi p ip 0 SIZEOF_ELFHDR
  let elf := elfhdr bytes
  if r ≠ SIZEOF_ELFHDR.toInt ∨ elf.magic ≠ ELF_MAGIC then giveUp (iunlockput p ip)
  else
    match ← setupkvm with
    | none => giveUp (iunlockput p ip)
    | some pg =>
      let (ok, pg, sz) ← loadSegments p ip elf.phnum.toNat elf.phoff pg 0
      if ok then
        iunlockput p ip
        endOp
        addStack elf.entry pages pg sz
      else
        giveUp do
          freevm pg
          iunlockput p ip

/-- The rest of `execInode`. -/
def execArgs (p : Slot) (path : CStr) (argv : List CStr) (entry : Word) (pg : Pgdir) (sz : Word) : KProg ℤ := do
  match ← pushArgs pg 0 argv sz [] with
  | none => execStack.bad pg
  | some (sp, addrs) =>
    let stack := ustack sp addrs
    let sp := sp - BitVec.ofNat 32 (4 * stack.length)
    if ← copyout pg sp (stack.flatMap wordBytes) then
      let oldpgdir := (← myproc p).pgdir
      proc (.setName p (progName path))
      proc (.setImage p pg sz entry sp)
      freevm oldpgdir
      return 0
    else execStack.bad pg

def orFail {α : Type} (f : α → KProg ℤ) : Option α → KProg ℤ
  | none => return -1
  | some a => f a

section Cut
variable (p : Slot) (path : CStr) (argv : List CStr)

theorem giveUp_bind {α : Type} (undo : KProg Unit) (f : α → KProg ℤ) : (giveUp undo >>= orFail f) = fail undo := by
  simp [giveUp, fail, orFail, bind_assoc]

theorem execStack_eq (entry pages : Word) (pg : Pgdir) (sz : Word) : execStack p path argv entry pages pg sz =
    addStack entry pages pg sz >>= orFail fun r => execArgs p path argv r.1 r.2.1 r.2.2 := by
  unfold execStack addStack
  simp only [bind_assoc]
  refine bind_congr fun r => ?_
  by_cases hr : r.1 = 0
  · simp [hr, orFail, execStack.bad]
  · simp only [hr, if_false, bind_assoc, pure_bind]
    rfl

theorem execInode_eq (ip : InodeIdx) (pages : Word) : execInode p ip path argv pages =
    loadInode p ip pages >>= orFail fun r => execArgs p path argv r.1 r.2.1 r.2.2 := by
  unfold execInode loadInode
  simp only [bind_assoc]
  refine bind_congr fun r => ?_
  by_cases hr : r.1 ≠ SIZEOF_ELFHDR.toInt ∨ (elfhdr r.2).magic ≠ ELF_MAGIC
  · rw [if_pos hr, if_pos hr, giveUp_bind]
  rw [if_neg hr, if_neg hr, bind_assoc]
  refine bind_congr fun pg => ?_
  cases pg with
  | none => exact (giveUp_bind _ _).symm
  | some =>
    simp only [bind_assoc]
    refine bind_congr fun s => ?_
    by_cases hs : s.1 = true
    · simp only [hs, if_true, bind_assoc, execStack_eq]
    · rw [if_neg hs, if_neg hs, giveUp_bind]

end Cut

/-- The process table is as it was, and memory outside the frames of `F`. -/
structure Confined (F : Set Frame) (k k' : Kernel) : Prop where
  pt : k'.pt = k.pt
  touches : Touches (· ∈ F) k.phys k'.phys

namespace Confined
variable {F : Set Frame} {k k' k'' : Kernel} {i : InodeIdx}

theorem trans (h : Confined F k k') (h' : Confined F k' k'') : Confined F k k'' :=
  ⟨h'.pt.trans h.pt, h.touches.trans h'.touches⟩

theorem of_inner (h : inner k' = inner k) : Confined F k k' := by
  have hphys : k'.phys = k.phys := congrArg Prod.snd h
  refine ⟨congrArg Prod.fst h, ?_⟩
  rw [hphys]
  exact .refl _ _

theorem of_alters (h : Alters F i k k') : Confined F k k' := ⟨h.pt, h.touches⟩

theorem of_phys {m : Phys} (h : Touches (· ∈ F) k.phys m) : Confined F k { k with phys := m } := ⟨rfl, h⟩

end Confined

/-- An address space of `sz` bytes, at the top the pages of the stack; the lowest of these
is not accessible to user code. -/
structure Layout (pages : Word) (pg : Pgdir) (sz : Word) : Prop where
  below : sz.toNat < KERNBASE
  aligned : sz.toNat % PGSIZE = 0
  room : pages.toNat * PGSIZE ≤ sz.toNat
  perm : ∀ v, (pg.lookup v).map Vm.Pte.perm =
    if v < sz.toNat / PGSIZE then some ⟨true, decide (v ≠ sz.toNat / PGSIZE - pages.toNat)⟩ else none

structure Prepared (F : Set Frame) (pages : Word) (pg : Pgdir) (sz : Word) (m : Phys) : Prop
    extends Layout pages pg sz where
  space : Space F pg ∅ m

section Prepare
variable {F : Set Frame} {k : Kernel} {p : Slot} {i : InodeIdx} {pg : Pgdir} {pages : Word}

theorem freevm_wp (h : Space F pg ∅ k.phys) : (freevm pg).Wp Op.semChecked Steady
    (fun _ k' => Confined F k k' ∧ Account F (fun _ => none) ∅ k'.phys) k := by
  obtain ⟨m', hrun, htouch, haccount⟩ := Vm.freevm_spec h
  exact vm_wp (o := .freevm pg) rfl hrun ⟨.of_phys htouch, haccount⟩

theorem Confined.account {own : Vm.Place → Option Frame} (h : inner k' = inner k)
    (ha : Account F own ∅ k.phys) : Account F own ∅ k'.phys := by
  have hphys : k'.phys = k.phys := congrArg Prod.snd h
  rwa [hphys]

/-- What a load has come to: nothing, and the frames are free again, or an address space
with pages for the stack. -/
def Outcome (F : Set Frame) (pages : Word) (k : Kernel) (good : Word × Pgdir × Word → Kernel → Prop)
    (r : Option (Word × Pgdir × Word)) (k' : Kernel) : Prop :=
  Confined F k k' ∧ match r with
    | none => Account F (fun _ => none) ∅ k'.phys
    | some a => Prepared F pages a.2.1 a.2.2 k'.phys ∧ good a k'

theorem giveUp_wp {undo : KProg Unit} {k0 : Kernel} {good : Word × Pgdir × Word → Kernel → Prop} (hk : Confined F k0 k)
    (h : undo.Wp Op.semChecked Steady (fun _ k' => Confined F k k' ∧ Account F (fun _ => none) ∅ k'.phys) k) :
    (giveUp undo).Wp Op.semChecked Steady (Outcome F pages k0 good) k := by
  refine h.bind fun _ k1 ⟨hconf1, h1⟩ => (outer_wp endOp_outer).bind fun _ k2 hinner => wp_pure ?_
  exact ⟨hk.trans (hconf1.trans (Confined.of_inner hinner)), Confined.account hinner h1⟩

theorem pgRoundUp_eq (h : sz.toNat < KERNBASE) : (pgRoundUp sz).toNat = pageCount sz * PGSIZE := by
  apply Vm.pgRoundUp_toNat
  simp only [KERNBASE] at h
  omega

theorem pageCount_pgRoundUp (h : sz.toNat < KERNBASE) : pageCount (pgRoundUp sz) = pageCount sz := by
  have hround := pgRoundUp_eq h
  unfold pageCount at hround ⊢
  rw [hround]
  simp only [PGSIZE]
  omega

theorem addStack_wp (hpages : 1 ≤ pages.toNat ∧ pages.toNat ≤ 101)
    (h : Space F pg ∅ k.phys) (hsized : Sized pg sz) (hsz : sz.toNat < KERNBASE) :
    (addStack entry pages pg sz).Wp Op.semChecked Steady (Outcome F pages k fun a k' => a.1 = entry ∧
      a.2.1.image k'.phys = pg.image k.phys ∧ a.2.2.toNat = pageCount sz * PGSIZE + pages.toNat * PGSIZE) k := by
  have hround := pgRoundUp_eq hsz
  have hcount := pageCount_pgRoundUp hsz
  have hpage : pageCount sz * PGSIZE ≤ KERNBASE := by
    simp only [pageCount, PGSIZE, KERNBASE] at *
    omega
  have hsized' : Sized pg (pgRoundUp sz) := by
    unfold Sized
    rw [hcount]
    exact hsized
  have hbytes : (pages * BitVec.ofNat 32 PGSIZE).toNat = pages.toNat * PGSIZE := by
    rw [BitVec.toNat_mul]
    simp only [PGSIZE, BitVec.toNat_ofNat] at *
    omega
  have hnew : (pgRoundUp sz + pages * BitVec.ofNat 32 PGSIZE).toNat = pageCount sz * PGSIZE + pages.toNat * PGSIZE := by
    rw [BitVec.toNat_add, hround, hbytes]
    simp only [PGSIZE, KERNBASE] at *
    omega
  refine (allocuvm_wp 0 h hsized' (by omega)).bind fun r k1 hres => ?_
  obtain ⟨halters, h1, hgrown⟩ := hres
  refine wp_ite (fun _ => ?_) fun hne => ?_
  · exact (freevm_wp h1).bind fun _ k2 hfree => wp_pure ⟨(Confined.of_alters halters).trans hfree.1, hfree.2⟩
  obtain ⟨hsized1, hmax, hlt, himage⟩ := hgrown hne
  have hr : r.1.toNat = pageCount sz * PGSIZE + pages.toNat * PGSIZE := by omega
  have hsub : (r.1 - pages * BitVec.ofNat 32 PGSIZE).toNat = pageCount sz * PGSIZE := by
    have hlt := r.1.isLt
    bv_omega
  have hguard : (r.1 - pages * BitVec.ofNat 32 PGSIZE).toNat / PGSIZE = pageCount sz := by
    rw [hsub, Nat.mul_div_cancel _ (by decide)]
  have htop : pageCount r.1 = pageCount sz + pages.toNat := by
    have hcalc : r.1.toNat + 4095 = (pageCount sz + pages.toNat) * 4096 + 4095 := by
      rw [hr, Nat.add_mul]
      rfl
    rw [pageCount, hcalc, PGSIZE]
    omega
  obtain ⟨e, he, hperm⟩ := hsized1.below (v := pageCount sz) (by omega)
  obtain ⟨pg', hrun, h', himage', hlook⟩ := Vm.clearpteu_spec h1 (hguard ▸ he)
  refine (vm_wp (o := .clearpteu r.2 (r.1 - pages * BitVec.ofNat 32 PGSIZE)) (Q := fun b k' => b = pg' ∧ k' = k1) rfl hrun
    ⟨rfl, rfl⟩).bind fun b k2 hclear => wp_pure ?_
  obtain ⟨hb, hk2⟩ := hclear
  subst hb hk2
  have hdiv : r.1.toNat / PGSIZE = pageCount sz + pages.toNat := by
    rw [hr, ← Nat.add_mul, Nat.mul_div_cancel _ (by decide)]
  have hbelow : r.1.toNat < KERNBASE := by omega
  have hroom : pages.toNat * PGSIZE ≤ r.1.toNat := by omega
  refine ⟨Confined.of_alters halters, ⟨⟨hbelow, ?_, hroom, fun v => ?_⟩, h'⟩, rfl, himage'.trans himage, hr⟩
  · rw [hr, ← Nat.add_mul, Nat.mul_mod_left]
  · rw [hlook v, hguard, hdiv, Nat.add_sub_cancel]
    by_cases hv : v = pageCount sz
    · have hlt' : pageCount sz < pageCount sz + pages.toNat := by omega
      simp [hv, hperm, Vm.Perm.user, hlt']
    · rw [if_neg hv, hsized1 v, htop]
      simp [hv, Vm.Perm.user]

theorem setupkvm_wp (i : InodeIdx) (h : Account F (fun _ => none) ∅ k.phys) :
    setupkvm.Wp Op.semChecked Steady (fun r k' => Alters F i k k' ∧ match r with
      | none => Account F (fun _ => none) ∅ k'.phys
      | some pg => Space F pg ∅ k'.phys ∧ Sized pg 0 ∧ pg.image k'.phys = fun _ => 0) k := by
  obtain ⟨r, m', hrun, htouch, hres⟩ := Vm.setupkvm_spec h
  refine vm_wp (o := .setupkvm) rfl hrun ⟨Alters.of_phys htouch i, ?_⟩
  rcases hres with ⟨rfl, haccount⟩ | ⟨pg, rfl, hspace, -, hempty⟩
  · exact haccount
  · refine ⟨hspace, fun v => ?_, ?_⟩
    · simp [hempty, pageCount, PGSIZE]
    · funext x
      simp [Pgdir.image, Pgdir.load, hempty]

/-- The header of a program, the headers of its segments, and the memory that they ask for. -/
def elfOf (size : Word) (file : Mem) : Elfhdr := elfhdr (fileRead size file 0 SIZEOF_ELFHDR).2

def programHeaders (size : Word) (file : Mem) : List Proghdr :=
  headers size file (elfOf size file).phnum.toNat (elfOf size file).phoff

def programImage (size : Word) (file : Mem) : Mem :=
  (programHeaders size file).foldl (Proghdr.load file) fun _ => 0

/-- An address space with a program of the given file below `base`. -/
structure IsProgram (size : Word) (file : Mem) (entry : Word) (image : Mem) (base : ℕ) : Prop where
  entry : entry = (elfOf size file).entry
  image : image = programImage size file
  segments : ∀ ph ∈ programHeaders size file, ph.type = ELF_PROG_LOAD →
    ph.vaddr.toNat + ph.filesz.toNat ≤ base

theorem loadInode_wp (hpages : 1 ≤ pages.toNat ∧ pages.toNat ≤ 101) (h : Account F (fun _ => none) ∅ k.phys) :
    (loadInode p i pages).Wp Op.semChecked Steady (Outcome F pages k fun a k' => Readable k i →
      IsProgram (k.icache i).d.size (fileOf k i) a.1 (a.2.1.image k'.phys)
        (a.2.2.toNat - pages.toNat * PGSIZE)) k := by
  have hput {k' : Kernel} (h' : Account F (fun _ => none) ∅ k'.phys) : (iunlockput p i).Wp Op.semChecked Steady
      (fun _ k'' => Confined F k' k'' ∧ Account F (fun _ => none) ∅ k''.phys) k' :=
    (core_wp (iunlockput_core p i)).mono fun _ _ hinner => ⟨Confined.of_inner hinner, Confined.account hinner h'⟩
  refine (readi_wp F p i 0 SIZEOF_ELFHDR k).bind fun r k1 hres => ?_
  obtain ⟨halters1, hphys1, hread⟩ := hres
  have h1 : Account F (fun _ => none) ∅ k1.phys := by rwa [hphys1]
  refine wp_ite (fun _ => ?_) fun _ => ?_
  · exact giveUp_wp (.of_alters halters1) (hput h1)
  refine (setupkvm_wp i h1).bind fun pg k2 hres => ?_
  obtain ⟨halters2, hpg⟩ := hres
  have halters := halters1.trans halters2
  cases pg with
  | none => exact giveUp_wp (.of_alters halters) (hput hpg)
  | some =>
    obtain ⟨hspace, hsized, hzero⟩ := hpg
    refine (loadSegments_wp hspace hsized (by decide)).bind fun s k3 hres => ?_
    obtain ⟨halters3, h3, hdone⟩ := hres
    have halters' := halters.trans halters3
    refine wp_ite (fun hok => ?_) fun _ => ?_
    · obtain ⟨hsized3, hsz3, -, hprogram⟩ := hdone hok
      refine (core_wp (iunlockput_core p i)).bind fun _ k4 hinner4 => ?_
      refine (outer_wp endOp_outer).bind fun _ k5 hinner5 => ?_
      have hinner := hinner5.trans hinner4
      have hphys : k5.phys = k3.phys := congrArg Prod.snd hinner
      rw [← hphys] at h3
      refine (addStack_wp hpages h3 hsized3 hsz3).mono fun a k' hres => ?_
      obtain ⟨hconf, hres⟩ := hres
      refine ⟨(Confined.of_alters halters').trans ((Confined.of_inner hinner).trans hconf), ?_⟩
      cases a with
      | none => exact hres
      | some =>
        obtain ⟨hprepared, hentry, himage, hsize⟩ := hres
        refine ⟨hprepared, fun hread' => ?_⟩
        obtain ⟨himage3, hcover⟩ := hprogram (halters.readable hread')
        have hfile : fileOf k2 i = fileOf k i := by rw [halters.rest hread']; rfl
        have hdsize : (k2.icache i).d.size = (k.icache i).d.size := by rw [halters.rest hread']
        rw [hfile, hdsize, hread hread', hzero] at himage3
        rw [hfile, hdsize, hread hread'] at hcover
        rw [hread hread'] at hentry
        refine ⟨hentry, ?_, fun ph hph htype => ?_⟩
        · rw [himage, hphys, himage3]
          rfl
        · have hle := hcover ph hph htype
          simp only [pageCount, PGSIZE] at hsize ⊢
          omega
    · refine giveUp_wp (.of_alters halters') ?_
      refine (freevm_wp h3).bind fun _ k4 hres => ?_
      obtain ⟨hconf4, h4⟩ := hres
      exact (hput h4).mono fun _ k5 hdone => ⟨hconf4.trans hdone.1, hdone.2⟩

end Prepare
end Xv6.Sys
