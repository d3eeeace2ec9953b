import Xv6.Fs.Walking
import Xv6.Proc.Exec
import Xv6.Vm.Copyout

/-! # Loading a program

`exec` up to the arguments: the segments of a file are loaded into a new address space,
and pages for the stack are added to it. Program headers are not trusted: whatever the file
holds, no panic of the loader is reached, and memory outside the frames that were free is
left alone.
-/
namespace Xv6
open BitVec

/-- The operations, with an address that has no page table taken as inaccessible by
`copyout`. -/
def Op.semChecked : (o : Op) → Comp Kernel o.Ans
  | .vm (.copyout pg va buf) => Kernel.onPhys (Vm.copyoutChecked pg va buf)
  | o => o.sem

namespace Sys
open Prog Fs
open KProg hiding panic
open Vm (Frame Phys Pgdir Space Account Touches Sized PGSIZE KERNBASE pageCount)

def loaderPanics : List String := ["loaduvm: addr must be page aligned", "loaduvm: address should exist"]

/-- What a run of the loader comes to is no panic of `loaduvm`, and no operation on memory
that stops. -/
def Steady : Op → Kernel → Prop
  | .panic msg, _ => msg ∉ loaderPanics
  | .vm o, k => ∃ r, Op.semChecked (.vm o) k = .ok r
  | _, _ => True

def inner (k : Kernel) : PTable × Phys := (k.pt, k.phys)

def Outer : Op → Prop
  | .log _ => True
  | .fs (.access _ _ _ _ _) => True
  | .proc (.proc _) => True
  | o => o.Core

section Outer
variable {α : Type} {x : KProg α} {k : Kernel}

theorem outer_of_core (h : o.Core) : Outer o := by
  cases o with
  | fs o => cases o <;> first | exact h | trivial
  | log => trivial
  | proc => exact h.elim
  | _ => exact h

theorem Outer.steady (h : Outer o) : Op.semChecked o = o.sem ∧ ∀ t, Steady o t := by
  cases o with
  | panic msg => exact ⟨rfl, fun _ => (by decide : ∀ msg ∈ FsOp.panics, msg ∉ loaderPanics) msg h⟩
  | vm => exact h.elim
  | _ => exact ⟨rfl, fun _ => trivial⟩

theorem Outer.fixes (h : Outer o) : Comp.Fixes inner o.sem := by
  cases o with
  | panic => exact Comp.fixes_panic _
  | log o => exact LogOp.sem_fixes (fun _ _ => rfl) o
  | fs o => exact FsBlind.sem (by constructor <;> intros <;> rfl) o
  | proc o =>
    cases o with
    | proc => exact Comp.fixes_get.bind fun _ => Comp.fixes_pure _
    | _ => exact h.elim
  | _ => exact h.elim

theorem outer_wp (hx : x.Uses Outer) : x.Wp Op.semChecked Steady (fun _ k' => inner k' = inner k) k := by
  induction x generalizing k with
  | ret => rfl
  | op o f ih =>
    refine ⟨hx.1.steady.2 k, fun b t ho => ?_⟩
    rw [hx.1.steady.1] at ho
    have hstep := hx.1.fixes k b t ho
    exact (ih b (hx.2 b)).mono fun _ k' hk' => hk'.trans hstep

theorem core_wp (hx : x.Uses Op.Core) : x.Wp Op.semChecked Steady (fun _ k' => inner k' = inner k) k :=
  outer_wp (hx.mono fun _ => outer_of_core)

theorem endOp_outer : endOp.Uses Outer :=
  uses_bind_call trivial fun (_ : Bool) => .ite (uses_bind_call trivial fun _ => uses_call trivial) (uses_pure _)

end Outer

theorem vm_wp {o : VmOp} {x : Comp Phys o.Ans} {k : Kernel} {r : o.Ans} {m : Phys} {Q : o.Ans → Kernel → Prop}
    (hsem : Op.semChecked (.vm o) = Kernel.onPhys x) (hx : x k.phys = .ok (r, m)) (hQ : Q r { k with phys := m }) :
    (vm o).Wp Op.semChecked Steady Q k := by
  have hrun : Op.semChecked (.vm o) k = .ok (r, { k with phys := m }) := by
    rw [hsem]
    exact Comp.zoom_eq_ok.mpr ⟨m, hx, rfl⟩
  refine wp_call ⟨_, hrun⟩ fun b t hb => ?_
  cases hrun.symm.trans hb
  exact hQ

def Readable (k : Kernel) (i : InodeIdx) : Prop := (k.icache i).d.type ≠ .dev ∧ (k.icache i).d.Whole k.block

/-- Loading from entry `i` changes memory in the frames of `F` only, and where the file can
be read nothing else. -/
structure Alters (F : Set Frame) (i : InodeIdx) (k k' : Kernel) : Prop where
  pt : k'.pt = k.pt
  touches : Touches (· ∈ F) k.phys k'.phys
  rest : Readable k i → k' = { k with phys := k'.phys }

namespace Alters
variable {F : Set Frame} {i : InodeIdx} {k k' k'' : Kernel}

theorem refl (F : Set Frame) (i : InodeIdx) (k : Kernel) : Alters F i k k :=
  ⟨rfl, .refl _ _, fun _ => rfl⟩

theorem of_phys {m : Phys} (h : Touches (· ∈ F) k.phys m) (i : InodeIdx) : Alters F i k { k with phys := m } :=
  ⟨rfl, h, fun _ => rfl⟩

theorem readable (h : Alters F i k k') (hr : Readable k i) : Readable k' i := by
  rw [h.rest hr]
  exact hr

theorem trans (h : Alters F i k k') (h' : Alters F i k' k'') : Alters F i k k'' := by
  refine ⟨h'.pt.trans h.pt, h.touches.trans h'.touches, fun hr => ?_⟩
  have hnext := h'.rest (h.readable hr)
  rw [h.rest hr] at hnext
  exact hnext

end Alters

def fileOf (k : Kernel) (i : InodeIdx) : Mem := (k.icache i).d.contents k.block

def fileBytes (file : Mem) (off n : ℕ) : List UInt8 := (List.range n).map fun j => file (off + j)

theorem readi_wp (F : Set Frame) (p : Slot) (i : InodeIdx) (off n : Word) (k : Kernel) :
    (readi p i off n).Wp Op.semChecked Steady (fun r k' => Alters F i k k' ∧ k'.phys = k.phys ∧
      (Readable k i → r = fileRead (k.icache i).d.size (fileOf k i) off n)) k := by
  refine (core_wp (readi_core p i off n)).and_run.mono fun r k' ⟨hinner, hrun⟩ => ?_
  have hpt : k'.pt = k.pt := congrArg Prod.fst hinner
  have hphys : k'.phys = k.phys := congrArg Prod.snd hinner
  have hread (hr : Readable k i) : k' = k ∧ r = fileRead (k.icache i).d.size (fileOf k i) off n :=
    ((readi_spec (w := .bfree) hr.1 hr.2 off n).transfer (readi_core p i off n)
      fun _ ho => (outer_of_core ho).steady).run hrun
  refine ⟨⟨hpt, ?_, fun hr => ?_⟩, hphys, fun hr => (hread hr).2⟩
  · rw [hphys]
    exact .refl _ _
  · rw [(hread hr).1]

theorem fileBytes_add (file : Mem) (off n r : ℕ) :
    fileBytes file off (n + r) = fileBytes file off n ++ fileBytes file (off + n) r := by
  simp [fileBytes, List.range_add, Nat.add_assoc]

@[simp] theorem length_fileBytes (file : Mem) (off n : ℕ) : (fileBytes file off n).length = n := by
  simp [fileBytes]

theorem fileRead_full {size off n : Word} {file : Mem} (hn : n.toNat < 2 ^ 31)
    (h : (fileRead size file off n).1 = n.toInt) :
    (fileRead size file off n).2 = fileBytes file off.toNat n.toNat ∧ (off + n).toNat = off.toNat + n.toNat := by
  have hint : n.toInt = n.toNat := toInt_eq_toNat_of_lt (by omega)
  unfold fileRead at h ⊢
  split at h
  · rw [hint] at h
    simp at h
  · rename_i hin
    rw [if_neg hin]
    have hsame : (if off + n > size then size - off else n) = n := eq_of_toInt_eq h
    have hsum : (off + n).toNat = off.toNat + n.toNat := by bv_omega
    exact ⟨by simp [hsame, fileBytes], hsum⟩

section Segments
variable {F : Set Frame} {k : Kernel} {p : Slot} {i : InodeIdx} {pg : Pgdir}

theorem poke_wp {v : ℕ} {e : Vm.Pte} (i : InodeIdx) (h : Space F pg ∅ k.phys) (he : pg.lookup v = some e)
    (bs : List UInt8) : (vm (.poke ((pg.lookup v).elim 0 Vm.Pte.frame) bs)).Wp Op.semChecked Steady (fun _ k' => Alters F i k k' ∧ Space F pg ∅ k'.phys ∧
      (bs.length ≤ PGSIZE → pg.image k'.phys = (pg.image k.phys).write (v * PGSIZE) bs)) k := by
  rw [he]
  refine vm_wp (o := .poke e.frame bs) (x := Vm.poke e.frame 0 bs) rfl rfl ⟨.of_phys ?_ i, h.congr rfl rfl, fun hfit => ?_⟩
  · refine ⟨rfl, fun f hf => ?_, fun hfree => hfree⟩
    have hne : f ≠ e.frame := by
      rintro rfl
      exact hf (h.frame_mem he).1
    simp [hne]
  · have hfit' : 0 + bs.length ≤ PGSIZE := by omega
    have hstored := Vm.Stored.poke h.userTable he hfit' k.phys
    rw [Nat.add_zero] at hstored
    exact hstored.image

theorem loadPages_wp (h : Space F pg ∅ k.phys) (hturns : turns = pageCount sz)
    (halign : addr.toNat % PGSIZE = 0) (hend : addr.toNat + sz.toNat ≤ KERNBASE)
    (hmapped : ∀ v, addr.toNat / PGSIZE ≤ v → v < addr.toNat / PGSIZE + turns → (pg.lookup v).isSome) :
    (loadPages p pg i turns addr offset sz).Wp Op.semChecked Steady (fun ok k' =>
      Alters F i k k' ∧ Space F pg ∅ k'.phys ∧ (ok = true → Readable k i → pg.image k'.phys =
        (pg.image k.phys).write addr.toNat (fileBytes (fileOf k i) offset.toNat sz.toNat))) k := by
  induction turns generalizing addr offset sz k with
  | zero =>
    have hzero : sz.toNat = 0 := by
      simp only [pageCount, PGSIZE] at hturns
      omega
    refine wp_pure ⟨Alters.refl F i k, h, fun _ _ => ?_⟩
    funext x
    simp [hzero, fileBytes, Mem.write]
  | succ turns ih =>
    obtain ⟨e, he⟩ := Option.isSome_iff_exists.mp (hmapped (addr.toNat / PGSIZE) le_rfl (by omega))
    unfold loadPages
    simp only [if_pos (Vm.hasTable_of_lookup he)]
    generalize hn : (if sz < BitVec.ofNat 32 PGSIZE then sz else BitVec.ofNat 32 PGSIZE) = n
    have hpage : (BitVec.ofNat 32 PGSIZE).toNat = PGSIZE := rfl
    have hn' : n.toNat = min sz.toNat PGSIZE := by
      rw [← hn]
      split
      case isTrue hlt =>
        rw [lt_def, hpage] at hlt
        omega
      case isFalse hlt =>
        rw [lt_def, hpage] at hlt
        omega
    have hrest : (sz - n).toNat = sz.toNat - n.toNat := by bv_omega
    have hnext : (addr + BitVec.ofNat 32 PGSIZE).toNat = addr.toNat + PGSIZE := by
      rw [toNat_add, hpage]
      simp only [pageCount, PGSIZE, KERNBASE] at *
      omega
    refine (readi_wp F p i offset n k).bind fun r k1 hres => ?_
    obtain ⟨halters1, hphys1, hread⟩ := hres
    have h1 : Space F pg ∅ k1.phys := by rwa [hphys1]
    refine (poke_wp i h1 he r.2).bind fun _ k2 hres => ?_
    obtain ⟨halters2, h2, himage⟩ := hres
    have halters := halters1.trans halters2
    refine wp_ite (fun hr => ?_) fun _ => wp_pure ⟨halters, h2, fun hok => by cases hok⟩
    refine (ih h2 ?_ ?_ ?_ ?_).mono fun ok k' hdone =>
      ⟨halters.trans hdone.1, hdone.2.1, fun hok hread' => ?_⟩
    · simp only [pageCount, PGSIZE] at *
      omega
    · rw [hnext]
      simp only [PGSIZE] at *
      omega
    · simp only [pageCount, PGSIZE, KERNBASE] at *
      omega
    · intro v hv1 hv2
      rw [hnext, Nat.add_div_right _ (by decide)] at hv1 hv2
      exact hmapped v (by omega) (by omega)
    · rw [hread hread'] at hr himage
      obtain ⟨hbytes, hsum⟩ := fileRead_full (by rw [hn']; simp only [PGSIZE]; omega) hr
      have hfile : fileOf k2 i = fileOf k i := by rw [halters.rest hread']; rfl
      have hstart : addr.toNat / PGSIZE * PGSIZE = addr.toNat := Nat.div_mul_cancel (Nat.dvd_of_mod_eq_zero halign)
      rw [hbytes, length_fileBytes, hstart, hphys1] at himage
      rw [hdone.2.2 hok (halters.readable hread'), himage (by omega), hfile, hsum, hrest, hnext]
      have hsplit : sz.toNat = n.toNat + (sz.toNat - n.toNat) := by omega
      conv_rhs => rw [hsplit, fileBytes_add, Mem.write_append, length_fileBytes]
      -- Either the page was full or nothing is left.
      by_cases hfull : n.toNat = PGSIZE
      · rw [hfull]
      · have hnone : sz.toNat - n.toNat = 0 := by omega
        funext x
        simp [hnone, fileBytes, Mem.write]

theorem allocuvm_wp (i : InodeIdx) (h : Space F pg ∅ k.phys) (hsized : Sized pg sz)
    (hsz : sz.toNat ≤ KERNBASE) :
    (allocuvm pg sz newsz).Wp Op.semChecked Steady (fun r k' => Alters F i k k' ∧ Space F r.2 ∅ k'.phys ∧
      (r.1 ≠ 0 → Sized r.2 r.1 ∧ r.1.toNat = max sz.toNat newsz.toNat ∧ newsz.toNat < KERNBASE ∧
        r.2.image k'.phys = pg.image k.phys)) k := by
  obtain ⟨r, pg', m', hrun, hspace, htouch, hres⟩ := h.allocuvm_spec hsz (fun v hv => hsized.above hv)
  refine vm_wp (o := .allocuvm pg sz newsz) rfl hrun ⟨.of_phys htouch i, hspace, fun hne => ?_⟩
  rcases hres with hzero | ⟨hmax, hlt, hgrown⟩
  · exact absurd hzero hne
  · have hle := Vm.pageCount_mono (a := sz) (b := r) (by omega)
    exact ⟨hgrown.sized hsized hle, hmax, hlt, hgrown.image h fun v hv => hsized.above hv⟩

def headers (size : Word) (file : Mem) : (n : ℕ) → (off : Word) → List Proghdr
  | 0, _ => []
  | n + 1, off => proghdr (fileRead size file off SIZEOF_PROGHDR).2 :: headers size file n (off + SIZEOF_PROGHDR)

def Proghdr.load (file : Mem) (image : Mem) (ph : Proghdr) : Mem :=
  if ph.type = ELF_PROG_LOAD then image.write ph.vaddr.toNat (fileBytes file ph.off.toNat ph.filesz.toNat) else image

theorem loaduvm_wp (h : Space F pg ∅ k.phys) (halign : addr.toNat % PGSIZE = 0)
    (hend : addr.toNat + sz.toNat ≤ KERNBASE)
    (hmapped : ∀ v, v < pageCount (addr + sz) → (pg.lookup v).isSome) :
    (loaduvm p pg addr i offset sz).Wp Op.semChecked Steady (fun ok k' =>
      Alters F i k k' ∧ Space F pg ∅ k'.phys ∧ (ok = true → Readable k i → pg.image k'.phys =
        (pg.image k.phys).write addr.toNat (fileBytes (fileOf k i) offset.toNat sz.toNat))) k := by
  unfold loaduvm
  rw [if_neg (by omega)]
  refine loadPages_wp h rfl halign hend fun v _ hv => hmapped v ?_
  have hsum : (addr + sz).toNat = addr.toNat + sz.toNat := by
    rw [toNat_add]
    simp only [KERNBASE] at hend
    omega
  simp only [pageCount, PGSIZE] at *
  omega

/-- The loop over the headers `hs` has ended; where it says so, their segments are in the
image, and below the size. -/
def Segments (F : Set Frame) (i : InodeIdx) (k : Kernel) (sz : Word) (image : Mem) (hs : List Proghdr)
    (r : Bool × Pgdir × Word) (k' : Kernel) : Prop :=
  Alters F i k k' ∧ Space F r.2.1 ∅ k'.phys ∧ (r.1 = true →
    Sized r.2.1 r.2.2 ∧ r.2.2.toNat < KERNBASE ∧ sz.toNat ≤ r.2.2.toNat ∧ (Readable k i →
      r.2.1.image k'.phys = hs.foldl (Proghdr.load (fileOf k i)) image ∧
      ∀ ph ∈ hs, ph.type = ELF_PROG_LOAD → ph.vaddr.toNat + ph.filesz.toNat ≤ r.2.2.toNat))

theorem loadSegments_wp (h : Space F pg ∅ k.phys) (hsized : Sized pg sz) (hsz : sz.toNat < KERNBASE) :
    (loadSegments p i turns off pg sz).Wp Op.semChecked Steady (Segments F i k sz (pg.image k.phys)
      (headers (k.icache i).d.size (fileOf k i) turns off)) k := by
  induction turns generalizing off pg sz k with
  | zero =>
    refine wp_pure ⟨.refl F i k, h, fun _ => ⟨hsized, hsz, le_rfl, fun _ => ⟨rfl, ?_⟩⟩⟩
    simp [headers]
  | succ turns ih =>
    refine (readi_wp F p i off SIZEOF_PROGHDR k).bind fun r k1 ⟨halters1, hphys1, hread⟩ => ?_
    generalize hhs : headers (k.icache i).d.size (fileOf k i) (turns + 1) off = hs
    have h1 : Space F pg ∅ k1.phys := by rwa [hphys1]
    have hfail {k' : Kernel} {pg' : Pgdir} {sz' : Word} (halters : Alters F i k k') (h' : Space F pg' ∅ k'.phys) :
        (pure (false, pg', sz') : KProg (Bool × Pgdir × Word)).Wp Op.semChecked Steady
          (Segments F i k sz (pg.image k.phys) hs) k' := wp_pure ⟨halters, h', fun hok => by cases hok⟩
    -- The image and the size after the first header, from which the others go on.
    have hgo {k' : Kernel} {pg' : Pgdir} {sz' : Word} (halters : Alters F i k k') (h' : Space F pg' ∅ k'.phys)
        (hsized' : Sized pg' sz') (hsz' : sz'.toNat < KERNBASE) (hle : sz.toNat ≤ sz'.toNat)
        (hfirst : (proghdr r.2).type = ELF_PROG_LOAD →
          (proghdr r.2).vaddr.toNat + (proghdr r.2).filesz.toNat ≤ sz'.toNat)
        (himage : Readable k i → pg'.image k'.phys = Proghdr.load (fileOf k i) (pg.image k.phys) (proghdr r.2)) :
        (loadSegments p i turns (off + SIZEOF_PROGHDR) pg' sz').Wp Op.semChecked Steady
          (Segments F i k sz (pg.image k.phys) hs) k' := by
      refine (ih h' hsized' hsz').mono fun r' k'' ⟨halters', h'', hres⟩ => ⟨halters.trans halters', h'', fun hok => ?_⟩
      obtain ⟨hsized'', hsz'', hle', hrest⟩ := hres hok
      refine ⟨hsized'', hsz'', hle.trans hle', fun hread' => ?_⟩
      obtain ⟨himage', hcover⟩ := hrest (halters.readable hread')
      have hfile : fileOf k' i = fileOf k i := by rw [halters.rest hread']; rfl
      have hsize : (k'.icache i).d.size = (k.icache i).d.size := by rw [halters.rest hread']
      rw [hfile, hsize, himage hread'] at himage'
      rw [hfile, hsize] at hcover
      rw [hread hread'] at himage' hfirst
      subst hhs
      refine ⟨himage', fun ph hph htype => ?_⟩
      rcases List.mem_cons.mp hph with rfl | hph
      · exact (hfirst htype).trans hle'
      · exact hcover ph hph htype
    refine wp_ite (fun _ => hfail halters1 h1) fun _ => wp_ite (fun htype => ?_) fun htype => ?_
    · refine hgo halters1 h1 hsized hsz le_rfl (fun hload => absurd hload htype) fun _ => ?_
      rw [hphys1, Proghdr.load, if_neg htype]
    refine wp_ite (fun _ => hfail halters1 h1) fun hsizes => ?_
    push Not at hsizes htype
    refine (allocuvm_wp i h1 hsized hsz.le).bind fun a k2 ⟨halters2, h2, hgrown⟩ => ?_
    have halters := halters1.trans halters2
    refine wp_ite (fun _ => hfail halters h2) fun hbad => ?_
    push Not at hbad
    obtain ⟨hsized2, hmax, hlt, himage2⟩ := hgrown hbad.1
    have hsum : ((proghdr r.2).vaddr + (proghdr r.2).memsz).toNat =
        (proghdr r.2).vaddr.toNat + (proghdr r.2).memsz.toNat := by bv_omega
    have hfile : (proghdr r.2).filesz.toNat ≤ (proghdr r.2).memsz.toNat := by bv_omega
    refine (loaduvm_wp h2 hbad.2 (by omega) fun v hv => ?_).bind fun ok k3 ⟨halters3, h3, himage3⟩ => ?_
    · have hle : pageCount ((proghdr r.2).vaddr + (proghdr r.2).filesz) ≤ pageCount a.1 :=
        Vm.pageCount_mono (by bv_omega)
      obtain ⟨e, he, -⟩ := hsized2.below (v := v) (by omega)
      simp [he]
    have halters' := halters.trans halters3
    refine wp_ite (fun hok => ?_) fun _ => hfail halters' h3
    refine hgo halters' h3 hsized2 (by omega) (by omega) (fun _ => by omega) fun hread' => ?_
    have hsame : fileOf k2 i = fileOf k i := by rw [halters.rest hread']; rfl
    rw [himage3 hok (halters.readable hread'), himage2, hphys1, hsame, Proghdr.load, if_pos htype]

end Segments
end Sys
end Xv6
