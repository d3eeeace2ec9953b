import Xv6.Vm.Uvm

/-! # `deallocuvm` on addresses

The loop as the source writes it: its variable is a 32-bit address, moved by `PGADDR` to the
end of the region of an absent page table. It visits the pages of the range one by one.
-/
namespace Xv6.Vm.Addr
open BitVec

def PDX (va : Word) : Word := (va >>> 22) &&& 0x3FF#32
def PTX (va : Word) : Word := (va >>> 12) &&& 0x3FF#32
def PGADDR (d t o : Word) : Word := (d <<< 22) ||| (t <<< 12) ||| o

/-- The page whose entry `walkpgdir` looks for. -/
def page (va : Word) : ℕ := (PDX va).toNat * NPTENTRIES + (PTX va).toNat

/-- A loop that has not ended after `turns` rounds is blocked. -/
def deallocFrom (oldsz : Word) : (turns : ℕ) → (a : Word) → Pgdir → Comp Phys Pgdir
  | 0, _, _ => Comp.block
  | turns + 1, a, pg =>
    if a < oldsz then
      if pg.HasTable (page a) then
        match pg.lookup (page a) with
        | some e =>
          if e.frame = 0 then Comp.panic "kfree"
          else do
            kfree e.frame
            deallocFrom oldsz turns (a + 4096) (pg.setPte (page a) none)
        | none => deallocFrom oldsz turns (a + 4096) pg
      else deallocFrom oldsz turns (PGADDR (PDX a + 1) 0 0 - 4096 + 4096) pg
    else pure pg

def deallocuvm (turns : ℕ) (pg : Pgdir) (oldsz newsz : Word) : Comp Phys (Word × Pgdir) :=
  if newsz ≥ oldsz then pure (oldsz, pg)
  else do
    let pg ← deallocFrom oldsz turns (pgRoundUp newsz) pg
    pure (newsz, pg)

/-- What `deallocuvm` is to do: every page of the range is visited. -/
def visitAll (pg : Pgdir) (oldsz newsz : Word) : Comp Phys (Word × Pgdir) := do
  let pg ← visitPages (pageCount oldsz - pageCount newsz) (pageCount newsz) pg
  pure (newsz, pg)

variable {a oldsz newsz : Word} {turns v : ℕ}

theorem toNat_and_ones (x : Word) : (x &&& 0x3FF#32).toNat = x.toNat % 1024 := by
  rw [toNat_and]
  exact Nat.and_two_pow_sub_one_eq_mod x.toNat 10

theorem toNat_PDX (va : Word) : (PDX va).toNat = va.toNat / 2 ^ 22 := by
  have hlt := va.isLt
  rw [PDX, toNat_and_ones, toNat_ushiftRight, Nat.shiftRight_eq_div_pow]
  omega

theorem page_eq (va : Word) : page va = va.toNat / PGSIZE := by
  rw [page, toNat_PDX, PTX, toNat_and_ones, toNat_ushiftRight, Nat.shiftRight_eq_div_pow, NPTENTRIES, PGSIZE]
  omega

/-- The jump ends at the first page of the next region. -/
theorem toNat_jump (ha : a.toNat < KERNBASE) :
    (PGADDR (PDX a + 1) 0 0 - 4096 + 4096).toNat = (pdx (a.toNat / PGSIZE) + 1) * NPTENTRIES * PGSIZE := by
  have hpdx := toNat_PDX a
  have hone : (PDX a + 1).toNat = (PDX a).toNat + 1 := by
    simp only [KERNBASE] at ha
    rw [toNat_add]
    exact Nat.mod_eq_of_lt (by simp; omega)
  have hshift : (PGADDR (PDX a + 1) 0 0).toNat = ((PDX a).toNat + 1) * 2 ^ 22 := by
    rw [show PGADDR (PDX a + 1) 0 0 = (PDX a + 1) <<< 22 by simp [PGADDR], toNat_shiftLeft, Nat.shiftLeft_eq, hone, hpdx]
    simp only [KERNBASE] at ha
    omega
  rw [sub_add_cancel, hshift, hpdx, pdx, PGSIZE, NPTENTRIES]
  omega

/-- With enough rounds the loop on addresses is the loop on page numbers. -/
theorem deallocFrom_eq (hold : oldsz.toNat ≤ KERNBASE) (ha : a.toNat ≤ KERNBASE) (halign : a.toNat % PGSIZE = 0)
    (hturns : pageCount oldsz - a.toNat / PGSIZE < turns) (pg : Pgdir) :
    deallocFrom oldsz turns a pg = deallocPages (pageCount oldsz) (a.toNat / PGSIZE) pg := by
  induction turns generalizing a pg with
  | zero => omega
  | succ turns ih =>
    have hless : a < oldsz ↔ a.toNat / PGSIZE < pageCount oldsz := by
      rw [lt_def, pageCount]
      simp only [PGSIZE] at *
      omega
    rw [deallocFrom, deallocPages, page_eq]
    refine if_ctx_congr hless (fun hlt => ?_) fun _ => rfl
    have hlt' := hless.mpr hlt
    rw [lt_def] at hlt'
    have hnext : (a + 4096).toNat = a.toNat + PGSIZE := by
      rw [toNat_add]
      exact Nat.mod_eq_of_lt (by simp; simp only [KERNBASE] at *; omega)
    have hstep (pg : Pgdir) : deallocFrom oldsz turns (a + 4096) pg =
        deallocPages (pageCount oldsz) (a.toNat / PGSIZE + 1) pg := by
      rw [ih ?_ ?_ ?_, hnext, Nat.add_div_right _ (by decide)]
      all_goals
        rw [hnext]
        simp only [PGSIZE, KERNBASE] at *
        omega
    refine if_congr Iff.rfl ?_ ?_
    · cases pg.lookup (a.toNat / PGSIZE) with
      | none => exact hstep pg
      | some => simp only [hstep]
    · have hjump := toNat_jump (a := a) (by omega)
      rw [ih ?_ ?_ ?_, hjump, Nat.mul_div_cancel _ (by decide)]
      all_goals
        rw [hjump]
        simp only [pdx, NPTENTRIES, PGSIZE, KERNBASE] at *
        omega

/-- The page begins in the range that `deallocuvm` takes away. -/
def Between (newsz oldsz : Word) (v : ℕ) : Prop := (pgRoundUp newsz).toNat ≤ v * PGSIZE ∧ v * PGSIZE < oldsz.toNat

instance (newsz oldsz : Word) (v : ℕ) : Decidable (Between newsz oldsz v) := inferInstanceAs (Decidable (_ ∧ _))

theorem between_iff (hlt : newsz < oldsz) (hle : oldsz.toNat ≤ KERNBASE) :
    Between newsz oldsz v ↔ pageCount newsz ≤ v ∧ v < pageCount newsz + (pageCount oldsz - pageCount newsz) := by
  rw [lt_def] at hlt
  have hmono := pageCount_mono (a := newsz) (b := oldsz) (by omega)
  rw [Between, pgRoundUp_toNat (by simp only [KERNBASE] at hle; omega)]
  simp only [pageCount, PGSIZE] at *
  omega

theorem deallocuvm_eq (hlt : newsz < oldsz) (hle : oldsz.toNat ≤ KERNBASE) (hturns : pageCount oldsz < turns) (pg : Pgdir) :
    deallocuvm turns pg oldsz newsz = visitAll pg oldsz newsz := by
  have hnew : newsz.toNat ≤ KERNBASE := by
    rw [lt_def] at hlt
    omega
  have hround : (pgRoundUp newsz).toNat = pageCount newsz * PGSIZE := pgRoundUp_toNat (by simp only [KERNBASE] at hnew; omega)
  have hfirst := firstPage_eq hnew
  rw [deallocuvm, if_neg (by rw [ge_iff_le, BitVec.not_le]; exact hlt), deallocFrom_eq hle ?_ ?_ (by omega), hfirst,
    deallocPages_eq]
  case _ => rfl
  all_goals
    rw [hround]
    simp only [pageCount, PGSIZE, KERNBASE] at *
    omega

/-- With enough rounds `deallocuvm` does what visiting every page does. It unmaps and frees the
present pages of its range and nothing else, or stops at a frame that `kfree` does not take. -/
theorem deallocuvm_exact (hlt : newsz < oldsz) (hle : oldsz.toNat ≤ KERNBASE) (pg : Pgdir) (m : Phys) :
    ∃ enough, ∀ turns ≥ enough,
      deallocuvm turns pg oldsz newsz m = visitAll pg oldsz newsz m ∧
      ((∀ v e, Between newsz oldsz v → pg.lookup v = some e → e.frame ≠ 0 ∧ m.Valid e.frame) →
        ∃ pg', deallocuvm turns pg oldsz newsz m =
            .ok ((newsz, pg'), m.give (pg.frames (pageCount oldsz - pageCount newsz) (pageCount newsz))) ∧
          pg'.frame = pg.frame ∧ pg'.kern = pg.kern ∧ (∀ v, Between newsz oldsz v → pg'.lookup v = none) ∧
          ∀ v, ¬ Between newsz oldsz v → pg'.lookup v = pg.lookup v) ∧
      ((∃ v e, Between newsz oldsz v ∧ pg.lookup v = some e ∧ ¬ (e.frame ≠ 0 ∧ m.Valid e.frame)) →
        deallocuvm turns pg oldsz newsz m = .error (.panic "kfree")) := by
  refine ⟨pageCount oldsz + 1, fun turns hturns => ?_⟩
  rw [deallocuvm_eq hlt hle hturns]
  refine ⟨rfl, ?_⟩
  simp only [between_iff hlt hle, visitAll]
  refine ⟨fun h => ?_, ?_⟩
  · obtain ⟨pg', hrun, hframe, hkern, hres⟩ := visitPages_run fun v e h₁ h₂ => h v e ⟨h₁, h₂⟩
    refine ⟨pg', by rw [Comp.bind_of_ok hrun]; rfl, hframe, hkern, fun v hv => ?_, fun v hv => ?_⟩
    · rw [hres, if_pos hv]
    · rw [hres, if_neg hv]
  · rintro ⟨v, e, ⟨h₁, h₂⟩, he, hbad⟩
    rw [Comp.bind_apply, visitPages_panic h₁ h₂ he hbad]

/-- A directory with one page, at address 0. -/
def lone (f : Frame) : Pgdir :=
  ⟨1, [], fun i => if i = 0 then some ⟨2, fun j => if j = 0 then some ⟨f, .user⟩ else none⟩ else none⟩

def usedMemory : Phys := ⟨3, [], fun _ _ => 0⟩

theorem lone_lookup (h : (lone f).lookup v = some e) : e.frame = f := by
  obtain ⟨t, ht, he⟩ := Option.bind_eq_some_iff.mp h
  simp only [lone] at ht
  split at ht
  · cases ht
    simp only at he
    split at he
    · cases he
      rfl
    · cases he
  · cases ht

theorem deallocuvm_lone : ∃ enough, ∀ turns ≥ enough, ∃ pg',
    deallocuvm turns (lone 5) 5000#32 0#32 usedMemory = .ok ((0#32, pg'), usedMemory.give [5]) ∧ pg'.lookup 0 = none := by
  obtain ⟨enough, h⟩ := deallocuvm_exact (show 0#32 < 5000#32 by decide) (by decide) (lone 5) usedMemory
  refine ⟨enough, fun turns hturns => ?_⟩
  obtain ⟨pg', hrun, -, -, hnone, -⟩ := (h turns hturns).2.1 fun v e _ he => by
    rw [lone_lookup he]
    decide
  exact ⟨pg', hrun, hnone 0 (by decide)⟩

/-- A page in frame 0 is present and is not freed. -/
theorem deallocuvm_zero_frame : (lone 0).lookup 0 = some ⟨0, .user⟩ ∧
    deallocuvm 1 (lone 0) 5000#32 0#32 usedMemory = .error (.panic "kfree") := ⟨rfl, rfl⟩

end Xv6.Vm.Addr
