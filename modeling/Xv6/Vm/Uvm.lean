import Mathlib.Data.List.Basic
import Xv6.Vm.PageTable

/-! # Growing and shrinking user memory

`allocuvm` and `deallocuvm` of `vm.c`. Both loops advance page by page from the
page-aligned start address, so they are written over page numbers; the jump over
an absent page table goes to the first page of the next one. The rollback of a
failed allocation is the source's own call of `deallocuvm`.
-/
namespace Xv6.Vm
open Comp Pgdir List

def userPage (pg : Pgdir) (m : Phys) (v : ℕ) : Option (Perm × Page) :=
  (pg.lookup v).map (fun e => (e.perm, m.mem e.frame))

/-- The loop of `deallocuvm`, from page `vpn` up to page `last`. -/
def deallocPages (last vpn : ℕ) (pg : Pgdir) : Comp Phys Pgdir :=
  if vpn < last then
    if pg.HasTable vpn then
      match pg.lookup vpn with
      | some e =>
        if e.frame = 0 then Comp.panic "kfree"
        else do
          kfree e.frame
          deallocPages last (vpn + 1) (pg.setPte vpn none)
      | none => deallocPages last (vpn + 1) pg
    else deallocPages last ((pdx vpn + 1) * NPTENTRIES) pg
  else pure pg
termination_by last - vpn
decreasing_by
  · omega
  · omega
  · simp only [pdx, NPTENTRIES]
    omega

/-- The same loop without the jump: `n` pages are visited one by one. -/
def visitPages : (n : ℕ) → ℕ → Pgdir → Comp Phys Pgdir
  | 0, _, pg => pure pg
  | n + 1, vpn, pg =>
    match pg.lookup vpn with
    | some e =>
      if e.frame = 0 then Comp.panic "kfree"
      else do
        kfree e.frame
        visitPages n (vpn + 1) (pg.setPte vpn none)
    | none => visitPages n (vpn + 1) pg

/-- Returns the new size, or the old one when there is nothing to take away. -/
def deallocuvm (pg : Pgdir) (oldsz newsz : Word) : Comp Phys (Word × Pgdir) :=
  if newsz ≥ oldsz then pure (oldsz, pg)
  else do
    let pg ← deallocPages (pageCount oldsz) ((pgRoundUp newsz).toNat / PGSIZE) pg
    pure (newsz, pg)

/-- The loop of `allocuvm` over the `n` pages that remain. -/
def allocPages (oldsz newsz : Word) : (n : ℕ) → ℕ → Pgdir → Comp Phys (Word × Pgdir)
  | 0, _, pg => pure (newsz, pg)
  | n + 1, vpn, pg => do
    match ← kalloc with
    | none =>
      let (_, pg) ← deallocuvm pg newsz oldsz
      pure (0#32, pg)
    | some mem =>
      memset mem 0
      let (ok, pg) ← mappages 1 pg vpn mem Perm.user
      if ok then allocPages oldsz newsz n (vpn + 1) pg
      else
        let (_, pg) ← deallocuvm pg newsz oldsz
        kfree mem
        pure (0#32, pg)

/-- Returns the new size or 0 on error. -/
def allocuvm (pg : Pgdir) (oldsz newsz : Word) : Comp Phys (Word × Pgdir) :=
  if newsz.toNat ≥ KERNBASE then pure (0#32, pg)
  else if newsz < oldsz then pure (oldsz, pg)
  else
    let a := (pgRoundUp oldsz).toNat / PGSIZE
    allocPages oldsz newsz (pageCount newsz - a) a pg

section Sizes
variable {oldsz newsz sz : Word} {pg pg' : Pgdir} {m m' : Phys}

theorem deallocuvm_size (h : deallocuvm pg oldsz newsz m = .ok ((sz, pg'), m')) : sz ≤ oldsz := by
  unfold deallocuvm at h
  split at h
  case isTrue =>
    cases h
    exact BitVec.le_refl _
  case isFalse hlt =>
    obtain ⟨pg1, m1, -, h⟩ := bind_eq_ok.mp h
    cases h
    exact BitVec.le_of_lt (BitVec.not_le.mp hlt)

theorem allocPages_size (h : allocPages oldsz newsz n vpn pg m = .ok ((sz, pg'), m')) :
    sz = 0#32 ∨ sz = newsz := by
  induction n generalizing vpn pg m with
  | zero =>
    cases h
    exact .inr rfl
  | succ n ih =>
    obtain ⟨f, m1, -, h⟩ := bind_eq_ok.mp h
    cases f with
    | none =>
      obtain ⟨r, m2, -, h⟩ := bind_eq_ok.mp h
      cases h
      exact .inl rfl
    | some =>
      obtain ⟨_, m2, -, h⟩ := bind_eq_ok.mp h
      obtain ⟨⟨ok, pg1⟩, m3, -, h⟩ := bind_eq_ok.mp h
      dsimp only at h
      cases ok with
      | true => exact ih h
      | false =>
        obtain ⟨r, m4, -, h⟩ := bind_eq_ok.mp h
        obtain ⟨_, m5, -, h⟩ := bind_eq_ok.mp h
        cases h
        exact .inl rfl

theorem allocuvm_size (h : allocuvm pg oldsz newsz m = .ok ((sz, pg'), m')) :
    sz = 0#32 ∨ sz = newsz ∨ sz = oldsz := by
  unfold allocuvm at h
  split at h
  · cases h
    exact .inl rfl
  split at h
  · cases h
    exact .inr (.inr rfl)
  · exact (allocPages_size h).imp_right Or.inl

end Sizes

/-- Memory changes only inside a set of frames, and the free list stays in it. -/
structure Touches (F : Frame → Prop) (m m' : Phys) : Prop where
  lowest : m'.lowest = m.lowest
  mem : ∀ f, ¬ F f → m'.mem f = m.mem f
  free : (∀ f ∈ m.freelist, F f) → ∀ f ∈ m'.freelist, F f

namespace Touches
variable {F : Frame → Prop} {m m' m'' : Phys}

theorem refl (F : Frame → Prop) (m : Phys) : Touches F m m := ⟨rfl, fun _ _ => rfl, fun h => h⟩

theorem trans (h : Touches F m m') (h' : Touches F m' m'') : Touches F m m'' :=
  ⟨h'.lowest.trans h.lowest, fun f hf => (h'.mem f hf).trans (h.mem f hf), fun hm => h'.free (h.free hm)⟩

theorem valid (h : Touches F m m') (f : Frame) : m'.Valid f ↔ m.Valid f := by
  simp only [Phys.Valid, h.lowest]

end Touches

theorem memset_eq (f : Frame) (c : UInt8) (m : Phys) :
    memset f c m = .ok ((), { m with mem := Function.update m.mem f (fun _ => c) }) := rfl

variable {F : Frame → Prop} {f : Frame} {m : Phys} {oldsz newsz : Word}

theorem memset_touches (hf : F f) (c : UInt8) (m : Phys) :
    Touches F m { m with mem := Function.update m.mem f (fun _ => c) } := by
  refine ⟨rfl, fun g hg => ?_, fun h => h⟩
  have : g ≠ f := fun h => hg (h ▸ hf)
  simp [this]

theorem kfree_spec (hv : m.Valid f) (hf : F f) : ∃ m', kfree f m = .ok ((), m') ∧ Touches F m m' := by
  refine ⟨_, if_pos hv, rfl, fun g hg => ?_, fun h g hg => ?_⟩
  · have : g ≠ f := fun h => hg (h ▸ hf)
    simp [this]
  · rcases mem_cons.mp hg with rfl | hg
    · exact hf
    · exact h g hg

theorem kalloc_spec (m : Phys) : kalloc m = .ok (none, m) ∨
    ∃ f rest, m.freelist = f :: rest ∧ kalloc m = .ok (some f, { m with freelist := rest }) := by
  unfold kalloc
  split
  next => exact .inl rfl
  next f rest h => exact .inr ⟨f, rest, h, rfl⟩

theorem pop_touches (h : m.freelist = f :: rest) : Touches F m { m with freelist := rest } := by
  refine ⟨rfl, fun _ _ => rfl, fun hm g hg => hm g ?_⟩
  rw [h]
  exact mem_cons_of_mem f hg

theorem walkpgdir_spec (pg : Pgdir) (vpn : ℕ) (hfree : ∀ f ∈ m.freelist, F f) :
    ∃ found pg' m', walkpgdir pg vpn true m = .ok ((found, pg'), m') ∧ Touches F m m' ∧
      (∀ v, pg'.lookup v = pg.lookup v) ∧ (found = true → pg'.HasTable vpn) := by
  unfold walkpgdir
  by_cases ht : pg.HasTable vpn
  · exact ⟨true, pg, m, by simp [ht], .refl F m, fun _ => rfl, fun _ => ht⟩
  · simp only [if_neg ht, if_true]
    rcases kalloc_spec m with hk | ⟨f, rest, hl, hk⟩
    · refine ⟨false, pg, m, ?_, .refl F m, fun _ => rfl, by simp⟩
      rw [bind_of_ok hk]
      rfl
    · have hf : F f := hfree f (by rw [hl]; exact mem_cons_self)
      refine ⟨true, pg.addTable vpn f, _, ?_, (pop_touches hl).trans (memset_touches hf 0 _),
        lookup_addTable ht f, fun _ => pg.hasTable_addTable vpn f⟩
      rw [bind_of_ok hk]
      rfl

theorem mappages_spec (pa : Frame) (perm : Perm)
    (hfree : ∀ f ∈ m.freelist, F f) (hun : pg.lookup vpn = none) :
    ∃ ok pg' m', mappages 1 pg vpn pa perm m = .ok ((ok, pg'), m') ∧ Touches F m m' ∧
      (∀ v, pg'.lookup v = if ok = true ∧ v = vpn then some ⟨pa, perm⟩ else pg.lookup v) := by
  obtain ⟨found, pg', m', hw, htouch, hlook, htab⟩ := walkpgdir_spec pg vpn hfree
  unfold mappages
  rw [bind_of_ok hw]
  cases found with
  | false => exact ⟨false, pg', m', rfl, htouch, by simpa using hlook⟩
  | true =>
    have hnone : (pg'.lookup vpn).isSome = false := by rw [hlook, hun]; rfl
    refine ⟨true, pg'.setPte vpn (some ⟨pa, perm⟩), m', ?_, htouch, ?_⟩
    · simp only [hnone, if_true]
      rfl
    · intro v
      rw [lookup_setPte (htab rfl), hlook]
      simp

section Visits
variable {n k vpn v : ℕ} {pg : Pgdir} {e : Pte}

theorem hasTable_of_lookup (h : pg.lookup vpn = some e) : pg.HasTable vpn := by
  by_contra ht
  simp [lookup_eq_none ht] at h

theorem visitPages_none (h : pg.lookup vpn = none) : visitPages (n + 1) vpn pg = visitPages n (vpn + 1) pg := by
  simp only [visitPages, h]

theorem visitPages_some (h : pg.lookup vpn = some e) (hzero : e.frame ≠ 0) :
    visitPages (n + 1) vpn pg = kfree e.frame >>= fun _ => visitPages n (vpn + 1) (pg.setPte vpn none) := by
  simp only [visitPages, h, if_neg hzero]

theorem visitPages_skip (h : ∀ v, vpn ≤ v → v < vpn + k → pg.lookup v = none) :
    visitPages (k + n) vpn pg = visitPages n (vpn + k) pg := by
  induction k generalizing vpn with
  | zero => rw [Nat.zero_add, Nat.add_zero]
  | succ k ih =>
    rw [Nat.add_right_comm, visitPages_none (h vpn le_rfl (by omega)), ih fun v h1 h2 => h v (by omega) (by omega),
      Nat.add_assoc, Nat.add_comm 1]

/-- The jump over an absent page table passes only pages that are not present. -/
theorem deallocPages_eq (last vpn : ℕ) (pg : Pgdir) : deallocPages last vpn pg = visitPages (last - vpn) vpn pg := by
  induction vpn, pg using deallocPages.induct last with
  | case1 vpn pg hlt htab e hlook hzero =>
    rw [deallocPages, if_pos hlt, if_pos htab, ← Nat.sub_add_cancel (Nat.sub_pos_of_lt hlt)]
    simp only [visitPages, hlook, if_pos hzero]
  | case2 vpn pg hlt htab e hlook hzero ih =>
    have hn : last - vpn = last - (vpn + 1) + 1 := by omega
    rw [deallocPages, if_pos hlt, if_pos htab, hn, visitPages_some hlook hzero]
    simp only [hlook, if_neg hzero, ih]
  | case3 vpn pg hlt htab hlook ih =>
    have hn : last - vpn = last - (vpn + 1) + 1 := by omega
    rw [deallocPages, if_pos hlt, if_pos htab, hn, visitPages_none hlook]
    simp only [hlook, ih]
  | case4 vpn pg hlt htab ih =>
    have hnone (v : ℕ) (h1 : vpn ≤ v) (h2 : v < (pdx vpn + 1) * NPTENTRIES) : pg.lookup v = none := by
      have hd : pdx v = pdx vpn := by
        simp only [pdx, NPTENTRIES] at *
        omega
      exact lookup_eq_none (by simpa [HasTable, hd] using htab)
    have hjump : vpn < (pdx vpn + 1) * NPTENTRIES := by
      simp only [pdx, NPTENTRIES]
      omega
    rw [deallocPages, if_pos hlt, if_neg htab, ih]
    generalize (pdx vpn + 1) * NPTENTRIES = next at hnone hjump ⊢
    rcases Nat.le_total next last with hle | hle
    · rw [show last - vpn = (next - vpn) + (last - next) by omega, visitPages_skip fun v h1 h2 => hnone v h1 (by omega),
        Nat.add_sub_cancel' (Nat.le_of_lt hjump)]
    · rw [Nat.sub_eq_zero_of_le hle, ← Nat.add_zero (last - vpn), visitPages_skip fun v h1 h2 => hnone v h1 (by omega)]
      rfl
  | case5 vpn pg hlt =>
    rw [deallocPages, if_neg hlt, Nat.sub_eq_zero_of_le (Nat.le_of_not_lt hlt)]
    rfl

/-- The frames of the present pages among `n` pages. -/
def Pgdir.frames (pg : Pgdir) (n vpn : ℕ) : List Frame :=
  (List.range' vpn n).filterMap fun v => (pg.lookup v).map Pte.frame

/-- The memory after the frames have been freed, one after the other. -/
def Phys.give (m : Phys) (fs : List Frame) : Phys :=
  { m with freelist := fs.reverse ++ m.freelist, mem := fun f => if f ∈ fs then fun _ => 1 else m.mem f }

theorem give_give (m : Phys) (f : Frame) (fs : List Frame) : (m.give [f]).give fs = m.give (f :: fs) := by
  simp only [Phys.give, Phys.mk.injEq, true_and]
  refine ⟨by simp, funext fun g => ?_⟩
  simp only [mem_cons, not_mem_nil, or_false]
  split_ifs <;> simp_all

theorem kfree_run (hv : m.Valid f) : kfree f m = .ok ((), m.give [f]) := by
  rw [kfree, if_pos hv]
  congr 3
  funext g
  by_cases hg : g = f <;> simp [hg]

/-- `kfree` takes the frame of every present page among `n` pages. -/
def Pgdir.Accepted (pg : Pgdir) (m : Phys) (n vpn : ℕ) : Prop :=
  ∀ v e, vpn ≤ v → v < vpn + n → pg.lookup v = some e → e.frame ≠ 0 ∧ m.Valid e.frame

theorem visitPages_run (h : pg.Accepted m n vpn) : ∃ pg', visitPages n vpn pg m = .ok (pg', m.give (pg.frames n vpn)) ∧
    pg'.frame = pg.frame ∧ pg'.kern = pg.kern ∧
    ∀ v, pg'.lookup v = if vpn ≤ v ∧ v < vpn + n then none else pg.lookup v := by
  induction n generalizing vpn pg m with
  | zero => exact ⟨pg, by simp [visitPages, frames, Phys.give], rfl, rfl, fun v => by rw [if_neg (by omega)]⟩
  | succ n ih =>
    cases hlook : pg.lookup vpn with
    | none =>
      have haccepted : pg.Accepted m n (vpn + 1) := fun v e h1 h2 => h v e (by omega) (by omega)
      obtain ⟨pg', hrun, hframe, hkern, hres⟩ := ih haccepted
      refine ⟨pg', ?_, hframe, hkern, fun v => ?_⟩
      · rw [visitPages_none hlook, hrun]
        simp [frames, range'_succ, hlook]
      · rw [hres]
        by_cases hv : v = vpn
        · rw [hv, hlook, ite_self, ite_self]
        · exact if_congr (by omega) rfl rfl
    | some e =>
      obtain ⟨hzero, hvalid⟩ := h vpn e le_rfl (by omega) hlook
      have hset := lookup_setPte (hasTable_of_lookup hlook) none
      have hframes : (pg.setPte vpn none).frames n (vpn + 1) = pg.frames n (vpn + 1) := by
        refine filterMap_congr fun v hv => ?_
        rw [hset, if_neg (by simp at hv; omega)]
      have haccepted : (pg.setPte vpn none).Accepted (m.give [e.frame]) n (vpn + 1) := by
        intro v e' h1 h2 he
        rw [hset, if_neg (by omega)] at he
        exact h v e' (by omega) (by omega) he
      obtain ⟨pg', hrun, hframe, hkern, hres⟩ := ih haccepted
      refine ⟨pg', ?_, hframe, hkern, fun v => ?_⟩
      · rw [visitPages_some hlook hzero, bind_of_ok (kfree_run hvalid), hrun, hframes, give_give]
        simp [frames, range'_succ, hlook]
      · rw [hres, hset]
        split_ifs <;> first | rfl | omega

theorem visitPages_panic (h1 : vpn ≤ v) (h2 : v < vpn + n) (he : pg.lookup v = some e)
    (hbad : ¬ (e.frame ≠ 0 ∧ m.Valid e.frame)) : visitPages n vpn pg m = .error (.panic "kfree") := by
  induction n generalizing vpn pg m with
  | zero => omega
  | succ n ih =>
    cases hlook : pg.lookup vpn with
    | none =>
      rw [visitPages_none hlook]
      refine ih ?_ (by omega) he hbad
      by_contra hlt
      obtain rfl : v = vpn := by omega
      cases hlook.symm.trans he
    | some e' =>
      by_cases hzero : e'.frame = 0
      · simp only [visitPages, hlook, if_pos hzero]
        rfl
      rw [visitPages_some hlook hzero]
      by_cases hvalid : m.Valid e'.frame
      · have hne : v ≠ vpn := by
          rintro rfl
          cases hlook.symm.trans he
          exact hbad ⟨hzero, hvalid⟩
        rw [bind_of_ok (kfree_run hvalid)]
        refine ih (m := m.give [e'.frame]) (by omega) (by omega) ?_ hbad
        rw [lookup_setPte (hasTable_of_lookup hlook), if_neg hne]
        exact he
      · rw [bind_apply, kfree, if_neg hvalid]

end Visits

/-- The loop of `deallocuvm` terminates and unmaps exactly the pages of its range;
only frames mapped there change or return to the free list. -/
theorem deallocPages_spec (last vpn : ℕ) (pg : Pgdir) (m : Phys) (hlow : 0 < m.lowest)
    (hmap : ∀ v e, vpn ≤ v → v < last → pg.lookup v = some e → F e.frame ∧ m.Valid e.frame) :
    ∃ pg' m', deallocPages last vpn pg m = .ok (pg', m') ∧ Touches F m m' ∧
      (∀ v, pg'.lookup v = if vpn ≤ v ∧ v < last then none else pg.lookup v) := by
  have hn (v : ℕ) (h1 : vpn ≤ v) (h2 : v < vpn + (last - vpn)) : v < last := by omega
  have haccepted : pg.Accepted m (last - vpn) vpn := by
    intro v e h1 h2 he
    have hvalid := (hmap v e h1 (hn v h1 h2) he).2
    exact ⟨fun hzero => absurd (hzero ▸ hvalid.1) (Nat.not_le.mpr hlow), hvalid⟩
  obtain ⟨pg', hrun, -, -, hres⟩ := visitPages_run haccepted
  have hframes (f : Frame) (hf : f ∈ pg.frames (last - vpn) vpn) : F f := by
    obtain ⟨v, hv, hmapped⟩ := mem_filterMap.mp hf
    obtain ⟨e, he, rfl⟩ := Option.map_eq_some_iff.mp hmapped
    rw [mem_range'_1] at hv
    exact (hmap v e hv.1 (hn v hv.1 hv.2) he).1
  refine ⟨pg', m.give (pg.frames (last - vpn) vpn), by rw [deallocPages_eq, hrun], ⟨rfl, fun f hf => ?_, fun h f hf => ?_⟩, fun v => ?_⟩
  · exact if_neg fun hmem => hf (hframes f hmem)
  · rcases mem_append.mp hf with hf | hf
    · exact hframes f (mem_reverse.mp hf)
    · exact h f hf
  · rw [hres]
    exact if_congr (by omega) rfl rfl

theorem firstPage_eq (h : sz.toNat ≤ KERNBASE) : (pgRoundUp sz).toNat / PGSIZE = pageCount sz := by
  rw [pgRoundUp_toNat (by simp only [KERNBASE] at h; omega)]
  exact Nat.mul_div_cancel _ (by decide)

theorem pageCount_mono (h : a.toNat ≤ b.toNat) : pageCount a ≤ pageCount b := by
  simp only [pageCount, PGSIZE]
  omega

theorem deallocuvm_spec (F : Frame → Prop) (pg : Pgdir)
    (hlt : newsz.toNat < oldsz.toNat) (hold : oldsz.toNat ≤ KERNBASE) (hlow : 0 < m.lowest)
    (hmap : ∀ v e, pageCount newsz ≤ v → v < pageCount oldsz → pg.lookup v = some e →
      F e.frame ∧ m.Valid e.frame) :
    ∃ pg' m', deallocuvm pg oldsz newsz m = .ok ((newsz, pg'), m') ∧ Touches F m m' ∧ (∀ v, pg'.lookup v =
        if pageCount newsz ≤ v ∧ v < pageCount oldsz then none else pg.lookup v) := by
  obtain ⟨pg', m', hrun, ht, hres⟩ := deallocPages_spec (pageCount oldsz) (pageCount newsz) pg m hlow hmap
  refine ⟨pg', m', ?_, ht, hres⟩
  have hge : ¬ newsz ≥ oldsz := by
    rw [ge_iff_le, BitVec.le_def]
    omega
  rw [deallocuvm, if_neg hge, firstPage_eq (by omega), bind_of_ok hrun]
  rfl

theorem allocPages_spec (hold : oldsz.toNat < newsz.toNat)
    (hnew : newsz.toNat ≤ KERNBASE) (n vpn : ℕ) (pg : Pgdir) (m : Phys) (hlow : 0 < m.lowest)
    (hstart : pageCount oldsz ≤ vpn) (hend : vpn + n = pageCount newsz)
    (hfree : ∀ f ∈ m.freelist, F f) (hval : ∀ f, F f → m.Valid f)
    (hmap : ∀ v e, pageCount oldsz ≤ v → v < vpn → pg.lookup v = some e → F e.frame)
    (hun : ∀ v, vpn ≤ v → v < pageCount newsz → pg.lookup v = none) :
    ∃ r pg' m', allocPages oldsz newsz n vpn pg m = .ok ((r, pg'), m') ∧ Touches F m m' ∧
      ((r = newsz ∧ (∀ v, vpn ≤ v → v < pageCount newsz → (pg'.lookup v).isSome = true) ∧
          ∀ v, ¬ (vpn ≤ v ∧ v < pageCount newsz) → pg'.lookup v = pg.lookup v) ∨
       (r = 0#32 ∧ ∀ v, pg'.lookup v =
          if pageCount oldsz ≤ v ∧ v < pageCount newsz then none else pg.lookup v)) := by
  induction n generalizing vpn pg m with
  | zero =>
    refine ⟨newsz, pg, m, rfl, .refl F m, .inl ⟨rfl, ?_, fun _ _ => rfl⟩⟩
    intro v h1 h2
    omega
  | succ n ih =>
    rw [allocPages]
    rcases kalloc_spec m with hk | ⟨mem, rest, hl, hk⟩
    · rw [bind_of_ok hk]
      obtain ⟨pg', m', hd, ht, hres⟩ := deallocuvm_spec F pg hold hnew hlow (by
        intro v e h1 h2 hv
        by_cases hlt : v < vpn
        · exact ⟨hmap v e h1 hlt hv, hval _ (hmap v e h1 hlt hv)⟩
        · rw [hun v (by omega) h2] at hv
          cases hv)
      refine ⟨0#32, pg', m', ?_, ht, .inr ⟨rfl, hres⟩⟩
      simp only
      rw [bind_of_ok hd]
      rfl
    · have hF : F mem := hfree mem (by rw [hl]; exact mem_cons_self)
      rw [bind_of_ok hk]
      simp only
      rw [bind_of_ok (memset_eq mem 0 _)]
      have ht1 := (pop_touches (F := F) hl).trans (memset_touches hF 0 _)
      obtain ⟨ok, pg1, m1, hm, ht2, hlook⟩ :=
        mappages_spec mem Perm.user (ht1.free hfree) (hun vpn (Nat.le_refl _) (by omega))
      have ht := ht1.trans ht2
      rw [bind_of_ok hm]
      cases ok with
      | true =>
        obtain ⟨r, pg', m', hrun, ht', hres⟩ := ih (vpn + 1) pg1 m1 (ht.lowest ▸ hlow) (by omega) (by omega)
          (ht.free hfree) (fun f hf => (ht.valid f).mpr (hval f hf))
          (by
            intro v e h1 h2 hv
            rw [hlook] at hv
            split at hv
            next => cases hv; exact hF
            next hne => exact hmap v e h1 (by simp only [true_and] at hne; omega) hv)
          (by
            intro v h1 h2
            rw [hlook, if_neg (by omega)]
            exact hun v (by omega) h2)
        refine ⟨r, pg', m', hrun, ht.trans ht', ?_⟩
        rcases hres with ⟨hr, hin, hout⟩ | ⟨hr, hall⟩
        · refine .inl ⟨hr, ?_, ?_⟩
          · intro v h1 h2
            by_cases hv : v = vpn
            · rw [hv, hout vpn (by omega), hlook]
              simp
            · exact hin v (by omega) h2
          · intro v hv
            rw [hout v (by omega), hlook, if_neg (by omega)]
        · refine .inr ⟨hr, ?_⟩
          intro v
          rw [hall, hlook]
          split_ifs <;> first | rfl | omega
      | false =>
        have hsame : ∀ v, pg1.lookup v = pg.lookup v := by simpa using hlook
        obtain ⟨pg2, m2, hd, ht3, hres⟩ := deallocuvm_spec F pg1 hold hnew (ht.lowest ▸ hlow) (by
          intro v e h1 h2 hv
          rw [hsame] at hv
          by_cases hlt : v < vpn
          · exact ⟨hmap v e h1 hlt hv, (ht.valid _).mpr (hval _ (hmap v e h1 hlt hv))⟩
          · rw [hun v (by omega) h2] at hv
            cases hv)
        have ht' := ht.trans ht3
        obtain ⟨m3, hk3, ht4⟩ := kfree_spec ((ht'.valid mem).mpr (hval mem hF)) hF
        refine ⟨0#32, pg2, m3, ?_, ht'.trans ht4, .inr ⟨rfl, ?_⟩⟩
        · simp only [Bool.false_eq_true, if_false]
          rw [bind_of_ok hd]
          simp only
          rw [bind_of_ok hk3]
          rfl
        · intro v
          rw [hres, hsame]

end Xv6.Vm
