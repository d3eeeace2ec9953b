import Mathlib.Data.List.Nodup
import Xv6.Vm.Account

/-! # Growing, building and freeing address spaces

The functions of `vm.c` that allocate and free many frames, over the account of frames.
They always return; one that fails has given back what it took.
-/
namespace Xv6.Vm
open Function Comp Pgdir Touches

namespace Space
variable {F loose : Set Frame} {pg pg' : Pgdir} {m m' : Phys} {vpn : ℕ}

theorem visitPages (h : Space F pg loose m) (hr : visitPages n vpn pg m = .ok (pg', m')) : Space F pg' loose m' := by
  induction n generalizing vpn pg m with
  | zero =>
    cases hr
    exact h
  | succ n ih =>
    cases hlook : pg.lookup vpn with
    | none =>
      rw [visitPages_none hlook] at hr
      exact ih h hr
    | some e =>
      by_cases hzero : e.frame = 0
      · simp [Vm.visitPages, hlook, hzero] at hr
      have hplace : pg.frameAt (.page vpn) = some e.frame := by simp [frameAt, hlook]
      obtain ⟨m₁, hfree, haccount, -⟩ := h.account.kfree_own hplace
      rw [visitPages_some hlook hzero, bind_of_ok hfree] at hr
      refine ih ⟨?_, fun i hi => h.low_setPte none hi⟩ hr
      rw [frameAt_setPte (hasTable_of_lookup hlook)]
      exact haccount

theorem deallocuvm (h : Space F pg loose m)
    (hr : deallocuvm pg oldsz newsz m = .ok ((r, pg'), m')) : Space F pg' loose m' := by
  unfold Vm.deallocuvm at hr
  split at hr
  · cases hr
    exact h
  · obtain ⟨pg₁, m₁, hpages, hr⟩ := bind_eq_ok.mp hr
    cases hr
    rw [deallocPages_eq] at hpages
    exact h.visitPages hpages

theorem deallocuvm_spec (h : Space F pg loose m) {oldsz newsz : Word} (hlt : newsz.toNat < oldsz.toNat)
    (hold : oldsz.toNat ≤ KERNBASE) :
    ∃ pg' m', Vm.deallocuvm pg oldsz newsz m = .ok ((newsz, pg'), m') ∧ Space F pg' loose m' ∧
      Touches (· ∈ F) m m' ∧
      ∀ v, pg'.lookup v = if pageCount newsz ≤ v ∧ v < pageCount oldsz then none else pg.lookup v := by
  obtain ⟨pg', m', hrun, htouch, hlook⟩ := Vm.deallocuvm_spec (· ∈ F) pg hlt hold h.account.lowest
    fun v e _ _ he => ⟨(h.frame_mem he).1, h.account.valid _ (h.frame_mem he).1⟩
  exact ⟨pg', m', hrun, h.deallocuvm hrun, htouch, hlook⟩

end Space

/-- The pages from `a` to `b` are new and as `what` says; nothing else is changed. -/
structure Grown (what : ℕ → Option (Perm × Page)) (a b : ℕ) (pg : Pgdir) (m : Phys) (pg' : Pgdir) (m' : Phys) :
    Prop where
  fresh : ∀ v, a ≤ v → v < b → userPage pg' m' v = what v
  rest : ∀ v, ¬ (a ≤ v ∧ v < b) → pg'.lookup v = pg.lookup v
  draws : Draws m m'

namespace Grown
variable {what : ℕ → Option (Perm × Page)} {a b : ℕ} {pg pg₁ pg' : Pgdir} {m m₁ m' : Phys}

theorem refl (what : ℕ → Option (Perm × Page)) (a : ℕ) (pg : Pgdir) (m : Phys) : Grown what a a pg m pg m :=
  ⟨fun v h1 h2 => by omega, fun _ _ => rfl, .refl m⟩

theorem cons (hab : a < b) (hlook : ∀ v, pg₁.lookup v = if v = a then some e else pg.lookup v)
    (hpage : what a = some (e.perm, m₁.mem e.frame)) (hused : e.frame ∉ m₁.freelist) (hdraws : Draws m m₁)
    (h : Grown what (a + 1) b pg₁ m₁ pg' m') : Grown what a b pg m pg' m' := by
  refine ⟨fun v h1 h2 => ?_, fun v hv => ?_, hdraws.trans h.draws⟩
  · by_cases hv : v = a
    · subst hv
      have hlook' : pg'.lookup v = some e := by rw [h.rest v (by omega), hlook, if_pos rfl]
      simp [userPage, hlook', hpage, h.draws.mem _ hused]
    · exact h.fresh v (by omega) h2
  · rw [h.rest v (by omega), hlook, if_neg (by omega)]

end Grown

/-- What `allocuvm` makes of its pages. -/
def zeroPage (_ : ℕ) : Option (Perm × Page) := some (Perm.user, fun _ => 0)

variable {n : ℕ} {m : Phys} {F : Set Frame} {pg : Pgdir}

namespace Space
variable {F loose : Set Frame} {pg pg' : Pgdir} {m m' : Phys} {vpn : ℕ} {oldsz newsz r : Word}

theorem allocPages (h : Space F pg ∅ m) (hend : vpn + n ≤ USERPAGES)
    (hun : ∀ v, vpn ≤ v → v < vpn + n → pg.lookup v = none)
    (hr : allocPages oldsz newsz n vpn pg m = .ok ((r, pg'), m')) :
    Space F pg' ∅ m' ∧ (r = 0#32 ∨ r = newsz ∧ Grown zeroPage vpn (vpn + n) pg m pg' m') := by
  induction n generalizing vpn pg m with
  | zero =>
    cases hr
    exact ⟨h, .inr ⟨rfl, .refl _ vpn _ _⟩⟩
  | succ n ih =>
    rw [Vm.allocPages] at hr
    rcases kalloc_spec m with hk | ⟨f, rest, hl, hk⟩
    · rw [bind_of_ok hk] at hr
      obtain ⟨⟨_, pg₁⟩, m₁, hdealloc, hr⟩ := bind_eq_ok.mp hr
      cases hr
      exact ⟨h.deallocuvm hdealloc, .inl rfl⟩
    rw [bind_of_ok hk] at hr
    simp only at hr
    rw [bind_of_ok (memset_eq f 0 _)] at hr
    have htake := h.take hl fun _ => 0
    obtain ⟨ok, pg₁, m₁, hmap, hdraws, hspace, hlook⟩ :=
      htake.mappages_spec (by omega) (Set.mem_insert f ∅) (hun vpn le_rfl (by omega)) Perm.user
    have hused : f ∉ rest := (htake.account.loose_mem (Set.mem_insert f ∅)).2
    rw [bind_of_ok hmap] at hr
    cases ok with
    | true =>
      rw [if_pos rfl, Set.insert_sdiff_self_of_notMem (Set.notMem_empty f)] at hspace
      simp only [true_and] at hlook
      obtain ⟨hspace', hres⟩ := ih hspace (by omega) (fun v h1 h2 => by
        rw [hlook, if_neg (by omega)]
        exact hun v (by omega) (by omega)) hr
      refine ⟨hspace', hres.imp_right fun hall => ⟨hall.1, ?_⟩⟩
      have hgrown := hall.2
      rw [Nat.add_assoc, Nat.add_comm 1] at hgrown
      refine hgrown.cons (by omega) hlook ?_ (fun hf => hused (hdraws.free f hf)) ((Draws.take hl _).trans hdraws)
      simp [zeroPage, hdraws.mem f hused]
    | false =>
      obtain ⟨⟨_, pg2⟩, m2, hdealloc, hr⟩ := bind_eq_ok.mp hr
      have hspace2 := hspace.deallocuvm hdealloc
      obtain ⟨m3, hfree, haccount, -⟩ := hspace2.account.kfree_loose (Set.mem_insert f ∅)
      simp only at hr
      rw [bind_of_ok hfree] at hr
      cases hr
      rw [if_neg (by simp), Set.insert_sdiff_self_of_notMem (Set.notMem_empty f)] at haccount
      exact ⟨⟨haccount, hspace2.low⟩, .inl rfl⟩

theorem allocuvm_spec (h : Space F pg ∅ m) (hold : oldsz.toNat ≤ KERNBASE)
    (habove : ∀ v, pageCount oldsz ≤ v → pg.lookup v = none) :
    ∃ r pg' m', allocuvm pg oldsz newsz m = .ok ((r, pg'), m') ∧ Space F pg' ∅ m' ∧ Touches (· ∈ F) m m' ∧
      (r = 0#32 ∨ r.toNat = max oldsz.toNat newsz.toNat ∧ newsz.toNat < KERNBASE ∧
        Grown zeroPage (pageCount oldsz) (pageCount r) pg m pg' m') := by
  unfold allocuvm
  by_cases hbig : newsz.toNat ≥ KERNBASE
  · rw [if_pos hbig]
    exact ⟨0#32, pg, m, rfl, h, refl _ m, .inl rfl⟩
  rw [if_neg hbig]
  by_cases hless : newsz < oldsz
  · rw [if_pos hless]
    rw [BitVec.lt_def] at hless
    exact ⟨oldsz, pg, m, rfl, h, refl _ m, .inr ⟨by omega, by omega, .refl _ _ pg m⟩⟩
  rw [if_neg hless, firstPage_eq hold]
  rw [BitVec.lt_def] at hless
  have hpages := pageCount_mono (a := oldsz) (b := newsz) (by omega)
  have huser : pageCount newsz ≤ USERPAGES := by
    simp only [pageCount, USERPAGES, KERNBASE, PGSIZE] at *
    omega
  have hrun : ∃ r pg' m', Vm.allocPages oldsz newsz (pageCount newsz - pageCount oldsz) (pageCount oldsz) pg m =
      .ok ((r, pg'), m') ∧ Touches (· ∈ F) m m' := by
    by_cases heq : oldsz.toNat = newsz.toNat
    · have hn : pageCount newsz - pageCount oldsz = 0 := by simp [pageCount, heq]
      rw [hn]
      exact ⟨newsz, pg, m, rfl, refl _ m⟩
    · have hlt : oldsz.toNat < newsz.toNat := by omega
      have hnew : newsz.toNat ≤ KERNBASE := by omega
      obtain ⟨r, pg', m', hrun, htouch, -⟩ := allocPages_spec (F := (· ∈ F)) hlt hnew
        (pageCount newsz - pageCount oldsz) (pageCount oldsz) pg m h.account.lowest le_rfl (by omega)
        (fun f hf => h.account.free_mem hf) h.account.valid (fun v _ h1 h2 => by omega)
        (fun v hv _ => habove v hv)
      exact ⟨r, pg', m', hrun, htouch⟩
  obtain ⟨r, pg', m', hrun, htouch⟩ := hrun
  obtain ⟨hspace, hres⟩ := h.allocPages (by omega) (fun v hv _ => habove v hv) hrun
  refine ⟨r, pg', m', hrun, hspace, htouch, hres.imp_right fun hall => ?_⟩
  obtain ⟨rfl, hgrown⟩ := hall
  rw [Nat.add_sub_cancel' hpages] at hgrown
  exact ⟨by omega, by omega, hgrown⟩

end Space

theorem freeFrames_spec {F loose : Set Frame} {own : Place → Option Frame} {places : List Place}
    (hnodup : places.Nodup) (h : Account F own loose m) :
    ∃ m', freeFrames (places.filterMap own) m = .ok ((), m') ∧ Touches (· ∈ F) m m' ∧
      Account F (fun x => if x ∈ places then none else own x) loose m' := by
  induction places generalizing own m with
  | nil => exact ⟨m, rfl, refl _ m, by simpa using h⟩
  | cons x places ih =>
    obtain ⟨hx, hnodup⟩ := List.nodup_cons.mp hnodup
    cases hown : own x with
    | none =>
      obtain ⟨m', hrun, htouch, haccount⟩ := ih hnodup h
      refine ⟨m', ?_, htouch, ?_⟩
      · rw [List.filterMap_cons_none hown]
        exact hrun
      · convert haccount using 2 with y
        by_cases hy : y = x
        · simp [hy, hown]
        · simp [hy]
    | some =>
      obtain ⟨m₁, hfree, h1, htouch1⟩ := h.kfree_own hown
      obtain ⟨m', hrun, htouch, haccount⟩ := ih hnodup h1
      refine ⟨m', ?_, htouch1.trans htouch, ?_⟩
      · have hsame : places.filterMap (update own x none) = places.filterMap own := by
          refine List.filterMap_congr fun y hy => update_of_ne ?_ _ _
          rintro rfl
          exact hx hy
        rw [List.filterMap_cons_some hown, freeFrames, bind_of_ok hfree, ← hsame]
        exact hrun
      · convert haccount using 2 with y
        by_cases hy : y = x
        · simp [hy]
        · simp [hy]

theorem filterMap_getElem_range {α : Type} (l : List α) : (List.range l.length).filterMap (fun n => l[n]?) = l := by
  have hmap : (List.range l.length).map (fun n => l[n]?) = l.map some := by
    apply List.ext_getElem
    · simp
    · intro n h1 h2
      simp
  calc (List.range l.length).filterMap (fun n => l[n]?)
      = ((List.range l.length).map fun n => l[n]?).filterMap id := by rw [List.filterMap_map, Function.id_comp]
    _ = l := by rw [hmap, List.filterMap_map, Function.id_comp, List.filterMap_some]

/-- A page directory without pages, once its tables and the directory itself are freed. -/
theorem freeTables_spec (h : Space F pg ∅ m) (hempty : ∀ v, pg.lookup v = none) : ∃ m', (do
      freeFrames ((List.range (NPDENTRIES / 2)).filterMap fun i => (pg.pde i).map PgTab.frame)
      freeFrames pg.kern
      kfree pg.frame) m = .ok ((), m') ∧ Touches (· ∈ F) m m' ∧ Account F (fun _ => none) ∅ m' := by
  have htables : ((List.range (NPDENTRIES / 2)).filterMap fun i => (pg.pde i).map PgTab.frame) =
      ((List.range (NPDENTRIES / 2)).map Place.table).filterMap pg.frameAt := by
    rw [List.filterMap_map]
    rfl
  have hnodup : ((List.range (NPDENTRIES / 2)).map Place.table).Nodup :=
    List.Nodup.map (fun _ _ => Place.table.inj) List.nodup_range
  have hnodup' : ((List.range pg.kern.length).map Place.kern).Nodup :=
    List.Nodup.map (fun _ _ => Place.kern.inj) List.nodup_range
  obtain ⟨m₁, hrun1, htouch1, h1⟩ := freeFrames_spec hnodup h.account
  have hkern : pg.kern = ((List.range pg.kern.length).map Place.kern).filterMap
      (fun x => if x ∈ (List.range (NPDENTRIES / 2)).map Place.table then none else pg.frameAt x) := by
    rw [List.filterMap_map]
    refine (filterMap_getElem_range pg.kern).symm.trans (List.filterMap_congr fun n _ => ?_)
    simp [frameAt]
  obtain ⟨m2, hrun2, htouch2, h2⟩ := freeFrames_spec hnodup' h1
  obtain ⟨m3, hrun3, h3, htouch3⟩ := h2.kfree_own (x := .dir) (f := pg.frame) (by simp [frameAt])
  refine ⟨m3, ?_, htouch1.trans (htouch2.trans htouch3), ?_⟩
  · rw [htables, bind_of_ok hrun1]
    rw [hkern]
    rw [bind_of_ok hrun2]
    exact hrun3
  · convert h3 using 2 with x
    cases x with
    | dir => simp
    | kern n =>
      by_cases hn : n < pg.kern.length
      · simp [hn]
      · simp [hn, frameAt]
    | table i =>
      by_cases hi : i < NPDENTRIES / 2
      · simp [hi]
      · simp [frameAt, h.low i (Nat.le_of_not_lt hi)]
    | page v => simp [frameAt, hempty v]

theorem freevm_spec (h : Space F pg ∅ m) :
    ∃ m', freevm pg m = .ok ((), m') ∧ Touches (· ∈ F) m m' ∧ Account F (fun _ => none) ∅ m' := by
  have hlt : (0#32).toNat < (BitVec.ofNat 32 KERNBASE).toNat := by decide
  obtain ⟨pg₁, m₁, hrun1, h1, htouch1, hlook⟩ := h.deallocuvm_spec hlt (by decide)
  have hempty (v : ℕ) : pg₁.lookup v = none := by
    by_cases hv : v < USERPAGES
    · rw [hlook, if_pos ⟨Nat.zero_le v, hv⟩]
    · have hpdx : NPDENTRIES / 2 ≤ pdx v := by
        simp only [pdx, USERPAGES, KERNBASE, PGSIZE, NPTENTRIES, NPDENTRIES] at *
        omega
      simp [lookup, h1.low _ hpdx]
  obtain ⟨m2, hrun2, htouch2, h2⟩ := freeTables_spec h1 hempty
  refine ⟨m2, ?_, htouch1.trans htouch2, h2⟩
  rw [freevm, bind_of_ok hrun1]
  exact hrun2

theorem mapKernel_spec (h : Space F pg ∅ m) (hnone : ∀ i, pg.pde i = none) :
    ∃ r m', mapKernel n pg m = .ok (r, m') ∧ Touches (· ∈ F) m m' ∧
      (r = none ∧ Account F (fun _ => none) ∅ m' ∨
        ∃ pg', r = some pg' ∧ Space F pg' ∅ m' ∧ Draws m m' ∧ ∀ i, pg'.pde i = none) := by
  induction n generalizing pg m with
  | zero => exact ⟨some pg, m, rfl, refl _ m, .inr ⟨pg, rfl, h, .refl m, hnone⟩⟩
  | succ n ih =>
    rw [mapKernel]
    rcases kalloc_spec m with hk | ⟨t, rest, hl, hk⟩
    · obtain ⟨m', hfree, htouch, haccount⟩ := freevm_spec h
      refine ⟨none, m', ?_, htouch, .inl ⟨rfl, haccount⟩⟩
      rw [bind_of_ok hk]
      simp only
      rw [bind_of_ok hfree]
      rfl
    · have htake := h.take hl fun _ => 0
      have hdraws := Draws.take hl fun _ => 0
      have hnext : Space F { pg with kern := pg.kern ++ [t] } ∅
          { m with freelist := rest, mem := update m.mem t fun _ => 0 } := by
        refine ⟨?_, h.low⟩
        rw [frameAt_kern]
        have hattach := htake.account.attach (x := .kern pg.kern.length) (Set.mem_insert t ∅) (by simp [frameAt])
        rwa [Set.insert_sdiff_self_of_notMem (Set.notMem_empty t)] at hattach
      obtain ⟨r, m', hrun, htouch, hres⟩ := ih hnext hnone
      refine ⟨r, m', ?_, (hdraws.touches fun f hf => h.account.free_mem hf).trans htouch, hres.imp_right ?_⟩
      · rw [bind_of_ok hk]
        simp only
        rw [bind_of_ok (memset_eq t 0 _)]
        exact hrun
      · rintro ⟨pg', hr, hspace, hdraws', hpde⟩
        exact ⟨pg', hr, hspace, hdraws.trans hdraws', hpde⟩

/-- `setupkvm` returns: a directory without user pages, or nothing and all frames are free
again. -/
theorem setupkvm_spec (h : Account F (fun _ => none) ∅ m) :
    ∃ r m', setupkvm m = .ok (r, m') ∧ Touches (· ∈ F) m m' ∧ (r = none ∧ Account F (fun _ => none) ∅ m' ∨
        ∃ pg, r = some pg ∧ Space F pg ∅ m' ∧ Draws m m' ∧ ∀ v, pg.lookup v = none) := by
  rw [setupkvm]
  rcases kalloc_spec m with hk | ⟨f, rest, hl, hk⟩
  · refine ⟨none, m, ?_, refl _ m, .inl ⟨rfl, h⟩⟩
    rw [bind_of_ok hk]
    rfl
  · have hdraws := Draws.take hl fun _ => 0
    have hstart : Space F ⟨f, [], fun _ => none⟩ ∅
        { m with freelist := rest, mem := update m.mem f fun _ => 0 } := by
      have hframe : frameAt ⟨f, [], fun _ => none⟩ = update (fun _ => none) .dir (some f) := by
        funext x
        cases x <;> simp [frameAt, lookup]
      refine ⟨?_, fun _ _ => rfl⟩
      have hattach := (h.pop hl).attach (x := .dir) (Set.mem_insert f ∅) rfl
      rw [Set.insert_sdiff_self_of_notMem (Set.notMem_empty f), ← hframe] at hattach
      exact hattach.congr rfl rfl
    obtain ⟨r, m', hrun, htouch, hres⟩ := mapKernel_spec (n := KERNTABLES) hstart fun _ => rfl
    refine ⟨r, m', ?_, (hdraws.touches fun g hg => h.free_mem hg).trans htouch, hres.imp_right ?_⟩
    · rw [bind_of_ok hk]
      simp only
      rw [bind_of_ok (memset_eq f 0 _)]
      exact hrun
    · rintro ⟨pg, hr, hspace, hdraws', hpde⟩
      exact ⟨pg, hr, hspace, hdraws.trans hdraws', fun v => by simp [lookup, hpde]⟩

end Xv6.Vm
