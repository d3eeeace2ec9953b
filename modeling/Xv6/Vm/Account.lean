import Mathlib.Order.BooleanAlgebra.Set
import Xv6.Lib.Ledger
import Xv6.Vm.Space

/-! # The frames of an address space

An account of physical memory: the frames of a set are on the free list, once each, or in
the hands of a function that has just taken them, or held in one place of a page directory,
which is the directory itself, a page table or a page. What `vm.c` allocates and frees keeps
the account, so no frame is lost and none is mapped twice.
-/
namespace Xv6.Vm
open Function

/-- Where a page directory holds a frame. -/
inductive Place
  | dir
  | kern (n : ℕ)
  | table (i : ℕ)
  | page (vpn : ℕ)
  deriving DecidableEq

def Pgdir.frameAt (pg : Pgdir) : Place → Option Frame
  | .dir => some pg.frame
  | .kern n => pg.kern[n]?
  | .table i => (pg.pde i).map PgTab.frame
  | .page vpn => (pg.lookup vpn).map Pte.frame

namespace Pgdir
variable {pg : Pgdir} {vpn : ℕ}

theorem frameAt_addTable (h : ¬ pg.HasTable vpn) (f : Frame) :
    (pg.addTable vpn f).frameAt = update pg.frameAt (.table (pdx vpn)) (some f) := by
  funext x
  cases x with
  | table i =>
    by_cases hi : i = pdx vpn
    · simp [frameAt, addTable, hi]
    · simp [frameAt, addTable, hi]
  | page v => simp [frameAt, lookup_addTable h f v]
  | _ => simp [frameAt, addTable]

theorem frameAt_setPte (h : pg.HasTable vpn) (e : Option Pte) :
    (pg.setPte vpn e).frameAt = update pg.frameAt (.page vpn) (e.map Pte.frame) := by
  funext x
  cases x with
  | table i =>
    by_cases hi : i = pdx vpn
    · simp [frameAt, setPte, hi, Option.map_map, Function.comp_def]
    · simp [frameAt, setPte, hi]
  | page v =>
    by_cases hv : v = vpn
    · simp [frameAt, lookup_setPte h, hv]
    · simp [frameAt, lookup_setPte h, hv]
  | _ => simp [frameAt, setPte]

theorem frameAt_kern (pg : Pgdir) (t : Frame) : ({ pg with kern := pg.kern ++ [t] } : Pgdir).frameAt =
    update pg.frameAt (.kern pg.kern.length) (some t) := by
  funext x
  cases x with
  | kern n =>
    rcases Nat.lt_trichotomy n pg.kern.length with hn | hn | hn
    · simp [frameAt, List.getElem?_append, hn, Nat.ne_of_lt hn]
    · simp [frameAt, hn]
    · have hout : (pg.kern ++ [t])[n]? = none := List.getElem?_eq_none (by simp; omega)
      simp [frameAt, hout, Nat.le_of_lt hn, Nat.ne_of_gt hn]
  | _ => simp [frameAt, lookup]

end Pgdir

/-- The frames of `F` are on the free list, loose, or in one place each. -/
structure Account (F : Set Frame) (own : Place → Option Frame) (loose : Set Frame) (m : Phys) : Prop where
  ledger : Ledger own loose Fᶜ { f | f ∉ m.freelist }
  nodup : m.freelist.Nodup
  valid : ∀ f ∈ F, m.Valid f
  lowest : 0 < m.lowest

/-- Frames are taken from the free list; what is not on it keeps its contents. -/
structure Draws (m m' : Phys) : Prop where
  lowest : m'.lowest = m.lowest
  free : ∀ f ∈ m'.freelist, f ∈ m.freelist
  mem : ∀ f, f ∉ m.freelist → m'.mem f = m.mem f

namespace Draws
variable {m m' m'' : Phys}

theorem refl (m : Phys) : Draws m m := ⟨rfl, fun _ => id, fun _ _ => rfl⟩

theorem trans (h : Draws m m') (h' : Draws m' m'') : Draws m m'' := by
  refine ⟨h'.lowest.trans h.lowest, fun f hf => h.free f (h'.free f hf), fun f hf => ?_⟩
  rw [h'.mem f fun hf' => hf (h.free f hf'), h.mem f hf]

theorem touches {F : Set Frame} (h : Draws m m') (hF : ∀ f ∈ m.freelist, f ∈ F) : Touches (· ∈ F) m m' :=
  ⟨h.lowest, fun f hf => h.mem f fun hfree => hf (hF f hfree), fun _ f hf => hF f (h.free f hf)⟩

end Draws

namespace Account
variable {F : Set Frame} {own : Place → Option Frame} {loose : Set Frame} {m m' : Phys} {f : Frame} {x : Place}

section
variable (h : Account F own loose m)
include h

theorem free_mem (hf : f ∈ m.freelist) : f ∈ F := by
  by_contra hF
  exact (h.ledger.used_iff f).mpr (.inl hF) hf

theorem own_mem (hx : own x = some f) : f ∈ F ∧ f ∉ m.freelist :=
  ⟨not_not.mp (h.ledger.held x f hx).1, h.ledger.used_of_own hx⟩

theorem loose_mem (hf : f ∈ loose) : f ∈ F ∧ f ∉ m.freelist :=
  ⟨not_not.mp (h.ledger.apart f hf), h.ledger.used_of_loose hf⟩

theorem congr (hfree : m'.freelist = m.freelist) (hlow : m'.lowest = m.lowest) : Account F own loose m' := by
  refine ⟨?_, hfree ▸ h.nodup, fun f hf => ?_, hlow ▸ h.lowest⟩
  · rw [hfree]
    exact h.ledger
  · simpa [Phys.Valid, hlow] using h.valid f hf

theorem pop (hl : m.freelist = f :: rest) : Account F own (insert f loose) { m with freelist := rest } := by
  have hnodup := h.nodup
  rw [hl, List.nodup_cons] at hnodup
  have hf : f ∉ { g | g ∉ m.freelist } := by simp [hl]
  refine ⟨(h.ledger.take hf).used_eq fun g => ?_, hnodup.2, h.valid, h.lowest⟩
  by_cases hg : g = f
  · simp [hg, hnodup.1]
  · simp [hg, hl]

theorem push {own' : Place → Option Frame} {loose' : Set Frame} (hf : f ∈ F)
    (hfree : f ∉ m.freelist) (hledger : Ledger own' loose' Fᶜ ({ g | g ∉ m.freelist } \ {f})) :
    ∃ m', kfree f m = .ok ((), m') ∧ Account F own' loose' m' ∧ Touches (· ∈ F) m m' := by
  obtain ⟨m', hrun, htouch⟩ := kfree_spec (F := (· ∈ F)) (h.valid f hf) hf
  refine ⟨m', hrun, ?_, htouch⟩
  rw [kfree, if_pos (h.valid f hf)] at hrun
  cases hrun
  refine ⟨hledger.used_eq fun g => ?_, List.nodup_cons.mpr ⟨hfree, h.nodup⟩, h.valid, h.lowest⟩
  simp [and_comm]

theorem kfree_loose (hf : f ∈ loose) :
    ∃ m', kfree f m = .ok ((), m') ∧ Account F own (loose \ {f}) m' ∧ Touches (· ∈ F) m m' :=
  h.push (h.loose_mem hf).1 (h.loose_mem hf).2 (h.ledger.drop hf)

theorem kfree_own (hx : own x = some f) :
    ∃ m', kfree f m = .ok ((), m') ∧ Account F (update own x none) loose m' ∧ Touches (· ∈ F) m m' :=
  h.push (h.own_mem hx).1 (h.own_mem hx).2 (h.ledger.release hx)

theorem attach (hf : f ∈ loose) (hx : own x = none) : Account F (update own x (some f)) (loose \ {f}) m :=
  ⟨h.ledger.attach hf hx, h.nodup, h.valid, h.lowest⟩

end

/-- Where nothing is held, all frames of the set are free. -/
theorem free_iff (h : Account F (fun _ => none) ∅ m) (f : Frame) : f ∈ m.freelist ↔ f ∈ F := by
  refine ⟨h.free_mem, fun hf => ?_⟩
  by_contra hfree
  rcases (h.ledger.used_iff f).mp hfree with hF | hempty | ⟨x, hx⟩
  · exact hF hf
  · exact hempty
  · cases hx

theorem of_free (hnodup : m.freelist.Nodup) (hvalid : ∀ f ∈ m.freelist, m.Valid f) (hlow : 0 < m.lowest) :
    Account { f | f ∈ m.freelist } (fun _ => none) ∅ m where
  ledger := by constructor <;> simp
  nodup := hnodup
  valid := hvalid
  lowest := hlow

end Account

theorem Draws.take (hl : m.freelist = f :: rest) (page : Page) :
    Draws m { m with freelist := rest, mem := update m.mem f page } := by
  refine ⟨rfl, fun g hg => ?_, fun g hg => ?_⟩
  · simpa [hl] using Or.inr hg
  · have hne : g ≠ f := by
      rintro rfl
      simp [hl] at hg
    simp [hne]

/-- The account of the frames that a page directory holds; only its user half has tables
of its own. -/
structure Space (F : Set Frame) (pg : Pgdir) (loose : Set Frame) (m : Phys) : Prop where
  account : Account F pg.frameAt loose m
  low : ∀ i, NPDENTRIES / 2 ≤ i → pg.pde i = none

def USERPAGES : ℕ := KERNBASE / PGSIZE

theorem pdx_lt (h : vpn < USERPAGES) : pdx vpn < NPDENTRIES / 2 := by
  simp only [pdx, USERPAGES, KERNBASE, PGSIZE, NPTENTRIES, NPDENTRIES] at *
  omega

namespace Space
variable {F loose : Set Frame} {pg pg' : Pgdir} {m m' : Phys} {f : Frame} {vpn : ℕ}

section
variable (h : Space F pg loose m)
include h

theorem take (hl : m.freelist = f :: rest) (page : Page) :
    Space F pg (insert f loose) { m with freelist := rest, mem := update m.mem f page } :=
  ⟨(h.account.pop hl).congr rfl rfl, h.low⟩

theorem addTable (hf : f ∈ loose) (ht : ¬ pg.HasTable vpn) (hv : vpn < USERPAGES) :
    Space F (pg.addTable vpn f) (loose \ {f}) m := by
  refine ⟨?_, fun i hi => ?_⟩
  · rw [Pgdir.frameAt_addTable ht]
    refine h.account.attach hf ?_
    simpa [Pgdir.frameAt, Pgdir.HasTable] using ht
  · have hne : i ≠ pdx vpn := by
      have := pdx_lt hv
      omega
    simpa [Pgdir.addTable, hne] using h.low i hi

theorem low_setPte (e : Option Pte) (hi : NPDENTRIES / 2 ≤ i) : (pg.setPte vpn e).pde i = none := by
  by_cases hd : i = pdx vpn
  · simp [Pgdir.setPte, ← hd, h.low i hi]
  · simp [Pgdir.setPte, hd, h.low i hi]

theorem setPte (hf : f ∈ loose) (ht : pg.HasTable vpn) (hun : pg.lookup vpn = none)
    (perm : Perm) : Space F (pg.setPte vpn (some ⟨f, perm⟩)) (loose \ {f}) m := by
  refine ⟨?_, fun i hi => h.low_setPte _ hi⟩
  rw [Pgdir.frameAt_setPte ht]
  exact h.account.attach hf (by simp [Pgdir.frameAt, hun])

theorem frame_mem (he : pg.lookup vpn = some e) : e.frame ∈ F ∧ e.frame ∉ m.freelist :=
  h.account.own_mem (x := .page vpn) (by simp [Pgdir.frameAt, he])

theorem page_inj (he : pg.lookup v = some e)
    (he' : pg.lookup w = some e') (hf : e.frame = e'.frame) : v = w := by
  have hplace := h.account.ledger.single (.page v) (.page w) e.frame (by simp [Pgdir.frameAt, he])
    (by simp [Pgdir.frameAt, he', hf])
  exact Place.page.inj hplace

theorem walkpgdir_spec (hv : vpn < USERPAGES) :
    ∃ found pg' m', walkpgdir pg vpn true m = .ok ((found, pg'), m') ∧ Space F pg' loose m' ∧ Draws m m' ∧
      (∀ v, pg'.lookup v = pg.lookup v) ∧ (found = true → pg'.HasTable vpn) := by
  unfold walkpgdir
  by_cases ht : pg.HasTable vpn
  · exact ⟨true, pg, m, by simp [ht], h, .refl m, fun _ => rfl, fun _ => ht⟩
  simp only [if_neg ht, if_true]
  rcases kalloc_spec m with hk | ⟨f, rest, hl, hk⟩
  · refine ⟨false, pg, m, ?_, h, .refl m, fun _ => rfl, by simp⟩
    rw [Comp.bind_of_ok hk]
    rfl
  · have hloose : f ∉ loose := fun hf => (h.account.loose_mem hf).2 (by simp [hl])
    have htable := (h.take hl fun _ => 0).addTable (Set.mem_insert f loose) ht hv
    rw [Set.insert_sdiff_self_of_notMem hloose] at htable
    refine ⟨true, pg.addTable vpn f, _, ?_, htable, Draws.take hl _, Pgdir.lookup_addTable ht f,
      fun _ => pg.hasTable_addTable vpn f⟩
    rw [Comp.bind_of_ok hk]
    rfl

theorem mappages_spec (hv : vpn < USERPAGES) (hf : f ∈ loose) (hun : pg.lookup vpn = none) (perm : Perm) :
    ∃ ok pg' m', mappages 1 pg vpn f perm m = .ok ((ok, pg'), m') ∧ Draws m m' ∧
      Space F pg' (if ok = true then loose \ {f} else loose) m' ∧
      ∀ v, pg'.lookup v = if ok = true ∧ v = vpn then some ⟨f, perm⟩ else pg.lookup v := by
  obtain ⟨found, pg', m', hw, hspace, hdraws, hlook, htab⟩ := h.walkpgdir_spec hv
  unfold mappages
  rw [Comp.bind_of_ok hw]
  cases found with
  | false => exact ⟨false, pg', m', rfl, hdraws, hspace, by simpa using hlook⟩
  | true =>
    have hnone : pg'.lookup vpn = none := by rw [hlook, hun]
    refine ⟨true, pg'.setPte vpn (some ⟨f, perm⟩), m', ?_, hdraws, hspace.setPte hf (htab rfl) hnone perm, ?_⟩
    · simp [hnone, mappages]
    · intro v
      rw [Pgdir.lookup_setPte (htab rfl), hlook]
      simp

end

theorem of_frames (hsingle : ∀ x y f, pg.frameAt x = some f → pg.frameAt y = some f → x = y)
    (hused : ∀ x f, pg.frameAt x = some f → f ∉ m.freelist) (hnodup : m.freelist.Nodup)
    (hvalid : ∀ f, f ∈ m.freelist ∨ (∃ x, pg.frameAt x = some f) → m.Valid f) (hlowest : 0 < m.lowest)
    (hlow : ∀ i, NPDENTRIES / 2 ≤ i → pg.pde i = none) :
    Space { f | f ∈ m.freelist ∨ ∃ x, pg.frameAt x = some f } pg ∅ m := by
  refine ⟨⟨⟨fun f => ?_, hsingle, fun x f hx => ⟨fun hno => hno (.inr ⟨x, hx⟩), fun hno => hno⟩,
    fun f hf => hf.elim⟩, hnodup, hvalid, hlowest⟩, hlow⟩
  simp only [Set.mem_setOf_eq, Set.mem_compl_iff, Set.mem_empty_iff_false, false_or, not_or]
  constructor
  · intro hf
    by_cases hx : ∃ x, pg.frameAt x = some f
    · exact .inr hx
    · exact .inl ⟨hf, hx⟩
  · rintro (⟨hf, -⟩ | ⟨x, hx⟩)
    · exact hf
    · exact hused x f hx

theorem after_others (h : Space F pg ∅ m) (ht : Touches (· ∈ m.freelist) m m') (hnodup : m'.freelist.Nodup) :
    Space { f | f ∈ m'.freelist ∨ ∃ x, pg.frameAt x = some f } pg ∅ m' := by
  have hsub : ∀ f ∈ m'.freelist, f ∈ m.freelist := ht.free fun _ hf => hf
  refine of_frames h.account.ledger.single (fun x f hx hf => (h.account.own_mem hx).2 (hsub f hf)) hnodup
    (fun f hf => ?_) (ht.lowest ▸ h.account.lowest) h.low
  rw [ht.valid]
  rcases hf with hf | ⟨x, hx⟩
  · exact h.account.valid f (h.account.free_mem (hsub f hf))
  · exact h.account.valid f (h.account.own_mem hx).1

end Space
end Xv6.Vm
