import Xv6.Vm.Copying

/-! # The bytes of an address space

An address space as memory: what storing into a page, adding zero pages and taking a page
from user code make of its bytes and its pages.
-/
namespace Xv6.Vm

def Pgdir.image (pg : Pgdir) (m : Phys) : Mem := fun a => (pg.load m a).getD 0

theorem Pgdir.image_congr {pg : Pgdir}
    (h : ∀ v e, pg.lookup v = some e → m'.mem e.frame = m.mem e.frame) : pg.image m' = pg.image m := by
  funext x
  unfold image load
  cases he : pg.lookup (x / PGSIZE) with
  | none => simp
  | some => simp [h _ _ he]

/-- The pages are those of the user half, and no two of them have the same frame. -/
structure UserTable (pg : Pgdir) : Prop where
  low : ∀ v, USERPAGES ≤ v → pg.lookup v = none
  inj : ∀ v w e e', pg.lookup v = some e → pg.lookup w = some e' → e.frame = e'.frame → v = w

theorem Space.userTable (h : Space F pg loose m) : UserTable pg where
  low v hv := by
    have hpdx : NPDENTRIES / 2 ≤ pdx v := by
      simp only [pdx, USERPAGES, KERNBASE, PGSIZE, NPTENTRIES, NPDENTRIES] at *
      omega
    simp [Pgdir.lookup, h.low _ hpdx]
  inj _ _ _ _ he he' hf := h.page_inj he he' hf

/-- Bytes are stored from address `a` on, and nothing else is changed. -/
structure Stored (pg : Pgdir) (a : ℕ) (bs : List UInt8) (m m' : Phys) : Prop where
  image : pg.image m' = (pg.image m).write a bs
  rest : ∀ f, (∀ v e, pg.lookup v = some e → e.frame ≠ f) → m'.mem f = m.mem f
  freelist : m'.freelist = m.freelist
  lowest : m'.lowest = m.lowest

namespace Stored
variable {pg : Pgdir} {a : ℕ} {bs bs' : List UInt8} {m m₁ m' : Phys}

theorem nil (pg : Pgdir) (a : ℕ) (m : Phys) : Stored pg a [] m m := by
  refine ⟨?_, fun _ _ => rfl, rfl, rfl⟩
  rw [Mem.write_nil]

theorem append (h : Stored pg a bs m m₁) (h' : Stored pg (a + bs.length) bs' m₁ m') :
    Stored pg a (bs ++ bs') m m' := by
  refine ⟨?_, fun f hf => ?_, h'.freelist.trans h.freelist, h'.lowest.trans h.lowest⟩
  · rw [h'.image, h.image, Mem.write_append]
  · rw [h'.rest f hf, h.rest f hf]

theorem poke (hpg : UserTable pg) (he : pg.lookup v = some e) (hfit : off + bs.length ≤ PGSIZE)
    (m : Phys) : Stored pg (v * PGSIZE + off) bs m
      { m with mem := Function.update m.mem e.frame (Mem.write (m.mem e.frame) off bs) } := by
  refine ⟨?_, fun f hf => ?_, rfl, rfl⟩
  · funext x
    have hx := Nat.div_add_mod x PGSIZE
    have hmod : x % PGSIZE < PGSIZE := Nat.mod_lt x (by decide)
    by_cases hv : x / PGSIZE = v
    · have hinside : v * PGSIZE + off ≤ x ↔ off ≤ x % PGSIZE := by
        subst hv
        rw [Nat.mul_comm]
        omega
      have hindex : x - (v * PGSIZE + off) = x % PGSIZE - off := by
        subst hv
        rw [Nat.mul_comm]
        omega
      simp [Pgdir.image, Pgdir.load, hv, he, Mem.write, hinside, hindex]
    · have hout : x < v * PGSIZE + off ∨ v * PGSIZE + off + bs.length ≤ x := by
        rcases Nat.lt_or_gt_of_ne hv with hlt | hgt
        · have := Nat.mul_le_mul_left PGSIZE hlt
          rw [Nat.mul_comm v]
          simp only [Nat.succ_eq_add_one, Nat.mul_add] at this
          omega
        · have := Nat.mul_le_mul_left PGSIZE hgt
          rw [Nat.mul_comm v]
          simp only [Nat.succ_eq_add_one, Nat.mul_add] at this
          omega
      rw [Mem.write_outside hout]
      unfold Pgdir.image Pgdir.load
      cases he' : pg.lookup (x / PGSIZE) with
      | none => simp
      | some e' =>
        have hne : e'.frame ≠ e.frame := fun hf => hv (hpg.inj _ _ _ _ he' he hf)
        simp [hne]
  · have hne : f ≠ e.frame := fun h => hf v e he h.symm
    simp [hne]

end Stored

section Pages
variable {F loose : Set Frame} {pg pg' : Pgdir} {m m' : Phys} {a v : ℕ} {bs : List UInt8} {sz : Word}

theorem Stored.touches (hs : Stored pg a bs m m') (h : Space F pg loose m) : Touches (· ∈ F) m m' := by
  refine ⟨hs.lowest, fun f hf => hs.rest f fun v e he => ?_, fun hfree f hf => hfree f (hs.freelist ▸ hf)⟩
  rintro rfl
  exact hf (h.frame_mem he).1

theorem Space.congr (h : Space F pg loose m) (hfree : m'.freelist = m.freelist) (hlow : m'.lowest = m.lowest) :
    Space F pg loose m' := ⟨h.account.congr hfree hlow, h.low⟩

theorem Stored.space (hs : Stored pg a bs m m') (h : Space F pg loose m) :
    Space F pg loose m' := h.congr hs.freelist hs.lowest

/-- Exactly the pages below a size are mapped, all of them to user code. -/
def Sized (pg : Pgdir) (sz : Word) : Prop :=
  ∀ v, (pg.lookup v).map Pte.perm = if v < pageCount sz then some Perm.user else none

theorem Sized.above (h : Sized pg sz) (hv : pageCount sz ≤ v) : pg.lookup v = none := by
  have hperm := h v
  rw [if_neg (by omega)] at hperm
  simpa using hperm

theorem Sized.below (h : Sized pg sz) (hv : v < pageCount sz) :
    ∃ e, pg.lookup v = some e ∧ e.perm = Perm.user := by
  have hperm := h v
  rw [if_pos hv] at hperm
  simpa using hperm

theorem Grown.image (h : Space F pg loose m) (hg : Grown zeroPage a b pg m pg' m')
    (habove : ∀ v, a ≤ v → pg.lookup v = none) : pg'.image m' = pg.image m := by
  funext x
  unfold Pgdir.image Pgdir.load
  by_cases hx : a ≤ x / PGSIZE ∧ x / PGSIZE < b
  · have hfresh := hg.fresh _ hx.1 hx.2
    simp only [userPage, zeroPage, Option.map_eq_some_iff] at hfresh
    obtain ⟨e, he, hpage⟩ := hfresh
    have hzero : m'.mem e.frame = fun _ => 0 := congrArg Prod.snd hpage
    simp [he, hzero, habove _ hx.1]
  · rw [hg.rest _ hx]
    cases he : pg.lookup (x / PGSIZE) with
    | none => simp
    | some => simp [hg.draws.mem _ (h.frame_mem he).2]

theorem Grown.sized (hsz : Sized pg sz) (hle : pageCount sz ≤ pageCount r)
    (hg : Grown zeroPage (pageCount sz) (pageCount r) pg m pg' m') : Sized pg' r := by
  intro v
  by_cases hv : pageCount sz ≤ v ∧ v < pageCount r
  · have hfresh := hg.fresh _ hv.1 hv.2
    simp only [userPage, zeroPage, Option.map_eq_some_iff] at hfresh
    obtain ⟨e, he, hpage⟩ := hfresh
    have hperm : e.perm = Perm.user := congrArg Prod.fst hpage
    simp [he, hperm, hv.2]
  · rw [hg.rest _ hv, hsz v]
    by_cases hlt : v < pageCount sz
    · simp [hlt, Nat.lt_of_lt_of_le hlt hle]
    · rw [if_neg hlt, if_neg (by omega)]

theorem clearpteu_spec (h : Space F pg loose m) {uva : Word} {e : Pte} (he : pg.lookup (uva.toNat / PGSIZE) = some e) :
    ∃ pg', clearpteu pg uva m = .ok (pg', m) ∧ Space F pg' loose m ∧ pg'.image m = pg.image m ∧
      ∀ v, pg'.lookup v = if v = uva.toNat / PGSIZE then some { e with perm := { e.perm with u := false } }
        else pg.lookup v := by
  have ht := hasTable_of_lookup he
  refine ⟨pg.setPte (uva.toNat / PGSIZE) (some { e with perm := { e.perm with u := false } }), ?_, ?_, ?_,
    Pgdir.lookup_setPte ht _⟩
  · simp [clearpteu, ht, he]
  · refine ⟨?_, fun i hi => h.low_setPte _ hi⟩
    have hsame : Function.update pg.frameAt (.page (uva.toNat / PGSIZE)) (some e.frame) = pg.frameAt := by
      rw [Function.update_eq_self_iff]
      simp [Pgdir.frameAt, he]
    rw [Pgdir.frameAt_setPte ht, Option.map_some, hsame]
    exact h.account
  · funext x
    unfold Pgdir.image Pgdir.load
    rw [Pgdir.lookup_setPte ht]
    by_cases hx : x / PGSIZE = uva.toNat / PGSIZE
    · simp [hx, he]
    · simp [hx]

end Pages
end Xv6.Vm
