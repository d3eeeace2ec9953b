import Xv6.Proc.Table
import Xv6.Vm.Uvm

/-! # Growing a process

`growproc` adds a signed amount to an unsigned size and reads 0 both as an error
of `allocuvm` and `deallocuvm` and as a size. The address spaces it is run on are
those of the running kernel: exactly the pages below the rounded size are mapped,
to frames that are not on the free list.
-/
namespace Xv6
open Vm Comp

/-- Grow the process's memory by `n` bytes; the second component is the process
after the call, its page directory included. -/
def growproc (curproc : Proc) (n : Word) : Comp Phys (ℤ × Proc) :=
  let sz := curproc.sz
  let limit := curproc.limit
  if n.toInt > 0 then
    if sz + n ≤ limit ∨ limit = 0#32 then do
      let (sz, pgdir) ← allocuvm curproc.pgdir sz (sz + n)
      if sz = 0#32 then pure (-1, { curproc with pgdir := pgdir })
      else pure (0, { curproc with sz := sz, pgdir := pgdir })
    else pure (-1, curproc)
  else if n.toInt < 0 then do
    let (sz, pgdir) ← deallocuvm curproc.pgdir sz (sz + n)
    if sz = 0#32 then pure (-1, { curproc with pgdir := pgdir })
    else pure (0, { curproc with sz := sz, pgdir := pgdir })
  else pure (0, curproc)

/-- Only the size and the pages change, and the size stays within a limit. -/
theorem growproc_eq_ok (h : growproc curproc n m = .ok ((r, p'), m')) :
    ∃ sz pg, p' = { curproc with sz := sz, pgdir := pg } ∧
      (sz ≤ curproc.sz ∨ curproc.limit = 0 ∨ sz ≤ curproc.limit) := by
  have hfail (pg : Pgdir) : ∃ sz pg', ({ curproc with pgdir := pg } : Proc) =
      { curproc with sz := sz, pgdir := pg' } ∧
      (sz ≤ curproc.sz ∨ curproc.limit = 0 ∨ sz ≤ curproc.limit) :=
    ⟨curproc.sz, pg, rfl, .inl (BitVec.le_refl _)⟩
  unfold growproc at h
  dsimp only at h
  split at h
  · split at h
    case isTrue hlimit =>
      obtain ⟨⟨sz, pg⟩, m1, halloc, h⟩ := bind_eq_ok.mp h
      dsimp only at h
      split at h
      case isTrue =>
        cases h
        exact hfail pg
      case isFalse hne =>
        cases h
        refine ⟨sz, pg, rfl, ?_⟩
        rcases allocuvm_size halloc with h0 | rfl | rfl
        · exact absurd h0 hne
        · exact .inr hlimit.symm
        · exact .inl (BitVec.le_refl _)
    case isFalse =>
      cases h
      exact hfail curproc.pgdir
  · split at h
    · obtain ⟨⟨sz, pg⟩, m1, hdealloc, h⟩ := bind_eq_ok.mp h
      dsimp only at h
      split at h
      · cases h
        exact hfail pg
      · cases h
        exact ⟨sz, pg, rfl, .inl (deallocuvm_size hdealloc)⟩
    · cases h
      exact hfail curproc.pgdir

/-- A process of the running kernel together with physical memory. -/
structure UserSpace (p : Proc) (m : Phys) : Prop where
  size : p.sz.toNat ≤ KERNBASE
  mapped : ∀ v, (p.pgdir.lookup v).isSome = true ↔ v < pageCount p.sz
  frames : ∀ v e, p.pgdir.lookup v = some e → m.Valid e.frame ∧ e.frame ∉ m.freelist
  free : ∀ f ∈ m.freelist, m.Valid f
  lowest : 0 < m.lowest

/-- The call returns 0 with the exact new size and exactly its pages mapped, or -1
with the size, the mapped pages and their contents unchanged. -/
def GrowsExactly (p : Proc) (n : Word) (m : Phys) : Prop :=
  ∃ r p' m', growproc p n m = .ok ((r, p'), m') ∧
    ((r = 0 ∧ (p'.sz.toNat : ℤ) = p.sz.toNat + n.toInt ∧
        ∀ v, (p'.pgdir.lookup v).isSome = true ↔ v < pageCount p'.sz) ∨
     (r = -1 ∧ p'.sz = p.sz ∧ ∀ v, userPage p'.pgdir m' v = userPage p.pgdir m v))

variable {p : Proc} {n : Word} {m : Phys}

theorem toNat_add_of_nonneg (hs : p.sz.toNat ≤ KERNBASE) (hn : 0 ≤ n.toInt) :
    ((p.sz + n).toNat : ℤ) = p.sz.toNat + n.toInt := by
  have h := BitVec.toInt_eq_toNat_cond n
  have hlt := n.isLt
  simp only [KERNBASE] at hs
  rw [BitVec.toNat_add]
  split at h <;> omega

theorem toNat_add_of_neg (hn : n.toInt < 0) : ((p.sz + n).toNat : ℤ) =
      if -n.toInt ≤ p.sz.toNat then p.sz.toNat + n.toInt else p.sz.toNat + n.toInt + 2 ^ 32 := by
  have h := BitVec.toInt_eq_toNat_cond n
  have hlt := n.isLt
  have hsz := p.sz.isLt
  rw [BitVec.toNat_add]
  split at h <;> split <;> omega

theorem userPage_eq_of_touches {pg pg' : Pgdir} {m m' : Phys} (hl : ∀ v, pg'.lookup v = pg.lookup v)
    (ht : Touches (· ∈ m.freelist) m m') (hf : ∀ v e, pg.lookup v = some e → e.frame ∉ m.freelist)
    (v : ℕ) : userPage pg' m' v = userPage pg m v := by
  unfold userPage
  rw [hl]
  cases h : pg.lookup v with
  | none => rfl
  | some e => rw [Option.map_some, Option.map_some, ht.mem e.frame (hf v e h)]

theorem growproc_of_pos (h : UserSpace p m) (hn : n.toInt > 0) : GrowsExactly p n m := by
  have hsum := toNat_add_of_nonneg h.size hn.le
  unfold GrowsExactly growproc
  simp only [if_pos hn]
  by_cases hlim : p.sz + n ≤ p.limit ∨ p.limit = 0#32
  swap
  · exact ⟨-1, p, m, by rw [if_neg hlim]; rfl, .inr ⟨rfl, rfl, fun _ => rfl⟩⟩
  rw [if_pos hlim]
  by_cases hbig : (p.sz + n).toNat ≥ KERNBASE
  · have ha : allocuvm p.pgdir p.sz (p.sz + n) m = .ok ((0#32, p.pgdir), m) := by
      rw [allocuvm, if_pos hbig]
      rfl
    refine ⟨-1, p, m, ?_, .inr ⟨rfl, rfl, fun _ => rfl⟩⟩
    rw [bind_of_ok ha]
    rfl
  have hlt : p.sz.toNat < (p.sz + n).toNat := by omega
  have hcount : pageCount p.sz ≤ pageCount (p.sz + n) := pageCount_mono hlt.le
  obtain ⟨r, pg', m', hrun, ht, hres⟩ := allocPages_spec (F := (· ∈ m.freelist)) hlt (by omega)
    (pageCount (p.sz + n) - pageCount p.sz) (pageCount p.sz) p.pgdir m h.lowest le_rfl (by omega)
    (fun _ hf => hf) h.free (fun v e h1 h2 => by omega) (by
      intro v h1 _
      have := (h.mapped v).not.mpr (by omega)
      simpa using this)
  have ha : allocuvm p.pgdir p.sz (p.sz + n) m = .ok ((r, pg'), m') := by
    have hnlt : ¬ p.sz + n < p.sz := by
      rw [BitVec.lt_def]
      omega
    rw [allocuvm, if_neg hbig, if_neg hnlt]
    simp only [firstPage_eq h.size]
    exact hrun
  rw [bind_of_ok ha]
  rcases hres with ⟨rfl, hin, hout⟩ | ⟨rfl, hall⟩
  · have hne : p.sz + n ≠ 0#32 := by
      intro hz
      rw [hz] at hlt
      simp at hlt
    refine ⟨0, { p with sz := p.sz + n, pgdir := pg' }, m', ?_, .inl ⟨rfl, hsum, ?_⟩⟩
    · simp only [if_neg hne]
      rfl
    · intro v
      dsimp only
      by_cases hv : pageCount p.sz ≤ v ∧ v < pageCount (p.sz + n)
      · simp [hin v hv.1 hv.2, hv.2]
      · rw [hout v hv, h.mapped v]
        omega
  · refine ⟨-1, { p with pgdir := pg' }, m', rfl, .inr ⟨rfl, rfl, ?_⟩⟩
    refine userPage_eq_of_touches ?_ ht (fun v e he => (h.frames v e he).2)
    intro v
    rw [hall]
    split
    next hv =>
      have hno := (h.mapped v).not.mpr (by omega)
      simp only [Bool.not_eq_true, Option.isSome_eq_false_iff, Option.isNone_iff_eq_none] at hno
      exact hno.symm
    next => rfl

theorem growproc_shrunk (h : UserSpace p m) (hn : n.toInt < 0) (hlt : -n.toInt < p.sz.toNat) :
    ∃ pg' m', growproc p n m = .ok ((0, { p with sz := p.sz + n, pgdir := pg' }), m') ∧
      ∀ v, (pg'.lookup v).isSome = true ↔ v < pageCount (p.sz + n) := by
  have hsum := toNat_add_of_neg (p := p) hn
  rw [if_pos (by omega)] at hsum
  have hnew : (p.sz + n).toNat < p.sz.toNat := by omega
  obtain ⟨pg', m', hrun, ht, hres⟩ := deallocuvm_spec m.Valid p.pgdir hnew h.size h.lowest
    (fun v e _ _ he => ⟨(h.frames v e he).1, (h.frames v e he).1⟩)
  have hne : p.sz + n ≠ 0#32 := by
    intro hz
    rw [hz] at hsum
    simp only [BitVec.toNat_ofNat, Nat.zero_mod] at hsum
    omega
  have hcount : pageCount (p.sz + n) ≤ pageCount p.sz := pageCount_mono hnew.le
  refine ⟨pg', m', ?_, fun v => ?_⟩
  · unfold growproc
    simp only [if_neg (show ¬ n.toInt > 0 by omega), if_pos hn]
    rw [bind_of_ok hrun]
    simp only [if_neg hne]
    rfl
  · rw [hres]
    split
    next hv => simp only [Option.isSome_none, Bool.false_eq_true, false_iff]; omega
    next hv => rw [h.mapped v]; omega

theorem growproc_of_shrink (h : UserSpace p m) (hn : n.toInt < 0) (hlt : -n.toInt < p.sz.toNat) :
    GrowsExactly p n m := by
  obtain ⟨pg', m', hrun, hmapped⟩ := growproc_shrunk h hn hlt
  have hsum := toNat_add_of_neg (p := p) hn
  rw [if_pos (by omega)] at hsum
  exact ⟨0, _, m', hrun, .inl ⟨rfl, hsum, hmapped⟩⟩

/-- A shrink by more than the size is ignored, but reported as done unless the
size is 0. -/
theorem growproc_of_wrap (hn : n.toInt < 0) (hgt : p.sz.toNat < -n.toInt) :
    growproc p n m = .ok ((if p.sz = 0#32 then -1 else 0, p), m) := by
  have hsum := toNat_add_of_neg (p := p) hn
  rw [if_neg (by omega)] at hsum
  have hd : deallocuvm p.pgdir p.sz (p.sz + n) m = .ok ((p.sz, p.pgdir), m) := by
    have h := BitVec.toInt_eq_toNat_cond n
    have hlt := n.isLt
    have hge : p.sz + n ≥ p.sz := by
      rw [ge_iff_le, BitVec.le_def]
      split at h <;> omega
    rw [deallocuvm, if_pos hge]
    rfl
  unfold growproc
  simp only [if_neg (show ¬ n.toInt > 0 by omega), if_pos hn]
  rw [bind_of_ok hd]
  split <;> rfl

theorem growproc_of_shrink_to_zero (h : UserSpace p m) (hn : n.toInt < 0) (hsz : -n.toInt = p.sz.toNat) :
    ∃ pg' m', growproc p n m = .ok ((-1, { p with pgdir := pg' }), m') ∧ ∀ v, pg'.lookup v = none := by
  have hsum := toNat_add_of_neg (p := p) hn
  rw [if_pos (by omega)] at hsum
  have hzero : p.sz + n = 0#32 := by
    apply BitVec.eq_of_toNat_eq
    simp only [BitVec.toNat_ofNat, Nat.zero_mod]
    omega
  have hnew : (p.sz + n).toNat < p.sz.toNat := by omega
  obtain ⟨pg', m', hrun, ht, hres⟩ := deallocuvm_spec m.Valid p.pgdir hnew h.size h.lowest
    (fun v e _ _ he => ⟨(h.frames v e he).1, (h.frames v e he).1⟩)
  refine ⟨pg', m', ?_, ?_⟩
  · unfold growproc
    simp only [if_neg (show ¬ n.toInt > 0 by omega), if_pos hn]
    rw [bind_of_ok hrun]
    simp only [if_pos hzero]
    rfl
  · intro v
    rw [hres]
    split
    next => rfl
    next hv =>
      have hz : pageCount (p.sz + n) = 0 := by
        rw [hzero]
        rfl
      have := (h.mapped v).not.mpr (by omega)
      simpa using this

theorem sz_pos_iff : p.sz ≠ 0#32 ↔ 0 < p.sz.toNat := by
  rw [Ne, ← BitVec.toNat_inj, BitVec.toNat_ofNat, Nat.zero_mod]
  omega

theorem growproc_not_exact (h : UserSpace p m) (hneg : n.toInt < 0) (hne : p.sz ≠ 0#32)
    (hle : (p.sz.toNat : ℤ) ≤ -n.toInt) : ¬ GrowsExactly p n m := by
  rintro ⟨r, p', m', hrun, hres⟩
  rcases hle.lt_or_eq with hgt | heq
  · rw [growproc_of_wrap hneg hgt, if_neg hne] at hrun
    cases hrun
    rcases hres with ⟨_, hsz, _⟩ | ⟨hr, _⟩
    · omega
    · cases hr
  · obtain ⟨pg', m1, hz, hnone⟩ := growproc_of_shrink_to_zero h hneg heq.symm
    rw [hz] at hrun
    cases hrun
    rcases hres with ⟨hr, _⟩ | ⟨_, _, hview⟩
    · cases hr
    · have hmap := (h.mapped 0).mpr (by
        have := sz_pos_iff.mp hne
        simp only [pageCount, PGSIZE]
        omega)
      have h0 := hview 0
      simp only [userPage, hnone, Option.map_none] at h0
      rw [eq_comm, Option.map_eq_none_iff] at h0
      rw [h0] at hmap
      cases hmap

/-- `growproc` is exact except for shrinking a non-empty process by its whole size
or more: to exactly 0 it unmaps everything and fails, by more it succeeds and
changes nothing. -/
theorem growproc_exact_iff (h : UserSpace p m) (n : Word) :
    GrowsExactly p n m ↔ ¬ (n.toInt < 0 ∧ p.sz ≠ 0#32 ∧ (p.sz.toNat : ℤ) ≤ -n.toInt) := by
  constructor
  · rintro hex ⟨hneg, hne, hle⟩
    exact growproc_not_exact h hneg hne hle hex
  · intro hc
    rcases lt_trichotomy n.toInt 0 with hneg | hzero | hgt
    · by_cases hlt : -n.toInt < p.sz.toNat
      · exact growproc_of_shrink h hneg hlt
      · have hz : p.sz = 0#32 := by
          by_contra hne
          exact hc ⟨hneg, hne, by omega⟩
        refine ⟨-1, p, m, ?_, Or.inr ⟨rfl, rfl, fun _ => rfl⟩⟩
        rw [growproc_of_wrap hneg (by rw [hz]; simp only [BitVec.toNat_ofNat, Nat.zero_mod]; omega), if_pos hz]
    · refine ⟨0, p, m, ?_, Or.inl ⟨rfl, by omega, h.mapped⟩⟩
      unfold growproc
      simp only [hzero]
      rfl
    · exact growproc_of_pos h hgt

def onePage : Proc :=
  { sz := 4096#32
    pgdir := ⟨100, [], fun i => if i = 0 then
      some ⟨101, fun j => if j = 0 then some ⟨102, Perm.user⟩ else none⟩ else none⟩ }

def onePageMemory : Phys := ⟨64, [103], fun _ _ => 0⟩

theorem onePage_lookup (v : ℕ) : onePage.pgdir.lookup v = if v = 0 then some ⟨102, Perm.user⟩ else none := by
  by_cases hd : pdx v = 0
  · by_cases ht : ptx v = 0
    · obtain rfl : v = 0 := page_ext hd ht
      rfl
    · have hv : v ≠ 0 := by
        rintro rfl
        exact ht rfl
      simp [Pgdir.lookup, onePage, hd, ht, hv]
  · have hv : v ≠ 0 := by
      rintro rfl
      exact hd rfl
    simp [Pgdir.lookup, onePage, hd, hv]

theorem onePage_space : UserSpace onePage onePageMemory where
  size := by decide
  mapped v := by
    have hcount : pageCount onePage.sz = 1 := by decide
    rw [onePage_lookup, hcount]
    split <;> simp <;> omega
  frames v e he := by
    rw [onePage_lookup] at he
    split at he
    next => cases he; decide
    next => cases he
  free := by decide
  lowest := by decide

theorem growproc_exact_one_byte : UserSpace onePage onePageMemory ∧ GrowsExactly onePage (-1#32) onePageMemory :=
  ⟨onePage_space, (growproc_exact_iff onePage_space (-1#32)).mpr (by decide)⟩

/-- `sbrk(-4096)` of a one-page process fails and has lost the page; `sbrk(-8192)`
succeeds with the size unchanged. -/
theorem growproc_loses_page : UserSpace onePage onePageMemory ∧
    ¬ GrowsExactly onePage (-4096#32) onePageMemory ∧ ¬ GrowsExactly onePage (-8192#32) onePageMemory :=
  ⟨onePage_space, growproc_not_exact onePage_space (by decide) (by decide) (by decide),
    growproc_not_exact onePage_space (by decide) (by decide) (by decide)⟩

end Xv6
