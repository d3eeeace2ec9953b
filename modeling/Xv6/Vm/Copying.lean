import Xv6.Vm.Building

/-! # Copying an address space

`copyuvm` gives the child frames of its own, so what one process stores the other never
reads.
-/
namespace Xv6.Vm
open Comp

def Pgdir.load (pg : Pgdir) (m : Phys) (a : ℕ) : Option UInt8 :=
  (pg.lookup (a / PGSIZE)).map fun e => m.mem e.frame (a % PGSIZE)

/-- A store to an address, by the process or by the kernel for it; one to a page that is
not mapped has no effect. -/
def Pgdir.store (pg : Pgdir) (a : ℕ) (b : UInt8) (m : Phys) : Phys :=
  match pg.lookup (a / PGSIZE) with
  | none => m
  | some e => { m with mem := Function.update m.mem e.frame (Function.update (m.mem e.frame) (a % PGSIZE) b) }

variable {pg : Pgdir} {m m' : Phys} {e : Pte}

section Isolation
variable {ι : Type}

def stores (dirs : ι → Pgdir) (ss : List (ι × ℕ × UInt8)) (m : Phys) : Phys :=
  ss.foldl (fun m s => (dirs s.1).store s.2.1 s.2.2 m) m

def Apart (dirs : ι → Pgdir) : Prop :=
  ∀ i j, i ≠ j → ∀ v w e e', (dirs i).lookup v = some e → (dirs j).lookup w = some e' → e.frame ≠ e'.frame

def Agree (pg : Pgdir) (m m' : Phys) : Prop := ∀ v e, pg.lookup v = some e → m'.mem e.frame = m.mem e.frame

theorem Agree.load (h : Agree pg m m') (a : ℕ) : pg.load m' a = pg.load m a := by
  unfold Pgdir.load
  cases he : pg.lookup (a / PGSIZE) with
  | none => simp
  | some e => simp [h _ e he]

theorem Agree.store (h : Agree pg m m') (a : ℕ) (b : UInt8) :
    Agree pg (pg.store a b m) (pg.store a b m') := by
  intro v e he
  unfold Pgdir.store
  cases ha : pg.lookup (a / PGSIZE) with
  | none => exact h v e he
  | some e' =>
    by_cases hf : e.frame = e'.frame
    · simp [hf, h _ e' ha]
    · simp [hf, h v e he]

variable {dirs : ι → Pgdir} {m m' : Phys}

theorem Agree.store_other (hapart : Apart dirs) (hij : i ≠ j) (h : Agree (dirs i) m m') (a : ℕ) (b : UInt8) :
    Agree (dirs i) m ((dirs j).store a b m') := by
  intro v e he
  unfold Pgdir.store
  cases ha : (dirs j).lookup (a / PGSIZE) with
  | none => exact h v e he
  | some e' => simp [hapart i j hij v _ e e' he ha, h v e he]

theorem agree_stores [DecidableEq ι] (hapart : Apart dirs) (i : ι) (ss : List (ι × ℕ × UInt8))
    (h : Agree (dirs i) m m') : Agree (dirs i) (stores dirs (ss.filter fun s => s.1 = i) m) (stores dirs ss m') := by
  induction ss generalizing m m' with
  | nil => exact h
  | cons s ss ih =>
    obtain ⟨j, a, b⟩ := s
    by_cases hij : j = i
    · subst hij
      simpa [stores] using ih (h.store a b)
    · simpa [stores, hij] using ih (h.store_other hapart (Ne.symm hij) a b)

/-- What a process reads depends on its own stores only. -/
theorem load_stores [DecidableEq ι] (hapart : Apart dirs) (i : ι) (ss : List (ι × ℕ × UInt8)) (m : Phys) (a : ℕ) :
    (dirs i).load (stores dirs ss m) a = (dirs i).load (stores dirs (ss.filter fun s => s.1 = i) m) a :=
  (agree_stores hapart i ss fun _ _ _ => rfl).load a

end Isolation

section Copy
variable {F : Set Frame} {pg d : Pgdir} {m m' : Phys}

theorem userPage_of_touches (h : ∀ v e, pg.lookup v = some e → e.frame ∉ F) (ht : Touches (· ∈ F) m m') (v : ℕ) :
    userPage pg m' v = userPage pg m v := by
  unfold userPage
  cases he : pg.lookup v with
  | none => simp
  | some e => simp [ht.mem _ (h v e he)]

/-- The loop of `copyuvm` copies its pages to frames of the child's own, or gives back all
that the child has. -/
theorem copyPages_spec {n vpn : ℕ} (h : Space F d ∅ m) (hend : vpn + n ≤ USERPAGES)
    (hmapped : ∀ v, vpn ≤ v → v < vpn + n → (pg.lookup v).isSome)
    (hpar : ∀ v e, pg.lookup v = some e → e.frame ∉ F) (hun : ∀ v, vpn ≤ v → d.lookup v = none) :
    ∃ r m', copyPages pg n vpn d m = .ok (r, m') ∧ Touches (· ∈ F) m m' ∧
      (r = none ∧ Account F (fun _ => none) ∅ m' ∨
        ∃ d', r = some d' ∧ Space F d' ∅ m' ∧ Grown (userPage pg m) vpn (vpn + n) d m d' m') := by
  induction n generalizing vpn d m with
  | zero => exact ⟨some d, m, rfl, .refl _ m, .inr ⟨d, rfl, h, .refl _ vpn d m⟩⟩
  | succ n ih =>
    obtain ⟨e, he⟩ := Option.isSome_iff_exists.mp (hmapped vpn le_rfl (by omega))
    rw [copyPages, if_pos (hasTable_of_lookup he)]
    simp only [he]
    rcases kalloc_spec m with hk | ⟨f, rest, hl, hk⟩
    · obtain ⟨m', hfree, htouch, haccount⟩ := freevm_spec h
      refine ⟨none, m', ?_, htouch, .inl ⟨rfl, haccount⟩⟩
      rw [bind_of_ok hk]
      simp only
      rw [bind_of_ok hfree]
      rfl
    have htake := h.take hl (m.mem e.frame)
    have hdraws := Draws.take hl (m.mem e.frame)
    obtain ⟨ok, d1, m1, hmap, hdraws1, hspace, hlook⟩ :=
      htake.mappages_spec (by omega) (Set.mem_insert f ∅) (hun vpn le_rfl) e.perm
    have hused : f ∉ rest := (htake.account.loose_mem (Set.mem_insert f ∅)).2
    have htouch1 := (hdraws.trans hdraws1).touches fun g hg => h.account.free_mem hg
    rw [bind_of_ok hk]
    simp only
    rw [bind_of_ok (modify_apply _ _), bind_of_ok hmap]
    cases ok with
    | true =>
      rw [if_pos rfl, Set.insert_sdiff_self_of_notMem (Set.notMem_empty f)] at hspace
      simp only [true_and] at hlook
      have hnext : vpn + 1 + n ≤ USERPAGES := by omega
      have hun1 (v : ℕ) (hv : vpn + 1 ≤ v) : d1.lookup v = none := by
        rw [hlook, if_neg (by omega)]
        exact hun v (by omega)
      obtain ⟨r, m', hrun, htouch, hres⟩ := ih hspace hnext (fun v h1 h2 => hmapped v (by omega) (by omega)) hun1
      refine ⟨r, m', hrun, htouch1.trans htouch, hres.imp_right ?_⟩
      rintro ⟨d', hr, hspace', hgrown⟩
      have hsame : userPage pg m1 = userPage pg m := funext (userPage_of_touches hpar htouch1)
      rw [hsame, Nat.add_assoc, Nat.add_comm 1] at hgrown
      refine ⟨d', hr, hspace', hgrown.cons (by omega) hlook ?_ (fun hf => hused (hdraws1.free f hf))
        (hdraws.trans hdraws1)⟩
      simp [userPage, he, hdraws1.mem f hused]
    | false =>
      rw [if_neg (by simp)] at hspace
      obtain ⟨m2, hfree, haccount, htouch2⟩ := hspace.account.kfree_loose (Set.mem_insert f ∅)
      rw [Set.insert_sdiff_self_of_notMem (Set.notMem_empty f)] at haccount
      obtain ⟨m', hfreevm, htouch3, hempty⟩ := freevm_spec ⟨haccount, hspace.low⟩
      refine ⟨none, m', ?_, htouch1.trans (htouch2.trans htouch3), .inl ⟨rfl, hempty⟩⟩
      simp only [Bool.false_eq_true, if_false]
      rw [bind_of_ok hfree, bind_of_ok hfreevm]
      rfl

/-- The address space of a process that forks: the pages below its size are mapped, none
of them to a frame of the free list. -/
structure Parent (pg : Pgdir) (sz : Word) (m : Phys) : Prop where
  size : sz.toNat ≤ KERNBASE
  mapped : ∀ v < pageCount sz, (pg.lookup v).isSome
  used : ∀ v e, pg.lookup v = some e → e.frame ∉ m.freelist
  nodup : m.freelist.Nodup
  valid : ∀ f ∈ m.freelist, m.Valid f
  lowest : 0 < m.lowest

inductive Relative
  | parent | child
  deriving DecidableEq

def Relative.dir (pg d : Pgdir) : Relative → Pgdir
  | parent => pg
  | child => d

/-- `d` is a copy of `pg` in frames that were free. Whatever the two processes store after
that, each reads what it would read without the stores of the other. -/
structure IsCopy (pg : Pgdir) (sz : Word) (m : Phys) (d : Pgdir) (m' : Phys) : Prop where
  pages : ∀ v, userPage d m' v = if v < pageCount sz then userPage pg m v else none
  fresh : ∀ v e, d.lookup v = some e → e.frame ∈ m.freelist ∧ e.frame ∉ m'.freelist
  parent : ∀ v, userPage pg m' v = userPage pg m v
  isolated : ∀ (ss : List (Relative × ℕ × UInt8)) (who : Relative) (a : ℕ),
    (who.dir pg d).load (stores (Relative.dir pg d) ss m') a =
      (who.dir pg d).load (stores (Relative.dir pg d) (ss.filter fun s => s.1 = who) m') a

theorem apart_of_fresh (hpar : ∀ v e, pg.lookup v = some e → e.frame ∉ F)
    (hchild : ∀ v e, d.lookup v = some e → e.frame ∈ F) : Apart (Relative.dir pg d) := by
  intro i j hij v w e e' he he' hf
  cases i <;> cases j
  · exact hij rfl
  · exact hpar v e he (hf ▸ hchild w e' he')
  · exact hpar w e' he' (hf ▸ hchild v e he)
  · exact hij rfl

/-- `copyuvm` returns: a copy, or nothing, and then the same frames are free as before. -/
theorem copyuvm_isolates {sz : Word} (h : Parent pg sz m) :
    ∃ r m', copyuvm pg sz m = .ok (r, m') ∧
      (r = none ∧ (∀ f, f ∈ m'.freelist ↔ f ∈ m.freelist) ∧ (∀ v, userPage pg m' v = userPage pg m v) ∨
        ∃ d, r = some d ∧ IsCopy pg sz m d m') := by
  have hpages : 0 + pageCount sz ≤ USERPAGES := by
    have := h.size
    simp only [pageCount, USERPAGES, KERNBASE, PGSIZE] at *
    omega
  obtain ⟨r₁, m₁, hsetup, htouch₁, hres₁⟩ := setupkvm_spec (Account.of_free h.nodup h.valid h.lowest)
  unfold copyuvm
  rw [bind_of_ok hsetup]
  rcases hres₁ with ⟨rfl, haccount⟩ | ⟨d₁, rfl, hspace, hdraws, hempty⟩
  · exact ⟨none, m₁, rfl, Or.inl ⟨rfl, haccount.free_iff, userPage_of_touches h.used htouch₁⟩⟩
  obtain ⟨r, m', hcopy, htouch, hres⟩ := copyPages_spec hspace hpages (fun v _ hv => h.mapped v (by omega))
    h.used fun v _ => hempty v
  have hparent := userPage_of_touches h.used (htouch₁.trans htouch)
  refine ⟨r, m', hcopy, ?_⟩
  rcases hres with ⟨rfl, haccount⟩ | ⟨d, rfl, hspace', hgrown⟩
  · exact Or.inl ⟨rfl, haccount.free_iff, hparent⟩
  · refine Or.inr ⟨d, rfl, fun v => ?_, fun v e he => hspace'.frame_mem he, hparent, ?_⟩
    · by_cases hv : v < pageCount sz
      · rw [if_pos hv, hgrown.fresh v (Nat.zero_le v) (by omega), userPage_of_touches h.used htouch₁]
      · have hnone : d.lookup v = none := by rw [hgrown.rest v (by omega), hempty]
        simp [hv, userPage, hnone]
    · intro ss who a
      exact load_stores (apart_of_fresh h.used fun v e he => (hspace'.frame_mem he).1) who ss m' a

end Copy

def guarded : Pgdir where
  frame := 2
  kern := []
  pde i := if i = 0 then some ⟨3, fun n => if n = 0 then some ⟨4, Perm.user⟩ else if n = 1 then some ⟨5, ⟨true, false⟩⟩ else none⟩
    else none

def eightyFree : Phys := ⟨1, List.range' 10 80, fun f _ => UInt8.ofNat f⟩

theorem guarded_lookup (h : guarded.lookup v = some e) : v = 0 ∧ e.frame = 4 ∨ v = 1 ∧ e.frame = 5 := by
  unfold Pgdir.lookup guarded at h
  simp only at h
  split at h
  case isTrue hdir =>
    simp only [Option.bind_some] at h
    split at h
    case isTrue h0 =>
      cases h
      exact .inl ⟨page_ext hdir h0, rfl⟩
    case isFalse =>
      split at h
      case isTrue h1 =>
        cases h
        exact .inr ⟨page_ext hdir h1, rfl⟩
      case isFalse => cases h
  case isFalse => cases h

theorem guarded_parent : Parent guarded 8192#32 eightyFree where
  size := by decide
  mapped := by decide
  used v e he := by rcases guarded_lookup he with ⟨-, h⟩ | ⟨-, h⟩ <;> simp [h, eightyFree]
  nodup := List.nodup_range'
  valid := by decide
  lowest := by decide

theorem copyuvm_isolates_guarded : ∃ d m', copyuvm guarded 8192#32 eightyFree = .ok (some d, m') ∧
    IsCopy guarded 8192#32 eightyFree d m' := by
  obtain ⟨r, m', hrun, ⟨hr, -⟩ | ⟨d, hr, hcopy⟩⟩ := copyuvm_isolates guarded_parent
  · have hsome : (copyuvm guarded 8192#32).test eightyFree (fun r _ => r.isSome) = true := by decide +kernel
    obtain ⟨r', m'', hrun', hsome⟩ := test_eq_true hsome
    cases hrun.symm.trans hrun'
    simp [hr] at hsome
  · exact ⟨d, m', hr ▸ hrun, hcopy⟩

end Xv6.Vm
