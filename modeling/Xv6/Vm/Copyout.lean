import Xv6.Vm.Image

/-! # Storing into an address space that is not the current one

The loop of `copyout` stores page by page until it comes to a page that user code may not
access; what it does there depends on the lookup that it uses.
-/
namespace Xv6.Vm
open Comp List

def Pgdir.User (pg : Pgdir) (a : ℕ) : Prop := ∃ e, pg.lookup (a / PGSIZE) = some e ∧ e.perm.u = true

theorem Pgdir.User.lt (hpg : UserTable pg) (h : pg.User a) : a < KERNBASE := by
  obtain ⟨e, he, -⟩ := h
  by_contra ha
  have hv : USERPAGES ≤ a / PGSIZE := by
    simp only [USERPAGES, KERNBASE, PGSIZE] at *
    omega
  simp [hpg.low _ hv] at he

/-- A lookup that finds the frames of accessible pages. For the others `miss` says whether
it gives none or stops. -/
structure Finds (pg : Pgdir) (miss : ℕ → Option Stop) (find : Word → Comp Phys (Option Frame)) : Prop where
  hit : ∀ uva f m, userFrame pg uva = some f → find uva m = .ok (some f, m)
  miss : ∀ uva m, userFrame pg uva = none →
    find uva m = (miss (uva.toNat / PGSIZE)).elim (.ok (none, m)) Except.error

theorem finds_checked (pg : Pgdir) : Finds pg (fun _ => none) fun uva => pure (userFrame pg uva) where
  hit uva f m h := by simp [h]
  miss uva m h := by simp [h]

/-- What `copyout` comes to: all is stored, or what lies before the first inaccessible page. -/
def Outcome (pg : Pgdir) (miss : ℕ → Option Stop) (a : ℕ) (buf : List UInt8) (m : Phys)
    (res : Except Stop (Bool × Phys)) : Prop :=
  ((∀ i < buf.length, pg.User (a + i)) ∧ ∃ m', Stored pg a buf m m' ∧ res = .ok (true, m')) ∨
    ∃ n < buf.length, (∀ i < n, pg.User (a + i)) ∧ ¬ pg.User (a + n) ∧ ∃ m', Stored pg a (buf.take n) m m' ∧
      res = (miss ((a + n) / PGSIZE)).elim (.ok (false, m')) Except.error

section Loop
variable {pg : Pgdir} {miss : ℕ → Option Stop} {find : Word → Comp Phys (Option Frame)}

theorem Outcome.after (hstored : Stored pg a front m m1) (huser : ∀ i < front.length, pg.User (a + i))
    (h : Outcome pg miss (a + front.length) rest m1 res) : Outcome pg miss a (front ++ rest) m res := by
  have huser' {n : ℕ} (hrest : ∀ i < n, pg.User (a + front.length + i)) (i : ℕ) (hi : i < front.length + n) :
      pg.User (a + i) := by
    by_cases hfront : i < front.length
    · exact huser i hfront
    · have := hrest (i - front.length) (by omega)
      rwa [show a + front.length + (i - front.length) = a + i by omega] at this
  rcases h with ⟨hall, m', hstored', hres⟩ | ⟨n, hn, hbefore, hno, m', hstored', hres⟩
  · refine .inl ⟨?_, m', hstored.append hstored', hres⟩
    rw [length_append]
    exact huser' hall
  · refine .inr ⟨front.length + n, by simpa using hn, huser' hbefore, ?_, m', ?_, ?_⟩
    · rwa [← Nat.add_assoc]
    · rw [take_length_add_append]
      exact hstored.append hstored'
    · rwa [← Nat.add_assoc]

theorem toNat_pageStart (va : Word) :
    (BitVec.ofNat 32 (va.toNat / PGSIZE * PGSIZE)).toNat = va.toNat / PGSIZE * PGSIZE := by
  have hlt := va.isLt
  have hle := Nat.div_mul_le_self va.toNat PGSIZE
  rw [BitVec.toNat_ofNat]
  exact Nat.mod_eq_of_lt (by omega)

theorem userFrame_pageStart (pg : Pgdir) (va : Word) :
    userFrame pg (BitVec.ofNat 32 (va.toNat / PGSIZE * PGSIZE)) = userFrame pg va := by
  rw [userFrame, userFrame, toNat_pageStart, Nat.mul_div_cancel _ (by decide)]

variable {va : Word} {m : Phys} {r : Bool × Phys}

theorem userFrame_eq_none : userFrame pg va = none ↔ ¬ pg.User va.toNat := by
  unfold userFrame Pgdir.User
  cases pg.lookup (va.toNat / PGSIZE) <;> simp

theorem offset_toNat (va : Word) :
    (va - BitVec.ofNat 32 (va.toNat / PGSIZE * PGSIZE)).toNat = va.toNat % PGSIZE := by
  have hstart := toNat_pageStart va
  have hdiv := Nat.div_add_mod va.toNat PGSIZE
  rw [Nat.mul_comm] at hdiv
  bv_omega

theorem nextPage_toNat (h : va.toNat < KERNBASE) :
    (BitVec.ofNat 32 (va.toNat / PGSIZE * PGSIZE) + BitVec.ofNat 32 PGSIZE).toNat =
      va.toNat + (PGSIZE - va.toNat % PGSIZE) := by
  have hdiv := Nat.div_add_mod va.toNat PGSIZE
  have hmod : va.toNat % PGSIZE < PGSIZE := Nat.mod_lt _ (by decide)
  rw [Nat.mul_comm] at hdiv
  rw [BitVec.toNat_add, toNat_pageStart]
  simp only [PGSIZE, KERNBASE, BitVec.toNat_ofNat] at *
  omega

theorem copyoutLoop_step {turns : ℕ} {buf : List UInt8} (h : buf ≠ []) :
    copyoutLoop find (turns + 1) va buf = (do
      let va0 : Word := BitVec.ofNat 32 (va.toNat / PGSIZE * PGSIZE)
      match ← find va0 with
      | none => pure false
      | some pa0 =>
        let off := (va - va0).toNat
        poke pa0 off (buf.take (PGSIZE - off))
        copyoutLoop find turns (va0 + BitVec.ofNat 32 PGSIZE) (buf.drop (PGSIZE - off))) := by
  cases buf with
  | nil => exact absurd rfl h
  | cons => rfl

theorem copyoutLoop_outcome (hpg : UserTable pg) (hfind : Finds pg miss find) (turns : ℕ) (va : Word)
    (buf : List UInt8) (hturns : buf.length ≤ turns) (m : Phys) :
    Outcome pg miss va.toNat buf m (copyoutLoop find turns va buf m) := by
  induction turns generalizing va buf m with
  | zero =>
    obtain rfl : buf = [] := eq_nil_of_length_eq_zero (by omega)
    exact .inl ⟨by simp, m, .nil pg _ m, rfl⟩
  | succ turns ih =>
    by_cases hbuf : buf = []
    · subst hbuf
      exact .inl ⟨by simp, m, .nil pg _ m, rfl⟩
    have hpos : 0 < buf.length := length_pos_iff.mpr hbuf
    rw [copyoutLoop_step hbuf]
    by_cases huser : pg.User va.toNat
    · obtain ⟨e, he, hu⟩ := huser
      have huser : pg.User va.toNat := ⟨e, he, hu⟩
      have hmod : va.toNat % PGSIZE < PGSIZE := Nat.mod_lt _ (by decide)
      have hdiv := Nat.div_add_mod va.toNat PGSIZE
      rw [Nat.mul_comm] at hdiv
      have hframe : userFrame pg (BitVec.ofNat 32 (va.toNat / PGSIZE * PGSIZE)) = some e.frame := by
        rw [userFrame_pageStart]
        simp [userFrame, he, hu]
      rw [bind_of_ok (hfind.hit _ _ m hframe)]
      simp only [offset_toNat]
      rw [poke, bind_of_ok (modify_apply _ m)]
      generalize hfront : buf.take (PGSIZE - va.toNat % PGSIZE) = front
      generalize hrest : buf.drop (PGSIZE - va.toNat % PGSIZE) = rest
      have hlen : front.length = min (PGSIZE - va.toNat % PGSIZE) buf.length := by
        rw [← hfront, length_take]
      have hlen' : rest.length = buf.length - (PGSIZE - va.toNat % PGSIZE) := by rw [← hrest, length_drop]
      have hfit : va.toNat % PGSIZE + front.length ≤ PGSIZE := by omega
      have hstored := Stored.poke hpg he hfit m
      rw [hdiv] at hstored
      have hpage (i : ℕ) (hi : i < front.length) : pg.User (va.toNat + i) := by
        refine ⟨e, ?_, hu⟩
        have : (va.toNat + i) / PGSIZE = va.toNat / PGSIZE := by
          rw [Nat.div_eq_iff (by decide)]
          omega
        rw [this, he]
      rw [← take_append_drop (PGSIZE - va.toNat % PGSIZE) buf, hfront, hrest]
      refine .after hstored hpage ?_
      by_cases hdone : rest = []
      · subst hdone
        refine .inl ⟨by simp, _, .nil pg _ _, ?_⟩
        cases turns <;> rfl
      · have hrestpos : 0 < rest.length := length_pos_iff.mpr hdone
        have hnext := nextPage_toNat (huser.lt hpg)
        have hfull : front.length = PGSIZE - va.toNat % PGSIZE := by omega
        rw [hfull, ← hnext]
        exact ih _ rest (by omega) _
    · have hframe : userFrame pg (BitVec.ofNat 32 (va.toNat / PGSIZE * PGSIZE)) = none := by
        rw [userFrame_pageStart]
        exact userFrame_eq_none.mpr huser
      refine .inr ⟨0, hpos, by simp, huser, m, .nil pg _ m, ?_⟩
      have hmiss := hfind.miss _ m hframe
      rw [toNat_pageStart, Nat.mul_div_cancel _ (by decide)] at hmiss
      rw [Nat.add_zero]
      cases hstop : miss (va.toNat / PGSIZE) with
      | none =>
        rw [hstop] at hmiss
        rw [bind_of_ok hmiss]
        rfl
      | some =>
        rw [hstop] at hmiss
        rw [bind_apply, hmiss]
        rfl

end Loop

end Xv6.Vm
