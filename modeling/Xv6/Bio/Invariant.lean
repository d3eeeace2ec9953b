import Mathlib.Algebra.Order.BigOperators.Group.Finset
import Xv6.Bio.Cache
import Xv6.Lib.Count

/-! # The invariant of the buffer cache -/
namespace Xv6.Bio
open Pc List Function

variable {ι : Type}

/-- The order of the ring matters while there are buffers that were never used: all of them
have the block number 0. One that is in use stands in front of those. -/
structure Placed (L : Links (Fin NBUF)) (buf : Fin NBUF → Buf ι) : Prop where
  ring : ∃ l, L.Ring l ∧ (∀ j, j ∈ l) ∧ l.Pairwise fun i j => (buf j).Live → ¬ (buf i).Live → (buf i).block ≠ (buf j).block
  unique : ∀ i j, (buf i).Live → (buf j).Live → (buf i).block = (buf j).block → i = j

namespace Placed
variable {L : Links (Fin NBUF)} {buf buf' : Fin NBUF → Buf ι} {b : BlockId} {j : Fin NBUF} {c : Buf ι}

theorem length_le (h : L.Ring l) : l.length ≤ NBUF := by
  have hcard := h.nodup.length_le_card
  rwa [Fintype.card_fin] at hcard

section
variable (h : Placed L buf)
include h

theorem congr (hlive : ∀ i, (buf' i).Live ↔ (buf i).Live) (hblock : ∀ i, (buf' i).block = (buf i).block) :
    Placed L buf' := by
  obtain ⟨l, hring, hall, hpair⟩ := h.ring
  refine ⟨⟨l, hring, hall, hpair.imp fun {x y} hxy => ?_⟩, fun x y => ?_⟩
  · rw [hlive x, hlive y, hblock x, hblock y]
    exact hxy
  · rw [hlive x, hlive y, hblock x, hblock y]
    exact h.unique x y

/-- A buffer comes into use for a block that no other buffer in use has, in front of those
that were never used. -/
theorem wake (hring : L.Ring l) (hall : ∀ j, j ∈ l)
    (hpair : l.Pairwise fun i j => (buf j).Live → ¬ (buf i).Live → (buf i).block ≠ (buf j).block) (hc : c.Live)
    (hothers : ∀ i, i ≠ j → (buf i).Live → (buf i).block ≠ c.block) (hl : l = l1 ++ j :: l2)
    (hfirst : ∀ i ∈ l1, (buf i).block ≠ c.block) : Placed L (update buf j c) := by
  have hself : update buf j c j = c := update_self ..
  have hne {i : Fin NBUF} (hi : i ≠ j) : update buf j c i = buf i := update_of_ne hi ..
  refine ⟨⟨l, hring, hall, ?_⟩, fun x y => ?_⟩
  · have hnodup := hring.nodup
    rw [hl] at hpair hnodup ⊢
    obtain ⟨hj, -⟩ := nodup_cons.mp (nodup_middle.mp hnodup)
    have hj1 {x : Fin NBUF} (hx : x ∈ l1) : x ≠ j := fun hxj => hj (hxj ▸ mem_append_left l2 hx)
    have hj2 {x : Fin NBUF} (hx : x ∈ l2) : x ≠ j := fun hxj => hj (hxj ▸ mem_append_right l1 hx)
    obtain ⟨hp1, hp2, hcross⟩ := pairwise_append.mp hpair
    obtain ⟨-, hp2⟩ := pairwise_cons.mp hp2
    refine pairwise_append.mpr ⟨hp1.imp_of_mem fun {x y} hx hy hxy => ?_, pairwise_cons.mpr ⟨fun y _ _ hdead => ?_,
      hp2.imp_of_mem fun {x y} hx hy hxy => ?_⟩, fun x hx y hy => ?_⟩
    · rwa [hne (hj1 hx), hne (hj1 hy)]
    · rw [hself] at hdead
      exact (hdead hc).elim
    · rwa [hne (hj2 hx), hne (hj2 hy)]
    · rw [hne (hj1 hx)]
      rcases mem_cons.mp hy with rfl | hy
      · rw [hself]
        exact fun _ _ => hfirst x hx
      · rw [hne (hj2 hy)]
        exact hcross x hx y (mem_cons_of_mem j hy)
  · by_cases hx : x = j <;> by_cases hy : y = j
    · exact fun _ _ _ => hx.trans hy.symm
    · rw [hx, hself, hne hy]
      exact fun _ hlive hblock => (hothers y hy hlive hblock.symm).elim
    · rw [hy, hself, hne hx]
      exact fun hlive _ hblock => (hothers x hx hlive hblock).elim
    · rw [hne hx, hne hy]
      exact h.unique x y

theorem hit (hj : Links.scan L.next (fun j => decide ((buf j).block = b)) NBUF (L.next none) = some j) :
    (buf j).block = b ∧ ∀ c : Buf ι, c.Live → c.block = b → Placed L (update buf j c) := by
  obtain ⟨l, hring, hall, hpair⟩ := h.ring
  rw [hring.next.scan (length_le hring)] at hj
  obtain ⟨hb, l1, l2, hl, hfirst⟩ := find?_eq_some_iff_append.mp hj
  have hb : (buf j).block = b := of_decide_eq_true hb
  have hfirst (i : Fin NBUF) (hi : i ∈ l1) : (buf i).block ≠ b := by simpa using hfirst i hi
  refine ⟨hb, fun c hc hblock => h.wake hring hall hpair hc (fun i hi hlive => ?_) hl (by rwa [hblock])⟩
  rw [hblock]
  intro hib
  -- another buffer with the block would stand behind this one, which is then in use as well
  have hmem : i ∈ l2 := by
    have hmem := hall i
    rw [hl] at hmem
    rcases mem_append.mp hmem with hmem | hmem
    · exact (hfirst i hmem hib).elim
    · exact (mem_cons.mp hmem).resolve_left hi
  by_cases hjlive : (buf j).Live
  · exact hi (h.unique i j hlive hjlive (hib.trans hb.symm))
  · rw [hl] at hpair
    have hbehind := (pairwise_cons.mp (pairwise_append.mp hpair).2.1).1 i hmem
    exact hbehind hlive hjlive (hb.trans hib.symm)

theorem none_cached
    (hnone : Links.scan L.next (fun j => decide ((buf j).block = b)) NBUF (L.next none) = none) (i : Fin NBUF) : (buf i).block ≠ b := by
  obtain ⟨l, hring, hall, -⟩ := h.ring
  rw [hring.next.scan (length_le hring)] at hnone
  simpa using find?_eq_none.mp hnone i (hall i)

theorem miss
    (hnone : Links.scan L.next (fun j => decide ((buf j).block = b)) NBUF (L.next none) = none) (hc : c.Live) (hblock : c.block = b) :
    Placed L (update buf j c) := by
  obtain ⟨l, hring, hall, hpair⟩ := h.ring
  have hother (i : Fin NBUF) : (buf i).block ≠ c.block := hblock ▸ h.none_cached hnone i
  obtain ⟨l1, l2, hl⟩ := append_of_mem (hall j)
  exact h.wake hring hall hpair hc (fun i _ _ => hother i) hl fun i _ => hother i

theorem set (hlive : c.Live ↔ (buf j).Live) (hblock : c.block = (buf j).block) :
    Placed L (update buf j c) := by
  refine h.congr (fun i => ?_) fun i => ?_
  all_goals
    by_cases hi : i = j
    · rw [hi, update_self]
      assumption
    · rw [update_of_ne hi]

theorem moveFront (hj : (buf j).Live) : Placed ((L.unlink j).pushFront j) buf := by
  obtain ⟨l, hring, hall, hpair⟩ := h.ring
  obtain ⟨l1, l2, hl⟩ := append_of_mem (hall j)
  rw [hl] at hring hpair
  refine ⟨⟨j :: (l1 ++ l2), hring.moveFront, fun i => ?_, pairwise_cons.mpr ⟨fun i _ _ hdead => (hdead hj).elim, ?_⟩⟩, h.unique⟩
  · have hi := hall i
    rw [hl] at hi
    exact perm_middle.mem_iff.mp hi
  · exact hpair.sublist ((sublist_cons_self j l2).append_left l1)

end

end Placed

/-- Nothing that was written is lost: it is in the buffer of its block, and on the disk
unless that buffer is marked. -/
structure Content (mem disk : BlockId → Block) (buf : Fin NBUF → Buf ι) : Prop where
  dirty : ∀ j, (buf j).dirty = true → (buf j).valid = true
  data : ∀ j, (buf j).valid = true → (buf j).data = mem (buf j).block
  disk : ∀ b, disk b = mem b ∨ ∃ j, (buf j).block = b ∧ (buf j).dirty = true

namespace Content
variable {mem disk : BlockId → Block} {buf : Fin NBUF → Buf ι} {j : Fin NBUF} {c : Buf ι}

theorem update {mem' disk' : BlockId → Block} (h : Content mem disk buf) (hdirty : c.dirty = true → c.valid = true)
    (hdata : c.valid = true → c.data = mem' c.block)
    (hmem : ∀ i, i ≠ j → (buf i).valid = true → mem' (buf i).block = mem (buf i).block)
    (hdisk : ∀ b, disk' b = mem' b ∨ (c.block = b ∧ c.dirty = true) ∨
      disk' b = disk b ∧ mem' b = mem b ∧ ((buf j).block = b → (buf j).dirty = false)) :
    Content mem' disk' (update buf j c) := by
  have hself : Function.update buf j c j = c := Function.update_self ..
  have hne {i : Fin NBUF} (hi : i ≠ j) : Function.update buf j c i = buf i := Function.update_of_ne hi ..
  refine ⟨fun i => ?_, fun i => ?_, fun b => ?_⟩
  · by_cases hi : i = j
    · rw [hi, hself]
      exact hdirty
    · rw [hne hi]
      exact h.dirty i
  · by_cases hi : i = j
    · rw [hi, hself]
      exact hdata
    · rw [hne hi]
      exact fun hvalid => (h.data i hvalid).trans (hmem i hi hvalid).symm
  · rcases hdisk b with hb | hb | ⟨hdisk, hmem, hclean⟩
    · exact .inl hb
    · refine .inr ⟨j, ?_⟩
      rwa [hself]
    · rw [hdisk, hmem]
      refine (h.disk b).imp id fun ⟨i, hib, hid⟩ => ⟨i, ?_⟩
      have hi : i ≠ j := by
        rintro rfl
        rw [hclean hib] at hid
        cases hid
      rw [hne hi]
      exact ⟨hib, hid⟩

theorem same (h : Content mem disk buf) (hvalid : c.valid = (buf j).valid) (hdirty : c.dirty = (buf j).dirty)
    (hblock : c.block = (buf j).block) (hdata : c.data = (buf j).data) : Content mem disk (Function.update buf j c) := by
  refine h.update ?_ ?_ (fun _ _ _ => rfl) fun b => ?_
  · rw [hdirty, hvalid]
    exact h.dirty j
  · rw [hvalid, hdata, hblock]
    exact h.data j
  · rcases Bool.eq_false_or_eq_true (buf j).dirty with hd | hd
    · by_cases hb : (buf j).block = b
      · exact .inr (.inl ⟨hblock.trans hb, hdirty.trans hd⟩)
      · exact .inr (.inr ⟨rfl, rfl, fun h => (hb h).elim⟩)
    · exact .inr (.inr ⟨rfl, rfl, fun _ => hd⟩)

end Content

namespace Pc

def At (j : Fin NBUF) : Pc → Prop
  | .idle => False
  | .got i _ | .locked i _ | .reading i _ | .writing i | .releasing i => i = j

/-- The process has locked the buffer in `bread` and has not yet seen that it is valid. -/
def Fills (j : Fin NBUF) : Pc → Prop
  | .locked i _ | .reading i _ => i = j
  | _ => False

/-- The references to a buffer that go with the process, beside its sleep-lock. -/
def uses (j : Fin NBUF) : Pc → ℕ
  | .got i _ | .releasing i => if i = j then 1 else 0
  | _ => 0

section Uses
variable (i j : Fin NBUF) (b : BlockId)

@[simp] theorem uses_idle : idle.uses j = 0 := rfl
@[simp] theorem uses_got : (got i b).uses j = if i = j then 1 else 0 := rfl
@[simp] theorem uses_locked : (locked i b).uses j = 0 := rfl
@[simp] theorem uses_reading : (reading i b).uses j = 0 := rfl
@[simp] theorem uses_writing : (writing i).uses j = 0 := rfl
@[simp] theorem uses_releasing : (releasing i).uses j = if i = j then 1 else 0 := rfl

end Uses

def Knows (p : ι) (c : Buf ι) : Pc → Prop
  | .idle => True
  | .got _ b => c.block = b
  | .locked _ b => c.block = b ∧ c.holder = some p
  | .reading _ b => c.block = b ∧ c.holder = some p ∧ c.valid = false
  | .writing _ => c.holder = some p ∧ c.dirty = true
  | .releasing _ => c.valid = true

end Pc

def Buf.held (c : Buf ι) : ℕ := if c.holder.isSome then 1 else 0

/-- What the step of another process may do to a buffer at which `q` is. -/
structure Kind (q : ι) (c c' : Buf ι) : Prop where
  block : c'.block = c.block
  valid : c.valid = true → c'.valid = true
  mine : c.holder = some q → c'.holder = some q ∧ c'.valid = c.valid ∧ c'.dirty = c.dirty

theorem Kind.of_holder (hc : c.holder = some p) (hq : q ≠ p) (hblock : c'.block = c.block)
    (hvalid : c.valid = true → c'.valid = true) : Kind q c c' :=
  ⟨hblock, hvalid, fun hj => (hq (Option.some.inj (hj.symm.trans hc))).elim⟩

theorem Kind.knows {q : ι} {x : Pc} (h : Kind q c c') (hx : x.Knows q c) : x.Knows q c' := by
  cases x with
  | idle => trivial
  | got => exact h.block.trans hx
  | locked => exact ⟨h.block.trans hx.1, (h.mine hx.2).1⟩
  | reading =>
    obtain ⟨hholder, hvalid, -⟩ := h.mine hx.2.1
    exact ⟨h.block.trans hx.1, hholder, hvalid.trans hx.2.2⟩
  | writing =>
    obtain ⟨hholder, -, hdirty⟩ := h.mine hx.1
    exact ⟨hholder, hdirty.trans hx.2⟩
  | releasing => exact h.valid hx

variable [Fintype ι]

/-- `mem` is what the blocks hold for those who use the cache. -/
structure Inv (mem : BlockId → Block) (s : State ι) : Prop where
  placed : Placed s.links s.buf
  refcnt : ∀ j, (s.buf j).refcnt = (s.buf j).held + ∑ p, (s.pc p).uses j
  pc : ∀ p j, (s.pc p).At j → (s.pc p).Knows p (s.buf j)
  filled : ∀ j p, (s.buf j).holder = some p → (s.buf j).valid = true ∨ (s.pc p).Fills j
  content : Content mem s.disk s.buf

namespace Inv
variable [DecidableEq ι] {mem mem' disk : BlockId → Block} {s : State ι} {p q : ι} {j : Fin NBUF} {c : Buf ι} {x : Pc}
  {L : Links (Fin NBUF)}

omit [DecidableEq ι] in
theorem refcnt_of_holder (h : Inv mem s) (hj : (s.buf j).holder = some q) : 0 < (s.buf j).refcnt := by
  have hcount := h.refcnt j
  rw [Buf.held, hj, Option.isSome_some, if_pos rfl] at hcount
  omega

omit [DecidableEq ι] in
theorem refcnt_of_at (h : Inv mem s) (hq : (s.pc q).At j) : 0 < (s.buf j).refcnt := by
  have hknows := h.pc q j hq
  have hle : (s.pc q).uses j ≤ ∑ p, (s.pc p).uses j :=
    Finset.single_le_sum (f := fun p => (s.pc p).uses j) (fun _ _ => Nat.zero_le _) (Finset.mem_univ q)
  have hcount := h.refcnt j
  have huses (huses : (s.pc q).uses j = 1) : 0 < (s.buf j).refcnt := by omega
  cases hpc : s.pc q with
  | idle =>
    rw [hpc] at hq
    exact hq.elim
  | got | releasing =>
    rw [hpc] at hq huses
    exact huses (if_pos hq)
  | locked =>
    rw [hpc] at hknows
    exact h.refcnt_of_holder hknows.2
  | reading =>
    rw [hpc] at hknows
    exact h.refcnt_of_holder hknows.2.1
  | writing =>
    rw [hpc] at hknows
    exact h.refcnt_of_holder hknows.1

theorem update (h : Inv mem s) (log : Log) (hplaced : Placed L (update s.buf j c))
    (hcount : c.refcnt + ((s.buf j).held + (s.pc p).uses j) = (s.buf j).refcnt + (c.held + x.uses j))
    (hother : ∀ i, i ≠ j → x.uses i = (s.pc p).uses i ∧ ¬ (s.pc p).Fills i ∧ ¬ x.At i) (hx : x.Knows p c)
    (hkind : ∀ q, q ≠ p → (s.pc q).At j → Kind q (s.buf j) c)
    (hfilled : ∀ q, c.holder = some q → c.valid = true ∨ (update s.pc p x q).Fills j)
    (hcontent : Content mem' disk (update s.buf j c)) :
    Inv mem' ⟨L, update s.buf j c, disk, log, update s.pc p x⟩ := by
  refine ⟨hplaced, fun i => ?_, fun q i => ?_, fun i q => ?_, hcontent⟩
  · have hsum := sum_of_ne (f := fun q => (s.pc q).uses i) (g := fun q => (Function.update s.pc p x q).uses i) (p := p)
      fun q hq => by rw [update_of_ne hq]
    dsimp only at hsum ⊢
    rw [update_self] at hsum
    have hold := h.refcnt i
    by_cases hij : i = j
    · subst hij
      rw [update_self]
      omega
    · rw [update_of_ne hij]
      have huses := (hother i hij).1
      omega
  · dsimp only
    by_cases hq : q = p <;> by_cases hij : i = j
    · rw [hq, hij, update_self, update_self]
      exact fun _ => hx
    · rw [hq, update_self]
      exact fun hi => ((hother i hij).2.2 hi).elim
    · rw [hij, update_of_ne hq, update_self]
      exact fun hj => (hkind q hq hj).knows (h.pc q j hj)
    · rw [update_of_ne hq, update_of_ne hij]
      exact h.pc q i
  · dsimp only
    by_cases hij : i = j
    · subst hij
      rw [update_self]
      exact hfilled q
    · rw [update_of_ne hij]
      intro hi
      refine (h.filled i q hi).imp id fun hfills => ?_
      have hq : q ≠ p := by
        rintro rfl
        exact (hother i hij).2.1 hfills
      rwa [update_of_ne hq]

omit [Fintype ι] in
theorem fills_update (hp : ¬ (s.pc p).Fills j) (hq : (s.pc q).Fills j) : (Function.update s.pc p x q).Fills j := by
  have hqp : q ≠ p := by
    rintro rfl
    exact hp hq
  rwa [update_of_ne hqp]

theorem hit {b : BlockId} (h : Inv mem s) (hpc : s.pc p = .idle) (hj : s.cached b = some j) :
    Inv mem ((s.setBuf j { s.buf j with refcnt := (s.buf j).refcnt + 1 }).setPc p (.got j b)) := by
  obtain ⟨hb, hplaced⟩ := h.placed.hit hj
  refine h.update _ (hplaced _ (.inr (Nat.succ_pos _)) hb) ?_ (fun i hi => ?_) hb
    (fun q _ _ => ⟨rfl, id, fun hq => ⟨hq, rfl, rfl⟩⟩) (fun q hq => (h.filled j q hq).imp id (fills_update ?_))
    (h.content.same rfl rfl rfl rfl)
  · rw [hpc, uses_idle, uses_got, if_pos rfl]
    change (s.buf j).refcnt + 1 + ((s.buf j).held + 0) = (s.buf j).refcnt + ((s.buf j).held + 1)
    omega
  · rw [hpc]
    exact ⟨if_neg hi.symm, id, hi.symm⟩
  · rw [hpc]
    exact id

omit [DecidableEq ι] in
theorem holder_of_zero (h : Inv mem s) (hzero : (s.buf j).refcnt = 0) : (s.buf j).holder = none := by
  by_contra hne
  obtain ⟨q, hq⟩ := Option.ne_none_iff_exists'.mp hne
  have hpos := h.refcnt_of_holder hq
  omega

theorem recycle {b : BlockId} (h : Inv mem s) (hpc : s.pc p = .idle) (hnone : s.cached b = none) (hj : s.unused = some j) :
    Inv mem ((s.setBuf j { s.buf j with block := b, valid := false, dirty := false, refcnt := 1 }).setPc p (.got j b)) := by
  obtain ⟨hzero, hclean⟩ := s.of_unused hj
  have hholder := h.holder_of_zero hzero
  refine h.update _ (h.placed.miss hnone (.inr Nat.one_pos) rfl) ?_ (fun i hi => ?_) rfl (fun q _ hq => ?_)
    (fun q hq => by rw [show _ = none from hholder] at hq; cases hq) ?_
  · rw [hpc, uses_idle, uses_got, if_pos rfl]
    change 1 + ((s.buf j).held + 0) = (s.buf j).refcnt + ((s.buf j).held + 1)
    omega
  · rw [hpc]
    exact ⟨if_neg hi.symm, id, hi.symm⟩
  · have hpos := h.refcnt_of_at hq
    omega
  · exact h.content.update (fun hd => by cases hd) (fun hv => by cases hv) (fun _ _ _ => rfl)
      fun b => .inr (.inr ⟨rfl, rfl, fun _ => hclean⟩)

variable {b : BlockId} {t : State ι}

theorem acquiresleep (h : Inv mem s) (hpc : s.pc p = .got j b) (hnone : (s.buf j).holder = none) :
    Inv mem ((s.setBuf j { s.buf j with holder := some p }).setPc p (.locked j b)) := by
  have hblock : (s.buf j).block = b := by
    have hknows := h.pc p j (by rw [hpc]; rfl)
    rwa [hpc] at hknows
  refine h.update _ (h.placed.set Iff.rfl rfl) ?_ (fun i hi => ?_) ⟨hblock, rfl⟩ (fun q _ _ => ⟨rfl, id, fun hq => ?_⟩)
    (fun q hq => ?_) (h.content.same rfl rfl rfl rfl)
  · have hold : (s.buf j).held = 0 := by
      rw [Buf.held, hnone]
      rfl
    rw [hpc, hold, uses_got, uses_locked, if_pos rfl]
    change (s.buf j).refcnt + (0 + 1) = (s.buf j).refcnt + (1 + 0)
    omega
  · rw [hpc]
    exact ⟨(if_neg hi.symm).symm, id, hi.symm⟩
  · rw [hnone] at hq
    cases hq
  · cases hq
    right
    rw [update_self]
    rfl

theorem check (h : Inv mem s) (hpc : s.pc p = .locked j b) :
    Inv mem (s.setPc p (if (s.buf j).valid then .idle else .reading j b)) := by
  have hknows := h.pc p j (by rw [hpc]; rfl)
  rw [hpc] at hknows
  obtain ⟨hblock, hholder⟩ := hknows
  -- no buffer changes
  have hgo (x : Pc) (huses : ∀ i, x.uses i = 0) (hat : ∀ i, i ≠ j → ¬ x.At i) (hx : x.Knows p (s.buf j))
      (hfilled : (s.buf j).valid = true ∨ x.Fills j) : Inv mem (s.setPc p x) := by
    have hplaced := h.placed
    have hcontent := h.content
    rw [← update_eq_self j s.buf] at hplaced hcontent
    have hupdate := h.update (p := p) (x := x) s.log hplaced (by rw [huses, hpc, uses_locked])
      (fun i hi => ⟨by rw [huses, hpc, uses_locked], by rw [hpc]; exact hi.symm, hat i hi⟩) hx
      (fun q _ _ => ⟨rfl, id, fun hq => ⟨hq, rfl, rfl⟩⟩) (fun q hq => ?_) hcontent
    · rwa [update_eq_self] at hupdate
    · obtain rfl : q = p := Option.some.inj (hq.symm.trans hholder)
      rwa [update_self]
  cases hvalid : (s.buf j).valid with
  | true => exact hgo .idle (fun _ => rfl) (fun _ _ => id) trivial (.inl hvalid)
  | false => exact hgo (.reading j b) (fun _ => rfl) (fun _ hi => hi.symm) ⟨hblock, hholder, hvalid⟩ (.inr rfl)

omit [DecidableEq ι] in
theorem disk_of_invalid (h : Inv mem s) (hj : 0 < (s.buf j).refcnt) (hvalid : (s.buf j).valid = false) :
    s.disk (s.buf j).block = mem (s.buf j).block := by
  refine (h.content.disk (s.buf j).block).resolve_right fun ⟨i, hblock, hdirty⟩ => ?_
  have hi := h.content.dirty i hdirty
  obtain rfl := h.placed.unique i j (.inl hi) (.inr hj) hblock
  rw [hvalid] at hi
  cases hi

theorem read (h : Inv mem s) (hpc : s.pc p = .reading j b) (ht : s.iderw p j = some t) :
    Inv mem (t.setPc p .idle) := by
  have hknows := h.pc p j (by rw [hpc]; rfl)
  rw [hpc] at hknows
  obtain ⟨hblock, hholder, hinvalid⟩ := hknows
  have hpos := h.refcnt_of_holder hholder
  have hclean : (s.buf j).dirty = false := by
    by_contra hd
    have hvalid := h.content.dirty j (by simpa using hd)
    rw [hinvalid] at hvalid
    cases hvalid
  rw [State.iderw, if_neg (by simpa using hholder), if_neg (by simp [hinvalid]), if_neg (by simp [hclean])] at ht
  cases ht
  refine h.update _ (h.placed.set ⟨fun _ => .inr hpos, fun _ => .inl rfl⟩ rfl) (by rw [hpc]; rfl) (fun i hi => ?_) trivial
    (fun q hq _ => .of_holder hholder hq rfl fun _ => rfl) (fun _ _ => .inl rfl) ?_
  · rw [hpc]
    exact ⟨rfl, hi.symm, id⟩
  · exact h.content.update (fun _ => rfl) (fun _ => h.disk_of_invalid hpos hinvalid) (fun _ _ _ => rfl)
      fun b => .inr (.inr ⟨rfl, rfl, fun _ => hclean⟩)

theorem write (h : Inv mem s) (hpc : s.pc p = .writing j) (ht : s.iderw p j = some t) :
    Inv mem (t.setPc p .idle) := by
  have hknows := h.pc p j (by rw [hpc]; rfl)
  rw [hpc] at hknows
  obtain ⟨hholder, hdirty⟩ := hknows
  have hvalid := h.content.dirty j hdirty
  rw [State.iderw, if_neg (by simpa using hholder), if_neg (by simp [hdirty]), if_pos hdirty] at ht
  cases ht
  refine h.update _ (h.placed.set ⟨fun _ => .inl hvalid, fun _ => .inl rfl⟩ rfl) (by rw [hpc]; rfl) (fun i hi => ?_) trivial
    (fun q hq _ => .of_holder hholder hq rfl fun _ => rfl) (fun _ _ => .inl rfl) ?_
  · rw [hpc]
    exact ⟨rfl, id, id⟩
  · refine h.content.update (fun _ => rfl) (fun _ => h.content.data j hvalid) (fun _ _ _ => rfl) fun b => ?_
    by_cases hb : b = (s.buf j).block
    · subst hb
      left
      dsimp only
      rw [update_self]
      exact h.content.data j hvalid
    · exact .inr (.inr ⟨update_of_ne hb .., rfl, fun hj => (hb hj.symm).elim⟩)

omit [DecidableEq ι] in
theorem valid_of_holds (h : Inv mem s) (hp : s.Holds p j) : (s.buf j).valid = true := by
  obtain ⟨hpc, hholder⟩ := State.holds_iff.mp hp
  refine (h.filled j p hholder).resolve_right fun hfills => ?_
  rw [hpc] at hfills
  exact hfills

theorem store (h : Inv mem s) (log : Log) (hp : s.Holds p j) (data : Block) (huses : ∀ i, x.uses i = 0) (hat : ∀ i, i ≠ j → ¬ x.At i)
    (hx : x.Knows p { s.buf j with data := data, dirty := true }) :
    Inv (Function.update mem (s.buf j).block data)
      ⟨s.links, Function.update s.buf j { s.buf j with data := data, dirty := true }, s.disk, log, Function.update s.pc p x⟩ := by
  obtain ⟨hpc, hholder⟩ := State.holds_iff.mp hp
  have hvalid := h.valid_of_holds hp
  refine h.update _ (h.placed.set Iff.rfl rfl) (by rw [hpc, huses]; rfl) (fun i hi => ?_) hx
    (fun q hq _ => .of_holder hholder hq rfl id) (fun _ _ => .inl hvalid) ?_
  · rw [hpc, huses]
    exact ⟨rfl, id, hat i hi⟩
  · refine h.content.update (fun _ => hvalid) (fun _ => ?_) (fun i hi hv => ?_) fun b => ?_
    · dsimp only
      rw [update_self]
    · refine update_of_ne (fun hblock => hi ?_) ..
      exact h.placed.unique i j (.inl hv) (.inl hvalid) hblock
    · by_cases hb : b = (s.buf j).block
      · exact .inr (.inl ⟨hb.symm, rfl⟩)
      · exact .inr (.inr ⟨rfl, update_of_ne hb .., fun hj => (hb hj.symm).elim⟩)

theorem releasesleep (h : Inv mem s) (hp : s.Holds p j) :
    Inv mem ((s.setBuf j { s.buf j with holder := none }).setPc p (.releasing j)) := by
  obtain ⟨hpc, hholder⟩ := State.holds_iff.mp hp
  refine h.update _ (h.placed.set Iff.rfl rfl) ?_ (fun i hi => ?_) (h.valid_of_holds hp)
    (fun q hq _ => .of_holder hholder hq rfl id) (fun _ hj => by cases hj) (h.content.same rfl rfl rfl rfl)
  · have hold : (s.buf j).held = 1 := by
      rw [Buf.held, hholder]
      rfl
    rw [hpc, hold, uses_idle, uses_releasing, if_pos rfl]
    change (s.buf j).refcnt + (1 + 0) = (s.buf j).refcnt + (0 + 1)
    omega
  · rw [hpc]
    exact ⟨if_neg hi.symm, id, hi.symm⟩

theorem unref (h : Inv mem s) (hpc : s.pc p = .releasing j) : Inv mem ((s.unref j).setPc p .idle) := by
  have hat : (s.pc p).At j := by
    rw [hpc]
    rfl
  have hvalid := h.pc p j hat
  rw [hpc] at hvalid
  have hpos := h.refcnt_of_at hat
  have hplaced : Placed s.links (Function.update s.buf j { s.buf j with refcnt := (s.buf j).refcnt - 1 }) :=
    h.placed.set ⟨fun _ => .inl hvalid, fun _ => .inl hvalid⟩ rfl
  have hgo {L : Links (Fin NBUF)} (hL : Placed L (Function.update s.buf j { s.buf j with refcnt := (s.buf j).refcnt - 1 })) :
      Inv mem ⟨L, Function.update s.buf j { s.buf j with refcnt := (s.buf j).refcnt - 1 }, s.disk, s.log,
        Function.update s.pc p .idle⟩ := by
    refine h.update _ hL ?_ (fun i hi => ?_) trivial (fun q _ _ => ⟨rfl, id, fun hj => ⟨hj, rfl, rfl⟩⟩) (fun _ _ => .inl hvalid)
      (h.content.same rfl rfl rfl rfl)
    · rw [hpc, uses_idle, uses_releasing, if_pos rfl]
      change (s.buf j).refcnt - 1 + ((s.buf j).held + 1) = (s.buf j).refcnt + ((s.buf j).held + 0)
      omega
    · rw [hpc]
      exact ⟨(if_neg hi.symm).symm, id, id⟩
  unfold State.unref
  dsimp only
  split
  case isTrue => exact hgo (hplaced.moveFront (by rw [update_self]; exact .inl hvalid))
  case isFalse => exact hgo hplaced

theorem step (h : Inv mem s) (hs : Steps State.step s l s') : Inv (s.written mem l) s' := by
  cases s.moves_of_step hs with
  | hit hpc hj => exact h.hit hpc hj
  | recycle hpc hnone hj => exact h.recycle hpc hnone hj
  | acquiresleep hpc hnone => exact h.acquiresleep hpc hnone
  | check hpc => exact h.check hpc
  | read hpc ht => exact h.read hpc ht
  | write hpc ht => exact h.write hpc ht
  | bwrite hp => exact h.store _ hp _ (fun _ => rfl) (fun _ hi => hi.symm) ⟨(State.holds_iff.mp hp).2, rfl⟩
  | logWrite data log hp =>
    have hstore := h.store (x := .idle) log hp data (fun _ => rfl) (fun _ _ => id) trivial
    rwa [← (State.holds_iff.mp hp).1, update_eq_self] at hstore
  | releasesleep hp => exact h.releasesleep hp
  | unref hpc => exact h.unref hpc
  | setLog => exact ⟨h.placed, h.refcnt, h.pc, h.filled, h.content⟩

end Inv
end Xv6.Bio
