import Xv6.Fs.Filling
import Xv6.Mkfs.Disk

/-! # Appending to a file of the image

`mkfs` hands out blocks in order and never takes one back: a file has exactly the blocks
for the bytes it holds, and the blocks from `freeblock` on have not been written.
-/
namespace Xv6
open Function Comp BlockRef

/-- The first block of a file for which the place is needed. -/
def BlockRef.first : BlockRef → ℕ
  | direct n => n
  | indirect => NDIRECT
  | entry j => NDIRECT + j

theorem first_of_place (h : placeOf bn = some r) : r.first = bn := by
  obtain ⟨hne, hnumber⟩ := placeOf_eq_some h
  cases r with
  | indirect => exact (hne rfl).elim
  | _ => exact hnumber

namespace Mkfs

/-- The places of a file of `nb` blocks. -/
def needed (nb : ℕ) : Set BlockRef := { r | r.first < nb }

/-- The blocks that a file of `nb` blocks takes, with its indirect block. -/
def cost (nb : ℕ) : ℕ := nb + if NDIRECT < nb then 1 else 0

/-- The number of blocks for `n` bytes. -/
def blocksFor (n : ℕ) : ℕ := (n + BSIZE - 1) / BSIZE

variable {nb bn off : ℕ} {d : Dinode} {n : Fin 8}

theorem needed_direct (h : nb < NDIRECT) : insert (.direct ⟨nb, h⟩) (needed nb) = needed (nb + 1) := by
  ext r
  simp only [needed, Set.mem_insert_iff, Set.mem_ofPred_eq]
  cases r with
  | direct =>
    simp only [direct.injEq, Fin.ext_iff, first]
    omega
  | indirect | entry =>
    simp only [first, reduceCtorEq, false_or]
    omega

theorem needed_entry (h : NDIRECT ≤ nb) (hlt : nb - NDIRECT < NINDIRECT) :
    insert (.entry ⟨nb - NDIRECT, hlt⟩) (insert .indirect (needed nb)) = needed (nb + 1) := by
  ext r
  simp only [needed, Set.mem_insert_iff, Set.mem_ofPred_eq]
  cases r with
  | direct n =>
    have hn := n.isLt
    simp only [first, reduceCtorEq, false_or]
    omega
  | indirect =>
    simp only [first, reduceCtorEq, false_or, true_or, true_iff]
    omega
  | entry =>
    simp only [entry.injEq, Fin.ext_iff, first, reduceCtorEq, false_or]
    omega

/-- What the image holds: `node` are its inodes, the one in hand as it is in memory, `mem`
the bytes of the files, and `fills` the places that name a block. -/
structure Holds (s : Build) (node : ℕ → Dinode) (mem : ℕ → Mem) (fills : ℕ → Set BlockRef) : Prop where
  ledger : Ledger (owner node s.image) ∅ { b | b < nmeta } { b | b < s.freeblock }
  low : nmeta ≤ s.freeblock
  high : s.freeblock ≤ FSSIZE
  blank : ∀ a : Word, s.freeblock ≤ a.toNat → ∀ o, s.image a o = 0
  contents : ∀ j, (node j).type ≠ .free → (node j).contents s.image = mem j
  places : ∀ j, (node j).type ≠ .free → ∀ r, (node j).addr s.image r ≠ 0 ↔ r ∈ fills j

/-- Only data blocks have been written. -/
structure Kept (s s' : Build) : Prop where
  freeinode : s'.freeinode = s.freeinode
  image : ∀ a : Word, a.toNat < nmeta → s'.image a = s.image a

namespace Kept
variable {s s' s'' : Build}

theorem refl (s : Build) : Kept s s := ⟨rfl, fun _ _ => rfl⟩

theorem trans (h : Kept s s') (h' : Kept s' s'') : Kept s s'' :=
  ⟨h'.freeinode.trans h.freeinode, fun a ha => (h'.image a ha).trans (h.image a ha)⟩

theorem nodeOf (h : Kept s s') : nodeOf s'.image = nodeOf s.image :=
  nodeOf_congr fun a ha => h.image a (ha.trans bmapstart_lt)

end Kept

variable {s s' : Build} {node : ℕ → Dinode} {mem : ℕ → Mem} {fills : ℕ → Set BlockRef} {inum : ℕ} {r : BlockRef}

namespace Holds

section
variable (h : Holds s node mem fills)
include h

theorem addr_bounds (hlive : (node inum).type ≠ .free) (hr : (node inum).addr s.image r ≠ 0) :
    nmeta ≤ ((node inum).addr s.image r).toNat ∧ ((node inum).addr s.image r).toNat < s.freeblock := by
  have hown := owner_of_addr hlive hr
  exact ⟨Nat.le_of_not_lt (h.ledger.held _ _ hown).1, h.ledger.used_of_own hown⟩

theorem next_toNat : (BitVec.ofNat 32 s.freeblock).toNat = s.freeblock := by
  have hhigh := h.high
  have hsize : FSSIZE < 2 ^ 32 := by decide
  exact Nat.mod_eq_of_lt (by omega)

theorem next_ne : BitVec.ofNat 32 s.freeblock ≠ 0 := by
  intro hz
  have hnat := h.next_toNat
  rw [hz] at hnat
  have hlow := h.low
  have hmeta : 0 < nmeta := by decide
  rw [← hnat] at hlow
  exact absurd hlow (Nat.not_le.mpr hmeta)

theorem take :
    Ledger (owner node s.image) {(BitVec.ofNat 32 s.freeblock).toNat} { b | b < nmeta } { b | b < s.freeblock + 1 } := by
  have htake := h.ledger.take (b := s.freeblock) (Nat.lt_irrefl _)
  rw [insert_empty_eq] at htake
  rw [h.next_toNat]
  convert htake using 1
  ext b
  simp only [Set.mem_ofPred_eq, Set.mem_insert_iff]
  omega

theorem fill (hlive : (node inum).type ≠ .free) (hroom : s.freeblock < FSSIZE)
    (hr : r ∉ fills inum) (hfree : s'.freeblock = s.freeblock + 1) (htype : d.type = (node inum).type)
    (haddr : d.addr s'.image = update ((node inum).addr s.image) r (BitVec.ofNat 32 s.freeblock))
    (haddrs : ∀ j, j ≠ inum → (node j).type ≠ .free → (node j).addr s'.image = (node j).addr s.image)
    (hdata : ∀ j r', (node j).type ≠ .free → r' ≠ .indirect → (node j).addr s.image r' ≠ 0 →
      s'.image ((node j).addr s.image r') = s.image ((node j).addr s.image r'))
    (hblank : ∀ a : Word, s.freeblock ≤ a.toNat → s'.image a = s.image a) :
    Holds s' (update node inum d) mem (update fills inum (insert r (fills inum))) := by
  have hempty : (node inum).addr s.image r = 0 := not_not.mp ((h.places inum hlive r).not.mpr hr)
  have hzero (o : ℕ) : s'.image (BitVec.ofNat 32 s.freeblock) o = 0 := by
    rw [hblank _ h.next_toNat.ge]
    exact h.blank _ h.next_toNat.ge o
  obtain ⟨hledger, -, hcontents⟩ := h.take.fill hlive h.next_ne hempty htype haddr haddrs hdata hzero
  have hold (j : ℕ) (hj : (update node inum d j).type ≠ .free) : (node j).type ≠ .free := by
    by_cases hji : j = inum
    · rw [hji]
      exact hlive
    · rwa [update_of_ne hji] at hj
  refine ⟨hfree ▸ hledger, by have := h.low; omega, by omega, fun a ha o => ?_, fun j hj => ?_, fun j hj r' => ?_⟩
  · rw [hblank a (by omega)]
    exact h.blank a (by omega) o
  · rw [hcontents j (hold j hj), h.contents j (hold j hj)]
  · by_cases hji : j = inum
    · subst hji
      rw [update_self, update_self, haddr, Set.mem_insert_iff]
      by_cases hr' : r' = r
      · subst hr'
        rw [update_self]
        exact ⟨fun _ => .inl rfl, fun _ => h.next_ne⟩
      · rw [update_of_ne hr', h.places j hlive]
        exact ⟨.inr, fun hor => hor.resolve_left hr'⟩
    · rw [update_of_ne hji, update_of_ne hji, haddrs j hji (hold j hj)]
      exact h.places j (hold j hj) r'

theorem write (hlive : (node inum).type ≠ .free)
    (hr : placeOf bn = some r) (hne : (node inum).addr s.image r ≠ 0) (hoff : off + src.length ≤ BSIZE) :
    Holds (s.put ((node inum).addr s.image r) ((s.image ((node inum).addr s.image r)).write off src)) node
      (update mem inum ((mem inum).write (bn * BSIZE + off) src)) fills := by
  have hput : (s.put ((node inum).addr s.image r) ((s.image ((node inum).addr s.image r)).write off src)).image =
    update s.image ((node inum).addr s.image r) ((s.image ((node inum).addr s.image r)).write off src) := rfl
  obtain ⟨haddr, howner, hwritten, hrest⟩ := h.ledger.write hlive hr hne hoff hput
  refine ⟨howner.symm ▸ h.ledger, h.low, h.high, fun a ha o => ?_, fun j hj => ?_, fun j hj r' => ?_⟩
  · have hlt := (h.addr_bounds hlive hne).2
    refine (congrFun (update_of_ne ?_ ..) o).trans (h.blank a ha o)
    rintro rfl
    exact absurd hlt (Nat.not_lt.mpr ha)
  · by_cases hji : j = inum
    · subst hji
      rw [update_self, ← h.contents j hj]
      exact hwritten
    · rw [update_of_ne hji, ← h.contents j hj]
      exact hrest j hji hj
  · rw [haddr j hj]
    exact h.places j hj r'

theorem write_kept (hlive : (node inum).type ≠ .free) (hne : (node inum).addr s.image r ≠ 0) :
    Kept s (s.put ((node inum).addr s.image r) m) := by
  refine ⟨rfl, fun a ha => update_of_ne ?_ ..⟩
  rintro rfl
  exact absurd ha (Nat.not_lt.mpr (h.addr_bounds hlive hne).1)

end

end Holds

/-- The inode in hand has the blocks of a file of `nb` blocks, and of one of `nb'` after
the step. -/
structure Grew (node : ℕ → Dinode) (mem : ℕ → Mem) (fills : ℕ → Set BlockRef) (inum nb nb' : ℕ)
    (s : Build) (d : Dinode) (s' : Build) : Prop where
  holds : Holds s' (update node inum d) mem (update fills inum (needed nb'))
  fields : ∃ addrs, d = { node inum with addrs := addrs }
  kept : Kept s s'
  taken : s'.freeblock + cost nb = s.freeblock + cost nb'

namespace Grew
variable {d d' : Dinode} {s'' : Build} {mem' : ℕ → Mem} {nb nb' nb'' : ℕ}

theorem refl (h : Holds s node mem fills) (hfills : fills inum = needed nb) :
    Grew node mem fills inum nb nb s (node inum) s := by
  refine ⟨?_, ⟨(node inum).addrs, rfl⟩, .refl s, rfl⟩
  rw [← hfills, update_eq_self, update_eq_self]
  exact h

section
variable (h : Grew node mem fills inum nb nb' s d s')
include h

theorem trans (h' : Grew (update node inum d) mem' (update fills inum (needed nb')) inum nb' nb'' s' d' s'') :
    Grew node mem' fills inum nb nb'' s d' s'' := by
  obtain ⟨addrs, hfields⟩ := h.fields
  obtain ⟨addrs', hfields'⟩ := h'.fields
  have hholds := h'.holds
  rw [update_idem, update_idem] at hholds
  rw [update_self, hfields] at hfields'
  have htaken := h.taken
  have htaken' := h'.taken
  exact ⟨hholds, ⟨addrs', hfields'⟩, h.kept.trans h'.kept, by omega⟩

theorem type : d.type = (node inum).type := by
  obtain ⟨addrs, hfields⟩ := h.fields
  rw [hfields]

theorem addr_ne (hlive : (node inum).type ≠ .free) (hr : placeOf bn = some r) (hbn : bn < nb') : d.addr s'.image r ≠ 0 := by
  have hplaces := h.holds.places inum
  rw [update_self, update_self] at hplaces
  refine (hplaces (h.type ▸ hlive) r).mpr ?_
  exact (first_of_place hr).trans_lt hbn

theorem write (hlive : (node inum).type ≠ .free)
    (off : ℕ) (src : List UInt8) (hr : placeOf bn = some r) (hbn : bn < nb') (hoff : off + src.length ≤ BSIZE) :
    Grew node (update mem inum ((mem inum).write (bn * BSIZE + off) src)) fills inum nb nb' s d
      (s'.put (d.addr s'.image r) ((s'.image (d.addr s'.image r)).write off src)) := by
  have hself : update node inum d inum = d := update_self ..
  have hlive' : (update node inum d inum).type ≠ .free := by
    rw [hself, h.type]
    exact hlive
  have hne : (update node inum d inum).addr s'.image r ≠ 0 := by
    rw [hself]
    exact h.addr_ne hlive hr hbn
  have hholds := h.holds.write hlive' hr hne hoff
  have hkept := h.holds.write_kept (m := (s'.image (d.addr s'.image r)).write off src) hlive' hne
  rw [hself] at hholds hkept
  exact ⟨hholds, h.fields, h.kept.trans hkept, h.taken⟩

end

end Grew

theorem fillAddr_old (h : d.addrs n ≠ 0) : fillAddr d n s = .ok (d, s) := by
  rw [fillAddr, if_neg h]
  rfl

theorem fillAddr_new (h : Holds s node mem fills) (hlive : (node inum).type ≠ .free)
    (hroom : s.freeblock < FSSIZE) (hn : refOf n ∉ fills inum) :
    ∃ d s', fillAddr (node inum) n s = .ok (d, s') ∧
      Holds s' (update node inum d) mem (update fills inum (insert (refOf n) (fills inum))) ∧
      (∃ addrs, d = { node inum with addrs := addrs }) ∧ Kept s s' ∧ s'.freeblock = s.freeblock + 1 := by
  have hempty : (node inum).addrs n = 0 := by
    have haddr : (node inum).addr s.image (refOf n) = 0 := not_not.mp ((h.places inum hlive _).not.mpr hn)
    rwa [Dinode.addr_refOf] at haddr
  refine ⟨{ node inum with addrs := update (node inum).addrs n (BitVec.ofNat 32 s.freeblock) },
    { s with freeblock := s.freeblock + 1 }, ?_, ?_, ⟨_, rfl⟩, ⟨rfl, fun _ _ => rfl⟩, rfl⟩
  · rw [fillAddr, if_pos hempty]
    rfl
  · exact h.fill hlive hroom hn rfl rfl (Dinode.addr_setAddr hempty h.next_ne (h.blank _ h.next_toNat.ge))
      (fun _ _ _ => rfl) (fun _ _ _ _ _ => rfl) fun _ _ => rfl

theorem fillEntry_new (inum : ℕ) (j : Fin NINDIRECT) (h : Holds s node mem fills) (hlive : (node inum).type ≠ .free)
    (hroom : s.freeblock < FSSIZE) (ht : .indirect ∈ fills inum) (hj : .entry j ∉ fills inum) :
    ∃ s', fillEntry ((node inum).addrs INDIRECT) j s = .ok (BitVec.ofNat 32 s.freeblock, s') ∧
      Holds s' node mem (update fills inum (insert (.entry j) (fills inum))) ∧
      (node inum).addr s'.image (.entry j) = BitVec.ofNat 32 s.freeblock ∧ Kept s s' ∧ s'.freeblock = s.freeblock + 1 := by
  have htable : (node inum).addrs INDIRECT ≠ 0 := (h.places inum hlive .indirect).mpr ht
  have hbounds := h.addr_bounds hlive (r := .indirect) htable
  have hempty : (node inum).addr s.image (.entry j) = 0 := not_not.mp ((h.places inum hlive _).not.mpr hj)
  have hword : (s.image ((node inum).addrs INDIRECT)).word (4 * j) = 0 := by
    rw [← hempty]
    exact (if_neg htable).symm
  obtain ⟨hother, hdata, -⟩ := h.take.write_indirect hlive htable
    ((s.image ((node inum).addrs INDIRECT)).write (4 * j) (wordBytes (BitVec.ofNat 32 s.freeblock)))
  have haddr : (node inum).addr (update s.image ((node inum).addrs INDIRECT)
      ((s.image ((node inum).addrs INDIRECT)).write (4 * j) (wordBytes (BitVec.ofNat 32 s.freeblock)))) =
      update ((node inum).addr s.image) (.entry j) (BitVec.ofNat 32 s.freeblock) := Dinode.addr_setEntry htable
  have hrun : fillEntry ((node inum).addrs INDIRECT) j s = .ok (BitVec.ofNat 32 s.freeblock,
      { s with freeblock := s.freeblock + 1 }.put ((node inum).addrs INDIRECT)
        ((s.image ((node inum).addrs INDIRECT)).write (4 * j) (wordBytes (BitVec.ofNat 32 s.freeblock)))) := by
    have hlt : ((node inum).addrs INDIRECT).toNat < FSSIZE := hbounds.2.trans hroom
    rw [fillEntry, bind_of_ok (rsect_run hlt), if_pos hword]
    rfl
  generalize hm : (s.image ((node inum).addrs INDIRECT)).write (4 * j) (wordBytes (BitVec.ofNat 32 s.freeblock)) = m at *
  have himage : ({ s with freeblock := s.freeblock + 1 }.put ((node inum).addrs INDIRECT) m).image =
    update s.image ((node inum).addrs INDIRECT) m := rfl
  have hsame {a : Word} (ha : a ≠ (node inum).addrs INDIRECT) :
      ({ s with freeblock := s.freeblock + 1 }.put ((node inum).addrs INDIRECT) m).image a = s.image a :=
    update_of_ne ha ..
  rw [← himage] at haddr hother hdata
  refine ⟨_, hrun, ?_, ?_, ⟨rfl, fun a ha => hsame ?_⟩, rfl⟩
  · have hfill := h.fill hlive hroom hj rfl rfl haddr hother hdata fun a ha => hsame (by
      rintro rfl
      exact absurd hbounds.2 (Nat.not_lt.mpr ha))
    rwa [update_eq_self] at hfill
  · rw [haddr, update_self]
  · rintro rfl
    exact absurd ha (Nat.not_lt.mpr hbounds.1)

section
variable (h : Holds s node mem fills) (hlive : (node inum).type ≠ .free)
include h hlive

theorem fillIndirect_run
    (hfills : fills inum = needed nb) (hnb : NDIRECT ≤ nb) (hroom : nb = NDIRECT → s.freeblock < FSSIZE) :
    ∃ d s', fillAddr (node inum) INDIRECT s = .ok (d, s') ∧
      Holds s' (update node inum d) mem (update fills inum (insert .indirect (needed nb))) ∧
      (∃ addrs, d = { node inum with addrs := addrs }) ∧ Kept s s' ∧
      s'.freeblock = s.freeblock + if nb = NDIRECT then 1 else 0 := by
  by_cases heq : nb = NDIRECT
  · have hnot : refOf INDIRECT ∉ fills inum := by
      rw [hfills, heq]
      exact Nat.lt_irrefl _
    obtain ⟨d, s', hrun, hholds, hfields, hkept, hfree⟩ := fillAddr_new h hlive (hroom heq) hnot
    rw [hfills, refOf_indirect] at hholds
    exact ⟨d, s', hrun, hholds, hfields, hkept, by rw [hfree, if_pos heq]⟩
  · have hin : .indirect ∈ needed nb := Nat.lt_of_le_of_ne hnb (Ne.symm heq)
    have hne : (node inum).addrs INDIRECT ≠ 0 := (h.places inum hlive .indirect).mpr (hfills ▸ hin)
    refine ⟨_, s, fillAddr_old hne, ?_, ⟨(node inum).addrs, rfl⟩, .refl s, by rw [if_neg heq, Nat.add_zero]⟩
    rw [Set.insert_eq_of_mem hin, ← hfills, update_eq_self, update_eq_self]
    exact h

theorem sectorOf_old (hr : placeOf fbn = some r) (hne : (node inum).addr s.image r ≠ 0) :
    sectorOf (node inum) fbn s = .ok ((node inum, (node inum).addr s.image r), s) := by
  have hmax : ¬ MAXFILE ≤ fbn := fun hle => by
    have hnone : placeOf fbn = none := by
      unfold placeOf MAXFILE at *
      rw [dif_neg (by omega), dif_neg (by omega)]
    rw [hnone] at hr
    cases hr
  unfold placeOf at hr
  rw [sectorOf, if_neg hmax]
  split at hr
  case isTrue hlt =>
    cases hr
    rw [dif_pos hlt, bind_of_ok (fillAddr_old hne)]
    rfl
  case isFalse hge =>
    split at hr
    case isFalse => cases hr
    case isTrue hlt =>
      cases hr
      have ht : (node inum).addrs INDIRECT ≠ 0 := fun hz => hne (if_pos hz)
      have hword : (node inum).addr s.image (.entry ⟨fbn - NDIRECT, hlt⟩) =
          (s.image ((node inum).addrs INDIRECT)).word (4 * (fbn - NDIRECT)) := if_neg ht
      have hin : ((node inum).addrs INDIRECT).toNat < FSSIZE := (h.addr_bounds hlive (r := .indirect) ht).2.trans_le h.high
      rw [hword] at hne ⊢
      rw [dif_neg hge, bind_of_ok (fillAddr_old ht), fillEntry, bind_assoc,
        bind_of_ok (rsect_run hin), if_neg hne]
      rfl

/-- The next block of the file is made, and the indirect block with the first that needs it. -/
theorem sectorOf_new
    (hfills : fills inum = needed nb) (hmax : nb < MAXFILE) (hroom : s.freeblock + cost (nb + 1) ≤ FSSIZE + cost nb) :
    ∃ d x s', sectorOf (node inum) nb s = .ok ((d, x), s') ∧ Grew node mem fills inum nb (nb + 1) s d s' ∧
      ∃ r, placeOf nb = some r ∧ d.addr s'.image r = x := by
  rw [sectorOf, if_neg (Nat.not_le.mpr hmax)]
  by_cases hlt : nb < NDIRECT
  · have hcost : cost (nb + 1) = cost nb + 1 := by
      unfold cost
      rw [if_neg (by omega), if_neg (by omega)]
    have hnot : refOf ⟨nb, Nat.lt_succ_of_lt hlt⟩ ∉ fills inum := by
      rw [hfills, refOf_of_lt hlt]
      exact Nat.lt_irrefl _
    obtain ⟨d, s', hrun, hholds, hfields, hkept, hfree⟩ := fillAddr_new h hlive (by omega) hnot
    rw [hfills, refOf_of_lt hlt, needed_direct] at hholds
    refine ⟨d, d.addrs ⟨nb, Nat.lt_succ_of_lt hlt⟩, s', ?_, ⟨hholds, hfields, hkept, by omega⟩, .direct ⟨nb, hlt⟩, dif_pos hlt, rfl⟩
    rw [dif_pos hlt, bind_of_ok hrun]
    rfl
  · have hentry : nb - NDIRECT < NINDIRECT := by
      unfold MAXFILE at hmax
      omega
    have hcost : cost (nb + 1) = cost nb + 1 + if nb = NDIRECT then 1 else 0 := by
      unfold cost
      rw [if_pos (by omega)]
      by_cases heq : nb = NDIRECT
      · rw [if_pos heq, if_neg (by omega)]
      · rw [if_neg heq, if_pos (by omega)]
    obtain ⟨d, s1, hrun, hholds, ⟨addrs, hfields⟩, hkept, hfree⟩ := fillIndirect_run h hlive hfills (by omega) fun heq => by
      rw [if_pos heq] at hcost
      omega
    have hself : update node inum d inum = d := update_self ..
    have hset : update fills inum (insert .indirect (needed nb)) inum = insert .indirect (needed nb) :=
      update_self ..
    have hentry_new : .entry ⟨nb - NDIRECT, hentry⟩ ∉ (insert .indirect (needed nb) : Set BlockRef) := by
      simp only [Set.mem_insert_iff, reduceCtorEq, false_or, needed, Set.mem_ofPred_eq, first]
      omega
    obtain ⟨s', hrun', hholds', haddr, hkept', hfree'⟩ := fillEntry_new inum ⟨nb - NDIRECT, hentry⟩ hholds
      (by rw [hself, hfields]; exact hlive) (by split at hfree <;> split at hcost <;> omega)
      (by rw [hset]; exact Set.mem_insert _ _) (by rw [hset]; exact hentry_new)
    rw [hself] at hrun' haddr
    rw [hset, update_idem, needed_entry (by omega)] at hholds'
    refine ⟨d, _, s', ?_, ⟨hholds', ⟨addrs, hfields⟩, hkept.trans hkept', ?_⟩, .entry ⟨nb - NDIRECT, hentry⟩, ?_, haddr⟩
    · rw [dif_neg hlt, bind_of_ok hrun, bind_of_ok hrun']
      rfl
    · omega
    · rw [placeOf, dif_neg hlt, dif_pos hentry]

end

theorem cost_mono (h : nb ≤ nb') : cost nb ≤ cost nb' := by
  unfold cost
  split
  · rw [if_pos (by omega)]
    omega
  · omega

theorem blocksFor_mono {n n' : ℕ} (h : n ≤ n') : blocksFor n ≤ blocksFor n' :=
  Nat.div_le_div_right (by omega)

/-- The block for the byte at `off`, where the file ends. -/
theorem sectorOf_run (h : Holds s node mem fills) (hlive : (node inum).type ≠ .free)
    (hfills : fills inum = needed (blocksFor off)) (hmax : off / BSIZE < MAXFILE)
    (hroom : s.freeblock + cost (off / BSIZE + 1) ≤ FSSIZE + cost (blocksFor off)) :
    ∃ d x s', sectorOf (node inum) (off / BSIZE) s = .ok ((d, x), s') ∧
      Grew node mem fills inum (blocksFor off) (off / BSIZE + 1) s d s' ∧
      ∃ r, placeOf (off / BSIZE) = some r ∧ d.addr s'.image r = x := by
  by_cases hmod : off % BSIZE = 0
  · have hnb : blocksFor off = off / BSIZE := by
      unfold blocksFor BSIZE at *
      omega
    rw [hnb] at hfills hroom ⊢
    exact sectorOf_new h hlive hfills hmax hroom
  · have hnb : blocksFor off = off / BSIZE + 1 := by
      unfold blocksFor BSIZE at *
      omega
    rw [hnb] at hfills ⊢
    obtain ⟨r, hr⟩ := placeOf_of_lt hmax
    have hne : (node inum).addr s.image r ≠ 0 := by
      refine (h.places inum hlive r).mpr ?_
      rw [hfills]
      exact (first_of_place hr).trans_lt (Nat.lt_succ_self _)
    refine ⟨_, _, s, sectorOf_old h hlive hr hne, ⟨?_, ⟨(node inum).addrs, rfl⟩, .refl s, rfl⟩, r, hr, rfl⟩
    rw [← hfills, update_eq_self, update_eq_self]
    exact h

theorem appendLoop_nil (h : Holds s node mem fills) (hfills : fills inum = needed (blocksFor off)) :
    ∃ d s', appendLoop turns (node inum) off [] s = .ok ((d, off), s') ∧
      Grew node (update mem inum ((mem inum).write off [])) fills inum (blocksFor off) (blocksFor off) s d s' := by
  refine ⟨node inum, s, ?_, ?_⟩
  · cases turns <;> rfl
  · rw [Mem.write_nil, update_eq_self]
    exact .refl h hfills

theorem appendLoop_run (turns off : ℕ) (p : List UInt8) (h : Holds s node mem fills) (hlive : (node inum).type ≠ .free)
    (hfills : fills inum = needed (blocksFor off)) (hturns : p.length ≤ turns)
    (hmax : off + p.length ≤ MAXFILE * BSIZE)
    (hroom : s.freeblock + cost (blocksFor (off + p.length)) ≤ FSSIZE + cost (blocksFor off)) :
    ∃ d s', appendLoop turns (node inum) off p s = .ok ((d, off + p.length), s') ∧
      Grew node (update mem inum ((mem inum).write off p)) fills inum
        (blocksFor off) (blocksFor (off + p.length)) s d s' := by
  induction turns generalizing s node mem fills off p with
  | zero =>
    obtain rfl : p = [] := List.eq_nil_of_length_eq_zero (by omega)
    exact appendLoop_nil h hfills
  | succ turns ih =>
    by_cases hnil : p = []
    · subst hnil
      exact appendLoop_nil h hfills
    have hpos : 0 < p.length := List.length_pos_iff.mpr hnil
    have hdiv := Nat.div_mul_le_self off BSIZE
    have hlt : off < (off / BSIZE + 1) * BSIZE := Nat.lt_mul_of_div_lt (Nat.lt_succ_self _) (by decide)
    have hblock : off / BSIZE < MAXFILE := (Nat.div_lt_iff_lt_mul (by decide)).mpr (by omega)
    have hcost : cost (off / BSIZE + 1) ≤ cost (blocksFor (off + p.length)) := cost_mono (by
      unfold blocksFor BSIZE
      omega)
    obtain ⟨d1, x, s1, hrun1, hgrew, r, hr, rfl⟩ := sectorOf_run h hlive hfills hblock (by omega)
    have htake : (p.take ((off / BSIZE + 1) * BSIZE - off)).length = min ((off / BSIZE + 1) * BSIZE - off) p.length :=
      List.length_take ..
    have hgrew1 := hgrew.write hlive (off - off / BSIZE * BSIZE) (p.take ((off / BSIZE + 1) * BSIZE - off)) hr
      (Nat.lt_succ_self _) (by rw [htake]; rw [Nat.succ_mul] at *; omega)
    rw [show off / BSIZE * BSIZE + (off - off / BSIZE * BSIZE) = off by omega] at hgrew1
    generalize hn1 : (off / BSIZE + 1) * BSIZE - off = n1 at *
    have hnext : blocksFor (off + (p.take n1).length) = off / BSIZE + 1 := by
      rw [htake]
      unfold blocksFor BSIZE at *
      omega
    have hlen : off + (p.take n1).length + (p.drop n1).length = off + p.length := by
      rw [htake, List.length_drop]
      omega
    have hself : update node inum d1 inum = d1 := update_self ..
    have hin : (d1.addr s1.image r).toNat < FSSIZE := by
      have hne : (update node inum d1 inum).addr s1.image r ≠ 0 := by
        rw [hself]
        exact hgrew.addr_ne hlive hr (Nat.lt_succ_self _)
      have hbounds := hgrew.holds.addr_bounds (by rw [hself, hgrew.type]; exact hlive) hne
      rw [hself] at hbounds
      exact hbounds.2.trans_le hgrew.holds.high
    obtain ⟨d, s', hrun, hrest⟩ := ih (off + (p.take n1).length) (p.drop n1) hgrew1.holds
      (by rw [hself, hgrew.type]; exact hlive) (by rw [update_self, hnext])
      (by rw [List.length_drop]; omega) (by rw [hlen]; exact hmax) (by
        have htaken := hgrew1.taken
        rw [hlen, hnext]
        omega)
    rw [hlen, hself] at hrun
    rw [hlen, hnext, update_self, update_idem, ← Mem.write_append, List.take_append_drop] at hrest
    refine ⟨d, s', ?_, hgrew1.trans hrest⟩
    rw [appendLoop, if_neg hnil, bind_of_ok hrun1]
    dsimp only
    rw [hn1, bind_of_ok (rsect_run hin)]
    exact hrun

end Mkfs
end Xv6
