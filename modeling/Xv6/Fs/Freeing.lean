import Xv6.Fs.Contents

/-! # Freeing the blocks of a file

`itrunc` frees every block that the inode in hand names, once, so that `bfree` finds each
of them marked.
-/
namespace Xv6.Fs
open Function Prog BlockRef List
open KProg hiding panic

variable {w : Watch} {k k' k₁ : Kernel} {i : InodeIdx} {p : Slot} {P : List BlockRef} {r : BlockRef}

/-- The places of one inode in `P` count no longer. -/
def without (own : ℕ × BlockRef → Option ℕ) (inum : ℕ) (P : List BlockRef) (x : ℕ × BlockRef) : Option ℕ :=
  if x.1 = inum ∧ x.2 ∈ P then none else own x

section Without
variable {own : ℕ × BlockRef → Option ℕ} {inum : ℕ}

theorem without_nil : without own inum [] = own := by
  funext x
  simp [without]

theorem without_cons : without own inum (r :: P) = update (without own inum P) (inum, r) none := by
  funext x
  by_cases hx : x = (inum, r)
  · subst hx
    rw [update_self]
    exact if_pos ⟨rfl, mem_cons_self⟩
  · rw [update_of_ne hx]
    refine if_congr (and_congr_right fun hj => ?_) rfl rfl
    have hr : x.2 ≠ r := fun heq => hx (Prod.ext hj heq)
    simp [hr]

theorem without_cons_of_none (h : own (inum, r) = none) : without own inum (r :: P) = without own inum P := by
  rw [without_cons, update_eq_self_iff]
  unfold without
  split
  · rfl
  · exact h.symm

end Without

theorem refOf_injective (h : refOf n = refOf m) : n = m := by
  have hn : n.val < 8 := n.isLt
  have hm : m.val < 8 := m.isLt
  unfold refOf at h
  split at h <;> split at h
  · simp only [direct.injEq, Fin.mk.injEq] at h
    exact Fin.ext h
  · cases h
  · cases h
  · refine Fin.ext ?_
    unfold NDIRECT at *
    omega

/-- The blocks in the places `P` of the file in hand have been given back. -/
structure Emptied (k : Kernel) (i : InodeIdx) (P : List BlockRef) (k₁ : Kernel) : Prop where
  ledger : Ledger (without (owner k.dinode k.block) (k.icache i).inum P) ∅ (metaBlocks k.sb) (usedBlocks k₁)
  block : k₁.block = k.block
  sb : k₁.sb = k.sb
  dinode : k₁.dinode = k.dinode
  other : ∀ j, j ≠ i → k₁.icache j = k.icache j
  inode : k₁.icache i =
    { k.icache i with d := { (k.icache i).d with addrs := fun n => if refOf n ∈ P then 0 else (k.icache i).d.addrs n } }

theorem usedBlocks_free (hsb : k'.sb = k.sb) (hbitmap : k'.bitmap = update k.bitmap b false) :
    usedBlocks k' = usedBlocks k \ {b} := by
  ext c
  simp only [usedBlocks, Set.mem_sdiff, Set.mem_ofPred_eq, Set.mem_singleton_iff, hsb, hbitmap]
  by_cases hc : c = b
  · simp [hc]
  · simp [hc]

theorem bfree_spec (h : Intact k) (hi : Loaded k i) (hr : r ∉ P) (hne : (k.icache i).d.addr k.block r ≠ 0)
    (hledger : Ledger (without (owner k.dinode k.block) (k.icache i).inum P) ∅ (metaBlocks k.sb) (usedBlocks k₁)) :
    (bfree ((k.icache i).d.addr k.block r)).Wp Op.sem (Fine w) (fun _ k2 =>
      Ledger (without (owner k.dinode k.block) (k.icache i).inum (r :: P)) ∅ (metaBlocks k.sb) (usedBlocks k2) ∧
      ∃ lh bitmap, k2 = { k₁ with log := { k₁.log with lh := lh }, bitmap := bitmap }) k₁ := by
  have hsync := h.sync i hi.1 hi.2
  have hown : without (owner k.dinode k.block) (k.icache i).inum P ((k.icache i).inum, r) =
      some ((k.icache i).d.addr k.block r).toNat := by
    rw [without, if_neg fun h => hr h.2]
    refine owner_eq_some.mpr ⟨?_, ?_, ?_⟩
    all_goals
      dsimp only
      rw [hsync.1]
    · exact hsync.2
    · exact hne
  refine wp_call (fun _ => (hledger.used_of_own hown).2) fun _ k2 hfree => ?_
  obtain ⟨lh, hk2⟩ := FsOp.bfree_eq_ok hfree
  refine ⟨?_, lh, _, hk2⟩
  rw [without_cons, usedBlocks_free (k := k₁) (by rw [hk2]) (by rw [hk2])]
  exact hledger.release hown

theorem owner_eq_none (h : Intact k) (hi : Loaded k i) (hzero : (k.icache i).d.addr k.block r = 0) :
    owner k.dinode k.block ((k.icache i).inum, r) = none := by
  refine if_pos (.inr ?_)
  dsimp only
  rw [(h.sync i hi.1 hi.2).1]
  exact hzero

theorem freeAddr_spec (h : Intact k) (hi : Loaded k i) {n : Fin 8} (hn : refOf n ∉ P) (he : Emptied k i P k₁) :
    (freeAddr i n).Wp Op.sem (Fine w) (fun _ k2 => Emptied k i (refOf n :: P) k2) k₁ := by
  have hslot : (k₁.icache i).d.addrs n = (k.icache i).d.addrs n := by
    rw [he.inode]
    exact if_neg hn
  have hclear (m : Fin 8) : (if refOf m ∈ refOf n :: P then 0 else (k.icache i).d.addrs m) =
      update (fun m => if refOf m ∈ P then 0 else (k.icache i).d.addrs m) n 0 m := by
    by_cases hm : m = n
    · rw [hm, update_self, if_pos mem_cons_self]
    · have hne : refOf m ≠ refOf n := fun heq => hm (refOf_injective heq)
      rw [update_of_ne hm]
      simp only [mem_cons, hne, false_or]
  refine wp_call_bind trivial fun (ip : Inode) k2 hip => ?_
  cases hip
  rw [hslot]
  refine wp_ite (fun hzero => wp_pure ?_) fun hne => ?_
  · refine { he with ledger := ?_, inode := ?_ }
    · rw [without_cons_of_none (owner_eq_none h hi (by rwa [Dinode.addr_refOf]))]
      exact he.ledger
    · rw [he.inode, funext hclear]
      have hsame : update (fun m => if refOf m ∈ P then 0 else (k.icache i).d.addrs m) n 0 =
          fun m => if refOf m ∈ P then 0 else (k.icache i).d.addrs m := by
        rw [update_eq_self_iff, if_neg hn]
        exact hzero.symm
      rw [hsame]
  · have hfree := bfree_spec (w := w) h hi hn (by rwa [Dinode.addr_refOf]) he.ledger
    rw [Dinode.addr_refOf] at hfree
    refine hfree.bind fun _ k2 ⟨hledger, lh, bitmap, hk2⟩ => wp_call trivial fun _ k3 hstore => ?_
    have hicache := FsOp.store_icache hstore
    have hself : k3.icache i = { k.icache i with d := { (k.icache i).d with
        addrs := update (fun m => if refOf m ∈ P then 0 else (k.icache i).d.addrs m) n 0 } } := by
      rw [hicache, Kernel.setInode_self, hk2, he.inode]
      rfl
    have hother (j : InodeIdx) (hj : j ≠ i) : k3.icache j = k.icache j := by
      rw [hicache, Kernel.setInode_of_ne hj, hk2, he.other j hj]
    obtain ⟨copies, hk3⟩ := FsOp.store_eq_ok hstore
    have hused : usedBlocks k3 = usedBlocks k2 := by rw [hk3]; rfl
    refine ⟨hused ▸ hledger, ?_, ?_, ?_, hother, ?_⟩
    · rw [hk3, hk2]
      exact he.block
    · rw [hk3, hk2]
      exact he.sb
    · rw [hk3, hk2]
      exact he.dinode
    · rw [hself, funext hclear]

theorem freeAddrs_spec (h : Intact k) (hi : Loaded k i) {ns : List (Fin 8)} (hnodup : ns.Nodup)
    (hns : ∀ n ∈ ns, refOf n ∉ P) (he : Emptied k i P k₁) :
    (freeAddrs i ns).Wp Op.sem (Fine w) (fun _ k2 => Emptied k i ((ns.map refOf).reverse ++ P) k2) k₁ := by
  induction ns generalizing P k₁ with
  | nil => exact he
  | cons n ns ih =>
    obtain ⟨hn, hnodup⟩ := nodup_cons.mp hnodup
    refine (freeAddr_spec h hi (hns n mem_cons_self) he).bind fun _ k2 he2 => ?_
    refine (ih hnodup (fun m hm hmem => ?_) he2).mono fun _ k3 he3 => by simpa using he3
    rcases mem_cons.mp hmem with heq | hmem
    · exact hn (refOf_injective heq ▸ hm)
    · exact hns m (mem_cons_of_mem n hm) hmem

theorem entry_ne_refOf (n : Fin 8) (j : Fin NINDIRECT) : .entry j ≠ refOf n := by
  unfold refOf
  split <;> simp

theorem freeBlocks_spec (h : Intact k) (hi : Loaded k i) (ht : (k.icache i).d.addrs INDIRECT ≠ 0)
    {js : List (Fin NINDIRECT)} (hnodup : js.Nodup) (hjs : ∀ j ∈ js, .entry j ∉ P) (he : Emptied k i P k₁) :
    (freeBlocks (js.map fun j : Fin NINDIRECT => Mem.word (k.block ((k.icache i).d.addrs INDIRECT)) (4 * j))).Wp Op.sem (Fine w)
      (fun _ k2 => Emptied k i ((js.map entry).reverse ++ P) k2) k₁ := by
  induction js generalizing P k₁ with
  | nil => exact he
  | cons j js ih =>
    obtain ⟨hj, hnodup⟩ := nodup_cons.mp hnodup
    have hword : (k.icache i).d.addr k.block (.entry j) = Mem.word (k.block ((k.icache i).d.addrs INDIRECT)) (4 * j) :=
      if_neg ht
    have hslots (n : Fin 8) : refOf n ∈ entry j :: P ↔ refOf n ∈ P := by
      simp only [mem_cons, (entry_ne_refOf n j).symm, false_or]
    -- the rest of the loop, with the block of word `j` given back
    have hrest {k2 : Kernel} (he2 : Emptied k i (.entry j :: P) k2) :
        (freeBlocks (js.map fun j : Fin NINDIRECT => Mem.word (k.block ((k.icache i).d.addrs INDIRECT)) (4 * j))).Wp Op.sem (Fine w)
          (fun _ k3 => Emptied k i (((j :: js).map entry).reverse ++ P) k3) k2 := by
      refine (ih hnodup (fun m hm hmem => ?_) he2).mono fun _ k3 he3 => by simpa using he3
      rcases mem_cons.mp hmem with heq | hmem
      · cases heq
        exact hj hm
      · exact hjs m (mem_cons_of_mem j hm) hmem
    simp only [map_cons, ← hword]
    unfold freeBlocks
    refine wp_ite (fun hzero => hrest ?_) fun hne => ?_
    · refine { he with ledger := ?_, inode := ?_ }
      · rw [without_cons_of_none (owner_eq_none h hi hzero)]
        exact he.ledger
      · rw [he.inode]
        simp only [hslots]
    · refine (bfree_spec h hi (hjs j mem_cons_self) hne he.ledger).bind fun _ k2 ⟨hledger, lh, bitmap, hk2⟩ => hrest ?_
      subst hk2
      refine ⟨hledger, he.block, he.sb, he.dinode, he.other, ?_⟩
      simp only [hslots]
      exact he.inode

theorem freeIndirect_spec (h : Intact k) (hi : Loaded k i) (hP : ∀ j, .entry j ∉ P) (hindirect : .indirect ∉ P)
    (he : Emptied k i P k₁) :
    (freeIndirect i).Wp Op.sem (Fine w) (fun _ k2 => ∃ P', Emptied k i P' k2 ∧ (∀ r ∈ P, r ∈ P') ∧
      ∀ r, r = .indirect ∨ (∃ j, r = .entry j) → r ∈ P' ∨ (k.icache i).d.addr k.block r = 0) k₁ := by
  have hslot : (k₁.icache i).d.addrs INDIRECT = (k.icache i).d.addrs INDIRECT := by
    rw [he.inode]
    exact if_neg hindirect
  refine wp_call_bind trivial fun (ip : Inode) k2 hip => ?_
  cases hip
  dsimp only
  rw [hslot]
  refine wp_ite (fun hzero => wp_pure ⟨P, he, fun _ => id, ?_⟩) fun hne => ?_
  · rintro r (rfl | ⟨j, rfl⟩)
    · exact .inr hzero
    · exact .inr (if_pos hzero)
  refine wp_call_bind trivial fun (data : Mem) k2 hdata => ?_
  cases hdata
  rw [he.block]
  have hrange : (range NINDIRECT).map (fun j => Mem.word (k.block ((k.icache i).d.addrs INDIRECT)) (4 * j)) =
      (finRange NINDIRECT).map fun j : Fin NINDIRECT => Mem.word (k.block ((k.icache i).d.addrs INDIRECT)) (4 * j) := by
    rw [← map_coe_finRange_eq_range, map_map]
    rfl
  rw [hrange]
  refine (freeBlocks_spec h hi hne (nodup_finRange _) (fun j _ => hP j) he).bind fun _ k2 he2 => ?_
  refine (freeAddr_spec h hi (n := INDIRECT) ?_ he2).mono fun _ k3 he3 => ⟨_, he3, fun r hr => ?_, ?_⟩
  · simp [refOf_indirect, hindirect]
  · exact mem_cons_of_mem _ (mem_append_right _ hr)
  · rintro r (rfl | ⟨j, rfl⟩)
    · exact .inl mem_cons_self
    · refine Or.inl (mem_cons_of_mem _ (mem_append_left _ ?_))
      simp

theorem itrunc_spec (h : Intact k) (hi : Loaded k i) : (itrunc i).Wp Op.sem (Fine w)
      (fun _ k' => Edited k i 0 (fun _ => 0) k' ∧ (k'.icache i).d.addrs = fun _ => 0) k := by
  have he : Emptied k i [] k := by
    refine ⟨?_, rfl, rfl, rfl, fun _ _ => rfl, ?_⟩
    · rw [without_nil]
      exact h.ledger
    · simp
  refine (freeAddrs_spec h hi (by decide) (fun _ _ => by simp) he).bind fun _ k₁ he1 => ?_
  refine (freeIndirect_spec h hi (fun j => ?_) ?_ he1).bind fun _ k2 ⟨P, he2, hsub, hcover⟩ => ?_
  · simp [entry_ne_refOf]
  · decide
  have hdirect : ∀ n, direct n ∈ ([0, 1, 2, 3, 4, 5, 6].map refOf).reverse ++ [] := by decide
  have hall (r : BlockRef) : r ∈ P ∨ (k.icache i).d.addr k.block r = 0 := by
    cases r with
    | direct n => exact .inl (hsub _ (hdirect n))
    | indirect => exact hcover _ (.inl rfl)
    | entry j => exact hcover _ (.inr ⟨j, rfl⟩)
  refine wp_call_bind trivial fun _ k3 hstore => wp_call trivial fun _ k4 hupdate => ?_
  have hassign := Assigned.store hstore (iupdate_assigned hupdate)
  have hd : (k3.icache i).d = { (k.icache i).d with size := 0, addrs := fun _ => 0 } := by
    rw [FsOp.store_icache hstore, Kernel.setInode_self, he2.inode]
    have haddrs : (fun n => if refOf n ∈ P then 0 else (k.icache i).d.addrs n) = fun _ => (0 : Word) := by
      funext n
      rcases hall (refOf n) with hn | hn
      · exact if_pos hn
      · rw [Dinode.addr_refOf] at hn
        rw [hn, ite_self]
    dsimp only [InodeUpdate.apply]
    rw [haddrs]
  have hsb : k4.sb = k.sb := (congrArg (fun o => o.2.2.1) hassign.outside).trans he2.sb
  have hblock : k4.block = k.block := hassign.block.trans he2.block
  have hinode : k4.icache i = { k.icache i with d := { (k.icache i).d with size := 0, addrs := fun _ => 0 } } := by
    rw [hassign.inode, hd, he2.inode]
  have hdinode : k4.dinode = update k.dinode (k.icache i).inum (k4.icache i).d := by
    rw [hassign.dinode, hassign.inode, he2.dinode, he2.inode]
  have hempty (r : BlockRef) : (k4.icache i).d.addr k4.block r = 0 := by
    rw [hinode]
    cases r <;> rfl
  refine ⟨edited_of h hi (fun j hj => (hassign.other j hj).trans (he2.other j hj)) ⟨_, hinode⟩ hdinode hsb ?_
    (fun bn hbn => ?_) (fun j _ hlive => ?_) ?_ fun j _ _ => by rw [hblock], by rw [hinode]⟩
  · have howner : owner k4.dinode k4.block = without (owner k.dinode k.block) (k.icache i).inum P := by
      funext x
      rw [hdinode]
      by_cases hx : x.1 = (k.icache i).inum
      · have hnone : owner (update k.dinode (k.icache i).inum (k4.icache i).d) k4.block x = none := by
          refine if_pos (.inr ?_)
          rw [hx, update_self]
          exact hempty x.2
        rw [hnone]
        rcases hall x.2 with hr | hr
        · exact (if_pos ⟨hx, hr⟩).symm
        · have hzero := owner_eq_none h hi hr
          rw [← hx] at hzero
          unfold without
          split
          · rfl
          · exact hzero.symm
      · rw [without, if_neg fun hand => hx hand.1]
        refine owner_congr ?_ fun _ => ?_
        · rw [update_of_ne hx]
        · rw [update_of_ne hx, hblock]
    have hused : usedBlocks k4 = usedBlocks k2 := by
      simp only [usedBlocks, hsb, he2.sb, hassign.bitmap]
    rw [howner, hused, hsb]
    exact he2.ledger
  · rw [hinode] at hbn
    exact (Nat.not_lt_zero _ hbn).elim
  · rw [hblock]
    exact h.whole j hlive
  · funext o
    unfold Dinode.contents
    split
    · exact if_pos (hempty _)
    · rfl

end Xv6.Fs
