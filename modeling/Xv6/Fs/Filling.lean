import Xv6.Fs.Blocks
import Xv6.Kernel.Outcome
import Xv6.Lib.Wp

/-! # New blocks for a file

`bmap` gives a block of zeros to a place of the inode in hand that names none. No other
inode loses a block to it, and what the files hold stays as it is.
-/
namespace Xv6
open Function Dinode

section Owner
variable {node node' : ℕ → Dinode} {block block' : Word → Mem} {x : ℕ × BlockRef} {a : Word} {inum : ℕ} {r : BlockRef}

theorem owner_eq_some : owner node block x = some b ↔
    (node x.1).type ≠ .free ∧ (node x.1).addr block x.2 ≠ 0 ∧ ((node x.1).addr block x.2).toNat = b := by
  unfold owner
  split
  case isTrue h =>
    refine ⟨nofun, fun ⟨htype, haddr, _⟩ => ?_⟩
    rcases h with h | h
    · exact (htype h).elim
    · exact (haddr h).elim
  case isFalse h =>
    push Not at h
    rw [Option.some.injEq]
    exact ⟨fun hb => ⟨h.1, h.2, hb⟩, fun hb => hb.2.2⟩

theorem owner_of_addr (htype : (node inum).type ≠ .free) (ha : (node inum).addr block r ≠ 0) :
    owner node block (inum, r) = some ((node inum).addr block r).toNat := owner_eq_some.mpr ⟨htype, ha, rfl⟩

theorem owner_congr (htype : (node' x.1).type = (node x.1).type)
    (haddr : (node x.1).type ≠ .free → (node' x.1).addr block' x.2 = (node x.1).addr block x.2) :
    owner node' block' x = owner node block x := by
  unfold owner
  by_cases hfree : (node x.1).type = .free
  · rw [htype, if_pos (.inl hfree), if_pos (.inl hfree)]
  · rw [htype, haddr hfree]

theorem owner_fill (hother : ∀ j, j ≠ inum → (node' j).type = (node j).type ∧
      ((node j).type ≠ .free → (node' j).addr block' = (node j).addr block))
    (htype : (node' inum).type = (node inum).type) (hlive : (node inum).type ≠ .free) (ha : a ≠ 0)
    (haddr : (node' inum).addr block' = update ((node inum).addr block) r a) :
    owner node' block' = update (owner node block) (inum, r) (some a.toNat) := by
  funext x
  by_cases hx : x = (inum, r)
  · subst hx
    rw [update_self, owner_eq_some, haddr, update_self]
    exact ⟨htype ▸ hlive, ha, rfl⟩
  · rw [update_of_ne hx]
    by_cases hj : x.1 = inum
    · have hr : x.2 ≠ r := fun heq => hx (Prod.ext hj heq)
      refine owner_congr (by rw [hj, htype]) fun _ => ?_
      rw [hj, haddr, update_of_ne hr]
    · exact owner_congr (hother x.1 hj).1 fun hfree => by rw [(hother x.1 hj).2 hfree]

variable {loose reserved used : Set ℕ}

section
variable (h : Ledger (owner node block) loose reserved used)
include h

theorem Ledger.addr_single
    (hlive : (node inum).type ≠ .free) (hj : (node j).type ≠ .free) (ha : (node j).addr block r' ≠ 0)
    (heq : (node j).addr block r' = (node inum).addr block r) : j = inum ∧ r' = r := by
  have hsame := h.single (j, r') (inum, r) _ (owner_of_addr hj ha) (by
    rw [heq] at ha ⊢
    exact owner_of_addr hlive ha)
  exact ⟨congrArg Prod.fst hsame, congrArg Prod.snd hsame⟩

theorem Ledger.addr_ne_of_loose (hloose : a.toNat ∈ loose)
    (hlive : (node inum).type ≠ .free) (ha : (node inum).addr block r ≠ 0) : (node inum).addr block r ≠ a := by
  rintro rfl
  exact h.ne_of_loose hloose _ (owner_of_addr hlive ha)

theorem Ledger.write_loose (hloose : a.toNat ∈ loose) (m : Mem) :
    owner node (update block a m) = owner node block ∧
    ∀ j, (node j).type ≠ .free → (node j).contents (update block a m) = (node j).contents block := by
  constructor
  · funext x
    refine owner_congr rfl fun hlive => ?_
    rw [addr_update_block fun hi => h.addr_ne_of_loose hloose hlive hi]
  · exact fun j hj => contents_update_block (fun r hr => h.addr_ne_of_loose hloose hj hr) m

end

/-- A loose block of zeros is put into a place that was empty. No file holds anything else
after it. -/
theorem Ledger.fill (h : Ledger (owner node block) {a.toNat} reserved used)
    (hlive : (node inum).type ≠ .free) (ha : a ≠ 0) (hempty : (node inum).addr block r = 0)
    (htype : d'.type = (node inum).type) (haddr : d'.addr block' = update ((node inum).addr block) r a)
    (haddrs : ∀ j, j ≠ inum → (node j).type ≠ .free → (node j).addr block' = (node j).addr block)
    (hdata : ∀ j r', (node j).type ≠ .free → r' ≠ .indirect → (node j).addr block r' ≠ 0 →
      block' ((node j).addr block r') = block ((node j).addr block r')) (hzero : ∀ o, block' a o = 0) :
    Ledger (owner (update node inum d') block') ∅ reserved used ∧
    owner (update node inum d') block' = update (owner node block) (inum, r) (some a.toNat) ∧
    ∀ j, (node j).type ≠ .free → (update node inum d' j).contents block' = (node j).contents block := by
  have howner : owner (update node inum d') block' =
      update (owner node block) (inum, r) (some a.toNat) := by
    refine owner_fill (fun j hj => ?_) ?_ hlive ha ?_
    · rw [update_of_ne hj]
      exact ⟨rfl, haddrs j hj⟩
    · rw [update_self, htype]
    · rw [update_self]
      exact haddr
  have hplace : owner node block (inum, r) = none := if_pos (.inr hempty)
  have hledger := h.attach (b := a.toNat) rfl hplace
  rw [← howner, sdiff_self, Set.bot_eq_empty] at hledger
  refine ⟨hledger, howner, fun j hj => ?_⟩
  by_cases hji : j = inum
  · subst hji
    rw [update_self]
    exact contents_fill haddr hempty hzero fun r' => hdata j r' hj
  · rw [update_of_ne hji]
    exact contents_congr (haddrs j hji hj) fun r' => hdata j r' hj

/-- A write to the indirect block of an inode, which is named in one place only. -/
theorem Ledger.write_indirect (h : Ledger (owner node block) loose reserved used) (hlive : (node inum).type ≠ .free)
    (ht : (node inum).addrs INDIRECT ≠ 0) (m : Mem) : (∀ j, j ≠ inum → (node j).type ≠ .free →
      (node j).addr (update block ((node inum).addrs INDIRECT) m) = (node j).addr block) ∧
    (∀ j r', (node j).type ≠ .free → r' ≠ .indirect → (node j).addr block r' ≠ 0 →
      update block ((node inum).addrs INDIRECT) m ((node j).addr block r') = block ((node j).addr block r')) ∧
    ∀ a : Word, a.toNat ∈ loose → (node inum).addrs INDIRECT ≠ a := by
  have hsingle {j : ℕ} {r' : BlockRef} (hj : (node j).type ≠ .free) (hne : (node j).addr block r' ≠ 0)
      (heq : (node j).addr block r' = (node inum).addrs INDIRECT) : j = inum ∧ r' = .indirect :=
    h.addr_single (r := .indirect) hlive hj hne heq
  refine ⟨fun j hj hfree => ?_, fun j r' hj hr' hne => ?_, fun a ha => ?_⟩
  · exact addr_update_block (fun hi heq => hj (hsingle hfree hi heq).1) m
  · exact update_of_ne (fun heq => hr' (hsingle hj hne heq).2) ..
  · exact h.addr_ne_of_loose (r := .indirect) ha hlive ht

theorem Ledger.write (h : Ledger (owner node block) loose reserved used)
    (hlive : (node inum).type ≠ .free) (hr : placeOf bn = some r) (hne : (node inum).addr block r ≠ 0)
    (hoff : off + src.length ≤ BSIZE) (hblock : block' = update block ((node inum).addr block r)
      ((block ((node inum).addr block r)).write off src)) :
    (∀ j, (node j).type ≠ .free → (node j).addr block' = (node j).addr block) ∧
    owner node block' = owner node block ∧
    (node inum).contents block' = ((node inum).contents block).write (bn * BSIZE + off) src ∧
    ∀ j, j ≠ inum → (node j).type ≠ .free → (node j).contents block' = (node j).contents block := by
  subst hblock
  have haddr (j : ℕ) (hj : (node j).type ≠ .free) (m : Mem) :
      (node j).addr (update block ((node inum).addr block r) m) = (node j).addr block :=
    addr_update_block (fun hi heq => placeOf_ne_indirect hr (h.addr_single hlive hj hi heq).2.symm) m
  refine ⟨fun j hj => haddr j hj _, ?_, ?_, fun j hj hfree => ?_⟩
  · exact funext fun x => owner_congr rfl fun hj => by rw [haddr x.1 hj _]
  · exact contents_write hr hne hoff fun r' hne' heq => (h.addr_single hlive hlive hne' heq).2
  · exact contents_update_block (fun r' hne' heq => hj (h.addr_single hlive hfree hne' heq).1) _

end Owner

/-- The blocks before the first data block. -/
def metaBlocks (sb : Superblock) : Set ℕ := { b | b < sb.size ∧ b < sb.bmapstart + sb.size / BPB + 1 }

def usedBlocks (k : Kernel) : Set ℕ := { b | b < k.sb.size ∧ k.bitmap b = true }

/-- The inodes on the disk, but the one in hand as it is in memory. -/
def Kernel.nodes (k : Kernel) (i : InodeIdx) : ℕ → Dinode := update k.dinode (k.icache i).inum (k.icache i).d

/-- What a run must not come to: `bfree` of a block that is free, or `ilock` of an inode
that is not allocated. -/
inductive Watch
  | bfree | ilock

def Fine (w : Watch) : Op → Kernel → Prop
  | .fs (.bfree b), k => w = .bfree → k.bitmap b.toNat = true
  | .fs (.ilock _ i), k => w = .ilock → (k.icache i).valid = true ∨ (k.dinode (k.icache i).inum).type ≠ .free
  | _, _ => True

namespace Fs
open Prog
open KProg hiding panic

variable {w : Watch} {k k' : Kernel} {i : InodeIdx}

theorem usedBlocks_claim (hb : b < k.sb.size) (hsb : k'.sb = k.sb)
    (hbitmap : k'.bitmap = update k.bitmap b true) : usedBlocks k' = insert b (usedBlocks k) := by
  ext c
  simp only [usedBlocks, Set.mem_insert_iff, Set.mem_ofPred_eq, hsb, hbitmap]
  by_cases hc : c = b
  · subst hc
    simp [hb]
  · simp [hc]

def Harmless (o : Op) : Prop := ∀ w k, Fine w o k

theorem balloc_harmless : balloc.Uses Harmless := by
  have hfrom (turns b : ℕ) : (ballocFrom turns b).Uses Harmless := by
    induction turns generalizing b with
    | zero => exact ⟨fun _ _ => trivial, fun b => b.elim⟩
    | succ turns ih =>
      refine ⟨fun _ _ => trivial, fun (a : Option Word) => ?_⟩
      cases a with
      | none => exact ih _
      | some => exact ⟨fun _ _ => trivial, fun _ => uses_pure _⟩
  exact ⟨fun _ _ => trivial, fun _ => hfrom _ _⟩

theorem addrOf_harmless (i : InodeIdx) (n : Fin 8) : (addrOf i n).Uses Harmless :=
  ⟨fun _ _ => trivial, fun _ => .ite (balloc_harmless.bind fun _ => ⟨fun _ _ => trivial, fun _ => uses_pure _⟩) (uses_pure _)⟩

theorem bmap_harmless (i : InodeIdx) (bn : ℕ) : (bmap i bn).Uses Harmless := by
  unfold bmap
  split
  case isTrue => exact addrOf_harmless i _
  case isFalse =>
    refine .ite ((addrOf_harmless i _).bind fun a => ?_) ⟨fun _ _ => trivial, fun b => b.elim⟩
    refine ⟨fun _ _ => trivial, fun _ => .ite (balloc_harmless.bind fun b => ?_) (uses_pure _)⟩
    exact ⟨fun _ _ => trivial, fun _ => uses_pure _⟩

theorem panic_spec {α : Type} {Q : α → Kernel → Prop} :
    (.panic msg : KProg α).Wp Op.sem (Fine w) Q k := ⟨trivial, fun b => b.elim⟩

theorem balloc_spec : balloc.Wp Op.sem (Fine w) (fun a k' => ∃ b lh, (b < k.sb.size ∧ k.bitmap b = false) ∧
    a = BitVec.ofNat 32 b ∧ k' = { k with
      log := { k.log with lh := lh }
      bitmap := update k.bitmap b true
      block := update k.block a fun _ => 0 }) k := by
  have hfrom (turns c : ℕ) : (ballocFrom turns c).Wp Op.sem (Fine w) (fun a k' => ∃ b lh,
      (b < k.sb.size ∧ k.bitmap b = false) ∧ a = BitVec.ofNat 32 b ∧ k' = { k with
        log := { k.log with lh := lh }
        bitmap := update k.bitmap b true
        block := update k.block a fun _ => 0 }) k := by
    induction turns generalizing c with
    | zero => exact panic_spec
    | succ turns ih =>
      refine wp_call_bind trivial fun (r : Option Word) k₁ hclaim => ?_
      rcases FsOp.claimBlock_eq_ok hclaim with ⟨rfl, rfl⟩ | ⟨b, lh, hb, rfl, rfl⟩
      · exact ih (c + BPB)
      · refine wp_call_bind trivial fun _ k2 hzero => wp_pure ?_
        obtain ⟨lh', rfl⟩ := FsOp.bzero_eq_ok hzero
        exact ⟨b, lh', hb, rfl, rfl⟩
  refine wp_call_bind trivial fun (sb : Superblock) k₁ hsb => ?_
  cases hsb
  exact hfrom _ _

/-- The free map agrees with the blocks that the inodes name, the one in hand as it is in
memory. -/
structure Booked (k : Kernel) (i : InodeIdx) : Prop where
  ledger : Ledger (owner (k.nodes i) k.block) ∅ (metaBlocks k.sb) (usedBlocks k)
  size : k.sb.size < 2 ^ 32
  live : (k.icache i).d.type ≠ .free

/-- The inode in hand may get blocks; every block stays where it was. -/
structure Kept (k : Kernel) (i : InodeIdx) (k' : Kernel) : Prop where
  booked : Booked k' i
  sb : k'.sb = k.sb
  dinode : k'.dinode = k.dinode
  other : ∀ j, j ≠ i → k'.icache j = k.icache j
  inode : ∃ addrs, k'.icache i = { k.icache i with d := { (k.icache i).d with addrs := addrs } }
  owned : ∀ x b, owner (k.nodes i) k.block x = some b → owner (k'.nodes i) k'.block x = some b

/-- The files hold what they held. -/
structure Grown (k : Kernel) (i : InodeIdx) (k' : Kernel) : Prop extends Kept k i k' where
  contents : ∀ j, (k.nodes i j).type ≠ .free → (k'.nodes i j).contents k'.block = (k.nodes i j).contents k.block

theorem nodes_self : k.nodes i (k.icache i).inum = (k.icache i).d := update_self ..

theorem nodes_of_ne (h : inum ≠ (k.icache i).inum) : k.nodes i inum = k.dinode inum :=
  update_of_ne h ..

theorem Booked.live_nodes (h : Booked k i) : (k.nodes i (k.icache i).inum).type ≠ .free := by
  rw [nodes_self]
  exact h.live

variable {k'' : Kernel} {j : ℕ} {r : BlockRef}

namespace Kept

theorem refl (h : Booked k i) : Kept k i k := ⟨h, rfl, rfl, fun _ _ => rfl, ⟨_, rfl⟩, fun _ _ => id⟩

section
variable (h : Kept k i k')
include h

theorem trans (h' : Kept k' i k'') : Kept k i k'' := by
  obtain ⟨addrs, hinode⟩ := h.inode
  obtain ⟨addrs', hinode'⟩ := h'.inode
  exact ⟨h'.booked, h'.sb.trans h.sb, h'.dinode.trans h.dinode, fun j hj => (h'.other j hj).trans (h.other j hj),
    ⟨addrs', by rw [hinode', hinode]⟩, fun x b hx => h'.owned x b (h.owned x b hx)⟩

theorem inum : (k'.icache i).inum = (k.icache i).inum := by
  obtain ⟨addrs, hinode⟩ := h.inode
  rw [hinode]

theorem size : (k'.icache i).d.size = (k.icache i).d.size := by
  obtain ⟨addrs, hinode⟩ := h.inode
  rw [hinode]

theorem nodes (hj : j ≠ (k.icache i).inum) : k'.nodes i j = k.nodes i j := by
  rw [nodes_of_ne (h.inum ▸ hj), nodes_of_ne hj, h.dinode]

theorem type (j : ℕ) : (k'.nodes i j).type = (k.nodes i j).type := by
  by_cases hj : j = (k.icache i).inum
  · obtain ⟨addrs, hinode⟩ := h.inode
    have hself : k'.nodes i j = (k'.icache i).d := by rw [hj, ← h.inum, nodes_self]
    rw [hself, hj, nodes_self, hinode]
  · rw [h.nodes hj]

theorem addr_nodes (hlive : (k.nodes i j).type ≠ .free)
    (hr : (k.nodes i j).addr k.block r ≠ 0) : (k'.nodes i j).addr k'.block r = (k.nodes i j).addr k.block r :=
  BitVec.eq_of_toNat_eq (owner_eq_some.mp (h.owned _ _ (owner_of_addr hlive hr))).2.2

theorem addr (hlive : (k.icache i).d.type ≠ .free) (hr : (k.icache i).d.addr k.block r ≠ 0) :
    (k'.icache i).d.addr k'.block r = (k.icache i).d.addr k.block r := by
  have hkeep := h.addr_nodes (j := (k.icache i).inum) (r := r) (by rwa [nodes_self]) (by rwa [nodes_self])
  rwa [nodes_self, ← h.inum, nodes_self] at hkeep

end

end Kept

theorem Grown.refl (h : Booked k i) : Grown k i k := ⟨Kept.refl h, fun _ _ => rfl⟩

theorem Grown.trans (h : Grown k i k') (h' : Grown k' i k'') : Grown k i k'' := by
  refine ⟨h.toKept.trans h'.toKept, fun j hj => ?_⟩
  rw [h'.contents j (by rwa [h.type]), h.contents j hj]

/-- A block has been taken for the inode in hand, and is not in its place yet. -/
structure Handed (k : Kernel) (i : InodeIdx) (a : Word) (k₁ : Kernel) : Prop where
  ne : a ≠ 0
  ledger : Ledger (owner (k.nodes i) k₁.block) {a.toNat} (metaBlocks k.sb) (usedBlocks k₁)
  addr : ∀ j, (k.nodes i j).type ≠ .free → (k.nodes i j).addr k₁.block = (k.nodes i j).addr k.block
  zero : ∀ o, k₁.block a o = 0
  owners : owner (k.nodes i) k₁.block = owner (k.nodes i) k.block
  contents : ∀ j, (k.nodes i j).type ≠ .free → (k.nodes i j).contents k₁.block = (k.nodes i j).contents k.block
  sb : k₁.sb = k.sb
  dinode : k₁.dinode = k.dinode
  icache : k₁.icache = k.icache
  same : ∀ c, c ≠ a → k₁.block c = k.block c

theorem balloc_handed (h : Booked k i) : balloc.Wp Op.sem (Fine w) (fun a k₁ => Handed k i a k₁) k := by
  refine balloc_spec.mono fun a k₁ ⟨b, lh, ⟨hlt, hfree⟩, ha, hk1⟩ => ?_
  have hsize := h.size
  have hnat : a.toNat = b := by
    rw [ha, BitVec.toNat_ofNat, Nat.mod_eq_of_lt (by omega)]
  have hunused : b ∉ usedBlocks k := fun hb => by
    rw [hb.2] at hfree
    cases hfree
  have hne : a ≠ 0 := by
    rintro rfl
    refine hunused ((h.ledger.used_iff b).mpr (.inl ⟨hlt, ?_⟩))
    rw [show b = 0 from hnat.symm]
    exact Nat.succ_pos _
  have htaken := h.ledger.take hunused
  rw [insert_empty_eq, ← hnat] at htaken
  obtain ⟨howner, hcontents⟩ := htaken.write_loose (a := a) rfl fun _ => 0
  have hused : usedBlocks k₁ = insert b (usedBlocks k) := usedBlocks_claim hlt (by rw [hk1]) (by rw [hk1])
  subst hk1
  refine ⟨hne, ?_, fun j hj => ?_, fun o => ?_, howner, hcontents, rfl, rfl, rfl, fun c hc => update_of_ne hc ..⟩
  · rw [howner, hused, ← hnat]
    exact htaken
  · exact addr_update_block (fun hi => htaken.addr_ne_of_loose rfl hj hi) _
  · dsimp only
    rw [update_self]

theorem Handed.grown {a : Word} {k₁ : Kernel} (h : Handed k i a k₁) (hk : Booked k i)
    (hempty : (k.icache i).d.addr k.block r = 0)
    (hsb : k'.sb = k₁.sb) (hdinode : k'.dinode = k₁.dinode) (hother : ∀ j, j ≠ i → k'.icache j = k₁.icache j)
    (hbitmap : k'.bitmap = k₁.bitmap)
    (hinode : ∃ addrs, k'.icache i = { k₁.icache i with d := { (k₁.icache i).d with addrs := addrs } })
    (haddr : (k'.icache i).d.addr k'.block = update ((k.icache i).d.addr k₁.block) r a)
    (haddrs : ∀ j, j ≠ (k.icache i).inum → (k.dinode j).type ≠ .free →
      (k.dinode j).addr k'.block = (k.dinode j).addr k₁.block)
    (hdata : ∀ j r', (k.nodes i j).type ≠ .free → r' ≠ .indirect → (k.nodes i j).addr k₁.block r' ≠ 0 →
      k'.block ((k.nodes i j).addr k₁.block r') = k₁.block ((k.nodes i j).addr k₁.block r'))
    (hzero : ∀ o, k'.block a o = 0) : Grown k i k' := by
  obtain ⟨addrs, hinode⟩ := hinode
  rw [h.icache] at hinode hother
  have hinum : (k'.icache i).inum = (k.icache i).inum := by rw [hinode]
  have htype : (k'.icache i).d.type = (k.icache i).d.type := by rw [hinode]
  have hfree : (k.icache i).d.addr k₁.block r = 0 := by
    have haddr := congrFun (h.addr _ hk.live_nodes) r
    rw [nodes_self] at haddr
    exact haddr.trans hempty
  have hnodes : k'.nodes i = update (k.nodes i) (k.icache i).inum (k'.icache i).d := by
    unfold Kernel.nodes
    rw [hinum, hdinode, h.dinode, update_idem]
  have hempty' : (k.nodes i (k.icache i).inum).addr k₁.block r = 0 := by rwa [nodes_self]
  have hplace : owner (k.nodes i) k₁.block ((k.icache i).inum, r) = none := if_pos (.inr hempty')
  have haddr' : (k'.icache i).d.addr k'.block =
      update ((k.nodes i (k.icache i).inum).addr k₁.block) r a := by rwa [nodes_self]
  obtain ⟨hledger, howner, hcontents⟩ := h.ledger.fill hk.live_nodes h.ne hempty' (by rw [nodes_self]; exact htype) haddr'
    (fun j hj => by rw [nodes_of_ne hj]; exact haddrs j hj) hdata hzero
  rw [← hnodes] at hledger howner hcontents
  have hused : usedBlocks k' = usedBlocks k₁ := by simp only [usedBlocks, hsb, hbitmap]
  refine ⟨⟨⟨?_, ?_, htype ▸ hk.live⟩, hsb.trans h.sb, hdinode.trans h.dinode, hother, ⟨addrs, hinode⟩,
    fun x b hx => ?_⟩, fun j hj => (hcontents j hj).trans (h.contents j hj)⟩
  · rw [hsb, h.sb, hused]
    exact hledger
  · rw [hsb, h.sb]
    exact hk.size
  · rw [howner, h.owners]
    have hx' : x ≠ ((k.icache i).inum, r) := by
      rintro rfl
      rw [← h.owners, hplace] at hx
      cases hx
    rw [update_of_ne hx']
    exact hx

theorem addrOf_spec (h : Booked k i) (n : Fin 8) :
    (addrOf i n).Wp Op.sem (Fine w) (fun a k' => Grown k i k' ∧ a ≠ 0 ∧ (k'.icache i).d.addrs n = a) k := by
  refine wp_call_bind trivial fun (ip : Inode) k₁ hip => ?_
  cases hip
  refine wp_ite (fun hzero => ?_) fun hne => wp_pure ⟨.refl h, hne, rfl⟩
  refine (balloc_handed h).bind fun a k₁ ha => wp_call_bind trivial fun _ k2 hstore => wp_pure ?_
  obtain ⟨copies, rfl⟩ := FsOp.store_eq_ok hstore
  have hself : (k₁.setInode i fun ip => { ip with d := (InodeUpdate.addr n a).apply ip.d }).icache i =
      { k₁.icache i with d := { (k₁.icache i).d with addrs := update (k₁.icache i).d.addrs n a } } :=
    Kernel.setInode_self ..
  refine ⟨ha.grown (r := refOf n) h (by rw [addr_refOf]; exact hzero) rfl rfl
    (fun j hj => Kernel.setInode_of_ne hj k₁ fun ip => { ip with d := (InodeUpdate.addr n a).apply ip.d }) rfl ⟨_, hself⟩ ?_ (fun _ _ _ => rfl) (fun _ _ _ _ _ => rfl) ha.zero, ha.ne, ?_⟩
  · dsimp only
    rw [hself, ha.icache]
    exact addr_setAddr hzero ha.ne ha.zero
  · dsimp only
    rw [hself]
    exact update_self ..

theorem indirectAddrOf_spec (h : Booked k i) (j : Fin NINDIRECT) (ht : (k.icache i).d.addrs INDIRECT ≠ 0) :
    (indirectAddrOf ((k.icache i).d.addrs INDIRECT) j).Wp Op.sem (Fine w)
      (fun a k' => Grown k i k' ∧ a ≠ 0 ∧ (k'.icache i).d.addr k'.block (.entry j) = a) k := by
  have hword : (k.icache i).d.addr k.block (.entry j) = Mem.word (k.block ((k.icache i).d.addrs INDIRECT)) (4 * j) :=
    if_neg ht
  refine wp_call_bind trivial fun (data : Mem) k₁ hdata => ?_
  cases hdata
  refine wp_ite (fun hzero => ?_) fun hne => wp_pure ⟨.refl h, hne, hword⟩
  refine (balloc_handed h).bind fun a k₁ ha => wp_call_bind trivial fun _ k2 hwrite => wp_pure ?_
  obtain ⟨lh, rfl⟩ := FsOp.writeBlock_eq_ok hwrite
  have hframe := ha.ledger.write_indirect h.live_nodes (by rw [nodes_self]; exact ht)
    (.write (k₁.block ((k.icache i).d.addrs INDIRECT)) (4 * j) (wordBytes a))
  rw [nodes_self] at hframe
  obtain ⟨hother, hdata, hnot⟩ := hframe
  have haddr : (k.icache i).d.addr (update k₁.block ((k.icache i).d.addrs INDIRECT)
      (.write (k₁.block ((k.icache i).d.addrs INDIRECT)) (4 * j) (wordBytes a))) =
      update ((k.icache i).d.addr k₁.block) (.entry j) a := addr_setEntry ht
  refine ⟨ha.grown (r := .entry j) h (hword.trans hzero) rfl rfl (fun _ _ => rfl) rfl
    ⟨(k₁.icache i).d.addrs, rfl⟩ ?_ (fun j' hj' hlive => ?_) hdata (fun o => ?_), ha.ne, ?_⟩
  · dsimp only
    rw [ha.icache]
    exact haddr
  · have hsame := hother j' hj'
    rw [nodes_of_ne hj'] at hsame
    exact hsame hlive
  · dsimp only
    rw [update_of_ne (hnot a rfl).symm]
    exact ha.zero o
  · dsimp only
    rw [ha.icache, haddr, update_self]

theorem bmap_spec (h : Booked k i) (bn : ℕ) : (bmap i bn).Wp Op.sem (Fine w) (fun a k' => Grown k i k' ∧ a ≠ 0 ∧
    ∃ r, placeOf bn = some r ∧ (k'.icache i).d.addr k'.block r = a) k := by
  unfold bmap
  split
  case isTrue hbn =>
    refine (addrOf_spec h _).mono fun a k' ⟨hgrown, hne, ha⟩ => ⟨hgrown, hne, .direct ⟨bn, hbn⟩, dif_pos hbn, ha⟩
  case isFalse hbn =>
    refine wp_ite (fun hlt => ?_) fun _ => panic_spec
    refine (addrOf_spec h _).bind fun t k₁ ⟨hgrown, hne, ht⟩ => ?_
    have hspec := indirectAddrOf_spec (w := w) hgrown.booked ⟨bn - NDIRECT, hlt⟩ (by rw [ht]; exact hne)
    rw [ht] at hspec
    refine hspec.mono fun a k2 ⟨hgrown', hne', ha⟩ => ⟨hgrown.trans hgrown', hne', .entry ⟨bn - NDIRECT, hlt⟩, ?_, ha⟩
    rw [placeOf, dif_neg hbn, dif_pos hlt]

/-- Where the file has a block already, nothing happens. -/
theorem bmap_run (hr : placeOf bn = some r) (hne : (k.icache i).d.addr k.block r ≠ 0) :
    (bmap i bn).run Op.sem k = .ok ((k.icache i).d.addr k.block r, k) := by
  have haddr {n : Fin 8} (hn : (k.icache i).d.addrs n ≠ 0) : (addrOf i n).run Op.sem k = .ok ((k.icache i).d.addrs n, k) := by
    rw [addrOf, inode_bind_run, if_neg hn]
    rfl
  unfold placeOf at hr
  unfold bmap
  split
  case isTrue hbn =>
    rw [dif_pos hbn] at hr
    cases hr
    exact haddr hne
  case isFalse hbn =>
    rw [dif_neg hbn] at hr
    split at hr
    case isFalse => cases hr
    case isTrue hlt =>
      cases hr
      have ht : (k.icache i).d.addrs INDIRECT ≠ 0 := fun hz => hne (if_pos hz)
      have hword : (k.icache i).d.addr k.block (.entry ⟨bn - NDIRECT, hlt⟩) =
          Mem.word (k.block ((k.icache i).d.addrs INDIRECT)) (4 * (bn - NDIRECT)) := if_neg ht
      rw [hword] at hne ⊢
      rw [if_pos hlt, run_bind, Comp.bind_of_ok (haddr ht), indirectAddrOf, readBlock_bind_run, if_neg hne]
      rfl

end Fs
end Xv6
