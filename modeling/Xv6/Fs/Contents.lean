import Xv6.Fs.Filling

/-! # Reading and writing files

On a file without holes `readi` changes nothing and returns what the file holds; `writei`
changes what the file in hand holds, and no other file.
-/
namespace Xv6
open Function FsOp List

/-- What `readi` returns for a file, by its size and what it holds. -/
def fileRead (size : Word) (m : Mem) (off n : Word) : ℤ × List UInt8 :=
  if off > size ∨ off + n < off then (-1, [])
  else
    let n := if off + n > size then size - off else n
    (n.toInt, (List.range n.toNat).map fun j => m (off.toNat + j))

variable {d : Dinode} {r : BlockRef} {src : List UInt8} {u : Unit}

namespace Fs
open Prog
open KProg hiding panic

variable {w : Watch} {k k' : Kernel} {i : InodeIdx} {p : Slot}

theorem contents_block {block : Word → Mem}
    (hr : placeOf (off / BSIZE) = some r) (hne : d.addr block r ≠ 0) (hj : off % BSIZE + j < BSIZE) :
    d.contents block (off + j) = block (d.addr block r) (off % BSIZE + j) := by
  have hdiv : (off + j) / BSIZE = off / BSIZE := by
    have hoff := Nat.div_add_mod off BSIZE
    rw [Nat.div_eq_iff (by unfold BSIZE; omega)]
    rw [Nat.mul_comm] at hoff
    omega
  have hmod : (off + j) % BSIZE = off % BSIZE + j := by
    have hoff := Nat.div_add_mod off BSIZE
    have hoff' := Nat.div_add_mod (off + j) BSIZE
    rw [hdiv] at hoff'
    omega
  rw [Dinode.contents_of_place (hdiv ▸ hr), if_neg hne, hmod]

theorem readLoop_run (turns off n : ℕ) (hturns : n ≤ turns)
    (hwhole : ∀ bn, bn * BSIZE < off + n → ∃ r, placeOf bn = some r ∧ (k.icache i).d.addr k.block r ≠ 0) :
    (readLoop i turns off n).run Op.sem k =
      .ok ((range n).map fun j => (k.icache i).d.contents k.block (off + j), k) := by
  induction turns generalizing off n with
  | zero =>
    obtain rfl : n = 0 := by omega
    rfl
  | succ turns ih =>
    unfold readLoop
    by_cases hn : n = 0
    · subst hn
      rfl
    have hmod : off % BSIZE < BSIZE := Nat.mod_lt _ (by unfold BSIZE; omega)
    obtain ⟨r, hr, hne⟩ := hwhole (off / BSIZE) (by
      have hdiv := Nat.div_mul_le_self off BSIZE
      omega)
    rw [if_neg hn, run_bind, Comp.bind_of_ok (bmap_run hr hne), readBlock_bind_run]
    generalize hm : min n (BSIZE - off % BSIZE) = m
    have hrest := ih (off + m) (n - m) (by omega) fun bn hbn => hwhole bn (by omega)
    rw [run_bind, Comp.bind_of_ok hrest]
    refine congrArg (fun l => Except.ok (l, k)) ?_
    rw [show n = m + (n - m) by omega, range_add, map_append, map_map]
    rw [show m + (n - m) - m = n - m by omega]
    refine congrArg₂ (· ++ ·) (map_congr_left fun j hj => ?_) (map_congr_left fun j _ => ?_)
    · have hj := mem_range.mp hj
      exact (contents_block hr hne (by omega)).symm
    · rw [comp_apply, Nat.add_assoc]

theorem readLoop_harmless (turns off n : ℕ) : (readLoop i turns off n).Uses Harmless := by
  induction turns generalizing off n with
  | zero => exact uses_pure _
  | succ turns ih =>
    refine .ite (uses_pure _) ((bmap_harmless i _).bind fun a => ⟨fun _ _ => trivial, fun data => ?_⟩)
    exact (ih _ _).bind fun _ => uses_pure _

theorem readi_spec (hdev : (k.icache i).d.type ≠ .dev) (hwhole : (k.icache i).d.Whole k.block) (off n : Word) :
    (readi p i off n).Wp Op.sem (Fine w)
      (fun r k' => k' = k ∧ r = fileRead (k.icache i).d.size ((k.icache i).d.contents k.block) off n) k := by
  refine wp_call_bind trivial fun (ip : Inode) k₁ hip => ?_
  cases hip
  rw [if_neg hdev]
  unfold fileRead
  refine wp_ite (fun hout => wp_pure ⟨rfl, by rw [if_pos hout]⟩) fun hin => ?_
  rw [if_neg hin]
  push Not at hin
  dsimp only
  generalize hm : (if off + n > (k.icache i).d.size then (k.icache i).d.size - off else n) = m
  have hbound : off.toNat + m.toNat ≤ (k.icache i).d.size.toNat := by
    subst hm
    split <;> bv_omega
  have hloop := readLoop_run (k := k) (i := i) m.toNat off.toNat m.toNat le_rfl fun bn hbn => hwhole bn (by omega)
  have huses := readLoop_harmless (i := i) m.toNat off.toNat m.toNat
  refine (huses.wp (fun o ho t => ho w t) fun bytes k2 hr => ?_).bind fun bytes k2 hk2 => wp_pure (by exact hk2)
  cases hloop.symm.trans hr
  exact ⟨rfl, rfl⟩

/-- `readi` returns, where the file has the blocks for what is read. -/
theorem readi_run (hdev : (k.icache i).d.type ≠ .dev) (off n : Word)
    (hwhole : ∀ bn, bn * BSIZE < off.toNat + n.toNat → bn * BSIZE < (k.icache i).d.size.toNat →
      ∃ r, placeOf bn = some r ∧ (k.icache i).d.addr k.block r ≠ 0) : (readi p i off n).run Op.sem k =
      .ok (fileRead (k.icache i).d.size ((k.icache i).d.contents k.block) off n, k) := by
  rw [readi, inode_bind_run, if_neg hdev]
  unfold fileRead
  split
  case isTrue => rfl
  case isFalse hin =>
    push Not at hin
    dsimp only
    generalize hm : (if off + n > (k.icache i).d.size then (k.icache i).d.size - off else n) = m
    have hbound : off.toNat + m.toNat ≤ (k.icache i).d.size.toNat ∧ m.toNat ≤ n.toNat := by
      subst hm
      split <;> bv_omega
    have hloop := readLoop_run (k := k) (i := i) m.toNat off.toNat m.toNat le_rfl fun bn hbn =>
      hwhole bn (by omega) (by omega)
    rw [run_bind, Comp.bind_of_ok hloop]
    rfl

/-- The file in hand holds new bytes from `off` on, and has the blocks for them; every
other file holds what it held. -/
structure Wrote (k : Kernel) (i : InodeIdx) (off : ℕ) (src : List UInt8) (k' : Kernel) : Prop extends Kept k i k' where
  written : (k'.icache i).d.contents k'.block = ((k.icache i).d.contents k.block).write off src
  rest : ∀ j, j ≠ (k.icache i).inum → (k.dinode j).type ≠ .free →
    (k.dinode j).contents k'.block = (k.dinode j).contents k.block
  filled : ∀ o, off ≤ o → o < off + src.length →
    ∃ r, placeOf (o / BSIZE) = some r ∧ (k'.icache i).d.addr k'.block r ≠ 0

theorem Grown.wrote_nil (h : Grown k i k') (hlive : (k.icache i).d.type ≠ .free) (off : ℕ) : Wrote k i off [] k' := by
  refine ⟨h.toKept, ?_, fun j hj hj' => ?_, fun o h0 h1 => ?_⟩
  · have hsame := h.contents (k.icache i).inum (by rwa [nodes_self])
    rw [nodes_self, ← h.inum, nodes_self] at hsame
    rw [hsame, Mem.write_nil]
  · have hsame := h.contents j (by rwa [nodes_of_ne hj])
    rwa [h.nodes hj, nodes_of_ne hj] at hsame
  · simp only [length_nil] at h1
    omega

theorem Wrote.append (h : Wrote k i off xs k₁)
    (h' : Wrote k₁ i (off + xs.length) ys k') : Wrote k i off (xs ++ ys) k' := by
  refine ⟨h.toKept.trans h'.toKept, ?_, fun j hj hlive => ?_, fun o h0 h1 => ?_⟩
  · rw [Mem.write_append, ← h.written]
    exact h'.written
  · have hrest := h'.rest j (h.inum ▸ hj)
    rw [h.dinode] at hrest
    exact (hrest hlive).trans (h.rest j hj hlive)
  · rw [length_append] at h1
    by_cases hlow : o < off + xs.length
    · obtain ⟨r, hr, hne⟩ := h.filled o h0 hlow
      refine ⟨r, hr, ?_⟩
      rw [h'.addr h.booked.live hne]
      exact hne
    · exact h'.filled o (by omega) (by omega)

theorem wrote_block {bn : ℕ} (off : ℕ) (src : List UInt8) (h : Booked k i) (hr : placeOf bn = some r)
    (hne : (k.icache i).d.addr k.block r ≠ 0) (hoff : off + src.length ≤ BSIZE) (lh : List Word) :
    Wrote k i (bn * BSIZE + off) src { k with
      log := { k.log with lh := lh }
      block := update k.block ((k.icache i).d.addr k.block r)
        (Mem.write (k.block ((k.icache i).d.addr k.block r)) off src) } := by
  have hne' : (k.nodes i (k.icache i).inum).addr k.block r ≠ 0 := by rwa [nodes_self]
  obtain ⟨haddr, howner, hwritten, hrest⟩ := h.ledger.write h.live_nodes hr hne' hoff rfl
  rw [nodes_self] at haddr howner hwritten hrest
  refine ⟨⟨⟨?_, h.size, h.live⟩, rfl, rfl, fun _ _ => rfl, ⟨_, rfl⟩, fun x b hx => ?_⟩, hwritten, fun j hj hlive => ?_,
    fun o h0 h1 => ⟨r, ?_, ?_⟩⟩
  · exact howner.symm ▸ h.ledger
  · exact (congrFun howner x).trans hx
  · have hsame := hrest j hj
    rw [nodes_of_ne hj] at hsame
    exact hsame hlive
  · rw [show o / BSIZE = bn from (Nat.div_eq_iff (by unfold BSIZE; omega)).mpr (by omega)]
    exact hr
  · have hsame := congrFun (haddr _ h.live_nodes) r
    rw [nodes_self] at hsame
    exact hsame.trans_ne hne

theorem writeLoop_spec (h : Booked k i) {turns : ℕ} (off : ℕ) (src : List UInt8) (hturns : src.length ≤ turns) :
    (writeLoop i turns off src).Wp Op.sem (Fine w) (fun _ k' => Wrote k i off src k') k := by
  induction turns generalizing k off src with
  | zero =>
    obtain rfl : src = [] := eq_nil_of_length_eq_zero (by omega)
    exact (Grown.refl h).wrote_nil h.live off
  | succ turns ih =>
    unfold writeLoop
    refine wp_ite (fun hnil => ?_) fun hnil => ?_
    · subst hnil
      exact (Grown.refl h).wrote_nil h.live off
    refine (bmap_spec h _).bind fun a k₁ ⟨hgrown, hne, r, hr, ha⟩ => wp_call_bind trivial fun _ k2 hwrite => ?_
    have hmod : off % BSIZE < BSIZE := Nat.mod_lt _ (by unfold BSIZE; omega)
    have hpos : 0 < src.length := length_pos_iff.mpr hnil
    obtain ⟨lh, rfl⟩ := writeBlock_eq_ok hwrite
    subst ha
    have htake : (src.take (BSIZE - off % BSIZE)).length = min (BSIZE - off % BSIZE) src.length := length_take ..
    have hfirst := wrote_block (off % BSIZE) (src.take (BSIZE - off % BSIZE)) hgrown.booked hr hne
      (by omega) lh
    rw [Nat.div_add_mod'] at hfirst
    have hboth := Wrote.append (hgrown.wrote_nil h.live off) hfirst
    have hrest := ih hfirst.booked (off + (src.take (BSIZE - off % BSIZE)).length)
      (src.drop (BSIZE - off % BSIZE)) (by rw [length_drop]; omega)
    refine hrest.mono fun _ k3 hk3 => ?_
    have hall := hboth.append hk3
    rw [nil_append, take_append_drop] at hall
    exact hall

/-- Where the file has blocks for all that is written, the inode stays as it is. -/
theorem writeLoop_icache (h : Booked k i) (hfilled : ∀ o, off ≤ o → o < off + src.length →
      ∃ r, placeOf (o / BSIZE) = some r ∧ (k.icache i).d.addr k.block r ≠ 0)
    (hr : (writeLoop i turns off src).run Op.sem k = .ok (u, k')) : k'.icache = k.icache := by
  induction turns generalizing k off src with
  | zero =>
    cases hr
    rfl
  | succ turns ih =>
    unfold writeLoop at hr
    by_cases hnil : src = []
    · rw [if_pos hnil] at hr
      cases hr
      rfl
    rw [if_neg hnil] at hr
    have hmod : off % BSIZE < BSIZE := Nat.mod_lt _ (by unfold BSIZE; omega)
    have hpos : 0 < src.length := length_pos_iff.mpr hnil
    obtain ⟨r, hplace, hne⟩ := hfilled off le_rfl (by omega)
    rw [run_bind, Comp.bind_of_ok (bmap_run hplace hne)] at hr
    obtain ⟨_, k2, hwrite, hr⟩ := of_bind hr
    obtain ⟨lh, rfl⟩ := writeBlock_eq_ok (of_call hwrite)
    have htake : (src.take (BSIZE - off % BSIZE)).length = min (BSIZE - off % BSIZE) src.length := length_take ..
    have hfirst := wrote_block (off % BSIZE) (src.take (BSIZE - off % BSIZE)) h hplace hne (by omega) lh
    exact (ih hfirst.booked (fun o h0 h1 => by
      rw [length_drop] at h1
      obtain ⟨r', hr', hne'⟩ := hfilled o (by omega) (by omega)
      refine ⟨r', hr', ?_⟩
      rw [hfirst.addr h.live hne']
      exact hne') hr :)

end Fs

/-- The file system between two calls: valid entries of the cache are copies of allocated
inodes on the disk, no inode has two entries, the free map agrees with the blocks that the
inodes name, and no file has holes. -/
structure Intact (k : Kernel) : Prop where
  unique : ∀ i j, 0 < (k.icache i).ref → 0 < (k.icache j).ref → (k.icache i).inum = (k.icache j).inum → i = j
  sync : ∀ i, 0 < (k.icache i).ref → (k.icache i).valid = true →
    k.dinode (k.icache i).inum = (k.icache i).d ∧ (k.icache i).d.type ≠ .free
  ledger : Ledger (owner k.dinode k.block) ∅ (metaBlocks k.sb) (usedBlocks k)
  whole : ∀ j, (k.dinode j).type ≠ .free → (k.dinode j).Whole k.block
  size : k.sb.size < 2 ^ 32

def Loaded (k : Kernel) (i : InodeIdx) : Prop := 0 < (k.icache i).ref ∧ (k.icache i).valid = true

namespace Intact
variable {k : Kernel} {i : InodeIdx}

theorem nodes (h : Intact k) (hi : Loaded k i) : k.nodes i = k.dinode := by
  rw [Kernel.nodes, ← (h.sync i hi.1 hi.2).1, update_eq_self]

theorem booked (h : Intact k) (hi : Loaded k i) : Fs.Booked k i := by
  refine ⟨?_, h.size, (h.sync i hi.1 hi.2).2⟩
  rw [h.nodes hi]
  exact h.ledger

theorem whole_of_loaded (h : Intact k) (hi : Loaded k i) : (k.icache i).d.Whole k.block := by
  obtain ⟨hsync, htype⟩ := h.sync i hi.1 hi.2
  rw [← hsync] at htype ⊢
  exact h.whole _ htype

end Intact

namespace Fs
open Prog
open KProg hiding panic
variable {w : Watch} {k k' : Kernel} {i : InodeIdx} {p : Slot}

/-- What is outside the tables of `fs.c`. -/
def outside (k : Kernel) : PTable × Vm.Phys × Superblock × (FileIdx → File) × (Vm.Frame → Pipe) × UTable :=
  (k.pt, k.phys, k.sb, k.ftable, k.pipe, k.utable)

theorem outside_blind : FsBlind outside :=
  ⟨fun _ _ => rfl, fun _ _ => rfl, fun _ _ => rfl, fun _ _ => rfl, fun _ _ => rfl, fun _ _ => rfl, fun _ _ => rfl⟩

/-- The file of entry `i` has size `size` and holds `m`; nothing else is changed. -/
structure Edited (k : Kernel) (i : InodeIdx) (size : Word) (m : Mem) (k' : Kernel) : Prop where
  intact : Intact k'
  other : ∀ j, j ≠ i → k'.icache j = k.icache j
  inode : ∃ addrs, k'.icache i = { k.icache i with d := { (k.icache i).d with size := size, addrs := addrs } }
  dinode : ∀ j, j ≠ (k.icache i).inum → k'.dinode j = k.dinode j
  contents : (k'.icache i).d.contents k'.block = m
  rest : ∀ j, j ≠ (k.icache i).inum → (k.dinode j).type ≠ .free →
    (k.dinode j).contents k'.block = (k.dinode j).contents k.block

/-- The inode of entry `i` is `d`, in memory and on the disk. -/
structure Assigned (k : Kernel) (i : InodeIdx) (d : Dinode) (k' : Kernel) : Prop where
  inode : k'.icache i = { k.icache i with d := d }
  other : ∀ j, j ≠ i → k'.icache j = k.icache j
  dinode : k'.dinode = update k.dinode (k.icache i).inum d
  block : k'.block = k.block
  bitmap : k'.bitmap = k.bitmap
  outside : outside k' = outside k

theorem iupdate_assigned (h : iupdate.sem i k = .ok (u, k')) : Assigned k i (k.icache i).d k' := by
  obtain ⟨lh, rfl⟩ := iupdate_eq_ok h
  exact ⟨rfl, fun _ _ => rfl, rfl, rfl, rfl, rfl⟩

variable {k₁ : Kernel} {m : Mem}

theorem Assigned.store {u : InodeUpdate} (h : store.sem i u k = .ok (v, k₁))
    (h' : Assigned k₁ i d k') : Assigned k i d k' := by
  have hicache := store_icache h
  have hself : k₁.icache i = { k.icache i with d := u.apply (k.icache i).d } := by rw [hicache, Kernel.setInode_self]
  refine ⟨?_, fun j hj => ?_, ?_, ?_, ?_, ?_⟩
  · rw [h'.inode, hself]
  · rw [h'.other j hj, hicache, Kernel.setInode_of_ne hj]
  all_goals obtain ⟨copies, rfl⟩ := store_eq_ok h
  · rw [h'.dinode, hself]
    rfl
  · exact h'.block
  · exact h'.bitmap
  · exact h'.outside

/-- The size after a write that ends at `off`. -/
def grownSize (size off : Word) (n : ℕ) : Word := if 0 < n ∧ off > size then off else size

theorem edited_of {size : Word} (h : Intact k) (hi : Loaded k i)
    (hother : ∀ j, j ≠ i → k'.icache j = k.icache j)
    (hinode : ∃ addrs, k'.icache i = { k.icache i with d := { (k.icache i).d with size := size, addrs := addrs } })
    (hdinode : k'.dinode = update k.dinode (k.icache i).inum (k'.icache i).d) (hsb : k'.sb = k.sb)
    (hledger : Ledger (owner k'.dinode k'.block) ∅ (metaBlocks k'.sb) (usedBlocks k'))
    (hself : (k'.icache i).d.Whole k'.block)
    (hwhole : ∀ j, j ≠ (k.icache i).inum → (k.dinode j).type ≠ .free → (k.dinode j).Whole k'.block)
    (hcontents : (k'.icache i).d.contents k'.block = m)
    (hrest : ∀ j, j ≠ (k.icache i).inum → (k.dinode j).type ≠ .free →
      (k.dinode j).contents k'.block = (k.dinode j).contents k.block) : Edited k i size m k' := by
  obtain ⟨addrs, haddrs⟩ := hinode
  have htag (j : InodeIdx) : ((k'.icache j).inum, (k'.icache j).ref, (k'.icache j).valid) =
      ((k.icache j).inum, (k.icache j).ref, (k.icache j).valid) := by
    by_cases hj : j = i
    · rw [hj, haddrs]
    · rw [hother j hj]
  simp only [Prod.mk.injEq] at htag
  have hnode : k'.dinode (k.icache i).inum = (k'.icache i).d := by rw [hdinode, update_self]
  have hne {j : ℕ} (hj : j ≠ (k.icache i).inum) : k'.dinode j = k.dinode j := by rw [hdinode, update_of_ne hj]
  have hlive : (k'.icache i).d.type ≠ .free := by
    rw [haddrs]
    exact (h.sync i hi.1 hi.2).2
  refine ⟨⟨fun a b ha hb hab => ?_, fun j hj hv => ?_, hledger, fun j hj => ?_, hsb ▸ h.size⟩,
    hother, ⟨addrs, haddrs⟩, fun j hj => hne hj, hcontents, hrest⟩
  · rw [(htag a).2.1] at ha
    rw [(htag b).2.1] at hb
    rw [(htag a).1, (htag b).1] at hab
    exact h.unique a b ha hb hab
  · by_cases hji : j = i
    · subst hji
      rw [(htag j).1]
      exact ⟨hnode, hlive⟩
    · rw [(htag j).2.1] at hj
      rw [(htag j).2.2] at hv
      have hinum : (k.icache j).inum ≠ (k.icache i).inum := fun heq => hji (h.unique j i hj hi.1 heq)
      rw [(htag j).1, hne hinum, hother j hji]
      exact h.sync j hj hv
  · by_cases hji : j = (k.icache i).inum
    · rw [hji, hnode]
      exact hself
    · rw [hne hji] at hj ⊢
      exact hwhole j hji hj

theorem Kept.edited {size : Word} (h : Intact k) (hi : Loaded k i) (hk : Kept k i k₁)
    (hblock : k'.block = k₁.block) (hbitmap : k'.bitmap = k₁.bitmap) (hsb : k'.sb = k₁.sb)
    (hother : ∀ j, j ≠ i → k'.icache j = k₁.icache j)
    (hinode : k'.icache i = { k₁.icache i with d := { (k₁.icache i).d with size := size } })
    (hdinode : k'.dinode = update k.dinode (k.icache i).inum (k'.icache i).d)
    (hwhole : ∀ o, o < size.toNat → ∃ r, placeOf (o / BSIZE) = some r ∧ (k₁.icache i).d.addr k₁.block r ≠ 0)
    (hcontents : (k₁.icache i).d.contents k₁.block = m)
    (hrest : ∀ j, j ≠ (k.icache i).inum → (k.dinode j).type ≠ .free →
      (k.dinode j).contents k₁.block = (k.dinode j).contents k.block) : Edited k i size m k' := by
  obtain ⟨addrs, haddrs⟩ := hk.inode
  have haddr : (k'.icache i).d.addr k'.block = (k₁.icache i).d.addr k₁.block := by
    rw [hinode, hblock]
    funext r
    cases r <;> rfl
  refine edited_of h hi (fun j hj => (hother j hj).trans (hk.other j hj)) ⟨addrs, by rw [hinode, haddrs]⟩ hdinode
    (hsb.trans hk.sb) ?_ (fun bn hbn => ?_) (fun j hj hlive bn hbn => ?_) ?_ fun j hj hlive => by
      rw [hblock]
      exact hrest j hj hlive
  · have howner : owner k'.dinode k'.block = owner (k₁.nodes i) k₁.block := by
      funext x
      rw [hdinode]
      by_cases hx : x.1 = (k.icache i).inum
      · have hold : k₁.nodes i x.1 = (k₁.icache i).d := by rw [hx, ← hk.inum, nodes_self]
        refine owner_congr ?_ fun _ => ?_
        · rw [hold, hx, update_self, hinode]
        · rw [hold, hx, update_self, haddr]
      · refine owner_congr ?_ fun _ => ?_
        · rw [hk.nodes hx, nodes_of_ne hx, update_of_ne hx]
        · rw [hk.nodes hx, nodes_of_ne hx, update_of_ne hx, hblock]
    have hused : usedBlocks k' = usedBlocks k₁ := by simp only [usedBlocks, hsb, hbitmap]
    rw [howner, hused, hsb]
    exact hk.booked.ledger
  · have hsize : (k'.icache i).d.size = size := by rw [hinode]
    obtain ⟨r, hr, hne⟩ := hwhole (bn * BSIZE) (hsize ▸ hbn)
    rw [Nat.mul_div_cancel _ (by unfold BSIZE; omega)] at hr
    exact ⟨r, hr, by rwa [haddr]⟩
  · obtain ⟨r, hr, hne⟩ := h.whole j hlive bn hbn
    have hkeep := hk.addr_nodes (j := j) (r := r) (by rwa [nodes_of_ne hj]) (by rwa [nodes_of_ne hj])
    rw [hk.nodes hj, nodes_of_ne hj] at hkeep
    refine ⟨r, hr, ?_⟩
    rw [hblock, hkeep]
    exact hne
  · rw [← hcontents]
    exact Dinode.contents_congr haddr fun r _ _ => by rw [hblock]

theorem growTo_spec (off : Word) (n : ℕ) (h : Intact k) (hi : Loaded k i)
    (hk : Kept k i k₁) (hcontents : (k₁.icache i).d.contents k₁.block = m)
    (hrest : ∀ j, j ≠ (k.icache i).inum → (k.dinode j).type ≠ .free →
      (k.dinode j).contents k₁.block = (k.dinode j).contents k.block)
    (hwhole : ∀ o, o < (grownSize (k.icache i).d.size off n).toNat →
      ∃ r, placeOf (o / BSIZE) = some r ∧ (k₁.icache i).d.addr k₁.block r ≠ 0)
    (hstill : ¬ (0 < n ∧ off > (k.icache i).d.size) → k₁.icache = k.icache) :
    (growTo i off n).Wp Op.sem (Fine w) (fun _ k' => Edited k i (grownSize (k.icache i).d.size off n) m k') k₁ := by
  refine wp_call_bind trivial fun (ip : Inode) k2 hip => ?_
  cases hip
  rw [hk.size]
  unfold grownSize at hwhole ⊢
  refine wp_ite (fun hgrow => ?_) fun hkeep => wp_pure ?_
  · rw [if_pos hgrow] at hwhole ⊢
    refine wp_call_bind trivial fun _ k2 hstore => wp_call trivial fun _ k3 hupdate => ?_
    have hd : (k2.icache i).d = { (k₁.icache i).d with size := off } := by
      rw [store_icache hstore, Kernel.setInode_self]
      rfl
    have hassign := Assigned.store hstore (iupdate_assigned hupdate)
    rw [hd] at hassign
    refine hk.edited h hi hassign.block hassign.bitmap ?_ hassign.other hassign.inode ?_ hwhole hcontents hrest
    · exact congrArg (fun o => o.2.2.1) hassign.outside
    · rw [hassign.dinode, hassign.inode, hk.dinode, hk.inum]
  · rw [if_neg hkeep] at hwhole ⊢
    refine hk.edited h hi rfl rfl rfl (fun _ _ => rfl) ?_ ?_ hwhole hcontents hrest
    · rw [hstill hkeep]
    · rw [hstill hkeep, hk.dinode, ← (h.sync i hi.1 hi.2).1, update_eq_self]

theorem grownSize_toNat (h : off.toNat + n < 2 ^ 32) (hoff : off.toNat ≤ size.toNat) :
    (grownSize size (off + BitVec.ofNat 32 n) n).toNat = max size.toNat (off.toNat + n) := by
  have hend : (off + BitVec.ofNat 32 n).toNat = off.toNat + n := by
    rw [BitVec.toNat_add, BitVec.toNat_ofNat, Nat.add_mod_mod, Nat.mod_eq_of_lt h]
  unfold grownSize
  split
  case isTrue hgrow =>
    have hlt : size.toNat < (off + BitVec.ofNat 32 n).toNat := hgrow.2
    omega
  case isFalse hkeep =>
    have hle : ¬ (0 < n ∧ size.toNat < (off + BitVec.ofNat 32 n).toNat) := hkeep
    omega

theorem writei_spec (h : Intact k) (hi : Loaded k i) (hdev : (k.icache i).d.type ≠ .dev)
    (hlen : src.length < 2 ^ 32) :
    (writei p i src off).Wp Op.sem (Fine w) (fun (r : ℤ) k' => (r = -1 ∧ k' = k) ∨
      (r = src.length ∧ off.toNat ≤ (k.icache i).d.size.toNat ∧ off.toNat + src.length ≤ MAXFILE * BSIZE ∧
        Edited k i (grownSize (k.icache i).d.size (off + BitVec.ofNat 32 src.length) src.length)
          (((k.icache i).d.contents k.block).write off.toNat src) k')) k := by
  refine wp_call_bind trivial fun (ip : Inode) k₁ hip => ?_
  cases hip
  rw [if_neg hdev]
  refine wp_ite (fun _ => wp_pure (.inl ⟨rfl, rfl⟩)) fun hoff => wp_ite (fun _ => wp_pure (.inl ⟨rfl, rfl⟩)) fun hmax => ?_
  push Not at hoff
  have hend : (off + BitVec.ofNat 32 src.length).toNat = off.toNat + src.length := by bv_omega
  have hstart : off.toNat ≤ (k.icache i).d.size.toNat := by bv_omega
  rw [hend, not_lt] at hmax
  have hbooked := h.booked hi
  -- a byte within the file has a block, as the file is whole
  have hold (o : ℕ) (ho : o < (k.icache i).d.size.toNat) :
      ∃ r, placeOf (o / BSIZE) = some r ∧ (k.icache i).d.addr k.block r ≠ 0 :=
    h.whole_of_loaded hi _ (Nat.lt_of_le_of_lt (Nat.div_mul_le_self o BSIZE) ho)
  refine (writeLoop_spec hbooked _ _ le_rfl).and_run.bind fun _ k₁ ⟨hwrote, hrun⟩ => ?_
  have hgrow := growTo_spec (w := w) (off + BitVec.ofNat 32 src.length) src.length h hi hwrote.toKept
    hwrote.written hwrote.rest (fun o ho => ?_) fun hkeep => ?_
  · refine hgrow.bind fun _ k' hk' => wp_pure (.inr ⟨?_, hstart, hmax, hk'⟩)
    have hint : (BitVec.ofNat 32 src.length).toInt = src.length := by
      unfold MAXFILE BSIZE NDIRECT NINDIRECT at hmax
      rw [BitVec.toInt_eq_toNat_of_lt] <;> rw [BitVec.toNat_ofNat, Nat.mod_eq_of_lt (by omega)]
      omega
    exact hint
  · by_cases hin : o < (k.icache i).d.size.toNat
    · obtain ⟨r, hr, hne⟩ := hold o hin
      exact ⟨r, hr, by rwa [hwrote.addr hbooked.live hne]⟩
    · unfold grownSize at ho
      split at ho
      case isTrue => exact hwrote.filled o (by omega) (by omega)
      case isFalse => exact (hin ho).elim
  · refine writeLoop_icache hbooked (fun o h0 h1 => hold o ?_) hrun
    have hle : ¬ (off + BitVec.ofNat 32 src.length > (k.icache i).d.size) := fun hgt => hkeep ⟨by omega, hgt⟩
    bv_omega

end Fs
end Xv6
