import Mathlib.Data.Multiset.AddSub
import Xv6.Fs.Freeing

/-! # References that move

Looking at files takes and gives back references to entries of the cache. An inode without
links is freed with the last reference to it; all other inodes stay, with what they hold.
-/
namespace Xv6
open Function Kernel Multiset

namespace Intact
variable {k k' : Kernel} {i : InodeIdx}

/-- Only the cache differs. -/
theorem of_cache (h : Intact k) (hdinode : k'.dinode = k.dinode) (hblock : k'.block = k.block)
    (hbitmap : k'.bitmap = k.bitmap) (hsb : k'.sb = k.sb)
    (hunique : ∀ a b, 0 < (k'.icache a).ref → 0 < (k'.icache b).ref → (k'.icache a).inum = (k'.icache b).inum → a = b)
    (hsync : ∀ j, 0 < (k'.icache j).ref → (k'.icache j).valid = true →
      k.dinode (k'.icache j).inum = (k'.icache j).d ∧ (k'.icache j).d.type ≠ .free) : Intact k' := by
  refine ⟨hunique, ?_, ?_, ?_, hsb ▸ h.size⟩
  · rw [hdinode]
    exact hsync
  · have hused : usedBlocks k' = usedBlocks k := by simp only [usedBlocks, hsb, hbitmap]
    rw [hdinode, hblock, hsb, hused]
    exact h.ledger
  · rw [hdinode, hblock]
    exact h.whole

theorem congr (h : Intact k) (hicache : k'.icache = k.icache) (hdinode : k'.dinode = k.dinode)
    (hblock : k'.block = k.block) (hbitmap : k'.bitmap = k.bitmap) (hsb : k'.sb = k.sb) : Intact k' := by
  refine h.of_cache hdinode hblock hbitmap hsb ?_ ?_
  · rw [hicache]
    exact h.unique
  · rw [hicache]
    exact h.sync

theorem setEntry (h : Intact k) {f : Inode → Inode}
    (hnew : 0 < (f (k.icache i)).ref → ∀ j, j ≠ i → 0 < (k.icache j).ref → (f (k.icache i)).inum ≠ (k.icache j).inum)
    (hvalid : 0 < (f (k.icache i)).ref → (f (k.icache i)).valid = true →
      k.dinode (f (k.icache i)).inum = (f (k.icache i)).d ∧ (f (k.icache i)).d.type ≠ .free) : Intact (k.setInode i f) :=
  h.of_cache rfl rfl rfl rfl (distinct_update (A := fun ip : Inode => 0 < ip.ref) (K := Inode.inum) h.unique hnew)
    (forall_update (P := fun _ (ip : Inode) => 0 < ip.ref → ip.valid = true → k.dinode ip.inum = ip.d ∧ ip.d.type ≠ .free)
      (fun j _ => h.sync j) hvalid)

theorem setInode (h : Intact k) {f : Inode → Inode} (hinum : (f (k.icache i)).inum = (k.icache i).inum)
    (href : 0 < (f (k.icache i)).ref → 0 < (k.icache i).ref)
    (hvalid : 0 < (k.icache i).ref → (f (k.icache i)).valid = true →
      k.dinode (k.icache i).inum = (f (k.icache i)).d ∧ (f (k.icache i)).d.type ≠ .free) : Intact (k.setInode i f) := by
  refine h.setEntry (fun hr j hj hpos heq => hj (h.unique j i hpos (href hr) (heq.symm.trans hinum))) fun hr hv => ?_
  rw [hinum]
  exact hvalid (href hr) hv

theorem newEntry (h : Intact k) (hnone : ∀ j, 0 < (k.icache j).ref → (k.icache j).inum ≠ inum) :
    Intact (k.setInode i fun ip => { ip with inum := inum, ref := 1, valid := false }) :=
  h.setEntry (fun _ j _ hpos heq => hnone j hpos heq.symm) fun _ hv => by cases hv

end Intact

namespace Fs
open Prog
open KProg hiding panic

variable {w : Watch} {k k' k'' : Kernel} {i : InodeIdx} {p : Slot} {m m' m'' : Multiset InodeIdx}

def Same (k k' : Kernel) (j : ℕ) : Prop :=
  k'.dinode j = k.dinode j ∧
    ((k.dinode j).type ≠ .free → (k.dinode j).contents k'.block = (k.dinode j).contents k.block)

/-- The references of a call to entries of the cache have become others. Entries to which
there are more references than those stay; inodes without links may have been freed. -/
structure Moved (k : Kernel) (m : Multiset InodeIdx) (k' : Kernel) (m' : Multiset InodeIdx) : Prop where
  intact : Intact k'
  still : outside k' = outside k
  nodes : ∀ j, Same k k' j ∨ (k.dinode j).nlink = 0 ∧ (k'.dinode j).type = .free
  spare : ∀ j, (k'.icache j).ref - m'.count j = (k.icache j).ref - m.count j
  inum : ∀ j, 0 < (k.icache j).ref - m.count j → (k'.icache j).inum = (k.icache j).inum
  valid : ∀ j, 0 < (k.icache j).ref - m.count j → (k.icache j).valid = true → (k'.icache j).valid = true
  live : ∀ j, 0 < (k.icache j).ref - m.count j → (k.dinode (k.icache j).inum).type ≠ .free →
    (k'.dinode (k.icache j).inum).type ≠ .free

def Refers (k : Kernel) (i : InodeIdx) (inum : ℕ) : Prop := 0 < (k.icache i).ref ∧ (k.icache i).inum = inum

namespace Same
variable {j : ℕ}

theorem refl (k : Kernel) (j : ℕ) : Same k k j := ⟨rfl, fun _ => rfl⟩

theorem of_disk (hdinode : k'.dinode = k.dinode) (hblock : k'.block = k.block) (j : ℕ) : Same k k' j :=
  ⟨congrFun hdinode j, fun _ => by rw [hblock]⟩

theorem trans (h : Same k k' j) (h' : Same k' k'' j) : Same k k'' j := by
  refine ⟨h'.1.trans h.1, fun hlive => ?_⟩
  have hcontents := h'.2
  rw [h.1] at hcontents
  exact (hcontents hlive).trans (h.2 hlive)

end Same

namespace Moved

theorem refl (h : Intact k) (m : Multiset InodeIdx) : Moved k m k m :=
  ⟨h, rfl, fun j => .inl (.refl k j), fun _ => rfl, fun _ _ => rfl, fun _ _ => id, fun _ _ => id⟩

section
variable (h : Moved k m k' m')
include h

theorem trans (h' : Moved k' m' k'' m'') : Moved k m k'' m'' := by
  have hpos {j : InodeIdx} (hj : 0 < (k.icache j).ref - m.count j) : 0 < (k'.icache j).ref - m'.count j := by
    rw [h.spare j]
    exact hj
  refine ⟨h'.intact, h'.still.trans h.still, fun j => ?_, fun j => (h'.spare j).trans (h.spare j),
    fun j hj => (h'.inum j (hpos hj)).trans (h.inum j hj), fun j hj hv => h'.valid j (hpos hj) (h.valid j hj hv),
    fun j hj hlive => ?_⟩
  · rcases h.nodes j, h'.nodes j with ⟨hsame | ⟨hlink, hfree⟩, hsame' | ⟨hlink', hfree'⟩⟩
    · exact .inl (hsame.trans hsame')
    · exact .inr ⟨hsame.1 ▸ hlink', hfree'⟩
    · exact .inr ⟨hlink, by rw [hsame'.1, hfree]⟩
    · exact .inr ⟨hlink, hfree'⟩
  · have hlive' := h'.live j (hpos hj)
    rw [h.inum j hj] at hlive'
    exact hlive' (h.live j hj hlive)

theorem add (f : Multiset InodeIdx) : Moved k (m + f) k' (m' + f) := by
  have hpos {j : InodeIdx} (hj : 0 < (k.icache j).ref - (m + f).count j) : 0 < (k.icache j).ref - m.count j := by
    rw [count_add] at hj
    omega
  refine ⟨h.intact, h.still, h.nodes, fun j => ?_, fun j hj => h.inum j (hpos hj), fun j hj => h.valid j (hpos hj),
    fun j hj => h.live j (hpos hj)⟩
  have hspare := h.spare j
  rw [count_add, count_add]
  omega

theorem same (hj : 0 < (k.icache j).ref - m.count j)
    (hlive : (k.dinode (k.icache j).inum).type ≠ .free) : Same k k' (k.icache j).inum :=
  (h.nodes _).resolve_right fun hfree => h.live j hj hlive hfree.2

theorem same_of_live (hlive : (k'.dinode j).type ≠ .free) : Same k k' j :=
  (h.nodes j).resolve_right fun hfree => hlive hfree.2

theorem loaded (hi : Loaded k i) (hj : 0 < (k.icache i).ref - m.count i) : Loaded k' i := by
  refine ⟨?_, h.valid i hj hi.2⟩
  have hspare := h.spare i
  omega

theorem refers {inum : ℕ} (hi : Refers k i inum) (hj : 0 < (k.icache i).ref - m.count i) :
    Refers k' i inum := by
  refine ⟨?_, (h.inum i hj).trans hi.2⟩
  have hspare := h.spare i
  omega

end

/-- Only the cache differs. -/
theorem of_cache (hintact : Intact k') (houtside : outside k' = outside k) (hdinode : k'.dinode = k.dinode)
    (hblock : k'.block = k.block)
    (hspare : ∀ j, (k'.icache j).ref - m'.count j = (k.icache j).ref - m.count j)
    (hsteady : ∀ j, 0 < (k.icache j).ref - m.count j →
      (k'.icache j).inum = (k.icache j).inum ∧ ((k.icache j).valid = true → (k'.icache j).valid = true)) :
    Moved k m k' m' := by
  refine ⟨hintact, houtside, fun j => .inl (.of_disk hdinode hblock j), hspare, fun j hj => (hsteady j hj).1,
    fun j hj => (hsteady j hj).2, fun j _ hlive => ?_⟩
  rw [hdinode]
  exact hlive

theorem setInode {f : Inode → Inode} (hintact : Intact (k.setInode i f))
    (hinum : (f (k.icache i)).inum = (k.icache i).inum)
    (hvalid : (k.icache i).valid = true → (f (k.icache i)).valid = true)
    (href : (f (k.icache i)).ref - m'.count i = (k.icache i).ref - m.count i)
    (hm : ∀ j, j ≠ i → m'.count j = m.count j) : Moved k m (k.setInode i f) m' := by
  refine of_cache hintact rfl rfl rfl (fun j => ?_) fun j _ => ?_
  all_goals by_cases hji : j = i
  · subst hji
    rw [setInode_self]
    exact href
  · rw [setInode_of_ne hji, hm j hji]
  · subst hji
    rw [setInode_self]
    exact ⟨hinum, hvalid⟩
  · rw [setInode_of_ne hji]
    exact ⟨rfl, id⟩

theorem setLock (h : Intact k) (l : Option Slot) (m : Multiset InodeIdx) :
    Moved k m (k.setInode i fun ip => { ip with lock := l }) m :=
  setInode (h.setInode rfl id fun hr hv => h.sync i hr hv) rfl id rfl fun _ _ => rfl

theorem moreRef (h : Intact k) (hi : 0 < (k.icache i).ref) :
    Moved k 0 (k.setInode i fun ip => { ip with ref := ip.ref + 1 }) {i} := by
  refine setInode (h.setInode rfl (fun _ => hi) fun hr hv => h.sync i hr hv) rfl id ?_ fun j hj => ?_
  · simp
  · simp [hj]

theorem dropRef (h : Intact k) : Moved k {i} (k.setInode i fun ip => { ip with ref := ip.ref - 1 }) 0 := by
  refine setInode (h.setInode rfl (fun hr => ?_) fun hr hv => h.sync i hr hv) rfl id ?_ fun j hj => ?_
  · dsimp only at hr
    omega
  · simp
  · simp [hj]

end Moved

theorem iget_spec (h : Intact k) (inum : ℕ) :
    (iget inum).Wp Op.sem (Fine w) (fun i k' => Moved k 0 k' {i} ∧ Refers k' i inum ∧ k'.dinode = k.dinode) k := by
  refine wp_call trivial fun (i : InodeIdx) k' higet => ?_
  rcases FsOp.iget_eq_ok higet with ⟨hpos, hinum, rfl⟩ | ⟨hzero, hnone, rfl⟩
  · refine ⟨.moreRef h hpos, ?_⟩
    unfold Refers
    rw [setInode_self]
    exact ⟨⟨by dsimp only; omega, hinum⟩, rfl⟩
  · refine ⟨.of_cache (h.newEntry hnone) rfl rfl rfl (fun j => ?_) fun j hj => ?_, ?_⟩
    · rw [setInode_apply]
      split <;> simp_all
    · have hji : j ≠ i := by
        rintro rfl
        rw [hzero] at hj
        simp at hj
      rw [setInode_of_ne hji]
      exact ⟨rfl, id⟩
    · unfold Refers
      rw [setInode_self]
      exact ⟨⟨Int.one_pos, rfl⟩, rfl⟩

theorem idup_spec (h : Intact k) (hi : 0 < (k.icache i).ref) : (idup i).Wp Op.sem (Fine w)
    (fun j k' => j = i ∧ Moved k 0 k' {i} ∧ Refers k' i (k.icache i).inum ∧ k'.dinode = k.dinode) k := by
  refine wp_call_bind trivial fun _ k' hdup => wp_pure ?_
  cases hdup
  refine ⟨rfl, .moreRef h hi, ?_⟩
  unfold Refers
  rw [setInode_self]
  exact ⟨⟨by dsimp only; omega, rfl⟩, rfl⟩

theorem ilock_spec (h : Intact k)
    (hfine : w = .ilock → (k.icache i).valid = true ∨ (k.dinode (k.icache i).inum).type ≠ .free) :
    (ilock p i).Wp Op.sem (Fine w)
      (fun _ k' => Moved k 0 k' 0 ∧ Loaded k' i ∧ (k'.icache i).d = k.dinode (k.icache i).inum) k := by
  refine wp_call hfine fun _ k' hlock => ?_
  obtain ⟨href, -, ⟨hvalid, rfl⟩ | ⟨-, htype, rfl⟩⟩ := FsOp.ilock_eq_ok hlock
  · refine ⟨.setLock h _ 0, ?_⟩
    unfold Loaded
    rw [setInode_self]
    exact ⟨⟨href, hvalid⟩, (h.sync i href hvalid).1.symm⟩
  · have hintact : Intact (k.setInode i fun ip =>
        { ip with lock := some p, valid := true, d := k.dinode (k.icache i).inum }) :=
      h.setInode rfl id fun _ _ => ⟨rfl, htype⟩
    have hmoved : Moved k 0 (k.setInode i fun ip =>
        { ip with lock := some p, valid := true, d := k.dinode (k.icache i).inum }) 0 :=
      Moved.setInode hintact rfl (fun _ => rfl) rfl fun _ _ => rfl
    refine ⟨.of_cache (hintact.congr rfl rfl rfl rfl rfl) rfl rfl rfl hmoved.spare fun j hj =>
      ⟨hmoved.inum j hj, hmoved.valid j hj⟩, ?_⟩
    unfold Loaded copied
    dsimp only
    rw [setInode_self]
    exact ⟨⟨href, rfl⟩, rfl⟩

theorem iunlock_spec (h : Intact k) : (iunlock p i).Wp Op.sem (Fine w) (fun _ k' => Moved k 0 k' 0) k := by
  refine wp_call trivial fun _ k' hunlock => ?_
  rw [FsOp.iunlock_eq_ok hunlock]
  exact .setLock h none 0

theorem ifree_moved {k1 : Kernel} {u : Unit} (h : Intact k) (hi : Loaded k i) (hlink : (k.icache i).d.nlink = 0)
    (href : (k.icache i).ref = 1) (he : Edited k i 0 (fun _ => 0) k1) (houtside : outside k1 = outside k) (haddrs : (k1.icache i).d.addrs = fun _ => 0)
    (hfree : FsOp.ifree.sem i k1 = .ok (u, k')) : Moved k {i} k' {i} := by
  obtain ⟨addrs, hinode⟩ := he.inode
  have hinum : (k1.icache i).inum = (k.icache i).inum := by rw [hinode]
  obtain ⟨lh, copies, rfl⟩ := FsOp.ifree_eq_ok hfree
  have hsync : k.dinode (k.icache i).inum = (k.icache i).d := (h.sync i hi.1 hi.2).1
  have hloaded : Loaded k1 i := by
    unfold Loaded
    rw [hinode]
    exact hi
  have hsync1 := (he.intact.sync i hloaded.1 hloaded.2).1
  -- the freed inode names no block
  have howner : owner (update k1.dinode (k1.icache i).inum { (k1.icache i).d with type := .free }) k1.block =
      owner k1.dinode k1.block := by
    funext x
    by_cases hx : x.1 = (k1.icache i).inum
    · have hzero : (k1.dinode x.1).addr k1.block x.2 = 0 := by
        rw [hx, hsync1]
        cases x.2 <;> simp [Dinode.addr, haddrs]
      unfold owner
      rw [if_pos (.inl (by rw [hx, update_self])), if_pos (.inr hzero)]
    · refine owner_congr ?_ fun _ => ?_ <;> rw [update_of_ne hx]
  have hset : Intact (k1.setInode i fun ip => { ip with d := { ip.d with type := .free }, valid := false }) :=
    he.intact.setInode rfl id fun _ hv => by cases hv
  have hself := setInode_self k1 i fun ip => { ip with d := { ip.d with type := .free }, valid := false }
  have hne {j : InodeIdx} (hj : j ≠ i) :=
    setInode_of_ne hj k1 fun ip => { ip with d := { ip.d with type := .free }, valid := false }
  have hspare {j : InodeIdx} (hj : 0 < (k.icache j).ref - count j {i}) : j ≠ i ∧ 0 < (k.icache j).ref := by
    constructor
    · rintro rfl
      rw [href, count_singleton_self] at hj
      omega
    · omega
  refine ⟨⟨hset.unique, fun j hj hv => ?_, ?_, fun j hj => ?_, hset.size⟩, houtside, fun j => ?_, fun j => ?_, fun j hj => ?_,
    fun j hj hv => ?_, fun j hj hlive => ?_⟩
  all_goals dsimp only at *
  · have hji : j ≠ i := by
      rintro rfl
      rw [hself] at hv
      cases hv
    rw [hne hji] at hj hv ⊢
    rw [update_of_ne fun heq => hji (he.intact.unique j i hj hloaded.1 heq)]
    exact he.intact.sync j hj hv
  · have hledger := he.intact.ledger
    rw [← howner] at hledger
    exact hledger
  · by_cases hji : j = (k1.icache i).inum
    · rw [hji, update_self] at hj
      exact (hj rfl).elim
    · rw [update_of_ne hji] at hj ⊢
      exact he.intact.whole j hj
  · by_cases hji : j = (k.icache i).inum
    · refine .inr ⟨?_, ?_⟩
      · rw [hji, hsync]
        exact hlink
      · rw [hji, hinum, update_self]
    · refine Or.inl ⟨?_, he.rest j hji⟩
      rw [hinum]
      exact (update_of_ne hji ..).trans (he.dinode j hji)
  · by_cases hji : j = i
    · rw [hji, hself, hinode]
    · rw [hne hji, he.other j hji]
  · rw [hne (hspare hj).1, he.other j (hspare hj).1]
  · rw [hne (hspare hj).1, he.other j (hspare hj).1]
    exact hv
  · have hinumne : (k.icache j).inum ≠ (k.icache i).inum :=
      fun heq => (hspare hj).1 (h.unique j i (hspare hj).2 hi.1 heq)
    rw [hinum, update_of_ne hinumne, he.dinode _ hinumne]
    exact hlive

theorem iput_spec (h : Intact k) (hi : 0 < (k.icache i).ref) :
    (iput p i).Wp Op.sem (Fine w) (fun _ k' => Moved k {i} k' 0) k := by
  refine wp_call_bind trivial fun _ k1 hacquire => ?_
  obtain ⟨-, rfl⟩ := FsOp.acquiresleep_eq_ok hacquire
  have h1 : Moved k {i} (k.setInode i fun ip => { ip with lock := some p }) {i} := .setLock h _ {i}
  have hpos : 0 < ((k.setInode i fun ip => { ip with lock := some p }).icache i).ref := by
    rw [setInode_self]
    exact hi
  generalize (k.setInode i fun ip => { ip with lock := some p }) = k1 at h1 hpos
  have hfree : (iputFree i).Wp Op.sem (Fine w) (fun _ k2 => Moved k1 {i} k2 {i}) k1 := by
    refine wp_call_bind trivial fun (ip : Inode) k2 hip => ?_
    cases hip
    refine wp_ite (fun hunlinked => ?_) fun _ => wp_pure (.refl h1.intact _)
    refine wp_call_bind trivial fun (r : ℤ) k2 href => ?_
    cases href
    refine wp_ite (fun hone => ?_) fun _ => wp_pure (.refl h1.intact _)
    have hloaded : Loaded k1 i := ⟨hpos, hunlinked.1⟩
    refine (itrunc_spec h1.intact hloaded).and_run.bind fun _ k2 ⟨⟨he, haddrs⟩, hrun⟩ => wp_call trivial fun _ k3 hifree => ?_
    have houtside := core_fixes outside_blind (core_of_contents (itrunc_contents i)) k1 _ k2 hrun
    exact ifree_moved h1.intact hloaded hunlinked.2 hone he houtside haddrs hifree
  refine hfree.bind fun _ k2 h2 => wp_call_bind trivial fun _ k3 hrelease => wp_call trivial fun _ k4 hdrop => ?_
  cases hrelease
  cases hdrop
  have h3 := Moved.setLock (i := i) h2.intact none {i}
  exact h1.trans (h2.trans (h3.trans (.dropRef h3.intact)))

theorem iunlockput_spec (h : Intact k) (hi : 0 < (k.icache i).ref) :
    (iunlockput p i).Wp Op.sem (Fine w) (fun _ k' => Moved k {i} k' 0) k := by
  refine (iunlock_spec h).bind fun _ k1 h1 => ?_
  have hpos : 0 < (k1.icache i).ref := by
    have hspare := h1.spare i
    simp only [count_zero] at hspare
    omega
  exact (iput_spec h1.intact hpos).mono fun _ k2 h2 => (h1.add {i}).trans (by simpa using h2)

end Fs
end Xv6
