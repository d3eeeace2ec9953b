import Xv6.Tx.Budget

/-! # Locks and references of a transaction -/
namespace Xv6.Tx
open Prog Kernel FsOp Multiset

variable {p : Slot} {A : Others p} {sb : Superblock} {K : Finset Word} {n : ℕ} {s t u : Pt} {i : InodeIdx}

/-- All but the lock of entry `i` is as in `Kept`. -/
structure Loosed (p : Slot) (R : Multiset InodeIdx) (i : InodeIdx) (s t : Pt) : Prop where
  locks : ∀ j inum, j ≠ i → Locks p s j inum → Locks p t j inum
  named : ∀ j ∈ R, (entry t j).inum = (entry s j).inum

variable {R R' : Multiset InodeIdx}

theorem Kept.loosed (h : Kept p R s t) (i : InodeIdx) : Loosed p R i s t := ⟨fun j inum _ => h.locks j inum, h.named⟩

theorem Loosed.trans (h : Loosed p R i s t) (h' : Loosed p R i t u) : Loosed p R i s u :=
  ⟨fun j inum hj hl => h'.locks j inum hj (h.locks j inum hj hl), fun j hj => (h'.named j hj).trans (h.named j hj)⟩

theorem Loosed.mono (h : Loosed p R i s t) (hR : R' ⊆ R) : Loosed p R' i s t := ⟨h.locks, fun j hj => h.named j (hR hj)⟩

theorem Loosed.kept (h : Loosed p R i s t) (hi : Locks p t i (entry s i).inum) : Kept p R s t := by
  refine ⟨fun j inum hj => ?_, h.named⟩
  by_cases hji : j = i
  · subst hji
    rw [← hj.inum]
    exact hi
  · exact h.locks j inum hji hj

theorem Kept.of_loosed (h : Kept p R s t) (hne : ∀ j, (entry s j).lock = some p → j ≠ i) (h' : Loosed p R i t u) : Kept p R s u :=
  ⟨fun j inum hj => h'.locks j inum (hne j hj.lock) (h.locks j inum hj), fun j hj => (h'.named j hj).trans (h.named j hj)⟩

/-- The lock of entry `i` may have been given up for a while. -/
structure Relocked (p : Slot) (i : InodeIdx) (s t : Pt) : Prop where
  loosed : Loosed p s.notes.refs i s t
  kept : i ∈ s.notes.refs → Kept p s.notes.refs s t
  refs : t.notes.refs = s.notes.refs

theorem Tight.relocked (h : Tight p s t) (i : InodeIdx) : Relocked p i s t := ⟨h.kept.loosed i, fun _ => h.kept, h.refs⟩

theorem Relocked.trans (h : Relocked p i s t) (h' : Relocked p i t u) : Relocked p i s u := by
  obtain ⟨hloosed, hkept, hrefs⟩ := h'
  rw [h.refs] at hloosed hkept hrefs
  exact ⟨h.loosed.trans hloosed, fun hi => (h.kept hi).trans (hkept hi), hrefs⟩

theorem seen_locks (h : Locks p s i inum) :
    ((seen A s).icache i).lock = some p ∧ ((seen A s).icache i).inum = inum ∧ 0 < ((seen A s).icache i).ref := by
  obtain ⟨r, hr, hpos⟩ := (A.respects s.time s.notes s.state).entry i h.lock
  rw [seen, hr]
  exact ⟨h.lock, h.inum, hpos h.ref⟩

theorem ne_of_seen_none (hnone : ((seen A s).icache i).lock = none) (hj : (entry s j).lock = some p) : j ≠ i := by
  rintro rfl
  obtain ⟨r, hr, -⟩ := (A.respects s.time s.notes s.state).entry j hj
  rw [seen, hr] at hnone
  exact absurd (hj.symm.trans hnone) (by simp)

theorem refs_after (ho : sem A o s = .ok (b, t)) : t.notes.refs = Work.refsAfter s.notes.refs o b := by
  rw [(sem_eq_ok ho).2]
  rfl

variable {o : FsOp} {x : Unit}

theorem Budget.cache {b : o.Ans} (h : Budget sb K n s) (ho : sem A (.fs o) s = .ok (b, t))
    (hlogged : o.logged (seen A s) = none) (hsb : t.state.sb = (seen A s).sb) (hbitmap : t.state.bitmap = (seen A s).bitmap)
    (hcount : ∀ i ∈ t.notes.refs, (t.notes.refs.count i : ℤ) ≤ (entry t i).ref) : Budget sb K n t := by
  refine h.next ho hsb (fun hone => hone.congr hsb hbitmap) hcount fun w hw => ?_
  rcases Work.mem_passedAfter.mp hw with hlog | hw
  · rw [hlogged] at hlog
    cases hlog
  · exact Finset.mem_union_left _ hw

section
variable (hs : Budget sb K n s)
include hs

theorem store_turn (ho : sem A (.fs (.store i v)) s = .ok (x, t)) :
    Budget sb K n t ∧ Tight p s t ∧ ((entry s i).lock = some p → (entry t i).d = v.apply (entry s i).d) := by
  obtain ⟨copies, hk⟩ := store_eq_ok (sem_eq_ok ho).1
  have htag (j : InodeIdx) : (entry t j).tag = ((seen A s).icache j).tag := by
    rw [entry, hk]
    dsimp only
    rw [setInode_apply]
    split
    case isTrue hj =>
      subst hj
      rfl
    case isFalse => rfl
  refine ⟨hs.cache ho rfl (by rw [hk]; rfl) (by rw [hk]; rfl) (hs.count_of_icache ho rfl fun j => ?_),
    tight_of_tags ho rfl htag, fun hi => ?_⟩
  · exact congrArg (fun g => g.2.1) (htag j)
  · rw [entry, hk]
    dsimp only
    rw [setInode_self, (seen_inum hi).2]

theorem ifree_turn (hi : (entry s i).lock = some p) (hpaid : sb.iblock (entry s i).inum ∈ K)
    (ho : sem A (.fs (.ifree i)) s = .ok (x, t)) : Budget sb K n t ∧ Tight p s t := by
  obtain ⟨lh, copies, hk⟩ := ifree_eq_ok (sem_eq_ok ho).1
  have htag (j : InodeIdx) : (entry t j).tag = ((seen A s).icache j).tag := by
    rw [entry, hk]
    dsimp only
    rw [setInode_apply]
    split
    case isTrue hj =>
      subst hj
      rfl
    case isFalse => rfl
  refine ⟨hs.next ho (by rw [hk]; rfl) (fun hone => ?_) (hs.count_of_icache ho rfl fun j => ?_) (fun w hw => ?_),
    tight_of_tags ho rfl htag⟩
  · rw [hk]
    exact hone.congr rfl rfl
  · exact congrArg (fun g => g.2.1) (htag j)
  · rcases Work.mem_passedAfter.mp hw with hlog | hw
    · refine Finset.mem_union_right _ ?_
      rw [← Option.some.inj hlog, (seen_inum hi).1]
      rw [← (hs.seen_map (A := A)).1] at hpaid
      exact hpaid
    · exact Finset.mem_union_left _ hw

/-- One more reference to an entry, which is not recycled while it is held or locked. -/
theorem moreRef {b : o.Ans} {f : Inode → Inode} (ho : sem A (.fs o) s = .ok (b, t))
    (hlogged : o.logged (seen A s) = none) (hk : t.state = (seen A s).setInode i f) (hrefs : t.notes.refs = i ::ₘ s.notes.refs)
    (hlock : (f ((seen A s).icache i)).lock = ((seen A s).icache i).lock)
    (href : (f ((seen A s).icache i)).ref = ((seen A s).icache i).ref + 1)
    (hinum : 0 < ((seen A s).icache i).ref → (f ((seen A s).icache i)).inum = ((seen A s).icache i).inum)
    (hzero : 0 ≤ ((seen A s).icache i).ref) : Budget sb K n t ∧ Kept p s.notes.refs s t := by
  have hself : entry t i = f ((seen A s).icache i) := by rw [entry, hk, setInode_self]
  have hother (j : InodeIdx) (hj : j ≠ i) : entry t j = (seen A s).icache j := by rw [entry, hk, setInode_of_ne hj]
  have hcount (j : InodeIdx) (hj : j ∈ s.notes.refs) : 0 < ((seen A s).icache j).ref := by
    have hle := hs.seen_count (A := A) hj
    have hone := one_le_count_iff_mem.mpr hj
    omega
  refine ⟨hs.cache ho hlogged (by rw [hk]; rfl) (by rw [hk]; rfl) fun j hj => ?_, fun j inum hj => ?_, fun j hj => ?_⟩
  all_goals by_cases hji : j = i
  · subst hji
    rw [hself, hrefs, count_cons_self, href]
    by_cases hmem : j ∈ s.notes.refs
    · have hle := hs.seen_count (A := A) hmem
      push_cast
      omega
    · rw [count_eq_zero_of_notMem hmem]
      push_cast
      omega
  · rw [hrefs] at hj ⊢
    rw [hother j hji, count_cons_of_ne hji]
    exact hs.seen_count ((mem_cons.mp hj).resolve_left hji)
  · subst hji
    obtain ⟨hl, hn, hr⟩ := seen_locks (A := A) hj
    rw [← hn]
    refine ⟨?_, ?_, ?_⟩ <;> rw [hself]
    · exact hlock.trans hl
    · exact hinum hr
    · omega
  · obtain ⟨hl, hn, hr⟩ := seen_locks (A := A) hj
    refine ⟨?_, ?_, ?_⟩ <;> rw [hother j hji]
    · exact hl
    · exact hn
    · exact hr
  · subst hji
    rw [hself, hinum (hcount j hj)]
    exact (A.respects ..).named j hj
  · rw [hother j hji]
    exact (A.respects ..).named j hj

theorem iget_turn (ho : sem A (.fs (.iget inum)) s = .ok (i, t)) :
    Budget sb K n t ∧ Kept p s.notes.refs s t ∧ t.notes.refs = i ::ₘ s.notes.refs ∧ (entry t i).inum = inum := by
  have hrefs : t.notes.refs = i ::ₘ s.notes.refs := refs_after ho
  rcases iget_eq_ok (sem_eq_ok ho).1 with ⟨hpos, hinum, hk⟩ | ⟨hzero, -, hk⟩
  · obtain ⟨hb, hkept⟩ := moreRef hs ho rfl hk hrefs rfl rfl (fun _ => rfl) (by omega)
    refine ⟨hb, hkept, hrefs, ?_⟩
    rw [entry, hk, setInode_self]
    exact hinum
  · obtain ⟨hb, hkept⟩ := moreRef hs ho rfl hk hrefs rfl (by rw [hzero]; rfl) (fun h => by omega) (by omega)
    refine ⟨hb, hkept, hrefs, ?_⟩
    rw [entry, hk, setInode_self]

theorem idup_turn (hi : i ∈ s.notes.refs) (ho : sem A (.fs (.idup i)) s = .ok (x, t)) :
    Budget sb K n t ∧ Kept p s.notes.refs s t ∧ t.notes.refs = i ::ₘ s.notes.refs := by
  have hrefs : t.notes.refs = i ::ₘ s.notes.refs := refs_after ho
  have hk : t.state = (seen A s).setInode i fun ip => { ip with ref := ip.ref + 1 } := by
    have hsem := (sem_eq_ok ho).1
    exact (congrArg Prod.snd (Except.ok.inj hsem)).symm
  have hle := hs.seen_count (A := A) hi
  obtain ⟨hb, hkept⟩ := moreRef hs ho rfl hk hrefs rfl rfl (fun _ => rfl) (by omega)
  exact ⟨hb, hkept, hrefs⟩

theorem takeLock {b : o.Ans} (ho : sem A (.fs o) s = .ok (b, t))
    (hlogged : o.logged (seen A s) = none) (hnone : ((seen A s).icache i).lock = none)
    (hsb : t.state.sb = (seen A s).sb) (hbitmap : t.state.bitmap = (seen A s).bitmap)
    (hother : ∀ j, j ≠ i → entry t j = (seen A s).icache j) (hrefs : t.notes.refs = s.notes.refs)
    (hinum : (entry t i).inum = ((seen A s).icache i).inum) (href : (entry t i).ref = ((seen A s).icache i).ref) :
    Budget sb K n t ∧ Kept p s.notes.refs s t ∧ (∀ j, (entry s j).lock = some p → j ≠ i ∧ (entry t j).d = (entry s j).d) ∧
      (i ∈ s.notes.refs → (entry t i).inum = (entry s i).inum) := by
  have hne (j : InodeIdx) (hj : (entry s j).lock = some p) : j ≠ i := ne_of_seen_none hnone hj
  have hnamed (j : InodeIdx) (hj : j ∈ s.notes.refs) : (entry t j).inum = (entry s j).inum := by
    by_cases hji : j = i
    · subst hji
      rw [hinum]
      exact (A.respects ..).named j hj
    · rw [hother j hji]
      exact (A.respects ..).named j hj
  refine ⟨hs.cache ho hlogged hsb hbitmap fun j hj => ?_, ⟨fun j inum hj => ?_, hnamed⟩,
    fun j hj => ⟨hne j hj, ?_⟩, hnamed i⟩
  · rw [hrefs] at hj ⊢
    by_cases hji : j = i
    · subst hji
      rw [href]
      exact hs.seen_count hj
    · rw [hother j hji]
      exact hs.seen_count hj
  · obtain ⟨hl, hn, hr⟩ := seen_locks (A := A) hj
    refine ⟨?_, ?_, ?_⟩ <;> rw [hother j (hne j hj.lock)]
    · exact hl
    · exact hn
    · exact hr
  · rw [hother j (hne j hj), (seen_inum hj).2]

theorem ilock_turn (ho : sem A (.fs (.ilock p i)) s = .ok (x, t)) :
    Budget sb K n t ∧ Kept p s.notes.refs s t ∧ t.notes.refs = s.notes.refs ∧ Locks p t i (entry t i).inum ∧
      (∀ j, (entry s j).lock = some p → j ≠ i ∧ (entry t j).d = (entry s j).d) ∧
      (i ∈ s.notes.refs → (entry t i).inum = (entry s i).inum) := by
  have hrefs : t.notes.refs = s.notes.refs := refs_after ho
  obtain ⟨hpos, hnone, hcase⟩ := ilock_eq_ok (sem_eq_ok ho).1
  have hk : t.state.sb = (seen A s).sb ∧ t.state.bitmap = (seen A s).bitmap ∧
      (∀ j, j ≠ i → entry t j = (seen A s).icache j) ∧ (entry t i).inum = ((seen A s).icache i).inum ∧
      (entry t i).ref = ((seen A s).icache i).ref ∧ (entry t i).lock = some p := by
    unfold entry
    rcases hcase with ⟨-, hk⟩ | ⟨-, -, hk⟩
    · rw [hk, setInode_self]
      exact ⟨rfl, rfl, fun j hj => setInode_of_ne hj .., rfl, rfl, rfl⟩
    · rw [hk]
      unfold copied
      dsimp only
      rw [setInode_self]
      refine ⟨rfl, rfl, fun j hj => ?_, rfl, rfl, rfl⟩
      rw [setInode_of_ne hj]
  obtain ⟨hsb, hbitmap, hother, hinum, href, hlock⟩ := hk
  obtain ⟨hb, hkept, hne, hnamed⟩ := takeLock hs ho rfl hnone hsb hbitmap hother hrefs hinum href
  exact ⟨hb, hkept, hrefs, ⟨hlock, rfl, by omega⟩, hne, hnamed⟩

theorem acquiresleep_turn (ho : sem A (.fs (.acquiresleep p i)) s = .ok (x, t)) :
    Budget sb K n t ∧ Kept p s.notes.refs s t ∧ t.notes.refs = s.notes.refs ∧ (entry t i).lock = some p ∧
      (∀ j, (entry s j).lock = some p → j ≠ i) ∧ (i ∈ s.notes.refs → (entry t i).inum = (entry s i).inum) := by
  have hrefs : t.notes.refs = s.notes.refs := refs_after ho
  obtain ⟨hnone, hk⟩ := acquiresleep_eq_ok (sem_eq_ok ho).1
  have hself : entry t i = { (seen A s).icache i with lock := some p } := by rw [entry, hk, setInode_self]
  obtain ⟨hb, hkept, hne, hnamed⟩ := takeLock hs ho rfl hnone (by rw [hk]; rfl) (by rw [hk]; rfl)
    (fun j hj => by rw [entry, hk, setInode_of_ne hj]) hrefs (by rw [hself]) (by rw [hself])
  exact ⟨hb, hkept, hrefs, by rw [hself], fun j hj => (hne j hj).1, hnamed⟩

theorem giveLock {b : o.Ans} (ho : sem A (.fs o) s = .ok (b, t))
    (hlogged : o.logged (seen A s) = none) (hrefs : Work.refsAfter s.notes.refs (.fs o) b = s.notes.refs)
    (hk : t.state = (seen A s).setInode i fun ip => { ip with lock := none }) :
    Budget sb K n t ∧ Loosed p s.notes.refs i s t ∧ t.notes.refs = s.notes.refs ∧ (entry t i).lock = none ∧
      ∀ j, (entry t j).lock = some p → (entry s j).lock = some p := by
  have hself : entry t i = { (seen A s).icache i with lock := none } := by rw [entry, hk, setInode_self]
  have hother (j : InodeIdx) (hj : j ≠ i) : entry t j = (seen A s).icache j := by rw [entry, hk, setInode_of_ne hj]
  have hnotes : t.notes.refs = s.notes.refs := (refs_after ho).trans hrefs
  refine ⟨hs.cache ho hlogged (by rw [hk]; rfl) (by rw [hk]; rfl) (hs.count_of_icache ho hrefs fun j => ?_),
    ⟨fun j inum hj hl => ?_, fun j hj => ?_⟩, hnotes, by rw [hself], fun j hj => ?_⟩
  · by_cases hji : j = i
    · subst hji
      rw [hself]
    · rw [hother j hji]
  · obtain ⟨hl, hn, hr⟩ := seen_locks (A := A) hl
    refine ⟨?_, ?_, ?_⟩ <;> rw [hother j hj]
    · exact hl
    · exact hn
    · exact hr
  · by_cases hji : j = i
    · subst hji
      rw [hself]
      exact (A.respects ..).named j hj
    · rw [hother j hji]
      exact (A.respects ..).named j hj
  · by_cases hji : j = i
    · subst hji
      rw [hself] at hj
      cases hj
    · rw [hother j hji] at hj
      exact (A.respects ..).unlock j hj

theorem iunlock_turn (ho : sem A (.fs (.iunlock p i)) s = .ok (x, t)) :
    Budget sb K n t ∧ Loosed p s.notes.refs i s t ∧ t.notes.refs = s.notes.refs ∧ (entry t i).lock = none ∧
      ∀ j, (entry t j).lock = some p → (entry s j).lock = some p :=
  giveLock hs ho rfl rfl (iunlock_eq_ok (sem_eq_ok ho).1)

end

/-- Only the process that has locked an entry unlocks it. -/
theorem iunlock_lock (ho : sem A (.fs (.iunlock p i)) s = .ok (x, t)) : (entry s i).lock = some p :=
  (A.respects ..).unlock i (iunlock_locked (sem_eq_ok ho).1)

theorem releasesleep_turn (hs : Budget sb K n s) (ho : sem A (.fs (.releasesleep i)) s = .ok (x, t)) :
    Budget sb K n t ∧ Loosed p s.notes.refs i s t ∧ t.notes.refs = s.notes.refs ∧ (entry t i).lock = none ∧
      ∀ j, (entry t j).lock = some p → (entry s j).lock = some p := by
  refine giveLock hs ho rfl rfl ?_
  have hsem := (sem_eq_ok ho).1
  exact (congrArg Prod.snd (Except.ok.inj hsem)).symm

theorem dropRef_turn (hs : Budget sb K n s) (hi : (entry s i).lock ≠ some p)
    (ho : sem A (.fs (.dropRef i)) s = .ok (x, t)) :
    Budget sb K n t ∧ Kept p s.notes.refs s t ∧ t.notes.refs = s.notes.refs.erase i := by
  have hrefs : t.notes.refs = s.notes.refs.erase i := refs_after ho
  have hk : t.state = (seen A s).setInode i fun ip => { ip with ref := ip.ref - 1 } := by
    have hsem := (sem_eq_ok ho).1
    exact (congrArg Prod.snd (Except.ok.inj hsem)).symm
  have hself : entry t i = { (seen A s).icache i with ref := ((seen A s).icache i).ref - 1 } := by
    rw [entry, hk, setInode_self]
  have hother (j : InodeIdx) (hj : j ≠ i) : entry t j = (seen A s).icache j := by rw [entry, hk, setInode_of_ne hj]
  refine ⟨hs.cache ho rfl (by rw [hk]; rfl) (by rw [hk]; rfl) fun j hj => ?_, ⟨fun j inum hj => ?_, fun j hj => ?_⟩, hrefs⟩
  · rw [hrefs] at hj ⊢
    have hle := hs.seen_count (A := A) (mem_of_mem_erase hj)
    by_cases hji : j = i
    · subst hji
      rw [hself, count_erase_self]
      have hone := one_le_count_iff_mem.mpr (mem_of_mem_erase hj)
      push_cast [hone]
      omega
    · rw [hother j hji, count_erase_of_ne hji]
      exact hle
  · have hji : j ≠ i := by
      rintro rfl
      exact hi hj.lock
    obtain ⟨hl, hn, hr⟩ := seen_locks (A := A) hj
    refine ⟨?_, ?_, ?_⟩ <;> rw [hother j hji]
    · exact hl
    · exact hn
    · exact hr
  · by_cases hji : j = i
    · subst hji
      rw [hself]
      exact (A.respects ..).named j hj
    · rw [hother j hji]
      exact (A.respects ..).named j hj

theorem beginOp_turn (hs : Budget sb K n s) (hpaid : sb.mapBlock ∈ K')
    (hcard : K'.card + m ≤ MAXOPBLOCKS) (ho : sem A (.log .beginOp) s = .ok (x, t)) : Budget sb K' m t ∧ Still p s t := by
  have hview := LogOp.sem_fixes (f := view) (fun _ _ => rfl) .beginOp _ _ _ (sem_eq_ok ho).1
  simp only [view, Prod.mk.injEq] at hview
  obtain ⟨hicache, hsb, hbitmap⟩ := hview
  obtain ⟨hdisk, hone⟩ := hs.seen_map (A := A)
  refine ⟨⟨hsb.trans hdisk, hone.congr hsb hbitmap,
    hs.count_of_icache ho rfl fun i => by rw [entry, hicache], hpaid, ?_⟩, still_of_icache ho rfl hicache⟩
  have hpassed : t.notes.passed = ∅ := by
    rw [(sem_eq_ok ho).2]
    rfl
  rw [hpassed, Finset.empty_union]
  exact hcard

end Xv6.Tx
