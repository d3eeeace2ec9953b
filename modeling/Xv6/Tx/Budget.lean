import Xv6.Tx.Passed

/-! # Blocks that are paid for

A transaction may pass `MAXOPBLOCKS` blocks. Its code is checked with a budget: a block that
has been paid for may be passed any number of times. What the process has locked, and the
inodes to which it holds references, do not change under it, so that a block which was paid
for as the block of an inode is still that later on.
-/
namespace Xv6
open Function FsOp Finset

/-- The free map fills one block, in which the boot block is marked. -/
structure OneMapBlock (k : Kernel) : Prop where
  size : k.sb.size ≤ BPB
  bits : ∀ b, k.bitmap b = true → b < BPB
  boot : k.bitmap 0 = true

theorem OneMapBlock.congr (h : OneMapBlock k) (hsb : k'.sb = k.sb) (hbitmap : k'.bitmap = k.bitmap) :
    OneMapBlock k' := ⟨hsb ▸ h.size, hbitmap ▸ h.bits, hbitmap ▸ h.boot⟩

/-- What the other processes may do while `p` holds the references `refs`. An entry that `p`
has locked may only get and lose references. -/
structure Respects (p : Slot) (refs : Multiset InodeIdx) (k k' : Kernel) : Prop where
  sb : k'.sb = k.sb
  map : OneMapBlock k → OneMapBlock k'
  cwd : (k'.pt.proc p).cwd = (k.pt.proc p).cwd
  named : ∀ i ∈ refs, (k'.icache i).inum = (k.icache i).inum
  count : ∀ i ∈ refs, (refs.count i : ℤ) ≤ (k.icache i).ref → (refs.count i : ℤ) ≤ (k'.icache i).ref
  entry : ∀ i, (k.icache i).lock = some p →
    ∃ r, k'.icache i = { k.icache i with ref := r } ∧ (0 < (k.icache i).ref → 0 < r)
  unlock : ∀ i, (k'.icache i).lock = some p → (k.icache i).lock = some p

/-- The other processes: what they do before each operation of `p`. -/
structure Others (p : Slot) where
  act : ℕ → Work → Kernel → Kernel
  respects : ∀ n g k, Respects p g.refs k (act n g k)

def Others.none (p : Slot) : Others p where
  act _ _ k := k
  respects _ _ _ := ⟨rfl, id, rfl, fun _ _ => rfl, fun _ _ => id, fun _ _ => ⟨_, rfl, id⟩, fun _ => id⟩

def Superblock.iblock (sb : Superblock) (inum : ℕ) : Word := BitVec.ofNat 32 (inum / IPB + sb.inodestart)

def Superblock.mapBlock (sb : Superblock) : Word := BitVec.ofNat 32 sb.bmapstart

theorem Kernel.bblock_eq {k : Kernel} (h : b < BPB) : k.bblock b = k.sb.mapBlock := by
  rw [bblock, Nat.div_eq_of_lt h, Nat.zero_add]
  rfl

namespace Tx
open Prog
open KProg hiding panic

abbrev Pt := Point Kernel Work

variable {α β : Type} {p : Slot} {A : Others p} {sb : Superblock} {K : Finset Word} {n : ℕ} {s t u : Pt} {i : InodeIdx}

def entry (s : Pt) (i : InodeIdx) : Inode := s.state.icache i

/-- The state that the next operation finds. -/
def seen (A : Others p) (s : Pt) : Kernel := A.act s.time s.notes s.state

def sem (A : Others p) : (o : Op) → Comp Pt o.Ans := amid Op.sem Work.note A.act

variable {o : Op} {v : Unit}

theorem sem_eq_ok (h : sem A o s = .ok (b, t)) :
    o.sem (seen A s) = .ok (b, t.state) ∧ t.notes = s.notes.note (seen A s) o b := amid_eq_ok h

/-- The process has locked the entry, which is for inode `inum` and has references. -/
structure Locks (p : Slot) (s : Pt) (i : InodeIdx) (inum : ℕ) : Prop where
  lock : (entry s i).lock = some p
  inum : (entry s i).inum = inum
  ref : 0 < (entry s i).ref

/-- What is locked stays locked, and the entries of `R` stay entries for the same inodes. -/
structure Kept (p : Slot) (R : Multiset InodeIdx) (s t : Pt) : Prop where
  locks : ∀ i inum, Locks p s i inum → Locks p t i inum
  named : ∀ i ∈ R, (entry t i).inum = (entry s i).inum

/-- No lock and no reference is taken or given back. -/
structure Tight (p : Slot) (s t : Pt) : Prop where
  refs : t.notes.refs = s.notes.refs
  named : ∀ i ∈ s.notes.refs, (entry t i).inum = (entry s i).inum
  grip : ∀ i, (entry s i).lock = some p →
    (entry t i).lock = some p ∧ (entry t i).inum = (entry s i).inum ∧ (0 < (entry s i).ref → 0 < (entry t i).ref)
  unlock : ∀ i, (entry t i).lock = some p → (entry s i).lock = some p

/-- The inodes that are locked hold what they held. -/
structure Still (p : Slot) (s t : Pt) : Prop extends Tight p s t where
  same : ∀ i, (entry s i).lock = some p → (entry t i).d = (entry s i).d

namespace Kept

theorem trans (h : Kept p R s t) (h' : Kept p R t u) : Kept p R s u :=
  ⟨fun i inum hi => h'.locks i inum (h.locks i inum hi), fun i hi => (h'.named i hi).trans (h.named i hi)⟩

theorem mono (h : Kept p R s t) (hR : R' ⊆ R) : Kept p R' s t := ⟨h.locks, fun i hi => h.named i (hR hi)⟩

end Kept

namespace Tight

theorem refl : Tight p s s := ⟨rfl, fun _ _ => rfl, fun _ h => ⟨h, rfl, id⟩, fun _ => id⟩

theorem trans (h : Tight p s t) (h' : Tight p t u) : Tight p s u := by
  refine ⟨h'.refs.trans h.refs, fun i hi => ?_, fun i hi => ?_, fun i hi => h.unlock i (h'.unlock i hi)⟩
  · exact (h'.named i (h.refs ▸ hi)).trans (h.named i hi)
  · obtain ⟨hl, hn, hr⟩ := h.grip i hi
    obtain ⟨hl', hn', hr'⟩ := h'.grip i hl
    exact ⟨hl', hn'.trans hn, fun hpos => hr' (hr hpos)⟩

theorem kept (h : Tight p s t) : Kept p s.notes.refs s t := by
  refine ⟨fun i inum hi => ?_, h.named⟩
  obtain ⟨hl, hn, hr⟩ := h.grip i hi.lock
  exact ⟨hl, hn.trans hi.inum, hr hi.ref⟩

end Tight

namespace Still

theorem refl : Still p s s := ⟨Tight.refl, fun _ _ => rfl⟩

theorem trans (h : Still p s t) (h' : Still p t u) : Still p s u := by
  refine ⟨h.toTight.trans h'.toTight, fun i hi => ?_⟩
  exact (h'.same i (h.grip i hi).1).trans (h.same i hi)

end Still

/-- The blocks that have been passed, those in `K` and `n` more are within the limit. -/
structure Budget (sb : Superblock) (K : Finset Word) (n : ℕ) (s : Pt) : Prop where
  disk : s.state.sb = sb
  map : OneMapBlock s.state
  count : ∀ i ∈ s.notes.refs, (s.notes.refs.count i : ℤ) ≤ (entry s i).ref
  paid : sb.mapBlock ∈ K
  within : (s.notes.passed ∪ K).card + n ≤ MAXOPBLOCKS

def Fits (s : Pt) : Prop := s.notes.passed.card ≤ MAXOPBLOCKS

namespace Budget

theorem fits (h : Budget sb K n s) : Fits s := by
  have hsub : s.notes.passed ⊆ s.notes.passed ∪ K := subset_union_left
  have hle := card_le_card hsub
  have hwithin := h.within
  unfold Fits
  omega

theorem mono (h : Budget sb K n s) (hm : m ≤ n) : Budget sb K m s :=
  { h with within := (Nat.add_le_add_left hm _).trans h.within }

theorem sub (h : Budget sb K' n s) (hpaid : sb.mapBlock ∈ K) (hK : K ⊆ K') : Budget sb K n s := by
  refine { h with paid := hpaid, within := ?_ }
  have hcard := card_le_card (union_subset_union_right (s := s.notes.passed) hK)
  have hwithin := h.within
  omega

theorem pay (h : Budget sb K (n + 1) s) (b : Word) : Budget sb (insert b K) n s := by
  refine { h with paid := mem_insert_of_mem h.paid, within := ?_ }
  have hcard : (s.notes.passed ∪ insert b K).card ≤ (s.notes.passed ∪ K).card + 1 := by
    rw [union_insert]
    exact card_insert_le ..
  have hwithin := h.within
  omega

theorem seen_map (h : Budget sb K n s) : (seen A s).sb = sb ∧ OneMapBlock (seen A s) :=
  ⟨((A.respects ..).sb).trans h.disk, (A.respects ..).map h.map⟩

theorem seen_count (h : Budget sb K n s) (hi : i ∈ s.notes.refs) :
    (s.notes.refs.count i : ℤ) ≤ ((seen A s).icache i).ref := (A.respects ..).count i hi (h.count i hi)

/-- An operation that keeps the counts of references and passes only what is paid for. -/
theorem next (h : Budget sb K n s) (ho : sem A o s = .ok (b, t))
    (hsb : t.state.sb = (seen A s).sb) (hmap : OneMapBlock (seen A s) → OneMapBlock t.state)
    (hcount : ∀ i ∈ t.notes.refs, (t.notes.refs.count i : ℤ) ≤ (entry t i).ref)
    (hpassed : ∀ w ∈ Work.passedAfter s.notes.passed (seen A s) o, w ∈ s.notes.passed ∪ K) : Budget sb K n t := by
  obtain ⟨hseen, hone⟩ := h.seen_map (A := A)
  refine ⟨hsb.trans hseen, hmap hone, hcount, h.paid, ?_⟩
  have hsub : t.notes.passed ∪ K ⊆ s.notes.passed ∪ K := by
    rw [(sem_eq_ok ho).2]
    exact union_subset (fun w hw => hpassed w hw) subset_union_right
  have hle := card_le_card hsub
  have hwithin := h.within
  omega

end Budget

theorem seen_inum (hi : (entry s i).lock = some p) :
    ((seen A s).icache i).inum = (entry s i).inum ∧ ((seen A s).icache i).d = (entry s i).d := by
  obtain ⟨r, hr, -⟩ := (A.respects s.time s.notes s.state).entry i hi
  rw [seen, hr]
  exact ⟨rfl, rfl⟩

theorem tight_of_tags (ho : sem A o s = .ok (b, t)) (hrefs : Work.refsAfter s.notes.refs o b = s.notes.refs)
    (htag : ∀ i, (entry t i).tag = ((seen A s).icache i).tag) : Tight p s t := by
  have hresp := A.respects s.time s.notes s.state
  simp only [Inode.tag, Prod.mk.injEq] at htag
  refine ⟨?_, fun i hi => ?_, fun i hi => ?_, fun i hi => ?_⟩
  · rw [(sem_eq_ok ho).2]
    exact hrefs
  · rw [(htag i).1]
    exact hresp.named i hi
  · obtain ⟨r, hr, hpos⟩ := hresp.entry i hi
    change (seen A s).icache i = _ at hr
    rw [(htag i).1, (htag i).2.1, (htag i).2.2, hr]
    exact ⟨hi, rfl, hpos⟩
  · rw [(htag i).2.2] at hi
    exact hresp.unlock i hi

theorem still_of_icache (ho : sem A o s = .ok (b, t)) (hrefs : Work.refsAfter s.notes.refs o b = s.notes.refs)
    (hicache : t.state.icache = (seen A s).icache) : Still p s t := by
  refine ⟨tight_of_tags ho hrefs fun i => by rw [entry, hicache], fun i hi => ?_⟩
  rw [entry, hicache, (seen_inum hi).2]

/-- Where an operation leaves the inode cache alone, the counts stay. -/
theorem Budget.count_of_icache (h : Budget sb K n s) (ho : sem A o s = .ok (b, t))
    (hrefs : Work.refsAfter s.notes.refs o b = s.notes.refs) (href : ∀ i, (entry t i).ref = ((seen A s).icache i).ref)
    (i : InodeIdx) (hi : i ∈ t.notes.refs) : (t.notes.refs.count i : ℤ) ≤ (entry t i).ref := by
  have heq : t.notes.refs = s.notes.refs := by
    rw [(sem_eq_ok ho).2]
    exact hrefs
  rw [heq] at hi ⊢
  rw [href]
  exact h.seen_count hi

def Quiet : Op → Prop
  | .log .beginOp => False
  | .log _ => True
  | .fs (.ref _) => True
  | .fs (.inode _) => True
  | .fs .sb => True
  | .fs (.readBlock _) => True
  | .fs (.cwd _) => True
  | .fs (.access _ _ _ _ _) => True
  | .fs (.consoleread _ _) => True
  | .fs (.consolewrite _) => True
  | .file _ => True
  | .proc (.proc _) => True
  | .user _ => True
  | _ => False

def view (k : Kernel) : (InodeIdx → Inode) × Superblock × (ℕ → Bool) := (k.icache, k.sb, k.bitmap)

theorem Quiet.fixes (h : Quiet o) : Comp.Fixes view o.sem := by
  cases o with
  | log o => exact LogOp.sem_fixes (fun _ _ => rfl) o
  | fs o =>
    intro k b k' hk
    cases o with
    | consoleread =>
      obtain ⟨input, rfl⟩ := consoleread_eq_ok hk
      rfl
    | ref j | inode j | sb | readBlock c | cwd q | access site q j usr oth | consolewrite src =>
      cases hk
      rfl
    | _ => exact h.elim
  | file o => exact FileOp.sem_fixes (fun _ _ => rfl) (fun _ _ _ => rfl) (fun _ _ => rfl) (fun _ _ => rfl) o
  | proc o =>
    cases o with
    | proc =>
      intro k b k' hk
      cases hk
      rfl
    | _ => exact h.elim
  | user o => exact UserOp.sem_fixes (fun _ _ => rfl) (fun _ _ => rfl) o
  | _ => exact h.elim

theorem Quiet.notes (h : Quiet o) (g : Work) (k : Kernel) (b : o.Ans) : g.note k o b = g := by
  cases o with
  | log o =>
    cases o with
    | beginOp => exact h.elim
    | _ => rfl
  | fs o =>
    cases o with
    | ref j | inode j | sb | readBlock c | cwd q | access site q j usr oth | consoleread q m | consolewrite src => rfl
    | _ => exact h.elim
  | panic | vm => exact h.elim
  | _ => rfl

/-- Nothing is passed, and the inodes that are locked hold what they held. -/
structure Idle (sb : Superblock) (p : Slot) (s t : Pt) : Prop extends Still p s t where
  budget : ∀ {K n}, Budget sb K n s → Budget sb K n t

theorem Idle.refl : Idle sb p s s := ⟨Still.refl, id⟩

theorem Idle.trans (h : Idle sb p s t) (h' : Idle sb p t u) : Idle sb p s u :=
  ⟨h.toStill.trans h'.toStill, fun hb => h'.budget (h.budget hb)⟩

theorem Quiet.turn (h : Quiet o) (ho : sem A o s = .ok (b, t)) : Idle sb p s t := by
  have hview := h.fixes _ _ _ (sem_eq_ok ho).1
  have hnotes := h.notes s.notes (seen A s) b
  simp only [view, Prod.mk.injEq] at hview
  obtain ⟨hicache, hsb, hbitmap⟩ := hview
  have hrefs : Work.refsAfter s.notes.refs o b = s.notes.refs := congrArg Work.refs hnotes
  have hpassed : Work.passedAfter s.notes.passed (seen A s) o = s.notes.passed := congrArg Work.passed hnotes
  refine ⟨still_of_icache ho hrefs hicache, fun hs => hs.next ho hsb (fun hone => hone.congr hsb hbitmap)
    (hs.count_of_icache ho hrefs fun i => by rw [entry, hicache]) ?_⟩
  rw [hpassed]
  exact fun w hw => mem_union_left _ hw

section
variable (hs : Budget sb K n s)
include hs

theorem write_turn {o : FsOp} {b : o.Ans} {w : Word} (ho : sem A (.fs o) s = .ok (b, t))
    (hrefs : Work.refsAfter s.notes.refs (.fs o) b = s.notes.refs) (hicache : t.state.icache = (seen A s).icache)
    (hsb : t.state.sb = (seen A s).sb) (hmap : OneMapBlock (seen A s) → OneMapBlock t.state)
    (hlogged : ∀ c, o.logged (seen A s) = some c → c = w) (hw : w ∈ K) : Budget sb K n t ∧ Still p s t := by
  refine ⟨hs.next ho hsb hmap (hs.count_of_icache ho hrefs fun i => by rw [entry, hicache]) fun c hc => ?_,
    still_of_icache ho hrefs hicache⟩
  rcases Work.mem_passedAfter.mp hc with hlog | hc
  · rw [hlogged c hlog]
    exact mem_union_right _ hw
  · exact mem_union_left _ hc

theorem bzero_turn {b : Word} (hb : b ∈ K) (ho : sem A (.fs (.bzero b)) s = .ok (v, t)) :
    Budget sb K n t ∧ Still p s t := by
  obtain ⟨lh, hk⟩ := bzero_eq_ok (sem_eq_ok ho).1
  refine write_turn hs ho rfl (by rw [hk]) (by rw [hk]) (fun hone => ?_) (fun c hc => (Option.some.inj hc).symm) hb
  rw [hk]
  exact hone.congr rfl rfl

theorem writeBlock_turn {b : Word} {src : List UInt8} (hb : b ∈ K)
    (ho : sem A (.fs (.writeBlock b off src)) s = .ok (v, t)) : Budget sb K n t ∧ Still p s t := by
  obtain ⟨lh, hk⟩ := writeBlock_eq_ok (sem_eq_ok ho).1
  refine write_turn hs ho rfl (by rw [hk]) (by rw [hk]) (fun hone => ?_) (fun c hc => (Option.some.inj hc).symm) hb
  rw [hk]
  exact hone.congr rfl rfl

theorem claimBlock_turn {b : ℕ} {r : Option Word} (ho : sem A (.fs (.claimBlock b)) s = .ok (r, t)) :
    Budget sb K n t ∧ Still p s t ∧ ∀ a, r = some a → a ≠ 0 := by
  obtain ⟨hsem, -⟩ := sem_eq_ok ho
  obtain ⟨hdisk, hone⟩ := hs.seen_map (A := A)
  have hsize := hone.size
  have hlogged (c : Word) (hc : (claimBlock b).logged (seen A s) = some c) : c = sb.mapBlock := by
    obtain ⟨a, ha, rfl⟩ := Option.map_eq_some_iff.mp hc
    have hlt := (firstFree_eq_some ha).1
    rw [Kernel.bblock_eq (by omega), hdisk]
  rcases claimBlock_eq_ok hsem with ⟨hr, hk⟩ | ⟨a, lh, ⟨hlt, hfree⟩, hr, hk⟩
  · obtain ⟨hb, hstill⟩ := write_turn hs ho rfl (by rw [hk]) (by rw [hk]) (fun h => hk ▸ h) hlogged hs.paid
    exact ⟨hb, hstill, fun a ha => by cases hr.symm.trans ha⟩
  · have hboot : a ≠ 0 := by
      rintro rfl
      exact absurd (hone.boot.symm.trans hfree) (by decide)
    have hmap : OneMapBlock t.state := by
      rw [hk]
      refine ⟨hone.size, fun c hc => ?_, ?_⟩
      · by_cases hca : c = a
        · omega
        · dsimp only at hc
          rw [update_of_ne hca] at hc
          exact hone.bits c hc
      · dsimp only
        rw [update_of_ne hboot.symm]
        exact hone.boot
    obtain ⟨hb, hstill⟩ := write_turn hs ho rfl (by rw [hk]) (by rw [hk]) (fun _ => hmap) hlogged hs.paid
    refine ⟨hb, hstill, fun c hc hzero => hboot ?_⟩
    have heq := Option.some.inj (hr.symm.trans hc)
    rw [hzero] at heq
    have hnat := congrArg BitVec.toNat heq
    have hpow : a < 2 ^ 32 := by
      unfold BPB at hsize
      omega
    rwa [BitVec.toNat_ofNat, Nat.mod_eq_of_lt hpow] at hnat

theorem bfree_turn {b : Word} (hb : b ≠ 0) (ho : sem A (.fs (.bfree b)) s = .ok (v, t)) :
    Budget sb K n t ∧ Still p s t := by
  obtain ⟨lh, hk⟩ := bfree_eq_ok (sem_eq_ok ho).1
  obtain ⟨hdisk, hone⟩ := hs.seen_map (A := A)
  refine write_turn hs ho rfl (by rw [hk]) (by rw [hk]) (fun _ => ?_) (fun c hc => ?_) hs.paid
  · rw [hk]
    refine ⟨hone.size, fun c hc => ?_, ?_⟩
    · by_cases hcb : c = b.toNat
      · dsimp only at hc
        rw [hcb, update_self] at hc
        cases hc
      · dsimp only at hc
        rw [update_of_ne hcb] at hc
        exact hone.bits c hc
    · have hne : (0 : ℕ) ≠ b.toNat := fun h0 => hb (BitVec.eq_of_toNat_eq h0.symm)
      dsimp only
      rw [update_of_ne hne]
      exact hone.boot
  · rw [logged] at hc
    split at hc
    case isTrue hused =>
      rw [← Option.some.inj hc, Kernel.bblock_eq (hone.bits _ hused), hdisk]
    case isFalse => cases hc

theorem iupdate_turn (hi : (entry s i).lock = some p)
    (hpaid : sb.iblock (entry s i).inum ∈ K) (ho : sem A (.fs (.iupdate i)) s = .ok (v, t)) :
    Budget sb K n t ∧ Still p s t := by
  obtain ⟨lh, hk⟩ := iupdate_eq_ok (sem_eq_ok ho).1
  refine write_turn hs ho rfl (by rw [hk]; rfl) (by rw [hk]; rfl) (fun hone => ?_) (fun c hc => ?_) hpaid
  · rw [hk]
    exact hone.congr rfl rfl
  · rw [← Option.some.inj hc, (seen_inum hi).1, ← (hs.seen_map (A := A)).1]
    rfl

theorem claimInode_turn {inum : ℕ} {r : Bool} (hpaid : sb.iblock inum ∈ K)
    (ho : sem A (.fs (.claimInode inum type)) s = .ok (r, t)) : Budget sb K n t ∧ Still p s t := by
  obtain ⟨hsem, -⟩ := sem_eq_ok ho
  have hlogged (c : Word) (hc : (claimInode inum type).logged (seen A s) = some c) : c = sb.iblock inum := by
    rw [logged] at hc
    split at hc
    · rw [← Option.some.inj hc, ← (hs.seen_map (A := A)).1]
      rfl
    · cases hc
  rcases claimInode_eq_ok hsem with ⟨-, hk⟩ | ⟨-, -, lh, hk⟩
  · exact write_turn hs ho rfl (by rw [hk]) (by rw [hk]) (fun h => hk ▸ h) hlogged hpaid
  · refine write_turn hs ho rfl (by rw [hk]; rfl) (by rw [hk]; rfl) (fun hone => ?_) hlogged hpaid
    rw [hk]
    exact hone.congr rfl rfl

theorem claimInode_false {inum : ℕ} {type : InodeType}
    (ho : sem A (.fs (.claimInode inum type)) s = .ok (false, t)) : Budget sb K n t ∧ Still p s t := by
  obtain ⟨hsem, -⟩ := sem_eq_ok ho
  rcases claimInode_eq_ok hsem with ⟨-, hk⟩ | ⟨hok, -⟩
  case inr => cases hok
  have hlive : ((seen A s).dinode inum).type ≠ .free := by
    intro hfree
    have hsem := Comp.get_bind hsem
    rw [if_pos hfree] at hsem
    obtain ⟨_, _, -, hsem⟩ := Comp.bind_eq_ok.mp hsem
    cases hsem
  refine write_turn hs ho rfl (by rw [hk]) (by rw [hk]) (fun h => hk ▸ h) (w := sb.mapBlock) (fun c hc => ?_) hs.paid
  rw [logged, if_neg hlive] at hc
  cases hc

end

end Tx
end Xv6
