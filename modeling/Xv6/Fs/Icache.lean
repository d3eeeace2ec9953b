import Mathlib.Data.Multiset.AddSub
import Xv6.Fs.Dir
import Xv6.Kernel.Outcome

/-! # The inode cache

Every inode has at most one entry with references, and a valid entry with references is
an allocated inode. Code keeps this by taking references before it locks, locking
before it writes, and giving back what it took; a protocol says so, with the references
and locks of the running call as its ghost state.
-/
namespace Xv6
open Function Kernel FsOp Multiset

structure Coherent (k : Kernel) : Prop where
  unique : ∀ i j, 0 < (k.icache i).ref → 0 < (k.icache j).ref → (k.icache i).inum = (k.icache j).inum → i = j
  disk : ∀ i, 0 < (k.icache i).ref → (k.icache i).valid = true → (k.dinode (k.icache i).inum).type ≠ .free
  mem : ∀ i, 0 < (k.icache i).ref → (k.icache i).valid = true → (k.icache i).d.type ≠ .free
  boot : k.bitmap 0 = true

namespace Coherent
variable {k : Kernel} {i : InodeIdx}

theorem setEntry (h : Coherent k) {f : Inode → Inode}
    (hnew : 0 < (f (k.icache i)).ref → ∀ j, j ≠ i → 0 < (k.icache j).ref → (f (k.icache i)).inum ≠ (k.icache j).inum)
    (hvalid : 0 < (f (k.icache i)).ref → (f (k.icache i)).valid = true →
      (k.dinode (f (k.icache i)).inum).type ≠ .free ∧ (f (k.icache i)).d.type ≠ .free) : Coherent (k.setInode i f) where
  unique := distinct_update (A := fun ip : Inode => 0 < ip.ref) (K := Inode.inum) h.unique hnew
  disk := forall_update (P := fun _ (ip : Inode) => 0 < ip.ref → ip.valid = true → (k.dinode ip.inum).type ≠ .free) (fun j _ => h.disk j) fun hr hv => (hvalid hr hv).1
  mem := forall_update (P := fun _ (ip : Inode) => 0 < ip.ref → ip.valid = true → ip.d.type ≠ .free) (fun j _ => h.mem j) fun hr hv => (hvalid hr hv).2
  boot := h.boot

theorem setInode (h : Coherent k) {f : Inode → Inode} (hinum : (f (k.icache i)).inum = (k.icache i).inum)
    (href : 0 < (f (k.icache i)).ref → 0 < (k.icache i).ref)
    (hvalid : 0 < (k.icache i).ref → (f (k.icache i)).valid = true →
      (k.dinode (k.icache i).inum).type ≠ .free ∧ (f (k.icache i)).d.type ≠ .free) :
    Coherent (k.setInode i f) := by
  refine h.setEntry (fun hr j hj hpos heq => hj (h.unique j i hpos (href hr) (heq.symm.trans hinum))) fun hr hv => ?_
  rw [hinum]
  exact hvalid (href hr) hv

theorem setInode_of_same (h : Coherent k) {f : Inode → Inode}
    (hinum : (f (k.icache i)).inum = (k.icache i).inum) (href : (f (k.icache i)).ref = (k.icache i).ref)
    (hv : (f (k.icache i)).valid = (k.icache i).valid)
    (htype : (f (k.icache i)).d.type = (k.icache i).d.type) : Coherent (k.setInode i f) := by
  refine h.setInode hinum (fun hr => href ▸ hr) fun hr hvalid => ?_
  rw [hv] at hvalid
  exact ⟨h.disk i hr hvalid, htype ▸ h.mem i hr hvalid⟩

theorem setDinode (h : Coherent k) (inum : ℕ) (hd : d.type ≠ .free) :
    Coherent { k with dinode := update k.dinode inum d } := by
  refine ⟨h.unique, fun j hj hv => ?_, h.mem, h.boot⟩
  dsimp only
  rw [update_apply]
  split
  · exact hd
  · exact h.disk j hj hv

theorem newEntry (h : Coherent k) (hnone : ∀ j, 0 < (k.icache j).ref → (k.icache j).inum ≠ inum) :
    Coherent (k.setInode i fun ip => { ip with inum := inum, ref := 1, valid := false }) :=
  h.setEntry (fun _ j _ hpos heq => hnone j hpos heq.symm) fun _ hv => by cases hv

theorem congr (h : Coherent k) (hi : k'.icache = k.icache) (hd : k'.dinode = k.dinode)
    (hb : k'.bitmap = k.bitmap) : Coherent k' := by
  constructor
  · rw [hi]
    exact h.unique
  · rw [hi, hd]
    exact h.disk
  · rw [hi]
    exact h.mem
  · rw [hb]
    exact h.boot

/-- The inode of a referenced entry is freed, and the entry is no longer valid. -/
theorem freeEntry (h : Coherent k) (hi : 0 < (k.icache i).ref) (d : Dinode) :
    Coherent { k.setInode i fun ip => { ip with d := d, valid := false } with
      dinode := update k.dinode (k.icache i).inum d } := by
  have hset : Coherent (k.setInode i fun ip => { ip with d := d, valid := false }) :=
    h.setInode rfl id fun _ hv => by cases hv
  refine ⟨hset.unique, fun j hj hv => ?_, hset.mem, h.boot⟩
  have hji : j ≠ i := by
    rintro rfl
    dsimp only at hv
    rw [setInode_self] at hv
    cases hv
  dsimp only at hj hv ⊢
  rw [setInode_of_ne hji] at hj hv ⊢
  rw [update_of_ne fun hinum => hji (h.unique j i hj hi hinum)]
  exact h.disk j hj hv

end Coherent

/-- How a call holds an inode: not at all, by `acquiresleep` alone, by `ilock`, or by
`ilock` with contents that it relies on. -/
inductive Hold
  | free
  | plain
  | full
  | pinned (d : Dinode)

def Hold.Valid : Hold → Prop
  | full => True
  | pinned _ => True
  | _ => False

/-- The references and locks of a call, and the directory its process works in. -/
structure Held where
  refs : Multiset InodeIdx
  locks : InodeIdx → Hold
  cwd : Option InodeIdx

namespace Held

def addRef (g : Held) (i : InodeIdx) : Held := { g with refs := i ::ₘ g.refs }
def setLock (g : Held) (i : InodeIdx) (h : Hold) : Held :=
  { g with locks := update g.locks i h }

def Allows (p : Slot) (g : Held) : Op → Prop
  | .fs (.idup i) => i ∈ g.refs ∨ g.cwd = some i
  | .fs (.ilock q i) => q = p ∧ i ∈ g.refs
  | .fs (.iunlock _ i) => (g.locks i).Valid
  | .fs (.acquiresleep q i) => q = p ∧ i ∈ g.refs
  | .fs (.dropRef i) => i ∈ g.refs ∧ g.locks i = .free
  | .fs (.store i _) => g.locks i = .full
  | .fs (.iupdate i) => (g.locks i).Valid
  | .fs (.ifree i) => g.locks i = .full
  | .fs (.claimInode _ type) => type ≠ .free
  | .fs (.bfree b) => b ≠ 0
  | .fs (.cwd q) => q = p
  | .proc (.proc _) => True
  | .proc _ => False
  | _ => True

def Answers (g : Held) : (o : Op) → o.Ans → Prop
  | .fs (.ilock _ i), _ => g.locks i = .free
  | .fs (.acquiresleep _ i), _ => g.locks i = .free
  | .fs (.inode i), ip => ∀ d, g.locks i = .pinned d → ip.d = d
  | .fs (.cwd _), i => i = g.cwd
  | _, _ => True

/-- A look at an entry that is held by `acquiresleep` may show that it is valid. -/
def see (g : Held) (i : InodeIdx) (ip : Inode) : Held :=
  match g.locks i, ip.valid with
  | .plain, true => g.setLock i .full
  | _, _ => g

def next (g : Held) : (o : Op) → o.Ans → Held
  | .fs (.iget _), i => g.addRef i
  | .fs (.idup i), _ => g.addRef i
  | .fs (.ilock _ i), _ => g.setLock i .full
  | .fs (.iunlock _ i), _ => g.setLock i .free
  | .fs (.acquiresleep _ i), _ => g.setLock i .plain
  | .fs (.releasesleep i), _ => g.setLock i .free
  | .fs (.dropRef i), _ => { g with refs := g.refs.erase i }
  | .fs (.inode i), ip => g.see i ip
  | .fs (.ifree i), _ => g.setLock i .plain
  | _, _ => g

end Held

/-- The discipline of process `p`. -/
def icacheProtocol (p : Slot) : Protocol Op Op.Ans where
  Ghost := Held
  allow := Held.Allows p
  answer := Held.Answers
  next := Held.next

/-- The kernel state is coherent and has the references and locks of the call. -/
structure Holds (p : Slot) (k : Kernel) (g : Held) : Prop extends Coherent k where
  cwd : (k.pt.proc p).cwd = g.cwd
  refs : ∀ i, (g.refs.count i : ℤ) + (if g.cwd = some i then 1 else 0) ≤ (k.icache i).ref
  locked : ∀ i, g.locks i ≠ .free → i ∈ g.refs ∧ (k.icache i).lock = some p
  valid : ∀ i, (g.locks i).Valid → (k.icache i).valid = true
  pinned : ∀ i d, g.locks i = .pinned d → (k.icache i).d = d

namespace Holds
variable {p : Slot} {k k' : Kernel} {g : Held} {i : InodeIdx}

theorem ref_pos (h : Holds p k g) (hi : i ∈ g.refs ∨ g.cwd = some i) : 0 < (k.icache i).ref := by
  have hle := h.refs i
  rcases hi with hi | hi
  · have hcount := one_le_count_iff_mem.mpr hi
    split at hle <;> omega
  · rw [if_pos hi] at hle
    omega

theorem free_of_unlocked (h : Holds p k g) (hi : (k.icache i).lock = none) : g.locks i = .free := by
  by_contra hne
  have hlock := (h.locked i hne).2
  rw [hi] at hlock
  cases hlock

theorem congr (h : Holds p k g) (hi : k'.icache = k.icache) (hd : k'.dinode = k.dinode)
    (hb : k'.bitmap = k.bitmap) (hcwd : (k'.pt.proc p).cwd = (k.pt.proc p).cwd) : Holds p k' g where
  toCoherent := h.toCoherent.congr hi hd hb
  cwd := hcwd.trans h.cwd
  refs := by
    rw [hi]
    exact h.refs
  locked := by
    rw [hi]
    exact h.locked
  valid := by
    rw [hi]
    exact h.valid
  pinned := by
    rw [hi]
    exact h.pinned

variable {m : Multiset InodeIdx} {s : Hold} {u : Unit}

section
variable (h : Holds p k g) (hcoh : Coherent k') (hcwd : (k'.pt.proc p).cwd = (k.pt.proc p).cwd) (hne : ∀ j, j ≠ i → k'.icache j = k.icache j)
include h hcoh hcwd hne

theorem entry (hm : ∀ j, j ≠ i → m.count j = g.refs.count j)
    (href : (m.count i : ℤ) + (if g.cwd = some i then 1 else 0) ≤ (k'.icache i).ref)
    (hlock : s ≠ .free → i ∈ m ∧ (k'.icache i).lock = some p)
    (hvalid : s.Valid → (k'.icache i).valid = true) (hpin : ∀ d, s = .pinned d → (k'.icache i).d = d) :
    Holds p k' { g with refs := m, locks := update g.locks i s } := by
  have hlocks {j : InodeIdx} (hj : j ≠ i) : update g.locks i s j = g.locks j :=
    update_of_ne hj ..
  refine ⟨hcoh, hcwd.trans h.cwd, fun j => ?_, fun j hj => ?_, fun j hj => ?_, fun j d hj => ?_⟩
  all_goals by_cases hji : j = i
  · subst hji
    exact href
  · dsimp only
    rw [hm j hji, hne j hji]
    exact h.refs j
  · subst hji
    dsimp only at hj
    rw [update_self] at hj
    exact hlock hj
  · dsimp only at hj ⊢
    rw [hlocks hji] at hj
    rw [hne j hji, ← one_le_count_iff_mem, hm j hji, one_le_count_iff_mem]
    exact h.locked j hj
  · subst hji
    dsimp only at hj
    rw [update_self] at hj
    exact hvalid hj
  · dsimp only at hj
    rw [hlocks hji] at hj
    rw [hne j hji]
    exact h.valid j hj
  · subst hji
    dsimp only at hj
    rw [update_self] at hj
    exact hpin d hj
  · dsimp only at hj
    rw [hlocks hji] at hj
    rw [hne j hji]
    exact h.pinned j d hj

theorem relock (href : (k'.icache i).ref = (k.icache i).ref)
    (hlock : s ≠ .free → i ∈ g.refs ∧ (k'.icache i).lock = some p)
    (hvalid : s.Valid → (k'.icache i).valid = true) (hpin : ∀ d, s = .pinned d → (k'.icache i).d = d) :
    Holds p k' (g.setLock i s) := by
  refine h.entry hcoh hcwd hne (fun _ _ => rfl) ?_ hlock hvalid hpin
  rw [href]
  exact h.refs i

theorem reref (hm : ∀ j, j ≠ i → m.count j = g.refs.count j)
    (href : (m.count i : ℤ) + (if g.cwd = some i then 1 else 0) ≤ (k'.icache i).ref)
    (hlock : g.locks i ≠ .free → i ∈ m ∧ (k'.icache i).lock = (k.icache i).lock ∧
      (k'.icache i).valid = (k.icache i).valid ∧ (k'.icache i).d = (k.icache i).d) :
    Holds p k' { g with refs := m } := by
  have hentry := h.entry hcoh hcwd hne hm href (s := g.locks i)
    (fun hs => ⟨(hlock hs).1, (hlock hs).2.1.trans (h.locked i hs).2⟩)
    (fun hs => ?_) (fun d hd => ?_)
  · rw [update_eq_self] at hentry
    exact hentry
  · have hs' : g.locks i ≠ .free := fun hf => by
      rw [hf] at hs
      exact hs
    exact (hlock hs').2.2.1.trans (h.valid i hs)
  · have hs' : g.locks i ≠ .free := fun hf => by
      rw [hf] at hd
      cases hd
    exact (hlock hs').2.2.2.trans (h.pinned i d hd)

theorem moreRef (href : (k'.icache i).ref = (k.icache i).ref + 1)
    (hlock : g.locks i ≠ .free → (k'.icache i).lock = (k.icache i).lock ∧
      (k'.icache i).valid = (k.icache i).valid ∧ (k'.icache i).d = (k.icache i).d) :
    Holds p k' (g.addRef i) := by
  refine h.reref hcoh hcwd hne (fun j hj => count_cons_of_ne hj _) ?_ fun hl => ?_
  · have hle := h.refs i
    rw [count_cons_self, href]
    push_cast
    omega
  · exact ⟨mem_cons_self i _, hlock hl⟩

end

section
variable (h : Holds p k g)
include h

theorem incRef (hpos : 0 < (k.icache i).ref) :
    Holds p (k.setInode i fun ip => { ip with ref := ip.ref + 1 }) (g.addRef i) := by
  have hcoh : Coherent (k.setInode i fun ip => { ip with ref := ip.ref + 1 }) :=
    h.toCoherent.setInode rfl (fun _ => hpos) fun hr hv => ⟨h.disk i hr hv, h.mem i hr hv⟩
  refine h.moreRef hcoh rfl (fun j hj => setInode_of_ne hj ..) ?_ fun _ => ?_
  · rw [setInode_self]
  · rw [setInode_self]
    exact ⟨rfl, rfl, rfl⟩

theorem iget (ho : iget.sem inum k = .ok (i, k')) : Holds p k' (g.addRef i) := by
  rcases iget_eq_ok ho with ⟨hpos, -, rfl⟩ | ⟨hzero, hnone, rfl⟩
  · exact h.incRef hpos
  · refine h.moreRef (h.toCoherent.newEntry hnone) rfl (fun j hj => setInode_of_ne hj ..) ?_ fun hl => ?_
    · rw [setInode_self, hzero]
      rfl
    · have hpos := h.ref_pos (.inl (h.locked i hl).1)
      omega

theorem dropRef (hi : i ∈ g.refs) (hl : g.locks i = .free) :
    Holds p (k.setInode i fun ip => { ip with ref := ip.ref - 1 }) { g with refs := g.refs.erase i } := by
  refine h.reref (i := i) (h.toCoherent.setInode rfl (fun hr => ?_) fun hr hv => ?_) rfl ?_ ?_ ?_ fun hs => ?_
  · dsimp only at hr
    omega
  · exact ⟨h.disk i hr hv, h.mem i hr hv⟩
  · exact fun j hj => setInode_of_ne hj ..
  · exact fun j hj => count_erase_of_ne hj _
  · have hle := h.refs i
    have hcount := one_le_count_iff_mem.mpr hi
    rw [count_erase_self, setInode_self]
    push_cast [hcount]
    omega
  · exact (hs hl).elim

theorem ilock (hi : i ∈ g.refs) (ho : ilock.sem p i k = .ok (u, k')) :
    g.locks i = .free ∧ Holds p k' (g.setLock i .full) := by
  obtain ⟨-, hnone, hcase⟩ := ilock_eq_ok ho
  refine ⟨h.free_of_unlocked hnone, ?_⟩
  rcases hcase with ⟨hvalid, rfl⟩ | ⟨-, htype, rfl⟩
  · refine h.relock (h.toCoherent.setInode_of_same rfl rfl rfl rfl) rfl
      (fun j hj => setInode_of_ne hj ..) ?_ ?_ ?_ fun d hd => by cases hd
    all_goals rw [setInode_self]
    · exact fun _ => ⟨hi, rfl⟩
    · exact fun _ => hvalid
  · have hcoh := (h.toCoherent.setInode (i := i) (f := fun ip =>
      { ip with lock := some p, valid := true, d := k.dinode (k.icache i).inum }) rfl id
      fun _ _ => ⟨htype, htype⟩)
    have hrelock := h.relock (i := i) (s := .full) hcoh rfl (fun j hj => setInode_of_ne hj ..)
      (by rw [setInode_self])
      (fun _ => by rw [setInode_self]; exact ⟨hi, rfl⟩)
      (fun _ => by rw [setInode_self]) (fun d hd => by cases hd)
    exact hrelock.congr rfl rfl rfl rfl

theorem setLockField (hs : s = .free ∨ s = .plain) (hlock : s = .plain → i ∈ g.refs ∧ l = some p) :
    Holds p (k.setInode i fun ip => { ip with lock := l }) (g.setLock i s) := by
  refine h.relock (h.toCoherent.setInode_of_same rfl rfl rfl rfl) rfl ?_ ?_ ?_ ?_ ?_
  · exact fun j hj => setInode_of_ne hj ..
  · rw [setInode_self]
  · intro hne
    rw [setInode_self]
    exact hlock (hs.resolve_left hne)
  · rcases hs with rfl | rfl <;> exact fun hv => hv.elim
  · rcases hs with rfl | rfl <;> exact fun d hd => by cases hd

theorem store (hl : g.locks i = .full) (ho : store.sem i v k = .ok (u, k')) : Holds p k' g := by
  obtain ⟨copies, rfl⟩ := store_eq_ok ho
  have hcoh := h.toCoherent.setInode_of_same (i := i) (f := fun ip => { ip with d := v.apply ip.d })
    rfl rfl rfl (by cases v <;> rfl)
  have hlock := h.locked i (by rw [hl]; simp)
  have hrelock := h.relock (i := i) (s := .full) hcoh rfl (fun j hj => setInode_of_ne hj ..)
    (by rw [setInode_self])
    (fun _ => by rw [setInode_self]; exact hlock)
    (fun _ => by rw [setInode_self]; exact h.valid i (by rw [hl]; trivial)) (fun d hd => by cases hd)
  rw [Held.setLock, ← hl, update_eq_self] at hrelock
  exact hrelock.congr rfl rfl rfl rfl

theorem iupdate (hl : (g.locks i).Valid) (ho : iupdate.sem i k = .ok (u, k')) : Holds p k' g := by
  have hlock : g.locks i ≠ .free := by
    intro hf
    rw [hf] at hl
    exact hl
  have hpos := h.ref_pos (.inl (h.locked i hlock).1)
  have htype := h.mem i hpos (h.valid i hl)
  obtain ⟨lh, rfl⟩ := iupdate_eq_ok ho
  have hcoh := h.toCoherent.setDinode (k.icache i).inum htype
  exact { h with toCoherent := hcoh.congr rfl rfl rfl }

theorem ifree (hl : g.locks i = .full)
    (ho : ifree.sem i k = .ok (u, k')) : Holds p k' (g.setLock i .plain) := by
  have hlock := h.locked i (by rw [hl]; simp)
  have hpos := h.ref_pos (.inl hlock.1)
  obtain ⟨lh, copies, rfl⟩ := ifree_eq_ok ho
  have hcoh := h.toCoherent.freeEntry hpos { (k.icache i).d with type := .free }
  have hrelock := h.relock (i := i) (s := .plain) hcoh rfl
    (fun j hj => by dsimp only; rw [setInode_of_ne hj])
    (by dsimp only; rw [setInode_self])
    (fun _ => by dsimp only; rw [setInode_self]; exact hlock)
    (fun hv => hv.elim) (fun d hd => by cases hd)
  refine hrelock.congr ?_ rfl rfl rfl
  funext j
  dsimp only
  rw [setInode_apply, setInode_apply]

theorem claimInode (ht : type ≠ .free) (ho : claimInode.sem inum type k = .ok (ok, k')) : Holds p k' g := by
  rcases claimInode_eq_ok ho with ⟨-, rfl⟩ | ⟨-, -, lh, rfl⟩
  · exact h
  · have hcoh := h.toCoherent.setDinode inum
      (d := { type := type, userid := system, mode := defaultMode type }) ht
    exact { h with toCoherent := hcoh.congr rfl rfl rfl }

theorem setBitmap {bitmap : ℕ → Bool} (hb : bitmap 0 = true) (lh : List Word) :
    Holds p { k with log := { k.log with lh := lh }, bitmap := bitmap } g :=
  { h with toCoherent := ⟨h.unique, h.disk, h.mem, hb⟩ }

theorem see : Holds p k (g.see i (k.icache i)) := by
  unfold Held.see
  split
  case h_1 hplain hvalid =>
    have hlock := h.locked i (by rw [hplain]; simp)
    exact h.relock h.toCoherent rfl (fun _ _ => rfl) rfl (fun _ => hlock) (fun _ => hvalid)
      fun d hd => by cases hd
  case h_2 => exact h

end

def view (p : Slot) (k : Kernel) : (InodeIdx → Inode) × (ℕ → Dinode) × (ℕ → Bool) × Option InodeIdx :=
  (k.icache, k.dinode, k.bitmap, (k.pt.proc p).cwd)

theorem of_view (h : Holds p k g) (hk : view p k' = view p k) : Holds p k' g := by
  simp only [view, Prod.mk.injEq] at hk
  exact h.congr hk.1 hk.2.1 hk.2.2.1 hk.2.2.2

theorem sound_fs (h : Holds p k g) (hallow : g.Allows p (.fs o)) (ho : o.sem k = .ok (b, k')) :
    g.Answers (.fs o) b ∧ Holds p k' (g.next (.fs o) b) := by
  cases o with
  | iget => exact ⟨trivial, h.iget ho⟩
  | idup =>
    cases ho
    exact ⟨trivial, h.incRef (h.ref_pos hallow)⟩
  | ilock =>
    obtain ⟨rfl, hi⟩ := hallow
    exact h.ilock hi ho
  | iunlock =>
    obtain rfl := iunlock_eq_ok ho
    exact ⟨trivial, h.setLockField (.inl rfl) fun hs => by cases hs⟩
  | acquiresleep =>
    obtain ⟨rfl, hi⟩ := hallow
    obtain ⟨hnone, rfl⟩ := acquiresleep_eq_ok ho
    exact ⟨h.free_of_unlocked hnone, h.setLockField (.inr rfl) fun _ => ⟨hi, rfl⟩⟩
  | releasesleep =>
    cases ho
    exact ⟨trivial, h.setLockField (.inl rfl) fun hs => by cases hs⟩
  | dropRef =>
    cases ho
    exact ⟨trivial, h.dropRef hallow.1 hallow.2⟩
  | inode i =>
    cases ho
    exact ⟨h.pinned i, h.see⟩
  | store => exact ⟨trivial, h.store hallow ho⟩
  | iupdate => exact ⟨trivial, h.iupdate hallow ho⟩
  | ifree => exact ⟨trivial, h.ifree hallow ho⟩
  | claimInode => exact ⟨trivial, h.claimInode hallow ho⟩
  | claimBlock =>
    rcases claimBlock_eq_ok ho with ⟨-, rfl⟩ | ⟨c, lh, -, -, rfl⟩
    · exact ⟨trivial, h⟩
    · refine ⟨trivial, h.setBitmap ?_ lh⟩
      rw [update_apply]
      split
      · rfl
      · exact h.boot
  | bfree a =>
    obtain ⟨lh, rfl⟩ := bfree_eq_ok ho
    have hne : (0 : ℕ) ≠ a.toNat := fun h0 => hallow (BitVec.eq_of_toNat_eq h0.symm)
    refine ⟨trivial, h.setBitmap ?_ lh⟩
    rw [update_of_ne hne]
    exact h.boot
  | bzero =>
    obtain ⟨lh, rfl⟩ := bzero_eq_ok ho
    exact ⟨trivial, h.of_view rfl⟩
  | writeBlock =>
    obtain ⟨lh, rfl⟩ := writeBlock_eq_ok ho
    exact ⟨trivial, h.of_view rfl⟩
  | cwd =>
    cases ho
    obtain rfl := hallow
    exact ⟨h.cwd, h⟩
  | consoleread =>
    obtain ⟨input, rfl⟩ := consoleread_eq_ok ho
    exact ⟨trivial, h.of_view rfl⟩
  | _ =>
    cases ho
    exact ⟨trivial, h⟩

theorem setProc_cwd {f : Proc → Proc} (hf : ∀ pr, (f pr).cwd = pr.cwd) :
    ((k.setProc q f).pt.proc p).cwd = (k.pt.proc p).cwd := by
  rw [setProc_apply]
  split
  case isTrue hq =>
    subst hq
    exact hf _
  case isFalse => rfl

theorem sound (s : Kernel) (g : Held) (o : Op) (b : o.Ans) (s' : Kernel) (h : Holds p s g)
    (hallow : g.Allows p o) (ho : o.sem s = .ok (b, s')) : g.Answers o b ∧ Holds p s' (g.next o b) := by
  cases o with
  | panic => cases ho
  | log o => exact ⟨trivial, h.of_view (LogOp.sem_fixes (f := view p) (fun _ _ => rfl) o s b s' ho)⟩
  | fs => exact h.sound_fs hallow ho
  | file o =>
    refine ⟨trivial, h.of_view (FileOp.sem_fixes (f := view p) (fun _ _ => rfl) (fun k q u => ?_)
      (fun _ _ => rfl) (fun _ _ => rfl) o s b s' ho)⟩
    have hcwd := setProc_cwd (p := p) (k := k) (q := q) (f := fun pr => { pr with ofile := u pr }) fun _ => rfl
    exact congrArg (fun c => (k.icache, k.dinode, k.bitmap, c)) hcwd
  | proc o =>
    cases o with
    | proc =>
      cases ho
      exact ⟨trivial, h⟩
    | _ => exact hallow.elim
  | vm o => exact ⟨trivial, h.of_view (VmOp.sem_fixes (f := view p) (fun _ _ => rfl) o s b s' ho)⟩
  | user o =>
    exact ⟨trivial, h.of_view (UserOp.sem_fixes (f := view p) (fun _ _ => rfl) (fun _ _ => rfl) o s b s' ho)⟩

end Holds
end Xv6
