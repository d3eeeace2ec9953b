import Xv6.Fs.Discipline
import Xv6.Sys.File

/-! # New inodes

What `ialloc` finds is nobody's: in a coherent cache the entry of a free inode is not
valid, so that `ilock` reads what `ialloc` has just written. What the caller then stores
stays, while it links the inode into a directory.
-/
namespace Xv6.Sys
open Function Fs Prog FsOp
open KProg hiding panic

variable {p : Slot} {k k' : Kernel} {g : Held} {i dp : InodeIdx}

theorem Holds.run {α : Type} {x : KProg α} {Q : α → Held → Prop} {a : α}
    (h : Holds p k g) (hx : x.Obeys (icacheProtocol p) g Q) (hr : x.run Op.sem k = .ok (a, k')) :
    ∃ g', Q a g' ∧ Holds p k' g' :=
  Obeys.run (P := icacheProtocol p) (I := Holds p) Holds.sound hx h hr

theorem Holds.run_eq {α : Type} {x : KProg α} {a : α} {g' : Held} (h : Holds p k g)
    (hx : x.Obeys (icacheProtocol p) g fun _ g1 => g1 = g') (hr : x.run Op.sem k = .ok (a, k')) :
    Holds p k' g' := by
  obtain ⟨g1, rfl, h'⟩ := Holds.run h hx hr
  exact h'

/-- The dinode that `ialloc` writes. -/
def fresh (type : InodeType) : Dinode :=
  { type := type, userid := FsOp.system, mode := FsOp.defaultMode type }

def Unread (type : InodeType) (k : Kernel) (i : InodeIdx) : Prop :=
  (k.icache i).valid = false ∧ k.dinode (k.icache i).inum = fresh type

theorem claim_iget (ht : type ≠ .free) (h : Holds p k g)
    (hclaim : claimInode.sem inum type k = .ok (true, k1))
    (higet : iget.sem inum k1 = .ok (i, k')) : Holds p k' (g.addRef i) ∧ Unread type k' i := by
  have h1 := h.claimInode ht hclaim
  refine ⟨h1.iget higet, ?_⟩
  rcases claimInode_eq_ok hclaim with ⟨hok, -⟩ | ⟨-, hfree, lh, rfl⟩
  · cases hok
  have hdisk (inum' : ℕ) : (update k.dinode inum (fresh type)) inum = fresh type :=
    update_self ..
  rcases iget_eq_ok higet with ⟨hpos, hinum, rfl⟩ | ⟨-, -, rfl⟩
  · have hinvalid : (k.icache i).valid = false := by
      by_contra hv
      have hdisk := h.disk i hpos (by simpa using hv)
      rw [show (k.icache i).inum = inum from hinum] at hdisk
      exact hdisk hfree
    unfold Unread
    rw [Kernel.setInode_self]
    refine ⟨hinvalid, ?_⟩
    change update k.dinode inum (fresh type) (k.icache i).inum = _
    rw [show (k.icache i).inum = inum from hinum]
    exact hdisk inum
  · unfold Unread
    rw [Kernel.setInode_self]
    exact ⟨rfl, hdisk inum⟩

theorem ialloc_run (ht : type ≠ .free) (h : Holds p k g)
    (hr : (ialloc type).run Op.sem k = .ok (i, k')) : Holds p k' (g.addRef i) ∧ Unread type k' i := by
  have hfrom (turns inum : ℕ) (hr : (iallocFrom type turns inum).run Op.sem k = .ok (i, k')) :
      Holds p k' (g.addRef i) ∧ Unread type k' i := by
    induction turns generalizing inum with
    | zero => cases hr
    | succ turns ih =>
      obtain ⟨ok, k1, hclaim, hnext⟩ := of_bind hr
      rw [claimInode_run] at hclaim
      cases ok with
      | true =>
        rw [if_pos rfl, iget_run] at hnext
        exact claim_iget ht h hclaim hnext
      | false =>
        rw [if_neg Bool.false_ne_true] at hnext
        rcases claimInode_eq_ok hclaim with ⟨-, rfl⟩ | ⟨hok, -⟩
        · exact ih (inum + 1) hnext
        · cases hok
  obtain ⟨sb, k1, hsb, hr⟩ := of_bind hr
  cases hsb
  exact hfrom _ _ hr

theorem store_d (h : store.sem i u k = .ok (v, k')) : (k'.icache i).d = u.apply (k.icache i).d := by
  obtain ⟨copies, rfl⟩ := store_eq_ok h
  simp

/-- The new inode with what `create` stores into it. -/
def owned (type : InodeType) (major minor : BitVec 16) (owner : CStr) : Dinode :=
  { fresh type with major := major, minor := minor, nlink := 1, userid := owner }

theorem newInode_run (ht : type ≠ .free) {owner : CStr}
    (h : Holds p k g) (hr : (newInode p type major minor owner).run Op.sem k = .ok (i, k')) :
    g.locks i = .free ∧ Holds p k' (locked g i) ∧ (k'.icache i).d = owned type major minor owner := by
  obtain ⟨j, k1, halloc, hr⟩ := of_bind hr
  obtain ⟨_, k2, hlock, hr⟩ := of_bind hr
  obtain ⟨_, k3, hdev, hr⟩ := of_bind hr
  obtain ⟨_, k4, hnlink, hr⟩ := of_bind hr
  obtain ⟨_, k5, huserid, hr⟩ := of_bind hr
  obtain ⟨_, k6, hupdate, hr⟩ := of_bind hr
  cases hr
  rw [ilock_run] at hlock
  rw [store_run] at hdev hnlink huserid
  rw [iupdate_run] at hupdate
  obtain ⟨h1, hinvalid, hdisk⟩ := ialloc_run ht h halloc
  obtain ⟨hfree, h2⟩ := h1.ilock (Multiset.mem_cons_self i _) hlock
  have hown : Owns (locked g i) i := locked_owns
  have h5 := ((h2.store hown.full hdev).store hown.full hnlink).store hown.full huserid
  refine ⟨hfree, h5.iupdate hown.valid hupdate, ?_⟩
  have hread : (k2.icache i).d = fresh type := by
    obtain ⟨-, -, ⟨hvalid, -⟩ | ⟨-, -, rfl⟩⟩ := ilock_eq_ok hlock
    · rw [hinvalid] at hvalid
      cases hvalid
    · simpa [Kernel.copied] using hdisk
  obtain ⟨lh, rfl⟩ := iupdate_eq_ok hupdate
  change (k5.icache i).d = _
  rw [store_d huserid, store_d hnlink, store_d hdev, hread]
  rfl

/-- The call holds a new reference to an inode, locked, with contents that it relies on. -/
def pin (g : Held) (i : InodeIdx) (d : Dinode) : Held := (g.addRef i).setLock i (.pinned d)

/-- The contents of a locked inode are pinned while another one is locked. -/
theorem Holds.pin (h : Holds p k (locked g i)) : Holds p k (pin g i (k.icache i).d) := by
  have hlock := h.locked i (by rw [locked, setLock_locks]; simp)
  have hvalid := h.valid i (by rw [locked, setLock_locks]; trivial)
  have hpin := h.relock (i := i) (s := .pinned (k.icache i).d) h.toCoherent rfl (fun _ _ => rfl) rfl
    (fun _ => hlock) (fun _ => hvalid) (fun d hd => by cases hd; rfl)
  rw [locked, setLock_setLock] at hpin
  exact hpin

theorem link_run (h : Holds p k (locked (locked g dp) i)) (hdp : g.locks dp = .free)
    (hi : (locked g dp).locks i = .free) (hlink : (dirlink p dp name inum).run Op.sem k = .ok (r, k1))
    (hput : (iunlockput p dp).run Op.sem k1 = .ok (u, k')) : Holds p k' (pin g i (k.icache i).d) := by
  have hne : i ≠ dp := by
    rintro rfl
    rw [locked, setLock_locks] at hi
    cases hi
  -- the two inodes may be locked in either order
  have hswap (d : Dinode) : pin (locked g dp) i d = locked (pin g i d) dp := by
    simp only [Sys.pin, locked, Held.addRef, Held.setLock, Multiset.cons_swap i dp,
      update_comm hne]
  have hpin := Holds.pin h
  rw [hswap] at hpin
  have h1 := Holds.run_eq hpin (dirlink_keeps locked_owns name inum) hlink
  have hfree : (pin g i (k.icache i).d).locks dp = .free := by
    rw [Sys.pin, Held.setLock]
    exact (update_of_ne (Ne.symm hne) ..).trans hdp
  exact Holds.run_eq h1 (iunlockput_obeys hfree) hput

end Xv6.Sys
