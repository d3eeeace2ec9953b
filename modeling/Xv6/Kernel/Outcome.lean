import Xv6.Kernel.Frame
import Xv6.Lib.Update

/-! # What the operations do

For each operation of `fs.c` that can fail or branch, the states in which it succeeds
and the state it leaves.
-/
namespace Xv6
open Function Comp Kernel FsOp List

variable {k k' : Kernel} {p : Slot} {i : InodeIdx}

theorem Kernel.setInode_apply (k : Kernel) (i j : InodeIdx) (f : Inode → Inode) :
    (k.setInode i f).icache j = if j = i then f (k.icache i) else k.icache j :=
  update_apply ..

@[simp] theorem Kernel.setInode_self (k : Kernel) (i : InodeIdx) (f : Inode → Inode) :
    (k.setInode i f).icache i = f (k.icache i) := update_self ..

theorem Kernel.setInode_of_ne (h : j ≠ i) (k : Kernel) (f : Inode → Inode) :
    (k.setInode i f).icache j = k.icache j := update_of_ne h ..

theorem Kernel.setInode_setInode (k : Kernel) (i : InodeIdx) (f g : Inode → Inode) :
    (k.setInode i f).setInode i g = k.setInode i (g ∘ f) := by
  unfold setInode
  simp only [update_self, update_idem, comp_apply]

section Fields
variable (k : Kernel) (i : InodeIdx) (f : FileIdx) (p : Slot) (u : Inode → Inode) (v : File → File)
  (w : Proc → Proc)

@[simp] theorem Kernel.setInode_pt : (k.setInode i u).pt = k.pt := rfl
@[simp] theorem Kernel.setInode_dinode : (k.setInode i u).dinode = k.dinode := rfl
@[simp] theorem Kernel.setInode_ftable : (k.setInode i u).ftable = k.ftable := rfl
@[simp] theorem Kernel.setFile_pt : (k.setFile f v).pt = k.pt := rfl
@[simp] theorem Kernel.setFile_icache : (k.setFile f v).icache = k.icache := rfl
@[simp] theorem Kernel.setProc_icache : (k.setProc p w).icache = k.icache := rfl
@[simp] theorem Kernel.setProc_ftable : (k.setProc p w).ftable = k.ftable := rfl

@[simp] theorem Kernel.setFile_self : (k.setFile f v).ftable f = v (k.ftable f) := update_self ..

@[simp] theorem Kernel.setProc_self : (k.setProc p w).pt.proc p = w (k.pt.proc p) := by
  simp [setProc, PTable.modify_proc]

end Fields

variable {u : Unit} {r : Option File} {f : Inode → Inode}

theorem Kernel.logWrite_eq_ok {b : Word} (h : logWrite b k = .ok (u, k')) :
    ∃ lh, k' = { k with log := { k.log with lh := lh } } := by
  obtain ⟨l, hl, rfl⟩ := onLog_eq_ok.mp h
  obtain ⟨lh, rfl⟩ := Log.write_eq_ok hl
  exact ⟨lh, rfl⟩

namespace FsOp

theorem iget_eq_ok (h : iget.sem inum k = .ok (i, k')) : (0 < (k.icache i).ref ∧ (k.icache i).inum = inum ∧
      k' = k.setInode i fun ip => { ip with ref := ip.ref + 1 }) ∨
    ((k.icache i).ref = 0 ∧ (∀ j, 0 < (k.icache j).ref → (k.icache j).inum ≠ inum) ∧
      k' = k.setInode i fun ip => { ip with inum := inum, ref := 1, valid := false }) := by
  unfold iget.sem at h
  have h := get_bind h
  generalize hcached : find? _ _ = cached at h
  cases cached with
  | some =>
    cases h
    have hj := find?_some hcached
    simp only [decide_eq_true_eq] at hj
    exact .inl ⟨hj.1, hj.2, rfl⟩
  | none =>
    have hnone (j : InodeIdx) (hj : 0 < (k.icache j).ref) : (k.icache j).inum ≠ inum := by
      have hall := find?_eq_none.mp hcached j (mem_finRange j)
      simp only [decide_eq_true_eq, not_and] at hall
      exact hall hj
    dsimp only at h
    generalize hempty : find? _ _ = empty at h
    cases empty with
    | none => cases h
    | some =>
      cases h
      have hj := find?_some hempty
      simp only [decide_eq_true_eq] at hj
      exact .inr ⟨hj, hnone, rfl⟩

/-- While an entry is free, `iget` does not panic. -/
theorem iget_ok (h : (k.icache j).ref = 0) (inum : ℕ) : ∃ i k', iget.sem inum k = .ok (i, k') := by
  unfold iget.sem
  rw [bind_of_ok (get_apply k)]
  generalize find? _ _ = cached
  cases cached with
  | some i => exact ⟨i, _, rfl⟩
  | none =>
    generalize hempty : find? _ _ = empty
    cases empty with
    | some i => exact ⟨i, _, rfl⟩
    | none => exact absurd h (by simpa using find?_eq_none.mp hempty j (mem_finRange j))

theorem iget_eq_error (h : iget.sem inum k = .error e) : e = .panic "iget: no inodes" := by
  unfold iget.sem at h
  rw [bind_of_ok (get_apply k)] at h
  generalize find? _ _ = cached at h
  cases cached with
  | some => cases h
  | none =>
    dsimp only at h
    generalize find? _ _ = empty at h
    cases empty with
    | some => cases h
    | none => exact (Except.error.inj h).symm

variable {u : Unit} {v : InodeUpdate} {b : Word}

theorem ilock_eq_ok (h : ilock.sem p i k = .ok (u, k')) : 1 ≤ (k.icache i).ref ∧ (k.icache i).lock = none ∧
    (((k.icache i).valid = true ∧ k' = k.setInode i fun ip => { ip with lock := some p }) ∨
     ((k.icache i).valid = false ∧ (k.dinode (k.icache i).inum).type ≠ .free ∧
      k' = (k.setInode i fun ip =>
        { ip with lock := some p, valid := true, d := k.dinode (k.icache i).inum }).copied
          (.inodeUserid i) (k.dinode (k.icache i).inum).userid)) := by
  unfold ilock.sem at h
  have h := get_bind h
  dsimp only at h
  rw [Comp.ite_apply] at h
  split at h
  case isTrue => cases h
  case isFalse href =>
    rw [Comp.ite_apply] at h
    split at h
    case isTrue => cases h
    case isFalse hlock =>
      have hlock : (k.icache i).lock = none := by simpa using hlock
      refine ⟨by omega, hlock, ?_⟩
      rw [Comp.ite_apply] at h
      split at h
      case isTrue hvalid =>
        cases h
        exact .inl ⟨hvalid, rfl⟩
      case isFalse hvalid =>
        rw [Comp.ite_apply] at h
        split at h
        case isTrue => cases h
        case isFalse htype =>
          cases h
          exact .inr ⟨by simpa using hvalid, htype, rfl⟩

theorem ilock_ok (href : 1 ≤ (k.icache i).ref) (hlock : (k.icache i).lock = none)
    (hlive : (k.icache i).valid = false → (k.dinode (k.icache i).inum).type ≠ .free) :
    ∃ k', ilock.sem p i k = .ok ((), k') := by
  rw [ilock.sem, bind_of_ok (get_apply k)]
  dsimp only
  rw [if_neg (by omega), if_neg (by simp [hlock])]
  split
  case isTrue => exact ⟨_, rfl⟩
  case isFalse hvalid =>
    rw [if_neg (hlive (by simpa using hvalid))]
    exact ⟨_, rfl⟩

theorem iunlock_apply (p : Slot) (i : InodeIdx) (k : Kernel) : iunlock.sem p i k =
    if (k.icache i).lock ≠ some p ∨ (k.icache i).ref < 1 then .error (.panic "iunlock")
    else .ok ((), k.setInode i fun ip => { ip with lock := none }) := by
  simp only [iunlock.sem, bind_apply, get_apply, Comp.ite_apply]
  rfl

theorem iunlock_eq_ok (h : iunlock.sem p i k = .ok (u, k')) :
    k' = k.setInode i fun ip => { ip with lock := none } := by
  rw [iunlock_apply] at h
  split at h
  · cases h
  · cases h
    rfl

theorem iunlock_locked (h : iunlock.sem p i k = .ok (u, k')) : (k.icache i).lock = some p := by
  rw [iunlock_apply] at h
  split at h
  case isTrue => cases h
  case isFalse hne => exact not_not.mp (not_or.mp hne).1

theorem acquiresleep_eq_ok (h : acquiresleep.sem p i k = .ok (u, k')) :
    (k.icache i).lock = none ∧ k' = k.setInode i fun ip => { ip with lock := some p } := by
  unfold acquiresleep.sem at h
  have h := get_bind h
  rw [Comp.ite_apply] at h
  split at h
  case isTrue => cases h
  case isFalse hlock =>
    cases h
    exact ⟨by simpa using hlock, rfl⟩

/-- Up to the history of copies, an assignment changes the in-memory inode only. -/
theorem store_eq_ok (h : store.sem i v k = .ok (u, k')) :
    ∃ copies, k' = { k.setInode i fun ip => { ip with d := v.apply ip.d } with
      copies := copies } := by
  cases v with
  | _ =>
    cases h
    exact ⟨_, rfl⟩

theorem store_icache (h : store.sem i v k = .ok (u, k')) :
    k'.icache = (k.setInode i fun ip => { ip with d := v.apply ip.d }).icache := by
  obtain ⟨copies, rfl⟩ := store_eq_ok h
  rfl

theorem iupdate_eq_ok (h : iupdate.sem i k = .ok (u, k')) : ∃ lh, k' = copied { k with
        log := { k.log with lh := lh }
        dinode := update k.dinode (k.icache i).inum (k.icache i).d }
      (.dinodeUserid (k.icache i).inum) (k.icache i).d.userid := by
  unfold iupdate.sem at h
  have h := get_bind h
  obtain ⟨_, _, hlog, h⟩ := bind_eq_ok.mp h
  obtain ⟨lh, rfl⟩ := logWrite_eq_ok hlog
  cases h
  exact ⟨lh, rfl⟩

theorem ifree_eq_ok (h : ifree.sem i k = .ok (u, k')) : ∃ lh copies, k' =
      { k.setInode i fun ip => { ip with d := { ip.d with type := .free }, valid := false } with
        log := { k.log with lh := lh }
        dinode := update k.dinode (k.icache i).inum { (k.icache i).d with type := .free }
        copies := copies } := by
  obtain ⟨_, _, hset, h⟩ := bind_eq_ok.mp h
  cases hset
  obtain ⟨_, _, hupdate, h⟩ := bind_eq_ok.mp h
  obtain ⟨lh, rfl⟩ := iupdate_eq_ok hupdate
  cases h
  refine ⟨lh, k.copies ++ [(.dinodeUserid (k.icache i).inum, (k.icache i).d.userid)], ?_⟩
  simp only [setInode, copied, update_idem, update_self]

theorem claimInode_eq_ok {inum : ℕ} {type : InodeType} {ok : Bool}
    (h : claimInode.sem inum type k = .ok (ok, k')) : (ok = false ∧ k' = k) ∨
    (ok = true ∧ (k.dinode inum).type = .free ∧ ∃ lh, k' = copied { k with
        log := { k.log with lh := lh }
        dinode := update k.dinode inum
          { type := type, userid := system, mode := defaultMode type } }
      (.dinodeUserid inum) system) := by
  unfold claimInode.sem at h
  have h := get_bind h
  rw [Comp.ite_apply] at h
  split at h
  case isTrue hfree =>
    obtain ⟨_, _, hlog, h⟩ := bind_eq_ok.mp h
    obtain ⟨lh, rfl⟩ := logWrite_eq_ok hlog
    cases h
    exact .inr ⟨rfl, hfree, lh, rfl⟩
  case isFalse =>
    cases h
    exact .inl ⟨rfl, rfl⟩

theorem firstFree_eq_some {bitmap : ℕ → Bool} {size n b a : ℕ} (h : firstFree bitmap size n b = some a) :
    a < size ∧ bitmap a = false := by
  induction n generalizing b with
  | zero => cases h
  | succ n ih =>
    unfold firstFree at h
    split at h
    case isTrue hlt =>
      split at h
      · exact ih h
      case isFalse hb =>
        cases h
        exact ⟨hlt, by simpa using hb⟩
    case isFalse => cases h

theorem claimBlock_eq_ok {b : ℕ} {r : Option Word} (h : claimBlock.sem b k = .ok (r, k')) :
    (r = none ∧ k' = k) ∨ ∃ a lh, (a < k.sb.size ∧ k.bitmap a = false) ∧ r = some (BitVec.ofNat 32 a) ∧
      k' = { k with
        log := { k.log with lh := lh }
        bitmap := update k.bitmap a true } := by
  unfold claimBlock.sem at h
  have h := get_bind h
  generalize hfree : firstFree _ _ _ _ = found at h
  cases found with
  | none =>
    cases h
    exact .inl ⟨rfl, rfl⟩
  | some a =>
    obtain ⟨_, _, hlog, h⟩ := bind_eq_ok.mp h
    obtain ⟨lh, rfl⟩ := logWrite_eq_ok hlog
    cases h
    exact .inr ⟨a, lh, firstFree_eq_some hfree, rfl, rfl⟩

theorem bfree_eq_ok (h : bfree.sem b k = .ok (u, k')) : ∃ lh, k' = { k with
      log := { k.log with lh := lh }
      bitmap := update k.bitmap b.toNat false } := by
  unfold bfree.sem at h
  have h := get_bind h
  rw [Comp.ite_apply] at h
  split at h
  case isTrue =>
    obtain ⟨_, _, hlog, h⟩ := bind_eq_ok.mp h
    obtain ⟨lh, rfl⟩ := logWrite_eq_ok hlog
    cases h
    exact ⟨lh, rfl⟩
  case isFalse => cases h

theorem writeBlock_eq_ok {off : ℕ} {src : List UInt8} (h : writeBlock.sem b off src k = .ok (u, k')) :
    ∃ lh, k' = { k with
      log := { k.log with lh := lh }
      block := update k.block b (Mem.write (k.block b) off src) } := by
  obtain ⟨_, _, hlog, h⟩ := bind_eq_ok.mp h
  obtain ⟨lh, rfl⟩ := logWrite_eq_ok hlog
  cases h
  exact ⟨lh, rfl⟩

theorem bzero_eq_ok (h : bzero.sem b k = .ok (u, k')) : ∃ lh, k' = { k with
      log := { k.log with lh := lh }
      block := update k.block b fun _ => 0 } := by
  obtain ⟨_, _, hlog, h⟩ := bind_eq_ok.mp h
  obtain ⟨lh, rfl⟩ := logWrite_eq_ok hlog
  cases h
  exact ⟨lh, rfl⟩

theorem consoleread_eq_ok {n : ℕ} {r : ℤ × List UInt8} (h : consoleread.sem p n k = .ok (r, k')) :
    ∃ input, k' = { k with input := input } := by
  unfold consoleread.sem at h
  have h := get_bind h
  dsimp only at h
  rw [Comp.ite_apply] at h
  split at h
  · cases h
    exact ⟨_, rfl⟩
  · rw [Comp.ite_apply] at h
    split at h
    · cases h
      exact ⟨_, rfl⟩
    · cases h

end FsOp

namespace FileOp
variable {p : Slot} {f : FileIdx}

theorem filealloc_eq_ok {r : Option FileIdx} (h : filealloc.sem k = .ok (r, k')) :
    (r = none ∧ k' = k) ∨ ∃ f, r = some f ∧ (k.ftable f).ref = 0 ∧
      k' = k.setFile f fun f => { f with ref := 1 } := by
  unfold filealloc.sem at h
  have h := get_bind h
  generalize hfind : find? _ _ = found at h
  cases found with
  | none =>
    cases h
    exact .inl ⟨rfl, rfl⟩
  | some f =>
    cases h
    exact .inr ⟨f, rfl, by simpa using find?_some hfind, rfl⟩

theorem fileclose_eq_ok (h : fileclose.sem f k = .ok (r, k')) :
    1 ≤ (k.ftable f).ref ∧ (∀ ff, r = some ff → ff.type = (k.ftable f).type) ∧
      ∃ file : File, (file.ref = 0 → file.type = .none) ∧ k' = k.setFile f fun _ => file := by
  unfold fileclose.sem at h
  have h := get_bind h
  dsimp only at h
  rw [Comp.ite_apply] at h
  split at h
  case isTrue => cases h
  case isFalse href =>
    refine ⟨by omega, ?_⟩
    rw [Comp.ite_apply] at h
    split at h
    case isTrue hpos =>
      cases h
      exact ⟨fun _ hr => (Option.some_ne_none _ hr.symm).elim, _, fun h0 => absurd h0 hpos.ne', rfl⟩
    case isFalse =>
      cases h
      refine ⟨fun ff hr => ?_, _, fun _ => rfl, rfl⟩
      cases hr
      rfl

theorem fdalloc_eq_ok {r : Option (Fin NOFILE)} (h : fdalloc.sem p f k = .ok (r, k')) :
    (r = none ∧ k' = k) ∨ ∃ fd, r = some fd ∧
      k' = k.setProc p fun pr => { pr with ofile := update pr.ofile fd (some f) } := by
  unfold fdalloc.sem at h
  have h := get_bind h
  generalize find? _ _ = found at h
  cases found with
  | none =>
    cases h
    exact .inl ⟨rfl, rfl⟩
  | some fd =>
    cases h
    exact .inr ⟨fd, rfl, rfl⟩

theorem fdalloc_empty (h : fdalloc.sem p f k = .ok (some fd, k')) : (k.pt.proc p).ofile fd = none := by
  unfold fdalloc.sem at h
  have h := get_bind h
  generalize hfind : find? _ _ = found at h
  cases found with
  | none => cases h
  | some =>
    cases h
    simpa using find?_some hfind

/-- The count falls by one; the last reference closes the file, and the answer is the copy. -/
theorem fileclose_cases (h : fileclose.sem f k = .ok (r, k')) :
    (1 < (k.ftable f).ref ∧ r = none ∧ k' = k.setFile f fun ff => { ff with ref := ff.ref - 1 }) ∨
    ((k.ftable f).ref = 1 ∧ (∃ n, r = some { k.ftable f with ref := n }) ∧
      k' = k.setFile f fun ff => { ff with ref := 0, type := .none }) := by
  unfold fileclose.sem at h
  have h := get_bind h
  dsimp only at h
  rw [Comp.ite_apply] at h
  split at h
  case isTrue => cases h
  case isFalse href =>
    rw [Comp.ite_apply] at h
    split at h
    case isTrue hpos =>
      cases h
      exact .inl ⟨by omega, rfl, rfl⟩
    case isFalse hpos =>
      cases h
      have hone : (k.ftable f).ref = 1 := by omega
      refine .inr ⟨hone, ⟨_, rfl⟩, ?_⟩
      simp [setFile, hone]

theorem filedup_eq_ok (h : (filedup f).sem k = .ok (u, k')) :
    k' = k.setFile f fun ff => { ff with ref := ff.ref + 1 } := by
  change (do
    let k : Kernel ← Comp.get
    if (k.ftable f).ref < 1 then Comp.panic "filedup"
    else Comp.modify fun k : Kernel => k.setFile f fun ff => { ff with ref := ff.ref + 1 }) k = _ at h
  have h := get_bind h
  rw [Comp.ite_apply] at h
  split at h
  · cases h
  · cases h
    rfl

theorem fdalloc_ftable {r : Option (Fin NOFILE)} (h : fdalloc.sem p f k = .ok (r, k')) :
    k'.ftable = k.ftable := by
  rcases fdalloc_eq_ok h with ⟨-, rfl⟩ | ⟨fd, -, rfl⟩ <;> rfl

end FileOp

theorem UserOp.acquire_eq_ok (h : UserOp.acquire.sem k = .ok (u, k')) :
    k.utable.locked = false ∧ k' = k.setUtable fun t => { t with locked := true } := by
  change (if k.utable.locked then Comp.block
    else Comp.modify fun k : Kernel => k.setUtable fun t => { t with locked := true }) k = _ at h
  rw [Comp.ite_apply] at h
  split at h
  case isTrue => cases h
  case isFalse hlocked =>
    cases h
    exact ⟨by simpa using hlocked, rfl⟩

theorem UserOp.release_eq_ok (h : UserOp.release.sem k = .ok (u, k')) :
    k.utable.locked = true ∧ k' = k.setUtable fun t => { t with locked := false } := by
  change (if k.utable.locked then Comp.modify fun k : Kernel => k.setUtable fun t => { t with locked := false }
    else Comp.panic "release") k = _ at h
  rw [Comp.ite_apply] at h
  split at h
  case isTrue hlocked =>
    cases h
    exact ⟨hlocked, rfl⟩
  case isFalse => cases h

def Inode.bare (ip : Inode) : Inode := { ip with d := { ip.d with size := 0, addrs := fun _ => 0 } }

theorem Kernel.setInode_bare (hf : ∀ ip, (f ip).bare = ip.bare) (k : Kernel) (i j : InodeIdx) :
    ((k.setInode i f).icache j).bare = (k.icache j).bare := by
  rw [setInode_apply]
  split
  case isTrue hj =>
    subst hj
    exact hf _
  case isFalse => rfl

theorem contents_bare {o : Op} (ho : o.Contents) : Fixes (fun k j => (k.icache j).bare) o.sem := by
  intro k b k' h
  cases o with
  | panic => cases h
  | fs o =>
    cases o with
    | store i u =>
      obtain ⟨copies, rfl⟩ := store_eq_ok h
      funext j
      change ((k.setInode i fun ip => { ip with d := u.apply ip.d }).icache j).bare = _
      refine setInode_bare (fun ip => ?_) k i j
      cases u with
      | size | addr => rfl
      | _ => exact ho.elim
    | iupdate =>
      obtain ⟨lh, rfl⟩ := iupdate_eq_ok h
      rfl
    | claimBlock =>
      rcases claimBlock_eq_ok h with ⟨-, rfl⟩ | ⟨c, lh, -, -, rfl⟩ <;> rfl
    | bfree =>
      obtain ⟨lh, rfl⟩ := bfree_eq_ok h
      rfl
    | bzero =>
      obtain ⟨lh, rfl⟩ := bzero_eq_ok h
      rfl
    | writeBlock =>
      obtain ⟨lh, rfl⟩ := writeBlock_eq_ok h
      rfl
    | ref | inode | sb | readBlock =>
      cases h
      rfl
    | _ => exact ho.elim
  | _ => exact ho.elim

theorem contents_run_bare {α : Type} {x : KProg α} (hx : x.Uses Op.Contents) {a : α}
    (h : x.run Op.sem k = .ok (a, k')) (j : InodeIdx) : (k'.icache j).bare = (k.icache j).bare := by
  refine hx.run_rel (R := fun s t : Kernel => (t.icache j).bare = (s.icache j).bare) (fun _ => rfl)
    (fun _ _ _ h h' => h'.trans h) (fun o ho s b t hsem => ?_) h
  exact congrFun (contents_bare ho s b t hsem) j

/-- Which inode an entry of the cache is for, and the counts and locks that calls have on it. -/
def Inode.tag (ip : Inode) : ℕ × ℤ × Option Slot := (ip.inum, ip.ref, ip.lock)

def FsOp.Still : FsOp → Prop
  | iget _ => False
  | idup _ => False
  | ilock _ _ => False
  | iunlock _ _ => False
  | acquiresleep _ _ => False
  | releasesleep _ => False
  | dropRef _ => False
  | _ => True

theorem Kernel.setInode_tag (hf : ∀ ip, (f ip).tag = ip.tag) (k : Kernel) (i j : InodeIdx) :
    ((k.setInode i f).icache j).tag = (k.icache j).tag := by
  rw [setInode_apply]
  split
  case isTrue hj =>
    subst hj
    exact hf _
  case isFalse => rfl

theorem FsOp.Still.fixes {o : FsOp} (ho : o.Still) : Fixes (fun k j => (k.icache j).tag) o.sem := by
  intro k b k' h
  cases o with
  | store i u =>
    obtain ⟨copies, rfl⟩ := store_eq_ok h
    exact funext fun j => setInode_tag (f := fun ip => { ip with d := u.apply ip.d }) (fun _ => rfl) k i j
  | iupdate =>
    obtain ⟨lh, rfl⟩ := iupdate_eq_ok h
    rfl
  | ifree i =>
    obtain ⟨lh, copies, rfl⟩ := ifree_eq_ok h
    exact funext fun j => setInode_tag
      (f := fun ip => { ip with d := { ip.d with type := .free }, valid := false }) (fun _ => rfl) k i j
  | claimInode =>
    rcases claimInode_eq_ok h with ⟨-, rfl⟩ | ⟨-, -, lh, rfl⟩ <;> rfl
  | claimBlock =>
    rcases claimBlock_eq_ok h with ⟨-, rfl⟩ | ⟨c, lh, -, -, rfl⟩ <;> rfl
  | bfree =>
    obtain ⟨lh, rfl⟩ := bfree_eq_ok h
    rfl
  | bzero =>
    obtain ⟨lh, rfl⟩ := bzero_eq_ok h
    rfl
  | writeBlock =>
    obtain ⟨lh, rfl⟩ := writeBlock_eq_ok h
    rfl
  | consoleread =>
    obtain ⟨input, rfl⟩ := consoleread_eq_ok h
    rfl
  | iget | idup | ilock | iunlock | acquiresleep | releasesleep | dropRef => exact ho.elim
  | _ =>
    cases h
    rfl

theorem Kernel.setFile_apply (k : Kernel) (f f' : FileIdx) (u : File → File) :
    (k.setFile f u).ftable f' = if f' = f then u (k.ftable f) else k.ftable f' :=
  update_apply ..

theorem Kernel.setProc_apply (k : Kernel) (p q : Slot) (f : Proc → Proc) :
    (k.setProc p f).pt.proc q = if q = p then f (k.pt.proc p) else k.pt.proc q :=
  PTable.modify_proc ..

end Xv6
