import Xv6.Fs.Inode
import Xv6.Kernel.Outcome

/-! # Inodes as the kernel sees them

An inode is what its valid cache entry has, and what the disk has if there is none.
-/
namespace Xv6.Fs

variable {p : Slot} {k k' : Kernel} {i : InodeIdx}

/-- The contents of an inode as `ilock` shows them. -/
def seen (k : Kernel) (i : InodeIdx) : Dinode :=
  if (k.icache i).valid then (k.icache i).d else k.dinode (k.icache i).inum

theorem ilock_seen (h : (ilock p i).run Op.sem k = .ok (u, k')) : (k'.icache i).d = seen k i := by
  rw [ilock_run] at h
  unfold seen
  obtain ⟨-, -, ⟨hvalid, rfl⟩ | ⟨hvalid, -, rfl⟩⟩ := FsOp.ilock_eq_ok h
  · rw [if_pos hvalid]
    simp
  · rw [if_neg (by simp [hvalid])]
    simp [Kernel.copied]

/-- The cache entry of an inode, as `iget` finds it. -/
def cached (k : Kernel) (inum : ℕ) : Option InodeIdx :=
  FsOp.entries.find? fun i => 0 < (k.icache i).ref ∧ (k.icache i).inum = inum

/-- An inode as the next process to lock it sees it. -/
def node (k : Kernel) (inum : ℕ) : Dinode :=
  match cached k inum with
  | some i => seen k i
  | none => k.dinode inum

theorem iget_seen (h : (iget inum).run Op.sem k = .ok (i, k')) : seen k' i = node k inum := by
  rw [iget_run] at h
  unfold node cached
  have h := Comp.get_bind h
  generalize List.find? _ _ = found at h ⊢
  cases found with
  | some =>
    cases h
    simp [seen]
  | none =>
    dsimp only at h
    generalize List.find? _ _ = empty at h
    cases empty with
    | none => cases h
    | some =>
      cases h
      simp [seen]

end Xv6.Fs
