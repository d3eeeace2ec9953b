import Xv6.Fs.Usage
import Xv6.Kernel.Outcome

/-! # Runs and what a call holds

For a process that runs alone, the state of the kernel tells what its call holds: the
locks it has, and how far the counts are from where they were at the start.
-/
namespace Xv6
open Function Prog Kernel Multiset

/-- Since `k₀` the call of `p` has taken what it holds, and its process table entry, the
locks and the counts agree with that. -/
structure Accounts (p : Slot) (k₀ k : Kernel) (g : Usage) : Prop where
  table : k.utable.locked = g.table
  locks : ∀ i, (k.icache i).lock = some p ↔ g.locks i = true
  depth : k.log.outstanding = k₀.log.outstanding + g.depth
  refs : ∀ i, (k.icache i).ref + (if (k₀.pt.proc p).cwd = some i then 1 else 0) =
    (k₀.icache i).ref + g.refs.count i
  ptr : k.utable.ptr = g.ptr
  pt : k.pt = k₀.pt
  cwd : g.cwd = (k₀.pt.proc p).cwd

namespace Accounts
variable {p : Slot} {k₀ k k' : Kernel} {g : Usage} {i : InodeIdx}

def tally (k : Kernel) : (InodeIdx → Option Slot × ℤ) × Bool × Option InodeIdx × ℤ × PTable :=
  (fun i => ((k.icache i).lock, (k.icache i).ref), k.utable.locked, k.utable.ptr, k.log.outstanding, k.pt)

theorem of_tally (h : Accounts p k₀ k g) (hk : tally k' = tally k) : Accounts p k₀ k' g := by
  simp only [tally, Prod.mk.injEq] at hk
  obtain ⟨hicache, htable, hptr, hdepth, hpt⟩ := hk
  have hentry (j : InodeIdx) : (k'.icache j).lock = (k.icache j).lock ∧ (k'.icache j).ref = (k.icache j).ref :=
    Prod.mk.inj (congrFun hicache j)
  refine ⟨htable.trans h.table, fun j => ?_, hdepth.trans h.depth, fun j => ?_, hptr.trans h.ptr,
    hpt.trans h.pt, h.cwd⟩
  · rw [(hentry j).1]
    exact h.locks j
  · rw [(hentry j).2]
    exact h.refs j

variable {f : Inode → Inode} {m : Multiset InodeIdx} {o : FsOp}

section
variable (h : Accounts p k₀ k g)
include h

theorem setInode (hlock : (f (k.icache i)).lock = some p ↔ b = true)
    (href : (f (k.icache i)).ref + g.refs.count i = (k.icache i).ref + m.count i)
    (hm : ∀ j, j ≠ i → m.count j = g.refs.count j) :
    Accounts p k₀ (k.setInode i f) { g with locks := update g.locks i b, refs := m } := by
  refine ⟨h.table, fun j => ?_, h.depth, fun j => ?_, h.ptr, h.pt, h.cwd⟩
  all_goals by_cases hji : j = i
  · subst hji
    rw [setInode_self]
    dsimp only
    rw [update_self]
    exact hlock
  · rw [setInode_of_ne hji]
    dsimp only
    rw [update_of_ne hji]
    exact h.locks j
  · subst hji
    have href0 := h.refs j
    rw [setInode_self]
    dsimp only
    omega
  · rw [setInode_of_ne hji]
    dsimp only
    rw [hm j hji]
    exact h.refs j

theorem relock {f : Inode → Inode}
    (hlock : (f (k.icache i)).lock = some p ↔ b = true) (href : (f (k.icache i)).ref = (k.icache i).ref) :
    Accounts p k₀ (k.setInode i f) (g.setLock i b) :=
  h.setInode hlock (by rw [href]) fun _ _ => rfl

theorem reref (hlock : (f (k.icache i)).lock = (k.icache i).lock)
    (href : (f (k.icache i)).ref + g.refs.count i = (k.icache i).ref + m.count i)
    (hm : ∀ j, j ≠ i → m.count j = g.refs.count j) : Accounts p k₀ (k.setInode i f) { g with refs := m } := by
  have hset := h.setInode (b := g.locks i) (by rw [hlock]; exact h.locks i) href hm
  rw [update_eq_self] at hset
  exact hset

theorem moreRef (hlock : (f (k.icache i)).lock = (k.icache i).lock)
    (href : (f (k.icache i)).ref = (k.icache i).ref + 1) : Accounts p k₀ (k.setInode i f) (g.addRef i) := by
  refine h.reref hlock ?_ fun j hj => count_cons_of_ne hj _
  rw [href, count_cons_self]
  push_cast
  omega

theorem unlocked (hi : (k.icache i).lock = none) : g.locks i = false := by
  rw [← Bool.not_eq_true, ← h.locks i, hi]
  simp

theorem of_still (hsem : o.sem k = .ok (b, k')) (ho : o.Still) : Accounts p k₀ k' g := by
  have htag (j : InodeIdx) : (k'.icache j).tag = (k.icache j).tag := congrFun (ho.fixes k b k' hsem) j
  have hrest := FsBlind.sem (f := fun k => (k.utable, k.log.outstanding, k.pt))
    (by constructor <;> intros <;> rfl) o k b k' hsem
  simp only [Inode.tag, Prod.mk.injEq] at htag hrest
  refine h.of_tally ?_
  simp only [tally, htag, hrest]

theorem sound_fs (hallow : g.Allows p (.fs o))
    (ho : o.sem k = .ok (b, k')) : g.Answers (.fs o) b ∧ Accounts p k₀ k' (g.next (.fs o) b) := by
  cases o with
  | iget =>
    refine ⟨trivial, ?_⟩
    rcases FsOp.iget_eq_ok ho with ⟨-, -, rfl⟩ | ⟨hzero, -, rfl⟩
    · exact h.moreRef rfl rfl
    · exact h.moreRef rfl (by rw [hzero]; rfl)
  | idup =>
    cases ho
    exact ⟨trivial, h.moreRef rfl rfl⟩
  | ilock q i =>
    obtain rfl : q = p := hallow
    obtain ⟨-, hnone, hcase⟩ := FsOp.ilock_eq_ok ho
    refine ⟨h.unlocked hnone, ?_⟩
    rcases hcase with ⟨-, rfl⟩ | ⟨-, -, rfl⟩
    · exact h.relock (by simp) rfl
    · have hlock := h.relock (i := i) (b := true)
        (f := fun ip => { ip with lock := some q, valid := true, d := k.dinode (k.icache i).inum })
        (by simp) rfl
      exact hlock.of_tally rfl
  | iunlock q i =>
    obtain rfl : q = p := hallow
    have hlock := FsOp.iunlock_locked ho
    obtain rfl := FsOp.iunlock_eq_ok ho
    exact ⟨(h.locks i).mp hlock, h.relock (by simp) rfl⟩
  | acquiresleep q =>
    obtain rfl : q = p := hallow
    obtain ⟨hnone, rfl⟩ := FsOp.acquiresleep_eq_ok ho
    exact ⟨h.unlocked hnone, h.relock (by simp) rfl⟩
  | releasesleep =>
    cases ho
    exact ⟨trivial, h.relock (by simp) rfl⟩
  | dropRef i =>
    cases ho
    refine ⟨trivial, h.reref rfl ?_ fun j hj => count_erase_of_ne hj _⟩
    have hcount : 1 ≤ g.refs.count i := one_le_count_iff_mem.mpr hallow
    rw [count_erase_self]
    push_cast [hcount]
    omega
  | cwd q =>
    cases ho
    obtain rfl : q = p := hallow
    exact ⟨by rw [h.pt]; exact h.cwd.symm, h⟩
  | _ => exact ⟨trivial, h.of_still ho trivial⟩

theorem sound_log {o : LogOp} {b : o.Ans} (ho : o.sem k = .ok (b, k')) :
    Accounts p k₀ k' (g.next (.log o) b) := by
  cases o with
  | beginOp =>
    obtain ⟨l, hl, rfl⟩ := onLog_eq_ok.mp ho
    obtain ⟨-, rfl⟩ := Log.beginOp_eq_ok hl
    have hdepth := h.depth
    refine { h with depth := ?_ }
    change k.log.outstanding + 1 = k₀.log.outstanding + (g.depth + 1)
    omega
  | endOp =>
    obtain ⟨l, hl, rfl⟩ := onLog_eq_ok.mp ho
    obtain ⟨-, -, rfl⟩ := Log.endOp_eq_ok hl
    have hdepth := h.depth
    refine { h with depth := ?_ }
    change k.log.outstanding - 1 = k₀.log.outstanding + (g.depth - 1)
    omega
  | commit | endCommit =>
    cases ho
    exact h.of_tally rfl

theorem sound_user {o : UserOp} {b : o.Ans} (ho : o.sem k = .ok (b, k')) :
    g.Answers (.user o) b ∧ Accounts p k₀ k' (g.next (.user o) b) := by
  cases o with
  | acquire =>
    obtain ⟨hfree, rfl⟩ := UserOp.acquire_eq_ok ho
    exact ⟨h.table.symm.trans hfree, { h with table := rfl }⟩
  | release =>
    obtain ⟨-, rfl⟩ := UserOp.release_eq_ok ho
    exact ⟨trivial, { h with table := rfl }⟩
  | initlock =>
    cases ho
    exact ⟨trivial, { h with table := rfl }⟩
  | setPtr =>
    cases ho
    exact ⟨trivial, { h with ptr := rfl }⟩
  | _ =>
    cases ho
    exact ⟨trivial, h.of_tally rfl⟩

end

theorem sound (s : Kernel) (g : Usage) (o : Op) (b : o.Ans) (s' : Kernel) (h : Accounts p k₀ s g)
    (hallow : g.Allows p o) (ho : o.sem s = .ok (b, s')) : g.Answers o b ∧ Accounts p k₀ s' (g.next o b) := by
  cases o with
  | panic => cases ho
  | log => exact ⟨trivial, h.sound_log ho⟩
  | fs => exact h.sound_fs hallow ho
  | file => exact hallow.elim
  | proc o =>
    cases o with
    | proc =>
      cases ho
      exact ⟨trivial, h⟩
    | _ => exact hallow.elim
  | vm o => exact ⟨trivial, h.of_tally (VmOp.sem_fixes (f := tally) (fun _ _ => rfl) o s b s' ho)⟩
  | user => exact h.sound_user ho

theorem run {α : Type} {x : KProg α} {Q : α → Usage → Prop} {a : α} (h : Accounts p k₀ k g)
    (hx : x.Obeys (usage p) g Q) (hr : x.run Op.sem k = .ok (a, k')) : ∃ g', Q a g' ∧ Accounts p k₀ k' g' :=
  Obeys.run (P := usage p) (I := Accounts p k₀) sound hx h hr

theorem run_eq {α : Type} {x : KProg α} {a : α} {g' : Usage} (h : Accounts p k₀ k g)
    (hx : x.Obeys (usage p) g fun _ g1 => g1 = g') (hr : x.run Op.sem k = .ok (a, k')) : Accounts p k₀ k' g' := by
  obtain ⟨g1, rfl, h'⟩ := h.run hx hr
  exact h'

end Accounts
end Xv6
