import Mathlib.Algebra.BigOperators.Pi
import Xv6.Sys.Handover

/-! # Reference counts

In every interleaving of the calls that take and give back references, the counts of the
inode cache and of the file table are those of the holders.
-/
namespace Xv6.Sys
open Function Prog Fs Usage Kernel Comp Census Multiset Finset
open KProg hiding panic

/-- Where a process keeps its references. -/
def desk (pr : Proc) : (Fin NOFILE → Option FileIdx) × Option InodeIdx := (pr.ofile, pr.cwd)

section Desk
variable {k k' : Kernel}

theorem desk_exit (t : PTable) (p q : Slot) : desk ((t.exit p).proc q) = desk (t.proc q) := by
  unfold PTable.exit
  dsimp only
  have hzombie (t : PTable) : desk ((t.modify p fun pr => { pr with state := .zombie }).proc q) = desk (t.proc q) :=
    t.modify_unseen p q fun _ => rfl
  refine (hzombie _).trans ((PTable.reparent_unseen _ p q (fun _ _ => rfl) (fun _ _ => rfl) _).trans ?_)
  split
  · exact t.wakeup1_unseen q (fun _ _ => rfl) _
  · rfl

/-- Of the operations on processes, only `setCwd` moves a reference. -/
theorem proc_desk {t t' : PTable} (h : t.Step o b t') (ho : ∀ p i, o ≠ .setCwd p i)
    (q : Slot) : desk (t'.proc q) = desk (t.proc q) := by
  cases h with
  | setCwd p i => exact (ho p i rfl).elim
  | exit p => exact desk_exit t p q
  | alloc np mlfq ticks => exact t.modify_unseen np q (f := PTable.embryo mlfq ticks t.nextpid) fun _ => rfl
  | setKstack np f | abandon np | initChild np p pg userid => exact t.modify_unseen np q fun _ => rfl
  | setName p => exact t.modify_unseen p q fun _ => rfl
  | publish np => exact t.modify_unseen np q fun _ => rfl
  | reap p r => exact t.modify_unseen r q fun _ => rfl
  | setImage p pg sz eip esp | growproc p n hsz
  | getadmin p => exact t.modify_unseen p q fun _ => rfl
  | setLimit p r pid limit hlimit | kill pid r hr => exact t.modify_unseen r q fun _ => rfl
  | _ => rfl

end Desk

section Totals
variable (k : Kernel) (γ : Slot → Holdings)

/-- The references to files of a slot: those of its call, or those of its descriptors. -/
def filesOf (q : Slot) : Multiset FileIdx :=
  if (γ q).kin.alive = true then (γ q).files else openFds (k.pt.proc q).ofile

def refsOf (q : Slot) : Multiset InodeIdx :=
  if (γ q).kin.alive = true then (γ q).usage.refs else one (k.pt.proc q).cwd

def fileTotal : Multiset FileIdx := ∑ q, filesOf k γ q

/-- The references of open files, of `utable.ptr` and of the slots. -/
def inodeTotal : Multiset InodeIdx :=
  ∑ f, Holdings.named (k.ftable f) + one k.utable.ptr + ∑ q, refsOf k γ q

/-- Both kinds at once: what a call has in its hands, what lies on a desk, and what a slot has. -/
def hand (g : Holdings) : Multiset FileIdx × Multiset InodeIdx := (g.files, g.usage.refs)

def held (d : (Fin NOFILE → Option FileIdx) × Option InodeIdx) : Multiset FileIdx × Multiset InodeIdx := (openFds d.1, one d.2)

def heldOf (q : Slot) : Multiset FileIdx × Multiset InodeIdx :=
  if (γ q).kin.alive = true then hand (γ q) else held (desk (k.pt.proc q))

theorem heldOf_eq (q : Slot) : heldOf k γ q = (filesOf k γ q, refsOf k γ q) := by
  unfold heldOf filesOf refsOf
  split <;> rfl

theorem sum_heldOf : ∑ q, heldOf k γ q = (fileTotal k γ, ∑ q, refsOf k γ q) := by
  rw [sum_congr rfl fun q _ => heldOf_eq k γ q]
  exact Prod.ext (Prod.fst_sum ..) (Prod.snd_sum ..)

end Totals

/-- A call knows what its process has, what it has locked, what it has given to the child,
and that a file which it has not opened yet is its own. -/
structure Knows (k : Kernel) (q : Slot) (g : Holdings) : Prop where
  own : g.kin.alive = true → desk (k.pt.proc q) = (g.fds, g.usage.cwd)
  locks : g.kin.alive = true → ∀ i, (k.icache i).lock = some q ↔ g.usage.locks i = true
  child : ∀ np, g.kin.child = some np → desk (k.pt.proc np) = (g.childFds, g.childCwd)
  fresh : ∀ f, g.kin.alive = true → g.fresh = some f →
    f ∈ g.files ∧ (k.ftable f).ref = 1 ∧ (k.ftable f).type = .none

/-- The counts are those of the holders. -/
structure Counted (k : Kernel) (γ : Slot → Holdings) : Prop where
  files : ∀ f, (k.ftable f).ref = (fileTotal k γ).count f
  refs : ∀ i, (k.icache i).ref = (inodeTotal k γ).count i
  knows : ∀ q, Knows k q (γ q)
  closed : ∀ f, (k.ftable f).ref = 0 → (k.ftable f).type = .none
  bare : ∀ q, lifeOf (k.pt.proc q).state = .unused ∨ lifeOf (k.pt.proc q).state = .zombie →
    desk (k.pt.proc q) = (fun _ => none, none)
  unique : ∀ i j, 0 < (k.icache i).ref → 0 < (k.icache j).ref → (k.icache i).inum = (k.icache j).inum → i = j

def rest (k : Kernel) : PTable × (FileIdx → File) × UTable × (InodeIdx → Inode) := (k.pt, k.ftable, k.utable, k.icache)

namespace Counted
variable {k k' : Kernel} {γ : Slot → Holdings} {p : Slot} {g : Holdings} {q : Slot} {f : FileIdx} {i : InodeIdx} {o : FsOp}
  {m : Multiset FileIdx} {r : Multiset InodeIdx} {w : Proc → Proc} {c : Fin NOFILE → Option FileIdx} {d : Option InodeIdx}
  {κ : Kinship}

/-- Only what the calls of one process have in their hands changes. -/
theorem heldOf_of_ne (hpt : k'.pt.proc q = k.pt.proc q) (hq : q ≠ p) : heldOf k' (update γ p g) q = heldOf k γ q := by
  rw [heldOf, heldOf, update_of_ne hq, hpt]

theorem heldOf_self (hg : g.kin.alive = true) : heldOf k (update γ p g) p = hand g := by
  rw [heldOf, update_self, if_pos hg]

theorem sum_update (hpt : k'.pt = k.pt) (halive : (γ p).kin.alive = true) (hg : g.kin.alive = true) :
    ∑ q, heldOf k' (update γ p g) q + hand (γ p) = ∑ q, heldOf k γ q + hand g := by
  have hsum := sum_of_ne (f := heldOf k γ) (g := heldOf k' (update γ p g)) fun q hq => heldOf_of_ne (by rw [hpt]) hq
  rw [heldOf_self hg, show heldOf k γ p = hand (γ p) from if_pos halive] at hsum
  exact hsum

theorem sum_same (hself : heldOf k' (update γ p g) p = heldOf k γ p) (hpt : ∀ q, q ≠ p → k'.pt.proc q = k.pt.proc q) :
    ∑ q, heldOf k' (update γ p g) q = ∑ q, heldOf k γ q := by
  refine sum_congr rfl fun q _ => ?_
  by_cases hq : q = p
  · rw [hq, hself]
  · exact heldOf_of_ne (hpt q hq) hq

theorem totals_update (hpt : k'.pt = k.pt) (halive : (γ p).kin.alive = true) (hg : g.kin.alive = true) :
    fileTotal k' (update γ p g) + (γ p).files = fileTotal k γ + g.files ∧
      ∑ q, refsOf k' (update γ p g) q + (γ p).usage.refs = ∑ q, refsOf k γ q + g.usage.refs := by
  have hsum := sum_update hpt halive hg
  rw [sum_heldOf, sum_heldOf] at hsum
  exact Prod.mk.inj hsum

theorem inodeTotal_update (hpt : k'.pt = k.pt) (hftable : k'.ftable = k.ftable) (hutable : k'.utable = k.utable)
    (halive : (γ p).kin.alive = true) (hg : g.kin.alive = true) :
    inodeTotal k' (update γ p g) + (γ p).usage.refs = inodeTotal k γ + g.usage.refs := by
  rw [inodeTotal, inodeTotal, hftable, hutable, add_assoc, (totals_update hpt halive hg).2, ← add_assoc]

theorem mem_total (halive : (γ p).kin.alive = true) (hf : f ∈ (γ p).files) : f ∈ fileTotal k γ := by
  refine mem_sum.mpr ⟨p, mem_univ p, ?_⟩
  rwa [filesOf, if_pos halive]

theorem fresh_other (h : Counted k γ) (halive : (γ p).kin.alive = true) (hf : f ∈ (γ p).files) (hq : q ≠ p) (hqalive : (γ q).kin.alive = true) : (γ q).fresh ≠ some f := by
  intro hfresh
  obtain ⟨hmem, hone, -⟩ := (h.knows q).fresh f hqalive hfresh
  have hcount := h.files f
  rw [hone, fileTotal, ← add_sum_erase _ _ (mem_univ p), count_add, filesOf, if_pos halive] at hcount
  have hrest : f ∈ ∑ r ∈ univ.erase p, filesOf k γ r := by
    refine mem_sum.mpr ⟨q, mem_erase.mpr ⟨hq, mem_univ q⟩, ?_⟩
    rwa [filesOf, if_pos hqalive]
  have hp := one_le_count_iff_mem.mpr hf
  have hq' := one_le_count_iff_mem.mpr hrest
  omega

theorem knows_update (hp : Knows k p g) (hother : ∀ q, q ≠ p → Knows k q (γ q)) (q : Slot) :
    Knows k q (update γ p g q) :=
  (Function.forall_update_iff γ (p := fun q g => Knows k q g)).mpr ⟨hp, hother⟩ q

theorem setInode (h : Counted k γ) (halive : (γ p).kin.alive = true) {f : Inode → Inode}
    (hcwd : u.cwd = (γ p).usage.cwd)
    (href : (f (k.icache i)).ref + (γ p).usage.refs.count i = (k.icache i).ref + u.refs.count i)
    (hrefs : ∀ j, j ≠ i → u.refs.count j = (γ p).usage.refs.count j)
    (hlock : (f (k.icache i)).lock = some p ↔ u.locks i = true)
    (hlocks : ∀ j, j ≠ i → u.locks j = (γ p).usage.locks j)
    (hother : ∀ q, q ≠ p → ((f (k.icache i)).lock = some q ↔ (k.icache i).lock = some q))
    (hunique : 0 < (f (k.icache i)).ref → ∀ j, j ≠ i → 0 < (k.icache j).ref →
      (f (k.icache i)).inum ≠ (k.icache j).inum) : Counted (k.setInode i f) (update γ p ((γ p).use u)) := by
  have hfile := (totals_update (g := (γ p).use u) (show (k.setInode i f).pt = k.pt from rfl) halive halive).1
  have hinode := inodeTotal_update (g := (γ p).use u) (show (k.setInode i f).pt = k.pt from rfl) rfl rfl halive halive
  have hp := h.knows p
  refine ⟨fun f' => ?_, fun j => ?_, knows_update ⟨fun ha => ?_, fun ha j => ?_, hp.child, hp.fresh⟩ fun q hq => ?_,
    h.closed, h.bare, fun j j' hj hj' heq => ?_⟩
  · rw [add_right_cancel hfile]
    exact h.files f'
  · have hcount := congrArg (count j) hinode
    rw [count_add, count_add] at hcount
    change _ = (inodeTotal k γ).count j + u.refs.count j at hcount
    have hold := h.refs j
    by_cases hj : j = i
    · subst hj
      rw [setInode_self]
      omega
    · rw [setInode_of_ne hj, hold]
      have hsame := hrefs j hj
      omega
  · change desk (k.pt.proc p) = ((γ p).fds, u.cwd)
    rw [hcwd]
    exact hp.own ha
  · exact forall_update (P := fun j (ip : Inode) => ip.lock = some p ↔ u.locks j = true)
      (fun j hj => (hp.locks ha j).trans (by rw [hlocks j hj])) hlock j
  · refine { h.knows q with locks := fun ha => ?_ }
    exact forall_update (P := fun j (ip : Inode) => ip.lock = some q ↔ (γ q).usage.locks j = true)
      (fun j _ => (h.knows q).locks ha j) ((hother q hq).trans ((h.knows q).locks ha i))
  · exact distinct_update (A := fun ip : Inode => 0 < ip.ref) (K := Inode.inum) h.unique hunique j j' hj hj' heq

theorem of_same (h : Counted k γ) (hpt : k'.pt = k.pt) (hftable : k'.ftable = k.ftable) (hutable : k'.utable = k.utable)
    (htag : ∀ j, (k'.icache j).tag = (k.icache j).tag) : Counted k' γ := by
  simp only [Inode.tag, Prod.mk.injEq] at htag
  have hfiles : fileTotal k' γ = fileTotal k γ := by simp only [fileTotal, filesOf, hpt]
  have hinodes : inodeTotal k' γ = inodeTotal k γ := by simp only [inodeTotal, refsOf, hpt, hftable, hutable]
  refine ⟨fun f => ?_, fun i => ?_, fun q => ⟨?_, fun ha i => ?_, ?_, ?_⟩, ?_, ?_, fun i j hi hj heq => ?_⟩
  · rw [hftable, hfiles]
    exact h.files f
  · rw [(htag i).2.1, hinodes]
    exact h.refs i
  · rw [hpt]
    exact (h.knows q).own
  · rw [(htag i).2.2]
    exact (h.knows q).locks ha i
  · rw [hpt]
    exact (h.knows q).child
  · rw [hftable]
    exact (h.knows q).fresh
  · rw [hftable]
    exact h.closed
  · rw [hpt]
    exact h.bare
  · rw [(htag i).2.1] at hi
    rw [(htag j).2.1] at hj
    rw [(htag i).1, (htag j).1] at heq
    exact h.unique i j hi hj heq

theorem of_fixes (h : Counted k γ) {α : Type} {x : Comp Kernel α} {b : α} (ho : x k = .ok (b, k'))
    (hx : Fixes rest x) : Counted k' γ := by
  have hrest := hx k b k' ho
  simp only [rest, Prod.mk.injEq] at hrest
  obtain ⟨hpt, hftable, hutable, hicache⟩ := hrest
  exact h.of_same hpt hftable hutable fun j => by rw [hicache]

section
variable (h : Counted k γ) (halive : (γ p).kin.alive = true)
include h halive

theorem relock {f : Inode → Inode}
    (hsame : ((f (k.icache i)).inum, (f (k.icache i)).ref) = ((k.icache i).inum, (k.icache i).ref))
    (hlock : (f (k.icache i)).lock = some p ↔ b = true)
    (hother : ∀ q, q ≠ p → ((f (k.icache i)).lock = some q ↔ (k.icache i).lock = some q)) :
    Counted (k.setInode i f) (update γ p ((γ p).use ((γ p).usage.setLock i b))) := by
  obtain ⟨hinum, href⟩ := Prod.mk.inj hsame
  refine h.setInode halive rfl (congrArg (· + _) href) (fun _ _ => rfl) ?_ (fun j hj => setLock_of_ne hj b) hother ?_
  · rw [Usage.setLock_locks]
    exact hlock
  · rw [href, hinum]
    exact fun hi j hj hpos heq => hj (h.unique j i hpos hi heq.symm)

theorem reref {f : Inode → Inode} {m : Multiset InodeIdx} (hlock : (f (k.icache i)).lock = (k.icache i).lock)
    (href : (f (k.icache i)).ref + (γ p).usage.refs.count i = (k.icache i).ref + m.count i)
    (hrefs : ∀ j, j ≠ i → m.count j = (γ p).usage.refs.count j)
    (hunique : 0 < (f (k.icache i)).ref → ∀ j, j ≠ i → 0 < (k.icache j).ref →
      (f (k.icache i)).inum ≠ (k.icache j).inum) :
    Counted (k.setInode i f) (update γ p ((γ p).withRefs m)) := by
  refine h.setInode halive rfl href hrefs ?_ (fun _ _ => rfl) (fun q _ => by rw [hlock]) hunique
  rw [hlock]
  exact (h.knows p).locks halive i

theorem ref_pos (hi : i ∈ (γ p).usage.refs) : 0 < (k.icache i).ref := by
  have hmem : i ∈ inodeTotal k γ := by
    refine mem_add.mpr (Or.inr (mem_sum.mpr ⟨p, mem_univ p, ?_⟩))
    rwa [refsOf, if_pos halive]
  have hcount := one_le_count_iff_mem.mpr hmem
  have href := h.refs i
  omega

theorem moreRef {f : Inode → Inode}
    (hlock : (f (k.icache i)).lock = (k.icache i).lock) (href : (f (k.icache i)).ref = (k.icache i).ref + 1)
    (hunique : ∀ j, j ≠ i → 0 < (k.icache j).ref → (f (k.icache i)).inum ≠ (k.icache j).inum) :
    Counted (k.setInode i f) (update γ p ((γ p).use ((γ p).usage.addRef i))) := by
  refine h.reref (m := i ::ₘ (γ p).usage.refs) halive hlock ?_ (fun j hj => count_cons_of_ne hj _)
    fun _ => hunique
  rw [href, count_cons_self]
  push_cast
  omega

theorem unlocked (hi : (k.icache i).lock = none) : (γ p).usage.locks i = false := by
  rw [← Bool.not_eq_true, ← (h.knows p).locks halive i, hi]
  simp

end

section
variable (h : Counted k γ)
include h

theorem of_still (hsem : o.sem k = .ok (b, k')) (ho : o.Still) : Counted k' γ := by
  have hrest := FsBlind.sem (f := fun k => (k.pt, k.ftable, k.utable)) (by constructor <;> intros <;> rfl) o k b k' hsem
  simp only [Prod.mk.injEq] at hrest
  exact h.of_same hrest.1 hrest.2.1 hrest.2.2 fun j => congrFun (ho.fixes k b k' hsem) j

theorem of_eq (hg : g = γ p) : Counted k (update γ p g) := by
  rw [hg, update_eq_self]
  exact h

theorem sound_fs (hself : (γ p).kin.self = p) {b : o.Ans} (hallow : (γ p).Allows (.fs o))
    (ho : o.sem k = .ok (b, k')) :
    (γ p).Learns (.fs o) b ∧ Counted k' (update γ p ((γ p).next (.fs o) b)) := by
  obtain ⟨halive, -, hgrant⟩ := hallow
  change (γ p).usage.Allows (γ p).kin.self (.fs o) at hgrant
  rw [hself] at hgrant
  have hsame (i j : InodeIdx) (hi : 0 < (k.icache i).ref) (hj : j ≠ i) (hpos : 0 < (k.icache j).ref) :
      (k.icache i).inum ≠ (k.icache j).inum := fun heq => hj (h.unique j i hpos hi heq.symm)
  have hfree {i : InodeIdx} {q r : Slot} (hnone : (k.icache i).lock = none) (hr : r ≠ q) :
      some q = some r ↔ (k.icache i).lock = some r := by
    rw [hnone]
    simp [Ne.symm hr]
  cases o with
  | iget =>
    refine ⟨trivial, ?_⟩
    rcases FsOp.iget_eq_ok ho with ⟨hpos, -, rfl⟩ | ⟨hzero, hnew, rfl⟩
    · exact h.moreRef halive rfl rfl (hsame b · hpos)
    · exact h.moreRef halive rfl (by rw [hzero]; rfl) fun j _ hpos heq => hnew j hpos heq.symm
  | idup i =>
    cases ho
    exact ⟨trivial, h.moreRef halive rfl rfl (hsame i · (h.ref_pos halive hgrant))⟩
  | dropRef i =>
    cases ho
    have hcount : 1 ≤ (γ p).usage.refs.count i := one_le_count_iff_mem.mpr hgrant
    refine ⟨trivial, h.reref (m := (γ p).usage.refs.erase i) halive rfl ?_
      (fun j hj => count_erase_of_ne hj _) fun _ => (hsame i · (h.ref_pos halive hgrant))⟩
    rw [count_erase_self]
    push_cast [hcount]
    omega
  | ilock q i =>
    obtain rfl : q = p := hgrant
    obtain ⟨-, hnone, hcase⟩ := FsOp.ilock_eq_ok ho
    refine ⟨h.unlocked halive hnone, ?_⟩
    rcases hcase with ⟨-, rfl⟩ | ⟨-, -, rfl⟩
    · exact h.relock halive rfl (by simp) fun r hr => hfree hnone hr
    · have hlock := h.relock (i := i) (b := true) halive
        (f := fun ip => { ip with lock := some q, valid := true, d := k.dinode (k.icache i).inum })
        rfl (by simp) fun r hr => hfree hnone hr
      exact hlock.of_same rfl rfl rfl fun _ => rfl
  | acquiresleep q =>
    obtain rfl : q = p := hgrant
    obtain ⟨hnone, rfl⟩ := FsOp.acquiresleep_eq_ok ho
    exact ⟨h.unlocked halive hnone, h.relock halive rfl (by simp) fun r hr => hfree hnone hr⟩
  | iunlock q i =>
    obtain rfl : q = p := hgrant
    have hlock := FsOp.iunlock_locked ho
    obtain rfl := FsOp.iunlock_eq_ok ho
    refine ⟨((h.knows q).locks halive i).mp hlock, h.relock halive rfl (by simp) fun r hr => ?_⟩
    rw [hlock]
    simp [Ne.symm hr]
  | releasesleep i =>
    cases ho
    have hlock := ((h.knows p).locks halive i).mpr hgrant
    refine ⟨trivial, h.relock halive rfl (by simp) fun r hr => ?_⟩
    rw [hlock]
    simp [Ne.symm hr]
  | cwd q =>
    cases ho
    obtain rfl : q = p := hgrant
    exact ⟨(Prod.mk.inj ((h.knows q).own halive)).2, h.of_eq rfl⟩
  | _ => exact ⟨trivial, (h.of_still ho trivial).of_eq rfl⟩

theorem setFile (halive : (γ p).kin.alive = true) {v : File → File} {o : Option FileIdx}
    (href : (v (k.ftable f)).ref + (γ p).files.count f = (k.ftable f).ref + m.count f)
    (hfiles : ∀ f', f' ≠ f → m.count f' = (γ p).files.count f')
    (hnamed : Holdings.named (v (k.ftable f)) + r = Holdings.named (k.ftable f) + (γ p).usage.refs)
    (hclosed : (v (k.ftable f)).ref = 0 → (v (k.ftable f)).type = .none) (hfresh : ∀ f', o = some f' →
      f' ∈ m ∧ ((k.setFile f v).ftable f').ref = 1 ∧ ((k.setFile f v).ftable f').type = .none)
    (hother : ∀ q, q ≠ p → (γ q).kin.alive = true → (γ q).fresh ≠ some f) :
    Counted (k.setFile f v) (update γ p { (γ p).withRefs r with files := m, fresh := o }) := by
  obtain ⟨hfile, hslots⟩ := totals_update (g := { (γ p).withRefs r with files := m, fresh := o })
    (show (k.setFile f v).pt = k.pt from rfl) halive halive
  have hself : (k.setFile f v).ftable f = v (k.ftable f) := setFile_self ..
  have hne {f' : FileIdx} (hf : f' ≠ f) : (k.setFile f v).ftable f' = k.ftable f' := update_of_ne hf ..
  have hopen := sum_of_ne (f := fun f' => Holdings.named (k.ftable f'))
    (g := fun f' => Holdings.named ((k.setFile f v).ftable f')) (p := f) fun f' hf => by rw [hne hf]
  rw [hself] at hopen
  have hp := h.knows p
  refine ⟨fun f' => ?_, fun i => ?_, knows_update ⟨hp.own, hp.locks, hp.child, fun f' _ hf => hfresh f' hf⟩ fun q hq => ?_,
    fun f' hf => ?_, h.bare, h.unique⟩
  · have hcount := congrArg (count f') hfile
    rw [count_add, count_add] at hcount
    change _ = (fileTotal k γ).count f' + m.count f' at hcount
    have hold := h.files f'
    by_cases hf : f' = f
    · subst hf
      rw [hself]
      omega
    · rw [hne hf, hold]
      have hsame := hfiles f' hf
      omega
  · have hopen := congrArg (count i) hopen
    have hslots := congrArg (count i) hslots
    have hnamed := congrArg (count i) hnamed
    have hold := h.refs i
    rw [inodeTotal] at hold ⊢
    simp only [count_add] at hopen hslots hnamed hold ⊢
    change _ = _ + r.count i at hslots
    change (k.icache i).ref = ((_ + count i (one k.utable.ptr) + _ : ℕ) : ℤ)
    omega
  · refine { h.knows q with fresh := fun f' ha hf => ?_ }
    have hf' : f' ≠ f := by
      rintro rfl
      exact hother q hq ha hf
    rw [hne hf']
    exact (h.knows q).fresh f' ha hf
  · by_cases hff : f' = f
    · subst hff
      rw [hself] at hf ⊢
      exact hclosed hf
    · rw [hne hff] at hf ⊢
      exact h.closed f' hf

theorem of_totals {γ' : Slot → Holdings} (hftable : k'.ftable = k.ftable)
    (hutable : k'.utable = k.utable) (hicache : k'.icache = k.icache) (hheld : ∑ q, heldOf k' γ' q = ∑ q, heldOf k γ q) (hknows : ∀ q, Knows k' q (γ' q))
    (hbare : ∀ q, lifeOf (k'.pt.proc q).state = .unused ∨ lifeOf (k'.pt.proc q).state = .zombie →
      desk (k'.pt.proc q) = (fun _ => none, none)) : Counted k' γ' := by
  rw [sum_heldOf, sum_heldOf] at hheld
  obtain ⟨hfiles, hrefs⟩ := Prod.mk.inj hheld
  refine ⟨fun f => ?_, fun i => ?_, hknows, ?_, hbare, ?_⟩
  · rw [hftable, hfiles]
    exact h.files f
  · rw [hicache, inodeTotal, hftable, hutable, hrefs]
    exact h.refs i
  · rw [hftable]
    exact h.closed
  · rw [hicache]
    exact h.unique

theorem ownDesk (halive : (γ p).kin.alive = true) (hactive : lifeOf (k.pt.proc p).state = .active)
    (hchild : ∀ q, (γ q).kin.child ≠ some p)
    (hdesk : desk (w (k.pt.proc p)) = (c, d)) (hlife : (w (k.pt.proc p)).state = (k.pt.proc p).state) :
    Counted (k.setProc p w) (update γ p { γ p with fds := c, usage := { (γ p).usage with cwd := d } }) := by
  have hself : (k.setProc p w).pt.proc p = w (k.pt.proc p) := setProc_self ..
  have hne {q : Slot} (hq : q ≠ p) : (k.setProc p w).pt.proc q = k.pt.proc q := by rw [setProc_apply, if_neg hq]
  have hp := h.knows p
  have hnp (q np : Slot) (hnp : (γ q).kin.child = some np) : np ≠ p := by
    rintro rfl
    exact hchild q hnp
  refine h.of_totals rfl rfl rfl (sum_same ?_ fun q hq => hne hq)
    (knows_update ⟨fun _ => ?_, hp.locks, fun np hcp => ?_, hp.fresh⟩ fun q hq =>
      ⟨fun ha => ?_, (h.knows q).locks, fun np hcp => ?_, (h.knows q).fresh⟩) fun q hq => ?_
  · rw [heldOf_self (g := { γ p with fds := c, usage := { (γ p).usage with cwd := d } }) halive]
    exact (if_pos halive).symm
  · rw [hself]
    exact hdesk
  · rw [hne (hnp p np hcp)]
    exact hp.child np hcp
  · rw [hne hq]
    exact (h.knows q).own ha
  · rw [hne (hnp q np hcp)]
    exact (h.knows q).child np hcp
  · by_cases hqp : q = p
    · subst hqp
      rw [hself, hlife, hactive] at hq
      rcases hq with hq | hq <;> cases hq
    · rw [hne hqp] at hq ⊢
      exact h.bare q hq

theorem childDesk {np : Slot} (halive : (γ p).kin.alive = true) (hcp : (γ p).kin.child = some np)
    (hnot : (γ np).kin.alive ≠ true) (hembryo : lifeOf (k.pt.proc np).state = .embryo)
    (hdistinct : ∀ q, (γ q).kin.child = some np → q = p) (hdesk : desk (w (k.pt.proc np)) = (c, d))
    (hlife : (w (k.pt.proc np)).state = (k.pt.proc np).state)
    (hfiles : m + openFds c = (γ p).files + openFds (γ p).childFds)
    (hrefs : r + one d = (γ p).usage.refs + one (γ p).childCwd) (hfresh : ∀ f, (γ p).fresh = some f → f ∈ m) :
    Counted (k.setProc np w) (update γ p { (γ p).withRefs r with files := m, childFds := c, childCwd := d }) := by
  have hself : (k.setProc np w).pt.proc np = w (k.pt.proc np) := setProc_self ..
  have hne {q : Slot} (hq : q ≠ np) : (k.setProc np w).pt.proc q = k.pt.proc q := by rw [setProc_apply, if_neg hq]
  have hnp : np ≠ p := by
    rintro rfl
    exact hnot halive
  have hp := h.knows p
  have hsum := sum_of_ne_pair (f := heldOf k γ) (g := heldOf (k.setProc np w)
    (update γ p { (γ p).withRefs r with files := m, childFds := c, childCwd := d })) hnp.symm fun q hq hq' => heldOf_of_ne (hne hq') hq
  have hpair : hand { (γ p).withRefs r with files := m, childFds := c, childCwd := d } + held (c, d) =
      hand (γ p) + held ((γ p).childFds, (γ p).childCwd) := Prod.ext hfiles hrefs
  rw [heldOf_self (g := { (γ p).withRefs r with files := m, childFds := c, childCwd := d }) halive,
    show heldOf k γ p = hand (γ p) from if_pos halive, heldOf, heldOf, update_of_ne hnp, if_neg hnot,
    if_neg hnot, hself, hdesk, hp.child np hcp, hpair] at hsum
  refine h.of_totals rfl rfl rfl (add_right_cancel hsum)
    (knows_update ⟨fun ha => ?_, hp.locks, fun np' hcp' => ?_, fun f ha hf => ⟨hfresh f hf, (hp.fresh f ha hf).2⟩⟩
      fun q hq => ⟨fun ha => ?_, (h.knows q).locks, fun np' hcp' => ?_, (h.knows q).fresh⟩) fun q hq => ?_
  · rw [hne hnp.symm]
    exact hp.own ha
  · obtain rfl : np = np' := Option.some.inj (hcp.symm.trans hcp')
    rw [hself]
    exact hdesk
  · have hqnp : q ≠ np := by
      rintro rfl
      exact hnot ha
    rw [hne hqnp]
    exact (h.knows q).own ha
  · have hnp' : np' ≠ np := by
      rintro rfl
      exact hq (hdistinct q hcp')
    rw [hne hnp']
    exact (h.knows q).child np' hcp'
  · by_cases hqnp : q = np
    · subst hqnp
      rw [hself, hlife, hembryo] at hq
      rcases hq with hq | hq <;> cases hq
    · rw [hne hqnp] at hq ⊢
      exact h.bare q hq

end

theorem sound_file (ht : Threads (census k.pt) fun q => (γ q).kin) (h : Counted k γ) {o : FileOp} {b : o.Ans}
    (hallow : (γ p).Allows (.file o)) (ho : o.sem k = .ok (b, k')) :
    (γ p).Learns (.file o) b ∧ Counted k' (update γ p ((γ p).next (.file o) b)) := by
  obtain ⟨halive, -, hgrant⟩ := hallow
  have hself : (γ p).kin.self = p := ht.self p
  obtain ⟨hofile, hcwd⟩ := Prod.mk.inj ((h.knows p).own halive)
  have hown : ∀ q, (γ q).kin.child ≠ some p := fun q hq => (ht.child_other hq p).1 halive rfl
  have hactive : lifeOf (k.pt.proc p).state = .active := ht.alive p halive
  cases o with
  | filealloc =>
    refine ⟨trivial, ?_⟩
    rcases FileOp.filealloc_eq_ok ho with ⟨rfl, rfl⟩ | ⟨f, rfl, hzero, rfl⟩
    · exact h.of_eq rfl
    · refine h.setFile (v := fun ff => { ff with ref := 1 }) (m := f ::ₘ (γ p).files) (r := (γ p).usage.refs)
        (o := some f) halive ?_ (fun f' hf => count_cons_of_ne hf _) rfl nofun (fun f' hf => ?_) fun q _ ha hf => ?_
      · rw [hzero, count_cons_self]
        push_cast
        omega
      · obtain rfl := Option.some.inj hf
        rw [setFile_self]
        exact ⟨mem_cons_self f _, rfl, h.closed f hzero⟩
      · rw [((h.knows q).fresh f ha hf).2.1] at hzero
        cases hzero
  | filedup f =>
    obtain rfl := FileOp.filedup_eq_ok ho
    have hpos : 0 < (fileTotal k γ).count f := count_pos.mpr (mem_total halive hgrant.1)
    have hcount := h.files f
    refine ⟨trivial, h.setFile (v := fun ff => { ff with ref := ff.ref + 1 }) (m := f ::ₘ (γ p).files)
      (r := (γ p).usage.refs) (o := (γ p).fresh) halive ?_ (fun f' hf => count_cons_of_ne hf _) rfl
      (fun hz => ?_) (fun f' hf => ?_) fun q hq ha => h.fresh_other halive hgrant.1 hq ha⟩
    · rw [count_cons_self]
      push_cast
      omega
    · dsimp only at hz
      omega
    · rw [hgrant.2] at hf
      cases hf
  | fileclose f =>
    have hcount : 1 ≤ (γ p).files.count f := one_le_count_iff_mem.mpr hgrant
    have hfiles (f' : FileIdx) (hf : f' ≠ f) : ((γ p).files.erase f).count f' = (γ p).files.count f' :=
      count_erase_of_ne hf _
    refine ⟨trivial, ?_⟩
    rcases FileOp.fileclose_cases ho with ⟨hone, rfl, rfl⟩ | ⟨hone, ⟨n, rfl⟩, rfl⟩
    · refine h.setFile (v := fun ff => { ff with ref := ff.ref - 1 }) (m := (γ p).files.erase f)
        (r := 0 + (γ p).usage.refs) (o := none) halive ?_ hfiles ?_ (fun hz => ?_) nofun
        fun q hq ha => h.fresh_other halive hgrant hq ha
      · rw [count_erase_self]
        push_cast [hcount]
        omega
      · rw [zero_add]
        rfl
      · dsimp only at hz
        omega
    · refine h.setFile (v := fun ff => { ff with ref := 0, type := .none }) (m := (γ p).files.erase f)
        (r := Holdings.named (k.ftable f) + (γ p).usage.refs) (o := none) halive ?_ hfiles ?_ (fun _ => rfl) nofun
        fun q hq ha => h.fresh_other halive hgrant hq ha
      · rw [count_erase_self, hone]
        push_cast [hcount]
        omega
      · rw [show Holdings.named { k.ftable f with ref := 0, type := .none } = 0 from rfl, zero_add]
  | openInode f i =>
    cases ho
    obtain ⟨hfresh, hi⟩ := hgrant
    obtain ⟨hmem, hone, htype⟩ := (h.knows p).fresh f halive hfresh
    refine ⟨trivial, h.setFile (m := (γ p).files) (r := (γ p).usage.refs.erase i) (o := none) halive rfl (fun _ _ => rfl)
      ?_ (fun hz => ?_) nofun fun q hq ha => h.fresh_other halive hmem hq ha⟩
    · have hnone : Holdings.named (k.ftable f) = 0 := by
        rw [Holdings.named, htype]
        rfl
      rw [hnone, zero_add]
      change {i} + (γ p).usage.refs.erase i = (γ p).usage.refs
      rw [singleton_add, cons_erase hi]
    · dsimp only at hz
      omega
  | fdalloc q f =>
    obtain rfl : q = p := Eq.trans hgrant hself
    constructor
    · rintro fd rfl
      rw [← hofile]
      exact FileOp.fdalloc_empty ho
    rcases FileOp.fdalloc_eq_ok ho with ⟨rfl, rfl⟩ | ⟨fd, rfl, rfl⟩
    · exact h.of_eq rfl
    · refine h.ownDesk (c := update (γ q).fds fd (some f)) (d := (γ q).usage.cwd) halive hactive hown ?_ rfl
      rw [← hofile, ← hcwd]
      rfl
  | setFd q fd r =>
    cases ho
    refine ⟨trivial, ?_⟩
    cases r with
    | none =>
      obtain rfl : q = p := Eq.trans hgrant hself
      refine h.ownDesk (c := update (γ q).fds fd none) (d := (γ q).usage.cwd) halive hactive hown ?_ rfl
      rw [← hofile, ← hcwd]
      rfl
    | some f =>
      obtain ⟨hchild, hempty, hf, hfresh⟩ := hgrant
      obtain ⟨hofile', hcwd'⟩ := Prod.mk.inj ((h.knows p).child q hchild)
      refine h.childDesk (c := update (γ p).childFds fd (some f)) (d := (γ p).childCwd)
        (m := (γ p).files.erase f) (r := (γ p).usage.refs) halive hchild (fun ha => (ht.child_other hchild q).1 ha rfl)
        (ht.child p q hchild).1 (fun q' hq' => ht.distinct q' p q hq' hchild) ?_ rfl ?_ rfl fun f' hf' => ?_
      · rw [← hofile', ← hcwd']
        rfl
      · rw [openFds_update hempty, add_cons, ← cons_add, cons_erase hf]
      · rw [hfresh] at hf'
        cases hf'
  | openPipe | setOff => exact hgrant.elim
  | file =>
    cases ho
    exact ⟨trivial, h.of_eq rfl⟩
  | initPipe => exact ⟨trivial, (h.of_fixes ho (fixes_modify fun _ => by rfl)).of_eq rfl⟩
  | piperead =>
    refine ⟨trivial, (h.of_fixes ho (fixes_get.bind fun k => .ite ?_ ?_)).of_eq rfl⟩
    · exact Fixes.ite (fixes_pure _) fixes_block
    · exact (fixes_modify fun _ => by rfl).bind fun _ => fixes_pure _
  | pipeclose =>
    refine ⟨trivial, (h.of_fixes ho ((fixes_modify fun _ => ?_).bind fun _ => fixes_get.bind fun _ => ?_)).of_eq rfl⟩
    · rfl
    · exact Fixes.ite (fixes_onPhys (fun _ _ => rfl) _) (fixes_pure _)

theorem of_desks (h : Counted k γ) (hrest : (k'.ftable, k'.utable, k'.icache) = (k.ftable, k.utable, k.icache))
    (hdesk : ∀ q, desk (k'.pt.proc q) = desk (k.pt.proc q))
    (hends : ∀ q, lifeOf (k'.pt.proc q).state = .unused ∨ lifeOf (k'.pt.proc q).state = .zombie →
      (lifeOf (k.pt.proc q).state = .unused ∨ lifeOf (k.pt.proc q).state = .zombie) ∨
        desk (k.pt.proc q) = (fun _ => none, none)) : Counted k' γ := by
  simp only [Prod.mk.injEq] at hrest
  obtain ⟨hftable, hutable, hicache⟩ := hrest
  refine h.of_totals hftable hutable hicache (sum_congr rfl fun q _ => ?_) (fun q => ⟨?_, ?_, ?_, ?_⟩) fun q hq => ?_
  · rw [heldOf, heldOf, hdesk]
  · rw [hdesk]
    exact (h.knows q).own
  · rw [hicache]
    exact (h.knows q).locks
  · intro np
    rw [hdesk]
    exact (h.knows q).child np
  · rw [hftable]
    exact (h.knows q).fresh
  · rw [hdesk]
    rcases hends q hq with hold | hbare
    · exact h.bare q hold
    · exact hbare

theorem rekin (h : Counted k γ)
    (halive : κ.alive = (γ p).kin.alive) (hchild : ∀ np, κ.child = some np → desk (k.pt.proc np) = (c, d)) :
    Counted k (update γ p { γ p with kin := κ, childFds := c, childCwd := d }) := by
  have hp := h.knows p
  refine h.of_totals rfl rfl rfl (sum_same ?_ fun _ _ => rfl)
    (knows_update ⟨fun ha => ?_, fun ha => ?_, hchild, fun f ha => ?_⟩ fun q _ => h.knows q) h.bare
  · rw [heldOf, heldOf, update_self, halive]
    rfl
  · exact hp.own (halive.symm.trans ha)
  · exact hp.locks (halive.symm.trans ha)
  · exact hp.fresh f (halive.symm.trans ha)

/-- A process without references ends. -/
theorem retire (h : Counted k γ) (halive : (γ p).kin.alive = true) (hκ : κ.alive = false)
    (hchild : κ.child = none) (hdesk : desk (k.pt.proc p) = (fun _ => none, none)) (hfiles : (γ p).files = 0)
    (hrefs : (γ p).usage.refs = 0) : Counted k (update γ p { γ p with kin := κ }) := by
  have hnot : κ.alive ≠ true := by
    rw [hκ]
    exact Bool.false_ne_true
  refine h.of_totals rfl rfl rfl (sum_same ?_ fun _ _ => rfl)
    (knows_update ⟨fun ha => (hnot ha).elim, fun ha => (hnot ha).elim, fun np hnp => ?_, fun f ha => (hnot ha).elim⟩
      fun q _ => h.knows q) h.bare
  · rw [heldOf, heldOf, update_self, if_neg hnot, if_pos halive, hdesk, hand, hfiles, hrefs]
    exact congrArg (·, 0) sum_const_zero
  · rw [hchild] at hnp
    cases hnp

theorem sound_setCwd (ht : Threads (census k.pt) fun q => (γ q).kin) (h : Counted k γ) {i : Option InodeIdx}
    (hallow : (γ p).Allows (.proc (.setCwd q i))) :
    Counted (k.setProc q fun pr => { pr with cwd := i }) (update γ p ((γ p).next (.proc (.setCwd q i)) ())) := by
  obtain ⟨halive, -, hgrant⟩ := hallow
  have hself : (γ p).kin.self = p := ht.self p
  have hown : ∀ q, (γ q).kin.child ≠ some p := fun q hq => (ht.child_other hq p).1 halive rfl
  change Counted _ (update γ p { (γ p).setCwd q i with kin := (γ p).kin })
  rw [Holdings.setCwd, hself]
  by_cases hq : q = p
  · subst hq
    rw [if_pos rfl]
    refine h.ownDesk (c := (γ q).fds) (d := i) halive (ht.alive q halive) hown ?_ rfl
    rw [← (Prod.mk.inj ((h.knows q).own halive)).1]
    rfl
  · obtain ⟨hchild, hempty, hle⟩ := hgrant.resolve_left fun heq => hq (Eq.trans heq hself)
    rw [if_neg hq]
    refine h.childDesk (c := (γ p).childFds) (d := i) (m := (γ p).files) (r := (γ p).usage.refs - one i) halive hchild
      (fun ha => (ht.child_other hchild q).1 ha rfl) (ht.child p q hchild).1 (fun q' hq' => ht.distinct q' p q hq' hchild)
      ?_ rfl rfl ?_ fun f hf => ((h.knows p).fresh f halive hf).1
    · rw [← (Prod.mk.inj ((h.knows p).child q hchild)).1]
      rfl
    · rw [tsub_add_cancel_of_le hle, hempty, one_none, add_zero]

theorem sound_proc (ht : Threads (census k.pt) fun q => (γ q).kin) (h : Counted k γ) {o : ProcOp} {b : o.Ans}
    (hallow : (γ p).Allows (.proc o)) (ho : o.sem k = .ok (b, k')) :
    (γ p).Learns (.proc o) b ∧ Counted k' (update γ p ((γ p).next (.proc o) b)) := by
  by_cases hmove : ∃ q i, o = .setCwd q i
  · obtain ⟨q, i, rfl⟩ := hmove
    cases ho
    exact ⟨trivial, h.sound_setCwd ht hallow⟩
  have hdesk := proc_desk (ProcOp.step ho) fun q i heq => hmove ⟨q, i, heq⟩
  have hrest := ProcOp.sem_fixes (f := fun k => (k.ftable, k.utable, k.icache)) (fun _ _ => rfl) (fun _ _ => rfl)
    (fun _ _ => rfl) o k b k' ho
  obtain ⟨halive, hkin, hgrant⟩ := hallow
  have hself : (γ p).kin.self = p := ht.self p
  have hown := (h.knows p).own halive
  have heffect : KinEffect (census k.pt) (.proc o) b (census k'.pt) := kin_effect (fun q hq => by
    rw [hq] at hkin
    have hinit := hkin.2.2.2
    rwa [ht.init p] at hinit) ho
  have hlife (q : Slot) : lifeOf (k'.pt.proc q).state = ((census k'.pt).kin q).life := rfl
  -- the lives are as before
  have hsame (hl : ∀ q, ((census k'.pt).kin q).life = ((census k.pt).kin q).life) : Counted k' γ :=
    h.of_desks hrest hdesk fun q hq => .inl (by rwa [hlife, hl q] at hq)
  -- one slot has a new life
  have hslot {q : Slot} (hl : ∀ r, r ≠ q → ((census k'.pt).kin r).life = ((census k.pt).kin r).life)
      (hq : ((census k'.pt).kin q).life = .unused ∨ ((census k'.pt).kin q).life = .zombie →
        desk (k.pt.proc q) = (fun _ => none, none)) : Counted k' γ := by
    refine h.of_desks hrest hdesk fun r hr => ?_
    by_cases hrq : r = q
    · subst hrq
      exact .inr (hq hr)
    · rw [hlife, hl r hrq] at hr
      exact .inl hr
  generalize census k'.pt = c' at heffect hlife hsame hslot
  cases heffect with
  | same ha =>
    have hk := (hsame fun _ => rfl)
    cases o with
    | proc =>
      refine ⟨?_, hk.of_eq rfl⟩
      cases ho
      rintro rfl
      rw [hself]
      exact Prod.mk.inj hown
    | initproc | setKstack | setName => exact ⟨trivial, hk.of_eq rfl⟩
    | setCwd q i => exact (hmove ⟨q, i, rfl⟩).elim
    | _ => exact ha.elim
  | noSlot => exact ⟨nofun, (hsame fun _ => rfl).rekin rfl nofun⟩
  | alloc np hunused =>
    have hk := hslot (q := np) (fun r hr => congrArg Kin.life (set_of_ne hr ..)) fun hl => by
      rw [show Kin.life _ = .embryo from congrArg Kin.life (set_self ..)] at hl
      rcases hl with hl | hl <;> cases hl
    refine ⟨fun heq => ?_, hk.rekin rfl fun m hm => ?_⟩
    · rw [Option.some.inj heq, hself, ht.alive p halive] at hunused
      cases hunused
    · obtain rfl : np = m := Option.some.inj hm
      rw [hdesk]
      exact h.bare np (.inl hunused)
  | abandon np =>
    have hk := hslot (q := np) (fun r hr => congrArg Kin.life (set_of_ne hr ..)) fun _ => by
      rw [(h.knows p).child np hkin.1, hgrant.1, hgrant.2]
    exact ⟨trivial, hk.rekin rfl nofun⟩
  | initChild np =>
    have hk := hsame fun r => by
      by_cases hr : r = np
      · subst hr
        rw [set_self]
      · rw [set_of_ne hr]
    refine ⟨trivial, hk.rekin rfl fun m hm => ?_⟩
    rw [hdesk]
    exact (h.knows p).child m hm
  | publish np =>
    have hk := hslot (q := np) (fun r hr => congrArg Kin.life (set_of_ne hr ..)) fun hl => by
      rw [show Kin.life _ = .active from congrArg Kin.life (set_self ..)] at hl
      rcases hl with hl | hl <;> cases hl
    exact ⟨trivial, hk.rekin rfl nofun⟩
  | exit q =>
    obtain ⟨hq, -, hchild, -⟩ := hkin
    obtain rfl : q = p := hq.trans hself
    obtain ⟨hfds, hcwd, hfiles, hrefs⟩ := hgrant
    rw [hfds, hcwd] at hown
    have hk := hslot (q := q) (fun r hr => by rw [Threads.exit_kin_of_ne hr]) fun _ => hown
    exact ⟨trivial, hk.retire halive rfl hchild ((hdesk q).trans hown) hfiles hrefs⟩
  | noChild | setImage | growproc | getadmin | setmemorylimit
  | kill => exact ⟨trivial, (hsame fun _ => rfl).of_eq rfl⟩
  | reap q r hzombie =>
    have hk := hslot (q := r) (fun s hs => congrArg Kin.life (set_of_ne hs ..)) fun _ =>
      h.bare r (.inr hzombie)
    exact ⟨trivial, hk.of_eq rfl⟩

end Counted
end Xv6.Sys
