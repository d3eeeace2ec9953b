import Mathlib.Data.Fintype.BigOperators
import Xv6.Sys.RefCount

/-! # Runs of the calls that take and give back references -/
namespace Xv6.Sys
open Function Prog Fs Usage Finset

abbrev FileLabel := Pool.Label Op Op.Ans Slot FileCall
abbrev FilePool := Pool.State Op Op.Ans Kernel Slot ℤ

/-- An operation of one of the processes that are neither embryos nor zombies. -/
def FileStep (s : FilePool) (l : FileLabel) (s' : FilePool) : Prop :=
  Pool.Step Op.sem FileCall.body s l s' ∧ ∀ p c, l = .start p c → lifeOf (s.shared.pt.proc p).state = .active

def openFilesOn (k : Kernel) (i : InodeIdx) : Finset FileIdx :=
  Finset.univ.filter fun f => 0 < (k.ftable f).ref ∧ (k.ftable f).type = .inode ∧ (k.ftable f).ip = some i

def workingIn (k : Kernel) (i : InodeIdx) : Finset Slot :=
  Finset.univ.filter fun q => (k.pt.proc q).state ≠ .unused ∧ (k.pt.proc q).state ≠ .zombie ∧ (k.pt.proc q).cwd = some i

/-- The counts are those of the references that the processes, the open files and the
user table keep, and every inode has one entry at most. -/
structure RefsExact (k : Kernel) : Prop where
  files : ∀ f, (k.ftable f).ref = (Finset.univ.filter fun e : Slot × Fin NOFILE => (k.pt.proc e.1).ofile e.2 = some f).card
  refs : ∀ i, (k.icache i).ref =
    (openFilesOn k i).card + (workingIn k i).card + if k.utable.ptr = some i then 1 else 0
  closed : ∀ f, (k.ftable f).ref = 0 → (k.ftable f).type = .none
  bare : ∀ q, (k.pt.proc q).state = .unused ∨ (k.pt.proc q).state = .zombie → desk (k.pt.proc q) = (fun _ => none, none)
  unique : ∀ i j, 0 < (k.icache i).ref → 0 < (k.icache j).ref → (k.icache i).inum = (k.icache j).inum → i = j

def heldFiles (k : Kernel) : Multiset FileIdx := ∑ q, openFds (k.pt.proc q).ofile
def heldInodes (k : Kernel) : Multiset InodeIdx :=
  ∑ f, Holdings.named (k.ftable f) + one k.utable.ptr + ∑ q, one (k.pt.proc q).cwd

section Counting
variable {k : Kernel}

theorem ended_iff (s : ProcState) : (lifeOf s = .unused ∨ lifeOf s = .zombie) ↔ (s = .unused ∨ s = .zombie) := by
  cases s <;> simp [lifeOf]

theorem count_heldFiles (f : FileIdx) : (heldFiles k).count f =
    (univ.filter fun e : Slot × Fin NOFILE => (k.pt.proc e.1).ofile e.2 = some f).card := by
  rw [← count_sum_one fun e : Slot × Fin NOFILE => (k.pt.proc e.1).ofile e.2]
  rw [Fintype.sum_prod_type]
  rfl

theorem count_heldInodes (hpos : ∀ f, 0 ≤ (k.ftable f).ref)
    (hclosed : ∀ f, (k.ftable f).ref = 0 → (k.ftable f).type = .none)
    (hbare : ∀ q, (k.pt.proc q).state = .unused ∨ (k.pt.proc q).state = .zombie →
      desk (k.pt.proc q) = (fun _ => none, none)) (i : InodeIdx) :
    (heldInodes k).count i = (openFilesOn k i).card + (workingIn k i).card + if k.utable.ptr = some i then 1 else 0 := by
  have hnamed (f : FileIdx) : Holdings.named (k.ftable f) =
      one (if (k.ftable f).type = .inode then (k.ftable f).ip else none) := by
    rw [Holdings.named]
    split <;> rfl
  have hfiles : (∑ f, Holdings.named (k.ftable f)).count i = (openFilesOn k i).card := by
    rw [sum_congr rfl fun f _ => hnamed f, count_sum_one]
    refine congrArg card (filter_congr fun f _ => ?_)
    split
    case isTrue htype =>
      have hne : (k.ftable f).ref ≠ 0 := by
        intro hz
        rw [hclosed f hz] at htype
        cases htype
      have hle := hpos f
      simp only [htype, true_and, iff_and_self]
      omega
    case isFalse htype => simp [htype]
  have hcwd : (∑ q, one (k.pt.proc q).cwd).count i = (workingIn k i).card := by
    rw [count_sum_one]
    refine congrArg card (filter_congr fun q _ => ?_)
    refine ⟨fun h => ?_, fun h => h.2.2⟩
    have hlive : ¬ ((k.pt.proc q).state = .unused ∨ (k.pt.proc q).state = .zombie) := by
      intro hended
      rw [(Prod.mk.inj (hbare q hended)).2] at h
      cases h
    exact ⟨fun hs => hlive (.inl hs), fun hs => hlive (.inr hs), h⟩
  rw [heldInodes, Multiset.count_add, Multiset.count_add, hfiles, hcwd, count_one]
  omega

end Counting

section Soundness
variable {k : Kernel} {γ : Slot → Holdings} {p : Slot}

def idle (k : Kernel) (alive : Bool) (q : Slot) : Holdings where
  kin := { self := q, init := k.pt.initproc, alive := alive }
  usage :=
    { table := false
      locks := fun i => (k.icache i).lock = some q
      depth := 0
      refs := one (k.pt.proc q).cwd
      cwd := (k.pt.proc q).cwd
      ptr := none }
  fds := (k.pt.proc q).ofile
  files := openFds (k.pt.proc q).ofile

theorem idle_rested (alive : Bool) : Rested (idle k alive p) := ⟨rfl, rfl, rfl, rfl⟩

theorem idle_knows (alive : Bool) : Knows k p (idle k alive p) where
  own _ := rfl
  locks _ i := by simp [idle]
  child _ := nofun
  fresh _ _ := nofun

theorem Counted.heldOf_rested (h : Counted k γ) (hr : Rested (γ p)) : heldOf k γ p = held (desk (k.pt.proc p)) := by
  rw [heldOf]
  split
  case isTrue ha => rw [hand, hr.files, hr.refs, (h.knows p).own ha, held]
  case isFalse => rfl

theorem Counted.wake (h : Counted k γ) (hr : Rested (γ p)) : Counted k (update γ p (idle k true p)) := by
  refine h.of_totals rfl rfl rfl (sum_same ?_ fun _ _ => rfl) (knows_update (idle_knows true) fun q _ => h.knows q) h.bare
  rw [heldOf_self (g := idle k true p) rfl, h.heldOf_rested hr]
  rfl

/-- Where no call is in progress, the holders are the processes, the files and the table. -/
theorem Counted.exact (h : Counted k γ) (hr : ∀ q, Rested (γ q)) : RefsExact k := by
  have hslot (q : Slot) := Prod.mk.inj ((heldOf_eq k γ q).symm.trans (h.heldOf_rested (hr q)))
  have hfiles : fileTotal k γ = heldFiles k := sum_congr rfl fun q _ => (hslot q).1
  have hrefs : inodeTotal k γ = heldInodes k := congrArg (_ + ·) (sum_congr rfl fun q _ => (hslot q).2)
  have hbare (q : Slot) (hq : (k.pt.proc q).state = .unused ∨ (k.pt.proc q).state = .zombie) := h.bare q ((ended_iff _).mpr hq)
  refine ⟨fun f => ?_, fun i => ?_, h.closed, hbare, h.unique⟩
  · rw [← count_heldFiles, ← hfiles]
    exact h.files f
  · have hcount := count_heldInodes (k := k) (fun f => by rw [h.files f]; omega) h.closed hbare i
    rw [h.refs i, hrefs, hcount]
    by_cases hptr : k.utable.ptr = some i <;> simp [hptr]

theorem RefsExact.counted (h : RefsExact k) : Counted k (idle k false) := by
  have hbare (q : Slot) (hq : lifeOf (k.pt.proc q).state = .unused ∨ lifeOf (k.pt.proc q).state = .zombie) :=
    h.bare q ((ended_iff _).mp hq)
  refine ⟨fun f => ?_, fun i => ?_, fun _ => idle_knows false, h.closed, hbare, h.unique⟩
  · rw [h.files f, ← count_heldFiles]
    rfl
  · have hcount := count_heldInodes (k := k) (fun f => by rw [h.files f]; omega) h.closed h.bare i
    rw [h.refs i, show inodeTotal k (idle k false) = heldInodes k from rfl, hcount]
    by_cases hptr : k.utable.ptr = some i <;> simp [hptr]

def Accounted (_ : List FileLabel) (k : Kernel) (γ : Slot → Holdings) : Prop :=
  (∃ exited reaped, LifeInv (census k.pt) exited reaped fun q => (γ q).kin) ∧ Counted k γ

theorem kin_update (g : Holdings) : (fun q => (update γ p g q).kin) =
    update (fun q => (γ q).kin) p g.kin := Function.comp_update Holdings.kin γ p g

theorem accounted_next (h : Accounted ls k γ) (hallow : (γ p).Allows o) (ho : o.sem k = .ok (b, k')) :
    (γ p).Answers o b ∧ Accounted (ls ++ [.exec p o b]) k' (update γ p ((γ p).next o b)) := by
  obtain ⟨⟨exited, reaped, hlife⟩, hcounted⟩ := h
  have heffect : KinEffect (census k.pt) o b (census k'.pt) := kin_effect (fun q hq => by
    rw [hq] at hallow
    have hinit := hallow.2.1.2.2.2
    rwa [hlife.threads.init p] at hinit) ho
  have hnext := hlife.next rfl hallow.2.1 heffect
  have hanswer : (γ p).kin.Answers o b := by
    cases o with
    | proc o =>
      cases o with
      | proc q =>
        cases ho
        exact hlife.registry.fits q
      | initproc =>
        cases ho
        exact (hlife.threads.init p).symm
      | _ => trivial
    | _ => trivial
  have hsound : (γ p).Learns o b ∧ Counted k' (update γ p ((γ p).next o b)) := by
    cases o with
    | panic => cases ho
    | log o => exact ⟨trivial, (hcounted.of_fixes ho (LogOp.sem_fixes (fun _ _ => rfl) o)).of_eq rfl⟩
    | fs => exact hcounted.sound_fs (hlife.threads.self p) hallow ho
    | file => exact hcounted.sound_file hlife.threads hallow ho
    | proc => exact hcounted.sound_proc hlife.threads hallow ho
    | vm o => exact ⟨trivial, (hcounted.of_fixes ho (VmOp.sem_fixes (fun _ _ => rfl) o)).of_eq rfl⟩
    | user => exact hallow.2.2.elim
  refine ⟨⟨hanswer, hsound.1⟩, ⟨Lives.exitedAfter k.pt exited o, Lives.reapedAfter reaped o b, ?_⟩, hsound.2⟩
  rw [kin_update]
  exact hnext

theorem accounted_start {ls : List FileLabel} {c : FileCall} (h : Accounted ls k γ) (hr : Rested (γ p))
    (hawake : lifeOf (k.pt.proc p).state = .active) : ∃ g, (c.body p).Obeys holdings g (fun _ g => Rested g) ∧
      Accounted (ls ++ [.start p c]) k (update γ p g) := by
  obtain ⟨⟨exited, reaped, hlife⟩, hcounted⟩ := h
  refine ⟨idle k true p, fileCall_rested ⟨rfl, rfl⟩ (idle_rested true) c, ⟨exited, reaped, ?_⟩, hcounted.wake hr⟩
  rw [kin_update]
  exact ⟨hlife.threads.ghost rfl rfl (fun _ => hawake) rfl, hlife.registry⟩

end Soundness

def NoCall (s : FilePool) : Prop := ∀ q, ∃ r, s.thread q = .ret r

/-- No call is in progress, the counts are right and the table of processes is in order. -/
structure Settled (s : FilePool) : Prop where
  quiet : NoCall s
  refs : RefsExact s.shared
  registry : ∃ exited reaped, Registry (census s.shared.pt) exited reaped

theorem accounted_init (h0 : Settled s0) :
    Pool.Inv holdings Accounted Rested [] s0 (idle s0.shared false) := by
  obtain ⟨exited, reaped, hregistry⟩ := h0.registry
  refine ⟨⟨⟨exited, reaped, ⟨fun _ => rfl, fun _ => rfl, nofun, nofun, nofun⟩, hregistry⟩, h0.refs.counted⟩, fun q => ?_⟩
  obtain ⟨r, hr⟩ := h0.quiet q
  rw [hr]
  exact idle_rested false

/-- Whenever no call is in progress, the count of every entry of the inode cache is that of
the open files that name it, the processes that work in it and the user table, and no
inode has two entries. -/
theorem refs_exact {s₀ s : FilePool} {tr : List (FilePool × FileLabel)} (hr : Run FileStep s₀ tr s)
    (h₀ : Settled s₀) (hquiet : NoCall s) :
    (∀ i, (s.shared.icache i).ref = (openFilesOn s.shared i).card + (workingIn s.shared i).card +
      if s.shared.utable.ptr = some i then 1 else 0) ∧
    ∀ i j, 0 < (s.shared.icache i).ref → 0 < (s.shared.icache j).ref →
      (s.shared.icache i).inum = (s.shared.icache j).inum → i = j := by
  obtain ⟨hrun, hawake⟩ := run_guarded.mp hr
  obtain ⟨γ, ⟨-, hcounted⟩, hobeys⟩ := Pool.run_inv (P := holdings) (I := Accounted) (J := Rested)
    (fun ls s γ p c h hc hj => accounted_start h hj (hc p c rfl))
    (fun ls s γ p o b t h _ hallow ho => accounted_next h hallow ho) hrun hawake (accounted_init h₀)
  have hrested (q : Slot) : Rested (γ q) := by
    obtain ⟨r, hq⟩ := hquiet q
    have hret := hobeys q
    rw [hq] at hret
    exact hret
  have hexact := hcounted.exact hrested
  exact ⟨hexact.refs, hexact.unique⟩

def initAlone : FilePool where
  shared := { Kernel.zero with
    pt := ⟨fun q => if q = 0 then { state := .running, pid := 1, userid := root, cwd := some 0 } else {}, 2, some 0⟩
    icache := update Kernel.zero.icache 0 { Kernel.zero.icache 0 with inum := 1, ref := 1 }
    phys := ⟨1, List.range' 1 80, fun _ _ => 0⟩ }
  thread _ := .ret 0

theorem initAlone_settled : Settled initAlone where
  quiet _ := ⟨0, rfl⟩
  refs := by
    have hfds : ∀ q fd, (initAlone.shared.pt.proc q).ofile fd = none := by decide +kernel
    have hcwd : ∀ q, q ≠ 0 → (initAlone.shared.pt.proc q).cwd = none := by decide +kernel
    refine ⟨fun f => ?_, ?_, fun _ _ => rfl, fun q hq => Prod.ext (funext (hfds q)) (hcwd q ?_), ?_⟩
    · simp only [hfds, reduceCtorEq, filter_false]
      rfl
    · decide +kernel
    · rintro rfl
      rcases hq with hq | hq <;> cases hq
    · decide +kernel
  registry := ⟨[], [], by constructor <;> decide +kernel⟩

/-- Init forks; the child works in the same directory. -/
theorem fork_counts : ∃ tr s, Run FileStep initAlone tr s ∧ NoCall s ∧ (workingIn s.shared 0).card = 2 ∧
    (s.shared.icache 0).ref = 2 := by
  have hfork : ((FileCall.fork.body 0).run Op.sem).test initAlone.shared (fun _ k =>
      (workingIn k 0).card = 2 ∧ (openFilesOn k 0).card = 0 ∧ k.utable.ptr = none) = true := by decide +kernel
  obtain ⟨tr, r, k, hr, hk, hmeets⟩ := Pool.run_test FileCall.body (i := 0)
    (show initAlone.thread 0 = .ret 0 from rfl) hfork
  obtain ⟨hcwd, hopen, hptr⟩ := of_decide_eq_true hk
  have hrun : Run FileStep initAlone tr ⟨k, update initAlone.thread 0 (.ret r)⟩ :=
    run_guarded.mpr ⟨hr, hmeets _ (fun p c hl => by cases hl; rfl) fun _ _ _ _ _ hl => by cases hl⟩
  have hquiet : NoCall ⟨k, update initAlone.thread 0 (.ret r)⟩ := fun q => by
    by_cases hq : q = 0
    · subst hq
      exact ⟨r, update_self (0 : Slot) (Prog.ret r) initAlone.thread⟩
    · exact ⟨0, update_of_ne hq ..⟩
  have hcount := (refs_exact hrun initAlone_settled hquiet).1 0
  refine ⟨tr, _, hrun, hquiet, hcwd, ?_⟩
  dsimp only at hcount ⊢
  rw [hcount, hopen, hcwd, hptr]
  rfl

end Xv6.Sys
