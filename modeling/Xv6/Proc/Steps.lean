import Xv6.Kernel.Frame

/-! # What the operations do to the process table -/
namespace Xv6
open Comp

namespace PTable

theorem firstUnused_eq_some {t : PTable} (h : t.firstUnused = some np) : (t.proc np).state = .unused := by
  have hunused := List.find?_some h
  simpa only [decide_eq_true_eq] using hunused

theorem kill_cases (t : PTable) (pid : ℤ) :
    t.kill pid = (-1, t) ∨ ∃ q, (t.proc q).pid = pid ∧ t.kill pid = (0, t.modify q killed) := by
  unfold kill
  generalize hfind : List.find? _ _ = found
  cases found with
  | none => exact .inl rfl
  | some q =>
    have hq := List.find?_some hfind
    simp only [decide_eq_true_eq] at hq
    exact .inr ⟨q, hq, rfl⟩

theorem wait_eq_reaped {t t' : PTable} (h : t.wait p = .reaped q pid t') :
    (t.proc q).parent = some p ∧ (t.proc q).state = .zombie ∧ pid = (t.proc q).pid ∧
      t' = t.modify q reap := by
  unfold wait at h
  generalize hfind : List.find? _ _ = found at h
  cases found with
  | none =>
    dsimp only at h
    split at h <;> cases h
  | some =>
    cases h
    have hq := List.find?_some hfind
    simp only [decide_eq_true_eq] at hq
    exact ⟨hq.1, hq.2, rfl, rfl⟩

section Unseen
variable {τ : Type} {see : Proc → τ} (t : PTable) (p q : Slot)

theorem modify_unseen {f : Proc → Proc} (hf : ∀ pr, see (f pr) = see pr) :
    see ((t.modify p f).proc q) = see (t.proc q) := by
  rw [modify_proc]
  split
  case isTrue hq =>
    subst hq
    exact hf _
  case isFalse => rfl

variable (hwake : ∀ pr, pr.state = .sleeping → see { pr with state := .runnable } = see pr)
include hwake

theorem wakeup1_unseen (chan : Chan) : see ((t.wakeup1 chan).proc q) = see (t.proc q) := by
  simp only [wakeup1]
  split
  case isTrue h => exact hwake _ h.1
  case isFalse => rfl

theorem reparent_unseen (hparent : ∀ pr r, see { pr with parent := r } = see pr) (qs : List Slot) :
    see ((t.reparent p qs).proc q) = see (t.proc q) := by
  induction qs generalizing t with
  | nil => rfl
  | cons r qs ih =>
    have hr : see ((t.modify r fun pr => { pr with parent := t.initproc }).proc q) = see (t.proc q) :=
      t.modify_unseen r q fun _ => hparent ..
    unfold reparent
    split
    · dsimp only
      split
      · rw [ih, wakeup1_unseen _ q hwake, hr]
      · rw [ih, hr]
    · exact ih t

theorem killed_unseen (hkilled : ∀ pr, see { pr with killed := true } = see pr) (pr : Proc) :
    see (killed pr) = see pr := by
  unfold killed
  split
  case isTrue h => exact (hwake { pr with killed := true } h).trans (hkilled pr)
  case isFalse => exact hkilled pr

end Unseen

/-- What `exec` and `exec2` store for the new image. -/
def image (pg : Vm.Pgdir) (sz eip esp : Word) (pr : Proc) : Proc :=
  { pr with pgdir := pg, sz := sz, tf := { pr.tf with eip := eip, esp := esp } }

/-- The table before and after an operation that gave an answer. -/
inductive Step (t : PTable) : (o : ProcOp) → o.Ans → PTable → Prop
  | proc (p : Slot) : Step t (.proc p) (t.proc p) t
  | initproc : Step t .initproc t.initproc t
  | noSlot : Step t .alloc none t
  | alloc (np : Slot) (mlfq : Bool) (ticks : Word) (h : (t.proc np).state = .unused) : Step t .alloc (some np)
      { t.modify np (embryo mlfq ticks t.nextpid) with nextpid := t.nextpid + 1 }
  | setKstack (np : Slot) (f : Vm.Frame) {b : Unit} :
      Step t (.setKstack np f) b (t.modify np fun pr => { pr with kstack := some f })
  | abandon (np : Slot) {b : Unit} :
      Step t (.abandon np) b (t.modify np fun pr => { pr with kstack := none, state := .unused })
  | initChild (np p : Slot) (pg : Vm.Pgdir) (userid : CStr) {b : Unit} : Step t (.initChild np p pg userid) b
      (t.modify np fun pr => ProcOp.child pr p (t.proc p) pg userid)
  | setCwd (p : Slot) (i : Option InodeIdx) {b : Unit} :
      Step t (.setCwd p i) b (t.modify p fun pr => { pr with cwd := i })
  | setName (p : Slot) (name : List UInt8) {b : Unit} :
      Step t (.setName p name) b (t.modify p fun pr => { pr with name := name })
  | publish (np : Slot) {b : Unit} : Step t (.publish np) b (t.modify np fun pr => { pr with state := .runnable })
  | exit (p : Slot) {b : Unit} : Step t (.exit p) b (t.exit p)
  | noChild (p : Slot) : Step t (.wait p) (-1 : ℤ) t
  | reap (p q : Slot) (hparent : (t.proc q).parent = some p) (hzombie : (t.proc q).state = .zombie) :
      Step t (.wait p) (t.proc q).pid (t.modify q reap)
  | setImage (p : Slot) (pg : Vm.Pgdir) (sz eip esp : Word) {b : Unit} :
      Step t (.setImage p pg sz eip esp) b (t.modify p (image pg sz eip esp))
  | growproc (p : Slot) (n : Word) {r : ℤ} {sz : Word} {pg : Vm.Pgdir}
      (h : sz ≤ (t.proc p).sz ∨ (t.proc p).limit = 0 ∨ sz ≤ (t.proc p).limit) :
      Step t (.growproc p n) r (t.modify p fun pr => { pr with sz := sz, pgdir := pg })
  | denied (p : Slot) (password : CStr) {r : ℤ} : Step t (.getadmin p password) r t
  | getadmin (p : Slot) (password : CStr) {r : ℤ} :
      Step t (.getadmin p password) r (t.modify p fun pr => { pr with mode := .administrator })
  | refused (p : Slot) (pid : ℤ) (limit : Word) {r : ℤ} : Step t (.setmemorylimit p pid limit) r t
  | setLimit (p q : Slot) (pid : ℤ) (limit : Word) {r : ℤ} (h : (t.proc q).sz ≤ limit ∨ limit = 0) :
      Step t (.setmemorylimit p pid limit) r (t.modify q fun pr => { pr with limit := limit })
  | noProc (pid : ℤ) : Step t (.kill pid) (-1 : ℤ) t
  | kill (pid : ℤ) (q : Slot) (h : (t.proc q).pid = pid) : Step t (.kill pid) (0 : ℤ) (t.modify q killed)

end PTable

section Step
variable {k k' : Kernel} {p : Slot}

theorem ProcOp.alloc_step {r : Option Slot} (h : ProcOp.alloc.sem k = .ok (r, k')) : k.pt.Step .alloc r k'.pt := by
  have h := get_bind h
  unfold PTable.allocproc at h
  cases hfound : k.pt.firstUnused with
  | none =>
    rw [hfound] at h
    cases h
    exact .noSlot
  | some np =>
    rw [hfound] at h
    cases h
    exact PTable.Step.alloc np k.mlfq k.ticks (PTable.firstUnused_eq_some hfound)

theorem ProcOp.wait_step {r : ℤ} (h : ProcOp.wait.sem p k = .ok (r, k')) : k.pt.Step (.wait p) r k'.pt := by
  have h := get_bind h
  cases hwait : k.pt.wait p with
  | none =>
    simp only [hwait] at h
    cases h
    exact .noChild p
  | sleep =>
    simp only [hwait] at h
    cases h
  | reaped q =>
    simp only [hwait] at h
    obtain ⟨hparent, hzombie, rfl, rfl⟩ := PTable.wait_eq_reaped hwait
    cases hstack : (k.pt.proc q).kstack with
    | none =>
      simp only [hstack] at h
      cases h
    | some =>
      simp only [hstack] at h
      obtain ⟨_, _, hfree, h⟩ := bind_eq_ok.mp h
      obtain ⟨_, _, hvm, h⟩ := bind_eq_ok.mp h
      cases h
      exact .reap p q hparent hzombie

theorem ProcOp.growproc_step {n : Word} {r : ℤ} (h : (ProcOp.growproc p n).sem k = .ok (r, k')) :
    k.pt.Step (.growproc p n) r k'.pt := by
  have h := get_bind h
  obtain ⟨⟨r', pr⟩, k1, hgrow, h⟩ := bind_eq_ok.mp h
  obtain ⟨m, hm, rfl⟩ := Kernel.onPhys_eq_ok.mp hgrow
  cases h
  obtain ⟨sz, pg, rfl, hsz⟩ := growproc_eq_ok hm
  exact .growproc p n hsz

theorem PTable.setmemorylimit_step (t : PTable) (p : Slot) (pid : ℤ) (limit : Word) (r : ℤ) :
    t.Step (.setmemorylimit p pid limit) r (t.setmemorylimit p pid limit).2 := by
  unfold setmemorylimit
  split
  · exact .refused p pid limit
  split
  · split
    case isTrue => exact .refused p pid limit
    case isFalse q _ hlimit =>
      refine .setLimit p q pid limit ?_
      by_contra hno
      rw [not_or] at hno
      exact hlimit ⟨BitVec.not_le.mp hno.1, hno.2⟩
  · exact .refused p pid limit

theorem ProcOp.step (h : o.sem k = .ok (b, k')) : k.pt.Step o b k'.pt := by
  cases o with
  | alloc => exact alloc_step h
  | wait => exact wait_step h
  | growproc => exact growproc_step h
  | setmemorylimit p pid limit =>
    cases h
    exact PTable.setmemorylimit_step k.pt p pid limit _
  | getadmin p password =>
    cases h
    change k.pt.Step _ _ (k.pt.getadmin p password).2
    generalize (k.pt.getadmin p password).1 = r
    unfold PTable.getadmin
    split
    · exact .getadmin p password
    · exact .denied p password
  | kill pid =>
    cases h
    change k.pt.Step (.kill pid) (k.pt.kill pid).1 (k.pt.kill pid).2
    obtain hkill | ⟨q, hq, hkill⟩ := PTable.kill_cases k.pt pid
    · rw [hkill]
      exact .noProc pid
    · rw [hkill]
      exact .kill pid q hq
  | proc p =>
    cases h
    exact .proc p
  | initproc =>
    cases h
    exact .initproc
  | setKstack np f =>
    cases h
    exact .setKstack np f
  | abandon np =>
    cases h
    exact .abandon np
  | initChild np p pg userid =>
    cases h
    exact .initChild np p pg userid
  | setCwd p i =>
    cases h
    exact .setCwd p i
  | setName p name =>
    cases h
    exact .setName p name
  | publish np =>
    cases h
    exact .publish np
  | exit p =>
    cases h
    exact .exit p
  | setImage p pg sz eip esp =>
    cases h
    exact .setImage p pg sz eip esp

end Step
end Xv6
