import Xv6.Proc.Effects
import Xv6.Proc.Overrun

/-! # Parents, pids and the operations on them -/
namespace Xv6.Sys
open Function Prog Fs
open KProg hiding panic

/-- What the life cycle of a process is about. -/
structure Kin where
  life : Life
  pid : ℤ
  parent : Option Slot
  userid : CStr

structure Census where
  kin : Slot → Kin
  nextpid : ℤ
  initproc : Option Slot

def kin (pr : Proc) : Kin := ⟨lifeOf pr.state, pr.pid, pr.parent, pr.userid⟩

def census (t : PTable) : Census := ⟨fun q => kin (t.proc q), t.nextpid, t.initproc⟩

namespace Census

def set (c : Census) (q : Slot) (x : Kin) : Census := { c with kin := update c.kin q x }

@[simp] theorem set_self (c : Census) (q : Slot) (x : Kin) : (c.set q x).kin q = x := update_self ..
theorem set_of_ne (h : r ≠ q) (c : Census) (x : Kin) : (c.set q x).kin r = c.kin r :=
  update_of_ne h ..
@[simp] theorem set_kin (c : Census) (q : Slot) : c.set q (c.kin q) = c := by
  simp only [set, update_eq_self]

/-- The parent of `q` after the children of `p` are passed to init. -/
def passed (c : Census) (p q : Slot) : Option Slot :=
  if (c.kin q).parent = some p then c.initproc else (c.kin q).parent

def reparent (c : Census) (p : Slot) : Census :=
  { c with kin := fun q => { c.kin q with parent := c.passed p q } }

end Census

/-- The census after an operation and its answer. -/
inductive KinEffect (c : Census) : (o : Op) → o.Ans → Census → Prop
  | same {o : Op} {b : o.Ans} (h : Aside o) : KinEffect c o b c
  | noSlot : KinEffect c (.proc .alloc) none c
  | alloc (np : Slot) (h : (c.kin np).life = .unused) : KinEffect c (.proc .alloc) (some np)
      { c.set np ⟨.embryo, c.nextpid, (c.kin np).parent, root⟩ with nextpid := c.nextpid + 1 }
  | abandon (np : Slot) {b : Unit} : KinEffect c (.proc (.abandon np)) b
      (c.set np { c.kin np with life := .unused })
  | initChild (np p : Slot) (pg : Vm.Pgdir) (userid : CStr) {b : Unit} :
      KinEffect c (.proc (.initChild np p pg userid)) b
        (c.set np { c.kin np with parent := some p, userid := userid })
  | publish (np : Slot) {b : Unit} : KinEffect c (.proc (.publish np)) b
      (c.set np { c.kin np with life := .active })
  | exit (p : Slot) {b : Unit} : KinEffect c (.proc (.exit p)) b
      ((c.reparent p).set p { (c.reparent p).kin p with life := .zombie })
  | noChild (p : Slot) : KinEffect c (.proc (.wait p)) (-1 : ℤ) c
  | reap (p q : Slot) (hz : (c.kin q).life = .zombie) (hp : (c.kin q).parent = some p) :
      KinEffect c (.proc (.wait p)) (c.kin q).pid (c.set q ⟨.unused, 0, none, (c.kin q).userid⟩)
  | setImage (p : Slot) (pg : Vm.Pgdir) (sz eip esp : Word) {b : Unit} :
      KinEffect c (.proc (.setImage p pg sz eip esp)) b c
  | growproc (p : Slot) (n : Word) {r : ℤ} : KinEffect c (.proc (.growproc p n)) r c
  | getadmin (p : Slot) (password : CStr) {r : ℤ} : KinEffect c (.proc (.getadmin p password)) r c
  | setmemorylimit (p : Slot) (pid : ℤ) (limit : Word) {r : ℤ} :
      KinEffect c (.proc (.setmemorylimit p pid limit)) r c
  | kill (pid : ℤ) {r : ℤ} : KinEffect c (.proc (.kill pid)) r c

section Tables
variable (t : PTable) (p : Slot)

theorem census_modify (f : Proc → Proc) : census (t.modify p f) = (census t).set p (kin (f (t.proc p))) := by
  refine congrArg (fun k => (⟨k, t.nextpid, t.initproc⟩ : Census)) (funext fun q => ?_)
  rw [PTable.modify_proc, update_apply]
  split
  · rfl
  · rfl

theorem census_modify_same {f : Proc → Proc} (hf : ∀ pr, kin (f pr) = kin pr) :
    census (t.modify p f) = census t := by
  rw [census_modify, hf]
  exact Census.set_kin (census t) p

theorem kin_wake (pr : Proc) (h : pr.state = .sleeping) : kin { pr with state := .runnable } = kin pr := by
  rw [kin, kin, h]
  rfl

theorem census_wakeup1 (chan : Chan) : census (t.wakeup1 chan) = census t :=
  congrArg (fun k => (⟨k, t.nextpid, t.initproc⟩ : Census)) (funext fun q => t.wakeup1_unseen q kin_wake chan)

/-- The loop of `exit` over the slots that are left, where init is not the caller. -/
theorem kin_reparent {p : Slot} (qs : List Slot) {t : PTable} (hp : t.initproc ≠ some p) (q : Slot) :
    kin ((t.reparent p qs).proc q) =
      (if q ∈ qs then { kin (t.proc q) with parent := (census t).passed p q } else kin (t.proc q)) ∧
    (t.reparent p qs).nextpid = t.nextpid ∧ (t.reparent p qs).initproc = t.initproc := by
  induction qs generalizing t with
  | nil => exact ⟨(if_neg List.not_mem_nil).symm, rfl, rfl⟩
  | cons r qs ih =>
    -- the rest of the loop, where slot `r` has been passed on already
    have hrest {t' : PTable} (hr : (t.proc r).parent = some p)
        (ht : census t' = (census t).set r { kin (t.proc r) with parent := t.initproc }) :
        kin ((t'.reparent p qs).proc q) =
          (if q ∈ r :: qs then { kin (t.proc q) with parent := (census t).passed p q } else kin (t.proc q)) ∧
        (t'.reparent p qs).nextpid = t.nextpid ∧ (t'.reparent p qs).initproc = t.initproc := by
      have hinit : t'.initproc = t.initproc := congrArg Census.initproc ht
      have hnext : t'.nextpid = t.nextpid := congrArg Census.nextpid ht
      have hkin : kin (t'.proc q) = ((census t).set r { kin (t.proc r) with parent := t.initproc }).kin q :=
        congrFun (congrArg Census.kin ht) q
      obtain ⟨hk, hn, hi⟩ := ih (t := t') (hinit ▸ hp)
      refine ⟨hk.trans ?_, hn.trans hnext, hi.trans hinit⟩
      by_cases hqr : q = r
      · subst hqr
        rw [Census.set_self] at hkin
        have hnew : (census t').passed p q = t.initproc := by
          have hparent : ((census t').kin q).parent = t.initproc := congrArg Kin.parent hkin
          rw [Census.passed, hparent, if_neg hp]
        have hold : (census t).passed p q = t.initproc := if_pos hr
        rw [if_pos List.mem_cons_self, hnew, hold, hkin, ite_self]
      · rw [Census.set_of_ne hqr] at hkin
        have hpassed : (census t').passed p q = (census t).passed p q := by
          have hsame : (census t').kin q = (census t).kin q := hkin
          simp only [Census.passed, hsame]
          exact congrArg (fun i => if ((census t).kin q).parent = some p then i else ((census t).kin q).parent) hinit
        rw [hpassed, hkin]
        simp only [List.mem_cons, hqr, false_or]
        rfl
    unfold PTable.reparent
    split
    case isTrue hr =>
      dsimp only
      split
      · exact hrest hr ((census_wakeup1 _ _).trans (census_modify t r _))
      · exact hrest hr (census_modify t r _)
    case isFalse hr =>
      obtain ⟨hk, hn, hi⟩ := ih hp
      refine ⟨hk.trans ?_, hn, hi⟩
      by_cases hqr : q = r
      · subst hqr
        have hold : (census t).passed p q = (t.proc q).parent := if_neg hr
        rw [if_pos List.mem_cons_self, hold]
        exact ite_self _
      · simp only [List.mem_cons, hqr, false_or]

theorem census_exit {t : PTable} {p : Slot} (hp : t.initproc ≠ some p) :
    census (t.exit p) = ((census t).reparent p).set p { ((census t).reparent p).kin p with life := .zombie } := by
  have hexit {t' : PTable} (ht : census t' = census t) :
      census ((t'.reparent p PTable.slots).modify p fun pr => { pr with state := .zombie }) =
        ((census t).reparent p).set p { ((census t).reparent p).kin p with life := .zombie } := by
    have hloop : census (t'.reparent p PTable.slots) = (census t').reparent p := by
      have hp' : t'.initproc ≠ some p := fun h => hp ((congrArg Census.initproc ht).symm.trans h)
      have hkin := kin_reparent (p := p) PTable.slots hp'
      have hall : (fun q => kin ((t'.reparent p PTable.slots).proc q)) = ((census t').reparent p).kin := by
        funext q
        have hmem : q ∈ PTable.slots := List.mem_finRange q
        rw [(hkin q).1, if_pos hmem]
        rfl
      simp only [census, hall, (hkin 0).2.1, (hkin 0).2.2]
      rfl
    rw [census_modify, hloop, ht, ← ht, ← hloop]
    rfl
  unfold PTable.exit
  dsimp only
  split
  · exact hexit (census_wakeup1 _ _)
  · exact hexit rfl

end Tables

/-- The census after a step of the process table. Where `exit` is called, init is not the
caller. -/
theorem proc_kin {t t' : PTable} {b : o.Ans} (hexit : ∀ p, o = .exit p → t.initproc ≠ some p)
    (h : t.Step o b t') : KinEffect (census t) (.proc o) b (census t') := by
  have hsame {o : ProcOp} {b : o.Ans} (ho : Aside (.proc o)) (q : Slot) {f : Proc → Proc}
      (hf : ∀ pr, kin (f pr) = kin pr) : KinEffect (census t) (.proc o) b (census (t.modify q f)) := by
    rw [census_modify_same t q hf]
    exact .same ho
  cases h with
  | proc | initproc => exact .same trivial
  | setKstack np => exact hsame (by trivial) np fun _ => by rfl
  | setCwd p i | setName p name => exact hsame (by trivial) p fun _ => by rfl
  | noSlot => exact .noSlot
  | alloc np mlfq ticks hunused =>
    have hcensus := census_modify t np (PTable.embryo mlfq ticks t.nextpid)
    have heffect := KinEffect.alloc (c := census t) np (congrArg lifeOf hunused)
    rw [show (⟨.embryo, (census t).nextpid, ((census t).kin np).parent, root⟩ : Kin) =
      kin (PTable.embryo mlfq ticks t.nextpid (t.proc np)) from rfl, ← hcensus] at heffect
    exact heffect
  | abandon np =>
    rw [census_modify]
    exact .abandon np
  | initChild np p pg userid =>
    rw [census_modify]
    exact .initChild np p pg userid
  | publish np =>
    rw [census_modify]
    exact .publish np
  | exit p =>
    rw [census_exit (hexit p rfl)]
    exact .exit p
  | noChild p => exact .noChild p
  | reap p q hparent hzombie =>
    rw [census_modify]
    exact .reap p q (congrArg lifeOf hzombie) hparent
  | setImage p pg sz eip esp =>
    rw [census_modify_same t p fun _ => by rfl]
    exact .setImage p pg sz eip esp
  | growproc p n =>
    rw [census_modify_same t p fun _ => by rfl]
    exact .growproc p n
  | denied p password => exact .getadmin p password
  | getadmin p password =>
    rw [census_modify_same t p fun _ => by rfl]
    exact .getadmin p password
  | refused p pid limit => exact .setmemorylimit p pid limit
  | setLimit p q pid limit =>
    rw [census_modify_same t q fun _ => by rfl]
    exact .setmemorylimit p pid limit
  | noProc pid => exact .kill pid
  | kill pid q =>
    rw [census_modify_same t q (PTable.killed_unseen kin_wake fun _ => rfl)]
    exact .kill pid

theorem kin_effect (hexit : ∀ p, o = .proc (.exit p) → k.pt.initproc ≠ some p) (h : o.sem k = .ok (b, k')) :
    KinEffect (census k.pt) o b (census k'.pt) := by
  have haside (ho : Aside o) : KinEffect (census k.pt) o b (census k'.pt) := by
    have hkin : (fun q => kin (k'.pt.proc q)) = fun q => kin (k.pt.proc q) := funext fun q =>
      aside_fixes (f := kin) (fun _ _ => rfl) (fun _ _ => rfl) (fun _ _ => rfl) (fun _ _ => rfl) ho q k b k' h
    have hglobals : (k'.pt.nextpid, k'.pt.initproc) = (k.pt.nextpid, k.pt.initproc) :=
      aside_globals ho k b k' h
    have hsame : census k'.pt = census k.pt := by
      simp only [census, hkin, (Prod.mk.inj hglobals).1, (Prod.mk.inj hglobals).2]
    exact hsame ▸ KinEffect.same ho
  cases o with
  | proc => exact proc_kin (fun p hp => hexit p (congrArg Op.proc hp)) (ProcOp.step h)
  | _ => exact haside trivial

end Xv6.Sys
