import Xv6.Lib.Pool
import Xv6.Proc.Kinship

/-! # The life cycle of processes

In every interleaving of `fork`, `fork2`, `exit`, `wait` and `kill` in which no name
overruns its field, the processes in use have different pids, all of them but init have a
parent that is alive, and `wait` returns each pid once, to the parent, after its process
has exited.
-/
namespace Xv6.Sys
open Function Prog Fs Census
open KProg hiding panic

/-- Who calls, who is init, and the slot of the child in the making with whether it has
its parent. -/
structure Kinship where
  self : Slot
  init : Option Slot
  alive : Bool := true
  child : Option Slot := none
  named : Bool := false

namespace Kinship

def Allows (g : Kinship) : Op → Prop
  | .proc .alloc => g.child = none ∧ g.alive = true
  | .proc (.abandon np) => g.child = some np ∧ g.named = false
  | .proc (.initChild np p _ userid) => g.child = some np ∧ p = g.self ∧ userid.length < 16
  | .proc (.publish np) => g.child = some np ∧ g.named = true
  | .proc (.exit p) => p = g.self ∧ g.alive = true ∧ g.child = none ∧ g.init ≠ some p
  | .proc (.wait p) => p = g.self ∧ g.child = none
  | _ => True

def Answers (g : Kinship) : (o : Op) → o.Ans → Prop
  | .proc (.proc _), pr => pr.userid.length < 16
  | .proc .initproc, i => i = g.init
  | _, _ => True

def next (g : Kinship) : (o : Op) → o.Ans → Kinship
  | .proc .alloc, r => { g with child := r, named := false }
  | .proc (.abandon _), _ => { g with child := none, named := false }
  | .proc (.initChild _ _ _ _), _ => { g with named := true }
  | .proc (.publish _), _ => { g with child := none, named := false }
  | .proc (.exit _), _ => { g with alive := false }
  | _, _ => g

end Kinship

def kinship : Protocol Op Op.Ans where
  Ghost := Kinship
  allow := Kinship.Allows
  answer := Kinship.Answers
  next := Kinship.next

inductive LifeCall
  | fork
  | fork2 (username : CStr)
  | exit
  | wait
  | kill (pid : ℤ)

/-- `exit` does not return; its end stands for the last switch to the scheduler. -/
def LifeCall.body (p : Slot) : LifeCall → KProg ℤ
  | fork => Sys.fork p
  | fork2 username => Sys.fork2 p username
  | exit => do
    Sys.exit p
    return 0
  | wait => Sys.wait p
  | kill pid => Sys.kill pid

section Obeys
variable {α β : Type} {p : Slot} {g : Kinship} {x : KProg α}

theorem aside_kinship (ho : Aside o) : g.Allows o ∧ ∀ b, g.next o b = g := by
  cases o with
  | proc o =>
    cases o with
    | proc | initproc | setKstack | setCwd | setName => exact ⟨trivial, fun _ => rfl⟩
    | _ => exact ho.elim
  | _ => exact ⟨trivial, fun _ => rfl⟩

theorem routine_kin {f : α → KProg β} {Q : β → Kinship → Prop} (h : x.Uses Routine)
    (hf : ∀ a, (f a).Obeys kinship g Q) : (x >>= f).Obeys kinship g Q := by
  have hx : x.Obeys kinship g fun _ g' => g' = g := h.obeys fun _ ho => aside_kinship ho.aside
  refine hx.seq fun a g' hg => ?_
  subst hg
  exact hf a

theorem allocproc_kin (hchild : g.child = none) (halive : g.alive = true) :
    allocproc.Obeys kinship g fun r g' => g' = { g with child := r, named := false } := by
  refine obeys_bind_call ⟨hchild, halive⟩ fun (r : Option Slot) _ => ?_
  cases r with
  | none => rfl
  | some =>
    refine routine_kin (uses_call trivial) fun (f : Option Vm.Frame) => ?_
    cases f with
    | none => exact obeys_bind_call ⟨rfl, rfl⟩ fun _ _ => rfl
    | some => exact routine_kin (uses_call trivial) fun _ => rfl

theorem forkWith_kin {userid : Proc → CStr} (hself : g.self = p) (hchild : g.child = none)
    (halive : g.alive = true) (hname : ∀ pr : Proc, pr.userid.length < 16 → (userid pr).length < 16) :
    (forkWith p userid).Obeys kinship g fun _ g' => g'.child = none := by
  refine (allocproc_kin hchild halive).seq fun r g' hg => ?_
  subst hg
  cases r with
  | none => rfl
  | some np =>
    refine obeys_bind_call trivial fun (curproc : Proc) hcur => ?_
    refine routine_kin (uses_call trivial) fun (pg : Option Vm.Pgdir) => ?_
    cases pg with
    | none =>
      refine routine_kin (uses_call trivial) fun (child : Proc) => routine_kin (kfreeStack_routine _) fun _ => ?_
      exact obeys_bind_call ⟨rfl, rfl⟩ fun _ _ => rfl
    | some =>
      refine obeys_bind_call ⟨rfl, hself.symm, hname curproc hcur⟩ fun _ _ => ?_
      refine routine_kin (dupFiles_routine curproc np _) fun _ => routine_kin (dupCwd_routine np _) fun _ => ?_
      refine routine_kin (uses_call trivial) fun _ => routine_kin (uses_call trivial) fun _ => ?_
      exact obeys_bind_call ⟨rfl, rfl⟩ fun _ _ => rfl

theorem exit_kin (hself : g.self = p) (halive : g.alive = true) (hchild : g.child = none) :
    (exit p).Obeys kinship g fun _ g' => g'.child = none := by
  refine obeys_bind_call trivial fun (i : Option Slot) hi => .ite (fun _ => ⟨trivial, fun b => b.elim⟩) fun hne => ?_
  have hi : i = g.init := hi
  refine routine_kin (closeFiles_routine p _) fun _ => routine_kin (uses_call trivial) fun _ => ?_
  refine routine_kin (uses_call trivial) fun (i : Option InodeIdx) => routine_kin (putInode_routine p i) fun _ => ?_
  refine routine_kin endOp_routine fun _ => routine_kin (uses_call trivial) fun _ => ?_
  exact obeys_call ⟨hself.symm, halive, hchild, hi ▸ hne⟩ fun _ _ => hchild

theorem life_obeys {c : LifeCall} (hself : g.self = p) (halive : g.alive = true) (hchild : g.child = none)
    (hc : ∀ username, c = .fork2 username → username.length < 16) :
    (c.body p).Obeys kinship g fun _ g' => g'.child = none := by
  cases c with
  | fork => exact forkWith_kin hself hchild halive fun _ h => h
  | fork2 username => exact forkWith_kin hself hchild halive fun _ _ => hc username rfl
  | exit => exact (exit_kin hself halive hchild).seq fun _ g' hg => hg
  | wait => exact obeys_call ⟨hself.symm, hchild⟩ fun _ _ => hchild
  | kill => exact obeys_call trivial fun _ _ => hchild

end Obeys

/-- The children in the making are embryos, each in the hands of one call. -/
structure Threads (c : Census) (γ : Slot → Kinship) : Prop where
  self : ∀ i, (γ i).self = i
  init : ∀ i, (γ i).init = c.initproc
  alive : ∀ i, (γ i).alive = true → (c.kin i).life = .active
  child : ∀ i np, (γ i).child = some np → (c.kin np).life = .embryo ∧ (γ i).alive = true ∧
    (c.kin np).parent = if (γ i).named = true then some i else none
  distinct : ∀ i j np, (γ i).child = some np → (γ j).child = some np → i = j

namespace Threads
variable {c c' : Census} {γ : Slot → Kinship} {g : Kinship} {i q : Slot}

theorem set (h : Threads c γ) (hkin : ∀ r, r ≠ q → c'.kin r = c.kin r) (hinitproc : c'.initproc = c.initproc)
    (hself : g.self = i) (hinit : g.init = c.initproc)
    (hother : ∀ j, j ≠ i → ((γ j).alive = true → j ≠ q) ∧ (γ j).child ≠ some q)
    (halive : g.alive = true → i ≠ q ∧ (c.kin i).life = .active)
    (hchild : ∀ np, g.child = some np → np = q ∧ (c'.kin q).life = .embryo ∧ g.alive = true ∧
      (c'.kin q).parent = if g.named = true then some i else none) : Threads c' (update γ i g) := by
  refine ⟨forall_update (P := fun j (g : Kinship) => g.self = j) (fun j _ => h.self j) hself, ?_,
    forall_update (P := fun j (g : Kinship) => g.alive = true → (c'.kin j).life = .active) (fun j hj ha => ?_) fun ha => ?_,
    forall_update (P := fun j (g : Kinship) => ∀ np, g.child = some np → (c'.kin np).life = .embryo ∧ g.alive = true ∧
      (c'.kin np).parent = if g.named = true then some j else none) (fun j hj np hnp => ?_) fun np hnp => ?_,
    distinct_update_some (C := Kinship.child) h.distinct fun np hnp j hj => (hchild np hnp).1 ▸ (hother j hj).2⟩
  · rw [hinitproc]
    exact forall_update (P := fun _ (g : Kinship) => g.init = c.initproc) (fun j _ => h.init j) hinit
  · rw [hkin j ((hother j hj).1 ha)]
    exact h.alive j ha
  · rw [hkin i (halive ha).1]
    exact (halive ha).2
  · rw [hkin np fun heq => (hother j hj).2 (heq ▸ hnp)]
    exact h.child j np hnp
  · obtain ⟨rfl, hrest⟩ := hchild np hnp
    exact hrest

theorem ghost (h : Threads c γ) (hself : g.self = i) (hinit : g.init = c.initproc)
    (halive : g.alive = true → (c.kin i).life = .active) (hchild : g.child = none) :
    Threads c (update γ i g) := by
  have hnone (np : Slot) : g.child ≠ some np := by
    rw [hchild]
    nofun
  exact ⟨forall_update (P := fun j (g : Kinship) => g.self = j) (fun j _ => h.self j) hself,
    forall_update (P := fun _ (g : Kinship) => g.init = c.initproc) (fun j _ => h.init j) hinit,
    forall_update (P := fun j (g : Kinship) => g.alive = true → (c.kin j).life = .active) (fun j _ => h.alive j) halive,
    forall_update (P := fun j (g : Kinship) => ∀ np, g.child = some np → (c.kin np).life = .embryo ∧ g.alive = true ∧
      (c.kin np).parent = if g.named = true then some j else none) (fun j _ => h.child j) fun np hnp => (hnone np hnp).elim,
    distinct_update_some (C := Kinship.child) h.distinct fun np hnp => (hnone np hnp).elim⟩

theorem child_other (h : Threads c γ) (hnp : (γ i).child = some np) (j : Slot) :
    ((γ j).alive = true → j ≠ np) ∧ (j ≠ i → (γ j).child ≠ some np) := by
  constructor
  · rintro halive rfl
    have hembryo := (h.child i j hnp).1
    rw [h.alive j halive] at hembryo
    cases hembryo
  · intro hj hchild
    exact hj (h.distinct j i np hchild hnp)

theorem slot_other (h : Threads c γ) (hactive : (c.kin q).life ≠ .active)
    (hembryo : (c.kin q).life ≠ .embryo) (j : Slot) : ((γ j).alive = true → j ≠ q) ∧ (γ j).child ≠ some q := by
  constructor
  · rintro halive rfl
    exact hactive (h.alive j halive)
  · intro hchild
    exact hembryo (h.child j q hchild).1

theorem setChild (h : Threads c γ) (hnp : (γ i).child = some np)
    (hkin : ∀ r, r ≠ np → c'.kin r = c.kin r) (hinitproc : c'.initproc = c.initproc) (hself : g.self = (γ i).self)
    (hinit : g.init = (γ i).init) (halive : g.alive = (γ i).alive)
    (hchild : ∀ m, g.child = some m → m = np ∧ (c'.kin np).life = .embryo ∧
      (c'.kin np).parent = if g.named = true then some i else none) : Threads c' (update γ i g) := by
  have hother := h.child_other hnp
  have hcaller := (h.child i np hnp).2.1
  refine h.set hkin hinitproc (hself.trans (h.self i)) (hinit.trans (h.init i))
    (fun j hj => ⟨(hother j).1, (hother j).2 hj⟩) (fun _ => ⟨(hother i).1 hcaller, h.alive i hcaller⟩) fun m hm => ?_
  obtain ⟨rfl, hlife, hparent⟩ := hchild m hm
  exact ⟨rfl, hlife, halive.trans hcaller, hparent⟩

theorem setOther (h : Threads c γ) (hactive : (c.kin q).life ≠ .active) (hembryo : (c.kin q).life ≠ .embryo)
    (hkin : ∀ r, r ≠ q → c'.kin r = c.kin r) (hinitproc : c'.initproc = c.initproc) (hself : g.self = (γ i).self)
    (hinit : g.init = (γ i).init) (halive : g.alive = true → (γ i).alive = true)
    (hchild : ∀ np, g.child = some np → np = q ∧ (c'.kin q).life = .embryo ∧ g.alive = true ∧
      (c'.kin q).parent = if g.named = true then some i else none) : Threads c' (update γ i g) := by
  have hother := h.slot_other hactive hembryo
  refine h.set hkin hinitproc (hself.trans (h.self i)) (hinit.trans (h.init i)) (fun j _ => hother j)
    (fun ha => ⟨(hother i).1 (halive ha), h.alive i (halive ha)⟩) hchild

theorem exit_kin_of_ne {p : Slot} (hq : q ≠ p) (x : Kin) :
    ((c.reparent p).set p x).kin q = { c.kin q with parent := c.passed p q } := set_of_ne hq ..

theorem exit (h : Threads c γ) (halive : (γ i).alive = true) (hchild : (γ i).child = none) (x : Kin) :
    Threads ((c.reparent i).set i x) (update γ i { γ i with alive := false }) := by
  have hghost : Threads c (update γ i { γ i with alive := false }) :=
    h.ghost (h.self i) (h.init i) (fun ha => by cases ha) hchild
  -- the caller is no embryo, and its children are not those of other callers
  refine ⟨hghost.self, hghost.init, fun j hj => ?_, fun j np hj => ?_, hghost.distinct⟩
  · have hji : j ≠ i := by
      rintro rfl
      rw [update_self] at hj
      cases hj
    rw [exit_kin_of_ne hji]
    exact hghost.alive j hj
  · obtain ⟨hembryo, ha, hparent⟩ := hghost.child j np hj
    have hji : j ≠ i := by
      rintro rfl
      rw [update_self, hchild] at hj
      cases hj
    have hnp : np ≠ i := by
      rintro rfl
      rw [h.alive np halive] at hembryo
      cases hembryo
    have hkeep : (c.kin np).parent ≠ some i := by
      rw [hparent]
      split
      · exact fun heq => hji (Option.some.inj heq)
      · exact nofun
    rw [exit_kin_of_ne hnp]
    dsimp only
    rw [passed, if_neg hkeep]
    exact ⟨hembryo, ha, hparent⟩

end Threads

/-- The table between the steps, with the pids that have exited and those that `wait` has
returned, as history. -/
structure Registry (c : Census) (exited reaped : List ℤ) : Prop where
  fits : ∀ q, (c.kin q).userid.length < 16
  bare : ∀ q, (c.kin q).life = .unused → (c.kin q).parent = none
  init : ∃ i, c.initproc = some i ∧ (c.kin i).life = .active
  parents : ∀ q, (c.kin q).life = .active ∨ (c.kin q).life = .zombie → c.initproc ≠ some q →
    ∃ p, (c.kin q).parent = some p ∧ (c.kin p).life = .active
  positive : 0 < c.nextpid
  fresh : ∀ q, (c.kin q).life ≠ .unused → 0 < (c.kin q).pid ∧ (c.kin q).pid < c.nextpid
  pids : ∀ q r, (c.kin q).life ≠ .unused → (c.kin r).life ≠ .unused → (c.kin q).pid = (c.kin r).pid → q = r
  exited : ∀ q, (c.kin q).life = .zombie → (c.kin q).pid ∈ exited
  reaped : ∀ r ∈ reaped, r < c.nextpid ∧ ∀ q, (c.kin q).life ≠ .unused → (c.kin q).pid ≠ r

namespace Registry
variable {c : Census} {exited reaped reaped' : List ℤ} {q p np : Slot} {x : Kin} {n : ℤ}

section
variable (h : Registry c exited reaped)
include h

theorem set (hq : (c.kin q).life ≠ .active) (hx : x.userid.length < 16)
    (hbare : x.life = .unused → x.parent = none) (hparent : x.life = .active ∨ x.life = .zombie →
      ∃ p, p ≠ q ∧ x.parent = some p ∧ (c.kin p).life = .active)
    (hn : c.nextpid ≤ n) (hpid : x.life ≠ .unused → 0 < x.pid ∧ x.pid < n ∧
      ∀ r, r ≠ q → (c.kin r).life ≠ .unused → (c.kin r).pid ≠ x.pid)
    (hzombie : x.life = .zombie → x.pid ∈ exited)
    (hreaped : ∀ r ∈ reaped', r < n ∧ (x.life ≠ .unused → x.pid ≠ r) ∧
      ∀ s, s ≠ q → (c.kin s).life ≠ .unused → (c.kin s).pid ≠ r) :
    Registry { c.set q x with nextpid := n } exited reaped' := by
  have hself : (c.set q x).kin q = x := set_self ..
  have hne {r : Slot} (hr : r ≠ q) : (c.set q x).kin r = c.kin r := set_of_ne hr ..
  have hactive {r : Slot} (hr : (c.kin r).life = .active) : r ≠ q := by
    rintro rfl
    exact hq hr
  have hpositive := h.positive
  refine ⟨fun r => ?_, fun r hr => ?_, ?_, fun r hr hinit => ?_, by dsimp only; omega, fun r hr => ?_,
    fun r s hr hs hrs => ?_, fun r hr => ?_, fun r hr => ⟨(hreaped r hr).1, fun s hs => ?_⟩⟩
  all_goals dsimp only at *
  · by_cases hrq : r = q
    · rwa [hrq, hself]
    · rw [hne hrq]
      exact h.fits r
  · by_cases hrq : r = q
    · rw [hrq, hself] at hr ⊢
      exact hbare hr
    · rw [hne hrq] at hr ⊢
      exact h.bare r hr
  · obtain ⟨i, hi, hlife⟩ := h.init
    refine ⟨i, hi, ?_⟩
    rwa [hne (hactive hlife)]
  · by_cases hrq : r = q
    · rw [hrq, hself] at hr ⊢
      obtain ⟨p, hp, hpar, hlife⟩ := hparent hr
      refine ⟨p, hpar, ?_⟩
      rwa [hne hp]
    · rw [hne hrq] at hr ⊢
      obtain ⟨p, hpar, hlife⟩ := h.parents r hr hinit
      refine ⟨p, hpar, ?_⟩
      rwa [hne (hactive hlife)]
  · by_cases hrq : r = q
    · rw [hrq, hself] at hr ⊢
      exact ⟨(hpid hr).1, (hpid hr).2.1⟩
    · rw [hne hrq] at hr ⊢
      have hfresh := h.fresh r hr
      omega
  · by_cases hrq : r = q <;> by_cases hsq : s = q
    · rw [hrq, hsq]
    · rw [hrq, hself] at hr hrs
      rw [hne hsq] at hs hrs
      exact ((hpid hr).2.2 s hsq hs hrs.symm).elim
    · rw [hsq, hself] at hs hrs
      rw [hne hrq] at hr hrs
      exact ((hpid hs).2.2 r hrq hr hrs).elim
    · rw [hne hrq] at hr hrs
      rw [hne hsq] at hs hrs
      exact h.pids r s hr hs hrs
  · by_cases hrq : r = q
    · rw [hrq, hself] at hr ⊢
      exact hzombie hr
    · rw [hne hrq] at hr ⊢
      exact h.exited r hr
  · by_cases hsq : s = q
    · rw [hsq, hself] at hs ⊢
      exact (hreaped r hr).2.1 hs
    · rw [hne hsq] at hs ⊢
      exact (hreaped r hr).2.2 s hsq hs

theorem alloc (hunused : (c.kin np).life = .unused) :
    Registry { c.set np ⟨.embryo, c.nextpid, (c.kin np).parent, root⟩ with nextpid := c.nextpid + 1 } exited reaped := by
  have hpositive := h.positive
  refine h.set (by rw [hunused]; simp) (by dsimp only; decide) nofun (fun hl => by rcases hl with hl | hl <;> cases hl)
    (by omega) (fun _ => ⟨hpositive, by dsimp only; omega, fun r _ hr hpid => ?_⟩) nofun fun r hr => ?_
  · have hfresh := h.fresh r hr
    dsimp only at hpid
    omega
  · obtain ⟨hlt, hpids⟩ := h.reaped r hr
    exact ⟨by omega, fun _ hpid => by dsimp only at hpid; omega, fun s _ hs => hpids s hs⟩

theorem setKin (hembryo : (c.kin np).life = .embryo) (hpid : x.pid = (c.kin np).pid)
    (hx : x.userid.length < 16) (hbare : x.life = .unused → x.parent = none) (hzombie : x.life ≠ .zombie)
    (hparent : x.life = .active → ∃ p, p ≠ np ∧ x.parent = some p ∧ (c.kin p).life = .active) :
    Registry (c.set np x) exited reaped := by
  have hused : (c.kin np).life ≠ .unused := by
    rw [hembryo]
    simp
  refine h.set (n := c.nextpid) (by rw [hembryo]; simp) hx hbare (fun hl => hparent (hl.resolve_right hzombie)) le_rfl
    (fun _ => ?_) (fun hz => (hzombie hz).elim) fun r hr => ?_
  · rw [hpid]
    refine ⟨(h.fresh np hused).1, (h.fresh np hused).2, fun r hr hlife heq => hr (h.pids r np hlife hused heq)⟩
  · rw [hpid]
    exact ⟨(h.reaped r hr).1, fun _ => (h.reaped r hr).2 np hused, fun s _ hs => (h.reaped r hr).2 s hs⟩

theorem reap (hzombie : (c.kin q).life = .zombie) :
    Registry (c.set q ⟨.unused, 0, none, (c.kin q).userid⟩) exited (reaped ++ [(c.kin q).pid]) := by
  have hused : (c.kin q).life ≠ .unused := by
    rw [hzombie]
    simp
  refine h.set (n := c.nextpid) (by rw [hzombie]; simp) (h.fits q) (fun _ => rfl)
    (fun hl => by rcases hl with hl | hl <;> cases hl) le_rfl (fun hl => (hl rfl).elim) nofun fun r hr => ?_
  refine ⟨?_, fun hl => (hl rfl).elim, fun s hs hlife hpid => ?_⟩
  · rcases List.mem_append.mp hr with hr | hr
    · exact (h.reaped r hr).1
    · rw [List.mem_singleton.mp hr]
      exact (h.fresh q hused).2
  · rcases List.mem_append.mp hr with hr | hr
    · exact (h.reaped r hr).2 s hlife hpid
    · exact hs (h.pids s q hlife hused (hpid.trans (List.mem_singleton.mp hr)))

theorem exit (hactive : (c.kin p).life = .active) (hinit : c.initproc ≠ some p) :
    Registry ((c.reparent p).set p { (c.reparent p).kin p with life := .zombie })
      (exited ++ [(c.kin p).pid]) reaped := by
  have hused : (c.kin p).life ≠ .unused := by
    rw [hactive]
    simp
  have hself : ((c.reparent p).set p { (c.reparent p).kin p with life := .zombie }).kin p =
      { c.kin p with life := .zombie, parent := c.passed p p } := set_self ..
  have hne {r : Slot} (hr : r ≠ p) := Threads.exit_kin_of_ne (c := c) hr { (c.reparent p).kin p with life := .zombie }
  -- what stays in every slot, and the parent that a slot has now
  have hold (r : Slot) : ∃ x, ((c.reparent p).set p { (c.reparent p).kin p with life := .zombie }).kin r = x ∧
      x.pid = (c.kin r).pid ∧ x.userid = (c.kin r).userid ∧ x.parent = c.passed p r ∧
      x.life = if r = p then .zombie else (c.kin r).life := by
    by_cases hr : r = p
    · subst hr
      exact ⟨_, hself, rfl, rfl, rfl, (if_pos rfl).symm⟩
    · exact ⟨_, hne hr, rfl, rfl, rfl, (if_neg hr).symm⟩
  have hlife {r : Slot} {x : Kin} (hx : x.life = if r = p then .zombie else (c.kin r).life)
      (hl : x.life ≠ .unused) : (c.kin r).life ≠ .unused := by
    split at hx
    case isTrue hr => rwa [hr]
    case isFalse => rwa [← hx]
  obtain ⟨i, hi, hiactive⟩ := h.init
  have hip : i ≠ p := by
    rintro rfl
    exact hinit hi
  refine ⟨fun r => ?_, fun r hr => ?_, ⟨i, hi, ?_⟩, fun r hr hrinit => ?_, h.positive, fun r hr => ?_,
    fun r s hr hs hrs => ?_, fun r hr => ?_, fun n hn => ⟨(h.reaped n hn).1, fun r hr => ?_⟩⟩
  · obtain ⟨x, hx, -, huserid, -⟩ := hold r
    rw [hx, huserid]
    exact h.fits r
  · obtain ⟨x, hx, -, -, hparent, hxlife⟩ := hold r
    rw [hx] at hr ⊢
    rw [hr] at hxlife
    split at hxlife
    · cases hxlife
    · rw [hparent, passed, h.bare r hxlife.symm]
      rfl
  · rw [hne hip]
    exact hiactive
  · obtain ⟨x, hx, -, -, hparent, hxlife⟩ := hold r
    rw [hx] at hr ⊢
    have hr' : (c.kin r).life = .active ∨ (c.kin r).life = .zombie := by
      split at hxlife
      case isTrue hrp =>
        rw [hrp]
        exact .inl hactive
      case isFalse => rwa [← hxlife]
    obtain ⟨s, hs, hsactive⟩ := h.parents r hr' hrinit
    rw [hparent, passed]
    split
    case isTrue =>
      refine ⟨i, hi, ?_⟩
      rw [hne hip]
      exact hiactive
    case isFalse hnot =>
      have hsp : s ≠ p := by
        rintro rfl
        exact hnot hs
      refine ⟨s, hs, ?_⟩
      rw [hne hsp]
      exact hsactive
  · obtain ⟨x, hx, hpid, -, -, hxlife⟩ := hold r
    rw [hx] at hr ⊢
    rw [hpid]
    exact h.fresh r (hlife hxlife hr)
  · obtain ⟨x, hx, hxpid, -, -, hxlife⟩ := hold r
    obtain ⟨y, hy, hypid, -, -, hylife⟩ := hold s
    rw [hx] at hr hrs
    rw [hy] at hs hrs
    rw [hxpid, hypid] at hrs
    exact h.pids r s (hlife hxlife hr) (hlife hylife hs) hrs
  · obtain ⟨x, hx, hpid, -, -, hxlife⟩ := hold r
    rw [hx] at hr ⊢
    rw [hpid, List.mem_append]
    split at hxlife
    case isTrue hrp =>
      rw [hrp]
      exact .inr List.mem_cons_self
    case isFalse => exact Or.inl (h.exited r (hxlife.symm.trans hr))
  · obtain ⟨x, hx, hpid, -, -, hxlife⟩ := hold r
    rw [hx] at hr ⊢
    rw [hpid]
    exact (h.reaped n hn).2 r (hlife hxlife hr)

end

end Registry

/-- The kernel, with the pids of the processes that have called `exit` and those that `wait`
has returned, as history. -/
structure Lives where
  k : Kernel
  exited : List ℤ
  reaped : List ℤ

namespace Lives

def exitedAfter (t : PTable) (exited : List ℤ) : Op → List ℤ
  | .proc (.exit p) => exited ++ [(t.proc p).pid]
  | _ => exited

def reapedAfter (reaped : List ℤ) : (o : Op) → o.Ans → List ℤ
  | .proc (.wait _), (r : ℤ) => if r = -1 then reaped else reaped ++ [r]
  | _, _ => reaped

def sem (o : Op) : Comp Lives o.Ans := do
  let s ← Comp.get
  let b ← Comp.zoom Lives.k (fun s k => { s with k := k }) o.spilling
  Comp.modify fun s' => { s' with
    exited := exitedAfter s.k.pt s.exited o
    reaped := reapedAfter s.reaped o b }
  return b

theorem sem_eq_ok (h : sem o s = .ok (b, s')) : ∃ k', o.spilling s.k = .ok (b, k') ∧
      s' = ⟨k', exitedAfter s.k.pt s.exited o, reapedAfter s.reaped o b⟩ := by
  have h := Comp.get_bind h
  obtain ⟨b', s1, hzoom, h⟩ := Comp.bind_eq_ok.mp h
  obtain ⟨k', hk', rfl⟩ := Comp.zoom_eq_ok.mp hzoom
  cases h
  exact ⟨k', hk', rfl⟩

end Lives

structure LifeInv (c : Census) (exited reaped : List ℤ) (γ : Slot → Kinship) : Prop where
  threads : Threads c γ
  registry : Registry c exited reaped

namespace LifeInv
variable {c c' : Census} {exited reaped : List ℤ} {γ : Slot → Kinship} {i : Slot} {o : Op} {b : o.Ans}

theorem same (h : LifeInv c exited reaped γ) : LifeInv c exited reaped (update γ i (γ i)) := by
  rw [update_eq_self]
  exact h

theorem next (hc : c = census t) (h : LifeInv c exited reaped γ) (hallow : (γ i).Allows o)
    (ho : KinEffect c o b c') : LifeInv c' (Lives.exitedAfter t exited o) (Lives.reapedAfter reaped o b)
      (update γ i ((γ i).next o b)) := by
  cases ho with
  | same ha =>
    have hhistory : Lives.exitedAfter t exited o = exited ∧ Lives.reapedAfter reaped o b = reaped := by
      cases o with
      | proc o =>
        cases o with
        | exit | wait => exact ha.elim
        | _ => exact ⟨rfl, rfl⟩
      | _ => exact ⟨rfl, rfl⟩
    rw [(aside_kinship ha).2 b, hhistory.1, hhistory.2]
    exact h.same
  | noSlot =>
    exact ⟨h.threads.ghost (h.threads.self i) (h.threads.init i) (h.threads.alive i) rfl, h.registry⟩
  | alloc np hunused =>
    have hnone : (c.kin np).parent = none := h.registry.bare np hunused
    refine ⟨h.threads.setOther (q := np) (by rw [hunused]; simp) (by rw [hunused]; simp)
      (fun r hr => set_of_ne hr ..) rfl rfl rfl id fun m hm => ?_, h.registry.alloc hunused⟩
    cases hm
    exact ⟨rfl, congrArg Kin.life (set_self ..), hallow.2,
      (congrArg Kin.parent (set_self ..)).trans hnone⟩
  | abandon np =>
    obtain ⟨hembryo, -, hparent⟩ := h.threads.child i np hallow.1
    rw [hallow.2, if_neg Bool.false_ne_true] at hparent
    refine ⟨h.threads.setChild hallow.1 (fun r hr => set_of_ne hr ..) rfl rfl rfl rfl nofun, ?_⟩
    exact h.registry.setKin hembryo rfl (h.registry.fits np) (fun _ => hparent) (by simp) nofun
  | initChild np p =>
    obtain ⟨hnp, hp, hfits⟩ := hallow
    obtain rfl : p = i := hp.trans (h.threads.self i)
    obtain ⟨hembryo, halive, -⟩ := h.threads.child p np hnp
    refine ⟨h.threads.setChild hnp (fun r hr => set_of_ne hr ..) rfl rfl rfl rfl fun m hm => ?_, ?_⟩
    · obtain rfl : np = m := Option.some.inj (hnp.symm.trans hm)
      rw [set_self]
      exact ⟨rfl, hembryo, rfl⟩
    · refine h.registry.setKin hembryo rfl hfits (fun hl => ?_) (fun hl => ?_) fun hl => ?_
      all_goals
        dsimp only at hl
        rw [hembryo] at hl
        cases hl
  | publish np =>
    obtain ⟨hembryo, halive, hparent⟩ := h.threads.child i np hallow.1
    rw [hallow.2, if_pos rfl] at hparent
    refine ⟨h.threads.setChild hallow.1 (fun r hr => set_of_ne hr ..) rfl rfl rfl rfl nofun, ?_⟩
    refine h.registry.setKin hembryo rfl (h.registry.fits np) nofun (by simp) fun _ => ?_
    exact ⟨i, (h.threads.child_other hallow.1 i).1 halive, hparent, h.threads.alive i halive⟩
  | exit p =>
    obtain ⟨hp, halive, hchild, hinit⟩ := hallow
    obtain rfl : p = i := hp.trans (h.threads.self i)
    rw [h.threads.init p] at hinit
    subst hc
    exact ⟨h.threads.exit halive hchild _, h.registry.exit (h.threads.alive p halive) hinit⟩
  | noChild | setImage | growproc | getadmin | setmemorylimit | kill => exact h.same
  | reap p q hzombie =>
    obtain ⟨hp, hchild⟩ := hallow
    have hused : (c.kin q).life ≠ .unused := by
      rw [hzombie]
      simp
    have hpid : (c.kin q).pid ≠ -1 := by
      have hfresh := (h.registry.fresh q hused).1
      omega
    have hreaped : Lives.reapedAfter reaped (.proc (.wait p)) (c.kin q).pid = reaped ++ [(c.kin q).pid] :=
      if_neg hpid
    rw [hreaped]
    refine ⟨h.threads.setOther (q := q) (by rw [hzombie]; simp) (by rw [hzombie]; simp)
      (fun r hr => set_of_ne hr ..) rfl rfl rfl id fun m hm => ?_, h.registry.reap hzombie⟩
    cases hchild.symm.trans hm

end LifeInv
end Xv6.Sys
