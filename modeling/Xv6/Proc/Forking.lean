import Xv6.Proc.Calls

/-! # The discipline of making a child

Between `allocproc` and the end of `fork` the slot of the child belongs to the caller. A
protocol says so for every process call, with the child in the making as ghost state, and
leaves open which user ids a caller may give to a child.
-/
namespace Xv6.Sys
open Prog Fs Obeys
open KProg hiding panic

/-- Who calls, whether it may replace its image, and the slot of its child with whether
the child has its user id. -/
structure Forking where
  self : Slot
  id : CStr
  alive : Bool := true
  loads : Bool := true
  child : Option Slot := none
  named : Bool := false

namespace Forking

def Allows (N : CStr → CStr → Prop) (g : Forking) : Op → Prop
  | .proc (.abandon np) => g.child = some np
  | .proc (.initChild np p _ userid) =>
    g.child = some np ∧ p = g.self ∧ g.alive = true ∧ N g.id userid
  | .proc (.publish np) => g.child = some np ∧ g.named = true
  | .proc (.exit p) => p = g.self ∧ g.alive = true ∧ g.child = none
  | .proc (.wait _) => g.child = none
  | .proc (.setImage p _ _ _ _) => p = g.self ∧ g.alive = true ∧ g.loads = true
  | _ => True

def Answers (g : Forking) : (o : Op) → o.Ans → Prop
  | .proc (.proc p), pr => p = g.self → g.alive = true → pr.userid = g.id
  | _, _ => True

def next (g : Forking) : (o : Op) → o.Ans → Forking
  | .proc .alloc, r => { g with child := r, named := false }
  | .proc (.abandon _), _ => { g with child := none, named := false }
  | .proc (.initChild _ _ _ _), _ => { g with named := true }
  | .proc (.publish _), _ => { g with child := none, named := false }
  | .proc (.exit _), _ => { g with alive := false }
  | .proc (.setmemorylimit _ _ _), _ => { g with loads := false }
  | _, _ => g

end Forking

def forking (N : CStr → CStr → Prop) : Protocol Op Op.Ans where
  Ghost := Forking
  allow := Forking.Allows N
  answer := Forking.Answers
  next := Forking.next

section Obeys
variable {N : CStr → CStr → Prop} {α β : Type} {p : Slot} {g : Forking} {x : KProg α}

theorem Aside.rule (ho : Aside o) : g.Allows N o ∧ ∀ b, g.next o b = g := by
  cases o with
  | proc o =>
    cases o with
    | proc | initproc | setKstack | setCwd | setName => exact ⟨trivial, fun _ => rfl⟩
    | _ => exact ho.elim
  | _ => exact ⟨trivial, fun _ => rfl⟩

theorem Loads.rule (ho : Loads p o) (hself : g.self = p) (halive : g.alive = true) (hloads : g.loads = true) :
    g.Allows N o ∧ ∀ b, g.next o b = g := by
  cases o with
  | proc o =>
    cases o with
    | setImage => exact ⟨⟨ho.trans hself.symm, halive, hloads⟩, fun _ => rfl⟩
    | _ => exact Aside.rule ho
  | _ => exact Aside.rule trivial

theorem routine_obeys (h : x.Uses Routine) : x.Obeys (forking N) g fun _ g' => g' = g :=
  h.obeys fun _ ho => ho.aside.rule

theorem routine_bind {f : α → KProg β} {Q : β → Forking → Prop} (h : x.Uses Routine)
    (hf : ∀ a, (f a).Obeys (forking N) g Q) : (x >>= f).Obeys (forking N) g Q := by
  refine (routine_obeys h).seq fun a g' hg => ?_
  subst hg
  exact hf a

theorem allocproc_obeys :
    allocproc.Obeys (forking N) g fun r g' => g' = { g with child := r, named := false } := by
  refine bind ⟨trivial, fun (r : Option Slot) _ => ?_⟩
  cases r with
  | none => rfl
  | some =>
    refine routine_bind (uses_call trivial) fun (f : Option Vm.Frame) => ?_
    cases f with
    | none => exact bind ⟨rfl, fun _ _ => rfl⟩
    | some => exact routine_bind (uses_call trivial) fun _ => rfl

theorem forkWith_obeys {userid : Proc → CStr} (hself : g.self = p) (halive : g.alive = true)
    (hname : ∀ pr : Proc, pr.userid = g.id → N g.id (userid pr)) :
    (forkWith p userid).Obeys (forking N) g fun _ g' => g'.child = none := by
  refine allocproc_obeys.seq fun r g' hg => ?_
  subst hg
  cases r with
  | none => rfl
  | some np =>
    refine bind ⟨trivial, fun (curproc : Proc) hanswer => ?_⟩
    have hcur : curproc.userid = g.id := hanswer hself.symm halive
    refine routine_bind (uses_call trivial) fun (pg : Option Vm.Pgdir) => ?_
    cases pg with
    | none =>
      refine routine_bind (uses_call trivial) fun (child : Proc) => routine_bind (kfreeStack_routine _) fun _ => ?_
      exact bind ⟨rfl, fun _ _ => rfl⟩
    | some =>
      refine bind ⟨⟨rfl, hself.symm, halive, hname curproc hcur⟩, fun _ _ => ?_⟩
      refine routine_bind (dupFiles_routine curproc np _) fun _ => routine_bind (dupCwd_routine np _) fun _ => ?_
      refine routine_bind (uses_call trivial) fun _ => routine_bind (uses_call trivial) fun _ => ?_
      exact bind ⟨⟨rfl, rfl⟩, fun _ _ => rfl⟩

theorem exit_obeys (hself : g.self = p) (halive : g.alive = true) (hchild : g.child = none) :
    (exit p).Obeys (forking N) g fun _ g' => g'.child = none := by
  refine routine_bind (uses_call trivial) fun (i : Option Slot) => ite (fun _ => ?_) fun _ => ?_
  · exact (routine_obeys (panic_uses trivial)).mono fun _ g' hg => hg ▸ hchild
  refine routine_bind (closeFiles_routine p _) fun _ => routine_bind (uses_call trivial) fun _ => ?_
  refine routine_bind (uses_call trivial) fun (i : Option InodeIdx) => routine_bind (putInode_routine p i) fun _ => ?_
  refine routine_bind endOp_routine fun _ => routine_bind (uses_call trivial) fun _ => ?_
  exact obeys_call ⟨hself.symm, halive, hchild⟩ fun _ _ => hchild

def ProcCall.Permitted (N : CStr → CStr → Prop) (g : Forking) : ProcCall → Prop
  | .fork => N g.id g.id
  | .fork2 username => N g.id username
  | .exec _ _ => g.loads = true
  | .exec2 _ _ _ => g.loads = true
  | _ => True

theorem call_obeys {c : ProcCall} (hself : g.self = p) (halive : g.alive = true) (hchild : g.child = none)
    (hc : c.Permitted N g) : (c.body p).Obeys (forking N) g fun _ g' => g'.child = none := by
  have hloads {x : KProg ℤ} (hx : x.Uses (Loads p)) (h : g.loads = true) :
      x.Obeys (forking N) g fun _ g' => g'.child = none :=
    (hx.obeys fun _ ho => ho.rule hself halive h).mono fun _ g' hg => hg ▸ hchild
  cases c with
  | fork =>
    refine forkWith_obeys hself halive fun pr hpr => ?_
    rw [hpr]
    exact hc
  | fork2 => exact forkWith_obeys hself halive fun _ _ => hc
  | exec path argv => exact hloads (exec_loads p path argv) hc
  | exec2 path argv stacksize => exact hloads (exec2_loads p path argv stacksize) hc
  | exit => exact (exit_obeys hself halive hchild).seq fun _ g' hg => hg
  | wait => exact obeys_call hchild fun _ _ => hchild
  | getadmin | growproc | setmemorylimit => exact obeys_call trivial fun _ _ => hchild

end Obeys
end Xv6.Sys
