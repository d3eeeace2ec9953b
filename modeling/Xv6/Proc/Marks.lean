import Xv6.Proc.LifeRuns

/-! # Marks that `kill` leaves

`kill` looks for the pid in every slot, in use or not, and `allocproc` does not reset
`killed`. A mark on an unused slot is therefore a mark on the next process that gets it.
-/
namespace Xv6

namespace PTable
variable {t : PTable} {p : Slot}

def Unmarked (t : PTable) : Prop := ∀ q, (t.proc q).state = .unused → (t.proc q).killed = false

instance (t : PTable) : Decidable t.Unmarked := inferInstanceAs (Decidable (∀ q, _ → _))

/-- The pid is that of a process, and not one that an unused slot has kept. -/
def Names (t : PTable) (pid : ℤ) : Prop := ∀ q, (t.proc q).pid = pid → (t.proc q).state ≠ .unused

instance (t : PTable) (pid : ℤ) : Decidable (t.Names pid) := inferInstanceAs (Decidable (∀ q, _ → _))

namespace Unmarked
variable {f : Proc → Proc} {t' : PTable}

theorem modify (h : t.Unmarked)
    (hf : (f (t.proc p)).state = .unused → (f (t.proc p)).killed = false) : (t.modify p f).Unmarked := by
  intro q hq
  rw [modify_proc] at hq ⊢
  split
  case isTrue hqp =>
    rw [if_pos hqp] at hq
    exact hf hq
  case isFalse hqp =>
    rw [if_neg hqp] at hq
    exact h q hq

theorem modify_same (h : t.Unmarked)
    (hf : ∀ pr, (f pr).state = pr.state ∧ (f pr).killed = pr.killed) : (t.modify p f).Unmarked := by
  refine h.modify fun hq => ?_
  rw [(hf _).2]
  exact h p ((hf _).1 ▸ hq)

theorem wakeup1 (h : t.Unmarked) (chan : Chan) : (t.wakeup1 chan).Unmarked := by
  intro q hq
  simp only [PTable.wakeup1] at hq ⊢
  split
  case isTrue hs =>
    rw [if_pos hs] at hq
    cases hq
  case isFalse hs =>
    rw [if_neg hs] at hq
    exact h q hq

theorem reparent (qs : List Slot) (h : t.Unmarked) : (t.reparent p qs).Unmarked := by
  induction qs generalizing t with
  | nil => exact h
  | cons q qs ih =>
    have hparent : (t.modify q fun pr => { pr with parent := t.initproc }).Unmarked :=
      h.modify_same fun _ => ⟨rfl, rfl⟩
    unfold PTable.reparent
    split
    · dsimp only
      split
      · exact ih (hparent.wakeup1 _)
      · exact ih hparent
    · exact ih h

theorem exit (h : t.Unmarked) : (t.exit p).Unmarked := by
  unfold PTable.exit
  dsimp only
  split
  · exact ((h.wakeup1 _).reparent slots).modify fun hstate => by cases hstate
  · exact (h.reparent slots).modify fun hstate => by cases hstate

theorem allocproc (h : t.Unmarked)
    (ha : t.allocproc mlfq ticks = some (np, t')) : (t'.proc np).killed = false := by
  obtain ⟨q, hq, heq⟩ := Option.map_eq_some_iff.mp ha
  cases heq
  dsimp only
  rw [modify_proc, if_pos rfl]
  exact h np (firstUnused_eq_some hq)

/-- Every step keeps the unused slots unmarked, if `kill` marks a process and a fork that
fails has no child that is marked. -/
theorem step (h : t.Unmarked) (hkill : ∀ pid, o = .kill pid → t.Names pid)
    (habandon : ∀ np, o = .abandon np → (t.proc np).killed = false) (hs : t.Step o b t') : t'.Unmarked := by
  cases hs with
  | alloc np mlfq ticks =>
    exact h.modify (p := np) (f := embryo mlfq ticks t.nextpid) fun hstate => by cases hstate
  | abandon np => exact h.modify fun _ => habandon np rfl
  | publish => exact h.modify fun hstate => by cases hstate
  | exit => exact h.exit
  | reap => exact h.modify fun _ => rfl
  | kill pid q hq =>
    refine h.modify fun hunused => ?_
    simp only [killed] at hunused
    split at hunused
    · cases hunused
    · exact (hkill pid rfl q hq hunused).elim
  | setKstack | initChild | setCwd | setName | setImage | growproc | getadmin
  | setLimit => exact h.modify_same fun _ => ⟨rfl, rfl⟩
  | _ => exact h

end Unmarked

/-- Where no unused slot has the pid, `kill` returns 0 only for a process, and marks no
other. -/
theorem kill_marks (hpid : t.Names pid) (h : (t.kill pid).1 = 0) :
    ∃ q, (t.proc q).state ≠ .unused ∧ (t.proc q).pid = pid ∧ ((t.kill pid).2.proc q).killed = true ∧
      ∀ r, r ≠ q → (t.kill pid).2.proc r = t.proc r := by
  obtain hkill | ⟨q, hq, hkill⟩ := kill_cases t pid
  · rw [hkill] at h
    cases h
  · rw [hkill]
    refine ⟨q, hpid q hq, hq, ?_, fun r hr => ?_⟩
    · rw [modify_proc, if_pos rfl]
      rfl
    · rw [modify_proc, if_neg hr]

end PTable

namespace Sys
open Prog

/-- What a step does for the marks to be those of processes: names fit their field, `kill`
is not given what an unused slot has kept, and a fork that fails for want of memory has no
child that is marked. -/
def MarksProcesses (s : LifePool) : LifeLabel → Prop
  | .start _ (.fork2 username) => username.length < 16
  | .exec _ (.proc (.kill pid)) _ => s.shared.k.pt.Names pid
  | .exec _ (.proc (.abandon np)) _ => (s.shared.k.pt.proc np).killed = false
  | _ => True

theorem MarksProcesses.shortNames (h : MarksProcesses s l) : ShortNames s l := by
  cases l with
  | start i c =>
    cases c with
    | fork2 => exact h
    | _ => trivial
  | exec => trivial

theorem unmarked_op (h : s.shared.k.pt.Unmarked)
    (hc : MarksProcesses s (.exec i o b)) (ho : o.sem s.shared.k = .ok (b, k')) : k'.pt.Unmarked := by
  have haside (ha : Aside o) : k'.pt.Unmarked := by
    intro q hq
    have hsame := aside_fixes (f := fun pr => (pr.state, pr.killed)) (fun _ _ => rfl) (fun _ _ => rfl)
      (fun _ _ => rfl) (fun _ _ => rfl) ha q _ b k' ho
    obtain ⟨hstate, hkilled⟩ := Prod.mk.inj hsame
    rw [hkilled]
    exact h q (hstate ▸ hq)
  cases o with
  | proc =>
    refine h.step (fun pid hpid => ?_) (fun np hnp => ?_) (ProcOp.step ho)
    · subst hpid
      exact hc
    · subst hnp
      exact hc
  | _ => exact haside trivial

/-- In every interleaving whose steps put marks on processes only: `kill` returns 0 only for
the pid of a process, of which there is one, and marks that process alone; and the slot that
the next `fork` gets is not marked. -/
theorem marks_processes {s₀ s : LifePool} {tr : List (LifePool × LifeLabel)} (hr : Run LifeStep s₀ tr s)
    (h₀ : Orderly s₀) (hclean : s₀.shared.k.pt.Unmarked) (hc : Meets MarksProcesses tr) :
    (∀ pid, s.shared.k.pt.Names pid → (s.shared.k.pt.kill pid).1 = 0 →
      ∃ q, (s.shared.k.pt.proc q).state ≠ .unused ∧ (s.shared.k.pt.proc q).pid = pid ∧
        ((s.shared.k.pt.kill pid).2.proc q).killed = true ∧
        ∀ r, r ≠ q → (s.shared.k.pt.proc r).pid ≠ pid ∧ (s.shared.k.pt.kill pid).2.proc r = s.shared.k.pt.proc r) ∧
    ∀ mlfq ticks np t, s.shared.k.pt.allocproc mlfq ticks = some (np, t) → (t.proc np).killed = false := by
  obtain ⟨hrun, hawake⟩ := run_guarded.mp hr
  have hboth : Meets (fun s l => MarksProcesses s l ∧
      ∀ i c, l = .start i c → lifeOf (s.shared.k.pt.proc i).state = .active) tr :=
    fun e he => ⟨hc e he, hawake e he⟩
  obtain ⟨γ, ⟨hordered, hunmarked⟩, -⟩ := Pool.run_inv (P := kinship)
    (I := fun ls t γ => Ordered ls t γ ∧ t.k.pt.Unmarked) (J := fun g => g.child = none)
    (fun ls s γ i c h hc _ => by
      obtain ⟨hobeys, hnext⟩ := ordered_start h.1 hc.1.shortNames (hc.2 i c rfl)
      exact ⟨_, hobeys, hnext, h.2⟩)
    (fun ls s γ i o b t h hc hallow ho => by
      obtain ⟨hans, hnext⟩ := ordered_next h.1 hallow ho
      exact ⟨hans, hnext, unmarked_op h.2 hc.1 (kin_of_sem h.1 hallow ho).2.1⟩)
    hrun hboth ⟨⟨(ordered_init h₀).1, hclean⟩, (ordered_init h₀).2⟩
  refine ⟨fun pid hpid hkill => ?_, fun mlfq ticks np t ha => hunmarked.allocproc ha⟩
  obtain ⟨q, hq, hpq, hmarked, hother⟩ := PTable.kill_marks hpid hkill
  refine ⟨q, hq, hpq, hmarked, fun r hr => ⟨fun hpr => hr ?_, hother r hr⟩⟩
  exact hordered.registry.pids r q (used_of_state (hpid r hpr)) (used_of_state hq) (hpr.trans hpq.symm)

/-- Init kills its child. -/
theorem marks_processes_child : ∃ tr s, Run LifeStep (withInit grandchild 4 []) tr s ∧
    (s.shared.k.pt.proc 2).killed = true ∧
    ∀ np t, s.shared.k.pt.allocproc false 0 = some (np, t) → (t.proc np).killed = false := by
  let s₀ := withInit grandchild 4 []
  let s₁ : LifePool := { s₀ with thread := Function.update s₀.thread 0 ((LifeCall.kill 2).body 0) }
  have hstart : LifeStep s₀ (.start 0 (.kill 2)) s₁ :=
    ⟨Pool.Step.start (LifeCall.kill 2) (a := 0) rfl, fun i c hl => by
      cases hl
      rfl⟩
  have htest : (Lives.sem (.proc (.kill 2))).test s₀.shared (fun _ s => (s.k.pt.proc 2).killed) = true := by
    decide +kernel
  obtain ⟨r, t, ho, ht⟩ := Comp.test_eq_true htest
  have hkill : LifeStep s₁ (.exec 0 (.proc (.kill 2)) r) _ :=
    ⟨Pool.Step.exec (o := Op.proc (.kill 2)) (k := fun r : ℤ => Prog.ret r) rfl ho, fun i c hl => by cases hl⟩
  have hrun := Run.snoc (Run.snoc Run.start hstart) hkill
  have hnames : MarksProcesses s₁ (.exec 0 (.proc (.kill 2)) r) := show s₀.shared.k.pt.Names 2 by decide +kernel
  have hfirst : MarksProcesses s₀ (.start 0 (.kill 2)) := trivial
  have hmeets := meets_snoc.mpr ⟨meets_snoc.mpr ⟨meets_nil MarksProcesses, hfirst⟩, hnames⟩
  exact ⟨_, _, hrun, ht, (marks_processes hrun grandchild_orderly (by decide +kernel) hmeets).2 false 0⟩

/-- Init calls `kill(0)`, which finds slot 1, and its next child starts with the mark. -/
theorem kill_marks_unused : (∀ q, ((withInit grandchild 4 []).shared.k.pt.proc q).pid = 0 →
      ((withInit grandchild 4 []).shared.k.pt.proc q).state = .unused) ∧
    ((withInit grandchild 4 []).shared.k.pt.kill 0).1 = 0 ∧
    ∃ tr s, Run LifeStep (withInit grandchild 4 []) tr s ∧ Orderly (withInit grandchild 4 []) ∧
      (withInit grandchild 4 []).shared.k.pt.Unmarked ∧
      (s.shared.k.pt.proc 1).state = .runnable ∧ (s.shared.k.pt.proc 1).killed = true := by
  refine ⟨by decide +kernel, by decide +kernel, ?_⟩
  have htest : (Pool.alone Lives.sem LifeCall.body (fun s i _ => lifeOf (s.k.pt.proc i).state = .active)
      [(0, .kill 0), (0, .fork)]).test (withInit grandchild 4 []).shared
      (fun _ s => (s.k.pt.proc 1).state = .runnable ∧ (s.k.pt.proc 1).killed = true) = true := by decide +kernel
  obtain ⟨_, t, hrun, ht⟩ := Comp.test_eq_true htest
  obtain ⟨tr, th, hr, -, hok⟩ := Pool.run_calls grandchild_orderly.returned hrun
  exact ⟨tr, _, run_guarded.mpr ⟨hr, fun e he i c hl => of_decide_eq_true (hok e he i c hl)⟩, grandchild_orderly,
    by decide +kernel, of_decide_eq_true ht⟩

end Sys
end Xv6
