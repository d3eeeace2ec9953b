import Xv6.Proc.LifeRuns

/-! # Who may set whose priority

`setpriority` is called between the steps of `fork`, `fork2`, `exit`, `wait` and `kill`. It
follows the parent pointer of every slot with the pid, and so of slots that have no parent.
-/
namespace Xv6
open Function

namespace PTable
variable {t t' : PTable} {caller : Slot} {pid priority r : ℤ}

def IsChild (t : PTable) (caller : Slot) (pid : ℤ) (q : Slot) : Prop :=
  (t.proc q).state ≠ .unused ∧ (t.proc q).pid = pid ∧ (t.proc q).parent = some caller

instance : DecidablePred (t.IsChild caller pid) := fun _ => inferInstanceAs (Decidable (_ ∧ _))

def InRange (priority : ℤ) : Prop := MIN_PRIORITY ≤ priority ∧ priority ≤ MAX_PRIORITY

instance : Decidable (InRange priority) := inferInstanceAs (Decidable (_ ∧ _))

def ranked (t : PTable) (caller : Slot) (pid priority : ℤ) : PTable where
  proc q := if t.IsChild caller pid q then { t.proc q with priority := priority } else t.proc q
  nextpid := t.nextpid
  initproc := t.initproc

/-- The call returns, with the value that says what it has done, and does nothing but that. -/
def SetsPriority (t : PTable) (caller : Slot) (pid priority : ℤ) : Prop :=
  ∃ r t', t.setpriority caller pid priority = some (r, t') ∧
    (r = -2 ↔ ¬ InRange priority) ∧ (r = 0 ↔ InRange priority ∧ ∃ q, t.IsChild caller pid q) ∧
    (r = -1 ↔ InRange priority ∧ ¬ ∃ q, t.IsChild caller pid q) ∧
    t' = if InRange priority then t.ranked caller pid priority else t

def Parented (t : PTable) (pid : ℤ) : Prop := ∀ q, (t.proc q).pid = pid → (t.proc q).parent ≠ none

instance : Decidable (t.Parented pid) := inferInstanceAs (Decidable (∀ _, _))

theorem outOfRange_iff : (priority < MIN_PRIORITY ∨ MAX_PRIORITY < priority) ↔ ¬ InRange priority := by
  unfold InRange
  omega

/-- Where the parents have different pids and are in use, the test on the pids of two
processes is one on the processes. -/
theorem setsPriority_iff (hunused : ∀ q, (t.proc q).state = .unused → (t.proc q).parent = none)
    (hparent : ∀ q p, (t.proc q).state ≠ .unused → (t.proc q).parent = some p →
      (t.proc p).pid = (t.proc caller).pid → p = caller) :
    t.SetsPriority caller pid priority ↔ ¬ InRange priority ∨ t.Parented pid := by
  by_cases hrange : InRange priority
  swap
  · refine iff_of_true ⟨-2, t, ?_, ?_, ?_, ?_, ?_⟩ (.inl hrange)
    · rw [setpriority, if_pos (outOfRange_iff.mpr hrange)]
    all_goals simp [hrange]
  have hin : ¬ (priority < MIN_PRIORITY ∨ MAX_PRIORITY < priority) := fun h => outOfRange_iff.mp h hrange
  unfold SetsPriority setpriority
  simp only [if_neg hin]
  by_cases hnull : ∃ p, (t.proc p).pid = pid ∧ (t.proc p).parent = none
  · refine iff_of_false ?_ ?_
    · rintro ⟨r, t', hset, -⟩
      rw [if_pos hnull] at hset
      cases hset
    · rintro (hout | hpar)
      · exact hout hrange
      · obtain ⟨p, hpid, hnone⟩ := hnull
        exact hpar p hpid hnone
  · have hpar : t.Parented pid := fun q hq hnone => hnull ⟨q, hq, hnone⟩
    refine iff_of_true ?_ (.inr hpar)
    have hhit (q : Slot) : ((t.proc q).pid = pid ∧
        ∃ p, (t.proc q).parent = some p ∧ (t.proc p).pid = (t.proc caller).pid) ↔ t.IsChild caller pid q := by
      constructor
      · rintro ⟨hpid, p, hp, hsame⟩
        have hused : (t.proc q).state ≠ .unused := fun hs => hpar q hpid (hunused q hs)
        exact ⟨hused, hpid, hparent q p hused hp hsame ▸ hp⟩
      · rintro ⟨-, hpid, hp⟩
        exact ⟨hpid, caller, hp, rfl⟩
    simp only [if_neg hnull, hhit, hrange, true_and, not_true_eq_false, iff_false]
    by_cases hchild : ∃ q, t.IsChild caller pid q
    · exact ⟨0, _, if_pos hchild, by decide, by simp [hchild], by simp [hchild], rfl⟩
    · refine ⟨-1, t, if_neg hchild, by decide, by simp [hchild], by simp [hchild], ?_⟩
      have hnone (q : Slot) : ¬ t.IsChild caller pid q := fun h => hchild ⟨q, h⟩
      simp [ranked, hnone]

theorem setpriority_proc (h : t.setpriority caller pid priority = some (r, t')) :
    t'.nextpid = t.nextpid ∧ t'.initproc = t.initproc ∧ ∀ q, ∃ n, t'.proc q = { t.proc q with priority := n } := by
  unfold setpriority at h
  split at h
  · cases h
    exact ⟨rfl, rfl, fun q => ⟨_, rfl⟩⟩
  split at h
  · cases h
  dsimp only at h
  split at h
  · cases h
    refine ⟨rfl, rfl, fun q => ?_⟩
    dsimp only
    split
    · exact ⟨priority, rfl⟩
    · exact ⟨_, rfl⟩
  · cases h
    exact ⟨rfl, rfl, fun q => ⟨_, rfl⟩⟩

end PTable

namespace Sys
open Prog

theorem census_setpriority (h : t.setpriority caller pid priority = some (r, t')) : census t' = census t := by
  obtain ⟨hnext, hinit, hproc⟩ := PTable.setpriority_proc h
  have hkin : (fun q => kin (t'.proc q)) = fun q => kin (t.proc q) := by
    funext q
    obtain ⟨n, hn⟩ := hproc q
    rw [hn]
    rfl
  simp only [census, hkin, hnext, hinit]

inductive TableLabel
  | life (l : LifeLabel)
  | setpriority (caller : Slot) (pid priority : ℤ)

/-- A step of the calls on the life of processes, or a whole call of `setpriority`, which
holds `ptable.lock`. -/
inductive TableStep : LifePool → TableLabel → LifePool → Prop
  | life {s s' : LifePool} {l : LifeLabel} (h : LifeStep s l s') : TableStep s (.life l) s'
  | setpriority {s : LifePool} {caller : Slot} {pid priority r : ℤ} {t : PTable}
      (h : s.shared.k.pt.setpriority caller pid priority = some (r, t)) :
      TableStep s (.setpriority caller pid priority) { s with shared := { s.shared with k := { s.shared.k with pt := t } } }

def NamesFit (s : LifePool) : TableLabel → Prop
  | .life l => ShortNames s l
  | .setpriority _ _ _ => True

def Rooted (c : Census) : Prop := ∀ i, c.initproc = some i → (c.kin i).parent = none

instance (c : Census) : Decidable (Rooted c) := inferInstanceAs (Decidable (∀ _, _))

def Fostered (c : Census) (γ : Slot → Kinship) : Prop := ∀ q, (c.kin q).life = .embryo → ∃ i, (γ i).child = some q

section Fostered
variable {c c' : Census} {γ : Slot → Kinship} {i : Slot} {g : Kinship} {o : Op} {b : o.Ans} {exited reaped : List ℤ}

theorem Fostered.set (h : Fostered c γ) (hc : ∀ q, (c'.kin q).life = .embryo →
    g.child = some q ∨ (c.kin q).life = .embryo ∧ (γ i).child ≠ some q) : Fostered c' (update γ i g) := by
  intro q hq
  rcases hc q hq with hg | ⟨hlife, hne⟩
  · exact ⟨i, by rwa [update_self]⟩
  · obtain ⟨j, hj⟩ := h q hlife
    have hji : j ≠ i := by
      rintro rfl
      exact hne hj
    exact ⟨j, by rwa [update_of_ne hji]⟩

theorem Fostered.same (h : Fostered c γ) (hchild : g.child = (γ i).child)
    (hc : ∀ q, (c'.kin q).life = .embryo → (c.kin q).life = .embryo) : Fostered c' (update γ i g) := by
  refine h.set fun q hq => ?_
  by_cases hg : (γ i).child = some q
  · exact .inl (hchild.trans hg)
  · exact .inr ⟨hc q hq, hg⟩

theorem Fostered.next (h : Fostered c γ) (hallow : (γ i).Allows o) (ho : KinEffect c o b c') :
    Fostered c' (update γ i ((γ i).next o b)) := by
  -- a slot that is an embryo no longer, while the others stay as they are
  have hother {q r : Slot} {x : Kin} (hx : x.life ≠ .embryo) (hr : ((c.set q x).kin r).life = .embryo) :
      r ≠ q ∧ (c.kin r).life = .embryo := by
    have hrq : r ≠ q := by
      rintro rfl
      rw [Census.set_self] at hr
      exact hx hr
    rw [Census.set_of_ne hrq] at hr
    exact ⟨hrq, hr⟩
  cases ho with
  | same ha => exact h.same (by rw [(aside_kinship ha).2 b]) fun _ => id
  | noSlot =>
    refine h.set fun q hq => .inr ⟨hq, ?_⟩
    rw [hallow.1]
    simp
  | alloc np =>
    refine h.set fun q hq => ?_
    by_cases hqnp : q = np
    · rw [hqnp]
      exact .inl rfl
    · dsimp only at hq
      rw [Census.set_of_ne hqnp] at hq
      refine .inr ⟨hq, ?_⟩
      rw [hallow.1]
      simp
  | abandon | publish =>
    refine h.set fun q hq => ?_
    obtain ⟨hne, hlife⟩ := hother (by simp) hq
    refine .inr ⟨hlife, ?_⟩
    rw [hallow.1]
    exact fun heq => hne (Option.some.inj heq).symm
  | initChild np =>
    refine h.same rfl fun q hq => ?_
    by_cases hqnp : q = np
    · rw [hqnp, Census.set_self] at hq
      rw [hqnp]
      exact hq
    · rwa [Census.set_of_ne hqnp] at hq
  | exit p =>
    refine h.same rfl fun q hq => ?_
    by_cases hqp : q = p
    · rw [hqp, Census.set_self] at hq
      cases hq
    · rwa [Census.set_of_ne hqp] at hq
  | reap => exact h.same rfl fun r hr => (hother (by simp) hr).2
  | noChild | setImage | growproc | getadmin | setmemorylimit | kill => exact h.same rfl fun _ => id

/-- Parents are given to embryos only, and `exit` passes children on. -/
theorem Rooted.next (h : Rooted c) (hinv : LifeInv c exited reaped γ) (hallow : (γ i).Allows o) (ho : KinEffect c o b c') :
    Rooted c' := by
  have hset {q : Slot} {x : Kin} (hx : c.initproc = some q → x.parent = none) : Rooted (c.set q x) := by
    intro j hj
    by_cases hjq : j = q
    · rw [hjq, Census.set_self]
      exact hx (hjq ▸ hj)
    · rw [Census.set_of_ne hjq]
      exact h j hj
  cases ho with
  | alloc np => exact hset (q := np) (h np)
  | abandon np | publish np => exact hset (h np)
  | reap => exact hset fun _ => rfl
  | initChild np =>
    refine hset fun hnp => ?_
    obtain ⟨j, hj, hactive⟩ := hinv.registry.init
    obtain rfl : np = j := Option.some.inj (hnp.symm.trans hj)
    have hembryo := (hinv.threads.child i np hallow.1).1
    rw [hactive] at hembryo
    cases hembryo
  | exit p =>
    intro j hj
    have hpassed : c.passed p j = none := by
      rw [Census.passed, h j hj]
      rfl
    by_cases hjp : j = p
    · rw [hjp, Census.set_self]
      exact hjp ▸ hpassed
    · rw [Census.set_of_ne hjp]
      exact hpassed
  | same | noSlot | noChild | setImage | growproc | getadmin | setmemorylimit | kill => exact h

theorem parent_used (hinv : LifeInv c exited reaped γ) (hheld : Fostered c γ) (hroot : Rooted c)
    (hq : (c.kin q).life ≠ .unused) (hp : (c.kin q).parent = some p) : (c.kin p).life = .active := by
  have hborn (hlife : (c.kin q).life = .active ∨ (c.kin q).life = .zombie) : (c.kin p).life = .active := by
    have hinit : c.initproc ≠ some q := fun hi => by
      rw [hroot q hi] at hp
      cases hp
    obtain ⟨p', hp', hactive⟩ := hinv.registry.parents q hlife hinit
    obtain rfl : p = p' := Option.some.inj (hp.symm.trans hp')
    exact hactive
  cases hlife : (c.kin q).life with
  | unused => exact (hq hlife).elim
  | active => exact hborn (.inl hlife)
  | zombie => exact hborn (.inr hlife)
  | embryo =>
    obtain ⟨i, hi⟩ := hheld q hlife
    obtain ⟨-, halive, hparent⟩ := hinv.threads.child i q hi
    rw [hp] at hparent
    split at hparent
    · cases hparent
      exact hinv.threads.alive p halive
    · cases hparent

end Fostered

/-- No call is in progress, no child is in the making, and init has no parent. -/
structure Established (s : LifePool) : Prop extends Orderly s where
  grown : ∀ q, (s.shared.k.pt.proc q).state ≠ .embryo
  rooted : Rooted (census s.shared.k.pt)

abbrev Tended (ls : List LifeLabel) (s : Lives) (γ : Slot → Kinship) : Prop :=
  Ordered ls s γ ∧ Fostered (census s.k.pt) γ ∧ Rooted (census s.k.pt)

theorem embryo_of_life (h : ((census t).kin q).life = .embryo) : (t.proc q).state = .embryo := by
  have hlife : lifeOf (t.proc q).state = .embryo := h
  revert hlife
  cases (t.proc q).state <;> simp [lifeOf]

theorem tended_run (hr : Run TableStep s0 tr s) (h0 : Established s0) (hc : Meets NamesFit tr) :
    ∃ γ, Pool.Inv kinship Tended (fun g => g.child = none) [] s γ := by
  induction hr with
  | start =>
    obtain ⟨hordered, hobeys⟩ := ordered_init h0.toOrderly
    exact ⟨_, ⟨hordered, fun q hq => (h0.grown q (embryo_of_life hq)).elim, h0.rooted⟩, hobeys⟩
  | snoc _ hs ih =>
    obtain ⟨hc, hl⟩ := meets_snoc.mp hc
    obtain ⟨γ, hγ⟩ := ih hc
    cases hs with
    | setpriority h =>
      obtain ⟨⟨hordered, hheld⟩, hobeys⟩ := hγ
      have hcensus := census_setpriority h
      refine ⟨γ, ⟨?_, ?_⟩, hobeys⟩
      · unfold Ordered
        rwa [hcensus]
      · rwa [hcensus]
    | life h =>
      obtain ⟨hstep, hawake⟩ := h
      obtain ⟨γ', htended, hobeys⟩ := Pool.step_inv (P := kinship) (I := Tended) (J := fun g => g.child = none)
        (C := fun s l => ShortNames s l ∧ ∀ i c, l = .start i c → lifeOf (s.shared.k.pt.proc i).state = .active)
        (fun ls s γ i c h hc hJ => by
          obtain ⟨hbody, hI⟩ := ordered_start h.1 hc.1 (hc.2 i c rfl)
          exact ⟨_, hbody, hI, h.2.1.same hJ.symm fun _ => id, h.2.2⟩)
        (fun ls s γ i o b t h _ hallow ho => by
          obtain ⟨hans, hI⟩ := ordered_next h.1 hallow ho
          have heffect := (kin_of_sem h.1 hallow ho).1
          exact ⟨hans, hI, h.2.1.next hallow heffect, h.2.2.next h.1 hallow heffect⟩) hγ ⟨hl, hawake⟩ hstep
      exact ⟨γ', htended, hobeys⟩

/-- In every state that the calls reach while no name overruns its field, `setpriority` does
what it is for unless the priority is in range and a slot with the pid has no parent: an
unused slot, where the pid is 0, init, or a child that `fork` has just made. -/
theorem setpriority_iff {s₀ s : LifePool} {tr : List (LifePool × TableLabel)} (hr : Run TableStep s₀ tr s)
    (h₀ : Established s₀) (hc : Meets NamesFit tr) {caller : Slot} (hcaller : (s.shared.k.pt.proc caller).state ≠ .unused)
    (pid priority : ℤ) :
    s.shared.k.pt.SetsPriority caller pid priority ↔
      ¬ PTable.InRange priority ∨ s.shared.k.pt.Parented pid := by
  obtain ⟨γ, ⟨hordered, hheld, hroot⟩, -⟩ := tended_run hr h₀ hc
  refine PTable.setsPriority_iff (fun q hq => hordered.registry.bare q (congrArg lifeOf hq)) fun q p hq hparent hpid => ?_
  have hactive := parent_used hordered hheld hroot (used_of_state hq) hparent
  exact hordered.registry.pids p caller (by rw [hactive]; simp) (used_of_state hcaller) hpid

theorem grandchild_established : Established (withInit grandchild 4 []) where
  toOrderly := grandchild_orderly
  grown := by decide +kernel
  rooted := by decide +kernel

/-- Init sets the priority of its child. -/
theorem setpriority_iff_child : (withInit grandchild 4 []).shared.k.pt.SetsPriority 0 2 7 :=
  (setpriority_iff Run.start grandchild_established (meets_nil _) (by decide +kernel) 2 7).mpr (Or.inr (by decide +kernel))

/-- Init calls `setpriority(0, 7)`: the slots that are not in use have the pid 0 and no
parent. -/
theorem setpriority_follows_null : Established (withInit grandchild 4 []) ∧
    ((withInit grandchild 4 []).shared.k.pt.proc 0).state = .running ∧
    (withInit grandchild 4 []).shared.k.pt.setpriority 0 0 7 = none :=
  ⟨grandchild_established, rfl, Option.isNone_iff_eq_none.mp (by decide +kernel)⟩

end Sys
end Xv6
