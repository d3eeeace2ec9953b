import Xv6.Proc.Lifecycle

/-! # Runs of the calls that create and end processes -/
namespace Xv6.Sys
open Prog Pool Lives

abbrev LifeLabel := Pool.Label Op Op.Ans Slot LifeCall
abbrev LifePool := Pool.State Op Op.Ans Lives Slot ℤ

/-- An operation of one of the processes. Only one that is not an embryo, a zombie or an
unused slot makes calls. -/
def LifeStep (s : LifePool) (l : LifeLabel) (s' : LifePool) : Prop :=
  Pool.Step Lives.sem LifeCall.body s l s' ∧ ∀ i c, l = .start i c → lifeOf (s.shared.k.pt.proc i).state = .active

def ShortNames (_ : LifePool) : LifeLabel → Prop
  | .start _ (.fork2 username) => username.length < 16
  | _ => True

/-- What `wait` returns is the pid of a zombie child of the caller, that has called `exit`
and that no `wait` has returned before. -/
def WaitSound (s : LifePool) : LifeLabel → Prop
  | .exec i (.proc (.wait _)) (r : ℤ) => r = -1 ∨
    (r ∈ s.shared.exited ∧ r ∉ s.shared.reaped ∧
      ∃ q, (s.shared.k.pt.proc q).pid = r ∧ (s.shared.k.pt.proc q).parent = some i ∧
        (s.shared.k.pt.proc q).state = .zombie)
  | _ => True

/-- No call is in progress, and the table is in order. -/
structure Orderly (s : LifePool) : Prop where
  returned : ∀ i, ∃ r, s.thread i = .ret r
  registry : Registry (census s.shared.k.pt) s.shared.exited s.shared.reaped

section Soundness
variable {s s₀ : LifePool} {γ : Slot → Kinship} {i : Slot} {o : Op} {b : o.Ans}

abbrev Ordered (_ : List LifeLabel) (s : Lives) (γ : Slot → Kinship) : Prop :=
  LifeInv (census s.k.pt) s.exited s.reaped γ

theorem fits_of_allows {g : Kinship} (h : g.Allows o) : o.Fits := by
  cases o with
  | proc o =>
    cases o with
    | initChild => exact h.2.2
    | _ => trivial
  | _ => trivial

variable {t t' : Lives} {ls : List LifeLabel}

theorem kin_of_sem (h : LifeInv (census t.k.pt) t.exited t.reaped γ) (hallow : (γ i).Allows o)
    (ho : sem o t = .ok (b, t')) :
    KinEffect (census t.k.pt) o b (census t'.k.pt) ∧ o.sem t.k = .ok (b, t'.k) ∧
      t'.exited = exitedAfter t.k.pt t.exited o ∧ t'.reaped = reapedAfter t.reaped o b := by
  obtain ⟨k', hspill, rfl⟩ := sem_eq_ok ho
  have hsem := Op.spilling_eq_ok (fits_of_allows hallow) hspill
  refine ⟨kin_effect (fun p hp => ?_) hsem, hsem, rfl, rfl⟩
  subst hp
  have hinit := hallow.2.2.2
  rwa [h.threads.init i] at hinit

theorem ordered_next (h : Ordered ls t γ) (hallow : (γ i).Allows o) (ho : sem o t = .ok (b, t')) :
    (γ i).Answers o b ∧ Ordered (ls ++ [.exec i o b]) t' (Function.update γ i ((γ i).next o b)) := by
  obtain ⟨heffect, hsem, hexited, hreaped⟩ := kin_of_sem h hallow ho
  constructor
  · generalize t'.k = k' at hsem
    cases o with
    | proc o =>
      cases o with
      | proc q =>
        cases hsem
        exact h.registry.fits q
      | initproc =>
        cases hsem
        exact (h.threads.init i).symm
      | _ => trivial
    | _ => trivial
  · rw [Ordered, hexited, hreaped]
    exact h.next rfl hallow heffect

theorem wait_sound (h : Ordered ls s.shared γ) (hallow : (γ i).Allows o)
    (ho : sem o s.shared = .ok (b, t')) : WaitSound s (.exec i o b) := by
  obtain ⟨heffect, -⟩ := kin_of_sem h hallow ho
  cases o with
  | proc o =>
    cases o with
    | wait p =>
      obtain rfl : p = i := hallow.1.trans (h.threads.self i)
      generalize census t'.k.pt = c' at heffect
      cases heffect with
      | same ha => exact ha.elim
      | noChild => exact .inl rfl
      | reap _ q hzombie hparent =>
        have hused : ((census s.shared.k.pt).kin q).life ≠ .unused := by
          rw [hzombie]
          simp
        have hstate : (s.shared.k.pt.proc q).state = .zombie := by
          have hlife : lifeOf (s.shared.k.pt.proc q).state = .zombie := hzombie
          revert hlife
          cases (s.shared.k.pt.proc q).state <;> simp [lifeOf]
        exact .inr ⟨h.registry.exited q hzombie, fun hr => (h.registry.reaped _ hr).2 q hused rfl,
          q, rfl, hparent, hstate⟩
    | _ => trivial
  | _ => trivial

theorem ordered_start {c : LifeCall} (h : Ordered ls s.shared γ)
    (hc : ShortNames s (.start i c)) (hawake : lifeOf (s.shared.k.pt.proc i).state = .active) :
    (c.body i).Obeys kinship { self := i, init := s.shared.k.pt.initproc } (fun _ g => g.child = none) ∧
      Ordered (ls ++ [.start i c]) s.shared (Function.update γ i { self := i, init := s.shared.k.pt.initproc }) := by
  refine ⟨life_obeys rfl rfl rfl fun username hcall => ?_, ?_, h.registry⟩
  · subst hcall
    exact hc
  · exact h.threads.ghost rfl rfl (fun _ => hawake) rfl

theorem used_of_state {t : PTable} (hq : (t.proc q).state ≠ .unused) : ((census t).kin q).life ≠ .unused := by
  revert hq
  simp only [census, kin]
  cases (t.proc q).state <;> simp [lifeOf]

theorem ordered_init (h0 : Orderly s₀) : Inv kinship Ordered (fun g => g.child = none) [] s₀
      fun i => { self := i, init := s₀.shared.k.pt.initproc, alive := false } := by
  refine ⟨⟨⟨fun _ => rfl, fun _ => rfl, nofun, nofun, nofun⟩, h0.registry⟩, fun i => ?_⟩
  obtain ⟨r, hr⟩ := h0.returned i
  rw [hr]
  rfl

end Soundness

/-- In every interleaving in which `fork2` is given no name of 16 bytes or more: the pids in
use are different, every process but init that is no embryo has a parent that is alive, and
`wait` returns the pid of a child once, after the child has exited. -/
theorem life_cycle {s₀ s : LifePool} {tr : List (LifePool × LifeLabel)} (hr : Run LifeStep s₀ tr s)
    (h₀ : Orderly s₀) (hc : Meets ShortNames tr) :
    (∀ q r, (s.shared.k.pt.proc q).state ≠ .unused → (s.shared.k.pt.proc r).state ≠ .unused →
      (s.shared.k.pt.proc q).pid = (s.shared.k.pt.proc r).pid → q = r) ∧
    (∀ q, (s.shared.k.pt.proc q).state ≠ .unused → (s.shared.k.pt.proc q).state ≠ .embryo →
      s.shared.k.pt.initproc ≠ some q → ∃ p, (s.shared.k.pt.proc q).parent = some p ∧
        (s.shared.k.pt.proc p).state ≠ .unused ∧ (s.shared.k.pt.proc p).state ≠ .zombie) ∧
    Meets WaitSound tr := by
  obtain ⟨hrun, hawake⟩ := run_guarded.mp hr
  have hboth : Meets (fun s l => ShortNames s l ∧
      ∀ i c, l = .start i c → lifeOf (s.shared.k.pt.proc i).state = .active) tr :=
    fun e he => ⟨hc e he, hawake e he⟩
  obtain ⟨γ, hγ, -⟩ := run_inv (P := kinship) (I := Ordered) (J := fun g => g.child = none)
    (fun ls s γ i c h hc _ => ⟨_, ordered_start h hc.1 (hc.2 i c rfl)⟩)
    (fun ls s γ i o b t h _ hallow ho => ordered_next h hallow ho) hrun hboth (ordered_init h₀)
  have hwait := run_meets (P := kinship) (I := Ordered) (J := fun g => g.child = none) (R := WaitSound)
    (fun ls s γ i c h hc _ => ⟨_, ordered_start h hc.1 (hc.2 i c rfl)⟩)
    (fun ls s γ i o b t h _ hallow ho => ordered_next h hallow ho) (fun _ _ _ => trivial)
    (fun ls s γ i o b t h hallow ho => wait_sound h hallow ho) hrun hboth (ordered_init h₀)
  refine ⟨fun q r hq hr' hpid => hγ.registry.pids q r (used_of_state hq) (used_of_state hr') hpid, fun q hq hembryo hinit => ?_, hwait⟩
  have hlife : ((census s.shared.k.pt).kin q).life = .active ∨ ((census s.shared.k.pt).kin q).life = .zombie := by
    revert hq hembryo
    simp only [census, kin]
    cases (s.shared.k.pt.proc q).state <;> simp [lifeOf]
  obtain ⟨p, hparent, hactive⟩ := hγ.registry.parents q hlife hinit
  have hp : lifeOf (s.shared.k.pt.proc p).state = .active := hactive
  refine ⟨p, hparent, fun hs => ?_, fun hs => ?_⟩
  · rw [hs] at hp
    cases hp
  · rw [hs] at hp
    cases hp

def withInit (others : Slot → Proc) (nextpid : ℤ) (exited : List ℤ) : LifePool where
  shared :=
    { k := { Kernel.zero with
        pt := ⟨fun q => if q = 0 then { state := .running, pid := 1, userid := root, cwd := some 0 }
          else others q, nextpid, some 0⟩
        phys := ⟨1, List.range' 1 80, fun _ _ => 0⟩ }
      exited := exited
      reaped := [] }
  thread _ := .ret 0

theorem init_run {others : Slot → Proc} {nextpid : ℤ} {exited : List ℤ} {c : LifeCall} {P : Lives → Bool}
    (h : ((c.body 0).run sem).test (withInit others nextpid exited).shared (fun _ s => P s) = true) :
    ∃ tr s, Run LifeStep (withInit others nextpid exited) tr s ∧ P s.shared = true ∧
      (ShortNames (withInit others nextpid exited) (.start 0 c) → Meets ShortNames tr) := by
  obtain ⟨tr, r, t, hr, ht, hmeets⟩ := run_test LifeCall.body (i := 0)
    (show (withInit others nextpid exited).thread 0 = .ret 0 from rfl) h
  refine ⟨tr, _, run_guarded.mpr ⟨hr, hmeets _ (fun i c hl => ?_) fun _ _ _ _ _ hl => by cases hl⟩, ht, fun hshort =>
    hmeets _ hshort fun _ _ _ => trivial⟩
  cases hl
  rfl

def zombieChild (q : Slot) : Proc :=
  if q = 2 then { state := .zombie, pid := 2, parent := some 0, userid := root, kstack := some 90
                  pgdir := ⟨91, [], fun _ => none⟩ }
  else {}

theorem zombieChild_orderly : Orderly (withInit zombieChild 3 [2]) where
  returned _ := ⟨0, rfl⟩
  registry := by constructor <;> decide +kernel

/-- Init waits for it. -/
theorem init_waits : ∃ tr s, Run LifeStep (withInit zombieChild 3 [2]) tr s ∧ s.shared.reaped = [2] ∧
    Meets WaitSound tr := by
  have hwait : ((LifeCall.wait.body 0).run sem).test (withInit zombieChild 3 [2]).shared
      (fun _ s => s.reaped = [2]) = true := by decide +kernel
  obtain ⟨tr, s, hr, hs, hshort⟩ := init_run hwait
  exact ⟨tr, s, hr, of_decide_eq_true hs, (life_cycle hr zombieChild_orderly (hshort trivial)).2.2⟩

def grandchild (q : Slot) : Proc :=
  if q = 2 then { state := .runnable, pid := 2, parent := some 0, userid := root }
  else if q = 3 then { state := .runnable, pid := 3, parent := some 2, userid := root }
  else {}

theorem grandchild_orderly : Orderly (withInit grandchild 4 []) where
  returned _ := ⟨0, rfl⟩
  registry := by constructor <;> decide +kernel

/-- Init calls `fork2` with a name of 28 bytes. The new process gets slot 1, and the NUL of
its name makes slot 2 unused, which is the parent of slot 3. -/
theorem fork2_orphans : ∃ tr s, Run LifeStep (withInit grandchild 4 []) tr s ∧ Orderly (withInit grandchild 4 []) ∧
    (s.shared.k.pt.proc 3).state = .runnable ∧ s.shared.k.pt.initproc ≠ some 3 ∧
    (s.shared.k.pt.proc 3).parent = some 2 ∧ (s.shared.k.pt.proc 2).state = .unused := by
  have hfork : (((LifeCall.fork2 (CStr.ofString "abcdefghijklmnopqrstuvwxyzab")).body 0).run sem).test
      (withInit grandchild 4 []).shared (fun _ s => (s.k.pt.proc 3).state = .runnable ∧ s.k.pt.initproc ≠ some 3 ∧
        (s.k.pt.proc 3).parent = some 2 ∧ (s.k.pt.proc 2).state = .unused) = true := by decide +kernel
  obtain ⟨tr, s, hr, hs, -⟩ := init_run (P := fun s => (s.k.pt.proc 3).state = .runnable ∧ s.k.pt.initproc ≠ some 3 ∧
    (s.k.pt.proc 3).parent = some 2 ∧ (s.k.pt.proc 2).state = .unused) hfork
  exact ⟨tr, s, hr, grandchild_orderly, of_decide_eq_true hs⟩

end Xv6.Sys
