import Xv6.Lib.Pool
import Xv6.Proc.Effects
import Xv6.Proc.Forking

/-! # Identity along the lines of descent

Each process has a line: the user ids that its ancestors had when they forked, the
parent's first. In every interleaving of process calls in which `fork2` is used by root,
or for the caller's own user id, a process has the user id of every ancestor that was not
root.
-/
namespace Xv6.Sys
open Function Prog Fs CStr
open KProg hiding panic

def lineAfter (v : Slot → View) (line : Slot → List CStr) : Op → Slot → List CStr
  | .proc (.initChild np p _ _) => update line np ((v p).userid :: line p)
  | _ => line

/-- The kernel with the line of every process, as history. -/
structure Family where
  k : Kernel
  line : Slot → List CStr

namespace Family

def sem (o : Op) : Comp Family o.Ans := do
  let s ← Comp.get
  let b ← Comp.zoom Family.k (fun s k => { s with k := k }) o.sem
  Comp.modify fun s' => { s' with line := lineAfter (views s.k.pt) s.line o }
  return b

theorem sem_eq_ok (h : sem o s = .ok (b, s')) :
    ∃ k', o.sem s.k = .ok (b, k') ∧ s' = ⟨k', lineAfter (views s.k.pt) s.line o⟩ := by
  have h := Comp.get_bind h
  obtain ⟨b', s1, hzoom, h⟩ := Comp.bind_eq_ok.mp h
  obtain ⟨k', hk', rfl⟩ := Comp.zoom_eq_ok.mp hzoom
  cases h
  exact ⟨k', hk', rfl⟩

end Family

/-- A user id that a caller may give to a child: any, if it is root, or else its own. -/
def OwnName (id userid : CStr) : Prop := id = root ∨ userid = id

def Faithful (v : Slot → View) (line : Slot → List CStr) (q : Slot) : Prop :=
  ∀ u ∈ line q, u ≠ root → (v q).userid = u

structure FamilyInv (v : Slot → View) (line : Slot → List CStr) (γ : Slot → Forking) : Prop where
  self : ∀ i, (γ i).self = i
  alive : ∀ i, (γ i).alive = true → (v i).life = .active ∧ (v i).userid = (γ i).id
  child : ∀ i np, (γ i).child = some np →
    (v np).life = .embryo ∧ ((γ i).named = true → Faithful v line np)
  distinct : ∀ i j np, (γ i).child = some np → (γ j).child = some np → i = j
  line : ∀ q, (v q).life = .active ∨ (v q).life = .zombie → Faithful v line q

namespace FamilyInv
variable {v v' : Slot → View} {line line' : Slot → List CStr} {γ : Slot → Forking} {g : Forking}
  {i q : Slot} {w : View} {o : Op} {b : o.Ans}

theorem faithful_congr (huserid : (v' q).userid = (v q).userid) (hline : line' q = line q)
    (h : Faithful v line q) : Faithful v' line' q := by
  unfold Faithful
  rw [hline, huserid]
  exact h

theorem set (h : FamilyInv v line γ) (hline : ∀ r, r ≠ q → line' r = line r) (hself : g.self = i)
    (hother : ∀ j, j ≠ i → ((γ j).alive = true → j ≠ q) ∧ (γ j).child ≠ some q)
    (halive : g.alive = true → i ≠ q ∧ (v i).life = .active ∧ (v i).userid = g.id)
    (hchild : ∀ np, g.child = some np → np = q ∧ w.life = .embryo ∧
      (g.named = true → Faithful (update v q w) line' q))
    (hq : w.life = .active ∨ w.life = .zombie → Faithful (update v q w) line' q) :
    FamilyInv (update v q w) line' (update γ i g) := by
  have hsame {r : Slot} (hr : r ≠ q) : update v q w r = v r := update_of_ne hr ..
  have hkeep {r : Slot} (hr : r ≠ q) (hf : Faithful v line r) : Faithful (update v q w) line' r :=
    faithful_congr (by rw [hsame hr]) (hline r hr) hf
  refine ⟨forall_update (P := fun j (g : Forking) => g.self = j) (fun j _ => h.self j) hself,
    forall_update (P := fun j (g : Forking) => g.alive = true → (update v q w j).life = .active ∧ (update v q w j).userid = g.id)
      (fun j hj ha => ?_) fun ha => ?_,
    forall_update (P := fun j (g : Forking) => ∀ np, g.child = some np → (update v q w np).life = .embryo ∧
      (g.named = true → Faithful (update v q w) line' np)) (fun j hj np hnp => ?_) fun np hnp => ?_,
    distinct_update_some (C := Forking.child) h.distinct fun np hnp j hj => (hchild np hnp).1 ▸ (hother j hj).2, fun r hr => ?_⟩
  · rw [hsame ((hother j hj).1 ha)]
    exact h.alive j ha
  · rw [hsame (halive ha).1]
    exact (halive ha).2
  · have hne : np ≠ q := fun heq => (hother j hj).2 (heq ▸ hnp)
    obtain ⟨hembryo, hnamed⟩ := h.child j np hnp
    rw [hsame hne]
    exact ⟨hembryo, fun hn => hkeep hne (hnamed hn)⟩
  · obtain ⟨rfl, hembryo, hnamed⟩ := hchild np hnp
    rw [update_self]
    exact ⟨hembryo, hnamed⟩
  · by_cases hrq : r = q
    · subst hrq
      rw [update_self] at hr
      exact hq hr
    · rw [hsame hrq] at hr
      exact hkeep hrq (h.line r hr)

theorem ghost (h : FamilyInv v line γ) (hv : ∀ r, (v' r).life = (v r).life ∧ (v' r).userid = (v r).userid)
    (hself : g.self = i) (halive : g.alive = true → (v i).life = .active ∧ (v i).userid = g.id)
    (hchild : ∀ np, g.child = some np → (γ i).child = some np ∧ (g.named = true → (γ i).named = true)) :
    FamilyInv v' line (update γ i g) := by
  have hkeep {r : Slot} : Faithful v line r → Faithful v' line r := faithful_congr (hv r).2 rfl
  have hold (j : Slot) : (update γ i g j).self = j ∧
      ((update γ i g j).alive = true →
        (v j).life = .active ∧ (v j).userid = (update γ i g j).id) ∧
      ∀ np, (update γ i g j).child = some np →
        (γ j).child = some np ∧ ((update γ i g j).named = true → (γ j).named = true) := by
    by_cases hji : j = i
    · subst hji
      rw [update_self]
      exact ⟨hself, halive, hchild⟩
    · rw [update_of_ne hji]
      exact ⟨h.self j, h.alive j, fun np hj => ⟨hj, id⟩⟩
  refine ⟨fun j => (hold j).1, fun j hj => ?_, fun j np hj => ?_, fun j j' np hj hj' => ?_, fun r hr => ?_⟩
  · rw [(hv j).1, (hv j).2]
    exact (hold j).2.1 hj
  · obtain ⟨hchild, hnamed⟩ := (hold j).2.2 np hj
    obtain ⟨hembryo, hfaithful⟩ := h.child j np hchild
    rw [(hv np).1]
    exact ⟨hembryo, fun hn => hkeep (hfaithful (hnamed hn))⟩
  · exact h.distinct j j' np ((hold j).2.2 np hj).1 ((hold j').2.2 np hj').1
  · rw [(hv r).1] at hr
    exact hkeep (h.line r hr)

theorem same (h : FamilyInv v line γ) (hv : ∀ r, (v' r).life = (v r).life ∧ (v' r).userid = (v r).userid) :
    FamilyInv v' line (update γ i (γ i)) :=
  h.ghost hv (h.self i) (h.alive i) fun np hnp => ⟨hnp, id⟩

theorem update_same (hw : w.life = (v q).life ∧ w.userid = (v q).userid) (r : Slot) :
    (update v q w r).life = (v r).life ∧ (update v q w r).userid = (v r).userid := by
  rw [update_apply]
  split
  case isTrue hr =>
    subst hr
    exact hw
  case isFalse => exact ⟨rfl, rfl⟩

variable {np : Slot}

section
variable (h : FamilyInv v line γ)
include h

theorem child_other (hnp : (γ i).child = some np) (j : Slot) :
    ((γ j).alive = true → j ≠ np) ∧ (j ≠ i → (γ j).child ≠ some np) := by
  constructor
  · rintro halive rfl
    have hembryo := (h.child i j hnp).1
    rw [(h.alive j halive).1] at hembryo
    cases hembryo
  · intro hj hchild
    exact hj (h.distinct j i np hchild hnp)

theorem slot_other (hactive : (v q).life ≠ .active)
    (hembryo : (v q).life ≠ .embryo) (j : Slot) : ((γ j).alive = true → j ≠ q) ∧ (γ j).child ≠ some q := by
  constructor
  · rintro halive rfl
    exact hactive (h.alive j halive).1
  · intro hchild
    exact hembryo (h.child j q hchild).1

theorem alloc (hunused : (v np).life = .unused) :
    FamilyInv (update v np { v np with life := .embryo, userid := root, limit := 0 }) line
      (update γ i { γ i with child := some np, named := false }) := by
  have hother := h.slot_other (q := np) (by rw [hunused]; simp) (by rw [hunused]; simp)
  refine h.set (fun _ _ => rfl) (h.self i) (fun j _ => hother j)
    (fun halive => ⟨(hother i).1 halive, h.alive i halive⟩) (fun m hm => ?_) ?_
  · cases hm
    exact ⟨rfl, rfl, fun hn => by cases hn⟩
  · rintro (hw | hw) <;> cases hw

theorem leave (hnp : (γ i).child = some np)
    (hw : w.life = .active ∨ w.life = .zombie → (γ i).named = true ∧ w.userid = (v np).userid) :
    FamilyInv (update v np w) line (update γ i { γ i with child := none, named := false }) := by
  have hother := h.child_other hnp
  refine h.set (fun _ _ => rfl) (h.self i) (fun j hj => ⟨(hother j).1, (hother j).2 hj⟩)
    (fun halive => ⟨(hother i).1 halive, h.alive i halive⟩) (fun m hm => ?_) fun hlife => ?_
  · cases hm
  · obtain ⟨hnamed, huserid⟩ := hw hlife
    refine faithful_congr ?_ rfl ((h.child i np hnp).2 hnamed)
    rw [update_self, huserid]

theorem faithful_child (halive : (γ i).alive = true)
    (hname : OwnName (γ i).id userid) : ∀ u ∈ (v i).userid :: line i, u ≠ root → userid = u := by
  obtain ⟨hactive, hown⟩ := h.alive i halive
  have hline : Faithful v line i := h.line i (.inl hactive)
  intro u hu hroot
  have hu : (γ i).id = u := by
    rcases List.mem_cons.mp hu with rfl | hu
    · exact hown.symm
    · exact hown.symm.trans (hline u hu hroot)
  rcases hname with hname | hname
  · exact (hroot (hu.symm.trans hname)).elim
  · exact hname.trans hu

theorem initChild {userid : CStr} {sz limit : Word}
    (hnp : (γ i).child = some np) (halive : (γ i).alive = true) (hname : OwnName (γ i).id userid) :
    FamilyInv (update v np ⟨(v np).life, userid, sz, limit⟩)
      (update line np ((v i).userid :: line i)) (update γ i { γ i with named := true }) := by
  have hother := h.child_other hnp
  have hnew : Faithful (update v np ⟨(v np).life, userid, sz, limit⟩)
      (update line np ((v i).userid :: line i)) np := by
    intro u hu
    rw [update_self] at hu ⊢
    exact h.faithful_child halive hname u hu
  refine h.set (fun r hr => update_of_ne hr ..) (h.self i)
    (fun j hj => ⟨(hother j).1, (hother j).2 hj⟩) (fun _ => ⟨(hother i).1 halive, h.alive i halive⟩)
    (fun m hm => ?_) fun _ => hnew
  obtain rfl : np = m := Option.some.inj (hnp.symm.trans hm)
  exact ⟨rfl, (h.child i np hnp).1, fun _ => hnew⟩

theorem exit (halive : (γ i).alive = true) (hchild : (γ i).child = none) :
    FamilyInv (update v i { v i with life := .zombie }) line
      (update γ i { γ i with alive := false }) := by
  obtain ⟨hactive, -⟩ := h.alive i halive
  refine h.set (fun _ _ => rfl) (h.self i) (fun j hj => ⟨fun _ => hj, fun hc => ?_⟩) (fun ha => by cases ha)
    (fun m hm => ?_) fun _ => ?_
  · have hembryo := (h.child j i hc).1
    rw [hactive] at hembryo
    cases hembryo
  · cases hchild.symm.trans hm
  · refine faithful_congr ?_ rfl (h.line i (.inl hactive))
    rw [update_self]

theorem reap (hzombie : (v q).life = .zombie) (hchild : (γ i).child = none) :
    FamilyInv (update v q { v q with life := .unused }) line (update γ i (γ i)) := by
  have hother := h.slot_other (q := q) (by rw [hzombie]; simp) (by rw [hzombie]; simp)
  refine h.set (fun _ _ => rfl) (h.self i) (fun j _ => hother j)
    (fun halive => ⟨(hother i).1 halive, h.alive i halive⟩) (fun m hm => ?_) ?_
  · cases hchild.symm.trans hm
  · rintro (hw | hw) <;> cases hw

theorem next (hallow : (γ i).Allows OwnName o) (ho : Effect v o b v') :
    FamilyInv v' (lineAfter v line o) (update γ i ((γ i).next o b)) := by
  cases ho with
  | same ha =>
    have hline : lineAfter v line o = line := by
      cases o with
      | proc o =>
        cases o with
        | initChild => exact ha.elim
        | _ => rfl
      | _ => rfl
    rw [hline, (Aside.rule (N := OwnName) ha).2 b]
    exact h.same fun _ => ⟨rfl, rfl⟩
  | noSlot => exact h.ghost (fun _ => ⟨rfl, rfl⟩) (h.self i) (h.alive i) fun np hnp => by cases hnp
  | alloc np hunused => exact h.alloc hunused
  | abandon => exact h.leave hallow fun hw => by rcases hw with hw | hw <;> cases hw
  | initChild np p =>
    obtain ⟨hnp, hp, halive, hname⟩ := hallow
    obtain rfl : p = i := hp.trans (h.self i)
    exact h.initChild hnp halive hname
  | publish => exact h.leave hallow.1 fun _ => ⟨hallow.2, rfl⟩
  | exit p =>
    obtain ⟨hp, halive, hchild⟩ := hallow
    obtain rfl : p = i := hp.trans (h.self i)
    exact h.exit halive hchild
  | noChild | getadmin | kill => exact h.same fun _ => ⟨rfl, rfl⟩
  | reap p q hzombie => exact h.reap hzombie hallow
  | setImage | growproc => exact h.same (update_same ⟨rfl, rfl⟩)
  | refused =>
    exact h.ghost (fun _ => ⟨rfl, rfl⟩) (h.self i) (h.alive i) fun np hnp => ⟨hnp, id⟩
  | setLimit =>
    exact h.ghost (update_same ⟨rfl, rfl⟩) (h.self i) (h.alive i) fun np hnp => ⟨hnp, id⟩

end

theorem answers (h : FamilyInv (views k.pt) line γ) (ho : o.sem k = .ok (b, k')) : (γ i).Answers o b := by
  cases o with
  | proc o =>
    cases o with
    | proc p =>
      cases ho
      intro hp halive
      obtain rfl : p = i := hp.trans (h.self i)
      exact (h.alive p halive).2
    | _ => trivial
  | _ => trivial

end FamilyInv

abbrev ProcLabel := Pool.Label Op Op.Ans Slot ProcCall
abbrev ProcPool := Pool.State Op Op.Ans Family Slot ℤ

/-- Only a process that is not an embryo, a zombie or an unused slot makes calls. -/
def Awake (s : ProcPool) : ProcLabel → Prop
  | .start i _ => (views s.shared.k.pt i).life = .active
  | .exec _ _ _ => True

def ProcStep (s : ProcPool) (l : ProcLabel) (s' : ProcPool) : Prop :=
  Pool.Step Family.sem ProcCall.body s l s' ∧ Awake s l

/-- A process that is not root uses `fork2` only with its own user id; no name overruns
its field. -/
def OwnNames (s : ProcPool) : ProcLabel → Prop
  | .start i (.fork2 username) => OwnName (s.shared.k.pt.proc i).userid username ∧ username.length < 16
  | _ => True

/-- No call is in progress, and history starts here. -/
structure Unrelated (s : ProcPool) : Prop where
  returned : ∀ i, ∃ r, s.thread i = .ret r
  line : s.shared.line = fun _ => []

theorem family_run (hr : Run ProcStep s0 tr s)
    (h0 : Unrelated s0) (hc : Meets OwnNames tr) : ∃ γ, FamilyInv (views s.shared.k.pt) s.shared.line γ := by
  obtain ⟨hrun, hawake⟩ := run_guarded.mp hr
  have hboth : Meets (fun s l => Awake s l ∧ OwnNames s l) tr := fun e he => ⟨hawake e he, hc e he⟩
  let γ0 : Slot → Forking := fun i => { self := i, id := root, alive := false }
  have hinit : FamilyInv (views s0.shared.k.pt) s0.shared.line γ0 := by
    refine ⟨fun _ => rfl, fun i hi => ?_, fun i np hi => ?_, fun i j np hi => ?_, fun q _ u hu => ?_⟩
    · cases hi
    · cases hi
    · cases hi
    · rw [h0.line] at hu
      cases hu
  have hidle (i : Slot) : (s0.thread i).Obeys (forking OwnName) (γ0 i) fun _ g => g.child = none := by
    obtain ⟨r, hri⟩ := h0.returned i
    rw [hri]
    rfl
  obtain ⟨γ, hγ, -⟩ := Pool.run_inv (P := forking OwnName)
    (I := fun _ s γ => FamilyInv (views s.k.pt) s.line γ) (J := fun g => g.child = none)
    (fun ls s γ i c h hc _ => by
      let g : Forking := { self := i, id := (s.shared.k.pt.proc i).userid }
      have hpermitted : c.Permitted OwnName g := by
        cases c with
        | fork => exact .inr rfl
        | fork2 => exact hc.2.1
        | _ => trivial
      exact ⟨g, call_obeys rfl rfl rfl hpermitted,
        h.ghost (fun _ => ⟨rfl, rfl⟩) rfl (fun _ => ⟨hc.1, rfl⟩) fun np hnp => by cases hnp⟩)
    (fun ls s γ i o b t h _ hallow ho => by
      obtain ⟨k', hk', rfl⟩ := Family.sem_eq_ok ho
      exact ⟨h.answers hk', h.next hallow (effect hk')⟩) hrun hboth ⟨hinit, hidle⟩
  exact ⟨γ, hγ⟩

/-- In every interleaving in which no process but root names another user in `fork2`: a
process has the user id of each ancestor that was not root, and so is not root itself. -/
theorem userid_of_line {s₀ s : ProcPool} {tr : List (ProcPool × ProcLabel)} (hr : Run ProcStep s₀ tr s)
    (h₀ : Unrelated s₀) (hc : Meets OwnNames tr) (q : Slot)
    (hq : (s.shared.k.pt.proc q).state ≠ .unused ∧ (s.shared.k.pt.proc q).state ≠ .embryo) :
    ∀ u ∈ s.shared.line q, u ≠ root →
      (s.shared.k.pt.proc q).userid = u ∧ (s.shared.k.pt.proc q).userid ≠ root := by
  obtain ⟨γ, hγ⟩ := family_run hr h₀ hc
  have hlife : (views s.shared.k.pt q).life = .active ∨ (views s.shared.k.pt q).life = .zombie := by
    simp only [views, view]
    revert hq
    cases (s.shared.k.pt.proc q).state <;> simp [lifeOf]
  intro u hu hroot
  have huserid := hγ.line q hlife u hu hroot
  exact ⟨huserid, fun h => hroot (huserid.symm.trans h)⟩

/-- A guest with nothing but memory to fork. -/
def guestHome : Family where
  k := { Kernel.zero with
    pt := ⟨fun q => if q = 0 then { state := .running, pid := 1, userid := CStr.ofString "guest", cwd := some 0 }
      else {}, 2, none⟩
    phys := ⟨1, List.range' 1 80, fun _ _ => 0⟩ }
  line _ := []

def guestPool : ProcPool := ⟨guestHome, fun _ => .ret 0⟩

theorem guestPool_unrelated : Unrelated guestPool := ⟨fun _ => ⟨0, rfl⟩, rfl⟩

theorem guest_run {c : ProcCall} {P : Family → Bool}
    (h : ((c.body 0).run Family.sem).test guestHome (fun _ s => P s) = true) :
    ∃ tr s, Run ProcStep guestPool tr s ∧ P s.shared = true ∧
      (OwnNames guestPool (.start 0 c) → Meets OwnNames tr) := by
  obtain ⟨tr, r, t, hr, ht, hmeets⟩ := Pool.run_test _ (i := 0) (show guestPool.thread 0 = .ret 0 from rfl) h
  refine ⟨tr, _, run_guarded.mpr ⟨hr, hmeets _ rfl fun _ _ _ => trivial⟩, ht, fun hown => ?_⟩
  exact hmeets _ hown fun _ _ _ => trivial

/-- The guest forks: the child is a guest. -/
theorem guest_child_is_guest : ∃ tr s, Run ProcStep guestPool tr s ∧
    s.shared.line 1 = [CStr.ofString "guest"] ∧ (s.shared.k.pt.proc 1).userid = CStr.ofString "guest" := by
  have hfork : ((ProcCall.fork.body 0).run Family.sem).test guestHome (fun _ s =>
      s.line 1 = [ofString "guest"] ∧ (s.k.pt.proc 1).state = .runnable) = true := by decide +kernel
  obtain ⟨tr, s, hr, hs, hown⟩ := guest_run (P := fun s =>
    s.line 1 = [ofString "guest"] ∧ (s.k.pt.proc 1).state = .runnable) hfork
  obtain ⟨hline, hstate⟩ := of_decide_eq_true hs
  have huserid := userid_of_line hr guestPool_unrelated (hown trivial) 1 (by rw [hstate]; simp)
    (ofString "guest") (by rw [hline]; simp) (by decide)
  exact ⟨tr, s, hr, hline, huserid.1⟩

/-- The guest calls `fork2` with the name of root: the child of a guest is root. -/
theorem guest_fork2_root : ∃ tr s, Run ProcStep guestPool tr s ∧ (s.shared.k.pt.proc 1).state = .runnable ∧
    s.shared.line 1 = [CStr.ofString "guest"] ∧ (s.shared.k.pt.proc 1).userid = root := by
  have hfork : (((ProcCall.fork2 root).body 0).run Family.sem).test guestHome (fun _ s =>
      (s.k.pt.proc 1).state = .runnable ∧ s.line 1 = [ofString "guest"] ∧
        (s.k.pt.proc 1).userid = root) = true := by decide +kernel
  obtain ⟨tr, s, hr, hs, -⟩ := guest_run (P := fun s => (s.k.pt.proc 1).state = .runnable ∧
    s.line 1 = [ofString "guest"] ∧ (s.k.pt.proc 1).userid = root) hfork
  exact ⟨tr, s, hr, of_decide_eq_true hs⟩

end Xv6.Sys
