import Xv6.Lib.Run
import Xv6.Proc.Effects
import Xv6.Proc.Forking

/-! # Memory limits

The size of a process with a limit stays within it through `growproc`, `setmemorylimit`,
`fork`, `fork2`, `exit` and `wait`; `exec` and `exec2` do not look at the limit.
-/
namespace Xv6.Sys
open Function Prog

/-- The process may be one without a limit. -/
def View.Within (v : View) : Prop := v.life ≠ .unused → v.limit ≠ 0 → v.sz ≤ v.limit

structure LimitInv (v : Slot → View) (g : Forking) : Prop where
  within : ∀ q, (v q).Within
  alive : g.alive = true → (v g.self).life = .active ∧ (v g.self).userid = g.id
  loads : g.alive = true → g.loads = true → (v g.self).limit = 0
  child : ∀ np, g.child = some np → (v np).life = .embryo

namespace LimitInv
variable {v v' : Slot → View} {g : Forking} {o : Op} {b : o.Ans} {q : Slot} {w : View}

theorem within_update (h : LimitInv v g) (hw : w.Within) (r : Slot) : (update v q w r).Within := by
  rw [update_apply]
  split
  · exact hw
  · exact h.within r

theorem other (h : LimitInv v g) (hw : w.Within) (hself : g.alive = true → g.self ≠ q)
    (hchild : ∀ np, g.child = some np → np ≠ q) : LimitInv (update v q w) g where
  within := h.within_update hw
  alive ha := by
    rw [update_of_ne (hself ha)]
    exact h.alive ha
  loads ha hl := by
    rw [update_of_ne (hself ha)]
    exact h.loads ha hl
  child np hnp := by
    rw [update_of_ne (hchild np hnp)]
    exact h.child np hnp

theorem slot (h : LimitInv v g) (hw : w.Within) (hself : g.alive = true → g.self ≠ q)
    (hchild : ∀ np, c = some np → np = q ∧ w.life = .embryo) :
    LimitInv (update v q w) { g with child := c, named := n } where
  within := h.within_update hw
  alive ha := by
    dsimp only
    rw [update_of_ne (hself ha)]
    exact h.alive ha
  loads ha hl := by
    dsimp only
    rw [update_of_ne (hself ha)]
    exact h.loads ha hl
  child np hnp := by
    obtain ⟨rfl, hembryo⟩ := hchild np hnp
    rw [update_self]
    exact hembryo

/-- Size or limit of a slot change, with the limit of the caller only if it gives up loading. -/
theorem resize (h : LimitInv v g) (hw : w.Within) (hlife : w.life = (v q).life)
    (huserid : w.userid = (v q).userid) (hloads : l = true → g.loads = true ∧ w.limit = (v q).limit) :
    LimitInv (update v q w) { g with loads := l } := by
  have hkeep (r : Slot) : (update v q w r).life = (v r).life ∧
      (update v q w r).userid = (v r).userid ∧
      (l = true → (update v q w r).limit = (v r).limit) := by
    rw [update_apply]
    split
    case isTrue hr =>
      subst hr
      exact ⟨hlife, huserid, fun hl => (hloads hl).2⟩
    case isFalse => exact ⟨rfl, rfl, fun _ => rfl⟩
  refine ⟨h.within_update hw, fun ha => ?_, fun ha hl => ?_, fun np hnp => ?_⟩
  · dsimp only
    rw [(hkeep g.self).1, (hkeep g.self).2.1]
    exact h.alive ha
  · dsimp only
    rw [(hkeep g.self).2.2 hl]
    exact h.loads ha (hloads hl).1
  · rw [(hkeep np).1]
    exact h.child np hnp

theorem self_ne (h : LimitInv v g) (hq : (v q).life ≠ .active) (ha : g.alive = true) : g.self ≠ q := by
  rintro rfl
  exact hq (h.alive ha).1

theorem next (h : LimitInv v g) (hallow : g.Allows (fun _ _ => True) o) (ho : Effect v o b v') :
    LimitInv v' (g.next o b) := by
  cases ho with
  | same ha =>
    rw [(Aside.rule (N := fun _ _ => True) ha).2 b]
    exact h
  | noSlot => exact ⟨h.within, h.alive, h.loads, fun np hnp => by cases hnp⟩
  | alloc np hunused =>
    refine h.slot (fun _ hlimit => (hlimit rfl).elim) (h.self_ne (by rw [hunused]; simp)) fun m hm => ?_
    cases hm
    exact ⟨rfl, rfl⟩
  | abandon np =>
    have hembryo := h.child np hallow
    exact h.slot (fun hlife => (hlife rfl).elim) (h.self_ne (by rw [hembryo]; simp)) fun m hm => by cases hm
  | initChild np p pg userid =>
    obtain ⟨hnp, rfl, halive, -⟩ := hallow
    have hembryo := h.child np hnp
    have hparent : (v g.self).Within := h.within g.self
    have hactive : (v g.self).life ≠ .unused := by rw [(h.alive halive).1]; simp
    refine h.slot (w := ⟨(v np).life, userid, (v g.self).sz, (v g.self).limit⟩)
      (fun _ hlimit => hparent hactive hlimit) (h.self_ne (by rw [hembryo]; simp)) fun m hm => ?_
    exact ⟨(Option.some.inj (hnp.symm.trans hm)).symm, hembryo⟩
  | publish np =>
    have hembryo := h.child np hallow.1
    refine h.slot (w := { v np with life := .active }) (fun _ => h.within np (by rw [hembryo]; simp))
      (h.self_ne (by rw [hembryo]; simp)) fun m hm => ?_
    cases hm
  | exit =>
    obtain ⟨rfl, halive, hchild⟩ := hallow
    have hactive : (v g.self).life ≠ .unused := by rw [(h.alive halive).1]; simp
    refine ⟨h.within_update fun _ => h.within g.self hactive, fun ha => ?_, fun ha => ?_, fun np hnp => ?_⟩
    · cases ha
    · cases ha
    · cases hchild.symm.trans hnp
  | noChild | getadmin | kill => exact h
  | reap p q hzombie =>
    refine h.other (fun hlife => (hlife rfl).elim) (h.self_ne (by rw [hzombie]; simp)) fun np hnp => ?_
    cases hallow.symm.trans hnp
  | setImage =>
    obtain ⟨rfl, halive, hl⟩ := hallow
    exact h.resize (fun _ hlimit => (hlimit (h.loads halive hl)).elim) rfl rfl fun hl => ⟨hl, rfl⟩
  | growproc p n hsz =>
    refine h.resize (fun hlife hlimit => ?_) rfl rfl fun hl => ⟨hl, rfl⟩
    rcases hsz with hsz | hsz | hsz
    · exact BitVec.le_trans hsz (h.within p hlife hlimit)
    · exact (hlimit hsz).elim
    · exact hsz
  | refused => exact ⟨h.within, h.alive, fun _ hl => (Bool.false_ne_true hl).elim, h.child⟩
  | setLimit p q pid limit hsz =>
    refine h.resize (fun _ hlimit => hsz.resolve_right hlimit) rfl rfl fun hl => ?_
    cases hl

theorem answers (h : LimitInv (views k.pt) g) (ho : o.sem k = .ok (b, k')) : g.Answers o b := by
  cases o with
  | proc o =>
    cases o with
    | proc =>
      cases ho
      rintro rfl halive
      exact (h.alive halive).2
    | _ => trivial
  | _ => trivial

end LimitInv

def CallStep (k : Kernel) (l : Slot × ProcCall) (k' : Kernel) : Prop :=
  (views k.pt l.1).life = .active ∧ ∃ r, (l.2.body l.1).run Op.sem k = .ok (r, k')

/-- No process with a limit runs a program, and no name overruns its field. -/
def NoLimitedExec (k : Kernel) : Slot × ProcCall → Prop
  | (p, .exec _ _) => (k.pt.proc p).limit = 0
  | (p, .exec2 _ _ _) => (k.pt.proc p).limit = 0
  | (_, .fork2 username) => username.length < 16
  | _ => True

theorem step_within (h : ∀ q, (views k.pt q).Within)
    (hc : NoLimitedExec k l) (hs : CallStep k l k') (q : Slot) : (views k'.pt q).Within := by
  obtain ⟨p, c⟩ := l
  obtain ⟨hactive, r, hr⟩ := hs
  let g : Forking := { self := p, id := (k.pt.proc p).userid, loads := decide ((k.pt.proc p).limit = 0) }
  have hinv : LimitInv (views k.pt) g :=
    ⟨h, fun _ => ⟨hactive, rfl⟩, fun _ hl => of_decide_eq_true hl, fun np hnp => by cases hnp⟩
  have hpermitted : c.Permitted (fun _ _ => True) g := by
    cases c with
    | exec | exec2 => exact decide_eq_true hc
    | _ => trivial
  obtain ⟨g', -, h'⟩ := Obeys.run (P := forking fun _ _ => True) (I := fun k g => LimitInv (views k.pt) g)
    (fun k g o b k' hI hallow ho => ⟨hI.answers ho, hI.next hallow (effect ho)⟩)
    (call_obeys rfl rfl rfl hpermitted) hinv hr
  exact h'.within q

/-- In every run of process calls in which no process with a limit calls `exec` or
`exec2`, every process in use with a limit is within it. -/
theorem sz_within_limit {k₀ k : Kernel} {tr : List (Kernel × Slot × ProcCall)} (hr : Run CallStep k₀ tr k)
    (h₀ : ∀ q, (views k₀.pt q).Within) (hc : Meets NoLimitedExec tr) (q : Slot)
    (hq : (k.pt.proc q).state ≠ .unused) (hlimit : (k.pt.proc q).limit ≠ 0) :
    (k.pt.proc q).sz ≤ (k.pt.proc q).limit := by
  have hwithin := hr.invariant (I := fun k => ∀ q, (views k.pt q).Within)
    (fun k l k' h hc hs => step_within h hc hs) h₀ hc q
  refine hwithin (fun hlife => hq ?_) hlimit
  revert hlife
  simp only [views, view]
  cases (k.pt.proc q).state <;> simp [lifeOf]

/-- An administrator of one page, with a program `/f` that has no segments. -/
def smallProgram : Kernel :=
  { Kernel.zero with
    pt := ⟨fun q => if q = 0 then
      { state := .running, pid := 1, userid := root, sz := 4096, pgdir := ⟨90, [], fun _ => none⟩
        mode := .administrator } else {}, 2, none⟩
    phys := ⟨1, List.range' 1 80, fun _ _ => 0⟩
    dinode := fun inum =>
      if inum = ROOTINO then
        { type := .dir, nlink := 1, size := 16, addrs := fun _ => 5, userid := root, mode := MODE_XUSR }
      else { type := .file, nlink := 1, size := 52, addrs := fun _ => 6, userid := root, mode := MODE_XUSR }
    block := fun b a => if b = 5 then (Fs.direntBytes 2 [102]).getD a 0 else (wordBytes ELF_MAGIC).getD a 0 }

def limitTo (limit : Word) : ProcCall := .setmemorylimit 1 limit

theorem smallProgram_within (q : Slot) : (views smallProgram.pt q).Within := by
  intro _ hlimit
  refine (hlimit ?_).elim
  simp only [views, view, smallProgram]
  split <;> rfl

/-- The administrator limits itself to two pages. -/
theorem limited_to_two_pages : ∃ tr k, Run CallStep smallProgram tr k ∧
    (k.pt.proc 0).limit = 8192 ∧ (k.pt.proc 0).sz ≤ (k.pt.proc 0).limit := by
  have hcall : (((limitTo 8192).body 0).run Op.sem).test smallProgram (fun _ k =>
      (k.pt.proc 0).limit = 8192 ∧ (k.pt.proc 0).state = .running) = true := by decide +kernel
  obtain ⟨r, k, hk, htest⟩ := Comp.test_eq_true hcall
  obtain ⟨hlimit, hstate⟩ := of_decide_eq_true htest
  have hr : Run CallStep smallProgram ([] ++ [(smallProgram, (0, limitTo 8192))]) k :=
    Run.snoc Run.start ⟨rfl, r, hk⟩
  have hc : Meets NoLimitedExec ([] ++ [(smallProgram, ((0 : Slot), limitTo 8192))]) :=
    meets_snoc.mpr ⟨meets_nil _, trivial⟩
  refine ⟨_, k, hr, hlimit, sz_within_limit hr smallProgram_within hc 0 ?_ ?_⟩
  · rw [hstate]
    simp
  · rw [hlimit]
    decide

/-- Limited to its one page, it runs the program, which takes two pages for guard and stack. -/
theorem exec_exceeds_limit : ∃ tr k, Run CallStep smallProgram tr k ∧ (k.pt.proc 0).state = .running ∧
    (k.pt.proc 0).limit = 4096 ∧ (k.pt.proc 0).sz = 8192 := by
  have hcalls : (((limitTo 4096).body 0).run Op.sem).test smallProgram (fun _ k =>
      (((ProcCall.exec (CStr.ofString "/f") []).body 0).run Op.sem).test k (fun _ k' =>
        (k.pt.proc 0).state = .running ∧ (k'.pt.proc 0).state = .running ∧ (k'.pt.proc 0).limit = 4096 ∧
          (k'.pt.proc 0).sz = 8192)) = true := by decide +kernel
  obtain ⟨r, k, hk, htest⟩ := Comp.test_eq_true hcalls
  obtain ⟨r', k', hk', htest'⟩ := Comp.test_eq_true htest
  obtain ⟨hawake, hfinal⟩ := of_decide_eq_true htest'
  have hlimit : CallStep smallProgram (0, limitTo 4096) k := ⟨rfl, r, hk⟩
  have hexec : CallStep k (0, .exec (CStr.ofString "/f") []) k' := ⟨congrArg lifeOf hawake, r', hk'⟩
  exact ⟨_, k', Run.snoc (Run.snoc Run.start hlimit) hexec, hfinal⟩

end Xv6.Sys
