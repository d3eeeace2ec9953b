import Xv6.Kernel.Outcome
import Xv6.Proc.Calls
import Xv6.Proc.Steps

/-! # What the operations do to processes

The view of a process is its stage of life, its user id, its size and its limit. Each
operation of the kernel changes the views of at most one process, in a way that is said
here once; invariants about processes follow from it by cases.
-/
namespace Xv6.Sys
open Function
open KProg hiding panic

/-- The stages of a slot, up to scheduling. -/
inductive Life
  | unused | embryo | active | zombie
  deriving DecidableEq

def lifeOf : ProcState → Life
  | .unused => .unused
  | .embryo => .embryo
  | .zombie => .zombie
  | _ => .active

structure View where
  life : Life
  userid : CStr
  sz : Word
  limit : Word

def view (pr : Proc) : View := ⟨lifeOf pr.state, pr.userid, pr.sz, pr.limit⟩

def views (t : PTable) (q : Slot) : View := view (t.proc q)

/-- The views after an operation and its answer. -/
inductive Effect (v : Slot → View) : (o : Op) → o.Ans → (Slot → View) → Prop
  | same {o : Op} {b : o.Ans} (h : Aside o) : Effect v o b v
  | noSlot : Effect v (.proc .alloc) none v
  | alloc (np : Slot) (h : (v np).life = .unused) : Effect v (.proc .alloc) (some np)
      (update v np { v np with life := .embryo, userid := root, limit := 0 })
  | abandon (np : Slot) {b : Unit} : Effect v (.proc (.abandon np)) b
      (update v np { v np with life := .unused })
  | initChild (np p : Slot) (pg : Vm.Pgdir) (userid : CStr) {b : Unit} :
      Effect v (.proc (.initChild np p pg userid)) b
        (update v np ⟨(v np).life, userid, (v p).sz, (v p).limit⟩)
  | publish (np : Slot) {b : Unit} : Effect v (.proc (.publish np)) b
      (update v np { v np with life := .active })
  | exit (p : Slot) {b : Unit} : Effect v (.proc (.exit p)) b
      (update v p { v p with life := .zombie })
  | noChild (p : Slot) {r : ℤ} : Effect v (.proc (.wait p)) r v
  | reap (p q : Slot) {r : ℤ} (h : (v q).life = .zombie) : Effect v (.proc (.wait p)) r
      (update v q { v q with life := .unused })
  | setImage (p : Slot) (pg : Vm.Pgdir) (sz eip esp : Word) {b : Unit} :
      Effect v (.proc (.setImage p pg sz eip esp)) b (update v p { v p with sz := sz })
  | growproc (p : Slot) (n : Word) {r : ℤ} {sz : Word}
      (h : sz ≤ (v p).sz ∨ (v p).limit = 0 ∨ sz ≤ (v p).limit) :
      Effect v (.proc (.growproc p n)) r (update v p { v p with sz := sz })
  | getadmin (p : Slot) (password : CStr) {r : ℤ} : Effect v (.proc (.getadmin p password)) r v
  | refused (p : Slot) (pid : ℤ) (limit : Word) {r : ℤ} : Effect v (.proc (.setmemorylimit p pid limit)) r v
  | kill (pid : ℤ) {r : ℤ} : Effect v (.proc (.kill pid)) r v
  | setLimit (p q : Slot) (pid : ℤ) (limit : Word) {r : ℤ} (h : (v q).sz ≤ limit ∨ limit = 0) :
      Effect v (.proc (.setmemorylimit p pid limit)) r (update v q { v q with limit := limit })

theorem views_modify (t : PTable) (p : Slot) (f : Proc → Proc) :
    views (t.modify p f) = update (views t) p (view (f (t.proc p))) := by
  funext q
  rw [views, PTable.modify_proc, update_apply]
  split
  · rfl
  · rfl

theorem views_modify_same {f : Proc → Proc} (hf : ∀ pr, view (f pr) = view pr) (t : PTable) (p : Slot) :
    views (t.modify p f) = views t := funext fun q => t.modify_unseen p q hf

theorem view_wake (pr : Proc) (h : pr.state = .sleeping) : view { pr with state := .runnable } = view pr := by
  rw [view, view, h]
  rfl

theorem views_exit (t : PTable) (p : Slot) :
    views (t.exit p) = update (views t) p { views t p with life := .zombie } := by
  have hexit (t' : PTable) (h : views t' = views t) :
      views ((t'.reparent p PTable.slots).modify p fun pr => { pr with state := .zombie }) =
        update (views t) p { views t p with life := .zombie } := by
    have hsame : views (t'.reparent p PTable.slots) = views t :=
      (funext fun q => t'.reparent_unseen p q view_wake (fun _ _ => rfl) _).trans h
    rw [views_modify, hsame, ← hsame]
    rfl
  unfold PTable.exit
  dsimp only
  split
  · exact hexit _ (funext fun q => t.wakeup1_unseen q view_wake _)
  · exact hexit t rfl

theorem proc_effect {t t' : PTable} {o : ProcOp} {b : o.Ans} (h : t.Step o b t') :
    Effect (views t) (.proc o) b (views t') := by
  have hsame {o : ProcOp} {b : o.Ans} (ho : Aside (.proc o)) (q : Slot) {f : Proc → Proc}
      (hf : ∀ pr, view (f pr) = view pr) : Effect (views t) (.proc o) b (views (t.modify q f)) := by
    rw [views_modify_same hf]
    exact .same ho
  cases h with
  | proc | initproc => exact .same trivial
  | setKstack np => exact hsame (by trivial) np fun _ => by rfl
  | setCwd p i | setName p name => exact hsame (by trivial) p fun _ => by rfl
  | noSlot => exact .noSlot
  | alloc np mlfq ticks hunused =>
    have hviews := views_modify t np (PTable.embryo mlfq ticks t.nextpid)
    exact hviews ▸ Effect.alloc np (congrArg lifeOf hunused)
  | abandon np =>
    rw [views_modify]
    exact .abandon np
  | initChild np p pg userid =>
    rw [views_modify]
    exact .initChild np p pg userid
  | publish np =>
    rw [views_modify]
    exact .publish np
  | exit p =>
    rw [views_exit]
    exact .exit p
  | noChild p => exact .noChild p
  | reap p q hparent hzombie =>
    rw [views_modify]
    exact .reap p q (congrArg lifeOf hzombie)
  | setImage p pg sz eip esp =>
    rw [views_modify]
    exact .setImage p pg sz eip esp
  | growproc p n hsz =>
    rw [views_modify]
    exact .growproc p n hsz
  | denied p password => exact .getadmin p password
  | getadmin p password =>
    rw [views_modify_same fun _ => by rfl]
    exact .getadmin p password
  | refused p pid limit => exact .refused p pid limit
  | setLimit p q pid limit hlimit =>
    rw [views_modify]
    exact .setLimit p q pid limit hlimit
  | noProc pid => exact .kill pid
  | kill pid =>
    rw [views_modify_same (PTable.killed_unseen view_wake fun _ => rfl)]
    exact .kill pid

theorem effect (h : o.sem k = .ok (b, k')) : Effect (views k.pt) o b (views k'.pt) := by
  have haside (ho : Aside o) : Effect (views k.pt) o b (views k'.pt) := by
    have hsame : views k'.pt = views k.pt := funext fun q =>
      aside_fixes (f := view) (fun _ _ => rfl) (fun _ _ => rfl) (fun _ _ => rfl) (fun _ _ => rfl) ho q k b k' h
    exact hsame ▸ Effect.same ho
  cases o with
  | proc => exact proc_effect (ProcOp.step h)
  | _ => exact haside trivial

end Xv6.Sys
