import Xv6.Kernel.Outcome
import Xv6.Sys.Bracket

/-! # The count of open brackets

In every interleaving of file-system calls whose permission tests in `create` all grant
access, `log.outstanding` is the number of calls that are inside their bracket.
-/
namespace Xv6.Sys
open Function Bracket Comp Kernel

abbrev FsLabel := Pool.Label Op Op.Ans Slot FsCall
abbrev FsState := Pool.State Op Op.Ans Kernel Slot ℤ

/-- One step of one of the processes, each of which makes one call after another. -/
abbrev FsStep : FsState → FsLabel → FsState → Prop := Pool.Step Op.sem FsCall.body

/-- What a step does to the bracket of process `i`. -/
def change (i : Slot) : FsLabel → ℤ
  | .start _ _ => 0
  | .exec j o _ => if j = i then (if isBegin o then 1 else 0) - (if isEnd o then 1 else 0) else 0

/-- How many more `begin_op` than `end_op` the process has executed. -/
def depth (i : Slot) (ls : List FsLabel) : ℤ := (ls.map (change i)).sum

/-- A permission test of `create` grants access in the state in which it is made. -/
def Granted (s : FsState) : FsLabel → Prop
  | .exec _ (.fs (.access .create p i usr oth)) _ =>
    mayAccess (s.shared.pt.proc p).userid (s.shared.icache i).d usr oth = true
  | _ => True

/-- No call is in progress, no bracket is open, and unreferenced files have no type. -/
structure Quiescent (s : FsState) : Prop where
  returned : ∀ i, ∃ r, s.thread i = .ret r
  outstanding : s.shared.log.outstanding = 0
  files : ∀ f, (s.shared.ftable f).ref = 0 → (s.shared.ftable f).type = .none

/-- The files that calls have allocated and not yet opened are their own. -/
structure FilesInv (k : Kernel) (γ : Slot → Bracket) : Prop where
  unused : ∀ f, (k.ftable f).ref = 0 → (k.ftable f).type = .none
  own : ∀ i f, (γ i).file = some f → 0 < (k.ftable f).ref ∧ (k.ftable f).type = .none
  distinct : ∀ i j f, (γ i).file = some f → (γ j).file = some f → i = j

structure BracketInv (ls : List FsLabel) (k : Kernel) (γ : Slot → Bracket) : Prop where
  trusted : ∀ i, (γ i).trusted = true
  depth : ∀ i, depth i ls = (γ i).depth
  range : ∀ i, (γ i).depth = 0 ∨ (γ i).depth = 1
  outstanding : k.log.outstanding = countThreads (fun g : Bracket => g.depth = 1) γ
  files : FilesInv k γ

theorem depth_snoc (i : Slot) (ls : List FsLabel) (l : FsLabel) :
    depth i (ls ++ [l]) = depth i ls + change i l := by
  simp [depth]

section Ops
variable {k k' : Kernel} {γ : Slot → Bracket} {i : Slot} {o : Op} {b : o.Ans}

theorem outstanding_next (h : o.sem k = .ok (b, k')) : k'.log.outstanding =
      k.log.outstanding + ((if isBegin o then 1 else 0) - (if isEnd o then 1 else 0)) := by
  have same {o : Op} {b : o.Ans} (h : o.sem k = .ok (b, k'))
      (hfix : Fixes (fun k => k.log.outstanding) o.sem) :
      k'.log.outstanding = k.log.outstanding + (0 - 0) := by
    rw [sub_zero, add_zero]
    exact hfix k b k' h
  cases o with
  | panic => cases h
  | log o =>
    cases o with
    | beginOp =>
      obtain ⟨l, hl, rfl⟩ := onLog_eq_ok.mp (show onLog Log.beginOp k = _ from h)
      rw [(Log.beginOp_eq_ok hl).2]
      rfl
    | endOp =>
      obtain ⟨l, hl, rfl⟩ := onLog_eq_ok.mp (show onLog Log.endOp k = _ from h)
      rw [(Log.endOp_eq_ok hl).2.2]
      exact sub_eq_add_neg ..
    | commit | endCommit =>
      cases h
      exact (add_zero _).symm
  | fs o => exact same h (FsBlind.sem (by constructor <;> intros <;> rfl) o)
  | file o =>
    exact same h (FileOp.sem_fixes (fun _ _ => rfl) (fun _ _ _ => rfl) (fun _ _ => rfl) (fun _ _ => rfl) o)
  | proc o => exact same h (ProcOp.sem_fixes (fun _ _ => rfl) (fun _ _ => rfl) (fun _ _ => rfl) o)
  | vm o => exact same h (VmOp.sem_fixes (fun _ _ => rfl) o)
  | user o => exact same h (UserOp.sem_fixes (fun _ _ => rfl) (fun _ _ => rfl) o)

theorem ftable_next (h : o.sem k = .ok (b, k')) (ho : ∀ fo, o ≠ .file fo) : k'.ftable = k.ftable := by
  cases o with
  | panic => cases h
  | log o => exact LogOp.sem_fixes (f := ftable) (fun _ _ => rfl) o k b k' h
  | fs o => exact FsBlind.sem (f := ftable) (by constructor <;> intros <;> rfl) o k b k' h
  | file o => exact (ho o rfl).elim
  | proc o =>
    exact ProcOp.sem_fixes (f := ftable) (fun _ _ => rfl) (fun _ _ => rfl) (fun _ _ => rfl) o k b k' h
  | vm o => exact VmOp.sem_fixes (f := ftable) (fun _ _ => rfl) o k b k' h
  | user o => exact UserOp.sem_fixes (f := ftable) (fun _ _ => rfl) (fun _ _ => rfl) o k b k' h

theorem isDenial_of_granted (hg : Granted s (.exec i o b))
    (h : o.sem s.shared = .ok (b, k')) : isDenial o b = false := by
  cases o with
  | fs o =>
    cases o with
    | access site =>
      cases site with
      | create =>
        cases h
        exact congrArg (!·) hg
      | _ => rfl
    | _ => rfl
  | _ => rfl

namespace FilesInv

theorem of_eq (h : FilesInv k γ) (hk : k'.ftable = k.ftable) {γ' : Slot → Bracket}
    (hγ : ∀ i, (γ' i).file = (γ i).file) : FilesInv k' γ' where
  unused := by
    rw [hk]
    exact h.unused
  own i f hf := by
    rw [hk]
    exact h.own i f (hγ i ▸ hf)
  distinct i j f hi hj := h.distinct i j f (hγ i ▸ hi) (hγ j ▸ hj)

theorem update_file (hf : (update γ i g j).file = some f) :
    (j = i ∧ g.file = some f) ∨ (j ≠ i ∧ (γ j).file = some f) := by
  by_cases hj : j = i
  · subst hj
    rw [update_self] at hf
    exact .inl ⟨rfl, hf⟩
  · rw [update_of_ne hj] at hf
    exact .inr ⟨hj, hf⟩

theorem set (h : FilesInv k γ) {g : Bracket} {f : FileIdx} {file : File}
    (hf : ∀ j, (γ j).file = some f → j = i) (hg : ∀ f', g.file = some f' → f' = f)
    (hunused : file.ref = 0 → file.type = .none) (hown : g.file = some f → 0 < file.ref ∧ file.type = .none) :
    FilesInv (k.setFile f fun _ => file) (update γ i g) := by
  have hother {j : Slot} {f' : FileIdx} (hj : j ≠ i) (hf' : (γ j).file = some f') : f' ≠ f := by
    rintro rfl
    exact hj (hf j hf')
  refine ⟨fun f' => ?_, fun j f' hj => ?_, fun j j' f' hj hj' => ?_⟩
  · rw [setFile_apply]
    split
    · exact hunused
    · exact h.unused f'
  · rw [setFile_apply]
    rcases update_file hj with ⟨-, hf'⟩ | ⟨hne, hf'⟩
    · obtain rfl := hg f' hf'
      rw [if_pos rfl]
      exact hown hf'
    · rw [if_neg (hother hne hf')]
      exact h.own j f' hf'
  · rcases update_file hj with ⟨rfl, hf'⟩ | ⟨hne, hf'⟩ <;>
      rcases update_file hj' with ⟨rfl, hf''⟩ | ⟨hne', hf''⟩
    · rfl
    · exact (hother hne' hf'' (hg f' hf')).elim
    · exact (hother hne hf' (hg f' hf'')).elim
    · exact h.distinct j j' f' hf' hf''

end FilesInv

/-- The files of the other calls are not touched, and the own file is as it was allocated. -/
theorem filesInv_next (h : FilesInv k γ) (hallow : (γ i).Allows o) (ho : o.sem k = .ok (b, k')) :
    isOddFile o b = false ∧ FilesInv k' (update γ i ((γ i).next o b)) := by
  have same (hk : k'.ftable = k.ftable) (hf : (γ i).ownFile o b = (γ i).file) :
      FilesInv k' (update γ i ((γ i).next o b)) := by
    refine h.of_eq hk fun j => ?_
    by_cases hj : j = i
    · subst hj
      rw [update_self]
      exact hf
    · rw [update_of_ne hj]
  cases o with
  | panic => cases ho
  | file o =>
    cases o with
    | filealloc =>
      refine ⟨rfl, ?_⟩
      rcases FileOp.filealloc_eq_ok ho with ⟨hr, rfl⟩ | ⟨f, hr, href, rfl⟩
      · exact same rfl (hr.trans hallow.symm)
      · refine h.set (fun j hj => ?_) (fun f' hf' => ?_) (fun _ => h.unused f href) fun _ => ?_
        · exact absurd href (h.own j f hj).1.ne'
        · exact (Option.some.inj (hr.symm.trans hf')).symm
        · exact ⟨Int.one_pos, h.unused f href⟩
    | fileclose f =>
      obtain ⟨-, htype, file, hfile, rfl⟩ := FileOp.fileclose_eq_ok ho
      have hown := h.own i f hallow
      refine ⟨?_, h.set (fun j hj => h.distinct j i f hj hallow) (fun f' hf' => ?_) hfile fun hf' => ?_⟩
      · cases b with
        | none => rfl
        | some ff =>
          have hff : ff.type = .none := (htype ff rfl).trans hown.2
          simp [isOddFile, hff]
      · cases hf'
      · cases hf'
    | openInode f =>
      cases ho
      refine ⟨rfl, h.set (fun j hj => h.distinct j i f hj hallow) (fun f' hf' => ?_) (fun h0 => ?_)
        fun hf' => ?_⟩
      · cases hf'
      · exact absurd h0 (h.own i f hallow).1.ne'
      · cases hf'
    | fdalloc => exact ⟨rfl, same (FileOp.fdalloc_ftable ho) rfl⟩
    | _ => exact hallow.elim
  | _ => exact ⟨rfl, same (ftable_next ho (by intro fo hfo; cases hfo)) rfl⟩

theorem range_next (hr : (γ i).depth = 0 ∨ (γ i).depth = 1) (hallow : (γ i).Allows o)
    (hd : isDenial o b = false) :
    ((γ i).next o b).depth = (γ i).depth + ((if isBegin o then 1 else 0) - (if isEnd o then 1 else 0)) ∧
      (((γ i).next o b).depth = 0 ∨ ((γ i).next o b).depth = 1) := by
  have hdepth : ((γ i).next o b).depth =
      (γ i).depth + ((if isBegin o then 1 else 0) - (if isEnd o then 1 else 0)) := by
    change (γ i).depth + weight o b = _
    rw [weight, hd, if_neg Bool.false_ne_true, add_zero]
  refine ⟨hdepth, ?_⟩
  rw [hdepth]
  cases o with
  | log o =>
    cases o with
    | beginOp => exact .inr (by rw [show (γ i).depth = 0 from hallow]; rfl)
    | endOp => exact .inl (by rw [show (γ i).depth = 1 from hallow]; rfl)
    | _ => exact (add_zero (γ i).depth).symm ▸ hr
  | _ => exact (add_zero (γ i).depth).symm ▸ hr

theorem bracketInv_next (h : BracketInv ls k γ) (hallow : (γ i).Allows o)
    (hd : isDenial o b = false) (ho : o.sem k = .ok (b, k')) :
    BracketInv (ls ++ [.exec i o b]) k' (update γ i ((γ i).next o b)) := by
  obtain ⟨hodd, hfiles⟩ := filesInv_next h.files hallow ho
  obtain ⟨hdepth, hrange⟩ := range_next (h.range i) hallow hd
  have hout := outstanding_next ho
  have hcount := countThreads_update (fun g : Bracket => g.depth = 1) γ i ((γ i).next o b)
  refine ⟨fun j => ?_, fun j => ?_, fun j => ?_, ?_, hfiles⟩
  · by_cases hj : j = i
    · subst hj
      rw [update_self, next, hd, hodd, h.trusted j]
      rfl
    · rw [update_of_ne hj]
      exact h.trusted j
  · rw [depth_snoc, h.depth]
    by_cases hj : j = i
    · subst hj
      rw [update_self, hdepth, change, if_pos rfl]
    · rw [update_of_ne hj, change, if_neg (Ne.symm hj), add_zero]
  · by_cases hj : j = i
    · subst hj
      rw [update_self]
      exact hrange
    · rw [update_of_ne hj]
      exact h.range j
  · have hout' := h.outstanding
    rcases h.range i with h0 | h0 <;> rcases hrange with h1 | h1 <;>
      simp only [h0, h1] at hcount hdepth <;> simp at hcount <;> omega

end Ops

theorem outstanding_run (hr : Run FsStep s0 tr s) (h0 : Quiescent s0) (hc : Meets Granted tr) :
    ∃ γ, BracketInv (tr.map Prod.snd) s.shared γ := by
  have hinit : BracketInv [] s0.shared fun _ => {} := by
    refine ⟨fun _ => rfl, fun _ => rfl, fun _ => .inl rfl, ?_, h0.files, fun i f hf => ?_, fun i j f hf => ?_⟩
    · have hcount : countThreads (fun g : Bracket => g.depth = 1) (fun _ : Slot => {}) = 0 :=
        (countThreads_eq_zero _).mpr fun i => zero_ne_one
      rw [h0.outstanding, hcount]
      rfl
    · cases hf
    · cases hf
  have hidle (i : Slot) : (s0.thread i).Obeys bracket {} fun _ g => At 0 g := by
    obtain ⟨r, hri⟩ := h0.returned i
    rw [hri]
    exact ⟨rfl, fun _ => rfl⟩
  obtain ⟨γ, hγ, -⟩ := Pool.run_inv (P := bracket) (I := BracketInv) (J := At 0)
    (fun ls s γ i c h _ hg => by
      refine ⟨γ i, body_obeys i c hg, ?_⟩
      rw [update_eq_self]
      exact ⟨h.trusted, fun j => by rw [depth_snoc, h.depth]; exact add_zero _, h.range,
        h.outstanding, h.files⟩)
    (fun ls s γ i o b t hI hC hallow ho =>
      ⟨trivial, bracketInv_next hI (hallow (hI.trusted i)) (isDenial_of_granted hC ho) ho⟩)
    hr hc ⟨hinit, hidle⟩
  exact ⟨γ, hγ⟩

/-- On every way through a call, `end_op` is executed as often as `begin_op` exactly if no
permission test of `create` fails. In every interleaving in which they all grant access,
each call has at most one bracket open and `log.outstanding` counts the calls that have. -/
theorem begin_end_balance (s₀ s : FsState) (tr : List (FsState × FsLabel)) :
    (∀ (p : Slot) (c : FsCall) (tr : List (Σ o : Op, o.Ans)) (r : ℤ), (c.body p).Path tr r →
      (tr.countP (fun e => isEnd e.1) = tr.countP (fun e => isBegin e.1) ↔
        tr.countP (fun e => isDenial e.1 e.2) = 0)) ∧
    (Run FsStep s₀ tr s → Quiescent s₀ → Meets Granted tr →
      (∀ i, depth i (tr.map Prod.snd) = 0 ∨ depth i (tr.map Prod.snd) = 1) ∧
      s.shared.log.outstanding = countThreads (· = 1) (fun i => depth i (tr.map Prod.snd)) ∧
      0 ≤ s.shared.log.outstanding) := by
  constructor
  · intro p c tr r h
    have hbal := body_path p c h
    omega
  · intro hr h₀ hc
    obtain ⟨γ, hγ⟩ := outstanding_run hr h₀ hc
    have hcount : countThreads (fun g : Bracket => g.depth = 1) γ =
        countThreads (· = 1) (fun i => depth i (tr.map Prod.snd)) := by
      simp only [countThreads, hγ.depth]
    refine ⟨fun i => ?_, ?_, ?_⟩
    · rw [hγ.depth i]
      exact hγ.range i
    · rw [hγ.outstanding, hcount]
    · rw [hγ.outstanding]
      exact Int.natCast_nonneg _

/-- `mkdir` with a bad argument: its bracket is opened and closed, and while it is open it
is the one that the log counts. -/
theorem begin_end_balance_mkdir :
    ∃ (tr : List (Σ o : Op, o.Ans)) (tr' : List (FsState × FsLabel)) (s : FsState),
      ((FsCall.mkdir none).body 0).Path tr (-1) ∧
      tr.countP (fun e => isEnd e.1) = tr.countP (fun e => isBegin e.1) ∧
      Run FsStep ⟨Kernel.zero, fun _ => .ret 0⟩ tr' s ∧ s.shared.log.outstanding = 1 ∧
      countThreads (· = 1) (fun i => depth i (tr'.map Prod.snd)) = 1 := by
  let s₀ : FsState := ⟨zero, fun _ => .ret 0⟩
  have hpath : ((FsCall.mkdir none).body 0).Path
      [⟨.log .beginOp, ()⟩, ⟨.log .endOp, true⟩, ⟨.log .commit, ()⟩, ⟨.log .endCommit, ()⟩] (-1) := by
    iterate 4 apply Prog.Path.op
    exact Prog.Path.ret (-1)
  have hrun := Run.snoc (Run.snoc (@Run.start _ _ FsStep s₀)
    (Pool.Step.start (i := 0) (a := 0) (FsCall.mkdir none) rfl))
    (Pool.Step.exec (b := ()) (i := 0) (o := .log .beginOp) rfl rfl)
  have hbal := (begin_end_balance s₀ _ _).2 hrun ⟨fun _ => ⟨0, rfl⟩, rfl, fun _ _ => rfl⟩ fun e he => ?_
  · refine ⟨_, _, _, hpath, ?_, hrun, rfl, ?_⟩
    · exact ((begin_end_balance s₀ s₀ []).1 0 (.mkdir none) _ (-1) hpath).mpr rfl
    · have hcount := hbal.2.1
      exact Int.ofNat.inj hcount.symm
  · simp only [List.nil_append, List.cons_append, List.mem_cons, List.not_mem_nil, or_false] at he
    rcases he with rfl | rfl <;> trivial

/-- A root directory that other users may search and not write, and a guest. -/
def guestRoot : Kernel :=
  { Kernel.zero with
    pt := ⟨fun _ => { userid := CStr.ofString "guest" }, 2, none⟩
    dinode := fun _ => { type := .dir, nlink := 1, userid := root, mode := MODE_XOTH } }

/-- The guest opens a new file in it for creation: the call fails with one `end_op` too many. -/
theorem open_denied_ends_twice :
    ((sysOpen 0 (some (CStr.ofString "/f")) (some O_CREATE)).run Op.sem).test guestRoot
      (fun r k => r = -1 ∧ guestRoot.log.outstanding = 0 ∧ k.log.outstanding = -1) = true := by
  decide +kernel

end Xv6.Sys
