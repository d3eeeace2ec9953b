import Xv6.Lib.Count
import Xv6.Proc.Lifecycle
import Xv6.Sys.Usage

/-! # References to inodes and files

What a call has in its hands: the references that its process keeps from one call to the
next, in its working directory and its descriptors, those that the call takes and gives
back, and those that `fork` has put into the child.
-/
namespace Xv6.Sys
open Function Prog Fs Usage Multiset
open KProg hiding panic

def openFds (fds : Fin NOFILE → Option FileIdx) : Multiset FileIdx := ∑ fd, one (fds fd)

/-- `files` are the references to files that the call has, with those of the descriptors
`fds`, and `fresh` is a file that `filealloc` has returned and that is not open yet.
`childFds` and `childCwd` are what the child in the making has got. -/
structure Holdings where
  kin : Kinship
  usage : Usage
  fds : Fin NOFILE → Option FileIdx
  files : Multiset FileIdx
  fresh : Option FileIdx := none
  childFds : Fin NOFILE → Option FileIdx := fun _ => none
  childCwd : Option InodeIdx := none

namespace Holdings

def Grants (g : Holdings) : Op → Prop
  | .fs o => g.usage.Allows g.kin.self (.fs o)
  | .file .filealloc => g.fresh = none
  | .file (.filedup f) => f ∈ g.files ∧ g.fresh = none
  | .file (.fileclose f) => f ∈ g.files
  | .file (.openInode f i _ _) => g.fresh = some f ∧ i ∈ g.usage.refs
  | .file (.openPipe _ _ _) => False
  | .file (.setOff _ _) => False
  | .file (.fdalloc p _) => p = g.kin.self
  | .file (.setFd p _ none) => p = g.kin.self
  | .file (.setFd np fd (some f)) => g.kin.child = some np ∧ g.childFds fd = none ∧ f ∈ g.files ∧ g.fresh = none
  | .proc (.setCwd p i) => p = g.kin.self ∨
      g.kin.child = some p ∧ g.childCwd = none ∧ one i ≤ g.usage.refs
  | .proc (.abandon _) => g.childFds = (fun _ => none) ∧ g.childCwd = none
  | .proc (.exit _) => g.fds = (fun _ => none) ∧ g.usage.cwd = none ∧ g.files = 0 ∧ g.usage.refs = 0
  | .user _ => False
  | _ => True

def Allows (g : Holdings) (o : Op) : Prop := g.kin.alive = true ∧ g.kin.Allows o ∧ g.Grants o

def Learns (g : Holdings) : (o : Op) → o.Ans → Prop
  | .fs o, b => g.usage.Answers (.fs o) b
  | .file (.fdalloc _ _), (r : Option (Fin NOFILE)) => ∀ fd, r = some fd → g.fds fd = none
  | .proc (.proc p), (pr : Proc) => p = g.kin.self → pr.ofile = g.fds ∧ pr.cwd = g.usage.cwd
  | .proc .alloc, (r : Option Slot) => r ≠ some g.kin.self
  | _, _ => True

def Answers (g : Holdings) (o : Op) (b : o.Ans) : Prop := g.kin.Answers o b ∧ g.Learns o b

def gotFile (g : Holdings) : Option FileIdx → Holdings
  | some f => { g with files := f ::ₘ g.files, fresh := some f }
  | none => g

def gotFd (g : Holdings) (f : FileIdx) : Option (Fin NOFILE) → Holdings
  | some fd => { g with fds := update g.fds fd (some f) }
  | none => g

def named (f : File) : Multiset InodeIdx := if f.type = .inode then one f.ip else 0

/-- What the last reference to a file leaves behind. -/
def left (r : Option File) : Multiset InodeIdx := r.elim 0 named

def withRefs (g : Holdings) (m : Multiset InodeIdx) : Holdings := { g with usage := { g.usage with refs := m } }

def setCwd (g : Holdings) (p : Slot) (i : Option InodeIdx) : Holdings :=
  if p = g.kin.self then { g with usage := { g.usage with cwd := i } }
  else { g.withRefs (g.usage.refs - one i) with childCwd := i }

def step (g : Holdings) : (o : Op) → o.Ans → Holdings
  | .fs o, b => { g with usage := g.usage.next (.fs o) b }
  | .file .filealloc, r => g.gotFile r
  | .file (.filedup f), _ => { g with files := f ::ₘ g.files }
  | .file (.fileclose f), r =>
    { g.withRefs (left r + g.usage.refs) with files := g.files.erase f, fresh := none }
  | .file (.openInode _ i _ _), _ => { g with usage := g.usage.dropRef i, fresh := none }
  | .file (.fdalloc _ f), r => g.gotFd f r
  | .file (.setFd _ fd none), _ => { g with fds := update g.fds fd none }
  | .file (.setFd _ fd (some f)), _ =>
    { g with childFds := update g.childFds fd (some f), files := g.files.erase f }
  | .proc .alloc, _ => { g with childFds := fun _ => none, childCwd := none }
  | .proc (.setCwd p i), _ => g.setCwd p i
  | _, _ => g

def next (g : Holdings) (o : Op) (b : o.Ans) : Holdings := { g.step o b with kin := g.kin.next o b }

end Holdings

def holdings : Protocol Op Op.Ans where
  Ghost := Holdings
  allow := Holdings.Allows
  answer := Holdings.Answers
  next := Holdings.next

/-- What a process has between its calls. -/
structure Rested (g : Holdings) : Prop where
  refs : g.usage.refs = one g.usage.cwd
  files : g.files = openFds g.fds
  fresh : g.fresh = none
  child : g.kin.child = none

/-- The call is one of process `p`, which is alive. -/
structure Caller (p : Slot) (g : Kinship) : Prop where
  self : g.self = p
  alive : g.alive = true

abbrev Holdings.use (g : Holdings) (u : Usage) : Holdings := { g with usage := u }

theorem Rested.cwd (h : Rested g) (i : InodeIdx) (hi : g.usage.cwd = some i) : i ∈ g.usage.refs := by
  rw [h.refs, hi]
  exact mem_singleton_self i

theorem Rested.room (h : Rested g) : g.usage.refs.card + 2 < room := by
  rw [h.refs]
  cases g.usage.cwd <;> simp [Usage.room]

theorem Rested.lookup (h : Rested g) (dp : InodeIdx) : (g.usage.locked dp).refs.card < Usage.room := by
  rw [card_locked]
  exact Nat.lt_of_succ_lt h.room

section Rules
variable {α β : Type} {p : Slot} {g : Holdings} {i ip : InodeIdx} {f : FileIdx} {x : KProg α}

abbrev Ends (g g' : Holdings) (x : KProg α) : Prop := x.Obeys holdings g fun _ g₁ => g₁ = g'

variable {Q : β → Holdings → Prop} {y : Unit → KProg β}

theorem Ends.bind {y : α → KProg β} (hx : Ends g h x)
    (hy : ∀ a, (y a).Obeys holdings h Q) : (x >>= y).Obeys holdings g Q := by
  refine hx.seq fun a g₁ hg => ?_
  subst hg
  exact hy a

/-- Operations for which the rules of `usage` are taken up. -/
def Lifted : Op → Prop
  | .panic _ => True
  | .fs _ => True
  | .vm _ => True
  | .proc (.proc _) => True
  | _ => False

theorem lifted_of_inner (h : x.Uses Inner) : x.Uses Lifted := h.mono fun o ho => by
  cases o with
  | panic msg | fs o => trivial
  | proc o => cases o <;> exact ho
  | _ => exact ho.elim

theorem lifted_of_core (h : x.Uses Op.Core) : x.Uses Lifted := lifted_of_inner (inner_of_core h)

theorem lift_usage (hc : Caller p g.kin) (hu : x.Uses Lifted) {R : α → Usage → Prop}
    (hx : x.Obeys (usage p) g.usage R) : x.Obeys holdings g fun a g' => ∃ u, R a u ∧ g' = g.use u := by
  obtain ⟨rfl, halive⟩ := hc
  refine .lift holdings g.use (fun u o ho hallow => ?_) hu hx
  cases o with
  | panic => exact ⟨⟨halive, trivial, trivial⟩, fun b => b.elim⟩
  | fs => exact ⟨⟨halive, trivial, hallow⟩, fun b hb => ⟨hb.2, rfl⟩⟩
  | vm => exact ⟨⟨halive, trivial, trivial⟩, fun b _ => ⟨trivial, rfl⟩⟩
  | proc o =>
    cases o with
    | proc => exact ⟨⟨halive, trivial, trivial⟩, fun b _ => ⟨trivial, rfl⟩⟩
    | _ => exact ho.elim
  | _ => exact ho.elim

theorem lift_ends (hc : Caller p g.kin) (hu : x.Uses Lifted) {u : Usage}
    (hx : x.Obeys (usage p) g.usage fun _ u' => u' = u) : Ends g (g.use u) x :=
  (lift_usage hc hu hx).mono fun _ g' ⟨u', hu', hg'⟩ => by rw [hg', hu']

def Skips (p : Slot) (o : Op) : Prop := ∀ g : Holdings, Caller p g.kin → g.Allows o ∧ ∀ b, g.next o b = g

theorem skips_ends (hc : Caller p g.kin) (hx : x.Uses (Skips p)) : Ends g g x := hx.obeys fun _ ho => ho g hc

theorem skip_bind {y : o.Ans → KProg β} (hc : Caller p g.kin) (ho : Skips p o)
    (hy : ∀ b, (y b).Obeys holdings g Q) : (call o >>= y).Obeys holdings g Q :=
  (skips_ends hc (uses_call ho)).bind hy

theorem log_skips (o : LogOp) : Skips p (.log o) := fun _ hc => ⟨⟨hc.alive, trivial, trivial⟩, fun _ => rfl⟩
theorem vm_skips (o : VmOp) : Skips p (.vm o) := fun _ hc => ⟨⟨hc.alive, trivial, trivial⟩, fun _ => rfl⟩
theorem inode_skips (i : InodeIdx) : Skips p (.fs (.inode i)) :=
  fun _ hc => ⟨⟨hc.alive, trivial, trivial⟩, fun _ => rfl⟩
theorem store_skips (i : InodeIdx) (u : InodeUpdate) : Skips p (.fs (.store i u)) :=
  fun _ hc => ⟨⟨hc.alive, trivial, trivial⟩, fun _ => rfl⟩
theorem iupdate_skips (i : InodeIdx) : Skips p (.fs (.iupdate i)) :=
  fun _ hc => ⟨⟨hc.alive, trivial, trivial⟩, fun _ => rfl⟩
theorem access_skips (site : Site) (q : Slot) (i : InodeIdx) (usr oth : Word) :
    Skips p (.fs (.access site q i usr oth)) := fun _ hc => ⟨⟨hc.alive, trivial, trivial⟩, fun _ => rfl⟩
theorem myproc_skips (q : Slot) : Skips p (.proc (.proc q)) :=
  fun _ hc => ⟨⟨hc.alive, trivial, trivial⟩, fun _ => rfl⟩
theorem setName_skips (q : Slot) (name : List UInt8) : Skips p (.proc (.setName q name)) :=
  fun _ hc => ⟨⟨hc.alive, trivial, trivial⟩, fun _ => rfl⟩

theorem panic_ends {Q : α → Holdings → Prop} (hc : Caller p g.kin) :
    (.panic msg : KProg α).Obeys holdings g Q := ⟨⟨hc.alive, trivial, trivial⟩, fun b => b.elim⟩

theorem endOp_ends (hc : Caller p g.kin) : Ends g g endOp := by
  refine skips_ends hc (uses_bind_call (log_skips _) fun (last : Bool) => .ite ?_ (uses_pure _))
  exact uses_bind_call (log_skips _) fun _ => uses_call (log_skips _)

theorem fail_ends (hc : Caller p g'.kin) (h : Ends g g' undo) : Ends g g' (fail undo) :=
  h.bind fun _ => (endOp_ends hc).bind fun _ => rfl

theorem iunlockput_ends (hc : Caller p g.kin) (hfree : g.usage.locks ip = false) :
    Ends (g.use (g.usage.locked ip)) g (iunlockput p ip) :=
  lift_ends (g := g.use (g.usage.locked ip)) hc (lifted_of_core (iunlockput_core p ip)) (iunlockput_usage hfree)

theorem ilock_hold (hc : Caller p g.kin)
    (hy : g.usage.locks ip = false → (y ()).Obeys holdings (g.use (g.usage.locked ip)) Q) :
    (ilock p ip >>= y).Obeys holdings (g.use (g.usage.addRef ip)) Q :=
  obeys_bind_call ⟨hc.alive, trivial, hc.self.symm⟩ fun _ hb => hy hb.2

theorem iunlock_hold (hc : Caller p g.kin) (hfree : g.usage.locks ip = false) (hy : (y ()).Obeys holdings (g.use (g.usage.addRef ip)) Q) :
    (iunlock p ip >>= y).Obeys holdings (g.use (g.usage.locked ip)) Q := by
  refine obeys_bind_call ⟨hc.alive, trivial, hc.self.symm⟩ fun _ _ => ?_
  change (y ()).Obeys holdings (g.use ((g.usage.locked ip).setLock ip false)) Q
  rw [unlock_locked hfree]
  exact hy

theorem namex_hold (hc : Caller p g.kin) (hr : Rested g) (path : CStr) (parent : Bool) :
    (namex p path parent).Obeys holdings g fun r g' => g' = g.use (foundRef g.usage r) :=
  (lift_usage hc (lifted_of_core (namex_core p path parent)) (namex_usage (Nat.lt_of_succ_lt hr.room) hr.cwd path parent)).mono
    fun _ _ ⟨_, hu, hg⟩ => hg.trans (congrArg g.use hu)

theorem namei_hold (hc : Caller p g.kin) (hr : Rested g) (path : CStr) :
    (namei p path).Obeys holdings g fun r g' => g' = g.use (namedRef g.usage r) :=
  (lift_usage hc (lifted_of_core (namei_core p path)) (namei_usage (Nat.lt_of_succ_lt hr.room) hr.cwd path)).mono
    fun _ _ ⟨_, hu, hg⟩ => hg.trans (congrArg g.use hu)

end Rules

/-! The calls of `sysfile.c` that keep their references to themselves. -/
section Balanced
variable {p : Slot} {g : Holdings} {ip dp : InodeIdx}

theorem sysLink_ends (hc : Caller p g.kin) (hr : Rested g) (old new : Option CStr) :
    Ends g g (sysLink p old new) := by
  cases old with
  | none => rfl
  | some old =>
  cases new with
  | none => rfl
  | some new =>
  refine skip_bind hc (log_skips _) fun _ => (namei_hold hc hr old).seq fun r g' hg => ?_
  subst hg
  cases r with
  | none => exact fail_ends hc rfl
  | some ip =>
  refine ilock_hold hc fun hfree => skip_bind hc (inode_skips ip) fun (i : Inode) => ?_
  dsimp only
  split
  · exact fail_ends hc (iunlockput_ends hc hfree)
  refine skip_bind hc (store_skips ip _) fun _ => skip_bind hc (iupdate_skips ip) fun _ => ?_
  refine iunlock_hold hc hfree ?_
  have hlink : Balanced p (g.usage.addRef ip) (linkInto p ip new) :=
    linkInto_usage (g := g.usage.addRef ip) (by rw [card_addRef]; exact hr.room) (fun i hi => mem_cons_of_mem (hr.cwd i hi)) new
  refine (lift_ends (g := g.use (g.usage.addRef ip)) hc (lifted_of_inner (linkInto_inner new)) hlink).bind fun (ok : Bool) => ?_
  split
  · refine (lift_ends (g := g.use (g.usage.addRef ip)) hc (lifted_of_core (iput_core p ip))
      iput_addRef_usage).bind fun _ => ?_
    exact (endOp_ends hc).bind fun _ => rfl
  · refine fail_ends hc (ilock_hold hc fun _ => skip_bind hc (inode_skips ip) fun (i : Inode) => ?_)
    refine skip_bind hc (store_skips ip _) fun _ => skip_bind hc (iupdate_skips ip) fun _ => ?_
    exact iunlockput_ends hc hfree

theorem sysUnlink_ends (hc : Caller p g.kin) (hr : Rested g) (path : Option CStr) : Ends g g (sysUnlink p path) := by
  cases path with
  | none => rfl
  | some path =>
  refine skip_bind hc (log_skips _) fun _ => (namex_hold hc hr path true).seq fun r g' hg => ?_
  subst hg
  cases r with
  | none => exact fail_ends hc rfl
  | some r =>
  obtain ⟨dp, name⟩ := r
  refine ilock_hold hc fun hdp => skip_bind hc (access_skips _ _ dp _ _) fun (ok : Bool) => ?_
  have hbad : Ends (g.use (g.usage.locked dp)) g (fail (iunlockput p dp)) := fail_ends hc (iunlockput_ends hc hdp)
  split
  · exact hbad
  split
  · exact hbad
  refine (lift_usage (g := g.use (g.usage.locked dp)) hc (lifted_of_core (dirlookup_core p dp name))
    (dirlookup_usage (hr.lookup dp) name)).seq fun r g' ⟨u, hu, hg⟩ => ?_
  subst hg hu
  cases r with
  | none => exact hbad
  | some r =>
  obtain ⟨ip, off⟩ := r
  refine ilock_hold (g := g.use (g.usage.locked dp)) hc fun hip => skip_bind hc (inode_skips ip) fun (i : Inode) => ?_
  split
  · exact panic_ends hc
  refine (lift_ends (g := g.use ((g.usage.locked dp).locked ip)) hc (lifted_of_inner nonemptyDir_inner) nonemptyDir_usage).bind
    fun (full : Bool) => ?_
  split
  · refine fail_ends hc ((iunlockput_ends (g := g.use (g.usage.locked dp)) hc hip).bind fun _ => ?_)
    exact iunlockput_ends hc hdp
  · refine (lift_ends (g := g.use ((g.usage.locked dp).locked ip)) hc (lifted_of_inner (unlinkEntry_inner off))
      (unlinkEntry_usage hdp hip off)).bind fun _ => ?_
    exact (endOp_ends hc).bind fun _ => rfl

def Opened (g : Holdings) (r : Option InodeIdx) (g' : Holdings) : Prop :=
  (r = none ∧ g' = g) ∨ ∃ ip, r = some ip ∧ g.usage.locks ip = false ∧ g' = g.use (g.usage.locked ip)

theorem createDenied_opened (hc : Caller p g.kin) (hfree : g.usage.locks ip = false) :
    (createDenied p ip).Obeys holdings (g.use (g.usage.locked ip)) (Opened g) :=
  (iunlockput_ends hc hfree).bind fun _ => (endOp_ends hc).bind fun _ => .inl ⟨rfl, rfl⟩

theorem createExisting_opened (hc : Caller p g.kin) (type : InodeType) :
    (createExisting p ip type).Obeys holdings (g.use (g.usage.addRef ip)) (Opened g) := by
  refine ilock_hold hc fun hfree => skip_bind hc (access_skips _ _ ip _ _) fun (ok : Bool) => ?_
  split
  · exact createDenied_opened hc hfree
  refine skip_bind hc (inode_skips ip) fun (i : Inode) => ?_
  split
  · exact .inr ⟨ip, rfl, hfree, rfl⟩
  · exact (iunlockput_ends hc hfree).bind fun _ => .inl ⟨rfl, rfl⟩

section
variable (hc : Caller p g.kin) (hr : Rested g)
include hc hr

theorem create_opened (path : CStr) (type : InodeType)
    (major minor : BitVec 16) : (create p path type major minor).Obeys holdings g (Opened g) := by
  refine (namex_hold hc hr path true).seq fun r g' hg => ?_
  subst hg
  cases r with
  | none => exact .inl ⟨rfl, rfl⟩
  | some r =>
  obtain ⟨dp, name⟩ := r
  refine ilock_hold hc fun hdp => ?_
  refine (lift_usage (g := g.use (g.usage.locked dp)) hc (lifted_of_core (dirlookup_core p dp name))
    (dirlookup_usage (hr.lookup dp) name)).seq fun r g' ⟨u, hu, hg⟩ => ?_
  subst hg hu
  cases r with
  | some r =>
    obtain ⟨ip, off⟩ := r
    change Obeys holdings _ (g.use ((g.usage.locked dp).addRef ip)) _
    rw [addRef_locked_swap]
    refine (iunlockput_ends (g := g.use (g.usage.addRef ip)) hc hdp).bind fun _ => ?_
    exact createExisting_opened hc type
  | none =>
    refine skip_bind hc (access_skips _ _ dp _ _) fun (ok : Bool) => ?_
    split
    · exact createDenied_opened hc hdp
    refine (lift_usage (g := g.use (g.usage.locked dp)) hc (lifted_of_inner (createNew_inner name type major minor))
      (createNew_usage hr.room hdp name type major minor)).seq fun i g' ⟨u, ⟨hi, hu⟩, hg⟩ => ?_
    subst hg hu
    exact .inr ⟨i, rfl, hi, rfl⟩

theorem makeNode_ends (path : CStr) (type : InodeType)
    (major minor : BitVec 16) : Ends g g (makeNode p path type major minor) := by
  refine (create_opened hc hr path type major minor).seq fun r g' hg => ?_
  rcases hg with ⟨rfl, rfl⟩ | ⟨ip, rfl, hfree, rfl⟩
  · exact fail_ends hc rfl
  · exact (iunlockput_ends hc hfree).bind fun _ => (endOp_ends hc).bind fun _ => rfl

theorem sysMkdir_ends (path : Option CStr) : Ends g g (sysMkdir p path) := by
  refine skip_bind hc (log_skips _) fun _ => ?_
  cases path with
  | none => exact fail_ends hc rfl
  | some path => exact makeNode_ends hc hr path .dir 0 0

theorem sysMknod_ends (path : Option CStr) (major minor : Option Word) :
    Ends g g (sysMknod p path major minor) := by
  refine skip_bind hc (log_skips _) fun _ => ?_
  split
  · exact makeNode_ends hc hr _ .dev _ _
  · exact fail_ends hc rfl

end

end Balanced

section Files
variable {p : Slot} {g : Holdings} {f : FileIdx} {fd : Fin NOFILE} {fds : Fin NOFILE → Option FileIdx}

theorem openFds_update (hfd : fds fd = none) : openFds (update fds fd (some f)) = f ::ₘ openFds fds := by
  have hsum := sum_update (fun fd => one (fds fd)) fd {f}
  rw [hfd, one_none, add_zero, add_comm] at hsum
  rw [openFds, openFds, ← singleton_add, ← hsum]
  exact Finset.sum_congr rfl fun j _ => by by_cases hj : j = fd <;> simp [hj]

theorem openFds_clear (hfd : fds fd = some f) : f ::ₘ openFds (update fds fd none) = openFds fds := by
  have hset : openFds (update (update fds fd none) fd (some f)) = _ :=
    openFds_update (update_self ..)
  rw [update_idem, ← hfd, update_eq_self] at hset
  exact hset.symm

theorem mem_openFds (hfd : fds fd = some f) : f ∈ openFds fds := by
  rw [← openFds_clear hfd]
  exact mem_cons_self f _

section
variable (hc : Caller p g.kin)
include hc

theorem closed_ends (ff : File) : Ends (g.withRefs (Holdings.named ff + g.usage.refs)) g (closed p ff) := by
  unfold closed Holdings.named
  cases ff.type with
  | pipe =>
    rw [if_neg (by simp), zero_add]
    exact skips_ends hc (uses_call fun g hc => ⟨⟨hc.alive, trivial, trivial⟩, fun _ => rfl⟩)
  | inode =>
    rw [if_pos rfl]
    refine skip_bind hc (log_skips _) fun _ => Ends.bind (h := g) ?_ fun _ => endOp_ends hc
    cases ff.ip with
    | none => exact panic_ends hc
    | some i =>
      refine lift_ends (g := g.use (g.usage.addRef i)) hc (lifted_of_core (iput_core p i)) ?_
      exact iput_addRef_usage
  | none =>
    rw [if_neg (by simp), zero_add]
    rfl

theorem fileclose_ends (hf : f ∈ g.files) :
    Ends g { g with files := g.files.erase f, fresh := none } (fileclose p f) := by
  refine obeys_bind_call ⟨hc.alive, trivial, hf⟩ fun (r : Option File) _ => ?_
  cases r with
  | none => exact congrArg (fun m => { g.withRefs m with files := g.files.erase f, fresh := none }) (zero_add _)
  | some ff => exact closed_ends (g := { g with files := g.files.erase f, fresh := none }) hc ff

theorem openFile_rested (hr : Rested g) {ip : InodeIdx} (hfree : g.usage.locks ip = false)
    (omode : Word) : (openFile p ip omode).Obeys holdings (g.use (g.usage.locked ip)) fun _ g' => Rested g' := by
  refine obeys_bind_call ⟨hc.alive, trivial, hr.fresh⟩ fun (r : Option FileIdx) _ => ?_
  cases r with
  | none => exact (fail_ends hc (iunlockput_ends hc hfree)).mono fun _ _ hg => hg ▸ hr
  | some f =>
  refine obeys_bind_call ⟨hc.alive, trivial, hc.self.symm⟩ fun (r : Option (Fin NOFILE)) hfd => ?_
  cases r with
  | none =>
    -- the file has not been opened, so that closing it leaves nothing behind
    have hclose := fileclose_ends (g := (g.use (g.usage.locked ip)).gotFile (some f)) hc (mem_cons_self f _)
    change Ends _ { g.use (g.usage.locked ip) with files := (f ::ₘ g.files).erase f, fresh := none } _ at hclose
    rw [erase_cons_head, ← hr.fresh] at hclose
    exact (fail_ends hc (hclose.bind fun _ => iunlockput_ends hc hfree)).mono fun _ _ hg => hg ▸ hr
  | some fd =>
    have hfd : g.fds fd = none := hfd.2 fd rfl
    let g' : Holdings := { g with fds := update g.fds fd (some f), files := f ::ₘ g.files, fresh := some f }
    refine iunlock_hold (g := g') hc hfree ((endOp_ends (g := g'.use (g.usage.addRef ip)) hc).bind fun _ => ?_)
    refine obeys_bind_call ⟨hc.alive, trivial, rfl, mem_addRef⟩ fun _ _ => ?_
    refine ⟨?_, ?_, rfl, hr.child⟩
    · change ((g.usage.addRef ip).dropRef ip).refs = one g.usage.cwd
      rw [dropRef_addRef]
      exact hr.refs
    · change f ::ₘ g.files = openFds (update g.fds fd (some f))
      rw [openFds_update hfd, hr.files]

theorem openExisting_opened (hr : Rested g) (path : CStr) (omode : Word) :
    (openExisting p path omode).Obeys holdings g (Opened g) := by
  refine (namei_hold hc hr path).seq fun r g' hg => ?_
  subst hg
  cases r with
  | none => exact .inl ⟨rfl, rfl⟩
  | some ip =>
  refine ilock_hold hc fun hfree => Ends.bind (h := g.use (g.usage.locked ip)) ?_ fun (ok : Bool) => ?_
  · unfold openAccess
    split
    · exact skips_ends hc (uses_call (access_skips _ _ _ _ _))
    split
    · exact skips_ends hc (uses_call (access_skips _ _ _ _ _))
    split
    · exact skips_ends hc (uses_call (access_skips _ _ _ _ _))
    · rfl
  have hput {β : Type} (y : KProg β) {Q : β → Holdings → Prop} (hy : y.Obeys holdings g Q) :
      (iunlockput p ip >>= fun _ => y).Obeys holdings (g.use (g.usage.locked ip)) Q :=
    (iunlockput_ends hc hfree).bind fun _ => hy
  split
  · exact hput _ (.inl ⟨rfl, rfl⟩)
  refine skip_bind hc (inode_skips ip) fun (i : Inode) => ?_
  split
  · exact hput _ (.inl ⟨rfl, rfl⟩)
  · exact .inr ⟨ip, rfl, hfree, rfl⟩

theorem sysOpen_rested (hr : Rested g) (path : Option CStr) (omode : Option Word) :
    (sysOpen p path omode).Obeys holdings g fun _ g' => Rested g' := by
  cases path with
  | none => exact hr
  | some path =>
  cases omode with
  | none => exact hr
  | some omode =>
  refine skip_bind hc (log_skips _) fun _ => ?_
  have hopened : (if omode &&& O_CREATE ≠ 0 then create p path .file 0 0 else openExisting p path omode).Obeys
      holdings g (Opened g) := by
    split
    · exact create_opened hc hr path .file 0 0
    · exact openExisting_opened hc hr path omode
  have hfail : Ends g g (fail (pure ())) := fail_ends hc rfl
  refine hopened.seq fun r g' hg => ?_
  rcases hg with ⟨rfl, rfl⟩ | ⟨ip, rfl, hfree, rfl⟩
  · exact hfail.mono fun _ _ hg => hg ▸ hr
  · exact openFile_rested hc hr hfree omode

theorem fetchFd_ends (fd : Option Word) :
    (fetchFd p fd).Obeys holdings g fun r g' => g' = g ∧ ∀ fd f, r = some (fd, f) → g.fds fd = some f := by
  cases fd with
  | none => exact ⟨rfl, nofun⟩
  | some =>
    unfold fetchFd
    dsimp only
    split
    case isTrue hfd =>
      refine obeys_bind_call ⟨hc.alive, trivial, trivial⟩ fun (pr : Proc) hpr => ⟨rfl, fun fd' f hf => ?_⟩
      obtain ⟨f', hf', heq⟩ := Option.map_eq_some_iff.mp hf
      cases heq
      rwa [← (hpr.2 hc.self.symm).1]
    case isFalse => exact ⟨rfl, nofun⟩

theorem sysDup_rested (hr : Rested g) (fd : Option Word) :
    (sysDup p fd).Obeys holdings g fun _ g' => Rested g' := by
  refine (fetchFd_ends hc fd).seq fun r g' ⟨hg, hfd⟩ => ?_
  subst hg
  cases r with
  | none => exact hr
  | some r =>
  obtain ⟨fd, f⟩ := r
  refine obeys_bind_call ⟨hc.alive, trivial, hc.self.symm⟩ fun (r : Option (Fin NOFILE)) hnew => ?_
  cases r with
  | none => exact hr
  | some new =>
    have hf : f ∈ g'.files := by
      rw [hr.files]
      exact mem_openFds (hfd fd f rfl)
    refine obeys_bind_call ⟨hc.alive, trivial, hf, hr.fresh⟩ fun _ _ => ⟨hr.refs, ?_, hr.fresh, hr.child⟩
    change f ::ₘ g'.files = openFds (update g'.fds new (some f))
    rw [openFds_update (hnew.2 new rfl), hr.files]

theorem sysClose_rested (hr : Rested g) (fd : Option Word) :
    (sysClose p fd).Obeys holdings g fun _ g' => Rested g' := by
  refine (fetchFd_ends hc fd).seq fun r g' ⟨hg, hfd⟩ => ?_
  subst hg
  cases r with
  | none => exact hr
  | some r =>
  obtain ⟨fd, f⟩ := r
  have hfds := openFds_clear (hfd fd f rfl)
  have hf : f ∈ g'.files := by
    rw [hr.files]
    exact mem_openFds (hfd fd f rfl)
  refine obeys_bind_call ⟨hc.alive, trivial, hc.self.symm⟩ fun _ _ => ?_
  refine (fileclose_ends (g := { g' with fds := update g'.fds fd none }) hc hf).bind fun _ => ?_
  refine ⟨hr.refs, ?_, rfl, hr.child⟩
  change g'.files.erase f = openFds (update g'.fds fd none)
  rw [hr.files, ← hfds, erase_cons_head]

theorem sysChdir_rested (hr : Rested g) (path : Option CStr) :
    (sysChdir p path).Obeys holdings g fun _ g' => Rested g' := by
  refine skip_bind hc (log_skips _) fun _ => ?_
  have hfail {undo : KProg Unit} {g₁ : Holdings} (h : Ends g₁ g undo) :
      (fail undo).Obeys holdings g₁ fun _ g' => Rested g' := (fail_ends hc h).mono fun _ _ hg => hg ▸ hr
  cases path with
  | none => exact hfail rfl
  | some path =>
  refine (namei_hold hc hr path).seq fun r g' hg => ?_
  subst hg
  cases r with
  | none => exact hfail rfl
  | some ip =>
  refine ilock_hold hc fun hfree => skip_bind hc (access_skips _ _ ip _ _) fun (ok : Bool) => ?_
  split
  · exact hfail (iunlockput_ends hc hfree)
  refine skip_bind hc (inode_skips ip) fun (d : Inode) => ?_
  split
  · exact hfail (iunlockput_ends hc hfree)
  refine iunlock_hold hc hfree (obeys_bind_call ⟨hc.alive, trivial, hc.self.symm⟩ fun (cwd : Option InodeIdx) hcwd => ?_)
  obtain rfl : cwd = g.usage.cwd := hcwd.2
  generalize hold : g.usage.cwd = cwd
  cases cwd with
  | none => exact .bind (panic_ends hc)
  | some i =>
    have hi : i ∈ (g.usage.addRef ip).refs := mem_cons_of_mem (hr.cwd i hold)
    refine (lift_ends (g := g.use (g.usage.addRef ip)) hc (lifted_of_core (iput_core p i)) (iput_usage hi)).bind
      fun _ => ?_
    refine (endOp_ends (g := g.use ((g.usage.addRef ip).dropRef i)) hc).bind fun _ => ?_
    refine obeys_bind_call ⟨hc.alive, trivial, .inl hc.self.symm⟩ fun _ _ => ?_
    change Rested { (g.use ((g.usage.addRef ip).dropRef i)).setCwd p (some ip) with kin := g.kin }
    rw [Holdings.setCwd, if_pos hc.self.symm]
    refine ⟨?_, hr.files, hr.fresh, hr.child⟩
    change (ip ::ₘ g.usage.refs).erase i = {ip}
    rw [hr.refs, hold, one_some, ← singleton_add, add_comm, singleton_add, erase_cons_head]

end

end Files
end Xv6.Sys
