import Xv6.Sys.Holdings

/-! # References handed on

`fork` gives a child its own references, `exit` gives up those of its process, and `exec`
needs the program file for a while.
-/
namespace Xv6.Sys
open Function Prog Fs Usage Obeys Multiset
open KProg hiding panic

section Exec
variable {p : Slot} {g : Holdings} {ip : InodeIdx}

section
variable (hc : Caller p g.kin)
include hc

theorem readi_ends (off n : Word) : Ends g g (readi p ip off n) :=
  lift_ends hc (lifted_of_core (readi_core p ip off n)) (readi_usage off n)

theorem loadPages_ends (pg : Vm.Pgdir) (turns : ℕ) (addr offset sz : Word) :
    Ends g g (loadPages p pg ip turns addr offset sz) := by
  induction turns generalizing addr offset sz with
  | zero => rfl
  | succ turns ih =>
    refine ite (fun _ => ?_) fun _ => panic_ends hc
    refine (readi_ends hc _ _).bind fun r => skip_bind hc (vm_skips _) fun _ => ?_
    exact ite (fun _ => ih _ _ _) fun _ => rfl

theorem loadSegments_ends (turns : ℕ) (off : Word) (pg : Vm.Pgdir) (sz : Word) :
    Ends g g (loadSegments p ip turns off pg sz) := by
  induction turns generalizing off pg sz with
  | zero => rfl
  | succ turns ih =>
    refine (readi_ends hc _ _).bind fun r => ite (fun _ => rfl) fun _ => ?_
    refine ite (fun _ => ih _ _ _) fun _ => ite (fun _ => rfl) fun _ => ?_
    refine skip_bind hc (vm_skips _) fun r => ite (fun _ => rfl) fun _ => Ends.bind (h := g) ?_ fun ok => ?_
    · exact ite (fun _ => panic_ends hc) fun _ => loadPages_ends hc _ _ _ _ _
    · exact ite (fun _ => ih _ _ _) fun _ => rfl

theorem pushArgs_ends (pg : Vm.Pgdir) (argc : ℕ) (args : List CStr) (sp : Word)
    (addrs : List Word) : Ends g g (pushArgs pg argc args sp addrs) := by
  induction args generalizing argc sp addrs with
  | nil => rfl
  | cons arg args ih =>
    refine ite (fun _ => rfl) fun _ => skip_bind hc (vm_skips _) fun (ok : Bool) => ?_
    exact ite (fun _ => ih _ _ _) fun _ => rfl

theorem execStack_ends (path : CStr) (argv : List CStr) (entry pages : Word) (pg : Vm.Pgdir)
    (sz : Word) : Ends g g (execStack p path argv entry pages pg sz) := by
  have hbad (pg : Vm.Pgdir) : Ends g g (execStack.bad pg) := skip_bind hc (vm_skips _) fun _ => rfl
  refine skip_bind hc (vm_skips _) fun r => ite (fun _ => hbad _) fun _ => skip_bind hc (vm_skips _) fun pg => ?_
  refine (pushArgs_ends hc pg 0 argv _ _).bind fun r => ?_
  cases r with
  | none => exact hbad _
  | some =>
    refine skip_bind hc (vm_skips _) fun (ok : Bool) => ite (fun _ => ?_) fun _ => hbad _
    refine skip_bind hc (myproc_skips p) fun pr => skip_bind hc (setName_skips p _) fun _ => ?_
    exact skip_bind hc (fun _ hc => ⟨⟨hc.alive, trivial, trivial⟩, fun _ => rfl⟩) fun _ => skip_bind hc (vm_skips _) fun _ => rfl

theorem exec_ends (hr : Rested g) (path : CStr) (argv : List CStr) : Ends g g (exec p path argv) := by
  refine skip_bind hc (log_skips _) fun _ => (namei_hold hc hr path).seq fun r g' hg => ?_
  subst hg
  cases r with
  | none => exact fail_ends hc rfl
  | some ip =>
  refine ilock_hold hc fun hfree => skip_bind hc (access_skips _ _ ip _ _) fun (ok : Bool) => ?_
  have hput := iunlockput_ends hc hfree
  refine ite (fun _ => fail_ends hc hput) fun _ => ?_
  refine (readi_ends (g := g.use (g.usage.locked ip)) hc _ _).bind fun r => ?_
  refine ite (fun _ => fail_ends hc hput) fun _ => ?_
  refine skip_bind hc (vm_skips _) fun (pg : Option Vm.Pgdir) => ?_
  cases pg with
  | none => exact fail_ends hc hput
  | some pg =>
    refine (loadSegments_ends (g := g.use (g.usage.locked ip)) hc _ _ pg 0).bind fun r => ite (fun _ => ?_) fun _ => ?_
    · exact hput.bind fun _ => (endOp_ends hc).bind fun _ => execStack_ends hc path argv _ _ _ _
    · exact fail_ends hc (skip_bind hc (vm_skips _) fun _ => hput)

end

end Exec

section Fork
variable {p np : Slot} {g : Holdings}

theorem dupFiles_ends (hc : Caller p g.kin) (hfiles : g.files = openFds g.fds) (hfresh : g.fresh = none)
    (hchild : g.kin.child = some np) {curproc : Proc} (hcur : curproc.ofile = g.fds) {fds : List (Fin NOFILE)}
    (hnodup : fds.Nodup) (hempty : ∀ fd ∈ fds, g.childFds fd = none) :
    (dupFiles curproc np fds).Obeys holdings g fun _ g' => ∃ c, g' = { g with childFds := c } := by
  induction fds generalizing g with
  | nil => exact ⟨g.childFds, rfl⟩
  | cons fd fds ih =>
    obtain ⟨hfd, hnodup⟩ := List.nodup_cons.mp hnodup
    have hrest (fd' : Fin NOFILE) (h : fd' ∈ fds) : g.childFds fd' = none := hempty fd' (List.mem_cons_of_mem fd h)
    unfold dupFiles
    split
    case h_1 f hf =>
      have hf' : f ∈ g.files := by
        rw [hfiles]
        exact mem_openFds (hcur ▸ hf)
      refine obeys_bind_call ⟨hc.alive, trivial, hf', hfresh⟩ fun _ _ => ?_
      refine obeys_bind_call
        ⟨hc.alive, trivial, hchild, hempty fd List.mem_cons_self, mem_cons_self f _, hfresh⟩ fun b _ => ?_
      -- the new reference has gone to the child
      let g' : Holdings := { g with childFds := update g.childFds fd (some f) }
      have hnext : ({ g with files := f ::ₘ g.files } : Holdings).next (.file (.setFd np fd (some f))) b = g' :=
        congrArg (fun m => ({ g' with files := m } : Holdings)) (erase_cons_head f g.files)
      change (dupFiles curproc np fds).Obeys holdings
        (({ g with files := f ::ₘ g.files } : Holdings).next (.file (.setFd np fd (some f))) b) _
      rw [hnext]
      refine (ih (g := g') hc hfiles hfresh hchild hcur hnodup fun fd' h => ?_).mono fun _ g1 ⟨c, hg⟩ => ⟨c, hg⟩
      have hne : fd' ≠ fd := by
        rintro rfl
        exact hfd h
      exact (update_of_ne hne ..).trans (hrest fd' h)
    case h_2 => exact ih hc hfiles hfresh hchild hcur hnodup hrest

theorem dupCwd_ends (hc : Caller p g.kin) (hr : g.usage.refs = one g.usage.cwd) (hchild : g.kin.child = some np)
    (hnp : np ≠ p) (hempty : g.childCwd = none) :
    Ends g { g with childCwd := g.usage.cwd } (dupCwd np g.usage.cwd) := by
  generalize hcwd : g.usage.cwd = cwd
  cases cwd with
  | none => exact panic_ends hc
  | some i =>
    have hi : i ∈ g.usage.refs := by
      rw [hr, hcwd]
      exact mem_singleton_self i
    have hle : one (some i) ≤ (g.usage.addRef i).refs := singleton_le.mpr mem_addRef
    refine obeys_bind_call ⟨hc.alive, trivial, hi⟩ fun _ _ => ?_
    refine obeys_call ⟨hc.alive, trivial, .inr ⟨hchild, hempty, hle⟩⟩ fun _ _ => ?_
    change { (g.use (g.usage.addRef i)).setCwd np (some i) with kin := g.kin } = _
    rw [Holdings.setCwd, if_neg (hc.self.symm ▸ hnp)]
    have hrefs : (i ::ₘ g.usage.refs) - {i} = g.usage.refs := by
      rw [sub_singleton, erase_cons_head]
    exact congrArg (fun m => ({ g.withRefs m with childCwd := some i } : Holdings)) hrefs

def Holdings.embryo (g : Holdings) (np : Slot) : Holdings :=
  { g with kin := { g.kin with child := some np, named := false }, childFds := fun _ => none, childCwd := none }

theorem abandon_rested (hc : Caller p g.kin) (hr : Rested g) {α : Type} (a : α) :
    (proc (.abandon np) >>= fun _ => pure a).Obeys holdings (g.embryo np) fun b g' => b = a ∧ Rested g' :=
  obeys_bind_call ⟨hc.alive, ⟨rfl, rfl⟩, rfl, rfl⟩ fun _ _ => ⟨rfl, hr.refs, hr.files, hr.fresh, rfl⟩

theorem allocproc_hold (hc : Caller p g.kin) (hr : Rested g) : allocproc.Obeys holdings g fun r g' =>
      (r = none ∧ Rested g') ∨ ∃ np, r = some np ∧ np ≠ p ∧ g' = g.embryo np := by
  refine obeys_bind_call ⟨hc.alive, ⟨hr.child, hc.alive⟩, trivial⟩ fun (r : Option Slot) hr' => ?_
  cases r with
  | none => exact .inl ⟨rfl, hr.refs, hr.files, hr.fresh, rfl⟩
  | some np =>
    have hne : np ≠ p := fun heq => hr'.2 (heq ▸ congrArg some hc.self.symm)
    have hc' : Caller p (g.embryo np).kin := ⟨hc.self, hc.alive⟩
    change Obeys holdings _ (g.embryo np) _
    refine skip_bind hc' (vm_skips _) fun (f : Option Vm.Frame) => ?_
    cases f with
    | none => exact (abandon_rested hc hr none).mono fun _ _ hg => .inl hg
    | some f =>
      refine skip_bind hc' (o := .proc (.setKstack np f)) (fun g hc => ⟨⟨hc.alive, trivial, trivial⟩, fun _ => rfl⟩) fun _ => ?_
      exact .inr ⟨np, rfl, hne, rfl⟩

theorem fork_rested (hc : Caller p g.kin) (hr : Rested g) : (fork p).Obeys holdings g fun _ g' => Rested g' := by
  refine (allocproc_hold hc hr).seq fun r g' hg => ?_
  rcases hg with ⟨rfl, hg⟩ | ⟨np, rfl, hnp, rfl⟩
  · exact hg
  have hc' : Caller p (g.embryo np).kin := ⟨hc.self, hc.alive⟩
  refine obeys_bind_call ⟨hc.alive, trivial, trivial⟩ fun (curproc : Proc) hcur => ?_
  obtain ⟨hofile, hcwd⟩ := hcur.2 hc.self.symm
  change Obeys holdings _ (g.embryo np) _
  refine skip_bind hc' (vm_skips _) fun (pg : Option Vm.Pgdir) => ?_
  cases pg with
  | none =>
    refine skip_bind hc' (myproc_skips np) fun (child : Proc) => ?_
    generalize child.kstack = kstack
    cases kstack with
    | none => exact bind (panic_ends hc')
    | some => exact skip_bind hc' (vm_skips _) fun _ => (abandon_rested hc hr (-1)).mono fun _ _ hg => hg.2
  | some =>
    refine obeys_bind_call ⟨hc.alive, ⟨rfl, hc.self.symm, hcur.1⟩, trivial⟩ fun _ _ => ?_
    let g1 : Holdings := { g.embryo np with kin := { g.kin with child := some np, named := true } }
    have hc1 : Caller p g1.kin := ⟨hc.self, hc.alive⟩
    have hfiles := dupFiles_ends hc1 hr.files hr.fresh (show g1.kin.child = some np from rfl) hofile (List.nodup_finRange NOFILE)
      fun _ _ => rfl
    refine hfiles.seq fun _ g2 ⟨c, hg2⟩ => ?_
    subst hg2
    rw [hcwd]
    refine (dupCwd_ends (g := { g1 with childFds := c }) hc1 hr.refs rfl hnp rfl).bind fun _ => ?_
    refine skip_bind hc1 (setName_skips np _) fun _ => skip_bind hc1 (myproc_skips np) fun _ => ?_
    exact obeys_bind_call ⟨hc.alive, ⟨rfl, rfl⟩, trivial⟩ fun _ _ => ⟨hr.refs, hr.files, hr.fresh, rfl⟩

end Fork

section Exit
variable {p : Slot} {g : Holdings}

theorem closeFiles_ends (hc : Caller p g.kin) (hfiles : g.files = openFds g.fds) (hfresh : g.fresh = none)
    (fds : List (Fin NOFILE)) :
    (closeFiles p fds).Obeys holdings g fun _ g' => ∃ c, g' = { g with fds := c, files := openFds c } ∧
      (∀ fd ∈ fds, c fd = none) ∧ ∀ fd, g.fds fd = none → c fd = none := by
  induction fds generalizing g with
  | nil => exact ⟨g.fds, by rw [← hfiles], nofun, fun _ h => h⟩
  | cons fd fds ih =>
    refine obeys_bind_call ⟨hc.alive, trivial, trivial⟩ fun (pr : Proc) hpr => ?_
    rw [(hpr.2 hc.self.symm).1]
    split
    case h_1 f hf =>
      let g' : Holdings := { g with
        fds := update g.fds fd none, files := openFds (update g.fds fd none) }
      have hleft : g.files.erase f = openFds (update g.fds fd none) := by
        rw [hfiles, ← openFds_clear hf, erase_cons_head]
      have hclose : Ends g { g with files := openFds (update g.fds fd none) } (fileclose p f) := by
        have hends := fileclose_ends hc (g := g) (f := f) (by rw [hfiles]; exact mem_openFds hf)
        rwa [← hfresh, hleft] at hends
      refine hclose.bind fun _ => obeys_bind_call ⟨hc.alive, trivial, hc.self.symm⟩ fun _ _ => ?_
      refine (ih (g := g') hc rfl hfresh).mono fun _ g1 ⟨c, hg, hdone, hkeep⟩ => ⟨c, hg, fun fd' h => ?_, fun fd' h => ?_⟩
      · rcases List.mem_cons.mp h with rfl | h
        · exact hkeep fd' (update_self ..)
        · exact hdone fd' h
      · refine hkeep fd' ?_
        by_cases hne : fd' = fd
        · subst hne
          exact update_self ..
        · exact (update_of_ne hne ..).trans h
    case h_2 hnone =>
      refine (ih hc hfiles hfresh).mono fun _ g1 ⟨c, hg, hdone, hkeep⟩ => ⟨c, hg, fun fd' h => ?_, hkeep⟩
      rcases List.mem_cons.mp h with rfl | h
      · exact hkeep fd' hnone
      · exact hdone fd' h

theorem exit_rested (hc : Caller p g.kin) (hr : Rested g) : (exit p).Obeys holdings g fun _ g' => Rested g' := by
  refine obeys_bind_call ⟨hc.alive, trivial, trivial⟩ fun (i : Option Slot) hi => ?_
  have hi : i = g.kin.init := hi.1
  refine ite (fun _ => panic_ends hc) fun hne => ?_
  refine (closeFiles_ends hc hr.files hr.fresh _).seq fun _ g' ⟨c, hg, hdone, _⟩ => ?_
  have hnone : c = fun _ => none := funext fun fd => hdone fd (List.mem_finRange fd)
  have hzero : openFds (fun _ => none) = 0 := Finset.sum_const_zero
  rw [hnone, hzero] at hg
  subst hg
  let g1 : Holdings := { g with fds := fun _ => none, files := 0 }
  have hc1 : Caller p g1.kin := hc
  change Obeys holdings _ g1 _
  refine skip_bind hc (log_skips _) fun _ => obeys_bind_call ⟨hc.alive, trivial, hc.self.symm⟩
    fun (cwd : Option InodeIdx) hcwd => ?_
  obtain rfl : cwd = g.usage.cwd := hcwd.2
  generalize hold : g.usage.cwd = cwd
  cases cwd with
  | none => exact bind (panic_ends hc)
  | some i =>
    refine (lift_ends (g := g1) hc (lifted_of_core (iput_core p i)) (iput_usage (hr.cwd i hold))).bind fun _ => ?_
    refine (endOp_ends (g := g1.use (g.usage.dropRef i)) hc).bind fun _ => ?_
    have hrefs : (g.usage.dropRef i).refs = 0 := by
      change g.usage.refs.erase i = 0
      rw [hr.refs, hold, one_some, erase_singleton]
    let g2 : Holdings := { g1 with usage := { g.usage.dropRef i with cwd := none } }
    refine obeys_bind_call ⟨hc.alive, trivial, .inl hc.self.symm⟩ fun _ _ => ?_
    change Obeys holdings _ { (g1.use (g.usage.dropRef i)).setCwd p none with kin := g.kin } _
    rw [Holdings.setCwd, if_pos hc.self.symm]
    change Obeys holdings _ g2 _
    refine obeys_call ⟨hc.alive, ⟨hc.self.symm, hc.alive, hr.child, hi ▸ hne⟩, rfl, rfl, rfl, hrefs⟩ fun _ _ => ?_
    exact ⟨hrefs, hzero.symm, hr.fresh, hr.child⟩

end Exit

inductive FileCall
  | «open» (path : Option CStr) (omode : Option Word)
  | close (fd : Option Word)
  | dup (fd : Option Word)
  | link (old new : Option CStr)
  | unlink (path : Option CStr)
  | mkdir (path : Option CStr)
  | mknod (path : Option CStr) (major minor : Option Word)
  | chdir (path : Option CStr)
  | exec (path : CStr) (argv : List CStr)
  | fork
  | exit
  | wait

def FileCall.body (p : Slot) : FileCall → KProg ℤ
  | «open» path omode => sysOpen p path omode
  | close fd => sysClose p fd
  | dup fd => sysDup p fd
  | link old new => sysLink p old new
  | unlink path => sysUnlink p path
  | mkdir path => sysMkdir p path
  | mknod path major minor => sysMknod p path major minor
  | chdir path => sysChdir p path
  | exec path argv => Sys.exec p path argv
  | fork => Sys.fork p
  | exit => do
    Sys.exit p
    return 0
  | wait => Sys.wait p

theorem fileCall_rested {p : Slot} {g : Holdings} (hc : Caller p g.kin) (hr : Rested g) (c : FileCall) :
    (c.body p).Obeys holdings g fun _ g' => Rested g' := by
  have hends {x : KProg ℤ} (h : Ends g g x) : x.Obeys holdings g fun _ g' => Rested g' :=
    h.mono fun _ _ hg => hg ▸ hr
  cases c with
  | «open» path omode => exact sysOpen_rested hc hr path omode
  | close fd => exact sysClose_rested hc hr fd
  | dup fd => exact sysDup_rested hc hr fd
  | link old new => exact hends (sysLink_ends hc hr old new)
  | unlink path => exact hends (sysUnlink_ends hc hr path)
  | mkdir path => exact hends (sysMkdir_ends hc hr path)
  | mknod path major minor => exact hends (sysMknod_ends hc hr path major minor)
  | chdir path => exact sysChdir_rested hc hr path
  | exec path argv => exact hends (exec_ends hc hr path argv)
  | fork => exact fork_rested hc hr
  | exit => exact (exit_rested hc hr).seq fun _ _ hg => hg
  | wait => exact obeys_call ⟨hc.alive, ⟨hc.self.symm, hr.child⟩, trivial⟩ fun _ _ => hr

end Xv6.Sys
