import Mathlib.Data.Finset.Card
import Mathlib.Data.Finset.Option
import Mathlib.Data.Fintype.Basic
import Xv6.Lib.Run
import Xv6.Users.Release

/-! # References that the account calls leave behind

A call that does not find what it looks for leaves the inode cache as it was. `sys_chmod`
keeps the reference to what it finds, `useradd` two of them where the home directory
exists, and `inituser` one where the file exists, and the old one of `utable.ptr`.
-/
namespace Xv6.Users
open Prog Usage Sys Obeys Multiset
open Fs hiding setLock_setLock setLock_eq setLock_locks locked
open KProg hiding panic
variable {utemp : List UInt8} {bad good : InodeIdx → KProg ℤ} {g : Usage}

section Usage
variable {p : Slot} {g : Usage} {ip : InodeIdx}

abbrev Accounted (p : Slot) (g : Usage) {α : Type} (x : KProg α) : Prop := x.Obeys (usage p) g fun _ _ => True

theorem fail_accounted (h : Accounted p g undo) : Accounted p g (fail undo) := by
  refine h.seq fun _ g' _ => obeys_bind_call trivial fun (last : Bool) _ => ?_
  cases last with
  | true => exact obeys_bind_call trivial fun _ _ => obeys_bind_call trivial fun _ _ => trivial
  | false => trivial

theorem home_accounted (hroom : g.refs.card + 2 < room) (username : CStr) :
    Accounted p (inOp g) (home p username) := by
  unfold home
  rw [namei_rootDir]
  refine obeys_bind_call (show g.refs.card < room by omega) fun (dp : InodeIdx) _ => ?_
  have hcard : ((inOp g).addRef dp).refs.card < room := by
    rw [card_addRef]
    change g.refs.card + 1 < room
    omega
  refine (dirlookup_usage hcard username.bytes).seq fun e g' hg => ?_
  subst hg
  cases e with
  | some e => exact endOp_bind_usage (g := (g.addRef dp).addRef e.1) trivial
  | none =>
    refine (makeHome_usage (g := inOp g) hroom username).seq fun _ g' hg => ?_
    subst hg
    exact endOp_bind_usage trivial

theorem writeShadow_accounted (hbad : ∀ ip, g.locks ip = false → Accounted p ((inOp g).setLock ip true) (bad ip))
    (hgood : ∀ ip, g.locks ip = false → Accounted p ((inOp g).setLock ip true) (good ip)) :
    Accounted p g (writeShadow p utemp bad good) := by
  refine beginOp_usage (ignored_bind table_ignored fun t => ?_)
  split
  · exact panic_usage _
  case h_2 ip _ =>
    refine ilock_usage fun hfree => balanced_bind (writei_usage _ _) fun r => ?_
    exact ite (fun _ => hbad ip hfree) fun _ => hgood ip hfree

theorem useradd_accounted (hroom : g.refs.card + 2 < room) (username password : CStr) :
    Accounted p g (useradd p username password) := by
  refine ignored_bind (myproc_ignored p) fun pr => ?_
  split
  · trivial
  have hadd : (addEntry username password).Obeys (usage p) g fun u g' => u.isSome → g' = g := by
    refine obeys_bind_call trivial fun _ (hg : g.table = false) => ignored_bind table_ignored fun t => ?_
    dsimp only
    generalize findName t.mem username = found, findFree t.mem = slot
    cases found with
    | some => exact fun h => by cases h
    | none =>
      cases slot with
      | none => exact fun h => by cases h
      | some =>
        refine ite (fun _ h => by cases h) fun _ => ?_
        refine ignored_bind (strcpy_ignored _ _) fun _ => ignored_bind (strcpy_ignored _ _) fun _ => ?_
        refine ignored_bind (write_ignored _ _) fun _ => ignored_bind table_ignored fun _ => ?_
        refine obeys_bind_call trivial fun _ _ _ => ?_
        change { g with table := false } = g
        rw [← hg]
  refine hadd.seq fun u g' hg => ?_
  cases u with
  | none => trivial
  | some =>
    obtain rfl := hg rfl
    refine writeShadow_accounted (fun ip hfree => (fail_iunlock hfree).mono fun _ _ _ => trivial) fun ip hfree => ?_
    exact iunlock_setLock (g := inOp g') hfree (home_accounted hroom username)

theorem userdel_accounted (username : CStr) : Accounted p g (userdel p username) := by
  refine ignored_bind (myproc_ignored p) fun pr => ite (fun _ => trivial) fun _ => ?_
  refine ite (fun _ => trivial) fun _ => balanced_bind (delEntry_usage username) fun u => ?_
  cases u with
  | none => trivial
  | some =>
    refine writeShadow_accounted (fun ip _ => fail_accounted (obeys_pure trivial)) fun ip hfree => ?_
    exact iunlock_setLock (g := inOp g) hfree (endOp_bind_usage trivial)

theorem readShadow_accounted : Accounted p (inOp g) (readShadow p ip) := by
  refine obeys_bind_call trivial fun _ _ => obeys_bind_call trivial fun _ _ => obeys_bind_call trivial fun _ _ => ?_
  refine ilock_usage fun hfree => balanced_bind (readi_usage _ _) fun (r, bytes) => ?_
  refine ignored_bind (write_ignored _ _) fun _ => ite (fun _ => fail_accounted (obeys_pure trivial)) fun _ => ?_
  exact iunlock_setLock (g := inOp { withPtr g ip with table := false }) hfree (endOp_bind_usage trivial)

theorem createShadow_accounted (hroom : g.refs.card + 2 < room) (hdp : g.locks dp = false)
    (name : List UInt8) : Accounted p ((inOp g).locked dp) (createShadow p dp name) := by
  refine obeys_bind_call trivial fun _ (hg : g.table = false) => ignored_bind (strcpy_ignored _ _) fun _ => ?_
  refine ignored_bind (strcpy_ignored _ _) fun _ => ignored_bind (write_ignored _ _) fun _ => ?_
  refine obeys_bind_call trivial fun _ _ => ?_
  have hunlocked : { (inOp g).locked dp with table := false } = (inOp g).locked dp := by
    rw [← show ((inOp g).locked dp).table = false from hg]
  change Accounted p { (inOp g).locked dp with table := false } _
  rw [hunlocked]
  have hcard : ((inOp g).locked dp).refs.card < room := by
    rw [card_locked]
    change g.refs.card + 1 < room
    omega
  refine (newInode_usage hcard _ _ _ _).seq fun ip g' ⟨hip, hg'⟩ => ?_
  subst hg'
  have hne : ip ≠ dp := ne_of_unlocked hip
  have hip : g.locks ip = false := (unlocked_of_ne hne).symm.trans hip
  have hcard2 : (((inOp g).locked dp).locked ip).refs.card < room := by
    rw [card_locked, card_locked]
    exact hroom
  refine ignored_bind (inode_ignored ip) fun _ => balanced_bind (dirlink_usage hcard2 _ _) fun _ => ?_
  rw [locked_swap hne]
  have hdp' : ((inOp g).locked ip).locks dp = false := by
    rw [Usage.locked, setLock_of_ne (Ne.symm hne)]
    exact hdp
  refine iunlockput_bind_usage hdp' (ignored_bind table_ignored fun _ => ?_)
  refine balanced_bind (writei_usage _ _) fun r => ite (fun _ => ?_) fun _ => ?_
  · exact (fail_iunlock (g := g.addRef ip) hip).mono fun _ _ _ => trivial
  · exact iunlock_setLock (g := inOp (g.addRef ip)) hip readShadow_accounted

theorem inituser_accounted (hroom : g.refs.card + 2 < room) (hcwd : ∀ i, g.cwd = some i → i ∈ g.refs) :
    Accounted p g (inituser p) := by
  refine initUtable_usage.seq fun _ g' hg => beginOp_usage ?_
  have hroom' : g'.refs.card + 2 < room := by
    rw [hg]
    exact hroom
  have hcwd' : ∀ i, g'.cwd = some i → i ∈ g'.refs := by
    rw [hg]
    exact hcwd
  clear hg hroom hcwd
  refine (namex_usage (g := inOp g') (Nat.lt_of_succ_lt hroom') hcwd' shadow true).seq fun o g1 hg1 => ?_
  subst hg1
  cases o with
  | none => trivial
  | some o =>
    obtain ⟨dp, name⟩ := o
    refine ilock_usage fun (hdp : g'.locks dp = false) => ?_
    have hcard : ((inOp g').locked dp).refs.card < room := by
      rw [card_locked]
      exact Nat.lt_of_succ_lt hroom'
    refine (dirlookup_usage hcard name).seq fun e g2 hg2 => ?_
    subst hg2
    cases e with
    | none => exact createShadow_accounted hroom' hdp name
    | some e =>
      have hswap : foundRef ((inOp g').locked dp) (some e) = ((inOp g').addRef e.1).locked dp := addRef_locked_swap
      rw [hswap]
      refine iunlockput_bind_usage (g := (inOp g').addRef e.1) hdp ?_
      have hcard2 : ((inOp g').addRef e.1).refs.card + 1 < room := by
        rw [card_addRef]
        exact hroom'
      refine (namei_usage hcard2 (fun j hj => mem_cons_of_mem (hcwd' j hj)) shadow).seq fun o g3 hg3 => ?_
      subst hg3
      cases o with
      | none => exact fail_accounted (obeys_pure trivial)
      | some ip => exact readShadow_accounted (g := (g'.addRef e.1).addRef ip)

theorem body_accounted (hroom : g.refs.card + 2 < room) (hcwd : ∀ i, g.cwd = some i → i ∈ g.refs)
    (c : UserCall) : Accounted p g (c.body p) := by
  cases c with
  | inituser => exact inituser_accounted hroom hcwd
  | useradd username password => exact useradd_accounted hroom username password
  | userdel username => exact userdel_accounted username
  | chmod pathname mode =>
    exact (sysChmod_usage (Nat.lt_of_succ_lt hroom) hcwd pathname mode).mono fun _ _ _ => trivial

end Usage

def CallStep (k : Kernel) (l : Slot × UserCall) (k' : Kernel) : Prop :=
  ∃ r, (l.2.body l.1).run Op.sem k = .ok (r, k')

/-- What `sys_chmod` looks for. -/
def findNamed (p : Slot) (pathname : CStr) : KProg (Option InodeIdx) := do
  beginOp
  namei p pathname

def NoLeak (k : Kernel) : Slot × UserCall → Prop
  | (p, .chmod (some pathname) (some _)) => ∀ i k₁, (findNamed p pathname).run Op.sem k ≠ .ok (some i, k₁)
  | (_, .chmod _ _) => True
  | (p, .useradd username password) => ∀ k₁, (findHome p username password).run Op.sem k ≠ .ok (1, k₁)
  | (_, .userdel _) => True
  | (p, .inituser) => ¬ RootSearchable p k ∨
      k.utable.ptr = none ∧ ∀ e k₁, (shadowEntry p).run Op.sem k ≠ .ok (some e, k₁)

section Leak
variable {p : Slot} {k k' : Kernel} {c : UserCall} {r : ℤ}

def current (p : Slot) (k : Kernel) : Usage :=
  ⟨k.utable.locked, fun i => (k.icache i).lock = some p, 0, ownRefs (k.pt.proc p).cwd, (k.pt.proc p).cwd, k.utable.ptr⟩

theorem current_accounts : Accounts p k k (current p k) where
  table := rfl
  locks i := by simp [current]
  depth := (Int.add_zero _).symm
  refs i := by
    rw [current, ownRefs_count]
  ptr := rfl
  pt := rfl
  cwd := rfl

/-- The references are as before, up to the one that `utable.ptr` has. -/
def SameRefs (k k' : Kernel) : Prop := ∀ i,
  (k'.icache i).ref + (if k.utable.ptr = some i then 1 else 0) =
    (k.icache i).ref + (if k'.utable.ptr = some i then 1 else 0)

theorem sameRefs_of_accounts (h : Accounts p k k' g) (hrefs : g.refs = ownRefs (k.pt.proc p).cwd)
    (hptr : g.ptr = k.utable.ptr) : SameRefs k k' := by
  intro i
  have hi := h.refs i
  rw [hrefs, ownRefs_count] at hi
  rw [h.ptr, hptr]
  omega

theorem namei_none_chmod (hfind : ∀ i k₁, (findNamed p pathname).run Op.sem k ≠ .ok (some i, k₁))
    (hr : (sysChmod p (some pathname) (some mode)).run Op.sem k = .ok (r, k')) :
    ∃ k₁ k2, beginOp.run Op.sem k = .ok ((), k₁) ∧ (namei p pathname).run Op.sem k₁ = .ok (none, k2) ∧
      (fail (pure ())).run Op.sem k2 = .ok (r, k') := by
  obtain ⟨_, k₁, hbegin, hr⟩ := of_bind hr
  obtain ⟨o, k2, hname, hr⟩ := of_bind hr
  cases o with
  | none => exact ⟨k₁, k2, hbegin, hname, hr⟩
  | some i => exact (hfind i k2 (bind_ok hbegin hname)).elim

/-- What the calls without a leak keep. -/
structure Steady (k k' : Kernel) : Prop where
  pt : k'.pt = k.pt
  refs : SameRefs k k'
  ptr : ∀ i, k.utable.ptr = some i → k'.utable.ptr = some i

theorem steady_of_accounts (h : Accounts p k k' g) (hrefs : g.refs = ownRefs (k.pt.proc p).cwd)
    (hptr : g.ptr = k.utable.ptr) : Steady k k' where
  pt := h.pt
  refs := sameRefs_of_accounts h hrefs hptr
  ptr _ hi := h.ptr.trans (hptr.trans hi)

theorem call_steady (hk : k.utable.ptr = none → Ready p k) (hc : NoLeak k (p, c))
    (hr : (c.body p).run Op.sem k = .ok (r, k')) : Steady k k' := by
  have hacc : Accounts p k k (current p k) := current_accounts
  have hroom := ownRefs_room (k.pt.proc p).cwd
  have hcwd := ownRefs_cwd (k.pt.proc p).cwd
  cases c with
  | inituser =>
    have hholds : RootSearchable p k → Holds p k ⟨0, fun _ => .free, (k.pt.proc p).cwd⟩ := by
      intro hs
      exact (hk (hc.resolve_left (not_not.mpr hs)).1).holds
    cases inituser_run hholds hacc hroom hcwd hr with
    | noDir hdir hview hname hacc' => exact steady_of_accounts hacc' rfl rfl
    | @created hdir k₁ k2 hentry hfile ip hacc' =>
      obtain ⟨hptr, -⟩ := hc.resolve_left (not_not.mpr hdir)
      refine ⟨hacc'.pt, fun i => ?_, fun _ hi => by simp [hptr] at hi⟩
      have hi := hacc'.refs i
      change _ = _ + (((ip ::ₘ ownRefs (k.pt.proc p).cwd).count i : ℕ) : ℤ) at hi
      rw [count_cons, Int.natCast_add, ownRefs_count] at hi
      rw [hacc'.ptr, hptr]
      change _ = _ + if some ip = some i then 1 else 0
      simp only [Option.some.injEq, eq_comm (a := ip), reduceCtorEq, if_false]
      split_ifs at hi ⊢ <;> omega
    | lost hdir hentry hfile hacc' | read hdir hentry hfile hread hacc'
    | unread hdir hentry => exact ((hc.resolve_left (not_not.mpr hdir)).2 _ _ hentry).elim
  | useradd =>
    rcases useradd_run hacc hroom hr with ⟨-, hacc' | ⟨⟨k₁, hfound⟩, -⟩⟩ | ⟨-, -, hacc'⟩
    · exact steady_of_accounts hacc' rfl rfl
    · exact (hc k₁ hfound).elim
    · exact steady_of_accounts hacc' rfl rfl
  | userdel =>
    rcases userdel_run hacc hr with ⟨-, hacc'⟩ | ⟨-, -, -, ip, -, -, hacc'⟩
    · exact steady_of_accounts hacc' rfl rfl
    · exact steady_of_accounts hacc' rfl rfl
  | chmod pathname mode =>
    cases pathname with
    | none =>
      cases hr
      exact steady_of_accounts hacc rfl rfl
    | some pathname =>
    cases mode with
    | none =>
      cases hr
      exact steady_of_accounts hacc rfl rfl
    | some mode =>
    obtain ⟨k₁, k2, hbegin, hname, hfail⟩ := namei_none_chmod hc hr
    have hopen : beginOp.Obeys (usage p) (current p k) fun _ g' => g' = inOp (current p k) :=
      obeys_call (o := Op.log LogOp.beginOp) trivial fun _ _ => rfl
    have hnamei := namei_usage (p := p) (g := inOp (current p k)) (Nat.lt_of_succ_lt hroom) hcwd pathname
    obtain ⟨_, rfl, hacc2⟩ := (hacc.run_eq hopen hbegin).run hnamei hname
    have hacc' := hacc2.run_eq (fail_usage (g := current p k) (obeys_pure rfl)) hfail
    exact steady_of_accounts hacc' rfl rfl

theorem addEntry_only (username password : CStr) : (addEntry username password).Uses UserOnly := by
  refine uses_bind_call trivial fun _ => uses_bind_call trivial fun (t : UTable) => ?_
  dsimp only
  generalize findName t.mem username = found, findFree t.mem = slot
  cases found with
  | some => exact uses_pure _
  | none =>
    cases slot with
    | none => exact uses_pure _
    | some =>
      refine .ite (uses_pure _) (uses_bind_call trivial fun _ => uses_bind_call trivial fun _ => ?_)
      refine uses_bind_call trivial fun _ => uses_bind_call trivial fun _ => ?_
      exact uses_bind_call trivial fun _ => uses_pure _

theorem delEntry_only (username : CStr) : (delEntry username).Uses UserOnly := by
  refine uses_bind_call trivial fun _ => uses_bind_call trivial fun (t : UTable) => ?_
  split
  · exact uses_bind_call trivial fun _ => uses_pure _
  · refine (uses_bind_call trivial fun _ => uses_call trivial).bind fun _ => ?_
    exact uses_bind_call trivial fun _ => uses_bind_call trivial fun _ => uses_pure _

theorem writeShadow_none (hptr : k.utable.ptr = none)
    (hr : (writeShadow p utemp bad good).run Op.sem k = .ok (r, k')) : False := by
  obtain ⟨_, k₁, hbegin, hr⟩ := of_bind hr
  obtain ⟨l, rfl⟩ := log_run hbegin
  rw [table_bind_run, hptr] at hr
  cases hr

theorem useradd_none (hptr : k.utable.ptr = none)
    (hr : (useradd p username password).run Op.sem k = .ok (r, k')) :
    ∃ t c, k' = { k with utable := t, copies := c } := by
  unfold useradd at hr
  rw [myproc_bind_run] at hr
  split at hr
  · cases hr
    exact ⟨_, _, rfl⟩
  obtain ⟨u, k₁, hadd, hr⟩ := of_bind hr
  rcases addEntry_run (current_accounts (p := p)) hadd with ⟨rfl, -, -⟩ | ⟨utemp, rfl, -, -, hacc⟩
  · cases hr
    exact userOnly_run (addEntry_only username password) hadd
  · exact (writeShadow_none (hacc.ptr.trans hptr) hr).elim

theorem userdel_none (hptr : k.utable.ptr = none)
    (hr : (userdel p username).run Op.sem k = .ok (r, k')) : ∃ t c, k' = { k with utable := t, copies := c } := by
  unfold userdel at hr
  rw [myproc_bind_run] at hr
  split at hr
  · cases hr
    exact ⟨_, _, rfl⟩
  split at hr
  · cases hr
    exact ⟨_, _, rfl⟩
  obtain ⟨u, k₁, hdel, hr⟩ := of_bind hr
  have hacc := (current_accounts (p := p)).run_eq (delEntry_usage username) hdel
  cases u with
  | none =>
    cases hr
    exact userOnly_run (delEntry_only username) hdel
  | some => exact (writeShadow_none (hacc.ptr.trans hptr) hr).elim

theorem call_coherent (hk : Ready p k) (hptr : k.utable.ptr = none) (hptr' : k'.utable.ptr = none)
    (hc : NoLeak k (p, c)) (hr : (c.body p).run Op.sem k = .ok (r, k')) : Coherent k' := by
  cases c with
  | inituser =>
    have hroom := ownRefs_room (k.pt.proc p).cwd
    have hcwd := ownRefs_cwd (k.pt.proc p).cwd
    cases inituser_run (fun _ => hk.holds) current_accounts hroom hcwd hr with
    | noDir hdir hview hname =>
      obtain ⟨_, -, hholds⟩ := Holds.run (hk.holds.of_view hview) (namex_obeys shadow true) hname
      exact hholds.toCoherent
    | created hdir hentry hfile hacc' =>
      rw [hacc'.ptr] at hptr'
      cases hptr'
    | lost hdir hentry hfile hacc' | read hdir hentry hfile hread hacc'
    | unread hdir hentry => exact ((hc.resolve_left (not_not.mpr hdir)).2 _ _ hentry).elim
  | useradd =>
    obtain ⟨t, c, rfl⟩ := useradd_none hptr hr
    exact hk.toCoherent.congr rfl rfl rfl
  | userdel =>
    obtain ⟨t, c, rfl⟩ := userdel_none hptr hr
    exact hk.toCoherent.congr rfl rfl rfl
  | chmod pathname mode =>
    cases pathname with
    | none =>
      cases hr
      exact hk.toCoherent
    | some pathname =>
    cases mode with
    | none =>
      cases hr
      exact hk.toCoherent
    | some mode =>
    obtain ⟨k₁, k2, hbegin, hname, hfail⟩ := namei_none_chmod hc hr
    obtain ⟨l, rfl⟩ := log_run hbegin
    obtain ⟨o, k3, hname, hmap⟩ := of_bind hname
    have hbegun : Holds p { k with log := l } ⟨0, fun _ => .free, (k.pt.proc p).cwd⟩ := hk.holds.of_view rfl
    obtain ⟨_, -, hholds⟩ := Holds.run hbegun (namex_obeys pathname false) hname
    obtain rfl : k3 = k2 := (Comp.pure_eq_ok.mp hmap).2
    obtain ⟨_, k4, hundo, hfail⟩ := of_bind hfail
    cases hundo
    obtain ⟨_, k5, hend, hfail⟩ := of_bind hfail
    cases hfail
    obtain ⟨l, rfl⟩ := endOp_run hend
    exact hholds.toCoherent.congr rfl rfl rfl

theorem steady_ready (h : Steady k k') (hptr : k.utable.ptr = none) (hptr' : k'.utable.ptr = none)
    (hcoh : Coherent k') (hk : Ready p k) : Ready p k' := by
  have href (i : InodeIdx) : (k'.icache i).ref = (k.icache i).ref := by
    have hi := h.refs i
    rw [hptr, hptr'] at hi
    omega
  refine ⟨hcoh, fun i => ?_, fun i hi => ?_⟩
  · rw [href]
    exact hk.refs i
  · rw [href]
    rw [h.pt] at hi
    exact hk.cwd i hi

theorem Steady.trans (h : Steady k₁ k2) (h' : Steady k2 k3) : Steady k₁ k3 where
  pt := h'.pt.trans h.pt
  refs i := by
    have hi := h.refs i
    have hi' := h'.refs i
    omega
  ptr i hi := h'.ptr i (h.ptr i hi)

theorem run_steady (hk : ∀ p, Ready p k0) (hr : Run CallStep k0 tr k) (hc : Meets NoLeak tr) :
    Steady k0 k ∧ (k.utable.ptr = none → ∀ p, Ready p k) := by
  refine hr.invariant (I := fun k => Steady k0 k ∧ (k.utable.ptr = none → ∀ p, Ready p k)) ?_
    ⟨⟨rfl, fun _ => rfl, fun _ => id⟩, fun _ => hk⟩ hc
  rintro k ⟨p, c⟩ k' ⟨hsteady, hready⟩ hc ⟨r, hr⟩
  have hstep := call_steady (fun hptr => hready hptr p) hc hr
  refine ⟨hsteady.trans hstep, fun hptr' q => ?_⟩
  have hptr : k.utable.ptr = none := by
    cases hptr : k.utable.ptr with
    | none => rfl
    | some i =>
      rw [hstep.ptr i hptr] at hptr'
      cases hptr'
  exact steady_ready hstep hptr hptr' (call_coherent (hready hptr p) hptr hptr' hc hr) (hready hptr q)

def freeEntries (k : Kernel) : Finset InodeIdx := Finset.univ.filter fun i => (k.icache i).ref = 0

theorem reach_iget (hk : ∀ p, Ready p k0) (hsteady : Steady k0 k)
    (hfree : 5 ≤ (freeEntries k0).card) (hr : (c.body p).Reach Op.sem k (.fs (.iget inum)) t) :
    ∃ i t', FsOp.iget.sem inum t = .ok (i, t') := by
  have hroom := ownRefs_room (k.pt.proc p).cwd
  have hcwd := ownRefs_cwd (k.pt.proc p).cwd
  have hbody : Accounted p (current p k) (c.body p) := body_accounted hroom hcwd c
  obtain ⟨g, hacc, hallow⟩ :=
    reach (P := usage p) (I := Accounts p k) Accounts.sound hbody current_accounts hr
  have hallow : g.refs.card < room := hallow
  -- the entries that were free and are not among what the call holds are free now
  have hcard : (g.refs.toFinset ∪ k.utable.ptr.toFinset).card < (freeEntries k0).card := by
    have hrefs : g.refs.toFinset.card ≤ 3 := (toFinset_card_le _).trans (Nat.le_of_lt_succ hallow)
    have hptr : k.utable.ptr.toFinset.card ≤ 1 := by cases k.utable.ptr <;> simp
    have hunion := Finset.card_union_le g.refs.toFinset k.utable.ptr.toFinset
    omega
  obtain ⟨i, hi, hnot⟩ := Finset.exists_mem_notMem_of_card_lt_card hcard
  have hzero : (k0.icache i).ref = 0 := (Finset.mem_filter.mp hi).2
  simp only [Finset.mem_union, mem_toFinset, Option.mem_toFinset, Option.mem_def, not_or] at hnot
  have hptr0 : k0.utable.ptr ≠ some i := fun hptr => hnot.2 (hsteady.ptr i hptr)
  have hcwd : (k.pt.proc p).cwd ≠ some i := fun hcwd => by
    rw [hsteady.pt] at hcwd
    exact absurd ((hk p).cwd i hcwd) (by omega)
  have href := hsteady.refs i
  have href' := hacc.refs i
  rw [if_neg hptr0, if_neg hnot.2] at href
  rw [if_neg hcwd, count_eq_zero_of_notMem hnot.1] at href'
  refine FsOp.iget_ok (j := i) ?_ inum
  push_cast at href'
  omega

/-- As long as no call finds what it keeps a reference to, the counts of the inode cache
change by the reference of `utable.ptr` alone, and no call can run out of entries. -/
theorem refs_steady {k₀ : Kernel} (hk : ∀ p, Ready p k₀) {tr : List (Kernel × Slot × UserCall)}
    (hr : Run CallStep k₀ tr k) (hc : Meets NoLeak tr) :
    SameRefs k₀ k ∧ (5 ≤ (freeEntries k₀).card → ∀ (p : Slot) (c : UserCall) (inum : ℕ) (t : Kernel),
      (c.body p).Reach Op.sem k (.fs (.iget inum)) t → ∃ i t', FsOp.iget.sem inum t = .ok (i, t')) := by
  obtain ⟨hsteady, -⟩ := run_steady hk hr hc
  exact ⟨hsteady.refs, fun hfree p c inum t hreach => reach_iget hk hsteady hfree hreach⟩

theorem dropBox_ready_all (p : Slot) : Ready p dropBox := { dropBox_ready with cwd := fun _ hi => by cases hi }

/-- A mode for a file that is not there: nothing stays behind. -/
theorem refs_steady_missing : ∃ k tr, Run CallStep dropBox tr k ∧ tr ≠ [] ∧ SameRefs dropBox k := by
  have hchmod : ((sysChmod 0 (some (CStr.ofString "/g")) (some MODE_RUSR)).run Op.sem).test dropBox
      (fun _ _ => true) = true := by decide +kernel
  have hfind : ((findNamed 0 (CStr.ofString "/g")).run Op.sem).test dropBox (fun o _ => o.isNone) = true := by
    decide +kernel
  obtain ⟨r, k, hrun, -⟩ := Comp.test_eq_true hchmod
  obtain ⟨o, k₁, hnone, ho⟩ := Comp.test_eq_true hfind
  have hstep : CallStep dropBox (0, .chmod (some (CStr.ofString "/g")) (some MODE_RUSR)) k := ⟨r, hrun⟩
  have hleak : NoLeak dropBox (0, .chmod (some (CStr.ofString "/g")) (some MODE_RUSR)) := by
    intro i k₂ hsome
    rw [hnone] at hsome
    cases hsome
    cases ho
  have htrace := Run.snoc Run.start hstep
  have hmeets := meets_snoc.mpr ⟨meets_nil NoLeak, hleak⟩
  exact ⟨k, _, htrace, by simp, (refs_steady dropBox_ready_all htrace hmeets).1⟩

/-- A guest who asks for another mode of the root directory is refused, and one more
reference to it is left. -/
theorem chmod_leaks : (∀ p, Ready p dropBox) ∧
    ∃ k', CallStep dropBox (0, .chmod (some rootDir) (some MODE_RUSR)) k' ∧ ¬ SameRefs dropBox k' := by
  refine ⟨dropBox_ready_all, ?_⟩
  have hchmod : ((sysChmod 0 (some rootDir) (some MODE_RUSR)).run Op.sem).test dropBox
      (fun _ k' => (k'.icache 0).ref = 1 ∧ k'.utable.ptr = none) = true := by decide +kernel
  obtain ⟨r, k', hrun, hk'⟩ := Comp.test_eq_true hchmod
  obtain ⟨href, hptr⟩ := of_decide_eq_true hk'
  refine ⟨k', ⟨r, hrun⟩, fun hsame => ?_⟩
  have hzero := hsame 0
  rw [href, hptr] at hzero
  exact absurd hzero (by decide)

end Leak
end Xv6.Users
