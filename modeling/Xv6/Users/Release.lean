import Xv6.Users.Loading

/-! # What the account calls give back -/
namespace Xv6.Users
open Prog Usage Sys
open Fs hiding setLock_setLock setLock_eq setLock_locks locked
open KProg hiding panic

/-- The account calls with their arguments; a path or a mode that cannot be fetched is `none`. -/
inductive UserCall
  | inituser
  | useradd (username password : CStr)
  | userdel (username : CStr)
  | chmod (pathname : Option CStr) (mode : Option Word)

def UserCall.body (p : Slot) : UserCall → KProg ℤ
  | inituser => Users.inituser p
  | useradd username password => Users.useradd p username password
  | userdel username => Users.userdel p username
  | chmod pathname mode => sysChmod p pathname mode

def ownRefs (cwd : Option InodeIdx) : Multiset InodeIdx := cwd.elim 0 ({·})

def atRest (cwd ptr : Option InodeIdx) : Usage := ⟨false, fun _ => false, 0, ownRefs cwd, cwd, ptr⟩

/-- The caller holds no lock, and nobody holds `utable.lock`. -/
structure AtRest (p : Slot) (k : Kernel) : Prop extends Ready p k where
  table : k.utable.locked = false
  locks : ∀ i, (k.icache i).lock ≠ some p

/-- Since `k` the process has given back `utable.lock` and all inode locks, and has ended
as many transactions as it has begun. -/
def Released (p : Slot) (k k' : Kernel) : Prop :=
  k'.utable.locked = false ∧ (∀ i, (k'.icache i).lock ≠ some p) ∧ k'.log.outstanding = k.log.outstanding

def Clean (p : Slot) (k : Kernel) : UserCall → Prop
  | .inituser => RootSearchable p k ∧ ∀ ip k₁, (shadowFile p).run Op.sem k = .ok (some ip, k₁) →
      ¬ ReadFails k₁ (seen k₁ ip)
  | .useradd username password => (k.pt.proc p).userid ≠ root ∨ Addable k.utable.mem username password
  | .userdel username => (k.pt.proc p).userid ≠ root ∨ username = root ∨
      findName k.utable.mem username = none ∨ ∃ ip, k.utable.ptr = some ip ∧ ¬ NoDriver (seen k ip)
  | .chmod _ _ => True

section Released
variable {p : Slot} {k k' : Kernel} {g : Usage}

theorem ownRefs_count (cwd : Option InodeIdx) (i : InodeIdx) :
    ((ownRefs cwd).count i : ℤ) = if cwd = some i then 1 else 0 := by
  cases cwd with
  | none => simp [ownRefs]
  | some j =>
    rw [ownRefs, Option.elim_some, Multiset.count_singleton]
    simp only [Option.some.injEq, eq_comm (a := j)]
    split <;> rfl

theorem ownRefs_room (cwd : Option InodeIdx) : (ownRefs cwd).card + 2 < room := by
  cases cwd <;> simp [ownRefs, room]

theorem ownRefs_cwd (cwd : Option InodeIdx) (i : InodeIdx) (h : cwd = some i) : i ∈ ownRefs cwd := by
  subst h
  exact Multiset.mem_singleton_self i

theorem AtRest.accounts (h : AtRest p k) : Accounts p k k (atRest (k.pt.proc p).cwd k.utable.ptr) where
  table := h.table
  locks i := iff_of_false (h.locks i) Bool.false_ne_true
  depth := (Int.add_zero _).symm
  refs i := by
    rw [atRest, ownRefs_count]
  ptr := rfl
  pt := rfl
  cwd := rfl

theorem released_iff (h : Accounts p k k' g) :
    Released p k k' ↔ g.table = false ∧ (∀ i, g.locks i = false) ∧ g.depth = 0 := by
  have hdepth := h.depth
  unfold Released
  rw [h.table]
  refine and_congr_right fun _ => and_congr (forall_congr' fun i => ?_) (by omega)
  rw [Ne, h.locks i, Bool.not_eq_true]

/-- Each account call ends with its locks released and its transaction ended exactly if it
takes none of the early returns that keep them. -/
theorem released_iff_clean {c : UserCall} {r : ℤ} (hk : AtRest p k)
    (hr : (c.body p).run Op.sem k = .ok (r, k')) : Released p k k' ↔ Clean p k c := by
  have hacc := hk.accounts
  have hroom := ownRefs_room (k.pt.proc p).cwd
  have hcwd := ownRefs_cwd (k.pt.proc p).cwd
  cases c with
  | inituser =>
    cases inituser_run (fun _ => hk.holds) hacc hroom hcwd hr with
    | noDir hdir hview hname hacc' =>
      rw [released_iff hacc']
      exact iff_of_false (fun hrel => absurd hrel.2.2 (by simp [inOp, atRest])) fun hclean => hdir hclean.1
    | created hdir hentry hfile hacc' =>
      rw [released_iff hacc']
      refine iff_of_true ⟨rfl, fun _ => rfl, rfl⟩ ⟨hdir, fun ip k₁ hrun => ?_⟩
      rw [hfile] at hrun
      cases hrun
    | lost hdir hentry hfile hacc' =>
      rw [released_iff hacc']
      refine iff_of_true ⟨rfl, fun _ => rfl, rfl⟩ ⟨hdir, fun ip k₁ hrun => ?_⟩
      rw [hfile] at hrun
      cases hrun
    | read hdir hentry hfile hread hacc' =>
      rw [released_iff hacc']
      refine iff_of_true ⟨rfl, fun _ => rfl, rfl⟩ ⟨hdir, fun ip k₁ hrun => ?_⟩
      rw [hfile] at hrun
      cases hrun
      exact hread
    | @unread hdir e ip k₁ k₂ hentry hfile hread hacc' =>
      rw [released_iff hacc']
      refine iff_of_false (fun hrel => ?_) fun hclean => hclean.2 ip k₂ hfile hread
      have hlock := hrel.2.1 ip
      rw [Usage.setLock_locks] at hlock
      cases hlock
  | useradd username password =>
    rcases useradd_run hacc hroom hr with ⟨hclean, hacc' | ⟨-, i, j, hacc'⟩⟩ | ⟨huser, hno, hacc'⟩
    · rw [released_iff hacc']
      exact iff_of_true ⟨rfl, fun _ => rfl, rfl⟩ hclean
    · rw [released_iff hacc']
      exact iff_of_true ⟨rfl, fun _ => rfl, rfl⟩ hclean
    · rw [released_iff hacc']
      refine iff_of_false (fun hrel => absurd hrel.1 (by simp)) ?_
      rintro (hne | hadd)
      · exact hne huser
      · exact hno hadd
  | userdel username =>
    rcases userdel_run hacc hr with ⟨hclean, hacc'⟩ | ⟨huser, hroot, hfound, ip, hptr, hno, hacc'⟩
    · rw [released_iff hacc']
      exact iff_of_true ⟨rfl, fun _ => rfl, rfl⟩ hclean
    · rw [released_iff hacc']
      refine iff_of_false (fun hrel => ?_) ?_
      · have hlock := hrel.2.1 ip
        rw [Usage.setLock_locks] at hlock
        cases hlock
      · rintro (hne | heq | hnone | ⟨ip', hptr', hyes⟩)
        · exact hne huser
        · exact hroot heq
        · exact hfound hnone
        · rw [hptr] at hptr'
          cases hptr'
          exact hyes hno
  | chmod pathname mode =>
    have hchmod := sysChmod_usage (p := p) (g := atRest (k.pt.proc p).cwd k.utable.ptr) (Nat.lt_of_succ_lt hroom) hcwd
      pathname mode
    obtain ⟨_, ⟨o, rfl⟩, hacc'⟩ := hacc.run hchmod hr
    rw [released_iff hacc']
    refine iff_of_true ?_ trivial
    cases o <;> exact ⟨rfl, fun _ => rfl, rfl⟩

/-- The guest may not change the mode of the root directory, and is left with nothing. -/
theorem released_chmod_root : ∃ r k',
    (sysChmod 0 (some rootDir) (some MODE_RUSR)).run Op.sem dropBox = .ok (r, k') ∧ Released 0 dropBox k' := by
  have hrest : AtRest 0 dropBox := ⟨dropBox_ready, rfl, fun _ hi => by cases hi⟩
  have hchmod : ((sysChmod 0 (some rootDir) (some MODE_RUSR)).run Op.sem).test dropBox
      (fun _ _ => true) = true := by decide +kernel
  obtain ⟨r, k', h, -⟩ := Comp.test_eq_true hchmod
  exact ⟨r, k', h, (released_iff_clean (c := .chmod (some rootDir) (some MODE_RUSR)) hrest h).mpr trivial⟩

def rootOnly : Kernel :=
  { Kernel.zero with
    pt := ⟨fun _ => { userid := root }, 2, none⟩
    utable := { mem := Mem.strcpy (fun _ => 0) (nameAddr 0) root } }

/-- Adding a user who is there already leaves `utable.lock` taken. -/
theorem useradd_keeps_lock : AtRest 0 rootOnly ∧ ∃ r k',
    (useradd 0 root rootPassword).run Op.sem rootOnly = .ok (r, k') ∧ ¬ Released 0 rootOnly k' := by
  refine ⟨⟨⟨⟨?_, ?_, ?_, rfl⟩, fun _ => le_refl 0, ?_⟩, rfl, ?_⟩, ?_⟩
  · exact fun _ _ hi => absurd hi (lt_irrefl 0)
  · exact fun _ hi => absurd hi (lt_irrefl 0)
  · exact fun _ hi => absurd hi (lt_irrefl 0)
  · exact fun _ hi => by cases hi
  · exact fun _ hi => by cases hi
  have hadd : ((useradd 0 root rootPassword).run Op.sem).test rootOnly (fun _ k' => k'.utable.locked) = true := by
    decide +kernel
  obtain ⟨r, k', h, hlocked⟩ := Comp.test_eq_true hadd
  refine ⟨r, k', h, fun hrel => ?_⟩
  rw [hrel.1] at hlocked
  cases hlocked

end Released
end Xv6.Users
