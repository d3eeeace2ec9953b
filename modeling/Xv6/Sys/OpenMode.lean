import Xv6.Sys.NewFile

/-! # What a descriptor from `sys_open` may be used for -/
namespace Xv6.Sys
open Prog Fs CStr Op
open KProg hiding panic

variable {p : Slot} {k k' : Kernel} {path : CStr} {omode : Word} {ip : InodeIdx}

def mayRead (userid : CStr) (d : Dinode) : Bool := mayAccess userid d MODE_RUSR MODE_ROTH
def mayWrite (userid : CStr) (d : Dinode) : Bool := mayAccess userid d MODE_WUSR MODE_WOTH

/-- The user may do with the inode what a file opened with `omode` is for. -/
def Permits (userid : CStr) (omode : Word) (d : Dinode) : Prop :=
  (omode &&& O_WRONLY = 0 → mayRead userid d) ∧
    (omode &&& O_WRONLY ≠ 0 ∨ omode &&& O_RDWR ≠ 0 → mayWrite userid d)

def argfd (k : Kernel) (p : Slot) (fd : ℤ) : Option File :=
  if h : 0 ≤ fd ∧ fd.toNat < NOFILE then ((k.pt.proc p).ofile ⟨fd.toNat, h.2⟩).map k.ftable else none

/-- The descriptor is for an inode that the user may read if the file is readable, and
write if it is writable. -/
def OpenPermitted (k : Kernel) (p : Slot) (userid : CStr) (fd : ℤ) : Prop :=
  ∃ f i, argfd k p fd = some f ∧ f.ip = some i ∧
    (f.readable → mayRead userid (k.icache i).d) ∧ (f.writable → mayWrite userid (k.icache i).d)

/-- The inode of a directory entry that `create` has found, with the directory locked. -/
def entryInode (p : Slot) (dp : InodeIdx) : Option (InodeIdx × ℕ) → KProg (Option Dinode)
  | none => return none
  | some (ip, _) => do
    iunlockput p dp
    ilock p ip
    return some (← inode ip).d

/-- What `create` finds under a path, as it looks it up. -/
def existing (p : Slot) (path : CStr) : KProg (Option Dinode) := do
  match ← nameiparent p path with
  | none => return none
  | some (dp, name) =>
    ilock p dp
    entryInode p dp (← dirlookup p dp name)

def target (p : Slot) (path : CStr) : KProg (Option Dinode) := do
  match ← namei p path with
  | none => return none
  | some ip =>
    ilock p ip
    return some (← inode ip).d

/-- The inode that `sys_open` finds under the path, if there is one. -/
def named (p : Slot) (path : CStr) (omode : Word) : KProg (Option Dinode) := do
  beginOp
  if omode &&& O_CREATE ≠ 0 then existing p path else target p path

/-- The modes for which the permission tests of `sys_open` and of `create` cover what the
file is open for. -/
def Tested (omode : Word) : Prop :=
  if omode &&& O_CREATE ≠ 0 then omode &&& O_WRONLY ≠ 0
  else omode = O_RDONLY ∨ omode = O_WRONLY ∨ omode = O_RDWR

/-- What a call starts from: the cache is coherent and counts the directory of the process. -/
structure Ready (p : Slot) (k : Kernel) : Prop extends Coherent k where
  refs : ∀ i, 0 ≤ (k.icache i).ref
  cwd : ∀ i, (k.pt.proc p).cwd = some i → 0 < (k.icache i).ref

theorem Ready.holds (h : Ready p k) : Holds p k ⟨0, fun _ => .free, (k.pt.proc p).cwd⟩ where
  toCoherent := h.toCoherent
  cwd := rfl
  refs i := by
    rw [Multiset.count_zero]
    split
    case isTrue hi => exact h.cwd i hi
    case isFalse => exact h.refs i
  locked _ hi := (hi rfl).elim
  valid _ hi := hi.elim
  pinned _ _ hi := by cases hi

theorem argfd_val (k : Kernel) (p : Slot) (fd : Fin NOFILE) :
    argfd k p (fd.val : ℤ) = ((k.pt.proc p).ofile fd).map k.ftable := by
  simp [argfd]

variable {fd : ℤ} {b : Bool} {d : Dinode} {i : InodeIdx} {g : Held}

theorem openFile_eq_ok (h : (openFile p ip omode).run sem k = .ok (fd, k')) (hfd : 0 ≤ fd) :
    ∃ f : File, argfd k' p fd = some f ∧ f.ip = some ip ∧ f.readable = decide (omode &&& O_WRONLY = 0) ∧
      f.writable = decide (omode &&& O_WRONLY ≠ 0 ∨ omode &&& O_RDWR ≠ 0) ∧
      (k'.icache ip).d = (k.icache ip).d := by
  obtain ⟨f, k1, hfile, h⟩ := of_bind h
  cases f with
  | none => exact absurd hfd (by rw [fail_run h]; decide)
  | some f =>
    obtain ⟨fd', k2, hdesc, h⟩ := of_bind h
    cases fd' with
    | none => exact absurd hfd (by rw [fail_run h]; decide)
    | some =>
      obtain ⟨_, k3, hunlock, h⟩ := of_bind h
      obtain ⟨_, k4, hend, h⟩ := of_bind h
      cases h
      rw [filealloc_run] at hfile
      rw [fdalloc_run] at hdesc
      rw [iunlock_run] at hunlock
      rcases FileOp.filealloc_eq_ok hfile with ⟨hnone, -⟩ | ⟨f', hf, -, rfl⟩
      · cases hnone
      cases hf
      rcases FileOp.fdalloc_eq_ok hdesc with ⟨hnone, -⟩ | ⟨fd'', hf, rfl⟩
      · cases hnone
      cases hf
      obtain ⟨-, -, rfl⟩ := FsOp.iunlock_eq_ok hunlock
      obtain ⟨l, rfl⟩ := endOp_run hend
      let opened : File :=
        { k.ftable f with
          type := .inode, ref := 1, ip := some ip, off := 0
          readable := decide (omode &&& O_WRONLY = 0)
          writable := decide (omode &&& O_WRONLY ≠ 0 ∨ omode &&& O_RDWR ≠ 0) }
      refine ⟨opened, ?_, rfl, rfl, rfl, ?_⟩
      · rw [argfd_val]
        simp [opened]
      · simp

theorem openFile_permitted (h : (openFile p ip omode).run sem k = .ok (fd, k')) (hfd : 0 ≤ fd)
    (userid : CStr) : OpenPermitted k' p userid fd ↔ Permits userid omode (k.icache ip).d := by
  obtain ⟨f, hf, hip, hreadable, hwritable, hd⟩ := openFile_eq_ok h hfd
  constructor
  · rintro ⟨f', i, hf', hi, hread, hwrite⟩
    obtain rfl : f' = f := Option.some.inj (hf'.symm.trans hf)
    obtain rfl : i = ip := Option.some.inj (hi.symm.trans hip)
    rw [hd, hreadable, decide_eq_true_eq] at hread
    rw [hd, hwritable, decide_eq_true_eq] at hwrite
    exact ⟨hread, hwrite⟩
  · rintro ⟨hread, hwrite⟩
    refine ⟨f, ip, hf, hip, ?_, ?_⟩
    · rw [hd, hreadable, decide_eq_true_eq]
      exact hread
    · rw [hd, hwritable, decide_eq_true_eq]
      exact hwrite

theorem access_eq_ok (h : (access site p ip usr oth).run sem k = .ok (b, k')) :
    b = mayAccess (k.pt.proc p).userid (k.icache ip).d usr oth ∧ k' = k := by
  cases h
  exact ⟨rfl, rfl⟩

theorem and_eq_of_or {m a b : Word} (h : m &&& (a ||| b) = a ||| b) : m &&& a = a ∧ m &&& b = b := by
  constructor
  · calc m &&& a = (m &&& (a ||| b)) &&& a := by ext i; simp; grind
      _ = a := by rw [h]; ext i; simp; grind
  · calc m &&& b = (m &&& (a ||| b)) &&& b := by ext i; simp; grind
      _ = b := by rw [h]; ext i; simp; grind

theorem mayAccess_or {userid : CStr} (h : mayAccess userid d (u ||| u') (o ||| o') = true) :
    mayAccess userid d u o = true ∧ mayAccess userid d u' o' = true := by
  unfold mayAccess at h ⊢
  split at h
  case isTrue hown =>
    rw [if_pos hown, if_pos hown, decide_eq_true_eq, decide_eq_true_eq]
    exact and_eq_of_or (of_decide_eq_true h)
  case isFalse hown =>
    rw [if_neg hown, if_neg hown, decide_eq_true_eq, decide_eq_true_eq]
    exact and_eq_of_or (of_decide_eq_true h)

theorem openAccess_permits (hmode : omode = O_RDONLY ∨ omode = O_WRONLY ∨ omode = O_RDWR)
    (h : (openAccess p ip omode).run sem k = .ok (true, k')) :
    Permits (k.pt.proc p).userid omode (k.icache ip).d := by
  unfold openAccess at h
  rcases hmode with rfl | rfl | rfl
  · rw [if_pos rfl] at h
    have hread := (access_eq_ok h).1.symm
    exact ⟨fun _ => hread, fun hw => absurd hw (by decide)⟩
  · rw [if_neg (by decide), if_pos rfl] at h
    have hwrite := (access_eq_ok h).1.symm
    exact ⟨fun hr => absurd hr (by decide), fun _ => hwrite⟩
  · rw [if_neg (by decide), if_neg (by decide), if_pos rfl] at h
    have hboth := mayAccess_or (access_eq_ok h).1.symm
    exact ⟨fun _ => hboth.2, fun _ => hboth.1⟩

theorem openAccess_eq (h : (openAccess p ip omode).run sem k = .ok (b, k')) : k' = k := by
  unfold openAccess at h
  split at h
  · exact (access_eq_ok h).2
  split at h
  · exact (access_eq_ok h).2
  split at h
  · exact (access_eq_ok h).2
  · cases h
    rfl

/-- Without `O_CREATE`: the inode is the one that the path names, and a plain mode is tested. -/
theorem openExisting_run (h : (openExisting p path omode).run sem k = .ok (some ip, k')) :
    (∃ k1, (target p path).run sem k = .ok (some (k'.icache ip).d, k1)) ∧
      (omode = O_RDONLY ∨ omode = O_WRONLY ∨ omode = O_RDWR →
        Permits (k.pt.proc p).userid omode (k'.icache ip).d) := by
  obtain ⟨r, k1, hname, h⟩ := of_bind h
  cases r with
  | none => cases h
  | some =>
    obtain ⟨_, k2, hlock, h⟩ := of_bind h
    obtain ⟨ok, k3, haccess, h⟩ := of_bind h
    have hk3 := openAccess_eq haccess
    subst hk3
    cases ok with
    | false =>
      obtain ⟨_, k4, -, h⟩ := of_bind h
      cases h
    | true =>
      rw [if_neg (by simp)] at h
      rw [inode_bind_run] at h
      split at h
      · obtain ⟨_, k5, -, h⟩ := of_bind h
        cases h
      · cases h
        have hpt : k'.pt = k.pt := (core_pt (ilock_core p ip) hlock).trans (core_pt (namei_core p path) hname)
        refine ⟨⟨k', ?_⟩, fun hmode => ?_⟩
        · refine bind_ok hname ((run_bind_eq_ok sem).mpr ?_)
          exact ⟨(), k', hlock, rfl⟩
        · rw [← hpt]
          exact openAccess_permits hmode haccess

theorem createDenied_run (h : (createDenied p i).run sem k = .ok (r, k')) : r = none := by
  obtain ⟨_, k1, -, h⟩ := of_bind h
  obtain ⟨_, k2, -, h⟩ := of_bind h
  cases h
  rfl

theorem createExisting_run (h : (createExisting p i .file).run sem k = .ok (some ip, k')) :
    i = ip ∧ (ilock p ip).run sem k = .ok ((), k') ∧ mayWrite (k.pt.proc p).userid (k'.icache ip).d := by
  obtain ⟨_, k1, hlock, h⟩ := of_bind h
  rw [access_bind_run] at h
  split at h
  case isTrue => cases createDenied_run h
  case isFalse hok =>
    rw [inode_bind_run] at h
    split at h
    · cases h
      rw [core_pt (ilock_core p ip) hlock] at hok
      exact ⟨rfl, hlock, by simpa [mayWrite] using hok⟩
    · obtain ⟨_, k2, -, h⟩ := of_bind h
      cases h

theorem createNew_run (hk : Holds p k (locked g dp))
    (hdp : g.locks dp = .free) (h : (createNew p dp name .file 0 0).run sem k = .ok (ip, k')) :
    Holds p k' (pin g ip (owned .file 0 0 (k.pt.proc p).userid)) := by
  unfold createNew at h
  rw [myproc_bind_run] at h
  obtain ⟨i, k1, hnew, h⟩ := of_bind h
  obtain ⟨_, k2, hdots, h⟩ := of_bind h
  cases hdots
  rw [inode_bind_run] at h
  obtain ⟨r, k3, hlink, h⟩ := of_bind h
  split at h
  · cases h
  obtain ⟨_, k4, hput, h⟩ := of_bind h
  cases h
  obtain ⟨hfree, hholds, hd⟩ := newInode_run (by simp) hk hnew
  have hpin := link_run hholds hdp hfree hlink hput
  rw [hd] at hpin
  exact hpin

/-- With `O_CREATE`: either the name exists and its inode may be written, or the inode is new. -/
theorem create_run (hk : Holds p k g) (h : (create p path .file 0 0).run sem k = .ok (some ip, k')) :
    (∃ k1, (existing p path).run sem k = .ok (some (k'.icache ip).d, k1)) ∧
        mayWrite (k.pt.proc p).userid (k'.icache ip).d ∨
      (∃ k1, (existing p path).run sem k = .ok (none, k1)) ∧
        (k'.icache ip).d = owned .file 0 0 (k.pt.proc p).userid := by
  obtain ⟨r, k1, hname, h⟩ := of_bind h
  have hpt1 := core_pt (namex_core p path true) hname
  cases r with
  | none => cases h
  | some r =>
    obtain ⟨dp, name⟩ := r
    obtain ⟨_, k2, hlock, h⟩ := of_bind h
    obtain ⟨r, k3, hlookup, h⟩ := of_bind h
    have hpt3 : k3.pt = k.pt :=
      (core_pt (dirlookup_core p dp name) hlookup).trans ((core_pt (ilock_core p dp) hlock).trans hpt1)
    have hquery {r' : Option Dinode} {k4 : Kernel}
        (hrest : (entryInode p dp r).run sem k3 = .ok (r', k4)) :
        (existing p path).run sem k = .ok (r', k4) := by
      refine bind_ok hname ?_
      refine bind_ok hlock ?_
      exact bind_ok hlookup hrest
    cases r with
    | some r =>
      obtain ⟨i, off⟩ := r
      obtain ⟨_, k4, hput, h⟩ := of_bind h
      obtain ⟨rfl, hlocki, hwrite⟩ := createExisting_run h
      rw [core_pt (iunlockput_core p dp) hput, hpt3] at hwrite
      refine .inl ⟨⟨k', hquery ?_⟩, hwrite⟩
      refine bind_ok hput ?_
      exact bind_ok hlocki rfl
    | none =>
      rw [access_bind_run] at h
      split at h
      · cases createDenied_run h
      obtain ⟨i, k5, hnew, h⟩ := of_bind h
      cases h
      obtain ⟨g1, rfl, h1⟩ := Holds.run hk (namex_obeys path true) hname
      rw [ilock_run] at hlock
      obtain ⟨hfree, h2⟩ := h1.ilock (Multiset.mem_cons_self dp _) hlock
      obtain ⟨g3, rfl, h3⟩ := Holds.run h2 (dirlookup_obeys locked_owns name) hlookup
      have hpin := (createNew_run h3 hfree hnew).pinned ip _ (setLock_locks _)
      rw [hpt3] at hpin
      exact .inr ⟨⟨k3, hquery rfl⟩, hpin⟩

theorem owned_permits (userid : CStr) (omode : Word) : Permits userid omode (owned .file 0 0 userid) := by
  have hread : (fresh .file).mode &&& MODE_RUSR = MODE_RUSR := by decide
  have hwrite : (fresh .file).mode &&& MODE_WUSR = MODE_WUSR := by decide
  constructor
  · simp [mayRead, mayAccess, owned, hread]
  · simp [mayWrite, mayAccess, owned, hwrite]

theorem named_run {k0 k1 : Kernel} {r : Option Dinode} {u : Unit} (hbegin : beginOp.run sem k = .ok (u, k0))
    (h : (if omode &&& O_CREATE ≠ 0 then existing p path else target p path).run sem k0 = .ok (r, k1)) :
    (named p path omode).run sem k = .ok (r, k1) := bind_ok hbegin h

theorem permits_iff {k1 : Kernel} {userid : CStr}
    (h : (named p path omode).run sem k = .ok (some d, k1)) (htest : Tested omode → Permits userid omode d) :
    Permits userid omode d ↔ Tested omode ∨ ∀ d' k1', (named p path omode).run sem k = .ok (some d', k1') →
      Permits userid omode d' := by
  constructor
  · intro hpermits
    refine .inr fun d' k1' h' => ?_
    cases h.symm.trans h'
    exact hpermits
  · rintro (htested | hall)
    · exact htest htested
    · exact hall d k1 h

/-- A descriptor that `sys_open` returns is open for what the caller may do with the inode
exactly if the tests cover the mode, or the caller may do it with the inode that it finds. -/
theorem open_permitted_iff {fd : ℤ} (hk : Ready p k)
    (h : (sysOpen p (some path) (some omode)).run Op.sem k = .ok (fd, k')) (hfd : 0 ≤ fd) :
    OpenPermitted k' p (k.pt.proc p).userid fd ↔
      Tested omode ∨ ∀ d k₁, (named p path omode).run Op.sem k = .ok (some d, k₁) →
        Permits (k.pt.proc p).userid omode d := by
  obtain ⟨_, k₀, hbegin, h⟩ := of_bind h
  obtain ⟨r, k₂, hfind, h⟩ := of_bind h
  cases r with
  | none => exact absurd hfd (by rw [fail_run h]; decide)
  | some ip =>
    rw [openFile_permitted h hfd]
    obtain ⟨l, hl⟩ := log_run hbegin
    have hpt : k₀.pt = k.pt := by rw [hl]
    have hlookup {r : Option Dinode} {k₁ : Kernel} := @named_run p k path omode k₀ k₁ r () hbegin
    by_cases hcreate : omode &&& O_CREATE ≠ 0
    · rw [if_pos hcreate] at hfind
      simp only [if_pos hcreate] at hlookup
      have hholds : Holds p k₀ ⟨0, fun _ => .free, (k.pt.proc p).cwd⟩ :=
        hk.holds.congr (by rw [hl]) (by rw [hl]) (by rw [hl]) (by rw [hpt])
      have hcases := create_run hholds hfind
      rw [hpt] at hcases
      rcases hcases with ⟨⟨k₁, hsome⟩, hwrite⟩ | ⟨⟨k₁, hnone⟩, hnew⟩
      · refine permits_iff (hlookup hsome) fun htested => ?_
        rw [Tested, if_pos hcreate] at htested
        exact ⟨fun hzero => absurd hzero htested, fun _ => hwrite⟩
      · rw [hnew]
        refine iff_of_true (owned_permits _ _) (Or.inr fun d k₁' hd => ?_)
        cases (hlookup hnone).symm.trans hd
    · rw [if_neg hcreate] at hfind
      simp only [if_neg hcreate] at hlookup
      obtain ⟨⟨k₁, hsome⟩, htest⟩ := openExisting_run hfind
      rw [hpt] at htest
      refine permits_iff (hlookup hsome) fun htested => ?_
      rw [Tested, if_neg hcreate] at htested
      exact htest htested

/-- A guest in front of a root directory that others may search, with one file that they
may only write. -/
def dropBox : Kernel :=
  { Kernel.zero with
    pt := ⟨fun _ => { userid := CStr.ofString "guest" }, 2, none⟩
    dinode := fun inum =>
      if inum = ROOTINO then
        { type := .dir, nlink := 1, size := 16, addrs := fun _ => 5, userid := root, mode := MODE_XOTH ||| MODE_ROTH }
      else { type := .file, nlink := 1, userid := root, mode := MODE_WOTH }
    block := fun _ a => (direntBytes 2 [102]).getD a 0 }

theorem dropBox_ready : Ready 0 dropBox where
  unique _ _ hi := absurd hi (lt_irrefl 0)
  disk _ hi := absurd hi (lt_irrefl 0)
  mem _ hi := absurd hi (lt_irrefl 0)
  boot := rfl
  refs _ := le_refl 0
  cwd _ hi := by cases hi

/-- The guest reads the root directory. -/
theorem open_permitted_root : ∃ fd k',
    (sysOpen 0 (some (CStr.ofString "/")) (some O_RDONLY)).run Op.sem dropBox = .ok (fd, k') ∧ 0 ≤ fd ∧
      OpenPermitted k' 0 (CStr.ofString "guest") fd := by
  have hopen : ((sysOpen 0 (some (ofString "/")) (some O_RDONLY)).run sem).test dropBox
      (fun fd _ => 0 ≤ fd) = true := by decide +kernel
  obtain ⟨fd, k', h, hfd⟩ := Comp.test_eq_true hopen
  have hfd := of_decide_eq_true hfd
  exact ⟨fd, k', h, hfd, (open_permitted_iff dropBox_ready h hfd).mpr (Or.inl (Or.inl rfl))⟩

/-- With `O_CREATE` alone the guest gets a file to read that they may only write. -/
theorem open_create_reads_dropBox : ∃ fd k',
    (sysOpen 0 (some (CStr.ofString "/f")) (some O_CREATE)).run Op.sem dropBox = .ok (fd, k') ∧ 0 ≤ fd ∧
      ¬ OpenPermitted k' 0 (CStr.ofString "guest") fd := by
  have hopen : ((sysOpen 0 (some (ofString "/f")) (some O_CREATE)).run sem).test dropBox
      (fun fd k' => 0 ≤ fd ∧ (argfd k' 0 fd).any fun f => f.readable &&
        f.ip.any fun i => !mayRead (ofString "guest") (k'.icache i).d) = true := by decide +kernel
  obtain ⟨fd, k', h, hfd⟩ := Comp.test_eq_true hopen
  obtain ⟨hfd, hany⟩ := of_decide_eq_true hfd
  refine ⟨fd, k', h, hfd, ?_⟩
  rintro ⟨f, i, hf, hi, hread, -⟩
  simp only [hf, hi, Option.any_some, Bool.and_eq_true, Bool.not_eq_true'] at hany
  have hallowed := hread hany.1
  rw [hany.2] at hallowed
  cases hallowed

end Xv6.Sys
