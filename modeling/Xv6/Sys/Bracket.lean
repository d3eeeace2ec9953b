import Xv6.Lib.Count
import Xv6.Lib.Pool
import Xv6.Proc.Exec

/-! # The transaction bracket

Every call that uses the file system opens a bracket with `begin_op` and closes it with
`end_op`; the log counts the open brackets in `log.outstanding`. The permission tests in
`create` are the exception: where one of them fails, `create` closes the bracket and so
does its caller.
-/
namespace Xv6.Sys
open Fs Prog Uses Obeys
open KProg hiding panic

/-- The calls that open a bracket, with their arguments. -/
inductive FsCall
  | open (path : Option CStr) (omode : Option Word)
  | mkdir (path : Option CStr)
  | mknod (path : Option CStr) (major minor : Option Word)
  | link (old new : Option CStr)
  | unlink (path : Option CStr)
  | chdir (path : Option CStr)
  | exec (path : CStr) (argv : List CStr)
  | exec2 (path : CStr) (argv : List CStr) (stacksize : Word)

def FsCall.body (p : Slot) : FsCall → KProg ℤ
  | .open path omode => sysOpen p path omode
  | .mkdir path => sysMkdir p path
  | .mknod path major minor => sysMknod p path major minor
  | .link old new => sysLink p old new
  | .unlink path => sysUnlink p path
  | .chdir path => sysChdir p path
  | .exec path argv => Sys.exec p path argv
  | .exec2 path argv stacksize => Sys.exec2 p path argv stacksize

def isBegin : Op → Bool
  | .log .beginOp => true
  | _ => false

def isEnd : Op → Bool
  | .log .endOp => true
  | _ => false

/-- A permission test of `create` that fails. -/
def isDenial : (o : Op) → o.Ans → Bool
  | .fs (.access .create _ _ _ _), ok => !ok
  | _, _ => false

/-- The operations that have nothing to do with brackets and open files. -/
def Quiet : Op → Prop
  | .log .beginOp => False
  | .log .endOp => False
  | .file _ => False
  | .fs (.access .create _ _ _ _) => False
  | _ => True

theorem Quiet.of_inner (h : Inner o) : Quiet o := by
  cases o with
  | fs o =>
    cases o with
    | access site =>
      cases site with
      | create => exact h.elim
      | _ => trivial
    | _ => trivial
  | panic msg | proc o => trivial
  | _ => exact h.elim

/-! ## The helpers that keep out of brackets -/
section Quiet
variable {α : Type} {x : KProg α}

theorem quiet_of_inner (h : x.Uses Inner) : x.Uses Quiet := h.mono fun _ => Quiet.of_inner

theorem quiet_of_core (h : x.Uses Op.Core) : x.Uses Quiet := quiet_of_inner (inner_of_core h)

theorem fs_quiet (h : Quiet (.fs o)) : (fs o).Uses Quiet := uses_call h

theorem fs_bind_quiet {f : o.Ans → KProg α} (h : Quiet (.fs o))
    (hf : ∀ b, (f b).Uses Quiet) : (fs o >>= f).Uses Quiet := uses_bind_call h hf

theorem iunlockput_quiet (p : Slot) (i : InodeIdx) : (iunlockput p i).Uses Quiet :=
  quiet_of_core (iunlockput_core p i)

theorem putInode_quiet (p : Slot) (i : Option InodeIdx) : (putInode p i).Uses Quiet := by
  cases i with
  | some i => exact quiet_of_core (iput_core p i)
  | none => exact panic_uses trivial

theorem namei_quiet (p : Slot) (path : CStr) : (namei p path).Uses Quiet :=
  quiet_of_core (namei_core p path)

theorem nameiparent_quiet (p : Slot) (path : CStr) : (nameiparent p path).Uses Quiet :=
  quiet_of_core (namex_core p path true)

theorem openAccess_quiet (p : Slot) (ip : InodeIdx) (omode : Word) : (openAccess p ip omode).Uses Quiet := by
  refine ite (fs_quiet trivial) (ite (fs_quiet trivial) ?_)
  exact ite (fs_quiet trivial) (uses_pure _)

theorem openExisting_quiet (p : Slot) (path : CStr) (omode : Word) :
    (openExisting p path omode).Uses Quiet := by
  refine bind (namei_quiet p path) fun r => ?_
  cases r with
  | none => exact uses_pure _
  | some ip =>
    have put : (iunlockput p ip >>= fun _ => pure none : KProg (Option InodeIdx)).Uses Quiet :=
      bind (iunlockput_quiet p ip) fun _ => uses_pure _
    refine fs_bind_quiet trivial fun _ => bind (openAccess_quiet p ip omode) fun ok => ?_
    exact ite put (fs_bind_quiet trivial fun d => ite put (uses_pure _))

theorem Quiet.of_image (h : Image p o) : Quiet o := by
  cases o with
  | fs o => exact .of_inner (.of_core (o := .fs o) h)
  | log | file => exact h.elim
  | _ => trivial

end Quiet

/-! ## The protocol -/

/-- What a call knows about its own bracket: how many it has open, counting the denials
of `create` as one more, and the file it has allocated and not yet opened. It is
`trusted` until a denial or a file of another kind turns up. -/
@[ext]
structure Bracket where
  depth : ℤ := 0
  trusted : Bool := true
  file : Option FileIdx := none

namespace Bracket

def Allows (g : Bracket) : Op → Prop
  | .log .beginOp => g.depth = 0
  | .log .endOp => g.depth = 1
  | .file .filealloc => g.file = none
  | .file (.fileclose f) => g.file = some f
  | .file (.openInode f _ _ _) => g.file = some f
  | .file (.fdalloc _ _) => True
  | .file _ => False
  | _ => True

def weight (o : Op) (b : o.Ans) : ℤ :=
  (if isBegin o then 1 else 0) - (if isEnd o then 1 else 0) + (if isDenial o b then 1 else 0)

/-- A file that is closed before it was opened has no type. -/
def isOddFile : (o : Op) → o.Ans → Bool
  | .file (.fileclose _), some ff => ff.type ≠ .none
  | _, _ => false

def ownFile (g : Bracket) : (o : Op) → o.Ans → Option FileIdx
  | .file .filealloc, f => f
  | .file (.fileclose _), _ => none
  | .file (.openInode _ _ _ _), _ => none
  | _, _ => g.file

def next (g : Bracket) (o : Op) (b : o.Ans) : Bracket where
  depth := g.depth + weight o b
  trusted := g.trusted && !isDenial o b && !isOddFile o b
  file := g.ownFile o b

/-- Outside of file operations: `n` brackets are open. -/
def At (n : ℤ) (g : Bracket) : Prop := g.depth = n ∧ (g.trusted = true → g.file = none)

end Bracket

def bracket : Protocol Op Op.Ans where
  Ghost := Bracket
  allow g o := g.trusted = true → g.Allows o
  answer _ _ _ := True
  next := Bracket.next

section Rules
open Bracket
variable {α β : Type} {x : KProg α} {f : α → KProg β} {g : Bracket} {Q : β → Bracket → Prop} {n : ℤ} {o : Op}
  {undo : KProg Unit}

theorem Quiet.allows (h : Quiet o) : g.Allows o := by
  cases o with
  | log o =>
    cases o with
    | beginOp | endOp => exact h.elim
    | _ => trivial
  | file => exact h.elim
  | _ => trivial

theorem Quiet.next_eq (h : Quiet o) (b : o.Ans) : g.next o b = g := by
  have hw : weight o b = 0 ∧ isDenial o b = false ∧ isOddFile o b = false ∧ g.ownFile o b = g.file := by
    cases o with
    | log o =>
      cases o with
      | beginOp | endOp => exact h.elim
      | _ => exact ⟨rfl, rfl, rfl, rfl⟩
    | file => exact h.elim
    | fs o =>
      cases o with
      | access site =>
        cases site with
        | create => exact h.elim
        | _ => exact ⟨rfl, rfl, rfl, rfl⟩
      | _ => exact ⟨rfl, rfl, rfl, rfl⟩
    | _ => exact ⟨rfl, rfl, rfl, rfl⟩
  obtain ⟨h1, h2, h3, h4⟩ := hw
  rw [next, h1, h2, h3, h4, add_zero, Bool.not_false, Bool.and_true, Bool.and_true]

theorem quiet_obeys (hx : x.Uses Quiet) : x.Obeys bracket g fun _ g' => g' = g :=
  hx.obeys fun _ ho => ⟨fun _ => ho.allows, fun b => ho.next_eq b⟩

theorem quiet_bind (hx : x.Uses Quiet) (hf : ∀ a, (f a).Obeys bracket g Q) : (x >>= f).Obeys bracket g Q := by
  refine (quiet_obeys hx).seq fun a g' hg => ?_
  subst hg
  exact hf a

theorem quiet_at (hx : x.Uses Quiet) (h : At n g) : x.Obeys bracket g fun _ g => At n g :=
  (quiet_obeys hx).mono fun _ _ hg => hg ▸ h

theorem next_trusted (h : (g.next o b).trusted = true) : g.trusted = true := by
  rw [next, Bool.and_eq_true, Bool.and_eq_true] at h
  exact h.1.1

theorem beginOp_bind {f : Unit → KProg β} (ht : g.trusted = true → n = 0) (h : At n g)
    (hf : ∀ g', At (n + 1) g' → (g'.trusted = true → g.trusted = true) → (f ()).Obeys bracket g' Q) :
    (beginOp >>= f).Obeys bracket g Q := by
  refine ⟨fun htr => h.1.trans (ht htr), fun _ _ => hf _ ⟨?_, fun h' => ?_⟩ next_trusted⟩
  · exact congrArg (· + 1) h.1
  · exact h.2 (next_trusted h')

theorem endOp_file (ht : g.trusted = true → g.depth = 1) : endOp.Obeys bracket g fun _ g' =>
      g'.depth = g.depth - 1 ∧ (g'.trusted = true → g.trusted = true) ∧ g'.file = g.file := by
  refine bind ⟨ht, fun c _ => ?_⟩
  have hg : (g.next (.log .endOp) c).depth = g.depth - 1 := by
    change g.depth + (0 - 1 + 0) = _
    omega
  cases c with
  | false => exact ⟨hg, next_trusted, rfl⟩
  | true =>
    refine quiet_bind (uses_call trivial) fun _ => ?_
    refine mono (quiet_obeys (uses_call trivial)) fun _ _ h => ?_
    subst h
    exact ⟨hg, next_trusted, rfl⟩

theorem endOp_obeys (ht : g.trusted = true → n = 0) (h : At (n + 1) g) :
    endOp.Obeys bracket g fun _ g => At n g := by
  refine (endOp_file fun htr => ?_).mono fun _ g' hg => ⟨?_, fun h' => ?_⟩
  · rw [h.1, ht htr, zero_add]
  · rw [hg.1, h.1, add_sub_cancel_right]
  · rw [hg.2.2, h.2 (hg.2.1 h')]

theorem fail_obeys (h : undo.Obeys bracket g fun _ g => At 1 g) :
    (fail undo).Obeys bracket g fun _ g => At 0 g :=
  h.seq fun _ _ hg => (endOp_obeys (fun _ => rfl) hg).seq fun _ _ hg => hg

theorem fail_quiet (hu : undo.Uses Quiet) (h : At 1 g) :
    (fail undo).Obeys bracket g fun _ g => At 0 g := fail_obeys (quiet_at hu h)

theorem endOp_return (r : α) (h : At 1 g) :
    (endOp >>= fun _ => pure r : KProg α).Obeys bracket g fun _ g => At 0 g :=
  (endOp_obeys (fun _ => rfl) h).seq fun _ _ hg => hg

theorem access_create {f : Bool → KProg β} (h : At n g) (hok : (f true).Obeys bracket g Q)
    (hdenied : ∀ g, At (n + 1) g → g.trusted = false → (f false).Obeys bracket g Q) :
    (access .create p i usr oth >>= f).Obeys bracket g Q := by
  refine ⟨fun _ => trivial, fun b _ => ?_⟩
  cases b with
  | true =>
    have hnext : bracket.next g (.fs (.access .create p i usr oth)) true = g :=
      Bracket.ext (add_zero _) (by simp [bracket, next, isDenial, isOddFile]) rfl
    rw [hnext]
    exact hok
  | false =>
    apply hdenied
    · exact ⟨congrArg (· + 1) h.1, fun ht => h.2 (next_trusted ht)⟩
    · simp [bracket, next, isDenial]

end Rules

/-! ## The calls -/
section Calls
open Bracket
variable {g : Bracket}

theorem createDenied_obeys (p : Slot) (i : InodeIdx) (h : At 2 g) (ht : g.trusted = false) :
    (createDenied p i).Obeys bracket g fun _ g => At 1 g := by
  refine quiet_bind (iunlockput_quiet p i) fun _ => ?_
  exact (endOp_obeys (fun htr => by rw [ht] at htr; cases htr) h).seq fun _ _ hg => hg

theorem createExisting_obeys (p : Slot) (ip : InodeIdx) (type : InodeType) (h : At 1 g) :
    (createExisting p ip type).Obeys bracket g fun _ g => At 1 g := by
  refine quiet_bind (fs_quiet trivial) fun _ => access_create h ?_ fun _ => createDenied_obeys p ip
  have hput : (iunlockput p ip >>= fun _ => pure none : KProg (Option InodeIdx)).Uses Quiet :=
    bind (iunlockput_quiet p ip) fun _ => uses_pure _
  exact quiet_at (fs_bind_quiet trivial fun d => ite (uses_pure _) hput) h

theorem create_obeys (p : Slot) (path : CStr) (type : InodeType) (major minor : BitVec 16) (h : At 1 g) :
    (create p path type major minor).Obeys bracket g fun _ g => At 1 g := by
  refine quiet_bind (nameiparent_quiet p path) fun r => ?_
  cases r with
  | none => exact h
  | some r =>
    refine quiet_bind (fs_quiet trivial) fun _ => ?_
    refine quiet_bind (quiet_of_core (dirlookup_core p r.1 r.2)) fun e => ?_
    cases e with
    | some e => exact quiet_bind (iunlockput_quiet p r.1) fun _ => createExisting_obeys p e.1 type h
    | none =>
      refine access_create h ?_ fun _ => createDenied_obeys p r.1
      exact quiet_at (bind (quiet_of_inner (createNew_inner r.2 type major minor)) fun _ => uses_pure _) h

theorem closed_obeys (p : Slot) (ff : File) (h : At 1 g) (hodd : ff.type ≠ .none → g.trusted = false) :
    (closed p ff).Obeys bracket g fun _ g => At 1 g := by
  have hno {c : Prop} (hff : ff.type ≠ .none) (ht : g.trusted = true) : c :=
    (Bool.false_ne_true ((hodd hff).symm.trans ht)).elim
  unfold closed
  split
  case h_1 hff =>
    refine obeys_call (hno (by rw [hff]; decide)) fun _ _ => ⟨(add_zero _).trans h.1, fun ht => ?_⟩
    exact h.2 (next_trusted ht)
  case h_2 hff =>
    have hff : ff.type ≠ .none := by rw [hff]; decide
    refine beginOp_bind (hno hff) h fun g' hg' htr => quiet_bind (putInode_quiet p ff.ip) fun _ => ?_
    exact endOp_obeys (fun ht => hno hff (htr ht)) hg'
  case h_3 => exact h

theorem fileclose_obeys (p : Slot) (f : FileIdx) (hd : g.depth = 1)
    (hf : g.trusted = true → g.file = some f) : (fileclose p f).Obeys bracket g fun _ g => At 1 g := by
  refine bind ⟨hf, fun b _ => ?_⟩
  have hat : At 1 (g.next (.file (.fileclose f)) b) := ⟨(add_zero _).trans hd, fun _ => rfl⟩
  cases b with
  | none => exact hat
  | some ff =>
    refine closed_obeys p ff hat fun hff => ?_
    simp [bracket, next, isOddFile, hff]

theorem openFile_obeys (p : Slot) (ip : InodeIdx) (omode : Word) (h : At 1 g) :
    (openFile p ip omode).Obeys bracket g fun _ g => At 0 g := by
  refine bind ⟨h.2, fun (f : Option FileIdx) _ => ?_⟩
  have hd : (g.next (.file .filealloc) f).depth = 1 := (add_zero _).trans h.1
  cases f with
  | none => exact fail_quiet (iunlockput_quiet p ip) ⟨hd, fun _ => rfl⟩
  | some f =>
    refine bind ⟨fun _ => trivial, fun (fd : Option (Fin NOFILE)) _ => ?_⟩
    have hd := (add_zero _).trans hd
    cases fd with
    | none =>
      refine fail_obeys ((fileclose_obeys p f hd fun _ => rfl).seq fun _ _ hg => ?_)
      exact quiet_at (iunlockput_quiet p ip) hg
    | some =>
      refine quiet_bind (fs_quiet trivial) fun _ => (endOp_file fun _ => hd).seq fun _ g' hg => ?_
      refine bind ⟨fun _ => hg.2.2, fun _ _ => ⟨?_, fun _ => rfl⟩⟩
      exact (add_zero _).trans (by rw [hg.1]; exact sub_eq_zero.mpr hd)

theorem beginOp_call {x : KProg ℤ} (h : At 0 g) (hx : ∀ g, At 1 g → x.Obeys bracket g fun _ g => At 0 g) :
    (beginOp >>= fun _ => x).Obeys bracket g fun _ g => At 0 g :=
  beginOp_bind (fun _ => rfl) h fun g hg _ => hx g hg

section
variable (p : Slot)
include p

theorem sysOpen_obeys (path : Option CStr) (omode : Option Word) (h : At 0 g) :
    (sysOpen p path omode).Obeys bracket g fun _ g => At 0 g := by
  unfold sysOpen
  split
  case h_2 => exact h
  case h_1 path omode =>
    refine beginOp_call h fun g hg => seq (R := fun _ g => At 1 g) ?_ fun r g hg => ?_
    · split
      · exact create_obeys p path .file 0 0 hg
      · exact quiet_at (openExisting_quiet p path omode) hg
    · cases r with
      | none => exact fail_quiet (uses_pure _) hg
      | some ip => exact openFile_obeys p ip omode hg

theorem makeNode_obeys (path : CStr) (type : InodeType) (major minor : BitVec 16)
    (h : At 1 g) : (makeNode p path type major minor).Obeys bracket g fun _ g => At 0 g := by
  refine (create_obeys p path type major minor h).seq fun r g hg => ?_
  cases r with
  | none => exact fail_quiet (uses_pure _) hg
  | some ip => exact quiet_bind (iunlockput_quiet p ip) fun _ => endOp_return _ hg

theorem sysMkdir_obeys (path : Option CStr) (h : At 0 g) :
    (sysMkdir p path).Obeys bracket g fun _ g => At 0 g := by
  refine beginOp_call h fun g hg => ?_
  cases path with
  | none => exact fail_quiet (uses_pure _) hg
  | some path => exact makeNode_obeys p path .dir 0 0 hg

theorem sysMknod_obeys (path : Option CStr) (major minor : Option Word) (h : At 0 g) :
    (sysMknod p path major minor).Obeys bracket g fun _ g => At 0 g := by
  refine beginOp_call h fun g hg => ?_
  split
  · exact makeNode_obeys p _ .dev _ _ hg
  · exact fail_quiet (uses_pure _) hg

theorem sysLink_obeys (old new : Option CStr) (h : At 0 g) :
    (sysLink p old new).Obeys bracket g fun _ g => At 0 g := by
  unfold sysLink
  split
  case h_2 => exact h
  case h_1 old new =>
    refine beginOp_call h fun g hg => quiet_bind (namei_quiet p old) fun r => ?_
    cases r with
    | none => exact fail_quiet (uses_pure _) hg
    | some ip =>
      refine quiet_bind (fs_quiet trivial) fun _ => quiet_bind (fs_quiet trivial) fun d => ?_
      dsimp only
      split
      · exact fail_quiet (iunlockput_quiet p ip) hg
      refine quiet_bind (fs_quiet trivial) fun _ => quiet_bind (fs_quiet trivial) fun _ => ?_
      refine quiet_bind (fs_quiet trivial) fun _ => quiet_bind (quiet_of_inner (linkInto_inner new)) fun ok => ?_
      split
      · exact quiet_bind (quiet_of_core (iput_core p ip)) fun _ => endOp_return _ hg
      · refine fail_quiet (fs_bind_quiet trivial fun _ => fs_bind_quiet trivial fun _ => ?_) hg
        refine fs_bind_quiet trivial fun _ => fs_bind_quiet trivial fun _ => ?_
        exact iunlockput_quiet p ip

theorem sysUnlink_obeys (path : Option CStr) (h : At 0 g) :
    (sysUnlink p path).Obeys bracket g fun _ g => At 0 g := by
  cases path with
  | none => exact h
  | some path =>
    refine beginOp_call h fun g hg => quiet_bind (nameiparent_quiet p path) fun r => ?_
    cases r with
    | none => exact fail_quiet (uses_pure _) hg
    | some r =>
      have hfail := fail_quiet (iunlockput_quiet p r.1) hg
      refine quiet_bind (fs_quiet trivial) fun _ => quiet_bind (fs_quiet trivial) fun ok => ?_
      split
      · exact hfail
      split
      · exact hfail
      refine quiet_bind (quiet_of_core (dirlookup_core p r.1 r.2)) fun e => ?_
      cases e with
      | none => exact hfail
      | some e =>
        refine quiet_bind (fs_quiet trivial) fun _ => quiet_bind (fs_quiet trivial) fun d => ?_
        split
        · exact ⟨fun _ => trivial, fun b => b.elim⟩
        refine quiet_bind (quiet_of_inner nonemptyDir_inner) fun full => ?_
        split
        · refine fail_quiet (bind (iunlockput_quiet p e.1) fun _ => ?_) hg
          exact iunlockput_quiet p r.1
        · exact quiet_bind (quiet_of_inner (unlinkEntry_inner e.2)) fun _ => endOp_return _ hg

theorem sysChdir_obeys (path : Option CStr) (h : At 0 g) :
    (sysChdir p path).Obeys bracket g fun _ g => At 0 g := by
  refine beginOp_call h fun g hg => ?_
  cases path with
  | none => exact fail_quiet (uses_pure _) hg
  | some path =>
    refine quiet_bind (namei_quiet p path) fun r => ?_
    cases r with
    | none => exact fail_quiet (uses_pure _) hg
    | some ip =>
      have hfail := fail_quiet (iunlockput_quiet p ip) hg
      refine quiet_bind (fs_quiet trivial) fun _ => quiet_bind (fs_quiet trivial) fun ok => ?_
      split
      · exact hfail
      refine quiet_bind (fs_quiet trivial) fun d => ?_
      split
      · exact hfail
      refine quiet_bind (fs_quiet trivial) fun _ => quiet_bind (fs_quiet trivial) fun i => ?_
      refine quiet_bind (putInode_quiet p i) fun _ => (endOp_obeys (fun _ => rfl) hg).seq fun _ _ hg => ?_
      exact quiet_at (uses_bind_call trivial fun _ => uses_pure _) hg

theorem execInode_obeys (ip : InodeIdx) (path : CStr) (argv : List CStr) (pages : Word)
    (h : At 1 g) : (execInode p ip path argv pages).Obeys bracket g fun _ g => At 0 g := by
  have hfail := fail_quiet (iunlockput_quiet p ip) h
  refine quiet_bind (quiet_of_core (readi_core p ip _ _)) fun r => ?_
  dsimp only
  split
  · exact hfail
  refine quiet_bind (uses_call trivial) fun (pg : Option Vm.Pgdir) => ?_
  cases pg with
  | none => exact hfail
  | some pg =>
    refine quiet_bind ((loadSegments_image p ip _ _ pg 0).mono fun _ => .of_image) fun r => ?_
    split
    · refine quiet_bind (iunlockput_quiet p ip) fun _ => ?_
      refine (endOp_obeys (fun _ => rfl) h).seq fun _ _ hg => ?_
      exact quiet_at ((execStack_image p path argv _ pages _ _).mono fun _ => .of_image) hg
    · exact fail_quiet (uses_bind_call trivial fun _ => iunlockput_quiet p ip) h

theorem exec_obeys (path : CStr) (argv : List CStr) (h : At 0 g) :
    (exec p path argv).Obeys bracket g fun _ g => At 0 g := by
  refine beginOp_call h fun g hg => quiet_bind (namei_quiet p path) fun r => ?_
  cases r with
  | none => exact fail_quiet (uses_pure _) hg
  | some ip =>
    refine quiet_bind (fs_quiet trivial) fun _ => quiet_bind (fs_quiet trivial) fun ok => ?_
    split
    · exact fail_quiet (iunlockput_quiet p ip) hg
    · exact execInode_obeys p ip path argv 2 hg

theorem exec2_obeys (path : CStr) (argv : List CStr) (stacksize : Word) (h : At 0 g) :
    (exec2 p path argv stacksize).Obeys bracket g fun _ g => At 0 g := by
  refine beginOp_call h fun g hg => quiet_bind (uses_call trivial) fun (pr : Proc) => ?_
  have hfail := fail_quiet (uses_pure ()) hg
  split
  · exact hfail
  split
  · exact hfail
  refine quiet_bind (namei_quiet p path) fun r => ?_
  cases r with
  | none => exact hfail
  | some ip =>
    exact quiet_bind (fs_quiet trivial) fun _ => execInode_obeys p ip path argv (1 + stacksize) hg

theorem body_obeys (c : FsCall) (h : At 0 g) : (c.body p).Obeys bracket g fun _ g => At 0 g := by
  cases c with
  | «open» path omode => exact sysOpen_obeys p path omode h
  | mkdir path => exact sysMkdir_obeys p path h
  | mknod path major minor => exact sysMknod_obeys p path major minor h
  | link old new => exact sysLink_obeys p old new h
  | unlink path => exact sysUnlink_obeys p path h
  | chdir path => exact sysChdir_obeys p path h
  | exec path argv => exact exec_obeys p path argv h
  | exec2 path argv stacksize => exact exec2_obeys p path argv stacksize h

end

end Calls

/-! ## Counting along a path -/

theorem after_depth (g : Bracket) (tr : List (Σ o : Op, o.Ans)) : (bracket.after g tr).depth =
      g.depth + tr.countP (fun e => isBegin e.1) - tr.countP (fun e => isEnd e.1) +
        tr.countP (fun e => isDenial e.1 e.2) := by
  induction tr generalizing g with
  | nil =>
    change g.depth = g.depth + ((0 : ℕ) : ℤ) - ((0 : ℕ) : ℤ) + ((0 : ℕ) : ℤ)
    omega
  | cons e tr ih =>
    change (bracket.after (g.next e.1 e.2) tr).depth = _
    rw [ih]
    simp only [Bracket.next, Bracket.weight, List.countP_cons]
    split <;> split <;> split <;> push_cast <;> omega

theorem body_path (p : Slot) (c : FsCall) {tr : List (Σ o : Op, o.Ans)} (h : (c.body p).Path tr r) :
    tr.countP (fun e => isEnd e.1) =
      tr.countP (fun e => isBegin e.1) + tr.countP (fun e => isDenial e.1 e.2) := by
  have hat := (body_obeys (g := {}) p c ⟨rfl, fun _ => rfl⟩).path h fun _ _ _ => trivial
  have hd := hat.1
  rw [after_depth] at hd
  change (0 : ℤ) + _ - _ + _ = 0 at hd
  omega

end Xv6.Sys
