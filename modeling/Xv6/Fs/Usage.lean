import Mathlib.Data.Multiset.AddSub
import Xv6.Fs.Dir

/-! # What a call holds

The locks, transactions and references that a call takes and gives back, counted one by
one: a protocol whose ghost state is what the call holds at the moment. It asks less of
the code than the discipline of the inode cache, since it is about the counts alone.
-/
namespace Xv6
open Function Multiset

/-- `utable.lock`, the inode locks, the open transactions, and the references to inodes;
one of these belongs to the directory that the process works in, and one may have gone to
`utable.ptr`. -/
structure Usage where
  table : Bool
  locks : InodeIdx → Bool
  depth : ℤ
  refs : Multiset InodeIdx
  cwd : Option InodeIdx
  ptr : Option InodeIdx

variable {j : InodeIdx} {o : Op}

namespace Usage

/-- As many inodes as a call holds at once, with the working directory of its process. -/
def room : ℕ := 4

def addRef (g : Usage) (i : InodeIdx) : Usage := { g with refs := i ::ₘ g.refs }
def dropRef (g : Usage) (i : InodeIdx) : Usage := { g with refs := g.refs.erase i }
def setLock (g : Usage) (i : InodeIdx) (b : Bool) : Usage :=
  { g with locks := update g.locks i b }

def Allows (p : Slot) (g : Usage) : Op → Prop
  | .fs (.iget _) => g.refs.card < room
  | .fs (.idup i) => i ∈ g.refs
  | .fs (.ilock q _) => q = p
  | .fs (.iunlock q _) => q = p
  | .fs (.acquiresleep q _) => q = p
  | .fs (.releasesleep i) => g.locks i = true
  | .fs (.dropRef i) => i ∈ g.refs
  | .fs (.cwd q) => q = p
  | .file _ => False
  | .proc (.proc _) => True
  | .proc _ => False
  | _ => True

def Answers (g : Usage) : (o : Op) → o.Ans → Prop
  | .fs (.ilock _ i), _ => g.locks i = false
  | .fs (.acquiresleep _ i), _ => g.locks i = false
  | .fs (.iunlock _ i), _ => g.locks i = true
  | .fs (.cwd _), i => i = g.cwd
  | .user .acquire, _ => g.table = false
  | _, _ => True

def next (g : Usage) : (o : Op) → o.Ans → Usage
  | .fs (.iget _), i => g.addRef i
  | .fs (.idup i), _ => g.addRef i
  | .fs (.ilock _ i), _ => g.setLock i true
  | .fs (.iunlock _ i), _ => g.setLock i false
  | .fs (.acquiresleep _ i), _ => g.setLock i true
  | .fs (.releasesleep i), _ => g.setLock i false
  | .fs (.dropRef i), _ => g.dropRef i
  | .log .beginOp, _ => { g with depth := g.depth + 1 }
  | .log .endOp, _ => { g with depth := g.depth - 1 }
  | .user .initlock, _ => { g with table := false }
  | .user .acquire, _ => { g with table := true }
  | .user .release, _ => { g with table := false }
  | .user (.setPtr i), _ => { g with ptr := some i }
  | _, _ => g

variable {g : Usage} {i : InodeIdx}

theorem setLock_setLock (b c : Bool) : (g.setLock i b).setLock i c = g.setLock i c := by
  simp only [setLock, update_idem]

theorem setLock_eq (h : g.locks i = b) : g.setLock i b = g := by
  rw [setLock, ← h, update_eq_self]

theorem setLock_locks (b : Bool) : (g.setLock i b).locks i = b := update_self ..

theorem setLock_of_ne (h : j ≠ i) (b : Bool) : (g.setLock i b).locks j = g.locks j :=
  update_of_ne h ..

theorem dropRef_addRef : (g.addRef i).dropRef i = g :=
  congrArg (fun m => ({ g with refs := m } : Usage)) (erase_cons_head i g.refs)

theorem mem_addRef : i ∈ (g.addRef i).refs := mem_cons_self i _

@[simp] theorem card_addRef : (g.addRef i).refs.card = g.refs.card + 1 := card_cons i _

/-- The state of a call that holds a new reference to an inode, locked. -/
def locked (g : Usage) (i : InodeIdx) : Usage := (g.addRef i).setLock i true

@[simp] theorem card_locked : (g.locked i).refs.card = g.refs.card + 1 := card_addRef

theorem unlock_locked (h : g.locks i = false) : (g.locked i).setLock i false = g.addRef i := by
  rw [locked, setLock_setLock]
  exact setLock_eq h

theorem locked_swap (hne : i ≠ j) : (g.locked j).locked i = (g.locked i).locked j := by
  simp only [locked, addRef, setLock, cons_swap, update_comm hne]

theorem addRef_locked_swap : (g.locked i).addRef j = (g.addRef j).locked i := by
  simp only [locked, addRef, setLock, cons_swap]

end Usage

/-- The use that process `p` makes of locks, transactions and references. -/
def usage (p : Slot) : Protocol Op Op.Ans where
  Ghost := Usage
  allow := Usage.Allows p
  answer := Usage.Answers
  next := Usage.next

namespace Fs
open Prog Usage
open KProg hiding panic

variable {α β : Type} {p : Slot} {g : Usage} {i dp : InodeIdx}

/-- The code holds in the end what it held before. -/
abbrev Balanced (p : Slot) (g : Usage) (x : KProg α) : Prop := x.Obeys (usage p) g fun _ g' => g' = g

def Ignored (p : Slot) (o : Op) : Prop := ∀ g : Usage, g.Allows p o ∧ ∀ b, g.next o b = g

section Rules
variable {x : KProg α} {f : α → KProg β} {Q : β → Usage → Prop}

theorem contents_ignored (h : o.Contents) : Ignored p o := by
  intro g
  cases o with
  | panic => exact ⟨trivial, fun b => b.elim⟩
  | fs o =>
    cases o with
    | iget | idup | ilock | iunlock | acquiresleep | releasesleep | dropRef | cwd => exact h.elim
    | _ => exact ⟨trivial, fun _ => rfl⟩
  | _ => exact h.elim

theorem ignored_balanced (h : x.Uses (Ignored p)) : Balanced p g x := h.obeys fun _ ho => ho g

theorem contents_balanced (h : x.Uses Op.Contents) : Balanced p g x :=
  ignored_balanced (h.mono fun _ => contents_ignored)

theorem balanced_bind (hx : Balanced p g x) (hf : ∀ a, (f a).Obeys (usage p) g Q) :
    (x >>= f).Obeys (usage p) g Q := by
  refine hx.seq fun a g' hg => ?_
  subst hg
  exact hf a

theorem ignored_bind {f : o.Ans → KProg β} (h : Ignored p o)
    (hf : ∀ a, (f a).Obeys (usage p) g Q) : (call o >>= f).Obeys (usage p) g Q :=
  balanced_bind (ignored_balanced (uses_call h)) hf

theorem inode_ignored (j : InodeIdx) : Ignored p (.fs (.inode j)) := fun _ => ⟨trivial, fun _ => rfl⟩

theorem store_ignored (i : InodeIdx) (u : InodeUpdate) : Ignored p (.fs (.store i u)) :=
  fun _ => ⟨trivial, fun _ => rfl⟩

theorem iupdate_ignored (i : InodeIdx) : Ignored p (.fs (.iupdate i)) := fun _ => ⟨trivial, fun _ => rfl⟩

theorem myproc_ignored (q : Slot) : Ignored p (.proc (.proc q)) := fun _ => ⟨trivial, fun _ => rfl⟩

theorem panic_usage (msg : String) : (KProg.panic msg : KProg β).Obeys (usage p) g Q :=
  ⟨trivial, fun b => b.elim⟩

theorem ilock_usage {f : Unit → KProg β}
    (hf : g.locks i = false → (f ()).Obeys (usage p) (g.setLock i true) Q) :
    (ilock p i >>= f).Obeys (usage p) g Q := obeys_bind_call rfl fun _ => hf

theorem iunlock_usage {f : Unit → KProg β}
    (hf : g.locks i = true → (f ()).Obeys (usage p) (g.setLock i false) Q) :
    (iunlock p i >>= f).Obeys (usage p) g Q := obeys_bind_call rfl fun _ => hf

end Rules

theorem iputFree_usage : Balanced p g (iputFree i) := by
  refine ignored_bind (inode_ignored i) fun ip => ?_
  split
  · refine ignored_bind (fun _ => ⟨trivial, fun _ => rfl⟩) fun (r : ℤ) => .ite (fun _ => ?_) fun _ => rfl
    refine balanced_bind (contents_balanced (itrunc_contents i)) fun _ => ?_
    exact ignored_balanced (uses_call fun _ => ⟨trivial, fun _ => rfl⟩)
  · rfl

theorem iput_usage (hi : i ∈ g.refs) : (iput p i).Obeys (usage p) g fun _ g' => g' = g.dropRef i := by
  refine obeys_bind_call rfl fun _ (hfree : g.locks i = false) => ?_
  refine balanced_bind iputFree_usage fun _ => ?_
  refine obeys_bind_call (setLock_locks true) fun _ _ => ?_
  change (fs (.dropRef i)).Obeys (usage p) ((g.setLock i true).setLock i false) _
  rw [setLock_setLock, setLock_eq hfree]
  exact obeys_call hi fun _ _ => rfl

theorem iput_addRef_usage : (iput p i).Obeys (usage p) (g.addRef i) fun _ g' => g' = g :=
  (iput_usage mem_addRef).mono fun _ _ hg => hg.trans dropRef_addRef

theorem iunlockput_usage (h : g.locks i = false) :
    (iunlockput p i).Obeys (usage p) (g.locked i) fun _ g' => g' = g := by
  refine iunlock_usage fun _ => ?_
  rw [unlock_locked h]
  exact iput_addRef_usage

theorem iunlockput_bind_usage {Q : β → Usage → Prop} {f : Unit → KProg β} (h : g.locks i = false)
    (hf : (f ()).Obeys (usage p) g Q) : (iunlockput p i >>= f).Obeys (usage p) (g.locked i) Q := by
  refine (iunlockput_usage h).seq fun _ g' hg => ?_
  subst hg
  exact hf

/-- A device gives up the lock of its inode for a while. -/
theorem relock_usage {Q : α → Usage → Prop} (ho : Ignored p o) {f : o.Ans → KProg α}
    (hf : ∀ r, (f r).Obeys (usage p) g Q) :
    (iunlock p i >>= fun _ => call o >>= fun r => ilock p i >>= fun _ => f r).Obeys (usage p) g Q := by
  refine iunlock_usage fun hlocked => ignored_bind ho fun r => ilock_usage fun _ => ?_
  rw [setLock_setLock, setLock_eq hlocked]
  exact hf r

theorem readi_usage (off n : Word) : Balanced p g (readi p i off n) := by
  refine ignored_bind (inode_ignored i) fun ip => ?_
  dsimp only
  split
  · split
    · exact relock_usage (o := .fs (.consoleread p n.toInt.toNat)) (fun _ => ⟨trivial, fun _ => rfl⟩)
        fun _ => rfl
    · rfl
  split
  · rfl
  · exact balanced_bind (contents_balanced (readLoop_contents i _ _ _)) fun _ => rfl

theorem writei_usage (src : List UInt8) (off : Word) : Balanced p g (writei p i src off) := by
  refine ignored_bind (inode_ignored i) fun ip => ?_
  split
  · split
    · exact relock_usage (o := .fs (.consolewrite src)) (fun _ => ⟨trivial, fun _ => rfl⟩) fun _ => rfl
    · rfl
  split
  · rfl
  split
  · rfl
  · refine balanced_bind (contents_balanced (writeLoop_contents i _ _ _)) fun _ => ?_
    exact balanced_bind (contents_balanced (growTo_contents i _ _)) fun _ => rfl

theorem readDirent_usage (off : ℕ) (msg : String) : Balanced p g (readDirent p dp off msg) := by
  refine balanced_bind (readi_usage _ _) fun (r, bytes) => ?_
  exact .ite (fun _ => rfl) fun _ => panic_usage _

/-- With the reference to the inode that a lookup has found, if any. -/
def foundRef (g : Usage) : Option (InodeIdx × α) → Usage
  | some (i, _) => g.addRef i
  | none => g

theorem lookupFrom_usage (hroom : g.refs.card < room) (name : List UInt8) (turns off : ℕ) :
    (lookupFrom p dp name turns off).Obeys (usage p) g fun r g' => g' = foundRef g r := by
  induction turns generalizing off with
  | zero => rfl
  | succ turns ih =>
    refine balanced_bind (readDirent_usage off _) fun de => ?_
    split
    · exact obeys_bind_call hroom fun _ _ => rfl
    · exact ih _

theorem dirlookup_usage (hroom : g.refs.card < room) (name : List UInt8) :
    (dirlookup p dp name).Obeys (usage p) g fun r g' => g' = foundRef g r := by
  refine ignored_bind (inode_ignored dp) fun ip => ?_
  split
  · exact panic_usage _
  · exact lookupFrom_usage hroom name _ _

theorem emptyFrom_usage (turns off : ℕ) : Balanced p g (emptyFrom p dp turns off) := by
  induction turns generalizing off with
  | zero => rfl
  | succ turns ih =>
    refine balanced_bind (readDirent_usage off _) fun de => ?_
    split
    · rfl
    · exact ih _

theorem dirlink_usage (hroom : g.refs.card < room) (name : List UInt8) (inum : ℕ) :
    Balanced p g (dirlink p dp name inum) := by
  refine (dirlookup_usage hroom name).seq fun r g' hg => ?_
  subst hg
  cases r with
  | some => exact iput_addRef_usage.seq fun _ _ hg => hg
  | none =>
    refine ignored_bind (inode_ignored dp) fun ip => balanced_bind (emptyFrom_usage _ _) fun off => ?_
    refine balanced_bind (writei_usage _ _) fun r => ?_
    split
    · rfl
    · exact panic_usage _

theorem walk_usage (hroom : g.refs.card + 1 < room) (parent : Bool) (names : List (List UInt8)) (ip : InodeIdx) :
    (walk p parent names ip).Obeys (usage p) (g.addRef ip) fun r g' => g' = foundRef g r := by
  induction names generalizing ip with
  | nil =>
    unfold walk
    split
    · exact iput_addRef_usage.seq fun _ _ hg => hg
    · rfl
  | cons name rest ih =>
    refine ilock_usage fun (hfree : g.locks ip = false) => ignored_bind (inode_ignored ip) fun d => ?_
    split
    · exact iunlockput_bind_usage hfree rfl
    refine ignored_bind (fun _ => ⟨trivial, fun _ => rfl⟩) fun (ok : Bool) => ?_
    split
    · exact iunlockput_bind_usage hfree rfl
    split
    · exact iunlock_usage fun _ => unlock_locked hfree
    have hroom' : (g.locked ip).refs.card < room := by rwa [card_locked]
    refine (dirlookup_usage hroom' name).seq fun r g' hg => ?_
    subst hg
    cases r with
    | none => exact iunlockput_bind_usage hfree rfl
    | some r =>
      rw [show foundRef (g.locked ip) (some r) = (g.addRef r.1).locked ip from addRef_locked_swap]
      exact iunlockput_bind_usage (g := g.addRef r.1) hfree (ih r.1)

theorem start_usage (hroom : g.refs.card < room) (hcwd : ∀ i, g.cwd = some i → i ∈ g.refs)
    (path : List UInt8) : (start p path).Obeys (usage p) g fun i g' => g' = g.addRef i := by
  unfold start
  split
  · exact obeys_call hroom fun _ _ => rfl
  refine obeys_bind_call rfl fun (i : Option InodeIdx) (hi : i = g.cwd) => ?_
  cases i with
  | some i => exact obeys_bind_call (hcwd i hi.symm) fun _ _ => rfl
  | none => exact panic_usage _

theorem namex_usage (hroom : g.refs.card + 1 < room) (hcwd : ∀ i, g.cwd = some i → i ∈ g.refs)
    (path : CStr) (parent : Bool) :
    (namex p path parent).Obeys (usage p) g fun r g' => g' = foundRef g r := by
  refine (start_usage (Nat.lt_of_succ_lt hroom) hcwd path.bytes).seq fun i g' hg => ?_
  subst hg
  exact walk_usage hroom parent _ i

/-- With the reference that `namei` returns. -/
def namedRef (g : Usage) : Option InodeIdx → Usage
  | some i => g.addRef i
  | none => g

theorem namei_usage (hroom : g.refs.card + 1 < room) (hcwd : ∀ i, g.cwd = some i → i ∈ g.refs)
    (path : CStr) : (namei p path).Obeys (usage p) g fun r g' => g' = namedRef g r := by
  refine (namex_usage hroom hcwd path false).seq fun r g' hg => ?_
  subst hg
  cases r <;> rfl

theorem ialloc_usage (hroom : g.refs.card < room) (type : InodeType) :
    (ialloc type).Obeys (usage p) g fun i g' => g' = g.addRef i := by
  have hfrom (turns inum : ℕ) :
      (iallocFrom type turns inum).Obeys (usage p) g fun i g' => g' = g.addRef i := by
    induction turns generalizing inum with
    | zero => exact panic_usage _
    | succ turns ih =>
      refine ignored_bind (fun _ => ⟨trivial, fun _ => rfl⟩) fun (ok : Bool) => ?_
      split
      · exact obeys_call hroom fun _ _ => rfl
      · exact ih _
  exact ignored_bind (fun _ => ⟨trivial, fun _ => rfl⟩) fun _ => hfrom _ _

end Fs
end Xv6
