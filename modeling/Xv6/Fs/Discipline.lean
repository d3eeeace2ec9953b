import Xv6.Fs.Icache

/-! # The file system keeps to the discipline of the inode cache -/
namespace Xv6.Fs
open Prog Obeys Multiset
open KProg hiding panic

variable {α β : Type} {p : Slot} {g : Held} {i dp : InodeIdx}

abbrev Keeps (p : Slot) (g : Held) (x : KProg α) : Prop :=
  x.Obeys (icacheProtocol p) g fun _ g' => g' = g

def Neutral : Op → Prop
  | .fs .sb => True
  | .fs (.ref _) => True
  | .fs (.claimBlock _) => True
  | .fs (.bzero _) => True
  | .fs (.readBlock _) => True
  | .fs (.writeBlock _ _ _) => True
  | .fs (.access _ _ _ _ _) => True
  | .fs (.consoleread _ _) => True
  | .fs (.consolewrite _) => True
  | .fs _ => False
  | .proc (.proc _) => True
  | .proc _ => False
  | _ => True

variable {o : Op} {Q : β → Held → Prop}

section Rules
variable {x : KProg α} {f : α → KProg β} {Q : β → Held → Prop}

theorem Neutral.rule (h : Neutral o) : g.Allows p o ∧ ∀ b, g.next o b = g := by
  cases o with
  | fs o =>
    cases o with
    | sb | ref | claimBlock | bzero | readBlock | writeBlock | access | consoleread
    | consolewrite => exact ⟨trivial, fun _ => rfl⟩
    | _ => exact h.elim
  | proc o =>
    cases o with
    | proc => exact ⟨trivial, fun _ => rfl⟩
    | _ => exact h.elim
  | _ => exact ⟨trivial, fun _ => rfl⟩

theorem neutral_keeps (h : x.Uses Neutral) : Keeps p g x := h.obeys fun _ ho => ho.rule

theorem keeps_bind (hx : Keeps p g x) (hf : ∀ a, (f a).Obeys (icacheProtocol p) g Q) :
    (x >>= f).Obeys (icacheProtocol p) g Q := by
  refine hx.seq fun a g' hg => ?_
  subst hg
  exact hf a

theorem neutral_bind {f : o.Ans → KProg β} (h : Neutral o) (hf : ∀ a, (f a).Obeys (icacheProtocol p) g Q) :
    (call o >>= f).Obeys (icacheProtocol p) g Q := keeps_bind (neutral_keeps (uses_call h)) hf

theorem panic_obeys (msg : String) : (KProg.panic msg : KProg β).Obeys (icacheProtocol p) g Q :=
  ⟨trivial, fun b => b.elim⟩

theorem see_eq (h : g.locks i ≠ .plain) (ip : Inode) : g.see i ip = g := by
  unfold Held.see
  split
  case h_1 hplain _ => exact (h hplain).elim
  case h_2 => rfl

theorem inode_bind {f : Inode → KProg β} (h : g.locks i ≠ .plain)
    (hf : ∀ ip, (f ip).Obeys (icacheProtocol p) g Q) : (inode i >>= f).Obeys (icacheProtocol p) g Q := by
  refine bind ⟨trivial, fun ip _ => ?_⟩
  have hsee := see_eq h ip
  change (f ip).Obeys (icacheProtocol p) (g.see i ip) Q
  rw [hsee]
  exact hf ip

theorem ilock_bind {f : Unit → KProg β} (hi : i ∈ g.refs)
    (hf : g.locks i = .free → (f ()).Obeys (icacheProtocol p) (g.setLock i .full) Q) :
    (ilock p i >>= f).Obeys (icacheProtocol p) g Q := ⟨⟨rfl, hi⟩, fun _ hfree => hf hfree⟩

end Rules

theorem setLock_setLock (s s' : Hold) : (g.setLock i s).setLock i s' = g.setLock i s' := by
  simp only [Held.setLock, Function.update_idem]

theorem setLock_eq (h : g.locks i = s) : g.setLock i s = g := by
  rw [Held.setLock, ← h, Function.update_eq_self]

theorem setLock_locks (s : Hold) : (g.setLock i s).locks i = s := Function.update_self ..

/-- The call has locked the inode and may write it. -/
structure Owns (g : Held) (i : InodeIdx) : Prop where
  full : g.locks i = .full
  ref : i ∈ g.refs

namespace Owns

theorem ne_plain (h : Owns g i) : g.locks i ≠ .plain := by
  rw [h.full]
  simp

theorem valid (h : Owns g i) : (g.locks i).Valid := by
  rw [h.full]
  trivial

theorem of_lock (h : i ∈ g.refs) : Owns (g.setLock i .full) i := ⟨setLock_locks _, h⟩

end Owns

theorem store_keeps (h : Owns g i) (u : InodeUpdate) : Keeps p g (store i u) :=
  obeys_call h.full fun _ _ => rfl

theorem iupdate_keeps (h : Owns g i) : Keeps p g (iupdate i) := obeys_call h.valid fun _ _ => rfl

theorem balloc_keeps : Keeps p g balloc := by
  have hfrom (turns b : ℕ) : Keeps p g (ballocFrom turns b) := by
    induction turns generalizing b with
    | zero => exact panic_obeys _
    | succ turns ih =>
      refine neutral_bind trivial fun a => ?_
      cases a with
      | none => exact ih _
      | some => exact neutral_bind trivial fun _ => rfl
  exact neutral_bind trivial fun _ => hfrom _ _

theorem addrOf_keeps (h : Owns g i) (n : Fin 8) : Keeps p g (addrOf i n) := by
  refine inode_bind h.ne_plain fun ip => ?_
  split
  · exact keeps_bind balloc_keeps fun a => keeps_bind (store_keeps h _) fun _ => rfl
  · rfl

theorem indirectAddrOf_keeps (a : Word) (bn : ℕ) : Keeps p g (indirectAddrOf a bn) := by
  refine neutral_bind trivial fun data => ?_
  split
  · exact keeps_bind balloc_keeps fun b => neutral_bind trivial fun _ => rfl
  · rfl

theorem bmap_keeps (h : Owns g i) (bn : ℕ) : Keeps p g (bmap i bn) := by
  unfold bmap
  split
  · exact addrOf_keeps h _
  · split
    · exact keeps_bind (addrOf_keeps h _) fun a => indirectAddrOf_keeps a _
    · exact panic_obeys _

theorem freeAddr_keeps (h : Owns g i) (n : Fin 8) : Keeps p g (freeAddr i n) := by
  refine inode_bind h.ne_plain fun ip => ?_
  split
  case isTrue => rfl
  case isFalse hne => exact bind ⟨hne, fun _ _ => store_keeps h _⟩

theorem freeBlocks_keeps (as : List Word) : Keeps p g (freeBlocks as) := by
  induction as with
  | nil => rfl
  | cons a as ih =>
    unfold freeBlocks
    split
    case isTrue => exact ih
    case isFalse hne => exact bind ⟨hne, fun _ _ => ih⟩

theorem freeIndirect_keeps (h : Owns g i) : Keeps p g (freeIndirect i) := by
  refine inode_bind h.ne_plain fun ip => ?_
  dsimp only
  split
  · rfl
  · refine neutral_bind trivial fun data => ?_
    exact keeps_bind (freeBlocks_keeps _) fun _ => freeAddr_keeps h _

theorem freeAddrs_keeps (h : Owns g i) (ns : List (Fin 8)) : Keeps p g (freeAddrs i ns) := by
  induction ns with
  | nil => rfl
  | cons n ns ih => exact keeps_bind (freeAddr_keeps h n) fun _ => ih

theorem itrunc_keeps (h : Owns g i) : Keeps p g (itrunc i) := by
  refine keeps_bind (freeAddrs_keeps h _) fun _ => keeps_bind (freeIndirect_keeps h) fun _ => ?_
  exact keeps_bind (store_keeps h _) fun _ => iupdate_keeps h

theorem see_plain (h : g.locks i = .plain) (ip : Inode) :
    g.see i ip = if ip.valid then g.setLock i .full else g := by
  simp only [Held.see, h]
  cases ip.valid <;> rfl

theorem iputFree_obeys (h : g.locks i = .plain) (hi : i ∈ g.refs) :
    (iputFree i).Obeys (icacheProtocol p) g fun _ g' => g' = g ∨ g' = g.setLock i .full := by
  refine ⟨trivial, fun (ip : Inode) _ => ?_⟩
  change Obeys (icacheProtocol p) (if ip.valid ∧ ip.d.nlink = 0 then _ else _) (g.see i ip) _
  rw [see_plain h]
  split
  case isTrue hv =>
    have hown : Owns (g.setLock i .full) i := .of_lock hi
    rw [if_pos hv.1]
    refine neutral_bind trivial fun (r : ℤ) => ite (fun _ => ?_) fun _ => .inr rfl
    refine keeps_bind (itrunc_keeps hown) fun _ => obeys_call hown.full fun _ _ => .inl ?_
    exact (setLock_setLock _ _).trans (setLock_eq h)
  case isFalse =>
    split
    · exact .inr rfl
    · exact Or.inl rfl

theorem iput_obeys (hi : i ∈ g.refs) :
    (iput p i).Obeys (icacheProtocol p) g fun _ g' => g' = { g with refs := g.refs.erase i } := by
  refine bind ⟨⟨rfl, hi⟩, fun _ hfree => ?_⟩
  have hfree : g.locks i = .free := hfree
  refine (iputFree_obeys (setLock_locks .plain) hi).seq fun _ g' hg => ?_
  have hrelease : g'.setLock i .free = g := by
    rcases hg with rfl | rfl
    · exact (setLock_setLock _ _).trans (setLock_eq hfree)
    · rw [setLock_setLock, setLock_setLock, setLock_eq hfree]
  refine bind ⟨trivial, fun _ _ => ?_⟩
  change Obeys (icacheProtocol p) _ (g'.setLock i .free) _
  rw [hrelease]
  exact obeys_call ⟨hi, hfree⟩ fun _ _ => rfl

theorem iput_addRef : (iput p i).Obeys (icacheProtocol p) (g.addRef i) fun _ g' => g' = g := by
  refine (iput_obeys (mem_cons_self i _)).mono fun _ g' hg => ?_
  rw [hg]
  exact congrArg (fun m => ({ g with refs := m } : Held)) (erase_cons_head i g.refs)

theorem iunlock_bind {f : Unit → KProg β} (h : (g.locks i).Valid)
    (hf : (f ()).Obeys (icacheProtocol p) (g.setLock i .free) Q) :
    (iunlock p i >>= f).Obeys (icacheProtocol p) g Q := ⟨h, fun _ _ => hf⟩

/-- The state of a call that holds a new reference to an inode, locked. -/
def locked (g : Held) (i : InodeIdx) : Held := (g.addRef i).setLock i .full

theorem locked_owns : Owns (locked g i) i := Owns.of_lock (mem_cons_self i _)

theorem iunlock_locked (h : g.locks i = .free) : (locked g i).setLock i .free = g.addRef i := by
  rw [locked, setLock_setLock]
  exact setLock_eq h

theorem iunlockput_obeys (h : g.locks i = .free) :
    (iunlockput p i).Obeys (icacheProtocol p) (locked g i) fun _ g' => g' = g := by
  refine iunlock_bind locked_owns.valid ?_
  rw [iunlock_locked h]
  exact iput_addRef

theorem iunlockput_bind {f : Unit → KProg β} (h : g.locks i = .free)
    (hf : (f ()).Obeys (icacheProtocol p) g Q) :
    (iunlockput p i >>= f).Obeys (icacheProtocol p) (locked g i) Q := by
  refine (iunlockput_obeys h).seq fun _ g' hg => ?_
  subst hg
  exact hf

theorem readLoop_keeps (h : Owns g i) (turns off n : ℕ) : Keeps p g (readLoop i turns off n) := by
  induction turns generalizing off n with
  | zero => rfl
  | succ turns ih =>
    unfold readLoop
    split
    · rfl
    · refine keeps_bind (bmap_keeps h _) fun a => neutral_bind trivial fun data => ?_
      exact keeps_bind (ih _ _) fun _ => rfl

/-- The console gives up the lock while it waits. -/
theorem relock_obeys {Q : α → Held → Prop} {x : KProg α} (h : Owns g i) {y : KProg β} {f : β → KProg α}
    (hy : y.Uses Neutral) (hx : x = do iunlock p i; let r ← y; ilock p i; f r)
    (hf : ∀ r, (f r).Obeys (icacheProtocol p) g Q) : x.Obeys (icacheProtocol p) g Q := by
  subst hx
  refine iunlock_bind h.valid (keeps_bind (neutral_keeps hy) fun r => ilock_bind h.ref fun _ => ?_)
  rw [setLock_setLock, setLock_eq h.full]
  exact hf r

theorem readi_keeps (h : Owns g i) (off n : Word) : Keeps p g (readi p i off n) := by
  refine inode_bind h.ne_plain fun ip => ?_
  split
  · split
    · exact relock_obeys h (y := fs (.consoleread p n.toInt.toNat)) (uses_call trivial) rfl fun _ => rfl
    · rfl
  split
  · rfl
  · exact keeps_bind (readLoop_keeps h _ _ _) fun _ => rfl

theorem writeLoop_keeps (h : Owns g i) (turns off : ℕ) (src : List UInt8) :
    Keeps p g (writeLoop i turns off src) := by
  induction turns generalizing off src with
  | zero => rfl
  | succ turns ih =>
    unfold writeLoop
    split
    · rfl
    · exact keeps_bind (bmap_keeps h _) fun a => neutral_bind trivial fun _ => ih _ _

theorem growTo_keeps (h : Owns g i) (off : Word) (n : ℕ) : Keeps p g (growTo i off n) := by
  refine inode_bind h.ne_plain fun ip => ?_
  split
  · exact keeps_bind (store_keeps h _) fun _ => iupdate_keeps h
  · rfl

theorem writei_keeps (h : Owns g i) (src : List UInt8) (off : Word) : Keeps p g (writei p i src off) := by
  refine inode_bind h.ne_plain fun ip => ?_
  split
  · split
    · exact relock_obeys h (y := fs (.consolewrite src)) (uses_call trivial) rfl fun _ => rfl
    · rfl
  split
  · rfl
  split
  · rfl
  · exact keeps_bind (writeLoop_keeps h _ _ _) fun _ => keeps_bind (growTo_keeps h _ _) fun _ => rfl

theorem readDirent_keeps (h : Owns g dp) (off : ℕ) (msg : String) : Keeps p g (readDirent p dp off msg) := by
  refine keeps_bind (readi_keeps h _ _) fun (r, bytes) => ?_
  exact ite (fun _ => rfl) fun _ => panic_obeys _

/-- With the reference to the inode that a lookup has found, if any. -/
def found (g : Held) : Option (InodeIdx × α) → Held
  | some (i, _) => g.addRef i
  | none => g

theorem lookupFrom_obeys (h : Owns g dp) (name : List UInt8) (turns off : ℕ) :
    (lookupFrom p dp name turns off).Obeys (icacheProtocol p) g fun r g' => g' = found g r := by
  induction turns generalizing off with
  | zero => rfl
  | succ turns ih =>
    refine keeps_bind (readDirent_keeps h off _) fun de => ?_
    split
    · exact bind ⟨trivial, fun ip _ => rfl⟩
    · exact ih _

theorem dirlookup_obeys (h : Owns g dp) (name : List UInt8) :
    (dirlookup p dp name).Obeys (icacheProtocol p) g fun r g' => g' = found g r := by
  refine inode_bind h.ne_plain fun ip => ?_
  split
  · exact panic_obeys _
  · exact lookupFrom_obeys h name _ _

theorem emptyFrom_keeps (h : Owns g dp) (turns off : ℕ) : Keeps p g (emptyFrom p dp turns off) := by
  induction turns generalizing off with
  | zero => rfl
  | succ turns ih =>
    refine keeps_bind (readDirent_keeps h off _) fun de => ?_
    split
    · rfl
    · exact ih _

theorem dirlink_keeps (h : Owns g dp) (name : List UInt8) (inum : ℕ) : Keeps p g (dirlink p dp name inum) := by
  refine (dirlookup_obeys h name).seq fun r g' hg => ?_
  subst hg
  cases r with
  | some => exact iput_addRef.seq fun _ _ hg => hg
  | none =>
    refine inode_bind h.ne_plain fun ip => keeps_bind (emptyFrom_keeps h _ _) fun off => ?_
    refine keeps_bind (writei_keeps h _ _) fun r => ?_
    split
    · rfl
    · exact panic_obeys _

theorem walk_obeys (parent : Bool) (names : List (List UInt8)) (ip : InodeIdx) :
    (walk p parent names ip).Obeys (icacheProtocol p) (g.addRef ip) fun r g' => g' = found g r := by
  induction names generalizing ip with
  | nil =>
    unfold walk
    split
    · exact iput_addRef.seq fun _ _ hg => hg
    · rfl
  | cons name rest ih =>
    refine ilock_bind (mem_cons_self ip _) fun hfree => ?_
    have hfree : g.locks ip = .free := hfree
    have hown : Owns (locked g ip) ip := locked_owns
    refine inode_bind hown.ne_plain fun d => ?_
    split
    · exact iunlockput_bind hfree rfl
    refine neutral_bind trivial fun (ok : Bool) => ?_
    split
    · exact iunlockput_bind hfree rfl
    split
    · refine iunlock_bind hown.valid ?_
      exact iunlock_locked hfree
    refine (dirlookup_obeys hown name).seq fun r g' hg => ?_
    subst hg
    cases r with
    | none => exact iunlockput_bind hfree rfl
    | some r =>
      have hswap : found (locked g ip) (some r) = locked (g.addRef r.1) ip := by
        simp only [found, locked, Held.addRef, Held.setLock, cons_swap]
      rw [hswap]
      exact iunlockput_bind (g := g.addRef r.1) hfree (ih r.1)

theorem start_obeys (path : List UInt8) :
    (start p path).Obeys (icacheProtocol p) g fun i g' => g' = g.addRef i := by
  unfold start
  split
  · exact obeys_call trivial fun _ _ => rfl
  refine bind ⟨rfl, fun i hi => ?_⟩
  have hi : i = g.cwd := hi
  cases i with
  | some => exact bind ⟨.inr hi.symm, fun _ _ => rfl⟩
  | none => exact panic_obeys _

theorem namex_obeys (path : CStr) (parent : Bool) :
    (namex p path parent).Obeys (icacheProtocol p) g fun r g' => g' = found g r := by
  refine (start_obeys path.bytes).seq fun i g' hg => ?_
  subst hg
  exact walk_obeys parent _ i

end Xv6.Fs
