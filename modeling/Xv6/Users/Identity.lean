import Xv6.Lib.Pool
import Xv6.Proc.Effects
import Xv6.Users.Table

/-! # Strings in identity fields

User names flow from the arguments of `useradd` and `fork2` into processes, inodes and
the user table by `strcpy`, which looks at no length. In every interleaving of calls whose
arguments are shorter than 16 bytes, so are all strings that are ever copied.
-/
namespace Xv6.Users
open Function Prog Fs Sys Comp FsOp Fixes Keeps
open KProg hiding panic

def Fits (s : CStr) : Prop := s.length < 16

instance (s : CStr) : Decidable (Fits s) := inferInstanceAs (Decidable (s.length < 16))

theorem root_fits : Fits root := by decide

/-- All strings that identity fields hold, and all that were copied into them, fit. -/
structure IdInv (k : Kernel) : Prop where
  proc : ∀ q, Fits (k.pt.proc q).userid
  inode : ∀ i, Fits (k.icache i).d.userid
  dinode : ∀ inum, Fits (k.dinode inum).userid
  copies : ∀ c ∈ k.copies, Fits c.2

namespace IdInv
variable {k k' : Kernel}

theorem congr (h : IdInv k) (hpt : ∀ q, (k'.pt.proc q).userid = (k.pt.proc q).userid)
    (hicache : k'.icache = k.icache) (hdinode : k'.dinode = k.dinode) (hcopies : k'.copies = k.copies) :
    IdInv k' where
  proc q := by
    rw [hpt]
    exact h.proc q
  inode := by
    rw [hicache]
    exact h.inode
  dinode := by
    rw [hdinode]
    exact h.dinode
  copies := by
    rw [hcopies]
    exact h.copies

theorem copied (h : IdInv k) (field : IdField) (hs : Fits s) : IdInv (k.copied field s) where
  proc := h.proc
  inode := h.inode
  dinode := h.dinode
  copies c hc := by
    rcases List.mem_append.mp hc with hc | hc
    · exact h.copies c hc
    · rw [List.mem_singleton.mp hc]
      exact hs

variable {f : Inode → Inode} {o : ProcOp}

theorem setInode (h : IdInv k) (i : InodeIdx) (hf : Fits (f (k.icache i)).d.userid) :
    IdInv (k.setInode i f) where
  proc := h.proc
  inode j := by
    rw [Kernel.setInode_apply]
    split
    · exact hf
    · exact h.inode j
  dinode := h.dinode
  copies := h.copies

theorem setDinode (h : IdInv k) (inum : ℕ) (hd : Fits d.userid) :
    IdInv { k with dinode := update k.dinode inum d } where
  proc := h.proc
  inode := h.inode
  dinode n := by
    dsimp only
    rw [update_apply]
    split
    · exact hd
    · exact h.dinode n
  copies := h.copies

def seen (k : Kernel) := ((fun q => (k.pt.proc q).userid), k.icache, k.dinode, k.copies)

theorem of_seen (h : seen k' = seen k) (hk : IdInv k) : IdInv k' := by
  simp only [seen, Prod.mk.injEq] at h
  exact hk.congr (fun q => congrFun h.1 q) h.2.1 h.2.2.1 h.2.2.2

theorem keeps_of_fixes {α : Type} {x : Comp Kernel α} (hx : Fixes seen x) : Keeps IdInv x :=
  hx.keeps fun _ _ => of_seen

theorem logWrite (b : Word) : Keeps IdInv (Kernel.logWrite b) := by
  refine keeps_of_fixes (fixes_zoom fun k u l h => ?_)
  obtain ⟨lh, rfl⟩ := Log.write_eq_ok h
  rfl

theorem entry (i : InodeIdx) (hf : ∀ ip, (f ip).d.userid = ip.d.userid) :
    Keeps IdInv (modify fun k => k.setInode i f) := by
  refine keeps_modify fun k h => h.setInode i ?_
  rw [hf]
  exact h.inode i

theorem iget (inum : ℕ) : Keeps IdInv (iget.sem inum) := by
  refine keeps_get_bind fun k _ => ?_
  split
  · refine bind (entry _ ?_) fun _ => keeps_pure _
    exact fun _ => rfl
  split
  · exact keeps_panic _
  · refine bind (entry _ ?_) fun _ => keeps_pure _
    exact fun _ => rfl

theorem ilock (p : Slot) (i : InodeIdx) : Keeps IdInv (ilock.sem p i) := by
  refine keeps_get_bind fun k hk => ite (keeps_panic _) (ite keeps_block ?_)
  refine ite (entry i fun _ => rfl) (ite (keeps_panic _) (keeps_modify fun k' h => ?_))
  have hd : Fits (k.dinode (k.icache i).inum).userid := hk.dinode _
  exact (h.setInode i hd).copied _ hd

theorem iupdate (i : InodeIdx) : Keeps IdInv (iupdate.sem i) := by
  refine keeps_get_bind fun k hk => (logWrite _).bind fun _ => keeps_modify fun k' h => ?_
  exact (h.setDinode _ (hk.inode i)).copied _ (hk.inode i)

theorem store (i : InodeIdx) (hu : ∀ s, u = .userid s → Fits s) : Keeps IdInv (store.sem i u) := by
  have happly (d : Dinode) (hd : Fits d.userid) : Fits (u.apply d).userid := by
    cases u with
    | userid s => exact hu s rfl
    | _ => exact hd
  refine bind (keeps_modify fun k h => h.setInode i (happly _ (h.inode i))) fun _ => ?_
  cases u with
  | userid s => exact keeps_modify fun k h => h.copied _ (hu s rfl)
  | _ => exact keeps_pure _

theorem claimInode (inum : ℕ) (type : InodeType) : Keeps IdInv (claimInode.sem inum type) := by
  refine keeps_get_bind fun k _ => ite ?_ (keeps_pure _)
  refine (logWrite _).bind fun _ => (keeps_modify fun k' h => ?_).bind fun _ => keeps_pure _
  have hsystem : Fits system := by decide
  exact (h.setDinode inum hsystem).copied _ hsystem

theorem ifree (i : InodeIdx) : Keeps IdInv (ifree.sem i) := by
  refine bind (entry i ?_) fun _ => (iupdate i).bind fun _ => entry i ?_
  · exact fun _ => rfl
  · exact fun _ => rfl

theorem keeps_fs {o : FsOp} (ho : ∀ i s, o = .store i (.userid s) → Fits s) : Keeps IdInv o.sem := by
  have hread {α : Type} {f : Kernel → α} : Keeps IdInv (do return f (← get)) :=
    keeps_get_bind fun _ _ => keeps_pure _
  have hlogged {α : Type} (b : Word) {x : Comp Kernel α} (hx : Fixes seen x) :
      Keeps IdInv (Kernel.logWrite b >>= fun _ => x) := (logWrite b).bind fun _ => keeps_of_fixes hx
  cases o with
  | iget inum => exact iget inum
  | ilock p i => exact ilock p i
  | iupdate i => exact iupdate i
  | ifree i => exact ifree i
  | claimInode inum type => exact claimInode inum type
  | store i => exact store i fun s hs => ho i s (by rw [hs])
  | idup i | releasesleep i | dropRef i => exact entry i fun _ => rfl
  | iunlock p i =>
    refine keeps_get_bind fun k _ => ite (keeps_panic _) (entry i ?_)
    exact fun _ => rfl
  | acquiresleep p i =>
    refine keeps_get_bind fun k _ => ite keeps_block (entry i ?_)
    exact fun _ => rfl
  | claimBlock =>
    refine keeps_get_bind fun k _ => ?_
    split
    · exact keeps_pure _
    · refine hlogged _ (bind (fixes_modify ?_) fun _ => fixes_pure _)
      exact fun _ => rfl
  | bzero b | writeBlock b off src => exact hlogged b (fixes_modify fun _ => rfl)
  | bfree => exact keeps_get_bind fun k _ => ite (hlogged _ (fixes_modify fun _ => rfl)) (keeps_panic _)
  | consoleread =>
    have hdone (input : List UInt8) (r : ℤ × List UInt8) :
        Keeps IdInv (modify (fun k => { k with input := input }) >>= fun _ => pure r) := by
      refine keeps_of_fixes (bind (fixes_modify ?_) fun _ => fixes_pure _)
      exact fun _ => rfl
    exact keeps_get_bind fun k _ => ite (hdone _ _) (ite (hdone _ _) keeps_block)
  | consolewrite => exact keeps_pure _
  | _ => exact hread

theorem userid_of_effect {v v' : Slot → View} {o : Op} {b : o.Ans} (h : ∀ q, Fits (v q).userid)
    (ho : ∀ np p pg s, o = .proc (.initChild np p pg s) → Fits s) (heff : Effect v o b v') (q : Slot) :
    Fits (v' q).userid := by
  have hupdate {np : Slot} {w : View} (hw : Fits w.userid) : Fits (update v np w q).userid := by
    rw [update_apply]
    split
    · exact hw
    · exact h q
  cases heff with
  | alloc => exact hupdate root_fits
  | initChild np p pg s => exact hupdate (ho np p pg s rfl)
  | abandon np | publish np => exact hupdate (h np)
  | exit p | setImage p pg sz eip esp | growproc p n _ => exact hupdate (h p)
  | reap p r | setLimit p r => exact hupdate (h r)
  | _ => exact h q

theorem proc_copies (ho : ∀ np p pg s, o = .initChild np p pg s → Fits s) :
    Keeps (fun k => ∀ c ∈ k.copies, Fits c.2) o.sem := by
  have hsame {α : Type} {x : Comp Kernel α} (hx : Fixes Kernel.copies x) :
      Keeps (fun k => ∀ c ∈ k.copies, Fits c.2) x := hx.keeps fun s t h hs => by rwa [h]
  have hcopied {f : Kernel → Kernel} (field : IdField) {s : CStr} (hs : Fits s)
      (hf : ∀ k, (f k).copies = k.copies) :
      Keeps (fun k => ∀ c ∈ k.copies, Fits c.2) (modify fun k => (f k).copied field s) := by
    refine keeps_modify fun k hk c hc => ?_
    rcases List.mem_append.mp hc with hc | hc
    · rw [hf] at hc
      exact hk c hc
    · rw [List.mem_singleton.mp hc]
      exact hs
  have hphys {α : Type} (x : Comp Vm.Phys α) : Fixes Kernel.copies (Kernel.onPhys x) :=
    fixes_onPhys (fun _ _ => rfl) x
  cases o with
  | alloc =>
    refine keeps_get_bind fun k _ => ?_
    split
    · exact keeps_pure _
    · exact bind (hcopied _ root_fits fun _ => rfl) fun _ => keeps_pure _
  | initChild np p pg s => exact hcopied _ (ho np p pg s rfl) fun _ => rfl
  | wait =>
    refine keeps_get_bind fun k _ => ?_
    split
    · exact keeps_pure _
    · exact keeps_block
    split
    · exact keeps_panic _
    · refine hsame ((hphys _).bind fun _ => (hphys _).bind fun _ => bind (fixes_modify ?_) fun _ => fixes_pure _)
      exact fun _ => rfl
  | growproc =>
    refine keeps_get_bind fun k _ => hsame ((hphys _).bind fun r => bind (fixes_modify ?_) fun _ => fixes_pure _)
    exact fun _ => rfl
  | getadmin | kill | setmemorylimit =>
    refine keeps_get_bind fun k _ => hsame (bind (fixes_modify ?_) fun _ => fixes_pure _)
    exact fun _ => rfl
  | proc | initproc => exact keeps_get_bind fun k _ => keeps_pure _
  | _ => exact hsame (fixes_modify fun _ => rfl)

theorem keeps_proc (ho : ∀ np p pg s, o = .initChild np p pg s → Fits s) : Keeps IdInv o.sem := by
  intro k b k' h hsem
  have hcache : (k'.icache, k'.dinode) = (k.icache, k.dinode) :=
    ProcOp.sem_fixes (f := fun k => (k.icache, k.dinode)) (fun _ _ => rfl) (fun _ _ => rfl) (fun _ _ => rfl) o k b k' hsem
  have huserid := userid_of_effect (v := views k.pt) (o := .proc o) (b := b) h.proc
    (fun np p pg s hs => ho np p pg s (Op.proc.inj hs)) (effect (o := .proc o) hsem)
  refine ⟨huserid, ?_, ?_, proc_copies ho k b k' h.copies hsem⟩
  · rw [(Prod.mk.inj hcache).1]
    exact h.inode
  · rw [(Prod.mk.inj hcache).2]
    exact h.dinode

theorem keeps_user {o : UserOp} (ho : ∀ addr s, o = .strcpy addr s → Fits s) : Keeps IdInv o.sem := by
  have hset (f : UTable → UTable) : Keeps IdInv (modify fun k => k.setUtable f) :=
    keeps_of_fixes (fixes_modify fun _ => rfl)
  cases o with
  | strcpy addr s =>
    refine keeps_modify fun k h => copied ?_ _ (ho addr s rfl)
    exact h.congr (fun _ => rfl) rfl rfl rfl
  | acquire => exact keeps_get_bind fun k _ => ite keeps_block (hset _)
  | release => exact keeps_get_bind fun k _ => ite (hset _) (keeps_panic _)
  | read => exact keeps_get_bind fun k _ => keeps_pure _
  | _ => exact hset _

end IdInv

/-- The operation stores no string but one that fits. -/
def Short : Op → Prop
  | .fs (.store _ (.userid s)) => Fits s
  | .proc (.initChild _ _ _ s) => Fits s
  | .user (.strcpy _ s) => Fits s
  | _ => True

def ShortAnswer : (o : Op) → o.Ans → Prop
  | .proc (.proc _), pr => Fits pr.userid
  | _, _ => True

def copying : Protocol Op Op.Ans where
  Ghost := Unit
  allow _ := Short
  answer _ := ShortAnswer
  next _ _ _ := ()

theorem IdInv.next {k k' : Kernel} (h : IdInv k) (hallow : Short o)
    (ho : o.sem k = .ok (b, k')) : ShortAnswer o b ∧ IdInv k' := by
  have hfile (o : FileOp) : Fixes IdInv.seen o.sem := by
    refine FileOp.sem_fixes (fun _ _ => rfl) (fun k p u => ?_) (fun _ _ => rfl) (fun _ _ => rfl) o
    have huserid : (fun q => ((k.setProc p fun pr => { pr with ofile := u pr }).pt.proc q).userid) =
        fun q => (k.pt.proc q).userid := by
      funext q
      rw [Kernel.setProc_apply]
      split
      case isTrue hq =>
        subst hq
        rfl
      case isFalse => rfl
    exact congrArg (fun f => (f, k.icache, k.dinode, k.copies)) huserid
  cases o with
  | panic => cases ho
  | log o => exact ⟨trivial, IdInv.keeps_of_fixes (LogOp.sem_fixes (fun _ _ => rfl) o) k b k' h ho⟩
  | fs =>
    refine ⟨trivial, .keeps_fs (fun i s hs => ?_) k b k' h ho⟩
    subst hs
    exact hallow
  | file o => exact ⟨trivial, .keeps_of_fixes (hfile o) k b k' h ho⟩
  | proc o =>
    refine ⟨?_, .keeps_proc (fun np p pg s hs => ?_) k b k' h ho⟩
    · cases o with
      | proc p =>
        cases ho
        exact h.proc p
      | _ => trivial
    · subst hs
      exact hallow
  | vm o => exact ⟨trivial, IdInv.keeps_of_fixes (VmOp.sem_fixes (fun _ _ => rfl) o) k b k' h ho⟩
  | user =>
    refine ⟨trivial, .keeps_user (fun addr s hs => ?_) k b k' h ho⟩
    subst hs
    exact hallow

/-- The code copies only strings that fit. -/
abbrev Safe {α : Type} (x : KProg α) : Prop := x.Obeys copying () fun _ _ => True

def Plain : Op → Prop
  | .fs (.store _ (.userid _)) => False
  | .proc (.initChild _ _ _ _) => False
  | .user (.strcpy _ _) => False
  | _ => True

section Safe
variable {α β : Type} {p : Slot} {x : KProg α} {f : α → KProg β}

theorem safe_of_plain (h : x.Uses Plain) : Safe x := by
  refine (h.obeys (P := copying) fun o ho => ⟨?_, fun _ => rfl⟩).mono fun _ _ _ => trivial
  cases o with
  | fs o =>
    cases o with
    | store i u =>
      cases u with
      | userid => exact ho.elim
      | _ => trivial
    | _ => trivial
  | proc o =>
    cases o with
    | initChild => exact ho.elim
    | _ => trivial
  | user o =>
    cases o with
    | strcpy => exact ho.elim
    | _ => trivial
  | _ => trivial

theorem safe_pure (a : α) : Safe (pure a : KProg α) := trivial

theorem safe_bind (hx : Safe x) (hf : ∀ a, Safe (f a)) : Safe (x >>= f) := hx.seq fun a _ _ => hf a

theorem safe_call {f : o.Ans → KProg β} (h : Plain o) (hf : ∀ b, Safe (f b)) : Safe (call o >>= f) :=
  safe_bind (safe_of_plain (uses_call h)) hf

theorem safe_ite {c : Prop} [Decidable c] (hx : c → Safe x) (hy : ¬ c → Safe y) :
    Safe (if c then x else y) := .ite hx hy

theorem safe_of_routine (h : x.Uses Routine) : Safe x := safe_of_plain <| h.mono fun o ho => by
  cases o with
  | fs o =>
    cases o with
    | store i u =>
      cases u with
      | userid => exact ho.elim
      | _ => trivial
    | _ => trivial
  | proc o =>
    cases o with
    | initChild => exact ho.elim
    | _ => trivial
  | user o =>
    cases o with
    | strcpy => exact ho.elim
    | _ => trivial
  | _ => trivial

theorem safe_of_core (h : x.Uses Op.Core) : Safe x := safe_of_routine (routine_of_core h)

theorem endOp_safe : Safe endOp := safe_of_routine endOp_routine

theorem fail_safe (h : Safe undo) : Safe (fail undo) :=
  safe_bind h fun _ => safe_bind endOp_safe fun _ => safe_pure _

theorem myproc_safe {f : Proc → KProg β} (hf : ∀ pr : Proc, Fits pr.userid → Safe (f pr)) :
    Safe (myproc p >>= f) := .bind ⟨trivial, fun pr hpr => hf pr hpr⟩

theorem storeUserid_safe {f : Unit → KProg β} (hs : Fits s) (hf : ∀ u, Safe (f u)) :
    Safe (store i (.userid s) >>= f) := .bind ⟨hs, fun u _ => hf u⟩

theorem strcpy_safe {f : Unit → KProg β} (hs : Fits s) (hf : ∀ u, Safe (f u)) :
    Safe (strcpy addr s >>= f) := .bind ⟨hs, fun u _ => hf u⟩

theorem forkWith_safe {userid : Proc → CStr} (h : ∀ pr : Proc, Fits pr.userid → Fits (userid pr)) :
    Safe (forkWith p userid) := by
  have halloc : Safe allocproc := by
    refine safe_call trivial fun (r : Option Slot) => ?_
    cases r with
    | none => exact safe_pure _
    | some =>
      refine safe_call trivial fun (f : Option Vm.Frame) => ?_
      cases f with
      | none | some => exact safe_call trivial fun _ => safe_pure _
  refine safe_bind halloc fun r => ?_
  cases r with
  | none => exact safe_pure _
  | some np =>
    refine myproc_safe fun curproc hcur => safe_call trivial fun (pg : Option Vm.Pgdir) => ?_
    cases pg with
    | none =>
      refine safe_call trivial fun (child : Proc) => safe_bind (safe_of_routine (kfreeStack_routine _)) fun _ => ?_
      exact safe_call trivial fun _ => safe_pure _
    | some =>
      refine .bind ⟨h curproc hcur, fun _ _ => safe_bind (safe_of_routine (dupFiles_routine curproc np _)) fun _ => ?_⟩
      refine safe_bind (safe_of_routine (dupCwd_routine np _)) fun _ => safe_call trivial fun _ => ?_
      exact safe_call trivial fun _ => safe_call trivial fun _ => safe_pure _

theorem ialloc_safe (type : InodeType) : Safe (ialloc type) := by
  have hfrom (turns inum : ℕ) : Safe (iallocFrom type turns inum) := by
    induction turns generalizing inum with
    | zero => exact safe_of_routine (panic_uses trivial)
    | succ turns ih =>
      refine safe_call trivial fun (ok : Bool) => safe_ite (fun _ => safe_of_core (fs_core trivial)) fun _ => ih _
  exact safe_call trivial fun _ => hfrom _ _

theorem newInode_safe {owner : CStr} (h : Fits owner) : Safe (newInode p type major minor owner) := by
  refine safe_bind (ialloc_safe type) fun ip => safe_call trivial fun _ => ?_
  refine safe_call trivial fun _ => safe_call trivial fun _ => storeUserid_safe h fun _ => ?_
  exact safe_call trivial fun _ => safe_pure _

end Safe
end Xv6.Users
