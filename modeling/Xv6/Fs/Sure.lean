import Xv6.Fs.Lookup

/-! # Lookups that return

While nobody else is in the file system, a process that looks up names stops only when the
inode cache has no entry left. Nothing changes but the cache.
-/
namespace Xv6.Fs
open Function Prog Kernel FsOp
open KProg hiding panic

variable {k k' : Kernel} {i : InodeIdx} {p : Slot} {name : List UInt8}

/-- The operation can be executed, or there is no entry for another inode in the cache. -/
def Sure (o : Op) (k : Kernel) : Prop :=
  (∃ b k', o.sem k = .ok (b, k')) ∨ ∃ inum, o = .fs (.iget inum) ∧ ∀ j, (k.icache j).ref ≠ 0

theorem sure_of_run {α : Type} {x : KProg α} {a : α} (h : x.run Op.sem k = .ok (a, k')) :
    x.Wp Op.sem Sure (fun b t => b = a ∧ t = k') k :=
  (wp_of_run h).mono_fine fun _ _ => .inl

/-- The run returns, unless the cache is full. -/
def Ends {α : Type} (x : KProg α) (k : Kernel) (Q : α → Kernel → Prop) : Prop :=
  (∃ a k', x.run Op.sem k = .ok (a, k') ∧ Q a k') ∨
    x.run Op.sem k = .error (.panic "iget: no inodes") ∧
      ∃ inum t, Reach Op.sem x k (.fs (.iget inum)) t ∧ ∀ j, (t.icache j).ref ≠ 0

theorem ends_of_sure {α : Type} {x : KProg α} {Q : α → Kernel → Prop} (h : x.Wp Op.sem Sure Q k) : Ends x k Q := by
  cases hrun : x.run Op.sem k with
  | ok r => exact .inl ⟨r.1, r.2, hrun, h.run hrun⟩
  | error =>
    obtain ⟨o, t, hreach, ho⟩ := exists_reach_of_error hrun
    obtain ⟨b, t', hok⟩ | ⟨inum, rfl, hfull⟩ := h.reach hreach
    · cases ho.symm.trans hok
    · obtain rfl := iget_eq_error ho
      exact .inr ⟨hrun, inum, t, hreach, hfull⟩

/-- The disk is as it was. -/
structure OnDisk (k k' : Kernel) : Prop where
  dinode : k'.dinode = k.dinode
  block : k'.block = k.block


theorem OnDisk.trans (h : OnDisk k k') (h' : OnDisk k' k'') : OnDisk k k'' :=
  ⟨h'.dinode.trans h.dinode, h'.block.trans h.block⟩

def locks (k : Kernel) : InodeIdx → Option Slot := fun j => (k.icache j).lock

theorem locks_setInode {f : Inode → Inode} : locks (k.setInode i f) = update (locks k) i (f (k.icache i)).lock := by
  funext j
  unfold locks
  by_cases hj : j = i
  · rw [hj, setInode_self, update_self]
  · rw [setInode_of_ne hj, update_of_ne hj]

theorem locks_setInode_same {f : Inode → Inode} (h : (f (k.icache i)).lock = (k.icache i).lock) : locks (k.setInode i f) = locks k := by
  rw [locks_setInode, h]
  exact update_eq_self ..

theorem ilock_sure (h : Intact k) (hi : 0 < (k.icache i).ref) (hlock : locks k i = none)
    (hlive : (k.dinode (k.icache i).inum).type ≠ .free) : (ilock p i).Wp Op.sem Sure (fun _ k' => Moved k 0 k' 0 ∧
      Loaded k' i ∧ (k'.icache i).d = k.dinode (k.icache i).inum ∧ OnDisk k k' ∧ locks k' = update (locks k) i (some p)) k := by
  obtain ⟨k1, ho⟩ := ilock_ok (p := p) hi hlock fun _ => hlive
  have hown : (ilock p i).Wp Op.sem Sure (fun _ k' => OnDisk k k' ∧ locks k' = update (locks k) i (some p)) k := by
    refine wp_call (.inl ⟨_, _, ho⟩) fun _ k' ho' => ?_
    obtain ⟨-, -, ⟨-, rfl⟩ | ⟨-, -, rfl⟩⟩ := ilock_eq_ok ho'
    · exact ⟨⟨rfl, rfl⟩, locks_setInode⟩
    · exact ⟨⟨rfl, rfl⟩, locks_setInode (f := fun ip => { ip with lock := some p, valid := true, d := k.dinode (k.icache i).inum })⟩
  have hspec : (ilock p i).Wp Op.sem (Fine .bfree) _ k := ilock_spec h fun hw => by cases hw
  refine ((hown.and hspec).mono_fine fun _ _ hfine => hfine.1).mono fun _ k' hk' => ?_
  exact ⟨hk'.2.1, hk'.2.2.1, hk'.2.2.2, hk'.1⟩

theorem iget_sure (h : Intact k) (inum : ℕ) : (iget inum).Wp Op.sem Sure (fun i k' => Moved k 0 k' {i} ∧ Refers k' i inum ∧
      OnDisk k k' ∧ locks k' = locks k ∧ ((k'.icache i).valid = true → (k'.icache i).ref ≠ 1)) k := by
  have hsure : Sure (.fs (.iget inum)) k := by
    by_cases hfree : ∃ j, (k.icache j).ref = 0
    · obtain ⟨j, hj⟩ := hfree
      obtain ⟨i, k', ho⟩ := iget_ok hj inum
      exact .inl ⟨i, k', ho⟩
    · push Not at hfree
      exact .inr ⟨inum, rfl, hfree⟩
  have hown : (iget inum).Wp Op.sem Sure (fun i k' => OnDisk k k' ∧ locks k' = locks k ∧
      ((k'.icache i).valid = true → (k'.icache i).ref ≠ 1)) k := by
    refine wp_call hsure fun (i : InodeIdx) k' ho => ?_
    rcases iget_eq_ok ho with ⟨hpos, -, rfl⟩ | ⟨-, -, rfl⟩
    · refine ⟨⟨rfl, rfl⟩, locks_setInode_same rfl, fun _ => ?_⟩
      rw [setInode_self]
      dsimp only
      omega
    · refine ⟨⟨rfl, rfl⟩, locks_setInode_same rfl, fun hvalid => ?_⟩
      rw [setInode_self] at hvalid
      cases hvalid
  have hspec : (iget inum).Wp Op.sem (Fine .bfree) _ k := iget_spec h inum
  refine ((hown.and hspec).mono_fine fun _ _ hfine => hfine.1).mono fun i k' hk' => ?_
  exact ⟨hk'.2.1, hk'.2.2.1, hk'.1⟩

theorem iunlock_sure (hi : 0 < (k.icache i).ref) (hlock : locks k i = some p) :
    (iunlock p i).Wp Op.sem Sure (fun _ k' => k' = k.setInode i fun ip => { ip with lock := none }) k := by
  have hno : ¬ ((k.icache i).lock ≠ some p ∨ (k.icache i).ref < 1) := by
    rw [not_or, not_not]
    exact ⟨hlock, by omega⟩
  refine wp_call (.inl ⟨(), _, (iunlock_apply ..).trans (if_neg hno)⟩) fun _ k' ho => ?_
  exact iunlock_eq_ok ho

theorem iput_sure (hlock : locks k i = none) (hkeep : (k.icache i).valid = true → (k.icache i).d.nlink = 0 → (k.icache i).ref ≠ 1) :
    (iput p i).Wp Op.sem Sure (fun _ k' => k' = k.setInode i fun ip => { ip with ref := ip.ref - 1 }) k := by
  have hacquire : acquiresleep.sem p i k = .ok ((), k.setInode i fun ip => { ip with lock := some p }) := by
    have hlock : (k.icache i).lock = none := hlock
    rw [acquiresleep.sem, Comp.bind_of_ok (Comp.get_apply k), hlock]
    rfl
  refine wp_call_bind (.inl ⟨(), _, hacquire⟩) fun _ k1 ho => ?_
  obtain ⟨-, rfl⟩ := acquiresleep_eq_ok ho
  have hfree : (iputFree i).Wp Op.sem Sure (fun _ k2 => k2 = k.setInode i fun ip => { ip with lock := some p })
      (k.setInode i fun ip => { ip with lock := some p }) := by
    refine wp_call_bind (.inl ⟨_, _, rfl⟩) fun (ip : Inode) k2 hip => ?_
    cases hip
    rw [setInode_self]
    refine wp_ite (fun hunlinked => ?_) fun _ => wp_pure rfl
    refine wp_call_bind (.inl ⟨_, _, rfl⟩) fun (r : ℤ) k2 href => ?_
    cases href
    rw [setInode_self]
    exact wp_ite (fun hone => absurd hone (hkeep hunlinked.1 hunlinked.2)) fun _ => wp_pure rfl
  refine hfree.bind fun _ k2 hk2 => ?_
  subst hk2
  refine wp_call_bind (.inl ⟨_, _, rfl⟩) fun _ k3 hrelease => wp_call (.inl ⟨_, _, rfl⟩) fun _ k4 hdrop => ?_
  cases hrelease
  cases hdrop
  dsimp only
  rw [setInode_setInode, setInode_setInode]
  have hlock : (k.icache i).lock = none := hlock
  have hsame : ({ k.icache i with lock := none, ref := (k.icache i).ref - 1 } : Inode) =
      { k.icache i with ref := (k.icache i).ref - 1 } := by simp only [hlock]
  exact congrArg (fun ip => { k with icache := update k.icache i ip }) hsame

section Lookup
variable {dp : InodeIdx}

/-- A directory of whole entries. -/
structure Tabular (k : Kernel) (dp : InodeIdx) : Prop where
  loaded : Loaded k dp
  dir : (k.icache dp).d.type = .dir
  size : SIZEOF_DIRENT ∣ (k.icache dp).d.size.toNat

theorem Tabular.readDirent (h : Intact k) (hdp : Tabular k dp) (hn : n < slots (k.icache dp).d.size) (msg : String) :
    (readDirent p dp (SIZEOF_DIRENT * n) msg).run Op.sem k = .ok (direntAt (table k dp) n, k) := by
  have hend : SIZEOF_DIRENT * n + SIZEOF_DIRENT ≤ (k.icache dp).d.size.toNat := by
    unfold slots SIZEOF_DIRENT at *
    omega
  exact readDirent_run hdp.dir hend (fun bn hbn => h.whole_of_loaded hdp.loaded bn (by omega)) msg

/-- What `dirlookup` returns: the first entry with the name, and a reference to its inode. -/
def Finds (k : Kernel) (dp : InodeIdx) (name : List UInt8) (r : Option (InodeIdx × ℕ)) (k' : Kernel) : Prop :=
  match r with
  | none => k' = k ∧ ∀ a, a < slots (k.icache dp).d.size → ¬ (direntAt (table k dp) a).Names name
  | some (i, off) => ∃ a, off = SIZEOF_DIRENT * a ∧ FirstNamed (k.icache dp).d.size (table k dp) name a ∧
      Moved k 0 k' {i} ∧ Refers k' i (direntAt (table k dp) a).inum.toNat ∧ OnDisk k k' ∧ locks k' = locks k ∧
      ((k'.icache i).valid = true → (k'.icache i).ref ≠ 1)

theorem lookupFrom_sure (h : Intact k) (hdp : Tabular k dp) (turns n : ℕ) (hn : n + turns = slots (k.icache dp).d.size)
    (hbefore : ∀ a, a < n → ¬ (direntAt (table k dp) a).Names name) :
    (lookupFrom p dp name turns (SIZEOF_DIRENT * n)).Wp Op.sem Sure (Finds k dp name) k := by
  induction turns generalizing n with
  | zero => exact wp_pure ⟨rfl, fun a ha => hbefore a (by omega)⟩
  | succ turns ih =>
    refine (sure_of_run (hdp.readDirent h (n := n) (by omega) _)).bind fun de k1 ⟨hde, hk1⟩ => ?_
    subst hde hk1
    refine wp_ite (fun hname => ?_) fun hname => ?_
    · refine (iget_sure h _).bind fun i k2 ⟨hmoved, hrefers, hrest⟩ => wp_pure ?_
      exact ⟨n, rfl, ⟨by omega, hname, hbefore⟩, hmoved, hrefers, hrest⟩
    · refine ih (n + 1) (by omega) fun a ha => ?_
      rcases Nat.lt_succ_iff_lt_or_eq.mp ha with ha | rfl
      · exact hbefore a ha
      · exact hname

theorem dirlookup_sure (h : Intact k) (hdp : Tabular k dp) : (dirlookup p dp name).Wp Op.sem Sure (Finds k dp name) k := by
  refine wp_call_bind (.inl ⟨_, _, rfl⟩) fun (ip : Inode) k1 hip => ?_
  cases hip
  rw [if_neg (not_not.mpr hdp.dir)]
  have hturns : direntTurns (k.icache dp).d.size 0 = slots (k.icache dp).d.size := by
    have hsize := hdp.size
    unfold direntTurns slots SIZEOF_DIRENT at *
    omega
  exact lookupFrom_sure h hdp _ 0 (by rw [hturns, Nat.zero_add]) fun a ha => by omega

end Lookup
end Xv6.Fs
