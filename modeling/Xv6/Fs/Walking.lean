import Xv6.Fs.Lookup

/-! # Path names

`namex` follows a path through directories that its caller may search. What it finds is
determined by the directories as they were before; on the way it may free inodes without
links, and no other.
-/
namespace Xv6.Fs
open Prog Multiset
open KProg hiding panic

variable {w : Watch} {k k' : Kernel} {i : InodeIdx} {p : Slot} {m m' : Multiset InodeIdx} {x t : ℕ} {uid : CStr}
  {parent : Bool} {names : List (List UInt8)} {ds : List ℕ} {nm : List UInt8}

abbrev held (k : Kernel) (x : ℕ) : Mem := (k.dinode x).contents k.block

def Searchable (k : Kernel) (uid : CStr) (x : ℕ) : Prop :=
  (k.dinode x).type = .dir ∧ mayAccess uid (k.dinode x) MODE_XUSR MODE_XOTH = true

/-- The directories `ds` on the way along a path from `x` to `t`, and the element of the
path that is left. -/
inductive Walks (k : Kernel) (uid : CStr) (parent : Bool) : List (List UInt8) → ℕ → List ℕ → ℕ → List UInt8 → Prop
  | here {x : ℕ} : parent = false → Walks k uid parent [] x [] x []
  | last {x : ℕ} {name : List UInt8} : parent = true → Searchable k uid x → Walks k uid parent [name] x [x] x name
  | step {x n t : ℕ} {name nm : List UInt8} {rest : List (List UInt8)} {ds : List ℕ} : Searchable k uid x →
      FirstNamed (k.dinode x).size (held k x) name n →
      Walks k uid parent rest (direntAt (held k x) n).inum.toNat ds t nm →
      Walks k uid parent (name :: rest) x (x :: ds) t nm

/-- Every entry in use names an allocated inode, and one with links unless it is the
directory itself. -/
def Sound (k : Kernel) : Prop :=
  ∀ x n, (k.dinode x).type = .dir → n < slots (k.dinode x).size → (direntAt (held k x) n).inum ≠ 0 →
    (k.dinode (direntAt (held k x) n).inum.toNat).type ≠ .free ∧
    ((direntAt (held k x) n).inum.toNat = x ∨ (k.dinode (direntAt (held k x) n).inum.toNat).nlink ≠ 0)

namespace Moved

section
variable (h : Moved k m k' m')
include h

theorem same_of_dir (hx : (k'.dinode x).type = .dir) : Same k k' x := by
  refine (h.nodes x).resolve_right fun hfree => ?_
  rw [hx] at hfree
  cases hfree.2

theorem held_of_dir (hx : (k'.dinode x).type = .dir) : k'.dinode x = k.dinode x ∧ held k' x = held k x := by
  obtain ⟨hdinode, hcontents⟩ := h.same_of_dir hx
  refine ⟨hdinode, ?_⟩
  unfold held
  rw [hdinode] at hx ⊢
  exact hcontents (by rw [hx]; nofun)

theorem sound (hk : Sound k) : Sound k' := by
  intro x n hx hn hused
  obtain ⟨hdinode, hheld⟩ := h.held_of_dir hx
  rw [hheld] at hused ⊢
  rw [hdinode] at hx hn
  obtain ⟨hlive, hself⟩ := hk x n hx hn hused
  rcases hself with hself | hlink
  · refine ⟨?_, .inl hself⟩
    rw [hself, hdinode]
    rwa [hself] at hlive
  · have hsame := (h.nodes (direntAt (held k x) n).inum.toNat).resolve_right fun hfree => hlink hfree.1
    rw [hsame.1]
    exact ⟨hlive, .inr hlink⟩

theorem entry_live (hk : Sound k) (hx : (k'.dinode x).type = .dir)
    (hn : n < slots (k.dinode x).size) (hused : (direntAt (held k x) n).inum ≠ 0) :
    (k'.dinode (direntAt (held k x) n).inum.toNat).type ≠ .free := by
  have hsound := h.sound hk x n hx
  obtain ⟨hdinode, hheld⟩ := h.held_of_dir hx
  rw [hdinode, hheld] at hsound
  exact (hsound hn hused).1

theorem searchable (hx : Searchable k' uid x) : Searchable k uid x := by
  obtain ⟨hdinode, -⟩ := h.held_of_dir hx.1
  unfold Searchable
  rw [← hdinode]
  exact hx

theorem walks (hw : Walks k' uid parent names x ds t nm) : Walks k uid parent names x ds t nm := by
  induction hw with
  | here hp => exact .here hp
  | last hp hx => exact .last hp (h.searchable hx)
  | step hx hfirst _ ih =>
    obtain ⟨hdinode, hheld⟩ := h.held_of_dir hx.1
    rw [hdinode, hheld] at hfirst
    rw [hheld] at ih
    exact .step (h.searchable hx) hfirst ih

theorem userid : (k'.pt.proc p).userid = (k.pt.proc p).userid :=
  congrArg (fun o => (o.1.proc p).userid) h.still

end

end Moved

theorem walk_spec (h : Intact k) (hi : Refers k i x) (hw : w = .ilock → Sound k ∧ (k.dinode x).type ≠ .free) :
    (walk p parent names i).Wp Op.sem (Fine w) (fun r k' => match r with
      | none => Moved k {i} k' 0
      | some (j, nm) => Moved k {i} k' {j} ∧ ∃ t ds, Refers k' j t ∧
          Walks k (k.pt.proc p).userid parent names x ds t nm ∧ (w = .ilock → (k'.dinode t).type ≠ .free)) k := by
  induction names generalizing k i x with
  | nil =>
    refine wp_ite (fun _ => ?_) fun hp => wp_pure ?_
    · exact (iput_spec h hi.1).bind fun _ k1 h1 => wp_pure h1
    · exact ⟨.refl h _, x, [], hi, .here (by simpa using hp), fun hw' => (hw hw').2⟩
  | cons name rest ih =>
    have hinum : (k.icache i).inum = x := hi.2
    refine (ilock_spec h fun hw' => .inr (by rw [hinum]; exact (hw hw').2)).bind fun _ k1 ⟨h1, hloaded, hd⟩ => ?_
    rw [hinum] at hd
    have hmoved1 : Moved k {i} k1 {i} := by simpa using h1.add {i}
    have hrefers1 : Refers k1 i x := h1.refers hi (by simpa using hi.1)
    have hput : (iunlockput p i).Wp Op.sem (Fine w) (fun _ k2 => Moved k {i} k2 0) k1 :=
      (iunlockput_spec h1.intact hrefers1.1).mono fun _ k2 h2 => hmoved1.trans h2
    refine wp_call_bind trivial fun (ip : Inode) k2 hip => ?_
    cases hip
    refine wp_ite (fun _ => hput.bind fun _ k2 h2 => wp_pure h2) fun hdir => ?_
    rw [not_not] at hdir
    refine wp_call_bind trivial fun (ok : Bool) k2 hok => ?_
    cases hok
    refine wp_ite (fun _ => hput.bind fun _ k2 h2 => wp_pure h2) fun haccess => ?_
    have hsearch : Searchable k (k.pt.proc p).userid x := by
      rw [hd, hmoved1.userid] at haccess
      rw [hd] at hdir
      exact ⟨hdir, by simpa using haccess⟩
    refine wp_ite (fun hlast => ?_) fun hmore => ?_
    · obtain ⟨hparent, rfl⟩ := hlast
      refine (iunlock_spec h1.intact).bind fun _ k2 h2 => wp_pure ?_
      have hmoved2 : Moved k {i} k2 {i} := hmoved1.trans (by simpa using h2.add {i})
      refine ⟨hmoved2, x, [x], h2.refers hrefers1 (by simpa using hrefers1.1), .last hparent hsearch, fun hw' => ?_⟩
      have hlive := (h1.trans h2).live i (by simpa using hi.1)
      rw [hinum] at hlive
      exact hlive (hw hw').2
    · refine (dirlookup_spec h1.intact hloaded).bind fun r k2 ⟨_, hr⟩ => ?_
      cases r with
      | none =>
        obtain ⟨rfl, -⟩ := hr
        exact hput.bind fun _ k2 h2 => wp_pure h2
      | some r =>
        obtain ⟨next, off⟩ := r
        obtain ⟨a, -, hfirst, h2, hnext⟩ := hr
        have hlive : (k.dinode (k.icache i).inum).type ≠ .free := by
          rw [hinum, hsearch.1]
          nofun
        have htable : table k1 i = held k x := by
          have hsame := h1.same (j := i) (by simpa using hi.1) hlive
          unfold table
          rw [hd, ← hinum]
          exact hsame.2 hlive
        rw [hd, htable] at hfirst
        rw [htable] at hnext
        generalize hy : (direntAt (held k x) a).inum.toNat = y at hnext
        have hmoved2 : Moved k {i} k2 ({next} + {i}) := hmoved1.trans (by simpa using h2.add {i})
        have hpos : 0 < (k2.icache i).ref := (h2.refers hrefers1 (by simpa using hrefers1.1)).1
        -- the entry of the next inode has its own reference, also where it is the same entry
        have hspare : 0 < (k2.icache next).ref - count next {i} := by
          by_cases heq : next = i
          · have hcount := h2.spare next
            rw [heq, count_singleton_self, count_zero] at hcount
            rw [heq, count_singleton_self]
            have hpos1 := hrefers1.1
            omega
          · rw [count_singleton, if_neg heq]
            have hpos2 := hnext.1
            omega
        refine (iunlockput_spec h2.intact hpos).bind fun _ k3 h3 => ?_
        have hmoved3 : Moved k {i} k3 {next} := by
          refine hmoved2.trans ?_
          have hadd := h3.add {next}
          rwa [Multiset.zero_add, Multiset.add_comm] at hadd
        have hsafe (hw' : w = .ilock) : Sound k3 ∧ (k3.dinode y).type ≠ .free := by
          have hsound := (hw hw').1
          refine ⟨hmoved3.sound hsound, ?_⟩
          have hsame := (h1.trans h2).same (j := i) (by simpa using hi.1) hlive
          rw [hinum] at hsame
          have hentry := hmoved2.entry_live hsound (by rw [hsame.1]; exact hsearch.1) hfirst.1 hfirst.2.1.1
          have hkeep := h3.live next hspare
          rw [hnext.2, ← hy] at hkeep
          rw [← hy]
          exact hkeep hentry
        refine (ih hmoved3.intact (h3.refers hnext hspare) hsafe).mono fun r k4 hr => ?_
        cases r with
        | none => exact hmoved3.trans hr
        | some =>
          obtain ⟨h4, t, ds, ht, hwalk, hfree⟩ := hr
          rw [hmoved3.userid] at hwalk
          refine ⟨hmoved3.trans h4, t, x :: ds, ht, .step hsearch hfirst ?_, hfree⟩
          rw [hy]
          exact hmoved3.walks hwalk

def startInum (k : Kernel) (p : Slot) (path : List UInt8) : Option ℕ :=
  if path.head? = some slash then some ROOTINO else (k.pt.proc p).cwd.map fun i => (k.icache i).inum

def CwdHeld (k : Kernel) (p : Slot) : Prop := ∀ i, (k.pt.proc p).cwd = some i → 0 < (k.icache i).ref

theorem start_spec (h : Intact k) (hcwd : CwdHeld k p) (path : List UInt8) :
    (start p path).Wp Op.sem (Fine w) (fun i k' => Moved k 0 k' {i} ∧ k'.dinode = k.dinode ∧
      ∃ x, startInum k p path = some x ∧ Refers k' i x) k := by
  unfold startInum
  refine wp_ite (fun hslash => ?_) fun hslash => ?_
  · refine (iget_spec h ROOTINO).mono fun i k' ⟨hmoved, hrefers, hdinode⟩ => ⟨hmoved, hdinode, ROOTINO, ?_, hrefers⟩
    rw [if_pos hslash]
  · refine wp_call_bind trivial fun (i : Option InodeIdx) k1 hi => ?_
    cases hi
    rw [if_neg hslash]
    generalize hi : (k.pt.proc p).cwd = i
    cases i with
    | none => exact panic_spec
    | some i =>
      refine (idup_spec h (hcwd i hi)).mono fun j k' ⟨hj, hmoved, hrefers, hdinode⟩ => ?_
      subst hj
      exact ⟨hmoved, hdinode, _, rfl, hrefers⟩

/-- A path names `t`; `ds` are the directories on the way, `nm` is the last element where
the path is followed to its parent only. -/
def Resolves (k : Kernel) (p : Slot) (path : CStr) (parent : Bool) (ds : List ℕ) (t : ℕ) (nm : List UInt8) : Prop :=
  ∃ x, startInum k p path.bytes = some x ∧
    Walks k (k.pt.proc p).userid parent (elements path.length path.bytes) x ds t nm

/-- Where every entry names an allocated inode, a lookup starts at one as well. -/
def SoundFor (k : Kernel) (p : Slot) : Prop :=
  Sound k ∧ ∀ path x, startInum k p path = some x → (k.dinode x).type ≠ .free

theorem namex_spec (h : Intact k) (hcwd : CwdHeld k p) (hw : w = .ilock → SoundFor k p) (path : CStr) :
    (namex p path parent).Wp Op.sem (Fine w) (fun r k' => match r with
      | none => Moved k 0 k' 0
      | some (j, nm) => Moved k 0 k' {j} ∧ ∃ ds t, Refers k' j t ∧ Resolves k p path parent ds t nm ∧
          (w = .ilock → (k'.dinode t).type ≠ .free)) k := by
  refine (start_spec h hcwd path.bytes).bind fun i k1 ⟨h1, hdinode, x, hx, hrefers⟩ => ?_
  refine (walk_spec h1.intact hrefers fun hw' => ⟨h1.sound (hw hw').1, ?_⟩).mono fun r k' hr => ?_
  · rw [hdinode]
    exact (hw hw').2 _ x hx
  cases r with
  | none => exact h1.trans hr
  | some =>
    obtain ⟨hmoved, t, ds, ht, hwalks, hfree⟩ := hr
    rw [h1.userid] at hwalks
    exact ⟨h1.trans hmoved, ds, t, ht, ⟨x, hx, h1.walks hwalks⟩, hfree⟩

theorem namei_spec (h : Intact k) (hcwd : CwdHeld k p) (hw : w = .ilock → SoundFor k p) (path : CStr) :
    (namei p path).Wp Op.sem (Fine w) (fun r k' => match r with
      | none => Moved k 0 k' 0
      | some j => Moved k 0 k' {j} ∧ ∃ ds t nm, Refers k' j t ∧ Resolves k p path false ds t nm ∧
          (w = .ilock → (k'.dinode t).type ≠ .free)) k := by
  refine (namex_spec h hcwd hw path).bind fun r k' hr => wp_pure ?_
  cases r with
  | none => exact hr
  | some r =>
    obtain ⟨hmoved, ds, t, ht, hresolves, hfree⟩ := hr
    exact ⟨hmoved, ds, t, r.2, ht, hresolves, hfree⟩

end Xv6.Fs
