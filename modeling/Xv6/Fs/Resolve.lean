import Xv6.Fs.Small
import Xv6.Fs.Sure
import Xv6.Fs.Walking
import Xv6.Lib.Words

/-! # Path names are resolved

The elements of a path are its words between slashes. In a consistent tree of directories
`namex` returns whenever the inode cache has room, and finds what the path leads to.
-/
namespace Xv6.Fs
open Function Prog Kernel List Multiset
open KProg hiding panic

/-! ## The elements of a path -/

def components (path : List UInt8) : List (List UInt8) := (words (· = slash) path).map (List.take DIRSIZ)

theorem components_dropWhile (path : List UInt8) : components (path.dropWhile (· = slash)) = components path :=
  congrArg (List.map _) (words_dropWhile path)

theorem skipelem_eq (path : List UInt8) : skipelem path = none ∧ components path = [] ∨
    ∃ name rest, skipelem path = some (name, rest) ∧ components path = name :: components rest ∧ rest.length < path.length := by
  have hshort := (dropWhile_sublist (l := path) (· = slash)).length_le
  have hhead := head?_dropWhile_not (· = slash) path
  rw [← components_dropWhile path]
  unfold skipelem
  cases hq : path.dropWhile (· = slash) with
  | nil => exact .inl ⟨rfl, rfl⟩
  | cons c cs =>
    rw [hq] at hhead hshort
    have hc : decide (c = slash) = false := by simpa using hhead
    have hnot : (fun x : UInt8 => !decide (x = slash)) = fun x => decide (x ≠ slash) := funext fun x => (decide_not ..).symm
    refine Or.inr ⟨_, _, rfl, ?_, ?_⟩
    · have hwords : words (· = slash) (c :: cs) = (c :: cs).takeWhile (fun x => !decide (x = slash)) ::
          words (· = slash) ((c :: cs).dropWhile (fun x => !decide (x = slash))) := words_cons hc
      rw [components_dropWhile, components, hwords, List.map_cons, hnot]
      rfl
    · have hrest := (dropWhile_sublist (l := (c :: cs).dropWhile (· ≠ slash)) (· = slash)).length_le
      have hne : decide (c ≠ slash) = true := by simpa using hc
      have htail := (dropWhile_sublist (l := cs) (· ≠ slash)).length_le
      rw [dropWhile_cons_of_pos (p := (· ≠ slash)) hne] at hrest ⊢
      rw [length_cons] at hshort
      omega

theorem elements_eq (turns : ℕ) (path : List UInt8) (h : path.length ≤ turns) : elements turns path = components path := by
  induction turns generalizing path with
  | zero =>
    obtain rfl : path = [] := length_eq_zero_iff.mp (by omega)
    rfl
  | succ turns ih =>
    unfold elements
    obtain ⟨hskip, hnone⟩ | ⟨name, rest, hskip, hcons, hlt⟩ := skipelem_eq path
    · rw [hskip, hnone]
    · rw [hskip, hcons]
      exact congrArg (name :: ·) (ih rest (by omega))

/-! ## A consistent tree -/

variable {k k' k'' : Kernel} {i : InodeIdx} {p : Slot} {m : Multiset InodeIdx} {x t : ℕ} {uid : CStr}
  {parent : Bool} {names : List (List UInt8)} {ds : List ℕ} {nm : List UInt8}

/-- A file system at rest. Every entry names an allocated inode, directories consist of whole
entries, and nobody is at work on an inode. -/
structure Tree (k : Kernel) : Prop where
  intact : Intact k
  sound : Sound k
  whole : ∀ x, (k.dinode x).type = .dir → SIZEOF_DIRENT ∣ (k.dinode x).size.toNat
  root : (k.dinode ROOTINO).type ≠ .free ∧ (k.dinode ROOTINO).nlink ≠ 0
  unlocked : ∀ i, locks k i = none

def HasCwd (k : Kernel) (p : Slot) : Prop :=
  ∃ i, (k.pt.proc p).cwd = some i ∧ 0 < (k.icache i).ref ∧ (k.dinode (k.icache i).inum).type ≠ .free

/-- The cache has the references `m` more than `k`, and the disk is the same. -/
structure Borrowed (k : Kernel) (m : Multiset InodeIdx) (k' : Kernel) : Prop where
  moved : Moved k 0 k' m
  disk : OnDisk k k'
  unlocked : ∀ j, locks k' j = none

/-- And the process has entry `i` locked. -/
structure Holding (p : Slot) (k : Kernel) (m : Multiset InodeIdx) (i : InodeIdx) (k' : Kernel) : Prop where
  moved : Moved k 0 k' m
  disk : OnDisk k k'
  sole : locks k' = update (fun _ => none) i (some p)

theorem Borrowed.lock (hk : Borrowed k m k') (hi : Refers k' i x) (hlive : (k.dinode x).type ≠ .free) :
    (ilock p i).Wp Op.sem Sure (fun _ k1 => Holding p k m i k1 ∧ Loaded k1 i ∧ Refers k1 i x ∧ (k1.icache i).d = k.dinode x ∧
      (k1.icache i).ref = (k'.icache i).ref) k' := by
  have hdinode := hk.disk.dinode
  have hinum := hi.2
  have hlive' : (k'.dinode (k'.icache i).inum).type ≠ .free := by rwa [hinum, hdinode]
  refine (ilock_sure hk.moved.intact hi.1 (hk.unlocked i) hlive').mono fun _ k1 ⟨h1, hloaded, hd, hdisk, hlocks⟩ => ?_
  have hspare := h1.spare i
  rw [count_zero] at hspare
  refine ⟨⟨?_, hk.disk.trans hdisk, ?_⟩, hloaded, h1.refers hi ?_, ?_, by omega⟩
  · have hadd := h1.add m
    rw [Multiset.zero_add] at hadd
    exact hk.moved.trans hadd
  · rw [hlocks]
    exact congrArg (update · i (some p)) (funext hk.unlocked)
  · rw [count_zero]
    have hpos := hi.1
    omega
  · rw [hd, hinum, hdinode]

theorem Holding.unlock (hk : Holding p k m i k') (hi : 0 < (k'.icache i).ref) : (iunlock p i).Wp Op.sem Sure (fun _ k1 =>
      Borrowed k m k1 ∧ k1 = k'.setInode i fun ip => { ip with lock := none }) k' := by
  have hlock : locks k' i = some p := by rw [hk.sole, update_self]
  refine (iunlock_sure hi hlock).mono fun _ k1 hk1 => ?_
  subst hk1
  have hset := Moved.setLock (i := i) hk.moved.intact none m
  refine ⟨⟨hk.moved.trans hset, hk.disk.trans ⟨rfl, rfl⟩, fun j => ?_⟩, rfl⟩
  rw [locks_setInode, hk.sole, update_idem]
  exact congrFun (update_eq_self i fun _ => none) j

theorem Borrowed.put (hk : Borrowed k ({i} + m) k')
    (hkeep : (k'.icache i).valid = true → (k'.icache i).d.nlink = 0 → (k'.icache i).ref ≠ 1) :
    (iput p i).Wp Op.sem Sure (fun _ k1 => Borrowed k m k1 ∧ k1 = k'.setInode i fun ip => { ip with ref := ip.ref - 1 }) k' := by
  refine (iput_sure (hk.unlocked i) hkeep).mono fun _ k1 hk1 => ?_
  subst hk1
  have hdrop := (Moved.dropRef (i := i) hk.moved.intact).add m
  rw [Multiset.zero_add] at hdrop
  refine ⟨⟨hk.moved.trans hdrop, hk.disk.trans ⟨rfl, rfl⟩, fun j => ?_⟩, rfl⟩
  rw [locks_setInode_same rfl]
  exact hk.unlocked j

theorem Holding.put (hk : Holding p k ({i} + m) i k') (hi : 0 < (k'.icache i).ref)
    (hkeep : (k'.icache i).d.nlink = 0 → (k'.icache i).ref ≠ 1) :
    (iunlockput p i).Wp Op.sem Sure (fun _ k1 => Borrowed k m k1 ∧
      k1 = k'.setInode i fun ip => { ip with lock := none, ref := ip.ref - 1 }) k' := by
  refine (hk.unlock hi).bind fun _ k1 ⟨h1, hk1⟩ => ?_
  have hkeep1 : (k1.icache i).valid = true → (k1.icache i).d.nlink = 0 → (k1.icache i).ref ≠ 1 := by
    rw [hk1, setInode_self]
    exact fun _ => hkeep
  refine (h1.put hkeep1).mono fun _ k2 ⟨h2, hk2⟩ => ⟨h2, ?_⟩
  rw [hk2, hk1, setInode_setInode]
  rfl

/-! ## Walks -/

theorem FirstNamed.unique (ha : FirstNamed size mem name a) (hb : FirstNamed size mem name b) : a = b := by
  rcases Nat.lt_trichotomy a b with hlt | heq | hlt
  · exact absurd ha.2.1 (hb.2.2 a hlt)
  · exact heq
  · exact absurd hb.2.1 (ha.2.2 b hlt)

theorem walks_cons (h : Walks k uid parent (name :: rest) x ds t nm) :
    Searchable k uid x ∧ ((parent = true ∧ rest = [] ∧ t = x ∧ nm = name) ∨ ∃ n ds',
      FirstNamed (k.dinode x).size (held k x) name n ∧ Walks k uid parent rest (direntAt (held k x) n).inum.toNat ds' t nm) := by
  cases h with
  | last hp hx => exact ⟨hx, .inl ⟨hp, rfl, rfl, rfl⟩⟩
  | step hx hfirst hwalk => exact ⟨hx, .inr ⟨_, _, hfirst, hwalk⟩⟩

/-- How the loop of `namex` ends: with a reference to the inode that the path leads to, or
with none if it leads nowhere. -/
def Arrives (k : Kernel) (p : Slot) (parent : Bool) (names : List (List UInt8)) (x : ℕ) :
    Option (InodeIdx × List UInt8) → Kernel → Prop
  | none, k' => Borrowed k 0 k' ∧ ∀ ds t nm, ¬ Walks k (k.pt.proc p).userid parent names x ds t nm
  | some (j, nm), k' => Borrowed k {j} k' ∧ ∃ ds t, Refers k' j t ∧ (k.dinode t).type ≠ .free ∧
      Walks k (k.pt.proc p).userid parent names x ds t nm

theorem next_entry {next : InodeIdx} (h : Intact k2) (hi : Refers k1 i x)
    (h2 : Moved k1 0 k2 {next}) (hnext : Refers k2 next y) (hself : y = x → 2 ≤ (k1.icache i).ref ∨ (k.dinode y).nlink ≠ 0)
    (hother : y ≠ x → (k.dinode y).nlink ≠ 0) :
    Refers (k2.setInode i fun ip => { ip with lock := none, ref := ip.ref - 1 }) next y ∧
      ((k.dinode y).nlink ≠ 0 ∨
        2 ≤ ((k2.setInode i fun ip => { ip with lock := none, ref := ip.ref - 1 }).icache next).ref) := by
  have hi2 : Refers k2 i x := h2.refers hi (by rw [count_zero]; have hpos := hi.1; omega)
  have hspare := h2.spare i
  rw [count_zero] at hspare
  by_cases heq : next = i
  · subst heq
    obtain rfl : y = x := hnext.2.symm.trans hi2.2
    rw [Multiset.count_singleton_self] at hspare
    have hpos := hi.1
    unfold Refers
    rw [setInode_self]
    refine ⟨⟨?_, hnext.2⟩, ?_⟩
    · dsimp only
      omega
    · rcases hself rfl with htwo | hlink
      · refine .inr ?_
        dsimp only
        omega
      · exact .inl hlink
  · have hne : y ≠ x := by
      rintro rfl
      exact heq (h.unique next i hnext.1 hi2.1 (hnext.2.trans hi2.2.symm))
    unfold Refers
    rw [setInode_of_ne heq]
    exact ⟨hnext, .inl (hother hne)⟩

theorem walk_sure (ht : Tree k) (hk : Borrowed k {i} k') (hi : Refers k' i x) (hlive : (k.dinode x).type ≠ .free)
    (hkeep : (k.dinode x).nlink ≠ 0 ∨ 2 ≤ (k'.icache i).ref) :
    (walk p parent names i).Wp Op.sem Sure (Arrives k p parent names x) k' := by
  induction names generalizing k' i x with
  | nil =>
    refine wp_ite (fun hp => ?_) fun hp => wp_pure ?_
    · have hvalid : (k'.icache i).valid = true → (k'.icache i).d.nlink = 0 → (k'.icache i).ref ≠ 1 := by
        intro hv hzero
        have hsync := (hk.moved.intact.sync i hi.1 hv).1
        rw [hi.2, hk.disk.dinode] at hsync
        rcases hkeep with hlink | htwo
        · rw [hsync] at hlink
          exact absurd hzero hlink
        · omega
      have hk : Borrowed k ({i} + 0) k' := by rwa [Multiset.add_zero]
      refine (hk.put hvalid).bind fun _ k1 ⟨h1, _⟩ => wp_pure ⟨h1, fun ds t nm hwalks => ?_⟩
      cases hwalks with
      | here hp' =>
        rw [hp'] at hp
        cases hp
    · exact ⟨hk, [], x, hi, hlive, .here (by simpa using hp)⟩
  | cons name rest ih =>
    refine (hk.lock hi hlive).bind fun _ k1 ⟨h1, hloaded, hrefers, hd, href⟩ => ?_
    have hkeep1 : (k1.icache i).d.nlink = 0 → (k1.icache i).ref ≠ 1 := by
      rw [hd, href]
      intro hzero
      rcases hkeep with hlink | htwo
      · exact absurd hzero hlink
      · omega
    have hput : (iunlockput p i).Wp Op.sem Sure (fun _ k2 => Borrowed k 0 k2) k1 := by
      have h1' : Holding p k ({i} + 0) i k1 := by rwa [Multiset.add_zero]
      exact (h1'.put hrefers.1 hkeep1).mono fun _ k2 hk2 => hk2.1
    have huid : (k1.pt.proc p).userid = (k.pt.proc p).userid := h1.moved.userid
    refine wp_call_bind (.inl ⟨_, _, rfl⟩) fun (ip : Inode) k2 hip => ?_
    cases hip
    refine wp_ite (fun hdir => hput.bind fun _ k2 h2 => wp_pure ⟨h2, fun ds t nm hwalks => ?_⟩) fun hdir => ?_
    · rw [hd] at hdir
      exact hdir (walks_cons hwalks).1.1
    refine wp_call_bind (.inl ⟨_, _, rfl⟩) fun (ok : Bool) k2 hok => ?_
    cases hok
    rw [hd, huid]
    refine wp_ite (fun hno => hput.bind fun _ k2 h2 => wp_pure ⟨h2, fun ds t nm hwalks => ?_⟩) fun haccess => ?_
    · have hyes := (walks_cons hwalks).1.2
      rw [hyes] at hno
      cases hno
    rw [not_not, hd] at hdir
    have hsearch : Searchable k (k.pt.proc p).userid x := ⟨hdir, by simpa using haccess⟩
    refine wp_ite (fun hlast => ?_) fun hmore => ?_
    · obtain ⟨hparent, rfl⟩ := hlast
      refine (h1.unlock hrefers.1).bind fun _ k2 ⟨h2, hk2⟩ => wp_pure ⟨h2, [x], x, ?_, hlive, .last hparent hsearch⟩
      unfold Refers
      rw [hk2, setInode_self]
      exact hrefers
    · have htable : table k1 i = held k x := by
        unfold table
        rw [hd, h1.disk.block]
      have htabular : Tabular k1 i := ⟨hloaded, by rw [hd]; exact hdir, by rw [hd]; exact ht.whole x hdir⟩
      refine (dirlookup_sure h1.moved.intact htabular).bind fun r k2 hr => ?_
      cases r with
      | none =>
        obtain ⟨rfl, hnone⟩ := hr
        refine hput.bind fun _ k3 h3 => wp_pure ⟨h3, fun ds t nm hwalks => ?_⟩
        obtain ⟨-, ⟨hp, hrest, -⟩ | ⟨n, ds', hfirst, -⟩⟩ := walks_cons hwalks
        · exact hmore ⟨hp, hrest⟩
        · rw [hd, htable] at hnone
          exact hnone n hfirst.1 hfirst.2.1
      | some r =>
        obtain ⟨next, off⟩ := r
        obtain ⟨a, -, hfirst, h2, hnext, hdisk, hlocks, -⟩ := hr
        rw [hd, htable] at hfirst
        rw [htable] at hnext
        have hsound := ht.sound x a hdir hfirst.1 hfirst.2.1.1
        have hother (hne : (direntAt (held k x) a).inum.toNat ≠ x) : (k.dinode (direntAt (held k x) a).inum.toNat).nlink ≠ 0 :=
          hsound.2.resolve_left hne
        have hself (heq : (direntAt (held k x) a).inum.toNat = x) :
            2 ≤ (k1.icache i).ref ∨ (k.dinode (direntAt (held k x) a).inum.toNat).nlink ≠ 0 := by
          rw [href, heq]
          exact hkeep.symm
        have hholding : Holding p k ({i} + {next}) i k2 := by
          refine ⟨?_, h1.disk.trans hdisk, hlocks.trans h1.sole⟩
          have hadd := h2.add {i}
          rw [Multiset.zero_add, Multiset.add_comm] at hadd
          exact h1.moved.trans hadd
        have hpos1 : 0 < (k1.icache i).ref - count i 0 := by
          rw [count_zero]
          have hpos := hrefers.1
          omega
        have hmore2 : (k1.icache i).ref ≤ (k2.icache i).ref := by
          have hspare := h2.spare i
          rw [count_zero] at hspare
          omega
        have hloaded2 : Loaded k2 i := h2.loaded hloaded hpos1
        have hd2 : (k2.icache i).d = k.dinode x := by
          rw [← (h2.intact.sync i hloaded2.1 hloaded2.2).1, h2.inum i hpos1, hrefers.2, hdisk.dinode, h1.disk.dinode]
        have hkeep2 : (k2.icache i).d.nlink = 0 → (k2.icache i).ref ≠ 1 := by
          rw [hd2]
          intro hzero
          rcases hkeep with hlink | htwo
          · exact absurd hzero hlink
          · omega
        refine (hholding.put hloaded2.1 hkeep2).bind fun _ k3 ⟨h3, hk3⟩ => ?_
        obtain ⟨hnext3, hkeep3⟩ := next_entry h2.intact hrefers h2 hnext hself hother
        rw [← hk3] at hnext3 hkeep3
        refine (ih h3 hnext3 hsound.1 hkeep3).mono fun r k4 hr => ?_
        cases r with
        | none =>
          refine ⟨hr.1, fun ds t nm hwalks => ?_⟩
          obtain ⟨-, ⟨hp, hrest, -⟩ | ⟨n, ds', hfirst', hwalks'⟩⟩ := walks_cons hwalks
          · exact hmore ⟨hp, hrest⟩
          · rw [hfirst'.unique hfirst] at hwalks'
            exact hr.2 ds' t nm hwalks'
        | some =>
          obtain ⟨h4, ds, t, hrefers4, hlive4, hwalks⟩ := hr
          exact ⟨h4, x :: ds, t, hrefers4, hlive4, .step hsearch hfirst hwalks⟩

theorem start_sure (ht : Tree k) (hcwd : HasCwd k p) (path : List UInt8) : (start p path).Wp Op.sem Sure (fun i k' =>
      Borrowed k {i} k' ∧ ∃ x, startInum k p path = some x ∧ Refers k' i x ∧ (k.dinode x).type ≠ .free ∧
        ((k.dinode x).nlink ≠ 0 ∨ 2 ≤ (k'.icache i).ref)) k := by
  unfold startInum
  refine wp_ite (fun hslash => ?_) fun hslash => ?_
  · refine (iget_sure ht.intact ROOTINO).mono fun i k' ⟨hmoved, hrefers, hdisk, hlocks, _⟩ => ?_
    refine ⟨⟨hmoved, hdisk, fun j => ?_⟩, ROOTINO, if_pos hslash, hrefers, ht.root.1, .inl ht.root.2⟩
    rw [hlocks]
    exact ht.unlocked j
  · obtain ⟨i, hi, hpos, hlive⟩ := hcwd
    refine wp_call_bind (.inl ⟨_, _, rfl⟩) fun (c : Option InodeIdx) k1 hc => ?_
    cases hc
    rw [hi, if_neg hslash]
    refine wp_call_bind (.inl ⟨_, _, rfl⟩) fun _ k1 hdup => wp_pure ?_
    cases hdup
    refine ⟨⟨.moreRef ht.intact hpos, ⟨rfl, rfl⟩, fun j => ?_⟩, (k.icache i).inum, rfl, ?_, hlive, .inr ?_⟩
    · rw [locks_setInode_same rfl]
      exact ht.unlocked j
    · unfold Refers
      rw [setInode_self]
      exact ⟨by dsimp only; omega, rfl⟩
    · rw [setInode_self]
      dsimp only
      omega

theorem namex_sure (ht : Tree k) (hcwd : HasCwd k p) (path : CStr) : (namex p path parent).Wp Op.sem Sure (fun r k' =>
      ∃ x, startInum k p path.bytes = some x ∧ Arrives k p parent (components path.bytes) x r k') k := by
  refine (start_sure ht hcwd path.bytes).bind fun i k1 ⟨h1, x, hx, hrefers, hlive, hkeep⟩ => ?_
  rw [elements_eq path.length path.bytes le_rfl]
  exact (walk_sure ht h1 hrefers hlive hkeep).mono fun r k' hr => ⟨x, hx, hr⟩

theorem Walks.unique (h : Walks k uid parent names x ds t nm)
    (h' : Walks k uid parent names x ds' t' nm') : t = t' ∧ nm = nm' := by
  induction h generalizing ds' with
  | here =>
    cases h'
    exact ⟨rfl, rfl⟩
  | last hp =>
    obtain ⟨-, ⟨-, -, rfl, rfl⟩ | ⟨n, ds'', -, hnil⟩⟩ := walks_cons h'
    · exact ⟨rfl, rfl⟩
    · cases hnil with
      | here hp' =>
        rw [hp] at hp'
        cases hp'
  | step hx hfirst hwalks ih =>
    obtain ⟨-, ⟨hp, hrest, -, -⟩ | ⟨n, ds'', hfirst', hwalks'⟩⟩ := walks_cons h'
    · subst hrest
      cases hwalks with
      | here hp' =>
        rw [hp] at hp'
        cases hp'
    · rw [hfirst'.unique hfirst] at hwalks'
      exact ih hwalks'

/-- The path leads to inode `t`, through directories that the process may search. -/
def Leads (k : Kernel) (p : Slot) (path : List UInt8) (t : ℕ) : Prop :=
  ∃ x ds, startInum k p path = some x ∧ Walks k (k.pt.proc p).userid false (components path) x ds t []

theorem walks_parent_dir (h : Walks k uid true names x ds t nm) : Searchable k uid t := by
  induction h with
  | here hp => cases hp
  | last hp hx => exact hx
  | step hx hfirst hwalks ih => exact ih

/-- A path leads where the last element leads from its parent. -/
theorem walks_parent (hne : names ≠ []) : (∃ ds, Walks k uid false names x ds t []) ↔
    ∃ ds d nm n, Walks k uid true names x ds d nm ∧ FirstNamed (k.dinode d).size (held k d) nm n ∧
      (direntAt (held k d) n).inum.toNat = t := by
  induction names generalizing x with
  | nil => exact absurd rfl hne
  | cons name rest ih =>
    by_cases hrest : rest = []
    · subst hrest
      constructor
      · rintro ⟨ds, hwalks⟩
        obtain ⟨hx, ⟨hp, -⟩ | ⟨n, ds', hfirst, hwalks'⟩⟩ := walks_cons hwalks
        · cases hp
        · cases hwalks' with
          | here => exact ⟨[x], x, name, n, .last rfl hx, hfirst, rfl⟩
      · rintro ⟨ds, d, nm, n, hwalks, hfirst, rfl⟩
        obtain ⟨hx, ⟨-, -, rfl, rfl⟩ | ⟨n', ds', -, hwalks'⟩⟩ := walks_cons hwalks
        · exact ⟨[d], .step hx hfirst (.here rfl)⟩
        · cases hwalks' with
          | here hp => cases hp
    · constructor
      · rintro ⟨ds, hwalks⟩
        obtain ⟨hx, ⟨hp, -⟩ | ⟨n, ds', hfirst, hwalks'⟩⟩ := walks_cons hwalks
        · cases hp
        · obtain ⟨ds'', d, nm, n', hparent, hlast⟩ := (ih hrest).mp ⟨ds', hwalks'⟩
          exact ⟨x :: ds'', d, nm, n', .step hx hfirst hparent, hlast⟩
      · rintro ⟨ds, d, nm, n, hwalks, hlast⟩
        obtain ⟨hx, ⟨-, hnil, -⟩ | ⟨n', ds', hfirst, hwalks'⟩⟩ := walks_cons hwalks
        · exact absurd hnil hrest
        · obtain ⟨ds'', hwhole⟩ := (ih hrest).mpr ⟨ds', d, nm, n, hwalks', hlast⟩
          exact ⟨x :: ds'', .step hx hfirst hwhole⟩

section Paths
variable {path : List UInt8}

theorem leads_iff (hx : startInum k p path = some x) (hwalks : Walks k (k.pt.proc p).userid false (components path) x ds t []) (y : ℕ) :
    Leads k p path y ↔ y = t := by
  constructor
  · rintro ⟨x', ds', hx', hwalks'⟩
    obtain rfl : x' = x := Option.some.inj (hx'.symm.trans hx)
    exact (hwalks'.unique hwalks).1
  · rintro rfl
    exact ⟨x, ds, hx, hwalks⟩

theorem walks_no_name (h : Walks k uid false names x ds t nm) : nm = [] := by
  induction h with
  | here => rfl
  | last hp => cases hp
  | step hx hfirst hwalks ih => exact ih

/-- The result is a reference to the inode that the path leads to, and none only if it
leads nowhere. -/
def Answers (k : Kernel) (p : Slot) (path : List UInt8) (r : Option InodeIdx) (k' : Kernel) : Prop :=
  (∀ x, (∃ j, r = some j ∧ Refers k' j x) ↔ Leads k p path x) ∧ (r = none ↔ ∀ x, ¬ Leads k p path x)

theorem answers_none (h : ∀ x, ¬ Leads k p path x) : Answers k p path none k' := by
  refine ⟨fun x => ⟨?_, fun hx => absurd hx (h x)⟩, fun _ => h, fun _ => rfl⟩
  rintro ⟨j, hj, -⟩
  cases hj

theorem answers_some (hx : startInum k p path = some x)
    (hwalks : Walks k (k.pt.proc p).userid false (components path) x ds t []) (hrefers : Refers k' i t) :
    Answers k p path (some i) k' := by
  refine ⟨fun y => ?_, ?_, fun hno => absurd ⟨x, ds, hx, hwalks⟩ (hno t)⟩
  · rw [leads_iff hx hwalks]
    constructor
    · rintro ⟨j, hj, hrefers'⟩
      cases hj
      exact hrefers'.2.symm.trans hrefers.2
    · rintro rfl
      exact ⟨i, rfl, hrefers⟩
  · intro hno
    cases hno

theorem lookup_in_parent (ht : Tree k) {d : InodeIdx} (hne : components path ≠ []) (hx : startInum k p path = some x)
    (hk : Borrowed k {d} k') (hrefers : Refers k' d t) (hlive : (k.dinode t).type ≠ .free)
    (hwalks : Walks k (k.pt.proc p).userid true (components path) x ds t nm) :
    (do ilock p d; dirlookup p d nm : KProg _).Wp Op.sem Sure (fun s k'' => (k''.icache d).d.type = .dir ∧
      Answers k p path (s.map Prod.fst) k'') k' := by
  have hdir := (walks_parent_dir hwalks).1
  refine (hk.lock hrefers hlive).bind fun _ k1 ⟨h1, hloaded, hrefers1, hd, _⟩ => ?_
  have hdir1 : (k1.icache d).d.type = .dir := by rwa [hd]
  have htable : table k1 d = held k t := by
    unfold table
    rw [hd, h1.disk.block]
  have htabular : Tabular k1 d := ⟨hloaded, hdir1, by rw [hd]; exact ht.whole t hdir⟩
  refine (dirlookup_sure h1.moved.intact htabular).mono fun s k2 hs => ?_
  cases s with
  | none =>
    obtain ⟨rfl, hnone⟩ := hs
    rw [hd, htable] at hnone
    refine ⟨hdir1, answers_none ?_⟩
    rintro y ⟨x', ds', hx', hwhole⟩
    obtain rfl : x' = x := Option.some.inj (hx'.symm.trans hx)
    obtain ⟨ds'', d', nm', n, hparent, hfirst, -⟩ := (walks_parent hne).mp ⟨ds', hwhole⟩
    obtain ⟨rfl, rfl⟩ := hparent.unique hwalks
    exact hnone n hfirst.1 hfirst.2.1
  | some s =>
    obtain ⟨j, off⟩ := s
    obtain ⟨n, -, hfirst, h2, hj, hdisk, -⟩ := hs
    rw [hd, htable] at hfirst
    rw [htable] at hj
    obtain ⟨ds', hwhole⟩ := (walks_parent hne).mpr ⟨ds, t, nm, n, hwalks, hfirst, rfl⟩
    refine ⟨?_, answers_some hx hwhole hj⟩
    have hpos : 0 < (k1.icache d).ref - count d 0 := by
      rw [count_zero]
      have hpos := hrefers1.1
      omega
    have hloaded2 := h2.loaded hloaded hpos
    rw [← (h2.intact.sync d hloaded2.1 hloaded2.2).1, h2.inum d hpos, hrefers1.2, hdisk.dinode, h1.disk.dinode]
    exact hdir

end Paths

/-- `namei` finds exactly what the path leads to. `nameiparent` fails only if it leads
nowhere, and finds otherwise a directory in which the last element is looked up with the
same result. -/
theorem namei_resolves (ht : Tree k) (hcwd : HasCwd k p) (path : CStr) :
    Ends (namei p path) k (Answers k p path.bytes) ∧
    (components path.bytes ≠ [] → Ends (nameiparent p path) k (fun r k' =>
      (r = none → ∀ x, ¬ Leads k p path.bytes x) ∧
      ∀ d nm, r = some (d, nm) → Ends (do ilock p d; dirlookup p d nm) k' (fun s k'' =>
        (k''.icache d).d.type = .dir ∧ Answers k p path.bytes (s.map Prod.fst) k''))) := by
  constructor
  · refine ends_of_sure ((namex_sure ht hcwd path).bind fun r k' ⟨x, hx, hr⟩ => wp_pure ?_)
    cases r with
    | none =>
      refine answers_none ?_
      rintro y ⟨x', ds, hx', hwalks⟩
      obtain rfl : x' = x := Option.some.inj (hx'.symm.trans hx)
      exact hr.2 ds y [] hwalks
    | some r =>
      obtain ⟨j, nm⟩ := r
      obtain ⟨-, ds, t, hrefers, -, hwalks⟩ := hr
      obtain rfl := walks_no_name hwalks
      exact answers_some hx hwalks hrefers
  · refine fun hne => ends_of_sure ((namex_sure ht hcwd path).mono fun r k' ⟨x, hx, hr⟩ => ?_)
    cases r with
    | none =>
      constructor
      · rintro - y ⟨x', ds, hx', hwalks⟩
        obtain rfl : x' = x := Option.some.inj (hx'.symm.trans hx)
        obtain ⟨ds', d, nm, n, hparent, -⟩ := (walks_parent hne).mp ⟨ds, hwalks⟩
        exact hr.2 ds' d nm hparent
      · intro d nm hsome
        cases hsome
    | some r =>
      obtain ⟨d, nm⟩ := r
      obtain ⟨hk, ds, t, hrefers, hlive, hwalks⟩ := hr
      constructor
      · intro hno
        cases hno
      · intro d' nm' hsome
        cases hsome
        exact ends_of_sure (lookup_in_parent ht hne hx hk hrefers hlive hwalks)

theorem oneDir_tree : Tree (oneDir none l) := by
  have hroot : (oneDir none l).dinode ROOTINO = Dinode.oneBlock { type := .dir, nlink := 1, size := 16, userid := root, mode := MODE_XUSR } 5 := rfl
  have hlive : ((oneDir none l).dinode ROOTINO).type ≠ .free := by rw [hroot]; simp [Dinode.oneBlock]
  have hdir {x : ℕ} (hx : ((oneDir none l).dinode x).type = .dir) : x = ROOTINO :=
    oneDir_live (l := l) (by rw [hx]; simp : ((oneDir none l).dinode x).type ≠ .free)
  refine ⟨oneDir_intact, fun x n hx hn hused => ?_, fun x hx => ?_, ⟨hlive, by rw [hroot]; decide⟩, fun i => ?_⟩
  · obtain rfl := hdir hx
    have hone : slots ((oneDir none l).dinode ROOTINO).size = 1 := by
      rw [hroot]
      decide
    obtain rfl : n = 0 := by omega
    have hself : (direntAt (held (oneDir none ⟨30, 0, false, []⟩) ROOTINO) 0).inum.toNat = ROOTINO := by decide +kernel
    have hself : (direntAt (held (oneDir none l) ROOTINO) 0).inum.toNat = ROOTINO := hself
    rw [hself]
    exact ⟨hlive, .inl rfl⟩
  · obtain rfl := hdir hx
    exact (by decide : SIZEOF_DIRENT ∣ (16#32).toNat)
  · unfold locks oneDir
    dsimp only
    split_ifs
    · rfl
    · rfl

/-- In a root directory with an entry for itself. -/
theorem namei_resolves_dot : Tree (oneDir none ⟨30, 0, false, []⟩) ∧ HasCwd (oneDir none ⟨30, 0, false, []⟩) 0 ∧
    Leads (oneDir none ⟨30, 0, false, []⟩) 0 (CStr.ofString "./").bytes ROOTINO ∧
    Ends (namei 0 (CStr.ofString "./")) (oneDir none ⟨30, 0, false, []⟩)
      (Answers (oneDir none ⟨30, 0, false, []⟩) 0 (CStr.ofString "./").bytes) := by
  have hcwd : HasCwd (oneDir none ⟨30, 0, false, []⟩) 0 := ⟨0, rfl, by decide, oneDir_tree.root.1⟩
  have hname : FirstNamed ((oneDir none ⟨30, 0, false, []⟩).dinode ROOTINO).size (held (oneDir none ⟨30, 0, false, []⟩) ROOTINO) [46] 0 :=
    ⟨by decide, ⟨by decide +kernel, by decide +kernel⟩, fun b hb => by omega⟩
  refine ⟨oneDir_tree, hcwd, ⟨ROOTINO, [ROOTINO], rfl, .step ⟨rfl, by decide +kernel⟩ hname (.here rfl)⟩, ?_⟩
  exact (namei_resolves oneDir_tree hcwd (CStr.ofString "./")).1

end Xv6.Fs
