import Xv6.Fs.Lookup
import Xv6.Mkfs.Append

/-! # The files of the image

From the empty image on, every file of the image holds what has been appended to it, and
has the blocks for it, in order.
-/
namespace Xv6
open Function Comp Mem Fs List

theorem Dinode.addr_of_addrs {d d' : Dinode} (h : d'.addrs = d.addrs) (block : Word → Mem) :
    d'.addr block = d.addr block := by
  funext r
  cases r with
  | direct | indirect => exact congrFun h _
  | entry => simp only [Dinode.addr, h]

namespace Mkfs

variable {s s' : Build} {node node' : ℕ → Dinode} {mem : ℕ → Mem} {fills : ℕ → Set BlockRef} {inum : ℕ}

namespace Holds

theorem of_blocks (h : Holds s node mem fills)
    (hnode : ∀ j, (node' j).type = (node j).type ∧ (node' j).addrs = (node j).addrs)
    (himage : ∀ a : Word, nmeta ≤ a.toNat → s'.image a = s.image a) (hfree : s'.freeblock = s.freeblock) :
    Holds s' node' mem fills := by
  have haddr (j : ℕ) (hj : (node j).type ≠ .free) : (node' j).addr s'.image = (node j).addr s.image := by
    refine (Dinode.addr_of_addrs (hnode j).2 s'.image).trans (Dinode.addr_congr fun hi => himage _ ?_)
    exact (h.addr_bounds hj hi).1
  have hlive {j : ℕ} (hj : (node' j).type ≠ .free) : (node j).type ≠ .free := (hnode j).1 ▸ hj
  have howner : owner node' s'.image = owner node s.image :=
    funext fun x => owner_congr (hnode x.1).1 fun hj => congrFun (haddr x.1 hj) x.2
  have hlow := h.low
  refine ⟨?_, by omega, hfree ▸ h.high, fun a ha o => ?_, fun j hj => ?_, fun j hj r => ?_⟩
  · rw [howner, hfree]
    exact h.ledger
  · rw [himage a (by omega)]
    exact h.blank a (by omega) o
  · rw [← h.contents j (hlive hj)]
    exact Dinode.contents_congr (haddr j (hlive hj)) fun r _ hr => himage _ (h.addr_bounds (hlive hj) hr).1
  · rw [haddr j (hlive hj)]
    exact h.places j (hlive hj) r

/-- An inode without blocks becomes allocated. -/
theorem add (inum : ℕ) (d : Dinode) (h : Holds s node mem fills) (hfree : (node inum).type = .free) (hd : d.addrs = fun _ => 0)
    (hmem : mem inum = fun _ => 0) (hfills : fills inum = ∅) : Holds s (update node inum d) mem fills := by
  have hzero (r : BlockRef) : d.addr s.image r = 0 := by
    cases r with
    | direct | indirect => exact congrFun hd _
    | entry => exact if_pos (congrFun hd _)
  have howner : owner (update node inum d) s.image = owner node s.image := by
    funext x
    by_cases hx : x.1 = inum
    · rw [owner, owner, hx, update_self, if_pos (.inr (hzero _)), if_pos (.inl hfree)]
    · rw [owner, owner, update_of_ne hx]
  refine ⟨howner ▸ h.ledger, h.low, h.high, h.blank, fun j hj => ?_, fun j hj r => ?_⟩
  · by_cases hji : j = inum
    · subst hji
      rw [update_self, hmem]
      funext o
      unfold Dinode.contents
      split
      · exact if_pos (hzero _)
      · rfl
    · rw [update_of_ne hji] at hj ⊢
      exact h.contents j hj
  · by_cases hji : j = inum
    · subst hji
      rw [update_self, hfills, hzero]
      exact ⟨fun hne => (hne rfl).elim, fun hr => hr.elim⟩
    · rw [update_of_ne hji] at hj ⊢
      exact h.places j hj r

end Holds

/-- The root directory is the first inode, and the files come after it. -/
def kind (inum : ℕ) : InodeType := if inum = ROOTINO then .dir else .file

/-- The inodes that have been made hold `held`. -/
structure Built (s : Build) (held : ℕ → List UInt8) : Prop where
  holds : Holds s (nodeOf s.image) (fun j => Mem.write (fun _ => 0) 0 (held j))
    (fun j => needed (blocksFor (held j).length))
  inode : ∀ j, 0 < j → j < s.freeinode → ∃ addrs, nodeOf s.image j =
    { newInode (kind j) with size := BitVec.ofNat 32 (held j).length, addrs := addrs }
  small : ∀ j, (held j).length ≤ MAXFILE * BSIZE
  free : ∀ j, j = 0 ∨ s.freeinode ≤ j → (nodeOf s.image j).type = .free
  pos : 0 < s.freeinode
  count : s.freeinode ≤ NINODES
  sb : s.image 1 = Mem.write (fun _ => 0) 0 superblock

variable {held : ℕ → List UInt8}

theorem sb_lt : (1 : Word).toNat < inodestart := by decide

theorem kind_ne_free (inum : ℕ) : kind inum ≠ .free := by
  unfold kind
  split <;> nofun

theorem needed_zero : needed (blocksFor ([] : List UInt8).length) = ∅ :=
  Set.eq_empty_of_forall_notMem fun r hr => Nat.not_lt_zero r.first hr

theorem root_length : root.length ≤ USERID := by decide

theorem ialloc_run (h : Built s held) (hcount : s.freeinode < NINODES) (hheld : held s.freeinode = []) :
    ∃ s', ialloc (kind s.freeinode) s = .ok (s.freeinode, s') ∧ Built s' held ∧ s'.freeinode = s.freeinode + 1 ∧
      s'.freeblock = s.freeblock := by
  obtain ⟨image, hrun, hnode, himage⟩ := winode_run { s with freeinode := s.freeinode + 1 } s.freeinode
    (newInode (kind s.freeinode)) hcount root_length
  have hdata (a : Word) (ha : nmeta ≤ a.toNat) : image a = s.image a :=
    himage a (.inr (bmapstart_lt.le.trans ha))
  refine ⟨{ s with image := image, freeinode := s.freeinode + 1 }, ?_, ⟨?_, fun j h0 h1 => ?_, h.small, fun j hj => ?_,
    Nat.succ_pos _, hcount, (himage 1 (.inl sb_lt)).trans h.sb⟩, rfl, rfl⟩
  · rw [ialloc, bind_of_ok (get_apply s), bind_of_ok (modify_apply _ s), bind_of_ok hrun]
    rfl
  · have hadd := h.holds.add s.freeinode (newInode (kind s.freeinode)) (h.free _ (.inr le_rfl)) rfl
      (by rw [hheld]; exact funext fun x => write_outside (by rw [length_nil]; omega))
      (by rw [hheld]; exact needed_zero)
    refine hadd.of_blocks (fun j => ?_) hdata rfl
    dsimp only
    rw [hnode]
    exact ⟨rfl, rfl⟩
  · dsimp only at h1 ⊢
    rw [hnode]
    by_cases hj : j = s.freeinode
    · subst hj
      rw [update_self, hheld]
      exact ⟨fun _ => 0, rfl⟩
    · rw [update_of_ne hj]
      exact h.inode j h0 (by omega)
  · have hpos := h.pos
    dsimp only at hj ⊢
    rw [hnode, update_of_ne (by omega)]
    exact h.free j (by omega)

theorem iappend_run (inum : ℕ) (p : List UInt8) (h : Built s held) (hpos : 0 < inum) (hlt : inum < s.freeinode)
    (hmax : (held inum ++ p).length ≤ MAXFILE * BSIZE)
    (hroom : s.freeblock + cost (blocksFor (held inum ++ p).length) ≤ FSSIZE + cost (blocksFor (held inum).length)) :
    ∃ s', iappend inum p s = .ok ((), s') ∧ Built s' (update held inum (held inum ++ p)) ∧
      s'.freeinode = s.freeinode ∧
      s'.freeblock + cost (blocksFor (held inum).length) = s.freeblock + cost (blocksFor (held inum ++ p).length) := by
  have hin : inum < NINODES := hlt.trans_le h.count
  obtain ⟨addrs, hinode⟩ := h.inode inum hpos hlt
  have hlive : (nodeOf s.image inum).type ≠ .free := by
    rw [hinode]
    exact kind_ne_free inum
  have hsize : (nodeOf s.image inum).size.toNat = (held inum).length := by
    have hsmall := h.small inum
    have hbound : MAXFILE * BSIZE < 2 ^ 32 := by decide
    rw [hinode]
    exact Nat.mod_eq_of_lt (by omega)
  rw [length_append] at hmax hroom ⊢
  obtain ⟨d, s1, hrun, hgrew⟩ := appendLoop_run p.length _ p h.holds hlive rfl le_rfl hmax hroom
  obtain ⟨addrs', hfields⟩ := hgrew.fields
  have hd : ({ d with size := BitVec.ofNat 32 ((held inum).length + p.length) } : Dinode) =
      { newInode (kind inum) with size := BitVec.ofNat 32 ((held inum).length + p.length), addrs := addrs' } := by
    rw [hfields, hinode]
  obtain ⟨image, hrun', hnode, himage⟩ := winode_run s1 inum
    { d with size := BitVec.ofNat 32 ((held inum).length + p.length) } hin (by rw [hd]; exact root_length)
  rw [hgrew.kept.nodeOf] at hnode
  have hheld : (fun j => write (fun _ => 0) 0 (update held inum (held inum ++ p) j)) =
      update (fun j => write (fun _ => 0) 0 (held j)) inum
        ((write (fun _ => 0) 0 (held inum)).write (held inum).length p) := by
    funext j
    by_cases hj : j = inum
    · subst hj
      rw [update_self, update_self, write_append, Nat.zero_add]
    · rw [update_of_ne hj, update_of_ne hj]
  have hfills : (fun j => needed (blocksFor (update held inum (held inum ++ p) j).length)) =
      update (fun j => needed (blocksFor (held j).length)) inum
        (needed (blocksFor ((held inum).length + p.length))) := by
    funext j
    by_cases hj : j = inum
    · subst hj
      rw [update_self, update_self, length_append]
    · rw [update_of_ne hj, update_of_ne hj]
  refine ⟨{ s1 with image := image }, ?_, ⟨?_, fun j h0 h1 => ?_, fun j => ?_, fun j hj => ?_, ?_, ?_, ?_⟩, ?_, ?_⟩
  · rw [iappend, bind_of_ok (rinode_run hin), hsize, bind_of_ok hrun]
    exact hrun'
  · rw [hheld, hfills]
    refine hgrew.holds.of_blocks (fun j => ?_) (fun a ha => himage a (.inr (bmapstart_lt.le.trans ha))) rfl
    dsimp only
    rw [hnode]
    by_cases hj : j = inum
    · subst hj
      rw [update_self, update_self]
      exact ⟨rfl, rfl⟩
    · rw [update_of_ne hj, update_of_ne hj]
      exact ⟨rfl, rfl⟩
  · dsimp only at h1 ⊢
    rw [hnode]
    by_cases hj : j = inum
    · subst hj
      rw [update_self, update_self, length_append, hd]
      exact ⟨addrs', rfl⟩
    · rw [update_of_ne hj, update_of_ne hj]
      exact h.inode j h0 (hgrew.kept.freeinode ▸ h1)
  · by_cases hj : j = inum
    · subst hj
      rw [update_self, length_append]
      exact hmax
    · rw [update_of_ne hj]
      exact h.small j
  · dsimp only at hj ⊢
    rw [hgrew.kept.freeinode] at hj
    rw [hnode, update_of_ne (by omega)]
    exact h.free j hj
  · exact hgrew.kept.freeinode ▸ h.pos
  · exact hgrew.kept.freeinode ▸ h.count
  · have hmeta : (1 : Word).toNat < nmeta := by decide
    exact (himage 1 (.inl sb_lt)).trans ((hgrew.kept.image 1 hmeta).trans h.sb)
  · exact hgrew.kept.freeinode
  · exact hgrew.taken

/-- The blocks for `n` bytes, with the indirect block. -/
def blockCost (n : ℕ) : ℕ := cost (blocksFor n)

theorem blockCost_mono (h : n ≤ n') : blockCost n ≤ blockCost n' := cost_mono (blocksFor_mono h)

theorem appendAll_run (inum : ℕ) (bufs : List (List UInt8)) (h : Built s held) (hpos : 0 < inum) (hlt : inum < s.freeinode)
    (hmax : (held inum ++ bufs.flatten).length ≤ MAXFILE * BSIZE)
    (hroom : s.freeblock + blockCost (held inum ++ bufs.flatten).length ≤ FSSIZE + blockCost (held inum).length) :
    ∃ s', appendAll inum bufs s = .ok ((), s') ∧ Built s' (update held inum (held inum ++ bufs.flatten)) ∧
      s'.freeinode = s.freeinode ∧
      s'.freeblock + blockCost (held inum).length = s.freeblock + blockCost (held inum ++ bufs.flatten).length := by
  induction bufs generalizing s held with
  | nil =>
    refine ⟨s, rfl, ?_, rfl, ?_⟩
    · rw [flatten_nil, append_nil, update_eq_self]
      exact h
    · rw [flatten_nil, append_nil]
  | cons buf bufs ih =>
    rw [flatten_cons, ← append_assoc] at hmax hroom ⊢
    have hle : (held inum ++ buf).length ≤ (held inum ++ buf ++ bufs.flatten).length := by
      have hlen : (held inum ++ buf ++ bufs.flatten).length = (held inum ++ buf).length + bufs.flatten.length :=
        length_append
      omega
    have hcost := blockCost_mono hle
    obtain ⟨s1, hrun, hbuilt, hinode, htaken⟩ := iappend_run inum buf h hpos hlt (hle.trans hmax)
      (by unfold blockCost at *; omega)
    have hself : update held inum (held inum ++ buf) inum = held inum ++ buf := update_self ..
    obtain ⟨s', hrun', hbuilt', hinode', htaken'⟩ := ih hbuilt (hinode ▸ hlt) (by rw [hself]; exact hmax)
      (by rw [hself]; unfold blockCost at *; omega)
    rw [hself] at hbuilt' htaken'
    rw [update_idem] at hbuilt'
    refine ⟨s', ?_, hbuilt', hinode'.trans hinode, ?_⟩
    · rw [appendAll, bind_of_ok hrun]
      exact hrun'
    · unfold blockCost at *
      omega

/-- The directory entries of the files, from inode `inum` on. -/
def dirBytes : (inum : ℕ) → List Input → List UInt8
  | _, [] => []
  | inum, f :: rest => Fs.direntBytes (BitVec.ofNat 16 inum) f.entry ++ dirBytes (inum + 1) rest

theorem dirBytes_length (inum : ℕ) (files : List Input) : (dirBytes inum files).length = SIZEOF_DIRENT * files.length := by
  induction files generalizing inum with
  | nil => rfl
  | cons f rest ih =>
    rw [dirBytes, length_append, direntBytes_length, ih, length_cons, Nat.mul_succ, Nat.add_comm]

/-- A file that `mkfs` takes: its name has no slash, it can be opened, and it is not too large. -/
structure Input.Good (f : Input) : Prop where
  noslash : Fs.slash ∉ f.name.bytes
  opens : f.reads.isSome = true
  small : f.bytes.length ≤ MAXFILE * BSIZE

theorem addFile_run (h : Built s held) (hroot : ROOTINO < s.freeinode) (hcount : s.freeinode < NINODES)
    (hfresh : held s.freeinode = []) (hf : f.Good) (hmax : (held ROOTINO).length + SIZEOF_DIRENT ≤ MAXFILE * BSIZE)
    (hroom : s.freeblock + blockCost ((held ROOTINO).length + SIZEOF_DIRENT) + blockCost f.bytes.length ≤
      FSSIZE + blockCost (held ROOTINO).length) : ∃ s', addFile ROOTINO f s = .ok ((), s') ∧
      Built s' (update (update held ROOTINO
        (held ROOTINO ++ direntBytes (BitVec.ofNat 16 s.freeinode) f.entry)) s.freeinode f.bytes) ∧
      s'.freeinode = s.freeinode + 1 ∧ s'.freeblock + blockCost (held ROOTINO).length =
        s.freeblock + blockCost ((held ROOTINO).length + SIZEOF_DIRENT) + blockCost f.bytes.length := by
  obtain ⟨bufs, hbufs⟩ := Option.isSome_iff_exists.mp hf.opens
  have hbytes : f.bytes = bufs.flatten := by rw [Input.bytes, hbufs]; rfl
  have hkind : kind s.freeinode = .file := if_neg hroot.ne'
  have hlen : (held ROOTINO ++ direntBytes (BitVec.ofNat 16 s.freeinode) f.entry).length =
      (held ROOTINO).length + SIZEOF_DIRENT := by rw [length_append, direntBytes_length]
  obtain ⟨s1, hrun1, hbuilt1, hinode1, hblock1⟩ := ialloc_run h hcount hfresh
  rw [hkind] at hrun1
  obtain ⟨s2, hrun2, hbuilt2, hinode2, htaken2⟩ := iappend_run ROOTINO
    (direntBytes (BitVec.ofNat 16 s.freeinode) f.entry) hbuilt1 (by decide) (by omega) (hlen ▸ hmax)
    (by rw [hlen]; unfold blockCost at *; omega)
  have hempty : update held ROOTINO (held ROOTINO ++ direntBytes (BitVec.ofNat 16 s.freeinode) f.entry)
      s.freeinode = [] := by rw [update_of_ne hroot.ne', hfresh]
  rw [hlen] at htaken2
  have hzero : blockCost ([] : List UInt8).length = 0 := rfl
  obtain ⟨s3, hrun3, hbuilt3, hinode3, htaken3⟩ := appendAll_run s.freeinode bufs hbuilt2 h.pos
    (by omega) (by rw [hempty, nil_append, ← hbytes]; exact hf.small)
    (by rw [hempty, nil_append, ← hbytes, hzero]; unfold blockCost at *; omega)
  rw [hempty, nil_append, ← hbytes] at hbuilt3 htaken3
  refine ⟨s3, ?_, hbuilt3, by omega, ?_⟩
  · rw [addFile, if_neg hf.noslash, hbufs]
    dsimp only
    rw [bind_of_ok hrun1, bind_of_ok hrun2]
    exact hrun3
  · unfold blockCost at *
    omega

def filesCost (files : List Input) : ℕ := (files.map fun f => blockCost f.bytes.length).sum

theorem addFiles_run (files : List Input) (h : Built s held) (hroot : ROOTINO < s.freeinode)
    (hcount : s.freeinode + files.length ≤ NINODES) (hfresh : ∀ j, s.freeinode ≤ j → held j = [])
    (hgood : ∀ f ∈ files, f.Good)
    (hmax : (held ROOTINO).length + SIZEOF_DIRENT * files.length ≤ MAXFILE * BSIZE)
    (hroom : s.freeblock + blockCost ((held ROOTINO).length + SIZEOF_DIRENT * files.length) + filesCost files ≤
      FSSIZE + blockCost (held ROOTINO).length) :
    ∃ s' held', addFiles ROOTINO files s = .ok ((), s') ∧ Built s' held' ∧
      s'.freeinode = s.freeinode + files.length ∧ held' ROOTINO = held ROOTINO ++ dirBytes s.freeinode files ∧
      (∀ i (hi : i < files.length), held' (s.freeinode + i) = files[i].bytes) ∧
      (∀ j, j ≠ ROOTINO → j < s.freeinode → held' j = held j) ∧
      ∀ j, s.freeinode + files.length ≤ j → held' j = [] := by
  induction files generalizing s held with
  | nil => exact ⟨s, held, rfl, h, rfl, (append_nil _).symm, fun i hi => (Nat.not_lt_zero i hi).elim,
    fun _ _ _ => rfl, hfresh⟩
  | cons f rest ih =>
    rw [length_cons] at hcount hmax hroom
    have hsum : filesCost (f :: rest) = blockCost f.bytes.length + filesCost rest := sum_cons
    have hstep : (held ROOTINO).length + SIZEOF_DIRENT + SIZEOF_DIRENT * rest.length =
        (held ROOTINO).length + SIZEOF_DIRENT * (rest.length + 1) := by
      rw [Nat.mul_succ]
      omega
    have hcost : blockCost ((held ROOTINO).length + SIZEOF_DIRENT) ≤
      blockCost ((held ROOTINO).length + SIZEOF_DIRENT * (rest.length + 1)) := blockCost_mono (by omega)
    obtain ⟨s1, hrun1, hbuilt1, hinode1, htaken1⟩ := addFile_run h hroot (by omega) (hfresh _ le_rfl)
      (hgood f mem_cons_self) (by omega) (by omega)
    have hdir : update (update held ROOTINO
        (held ROOTINO ++ direntBytes (BitVec.ofNat 16 s.freeinode) f.entry)) s.freeinode f.bytes ROOTINO =
        held ROOTINO ++ direntBytes (BitVec.ofNat 16 s.freeinode) f.entry := by
      rw [update_of_ne hroot.ne, update_self]
    have hlen : (held ROOTINO ++ direntBytes (BitVec.ofNat 16 s.freeinode) f.entry).length =
        (held ROOTINO).length + SIZEOF_DIRENT := by rw [length_append, direntBytes_length]
    obtain ⟨s', held', hrun, hbuilt, hinode, hroot', hfiles, hold, hrest⟩ := ih hbuilt1 (by omega) (by omega)
      (fun j hj => by
        rw [update_of_ne (by omega), update_of_ne (by omega)]
        exact hfresh j (by omega))
      (fun f' hf' => hgood f' (mem_cons_of_mem _ hf'))
      (by rw [hdir, hlen, hstep]; exact hmax) (by rw [hdir, hlen, hstep]; omega)
    refine ⟨s', held', ?_, hbuilt, ?_, ?_, fun i hi => ?_, fun j hj hlt => ?_, fun j hj => hrest j ?_⟩
    · rw [addFiles, bind_of_ok hrun1]
      exact hrun
    · rw [length_cons]
      omega
    · rw [hroot', hdir, hinode1, append_assoc]
      rfl
    · cases i with
      | zero =>
        rw [Nat.add_zero, hold _ hroot.ne' (by omega), update_self]
        rfl
      | succ i =>
        rw [show s.freeinode + (i + 1) = s1.freeinode + i by omega]
        exact hfiles i (Nat.lt_of_succ_lt_succ hi)
    · rw [hold j hj (by omega), update_of_ne (by omega), update_of_ne hj]
    · rw [length_cons] at hj
      omega

/-- The command line fits the image: there are inodes and blocks for it. -/
structure Fits (files : List Input) : Prop where
  good : ∀ f ∈ files, f.Good
  inodes : files.length + 2 ≤ NINODES
  blocks : nmeta + blockCost (Fs.SIZEOF_DIRENT * (files.length + 2)) + filesCost files ≤ FSSIZE

/-- The first two entries of the root directory. -/
def dots : List UInt8 :=
  Fs.direntBytes (BitVec.ofNat 16 ROOTINO) dot ++ Fs.direntBytes (BitVec.ofNat 16 ROOTINO) dotdot

def fileBytes (files : List Input) (inum : ℕ) : List UInt8 :=
  if inum = ROOTINO then dots ++ dirBytes 2 files
  else if inum < 2 then []
  else ((files[inum - 2]?).map Input.bytes).getD []

def rootSize (files : List Input) : ℕ := (Fs.SIZEOF_DIRENT * (files.length + 2) / BSIZE + 1) * BSIZE

theorem dots_length : dots.length = SIZEOF_DIRENT * 2 := by
  rw [dots, length_append, direntBytes_length, direntBytes_length, Nat.mul_two]

theorem root_bytes_length (files : List Input) :
    (fileBytes files ROOTINO).length = SIZEOF_DIRENT * (files.length + 2) := by
  rw [fileBytes, if_pos rfl, length_append, dots_length, dirBytes_length, Nat.mul_add, Nat.add_comm]

/-- The image as `mkfs` leaves it. -/
structure Image (files : List Input) (s : Build) : Prop where
  holds : Holds s (nodeOf s.image) (fun j => Mem.write (fun _ => 0) 0 (fileBytes files j))
    (fun j => needed (blocksFor (fileBytes files j).length))
  root : ∃ addrs, nodeOf s.image ROOTINO =
    { newInode .dir with size := BitVec.ofNat 32 (rootSize files), addrs := addrs }
  file : ∀ i (hi : i < files.length), ∃ addrs, nodeOf s.image (i + 2) =
    { newInode .file with size := BitVec.ofNat 32 files[i].bytes.length, addrs := addrs }
  free : ∀ j, j = 0 ∨ files.length + 2 ≤ j → (nodeOf s.image j).type = .free
  map : s.image (BitVec.ofNat 32 bmapstart) = freeMap s.freeblock
  sb : s.image 1 = Mem.write (fun _ => 0) 0 superblock

theorem nodeOf_zero (h : ∀ a : Word, inodestart ≤ a.toNat → a.toNat < bmapstart → s.image a = fun _ => 0) (j : ℕ) :
    (nodeOf s.image j).type = .free := by
  unfold nodeOf
  split
  case isTrue hlt =>
    rw [h _ (by rw [iblock_toNat hlt]; exact Nat.le_add_left ..) (iblock_lt hlt)]
    have hzero (a : ℕ) : halfword (fun _ => 0) a = 0 := by
      unfold halfword
      dsimp only
      decide
    dsimp only [dinodeAt]
    rw [hzero]
    rfl
  case isFalse => rfl

theorem built_empty : Built (Build.empty.put 1 (write (fun _ => 0) 0 superblock)) fun _ => [] := by
  have hsame (a : Word) (ha : inodestart ≤ a.toNat) :
      (Build.empty.put 1 (write (fun _ => 0) 0 superblock)).image a = fun _ => 0 := by
    refine Build.put_of_ne ?_ ..
    rintro rfl
    exact absurd ha (Nat.not_le.mpr sb_lt)
  have hfree (j : ℕ) := nodeOf_zero (fun a ha _ => hsame a ha) j
  have hstart : inodestart ≤ nmeta := by decide
  have hnone (x : ℕ × BlockRef) : owner (nodeOf (Build.empty.put 1 (write (fun _ => 0) 0 superblock)).image)
      (Build.empty.put 1 (write (fun _ => 0) 0 superblock)).image x = none := if_pos (.inl (hfree _))
  refine ⟨⟨⟨fun b => ⟨.inl, ?_⟩, fun x y b hx => ?_, fun x b hx => ?_, fun b hb => hb.elim⟩, le_rfl, nmeta_lt.le,
    fun a ha o => ?_, fun j hj => (hj (hfree j)).elim, fun j hj => (hj (hfree j)).elim⟩,
    fun j h0 h1 => ?_, fun _ => Nat.zero_le _, fun j _ => hfree j, Nat.one_pos, by decide, ?_⟩
  · rintro (hb | hb | ⟨x, hx⟩)
    · exact hb
    · exact hb.elim
    · rw [hnone] at hx
      cases hx
  · rw [hnone] at hx
    cases hx
  · rw [hnone] at hx
    cases hx
  · rw [hsame a (hstart.trans ha)]
  · exact absurd h1 (Nat.not_lt.mpr h0)
  · exact Build.put_self ..

theorem balloc_run (h : used < BSIZE * 8) :
    balloc used s = .ok ((), s.put (BitVec.ofNat 32 bmapstart) (freeMap used)) := by
  rw [balloc, if_pos h]
  rfl

theorem root_run : ∃ s1 s2 s3, ialloc .dir (Build.empty.put 1 (write (fun _ => 0) 0 superblock)) = .ok (ROOTINO, s1) ∧
    iappend ROOTINO (direntBytes (BitVec.ofNat 16 ROOTINO) dot) s1 = .ok ((), s2) ∧
    iappend ROOTINO (direntBytes (BitVec.ofNat 16 ROOTINO) dotdot) s2 = .ok ((), s3) ∧
    Built s3 (update (fun _ => []) ROOTINO dots) ∧ s3.freeinode = 2 ∧
    s3.freeblock = nmeta + blockCost (SIZEOF_DIRENT * 2) := by
  have hone : (direntBytes (BitVec.ofNat 16 ROOTINO) dot).length = SIZEOF_DIRENT := direntBytes_length
  have htwo := dots_length
  have hcosts : blockCost 0 = 0 ∧ blockCost SIZEOF_DIRENT = 1 ∧ blockCost (SIZEOF_DIRENT * 2) = 1 := by decide
  obtain ⟨hcost0, hcost1, hcost2⟩ := hcosts
  obtain ⟨s1, hrun1, hbuilt1, hinode1, hblock1⟩ := ialloc_run built_empty (by decide) rfl
  change s1.freeinode = 2 at hinode1
  change s1.freeblock = nmeta at hblock1
  obtain ⟨s2, hrun2, hbuilt2, hinode2, hblock2⟩ := iappend_run ROOTINO
    (direntBytes (BitVec.ofNat 16 ROOTINO) dot) hbuilt1 (by decide) (by rw [hinode1]; decide)
    (by rw [nil_append, hone]; decide) (by rw [nil_append, hone, hblock1]; decide)
  rw [nil_append] at hbuilt2 hblock2
  rw [hone, hblock1] at hblock2
  change s2.freeblock + blockCost 0 = nmeta + blockCost SIZEOF_DIRENT at hblock2
  have hself : update (fun _ => []) ROOTINO (direntBytes (BitVec.ofNat 16 ROOTINO) dot) ROOTINO =
      direntBytes (BitVec.ofNat 16 ROOTINO) dot := update_self ..
  obtain ⟨s3, hrun3, hbuilt3, hinode3, hblock3⟩ := iappend_run ROOTINO
    (direntBytes (BitVec.ofNat 16 ROOTINO) dotdot) hbuilt2 (by decide) (by rw [hinode2, hinode1]; decide)
    (by rw [hself]; exact htwo.trans_le (by decide)) (by
      rw [hself, hone]
      change s2.freeblock + blockCost dots.length ≤ FSSIZE + blockCost SIZEOF_DIRENT
      rw [htwo, hcost1, hcost2]
      have hlt := nmeta_lt
      omega)
  rw [hself, update_idem] at hbuilt3
  rw [hself, hone] at hblock3
  change s3.freeblock + blockCost SIZEOF_DIRENT = s2.freeblock + blockCost dots.length at hblock3
  rw [htwo] at hblock3
  exact ⟨s1, s2, s3, hrun1, hrun2, hrun3, hbuilt3, by omega, by omega⟩

theorem addFiles_built (h : Fits files) (hs : Built s (update (fun _ => []) ROOTINO dots))
    (hinode : s.freeinode = 2) (hblock : s.freeblock = nmeta + blockCost (SIZEOF_DIRENT * 2)) :
    ∃ s', addFiles ROOTINO files s = .ok ((), s') ∧ Built s' (fileBytes files) ∧ s'.freeinode = files.length + 2 := by
  have hself : update (fun _ => []) ROOTINO dots ROOTINO = dots := update_self ..
  have hlen : dots.length + SIZEOF_DIRENT * files.length = SIZEOF_DIRENT * (files.length + 2) := by
    rw [dots_length, ← Nat.mul_add, Nat.add_comm]
  have hinodes := h.inodes
  have hblocks := h.blocks
  obtain ⟨s', held, hrun, hbuilt, hinode', hroot, hfiles, hold, hrest⟩ := addFiles_run files hs
    (by rw [hinode]; decide) (by omega) (fun j hj => update_of_ne (by unfold ROOTINO; omega) ..) h.good
    (by
      rw [hself, hlen]
      exact (Nat.mul_le_mul_left _ h.inodes).trans (by decide))
    (by rw [hself, hlen, dots_length]; omega)
  have hheld : held = fileBytes files := by
    funext j
    unfold fileBytes
    by_cases hj : j = ROOTINO
    · rw [if_pos hj, hj, hroot, hself, hinode]
    rw [if_neg hj]
    by_cases hlow : j < 2
    · rw [if_pos hlow, hold j hj (by omega), update_of_ne hj]
    rw [if_neg hlow]
    by_cases hin : j - 2 < files.length
    · have hfile := hfiles (j - 2) hin
      rw [hinode, show 2 + (j - 2) = j by omega] at hfile
      rw [hfile, getElem?_eq_getElem hin]
      rfl
    · rw [hrest j (by omega), getElem?_eq_none (by omega)]
      rfl
  exact ⟨s', hrun, hheld ▸ hbuilt, by omega⟩

theorem main_run (h : Fits files) : ∃ s, main files Build.empty = .ok ((), s) ∧ Image files s := by
  obtain ⟨s1, s2, s3, hrun1, hrun2, hrun3, hbuilt3, hinode3, hblock3⟩ := root_run
  obtain ⟨s4, hrun4, hbuilt, hinode⟩ := addFiles_built h hbuilt3 hinode3 hblock3
  obtain ⟨addrs, hroot⟩ := hbuilt.inode ROOTINO (by decide) (by rw [hinode]; unfold ROOTINO; omega)
  have hsize : (nodeOf s4.image ROOTINO).size.toNat = SIZEOF_DIRENT * (files.length + 2) := by
    rw [hroot, ← root_bytes_length]
    have hsmall := hbuilt.small ROOTINO
    have hbound : MAXFILE * BSIZE < 2 ^ 32 := by decide
    exact Nat.mod_eq_of_lt (by omega)
  have hd : ({ nodeOf s4.image ROOTINO with size := BitVec.ofNat 32 (rootSize files) } : Dinode) =
      { newInode .dir with size := BitVec.ofNat 32 (rootSize files), addrs := addrs } := by
    rw [hroot]
    rfl
  obtain ⟨image, hrun5, hnode, himage⟩ := winode_run s4 ROOTINO
    { nodeOf s4.image ROOTINO with size := BitVec.ofNat 32 (rootSize files) } (by decide)
    (by rw [hd]; exact root_length)
  have hfix : fixSize ROOTINO s4 = .ok ((), { s4 with image := image }) := by
    rw [fixSize, bind_of_ok (rinode_run (by decide)), hsize]
    exact hrun5
  have hmap : s4.freeblock < BSIZE * 8 := hbuilt.holds.high.trans_lt (by decide)
  -- the free map is the last block that is written
  have hbit : (BitVec.ofNat 32 bmapstart).toNat = bmapstart := rfl
  have hother {a : Word} (ha : a.toNat ≠ bmapstart) :
      (({ s4 with image := image } : Build).put (BitVec.ofNat 32 bmapstart) (freeMap s4.freeblock)).image a = image a := by
    refine Build.put_of_ne (fun heq => ha ?_) ..
    rw [heq, hbit]
  have hfinal : nodeOf (({ s4 with image := image } : Build).put (BitVec.ofNat 32 bmapstart) (freeMap s4.freeblock)).image =
      update (nodeOf s4.image) ROOTINO
        { nodeOf s4.image ROOTINO with size := BitVec.ofNat 32 (rootSize files) } :=
    (nodeOf_congr fun a ha => hother ha.ne).trans hnode
  refine ⟨({ s4 with image := image } : Build).put (BitVec.ofNat 32 bmapstart) (freeMap s4.freeblock), ?_, ?_, ?_, ?_, ?_,
    Build.put_self .., ?_⟩
  · rw [main, bind_of_ok (show wsect 1 _ Build.empty = .ok ((), _) from rfl), bind_of_ok hrun1,
      if_neg (not_not.mpr rfl), bind_of_ok hrun2, bind_of_ok hrun3, bind_of_ok hrun4,
      bind_of_ok hfix, bind_of_ok (get_apply _), balloc_run hmap]
  · refine hbuilt.holds.of_blocks (fun j => ?_) (fun a ha => ?_) rfl
    · rw [hfinal]
      by_cases hj : j = ROOTINO
      · rw [hj, update_self]
        exact ⟨rfl, rfl⟩
      · rw [update_of_ne hj]
        exact ⟨rfl, rfl⟩
    · have hlt := bmapstart_lt
      rw [hother (by omega)]
      exact himage a (.inr (by omega))
  · rw [hfinal, update_self]
    exact ⟨addrs, hd⟩
  · intro i hi
    have hne : i + 2 ≠ ROOTINO := by
      unfold ROOTINO
      omega
    obtain ⟨addrs', hfile⟩ := hbuilt.inode (i + 2) (by omega) (by omega)
    have hbytes : fileBytes files (i + 2) = files[i].bytes := by
      rw [fileBytes, if_neg hne, if_neg (by omega), Nat.add_sub_cancel, getElem?_eq_getElem hi]
      rfl
    rw [hbytes, kind, if_neg hne] at hfile
    rw [hfinal, update_of_ne hne]
    exact ⟨addrs', hfile⟩
  · intro j hj
    rw [hfinal, update_of_ne (by unfold ROOTINO; omega)]
    exact hbuilt.free j (by omega)
  · rw [hother (by decide), himage 1 (.inl sb_lt)]
    exact hbuilt.sb

end Mkfs
end Xv6
