import Xv6.Fs.Node
import Xv6.Mkfs.Consistent

/-! # The image under the kernel

The kernel reads from the image what `mkfs` was given: `dirlookup` in the root directory
finds the inode of a file by its name, and `readi` returns the bytes of the file.
-/
namespace Xv6.Mkfs
open Prog Mem Op List

/-- `readsb`. -/
def superblockAt (m : Mem) : Superblock where
  size := (m.word 0).toNat
  ninodes := (m.word 8).toNat
  inodestart := (m.word 20).toNat
  bmapstart := (m.word 24).toNat

/-- The kernel's disk is the image. -/
structure Mounted (s : Build) (k : Kernel) : Prop where
  sb : k.sb = superblockAt (s.image 1)
  dinode : ∀ inum, inum < NINODES → k.dinode inum = nodeOf s.image inum
  bitmap : ∀ b, b < FSSIZE → k.bitmap b = marked s.image b
  block : k.block = s.image

/-- The root directory is in the inode cache, with a free entry beside it. The other entries
are not locked, and those that are valid are as on the disk. -/
structure AtRoot (k : Kernel) (dp : InodeIdx) : Prop where
  inum : (k.icache dp).inum = ROOTINO
  ref : 0 < (k.icache dp).ref
  valid : (k.icache dp).valid = true
  loaded : ∀ j, 0 < (k.icache j).ref → (k.icache j).valid = true → (k.icache j).d = k.dinode (k.icache j).inum
  unlocked : ∀ j, j ≠ dp → (k.icache j).lock = none
  room : ∃ j, (k.icache j).ref = 0

variable {s : Build} {k k' : Kernel} {p : Slot} {dp : InodeIdx} {files : List Input} {m : Mem} {a i t : ℕ}
  {name : List UInt8}

section Directory
open Fs

theorem direntAt_before (h : SIZEOF_DIRENT * (a + 1) ≤ x) (bs : List UInt8) :
    direntAt (m.write x bs) a = direntAt m a := by
  refine congrArg dirent (map_congr_left fun j hj => write_outside (.inl ?_))
  have hj := mem_range.mp hj
  unfold SIZEOF_DIRENT at *
  omega

theorem direntAt_head (hbs : bs.length = SIZEOF_DIRENT) (rest : List UInt8) :
    direntAt (m.write (SIZEOF_DIRENT * a) (bs ++ rest)) a = dirent bs := by
  rw [write_append, direntAt_before (by rw [hbs, Nat.mul_succ]), direntAt_write hbs]

theorem direntAt_dirBytes (inum a : ℕ) (files : List Input) (hi : i < files.length) :
    direntAt (m.write (SIZEOF_DIRENT * a) (dirBytes inum files)) (a + i) =
      ⟨BitVec.ofNat 16 (inum + i), dirName files[i].entry⟩ := by
  induction files generalizing m inum a i with
  | nil => exact absurd hi (Nat.not_lt_zero i)
  | cons f rest ih =>
    cases i with
    | zero =>
      refine (direntAt_head direntBytes_length _).trans ?_
      rw [dirent_direntBytes]
      rfl
    | succ =>
      have hrest := ih (m := m.write (SIZEOF_DIRENT * a) (direntBytes (BitVec.ofNat 16 inum) f.entry)) (inum + 1) (a + 1)
        (Nat.lt_of_succ_lt_succ hi)
      rw [Nat.mul_succ, Nat.add_right_comm a, Nat.add_right_comm inum] at hrest
      rw [dirBytes, write_append, direntBytes_length]
      exact hrest

theorem root_entries (files : List Input) :
    direntAt (write (fun _ => 0) 0 (fileBytes files ROOTINO)) 0 = ⟨BitVec.ofNat 16 ROOTINO, dirName dot⟩ ∧
    direntAt (write (fun _ => 0) 0 (fileBytes files ROOTINO)) 1 = ⟨BitVec.ofNat 16 ROOTINO, dirName dotdot⟩ ∧
    ∀ i (hi : i < files.length), direntAt (write (fun _ => 0) 0 (fileBytes files ROOTINO)) (i + 2) =
      ⟨BitVec.ofNat 16 (i + 2), dirName files[i].entry⟩ := by
  rw [fileBytes, if_pos rfl, dots, append_assoc]
  refine ⟨?_, ?_, fun i hi => ?_⟩
  · rw [← dirent_direntBytes]
    exact direntAt_head (a := 0) direntBytes_length _
  · rw [← dirent_direntBytes, write_append]
    exact direntAt_head (a := 1) direntBytes_length _
  · rw [write_append, write_append, Nat.add_comm i 2]
    exact direntAt_dirBytes 2 2 files hi

end Directory
/-- The root directory as the kernel has it in memory. -/
structure RootTable (files : List Input) (k : Kernel) (dp : InodeIdx) : Prop where
  dir : (k.icache dp).d.type = .dir
  size : (k.icache dp).d.size.toNat = rootSize files
  entries : Fs.table k dp = write (fun _ => 0) 0 (fileBytes files ROOTINO)
  blocks : ∀ bn, bn * BSIZE < Fs.SIZEOF_DIRENT * (files.length + 2) →
    ∃ r, placeOf bn = some r ∧ (k.icache dp).d.addr k.block r ≠ 0

theorem Image.rootTable (h : Image files s) (hfits : Fits files) (hk : Mounted s k) (hdp : AtRoot k dp) :
    RootTable files k dp := by
  have hinodes := hfits.inodes
  have hd : (k.icache dp).d = nodeOf s.image ROOTINO := by
    rw [hdp.loaded dp hdp.ref hdp.valid, hdp.inum, hk.dinode _ (by decide)]
  obtain ⟨addrs, hroot⟩ := h.root
  have hlive : (nodeOf s.image ROOTINO).type ≠ .free := by
    rw [hroot]
    nofun
  refine ⟨?_, ?_, ?_, fun bn hbn => ?_⟩
  · rw [hd, hroot]
    rfl
  · rw [hd, hroot]
    refine Nat.mod_eq_of_lt ?_
    unfold rootSize Fs.SIZEOF_DIRENT BSIZE NINODES at *
    omega
  · rw [Fs.table, hd, hk.block]
    exact h.holds.contents ROOTINO hlive
  · have hlt : bn < blocksFor (Fs.SIZEOF_DIRENT * (files.length + 2)) := by
      unfold blocksFor Fs.SIZEOF_DIRENT BSIZE at *
      omega
    have hmax : bn < MAXFILE := by
      unfold MAXFILE NDIRECT NINDIRECT Fs.SIZEOF_DIRENT BSIZE NINODES at *
      omega
    obtain ⟨r, hr⟩ := placeOf_of_lt hmax
    refine ⟨r, hr, ?_⟩
    rw [hd, hk.block]
    refine (h.holds.places ROOTINO hlive r).mpr ?_
    rw [root_bytes_length]
    exact (first_of_place hr).trans_lt hlt

namespace RootTable
open Fs

theorem readDirent_run (h : RootTable files k dp) (ha : a < files.length + 2) (hn : files.length + 2 ≤ NINODES)
    (msg : String) : (readDirent p dp (SIZEOF_DIRENT * a) msg).run sem k = .ok (direntAt (table k dp) a, k) := by
  have hend : SIZEOF_DIRENT * a + SIZEOF_DIRENT ≤ SIZEOF_DIRENT * (files.length + 2) := by
    unfold SIZEOF_DIRENT
    omega
  have hsize : SIZEOF_DIRENT * (files.length + 2) ≤ (k.icache dp).d.size.toNat := by
    rw [h.size]
    unfold rootSize SIZEOF_DIRENT BSIZE NINODES at *
    omega
  exact Fs.readDirent_run h.dir (by omega) (fun bn hbn => h.blocks bn (by omega)) msg

theorem lookupFrom_run (h : RootTable files k dp) (hn : files.length + 2 ≤ NINODES)
    (ht : t < files.length + 2) (hname : (direntAt (table k dp) t).Names name) (turns a : ℕ) (ha : a ≤ t) (hturns : t < a + turns)
    (hfirst : ∀ b, b < t → ¬ (direntAt (table k dp) b).Names name) :
    (lookupFrom p dp name turns (SIZEOF_DIRENT * a)).run sem k =
      (iget (direntAt (table k dp) t).inum.toNat >>= fun ip => pure (some (ip, SIZEOF_DIRENT * t))).run sem k := by
  induction turns generalizing a with
  | zero => omega
  | succ turns ih =>
    rw [lookupFrom, run_bind, Comp.bind_of_ok (h.readDirent_run (by omega) hn _)]
    by_cases hat : a = t
    · subst hat
      unfold Dirent.Names at hname
      rw [if_pos hname]
    · have hother := hfirst a (by omega)
      unfold Dirent.Names at hother
      rw [if_neg hother]
      exact ih (a + 1) (by omega) (by omega)

theorem dirlookup_run (h : RootTable files k dp) (hn : files.length + 2 ≤ NINODES)
    (ht : t < files.length + 2) (hname : (direntAt (table k dp) t).Names name)
    (hfirst : ∀ b, b < t → ¬ (direntAt (table k dp) b).Names name) : (dirlookup p dp name).run sem k =
      (iget (direntAt (table k dp) t).inum.toNat >>= fun ip => pure (some (ip, SIZEOF_DIRENT * t))).run sem k := by
  have hturns : t < 0 + direntTurns (k.icache dp).d.size 0 := by
    have hsize := h.size
    unfold direntTurns rootSize SIZEOF_DIRENT BSIZE at *
    omega
  rw [dirlookup, inode_bind_run, if_neg (by rw [h.dir]; nofun)]
  exact h.lookupFrom_run hn ht hname _ 0 (Nat.zero_le t) hturns hfirst

end RootTable

/-- The names in the root directory differ, also from those of its first two entries. -/
structure NamesApart (files : List Input) : Prop where
  distinct : ∀ i j (hi : i < files.length) (hj : j < files.length), i < j →
    Fs.dirName files[i].entry ≠ Fs.dirName files[j].entry
  dots : ∀ f ∈ files, Fs.dirName f.entry ≠ dot ∧ Fs.dirName f.entry ≠ dotdot

theorem NamesApart.first (h : NamesApart files) (hi : i < files.length) (hn : files.length + 2 ≤ NINODES) :
    (Fs.direntAt (write (fun _ => 0) 0 (fileBytes files ROOTINO)) (i + 2)).Names files[i].entry ∧
    ∀ b, b < i + 2 → ¬ (Fs.direntAt (write (fun _ => 0) 0 (fileBytes files ROOTINO)) b).Names files[i].entry := by
  obtain ⟨hdot, hdotdot, hfiles⟩ := root_entries files
  have hne := h.dots _ (getElem_mem hi)
  constructor
  · rw [hfiles i hi]
    refine ⟨fun hz => ?_, rfl⟩
    have hnat := congrArg BitVec.toNat hz
    rw [BitVec.toNat_ofNat, Nat.mod_eq_of_lt (by unfold NINODES at hn; omega)] at hnat
    exact Nat.succ_ne_zero _ hnat
  · intro b hb hnames
    rcases b with _ | _ | b
    · rw [hdot] at hnames
      exact hne.1 hnames.2.symm
    · rw [hdotdot] at hnames
      exact hne.2 hnames.2.symm
    · rw [hfiles b (by omega)] at hnames
      exact h.distinct b i _ hi (by omega) hnames.2

/-- `iget` of an inode that is not the root directory; then `ilock` shows it as on the disk. -/
theorem iget_ilock_run (p : Slot) (inum : ℕ) (hk : Mounted s k) (hdp : AtRoot k dp) (hlt : inum < NINODES) (hne : inum ≠ ROOTINO)
    (hlive : (nodeOf s.image inum).type ≠ .free) :
    ∃ ip k1 k2, (Fs.iget inum).run sem k = .ok (ip, k1) ∧ (k1.icache ip).inum = inum ∧
      (Fs.ilock p ip).run sem k1 = .ok ((), k2) ∧ (k2.icache ip).d = nodeOf s.image inum ∧ k2.block = s.image := by
  obtain ⟨e, he⟩ := hdp.room
  obtain ⟨ip, k1, hget⟩ := FsOp.iget_ok he inum
  -- the entry that `iget` returns is not locked, and is valid only with what the disk has
  obtain ⟨hinum, href, hlock, hdinode, hblock, hd⟩ : (k1.icache ip).inum = inum ∧ 1 ≤ (k1.icache ip).ref ∧
      (k1.icache ip).lock = none ∧ k1.dinode = k.dinode ∧ k1.block = k.block ∧
      ((k1.icache ip).valid = true → (k1.icache ip).d = nodeOf s.image inum) := by
    rcases FsOp.iget_eq_ok hget with ⟨href, hinum, rfl⟩ | ⟨href, -, rfl⟩
    · have hip : ip ≠ dp := by
        rintro rfl
        exact hne (hinum.symm.trans hdp.inum)
      rw [Kernel.setInode_self]
      refine ⟨hinum, by dsimp only; omega, hdp.unlocked ip hip, rfl, rfl, fun hvalid => ?_⟩
      exact (hdp.loaded ip href hvalid).trans (by rw [hinum, hk.dinode inum hlt])
    · have hip : ip ≠ dp := by
        rintro rfl
        have hpos := hdp.ref
        omega
      rw [Kernel.setInode_self]
      exact ⟨rfl, le_rfl, hdp.unlocked ip hip, rfl, rfl, nofun⟩
  have hdisk : k1.dinode (k1.icache ip).inum = nodeOf s.image inum := by rw [hinum, hdinode, hk.dinode inum hlt]
  obtain ⟨k2, hlocked⟩ := FsOp.ilock_ok (p := p) href hlock fun _ => hdisk ▸ hlive
  have hseen := Fs.ilock_seen (p := p) (by rw [Fs.ilock_run]; exact hlocked)
  refine ⟨ip, k1, k2, by rw [Fs.iget_run]; exact hget, hinum, by rw [Fs.ilock_run]; exact hlocked, ?_, ?_⟩
  · rw [hseen, Fs.seen]
    split
    case isTrue hvalid => exact hd hvalid
    case isFalse => exact hdisk
  · rcases FsOp.ilock_eq_ok hlocked with ⟨-, -, ⟨-, rfl⟩ | ⟨-, -, rfl⟩⟩
    · exact hblock.trans hk.block
    · exact hblock.trans hk.block

theorem Image.readi_run (h : Image files s) (hfits : Fits files) (hi : i < files.length)
    (hd : (k.icache ip).d = nodeOf s.image (i + 2)) (hblock : k.block = s.image) (n : Word)
    (hn : files[i].bytes.length ≤ n.toNat) :
    (Fs.readi p ip 0 n).run sem k = .ok (((files[i].bytes.length : ℤ), files[i].bytes), k) := by
  obtain ⟨addrs, hfile⟩ := h.file i hi
  have hsmall := (hfits.good _ (getElem_mem hi)).small
  have hbound : MAXFILE * BSIZE < 2 ^ 31 := by decide
  have hsize : (k.icache ip).d.size.toNat = files[i].bytes.length := by
    rw [hd, hfile]
    exact Nat.mod_eq_of_lt (by omega)
  have hwhole := h.file_whole hfits hi
  rw [Fs.readi_run (by rw [hd, hfile]; nofun) 0 n fun bn _ hbn => by
    rw [hd] at hbn ⊢
    rw [hblock]
    exact hwhole bn hbn]
  have hcontents : (k.icache ip).d.contents k.block = write (fun _ => 0) 0 files[i].bytes := by
    have hmem := h.holds.contents (i + 2) (by rw [hfile]; nofun)
    rw [fileBytes, if_neg (by unfold ROOTINO; omega), if_neg (by omega), Nat.add_sub_cancel,
      getElem?_eq_getElem hi] at hmem
    rw [hd, hblock]
    exact hmem
  rw [hcontents]
  generalize (k.icache ip).d.size = size at hsize
  have hall : (if 0 + n > size then size - 0 else n) = size := by split <;> bv_omega
  have hbytes := bytes_field (m := fun _ => 0) (a := 0) [] files[i].bytes []
  rw [append_nil, nil_append] at hbytes
  rw [fileRead, if_neg (by bv_omega)]
  dsimp only
  rw [hall, BitVec.toInt_eq_toNat_of_lt (by omega), hsize]
  exact congrArg (fun bs => Except.ok (((files[i].bytes.length : ℤ), bs), k)) hbytes

/-- On the image of a command line with names that differ, the kernel finds every file by
its name and reads the bytes that went in. -/
theorem kernel_reads_image (files : List Input) (h : Fits files) (hnames : NamesApart files) :
    ∃ s, main files Build.empty = .ok ((), s) ∧ ∀ (k : Kernel) (p : Slot) (dp : InodeIdx), Mounted s k → AtRoot k dp →
      ∀ i (hi : i < files.length), ∃ ip k₁ k₂,
        (Fs.dirlookup p dp files[i].entry).run Op.sem k = .ok (some (ip, Fs.SIZEOF_DIRENT * (i + 2)), k₁) ∧
        (k₁.icache ip).inum = i + 2 ∧ (Fs.ilock p ip).run Op.sem k₁ = .ok ((), k₂) ∧
        ∀ n : Word, files[i].bytes.length ≤ n.toNat →
          (Fs.readi p ip 0 n).run Op.sem k₂ = .ok (((files[i].bytes.length : ℤ), files[i].bytes), k₂) := by
  obtain ⟨s, hrun, himage⟩ := main_run h
  refine ⟨s, hrun, fun k p dp hk hdp i hi => ?_⟩
  have hinodes := h.inodes
  have htable := himage.rootTable h hk hdp
  obtain ⟨addrs, hfile⟩ := himage.file i hi
  obtain ⟨hhere, hfirst⟩ := hnames.first hi hinodes
  rw [← htable.entries] at hhere hfirst
  have hinum : (Fs.direntAt (Fs.table k dp) (i + 2)).inum.toNat = i + 2 := by
    rw [htable.entries, (root_entries files).2.2 i hi]
    exact Nat.mod_eq_of_lt (by unfold NINODES at hinodes; omega)
  obtain ⟨ip, k₁, k₂, hget, hip, hlock, hd, hblock⟩ := iget_ilock_run p (i + 2) hk hdp (by omega)
    (by unfold ROOTINO; omega) (by rw [hfile]; nofun)
  refine ⟨ip, k₁, k₂, ?_, hip, hlock, fun n => himage.readi_run h hi hd hblock n⟩
  rw [htable.dirlookup_run hinodes (by omega) hhere hfirst, hinum, run_bind, Comp.bind_of_ok hget]
  rfl

/-- A kernel that has just mounted the image and loaded the root directory. -/
def mount (s : Build) : Kernel := { Kernel.zero with
  sb := superblockAt (s.image 1)
  dinode := nodeOf s.image
  bitmap := marked s.image
  block := s.image
  icache := Function.update (fun _ => {}) 0
    { inum := ROOTINO, ref := 1, valid := true, d := nodeOf s.image ROOTINO } }

theorem mount_mounted (s : Build) : Mounted s (mount s) := ⟨rfl, fun _ _ => rfl, fun _ _ => rfl, rfl⟩

theorem mount_atRoot (s : Build) : AtRoot (mount s) 0 := by
  have hother (j : InodeIdx) (hj : j ≠ 0) : (mount s).icache j = {} :=
    Function.update_of_ne hj _ fun _ => ({} : Inode)
  refine ⟨rfl, Int.one_pos, rfl, fun j href _ => ?_, fun j hj => by rw [hother j hj], 1, by rw [hother 1 (by decide)]⟩
  by_cases hj : j = 0
  · rw [hj]
    rfl
  · rw [hother j hj] at href
    exact absurd href (Int.lt_irrefl 0)

/-- The file `_a` with three bytes, read in two parts. -/
def smallFile : Input where
  name := .ofString "_a"
  reads := some [[1, 2], [3]]
  block := by
    rintro bs ⟨⟩
    decide

theorem smallFile_fits : Fits [smallFile] := by
  refine ⟨fun f hf => ?_, by decide, by decide⟩
  rw [mem_singleton] at hf
  subst hf
  exact ⟨by decide, by decide, by decide⟩

theorem smallFile_read : ∃ s, main [smallFile] Build.empty = .ok ((), s) ∧ ∃ ip k₁ k₂,
    (Fs.dirlookup 0 0 [97]).run Op.sem (mount s) = .ok (some (ip, 32), k₁) ∧ (k₁.icache ip).inum = 2 ∧
    (Fs.ilock 0 ip).run Op.sem k₁ = .ok ((), k₂) ∧ (Fs.readi 0 ip 0 3).run Op.sem k₂ = .ok ((3, [1, 2, 3]), k₂) := by
  have hapart : NamesApart [smallFile] := by
    refine ⟨fun i j hi hj hij => ?_, fun f hf => ?_⟩
    · rw [length_singleton] at hj
      omega
    · rw [mem_singleton] at hf
      subst hf
      decide
  obtain ⟨s, hrun, hall⟩ := kernel_reads_image [smallFile] smallFile_fits hapart
  obtain ⟨ip, k₁, k₂, hlookup, hinum, hlock, hread⟩ := hall (mount s) 0 0 (mount_mounted s) (mount_atRoot s) 0 (by decide)
  exact ⟨s, hrun, ip, k₁, k₂, hlookup, hinum, hlock, hread 3 (by decide)⟩

def dotFile : Input where
  name := .ofString "_."
  reads := some []
  block := no_block

theorem dotFile_fits : Fits [dotFile] := by
  refine ⟨fun f hf => ?_, by decide, by decide⟩
  rw [mem_singleton] at hf
  subst hf
  exact ⟨by decide, by decide, by decide⟩

/-- The kernel finds the directory under the name of the file. -/
theorem dotFile_hidden : Fits [dotFile] ∧ ∃ s, main [dotFile] Build.empty = .ok ((), s) ∧ ∃ ip k₁,
    (Fs.dirlookup 0 0 dotFile.entry).run Op.sem (mount s) = .ok (some (ip, 0), k₁) ∧ (k₁.icache ip).inum = ROOTINO := by
  obtain ⟨s, hrun, himage⟩ := main_run dotFile_fits
  have htable := himage.rootTable dotFile_fits (mount_mounted s) (mount_atRoot s)
  have hdot : Fs.direntAt (Fs.table (mount s) 0) 0 = ⟨BitVec.ofNat 16 ROOTINO, Fs.dirName dot⟩ := by
    rw [htable.entries, (root_entries _).1]
  have hnames : (Fs.direntAt (Fs.table (mount s) 0) 0).Names dotFile.entry := by
    rw [hdot]
    exact ⟨by decide, by decide⟩
  obtain ⟨e, he⟩ := (mount_atRoot s).room
  obtain ⟨ip, k₁, hget⟩ := FsOp.iget_ok he ROOTINO
  refine ⟨dotFile_fits, s, hrun, ip, k₁, ?_, ?_⟩
  · rw [htable.dirlookup_run (by decide) (by decide) hnames fun b hb => absurd hb (Nat.not_lt_zero b), hdot, run_bind,
      Comp.bind_of_ok (show (Fs.iget _).run sem (mount s) = .ok (ip, k₁) by rw [Fs.iget_run]; exact hget)]
    rfl
  · rcases FsOp.iget_eq_ok hget with ⟨-, hinum, rfl⟩ | ⟨-, -, rfl⟩
    · rw [Kernel.setInode_self]
      exact hinum
    · rw [Kernel.setInode_self]

end Xv6.Mkfs
