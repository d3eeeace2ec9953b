import Xv6.Mkfs.Files

/-! # Consistency of the image

`mkfs` rounds the size of the root directory up to the next multiple of a block. Where the
entries fill their blocks exactly, that adds a block to the size that the directory does not
have.
-/
namespace Xv6.Mkfs
open List

/-- The bit of block `b` in the free map. -/
def marked (image : Word → Mem) (b : ℕ) : Bool := (image (BitVec.ofNat 32 (b / BPB + bmapstart))).bit (b % BPB)

/-- What the kernel relies on: every part of a file has a block, every data block that was
handed out is in exactly one place, and the free map marks the blocks that are in use. -/
structure Consistent (s : Build) : Prop where
  whole : ∀ j, (nodeOf s.image j).type ≠ .free → (nodeOf s.image j).Whole s.image
  single : ∀ b, nmeta ≤ b → b < s.freeblock → ∃! x, owner (nodeOf s.image) s.image x = some b
  map : ∀ b, b < BPB → (marked s.image b = true ↔ b < s.freeblock)

variable {s : Build} {node : ℕ → Dinode} {mem : ℕ → Mem} {fills : ℕ → Set BlockRef} {inum : ℕ} {files : List Input}

theorem freeMap_bit (used n : ℕ) : (freeMap used).bit n = decide (n < used) := by
  induction used with
  | zero =>
    simp [freeMap, Mem.bit]
  | succ used ih =>
    rw [freeMap, Mem.bit_setBit, ih, ← Bool.decide_or, decide_eq_decide]
    omega

namespace Holds

theorem single (h : Holds s node mem fills) (hlow : nmeta ≤ b) (hb : b < s.freeblock) :
    ∃! x, owner node s.image x = some b := by
  rcases (h.ledger.used_iff b).mp hb with hmeta | hloose | ⟨x, hx⟩
  · exact absurd hmeta (Nat.not_lt.mpr hlow)
  · exact hloose.elim
  · exact ⟨x, hx, fun y hy => h.ledger.single y x b hy hx⟩

theorem whole_iff (h : Holds s node mem fills) (hlive : (node inum).type ≠ .free)
    (hfills : fills inum = needed nb) (hmax : blocksFor (node inum).size.toNat ≤ MAXFILE) :
    (node inum).Whole s.image ↔ blocksFor (node inum).size.toNat ≤ nb := by
  have hplaces (r : BlockRef) : (node inum).addr s.image r ≠ 0 ↔ r.first < nb := by
    rw [h.places inum hlive, hfills]
    rfl
  unfold Dinode.Whole
  generalize (node inum).size.toNat = size at hmax ⊢
  have hpart (bn : ℕ) : bn * BSIZE < size ↔ bn < blocksFor size := by
    unfold blocksFor BSIZE
    omega
  constructor
  · intro hwhole
    by_contra hlt
    obtain ⟨r, hr, hne⟩ := hwhole nb ((hpart nb).mpr (by omega))
    have hfirst := (hplaces r).mp hne
    rw [first_of_place hr] at hfirst
    exact Nat.lt_irrefl _ hfirst
  · intro hle bn hbn
    have hlt := (hpart bn).mp hbn
    obtain ⟨r, hr⟩ := placeOf_of_lt (hlt.trans_le hmax)
    exact ⟨r, hr, (hplaces r).mpr (first_of_place hr ▸ hlt.trans_le hle)⟩

end Holds

namespace Image

theorem map_iff (h : Image files s) (hb : b < BPB) : marked s.image b = true ↔ b < s.freeblock := by
  rw [marked, Nat.div_eq_of_lt hb, Nat.mod_eq_of_lt hb, Nat.zero_add, h.map, freeMap_bit, decide_eq_true_iff]

theorem file_whole (h : Image files s) (hfits : Fits files) (hi : i < files.length) :
    (nodeOf s.image (i + 2)).Whole s.image := by
  obtain ⟨addrs, hfile⟩ := h.file i hi
  have hsmall := (hfits.good _ (getElem_mem hi)).small
  have hsize : (nodeOf s.image (i + 2)).size.toNat = files[i].bytes.length := by
    have hbound : MAXFILE * BSIZE < 2 ^ 32 := by decide
    rw [hfile]
    exact Nat.mod_eq_of_lt (by omega)
  have hbytes : fileBytes files (i + 2) = files[i].bytes := by
    rw [fileBytes, if_neg (by unfold ROOTINO; omega), if_neg (by omega), Nat.add_sub_cancel, getElem?_eq_getElem hi]
    rfl
  have hmax : blocksFor files[i].bytes.length ≤ MAXFILE := (blocksFor_mono hsmall).trans (by decide)
  have hlive : (nodeOf s.image (i + 2)).type ≠ .free := by
    rw [hfile]
    intro hfree
    cases hfree
  refine (h.holds.whole_iff hlive rfl (hsize ▸ hmax)).mpr ?_
  rw [hsize, hbytes]

/-- The root directory has all its blocks unless the last one is full. -/
theorem root_whole_iff (h : Image files s) (hfits : Fits files) :
    (nodeOf s.image ROOTINO).Whole s.image ↔ (files.length + 2) % (BSIZE / Fs.SIZEOF_DIRENT) ≠ 0 := by
  obtain ⟨addrs, hroot⟩ := h.root
  have hinodes := hfits.inodes
  have hsize : (nodeOf s.image ROOTINO).size.toNat = rootSize files := by
    rw [hroot]
    refine Nat.mod_eq_of_lt ?_
    unfold rootSize Fs.SIZEOF_DIRENT BSIZE NINODES at *
    omega
  rw [h.holds.whole_iff (by rw [hroot]; nofun) rfl, hsize, root_bytes_length]
  · unfold blocksFor rootSize Fs.SIZEOF_DIRENT BSIZE
    omega
  · rw [hsize]
    unfold blocksFor rootSize MAXFILE NDIRECT NINDIRECT Fs.SIZEOF_DIRENT BSIZE NINODES at *
    omega

end Image

/-- The image of a command line that fits is consistent unless the entries of the root
directory fill its last block. -/
theorem image_consistent_iff (files : List Input) (h : Fits files) : ∃ s, main files Build.empty = .ok ((), s) ∧
    (Consistent s ↔ (files.length + 2) % (BSIZE / Fs.SIZEOF_DIRENT) ≠ 0) := by
  obtain ⟨s, hrun, himage⟩ := main_run h
  refine ⟨s, hrun, fun hs => ?_, fun hmod => ⟨fun j hj => ?_, fun b => himage.holds.single, fun b => himage.map_iff⟩⟩
  · obtain ⟨addrs, hroot⟩ := himage.root
    exact (himage.root_whole_iff h).mp (hs.whole ROOTINO (by rw [hroot]; nofun))
  · by_cases hroot : j = ROOTINO
    · rw [hroot]
      exact (himage.root_whole_iff h).mpr hmod
    by_cases hfree : j = 0 ∨ files.length + 2 ≤ j
    · exact (hj (himage.free j hfree)).elim
    unfold ROOTINO at hroot
    obtain ⟨i, rfl⟩ : ∃ i, j = i + 2 := ⟨j - 2, by omega⟩
    exact himage.file_whole h (by omega)

def letterFile (i : Fin 30) : Input where
  name := ⟨[UInt8.ofNat (97 + i)], by revert i; decide⟩
  reads := some []
  block := no_block

theorem letterFiles_fits {l : List (Fin 30)} (h : l.length ≤ 30) : Fits (l.map letterFile) := by
  have hcost : filesCost (l.map letterFile) = 0 := by
    clear h
    induction l with
    | nil => rfl
    | cons i l ih =>
      have hempty : (letterFile i).bytes = [] := rfl
      have hzero : blockCost ([] : List UInt8).length = 0 := by decide
      rw [map_cons, filesCost, map_cons, sum_cons, hempty, hzero, Nat.zero_add]
      exact ih
  have hdir : blockCost (Fs.SIZEOF_DIRENT * (l.length + 2)) ≤ blockCost (Fs.SIZEOF_DIRENT * 32) :=
    blockCost_mono (Nat.mul_le_mul_left _ (by omega))
  have hone : nmeta + blockCost (Fs.SIZEOF_DIRENT * 32) ≤ FSSIZE := by decide
  refine ⟨fun f hf => ?_, ?_, ?_⟩
  · obtain ⟨i, -, rfl⟩ := mem_map.mp hf
    have hname : ∀ i, Fs.slash ∉ (letterFile i).name.bytes := by decide
    exact ⟨hname i, rfl, Nat.zero_le _⟩
  · rw [length_map]
    unfold NINODES
    omega
  · rw [length_map, hcost]
    omega

theorem letterFile_consistent : Fits ([0].map letterFile) ∧ ∃ s, main ([0].map letterFile) Build.empty = .ok ((), s) ∧
    (Consistent s ↔ (([0].map letterFile).length + 2) % (BSIZE / Fs.SIZEOF_DIRENT) ≠ 0) :=
  ⟨letterFiles_fits (by decide), image_consistent_iff _ (letterFiles_fits (by decide))⟩

/-- With `.` and `..` the entries of thirty files fill one block. -/
theorem thirtyFiles_inconsistent : Fits ((List.finRange 30).map letterFile) ∧
    ∃ s, main ((List.finRange 30).map letterFile) Build.empty = .ok ((), s) ∧ ¬ Consistent s := by
  have hfits : Fits ((finRange 30).map letterFile) := letterFiles_fits (by decide)
  obtain ⟨s, hrun, himage⟩ := main_run hfits
  refine ⟨hfits, s, hrun, fun hs => ?_⟩
  obtain ⟨addrs, hroot⟩ := himage.root
  have hwhole := hs.whole ROOTINO (by rw [hroot]; nofun)
  exact (himage.root_whole_iff hfits).mp hwhole (by decide)

end Xv6.Mkfs
