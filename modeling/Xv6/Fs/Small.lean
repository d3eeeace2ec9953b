import Xv6.Fs.Contents
import Xv6.Fs.Dir

/-! # Small file systems

A disk on which every file has one block is intact if no two files have the same, and the
free map has just these.
-/
namespace Xv6
open Dinode

def Dinode.oneBlock (d : Dinode) (b : Word) : Dinode := { d with addrs := fun n => if n = 0 then b else 0 }

/-- The place of the first block of a file. -/
def BlockRef.start : BlockRef := .direct ⟨0, by decide⟩

theorem Dinode.oneBlock_addr (d : Dinode) (b : Word) (block : Word → Mem) (r : BlockRef) :
    (d.oneBlock b).addr block r = if r = .start then b else 0 := by
  cases r with
  | direct n =>
    rcases n with ⟨n, hn⟩
    cases n with
    | zero | succ => rfl
  | indirect => rfl
  | entry =>
    have hnone : (d.oneBlock b).addrs INDIRECT = 0 := rfl
    simp [addr, hnone, BlockRef.start]

/-- Every allocated inode has one block, `blk j`. -/
structure Small (k : Kernel) (blk : ℕ → Word) : Prop where
  node : ∀ j, (k.dinode j).type ≠ .free → ∃ d : Dinode, k.dinode j = d.oneBlock (blk j)
  size : ∀ j, (k.dinode j).type ≠ .free → (k.dinode j).size.toNat ≤ BSIZE
  pos : ∀ j, (k.dinode j).type ≠ .free → blk j ≠ 0
  inj : ∀ i j, (k.dinode i).type ≠ .free → (k.dinode j).type ≠ .free → blk i = blk j → i = j
  apart : ∀ j, (k.dinode j).type ≠ .free → (blk j).toNat ∉ metaBlocks k.sb
  used : ∀ b, b ∈ usedBlocks k ↔ b ∈ metaBlocks k.sb ∨ ∃ j, (k.dinode j).type ≠ .free ∧ (blk j).toNat = b
  disk : k.sb.size < 2 ^ 32

namespace Small
variable {k : Kernel} {blk : ℕ → Word}

theorem owner_iff (h : Small k blk) : owner k.dinode k.block x = some b ↔
    x.2 = .start ∧ (k.dinode x.1).type ≠ .free ∧ (blk x.1).toNat = b := by
  obtain ⟨j, r⟩ := x
  unfold owner
  dsimp only
  by_cases hlive : (k.dinode j).type = .free
  · simp [hlive]
  obtain ⟨d, hd⟩ := h.node j hlive
  have haddr : (k.dinode j).addr k.block r = if r = .start then blk j else 0 := by rw [hd, oneBlock_addr]
  have hpos := h.pos j hlive
  by_cases hr : r = .start
  · rw [haddr, if_pos hr]
    simpa [hr, hlive] using fun _ => hpos
  · simp [haddr, hr]

theorem intact_of (h : Small k blk)
    (hunique : ∀ i j, 0 < (k.icache i).ref → 0 < (k.icache j).ref → (k.icache i).inum = (k.icache j).inum → i = j)
    (hsync : ∀ i, 0 < (k.icache i).ref → k.dinode (k.icache i).inum = (k.icache i).d ∧ (k.icache i).d.type ≠ .free) :
    Intact k where
  unique := hunique
  sync i hi _ := hsync i hi
  ledger := by
    refine ⟨fun b => ?_, fun x y b hx hy => ?_, fun x b hx => ?_, fun b hb => hb.elim⟩
    · simp only [h.used, h.owner_iff, Set.mem_empty_iff_false, false_or]
      refine or_congr_right ⟨fun ⟨j, hlive, hb⟩ => ⟨(j, .start), rfl, hlive, hb⟩, fun ⟨x, _, hlive, hb⟩ => ⟨x.1, hlive, hb⟩⟩
    · obtain ⟨hx2, hlive, hb⟩ := h.owner_iff.mp hx
      obtain ⟨hy2, hlive', hb'⟩ := h.owner_iff.mp hy
      exact Prod.ext (h.inj _ _ hlive hlive' (BitVec.eq_of_toNat_eq (hb.trans hb'.symm))) (hx2.trans hy2.symm)
    · obtain ⟨-, hlive, rfl⟩ := h.owner_iff.mp hx
      exact ⟨h.apart _ hlive, fun hno => hno⟩
  whole j hlive bn hbn := by
    obtain ⟨d, hd⟩ := h.node j hlive
    have hsize := h.size j hlive
    have hzero : bn = 0 := by
      simp only [BSIZE] at *
      omega
    subst hzero
    refine ⟨.start, rfl, ?_⟩
    rw [hd, oneBlock_addr, if_pos rfl]
    exact h.pos j hlive
  size := h.disk

theorem intact (h : Small k blk) (hcache : ∀ i, (k.icache i).ref = 0) : Intact k :=
  h.intact_of (fun i _ hi => absurd (hcache i) (by omega)) fun i hi => absurd (hcache i) (by omega)

theorem of_single {x : ℕ} {b : Word} (hlive : ∀ j, (k.dinode j).type ≠ .free → j = x) (hx : (k.dinode x).type ≠ .free)
    (hnode : ∃ d : Dinode, k.dinode x = d.oneBlock b) (hsize : (k.dinode x).size.toNat ≤ BSIZE) (hpos : b ≠ 0)
    (hmeta : ∀ c, c ∈ metaBlocks k.sb ↔ c < 3) (hused : ∀ c, c ∈ usedBlocks k ↔ c < 3 ∨ c = b.toNat) (hb : 3 ≤ b.toNat)
    (hdisk : k.sb.size < 2 ^ 32) : Small k fun _ => b where
  node j h := by rwa [hlive j h]
  size j h := by rwa [hlive j h]
  pos j h := hpos
  inj i j hi hj _ := (hlive i hi).trans (hlive j hj).symm
  apart j h := by
    rw [hmeta]
    omega
  used c := by
    rw [hmeta, hused]
    exact or_congr_right ⟨fun hc => ⟨x, hx, hc.symm⟩, fun ⟨j, _, hc⟩ => hc.symm⟩
  disk := hdisk

end Small

/-! ## A disk with one file -/

def oneFile (size : Word) (lock : Option Slot) (l : Log) : Kernel :=
  let node := Dinode.oneBlock { type := .file, nlink := 1, size := size } 5
  { Kernel.zero with
    log := l
    sb := ⟨60, 8, 0, 2⟩
    bitmap := fun b => b < 3 || b == 5
    dinode := fun inum => if inum = 2 then node else {}
    icache := fun i => if i = 0 then { inum := 2, ref := 1, lock := lock, valid := true, d := node } else {} }

section OneFile
variable {size : Word} {lock : Option Slot} {l : Log}

theorem oneFile_live (h : ((oneFile size lock l).dinode j).type ≠ .free) : j = 2 := by
  by_contra hno
  simp [oneFile, hno] at h

theorem mem_metaBlocks_small : c ∈ metaBlocks ⟨60, 8, 0, 2⟩ ↔ c < 3 := by
  change c < 60 ∧ c < 2 + 60 / BPB + 1 ↔ c < 3
  rw [show 60 / BPB = 0 from rfl]
  omega

theorem oneFile_small (hsize : size.toNat ≤ BSIZE) : Small (oneFile size lock l) fun _ => 5 := by
  refine .of_single (x := 2) (fun j => oneFile_live) ?_ ⟨_, rfl⟩ hsize (by decide) (fun c => mem_metaBlocks_small) (fun c => ?_)
    (by decide) (by decide : 60 < 2 ^ 32)
  · simp [oneFile, oneBlock]
  · change c < 60 ∧ (c < 3 || c == 5) = true ↔ c < 3 ∨ c = 5
    simp only [Bool.or_eq_true, decide_eq_true_eq, beq_iff_eq]
    omega

theorem oneFile_intact (hsize : size.toNat ≤ BSIZE) : Intact (oneFile size lock l) := by
  have hcached (i : InodeIdx) (hi : 0 < ((oneFile size lock l).icache i).ref) : i = 0 := by
    by_contra hno
    simp [oneFile, hno] at hi
  refine (oneFile_small hsize).intact_of (fun i j hi hj _ => (hcached i hi).trans (hcached j hj).symm) fun i hi => ?_
  rw [hcached i hi]
  exact ⟨rfl, fun h => by cases h⟩

end OneFile

/-! ## A disk with one directory -/

/-- The root directory has one entry, for itself. It is the working directory of every process. -/
def oneDir (lock : Option Slot) (l : Log) : Kernel :=
  let node := Dinode.oneBlock { type := .dir, nlink := 1, size := 16, userid := root, mode := MODE_XUSR } 5
  { Kernel.zero with
    pt := ⟨fun _ => { userid := root, cwd := some 0 }, 2, none⟩
    log := l
    sb := ⟨60, 8, 0, 2⟩
    bitmap := fun b => b < 3 || b == 5
    dinode := fun inum => if inum = ROOTINO then node else {}
    block := fun b a => if b = 5 then (Fs.direntBytes 1 [46]).getD a 0 else 0
    icache := fun i => if i = 0 then { inum := ROOTINO, ref := 1, lock := lock, valid := true, d := node } else {} }

section OneDir
variable {lock : Option Slot} {l : Log}

theorem oneDir_live (h : ((oneDir lock l).dinode j).type ≠ .free) : j = ROOTINO := by
  by_contra hno
  simp [oneDir, hno] at h

theorem oneDir_cached (hi : 0 < ((oneDir lock l).icache i).ref) : i = 0 := by
  by_contra hno
  simp [oneDir, hno] at hi

theorem oneDir_intact : Intact (oneDir lock l) := by
  have hsmall : Small (oneDir lock l) fun _ => 5 := by
    refine .of_single (x := ROOTINO) (fun j => oneDir_live) ?_ ⟨_, rfl⟩ (by decide : (16#32).toNat ≤ BSIZE) (by decide)
      (fun c => mem_metaBlocks_small) (fun c => ?_) (by decide) (by decide : 60 < 2 ^ 32)
    · simp [oneDir, oneBlock]
    · change c < 60 ∧ (c < 3 || c == 5) = true ↔ c < 3 ∨ c = 5
      simp only [Bool.or_eq_true, decide_eq_true_eq, beq_iff_eq]
      omega
  refine hsmall.intact_of (fun i j hi hj _ => (oneDir_cached hi).trans (oneDir_cached hj).symm) fun i hi => ?_
  rw [oneDir_cached hi]
  exact ⟨rfl, fun h => by cases h⟩

end OneDir
end Xv6
