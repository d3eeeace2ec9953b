import Xv6.Fs.Advance
import Xv6.Fs.Small

/-! # Files are arrays of bytes

What `readi` returns and what `writei` changes, with every way in which they can end.
-/
namespace Xv6
open Comp Op

/-- The bytes from `off` on. -/
def Mem.slice (m : Mem) (off n : ℕ) : List UInt8 := (List.range n).map fun j => m (off + j)

section Stops
variable {k : Kernel}

theorem Kernel.logWrite_eq_error (h : Kernel.logWrite b k = .error e) : Log.checkWrite k.log = .error e := by
  rcases bind_eq_error.mp (Kernel.onLog_eq_error.mp h) with hcheck | ⟨_, l, -, hrecord⟩
  · exact hcheck
  · cases hrecord

/-- An operation that fills blocks stops only in `log_write`. -/
theorem FsOp.Fills.stops {o : FsOp} (h : o.Fills) (ho : o.sem k = .error e) : Log.checkWrite k.log = .error e := by
  cases o with
  | inode j | sb | readBlock c => cases ho
  | store j u => cases u <;> cases ho
  | iupdate =>
    rcases bind_eq_error.mp ho with hget | ⟨k1, _, hget, ho⟩
    · cases hget
    · cases hget
      rcases bind_eq_error.mp ho with hlog | ⟨_, k2, -, hmodify⟩
      · exact Kernel.logWrite_eq_error hlog
      · cases hmodify
  | claimBlock c =>
    change claimBlock.sem c k = _ at ho
    rw [claimBlock_apply] at ho
    cases hfree : firstFree k.bitmap k.sb.size BPB c with
    | none =>
      rw [hfree] at ho
      cases ho
    | some =>
      rw [hfree] at ho
      rcases bind_eq_error.mp ho with hlog | ⟨_, k2, -, hrest⟩
      · exact Kernel.logWrite_eq_error hlog
      · cases hrest
  | bzero b | writeBlock b off src =>
    rcases bind_eq_error.mp ho with hlog | ⟨_, k2, -, hmodify⟩
    · exact Kernel.logWrite_eq_error hlog
    · cases hmodify
  | _ => exact h.elim

/-- In a transaction the log refuses a block only when it is full. -/
theorem Log.checkWrite_eq_error {l : Log} (h : l.checkWrite = .error e) (hout : 1 ≤ l.outstanding) :
    e = .panic "too big a transaction" ∧ (LOGSIZE ≤ l.lh.length ∨ l.size - 1 ≤ l.lh.length) := by
  rw [checkWrite_apply] at h
  split at h
  case isTrue hfull =>
    cases h
    exact ⟨rfl, hfull⟩
  case isFalse =>
    rw [if_neg (by omega)] at h
    cases h

end Stops

namespace Fs
open Prog
open KProg hiding panic

variable {k k' : Kernel} {i : InodeIdx} {p : Slot}

theorem size_le_of_whole {d : Dinode} {block : Word → Mem} (h : d.Whole block) : d.size.toNat ≤ MAXFILE * BSIZE := by
  by_contra hbig
  obtain ⟨r, hr, -⟩ := h MAXFILE (by omega)
  cases (show placeOf MAXFILE = none by decide).symm.trans hr

/-- What a reader gets of an array of bytes; the addition of `off` and `n` must not wrap. -/
def bytesRead (size : ℕ) (m : Mem) (off n : ℕ) : ℤ × List UInt8 :=
  if size < off ∨ 2 ^ 32 ≤ off + n then (-1, [])
  else ((min n (size - off) : ℕ), m.slice off (min n (size - off)))

theorem fileRead_eq (hsize : size.toNat < 2 ^ 31) (m : Mem) (off n : Word) :
    fileRead size m off n = bytesRead size.toNat m off.toNat n.toNat := by
  unfold fileRead bytesRead
  have hout : off > size ∨ off + n < off ↔ size.toNat < off.toNat ∨ 2 ^ 32 ≤ off.toNat + n.toNat := by bv_omega
  rw [if_congr hout rfl rfl]
  split
  case isTrue => rfl
  case isFalse hin =>
    dsimp only
    have hcount : (if off + n > size then size - off else n).toNat = min n.toNat (size.toNat - off.toNat) := by
      split <;> bv_omega
    have hint : (if off + n > size then size - off else n).toInt = (min n.toNat (size.toNat - off.toNat) : ℕ) := by
      rw [BitVec.toInt_eq_toNat_of_lt (by omega), hcount]
    rw [hint, hcount]
    rfl

/-- `readi` returns the bytes below the size, and changes nothing. -/
def Reads (k : Kernel) (i : InodeIdx) (size : ℕ) (m : Mem) : Prop :=
  ∀ (p : Slot) (off n : Word), (readi p i off n).run Op.sem k = .ok (bytesRead size m off.toNat n.toNat, k)

theorem reads_of_intact (h : Intact k) (hi : Loaded k i) (hdev : (k.icache i).d.type ≠ .dev) :
    Reads k i (k.icache i).d.size.toNat ((k.icache i).d.contents k.block) := by
  intro p off n
  obtain ⟨hsync, hlive⟩ := h.sync i hi.1 hi.2
  have hwhole := h.whole (k.icache i).inum (by rwa [hsync])
  rw [hsync] at hwhole
  have hsmall : MAXFILE * BSIZE < 2 ^ 31 := by decide
  rw [readi_run hdev off n fun bn _ hbn => hwhole bn hbn, fileRead_eq (by have := size_le_of_whole hwhole; omega)]

def OutOfBounds (size off n : ℕ) : Prop := size < off ∨ 2 ^ 32 ≤ off + n ∨ MAXFILE * BSIZE < off + n

/-- The bytes from `off` on are new, and nothing else is. -/
structure Rewritten (k : Kernel) (i : InodeIdx) (off : ℕ) (src : List UInt8) (k' : Kernel) : Prop where
  intact : Intact k'
  here : Reads k' i (max (k.icache i).d.size.toNat (off + src.length)) (((k.icache i).d.contents k.block).write off src)
  size : (k'.icache i).d.size.toNat = max (k.icache i).d.size.toNat (off + src.length)
  nodes : ∀ j, j ≠ (k.icache i).inum → k'.dinode j = k.dinode j
  contents : ∀ j, j ≠ (k.icache i).inum → (k.dinode j).type ≠ .free →
    (k.dinode j).contents k'.block = (k.dinode j).contents k.block
  others : ∀ j size m, j ≠ i → Loaded k j → (k.icache j).d.type ≠ .dev → Reads k j size m → Reads k' j size m

section Write
variable {src : List UInt8} {off : Word}

theorem writei_out (hdev : (k.icache i).d.type ≠ .dev) (hlen : src.length < 2 ^ 32)
    (hout : OutOfBounds (k.icache i).d.size.toNat off.toNat src.length) : (writei p i src off).run sem k = .ok (-1, k) := by
  rw [writei, inode_bind_run, if_neg hdev]
  by_cases hfirst : off > (k.icache i).d.size ∨ off + BitVec.ofNat 32 src.length < off
  · rw [if_pos hfirst]
    rfl
  · have hend : (off + BitVec.ofNat 32 src.length).toNat > MAXFILE * BSIZE := by
      unfold OutOfBounds at hout
      bv_omega
    rw [if_neg hfirst, if_pos hend]
    rfl

theorem Edited.rewritten (h : Intact k) (hi : Loaded k i) (hdev : (k.icache i).d.type ≠ .dev)
    (hin : ¬ OutOfBounds (k.icache i).d.size.toNat off.toNat src.length)
    (he : Edited k i (grownSize (k.icache i).d.size (off + BitVec.ofNat 32 src.length) src.length)
      (((k.icache i).d.contents k.block).write off.toNat src) k') : Rewritten k i off.toNat src k' := by
  obtain ⟨addrs, hinode⟩ := he.inode
  unfold OutOfBounds at hin
  push Not at hin
  have hsize : (k'.icache i).d.size.toNat = max (k.icache i).d.size.toNat (off.toNat + src.length) := by
    rw [hinode]
    exact grownSize_toNat hin.2.1 hin.1
  refine ⟨he.intact, ?_, hsize, he.dinode, he.rest, fun j size m hj hloaded hdev' hreads p o n => ?_⟩
  · rw [← hsize, ← he.contents]
    refine reads_of_intact he.intact ?_ ?_
    · unfold Loaded
      rw [hinode]
      exact hi
    · rw [hinode]
      exact hdev
  · -- the entry of another file is as before, and so are its blocks
    have hother := he.other j hj
    have hinum : (k.icache j).inum ≠ (k.icache i).inum := fun heq => hj (h.unique j i hloaded.1 hi.1 heq)
    obtain ⟨hsync, hlive⟩ := h.sync j hloaded.1 hloaded.2
    have hrest := he.rest _ hinum (by rwa [hsync])
    rw [hsync] at hrest
    have hnew : Reads k' j (k.icache j).d.size.toNat ((k.icache j).d.contents k.block) := by
      have hreads' := reads_of_intact (i := j) he.intact (by unfold Loaded; rwa [hother]) (by rwa [hother])
      rwa [hother, hrest] at hreads'
    have hold := (hreads p o n).symm.trans (reads_of_intact h hloaded hdev' p o n)
    rw [hnew p o n]
    exact congrArg (fun r => Except.ok (r, k')) (congrArg Prod.fst (Except.ok.inj hold)).symm

/-- The transaction stays open while the file system is at work. -/
theorem core_outstanding {α : Type} {x : KProg α} (hx : x.Uses Core) (h : 1 ≤ k.log.outstanding) :
    x.Wp sem (fun _ t => 1 ≤ t.log.outstanding) (fun _ t => 1 ≤ t.log.outstanding) k := by
  refine hx.wp_keeps h fun o ho t ht => ⟨ht, fun b t' hsem => ?_⟩
  cases o with
  | panic => cases hsem
  | fs o =>
    have hsame := FsBlind.sem (f := fun k => k.log.outstanding) (by constructor <;> intros <;> rfl) o t b t' hsem
    exact ht.trans_eq hsame.symm
  | _ => exact ho.elim

/-- A write within the limits of a file returns, or the log has no room for another block. -/
theorem writei_in (h : Intact k) (hi : Loaded k i) (hdev : (k.icache i).d.type ≠ .dev) (hlock : (k.icache i).lock = some p)
    (hopen : 1 ≤ k.log.outstanding) (hin : ¬ OutOfBounds (k.icache i).d.size.toNat off.toNat src.length)
    (hfree : ∀ t, Reach sem (writei p i src off) k (.panic "balloc: out of blocks") t → ¬ t.Full) :
    (∃ k', (writei p i src off).run sem k = .ok (src.length, k') ∧ Rewritten k i off.toNat src k') ∨
    (writei p i src off).run sem k = .error (.panic "too big a transaction") ∧
      ∃ o t, Reach sem (writei p i src off) k o t ∧ (LOGSIZE ≤ t.log.lh.length ∨ t.log.size - 1 ≤ t.log.lh.length) := by
  have hin' := hin
  unfold OutOfBounds at hin'
  push Not at hin'
  have hadvance : (writei p i src off).Wp sem (Advances p i) _ k := writei_advances ⟨hlock, hi.1⟩ hdev hin'.1 hin'.2.2
  cases hrun : (writei p i src off).run sem k with
  | ok r =>
    obtain ⟨r, k'⟩ := r
    have hwrite : (writei p i src off).Wp sem (Fine .bfree) _ k := writei_spec h hi hdev (by omega)
    have hspec := hwrite.run hrun
    obtain ⟨rfl, -⟩ := hadvance.run hrun
    rcases hspec with ⟨hneg, -⟩ | ⟨-, -, -, he⟩
    · omega
    · exact .inl ⟨k', rfl, he.rewritten h hi hdev hin⟩
  | error =>
    obtain ⟨o, t, hreach, ho⟩ := exists_reach_of_error hrun
    have hopen' := (core_outstanding (writei_core p i src off) hopen).reach hreach
    cases (hadvance.reach hreach).filler with
    | fills hfills =>
      obtain ⟨rfl, hfull⟩ := Log.checkWrite_eq_error (hfills.stops ho) hopen'
      exact .inr ⟨rfl, _, t, hreach, hfull⟩
    | full hfull => exact absurd hfull (hfree t hreach)

/-- A file or directory that the process has locked, inside a transaction. As long as `balloc`
finds free blocks, a write within the limits stops only where the log has no room left for
the transaction. -/
theorem readi_writei_bytes (h : Intact k) (hi : Loaded k i) (htype : (k.icache i).d.type = .file ∨ (k.icache i).d.type = .dir)
    (hlock : (k.icache i).lock = some p) (hopen : 1 ≤ k.log.outstanding) (off : Word) (src : List UInt8)
    (hlen : src.length < 2 ^ 32) :
    Reads k i (k.icache i).d.size.toNat ((k.icache i).d.contents k.block) ∧
    (OutOfBounds (k.icache i).d.size.toNat off.toNat src.length → (writei p i src off).run Op.sem k = .ok (-1, k)) ∧
    (¬ OutOfBounds (k.icache i).d.size.toNat off.toNat src.length →
      (∀ t, Reach Op.sem (writei p i src off) k (.panic "balloc: out of blocks") t → ¬ t.Full) →
      (∃ k', (writei p i src off).run Op.sem k = .ok (src.length, k') ∧ Rewritten k i off.toNat src k') ∨
      (writei p i src off).run Op.sem k = .error (.panic "too big a transaction") ∧
        ∃ o t, Reach Op.sem (writei p i src off) k o t ∧ (LOGSIZE ≤ t.log.lh.length ∨ t.log.size - 1 ≤ t.log.lh.length)) := by
  have hdev : (k.icache i).d.type ≠ .dev := by
    rcases htype with htype | htype
    all_goals
      rw [htype]
      decide
  exact ⟨reads_of_intact h hi hdev, writei_out hdev hlen, writei_in h hi hdev hlock hopen⟩

/-- Two bytes are written to a file. -/
theorem readi_writei_bytes_two : ∃ k', (writei 0 0 [65, 66] 1).run Op.sem (oneFile 2 (some 0) ⟨LOGSIZE, 1, false, []⟩) = .ok (2, k') ∧
    Rewritten (oneFile 2 (some 0) ⟨LOGSIZE, 1, false, []⟩) 0 1 [65, 66] k' := by
  have htest : ((writei 0 0 [65, 66] 1).run sem).test (oneFile 2 (some 0) ⟨LOGSIZE, 1, false, []⟩) (fun r _ => r = 2) = true := by
    decide +kernel
  obtain ⟨r, k', hrun, hr⟩ := Comp.test_eq_true htest
  obtain rfl : r = 2 := of_decide_eq_true hr
  have hintact : Intact (oneFile 2 (some 0) ⟨LOGSIZE, 1, false, []⟩) := oneFile_intact (by decide)
  obtain ⟨-, -, hin⟩ := readi_writei_bytes (i := 0) hintact ⟨by decide, rfl⟩ (Or.inl rfl) rfl (by decide) 1 [65, 66] (by decide)
  have hno (t : Kernel) (hreach : Reach sem (writei 0 0 [65, 66] 1) (oneFile 2 (some 0) ⟨LOGSIZE, 1, false, []⟩)
      (.panic "balloc: out of blocks") t) : ¬ t.Full := by
    cases hrun.symm.trans (run_of_reach hreach rfl)
  obtain ⟨k₁, hrun₁, hk₁⟩ | ⟨herr, -⟩ := hin (by unfold OutOfBounds; decide) hno
  · cases hrun.symm.trans hrun₁
    exact ⟨k', hrun, hk₁⟩
  · cases hrun.symm.trans herr

/-- A write of 31 blocks does not fit into the log, though the disk has room for it. And
`readi` refuses a range whose end wraps, whatever lies below the size. -/
theorem writei_overflows_log :
    Intact (oneFile 2 (some 0) ⟨LOGSIZE, 1, false, []⟩) ∧
    ¬ OutOfBounds 2 0 (List.replicate (31 * BSIZE) (0 : UInt8)).length ∧
    (writei 0 0 (List.replicate (31 * BSIZE) 0) 0).run Op.sem (oneFile 2 (some 0) ⟨LOGSIZE, 1, false, []⟩) =
      .error (.panic "too big a transaction") ∧
    (∀ t, ¬ Reach Op.sem (writei 0 0 (List.replicate (31 * BSIZE) 0) 0) (oneFile 2 (some 0) ⟨LOGSIZE, 1, false, []⟩)
      (.panic "balloc: out of blocks") t) ∧
    (readi 0 0 1 0xffffffff).run Op.sem (oneFile 2 (some 0) ⟨LOGSIZE, 1, false, []⟩) =
      .ok ((-1, []), oneFile 2 (some 0) ⟨LOGSIZE, 1, false, []⟩) := by
  have hrun : (writei 0 0 (List.replicate (31 * BSIZE) 0) 0).run sem (oneFile 2 (some 0) ⟨LOGSIZE, 1, false, []⟩) =
      .error (.panic "too big a transaction") := Comp.panics_eq_true (by decide +kernel)
  refine ⟨oneFile_intact (by decide), ?_, hrun, fun t hreach => ?_, rfl⟩
  · rw [List.length_replicate]
    unfold OutOfBounds
    decide
  · have hsame := Stop.panic.inj (Except.error.inj (hrun.symm.trans (run_of_reach hreach rfl)))
    exact absurd hsame (by decide)

end Write
end Fs
end Xv6
