import Xv6.Fs.Contents

/-! # Writes that go through

Inside a transaction a write to a file that is locked stops only where the log has no room
or the disk no free block.
-/
namespace Xv6
open Comp Kernel

/-- The log takes another block. -/
structure Log.Roomy (l : Log) : Prop where
  lh : l.lh.length < LOGSIZE
  size : l.lh.length < l.size - 1
  outstanding : 1 ≤ l.outstanding

def Kernel.Full (k : Kernel) : Prop := ∀ b < k.sb.size, k.bitmap b = true

/-- The process has the inode locked. -/
structure Grip (p : Slot) (i : InodeIdx) (k : Kernel) : Prop where
  lock : (k.icache i).lock = some p
  ref : 0 < (k.icache i).ref

variable {p : Slot} {i : InodeIdx} {o : FsOp}

theorem Grip.of_tag (h : Grip p i k) (htag : (k'.icache i).tag = (k.icache i).tag) : Grip p i k' := by
  simp only [Inode.tag, Prod.mk.injEq] at htag
  exact ⟨htag.2.2.trans h.lock, htag.2.1 ▸ h.ref⟩

section Goes
variable {k : Kernel}

theorem Kernel.logWrite_of_roomy (h : k.log.Roomy) (b : Word) : ∃ k', logWrite b k = .ok ((), k') := by
  have hcheck : Log.checkWrite k.log = .ok ((), k.log) := by
    rw [Log.checkWrite_apply, if_neg, if_neg]
    · exact not_lt.mpr h.outstanding
    · rw [not_or, not_le, not_le]
      exact ⟨h.lh, h.size⟩
  exact ⟨_, onLog_eq_ok.mpr ⟨_, bind_eq_ok.mpr ⟨(), k.log, hcheck, rfl⟩, rfl⟩⟩

def FsOp.Fills : FsOp → Prop
  | inode _ => True
  | store _ (.size _) => True
  | store _ (.addr _ _) => True
  | iupdate _ => True
  | sb => True
  | claimBlock _ => True
  | bzero _ => True
  | readBlock _ => True
  | writeBlock _ _ _ => True
  | _ => False

theorem FsOp.claimBlock_apply (b : ℕ) : claimBlock.sem b k = match firstFree k.bitmap k.sb.size BPB b with
    | none => .ok (none, k)
    | some a => (do
      logWrite (k.bblock a)
      Comp.modify fun k => { k with bitmap := Function.update k.bitmap a true }
      return some (BitVec.ofNat 32 a) : Comp Kernel (Option Word)) k := by
  unfold claimBlock.sem
  simp only [bind_apply, get_apply]
  cases firstFree k.bitmap k.sb.size BPB b <;> rfl

theorem FsOp.Fills.goes (h : o.Fills) (hroom : k.log.Roomy) : ∃ b k', o.sem k = .ok (b, k') := by
  cases o with
  | inode j | sb | readBlock c => exact ⟨_, _, rfl⟩
  | store j u => cases u <;> exact ⟨_, _, rfl⟩
  | iupdate j =>
    obtain ⟨k1, hlog⟩ := logWrite_of_roomy hroom (k.iblock (k.icache j).inum)
    exact ⟨(), _, bind_eq_ok.mpr ⟨k, k, rfl, (bind_of_ok hlog).trans rfl⟩⟩
  | claimBlock c =>
    change ∃ r k', claimBlock.sem c k = .ok (r, k')
    rw [claimBlock_apply]
    cases firstFree k.bitmap k.sb.size BPB c with
    | none => exact ⟨none, k, rfl⟩
    | some b =>
      obtain ⟨k1, hlog⟩ := logWrite_of_roomy hroom (k.bblock b)
      exact ⟨_, _, (bind_of_ok hlog).trans rfl⟩
  | bzero b | writeBlock b =>
    obtain ⟨k1, hlog⟩ := logWrite_of_roomy hroom b
    exact ⟨(), _, (bind_of_ok hlog).trans rfl⟩
  | _ => exact h.elim

theorem FsOp.Fills.still (h : o.Fills) : o.Still := by
  cases o with
  | store | inode | sb | readBlock | iupdate | claimBlock | bzero | writeBlock => trivial
  | _ => exact h.elim

theorem Grip.iunlock (h : Grip p i k) : ∃ b k', (FsOp.iunlock p i).sem k = .ok (b, k') := by
  refine ⟨(), k.setInode i fun ip => { ip with lock := none }, ?_⟩
  have hno : ¬ ((k.icache i).lock ≠ some p ∨ (k.icache i).ref < 1) := by
    have href := h.ref
    rw [not_or, not_not]
    exact ⟨h.lock, by omega⟩
  exact (FsOp.iunlock_apply ..).trans (if_neg hno)

theorem FsOp.firstFree_eq_none {bitmap : ℕ → Bool} (h : firstFree bitmap size n b = none)
    (hb : b ≤ x) (hn : x < b + n) (hx : x < size) : bitmap x = true := by
  induction n generalizing b with
  | zero => omega
  | succ n ih =>
    unfold firstFree at h
    rw [if_pos (by omega)] at h
    split at h
    case isTrue hset =>
      rcases Nat.eq_or_lt_of_le hb with rfl | hlt
      · exact hset
      · exact ih h hlt (by omega)
    case isFalse => cases h

end Goes

namespace Fs
open Prog
open KProg hiding panic

section Advance
variable {p : Slot} {i : InodeIdx} {k : Kernel}

/-- What a write comes to: an operation that fills blocks, or the panic of `balloc` on a full
disk. -/
inductive Filler (k : Kernel) : Op → Prop
  | fills {o : FsOp} (h : o.Fills) : Filler k (.fs o)
  | full (h : k.Full) : Filler k (.panic "balloc: out of blocks")

/-- And the process has the inode locked. -/
structure Advances (p : Slot) (i : InodeIdx) (o : Op) (k : Kernel) : Prop where
  grip : Grip p i k
  filler : Filler k o

theorem fills_advances (h : o.Fills) (hk : Grip p i k) :
    Advances p i (.fs o) k ∧ ∀ b k', o.sem k = .ok (b, k') → Grip p i k' :=
  ⟨⟨hk, .fills h⟩, fun b k' ho => hk.of_tag (congrFun (h.still.fixes k b k' ho) i)⟩

theorem fills_wp {α : Type} {f : o.Ans → KProg α} {Q : α → Kernel → Prop} (h : o.Fills) (hk : Grip p i k)
    (hf : ∀ b k', o.sem k = .ok (b, k') → Grip p i k' → (f b).Wp Op.sem (Advances p i) Q k') :
    (fs o >>= f).Wp Op.sem (Advances p i) Q k :=
  wp_call_bind (fills_advances h hk).1 fun b k' ho => hf b k' ho ((fills_advances h hk).2 b k' ho)

theorem balloc_advances (hk : Grip p i k) : balloc.Wp Op.sem (Advances p i) (fun _ k' => Grip p i k') k := by
  have hfrom (turns b : ℕ) (k : Kernel) (hk : Grip p i k) (hend : k.sb.size ≤ b + turns * BPB)
      (hbelow : ∀ x < b, x < k.sb.size → k.bitmap x = true) :
      (ballocFrom turns b).Wp Op.sem (Advances p i) (fun _ k' => Grip p i k') k := by
    induction turns generalizing b with
    | zero =>
      refine ⟨⟨hk, .full fun x hx => hbelow x ?_ hx⟩, fun b => b.elim⟩
      omega
    | succ turns ih =>
      refine fills_wp (o := .claimBlock b) trivial hk fun (r : Option Word) k' ho hk' => ?_
      cases r with
      | some a => exact fills_wp (o := .bzero a) trivial hk' fun _ k'' _ hk'' => wp_pure hk''
      | none =>
        -- this block of the map has no free bit
        change FsOp.claimBlock.sem b k = _ at ho
        rw [FsOp.claimBlock_apply] at ho
        cases hfree : FsOp.firstFree k.bitmap k.sb.size BPB b with
        | some =>
          rw [hfree] at ho
          obtain ⟨_, k1, -, ho⟩ := Comp.bind_eq_ok.mp ho
          cases ho
        | none =>
          rw [hfree] at ho
          cases ho
          refine ih (b + BPB) ?_ fun x hx hsize => ?_
          · rw [Nat.succ_mul] at hend
            omega
          · by_cases hxb : x < b
            · exact hbelow x hxb hsize
            · exact FsOp.firstFree_eq_none hfree (by omega) hx hsize
  refine fills_wp (o := .sb) trivial hk fun (sb : Superblock) k' ho hk' => ?_
  cases ho
  refine hfrom _ 0 k hk' ?_ fun x hx => by omega
  have hdiv := Nat.div_add_mod (k.sb.size + BPB - 1) BPB
  have hmod := Nat.mod_lt (k.sb.size + BPB - 1) (by decide : BPB > 0)
  rw [Nat.mul_comm] at hdiv
  have hpos : BPB > 0 := by decide
  omega

theorem addrOf_advances (hk : Grip p i k) (j : InodeIdx) (n : Fin 8) :
    (addrOf j n).Wp Op.sem (Advances p i) (fun _ k' => Grip p i k') k := by
  refine fills_wp (o := .inode j) trivial hk fun (ip : Inode) k' _ hk' => wp_ite (fun _ => ?_) fun _ => wp_pure hk'
  refine (balloc_advances hk').bind fun a k1 hk1 => ?_
  exact fills_wp (o := .store j (.addr n a)) trivial hk1 fun _ k2 _ hk2 => wp_pure hk2

theorem bmap_advances (hk : Grip p i k) (j : InodeIdx) {bn : ℕ} (hbn : bn < MAXFILE) :
    (bmap j bn).Wp Op.sem (Advances p i) (fun _ k' => Grip p i k') k := by
  unfold bmap
  split
  case isTrue => exact addrOf_advances hk j _
  case isFalse hdirect =>
    have hin : bn - NDIRECT < NINDIRECT := by
      simp only [MAXFILE] at hbn
      omega
    rw [if_pos hin]
    refine (addrOf_advances hk j _).bind fun a k1 hk1 => ?_
    refine fills_wp (o := .readBlock a) trivial hk1 fun (data : Mem) k2 _ hk2 => wp_ite (fun _ => ?_) fun _ => wp_pure hk2
    refine (balloc_advances hk2).bind fun b k3 hk3 => ?_
    exact fills_wp (o := .writeBlock a _ _) trivial hk3 fun _ k4 _ hk4 => wp_pure hk4

theorem writeLoop_advances (hk : Grip p i k) (j : InodeIdx) (turns off : ℕ) (src : List UInt8)
    (hmax : off + src.length ≤ MAXFILE * BSIZE) :
    (writeLoop j turns off src).Wp Op.sem (Advances p i) (fun _ k' => Grip p i k') k := by
  induction turns generalizing k off src with
  | zero => exact wp_pure hk
  | succ turns ih =>
    refine wp_ite (fun _ => wp_pure hk) fun hnil => ?_
    have hpos := List.length_pos_iff.mpr hnil
    have hbn : off / BSIZE < MAXFILE := Nat.div_lt_of_lt_mul (by rw [Nat.mul_comm]; omega)
    refine (bmap_advances hk j hbn).bind fun a k1 hk1 => ?_
    refine fills_wp (o := .writeBlock a _ _) trivial hk1 fun _ k2 _ hk2 => ih hk2 _ _ ?_
    rw [List.length_take, List.length_drop]
    omega

theorem writei_advances (hk : Grip p i k) (hdev : (k.icache i).d.type ≠ .dev)
    (hoff : off.toNat ≤ (k.icache i).d.size.toNat) (hmax : off.toNat + src.length ≤ MAXFILE * BSIZE) :
    (writei p i src off).Wp Op.sem (Advances p i) (fun (r : ℤ) k' => r = src.length ∧ Grip p i k') k := by
  have hsmall : MAXFILE * BSIZE < 2 ^ 31 := by decide
  have hend : (off + BitVec.ofNat 32 src.length).toNat = off.toNat + src.length := by
    rw [BitVec.toNat_add, BitVec.toNat_ofNat, Nat.add_mod_mod, Nat.mod_eq_of_lt (by omega)]
  refine fills_wp (o := .inode i) trivial hk fun (ip : Inode) k1 hip hk1 => ?_
  cases hip
  rw [if_neg hdev, if_neg (by bv_omega), if_neg (by omega)]
  refine (writeLoop_advances hk1 i _ _ src hmax).bind fun _ k2 hk2 => ?_
  have hgrow : (growTo i (off + BitVec.ofNat 32 src.length) src.length).Wp Op.sem (Advances p i) (fun _ k' => Grip p i k') k2 := by
    refine fills_wp (o := .inode i) trivial hk2 fun (ip : Inode) k3 _ hk3 => wp_ite (fun _ => ?_) fun _ => wp_pure hk3
    refine fills_wp (o := .store i (.size _)) trivial hk3 fun _ k4 _ hk4 => ?_
    exact wp_call (fills_advances (o := .iupdate i) trivial hk4).1 (fills_advances (o := .iupdate i) trivial hk4).2
  refine hgrow.bind fun _ k3 hk3 => wp_pure ⟨?_, hk3⟩
  rw [BitVec.toInt_eq_toNat_of_lt] <;> rw [BitVec.toNat_ofNat, Nat.mod_eq_of_lt (by omega)]
  omega

end Advance
end Fs
end Xv6
