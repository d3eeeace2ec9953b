import Xv6.Fs.Inode
import Xv6.Lib.Ledger

/-! # Blocks of inodes

Where an inode names its blocks, which inode a block belongs to, and what a file holds.
The bytes of a block that is not there are zero, as `balloc` clears what it hands out.
-/
namespace Xv6
open Function

/-- The places where an inode names a block: its direct addresses, the address of its
indirect block, and the words of the indirect block. -/
inductive BlockRef
  | direct (n : Fin NDIRECT)
  | indirect
  | entry (j : Fin NINDIRECT)
  deriving DecidableEq

/-- The slot of `addrs` for the indirect block. -/
abbrev INDIRECT : Fin 8 := ⟨NDIRECT, Nat.lt_succ_self _⟩

def refOf (n : Fin 8) : BlockRef := if h : n.val < NDIRECT then .direct ⟨n, h⟩ else .indirect

/-- The place of block `bn` of a file. -/
def placeOf (bn : ℕ) : Option BlockRef :=
  if h : bn < NDIRECT then some (.direct ⟨bn, h⟩)
  else if h : bn - NDIRECT < NINDIRECT then some (.entry ⟨bn - NDIRECT, h⟩)
  else none

namespace Dinode

def addr (d : Dinode) (block : Word → Mem) : BlockRef → Word
  | .direct n => d.addrs ⟨n, Nat.lt_succ_of_lt n.2⟩
  | .indirect => d.addrs INDIRECT
  | .entry j => if d.addrs INDIRECT = 0 then 0 else Mem.word (block (d.addrs INDIRECT)) (4 * j)

/-- The bytes of a file, as if it had no end. -/
def contents (d : Dinode) (block : Word → Mem) : Mem := fun o =>
  match placeOf (o / BSIZE) with
  | some r => if d.addr block r = 0 then 0 else block (d.addr block r) (o % BSIZE)
  | none => 0

def Whole (d : Dinode) (block : Word → Mem) : Prop :=
  ∀ bn, bn * BSIZE < d.size.toNat → ∃ r, placeOf bn = some r ∧ d.addr block r ≠ 0

end Dinode

def owner (node : ℕ → Dinode) (block : Word → Mem) (x : ℕ × BlockRef) : Option ℕ :=
  if (node x.1).type = .free ∨ (node x.1).addr block x.2 = 0 then none
  else some ((node x.1).addr block x.2).toNat

theorem refOf_of_lt (h : n < NDIRECT) : refOf ⟨n, Nat.lt_succ_of_lt h⟩ = .direct ⟨n, h⟩ := dif_pos h

theorem refOf_indirect : refOf INDIRECT = .indirect := rfl

def BlockRef.number : BlockRef → ℕ
  | direct n => n
  | indirect => 0
  | entry j => NDIRECT + j

variable {bn : ℕ} {r : BlockRef}

theorem placeOf_eq_some (h : placeOf bn = some r) : r ≠ .indirect ∧ r.number = bn := by
  unfold placeOf at h
  split at h
  · cases h
    exact ⟨by simp, rfl⟩
  · split at h
    · cases h
      refine ⟨by simp, ?_⟩
      simp only [BlockRef.number]
      omega
    · cases h

theorem placeOf_ne_indirect (h : placeOf bn = some r) : r ≠ .indirect := (placeOf_eq_some h).1

theorem placeOf_injective (h : placeOf bn = some r) (h' : placeOf bn' = some r) :
    bn = bn' := (placeOf_eq_some h).2.symm.trans (placeOf_eq_some h').2

theorem placeOf_of_lt (h : bn < MAXFILE) : ∃ r, placeOf bn = some r := by
  unfold placeOf
  split
  · exact ⟨_, rfl⟩
  · rw [dif_pos (show bn - NDIRECT < NINDIRECT by unfold MAXFILE at h; omega)]
    exact ⟨_, rfl⟩

namespace Dinode
variable {d d' : Dinode} {block block' : Word → Mem} {a t : Word} {r : BlockRef}

theorem addr_refOf (n : Fin 8) : d.addr block (refOf n) = d.addrs n := by
  unfold refOf
  split
  · rfl
  case isFalse h =>
    have hlt : n.val < 8 := n.isLt
    have hn : n = INDIRECT := Fin.ext (show n.val = NDIRECT by unfold NDIRECT at *; omega)
    rw [hn]
    rfl

/-- Only the indirect block decides what an inode names. -/
theorem addr_congr (h : d.addr block .indirect ≠ 0 → block' (d.addr block .indirect) = block (d.addr block .indirect)) :
    d.addr block' = d.addr block := by
  funext r
  cases r with
  | direct | indirect => rfl
  | entry =>
    by_cases hi : d.addrs INDIRECT = 0
    · simp only [addr, if_pos hi]
    · simp only [addr, if_neg hi]
      rw [show block' (d.addrs INDIRECT) = block (d.addrs INDIRECT) from h hi]

theorem addr_update_block (h : d.addr block .indirect ≠ 0 → d.addr block .indirect ≠ a) (m : Mem) :
    d.addr (update block a m) = d.addr block :=
  addr_congr fun hi => update_of_ne (h hi) ..

theorem contents_of_place (hr : placeOf (o / BSIZE) = some r) :
    d.contents block o = if d.addr block r = 0 then 0 else block (d.addr block r) (o % BSIZE) := by
  simp only [contents, hr]

theorem contents_congr (haddr : d'.addr block' = d.addr block)
    (h : ∀ r, r ≠ .indirect → d.addr block r ≠ 0 → block' (d.addr block r) = block (d.addr block r)) :
    d'.contents block' = d.contents block := by
  funext o
  unfold contents
  rw [haddr]
  cases hr : placeOf (o / BSIZE) with
  | none => rfl
  | some r =>
    dsimp only
    split
    · rfl
    case isFalse hne => rw [h r (placeOf_ne_indirect hr) hne]

theorem contents_update_block (h : ∀ r, d.addr block r ≠ 0 → d.addr block r ≠ a) (m : Mem) :
    d.contents (update block a m) = d.contents block :=
  contents_congr (addr_update_block (h .indirect) m) fun r _ hr => update_of_ne (h r hr) ..

theorem contents_fill (haddr : d'.addr block' = update (d.addr block) r a) (hr : d.addr block r = 0)
    (hzero : ∀ o, block' a o = 0)
    (hsame : ∀ r', r' ≠ .indirect → d.addr block r' ≠ 0 → block' (d.addr block r') = block (d.addr block r')) :
    d'.contents block' = d.contents block := by
  funext o
  unfold contents
  rw [haddr]
  cases hp : placeOf (o / BSIZE) with
  | none => rfl
  | some r' =>
    dsimp only
    by_cases hr' : r' = r
    · rw [hr', update_self, if_pos hr, hzero]
      exact ite_self 0
    · rw [update_of_ne hr']
      split
      · rfl
      case isFalse hne => rw [hsame r' (placeOf_ne_indirect hp) hne]

theorem addr_setAddr (hn : d.addrs n = 0) (ha : a ≠ 0) (hzero : ∀ o, block a o = 0) :
    ({ d with addrs := update d.addrs n a } : Dinode).addr block = update (d.addr block) (refOf n) a := by
  funext r
  by_cases hr : r = refOf n
  · rw [hr, update_self, addr_refOf]
    exact update_self ..
  rw [update_of_ne hr]
  cases r with
  | direct =>
    refine update_of_ne (fun hm => hr ?_) ..
    rw [← hm, refOf_of_lt]
  | indirect =>
    refine update_of_ne (fun hm => hr ?_) ..
    rw [← hm]
    rfl
  | entry j =>
    by_cases hi : INDIRECT = n
    · have hword : Mem.word (block a) (4 * j) = 0 := by
        rw [show block a = fun _ => 0 from funext hzero]
        exact Mem.word_zero _
      subst hi
      simp only [addr, update_self, if_neg ha, if_pos hn, hword]
    · simp only [addr, update_of_ne hi]

theorem addr_setEntry {j : Fin NINDIRECT} (ht : d.addrs INDIRECT ≠ 0) :
    d.addr (update block (d.addrs INDIRECT)
      ((block (d.addrs INDIRECT)).write (4 * j) (wordBytes a))) = update (d.addr block) (.entry j) a := by
  funext r
  cases r with
  | direct | indirect =>
    rw [update_of_ne (by simp)]
    rfl
  | entry j' =>
    simp only [addr, if_neg ht, update_self]
    by_cases hj : j' = j
    · rw [hj, update_self, Mem.word_write]
    · have hne : j'.val ≠ j.val := fun h => hj (Fin.ext h)
      have hword := Mem.word_write_of_ne (m := block (d.addrs INDIRECT)) (a := 4 * j.val) (b := 4 * j'.val) a (by omega)
      rw [hword, update_of_ne (by simpa using hj)]
      exact (if_neg ht).symm

theorem contents_write (hbn : placeOf bn = some r) (hr : d.addr block r ≠ 0) (hoff : off + src.length ≤ BSIZE)
    (hinj : ∀ r', d.addr block r' ≠ 0 → d.addr block r' = d.addr block r → r' = r) :
    d.contents (update block (d.addr block r) ((block (d.addr block r)).write off src)) =
      (d.contents block).write (bn * BSIZE + off) src := by
  have haddr : d.addr (update block (d.addr block r) ((block (d.addr block r)).write off src)) = d.addr block :=
    addr_update_block (fun hi heq => placeOf_ne_indirect hbn (hinj .indirect hi heq).symm) _
  funext o
  by_cases ho : o / BSIZE = bn
  · -- a byte of the block that is written
    have hdiv := Nat.div_add_mod o BSIZE
    rw [ho, Nat.mul_comm] at hdiv
    rw [← ho] at hbn
    rw [contents_of_place hbn, haddr, if_neg hr, update_self]
    unfold Mem.write
    rw [contents_of_place hbn, if_neg hr]
    by_cases hlt : off ≤ o % BSIZE
    · rw [if_pos hlt, if_pos (by omega), show o - (bn * BSIZE + off) = o % BSIZE - off by omega]
    · rw [if_neg hlt, if_neg (by omega)]
  · -- a byte of another block
    have hout : o < bn * BSIZE + off ∨ bn * BSIZE + off + src.length ≤ o := by
      by_contra hin
      push Not at hin
      refine ho ((Nat.div_eq_iff (by unfold BSIZE; omega)).mpr ?_)
      omega
    rw [Mem.write_outside hout]
    unfold contents
    rw [haddr]
    cases hp : placeOf (o / BSIZE) with
    | none => rfl
    | some r' =>
      dsimp only
      split
      · rfl
      case isFalse hne =>
        have hother : d.addr block r' ≠ d.addr block r := fun heq => by
          rw [hinj r' hne heq] at hp
          exact ho (placeOf_injective hp hbn)
        rw [update_of_ne hother]

end Dinode
end Xv6
