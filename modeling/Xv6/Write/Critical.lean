import Xv6.Fs.Advance
import Xv6.Fs.Moves
import Xv6.Sys.UserCopy
import Xv6.Tx.Header

/-! # The critical sections of `filewrite`

`filewrite` cuts what it writes into chunks, and writes each of them with the inode locked,
at the offset that it finds in the open file. A section that starts where the file holds
all that was written so far leaves the chunk behind it.
-/
namespace Xv6.Write
open Prog Fs Sys List
open KProg hiding panic

/-- What `filewrite` does between `ilock` and `end_op`. -/
def critical (p : Slot) (f : FileIdx) (ip : InodeIdx) (src : List UInt8) : KProg ℤ := do
  let off := (← getFile f).off
  let r ← writei p ip src off
  if r > 0 then file (.setOff f (off + BitVec.ofInt 32 r)) else pure ()
  iunlock p ip
  return r

variable {p : Slot} {f : FileIdx} {i : InodeIdx} {k₀ k : Kernel} {W src : List UInt8}

theorem writeChunk_eq (p : Slot) (f : FileIdx) (i : InodeIdx) (src : List UInt8) : writeChunk p f i src = (do
    beginOp
    ilock p i
    let r ← critical p f i src
    endOp
    return r) := by
  unfold writeChunk critical
  simp only [bind_assoc]
  refine bind_congr fun _ => bind_congr fun _ => bind_congr fun ff => bind_congr fun r => ?_
  split <;> rfl

/-- The file that entry `i` is for, with what has been written to it through `f` since `k₀`. -/
structure Stored (k₀ : Kernel) (f : FileIdx) (i : InodeIdx) (W : List UInt8) (k : Kernel) : Prop where
  intact : Intact k
  file : k.ftable f = { k₀.ftable f with off := (k₀.ftable f).off + BitVec.ofNat 32 W.length }
  ref : 0 < (k.icache i).ref
  inum : (k.icache i).inum = (k₀.icache i).inum
  type : (k.dinode (k₀.icache i).inum).type = .file
  size : (k.dinode (k₀.icache i).inum).size.toNat =
    max (k₀.dinode (k₀.icache i).inum).size.toNat ((k₀.ftable f).off.toNat + W.length)
  contents : (k.dinode (k₀.icache i).inum).contents k.block =
    ((k₀.dinode (k₀.icache i).inum).contents k₀.block).write (k₀.ftable f).off.toNat W

theorem Stored.congr (h : Stored k₀ f i W k) (hintact : Intact k') (hfile : k'.ftable f = k.ftable f)
    (href : (k'.icache i).ref = (k.icache i).ref) (hinum : (k'.icache i).inum = (k.icache i).inum)
    (hdinode : k'.dinode = k.dinode) (hblock : k'.block = k.block) : Stored k₀ f i W k' where
  intact := hintact
  file := hfile.trans h.file
  ref := href ▸ h.ref
  inum := hinum.trans h.inum
  type := by rw [hdinode, h.type]
  size := by rw [hdinode, h.size]
  contents := by rw [hdinode, hblock, h.contents]

def Fitting (k₀ : Kernel) (f : FileIdx) (n : ℕ) : Prop := (k₀.ftable f).off.toNat + n ≤ MAXFILE * BSIZE

theorem Stored.off_toNat (h : Stored k₀ f i W k) (hfit : Fitting k₀ f W.length) :
    (k.ftable f).off.toNat = (k₀.ftable f).off.toNat + W.length := by
  have hsmall : MAXFILE * BSIZE < 2 ^ 32 := by decide
  unfold Fitting at hfit
  rw [h.file, BitVec.toNat_add, BitVec.toNat_ofNat, Nat.add_mod_mod, Nat.mod_eq_of_lt (by omega)]

theorem Stored.edited (h : Stored k₀ f i W k) (hi : Loaded k i) (hfit : Fitting k₀ f (W ++ src).length)
    (he : Edited k i (grownSize (k.icache i).d.size ((k.ftable f).off + BitVec.ofNat 32 src.length) src.length)
      (((k.icache i).d.contents k.block).write (k.ftable f).off.toNat src) k1) (hfile : k1.ftable f = k.ftable f) :
    Stored k₀ f i (W ++ src) (k1.setFile f fun ff => { ff with off := (k.ftable f).off + BitVec.ofNat 32 src.length }) := by
  obtain ⟨addrs, hinode⟩ := he.inode
  have hinum : (k1.icache i).inum = (k₀.icache i).inum := by rw [hinode, h.inum]
  have hloaded : Loaded k1 i := by
    unfold Loaded
    rw [hinode]
    exact hi
  have hold : k.dinode (k₀.icache i).inum = (k.icache i).d := by rw [← h.inum, (h.intact.sync i hi.1 hi.2).1]
  have hnew : k1.dinode (k₀.icache i).inum = (k1.icache i).d := by
    rw [← hinum, (he.intact.sync i hloaded.1 hloaded.2).1]
  rw [length_append] at hfit
  have hoff := h.off_toNat (show Fitting k₀ f W.length by unfold Fitting at *; omega)
  have hsize := h.size
  rw [hold] at hsize
  refine ⟨he.intact.congr rfl rfl rfl rfl rfl, ?_, hloaded.1, hinum, ?_, ?_, ?_⟩
  · change Function.update k1.ftable f _ f = _
    rw [Function.update_self, hfile, h.file, length_append]
    simp only [BitVec.ofNat_add, BitVec.add_assoc]
  · change (k1.dinode _).type = _
    rw [hnew, hinode]
    exact (congrArg Dinode.type hold).symm.trans h.type
  · have hsmall : MAXFILE * BSIZE < 2 ^ 32 := by decide
    unfold Fitting at hfit
    change (k1.dinode _).size.toNat = _
    rw [hnew, hinode]
    change (grownSize _ _ _).toNat = _
    rw [grownSize_toNat (by omega) (by omega), hoff, hsize, length_append]
    omega
  · change (k1.dinode _).contents k1.block = _
    rw [hnew, he.contents, hoff, Mem.write_append, ← h.contents, hold]

/-- The operations of a critical section. -/
inductive Works (p : Slot) (i : InodeIdx) (k : Kernel) : Op → Prop
  | filler {o : Op} (h : Filler k o) : Works p i k o
  | unlock : Works p i k (.fs (.iunlock p i))
  | file (g : FileIdx) : Works p i k (.file (.file g))
  | setOff (g : FileIdx) (off : Word) : Works p i k (.file (.setOff g off))

def Working (p : Slot) (i : InodeIdx) (o : Op) (k : Kernel) : Prop := Grip p i k ∧ Works p i k o

theorem unlock_stores {α : Type} (h : Stored k₀ f i W k) (hgrip : Grip p i k) (a : α) :
    (iunlock p i >>= fun _ => pure a).Wp Op.sem (Working p i)
      (fun r k' => r = a ∧ Stored k₀ f i W k' ∧ (k'.icache i).lock = none) k := by
  refine wp_call_bind ⟨hgrip, .unlock⟩ fun _ k' hunlock => wp_pure ⟨rfl, ?_⟩
  obtain rfl := FsOp.iunlock_eq_ok hunlock
  have hintact : Intact (k.setInode i fun ip => { ip with lock := none }) :=
    h.intact.setInode rfl id fun hr hv => h.intact.sync i hr hv
  refine ⟨h.congr hintact rfl ?_ ?_ rfl rfl, ?_⟩
  all_goals rw [Kernel.setInode_self]

theorem writei_stores (h : Stored k₀ f i W k) (hi : Loaded k i) (hgrip : Grip p i k) (hfit : Fitting k₀ f (W ++ src).length) :
    (writei p i src (k.ftable f).off).Wp Op.sem (Advances p i) (fun (r : ℤ) k' => r = src.length ∧ Grip p i k' ∧
      Stored k₀ f i (W ++ src) (k'.setFile f fun ff => { ff with off := (k.ftable f).off + BitVec.ofNat 32 src.length })) k := by
  have hsmall : MAXFILE * BSIZE < 2 ^ 32 := by decide
  have hfit' := hfit
  rw [length_append] at hfit'
  have hoff := h.off_toNat (show Fitting k₀ f W.length by unfold Fitting at *; omega)
  unfold Fitting at hfit'
  have hd : k.dinode (k₀.icache i).inum = (k.icache i).d := by rw [← h.inum, (h.intact.sync i hi.1 hi.2).1]
  have hdev : (k.icache i).d.type ≠ .dev := by
    rw [← hd, h.type]
    decide
  have hsize := h.size
  rw [hd] at hsize
  have hadvance : (writei p i src (k.ftable f).off).Wp Op.sem (Advances p i) _ k :=
    writei_advances hgrip hdev (by omega) (by omega)
  have hwrite := hadvance.and (writei_spec (p := p) (w := .bfree) h.intact hi hdev (by omega))
  refine (hwrite.mono_fine fun _ _ hfine => hfine.1).and_run.mono fun r k1 ⟨⟨⟨hr, hgrip1⟩, hspec⟩, hrun⟩ => ⟨hr, hgrip1, ?_⟩
  have hfile : k1.ftable f = k.ftable f :=
    core_fixes (f := fun k => k.ftable f) (by constructor <;> intros <;> rfl) (writei_core p i src _) k _ k1 hrun
  rcases hspec with ⟨hneg, -⟩ | ⟨-, -, -, he⟩
  · omega
  · exact h.edited hi hfit he hfile

/-- Within its section the process has the inode locked and is not held up, and it leaves its
chunk behind what was written before. -/
theorem critical_stores (h : Stored k₀ f i W k) (hi : Loaded k i) (hlock : (k.icache i).lock = some p) (hsrc : src ≠ [])
    (hfit : Fitting k₀ f (W ++ src).length) : (critical p f i src).Wp Op.sem (Working p i)
      (fun (r : ℤ) k' => r = src.length ∧ Stored k₀ f i (W ++ src) k' ∧ (k'.icache i).lock = none) k := by
  have hgrip : Grip p i k := ⟨hlock, h.ref⟩
  have hpos := length_pos_iff.mpr hsrc
  refine wp_call_bind ⟨hgrip, .file f⟩ fun (ff : File) k1 hff => ?_
  cases hff
  have hwrite : (writei p i src (k.ftable f).off).Wp Op.sem (Working p i) _ k :=
    (writei_stores h hi hgrip hfit).mono_fine fun o t hfine => ⟨hfine.grip, .filler hfine.filler⟩
  refine hwrite.bind fun r k1 ⟨hr, hgrip1, hstored⟩ => ?_
  subst hr
  rw [if_pos (by omega)]
  refine wp_call_bind ⟨hgrip1, .setOff f _⟩ fun _ k2 hset => ?_
  cases hset
  rw [show BitVec.ofInt 32 (src.length : ℤ) = BitVec.ofNat 32 src.length from BitVec.ofInt_natCast ..]
  exact unlock_stores hstored ⟨hgrip1.lock, hgrip1.ref⟩ _

section Header
open Tx

theorem critical_onFiles (p : Slot) (f : FileIdx) (i : InodeIdx) (src : List UInt8) : (critical p f i src).Uses OnFiles := by
  have hend (r : ℤ) : (iunlock p i >>= fun _ => pure r).Uses OnFiles := uses_bind_call trivial fun _ => uses_pure _
  have hwrite (off : Word) : (writei p i src off).Uses OnFiles := (writei_core p i src off).mono fun o ho => by
    cases o with
    | panic | fs => trivial
    | _ => exact ho.elim
  refine uses_bind_call trivial fun (ff : File) => (hwrite ff.off).bind fun r => .ite ?_ (hend r)
  exact uses_bind_call trivial fun _ => hend r

theorem critical_sober (p : Slot) (f : FileIdx) (i : InodeIdx) (src : List UInt8) : (critical p f i src).Uses Sober := by
  have hend (r : ℤ) : (iunlock p i >>= fun _ => pure r).Uses Sober := uses_bind_call trivial fun _ => uses_pure _
  refine uses_bind_call trivial fun (ff : File) => (writei_sober i src ff.off).bind fun r => .ite ?_ (hend r)
  exact uses_bind_call trivial fun _ => hend r

/-- A chunk lies in four blocks at most. With the free map, the indirect block and the inode
that makes seven. -/
theorem critical_does {A : Others p} {m : Mode} {sb : Superblock} {K : Finset Word} {s : Pt} (hs : Budget sb K 5 s)
    (hi : (entry s i).lock = some p) (hpaid : sb.iblock (entry s i).inum ∈ K) (hlen : src.length ≤ writeMax) :
    Does A m (critical p f i src) s fun _ t => ∃ K, Budget sb K 0 t := by
  refine quiet_bind (o := .file (.file f)) trivial hs fun (ff : File) t hidle => ?_
  obtain ⟨hlock, hinum, -⟩ := hidle.grip i hi
  have hfits : ff.off.toNat % BSIZE + src.length ≤ 4 * BSIZE := by
    have hmax : writeMax = 3 * BSIZE := rfl
    have hmod : ff.off.toNat % BSIZE < BSIZE := Nat.mod_lt _ (by decide)
    omega
  refine (writei_any (n := 0) 4 (hidle.budget hs) hlock (by rwa [hinum]) hfits).bind fun r u ⟨K', _, hb, _⟩ => ?_
  have hend (v : Pt) (hbv : Budget sb K' 0 v) :
      Does A m (iunlock p i >>= fun _ => pure r) v fun _ t => ∃ K, Budget sb K 0 t :=
    does_call_bind hbv.fits fun _ w hunlock => does_pure ⟨K', (iunlock_turn hbv hunlock).1⟩
  refine does_ite (fun _ => ?_) fun _ => hend u hb
  exact quiet_bind (o := .file (.setOff f _)) trivial hb fun _ v hv => hend v (hv.budget hb)

theorem critical_header (hmap : OneMapBlock k) (hlock : (k.icache i).lock = some p) (hnodup : k.log.lh.Nodup)
    (hlen : src.length ≤ writeMax) : (critical p f i src).Wp Op.sem (fun _ k' => Within k.log.lh k'.log.lh)
      (fun _ k' => Within k.log.lh k'.log.lh ∧ OneMapBlock k') k := by
  have hcard : ((k.log.lh.take 3).toFinset ∪ {k.sb.mapBlock, k.sb.iblock (k.icache i).inum}).card + 5 ≤ MAXOPBLOCKS := by
    have hthree := (toFinset_card_le (k.log.lh.take 3)).trans (length_take_le 3 _)
    have htwo : ({k.sb.mapBlock, k.sb.iblock (k.icache i).inum} : Finset Word).card ≤ 2 := Finset.card_le_two
    have hunion := Finset.card_union_le (k.log.lh.take 3).toFinset {k.sb.mapBlock, k.sb.iblock (k.icache i).inum}
    simp only [MAXOPBLOCKS]
    omega
  have hbudget : Budget k.sb {k.sb.mapBlock, k.sb.iblock (k.icache i).inum} 5 ⟨k, ⟨0, (k.log.lh.take 3).toFinset⟩, 0⟩ :=
    ⟨rfl, hmap, fun j hj => absurd hj (Multiset.notMem_zero j), by simp, hcard⟩
  have hdoes : Does (.none p) ⟨false, false⟩ (critical p f i src) _ _ :=
    critical_does hbudget hlock (by simp [entry]) hlen
  have hwp := hdoes (assumed_of_sober (critical_sober p f i src))
  refine (header_wp (critical_onFiles p f i src) hwp (fun _ t hb => hb.choose_spec.fits) ?_ Finset.Subset.rfl).mono ?_
  · exact ⟨[], (append_nil _).symm, hnodup, fun w hw => by cases hw⟩
  · rintro r k' ⟨hwithin, g, n, K, hb⟩
    exact ⟨hwithin, hb.map⟩

end Header
end Xv6.Write
