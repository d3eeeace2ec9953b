import Xv6.Fs.Moves
import Xv6.Fs.Small

/-! # Directories as tables of entries

What a directory holds is read as a table of `struct dirent`. `dirlookup` returns the first
entry in use with the given name, and `dirlink` fills an entry that is not in use, or a
new one at the end, with a name that the directory does not have.
-/
namespace Xv6.Fs
open Prog List
open KProg hiding panic

def direntAt (m : Mem) (n : ℕ) : Dirent :=
  dirent ((List.range SIZEOF_DIRENT).map fun j => m (SIZEOF_DIRENT * n + j))

def slots (size : Word) : ℕ := size.toNat / SIZEOF_DIRENT

def Dirent.Names (de : Dirent) (name : List UInt8) : Prop := de.inum ≠ 0 ∧ de.name = dirName name

section Entries
variable {m : Mem} {n n' : ℕ} {bs name : List UInt8} {inum : BitVec 16}

theorem dirName_length (name : List UInt8) : (dirName name).length ≤ DIRSIZ := by
  have htake := takeWhile_prefix (l := name.take DIRSIZ) (p := (· ≠ 0))
  have hle := htake.length_le
  rw [length_take] at hle
  exact hle.trans (Nat.min_le_left _ _)

theorem direntBytes_length : (direntBytes inum name).length = SIZEOF_DIRENT := by
  have hle := dirName_length name
  simp only [direntBytes, halfwordBytes, length_append, length_replicate, length_cons, length_nil]
  unfold DIRSIZ at *
  unfold SIZEOF_DIRENT
  omega

theorem dirName_padded (pad : ℕ) : dirName (dirName name ++ replicate pad 0) = dirName name := by
  have hall : ∀ c ∈ dirName name, decide (c ≠ 0) = true := all_eq_true.mp all_takeWhile
  have hle := dirName_length name
  rw [dirName, take_append, take_of_length_le hle, takeWhile_append_of_pos hall, take_replicate]
  have hzeros (a : ℕ) : (replicate a (0 : UInt8)).takeWhile (· ≠ 0) = [] := by cases a <;> rfl
  rw [hzeros, append_nil]

theorem dirent_direntBytes : dirent (direntBytes inum name) = ⟨inum, dirName name⟩ := by
  have hhalf : Mem.halfword (fun a => (direntBytes inum name).getD a 0) 0 = inum := by
    refine (Mem.halfword_congr fun x h0 h1 => ?_).trans (Mem.halfword_write (fun _ => 0) 0 inum)
    obtain rfl | rfl : x = 0 ∨ x = 1 := by omega
    · rfl
    · rfl
  have hdrop : (direntBytes inum name).drop 2 = dirName name ++ replicate (DIRSIZ - (dirName name).length) 0 := rfl
  rw [dirent, hhalf, hdrop, dirName_padded]

theorem direntAt_write (hlen : bs.length = SIZEOF_DIRENT) : direntAt (m.write (SIZEOF_DIRENT * n) bs) n = dirent bs := by
  refine congrArg dirent (ext_getElem (by simp [hlen]) fun j h0 h1 => ?_)
  rw [getElem_map, getElem_range, Mem.write_inside h1]

end Entries

variable {w : Watch} {k k' : Kernel} {i dp : InodeIdx} {p : Slot} {name : List UInt8}

abbrev table (k : Kernel) (dp : InodeIdx) : Mem := (k.icache dp).d.contents k.block

theorem readDirent_spec (h : Intact k) (hdp : Loaded k dp) (hdir : (k.icache dp).d.type = .dir)
    (hn : SIZEOF_DIRENT * n < (k.icache dp).d.size.toNat) (msg : String) :
    (readDirent p dp (SIZEOF_DIRENT * n) msg).Wp Op.sem (Fine w)
      (fun de k' => k' = k ∧ n < slots (k.icache dp).d.size ∧ de = direntAt (table k dp) n) k := by
  have hdev : (k.icache dp).d.type ≠ .dev := by
    rw [hdir]
    nofun
  refine (readi_spec hdev (h.whole_of_loaded hdp) _ _).bind fun (r, bytes) k' ⟨hk', hr⟩ => ?_
  subst hk'
  refine wp_ite (fun hsize => wp_pure ⟨rfl, ?_⟩) fun _ => panic_spec
  generalize (k'.icache dp).d.size = size at *
  have hoff : (BitVec.ofNat 32 (SIZEOF_DIRENT * n)).toNat = SIZEOF_DIRENT * n := by
    rw [BitVec.toNat_ofNat, Nat.mod_eq_of_lt (by bv_omega)]
  have hwidth : BitVec.ofNat 32 SIZEOF_DIRENT = 16#32 := rfl
  rw [hwidth] at hr
  generalize BitVec.ofNat 32 (SIZEOF_DIRENT * n) = off at *
  unfold fileRead at hr
  split at hr
  case isTrue =>
    cases hr
    cases hsize
  case isFalse hin =>
    push Not at hin
    obtain ⟨hlen, rfl⟩ := Prod.mk.inj hr
    have hfull : (if off + 16#32 > size then size - off else 16#32) = 16#32 :=
      BitVec.eq_of_toInt_eq (hlen.symm.trans hsize)
    have hend : off.toNat + 16 ≤ size.toNat := by
      split at hfull <;> bv_omega
    rw [hfull, hoff]
    refine ⟨?_, rfl⟩
    unfold slots SIZEOF_DIRENT at *
    omega

theorem readDirent_run (hdir : (k.icache dp).d.type = .dir)
    (hn : SIZEOF_DIRENT * n + SIZEOF_DIRENT ≤ (k.icache dp).d.size.toNat)
    (hblocks : ∀ bn, bn * BSIZE < SIZEOF_DIRENT * n + SIZEOF_DIRENT →
      ∃ r, placeOf bn = some r ∧ (k.icache dp).d.addr k.block r ≠ 0) (msg : String) :
    (readDirent p dp (SIZEOF_DIRENT * n) msg).run Op.sem k = .ok (direntAt (table k dp) n, k) := by
  have hwidth : (BitVec.ofNat 32 SIZEOF_DIRENT).toNat = SIZEOF_DIRENT := rfl
  have hoff : (BitVec.ofNat 32 (SIZEOF_DIRENT * n)).toNat = SIZEOF_DIRENT * n := Nat.mod_eq_of_lt (by omega)
  have hread := readi_run (p := p) (i := dp) (k := k) (by rw [hdir]; nofun) (BitVec.ofNat 32 (SIZEOF_DIRENT * n))
    (BitVec.ofNat 32 SIZEOF_DIRENT) fun bn hbn _ => hblocks bn (by omega)
  have hresult : fileRead (k.icache dp).d.size ((k.icache dp).d.contents k.block) (BitVec.ofNat 32 (SIZEOF_DIRENT * n))
      (BitVec.ofNat 32 SIZEOF_DIRENT) =
      ((SIZEOF_DIRENT : ℤ), (range SIZEOF_DIRENT).map fun j => table k dp (SIZEOF_DIRENT * n + j)) := by
    unfold fileRead
    generalize (k.icache dp).d.size = size at *
    generalize hx : BitVec.ofNat 32 (SIZEOF_DIRENT * n) = off at *
    have hw : BitVec.ofNat 32 SIZEOF_DIRENT = 16#32 := rfl
    rw [← hoff] at hn ⊢
    change off.toNat + 16 ≤ size.toNat at hn
    rw [hw, if_neg (by bv_omega), if_neg (by bv_omega)]
    rfl
  rw [readDirent, run_bind, Comp.bind_of_ok hread, hresult]
  rfl

theorem lookupFrom_spec (h : Intact k) (hdp : Loaded k dp) (hdir : (k.icache dp).d.type = .dir)
    (name : List UInt8) (turns n : ℕ) (hn : SIZEOF_DIRENT * (n + turns) < (k.icache dp).d.size.toNat + SIZEOF_DIRENT) :
    (lookupFrom p dp name turns (SIZEOF_DIRENT * n)).Wp Op.sem (Fine w) (fun r k' => match r with
      | none => k' = k ∧ ∀ a, n ≤ a → a < n + turns → ¬ (direntAt (table k dp) a).Names name
      | some (i, off) => ∃ a, off = SIZEOF_DIRENT * a ∧ a < slots (k.icache dp).d.size ∧
          (direntAt (table k dp) a).Names name ∧ (∀ b, n ≤ b → b < a → ¬ (direntAt (table k dp) b).Names name) ∧
          Moved k 0 k' {i} ∧ Refers k' i (direntAt (table k dp) a).inum.toNat) k := by
  induction turns generalizing n with
  | zero => exact ⟨rfl, fun a h0 h1 => by omega⟩
  | succ turns ih =>
    refine (readDirent_spec h hdp hdir (n := n) ?_ _).bind fun de k1 ⟨hk1, hslot, hde⟩ => ?_
    · unfold SIZEOF_DIRENT at *
      omega
    subst hk1 hde
    refine wp_ite (fun hname => ?_) fun hname => ?_
    · refine (iget_spec h _).bind fun i k2 ⟨hmoved, hinum, _⟩ => wp_pure ?_
      exact ⟨n, rfl, hslot, hname, fun b h0 h1 => by omega, hmoved, hinum⟩
    · have hrest := ih (n := n + 1) (by unfold SIZEOF_DIRENT at *; omega)
      rw [show SIZEOF_DIRENT * (n + 1) = SIZEOF_DIRENT * n + SIZEOF_DIRENT from Nat.mul_succ ..] at hrest
      have hfirst (P : ℕ → Prop) (hP : ∀ b, n + 1 ≤ b → P b → ¬ (direntAt (table k1 dp) b).Names name) (b : ℕ)
          (h0 : n ≤ b) (hb : P b) : ¬ (direntAt (table k1 dp) b).Names name := by
        rcases Nat.eq_or_lt_of_le h0 with rfl | hlt
        · exact hname
        · exact hP b hlt hb
      refine hrest.mono fun r k2 hr => ?_
      cases r with
      | none => exact ⟨hr.1, hfirst (· < n + (turns + 1)) fun b h0 h1 => hr.2 b h0 (by omega)⟩
      | some =>
        obtain ⟨a, hoff, ha, hmatch, hbefore, hmoved⟩ := hr
        exact ⟨a, hoff, ha, hmatch, hfirst (· < a) hbefore, hmoved⟩

/-- The first entry in use with the given name. -/
def FirstNamed (size : Word) (m : Mem) (name : List UInt8) (n : ℕ) : Prop :=
  n < slots size ∧ (direntAt m n).Names name ∧ ∀ b, b < n → ¬ (direntAt m b).Names name

theorem direntTurns_zero (size : Word) : SIZEOF_DIRENT * direntTurns size 0 < size.toNat + SIZEOF_DIRENT ∧
    slots size ≤ direntTurns size 0 := by
  unfold direntTurns slots SIZEOF_DIRENT
  omega

theorem dirlookup_spec (h : Intact k) (hdp : Loaded k dp) :
    (dirlookup p dp name).Wp Op.sem (Fine w) (fun r k' => (k.icache dp).d.type = .dir ∧ match r with
      | none => k' = k ∧ ∀ a, a < slots (k.icache dp).d.size → ¬ (direntAt (table k dp) a).Names name
      | some (i, off) => ∃ a, off = SIZEOF_DIRENT * a ∧ FirstNamed (k.icache dp).d.size (table k dp) name a ∧
          Moved k 0 k' {i} ∧ Refers k' i (direntAt (table k dp) a).inum.toNat) k := by
  refine wp_call_bind trivial fun (ip : Inode) k1 hip => ?_
  cases hip
  refine wp_ite (fun _ => panic_spec) fun hdir => ?_
  rw [not_not] at hdir
  obtain ⟨hlt, hle⟩ := direntTurns_zero (k.icache dp).d.size
  have hloop := lookupFrom_spec (w := w) (p := p) h hdp hdir name (direntTurns (k.icache dp).d.size 0) 0
    (by rwa [Nat.zero_add])
  refine hloop.mono fun r k' hr => ⟨hdir, ?_⟩
  cases r with
  | none => exact ⟨hr.1, fun a ha => hr.2 a (Nat.zero_le a) (by omega)⟩
  | some =>
    obtain ⟨a, hoff, ha, hmatch, hbefore, hmoved⟩ := hr
    exact ⟨a, hoff, ⟨ha, hmatch, fun b hb => hbefore b (Nat.zero_le b) hb⟩, hmoved⟩

end Xv6.Fs
