import Xv6.Mkfs.Image

/-! # Inodes on the image

What `winode` stores is read back by `rinode` and, through the same layout, by the kernel.
Inode blocks and data blocks lie apart.
-/
namespace Xv6
open Function Mem List

section Codec
variable {m m' : Mem} {a : ℕ} {d : Dinode}

theorem InodeType.ofCode_code (t : InodeType) : InodeType.ofCode t.code = t := by
  cases t <;> rfl

theorem CStr.padded_length {u : CStr} (h : u.length ≤ n) : (u.padded n).length = n := by
  unfold padded
  rw [length_append, length_replicate]
  unfold length at *
  omega

theorem cstrAt_write {u : CStr} (pre post : List UInt8) (h : u.length ≤ n) :
    cstrAt (m.write a (pre ++ (u.padded n ++ post))) (a + pre.length) n = u := by
  refine CStr.ext_bytes ?_
  have hfield := bytes_field (m := m) (a := a) pre (u.padded n) post
  rw [CStr.padded_length h] at hfield
  have hall : ∀ c ∈ u.bytes, decide (c ≠ 0) = true := by
    intro c hc
    have hne : c ≠ 0 := fun hz => u.nonul (hz ▸ hc)
    simpa using hne
  have hzeros (i : ℕ) : (replicate i (0 : UInt8)).takeWhile (· ≠ 0) = [] := by cases i <;> rfl
  dsimp only [cstrAt]
  rw [hfield, CStr.padded, takeWhile_append_of_pos hall, hzeros, append_nil]

theorem dinodeBytes_length (h : d.userid.length ≤ USERID) : (dinodeBytes d).length = SIZEOF_DINODE := by
  simp only [dinodeBytes, dinodeFields, flatten_cons, flatten_nil, length_append, words_length,
    CStr.padded_length h, length_ofFn]
  rfl

theorem dinodeAt_congr (h : ∀ x, a ≤ x → x < a + SIZEOF_DINODE → m' x = m x) : dinodeAt m' a = dinodeAt m a := by
  unfold SIZEOF_DINODE at h
  have hhalf (o : ℕ) (ho : o + 2 ≤ 64) : m'.halfword (a + o) = m.halfword (a + o) :=
    halfword_congr fun x h0 h1 => h x (by omega) (by omega)
  have hword (o : ℕ) (ho : o + 4 ≤ 64) : m'.word (a + o) = m.word (a + o) :=
    word_congr fun x h0 h1 => h x (by omega) (by omega)
  have haddrs (n : Fin 8) : m'.word (a + 12 + 4 * n) = m.word (a + 12 + 4 * n) := by
    rw [Nat.add_assoc]
    exact hword _ (by omega)
  have huserid : cstrAt m' (a + 44) USERID = cstrAt m (a + 44) USERID := by
    refine CStr.ext_bytes (congrArg (takeWhile _) (map_congr_left fun j hj => ?_))
    have hj := mem_range.mp hj
    unfold USERID at hj
    exact h _ (by omega) (by omega)
  have htype : m'.halfword a = m.halfword a := hhalf 0 (by omega)
  simp only [dinodeAt, htype, hhalf 2 (by omega), hhalf 4 (by omega), hhalf 6 (by omega), hword 8 (by omega),
    hword 60 (by omega), haddrs, huserid]

theorem dinodeAt_write (h : d.userid.length ≤ USERID) : dinodeAt (m.write a (dinodeBytes d)) a = d := by
  have hsplit (i : ℕ) (hi : i < 8) := record_split (dinodeFields d) (i := i) hi
  have haddrs (n : Fin 8) : (m.write a (dinodeBytes d)).word (a + 12 + 4 * n) = d.addrs n := by
    rw [dinodeBytes, hsplit 5 (by decide)]
    refine (words_field _ _ (ofFn d.addrs) (i := n) (by rw [length_ofFn]; exact n.2)).trans ?_
    exact List.getElem_ofFn _
  have huserid : cstrAt (m.write a (dinodeBytes d)) (a + 44) USERID = d.userid := by
    have hpre : ((dinodeFields d).take 6).flatten.length = 44 := by
      simp only [dinodeFields, take, flatten_cons, flatten_nil, length_append, words_length,
        length_ofFn]
      rfl
    rw [dinodeBytes, hsplit 6 (by decide), ← hpre]
    exact cstrAt_write _ _ h
  have hmode : (m.write a (dinodeBytes d)).word (a + 60) = d.mode := by
    have hpre : ((dinodeFields d).take 7).flatten.length = 60 := by
      simp only [dinodeFields, take, flatten_cons, flatten_nil, length_append, words_length,
        length_ofFn, CStr.padded_length h]
      rfl
    rw [dinodeBytes, hsplit 7 (by decide), ← hpre]
    exact word_field _ _ _
  have htype : (m.write a (dinodeBytes d)).halfword a = d.type.code := by
    rw [dinodeBytes, hsplit 0 (by decide)]
    exact halfword_field [] _ _
  have hmajor : (m.write a (dinodeBytes d)).halfword (a + 2) = d.major := by
    rw [dinodeBytes, hsplit 1 (by decide)]
    exact halfword_field _ _ _
  have hminor : (m.write a (dinodeBytes d)).halfword (a + 4) = d.minor := by
    rw [dinodeBytes, hsplit 2 (by decide)]
    exact halfword_field _ _ _
  have hnlink : (m.write a (dinodeBytes d)).halfword (a + 6) = d.nlink := by
    rw [dinodeBytes, hsplit 3 (by decide)]
    exact halfword_field _ _ _
  have hsize : (m.write a (dinodeBytes d)).word (a + 8) = d.size := by
    rw [dinodeBytes, hsplit 4 (by decide)]
    exact word_field _ _ _
  simp only [dinodeAt, htype, hmajor, hminor, hnlink, hsize, haddrs, huserid, hmode, InodeType.ofCode_code]

end Codec

namespace Mkfs
variable {s : Build} {image image' : Word → Mem} {inum : ℕ} {d : Dinode} {a : Word}

theorem Build.put_self (s : Build) (a : Word) (m : Mem) : (s.put a m).image a = m := update_self ..

theorem Build.put_of_ne (h : b ≠ a) (s : Build) (m : Mem) : (s.put a m).image b = s.image b :=
  update_of_ne h ..

def nodeOf (image : Word → Mem) (inum : ℕ) : Dinode :=
  if inum < NINODES then dinodeAt (image (iblock inum)) (SIZEOF_DINODE * (inum % IPB)) else {}

theorem iblock_toNat (h : inum < NINODES) : (iblock inum).toNat = inum / IPB + inodestart := by
  refine Nat.mod_eq_of_lt ?_
  have hdiv : inum / IPB < NINODES := (Nat.div_le_self ..).trans_lt h
  have hstart : NINODES + inodestart < 2 ^ 32 := by decide
  omega

theorem iblock_lt (h : inum < NINODES) : (iblock inum).toNat < bmapstart := by
  rw [iblock_toNat h]
  have hdiv : inum / IPB ≤ NINODES / IPB := Nat.div_le_div_right h.le
  have hstart : NINODES / IPB + inodestart < bmapstart := by decide
  omega

theorem bmapstart_lt : bmapstart < nmeta := by decide

theorem nmeta_lt : nmeta < FSSIZE := by decide

theorem nodeOf_congr (h : ∀ a : Word, a.toNat < bmapstart → image' a = image a) : nodeOf image' = nodeOf image := by
  funext inum
  unfold nodeOf
  split
  case isTrue hlt => rw [h _ (iblock_lt hlt)]
  case isFalse => rfl

theorem nodeOf_write (h : inum < NINODES) (hd : d.userid.length ≤ USERID) : nodeOf (update image (iblock inum)
      ((image (iblock inum)).write (SIZEOF_DINODE * (inum % IPB)) (dinodeBytes d))) =
      update (nodeOf image) inum d := by
  funext j
  by_cases hj : j = inum
  · subst hj
    rw [update_self, nodeOf, if_pos h, update_self, dinodeAt_write hd]
  rw [update_of_ne hj]
  unfold nodeOf
  split
  case isFalse => rfl
  case isTrue hlt =>
    by_cases hblock : iblock j = iblock inum
    · -- another inode of the same block
      rw [hblock, update_self]
      refine dinodeAt_congr fun x h0 h1 => write_outside ?_
      have hdiv : j / IPB = inum / IPB := by
        have heq := congrArg BitVec.toNat hblock
        rw [iblock_toNat hlt, iblock_toNat h] at heq
        omega
      rw [dinodeBytes_length hd]
      unfold SIZEOF_DINODE IPB at *
      omega
    · rw [update_of_ne hblock]

theorem rsect_run (h : a.toNat < FSSIZE) : rsect a s = .ok (s.image a, s) := by
  rw [rsect, Comp.bind_of_ok (Comp.get_apply s), if_pos h]
  rfl

theorem rinode_run (h : inum < NINODES) : rinode inum s = .ok (nodeOf s.image inum, s) := by
  have hlt := (iblock_lt h).trans (bmapstart_lt.trans nmeta_lt)
  rw [rinode, Comp.bind_of_ok (rsect_run hlt), nodeOf, if_pos h]
  rfl

theorem winode_run (s : Build) (inum : ℕ) (d : Dinode) (h : inum < NINODES) (hd : d.userid.length ≤ USERID) :
    ∃ image, winode inum d s = .ok ((), { s with image := image }) ∧
      nodeOf image = update (nodeOf s.image) inum d ∧
      ∀ a : Word, a.toNat < inodestart ∨ bmapstart ≤ a.toNat → image a = s.image a := by
  have hlt := iblock_lt h
  have hge : inodestart ≤ (iblock inum).toNat := by
    rw [iblock_toNat h]
    exact Nat.le_add_left ..
  refine ⟨_, ?_, nodeOf_write h hd, fun a ha => update_of_ne ?_ ..⟩
  · rw [winode, Comp.bind_of_ok (rsect_run (hlt.trans (bmapstart_lt.trans nmeta_lt)))]
    rfl
  · rintro rfl
    omega

end Mkfs
end Xv6
