import Xv6.Lib.CString

/-! # Records in memory

A record is written as the bytes of its fields, one after another, and read field by
field. Bit maps are read and written a bit at a time.
-/
namespace Xv6.Mem
open List

variable {m m' : Mem} {a : ℕ}

theorem record_split (fields : List (List UInt8)) (hi : i < fields.length) :
    fields.flatten = (fields.take i).flatten ++ (fields[i] ++ (fields.drop (i + 1)).flatten) := by
  rw [← flatten_cons, ← flatten_append, getElem_cons_drop, take_append_drop]

theorem write_field (hx : x < a + pre.length + field.length) :
    m.write a (pre ++ (field ++ post)) x = (m.write a pre).write (a + pre.length) field x := by
  rw [write_append, write_append]
  exact write_outside (.inl hx)

theorem halfword_field (pre post : List UInt8) (w : BitVec 16) :
    (m.write a (pre ++ (halfwordBytes w ++ post))).halfword (a + pre.length) = w := by
  refine (halfword_congr fun x _ hx => write_field ?_).trans (halfword_write (m.write a pre) _ w)
  exact hx

theorem word_field (pre post : List UInt8) (w : BitVec 32) :
    (m.write a (pre ++ (wordBytes w ++ post))).word (a + pre.length) = w := by
  refine (word_congr fun x _ hx => write_field ?_).trans (word_write (m.write a pre) _ w)
  exact hx

theorem words_length (ws : List (BitVec 32)) : (ws.flatMap wordBytes).length = 4 * ws.length := by
  induction ws with
  | nil => rfl
  | cons w ws ih =>
    rw [flatMap_cons, length_append, ih, length_cons]
    have hw : (wordBytes w).length = 4 := rfl
    omega

theorem words_field (pre post : List UInt8) (ws : List (BitVec 32)) (hi : i < ws.length) :
    (m.write a (pre ++ (ws.flatMap wordBytes ++ post))).word (a + pre.length + 4 * i) = ws[i] := by
  have hsplit : ws.flatMap wordBytes = (ws.take i).flatMap wordBytes ++ (wordBytes ws[i] ++ (ws.drop (i + 1)).flatMap wordBytes) := by
    rw [← flatMap_cons, ← flatMap_append]
    congr 1
    rw [getElem_cons_drop, take_append_drop]
  have hfield := word_field (m := m) (a := a) (pre ++ (ws.take i).flatMap wordBytes)
    ((ws.drop (i + 1)).flatMap wordBytes ++ post) ws[i]
  rw [length_append, words_length, length_take, Nat.min_eq_left (Nat.le_of_lt hi), ← Nat.add_assoc] at hfield
  rw [hsplit]
  simpa only [append_assoc] using hfield

theorem words_write (ws : List (BitVec 32)) (hi : i < ws.length) :
    (m.write a (ws.flatMap wordBytes)).word (a + 4 * i) = ws[i] := by
  have hfield := words_field (m := m) (a := a) [] [] ws hi
  rwa [nil_append, append_nil, length_nil, Nat.add_zero] at hfield

theorem bytes_field (pre field post : List UInt8) :
    ((range field.length).map fun j => m.write a (pre ++ (field ++ post)) (a + pre.length + j)) = field := by
  refine ext_getElem (by simp) fun j h0 h1 => ?_
  rw [getElem_map, getElem_range, write_field (Nat.add_lt_add_left h1 _), write_inside h1]

def Holds (m : Mem) (a : ℕ) (bs : List UInt8) : Prop := ∀ i (h : i < bs.length), m (a + i) = bs[i]

theorem holds_write (m : Mem) (a : ℕ) (bs : List UInt8) : (m.write a bs).Holds a bs := fun _ h => write_inside h

theorem Holds.congr (h : m.Holds a bs) (hsame : ∀ x, a ≤ x → x < a + bs.length → m' x = m x) :
    m'.Holds a bs := by
  intro i hi
  rw [hsame (a + i) (by omega) (by omega)]
  exact h i hi

/-- Bit `n` of a map. -/
def bit (m : Mem) (n : ℕ) : Bool := (m (n / 8)).toBitVec.getLsbD (n % 8)

def setBit (m : Mem) (n : ℕ) : Mem := Function.update m (n / 8) ⟨(m (n / 8)).toBitVec ||| 1#8 <<< (n % 8)⟩

theorem bit_setBit (n n' : ℕ) : (m.setBit n).bit n' = (m.bit n' || decide (n' = n)) := by
  unfold bit setBit
  by_cases hbyte : n' / 8 = n / 8
  · have hlt : n' % 8 < 8 := Nat.mod_lt _ (by decide)
    rw [hbyte, Function.update_self, BitVec.getLsbD_or, BitVec.getLsbD_shiftLeft, BitVec.getLsbD_one]
    congr 1
    have hiff : n' % 8 = n % 8 ↔ n' = n := by omega
    rw [show decide (n' = n) = decide (n' % 8 = n % 8) from decide_eq_decide.mpr hiff.symm]
    by_cases hlow : n' % 8 < n % 8
    · simp [hlow, hlt, Nat.ne_of_lt hlow]
    · have hsub : n' % 8 - n % 8 = 0 ↔ n' % 8 = n % 8 := by omega
      simp [hlow, hlt, hsub]
  · rw [Function.update_of_ne hbyte]
    have hne : n' ≠ n := by
      rintro rfl
      exact hbyte rfl
    simp [hne]

end Xv6.Mem
