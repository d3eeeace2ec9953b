import Mathlib.Tactic.Common

/-! # C strings and the memory they are copied into

A string argument is its bytes before the terminating NUL. Memory is a map from
addresses to bytes; copying a string writes its bytes and the NUL, whatever lies
at the destination, which is what decides whether a fixed-size field overflows.
-/
namespace Xv6
open List

/-- A NUL-terminated string: its bytes before the NUL. -/
structure CStr where
  bytes : List UInt8
  nonul : (0 : UInt8) ∉ bytes
  deriving DecidableEq

namespace CStr

def length (s : CStr) : ℕ := s.bytes.length

def empty : CStr := ⟨[], by simp⟩

/-- The string of an ASCII literal; a NUL and everything else is dropped. -/
def ofString (s : String) : CStr where
  bytes := (s.toList.map (fun c => UInt8.ofNat c.toNat)).filter (· != 0)
  nonul := by simp

theorem ext_bytes {s t : CStr} (h : s.bytes = t.bytes) : s = t := by
  cases s; cases t; cases h; rfl

end CStr

abbrev Mem := ℕ → UInt8

def halfwordBytes (w : BitVec 16) : List UInt8 :=
  [⟨w.extractLsb' 0 8⟩, ⟨w.extractLsb' 8 8⟩]

def wordBytes (w : BitVec 32) : List UInt8 :=
  halfwordBytes (w.extractLsb' 0 16) ++ halfwordBytes (w.extractLsb' 16 16)

namespace Mem

def write (m : Mem) (a : ℕ) (bs : List UInt8) : Mem := fun x =>
  if a ≤ x then (bs[x - a]?).getD (m x) else m x

def strcpy (m : Mem) (dst : ℕ) (t : CStr) : Mem := m.write dst (t.bytes ++ [0])

/-- `!strcmp(p, q)` for the string stored at `a` and an argument: the comparison
stops at the first difference or at the argument's NUL. -/
def streq (m : Mem) (a : ℕ) : List UInt8 → Bool
  | [] => m a == 0
  | c :: cs => m a == c && streq m (a + 1) cs

def halfword (m : Mem) (a : ℕ) : BitVec 16 := (m (a + 1)).toBitVec ++ (m a).toBitVec

def word (m : Mem) (a : ℕ) : BitVec 32 := m.halfword (a + 2) ++ m.halfword a

variable {m m' : Mem} {bs : List UInt8} {a i : ℕ} {t : CStr}

theorem write_outside (h : x < a ∨ a + bs.length ≤ x) : m.write a bs x = m x := by
  unfold write
  split
  next hx =>
    rw [getElem?_eq_none (by omega)]
    rfl
  next => rfl

theorem write_inside (h : i < bs.length) : m.write a bs (a + i) = bs[i] := by
  unfold write
  simp [h]

theorem halfword_write (m : Mem) (a : ℕ) (w : BitVec 16) : (m.write a (halfwordBytes w)).halfword a = w := by
  have h0 : m.write a (halfwordBytes w) a = ⟨w.extractLsb' 0 8⟩ := write_inside (i := 0) (by simp [halfwordBytes])
  have h1 : m.write a (halfwordBytes w) (a + 1) = ⟨w.extractLsb' 8 8⟩ := write_inside (i := 1) (by simp [halfwordBytes])
  rw [halfword, h0, h1]
  ext i hi
  simp only [BitVec.getElem_append, BitVec.getElem_extractLsb']
  split
  · simp [BitVec.getLsbD_eq_getElem hi]
  · rw [show 8 + (i - 8) = i by omega]
    exact BitVec.getLsbD_eq_getElem hi

theorem write_nil (m : Mem) (a : ℕ) : m.write a [] = m :=
  funext fun x => write_outside (by rw [length_nil]; omega)

theorem write_append (m : Mem) (a : ℕ) (xs ys : List UInt8) :
    m.write a (xs ++ ys) = (m.write a xs).write (a + xs.length) ys := by
  funext x
  unfold write
  split
  case isFalse hx => rw [if_neg (by omega)]
  case isTrue hx =>
    split
    case isTrue hx' =>
      rw [getElem?_append_right (by omega), getElem?_eq_none (l := xs) (by omega), Nat.sub_sub]
      rfl
    case isFalse hx' => rw [getElem?_append_left (by omega)]

theorem halfword_congr (h : ∀ x, a ≤ x → x < a + 2 → m' x = m x) : m'.halfword a = m.halfword a := by
  rw [halfword, halfword, h a (by omega) (by omega), h (a + 1) (by omega) (by omega)]

theorem word_congr (h : ∀ x, a ≤ x → x < a + 4 → m' x = m x) : m'.word a = m.word a := by
  rw [word, word, halfword_congr fun x h0 h1 => h x (by omega) (by omega),
    halfword_congr fun x h0 h1 => h x (by omega) (by omega)]

theorem word_write (m : Mem) (a : ℕ) (w : BitVec 32) : (m.write a (wordBytes w)).word a = w := by
  have hlow : (m.write a (wordBytes w)).halfword a = w.extractLsb' 0 16 := by
    rw [wordBytes, write_append]
    refine (halfword_congr fun x _ hx => write_outside ?_).trans (halfword_write m a _)
    exact .inl hx
  have hhigh : (m.write a (wordBytes w)).halfword (a + 2) = w.extractLsb' 16 16 := by
    rw [wordBytes, write_append]
    exact halfword_write _ _ _
  rw [word, hlow, hhigh]
  ext i hi
  simp only [BitVec.getElem_append, BitVec.getElem_extractLsb']
  split
  · simp [BitVec.getLsbD_eq_getElem hi]
  · rw [show 16 + (i - 16) = i by omega]
    exact BitVec.getLsbD_eq_getElem hi

theorem word_write_of_ne (w : BitVec 32) (h : b + 4 ≤ a ∨ a + 4 ≤ b) :
    (m.write a (wordBytes w)).word b = m.word b := by
  refine word_congr fun x h0 h1 => write_outside ?_
  simp only [wordBytes, halfwordBytes, length_append, length_cons, length_nil]
  omega

theorem word_low (m : Mem) (a : ℕ) : (m.word a).setWidth 8 = (m a).toBitVec := by
  rw [word, BitVec.setWidth_append, dif_pos (by decide), halfword, BitVec.setWidth_append_eq_right]

theorem word_zero (a : ℕ) : word (fun _ => 0) a = 0 := by
  unfold word halfword
  dsimp only
  decide

theorem strcpy_frame (hfit : t.length < size) (hx : x < dst ∨ dst + size ≤ x) : m.strcpy dst t x = m x := by
  apply write_outside
  simp only [CStr.length] at hfit
  simp only [length_append, length_singleton]
  omega

theorem strcpy_overrun (h : size ≤ t.length) :
    some (m.strcpy dst t (dst + size)) = (t.bytes ++ [0])[size]? := by
  have hlt : size < (t.bytes ++ [0]).length := by
    simp only [CStr.length] at h
    simp only [length_append, length_singleton]
    omega
  rw [strcpy, write_inside hlt, getElem?_eq_getElem hlt]

theorem streq_iff :
    m.streq a cs = true ↔ (∀ i (h : i < cs.length), m (a + i) = cs[i]) ∧ m (a + cs.length) = 0 := by
  induction cs generalizing a with
  | nil => simp [streq]
  | cons c cs ih =>
    simp only [streq, Bool.and_eq_true, beq_iff_eq, ih, length_cons]
    constructor
    · rintro ⟨h0, hs, hz⟩
      refine ⟨?_, by rw [← hz]; congr 1; omega⟩
      intro i hi
      cases i with
      | zero => simpa using h0
      | succ i =>
        have := hs i (by omega)
        rw [getElem_cons_succ, ← this]
        congr 1
        omega
    · rintro ⟨hs, hz⟩
      refine ⟨by simpa using hs 0 (by omega), ?_, by rw [← hz]; congr 1; omega⟩
      intro i hi
      have := hs (i + 1) (by omega)
      rw [getElem_cons_succ] at this
      rw [← this]
      congr 1
      omega

section Fields
variable {m m' : Mem} {a n : ℕ} {s t : CStr}

theorem streq_byte (h : m.streq a s.bytes = true) (hi : i < s.length) : m (a + i) ≠ 0 := by
  rw [(streq_iff.mp h).1 i hi]
  intro hzero
  exact s.nonul (hzero ▸ getElem_mem hi)

theorem streq_unique (h : m.streq a s.bytes = true) (h' : m.streq a t.bytes = true) : s = t := by
  have hlen : s.length = t.length := by
    rcases Nat.lt_trichotomy s.length t.length with hlt | heq | hgt
    · exact absurd (streq_iff.mp h).2 (streq_byte h' hlt)
    · exact heq
    · exact absurd (streq_iff.mp h').2 (streq_byte h hgt)
  refine CStr.ext_bytes (ext_getElem hlen fun i hs ht => ?_)
  rw [← (streq_iff.mp h).1 i hs, ← (streq_iff.mp h').1 i ht]

theorem streq_empty : m.streq a CStr.empty.bytes = true ↔ m a = 0 := by
  simp [CStr.empty, streq]

theorem streq_congr (hnul : ∃ x < n, m (a + x) = 0) (h : ∀ x < n, m' (a + x) = m (a + x)) :
    m'.streq a s.bytes = m.streq a s.bytes := by
  have hread {m1 m2 : Mem} (hnul : ∃ x < n, m1 (a + x) = 0) (h : ∀ x < n, m2 (a + x) = m1 (a + x))
      (hs : m1.streq a s.bytes = true) : m2.streq a s.bytes = true := by
    obtain ⟨x, hx, hzero⟩ := hnul
    have hlen : s.length < n := by
      by_contra hlong
      exact streq_byte hs (by omega) hzero
    obtain ⟨hbytes, hend⟩ := streq_iff.mp hs
    refine streq_iff.mpr ⟨fun i hi => ?_, ?_⟩
    · rw [h i (Nat.lt_trans hi hlen), hbytes i hi]
    · rw [← hend]
      exact h s.length hlen
  obtain ⟨x, hx, hzero⟩ := hnul
  rw [Bool.eq_iff_iff]
  exact ⟨hread ⟨x, hx, (h x hx).trans hzero⟩ fun y hy => (h y hy).symm, hread ⟨x, hx, hzero⟩ h⟩

theorem streq_strcpy (m : Mem) (a : ℕ) (s : CStr) : (m.strcpy a s).streq a s.bytes = true := by
  refine streq_iff.mpr ⟨fun i hi => ?_, ?_⟩
  · rw [strcpy, write_inside (by simp; omega), getElem_append_left hi]
  · rw [strcpy, write_inside (by simp)]
    simp

end Fields

end Mem
end Xv6
