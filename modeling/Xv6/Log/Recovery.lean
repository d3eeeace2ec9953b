import Mathlib.Logic.Function.Basic
import Xv6.Log.Header

/-! # Recovery from the log

`install_trans` and `recover_from_log` on the disk a machine boots from, where the
buffer cache is empty and every `bread` returns the block on the disk.
-/
namespace Xv6
open Function List

abbrev Disk := Word → Block

/-- Where the log lies: the header block at `start`, then the log blocks. `mkfs` gives
the log `LOGSIZE` blocks. -/
structure LogArea where
  start : Word
  size : ℕ
  logsize_le : LOGSIZE ≤ size
  fits : start.toNat + size ≤ 2 ^ 32

namespace LogArea
variable (g : LogArea)

def Home (b : Word) : Prop := b.toNat < g.start.toNat ∨ g.start.toNat + g.size ≤ b.toNat

instance : DecidablePred g.Home := fun _ => inferInstanceAs (Decidable (_ ∨ _))

def logBlock (tail : ℕ) : Word := g.start + BitVec.ofNat 32 tail + 1#32

variable {g} {i j : ℕ} {b : Word}

theorem logBlock_toNat (hi : i < g.size - 1) : (g.logBlock i).toNat = g.start.toNat + i + 1 := by
  have hfits := g.fits
  simp only [logBlock, BitVec.toNat_add, BitVec.toNat_ofNat]
  omega

theorem logBlock_inj (hi : i < g.size - 1) (hj : j < g.size - 1)
    (h : g.logBlock i = g.logBlock j) : i = j := by
  have := congrArg BitVec.toNat h
  rw [logBlock_toNat hi, logBlock_toNat hj] at this
  omega

theorem logBlock_ne_start (hi : i < g.size - 1) : g.logBlock i ≠ g.start := by
  intro h
  have := congrArg BitVec.toNat h
  rw [logBlock_toNat hi] at this
  omega

theorem Home.ne_logBlock (hb : g.Home b) (hi : i < g.size - 1) : b ≠ g.logBlock i := by
  rintro rfl
  rw [Home, logBlock_toNat hi] at hb
  omega

theorem Home.ne_start (hb : g.Home b) : b ≠ g.start := by
  rintro rfl
  have hsize := g.logsize_le
  simp only [Home, LOGSIZE, MAXOPBLOCKS] at hb hsize
  omega

end LogArea

variable {g : LogArea}

/-- The loop of `install_trans` from `tail` on, with the rest of the header. -/
def installTrans (g : LogArea) : ℕ → List Word → Disk → Disk
  | _, [], disk => disk
  | tail, b :: lh, disk =>
    installTrans g (tail + 1) lh (update disk b (disk (g.logBlock tail)))

def recoverFromLog (g : LogArea) (disk : Disk) : Disk :=
  let disk' := installTrans g 0 (readHead (disk g.start)) disk
  update disk' g.start (writeHead [] (disk' g.start))

variable {lh : List Word} {disk want : Disk}

theorem installTrans_of_not_mem (hb : b ∉ lh) (tail : ℕ) (disk : Disk) :
    installTrans g tail lh disk b = disk b := by
  induction lh generalizing tail disk with
  | nil => rfl
  | cons c lh ih =>
    rw [mem_cons, not_or] at hb
    rw [installTrans, ih hb.2, update_of_ne hb.1]

theorem installTrans_getElem {b : Word} (hnodup : lh.Nodup)
    (hhome : ∀ c ∈ lh, g.Home c) {tail i : ℕ} (hlen : tail + lh.length ≤ g.size - 1)
    (hb : lh[i]? = some b) (disk : Disk) : installTrans g tail lh disk b = disk (g.logBlock (tail + i)) := by
  induction lh generalizing tail i disk with
  | nil => cases hb
  | cons c lh ih =>
    rw [length_cons] at hlen
    obtain ⟨hc, hnodup⟩ := nodup_cons.mp hnodup
    rw [installTrans]
    cases i with
    | zero =>
      rw [getElem?_cons_zero] at hb
      cases hb
      rw [installTrans_of_not_mem hc, update_self]
      rfl
    | succ i =>
      rw [getElem?_cons_succ] at hb
      have hi : i < lh.length := (List.getElem?_eq_some_iff.mp hb).1
      rw [ih hnodup (fun c hc => hhome c (mem_cons_of_mem _ hc)) (by omega) hb]
      have hne : g.logBlock (tail + 1 + i) ≠ c :=
        ((hhome c mem_cons_self).ne_logBlock (by omega)).symm
      rw [update_of_ne hne]
      congr 2
      omega

/-- The disk recovers to the home blocks of `want`: the header lists distinct home
blocks whose contents are in the log, and the other home blocks are in place. -/
structure Sealed (g : LogArea) (disk want : Disk) : Prop where
  nodup : (readHead (disk g.start)).Nodup
  home : ∀ b ∈ readHead (disk g.start), g.Home b
  short : (readHead (disk g.start)).length < NBUF
  logged : ∀ i b, (readHead (disk g.start))[i]? = some b → disk (g.logBlock i) = want b
  rest : ∀ b, g.Home b → b ∉ readHead (disk g.start) → disk b = want b

theorem Sealed.of_empty (hh : readHead (disk g.start) = [])
    (hrest : ∀ b, g.Home b → disk b = want b) : Sealed g disk want := by
  constructor
  case rest => exact fun b hb _ => hrest b hb
  all_goals rw [hh]
  case nodup => exact nodup_nil
  case home => exact fun b hb => absurd hb not_mem_nil
  case short => decide
  case logged => exact fun i b hi => by cases hi

theorem short_fits (h : n < NBUF) : n ≤ g.size - 1 := by
  have hsize := g.logsize_le
  simp only [LOGSIZE, NBUF, MAXOPBLOCKS] at h hsize
  omega

theorem Sealed.recoverFromLog (h : Sealed g disk want) {b : Word}
    (hb : g.Home b) : recoverFromLog g disk b = want b := by
  rw [Xv6.recoverFromLog, update_of_ne hb.ne_start]
  by_cases hmem : b ∈ readHead (disk g.start)
  · obtain ⟨i, hi⟩ := getElem?_of_mem hmem
    rw [installTrans_getElem h.nodup h.home (by rw [Nat.zero_add]; exact short_fits h.short) hi,
      Nat.zero_add]
    exact h.logged i b hi
  · rw [installTrans_of_not_mem hmem]
    exact h.rest b hb hmem

end Xv6
