import Xv6.Lib.Window
import Xv6.Sleep.Wakeup

/-! # The console

`struct input` with the keys that were accepted and what readers got as history, and the
code of `consoleintr` and `consoleread` under `cons.lock`.
-/
namespace Xv6.Console
open Function Monitor List

def INPUT_BUF : ℕ := 128

instance : NeZero INPUT_BUF := ⟨by decide⟩

/-- `C(x)`. -/
def ctrl (x : Char) : UInt8 := x.toUInt8 - 64

def newline : UInt8 := 10

/-- A key that was accepted. `full` says that the character filled the buffer. -/
inductive Key
  | char (c : UInt8) (full : Bool)
  | backspace
  | killLine

/-- A byte that a reader has stored, or an end-of-file result. -/
inductive Delivery
  | byte (c : UInt8)
  | eof

structure Input where
  buf : Fin INPUT_BUF → UInt8 := fun _ => 0
  r : Word := 0
  w : Word := 0
  e : Word := 0
  keys : List Key := []
  delivered : List Delivery := []

namespace Input

def slot (x : Word) : Fin INPUT_BUF := Fin.ofNat INPUT_BUF x.toNat

/-- The loop of `C('U')`, which cannot take more than `e - w` turns. -/
def eraseLine : ℕ → Input → Input
  | 0, d => d
  | n + 1, d => if d.e ≠ d.w ∧ d.buf (slot (d.e - 1)) ≠ newline then eraseLine n { d with e := d.e - 1 } else d

/-- A character as it is stored. -/
def stored (c : UInt8) : UInt8 := if c = 13 then newline else c

/-- With the character `c` stored, the line is complete. -/
def Commits (d : Input) (c : UInt8) : Prop :=
  stored c = newline ∨ stored c = ctrl 'D' ∨ d.e + 1 = d.r + BitVec.ofNat 32 INPUT_BUF

instance (d : Input) (c : UInt8) : Decidable (d.Commits c) := inferInstanceAs (Decidable (_ ∨ _))

/-- `input.buf[input.e++ % INPUT_BUF] = c`. -/
def put (d : Input) (c : UInt8) : Input :=
  { d with
    buf := update d.buf (slot d.e) (stored c)
    e := d.e + 1
    w := if d.Commits c then d.e + 1 else d.w
    keys := d.keys ++ [.char (stored c) (d.e + 1 = d.r + BitVec.ofNat 32 INPUT_BUF)] }

/-- The byte `input.buf[input.r % INPUT_BUF]`. -/
def head (d : Input) : UInt8 := d.buf (slot d.r)

/-- `input.r++`. -/
def take (d : Input) (what : Delivery) : Input := { d with r := d.r + 1, delivered := d.delivered ++ [what] }

end Input

inductive Call
  | consoleintr (keys : List UInt8)
  | consoleread (n : ℤ)

/-- The places in the code. A reader has `n` bytes left to read and has stored `dst`, which
are `target - n` bytes. -/
inductive Point
  | consoleintr (keys : List UInt8)
  | getc (keys : List UInt8)
  | waking (keys : List UInt8)
  | consoleread (n : ℕ)
  | reading (n : ℕ) (dst : List UInt8)
  | leave (r : ℤ)
  | done (r : ℤ)

section Code
variable (cons : ℕ)

/-- The channel `&input.r`. -/
def inputChan : Chan := .addr cons

/-- The switch of `consoleintr`. -/
def key (d : Input) (c : UInt8) (keys : List UInt8) : Act Input Point :=
  if c = ctrl 'P' then .update d (.getc keys)
  else if c = ctrl 'U' then
    .update { d.eraseLine (d.e - d.w).toNat with keys := d.keys ++ [.killLine] } (.getc keys)
  else if c = ctrl 'H' ∨ c = 0x7f then
    .update { d with e := if d.e ≠ d.w then d.e - 1 else d.e, keys := d.keys ++ [.backspace] } (.getc keys)
  else if c ≠ 0 ∧ (d.e - d.r).toNat < INPUT_BUF then
    .update (d.put c) (if d.Commits c then .waking keys else .getc keys)
  else .update d (.getc keys)

/-- At a `C('D')` after other bytes `input.r--` takes the increment back. -/
def act : Point → Input → (killed : Bool) → Act Input Point
  | .consoleintr keys, _, _ => .acquire (.getc keys)
  | .getc [], _, _ => .release (.done 0)
  | .getc (c :: keys), d, _ => key d c keys
  | .waking keys, _, _ => .wakeup (inputChan cons) (.getc keys)
  | .consoleread n, _, _ => .acquire (.reading n [])
  | .reading 0 dst, _, _ => .release (.done dst.length)
  | .reading (n + 1) dst, d, killed =>
    if d.r = d.w then
      if killed then .release (.done (-1)) else .sleep (inputChan cons) (.reading (n + 1) dst)
    else if d.head = ctrl 'D' then
      if dst ≠ [] then .release (.done dst.length) else .update (d.take .eof) (.leave 0)
    else if d.head = newline then .update (d.take (.byte d.head)) (.leave (dst.length + 1))
    else .update (d.take (.byte d.head)) (.reading n (dst ++ [d.head]))
  | .leave r, _, _ => .release (.done r)
  | .done r, _, _ => .ret r

end Code

/-! ## What the keys mean -/

/-- The committed input and the line under edit, after one more key. -/
def edit : List UInt8 × List UInt8 → Key → List UInt8 × List UInt8
  | (committed, line), .char c full =>
    if c = newline ∨ c = ctrl 'D' ∨ full = true then (committed ++ (line ++ [c]), []) else (committed, line ++ [c])
  | (committed, line), .backspace => (committed, line.dropLast)
  | (committed, _), .killLine => (committed, [])

def edited (keys : List Key) : List UInt8 × List UInt8 := keys.foldl edit ([], [])

/-- How a committed byte reaches a reader. -/
def delivery (c : UInt8) : Delivery := if c = ctrl 'D' then .eof else .byte c

theorem edited_snoc (keys : List Key) (k : Key) : edited (keys ++ [k]) = edit (edited keys) k := by
  rw [edited, foldl_append]
  rfl

theorem newline_notMem_edited (keys : List Key) : newline ∉ (edited keys).2 := by
  induction keys using reverseRecOn with
  | nil => exact not_mem_nil
  | append_singleton keys k ih =>
    rw [edited_snoc]
    cases k with
    | char =>
      dsimp only [edit]
      split_ifs with hc
      · exact not_mem_nil
      · rw [mem_append, mem_singleton]
        rintro (hin | rfl)
        · exact ih hin
        · exact hc (.inl rfl)
    | backspace => exact fun hin => ih (dropLast_subset _ hin)
    | killLine => exact not_mem_nil

namespace Input
variable {d : Input}

/-- The committed bytes that nobody has read, and the line under edit. -/
def unread (d : Input) : List UInt8 := window d.buf d.r.toNat (d.w - d.r).toNat
def line (d : Input) : List UInt8 := window d.buf d.w.toNat (d.e - d.w).toNat

structure Disciplined (d : Input) : Prop where
  count : (d.w - d.r).toNat + (d.e - d.w).toNat ≤ INPUT_BUF
  bytes : d.delivered ++ d.unread.map delivery = (edited d.keys).1.map delivery
  line : d.line = (edited d.keys).2

theorem mod_add_one (x : Word) : (x + 1).toNat % INPUT_BUF = (x.toNat + 1) % INPUT_BUF := by
  unfold INPUT_BUF
  bv_omega

/-- The line up to its last character. -/
theorem window_last (h : (y - x).toNat = n + 1) {buf : Fin INPUT_BUF → UInt8} :
    window buf x.toNat (n + 1) = window buf x.toNat n ++ [buf (slot (y - 1))] := by
  rw [window_succ]
  refine congrArg (fun i => _ ++ [buf i]) (ofNat_eq_of_mod_eq ?_)
  unfold INPUT_BUF at *
  bv_omega

theorem eraseLine_eq (n : ℕ) (h : (d.e - d.w).toNat = n) (hn : n ≤ INPUT_BUF) (hline : newline ∉ d.line) :
    d.eraseLine n = { d with e := d.w } := by
  induction n generalizing d with
  | zero =>
    have he : d.e = d.w := by bv_omega
    cases d
    cases he
    rfl
  | succ n ih =>
    unfold Input.line at hline
    rw [h, window_last h, mem_append, mem_singleton] at hline
    push Not at hline
    have hne : d.e ≠ d.w := by
      rintro heq
      rw [heq] at h
      simp at h
    have hcount : (d.e - 1 - d.w).toNat = n := by
      unfold INPUT_BUF at hn
      bv_omega
    rw [eraseLine, if_pos ⟨hne, hline.2.symm⟩]
    refine ih (d := { d with e := d.e - 1 }) hcount (by omega) ?_
    unfold Input.line
    rw [hcount]
    exact hline.1

theorem Disciplined.killLine (h : d.Disciplined) :
    Disciplined { d.eraseLine (d.e - d.w).toNat with keys := d.keys ++ [.killLine] } := by
  have hcount := h.count
  rw [eraseLine_eq _ rfl (by omega) (by rw [h.line]; exact newline_notMem_edited d.keys)]
  refine ⟨?_, ?_, ?_⟩
  · dsimp only
    rw [BitVec.sub_self]
    exact (Nat.le_add_right _ _).trans hcount
  · rw [edited_snoc]
    exact h.bytes
  · rw [edited_snoc]
    unfold Input.line
    simp [window, edit]

theorem Disciplined.backspace (h : d.Disciplined) :
    Disciplined { d with e := if d.e ≠ d.w then d.e - 1 else d.e, keys := d.keys ++ [.backspace] } := by
  have hcount := h.count
  have hline := h.line
  unfold Input.line at hline
  by_cases he : d.e ≠ d.w
  · obtain ⟨n, hn⟩ : ∃ n, (d.e - d.w).toNat = n + 1 := Nat.exists_eq_succ_of_ne_zero (by bv_omega)
    have hless : (d.e - 1 - d.w).toNat = n := by bv_omega
    rw [hn, window_last hn] at hline
    simp only [if_pos he]
    refine ⟨?_, ?_, ?_⟩
    · dsimp only
      omega
    · rw [edited_snoc]
      exact h.bytes
    · rw [edited_snoc]
      dsimp only [Input.line, edit]
      rw [hless, ← hline, dropLast_concat]
  · simp only [if_neg he]
    rw [not_not] at he
    refine ⟨hcount, ?_, ?_⟩
    · rw [edited_snoc]
      exact h.bytes
    · rw [edited_snoc]
      dsimp only [Input.line, edit]
      rw [← hline, he]
      simp [window]

theorem Disciplined.take (h : d.Disciplined) (hne : d.r ≠ d.w) : Disciplined (d.take (delivery d.head)) := by
  have hcount := h.count
  have hbytes := h.bytes
  obtain ⟨n, hn⟩ : ∃ n, (d.w - d.r).toNat = n + 1 := Nat.exists_eq_succ_of_ne_zero (by bv_omega)
  have hless : (d.w - (d.r + 1)).toNat = n := by bv_omega
  refine ⟨?_, ?_, h.line⟩
  · dsimp only [Input.take]
    rw [hless]
    omega
  · dsimp only [Input.take, unread] at hbytes ⊢
    rw [hn, window_cons] at hbytes
    rw [hless, window_mod (mod_add_one d.r), append_assoc]
    exact hbytes

theorem Disciplined.put (h : d.Disciplined) (hroom : (d.e - d.r).toNat < INPUT_BUF) (c : UInt8) : Disciplined (d.put c) := by
  have hcount := h.count
  have hline := h.line
  unfold Input.line at hline
  have hmore : (d.e + 1 - d.w).toNat = (d.e - d.w).toNat + 1 := by
    unfold INPUT_BUF at *
    bv_omega
  have hslot {x : Word} {n : ℕ} (hx : (d.e - x).toNat = n) : slot d.e = Fin.ofNat INPUT_BUF (x.toNat + n) := by
    refine ofNat_eq_of_mod_eq ?_
    unfold INPUT_BUF
    bv_omega
  have hlt : (d.e - d.w).toNat < INPUT_BUF := by
    unfold INPUT_BUF at *
    bv_omega
  -- the line with the character, and what nobody has read of the earlier lines
  have hlast : window (update d.buf (slot d.e) (stored c)) d.w.toNat ((d.e - d.w).toNat + 1) =
      (edited d.keys).2 ++ [stored c] := by
    rw [hslot rfl, window_succ, window_update le_rfl hlt, update_self, hline]
  have hunread : window (update d.buf (slot d.e) (stored c)) d.r.toNat (d.w - d.r).toNat = d.unread := by
    rw [hslot (x := d.r) rfl]
    refine window_update ?_ hroom
    unfold INPUT_BUF at *
    bv_omega
  have hedit : edited (d.put c).keys = if d.Commits c then ((edited d.keys).1 ++ ((edited d.keys).2 ++ [stored c]), [])
      else ((edited d.keys).1, (edited d.keys).2 ++ [stored c]) := by
    rw [Input.put, edited_snoc]
    simp only [edit, decide_eq_true_eq]
    exact if_congr Iff.rfl rfl rfl
  have hw : (d.put c).w = if d.Commits c then d.e + 1 else d.w := rfl
  have hbytes := h.bytes
  by_cases hc : d.Commits c
  · rw [if_pos hc] at hedit hw
    have hall : (d.put c).unread = d.unread ++ ((edited d.keys).2 ++ [stored c]) := by
      have hsum : (d.e + 1 - d.r).toNat = (d.w - d.r).toNat + ((d.e - d.w).toNat + 1) := by
        unfold INPUT_BUF at *
        bv_omega
      have hmod : (d.r.toNat + (d.w - d.r).toNat) % INPUT_BUF = d.w.toNat % INPUT_BUF := by
        unfold INPUT_BUF
        bv_omega
      unfold Input.unread
      rw [hw]
      dsimp only [Input.put]
      rw [hsum, window_add, window_mod hmod, hlast, hunread]
      rfl
    refine ⟨?_, ?_, ?_⟩
    · rw [hw]
      dsimp only [Input.put]
      unfold INPUT_BUF at *
      bv_omega
    · rw [hall, hedit, map_append, ← append_assoc]
      change d.delivered ++ _ ++ _ = _
      rw [hbytes, ← map_append]
    · unfold Input.line
      rw [hw, hedit]
      simp [Input.put, window]
  · rw [if_neg hc] at hedit hw
    refine ⟨?_, ?_, ?_⟩
    · rw [hw]
      dsimp only [Input.put]
      unfold INPUT_BUF at *
      bv_omega
    · unfold Input.unread
      rw [hw, hedit]
      dsimp only [Input.put]
      rw [hunread]
      exact hbytes
    · unfold Input.line
      rw [hw, hedit]
      dsimp only [Input.put]
      rw [hmore, hlast]

end Input

end Xv6.Console
