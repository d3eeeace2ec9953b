import Xv6.Lib.Window
import Xv6.Sleep.Wakeup

/-! # Pipes

`struct pipe` with the bytes that have gone in and out as history, and the code of
`pipewrite`, `piperead` and `pipeclose` under the lock of the pipe.
-/
namespace Xv6.Piping
open Monitor
open Pipe (slot)

structure Ring extends Pipe where
  stored : List UInt8 := []
  delivered : List UInt8 := []

namespace Ring

def Empty (d : Ring) : Prop := d.nread = d.nwrite
def Full (d : Ring) : Prop := d.nwrite = d.nread + BitVec.ofNat 32 PIPESIZE

instance (d : Ring) : Decidable d.Empty := inferInstanceAs (Decidable (_ = _))
instance (d : Ring) : Decidable d.Full := inferInstanceAs (Decidable (_ = _))

/-- `p->data[p->nwrite++ % PIPESIZE] = b`. -/
def store (d : Ring) (b : UInt8) : Ring :=
  { d with
    data := Function.update d.data (slot d.nwrite.toNat) b
    nwrite := d.nwrite + 1
    stored := d.stored ++ [b] }

/-- The byte `p->data[p->nread % PIPESIZE]`. -/
def head (d : Ring) : UInt8 := d.data (slot d.nread.toNat)

/-- `p->nread++`, after the byte is copied. -/
def take (d : Ring) : Ring :=
  { d with
    nread := d.nread + 1
    delivered := d.delivered ++ [d.head] }

def close (d : Ring) (writable : Bool) : Ring :=
  if writable then { d with writeopen := false } else { d with readopen := false }

end Ring

inductive Call
  | pipewrite (addr : List UInt8)
  | piperead (n : ℕ)
  | pipeclose (writable : Bool)

/-- The places in the code. `storing` and `taking` are the loops over the bytes, `full` is in
front of `sleep` in `pipewrite`, and `leave` in front of the last `release`. -/
inductive Point
  | pipewrite (n : ℕ) (addr : List UInt8)
  | storing (n : ℕ) (todo : List UInt8)
  | full (n : ℕ) (todo : List UInt8)
  | piperead (n : ℕ)
  | testing (n : ℕ)
  | taking (n : ℕ) (addr : List UInt8)
  | pipeclose (writable : Bool)
  | closing (writable : Bool)
  | closed (writable : Bool)
  | leave (r : ℤ)
  | done (r : ℤ)

section Code
variable (pi : ℕ)

/-- The channels `&p->nread` and `&p->nwrite` of the pipe at address `pi`. -/
def nreadChan : Chan := .addr (pi + 564)
def nwriteChan : Chan := .addr (pi + 568)

/-- The copying loop of `piperead`, where `n` bytes are left to read. -/
def copy (d : Ring) (n : ℕ) (addr : List UInt8) : Act Ring Point :=
  match n with
  | 0 => .wakeup (nwriteChan pi) (.leave addr.length)
  | n + 1 =>
    if d.Empty then .wakeup (nwriteChan pi) (.leave addr.length)
    else .update d.take (.taking n (addr ++ [d.head]))

/-- `pipeclose` frees the page after the release if both ends are closed; nobody has the pipe
any more then. -/
def act : Point → Ring → (killed : Bool) → Act Ring Point
  | .pipewrite n addr, _, _ => .acquire (.storing n addr)
  | .storing n [], _, _ => .wakeup (nreadChan pi) (.leave n)
  | .storing n (b :: todo), d, killed =>
    if d.Full then
      if d.readopen = false ∨ killed = true then .release (.done (-1))
      else .wakeup (nreadChan pi) (.full n (b :: todo))
    else .update (d.store b) (.storing n todo)
  | .full n todo, _, _ => .sleep (nwriteChan pi) (.storing n todo)
  | .piperead n, _, _ => .acquire (.testing n)
  | .testing n, d, killed =>
    if d.Empty ∧ d.writeopen = true then
      if killed then .release (.done (-1)) else .sleep (nreadChan pi) (.testing n)
    else copy pi d n []
  | .taking n addr, d, _ => copy pi d n addr
  | .pipeclose writable, _, _ => .acquire (.closing writable)
  | .closing writable, d, _ => .update (d.close writable) (.closed writable)
  | .closed writable, _, _ => .wakeup (if writable then nreadChan pi else nwriteChan pi) (.leave 0)
  | .leave r, _, _ => .release (.done r)
  | .done r, _, _ => .ret r

def pipe : Client Ring Point Call where
  lk := .own
  enter
    | .pipewrite addr => .pipewrite addr.length addr
    | .piperead n => .piperead n
    | .pipeclose writable => .pipeclose writable
  act := act pi

end Code

namespace Ring
variable {d : Ring}

def count (d : Ring) : ℕ := (d.nwrite - d.nread).toNat

def unread (d : Ring) : List UInt8 :=
  (List.range d.count).map fun i => d.data (slot (d.nread.toNat + i))

/-- What has been read, followed by what is in the pipe, is what has been written. -/
structure Fifo (d : Ring) : Prop where
  count : d.count ≤ PIPESIZE
  bytes : d.delivered ++ d.unread = d.stored

theorem count_eq_zero : d.count = 0 ↔ d.Empty := by
  simp only [count, Empty]
  bv_omega

theorem count_eq_size : d.count = PIPESIZE ↔ d.Full := by
  simp only [count, Full, PIPESIZE]
  bv_omega

instance : NeZero PIPESIZE := ⟨by decide⟩

theorem unread_eq : d.unread = window d.data d.nread.toNat d.count := rfl

theorem slot_nwrite (h : d.count ≤ PIPESIZE) :
    slot d.nwrite.toNat = Fin.ofNat PIPESIZE (d.nread.toNat + d.count) := by
  refine ofNat_eq_of_mod_eq (a := d.nwrite.toNat) ?_
  simp only [count, PIPESIZE] at h ⊢
  bv_omega

theorem Fifo.store (h : d.Fifo) (hfull : ¬ d.Full) (b : UInt8) : (d.store b).Fifo := by
  have hlt : d.count < PIPESIZE := lt_of_le_of_ne h.count fun heq => hfull (count_eq_size.mp heq)
  have hcount : (d.store b).count = d.count + 1 := by
    simp only [Ring.count, PIPESIZE, Ring.store] at hlt ⊢
    bv_omega
  have hdata : (d.store b).data = Function.update d.data (Fin.ofNat PIPESIZE (d.nread.toNat + d.count)) b := by
    rw [← slot_nwrite h.count]
    rfl
  have hnread : (d.store b).nread = d.nread := rfl
  constructor
  · omega
  · have hunread : (d.store b).unread = d.unread ++ [b] := by
      rw [unread_eq, hcount, hdata, hnread, window_succ, window_update le_rfl hlt, Function.update_self]
      rfl
    rw [hunread, ← List.append_assoc]
    exact congrArg (· ++ [b]) h.bytes

theorem Fifo.take (h : d.Fifo) (hempty : ¬ d.Empty) : d.take.Fifo := by
  obtain ⟨n, hn⟩ : ∃ n, d.count = n + 1 := Nat.exists_eq_succ_of_ne_zero fun h0 => hempty (count_eq_zero.mp h0)
  have hle := h.count
  have hcount : d.take.count = n := by
    simp only [Ring.count, PIPESIZE, Ring.take] at hn hle ⊢
    bv_omega
  have hnread : d.take.nread.toNat % PIPESIZE = (d.nread.toNat + 1) % PIPESIZE := by
    simp only [PIPESIZE, Ring.take]
    bv_omega
  have hunread : d.unread = d.head :: d.take.unread := by
    rw [unread_eq, unread_eq, hn, hcount, window_cons, window_mod hnread]
    rfl
  constructor
  · omega
  · have hbytes := h.bytes
    rw [hunread] at hbytes
    exact (List.append_assoc d.delivered [d.head] d.take.unread).trans hbytes

theorem Fifo.close (h : d.Fifo) (writable : Bool) : (d.close writable).Fifo := by
  cases writable with
  | true | false => exact ⟨h.count, h.bytes⟩

end Ring

end Xv6.Piping
