import Xv6.Kernel.Op

/-! # Names that overrun their field

`userid` is the last field of `struct proc`, and `fork2` copies its argument there with
`strcpy`. What does not fit lands in the next slot of the table, whose first words are
`sz`, `pgdir`, `kstack` and `state`.
-/
namespace Xv6

/-- A word of which the first bytes are overwritten. -/
def overlay (old : Word) (bytes : List UInt8) : Word :=
  Mem.word (Mem.write (fun a => (wordBytes old).getD a 0) 0 (bytes.take 4)) 0

/-- The kernel address of a page, and the page that an address lies in. -/
def pageAddr (f : Vm.Frame) : Word := BitVec.ofNat 32 (Vm.KERNBASE + f * Vm.PGSIZE)
def pageOf (a : Word) : Vm.Frame := (a.toNat - Vm.KERNBASE) / Vm.PGSIZE

/-- The slot after at most 13 bytes have been written over its start. A directory that is
reached through an overwritten pointer is not one that the kernel has built; nothing is
known of it. The last of the 13 bytes is a NUL, in the low byte of `state`. -/
def Proc.overrun (bytes : List UInt8) (pr : Proc) : Proc :=
  { pr with
    sz := overlay pr.sz bytes
    pgdir :=
      if bytes.length ≤ 4 then pr.pgdir
      else ⟨pageOf (overlay (pageAddr pr.pgdir.frame) (bytes.drop 4)), [], fun _ => none⟩
    kstack :=
      if bytes.length ≤ 8 then pr.kstack
      else some (pageOf (overlay (pr.kstack.elim 0 pageAddr) (bytes.drop 8)))
    state := if bytes.length ≤ 12 then pr.state else .unused }

/-- What `strcpy` writes past the 16 bytes of the field. -/
def pastField (userid : CStr) : List UInt8 := (userid.bytes ++ [0]).drop 16

/-- A name of more than 28 bytes would write fields that the model does not lay out as
bytes; it is followed no further. After the last slot the table ends. -/
def Kernel.overrun (np : Slot) (userid : CStr) : Comp Kernel Unit :=
  if userid.length < 16 then pure ()
  else if 28 < userid.length then Comp.panic "overrun"
  else if h : np.val + 1 < NPROC then
    Comp.modify fun k => k.setProc ⟨np.val + 1, h⟩ (Proc.overrun (pastField userid))
  else pure ()

def Op.spill : Op → Comp Kernel Unit
  | .proc (.initChild np _ _ userid) => Kernel.overrun np userid
  | _ => pure ()

/-- An operation with what its copy of a user id does to the next slot. -/
def Op.spilling (o : Op) : Comp Kernel o.Ans := do
  let b ← o.sem
  o.spill
  return b

def Op.Fits : Op → Prop
  | .proc (.initChild _ _ _ userid) => userid.length < 16
  | _ => True

theorem Op.spilling_eq_ok {o : Op} {b : o.Ans} {k k' : Kernel} (ho : o.Fits) (h : o.spilling k = .ok (b, k')) :
    o.sem k = .ok (b, k') := by
  obtain ⟨b', t, hsem, h⟩ := Comp.bind_eq_ok.mp h
  have hspill : o.spill = pure () := by
    unfold Op.spill
    split
    · exact if_pos ho
    · rfl
  rw [hspill] at h
  cases h
  exact hsem

end Xv6
