import Xv6.Sys.File

/-! # Stores into user memory

How a call fetches its arguments from the memory of its process, and where `read`,
`fstat`, `pipe` and `whoami` store their results.
-/
namespace Xv6.Sys
open Prog Fs Obeys List
open KProg hiding panic

section Arguments
variable (pr : Proc) (m : Mem)

def fetchint (addr : Word) : Option Word :=
  if addr ≥ pr.sz ∨ addr + 4 > pr.sz then none else some (m.word addr.toNat)

/-- The loop of `fetchstr` over the `n` bytes from `s` on: how far it is to the NUL. -/
def strlenFrom : (n s : ℕ) → Option ℕ
  | 0, _ => none
  | n + 1, s => if m s = 0 then some 0 else (strlenFrom n (s + 1)).map (· + 1)

def fetchstr (addr : Word) : Option (Word × ℕ) :=
  if addr ≥ pr.sz then none
  else (strlenFrom m (pr.sz.toNat - addr.toNat) addr.toNat).map fun n => (addr, n)

def argint (n : Word) : Option Word := fetchint pr m (pr.tf.esp + 4 + 4 * n)

def argptr (n size : Word) : Option Word :=
  match argint pr m n with
  | none => none
  | some i => if size.toInt < 0 ∨ i ≥ pr.sz ∨ i + size > pr.sz then none else some i

def argstr (n : Word) : Option (Word × ℕ) :=
  match argint pr m n with
  | none => none
  | some addr => fetchstr pr m addr

end Arguments

/-- Bytes that the kernel stores into user memory from an address on. -/
structure Store where
  addr : Word
  bytes : List UInt8

def getFile (f : FileIdx) : KProg File := file (.file f)
def piperead (p : Slot) (pi : Vm.Frame) (n : Word) : KProg (ℤ × List UInt8) := file (.piperead p pi n.toInt.toNat)

/-- `fileread` for an inode, which moves the offset on if anything was read. -/
def readInode (p : Slot) (f : FileIdx) (ip : InodeIdx) (n : Word) : KProg (ℤ × List UInt8) := do
  ilock p ip
  let off := (← getFile f).off
  let r ← readi p ip off n
  if r.1 > 0 then file (.setOff f (off + BitVec.ofInt 32 r.1)) else pure ()
  iunlock p ip
  return r

def fileread (p : Slot) (f : FileIdx) (n : Word) : KProg (ℤ × List UInt8) := do
  let ff ← getFile f
  if !ff.readable then return (-1, [])
  else
    match ff.type with
    | .pipe => piperead p ff.pipe n
    | .inode =>
      match ff.ip with
      | none => KProg.panic "fileread: null inode"
      | some ip => readInode p f ip n
    | .none => KProg.panic "fileread"

/-- How many bytes `filewrite` writes in one transaction. -/
def writeMax : ℕ := (MAXOPBLOCKS - 1 - 1 - 2) / 2 * 512

/-- One transaction of `filewrite`, which moves the offset on if anything was written. -/
def writeChunk (p : Slot) (f : FileIdx) (ip : InodeIdx) (src : List UInt8) : KProg ℤ := do
  beginOp
  ilock p ip
  let off := (← getFile f).off
  let r ← writei p ip src off
  if r > 0 then file (.setOff f (off + BitVec.ofInt 32 r)) else pure ()
  iunlock p ip
  endOp
  return r

/-- The loop of `filewrite` over the bytes that are left: whether all of them were written. -/
def writeFrom (p : Slot) (f : FileIdx) (ip : InodeIdx) : (turns : ℕ) → List UInt8 → KProg Bool
  | 0, _ => return true
  | turns + 1, src => do
    if src = [] then return true
    else
      let r ← writeChunk p f ip (src.take writeMax)
      if r < 0 then return false
      else if r ≠ (src.take writeMax).length then KProg.panic "short filewrite"
      else writeFrom p f ip turns (src.drop writeMax)

/-- `filewrite` for an inode; a turn of its loop writes at least one byte. -/
def writeInode (p : Slot) (f : FileIdx) (ip : InodeIdx) (src : List UInt8) : KProg ℤ := do
  if ← writeFrom p f ip src.length src then return src.length else return -1

/-- The branch for pipes is left to `pipewrite`. -/
def filewrite (pipewrite : Slot → Vm.Frame → List UInt8 → KProg ℤ) (p : Slot) (f : FileIdx) (src : List UInt8) : KProg ℤ := do
  let ff ← getFile f
  if !ff.writable then return -1
  else
    match ff.type with
    | .pipe => pipewrite p ff.pipe src
    | .inode =>
      match ff.ip with
      | none => KProg.panic "filewrite: null inode"
      | some ip => writeInode p f ip src
    | .none => KProg.panic "filewrite"

def ROOTDEV : Word := 1

/-- The offsets in `struct stat`, and its size. -/
def STAT_USERID : Word := 20
def STAT_MODE : Word := 36
def SIZEOF_STAT : Word := 40

def stati (ip : Inode) (st : Word) : List Store :=
  [⟨st + 4, wordBytes ROOTDEV⟩, ⟨st + 8, wordBytes (BitVec.ofNat 32 ip.inum)⟩,
    ⟨st, halfwordBytes ip.d.type.code⟩, ⟨st + 12, halfwordBytes ip.d.nlink⟩,
    ⟨st + 16, wordBytes ip.d.size⟩, ⟨st + STAT_USERID, ip.d.userid.bytes ++ [0]⟩,
    ⟨st + STAT_MODE, wordBytes ip.d.mode⟩]

def filestat (p : Slot) (f : FileIdx) (st : Word) : KProg (ℤ × List Store) := do
  let ff ← getFile f
  match ff.type, ff.ip with
  | .inode, none => KProg.panic "filestat: null inode"
  | .inode, some i =>
    ilock p i
    let ip ← inode i
    iunlock p i
    return (0, stati ip st)
  | _, _ => return (-1, [])

section Calls
variable (p : Slot) (m : Mem)

def sysRead : KProg (ℤ × List Store) := do
  let pr ← myproc p
  match ← fetchFd p (argint pr m 0) with
  | none => return (-1, [])
  | some (_, f) =>
    match argint pr m 2 with
    | none => return (-1, [])
    | some n =>
      match argptr pr m 1 n with
      | none => return (-1, [])
      | some buf =>
        let r ← fileread p f n
        return (r.1, [⟨buf, r.2⟩])

def sysFstat : KProg (ℤ × List Store) := do
  let pr ← myproc p
  match ← fetchFd p (argint pr m 0) with
  | none => return (-1, [])
  | some (_, f) =>
    match argptr pr m 1 SIZEOF_STAT with
    | none => return (-1, [])
    | some st => filestat p f st

def sysPipe : KProg (ℤ × List Store) := do
  let pr ← myproc p
  match argptr pr m 0 8 with
  | none => return (-1, [])
  | some fd =>
    match ← pipeFds p with
    | none => return (-1, [])
    | some (fd0, fd1) =>
      return (0, [⟨fd, wordBytes (BitVec.ofNat 32 fd0)⟩, ⟨fd + 4, wordBytes (BitVec.ofNat 32 fd1)⟩])

/-- `strcpy(username, myproc()->userid)`. -/
def whoami (username : Word) : KProg (ℤ × List Store) := do
  return (0, [⟨username, (← myproc p).userid.bytes ++ [0]⟩])

def sysWhoami : KProg (ℤ × List Store) := do
  let pr ← myproc p
  match argstr pr m 0 with
  | none => return (-1, [])
  | some (username, _) => whoami p username

end Calls

/-- The calls that store at an address which they take from their arguments. -/
inductive CopyCall
  | read | fstat | pipe | whoami

def CopyCall.body (p : Slot) (m : Mem) : CopyCall → KProg (ℤ × List Store)
  | .read => sysRead p m
  | .fstat => sysFstat p m
  | .pipe => sysPipe p m
  | .whoami => sysWhoami p m

/-- Every byte lies below `sz`, in 32-bit arithmetic. -/
def Store.Below (sz : Word) (s : Store) : Prop := ∀ i < s.bytes.length, s.addr + BitVec.ofNat 32 i < sz

def user (pr : Proc) : Word × Word × CStr := (pr.sz, pr.tf.esp, pr.userid)

/-- The operation gives its answer in some state of the kernel in which the caller is `pr`,
as far as the call looks at it. -/
def Genuine (p : Slot) (pr : Proc) (e : Σ o : Op, o.Ans) : Prop :=
  ∃ k k', user (k.pt.proc p) = user pr ∧ Op.sem e.1 k = .ok (e.2, k')

def useridsSeen : (o : Op) → o.Ans → List CStr
  | .fs (.inode _), (ip : Inode) => [ip.d.userid]
  | _, _ => []

/-- The strings that are copied without a bound end below `sz`: the user id of the caller
for `whoami` and that of the inode for `fstat`. -/
def CopyCall.Fits (pr : Proc) (m : Mem) (ids : List CStr) : CopyCall → Prop
  | .whoami => ∀ username n, argstr pr m 0 = some (username, n) → username.toNat + pr.userid.length < pr.sz.toNat
  | .fstat => ∀ st, argptr pr m 1 SIZEOF_STAT = some st → ∀ id ∈ ids,
      st.toNat + STAT_USERID.toNat + id.length < pr.sz.toNat
  | _ => True

section Bounds
variable {pr : Proc} {m : Mem} {p : Slot}

theorem Store.below_iff {sz : Word} {s : Store} (h : s.addr < sz) :
    s.Below sz ↔ s.addr.toNat + s.bytes.length ≤ sz.toNat := by
  constructor
  · intro hbelow
    by_contra hover
    -- one of the bytes goes to the address `sz`
    have hlast := hbelow (sz.toNat - s.addr.toNat) (by bv_omega)
    bv_omega
  · intro hend i hi
    bv_omega

theorem argptr_bound (hsz : pr.sz.toNat ≤ Vm.KERNBASE) (h : argptr pr m n size = some a) :
    a < pr.sz ∧ 0 ≤ size.toInt ∧ a.toNat + size.toNat ≤ pr.sz.toNat := by
  unfold argptr at h
  split at h
  · cases h
  · rename_i i _
    split at h
    · cases h
    · rename_i hin
      cases h
      simp only [not_or, not_lt] at hin
      obtain ⟨hsize, hlt, hend⟩ := hin
      have hpos : size.toNat < 2 ^ 31 := by
        rw [BitVec.toInt_eq_toNat_cond] at hsize
        omega
      simp only [Vm.KERNBASE] at hsz
      refine ⟨by bv_omega, hsize, by bv_omega⟩

theorem argstr_bound (h : argstr pr m n = some (a, len)) : a < pr.sz := by
  unfold argstr at h
  split at h
  · cases h
  · unfold fetchstr at h
    split at h
    · cases h
    · rename_i hlt
      obtain ⟨len', -, heq⟩ := Option.map_eq_some_iff.mp h
      cases heq
      exact BitVec.not_le.mp hlt

end Bounds

theorem readLine_length (n : ℕ) (first : Bool) (input : List UInt8) : (FsOp.readLine n first input).1.length ≤ n := by
  induction n generalizing first input with
  | zero => exact le_refl 0
  | succ n ih =>
    cases input with
    | nil => exact Nat.zero_le _
    | cons c input =>
      unfold FsOp.readLine
      split
      · exact Nat.zero_le _
      · split
        · exact Nat.succ_le_succ (Nat.zero_le n)
        · exact Nat.succ_le_succ (ih false input)

theorem drain_length (n : ℕ) (d : Pipe) : (FileOp.drain n d).1.length ≤ n := by
  induction n generalizing d with
  | zero => exact le_refl 0
  | succ n ih =>
    unfold FileOp.drain
    split
    · exact Nat.zero_le _
    · exact Nat.succ_le_succ (ih _)

variable {k k' : Kernel} {p : Slot} {r : ℤ × List UInt8}

theorem consoleread_length (h : FsOp.consoleread.sem p n k = .ok (r, k')) : r.2.length ≤ n := by
  have hline := readLine_length n true k.input
  simp only [FsOp.consoleread.sem, Comp.bind_apply, Comp.get_apply] at h
  split at h
  · cases h
    exact hline
  · split at h
    · cases h
      exact hline
    · cases h

theorem piperead_length {pi : Vm.Frame} (h : FileOp.piperead.sem p pi n k = .ok (r, k')) : r.2.length ≤ n := by
  have hbytes := drain_length n (k.pipe pi)
  simp only [FileOp.piperead.sem, Comp.bind_apply, Comp.get_apply, Comp.ite_apply] at h
  split at h
  · split at h
    · cases h
      exact Nat.zero_le n
    · cases h
  · cases h
    exact hbytes

/-- The discipline of answering as some state of the kernel does; the ghost state lists
the user ids of the inodes that the call has looked at. -/
def genuine (p : Slot) (pr : Proc) : Protocol Op Op.Ans where
  Ghost := List CStr
  allow _ _ := True
  answer _ o b := Genuine p pr ⟨o, b⟩
  next ids o b := ids ++ useridsSeen o b

section Answers
variable {p : Slot} {pr : Proc} {m : Mem} {ids : List CStr}

theorem genuine_after (ids : List CStr) (tr : List (Σ o : Op, o.Ans)) :
    (genuine p pr).after ids tr = ids ++ tr.flatMap fun e => useridsSeen e.1 e.2 := by
  induction tr generalizing ids with
  | nil => exact (append_nil ids).symm
  | cons e tr ih =>
    refine (ih (ids ++ useridsSeen e.1 e.2)).trans ?_
    rw [append_assoc, flatMap_cons]

theorem obeys_any {α : Type} (x : KProg α) : x.Obeys (genuine p pr) ids fun _ _ => True := by
  induction x generalizing ids with
  | ret => trivial
  | op o k ih => exact ⟨trivial, fun b _ => ih b⟩

theorem any_bind {α β : Type} {x : KProg α} {y : α → KProg β} {Q : β → List CStr → Prop}
    (hy : ∀ a ids, (y a).Obeys (genuine p pr) ids Q) : (x >>= y).Obeys (genuine p pr) ids Q :=
  (obeys_any x).seq fun a ids _ => hy a ids

theorem panic_obeys {α : Type} {Q : α → List CStr → Prop} :
    (.panic msg : KProg α).Obeys (genuine p pr) ids Q := ⟨trivial, fun b => b.elim⟩

theorem readLoop_length (i : InodeIdx) (turns off n : ℕ) :
    (readLoop i turns off n).Obeys (genuine p pr) ids fun bytes _ => bytes.length ≤ n := by
  induction turns generalizing off n ids with
  | zero => exact Nat.zero_le n
  | succ turns ih =>
    refine ite (fun _ => Nat.zero_le n) fun _ => any_bind fun b ids => any_bind fun data ids => ?_
    refine (ih _ _).seq fun rest ids hrest => ?_
    change ((range _).map _ ++ rest).length ≤ n
    rw [length_append, length_map, length_range]
    omega

theorem readi_length (i : InodeIdx) (off : Word) {n : Word} (hn : 0 ≤ n.toInt) :
    (readi p i off n).Obeys (genuine p pr) ids fun r _ => r.2.length ≤ n.toNat := by
  have htoNat : n.toInt.toNat = n.toNat := by
    rw [BitVec.toInt_eq_toNat_cond] at hn ⊢
    omega
  refine any_bind fun (ip : Inode) ids => ite (fun _ => ?_) fun _ => ?_
  · refine ite (fun _ => any_bind fun _ ids => ?_) fun _ => Nat.zero_le _
    refine obeys_bind_call trivial fun (r : ℤ × List UInt8) hr => any_bind fun _ _ => ?_
    obtain ⟨k, k', -, hr⟩ := hr
    exact htoNat ▸ consoleread_length hr
  · refine ite (fun _ => Nat.zero_le _) fun hin => ?_
    refine (readLoop_length i _ _ _).seq fun bytes ids hbytes => hbytes.trans ?_
    simp only [not_or] at hin
    split
    · bv_omega
    · exact le_refl _

theorem fileread_length (f : FileIdx) {n : Word} (hn : 0 ≤ n.toInt) :
    (fileread p f n).Obeys (genuine p pr) ids fun r _ => r.2.length ≤ n.toNat := by
  refine any_bind fun (ff : File) ids => ite (fun _ => Nat.zero_le _) fun _ => ?_
  cases ff.type with
  | pipe =>
    refine obeys_call trivial fun r hr => ?_
    obtain ⟨k, k', -, hr⟩ := hr
    refine (piperead_length hr).trans ?_
    rw [BitVec.toInt_eq_toNat_cond] at hn ⊢
    omega
  | inode =>
    cases ff.ip with
    | none => exact panic_obeys
    | some ip =>
      refine any_bind fun _ ids => any_bind fun (ff : File) ids => (readi_length ip _ hn).seq fun r ids hr => ?_
      have hend (ids : List CStr) : (iunlock p ip >>= fun _ => pure r).Obeys (genuine p pr) ids
          fun r _ => r.2.length ≤ n.toNat := any_bind fun _ _ => hr
      exact ite (fun _ => any_bind fun _ ids => hend ids) fun _ => hend ids
  | none => exact panic_obeys

theorem myproc_bind {β : Type} {y : Proc → KProg β} {Q : β → List CStr → Prop}
    (hy : ∀ pr', user pr' = user pr → (y pr').Obeys (genuine p pr) ids Q) :
    (myproc p >>= y).Obeys (genuine p pr) ids Q := by
  refine obeys_bind_call trivial fun (pr' : Proc) hpr' => ?_
  obtain ⟨k, k', huser, hsem⟩ := hpr'
  cases hsem
  -- nothing is added to the list of user ids
  exact (congrArg (fun g : (genuine p pr).Ghost => (y _).Obeys _ g Q) (append_nil ids)).mpr (hy _ huser)

theorem fetchFd_bind {β : Type} {y : Option (Fin NOFILE × FileIdx) → KProg β}
    {Q : β → List CStr → Prop} (hy : ∀ r, (y r).Obeys (genuine p pr) ids Q) :
    (fetchFd p fd >>= y).Obeys (genuine p pr) ids Q := by
  cases fd with
  | none => exact hy none
  | some =>
    unfold fetchFd
    dsimp only
    split
    · exact myproc_bind fun pr' _ => hy _
    · exact hy none

theorem args_congr (h : user pr' = user pr) :
    argint pr' m = argint pr m ∧ argptr pr' m = argptr pr m ∧ argstr pr' m = argstr pr m ∧ pr'.userid = pr.userid := by
  simp only [user, Prod.mk.injEq] at h
  obtain ⟨hsz, hesp, hid⟩ := h
  have hargint : argint pr' m = argint pr m := by
    funext n
    simp only [argint, fetchint, hsz, hesp]
  refine ⟨hargint, ?_, ?_, hid⟩
  · funext n size
    simp only [argptr, hargint, hsz]
  · funext n
    simp only [argstr, fetchstr, hargint, hsz]

theorem below_of_block {a size : Word} (off : ℕ) (bytes : List UInt8) (hend : a.toNat + size.toNat ≤ pr.sz.toNat)
    (hfit : off + bytes.length ≤ size.toNat) (hlt : a < pr.sz) : Store.Below pr.sz ⟨a + BitVec.ofNat 32 off, bytes⟩ := by
  intro i hi
  have hi' : i < bytes.length := hi
  change a + BitVec.ofNat 32 off + BitVec.ofNat 32 i < pr.sz
  bv_omega

theorem stati_below {ip : Inode} (hend : st.toNat + SIZEOF_STAT.toNat ≤ pr.sz.toNat) (hlt : st < pr.sz) :
    (∀ s ∈ stati ip st, s.Below pr.sz) ↔ st.toNat + STAT_USERID.toNat + ip.d.userid.length < pr.sz.toNat := by
  have hblock (off : ℕ) (bytes : List UInt8) (hfit : off + bytes.length ≤ 40) :
      Store.Below pr.sz ⟨st + BitVec.ofNat 32 off, bytes⟩ := below_of_block off bytes hend hfit hlt
  have huserid : (st + STAT_USERID).toNat = st.toNat + STAT_USERID.toNat := by
    simp only [SIZEOF_STAT, STAT_USERID] at hend ⊢
    bv_omega
  have hname : Store.Below pr.sz ⟨st + STAT_USERID, ip.d.userid.bytes ++ [0]⟩ ↔
      st.toNat + STAT_USERID.toNat + ip.d.userid.length < pr.sz.toNat := by
    rw [Store.below_iff, huserid, length_append]
    · exact .rfl
    · simp only [SIZEOF_STAT, STAT_USERID] at hend ⊢
      bv_omega
  rw [← hname]
  constructor
  · intro h
    exact h _ (by simp [stati])
  · intro h s hs
    simp only [stati, mem_cons, not_mem_nil, or_false] at hs
    rcases hs with rfl | rfl | rfl | rfl | rfl | rfl | rfl
    · exact hblock 4 _ (by decide)
    · exact hblock 8 _ (by simp [wordBytes, halfwordBytes])
    · have hzero := hblock 0 (halfwordBytes ip.d.type.code) (by simp [halfwordBytes])
      rwa [show st + BitVec.ofNat 32 0 = st from BitVec.add_zero st] at hzero
    · exact hblock 12 _ (by simp [halfwordBytes])
    · exact hblock 16 _ (by simp [wordBytes, halfwordBytes])
    · exact h
    · exact hblock 36 _ (by simp [wordBytes, halfwordBytes])

theorem sysRead_below (hsz : pr.sz.toNat ≤ Vm.KERNBASE) :
    (sysRead p m).Obeys (genuine p pr) ids fun r _ => ∀ s ∈ r.2, s.Below pr.sz := by
  have hnone (g : List CStr) : ∀ s ∈ ([] : List Store), s.Below pr.sz := nofun
  refine myproc_bind fun pr' hpr' => fetchFd_bind fun r => ?_
  obtain ⟨hargint, hargptr, -⟩ := args_congr (m := m) hpr'
  cases r with
  | none => exact hnone ids
  | some r =>
    dsimp only
    rw [hargint, hargptr]
    cases argint pr m 2 with
    | none => exact hnone ids
    | some n =>
      dsimp only
      cases hptr : argptr pr m 1 n with
      | none => exact hnone ids
      | some =>
        obtain ⟨hlt, hn, hend⟩ := argptr_bound hsz hptr
        refine (fileread_length r.2 hn).seq fun res ids hlen s hs => ?_
        rw [mem_singleton.mp hs, Store.below_iff hlt]
        exact (Nat.add_le_add_left hlen _).trans hend

theorem sysPipe_below (hsz : pr.sz.toNat ≤ Vm.KERNBASE) :
    (sysPipe p m).Obeys (genuine p pr) ids fun r _ => ∀ s ∈ r.2, s.Below pr.sz := by
  have hnone (g : List CStr) : ∀ s ∈ ([] : List Store), s.Below pr.sz := nofun
  refine myproc_bind fun pr' hpr' => ?_
  obtain ⟨-, hargptr, -⟩ := args_congr (m := m) hpr'
  rw [hargptr]
  cases hptr : argptr pr m 0 8 with
  | none => exact hnone ids
  | some fd =>
    obtain ⟨hlt, -, hend⟩ := argptr_bound hsz hptr
    refine any_bind fun r ids => ?_
    cases r with
    | none => exact hnone ids
    | some r =>
      intro s hs
      simp only [mem_cons, not_mem_nil, or_false] at hs
      rcases hs with rfl | rfl
      · have hzero := below_of_block 0 (wordBytes (BitVec.ofNat 32 r.1)) hend
          (by simp [wordBytes, halfwordBytes]) hlt
        rwa [show fd + BitVec.ofNat 32 0 = fd from BitVec.add_zero fd] at hzero
      · exact below_of_block 4 _ hend (by simp [wordBytes, halfwordBytes]) hlt

theorem sysFstat_below (hsz : pr.sz.toNat ≤ Vm.KERNBASE) : (sysFstat p m).Obeys (genuine p pr) [] fun r ids =>
      (∀ s ∈ r.2, s.Below pr.sz) ↔ CopyCall.fstat.Fits pr m ids := by
  have hnone : (∀ s ∈ ([] : List Store), s.Below pr.sz) ↔ CopyCall.fstat.Fits pr m [] :=
    ⟨fun _ _ _ _ => nofun, fun _ _ => nofun⟩
  refine myproc_bind fun pr' hpr' => fetchFd_bind fun r => ?_
  obtain ⟨-, hargptr, -⟩ := args_congr (m := m) hpr'
  cases r with
  | none => exact hnone
  | some =>
    dsimp only
    rw [hargptr]
    cases hptr : argptr pr m 1 SIZEOF_STAT with
    | none => exact hnone
    | some st =>
      obtain ⟨hlt, -, hend⟩ := argptr_bound hsz hptr
      refine obeys_bind_call trivial fun (ff : File) _ => ?_
      cases ff.type with
      | inode =>
        cases ff.ip with
        | none => exact panic_obeys
        | some =>
          refine obeys_bind_call trivial fun _ _ => obeys_bind_call trivial fun (ip : Inode) _ => ?_
          refine obeys_bind_call trivial fun _ _ => (stati_below hend hlt).trans ⟨fun h st' hst' id hid => ?_, fun h => ?_⟩
          · rw [hptr] at hst'
            cases hst'
            obtain rfl := mem_singleton.mp hid
            exact h
          · exact h st hptr ip.d.userid (mem_singleton_self _)
      | pipe | none => exact hnone

theorem sysWhoami_below : (sysWhoami p m).Obeys (genuine p pr) ids fun r ids =>
    (∀ s ∈ r.2, s.Below pr.sz) ↔ CopyCall.whoami.Fits pr m ids := by
  refine myproc_bind fun pr' hpr' => ?_
  obtain ⟨-, -, hargstr, -⟩ := args_congr (m := m) hpr'
  rw [hargstr]
  cases hstr : argstr pr m 0 with
  | none =>
    refine ⟨fun _ username n h => ?_, fun _ => nofun⟩
    rw [hstr] at h
    cases h
  | some r =>
    refine myproc_bind fun pr1 hpr1 => ?_
    obtain ⟨-, -, -, hid⟩ := args_congr (m := m) hpr1
    change (∀ s ∈ [Store.mk r.1 (pr1.userid.bytes ++ [0])], s.Below pr.sz) ↔ _
    rw [forall_mem_singleton, Store.below_iff (argstr_bound hstr), hid, length_append]
    refine ⟨fun h username n husername => ?_, fun h => h r.1 r.2 hstr⟩
    rw [hstr] at husername
    cases husername
    exact h

end Answers

/-- Whatever the memory and the registers of the caller hold, and whatever the other
processes do during the call, all bytes are stored below `sz` exactly if the strings that
are copied without a bound end there. -/
theorem user_stores_below (p : Slot) (pr : Proc) (m : Mem) (c : CopyCall) {tr : List (Σ o : Op, o.Ans)}
    {r : ℤ × List Store} (hsz : pr.sz.toNat ≤ Vm.KERNBASE) (hpath : (c.body p m).Path tr r)
    (hans : ∀ e ∈ tr, Genuine p pr e) :
    (∀ s ∈ r.2, s.Below pr.sz) ↔ c.Fits pr m (tr.flatMap fun e => useridsSeen e.1 e.2) := by
  have hobeys : (c.body p m).Obeys (genuine p pr) [] fun r ids => (∀ s ∈ r.2, s.Below pr.sz) ↔ c.Fits pr m ids := by
    cases c with
    | read => exact (sysRead_below hsz).mono fun _ _ h => iff_of_true h trivial
    | pipe => exact (sysPipe_below hsz).mono fun _ _ h => iff_of_true h trivial
    | fstat => exact sysFstat_below hsz
    | whoami => exact sysWhoami_below
  have hend := hobeys.path hpath fun e he _ => hans e he
  rw [genuine_after] at hend
  exact hend

/-- A process with a stack below `0x3000`, and its memory with a first argument. -/
def stacked : Proc := { sz := 0x3000, tf := { esp := 0x2fe0 }, userid := root }
def firstArg (a : Word) : Mem := Mem.write (fun _ => 0) 0x2fe4 (wordBytes a)

theorem whoami_path (h : argstr stacked (firstArg username) 0 = some (username, n)) :
    ∃ tr, (CopyCall.whoami.body 0 (firstArg username)).Path tr (0, [⟨username, root.bytes ++ [0]⟩]) ∧
      ∀ e ∈ tr, Genuine 0 stacked e := by
  refine ⟨[⟨.proc (.proc 0), stacked⟩, ⟨.proc (.proc 0), stacked⟩], ?_, fun e he => ?_⟩
  · refine path_bind_call ?_
    rw [h]
    exact path_bind_call (.ret _)
  · obtain rfl : e = ⟨.proc (.proc 0), stacked⟩ := by simpa using he
    let k : Kernel := { Kernel.zero with pt := ⟨fun _ => stacked, 2, none⟩ }
    exact ⟨k, k, rfl, rfl⟩

/-- With a buffer in the middle of the stack, `whoami` stores five bytes below `sz`. -/
theorem user_stores_below_stack : ∃ tr r, (CopyCall.whoami.body 0 (firstArg 0x2f00)).Path tr r ∧
    r.2.map (·.bytes.length) = [5] ∧ ∀ s ∈ r.2, s.Below stacked.sz := by
  have hstr : argstr stacked (firstArg 0x2f00) 0 = some (0x2f00, 0) := by decide +kernel
  obtain ⟨tr, hpath, hans⟩ := whoami_path hstr
  refine ⟨tr, _, hpath, by decide +kernel, ?_⟩
  refine (user_stores_below 0 stacked _ .whoami (by decide +kernel) hpath hans).mpr fun username n h => ?_
  rw [hstr] at h
  cases h
  decide +kernel

/-- The last byte of memory is a NUL and hence a string; `whoami` stores five bytes there. -/
theorem whoami_overruns : ∃ tr r, (CopyCall.whoami.body 0 (firstArg 0x2fff)).Path tr r ∧
    (∀ e ∈ tr, Genuine 0 stacked e) ∧ stacked.sz.toNat ≤ Vm.KERNBASE ∧ ¬ ∀ s ∈ r.2, s.Below stacked.sz := by
  have hstr : argstr stacked (firstArg 0x2fff) 0 = some (0x2fff, 0) := by decide +kernel
  obtain ⟨tr, hpath, hans⟩ := whoami_path hstr
  refine ⟨tr, _, hpath, hans, by decide +kernel, fun h => ?_⟩
  have hbelow := (Store.below_iff (by decide +kernel)).mp (h _ mem_cons_self)
  exact absurd hbelow (by decide +kernel)

end Xv6.Sys
