import Xv6.Fs.Inode

/-! # Directories and path names -/
namespace Xv6.Fs
open KProg hiding panic

/-- A name as `namecmp` and `strncpy` see it: at most `DIRSIZ` bytes, up to a NUL. -/
def dirName (name : List UInt8) : List UInt8 := (name.take DIRSIZ).takeWhile (· ≠ 0)

/-- The 16 bytes of a `struct dirent`. -/
def direntBytes (inum : BitVec 16) (name : List UInt8) : List UInt8 :=
  halfwordBytes inum ++ (dirName name ++ List.replicate (DIRSIZ - (dirName name).length) 0)

structure Dirent where
  inum : BitVec 16
  name : List UInt8

def dirent (bytes : List UInt8) : Dirent :=
  ⟨Mem.halfword (fun a => bytes.getD a 0) 0, dirName (bytes.drop 2)⟩

def SIZEOF_DIRENT : ℕ := 16

/-- The entry at an offset of a directory; `msg` is the panic of the caller's loop. -/
def readDirent (p : Slot) (dp : InodeIdx) (off : ℕ) (msg : String) : KProg Dirent := do
  let (r, bytes) ← readi p dp (BitVec.ofNat 32 off) (BitVec.ofNat 32 SIZEOF_DIRENT)
  if r = SIZEOF_DIRENT then return dirent bytes else KProg.panic msg

/-- The turns of a loop over a directory of the given size, from `off` on. -/
def direntTurns (size : Word) (off : ℕ) : ℕ := (size.toNat - off + (SIZEOF_DIRENT - 1)) / SIZEOF_DIRENT

def lookupFrom (p : Slot) (dp : InodeIdx) (name : List UInt8) :
    (turns : ℕ) → (off : ℕ) → KProg (Option (InodeIdx × ℕ))
  | 0, _ => return none
  | turns + 1, off => do
    let de ← readDirent p dp off "dirlookup read"
    if de.inum ≠ 0 ∧ de.name = dirName name then
      let ip ← iget de.inum.toNat
      return some (ip, off)
    else lookupFrom p dp name turns (off + SIZEOF_DIRENT)

def dirlookup (p : Slot) (dp : InodeIdx) (name : List UInt8) : KProg (Option (InodeIdx × ℕ)) := do
  let ip ← inode dp
  if ip.d.type ≠ .dir then KProg.panic "dirlookup not DIR"
  else lookupFrom p dp name (direntTurns ip.d.size 0) 0

/-- The offset at which `dirlink` stops: an empty entry or the end. -/
def emptyFrom (p : Slot) (dp : InodeIdx) : (turns : ℕ) → (off : ℕ) → KProg ℕ
  | 0, off => return off
  | turns + 1, off => do
    let de ← readDirent p dp off "dirlink read"
    if de.inum = 0 then return off else emptyFrom p dp turns (off + SIZEOF_DIRENT)

def dirlink (p : Slot) (dp : InodeIdx) (name : List UInt8) (inum : ℕ) : KProg ℤ := do
  match ← dirlookup p dp name with
  | some (ip, _) =>
    iput p ip
    return -1
  | none =>
    let ip ← inode dp
    let off ← emptyFrom p dp (direntTurns ip.d.size 0) 0
    let r ← writei p dp (direntBytes (BitVec.ofNat 16 inum) name) (BitVec.ofNat 32 off)
    if r = SIZEOF_DIRENT then return 0 else KProg.panic "dirlink"

def slash : UInt8 := 47

/-- The next element of a path, cut to `DIRSIZ` bytes, and the rest of the path. -/
def skipelem (path : List UInt8) : Option (List UInt8 × List UInt8) :=
  match path.dropWhile (· = slash) with
  | [] => none
  | c :: cs =>
    some (((c :: cs).takeWhile (· ≠ slash)).take DIRSIZ,
      ((c :: cs).dropWhile (· ≠ slash)).dropWhile (· = slash))

/-- The elements of a path, as the loop of `namex` sees them. -/
def elements : (turns : ℕ) → List UInt8 → List (List UInt8)
  | 0, _ => []
  | turns + 1, path =>
    match skipelem path with
    | none => []
    | some (name, rest) => name :: elements turns rest

/-- The loop of `namex`; with `parent` it stops at the last element. -/
def walk (p : Slot) (parent : Bool) : List (List UInt8) → InodeIdx → KProg (Option (InodeIdx × List UInt8))
  | [], ip => do
    if parent then
      iput p ip
      return none
    else return some (ip, [])
  | name :: rest, ip => do
    ilock p ip
    if (← inode ip).d.type ≠ .dir then
      iunlockput p ip
      return none
    else if !(← access .namex p ip MODE_XUSR MODE_XOTH) then
      iunlockput p ip
      return none
    else if parent ∧ rest = [] then
      iunlock p ip
      return some (ip, name)
    else
      match ← dirlookup p ip name with
      | none =>
        iunlockput p ip
        return none
      | some (next, _) =>
        iunlockput p ip
        walk p parent rest next

def start (p : Slot) (path : List UInt8) : KProg InodeIdx := do
  if path.head? = some slash then iget ROOTINO
  else
    match ← cwd p with
    | some i => idup i
    | none => KProg.panic "idup: null inode"

def namex (p : Slot) (path : CStr) (parent : Bool) : KProg (Option (InodeIdx × List UInt8)) := do
  let ip ← start p path.bytes
  walk p parent (elements path.length path.bytes) ip

def namei (p : Slot) (path : CStr) : KProg (Option InodeIdx) := do
  let r ← namex p path false
  return r.map Prod.fst

/-- The parent directory of a path and the last element. -/
def nameiparent (p : Slot) (path : CStr) : KProg (Option (InodeIdx × List UInt8)) :=
  namex p path true

section Core
open Prog

section
variable (p : Slot) (dp : InodeIdx)
include p dp

theorem readDirent_core (off : ℕ) (h : msg ∈ FsOp.panics) : (readDirent p dp off msg).Uses Op.Core :=
  Uses.bind (readi_core p dp _ _) fun _ => .ite (uses_pure _) (panic_core h)

theorem lookupFrom_core (name : List UInt8) (turns off : ℕ) :
    (lookupFrom p dp name turns off).Uses Op.Core := by
  induction turns generalizing off with
  | zero => exact uses_pure _
  | succ turns ih =>
    refine .bind (readDirent_core p dp off (by decide)) fun de => .ite ?_ (ih _)
    exact fs_bind_core trivial fun _ => uses_pure _

theorem dirlookup_core (name : List UInt8) : (dirlookup p dp name).Uses Op.Core :=
  fs_bind_core trivial fun _ => .ite (panic_core (by decide)) (lookupFrom_core p dp name _ _)

theorem emptyFrom_core (turns off : ℕ) : (emptyFrom p dp turns off).Uses Op.Core := by
  induction turns generalizing off with
  | zero => exact uses_pure _
  | succ turns ih => exact .bind (readDirent_core p dp off (by decide)) fun de => .ite (uses_pure _) (ih _)

theorem dirlink_core (name : List UInt8) (inum : ℕ) : (dirlink p dp name inum).Uses Op.Core := by
  refine .bind (dirlookup_core p dp name) fun r => ?_
  cases r with
  | some r => exact .bind (iput_core p r.1) fun _ => uses_pure _
  | none =>
    refine fs_bind_core trivial fun ip => .bind (emptyFrom_core p dp _ _) fun off => ?_
    exact .bind (writei_core p dp _ _) fun r => .ite (uses_pure _) (panic_core (by decide))

end

theorem walk_core (p : Slot) (parent : Bool) (names : List (List UInt8)) (ip : InodeIdx) :
    (walk p parent names ip).Uses Op.Core := by
  have put {α : Type} (i : InodeIdx) (a : α) :
      (iunlockput p i >>= fun _ => pure a : KProg α).Uses Op.Core :=
    Uses.bind (iunlockput_core p i) fun _ => uses_pure _
  induction names generalizing ip with
  | nil => exact .ite (.bind (iput_core p ip) fun _ => uses_pure _) (uses_pure _)
  | cons name rest ih =>
    refine fs_bind_core trivial fun _ => fs_bind_core trivial fun d => .ite (put ip none) ?_
    refine fs_bind_core trivial fun (ok : Bool) => .ite (put ip none) (.ite ?_ ?_)
    · exact fs_bind_core trivial fun _ => uses_pure _
    refine .bind (dirlookup_core p ip name) fun r => ?_
    cases r with
    | none => exact put ip none
    | some next => exact .bind (iunlockput_core p ip) fun _ => ih next.1

theorem start_core (p : Slot) (path : List UInt8) : (start p path).Uses Op.Core := by
  refine .ite (fs_core trivial) (fs_bind_core trivial fun i => ?_)
  cases i with
  | some i => exact idup_core i
  | none => exact panic_core (by decide)

theorem namex_core (p : Slot) (path : CStr) (parent : Bool) : (namex p path parent).Uses Op.Core :=
  Uses.bind (start_core p _) fun ip => walk_core p parent _ ip

theorem namei_core (p : Slot) (path : CStr) : (namei p path).Uses Op.Core :=
  Uses.bind (namex_core p path false) fun _ => uses_pure _

end Core
end Xv6.Fs
