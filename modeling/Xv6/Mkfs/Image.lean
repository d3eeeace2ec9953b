import Xv6.Fs.Blocks
import Xv6.Fs.Dir
import Xv6.Lib.Record

/-! # Building a disk image

`mkfs.c`, with the image as sectors of bytes: `xshort` and `xint` store little-endian, as
the kernel reads. A call that ends in `exit(1)` or a failed `assert` panics.
-/
namespace Xv6

/-- The type that the kernel sees for a stored code; no other codes are in use. -/
def InodeType.ofCode (c : BitVec 16) : InodeType :=
  if c = 0 then .free else if c = 1 then .dir else if c = 2 then .file else .dev

def SIZEOF_DINODE : ℕ := 64
/-- The size of the field `userid`. -/
def USERID : ℕ := 16

/-- A string in a field of `n` bytes that were zero. -/
def CStr.padded (u : CStr) (n : ℕ) : List UInt8 := u.bytes ++ List.replicate (n - u.length) 0

/-- The fields of a `struct dinode`, as bytes. -/
def dinodeFields (d : Dinode) : List (List UInt8) :=
  [halfwordBytes d.type.code, halfwordBytes d.major, halfwordBytes d.minor, halfwordBytes d.nlink,
    wordBytes d.size, (List.ofFn d.addrs).flatMap wordBytes, d.userid.padded USERID, wordBytes d.mode]

def dinodeBytes (d : Dinode) : List UInt8 := (dinodeFields d).flatten

def cstrAt (m : Mem) (a n : ℕ) : CStr where
  bytes := ((List.range n).map fun j => m (a + j)).takeWhile (· ≠ 0)
  nonul h := by simpa using List.all_eq_true.mp List.all_takeWhile 0 h

def dinodeAt (m : Mem) (a : ℕ) : Dinode where
  type := .ofCode (m.halfword a)
  major := m.halfword (a + 2)
  minor := m.halfword (a + 4)
  nlink := m.halfword (a + 6)
  size := m.word (a + 8)
  addrs n := m.word (a + 12 + 4 * n)
  userid := cstrAt m (a + 44) USERID
  mode := m.word (a + 60)

namespace Mkfs

def FSSIZE : ℕ := 2000
def NINODES : ℕ := 200

def nbitmap : ℕ := FSSIZE / (BSIZE * 8) + 1
def ninodeblocks : ℕ := NINODES / IPB + 1
def nlog : ℕ := LOGSIZE
/-- The boot block, the superblock, the log, the inodes and the free map. -/
def nmeta : ℕ := 2 + nlog + ninodeblocks + nbitmap
def nblocks : ℕ := FSSIZE - nmeta
def logstart : ℕ := 2
def inodestart : ℕ := 2 + nlog
def bmapstart : ℕ := 2 + nlog + ninodeblocks

/-- The bytes of `sb`. -/
def superblock : List UInt8 :=
  [FSSIZE, nblocks, NINODES, nlog, logstart, inodestart, bmapstart].flatMap fun n => wordBytes (BitVec.ofNat 32 n)

/-- The globals of `mkfs` and the image file. -/
structure Build where
  image : Word → Mem
  freeinode : ℕ
  freeblock : ℕ

/-- After every sector has been cleared. -/
def Build.empty : Build := ⟨fun _ _ => 0, 1, nmeta⟩

def Build.put (s : Build) (sec : Word) (buf : Mem) : Build := { s with image := Function.update s.image sec buf }

def wsect (sec : Word) (buf : Mem) : Comp Build Unit := Comp.modify fun s => s.put sec buf

/-- The image file ends after `FSSIZE` sectors. -/
def rsect (sec : Word) : Comp Build Mem := do
  let s ← Comp.get
  if sec.toNat < FSSIZE then return s.image sec else Comp.panic "read"

/-- `IBLOCK`. -/
def iblock (inum : ℕ) : Word := BitVec.ofNat 32 (inum / IPB + inodestart)

def winode (inum : ℕ) (d : Dinode) : Comp Build Unit := do
  let buf ← rsect (iblock inum)
  wsect (iblock inum) (buf.write (SIZEOF_DINODE * (inum % IPB)) (dinodeBytes d))

def rinode (inum : ℕ) : Comp Build Dinode := do
  let buf ← rsect (iblock inum)
  return dinodeAt buf (SIZEOF_DINODE * (inum % IPB))

/-- An inode as `ialloc` writes it. -/
def newInode (type : InodeType) : Dinode where
  type := type
  nlink := 1
  userid := root
  mode := MODE_RUSR ||| MODE_WUSR ||| MODE_XUSR ||| MODE_ROTH ||| MODE_XOTH

def ialloc (type : InodeType) : Comp Build ℕ := do
  let inum := (← Comp.get).freeinode
  Comp.modify fun s => { s with freeinode := inum + 1 }
  winode inum (newInode type)
  return inum

/-- `freeblock++`. -/
def nextBlock : Comp Build Word := do
  let b := (← Comp.get).freeblock
  Comp.modify fun s => { s with freeblock := b + 1 }
  return BitVec.ofNat 32 b

/-- The slot `n` of `din.addrs`, filled if it was empty. -/
def fillAddr (din : Dinode) (n : Fin 8) : Comp Build Dinode := do
  if din.addrs n = 0 then
    let a ← nextBlock
    return { din with addrs := Function.update din.addrs n a }
  else return din

/-- The word `j` of the indirect block `t`, filled if it was empty. -/
def fillEntry (t : Word) (j : ℕ) : Comp Build Word := do
  let indirect ← rsect t
  if indirect.word (4 * j) = 0 then
    let a ← nextBlock
    wsect t (indirect.write (4 * j) (wordBytes a))
    return a
  else return indirect.word (4 * j)

/-- The part of the loop in `iappend` that finds `x`, the sector for block `fbn`. -/
def sectorOf (din : Dinode) (fbn : ℕ) : Comp Build (Dinode × Word) :=
  if MAXFILE ≤ fbn then Comp.panic "fbn < MAXFILE"
  else if h : fbn < NDIRECT then do
    let din ← fillAddr din ⟨fbn, lt_addrs h⟩
    return (din, din.addrs ⟨fbn, lt_addrs h⟩)
  else do
    let din ← fillAddr din INDIRECT
    let x ← fillEntry (din.addrs INDIRECT) (fbn - NDIRECT)
    return (din, x)

/-- The loop of `iappend`; a turn copies at least one byte. It ends with `din` and `off`. -/
def appendLoop : (turns : ℕ) → Dinode → (off : ℕ) → List UInt8 → Comp Build (Dinode × ℕ)
  | 0, din, off, _ => return (din, off)
  | turns + 1, din, off, p => do
    if p = [] then return (din, off)
    else
      let fbn := off / BSIZE
      let (din, x) ← sectorOf din fbn
      let n1 := (fbn + 1) * BSIZE - off
      let buf ← rsect x
      wsect x (buf.write (off - fbn * BSIZE) (p.take n1))
      appendLoop turns din (off + (p.take n1).length) (p.drop n1)

def iappend (inum : ℕ) (p : List UInt8) : Comp Build Unit := do
  let din ← rinode inum
  let (din, off) ← appendLoop p.length din din.size.toNat p
  winode inum { din with size := BitVec.ofNat 32 off }

/-- The free map with the first `used` blocks marked. -/
def freeMap : (used : ℕ) → Mem
  | 0 => fun _ => 0
  | used + 1 => (freeMap used).setBit used

def balloc (used : ℕ) : Comp Build Unit :=
  if used < BSIZE * 8 then wsect (BitVec.ofNat 32 bmapstart) (freeMap used)
  else Comp.panic "used < BSIZE*8"

/-- A file named on the command line: `reads` are the results of `read` up to the end, if
the file can be opened. -/
structure Input where
  name : CStr
  reads : Option (List (List UInt8))
  block : ∀ bs ∈ reads, ∀ b ∈ bs, 0 < b.length ∧ b.length ≤ BSIZE

theorem no_block : ∀ bs ∈ some ([] : List (List UInt8)), ∀ b ∈ bs, 0 < b.length ∧ b.length ≤ BSIZE := by
  rintro bs ⟨⟩ b hb
  cases hb

def Input.bytes (f : Input) : List UInt8 := (f.reads.getD []).flatten

def underscore : UInt8 := 95

def Input.entry (f : Input) : List UInt8 :=
  match f.name.bytes with
  | c :: cs => if c = underscore then cs else c :: cs
  | [] => []

def appendAll (inum : ℕ) : List (List UInt8) → Comp Build Unit
  | [] => return
  | buf :: rest => do
    iappend inum buf
    appendAll inum rest

def addFile (rootino : ℕ) (f : Input) : Comp Build Unit :=
  if Fs.slash ∈ f.name.bytes then Comp.panic "index(argv[i], '/') == 0"
  else
    match f.reads with
    | none => Comp.panic "open"
    | some bufs => do
      let inum ← ialloc .file
      iappend rootino (Fs.direntBytes (BitVec.ofNat 16 inum) f.entry)
      appendAll inum bufs

def addFiles (rootino : ℕ) : List Input → Comp Build Unit
  | [] => return
  | f :: rest => do
    addFile rootino f
    addFiles rootino rest

def dot : List UInt8 := [46]
def dotdot : List UInt8 := [46, 46]

def fixSize (rootino : ℕ) : Comp Build Unit := do
  let din ← rinode rootino
  winode rootino { din with size := BitVec.ofNat 32 ((din.size.toNat / BSIZE + 1) * BSIZE) }

def main (files : List Input) : Comp Build Unit := do
  wsect 1 (Mem.write (fun _ => 0) 0 superblock)
  let rootino ← ialloc .dir
  if rootino ≠ ROOTINO then Comp.panic "rootino == ROOTINO"
  else
    iappend rootino (Fs.direntBytes (BitVec.ofNat 16 rootino) dot)
    iappend rootino (Fs.direntBytes (BitVec.ofNat 16 rootino) dotdot)
    addFiles rootino files
    fixSize rootino
    balloc (← Comp.get).freeblock

end Mkfs
end Xv6
