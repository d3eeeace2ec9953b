import Xv6.Log.Header
import Xv6.Proc.Table

/-! # The kernel's shared state

The tables of `fs.c`, `file.c` and `PRJ03_syscall.c` beside the process table, the log
and physical memory. Disk blocks are seen through the buffer cache: the inode blocks as
dinodes, the free map as bits, all other blocks as bytes.
-/
namespace Xv6

def BSIZE : ℕ := 512
def ROOTINO : ℕ := 1
def NDIRECT : ℕ := 7
def NINDIRECT : ℕ := 128
def MAXFILE : ℕ := NDIRECT + NINDIRECT
def DIRSIZ : ℕ := 14
def IPB : ℕ := 8
def BPB : ℕ := 4096
def CONSOLE : ℕ := 1

inductive InodeType
  | free | dir | file | dev
  deriving DecidableEq, Repr

/-- `T_DIR`, `T_FILE` and `T_DEV`. -/
def InodeType.code : InodeType → BitVec 16
  | .free => 0
  | .dir => 1
  | .file => 2
  | .dev => 3

def MODE_RUSR : Word := 32
def MODE_WUSR : Word := 16
def MODE_XUSR : Word := 8
def MODE_ROTH : Word := 4
def MODE_WOTH : Word := 2
def MODE_XOTH : Word := 1

instance neZeroAddrs : NeZero 8 := ⟨by decide⟩

theorem lt_addrs (h : n < NDIRECT) : n < 8 := Nat.lt_succ_of_lt h

/-- `struct dinode`, and the fields of `struct inode` that are copies of it. -/
structure Dinode where
  type : InodeType := .free
  major : BitVec 16 := 0
  minor : BitVec 16 := 0
  nlink : BitVec 16 := 0
  size : Word := 0
  addrs : Fin 8 → Word := fun _ => 0
  userid : CStr := .empty
  mode : Word := 0

/-- `struct inode`; the sleep-lock is the process that holds it. There is one device. -/
structure Inode where
  inum : ℕ := 0
  ref : ℤ := 0
  lock : Option Slot := none
  valid : Bool := false
  d : Dinode := {}

inductive FdType
  | none | pipe | inode
  deriving DecidableEq, Repr

structure File where
  type : FdType := .none
  ref : ℤ := 0
  readable : Bool := false
  writable : Bool := false
  pipe : Vm.Frame := 0
  ip : Option InodeIdx := Option.none
  off : Word := 0

def PIPESIZE : ℕ := 512

/-- `struct pipe`, kept in a page of its own. -/
structure Pipe where
  readopen : Bool := false
  writeopen : Bool := false
  data : Fin PIPESIZE → UInt8 := fun _ => 0
  nread : Word := 0
  nwrite : Word := 0

/-- The place of a byte in `data`. -/
def Pipe.slot (n : ℕ) : Fin PIPESIZE := ⟨n % PIPESIZE, Nat.mod_lt n (by decide)⟩

structure Superblock where
  size : ℕ
  ninodes : ℕ
  inodestart : ℕ
  bmapstart : ℕ

def NUM_USER : ℕ := 10
def USER_FIELD : ℕ := 32

/-- `utable`: `mem` holds the array `u` from address 0 on and, after it, the array
`status` of little-endian ints, as the struct lays them out. -/
structure UTable where
  locked : Bool := false
  ptr : Option InodeIdx := none
  mem : Mem := fun _ => 0

/-- The 16-byte fields that hold a user name or a password. -/
inductive IdField
  | procUserid (p : Slot)
  | inodeUserid (i : InodeIdx)
  | dinodeUserid (inum : ℕ)
  | utable (addr : ℕ)

/-- `mlfq` says whether the kernel is built with `MLFQ_SCHED`; `copies` lists the strings that `strcpy` has stored into identity fields, as history. -/
structure Kernel where
  mlfq : Bool
  pt : PTable
  ticks : Word
  phys : Vm.Phys
  log : Log
  sb : Superblock
  dinode : ℕ → Dinode
  bitmap : ℕ → Bool
  block : Word → ℕ → UInt8
  icache : InodeIdx → Inode
  ftable : FileIdx → File
  pipe : Vm.Frame → Pipe
  utable : UTable
  input : List UInt8
  copies : List (IdField × CStr)

/-- The kernel's memory before anything is initialised, over an empty disk. -/
def Kernel.zero : Kernel where
  mlfq := false
  pt := ⟨fun _ => {}, 1, none⟩
  ticks := 0
  phys := ⟨1, [], fun _ _ => 0⟩
  log := { size := LOGSIZE }
  sb := ⟨0, 0, 0, 0⟩
  dinode _ := {}
  bitmap _ := true
  block _ _ := 0
  icache _ := {}
  ftable _ := {}
  pipe _ := {}
  utable := {}
  input := []
  copies := []

/-- The test that guards every use of an inode: the owner and root need the bits `usr`
of the mode, every other user the bits `oth`. -/
def mayAccess (userid : CStr) (d : Dinode) (usr oth : Word) : Bool :=
  if userid = root ∨ userid = d.userid then d.mode &&& usr = usr else d.mode &&& oth = oth

end Xv6
