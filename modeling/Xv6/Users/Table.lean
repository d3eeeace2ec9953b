import Xv6.Sys.File

/-! # User accounts

The calls of `PRJ03_syscall.c`. The table `utable` is kept in memory and in the file
`/shadow`; several of the early returns leave a lock or a transaction open, which is
modelled as it stands.
-/
namespace Xv6.Users
open KProg hiding panic
open Fs Sys

def initlock : KProg Unit := user .initlock
def acquire : KProg Unit := user .acquire
def release : KProg Unit := user .release
def table : KProg UTable := user .read
def strcpy (addr : ℕ) (s : CStr) : KProg Unit := user (.strcpy addr s)
def write (addr : ℕ) (bytes : List UInt8) : KProg Unit := user (.write addr bytes)

/-- The address of `utable.u[i]`; the password stands half-way through the slot. -/
def nameAddr (i : ℕ) : ℕ := USER_FIELD * i
def passwordAddr (i : ℕ) : ℕ := nameAddr i + USER_FIELD / 2
def statusAddr (i : ℕ) : ℕ := USER_FIELD * NUM_USER + 4 * i
def SIZEOF_U : ℕ := USER_FIELD * NUM_USER

def setStatus (i : ℕ) (n : BitVec 32) : KProg Unit := write (statusAddr i) (wordBytes n)

/-- The bytes of the array `u`. -/
def image (m : Mem) : List UInt8 := (List.range SIZEOF_U).map m

def clearSlot (i : ℕ) : KProg Unit := do
  write (nameAddr i) (List.replicate USER_FIELD 0)
  setStatus i 0

def clearSlots : List ℕ → KProg Unit
  | [] => return
  | i :: is => do
    clearSlot i
    clearSlots is

def initUtable : KProg Unit := do
  initlock
  acquire
  clearSlots (List.range NUM_USER)
  release

def shadow : CStr := CStr.ofString "/shadow"
def rootDir : CStr := CStr.ofString "/"
def rootPassword : CStr := CStr.ofString "1234"

/-- The end of `load_shadow`: the table is read from the file. -/
def readShadow (p : Slot) (ip : InodeIdx) : KProg ℤ := do
  acquire
  user (.setPtr ip)
  release
  ilock p ip
  let (r, bytes) ← readi p ip 0 (BitVec.ofNat 32 SIZEOF_U)
  write 0 bytes
  if r < 0 then fail (pure ())
  else
    iunlock p ip
    endOp
    return 0

/-- The part of `load_shadow` that makes the file, with root as the only user. -/
def createShadow (p : Slot) (dp : InodeIdx) (name : List UInt8) : KProg ℤ := do
  acquire
  strcpy (nameAddr 0) root
  strcpy (passwordAddr 0) rootPassword
  setStatus 0 1
  release
  let ip ← newInode p .file 0 0 root
  let _ ← dirlink p dp name (← inode ip).inum
  iunlockput p dp
  let r ← writei p ip (image (← table).mem) 0
  if r < 0 then fail (iunlock p ip)
  else
    iunlock p ip
    readShadow p ip

/-- Where the parent directory is not found, the bracket stays open. -/
def loadShadow (p : Slot) : KProg ℤ := do
  beginOp
  match ← nameiparent p shadow with
  | none => return -1
  | some (dp, name) =>
    ilock p dp
    match ← dirlookup p dp name with
    | none => createShadow p dp name
    | some _ =>
      iunlockput p dp
      match ← namei p shadow with
      | none => fail (pure ())
      | some ip => readShadow p ip

def inituser (p : Slot) : KProg ℤ := do
  initUtable
  loadShadow p

/-- The first slot whose name is the argument. -/
def findName (m : Mem) (username : CStr) : Option ℕ :=
  (List.range NUM_USER).find? fun i => m.streq (nameAddr i) username.bytes

/-- The first slot whose status is 0. -/
def findFree (m : Mem) : Option ℕ :=
  (List.range NUM_USER).find? fun i => m.word (statusAddr i) = 0

def usercheck (username password : CStr) : KProg ℤ := do
  let m := (← table).mem
  if ∃ i < NUM_USER, m.streq (nameAddr i) username.bytes ∧ m.streq (passwordAddr i) password.bytes then
    return 1
  else return 0

/-- Write the saved copy of the table to the file; `bad` is what the caller does on failure. -/
def writeShadow (p : Slot) (utemp : List UInt8) (bad : InodeIdx → KProg ℤ) (good : InodeIdx → KProg ℤ) :
    KProg ℤ := do
  beginOp
  match (← table).ptr with
  | none => KProg.panic "ilock"
  | some ip =>
    ilock p ip
    let r ← writei p ip utemp 0
    if r < 0 then bad ip else good ip

/-- The part of `useradd` that makes the home directory. -/
def makeHome (p : Slot) (dp : InodeIdx) (username : CStr) : KProg Unit := do
  let fp ← ialloc .dir
  ilock p dp
  ilock p fp
  store fp (.dev 0 0)
  store fp (.nlink 1)
  store fp (.userid username)
  iupdate fp
  store dp (.nlink ((← inode dp).d.nlink + 1))
  iupdate dp
  if (← dirlink p fp dot (← inode fp).inum) < 0 then
    KProg.panic "error in load_shadow(): create dots"
  else if (← dirlink p fp dotdot (← inode dp).inum) < 0 then
    KProg.panic "error in load_shadow(): create dots"
  else
    let _ ← dirlink p dp username.bytes (← inode fp).inum
    iupdate fp
    iupdate dp
    iunlockput p fp
    iunlockput p dp

/-- The root directory is searched before it is locked. -/
def home (p : Slot) (username : CStr) : KProg ℤ := do
  match ← namei p rootDir with
  | none => return -1
  | some dp =>
    match ← dirlookup p dp username.bytes with
    | some _ =>
      endOp
      return 0
    | none =>
      makeHome p dp username
      endOp
      return 0

/-- The new entry, under the lock; `none` where the call returns without releasing it. -/
def addEntry (username password : CStr) : KProg (Option (List UInt8)) := do
  acquire
  let m := (← table).mem
  match findName m username, findFree m with
  | none, some i =>
    if username.length > USER_FIELD / 2 ∨ password.length > USER_FIELD / 2 then return none
    else
      strcpy (nameAddr i) username
      strcpy (passwordAddr i) password
      setStatus i 1
      let utemp := image (← table).mem
      release
      return some utemp
  | _, _ => return none

def useradd (p : Slot) (username password : CStr) : KProg ℤ := do
  if (← myproc p).userid ≠ root then return -1
  else
    match ← addEntry username password with
    | none => return -1
    | some utemp =>
      writeShadow p utemp (fun ip => fail (iunlock p ip)) fun ip => do
        iunlock p ip
        home p username

/-- The entry removed, under the lock; `none` if there is no such user. -/
def delEntry (username : CStr) : KProg (Option (List UInt8)) := do
  acquire
  match findName (← table).mem username with
  | none =>
    release
    return none
  | some i =>
    clearSlot i
    let utemp := image (← table).mem
    release
    return some utemp

def userdel (p : Slot) (username : CStr) : KProg ℤ := do
  if (← myproc p).userid ≠ root then return -1
  else if username = root then return -1
  else
    match ← delEntry username with
    | none => return -1
    | some utemp =>
      writeShadow p utemp (fun _ => fail (pure ())) fun ip => do
        iunlock p ip
        endOp
        return 0

def chmod (ip : InodeIdx) (mode : Word) : KProg ℤ := do
  store ip (.mode mode)
  iupdate ip
  return 0

/-- The reference that `namei` takes is never put back. -/
def sysChmod (p : Slot) (pathname : Option CStr) (mode : Option Word) : KProg ℤ := do
  match pathname, mode with
  | some pathname, some mode =>
    beginOp
    match ← namei p pathname with
    | none => fail (pure ())
    | some ip =>
      ilock p ip
      let userid := (← myproc p).userid
      let d := (← inode ip).d
      if userid ≠ root ∧ userid ≠ d.userid ∨ d.type = .dev then fail (iunlock p ip)
      else
        let ret ← chmod ip mode
        iunlock p ip
        endOp
        return ret
  | _, _ => return -1

end Xv6.Users
