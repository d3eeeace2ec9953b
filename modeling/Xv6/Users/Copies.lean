import Xv6.Users.Identity

/-! # The calls that copy user names -/
namespace Xv6.Users
open Prog Fs Sys
open KProg hiding panic

inductive IdCall
  | useradd (username password : CStr)
  | userdel (username : CStr)
  | inituser
  | fork
  | fork2 (username : CStr)
  | open (path : Option CStr) (omode : Option Word)
  | mkdir (path : Option CStr)
  | mknod (path : Option CStr) (major minor : Option Word)

def IdCall.body (p : Slot) : IdCall → KProg ℤ
  | useradd username password => Users.useradd p username password
  | userdel username => Users.userdel p username
  | inituser => Users.inituser p
  | fork => Sys.fork p
  | fork2 username => Sys.fork2 p username
  | «open» path omode => sysOpen p path omode
  | mkdir path => sysMkdir p path
  | mknod path major minor => sysMknod p path major minor

section Files
variable {p : Slot}

theorem iunlockput_safe (i : InodeIdx) : Safe (iunlockput p i) := safe_of_core (iunlockput_core p i)

theorem dirlink_safe (dp : InodeIdx) (name : List UInt8) (inum : ℕ) : Safe (dirlink p dp name inum) :=
  safe_of_core (dirlink_core p dp name inum)

theorem createDots_safe (ip dp : InodeIdx) : Safe (createDots p ip dp) := by
  refine safe_call trivial fun _ => safe_call trivial fun _ => safe_call trivial fun _ => safe_call trivial fun _ => ?_
  refine safe_bind (dirlink_safe ip dot _) fun _ => safe_ite (fun _ => safe_of_routine (panic_uses trivial)) fun _ => ?_
  refine safe_call trivial fun _ => safe_bind (dirlink_safe ip dotdot _) fun _ => ?_
  exact safe_ite (fun _ => safe_of_routine (panic_uses trivial)) fun _ => safe_pure _

theorem createNew_safe (dp : InodeIdx) (name : List UInt8) (type : InodeType) (major minor : BitVec 16) :
    Safe (createNew p dp name type major minor) := by
  refine myproc_safe fun pr hpr => safe_bind (newInode_safe hpr) fun ip => ?_
  refine safe_bind (safe_ite (fun _ => createDots_safe ip dp) fun _ => safe_pure _) fun _ => ?_
  refine safe_call trivial fun _ => safe_bind (dirlink_safe dp name _) fun _ => ?_
  refine safe_ite (fun _ => safe_of_routine (panic_uses trivial)) fun _ => ?_
  exact safe_bind (iunlockput_safe dp) fun _ => safe_pure _

theorem createDenied_safe (i : InodeIdx) : Safe (createDenied p i) :=
  safe_bind (iunlockput_safe i) fun _ => safe_bind endOp_safe fun _ => safe_pure _

theorem createExisting_safe (ip : InodeIdx) (type : InodeType) : Safe (createExisting p ip type) := by
  refine safe_call trivial fun _ => safe_call trivial fun (ok : Bool) => ?_
  refine safe_ite (fun _ => createDenied_safe ip) fun _ => safe_call trivial fun _ => ?_
  exact safe_ite (fun _ => safe_pure _) fun _ => safe_bind (iunlockput_safe ip) fun _ => safe_pure _

theorem create_safe (path : CStr) (type : InodeType) (major minor : BitVec 16) :
    Safe (create p path type major minor) := by
  refine safe_bind (safe_of_core (namex_core p path true)) fun r => ?_
  cases r with
  | none => exact safe_pure _
  | some r =>
    refine safe_call trivial fun _ => safe_bind (safe_of_core (dirlookup_core p r.1 r.2)) fun e => ?_
    cases e with
    | some e => exact safe_bind (iunlockput_safe r.1) fun _ => createExisting_safe e.1 type
    | none =>
      refine safe_call trivial fun (ok : Bool) => safe_ite (fun _ => createDenied_safe r.1) fun _ => ?_
      exact safe_bind (createNew_safe r.1 r.2 type major minor) fun _ => safe_pure _

theorem openExisting_safe (path : CStr) (omode : Word) : Safe (openExisting p path omode) := by
  have haccess (ip : InodeIdx) : Safe (openAccess p ip omode) := by
    refine safe_ite (fun _ => ?_) fun _ => safe_ite (fun _ => ?_) fun _ => safe_ite (fun _ => ?_) fun _ => safe_pure _
    all_goals exact safe_of_plain (uses_call trivial)
  refine safe_bind (safe_of_core (namei_core p path)) fun r => ?_
  cases r with
  | none => exact safe_pure _
  | some ip =>
    have hput : Safe (iunlockput p ip >>= fun _ => pure none : KProg (Option InodeIdx)) :=
      safe_bind (iunlockput_safe ip) fun _ => safe_pure _
    refine safe_call trivial fun _ => safe_bind (haccess ip) fun ok => safe_ite (fun _ => hput) fun _ => ?_
    exact safe_call trivial fun _ => safe_ite (fun _ => hput) fun _ => safe_pure _

theorem openFile_safe (ip : InodeIdx) (omode : Word) : Safe (openFile p ip omode) := by
  refine safe_call trivial fun (f : Option FileIdx) => ?_
  cases f with
  | none => exact fail_safe (iunlockput_safe ip)
  | some f =>
    refine safe_call trivial fun (fd : Option (Fin NOFILE)) => ?_
    cases fd with
    | none =>
      refine fail_safe (safe_bind (safe_of_routine (fileclose_routine p f)) fun _ => ?_)
      exact iunlockput_safe ip
    | some =>
      refine safe_call trivial fun _ => safe_bind endOp_safe fun _ => ?_
      exact safe_call trivial fun _ => safe_pure _

theorem sysOpen_safe (path : Option CStr) (omode : Option Word) : Safe (sysOpen p path omode) := by
  unfold sysOpen
  split
  case h_1 path omode =>
    have hfound : Safe (if omode &&& O_CREATE ≠ 0 then create p path .file 0 0 else openExisting p path omode) :=
      safe_ite (fun _ => create_safe path _ _ _) fun _ => openExisting_safe path omode
    refine safe_call trivial fun _ => safe_bind hfound fun r => ?_
    cases r with
    | none => exact fail_safe (safe_pure _)
    | some ip => exact openFile_safe ip omode
  case h_2 => exact safe_pure _

theorem makeNode_safe (path : CStr) (type : InodeType) (major minor : BitVec 16) :
    Safe (makeNode p path type major minor) := by
  refine safe_bind (create_safe path type major minor) fun r => ?_
  cases r with
  | none => exact fail_safe (safe_pure _)
  | some ip => exact safe_bind (iunlockput_safe ip) fun _ => safe_bind endOp_safe fun _ => safe_pure _

theorem sysMkdir_safe (path : Option CStr) : Safe (sysMkdir p path) := by
  refine safe_call trivial fun _ => ?_
  cases path with
  | none => exact fail_safe (safe_pure _)
  | some path => exact makeNode_safe path _ _ _

theorem sysMknod_safe (path : Option CStr) (major minor : Option Word) : Safe (sysMknod p path major minor) := by
  refine safe_call trivial fun _ => ?_
  split
  · exact makeNode_safe _ _ _ _
  · exact fail_safe (safe_pure _)

end Files

section Accounts
variable {p : Slot} {username password : CStr}

/-- The entry is stored only if its strings fit; `useradd` tests for 16 bytes and so lets
pass the strings of that length. -/
theorem addEntry_safe (hu : username.length ≠ 16) (hp : password.length ≠ 16) :
    (addEntry username password).Obeys copying () fun r _ => r.isSome → Fits username := by
  have hnone : (pure none : KProg (Option (List UInt8))).Obeys copying () fun r _ => r.isSome → Fits username :=
    fun h => by cases h
  refine obeys_bind_call trivial fun _ _ => obeys_bind_call trivial fun (t : UTable) _ => ?_
  dsimp only
  generalize findName t.mem username = found, findFree t.mem = slot
  cases found with
  | some => exact hnone
  | none =>
  cases slot with
  | none => exact hnone
  | some =>
    refine .ite (fun _ => hnone) fun hlen => ?_
    rw [not_or, Nat.not_lt, Nat.not_lt] at hlen
    have husername : Fits username := lt_of_le_of_ne hlen.1 hu
    have hpassword : Fits password := lt_of_le_of_ne hlen.2 hp
    refine obeys_bind_call husername fun _ _ => obeys_bind_call hpassword fun _ _ => ?_
    refine obeys_bind_call trivial fun _ _ => obeys_bind_call trivial fun (t : UTable) _ => ?_
    exact obeys_bind_call trivial fun _ _ _ => husername

theorem writeShadow_safe (utemp : List UInt8) {bad good : InodeIdx → KProg ℤ} (hbad : ∀ i, Safe (bad i))
    (hgood : ∀ i, Safe (good i)) : Safe (writeShadow p utemp bad good) := by
  refine safe_call trivial fun _ => safe_call trivial fun (t : UTable) => ?_
  split
  · exact safe_of_routine (panic_uses trivial)
  · refine safe_call trivial fun _ => safe_bind (safe_of_core (writei_core p _ _ _)) fun r => ?_
    exact safe_ite (fun _ => hbad _) fun _ => hgood _

theorem makeHome_safe (h : Fits username) (dp : InodeIdx) : Safe (makeHome p dp username) := by
  refine safe_bind (ialloc_safe .dir) fun fp => safe_call trivial fun _ => safe_call trivial fun _ => ?_
  refine safe_call trivial fun _ => safe_call trivial fun _ => storeUserid_safe h fun _ => ?_
  refine safe_call trivial fun _ => safe_call trivial fun _ => safe_call trivial fun _ => safe_call trivial fun _ => ?_
  refine safe_call trivial fun _ => safe_bind (dirlink_safe fp dot _) fun _ => ?_
  refine safe_ite (fun _ => safe_of_routine (panic_uses trivial)) fun _ => safe_call trivial fun _ => ?_
  refine safe_bind (dirlink_safe fp dotdot _) fun _ => safe_ite (fun _ => safe_of_routine (panic_uses trivial)) fun _ => ?_
  refine safe_call trivial fun _ => safe_bind (dirlink_safe dp _ _) fun _ => ?_
  refine safe_call trivial fun _ => safe_call trivial fun _ => safe_bind (iunlockput_safe fp) fun _ => ?_
  exact iunlockput_safe dp

theorem home_safe (h : Fits username) : Safe (home p username) := by
  refine safe_bind (safe_of_core (namei_core p rootDir)) fun r => ?_
  cases r with
  | none => exact safe_pure _
  | some dp =>
    refine safe_bind (safe_of_core (dirlookup_core p dp _)) fun e => ?_
    cases e with
    | some => exact safe_bind endOp_safe fun _ => safe_pure _
    | none => exact safe_bind (makeHome_safe h dp) fun _ => safe_bind endOp_safe fun _ => safe_pure _

theorem iunlock_safe (i : InodeIdx) : Safe (iunlock p i) := safe_of_plain (uses_call trivial)

theorem useradd_safe (hu : username.length ≠ 16) (hp : password.length ≠ 16) :
    Safe (useradd p username password) := by
  refine myproc_safe fun pr _ => safe_ite (fun _ => safe_pure _) fun _ => ?_
  refine (addEntry_safe hu hp).seq fun r _ hr => ?_
  cases r with
  | none => exact safe_pure _
  | some utemp =>
    refine writeShadow_safe utemp (fun i => fail_safe (iunlock_safe i)) fun i => ?_
    exact safe_bind (iunlock_safe i) fun _ => home_safe (hr rfl)

theorem userdel_safe (username : CStr) : Safe (userdel p username) := by
  have hdel : Safe (delEntry username) := by
    refine safe_call trivial fun _ => safe_call trivial fun (t : UTable) => ?_
    split
    · exact safe_call trivial fun _ => safe_pure _
    · refine safe_call trivial fun _ => safe_call trivial fun _ => safe_call trivial fun (t : UTable) => ?_
      exact safe_call trivial fun _ => safe_pure _
  refine myproc_safe fun pr _ => safe_ite (fun _ => safe_pure _) fun _ => safe_ite (fun _ => safe_pure _) fun _ => ?_
  refine safe_bind hdel fun r => ?_
  cases r with
  | none => exact safe_pure _
  | some utemp =>
    refine writeShadow_safe utemp (fun i => fail_safe (safe_pure _)) fun i => ?_
    exact safe_bind (iunlock_safe i) fun _ => safe_bind endOp_safe fun _ => safe_pure _

theorem readShadow_safe (ip : InodeIdx) : Safe (readShadow p ip) := by
  refine safe_call trivial fun _ => safe_call trivial fun _ => safe_call trivial fun _ => safe_call trivial fun _ => ?_
  refine safe_bind (safe_of_core (readi_core p ip _ _)) fun r => safe_call trivial fun _ => ?_
  refine safe_ite (fun _ => fail_safe (safe_pure _)) fun _ => ?_
  exact safe_bind (iunlock_safe ip) fun _ => safe_bind endOp_safe fun _ => safe_pure _

theorem createShadow_safe (dp : InodeIdx) (name : List UInt8) : Safe (createShadow p dp name) := by
  have hpassword : Fits rootPassword := by decide
  refine safe_call trivial fun _ => strcpy_safe root_fits fun _ => strcpy_safe hpassword fun _ => ?_
  refine safe_call trivial fun _ => safe_call trivial fun _ => safe_bind (newInode_safe root_fits) fun ip => ?_
  refine safe_call trivial fun _ => safe_bind (dirlink_safe dp name _) fun _ => ?_
  refine safe_bind (iunlockput_safe dp) fun _ => safe_call trivial fun (t : UTable) => ?_
  refine safe_bind (safe_of_core (writei_core p ip _ _)) fun r => ?_
  refine safe_ite (fun _ => fail_safe (iunlock_safe ip)) fun _ => ?_
  exact safe_bind (iunlock_safe ip) fun _ => readShadow_safe ip

theorem inituser_safe : Safe (inituser p) := by
  have hslots (is : List ℕ) : Safe (clearSlots is) := by
    induction is with
    | nil => exact safe_pure _
    | cons i is ih => exact safe_bind (safe_call trivial fun _ => safe_of_plain (uses_call trivial)) fun _ => ih
  have hinit : Safe initUtable := by
    refine safe_call trivial fun _ => safe_call trivial fun _ => safe_bind (hslots _) fun _ => ?_
    exact safe_of_plain (uses_call trivial)
  refine safe_bind hinit fun _ => safe_call trivial fun _ => ?_
  refine safe_bind (safe_of_core (namex_core p shadow true)) fun r => ?_
  cases r with
  | none => exact safe_pure _
  | some r =>
    refine safe_call trivial fun _ => safe_bind (safe_of_core (dirlookup_core p r.1 r.2)) fun e => ?_
    cases e with
    | none => exact createShadow_safe r.1 r.2
    | some =>
      refine safe_bind (iunlockput_safe r.1) fun _ => safe_bind (safe_of_core (namei_core p shadow)) fun ip => ?_
      cases ip with
      | none => exact fail_safe (safe_pure _)
      | some ip => exact readShadow_safe ip

end Accounts

theorem body_safe {p : Slot} {c : IdCall} (huseradd : ∀ u w, c = .useradd u w → u.length ≠ 16 ∧ w.length ≠ 16)
    (hfork2 : ∀ u, c = .fork2 u → Fits u) : Safe (c.body p) := by
  cases c with
  | useradd u w => exact useradd_safe (huseradd u w rfl).1 (huseradd u w rfl).2
  | userdel u => exact userdel_safe u
  | inituser => exact inituser_safe
  | fork => exact forkWith_safe fun _ h => h
  | fork2 u => exact forkWith_safe fun _ _ => hfork2 u rfl
  | «open» path omode => exact sysOpen_safe path omode
  | mkdir path => exact sysMkdir_safe path
  | mknod path major minor => exact sysMknod_safe path major minor

abbrev IdLabel := Pool.Label Op Op.Ans Slot IdCall
abbrev IdPool := Pool.State Op Op.Ans Kernel Slot ℤ

/-- One operation of one of the processes, each of which makes one call after another. -/
abbrev IdStep : IdPool → IdLabel → IdPool → Prop := Pool.Step Op.sem IdCall.body

/-- `useradd` is not given a string of 16 bytes, nor `fork2` one of 16 bytes or more. -/
def ShortNames (_ : IdPool) : IdLabel → Prop
  | .start _ (.useradd username password) => username.length ≠ 16 ∧ password.length ≠ 16
  | .start _ (.fork2 username) => username.length < 16
  | _ => True

/-- No call is in progress, and the identity fields hold strings that fit. -/
structure Settled (s : IdPool) : Prop where
  returned : ∀ i, ∃ r, s.thread i = .ret r
  fits : IdInv s.shared

/-- In every interleaving in which `useradd` is given no string of 16 bytes and `fork2` none
of 16 or more, every string that `strcpy` has stored into an identity field is shorter than
the field, and storing it changes no byte outside of the field. -/
theorem copies_fit {s₀ s : IdPool} {tr : List (IdPool × IdLabel)} (hr : Run IdStep s₀ tr s)
    (h₀ : Settled s₀) (hc : Meets ShortNames tr) (field : IdField) (t : CStr)
    (ht : (field, t) ∈ s.shared.copies) :
    t.length ≤ 15 ∧ ∀ (m : Mem) (dst x : ℕ), x < dst ∨ dst + 16 ≤ x → m.strcpy dst t x = m x := by
  have hidle (i : Slot) : (s₀.thread i).Obeys copying () fun _ _ => True := by
    obtain ⟨r, hr⟩ := h₀.returned i
    rw [hr]
    trivial
  obtain ⟨γ, hinv, -⟩ := Pool.run_inv (P := copying) (I := fun _ k _ => IdInv k) (J := fun _ => True)
    (fun ls s γ i c h hl _ => by
      refine ⟨(), body_safe (fun u w hcall => ?_) (fun u hcall => ?_), h⟩
      · subst hcall
        exact hl
      · subst hcall
        exact hl)
    (fun ls s γ i o b t h _ hallow ho => h.next hallow ho) hr hc ⟨h₀.fits, hidle⟩
  have hfits : t.length < 16 := hinv.copies (field, t) ht
  exact ⟨Nat.le_of_lt_succ hfits, fun m dst x hx => Mem.strcpy_frame hfits hx⟩

/-- A guest with nothing but memory to fork. -/
def guestKernel : Kernel :=
  { Kernel.zero with
    pt := ⟨fun q => if q = 0 then { state := .running, pid := 1, userid := CStr.ofString "guest", cwd := some 0 }
      else {}, 2, none⟩
    phys := ⟨1, List.range' 1 80, fun _ _ => 0⟩ }

def guestPool : IdPool := ⟨guestKernel, fun _ => .ret 0⟩

theorem guestPool_settled : Settled guestPool := by
  have hempty : Fits ({} : Dinode).userid := by decide
  refine ⟨fun _ => ⟨0, rfl⟩, fun q => ?_, fun _ => hempty, fun _ => hempty, fun c hc => by cases hc⟩
  simp only [guestPool, guestKernel]
  split
  · decide
  · decide

theorem fork2_copies (username : CStr) (h : ((fork2 0 username).run Op.sem).test guestKernel (fun _ k =>
      decide (username ∈ k.copies.map Prod.snd)) = true) :
    ∃ tr s field, Run IdStep guestPool tr s ∧ (field, username) ∈ s.shared.copies ∧
      (username.length < 16 → Meets ShortNames tr) := by
  obtain ⟨tr, r, k, hr, hmem, hmeets⟩ := Pool.run_test IdCall.body (i := 0) (c := IdCall.fork2 username)
    (show guestPool.thread 0 = .ret 0 from rfl) h
  obtain ⟨⟨field, t⟩, hcopy, rfl⟩ := List.mem_map.mp (of_decide_eq_true hmem)
  exact ⟨tr, _, field, hr, hcopy, fun hlen => hmeets _ hlen fun _ _ _ => trivial⟩

def fifteen : CStr := CStr.ofString "abcdefghijklmno"
def sixteen : CStr := CStr.ofString "abcdefghijklmnop"

theorem fork2_fifteen : ∃ tr s field, Run IdStep guestPool tr s ∧ (field, fifteen) ∈ s.shared.copies ∧
    fifteen.length ≤ 15 := by
  obtain ⟨tr, s, field, hr, hcopy, hc⟩ := fork2_copies fifteen (by decide +kernel)
  exact ⟨tr, s, field, hr, hcopy, (copies_fit hr guestPool_settled (hc (by decide)) field fifteen hcopy).1⟩

/-- A name of 16 bytes is stored too, and its NUL lands in the byte after the field. -/
theorem fork2_sixteen_overruns : ∃ tr s field, Run IdStep guestPool tr s ∧
    (field, sixteen) ∈ s.shared.copies ∧ sixteen.length = 16 ∧
    ∀ (m : Mem) (dst : ℕ), m.strcpy dst sixteen (dst + 16) = 0 := by
  obtain ⟨tr, s, field, hr, hcopy, -⟩ := fork2_copies sixteen (by decide +kernel)
  refine ⟨tr, s, field, hr, hcopy, by decide, fun m dst => ?_⟩
  exact Option.some.inj (Mem.strcpy_overrun (by decide))

end Xv6.Users
