import Xv6.Fs.Small
import Xv6.Users.Holding

/-! # The entries of the user table

A slot of `utable.u` is two fields of 16 bytes, and the fields, the slots and the array
`status` lie one after the other. `useradd` accepts names and passwords of 16 characters,
whose NUL lies in what comes next.
-/
namespace Xv6.Users
open Prog Fs Sys CStr Op
open KProg hiding panic

def Reads (m : Mem) (i : ℕ) (username password : CStr) : Prop :=
  m.streq (nameAddr i) username.bytes = true ∧ m.streq (passwordAddr i) password.bytes = true

/-- What `usercheck` looks for. -/
def Checks (m : Mem) (username password : CStr) : Prop := ∃ i < NUM_USER, Reads m i username password

theorem usercheck_run (k : Kernel) (username password : CStr) :
    ∃ r, (usercheck username password).run sem k = .ok (r, k) ∧ (r = 0 ∨ r = 1) ∧
      (r = 1 ↔ Checks k.utable.mem username password) := by
  unfold usercheck
  simp only [table_bind_run]
  split
  case isTrue h => exact ⟨1, rfl, .inr rfl, iff_of_true rfl h⟩
  case isFalse h => exact ⟨0, rfl, .inl rfl, iff_of_false (by decide) h⟩

/-- An empty slot. -/
structure Blank (m : Mem) (i : ℕ) : Prop where
  name : m (nameAddr i) = 0
  password : m (passwordAddr i) = 0
  status : m.word (statusAddr i) = 0

/-- A slot with a name and a password that fit. -/
structure Filled (m : Mem) (i : ℕ) (username password : CStr) : Prop where
  reads : Reads m i username password
  name : 1 ≤ username.length ∧ username.length ≤ 15
  password : 1 ≤ password.length ∧ password.length ≤ 15
  status : m.word (statusAddr i) = 1

def Proper (m : Mem) (i : ℕ) : Prop := Blank m i ∨ ∃ username password, Filled m i username password

def Tidy (m : Mem) : Prop := ∀ i < NUM_USER, Proper m i

def added (m : Mem) (i : ℕ) (username password : CStr) : Mem :=
  ((m.strcpy (nameAddr i) username).strcpy (passwordAddr i) password).write (statusAddr i) (wordBytes 1)

section Added
variable {m : Mem} {i : ℕ} {username password : CStr}

theorem statusAddr_le (i : ℕ) : SIZEOF_U ≤ statusAddr i := by
  simp only [SIZEOF_U, statusAddr]
  omega

theorem passwordAddr_eq (i : ℕ) : passwordAddr i = nameAddr i + 16 := rfl

theorem nameAddr_succ (i : ℕ) : nameAddr (i + 1) = passwordAddr i + 16 := rfl

/-- Outside the entry nothing is written, but the NUL of a password of 16 characters. -/
theorem added_outside (hu : username.length ≤ 16)
    (hx : x < nameAddr i ∨ passwordAddr i + password.length < x) (hs : x < statusAddr i ∨ statusAddr i + 4 ≤ x) :
    added m i username password x = m x := by
  have hw : (wordBytes 1).length = 4 := rfl
  simp only [length] at hu hx
  rw [passwordAddr_eq] at hx
  unfold added Mem.strcpy
  rw [Mem.write_outside (by omega), Mem.write_outside (by simp only [passwordAddr_eq, List.length_append, List.length_singleton]; omega),
    Mem.write_outside (by simp only [List.length_append, List.length_singleton]; omega)]

theorem added_name (hi : i < NUM_USER) (hx : x < 16) :
    added m i username password (nameAddr i + x) = m.strcpy (nameAddr i) username (nameAddr i + x) := by
  have hstatus := statusAddr_le i
  unfold added
  rw [Mem.write_outside, Mem.strcpy, Mem.write_outside]
  · rw [passwordAddr_eq]
    omega
  · simp only [SIZEOF_U, nameAddr, USER_FIELD, NUM_USER] at *
    omega

theorem added_password (hi : i < NUM_USER) (hw : password.length ≤ 16) (hx : x ≤ password.length) :
    added m i username password (passwordAddr i + x) =
      (m.strcpy (nameAddr i) username).strcpy (passwordAddr i) password (passwordAddr i + x) := by
  refine Mem.write_outside (Or.inl ?_)
  simp only [passwordAddr, statusAddr, nameAddr, USER_FIELD, NUM_USER] at *
  omega

theorem added_streq_password (hi : i < NUM_USER) (hw : password.length ≤ 16) :
    (added m i username password).streq (passwordAddr i) password.bytes = true := by
  obtain ⟨hbytes, hend⟩ := Mem.streq_iff.mp (Mem.streq_strcpy (m.strcpy (nameAddr i) username) (passwordAddr i) password)
  refine Mem.streq_iff.mpr ⟨fun x hx => ?_, ?_⟩
  · rw [added_password hi hw (Nat.le_of_lt hx), hbytes x hx]
  · exact (added_password hi hw le_rfl).trans hend

/-- A name of 16 characters has no NUL but that of an empty password. -/
theorem added_streq_name (hi : i < NUM_USER) (hu : username.length ≤ 16) (hw : password.length ≤ 16) :
    (added m i username password).streq (nameAddr i) username.bytes = true ↔
      username.length ≤ 15 ∨ password.length = 0 := by
  obtain ⟨hbytes, hend⟩ := Mem.streq_iff.mp (Mem.streq_strcpy m (nameAddr i) username)
  have hstart : ∀ x (hx : x < username.bytes.length), added m i username password (nameAddr i + x) = username.bytes[x] := by
    intro x hx
    rw [added_name hi (Nat.lt_of_lt_of_le hx hu), hbytes x hx]
  rw [Mem.streq_iff]
  by_cases hshort : username.length ≤ 15
  · refine iff_of_true ⟨hstart, ?_⟩ (.inl hshort)
    exact (added_name hi (Nat.lt_succ_of_le hshort)).trans hend
  · have hlen : username.bytes.length = 16 := by
      simp only [length] at *
      omega
    have hnul : added m i username password (nameAddr i + username.bytes.length) = 0 ↔ password.length = 0 := by
      have hpassword : (added m i username password).streq (passwordAddr i) password.bytes = true :=
        added_streq_password hi hw
      rw [hlen, ← passwordAddr_eq]
      refine ⟨fun hzero => ?_, fun hzero => ?_⟩
      · by_contra hpos
        exact Mem.streq_byte hpassword (Nat.pos_of_ne_zero hpos) hzero
      · have hend := (Mem.streq_iff.mp hpassword).2
        rwa [show password.bytes.length = 0 from hzero] at hend
    rw [and_iff_right hstart, hnul]
    omega

end Added

/-- No byte of another slot and no other status has changed. -/
structure Kept (m : Mem) (i : ℕ) (m' : Mem) : Prop where
  slot : ∀ j < NUM_USER, j ≠ i → ∀ x < USER_FIELD, m' (nameAddr j + x) = m (nameAddr j + x)
  status : ∀ j < NUM_USER, j ≠ i → m'.word (statusAddr j) = m.word (statusAddr j)

section Tidy
variable {m m' : Mem} {i j : ℕ} {username password : CStr}

theorem Filled.name_ne (h : Filled m i username password) : m (nameAddr i) ≠ 0 :=
  Mem.streq_byte h.reads.1 (i := 0) (by have := h.name; omega)

theorem Tidy.blank_iff (h : Tidy m) (hi : i < NUM_USER) : Blank m i ↔ m (nameAddr i) = 0 := by
  refine ⟨Blank.name, fun hzero => ?_⟩
  rcases h i hi with hblank | ⟨u, w, hfilled⟩
  · exact hblank
  · exact absurd hzero hfilled.name_ne

theorem Tidy.blank_of_status (h : Tidy m) (hi : i < NUM_USER) (hs : m.word (statusAddr i) = 0) : Blank m i := by
  rcases h i hi with hblank | ⟨u, w, hfilled⟩
  · exact hblank
  · exact absurd (hfilled.status.symm.trans hs) (by decide)

theorem Proper.nul (h : Proper m i) :
    (∃ x < 16, m (nameAddr i + x) = 0) ∧ ∃ x < 16, m (passwordAddr i + x) = 0 := by
  rcases h with hblank | ⟨u, w, hfilled⟩
  · exact ⟨⟨0, by decide, hblank.name⟩, 0, by decide, hblank.password⟩
  · have hu := hfilled.name
    have hw := hfilled.password
    exact ⟨⟨u.length, by omega, (Mem.streq_iff.mp hfilled.reads.1).2⟩,
      w.length, by omega, (Mem.streq_iff.mp hfilled.reads.2).2⟩

theorem Kept.reads_iff (hk : Kept m i m') (hj : j < NUM_USER) (h : Proper m j) (hne : j ≠ i) :
    Reads m' j username password ↔ Reads m j username password := by
  have hname : m'.streq (nameAddr j) username.bytes = m.streq (nameAddr j) username.bytes :=
    Mem.streq_congr h.nul.1 fun x hx => hk.slot j hj hne x (by simp only [USER_FIELD]; omega)
  have hpassword : m'.streq (passwordAddr j) password.bytes = m.streq (passwordAddr j) password.bytes := by
    refine Mem.streq_congr h.nul.2 fun x hx => ?_
    rw [passwordAddr_eq, Nat.add_assoc]
    exact hk.slot j hj hne (16 + x) (by simp only [USER_FIELD]; omega)
  rw [Reads, Reads, hname, hpassword]

theorem findFree_eq_some (h : findFree m = some i) : i < NUM_USER ∧ m.word (statusAddr i) = 0 ∧
    ∀ j < i, m.word (statusAddr j) ≠ 0 := by
  obtain ⟨hstatus, hi, hbefore⟩ := List.find?_range_eq_some.mp h
  refine ⟨List.mem_range.mp hi, of_decide_eq_true hstatus, fun j hj => ?_⟩
  simpa using hbefore j hj

theorem findName_eq_none (h : findName m username = none) (hj : j < NUM_USER) :
    m.streq (nameAddr j) username.bytes ≠ true :=
  List.find?_eq_none.mp h j (List.mem_range.mpr hj)

/-- What has changed in memory when a user is added. -/
structure Added (m : Mem) (i : ℕ) (username password : CStr) (m' : Mem) : Prop extends Kept m i m' where
  check : Checks m' username password
  others : ∀ n w, n ≠ username → (Checks m' n w ↔ Checks m n w)

theorem added_nul (hi : i < NUM_USER) (hlong : password.length = 16) :
    added m i username password (passwordAddr i + 16) = 0 := by
  have hpassword : (added m i username password).streq (passwordAddr i) password.bytes = true :=
    added_streq_password hi hlong.le
  have hend := (Mem.streq_iff.mp hpassword).2
  rwa [show password.bytes.length = 16 from hlong] at hend

theorem added_kept (hi : i < NUM_USER) (hu : username.length ≤ 16) (hw : password.length ≤ 16)
    (hcond : password.length ≤ 15 ∨ i + 1 < NUM_USER ∧ Blank m (i + 1)) : Kept m i (added m i username password) := by
  have hbyte {x : ℕ} (hx : x < nameAddr i ∨ nameAddr (i + 1) ≤ x) (hs : x < statusAddr i ∨ statusAddr i + 4 ≤ x) :
      added m i username password x = m x := by
    rcases hcond with hshort | ⟨-, hblank⟩
    · refine added_outside hu (hx.imp_right fun hx => ?_) hs
      rw [nameAddr_succ] at hx
      omega
    · by_cases hx' : x = nameAddr (i + 1) ∧ password.length = 16
      · rw [hx'.1, hblank.name, nameAddr_succ, added_nul hi hx'.2]
      · refine added_outside hu (hx.imp_right fun hx => ?_) hs
        rw [nameAddr_succ] at hx hx'
        omega
  refine ⟨fun j hj hne x hx => hbyte ?_ ?_, fun j hj hne => Mem.word_congr fun x hlow hhigh => hbyte ?_ ?_⟩
  all_goals simp only [nameAddr, statusAddr, USER_FIELD, NUM_USER] at *
  all_goals omega

theorem added_kept_iff (h : Tidy m) (hfree : findFree m = some i) (hu : username.length ≤ 16) (hw : password.length ≤ 16) :
    Kept m i (added m i username password) ↔ password.length ≤ 15 ∨ i + 1 < NUM_USER ∧ Blank m (i + 1) := by
  obtain ⟨hi, -, hbefore⟩ := findFree_eq_some hfree
  refine ⟨fun hk => ?_, added_kept hi hu hw⟩
  by_contra hno
  push Not at hno
  have hlong : password.length = 16 := by omega
  by_cases hlast : i + 1 < NUM_USER
  · have hsame := hk.slot (i + 1) hlast (Nat.succ_ne_self i) 0 (by decide)
    rw [Nat.add_zero, nameAddr_succ, added_nul hi hlong] at hsame
    exact hno.2 hlast ((h.blank_iff hlast).mpr hsame.symm)
  · -- After the last slot this is the status of the first, which is in use.
    obtain rfl : i = 9 := by
      simp only [NUM_USER] at *
      omega
    have hsame := hk.status 0 (by decide) (by decide)
    have hone : m.word (statusAddr 0) = 1 := by
      rcases h 0 (by decide) with hblank | ⟨u, w, hfilled⟩
      · exact absurd hblank.status (hbefore 0 (by decide))
      · exact hfilled.status
    have hlow := Mem.word_low (added m 9 username password) (statusAddr 0)
    rw [hsame, hone, show statusAddr 0 = passwordAddr 9 + 16 from rfl, added_nul hi hlong] at hlow
    exact absurd hlow (by decide)

theorem Kept.proper (hk : Kept m i m') (hj : j < NUM_USER) (hne : j ≠ i) (h : Proper m j) : Proper m' j := by
  have hzero {a : ℕ} (ha : a < USER_FIELD) : m' (nameAddr j + a) = m (nameAddr j + a) := hk.slot j hj hne a ha
  rcases h with hblank | ⟨u, w, hfilled⟩
  · refine .inl ⟨?_, ?_, ?_⟩
    · exact (hzero (by decide : 0 < USER_FIELD)).trans hblank.name
    · exact (hzero (by decide : 16 < USER_FIELD)).trans hblank.password
    · exact (hk.status j hj hne).trans hblank.status
  · refine .inr ⟨u, w, ?_, hfilled.name, hfilled.password, ?_⟩
    · exact (hk.reads_iff hj (.inr ⟨u, w, hfilled⟩) hne).mpr hfilled.reads
    · exact (hk.status j hj hne).trans hfilled.status

theorem added_filled (hi : i < NUM_USER) (hu : 1 ≤ username.length ∧ username.length ≤ 15)
    (hw : 1 ≤ password.length ∧ password.length ≤ 15) : Filled (added m i username password) i username password := by
  have hu' : username.length ≤ 16 := Nat.le_succ_of_le hu.2
  have hw' : password.length ≤ 16 := Nat.le_succ_of_le hw.2
  exact ⟨⟨(added_streq_name hi hu' hw').mpr (.inl hu.2), added_streq_password hi hw'⟩, hu, hw, Mem.word_write _ _ 1⟩

theorem Tidy.added (h : Tidy m) (hi : i < NUM_USER) (hu : 1 ≤ username.length ∧ username.length ≤ 15)
    (hw : 1 ≤ password.length ∧ password.length ≤ 15) : Tidy (added m i username password) := by
  intro j hj
  by_cases hji : j = i
  · subst hji
    exact .inr ⟨_, _, added_filled hi hu hw⟩
  · exact (added_kept hi (Nat.le_succ_of_le hu.2) (Nat.le_succ_of_le hw.2) (.inl hw.2)).proper hj hji (h j hj)

theorem reads_empty : Reads m j empty empty ↔ m (nameAddr j) = 0 ∧ m (passwordAddr j) = 0 := by
  rw [Reads, Mem.streq_empty, Mem.streq_empty]

/-- Just where the NULs of the new strings stand in their own fields, or in ones that are
empty, is the new user known and everything else as it was. -/
theorem added_iff (h : Tidy m) (hname : findName m username = none) (hfree : findFree m = some i)
    (hu : username.length ≤ 16) (hw : password.length ≤ 16) :
    Added m i username password (added m i username password) ↔ (username.length ≤ 15 ∨ password.length = 0) ∧
      (password.length ≤ 15 ∨ i + 1 < NUM_USER ∧ Blank m (i + 1)) ∧ ∃ j < NUM_USER, j ≠ i ∧ Blank m j := by
  obtain ⟨hi, hstatus, -⟩ := findFree_eq_some hfree
  have hblank := h.blank_of_status hi hstatus
  have hne : username ≠ .empty := by
    rintro rfl
    exact findName_eq_none hname hi (Mem.streq_empty.mpr hblank.name)
  have hfirst : added m i username password (nameAddr i) ≠ 0 := by
    intro hzero
    have hname := Mem.streq_strcpy m (nameAddr i) username
    rw [← Nat.add_zero (nameAddr i), added_name hi (by decide)] at hzero
    exact hne (Mem.streq_unique hname (Mem.streq_empty.mpr hzero))
  constructor
  · rintro ⟨hk, hcheck, hothers⟩
    refine ⟨?_, (added_kept_iff h hfree hu hw).mp hk, ?_⟩
    · obtain ⟨j, hj, hreads⟩ := hcheck
      by_cases hji : j = i
      · subst hji
        exact (added_streq_name hi hu hw).mp hreads.1
      · exact absurd ((hk.reads_iff hj (h j hj) hji).mp hreads).1 (findName_eq_none hname hj)
    · -- The empty pair was found in the slot that is taken now.
      have hempty : Checks m .empty .empty := ⟨i, hi, reads_empty.mpr ⟨hblank.name, hblank.password⟩⟩
      obtain ⟨j, hj, hreads⟩ := (hothers _ _ hne.symm).mpr hempty
      have hji : j ≠ i := by
        rintro rfl
        exact hfirst (reads_empty.mp hreads).1
      have hold := reads_empty.mp ((hk.reads_iff hj (h j hj) hji).mp hreads)
      exact ⟨j, hj, hji, (h.blank_iff hj).mpr hold.1⟩
  · rintro ⟨hcond, hkept, j, hj, hji, hfreej⟩
    have hk := (added_kept_iff h hfree hu hw).mpr hkept
    have hnew := (added_streq_name (m := m) hi hu hw).mpr hcond
    refine ⟨hk, ⟨i, hi, hnew, added_streq_password hi hw⟩, fun n w hn => ⟨?_, ?_⟩⟩
    · rintro ⟨x, hx, hreads⟩
      have hxi : x ≠ i := by
        rintro rfl
        exact hn (Mem.streq_unique hreads.1 hnew)
      exact ⟨x, hx, (hk.reads_iff hx (h x hx) hxi).mp hreads⟩
    · rintro ⟨x, hx, hreads⟩
      by_cases hxi : x = i
      · -- The slot was empty, and so is another.
        subst hxi
        obtain rfl : n = .empty := Mem.streq_unique hreads.1 (Mem.streq_empty.mpr hblank.name)
        obtain rfl : w = .empty := Mem.streq_unique hreads.2 (Mem.streq_empty.mpr hblank.password)
        exact ⟨j, hj, (hk.reads_iff hj (h j hj) hji).mpr (reads_empty.mpr ⟨hfreej.name, hfreej.password⟩)⟩
      · exact ⟨x, hx, (hk.reads_iff hx (h x hx) hxi).mpr hreads⟩

end Tidy

section Calls
variable {k k' : Kernel} {p : Slot} {username password : CStr}

theorem addEntry_some (hr : (addEntry username password).run sem k = .ok (some utemp, k')) :
    ∃ i, findName k.utable.mem username = none ∧ findFree k.utable.mem = some i ∧ username.length ≤ 16 ∧
      password.length ≤ 16 ∧ k'.utable.mem = added k.utable.mem i username password ∧ utemp = image k'.utable.mem := by
  obtain ⟨_, k1, hacquire, hr⟩ := of_bind hr
  obtain ⟨-, rfl⟩ := UserOp.acquire_eq_ok (of_call hacquire)
  rw [table_bind_run] at hr
  dsimp only at hr
  rw [show (k.setUtable fun t => { t with locked := true }).utable.mem = k.utable.mem from rfl] at hr
  split at hr
  case h_2 => cases hr
  case h_1 i hname hfree =>
    split at hr
    case isTrue => cases hr
    case isFalse hshort =>
      rw [not_or, Nat.not_lt, Nat.not_lt] at hshort
      obtain ⟨_, k2, hcopy, hr⟩ := of_bind hr
      cases hcopy
      obtain ⟨_, k2, hcopy, hr⟩ := of_bind hr
      cases hcopy
      obtain ⟨_, k2, hstatus, hr⟩ := of_bind hr
      cases hstatus
      rw [table_bind_run] at hr
      obtain ⟨_, k2, hrelease, hr⟩ := of_bind hr
      obtain ⟨-, rfl⟩ := UserOp.release_eq_ok (of_call hrelease)
      cases hr
      exact ⟨i, hname, hfree, hshort.1, hshort.2, rfl, rfl⟩

def Filing : Op → Prop
  | .panic _ => True
  | .log _ => True
  | .fs _ => True
  | .user .read => True
  | _ => False

theorem filing_of_core {α : Type} {x : KProg α} (h : x.Uses Core) : x.Uses Filing := h.mono fun o ho => by
  cases o with
  | panic | fs => trivial
  | _ => exact ho.elim

theorem filing_utable {α : Type} {x : KProg α} {a : α} (hx : x.Uses Filing) (hr : x.run sem k = .ok (a, k')) :
    k'.utable = k.utable := by
  refine hx.run_rel (R := fun s t : Kernel => t.utable = s.utable) (fun _ => rfl) (fun _ _ _ h h' => h'.trans h) ?_ hr
  intro o ho s b t hsem
  cases o with
  | panic => cases hsem
  | log o => exact LogOp.sem_fixes (fun _ _ => rfl) o s b t hsem
  | fs o => exact FsBlind.sem (by constructor <;> intros <;> rfl) o s b t hsem
  | user o =>
    cases o with
    | read =>
      cases hsem
      rfl
    | _ => exact ho.elim
  | _ => exact ho.elim

theorem endOp_filing : endOp.Uses Filing :=
  uses_bind_call trivial fun (_ : Bool) => .ite (uses_bind_call trivial fun _ => uses_call trivial) (uses_pure _)

theorem ialloc_filing (type : InodeType) : (ialloc type).Uses Filing := by
  have hfrom (turns inum : ℕ) : (iallocFrom type turns inum).Uses Filing := by
    induction turns generalizing inum with
    | zero => exact panic_uses trivial
    | succ turns ih => exact uses_bind_call trivial fun (found : Bool) => .ite (uses_call trivial) (ih _)
  exact uses_bind_call trivial fun (sb : Superblock) => hfrom _ _

theorem makeHome_filing (dp : InodeIdx) (username : CStr) : (makeHome p dp username).Uses Filing := by
  have hlink (i : InodeIdx) (name : List UInt8) (inum : ℕ) : (dirlink p i name inum).Uses Filing :=
    filing_of_core (dirlink_core p i name inum)
  have hput (i : InodeIdx) : (iunlockput p i).Uses Filing := filing_of_core (iunlockput_core p i)
  refine (ialloc_filing .dir).bind fun fp => uses_bind_call trivial fun _ => uses_bind_call trivial fun _ => ?_
  refine uses_bind_call trivial fun _ => uses_bind_call trivial fun _ => uses_bind_call trivial fun _ => ?_
  refine uses_bind_call trivial fun _ => uses_bind_call trivial fun (ip : Inode) => uses_bind_call trivial fun _ => ?_
  refine uses_bind_call trivial fun _ => uses_bind_call trivial fun (ip : Inode) => (hlink _ _ _).bind fun _ => ?_
  refine .ite (panic_uses trivial) (uses_bind_call trivial fun (ip : Inode) => (hlink _ _ _).bind fun _ => ?_)
  refine .ite (panic_uses trivial) (uses_bind_call trivial fun (ip : Inode) => (hlink _ _ _).bind fun _ => ?_)
  exact uses_bind_call trivial fun _ => uses_bind_call trivial fun _ => (hput _).bind fun _ => hput _

theorem home_filing (username : CStr) : (home p username).Uses Filing := by
  refine (filing_of_core (namei_core p rootDir)).bind fun dp => ?_
  cases dp with
  | none => exact uses_pure _
  | some dp =>
    refine (filing_of_core (dirlookup_core p dp username.bytes)).bind fun e => ?_
    cases e with
    | some => exact endOp_filing.bind fun _ => uses_pure _
    | none => exact (makeHome_filing dp username).bind fun _ => endOp_filing.bind fun _ => uses_pure _

theorem writeShadow_filing (utemp : List UInt8) {bad good : InodeIdx → KProg ℤ} (hbad : ∀ ip, (bad ip).Uses Filing)
    (hgood : ∀ ip, (good ip).Uses Filing) : (writeShadow p utemp bad good).Uses Filing := by
  refine uses_bind_call trivial fun _ => uses_bind_call trivial fun (t : UTable) => ?_
  split
  · exact panic_uses trivial
  · refine uses_bind_call trivial fun _ => (filing_of_core (writei_core p _ utemp 0)).bind fun r => ?_
    exact .ite (hbad _) (hgood _)

theorem useradd_zero (hr : (useradd p username password).run sem k = .ok (0, k')) :
    ∃ i, findName k.utable.mem username = none ∧ findFree k.utable.mem = some i ∧ username.length ≤ 16 ∧
      password.length ≤ 16 ∧ k'.utable.mem = added k.utable.mem i username password := by
  unfold useradd at hr
  rw [myproc_bind_run] at hr
  split at hr
  case isTrue => cases hr
  case isFalse =>
    obtain ⟨u, k1, hadd, hr⟩ := of_bind hr
    cases u with
    | none => cases hr
    | some utemp =>
      obtain ⟨i, hname, hfree, hu, hw, hmem, -⟩ := addEntry_some hadd
      have hrest : k'.utable = k1.utable := by
        refine filing_utable (writeShadow_filing utemp (fun ip => ?_) fun ip => ?_) hr
        · exact (uses_call trivial).bind fun _ => endOp_filing.bind fun _ => uses_pure _
        · exact uses_bind_call trivial fun _ => home_filing username
      exact ⟨i, hname, hfree, hu, hw, by rw [hrest, hmem]⟩

theorem usercheck_eq_one (k : Kernel) (u w : CStr) :
    (usercheck u w).run sem k = .ok (1, k) ↔ Checks k.utable.mem u w := by
  obtain ⟨r, hrun, -, hone⟩ := usercheck_run k u w
  rw [← hone, hrun]
  exact ⟨fun h => congrArg Prod.fst (Except.ok.inj h), fun h => by rw [h]⟩

/-- The new user, in slot `i`, is known to `usercheck`, to which nothing else has changed, and
all other slots are as they were. -/
structure Enrols (k : Kernel) (i : ℕ) (username password : CStr) (k' : Kernel) : Prop where
  check : (usercheck username password).run Op.sem k' = .ok (1, k')
  others : ∀ n w, n ≠ username →
    ((usercheck n w).run Op.sem k' = .ok (1, k') ↔ (usercheck n w).run Op.sem k = .ok (1, k))
  kept : Kept k.utable.mem i k'.utable.mem

/-- A call that returns 0 enrols the user just if both strings end in their own fields, or in
ones that are empty, and the table had another empty slot, since `usercheck` finds in these
the user without a name. -/
theorem useradd_enrols_iff (h : Tidy k.utable.mem) (hr : (useradd p username password).run Op.sem k = .ok (0, k')) :
    ∃ i, findFree k.utable.mem = some i ∧ (Enrols k i username password k' ↔
      (username.length ≤ 15 ∨ password.length = 0) ∧
      (password.length ≤ 15 ∨ i + 1 < NUM_USER ∧ Blank k.utable.mem (i + 1)) ∧
      ∃ j < NUM_USER, j ≠ i ∧ Blank k.utable.mem j) := by
  obtain ⟨i, hname, hfree, hu, hw, hmem⟩ := useradd_zero hr
  refine ⟨i, hfree, ?_⟩
  rw [← added_iff h hname hfree hu hw, ← hmem]
  constructor
  · rintro ⟨hcheck, hothers, hkept⟩
    refine ⟨hkept, (usercheck_eq_one k' _ _).mp hcheck, fun n w hn => ?_⟩
    rw [← usercheck_eq_one, ← usercheck_eq_one]
    exact hothers n w hn
  · rintro ⟨hkept, hcheck, hothers⟩
    refine ⟨(usercheck_eq_one k' _ _).mpr hcheck, fun n w hn => ?_, hkept⟩
    rw [usercheck_eq_one, usercheck_eq_one]
    exact hothers n w hn

/-- A root directory with the file `/shadow`, both in use, and a user table. -/
def withTable (m : Mem) : Kernel :=
  let rootNode := Dinode.oneBlock { type := .dir, nlink := 1, size := 16, userid := root, mode := MODE_XUSR } 5
  let shadowNode := Dinode.oneBlock { type := .file, nlink := 1, size := 320, userid := root, mode := MODE_RUSR } 6
  { Kernel.zero with
    pt := ⟨fun _ => { userid := root, cwd := some 0 }, 2, none⟩
    sb := ⟨20, 8, 0, 2⟩
    bitmap := fun b => b < 3 || b == 5 || b == 6
    dinode := fun inum => if inum = ROOTINO then rootNode else if inum = 2 then shadowNode else {}
    block := fun b a => if b = 5 then (direntBytes 2 (CStr.ofString "shadow").bytes).getD a 0 else 0
    icache := fun i =>
      if i = 0 then { inum := ROOTINO, ref := 1, valid := true, d := rootNode }
      else if i = 1 then { inum := 2, ref := 1, valid := true, d := shadowNode }
      else {}
    utable := { ptr := some 1, mem := m } }

def listed (us : List (ℕ × CStr × CStr)) : Mem := us.foldl (fun m u => added m u.1 u.2.1 u.2.2) fun _ => 0

theorem listed_tidy (h : ∀ u ∈ us, u.1 < NUM_USER ∧
    (1 ≤ u.2.1.length ∧ u.2.1.length ≤ 15) ∧ 1 ≤ u.2.2.length ∧ u.2.2.length ≤ 15) : Tidy (listed us) := by
  have hfold (m : Mem) (hm : Tidy m) : Tidy (us.foldl (fun m u => added m u.1 u.2.1 u.2.2) m) := by
    induction us generalizing m with
    | nil => exact hm
    | cons u us ih =>
      obtain ⟨hi, hu, hw⟩ := h u List.mem_cons_self
      exact ih (fun v hv => h v (List.mem_cons_of_mem u hv)) _ (hm.added hi hu hw)
  exact hfold _ fun i _ => Or.inl ⟨rfl, rfl, Mem.word_zero _⟩

/-- One user is added to a table with root. -/
theorem useradd_enrols_bob : ∃ k', (useradd 0 (CStr.ofString "bob") (CStr.ofString "pw")).run Op.sem
      (withTable (listed [(0, root, rootPassword)])) = .ok (0, k') ∧
    Enrols (withTable (listed [(0, root, rootPassword)])) 1 (CStr.ofString "bob") (CStr.ofString "pw") k' := by
  have htidy : Tidy (listed [(0, root, rootPassword)]) := listed_tidy (by decide)
  have hzero : ((useradd 0 (ofString "bob") (ofString "pw")).run sem).test
      (withTable (listed [(0, root, rootPassword)])) (fun r _ => r = 0) = true := by decide +kernel
  obtain ⟨r, k', hrun, hr⟩ := Comp.test_eq_true hzero
  obtain rfl : r = 0 := of_decide_eq_true hr
  obtain ⟨i, hfree, hiff⟩ := useradd_enrols_iff htidy hrun
  obtain rfl : i = 1 := Option.some.inj (hfree.symm.trans (by decide : findFree (listed [(0, root, rootPassword)]) = some 1))
  refine ⟨k', hrun, hiff.mpr ⟨Or.inl (by decide), Or.inl (by decide), 2, by decide, by decide, ?_⟩⟩
  exact ⟨by decide, by decide, by decide⟩

/-- A password of 16 characters wipes out the user in the next slot. -/
theorem useradd_erases_eve :
    Tidy (withTable (listed [(0, root, rootPassword), (2, CStr.ofString "eve", CStr.ofString "pw")])).utable.mem ∧
    ∃ k', (useradd 0 (CStr.ofString "bob") (CStr.ofString "0123456789abcdef")).run Op.sem
        (withTable (listed [(0, root, rootPassword), (2, CStr.ofString "eve", CStr.ofString "pw")])) = .ok (0, k') ∧
      ∀ i, ¬ Enrols (withTable (listed [(0, root, rootPassword), (2, CStr.ofString "eve", CStr.ofString "pw")])) i
        (CStr.ofString "bob") (CStr.ofString "0123456789abcdef") k' := by
  refine ⟨listed_tidy (by decide), ?_⟩
  have hgone : ((useradd 0 (ofString "bob") (ofString "0123456789abcdef")).run sem).test
      (withTable (listed [(0, root, rootPassword), (2, ofString "eve", ofString "pw")]))
      (fun r k' => r = 0 && ((usercheck (ofString "eve") (ofString "pw")).run sem).test k' fun r _ => r = 0) =
      true := by decide +kernel
  obtain ⟨r, k', hrun, hr⟩ := Comp.test_eq_true hgone
  rw [Bool.and_eq_true] at hr
  obtain rfl : r = 0 := of_decide_eq_true hr.1
  refine ⟨k', hrun, fun i h => ?_⟩
  obtain ⟨r, k₁, hcheck, hr⟩ := Comp.test_eq_true hr.2
  obtain rfl : r = 0 := of_decide_eq_true hr
  have hone := (h.others (ofString "eve") (ofString "pw") (by decide)).mpr ((usercheck_eq_one _ _ _).mpr ?_)
  · exact Int.zero_ne_one (congrArg Prod.fst (Except.ok.inj (hcheck.symm.trans hone)))
  · exact ⟨2, by decide, by decide, by decide⟩

end Calls
end Xv6.Users
