import Xv6.Fs.Accounts
import Xv6.Fs.Node
import Xv6.Sys.OpenMode
import Xv6.Sys.Usage
import Xv6.Users.Table

/-! # What the account calls hold

Adding and removing users, and changing modes: what each function takes and gives back,
and what a run of it leaves, by the state it starts from.
-/
namespace Xv6.Users
open Prog Usage Sys
open Fs hiding setLock_setLock setLock_eq setLock_locks locked
open KProg hiding panic

section Usage
variable {α β : Type} {p : Slot} {g : Usage} {i dp fp : InodeIdx} {Q : β → Usage → Prop}

def inOp (g : Usage) : Usage := { g with depth := g.depth + 1 }

variable {f : Unit → KProg β}

theorem beginOp_usage (hf : (f ()).Obeys (usage p) (inOp g) Q) :
    (beginOp >>= f).Obeys (usage p) g Q := obeys_bind_call trivial fun _ _ => hf

theorem endOp_usage : endOp.Obeys (usage p) (inOp g) fun _ g' => g' = g := by
  refine obeys_bind_call trivial fun (last : Bool) _ => ?_
  have hend : (inOp g).next (.log .endOp) last = g := by
    simp [Usage.next, inOp]
  change Obeys (usage p) _ ((inOp g).next (.log .endOp) last) _
  rw [hend]
  cases last with
  | true => exact obeys_bind_call trivial fun _ _ => obeys_call trivial fun _ _ => rfl
  | false => rfl

theorem endOp_bind_usage (hf : (f ()).Obeys (usage p) g Q) : (endOp >>= f).Obeys (usage p) (inOp g) Q := by
  refine endOp_usage.seq fun _ g' hg => ?_
  subst hg
  exact hf

theorem fail_usage {undo : KProg Unit} {g1 : Usage} (h : undo.Obeys (usage p) g1 fun _ g' => g' = inOp g) :
    (fail undo).Obeys (usage p) g1 fun _ g' => g' = g := by
  refine h.seq fun _ g' hg => ?_
  subst hg
  exact endOp_bind_usage rfl

theorem table_ignored : Ignored p (.user .read) := fun _ => ⟨trivial, fun _ => rfl⟩

theorem strcpy_ignored (addr : ℕ) (s : CStr) : Ignored p (.user (.strcpy addr s)) :=
  fun _ => ⟨trivial, fun _ => rfl⟩

theorem write_ignored (addr : ℕ) (bytes : List UInt8) : Ignored p (.user (.write addr bytes)) :=
  fun _ => ⟨trivial, fun _ => rfl⟩

theorem iunlock_setLock (hfree : g.locks i = false) (hf : (f ()).Obeys (usage p) g Q) :
    (iunlock p i >>= f).Obeys (usage p) (g.setLock i true) Q := by
  refine iunlock_usage fun _ => ?_
  rw [setLock_setLock, setLock_eq hfree]
  exact hf

theorem fail_iunlock (hfree : g.locks i = false) :
    (fail (iunlock p i)).Obeys (usage p) ((inOp g).setLock i true) fun _ g' => g' = g := by
  refine fail_usage (obeys_call rfl fun _ _ => ?_)
  exact (setLock_setLock true false).trans (setLock_eq (g := inOp g) hfree)

/-- `sys_chmod` gives back all but the reference to what the path names. -/
theorem sysChmod_usage (hroom : g.refs.card + 1 < room) (hcwd : ∀ i, g.cwd = some i → i ∈ g.refs)
    (pathname : Option CStr) (mode : Option Word) :
    (sysChmod p pathname mode).Obeys (usage p) g fun _ g' => ∃ r, g' = namedRef g r := by
  unfold sysChmod
  split
  case h_1 pathname mode =>
    refine beginOp_usage ((namei_usage (g := inOp g) hroom hcwd pathname).seq fun r g' hg => ?_)
    subst hg
    cases r with
    | none => exact (fail_usage (obeys_pure rfl)).mono fun _ _ hg => ⟨none, hg⟩
    | some ip =>
      refine .mono (Q := fun _ g' => g' = g.addRef ip) ?_ fun _ _ hg => ⟨some ip, hg⟩
      refine ilock_usage fun (hfree : (g.addRef ip).locks ip = false) => ?_
      refine ignored_bind (myproc_ignored p) fun pr => ignored_bind (inode_ignored ip) fun d => ?_
      dsimp only
      split
      · exact fail_iunlock hfree
      · refine ignored_bind (store_ignored ip _) fun _ => ignored_bind (iupdate_ignored ip) fun _ => ?_
        exact iunlock_setLock (g := inOp (g.addRef ip)) hfree (endOp_bind_usage rfl)
  case h_2 => exact ⟨none, rfl⟩

theorem clearSlots_usage (is : List ℕ) : Balanced p g (clearSlots is) := by
  induction is with
  | nil => rfl
  | cons i is ih =>
    refine balanced_bind ?_ fun _ => ih
    exact ignored_bind (write_ignored _ _) fun _ => ignored_balanced (uses_call (write_ignored _ _))

theorem initUtable_usage : initUtable.Obeys (usage p) g fun _ g' => g' = { g with table := false } := by
  refine obeys_bind_call trivial fun _ _ => obeys_bind_call trivial fun _ _ => ?_
  exact balanced_bind (clearSlots_usage _) fun _ => obeys_call trivial fun _ _ => rfl

theorem delEntry_usage (username : CStr) : Balanced p g (delEntry username) := by
  refine obeys_bind_call trivial fun _ (hg : g.table = false) => ignored_bind table_ignored fun t => ?_
  have hrelease : { g with table := false } = g := by rw [← hg]
  split
  · exact obeys_bind_call trivial fun _ _ => hrelease
  · refine ignored_bind (write_ignored _ _) fun _ => ignored_bind (write_ignored _ _) fun _ => ?_
    exact ignored_bind table_ignored fun t => obeys_bind_call trivial fun _ _ => hrelease

theorem makeHome_usage (hroom : g.refs.card + 2 < room) (username : CStr) :
    (makeHome p dp username).Obeys (usage p) (g.addRef dp) fun _ g' => g' = g := by
  have hroom1 : (g.addRef dp).refs.card < room := by
    rw [card_addRef]
    omega
  refine (ialloc_usage hroom1 .dir).seq fun fp g1 hg1 => ?_
  subst hg1
  refine ilock_usage fun (hdp : g.locks dp = false) => ilock_usage fun hfp => ?_
  have hne : fp ≠ dp := by
    rintro rfl
    rw [setLock_locks] at hfp
    cases hfp
  have hfp : g.locks fp = false := by
    rw [setLock_of_ne hne] at hfp
    exact hfp
  have hheld : (((g.addRef dp).addRef fp).setLock dp true).setLock fp true = (g.locked dp).locked fp := by
    simp only [locked, addRef, setLock]
  rw [hheld]
  refine ignored_bind (store_ignored fp _) fun _ => ignored_bind (store_ignored fp _) fun _ => ?_
  refine ignored_bind (store_ignored fp _) fun _ => ignored_bind (iupdate_ignored fp) fun _ => ?_
  refine ignored_bind (inode_ignored dp) fun _ => ignored_bind (store_ignored dp _) fun _ => ?_
  refine ignored_bind (iupdate_ignored dp) fun _ => ignored_bind (inode_ignored fp) fun _ => ?_
  have hroom2 : ((g.locked dp).locked fp).refs.card < room := by
    rw [card_locked, card_locked]
    omega
  refine balanced_bind (dirlink_usage hroom2 _ _) fun r => .ite (fun _ => panic_usage _) fun _ => ?_
  refine ignored_bind (inode_ignored dp) fun _ => balanced_bind (dirlink_usage hroom2 _ _) fun r => ?_
  refine .ite (fun _ => panic_usage _) fun _ => ignored_bind (inode_ignored fp) fun _ => ?_
  refine balanced_bind (dirlink_usage hroom2 _ _) fun r => ?_
  refine ignored_bind (iupdate_ignored fp) fun _ => ignored_bind (iupdate_ignored dp) fun _ => ?_
  have hfp' : (g.locked dp).locks fp = false := by
    rw [locked, setLock_of_ne hne]
    exact hfp
  exact iunlockput_bind_usage hfp' (iunlockput_usage hdp)

end Usage

section Runs
variable {p : Slot} {k₀ k k' : Kernel} {g : Usage} {username password : CStr} {r : ℤ}

theorem table_bind_run {α : Type} (f : UTable → KProg α) :
    (table >>= f).run Op.sem k = (f k.utable).run Op.sem k := rfl

theorem namei_rootDir : namei p rootDir = (iget ROOTINO >>= fun ip => pure (some ip)) := rfl

/-- What the code looks for before it makes a home directory. -/
def homeEntry (p : Slot) (username : CStr) : KProg (Option (InodeIdx × ℕ)) := do
  match ← namei p rootDir with
  | none => return none
  | some dp => dirlookup p dp username.bytes

theorem home_run (h : Accounts p k₀ k (inOp g)) (hroom : g.refs.card + 2 < room)
    (hr : (home p username).run Op.sem k = .ok (r, k')) :
    ∃ e k1, (homeEntry p username).run Op.sem k = .ok (e, k1) ∧
      (e = none ∧ Accounts p k₀ k' g ∨ e.isSome ∧ ∃ i j, Accounts p k₀ k' ((g.addRef i).addRef j)) := by
  unfold home homeEntry at *
  rw [namei_rootDir] at *
  obtain ⟨dp, k1, hroot, hr⟩ := of_bind hr
  obtain ⟨i, k1, higet, hroot⟩ := of_bind hroot
  cases hroot
  obtain ⟨e, k2, hlookup, hr⟩ := of_bind hr
  have h1 : Accounts p k₀ k1 ((inOp g).addRef i) := by
    have htake : (iget ROOTINO).Obeys (usage p) (inOp g) fun j g' => g' = (inOp g).addRef j :=
      obeys_call (show g.refs.card < room by omega) fun _ _ => rfl
    obtain ⟨g1, rfl, h1⟩ := h.run htake higet
    exact h1
  have hcard : ((inOp g).addRef i).refs.card < room := by
    rw [card_addRef]
    change g.refs.card + 1 < room
    omega
  obtain ⟨g2, rfl, h2⟩ := h1.run (dirlookup_usage hcard username.bytes) hlookup
  refine ⟨e, k2, ?_, ?_⟩
  · exact bind_ok (bind_ok higet rfl) hlookup
  cases e with
  | some e =>
    refine .inr ⟨rfl, i, e.1, h2.run_eq ?_ hr⟩
    exact endOp_bind_usage (g := (g.addRef i).addRef e.1) rfl
  | none =>
    refine .inl ⟨rfl, h2.run_eq ?_ hr⟩
    refine (makeHome_usage (g := inOp g) hroom username).seq fun _ g' hg => ?_
    subst hg
    exact endOp_bind_usage rfl

theorem image_length (m : Mem) : (image m).length = SIZEOF_U := by
  rw [image, List.length_map, List.length_range]

/-- The table has no user of the name and a free slot, and the strings fit. -/
def Addable (m : Mem) (username password : CStr) : Prop :=
  findName m username = none ∧ findFree m ≠ none ∧
    username.length ≤ USER_FIELD / 2 ∧ password.length ≤ USER_FIELD / 2

theorem addEntry_run (h : Accounts p k₀ k g) (hr : (addEntry username password).run Op.sem k = .ok (u, k')) :
    u = none ∧ ¬ Addable k.utable.mem username password ∧ Accounts p k₀ k' { g with table := true } ∨
      ∃ utemp, u = some utemp ∧ utemp.length = SIZEOF_U ∧ Addable k.utable.mem username password ∧
        Accounts p k₀ k' g := by
  obtain ⟨_, k1, hacquire, hr⟩ := of_bind hr
  have hacq : UserOp.acquire.sem k = .ok ((), k1) := of_call hacquire
  obtain ⟨-, rfl⟩ := UserOp.acquire_eq_ok hacq
  obtain ⟨hg, h1⟩ := h.sound_user hacq
  rw [table_bind_run] at hr
  dsimp only at hr
  rw [show (k.setUtable fun t => { t with locked := true }).utable.mem = k.utable.mem from rfl] at hr
  unfold Addable
  generalize findName k.utable.mem username = found, findFree k.utable.mem = slot at hr
  cases found with
  | some j =>
    cases hr
    exact .inl ⟨rfl, fun hadd => Option.some_ne_none j hadd.1, h1⟩
  | none =>
    cases slot with
    | none =>
      cases hr
      exact .inl ⟨rfl, fun hadd => hadd.2.1 rfl, h1⟩
    | some i =>
      dsimp only at hr
      split at hr
      case isTrue hlong =>
        cases hr
        exact .inl ⟨rfl, fun hadd => by omega, h1⟩
      case isFalse hshort =>
        have hrest : (do
            strcpy (nameAddr i) username
            strcpy (passwordAddr i) password
            setStatus i 1
            let utemp := image (← table).mem
            release
            return some utemp : KProg (Option (List UInt8))).Obeys (usage p) { g with table := true }
              fun _ g' => g' = g := by
          refine ignored_bind (strcpy_ignored _ _) fun _ => ignored_bind (strcpy_ignored _ _) fun _ => ?_
          refine ignored_bind (write_ignored _ _) fun _ => ignored_bind table_ignored fun _ => ?_
          refine obeys_bind_call trivial fun _ _ => ?_
          change { g with table := false } = g
          rw [← show g.table = false from hg]
        have h2 := h1.run_eq hrest hr
        obtain ⟨_, k2, hname, hr⟩ := of_bind hr
        cases hname
        obtain ⟨_, k2, hpassword, hr⟩ := of_bind hr
        cases hpassword
        obtain ⟨_, k2, hstatus, hr⟩ := of_bind hr
        cases hstatus
        rw [table_bind_run] at hr
        obtain ⟨_, k2, hrelease, hr⟩ := of_bind hr
        obtain ⟨-, rfl⟩ := UserOp.release_eq_ok (of_call hrelease)
        cases hr
        refine .inr ⟨_, rfl, image_length _, ⟨rfl, by simp, ?_⟩, h2⟩
        omega

/-- A device without a write routine. -/
def NoDriver (d : Dinode) : Prop := d.type = .dev ∧ d.major ≠ BitVec.ofNat 16 CONSOLE

/-- Writing a file from its start fails on such devices only. -/
theorem writei_neg_iff (hsrc : src.length = SIZEOF_U)
    (h : (writei p i src 0).run Op.sem k = .ok (r, k')) : r < 0 ↔ NoDriver (k.icache i).d := by
  have hn : BitVec.ofNat 32 src.length = 320 := by
    rw [hsrc]
    rfl
  unfold writei NoDriver at *
  rw [hn] at h
  dsimp only at h
  rw [inode_bind_run] at h
  split at h
  case isTrue hdev =>
    split at h
    case isTrue hconsole =>
      obtain ⟨_, k1, -, h⟩ := of_bind h
      obtain ⟨_, k2, -, h⟩ := of_bind h
      obtain ⟨_, k3, -, h⟩ := of_bind h
      cases h
      exact iff_of_false (by omega) fun hno => hno.2 hconsole
    case isFalse hconsole =>
      cases h
      exact iff_of_true (by decide) ⟨hdev, hconsole⟩
  case isFalse hdev =>
    refine iff_of_false ?_ fun hno => hdev hno.1
    split at h
    case isTrue hoff => exact absurd hoff (by simp)
    case isFalse =>
      split at h
      case isTrue hmax => exact absurd hmax (by decide)
      case isFalse =>
        obtain ⟨_, k1, -, h⟩ := of_bind h
        obtain ⟨_, k2, -, h⟩ := of_bind h
        cases h
        decide

/-- The writing of the table, up to what the caller does then; it is the same for every
caller. -/
theorem writeShadow_run (hlen : utemp.length = SIZEOF_U) {bad good : InodeIdx → KProg ℤ}
    (h : Accounts p k₀ k g) (hr : (writeShadow p utemp bad good).run Op.sem k = .ok (r, k')) :
    ∃ ip k1, k.utable.ptr = some ip ∧ g.locks ip = false ∧ Accounts p k₀ k1 ((inOp g).setLock ip true) ∧
      (NoDriver (seen k ip) ∧ (bad ip).run Op.sem k1 = .ok (r, k') ∨
        ¬ NoDriver (seen k ip) ∧ (good ip).run Op.sem k1 = .ok (r, k') ∧
          ∀ bad' good' r' k'', (good' ip).run Op.sem k1 = .ok (r', k'') →
            (writeShadow p utemp bad' good').run Op.sem k = .ok (r', k'')) := by
  obtain ⟨_, k1, hbegin, hr⟩ := of_bind hr
  have hopen : beginOp.Obeys (usage p) g fun _ g' => g' = inOp g :=
    obeys_call (o := Op.log LogOp.beginOp) trivial fun _ _ => rfl
  have h1 := h.run_eq hopen hbegin
  obtain ⟨l, hl⟩ := log_run hbegin
  have hseen : seen k1 = seen k := by rw [hl]; rfl
  have hutable : k1.utable = k.utable := by rw [hl]
  rw [table_bind_run, hutable] at hr
  split at hr
  case h_1 => cases hr
  case h_2 ip hptr =>
    obtain ⟨_, k2, hlock, hr⟩ := of_bind hr
    obtain ⟨n, k3, hwrite, hr⟩ := of_bind hr
    have hlocked : (ilock p ip).Obeys (usage p) (inOp g) fun _ g' =>
        g.locks ip = false ∧ g' = (inOp g).setLock ip true :=
      obeys_call rfl fun _ hfree => ⟨hfree, rfl⟩
    obtain ⟨_, ⟨hfree, rfl⟩, h2⟩ := h1.run hlocked hlock
    have hneg := writei_neg_iff hlen hwrite
    rw [ilock_seen hlock, hseen] at hneg
    refine ⟨ip, k3, hptr, hfree, h2.run_eq (writei_usage _ _) hwrite, ?_⟩
    split at hr
    case isTrue hn => exact .inl ⟨hneg.mp hn, hr⟩
    case isFalse hn =>
      refine .inr ⟨fun hno => hn (hneg.mpr hno), hr, fun bad' good' r' k'' hgood => ?_⟩
      refine bind_ok hbegin ?_
      rw [table_bind_run, hutable, hptr]
      refine bind_ok hlock (bind_ok hwrite ?_)
      rw [if_neg hn]
      exact hgood

theorem delEntry_run (hr : (delEntry username).run Op.sem k = .ok (u, k')) :
    findName k.utable.mem username = none ∧ u = none ∨
      findName k.utable.mem username ≠ none ∧ ∃ utemp, u = some utemp ∧ utemp.length = SIZEOF_U ∧
        k'.utable.ptr = k.utable.ptr ∧ seen k' = seen k := by
  obtain ⟨_, k1, hacquire, hr⟩ := of_bind hr
  obtain ⟨-, rfl⟩ := UserOp.acquire_eq_ok (of_call hacquire)
  rw [table_bind_run] at hr
  dsimp only at hr
  rw [show (k.setUtable fun t => { t with locked := true }).utable.mem = k.utable.mem from rfl] at hr
  generalize findName k.utable.mem username = found at hr
  cases found with
  | none =>
    obtain ⟨_, k2, -, hr⟩ := of_bind hr
    cases hr
    exact .inl ⟨rfl, rfl⟩
  | some =>
    obtain ⟨_, k2, hclear, hr⟩ := of_bind hr
    obtain ⟨_, k3, hname, hclear⟩ := of_bind hclear
    cases hname
    cases hclear
    rw [table_bind_run] at hr
    obtain ⟨_, k2, hrelease, hr⟩ := of_bind hr
    obtain ⟨-, rfl⟩ := UserOp.release_eq_ok (of_call hrelease)
    cases hr
    exact .inr ⟨by simp, _, rfl, image_length _, rfl, rfl⟩

/-- Where `userdel` fails to write the file, the lock of the file stays taken. -/
theorem userdel_run (h : Accounts p k₀ k g) (hr : (userdel p username).run Op.sem k = .ok (r, k')) :
    ((k.pt.proc p).userid ≠ root ∨ username = root ∨ findName k.utable.mem username = none ∨
        ∃ ip, k.utable.ptr = some ip ∧ ¬ NoDriver (seen k ip)) ∧ Accounts p k₀ k' g ∨
      (k.pt.proc p).userid = root ∧ username ≠ root ∧ findName k.utable.mem username ≠ none ∧
        ∃ ip, k.utable.ptr = some ip ∧ NoDriver (seen k ip) ∧ Accounts p k₀ k' (g.setLock ip true) := by
  unfold userdel at hr
  rw [myproc_bind_run] at hr
  split at hr
  case isTrue huser =>
    cases hr
    exact .inl ⟨.inl huser, h⟩
  case isFalse huser =>
  split at hr
  case isTrue hroot =>
    cases hr
    exact .inl ⟨.inr (.inl hroot), h⟩
  case isFalse hroot =>
  obtain ⟨u, k1, hdel, hr⟩ := of_bind hr
  have h1 := h.run_eq (delEntry_usage username) hdel
  rcases delEntry_run hdel with ⟨hnone, rfl⟩ | ⟨hfound, utemp, rfl, hlen, hptr, hseen⟩
  · cases hr
    exact .inl ⟨.inr (.inr (.inl hnone)), h1⟩
  obtain ⟨ip, k2, hip, hfree, h2, hcase⟩ := writeShadow_run hlen h1 hr
  rw [hptr] at hip
  rw [hseen] at hcase
  rcases hcase with ⟨hno, hbad⟩ | ⟨hyes, hgood, -⟩
  · refine .inr ⟨not_not.mp huser, hroot, hfound, ip, hip, hno, ?_⟩
    exact h2.run_eq (fail_usage (g := g.setLock ip true) (obeys_pure rfl)) hbad
  · refine .inl ⟨.inr (.inr (.inr ⟨ip, hip, hyes⟩)), h2.run_eq ?_ hgood⟩
    exact iunlock_setLock (g := inOp g) hfree (endOp_bind_usage rfl)

/-- The search of `useradd` for the home directory, with all that comes before it; 1 if it
finds one. -/
def findHome (p : Slot) (username password : CStr) : KProg ℤ := do
  match ← addEntry username password with
  | none => return 0
  | some utemp =>
    writeShadow p utemp (fun _ => return 0) fun ip => do
      iunlock p ip
      match ← homeEntry p username with
      | none => return 0
      | some _ => return 1

/-- A refused `useradd` keeps `utable.lock`; one that finds the home directory keeps two
references. -/
theorem useradd_run (h : Accounts p k₀ k g) (hroom : g.refs.card + 2 < room)
    (hr : (useradd p username password).run Op.sem k = .ok (r, k')) :
    ((k.pt.proc p).userid ≠ root ∨ Addable k.utable.mem username password) ∧
        (Accounts p k₀ k' g ∨ (∃ k1, (findHome p username password).run Op.sem k = .ok (1, k1)) ∧
          ∃ i j, Accounts p k₀ k' ((g.addRef i).addRef j)) ∨
      (k.pt.proc p).userid = root ∧ ¬ Addable k.utable.mem username password ∧
        Accounts p k₀ k' { g with table := true } := by
  unfold useradd at hr
  rw [myproc_bind_run] at hr
  split at hr
  case isTrue huser =>
    cases hr
    exact .inl ⟨.inl huser, .inl h⟩
  case isFalse huser =>
  obtain ⟨u, k1, hadd, hr⟩ := of_bind hr
  rcases addEntry_run h hadd with ⟨rfl, hno, h1⟩ | ⟨utemp, rfl, hlen, hyes, h1⟩
  · cases hr
    exact .inr ⟨not_not.mp huser, hno, h1⟩
  refine .inl ⟨.inr hyes, ?_⟩
  obtain ⟨ip, k2, -, hfree, h2, ⟨-, hbad⟩ | ⟨-, hgood, hagain⟩⟩ := writeShadow_run hlen h1 hr
  · exact .inl (h2.run_eq (fail_iunlock hfree) hbad)
  obtain ⟨_, k3, hunlock, hhome⟩ := of_bind hgood
  have hrelease : (iunlock p ip).Obeys (usage p) ((inOp g).setLock ip true) fun _ g' => g' = inOp g :=
    obeys_call rfl fun _ _ => (Usage.setLock_setLock true false).trans (Usage.setLock_eq (g := inOp g) hfree)
  obtain ⟨e, k4, hentry, ⟨-, h4⟩ | ⟨hsome, h4⟩⟩ := home_run (h2.run_eq hrelease hunlock) hroom hhome
  · exact .inl h4
  refine .inr ⟨⟨k4, ?_⟩, h4⟩
  obtain ⟨e, rfl⟩ := Option.isSome_iff_exists.mp hsome
  refine bind_ok hadd (hagain _ _ 1 k4 ?_)
  refine bind_ok hunlock ?_
  exact bind_ok hentry rfl

end Runs

end Xv6.Users
