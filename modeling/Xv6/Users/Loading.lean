import Xv6.Users.Holding

/-! # What loading the user table holds -/
namespace Xv6.Users
open Prog Usage Sys
open Fs hiding setLock_setLock setLock_eq setLock_locks locked
open KProg hiding panic

section Inituser
variable {p : Slot} {k₀ k k' : Kernel} {g : Usage} {i ip dp : InodeIdx} {r : ℤ}

def RootSearchable (p : Slot) (k : Kernel) : Prop :=
  (node k ROOTINO).type = .dir ∧ mayAccess (k.pt.proc p).userid (node k ROOTINO) MODE_XUSR MODE_XOTH = true

theorem nameiparent_shadow :
    nameiparent p shadow = (iget ROOTINO >>= fun ip => walk p true [shadow.bytes.tail] ip) := rfl

theorem nameiparent_shadow_run
    (h : (nameiparent p shadow).run Op.sem k = .ok (o, k')) : o.isSome ↔ RootSearchable p k := by
  rw [nameiparent_shadow] at h
  obtain ⟨i, k₁, higet, h⟩ := of_bind h
  obtain ⟨_, k₂, hlock, h⟩ := of_bind h
  have hd : (k₂.icache i).d = node k ROOTINO := (ilock_seen hlock).trans (iget_seen higet)
  have hpt : k₂.pt = k.pt :=
    (core_pt (ilock_core p i) hlock).trans (core_pt (fs_core (o := .iget ROOTINO) trivial) higet)
  unfold RootSearchable
  rw [inode_bind_run, hd] at h
  split at h
  case isTrue htype =>
    obtain ⟨_, k3, -, h⟩ := of_bind h
    cases h
    exact iff_of_false (by simp) fun hs => htype hs.1
  case isFalse htype =>
  rw [access_bind_run, hd, hpt] at h
  split at h
  case isTrue hdenied =>
    obtain ⟨_, k3, -, h⟩ := of_bind h
    cases h
    exact iff_of_false (by simp) fun hs => by simp [hs.2] at hdenied
  case isFalse hgranted =>
    rw [if_pos ⟨rfl, rfl⟩] at h
    obtain ⟨_, k3, -, h⟩ := of_bind h
    cases h
    exact iff_of_true rfl ⟨not_not.mp htype, by simpa using hgranted⟩

/-- A device without a read routine, or the console of a process that is killed before a
line is complete. -/
def ReadFails (k : Kernel) (d : Dinode) : Prop :=
  d.type = .dev ∧ (d.major ≠ BitVec.ofNat 16 CONSOLE ∨ (FsOp.readLine SIZEOF_U true k.input).2.2 = false)

theorem consoleread_neg_iff
    (h : FsOp.consoleread.sem p n k = .ok (o, k')) : o.1 < 0 ↔ (FsOp.readLine n true k.input).2.2 = false := by
  unfold FsOp.consoleread.sem at h
  have h := Comp.get_bind h
  dsimp only at h
  rw [Comp.ite_apply] at h
  split at h
  case isTrue hdone =>
    cases h
    exact iff_of_false (by simp) (by simp [hdone])
  case isFalse hdone =>
    rw [Comp.ite_apply] at h
    split at h
    · cases h
      exact iff_of_true (by simp) (by simpa using hdone)
    · cases h

theorem blind_input : Comp.Fixes Kernel.input ((iunlock p i).run Op.sem) := by
  intro s u t h
  rw [iunlock_run] at h
  obtain rfl := FsOp.iunlock_eq_ok h
  rfl

theorem readi_neg_iff (h : (readi p i 0 (BitVec.ofNat 32 SIZEOF_U)).run Op.sem k = .ok (o, k')) :
    o.1 < 0 ↔ ReadFails k (k.icache i).d := by
  unfold readi ReadFails at *
  rw [inode_bind_run] at h
  split at h
  case isTrue hdev =>
    split at h
    case isTrue hconsole =>
      obtain ⟨_, k₁, hunlock, h⟩ := of_bind h
      obtain ⟨o', k₂, hread, h⟩ := of_bind h
      obtain ⟨_, k3, -, h⟩ := of_bind h
      cases h
      have hneg := consoleread_neg_iff (of_call hread)
      rw [blind_input _ _ _ hunlock] at hneg
      rw [hneg]
      exact ⟨fun hno => ⟨hdev, .inr hno⟩, fun hno => hno.2.resolve_left (not_not.mpr hconsole)⟩
    case isFalse hconsole =>
      cases h
      exact iff_of_true (by decide) ⟨hdev, .inl hconsole⟩
  case isFalse hdev =>
    refine iff_of_false ?_ fun hno => hdev hno.1
    split at h
    case isTrue hoff => exact absurd hoff (by simp)
    case isFalse =>
      obtain ⟨bytes, k₁, -, h⟩ := of_bind h
      cases h
      have hle : (if 0 + BitVec.ofNat 32 SIZEOF_U > (k.icache i).d.size then (k.icache i).d.size - 0
          else BitVec.ofNat 32 SIZEOF_U).toNat ≤ 320 := by
        split
        case isTrue hsize =>
          have hlt : (k.icache i).d.size.toNat < 320 := hsize
          have hsub : (k.icache i).d.size - 0 = (k.icache i).d.size := BitVec.sub_zero _
          rw [hsub]
          omega
        case isFalse => decide
      generalize (if 0 + BitVec.ofNat 32 SIZEOF_U > (k.icache i).d.size then (k.icache i).d.size - 0
        else BitVec.ofNat 32 SIZEOF_U) = n at hle ⊢
      simp only [BitVec.toInt_eq_toNat_cond]
      omega

theorem ilock_input (h : (ilock p i).run Op.sem k = .ok (u, k')) : k'.input = k.input := by
  rw [ilock_run] at h
  obtain ⟨-, -, ⟨-, rfl⟩ | ⟨-, -, rfl⟩⟩ := FsOp.ilock_eq_ok h <;> rfl

/-- With `utable.ptr` set. -/
def withPtr (g : Usage) (i : InodeIdx) : Usage := { g with ptr := some i }

/-- Where the file cannot be read, its lock stays taken. -/
theorem readShadow_run (h : Accounts p k₀ k (inOp g)) (hr : (readShadow p ip).run Op.sem k = .ok (r, k')) :
    ¬ ReadFails k (seen k ip) ∧ Accounts p k₀ k' (withPtr g ip) ∨
      ReadFails k (seen k ip) ∧ Accounts p k₀ k' ((withPtr g ip).setLock ip true) := by
  have hset : (do
      acquire
      user (.setPtr ip)
      release : KProg Unit).Obeys (usage p) (inOp g) fun _ g' => g' = inOp (withPtr g ip) := by
    refine obeys_bind_call trivial fun _ (hg : g.table = false) => obeys_bind_call trivial fun _ _ => ?_
    refine obeys_call trivial fun _ _ => ?_
    change { inOp (withPtr g ip) with table := false } = inOp (withPtr g ip)
    rw [← hg]
    rfl
  obtain ⟨_, k₁, hacquire, hr⟩ := of_bind hr
  obtain ⟨_, k₂, hptr, hr⟩ := of_bind hr
  obtain ⟨_, k3, hrelease, hr⟩ := of_bind hr
  have h3 : Accounts p k₀ k3 (inOp (withPtr g ip)) := by
    refine h.run_eq (a := ()) hset (bind_ok hacquire ?_)
    exact bind_ok hptr hrelease
  obtain ⟨-, rfl⟩ := UserOp.acquire_eq_ok (of_call hacquire)
  cases hptr
  obtain ⟨-, rfl⟩ := UserOp.release_eq_ok (of_call hrelease)
  obtain ⟨_, k4, hlock, hr⟩ := of_bind hr
  obtain ⟨o, k5, hread, hr⟩ := of_bind hr
  obtain ⟨_, k6, hwrite, hr⟩ := of_bind hr
  cases hwrite
  have hlocked : (ilock p ip).Obeys (usage p) (inOp (withPtr g ip)) fun _ g' =>
      g.locks ip = false ∧ g' = (inOp (withPtr g ip)).setLock ip true :=
    obeys_call rfl fun _ hfree => ⟨hfree, rfl⟩
  obtain ⟨_, ⟨hfree, rfl⟩, h4⟩ := h3.run hlocked hlock
  have h6 : Accounts p k₀ (k5.setUtable fun t => { t with mem := t.mem.write 0 o.2 })
      ((inOp (withPtr g ip)).setLock ip true) := (h4.run_eq (readi_usage _ _) hread).of_tally rfl
  have hneg : o.1 < 0 ↔ ReadFails k (seen k ip) := by
    have hneg := readi_neg_iff hread
    rw [ilock_seen hlock, ReadFails, ilock_input hlock] at hneg
    exact hneg
  split at hr
  case isTrue hn =>
    exact .inr ⟨hneg.mp hn, h6.run_eq (fail_usage (g := (withPtr g ip).setLock ip true) (obeys_pure rfl)) hr⟩
  case isFalse hn =>
    refine .inl ⟨fun hno => hn (hneg.mpr hno), h6.run_eq ?_ hr⟩
    exact iunlock_setLock (g := inOp (withPtr g ip)) hfree (endOp_bind_usage rfl)

theorem user_run {o : UserOp} {b : o.Ans} (h : (user o).run Op.sem k = .ok (b, k')) :
    ∃ t c, k' = { k with utable := t, copies := c } := by
  have h : o.sem k = .ok (b, k') := of_call h
  cases o with
  | acquire => exact ⟨_, _, (UserOp.acquire_eq_ok h).2⟩
  | release => exact ⟨_, _, (UserOp.release_eq_ok h).2⟩
  | _ =>
    cases h
    exact ⟨_, _, rfl⟩

theorem user_accounts {o : UserOp} {b : o.Ans} (hacc : Accounts p k₀ k g)
    (h : (user o).run Op.sem k = .ok (b, k')) : g.Answers (.user o) b ∧ Accounts p k₀ k' (g.next (.user o) b) :=
  hacc.sound_user (of_call h)

theorem writei_bare (hdev : (k.icache i).d.type ≠ .dev)
    (h : (writei p i src off).run Op.sem k = .ok (r, k')) (j : InodeIdx) :
    (k'.icache j).bare = (k.icache j).bare := by
  unfold writei at h
  dsimp only at h
  rw [inode_bind_run, if_neg hdev] at h
  split at h
  · cases h
    rfl
  split at h
  · cases h
    rfl
  obtain ⟨_, k₁, hloop, h⟩ := of_bind h
  obtain ⟨_, k₂, hgrow, h⟩ := of_bind h
  cases h
  rw [contents_run_bare (growTo_contents i _ _) hgrow, contents_run_bare (writeLoop_contents i _ _ _) hloop]

/-- The new file is written and read without fail, and `utable.ptr` keeps the reference. -/
theorem createShadow_run (hholds : Holds p k (Fs.locked h dp)) (hdp : h.locks dp = .free)
    (hacc : Accounts p k₀ k ((inOp g).locked dp)) (hfree : g.locks dp = false)
    (hroom : g.refs.card + 2 < room) (hr : (createShadow p dp name).run Op.sem k = .ok (r, k')) :
    ∃ ip, Accounts p k₀ k' (withPtr (g.addRef ip) ip) := by
  obtain ⟨_, k₁, hacquire, hr⟩ := of_bind hr
  obtain ⟨_, k₂, hname, hr⟩ := of_bind hr
  obtain ⟨_, k3, hpassword, hr⟩ := of_bind hr
  obtain ⟨_, k4, hstatus, hr⟩ := of_bind hr
  obtain ⟨_, k5, hrelease, hr⟩ := of_bind hr
  obtain ⟨htable, hacc1⟩ := user_accounts hacc hacquire
  have hacc4 := (user_accounts (user_accounts (user_accounts hacc1 hname).2 hpassword).2 hstatus).2
  have hacc5 : Accounts p k₀ k5 ((inOp g).locked dp) := by
    have hunlocked : { (inOp g).locked dp with table := false } = (inOp g).locked dp := by
      rw [← show ((inOp g).locked dp).table = false from htable]
    exact hunlocked ▸ (user_accounts hacc4 hrelease).2
  have hholds5 : Holds p k5 (Fs.locked h dp) := by
    obtain ⟨t, c, rfl⟩ := user_run hacquire
    obtain ⟨t, c, rfl⟩ := user_run hname
    obtain ⟨t, c, rfl⟩ := user_run hpassword
    obtain ⟨t, c, rfl⟩ := user_run hstatus
    obtain ⟨t, c, rfl⟩ := user_run hrelease
    exact hholds.of_view rfl
  obtain ⟨ip, k6, hnew, hr⟩ := of_bind hr
  rw [inode_bind_run] at hr
  obtain ⟨n, k7, hlink, hr⟩ := of_bind hr
  obtain ⟨_, k8, hput, hr⟩ := of_bind hr
  rw [table_bind_run] at hr
  obtain ⟨n, k9, hwrite, hr⟩ := of_bind hr
  obtain ⟨hip, hholds6, hd⟩ := newInode_run (by simp) hholds5 hnew
  have hholds8 := link_run hholds6 hdp hip hlink hput
  have hd8 : (k8.icache ip).d = owned .file 0 0 root := by
    rw [hd] at hholds8
    exact hholds8.pinned ip _ (Fs.setLock_locks _)
  have hvalid8 : (k8.icache ip).valid = true := hholds8.valid ip (by
    rw [pin, Fs.setLock_locks]
    trivial)
  have hdev : (k8.icache ip).d.type ≠ .dev := by
    rw [hd8]
    simp [owned, fresh]
  have hcard : ((inOp g).locked dp).refs.card < room := by
    rw [card_locked]
    change g.refs.card + 1 < room
    omega
  obtain ⟨_, ⟨hipfree, rfl⟩, hacc6⟩ := hacc5.run (newInode_usage hcard _ _ _ _) hnew
  have hne : ip ≠ dp := ne_of_unlocked hipfree
  have hcard6 : (((inOp g).locked dp).locked ip).refs.card < room := by
    rw [card_locked, card_locked]
    exact hroom
  have hacc7 := hacc6.run_eq (dirlink_usage hcard6 _ _) hlink
  rw [locked_swap hne] at hacc7
  have hdp' : ((inOp g).locked ip).locks dp = false := by
    rw [Usage.locked, setLock_of_ne (Ne.symm hne)]
    exact hfree
  have hacc9 := (hacc7.run_eq (iunlockput_usage hdp') hput).run_eq (writei_usage _ _) hwrite
  have hnofail : ¬ n < 0 := fun hn => hdev ((writei_neg_iff (image_length _) hwrite).mp hn).1
  rw [if_neg hnofail] at hr
  obtain ⟨_, k10, hunlock, hr⟩ := of_bind hr
  have hipfree' : g.locks ip = false := by
    rw [Usage.locked, setLock_of_ne hne] at hipfree
    exact hipfree
  have hrelease : (iunlock p ip).Obeys (usage p) ((inOp g).locked ip) fun _ g' => g' = inOp (g.addRef ip) :=
    obeys_call rfl fun _ _ => unlock_locked (g := inOp g) hipfree'
  have hacc10 := hacc9.run_eq hrelease hunlock
  have hbare : (k10.icache ip).bare = { (k8.icache ip).bare with lock := none } := by
    rw [iunlock_run] at hunlock
    obtain rfl := FsOp.iunlock_eq_ok hunlock
    rw [Kernel.setInode_self, ← writei_bare hdev hwrite ip]
    rfl
  have hseen : (seen k10 ip).type ≠ .dev := by
    have hvalid : (k10.icache ip).valid = true := by
      change (k10.icache ip).bare.valid = true
      rw [hbare]
      exact hvalid8
    rw [seen, if_pos hvalid]
    change (k10.icache ip).bare.d.type ≠ .dev
    rw [hbare]
    exact hdev
  rcases readShadow_run hacc10 hr with ⟨-, hacc'⟩ | ⟨hfails, -⟩
  · exact ⟨ip, hacc'⟩
  · exact (hseen hfails.1).elim

def UserOnly : Op → Prop
  | .user _ => True
  | _ => False

theorem userOnly_run {α : Type} {x : KProg α} {a : α} (hx : x.Uses UserOnly) (h : x.run Op.sem k = .ok (a, k')) :
    ∃ t c, k' = { k with utable := t, copies := c } := by
  refine hx.run_rel (R := fun s s' : Kernel => ∃ t c, s' = { s with utable := t, copies := c })
    (fun s => ⟨s.utable, s.copies, rfl⟩) ?_ ?_ h
  · rintro s _ _ ⟨t, c, rfl⟩ ⟨t', c', rfl⟩
    exact ⟨t', c', rfl⟩
  · intro o ho s b s' hs
    cases o with
    | user o => exact user_run ((congrFun (run_call Op.sem (.user o)) s).trans hs)
    | _ => exact ho.elim

theorem initUtable_only : initUtable.Uses UserOnly := by
  have hclear (is : List ℕ) : (clearSlots is).Uses UserOnly := by
    induction is with
    | nil => exact uses_pure _
    | cons i is ih => exact (uses_bind_call trivial fun _ => uses_call trivial).bind fun _ => ih
  refine uses_bind_call trivial fun _ => uses_bind_call trivial fun _ => ?_
  exact (hclear _).bind fun _ => uses_call trivial

/-- The entry for `/shadow` that `inituser` finds. -/
def shadowEntry (p : Slot) : KProg (Option (InodeIdx × ℕ)) := do
  initUtable
  beginOp
  match ← nameiparent p shadow with
  | none => return none
  | some (dp, name) =>
    ilock p dp
    dirlookup p dp name

/-- The file that `inituser` goes on to read, if there is an entry for it. -/
def shadowFile (p : Slot) : KProg (Option InodeIdx) := do
  initUtable
  beginOp
  match ← nameiparent p shadow with
  | none => return none
  | some (dp, name) =>
    ilock p dp
    match ← dirlookup p dp name with
    | none => return none
    | some _ =>
      iunlockput p dp
      namei p shadow

/-- How `inituser` ends, by what it finds under the path. -/
inductive Loaded (p : Slot) (k₀ k k' : Kernel) (g : Usage) : Prop
  | noDir (h : ¬ RootSearchable p k) {k₁ : Kernel} (hview : Holds.view p k₁ = Holds.view p k)
      (hname : (nameiparent p shadow).run Op.sem k₁ = .ok (none, k')) (hacc : Accounts p k₀ k' (inOp g))
  | created (h : RootSearchable p k) {k₁ k₂ : Kernel} (hentry : (shadowEntry p).run Op.sem k = .ok (none, k₁))
      (hfile : (shadowFile p).run Op.sem k = .ok (none, k₂)) {ip : InodeIdx}
      (hacc : Accounts p k₀ k' (withPtr (g.addRef ip) ip))
  | lost (h : RootSearchable p k) {e : InodeIdx × ℕ} {k₁ k₂ : Kernel}
      (hentry : (shadowEntry p).run Op.sem k = .ok (some e, k₁))
      (hfile : (shadowFile p).run Op.sem k = .ok (none, k₂)) (hacc : Accounts p k₀ k' (g.addRef e.1))
  | read (h : RootSearchable p k) {e : InodeIdx × ℕ} {ip : InodeIdx} {k₁ k₂ : Kernel}
      (hentry : (shadowEntry p).run Op.sem k = .ok (some e, k₁))
      (hfile : (shadowFile p).run Op.sem k = .ok (some ip, k₂)) (hread : ¬ ReadFails k₂ (seen k₂ ip))
      (hacc : Accounts p k₀ k' (withPtr ((g.addRef e.1).addRef ip) ip))
  | unread (h : RootSearchable p k) {e : InodeIdx × ℕ} {ip : InodeIdx} {k₁ k₂ : Kernel}
      (hentry : (shadowEntry p).run Op.sem k = .ok (some e, k₁))
      (hfile : (shadowFile p).run Op.sem k = .ok (some ip, k₂)) (hread : ReadFails k₂ (seen k₂ ip))
      (hacc : Accounts p k₀ k' ((withPtr ((g.addRef e.1).addRef ip) ip).setLock ip true))

theorem inituser_run (hholds : RootSearchable p k → Holds p k h) (hacc : Accounts p k₀ k g)
    (hroom : g.refs.card + 2 < room) (hcwd : ∀ i, g.cwd = some i → i ∈ g.refs)
    (hr : (inituser p).run Op.sem k = .ok (r, k')) : Loaded p k₀ k k' { g with table := false } := by
  obtain ⟨_, k₁, hinit, hr⟩ := of_bind hr
  obtain ⟨_, k₂, hbegin, hr⟩ := of_bind hr
  obtain ⟨o, k3, hname, hr⟩ := of_bind hr
  obtain ⟨t, c, hk1⟩ := userOnly_run initUtable_only hinit
  obtain ⟨l, hk2⟩ := log_run hbegin
  have hacc1 := hacc.run_eq initUtable_usage hinit
  have hroom : ({ g with table := false } : Usage).refs.card + 2 < room := hroom
  have hcwd : ∀ i, ({ g with table := false } : Usage).cwd = some i →
      i ∈ ({ g with table := false } : Usage).refs := hcwd
  generalize ({ g with table := false } : Usage) = g at hacc1 hroom hcwd ⊢
  have hopen : beginOp.Obeys (usage p) g fun _ g' => g' = inOp g :=
    obeys_call (o := Op.log LogOp.beginOp) trivial fun _ _ => rfl
  have hacc2 := hacc1.run_eq hopen hbegin
  have hroot : o.isSome ↔ RootSearchable p k := by
    have hroot := nameiparent_shadow_run hname
    rw [hk2, hk1] at hroot
    exact hroot
  have hquery {α : Type} {f : Option (InodeIdx × List UInt8) → KProg α} {a : α} {k'' : Kernel}
      (hf : (f o).run Op.sem k3 = .ok (a, k'')) :
      (do initUtable; beginOp; f (← nameiparent p shadow) : KProg α).run Op.sem k = .ok (a, k'') := by
    refine bind_ok hinit (bind_ok hbegin ?_)
    exact bind_ok hname hf
  have hcard : (inOp g).refs.card + 1 < room := Nat.lt_of_succ_lt hroom
  obtain ⟨_, rfl, hacc3⟩ := hacc2.run (namex_usage (g := inOp g) hcard hcwd shadow true) hname
  cases o with
  | none =>
    cases hr
    exact .noDir (fun hs => by simpa using hroot.mpr hs) (by rw [hk2, hk1]; rfl) hname hacc3
  | some o =>
    obtain ⟨dp, name⟩ := o
    have hsearch : RootSearchable p k := hroot.mp rfl
    have hholds2 : Holds p k₂ h := (hholds hsearch).of_view (by rw [hk2, hk1]; rfl)
    obtain ⟨_, rfl, hholds3⟩ := Holds.run hholds2 (namex_obeys shadow true) hname
    obtain ⟨_, k4, hlock, hr⟩ := of_bind hr
    obtain ⟨e, k5, hlookup, hr⟩ := of_bind hr
    have hentry : (shadowEntry p).run Op.sem k = .ok (e, k5) :=
      hquery (bind_ok hlock hlookup)
    have hlocked : (ilock p dp).Obeys (usage p) ((inOp g).addRef dp) fun _ g' =>
        g.locks dp = false ∧ g' = (inOp g).locked dp :=
      obeys_call rfl fun _ hfree => ⟨hfree, rfl⟩
    obtain ⟨_, ⟨hfree, rfl⟩, hacc4⟩ := hacc3.run hlocked hlock
    have hcard4 : ((inOp g).locked dp).refs.card < room := by
      rw [card_locked]
      exact hcard
    obtain ⟨_, rfl, hacc5⟩ := hacc4.run (dirlookup_usage hcard4 name) hlookup
    have hlock' : FsOp.ilock.sem p dp k3 = .ok ((), k4) := by
      rw [ilock_run] at hlock
      exact hlock
    obtain ⟨hdp, hholds4⟩ := hholds3.ilock (Multiset.mem_cons_self dp _) hlock'
    obtain ⟨_, rfl, hholds5⟩ := Holds.run hholds4 (dirlookup_obeys locked_owns name) hlookup
    cases e with
    | none =>
      obtain ⟨ip, hacc'⟩ := createShadow_run hholds5 hdp hacc5 hfree hroom hr
      have hfile : (shadowFile p).run Op.sem k = .ok (none, k5) := by
        refine hquery (bind_ok hlock ?_)
        exact bind_ok hlookup rfl
      exact .created hsearch hentry hfile hacc'
    | some e =>
      obtain ⟨_, k6, hput, hr⟩ := of_bind hr
      obtain ⟨o, k7, hnamei, hr⟩ := of_bind hr
      have hfile : (shadowFile p).run Op.sem k = .ok (o, k7) := by
        refine hquery (bind_ok hlock ?_)
        refine bind_ok hlookup ?_
        exact bind_ok hput hnamei
      have hswap : foundRef ((inOp g).locked dp) (some e) = ((inOp g).addRef e.1).locked dp := addRef_locked_swap
      rw [hswap] at hacc5
      have hacc6 := hacc5.run_eq (iunlockput_usage (g := (inOp g).addRef e.1) hfree) hput
      have hcard6 : ((inOp g).addRef e.1).refs.card + 1 < room := by
        rw [card_addRef]
        exact hroom
      have hcwd6 (j : InodeIdx) (hj : ((inOp g).addRef e.1).cwd = some j) : j ∈ ((inOp g).addRef e.1).refs :=
        Multiset.mem_cons_of_mem (hcwd j hj)
      obtain ⟨_, rfl, hacc7⟩ := hacc6.run (namei_usage hcard6 hcwd6 shadow) hnamei
      cases o with
      | none =>
        refine .lost hsearch hentry hfile (hacc7.run_eq ?_ hr)
        exact fail_usage (obeys_pure rfl)
      | some ip =>
        rcases readShadow_run (g := (g.addRef e.1).addRef ip) hacc7 hr with ⟨hread, hacc'⟩ | ⟨hread, hacc'⟩
        · exact .read hsearch hentry hfile hread hacc'
        · exact .unread hsearch hentry hfile hread hacc'

end Inituser

end Xv6.Users
