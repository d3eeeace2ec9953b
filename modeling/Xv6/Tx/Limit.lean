import Xv6.Fs.Walking
import Xv6.Mkfs.Image
import Xv6.Users.Table
import Xv6.Tx.Calls

/-! # The blocks of a transaction

The calls on user accounts come closest to the limit: the transaction of `useradd` writes
the file of the accounts and makes a directory. Then all calls together.
-/
namespace Xv6.Tx
open Prog Fs Sys Users Multiset
open KProg hiding panic

variable {α β : Type} {p : Slot} {A : Others p} {m : Mode} {sb : Superblock} {K : Finset Word} {n : ℕ} {s t : Pt}
  {i dp ip : InodeIdx}

section Accounts

theorem user_bind {f : o.Ans → KProg β} {Q : β → Pt → Prop} (hs : Budget sb K n s)
    (hf : ∀ b t, Idle sb p s t → Does A m (f b) t Q) : Does A m (user o >>= f) s Q := quiet_bind trivial hs hf

theorem image_length (M : Mem) : (image M).length ≤ BSIZE := by
  rw [image, List.length_map, List.length_range]
  decide

theorem addEntry_does (username password : CStr) (hs : Budget sb K n s) :
    Does A m (addEntry username password) s fun r t => Budget sb K n t ∧ ∀ utemp ∈ r, utemp.length ≤ BSIZE := by
  have hnone {u : Pt} (hu : Idle sb p s u) : Does A m (pure none) u fun (r : Option (List UInt8)) t =>
      Budget sb K n t ∧ ∀ utemp ∈ r, utemp.length ≤ BSIZE := does_pure ⟨hu.budget hs, fun _ h => by cases h⟩
  refine user_bind hs fun _ t1 h1 => user_bind (h1.budget hs) fun (T : UTable) t2 h2 => ?_
  have h2 := h1.trans h2
  dsimp only
  cases findName T.mem username with
  | some => exact hnone h2
  | none =>
    cases findFree T.mem with
    | none => exact hnone h2
    | some =>
      refine does_ite (fun _ => hnone h2) fun _ => ?_
      refine user_bind (h2.budget hs) fun _ t3 h3 => user_bind ((h2.trans h3).budget hs) fun _ t4 h4 => ?_
      have h4 := (h2.trans h3).trans h4
      refine user_bind (h4.budget hs) fun _ t5 h5 => user_bind ((h4.trans h5).budget hs) fun (T' : UTable) t6 h6 => ?_
      have h6 := (h4.trans h5).trans h6
      refine user_bind (h6.budget hs) fun _ t7 h7 => does_pure ⟨(h6.trans h7).budget hs, fun utemp h => ?_⟩
      cases h
      exact image_length T'.mem

/-- Everything that is written here is paid for only once. -/
theorem makeHome_does (username : CStr) (hs : Budget sb K 7 s) (hdp : dp ∈ s.notes.refs) :
    Does A m (makeHome p dp username) s fun _ t => Solvent sb 0 t := by
  refine (ialloc_does .dir hs).bind fun fp t ⟨hb, _, hrefs⟩ => ?_
  have hfp_mem : fp ∈ t.notes.refs := by
    rw [hrefs]
    exact mem_cons_self ..
  have hdp_mem : dp ∈ t.notes.refs := by
    rw [hrefs]
    exact mem_cons_of_mem hdp
  refine does_call_bind hb.fits fun _ t1 hlock1 => ?_
  obtain ⟨hb1, hkept1, hrefs1, hdp1, -, -⟩ := ilock_turn hb hlock1
  refine does_call_bind hb1.fits fun _ t2 hlock2 => ?_
  obtain ⟨hb2, hkept2, hrefs2, hfp2, hne, hinum2⟩ := ilock_turn hb1 hlock2
  rw [hrefs1] at hinum2 hrefs2
  have hdp2 := hkept2.locks dp _ hdp1
  have hfp_inum : (entry t2 fp).inum = (entry t fp).inum := (hinum2 hfp_mem).trans (hkept1.named fp hfp_mem)
  have hpaid : sb.iblock (entry t2 fp).inum ∈ insert (sb.iblock (entry t fp).inum) K := by
    rw [hfp_inum]
    exact Finset.mem_insert_self ..
  refine store_bind hb2 fun t3 hb3 h3 => store_bind hb3 fun t4 hb4 h4 => store_bind hb4 fun t5 hb5 h5 => ?_
  have h5 := (h3.trans h4).trans h5
  have hfp5 := h5.kept.locks fp _ hfp2
  refine (iupdate_does hb5 hfp5.lock (by rwa [hfp5.inum])).bind fun _ t6 ⟨hb6, h6⟩ => ?_
  have h6 := h5.trans h6
  refine inode_bind (hb6.pay (sb.iblock (entry t1 dp).inum)) fun d t7 h7 _ => ?_
  refine store_bind (h7.budget (hb6.pay (sb.iblock (entry t1 dp).inum))) fun t8 hb8 h8 => ?_
  have h8 := (h6.trans h7.toTight).trans h8
  have hdp8 := h8.kept.locks dp _ hdp2
  refine (iupdate_does hb8 hdp8.lock (by rw [hdp8.inum]; exact Finset.mem_insert_self ..)).bind fun _ t9 ⟨hb9, h9⟩ => ?_
  have h9 := h8.trans h9
  refine dots_does hb9 (h9.kept.locks fp _ hfp2) (Finset.mem_insert_of_mem hpaid) fun u K' hsub hbu hkept hrefs' => ?_
  rw [h9.refs, hrefs2] at hkept hrefs'
  have hkept' : Kept p t.notes.refs t2 u := (hrefs2 ▸ h9.kept).trans hkept
  refine inode_bind hbu fun d' u1 hu1 _ => ?_
  have hkept3 : Kept p t.notes.refs t2 u1 := hkept'.trans (hrefs' ▸ hu1.toTight.kept)
  have hdpu := hkept3.locks dp _ hdp2
  have hpaid' {v : Pt} {K'' : Finset Word} (hsub' : K' ⊆ K'') (hv : Locks p v dp (entry t1 dp).inum) :
      sb.iblock (entry v dp).inum ∈ K'' := by
    rw [hv.inum]
    exact hsub' (hsub (Finset.mem_insert_self ..))
  refine (dirlink_does username.bytes _ (.inl (hu1.budget hbu)) hdpu.lock (hpaid' Finset.Subset.rfl hdpu)).bind
    fun r u2 ⟨K'', hsub', hb', hkept4, hrefs4, _⟩ => ?_
  have hrefs5 : u2.notes.refs = t.notes.refs := by rw [hrefs4, hu1.refs, hrefs']
  have hkept5 : Kept p t.notes.refs t2 u2 := hkept3.trans (by
    rw [hu1.refs, hrefs'] at hkept4
    exact hkept4)
  have hpaid'' {v : Pt} (hv : Locks p v fp (entry t2 fp).inum) : sb.iblock (entry v fp).inum ∈ K'' := by
    rw [hv.inum]
    exact hsub' (hsub (Finset.mem_insert_of_mem hpaid))
  have hfpv := hkept5.locks fp _ hfp2
  refine (iupdate_does hb' hfpv.lock (hpaid'' hfpv)).bind fun _ v1 ⟨hb1', hv1⟩ => ?_
  have hdpv := hv1.kept.locks dp _ (hkept5.locks dp _ hdp2)
  refine (iupdate_does hb1' hdpv.lock (hpaid' hsub' hdpv)).bind fun _ v2 ⟨hb2', hv2⟩ => ?_
  have hv := hv1.trans hv2
  have hrefsv : v2.notes.refs = t.notes.refs := hv.refs.trans hrefs5
  refine (iunlockput_paid hb2' (hrefsv ▸ hfp_mem) (hpaid'' (hv.kept.locks fp _ hfpv))).bind fun _ v3 ⟨hb3', hput⟩ => ?_
  -- the two are not the same inode: the second could be locked while the first was
  have hdp_ne : dp ≠ fp := (hne dp hdp1.lock).1
  have hdp3 := hput.loosed.locks dp _ hdp_ne (hv2.kept.locks dp _ hdpv)
  have hdp_left : dp ∈ v3.notes.refs := by
    rw [hput.refs, hrefsv]
    exact (mem_erase_of_ne hdp_ne).mpr hdp_mem
  exact (iunlockput_paid hb3' hdp_left (hpaid' hsub' hdp3)).mono fun _ v4 ⟨hb4', _⟩ => ⟨K'', hb4'⟩

theorem home_does (username : CStr) (hs : Budget sb K 7 s) : Does A m (home p username) s fun _ t => Solvent sb 0 t := by
  refine (namei_does hs fun h => (h rfl).elim).bind fun r t ⟨hb, hlookup⟩ => ?_
  cases r with
  | none => exact does_pure (hb.solvent (Nat.zero_le _))
  | some dp =>
    refine (dirlookup_does username.bytes hb).bind fun r t1 ⟨hb1, _, hnone, _⟩ => ?_
    cases r with
    | some => exact endOp_pure ⟨K, hb1⟩
    | none =>
      have hdp : dp ∈ t1.notes.refs := by
        rw [(hnone rfl).1.refs, hlookup.refs]
        exact mem_cons_self ..
      exact (makeHome_does username hb1 hdp).bind fun _ t2 ht2 => endOp_pure ht2

theorem writeShadow_does {bad good : InodeIdx → KProg ℤ} {Q : ℤ → Pt → Prop} (hlen : utemp.length ≤ BSIZE)
    (hs : Solvent sb 0 s) (hbad : ∀ ip t K, Budget sb K 7 t → Does A m (bad ip) t Q)
    (hgood : ∀ ip t K, Budget sb K 7 t → Does A m (good ip) t Q) : Does A m (writeShadow p utemp bad good) s Q := by
  refine begin_bind hs fun t hb _ _ => user_bind hb fun (T : UTable) t1 h1 => ?_
  have hb1 := h1.budget hb
  cases T.ptr with
  | none => exact does_panic hb1.fits
  | some ip =>
    refine does_call_bind hb1.fits fun _ t2 hlock => ?_
    obtain ⟨hb2, -, -, hlocks, -⟩ := ilock_turn hb1 hlock
    have hpay := hb2.pay (sb.iblock (entry t2 ip).inum)
    refine (writei_of_file hpay (Nat.le_succ 7) hlocks.lock fun hdev =>
      writei_first hpay hlocks.lock hdev (Finset.mem_insert_self ..) hlen).bind fun r t3 ⟨K', _, hb3, _⟩ => ?_
    exact does_ite (fun _ => hbad ip t3 K' hb3) fun _ => hgood ip t3 K' hb3

theorem useradd_does (username password : CStr) (hs : Solvent sb 0 s) :
    Does A m (useradd p username password) s fun _ t => Solvent sb 0 t := by
  obtain ⟨K, hb⟩ := hs
  refine quiet_bind (o := .proc (.proc p)) trivial hb fun (pr : Proc) t hidle => ?_
  have hb1 := hidle.budget hb
  refine does_ite (fun _ => does_pure ⟨K, hb1⟩) fun _ => (addEntry_does username password hb1).bind fun r t2 ⟨hb2, hlen⟩ => ?_
  cases r with
  | none => exact does_pure ⟨K, hb2⟩
  | some utemp =>
    refine writeShadow_does (hlen utemp rfl) ⟨K, hb2⟩ (fun ip u K' hbu => fail_does ?_) fun ip u K' hbu => ?_
    · exact does_call hbu.fits fun _ v hunlock => (iunlock_turn hbu hunlock).1.solvent (Nat.zero_le _)
    · exact does_call_bind hbu.fits fun _ v hunlock => home_does username (iunlock_turn hbu hunlock).1

theorem readShadow_does (hs : Budget sb K (n + 1) s) : Does A m (readShadow p ip) s fun _ t => Solvent sb 0 t := by
  refine user_bind hs fun _ t1 h1 => user_bind (h1.budget hs) fun _ t2 h2 => ?_
  have h2 := h1.trans h2
  refine user_bind (h2.budget hs) fun _ t3 h3 => ?_
  have hb3 := (h2.trans h3).budget hs
  refine does_call_bind hb3.fits fun _ t4 hlock => ?_
  obtain ⟨hb4, -, -, hlocks, -⟩ := ilock_turn hb3 hlock
  refine (readi_any hb4 hlocks.lock (show (BitVec.ofNat 32 SIZEOF_U).toNat ≤ BSIZE by decide)).bind
    fun r t5 ⟨K', _, hb5, _⟩ => user_bind hb5 fun _ t6 h6 => ?_
  have hb6 := h6.budget hb5
  refine does_ite (fun _ => fail_pure hb6) fun _ => does_call_bind hb6.fits fun _ t7 hunlock => ?_
  exact endOp_pure ⟨K', (iunlock_turn hb6 hunlock).1⟩

theorem createShadow_does {inum : ℕ} (name : List UInt8) (hs : Budget sb K 9 s) (hdp : Locks p s dp inum) :
    Does A m (createShadow p dp name) s fun _ t => Solvent sb 0 t := by
  refine user_bind hs fun _ t1 h1 => user_bind (h1.budget hs) fun _ t2 h2 => ?_
  have h2 := h1.trans h2
  refine user_bind (h2.budget hs) fun _ t3 h3 => user_bind ((h2.trans h3).budget hs) fun _ t4 h4 => ?_
  have h4 := (h2.trans h3).trans h4
  refine user_bind (h4.budget hs) fun _ t5 h5 => ?_
  have h5 := h4.trans h5
  have hdp5 := h5.toTight.kept.locks dp inum hdp
  refine (newInode_does .file 0 0 root (h5.budget hs)).bind fun ip t6 ⟨K6, _, hb6, hkept6, _, hip, hpaid, hne⟩ => ?_
  have hdp6 := hkept6.locks dp inum hdp5
  have hpay := hb6.pay (sb.iblock inum)
  refine inode_bind hpay fun d t7 h7 _ => ?_
  have hdp7 := h7.toTight.kept.locks dp inum hdp6
  refine (dirlink_does name _ (.inl (h7.budget hpay)) hdp7.lock (by rw [hdp7.inum]; exact Finset.mem_insert_self ..)).bind
    fun r t8 ⟨K8, hsub, hb8, hkept8, _⟩ => (iunlockput_any hb8).bind fun _ t9 ⟨hb9, hput⟩ => ?_
  have hip8 := hkept8.locks ip _ (h7.toTight.kept.locks ip _ hip)
  have hip9 := hput.loosed.locks ip _ (hne dp inum hdp5).symm hip8
  refine user_bind hb9 fun (T : UTable) u hu => ?_
  have hbu := hu.budget hb9
  have hipu := hu.toTight.kept.locks ip _ hip9
  have hpaidu : sb.iblock (entry u ip).inum ∈ K8 := by
    rw [hipu.inum]
    exact hsub (Finset.mem_insert_of_mem hpaid)
  refine (writei_of_file hbu (Nat.le_succ 3) hipu.lock fun hdev =>
    writei_first hbu hipu.lock hdev hpaidu (image_length T.mem)).bind fun r v ⟨K', _, hbv, _⟩ => ?_
  refine does_ite (fun _ => fail_does ?_) fun _ => ?_
  · exact does_call hbv.fits fun _ w hunlock => (iunlock_turn hbv hunlock).1.solvent (Nat.zero_le _)
  · exact does_call_bind hbv.fits fun _ w hunlock => readShadow_does (iunlock_turn hbv hunlock).1

theorem loadShadow_does (hs : Solvent sb 0 s) : Does A m (loadShadow p) s fun _ t => Solvent sb 0 t := by
  refine begin_bind hs fun t hb _ _ => (namex_does true hb fun h => (h rfl).elim).bind fun r t1 ⟨hb1, _⟩ => ?_
  cases r with
  | none => exact does_pure (hb1.solvent (Nat.zero_le _))
  | some x =>
    refine does_call_bind hb1.fits fun _ t2 hlock => ?_
    obtain ⟨hb2, -, -, hdp, -⟩ := ilock_turn hb1 hlock
    refine (dirlookup_does x.2 hb2).bind fun r t3 ⟨hb3, hlookup, _⟩ => ?_
    cases r with
    | none => exact createShadow_does x.2 hb3 (hlookup.kept.locks x.1 _ hdp)
    | some =>
      refine (iunlockput_any hb3).bind fun _ t4 ⟨hb4, _⟩ => (namei_does hb4 fun h => (h rfl).elim).bind fun r t5 ⟨hb5, _⟩ => ?_
      cases r with
      | none => exact fail_pure hb5
      | some => exact readShadow_does hb5

end Accounts

/-- The calls that open transactions; `filewrite` opens one for each chunk. -/
inductive Call
  | filewrite (f : FileIdx) (ip : InodeIdx) (src : List UInt8)
  | open (path : Option CStr) (omode : Option Word)
  | mkdir (path : Option CStr)
  | mknod (path : Option CStr) (major minor : Option Word)
  | link (old new : Option CStr)
  | unlink (path : Option CStr)
  | fileclose (f : FileIdx)
  | useradd (username password : CStr)
  | loadShadow

def Call.prog (p : Slot) : Call → KProg Unit
  | .filewrite f ip src => do let _ ← writeInode p f ip src
  | .open path omode => do let _ ← sysOpen p path omode
  | .mkdir path => do let _ ← sysMkdir p path
  | .mknod path major minor => do let _ ← sysMknod p path major minor
  | .link old new => do let _ ← sysLink p old new
  | .unlink path => do let _ ← sysUnlink p path
  | .fileclose f => Sys.fileclose p f
  | .useradd username password => do let _ ← Users.useradd p username password
  | .loadShadow => do let _ ← Users.loadShadow p

/-- The process holds the reference to its current directory, and has passed nothing. -/
def first (p : Slot) (k : Kernel) : Pt where
  state := k
  notes := ⟨(k.pt.proc p).cwd.elim 0 ({·}), ∅⟩
  time := 0

variable {k : Kernel}

theorem first_holdsCwd : HoldsCwd p (first p k) := fun i hi => by
  change i ∈ (k.pt.proc p).cwd.elim 0 ({·})
  rw [show (k.pt.proc p).cwd = some i from hi]
  exact mem_singleton_self i

theorem first_solvent (hmap : OneMapBlock k) (hcwd : CwdHeld k p) : Solvent k.sb 0 (first p k) := by
  refine ⟨{k.sb.mapBlock}, rfl, hmap, fun i hi => ?_, Finset.mem_singleton_self _, ?_⟩
  · change i ∈ (k.pt.proc p).cwd.elim 0 ({·}) at hi
    change (((k.pt.proc p).cwd.elim 0 ({·}) : Multiset InodeIdx).count i : ℤ) ≤ (k.icache i).ref
    cases hc : (k.pt.proc p).cwd with
    | none =>
      rw [hc] at hi
      exact absurd hi (notMem_zero i)
    | some =>
      rw [hc] at hi
      obtain rfl := mem_singleton.mp hi
      have hpos := hcwd i hc
      rw [Option.elim_some, count_singleton_self]
      push_cast
      omega
  · change (∅ ∪ {k.sb.mapBlock} : Finset Word).card + 0 ≤ MAXOPBLOCKS
    rw [Finset.empty_union, Finset.card_singleton]
    decide

theorem call_does (c : Call) (hs : Solvent sb 0 s) (hcwd : HoldsCwd p s) :
    Does A m (c.prog p) s fun _ t => Solvent sb 0 t := by
  cases c with
  | filewrite f ip src => exact (writeInode_does src hs).bind fun _ _ ht => does_pure ht
  | «open» path omode => exact (sysOpen_does path omode hs hcwd).bind fun _ _ ht => does_pure ht
  | mkdir path => exact (sysMkdir_does path hs hcwd).bind fun _ _ ht => does_pure ht
  | mknod path major minor => exact (sysMknod_does path major minor hs hcwd).bind fun _ _ ht => does_pure ht
  | link old new => exact (sysLink_does old new hs hcwd).bind fun _ _ ht => does_pure ht
  | unlink path => exact (sysUnlink_does path hs hcwd).bind fun _ _ ht => does_pure ht
  | fileclose => exact fileclose_does hs (Nat.zero_le 8)
  | useradd username password => exact (useradd_does username password hs).bind fun _ _ ht => does_pure ht
  | loadShadow => exact (loadShadow_does hs).bind fun _ _ ht => does_pure ht

/-- Whatever the other processes do, no transaction passes more than `MAXOPBLOCKS` blocks to
`log_write`, if no path lookup frees an inode and no entry of a directory is read where the
directory has no block. -/
theorem passed_le_maxopblocks (p : Slot) (A : Others p) (c : Call) (k : Kernel) (hmap : OneMapBlock k) (hcwd : CwdHeld k p)
    (hlookups : Spares (sem A) FreesInode (LooksUp p) (c.prog p) (first p k))
    (hentries : Spares (sem A) ClaimsBlock (ReadsEntry p) (c.prog p) (first p k)) (y : KProg Unit) (t : Pt)
    (hc : Comes (sem A) (c.prog p) (first p k) y t) : t.notes.passed.card ≤ MAXOPBLOCKS := by
  have hdoes := call_does (A := A) (m := ⟨false, false⟩) c (first_solvent hmap hcwd) first_holdsCwd
  have hwp := hdoes ⟨hentries, hlookups, (fun h => by cases h), fun h => by cases h⟩
  exact (hwp.mono fun _ _ ⟨_, hb⟩ => hb.fits).visits hc

section Examples

def rootNode : Dinode :=
  { type := .dir, nlink := 1, size := 3 * BitVec.ofNat 32 SIZEOF_DIRENT, addrs := fun n => if n = 0 then 59 else 0, userid := root,
    mode := MODE_WUSR ||| MODE_XUSR }

def entryName : CStr := CStr.ofString "d"

def rootEntries : List UInt8 := direntBytes 1 dot ++ direntBytes 1 dotdot ++ direntBytes 8 entryName.bytes

/-- A disk as `mkfs` lays it out, with an entry for inode 8 in the root directory. -/
def withEntry (d : Dinode) : Kernel :=
  { Kernel.zero with
    pt := ⟨fun _ => { userid := root, cwd := some 0 }, 2, none⟩
    sb := ⟨Mkfs.FSSIZE, Mkfs.NINODES, Mkfs.inodestart, Mkfs.bmapstart⟩
    dinode := fun j => if j = ROOTINO then rootNode else if j = 8 then d else {}
    bitmap := fun b => decide (b ≤ 59)
    block := fun b a => if b = 59 then rootEntries.getD a 0 else 0
    icache := fun i => if i = 0 then { inum := ROOTINO, ref := 1, valid := true, d := rootNode } else {} }

theorem withEntry_oneMapBlock (d : Dinode) : OneMapBlock (withEntry d) := by
  refine ⟨(by decide : Mkfs.FSSIZE ≤ BPB), fun b hb => ?_, rfl⟩
  have hle : b ≤ 59 := of_decide_eq_true hb
  exact hle.trans_lt (by decide)

theorem withEntry_cwdHeld (d : Dinode) : CwdHeld (withEntry d) 0 := by
  intro i hi
  cases hi
  exact Int.one_pos

/-- The second link to a file is removed. -/
theorem passed_le_maxopblocks_unlink : ∃ t, Comes (sem (Others.none 0)) ((Call.unlink (some entryName)).prog 0)
    (first 0 (withEntry { type := .file, nlink := 2 })) (pure ()) t ∧ t.notes.passed.card = 2 ∧
      t.notes.passed.card ≤ MAXOPBLOCKS := by
  have hrun : (((Call.unlink (some entryName)).prog 0).run (sem (Others.none 0))).test
      (first 0 (withEntry { type := .file, nlink := 2 })) (fun _ t => decide (t.notes.passed.card = 2)) = true := by decide +kernel
  have hfree : Avoids (sem (Others.none 0)) FreesInode ((Call.unlink (some entryName)).prog 0)
      (first 0 (withEntry { type := .file, nlink := 2 })) := avoids_of_visited (by decide +kernel)
  have hclaim : Avoids (sem (Others.none 0)) ClaimsBlock ((Call.unlink (some entryName)).prog 0)
      (first 0 (withEntry { type := .file, nlink := 2 })) := avoids_of_visited (by decide +kernel)
  obtain ⟨_, t, h, hcard⟩ := Comp.test_eq_true hrun
  have hcomes := comes_of_run h pure
  rw [bind_pure] at hcomes
  refine ⟨t, hcomes, of_decide_eq_true hcard, ?_⟩
  exact passed_le_maxopblocks 0 (Others.none 0) (.unlink (some entryName)) _ (withEntry_oneMapBlock _) (withEntry_cwdHeld _)
    hfree.spares hclaim.spares _ t hcomes

def holedDir : Dinode := { type := .dir, nlink := 2, size := 6 * BitVec.ofNat 32 BSIZE + BitVec.ofNat 32 SIZEOF_DIRENT }

/-- Looking through such a directory for entries gives it its blocks, all in one transaction. -/
theorem unlink_holed_passes_eleven : OneMapBlock (withEntry holedDir) ∧ CwdHeld (withEntry holedDir) 0 ∧
    Spares (sem (Others.none 0)) FreesInode (LooksUp 0) ((Call.unlink (some entryName)).prog 0) (first 0 (withEntry holedDir)) ∧
    ∃ y t, Comes (sem (Others.none 0)) ((Call.unlink (some entryName)).prog 0) (first 0 (withEntry holedDir)) y t ∧
      t.notes.passed.card = MAXOPBLOCKS + 1 := by
  have hrun : (((Call.unlink (some entryName)).prog 0).run (sem (Others.none 0))).test (first 0 (withEntry holedDir))
      (fun _ t => decide (t.notes.passed.card = MAXOPBLOCKS + 1)) = true := by decide +kernel
  have hfree : Avoids (sem (Others.none 0)) FreesInode ((Call.unlink (some entryName)).prog 0)
      (first 0 (withEntry holedDir)) := avoids_of_visited (by decide +kernel)
  obtain ⟨_, t, h, hcard⟩ := Comp.test_eq_true hrun
  have hcomes := comes_of_run h pure
  rw [bind_pure] at hcomes
  exact ⟨withEntry_oneMapBlock _, withEntry_cwdHeld _, hfree.spares, _, t, hcomes, of_decide_eq_true hcard⟩

end Examples
end Xv6.Tx
