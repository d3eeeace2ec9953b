import Xv6.Sys.UserCopy
import Xv6.Tx.Dirs

/-! # What the system calls pass to the log

Each call pays for the blocks of its transaction as it goes. Where there is room for it an
inode is paid for again, which saves keeping track of which inode it is.
-/
namespace Xv6.Tx
open Prog Fs Sys Multiset Finset
open KProg hiding panic

variable {α β : Type} {p : Slot} {A : Others p} {m : Mode} {sb : Superblock} {K : Finset Word} {n : ℕ} {s t : Pt}
  {i dp : InodeIdx}

/-- There is room for `n` more blocks. -/
def Solvent (sb : Superblock) (n : ℕ) (s : Pt) : Prop := ∃ K, Budget sb K n s

theorem Budget.solvent (h : Budget sb K n s) (hk : k ≤ n) : Solvent sb k s := ⟨K, h.mono hk⟩

theorem Solvent.idle (h : Solvent sb n s) (hidle : Idle sb p s t) : Solvent sb n t := h.imp fun _ hb => hidle.budget hb

variable {Q : β → Pt → Prop} {f : FileIdx}

section Brackets

theorem begin_bind {f : Unit → KProg β} (hs : Solvent sb n s)
    (hf : ∀ t, Budget sb {sb.mapBlock} 9 t → Still p s t → (HoldsCwd p s → HoldsCwd p t) → Does A m (f ()) t Q) :
    Does A m (beginOp >>= f) s Q := by
  obtain ⟨K, hs⟩ := hs
  refine does_call_bind hs.fits fun _ t ho => ?_
  have hroom : ({sb.mapBlock} : Finset Word).card + 9 ≤ MAXOPBLOCKS := by
    rw [Finset.card_singleton]
    decide
  obtain ⟨hb, hstill⟩ := beginOp_turn hs (mem_singleton_self sb.mapBlock) hroom ho
  refine hf t hb hstill fun hcwd i hi => ?_
  have hpt := LogOp.sem_fixes (f := fun k => (k.pt.proc p).cwd) (fun _ _ => rfl) .beginOp _ _ _ (sem_eq_ok ho).1
  rw [hstill.refs]
  exact hcwd i (((A.respects s.time s.notes s.state).cwd).symm.trans (hpt.symm.trans hi))

theorem endOp_does (hs : Solvent sb n s) : Does A m endOp s fun _ t => Solvent sb n t := by
  obtain ⟨K, hs⟩ := hs
  refine quiet_bind (o := .log .endOp) trivial hs fun (last : Bool) t hidle => ?_
  have hb := hidle.budget hs
  refine does_ite (fun _ => ?_) fun _ => does_pure ⟨K, hb⟩
  refine quiet_bind (o := .log .commit) trivial hb fun _ u hidle' => ?_
  exact (quiet_call (o := .log .endCommit) trivial (hidle'.budget hb)).mono fun _ v hv => ⟨K, hv.budget (hidle'.budget hb)⟩

theorem endOp_pure {a : α} (hs : Solvent sb n s) : Does A m (endOp >>= fun _ => pure a) s fun _ t => Solvent sb 0 t :=
  (endOp_does hs).bind fun _ _ ⟨_, hb⟩ => does_pure (hb.solvent (Nat.zero_le n))

theorem fail_does {undo : KProg Unit} (h : Does A m undo s fun _ t => Solvent sb 0 t) :
    Does A m (fail undo) s fun _ t => Solvent sb 0 t :=
  h.bind fun _ _ ht => endOp_pure ht

theorem fail_pure (hs : Budget sb K n s) : Does A m (fail (pure ())) s fun _ t => Solvent sb 0 t :=
  fail_does (does_pure (hs.solvent (Nat.zero_le n)))

theorem fail_put (hs : Budget sb K (n + 1) s) : Does A m (fail (iunlockput p i)) s fun _ t => Solvent sb 0 t :=
  fail_does ((iunlockput_any hs).mono fun _ _ ⟨hb, _⟩ => hb.solvent (Nat.zero_le n))

end Brackets

section Updates

theorem iupdate_does (hs : Budget sb K n s) (hi : (entry s i).lock = some p) (hpaid : sb.iblock (entry s i).inum ∈ K) :
    Does A m (iupdate i) s fun _ t => Budget sb K n t ∧ Tight p s t :=
  does_call hs.fits fun _ _ ho => (iupdate_turn hs hi hpaid ho).imp id fun h => h.toTight

theorem store_bind {f : Unit → KProg β} (hs : Budget sb K n s)
    (hf : ∀ t, Budget sb K n t → Tight p s t → Does A m (f ()) t Q) : Does A m (store i u >>= f) s Q :=
  does_call_bind hs.fits fun _ t ho => hf t (store_turn hs ho).1 (store_turn hs ho).2.1

theorem lessLink_does (hs : Budget sb K (n + 1) s) (hi : (entry s i).lock = some p) :
    Does A m (lessLink i) s fun _ t => ∃ K', K ⊆ K' ∧ Budget sb K' n t ∧ Tight p s t := by
  refine inode_bind hs fun ip t hidle _ => store_bind (hidle.budget hs) fun u hb htight => ?_
  have hall := hidle.toTight.trans htight
  refine (iupdate_does (hb.pay (sb.iblock (entry u i).inum)) (hall.grip i hi).1 (mem_insert_self ..)).mono ?_
  exact fun _ v ⟨hb', htight'⟩ => ⟨_, subset_insert .., hb', hall.trans htight'⟩

theorem newInode_does (type : InodeType) (major minor : BitVec 16) (owner : CStr) (hs : Budget sb K (n + 1) s) :
    Does A m (newInode p type major minor owner) s fun ip t => ∃ K', K ⊆ K' ∧ Budget sb K' n t ∧
      Kept p s.notes.refs s t ∧ t.notes.refs = ip ::ₘ s.notes.refs ∧ Locks p t ip (entry t ip).inum ∧
      sb.iblock (entry t ip).inum ∈ K' ∧ ∀ j inum, Locks p s j inum → j ≠ ip := by
  refine (ialloc_does type hs).bind fun ip t ⟨hb, hkept, hrefs⟩ => does_call_bind hb.fits fun _ t1 hlock => ?_
  obtain ⟨hb1, hkept1, hrefs1, hlocks, hne, hinum⟩ := ilock_turn hb hlock
  have hinum : (entry t1 ip).inum = (entry t ip).inum := hinum (by rw [hrefs]; exact mem_cons_self ..)
  refine store_bind hb1 fun t2 hb2 htight2 => store_bind hb2 fun t3 hb3 htight3 => store_bind hb3 fun t4 hb4 htight4 => ?_
  have htight := (htight2.trans htight3).trans htight4
  obtain ⟨hlock4, hinum4, -⟩ := htight.grip ip hlocks.lock
  have hpaid : sb.iblock (entry t4 ip).inum ∈ insert (sb.iblock (entry t ip).inum) K := by
    rw [hinum4, hinum]
    exact mem_insert_self ..
  refine (iupdate_does hb4 hlock4 hpaid).bind fun _ t5 ⟨hb5, htight5⟩ => does_pure ?_
  have hall := htight.trans htight5
  have hinum5 : (entry t5 ip).inum = (entry t1 ip).inum := (hall.grip ip hlocks.lock).2.1
  have hsub : s.notes.refs ⊆ t.notes.refs := by
    rw [hrefs]
    exact subset_cons ..
  refine ⟨_, subset_insert .., hb5, hkept.trans ((hkept1.trans (hrefs1 ▸ hall.kept)).mono hsub), ?_, ?_, ?_, ?_⟩
  · rw [hall.refs, hrefs1, hrefs]
  · rw [hinum5]
    exact hall.kept.locks ip _ hlocks
  · rw [hinum5, hinum]
    exact mem_insert_self ..
  · exact fun j inum hj => (hne j (hkept.locks j inum hj).lock).1

end Updates

section Write

theorem writeChunk_does {src : List UInt8} (hs : Solvent sb 0 s) (hlen : src.length ≤ writeMax) :
    Does A m (writeChunk p f i src) s fun _ t => Solvent sb 0 t := by
  refine begin_bind hs fun t hb _ _ => does_call_bind hb.fits fun _ t1 hlock => ?_
  obtain ⟨hb1, -, -, hlocks, -⟩ := ilock_turn hb hlock
  refine quiet_bind (o := .file (.file f)) trivial hb1 fun (ff : File) t2 hidle => ?_
  obtain ⟨hlock2, hinum2, -⟩ := hidle.grip i hlocks.lock
  have hpay := (hidle.budget hb1).pay (sb.iblock (entry t2 i).inum)
  have hfits : ff.off.toNat % BSIZE + src.length ≤ 4 * BSIZE := by
    have hmax : writeMax = 3 * BSIZE := rfl
    have hmod : ff.off.toNat % BSIZE < BSIZE := Nat.mod_lt _ (by decide)
    omega
  refine (writei_any (n := 3) 4 hpay hlock2 (mem_insert_self ..) hfits).bind fun r t3 ⟨K', _, hb3, _⟩ => ?_
  have hend (u : Pt) (hbu : Budget sb K' 3 u) :
      Does A m (iunlock p i >>= fun _ => endOp >>= fun _ => pure r) u fun _ t => Solvent sb 0 t :=
    does_call_bind hbu.fits fun _ v hunlock => endOp_pure ⟨K', (iunlock_turn hbu hunlock).1⟩
  refine does_ite (fun _ => ?_) fun _ => hend t3 hb3
  exact quiet_bind (o := .file (.setOff f _)) trivial hb3 fun _ u hu => hend u (hu.budget hb3)

theorem writeInode_does (src : List UInt8) (hs : Solvent sb 0 s) :
    Does A m (writeInode p f i src) s fun _ t => Solvent sb 0 t := by
  have hfrom (turns : ℕ) (src : List UInt8) (s : Pt) (hs : Solvent sb 0 s) :
      Does A m (writeFrom p f i turns src) s fun _ t => Solvent sb 0 t := by
    induction turns generalizing src s with
    | zero => exact does_pure hs
    | succ turns ih =>
      refine does_ite (fun _ => does_pure hs) fun _ => (writeChunk_does hs (List.length_take_le ..)).bind fun r t ht => ?_
      refine does_ite (fun _ => does_pure ht) fun _ => does_ite (fun _ => ?_) fun _ => ih _ t ht
      obtain ⟨K, hb⟩ := ht
      exact does_panic hb.fits
  exact (hfrom _ src s hs).bind fun _ t ht => does_ite (fun _ => does_pure ht) fun _ => does_pure ht

end Write

section Close

theorem fileclose_does (hs : Solvent sb n s) (hn : n ≤ 8) :
    Does A m (fileclose p f) s fun _ t => Solvent sb n t := by
  obtain ⟨K, hb⟩ := hs
  refine quiet_bind (o := .file (.fileclose f)) trivial hb fun (ff : Option File) t hidle => ?_
  have ht : Solvent sb n t := ⟨K, hidle.budget hb⟩
  cases ff with
  | none => exact does_pure ht
  | some ff =>
    dsimp only
    unfold closed
    cases ff.type with
    | none => exact does_pure ht
    | pipe =>
      exact (quiet_call (o := .file (.pipeclose ff.pipe ff.writable)) trivial (hidle.budget hb)).mono fun _ u hu => ht.idle hu
    | inode =>
      refine begin_bind ht fun u hbu _ _ => ?_
      have hput : Does A m (putInode p ff.ip) u fun _ v => Solvent sb n v := by
        cases ff.ip with
        | none => exact does_panic hbu.fits
        | some => exact (iput_any hbu).mono fun _ v ⟨hbv, _⟩ => hbv.solvent hn
      exact hput.bind fun _ v hv => endOp_does hv

end Close

section Link

theorem cwd_of_fs {o : FsOp} {b : o.Ans} (ho : sem A (.fs o) s = .ok (b, t)) : (t.state.pt.proc p).cwd = (s.state.pt.proc p).cwd := by
  have hblind : FsBlind fun k => (k.pt.proc p).cwd :=
    ⟨fun _ _ => rfl, fun _ _ => rfl, fun _ _ => rfl, fun _ _ => rfl, fun _ _ => rfl, fun _ _ => rfl, fun _ _ => rfl⟩
  exact (hblind.sem o _ _ _ (sem_eq_ok ho).1).trans (A.respects s.time s.notes s.state).cwd

theorem Does.cwd {Q : α → Pt → Prop} (h : Does A m x s Q) (hx : x.Uses Op.Core) :
    Does A m x s fun a t => Q a t ∧ (t.state.pt.proc p).cwd = (s.state.pt.proc p).cwd := by
  refine fun hassumed => (h hassumed).and_run.mono fun a t ⟨hQ, hrun⟩ => ⟨hQ, ?_⟩
  refine hx.run_rel (R := fun s t : Pt => (t.state.pt.proc p).cwd = (s.state.pt.proc p).cwd) (fun _ => rfl)
    (fun _ _ _ h h' => h'.trans h) (fun o ho u b v hsem => ?_) hrun
  cases o with
  | fs => exact cwd_of_fs hsem
  | panic => cases (sem_eq_ok hsem).1
  | _ => exact ho.elim

theorem linkInto_does {new : CStr} (hs : Budget sb K (n + 4) s) (hcwd : HoldsCwd p s) :
    Does A m (linkInto p i new) s fun _ t => Budget sb K n t := by
  refine (namex_does true hs fun _ => hcwd).bind fun r t ⟨hb, hlookup⟩ => ?_
  cases r with
  | none => exact does_pure (hb.mono (Nat.le_add_right n 4))
  | some x =>
    refine does_call_bind hb.fits fun _ t1 hlock => ?_
    obtain ⟨hb1, -, -, hlocks, -⟩ := ilock_turn hb hlock
    refine inode_bind hb1 fun ip t2 hidle _ => ?_
    have hpay := (hidle.budget hb1).pay (sb.iblock (entry t2 x.1).inum)
    have hlock2 := (hidle.grip x.1 hlocks.lock).1
    refine (dirlink_does _ _ (.inl hpay) hlock2 (mem_insert_self ..)).bind fun r t3 ⟨K', hsub, hb3, _⟩ => ?_
    refine (iunlockput_any hb3).bind fun _ t4 ⟨hb4, _⟩ => does_pure ?_
    exact hb4.sub hs.paid ((subset_insert ..).trans hsub)

theorem sysLink_does (old new : Option CStr) (hs : Solvent sb 0 s) (hcwd : HoldsCwd p s) :
    Does A m (sysLink p old new) s fun _ t => Solvent sb 0 t := by
  cases old with
  | none => exact does_pure hs
  | some old =>
    cases new with
    | none => exact does_pure hs
    | some =>
      refine begin_bind hs fun t hb _ hheld => ?_
      have hcwd := hheld hcwd
      refine ((namei_does hb fun _ => hcwd).cwd (namei_core p old)).bind fun r t1 ⟨⟨hb1, hlookup⟩, hcwd1⟩ => ?_
      cases r with
      | none => exact fail_pure hb1
      | some ip =>
        refine does_call_bind hb1.fits fun _ t2 hlock => ?_
        obtain ⟨hb2, -, hrefs2, hlocks, -⟩ := ilock_turn hb1 hlock
        refine does_call_bind hb2.fits fun (d : Inode) t3 hread => ?_
        have hidle : Idle sb p t2 t3 := Quiet.turn (o := .fs (.inode ip)) trivial hread
        have hb3 := hidle.budget hb2
        refine does_ite (fun _ => fail_put hb3) fun _ => ?_
        have hpay := hb3.pay (sb.iblock (entry t3 ip).inum)
        refine does_call_bind hpay.fits fun _ t4 hstore => ?_
        obtain ⟨hb4, htight, -⟩ := store_turn hpay hstore
        obtain ⟨hlock4, hinum4, -⟩ := (hidle.toTight.trans htight).grip ip hlocks.lock
        have hinum : (entry t4 ip).inum = (entry t3 ip).inum := (htight.grip ip (hidle.grip ip hlocks.lock).1).2.1
        refine does_call_bind hb4.fits fun _ t5 hupdate => ?_
        obtain ⟨hb5, hstill⟩ := iupdate_turn hb4 hlock4 (by rw [hinum]; exact mem_insert_self ..) hupdate
        refine does_call_bind hb5.fits fun _ t6 hunlock => ?_
        obtain ⟨hb6, -, hrefs6, -⟩ := iunlock_turn hb5 hunlock
        have hcwd6 : HoldsCwd p t6 := fun i hi => by
          rw [cwd_of_fs hunlock, cwd_of_fs hupdate, cwd_of_fs hstore, cwd_of_fs hread, cwd_of_fs hlock, hcwd1] at hi
          rw [hrefs6, hstill.refs, htight.refs, hidle.refs, hrefs2, hlookup.refs]
          exact mem_cons_of_mem (hcwd i hi)
        refine (linkInto_does hb6 hcwd6).bind fun ok t7 hb7 => does_ite (fun _ => ?_) fun _ => fail_does ?_
        · exact (iput_any hb7).bind fun _ t8 ⟨hb8, _⟩ => endOp_pure ⟨_, hb8⟩
        · refine does_call_bind hb7.fits fun _ t8 hrelock => ?_
          obtain ⟨hb8, -, -, hlocks8, -⟩ := ilock_turn hb7 hrelock
          refine inode_bind hb8 fun _ t9 hidle9 _ => store_bind (hidle9.budget hb8) fun u hbu htight9 => ?_
          have hlocku := ((hidle9.toTight.trans htight9).grip ip hlocks8.lock).1
          refine (iupdate_does (hbu.pay (sb.iblock (entry u ip).inum)) hlocku (mem_insert_self ..)).bind
            fun _ v ⟨hbv, _⟩ => ?_
          exact (iunlockput_any hbv).mono fun _ _ ⟨hb, _⟩ => hb.solvent (Nat.zero_le _)

end Link

section Unlink
variable {ip : InodeIdx}

theorem nonemptyDir_does (hs : Budget sb K n s) : Does A m (nonemptyDir p i) s fun _ t => Idle sb p s t := by
  have hfrom (turns off : ℕ) (s : Pt) (hs : Budget sb K n s) (hdev : (entry s i).lock = some p → (entry s i).d.type ≠ .dev) :
      Does A m (isemptyFrom p i turns off) s fun _ t => Idle sb p s t := by
    induction turns generalizing off s with
    | zero => exact does_pure Idle.refl
    | succ turns ih =>
      refine (readDirent_does off _ hs hdev).bind fun de t hidle => does_ite (fun _ => does_pure hidle) fun _ => ?_
      exact (ih _ t (hidle.budget hs) (hidle.not_dev hdev)).mono fun _ u hu => hidle.trans hu
  refine inode_bind hs fun d t hidle hd => does_ite (fun htype => ?_) fun _ => does_pure hidle
  have hb := hidle.budget hs
  have hdev : (entry s i).lock = some p → (entry s i).d.type ≠ .dev := fun hlock => by
    rw [← hd hlock, htype]
    decide
  refine .bind (Q := fun _ u => Idle sb p s u) ?_ fun _ u hu => does_pure hu
  refine inode_bind hb fun d' u hidle' _ => ?_
  have hboth := hidle.trans hidle'
  exact (hfrom _ _ u (hboth.budget hs) (hboth.not_dev hdev)).mono fun _ v hv => hboth.trans hv

theorem unlinkEntry_does {off inum inum' : ℕ} (hs : Budget sb K (n + 7) s) (hoff : SIZEOF_DIRENT ∣ off)
    (hdp : Locks p s dp inum) (hip : Locks p s ip inum') (hne : ip ≠ dp) (href : dp ∈ s.notes.refs) :
    Does A m (unlinkEntry p dp ip off) s fun _ t => Solvent sb n t := by
  have hpay : Budget sb (insert (sb.iblock (entry s dp).inum) K) (1 + (n + 4) + 1) s := by
    rw [Nat.add_comm 1]
    exact hs.pay _
  refine (writei_any 1 hpay hdp.lock (mem_insert_self ..) (dirent_fits hoff (List.length_replicate ..))).bind
    fun r t ⟨K', _, hb, hrelocked⟩ => ?_
  have hkept := hrelocked.kept href
  refine does_ite (fun _ => does_panic hb.fits) fun _ => inode_bind hb fun d t1 hidle _ => ?_
  have hb1 := hidle.budget hb
  have hkept1 : Kept p s.notes.refs s t1 := hkept.trans (hrelocked.refs ▸ hidle.toTight.kept)
  -- the directory loses a link if the entry was one of a directory
  have hless : Does A m (whenDir d.d.type (lessLink dp)) t1 fun _ u => ∃ K'', Budget sb K'' (n + 3) u ∧ Tight p t1 u := by
    refine does_ite (fun _ => ?_) fun _ => does_pure ⟨K', hb1.mono (Nat.le_succ _), .refl⟩
    exact (lessLink_does hb1 (hkept1.locks dp inum hdp).lock).mono fun _ u ⟨K'', _, hb2, htight⟩ => ⟨K'', hb2, htight⟩
  refine hless.bind fun _ t2 ⟨K'', hb2, htight⟩ => (iunlockput_any hb2).bind fun _ t3 ⟨hb3, hput⟩ => ?_
  have hlocks := hput.loosed.locks ip inum' hne (htight.kept.locks ip inum' (hkept1.locks ip inum' hip))
  refine (lessLink_does hb3 hlocks.lock).bind fun _ t4 ⟨K4, _, hb4, _⟩ => ?_
  exact (iunlockput_any hb4).mono fun _ t5 ⟨hb5, _⟩ => ⟨K4, hb5⟩

theorem sysUnlink_does (path : Option CStr) (hs : Solvent sb 0 s) (hcwd : HoldsCwd p s) :
    Does A m (sysUnlink p path) s fun _ t => Solvent sb 0 t := by
  cases path with
  | none => exact does_pure hs
  | some =>
    refine begin_bind hs fun t hb _ hheld => (namex_does true hb fun _ => hheld hcwd).bind fun r t1 ⟨hb1, hlookup⟩ => ?_
    cases r with
    | none => exact fail_pure hb1
    | some x =>
      refine does_call_bind hb1.fits fun _ t2 hlock => ?_
      obtain ⟨hb2, -, hrefs2, hdp, -⟩ := ilock_turn hb1 hlock
      refine quiet_bind (o := .fs (.access .unlink p x.1 MODE_WUSR MODE_WOTH)) trivial hb2 fun (ok : Bool) t3 hidle => ?_
      have hb3 := hidle.budget hb2
      refine does_ite (fun _ => fail_put hb3) fun _ => does_ite (fun _ => fail_put hb3) fun _ => ?_
      refine (dirlookup_does x.2 hb3).bind fun r t4 ⟨hb4, hentry, _, hdvd⟩ => ?_
      cases r with
      | none => exact fail_put hb4
      | some y =>
        refine does_call_bind hb4.fits fun _ t5 hlock5 => ?_
        obtain ⟨hb5, hkept5, hrefs5, hip, hne, -⟩ := ilock_turn hb4 hlock5
        have hdp4 := hentry.kept.locks x.1 _ (hidle.toTight.kept.locks x.1 _ hdp)
        have hdp5 := hkept5.locks x.1 _ hdp4
        refine inode_bind hb5 fun d t6 hidle6 _ => does_ite (fun _ => does_panic (hidle6.budget hb5).fits) fun _ => ?_
        refine (nonemptyDir_does (hidle6.budget hb5)).bind fun full t7 hidle7 => ?_
        have hall := hidle6.trans hidle7
        have hb7 := hall.budget hb5
        refine does_ite (fun _ => fail_does ?_) fun _ => ?_
        · refine (iunlockput_any hb7).bind fun _ t8 ⟨hb8, _⟩ => ?_
          exact (iunlockput_any hb8).mono fun _ t9 ⟨hb9, _⟩ => hb9.solvent (Nat.zero_le _)
        · have href : x.1 ∈ t7.notes.refs := by
            rw [hall.refs, hrefs5, hentry.refs, hidle.refs, hrefs2, hlookup.refs]
            exact mem_cons_of_mem (mem_cons_self ..)
          refine (unlinkEntry_does (n := 2) hb7 (hdvd y rfl) (hall.toTight.kept.locks _ _ hdp5) (hall.toTight.kept.locks _ _ hip)
            (hne x.1 hdp4.lock).1.symm href).bind fun _ t8 ht8 => endOp_pure ht8

end Unlink

section Create
variable {ip : InodeIdx} {inum inum' : ℕ}

theorem dots_does {x : KProg β} {msg : String} (hs : Budget sb K (n + 3) s) (hip : Locks p s ip inum)
    (hpaid : sb.iblock inum ∈ K)
    (hx : ∀ t K', K ⊆ K' → Budget sb K' n t → Kept p s.notes.refs s t → t.notes.refs = s.notes.refs → Does A m x t Q) :
    Does A m (do
      if (← dirlink p ip dot (← inode ip).inum) < 0 then KProg.panic msg
      else if (← dirlink p ip dotdot (← inode dp).inum) < 0 then KProg.panic msg else x) s Q := by
  have hpaid' {u : Pt} (hu : Locks p u ip inum) {K' : Finset Word} (hsub : K ⊆ K') : sb.iblock (entry u ip).inum ∈ K' := by
    rw [hu.inum]
    exact hsub hpaid
  refine inode_bind hs fun d t hidle _ => ?_
  have hip1 := hidle.toTight.kept.locks ip inum hip
  refine (dirlink_does dot _ (.inl (hidle.budget hs)) hip1.lock (hpaid' hip1 Finset.Subset.rfl)).bind
    fun r t1 ⟨K1, hsub, hb1, hkept1, hrefs1, hres⟩ => ?_
  refine does_ite (fun _ => does_panic hb1.fits) fun hr => ?_
  have hip2 := hkept1.locks ip inum hip1
  refine inode_bind hb1 fun d' t2 hidle2 _ => ?_
  have hip3 := hidle2.toTight.kept.locks ip inum hip2
  refine (dirlink_does dotdot _ ((hres hr).idle hip2.lock hidle2) hip3.lock (hpaid' hip3 hsub)).bind
    fun r' t3 ⟨K3, hsub', hb3, hkept3, hrefs3, _⟩ => ?_
  refine does_ite (fun _ => does_panic hb3.fits) fun _ => hx t3 K3 (hsub.trans hsub') hb3 ?_ ?_
  · have hkept2 := hidle2.toTight.kept
    rw [hidle2.refs, hrefs1, hidle.refs] at hkept3
    rw [hrefs1, hidle.refs] at hkept2
    rw [hidle.refs] at hkept1
    exact ((hidle.toTight.kept.trans hkept1).trans hkept2).trans hkept3
  · rw [hrefs3, hidle2.refs, hrefs1, hidle.refs]

theorem createDots_does (hs : Budget sb K (n + 3) s) (hip : Locks p s ip inum) (hdp : Locks p s dp inum')
    (hpaid : sb.iblock inum ∈ K) (hpaid' : sb.iblock inum' ∈ K) :
    Does A m (createDots p ip dp) s fun _ t => ∃ K', K ⊆ K' ∧ Budget sb K' n t ∧ Kept p s.notes.refs s t := by
  refine inode_bind hs fun d t hidle _ => store_bind (hidle.budget hs) fun t1 hb1 htight1 => ?_
  have hall := hidle.toTight.trans htight1
  have hdp1 := hall.kept.locks dp inum' hdp
  refine (iupdate_does hb1 hdp1.lock (by rwa [hdp1.inum])).bind fun _ t2 ⟨hb2, htight2⟩ => ?_
  have hkept := (hall.trans htight2).kept
  refine dots_does hb2 (hkept.locks ip inum hip) hpaid fun u K' hsub hb hkept' _ => does_pure ⟨K', hsub, hb, ?_⟩
  rw [(hall.trans htight2).refs] at hkept'
  exact hkept.trans hkept'

theorem createNew_does (name : List UInt8) (type : InodeType) (major minor : BitVec 16) (hs : Budget sb K (n + 8) s)
    (hdp : Locks p s dp inum) : Does A m (createNew p dp name type major minor) s fun _ t => Solvent sb n t := by
  refine quiet_bind (o := .proc (.proc p)) trivial hs fun (pr : Proc) t hidle => ?_
  refine (newInode_does type major minor pr.userid (hidle.budget hs)).bind
    fun ip t1 ⟨K1, _, hb1, hkept1, _, hip, hpaid, _⟩ => ?_
  have hdp1 := hkept1.locks dp inum (hidle.toTight.kept.locks dp inum hdp)
  have hpay := hb1.pay (sb.iblock inum)
  have hdots : Does A m (whenDir type (createDots p ip dp)) t1 fun _ u => ∃ K', insert (sb.iblock inum) K1 ⊆ K' ∧
      Budget sb K' (n + 3) u ∧ Kept p t1.notes.refs t1 u := by
    refine does_ite (fun _ => ?_) fun _ => ?_
    · exact createDots_does hpay hip hdp1 (mem_insert_of_mem hpaid) (mem_insert_self ..)
    · exact does_pure ⟨_, Finset.Subset.rfl, hpay.mono (by omega), Tight.refl.kept⟩
  refine hdots.bind fun _ t2 ⟨K2, hsub, hb2, hkept2⟩ => inode_bind hb2 fun d t3 hidle3 _ => ?_
  have hdp3 := hidle3.toTight.kept.locks dp inum (hkept2.locks dp inum hdp1)
  have hpaid3 : sb.iblock (entry t3 dp).inum ∈ K2 := by
    rw [hdp3.inum]
    exact hsub (mem_insert_self ..)
  refine (dirlink_does name _ (.inl (hidle3.budget hb2)) hdp3.lock hpaid3).bind fun r t4 ⟨K4, _, hb4, _⟩ => ?_
  refine does_ite (fun _ => does_panic hb4.fits) fun _ => (iunlockput_any hb4).bind fun _ t5 ⟨hb5, _⟩ => ?_
  exact does_pure ⟨K4, hb5⟩

theorem createDenied_does (hs : Budget sb K (n + 1) s) : Does A m (createDenied p i) s fun _ t => Solvent sb n t :=
  (iunlockput_any hs).bind fun _ _ ⟨hb, _⟩ => (endOp_does ⟨K, hb⟩).bind fun _ _ ht => does_pure ht

theorem createExisting_does (type : InodeType) (hs : Budget sb K (n + 1) s) :
    Does A m (createExisting p ip type) s fun _ t => Solvent sb n t := by
  refine does_call_bind hs.fits fun _ t hlock => ?_
  have hb := (ilock_turn hs hlock).1
  refine quiet_bind (o := .fs (.access .create p ip MODE_WUSR MODE_WOTH)) trivial hb fun (ok : Bool) t1 hidle => ?_
  have hb1 := hidle.budget hb
  refine does_ite (fun _ => createDenied_does hb1) fun _ => inode_bind hb1 fun d t2 hidle2 _ => ?_
  have hb2 := hidle2.budget hb1
  refine does_ite (fun _ => does_pure (hb2.solvent (Nat.le_succ n))) fun _ => ?_
  exact (iunlockput_any hb2).bind fun _ t3 ⟨hb3, _⟩ => does_pure ⟨K, hb3⟩

theorem create_does {path : CStr} (type : InodeType) (major minor : BitVec 16) (hs : Budget sb K (n + 8) s)
    (hcwd : HoldsCwd p s) : Does A m (create p path type major minor) s fun _ t => Solvent sb n t := by
  refine (namex_does true hs fun _ => hcwd).bind fun r t ⟨hb, _⟩ => ?_
  cases r with
  | none => exact does_pure (hb.solvent (Nat.le_add_right n 8))
  | some x =>
    refine does_call_bind hb.fits fun _ t1 hlock => ?_
    obtain ⟨hb1, -, -, hdp, -⟩ := ilock_turn hb hlock
    refine (dirlookup_does x.2 hb1).bind fun r t2 ⟨hb2, hlookup, _⟩ => ?_
    cases r with
    | some =>
      refine (iunlockput_any hb2).bind fun _ t3 ⟨hb3, _⟩ => ?_
      exact createExisting_does type (hb3.mono (by omega))
    | none =>
      refine quiet_bind (o := .fs (.access .create p x.1 MODE_WUSR MODE_WOTH)) trivial hb2 fun (ok : Bool) t3 hidle => ?_
      have hb3 := hidle.budget hb2
      refine does_ite (fun _ => createDenied_does (hb3.mono (by omega))) fun _ => ?_
      have hdp3 := hidle.toTight.kept.locks x.1 _ (hlookup.kept.locks x.1 _ hdp)
      exact (createNew_does x.2 type major minor hb3 hdp3).bind fun _ t4 ht4 => does_pure ht4

theorem makeNode_does {path : CStr} (type : InodeType) (major minor : BitVec 16) (hs : Budget sb K 9 s) (hcwd : HoldsCwd p s) :
    Does A m (makeNode p path type major minor) s fun _ t => Solvent sb 0 t := by
  refine (create_does (n := 1) type major minor hs hcwd).bind fun r t ⟨K', hb⟩ => ?_
  cases r with
  | none => exact fail_pure hb
  | some => exact (iunlockput_any hb).bind fun _ t1 ⟨hb1, _⟩ => endOp_pure ⟨K', hb1⟩

theorem sysMkdir_does (path : Option CStr) (hs : Solvent sb 0 s) (hcwd : HoldsCwd p s) :
    Does A m (sysMkdir p path) s fun _ t => Solvent sb 0 t := by
  refine begin_bind hs fun t hb _ hheld => ?_
  cases path with
  | none => exact fail_pure hb
  | some => exact makeNode_does .dir 0 0 hb (hheld hcwd)

theorem sysMknod_does (path : Option CStr) (major minor : Option Word) (hs : Solvent sb 0 s) (hcwd : HoldsCwd p s) :
    Does A m (sysMknod p path major minor) s fun _ t => Solvent sb 0 t := by
  refine begin_bind hs fun t hb _ hheld => ?_
  cases path with
  | none => exact fail_pure hb
  | some =>
    cases major with
    | none => exact fail_pure hb
    | some =>
      cases minor with
      | none => exact fail_pure hb
      | some => exact makeNode_does .dev _ _ hb (hheld hcwd)

theorem openExisting_does {path : CStr} (omode : Word) (hs : Budget sb K (n + 1) s) (hcwd : HoldsCwd p s) :
    Does A m (openExisting p path omode) s fun _ t => Solvent sb n t := by
  refine (namei_does hs fun _ => hcwd).bind fun r t ⟨hb, _⟩ => ?_
  cases r with
  | none => exact does_pure (hb.solvent (Nat.le_succ n))
  | some ip =>
    have hput {u : Pt} (hbu : Budget sb K (n + 1) u) :
        Does A m (iunlockput p ip >>= fun _ => pure (none : Option InodeIdx)) u fun _ t => Solvent sb n t :=
      (iunlockput_any hbu).bind fun _ v ⟨hbv, _⟩ => does_pure ⟨K, hbv⟩
    refine does_call_bind hb.fits fun _ t1 hlock => ?_
    have hb1 := (ilock_turn hb hlock).1
    have haccess : Does A m (openAccess p ip omode) t1 fun _ u => Idle sb p t1 u := by
      refine does_ite (fun _ => quiet_call trivial hb1) fun _ => does_ite (fun _ => quiet_call trivial hb1) fun _ => ?_
      exact does_ite (fun _ => quiet_call trivial hb1) fun _ => does_pure Idle.refl
    refine haccess.bind fun ok t2 hidle => ?_
    have hb2 := hidle.budget hb1
    refine does_ite (fun _ => hput hb2) fun _ => inode_bind hb2 fun d t3 hidle3 _ => ?_
    have hb3 := hidle3.budget hb2
    exact does_ite (fun _ => hput hb3) fun _ => does_pure (hb3.solvent (Nat.le_succ n))

theorem openFile_does (omode : Word) (hs : Solvent sb 1 s) :
    Does A m (openFile p ip omode) s fun _ t => Solvent sb 0 t := by
  obtain ⟨K, hb⟩ := hs
  refine quiet_bind (o := .file .filealloc) trivial hb fun (f : Option FileIdx) t hidle => ?_
  have hb1 := hidle.budget hb
  cases f with
  | none => exact fail_put hb1
  | some f =>
    refine quiet_bind (o := .file (.fdalloc p f)) trivial hb1 fun (fd : Option (Fin NOFILE)) t2 hidle2 => ?_
    have hb2 := hidle2.budget hb1
    cases fd with
    | none =>
      refine fail_does ((fileclose_does ⟨K, hb2⟩ (by decide)).bind fun _ t3 ⟨K', hb3⟩ => ?_)
      exact (iunlockput_any hb3).mono fun _ t4 ⟨hb4, _⟩ => ⟨K', hb4⟩
    | some =>
      refine does_call_bind hb2.fits fun _ t3 hunlock => ?_
      refine (endOp_does ⟨K, (iunlock_turn hb2 hunlock).1⟩).bind fun _ t4 ⟨K', hb4⟩ => ?_
      refine quiet_bind (o := .file (.openInode f ip _ _)) trivial hb4 fun _ t5 hidle5 => does_pure ?_
      exact (hidle5.budget hb4).solvent (Nat.zero_le _)

theorem sysOpen_does (path : Option CStr) (omode : Option Word) (hs : Solvent sb 0 s) (hcwd : HoldsCwd p s) :
    Does A m (sysOpen p path omode) s fun _ t => Solvent sb 0 t := by
  cases path with
  | none => exact does_pure hs
  | some path =>
    cases omode with
    | none => exact does_pure hs
    | some omode =>
      refine begin_bind hs fun t hb _ hheld => ?_
      have hip : Does A m (if omode &&& O_CREATE ≠ 0 then create p path .file 0 0 else openExisting p path omode) t
          fun _ u => Solvent sb 1 u := by
        refine does_ite (fun _ => create_does .file 0 0 hb (hheld hcwd)) fun _ => ?_
        exact openExisting_does omode (hb.mono (by decide)) (hheld hcwd)
      refine hip.bind fun r u hu => ?_
      cases r with
      | none =>
        obtain ⟨K, hbu⟩ := hu
        exact fail_pure hbu
      | some => exact openFile_does omode hu

end Create
end Xv6.Tx
