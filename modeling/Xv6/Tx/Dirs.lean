import Xv6.Fs.Lookup
import Xv6.Tx.Files

/-! # What directories and references cost

Freeing an inode costs its block of inodes, beside the block of the free map. A path lookup
that frees nothing costs nothing, and a new entry of a directory costs a block of data and
the indirect block.
-/
namespace Xv6.Tx
open Prog Fs Multiset
open KProg hiding panic

variable {α β : Type} {p : Slot} {A : Others p} {m : Mode} {sb : Superblock} {K : Finset Word} {n : ℕ} {s t : Pt}
  {i dp : InodeIdx}

section Freeing

theorem freeAddr_does (k : Fin 8) (hs : Budget sb K n s) :
    Does A m (freeAddr i k) s fun _ t => Budget sb K n t ∧ Tight p s t := by
  refine inode_bind hs fun ip t hidle _ => ?_
  have hb := hidle.budget hs
  refine does_ite (fun _ => does_pure ⟨hb, hidle.toTight⟩) fun hne => does_call_bind hb.fits fun _ u hfree => ?_
  obtain ⟨hb', hstill⟩ := bfree_turn hb hne hfree
  refine does_call hb'.fits fun _ v hstore => ?_
  obtain ⟨hb'', htight, -⟩ := store_turn hb' hstore
  exact ⟨hb'', (hidle.toTight.trans hstill.toTight).trans htight⟩

theorem freeBlocks_does (as : List Word) (hs : Budget sb K n s) :
    Does A m (freeBlocks as) s fun _ t => Budget sb K n t ∧ Tight p s t := by
  induction as generalizing s with
  | nil => exact does_pure ⟨hs, .refl⟩
  | cons a as ih =>
    unfold freeBlocks
    refine does_ite (fun _ => ih hs) fun hne => does_call_bind hs.fits fun _ t hfree => ?_
    obtain ⟨hb, hstill⟩ := bfree_turn hs hne hfree
    exact (ih hb).mono fun _ u hu => ⟨hu.1, hstill.toTight.trans hu.2⟩

theorem freeIndirect_does (hs : Budget sb K n s) :
    Does A m (freeIndirect i) s fun _ t => Budget sb K n t ∧ Tight p s t := by
  refine inode_bind hs fun ip t hidle _ => ?_
  have hb := hidle.budget hs
  refine does_ite (fun _ => does_pure ⟨hb, hidle.toTight⟩) fun _ => ?_
  refine quiet_bind (o := .fs (.readBlock _)) trivial hb fun data u hidle' => ?_
  refine (freeBlocks_does _ (hidle'.budget hb)).bind fun _ v ⟨hb', htight⟩ => ?_
  refine (freeAddr_does _ hb').mono fun _ w ⟨hb'', htight'⟩ => ⟨hb'', ?_⟩
  exact ((hidle.toTight.trans hidle'.toTight).trans htight).trans htight'

theorem freeAddrs_does (ks : List (Fin 8)) (hs : Budget sb K n s) :
    Does A m (freeAddrs i ks) s fun _ t => Budget sb K n t ∧ Tight p s t := by
  induction ks generalizing s with
  | nil => exact does_pure ⟨hs, .refl⟩
  | cons k ks ih =>
    refine (freeAddr_does k hs).bind fun _ t ⟨hb, htight⟩ => ?_
    exact (ih hb).mono fun _ u hu => ⟨hu.1, htight.trans hu.2⟩

theorem itrunc_does {Q : Unit → Pt → Prop} (hs : Budget sb K n s)
    (hlast : ∀ t, Budget sb K n t → Tight p s t → Does A m (iupdate i) t Q) : Does A m (itrunc i) s Q := by
  refine (freeAddrs_does _ hs).bind fun _ t ⟨hb, htight⟩ => (freeIndirect_does hb).bind fun _ u ⟨hb', htight'⟩ => ?_
  refine does_call_bind hb'.fits fun _ v hstore => ?_
  obtain ⟨hb'', htight'', -⟩ := store_turn hb' hstore
  exact hlast v hb'' ((htight.trans htight').trans htight'')

theorem iputFree_paid (hs : Budget sb K n s) (hi : (entry s i).lock = some p) (hpaid : sb.iblock (entry s i).inum ∈ K) :
    Does A m (iputFree i) s fun _ t => Budget sb K n t ∧ Tight p s t := by
  refine inode_bind hs fun ip t hidle _ => ?_
  have hb := hidle.budget hs
  refine does_ite (fun _ => ?_) fun _ => does_pure ⟨hb, hidle.toTight⟩
  refine quiet_bind (o := .fs (.ref i)) trivial hb fun (r : ℤ) u hidle' => ?_
  have hboth := hidle.trans hidle'
  have hb' := hboth.budget hs
  refine does_ite (fun _ => ?_) fun _ => does_pure ⟨hb', hboth.toTight⟩
  have htrunc : Does A m (itrunc i) u fun _ v => Budget sb K n v ∧ Tight p s v := by
    refine itrunc_does hb' fun v hb'' htight => does_call hb''.fits fun _ w hupdate => ?_
    obtain ⟨hlock, hinum, -⟩ := (hboth.toTight.trans htight).grip i hi
    obtain ⟨hb3, hstill⟩ := iupdate_turn hb'' hlock (by rwa [hinum]) hupdate
    exact ⟨hb3, (hboth.toTight.trans htight).trans hstill.toTight⟩
  refine htrunc.bind fun _ v ⟨hb'', htight⟩ => does_call hb''.fits fun _ w hfree => ?_
  obtain ⟨hlock, hinum, -⟩ := htight.grip i hi
  obtain ⟨hb3, htight'⟩ := ifree_turn hb'' hlock (by rwa [hinum]) hfree
  exact ⟨hb3, htight.trans htight'⟩

theorem iputFree_calm (hm : m.calm = true) (hs : Budget sb K n s) :
    Does A m (iputFree i) s fun _ t => Budget sb K n t ∧ Tight p s t := by
  refine inode_bind hs fun ip t hidle _ => ?_
  have hb := hidle.budget hs
  refine does_ite (fun _ => ?_) fun _ => does_pure ⟨hb, hidle.toTight⟩
  refine quiet_bind (o := .fs (.ref i)) trivial hb fun (r : ℤ) u hidle' => ?_
  have hboth := hidle.trans hidle'
  have hb' := hboth.budget hs
  refine does_ite (fun _ => ?_) fun _ => does_pure ⟨hb', hboth.toTight⟩
  -- the inode is written, but the run does not come to the operation that frees it
  have htrunc : Does A m (itrunc i) u fun _ _ => True :=
    itrunc_does hb' fun v hb'' _ => does_call hb''.fits fun _ _ _ => trivial
  refine htrunc.bind fun _ v _ hx => ?_
  exact (hx.calm hm _ _ .here trivial).elim

end Freeing

section Put

/-- A reference to the entry is given back. -/
structure Put (p : Slot) (i : InodeIdx) (s t : Pt) : Prop where
  kept : Kept p (s.notes.refs.erase i) s t
  refs : t.notes.refs = s.notes.refs.erase i

/-- The lock of the entry and a reference to it are given back. -/
structure UnlockedPut (p : Slot) (i : InodeIdx) (s t : Pt) : Prop where
  loosed : Loosed p (s.notes.refs.erase i) i s t
  refs : t.notes.refs = s.notes.refs.erase i

theorem iput_does {k : ℕ} (hs : Budget sb K n s)
    (hfree : ∀ t, Budget sb K n t → (entry t i).lock = some p → (i ∈ s.notes.refs → (entry t i).inum = (entry s i).inum) →
      Does A m (iputFree i) t fun _ u => Budget sb K k u ∧ Tight p t u) :
    Does A m (iput p i) s fun _ t => Budget sb K k t ∧ Put p i s t := by
  have hsub : s.notes.refs.erase i ⊆ s.notes.refs := subset_of_le (erase_le i _)
  refine does_call_bind hs.fits fun _ t1 hacquire => ?_
  obtain ⟨hb1, hkept1, hrefs1, hlock1, hne, hinum⟩ := acquiresleep_turn hs hacquire
  refine (hfree t1 hb1 hlock1 hinum).bind fun _ t2 ⟨hb2, htight⟩ => ?_
  refine does_call_bind hb2.fits fun _ t3 hrelease => ?_
  obtain ⟨hb3, hloosed, hrefs3, hnone, -⟩ := releasesleep_turn hb2 hrelease
  refine does_call hb3.fits fun _ t4 hdrop => ?_
  obtain ⟨hb4, hkept4, hrefs4⟩ := dropRef_turn hb3 (by rw [hnone]; simp) hdrop
  have hkept2 := htight.kept
  rw [hrefs1] at hkept2
  rw [htight.refs, hrefs1] at hloosed hrefs3
  rw [hrefs3] at hkept4 hrefs4
  exact ⟨hb4, (((hkept1.trans hkept2).of_loosed hne hloosed).trans hkept4).mono hsub, hrefs4⟩

theorem iput_paid (hs : Budget sb K n s) (hi : i ∈ s.notes.refs) (hpaid : sb.iblock (entry s i).inum ∈ K) :
    Does A m (iput p i) s fun _ t => Budget sb K n t ∧ Put p i s t :=
  iput_does hs fun _ hb hlock hinum => iputFree_paid hb hlock (by rwa [hinum hi])

theorem iput_calm (hm : m.calm = true) (hs : Budget sb K n s) :
    Does A m (iput p i) s fun _ t => Budget sb K n t ∧ Put p i s t :=
  iput_does hs fun _ hb _ _ => iputFree_calm hm hb

theorem iput_any (hs : Budget sb K (n + 1) s) :
    Does A m (iput p i) s fun _ t => Budget sb K n t ∧ Put p i s t := by
  refine iput_does hs fun t hb hlock _ => ?_
  have hpay := hb.pay (sb.iblock (entry t i).inum)
  refine (iputFree_paid hpay hlock (Finset.mem_insert_self ..)).mono fun _ u ⟨hb', htight⟩ => ⟨?_, htight⟩
  exact hb'.sub hs.paid (Finset.subset_insert ..)

theorem iunlockput_does {k : ℕ} (hs : Budget sb K n s)
    (hput : ∀ t, Budget sb K n t → t.notes.refs = s.notes.refs → (i ∈ s.notes.refs → (entry t i).inum = (entry s i).inum) →
      Does A m (iput p i) t fun _ u => Budget sb K k u ∧ Put p i t u) :
    Does A m (iunlockput p i) s fun _ t => Budget sb K k t ∧ UnlockedPut p i s t := by
  have hsub : s.notes.refs.erase i ⊆ s.notes.refs := subset_of_le (erase_le i _)
  refine does_call_bind hs.fits fun _ t hunlock => ?_
  obtain ⟨hb, hloosed, hrefs, -⟩ := iunlock_turn hs hunlock
  refine (hput t hb hrefs (hloosed.named i)).mono fun _ u ⟨hb', hkept, hrefs'⟩ => ?_
  rw [hrefs] at hkept hrefs'
  exact ⟨hb', (hloosed.mono hsub).trans (hkept.loosed i), hrefs'⟩

theorem iunlockput_paid (hs : Budget sb K n s) (hi : i ∈ s.notes.refs) (hpaid : sb.iblock (entry s i).inum ∈ K) :
    Does A m (iunlockput p i) s fun _ t => Budget sb K n t ∧ UnlockedPut p i s t :=
  iunlockput_does hs fun _ hb hrefs hinum => iput_paid hb (hrefs ▸ hi) (by rwa [hinum hi])

theorem iunlockput_calm (hm : m.calm = true) (hs : Budget sb K n s) :
    Does A m (iunlockput p i) s fun _ t => Budget sb K n t ∧ UnlockedPut p i s t :=
  iunlockput_does hs fun _ hb _ _ => iput_calm hm hb

theorem iunlockput_any (hs : Budget sb K (n + 1) s) :
    Does A m (iunlockput p i) s fun _ t => Budget sb K n t ∧ UnlockedPut p i s t :=
  iunlockput_does hs fun _ hb _ _ => iput_any hb

end Put

section Entries

def found (r : Option InodeIdx) (R : Multiset InodeIdx) : Multiset InodeIdx :=
  match r with
  | none => R
  | some i => i ::ₘ R

/-- What a lookup leaves: one more reference, if it has found the name. -/
structure Lookup (p : Slot) (r : Option InodeIdx) (s t : Pt) : Prop where
  kept : Kept p s.notes.refs s t
  refs : t.notes.refs = found r s.notes.refs

/-- Where the name is not found nothing has changed; the entries stand at multiples of their size. -/
theorem lookupFrom_does (name : List UInt8) (turns off : ℕ) (hs : Budget sb K n s)
    (hdev : (entry s dp).lock = some p → (entry s dp).d.type ≠ .dev) (hoff : SIZEOF_DIRENT ∣ off) :
    Does A m (lookupFrom p dp name turns off) s fun r t => Budget sb K n t ∧ Lookup p (r.map Prod.fst) s t ∧
      (r = none → Idle sb p s t) ∧ ∀ x ∈ r, SIZEOF_DIRENT ∣ x.2 := by
  induction turns generalizing s off with
  | zero => exact does_pure ⟨hs, ⟨Tight.refl.kept, rfl⟩, fun _ => .refl, fun x hx => by cases hx⟩
  | succ turns ih =>
    refine (readDirent_does off _ hs hdev).bind fun de t hidle => ?_
    have hb := hidle.budget hs
    refine does_ite (fun _ => ?_) fun _ => ?_
    · refine does_call_bind hb.fits fun (i : InodeIdx) u hget => does_pure ?_
      obtain ⟨hb', hkept, hrefs, -⟩ := iget_turn hb hget
      rw [hidle.refs] at hkept hrefs
      refine ⟨hb', ⟨hidle.toTight.kept.trans hkept, hrefs⟩, (fun h => by cases h), fun x hx => ?_⟩
      cases hx
      exact hoff
    · refine (ih _ hb (hidle.not_dev hdev) (Nat.dvd_add hoff (Nat.dvd_refl _))).mono fun r u ⟨hb', hlookup, hnone, hdvd⟩ => ?_
      obtain ⟨hkept, hrefs⟩ := hlookup
      rw [hidle.refs] at hkept hrefs
      exact ⟨hb', ⟨hidle.toTight.kept.trans hkept, hrefs⟩, fun h => hidle.trans (hnone h), hdvd⟩

theorem dirlookup_does (name : List UInt8) (hs : Budget sb K n s) :
    Does A m (dirlookup p dp name) s fun r t => Budget sb K n t ∧ Lookup p (r.map Prod.fst) s t ∧
      (r = none → Idle sb p s t ∧ ((entry s dp).lock = some p → (entry s dp).d.type = .dir)) ∧
      ∀ x ∈ r, SIZEOF_DIRENT ∣ x.2 := by
  refine inode_bind hs fun ip t hidle hip => ?_
  have hb := hidle.budget hs
  refine does_ite (fun _ => does_panic hb.fits) fun htype => ?_
  have hdir : (entry s dp).lock = some p → (entry s dp).d.type = .dir := fun hlock => by
    rw [← hip hlock]
    exact not_not.mp htype
  have hdev : (entry s dp).lock = some p → (entry s dp).d.type ≠ .dev := fun hlock => by
    rw [hdir hlock]
    decide
  refine (lookupFrom_does name _ 0 hb (hidle.not_dev hdev) (Nat.dvd_zero _)).mono fun r u ⟨hb', hlookup, hnone, hdvd⟩ => ?_
  obtain ⟨hkept, hrefs⟩ := hlookup
  rw [hidle.refs] at hkept hrefs
  exact ⟨hb', ⟨hidle.toTight.kept.trans hkept, hrefs⟩, fun h => ⟨hidle.trans (hnone h), hdir⟩, hdvd⟩

theorem emptyFrom_does (turns off : ℕ) (hs : Budget sb K n s)
    (hdev : (entry s dp).lock = some p → (entry s dp).d.type ≠ .dev) (hoff : SIZEOF_DIRENT ∣ off) :
    Does A m (emptyFrom p dp turns off) s fun r t => Idle sb p s t ∧ SIZEOF_DIRENT ∣ r := by
  induction turns generalizing s off with
  | zero => exact does_pure ⟨.refl, hoff⟩
  | succ turns ih =>
    refine (readDirent_does off _ hs hdev).bind fun de t hidle => does_ite (fun _ => does_pure ⟨hidle, hoff⟩) fun _ => ?_
    refine (ih _ (hidle.budget hs) (hidle.not_dev hdev) (Nat.dvd_add hoff (Nat.dvd_refl _))).mono fun r u ⟨hidle', hdvd⟩ => ?_
    exact ⟨hidle.trans hidle', hdvd⟩

theorem dirent_fits (hoff : SIZEOF_DIRENT ∣ off) (hlen : len = SIZEOF_DIRENT) :
    (BitVec.ofNat 32 off).toNat % BSIZE + len ≤ 1 * BSIZE := by
  have hsize : SIZEOF_DIRENT = 16 := rfl
  have hblock : BSIZE = 512 := rfl
  rw [BitVec.toNat_ofNat, hlen, hblock, hsize]
  rw [hsize] at hoff
  omega

theorem dirlink_does (name : List UInt8) (inum : ℕ) (hs : Reserve sb K (n + 1) dp s) (hdp : (entry s dp).lock = some p)
    (hpaid : sb.iblock (entry s dp).inum ∈ K) :
    Does A m (dirlink p dp name inum) s fun r t => ∃ K', K ⊆ K' ∧ Budget sb K' n t ∧ Kept p s.notes.refs s t ∧
      t.notes.refs = s.notes.refs ∧ (¬ r < 0 → Reserve sb K' n dp t) := by
  refine (dirlookup_does name hs.budget).bind fun r t ⟨hb, hlookup, hnone, _⟩ => ?_
  cases r with
  | some =>
    refine (iput_any hb).bind fun _ u ⟨hb', hput⟩ => does_pure ⟨K, Finset.Subset.rfl, hb', ?_, ?_, fun h => (h (by decide)).elim⟩
    · have hkept := hput.kept
      rw [hlookup.refs, Option.map_some, found, erase_cons_head] at hkept
      exact hlookup.kept.trans hkept
    · rw [hput.refs, hlookup.refs, Option.map_some, found, erase_cons_head]
  | none =>
    obtain ⟨hidle, hdir⟩ := hnone rfl
    refine inode_bind hb fun ip t1 hidle1 _ => ?_
    have hidle2 := hidle.trans hidle1
    have hdev {u : Pt} (hu : Idle sb p s u) : (entry u dp).d.type ≠ .dev := by
      rw [hu.same dp hdp, hdir hdp]
      decide
    refine (emptyFrom_does _ 0 (hidle1.budget hb) (fun _ => hdev hidle2) (Nat.dvd_zero _)).bind fun off t2 ⟨hidle3, hdvd⟩ => ?_
    have hidle4 := hidle2.trans hidle3
    obtain ⟨hlock, hinum, -⟩ := hidle4.grip dp hdp
    have hres := hs.idle hdp hidle4
    rw [Nat.add_comm] at hres
    refine (writei_file 1 hres hlock (hdev hidle4) (by rwa [hinum]) (dirent_fits hdvd direntBytes_length)).bind
      fun r u ⟨K', hsub, hres', htight⟩ => ?_
    have hall := hidle4.toTight.trans htight
    refine does_ite (fun _ => does_pure ⟨K', hsub, hres'.budget, hall.kept, hall.refs, fun _ => hres'⟩) fun _ => ?_
    exact does_panic hres'.budget.fits

end Entries

section Paths
variable {R : Multiset InodeIdx} {ip : InodeIdx}

theorem Kept.passed (hkept : Kept p s.notes.refs s t) (hrefs : s.notes.refs = i ::ₘ R)
    (hrefs' : t.notes.refs = s.notes.refs) (hne : ∀ j, (entry s j).lock = some p → j ≠ i) (hput : UnlockedPut p i t u) :
    Kept p R s u ∧ u.notes.refs = R := by
  obtain ⟨hloosed, hrefs''⟩ := hput
  rw [hrefs', hrefs, erase_cons_head] at hloosed hrefs''
  rw [hrefs] at hkept
  exact ⟨(hkept.mono (subset_cons R i)).of_loosed hne hloosed, hrefs''⟩

theorem walk_does (hm : m.calm = true) (parent : Bool) (names : List (List UInt8)) (hs : Budget sb K n s)
    (hrefs : s.notes.refs = ip ::ₘ R) :
    Does A m (walk p parent names ip) s fun r t => Budget sb K n t ∧ Kept p R s t ∧
      t.notes.refs = found (r.map Prod.fst) R := by
  have hsub : R ⊆ s.notes.refs := by
    rw [hrefs]
    exact subset_cons R ip
  induction names generalizing s ip with
  | nil =>
    refine does_ite (fun _ => ?_) fun _ => does_pure ⟨hs, Tight.refl.kept.mono hsub, hrefs⟩
    refine (iput_calm hm hs).bind fun _ t ⟨hb, hkept, hrefs'⟩ => does_pure ?_
    rw [hrefs, erase_cons_head] at hkept hrefs'
    exact ⟨hb, hkept, hrefs'⟩
  | cons name rest ih =>
    refine does_call_bind hs.fits fun _ t hlock => ?_
    obtain ⟨hb, hkept, hrefs1, -, hne, -⟩ := ilock_turn hs hlock
    have hne (j : InodeIdx) (hj : (entry s j).lock = some p) : j ≠ ip := (hne j hj).1
    -- every way out gives the entry up
    have hquit {u : Pt} (hbu : Budget sb K n u) (hku : Kept p s.notes.refs s u) (hru : u.notes.refs = s.notes.refs) :
        Does A m (iunlockput p ip >>= fun _ => pure none) u fun (r : Option (InodeIdx × List UInt8)) t =>
          Budget sb K n t ∧ Kept p R s t ∧ t.notes.refs = found (r.map Prod.fst) R :=
      (iunlockput_calm hm hbu).bind fun _ v ⟨hbv, hput⟩ => does_pure ⟨hbv, hku.passed hrefs hru hne hput⟩
    refine inode_bind hb fun d t1 hidle1 _ => ?_
    have hb1 := hidle1.budget hb
    have hkept1 : Kept p s.notes.refs s t1 := hkept.trans (hrefs1 ▸ hidle1.toTight.kept)
    refine does_ite (fun _ => hquit hb1 hkept1 (hidle1.refs.trans hrefs1)) fun _ => ?_
    refine quiet_bind (o := .fs (.access .namex p ip MODE_XUSR MODE_XOTH)) trivial hb1 fun (ok : Bool) t2 hidle2 => ?_
    have hidle := hidle1.trans hidle2
    have hb2 := hidle.budget hb
    have hkept2 : Kept p s.notes.refs s t2 := hkept.trans (hrefs1 ▸ hidle.toTight.kept)
    have hrefs2 : t2.notes.refs = s.notes.refs := hidle.refs.trans hrefs1
    refine does_ite (fun _ => hquit hb2 hkept2 hrefs2) fun _ => does_ite (fun _ => ?_) fun _ => ?_
    · refine does_call_bind hb2.fits fun _ u hunlock => does_pure ?_
      obtain ⟨hb3, hloosed, hrefs3, -⟩ := iunlock_turn hb2 hunlock
      rw [hrefs2] at hloosed hrefs3
      exact ⟨hb3, (hkept2.of_loosed hne hloosed).mono hsub, hrefs3.trans hrefs⟩
    · refine (dirlookup_does name hb2).bind fun r t3 ⟨hb3, hlookup, hnone, _⟩ => ?_
      cases r with
      | none =>
        have hidle3 := hidle.trans (hnone rfl).1
        exact hquit hb3 (hkept.trans (hrefs1 ▸ hidle3.toTight.kept)) (hidle3.refs.trans hrefs1)
      | some x =>
        refine (iunlockput_calm hm hb3).bind fun _ u ⟨hb4, hput⟩ => ?_
        -- the reference to the next inode comes on top of the one that is given back
        have hrefs3 : t3.notes.refs = ip ::ₘ x.1 ::ₘ R := by
          rw [hlookup.refs, hrefs2, hrefs]
          exact cons_swap ..
        obtain ⟨hloosed, hrefs4⟩ := hput
        rw [hrefs3, erase_cons_head] at hloosed hrefs4
        have hkept3 : Kept p R s t3 := (hkept2.trans (hrefs2 ▸ hlookup.kept)).mono hsub
        have hkept4 := hkept3.of_loosed hne (hloosed.mono (subset_cons R x.1))
        have hsub' : R ⊆ u.notes.refs := by
          rw [hrefs4]
          exact subset_cons R x.1
        exact (ih hb4 hrefs4 hsub').mono fun r v ⟨hb5, hkept5, hrefs5⟩ => ⟨hb5, hkept4.trans hkept5, hrefs5⟩

def HoldsCwd (p : Slot) (s : Pt) : Prop := ∀ i, (s.state.pt.proc p).cwd = some i → i ∈ s.notes.refs

theorem start_does (hs : Budget sb K n s) (hcwd : path.head? ≠ some slash → HoldsCwd p s) :
    Does A m (start p path) s fun i t => Budget sb K n t ∧ Kept p s.notes.refs s t ∧ t.notes.refs = i ::ₘ s.notes.refs := by
  refine does_ite (fun _ => does_call hs.fits fun (i : InodeIdx) t hget => ?_) fun hslash => ?_
  · obtain ⟨hb, hkept, hrefs, -⟩ := iget_turn hs hget
    exact ⟨hb, hkept, hrefs⟩
  · refine does_call_bind hs.fits fun (c : Option InodeIdx) t ho => ?_
    have hidle : Idle sb p s t := Quiet.turn (o := .fs (.cwd p)) trivial ho
    have hc : ((seen A s).pt.proc p).cwd = c := congrArg Prod.fst (Except.ok.inj (sem_eq_ok ho).1)
    have hb := hidle.budget hs
    cases c with
    | none => exact does_panic hb.fits
    | some i =>
      have hi : i ∈ s.notes.refs := hcwd hslash i ((A.respects s.time s.notes s.state).cwd ▸ hc)
      refine does_call_bind hb.fits fun _ u hdup => does_pure ?_
      obtain ⟨hb', hkept, hrefs⟩ := idup_turn hb (hidle.refs ▸ hi) hdup
      rw [hidle.refs] at hkept hrefs
      exact ⟨hb', hidle.toTight.kept.trans hkept, hrefs⟩

theorem namex_does (parent : Bool) (hs : Budget sb K n s)
    (hcwd : path.bytes.head? ≠ some slash → HoldsCwd p s) :
    Does A m (namex p path parent) s fun r t => Budget sb K n t ∧ Lookup p (r.map Prod.fst) s t := by
  have hcalm : Does A ⟨true, m.dense⟩ (namex p path parent) s fun r t => Budget sb K n t ∧ Lookup p (r.map Prod.fst) s t := by
    refine (start_does hs hcwd).bind fun i t ⟨hb, hkept, hrefs⟩ => ?_
    refine (walk_does rfl parent _ hb hrefs).mono fun r u ⟨hb', hkept', hrefs'⟩ => ?_
    exact ⟨hb', hkept.trans hkept', hrefs'⟩
  exact fun hx => hcalm ⟨hx.entries, hx.lookups, fun _ => hx.lookups.self ⟨path, parent, rfl⟩, hx.dense⟩

theorem namei_does (hs : Budget sb K n s) (hcwd : path.bytes.head? ≠ some slash → HoldsCwd p s) :
    Does A m (namei p path) s fun r t => Budget sb K n t ∧ Lookup p r s t :=
  (namex_does false hs hcwd).bind fun _ _ h => does_pure h

end Paths

theorem ialloc_does (type : InodeType) (hs : Budget sb K (n + 1) s) :
    Does A m (ialloc type) s fun i t => Budget sb (insert (sb.iblock (entry t i).inum) K) n t ∧
      Kept p s.notes.refs s t ∧ t.notes.refs = i ::ₘ s.notes.refs := by
  have hfrom (turns inum : ℕ) (s : Pt) (hs : Budget sb K (n + 1) s) :
      Does A m (iallocFrom type turns inum) s fun i t => Budget sb (insert (sb.iblock (entry t i).inum) K) n t ∧
        Kept p s.notes.refs s t ∧ t.notes.refs = i ::ₘ s.notes.refs := by
    induction turns generalizing inum s with
    | zero => exact does_panic hs.fits
    | succ turns ih =>
      refine does_call_bind hs.fits fun (r : Bool) t hclaim => does_ite (fun hr => ?_) fun hr => ?_
      · obtain ⟨hb, hstill⟩ := claimInode_turn (hs.pay (sb.iblock inum)) (Finset.mem_insert_self ..) hclaim
        refine does_call hb.fits fun (i : InodeIdx) u hget => ?_
        obtain ⟨hb', hkept, hrefs, hinum⟩ := iget_turn hb hget
        rw [hstill.refs] at hkept hrefs
        rw [hinum]
        exact ⟨hb', hstill.toTight.kept.trans hkept, hrefs⟩
      · rw [Bool.not_eq_true] at hr
        subst hr
        obtain ⟨hb, hstill⟩ := claimInode_false hs hclaim
        refine (ih (inum + 1) t hb).mono fun i u ⟨hb', hkept, hrefs⟩ => ?_
        rw [hstill.refs] at hkept hrefs
        exact ⟨hb', hstill.toTight.kept.trans hkept, hrefs⟩
  refine quiet_bind (o := .fs .sb) trivial hs fun _ t hidle => ?_
  refine (hfrom _ _ t (hidle.budget hs)).mono fun i u ⟨hb', hkept, hrefs⟩ => ?_
  rw [hidle.refs] at hkept hrefs
  exact ⟨hb', hidle.toTight.kept.trans hkept, hrefs⟩

end Xv6.Tx
