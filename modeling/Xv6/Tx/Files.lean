import Xv6.Fs.Blocks
import Xv6.Tx.Cache

/-! # What reading and writing files costs

The functions of `fs.c` on blocks and inodes, with what they pay. The conditions under
which a run is looked at go with it from each part of the program to the next.
-/
namespace Xv6.Tx
open Prog Fs Finset
open KProg hiding panic

def ClaimsBlock : Op → Prop
  | .fs (.claimBlock _) => True
  | _ => False

instance : DecidablePred ClaimsBlock := fun o => by
  unfold ClaimsBlock
  split <;> infer_instance

def FreesInode : Op → Prop
  | .fs (.ifree _) => True
  | _ => False

instance : DecidablePred FreesInode := fun o => by
  unfold FreesInode
  split <;> infer_instance

def ReadsEntry (p : Slot) (y : KProg Dirent) : Prop := ∃ dp off msg, y = readDirent p dp off msg

def LooksUp (p : Slot) (y : KProg (Option (InodeIdx × List UInt8))) : Prop := ∃ path parent, y = namex p path parent

/-- Whether the code at hand is known to free no inode, and to look for no block. -/
structure Mode where
  calm : Bool
  dense : Bool

variable {α β : Type} {p : Slot} {A : Others p} {m : Mode} {sb : Superblock} {K : Finset Word} {n : ℕ} {s t : Pt} {i : InodeIdx}

/-- No read of a directory entry comes upon a missing block, and no lookup frees an inode. -/
structure Assumed (A : Others p) (m : Mode) (x : KProg α) (s : Pt) : Prop where
  entries : Spares (sem A) ClaimsBlock (ReadsEntry p) x s
  lookups : Spares (sem A) FreesInode (LooksUp p) x s
  calm : m.calm = true → Avoids (sem A) FreesInode x s
  dense : m.dense = true → Avoids (sem A) ClaimsBlock x s

variable {x : KProg α} {f : α → KProg β} {a : α} {o : Op} {k : Fin 8} {src : List UInt8} {off : Word}

theorem Assumed.left (h : Assumed A m (x >>= f) s) : Assumed A m x s :=
  ⟨h.entries.left, h.lookups.left, fun hc => (h.calm hc).left, fun hd => (h.dense hd).left⟩

theorem Assumed.right (h : Assumed A m (x >>= f) s)
    (hr : x.run (sem A) s = .ok (a, t)) : Assumed A m (f a) t :=
  ⟨h.entries.right hr, h.lookups.right hr, fun hc => (h.calm hc).right hr, fun hd => (h.dense hd).right hr⟩

/-- Under the assumptions the run keeps within the limit, and ends in `Q`. -/
def Does (A : Others p) (m : Mode) (x : KProg α) (s : Pt) (Q : α → Pt → Prop) : Prop :=
  Assumed A m x s → x.Wp (sem A) (fun _ => Fits) Q s

section Rules
variable {x : KProg α} {f : α → KProg β} {Q R : α → Pt → Prop} {P : β → Pt → Prop}

theorem does_pure (h : Q a s) : Does A m (pure a) s Q := fun _ => h

theorem Does.mono (h : Does A m x s Q) (hR : ∀ a t, Q a t → R a t) : Does A m x s R := fun hx => (h hx).mono hR

theorem Does.bind (h : Does A m x s Q) (hf : ∀ a t, Q a t → Does A m (f a) t P) : Does A m (x >>= f) s P :=
  fun hx => (h hx.left).and_run.bind fun a t ha => hf a t ha.1 (hx.right ha.2)

theorem does_call {Q : o.Ans → Pt → Prop} (hs : Fits s) (hQ : ∀ b t, sem A o s = .ok (b, t) → Q b t) :
    Does A m (call o) s Q := fun _ => wp_call hs hQ

theorem does_call_bind {f : o.Ans → KProg β} (hs : Fits s)
    (hf : ∀ b t, sem A o s = .ok (b, t) → Does A m (f b) t P) : Does A m (call o >>= f) s P :=
  Does.bind (does_call hs fun _ _ h => h) hf

theorem does_panic (hs : Fits s) : Does A m (KProg.panic msg) s Q := fun _ => ⟨hs, fun b => b.elim⟩

theorem does_ite {c : Prop} [Decidable c] {y : KProg α} (hx : c → Does A m x s Q) (hy : ¬ c → Does A m y s Q) :
    Does A m (if c then x else y) s Q := by
  split
  case isTrue h => exact hx h
  case isFalse h => exact hy h

/-- An operation that does nothing but answer. -/
theorem quiet_bind {f : o.Ans → KProg β} (h : Quiet o) (hs : Budget sb K n s)
    (hf : ∀ b t, Idle sb p s t → Does A m (f b) t P) : Does A m (call o >>= f) s P :=
  does_call_bind hs.fits fun b t ho => hf b t (h.turn ho)

theorem quiet_call (h : Quiet o) (hs : Budget sb K n s) : Does A m (call o) s fun _ t => Idle sb p s t :=
  does_call hs.fits fun _ _ ho => h.turn ho

theorem inode_bind {f : Inode → KProg β} (hs : Budget sb K n s)
    (hf : ∀ ip t, Idle sb p s t → ((entry s i).lock = some p → ip.d = (entry s i).d) → Does A m (f ip) t P) :
    Does A m (inode i >>= f) s P := by
  refine does_call_bind hs.fits fun (ip : Inode) t ho => hf ip t (Quiet.turn (o := .fs (.inode i)) trivial ho) fun hi => ?_
  have hip : (seen A s).icache i = ip := congrArg Prod.fst (Except.ok.inj (sem_eq_ok ho).1)
  rw [← hip]
  exact (seen_inum hi).2

end Rules

theorem balloc_does (hs : Budget sb K (n + 1) s) :
    Does A m balloc s fun a t => Budget sb (insert a K) n t ∧ Still p s t ∧ a ≠ 0 := by
  have hfrom (turns b : ℕ) (s : Pt) (hs : Budget sb K (n + 1) s) :
      Does A m (ballocFrom turns b) s fun a t => Budget sb (insert a K) n t ∧ Still p s t ∧ a ≠ 0 := by
    induction turns generalizing b s with
    | zero => exact does_panic hs.fits
    | succ turns ih =>
      refine does_call_bind hs.fits fun (r : Option Word) t ho => ?_
      obtain ⟨hb, hstill, hne⟩ := claimBlock_turn hs ho
      cases r with
      | none => exact (ih (b + BPB) t hb).mono fun a u hu => ⟨hu.1, hstill.trans hu.2.1, hu.2.2⟩
      | some a =>
        have hpaid := hb.pay a
        refine does_call_bind hpaid.fits fun _ u hu => does_pure ?_
        obtain ⟨hb', hstill'⟩ := bzero_turn hpaid (mem_insert_self a K) hu
        exact ⟨hb', hstill.trans hstill', hne a rfl⟩
  refine quiet_bind (o := .fs .sb) trivial hs fun _ t hidle => ?_
  exact (hfrom _ _ t (hidle.budget hs)).mono fun a u hu => ⟨hu.1, hidle.toStill.trans hu.2.1, hu.2.2⟩

theorem balloc_dense {Q : Word → Pt → Prop} (hm : m.dense = true) (hs : Budget sb K n s) : Does A m balloc s Q := by
  have hfrom (turns b : ℕ) (s : Pt) (hs : Budget sb K n s) : Does A m (ballocFrom turns b) s Q := by
    cases turns with
    | zero => exact does_panic hs.fits
    | succ => exact fun hx => ((hx.dense hm) _ _ .here trivial).elim
  exact quiet_bind (o := .fs .sb) trivial hs fun _ t hidle => hfrom _ _ t (hidle.budget hs)

theorem addrOf_kept (hs : Budget sb K n s) (hi : (entry s i).lock = some p) (hk : (entry s i).d.addrs k ≠ 0) :
    Does A m (addrOf i k) s fun a t => Idle sb p s t ∧ a = (entry s i).d.addrs k := by
  refine inode_bind hs fun ip t hidle hip => ?_
  rw [hip hi]
  exact does_ite (fun h => (hk h).elim) fun _ => does_pure ⟨hidle, rfl⟩

/-- The content of an inode but for one slot of `addrs`. -/
structure Slotted (k : Fin 8) (a : Word) (d d' : Dinode) : Prop where
  slot : d'.addrs k = a
  others : ∀ j, j ≠ k → d'.addrs j = d.addrs j

theorem addrOf_does (hs : Budget sb K (n + 1) s) (hi : (entry s i).lock = some p) :
    Does A m (addrOf i k) s fun a t => Budget sb (insert a K) n t ∧ Tight p s t ∧ a ≠ 0 ∧
      Slotted k a (entry s i).d (entry t i).d := by
  refine inode_bind hs fun ip t hidle hip => ?_
  rw [hip hi]
  have hb := hidle.budget hs
  have hstill := hidle.toStill
  have hlock := (hstill.grip i hi).1
  have hd := hstill.same i hi
  refine does_ite (fun _ => ?_) fun hne => does_pure ⟨hb.pay _, hstill.toTight, hne, ?_⟩
  · refine (balloc_does hb).bind fun a u ⟨hb', hstill', hne⟩ => does_call_bind hb'.fits fun _ v ho => does_pure ?_
    obtain ⟨hb'', htight, hstore⟩ := store_turn hb' ho
    refine ⟨hb'', (hstill.toTight.trans hstill'.toTight).trans htight, hne, ?_⟩
    rw [hstore (hstill'.grip i hlock).1, hstill'.same i hlock, hd]
    exact ⟨Function.update_self .., fun j hj => Function.update_of_ne hj ..⟩
  · rw [hd]
    exact ⟨rfl, fun _ _ => rfl⟩

theorem indirectAddrOf_does {a : Word} (bn : ℕ) (hs : Budget sb K (n + 1) s) (ha : a ∈ K) :
    Does A m (indirectAddrOf a bn) s fun b t => Budget sb (insert b K) n t ∧ Still p s t := by
  refine quiet_bind (o := .fs (.readBlock a)) trivial hs fun data t hidle => ?_
  have hb := hidle.budget hs
  have hstill := hidle.toStill
  refine does_ite (fun _ => ?_) fun _ => ?_
  · refine (balloc_does hb).bind fun b u ⟨hb', hstill', _⟩ => does_call_bind hb'.fits fun _ v ho => does_pure ?_
    obtain ⟨hb'', hstill''⟩ := writeBlock_turn hb' (mem_insert_of_mem ha) ho
    exact ⟨hb'', (hstill.trans hstill').trans hstill''⟩
  · exact does_pure ⟨hb.pay _, hstill⟩

/-- The indirect block of the inode is paid for, or there is one block more to spend. -/
def Reserve (sb : Superblock) (K : Finset Word) (n : ℕ) (i : InodeIdx) (s : Pt) : Prop :=
  Budget sb K (n + 1) s ∨
    Budget sb K n s ∧ (entry s i).d.addrs INDIRECT ≠ 0 ∧ (entry s i).d.addrs INDIRECT ∈ K

theorem Reserve.budget (h : Reserve sb K n i s) : Budget sb K n s := by
  rcases h with h | h
  · exact h.mono (Nat.le_succ n)
  · exact h.1

theorem Reserve.mono {k : ℕ} (h : Reserve sb K n i s) (hk : k ≤ n) : Reserve sb K k i s := by
  rcases h with h | ⟨h, hind⟩
  · exact .inl (h.mono (Nat.succ_le_succ hk))
  · exact .inr ⟨h.mono hk, hind⟩

theorem Reserve.idle (h : Reserve sb K n i s) (hi : (entry s i).lock = some p) (hidle : Idle sb p s t) :
    Reserve sb K n i t := by
  rcases h with h | ⟨h, hind⟩
  · exact .inl (hidle.budget h)
  · refine .inr ⟨hidle.budget h, ?_⟩
    rw [hidle.same i hi]
    exact hind

theorem bmap_does (bn : ℕ) (hs : Reserve sb K (n + 1) i s) (hi : (entry s i).lock = some p) :
    Does A m (bmap i bn) s fun a t => ∃ K', K ⊆ K' ∧ a ∈ K' ∧ Reserve sb K' n i t ∧ Tight p s t := by
  unfold bmap
  split
  case isTrue hbn =>
    have hne : INDIRECT ≠ ⟨bn, Nat.lt_succ_of_lt hbn⟩ := fun h => absurd (congrArg Fin.val h) (by
      dsimp only
      omega)
    rcases hs with hs | ⟨hs, hind, hpaid⟩
    · refine (addrOf_does hs hi).mono fun a t ⟨hb, htight, _, hslot⟩ => ?_
      exact ⟨insert a K, subset_insert a K, mem_insert_self a K, .inl hb, htight⟩
    · refine (addrOf_does hs hi).mono fun a t ⟨hb, htight, _, hslot⟩ => ?_
      refine ⟨insert a K, subset_insert a K, mem_insert_self a K, .inr ⟨hb, ?_⟩, htight⟩
      rw [hslot.others _ hne]
      exact ⟨hind, mem_insert_of_mem hpaid⟩
  case isFalse hbn =>
    refine does_ite (fun _ => ?_) fun _ => does_panic hs.budget.fits
    rcases hs with hs | ⟨hs, hind, hpaid⟩
    · refine (addrOf_does hs hi).bind fun a t ⟨hb, htight, hne, hslot⟩ => ?_
      have hlock := (htight.grip i hi).1
      refine (indirectAddrOf_does _ hb (mem_insert_self a K)).mono fun b u ⟨hb', hstill⟩ => ?_
      refine ⟨insert b (insert a K), (subset_insert a K).trans (subset_insert ..),
        mem_insert_self .., .inr ⟨hb', ?_⟩, htight.trans hstill.toTight⟩
      rw [hstill.same i hlock, hslot.slot]
      exact ⟨hne, mem_insert_of_mem (mem_insert_self a K)⟩
    · refine (addrOf_kept hs hi hind).bind fun a t ⟨hidle, ha⟩ => ?_
      have hstill := hidle.toStill
      have hlock := (hstill.grip i hi).1
      refine (indirectAddrOf_does _ (hidle.budget hs) (ha ▸ hpaid)).mono fun b u ⟨hb', hstill'⟩ => ?_
      have hsame : (entry u i).d = (entry s i).d := (hstill'.same i hlock).trans (hstill.same i hi)
      refine ⟨insert b K, subset_insert b K, mem_insert_self b K, .inr ⟨hb', ?_⟩,
        (hstill.trans hstill').toTight⟩
      rw [hsame]
      exact ⟨hind, mem_insert_of_mem hpaid⟩

theorem bmap_first : bmap i (0 / BSIZE) = addrOf i ⟨0, Nat.succ_pos _⟩ := dif_pos (show 0 / BSIZE < NDIRECT by decide)

theorem writeLoop_does {turns off : ℕ} (w : ℕ) (hs : Reserve sb K (w + n) i s)
    (hi : (entry s i).lock = some p) (hw : src = [] ∨ off % BSIZE + src.length ≤ w * BSIZE) :
    Does A m (writeLoop i turns off src) s fun _ t => ∃ K', K ⊆ K' ∧ Reserve sb K' n i t ∧ Tight p s t := by
  induction turns generalizing K s w off src with
  | zero => exact does_pure ⟨K, Finset.Subset.rfl, hs.mono (Nat.le_add_left n w), .refl⟩
  | succ turns ih =>
    unfold writeLoop
    refine does_ite (fun _ => does_pure ⟨K, Finset.Subset.rfl, hs.mono (Nat.le_add_left n w), .refl⟩) fun hnil => ?_
    have hlen := List.length_pos_iff.mpr hnil
    have hw := hw.resolve_left hnil
    have hmod : off % BSIZE < BSIZE := Nat.mod_lt _ (by decide)
    cases w with
    | zero => omega
    | succ w =>
      rw [Nat.add_right_comm] at hs
      refine (bmap_does _ hs hi).bind fun a t ⟨K1, hsub, ha, hres, htight⟩ => ?_
      refine does_call_bind hres.budget.fits fun _ u ho => ?_
      have hlock := (htight.grip i hi).1
      have hstill := (writeBlock_turn hres.budget ha ho).2
      have hres' : Reserve sb K1 (w + n) i u := by
        rcases hres with hres | ⟨hres, hind⟩
        · exact .inl (writeBlock_turn hres ha ho).1
        · rw [← hstill.same i hlock] at hind
          exact .inr ⟨(writeBlock_turn hres ha ho).1, hind⟩
      have hrest : src.drop (BSIZE - off % BSIZE) = [] ∨
          (off + (src.take (BSIZE - off % BSIZE)).length) % BSIZE + (src.drop (BSIZE - off % BSIZE)).length ≤ w * BSIZE := by
        by_cases hshort : src.length ≤ BSIZE - off % BSIZE
        · exact .inl (List.drop_eq_nil_of_le hshort)
        · right
          have htake : (src.take (BSIZE - off % BSIZE)).length = BSIZE - off % BSIZE := by
            rw [List.length_take]
            omega
          have hzero : (off + (BSIZE - off % BSIZE)) % BSIZE = 0 := by
            have hdiv := Nat.div_add_mod off BSIZE
            rw [show off + (BSIZE - off % BSIZE) = BSIZE * (off / BSIZE + 1) by rw [Nat.mul_succ]; omega]
            exact Nat.mul_mod_right ..
          rw [htake, hzero, List.length_drop]
          rw [Nat.succ_mul] at hw
          omega
      refine (ih w hres' (hstill.grip i hlock).1 hrest).mono fun _ v ⟨K2, hsub', hres2, htight'⟩ => ?_
      exact ⟨K2, hsub.trans hsub', hres2, (htight.trans hstill.toTight).trans htight'⟩

theorem growTo_does (off : Word) (len : ℕ) (hs : Budget sb K n s) (hi : (entry s i).lock = some p)
    (hpaid : sb.iblock (entry s i).inum ∈ K) :
    Does A m (growTo i off len) s fun _ t => Budget sb K n t ∧ Tight p s t ∧ (entry t i).d.addrs = (entry s i).d.addrs := by
  refine inode_bind hs fun ip t hidle _ => ?_
  have hb := hidle.budget hs
  obtain ⟨hlock, hinum, -⟩ := hidle.grip i hi
  have hd := hidle.same i hi
  refine does_ite (fun _ => ?_) fun _ => does_pure ⟨hb, hidle.toTight, by rw [hd]⟩
  refine does_call_bind hb.fits fun _ u hstore => ?_
  obtain ⟨hb', htight, hd'⟩ := store_turn hb hstore
  obtain ⟨hlock', hinum', -⟩ := htight.grip i hlock
  refine does_call hb'.fits fun _ v hupdate => ?_
  obtain ⟨hb'', hstill⟩ := iupdate_turn hb' hlock' (by rwa [hinum', hinum]) hupdate
  refine ⟨hb'', (hidle.toTight.trans htight).trans hstill.toTight, ?_⟩
  rw [hstill.same i hlock', hd' hlock, hd]
  rfl

/-- A write to a file that is no device either does nothing, or runs its loop and lets the file grow. -/
theorem writei_cases {Q : Pt → Prop} (hs : Budget sb K n s) (hi : (entry s i).lock = some p)
    (hdev : (entry s i).d.type ≠ .dev) (hnone : ∀ t, Idle sb p s t → Q t)
    (hloop : ∀ t, Idle sb p s t → Does A m (writeLoop i src.length off.toNat src >>= fun _ =>
      growTo i (off + BitVec.ofNat 32 src.length) src.length) t fun _ u => Q u) :
    Does A m (writei p i src off) s fun _ t => Q t := by
  refine inode_bind hs fun ip t hidle hip => ?_
  rw [hip hi]
  refine does_ite (fun h => (hdev h).elim) fun _ => does_ite (fun _ => does_pure (hnone t hidle)) fun _ => ?_
  refine does_ite (fun _ => does_pure (hnone t hidle)) fun _ => ?_
  rw [← bind_assoc]
  exact (hloop t hidle).bind fun _ u hu => does_pure hu

theorem writei_file (w : ℕ) (hs : Reserve sb K (w + n) i s) (hi : (entry s i).lock = some p)
    (hdev : (entry s i).d.type ≠ .dev) (hpaid : sb.iblock (entry s i).inum ∈ K)
    (hw : off.toNat % BSIZE + src.length ≤ w * BSIZE) :
    Does A m (writei p i src off) s fun _ t => ∃ K', K ⊆ K' ∧ Reserve sb K' n i t ∧ Tight p s t := by
  refine writei_cases hs.budget hi hdev (fun t hidle => ?_) fun t hidle => ?_
  · exact ⟨K, Finset.Subset.rfl, (hs.idle hi hidle).mono (Nat.le_add_left n w), hidle.toTight⟩
  obtain ⟨hlock, hinum, -⟩ := hidle.grip i hi
  refine (writeLoop_does w (hs.idle hi hidle) hlock (.inr hw)).bind fun _ u ⟨K', hsub, hres, htight⟩ => ?_
  obtain ⟨hlock', hinum', -⟩ := htight.grip i hlock
  have hpaid' : sb.iblock (entry u i).inum ∈ K' := by
    rw [hinum', hinum]
    exact hsub hpaid
  have htight' := hidle.toTight.trans htight
  rcases hres with hres | ⟨hres, hind⟩
  · refine (growTo_does _ _ hres hlock' hpaid').mono fun _ v ⟨hb, hgrow, _⟩ => ?_
    exact ⟨K', hsub, .inl hb, htight'.trans hgrow⟩
  · refine (growTo_does _ _ hres hlock' hpaid').mono fun _ v ⟨hb, hgrow, haddrs⟩ => ?_
    rw [← haddrs] at hind
    exact ⟨K', hsub, .inr ⟨hb, hind⟩, htight'.trans hgrow⟩

theorem writei_first (hs : Budget sb K (n + 1) s) (hi : (entry s i).lock = some p)
    (hdev : (entry s i).d.type ≠ .dev) (hpaid : sb.iblock (entry s i).inum ∈ K) (hlen : src.length ≤ BSIZE) :
    Does A m (writei p i src 0) s fun _ t => ∃ K', K ⊆ K' ∧ Budget sb K' n t ∧ Tight p s t := by
  have hloop (turns : ℕ) (s : Pt) (hs : Budget sb K (n + 1) s) (hi : (entry s i).lock = some p) :
      Does A m (writeLoop i turns 0 src) s fun _ t => ∃ K', K ⊆ K' ∧ Budget sb K' n t ∧ Tight p s t := by
    have hnone : ∃ K', K ⊆ K' ∧ Budget sb K' n s ∧ Tight p s s :=
      ⟨K, Finset.Subset.rfl, hs.mono (Nat.le_succ n), .refl⟩
    cases turns with
    | zero => exact does_pure hnone
    | succ turns =>
      unfold writeLoop
      refine does_ite (fun _ => does_pure hnone) fun _ => ?_
      rw [bmap_first]
      refine (addrOf_does hs hi).bind fun a t ⟨hb, htight, _, _⟩ => does_call_bind hb.fits fun _ u ho => ?_
      obtain ⟨hb', hstill⟩ := writeBlock_turn hb (mem_insert_self a K) ho
      have hdrop : src.drop (BSIZE - 0 % BSIZE) = [] := List.drop_eq_nil_of_le hlen
      rw [hdrop]
      have hrest (off : ℕ) : writeLoop i turns off [] = pure () := by
        cases turns <;> rfl
      rw [hrest]
      exact does_pure ⟨insert a K, subset_insert a K, hb', htight.trans hstill.toTight⟩
  refine writei_cases hs hi hdev (fun t hidle => ?_) fun t hidle => ?_
  · exact ⟨K, Finset.Subset.rfl, (hidle.budget hs).mono (Nat.le_succ n), hidle.toTight⟩
  obtain ⟨hlock, hinum, -⟩ := hidle.grip i hi
  refine (hloop src.length t (hidle.budget hs) hlock).bind fun _ u ⟨K', hsub, hb, htight⟩ => ?_
  obtain ⟨hlock', hinum', -⟩ := htight.grip i hlock
  have hpaid' : sb.iblock (entry u i).inum ∈ K' := by
    rw [hinum', hinum]
    exact hsub hpaid
  refine (growTo_does _ _ hb hlock' hpaid').mono fun _ v ⟨hb', hgrow, _⟩ => ?_
  exact ⟨K', hsub, hb', (hidle.toTight.trans htight).trans hgrow⟩

/-- A device gives up the lock of its inode for a while. -/
theorem relock_does {f : o.Ans → KProg α} {Q : α → Pt → Prop} (ho : Quiet o) (hs : Budget sb K n s)
    (hf : ∀ b t, Budget sb K n t → Relocked p i s t → Does A m (f b) t Q) :
    Does A m (iunlock p i >>= fun _ => call o >>= fun b => ilock p i >>= fun _ => f b) s Q := by
  refine does_call_bind hs.fits fun _ t hunlock => ?_
  obtain ⟨hb, hloosed, hrefs, -⟩ := iunlock_turn hs hunlock
  refine quiet_bind ho hb fun b u hidle => ?_
  have hb' := hidle.budget hb
  refine does_call_bind hb'.fits fun _ v hlock => ?_
  obtain ⟨hb'', hkept, hrefs', hlocks, -, hinum⟩ := ilock_turn hb' hlock
  have hkept' := hidle.toTight.kept
  rw [hrefs] at hkept'
  rw [hidle.refs, hrefs] at hkept hrefs' hinum
  have hall := (hloosed.trans (hkept'.loosed i)).trans (hkept.loosed i)
  refine hf b v hb'' ⟨hall, fun hi => hall.kept ?_, hrefs'⟩
  rw [← hall.named i hi]
  exact hlocks

theorem writei_of_file {k : ℕ} (hs : Budget sb K k s) (hk : n ≤ k) (hi : (entry s i).lock = some p)
    (hfile : (entry s i).d.type ≠ .dev →
      Does A m (writei p i src off) s fun _ t => ∃ K', K ⊆ K' ∧ Budget sb K' n t ∧ Tight p s t) :
    Does A m (writei p i src off) s fun _ t => ∃ K', K ⊆ K' ∧ Budget sb K' n t ∧ Relocked p i s t := by
  by_cases hdev : (entry s i).d.type = .dev
  · refine inode_bind hs fun ip t hidle hip => ?_
    rw [hip hi, if_pos hdev]
    have hb := hidle.budget (hs.mono hk)
    have hsame := hidle.toTight.relocked i
    refine does_ite (fun _ => ?_) fun _ => does_pure ⟨K, Finset.Subset.rfl, hb, hsame⟩
    refine relock_does (o := .fs (.consolewrite src)) trivial hb fun _ u hb' hrelocked => does_pure ?_
    exact ⟨K, Finset.Subset.rfl, hb', hsame.trans hrelocked⟩
  · exact (hfile hdev).mono fun _ t ⟨K', hsub, hb, htight⟩ => ⟨K', hsub, hb, htight.relocked i⟩

theorem writei_any (w : ℕ) (hs : Budget sb K (w + n + 1) s) (hi : (entry s i).lock = some p)
    (hpaid : sb.iblock (entry s i).inum ∈ K) (hw : off.toNat % BSIZE + src.length ≤ w * BSIZE) :
    Does A m (writei p i src off) s fun _ t => ∃ K', K ⊆ K' ∧ Budget sb K' n t ∧ Relocked p i s t := by
  refine writei_of_file hs (by omega) hi fun hdev => ?_
  refine (writei_file w (.inl hs) hi hdev hpaid hw).mono fun _ t ⟨K', hsub, hres, htight⟩ => ?_
  exact ⟨K', hsub, hres.budget, htight⟩

theorem Idle.not_dev (h : Idle sb p s t) (hs : (entry s i).lock = some p → (entry s i).d.type ≠ .dev)
    (hi : (entry t i).lock = some p) : (entry t i).d.type ≠ .dev := by
  have hlock := h.unlock i hi
  rw [h.same i hlock]
  exact hs hlock

/-! Reading where no block is missing. -/
section Dense
variable (hm : m.dense = true)
include hm

theorem addrOf_dense (k : Fin 8) (hs : Budget sb K n s) : Does A m (addrOf i k) s fun _ t => Idle sb p s t := by
  refine inode_bind hs fun ip t hidle _ => does_ite (fun _ => ?_) fun _ => does_pure hidle
  exact (balloc_dense (Q := fun _ _ => False) hm (hidle.budget hs)).bind fun _ _ h => h.elim

theorem indirectAddrOf_dense (a : Word) (bn : ℕ) (hs : Budget sb K n s) :
    Does A m (indirectAddrOf a bn) s fun _ t => Idle sb p s t := by
  refine quiet_bind (o := .fs (.readBlock a)) trivial hs fun data t hidle => does_ite (fun _ => ?_) fun _ => does_pure hidle
  exact (balloc_dense (Q := fun _ _ => False) hm (hidle.budget hs)).bind fun _ _ h => h.elim

theorem bmap_dense (bn : ℕ) (hs : Budget sb K n s) : Does A m (bmap i bn) s fun _ t => Idle sb p s t := by
  unfold bmap
  split
  case isTrue => exact addrOf_dense hm _ hs
  case isFalse =>
    refine does_ite (fun _ => ?_) fun _ => does_panic hs.fits
    refine (addrOf_dense hm _ hs).bind fun a t hidle => ?_
    exact (indirectAddrOf_dense hm a _ (hidle.budget hs)).mono fun _ _ hidle' => hidle.trans hidle'

theorem readLoop_dense (turns off len : ℕ) (hs : Budget sb K n s) :
    Does A m (readLoop i turns off len) s fun _ t => Idle sb p s t := by
  induction turns generalizing s off len with
  | zero => exact does_pure Idle.refl
  | succ turns ih =>
    unfold readLoop
    refine does_ite (fun _ => does_pure Idle.refl) fun _ => (bmap_dense hm _ hs).bind fun a t hidle => ?_
    refine quiet_bind (o := .fs (.readBlock a)) trivial (hidle.budget hs) fun data u hidle' => ?_
    have hboth := hidle.trans hidle'
    exact (ih _ _ (hboth.budget hs)).bind fun _ v hv => does_pure (hboth.trans hv)

theorem readi_dense (off len : Word) (hs : Budget sb K n s)
    (hdev : (entry s i).lock = some p → (entry s i).d.type ≠ .dev) :
    Does A m (readi p i off len) s fun _ t => Idle sb p s t := by
  refine inode_bind hs fun ip t hidle hip => ?_
  have hb := hidle.budget hs
  refine does_ite (fun htype => ?_) fun _ => does_ite (fun _ => does_pure hidle) fun _ => ?_
  · refine does_ite (fun _ => ?_) fun _ => does_pure hidle
    refine does_call_bind hb.fits fun _ u ho => ?_
    have hlock := hidle.unlock i (iunlock_lock ho)
    rw [hip hlock] at htype
    exact (hdev hlock htype).elim
  · exact (readLoop_dense hm _ _ _ hb).bind fun _ u hu => does_pure (hidle.trans hu)

end Dense

theorem readDirent_does {dp : InodeIdx} (off : ℕ) (msg : String) (hs : Budget sb K n s)
    (hdev : (entry s dp).lock = some p → (entry s dp).d.type ≠ .dev) :
    Does A m (readDirent p dp off msg) s fun _ t => Idle sb p s t := by
  have hdense : Does A ⟨m.calm, true⟩ (readDirent p dp off msg) s fun _ t => Idle sb p s t := by
    refine (readi_dense rfl _ _ hs hdev).bind fun r t hidle => ?_
    exact does_ite (fun _ => does_pure hidle) fun _ => does_panic (hidle.budget hs).fits
  exact fun hx => hdense ⟨hx.entries, hx.lookups, hx.calm, fun _ => hx.entries.self ⟨dp, off, msg, rfl⟩⟩

theorem readi_any {len : Word} (hs : Budget sb K (n + 1) s) (hi : (entry s i).lock = some p) (hlen : len.toNat ≤ BSIZE) :
    Does A m (readi p i 0 len) s fun _ t => ∃ K', K ⊆ K' ∧ Budget sb K' n t ∧ Relocked p i s t := by
  have hloop (turns len : ℕ) (hlen : len ≤ BSIZE) (s : Pt) (hs : Budget sb K (n + 1) s) (hi : (entry s i).lock = some p) :
      Does A m (readLoop i turns 0 len) s fun _ t => ∃ K', K ⊆ K' ∧ Budget sb K' n t ∧ Tight p s t := by
    have hnone : ∃ K', K ⊆ K' ∧ Budget sb K' n s ∧ Tight p s s :=
      ⟨K, Finset.Subset.rfl, hs.mono (Nat.le_succ n), .refl⟩
    cases turns with
    | zero => exact does_pure hnone
    | succ turns =>
      unfold readLoop
      refine does_ite (fun _ => does_pure hnone) fun _ => ?_
      rw [bmap_first]
      refine (addrOf_does hs hi).bind fun a t ⟨hb, htight, _, _⟩ => ?_
      refine quiet_bind (o := .fs (.readBlock a)) trivial hb fun (data : Mem) u hidle => ?_
      have hmin : len - min len (BSIZE - 0 % BSIZE) = 0 := by
        rw [Nat.zero_mod]
        omega
      dsimp only
      rw [hmin]
      have hrest : readLoop i turns (0 + min len (BSIZE - 0 % BSIZE)) 0 = pure [] := by
        cases turns <;> rfl
      rw [hrest]
      exact does_pure ⟨insert a K, subset_insert a K, hidle.budget hb, htight.trans hidle.toTight⟩
  refine inode_bind hs fun ip t hidle hip => ?_
  have hb := hidle.budget hs
  have hsame := hidle.toTight.relocked i
  have hnone : ∃ K', K ⊆ K' ∧ Budget sb K' n t ∧ Relocked p i s t := ⟨K, Finset.Subset.rfl, hb.mono (Nat.le_succ n), hsame⟩
  refine does_ite (fun _ => ?_) fun _ => does_ite (fun _ => does_pure hnone) fun _ => ?_
  · refine does_ite (fun _ => ?_) fun _ => does_pure hnone
    refine relock_does (o := .fs (.consoleread p len.toInt.toNat)) trivial hb fun _ u hb' hrelocked => does_pure ?_
    exact ⟨K, Finset.Subset.rfl, hb'.mono (Nat.le_succ n), hsame.trans hrelocked⟩
  · refine (hloop _ _ ?_ t hb (hidle.grip i hi).1).bind fun _ u ⟨K', hsub, hb', htight⟩ => does_pure ?_
    · split
      case isTrue h =>
        have hlt : ip.d.size - 0 = ip.d.size := BitVec.sub_zero _
        rw [hlt]
        bv_omega
      case isFalse => exact hlen
    · exact ⟨K', hsub, hb', hsame.trans (htight.relocked i)⟩

end Xv6.Tx
