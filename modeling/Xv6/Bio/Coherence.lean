import Xv6.Bio.Invariant
import Xv6.Log.Machine

/-! # What the users of the buffer cache see -/
namespace Xv6.Bio
open Function State List

variable {ι : Type} [DecidableEq ι] {s s' : State ι} {l : Label ι} {p : ι} {j : Fin NBUF} {b : BlockId}

section Blocks

omit [DecidableEq ι] in
theorem update_block {buf : Fin NBUF → Buf ι} (hc : c.block = (buf j).block) (i : Fin NBUF) :
    (update buf j c i).block = (buf i).block := by
  by_cases hi : i = j
  · rw [hi, update_self, hc]
  · rw [update_of_ne hi]

theorem iderw_frame (ht : s.iderw p j = some t) :
    t.links = s.links ∧
      ∃ c, t.buf = update s.buf j c ∧ c.block = (s.buf j).block ∧ c.holder = (s.buf j).holder := by
  unfold iderw at ht
  dsimp only at ht
  split_ifs at ht
  all_goals
    cases ht
    exact ⟨rfl, _, rfl, rfl, rfl⟩

theorem block_kept (hs : Steps step s l s') (hj : 0 < (s.buf j).refcnt ∨ (s.buf j).dirty = true) :
    (s'.buf j).block = (s.buf j).block := by
  have hdisk {p : ι} {i : Fin NBUF} {t : State ι} (ht : s.iderw p i = some t) : (t.buf j).block = (s.buf j).block := by
    obtain ⟨-, c, hbuf, hc, -⟩ := iderw_frame ht
    rw [hbuf]
    exact update_block hc j
  cases s.moves_of_step hs with
  | recycle _ _ hi =>
    obtain ⟨hzero, hclean⟩ := s.of_unused hi
    refine congrArg Buf.block (update_of_ne ?_ ..)
    rintro rfl
    rw [hzero, hclean] at hj
    simp at hj
  | hit | acquiresleep | bwrite | logWrite | releasesleep =>
    refine update_block ?_ j
    rfl
  | read _ ht | write _ ht => exact (hdisk ht :)
  | unref =>
    unfold unref
    dsimp only
    split
    all_goals
      refine update_block ?_ j
      rfl
  | check | setLog => rfl

end Blocks

section Run
variable [Fintype ι] {disk mem : BlockId → Block} {log : Log} {tr : List (State ι × Label ι)}

theorem binit_ring : binit.Ring (finRange NBUF).reverse := by
  have hempty : Links.Ring (((⟨fun _ => none, fun _ => none⟩ : Links (Fin NBUF)).setPrev none none).setNext none none) [] :=
    Links.Ring.nil rfl rfl
  have hnodup : ((finRange NBUF).reverse ++ []).Nodup := by
    rw [append_nil]
    exact nodup_reverse.mpr (nodup_finRange NBUF)
  have hring := hempty.foldl_pushFront hnodup
  rwa [append_nil] at hring

omit [DecidableEq ι] in
/-- Nothing is in use at first, so that the blocks hold what the disk holds. -/
theorem boot_inv : Inv disk (boot disk log : State ι) := by
  have hdead (c : Buf ι) (hc : c = {}) : ¬ c.Live := by
    subst hc
    exact fun h => h.elim (fun h => by cases h) (Nat.lt_irrefl 0)
  refine ⟨⟨⟨_, binit_ring, fun j => by simp, ?_⟩, fun i j hi => (hdead _ rfl hi).elim⟩, fun j => ?_, fun p j h => h.elim,
    fun j p h => ?_, ⟨fun j h => ?_, fun j h => ?_, fun b => .inl rfl⟩⟩
  · exact List.Pairwise.imp (fun _ hj => (hdead _ rfl hj).elim) (pairwise_of_forall fun _ _ => trivial)
  · change 0 = 0 + ∑ p : ι, 0
    simp
  all_goals
    simp [boot] at h

omit [Fintype ι] in
theorem stored_snoc (e : State ι × Label ι) : stored disk (tr ++ [e]) = e.1.written (stored disk tr) e.2 := by
  rw [stored, foldl_append]
  rfl

theorem run_inv (hr : Run (Steps step) (boot disk log) tr s) : Inv (stored disk tr) s := by
  induction hr with
  | start => exact boot_inv
  | snoc _ hs ih =>
    rw [stored_snoc]
    exact ih.step hs

theorem returned_data (h : Inv mem s) (hs : Steps step s l s') (hl : s.returned l = some (p, j, b)) :
    s'.Holds p j ∧ (s'.buf j).block = b ∧ (s'.buf j).data = mem b := by
  have h' := h.step hs
  -- a valid buffer holds what was written last
  have hfull (hwritten : s.written mem l = mem) (hpc : s'.pc p = .idle) (hholder : (s'.buf j).holder = some p)
      (hblock : (s'.buf j).block = b) : s'.Holds p j ∧ (s'.buf j).block = b ∧ (s'.buf j).data = mem b := by
    have hp : s'.Holds p j := holds_iff.mpr ⟨hpc, hholder⟩
    have hdata := h'.content.data j (h'.valid_of_holds hp)
    rw [hwritten, hblock] at hdata
    exact ⟨hp, hblock, hdata⟩
  cases s.moves_of_step hs with
  | check hpc =>
    rw [returned, hpc] at hl
    dsimp only at hl
    split at hl
    case isFalse => cases hl
    case isTrue hvalid =>
      cases hl
      have hknows := h.pc p j (by rw [hpc]; rfl)
      rw [hpc] at hknows
      refine hfull rfl ?_ hknows.2 hknows.1
      rw [if_pos hvalid]
      exact update_self ..
  | read hpc ht =>
    rw [returned, hpc] at hl
    cases hl
    have hknows := h.pc p j (by rw [hpc]; rfl)
    rw [hpc] at hknows
    obtain ⟨-, c, hbuf, hblock, hholder⟩ := iderw_frame ht
    have hself : (_ : State ι).buf j = c := (congrFun hbuf j).trans (update_self ..)
    refine hfull rfl (update_self ..) ?_ ?_
    · exact (congrArg Buf.holder hself).trans (hholder.trans hknows.2.1)
    · exact (congrArg Buf.block hself).trans (hblock.trans hknows.1)
  | write hpc =>
    rw [returned, hpc] at hl
    cases hl
  | hit | recycle | acquiresleep | bwrite | logWrite | releasesleep | unref | setLog => cases hl

/-- The buffer cache after any run from `binit`, and in its next step. The list is one ring with
every buffer. No two buffers that are valid or referenced have the same block. A buffer that is
referenced or marked keeps its block. What `bread` returns is locked, and holds what was
written to the block last or else what the disk held at first. -/
theorem bcache_coherent (hr : Run (Steps State.step) (boot disk log) tr s) :
    OneRing s.links ∧ (∀ i j, (s.buf i).Live → (s.buf j).Live → (s.buf i).block = (s.buf j).block → i = j) ∧
      ∀ l s', Steps State.step s l s' →
        (∀ j, 0 < (s.buf j).refcnt ∨ (s.buf j).dirty = true → (s'.buf j).block = (s.buf j).block) ∧
          ∀ p j b, s.returned l = some (p, j, b) → s'.Holds p j ∧ (s'.buf j).block = b ∧ (s'.buf j).data = stored disk tr b := by
  have h := run_inv hr
  obtain ⟨order, hring, hall, -⟩ := h.placed.ring
  exact ⟨⟨order, hring, hall⟩, h.placed.unique, fun l s' hs => ⟨fun j => block_kept hs, fun p j b => returned_data h hs⟩⟩

end Run

def opened : State (Fin 2) := boot (fun _ _ => 0) { size := 30, outstanding := 1 }

/-- Process 0 reads block 5 and logs it; process 1 asks for it after that. -/
def handover : List (Label (Fin 2)) :=
  [.bget 0 ⟨1, 5⟩, .acquiresleep 0, .check 0, .iderw 0, .logWrite 0 0 fun _ => 7, .releasesleep 0 0, .unref 0,
    .bget 1 ⟨1, 5⟩, .acquiresleep 1]

theorem bcache_coherent_handover :
    ∃ s', Steps State.step (handover.foldl (after State.step) opened) (.check 1) s' ∧
      s'.Holds 1 0 ∧ (s'.buf 0).data = fun _ => 7 := by
  have hrun : Run (Steps step) opened (trace step opened handover) (handover.foldl (after step) opened) :=
    run_trace (by decide +kernel)
  have hs : Steps step (handover.foldl (after step) opened) (.check 1)
      (after step (handover.foldl (after step) opened) (.check 1)) := steps_after (by decide +kernel)
  obtain ⟨-, -, hstep⟩ := bcache_coherent hrun
  obtain ⟨hholds, -, hdata⟩ := (hstep _ _ hs).2 1 0 ⟨1, 5⟩ (by decide +kernel)
  exact ⟨_, hs, hholds, hdata.trans (by decide +kernel)⟩

section Progress
variable [Fintype ι] {disk mem : BlockId → Block} {log : Log} {tr : List (State ι × Label ι)}

/-- Process 0 has released block 5. -/
def rested : State (Fin 2) := (handover.take 7).foldl (after step) opened

theorem rested_run : Run (Steps step) opened (trace step opened (handover.take 7)) rested :=
  run_trace (by decide +kernel)

end Progress

section Recency
variable {disk : BlockId → Block} {log : Log} {tr : List (State ι × Label ι)}

/-- The list of buffers after a step: one that nobody refers to any more comes to the front. -/
def State.moved (s : State ι) (l : List (Fin NBUF)) : Label ι → List (Fin NBUF)
  | .unref p =>
    match s.pc p with
    | .releasing j => if (s.buf j).refcnt - 1 = 0 then j :: l.erase j else l
    | _ => l
  | _ => l

/-- The buffers by their last release, the latest one first. -/
def recency (tr : List (State ι × Label ι)) : List (Fin NBUF) :=
  tr.foldl (fun l e => e.1.moved l e.2) (finRange NBUF).reverse

theorem ring_step {l : List (Fin NBUF)} (hs : Steps step s a s') (h : s.links.Ring l) (hall : ∀ j, j ∈ l) :
    s'.links.Ring (s.moved l a) ∧ ∀ j, j ∈ s.moved l a := by
  cases s.moves_of_step hs with
  | @unref p j hpc =>
    have hbuf : ((s.setBuf j { s.buf j with refcnt := (s.buf j).refcnt - 1 }).buf j).refcnt = (s.buf j).refcnt - 1 := by
      simp only [setBuf, update_self]
    simp only [moved, hpc, setPc, unref, hbuf]
    split
    · obtain ⟨l1, l2, rfl⟩ := append_of_mem (hall j)
      have hj := (nodup_cons.mp (nodup_middle.mp h.nodup)).1
      rw [erase_append_right _ fun h => hj (mem_append_left _ h), erase_cons_head]
      exact ⟨h.moveFront, fun i => perm_middle.mem_iff.mp (hall i)⟩
    · exact ⟨h, hall⟩
  | read _ ht | write _ ht => exact ⟨(iderw_frame ht).1.symm ▸ h, hall⟩
  | hit | recycle | acquiresleep | check | bwrite | logWrite | releasesleep | setLog => exact ⟨h, hall⟩

theorem recency_ring (hr : Run (Steps step) (boot disk log) tr s) : s.links.Ring (recency tr) ∧ ∀ j, j ∈ recency tr := by
  induction hr with
  | start => exact ⟨binit_ring, fun j => by simp [recency]⟩
  | snoc _ hs ih =>
    rw [recency, foldl_append]
    exact ring_step hs ih.1 ih.2

/-- A block that is not cached gets the buffer that was released longest ago among those
that nobody refers to and that are not marked. -/
theorem bget_recycles [Fintype ι] (hr : Run (Steps step) (boot disk log) tr s) (hmiss : ∀ j, (s.buf j).block ≠ b)
    (hs : Steps step s (.bget p b) s') : ∃ later j earlier, recency tr = later ++ j :: earlier ∧ s'.pc p = .got j b ∧
      ((s.buf j).refcnt = 0 ∧ (s.buf j).dirty = false) ∧ ∀ i ∈ earlier, ¬ ((s.buf i).refcnt = 0 ∧ (s.buf i).dirty = false) := by
  cases s.moves_of_step hs with
  | hit _ hj => exact (hmiss _ ((run_inv hr).placed.hit hj).1).elim
  | @recycle _ _ j _ _ hj =>
    obtain ⟨hring, -⟩ := recency_ring hr
    have hfind := hj
    rw [unused, hring.scan_prev (Placed.length_le hring)] at hfind
    obtain ⟨-, earlier, later, hrev, hfirst⟩ := find?_eq_some_iff_append.mp hfind
    refine ⟨later.reverse, j, earlier.reverse, ?_, update_self .., s.of_unused hj, ?_⟩
    · rw [← reverse_reverse (recency tr), hrev]
      simp
    · intro i hi
      have hfirst := hfirst i (mem_reverse.mp hi)
      rwa [Bool.not_eq_true', decide_eq_false_iff_not] at hfirst

theorem bget_recycles_rested : ∃ later j earlier, recency (trace step opened (handover.take 7)) = later ++ j :: earlier ∧
    (after step rested (.bget 1 ⟨1, 9⟩)).pc 1 = .got j ⟨1, 9⟩ ∧ ((rested.buf j).refcnt = 0 ∧ (rested.buf j).dirty = false) ∧
      ∀ i ∈ earlier, ¬ ((rested.buf i).refcnt = 0 ∧ (rested.buf i).dirty = false) :=
  bget_recycles rested_run (by decide +kernel) (steps_after (by decide +kernel))

end Recency

section Logging
variable [Fintype ι] {disk mem : BlockId → Block} {log : Log} {tr : List (State ι × Label ι)}

instance (c : Buf ι) : Decidable c.Live := inferInstanceAs (Decidable (_ ∨ _))

def Buf.seen (dev : Word) (c : Buf ι) : Logging.Buf ι where
  blockno := if c.Live ∧ c.block.dev = dev then some c.block.blockno else none
  data := c.data
  dirty := c.dirty
  holder := c.holder

omit [DecidableEq ι] [Fintype ι] in
theorem seen_blockno {c : Buf ι} : (c.seen dev).blockno = some n ↔ c.Live ∧ c.block = ⟨dev, n⟩ := by
  obtain ⟨valid, dirty, ⟨d, m⟩, holder, refcnt, data⟩ := c
  simp [Buf.seen, and_assoc]

omit [DecidableEq ι] in
/-- The buffer that the first loop of `bget` finds is the only one that can be in use for the
block. -/
theorem eq_of_cached (h : Inv mem s) (hj : s.cached b = some j) (hi : (s.buf i).Live) (hib : (s.buf i).block = b) :
    i = j := by
  by_contra hij
  obtain ⟨hblock, hplaced⟩ := h.placed.hit hj
  have hself : update s.buf j { s.buf j with refcnt := 1 } j = { s.buf j with refcnt := 1 } := update_self ..
  have hne : update s.buf j { s.buf j with refcnt := 1 } i = s.buf i := update_of_ne hij ..
  refine hij ((hplaced { s.buf j with refcnt := 1 } (.inr Nat.one_pos) hblock).unique i j ?_ ?_ ?_)
  · rwa [hne]
  · rw [hself]
    exact .inr Nat.one_pos
  · rw [hne, hself]
    exact hib.trans hblock.symm

/-- What `bget` finds is what the model of the log lets it find, unless it has to wait for the
buffer. -/
theorem bget_gets {dev n : Word} (hr : Run (Steps step) (boot disk log) tr s) (hs : Steps step s (.bget p ⟨dev, n⟩) s') :
    ∃ j, s'.pc p = .got j ⟨dev, n⟩ ∧ ((s.buf j).holder = none → Logging.Gets (fun i => (s.buf i).seen dev) n j) := by
  have h := run_inv hr
  cases s.moves_of_step hs with
  | @hit _ _ j _ hj =>
    refine ⟨j, update_self .., fun hholder => ⟨hholder, ?_⟩⟩
    by_cases hlive : (s.buf j).Live
    · exact .inl (seen_blockno.mpr ⟨hlive, (h.placed.hit hj).1⟩)
    · -- a buffer that was never used
      refine .inr ⟨fun i hi => ?_, ?_⟩
      · obtain ⟨hi, hib⟩ := seen_blockno.mp hi
        obtain rfl := eq_of_cached h hj hi hib
        exact hlive hi
      · by_contra hd
        exact hlive (.inl (h.content.dirty j (by simpa [Buf.seen] using hd)))
  | @recycle _ _ j _ hnone hj =>
    obtain ⟨-, hclean⟩ := s.of_unused hj
    refine ⟨j, update_self .., fun hholder => ⟨hholder, .inr ⟨fun i hi => ?_, hclean⟩⟩⟩
    exact h.placed.none_cached hnone i (seen_blockno.mp hi).2

theorem bget_gets_rested : ∃ j, (after step rested (.bget 1 ⟨1, 5⟩)).pc 1 = .got j ⟨1, 5⟩ ∧
    ((rested.buf j).holder = none → Logging.Gets (fun i => (rested.buf i).seen 1) 5 j) :=
  bget_gets rested_run (steps_after (by decide +kernel))

end Logging
end Xv6.Bio
