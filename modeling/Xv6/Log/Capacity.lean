import Mathlib.Algebra.BigOperators.Ring.Finset
import Mathlib.Algebra.Order.BigOperators.Group.Finset
import Xv6.Log.Crash

/-! # Room in the log

`begin_op` reserves `MAXOPBLOCKS` blocks of `LOGSIZE` for every operation, while
`log_write` stops one block earlier, at the end of the log on the disk. The blocks that an
operation has passed to `log_write` are counted beside the machine.
-/
namespace Xv6.Logging
open Function State Pc Finset

/-- The machine, with the blocks that each operation has passed to `log_write`. -/
structure Tally (ι : Type) where
  state : State ι
  used : ι → Finset Word

variable {ι : Type} [DecidableEq ι]

namespace Tally

/-- What the operations have passed after a step. -/
def count (t : Tally ι) : Label ι → ι → Finset Word
  | .beginOp p => update t.used p ∅
  | .record p =>
    match t.state.pc p with
    | .logging j =>
      match (t.state.buf j).blockno with
      | some b => update t.used p (insert b (t.used p))
      | none => t.used
    | _ => t.used
  | _ => t.used

def step (g : LogArea) (t : Tally ι) (l : Label ι) : Option (Tally ι) :=
  (t.state.step g l).map fun s => ⟨s, t.count l⟩

/-- The blocks that its operation has passed with a call of `log_write`. -/
def passed (t : Tally ι) : Label ι → Finset Word
  | .check p j _ =>
    match (t.state.buf j).blockno with
    | some b => insert b (t.used p)
    | none => ∅
  | _ => ∅

/-- A call of `log_write` with which its operation has passed at most `limit` blocks. -/
def Passes (limit : ℕ) (t : Tally ι) (l : Label ι) : Prop := (t.passed l).card ≤ limit

instance (limit : ℕ) (t : Tally ι) (l : Label ι) : Decidable (t.Passes limit l) := inferInstanceAs (Decidable (_ ≤ _))

end Tally

/-- What an operation may still add to the group, if it passes at most `limit` blocks. -/
def reserve (limit : ℕ) (c : Pc) (used : Finset Word) : ℕ := if c.InOp then limit - used.card else 0

section Invariant
variable [Fintype ι]

/-- While the machine runs, the group and what the operations may still add to it are
smaller than the log. -/
structure Roomy (limit : ℕ) (t : Tally ι) : Prop where
  size : t.state.log.size = LOGSIZE
  spare : t.state.phase = .running →
    t.state.log.lh.length + ∑ p, reserve limit (t.state.pc p) (t.used p) + 2 ≤ LOGSIZE
  fresh : t.state.phase = .running → Quiet t.state → t.state.log.lh = []
  recorded : ∀ p, (t.state.pc p).InOp → ∀ b ∈ t.used p, b ∈ t.state.log.lh
  logging : ∀ p j b, t.state.pc p = .logging j → (t.state.buf j).blockno = some b → (insert b (t.used p)).card ≤ limit

namespace Roomy
variable {g : LogArea} {base : Disk} {limit : ℕ} {t : Tally ι} {s : State ι}

omit [DecidableEq ι] in
theorem reserve_quiet (hq : Quiet s) (used : ι → Finset Word) : ∑ p, reserve limit (s.pc p) (used p) = 0 :=
  sum_eq_zero fun p _ => if_neg (hq p)

omit [DecidableEq ι] in
theorem reserve_le (limit : ℕ) (pc : ι → Pc) (used : ι → Finset Word) :
    ∑ p, reserve limit (pc p) (used p) ≤ limit * countThreads InOp pc := by
  rw [countThreads, card_filter, mul_sum]
  refine sum_le_sum fun p _ => ?_
  unfold reserve
  split <;> simp

theorem reserve_update (limit : ℕ) (pc : ι → Pc) (used : ι → Finset Word) (p : ι) (c : Pc) (u : Finset Word) :
    ∑ q, reserve limit (update pc p c q) (update used p u q) + reserve limit (pc p) (used p) =
      ∑ q, reserve limit (pc q) (used q) + reserve limit c u := by
  have hsum := sum_of_ne (f := fun q => reserve limit (pc q) (used q))
    (g := fun q => reserve limit (update pc p c q) (update used p u q)) (p := p) fun q hq => by
      rw [update_of_ne hq, update_of_ne hq]
  rw [update_self, update_self] at hsum
  exact hsum

omit [DecidableEq ι] in
theorem of_quiet (hsize : s.log.size = LOGSIZE) (hq : Quiet s) (hlh : s.phase = .running → s.log.lh = []) (used : ι → Finset Word) :
    Roomy limit ⟨s, used⟩ := by
  refine ⟨hsize, fun hrun => ?_, fun hrun _ => hlh hrun, fun p hp => (hq p hp).elim, fun p j b hp => ?_⟩
  · rw [hlh hrun, reserve_quiet hq]
    decide
  · exact (hq p (.inr ⟨j, hp⟩)).elim

omit [DecidableEq ι] in
theorem of_same (h : Roomy limit t) (hlog : s.log = t.state.log) (hpc : s.pc = t.state.pc)
    (hphase : s.phase = .running → t.state.phase = .running)
    (hbuf : ∀ p j, t.state.pc p = .logging j → (s.buf j).blockno = (t.state.buf j).blockno) : Roomy limit ⟨s, t.used⟩ := by
  refine ⟨?_, fun hrun => ?_, fun hrun hq => ?_, fun p hp b hb => ?_, fun p j b hp hb => ?_⟩
  all_goals dsimp only at *
  · rw [hlog]
    exact h.size
  · rw [hlog, hpc]
    exact h.spare (hphase hrun)
  · rw [hlog]
    refine h.fresh (hphase hrun) ?_
    unfold Quiet at hq ⊢
    rwa [hpc] at hq
  · rw [hpc] at hp
    rw [hlog]
    exact h.recorded p hp b hb
  · rw [hpc] at hp
    rw [hbuf p j hp] at hb
    exact h.logging p j b hp hb

omit [DecidableEq ι] in
/-- A step of `commit` or of recovery, while no operation is under way. -/
theorem of_quiet_same (h : Roomy limit t) (hI : Inv g base t.state) (hphase : t.state.phase ≠ .running)
    (hlog : s.log = t.state.log) (hpc : s.pc = t.state.pc) (hrun : s.phase ≠ .running) : Roomy limit ⟨s, t.used⟩ := by
  refine h.of_same hlog hpc (fun heq => (hrun heq).elim) fun p j hp => ?_
  exact (hphase (hI.phase_of_inOp (.inr ⟨j, hp⟩))).elim

theorem beginOp (h : Roomy (MAXOPBLOCKS - 1) t) (hI : Inv g base t.state)
    (hs : t.state.step g (.beginOp p) = some s) : Roomy (MAXOPBLOCKS - 1) ⟨s, update t.used p ∅⟩ := by
  simp only [State.step] at hs
  split at hs
  case h_2 => cases hs
  case h_1 log hpc hup hlog =>
    cases hs
    rw [Log.beginOp_apply] at hlog
    split at hlog
    case isTrue => cases hlog
    case isFalse hcommitting =>
      split at hlog
      case isTrue => cases hlog
      case isFalse hfits =>
        cases hlog
        have hrun := hI.phase_of_up hup (by simpa using hcommitting)
        have hout := hI.outstanding
        have hone : reserve (MAXOPBLOCKS - 1) .op ∅ = 9 := rfl
        have hzero : reserve (MAXOPBLOCKS - 1) (t.state.pc p) (t.used p) = 0 := by
          rw [hpc]
          rfl
        have hsum := reserve_update (MAXOPBLOCKS - 1) t.state.pc t.used p .op ∅
        rw [hone, hzero] at hsum
        refine ⟨h.size, fun _ => ?_, fun _ hq => ?_, fun q hq b hb => ?_, fun q j b hq hb => ?_⟩
        · dsimp only
          have hle := reserve_le (MAXOPBLOCKS - 1) t.state.pc t.used
          by_cases hnone : countThreads InOp t.state.pc = 0
          · rw [h.fresh hrun ((countThreads_eq_zero _).mp hnone)] at *
            rw [hnone] at hle
            unfold LOGSIZE MAXOPBLOCKS at *
            simp only [List.length_nil]
            omega
          · unfold LOGSIZE MAXOPBLOCKS at *
            push_cast at hfits
            omega
        · refine (hq p ?_).elim
          dsimp only
          rw [update_self]
          exact inOp_op
        · dsimp only at hq hb
          by_cases hqp : q = p
          · rw [hqp, update_self] at hb
            exact (notMem_empty b hb).elim
          · rw [update_of_ne hqp] at hq hb
            exact h.recorded q hq b hb
        · dsimp only at hq hb ⊢
          have hqp : q ≠ p := by
            rintro rfl
            rw [update_self] at hq
            cases hq
          rw [update_of_ne hqp] at hq ⊢
          exact h.logging q j b hq hb

theorem check (h : Roomy limit t)
    (hpass : t.Passes limit (.check p j data)) (hs : t.state.step g (.check p j data) = some s) :
    Roomy limit ⟨s, t.used⟩ := by
  simp only [State.step] at hs
  split at hs
  case h_2 => cases hs
  case h_1 =>
    split at hs
    case isFalse => cases hs
    case isTrue hcond =>
      cases hs
      obtain ⟨hpc, -⟩ := hcond
      have hinop (q : ι) : (update t.state.pc p (.logging j) q).InOp ↔ (t.state.pc q).InOp := by
        by_cases hqp : q = p
        · rw [hqp, update_self, hpc]
          exact iff_of_true (inOp_logging j) inOp_op
        · rw [update_of_ne hqp]
      have hblockno (i : Fin NBUF) : (update t.state.buf j { t.state.buf j with data := data } i).blockno =
          (t.state.buf i).blockno := by
        by_cases hij : i = j
        · rw [hij, update_self]
        · rw [update_of_ne hij]
      refine ⟨h.size, fun hrun => ?_, fun hrun hq => h.fresh hrun fun q hq' => hq q ((hinop q).mpr hq'),
        fun q hq => h.recorded q ((hinop q).mp hq), fun q i b hq hb => ?_⟩
      · have hsame : ∑ q, reserve limit (update t.state.pc p (.logging j) q) (t.used q) =
            ∑ q, reserve limit (t.state.pc q) (t.used q) :=
          sum_congr rfl fun q _ => by simp only [reserve, hinop]
        dsimp only
        rw [hsame]
        exact h.spare hrun
      · dsimp only at hq hb
        rw [hblockno] at hb
        by_cases hqp : q = p
        · subst hqp
          rw [update_self] at hq
          cases hq
          unfold Tally.Passes Tally.passed at hpass
          dsimp only at hpass
          rwa [hb] at hpass
        · rw [update_of_ne hqp] at hq
          exact h.logging q i b hq hb

theorem record (h : Roomy limit t) (hs : t.state.step g (.record p) = some s) :
    Roomy limit ⟨s, t.count (.record p)⟩ := by
  simp only [State.step] at hs
  split at hs
  case h_2 => cases hs
  case h_1 j hpc =>
    split at hs
    case h_2 => cases hs
    case h_1 b hb =>
      cases hs
      have hcount : t.count (.record p) = update t.used p (insert b (t.used p)) := by
        unfold Tally.count
        dsimp only
        rw [hpc]
        dsimp only
        rw [hb]
      rw [hcount]
      have hcard := h.logging p j b hpc hb
      have hmem (c : Word) (hc : c ∈ t.state.log.lh) :
          c ∈ (if b ∈ t.state.log.lh then t.state.log.lh else t.state.log.lh ++ [b]) := by
        split
        · exact hc
        · exact List.mem_append_left _ hc
      have hself : b ∈ (if b ∈ t.state.log.lh then t.state.log.lh else t.state.log.lh ++ [b]) := by
        split
        case isTrue hin => exact hin
        case isFalse => simp
      have hinop (q : ι) : (update t.state.pc p .op q).InOp ↔ (t.state.pc q).InOp := by
        by_cases hqp : q = p
        · rw [hqp, update_self, hpc]
          exact iff_of_true inOp_op (inOp_logging j)
        · rw [update_of_ne hqp]
      have hblockno (i : Fin NBUF) : (update t.state.buf j { t.state.buf j with dirty := true } i).blockno =
          (t.state.buf i).blockno := by
        by_cases hij : i = j
        · rw [hij, update_self]
        · rw [update_of_ne hij]
      refine ⟨h.size, fun hrun => ?_, fun hrun hq => ?_, fun q hq c hc => ?_, fun q i c hq hc => ?_⟩
      all_goals dsimp only at *
      · have hspare := h.spare hrun
        have hsum := reserve_update limit t.state.pc t.used p .op (insert b (t.used p))
        have hold : reserve limit (t.state.pc p) (t.used p) = limit - (t.used p).card := by
          rw [hpc]
          exact if_pos (inOp_logging j)
        have hnew : reserve limit .op (insert b (t.used p)) = limit - (insert b (t.used p)).card := if_pos inOp_op
        rw [hold, hnew] at hsum
        by_cases hin : b ∈ t.used p
        · have hlh := h.recorded p (by rw [hpc]; exact inOp_logging j) b hin
          rw [if_pos hlh]
          rw [insert_eq_of_mem hin] at hsum ⊢
          omega
        · rw [card_insert_of_notMem hin] at hsum hcard
          have hlen : (if b ∈ t.state.log.lh then t.state.log.lh else t.state.log.lh ++ [b]).length ≤
              t.state.log.lh.length + 1 := by
            split <;> simp
          omega
      · refine (hq p ?_).elim
        dsimp only
        rw [update_self]
        exact inOp_op
      · rw [hinop] at hq
        by_cases hqp : q = p
        · subst hqp
          rw [update_self] at hc
          rcases mem_insert.mp hc with rfl | hc
          · exact hself
          · exact hmem c (h.recorded q hq c hc)
        · rw [update_of_ne hqp] at hc
          exact hmem c (h.recorded q hq c hc)
      · have hqp : q ≠ p := by
          rintro rfl
          rw [update_self] at hq
          cases hq
        rw [update_of_ne hqp] at hq ⊢
        rw [hblockno] at hc
        exact h.logging q i c hq hc

theorem endOp (h : Roomy limit t) (hI : Inv g base t.state) (hs : t.state.step g (.endOp p) = some s) :
    Roomy limit ⟨s, t.used⟩ := by
  have hI' := inv_endOp hI hs
  simp only [State.step] at hs
  split at hs
  case h_3 => cases hs
  case h_1 log hpc hlog =>
    cases hs
    obtain ⟨-, hone, rfl⟩ := Log.endOp_eq_ok hlog
    have hout := hI'.outstanding
    have hlast := hone.mp rfl
    dsimp only at hout
    refine of_quiet ?_ ((countThreads_eq_zero _).mp ?_) (fun hrun => ?_) t.used
    · exact h.size
    · dsimp only
      omega
    · dsimp only at hrun
      split at hrun <;> cases hrun
  case h_2 log hpc hlog =>
    cases hs
    obtain ⟨-, hone, rfl⟩ := Log.endOp_eq_ok hlog
    have hout := hI'.outstanding
    dsimp only at hout
    have hrest {q : ι} (hq : (update t.state.pc p .idle q).InOp) :
        q ≠ p ∧ update t.state.pc p .idle q = t.state.pc q := by
      have hqp : q ≠ p := by
        rintro rfl
        rw [update_self] at hq
        exact not_inOp_idle hq
      exact ⟨hqp, update_of_ne hqp ..⟩
    refine ⟨h.size, fun hrun => ?_, fun hrun hq => ?_, fun q hq c hc => ?_, fun q i c hq hc => ?_⟩
    all_goals dsimp only at *
    · have hspare := h.spare hrun
      have hsum := reserve_update limit t.state.pc t.used p .idle (t.used p)
      have hnone : reserve limit .idle (t.used p) = 0 := rfl
      rw [update_eq_self, hnone] at hsum
      omega
    · have hzero : countThreads InOp (update t.state.pc p .idle) = 0 := (countThreads_eq_zero _).mpr hq
      have hlast : t.state.log.outstanding = 1 := by omega
      cases hone.mpr hlast
    · rw [(hrest hq).2] at hq
      exact h.recorded q hq c hc
    · rw [(hrest (by rw [hq]; exact inOp_logging i)).2] at hq
      exact h.logging q i c hq hc

theorem step (h : Roomy (MAXOPBLOCKS - 1) t) (hI : Inv g base t.state)
    (hsize : g.size = LOGSIZE) (hpass : t.Passes (MAXOPBLOCKS - 1) l) (hs : t.step g l = some t') :
    Roomy (MAXOPBLOCKS - 1) t' := by
  obtain ⟨s, hstep, rfl⟩ := Option.map_eq_some_iff.mp hs
  clear hs
  have hs := hstep
  cases l with
  | beginOp => exact h.beginOp hI hs
  | check => exact h.check hpass hs
  | record => exact h.record hs
  | endOp => exact h.endOp hI hs
  | bread p b j =>
    simp only [State.step] at hs
    split at hs
    case isFalse => cases hs
    case isTrue hcond =>
      cases hs
      refine h.of_same rfl rfl id fun q i hq => ?_
      have hij : i ≠ j := by
        rintro rfl
        have hholder := hI.logging q i hq
        rw [hcond.2.2.2.1] at hholder
        cases hholder
      dsimp only
      rw [update_of_ne hij, load_of_ne hij]
  | brelse p j =>
    simp only [State.step] at hs
    split at hs
    case isFalse => cases hs
    case isTrue =>
      cases hs
      refine h.of_same rfl rfl id fun q i hq => ?_
      dsimp only
      by_cases hij : i = j
      · rw [hij, update_self]
      · rw [update_of_ne hij]
  | writeLog =>
    simp only [State.step] at hs
    split at hs
    case h_2 => cases hs
    case h_1 tail hphase =>
      split at hs
      case h_2 => cases hs
      case h_1 =>
        split at hs
        case isFalse => cases hs
        case isTrue =>
          cases hs
          refine h.of_quiet_same hI (by simp [hphase]) rfl rfl ?_
          simp only [State.writeLog, nextPhase]
          split <;> simp
  | writeHead =>
    simp only [State.step] at hs
    split at hs
    case isFalse => cases hs
    case isTrue hcond =>
      cases hs
      exact h.of_quiet_same hI (by simp [hcond.1]) rfl rfl (by simp)
  | install =>
    simp only [State.step] at hs
    split at hs
    case h_2 => cases hs
    case h_1 boot tail hphase =>
      split at hs
      case h_2 => cases hs
      case h_1 =>
        split at hs
        case isFalse => cases hs
        case isTrue =>
          cases hs
          refine h.of_quiet_same hI (by simp [hphase]) rfl rfl ?_
          simp only [State.install, nextPhase]
          split <;> simp
  | clear =>
    simp only [State.step] at hs
    split at hs
    case h_2 => cases hs
    case h_1 boot hphase =>
      split at hs
      case isFalse => cases hs
      case isTrue =>
        cases hs
        have hquiet := hI.phase
        rw [PhaseInv, hphase] at hquiet
        refine of_quiet ?_ ?_ ?_ t.used
        · exact h.size
        · exact hquiet.quiet
        · exact fun _ => rfl
  | finish p =>
    simp only [State.step] at hs
    split at hs
    case h_2 => cases hs
    case h_1 log hpc hphase hlog =>
      cases hs
      cases hlog
      have hempty := hI.phase
      rw [PhaseInv, hphase] at hempty
      refine of_quiet ?_ (fun q hq => ?_) ?_ t.used
      · exact h.size
      · dsimp only at hq
        by_cases hqp : q = p
        · rw [hqp, update_self] at hq
          exact not_inOp_idle hq
        · rw [update_of_ne hqp] at hq
          exact hempty.2.1.quiet q hq
      · exact fun _ => hempty.2.1.lh
  | crash =>
    cases hs
    refine of_quiet hsize (fun q hq => not_inOp_idle hq) (fun hrun => ?_) t.used
    cases hrun
  | readHead =>
    simp only [State.step] at hs
    split at hs
    case isFalse => cases hs
    case isTrue hcond =>
      cases hs
      have hempty := hI.phase
      rw [PhaseInv, hcond.1] at hempty
      refine of_quiet ?_ ?_ (fun hrun => ?_) t.used
      · exact h.size
      · exact hempty.1.quiet
      · dsimp only at hrun
        split at hrun <;> cases hrun

end Roomy

/-- Where every operation passes fewer than `MAXOPBLOCKS` blocks to `log_write`, none of
these calls finds the log full. -/
theorem log_has_room {g : LogArea} {t₀ t : Tally ι} {tr : List (Tally ι × Label ι)} (hsize : g.size = LOGSIZE)
    (hboot : Boots g t₀.state) (hr : Run (Steps (Tally.step g)) t₀ tr t)
    (hpass : Meets (Tally.Passes (MAXOPBLOCKS - 1)) tr) {p : ι} (hop : (t.state.pc p).InOp) :
    t.state.log.checkWrite ≠ .error (.panic "too big a transaction") := by
  have hstart : Roomy (MAXOPBLOCKS - 1) t₀ := by
    have hfresh := hboot.fresh
    refine Roomy.of_quiet ?_ (fun q hq => ?_) (fun hrun => ?_) t₀.used
    · rw [hfresh]
      exact hsize
    · rw [hfresh] at hq
      exact not_inOp_idle hq
    · rw [hfresh] at hrun
      cases hrun
  have hboth : Roomy (MAXOPBLOCKS - 1) t ∧ Inv g t₀.state.disk t.state := by
    refine hr.invariant (I := fun t => Roomy (MAXOPBLOCKS - 1) t ∧ Inv g t₀.state.disk t.state)
      (fun s l s' hI hl hs => ⟨hI.1.step hI.2 hsize hl hs, ?_⟩) ⟨hstart, inv_boots hboot⟩ hpass
    obtain ⟨u, hu, rfl⟩ := Option.map_eq_some_iff.mp hs
    exact inv_step hI.2 hu
  have hspare := hboth.1.spare (hboth.2.phase_of_inOp hop)
  have hlh : t.state.log.lh.length + 2 ≤ LOGSIZE := by omega
  rw [Log.checkWrite_apply, if_neg]
  · split <;> simp
  · rw [hboth.1.size]
    omega

end Invariant

/-- A machine with three processes, before it boots from an image of `mkfs`. -/
def threeBoot : Tally (Fin 3) where
  state :=
    { disk := fun _ _ => 0
      buf := fun _ => {}
      log := { size := LOGSIZE }
      pc := fun _ => .idle
      phase := .boot }
  used _ := ∅

/-- Two processes in operations, of which one has passed a block to `log_write`. -/
def quietHouse : List (Label (Fin 3)) :=
  [.readHead 0, .clear 0, .beginOp 0, .beginOp 1, .bread 0 100 0, .check 0 0 (fun _ => 0), .record 0]

theorem log_has_room_quietHouse :
    possible (Tally.step mkfsLog) threeBoot quietHouse = true ∧
      (quietHouse.foldl (after (Tally.step mkfsLog)) threeBoot).state.log.checkWrite ≠
        .error (.panic "too big a transaction") := by
  have hpossible : possible (Tally.step mkfsLog) threeBoot quietHouse = true := by decide +kernel
  have hboot : Boots mkfsLog threeBoot.state := ⟨by decide +kernel, rfl, rfl⟩
  exact ⟨hpossible, log_has_room rfl hboot (run_trace hpossible) (by unfold Meets; decide +kernel) (p := 1)
    (by decide +kernel)⟩

/-- Three processes pass ten blocks each to `log_write`, but for the last one, which is
read. -/
def fullHouse : List (Label (Fin 3)) :=
  [.readHead 0, .clear 0, .beginOp 0, .beginOp 1, .beginOp 2] ++
    ((List.finRange 29).flatMap fun n : Fin 29 =>
      let p : Fin 3 := ⟨n / 10, by omega⟩
      let j : Fin NBUF := ⟨n, by unfold NBUF MAXOPBLOCKS; omega⟩
      [.bread p (BitVec.ofNat 32 (100 + n)) j, .check p j (fun _ => 0), .record p]) ++
    [.bread 2 129 29]

/-- The header holds 29 blocks when the third process passes its tenth one. -/
theorem full_house_panics :
    let t := fullHouse.foldl (after (Tally.step mkfsLog)) threeBoot
    Boots mkfsLog threeBoot.state ∧ possible (Tally.step mkfsLog) threeBoot fullHouse = true ∧
      Meets (Tally.Passes MAXOPBLOCKS) (trace (Tally.step mkfsLog) threeBoot fullHouse) ∧
      t.state.pc 2 = .op ∧ (t.state.buf 29).holder = some 2 ∧
      t.Passes MAXOPBLOCKS (.check 2 29 fun _ => 0) ∧
      t.state.log.checkWrite = .error (.panic "too big a transaction") := by
  refine ⟨⟨by decide +kernel, rfl, rfl⟩, by decide +kernel, ?_, by decide +kernel, by decide +kernel, by decide +kernel, ?_⟩
  · unfold Meets
    decide +kernel
  · rw [Log.checkWrite_apply, if_pos]
    decide +kernel

end Xv6.Logging
