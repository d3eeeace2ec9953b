import Xv6.Lib.Count
import Xv6.Log.Cache

/-! # Crash safety of the log

In every state of every run the disk recovers to the committed groups: every block of
a group whose header reached the disk is present, and nothing of a later one is.
-/
namespace Xv6.Logging
open Function State Pc List

/-- The process is between `begin_op` and `end_op`. -/
def Pc.InOp (c : Pc) : Prop := c = .op ∨ ∃ j, c = .logging j

@[simp] theorem Pc.inOp_op : op.InOp := Or.inl rfl

@[simp] theorem Pc.inOp_logging (j : Fin NBUF) : (logging j).InOp := Or.inr ⟨j, rfl⟩

@[simp] theorem Pc.not_inOp_idle : ¬ idle.InOp := by
  rintro (h | ⟨j, h⟩) <;> cases h

@[simp] theorem Pc.not_inOp_committing : ¬ committing.InOp := by
  rintro (h | ⟨j, h⟩) <;> cases h

instance : DecidablePred Pc.InOp
  | .idle => .isFalse Pc.not_inOp_idle
  | .op => .isTrue Pc.inOp_op
  | .logging j => .isTrue (Pc.inOp_logging j)
  | .committing => .isFalse Pc.not_inOp_committing

variable {ι : Type} {g : LogArea} {base : Disk} {s s' : State ι}

/-- The home blocks after the committed groups, applied to the first contents. -/
def durable (base : Disk) (s : State ι) : Disk := replay s.committed.flatten base

def view (base : Disk) (s : State ι) : Disk := replay s.pending (durable base s)

def todo (s : State ι) : List Word :=
  match s.phase with
  | .running | .writeLog _ | .writeHead => s.log.lh
  | .install false tail => s.log.lh.drop tail
  | _ => []

def Busy (s : State ι) (j : Fin NBUF) : Prop := ∃ p, s.pc p = .logging j

def Quiet (s : State ι) : Prop := ∀ p, ¬ (s.pc p).InOp

theorem Quiet.not_busy (hq : Quiet s) (j : Fin NBUF) : ¬ Busy s j := by
  rintro ⟨p, hp⟩
  exact hq p (.inr ⟨j, hp⟩)

theorem logging_of_quiet (hq : Quiet s) (buf : Fin NBUF → Buf ι) :
    ∀ p j, s.pc p = .logging j → (buf j).holder = some p :=
  fun p j hp => absurd (.inr ⟨j, hp⟩) (hq p)

/-- Before the header is written: the header on the disk is empty, and the header in
memory lists the blocks of the group. -/
structure Open (g : LogArea) (s : State ι) : Prop where
  header : Xv6.readHead (s.disk g.start) = []
  nodup : s.log.lh.Nodup
  home : ∀ b ∈ s.log.lh, g.Home b
  blocks : ∀ b, b ∈ s.pending.map Prod.fst ↔ b ∈ s.log.lh

/-- The first `tail` blocks of the group are in the log. -/
structure Copying (g : LogArea) (base : Disk) (s : State ι) (tail : ℕ) : Prop extends Open g s where
  quiet : Quiet s
  committing : s.log.committing = true
  copied : ∀ i b, i < tail → s.log.lh[i]? = some b → s.disk (g.logBlock i) = view base s b
  short : 0 < tail → s.log.lh.length < NBUF

/-- After the header is written: the first `tail` blocks of it are installed. -/
structure Installing (g : LogArea) (base : Disk) (s : State ι) (boot : Bool) (tail : ℕ) : Prop where
  header : Xv6.readHead (s.disk g.start) = s.log.lh
  pending : s.pending = []
  quiet : Quiet s
  committing : s.log.committing = !boot
  installed : ∀ i b, i < tail → s.log.lh[i]? = some b → s.disk b = durable base s b

/-- Nothing is logged. -/
structure Empty (s : State ι) : Prop where
  lh : s.log.lh = []
  pending : s.pending = []
  quiet : Quiet s

def PhaseInv (g : LogArea) (base : Disk) (s : State ι) : Prop :=
  match s.phase with
  | .running => Open g s ∧ s.log.committing = false
  | .writeLog tail => Copying g base s tail ∧ tail < s.log.lh.length
  | .writeHead => Copying g base s s.log.lh.length ∧ 0 < s.log.lh.length
  | .install boot tail => Installing g base s boot tail ∧ tail < s.log.lh.length
  | .clear boot => Installing g base s boot s.log.lh.length
  | .finish => Xv6.readHead (s.disk g.start) = [] ∧ Empty s ∧ s.log.committing = true
  | .boot => Empty s ∧ s.log.committing = false

theorem PhaseInv.buf (h : PhaseInv g base s) (buf : Fin NBUF → Buf ι) :
    PhaseInv g base { s with buf := buf } := by
  rw [PhaseInv] at h
  dsimp only [PhaseInv]
  cases hs : s.phase with
  | running =>
    rw [hs] at h
    obtain ⟨⟨h1, h2, h3, h4⟩, hc⟩ := h
    exact ⟨⟨h1, h2, h3, h4⟩, hc⟩
  | writeLog tail | writeHead =>
    rw [hs] at h
    obtain ⟨⟨⟨h1, h2, h3, h4⟩, h5, h6, h7, h8⟩, ht⟩ := h
    exact ⟨⟨⟨h1, h2, h3, h4⟩, h5, h6, h7, h8⟩, ht⟩
  | install =>
    rw [hs] at h
    obtain ⟨⟨h1, h2, h3, h4, h5⟩, ht⟩ := h
    exact ⟨⟨h1, h2, h3, h4, h5⟩, ht⟩
  | clear =>
    rw [hs] at h
    obtain ⟨h1, h2, h3, h4, h5⟩ := h
    exact ⟨h1, h2, h3, h4, h5⟩
  | finish =>
    rw [hs] at h
    obtain ⟨h1, ⟨h2, h3, h4⟩, h5⟩ := h
    exact ⟨h1, ⟨h2, h3, h4⟩, h5⟩
  | boot =>
    rw [hs] at h
    obtain ⟨⟨h2, h3, h4⟩, h5⟩ := h
    exact ⟨⟨h2, h3, h4⟩, h5⟩

structure Inv [Fintype ι] (g : LogArea) (base : Disk) (s : State ι) : Prop where
  recoverable : Sealed g s.disk (durable base s)
  cache : CacheInv s.disk (view base s) (todo s) (Busy s) s.buf
  held : HeldHome g s.buf
  logging : ∀ p j, s.pc p = .logging j → (s.buf j).holder = some p
  outstanding : s.log.outstanding = countThreads Pc.InOp s.pc
  phase : PhaseInv g base s

namespace Inv
variable [Fintype ι] (h : Inv g base s)
include h

theorem phase_of_inOp {p : ι} (hp : (s.pc p).InOp) : s.phase = .running := by
  have hphase := h.phase
  rw [PhaseInv] at hphase
  cases hs : s.phase with
  | running => rfl
  | writeLog | writeHead | install | boot =>
    rw [hs] at hphase
    exact absurd hp (hphase.1.quiet p)
  | clear =>
    rw [hs] at hphase
    exact absurd hp (hphase.quiet p)
  | finish =>
    rw [hs] at hphase
    exact absurd hp (hphase.2.1.quiet p)

theorem phase_of_up (hup : s.up = true) (hc : s.log.committing = false) : s.phase = .running := by
  have hphase := h.phase
  rw [PhaseInv] at hphase
  rw [up] at hup
  cases hs : s.phase with
  | running => rfl
  | writeLog | writeHead =>
    rw [hs] at hphase
    rw [hphase.1.committing] at hc
    cases hc
  | install boot =>
    rw [hs] at hphase hup
    cases boot with
    | false =>
      rw [hphase.1.committing] at hc
      cases hc
    | true => cases hup
  | clear boot =>
    rw [hs] at hphase hup
    cases boot with
    | false =>
      rw [hphase.committing] at hc
      cases hc
    | true => cases hup
  | finish =>
    rw [hs] at hphase
    rw [hphase.2.2] at hc
    cases hc
  | boot =>
    rw [hs] at hup
    cases hup

theorem open_of_running (hs : s.phase = .running) : Open g s ∧ s.log.committing = false := by
  have hphase := h.phase
  rw [PhaseInv, hs] at hphase
  exact hphase

theorem not_busy_of_free (hj : (s.buf j).holder = none) : ¬ Busy s j := by
  rintro ⟨p, hp⟩
  rw [h.logging p j hp] at hj
  cases hj

/-- A cache that pins the group and has a buffer for its first log block is larger than
the group, so that the group fits the log. -/
theorem group_short {tail : ℕ} (hphase : s.phase = .writeLog tail)
    (hg : Gets s.buf (g.logBlock tail) j) : s.log.lh.length < NBUF := by
  have hc := h.phase
  rw [PhaseInv, hphase] at hc
  obtain ⟨hcopy, htail⟩ := hc
  rcases Nat.eq_zero_or_pos tail with rfl | hpos
  · have htodo : todo s = s.log.lh := by rw [todo, hphase]
    have hcache := h.cache
    rw [htodo] at hcache
    have hzero : 0 < g.size - 1 := by
      have := g.logsize_le
      simp only [LOGSIZE, MAXOPBLOCKS] at this
      omega
    refine hcache.todo_lt hcopy.nodup (j := j) ?_
    rcases hg.2 with hj | ⟨-, hd⟩
    · cases hd : (s.buf j).dirty with
      | false => rfl
      | true =>
        obtain ⟨b, hb, hjb⟩ := hcache.dirty_todo j hd
        rw [hj] at hjb
        cases hjb
        exact absurd rfl ((hcopy.home _ hb).ne_logBlock hzero)
    · exact hd
  · exact hcopy.short hpos

end Inv

section Steps

theorem update_keeps {buf : Fin NBUF → Buf ι} {j : Fin NBUF} {c : Buf ι}
    (hh : c.holder = (buf j).holder) (hb : c.blockno = (buf j).blockno) (i : Fin NBUF) :
    (update buf j c i).holder = (buf i).holder ∧ (update buf j c i).blockno = (buf i).blockno := by
  by_cases hij : i = j
  · subst hij
    rw [update_self]
    exact ⟨hh, hb⟩
  · rw [update_of_ne hij]
    exact ⟨rfl, rfl⟩

variable [DecidableEq ι] {p : ι} {c : Pc} {j k : Fin NBUF}

theorem busy_update (hp : ∀ j, s.pc p ≠ .logging j)
    (hj : Busy s j) : ∃ q, update s.pc p c q = .logging j := by
  obtain ⟨q, hq⟩ := hj
  refine ⟨q, ?_⟩
  rw [update_of_ne, hq]
  rintro rfl
  exact hp j hq

variable [Fintype ι]

section
variable (h : Inv g base s)
include h

theorem logging_update (hc : ∀ j, c ≠ .logging j) :
    ∀ q j, update s.pc p c q = .logging j → (s.buf j).holder = some q := by
  intro q j hq
  by_cases hqp : q = p
  · rw [hqp, update_self] at hq
    exact absurd hq (hc j)
  · rw [update_of_ne hqp] at hq
    exact h.logging q j hq

theorem inv_beginOp (hs : s.step g (.beginOp p) = some s') : Inv g base s' := by
  simp only [step] at hs
  split at hs
  case h_2 => cases hs
  case h_1 log hpc hup hlog =>
    cases hs
    obtain ⟨hc, rfl⟩ := Log.beginOp_eq_ok hlog
    have hrun := h.phase_of_up hup hc
    obtain ⟨hopen, -⟩ := h.open_of_running hrun
    have hcount := countThreads_update InOp s.pc p .op
    simp only [hpc, not_inOp_idle, inOp_op, if_true, if_false] at hcount
    constructor
    case recoverable => exact h.recoverable
    case cache => exact h.cache.mono_busy fun j hj => busy_update (by simp [hpc]) hj
    case held => exact h.held
    case logging => exact logging_update h (by simp)
    case outstanding =>
      have ho := h.outstanding
      dsimp only
      omega
    case phase =>
      simp only [PhaseInv, hrun]
      exact ⟨⟨hopen.header, hopen.nodup, hopen.home, hopen.blocks⟩, hc⟩

theorem inv_bread (hs : s.step g (.bread p b j) = some s') : Inv g base s' := by
  simp only [step] at hs
  split at hs
  case isFalse => cases hs
  case isTrue hcond =>
    cases hs
    obtain ⟨-, -, hb, hg⟩ := hcond
    have hfree := h.not_busy_of_free hg.1
    constructor
    case recoverable => exact h.recoverable
    case cache => exact (h.cache.load hg).lock j (some p)
    case held =>
      intro i q hi
      by_cases hij : i = j
      · subst hij
        refine ⟨b, ?_, hb⟩
        dsimp only
        rw [update_self]
        exact load_blockno _ _ _ _
      · simp only [update_of_ne hij, load_of_ne hij] at hi ⊢
        exact h.held i q hi
    case logging =>
      intro q i hq
      have hij : i ≠ j := by
        rintro rfl
        exact hfree ⟨q, hq⟩
      simp only [update_of_ne hij, load_of_ne hij]
      exact h.logging q i hq
    case outstanding => exact h.outstanding
    case phase => exact h.phase.buf _

theorem inv_brelse (hs : s.step g (.brelse p j) = some s') : Inv g base s' := by
  simp only [step] at hs
  split at hs
  case isFalse => cases hs
  case isTrue hcond =>
    cases hs
    obtain ⟨hpc, hj⟩ := hcond
    constructor
    case recoverable => exact h.recoverable
    case cache => exact h.cache.lock j none
    case held =>
      intro i q hi
      dsimp only at hi ⊢
      by_cases hij : i = j
      · rw [hij, update_self] at hi
        cases hi
      · rw [update_of_ne hij] at hi ⊢
        exact h.held i q hi
    case logging =>
      intro q i hq
      have hij : i ≠ j := by
        rintro rfl
        have hqp := h.logging q i hq
        rw [hj] at hqp
        cases hqp
        rcases hpc with hpc | hpc <;> rw [hpc] at hq <;> cases hq
      dsimp only
      rw [update_of_ne hij]
      exact h.logging q i hq
    case outstanding => exact h.outstanding
    case phase => exact h.phase.buf _

theorem inv_check {data : Block} (hs : s.step g (.check p j data) = some s') : Inv g base s' := by
  simp only [step] at hs
  split at hs
  case h_2 => cases hs
  case h_1 =>
    split at hs
    case isFalse => cases hs
    case isTrue hcond =>
      cases hs
      obtain ⟨hpc, hj⟩ := hcond
      have hrun : s.phase = .running := h.phase_of_inOp (.inl hpc)
      obtain ⟨⟨h1, h2, h3, h4⟩, hc⟩ := h.open_of_running hrun
      have hkeep := @update_keeps ι s.buf j { s.buf j with data := data } rfl rfl
      have hcount := countThreads_update InOp s.pc p (.logging j)
      simp only [hpc, inOp_op, inOp_logging, if_true] at hcount
      constructor
      case recoverable => exact h.recoverable
      case cache =>
        refine h.cache.store data (fun i hi => busy_update (by simp [hpc]) hi) ⟨p, ?_⟩
        exact update_self p _ _
      case held =>
        intro i q hi
        dsimp only at hi ⊢
        rw [(hkeep i).1] at hi
        rw [(hkeep i).2]
        exact h.held i q hi
      case logging =>
        intro q i hq
        dsimp only at hq ⊢
        rw [(hkeep i).1]
        by_cases hqp : q = p
        · rw [hqp, update_self] at hq
          cases hq
          rw [hqp]
          exact hj
        · rw [update_of_ne hqp] at hq
          exact h.logging q i hq
      case outstanding =>
        have ho := h.outstanding
        dsimp only
        omega
      case phase =>
        simp only [PhaseInv, hrun]
        exact ⟨⟨h1, h2, h3, h4⟩, hc⟩

theorem inv_record (hs : s.step g (.record p) = some s') : Inv g base s' := by
  simp only [step] at hs
  split at hs
  case h_2 => cases hs
  case h_1 j hpc =>
    split at hs
    case h_2 => cases hs
    case h_1 b hb =>
      cases hs
      have hrun : s.phase = .running := h.phase_of_inOp (.inr ⟨j, hpc⟩)
      obtain ⟨⟨h1, h2, h3, h4⟩, hc⟩ := h.open_of_running hrun
      have hholder := h.logging p j hpc
      have hhome : g.Home b := by
        obtain ⟨c, hc, hhome⟩ := h.held j p hholder
        rw [hb] at hc
        cases hc
        exact hhome
      have hview : replay (s.pending ++ [(b, (s.buf j).data)]) (durable base s) =
          update (view base s) b (s.buf j).data := replay_snoc _ _ _ _
      have hlh : ∀ c, c ∈ (if b ∈ s.log.lh then s.log.lh else s.log.lh ++ [b]) ↔
          c ∈ s.log.lh ∨ c = b := by
        intro c
        split
        case isTrue hmem =>
          constructor
          · exact .inl
          · rintro (hc | rfl)
            · exact hc
            · exact hmem
        case isFalse => rw [mem_append, mem_singleton]
      have hcount := countThreads_update InOp s.pc p .op
      simp only [hpc, inOp_op, inOp_logging, if_true] at hcount
      have hkeep := @update_keeps ι s.buf j { s.buf j with dirty := true } rfl rfl
      constructor
      case recoverable => exact h.recoverable
      case cache =>
        have htodo : todo s = s.log.lh := by rw [todo, hrun]
        have hcache := h.cache
        rw [htodo] at hcache
        simp only [todo, hrun, view]
        change CacheInv s.disk (replay (s.pending ++ [(b, (s.buf j).data)]) (durable base s)) _ _ _
        rw [hview]
        refine hcache.pin hb hlh ?_
        rintro i hij ⟨q, hq⟩
        refine ⟨q, ?_⟩
        dsimp only
        rw [update_of_ne, hq]
        rintro rfl
        rw [hpc] at hq
        cases hq
        exact hij rfl
      case held =>
        intro i q hi
        dsimp only at hi ⊢
        rw [(hkeep i).1] at hi
        rw [(hkeep i).2]
        exact h.held i q hi
      case logging =>
        intro q i hq
        dsimp only at hq ⊢
        rw [(hkeep i).1]
        exact logging_update h (by simp) q i hq
      case outstanding =>
        have ho := h.outstanding
        dsimp only
        omega
      case phase =>
        simp only [PhaseInv, hrun]
        refine ⟨⟨h1, ?_, ?_, ?_⟩, hc⟩
        · dsimp only
          split
          case isTrue => exact h2
          case isFalse hmem => exact nodup_append_comm.mp (nodup_cons.mpr ⟨hmem, h2⟩)
        · intro c hc
          rcases (hlh c).mp hc with hc | rfl
          · exact h3 c hc
          · exact hhome
        · intro c
          rw [map_append, mem_append, h4, hlh]
          simp

theorem inv_endOp (hs : s.step g (.endOp p) = some s') : Inv g base s' := by
  simp only [step] at hs
  split at hs
  case h_3 => cases hs
  case h_1 log hpc hlog =>
    cases hs
    obtain ⟨hc, hone, rfl⟩ := Log.endOp_eq_ok hlog
    have hrun : s.phase = .running := h.phase_of_inOp (.inl hpc)
    obtain ⟨⟨h1, h2, h3, h4⟩, -⟩ := h.open_of_running hrun
    have ho := h.outstanding
    have hcount := countThreads_update InOp s.pc p .committing
    simp only [hpc, inOp_op, not_inOp_committing, if_true, if_false] at hcount
    have hzero : countThreads InOp (update s.pc p .committing) = 0 := by
      have := hone.mp rfl
      omega
    have hquiet := (countThreads_eq_zero InOp).mp hzero
    have htodo : todo s = s.log.lh := by rw [todo, hrun]
    constructor
    case recoverable => exact h.recoverable
    case cache =>
      have hcache := h.cache.mono_busy fun j hj => busy_update (p := p) (c := .committing)
        (by simp [hpc]) hj
      rw [htodo] at hcache
      by_cases hn : 0 < s.log.lh.length
      · simp only [todo, if_pos hn]
        exact hcache
      · have hnil : s.log.lh = [] := length_eq_zero_iff.mp (by omega)
        simp only [todo, if_neg hn]
        rw [hnil] at hcache
        exact hcache
    case held => exact h.held
    case logging => exact logging_update h (by simp)
    case outstanding =>
      dsimp only
      omega
    case phase =>
      by_cases hn : 0 < s.log.lh.length
      · simp only [PhaseInv, if_pos hn]
        refine ⟨⟨⟨h1, h2, h3, h4⟩, hquiet, rfl, ?_, ?_⟩, hn⟩
        · intro i b hi
          omega
        · intro hlt
          omega
      · have hnil : s.log.lh = [] := length_eq_zero_iff.mp (by omega)
        have hpending : s.pending = [] := by
          rw [hnil] at h4
          apply map_eq_nil_iff.mp
          exact eq_nil_iff_forall_not_mem.mpr fun b hb => not_mem_nil ((h4 b).mp hb)
        simp only [PhaseInv, if_neg hn]
        exact ⟨h1, ⟨hnil, hpending, hquiet⟩, trivial⟩
  case h_2 log hpc hlog =>
    cases hs
    obtain ⟨hc, hone, rfl⟩ := Log.endOp_eq_ok hlog
    have hrun : s.phase = .running := h.phase_of_inOp (.inl hpc)
    obtain ⟨⟨h1, h2, h3, h4⟩, -⟩ := h.open_of_running hrun
    have ho := h.outstanding
    have hcount := countThreads_update InOp s.pc p .idle
    simp only [hpc, inOp_op, not_inOp_idle, if_true, if_false] at hcount
    constructor
    case recoverable => exact h.recoverable
    case cache => exact h.cache.mono_busy fun j hj => busy_update (by simp [hpc]) hj
    case held => exact h.held
    case logging => exact logging_update h (by simp)
    case outstanding =>
      dsimp only
      omega
    case phase =>
      simp only [PhaseInv, hrun]
      exact ⟨⟨h1, h2, h3, h4⟩, trivial⟩

theorem inv_writeLog (hs : s.step g (.writeLog j k) = some s') : Inv g base s' := by
  simp only [step] at hs
  split at hs
  case h_2 => cases hs
  case h_1 tail hphase =>
    split at hs
    case h_2 => cases hs
    case h_1 b hb =>
      split at hs
      case isFalse => cases hs
      case isTrue hcond =>
        cases hs
        obtain ⟨hgj, hkj, hgk⟩ := hcond
        have hshort := h.group_short hphase hgj
        have hc := h.phase
        rw [PhaseInv, hphase] at hc
        obtain ⟨⟨⟨h1, h2, h3, h4⟩, hquiet, hcommitting, hcopied, -⟩, htail⟩ := hc
        have hlen := short_fits (g := g) hshort
        have hmem : b ∈ s.log.lh := mem_of_getElem? hb
        have hnot : g.logBlock tail ∉ s.log.lh := fun hm => (h3 _ hm).ne_logBlock (by omega) rfl
        have htodo : todo s = s.log.lh := by rw [todo, hphase]
        have hcache := (h.cache.load hgj).load hgk
        rw [htodo] at hcache
        have hblockj : (load s.disk (load s.disk s.buf (g.logBlock tail) j) b k j).blockno =
            some (g.logBlock tail) := by
          rw [load_of_ne hkj.symm]
          exact load_blockno _ _ _ _
        have hdata : (load s.disk (load s.disk s.buf (g.logBlock tail) j) b k k).data =
            view base s b := hcache.data_of_todo hmem (load_blockno _ _ _ _) (hquiet.not_busy k)
        have hdisk : ∀ c, c ≠ g.logBlock tail → (s.writeLog g tail b j k).disk c = s.disk c :=
          fun c hc => update_of_ne hc _ _
        have hstart := hdisk g.start (LogArea.logBlock_ne_start (by omega)).symm
        have hcopy : Copying g base (s.writeLog g tail b j k) (tail + 1) := by
          refine ⟨⟨by rw [hstart]; exact h1, h2, h3, h4⟩, hquiet, hcommitting, ?_, fun _ => hshort⟩
          intro i c hi hic
          change update s.disk (g.logBlock tail) _ _ = view base s c
          change s.log.lh[i]? = some c at hic
          rcases Nat.lt_succ_iff_lt_or_eq.mp hi with hlt | rfl
          · rw [update_of_ne, hcopied i c hlt hic]
            intro heq
            exact absurd (LogArea.logBlock_inj (by omega) (by omega) heq) (by omega)
          · rw [update_self, hdata]
            rw [hb] at hic
            cases hic
            rfl
        constructor
        case recoverable =>
          refine .of_empty (by rw [hstart]; exact h1) ?_
          intro c hc
          rw [hdisk c (hc.ne_logBlock (by omega))]
          exact h.recoverable.rest c hc (by rw [h1]; exact not_mem_nil)
        case cache =>
          have hlist : todo (s.writeLog g tail b j k) = s.log.lh := by
            simp only [todo, writeLog, nextPhase]
            split_ifs <;> rfl
          rw [hlist]
          refine hcache.bwrite hblockj ?_ _
          intro c
          constructor
          · intro hc
            exact ⟨hc, fun heq => hnot (heq ▸ hc)⟩
          · exact And.left
        case held => exact ((h.held.load hgj _).load hgk _).clean j _
        case logging => exact logging_of_quiet hquiet _
        case outstanding => exact h.outstanding
        case phase =>
          have hnext : (s.writeLog g tail b j k).phase =
              nextPhase s.log.lh.length tail .writeLog .writeHead := rfl
          rw [nextPhase] at hnext
          split at hnext
          case isTrue hlt =>
            simp only [PhaseInv, hnext]
            exact ⟨hcopy, hlt⟩
          case isFalse hge =>
            have hlast : tail + 1 = s.log.lh.length := by omega
            rw [hlast] at hcopy
            simp only [PhaseInv, hnext]
            exact ⟨hcopy, by change 0 < s.log.lh.length; omega⟩

theorem inv_writeHead (hs : s.step g (.writeHead j) = some s') : Inv g base s' := by
  simp only [step] at hs
  split at hs
  case isFalse => cases hs
  case isTrue hcond =>
    cases hs
    obtain ⟨hphase, hg⟩ := hcond
    have hc := h.phase
    rw [PhaseInv, hphase] at hc
    obtain ⟨⟨⟨h1, h2, h3, h4⟩, hquiet, hcommitting, hcopied, hshort⟩, hpos⟩ := hc
    have hlen : s.log.lh.length < NBUF := hshort hpos
    have hfits := short_fits (g := g) hlen
    have hnot : g.start ∉ s.log.lh := fun hm => (h3 _ hm).ne_start rfl
    -- the header write makes the pending group durable, and the processes see no difference
    have hdurable : replay (s.committed ++ [s.pending]).flatten base = view base s := by
      rw [flatten_append, replay_append]
      simp only [flatten_cons, flatten_nil, append_nil]
      rfl
    have hhead : Xv6.readHead (Xv6.writeHead s.log.lh (load s.disk s.buf g.start j j).data) = s.log.lh := by
      apply readHead_writeHead
      simp only [NBUF, MAXOPBLOCKS] at hlen
      omega
    have htodo : todo s = s.log.lh := by rw [todo, hphase]
    have hcache := h.cache.load hg
    rw [htodo] at hcache
    constructor
    case recoverable =>
      change Sealed g (update s.disk g.start _) (replay (s.committed ++ [s.pending]).flatten base)
      rw [hdurable]
      constructor
      all_goals rw [update_self, hhead]
      case nodup => exact h2
      case home => exact h3
      case short => exact hlen
      case logged =>
        intro i b hi
        have hlt : i < s.log.lh.length := (List.getElem?_eq_some_iff.mp hi).1
        rw [update_of_ne (LogArea.logBlock_ne_start (by omega))]
        exact hcopied i b hlt hi
      case rest =>
        intro b hb hmem
        rw [update_of_ne hb.ne_start, view, replay_of_not_mem (fun hp => hmem ((h4 b).mp hp))]
        exact h.recoverable.rest b hb (by rw [h1]; exact not_mem_nil)
    case cache =>
      change CacheInv (update s.disk g.start _)
        (replay (s.committed ++ [s.pending]).flatten base) (s.log.lh.drop 0) (Busy s) _
      rw [hdurable, drop_zero]
      refine hcache.bwrite (load_blockno _ _ _ _) ?_ _
      intro c
      constructor
      · intro hc
        exact ⟨hc, fun heq => hnot (heq ▸ hc)⟩
      · exact And.left
    case held => exact (h.held.load hg _).clean j _
    case logging => exact logging_of_quiet hquiet _
    case outstanding => exact h.outstanding
    case phase =>
      refine ⟨⟨?_, rfl, hquiet, hcommitting, ?_⟩, hpos⟩
      · change Xv6.readHead (update s.disk g.start _ g.start) = s.log.lh
        rw [update_self]
        exact hhead
      · intro i b hi
        omega

end

omit [DecidableEq ι] [Fintype ι] in
/-- An installed block is no longer pinned. -/
theorem mem_todo_install {boot : Bool} {tail : ℕ} (hphase : s.phase = .install boot tail)
    (hb : s.log.lh[tail]? = some b) (hnodup : s.log.lh.Nodup) {j k : Fin NBUF} (c : Word) :
    c ∈ todo (s.install g boot tail b j k) ↔ c ∈ todo s ∧ c ≠ b := by
  obtain ⟨hlt, hget⟩ := List.getElem?_eq_some_iff.mp hb
  cases boot with
  | true =>
    have hafter : todo (s.install g true tail b j k) = [] := by
      simp only [todo, install, nextPhase]
      split_ifs <;> rfl
    have hbefore : todo s = [] := by rw [todo, hphase]
    rw [hafter, hbefore]
    simp
  | false =>
    have hafter : todo (s.install g false tail b j k) = s.log.lh.drop (tail + 1) := by
      simp only [todo, install, nextPhase]
      split_ifs with hn
      · rfl
      · exact (drop_eq_nil_of_le (by omega)).symm
    have hbefore : todo s = b :: s.log.lh.drop (tail + 1) := by
      rw [todo, hphase]
      change s.log.lh.drop tail = _
      rw [drop_eq_getElem_cons hlt, hget]
    have hdrop : (s.log.lh.drop tail).Nodup := hnodup.sublist (drop_sublist _ _)
    rw [drop_eq_getElem_cons hlt, hget] at hdrop
    rw [hafter, hbefore]
    constructor
    · intro hc
      refine ⟨mem_cons_of_mem b hc, ?_⟩
      rintro rfl
      exact (nodup_cons.mp hdrop).1 hc
    · rintro ⟨hc, hne⟩
      exact (mem_cons.mp hc).resolve_left hne

theorem inv_install (h : Inv g base s) (hs : s.step g (.install j k) = some s') : Inv g base s' := by
  simp only [step] at hs
  split at hs
  case h_2 => cases hs
  case h_1 boot tail hphase =>
    split at hs
    case h_2 => cases hs
    case h_1 b hb =>
      split at hs
      case isFalse => cases hs
      case isTrue hcond =>
        cases hs
        obtain ⟨hgj, hkj, hgk⟩ := hcond
        have hc := h.phase
        rw [PhaseInv, hphase] at hc
        obtain ⟨⟨h1, h2, hquiet, hcommitting, hinstalled⟩, htail⟩ := hc
        obtain ⟨hnodup, hhome, hshort, hlogged, hrest⟩ := h.recoverable
        rw [h1] at hnodup hhome hshort hlogged hrest
        have hlen := short_fits (g := g) hshort
        have hmem : b ∈ s.log.lh := mem_of_getElem? hb
        have hbhome := hhome b hmem
        have hsub : ∀ c ∈ todo s, c ∈ s.log.lh := by
          intro c hc
          simp only [todo, hphase] at hc
          cases boot with
          | false => exact mem_of_mem_drop hc
          | true => cases hc
        have hcache := (h.cache.load hgj).load hgk
        have hdata : (load s.disk (load s.disk s.buf (g.logBlock tail) j) b k j).data =
            durable base s b := by
          rw [hcache.data_of_not_todo (b := g.logBlock tail) ?_ ?_ (hquiet.not_busy j)]
          · exact hlogged tail b hb
          · exact fun hm => (hhome _ (hsub _ hm)).ne_logBlock (by omega) rfl
          · rw [load_of_ne hkj.symm]
            exact load_blockno _ _ _ _
        have hdisk : ∀ c, c ≠ b → (s.install g boot tail b j k).disk c = s.disk c :=
          fun c hc => update_of_ne hc _ _
        have hdiskb : (s.install g boot tail b j k).disk b = durable base s b := by
          rw [← hdata]
          exact update_self _ _ _
        have hstart := hdisk g.start hbhome.ne_start.symm
        have hinst : Installing g base (s.install g boot tail b j k) boot (tail + 1) := by
          refine ⟨by rw [hstart]; exact h1, h2, hquiet, hcommitting, ?_⟩
          intro i c hi hic
          change s.log.lh[i]? = some c at hic
          change _ = durable base s c
          by_cases hcb : c = b
          · rw [hcb]
            exact hdiskb
          · rw [hdisk c hcb]
            refine hinstalled i c ?_ hic
            rcases Nat.lt_succ_iff_lt_or_eq.mp hi with hlt | rfl
            · exact hlt
            · rw [hb] at hic
              cases hic
              exact absurd rfl hcb
        constructor
        case recoverable =>
          constructor
          all_goals rw [hstart, h1]
          case nodup => exact hnodup
          case home => exact hhome
          case short => exact hshort
          case logged =>
            intro i c hic
            have hlt : i < s.log.lh.length := (List.getElem?_eq_some_iff.mp hic).1
            rw [hdisk _ (hbhome.ne_logBlock (by omega)).symm]
            exact hlogged i c hic
          case rest =>
            intro c hc hcm
            rw [hdisk c (fun heq => hcm (heq ▸ hmem))]
            exact hrest c hc hcm
        case cache =>
          exact hcache.bwrite (load_blockno _ _ _ _) (mem_todo_install hphase hb hnodup) _
        case held => exact ((h.held.load hgj _).load hgk _).clean k _
        case logging => exact logging_of_quiet hquiet _
        case outstanding => exact h.outstanding
        case phase =>
          have hnext : (s.install g boot tail b j k).phase =
              nextPhase s.log.lh.length tail (.install boot) (.clear boot) := rfl
          rw [nextPhase] at hnext
          split at hnext
          case isTrue hlt =>
            simp only [PhaseInv, hnext]
            exact ⟨hinst, hlt⟩
          case isFalse hge =>
            have hlast : tail + 1 = s.log.lh.length := by omega
            rw [hlast] at hinst
            simp only [PhaseInv, hnext]
            exact hinst

theorem inv_clear (h : Inv g base s) (hs : s.step g (.clear j) = some s') : Inv g base s' := by
  simp only [step] at hs
  split at hs
  case h_2 => cases hs
  case h_1 boot hphase =>
    split at hs
    case isFalse => cases hs
    case isTrue hg =>
      cases hs
      have hc := h.phase
      rw [PhaseInv, hphase] at hc
      obtain ⟨h1, h2, hquiet, hcommitting, hinstalled⟩ := hc
      have hhead : Xv6.readHead (update s.disk g.start
          (Xv6.writeHead [] (load s.disk s.buf g.start j j).data) g.start) = [] := by
        rw [update_self, readHead_writeHead (by simp)]
      have hhome : ∀ b, g.Home b → update s.disk g.start
          (Xv6.writeHead [] (load s.disk s.buf g.start j j).data) b = durable base s b := by
        intro b hb
        rw [update_of_ne hb.ne_start]
        by_cases hmem : b ∈ s.log.lh
        · obtain ⟨i, hi⟩ := getElem?_of_mem hmem
          exact hinstalled i b (List.getElem?_eq_some_iff.mp hi).1 hi
        · exact h.recoverable.rest b hb (by rw [h1]; exact hmem)
      have htodo : todo s = [] := by rw [todo, hphase]
      have hcache := h.cache.load hg
      rw [htodo] at hcache
      constructor
      case recoverable => exact .of_empty hhead hhome
      case cache =>
        have hlist : todo { s.putHead g [] j with
            log := { s.log with lh := [] }
            phase := if boot then .running else .finish } = [] := by
          cases boot <;> rfl
        rw [hlist]
        exact hcache.bwrite (load_blockno _ _ _ _) (by simp) _
      case held => exact (h.held.load hg _).clean j _
      case logging => exact logging_of_quiet hquiet _
      case outstanding => exact h.outstanding
      case phase =>
        cases boot with
        | false => exact ⟨hhead, ⟨rfl, h2, hquiet⟩, hcommitting⟩
        | true =>
          refine ⟨⟨hhead, nodup_nil, ?_, ?_⟩, hcommitting⟩
          · exact fun b hb => absurd hb not_mem_nil
          · intro b
            change b ∈ s.pending.map Prod.fst ↔ b ∈ []
            rw [h2]
            rfl

theorem inv_finish (h : Inv g base s) (hs : s.step g (.finish p) = some s') : Inv g base s' := by
  simp only [step] at hs
  split at hs
  case h_2 => cases hs
  case h_1 log hpc hphase hlog =>
    cases hs
    cases hlog
    have hc := h.phase
    rw [PhaseInv, hphase] at hc
    obtain ⟨h1, ⟨hlh, hpending, hquiet⟩, -⟩ := hc
    have htodo : todo s = [] := by rw [todo, hphase]
    have hcount := countThreads_update InOp s.pc p .idle
    simp only [hpc, not_inOp_idle, not_inOp_committing, if_false] at hcount
    constructor
    case recoverable => exact h.recoverable
    case cache =>
      have hcache := h.cache.mono_busy fun j hj => busy_update (p := p) (c := .idle)
        (by simp [hpc]) hj
      rw [htodo, ← hlh] at hcache
      exact hcache
    case held => exact h.held
    case logging => exact logging_update h (by simp)
    case outstanding =>
      have ho := h.outstanding
      dsimp only
      omega
    case phase =>
      refine ⟨⟨h1, ?_, ?_, ?_⟩, rfl⟩
      · change s.log.lh.Nodup
        rw [hlh]
        exact nodup_nil
      · intro b hb
        change b ∈ s.log.lh at hb
        rw [hlh] at hb
        cases hb
      · intro b
        change b ∈ s.pending.map Prod.fst ↔ b ∈ s.log.lh
        rw [hlh, hpending]
        rfl

omit [DecidableEq ι] in
theorem inv_crash (h : Sealed g s.disk (durable base s)) : Inv g base (s.crash g) := by
  have hquiet : Quiet (s.crash g) := fun p => not_inOp_idle
  constructor
  case recoverable => exact h
  case cache =>
    constructor
    case inj => exact fun i j b hi => by cases hi
    case clean => exact fun j b hj => by cases hj
    case pinned => exact fun j b hj => by cases hj
    case dirty_todo => exact fun j hj => by cases hj
    case todo_dirty => exact fun b hb => by cases hb
  case held => exact fun j p hj => by cases hj
  case logging => exact fun p j hp => by cases hp
  case outstanding =>
    rw [(countThreads_eq_zero InOp).mpr hquiet]
    rfl
  case phase => exact ⟨⟨rfl, rfl, hquiet⟩, rfl⟩

theorem inv_readHead (h : Inv g base s) (hs : s.step g (.readHead j) = some s') : Inv g base s' := by
  simp only [step] at hs
  split at hs
  case isFalse => cases hs
  case isTrue hcond =>
    cases hs
    obtain ⟨hphase, hg⟩ := hcond
    have hc := h.phase
    rw [PhaseInv, hphase] at hc
    obtain ⟨⟨hlh, hpending, hquiet⟩, hcommitting⟩ := hc
    have htodo : todo s = [] := by rw [todo, hphase]
    have hcache := h.cache.load hg
    rw [htodo] at hcache
    have hdata : (load s.disk s.buf g.start j j).data = s.disk g.start :=
      hcache.data_of_not_todo not_mem_nil (load_blockno _ _ _ _) (hquiet.not_busy j)
    rw [hdata]
    constructor
    case recoverable => exact h.recoverable
    case cache =>
      by_cases hn : 0 < (Xv6.readHead (s.disk g.start)).length
      · simp only [if_pos hn]
        exact hcache
      · simp only [if_neg hn]
        exact hcache
    case held => exact h.held.load hg _
    case logging => exact logging_of_quiet hquiet _
    case outstanding => exact h.outstanding
    case phase =>
      have hinst : ∀ phase n, n ≤ 0 → Installing g base { s with
          buf := load s.disk s.buf g.start j
          log := { s.log with lh := Xv6.readHead (s.disk g.start) }
          phase := phase } true n := by
        intro phase n hn
        refine ⟨rfl, hpending, hquiet, hcommitting, ?_⟩
        intro i b hi
        omega
      by_cases hn : 0 < (Xv6.readHead (s.disk g.start)).length
      · simp only [PhaseInv, if_pos hn]
        exact ⟨hinst _ 0 (Nat.le_refl 0), hn⟩
      · simp only [PhaseInv, if_neg hn]
        exact hinst _ _ (by omega)

theorem inv_step (h : Inv g base s) (hs : Steps (step g) s l s') : Inv g base s' := by
  cases l with
  | beginOp => exact inv_beginOp h hs
  | bread => exact inv_bread h hs
  | brelse => exact inv_brelse h hs
  | check => exact inv_check h hs
  | record => exact inv_record h hs
  | endOp => exact inv_endOp h hs
  | writeLog => exact inv_writeLog h hs
  | writeHead => exact inv_writeHead h hs
  | install => exact inv_install h hs
  | clear => exact inv_clear h hs
  | finish => exact inv_finish h hs
  | crash =>
    cases hs
    exact inv_crash h.recoverable
  | readHead => exact inv_readHead h hs

omit [DecidableEq ι] in
theorem inv_boots (h : Boots g s) : Inv g s.disk s := by
  have hdurable : durable s.disk s = s.disk := by
    rw [durable, h.committed]
    rfl
  have hsealed : Sealed g s.disk (durable s.disk s) := by
    rw [hdurable]
    exact .of_empty h.header fun b _ => rfl
  have hinv := inv_crash hsealed
  rw [← h.fresh] at hinv
  exact hinv

/-- Whenever the machine stops, recovery leaves in every home block what the committed
groups wrote, all of them and nothing else; and so it finds them when it runs again. -/
theorem recovers_committed_groups {s₀ : State ι} {tr : List (State ι × Label ι)}
    (hboot : Boots g s₀) (hr : Run (Steps (State.step g)) s₀ tr s) {b : Word} (hb : g.Home b) :
    recoverFromLog g s.disk b = replay s.committed.flatten s₀.disk b ∧
      (s.phase = .running → s.disk b = replay s.committed.flatten s₀.disk b) := by
  have h : Inv g s₀.disk s := by
    refine hr.invariant (C := fun _ _ => True) ?_ (inv_boots hboot) (fun _ _ => trivial)
    exact fun _ _ _ hI _ hs => inv_step hI hs
  refine ⟨h.recoverable.recoverFromLog hb, ?_⟩
  intro hrun
  have hheader := (h.open_of_running hrun).1.header
  exact h.recoverable.rest b hb (by rw [hheader]; exact not_mem_nil)

end Steps

def mkfsLog : LogArea where
  start := 2
  size := LOGSIZE
  logsize_le := Nat.le_refl _
  fits := by decide

def mkfsBoot : State Unit where
  disk := fun _ _ => 0
  buf := fun _ => {}
  log := { size := LOGSIZE }
  pc := fun _ => .idle
  phase := .boot

/-- One process logs block 32, and the power fails right after the header write. -/
def oneGroup : List (Label Unit) :=
  [.readHead 0, .clear 0, .beginOp (), .bread () 32 1, .check () 1 (fun _ => 7), .record (),
    .brelse () 1, .endOp (), .writeLog 2 1, .writeHead 0, .crash]

theorem recovers_one_group :
    possible (State.step mkfsLog) mkfsBoot oneGroup = true ∧
      recoverFromLog mkfsLog (oneGroup.foldl (after (State.step mkfsLog)) mkfsBoot).disk 32 =
        replay (oneGroup.foldl (after (State.step mkfsLog)) mkfsBoot).committed.flatten
          mkfsBoot.disk 32 := by
  have hpossible : possible (step mkfsLog) mkfsBoot oneGroup = true := by decide +kernel
  have hboot : Boots mkfsLog mkfsBoot := ⟨by decide +kernel, rfl, rfl⟩
  exact ⟨hpossible, (recovers_committed_groups hboot (run_trace hpossible) (by decide)).1⟩

end Xv6.Logging
