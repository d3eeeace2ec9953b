import Xv6.Proc.Steps
import Xv6.Sched.Pass

/-! # What the critical sections leave of a slot

Only the scheduler, `allocproc` and `yield2` write `level` and `hold`. Every other critical
section carries them over, and with them the fact that a process waits for the processor.
-/
namespace Xv6.Sched
open PTable

/-- The state changes that a critical section makes to another process's slot. -/
inductive Moves : ProcState → ProcState → Prop
  | same (s : ProcState) : Moves s s
  | wake : Moves .sleeping .runnable
  | start : Moves .embryo .runnable
  | abandon : Moves .embryo .unused
  | reap : Moves .zombie .unused

theorem Moves.trans (h : Moves s s') (h' : Moves s' s'') : Moves s s'' := by
  cases h with
  | same => exact h'
  | wake =>
    cases h'
    exact .wake
  | start =>
    cases h'
    exact .start
  | abandon =>
    cases h'
    exact .abandon
  | reap =>
    cases h'
    exact .reap

def Waiting (pr : Proc) : Prop := pr.state = .runnable ∨ pr.state = .sleeping

/-- What a critical section leaves of a slot that it does not allocate. -/
structure Carried (pr pr' : Proc) : Prop where
  level : pr'.level = pr.level
  hold : pr'.hold = pr.hold
  priority : pr'.priority = pr.priority ∨ 0 ≤ pr'.priority ∧ pr'.priority ≤ 10
  state : Moves pr.state pr'.state

variable {t t' : PTable} {p q : Slot} {ticks : Word} {a : Section}

namespace Carried
variable {pr pr' : Proc}

theorem used (h : Carried pr pr') (hu : pr'.state ≠ .unused) : pr.state ≠ .unused := by
  intro hs
  have hmove := h.state
  rw [hs] at hmove
  cases hms : pr'.state <;> rw [hms] at hmove hu <;> cases hmove
  exact hu rfl

theorem waiting (h : Carried pr pr') (hw : Waiting pr) : Waiting pr' := by
  have hmove := h.state
  rcases hw with hs | hs
  · rw [hs] at hmove
    generalize hs' : pr'.state = s' at hmove
    cases hmove
    exact .inl hs'
  · rw [hs] at hmove
    generalize hs' : pr'.state = s' at hmove
    cases hmove
    · exact .inr hs'
    · exact .inl hs'

theorem running (h : Carried pr pr') (hr : pr.state = .running) : pr'.state = .running := by
  have hmove := h.state
  rw [hr] at hmove
  generalize hs' : pr'.state = s' at hmove
  cases hmove
  rfl

theorem refl (pr : Proc) : Carried pr pr := ⟨rfl, rfl, .inl rfl, .same _⟩

theorem of_eq (h : pr' = pr) : Carried pr pr' := by
  rw [h]
  exact refl pr

theorem trans (h : Carried pr pr') (h' : Carried pr' pr'') : Carried pr pr'' where
  level := h'.level.trans h.level
  hold := h'.hold.trans h.hold
  priority := by
    rcases h'.priority with heq | hrange
    · rw [heq]
      exact h.priority
    · exact .inr hrange
  state := h.state.trans h'.state

theorem modify {f : Proc → Proc} (h : Carried (t.proc p) (f (t.proc p)))
    (q : Slot) : Carried (t.proc q) ((t.modify p f).proc q) := by
  rw [modify_proc]
  split
  case isTrue heq =>
    rw [heq]
    exact h
  case isFalse => exact refl _

theorem wakeup1 (t : PTable) (chan : Chan) (q : Slot) : Carried (t.proc q) ((t.wakeup1 chan).proc q) := by
  rw [PTable.wakeup1]
  dsimp only
  split
  case isTrue h =>
    exact ⟨rfl, rfl, .inl rfl, h.1 ▸ .wake⟩
  case isFalse => exact refl _

theorem killed (pr : Proc) : Carried pr (PTable.killed pr) := by
  refine ⟨rfl, rfl, .inl rfl, ?_⟩
  rw [PTable.killed]
  dsimp only
  split
  case isTrue h => exact h ▸ .wake
  case isFalse => exact .same _

theorem kill (t : PTable) (pid : ℤ) (q : Slot) : Carried (t.proc q) ((t.kill pid).2.proc q) := by
  rcases kill_cases t pid with h | ⟨p, -, h⟩
  · rw [h]
    exact refl _
  · rw [h]
    exact modify (killed _) q

theorem setpriority {caller : Slot} {pid priority r : ℤ}
    (h : t.setpriority caller pid priority = some (r, t')) (q : Slot) : Carried (t.proc q) (t'.proc q) := by
  simp only [PTable.setpriority] at h
  split_ifs at h with hrange
  · cases h
    exact refl _
  · cases h
    dsimp only
    split
    case isTrue =>
      refine ⟨rfl, rfl, .inr ?_, .same _⟩
      simp only [MIN_PRIORITY, MAX_PRIORITY] at hrange ⊢
      omega
    case isFalse => exact refl _
  · cases h
    exact refl _

theorem reparent (p : Slot) (ps : List Slot) (t : PTable) (q : Slot) :
    Carried (t.proc q) ((PTable.reparent p ps t).proc q) := by
  induction ps generalizing t with
  | nil => exact refl _
  | cons r ps ih =>
    have hset : Carried (t.proc q) ((t.modify r fun pr => { pr with parent := t.initproc }).proc q) :=
      modify ⟨rfl, rfl, .inl rfl, .same _⟩ q
    rw [PTable.reparent]
    split
    case isTrue =>
      split
      case h_1 => exact (hset.trans (wakeup1 _ _ q)).trans (ih _)
      case h_2 => exact hset.trans (ih _)
    case isFalse => exact ih t

end Carried

/-- What `allocproc` of an MLFQ kernel stores into the queue fields. -/
structure Created (pr pr' : Proc) : Prop where
  unused : pr.state = .unused
  embryo : pr'.state = .embryo
  level : pr'.level = 0
  hold : pr'.hold = TIME_QUANTUM 0
  priority : pr'.priority = 0

def Section.allocates (t : PTable) : Section → Option Slot
  | alloc => t.firstUnused
  | _ => none

theorem alloc_carried (ticks : Word) (p : Slot) (h : Section.alloc.run true ticks p t = some t') (q : Slot) :
    (t.firstUnused ≠ some q ∧ Carried (t.proc q) (t'.proc q)) ∨
      (t.firstUnused = some q ∧ Created (t.proc q) (t'.proc q)) := by
  cases h
  cases hfree : t.firstUnused with
  | none =>
    left
    simp only [allocproc, hfree, Option.map_none]
    exact ⟨nofun, .refl _⟩
  | some =>
    simp only [allocproc, hfree, Option.map_some, modify_proc]
    split
    case isTrue heq =>
      right
      refine ⟨congrArg some heq.symm, ?_, rfl, rfl, rfl, rfl⟩
      rw [heq]
      exact firstUnused_eq_some hfree
    case isFalse hne => exact .inl ⟨fun he => hne (Option.some.inj he).symm, .refl _⟩

theorem other_carried (ha : a ≠ .alloc)
    (h : a.run true ticks p t = some t') (q : Slot) : Carried (t.proc q) (t'.proc q) := by
  cases a with
  | alloc => exact absurd rfl ha
  | abandon =>
    rw [Section.run] at h
    split at h
    case isTrue hs =>
      cases h
      exact .modify ⟨rfl, rfl, .inl rfl, hs ▸ .abandon⟩ q
    case isFalse => cases h
  | forked =>
    rw [Section.run] at h
    split at h
    case isTrue hs =>
      cases h
      exact .modify ⟨rfl, rfl, .inl rfl, hs ▸ .start⟩ q
    case isFalse => cases h
  | awake =>
    cases h
    exact .modify ⟨rfl, rfl, .inl rfl, .same _⟩ q
  | wakeup chan =>
    cases h
    exact Carried.wakeup1 t chan q
  | kill pid =>
    cases h
    exact .kill t pid q
  | setpriority =>
    obtain ⟨⟨r, t''⟩, hset, rfl⟩ := Option.map_eq_some_iff.mp h
    exact .setpriority hset q
  | wait =>
    rw [Section.run] at h
    split at h
    case h_1 r pid t'' hw =>
      cases h
      obtain ⟨-, hz, -, rfl⟩ := wait_eq_reaped hw
      exact .modify ⟨rfl, rfl, .inl rfl, hz ▸ .reap⟩ q
    case h_2 =>
      cases h
      exact .refl _
    case h_3 => cases h

theorem section_carried (h : a.run true ticks p t = some t') (q : Slot) :
    (a.allocates t ≠ some q ∧ Carried (t.proc q) (t'.proc q)) ∨
      (a.allocates t = some q ∧ Created (t.proc q) (t'.proc q)) := by
  by_cases ha : a = .alloc
  · subst ha
    exact alloc_carried ticks p h q
  · refine .inl ⟨?_, ?_⟩
    · intro he
      cases a with
      | alloc => exact ha rfl
      | _ => cases he
    · exact other_carried ha h q

theorem leave_carried (how : Leave) (p : Slot) (t : PTable) (hq : q ≠ p) :
    Carried (t.proc q) ((how.run p t).proc q) := by
  have hmodify : ∀ (t : PTable) (f : Proc → Proc), (t.modify p f).proc q = t.proc q := by
    intro t f
    rw [modify_proc, if_neg hq]
  cases how with
  | yield | yield2 | sleep chan =>
    rw [Leave.run]
    exact .of_eq (hmodify t _)
  | exit =>
    simp only [Leave.run, PTable.exit, hmodify]
    split
    case h_1 r hr => exact (Carried.wakeup1 t _ q).trans (.reparent p slots _ q)
    case h_2 => exact .reparent p slots t q

theorem leave_self (how : Leave) (p : Slot) (t : PTable) :
    (((how.run p t).proc p).priority = (t.proc p).priority ∨
      0 ≤ ((how.run p t).proc p).priority ∧ ((how.run p t).proc p).priority ≤ 10) ∧
    (how = .yield2 → ((how.run p t).proc p).level = 0 ∧ ((how.run p t).proc p).hold = 4) ∧
    (how ≠ .yield2 → ((how.run p t).proc p).level = (t.proc p).level ∧
      ((how.run p t).proc p).hold = (t.proc p).hold) := by
  have hmodify : ∀ (t : PTable) (f : Proc → Proc), (t.modify p f).proc p = f (t.proc p) := by
    intro t f
    rw [modify_proc, if_pos rfl]
  cases how with
  | yield | sleep chan => simp [Leave.run, PTable.yield, PTable.sleep, hmodify]
  | yield2 => simp [Leave.run, PTable.yield2, hmodify, TIME_QUANTUM]
  | exit =>
    -- the wakeup of the parent and the new parents of the orphans carry every slot over
    cases hparent : (t.proc p).parent with
    | none =>
      have hcarried := Carried.reparent p slots t p
      simp only [Leave.run, PTable.exit, hmodify, hparent]
      exact ⟨hcarried.priority, (fun h => by cases h), fun _ => ⟨hcarried.level, hcarried.hold⟩⟩
    | some q =>
      have hcarried := (Carried.wakeup1 t (.proc q) p).trans (.reparent p slots _ p)
      simp only [Leave.run, PTable.exit, hmodify, hparent]
      exact ⟨hcarried.priority, (fun h => by cases h), fun _ => ⟨hcarried.level, hcarried.hold⟩⟩

namespace Mlfq

theorem charge_proc (t : PTable) (p q : Slot) : (charge t p).proc q = if q = p then
      { t.proc p with hold := if 0 < (t.proc p).hold then (t.proc p).hold - 1 else (t.proc p).hold }
    else t.proc q := by
  rw [charge, modify_proc]

theorem left_other (how : Leave) (p : Slot) (t : PTable) (hq : q ≠ p) :
    Carried (t.proc q) ((left how p t).proc q) := by
  rw [left, charge_proc, if_neg hq]
  exact leave_carried how p t hq

theorem left_self (how : Leave) (p : Slot) (t : PTable) :
    (how = .yield2 → ((left how p t).proc p).level = 0 ∧ ((left how p t).proc p).hold = 3) ∧
    (how ≠ .yield2 → ((left how p t).proc p).level = (t.proc p).level ∧ ((left how p t).proc p).hold =
        if 0 < (t.proc p).hold then (t.proc p).hold - 1 else (t.proc p).hold) := by
  obtain ⟨-, hyield, hother⟩ := leave_self how p t
  simp only [left, charge_proc, if_true]
  constructor
  · intro h
    obtain ⟨hl, hh⟩ := hyield h
    rw [hl, hh]
    exact ⟨rfl, rfl⟩
  · intro h
    obtain ⟨hl, hh⟩ := hother h
    rw [hl, hh]
    exact ⟨rfl, rfl⟩

end Mlfq
end Xv6.Sched
