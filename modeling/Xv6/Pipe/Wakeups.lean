import Xv6.Pipe.Ring
import Xv6.Sleep.Contract

/-! # Sleeping readers and writers of a pipe

A reader sleeps while the pipe is empty and may still be written, a writer while it is full
and may still be read. A call wakes the other side before it gives back the lock, except for
a writer that finds the pipe full and leaves.
-/
namespace Xv6.Piping
open Monitor

variable {pi : ℕ}

def Calm (pi : ℕ) (chan : Chan) (d : Ring) : Prop :=
  (chan = nreadChan pi → d.Empty ∧ d.writeopen = true) ∧ (chan = nwriteChan pi → d.Full ∧ d.readopen = true)

theorem nreadChan_ne_nwriteChan : nreadChan pi ≠ nwriteChan pi := by
  intro h
  injection h with h
  omega

/-- A writer in its loop has to wake the readers, a reader in its loop the writers, and
`pipeclose` the other side. -/
def contract (pi : ℕ) : Contract Ring Point where
  calm := Calm pi
  locked
    | .pipewrite _ _ | .piperead _ | .pipeclose _ | .done _ => false
    | _ => true
  knows
    | .full _ _, d => d.Full ∧ d.readopen = true
    | _, _ => True
  owes
    | .storing _ _, chan => chan = nreadChan pi
    | .taking _ _, chan => chan = nwriteChan pi
    | .closed writable, chan => chan = if writable then nreadChan pi else nwriteChan pi
    | _, _ => False

def Storing : Pc Point → Bool
  | .run (.storing _ (_ :: _)) => true
  | _ => false

/-- A writer that finds the pipe full has not been killed, and the pipe may still be read or
nobody sleeps in `piperead`. -/
def WriterStays (pi : ℕ) (s : State Ring Point) : Label Call → Prop
  | .go p => Storing (s.pc p) = true → s.data.Full →
      (s.pt.proc p).killed = false ∧ (s.data.readopen = true ∨ Quiet s (nreadChan pi))
  | _ => True

instance (pi : ℕ) (s : State Ring Point) : (l : Label Call) → Decidable (WriterStays pi s l)
  | .go _ => inferInstanceAs (Decidable (_ → _ → _ ∧ (_ ∨ _)))
  | .start _ _ | .kill _ => inferInstanceAs (Decidable True)

section Kept
variable {quiet : Chan → Prop} {d : Ring} {killed : Bool} {chan : Chan}

theorem calm_store (hfull : ¬ d.Full) (b : UInt8) (h : Calm pi chan d ∨ chan = nreadChan pi) :
    Calm pi chan (d.store b) ∨ chan = nreadChan pi := by
  by_cases hchan : chan = nreadChan pi
  · exact .inr hchan
  · rcases h with h | h
    · exact .inl ⟨fun hr => (hchan hr).elim, fun hw => (hfull (h.2 hw).1).elim⟩
    · exact .inr h

theorem calm_take (hempty : ¬ d.Empty) (h : Calm pi chan d ∨ chan = nwriteChan pi) :
    Calm pi chan d.take ∨ chan = nwriteChan pi := by
  by_cases hchan : chan = nwriteChan pi
  · exact .inr hchan
  · rcases h with h | h
    · exact .inl ⟨fun hr => (hempty (h.1 hr).1).elim, fun hw => (hchan hw).elim⟩
    · exact .inr h

theorem calm_close (writable : Bool) (h : Calm pi chan d) :
    Calm pi chan (d.close writable) ∨ chan = if writable then nreadChan pi else nwriteChan pi := by
  cases writable with
  | true =>
    by_cases hchan : chan = nreadChan pi
    · exact .inr hchan
    · exact .inl ⟨fun hr => (hchan hr).elim, h.2⟩
  | false =>
    by_cases hchan : chan = nwriteChan pi
    · exact .inr hchan
    · exact .inl ⟨h.1, fun hw => (hchan hw).elim⟩

theorem copy_kept (hl : (contract pi).locked l = true)
    (howes : ∀ chan, (contract pi).owes l chan → chan = nwriteChan pi) (n : ℕ) (addr : List UInt8) :
    (contract pi).Kept quiet l d (copy pi d n addr) := by
  have hwake : (contract pi).Kept quiet l d (.wakeup (nwriteChan pi) (.leave addr.length)) :=
    ⟨hl.symm, fun _ => trivial, fun chan ho => .inl (howes chan ho)⟩
  cases n with
  | zero => exact hwake
  | succ =>
    simp only [copy]
    split
    case isTrue => exact hwake
    case isFalse hempty =>
      exact ⟨hl, rfl, trivial, fun chan h => calm_take hempty (h.imp_right (howes chan))⟩

/-- The code keeps to its contract, if a writer that leaves at a full pipe leaves no reader
asleep. -/
theorem act_kept (l : Point) (hknows : (contract pi).locked l = true → (contract pi).knows l d)
    (hquiet : ∀ n b todo, l = .storing n (b :: todo) → d.Full → d.readopen = false ∨ killed = true →
      quiet (nreadChan pi)) : (contract pi).Kept quiet l d (act pi l d killed) := by
  cases l with
  | pipewrite | piperead | pipeclose => exact ⟨rfl, rfl, fun _ => trivial⟩
  | storing n todo =>
    cases todo with
    | nil => exact ⟨rfl, fun _ => trivial, fun chan ho => .inl ho⟩
    | cons b todo =>
      simp only [act]
      split
      case isTrue hfull =>
        split
        case isTrue hleave =>
          refine ⟨rfl, rfl, fun chan ho => ?_⟩
          rw [show chan = nreadChan pi from ho]
          exact hquiet n b todo rfl hfull hleave
        case isFalse hstay =>
          rw [not_or, Bool.not_eq_false] at hstay
          exact ⟨rfl, fun _ => ⟨hfull, hstay.1⟩, fun chan ho => .inl ho⟩
      case isFalse hfull => exact ⟨rfl, rfl, trivial, fun chan h => calm_store hfull b h⟩
  | full =>
    have hwait : d.Full ∧ d.readopen = true := hknows rfl
    exact ⟨rfl, rfl, ⟨fun hr => (nreadChan_ne_nwriteChan hr.symm).elim, fun _ => hwait⟩, fun _ => id, fun _ => trivial⟩
  | testing n =>
    simp only [act]
    split
    case isTrue hwait =>
      split
      · exact ⟨rfl, rfl, fun _ => False.elim⟩
      · exact ⟨rfl, rfl, ⟨fun _ => hwait, fun hw => (nreadChan_ne_nwriteChan hw).elim⟩, fun _ => id, fun _ => trivial⟩
    case isFalse => exact copy_kept rfl (fun _ => False.elim) n []
  | taking n addr => exact copy_kept rfl (fun _ => id) n addr
  | closing writable => exact ⟨rfl, rfl, trivial, fun chan h => calm_close writable (h.resolve_right id)⟩
  | closed => exact ⟨rfl, fun _ => trivial, fun chan ho => .inl ho⟩
  | leave => exact ⟨rfl, rfl, fun _ => False.elim⟩
  | done => exact rfl

end Kept

/-- No call is in progress, the lock is free, and nobody sleeps on the pipe. -/
structure FreshPipe (pi : ℕ) (s : State Ring Point) : Prop where
  fresh : Fresh s
  unlocked : s.holder .own = none
  awake : ∀ p, ¬ Sleeps s.pt p (nreadChan pi) ∧ ¬ Sleeps s.pt p (nwriteChan pi)

theorem FreshPipe.inv (h : FreshPipe pi s) : (contract pi).Inv (pipe pi) s := by
  have hidle (p : Slot) {P : Pc Point → Prop} (hP : ∀ r, P (.idle r)) : P (s.pc p) := by
    obtain ⟨r, hr⟩ := h.fresh.idle p
    rw [hr]
    exact hP r
  refine ⟨h.fresh.inv _, fun p => ?_, fun p => hidle p fun _ => trivial, fun p chan hp => ?_, fun p chan hp => ?_⟩
  · rw [show s.holder (pipe pi).lk = none from h.unlocked]
    exact ⟨nofun, hidle p (P := fun c => (contract pi).Locked c → none = some p) fun _ => nofun⟩
  · exact (hidle p (P := fun c => ¬ Dormant s.pt p chan c) (fun _ => id) hp).elim
  · refine .inr fun d => ⟨fun hr => ?_, fun hw => ?_⟩
    · exact ((h.awake p).1 (hr ▸ hp)).elim
    · exact ((h.awake p).2 (hw ▸ hp)).elim

/-- In every run in which no writer leaves a full pipe and a sleeping reader behind: while the
lock of the pipe is free, a process that sleeps on `nread` finds the pipe empty and its write
end open, and one that sleeps on `nwrite` finds it full and its read end open. -/
theorem sleepers_wait {s₀ s : State Ring Point} {tr : List (State Ring Point × Label Call)} (h₀ : FreshPipe pi s₀)
    (hr : Run (Steps (step (pipe pi))) s₀ tr s) (hstay : Meets (WriterStays pi) tr)
    (hfree : s.holder .own = none) (p : Slot) :
    (Sleeps s.pt p (nreadChan pi) → s.data.Empty ∧ s.data.writeopen = true) ∧
      (Sleeps s.pt p (nwriteChan pi) → s.data.Full ∧ s.data.readopen = true) := by
  have hinv : (contract pi).Inv (pipe pi) s := by
    refine hr.invariant (fun s lb s' hI hlb hs => hI.move rfl (fun call => ?_) (step_move hs) ?_) h₀.inv hstay
    · cases call <;> rfl
    · intro p l hgo hpc hknows
      subst hgo
      refine act_kept l hknows fun n b todo hl hfull hleave => ?_
      subst hl
      obtain ⟨hkilled, hopen⟩ := hlb (by rw [hpc]; rfl) hfull
      rcases hleave with hclosed | hk
      · refine hopen.resolve_left fun hopen => ?_
        rw [hclosed] at hopen
        cases hopen
      · rw [hkilled] at hk
        cases hk
  exact ⟨fun hp => (hinv.calm_of_free hfree hp).1 rfl, fun hp => (hinv.calm_of_free hfree hp).2 rfl⟩

def openRing : Ring where
  readopen := true
  writeopen := true

theorem twoRunning_fresh_pipe (pi : ℕ) : FreshPipe pi (twoRunning openRing) := by
  refine ⟨twoRunning_fresh openRing, rfl, fun p => ?_⟩
  have hstate : ∀ q, ((twoRunning openRing : State Ring Point).pt.proc q).state ≠ .sleeping := by decide +kernel
  exact ⟨fun hp => hstate p hp.1, fun hp => hstate p hp.1⟩

/-- Process 1 goes to sleep in `piperead`. -/
def sleepingReader : List (Label Call) := .start 1 (.piperead 1) :: List.replicate 6 (.go 1)

def sleepingReaderEnd : State Ring Point := sleepingReader.foldl (after (step (pipe 0))) (twoRunning openRing)

theorem sleepers_wait_reader :
    possible (step (pipe 0)) (twoRunning openRing) sleepingReader = true ∧
      Sleeps sleepingReaderEnd.pt 1 (nreadChan 0) ∧ sleepingReaderEnd.data.Empty ∧
      sleepingReaderEnd.data.writeopen = true := by
  have hpossible : possible (step (pipe 0)) (twoRunning openRing) sleepingReader = true := by decide +kernel
  have hrun : Run (Steps (step (pipe 0))) (twoRunning openRing) _ sleepingReaderEnd := run_trace hpossible
  have hstay : Meets (WriterStays 0) (trace (step (pipe 0)) (twoRunning openRing) sleepingReader) := by
    unfold Meets
    decide +kernel
  have hsleeps : Sleeps sleepingReaderEnd.pt 1 (nreadChan 0) := by decide +kernel
  exact ⟨hpossible, hsleeps, (sleepers_wait (twoRunning_fresh_pipe 0) hrun hstay (by decide +kernel) 1).1 hsleeps⟩

/-- Process 1 goes to sleep in `piperead`. Process 0 calls `pipewrite` with 513 bytes, is
killed, and finds the pipe full. -/
def killedWriter : List (Label Call) :=
  .start 1 (.piperead 1) :: List.replicate 6 (.go 1) ++
    .start 0 (.pipewrite (List.replicate 513 7)) :: .go 0 :: .kill 1 :: List.replicate 513 (.go 0)

def killedWriterEnd : State Ring Point := killedWriter.foldl (after (step (pipe 0))) (twoRunning openRing)

/-- The reader is left asleep, while the pipe is full. -/
theorem killed_writer_strands_reader : FreshPipe 0 (twoRunning openRing) ∧
    possible (step (pipe 0)) (twoRunning openRing) killedWriter = true ∧ killedWriterEnd.holder .own = none ∧
    Sleeps killedWriterEnd.pt 1 (nreadChan 0) ∧ ¬ killedWriterEnd.data.Empty :=
  ⟨twoRunning_fresh_pipe 0, by decide +kernel, by decide +kernel, by decide +kernel, by decide +kernel⟩

end Xv6.Piping
