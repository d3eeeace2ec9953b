import Xv6.Proc.Steps
import Xv6.Sleep.Monitor

/-! # No lost wakeup

`sleep` gives up its lock with `ptable.lock` held, and `wakeup` needs `ptable.lock`. From the
moment at which a process gives up the lock until it is woken, no call of `wakeup` on its
channel has gone by.
-/
namespace Xv6.Monitor
open Function PTable

variable {D L C : Type}

/-- `SLEEPING` on a channel. -/
def Sleeps (t : PTable) (p : Slot) (chan : Chan) : Prop :=
  (t.proc p).state = .sleeping ∧ (t.proc p).chan = some chan

instance (t : PTable) (p : Slot) (chan : Chan) : Decidable (Sleeps t p chan) := inferInstanceAs (Decidable (_ ∧ _))

/-- Since `p` gave up the lock there was no `wakeup` on the channel, and since it called
`sleep` no update that has been answered by one. -/
structure Informed (s : State D L) (p : Slot) (chan : Chan) : Prop where
  began : s.began p = s.wakeups chan
  seen : ∀ n ∈ s.answered chan, n ≤ s.seen p

def Pc.Awake : Pc L → Prop
  | .idle _ | .sched _ _ | .asleep _ _ => False
  | _ => True

/-- The locks that a process holds at the lines of `sleep` and `wakeup`, and what it knows. -/
def Stage (cl : Client D L C) (s : State D L) (p : Slot) : Pc L → Prop
  | .lockTable _ _ => cl.lk ≠ .ptable ∧ s.holder cl.lk = some p ∧ s.seen p = s.updates
  | .giveUp _ _ => s.holder .ptable = some p ∧ cl.lk ≠ .ptable ∧ s.holder cl.lk = some p ∧ s.seen p = s.updates
  | .fall chan _ => s.holder .ptable = some p ∧ Informed s p chan
  | .sched _ _ | .tidy _ | .unlock _ | .waking _ _ | .woken _ => s.holder .ptable = some p
  | _ => True

structure Inv (cl : Client D L C) (s : State D L) : Prop where
  stage : ∀ p, Stage cl s p (s.pc p)
  awake : ∀ p, (s.pc p).Awake → (s.pt.proc p).state ≠ .sleeping
  made : ∀ p, ∀ n ∈ s.made p, n ≤ s.updates
  answered : ∀ chan, ∀ n ∈ s.answered chan, n ≤ s.updates
  told : ∀ p chan, Sleeps s.pt p chan → Informed s p chan

section Moves
variable {cl : Client D L C} {s s' : State D L} {p q : Slot} {c : Pc L} {chan : Chan} {o : Lock → Option Slot} {t : PTable}
  {l : Lock}

theorem Informed.congr (h : Informed s p chan) (hbegan : s'.began p = s.began p)
    (hseen : s'.seen p = s.seen p) (hwakeups : s'.wakeups chan = s.wakeups chan)
    (hanswered : s'.answered chan = s.answered chan) : Informed s' p chan := by
  constructor
  · rw [hbegan, hwakeups]
    exact h.began
  · rw [hanswered, hseen]
    exact h.seen

/-- What another process does leaves the stage of `q` alone, if it changes the data only
where `q` has not the lock, and wakes only where `q` has not `ptable.lock`. -/
theorem Stage.frame (h : Stage cl s q c) (hseen : s'.seen q = s.seen q)
    (hbegan : s'.began q = s.began q) (hholder : ∀ l, s.holder l = some q → s'.holder l = some q)
    (hupdates : s.holder cl.lk = some q → s'.updates = s.updates)
    (hwakeups : s.holder .ptable = some q → s'.wakeups = s.wakeups ∧ s'.answered = s.answered) :
    Stage cl s' q c := by
  cases c with
  | lockTable => exact ⟨h.1, hholder _ h.2.1, by rw [hseen, hupdates h.2.1]; exact h.2.2⟩
  | giveUp =>
    exact ⟨hholder _ h.1, h.2.1, hholder _ h.2.2.1, by rw [hseen, hupdates h.2.2.1]; exact h.2.2.2⟩
  | fall chan =>
    have hsame := hwakeups h.1
    exact ⟨hholder _ h.1, h.2.congr hbegan hseen (congrFun hsame.1 chan) (congrFun hsame.2 chan)⟩
  | sched | tidy | unlock | waking | woken => exact hholder _ h
  | _ => trivial

theorem setPc_self (s : State D L) (c : Pc L) : (s.setPc p c).pc p = c := update_self ..

theorem setPc_of_ne (h : q ≠ p) (s : State D L) (c : Pc L) : (s.setPc p c).pc q = s.pc q := update_of_ne h ..

theorem Inv.own (h : Inv cl s) {n m : ℕ} (hholder : ∀ l q, q ≠ p → s.holder l = some q → o l = some q)
    (hawake : (s.pt.proc p).state ≠ .sleeping) (hstage : Stage cl
      { s.setPc p c with holder := o, seen := update s.seen p n, began := update s.began p m } p c) :
    Inv cl { s.setPc p c with holder := o, seen := update s.seen p n, began := update s.began p m } := by
  refine ⟨fun q => ?_, fun q hq => ?_, h.made, h.answered, fun q chan hq => ?_⟩
  · by_cases hqp : q = p
    · subst hqp
      rw [setPc_self]
      exact hstage
    · rw [setPc_of_ne hqp]
      exact (h.stage q).frame (update_of_ne hqp ..) (update_of_ne hqp ..)
        (fun l => hholder l q hqp) (fun _ => rfl) fun _ => ⟨rfl, rfl⟩
  · by_cases hqp : q = p
    · rw [hqp]
      exact hawake
    · dsimp only at hq
      rw [setPc_of_ne hqp] at hq
      exact h.awake q hq
  · have hqp : q ≠ p := by
      rintro rfl
      exact hawake hq.1
    exact (h.told q chan hq).congr (update_of_ne hqp ..) (update_of_ne hqp ..) rfl rfl

theorem Inv.locks (h : Inv cl s) (hholder : ∀ l q, q ≠ p → s.holder l = some q → o l = some q)
    (hawake : c.Awake → (s.pt.proc p).state ≠ .sleeping)
    (hstage : Stage cl { s.setPc p c with holder := o } p c) : Inv cl { s.setPc p c with holder := o } := by
  refine ⟨fun q => ?_, fun q hq => ?_, h.made, h.answered, fun q chan hq => (h.told q chan hq).congr rfl rfl rfl rfl⟩
  · by_cases hqp : q = p
    · subst hqp
      rw [setPc_self]
      exact hstage
    · rw [setPc_of_ne hqp]
      exact (h.stage q).frame rfl rfl (fun l => hholder l q hqp) (fun _ => rfl) fun _ => ⟨rfl, rfl⟩
  · by_cases hqp : q = p
    · subst hqp
      dsimp only at hq
      rw [setPc_self] at hq
      exact hawake hq
    · dsimp only at hq
      rw [setPc_of_ne hqp] at hq
      exact h.awake q hq

theorem Inv.table (h : Inv cl s) (ht : ∀ q, (t.proc q).state = .sleeping → (s.pt.proc q).state = .sleeping ∧
      ∀ chan, (t.proc q).chan = some chan → (s.pt.proc q).chan = some chan) : Inv cl { s with pt := t } := by
  refine ⟨fun q => ?_, fun q hq hs => h.awake q hq (ht q hs).1, h.made, h.answered, fun q chan hq => ?_⟩
  · exact (h.stage q).frame rfl rfl (fun _ => id) (fun _ => rfl) fun _ => ⟨rfl, rfl⟩
  · exact (h.told q chan ⟨(ht q hq.1).1, (ht q hq.1).2 chan hq.2⟩).congr rfl rfl rfl rfl

theorem Inv.update (h : Inv cl s) {l l' : L} (hpc : s.pc p = .run l) (hheld : s.holder cl.lk = some p) (d : D) :
    Inv cl ((s.update p d).setPc p (.run l')) := by
  refine ⟨fun q => ?_, fun q hq => ?_, fun q n hn => ?_, fun chan n hn => ?_, fun q chan hq => ?_⟩
  · by_cases hqp : q = p
    · rw [hqp, setPc_self]
      trivial
    · rw [setPc_of_ne hqp]
      refine (h.stage q).frame rfl rfl (fun _ => id) (fun hq => ?_) fun _ => ⟨rfl, rfl⟩
      exact (hqp (Option.some.inj (hq.symm.trans hheld))).elim
  · by_cases hqp : q = p
    · rw [hqp]
      exact h.awake p (by rw [hpc]; trivial)
    · rw [setPc_of_ne hqp] at hq
      exact h.awake q hq
  · dsimp only [State.setPc, State.update] at hn ⊢
    by_cases hqp : q = p
    · rw [hqp, update_self] at hn
      rcases List.mem_cons.mp hn with rfl | hn
      · exact le_refl _
      · exact (h.made p n hn).trans (Nat.le_succ _)
    · rw [update_of_ne hqp] at hn
      exact (h.made q n hn).trans (Nat.le_succ _)
  · exact (h.answered chan n hn).trans (Nat.le_succ _)
  · exact (h.told q chan hq).congr rfl rfl rfl rfl

theorem not_sleeps_wakeup1 (t : PTable) (p : Slot) (chan : Chan) : ¬ Sleeps (t.wakeup1 chan) p chan := by
  rintro ⟨hstate, hchan⟩
  simp only [wakeup1] at hstate hchan
  split at hstate
  case isTrue => cases hstate
  case isFalse hno =>
    rw [if_neg hno] at hchan
    exact hno ⟨hstate, hchan⟩

theorem wakeup1_sleeping (h : ((t.wakeup1 chan).proc p).state = .sleeping) :
    (t.wakeup1 chan).proc p = t.proc p := by
  simp only [wakeup1] at h ⊢
  split at h
  case isTrue => cases h
  case isFalse hno => rw [if_neg hno]

theorem kill_sleeping (h : ((t.kill pid).2.proc p).state = .sleeping) : (t.kill pid).2.proc p = t.proc p := by
  obtain hkill | ⟨r, hr, hkill⟩ := kill_cases t pid
  · rw [hkill]
  · rw [hkill] at h ⊢
    dsimp only at h ⊢
    rw [modify_proc] at h ⊢
    split
    case isTrue hpr =>
      rw [if_pos hpr] at h
      simp only [killed] at h
      split at h
      case isTrue => cases h
      case isFalse hno => exact (hno h).elim
    case isFalse => rfl

theorem Inv.wakeup1 (h : Inv cl s) (hheld : s.holder .ptable = some p) (chan : Chan)
    (hstage : Stage cl ((s.wakeup1 p chan).setPc p c) p c) (hawake : (s.pc p).Awake) :
    Inv cl ((s.wakeup1 p chan).setPc p c) := by
  refine ⟨fun q => ?_, fun q hq => ?_, h.made, fun chan' n hn => ?_, fun q chan' hq => ?_⟩
  · by_cases hqp : q = p
    · rw [hqp, setPc_self]
      exact hstage
    · rw [setPc_of_ne hqp]
      refine (h.stage q).frame rfl rfl (fun _ => id) (fun _ => rfl) fun hq => ?_
      exact (hqp (Option.some.inj (hq.symm.trans hheld))).elim
  · have hold : (s.pc q).Awake := by
      by_cases hqp : q = p
      · rw [hqp]
        exact hawake
      · rwa [setPc_of_ne hqp] at hq
    intro hs
    have hsame : (s.pt.wakeup1 chan).proc q = s.pt.proc q := wakeup1_sleeping hs
    exact h.awake q hold (hsame ▸ hs)
  · dsimp only [State.setPc, State.wakeup1] at hn
    by_cases hc : chan' = chan
    · rw [hc, update_self] at hn
      rcases List.mem_append.mp hn with hn | hn
      · exact h.made p n hn
      · exact h.answered chan n hn
    · rw [update_of_ne hc] at hn
      exact h.answered chan' n hn
  · have hc : chan' ≠ chan := by
      rintro rfl
      exact not_sleeps_wakeup1 s.pt q _ hq
    have hsame : (s.pt.wakeup1 chan).proc q = s.pt.proc q := wakeup1_sleeping hq.1
    have hold : Sleeps s.pt q chan' := by
      rw [Sleeps, ← hsame]
      exact hq
    exact (h.told q chan' hold).congr rfl rfl (update_of_ne hc ..) (update_of_ne hc ..)

theorem Inv.fall (h : Inv cl s) {chan : Chan} {l : L} (hpc : s.pc p = .fall chan l) :
    Inv cl (.setPc { s with pt := s.pt.sleep p chan } p (.sched chan l)) := by
  have hstage := h.stage p
  rw [hpc] at hstage
  have hself : (s.pt.sleep p chan).proc p = { s.pt.proc p with chan := some chan, state := .sleeping } := by
    rw [sleep, modify_proc, if_pos rfl]
  have hother {q : Slot} (hqp : q ≠ p) : (s.pt.sleep p chan).proc q = s.pt.proc q := by
    rw [sleep, modify_proc, if_neg hqp]
  refine ⟨fun q => ?_, fun q hq => ?_, h.made, h.answered, fun q chan' hq => ?_⟩
  · by_cases hqp : q = p
    · rw [hqp, setPc_self]
      exact hstage.1
    · rw [setPc_of_ne hqp]
      exact (h.stage q).frame rfl rfl (fun _ => id) (fun _ => rfl) fun _ => ⟨rfl, rfl⟩
  · by_cases hqp : q = p
    · rw [hqp, setPc_self] at hq
      exact hq.elim
    · rw [setPc_of_ne hqp] at hq
      dsimp only [State.setPc]
      rw [hother hqp]
      exact h.awake q hq
  · dsimp only [State.setPc] at hq
    by_cases hqp : q = p
    · subst hqp
      rw [Sleeps, hself] at hq
      cases hq.2
      exact hstage.2.congr rfl rfl rfl rfl
    · rw [Sleeps, hother hqp] at hq
      exact (h.told q chan' hq).congr rfl rfl rfl rfl

theorem holder_acquire (hfree : s.holder l = none) (m : Lock) (q : Slot) (_ : q ≠ p)
    (h : s.holder m = some q) : Function.update s.holder l (some p) m = some q := by
  rw [update_of_ne]
  · exact h
  · rintro rfl
    rw [hfree] at h
    cases h

theorem holder_release (hheld : s.holder l = some p) (m : Lock) (q : Slot) (hqp : q ≠ p)
    (h : s.holder m = some q) : Function.update s.holder l none m = some q := by
  rw [update_of_ne]
  · exact h
  · rintro rfl
    exact hqp (Option.some.inj (h.symm.trans hheld))

theorem Inv.move (h : Inv cl s) (hm : Move cl s lb s') : Inv cl s' := by
  have hawake {p : Slot} {c : Pc L} (hpc : s.pc p = c) (hc : c.Awake) : (s.pt.proc p).state ≠ .sleeping :=
    h.awake p (hpc ▸ hc)
  have hstage {p : Slot} {c : Pc L} (hpc : s.pc p = c) : Stage cl s p c := hpc ▸ h.stage p
  have htaken (p : Slot) : Function.update s.holder .ptable (some p) .ptable = some p := update_self ..
  cases hm with
  | start hpc hrun => exact h.locks (o := s.holder) (fun _ _ _ => id) (fun _ => by rw [hrun]; nofun) trivial
  | kill =>
    refine h.table fun q hq => ?_
    have hsame := kill_sleeping hq
    rw [hsame] at hq ⊢
    exact ⟨hq, fun _ => id⟩
  | acquire hpc hact hfree
  | relock hpc hfree => exact h.locks (holder_acquire hfree) (fun _ => hawake hpc trivial) trivial
  | release hpc hact hheld => exact h.locks (holder_release hheld) (fun _ => hawake hpc trivial) trivial
  | update hpc hact hheld => exact h.update hpc hheld _
  | sleepTable hpc hact hheld hlk =>
    refine h.own (o := s.holder) (fun _ _ _ => id) (hawake hpc trivial) ⟨hlk ▸ hheld, ?_, ?_⟩
    · exact update_self ..
    · dsimp only
      rw [update_self]
      exact h.answered _
  | @sleep p l l' chan hpc hact hheld hlk =>
    have hnext := h.own (c := .lockTable chan l') (n := s.updates) (m := s.began p) (o := s.holder)
      (fun _ _ _ => id) (hawake hpc trivial) ⟨hlk, hheld, update_self ..⟩
    rw [update_eq_self] at hnext
    exact hnext
  | wakeup hpc => exact h.locks (o := s.holder) (fun _ _ _ => id) (fun _ => hawake hpc trivial) trivial
  | wakeup1 hpc hact hheld => exact h.wakeup1 hheld _ trivial (by rw [hpc]; trivial)
  | ret => exact h.locks (o := s.holder) (fun _ _ _ => id) (fun hc => hc.elim) trivial
  | lockTable hpc hfree =>
    obtain ⟨hlk, hheld, hseen⟩ := hstage hpc
    refine h.locks (holder_acquire hfree) (fun _ => hawake hpc trivial) ⟨?_, hlk, ?_, hseen⟩
    · exact htaken _
    · exact (update_of_ne hlk ..).trans hheld
  | @giveUp p l chan hpc hheld =>
    obtain ⟨htable, hlk, -, hseen⟩ := hstage hpc
    have hnext := h.own (c := .fall chan l) (n := s.seen p) (m := s.wakeups chan) (holder_release hheld)
      (hawake hpc trivial) ⟨(update_of_ne hlk.symm ..).trans htable, update_self .., ?_⟩
    · rw [update_eq_self] at hnext
      exact hnext
    · dsimp only
      rw [update_self, hseen]
      exact h.answered chan
  | fall hpc => exact h.fall hpc
  | sched hpc hheld => exact h.locks (holder_release hheld) (fun hc => hc.elim) trivial
  | @resume p l chan hpc hwoken hfree =>
    have htable := h.table (t := s.pt.modify p fun pr => { pr with state := .running }) fun q hq => by
      rw [modify_proc] at hq ⊢
      split
      case isTrue hqp =>
        rw [if_pos hqp] at hq
        cases hq
      case isFalse hqp =>
        rw [if_neg hqp] at hq
        exact ⟨hq, fun _ => id⟩
    refine htable.locks (p := p) (c := .tidy l) (holder_acquire hfree) (fun _ => ?_) ?_
    · dsimp only
      rw [modify_proc, if_pos rfl]
      nofun
    · exact htaken _
  | @tidy p l hpc =>
    have htable := h.table (t := s.pt.modify p fun pr => { pr with chan := none }) fun q hq => by
      rw [modify_proc] at hq ⊢
      split
      case isTrue hqp =>
        rw [if_pos hqp] at hq
        exact ⟨hqp ▸ hq, fun _ => nofun⟩
      case isFalse hqp =>
        rw [if_neg hqp] at hq
        exact ⟨hq, fun _ => id⟩
    refine htable.locks (p := p) (o := s.holder) (fun _ _ _ => id) (fun _ => ?_) ?_
    · dsimp only
      rw [modify_proc, if_pos rfl]
      exact hawake hpc trivial
    · split
      · trivial
      · exact hstage hpc
  | unlock hpc hheld => exact h.locks (holder_release hheld) (fun _ => hawake hpc trivial) trivial
  | wake hpc hfree =>
    refine h.locks (holder_acquire hfree) (fun _ => hawake hpc trivial) ?_
    exact htaken _
  | waking hpc => exact h.wakeup1 (hstage hpc) _ (hstage hpc) (by rw [hpc]; trivial)
  | woken hpc hheld => exact h.locks (holder_release hheld) (fun _ => hawake hpc trivial) trivial

end Moves

/-- No call is in progress, and nothing is recorded yet. -/
structure Fresh (s : State D L) : Prop where
  idle : ∀ p, ∃ r, s.pc p = .idle r
  wakeups : s.wakeups = fun _ => 0
  answered : s.answered = fun _ => []
  made : s.made = fun _ => []
  began : s.began = fun _ => 0

theorem Fresh.inv (h : Fresh s) (cl : Client D L C) : Inv cl s := by
  have hidle (p : Slot) {P : Pc L → Prop} (hP : ∀ r, P (.idle r)) : P (s.pc p) := by
    obtain ⟨r, hr⟩ := h.idle p
    rw [hr]
    exact hP r
  refine ⟨fun p => hidle p fun _ => trivial, fun p hp => ?_, fun p n hn => ?_, fun chan n hn => ?_,
    fun p chan _ => ⟨?_, fun n hn => ?_⟩⟩
  · obtain ⟨r, hr⟩ := h.idle p
    rw [hr] at hp
    exact hp.elim
  · rw [h.made] at hn
    cases hn
  · rw [h.answered] at hn
    cases hn
  · rw [h.began, h.wakeups]
  · rw [h.answered] at hn
    cases hn

/-- Whatever the processes do under the lock, and whatever lock it is: while a process is
`SLEEPING` on a channel, no `wakeup` on it has come since the process gave up the lock, and no
update later than its call of `sleep`, which it made with the lock held, has been followed by
the `wakeup` of its maker. -/
theorem no_lost_wakeup (cl : Client D L C) {s₀ s : State D L} {tr : List (State D L × Label C)} (h₀ : Fresh s₀)
    (hr : Run (Steps (step cl)) s₀ tr s) {p : Slot} {chan : Chan} (hp : Sleeps s.pt p chan) :
    s.began p = s.wakeups chan ∧ ∀ n ∈ s.answered chan, n ≤ s.seen p := by
  have hinv : Inv cl s := hr.invariant (C := fun _ _ => True) (fun s l s' hI _ hs => hI.move (step_move hs))
    (h₀.inv cl) fun _ _ => trivial
  exact ⟨(hinv.told p chan hp).began, (hinv.told p chan hp).seen⟩

/-! `acquiresleep` and `releasesleep` of `sleeplock.c`, whose channel is the sleep-lock. -/

structure Sleeplock where
  locked : Bool := false
  pid : ℤ := 0

inductive SleeplockCall
  | acquiresleep (pid : ℤ)
  | releasesleep

inductive SleeplockPoint
  | acquiresleep (pid : ℤ)
  | test (pid : ℤ)
  | releasesleep
  | clear
  | signal
  | leave
  | done

def sleeplock (chan : Chan) : Client Sleeplock SleeplockPoint SleeplockCall where
  lk := .own
  enter
    | .acquiresleep pid => .acquiresleep pid
    | .releasesleep => .releasesleep
  act
    | .acquiresleep pid, _, _ => .acquire (.test pid)
    | .test pid, d, _ => if d.locked then .sleep chan (.test pid) else .update ⟨true, pid⟩ .leave
    | .releasesleep, _, _ => .acquire .clear
    | .clear, _, _ => .update ⟨false, 0⟩ .signal
    | .signal, _, _ => .wakeup chan .leave
    | .leave, _, _ => .release .done
    | .done, _, _ => .ret 0

def twoRunning (d : D) : State D L where
  pt := ⟨fun q => if q = 0 then { state := .running, pid := 1 }
    else if q = 1 then { state := .running, pid := 2 } else {}, 3, some 0⟩
  holder _ := none
  data := d
  pc _ := .idle 0

theorem twoRunning_fresh (d : D) : Fresh (twoRunning d : State D L) := ⟨fun _ => ⟨0, rfl⟩, rfl, rfl, rfl, rfl⟩

/-- Process 0 takes the sleep-lock, process 1 goes to sleep on it, and process 0 has released
it but not yet called `wakeup`. -/
def contended : List (Label SleeplockCall) :=
  .start 0 (.acquiresleep 1) :: List.replicate 4 (.go 0) ++ .start 1 (.acquiresleep 2) :: List.replicate 6 (.go 1) ++
    .start 0 .releasesleep :: List.replicate 2 (.go 0)

def contendedEnd : State Sleeplock SleeplockPoint :=
  contended.foldl (after (step (sleeplock (.addr 0)))) (twoRunning {})

theorem no_lost_wakeup_contended :
    possible (step (sleeplock (.addr 0))) (twoRunning {}) contended = true ∧ Sleeps contendedEnd.pt 1 (.addr 0) ∧
      contendedEnd.began 1 = contendedEnd.wakeups (.addr 0) ∧
      ∀ n ∈ contendedEnd.answered (.addr 0), n ≤ contendedEnd.seen 1 := by
  have hpossible : possible (step (sleeplock (.addr 0))) (twoRunning {}) contended = true := by decide +kernel
  have hsleeps : Sleeps contendedEnd.pt 1 (.addr 0) := by decide +kernel
  have hrun : Run (Steps (step (sleeplock (.addr 0)))) (twoRunning {}) _ contendedEnd := run_trace hpossible
  exact ⟨hpossible, hsleeps, no_lost_wakeup _ (twoRunning_fresh {}) hrun hsleeps⟩

end Xv6.Monitor
