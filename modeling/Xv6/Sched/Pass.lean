import Xv6.Sched.Mlfq

/-! # One pass of the multilevel feedback queue

A pass moves the processes between the queues and then either switches to a process or
finds none and boosts. The first part is a table transformation, `queues`; `pass_cases`
says all that the second part can do.
-/
namespace Xv6.Sched.Mlfq
open Function PTable

def Boosts (ticks : Word) (flag : Bool) : Prop := ticks.toNat % 100 = 0 ∧ flag = true

instance (ticks : Word) (flag : Bool) : Decidable (Boosts ticks flag) :=
  inferInstanceAs (Decidable (_ ∧ _))

/-- The table after the periodic boost and the queue moves. -/
def queues (K : MlfqK) (ticks : Word) (flag : Bool) (t : PTable) : PTable :=
  let t := if Boosts ticks flag then boost t else t
  { t with proc := fun p => requeue K (t.proc p) }

/-- `flag` after the two tests of `ticks`. -/
def nextFlag (ticks ticks' : Word) (flag : Bool) : Bool :=
  if ticks'.toNat % 100 ≠ 0 then true else if Boosts ticks flag then false else flag

theorem pass_eq (K : MlfqK) (ticks ticks' : Word) (flag : Bool) (t : PTable) : pass K ticks ticks' flag t =
      select K (nextFlag ticks ticks' flag) (queues K ticks flag t) := by
  by_cases hb : Boosts ticks flag
  · have hb' : decide (ticks.toNat % 100 = 0 ∧ flag = true) = true := decide_eq_true hb
    simp only [pass, nextFlag, queues, hb', if_pos hb, if_true]
  · have hb' : decide (ticks.toNat % 100 = 0 ∧ flag = true) = false := decide_eq_false hb
    simp only [pass, nextFlag, queues, hb', if_neg hb, Bool.false_eq_true, if_false]

theorem foldl_level_attained (t : PTable) (ps : List Slot) (b : ℤ) :
    ps.foldl (fun l p => if Ready t p ∧ (t.proc p).level < l then (t.proc p).level else l) b = b ∨
      ∃ q, ReadyAt t
        (ps.foldl (fun l p => if Ready t p ∧ (t.proc p).level < l then (t.proc p).level else l) b) q := by
  induction ps generalizing b with
  | nil => exact .inl rfl
  | cons p ps ih =>
    rw [List.foldl_cons]
    by_cases hp : Ready t p ∧ (t.proc p).level < b
    · rw [if_pos hp]
      right
      rcases ih (t.proc p).level with h | h
      · exact ⟨p, hp.1, h.symm⟩
      · exact h
    · rw [if_neg hp]
      exact ih b

/-- No process is ready, so that the pass boosts and switches to none. -/
def Starved (K : MlfqK) (t : PTable) : Prop := nowLevel K t = K.val

instance (K : MlfqK) (t : PTable) : Decidable (Starved K t) :=
  inferInstanceAs (Decidable (_ = _))

theorem nowLevel_attained (K : MlfqK) (t : PTable) : Starved K t ∨ ∃ q, ReadyAt t (nowLevel K t) q :=
  foldl_level_attained t slots K.val

variable {K : MlfqK} {t : PTable} {q p : Slot} {ticks : Word} {flag : Bool}

theorem not_starved (hq : Ready t q) (hl : (t.proc q).level < K.val) : ¬ Starved K t := by
  intro hs
  have hle := nowLevel_le K t hq
  rw [Starved] at hs
  omega

theorem scan_cases (t : PTable) (f : Frame) (ps : List Slot) :
    (ps.find? (fun q => ReadyAt t f.now_level q) = none ∧ scan t f ps = .release f.flag t) ∨
    ∃ q, ps.find? (fun q => ReadyAt t f.now_level q) = some q ∧ ReadyAt t f.now_level q ∧
      scan t f ps = .swtch f (choose t f.now_level q) t := by
  induction ps with
  | nil => exact Or.inl ⟨rfl, rfl⟩
  | cons p ps ih =>
    by_cases hp : ReadyAt t f.now_level p
    · right
      refine ⟨p, by simp [hp], hp, ?_⟩
      rw [scan, if_pos hp]
    · rw [scan, if_neg hp, List.find?_cons_of_neg (by simpa using hp)]
      exact ih

theorem scan_swtch (h : scan t' f' ps = .swtch f p t) :
    f' = f ∧ ∃ r, ps.find? (fun r => ReadyAt t f.now_level r) = some r ∧ ReadyAt t f.now_level r ∧ p = choose t f.now_level r := by
  rcases scan_cases t' f' ps with ⟨-, hrel⟩ | ⟨r, hr, hready, hsw⟩
  · cases hrel.symm.trans h
  · cases hsw.symm.trans h
    exact ⟨rfl, r, hr, hready, rfl⟩

theorem pass_cases (K : MlfqK) (ticks ticks' : Word) (flag : Bool) (t : PTable) :
    (Starved K (queues K ticks flag t) ∧ pass K ticks ticks' flag t =
      .release (nextFlag ticks ticks' flag) (boost (queues K ticks flag t))) ∨
    (¬ Starved K (queues K ticks flag t) ∧
      ∃ f p, f.flag = nextFlag ticks ticks' flag ∧ ReadyAt (queues K ticks flag t) f.now_level p ∧
        pass K ticks ticks' flag t = .swtch f p (queues K ticks flag t)) := by
  rw [pass_eq, select]
  by_cases hs : nowLevel K (queues K ticks flag t) = K.val
  · left
    rw [if_pos hs]
    exact ⟨hs, rfl⟩
  · right
    rw [if_neg hs]
    refine ⟨hs, ?_⟩
    rcases nowLevel_attained K (queues K ticks flag t) with h | ⟨q, hq⟩
    · exact absurd h hs
    · rcases scan_cases (queues K ticks flag t)
        ⟨nowLevel K (queues K ticks flag t), nextFlag ticks ticks' flag⟩ slots with
        ⟨hnone, -⟩ | ⟨r, -, hr, hscan⟩
      · rw [List.find?_eq_none] at hnone
        exact absurd hq (by simpa using hnone q (mem_slots q))
      · exact ⟨_, _, rfl, best_ok slots hr, hscan⟩

theorem queues_state (K : MlfqK) (ticks : Word) (flag : Bool) (t : PTable) (p : Slot) :
    ((queues K ticks flag t).proc p).state = (t.proc p).state := by
  simp only [queues, boost, requeue]
  split_ifs <;> rfl

theorem requeue_fresh (K : MlfqK) (hl : pr.level = 0) (hh : pr.hold = 4) :
    (requeue K pr).level = 0 ∧ (requeue K pr).hold = 4 := by
  have hhold : ¬ (pr.level < K.val - 1 ∧ pr.hold ≤ 0) := by omega
  rw [requeue, if_neg hhold]
  split
  case isTrue => exact ⟨rfl, rfl⟩
  case isFalse => exact ⟨hl, hh⟩

theorem queues_boosted (hb : Boosts ticks flag) (t : PTable) (p : Slot) :
    ((queues K ticks flag t).proc p).level = 0 ∧ ((queues K ticks flag t).proc p).hold = 4 := by
  simp only [queues, if_pos hb]
  exact requeue_fresh K rfl rfl

theorem queues_unboosted (hb : ¬ Boosts ticks flag)
    (t : PTable) (p : Slot) : (queues K ticks flag t).proc p = requeue K (t.proc p) := by
  simp only [queues, if_neg hb]

theorem queues_fresh (K : MlfqK) (ticks : Word) (flag : Bool)
    (hl : (t.proc p).level = 0) (hh : (t.proc p).hold = 4) :
    ((queues K ticks flag t).proc p).level = 0 ∧ ((queues K ticks flag t).proc p).hold = 4 := by
  by_cases hb : Boosts ticks flag
  · exact queues_boosted hb t p
  · rw [queues_unboosted hb]
    exact requeue_fresh K hl hh

/-- What `swtch` stores. -/
def running (t : PTable) (p : Slot) : PTable := t.modify p (fun pr => { pr with state := .running })

theorem running_quota (t : PTable) (p q : Slot) : ((running t p).proc q).level = (t.proc q).level ∧
      ((running t p).proc q).hold = (t.proc q).hold := by
  simp only [running, modify_proc]
  split
  case isTrue h =>
    rw [h]
    exact ⟨rfl, rfl⟩
  case isFalse => exact ⟨rfl, rfl⟩

section Inversion
variable {K : MlfqK} {ι : Type} [DecidableEq ι] {m m' : Machine (policy K) ι} {i : ι}

/-- All that a pass can do: boost because no process is ready, or switch. -/
theorem step_pass_cases (h : m.step (.pass i n) = some m') :
    ∃ flag : Bool, m.cpu i = .scheduler flag ∧ m'.ticks = m.ticks + BitVec.ofNat 32 n ∧
      ((Starved K (queues K m.ticks flag m.table) ∧ m'.table = boost (queues K m.ticks flag m.table) ∧
        m'.cpu = update m.cpu i (.scheduler (nextFlag m.ticks (m.ticks + BitVec.ofNat 32 n) flag))) ∨
      (¬ Starved K (queues K m.ticks flag m.table) ∧
        ∃ f p, f.flag = nextFlag m.ticks (m.ticks + BitVec.ofNat 32 n) flag ∧
          ReadyAt (queues K m.ticks flag m.table) f.now_level p ∧
          m.outcome (.pass i n) = some (.swtch f p (queues K m.ticks flag m.table)) ∧
          m'.table = running (queues K m.ticks flag m.table) p ∧
          m'.cpu = update m.cpu i (.process p f))) := by
  obtain ⟨flag, hcpu, rfl⟩ := Machine.step_pass_eq_some h
  have hout := Machine.outcome_pass hcpu n
  refine ⟨flag, hcpu, rfl, ?_⟩
  rcases pass_cases K m.ticks (m.ticks + BitVec.ofNat 32 n) flag m.table with
    ⟨hs, hp⟩ | ⟨hs, f, p, hf, hready, hp⟩
  · replace hp : (policy K).pass _ _ _ _ = _ := hp
    rw [hp]
    exact .inl ⟨hs, rfl, rfl⟩
  · replace hp : (policy K).pass _ _ _ _ = _ := hp
    rw [hp] at hout ⊢
    exact Or.inr ⟨hs, f, p, hf, hready, hout, rfl, rfl⟩

/-- The table that the scheduler finds when `p` has left the processor. -/
def left (how : Leave) (p : Slot) (t : PTable) : PTable := charge (how.run p t) p

theorem step_leave_cases {how : Leave} (h : m.step (.leave i how) = some m') :
    ∃ p, ∃ f : Frame, m.cpu i = .process p f ∧ m'.ticks = m.ticks ∧
      (((slots.filter (p < ·)).find? (fun q => ReadyAt (left how p m.table) f.now_level q) = none ∧
        m'.table = left how p m.table ∧ m'.cpu = update m.cpu i (.scheduler f.flag)) ∨
      ∃ q, (slots.filter (p < ·)).find? (fun q => ReadyAt (left how p m.table) f.now_level q) =
          some q ∧ ReadyAt (left how p m.table) f.now_level q ∧ m.outcome (.leave i how) =
          some (.swtch f (choose (left how p m.table) f.now_level q) (left how p m.table)) ∧
        m'.table = running (left how p m.table) (choose (left how p m.table) f.now_level q) ∧ m'.cpu =
          update m.cpu i (.process (choose (left how p m.table) f.now_level q) f)) := by
  obtain ⟨p, f, hcpu, rfl⟩ := Machine.step_leave_eq_some h
  have hout := Machine.outcome_leave hcpu how
  refine ⟨p, f, hcpu, ?_⟩
  rcases scan_cases (left how p m.table) f (slots.filter (p < ·)) with
    ⟨hnone, hp⟩ | ⟨q, hq, hready, hp⟩
  · replace hp : (policy K).resume _ _ _ = _ := hp
    rw [hp]
    exact ⟨rfl, .inl ⟨hnone, rfl, rfl⟩⟩
  · replace hp : (policy K).resume _ _ _ = _ := hp
    rw [hp] at hout ⊢
    exact ⟨rfl, .inr ⟨q, hq, hready, hout, rfl, rfl⟩⟩

end Inversion

section OneProcessor
variable {K : MlfqK}

/-- The processor is in the scheduler and `q` waits in level 0 with a full quantum. -/
def Fresh (q : Slot) (m : Machine (policy K) Unit) : Prop :=
  (∃ flag : Bool, m.cpu () = .scheduler flag) ∧ (m.table.proc q).state = .runnable ∧
    (m.table.proc q).level = 0 ∧ (m.table.proc q).hold = 4

/-- Between two passes only interrupt handlers run: the clock and `wakeup`. -/
theorem Fresh.step (hf : Fresh q m) (hl : ∀ n, l ≠ .pass () n) (h : m.step l = some m') : Fresh q m' := by
  obtain ⟨⟨flag, hcpu⟩, hrun, hlevel, hhold⟩ := hf
  cases l with
  | tick =>
    cases h
    exact ⟨⟨flag, hcpu⟩, hrun, hlevel, hhold⟩
  | wakeup chan =>
    cases h
    have hq : (m.table.wakeup1 chan).proc q = m.table.proc q :=
      if_neg fun hs => by
        rw [hrun] at hs
        cases hs.1
    refine ⟨⟨flag, hcpu⟩, ?_⟩
    rw [hq]
    exact ⟨hrun, hlevel, hhold⟩
  | «section» i a => simp only [Machine.step, hcpu, reduceCtorEq] at h
  | pass i n => exact absurd rfl (hl n)
  | leave => simp only [Machine.step, Machine.outcome, hcpu, Option.map_none, reduceCtorEq] at h

theorem Fresh.dispatches {m : Machine (policy K) Unit} (hf : Fresh q m) (n : ℕ) :
    ∃ p t, m.Dispatches (.pass () n) p t := by
  obtain ⟨⟨flag, hcpu⟩, hrun, hlevel, hhold⟩ := hf
  obtain ⟨hlevel', hhold'⟩ := queues_fresh K m.ticks flag hlevel hhold
  have hready : Ready (queues K m.ticks flag m.table) q := by
    rw [Ready, queues_state, hhold']
    exact ⟨hrun, by decide⟩
  have hstarved : ¬ Starved K (queues K m.ticks flag m.table) :=
    not_starved hready (by rw [hlevel']; have := K.property; omega)
  rcases pass_cases K m.ticks (m.ticks + BitVec.ofNat 32 n) flag m.table with
    ⟨hs, -⟩ | ⟨-, f, p, -, -, hpass⟩
  · exact absurd hs hstarved
  · exact ⟨p, queues K m.ticks flag m.table, f,
      (Machine.outcome_pass hcpu n).trans (congrArg some hpass)⟩

/-- A pass that begins while some process is `RUNNABLE` switches to a process, or the next
pass does, whatever interrupts come in between. -/
theorem dispatches_within_two_passes {m m₁ m' : Machine (policy K) Unit} {n : ℕ} {q : Slot}
    {tr : List (Machine (policy K) Unit × Label Unit)}
    (hq : (m.table.proc q).state = .runnable) (hpass : Steps Machine.step m (.pass () n) m₁)
    (hr : Run (Steps Machine.step) m₁ tr m') (htr : Meets (fun _ l => ∀ n, l ≠ .pass () n) tr) :
    (∃ p t, m.Dispatches (.pass () n) p t) ∨ ∀ n', ∃ p t, m'.Dispatches (.pass () n') p t := by
  obtain ⟨flag, hcpu, -, ⟨-, htable, hcpu'⟩ | ⟨-, f, p, -, -, hout, -, -⟩⟩ := step_pass_cases hpass
  · right
    have hfresh : Fresh q m₁ := by
      refine ⟨⟨_, by rw [hcpu', update_self]⟩, ?_⟩
      rw [htable]
      exact ⟨(queues_state K m.ticks flag m.table q).trans hq, rfl, rfl⟩
    have hfresh' : Fresh q m' :=
      hr.invariant (fun s l s' hs hl hstep => hs.step hl hstep) hfresh htr
    exact fun n' => hfresh'.dispatches n'
  · left
    exact ⟨p, _, f, hout⟩

/-- A process that has used up its quantum in the last of two levels. -/
def exhausted : Machine (policy ⟨2, two_levels⟩) Unit where
  table := ⟨fun p => if p = 0 then { pid := 1, state := .runnable, level := 1, hold := 0 } else {},
    2, some 0⟩
  ticks := 1
  cpu := fun _ => .scheduler true

/-- It is boosted by the first pass and gets its turn in the second one, after a tick. -/
theorem exhausted_dispatched :
    (exhausted.table.proc 0).state = .runnable ∧
    ((∃ p t, exhausted.Dispatches (.pass () 0) p t) ∨
      ∀ n', ∃ p t, (after Machine.step (after Machine.step exhausted (.pass () 0)) .tick).Dispatches
        (.pass () n') p t) := by
  refine ⟨rfl, dispatches_within_two_passes (q := 0) rfl (steps_after rfl)
    (Run.snoc Run.start (steps_after rfl)) ?_⟩
  rintro e (_ | ⟨_, he⟩)
  · intro n hn
    cases hn
  · cases he

end OneProcessor
end Xv6.Sched.Mlfq
