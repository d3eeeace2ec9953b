import Mathlib.Data.List.Chain
import Xv6.Sched.Order

/-! # Round robin among even processes

The even loop visits the slots in table order and, by the jump back to its label, begins
again as long as some even process is `RUNNABLE`. Of two even processes that are always
ready, the one that did not have the last turn is therefore met first.
-/
namespace Xv6.Sched.Mlq
open PTable Machine List

/-- From slot `p` on, and around the end of the table, `y` is met before `x`. -/
def Next (p x y : Slot) : Prop := (p < y ∧ (x ≤ p ∨ y < x)) ∨ (y < x ∧ x ≤ p)

variable {x y c p : Slot} {t t' : PTable} {f : Queue}

theorem next_self (h : x ≠ y) : Next x x y := by
  rcases lt_or_gt_of_ne h with hlt | hgt
  · exact .inl ⟨hlt, .inl le_rfl⟩
  · exact .inr ⟨hgt, le_rfl⟩

theorem existRunnable_even (hex : ∃ p, EvenRunnable t p) (h : existRunnable t ps = .swtch f c t') :
    t' = t ∧ f = .even ∧ (ps.find? (fun p => EvenRunnable t p) = some c ∨
      (ps.find? (fun p => EvenRunnable t p) = none ∧ slots.find? (fun p => EvenRunnable t p) = some c)) := by
  fun_induction existRunnable t ps with
  | case1 ps r hr =>
    cases h
    exact ⟨rfl, rfl, .inl hr⟩
  | case2 ps hnone _ ih =>
    obtain ⟨rfl, rfl, hc | ⟨hc, -⟩⟩ := ih h
    · exact ⟨rfl, rfl, .inr ⟨hnone, hc⟩⟩
    · have hsome := find_even_slots hex
      rw [hc] at hsome
      cases hsome
  | case3 ps _ hno _ _ | case4 ps _ hno _ _ | case5 ps _ hno _ => exact absurd hex hno

/-- While some even process is `RUNNABLE` the even loop always switches. -/
theorem existRunnable_switches (ps : List Slot) (hex : ∃ p, EvenRunnable t p) :
    ∃ c, existRunnable t ps = .swtch .even c t := by
  fun_induction existRunnable t ps with
  | case1 ps r hr => exact ⟨r, rfl⟩
  | case2 ps hnone _ ih => exact ih
  | case3 ps _ hno _ _ | case4 ps _ hno _ _ | case5 ps _ hno _ => exact absurd hex hno

theorem next_kept (hx : EvenRunnable t x) (hy : EvenRunnable t y) (hnext : Next p x y)
    (h : existRunnable t (slots.filter (p < ·)) = .swtch f c t') : c = y ∨ (c ≠ x ∧ c ≠ y ∧ Next c x y) := by
  obtain ⟨-, -, hc⟩ := existRunnable_even ⟨x, hx⟩ h
  have hafter : ∀ r : Slot, p < r → r ∈ slots.filter (p < ·) := fun r hr =>
    mem_filter.mpr ⟨mem_finRange r, by simpa using hr⟩
  rcases hc with hc | ⟨hnone, hc⟩
  · have hpc : p < c := by simpa using (mem_filter.mp (mem_of_find?_eq_some hc)).2
    have hfirst : ∀ r, p < r → EvenRunnable t r → c ≤ r := by
      intro r hr heven
      by_contra hlt
      have := not_of_find?_sorted (slots_sorted.sublist filter_sublist) hc (hafter r hr) (not_le.mp hlt)
      simp [heven] at this
    rcases hnext with ⟨hpy, hout⟩ | ⟨hyx, hxp⟩
    · rcases (hfirst y hpy hy).eq_or_lt with heq | hlt
      · exact .inl heq
      · right
        have hcx : c ≠ x := by
          rintro rfl
          rcases hout with hle | hgt
          · exact absurd hpc hle.not_gt
          · exact absurd hlt hgt.not_gt
        refine ⟨hcx, hlt.ne, .inl ⟨hlt, hout.imp (fun hle => hle.trans hpc.le) id⟩⟩
    · right
      have hxc : x < c := hxp.trans_lt hpc
      exact ⟨hxc.ne', (hyx.trans hxc).ne', .inr ⟨hyx, hxc.le⟩⟩
  · -- no even process after `p`: the loop begins again at the first slot
    have hbefore : ∀ r, EvenRunnable t r → r ≤ p := by
      intro r heven
      by_contra hlt
      have := find?_eq_none.mp hnone r (hafter r (not_le.mp hlt))
      simp [heven] at this
    have hfirst : ∀ r, EvenRunnable t r → c ≤ r := by
      intro r heven
      by_contra hlt
      have := not_of_find?_sorted slots_sorted hc (mem_finRange r) (not_le.mp hlt)
      simp [heven] at this
    have hyx : y < x := by
      rcases hnext with ⟨hpy, -⟩ | ⟨hyx, -⟩
      · exact absurd hpy (hbefore y hy).not_gt
      · exact hyx
    rcases (hfirst y hy).eq_or_lt with heq | hlt
    · exact .inl heq
    · exact .inr ⟨(hlt.trans hyx).ne, hlt.ne, .inl ⟨hlt, .inr hyx⟩⟩

def seen (m : Machine policy Unit) : Label Unit → Option PTable
  | .pass _ _ => some m.table
  | .leave _ how =>
    match m.cpu () with
    | .process p _ => some (how.run p m.table)
    | .scheduler _ => none
  | _ => none

/-- Both processes have even pids and are `RUNNABLE` whenever the scheduler runs. -/
def BothReady (a b : Slot) (m : Machine policy Unit) (l : Label Unit) : Prop :=
  ∀ t, seen m l = some t → EvenRunnable t a ∧ EvenRunnable t b

def turnsOf (a b : Slot) (tr : History policy) : List Slot :=
  (tr.filterMap fun e => e.1.dispatched e.2).filter fun p => p = a ∨ p = b

theorem turnsOf_snoc (a b : Slot) (tr : History policy) (m : Machine policy Unit) (l : Label Unit) :
    turnsOf a b (tr ++ [(m, l)]) =
      turnsOf a b tr ++ (m.dispatched l).toList.filter fun p => p = a ∨ p = b := by
  rw [turnsOf, filterMap_append, filter_append]
  cases hd : m.dispatched l <;> simp [turnsOf, hd]

/-- The turns so far alternate, and the other process is met next. -/
structure Alternating (a b : Slot) (tr : History policy) (m : Machine policy Unit) : Prop where
  chain : (turnsOf a b tr).IsChain (· ≠ ·)
  next : ∀ x, (turnsOf a b tr).getLast? = some x → ∃ p y, m.cpu () = .process p .even ∧
    (x = a ∧ y = b ∨ x = b ∧ y = a) ∧ Next p x y

namespace Alternating
variable {a b : Slot} {tr : History policy} {m m' : Machine policy Unit} {l : Label Unit}

/-- A step without a turn of the two. -/
theorem other (h : Alternating a b tr m) (hd : ∀ c, m.dispatched l = some c → c ≠ a ∧ c ≠ b)
    (hcpu : ∀ p x y, m.cpu () = .process p .even → Next p x y →
      (x = a ∧ y = b ∨ x = b ∧ y = a) → ∃ q, m'.cpu () = .process q .even ∧ Next q x y) :
    Alternating a b (tr ++ [(m, l)]) m' := by
  have hsame : turnsOf a b (tr ++ [(m, l)]) = turnsOf a b tr := by
    rw [turnsOf_snoc]
    cases hc : m.dispatched l with
    | none => simp
    | some c => simp [hd c hc]
  constructor
  · rw [hsame]
    exact h.chain
  · intro x hx
    rw [hsame] at hx
    obtain ⟨p, y, hp, hxy, hnext⟩ := h.next x hx
    obtain ⟨q, hq, hnext⟩ := hcpu p x y hp hnext hxy
    exact ⟨q, y, hq, hxy, hnext⟩

theorem turn (hab : a ≠ b) (h : Alternating a b tr m) (hd : m.dispatched l = some c)
    (hc : c = a ∨ c = b) (hlast : (turnsOf a b tr).getLast? ≠ some c)
    (hcpu : m'.cpu () = .process c .even) : Alternating a b (tr ++ [(m, l)]) m' := by
  have hsnoc : turnsOf a b (tr ++ [(m, l)]) = turnsOf a b tr ++ [c] := by
    rw [turnsOf_snoc, hd]
    simp [hc]
  constructor
  · rw [hsnoc, isChain_append]
    refine ⟨h.chain, isChain_singleton c, ?_⟩
    intro x hx y hy
    cases hy
    rintro rfl
    exact hlast hx
  · intro x hx
    rw [hsnoc, getLast?_concat] at hx
    cases hx
    rcases hc with rfl | rfl
    · exact ⟨c, b, hcpu, .inl ⟨rfl, rfl⟩, next_self hab⟩
    · exact ⟨c, a, hcpu, .inr ⟨rfl, rfl⟩, next_self hab.symm⟩

/-- A switch by the even loop while the last turn, if any, was made elsewhere. -/
theorem switched (hab : a ≠ b) (h : Alternating a b tr m)
    (hd : m.dispatched l = some c) (hcpu' : m'.cpu () = .process c .even)
    (hkept : ∀ p x y, m.cpu () = .process p .even → (x = a ∧ y = b ∨ x = b ∧ y = a) → Next p x y →
      c = y ∨ (c ≠ x ∧ c ≠ y ∧ Next c x y)) : Alternating a b (tr ++ [(m, l)]) m' := by
  by_cases hc : c = a ∨ c = b
  · refine h.turn hab hd hc ?_ hcpu'
    intro hlast
    obtain ⟨p, y, hp, hxy, hnext⟩ := h.next c hlast
    rcases hkept p c y hp hxy hnext with rfl | ⟨hne, -⟩
    · rcases hxy with ⟨rfl, rfl⟩ | ⟨rfl, rfl⟩ <;> exact hab rfl
    · exact hne rfl
  · refine h.other ?_ ?_
    · intro c' hc'
      cases hd.symm.trans hc'
      exact not_or.mp hc
    · intro p x y hp hnext hxy
      rcases hkept p x y hp hxy hnext with rfl | ⟨-, -, hnext⟩
      · rcases hxy with ⟨-, rfl⟩ | ⟨-, rfl⟩
        · exact absurd (.inr rfl) hc
        · exact absurd (.inl rfl) hc
      · exact ⟨c, hcpu', hnext⟩

theorem step (hab : a ≠ b) (h : Alternating a b tr m) (hb : BothReady a b m l)
    (hs : m.step l = some m') : Alternating a b (tr ++ [(m, l)]) m' := by
  cases l with
  | tick | wakeup chan =>
    cases hs
    exact h.other (fun c hc => by cases hc) fun p x y hp hnext _ => ⟨p, hp, hnext⟩
  | «section» i s =>
    obtain ⟨p, f, t, -, -, rfl⟩ := step_section_eq_some hs
    exact h.other (fun c hc => by cases hc) fun p x y hp hnext _ => ⟨p, hp, hnext⟩
  | pass i n =>
    obtain ⟨u, hcpu, rfl⟩ := step_pass_eq_some hs
    obtain ⟨ha, -⟩ := hb m.table rfl
    obtain ⟨c, hc⟩ := existRunnable_switches slots ⟨a, ha⟩
    have hout := outcome_pass hcpu n
    replace hc : policy.pass m.ticks (m.ticks + BitVec.ofNat 32 n) u m.table = _ := hc
    rw [hc] at hout ⊢
    refine h.switched hab (dispatched_of_outcome hout) rfl ?_
    intro p x y hp
    rw [hcpu] at hp
    cases hp
  | leave i how =>
    obtain ⟨p, f, hcpu, rfl⟩ := step_leave_eq_some hs
    have hseen : seen m (.leave i how) = some (how.run p m.table) := by rw [seen, hcpu]
    obtain ⟨hae, hbe⟩ := hb _ hseen
    have hout := outcome_leave hcpu how
    cases f with
    | even =>
      obtain ⟨c, hc⟩ := existRunnable_switches (slots.filter (p < ·)) ⟨a, hae⟩
      have hres : policy.resume .even p (how.run p m.table) = _ := hc
      rw [hres] at hout ⊢
      refine h.switched hab (dispatched_of_outcome hout) rfl ?_
      intro p' x y hp hxy hnext
      rw [hcpu] at hp
      cases hp
      rcases hxy with ⟨rfl, rfl⟩ | ⟨rfl, rfl⟩
      · exact next_kept hae hbe hnext hc
      · exact next_kept hbe hae hnext hc
    | odd =>
      have hodd : ∀ p' x y, m.cpu () = .process p' .even → (x = a ∧ y = b ∨ x = b ∧ y = a) →
          Next p' x y → False := by
        intro p' x y hp
        rw [hcpu] at hp
        cases hp
      rcases oddLoop_cases (how.run p m.table) (slots.filter (p < ·)) with
        ⟨-, hloop⟩ | ⟨r, -, ⟨-, hloop⟩ | ⟨-, q, hq, hloop⟩⟩
      · have hres : resume .odd p (how.run p m.table) = .release () (how.run p m.table) := by
          simp only [resume, hloop]
        replace hres : policy.resume .odd p (how.run p m.table) = _ := hres
        rw [hres] at hout ⊢
        refine h.other ?_ fun p' x y hp hnext hxy => (hodd p' x y hp hxy hnext).elim
        intro c hc
        rw [dispatched, hout] at hc
        cases hc
      · obtain ⟨c, hc⟩ := existRunnable_switches slots ⟨a, hae⟩
        have hres : resume .odd p (how.run p m.table) = .swtch .even c (how.run p m.table) := by
          simp only [resume, hloop, hc]
        replace hres : policy.resume .odd p (how.run p m.table) = _ := hres
        rw [hres] at hout ⊢
        exact h.switched hab (dispatched_of_outcome hout) rfl fun p' x y hp hxy hnext =>
          (hodd p' x y hp hxy hnext).elim
      · have hres : resume .odd p (how.run p m.table) = .swtch .odd q (how.run p m.table) := by
          simp only [resume, hloop]
        replace hres : policy.resume .odd p (how.run p m.table) = _ := hres
        rw [hres] at hout ⊢
        refine h.other ?_ fun p' x y hp hnext hxy => (hodd p' x y hp hxy hnext).elim
        intro c hc
        cases (dispatched_of_outcome hout).symm.trans hc
        constructor
        · rintro rfl
          exact hq.2 hae.2
        · rintro rfl
          exact hq.2 hbe.2

end Alternating

/-- On one processor, two even processes that are `RUNNABLE` whenever the scheduler runs take
turns: between two turns of one there is a turn of the other. -/
theorem even_turns_alternate {a b : Slot} (hab : a ≠ b) {m₀ m : Machine policy Unit}
    {tr : History policy} (hr : Run (Steps Machine.step) m₀ tr m) (hb : Meets (BothReady a b) tr) :
    (turnsOf a b tr).IsChain (· ≠ ·) := by
  have h : Alternating a b tr m := by
    induction hr with
    | start => exact ⟨isChain_nil, fun x hx => by cases hx⟩
    | snoc _ hs ih =>
      obtain ⟨hpre, hl⟩ := meets_snoc.mp hb
      exact (ih hpre).step hab hl hs
  exact h.chain

theorem step_even {m : Machine policy Unit} (hcpu : m.cpu () = .process p .even)
    (hp : EvenRunnable (m.table.yield p) p)
    (hc : ((slots.filter (p < ·)).find? (fun q => EvenRunnable (m.table.yield p) q)).or
      (slots.find? fun q => EvenRunnable (m.table.yield p) q) = some c) :
    m.dispatched (.leave () .yield) = some c ∧
      m.step (.leave () .yield) = some (m.enter () (.swtch .even c (m.table.yield p))) := by
  obtain ⟨c', hswitch⟩ := existRunnable_switches (slots.filter (p < ·)) ⟨p, hp⟩
  have hcc : c' = c := by
    obtain ⟨-, -, h | ⟨hnone, h⟩⟩ := existRunnable_even ⟨p, hp⟩ hswitch
    · rw [h] at hc
      exact Option.some.inj hc
    · rw [hnone, h] at hc
      exact Option.some.inj hc
  subst hcc
  have hout := (outcome_leave hcpu .yield).trans (congrArg some hswitch)
  exact ⟨dispatched_of_outcome hout, by rw [step, hout]; rfl⟩

/-- Two even processes; the first one has the processor. -/
def evens : Machine policy Unit where
  table := ⟨fun p => if p = 0 then { pid := 2, state := .running }
    else if p = 1 then { pid := 4, state := .runnable } else {}, 5, none⟩
  ticks := 1
  cpu := fun _ => .process 0 .even

def evensSwitched : Machine policy Unit := evens.enter () (.swtch .even 1 (evens.table.yield 0))

/-- Both yield once; the second turn goes around the end of the table. -/
theorem evens_alternate :
    ∃ tr m, Run (Steps Machine.step) evens tr m ∧ Meets (BothReady 0 1) tr ∧
      turnsOf 0 1 tr = [1, 0] ∧ (turnsOf 0 1 tr).IsChain (· ≠ ·) := by
  obtain ⟨hd, hs⟩ := step_even (m := evens) (p := 0) (c := 1) rfl (by decide +kernel) (by decide +kernel)
  obtain ⟨hd', hs'⟩ := step_even (m := evensSwitched) (p := 1) (c := 0) rfl (by decide +kernel)
    (by decide +kernel)
  have hr : Run (Steps step) evens
      [(evens, .leave () .yield), (evensSwitched, .leave () .yield)] _ :=
    Run.snoc (Run.snoc Run.start hs) hs'
  have hb : Meets (BothReady 0 1) [(evens, .leave () .yield), (evensSwitched, .leave () .yield)] := by
    simp only [Meets, forall_mem_cons, not_mem_nil, false_implies, implies_true, and_true]
    refine ⟨fun t ht => ?_, fun t ht => ?_⟩
    · cases ht
      decide +kernel
    · cases ht
      decide +kernel
  refine ⟨_, _, hr, hb, ?_, even_turns_alternate (by decide) hr hb⟩
  simp [turnsOf, hd, hd']

end Xv6.Sched.Mlq
