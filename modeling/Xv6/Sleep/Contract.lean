import Xv6.Sleep.Wakeup

/-! # Contracts for sleeping and waking

What a channel stands for is a condition under which its sleepers are right to sleep. A
contract says where the code has the lock, what it knows there, and which channels it still
has to wake. If each action keeps to the contract then, whenever the lock is free, all
sleepers are right to sleep.
-/
namespace Xv6.Monitor
open Function

variable {D L C : Type}

structure Contract (D L : Type) where
  /-- The processes that sleep on the channel are right to do so. -/
  calm : Chan → D → Prop
  locked : L → Bool
  knows : L → D → Prop
  owes : L → Chan → Prop

/-- The process is bound to sleep on the channel until it is woken. -/
def Dormant (t : PTable) (p : Slot) (chan : Chan) : Pc L → Prop
  | .fall c _ | .sched c _ => c = chan
  | .asleep c _ => c = chan ∧ Sleeps t p chan
  | _ => False

instance (t : PTable) (p : Slot) (chan : Chan) : (c : Pc L) → Decidable (Dormant t p chan c)
  | .fall c _ | .sched c _ => inferInstanceAs (Decidable (c = chan))
  | .asleep c _ => inferInstanceAs (Decidable (c = chan ∧ Sleeps t p chan))
  | .idle _ | .run _ | .lockTable _ _ | .giveUp _ _ | .tidy _ | .unlock _ | .relock _ | .wake _ _ | .waking _ _
  | .woken _ => inferInstanceAs (Decidable False)

def Quiet (s : State D L) (chan : Chan) : Prop := ∀ p, ¬ Dormant s.pt p chan (s.pc p)

instance (s : State D L) (chan : Chan) : Decidable (Quiet s chan) := inferInstanceAs (Decidable (∀ p, ¬ _))

theorem Dormant.congr (h : Dormant t q chan c)
    (hsleeps : Sleeps t q chan → Sleeps t' q chan) : Dormant t' q chan c := by
  cases c with
  | asleep => exact ⟨h.1, hsleeps h.2⟩
  | _ => exact h

namespace Contract
variable (K : Contract D L)

/-- An action that keeps to the contract; the lock is not given back while a channel is owed
its wakeup, unless nobody is bound to sleep on it. -/
def Kept (quiet : Chan → Prop) (l : L) (d : D) : Act D L → Prop
  | .acquire l' => K.locked l = false ∧ K.locked l' = true ∧ ∀ d, K.knows l' d
  | .release l' => K.locked l = true ∧ K.locked l' = false ∧ ∀ c, K.owes l c → quiet c
  | .update d' l' => K.locked l = true ∧ K.locked l' = true ∧ K.knows l' d' ∧
      ∀ c, K.calm c d ∨ K.owes l c → K.calm c d' ∨ K.owes l' c
  | .sleep c l' => K.locked l = true ∧ K.locked l' = true ∧ K.calm c d ∧ (∀ c', ¬ K.owes l c') ∧ ∀ d, K.knows l' d
  | .wakeup c l' => K.locked l' = K.locked l ∧ (K.locked l = true → K.knows l' d) ∧
      ∀ c', K.owes l c' → c' = c ∨ K.owes l' c'
  | .wakeup1 _ _ => False
  | .ret _ => K.locked l = false

def Locked : Pc L → Prop
  | .run l | .wake _ l | .waking _ l | .woken l => K.locked l = true
  | .lockTable _ _ | .giveUp _ _ => True
  | _ => False

def Knows (d : D) : Pc L → Prop
  | .idle _ => True
  | .run l | .wake _ l | .waking _ l | .woken l => K.locked l = true → K.knows l d
  | .lockTable c l | .giveUp c l => K.calm c d ∧ K.locked l = true ∧ ∀ d, K.knows l d
  | .fall _ l | .sched _ l | .asleep _ l | .tidy l | .unlock l | .relock l => K.locked l = true ∧ ∀ d, K.knows l d

def Owes (c : Chan) : Pc L → Prop
  | .run l | .woken l => K.locked l = true ∧ K.owes l c
  | .wake c' l | .waking c' l => K.locked l = true ∧ (c = c' ∨ K.owes l c)
  | _ => False

structure Inv (cl : Client D L C) (s : State D L) : Prop where
  base : Monitor.Inv cl s
  lock : ∀ p, s.holder cl.lk = some p ↔ K.Locked (s.pc p)
  knows : ∀ p, K.Knows s.data (s.pc p)
  calm : ∀ p c, Dormant s.pt p c (s.pc p) → K.calm c s.data ∨ ∃ q, K.Owes c (s.pc q)
  sleeper : ∀ p c, Sleeps s.pt p c → Dormant s.pt p c (s.pc p) ∨ ∀ d, K.calm c d

variable {K} {cl : Client D L C} {s s' : State D L} {p q : Slot} {c : Pc L} {chan : Chan}

theorem Owes.locked (h : K.Owes chan c) : K.Locked c := by
  cases c with
  | run | woken | wake | waking => exact h.1
  | _ => exact h.elim

/-- What a process knows without the lock does not depend on the data. -/
theorem Knows.of_unlocked (h : K.Knows d c) (hc : ¬ K.Locked c) : K.Knows d' c := by
  cases c with
  | idle => trivial
  | run | wake | waking | woken => exact fun hl => (hc hl).elim
  | lockTable | giveUp => exact (hc trivial).elim
  | _ => exact h

/-- While the lock is free, every sleeper is right to sleep. -/
theorem Inv.calm_of_free (h : K.Inv cl s) (hfree : s.holder cl.lk = none)
    (hp : Sleeps s.pt p chan) : K.calm chan s.data := by
  rcases h.sleeper p chan hp with hdormant | hcalm
  · rcases h.calm p chan hdormant with hcalm | ⟨q, hq⟩
    · exact hcalm
    · have hheld := (h.lock q).mpr hq.locked
      rw [hfree] at hheld
      cases hheld
  · exact hcalm s.data

/-- A step of `p`, as the others see it: `p` goes to `c`, and nobody else falls asleep. -/
structure Others (s s' : State D L) (p : Slot) (c : Pc L) : Prop where
  self : s'.pc p = c
  pc : ∀ q, q ≠ p → s'.pc q = s.pc q
  sleeps : ∀ q chan, q ≠ p → Sleeps s'.pt q chan → Sleeps s.pt q chan

theorem Others.dormant (h : Others s s' p c) (hq : q ≠ p) (hd : Dormant s'.pt q chan (s'.pc q)) :
    Dormant s.pt q chan (s.pc q) := by
  rw [h.pc q hq] at hd
  exact hd.congr (h.sleeps q chan hq)

theorem Others.sleeper (h : Others s s' p c) (hinv : K.Inv cl s) (hq : q ≠ p)
    (hs : Sleeps s'.pt q chan) : Dormant s'.pt q chan (s'.pc q) ∨ ∀ d, K.calm chan d := by
  rw [h.pc q hq]
  exact (hinv.sleeper q chan (h.sleeps q chan hq hs)).imp_left fun hd => hd.congr fun _ => hs

theorem Inv.step (h : K.Inv cl s) (hbase : Monitor.Inv cl s') (hothers : Others s s' p c) (hdata : s'.data = s.data)
    (hlock : ∀ q, s'.holder cl.lk = some q ↔ K.Locked (s'.pc q)) (hknows : K.Knows s.data c)
    (hsleeper : ∀ chan, Sleeps s'.pt p chan → Dormant s'.pt p chan c ∨ ∀ d, K.calm chan d)
    (hdormant : ∀ chan, Dormant s'.pt p chan c → Dormant s.pt p chan (s.pc p) ∨ K.calm chan s.data)
    (howes : ∀ chan, K.Owes chan (s.pc p) → K.Owes chan c ∨ Quiet s' chan) : K.Inv cl s' := by
  refine ⟨hbase, hlock, fun q => ?_, fun q chan hq => ?_, fun q chan hq => ?_⟩
  · rw [hdata]
    by_cases hqp : q = p
    · rw [hqp, hothers.self]
      exact hknows
    · rw [hothers.pc q hqp]
      exact h.knows q
  · rw [hdata]
    have hold : Dormant s.pt q chan (s.pc q) ∨ K.calm chan s.data := by
      by_cases hqp : q = p
      · subst hqp
        rw [hothers.self] at hq
        exact hdormant chan hq
      · exact .inl (hothers.dormant hqp hq)
    rcases hold with hold | hcalm
    · rcases h.calm q chan hold with hcalm | ⟨r, hr⟩
      · exact .inl hcalm
      · by_cases hrp : r = p
        · subst hrp
          rcases howes chan hr with hnew | hquiet
          · exact .inr ⟨r, hothers.self ▸ hnew⟩
          · exact (hquiet q hq).elim
        · refine .inr ⟨r, ?_⟩
          rw [hothers.pc r hrp]
          exact hr
    · exact .inl hcalm
  · by_cases hqp : q = p
    · subst hqp
      rw [hothers.self]
      exact hsleeper chan hq
    · exact hothers.sleeper h hqp hq

section Locks
variable (h : K.Inv cl s) (hothers : Others s s' p c)
include h hothers

theorem Inv.lock_same (hholder : s'.holder cl.lk = s.holder cl.lk) (hlocked : K.Locked c ↔ K.Locked (s.pc p))
    (q : Slot) : s'.holder cl.lk = some q ↔ K.Locked (s'.pc q) := by
  rw [hholder, h.lock q]
  by_cases hqp : q = p
  · rw [hqp, hothers.self, hlocked]
  · rw [hothers.pc q hqp]

theorem Inv.lock_acquire (hfree : s.holder cl.lk = none) (hholder : s'.holder cl.lk = some p)
    (hlocked : K.Locked c) (q : Slot) : s'.holder cl.lk = some q ↔ K.Locked (s'.pc q) := by
  rw [hholder, Option.some_inj]
  by_cases hqp : q = p
  · rw [hqp, hothers.self]
    exact ⟨fun _ => hlocked, fun _ => rfl⟩
  · rw [hothers.pc q hqp, ← h.lock q, hfree]
    exact ⟨fun heq => (hqp heq.symm).elim, nofun⟩

theorem Inv.lock_release (hheld : s.holder cl.lk = some p) (hholder : s'.holder cl.lk = none)
    (hlocked : ¬ K.Locked c) (q : Slot) : s'.holder cl.lk = some q ↔ K.Locked (s'.pc q) := by
  rw [hholder]
  refine ⟨nofun, fun hq => ?_⟩
  by_cases hqp : q = p
  · rw [hqp, hothers.self] at hq
    exact (hlocked hq).elim
  · rw [hothers.pc q hqp, ← h.lock q, hheld, Option.some_inj] at hq
    exact (hqp hq.symm).elim

end Locks

theorem others_of_modify (hpc : s'.pc = update s.pc p c) (hpt : ∀ q, q ≠ p → s'.pt.proc q = s.pt.proc q) :
    Others s s' p c := by
  refine ⟨?_, fun q hq => ?_, fun q chan hq hs => ?_⟩
  · rw [hpc, update_self]
  · rw [hpc, update_of_ne hq]
  · rwa [Sleeps, hpt q hq] at hs

theorem others_of (hpc : s'.pc = update s.pc p c) (hpt : s'.pt = s.pt) : Others s s' p c :=
  others_of_modify hpc fun _ _ => by rw [hpt]

theorem Inv.walk (h : K.Inv cl s) (hbase : Monitor.Inv cl s') (hpc : s'.pc = update s.pc p c) (hpt : s'.pt = s.pt)
    (hdata : s'.data = s.data) (hlock : ∀ q, s'.holder cl.lk = some q ↔ K.Locked (s'.pc q))
    (hknows : K.Knows s.data c) (hawake : (s.pt.proc p).state ≠ .sleeping)
    (hup : ∀ t chan, ¬ Dormant t p chan c) (howes : ∀ chan, K.Owes chan (s.pc p) → K.Owes chan c ∨ Quiet s chan) :
    K.Inv cl s' := by
  have hothers : Others s s' p c := others_of hpc hpt
  refine h.step hbase hothers hdata hlock hknows (fun chan hs => ?_) (fun chan hd => (hup _ chan hd).elim) fun chan ho => ?_
  · rw [hpt] at hs
    exact (hawake hs.1).elim
  · refine (howes chan ho).imp_right fun hquiet q hd => ?_
    by_cases hqp : q = p
    · subst hqp
      rw [hothers.self] at hd
      exact hup _ chan hd
    · exact hquiet q (hothers.dormant hqp hd)

theorem Inv.update (h : K.Inv cl s) (hbase : Monitor.Inv cl ((s.update p d).setPc p (.run l')))
    (hpc : s.pc p = .run l) (hheld : s.holder cl.lk = some p) (hl : K.locked l = true) (hl' : K.locked l' = true)
    (hknow : K.knows l' d) (hcalm : ∀ chan, K.calm chan s.data ∨ K.owes l chan → K.calm chan d ∨ K.owes l' chan) :
    K.Inv cl ((s.update p d).setPc p (.run l')) := by
  have hothers : Others s ((s.update p d).setPc p (.run l')) p (.run l') := others_of rfl rfl
  have hunlocked {q : Slot} (hq : q ≠ p) : ¬ K.Locked (s.pc q) := by
    rw [← h.lock q, hheld, Option.some_inj]
    exact hq.symm
  refine ⟨hbase, h.lock_same hothers rfl ?_, fun q => ?_, fun q chan hq => ?_, fun q chan hs => ?_⟩
  · rw [hpc]
    exact ⟨fun _ => hl, fun _ => hl'⟩
  · by_cases hqp : q = p
    · rw [hqp, hothers.self]
      exact fun _ => hknow
    · rw [hothers.pc q hqp]
      exact (h.knows q).of_unlocked (hunlocked hqp)
  · have hqp : q ≠ p := by
      rintro rfl
      rw [hothers.self] at hq
      exact hq
    have hold : K.calm chan s.data ∨ K.owes l chan := by
      refine (h.calm q chan (hothers.dormant hqp hq)).imp_right fun ⟨r, hr⟩ => ?_
      by_cases hrp : r = p
      · rw [hrp, hpc] at hr
        exact hr.2
      · exact (hunlocked hrp hr.locked).elim
    refine (hcalm chan hold).imp_right fun ho => ⟨p, ?_⟩
    rw [hothers.self]
    exact ⟨hl', ho⟩
  · by_cases hqp : q = p
    · subst hqp
      exact (h.base.awake q (by rw [hpc]; trivial) hs.1).elim
    · exact hothers.sleeper h hqp hs

theorem Inv.move (h : K.Inv cl s) (hlk : cl.lk = .own) (henter : ∀ call, K.locked (cl.enter call) = false)
    (hm : Move cl s lb s') (hkept : ∀ p l, lb = .go p → s.pc p = .run l →
      (K.locked l = true → K.knows l s.data) → K.Kept (Quiet s) l s.data (cl.act l s.data (s.pt.proc p).killed)) :
    K.Inv cl s' := by
  have hbase := h.base.move hm
  have hawake {p : Slot} {c : Pc L} (hpc : s.pc p = c) (hc : c.Awake) : (s.pt.proc p).state ≠ .sleeping :=
    h.base.awake p (hpc ▸ hc)
  have hknows {p : Slot} {c : Pc L} (hpc : s.pc p = c) : K.Knows s.data c := hpc ▸ h.knows p
  have hact' {p : Slot} {l : L} {a : Act D L} (hlb : lb = .go p) (hpc : s.pc p = .run l)
      (hact : cl.act l s.data (s.pt.proc p).killed = a) : K.Kept (Quiet s) l s.data a :=
    hact ▸ hkept p l hlb hpc (hknows hpc)
  have hne : cl.lk ≠ .ptable := by
    rw [hlk]
    decide
  have htable (v : Option Slot) : Function.update s.holder .ptable v cl.lk = s.holder cl.lk := update_of_ne hne ..
  have hown (v : Option Slot) : Function.update s.holder cl.lk v cl.lk = v := update_self ..
  cases hm with
  | @start p call r hpc hrun =>
    have hunlocked : ¬ K.Locked (.run (cl.enter call)) := by
      rw [Locked, henter]
      exact Bool.false_ne_true
    refine h.walk hbase rfl rfl rfl (h.lock_same (others_of rfl rfl) rfl ?_) (fun hl => (hunlocked hl).elim)
      (by rw [hrun]; decide) (fun _ _ => id) ?_
    · rw [hpc]
      exact ⟨fun hl => hunlocked hl, False.elim⟩
    · rw [hpc]
      exact fun _ => False.elim
  | @acquire p l l' hpc hact hfree =>
    obtain ⟨hl, hl', hknow⟩ := hact' rfl hpc hact
    refine h.walk hbase rfl rfl rfl (h.lock_acquire (others_of rfl rfl) hfree (hown _) hl') (fun _ => hknow _)
      (hawake hpc trivial) (fun _ _ => id) ?_
    rw [hpc]
    exact fun chan ho => absurd (hl.symm.trans ho.1) Bool.false_ne_true
  | @release p l l' hpc hact hheld =>
    obtain ⟨hl, hl', hquiet⟩ := hact' rfl hpc hact
    have hunlocked : ¬ K.Locked (.run l') := by
      rw [Locked, hl']
      exact Bool.false_ne_true
    refine h.walk hbase rfl rfl rfl (h.lock_release (others_of rfl rfl) hheld (hown _) hunlocked)
      (fun hl => (hunlocked hl).elim) (hawake hpc trivial) (fun _ _ => id) ?_
    rw [hpc]
    exact fun chan ho => .inr (hquiet chan ho.2)
  | @update p l l' d hpc hact hheld =>
    obtain ⟨hl, hl', hknow, hcalm⟩ := hact' rfl hpc hact
    exact h.update hbase hpc hheld hl hl' hknow hcalm
  | @sleepTable p l l' chan hpc hact hheld htab => exact (hne htab).elim
  | @sleep p l l' chan hpc hact hheld _ =>
    obtain ⟨hl, hl', hcalm, howes, hknow⟩ := hact' rfl hpc hact
    refine h.walk hbase rfl rfl rfl (h.lock_same (c := .lockTable chan l') (others_of rfl rfl) rfl ?_)
      ⟨hcalm, hl', hknow⟩ (hawake hpc trivial) (fun _ _ => id) ?_
    · rw [hpc]
      exact ⟨fun _ => hl, fun _ => trivial⟩
    · rw [hpc]
      exact fun c ho => (howes c ho.2).elim
  | @wakeup p l l' chan hpc hact =>
    obtain ⟨hl, hknow, howes⟩ := hact' rfl hpc hact
    refine h.walk hbase rfl rfl rfl (h.lock_same (c := .wake chan l') (others_of rfl rfl) rfl ?_)
      (fun hl' => hknow (hl ▸ hl')) (hawake hpc trivial) (fun _ _ => id) ?_
    · rw [hpc, Locked, Locked, hl]
    · rw [hpc]
      exact fun c ho => .inl ⟨hl.trans ho.1, howes c ho.2⟩
  | wakeup1 hpc hact => exact (hact' rfl hpc hact).elim
  | @ret p l r hpc hact =>
    have hl : K.locked l = false := hact' rfl hpc hact
    refine h.walk hbase rfl rfl rfl (h.lock_same (c := .idle r) (others_of rfl rfl) rfl ?_) trivial
      (hawake hpc trivial) (fun _ _ => id) ?_
    · rw [hpc]
      exact ⟨False.elim, fun hlocked => absurd (hl.symm.trans hlocked) Bool.false_ne_true⟩
    · rw [hpc]
      exact fun chan ho => absurd (hl.symm.trans ho.1) Bool.false_ne_true
  | @lockTable p l chan hpc hfree =>
    have hk := hknows hpc
    refine h.walk hbase rfl rfl rfl (h.lock_same (c := .giveUp chan l) (others_of rfl rfl) (htable _) ?_)
      hk (hawake hpc trivial) (fun _ _ => id) ?_
    · rw [hpc]
      exact .rfl
    · rw [hpc]
      exact fun _ => False.elim
  | @unlock p l hpc hheld =>
    have hk := hknows hpc
    refine h.walk hbase rfl rfl rfl (h.lock_same (c := .relock l) (others_of rfl rfl) (htable _) ?_)
      hk (hawake hpc trivial) (fun _ _ => id) ?_
    · rw [hpc]
      exact .rfl
    · rw [hpc]
      exact fun _ => False.elim
  | @relock p l hpc hfree =>
    obtain ⟨hl, hknow⟩ := hknows hpc
    refine h.walk hbase rfl rfl rfl (h.lock_acquire (others_of rfl rfl) hfree (hown _) hl) (fun _ => hknow _)
      (hawake hpc trivial) (fun _ _ => id) ?_
    rw [hpc]
    exact fun _ => False.elim
  | @wake p l chan hpc hfree =>
    have hk := hknows hpc
    refine h.walk hbase rfl rfl rfl (h.lock_same (c := .waking chan l) (others_of rfl rfl) (htable _) ?_)
      hk (hawake hpc trivial) (fun _ _ => id) ?_
    · rw [hpc]
      exact .rfl
    · rw [hpc]
      exact fun _ => .inl
  | @woken p l hpc hheld =>
    have hk := hknows hpc
    refine h.walk hbase rfl rfl rfl (h.lock_same (c := .run l) (others_of rfl rfl) (htable _) ?_)
      hk (hawake hpc trivial) (fun _ _ => id) ?_
    · rw [hpc]
      exact .rfl
    · rw [hpc]
      exact fun _ => .inl
  | @kill pid hfree =>
    have hsleeps (q : Slot) (chan : Chan) (hs : Sleeps (s.pt.kill pid).2 q chan) : Sleeps s.pt q chan := by
      rwa [Sleeps, kill_sleeping hs.1] at hs
    refine ⟨hbase, h.lock, h.knows, fun q chan hq => h.calm q chan (hq.congr (hsleeps q chan)), fun q chan hs => ?_⟩
    exact (h.sleeper q chan (hsleeps q chan hs)).imp_left fun hd => hd.congr fun _ => hs
  | @giveUp p l chan hpc hheld =>
    obtain ⟨hcalm, hknow⟩ := hknows hpc
    refine h.step (c := .fall chan l) hbase (others_of rfl rfl) rfl
      (h.lock_release (others_of rfl rfl) hheld (hown _) id) hknow (fun chan' hs => ?_) (fun chan' hd => ?_) ?_
    · exact (hawake hpc trivial hs.1).elim
    · cases hd
      exact .inr hcalm
    · rw [hpc]
      exact fun _ => False.elim
  | @fall p l chan hpc =>
    have hk := hknows hpc
    have hself : (s.pt.sleep p chan).proc p = { s.pt.proc p with chan := some chan, state := .sleeping } := by
      rw [PTable.sleep, PTable.modify_proc, if_pos rfl]
    refine h.step (c := .sched chan l) hbase (others_of_modify rfl fun q hq => update_of_ne hq ..) rfl
      (h.lock_same (others_of_modify rfl fun q hq => update_of_ne hq ..) rfl ?_) hk (fun chan' hs => ?_) (fun chan' hd => ?_) ?_
    · rw [hpc]
      exact .rfl
    · rw [State.setPc, Sleeps, hself] at hs
      exact .inl (Option.some.inj hs.2)
    · rw [hpc]
      exact .inl hd
    · rw [hpc]
      exact fun _ => False.elim
  | @sched p l chan hpc hheld =>
    have hk := hknows hpc
    refine h.step (c := .asleep chan l) hbase (others_of rfl rfl) rfl
      (h.lock_same (others_of rfl rfl) (htable _) ?_) hk (fun chan' hs => ?_) (fun chan' hd => ?_) ?_
    · rw [hpc]
      exact .rfl
    · have hsleeper := h.sleeper p chan' hs
      rw [hpc] at hsleeper
      exact hsleeper.imp_left fun hd => ⟨hd, hs⟩
    · rw [hpc]
      exact .inl hd.1
    · rw [hpc]
      exact fun _ => False.elim
  | @resume p l chan hpc hwoken hfree =>
    have hk := hknows hpc
    refine h.step (c := .tidy l) hbase (others_of_modify rfl fun q hq => update_of_ne hq ..) rfl
      (h.lock_same (others_of_modify rfl fun q hq => update_of_ne hq ..) (htable _) ?_) hk (fun chan' hs => ?_) (fun _ => False.elim) ?_
    · rw [hpc]
      exact .rfl
    · rw [Sleeps, PTable.modify_proc, if_pos rfl] at hs
      cases hs.1
    · rw [hpc]
      exact fun _ => False.elim
  | @tidy p l hpc =>
    have hk := hknows hpc
    rw [if_neg hne] at hbase ⊢
    refine h.step (c := .unlock l) hbase (others_of_modify rfl fun q hq => update_of_ne hq ..) rfl
      (h.lock_same (others_of_modify rfl fun q hq => update_of_ne hq ..) rfl ?_) hk (fun chan' hs => ?_) (fun _ => False.elim) ?_
    · rw [hpc]
      exact .rfl
    · rw [State.setPc, Sleeps, PTable.modify_proc, if_pos rfl] at hs
      cases hs.2
    · rw [hpc]
      exact fun _ => False.elim
  | @waking p l chan hpc =>
    have hk := hknows hpc
    have hheld : s.holder .ptable = some p := by
      have hstage := h.base.stage p
      rwa [hpc] at hstage
    have hothers : Others s ((s.wakeup1 p chan).setPc p (.woken l)) p (.woken l) := by
      refine ⟨setPc_self .., fun q hq => setPc_of_ne hq .., fun q chan' hq hs => ?_⟩
      have hsame : (s.pt.wakeup1 chan).proc q = s.pt.proc q := wakeup1_sleeping hs.1
      rw [Sleeps, ← hsame]
      exact hs
    refine h.step hbase hothers rfl (h.lock_same hothers rfl ?_) hk (fun chan' hs => ?_) (fun _ => False.elim) fun chan' ho => ?_
    · rw [hpc]
      exact .rfl
    · have hsame : (s.pt.wakeup1 chan).proc p = s.pt.proc p := wakeup1_sleeping hs.1
      exact (hawake hpc trivial (hsame ▸ hs.1)).elim
    · rw [hpc] at ho
      obtain ⟨hl, rfl | ho⟩ := ho
      · right
        intro q hd
        -- who is about to sleep holds `ptable.lock`, and who sleeps has just been woken
        have hstage := hbase.stage q
        by_cases hqp : q = p
        · subst hqp
          rw [hothers.self] at hd
          exact hd
        · cases hq : ((s.wakeup1 p chan').setPc p (.woken l)).pc q with
          | fall =>
            rw [hq] at hstage
            exact hqp (Option.some.inj (hstage.1.symm.trans hheld))
          | sched =>
            rw [hq] at hstage
            exact hqp (Option.some.inj (hstage.symm.trans hheld))
          | asleep =>
            rw [hq] at hd
            exact not_sleeps_wakeup1 s.pt q _ hd.2
          | _ =>
            rw [hq] at hd
            exact hd
      · exact .inl ⟨hl, ho⟩

end Contract
end Xv6.Monitor
