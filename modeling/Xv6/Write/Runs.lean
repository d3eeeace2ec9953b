import Xv6.Fs.Small
import Xv6.Write.Shared

/-! # Any interleaving of writers

Every run of `filewrite` calls on one open file keeps the invariant between them. So the
file holds the chunks one behind the other in the order of the critical sections, and the
calls wait for each other only as long as one of them can go on.
-/
namespace Xv6.Write
open Function Prog Fs Sys Tx Sections Op List
open KProg hiding panic

variable {k₀ k : Kernel} {f : FileIdx} {i : InodeIdx} {pipewrite : Slot → Vm.Frame → List UInt8 → KProg ℤ}

/-- A file that is open for writing, in a file system that is at rest. No call moves the
offset of an open file past the end of the file. -/
structure Start (k₀ : Kernel) (f : FileIdx) (i : InodeIdx) : Prop where
  intact : Intact k₀
  opens : Opens (k₀.ftable f) i
  ref : 0 < (k₀.icache i).ref
  type : (k₀.dinode (k₀.icache i).inum).type = .file
  off : (k₀.ftable f).off.toNat ≤ (k₀.dinode (k₀.icache i).inum).size.toNat
  lock : (k₀.icache i).lock = none
  map : OneMapBlock k₀
  outstanding : k₀.log.outstanding = 0
  committing : k₀.log.committing = false
  lh : k₀.log.lh = []
  size : LOGSIZE ≤ k₀.log.size

theorem Start.stored (h : Start k₀ f i) : Stored k₀ f i [] k₀ where
  intact := h.intact
  file := by rw [length_nil, BitVec.add_zero]
  ref := h.ref
  inum := rfl
  type := h.type
  size := by
    have hoff := h.off
    rw [length_nil]
    omega
  contents := (Mem.write_nil ..).symm

variable {th : Slot → KProg ℤ} {ls : List Label}

theorem Start.inv (h : Start k₀ f i) (hth : ∀ p, ∃ r, th p = .ret r) :
    Inv pipewrite k₀ f i {} k₀ th fun _ => .home where
  place p := by
    obtain ⟨r, hr⟩ := hth p
    rw [hr]
    exact .home rfl fun src hsrc => by cases hsrc
  total := by simp [bytes]
  file := ⟨_, rfl⟩
  lock p := by
    rw [h.lock]
    exact iff_of_false (fun hp => by cases hp) (by decide)
  rest _ := by
    have hnone : waiting (fun _ => .home) = 0 := (countThreads_eq_zero _).mpr fun p hp => by cases hp
    refine ⟨h.stored, h.map, ?_, ?_⟩
    all_goals rw [h.lh]
    · exact nodup_nil
    · rw [hnone]
      decide
  books := by
    refine ⟨?_, ?_, fun hc => ?_, fun _ _ => h.lh, fun p hp => (by cases hp), h.size⟩
    · rw [h.outstanding, (countThreads_eq_zero _).mpr fun p hp => hp.elim]
      rfl
    · rw [h.committing, (countThreads_eq_zero _).mpr fun p hp => hp.elim]
      rfl
    · rw [h.committing] at hc
      cases hc

/-! ## Runs -/

abbrev State := Pool.State Op Op.Ans Kernel Slot ℤ

variable {tr : List (State × Label)} {s : State}

/-- The processes write to the file, each one call after the other. -/
abbrev Step (pipewrite : Slot → Vm.Frame → List UInt8 → KProg ℤ) (f : FileIdx) : State → Label → State → Prop :=
  Pool.Step Op.sem fun p src => filewrite pipewrite p f src

def asked (p : Slot) (ls : List Label) : List UInt8 :=
  ls.flatMap fun
    | .start q src => if q = p then src else []
    | .exec _ _ _ => []

def Sections.of (t : Sections) (p : Slot) : List UInt8 := (t.chunks.filter (·.1 = p)).flatMap Prod.snd

section Runs
variable {t : Sections} {ls : List Label} {l : Label} {p : Slot}

theorem sections_snoc (ls : List Label) (l : Label) : sections (ls ++ [l]) = (sections ls).next l :=
  foldl_append ..

theorem Sections.total_le (t : Sections) (l : Label) : t.total ≤ (t.next l).total := by
  unfold next
  split
  · exact Nat.le_add_right ..
  · exact le_rfl
  · exact le_rfl

theorem Sections.next_exec (t : Sections) (p : Slot) (o : Op) (b : o.Ans) : t.next (.exec p o b) = t ∨
    t.next (.exec p o b) = { t with
      left := update t.left p ((t.left p).drop writeMax)
      chunks := t.chunks ++ [(p, (t.left p).take writeMax)] } := by
  cases o with
  | fs o =>
    cases o with
    | ilock => exact .inr rfl
    | _ => exact .inl rfl
  | _ => exact .inl rfl

theorem Sections.of_next (h : t.of p ++ t.left p = asked p ls) (hl : ∀ src, l = .start p src → t.left p = []) :
    (t.next l).of p ++ (t.next l).left p = asked p (ls ++ [l]) := by
  have hsnoc : asked p (ls ++ [l]) = t.of p ++ t.left p ++ asked p [l] := by
    rw [h]
    exact flatMap_append ..
  rw [hsnoc]
  cases l with
  | start q src =>
    have hask : asked p [.start q src] = if q = p then src else [] := flatMap_singleton ..
    rw [hask]
    change t.of p ++ update t.left q src p = _
    by_cases hq : q = p
    · subst hq
      rw [update_self, if_pos rfl, hl src rfl, append_nil]
    · rw [update_of_ne (Ne.symm hq), if_neg hq, append_nil]
  | exec q o b =>
    change _ = t.of p ++ t.left p ++ []
    rw [append_nil]
    rcases t.next_exec q o b with hnext | hnext
    all_goals rw [hnext]
    have hof : of { t with
        left := update t.left q ((t.left q).drop writeMax)
        chunks := t.chunks ++ [(q, (t.left q).take writeMax)] } p =
        t.of p ++ if q = p then (t.left q).take writeMax else [] := by
      unfold of
      dsimp only
      rw [filter_append, flatMap_append, filter_singleton]
      by_cases hq : q = p <;> simp [hq]
    rw [hof]
    dsimp only
    by_cases hq : q = p
    · subst hq
      rw [update_self, if_pos rfl, append_assoc, take_append_drop]
    · rw [update_of_ne (Ne.symm hq), if_neg hq, append_nil]

theorem run_inv (h : Start k₀ f i) (hth : ∀ p, ∃ r, th p = .ret r)
    (hr : Run (Step pipewrite f) ⟨k₀, th⟩ tr s) (hfit : Fitting k₀ f (sections (tr.map Prod.snd)).total) :
    (∃ ph, Inv pipewrite k₀ f i (sections (tr.map Prod.snd)) s.shared s.thread ph) ∧
      ∀ p, (sections (tr.map Prod.snd)).of p ++ (sections (tr.map Prod.snd)).left p = asked p (tr.map Prod.snd) := by
  induction hr with
  | start => exact ⟨⟨_, h.inv hth⟩, fun p => rfl⟩
  | @snoc tr s s' l hr hs ih =>
    rw [map_append, map_singleton, sections_snoc] at hfit ⊢
    dsimp only at hfit ⊢
    have hfit' : Fitting k₀ f (sections (tr.map Prod.snd)).total := by
      unfold Fitting at *
      have hle := (sections (tr.map Prod.snd)).total_le l
      omega
    obtain ⟨⟨ph, hinv⟩, hof⟩ := ih hfit'
    cases hs with
    | @start p r src hp =>
      refine ⟨⟨_, hinv.start hp src⟩, fun q => of_next (hof q) fun src' hsrc => ?_⟩
      cases hsrc
      have hplace := hinv.place p
      rw [hp] at hplace
      exact hplace.ret.2.1
    | @exec p o g b k' hp ho =>
      exact ⟨hinv.exec h.opens hfit' hp ho, fun q => of_next (hof q) fun src' hsrc => by cases hsrc⟩

end Runs

/-! ## The calls go on -/

section Progress
variable {t : Sections} {th : Slot → KProg ℤ} {ph : Slot → Place} {p : Slot}

/-- The process can make its next operation, or there is no free block left for it. -/
def Able (th : Slot → KProg ℤ) (k : Kernel) (p : Slot) : Prop :=
  ∃ o g, th p = .op o g ∧ ((∃ b k', o.sem k = .ok (b, k')) ∨ o = .panic "balloc: out of blocks" ∧ k.Full)

/-- How many transactions are open makes no difference to an operation of a critical section. -/
theorem Working.able (h : Working p i o k.alone) (hroom : k.log.Roomy) :
    (∃ b k', o.sem k = .ok (b, k')) ∨ o = .panic "balloc: out of blocks" ∧ k.Full := by
  obtain ⟨hgrip, hworks⟩ := h
  have hgrip' : Grip p i k := ⟨hgrip.lock, hgrip.ref⟩
  cases hworks with
  | filler h =>
    cases h with
    | fills h => exact .inl (h.goes hroom)
    | full h => exact .inr ⟨rfl, h⟩
  | unlock => exact .inl hgrip'.iunlock
  | file | setOff => exact .inl ⟨_, _, rfl⟩

section
variable (h : Inv pipewrite k₀ f i t k th ph)
include h

theorem Inv.able_inside (hp : ph p = .inside) : Able th k p := by
  have hplace := h.place p
  generalize hx : th p = x at hplace
  rw [hp] at hplace
  cases hplace with
  | @inside src turns len y base hgiven hturns hy hwp hroom =>
    cases y with
    | ret r => exact absurd rfl (hy r)
    | op o =>
      obtain ⟨⟨hworking, hwithin⟩, -⟩ := hwp
      refine ⟨o, _, hx, hworking.able ?_⟩
      have hle : k.log.lh.length + min 3 base.length ≤ base.length + MAXOPBLOCKS := hwithin.within
      have hsize := h.books.size
      have hopen : (ph p).Open := by
        rw [hp]
        trivial
      simp only [MAXOPBLOCKS, LOGSIZE] at hle hroom hsize
      exact ⟨by simp only [LOGSIZE, MAXOPBLOCKS]; omega, by omega, h.books.one_le hopen⟩

theorem Inv.able_busy (hp : ph p = .entry ∨ ph p = .leave ∨ ph p = .commit ∨ ph p = .clean) : Able th k p := by
  have hplace := h.place p
  generalize hx : th p = x at hplace
  rcases hp with hp | hp | hp | hp
  all_goals rw [hp] at hplace
  · cases hplace with
    | entry => exact ⟨_, _, hx, .inl ⟨_, _, rfl⟩⟩
  · cases hplace with
    | leave =>
      have hcommitting := h.books.not_committing (p := p) (by rw [hp]; trivial)
      obtain ⟨c, lg, hend⟩ : ∃ c lg, k.log.endOp = .ok (c, lg) := by
        rw [Log.endOp_apply, hcommitting, if_neg Bool.false_ne_true]
        split
        · exact ⟨_, _, rfl⟩
        · exact ⟨_, _, rfl⟩
      exact ⟨_, _, hx, .inl ⟨c, _, Kernel.onLog_eq_ok.mpr ⟨lg, hend, rfl⟩⟩⟩
  · cases hplace with
    | commit => exact ⟨_, _, hx, .inl ⟨_, _, rfl⟩⟩
  · cases hplace with
    | clean => exact ⟨_, _, hx, .inl ⟨_, _, rfl⟩⟩

theorem Inv.able_wait (hp : ph p = .wait) (hlock : (k.icache i).lock = none) : Able th k p := by
  have hplace := h.place p
  generalize hx : th p = x at hplace
  rw [hp] at hplace
  have hstored := (h.rest hlock).stored
  have hlive : (k.dinode (k.icache i).inum).type ≠ .free := by
    rw [hstored.inum, hstored.type]
    decide
  obtain ⟨k', ho⟩ := FsOp.ilock_ok (p := p) hstored.ref hlock fun _ => hlive
  cases hplace with
  | wait => exact ⟨_, _, hx, .inl ⟨(), k', ho⟩⟩

/-- `begin_op` waits only for transactions that are open or for a commit. -/
theorem Inv.able_out (hp : ph p = .out) (hidle : ∀ q, ¬ (ph q).Open ∧ ¬ (ph q).Commits) : Able th k p := by
  have hout : k.log.outstanding = 0 := by
    rw [h.books.outstanding, (countThreads_eq_zero _).mpr fun q => (hidle q).1]
    rfl
  have hcommitting : k.log.committing = false := by
    have hcommits := h.books.commits
    rw [(countThreads_eq_zero _).mpr fun q => (hidle q).2] at hcommits
    cases hc : k.log.committing with
    | false => rfl
    | true => simp [hc] at hcommits
  have hbegin : k.log.beginOp = .ok ((), { k.log with outstanding := k.log.outstanding + 1 }) := by
    rw [Log.beginOp_apply, if_neg, if_neg]
    · rw [h.books.idle hout hcommitting, hout]
      decide
    · rw [hcommitting]
      exact Bool.false_ne_true
  have hplace := h.place p
  generalize hx : th p = x at hplace
  rw [hp] at hplace
  cases hplace with
  | @out src turns hgiven hne hturns =>
    cases turns with
    | zero => exact absurd (length_pos_iff.mpr hne) (by omega)
    | succ turns =>
      rw [loop_cons p f i _ turns hne] at hx
      exact ⟨_, _, hx, .inl ⟨(), _, Kernel.onLog_eq_ok.mpr ⟨_, hbegin, rfl⟩⟩⟩

theorem Inv.progress : (∀ p, ∃ r, th p = .ret r) ∨ ∃ p, Able th k p := by
  by_contra hno
  rw [not_or, not_exists] at hno
  obtain ⟨hrunning, hstuck⟩ := hno
  have hplaces (p : Slot) : ph p = .home ∨ ph p = .out ∨ ph p = .wait := by
    have hbusy := mt (h.able_busy (p := p)) (hstuck p)
    have hinside := mt (h.able_inside (p := p)) (hstuck p)
    cases hl : ph p <;> simp_all
  have hlock : (k.icache i).lock = none := by
    cases hl : (k.icache i).lock with
    | none => rfl
    | some q =>
      have hq := (h.lock q).mp hl
      rcases hplaces q with hq' | hq' | hq'
      all_goals
        rw [hq] at hq'
        cases hq'
  have hplaces' (p : Slot) : ph p = .home ∨ ph p = .out := by
    rcases hplaces p with hp | hp | hp
    · exact .inl hp
    · exact .inr hp
    · exact absurd (h.able_wait hp hlock) (hstuck p)
  have hidle (q : Slot) : ¬ (ph q).Open ∧ ¬ (ph q).Commits := by
    rcases hplaces' q with hq | hq
    all_goals
      rw [hq]
      exact ⟨id, id⟩
  refine hrunning fun p => ?_
  rcases hplaces' p with hp | hp
  · have hplace := h.place p
    generalize hx : th p = x at hplace
    rw [hp] at hplace
    cases hplace with
    | home => exact ⟨_, rfl⟩
  · exact absurd (h.able_out hp hidle) (hstuck p)

end

end Progress

/-! ## What the calls come to -/

/-- The calls of a run: each process has its bytes written in the order in which it was given
them, and the file holds all chunks one behind the other, in the order of their critical
sections. -/
structure Shares (pipewrite : Slot → Vm.Frame → List UInt8 → KProg ℤ) (k₀ : Kernel) (f : FileIdx) (i : InodeIdx)
    (ls : List Label) (s : State) : Prop where
  order : ∀ p, (sections ls).of p ++ (sections ls).left p = asked p ls
  stored : (s.shared.icache i).lock = none → Stored k₀ f i (sections ls).bytes s.shared
  returns : ∀ p src r, (sections ls).given p = some src → s.thread p = .ret r → r = src.length ∧ (sections ls).left p = []
  done : (∀ p, ∃ r, s.thread p = .ret r) → (s.shared.icache i).lock = none ∧ (sections ls).bytes.length = (sections ls).total
  progress : (∀ p, ∃ r, s.thread p = .ret r) ∨ ∃ p, Able s.thread s.shared p
  ends : Acc (fun t s => ∃ p o b, Step pipewrite f s (.exec p o b) t) s

theorem run_shares (h : Start k₀ f i) (hth : ∀ p, ∃ r, th p = .ret r) (hr : Run (Step pipewrite f) ⟨k₀, th⟩ tr s) (hfit : Fitting k₀ f (sections (tr.map Prod.snd)).total) :
    Shares pipewrite k₀ f i (tr.map Prod.snd) s := by
  obtain ⟨⟨ph, hinv⟩, hof⟩ := run_inv h hth hr hfit
  have hret {p : Slot} {r : ℤ} (hp : s.thread p = .ret r) := (hp ▸ hinv.place p).ret
  refine ⟨hof, fun hlock => (hinv.rest hlock).stored, fun p src r hsrc hp => ?_, fun hall => ⟨?_, ?_⟩, hinv.progress,
    (Pool.exec_wellFounded _ _).apply s⟩
  · obtain ⟨-, hleft, hlen⟩ := hret hp
    exact ⟨hlen src hsrc, hleft⟩
  · cases hl : (s.shared.icache i).lock with
    | none => rfl
    | some q =>
      obtain ⟨r, hq⟩ := hall q
      have hinside := (hinv.lock q).mp hl
      rw [(hret hq).1] at hinside
      cases hinside
  · have hnone : ∑ p, ((sections (tr.map Prod.snd)).left p).length = 0 := by
      refine Finset.sum_eq_zero fun p _ => ?_
      obtain ⟨r, hp⟩ := hall p
      rw [(hret hp).2.1, length_nil]
    have htotal := hinv.total
    omega

/-! ## A single caller -/
section Single
variable {p : Slot} {src : List UInt8}

def Label.By (p : Slot) (l : Label) : Prop := (∃ src, l = .start p src) ∨ ∃ o b, l = .exec p o b

theorem sections_by (h : ∀ l ∈ ls, l.By p) : ∀ c ∈ (sections ls).chunks, c.1 = p := by
  induction ls using reverseRecOn with
  | nil => exact fun c hc => by cases hc
  | append_singleton ls l ih =>
    have ih := ih fun l hl => h l (mem_append_left _ hl)
    rw [sections_snoc]
    obtain ⟨src, rfl⟩ | ⟨o, b, rfl⟩ := h l (by simp)
    · exact ih
    · rcases (sections ls).next_exec p o b with hnext | hnext
      all_goals rw [hnext]
      · exact ih
      · intro c hc
        rcases mem_append.mp hc with hc | hc
        · exact ih c hc
        · rw [mem_singleton.mp hc]

theorem sections_call (src : List UInt8) (h : ∀ l ∈ ls, ∃ o b, l = .exec p o b) :
    (sections (.start p src :: ls)).given p = some src ∧ (sections (.start p src :: ls)).total = src.length ∧
      asked p (.start p src :: ls) = src := by
  induction ls using reverseRecOn with
  | nil => exact ⟨update_self .., Nat.zero_add _, by simp [asked]⟩
  | append_singleton ls l ih =>
    obtain ⟨hgiven, htotal, hasked⟩ := ih fun l hl => h l (mem_append_left _ hl)
    obtain ⟨o, b, rfl⟩ := h l (by simp)
    refine ⟨?_, ?_, ?_⟩
    · rw [← cons_append, sections_snoc]
      rcases (sections (.start p src :: ls)).next_exec p o b with hnext | hnext
      all_goals
        rw [hnext]
        exact hgiven
    · rw [← cons_append, sections_snoc]
      rcases (sections (.start p src :: ls)).next_exec p o b with hnext | hnext
      all_goals
        rw [hnext]
        exact htotal
    · have hsnoc : asked p ((.start p src :: ls) ++ [.exec p o b]) = asked p (.start p src :: ls) ++ [] :=
        flatMap_append ..
      rw [← cons_append, hsnoc, append_nil, hasked]

/-- A process that calls `filewrite` while all others are idle, as far as it has come. -/
theorem call_shares (h : Start k₀ f i) (hfit : Fitting k₀ f src.length) (hth : ∀ p, ∃ r, th p = .ret r) (htr : ∀ e ∈ tr, ∃ o b, e.2 = Pool.Label.exec p o b)
    (hr : Run (Step pipewrite f) ⟨k₀, update th p (filewrite pipewrite p f src)⟩ tr s) :
    ∃ ls, Shares pipewrite k₀ f i ls s ∧ (sections ls).given p = some src ∧ ((sections ls).left p = [] → (sections ls).bytes = src) := by
  obtain ⟨r, hp⟩ := hth p
  have hrun := Run.cons (Pool.Step.start src hp : Step pipewrite f ⟨k₀, th⟩ (.start p src) _) hr
  have hexec : ∀ l ∈ tr.map Prod.snd, ∃ o b, l = Pool.Label.exec p o b := fun l hl => by
    obtain ⟨e, he, rfl⟩ := mem_map.mp hl
    exact htr e he
  obtain ⟨hgiven, htotal, hasked⟩ := sections_call src hexec
  have hshares := run_shares h hth hrun (by
    rw [map_cons]
    dsimp only
    rwa [htotal])
  refine ⟨_, hshares, hgiven, fun hleft => ?_⟩
  have horder := hshares.order p
  rw [hleft, append_nil] at horder
  have hmine : (sections (.start p src :: tr.map Prod.snd)).of p = (sections (.start p src :: tr.map Prod.snd)).bytes := by
    unfold of bytes
    rw [filter_eq_self.mpr]
    intro c hc
    refine decide_eq_true (sections_by (fun l hl => ?_) c hc)
    rcases mem_cons.mp hl with rfl | hl
    · exact .inl ⟨src, rfl⟩
    · exact .inr (hexec l hl)
  exact hmine.symm.trans (horder.trans hasked)

theorem writei_once (h : Start k₀ f i) (hfit : Fitting k₀ f src.length)
    (hlock : FsOp.ilock.sem p i { k₀ with log := l } = .ok ((), k₁))
    (hrun : (writei p i src (k₀.ftable f).off).run sem k₁ = .ok (r, k')) :
    r = src.length ∧ ∃ off, Stored k₀ f i src (k'.setFile f fun ff => { ff with off := off }) := by
  have hstart : Stored k₀ f i [] { k₀ with log := l } :=
    h.stored.congr (h.intact.congr rfl rfl rfl rfl rfl) rfl rfl rfl rfl rfl
  obtain ⟨hstored, hloaded, hlocked, -, -, -, hftable⟩ := hstart.locked hlock
  have hoff : (k₁.ftable f).off = (k₀.ftable f).off := congrArg (fun t => (t f).off) hftable
  have hwrite : (writei p i src (k₁.ftable f).off).Wp sem (Advances p i) _ k₁ :=
    writei_stores hstored hloaded ⟨hlocked, hloaded.1⟩ hfit
  rw [hoff] at hwrite
  obtain ⟨hr, -, hstored'⟩ := hwrite.run hrun
  exact ⟨hr, _, hstored'⟩

/-- What a single call comes to, next to one `writei` of all bytes. -/
structure Single (pipewrite : Slot → Vm.Frame → List UInt8 → KProg ℤ) (k₀ : Kernel) (f : FileIdx) (i : InodeIdx) (p : Slot)
    (src : List UInt8) : Prop where
  returns : ∀ r k', (filewrite pipewrite p f src).run Op.sem k₀ = .ok (r, k') → r = src.length ∧ Stored k₀ f i src k'
  once : ∀ r k' l k₁ r₁ k₁', (filewrite pipewrite p f src).run Op.sem k₀ = .ok (r, k') →
    FsOp.ilock.sem p i { k₀ with log := l } = .ok ((), k₁) → (writei p i src (k₀.ftable f).off).run Op.sem k₁ = .ok (r₁, k₁') →
    r = r₁ ∧ (k'.dinode (k₀.icache i).inum).size = (k₁'.dinode (k₀.icache i).inum).size ∧
      (k'.dinode (k₀.icache i).inum).contents k'.block = (k₁'.dinode (k₀.icache i).inum).contents k₁'.block
  stops : ∀ e, (filewrite pipewrite p f src).run Op.sem k₀ = .error e → e = .panic "balloc: out of blocks" ∧
    ∃ k', Reach Op.sem (filewrite pipewrite p f src) k₀ (.panic "balloc: out of blocks") k' ∧ k'.Full

theorem filewrite_single (h : Start k₀ f i) (hfit : Fitting k₀ f src.length) : Single pipewrite k₀ f i p src := by
  have hidle (q : Slot) : ∃ r, (fun _ => .ret 0 : Slot → KProg ℤ) q = .ret r := ⟨0, rfl⟩
  have hreturns (r : ℤ) (k' : Kernel) (hrun : (filewrite pipewrite p f src).run sem k₀ = .ok (r, k')) :
      r = src.length ∧ Stored k₀ f i src k' := by
    obtain ⟨tr, hr, htr⟩ : ∃ tr, Run (Step pipewrite f) ⟨k₀, update (fun _ => .ret 0) p (filewrite pipewrite p f src)⟩
        tr ⟨k', update (fun _ => .ret 0) p (.ret r)⟩ ∧ ∀ e ∈ tr, ∃ o b, e.2 = Pool.Label.exec p o b :=
      Pool.run_alone hrun
    obtain ⟨ls, hshares, hgiven, hbytes⟩ := call_shares h hfit hidle htr hr
    have hp : update (fun _ => .ret 0 : Slot → KProg ℤ) p (.ret r) p = .ret r := update_self ..
    obtain ⟨hlen, hleft⟩ := hshares.returns p src r hgiven hp
    have hall (q : Slot) : ∃ r', update (fun _ => .ret 0 : Slot → KProg ℤ) p (.ret r) q = .ret r' := by
      by_cases hq : q = p
      · rw [hq, update_self]
        exact ⟨r, rfl⟩
      · rw [update_of_ne hq]
        exact ⟨0, rfl⟩
    have hstored := hshares.stored (hshares.done hall).1
    rw [hbytes hleft] at hstored
    exact ⟨hlen, hstored⟩
  refine ⟨hreturns, fun r k' l k₁ r₁ k₁' hrun hlock hwrite => ?_, fun e herr => ?_⟩
  · obtain ⟨hr, hstored⟩ := hreturns r k' hrun
    obtain ⟨hr1, off, hstored1⟩ := writei_once h hfit hlock hwrite
    exact ⟨hr.trans hr1.symm, BitVec.eq_of_toNat_eq (hstored.size.trans hstored1.size.symm),
      hstored.contents.trans hstored1.contents.symm⟩
  · obtain ⟨o, k', hreach, ho⟩ := exists_reach_of_error herr
    obtain ⟨tr, g, hr, htr⟩ : ∃ tr g, Run (Step pipewrite f)
        ⟨k₀, update (fun _ => .ret 0) p (filewrite pipewrite p f src)⟩ tr
        ⟨k', update (fun _ => .ret 0) p (.op o g)⟩ ∧ ∀ e ∈ tr, ∃ o b, e.2 = Pool.Label.exec p o b :=
      Pool.run_reach hreach
    obtain ⟨ls, hshares, -, -⟩ := call_shares h hfit hidle htr hr
    -- nobody but the caller has an operation to make
    obtain ⟨q, o', g', hq, hable⟩ := hshares.progress.resolve_left fun hall => by
      obtain ⟨r, hp⟩ := hall p
      dsimp only at hp
      rw [update_self] at hp
      cases hp
    obtain rfl : q = p := by
      by_contra hne
      dsimp only at hq
      rw [update_of_ne hne] at hq
      cases hq
    dsimp only at hq hable
    rw [update_self] at hq
    cases hq
    rcases hable with ⟨b, k₁, hok⟩ | ⟨rfl, hfull⟩
    · rw [ho] at hok
      cases hok
    · cases ho
      exact ⟨rfl, k', hreach, hfull⟩

end Single

/-- Any number of processes write to one open file at the same time; all that they are given
fits into the file. -/
theorem filewrite_shared (pipewrite : Slot → Vm.Frame → List UInt8 → KProg ℤ) (h : Start k₀ f i) :
    (∀ th tr s, (∀ p, ∃ r, th p = .ret r) → Run (Step pipewrite f) ⟨k₀, th⟩ tr s →
      Fitting k₀ f (sections (tr.map Prod.snd)).total → Shares pipewrite k₀ f i (tr.map Prod.snd) s) ∧
    ∀ p src, Fitting k₀ f src.length → Single pipewrite k₀ f i p src :=
  ⟨fun _ _ _ hth hr hfit => run_shares h hth hr hfit, fun _ _ hfit => filewrite_single h hfit⟩

def openFile : Kernel :=
  { oneFile 0 none { size := LOGSIZE } with
    ftable := fun f => if f = 0 then { type := .inode, ref := 1, writable := true, ip := some 0 } else {} }

theorem openFile_start : Start openFile 0 0 where
  intact := (oneFile_intact (l := { size := LOGSIZE }) (by decide)).congr rfl rfl rfl rfl rfl
  opens := ⟨rfl, rfl, rfl⟩
  ref := by decide
  type := rfl
  off := by decide
  lock := rfl
  map := by
    refine ⟨by decide, fun b hb => ?_, rfl⟩
    have hb : (b < 3 || b == 5) = true := hb
    simp only [Bool.or_eq_true, decide_eq_true_eq, beq_iff_eq, BPB] at *
    omega
  outstanding := rfl
  committing := rfl
  lh := rfl
  size := by decide

/-- Two processes that have called `filewrite`, and a call that runs to its end. -/
theorem filewrite_shared_openFile : Start openFile 0 0 ∧
    (∃ s, Shares (fun _ _ _ => pure 0) openFile 0 0 [.start 0 [65, 66], .start 1 [67]] s) ∧
    ∃ k', (filewrite (fun _ _ _ => pure 0) 0 0 [65, 66]).run Op.sem openFile = .ok (2, k') ∧ Stored openFile 0 0 [65, 66] k' := by
  obtain ⟨hshares, hsingle⟩ := filewrite_shared (fun _ _ _ => pure 0) openFile_start
  refine ⟨openFile_start, ?_, ?_⟩
  · have hfirst : Step (fun _ _ _ => pure 0) 0 ⟨openFile, fun _ => .ret 0⟩ (.start 0 [65, 66]) _ := Pool.Step.start _ rfl
    have hsecond : Step (fun _ _ _ => pure 0) 0
        ⟨openFile, update (fun _ => .ret 0) 0 (filewrite (fun _ _ _ => pure 0) 0 0 [65, 66])⟩ (.start 1 [67]) _ :=
      Pool.Step.start (a := 0) _ rfl
    refine ⟨_, hshares _ _ _ (fun _ => ⟨0, rfl⟩) (Run.snoc (Run.snoc Run.start hfirst) hsecond) ?_⟩
    exact (by decide : 0 + 3 ≤ MAXFILE * BSIZE)
  · have htest : ((filewrite (fun _ _ _ => pure 0) 0 0 [65, 66]).run sem).test openFile (fun r _ => r = 2) = true := by
      decide +kernel
    obtain ⟨r, k', hrun, hr⟩ := Comp.test_eq_true htest
    obtain rfl : r = 2 := of_decide_eq_true hr
    exact ⟨k', hrun, ((hsingle 0 [65, 66] (by decide : 0 + 2 ≤ MAXFILE * BSIZE)).returns 2 k' hrun).2⟩

end Xv6.Write
