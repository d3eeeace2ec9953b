import Xv6.Kernel.Alone
import Xv6.Lib.Count
import Xv6.Lib.Pool
import Xv6.Write.Critical

/-! # Writers that share an open file

Processes that got one `struct file` through `dup` or `fork` write to it at the same time,
with a step for each operation. Where a process is in the loop of `filewrite` says which
transactions are open and who has the inode locked. While it is locked only the number of
open transactions changes under its owner, so that the section does what it does alone.
-/
namespace Xv6.Write
open Function Prog Fs Sys Tx List
open KProg hiding panic

/-! ## The order of the critical sections -/

abbrev Label := Pool.Label Op Op.Ans Slot (List UInt8)

/-- What the steps tell of the calls: the bytes that each process was given to write, those
that it has left, and the chunks in the order of their critical sections. -/
structure Sections where
  given : Slot → Option (List UInt8) := fun _ => none
  left : Slot → List UInt8 := fun _ => []
  chunks : List (Slot × List UInt8) := []
  total : ℕ := 0

namespace Sections

/-- A critical section begins with `ilock`. -/
def next (t : Sections) : Label → Sections
  | .start p src => { t with
      given := update t.given p (some src)
      left := update t.left p src
      total := t.total + src.length }
  | .exec p (.fs (.ilock _ _)) _ => { t with
      left := update t.left p ((t.left p).drop writeMax)
      chunks := t.chunks ++ [(p, (t.left p).take writeMax)] }
  | .exec _ _ _ => t

def bytes (t : Sections) : List UInt8 := t.chunks.flatMap Prod.snd

end Sections

def sections (ls : List Label) : Sections := ls.foldl Sections.next {}

/-! ## Where a process is in `filewrite` -/
section Programs
variable (p : Slot) (f : FileIdx) (i : InodeIdx)

/-- The loop of `filewrite`, with the bytes that are left. -/
def loop (n turns : ℕ) (left : List UInt8) : KProg ℤ := do
  if ← writeFrom p f i turns left then return n else return -1

/-- The rest of a turn of the loop, after the critical section. -/
def finish (n turns len : ℕ) (left : List UInt8) (r : ℤ) : KProg ℤ := do
  endOp
  if r < 0 then return -1
  else if r ≠ len then KProg.panic "short filewrite"
  else loop p f i n turns left

theorem loop_nil (n turns : ℕ) : loop p f i n turns [] = .ret n := by
  cases turns <;> rfl

theorem loop_cons (n turns : ℕ) {left : List UInt8} (h : left ≠ []) : loop p f i n (turns + 1) left = (do
    beginOp
    ilock p i
    let r ← critical p f i (left.take writeMax)
    finish p f i n turns (left.take writeMax).length (left.drop writeMax) r) := by
  unfold loop writeFrom
  rw [if_neg h, writeChunk_eq]
  simp only [bind_assoc, pure_bind]
  refine bind_congr fun _ => bind_congr fun _ => bind_congr fun r => bind_congr fun _ => ?_
  split
  · rfl
  · split
    · exact congrArg (Prog.op _) (funext fun b => b.elim)
    · rfl

theorem finish_of_all (n turns len : ℕ) (left : List UInt8) :
    finish p f i n turns len left len = (endOp >>= fun _ => loop p f i n turns left) := by
  unfold finish
  refine bind_congr fun _ => ?_
  rw [if_neg (by omega), if_neg (not_not.mpr rfl)]

/-- `filewrite` after it has looked at the open file. -/
def opened (pipewrite : Slot → Vm.Frame → List UInt8 → KProg ℤ) (src : List UInt8) (ff : File) : KProg ℤ :=
  if !ff.writable then pure (-1)
  else
    match ff.type with
    | .pipe => pipewrite p ff.pipe src
    | .inode =>
      match ff.ip with
      | none => KProg.panic "filewrite: null inode"
      | some ip => writeInode p f ip src
    | .none => KProg.panic "filewrite"

/-- The open file is one for writing to the inode. -/
structure Opens (ff : File) (i : InodeIdx) : Prop where
  writable : ff.writable = true
  type : ff.type = .inode
  ip : ff.ip = some i

variable {i} in
theorem opened_inode (h : Opens ff i) (pipewrite : Slot → Vm.Frame → List UInt8 → KProg ℤ) (src : List UInt8) :
    opened p f pipewrite src ff = loop p f i src.length src.length src := by
  unfold opened
  rw [h.writable, h.type, h.ip]
  rfl

end Programs

/-- Where a process is: not in a call, at its start, before `begin_op`, before `ilock`,
between `ilock` and `iunlock`, before `end_op`, and at the two steps of a commit. -/
inductive Place
  | home | entry | out | wait | inside | leave | commit | clean
  deriving DecidableEq

def Place.Open : Place → Prop
  | .wait | .inside | .leave => True
  | _ => False

instance : DecidablePred Place.Open := fun l => by
  unfold Place.Open
  split <;> infer_instance

def Place.Commits : Place → Prop
  | .commit | .clean => True
  | _ => False

instance : DecidablePred Place.Commits := fun l => by
  unfold Place.Commits
  split <;> infer_instance

variable {k₀ k : Kernel} {f : FileIdx} {i : InodeIdx} {pipewrite : Slot → Vm.Frame → List UInt8 → KProg ℤ}

/-- What a process inside its section goes by: it has the inode locked, is not held up, and
adds only so much to the header of the log. -/
def Inside (p : Slot) (i : InodeIdx) (base : List Word) (o : Op) (k : Kernel) : Prop :=
  Working p i o k ∧ Within base k.log.lh

/-- How it leaves the section, with all of `W` written. -/
def Left (k₀ : Kernel) (f : FileIdx) (i : InodeIdx) (W : List UInt8) (len : ℕ) (base : List Word) (r : ℤ) (k : Kernel) : Prop :=
  r = len ∧ Stored k₀ f i W k ∧ (k.icache i).lock = none ∧ Within base k.log.lh ∧ OneMapBlock k

/-- The program that a process is at, by its place; `W` is what has been written, with the
chunk of the section that has begun, and `waiting` the number of those who wait for it. -/
inductive At (pipewrite : Slot → Vm.Frame → List UInt8 → KProg ℤ) (k₀ : Kernel) (f : FileIdx) (i : InodeIdx) (k : Kernel)
    (W : List UInt8) (waiting : ℕ) (p : Slot) (given : Option (List UInt8)) (left : List UInt8) : Place → KProg ℤ → Prop
  | home {r : ℤ} (hleft : left = []) (hr : ∀ src, given = some src → r = src.length) :
      At pipewrite k₀ f i k W waiting p given left .home (.ret r)
  | entry {src : List UInt8} (hgiven : given = some src) (hleft : left = src) :
      At pipewrite k₀ f i k W waiting p given left .entry (filewrite pipewrite p f src)
  | out {src : List UInt8} {turns : ℕ} (hgiven : given = some src) (hne : left ≠ []) (hturns : left.length ≤ turns) :
      At pipewrite k₀ f i k W waiting p given left .out (loop p f i src.length turns left)
  | wait {src : List UInt8} {turns : ℕ} (hgiven : given = some src) (hne : left ≠ []) (hturns : left.length ≤ turns + 1) :
      At pipewrite k₀ f i k W waiting p given left .wait (do
        ilock p i
        let r ← critical p f i (left.take writeMax)
        finish p f i src.length turns (left.take writeMax).length (left.drop writeMax) r)
  | inside {src : List UInt8} {turns len : ℕ} {y : KProg ℤ} {base : List Word} (hgiven : given = some src)
      (hturns : left.length ≤ turns) (hy : ∀ r, y ≠ .ret r)
      (hwp : y.Wp Op.sem (Inside p i base) (Left k₀ f i W len base) k.alone)
      (hroom : base.length + MAXOPBLOCKS * (waiting + 1) ≤ LOGSIZE) :
      At pipewrite k₀ f i k W waiting p given left .inside (y >>= finish p f i src.length turns len left)
  | leave {src : List UInt8} {turns : ℕ} (hgiven : given = some src) (hturns : left.length ≤ turns) :
      At pipewrite k₀ f i k W waiting p given left .leave (endOp >>= fun _ => loop p f i src.length turns left)
  | commit {src : List UInt8} {turns : ℕ} (hgiven : given = some src) (hturns : left.length ≤ turns) :
      At pipewrite k₀ f i k W waiting p given left .commit (do
        log .commit
        log .endCommit
        loop p f i src.length turns left)
  | clean {src : List UInt8} {turns : ℕ} (hgiven : given = some src) (hturns : left.length ≤ turns) :
      At pipewrite k₀ f i k W waiting p given left .clean (do
        log .endCommit
        loop p f i src.length turns left)

section Place
variable {k' : Kernel} {W W' left : List UInt8} {waiting waiting' : ℕ} {p : Slot} {given : Option (List UInt8)}
  {l : Place} {x : KProg ℤ}

/-- The state matters only to the process inside its section. -/
theorem At.transport (h : At pipewrite k₀ f i k W waiting p given left l x)
    (hin : l = .inside → k'.alone = k.alone ∧ W' = W ∧ ∀ base, Within base k.log.lh →
      base.length + MAXOPBLOCKS * (waiting + 1) ≤ LOGSIZE → base.length + MAXOPBLOCKS * (waiting' + 1) ≤ LOGSIZE) :
    At pipewrite k₀ f i k' W' waiting' p given left l x := by
  cases h with
  | home hleft hr => exact .home hleft hr
  | entry hgiven hleft => exact .entry hgiven hleft
  | out hgiven hne hturns => exact .out hgiven hne hturns
  | wait hgiven hne hturns => exact .wait hgiven hne hturns
  | @inside src turns len y base hgiven hturns hy hwp hroom =>
    obtain ⟨halone, rfl, hkeep⟩ := hin rfl
    have hwithin : Within base k.log.lh := by
      cases y with
      | ret r => exact absurd rfl (hy r)
      | op => exact hwp.1.2
    refine .inside hgiven hturns hy ?_ (hkeep _ hwithin hroom)
    rw [halone]
    exact hwp
  | leave hgiven hturns => exact .leave hgiven hturns
  | commit hgiven hturns => exact .commit hgiven hturns
  | clean hgiven hturns => exact .clean hgiven hturns

theorem At.ret (h : At pipewrite k₀ f i k W waiting p given left l (.ret r)) :
    l = .home ∧ left = [] ∧ ∀ src, given = some src → r = src.length := by
  generalize hx : (.ret r : KProg ℤ) = x at h
  cases h with
  | home hleft hr =>
    cases hx
    exact ⟨rfl, hleft, hr⟩
  | @out src turns hgiven hne hturns =>
    cases turns with
    | zero => exact absurd (length_pos_iff.mpr hne) (by omega)
    | succ turns =>
      rw [loop_cons p f i _ turns hne] at hx
      cases hx
  | @inside _ _ _ y _ _ _ hy =>
    cases y with
    | ret r => exact absurd rfl (hy r)
    | op => cases hx
  | _ => cases hx

theorem at_loop (hgiven : given = some src) (hturns : left.length ≤ turns) :
    ∃ l, (l = .out ∨ l = .home) ∧ At pipewrite k₀ f i k W waiting p given left l (loop p f i src.length turns left) := by
  by_cases hnil : left = []
  · refine ⟨.home, .inr rfl, ?_⟩
    rw [hnil, loop_nil]
    refine .home rfl fun src' hsrc => ?_
    rw [hgiven] at hsrc
    rw [Option.some.inj hsrc]
  · exact ⟨.out, .inl rfl, .out hgiven hnil hturns⟩

end Place

/-! ## What holds in every interleaving -/

def waiting (ph : Slot → Place) : ℕ := countThreads (· = .wait) ph

/-- The state while the inode is not locked. -/
structure Rested (k₀ : Kernel) (f : FileIdx) (i : InodeIdx) (W : List UInt8) (waiting : ℕ) (k : Kernel) : Prop where
  stored : Stored k₀ f i W k
  map : OneMapBlock k
  nodup : k.log.lh.Nodup
  room : k.log.lh.length + MAXOPBLOCKS * waiting ≤ LOGSIZE

/-- The header of the log is empty once a commit has cleared it, until the next transaction. -/
structure Books (ph : Slot → Place) (l : Log) : Prop where
  outstanding : l.outstanding = countThreads Place.Open ph
  commits : countThreads Place.Commits ph = if l.committing then 1 else 0
  last : l.committing = true → l.outstanding = 0
  idle : l.outstanding = 0 → l.committing = false → l.lh = []
  cleared : ∀ p, ph p = .clean → l.lh = []
  size : LOGSIZE ≤ l.size

structure Inv (pipewrite : Slot → Vm.Frame → List UInt8 → KProg ℤ) (k₀ : Kernel) (f : FileIdx) (i : InodeIdx) (t : Sections)
    (k : Kernel) (th : Slot → KProg ℤ) (ph : Slot → Place) : Prop where
  place : ∀ p, At pipewrite k₀ f i k t.bytes (waiting ph) p (t.given p) (t.left p) (ph p) (th p)
  total : t.bytes.length + ∑ p, (t.left p).length = t.total
  file : ∃ off, k.ftable f = { k₀.ftable f with off := off }
  lock : ∀ p, (k.icache i).lock = some p ↔ ph p = .inside
  rest : (k.icache i).lock = none → Rested k₀ f i t.bytes (waiting ph) k
  books : Books ph k.log

section Books
variable {ph : Slot → Place} {p : Slot} {l : Place} {lg : Log} {P : Place → Prop}

theorem count_same [DecidablePred P] (h : P l ↔ P (ph p)) :
    countThreads P (update ph p l) = countThreads P ph := by
  have hcount := countThreads_update P ph p l
  simp only [h] at hcount
  omega

theorem count_more [DecidablePred P] (hp : ¬ P (ph p)) (hl : P l) :
    countThreads P (update ph p l) = countThreads P ph + 1 := by
  have hcount := countThreads_update P ph p l
  rw [if_neg hp, if_pos hl] at hcount
  omega

theorem count_less [DecidablePred P] (hp : P (ph p)) (hl : ¬ P l) :
    countThreads P (update ph p l) + 1 = countThreads P ph := by
  have hcount := countThreads_update P ph p l
  rw [if_pos hp, if_neg hl] at hcount
  omega

theorem waiting_le_open (ph : Slot → Place) : waiting ph ≤ countThreads Place.Open ph := by
  refine countThreads_le (fun l hl => ?_) ph
  subst hl
  trivial

theorem waiting_lt_open (hq : ph q = .inside) : waiting ph < countThreads Place.Open ph := by
  refine countThreads_lt (i := q) (fun l hl => ?_) ?_ ?_
  · subst hl
    trivial
  · rw [hq]
    trivial
  · rw [hq]
    decide

namespace Books

section
variable (h : Books ph lg)
include h

theorem one_le (hp : (ph p).Open) : 1 ≤ lg.outstanding := by
  rw [h.outstanding]
  exact_mod_cast countThreads_pos _ hp

theorem not_committing (hp : (ph p).Open) : lg.committing = false := by
  cases hc : lg.committing with
  | false => rfl
  | true => exact absurd (h.last hc) (by have := h.one_le hp; omega)

/-- While a process commits no transaction is open. -/
theorem committing (hp : (ph p).Commits) : lg.committing = true := by
  cases hc : lg.committing with
  | true => rfl
  | false =>
    have hcommits := h.commits
    rw [hc] at hcommits
    exact absurd (countThreads_pos _ hp) (by simp [hcommits])

theorem not_open (hp : (ph p).Commits) (q : Slot) : ¬ (ph q).Open := by
  intro hq
  exact absurd (h.committing hp) (by rw [h.not_committing hq]; decide)

/-- A step outside of the log, which may add to the header while a transaction is open. -/
theorem work (hopen : l.Open ↔ (ph p).Open) (hcommits : l.Commits ↔ (ph p).Commits) (hclean : l ≠ .clean)
    (hlh : lh = lg.lh ∨ (ph p).Open) : Books (update ph p l) { lg with lh := lh } where
  outstanding := by rw [count_same hopen, h.outstanding]
  commits := by rw [count_same hcommits, h.commits]
  last := h.last
  idle hout hc := by
    rcases hlh with rfl | hp
    · exact h.idle hout hc
    · exact absurd (h.one_le hp) (by dsimp only at hout; omega)
  cleared q hq := by
    have hqp : q ≠ p := by
      rintro rfl
      rw [update_self] at hq
      exact hclean hq
    rw [update_of_ne hqp] at hq
    rcases hlh with rfl | hp
    · exact h.cleared q hq
    · exact absurd hp (h.not_open (p := q) (by rw [hq]; trivial) p)
  size := h.size

theorem quiet (hopen : l.Open ↔ (ph p).Open) (hcommits : l.Commits ↔ (ph p).Commits) (hclean : l ≠ .clean) :
    Books (update ph p l) lg := h.work hopen hcommits hclean (.inl rfl)

theorem «begin» (hp : ph p = .out) (hc : lg.committing = false) :
    Books (update ph p .wait) { lg with outstanding := lg.outstanding + 1 } where
  outstanding := by
    rw [count_more (by rw [hp]; exact id) trivial, h.outstanding]
    rfl
  commits := by rw [count_same (by rw [hp]; exact .rfl), h.commits]
  last hcommit := by rw [hc] at hcommit; cases hcommit
  idle hout _ := by
    have hcount := h.outstanding
    dsimp only at hout
    omega
  cleared q hq := by
    have hqp : q ≠ p := by
      rintro rfl
      rw [update_self] at hq
      cases hq
    rw [update_of_ne hqp] at hq
    exact h.cleared q hq
  size := h.size

theorem «end» (hp : ph p = .leave) (hc : c = true ↔ lg.outstanding = 1)
    (hl : if c then l = .commit else l = .out ∨ l = .home) :
    Books (update ph p l) { lg with outstanding := lg.outstanding - 1, committing := c } := by
  have hopen : (ph p).Open := by
    rw [hp]
    trivial
  have hone := h.one_le hopen
  have hnone : countThreads Place.Commits ph = 0 := by rw [h.commits, h.not_committing hopen]; rfl
  have hless : countThreads Place.Open (update ph p l) + 1 = countThreads Place.Open ph := by
    refine count_less hopen ?_
    cases c with
    | true => rw [show l = .commit from hl]; exact id
    | false => rcases hl with rfl | rfl <;> exact id
  refine ⟨?_, ?_, fun hcommit => ?_, fun hout hno => ?_, fun q hq => ?_, h.size⟩
  · have hcount := h.outstanding
    dsimp only
    omega
  · cases c with
    | true =>
      rw [show l = .commit from hl, count_more (by rw [hp]; exact id) trivial, hnone]
      rfl
    | false =>
      rw [count_same (by rw [hp]; rcases hl with rfl | rfl <;> exact .rfl), hnone]
      rfl
  · have hlast := hc.mp hcommit
    dsimp only
    omega
  · have hlast : c = true := hc.mpr (by dsimp only at hout; omega)
    rw [show c = false from hno] at hlast
    cases hlast
  · have hqp : q ≠ p := by
      rintro rfl
      rw [update_self] at hq
      cases c with
      | true => rw [show l = .commit from hl] at hq; cases hq
      | false => rcases hl with rfl | rfl <;> cases hq
    rw [update_of_ne hqp] at hq
    exact h.cleared q hq

theorem commit (hp : ph p = .commit) : Books (update ph p .clean) { lg with lh := [] } where
  outstanding := by rw [count_same (by rw [hp]; exact .rfl), h.outstanding]
  commits := by rw [count_same (by rw [hp]; exact .rfl), h.commits]
  last := h.last
  idle _ _ := rfl
  cleared _ _ := rfl
  size := h.size

theorem endCommit (hp : ph p = .clean) (hl : l = .out ∨ l = .home) :
    Books (update ph p l) { lg with committing := false } := by
  have hcommits : (ph p).Commits := by
    rw [hp]
    trivial
  have hless : countThreads Place.Commits (update ph p l) + 1 = countThreads Place.Commits ph :=
    count_less hcommits (by rcases hl with rfl | rfl <;> exact id)
  rw [h.commits, h.committing hcommits] at hless
  have hlh := h.cleared p hp
  refine ⟨?_, ?_, fun hc => (by cases hc), fun _ _ => hlh, fun _ _ => hlh, h.size⟩
  · rw [count_same (by rw [hp]; rcases hl with rfl | rfl <;> exact .rfl), h.outstanding]
  · exact Nat.succ.inj hless

end

end Books
end Books

section Steps
variable {t t' : Sections} {k' : Kernel} {th : Slot → KProg ℤ} {ph : Slot → Place} {p : Slot} {l : Place} {x : KProg ℤ}

/-- One process goes on, and the others stay where they are. -/
theorem Inv.places (h : Inv pipewrite k₀ f i t k th ph)
    (hp : At pipewrite k₀ f i k' t'.bytes (waiting (update ph p l)) p (t'.given p) (t'.left p) l x)
    (hsame : ∀ q, q ≠ p → t'.given q = t.given q ∧ t'.left q = t.left q)
    (hin : ∀ q, q ≠ p → ph q = .inside → k'.alone = k.alone ∧ t'.bytes = t.bytes ∧ ∀ base, Within base k.log.lh →
      base.length + MAXOPBLOCKS * (waiting ph + 1) ≤ LOGSIZE →
      base.length + MAXOPBLOCKS * (waiting (update ph p l) + 1) ≤ LOGSIZE) (q : Slot) :
    At pipewrite k₀ f i k' t'.bytes (waiting (update ph p l)) q (t'.given q) (t'.left q)
      (update ph p l q) (update th p x q) := by
  by_cases hq : q = p
  · subst hq
    rw [update_self, update_self]
    exact hp
  · rw [update_of_ne hq, update_of_ne hq, (hsame q hq).1, (hsame q hq).2]
    exact (h.place q).transport fun hl => hin q hq hl

/-- A place at which the process neither waits for the inode nor has it. -/
def Place.Away (l : Place) : Prop := l ≠ .wait ∧ l ≠ .inside

theorem waiting_same (hp : ph p ≠ .wait) (hl : l ≠ .wait) : waiting (update ph p l) = waiting ph :=
  count_same (P := (· = .wait)) (iff_of_false hl hp)

theorem inside_same (hp : ph p ≠ .inside) (hl : l ≠ .inside) (q : Slot) :
    update ph p l q = .inside ↔ ph q = .inside := by
  by_cases hq : q = p
  · subst hq
    rw [update_self]
    exact iff_of_false hl hp
  · rw [update_of_ne hq]

/-- A step that leaves the inodes, the open file and the header of the log alone, between
places where the process has nothing to do with the inode. -/
theorem Inv.aside (h : Inv pipewrite k₀ f i t k th ph) (t' : Sections) (lg : Log) (hp : (ph p).Away) (hl : l.Away)
    (hbytes : t'.bytes = t.bytes) (hsame : ∀ q, q ≠ p → t'.given q = t.given q ∧ t'.left q = t.left q)
    (hplace : At pipewrite k₀ f i k t.bytes (waiting ph) p (t'.given p) (t'.left p) l x)
    (htotal : t'.bytes.length + ∑ p, (t'.left p).length = t'.total)
    (hlog : lg.lh = k.log.lh ∨ lg.lh = []) (hin : ∀ q, ph q = .inside → { lg with outstanding := 1 } = { k.log with outstanding := 1 })
    (hbooks : Books (update ph p l) lg) :
    Inv pipewrite k₀ f i t' { k with log := lg } (update th p x) (update ph p l) where
  place := by
    have hwait := waiting_same hp.1 hl.1
    refine h.places ?_ hsame fun q _ hq => ⟨?_, hbytes, ?_⟩
    · rw [hbytes, hwait]
      exact hplace.transport fun hl' => absurd hl' hl.2
    · unfold Kernel.alone
      rw [hin q hq]
    · rw [hwait]
      exact fun _ _ hroom => hroom
  total := htotal
  file := h.file
  lock q := (h.lock q).trans (inside_same hp.2 hl.2 q).symm
  rest hlock := by
    have hrest := h.rest hlock
    rw [hbytes, waiting_same hp.1 hl.1]
    refine ⟨hrest.stored.congr (hrest.stored.intact.congr rfl rfl rfl rfl rfl) rfl rfl rfl rfl rfl,
      hrest.map.congr rfl rfl, ?_, ?_⟩
    all_goals
      dsimp only
      rcases hlog with hlog | hlog
      all_goals rw [hlog]
    · exact hrest.nodup
    · exact nodup_nil
    · exact hrest.room
    · have hroom := hrest.room
      rw [length_nil]
      omega
  books := hbooks

theorem Inv.start (h : Inv pipewrite k₀ f i t k th ph) (hp : th p = .ret r) (src : List UInt8) :
    Inv pipewrite k₀ f i (t.next (.start p src)) k (update th p (filewrite pipewrite p f src))
      (update ph p .entry) := by
  have hplace := h.place p
  rw [hp] at hplace
  obtain ⟨hl, hleft, -⟩ := hplace.ret
  refine h.aside (t.next (.start p src)) k.log ?_ ?_ rfl (fun q hq => ?_) ?_ ?_ (.inl rfl) (fun _ _ => rfl) ?_
  · rw [hl]
    exact ⟨by decide, by decide⟩
  · exact ⟨by decide, by decide⟩
  · exact ⟨update_of_ne hq .., update_of_ne hq ..⟩
  · exact .entry (update_self ..) (update_self ..)
  · have hsum := sum_of_ne (f := fun q => (t.left q).length) (g := fun q => ((t.next (.start p src)).left q).length) (p := p)
      fun q hq => congrArg length (update_of_ne hq ..)
    have hself : (t.next (.start p src)).left p = src := update_self ..
    have htotal := h.total
    rw [hleft, hself, length_nil] at hsum
    change t.bytes.length + _ = t.total + src.length
    omega
  · exact h.books.quiet (by rw [hl]; exact .rfl) (by rw [hl]; exact .rfl) (by decide)

variable {src : List UInt8} {u : Unit} {o : Op} {k₁ : Kernel}

theorem Inv.toLoop (h : Inv pipewrite k₀ f i t k th ph) (lg : Log) (hp : (ph p).Away) {turns : ℕ}
    (hgiven : t.given p = some src) (hturns : (t.left p).length ≤ turns) (hlh : lg.lh = k.log.lh)
    (hin : ∀ q, ph q = .inside → { lg with outstanding := 1 } = { k.log with outstanding := 1 })
    (hbooks : ∀ l, l = .out ∨ l = .home → Books (update ph p l) lg) :
    ∃ ph', Inv pipewrite k₀ f i t { k with log := lg } (update th p (loop p f i src.length turns (t.left p))) ph' := by
  obtain ⟨l, hl, hat⟩ : ∃ l, (l = .out ∨ l = .home) ∧ At pipewrite k₀ f i k t.bytes (waiting ph) p (t.given p) (t.left p) l
      (loop p f i src.length turns (t.left p)) := at_loop hgiven hturns
  have haway : l.Away := by
    rcases hl with rfl | rfl
    · exact ⟨by decide, by decide⟩
    · exact ⟨by decide, by decide⟩
  exact ⟨_, h.aside t lg hp haway rfl (fun _ _ => ⟨rfl, rfl⟩) hat h.total (.inl hlh) hin (hbooks l hl)⟩

theorem Inv.entry (h : Inv pipewrite k₀ f i t k th ph) (hopen : Opens (k₀.ftable f) i) (hl : ph p = .entry)
    (hgiven : t.given p = some src) (hleft : t.left p = src) :
    ∃ ph', Inv pipewrite k₀ f i t k (update th p (opened p f pipewrite src (k.ftable f))) ph' := by
  obtain ⟨off, hfile⟩ := h.file
  have hopen' : Opens (k.ftable f) i := by
    rw [hfile]
    exact ⟨hopen.writable, hopen.type, hopen.ip⟩
  rw [opened_inode p f hopen']
  have haway : (ph p).Away := by
    rw [hl]
    exact ⟨by decide, by decide⟩
  have hbooks (l : Place) (hl' : l = .out ∨ l = .home) : Books (update ph p l) k.log := by
    rcases hl' with rfl | rfl <;>
      exact h.books.quiet (by rw [hl]; exact Iff.rfl) (by rw [hl]; exact Iff.rfl) (by decide)
  have hloop := h.toLoop k.log haway hgiven (le_of_eq (congrArg length hleft)) rfl (fun _ _ => rfl) hbooks
  rwa [hleft] at hloop

theorem Inv.begin (h : Inv pipewrite k₀ f i t k th ph) {turns : ℕ} (hl : ph p = .out)
    (hgiven : t.given p = some src) (hne : t.left p ≠ []) (hturns : (t.left p).length ≤ turns + 1)
    (ho : LogOp.beginOp.sem k = .ok (u, k')) : Inv pipewrite k₀ f i t k' (update th p (do
        ilock p i
        let r ← critical p f i ((t.left p).take writeMax)
        finish p f i src.length turns ((t.left p).take writeMax).length ((t.left p).drop writeMax) r))
      (update ph p .wait) := by
  obtain ⟨lg, hlg, rfl⟩ := Kernel.onLog_eq_ok.mp ho
  have hroom := Log.beginOp_room hlg
  obtain ⟨hcommitting, rfl⟩ := Log.beginOp_eq_ok hlg
  have hwait : waiting (update ph p .wait) = waiting ph + 1 :=
    count_more (P := (· = .wait)) (by rw [hl]; decide) rfl
  have hopen := h.books.outstanding
  refine ⟨h.places (.wait hgiven hne hturns) (fun _ _ => ⟨rfl, rfl⟩) fun q _ hq => ⟨rfl, rfl, fun base hbase _ => ?_⟩,
    h.total, h.file, fun q => ?_, fun hlock => ?_, h.books.begin hl hcommitting⟩
  · -- the one inside has its transaction open as well
    have hlt := waiting_lt_open hq
    have hgrown := hbase.grown
    rw [hwait]
    simp only [MAXOPBLOCKS, LOGSIZE] at *
    omega
  · exact (h.lock q).trans (inside_same (by rw [hl]; decide) (by decide) q).symm
  · have hrest := h.rest hlock
    refine ⟨hrest.stored.congr (hrest.stored.intact.congr rfl rfl rfl rfl rfl) rfl rfl rfl rfl rfl,
      hrest.map.congr rfl rfl, hrest.nodup, ?_⟩
    have hle := waiting_le_open ph
    rw [hwait]
    simp only [MAXOPBLOCKS, LOGSIZE] at *
    omega

theorem Stored.locked (h : Stored k₀ f i W k) (ho : FsOp.ilock.sem p i k = .ok (u, k')) :
    Stored k₀ f i W k' ∧ Loaded k' i ∧ (k'.icache i).lock = some p ∧ k'.log = k.log ∧ k'.sb = k.sb ∧ k'.bitmap = k.bitmap ∧
      k'.ftable = k.ftable := by
  have hrun : (ilock p i).run Op.sem k = .ok (u, k') := by
    rw [ilock_run]
    exact ho
  obtain ⟨hmoved, hloaded, -⟩ := (ilock_spec (w := .bfree) h.intact fun hw => by cases hw).run hrun
  have hself : (k'.icache i).ref = (k.icache i).ref ∧ (k'.icache i).inum = (k.icache i).inum ∧ (k'.icache i).lock = some p := by
    obtain ⟨-, -, ⟨-, rfl⟩ | ⟨-, -, rfl⟩⟩ := FsOp.ilock_eq_ok ho
    all_goals simp only [Kernel.copied, Kernel.setInode_self, and_self]
  obtain ⟨href, hinum, hlock⟩ := hself
  obtain ⟨-, -, ⟨-, rfl⟩ | ⟨-, -, rfl⟩⟩ := FsOp.ilock_eq_ok ho
  all_goals exact ⟨h.congr hmoved.intact rfl href hinum rfl rfl, hloaded, hlock, rfl, rfl, rfl, rfl⟩

theorem Inv.lockIn (h : Inv pipewrite k₀ f i t k th ph) (hfit : Fitting k₀ f t.total)
    (hl : ph p = .wait) (hgiven : t.given p = some src) (hne : t.left p ≠ []) (hturns : (t.left p).length ≤ turns + 1)
    (ho : FsOp.ilock.sem p i k = .ok (u, k')) :
    Inv pipewrite k₀ f i (t.next (.exec p (.fs (.ilock p i)) u)) k' (update th p (do
        let r ← critical p f i ((t.left p).take writeMax)
        finish p f i src.length turns ((t.left p).take writeMax).length ((t.left p).drop writeMax) r))
      (update ph p .inside) := by
  obtain ⟨-, hfree, -⟩ := FsOp.ilock_eq_ok ho
  have hrest := h.rest hfree
  obtain ⟨hstored, hloaded, hlock, hlog, hsb, hbitmap, hftable⟩ := hrest.stored.locked ho
  have hnobody (q : Slot) : ph q ≠ .inside := by
    rw [Ne, ← h.lock q, hfree]
    exact fun hq => by cases hq
  have hwait : waiting (update ph p .inside) + 1 = waiting ph :=
    count_less (P := (· = .wait)) hl (by decide)
  have hleft : (t.next (.exec p (.fs (.ilock p i)) u)).left p = (t.left p).drop writeMax := update_self ..
  have hbytes : (t.next (.exec p (.fs (.ilock p i)) u)).bytes = t.bytes ++ (t.left p).take writeMax := by
    change (t.chunks ++ [(p, (t.left p).take writeMax)]).flatMap Prod.snd = _
    rw [flatMap_append, flatMap_singleton]
    rfl
  have hsum := sum_of_ne (f := fun q => (t.left q).length)
    (g := fun q => ((t.next (.exec p (.fs (.ilock p i)) u)).left q).length) (p := p)
    fun q hq => congrArg length (update_of_ne hq ..)
  have htotal := h.total
  rw [hleft, length_drop] at hsum
  have hfit' : Fitting k₀ f (t.bytes ++ (t.left p).take writeMax).length := by
    unfold Fitting at *
    rw [length_append, length_take]
    omega
  refine ⟨h.places ?_ (fun q hq => ⟨rfl, update_of_ne hq ..⟩) fun q _ hq => absurd hq (hnobody q), ?_, ?_,
    fun q => ?_, fun hnone => ?_, ?_⟩
  · rw [hbytes, hleft]
    have hne' : (t.left p).take writeMax ≠ [] := by
      rw [Ne, take_eq_nil_iff, not_or]
      exact ⟨by decide, hne⟩
    have hstored' : Stored k₀ f i t.bytes k'.alone :=
      hstored.congr (hstored.intact.congr rfl rfl rfl rfl rfl) rfl rfl rfl rfl rfl
    have hmap : OneMapBlock k'.alone := hrest.map.congr hsb hbitmap
    have hnodup : k'.alone.log.lh.Nodup := by
      change k'.log.lh.Nodup
      rw [hlog]
      exact hrest.nodup
    have hwp := (critical_stores hstored' hloaded hlock hne' hfit').and
      (critical_header (f := f) hmap hlock hnodup (length_take_le ..))
    refine .inside hgiven ?_ (fun r hr => by cases hr) (hwp.mono fun r k₁ hk1 => ?_) ?_
    · rw [length_drop]
      have hpos := length_pos_iff.mpr hne
      have hmax : 0 < writeMax := by decide
      omega
    · exact ⟨hk1.1.1, hk1.1.2.1, hk1.1.2.2, hk1.2.1, hk1.2.2⟩
    · change k'.log.lh.length + _ ≤ _
      rw [hlog, hwait]
      exact hrest.room
  · rw [hbytes, length_append, length_take]
    change _ = t.total
    omega
  · rw [hftable]
    exact h.file
  · rw [hlock]
    by_cases hq : q = p
    · subst hq
      rw [update_self]
      exact iff_of_true rfl rfl
    · rw [update_of_ne hq]
      exact iff_of_false (fun h => hq (Option.some.inj h).symm) (hnobody q)
  · rw [hlock] at hnone
    cases hnone
  · rw [hlog]
    exact h.books.quiet (by rw [hl]; exact Iff.rfl) (by rw [hl]; exact Iff.rfl) (by decide)

/-- What an operation of a critical section does to the rest of the state. -/
structure Worked (f : FileIdx) (k k' : Kernel) : Prop where
  log : k'.log = { k.log with lh := k'.log.lh }
  file : ∃ off, k'.ftable f = { k.ftable f with off := off }

theorem fs_worked {o : FsOp} {b : o.Ans} (ho : o.sem k = .ok (b, k')) : Worked f k k' := by
  have hlog := FsBlind.sem (f := fun k => { k.log with lh := [] }) (by constructor <;> intros <;> rfl) o k b k' ho
  have hfile := FsBlind.sem (f := fun k => k.ftable f) (by constructor <;> intros <;> rfl) o k b k' ho
  refine ⟨?_, (k.ftable f).off, hfile⟩
  simp only [Log.mk.injEq, and_true] at hlog
  obtain ⟨hsize, hout, hc⟩ := hlog
  simp only [← hsize, ← hout, ← hc]

theorem works_worked {b : o.Ans} (h : Works p i k₁ o) (ho : o.sem k = .ok (b, k')) : Worked f k k' := by
  cases h with
  | filler h =>
    cases h with
    | fills => exact fs_worked ho
    | full => cases ho
  | unlock => exact fs_worked (o := .iunlock p i) ho
  | file =>
    cases ho
    exact ⟨rfl, _, rfl⟩
  | setOff g off =>
    cases ho
    refine ⟨rfl, if g = f then off else (k.ftable f).off, ?_⟩
    change update k.ftable g _ f = _
    by_cases hg : g = f
    · subst hg
      rw [update_self, if_pos rfl]
    · rw [update_of_ne (Ne.symm hg), if_neg hg]

theorem works_alone (h : Works p i k₁ o) (hk : k.InTransaction) (ho : o.sem k = .ok (b, k')) :
    o.sem k.alone = .ok (b, k'.alone) := by
  cases h with
  | filler h =>
    cases h with
    | fills => exact (FsOp.unaware _ k b k' hk ho).1
    | full => cases ho
  | unlock => exact (FsOp.unaware (.iunlock p i) k b k' hk ho).1
  | file | setOff =>
    cases ho
    rfl

theorem next_of_works (h : Works p i k₁ o) (b : o.Ans) : t.next (.exec p o b) = t := by
  cases h with
  | filler h =>
    cases h with
    | @fills o h =>
      cases o with
      | ilock => exact h.elim
      | _ => rfl
    | full => exact b.elim
  | unlock | file | setOff => rfl

section
variable (h : Inv pipewrite k₀ f i t k th ph)
include h

theorem Inv.inner (hp : ph p = .inside) (hk : Worked f k k') (hl : l = .inside ∨ l = .leave)
    (hplace : At pipewrite k₀ f i k' t.bytes (waiting ph) p (t.given p) (t.left p) l x)
    (hlock : (k'.icache i).lock = if l = .inside then some p else none)
    (hrest : l = .leave → Rested k₀ f i t.bytes (waiting ph) k') :
    Inv pipewrite k₀ f i t k' (update th p x) (update ph p l) := by
  have hother (q : Slot) (hq : q ≠ p) : ph q ≠ .inside := by
    intro hin
    have hlocked := (h.lock p).mpr hp
    rw [(h.lock q).mpr hin] at hlocked
    exact hq (Option.some.inj hlocked)
  have hwait : waiting (update ph p l) = waiting ph :=
    waiting_same (by rw [hp]; decide) (by rcases hl with rfl | rfl <;> decide)
  obtain ⟨off, hfile⟩ := h.file
  obtain ⟨off', hfile'⟩ := hk.file
  refine ⟨h.places ?_ (fun _ _ => ⟨rfl, rfl⟩) fun q hq hin => absurd hin (hother q hq), h.total, ⟨off', ?_⟩, fun q => ?_,
    fun hnone => ?_, ?_⟩
  · rw [hwait]
    exact hplace
  · rw [hfile', hfile]
  · rw [hlock]
    by_cases hq : q = p
    · subst hq
      rw [update_self, ite_eq_left_iff]
      exact ⟨fun himp => of_not_not fun hne => (by cases himp hne), fun heq hne => absurd heq hne⟩
    · rw [update_of_ne hq]
      refine iff_of_false (fun heq => ?_) (hother q hq)
      split at heq
      · exact hq (Option.some.inj heq).symm
      · cases heq
  · rw [hwait]
    refine hrest (hl.resolve_left fun hin => ?_)
    rw [hlock, if_pos hin] at hnone
    cases hnone
  · have hopen : (ph p).Open := by
      rw [hp]
      trivial
    have hopen' : l.Open ↔ (ph p).Open := iff_of_true (by rcases hl with rfl | rfl <;> trivial) hopen
    have hcommits : l.Commits ↔ (ph p).Commits :=
      iff_of_false (by rcases hl with rfl | rfl <;> exact id) (by rw [hp]; exact id)
    rw [hk.log]
    exact h.books.work hopen' hcommits (by rcases hl with rfl | rfl <;> decide) (.inr hopen)

theorem Inv.work
    {g : o.Ans → KProg ℤ} (hp : ph p = .inside) (hgiven : t.given p = some src) (hturns : (t.left p).length ≤ turns)
    (hwp : (Prog.op o g).Wp Op.sem (Inside p i base) (Left k₀ f i t.bytes len base) k.alone)
    (hroom : base.length + MAXOPBLOCKS * (waiting ph + 1) ≤ LOGSIZE) (ho : o.sem k = .ok (b, k')) :
    ∃ ph', Inv pipewrite k₀ f i (t.next (.exec p o b)) k'
      (update th p (g b >>= finish p f i src.length turns len (t.left p))) ph' := by
  obtain ⟨⟨⟨-, hworks⟩, -⟩, hnext⟩ := hwp
  have htrans : k.InTransaction := h.books.one_le (p := p) (by rw [hp]; trivial)
  have hworked : Worked f k k' := works_worked hworks ho
  have hwp' := hnext b k'.alone (works_alone hworks htrans ho)
  rw [next_of_works hworks]
  cases hy : g b with
  | ret =>
    rw [hy] at hwp'
    obtain ⟨rfl, hstored, hlock, hwithin, hmap⟩ := hwp'
    refine ⟨_, h.inner (l := .leave) hp hworked (.inr rfl) ?_ hlock fun _ => ⟨?_, hmap.congr rfl rfl, hwithin.nodup, ?_⟩⟩
    · have hall : (.ret (len : ℤ) >>= finish p f i src.length turns len (t.left p)) =
          (endOp >>= fun _ => loop p f i src.length turns (t.left p)) := finish_of_all ..
      rw [hall]
      exact .leave hgiven hturns
    · exact hstored.congr (hstored.intact.congr rfl rfl rfl rfl rfl) rfl rfl rfl rfl rfl
    · have hle : k'.log.lh.length + min 3 base.length ≤ base.length + MAXOPBLOCKS := hwithin.within
      simp only [MAXOPBLOCKS, LOGSIZE] at *
      omega
  | op =>
    rw [hy] at hwp'
    exact ⟨_, h.inner (l := .inside) hp hworked (.inl rfl) (.inside hgiven hturns (fun r hr => by cases hr) hwp' hroom)
      hwp'.1.1.1.lock fun hl => by cases hl⟩

theorem Inv.end {turns : ℕ} {c : Bool} (hp : ph p = .leave)
    (hgiven : t.given p = some src) (hturns : (t.left p).length ≤ turns) (ho : LogOp.endOp.sem k = .ok (c, k')) :
    ∃ ph', Inv pipewrite k₀ f i t k' (update th p (do
      if c then
        log .commit
        log .endCommit
      loop p f i src.length turns (t.left p))) ph' := by
  obtain ⟨lg, hlg, rfl⟩ := Kernel.onLog_eq_ok.mp ho
  obtain ⟨hcommitting, hlast, rfl⟩ := Log.endOp_eq_ok hlg
  have haway : (ph p).Away := by
    rw [hp]
    exact ⟨by decide, by decide⟩
  cases c with
  | true =>
    have hbooks := h.books.end (l := .commit) hp hlast rfl
    have hnobody (q : Slot) (hq : ph q = .inside) : False := by
      refine hbooks.not_open (p := p) (by rw [update_self]; trivial) q ?_
      rw [update_of_ne (fun heq => by subst heq; rw [hp] at hq; cases hq), hq]
      trivial
    exact ⟨_, h.aside t _ haway ⟨by decide, by decide⟩ rfl (fun _ _ => ⟨rfl, rfl⟩) (.commit hgiven hturns) h.total
      (.inl rfl) (fun q hq => (hnobody q hq).elim) hbooks⟩
  | false =>
    refine h.toLoop _ haway hgiven hturns rfl (fun q hq => ?_) fun l hl => h.books.end hp hlast hl
    simp only [hcommitting]

theorem Inv.commit {turns : ℕ} (hp : ph p = .commit)
    (hgiven : t.given p = some src) (hturns : (t.left p).length ≤ turns) (ho : LogOp.commit.sem k = .ok (u, k')) :
    Inv pipewrite k₀ f i t k' (update th p (do
      log .endCommit
      loop p f i src.length turns (t.left p))) (update ph p .clean) := by
  cases ho
  have haway : (ph p).Away := by
    rw [hp]
    exact ⟨by decide, by decide⟩
  refine h.aside t _ haway ⟨by decide, by decide⟩ rfl (fun _ _ => ⟨rfl, rfl⟩) (.clean hgiven hturns) h.total (.inr rfl)
    (fun q hq => ?_) (h.books.commit hp)
  have hopen := h.books.not_open (p := p) (by rw [hp]; trivial) q
  rw [hq] at hopen
  exact absurd trivial hopen

theorem Inv.endCommit (hp : ph p = .clean)
    (hgiven : t.given p = some src) (hturns : (t.left p).length ≤ turns) (ho : LogOp.endCommit.sem k = .ok (u, k')) :
    ∃ ph', Inv pipewrite k₀ f i t k' (update th p (loop p f i src.length turns (t.left p))) ph' := by
  cases ho
  have haway : (ph p).Away := by
    rw [hp]
    exact ⟨by decide, by decide⟩
  refine h.toLoop _ haway hgiven hturns rfl (fun q hq => ?_) fun l hl => h.books.endCommit hp hl
  have hopen := h.books.not_open (p := p) (by rw [hp]; trivial) q
  rw [hq] at hopen
  exact absurd trivial hopen

theorem Inv.exec (hopen : Opens (k₀.ftable f) i) (hfit : Fitting k₀ f t.total)
    {g : o.Ans → KProg ℤ} (hp : th p = .op o g) (ho : o.sem k = .ok (b, k')) :
    ∃ ph', Inv pipewrite k₀ f i (t.next (.exec p o b)) k' (update th p (g b)) ph' := by
  have hplace := h.place p
  generalize hl : ph p = l at hplace
  generalize hx : th p = x at hplace
  rw [hp] at hx
  cases hplace with
  | home => cases hx
  | entry hgiven hleft =>
    cases hx
    cases ho
    exact h.entry hopen hl hgiven hleft
  | @out src turns hgiven hne hturns =>
    cases turns with
    | zero => exact absurd (length_pos_iff.mpr hne) (by omega)
    | succ turns =>
      rw [loop_cons p f i _ turns hne] at hx
      cases hx
      exact ⟨_, h.begin hl hgiven hne hturns ho⟩
  | wait hgiven hne hturns =>
    cases hx
    exact ⟨_, h.lockIn hfit hl hgiven hne hturns ho⟩
  | @inside src turns len y base hgiven hturns hy hwp hroom =>
    cases y with
    | ret r => exact absurd rfl (hy r)
    | op =>
      cases hx
      exact h.work hl hgiven hturns hwp hroom ho
  | leave hgiven hturns =>
    cases hx
    have hend := h.end hl hgiven hturns ho
    cases b with
    | true | false => exact hend
  | commit hgiven hturns =>
    cases hx
    exact ⟨_, h.commit hl hgiven hturns ho⟩
  | clean hgiven hturns =>
    cases hx
    exact h.endCommit hl hgiven hturns ho

end

end Steps
end Xv6.Write
