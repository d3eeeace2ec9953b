import Xv6.Fs.Small
import Xv6.Proc.Arguments
import Xv6.Proc.Limit

/-! # What `exec` and `exec2` come to

Both find the file, load it and push the arguments; they differ in what they test before and
in the size of the stack.
-/
namespace Xv6.Sys
open Prog Fs Comp CStr Op
open KProg hiding panic
open Vm (Frame Phys Pgdir Space Account Touches PGSIZE userPage)

inductive Loader
  | exec
  | exec2 (stacksize : Word)

variable {l : Loader} {pg : Pgdir} {r : ℤ}

namespace Loader

def body (p : Slot) (path : CStr) (argv : List CStr) : Loader → KProg ℤ
  | exec => Sys.exec p path argv
  | exec2 stacksize => Sys.exec2 p path argv stacksize

def stack : Loader → ℕ
  | exec => 1
  | exec2 stacksize => stacksize.toNat

def pages : Loader → Word
  | exec => 2
  | exec2 stacksize => 1 + stacksize

theorem pages_toNat (h : l.stack ≤ 100) : l.pages.toNat = l.stack + 1 := by
  cases l with
  | exec => rfl
  | exec2 =>
    simp only [stack, pages] at *
    bv_omega

theorem stack_of_tested (h : ¬ (stacksize.toInt < 1 ∨ stacksize.toInt > 100)) :
    1 ≤ (exec2 stacksize).stack ∧ (exec2 stacksize).stack ≤ 100 := by
  rw [BitVec.toInt_eq_toNat_cond] at h
  simp only [stack]
  split at h <;> omega

end Loader

def atPath (p : Slot) (path : CStr) (f : InodeIdx → KProg ℤ) : KProg ℤ := do
  match ← namei p path with
  | none => fail (pure ())
  | some ip =>
    ilock p ip
    f ip

section Find
variable {p : Slot} {path : CStr} {i : InodeIdx} {k k' : Kernel}

def FileProgram (k : Kernel) (p : Slot) (path : CStr) (entry : Word) (image : Mem) (base : ℕ) : Prop :=
  Intact k → CwdHeld k p → ∃ ds t nm, Resolves k p path false ds t nm ∧ ((k.dinode t).type ≠ .dev →
    IsProgram (k.dinode t).size ((k.dinode t).contents k.block) entry image base)

/-- Entry `i` is locked, for the file of the path in the state before. -/
def Found (k : Kernel) (p : Slot) (path : CStr) (i : InodeIdx) (k' : Kernel) : Prop :=
  inner k' = inner k ∧ (Intact k → CwdHeld k p → ∃ ds t nm, Resolves k p path false ds t nm ∧
    (k'.icache i).d = k.dinode t ∧ ((k.dinode t).type ≠ .dev →
      Readable k' i ∧ fileOf k' i = (k.dinode t).contents k.block))

theorem beginOp_wp : beginOp.Wp semChecked Steady (fun _ k' => ∃ l, k' = { k with log := l }) k :=
  wp_call trivial fun _ _ hrun => (Kernel.onLog_eq_ok.mp hrun).imp fun _ hl => hl.2

theorem namei_wp : (namei p path).Wp semChecked Steady (fun r k' => inner k' = inner k ∧
    ∀ j, r = some j → Intact k → CwdHeld k p → Moved k 0 k' {j} ∧ ∃ ds t nm, Refers k' j t ∧
      Resolves k p path false ds t nm) k := by
  refine (core_wp (namei_core p path)).and_run.mono fun r k' ⟨hinner, hrun⟩ => ⟨hinner, fun j hr h hcwd => ?_⟩
  subst hr
  have hspec := namei_spec (w := .bfree) h hcwd (fun hw => by cases hw) path
  obtain ⟨hmoved, ds, t, nm, ht, hresolves, -⟩ :=
    (hspec.transfer (namei_core p path) fun _ ho => (outer_of_core ho).steady).run hrun
  exact ⟨hmoved, ds, t, nm, ht, hresolves⟩

theorem ilock_wp : (ilock p i).Wp semChecked Steady (fun _ k' => inner k' = inner k ∧
    (Intact k → Moved k 0 k' 0 ∧ Loaded k' i ∧ (k'.icache i).d = k.dinode (k.icache i).inum)) k := by
  refine (core_wp (ilock_core p i)).and_run.mono fun _ k' ⟨hinner, hrun⟩ => ⟨hinner, fun h => ?_⟩
  have hspec := ilock_spec (w := .bfree) (p := p) (i := i) h (fun hw => by cases hw)
  exact (hspec.transfer (ilock_core p i) fun _ ho => (outer_of_core ho).steady).run hrun

theorem found_wp : (namei p path).Wp semChecked Steady (fun r k' => inner k' = inner k ∧ ∀ j, r = some j →
    (ilock p j).Wp semChecked Steady (fun _ k'' => Found k p path j k'') k') k := by
  refine namei_wp.mono fun r k₁ ⟨hinner1, hr⟩ => ⟨hinner1, fun j hj => ilock_wp.mono fun _ k₂ ⟨hinner2, hlock⟩ => ?_⟩
  refine ⟨hinner2.trans hinner1, fun h hcwd => ?_⟩
  obtain ⟨hmoved1, ds, t, nm, hrefers, hresolves⟩ := hr j hj h hcwd
  obtain ⟨hmoved2, hloaded, hd⟩ := hlock hmoved1.intact
  have hpos : 0 < (k₁.icache j).ref - (0 : Multiset InodeIdx).count j := by simpa using hrefers.1
  have hinum : (k₂.icache j).inum = t := (hmoved2.refers hrefers hpos).2
  obtain ⟨hsync, hlive⟩ := hmoved2.intact.sync j hloaded.1 hloaded.2
  rw [hinum] at hsync
  have hsame2 : Same k₁ k₂ t := hmoved2.same_of_live (hsync ▸ hlive)
  have hsame1 : Same k k₁ t := hmoved1.same_of_live (by rw [← hsame2.1, hsync]; exact hlive)
  have hsame := hsame1.trans hsame2
  have hnode : (k₂.icache j).d = k.dinode t := by rw [← hsync, hsame.1]
  refine ⟨ds, t, nm, hresolves, hnode, fun hdev => ⟨⟨?_, hmoved2.intact.whole_of_loaded hloaded⟩, ?_⟩⟩
  · rw [hnode]
    exact hdev
  · unfold fileOf
    rw [hnode]
    exact hsame.2 (hnode ▸ hlive)

end Find

section Launch
variable {G : Set Frame} {p : Slot} {path : CStr} {argv : List CStr} {i : InodeIdx} {pages : Word} {k₀ k : Kernel}

theorem execInode_wp {program : Word → Mem → ℕ → Prop} (hold : Space G (k₀.pt.proc p).pgdir ∅ k₀.phys)
    (hk : inner k = inner k₀) (hpages : 2 ≤ pages.toNat ∧ pages.toNat ≤ 101)
    (hprogram : ∀ entry image base, (Readable k i → IsProgram (k.icache i).d.size (fileOf k i) entry image base) →
      program entry image base) :
    (execInode p i path argv pages).Wp semChecked Steady (Execed p path argv pages k₀ program) k := by
  have hphys : k.phys = k₀.phys := congrArg Prod.snd hk
  have haccount : Account { f | f ∈ k₀.phys.freelist } (fun _ => none) ∅ k.phys := by
    rw [hphys]
    exact .of_free hold.account.nodup (fun f hf => hold.account.valid f (hold.account.free_mem hf))
      hold.account.lowest
  rw [execInode_eq]
  refine (loadInode_wp (by omega) haccount).bind fun r k₁ ⟨hconf, hres⟩ => ?_
  have hconf := (Confined.of_inner hk).trans hconf
  cases r with
  | none => exact wp_pure (.inl ⟨rfl, hconf⟩)
  | some => exact execArgs_wp hold hconf hres.1 hpages.1 (hprogram _ _ _ hres.2)

theorem fail_wp {program : Word → Mem → ℕ → Prop} (hk : inner k = inner k₀)
    (h : undo.Uses Core) : (fail undo).Wp semChecked Steady (Execed p path argv pages k₀ program) k := by
  refine (core_wp h).bind fun _ k₁ h1 => (outer_wp endOp_outer).bind fun _ k₂ h2 => wp_pure (.inl ⟨rfl, ?_⟩)
  exact .of_inner (h2.trans (h1.trans hk))

theorem atPath_wp {f : InodeIdx → KProg ℤ} {l : Log} (hk : k = { k₀ with log := l })
    (hf : ∀ j k', Found k₀ p path j k' →
      (f j).Wp semChecked Steady (Execed p path argv pages k₀ (FileProgram k₀ p path)) k') :
    (atPath p path f).Wp semChecked Steady (Execed p path argv pages k₀ (FileProgram k₀ p path)) k := by
  subst hk
  refine found_wp.bind fun r k₁ ⟨hinner, hr⟩ => ?_
  cases r with
  | none => exact fail_wp hinner (uses_pure _)
  | some j =>
    refine (hr j rfl).bind fun _ k₂ ⟨hinner2, hfound⟩ => hf j k₂ ⟨hinner2, fun h hcwd => ?_⟩
    have hlog : Moved k₀ 0 { k₀ with log := l } 0 := .of_cache (h.of_cache rfl rfl rfl rfl h.unique h.sync)
      rfl rfl rfl (fun _ => rfl) fun _ _ => ⟨rfl, id⟩
    obtain ⟨ds, t, nm, ⟨x, hx, hwalks⟩, hrest⟩ := hfound hlog.intact hcwd
    exact ⟨ds, t, nm, ⟨x, hx, hlog.walks hwalks⟩, hrest⟩

theorem Found.program (h : Found k₀ p path i k) (entry : Word) (image : Mem) (base : ℕ)
    (hprogram : Readable k i → IsProgram (k.icache i).d.size (fileOf k i) entry image base) :
    FileProgram k₀ p path entry image base := by
  intro hintact hcwd
  obtain ⟨ds, t, nm, hresolves, hd, hread⟩ := h.2 hintact hcwd
  refine ⟨ds, t, nm, hresolves, fun hdev => ?_⟩
  obtain ⟨hreadable, hfile⟩ := hread hdev
  have hprog := hprogram hreadable
  rwa [hd, hfile] at hprog

theorem Loader.wp (l : Loader) (path : CStr) (argv : List CStr) (hold : Space G (k.pt.proc p).pgdir ∅ k.phys) :
    (l.body p path argv).Wp semChecked Steady (Execed p path argv l.pages k (FileProgram k p path)) k := by
  cases l with
  | exec =>
    refine beginOp_wp.bind fun _ k₁ ⟨l, hk1⟩ => atPath_wp hk1 fun j k₂ hfound => ?_
    refine wp_call_bind trivial fun (granted : Bool) k3 haccess => ?_
    cases haccess
    refine wp_ite (fun _ => fail_wp hfound.1 (iunlockput_core p j)) fun _ => ?_
    exact execInode_wp hold hfound.1 (by decide) hfound.program
  | exec2 =>
    refine beginOp_wp.bind fun _ k₁ ⟨l, hk1⟩ => wp_call_bind trivial fun (pr : Proc) k₂ hproc => ?_
    cases hproc
    have hinner : inner k₁ = inner k := by rw [hk1]; rfl
    refine wp_ite (fun _ => fail_wp hinner (uses_pure _)) fun _ => wp_ite (fun _ => fail_wp hinner (uses_pure _)) fun hsize => ?_
    obtain ⟨hlow, hhigh⟩ := Loader.stack_of_tested hsize
    have hpages := Loader.pages_toNat hhigh
    exact atPath_wp hk1 fun j k₂ hfound => execInode_wp hold hfound.1 (by omega) hfound.program

end Launch

/-! A kernel on which a program is run below. -/
section Example

def fourBytes : List UInt8 :=
  wordBytes ELF_MAGIC ++ List.replicate 24 0 ++ wordBytes SIZEOF_ELFHDR ++ List.replicate 12 0 ++ halfwordBytes 1 ++
    List.replicate 6 0 ++ [ELF_PROG_LOAD, 84, 0, 0, 4, 8, 0, 0].flatMap wordBytes ++ [1, 2, 3, 4]

/-- An administrator with one file, the program `/f` of the given mode. -/
def oneProgram (mode : Word) : Kernel :=
  { smallProgram with
    sb := ⟨10, 0, 0, 2⟩
    bitmap := fun b => b < 3 || b == 5 || b == 6
    dinode := fun inum =>
      if inum = ROOTINO then Dinode.oneBlock { type := .dir, nlink := 1, size := 16, userid := root, mode := MODE_XUSR } 5
      else if inum = 2 then Dinode.oneBlock { type := .file, nlink := 1, size := 88, userid := root, mode := mode } 6
      else {}
    block := fun b a => if b = 5 then (direntBytes 2 [102]).getD a 0 else fourBytes.getD a 0 }

theorem oneProgram_live (h : ((oneProgram mode).dinode j).type ≠ .free) : j = 1 ∨ j = 2 := by
  by_contra hno
  push Not at hno
  simp [oneProgram, ROOTINO, hno] at h

theorem oneProgram_no_dev (mode : Word) (j : ℕ) : ((oneProgram mode).dinode j).type ≠ .dev := by
  by_cases h : ((oneProgram mode).dinode j).type = .free
  · rw [h]
    simp
  · rcases oneProgram_live h with rfl | rfl <;> simp [oneProgram, ROOTINO, Dinode.oneBlock]

theorem oneProgram_small (mode : Word) : Small (oneProgram mode) fun j => if j = 1 then 5 else 6 where
  node j h := by
    rcases oneProgram_live h with rfl | rfl
    · exact ⟨_, rfl⟩
    · exact ⟨_, rfl⟩
  size j h := by
    rcases oneProgram_live h with rfl | rfl
    · exact (by decide : (16#32).toNat ≤ BSIZE)
    · exact (by decide : (88#32).toNat ≤ BSIZE)
  pos j h := by rcases oneProgram_live h with rfl | rfl <;> simp
  inj i j hi hj := by rcases oneProgram_live hi with rfl | rfl <;> rcases oneProgram_live hj with rfl | rfl <;> simp
  apart j h := by
    rcases oneProgram_live h with rfl | rfl
    · exact (by decide : ¬ (5 < 10 ∧ 5 < 2 + 10 / BPB + 1))
    · exact (by decide : ¬ (6 < 10 ∧ 6 < 2 + 10 / BPB + 1))
  used b := by
    have hmeta : b ∈ metaBlocks (oneProgram mode).sb ↔ b < 3 := by
      change b < 10 ∧ b < 2 + 10 / BPB + 1 ↔ b < 3
      rw [show 10 / BPB = 0 from rfl]
      omega
    have hused : b ∈ usedBlocks (oneProgram mode) ↔ b < 3 ∨ b = 5 ∨ b = 6 := by
      change b < 10 ∧ (b < 3 || b == 5 || b == 6) = true ↔ _
      simp only [Bool.or_eq_true, decide_eq_true_eq, beq_iff_eq]
      omega
    rw [hmeta, hused]
    refine or_congr_right ⟨?_, ?_⟩
    · rintro (rfl | rfl)
      · exact ⟨1, by simp [oneProgram, ROOTINO, Dinode.oneBlock], rfl⟩
      · exact ⟨2, by simp [oneProgram, ROOTINO, Dinode.oneBlock], rfl⟩
    · rintro ⟨j, h, rfl⟩
      rcases oneProgram_live h with rfl | rfl <;> simp
  disk := (by decide : 10 < 2 ^ 32)

theorem oneProgram_space (mode : Word) : ∃ G, Space G ((oneProgram mode).pt.proc 0).pgdir ∅ (oneProgram mode).phys := by
  have hdir {x : Vm.Place} {f : Frame} (hx : ((oneProgram mode).pt.proc 0).pgdir.frameAt x = some f) :
      x = .dir ∧ f = 90 := by
    cases x with
    | dir => exact ⟨rfl, (Option.some.inj hx).symm⟩
    | _ => cases hx
  refine ⟨_, Space.of_frames (fun x y f hx hy => ?_) (fun x f hx => ?_) List.nodup_range' (fun f hf => ?_)
    Nat.one_pos fun i _ => rfl⟩
  · rw [(hdir hx).1, (hdir hy).1]
  · rw [(hdir hx).2]
    exact (by decide : 90 ∉ (List.range' 1 80 : List ℕ))
  · rcases hf with hf | ⟨x, hx⟩
    · exact (by decide : ∀ f ∈ (List.range' 1 80 : List ℕ), smallProgram.phys.Valid f) f hf
    · rw [(hdir hx).2]
      exact (by decide : smallProgram.phys.Valid 90)

end Example

section Results
variable {G : Set Frame} {p : Slot} {path : CStr} {argv : List CStr} {k : Kernel}

/-- Memory below the stack and its guard page holds the segments of a file, the later over
the earlier, and zeros. -/
structure HoldsProgram (size : Word) (file : Mem) (pr : Proc) (m : Phys) (base : ℕ) : Prop where
  entry : pr.tf.eip = (elfOf size file).entry
  bytes : ∀ a < base, pr.pgdir.User a ∧ pr.pgdir.load m a = some (programImage size file a)
  segments : ∀ ph ∈ programHeaders size file, ph.type = ELF_PROG_LOAD →
    ph.vaddr.toNat + ph.filesz.toNat ≤ base

def pagesOf (k : Kernel) (p : Slot) : ℕ → Option (Vm.Perm × Vm.Page) := userPage (k.pt.proc p).pgdir k.phys

theorem Confined.pagesOf (h : Confined { f | f ∈ k.phys.freelist } k k')
    (hold : Space G (k.pt.proc p).pgdir ∅ k.phys) : pagesOf k' p = pagesOf k p := by
  funext v
  unfold Sys.pagesOf userPage
  rw [h.pt]
  refine Option.map_congr fun e he => ?_
  rw [h.touches.mem _ (hold.frame_mem he).2]

theorem Layout.load_eq (h : Layout pages pg sz) (ha : a < sz.toNat) : pg.load m a = some (pg.image m a) := by
  have hperm := h.perm (a / PGSIZE)
  have haligned := h.aligned
  have hlt : a / PGSIZE < sz.toNat / PGSIZE := by
    simp only [PGSIZE] at *
    omega
  rw [if_pos hlt] at hperm
  obtain ⟨e, he, -⟩ := Option.map_eq_some_iff.mp hperm
  simp [Pgdir.image, Pgdir.load, he]

/-- Loading reaches no panic of `loaduvm`, and every operation on memory returns, so neither
`mappages` nor `clearpteu` panics. A call that fails leaves the process as it was, and one
that succeeds leaves it with the program of the file. -/
theorem loader_atomic (l : Loader) (hold : Space G (k.pt.proc p).pgdir ∅ k.phys) :
    (∀ o t, Reach Op.semChecked (l.body p path argv) k o t → Steady o t) ∧
    ∀ r k', (l.body p path argv).run Op.semChecked k = .ok (r, k') →
      (r = -1 ∧ k'.pt = k.pt ∧ pagesOf k' p = pagesOf k p) ∨
      (r = 0 ∧ (Intact k → CwdHeld k p → ∃ ds t nm, Resolves k p path false ds t nm ∧ ((k.dinode t).type ≠ .dev →
        HoldsProgram (k.dinode t).size ((k.dinode t).contents k.block) (k'.pt.proc p) k'.phys
          ((k'.pt.proc p).sz.toNat - l.pages.toNat * PGSIZE)))) := by
  have hwp := l.wp path argv hold
  refine ⟨fun o t hreach => hwp.reach hreach, fun r k' hrun => ?_⟩
  rcases hwp.run hrun with ⟨hr, hconf⟩ | ⟨hr, pg, sz, entry, esp, image, hpt, hlayout, hprogram, hstarted⟩
  · exact Or.inl ⟨hr, hconf.pt, hconf.pagesOf hold⟩
  · refine Or.inr ⟨hr, fun h hcwd => ?_⟩
    obtain ⟨ds, t, nm, hresolves, hprog⟩ := hprogram h hcwd
    refine ⟨ds, t, nm, hresolves, fun hdev => ?_⟩
    obtain ⟨hentry, himage, hsegments⟩ := hprog hdev
    have hproc : k'.pt.proc p = Proc.start (k.pt.proc p) path pg sz entry esp := by
      rw [hpt, PTable.modify_proc, if_pos rfl]
    have hroom := hlayout.room
    rw [hproc]
    refine ⟨hentry, fun a ha => ?_, hsegments⟩
    simp only [Proc.start] at ha ⊢
    have hbelow : a < stackBase l.pages sz := by
      unfold stackBase
      have hle := Nat.mul_le_mul_right PGSIZE (Nat.sub_le l.pages.toNat 1)
      omega
    have hsz : a < sz.toNat := by omega
    refine ⟨hlayout.user_iff.mpr ⟨hsz, ?_⟩, ?_⟩
    · have haligned := hlayout.aligned
      simp only [PGSIZE] at *
      omega
    · rw [hlayout.load_eq hsz, hstarted.program a hbelow, himage]

theorem loader_atomic_fourBytes : ∃ k' ds t nm, (exec 0 (CStr.ofString "/f") []).run Op.semChecked (oneProgram MODE_XUSR) =
    .ok (0, k') ∧ Resolves (oneProgram MODE_XUSR) 0 (CStr.ofString "/f") false ds t nm ∧
    HoldsProgram ((oneProgram MODE_XUSR).dinode t).size
      (((oneProgram MODE_XUSR).dinode t).contents (oneProgram MODE_XUSR).block) (k'.pt.proc 0) k'.phys
      ((k'.pt.proc 0).sz.toNat - 2 * PGSIZE) := by
  obtain ⟨G, hold⟩ := oneProgram_space MODE_XUSR
  have hzero : ((exec 0 (ofString "/f") []).run semChecked).test (oneProgram MODE_XUSR) (fun r _ => r = 0) = true := by
    decide +kernel
  obtain ⟨r, k', hrun, hr⟩ := test_eq_true hzero
  obtain rfl : r = 0 := of_decide_eq_true hr
  rcases (loader_atomic .exec hold).2 0 k' hrun with ⟨hr, -⟩ | ⟨-, hprogram⟩
  · cases hr
  · obtain ⟨ds, t, nm, hresolves, hholds⟩ := hprogram ((oneProgram_small _).intact fun _ => rfl) fun i hi => by cases hi
    exact ⟨k', ds, t, nm, hrun, hresolves, hholds (oneProgram_no_dev _ t)⟩

/-- The stack of the process: what the program finds there, all of its pages accessible, and
below them one that is mapped but not accessible. -/
structure HasStack (pr : Proc) (m : Phys) (stack : ℕ) (argv : List CStr) : Prop where
  room : (stack + 1) * PGSIZE ≤ pr.sz.toNat
  initial : InitialStack (pr.pgdir.image m) pr.tf.esp (pr.sz.toNat - stack * PGSIZE) pr.sz.toNat argv
  user : ∀ a, pr.sz.toNat - stack * PGSIZE ≤ a → a < pr.sz.toNat → pr.pgdir.User a
  guard : ∃ e, pr.pgdir.lookup (pr.sz.toNat / PGSIZE - stack - 1) = some e ∧ e.perm.u = false

/-- A call that succeeds leaves the arguments on the stack, and where they do not fit into
the pages of the stack it fails. -/
theorem initial_stack (l : Loader) (hstack : l.stack ≤ 100) (hold : Space G (k.pt.proc p).pgdir ∅ k.phys) (r : ℤ)
    (k' : Kernel) (hrun : (l.body p path argv).run Op.semChecked k = .ok (r, k')) :
    (r = 0 → HasStack (k'.pt.proc p) k'.phys l.stack argv) ∧ (l.stack * PGSIZE < stackSpace argv → r = -1) := by
  have hpages := Loader.pages_toNat hstack
  rcases (l.wp path argv hold).run hrun with ⟨hr, -⟩ | ⟨hr, pg, sz, entry, esp, image, hpt, hlayout, -, hstarted⟩
  · subst hr
    exact ⟨fun hzero => absurd hzero (by decide), fun _ => rfl⟩
  have hfits := hstarted.fits
  rw [hpages, Nat.add_sub_cancel] at hfits
  refine ⟨fun _ => ?_, fun hno => by omega⟩
  have hproc : k'.pt.proc p = Proc.start (k.pt.proc p) path pg sz entry esp := by
    rw [hpt, PTable.modify_proc, if_pos rfl]
  rw [hproc]
  have hroom := hlayout.room
  have haligned := hlayout.aligned
  have hinitial := hstarted.stack
  rw [stackBase, hpages, Nat.add_sub_cancel] at hinitial
  rw [hpages] at hroom
  refine ⟨hroom, hinitial, fun a hlow hhigh => ?_, ?_⟩
  · refine hlayout.user_iff.mpr ⟨hhigh, ?_⟩
    rw [hpages]
    simp only [Proc.start, PGSIZE] at *
    omega
  · have hguard := hlayout.perm (sz.toNat / PGSIZE - l.stack - 1)
    have hlt : sz.toNat / PGSIZE - l.stack - 1 < sz.toNat / PGSIZE := by
      simp only [PGSIZE] at *
      omega
    rw [if_pos hlt, hpages, ← Nat.sub_sub] at hguard
    obtain ⟨e, he, hperm⟩ := Option.map_eq_some_iff.mp hguard
    exact ⟨e, he, by simp [hperm]⟩

theorem initial_stack_fourBytes : ∃ k', (exec 0 (CStr.ofString "/f") [CStr.ofString "hello"]).run Op.semChecked
      (oneProgram MODE_XUSR) = .ok (0, k') ∧ HasStack (k'.pt.proc 0) k'.phys 1 [CStr.ofString "hello"] := by
  obtain ⟨G, hold⟩ := oneProgram_space MODE_XUSR
  have hzero : ((exec 0 (ofString "/f") [ofString "hello"]).run semChecked).test (oneProgram MODE_XUSR)
      (fun r _ => r = 0) = true := by decide +kernel
  obtain ⟨r, k', hrun, hr⟩ := test_eq_true hzero
  obtain rfl : r = 0 := of_decide_eq_true hr
  exact ⟨k', hrun, (initial_stack .exec (by decide) hold 0 k' hrun).1 rfl⟩

end Results
/-! ## Where the two agree -/

section Agree
variable {p : Slot} {path : CStr} {argv : List CStr} {k k' : Kernel}

/-- The process sees the same memory and has the same size, registers and name. -/
structure SameImage (p : Slot) (k k' : Kernel) : Prop where
  pages : pagesOf k' p = pagesOf k p
  sz : (k'.pt.proc p).sz = (k.pt.proc p).sz
  eip : (k'.pt.proc p).tf.eip = (k.pt.proc p).tf.eip
  esp : (k'.pt.proc p).tf.esp = (k.pt.proc p).tf.esp
  name : (k'.pt.proc p).name = (k.pt.proc p).name

/-- `exec2` with one page for the stack returns what `exec` returns and leaves the same image. -/
def Agrees (p : Slot) (path : CStr) (argv : List CStr) (k : Kernel) : Prop :=
  ∀ r k₁, (exec p path argv).run Op.sem k = .ok (r, k₁) →
    ∃ k₂, (exec2 p path argv 1).run Op.sem k = .ok (r, k₂) ∧ SameImage p k₁ k₂

end Agree
/-! ## An argument that starts where there is no page table -/

section Null

end Null
end Xv6.Sys
