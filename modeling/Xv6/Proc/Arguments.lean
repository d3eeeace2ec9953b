import Xv6.Lib.Record
import Xv6.Proc.Prepare

/-! # The initial stack

The arguments are pushed downwards, and only the page without user access below the stack
stops them: whatever their lengths, a string that does not fit would have to be stored
through that page, or from an address that wraps into the kernel half.
-/
namespace Xv6.Sys
open Prog Fs List
open KProg hiding panic
open Vm (Frame Phys Pgdir Perm Space Account Touches Sized PGSIZE KERNBASE pageCount pgRoundUp)

def stackBase (pages sz : Word) : ℕ := sz.toNat - (pages.toNat - 1) * PGSIZE

variable {sp esp : Word} {n : ℕ} {addrs : List Word} {argv : List CStr}

section Layout
variable {F : Set Frame} {pages sz : Word} {pg : Pgdir}

theorem Layout.user_iff (h : Layout pages pg sz) :
    pg.User a ↔ a < sz.toNat ∧ a / PGSIZE ≠ sz.toNat / PGSIZE - pages.toNat := by
  have hperm := h.perm (a / PGSIZE)
  have haligned := h.aligned
  have hlt : a / PGSIZE < sz.toNat / PGSIZE ↔ a < sz.toNat := by
    simp only [PGSIZE] at *
    omega
  unfold Pgdir.User
  simp only [hlt] at hperm
  by_cases ha : a < sz.toNat
  · rw [if_pos ha] at hperm
    obtain ⟨e, he, hp⟩ := Option.map_eq_some_iff.mp hperm
    simp [he, hp, ha]
  · rw [if_neg ha] at hperm
    simp [Option.map_eq_none_iff.mp hperm, ha]

theorem toNat_round4 (x : Word) : (x &&& ~~~3#32).toNat = x.toNat / 4 * 4 := by
  have h := Vm.and_not_ones x 2
  rw [show BitVec.ofNat 32 (2 ^ 2 - 1) = 3#32 from rfl] at h
  have hlt := x.isLt
  rw [h, BitVec.toNat_shiftLeft, BitVec.toNat_ushiftRight, Nat.shiftRight_eq_div_pow, Nat.shiftLeft_eq]
  omega

theorem Layout.room_of_user (h : Layout pages pg sz) (hpages : 2 ≤ pages.toNat)
    (hbase : stackBase pages sz ≤ sp.toNat) (hsp : sp.toNat ≤ sz.toNat) (h4 : sp.toNat % 4 = 0) (hn : 0 < n)
    (huser : ∀ i < n, pg.User (((sp - BitVec.ofNat 32 n) &&& ~~~3#32).toNat + i)) :
    ((sp - BitVec.ofNat 32 n) &&& ~~~3#32).toNat + (n + 3) / 4 * 4 = sp.toNat ∧
      stackBase pages sz ≤ ((sp - BitVec.ofNat 32 n) &&& ~~~3#32).toNat := by
  have hfirst := (h.user_iff.mp (huser 0 hn)).1
  have hlast := (h.user_iff.mp (huser (n - 1) (by omega))).1
  have hbelow := h.below
  have hroom := h.room
  have haligned := h.aligned
  rw [toNat_round4, BitVec.toNat_sub, BitVec.toNat_ofNat] at *
  unfold stackBase at *
  -- The difference does not wrap: it would be an address of the kernel half.
  have hle : n ≤ sp.toNat := by
    simp only [KERNBASE] at hbelow
    omega
  have hsub : (2 ^ 32 - n % 2 ^ 32 + sp.toNat) % 2 ^ 32 = sp.toNat - n := by
    simp only [KERNBASE] at hbelow
    omega
  rw [hsub] at *
  refine ⟨by omega, ?_⟩
  by_contra hlow
  -- Four bytes below the stack is the guard page.
  have hguard := h.user_iff.mp (huser (sz.toNat - (pages.toNat - 1) * PGSIZE - 4 - (sp.toNat - n) / 4 * 4) (by
    simp only [PGSIZE] at *
    omega))
  apply hguard.2
  simp only [PGSIZE] at *
  omega

theorem Layout.vector_room (h : Layout pages pg sz) (hpages : 2 ≤ pages.toNat)
    (hbase : stackBase pages sz ≤ sp.toNat) (hsp : sp.toNat ≤ sz.toNat) (h4 : sp.toNat % 4 = 0)
    (huser : ∀ i < 4 * (n + 4), pg.User ((sp - BitVec.ofNat 32 (4 * (n + 4))).toNat + i)) :
    (sp - BitVec.ofNat 32 (4 * (n + 4))).toNat + 4 * (n + 4) = sp.toNat ∧
      stackBase pages sz ≤ (sp - BitVec.ofNat 32 (4 * (n + 4))).toNat := by
  have haligned : (sp - BitVec.ofNat 32 (4 * (n + 4))) &&& ~~~3#32 = sp - BitVec.ofNat 32 (4 * (n + 4)) := by
    apply BitVec.eq_of_toNat_eq
    rw [toNat_round4, BitVec.toNat_sub, BitVec.toNat_ofNat]
    omega
  rw [← haligned] at huser ⊢
  obtain ⟨hroom, hlow⟩ := h.room_of_user hpages hbase hsp h4 (by omega) huser
  exact ⟨by omega, hlow⟩

theorem copyout_wp (h : Prepared F pages pg sz k.phys) (va : Word) (buf : List UInt8) :
    (copyout pg va buf).Wp Op.semChecked Steady (fun ok k' => Confined F k k' ∧ Prepared F pages pg sz k'.phys ∧
      (ok = true → (∀ i < buf.length, pg.User (va.toNat + i)) ∧
        pg.image k'.phys = (pg.image k.phys).write va.toNat buf)) k := by
  have hkeep {bs : List UInt8} {m' : Phys} (hstored : Vm.Stored pg va.toNat bs k.phys m') :
      Confined F k { k with phys := m' } ∧ Prepared F pages pg sz m' :=
    ⟨.of_phys (hstored.touches h.space), { h with space := hstored.space h.space }⟩
  rcases Vm.copyoutLoop_outcome h.space.userTable (Vm.finds_checked pg) _ va buf le_rfl k.phys with
    ⟨huser, m', hstored, hrun⟩ | ⟨n, -, -, -, m', hstored, hrun⟩
  · exact vm_wp (o := .copyout pg va buf) (x := Vm.copyoutChecked pg va buf) rfl hrun
      ⟨(hkeep hstored).1, (hkeep hstored).2, fun _ => ⟨huser, hstored.image⟩⟩
  · refine vm_wp (o := .copyout pg va buf) (x := Vm.copyoutChecked pg va buf) rfl hrun
      ⟨(hkeep hstored).1, (hkeep hstored).2, fun hok => ?_⟩
    cases hok

end Layout

/-- What an argument takes on the stack, with its NUL and up to a word boundary. -/
def argSpace (arg : CStr) : ℕ := (arg.length + 1 + 3) / 4 * 4

/-- The strings `args` lie between `sp` and `top` at the addresses `addrs`, and nothing else
has changed. -/
structure Pushed (m m' : Mem) (top : ℕ) (args : List CStr) (sp : ℕ) (addrs : List Word) : Prop where
  size : sp + (args.map argSpace).sum = top
  strings : List.Forall₂ (fun arg (a : Word) => sp ≤ a.toNat ∧ a.toNat + arg.length < top ∧
    m'.Holds a.toNat (arg.bytes ++ [0])) args addrs
  rest : ∀ x, x < sp ∨ top ≤ x → m' x = m x

namespace Pushed
variable {m m' : Mem} {top sp : ℕ} {arg : CStr} {args : List CStr} {a : Word} {addrs : List Word}

theorem nil (m : Mem) (sp : ℕ) : Pushed m m sp [] sp [] := ⟨rfl, List.Forall₂.nil, fun _ _ => rfl⟩

theorem cons (hroom : a.toNat + argSpace arg = top)
    (h : Pushed (m.write a.toNat (arg.bytes ++ [0])) m' a.toNat args sp addrs) :
    Pushed m m' top (arg :: args) sp (a :: addrs) := by
  have hlen : (arg.bytes ++ [0]).length = arg.length + 1 := by simp [CStr.length]
  have hspace : arg.length + 1 ≤ argSpace arg := by
    unfold argSpace
    omega
  have hsize := h.size
  refine ⟨?_, List.Forall₂.cons ⟨by omega, by omega, ?_⟩ ?_, fun x hx => ?_⟩
  · rw [map_cons, sum_cons]
    omega
  · exact (Mem.holds_write m a.toNat _).congr fun x hx _ => h.rest x (Or.inr hx)
  · refine h.strings.imp fun arg' a' hplace => ?_
    obtain ⟨hlow, hhigh, hholds⟩ := hplace
    exact ⟨hlow, by omega, hholds⟩
  · rw [h.rest x (by omega), Mem.write_outside (by omega)]

end Pushed

section Push
variable {F : Set Frame} {pages sz : Word} {pg : Pgdir} {k : Kernel}

theorem pushArgs_wp (h : Prepared F pages pg sz k.phys)
    (hpages : 2 ≤ pages.toNat) (hbase : stackBase pages sz ≤ sp.toNat) (hsp : sp.toNat ≤ sz.toNat)
    (h4 : sp.toNat % 4 = 0) :
    (pushArgs pg argc args sp addrs).Wp Op.semChecked Steady (fun r k' => Confined F k k' ∧
      Prepared F pages pg sz k'.phys ∧ ∀ sp' addrs', r = some (sp', addrs') → ∃ pushed, addrs' = addrs ++ pushed ∧
        stackBase pages sz ≤ sp'.toNat ∧ sp'.toNat % 4 = 0 ∧
        Pushed (pg.image k.phys) (pg.image k'.phys) sp.toNat args sp'.toNat pushed) k := by
  induction args generalizing argc sp addrs k with
  | nil =>
    refine wp_pure ⟨.of_inner rfl, h, fun sp' addrs' hr => ?_⟩
    cases hr
    exact ⟨[], (append_nil _).symm, hbase, h4, .nil _ _⟩
  | cons arg args ih =>
    refine wp_ite (fun _ => wp_pure ⟨.of_inner rfl, h, fun _ _ hr => by cases hr⟩) fun _ => ?_
    refine (copyout_wp h _ _).bind fun ok k1 hres => ?_
    obtain ⟨hconf1, h1, hstored⟩ := hres
    refine wp_ite (fun hok => ?_) fun _ => wp_pure ⟨hconf1, h1, fun _ _ hr => by cases hr⟩
    obtain ⟨huser, himage⟩ := hstored hok
    have hlen : (arg.bytes ++ [0]).length = arg.length + 1 := by simp [CStr.length]
    rw [hlen] at huser
    obtain ⟨hroom, hbase'⟩ := h.room_of_user hpages hbase hsp h4 (Nat.succ_pos _) huser
    have h4' := toNat_round4 (sp - BitVec.ofNat 32 (arg.length + 1))
    generalize ((sp - BitVec.ofNat 32 (arg.length + 1)) &&& ~~~3#32) = a at *
    refine (ih h1 hbase' (by omega) (by omega)).mono fun r k' hres => ?_
    obtain ⟨hconf', h', hres⟩ := hres
    refine ⟨hconf1.trans hconf', h', fun sp' addrs' hr => ?_⟩
    obtain ⟨pushed, haddrs, hbase'', h4'', hpushed⟩ := hres sp' addrs' hr
    rw [himage] at hpushed
    exact ⟨a :: pushed, by simp [haddrs], hbase'', h4'', hpushed.cons hroom⟩

end Push

/-- The stack of a program that starts: a return address, `argc` and `argv`, which points to
an array of pointers to the strings. -/
structure InitialStack (m : Mem) (esp : Word) (base top : ℕ) (argv : List CStr) : Prop where
  low : base ≤ esp.toNat
  ret : m.word esp.toNat = 0xffffffff
  argc : (m.word (esp.toNat + 4)).toNat = argv.length
  above : esp.toNat + 12 ≤ (m.word (esp.toNat + 8)).toNat
  within : (m.word (esp.toNat + 8)).toNat + 4 * (argv.length + 1) ≤ top
  string : ∀ i (h : i < argv.length), ∃ a : Word, m.word ((m.word (esp.toNat + 8)).toNat + 4 * i) = a ∧
    esp.toNat ≤ a.toNat ∧ a.toNat + argv[i].length < top ∧ m.Holds a.toNat (argv[i].bytes ++ [0])
  null : m.word ((m.word (esp.toNat + 8)).toNat + 4 * argv.length) = 0

def stackSpace (argv : List CStr) : ℕ := (argv.map argSpace).sum + 4 * (argv.length + 4)

theorem vector_toNat (h : esp.toNat + 4 * (n + 4) = sp.toNat) :
    (sp - (BitVec.ofNat 32 n + 1) * 4).toNat = esp.toNat + 12 := by
  bv_omega

theorem Pushed.initialStack
    (h : Pushed m m' top argv sp.toNat addrs) (hesp : esp.toNat + 4 * (argv.length + 4) = sp.toNat)
    (hbase : base ≤ esp.toNat) :
    InitialStack (m'.write esp.toNat ((ustack sp addrs).flatMap wordBytes)) esp base top argv ∧
      esp.toNat + stackSpace argv = top := by
  have hlen : addrs.length = argv.length := h.strings.length_eq.symm
  have hwords : (ustack sp addrs).length = argv.length + 4 := by
    simp [ustack, hlen]
  have hsp := sp.isLt
  have hargc : (BitVec.ofNat 32 addrs.length).toNat = argv.length := by
    rw [hlen, BitVec.toNat_ofNat]
    omega
  have harray : (sp - (BitVec.ofNat 32 addrs.length + 1) * 4).toNat = esp.toNat + 12 := vector_toNat (hlen ▸ hesp)
  have hword (n : ℕ) (hn : n < (ustack sp addrs).length) :
      (m'.write esp.toNat ((ustack sp addrs).flatMap wordBytes)).word (esp.toNat + 4 * n) = (ustack sp addrs)[n] :=
    Mem.words_write _ hn
  generalize hm : m'.write esp.toNat ((ustack sp addrs).flatMap wordBytes) = image at hword
  have hret := hword 0 (by omega)
  have hcount := hword 1 (by omega)
  have hvector := hword 2 (by omega)
  simp only [ustack, Nat.mul_zero, Nat.add_zero, Nat.mul_one, Nat.reduceMul, cons_append, nil_append,
    getElem_cons_zero, getElem_cons_succ] at hret hcount hvector
  have hsize := h.size
  refine ⟨⟨hbase, hret, ?_, ?_, ?_, fun i hi => ?_, ?_⟩, ?_⟩
  · rw [hcount, hargc]
  · rw [hvector, harray]
  · rw [hvector, harray]
    omega
  · have hi' : i < addrs.length := by omega
    obtain ⟨hlow, hhigh, hholds⟩ := h.strings.get hi hi'
    refine ⟨addrs[i], ?_, ?_, hhigh, ?_⟩
    · rw [hvector, harray, show esp.toNat + 12 + 4 * i = esp.toNat + 4 * (i + 3) by omega, hword (i + 3) (by omega)]
      simp [ustack, hi']
    · simp only [get_eq_getElem] at hlow
      omega
    · simp only [get_eq_getElem] at hlow hholds
      refine hholds.congr fun x hx _ => ?_
      rw [← hm]
      refine Mem.write_outside (Or.inr ?_)
      rw [Mem.words_length]
      omega
  · rw [hvector, harray, show esp.toNat + 12 + 4 * argv.length = esp.toNat + 4 * (addrs.length + 3) by omega,
      hword (addrs.length + 3) (by omega)]
    simp [ustack]
  · unfold stackSpace
    omega

/-- A program starts with its arguments; below the stack it finds what was there. -/
structure Started (pages : Word) (argv : List CStr) (sz esp : Word) (m m' : Mem) : Prop where
  stack : InitialStack m' esp (stackBase pages sz) sz.toNat argv
  fits : stackSpace argv ≤ (pages.toNat - 1) * PGSIZE
  program : ∀ a < stackBase pages sz, m' a = m a

def Proc.start (pr : Proc) (path : CStr) (pg : Pgdir) (sz entry esp : Word) : Proc :=
  { pr with name := progName path, pgdir := pg, sz := sz, tf := { pr.tf with eip := entry, esp := esp } }

/-- How `exec` ends: it fails and has written to frames that were free, or the caller runs
the new program. -/
def Execed (p : Slot) (path : CStr) (argv : List CStr) (pages : Word) (k : Kernel)
    (program : Word → Mem → ℕ → Prop) (r : ℤ) (k' : Kernel) : Prop :=
  (r = -1 ∧ Confined { f | f ∈ k.phys.freelist } k k') ∨
  (r = 0 ∧ ∃ pg sz entry esp image, k'.pt = k.pt.modify p (Proc.start · path pg sz entry esp) ∧
    Layout pages pg sz ∧ program entry image (sz.toNat - pages.toNat * PGSIZE) ∧
    Started pages argv sz esp image (pg.image k'.phys))

section Commit
variable {G : Set Frame} {p : Slot} {pages entry sz : Word} {pg : Pgdir} {k₀ k : Kernel}

theorem freevm_old_wp {k1 : Kernel} (hold : Space G (k₀.pt.proc p).pgdir ∅ k₀.phys)
    (htouch : Touches (· ∈ k₀.phys.freelist) k₀.phys k1.phys) (h : Space { f | f ∈ k₀.phys.freelist } pg ∅ k1.phys) :
    (freevm (k₀.pt.proc p).pgdir).Wp Op.semChecked Steady
      (fun _ k' => k'.pt = k1.pt ∧ pg.image k'.phys = pg.image k1.phys) k1 := by
  refine (freevm_wp (hold.after_others htouch h.account.nodup)).mono fun _ k' ⟨hconf, _⟩ => ⟨hconf.pt, ?_⟩
  refine Pgdir.image_congr fun v e he => hconf.touches.mem _ ?_
  obtain ⟨hfree, hused⟩ := h.frame_mem he
  rintro (hf | ⟨x, hx⟩)
  · exact hused hf
  · exact (hold.account.own_mem hx).2 hfree

theorem start_of_ok {path : CStr} {k1 k2 : Kernel} {u u' : Unit}
    (hname : Op.semChecked (.proc (.setName p (progName path))) k = .ok (u, k1))
    (himage : Op.semChecked (.proc (.setImage p pg sz entry esp)) k1 = .ok (u', k2)) :
    k2 = k.setProc p (Proc.start · path pg sz entry esp) := by
  cases hname
  cases himage
  simp [Kernel.setProc, PTable.modify, Proc.start]

theorem execArgs_wp {program : Word → Mem → ℕ → Prop}
    (hold : Space G (k₀.pt.proc p).pgdir ∅ k₀.phys) (hconf : Confined { f | f ∈ k₀.phys.freelist } k₀ k)
    (h : Prepared { f | f ∈ k₀.phys.freelist } pages pg sz k.phys) (hpages : 2 ≤ pages.toNat)
    (hprogram : program entry (pg.image k.phys) (sz.toNat - pages.toNat * PGSIZE)) :
    (execArgs p path argv entry pg sz).Wp Op.semChecked Steady (Execed p path argv pages k₀ program) k := by
  have hbad {k' : Kernel} (hconf' : Confined { f | f ∈ k₀.phys.freelist } k₀ k')
      (h' : Prepared { f | f ∈ k₀.phys.freelist } pages pg sz k'.phys) :
      (execStack.bad pg).Wp Op.semChecked Steady (Execed p path argv pages k₀ program) k' :=
    (freevm_wp h'.space).bind fun _ k2 hfree => wp_pure (.inl ⟨rfl, hconf'.trans hfree.1⟩)
  have haligned := h.aligned
  have hstart : sz.toNat % 4 = 0 := by
    simp only [PGSIZE] at haligned
    omega
  refine (pushArgs_wp h hpages (Nat.sub_le _ _) le_rfl hstart).bind fun r k1 hres => ?_
  obtain ⟨hconf1, h1, hpushed⟩ := hres
  have hconf1 := hconf.trans hconf1
  cases r with
  | none => exact hbad hconf1 h1
  | some r =>
    obtain ⟨sp, addrs⟩ := r
    obtain ⟨pushed, haddrs, hbase, h4, hpushed⟩ := hpushed sp addrs rfl
    rw [nil_append] at haddrs
    subst haddrs
    refine (copyout_wp h1 _ _).bind fun ok k2 hres => ?_
    obtain ⟨hconf2, h2, hstored⟩ := hres
    have hconf2 := hconf1.trans hconf2
    refine wp_ite (fun hok => ?_) fun _ => hbad hconf2 h2
    obtain ⟨huser, himage⟩ := hstored hok
    have hlen : (ustack sp addrs).length = argv.length + 4 := by
      simp [ustack, hpushed.strings.length_eq]
    have hsize := hpushed.size
    rw [Mem.words_length, hlen] at huser
    rw [hlen] at himage ⊢
    obtain ⟨hroom, hlow⟩ := h1.vector_room hpages hbase (by omega) h4 huser
    generalize sp - BitVec.ofNat 32 (4 * (argv.length + 4)) = esp at *
    obtain ⟨hstack, hspace⟩ := hpushed.initialStack hroom hlow
    refine wp_call_bind trivial fun (old : Proc) k3 hproc => ?_
    cases hproc
    refine wp_call_bind trivial fun _ k3 hname => wp_call_bind trivial fun _ k4 himg => ?_
    have hk4 := start_of_ok hname himg
    have hpt4 : k4.pt = k₀.pt.modify p (Proc.start · path pg sz entry esp) := by
      rw [hk4, ← hconf2.pt]
      rfl
    have hphys4 : k4.phys = k2.phys := by rw [hk4]; rfl
    rw [hconf2.pt]
    refine (freevm_old_wp hold (hphys4 ▸ hconf2.touches) (hphys4 ▸ h2.space)).bind fun _ k' hres => ?_
    obtain ⟨hpt, himage'⟩ := hres
    rw [hphys4, himage] at himage'
    refine .inr ⟨rfl, pg, sz, entry, esp, pg.image k.phys, hpt.trans hpt4, h.toLayout, hprogram, ?_, ?_, fun a ha => ?_⟩
    · rw [himage']
      exact hstack
    · unfold stackBase at hlow
      omega
    · rw [himage', Mem.write_outside (Or.inl (by omega))]
      exact hpushed.rest a (.inl (by omega))

end Commit
end Xv6.Sys
