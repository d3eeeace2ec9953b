import Xv6.Tx.Files

/-! # How far a transaction fills the header of the log

A transaction that runs alone adds to the header of the log no more than the blocks which it
passes, and those that were there before do not count twice.
-/
namespace Xv6.Tx
open Prog Fs List
open KProg hiding panic

section Sober
variable {α β : Type} {p : Slot} {A : Others p} {s t : Pt}

def Sober : Op → Prop
  | .fs (.ifree _) => False
  | .fs (.consoleread _ _) => False
  | _ => True

theorem sober_of_contents {x : KProg α} (h : x.Uses Op.Contents) : x.Uses Sober := h.mono fun o ho => by
  cases o with
  | fs o =>
    cases o with
    | ifree | consoleread => exact ho
    | _ => trivial
  | _ => trivial

theorem writei_sober (i : InodeIdx) (src : List UInt8) (off : Word) : (writei p i src off).Uses Sober := by
  refine uses_bind_call trivial fun (ip : Inode) => .ite (.ite ?_ (uses_pure _)) ?_
  · exact uses_bind_call trivial fun _ => uses_bind_call trivial fun _ => uses_bind_call trivial fun _ => uses_pure _
  · refine .ite (uses_pure _) (.ite (uses_pure _) ((sober_of_contents (writeLoop_contents i _ _ src)).bind fun _ => ?_))
    exact (sober_of_contents (growTo_contents i _ _)).bind fun _ => uses_pure _

theorem Comes.uses {x y : KProg α} {C : Op → Prop} (hc : Comes (sem A) x s y t) (h : x.Uses C) : y.Uses C := by
  induction hc with
  | here => exact h
  | next _ _ ih => exact ih (h.2 _)

/-- Reading an entry of a directory comes to the console if the directory turns out to be it. -/
theorem readDirent_not_sober (dp : InodeIdx) (off : ℕ) (msg : String) (f : Dirent → KProg β) :
    ¬ (readDirent p dp off msg >>= f).Uses Sober := by
  intro h
  have hdev := h.2 ({ d := { type := .dev, major := BitVec.ofNat 16 CONSOLE } } : Inode)
  exact (hdev.2 ()).1

theorem assumed_of_sober (h : x.Uses Sober) : Assumed A ⟨false, false⟩ x s := by
  refine ⟨fun y f t hy hc => ?_, .spares fun o t hr hfree => ?_, (fun hf => by cases hf), fun hf => by cases hf⟩
  · obtain ⟨dp, off, msg, rfl⟩ := hy
    exact absurd (Comes.uses hc h) (readDirent_not_sober dp off msg f)
  · have hsober : Sober o := by
      clear hfree
      induction hr with
      | here => exact h.1
      | next _ _ ih => exact ih (h.2 _)
    cases o with
    | fs o =>
      cases o with
      | ifree => exact hsober
      | _ => exact hfree
    | _ => exact hfree

end Sober

section Header
variable {α : Type} {p : Slot} {base : List Word} {k k' : Kernel} {passed : Finset Word}

/-- The header holds `base` and, after it, blocks that have been passed. -/
def Extends (base : List Word) (passed : Finset Word) (lh : List Word) : Prop :=
  ∃ ext, lh = base ++ ext ∧ lh.Nodup ∧ ∀ w ∈ ext, w ∈ passed

theorem Extends.absorb (h : Extends base passed lh) (b : Word) :
    Extends base (insert b passed) (absorb lh b) := by
  obtain ⟨ext, rfl, hnodup, hext⟩ := h
  unfold Xv6.absorb
  split
  case isTrue => exact ⟨ext, rfl, hnodup, fun w hw => Finset.mem_insert_of_mem (hext w hw)⟩
  case isFalse hb =>
    refine ⟨ext ++ [b], append_assoc .., ?_, fun w hw => ?_⟩
    · exact nodup_append.mpr ⟨hnodup, nodup_singleton b, fun w hw v hv => by
        rw [mem_singleton] at hv
        rintro rfl
        exact hb (hv ▸ hw)⟩
    · rcases mem_append.mp hw with hw | hw
      · exact Finset.mem_insert_of_mem (hext w hw)
      · rw [mem_singleton.mp hw]
        exact Finset.mem_insert_self ..

/-- The header has grown by at most `MAXOPBLOCKS` blocks, and by three less if it was not
almost empty before. -/
structure Within (base lh : List Word) : Prop where
  nodup : lh.Nodup
  grown : base.length ≤ lh.length
  within : lh.length + min 3 base.length ≤ base.length + MAXOPBLOCKS

theorem Extends.within (h : Extends base passed lh) (hbase : (base.take 3).toFinset ⊆ passed)
    (hcard : passed.card ≤ MAXOPBLOCKS) : Within base lh := by
  obtain ⟨ext, rfl, hnodup, hext⟩ := h
  obtain ⟨hnodup1, hnodup2, hdisj⟩ := nodup_append.mp hnodup
  have hthree : (base.take 3).toFinset.card = min 3 base.length := by
    rw [toFinset_card_of_nodup (hnodup1.sublist (take_sublist 3 base)), length_take]
  have hunion : (base.take 3).toFinset ∪ ext.toFinset ⊆ passed :=
    Finset.union_subset hbase fun w hw => hext w (mem_toFinset.mp hw)
  have hsum : ((base.take 3).toFinset ∪ ext.toFinset).card = min 3 base.length + ext.length := by
    rw [Finset.card_union_of_disjoint, hthree, toFinset_card_of_nodup hnodup2]
    refine Finset.disjoint_left.mpr fun w hw hw' => ?_
    exact hdisj w (mem_of_mem_take (mem_toFinset.mp hw)) w (mem_toFinset.mp hw') rfl
  have hle := Finset.card_le_card hunion
  refine ⟨hnodup, ?_, ?_⟩
  all_goals rw [length_append]
  all_goals omega

def OnFiles : Op → Prop
  | .panic _ => True
  | .fs _ => True
  | .file _ => True
  | _ => False

theorem header_wp {x : KProg α} {g : Work} {n : ℕ} {Q : α → Pt → Prop} (hx : x.Uses OnFiles)
    (h : x.Wp (sem (.none p)) (fun _ => Fits) Q ⟨k, g, n⟩) (hQ : ∀ a t, Q a t → Fits t)
    (hext : Extends base g.passed k.log.lh) (hbase : (base.take 3).toFinset ⊆ g.passed) :
    x.Wp Op.sem (fun _ k' => Within base k'.log.lh) (fun a k' => Within base k'.log.lh ∧ ∃ g n, Q a ⟨k', g, n⟩) k := by
  induction x generalizing k g n with
  | ret a => exact ⟨hext.within hbase (hQ a _ h), g, n, h⟩
  | op o f ih =>
    refine ⟨hext.within hbase h.1, fun b k' ho => ?_⟩
    have hsem : sem (.none p) o ⟨k, g, n⟩ = .ok (b, ⟨k', g.note k o b, n + 1⟩) := amid_of_ok ho
    refine ih b (hx.2 b) (h.2 b _ hsem) ?_ ?_
    · cases o with
      | panic => exact b.elim
      | fs o =>
        rw [FsOp.lh_eq ho]
        dsimp only [Work.note, Work.passedAfter]
        cases o.logged k with
        | none => exact hext
        | some w => exact hext.absorb w
      | file o =>
        have hlog : k'.log = k.log :=
          FileOp.sem_fixes (fun _ _ => rfl) (fun _ _ _ => rfl) (fun _ _ => rfl) (fun _ _ => rfl) o k b k' ho
        rw [hlog]
        exact hext
      | _ => exact hx.1.elim
    · intro w hw
      have hmem := hbase hw
      cases o with
      | panic => exact b.elim
      | fs => exact Work.mem_passedAfter.mpr (.inr hmem)
      | file => exact hmem
      | _ => exact hx.1.elim

end Header
end Xv6.Tx
