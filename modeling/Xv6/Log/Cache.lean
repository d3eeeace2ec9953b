import Mathlib.Data.Fintype.Card
import Xv6.Log.Machine

/-! # The buffer cache under the log

What the cache holds while some blocks wait to be installed: those blocks are pinned
by `B_DIRTY` with their logged contents, and every other buffer is a copy of the disk.
-/
namespace Xv6.Logging
open Function Finset

variable {ι : Type}

/-- `todo` lists the pinned blocks; the buffers in `busy` are being written by a process
inside `log_write`, and nothing is known about their data. -/
structure CacheInv (disk view : Disk) (todo : List Word) (busy : Fin NBUF → Prop)
    (buf : Fin NBUF → Buf ι) : Prop where
  inj : ∀ i j b, (buf i).blockno = some b → (buf j).blockno = some b → i = j
  clean : ∀ j b, (buf j).blockno = some b → (buf j).dirty = false → ¬ busy j → (buf j).data = disk b
  pinned : ∀ j b, (buf j).blockno = some b → (buf j).dirty = true → ¬ busy j → (buf j).data = view b
  dirty_todo : ∀ j, (buf j).dirty = true → ∃ b ∈ todo, (buf j).blockno = some b
  todo_dirty : ∀ b ∈ todo, ∃ j, (buf j).blockno = some b ∧ (buf j).dirty = true

theorem load_blockno (disk : Disk) (buf : Fin NBUF → Buf ι) (b : Word) (j : Fin NBUF) :
    (load disk buf b j j).blockno = some b := by
  rw [load]
  split
  case isTrue h => exact h
  case isFalse => rw [update_self]

theorem load_of_ne (h : i ≠ j) (disk : Disk) (buf : Fin NBUF → Buf ι) (b : Word) :
    load disk buf b j i = buf i := by
  rw [load]
  split
  case isTrue => rfl
  case isFalse => rw [update_of_ne h]

variable {j : Fin NBUF} {b : Word} {g : LogArea}

theorem load_holder {buf : Fin NBUF → Buf ι}
    (h : Gets buf b j) (i : Fin NBUF) : (load disk buf b j i).holder = (buf i).holder := by
  by_cases hij : i = j
  · subst hij
    rw [load]
    split
    case isTrue => rfl
    case isFalse =>
      rw [update_self]
      exact h.1.symm
  · rw [load_of_ne hij]

theorem clean_blockno (buf : Fin NBUF → Buf ι) (j : Fin NBUF) (data : Block) (i : Fin NBUF) :
    (clean buf j data i).blockno = (buf i).blockno ∧ (clean buf j data i).holder = (buf i).holder := by
  by_cases hij : i = j
  · subst hij
    rw [clean, update_self]
    exact ⟨rfl, rfl⟩
  · rw [clean, update_of_ne hij]
    exact ⟨rfl, rfl⟩

def HeldHome (g : LogArea) (buf : Fin NBUF → Buf ι) : Prop :=
  ∀ j p, (buf j).holder = some p → ∃ b, (buf j).blockno = some b ∧ g.Home b

theorem HeldHome.load {buf : Fin NBUF → Buf ι} (h : HeldHome g buf) (hg : Gets buf b j) (disk : Disk) : HeldHome g (load disk buf b j) := by
  intro i q hi
  rw [load_holder hg] at hi
  have hij : i ≠ j := by
    rintro rfl
    rw [hg.1] at hi
    cases hi
  rw [load_of_ne hij]
  exact h i q hi

theorem HeldHome.clean {buf : Fin NBUF → Buf ι} (h : HeldHome g buf) (j : Fin NBUF)
    (data : Block) : HeldHome g (clean buf j data) := by
  intro i q hi
  rw [(clean_blockno buf j data i).2] at hi
  rw [(clean_blockno buf j data i).1]
  exact h i q hi

namespace CacheInv
variable {disk view : Disk} {todo : List Word} {busy : Fin NBUF → Prop} {buf : Fin NBUF → Buf ι}
  {b : Word} {j : Fin NBUF}

theorem load (h : CacheInv disk view todo busy buf) (hg : Gets buf b j) :
    CacheInv disk view todo busy (load disk buf b j) := by
  by_cases hb : (buf j).blockno = some b
  · have heq : Logging.load disk buf b j = buf := if_pos hb
    rw [heq]
    exact h
  · obtain ⟨hnone, hdirty⟩ := hg.2.resolve_left hb
    have hj : Logging.load disk buf b j j = { blockno := some b, data := disk b } := by
      rw [Logging.load, if_neg hb, update_self]
    have hne : ∀ i, i ≠ j → Logging.load disk buf b j i = buf i := fun i hi => load_of_ne hi _ _ _
    constructor
    case inj =>
      intro i k c hi hk
      by_cases hij : i = j <;> by_cases hkj : k = j
      · rw [hij, hkj]
      · subst hij
        rw [hj] at hi
        rw [hne k hkj] at hk
        cases hi
        exact absurd hk (hnone k)
      · subst hkj
        rw [hj] at hk
        rw [hne i hij] at hi
        cases hk
        exact absurd hi (hnone i)
      · rw [hne i hij] at hi
        rw [hne k hkj] at hk
        exact h.inj i k c hi hk
    case clean =>
      intro i c hi hd hbusy
      by_cases hij : i = j
      · subst hij
        rw [hj] at hi ⊢
        cases hi
        rfl
      · rw [hne i hij] at hi hd ⊢
        exact h.clean i c hi hd hbusy
    case pinned =>
      intro i c hi hd hbusy
      by_cases hij : i = j
      · subst hij
        rw [hj] at hd
        cases hd
      · rw [hne i hij] at hi hd ⊢
        exact h.pinned i c hi hd hbusy
    case dirty_todo =>
      intro i hd
      by_cases hij : i = j
      · subst hij
        rw [hj] at hd
        cases hd
      · rw [hne i hij] at hd ⊢
        exact h.dirty_todo i hd
    case todo_dirty =>
      intro c hc
      obtain ⟨i, hi, hd⟩ := h.todo_dirty c hc
      have hij : i ≠ j := by
        rintro rfl
        rw [hdirty] at hd
        cases hd
      exact ⟨i, by rw [hne i hij]; exact ⟨hi, hd⟩⟩

theorem data_of_todo (h : CacheInv disk view todo busy buf) (hb : b ∈ todo)
    (hj : (buf j).blockno = some b) (hbusy : ¬ busy j) : (buf j).data = view b := by
  obtain ⟨i, hi, hd⟩ := h.todo_dirty b hb
  obtain rfl := h.inj i j b hi hj
  exact h.pinned i b hi hd hbusy

theorem data_of_not_todo (h : CacheInv disk view todo busy buf) (hb : b ∉ todo)
    (hj : (buf j).blockno = some b) (hbusy : ¬ busy j) : (buf j).data = disk b := by
  cases hd : (buf j).dirty with
  | false => exact h.clean j b hj hd hbusy
  | true =>
    obtain ⟨c, hc, hjc⟩ := h.dirty_todo j hd
    rw [hj] at hjc
    cases hjc
    exact absurd hc hb

variable {todo' : List Word} {busy' : Fin NBUF → Prop}

section
variable (h : CacheInv disk view todo busy buf)
include h

theorem bwrite (hj : (buf j).blockno = some b) (htodo : ∀ c, c ∈ todo' ↔ c ∈ todo ∧ c ≠ b) (data : Block) :
    CacheInv (update disk b data) view todo' busy (Logging.clean buf j data) := by
  have hself : Logging.clean buf j data j = { buf j with data := data, dirty := false } := by
    rw [Logging.clean, update_self]
  have hne : ∀ i, i ≠ j → Logging.clean buf j data i = buf i := by
    intro i hi
    rw [Logging.clean, update_of_ne hi]
  have hblock : ∀ i, (Logging.clean buf j data i).blockno = (buf i).blockno :=
    fun i => (clean_blockno buf j data i).1
  constructor
  case inj =>
    intro i k c hi hk
    rw [hblock] at hi hk
    exact h.inj i k c hi hk
  case clean =>
    intro i c hi hd hbusy
    rw [hblock] at hi
    by_cases hij : i = j
    · subst hij
      rw [hj] at hi
      cases hi
      rw [hself, update_self]
    · rw [hne i hij] at hd ⊢
      have hcb : c ≠ b := by
        rintro rfl
        exact hij (h.inj i j c hi hj)
      rw [update_of_ne hcb]
      exact h.clean i c hi hd hbusy
  case pinned =>
    intro i c hi hd hbusy
    by_cases hij : i = j
    · rw [hij, hself] at hd
      cases hd
    · rw [hne i hij] at hi hd ⊢
      exact h.pinned i c hi hd hbusy
  case dirty_todo =>
    intro i hd
    by_cases hij : i = j
    · rw [hij, hself] at hd
      cases hd
    · rw [hne i hij] at hd ⊢
      obtain ⟨c, hc, hi⟩ := h.dirty_todo i hd
      refine ⟨c, (htodo c).mpr ⟨hc, ?_⟩, hi⟩
      rintro rfl
      exact hij (h.inj i j c hi hj)
  case todo_dirty =>
    intro c hc
    obtain ⟨hc, hcb⟩ := (htodo c).mp hc
    obtain ⟨i, hi, hd⟩ := h.todo_dirty c hc
    have hij : i ≠ j := by
      rintro rfl
      rw [hj] at hi
      cases hi
      exact hcb rfl
    exact ⟨i, by rw [hne i hij]; exact ⟨hi, hd⟩⟩

theorem mono_busy (hb : ∀ j, busy j → busy' j) : CacheInv disk view todo busy' buf where
  inj := h.inj
  clean j b hj hd hn := h.clean j b hj hd (fun hbusy => hn (hb j hbusy))
  pinned j b hj hd hn := h.pinned j b hj hd (fun hbusy => hn (hb j hbusy))
  dirty_todo := h.dirty_todo
  todo_dirty := h.todo_dirty

theorem store (data : Block) (hb : ∀ i, busy i → busy' i) (hj : busy' j) :
    CacheInv disk view todo busy' (update buf j { buf j with data := data }) := by
  have hblock : ∀ i, (update buf j { buf j with data := data } i).blockno =
      (buf i).blockno ∧ (update buf j { buf j with data := data } i).dirty =
      (buf i).dirty := by
    intro i
    by_cases hij : i = j
    · subst hij
      rw [update_self]
      exact ⟨rfl, rfl⟩
    · rw [update_of_ne hij]
      exact ⟨rfl, rfl⟩
  constructor
  case inj =>
    intro i k c hi hk
    exact h.inj i k c ((hblock i).1 ▸ hi) ((hblock k).1 ▸ hk)
  case clean =>
    intro i c hi hd hbusy
    have hij : i ≠ j := fun hij => hbusy (hij ▸ hj)
    rw [update_of_ne hij] at hi hd ⊢
    exact h.clean i c hi hd (fun hn => hbusy (hb i hn))
  case pinned =>
    intro i c hi hd hbusy
    have hij : i ≠ j := fun hij => hbusy (hij ▸ hj)
    rw [update_of_ne hij] at hi hd ⊢
    exact h.pinned i c hi hd (fun hn => hbusy (hb i hn))
  case dirty_todo =>
    intro i hd
    rw [(hblock i).2] at hd
    rw [(hblock i).1]
    exact h.dirty_todo i hd
  case todo_dirty =>
    intro c hc
    obtain ⟨i, hi, hd⟩ := h.todo_dirty c hc
    exact ⟨i, by rw [(hblock i).1]; exact hi, by rw [(hblock i).2]; exact hd⟩

theorem pin (hj : (buf j).blockno = some b) (htodo : ∀ c, c ∈ todo' ↔ c ∈ todo ∨ c = b)
    (hb : ∀ i, i ≠ j → busy i → busy' i) : CacheInv disk (update view b (buf j).data) todo' busy'
      (update buf j { buf j with dirty := true }) := by
  have hblock : ∀ i, (update buf j { buf j with dirty := true } i).blockno =
      (buf i).blockno := by
    intro i
    by_cases hij : i = j
    · subst hij
      rw [update_self]
    · rw [update_of_ne hij]
  constructor
  case inj =>
    intro i k c hi hk
    rw [hblock] at hi hk
    exact h.inj i k c hi hk
  case clean =>
    intro i c hi hd hbusy
    by_cases hij : i = j
    · rw [hij, update_self] at hd
      cases hd
    · rw [update_of_ne hij] at hi hd ⊢
      exact h.clean i c hi hd (fun hn => hbusy (hb i hij hn))
  case pinned =>
    intro i c hi hd hbusy
    by_cases hij : i = j
    · subst hij
      rw [hblock, hj] at hi
      cases hi
      rw [update_self, update_self]
    · rw [update_of_ne hij] at hi hd ⊢
      have hcb : c ≠ b := by
        rintro rfl
        exact hij (h.inj i j c hi hj)
      rw [update_of_ne hcb]
      exact h.pinned i c hi hd (fun hn => hbusy (hb i hij hn))
  case dirty_todo =>
    intro i hd
    by_cases hij : i = j
    · subst hij
      exact ⟨b, (htodo b).mpr (.inr rfl), by rw [hblock]; exact hj⟩
    · rw [update_of_ne hij] at hd ⊢
      obtain ⟨c, hc, hi⟩ := h.dirty_todo i hd
      exact ⟨c, (htodo c).mpr (.inl hc), hi⟩
  case todo_dirty =>
    intro c hc
    rcases (htodo c).mp hc with hc | rfl
    · obtain ⟨i, hi, hd⟩ := h.todo_dirty c hc
      refine ⟨i, by rw [hblock]; exact hi, ?_⟩
      by_cases hij : i = j
      · rw [hij, update_self]
      · rw [update_of_ne hij]
        exact hd
    · exact ⟨j, by rw [hblock]; exact hj, by rw [update_self]⟩

theorem lock (j : Fin NBUF) (o : Option ι) :
    CacheInv disk view todo busy (update buf j { buf j with holder := o }) := by
  have heq : ∀ i, (update buf j { buf j with holder := o } i).blockno = (buf i).blockno ∧
      (update buf j { buf j with holder := o } i).data = (buf i).data ∧
      (update buf j { buf j with holder := o } i).dirty = (buf i).dirty := by
    intro i
    by_cases hij : i = j
    · subst hij
      rw [update_self]
      exact ⟨rfl, rfl, rfl⟩
    · rw [update_of_ne hij]
      exact ⟨rfl, rfl, rfl⟩
  constructor
  case inj => exact fun i k c hi hk => h.inj i k c ((heq i).1 ▸ hi) ((heq k).1 ▸ hk)
  case clean =>
    intro i c hi hd hb
    rw [(heq i).2.1]
    exact h.clean i c ((heq i).1 ▸ hi) ((heq i).2.2 ▸ hd) hb
  case pinned =>
    intro i c hi hd hb
    rw [(heq i).2.1]
    exact h.pinned i c ((heq i).1 ▸ hi) ((heq i).2.2 ▸ hd) hb
  case dirty_todo =>
    intro i hd
    rw [(heq i).2.2] at hd
    rw [(heq i).1]
    exact h.dirty_todo i hd
  case todo_dirty =>
    intro c hc
    obtain ⟨i, hi, hd⟩ := h.todo_dirty c hc
    exact ⟨i, by rw [(heq i).1]; exact hi, by rw [(heq i).2.2]; exact hd⟩

/-- The cache cannot pin all of its buffers while one of them is free for another block. -/
theorem todo_lt (hnodup : todo.Nodup) (hj : (buf j).dirty = false) : todo.length < NBUF := by
  let dirty : Finset (Fin NBUF) := univ.filter fun i => (buf i).dirty = true
  have hsub : todo.toFinset.image some ⊆ dirty.image fun i => (buf i).blockno := by
    intro o ho
    obtain ⟨c, hc, rfl⟩ := mem_image.mp ho
    obtain ⟨i, hi, hd⟩ := h.todo_dirty c (List.mem_toFinset.mp hc)
    exact mem_image.mpr ⟨i, mem_filter.mpr ⟨mem_univ i, hd⟩, hi⟩
  have hlt : dirty.card < Fintype.card (Fin NBUF) := by
    apply card_lt_univ_of_notMem (x := j)
    simp [dirty, hj]
  calc todo.length = (todo.toFinset.image some).card := by
        rw [card_image_of_injective _ (Option.some_injective _),
          List.toFinset_card_of_nodup hnodup]
    _ ≤ (dirty.image fun i => (buf i).blockno).card := card_le_card hsub
    _ ≤ dirty.card := card_image_le
    _ < NBUF := by rwa [Fintype.card_fin] at hlt

end

end CacheInv
end Xv6.Logging
