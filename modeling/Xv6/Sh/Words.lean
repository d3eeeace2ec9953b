import Mathlib.Data.List.TakeWhile
import Xv6.Sh.Grammar

/-! # The words of a command line

Every argument and every file name in the tree is a maximal run of letters of the line, so
that the NULs of `nulterminate` fall between the words and end each of them.
-/
namespace Xv6.Sh
open Function Comp Sys List

/-- A run of letters that does not go on at either side. -/
structure Run (line : Text) (x : Text × Text) (pre w : Text) : Prop where
  line : line = pre ++ x.1
  word : x.1 = w ++ x.2
  nonempty : w ≠ []
  letters : ∀ c ∈ w, letter c = true
  left : ∀ c ∈ pre.getLast?, letter c = false
  right : ∀ c ∈ x.2.head?, letter c = false

def Cmd.words : Cmd → List (Text × Text)
  | .exec argv => argv
  | .redir cmd file efile _ _ => cmd.words ++ [(file, efile)]
  | .pipe left right => left.words ++ right.words
  | .list left right => left.words ++ right.words
  | .back cmd => cmd.words

section Cursor
variable {line s : Text} {x : Nonterminal} {ts us : List Token} {cmd d : Cmd} {n : ℕ}

def IsWord (line : Text) (x : Text × Text) : Prop := ∃ pre w, Run line x pre w

/-- The cursor is not inside a word. -/
def Stands (line s : Text) : Prop :=
  ∃ pre, line = pre ++ s ∧ ∀ c ∈ pre.getLast?, ∀ d ∈ s.head?, letter c = true → letter d = false

theorem not_letter_of_white (h : c ∈ whitespace) : letter c = false := by simp [letter, h]

/-- The cursor moves over characters of which the last one is no letter. -/
theorem Stands.over (pre : Text) (hline : line = pre ++ t) (h : ∀ c ∈ pre.getLast?, letter c = false) : Stands line t := by
  refine ⟨pre, hline, fun c hc d hd hletter => ?_⟩
  rw [h c hc] at hletter
  cases hletter

theorem Stands.skip (h : Stands line s) : Stands line (skip s) := by
  induction s with
  | nil => exact h
  | cons c s ih =>
    by_cases hc : c ∈ whitespace
    · have hskip : Sh.skip (c :: s) = Sh.skip s := by simp [Sh.skip, hc]
      obtain ⟨pre, hline, -⟩ := h
      rw [hskip]
      apply ih
      apply Stands.over (pre ++ [c])
      · simp [hline]
      · simpa using not_letter_of_white hc
    · have hskip : Sh.skip (c :: s) = c :: s := by simp [Sh.skip, hc]
      rwa [hskip]

/-- The next token is a word or not, and the cursor behind it is not inside a word. -/
theorem Stands.scan {c : UInt8} {r : Text} (hs : Stands line s) (h : Sh.skip s = c :: r) :
    Stands line (scan (c :: r)).2 ∧ ((Sh.scan (c :: r)).1 = ch 'a' → IsWord line (c :: r, (Sh.scan (c :: r)).2)) := by
  have hwhite : c ∉ whitespace := by simpa using head_dropWhile (show c ∈ (Sh.skip s).head? by rw [h]; rfl)
  obtain ⟨pre, hline, hedge⟩ := hs.skip
  rw [h] at hline hedge
  rcases scan_cases r hwhite with ⟨hne, init, d, hsplit, hlast⟩ | ⟨hc, hscan⟩
  · refine ⟨.over (pre ++ (init ++ [d])) ?_ (by simpa using hlast), fun h => absurd h hne⟩
    rw [hline, append_assoc, append_assoc, singleton_append, ← hsplit]
  · rw [hscan]
    have hright : ∀ d ∈ ((c :: r).dropWhile letter).head?, letter d = false := fun d hd => head_dropWhile hd
    have hsplit : c :: r = (c :: r).takeWhile letter ++ (c :: r).dropWhile letter := (takeWhile_append_dropWhile ..).symm
    refine ⟨⟨pre ++ (c :: r).takeWhile letter, ?_, fun _ _ d hd _ => hright d hd⟩, fun _ => ?_⟩
    · rw [append_assoc, ← hsplit]
      exact hline
    · refine ⟨pre, (c :: r).takeWhile letter, hline, hsplit, by simp [hc], fun d hd => mem_takeWhile_imp hd, fun d hd => ?_, hright⟩
      by_contra hd'
      exact absurd hc (by simp [hedge d hd c rfl (by simpa using hd')])

theorem tokens_words (hs : Stands line s) : ∀ t ∈ tokens s, t.tok = ch 'a' → IsWord line (t.q, t.eq) := by
  induction s using tokens.induct with
  | case1 s hskip =>
    rw [tokens_nil hskip]
    nofun
  | case2 s c r hskip ih =>
    obtain ⟨hnext, hword⟩ := hs.scan hskip
    rw [tokens_cons hskip]
    intro t ht
    rcases mem_cons.mp ht with rfl | ht
    · exact hword
    · exact ih hnext t ht

variable {P : Text × Text → Prop}

theorem words_addArg (h : ∀ x ∈ cmd.words, P x) (hq : P (q, eq)) : ∀ x ∈ (cmd.addArg q eq).words, P x := by
  induction cmd with
  | exec => exact forall_mem_append.mpr ⟨h, forall_mem_singleton.mpr hq⟩
  | redir cmd file efile mode fd ih =>
    obtain ⟨hcmd, hfile⟩ := forall_mem_append.mp h
    exact forall_mem_append.mpr ⟨ih hcmd, hfile⟩
  | pipe | list | back => exact h

/-- The words among the tokens have the property. -/
def Fine (P : Text × Text → Prop) (ts : List Token) : Prop := ∀ t ∈ ts, t.tok = ch 'a' → P (t.q, t.eq)

theorem Fine.tail (h : Fine P (t :: ts)) : Fine P ts := (forall_mem_cons.mp h).2

/-- The words of a derived tree are among the tokens. -/
theorem Redirs.words (h : Redirs cmd ts d us) (hcmd : ∀ x ∈ cmd.words, P x) (hP : Fine P ts) : (∀ x ∈ d.words, P x) ∧ Fine P us := by
  induction h with
  | none => exact ⟨hcmd, hP⟩
  | @input o f _ _ _ _ _ hf _ ih | @output o f _ _ _ _ _ hf _ ih =>
    exact ih (forall_mem_append.mpr ⟨hcmd, forall_mem_singleton.mpr (hP f (by simp) hf)⟩) hP.tail.tail

theorem Words.words (h : Words n cmd ts d us) (hcmd : ∀ x ∈ cmd.words, P x) (hP : Fine P ts) : (∀ x ∈ d.words, P x) ∧ Fine P us := by
  induction h with
  | none => exact ⟨hcmd, hP⟩
  | @more w _ _ _ _ _ _ _ hw hr _ ih =>
    obtain ⟨hd, hus⟩ := hr.words (words_addArg hcmd (hP w (by simp) hw)) hP.tail
    exact ih hd hus

theorem Backs.words (h : Backs cmd ts d us) (hcmd : ∀ x ∈ cmd.words, P x) (hP : Fine P ts) : (∀ x ∈ d.words, P x) ∧ Fine P us := by
  induction h with
  | none => exact ⟨hcmd, hP⟩
  | more _ _ ih => exact ih hcmd hP.tail

theorem Derives.words (h : Derives x ts cmd us) (hP : Fine P ts) : (∀ x ∈ cmd.words, P x) ∧ Fine P us := by
  induction h with
  | last _ hb ih =>
    obtain ⟨hc, hus⟩ := ih hP
    exact hb.words hc hus
  | list _ hb _ _ ih ih' =>
    obtain ⟨hc, hus⟩ := ih hP
    obtain ⟨hd, hvs⟩ := hb.words hc hus
    obtain ⟨he, hws⟩ := ih' hvs.tail
    exact ⟨forall_mem_append.mpr ⟨hd, he⟩, hws⟩
  | one _ ih => exact ih hP
  | pipe _ _ _ ih ih' =>
    obtain ⟨hc, hus⟩ := ih hP
    obtain ⟨hd, hvs⟩ := ih' hus.tail
    exact ⟨forall_mem_append.mpr ⟨hc, hd⟩, hvs⟩
  | block _ _ _ hr ih =>
    obtain ⟨hc, hus⟩ := ih hP.tail
    exact hr.words hc hus.tail
  | simple hr hw =>
    obtain ⟨hc, hus⟩ := hr.words nofun hP
    exact hw.words hc hus

end Cursor

/-- The place of the NUL for a word of a line of length `len`. -/
def cut (len : ℕ) (x : Text × Text) : ℕ := len - x.2.length

theorem nulterminate_apply (len : ℕ) (cmd : Cmd) (m : Mem) (a : ℕ) :
    nulterminate len cmd m a = if a ∈ cmd.words.map (cut len) then 0 else m a := by
  induction cmd generalizing m with
  | exec argv =>
    induction argv generalizing m with
    | nil => rfl
    | cons x argv ih =>
      refine (ih (update m (cut len x) 0)).trans ?_
      rw [update_apply, ← ite_or]
      exact if_congr (by rw [Cmd.words, Cmd.words, map_cons, mem_cons, or_comm]) rfl rfl
  | redir cmd file efile mode fd ih =>
    rw [nulterminate, update_apply, ih, ← ite_or]
    exact if_congr (by rw [Cmd.words, map_append, mem_append, map_singleton, mem_singleton, or_comm]; rfl) rfl rfl
  | pipe left right hl hr | list left right hl hr =>
    rw [nulterminate, hr, hl, ← ite_or]
    exact if_congr (by rw [Cmd.words, map_append, mem_append, or_comm]) rfl rfl
  | back cmd ih => exact ih m

section Terminated
variable {line : CStr} {x y : Text × Text} {pre w pre' w' : Text}

theorem Run.bytes (h : Run line.bytes x pre w) : line.bytes = pre ++ w ++ x.2 := by
  rw [h.line, h.word, append_assoc]

theorem Run.cut_eq (h : Run line.bytes x pre w) : cut line.length x = pre.length + w.length := by
  simp [cut, CStr.length, h.bytes, ← Nat.add_assoc]

theorem Run.byte (h : Run line.bytes x pre w) (hi : i < w.length) : line.bytes[pre.length + i]? = some w[i] := by
  rw [h.bytes, append_assoc, getElem?_append_right (Nat.le_add_right ..), Nat.add_sub_cancel_left,
    getElem?_append_left hi, getElem?_eq_getElem hi]

/-- No word is cut inside. -/
theorem Run.cut_ne (hx : Run line.bytes x pre w) (hy : Run line.bytes y pre' w') (hi : i < w.length) :
    cut line.length y ≠ pre.length + i := by
  intro heq
  rw [hy.cut_eq] at heq
  have hx' := hx.byte hi
  have hy' : line.bytes[pre'.length + w'.length]? = y.2.head? := by
    rw [hy.bytes, ← length_append, getElem?_append_right le_rfl, Nat.sub_self, head?_eq_getElem?]
  rw [← heq, hy'] at hx'
  have hletter := hx.letters _ (getElem_mem hi)
  rw [hy.right _ hx'] at hletter
  cases hletter

end Terminated

/-- After `parsecmd` every word of the tree, read at its pointer, is the whole run of letters
that was scanned for it, and the buffer has changed only at the ends of the words. -/
theorem parsecmd_words {turns : ℕ} {line : CStr} {m m' : Mem} {cmd : Cmd} (h : parsecmd turns line m = .ok (cmd, m')) :
    (∀ x ∈ cmd.words, ∃ pre w, Run line.bytes x pre w ∧ m'.streq pre.length w = true) ∧
      ∀ a, m' a = if a ∈ cmd.words.map (cut line.length) then 0 else m.strcpy 0 line a := by
  unfold parsecmd at h
  cases hall : parseall turns line.bytes with
  | error e => simp [hall] at h
  | ok r =>
    rw [hall] at h
    obtain ⟨rfl, rfl⟩ := Prod.mk.inj (Except.ok.inj h)
    have hnul := nulterminate_apply line.length r.1 (m.strcpy 0 line)
    refine ⟨fun x hx => ?_, hnul⟩
    have hsound : ∀ x ∈ r.1.words, IsWord line.bytes x := by
      obtain ⟨r', hr', -, hiff, -⟩ := parseall_decides line.bytes
      have hr : Except.ok r = r' := hall.symm.trans ((hr'.only turns).resolve_right (by rw [hall]; nofun))
      exact (((hiff r.1 _ trivial).mpr ⟨r.2, hr.symm, rfl⟩).1.words (tokens_words ⟨[], rfl, by simp⟩)).1
    obtain ⟨pre, w, hrun⟩ := hsound x hx
    refine ⟨pre, w, hrun, Mem.streq_iff.mpr ⟨fun i hi => ?_, ?_⟩⟩
    · rw [hnul, if_neg]
      · obtain ⟨hlt, hbyte⟩ := List.getElem?_eq_some_iff.mp (hrun.byte hi)
        have hcopy := (Mem.streq_iff.mp (m.streq_strcpy 0 line)).1 _ hlt
        rw [Nat.zero_add] at hcopy
        exact hcopy.trans hbyte
      · intro hcut
        obtain ⟨y, hy, hplace⟩ := mem_map.mp hcut
        obtain ⟨pre', w', hrun'⟩ := hsound y hy
        exact hrun.cut_ne hrun' hi hplace
    · rw [hnul, if_pos]
      rw [← hrun.cut_eq]
      exact mem_map_of_mem hx

/-- The line `a >b c|d`. -/
def sample : CStr := ⟨[97, 32, 62, 98, 32, 99, 124, 100], by decide⟩

/-- The file name stands before the second argument in the line and after it in the tree. -/
def sampleTree : Cmd :=
  .pipe (.redir (.exec [(sample.bytes, sample.bytes.drop 1), (sample.bytes.drop 5, sample.bytes.drop 6)])
    (sample.bytes.drop 3) (sample.bytes.drop 4) (O_WRONLY ||| O_CREATE) 1) (.exec [(sample.bytes.drop 7, [])])

def sampleBuffer : Mem := nulterminate sample.length sampleTree (Mem.strcpy (fun _ => 0) 0 sample)

theorem sample_words : parsecmd 6 sample (fun _ => 0) = .ok (sampleTree, sampleBuffer) ∧
    (∀ x ∈ sampleTree.words, ∃ pre w, Run sample.bytes x pre w ∧ sampleBuffer.streq pre.length w = true) ∧
    ∀ a, sampleBuffer a = if a ∈ sampleTree.words.map (cut sample.length) then 0 else Mem.strcpy (fun _ => 0) 0 sample a := by
  have hrun : parsecmd 6 sample (fun _ => 0) = .ok (sampleTree, sampleBuffer) := rfl
  exact ⟨hrun, parsecmd_words hrun⟩

end Xv6.Sh
