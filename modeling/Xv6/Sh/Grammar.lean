import Mathlib.Data.List.DropRight
import Xv6.Sh.Parse

/-! # The grammar of command lines

The parser looks one token ahead. A tree that it returns is the tree of a derivation, and it
returns the tree of every derivation that is followed by a token which does not go on with it.
-/
namespace Xv6.Sh
open Comp Sys List

section Settles
variable {σ α β : Type} {F : ℕ → Comp σ α} {K : ℕ → α → Comp σ β} {s s' : σ} {a : α}

/-- The outcome does not depend on the turns, where these suffice. -/
structure Settles (F : ℕ → Comp σ α) (s : σ) (r : Except Stop (α × σ)) : Prop where
  only : ∀ n, F n s = r ∨ F n s = .error .blocked
  ends : ∃ N, ∀ n, N ≤ n → F n s = r

theorem settles_const (h : ∀ n, F n s = r) : Settles F s r :=
  ⟨fun n => .inl (h n), 0, fun n _ => h n⟩

theorem Settles.succ (h : Settles (fun n => F (n + 1)) s r) (hzero : F 0 = block) : Settles F s r := by
  obtain ⟨N, hN⟩ := h.ends
  refine ⟨fun n => ?_, N + 1, fun n hn => ?_⟩
  · cases n with
    | zero => exact .inr (congrFun hzero s)
    | succ n => exact h.only n
  · obtain ⟨n, rfl⟩ := Nat.exists_eq_add_of_le' (Nat.one_le_of_lt hn)
    exact hN n (by omega)

theorem Settles.bind (h : Settles F s (.ok (a, s'))) (hK : Settles (fun n => K n a) s' r) :
    Settles (fun n => F n >>= K n) s r := by
  obtain ⟨N, hN⟩ := h.ends
  obtain ⟨N', hN'⟩ := hK.ends
  refine ⟨fun n => ?_, N + N', fun n hn => ?_⟩
  · rcases h.only n with hn | hn
    · rw [bind_of_ok hn]
      exact hK.only n
    · exact .inr (bind_eq_error.mpr (.inl hn))
  · rw [bind_of_ok (hN n (by omega))]
    exact hN' n (by omega)

theorem Settles.bind_error (h : Settles F s (.error e)) : Settles (fun n => F n >>= K n) s (.error e) := by
  obtain ⟨N, hN⟩ := h.ends
  refine ⟨fun n => ?_, N, fun n hn => bind_eq_error.mpr (.inl (hN n hn))⟩
  rcases h.only n with hn | hn
  · exact .inl (bind_eq_error.mpr (.inl hn))
  · exact .inr (bind_eq_error.mpr (.inl hn))

end Settles

section Tokens
variable {s : Text} {toks : Text}

theorem not_letter_of_symbol (h : c ∈ symbols) : letter c = false := by simp [letter, h]

theorem head_dropWhile {p : UInt8 → Bool} (h : c ∈ (s.dropWhile p).head?) : p c = false := by
  have hnot := head?_dropWhile_not p s
  rwa [h] at hnot

/-- A token ends in a symbol or is a word. -/
theorem scan_cases (r : Text) (hc : c ∉ whitespace) :
    ((scan (c :: r)).1 ≠ ch 'a' ∧ ∃ init d, c :: r = init ++ d :: (scan (c :: r)).2 ∧ letter d = false) ∨
      letter c = true ∧ scan (c :: r) = (ch 'a', (c :: r).dropWhile letter) := by
  by_cases hgt : c = ch '>'
  · subst hgt
    have hlast : letter (ch '>') = false := by decide
    have hne : ch '>' ≠ ch 'a' := by decide
    left
    cases r with
    | nil => exact ⟨hne, [], ch '>', rfl, hlast⟩
    | cons d =>
      by_cases hd : d = ch '>'
      · subst hd
        exact ⟨show ch '+' ≠ ch 'a' by decide, [ch '>'], ch '>', rfl, hlast⟩
      · simp only [scan, if_true, if_neg hd]
        exact ⟨hne, [], ch '>', rfl, hlast⟩
  by_cases hsym : c ∈ symbols
  · left
    simp only [scan, if_neg hgt, if_pos hsym]
    refine ⟨?_, [], c, rfl, not_letter_of_symbol hsym⟩
    rintro rfl
    exact absurd hsym (by decide)
  · right
    simp [scan, hgt, letter, hc, hsym]

theorem scan_length_lt {c : UInt8} {r : Text} (h : skip s = c :: r) : (scan (c :: r)).2.length < s.length := by
  have hle : (c :: r).length ≤ s.length := by
    rw [← h]
    exact length_dropWhile_le _ s
  have hc : c ∉ whitespace := by simpa using head_dropWhile (show c ∈ (skip s).head? by rw [h]; rfl)
  rcases scan_cases r hc with ⟨-, init, d, hsplit, -⟩ | ⟨hletter, hscan⟩
  · have hlen := congrArg length hsplit
    simp only [length_append, length_cons] at hlen hle
    omega
  · have hdrop := length_dropWhile_le letter r
    rw [hscan, dropWhile_cons_of_pos hletter]
    exact Nat.lt_of_le_of_lt hdrop hle

/-- What `gettoken` finds until the end of the line. -/
def tokens (s : Text) : List Token :=
  match _h : skip s with
  | [] => []
  | c :: r => ⟨(scan (c :: r)).1, c :: r, (scan (c :: r)).2⟩ :: tokens (scan (c :: r)).2
termination_by s.length
decreasing_by exact scan_length_lt _h

theorem tokens_nil (h : skip s = []) : tokens s = [] := by
  rw [tokens]
  split
  · rfl
  · next hcons => cases h.symm.trans hcons

theorem tokens_cons {c : UInt8} {r : Text} (h : skip s = c :: r) :
    tokens s = ⟨(scan (c :: r)).1, c :: r, (scan (c :: r)).2⟩ :: tokens (scan (c :: r)).2 := by
  rw [tokens]
  split
  · next hnil => cases h.symm.trans hnil
  · next hcons =>
    cases h.symm.trans hcons
    rfl

theorem tokens_skip (s : Text) : tokens (skip s) = tokens s := by
  have hskip : skip (skip s) = skip s := dropWhile_idempotent ..
  cases h : skip s with
  | nil => rw [tokens_nil h, tokens_nil rfl]
  | cons => rw [tokens_cons h, tokens_cons ((congrArg skip h.symm).trans (hskip.trans h))]

/-- The first character of a token. -/
def first (tok : UInt8) : UInt8 := if tok = ch '+' then ch '>' else tok

def Looks (toks : Text) (ts : List Token) : Prop := ∃ t ∈ ts.head?, first t.tok ∈ toks

theorem looks_cons : Looks toks (t :: ts) ↔ first t.tok ∈ toks := by simp [Looks]

theorem not_looks_nil : ¬ Looks toks [] := by simp [Looks]

theorem first_mem_iff (hgt : c ≠ ch '>') (hplus : c ≠ ch '+') : first tok ∈ [c] ↔ tok = c := by
  rw [mem_singleton, first]
  split
  next h => exact iff_of_false hgt.symm fun heq => hplus (heq.symm.trans h)
  next => exact .rfl

theorem first_scan (c : UInt8) (r : Text) : first (scan (c :: r)).1 = if c ∈ symbols then c else ch 'a' := by
  by_cases hgt : c = ch '>'
  · subst hgt
    cases r with
    | nil => rfl
    | cons d =>
      by_cases hd : d = ch '>'
      · subst hd
        rfl
      · simp only [scan, if_true, if_neg hd]
        rfl
  by_cases hsym : c ∈ symbols
  · have hplus : c ≠ ch '+' := by
      rintro rfl
      exact absurd hsym (by decide)
    simp only [scan, if_neg hgt, if_pos hsym, first, if_neg hplus]
  · simp only [scan, if_neg hgt, if_neg hsym]
    rfl

/-- Token `t` is the next one, or 0 stands for the end. -/
def Reads (s : Text) (t : Token) (s' : Text) : Prop :=
  tokens s = [] ∧ t.tok = 0 ∧ tokens s' = [] ∨ tokens s = t :: tokens s' ∧ t.tok ≠ 0

theorem gettoken_spec (s : Text) : ∃ t s', gettoken s = .ok (t, s') ∧ Reads s t s' := by
  have hget : gettoken s = .ok (⟨(scan (skip s)).1, skip s, (scan (skip s)).2⟩, skip (scan (skip s)).2) := rfl
  refine ⟨_, _, hget, ?_⟩
  cases h : skip s with
  | nil => exact .inl ⟨tokens_nil h, rfl, tokens_nil rfl⟩
  | cons c r =>
    refine .inr ⟨(tokens_cons h).trans (by rw [tokens_skip]), fun hzero => ?_⟩
    have hfirst := first_scan c r
    rw [show (scan (c :: r)).1 = 0 from hzero] at hfirst
    split at hfirst
    next hsym =>
      rw [← hfirst] at hsym
      exact absurd hsym (by decide)
    next => exact absurd hfirst (by decide)

theorem peek_spec (htoks : toks ⊆ symbols) (s : Text) :
    ∃ b, peek toks s = .ok (b, skip s) ∧ (b = true ↔ Looks toks (tokens s)) := by
  refine ⟨_, rfl, ?_⟩
  cases h : skip s with
  | nil => simp [tokens_nil h, not_looks_nil]
  | cons c =>
    have hword : ch 'a' ∉ toks := fun hmem => absurd (htoks hmem) (by decide)
    rw [tokens_cons h, looks_cons, first_scan]
    split
    · simp
    next hsym =>
      have hc : c ∉ toks := fun hmem => hsym (htoks hmem)
      simp [hword, hc]

end Tokens

section Decides
variable {α β : Type} {s : Text} {toks : Text} {a : α} {R R' : α → List Token → Prop} {φ ψ : List Token → Prop}
  {F G : ℕ → Comp Text α}

/-- The computation comes to an end. It returns a value and a rest of the tokens, and these are
the only ones in the relation whose rest is admissible; where it panics there are none. -/
def Decides (F : ℕ → Comp Text α) (s : Text) (R : α → List Token → Prop) (φ : List Token → Prop) : Prop :=
  ∃ r, Settles F s r ∧ r ≠ .error .blocked ∧ (∀ b us, φ us → (R b us ↔ ∃ s', r = .ok (b, s') ∧ us = tokens s')) ∧
    ∀ b s', r = .ok (b, s') → (tokens s').length ≤ (tokens s).length

theorem decides_pure : Decides (fun _ => pure a) s (fun b us => b = a ∧ us = tokens s) φ := by
  refine ⟨.ok (a, s), settles_const fun _ => rfl, nofun, fun b us _ => ⟨?_, ?_⟩, ?_⟩
  · rintro ⟨rfl, rfl⟩
    exact ⟨s, rfl, rfl⟩
  · rintro ⟨s', ⟨⟩, rfl⟩
    exact ⟨rfl, rfl⟩
  · rintro b s' ⟨⟩
    exact le_rfl

theorem decides_panic {msg : String} (h : ∀ b us, φ us → ¬ R b us) : Decides (fun _ => Comp.panic msg) s R φ := by
  refine ⟨.error (.panic msg), settles_const fun _ => rfl, nofun, fun b us hus => ⟨fun hb => (h b us hus hb).elim, ?_⟩, nofun⟩
  rintro ⟨s', ⟨⟩, -⟩

theorem Decides.succ (h : Decides (fun n => F (n + 1)) s R φ) (hzero : F 0 = block) : Decides F s R φ := by
  obtain ⟨r, hr, h⟩ := h
  exact ⟨r, hr.succ hzero, h⟩

theorem Decides.congr (h : Decides F s R φ) (hR : ∀ b us, ψ us → φ us ∧ (R' b us ↔ R b us)) : Decides F s R' ψ := by
  obtain ⟨r, hr, hne, hiff, hle⟩ := h
  exact ⟨r, hr, hne, fun b us hus => (hR b us hus).2.trans (hiff b us (hR b us hus).1), hle⟩

theorem Decides.bind {K : ℕ → α → Comp Text β} {E : α → List Token → β → List Token → Prop} (h : Decides F s R φ)
    (hK : ∀ a s', (tokens s').length ≤ (tokens s).length → Decides (fun n => K n a) s' (E a (tokens s')) ψ)
    (hrest : ∀ a ts b us, ψ us → E a ts b us → φ ts) :
    Decides (fun n => F n >>= K n) s (fun b us => ∃ a ts, R a ts ∧ E a ts b us) ψ := by
  obtain ⟨r, hr, hne, hiff, hle⟩ := h
  rcases r with e | ⟨a, s'⟩
  · refine ⟨.error e, hr.bind_error, by rintro ⟨⟩; exact hne rfl, fun b us hus => ⟨?_, ?_⟩, nofun⟩
    · rintro ⟨a, ts, ha, hb⟩
      obtain ⟨s', ⟨⟩, -⟩ := (hiff a ts (hrest a ts b us hus hb)).mp ha
    · rintro ⟨s', ⟨⟩, -⟩
  · have hle := hle a s' rfl
    obtain ⟨r', hr', hne', hiff', hle'⟩ := hK a s' hle
    refine ⟨r', hr.bind hr', hne', fun b us hus => ⟨?_, fun hb => ?_⟩, fun b s2 hb => (hle' b s2 hb).trans hle⟩
    · rintro ⟨a', ts, ha, hb⟩
      obtain ⟨_, ⟨⟩, rfl⟩ := (hiff a' ts (hrest a' ts b us hus hb)).mp ha
      exact (hiff' b us hus).mp hb
    · have hE := (hiff' b us hus).mpr hb
      exact ⟨a, _, (hiff a _ (hrest a _ b us hus hE)).mpr ⟨s', rfl, rfl⟩, hE⟩

/-- A step that does not branch, to a state with no more tokens. -/
theorem Decides.step {K : ℕ → β → Comp Text α} (hx : x s = .ok (b, s'))
    (hle : (tokens s').length ≤ (tokens s).length) (h : Decides (fun n => K n b) s' R φ) : Decides (fun n => x >>= K n) s R φ := by
  obtain ⟨r, hr, hne, hiff, hle'⟩ := h
  exact ⟨r, (settles_const fun _ => hx).bind hr, hne, hiff, fun a s2 ha => (hle' a s2 ha).trans hle⟩

theorem decides_ite {c : Prop} [Decidable c] (hF : c → Decides F s R φ) (hG : ¬ c → Decides G s R φ) :
    Decides (fun n => if c then F n else G n) s R φ := by
  by_cases hc : c
  · simpa only [if_pos hc] using hF hc
  · simpa only [if_neg hc] using hG hc

theorem decides_peek (htoks : toks ⊆ symbols) (hF : ∀ s', tokens s' = tokens s → Looks toks (tokens s) → Decides F s' R φ)
    (hG : ∀ s', tokens s' = tokens s → ¬ Looks toks (tokens s) → Decides G s' R φ) :
    Decides (fun n => peek toks >>= fun b => if b = true then F n else G n) s R φ := by
  obtain ⟨b, hpeek, hb⟩ := peek_spec htoks s
  refine .step (K := fun n b => if b = true then F n else G n) hpeek (by rw [tokens_skip]) (decides_ite (fun h => ?_) fun h => ?_)
  · exact hF _ (tokens_skip s) (hb.mp h)
  · exact hG _ (tokens_skip s) fun hlooks => h (hb.mpr hlooks)

theorem decides_gettoken {K : ℕ → Token → Comp Text α} (hK : ∀ t s', Reads s t s' → Decides (fun n => K n t) s' R φ) :
    Decides (fun n => gettoken >>= K n) s R φ := by
  obtain ⟨t, s', hget, hreads⟩ := gettoken_spec s
  refine .step hget ?_ (hK t s' hreads)
  rcases hreads with ⟨-, -, hnil⟩ | ⟨hcons, -⟩
  · simp [hnil]
  · simp [hcons]

theorem decides_take {K : ℕ → Token → Comp Text α} (htoks : toks ⊆ symbols)
    (hK : ∀ t s', tokens s = t :: tokens s' → first t.tok ∈ toks → Decides (fun n => K n t) s' R φ)
    (hG : ∀ s', tokens s' = tokens s → ¬ Looks toks (tokens s) → Decides G s' R φ) :
    Decides (fun n => peek toks >>= fun b => if b = true then gettoken >>= K n else G n) s R φ := by
  refine decides_peek htoks (fun s' hs hlooks => decides_gettoken fun t s2 ht => ?_) hG
  rw [Reads, hs] at ht
  rcases ht with ⟨hnil, -, -⟩ | ⟨ht, -⟩
  · rw [hnil] at hlooks
    exact (not_looks_nil hlooks).elim
  · rw [ht, looks_cons] at hlooks
    exact hK t s2 ht hlooks

end Decides

section Grammar

/-- `redir*` with `redir := ('<' | '>' | '>>') word`, from a command and the tokens to the
command inside the redirections and the tokens that are left. -/
inductive Redirs : Cmd → List Token → Cmd → List Token → Prop
  | none {c ts} : Redirs c ts c ts
  | input {o f : Token} {c ts d us} : o.tok = ch '<' → f.tok = ch 'a' → Redirs (.redir c f.q f.eq O_RDONLY 0) ts d us →
    Redirs c (o :: f :: ts) d us
  | output {o f : Token} {c ts d us} : o.tok = ch '>' ∨ o.tok = ch '+' → f.tok = ch 'a' →
    Redirs (.redir c f.q f.eq (O_WRONLY ||| O_CREATE) 1) ts d us → Redirs c (o :: f :: ts) d us

/-- `(word redir*)*` with the number of words. -/
inductive Words : ℕ → Cmd → List Token → Cmd → List Token → Prop
  | none {c ts} : Words 0 c ts c ts
  | more {w : Token} {n c ts d us e vs} : w.tok = ch 'a' → Redirs (c.addArg w.q w.eq) ts d us → Words n d us e vs →
    Words (n + 1) c (w :: ts) e vs

/-- `'&'*`. -/
inductive Backs : Cmd → List Token → Cmd → List Token → Prop
  | none {c ts} : Backs c ts c ts
  | more {t : Token} {c ts d us} : t.tok = ch '&' → Backs (.back c) ts d us → Backs c (t :: ts) d us

inductive Nonterminal
  | line
  | pipe
  | exec

inductive Derives : Nonterminal → List Token → Cmd → List Token → Prop
  | last {ts c us d vs} : Derives .pipe ts c us → Backs c us d vs → Derives .line ts d vs
  | list {t : Token} {ts c us d vs e ws} : Derives .pipe ts c us → Backs c us d (t :: vs) → t.tok = ch ';' →
    Derives .line vs e ws → Derives .line ts (.list d e) ws
  | one {ts c us} : Derives .exec ts c us → Derives .pipe ts c us
  | pipe {t : Token} {ts c us d vs} : Derives .exec ts c (t :: us) → t.tok = ch '|' → Derives .pipe us d vs →
    Derives .pipe ts (.pipe c d) vs
  | block {l r : Token} {ts c us d vs} : l.tok = ch '(' → Derives .line ts c (r :: us) → r.tok = ch ')' → Redirs c us d vs →
    Derives .exec (l :: ts) d vs
  | simple {n ts c us d vs} : Redirs (.exec []) ts c us → Words n c us d vs → n < MAXARGS → Derives .exec ts d vs

/-- The tokens that may follow. -/
def follow : Nonterminal → Text
  | .line => [ch ')']
  | .pipe => [ch ')', ch '&', ch ';']
  | .exec => [ch ')', ch '&', ch ';', ch '|']

def Ends (x : Nonterminal) (ts : List Token) : Prop := ∀ t ∈ ts.head?, t.tok ∈ follow x

section Lookahead
variable {x y : Nonterminal} {toks : Text} {t o f : Token} {ts us : List Token} {c d cmd : Cmd} {n : ℕ} {tok : UInt8}

theorem Ends.not_looks (h : Ends x us) (hne : (follow x).all (first · ∉ toks)) : ¬ Looks toks us := by
  rintro ⟨t, ht, hlooks⟩
  exact of_decide_eq_true (all_eq_true.mp hne _ (h t ht)) hlooks

theorem Ends.mono (h : Ends x us) (hsub : follow x ⊆ follow y) : Ends y us := fun t ht => hsub (h t ht)

theorem ends_cons (h : t.tok = tok) (htok : tok ∈ follow x) : Ends x (t :: ts) := by
  rintro t' ⟨⟩
  rwa [h]

theorem not_ends_word (h : t.tok = ch 'a') : ¬ Ends .exec (t :: ts) := by
  intro hends
  have hmem := hends t rfl
  rw [h] at hmem
  exact absurd hmem (by decide)

/-- The next token is not that of a redirection. -/
def Plain (ts : List Token) : Prop := ¬ Looks [ch '<', ch '>'] ts

theorem redirs_plain (h : Plain ts) : Redirs c ts d us ↔ d = c ∧ us = ts := by
  constructor
  · rintro (_ | ⟨ho, -, -⟩ | ⟨ho | ho, -, -⟩)
    · exact ⟨rfl, rfl⟩
    all_goals exact (h (looks_cons.mpr (by rw [ho]; decide))).elim
  · rintro ⟨rfl, rfl⟩
    exact .none

theorem redirs_cons (ho : first o.tok ∈ [ch '<', ch '>']) (hus : Plain us) :
    Redirs c (o :: ts) d us ↔ ∃ f ts', ts = f :: ts' ∧ f.tok = ch 'a' ∧ Redirs (redirect c o.tok f) ts' d us := by
  constructor
  · rintro (_ | ⟨ho, hf, h⟩ | ⟨ho | ho, hf, h⟩)
    · exact (hus (looks_cons.mpr ho)).elim
    all_goals
      refine ⟨_, _, rfl, hf, ?_⟩
      rw [ho]
      exact h
  · rintro ⟨f, ts, rfl, hf, h⟩
    by_cases hplus : o.tok = ch '+'
    · rw [hplus] at h
      exact .output (.inr hplus) hf h
    · rw [first, if_neg hplus, mem_pair] at ho
      rcases ho with ho | ho <;> rw [ho] at h
      · exact .input ho hf h
      · exact .output (.inl ho) hf h

theorem parseredirs_decides (cmd : Cmd) (s : Text) : Decides (fun n => parseredirs n cmd) s (Redirs cmd (tokens s)) Plain := by
  induction hk : (tokens s).length using Nat.strong_induction_on generalizing s cmd with
  | _ k ih =>
    refine .succ (decides_take (by decide) (fun o s1 h1 ho => ?_) fun s1 h1 hlooks => ?_) rfl
    · refine decides_gettoken fun f s2 h2 => decides_ite (fun hf => decides_panic ?_) fun hf => ?_
      · intro d us hus h
        rw [h1] at h
        obtain ⟨f', ts, hts, hf', -⟩ := (redirs_cons ho hus).mp h
        rcases h2 with ⟨hnil, -⟩ | ⟨h2, -⟩
        · cases hnil.symm.trans hts
        · rw [(cons.inj (h2.symm.trans hts)).1] at hf
          exact hf hf'
      · have hword := not_not.mp hf
        obtain ⟨h2, -⟩ := h2.resolve_left fun h => absurd (h.2.1.symm.trans hword) (by decide)
        have hlt : (tokens s2).length < k := by
          rw [← hk, h1, h2]
          simp only [length_cons]
          omega
        refine (ih _ hlt (redirect cmd o.tok f) s2 rfl).congr fun d us hus => ⟨hus, ?_⟩
        rw [h1, redirs_cons ho hus, h2]
        simp [hword]
    · refine decides_pure.congr fun d us hus => ⟨hus, ?_⟩
      rw [redirs_plain hlooks, h1]

theorem amp_iff : first tok ∈ [ch '&'] ↔ tok = ch '&' := first_mem_iff (by decide) (by decide)

theorem parsebacks_decides (cmd : Cmd) (s : Text) :
    Decides (fun n => parsebacks n cmd) s (Backs cmd (tokens s)) fun us => ¬ Looks [ch '&'] us := by
  induction hk : (tokens s).length using Nat.strong_induction_on generalizing s cmd with
  | _ k ih =>
    refine .succ (decides_take (by decide) (fun t s1 h1 ht => ?_) fun s1 h1 hlooks => ?_) rfl
    · have hlt : (tokens s1).length < k := by
        rw [← hk, h1]
        exact Nat.lt_succ_self _
      refine (ih _ hlt (.back cmd) s1 rfl).congr fun d us hus => ⟨hus, ?_, fun h => h1 ▸ .more (amp_iff.mp ht) h⟩
      rw [h1]
      rintro (_ | ⟨-, h⟩)
      · exact (hus (looks_cons.mpr ht)).elim
      · exact h
    · refine decides_pure.congr fun d us hus => ⟨hus, ?_, fun h => ?_⟩
      · rw [h1]
        generalize tokens s = ts at hlooks
        rintro (_ | ⟨ht, -⟩)
        · exact ⟨rfl, rfl⟩
        · exact (hlooks (looks_cons.mpr (amp_iff.mpr ht))).elim
      · rw [h.1, h.2, h1]
        exact .none

theorem Words.plain (h : Words n c ts d us) (hus : Ends .exec us) : Plain ts := by
  cases h with
  | none => exact hus.not_looks (by decide)
  | more hw =>
    rw [Plain, looks_cons, hw]
    decide

theorem parseargs_decides (argc : ℕ) (ret : Cmd) (s : Text) (hargc : argc < MAXARGS) : Decides (fun n => parseargs n argc ret) s
    (fun d us => ∃ n, Words n ret (tokens s) d us ∧ argc + n < MAXARGS) (Ends .exec) := by
  induction hk : (tokens s).length using Nat.strong_induction_on generalizing s argc ret with
  | _ k ih =>
    have hstop (s' : Text) (h' : tokens s' = tokens s) (hno : ∀ t ∈ (tokens s).head?, t.tok ≠ ch 'a') :
        Decides (fun _ => pure ret) s' (fun d us => ∃ n, Words n ret (tokens s) d us ∧ argc + n < MAXARGS) (Ends .exec) := by
      refine decides_pure.congr fun d us hus => ⟨hus, ?_, fun h => ⟨0, ?_, hargc⟩⟩
      · rintro ⟨n, h, -⟩
        rw [h']
        generalize tokens s = ts at h hno
        cases h with
        | none => exact ⟨rfl, rfl⟩
        | more hw _ _ => exact (hno _ rfl hw).elim
      · rw [h.1, h.2, h']
        exact .none
    refine .succ (decides_peek (by decide) (fun s1 h1 hlooks => hstop s1 h1 fun t ht hword => ?_) fun s1 h1 hlooks => ?_) rfl
    · obtain ⟨t', ht', hfirst⟩ := hlooks
      rw [Option.mem_unique ht' ht, hword] at hfirst
      exact absurd hfirst (by decide)
    refine decides_gettoken fun t s2 h2 => decides_ite (fun hzero => ?_) fun hzero => ?_
    · obtain ⟨hnil, -, hnil'⟩ := h2.resolve_right fun h => h.2 hzero
      rw [h1] at hnil
      exact hstop s2 (hnil'.trans hnil.symm) (by simp [hnil])
    obtain ⟨h2, -⟩ := h2.resolve_left fun h => hzero h.2.1
    rw [h1] at h2
    rw [h2] at hlooks hk ⊢
    refine decides_ite (fun hword => decides_panic ?_) fun hword => decides_ite (fun hmany => decides_panic ?_) fun hmany => ?_
    · rintro d us hus ⟨n, h, -⟩
      cases h with
      | none =>
        have hfollow : (follow .exec).map first ⊆ [ch '|', ch ')', ch '&', ch ';'] := by decide
        exact hlooks (looks_cons.mpr (hfollow (mem_map_of_mem (hus t rfl))))
      | more hw => exact hword hw
    · rintro d us hus ⟨n, h, hlen⟩
      cases h with
      | none => exact not_ends_word (not_not.mp hword) hus
      | more => omega
    · refine ((parseredirs_decides (ret.addArg t.q t.eq) s2).bind (E := fun d ts e us => ∃ n, Words n d ts e us ∧ argc + 1 + n < MAXARGS)
        (fun d s' hle => ih _ ?_ (argc + 1) d s' (by omega) rfl) fun d ts e us hus h => h.choose_spec.1.plain hus).congr
        fun e us hus => ⟨hus, ?_, ?_⟩
      · rw [← hk]
        exact Nat.lt_succ_of_le hle
      · rintro ⟨n, h, hlen⟩
        cases h with
        | none => exact (not_ends_word (not_not.mp hword) hus).elim
        | more _ hr h => exact ⟨_, _, hr, _, h, by omega⟩
      · rintro ⟨d, ts, hr, n, h, hlen⟩
        exact ⟨n + 1, .more (not_not.mp hword) hr h, by omega⟩

/-- The rest of a list or of a pipe after its first command. -/
def Tail (sym : UInt8) (node : Cmd → Cmd → Cmd) (x : Nonterminal) (c : Cmd) (ts : List Token) (d : Cmd) (us : List Token) : Prop :=
  d = c ∧ us = ts ∨ ∃ t ts' e, ts = t :: ts' ∧ t.tok = sym ∧ Derives x ts' e us ∧ d = node c e

/-- The parser and the nonterminal agree. -/
def Exact (F : ℕ → Comp Text Cmd) (x : Nonterminal) (s : Text) : Prop := Decides F s (Derives x (tokens s)) (Ends x)

theorem tail_decides {F : ℕ → Comp Text Cmd} {sym : UInt8} {s : Text} (node : Cmd → Cmd → Cmd) (c : Cmd)
    (hsym : sym ∈ symbols ∧ sym ≠ ch '>' ∧ sym ≠ ch '+') (hend : (follow x).all (first · ∉ [sym]))
    (hF : ∀ s', (tokens s').length < (tokens s).length → Exact F x s') :
    Decides (fun n => peek [sym] >>= fun b => if b = true then gettoken >>= fun _ => F n >>= fun d => pure (node c d) else pure c)
      s (Tail sym node x c (tokens s)) (Ends x) := by
  obtain ⟨hmem, hgt, hplus⟩ := hsym
  refine decides_take (by simpa using hmem) (fun t s1 h1 ht => ?_) fun s1 h1 hlooks => ?_
  · refine ((hF s1 (h1 ▸ Nat.lt_succ_self _)).bind (E := fun e ts d us => d = node c e ∧ us = ts) (fun e s' _ => decides_pure)
      fun e ts d us hus h => h.2 ▸ hus).congr fun d us hus => ⟨hus, ?_, ?_⟩
    · rintro (⟨-, rfl⟩ | ⟨t', ts, e, hts, -, he, rfl⟩)
      · rw [h1] at hus
        exact (hus.not_looks hend (looks_cons.mpr ht)).elim
      · obtain ⟨rfl, rfl⟩ := cons.inj (h1.symm.trans hts)
        exact ⟨e, us, he, rfl, rfl⟩
    · rintro ⟨e, ts, he, rfl, rfl⟩
      exact .inr ⟨t, _, e, h1, (first_mem_iff hgt hplus).mp ht, he, rfl⟩
  · refine decides_pure.congr fun d us hus => ⟨hus, ?_, fun h => .inl (h1 ▸ h)⟩
    rintro (h | ⟨t, ts, e, hts, ht, -⟩)
    · exact h1.symm ▸ h
    · rw [hts, looks_cons, first_mem_iff hgt hplus] at hlooks
      exact (hlooks ht).elim

section Recursion
variable {s : Text}

theorem parsepipe_exact (hexec : Exact parseexec .exec s)
    (ih : ∀ s', (tokens s').length < (tokens s).length → Exact parsepipe .pipe s') : Exact parsepipe .pipe s := by
  refine .succ ((hexec.bind (E := Tail (ch '|') .pipe .pipe) (fun c s' hle => tail_decides .pipe c (by decide) (by decide)
    fun s2 hlt => ih s2 (hlt.trans_le hle)) ?_).congr fun d us hus => ⟨hus, fun h => ?_, ?_⟩) rfl
  · rintro c ts d us hus (⟨-, rfl⟩ | ⟨t, ts, e, rfl, ht, -⟩)
    · exact hus.mono (by decide)
    · exact ends_cons ht (by decide)
  · cases h with
    | one hc => exact ⟨_, _, hc, .inl ⟨rfl, rfl⟩⟩
    | pipe hc ht he => exact ⟨_, _, hc, .inr ⟨_, _, _, rfl, ht, he, rfl⟩⟩
  · rintro ⟨c, ts, hc, ⟨rfl, rfl⟩ | ⟨t, ts, e, rfl, ht, he, rfl⟩⟩
    · exact .one hc
    · exact .pipe hc ht he

theorem parseline_exact (hpipe : Exact parsepipe .pipe s)
    (ih : ∀ s', (tokens s').length < (tokens s).length → Exact parseline .line s') : Exact parseline .line s := by
  refine .succ ((hpipe.bind (E := fun c ts e us => ∃ d vs, Backs c ts d vs ∧ Tail (ch ';') .list .line d vs e us)
    (fun c s' hle => (parsebacks_decides c s').bind (fun d s1 hle1 => tail_decides .list d (by decide) (by decide)
      fun s2 hlt => ih s2 (hlt.trans_le (hle1.trans hle))) ?_) ?_).congr fun d us hus => ⟨hus, fun h => ?_, ?_⟩) rfl
  · rintro d vs e us hus (⟨-, rfl⟩ | ⟨t, ts, e, rfl, ht, -⟩)
    · exact hus.not_looks (by decide)
    · rw [looks_cons, ht]
      decide
  · rintro c ts e us hus ⟨d, vs, _ | ⟨ht, -⟩, htail⟩
    · rcases htail with ⟨-, rfl⟩ | ⟨t, ts, e, rfl, ht, -⟩
      · exact hus.mono (by decide)
      · exact ends_cons ht (by decide)
    · exact ends_cons ht (by decide)
  · cases h with
    | last hc hb => exact ⟨_, _, hc, _, _, hb, .inl ⟨rfl, rfl⟩⟩
    | list hc hb ht he => exact ⟨_, _, hc, _, _, hb, .inr ⟨_, _, _, rfl, ht, he, rfl⟩⟩
  · rintro ⟨c, ts, hc, d, vs, hb, ⟨rfl, rfl⟩ | ⟨t, ts, e, rfl, ht, he, rfl⟩⟩
    · exact .last hc hb
    · exact .list hc hb ht he

/-- The rest of a block after the line inside. -/
def Closing (c : Cmd) (ts : List Token) (d : Cmd) (vs : List Token) : Prop :=
  ∃ r us, ts = r :: us ∧ r.tok = ch ')' ∧ Redirs c us d vs

theorem parseblock_decides (ih : ∀ s', (tokens s').length < (tokens s).length → Exact parseline .line s') : Decides parseblock s
    (fun d vs => ∃ l ts c us, tokens s = l :: ts ∧ l.tok = ch '(' ∧ Derives .line ts c us ∧ Closing c us d vs) (Ends .exec) := by
  refine .succ (decides_take (by decide) (fun l s1 h1 hl => ?_) fun s1 h1 hlooks => decides_panic ?_) rfl
  · rw [first_mem_iff (by decide) (by decide)] at hl
    refine ((ih s1 (h1 ▸ Nat.lt_succ_self _)).bind (E := Closing) (fun c s' _ => decides_take (by decide) (fun r s2 h2 hr => ?_)
      fun s2 h2 hlooks => decides_panic ?_) ?_).congr fun d vs hvs => ⟨hvs, ?_, ?_⟩
    · rw [first_mem_iff (by decide) (by decide)] at hr
      refine (parseredirs_decides c s2).congr fun d vs hvs => ⟨hvs.not_looks (by decide), ?_, fun h => ⟨r, _, h2, hr, h⟩⟩
      rintro ⟨r', us, hus, -, h⟩
      obtain ⟨rfl, rfl⟩ := cons.inj (h2.symm.trans hus)
      exact h
    · rintro d vs - ⟨r, us, hus, hr, -⟩
      rw [hus, looks_cons, hr] at hlooks
      exact hlooks (by decide)
    · rintro c ts d vs - ⟨r, us, rfl, hr, -⟩
      exact ends_cons hr (by decide)
    · rintro ⟨l', ts, c, us, hts, -, hc, h⟩
      obtain ⟨rfl, rfl⟩ := cons.inj (h1.symm.trans hts)
      exact ⟨c, us, hc, h⟩
    · rintro ⟨c, us, hc, h⟩
      exact ⟨l, _, c, us, h1, hl, hc, h⟩
  · rintro d vs - ⟨l, ts, c, us, hts, hl, -⟩
    rw [hts, looks_cons, hl] at hlooks
    exact hlooks (by decide)

theorem parseexec_exact (ih : ∀ s', (tokens s').length < (tokens s).length → Exact parseline .line s') : Exact parseexec .exec s := by
  refine .succ (decides_peek (by decide) (fun s1 h1 hlooks => ?_) fun s1 h1 hlooks => ?_) rfl
  · rw [← h1] at ih hlooks ⊢
    refine (parseblock_decides ih).congr fun d vs hvs => ⟨hvs, fun h => ?_, ?_⟩
    · generalize tokens s1 = ts at h hlooks
      cases h with
      | block hl hc hr h => exact ⟨_, _, _, _, rfl, hl, hc, _, _, rfl, hr, h⟩
      | simple hr hw =>
        -- a parenthesis begins neither a redirection nor a word
        obtain ⟨t, ht, hfirst⟩ := hlooks
        have hplain : Plain ts := fun ⟨t', ht', hfirst'⟩ => by
          rw [Option.mem_unique ht' ht, mem_singleton.mp hfirst] at hfirst'
          exact absurd hfirst' (by decide)
        obtain ⟨-, rfl⟩ := (redirs_plain hplain).mp hr
        cases hw with
        | none => exact (hvs.not_looks (by decide) ⟨t, ht, hfirst⟩).elim
        | more hw =>
          cases ht
          rw [hw] at hfirst
          exact absurd hfirst (by decide)
    · rintro ⟨l, ts, c, _, hts, hl, hc, r, us, rfl, hr, h⟩
      rw [hts]
      exact .block hl hc hr h
  · refine ((parseredirs_decides (.exec []) s1).bind (E := fun d ts e us => ∃ n, Words n d ts e us ∧ 0 + n < MAXARGS)
      (fun d s' _ => parseargs_decides 0 d s' (by decide)) fun d ts e us hus h => h.choose_spec.1.plain hus).congr
      fun e us hus => ⟨hus, fun h => ?_, ?_⟩
    · rw [← h1] at h hlooks
      generalize tokens s1 = ts at h hlooks
      cases h with
      | block hl => exact (hlooks (looks_cons.mpr (by rw [hl]; decide))).elim
      | simple hr hw => exact ⟨_, _, hr, _, hw, by rwa [Nat.zero_add]⟩
    · rintro ⟨d, ts, hr, n, hw, hlen⟩
      rw [h1] at hr
      exact .simple hr hw (by rwa [Nat.zero_add] at hlen)

theorem parse_exact (s : Text) : Exact parseline .line s ∧ Exact parsepipe .pipe s := by
  induction hk : (tokens s).length using Nat.strong_induction_on generalizing s with
  | _ k ih =>
    subst hk
    have hexec : Exact parseexec .exec s := parseexec_exact fun s' h => (ih _ h s' rfl).1
    have hpipe := parsepipe_exact hexec fun s' h => (ih _ h s' rfl).2
    exact ⟨parseline_exact hpipe fun s' h => (ih _ h s' rfl).1, hpipe⟩

theorem parseall_decides (s : Text) : Decides parseall s (fun d us => Derives .line (tokens s) d us ∧ us = []) fun _ => True := by
  refine ((parse_exact s).1.bind (E := fun c ts d us => d = c ∧ us = ts ∧ us = []) (fun c s' _ => ?_) ?_).congr
    fun d us _ => ⟨trivial, ?_, ?_⟩
  · refine .step (x := peek []) rfl (by rw [tokens_skip]) (.step (x := .get) rfl le_rfl ?_)
    refine decides_ite (fun hne => decides_panic ?_) fun hnil => decides_pure.congr fun d us _ => ⟨trivial, ?_, ?_⟩
    · rintro d us - ⟨-, hus, hnil⟩
      obtain ⟨x, r, hskip⟩ := exists_cons_of_ne_nil hne
      cases (hus.symm.trans hnil).symm.trans (tokens_cons hskip)
    · rintro ⟨rfl, rfl, -⟩
      exact ⟨rfl, (tokens_skip s').symm⟩
    · rintro ⟨rfl, rfl⟩
      exact ⟨rfl, tokens_skip s', (tokens_skip s').trans (tokens_nil (not_not.mp hnil))⟩
  · rintro c ts d us - ⟨rfl, rfl, rfl⟩ t ⟨⟩
  · rintro ⟨hd, rfl⟩
    exact ⟨d, [], hd, rfl, rfl, rfl⟩
  · rintro ⟨c, ts, hc, rfl, rfl, rfl⟩
    exact ⟨hc, rfl⟩

end Recursion
end Lookahead
end Grammar

/-- With enough turns `parsecmd` returns exactly the trees of the derivations of the line, and
otherwise panics. -/
theorem parsecmd_exact (line : CStr) (m : Mem) : ∃ N, ∀ turns, N ≤ turns → parsecmd turns line m ≠ .error .blocked ∧
    ∀ cmd, (∃ m', parsecmd turns line m = .ok (cmd, m')) ↔ Derives .line (tokens line.bytes) cmd [] := by
  obtain ⟨r, hr, hne, hiff, -⟩ := parseall_decides line.bytes
  obtain ⟨N, hN⟩ := hr.ends
  refine ⟨N, fun turns hturns => ?_⟩
  have hcmd (cmd : Cmd) := (and_iff_left rfl).symm.trans (hiff cmd [] trivial)
  rw [parsecmd, hN turns hturns]
  rcases r with e | ⟨c, s'⟩
  · refine ⟨by rintro ⟨⟩; exact hne rfl, fun cmd => ⟨nofun, fun h => ?_⟩⟩
    obtain ⟨s', ⟨⟩, -⟩ := (hcmd cmd).mp h
  · refine ⟨nofun, fun cmd => ⟨?_, fun h => ?_⟩⟩
    · rintro ⟨m', ⟨⟩⟩
      obtain ⟨h, hnil⟩ := (hiff c _ trivial).mpr ⟨s', rfl, rfl⟩
      rwa [hnil] at h
    · obtain ⟨s', ⟨⟩, -⟩ := (hcmd cmd).mp h
      exact ⟨_, rfl⟩

/-- No line has two derivations with different trees. -/
theorem grammar_unambiguous (line : CStr) : Subsingleton { cmd // Derives .line (tokens line.bytes) cmd [] } := by
  obtain ⟨r, -, -, hiff, -⟩ := parseall_decides line.bytes
  constructor
  intro c d
  obtain ⟨s, hs, -⟩ := (hiff c.1 [] trivial).mp ⟨c.2, rfl⟩
  obtain ⟨t, ht, -⟩ := (hiff d.1 [] trivial).mp ⟨d.2, rfl⟩
  have heq := Except.ok.inj (hs.symm.trans ht)
  exact Subtype.ext (congrArg Prod.fst heq)

end Xv6.Sh
