import Mathlib.Data.List.Induction
import Mathlib.Data.List.TakeWhile
import Mathlib.Tactic.Ring
import Xv6.Lib.Words

/-! # The command line of the process manager

`parsecmd` of pmanager.c overwrites the newline by a space, cuts the line with
`strtok1` and reads at most `MAXARGS + 1` arguments; a missing argument is a null
pointer. A string is its bytes before the NUL.
-/
namespace Xv6.Pmanager
open List

def MAXARGS : ℕ := 3

def space (c : UInt8) : Bool := c == 32

/-- The scan of `strtok1`: the bytes of `ret` passed so far, what `b` still has to
read, and the static `_buffer`. -/
def strtokFrom (ret : List UInt8) : List UInt8 → List UInt8 → List UInt8 × List UInt8
  | [], buffer => (ret, buffer)
  | c :: b, buffer =>
    if space c then
      -- skip the beginning delimiters
      if ret = [] then strtokFrom [] b b else (ret, b)
    else strtokFrom (ret ++ [c]) b buffer

/-- `strtok1(0, " ")`: the token, or null at the end, and the new `_buffer`. -/
def strtok1 (buffer : List UInt8) : Option (List UInt8 × List UInt8) :=
  if buffer = [] then none else some (strtokFrom [] buffer buffer)

def parseline : ℕ → List UInt8 → List (List UInt8)
  | 0, _ => []
  | i + 1, s =>
    match strtok1 s with
    | none => []
    | some (ptr, buffer) => ptr :: parseline i buffer

inductive Cmd where
  | list
  | kill (pid : ℤ)
  | execute (path : List UInt8) (stacksize : ℤ)
  | memlim (pid limit : ℤ)
  | exit
  deriving DecidableEq

def ascii (s : String) : List UInt8 := s.toList.map fun c => UInt8.ofNat c.toNat

def digit (c : UInt8) : Bool := 48 ≤ c && c ≤ 57

def digits (s : List UInt8) : Bool := s.all digit

def atoi (s : List UInt8) : BitVec 32 :=
  (s.takeWhile digit).foldl (fun n c => n * 10 + BitVec.ofNat 32 c.toNat - 48) 0

/-- `parsecmd` on the argument vector: `none` is a read through a null pointer,
`some none` the null command. -/
def parseargs (arg : List (List UInt8)) : Option (Option Cmd) := do
  let name ← arg[0]?
  if name = ascii "list" then
    if arg[1]?.isSome then return none
    return some .list
  else if name = ascii "kill" then
    if arg[2]?.isSome then return none
    let pid ← arg[1]?
    if !digits pid then return none
    return some (.kill (atoi pid).toInt)
  else if name = ascii "execute" then
    if arg[3]?.isSome then return none
    let stacksize ← arg[2]?
    if !digits stacksize then return none
    let path ← arg[1]?
    return some (.execute path (atoi stacksize).toInt)
  else if name = ascii "memlim" then
    if arg[3]?.isSome then return none
    let pid ← arg[1]?
    if !digits pid then return none
    let limit ← arg[2]?
    if !digits limit then return none
    return some (.memlim (atoi pid).toInt (atoi limit).toNat)
  else if name = ascii "exit" then
    if arg[1]?.isSome then return none
    return some .exit
  else return none

def parsecmd (s : List UInt8) : Option (Option Cmd) :=
  parseargs (parseline (MAXARGS + 1) (s.dropLast ++ [32]))

section Tokens

variable {c : UInt8} {l : List UInt8}

/-- A delimiter stands at the end of the line, or the line is empty. -/
def blankEnd (l : List UInt8) : Bool := l.getLast?.all space

theorem blankEnd_cons (h : space c = true) : blankEnd (c :: l) = blankEnd l := by
  cases l with
  | nil => simp [blankEnd, h]
  | cons => simp [blankEnd, getLast?_cons_cons]

theorem strtokFrom_word (hw : ∀ x ∈ w, space x = false) (ret buffer rest : List UInt8)
    (hne : ret ++ w ≠ []) (hc : space c = true) :
    strtokFrom ret (w ++ c :: rest) buffer = (ret ++ w, rest) := by
  induction w generalizing ret with
  | nil | cons => simp_all [strtokFrom]

theorem strtok1_word (hw : ∀ x ∈ w, space x = false) (hne : w ≠ []) (rest : List UInt8)
    (hc : space c = true) : strtok1 (w ++ c :: rest) = some (w, rest) := by
  simp [strtok1, strtokFrom_word hw [] _ rest (by simpa using hne) hc]

theorem strtok1_space (h : space c = true) : strtok1 (c :: (l ++ [32])) = strtok1 (l ++ [32]) := by
  simp [strtok1, strtokFrom, h]

/-- The arguments are the words, and an empty one after them where a space precedes
the newline. -/
theorem parseline_eq (k : ℕ) (l : List UInt8) :
    parseline k (l ++ [32]) = (words space l ++ if blankEnd l then [[]] else []).take k := by
  induction hlen : l.length using Nat.strong_induction_on generalizing k l with
  | _ n ih =>
    match k, l with
    | 0, _ => simp [parseline]
    | 1, [] | k + 2, [] => rfl
    | k + 1, c :: l =>
      by_cases h : space c = true
      · rw [words_cons_sep h, blankEnd_cons h, ← ih l.length (by simp [← hlen]) (k + 1) l rfl,
          cons_append, parseline, strtok1_space h, parseline]
      rw [Bool.not_eq_true] at h
      obtain ⟨w, rest, -, -, heq, hne, hw, hrest⟩ := exists_word h l
      rw [heq] at hlen ⊢
      cases rest with
      | nil =>
        -- the last word, closed by the space in the newline's place
        have hend : blankEnd w = false := by
          rw [blankEnd, getLast?_eq_some_getLast hne]
          exact hw _ (getLast_mem hne)
        rw [append_nil, words_of_forall hw hne, hend, parseline, strtok1_word hw hne [] rfl]
        cases k <;> rfl
      | cons s rest =>
        have hs : space s = true := hrest s rfl
        have hend : blankEnd (w ++ s :: rest) = blankEnd rest := by
          rw [← blankEnd_cons (l := rest) hs, blankEnd, blankEnd, getLast?_append,
            getLast?_cons, Option.some_or]
        have hlt : rest.length < n := by simp at hlen; omega
        rw [words_append_cons hw hne hs, hend, append_assoc, cons_append, parseline,
          strtok1_word hw hne _ hs, cons_append, take_succ_cons, ← ih _ hlt k rest rfl]

end Tokens

/-- The decimal value of a string of digits. -/
def value (s : List UInt8) : ℕ := s.foldl (fun v c => v * 10 + (c.toNat - 48)) 0

/-- The command the words of a line stand for. -/
def command : List (List UInt8) → Option Cmd
  | [w] => if w = ascii "list" then some .list else if w = ascii "exit" then some .exit else none
  | [w, n] => if w = ascii "kill" ∧ digits n then some (.kill (value n)) else none
  | [w, p, n] =>
    if w = ascii "execute" ∧ digits n then some (.execute p (value n))
    else if w = ascii "memlim" ∧ digits p ∧ digits n then some (.memlim (value p) (value n))
    else none
  | _ => none

/-- A command whose next argument is missing. -/
def Lacking : List (List UInt8) → Prop
  | [w] => w = ascii "kill" ∨ w = ascii "execute" ∨ w = ascii "memlim"
  | [w, n] => w = ascii "execute" ∨ w = ascii "memlim" ∧ digits n
  | _ => False

def Cmd.Fits : Cmd → Prop
  | .kill n | .execute _ n => n < 2 ^ 31
  | .memlim n m => n < 2 ^ 31 ∧ m < 2 ^ 32
  | _ => True

section Values

variable {s : List UInt8}

theorem atoi_eq (h : digits s) : atoi s = BitVec.ofNat 32 (value s) := by
  have hall : s.takeWhile digit = s := takeWhile_eq_self_iff.mpr (all_eq_true.mp h)
  rw [atoi, hall, value]
  clear hall
  induction s using reverseRecOn with
  | nil => rfl
  | append_singleton s c ih =>
    simp only [digits, all_append, all_cons, all_nil, Bool.and_true, Bool.and_eq_true] at h
    have hc : 48 ≤ c.toNat := by
      have := h.2
      simp only [digit, Bool.and_eq_true, decide_eq_true_eq, UInt8.le_iff_toNat_le] at this
      exact this.1
    simp only [foldl_append, foldl_cons, foldl_nil, ih h.1]
    bv_omega

theorem toInt_atoi (h : digits s) : (atoi s).toInt = value s ↔ value s < 2 ^ 31 := by
  rw [atoi_eq h, BitVec.toInt_eq_toNat_cond, BitVec.toNat_ofNat]
  split <;> omega

theorem toNat_atoi (h : digits s) : (atoi s).toNat = value s ↔ value s < 2 ^ 32 := by
  rw [atoi_eq h, BitVec.toNat_ofNat]
  omega

end Values

/-- What the arguments give is the command of the words, where the line has a blank end
or not. -/
def Agrees (ws : List (List UInt8)) (blank : Bool) : Prop :=
  parseargs ((ws ++ if blank then [[]] else []).take (MAXARGS + 1)) = some (command ws) ↔
    ¬ Lacking ws ∧ ∀ c, command ws = some c → blank = false ∧ c.Fits

theorem agrees_of_name
    (hkill : Agrees (ascii "kill" :: rest) blank) (hexec : Agrees (ascii "execute" :: rest) blank)
    (hlim : Agrees (ascii "memlim" :: rest) blank) : Agrees (w :: rest) blank := by
  by_cases h : w = ascii "kill" ∨ w = ascii "execute" ∨ w = ascii "memlim"
  · obtain rfl | rfl | rfl := h <;> assumption
  simp only [Agrees, cons_append, MAXARGS, take_succ_cons]
  by_cases h' : w = ascii "list" ∨ w = ascii "exit"
  · obtain rfl | rfl := h' <;>
    match rest, blank with
    | [], false | [], true | [_], _ | [_, _], _ | _ :: _ :: _ :: _, _ =>
      simp [parseargs, command, Lacking, Cmd.Fits, ascii]
  · simp only [not_or] at h h'
    match rest with
    | [] | [_] | [_, _] | _ :: _ :: _ :: _ => simp [parseargs, command, Lacking, h, h']

theorem agrees_one (w : List UInt8) (blank : Bool) : Agrees [w] blank := by
  apply agrees_of_name <;> cases blank <;> simp [Agrees, parseargs, command, Lacking, MAXARGS, ascii, digits]

theorem agrees_two (w a : List UInt8) (blank : Bool) : Agrees [w, a] blank := by
  have ha := @toInt_atoi a
  apply agrees_of_name <;> cases blank <;> cases hda : digits a <;>
    simp_all [Agrees, parseargs, command, Lacking, MAXARGS, Cmd.Fits, ascii, show digits [] = true from rfl]

theorem agrees_three (w a b : List UInt8) (blank : Bool) : Agrees [w, a, b] blank := by
  have ha := @toInt_atoi a
  have hb := @toInt_atoi b
  have hb' := @toNat_atoi b
  apply agrees_of_name <;> cases blank <;> cases hda : digits a <;> cases hdb : digits b <;>
    simp_all [Agrees, parseargs, command, Lacking, MAXARGS, Cmd.Fits, ascii]

theorem agrees_long (w a b c : List UInt8) (rest : List (List UInt8)) (blank : Bool) :
    Agrees (w :: a :: b :: c :: rest) blank := by
  simp [Agrees, parseargs, command, Lacking, MAXARGS]

theorem parsecmd_iff (line : List UInt8) :
    parsecmd (line ++ [10]) = some (command (words space line)) ↔
      ¬ Lacking (words space line) ∧
        ∀ c, command (words space line) = some c → line.getLast? ≠ some 32 ∧ c.Fits := by
  have hargs := parseline_eq 1 line
  have hend : words space line ≠ [] → (line.getLast? ≠ some 32 ↔ blankEnd line = false) := by
    intro hne
    cases hl : line.getLast? with
    | none => rw [getLast?_eq_none_iff] at hl; subst hl; exact absurd words_nil hne
    | some c => simp [blankEnd, hl, space]
  rw [parsecmd, dropLast_concat, parseline_eq]
  generalize words space line = ws at *
  generalize blankEnd line = blank at *
  match ws with
  | [] =>
    cases blank with
    | false => simp [parseline, strtok1] at hargs
    | true => simp [parseargs, command, Lacking, ascii, MAXARGS]
  | [w] => rw [hend (by simp)]; exact agrees_one w blank
  | [w, a] => rw [hend (by simp)]; exact agrees_two w a blank
  | [w, a, b] => rw [hend (by simp)]; exact agrees_three w a b blank
  | w :: a :: b :: c :: rest => rw [hend (by simp)]; exact agrees_long w a b c rest blank

theorem parsecmd_blank_end :
    parsecmd (ascii "list " ++ [10]) = some none ∧ command (words space (ascii "list ")) = some .list ∧
      parsecmd (ascii "kill" ++ [10]) = none := by
  decide

end Xv6.Pmanager
