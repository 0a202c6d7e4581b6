import Mathlib

/-!
# Regular expressions, as text and as matchers

A fragment of the ECMAScript grammar over bytes: alternatives, numbered groups, `^` and `$`, single
characters with `*`, `+` and `?` behind them, and a backslash in front of a character of the
grammar. What else the grammar has (classes, bounds, lazy and group quantifiers, the other
escapes) does not parse here. A `]` or a `}` that closes nothing stands for itself.

Matching is by backtracking, with what is still to be matched as a continuation: a quantifier
takes as much as it can and gives back one character at a time (`run_plus`), so the first match
found is the one the grammar prescribes.
-/

set_option autoImplicit false

namespace OrcDb
namespace Lib
namespace Regex

/-- What matches one character. -/
inductive Single where
  | char (c : UInt8)
  /-- `.`, any character but a line feed or a carriage return. -/
  | any
deriving DecidableEq

def Single.accepts : Single → UInt8 → Bool
  | .char c, b => b = c
  | .any, b => b ≠ 10 && b ≠ 13

inductive Expr where
  | empty
  | one (p : Single)
  | star (p : Single)
  | plus (p : Single)
  | opt (p : Single)
  | start
  | finish
  | group (n : Nat) (r : Expr)
  | seq (r r' : Expr)
  | alt (r r' : Expr)
deriving DecidableEq

/-! ## The text -/

/-- The characters `^ $ \ . * + ? ( ) [ ] { } |`, which can be escaped. -/
def syntaxChars : List UInt8 := [94, 36, 92, 46, 42, 43, 63, 40, 41, 91, 93, 123, 125, 124]

/-- Those that do not stand for themselves: all but `]` and `}`. -/
def reserved : List UInt8 := [94, 36, 92, 46, 42, 43, 63, 40, 41, 91, 123, 124]

/-- A quantifier behind a single character. -/
def quantified (p : Single) : List UInt8 → Expr × List UInt8
  | 42 :: text => (.star p, text)
  | 43 :: text => (.plus p, text)
  | 63 :: text => (.opt p, text)
  | text => (.one p, text)

mutual

/-- Alternatives, up to a closing bracket or the end; `n` is the number of the next group. -/
def parseDisjunction : Nat → Nat → List UInt8 → Option (Expr × Nat × List UInt8)
  | 0, _, _ => none
  | fuel + 1, n, text => do
      let (r, n, text) ← parseAlternative fuel n text
      match text with
      | 124 :: text =>
          let (r', n, text) ← parseDisjunction fuel n text
          return (.alt r r', n, text)
      | text => return (r, n, text)

/-- One alternative, term by term. -/
def parseAlternative : Nat → Nat → List UInt8 → Option (Expr × Nat × List UInt8)
  | 0, _, _ => none
  | _ + 1, n, [] => some (.empty, n, [])
  | fuel + 1, n, c :: text =>
      -- `|` and `)` belong to the expression around
      if c = 124 ∨ c = 41 then some (.empty, n, c :: text)
      else do
        let (r, n, text) ← parseTerm fuel n c text
        let (r', n, text) ← parseAlternative fuel n text
        return (.seq r r', n, text)

/-- One term, with its first character in front. -/
def parseTerm : Nat → Nat → UInt8 → List UInt8 → Option (Expr × Nat × List UInt8)
  | 0, _, _, _ => none
  | fuel + 1, n, c, text =>
      if c = 94 then some (.start, n, text)
      else if c = 36 then some (.finish, n, text)
      else if c = 40 then do
        let (r, n', text) ← parseDisjunction fuel (n + 1) text
        match text with
        | 41 :: text => return (.group n r, n', text)
        | _ => none
      else if c = 92 then
        match text with
        | [] => none
        | e :: text =>
            if e ∈ syntaxChars then
              let (r, text) := quantified (.char e) text
              some (r, n, text)
            else none
      else if c = 46 then
        let (r, text) := quantified .any text
        some (r, n, text)
      else if c ∈ reserved then none
      else
        let (r, text) := quantified (.char c) text
        some (r, n, text)

end

/-- A whole expression. -/
def parse (text : List UInt8) : Option Expr :=
  match parseDisjunction (3 * text.length + 3) 1 text with
  | some (r, _, []) => some r
  | _ => none

/-! ## Matching -/

/-- What the groups have matched, the last one first. -/
abbrev Captures := List (Nat × List UInt8)

section

variable (w : List UInt8)

/-- As many characters as there are, but one less for every time the rest does not match. -/
def greedy (p : Single) (k : Nat → Captures → Option Captures) :
    Nat → Nat → Captures → Option Captures
  | 0, i, caps => k i caps
  | fuel + 1, i, caps =>
      if w[i]?.any p.accepts then (greedy p k fuel (i + 1) caps).or (k i caps) else k i caps

/-- A match of the expression from position `i` on, and then of the rest `k`. -/
def run : Expr → (Nat → Captures → Option Captures) → Nat → Captures → Option Captures
  | .empty, k, i, caps => k i caps
  | .one p, k, i, caps => if w[i]?.any p.accepts then k (i + 1) caps else none
  | .star p, k, i, caps => greedy w p k (w.length - i) i caps
  | .plus p, k, i, caps =>
      if w[i]?.any p.accepts then greedy w p k (w.length - (i + 1)) (i + 1) caps else none
  | .opt p, k, i, caps =>
      if w[i]?.any p.accepts then (k (i + 1) caps).or (k i caps) else k i caps
  | .start, k, i, caps => if i = 0 then k i caps else none
  | .finish, k, i, caps => if w.drop i = [] then k i caps else none
  | .group n r, k, i, caps =>
      run r (fun j caps => k j ((n, (w.drop i).take (j - i)) :: caps)) i caps
  | .seq r r', k, i, caps => run r (fun j caps => run r' k j caps) i caps
  | .alt r r', k, i, caps => (run r k i caps).or (run r' k i caps)

/-- The end of a match of the whole text. -/
def atEnd (i : Nat) (caps : Captures) : Option Captures := if w.drop i = [] then some caps else none

/-- A match of the whole text. -/
def fullMatch (r : Expr) : Option Captures := run w r (atEnd w) 0 []

end

variable {w : List UInt8} {p : Single} {k : Nat → Captures → Option Captures}

/-- The largest first, and zero at the end. -/
theorem findSome_range_succ {α : Type} (f : Nat → Option α) (n : Nat) :
    (List.range (n + 1)).reverse.findSome? f =
      ((List.range n).reverse.findSome? fun m => f (m + 1)).or (f 0) := by
  rw [List.range_succ_eq_map, List.reverse_cons, List.findSome?_append, List.findSome?_singleton,
    ← List.map_reverse, List.findSome?_map]
  rfl

/-- The longest first. -/
theorem greedy_eq (fuel i : Nat) (caps : Captures)
    (hfuel : ((w.drop i).takeWhile p.accepts).length ≤ fuel) :
    greedy w p k fuel i caps =
      (List.range (((w.drop i).takeWhile p.accepts).length + 1)).reverse.findSome?
        fun n => k (i + n) caps := by
  induction fuel generalizing i with
  | zero =>
    rw [Nat.le_zero.mp hfuel, greedy]
    simp
  | succ fuel ih =>
    rw [greedy]
    cases hat : w[i]? with
    | none =>
      have hnone : w.drop i = [] := List.drop_eq_nil_of_le (List.getElem?_eq_none_iff.mp hat)
      simp [hnone]
    | some b =>
      have hdrop : w.drop i = b :: w.drop (i + 1) := by
        obtain ⟨hlt, rfl⟩ := List.getElem?_eq_some_iff.mp hat
        exact List.drop_eq_getElem_cons hlt
      rw [hdrop] at hfuel ⊢
      by_cases hb : p.accepts b = true
      · rw [List.takeWhile_cons_of_pos hb, List.length_cons] at hfuel ⊢
        have hnext : (fun n => k (i + 1 + n) caps) = fun n => k (i + (n + 1)) caps := by
          funext n
          rw [Nat.add_assoc, Nat.add_comm 1 n]
        rw [Option.any_some, if_pos hb, ih (i + 1) (by omega), findSome_range_succ _ (_ + 1),
          hnext]
        rfl
      · rw [List.takeWhile_cons_of_neg hb, Option.any_some, if_neg hb]
        simp

theorem run_plus (i : Nat) (caps : Captures) :
    run w (.plus p) k i caps =
      ((List.range ((w.drop i).takeWhile p.accepts).length).reverse.map (· + 1)).findSome?
        fun n => k (i + n) caps := by
  rw [run]
  cases hat : w[i]? with
  | none =>
    have hnone : w.drop i = [] := List.drop_eq_nil_of_le (List.getElem?_eq_none_iff.mp hat)
    simp [hnone]
  | some b =>
    obtain ⟨hlt, rfl⟩ := List.getElem?_eq_some_iff.mp hat
    rw [List.drop_eq_getElem_cons hlt]
    by_cases hb : p.accepts w[i] = true
    · have hlen : ((w.drop (i + 1)).takeWhile p.accepts).length ≤ w.length - (i + 1) := by
        rw [← List.length_drop]
        exact (List.takeWhile_prefix _).length_le
      rw [List.takeWhile_cons_of_pos hb, List.length_cons, Option.any_some, if_pos hb,
        greedy_eq _ _ _ hlen, List.findSome?_map]
      congr 1
      funext n
      rw [Function.comp_apply, Nat.add_assoc, Nat.add_comm 1 n]
    · rw [List.takeWhile_cons_of_neg hb, Option.any_some, if_neg hb]
      rfl

end Regex
end Lib
end OrcDb
