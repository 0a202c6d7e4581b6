import OrcDb.Api.Router

/-!
# What `CompilePattern` writes

`regexText` is the regular expression of a route as text, `compilePattern` the list of its pieces.
A text and the pieces belong together (`Spells`) if every literal character is one the grammar
takes as it is or has a backslash in front, and every placeholder is `(.+)`. Such a text parses to
the pieces between `^` and `$` (`parse_spells`), and the matcher of `Lib/Regex.lean` on that
expression is `regexMatch` (`run_exprFrom`). So routes match as their pieces say
(`matchText_eq`), whatever characters their patterns hold.
-/

set_option autoImplicit false

namespace OrcDb
namespace Proof

open Lib Lib.Regex

/-! ## The text and its pieces -/

/-- A text of the grammar for the pieces. -/
inductive Spells : Bytes → List Part → Prop
  | nil : Spells [] []
  | plain {c : UInt8} {text : Bytes} {parts : List Part} (hc : c ∉ reserved)
      (h : Spells text parts) : Spells (c :: text) (.char c :: parts)
  | escaped {c : UInt8} {text : Bytes} {parts : List Part} (hc : c ∈ syntaxChars)
      (h : Spells text parts) : Spells (92 :: c :: text) (.char c :: parts)
  | group (name : Bytes) {text : Bytes} {parts : List Part} (h : Spells text parts) :
      Spells (40 :: 46 :: 43 :: 41 :: text) (.param name :: parts)

theorem escapedChars_subset : ∀ c ∈ escapedChars, c ∈ syntaxChars := by decide +kernel

theorem escapedRest_subset : ∀ c ∈ escapedRest, c ∈ syntaxChars := by decide +kernel

/-- Only the brace is missing among the characters that get a backslash, and it does not come
    there. -/
theorem reserved_subset : ∀ c ∈ reserved, c = 123 ∨ c ∈ escapedChars := by decide +kernel

theorem reserved_subset_rest : ∀ c ∈ reserved, c ∈ escapedRest := by decide +kernel

theorem written_rest (bytes : Bytes) :
    Spells (bytes.flatMap fun b => if b ∈ escapedRest then [92, b] else [b])
      (bytes.map .char) := by
  induction bytes with
  | nil => exact .nil
  | cons b bytes ih =>
    rw [List.flatMap_cons, List.map_cons]
    by_cases hb : b ∈ escapedRest
    · rw [if_pos hb]
      exact .escaped (escapedRest_subset b hb) ih
    · rw [if_neg hb]
      exact .plain (fun h => hb (reserved_subset_rest b h)) ih

/-- `CompilePattern` writes such a text, whatever the pattern is. -/
theorem written_regexText (fuel : Nat) (pattern : Bytes) :
    Spells (regexTextFrom fuel pattern) (compileFrom fuel pattern) := by
  induction fuel generalizing pattern with
  | zero => exact .nil
  | succ fuel ih =>
    cases pattern with
    | nil => exact .nil
    | cons c rest =>
      rw [regexTextFrom, compileFrom]
      by_cases hopen : c = 123
      · rw [if_pos hopen, if_pos hopen]
        split
        · exact .group _ (ih _)
        · exact written_rest (c :: rest)
      · rw [if_neg hopen, if_neg hopen]
        by_cases hc : c ∈ escapedChars
        · rw [if_pos hc]
          exact .escaped (escapedChars_subset c hc) (ih rest)
        · rw [if_neg hc]
          refine .plain (fun h => ?_) (ih rest)
          rcases reserved_subset c h with h | h
          · exact hopen h
          · exact hc h

/-! ## Parsing -/

/-- The expression of the pieces up to `$`; `n` is the number of the next group. -/
def exprFrom : Nat → List Part → Expr
  | _, [] => .seq .finish .empty
  | n, .char c :: parts => .seq (.one (.char c)) (exprFrom n parts)
  | n, .param _ :: parts => .seq (.group n (.seq (.plus .any) .empty)) (exprFrom (n + 1) parts)

/-- What follows a character is not a quantifier. -/
theorem Spells.quantified {text : Bytes} {parts : List Part} (h : Spells text parts)
    (p : Single) : quantified p (text ++ [36]) = (.one p, text ++ [36]) := by
  cases h with
  | nil => rfl
  | plain hc _ =>
    rename_i c text parts _
    unfold Regex.quantified
    split
    · rename_i heq
      cases heq
      exact absurd hc (by decide)
    · rename_i heq
      cases heq
      exact absurd hc (by decide)
    · rename_i heq
      cases heq
      exact absurd hc (by decide)
    · rfl
  | escaped _ _ => rfl
  | group _ _ => rfl

/-- A character that is not reserved parses as itself. -/
theorem parseTerm_plain {c : UInt8} (hc : c ∉ reserved) (fuel n : Nat) (text : Bytes) :
    parseTerm (fuel + 1) n c text =
      some ((quantified (.char c) text).1, n, (quantified (.char c) text).2) := by
  have hne : ∀ b ∈ reserved, c ≠ b := by
    rintro b hb rfl
    exact hc hb
  unfold parseTerm
  rw [if_neg (hne 94 (by decide)), if_neg (hne 36 (by decide)),
    if_neg (hne 40 (by decide)), if_neg (hne 92 (by decide)), if_neg (hne 46 (by decide)),
    if_neg hc]

theorem parseTerm_escaped {c : UInt8} (hc : c ∈ syntaxChars) (fuel n : Nat) (text : Bytes) :
    parseTerm (fuel + 1) n 92 (c :: text) =
      some ((quantified (.char c) text).1, n, (quantified (.char c) text).2) := by
  simp [parseTerm, hc]

theorem parseTerm_group (fuel n : Nat) (text : Bytes) :
    parseTerm (fuel + 5) n 40 (46 :: 43 :: 41 :: text) =
      some (.group n (.seq (.plus .any) .empty), n + 1, text) := by
  simp [parseTerm, parseDisjunction, parseAlternative, quantified]

theorem parseAlternative_spells {text : Bytes} {parts : List Part} (h : Spells text parts)
    (fuel : Nat) (hfuel : text.length + 6 ≤ fuel) (n : Nat) : ∃ n',
      parseAlternative fuel n (text ++ [36]) = some (exprFrom n parts, n', []) := by
  induction h generalizing fuel n with
  | nil =>
    obtain ⟨fuel, rfl⟩ := Nat.exists_eq_add_of_le' (Nat.le_trans (by omega : 2 ≤ _) hfuel)
    exact ⟨n, by simp [parseAlternative, parseTerm, exprFrom]⟩
  | @plain c text parts hc h ih =>
    obtain ⟨fuel, rfl⟩ := Nat.exists_eq_add_of_le' (Nat.le_trans (by omega : 2 ≤ _) hfuel)
    obtain ⟨n', hn'⟩ := ih (fuel + 1) (by rw [List.length_cons] at hfuel; omega) n
    have hstop : ¬(c = 124 ∨ c = 41) := by
      rintro (rfl | rfl)
      · exact hc (by decide)
      · exact hc (by decide)
    refine ⟨n', ?_⟩
    rw [List.cons_append, parseAlternative, if_neg hstop, parseTerm_plain hc, h.quantified]
    simp only [Option.bind_eq_bind, Option.bind_some, hn']
    rfl
  | @escaped c text parts hc h ih =>
    obtain ⟨fuel, rfl⟩ := Nat.exists_eq_add_of_le' (Nat.le_trans (by omega : 2 ≤ _) hfuel)
    obtain ⟨n', hn'⟩ := ih (fuel + 1)
      (by rw [List.length_cons, List.length_cons] at hfuel; omega) n
    refine ⟨n', ?_⟩
    rw [List.cons_append, List.cons_append, parseAlternative, if_neg (by decide),
      parseTerm_escaped hc, h.quantified]
    simp only [Option.bind_eq_bind, Option.bind_some, hn']
    rfl
  | @group name text parts h ih =>
    obtain ⟨fuel, rfl⟩ := Nat.exists_eq_add_of_le' (Nat.le_trans (by omega : 6 ≤ _) hfuel)
    obtain ⟨n', hn'⟩ := ih (fuel + 5)
      (by simp only [List.length_cons] at hfuel; omega) (n + 1)
    refine ⟨n', ?_⟩
    simp only [List.cons_append]
    rw [parseAlternative, if_neg (by decide), parseTerm_group]
    simp only [Option.bind_eq_bind, Option.bind_some, hn']
    rfl

/-- **The text parses to its pieces**, between the anchors. -/
theorem parse_spells {text : Bytes} {parts : List Part} (h : Spells text parts) :
    parse (94 :: (text ++ [36])) = some (.seq .start (exprFrom 1 parts)) := by
  obtain ⟨n', hn'⟩ := parseAlternative_spells h
    (3 * (text.length + 2) + 1) (by omega) 1
  have hlen : 3 * (94 :: (text ++ [36]) : Bytes).length + 3 = 3 * (text.length + 2) + 3 := by simp
  have hstart : parseTerm (3 * (text.length + 2) + 1) 1 94 (text ++ [36]) =
      some (.start, 1, text ++ [36]) := by
    simp [parseTerm]
  unfold parse
  rw [hlen, parseDisjunction, parseAlternative, if_neg (by decide), hstart]
  simp only [Option.bind_eq_bind, Option.bind_some, hn']
  rfl

/-! ## Matching -/

/-- The captures of consecutive groups. -/
def captured : Nat → List Bytes → Captures → Captures
  | _, [], caps => caps
  | n, g :: groups, caps => captured (n + 1) groups ((n, g) :: caps)

/-- **The matcher is `regexMatch`.** -/
theorem run_exprFrom (w : Bytes) (parts : List Part) (n i : Nat) (caps : Captures) :
    run w (exprFrom n parts) (atEnd w) i caps =
      (regexMatch parts (w.drop i)).map fun groups => captured n groups caps := by
  induction parts generalizing n i caps with
  | nil =>
    rw [exprFrom, run, run, regexMatch]
    split
    · rename_i hend
      rw [run, atEnd, if_pos hend]
      rfl
    · rfl
  | cons part parts ih =>
    cases part with
    | char c =>
      rw [exprFrom, run, run]
      cases hat : w[i]? with
      | none =>
        rw [List.drop_eq_nil_of_le (List.getElem?_eq_none_iff.mp hat), regexMatch]
        rfl
      | some b =>
        obtain ⟨hlt, rfl⟩ := List.getElem?_eq_some_iff.mp hat
        rw [List.drop_eq_getElem_cons hlt, regexMatch, Option.any_some]
        by_cases hb : w[i] = c
        · rw [if_pos hb, if_pos (by simp [Single.accepts, hb]), ih]
        · rw [if_neg hb, if_neg (by simp [Single.accepts, hb])]
          rfl
    | param name =>
      rw [exprFrom, run, run, run, run_plus, regexMatch, List.map_findSome?]
      congr 1
      funext m
      rw [run, ih, Function.comp_apply, Option.map_map, List.drop_drop, Nat.add_sub_cancel_left]
      rfl

theorem lookup_captured {n j : Nat} (h : j < n) (groups : List Bytes) (caps : Captures) :
    (captured n groups caps).lookup j = caps.lookup j := by
  induction groups generalizing n caps with
  | nil => rfl
  | cons g groups ih =>
    rw [captured, ih (by omega), List.lookup_cons]
    have hne : (j == n) = false := by
      rw [beq_eq_false_iff_ne]
      omega
    rw [hne]

/-- The names in order, each with the group of its number. -/
theorem zipIdx_captured (names groups : List Bytes) (n : Nat) (caps : Captures)
    (hlen : names.length = groups.length) :
    (names.zipIdx n).map (fun p => (p.1, ((captured n groups caps).lookup p.2).getD [])) =
      names.zip groups := by
  induction names generalizing groups n caps with
  | nil => rfl
  | cons name names ih =>
    cases groups with
    | nil => exact absurd hlen (by simp)
    | cons g groups =>
      rw [List.zipIdx_cons, List.map_cons, captured,
        ih groups (n + 1) _ (Nat.succ.inj hlen), lookup_captured (Nat.lt_succ_self n)]
      simp

theorem regexMatch_length {parts : List Part} {path : Bytes} {groups : List Bytes}
    (h : regexMatch parts path = some groups) : (paramNames parts).length = groups.length := by
  induction parts generalizing path groups with
  | nil =>
    rw [regexMatch] at h
    split at h
    · cases h
      rfl
    · exact absurd h (by simp)
  | cons part parts ih =>
    cases part with
    | char c =>
      cases path with
      | nil => exact absurd h (by simp [regexMatch])
      | cons b path =>
        rw [regexMatch] at h
        split at h
        · exact ih h
        · exact absurd h (by simp)
    | param name =>
      rw [regexMatch] at h
      obtain ⟨m, -, hm⟩ := List.exists_of_findSome?_eq_some h
      obtain ⟨groups', hgroups', rfl⟩ := Option.map_eq_some_iff.mp hm
      rw [List.length_cons, ← ih hgroups']
      rfl

/-- **A route matches as its pieces say**, whatever its pattern is. -/
theorem matchText_eq (pattern path : Bytes) : Router.matchText pattern path =
    (regexMatch (compilePattern pattern) path).map fun groups =>
      ((paramNames (compilePattern pattern)).zip groups).foldl
        (fun params p => params.insert p.1 p.2) ∅ := by
  have hparse : Regex.parse (regexText pattern) =
      some (.seq .start (exprFrom 1 (compilePattern pattern))) :=
    parse_spells (written_regexText _ _)
  have hmatch : Regex.fullMatch path (.seq .start (exprFrom 1 (compilePattern pattern))) =
      (regexMatch (compilePattern pattern) path).map fun groups => captured 1 groups [] := by
    rw [Regex.fullMatch, run, run, if_pos rfl, run_exprFrom, List.drop_zero]
  unfold Router.matchText
  rw [hparse, Option.bind_eq_bind, Option.bind_some, hmatch]
  cases hgroups : regexMatch (compilePattern pattern) path with
  | none => rfl
  | some groups =>
    rw [Option.map_some, Option.bind_eq_bind, Option.bind_some, Option.map_some,
      ← zipIdx_captured _ groups 1 [] (regexMatch_length hgroups), List.foldl_map]
    rfl

end Proof
end OrcDb
