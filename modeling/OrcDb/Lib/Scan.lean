import Mathlib

/-!
# Scanning a list for separators

The string searches a hand-written parser is made of: the first occurrence of a separator
(`cutAt`), the first occurrence of a two-symbol line ending (`cutLine`), the pieces between
separators the way a line reader delivers them (`pieces`), and the next token between blanks
(`token`). Each comes with the law that it finds what was put there, whatever follows.

For a line ending there is one more law. A reader that gets its input in parts looks for the
ending in a part, and what it finds there it would have found in the whole
(`cutLine_append`); if the whole has none, no part has (`cutLine_none_left`).
-/

set_option autoImplicit false

namespace OrcDb
namespace Lib

variable {α : Type}

section Separators

variable [DecidableEq α]

/-! ## One separator -/

/-- The parts before and behind the first `sep`. -/
def cutAt (sep : α) : List α → Option (List α × List α)
  | [] => none
  | b :: bs => if b = sep then some ([], bs) else (cutAt sep bs).map fun p => (b :: p.1, p.2)

theorem cutAt_of_not_mem {sep : α} {l : List α} (h : sep ∉ l) : cutAt sep l = none := by
  induction l with
  | nil => rfl
  | cons b l ih =>
    rw [List.mem_cons, not_or] at h
    rw [cutAt, if_neg (Ne.symm h.1), ih h.2]
    rfl

theorem cutAt_sep {sep : α} {l : List α} (h : sep ∉ l) (r : List α) :
    cutAt sep (l ++ sep :: r) = some (l, r) := by
  induction l with
  | nil => exact if_pos rfl
  | cons b l ih =>
    rw [List.mem_cons, not_or] at h
    rw [List.cons_append, cutAt, if_neg (Ne.symm h.1), ih h.2]
    rfl

theorem cutAt_eq {sep : α} {l a b : List α} (h : cutAt sep l = some (a, b)) :
    l = a ++ sep :: b ∧ sep ∉ a := by
  induction l generalizing a with
  | nil => exact absurd h (by simp [cutAt])
  | cons c l ih =>
    rw [cutAt] at h
    split at h
    · rename_i hc
      cases h
      exact ⟨by rw [hc]; rfl, by simp⟩
    · rename_i hc
      obtain ⟨⟨a', b'⟩, hcut, hp⟩ := Option.map_eq_some_iff.mp h
      cases hp
      obtain ⟨rfl, hnot⟩ := ih hcut
      refine ⟨rfl, ?_⟩
      rw [List.mem_cons, not_or]
      exact ⟨Ne.symm hc, hnot⟩

/-! ## Lines -/

/-- The parts before and behind the first `cr lf`. -/
def cutLine (cr lf : α) : List α → Option (List α × List α)
  | [] => none
  | b :: bs =>
      if b = cr ∧ bs.head? = some lf then some ([], bs.tail)
      else (cutLine cr lf bs).map fun p => (b :: p.1, p.2)

variable {cr lf : α} {x y l r : List α}

theorem cutLine_eq (h : cutLine cr lf x = some (l, r)) : x = l ++ cr :: lf :: r := by
  induction x generalizing l with
  | nil => exact absurd h (by simp [cutLine])
  | cons b bs ih =>
    rw [cutLine] at h
    split at h
    · rename_i hb
      obtain ⟨rfl, hhead⟩ := hb
      cases bs with
      | nil => exact absurd hhead (by simp)
      | cons b' bs =>
        cases h
        cases hhead
        rfl
    · obtain ⟨⟨l', r'⟩, hcut, hp⟩ := Option.map_eq_some_iff.mp h
      cases hp
      rw [ih hcut]
      rfl

/-- What is found in a part is found in the whole. -/
theorem cutLine_append (h : cutLine cr lf x = some (l, r)) (y : List α) :
    cutLine cr lf (x ++ y) = some (l, r ++ y) := by
  induction x generalizing l with
  | nil => exact absurd h (by simp [cutLine])
  | cons b bs ih =>
    rw [cutLine] at h
    rw [List.cons_append, cutLine]
    split at h
    · rename_i hb
      cases bs with
      | nil => exact absurd hb.2 (by simp)
      | cons b' bs =>
        cases h
        rw [if_pos ⟨hb.1, hb.2⟩]
        rfl
    · rename_i hb
      obtain ⟨⟨l', r'⟩, hcut, hp⟩ := Option.map_eq_some_iff.mp h
      cases hp
      cases bs with
      | nil => exact absurd hcut (by simp [cutLine])
      | cons b' bs =>
        have hb' : ¬(b = cr ∧ (b' :: bs ++ y).head? = some lf) := hb
        rw [if_neg hb', ih hcut]
        rfl

/-- If the whole has no line ending, no part has. -/
theorem cutLine_none_left (h : cutLine cr lf (x ++ y) = none) : cutLine cr lf x = none := by
  cases hx : cutLine cr lf x with
  | none => rfl
  | some p =>
    rw [cutLine_append hx] at h
    exact absurd h (by simp)

theorem cutLine_none_right (h : cutLine cr lf (x ++ y) = none) : cutLine cr lf y = none := by
  induction x with
  | nil => exact h
  | cons b bs ih =>
    rw [List.cons_append, cutLine] at h
    split at h
    · exact absurd h (by simp)
    · exact ih (Option.map_eq_none_iff.mp h)

/-- The line that is found holds no ending. -/
theorem cutLine_found (h : cutLine cr lf x = some (l, r)) : cutLine cr lf l = none := by
  cases hl : cutLine cr lf l with
  | none => rfl
  | some p =>
    obtain ⟨l', r'⟩ := p
    -- it would be found before this one
    have hfirst := cutLine_append hl (cr :: lf :: r)
    rw [← cutLine_eq h, h] at hfirst
    have hlen := congrArg List.length (congrArg Prod.snd (Option.some.inj hfirst))
    simp only [List.length_append, List.length_cons] at hlen
    omega

theorem cutLine_of_not_mem (h : cr ∉ x) : cutLine cr lf x = none := by
  induction x with
  | nil => rfl
  | cons b bs ih =>
    rw [List.mem_cons, not_or] at h
    rw [cutLine, if_neg (fun hb => h.1 hb.1.symm), ih h.2]
    rfl

/-- No line ending arises where two parts are joined by another symbol. -/
theorem cutLine_join {c : α} (hx : cutLine cr lf x = none) (hcr : c ≠ cr) (hlf : c ≠ lf)
    (hy : cutLine cr lf y = none) : cutLine cr lf (x ++ c :: y) = none := by
  induction x with
  | nil =>
    rw [List.nil_append, cutLine, if_neg (fun hb => hcr hb.1), hy]
    rfl
  | cons b bs ih =>
    rw [cutLine] at hx
    split at hx
    · exact absurd hx (by simp)
    · rename_i hb
      rw [Option.map_eq_none_iff] at hx
      rw [List.cons_append, cutLine, if_neg, ih hx]
      · rfl
      · rintro ⟨hbcr, hhead⟩
        cases bs with
        | nil => exact hlf (Option.some.inj hhead)
        | cons b' bs => exact hb ⟨hbcr, hhead⟩

/-- A line that does not hold its own ending is found. -/
theorem cutLine_line (hne : cr ≠ lf) (h : cutLine cr lf l = none) (r : List α) :
    cutLine cr lf (l ++ cr :: lf :: r) = some (l, r) := by
  induction l with
  | nil => exact if_pos ⟨rfl, rfl⟩
  | cons b l ih =>
    rw [cutLine] at h
    split at h
    · exact absurd h (by simp)
    · rename_i hb
      rw [Option.map_eq_none_iff] at h
      rw [List.cons_append, cutLine, if_neg, ih h]
      · rfl
      · rintro ⟨hcr, hlf⟩
        cases l with
        | nil => exact hne (Option.some.inj hlf)
        | cons b' l => exact hb ⟨hcr, hlf⟩

/-! ## Pieces -/

/-- What a line reader with delimiter `sep` delivers; nothing is delivered behind a final
    delimiter. -/
def pieces (sep : α) : List α → List (List α)
  | [] => []
  | b :: bs =>
      if b = sep then [] :: pieces sep bs
      else match pieces sep bs with
        | [] => [[b]]
        | p :: ps => (b :: p) :: ps

theorem pieces_sep {sep : α} (h : sep ∉ l) (r : List α) :
    pieces sep (l ++ sep :: r) = l :: pieces sep r := by
  induction l with
  | nil => exact if_pos rfl
  | cons b l ih =>
    rw [List.mem_cons, not_or] at h
    rw [List.cons_append, pieces, if_neg (Ne.symm h.1), ih h.2]

theorem pieces_of_not_mem {sep : α} (h : sep ∉ l) (hne : l ≠ []) : pieces sep l = [l] := by
  induction l with
  | nil => exact absurd rfl hne
  | cons b l ih =>
    rw [List.mem_cons, not_or] at h
    rw [pieces, if_neg (Ne.symm h.1)]
    cases l with
    | nil => rfl
    | cons b' l => rw [ih h.2 (by simp)]

omit [DecidableEq α] in
theorem mem_intercalate {sep c : α} {ps : List (List α)} (h : c ∈ [sep].intercalate ps) :
    c = sep ∨ ∃ p ∈ ps, c ∈ p := by
  induction ps with
  | nil => exact absurd h (by simp)
  | cons p ps ih =>
    cases ps with
    | nil => exact Or.inr ⟨p, List.mem_cons_self, by simpa using h⟩
    | cons p' ps =>
      rw [List.intercalate_cons_cons, List.append_assoc, List.mem_append, List.mem_append] at h
      rcases h with h | h | h
      · exact Or.inr ⟨p, List.mem_cons_self, h⟩
      · exact Or.inl (List.mem_singleton.mp h)
      · rcases ih h with hsep | ⟨q, hq, hc⟩
        · exact Or.inl hsep
        · exact Or.inr ⟨q, List.mem_cons_of_mem p hq, hc⟩

/-- Non-empty pieces that were joined come back. -/
theorem pieces_intercalate {sep : α} {ps : List (List α)} (h : ∀ p ∈ ps, sep ∉ p ∧ p ≠ []) :
    pieces sep ([sep].intercalate ps) = ps := by
  induction ps with
  | nil => rfl
  | cons p ps ih =>
    obtain ⟨hsep, hne⟩ := h p List.mem_cons_self
    cases ps with
    | nil => simpa using pieces_of_not_mem hsep hne
    | cons p' ps =>
      rw [List.intercalate_cons_cons, List.append_assoc, List.singleton_append, pieces_sep hsep,
        ih (fun q hq => h q (List.mem_cons_of_mem p hq))]

end Separators

/-! ## Tokens -/

/-- Skip blanks, then take everything up to the next blank: the token, and what is left. -/
def token (blank : α → Bool) (s : List α) : List α × List α :=
  let s := s.dropWhile blank
  (s.takeWhile (fun b => !blank b), s.dropWhile fun b => !blank b)

variable {blank : α → Bool} {l : List α}

theorem dropWhile_plain (h : ∀ b ∈ l, blank b = false) (hne : l ≠ []) (r : List α) :
    (l ++ r).dropWhile blank = l ++ r := by
  cases l with
  | nil => exact absurd rfl hne
  | cons a l =>
    rw [List.cons_append, List.dropWhile_cons_of_neg]
    simp [h a List.mem_cons_self]

theorem token_blank (h : ∀ b ∈ l, blank b = false) {b : α} (hb : blank b = true) (r : List α)
    (hne : l ≠ []) : token blank (l ++ b :: r) = (l, b :: r) := by
  have hall : ∀ a ∈ l, (!blank a) = true := by
    intro a ha
    simp [h a ha]
  unfold token
  rw [dropWhile_plain h hne]
  simp only [List.takeWhile_append_of_pos hall, List.dropWhile_append_of_pos hall]
  rw [List.takeWhile_cons_of_neg (by simp [hb]), List.dropWhile_cons_of_neg (by simp [hb]),
    List.append_nil]

theorem token_end (h : ∀ b ∈ l, blank b = false) : token blank l = (l, []) := by
  have hstart : l.dropWhile blank = l := by
    cases l with
    | nil => rfl
    | cons a l =>
      rw [List.dropWhile_cons_of_neg]
      simp [h a List.mem_cons_self]
  have hall : ∀ a ∈ l, (!blank a) = true := by
    intro a ha
    simp [h a ha]
  unfold token
  rw [hstart]
  simp only [List.takeWhile_eq_self_iff.mpr hall, List.dropWhile_eq_nil_iff.mpr hall]

/-- What a text starts with is in its first token, if it has no blanks. -/
theorem mem_token (h : ∀ b ∈ l, blank b = false) (r : List α) {b : α} (hb : b ∈ l) :
    b ∈ (token blank (l ++ r)).1 := by
  have hall : ∀ a ∈ l, (!blank a) = true := by
    intro a ha
    simp [h a ha]
  unfold token
  rw [dropWhile_plain h (List.ne_nil_of_mem hb)]
  simp only [List.takeWhile_append_of_pos hall]
  exact List.mem_append_left _ hb

/-- A blank in front changes nothing. -/
theorem token_cons_blank {b : α} (hb : blank b = true) (s : List α) :
    token blank (b :: s) = token blank s := by
  unfold token
  rw [List.dropWhile_cons_of_pos hb]

end Lib
end OrcDb
