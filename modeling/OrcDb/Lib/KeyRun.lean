import Mathlib

/-!
# Runs in an ordered list

An ordered map is read by finding a first key and going on from there. That finds everything
it should when the keys one is after form a run: none lies below the first one, and behind a key
that is not one of them there is none. `KeyRun` is that condition.

The keys with a common prefix are a run in the lexicographic order (`keyRun_isPrefixOf`), whatever
the order of the letters is.
-/

set_option autoImplicit false

namespace OrcDb
namespace Lib

variable {κ ε : Type}

/-- From `low` on, the keys with `under` stand together and come first. -/
structure KeyRun [LT κ] (low : κ) (under : κ → Bool) : Prop where
  above : ∀ k, under k = true → ¬k < low
  closed : ∀ k k', ¬k < low → under k = false → k < k' → under k' = false

section

variable [LT κ] {low : κ} {under : κ → Bool} {l : List (κ × ε)}

/-- At the first key that is not in the run a reader may stop. -/
theorem KeyRun.filter_stop (h : KeyRun low under) {p : κ × ε}
    (hsorted : (p :: l).Pairwise fun a b => a.1 < b.1) (hlow : ¬p.1 < low)
    (hout : under p.1 = false) (f : ε → Bool) :
    (p :: l).filter (fun q => under q.1 && f q.2) = [] := by
  rw [List.filter_eq_nil_iff]
  intro q hq
  have hout' : under q.1 = false := by
    rcases List.mem_cons.mp hq with rfl | hq
    · exact hout
    · exact h.closed p.1 q.1 hlow hout ((List.pairwise_cons.mp hsorted).1 q hq)
  simp [hout']

/-- From the first key that is not below `low`, no key is below it. -/
theorem not_lt_of_mem_dropWhile [DecidableLT κ]
    [Trans (fun a b : κ => a < b) (fun a b : κ => a < b) (fun a b : κ => a < b)]
    (hsorted : l.Pairwise fun a b => a.1 < b.1) :
    ∀ p ∈ l.dropWhile (fun p => p.1 < low), ¬p.1 < low := by
  induction l with
  | nil => simp
  | cons q l ih =>
    rw [List.pairwise_cons] at hsorted
    intro p hp
    by_cases hq : q.1 < low
    · rw [List.dropWhile_cons_of_pos (by simpa using hq)] at hp
      exact ih hsorted.2 p hp
    · rw [List.dropWhile_cons_of_neg (by simpa using hq)] at hp
      rcases List.mem_cons.mp hp with rfl | hp
      · exact hq
      · exact fun h => hq (Trans.trans (hsorted.1 p hp) h)

/-- Nothing of the run is lost by starting at `low`. -/
theorem KeyRun.filter_dropWhile [DecidableLT κ] (h : KeyRun low under) (f : ε → Bool)
    (l : List (κ × ε)) :
    (l.dropWhile fun p => p.1 < low).filter (fun q => under q.1 && f q.2) =
      l.filter (fun q => under q.1 && f q.2) := by
  have hbelow : (l.takeWhile fun p => p.1 < low).filter (fun q => under q.1 && f q.2) = [] := by
    rw [List.filter_eq_nil_iff]
    intro p hp
    have hlt := List.mem_takeWhile_imp hp
    have hout : under p.1 ≠ true := fun hin => h.above p.1 hin (of_decide_eq_true hlt)
    simp [hout]
  conv =>
    rhs
    rw [← l.takeWhile_append_dropWhile (p := fun p => p.1 < low), List.filter_append, hbelow,
      List.nil_append]

end

/-! ## Prefixes -/

section

variable {α : Type} [LT α] [Std.Trichotomous fun a b : α => a < b]

/-- What lies between a prefix and a list it is a prefix of has the prefix too. -/
theorem prefix_of_between {p k k' : List α} (hpk : ¬k < p) (hkk' : ¬k' < k) (h : p <+: k') :
    p <+: k := by
  induction p generalizing k k' with
  | nil => exact List.nil_prefix
  | cons a p ih =>
    obtain ⟨rest, rfl⟩ := h
    cases k with
    | nil => exact absurd List.Lex.nil hpk
    | cons b k =>
      obtain rfl : b = a := Std.Trichotomous.trichotomous (r := fun a b : α => a < b) b a
        (fun h => hpk (.rel h)) (fun h => hkk' (.rel h))
      exact List.cons_prefix_cons.mpr
        ⟨rfl, ih (fun h => hpk (.cons h)) (fun h => hkk' (.cons h)) ⟨rest, rfl⟩⟩

theorem keyRun_isPrefixOf [Std.Asymm fun a b : α => a < b] [BEq α] [LawfulBEq α] (p : List α) :
    KeyRun p (p.isPrefixOf ·) where
  above := by
    intro k hk
    exact (List.isPrefixOf_iff_prefix.mp hk).le
  closed := by
    intro k k' hlow hout hlt
    rw [← Bool.not_eq_true, List.isPrefixOf_iff_prefix] at hout ⊢
    exact fun hin => hout (prefix_of_between hlow (List.lt_asymm hlt) hin)

end

/-- Lists are compared letter by letter. -/
theorem compare_list_eq_lt {α : Type} [Ord α] [LT α] [LE α] [Std.LawfulOrderOrd α]
    [Std.LawfulOrderLT α] [Std.LawfulEqOrd α] {k k' : List α} : compare k k' = .lt ↔ k < k' := by
  induction k generalizing k' with
  | nil =>
    cases k' with
    | nil => simp
    | cons b k' => simp
  | cons a k ih =>
    cases k' with
    | nil => simp
    | cons b k' =>
      change (List.compareLex compare (a :: k) (b :: k')) = .lt ↔ _
      rw [List.compareLex_cons_cons, Ordering.then_eq_lt, Std.compare_eq_lt,
        Std.compare_eq_iff_eq, List.cons_lt_cons_iff]
      exact or_congr Iff.rfl (and_congr Iff.rfl ih)

end Lib
end OrcDb
