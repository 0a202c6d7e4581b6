import OrcDb.Lib.PrefixLog

/-!
# Where two logs part

A replica that finds its log to differ from another one wants to know how far back the two
agree, without reading the other log. When the keys of both logs never fall and the entries
of a key start at one place in both, the key of one differing position is enough to skip the
whole run of that key:

* the other log has no entry of the key: everything from the first entry of the key on differs
  (`AgreeUpTo.lt_of_no_key`);
* it has some: what lies behind its last entry of the key differs
  (`AgreeUpTo.le_of_last_key`).

Neither jump goes past the place where the logs part, which is what makes it safe to take.
-/

set_option autoImplicit false

namespace OrcDb
namespace Lib

variable {α κ : Type}

/-! ## The common part -/

section CommonLength

variable [DecidableEq α]

/-- The length of the longest common beginning. -/
def commonLength : List α → List α → Nat
  | x :: xs, y :: ys => if x = y then commonLength xs ys + 1 else 0
  | _, _ => 0

theorem commonLength_cons (x : α) (xs ys : List α) :
    commonLength (x :: xs) (x :: ys) = commonLength xs ys + 1 := by
  rw [commonLength, if_pos rfl]

theorem AgreeUpTo.of_lt_commonLength {xs ys : List α} {n : Nat} (h : n < commonLength xs ys) :
    AgreeUpTo xs ys n := by
  induction xs generalizing ys n with
  | nil => exact absurd h (by simp [commonLength])
  | cons x xs ih =>
    cases ys with
    | nil => exact absurd h (by simp [commonLength])
    | cons y ys =>
      rw [commonLength] at h
      split at h
      · rename_i hxy
        subst hxy
        intro k hk
        cases k with
        | zero => rfl
        | succ k =>
          have hk' : k < commonLength xs ys := by omega
          exact ih hk' k (Nat.le_refl k)
      · exact absurd h (Nat.not_lt_zero n)

end CommonLength

/-! ## The positions of a key -/

/-- Where the key `t` stands. -/
def positions (key : α → κ) (xs : List α) (t : κ) : Set Nat := {i | xs[i]?.map key = some t}

variable {key : α → κ} {xs ys : List α} {t : κ} {i j k f l p q n : Nat}

theorem mem_positions : i ∈ positions key xs t ↔ ∃ x, xs[i]? = some x ∧ key x = t :=
  Option.map_eq_some_iff

theorem lt_length_of_mem_positions (h : i ∈ positions key xs t) : i < xs.length := by
  obtain ⟨x, hx, -⟩ := mem_positions.mp h
  exact (List.getElem?_eq_some_iff.mp hx).1

theorem AgreeUpTo.mem_positions_iff (h : AgreeUpTo xs ys n) (hi : i ≤ n) :
    i ∈ positions key xs t ↔ i ∈ positions key ys t := by
  rw [mem_positions, mem_positions, h i hi]

theorem mem_positions_take : i ∈ positions key (xs.take n) t ↔ i < n ∧ i ∈ positions key xs t := by
  rw [mem_positions, mem_positions, List.getElem?_take]
  split
  · rename_i h
    exact (and_iff_right h).symm
  · rename_i h
    exact ⟨fun hx => absurd hx (by simp), fun hx => absurd hx.1 h⟩

/-- Two logs agree only in front of a position where their keys differ. -/
theorem AgreeUpTo.lt_of_key (h : AgreeUpTo xs ys q) (hp : p ∈ positions key xs t)
    (hne : p ∉ positions key ys t) : q < p := by
  by_contra hge
  exact hne ((h.mem_positions_iff (Nat.le_of_not_lt hge)).mp hp)

/-- The other log does not have the key: the logs part at its first entry, or before. -/
theorem AgreeUpTo.lt_of_no_key (h : AgreeUpTo xs ys q) (hf : f ∈ positions key xs t)
    (hnone : positions key ys t = ∅) : q < f :=
  h.lt_of_key hf (by simp [hnone])

/-! ## Keys that never fall -/

/-- The entries of a key start at one place in both logs, if both have some. -/
def SameStarts (key : α → κ) (xs ys : List α) : Prop :=
  ∀ t i j, IsLeast (positions key xs t) i → IsLeast (positions key ys t) j → i = j

/-- The same in a form that can be evaluated. -/
theorem SameStarts.of_forall
    (h : ∀ i < xs.length, ∀ j < ys.length, i = j ∨ xs[i]?.map key ≠ ys[j]?.map key ∨
      (∃ k < i, xs[k]?.map key = xs[i]?.map key) ∨
      ∃ k < j, ys[k]?.map key = ys[j]?.map key) : SameStarts key xs ys := by
  intro t i j hi hj
  have hi' : xs[i]?.map key = some t := hi.1
  have hj' : ys[j]?.map key = some t := hj.1
  rcases h i (lt_length_of_mem_positions hi.1) j (lt_length_of_mem_positions hj.1) with
    heq | hne | ⟨k, hk, hsame⟩ | ⟨k, hk, hsame⟩
  · exact heq
  · exact absurd (hi'.trans hj'.symm) hne
  · exact absurd (hi.2 (hsame.trans hi')) (Nat.not_le.mpr hk)
  · exact absurd (hj.2 (hsame.trans hj')) (Nat.not_le.mpr hk)

/-- A cut-off log starts every key it still has where the log does. -/
theorem SameStarts.take (key : α → κ) (ys : List α) (n : Nat) : SameStarts key (ys.take n) ys := by
  intro t i j hi hj
  obtain ⟨hin, hi'⟩ := mem_positions_take.mp hi.1
  have hji : j ≤ i := hj.2 hi'
  have hjn : j < n := Nat.lt_of_le_of_lt hji hin
  exact Nat.le_antisymm (hi.2 (mem_positions_take.mpr ⟨hjn, hj.1⟩)) hji

/-- The entries of a key that both logs have begin at one place, in front of all of them. -/
theorem SameStarts.common_start (hs : SameStarts key xs ys) (hp : p ∈ positions key xs t)
    (hl : l ∈ positions key ys t) :
    ∃ f, f ∈ positions key xs t ∧ f ∈ positions key ys t ∧ f ≤ p ∧ f ≤ l := by
  have hx : IsLeast (positions key xs t) (sInf (positions key xs t)) := isLeast_csInf ⟨p, hp⟩
  have hy : IsLeast (positions key ys t) (sInf (positions key ys t)) := isLeast_csInf ⟨l, hl⟩
  have heq := hs t _ _ hx hy
  refine ⟨sInf (positions key xs t), hx.1, ?_, hx.2 hp, ?_⟩
  · rw [heq]
    exact hy.1
  · rw [heq]
    exact hy.2 hl

variable [LinearOrder κ]

def Rising (key : α → κ) (xs : List α) : Prop := (xs.map key).Pairwise (· ≤ ·)

theorem Rising.take (h : Rising key xs) (n : Nat) : Rising key (xs.take n) := by
  unfold Rising
  rw [List.map_take]
  exact List.Pairwise.sublist (List.take_sublist n _) h

theorem Rising.le {s : κ} (h : Rising key xs) (hi : i ∈ positions key xs s)
    (hj : j ∈ positions key xs t) (hij : i ≤ j) : s ≤ t := by
  obtain ⟨hi', rfl⟩ := List.getElem?_eq_some_iff.mp (List.getElem?_map.trans hi)
  obtain ⟨hj', rfl⟩ := List.getElem?_eq_some_iff.mp (List.getElem?_map.trans hj)
  exact h.rel_get_of_le (a := ⟨i, hi'⟩) (b := ⟨j, hj'⟩) hij

/-- The entries of one key stand together. -/
theorem Rising.between (h : Rising key xs) (hi : i ∈ positions key xs t)
    (hk : k ∈ positions key xs t) (hij : i ≤ j) (hjk : j ≤ k) : j ∈ positions key xs t := by
  have hlt : j < xs.length := Nat.lt_of_le_of_lt hjk (lt_length_of_mem_positions hk)
  have hj : j ∈ positions key xs (key xs[j]) :=
    mem_positions.mpr ⟨_, List.getElem?_eq_getElem hlt, rfl⟩
  rw [le_antisymm (h.le hj hk hjk) (h.le hi hj hij)] at hj
  exact hj

/-- The other log's last entry of the key lies in front of the position that differs. -/
theorem SameStarts.last_lt (hs : SameStarts key xs ys) (hy : Rising key ys)
    (hp : p ∈ positions key xs t) (hne : p ∉ positions key ys t)
    (hl : l ∈ positions key ys t) : l < p := by
  obtain ⟨f, -, hf, hfp, -⟩ := hs.common_start hp hl
  by_contra hge
  exact hne (hy.between hf hl hfp (Nat.le_of_not_lt hge))

/-- And the logs part right behind it, or before: `xs` goes on with the key. -/
theorem AgreeUpTo.le_of_last_key (h : AgreeUpTo xs ys q) (hs : SameStarts key xs ys)
    (hx : Rising key xs) (hy : Rising key ys) (hp : p ∈ positions key xs t)
    (hne : p ∉ positions key ys t) (hl : IsGreatest (positions key ys t) l) : q ≤ l := by
  obtain ⟨f, hf, -, -, hfl⟩ := hs.common_start hp hl.1
  have hlp : l + 1 ≤ p := hs.last_lt hy hp hne hl.1
  have hnext : l + 1 ∈ positions key xs t := hx.between hf hp (by omega) hlp
  by_contra hlt
  have hnext' := (h.mem_positions_iff (by omega)).mp hnext
  exact absurd (hl.2 hnext') (by omega)

/-! ## Rising logs, piece by piece -/

section Merge

variable {x y : α} {batch : List α}

theorem Rising.le_of_getElem? (h : Rising key xs) (hi : xs[i]? = some x) (hj : xs[j]? = some y)
    (hij : i ≤ j) : key x ≤ key y :=
  h.le (mem_positions.mpr ⟨x, hi, rfl⟩) (mem_positions.mpr ⟨y, hj, rfl⟩) hij

theorem Rising.concat (h : Rising key xs) (hle : ∀ x ∈ xs, key x ≤ key y) :
    Rising key (xs ++ [y]) := by
  unfold Rising
  rw [List.map_append, List.pairwise_append]
  refine ⟨h, List.pairwise_singleton _ _, ?_⟩
  simpa using hle

/-- The keys of a batch start at `t` or above it, and never fall. -/
def RisesFrom (key : α → κ) (t : κ) (batch : List α) : Prop :=
  (t :: batch.map key).Pairwise (· ≤ ·)

theorem RisesFrom.of_le (h : RisesFrom key t batch) {s : κ} (hs : s ≤ t) :
    RisesFrom key s batch := by
  obtain ⟨hle, hrest⟩ := List.pairwise_cons.mp h
  exact List.pairwise_cons.mpr ⟨fun k hk => hs.trans (hle k hk), hrest⟩

/-- What a rising log holds behind an entry rises from its key. -/
theorem Rising.piece (h : Rising key xs) (hx : xs[p]? = some x)
    (hpiece : PieceOf xs (p + 1) batch) : RisesFrom key (key x) batch :=
  List.Pairwise.sublist ((hpiece.cons hx).sublist.map key) h

variable [DecidableEq κ]

theorem Rising.placeAt (h : Rising key xs) (hx : xs[p]? = some x) (hle : key x ≤ key y) :
    Rising key (placeAt key xs (p + 1) y) := by
  have hcut : Rising key (xs.take (p + 1) ++ [y]) := by
    refine (h.take (p + 1)).concat ?_
    intro z hz
    obtain ⟨i, hi⟩ := List.getElem?_of_mem hz
    rw [List.getElem?_take] at hi
    split at hi
    · exact (h.le_of_getElem? hi hx (by omega)).trans hle
    · exact absurd hi (by simp)
  unfold Lib.placeAt
  cases hold : xs[p + 1]? with
  | none =>
    rw [List.take_of_length_le (List.getElem?_eq_none_iff.mp hold)] at hcut
    exact hcut
  | some old =>
    dsimp only
    split
    · exact hcut
    · exact h

/-- A batch that rises from the key in front of it leaves a rising log. -/
theorem Rising.merge (h : Rising key xs) (hx : xs[p]? = some x)
    (hbatch : RisesFrom key (key x) batch) : Rising key (merge key xs (p + 1) batch) := by
  induction batch generalizing xs p x with
  | nil => exact h
  | cons y batch ih =>
    obtain ⟨hle, hrest⟩ := List.pairwise_cons.mp hbatch
    have hlt := (List.getElem?_eq_some_iff.mp hx).1
    obtain ⟨old, hold, hkey⟩ : KeyAt key (Lib.placeAt key xs (p + 1) y) (p + 1) y :=
      keyAt_placeAt hlt
    refine ih (h.placeAt hx (hle _ (by simp))) hold ?_
    rw [hkey]
    exact hrest

end Merge

end Lib
end OrcDb
