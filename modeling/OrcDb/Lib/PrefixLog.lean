import Mathlib

/-!
# Logs as lists: agreement, matching, and the conflict merge

A log is a list, and a replica is told of another log piecewise. Three notions.

* `AgreeUpTo xs ys n`: the two hold the same thing at every position up to `n`. Where `n` is
  inside one of them it is inside the other.
* `Matching key xs ys`: one position with the same key on both sides makes everything up to
  it the same. It is what lets a replica compare keys and conclude about contents.
* `merge key xs m batch`: put a batch of entries at positions `m`, `m + 1`, … of `xs`. An entry
  whose key is already there is skipped, a different key cuts the log off at that position,
  past the end the entry is pushed.

`merge_agree` and `merge_differ` are the whole story about the merge of a piece of a matching
log `M` that continues a common prefix: either the log already agreed with `M` through the
end of the piece and nothing happens, or the result is `M` itself, cut off at that end.
-/

set_option autoImplicit false

namespace OrcDb
namespace Lib

variable {α κ : Type}

/-! ## Agreement -/

def AgreeUpTo (xs ys : List α) (n : Nat) : Prop := ∀ k ≤ n, xs[k]? = ys[k]?

namespace AgreeUpTo

variable {xs ys zs : List α} {m n : Nat}

theorem refl (xs : List α) (n : Nat) : AgreeUpTo xs xs n := fun _ _ => rfl

theorem symm (h : AgreeUpTo xs ys n) : AgreeUpTo ys xs n := fun k hk => (h k hk).symm

theorem trans (h : AgreeUpTo xs ys n) (h' : AgreeUpTo ys zs n) : AgreeUpTo xs zs n :=
  fun k hk => (h k hk).trans (h' k hk)

theorem mono (h : AgreeUpTo xs ys n) (hmn : m ≤ n) : AgreeUpTo xs ys m :=
  fun k hk => h k (Nat.le_trans hk hmn)

theorem length_lt (h : AgreeUpTo xs ys n) (hn : n < xs.length) : n < ys.length := by
  have := h n (Nat.le_refl n)
  rw [List.getElem?_eq_getElem hn] at this
  exact (List.getElem?_eq_some_iff.mp this.symm).1

/-- Agreement is not disturbed by what is appended to the right-hand log. -/
theorem append (h : AgreeUpTo xs ys n) (hn : n < ys.length) (zs : List α) :
    AgreeUpTo xs (ys ++ zs) n := by
  intro k hk
  rw [List.getElem?_append_left (by omega)]
  exact h k hk

theorem lengthen (h : AgreeUpTo xs ys n) (hn : n < ys.length) (hp : ys <+: zs) :
    AgreeUpTo xs zs n := by
  obtain ⟨ws, rfl⟩ := hp
  exact h.append hn ws

theorem take_eq (h : AgreeUpTo xs ys n) : xs.take (n + 1) = ys.take (n + 1) := by
  apply List.ext_getElem?
  intro k
  rcases Nat.lt_or_ge k (n + 1) with hlt | hge
  · rw [List.getElem?_take_of_lt hlt, List.getElem?_take_of_lt hlt]
    exact h k (Nat.le_of_lt_succ hlt)
  · rw [List.getElem?_eq_none (by rw [List.length_take]; omega),
      List.getElem?_eq_none (by rw [List.length_take]; omega)]

theorem of_take (ys : List α) (hmn : m < n) : AgreeUpTo (ys.take n) ys m := by
  intro k hk
  rw [List.getElem?_take_of_lt (by omega)]

end AgreeUpTo

/-! ## Matching -/

def Matching (key : α → κ) (xs ys : List α) : Prop :=
  ∀ k x y, xs[k]? = some x → ys[k]? = some y → key x = key y → AgreeUpTo xs ys k

/-- The condition, position by position. -/
theorem Matching.of_forall {key : α → κ} {xs ys : List α}
    (h : ∀ k < ys.length, xs[k]?.map key ≠ ys[k]?.map key ∨ ∀ j < k + 1, xs[j]? = ys[j]?) :
    Matching key xs ys := by
  intro k x y hx hy hkey
  rcases h k (List.getElem?_eq_some_iff.mp hy).1 with hne | hagree
  · rw [hx, hy, Option.map_some, Option.map_some, hkey] at hne
    exact absurd rfl hne
  · exact fun j hj => hagree j (Nat.lt_succ_of_le hj)

/-- A beginning of a log matches it. -/
theorem Matching.take (key : α → κ) (ys : List α) (n : Nat) : Matching key (ys.take n) ys := by
  intro k x y hx _ _
  have hlt := (List.getElem?_eq_some_iff.mp hx).1
  rw [List.length_take] at hlt
  exact AgreeUpTo.of_take ys (by omega)

/-! ## The merge -/

variable [DecidableEq κ] (key : α → κ)

/-- One entry at position `m`. -/
def placeAt (xs : List α) (m : Nat) (x : α) : List α :=
  match xs[m]? with
  | some old => if key old ≠ key x then xs.take m ++ [x] else xs
  | none => xs ++ [x]

def merge : List α → Nat → List α → List α
  | xs, _, [] => xs
  | xs, m, x :: batch => merge (placeAt key xs m x) (m + 1) batch

/-- `batch` is what `M` holds from position `m` on. -/
def PieceOf (M : List α) (m : Nat) (batch : List α) : Prop :=
  ∀ k < batch.length, M[m + k]? = batch[k]?

variable {key} {xs M : List α} {x : α} {batch : List α} {m p : Nat}

variable (key) in
/-- The key of `x` is at position `m`. -/
def KeyAt (xs : List α) (m : Nat) (x : α) : Prop := ∃ old, xs[m]? = some old ∧ key old = key x

/-- Nothing is placed exactly where the key is there already. -/
theorem placeAt_eq_self_iff : placeAt key xs m x = xs ↔ KeyAt key xs m x := by
  unfold placeAt KeyAt
  cases hold : xs[m]? with
  | none => simp
  | some old =>
    simp only [Option.some.injEq, exists_eq_left']
    by_cases hkey : key old = key x
    · simp [hkey]
    · refine iff_of_false ?_ hkey
      rw [if_pos hkey]
      intro h
      -- `x` would be what is there, with its own key
      have hlt := (List.getElem?_eq_some_iff.mp hold).1
      rw [← h, List.getElem?_append_right (by rw [List.length_take]; omega), List.length_take,
        min_eq_left (Nat.le_of_lt hlt), Nat.sub_self] at hold
      simp only [List.getElem?_cons_zero, Option.some.injEq] at hold
      exact hkey (congrArg key hold.symm)

/-- Where the key is not there, the list ends with what is placed. -/
theorem length_placeAt (hm : m ≤ xs.length) (h : ¬ KeyAt key xs m x) :
    (placeAt key xs m x).length = m + 1 := by
  unfold placeAt
  cases hold : xs[m]? with
  | none =>
    have := List.getElem?_eq_none_iff.mp hold
    rw [List.length_append, List.length_singleton]
    omega
  | some old =>
    have hkey : key old ≠ key x := fun hkey => h ⟨old, hold, hkey⟩
    dsimp only
    rw [if_pos hkey, List.length_append, List.length_take, List.length_singleton, min_eq_left hm]

/-- Afterwards the key is there. -/
theorem keyAt_placeAt (hm : m ≤ xs.length) : KeyAt key (placeAt key xs m x) m x := by
  have hend : ∀ ys : List α, ys.length = m → KeyAt key (ys ++ [x]) m x := by
    intro ys hlen
    subst hlen
    exact ⟨x, List.getElem?_concat_length, rfl⟩
  unfold placeAt
  cases hold : xs[m]? with
  | none => exact hend xs (Nat.le_antisymm (List.getElem?_eq_none_iff.mp hold) hm)
  | some old =>
    dsimp only
    split
    · exact hend _ (by rw [List.length_take, min_eq_left hm])
    · rename_i hkey
      exact ⟨old, hold, not_not.mp hkey⟩

/-- A key behind the place of a batch is there after the merge exactly if nothing was placed:
    the keys of the batch were there, and that one. -/
theorem keyAt_merge_iff (hm : m ≤ xs.length) :
    KeyAt key (merge key xs m batch) (m + batch.length) x ↔
      (∀ k y, batch[k]? = some y → KeyAt key xs (m + k) y) ∧ KeyAt key xs (m + batch.length) x := by
  induction batch generalizing xs m with
  | nil => simp [merge]
  | cons y batch ih =>
    have hassoc : m + (y :: batch).length = m + 1 + batch.length := by
      rw [List.length_cons]
      omega
    have hcons : (∀ k z, (y :: batch)[k]? = some z → KeyAt key xs (m + k) z) ↔
        KeyAt key xs m y ∧ ∀ k z, batch[k]? = some z → KeyAt key xs (m + 1 + k) z := by
      constructor
      · intro h
        refine ⟨h 0 y rfl, ?_⟩
        intro k z hz
        rw [Nat.add_right_comm]
        exact h (k + 1) z hz
      · rintro ⟨hy, h⟩ k z hz
        cases k with
        | zero =>
          cases hz
          exact hy
        | succ k =>
          have := h k z hz
          rwa [Nat.add_right_comm] at this
    rw [merge, hassoc, hcons]
    by_cases hy : KeyAt key xs m y
    · obtain ⟨old, hold, -⟩ := id hy
      have hlt := (List.getElem?_eq_some_iff.mp hold).1
      rw [placeAt_eq_self_iff.mpr hy, ih hlt]
      simp [hy]
    · have hlen := length_placeAt hm hy
      rw [ih (by omega)]
      refine iff_of_false ?_ (fun h => hy h.1.1)
      rintro ⟨-, old, hold, -⟩
      have hlt := (List.getElem?_eq_some_iff.mp hold).1
      omega

theorem PieceOf.head (h : PieceOf M m (x :: batch)) : M[m]? = some x := by
  have := h 0 (by simp)
  simpa using this

theorem PieceOf.tail (h : PieceOf M m (x :: batch)) : PieceOf M (m + 1) batch := by
  intro k hk
  have := h (k + 1) (by simpa using hk)
  rw [Nat.add_assoc, Nat.add_comm 1 k, this]
  simp

theorem PieceOf.length_le (h : PieceOf M m batch) (hm : m ≤ M.length) :
    m + batch.length ≤ M.length := by
  cases batch with
  | nil => simpa using hm
  | cons y ys =>
    have hlen : ys.length < (y :: ys).length := by simp
    have hlast := h ys.length hlen
    rw [List.getElem?_eq_getElem hlen] at hlast
    have := (List.getElem?_eq_some_iff.mp hlast).1
    simp only [List.length_cons]
    omega

theorem PieceOf.cons (hx : M[m]? = some x) (h : PieceOf M (m + 1) batch) :
    PieceOf M m (x :: batch) := by
  intro k hk
  cases k with
  | zero => simpa using hx
  | succ k =>
    have := h k (by simpa using hk)
    rw [Nat.add_assoc, Nat.add_comm 1 k] at this
    simpa using this

theorem PieceOf.sublist (h : PieceOf M m batch) : batch.Sublist M := by
  have heq : batch = (M.drop m).take batch.length := by
    refine List.ext_getElem? fun k => ?_
    rw [List.getElem?_take]
    split
    · rename_i hk
      rw [List.getElem?_drop, h k hk]
    · rename_i hk
      exact List.getElem?_eq_none (Nat.le_of_not_lt hk)
  rw [heq]
  exact (List.take_sublist _ _).trans (List.drop_sublist m M)

/-- A cut-off `M` grows along `M`. -/
theorem merge_take (h : PieceOf M m batch) :
    merge key (M.take m) m batch = M.take (m + batch.length) := by
  induction batch generalizing m with
  | nil => simp [merge]
  | cons y ys ih =>
    have hy := h.head
    have hlt : m < M.length := (List.getElem?_eq_some_iff.mp hy).1
    have hstep : placeAt key (M.take m) m y = M.take (m + 1) := by
      unfold placeAt
      rw [List.getElem?_eq_none (by rw [List.length_take]; omega)]
      rw [List.take_add_one, hy]
      rfl
    rw [merge, hstep, ih h.tail]
    congr 1
    simp only [List.length_cons]
    omega

/-- The piece was already there: nothing changes. -/
theorem merge_agree (hpiece : PieceOf M m batch)
    (hagree : ∀ k < batch.length, xs[m + k]? = M[m + k]?) : merge key xs m batch = xs := by
  induction batch generalizing m with
  | nil => rfl
  | cons y ys ih =>
    have hy : xs[m]? = some y := by
      rw [← hpiece.head]
      simpa using hagree 0 (by simp)
    have hstep : placeAt key xs m y = xs := by
      unfold placeAt
      rw [hy]
      simp
    rw [merge, hstep]
    refine ih hpiece.tail (fun k hk => ?_)
    have := hagree (k + 1) (by simpa using hk)
    rwa [Nat.add_assoc, Nat.add_comm 1 k]

/-- The piece was not all there: the result is `M` up to the end of the piece. -/
theorem merge_differ (hmatch : Matching key xs M) (hpiece : PieceOf M (p + 1) batch)
    (hagree : AgreeUpTo xs M p) (hp : p < xs.length)
    (hdiff : ¬ AgreeUpTo xs M (p + batch.length)) :
    merge key xs (p + 1) batch = M.take (p + 1 + batch.length) := by
  induction batch generalizing p with
  | nil => exact absurd hagree hdiff
  | cons y ys ih =>
    have hy := hpiece.head
    have hlt : p + 1 < M.length := (List.getElem?_eq_some_iff.mp hy).1
    have hcut : xs.take (p + 1) = M.take (p + 1) := hagree.take_eq
    -- either the head is already there and the difference lies further on,
    -- or from here on the log is a cut-off `M`
    by_cases hhead : ∃ old, xs[p + 1]? = some old ∧ key old = key y
    · obtain ⟨old, hold, hkey⟩ := hhead
      have hagree' : AgreeUpTo xs M (p + 1) := hmatch _ _ _ hold hy hkey
      have hstep : placeAt key xs (p + 1) y = xs := by
        unfold placeAt
        rw [hold]
        simp [hkey]
      rw [merge, hstep, ih hpiece.tail hagree' (List.getElem?_eq_some_iff.mp hold).1 ?_]
      · congr 1
        simp only [List.length_cons]
        omega
      · simpa [Nat.add_assoc, Nat.add_comm 1] using hdiff
    · have hstep : placeAt key xs (p + 1) y = M.take (p + 1 + 1) := by
        unfold placeAt
        cases hold : xs[p + 1]? with
        | some old =>
          have hne : key old ≠ key y := fun h => hhead ⟨old, hold, h⟩
          simp only [hne, ne_eq, not_false_eq_true, if_true]
          rw [hcut, List.take_add_one (i := p + 1), hy]
          rfl
        | none =>
          have hlen : xs.length = p + 1 := by
            have := List.getElem?_eq_none_iff.mp hold
            omega
          have hxs : xs = M.take (p + 1) := by
            rw [← hcut, ← hlen, List.take_length]
          simp only
          rw [hxs, List.take_add_one (i := p + 1), hy]
          rfl
      rw [merge, hstep, merge_take hpiece.tail]
      congr 1
      simp only [List.length_cons]
      omega

/-- Whatever the log was, after the merge it agrees with `M` through the end of the piece. -/
theorem merge_agreeUpTo (hmatch : Matching key xs M) (hpiece : PieceOf M (p + 1) batch)
    (hagree : AgreeUpTo xs M p) (hp : p < xs.length) :
    AgreeUpTo (merge key xs (p + 1) batch) M (p + batch.length) := by
  by_cases h : AgreeUpTo xs M (p + batch.length)
  · rw [merge_agree hpiece (fun k hk => h _ (by omega))]
    exact h
  · rw [merge_differ hmatch hpiece hagree hp h]
    exact AgreeUpTo.of_take M (by omega)

/-- Agreement with `M` is never lost, however far it went. -/
theorem merge_keeps {n : Nat} (hmatch : Matching key xs M) (hpiece : PieceOf M (p + 1) batch)
    (hagree : AgreeUpTo xs M p) (hp : p < xs.length) (hn : AgreeUpTo xs M n) :
    AgreeUpTo (merge key xs (p + 1) batch) M n := by
  by_cases h : AgreeUpTo xs M (p + batch.length)
  · rw [merge_agree hpiece (fun k hk => h _ (by omega))]
    exact hn
  · have hlt : n < p + batch.length := by
      by_contra hge
      exact h (hn.mono (by omega))
    exact (merge_agreeUpTo hmatch hpiece hagree hp).mono (by omega)

/-! ## What a merge leaves -/

/-- What holds of the entries of the log and of the batch at their positions holds of the
    entries of the merge. -/
theorem merge_forall {R : Nat → α → Prop} (hm : m ≤ xs.length)
    (hxs : ∀ (k : Nat) (x : α), xs[k]? = some x → R k x)
    (hbatch : ∀ (k : Nat) (x : α), batch[k]? = some x → R (m + k) x) :
    ∀ (k : Nat) (x : α), (merge key xs m batch)[k]? = some x → R k x := by
  induction batch generalizing xs m with
  | nil => exact hxs
  | cons y ys ih =>
    have hend : ∀ zs : List α, zs.length = m → (∀ (k : Nat) (x : α), zs[k]? = some x → R k x) →
        ∀ (k : Nat) (x : α), (zs ++ [y])[k]? = some x → R k x := by
      intro zs hlen hzs k x hx
      rcases Nat.lt_or_ge k zs.length with hlt | hge
      · rw [List.getElem?_append_left hlt] at hx
        exact hzs k x hx
      · rw [List.getElem?_append_right hge, List.getElem?_singleton] at hx
        split at hx
        · cases hx
          have hk : k = m + 0 := by omega
          rw [hk]
          exact hbatch 0 y rfl
        · exact absurd hx (by simp)
    have htail : ∀ (k : Nat) (x : α), ys[k]? = some x → R (m + 1 + k) x := by
      intro k x hx
      have := hbatch (k + 1) x hx
      rw [← Nat.add_assoc, Nat.add_right_comm] at this
      exact this
    rw [merge]
    unfold placeAt
    cases hold : xs[m]? with
    | none =>
      have hlen : xs.length = m := Nat.le_antisymm (List.getElem?_eq_none_iff.mp hold) hm
      exact ih (by simp [hlen]) (hend xs hlen hxs) htail
    | some old =>
      have hlt := (List.getElem?_eq_some_iff.mp hold).1
      dsimp only
      split
      · refine ih (by simp [hm]) (hend _ (by simp [hm]) fun k x hx => ?_) htail
        rw [List.getElem?_take] at hx
        split at hx
        · exact hxs k x hx
        · exact absurd hx (by simp)
      · exact ih hlt hxs htail

/-- In front of the batch nothing changes. -/
theorem getElem?_merge {k : Nat} (hk : k < m) (hm : m ≤ xs.length) :
    (merge key xs m batch)[k]? = xs[k]? := by
  induction batch generalizing xs m with
  | nil => rfl
  | cons y ys ih =>
    have hplace : (placeAt key xs m y)[k]? = xs[k]? ∧ m + 1 ≤ (placeAt key xs m y).length := by
      unfold placeAt
      cases hold : xs[m]? with
      | none =>
        rw [List.getElem?_append_left (by omega), List.length_append]
        exact ⟨rfl, by simpa using hm⟩
      | some old =>
        have hlt := (List.getElem?_eq_some_iff.mp hold).1
        dsimp only
        split
        · rw [List.getElem?_append_left (by rw [List.length_take]; omega),
            List.getElem?_take_of_lt hk]
          exact ⟨rfl, by simp; omega⟩
        · exact ⟨rfl, hlt⟩
    rw [merge, ih (by omega) hplace.2, hplace.1]

/-- At the end of the log a merge appends. -/
theorem merge_at_end (h : xs.length = m) : merge key xs m batch = xs ++ batch := by
  induction batch generalizing xs m with
  | nil => rw [merge, List.append_nil]
  | cons y ys ih =>
    have hplace : placeAt key xs m y = xs ++ [y] := by
      unfold placeAt
      rw [List.getElem?_eq_none (Nat.le_of_eq h)]
    rw [merge, hplace, ih (by simp [h]), List.append_assoc]
    rfl

/-! ## How far a merge reaches -/

variable (key) in
/-- Somewhere the batch meets an entry with another key. -/
def Clash (xs : List α) (m : Nat) (batch : List α) : Prop :=
  ∃ (k : Nat) (old x : α), xs[m + k]? = some old ∧ batch[k]? = some x ∧ key old ≠ key x

omit [DecidableEq κ] in
theorem not_clash_of_length_le (h : xs.length ≤ m) : ¬ Clash key xs m batch := by
  rintro ⟨k, old, y, hold, -, -⟩
  have := (List.getElem?_eq_some_iff.mp hold).1
  omega

omit [DecidableEq κ] in
theorem clash_cons_iff {old y : α} {ys : List α} (hold : xs[m]? = some old) :
    Clash key xs m (y :: ys) ↔ key old ≠ key y ∨ Clash key xs (m + 1) ys := by
  constructor
  · rintro ⟨k, old', x, hk, hx, hne⟩
    cases k with
    | zero =>
      rw [Nat.add_zero, hold] at hk
      cases hk
      cases hx
      exact Or.inl hne
    | succ k =>
      refine Or.inr ⟨k, old', x, ?_, hx, hne⟩
      rw [Nat.add_assoc, Nat.add_comm 1 k]
      exact hk
  · rintro (hne | ⟨k, old', x, hk, hx, hne⟩)
    · exact ⟨0, old, y, hold, rfl, hne⟩
    · refine ⟨k + 1, old', x, ?_, hx, hne⟩
      rw [Nat.add_assoc, Nat.add_comm 1 k] at hk
      exact hk

/-- A clash cuts off what lies behind it, so the log ends with the batch. -/
theorem length_merge_of_clash (hm : m ≤ xs.length) (h : Clash key xs m batch) :
    (merge key xs m batch).length = m + batch.length := by
  induction batch generalizing m with
  | nil =>
    obtain ⟨k, old, x, -, hx, -⟩ := h
    exact absurd hx (by simp)
  | cons y ys ih =>
    cases hold : xs[m]? with
    | none => exact absurd h (not_clash_of_length_le (List.getElem?_eq_none_iff.mp hold))
    | some old =>
      have hlt := (List.getElem?_eq_some_iff.mp hold).1
      rw [merge, placeAt, hold, List.length_cons]
      dsimp only
      split
      · rw [merge_at_end (by simp [hm])]
        simp [hm]
      · rename_i hsame
        have hrest := ((clash_cons_iff hold).mp h).resolve_left hsame
        rw [ih hlt hrest]
        omega

/-- Without one the longer of the two remains. -/
theorem length_merge_of_not_clash (hm : m ≤ xs.length) (h : ¬ Clash key xs m batch) :
    (merge key xs m batch).length = max xs.length (m + batch.length) := by
  induction batch generalizing xs m with
  | nil =>
    rw [merge, List.length_nil, Nat.add_zero, Nat.max_eq_left hm]
  | cons y ys ih =>
    rw [merge, placeAt, List.length_cons]
    cases hold : xs[m]? with
    | none =>
      have hlen : xs.length = m := Nat.le_antisymm (List.getElem?_eq_none_iff.mp hold) hm
      dsimp only
      rw [merge_at_end (by simp [hlen])]
      simp [hlen]
    | some old =>
      have hlt := (List.getElem?_eq_some_iff.mp hold).1
      rw [clash_cons_iff hold, not_or] at h
      dsimp only
      rw [if_neg h.1, ih hlt h.2]
      omega

/-- **Something strange behind the log** does no harm exactly if the batch clashes with the log
    or with the first strange entry: then it is cut off. -/
theorem merge_append_iff {y : α} {ys : List α} (hm : m ≤ xs.length) (hy : y ∉ batch) :
    merge key (xs ++ y :: ys) m batch = merge key xs m batch ↔ Clash key (xs ++ [y]) m batch := by
  induction batch generalizing m with
  | nil =>
    refine iff_of_false (by simp [merge]) ?_
    rintro ⟨k, old, x, -, hx, -⟩
    exact absurd hx (by simp)
  | cons b bs ih =>
    rw [List.mem_cons, not_or] at hy
    rcases Nat.lt_or_ge m xs.length with hlt | hge
    · have hold := List.getElem?_eq_getElem hlt
      have hleft : (xs ++ y :: ys)[m]? = some xs[m] := by
        rw [List.getElem?_append_left hlt, hold]
      have hclash : (xs ++ [y])[m]? = some xs[m] := by
        rw [List.getElem?_append_left hlt, hold]
      rw [merge, merge, placeAt, placeAt, hleft, hold, clash_cons_iff hclash]
      dsimp only
      split
      · rename_i hne
        rw [List.take_append_of_le_length hm]
        exact iff_of_true rfl (Or.inl hne)
      · rename_i hsame
        rw [ih hlt hy.2, or_iff_right hsame]
    · -- the batch has come to the end of the log and meets the first strange entry
      obtain rfl : m = xs.length := Nat.le_antisymm hm hge
      have hleft : (xs ++ y :: ys)[xs.length]? = some y := by simp
      have hclash : (xs ++ [y])[xs.length]? = some y := by simp
      have hright : xs[xs.length]? = none := List.getElem?_eq_none (Nat.le_refl _)
      rw [merge, merge, placeAt, placeAt, hleft, hright, clash_cons_iff hclash]
      dsimp only
      split
      · rename_i hne
        rw [List.take_left]
        exact iff_of_true rfl (Or.inl hne)
      · rename_i hsame
        refine iff_of_false (fun heq => ?_) ?_
        · have hpos := congrArg (fun l => l[xs.length]?) heq
          rw [getElem?_merge (Nat.lt_succ_self _) (by simp),
            getElem?_merge (Nat.lt_succ_self _) (by simp), hleft,
            List.getElem?_concat_length] at hpos
          exact hy.1 (Option.some.inj hpos)
        · rw [or_iff_right hsame]
          exact not_clash_of_length_le (by simp)

/-! ## When a merge is a plain overwrite -/

variable (key) in
/-- The batch repeats the log from position `m` on, until the log ends or has an entry with
    another key. -/
def Retold (xs : List α) (m : Nat) (batch : List α) : Prop :=
  ∃ j ≤ batch.length, (∀ k < j, xs[m + k]? = batch[k]?) ∧
    (xs.length ≤ m + j ∨ ∃ old x, xs[m + j]? = some old ∧ batch[j]? = some x ∧ key old ≠ key x)

namespace Retold

omit [DecidableEq κ]

theorem of_length_le (h : xs.length ≤ m) : Retold key xs m batch :=
  ⟨0, Nat.zero_le _, fun k hk => absurd hk (Nat.not_lt_zero k), Or.inl h⟩

theorem of_key_ne {old y : α} {ys : List α} (hold : xs[m]? = some old) (hne : key old ≠ key y) :
    Retold key xs m (y :: ys) :=
  ⟨0, Nat.zero_le _, fun k hk => absurd hk (Nat.not_lt_zero k), Or.inr ⟨old, y, hold, rfl, hne⟩⟩

theorem nil_iff : Retold key xs m [] ↔ xs.length ≤ m := by
  constructor
  · rintro ⟨j, hj, -, h | ⟨old, x, -, hx, -⟩⟩
    · rw [List.length_nil, Nat.le_zero] at hj
      rw [hj] at h
      exact h
    · exact absurd hx (by simp)
  · exact of_length_le

/-- Where the keys agree, the entries have to agree. -/
theorem cons_iff {old y : α} {ys : List α} (hold : xs[m]? = some old) (hsame : key old = key y) :
    Retold key xs m (y :: ys) ↔ old = y ∧ Retold key xs (m + 1) ys := by
  have hlt := (List.getElem?_eq_some_iff.mp hold).1
  have hshift : ∀ k, m + (k + 1) = m + 1 + k := by
    intro k
    omega
  constructor
  · rintro ⟨j, hj, hrep, hend⟩
    cases j with
    | zero =>
      rcases hend with hend | ⟨old', x, hold', hx, hne⟩
      · exact absurd hlt (Nat.not_lt.mpr hend)
      · rw [Nat.add_zero, hold] at hold'
        cases hold'
        cases hx
        exact absurd hsame hne
    | succ j =>
      have hy : some old = some y := by
        rw [← hold]
        exact hrep 0 (Nat.succ_pos j)
      refine ⟨Option.some.inj hy, j, Nat.le_of_succ_le_succ hj, fun k hk => ?_, ?_⟩
      · rw [← hshift]
        exact hrep (k + 1) (Nat.succ_lt_succ hk)
      · rw [← hshift]
        exact hend
  · rintro ⟨rfl, j, hj, hrep, hend⟩
    refine ⟨j + 1, Nat.succ_le_succ hj, fun k hk => ?_, ?_⟩
    · cases k with
      | zero => exact hold
      | succ k =>
        rw [hshift]
        exact hrep k (Nat.lt_of_succ_lt_succ hk)
    · rw [hshift]
      exact hend

end Retold

/-- **When a merge is a plain overwrite**: the log after it is the part in front of the batch
    and then the batch, exactly if the batch retells the log. -/
theorem merge_eq_iff (hm : m ≤ xs.length) :
    merge key xs m batch = xs.take m ++ batch ↔ Retold key xs m batch := by
  induction batch generalizing xs m with
  | nil => rw [merge, List.append_nil, eq_comm, List.take_eq_self_iff, Retold.nil_iff]
  | cons y ys ih =>
    rw [merge]
    unfold placeAt
    cases hold : xs[m]? with
    | none =>
      have hlen : xs.length = m := Nat.le_antisymm (List.getElem?_eq_none_iff.mp hold) hm
      refine iff_of_true ?_ (.of_length_le (Nat.le_of_eq hlen))
      rw [merge_at_end (by simp [hlen]), ← hlen, List.take_length, List.append_assoc]
      rfl
    | some old =>
      have hlt := (List.getElem?_eq_some_iff.mp hold).1
      dsimp only
      split
      · rename_i hne
        refine iff_of_true ?_ (.of_key_ne hold hne)
        rw [merge_at_end (by simp [hm]), List.append_assoc]
        rfl
      · rename_i hsame
        have htake : xs.take (m + 1) = xs.take m ++ [old] := by
          rw [List.take_add_one, hold]
          rfl
        rw [Retold.cons_iff hold (not_not.mp hsame), ← ih hlt, htake, List.append_assoc,
          List.singleton_append]
        constructor
        · intro h
          -- the skipped entry is still there, so it is the head of the batch
          have hpos : (merge key xs (m + 1) ys)[m]? = some old := by
            rw [getElem?_merge (Nat.lt_succ_self m) hlt, hold]
          rw [h, List.getElem?_append_right (by rw [List.length_take]; omega)] at hpos
          have hy : old = y := by simpa [Nat.min_eq_left hm] using hpos.symm
          exact ⟨hy, by rw [h, hy]⟩
        · rintro ⟨rfl, h⟩
          exact h

end Lib
end OrcDb
