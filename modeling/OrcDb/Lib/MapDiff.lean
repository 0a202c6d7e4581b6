import Mathlib

/-!
# The difference of two ordered maps

`diff old new` lists the keys at which two maps differ, in key order, each with what `new`
holds there. The list is determined by what it says (`eq_diff`): an operation that reports
its changes reports the difference as soon as the report is in key order and right at every
key. Applied to the map it starts from, a difference gives the map it leads to
(`patch_diff`).
-/

set_option autoImplicit false

namespace OrcDb
namespace Lib

open Std (ExtTreeMap TransOrd LawfulEqOrd)

/-- A key and what it holds from now on; `none` is a removal. -/
structure Change (α β : Type) where
  key : α
  value : Option β
deriving DecidableEq

variable {α β : Type} [Ord α] [TransOrd α]

def Change.apply (m : ExtTreeMap α β) (c : Change α β) : ExtTreeMap α β :=
  match c.value with
  | some v => m.insert c.key v
  | none => m.erase c.key

def patch (m : ExtTreeMap α β) (cs : List (Change α β)) : ExtTreeMap α β :=
  cs.foldl Change.apply m

theorem patch_append (m : ExtTreeMap α β) (cs ds : List (Change α β)) :
    patch m (cs ++ ds) = patch (patch m cs) ds := by
  rw [patch, List.foldl_append, patch, patch]

variable [LawfulEqOrd α] {old new m : ExtTreeMap α β} {c : Change α β}
  {cs : List (Change α β)} {k : α}

theorem Change.getElem?_apply [DecidableEq α] (m : ExtTreeMap α β) (c : Change α β) (k : α) :
    (c.apply m)[k]? = if c.key = k then c.value else m[k]? := by
  unfold Change.apply
  split
  · rename_i v hv
    simp only [ExtTreeMap.getElem?_insert, Std.compare_eq_iff_eq, hv]
  · rename_i hv
    simp only [ExtTreeMap.getElem?_erase, Std.compare_eq_iff_eq, hv]

/-- A key holds what its last change says. -/
theorem getElem?_patch_last [DecidableEq α] (m : ExtTreeMap α β) (cs : List (Change α β)) (k : α) :
    (patch m cs)[k]? = ((cs.filter fun c => c.key = k).getLast?).elim m[k]? Change.value := by
  induction cs using List.reverseRecOn with
  | nil => rfl
  | append_singleton cs c ih =>
    rw [patch_append, List.filter_append]
    have hlast : (patch (patch m cs) [c])[k]? = if c.key = k then c.value else (patch m cs)[k]? :=
      c.getElem?_apply _ k
    rw [hlast]
    by_cases hk : c.key = k
    · simp [hk]
    · simp [hk, ih]

/-- Changes that say what `new` holds leave everything else as it was. -/
theorem getElem?_patch (hcs : ∀ c ∈ cs, c.value = new[c.key]?) (k : α) :
    (patch m cs)[k]? = new[k]? ∨ (patch m cs)[k]? = m[k]? ∧ ∀ c ∈ cs, c.key ≠ k := by
  induction cs generalizing m with
  | nil => exact Or.inr ⟨rfl, by simp⟩
  | cons c cs ih =>
    classical
    rw [List.forall_mem_cons] at hcs
    rcases ih (m := c.apply m) hcs.2 with h | ⟨h, hnot⟩
    · exact Or.inl h
    · have hat := c.getElem?_apply m k
      split at hat
      · rename_i hk
        refine Or.inl ?_
        rw [patch, List.foldl_cons]
        exact h.trans (by rw [hat, hcs.1, hk])
      · rename_i hk
        refine Or.inr ⟨h.trans hat, ?_⟩
        rw [List.forall_mem_cons]
        exact ⟨hk, hnot⟩

/-! ## The difference -/

variable [DecidableEq β]

def diff (old new : ExtTreeMap α β) : List (Change α β) :=
  (old ∪ new).keys.filterMap fun k => if old[k]? = new[k]? then none else some ⟨k, new[k]?⟩

omit [LawfulEqOrd α] in
theorem diff_ordered (old new : ExtTreeMap α β) :
    (diff old new).Pairwise fun c d => compare c.key d.key = .lt := by
  rw [diff, List.pairwise_filterMap]
  refine ExtTreeMap.ordered_keys.imp ?_
  intro a b hab c hc d hd
  rw [Option.ite_none_left_eq_some, Option.some.injEq] at hc hd
  rw [← hc.2, ← hd.2]
  exact hab

theorem mem_diff : c ∈ diff old new ↔ old[c.key]? ≠ new[c.key]? ∧ c.value = new[c.key]? := by
  have hmem : old[c.key]? ≠ new[c.key]? → c.key ∈ old ∪ new := by
    intro hne
    rw [ExtTreeMap.mem_union_iff, ExtTreeMap.mem_iff_isSome_getElem?,
      ExtTreeMap.mem_iff_isSome_getElem?]
    cases hold : old[c.key]? with
    | some v => exact Or.inl rfl
    | none =>
      cases hnew : new[c.key]? with
      | some v => exact Or.inr rfl
      | none => exact absurd (hold.trans hnew.symm) hne
  simp only [diff, List.mem_filterMap, ExtTreeMap.mem_keys, Option.ite_none_left_eq_some,
    Option.some.injEq]
  constructor
  · rintro ⟨k, -, hne, rfl⟩
    exact ⟨hne, rfl⟩
  · rintro ⟨hne, hv⟩
    exact ⟨c.key, hmem hne, hne, by rw [← hv]⟩

/-- A report in key order that is right at every key is the difference. -/
theorem eq_diff (hord : cs.Pairwise fun c d => compare c.key d.key = .lt)
    (hmem : ∀ c, c ∈ cs ↔ old[c.key]? ≠ new[c.key]? ∧ c.value = new[c.key]?) :
    cs = diff old new := by
  have : Std.Irrefl fun c d : Change α β => compare c.key d.key = .lt :=
    ⟨fun c h => absurd (h.symm.trans Std.ReflCmp.compare_self) (by decide)⟩
  have : Std.Antisymm fun c d : Change α β => compare c.key d.key = .lt := by
    refine ⟨fun c d h h' => ?_⟩
    have hswap : compare d.key c.key = (compare c.key d.key).swap := Std.OrientedCmp.eq_swap
    rw [hswap, h] at h'
    exact absurd h' (by decide)
  exact hord.eq_of_mem_iff (diff_ordered old new) fun c => (hmem c).trans mem_diff.symm

@[simp]
theorem diff_self (m : ExtTreeMap α β) : diff m m = [] := by
  apply List.eq_nil_iff_forall_not_mem.mpr
  intro c hc
  exact (mem_diff.mp hc).1 rfl

/-- One key changes. -/
theorem diff_single (hne : old[k]? ≠ new[k]?) (hsame : ∀ a, a ≠ k → old[a]? = new[a]?) :
    diff old new = [⟨k, new[k]?⟩] := by
  symm
  refine eq_diff (List.pairwise_singleton _ _) ?_
  intro c
  rw [List.mem_singleton]
  constructor
  · rintro rfl
    exact ⟨hne, rfl⟩
  · rintro ⟨hc, hv⟩
    have hk : c.key = k := by
      by_contra h
      exact hc (hsame _ h)
    rw [← hk, ← hv]

theorem patch_diff (old new : ExtTreeMap α β) : patch old (diff old new) = new := by
  apply ExtTreeMap.ext_getElem?
  intro k
  rcases getElem?_patch (m := old) (fun c hc => (mem_diff.mp hc).2) k with h | ⟨h, hnot⟩
  · exact h
  · by_contra hne
    rw [h] at hne
    exact hnot ⟨k, new[k]?⟩ (mem_diff.mpr ⟨hne, rfl⟩) rfl

end Lib
end OrcDb
