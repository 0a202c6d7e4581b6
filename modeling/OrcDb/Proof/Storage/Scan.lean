import OrcDb.Storage.RawStore
import OrcDb.Proof.Storage.KVStore

/-!
# Prefix scans

`Scan` goes from `lower_bound` to the first key that does not have the prefix. For bytes as for
texts the keys with a prefix are a run of the map (`keyRun_isPrefixOf`), so it sees them all and in
order.
The limit is looked at when an entry has been taken, and one entry is taken whatever the limit is:
a limit of 0 is the one on which `Scan` is wrong (`scan_exact_iff`).
-/

set_option autoImplicit false

namespace OrcDb
namespace Proof

open Lib

/-- What a scan should return: the unexpired entries under the prefix in strictly increasing
    order of their keys, and of these the first `limit`. -/
def ExactScan (s : RawStore) (now : Int) (pattern : Bytes) (limit : Option Nat)
    (results : List (Bytes × RawEntry)) : Prop :=
  ∃ all : List (Bytes × RawEntry), all.Pairwise (fun a b => a.1 < b.1) ∧
    (∀ k e, (k, e) ∈ all ↔ s.data[k]? = some e ∧ pattern <+: k ∧ e.expired now = false) ∧
    results = limit.elim all fun n => all.take n

variable {s : RawStore} {now : Int} {pattern : Bytes}

/-- The unexpired entries under the prefix. -/
def live (s : RawStore) (now : Int) (pattern : Bytes) : List (Bytes × RawEntry) :=
  s.data.toList.filter fun p => pattern.isPrefixOf p.1 && !p.2.expired now

theorem rawToList_sorted (s : RawStore) : s.data.toList.Pairwise fun a b => a.1 < b.1 :=
  Std.ExtTreeMap.ordered_keys_toList.imp fun h => compare_list_eq_lt.mp h

theorem mem_live_iff {k : Bytes} {e : RawEntry} : (k, e) ∈ live s now pattern ↔
    s.data[k]? = some e ∧ pattern <+: k ∧ e.expired now = false := by
  rw [live, List.mem_filter, Std.ExtTreeMap.mem_toList_iff_getElem?_eq_some]
  simp

theorem rawScan_eq (s : RawStore) (now : Int) (pattern : Bytes) (limit : Option Nat) :
    s.scan now pattern limit = limited limit (live s now pattern) :=
  scanLoop_lowerBound (keyRun_isPrefixOf pattern) (rawToList_sorted s)

/-- **When a scan is exact**: always, but for a limit of 0 when there is something to see. -/
theorem scan_exact_iff (s : RawStore) (now : Int) (pattern : Bytes) (limit : Option Nat) :
    ExactScan s now pattern limit (s.scan now pattern limit) ↔
      (limit = some 0 → ∀ k e, s.data[k]? = some e → pattern <+: k → e.expired now = true) := by
  rw [rawScan_eq]
  constructor
  · rintro ⟨all, -, -, hresults⟩ rfl k e hk hparam
    -- one entry is taken in any case, so there was none
    have hnone : live s now pattern = [] := by
      simpa [limited, List.take_eq_nil_iff] using hresults
    by_contra hlive
    rw [Bool.not_eq_true] at hlive
    have hmem := mem_live_iff.mpr ⟨hk, hparam, hlive⟩
    rw [hnone] at hmem
    exact absurd hmem (by simp)
  · intro h
    refine ⟨live s now pattern, (rawToList_sorted s).sublist List.filter_sublist,
      fun k e => mem_live_iff, ?_⟩
    rcases limit with _ | _ | n
    · rfl
    · have hnone : live s now pattern = [] := by
        rw [List.eq_nil_iff_forall_not_mem]
        rintro ⟨k, e⟩ hmem
        obtain ⟨hk, hparam, hlive⟩ := mem_live_iff.mp hmem
        rw [h rfl k e hk hparam] at hlive
        exact absurd hlive (by simp)
      rw [hnone]
      rfl
    · exact congrArg (fun m => (live s now pattern).take m) (by omega)

/-- A store with one entry. -/
def oneKey : RawStore where
  data := (∅ : Std.ExtTreeMap Bytes RawEntry).insert (toBytes "a")
    { value := toBytes "1", createdAt := 0, updatedAt := 0 }

/-- With a limit of 0 it is returned. -/
theorem scan_exact_fails : ¬ExactScan oneKey 0 [] (some 0) (oneKey.scan 0 [] (some 0)) := by
  rintro ⟨all, -, -, hresults⟩
  have hone : oneKey.scan 0 [] (some 0) =
      [(toBytes "a", { value := toBytes "1", createdAt := 0, updatedAt := 0 })] := by
    decide +kernel
  rw [hone] at hresults
  exact absurd hresults (by simp)

end Proof
end OrcDb
