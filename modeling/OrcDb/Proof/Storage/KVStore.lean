import OrcDb.Storage.KVStore
import OrcDb.Lib.KeyRun

/-!
# What the store answers

A client of `KVStore` sees entries that have not expired, and of each of them the value, the
version and the Raft index. `visible s now` is the map of what there is to see at one
instant, and both reads are read off it: `Get` is a lookup (`get_view`), `Scan` is the part
under a prefix, in key order, cut at the limit (`scan_view`). So two stores that show the
same map answer alike.

`Scan` stops at the first key that does not start with the prefix. That this loses nothing
is the order of the map: the keys that start with a prefix stand together, directly behind
the position `lower_bound` finds (`prefix_of_between`).
-/

set_option autoImplicit false

namespace OrcDb
namespace Proof

open Lib

/-! ## The map after a write -/

variable {s : KVStore} {now : Int} {key k : String}

/-- The entry `Put` leaves under its key. -/
def entryAfterPut (s : KVStore) (now : Int) (key value : String) (raftIndex : Nat)
    (ttlMs : Option Int) : KVEntry where
  value := value
  raftIndex := raftIndex
  updatedAt := now
  version := s.data[key]?.elim 1 fun e => e.version + 1
  createdAt := s.data[key]?.elim now KVEntry.createdAt
  expiresAt := ttlMs.map fun ms => wrapInt64 (now + ms * 1000000)

theorem put_eq (s : KVStore) (now : Int) (key value : String) (raftIndex : Nat)
    (ttlMs : Option Int) : s.put now key value raftIndex ttlMs =
      { data := s.data.insert key (entryAfterPut s now key value raftIndex ttlMs) } := by
  unfold KVStore.put entryAfterPut
  cases s.data[key]? with
  | none => rfl
  | some e => rfl

theorem getElem?_put (s : KVStore) (now : Int) (key value : String) (raftIndex : Nat)
    (ttlMs : Option Int) (k : String) : (s.put now key value raftIndex ttlMs).data[k]? =
      if key = k then some (entryAfterPut s now key value raftIndex ttlMs) else s.data[k]? := by
  rw [put_eq]
  simp only [Std.ExtTreeMap.getElem?_insert, compare_eq_iff_eq]

theorem getElem?_delete (s : KVStore) (key k : String) :
    (s.delete key).1.data[k]? = if key = k then none else s.data[k]? := by
  simp only [KVStore.delete, Std.ExtTreeMap.getElem?_erase, compare_eq_iff_eq]

/-! ## What there is to see -/

/-- What a read shows of an entry. -/
structure View where
  value : String
  version : Nat
  raftIndex : Nat
deriving DecidableEq

def viewOf (e : KVEntry) : View :=
  { value := e.value, version := e.version, raftIndex := e.raftIndex }

/-- What there is to see at `now`. -/
def visible (s : KVStore) (now : Int) : Std.ExtTreeMap String View :=
  s.data.filterMap fun _ e => if e.expired now then none else some (viewOf e)

theorem getElem?_visible (s : KVStore) (now : Int) (k : String) :
    (visible s now)[k]? =
      s.data[k]?.bind fun e => if e.expired now then none else some (viewOf e) :=
  Std.ExtTreeMap.getElem?_filterMap'

theorem get_view (s : KVStore) (now : Int) (key : String) :
    (s.get now key).map viewOf = (visible s now)[key]? := by
  rw [getElem?_visible, KVStore.get]
  cases s.data[key]? with
  | none => rfl
  | some e =>
    dsimp only [Option.bind_some]
    split
    · rfl
    · rfl

/-! ## Scan -/

theorem keyRun_startsWith (pattern : String) : KeyRun pattern (startsWith pattern) where
  above := by
    intro k hk hlt
    exact (keyRun_isPrefixOf pattern.toList).above k.toList hk (String.lt_iff_toList_lt.mp hlt)
  closed := by
    intro k k' hlow hout hlt
    rw [String.lt_iff_toList_lt] at hlow hlt
    exact (keyRun_isPrefixOf pattern.toList).closed k.toList k'.toList hlow hout hlt

/-- A limit of 0 is answered like a limit of 1. -/
def limited {α : Type} (limit : Option Nat) (results : List α) : List α :=
  match limit with
  | none => results
  | some n => results.take (max n 1)

theorem map_limited {α β : Type} (f : α → β) (limit : Option Nat) (results : List α) :
    (limited limit results).map f = limited limit (results.map f) := by
  cases limit with
  | none => rfl
  | some n => exact List.map_take

theorem mem_of_mem_limited {α : Type} {limit : Option Nat} {results : List α} {x : α}
    (h : x ∈ limited limit results) : x ∈ results := by
  cases limit with
  | none => exact h
  | some n => exact List.mem_of_mem_take h

theorem limited_of_room {α : Type} {limit : Option Nat} {results : List α}
    (h : ∀ n ∈ limit, results.length < max n 1) : limited limit results = results := by
  cases limit with
  | none => rfl
  | some n => exact List.take_of_length_le (Nat.le_of_lt (h n rfl))

section Loop

variable {κ ε : Type} [LT κ] {low : κ} {under : κ → Bool} {expired : ε → Bool} {limit : Option Nat}

/-- The loop keeps what is under the prefix and not expired; the `break` loses nothing, since the
    keys under the prefix stand together. -/
theorem scanLoop_eq (hrun : KeyRun low under) {l : List (κ × ε)}
    (hsorted : l.Pairwise fun a b => a.1 < b.1) (hlow : ∀ p ∈ l, ¬p.1 < low)
    {results : List (κ × ε)} (hroom : ∀ n ∈ limit, results.length < max n 1) :
    scanLoop under expired limit results l =
      limited limit (results ++ l.filter fun p => under p.1 && !expired p.2) := by
  induction l generalizing results with
  | nil =>
    rw [scanLoop, List.filter_nil, List.append_nil, limited_of_room hroom]
  | cons p l ih =>
    obtain ⟨k, e⟩ := p
    have hsorted' := (List.pairwise_cons.mp hsorted).2
    have hlow' : ∀ p ∈ l, ¬p.1 < low := fun p hp => hlow p (List.mem_cons_of_mem _ hp)
    rw [scanLoop]
    cases hstart : under k with
    | false =>
      have hnone :=
        hrun.filter_stop hsorted (hlow _ List.mem_cons_self) hstart (fun e => !expired e)
      rw [if_pos rfl, hnone, List.append_nil, limited_of_room hroom]
    | true =>
      rw [if_neg (by simp)]
      split
      · rename_i hexp
        rw [ih hsorted' hlow' hroom, List.filter_cons_of_neg (by simp [hexp])]
      · rename_i hexp
        rw [List.filter_cons_of_pos (by simp [hstart, hexp])]
        dsimp only
        split
        · rename_i hlimit
          obtain ⟨n, rfl, hn⟩ := (Option.any_eq_true _ _).mp hlimit
          have hfull : (results ++ [(k, e)]).length = max n 1 := by
            have := hroom n rfl
            simp only [List.length_append, List.length_singleton, decide_eq_true_eq] at hn ⊢
            omega
          rw [← List.singleton_append (l := l.filter _), ← List.append_assoc]
          exact (List.take_left' hfull).symm
        · rename_i hlimit
          rw [ih hsorted' hlow' ?_, List.append_assoc, List.singleton_append]
          rintro n rfl
          simp only [Option.any_some, decide_eq_true_eq, not_le] at hlimit
          omega

/-- And so does the whole scan, from `lower_bound` on. -/
theorem scanLoop_lowerBound [DecidableLT κ]
    [Trans (fun a b : κ => a < b) (fun a b : κ => a < b) (fun a b : κ => a < b)]
    (hrun : KeyRun low under) {l : List (κ × ε)} (hsorted : l.Pairwise fun a b => a.1 < b.1) :
    scanLoop under expired limit [] (l.dropWhile fun p => p.1 < low) =
      limited limit (l.filter fun p => under p.1 && !expired p.2) := by
  rw [scanLoop_eq hrun (hsorted.sublist (List.dropWhile_sublist _))
    (not_lt_of_mem_dropWhile hsorted) (by simp), List.nil_append,
    hrun.filter_dropWhile (fun e => !expired e)]

end Loop

/-- The entries `Scan` is after. -/
def Wanted (now : Int) (pattern : String) (p : String × KVEntry) : Bool :=
  startsWith pattern p.1 && !p.2.expired now

theorem toList_sorted (s : KVStore) : s.data.toList.Pairwise fun a b => a.1 < b.1 :=
  Std.ExtTreeMap.ordered_keys_toList.imp fun h => compare_lt_iff_lt.mp h

/-- **What `Scan` returns**: the unexpired entries under the prefix, in key order, up to the
    limit. -/
theorem scan_eq (s : KVStore) (now : Int) (pattern : String) (limit : Option Nat) :
    s.scan now pattern limit =
      limited limit (s.data.toList.filter (Wanted now pattern)) :=
  scanLoop_lowerBound (keyRun_startsWith pattern) (toList_sorted s)

theorem scan_view (s : KVStore) (now : Int) (pattern : String) (limit : Option Nat) :
    (s.scan now pattern limit).map (fun p => (p.1, viewOf p.2)) =
      limited limit ((visible s now).toList.filter fun p => startsWith pattern p.1) := by
  rw [scan_eq, map_limited, visible, Std.ExtTreeMap.toList_filterMap]
  congr 1
  induction s.data.toList with
  | nil => rfl
  | cons p l ih =>
    cases hexp : p.2.expired now with
    | true =>
      rw [List.filter_cons_of_neg (by simp [Wanted, hexp]), ih,
        List.filterMap_cons_none (by simp [hexp])]
    | false =>
      rw [List.filterMap_cons_some (b := (p.1, viewOf p.2)) (by simp [hexp])]
      cases hstart : startsWith pattern p.1 with
      | true =>
        rw [List.filter_cons_of_pos (by simp [Wanted, hexp, hstart]),
          List.filter_cons_of_pos (by simpa using hstart), List.map_cons, ih]
      | false =>
        rw [List.filter_cons_of_neg (by simp [Wanted, hstart]),
          List.filter_cons_of_neg (by simp [hstart]), ih]

end Proof
end OrcDb
