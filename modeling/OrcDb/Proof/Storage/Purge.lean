import OrcDb.Proof.Storage.Snapshot

/-!
# When `PurgeExpired` goes unnoticed

`PurgeExpired` takes the expired entries out of the map. `Get` and `Scan` passed over them
before, but `Delete`, `CAS` and `Put` look at what the map holds: on an expired key `Delete`
answers `true`, `CAS` compares with the old value, `Put` counts the old version on. A store
is therefore told from its purged self exactly if it holds an expired entry
(`purge_unnoticed_iff`), and the one call that tells is `Delete`.

The difference stays where it is, though: calls that write to other keys never meet it
(`Ghosts.returns`).
-/

set_option autoImplicit false

namespace OrcDb
namespace Proof

open Lib

/-! ## What `PurgeExpired` leaves -/

variable {s s' : KVStore} {t now : Int}

theorem purgeLoop_eq (now : Int) (l : List (String × KVEntry))
    (data : Std.ExtTreeMap String KVEntry) (expiredKeys : List String) :
    KVStore.purgeLoop now l data expiredKeys =
      (((l.filter fun p => p.2.expired now).map Prod.fst).foldl (fun data k => data.erase k) data,
        expiredKeys ++ (l.filter fun p => p.2.expired now).map Prod.fst) := by
  induction l generalizing data expiredKeys with
  | nil => simp [KVStore.purgeLoop]
  | cons p l ih =>
    obtain ⟨k, e⟩ := p
    rw [KVStore.purgeLoop]
    cases hexp : e.expired now with
    | true => simp [ih, hexp]
    | false => simp [ih, hexp]

theorem purgeExpired_keys (s : KVStore) (now : Int) : (s.purgeExpired now).2 =
    (s.data.toList.filter fun p => p.2.expired now).map Prod.fst := by
  simp [KVStore.purgeExpired, purgeLoop_eq]

theorem mem_purgeExpired_keys {k : String} :
    k ∈ (s.purgeExpired now).2 ↔ ∃ e, s.data[k]? = some e ∧ e.expired now = true := by
  simp only [purgeExpired_keys, List.mem_map, List.mem_filter, Prod.exists,
    Std.ExtTreeMap.mem_toList_iff_getElem?_eq_some]
  constructor
  · rintro ⟨k', e, ⟨hk, hexp⟩, rfl⟩
    exact ⟨e, hk, hexp⟩
  · rintro ⟨e, hk, hexp⟩
    exact ⟨k, e, ⟨hk, hexp⟩, rfl⟩

theorem getElem?_foldl_erase (m : Std.ExtTreeMap String KVEntry) (ks : List String) (k : String) :
    (ks.foldl (fun m k => m.erase k) m)[k]? = if k ∈ ks then none else m[k]? := by
  induction ks generalizing m with
  | nil => simp
  | cons a ks ih =>
    rw [List.foldl_cons, ih, Std.ExtTreeMap.getElem?_erase]
    simp only [compare_eq_iff_eq, List.mem_cons, eq_comm (a := a)]
    by_cases hks : k ∈ ks
    · simp [hks]
    · simp [hks]

theorem getElem?_purgeExpired (s : KVStore) (now : Int) (k : String) :
    (s.purgeExpired now).1.data[k]? =
      if k ∈ (s.purgeExpired now).2 then none else s.data[k]? := by
  rw [purgeExpired_keys]
  simp only [KVStore.purgeExpired, purgeLoop_eq]
  exact getElem?_foldl_erase _ _ k

/-! ## Calls and what they return -/

inductive StoreCall where
  | get (key : String)
  | put (key value : String) (raftIndex : Nat) (ttlMs : Option Int)
  | delete (key : String) (raftIndex : Nat)
  | cas (key expectedValue newValue : String) (raftIndex : Nat)
  | scan (pattern : String) (limit : Option Nat)
deriving DecidableEq

/-- The key a call may write to. -/
def StoreCall.target : StoreCall → Option String
  | .put key _ _ _ => some key
  | .delete key _ => some key
  | .cas key _ _ _ => some key
  | _ => none

inductive Reply where
  | entry (e : Option View)
  | done (ok : Bool)
  | entries (es : List (String × View))
deriving DecidableEq

/-- One call: the store after it and what it returned. -/
def reply (s : KVStore) (now : Int) : StoreCall → KVStore × Reply
  | .get key => (s, .entry ((s.get now key).map viewOf))
  | .put key value raftIndex ttlMs => (s.put now key value raftIndex ttlMs, .done true)
  | .delete key _ => ((s.delete key).1, .done (s.delete key).2)
  | .cas key expectedValue newValue raftIndex =>
      ((s.cas now key expectedValue newValue raftIndex).1,
        .done (s.cas now key expectedValue newValue raftIndex).2)
  | .scan pattern limit =>
      (s, .entries ((s.scan now pattern limit).map fun p => (p.1, viewOf p.2)))

def returns : KVStore → List (Int × StoreCall) → List Reply
  | _, [] => []
  | s, (now, c) :: calls => (reply s now c).2 :: returns (reply s now c).1 calls

/-- The calls come at non-decreasing times, none before `t`. -/
def Later (t : Int) (calls : List (Int × StoreCall)) : Prop :=
  (t :: calls.map Prod.fst).Pairwise (· ≤ ·)

theorem Later.le {calls : List (Int × StoreCall)} (h : Later t calls) :
    ∀ c ∈ calls, t ≤ c.1 := by
  intro c hc
  exact (List.pairwise_cons.mp h).1 c.1 (List.mem_map_of_mem hc)

/-! ## Side by side -/

/-- `s'` lacks the keys of `G`, which `s` holds expired; otherwise the two are the same. -/
structure Ghosts (t : Int) (G : String → Prop) (s s' : KVStore) : Prop where
  ghost : ∀ k, G k → s'.data[k]? = none ∧ ∃ e, s.data[k]? = some e ∧ e.expired t = true
  same : ∀ k, ¬G k → s'.data[k]? = s.data[k]?

namespace Ghosts

variable {G : String → Prop} (h : Ghosts t G s s')
include h

theorem visible (hle : t ≤ now) : Proof.visible s' now = Proof.visible s now := by
  apply Std.ExtTreeMap.ext_getElem?
  intro k
  rw [getElem?_visible, getElem?_visible]
  by_cases hk : G k
  · obtain ⟨hnone, e, he, hexp⟩ := h.ghost k hk
    simp [hnone, he, expired_mono hexp hle]
  · rw [h.same k hk]

/-- The same thing written under a key that is the same on both sides. -/
theorem write {key : String} (hkey : ¬G key) {r r' : KVStore}
    (hr : ∀ k, r.data[k]? = if key = k then r.data[key]? else s.data[k]?)
    (hr' : ∀ k, r'.data[k]? = if key = k then r.data[key]? else s'.data[k]?) : Ghosts t G r r' where
  ghost := by
    intro k hk
    have hne : key ≠ k := fun he => hkey (he ▸ hk)
    rw [hr, hr', if_neg hne, if_neg hne]
    exact h.ghost k hk
  same := by
    intro k hk
    rw [hr, hr']
    by_cases he : key = k
    · rw [if_pos he, if_pos he]
    · rw [if_neg he, if_neg he]
      exact h.same k hk

theorem put {key : String} (hkey : ¬G key) (now : Int) (value : String) (raftIndex : Nat)
    (ttlMs : Option Int) :
    Ghosts t G (s.put now key value raftIndex ttlMs) (s'.put now key value raftIndex ttlMs) := by
  have hentry : entryAfterPut s' now key value raftIndex ttlMs =
      entryAfterPut s now key value raftIndex ttlMs := by
    simp only [entryAfterPut, h.same key hkey]
  apply h.write hkey
  · intro k
    rw [getElem?_put, getElem?_put, if_pos rfl]
  · intro k
    rw [getElem?_put, getElem?_put, if_pos rfl, hentry]

theorem delete {key : String} (hkey : ¬G key) :
    Ghosts t G (s.delete key).1 (s'.delete key).1 := by
  apply h.write hkey
  · intro k
    rw [getElem?_delete, getElem?_delete, if_pos rfl]
  · intro k
    rw [getElem?_delete, getElem?_delete, if_pos rfl]

theorem cas {key : String} (hkey : ¬G key) (now : Int) (expectedValue newValue : String)
    (raftIndex : Nat) :
    Ghosts t G (s.cas now key expectedValue newValue raftIndex).1
      (s'.cas now key expectedValue newValue raftIndex).1 ∧
    (s'.cas now key expectedValue newValue raftIndex).2 =
      (s.cas now key expectedValue newValue raftIndex).2 := by
  unfold KVStore.cas
  rw [h.same key hkey]
  cases hs : s.data[key]? with
  | none => exact ⟨h, rfl⟩
  | some e =>
    by_cases hval : e.value = expectedValue
    · simp only [hval, ne_eq, not_true_eq_false, if_false, and_true]
      apply h.write hkey
      · intro k
        simp only [Std.ExtTreeMap.getElem?_insert, compare_eq_iff_eq, if_true]
      · intro k
        simp only [Std.ExtTreeMap.getElem?_insert, compare_eq_iff_eq, if_true]
    · simp only [ne_eq, hval, not_false_eq_true, if_true, and_true]
      exact h

/-- One call that writes to none of the keys. -/
theorem reply {c : StoreCall} (hle : t ≤ now) (hc : ∀ k ∈ c.target, ¬G k) :
    Ghosts t G (Proof.reply s now c).1 (Proof.reply s' now c).1 ∧
      (Proof.reply s' now c).2 = (Proof.reply s now c).2 := by
  cases c with
  | get key =>
    refine ⟨h, ?_⟩
    simp only [Proof.reply]
    rw [get_view, get_view, h.visible hle]
  | put key value raftIndex ttlMs => exact ⟨h.put (hc key rfl) now value raftIndex ttlMs, rfl⟩
  | delete key raftIndex =>
    refine ⟨h.delete (hc key rfl), ?_⟩
    simp only [Proof.reply, KVStore.delete, h.same key (hc key rfl)]
  | cas key expectedValue newValue raftIndex =>
    obtain ⟨hghosts, hok⟩ := h.cas (hc key rfl) now expectedValue newValue raftIndex
    exact ⟨hghosts, congrArg Reply.done hok⟩
  | scan pattern limit =>
    refine ⟨h, ?_⟩
    simp only [Proof.reply]
    rw [scan_view, scan_view, h.visible hle]

/-- **Calls that write to none of the keys never tell the two apart.** -/
theorem returns {calls : List (Int × StoreCall)} (hle : ∀ c ∈ calls, t ≤ c.1)
    (hc : ∀ c ∈ calls, ∀ k ∈ c.2.target, ¬G k) :
    Proof.returns s' calls = Proof.returns s calls := by
  induction calls generalizing s s' with
  | nil => rfl
  | cons c calls ih =>
    obtain ⟨now, c⟩ := c
    rw [List.forall_mem_cons] at hle hc
    obtain ⟨hnext, hsame⟩ := h.reply hle.1 hc.1
    rw [Proof.returns, Proof.returns, hsame, ih hnext hle.2 hc.2]

end Ghosts

theorem ghosts_purgeExpired (s : KVStore) (t : Int) :
    Ghosts t (· ∈ (s.purgeExpired t).2) s (s.purgeExpired t).1 where
  ghost := by
    intro k hk
    rw [getElem?_purgeExpired, if_pos hk]
    exact ⟨rfl, mem_purgeExpired_keys.mp hk⟩
  same := by
    intro k hk
    rw [getElem?_purgeExpired, if_neg hk]

/-! ## The result -/

/-- **A purge at `t` goes unnoticed by every later sequence of calls exactly if nothing has
    expired at `t`.** In any case it is not noticed by calls that write to other keys than the
    expired ones. -/
theorem purge_unnoticed_iff (s : KVStore) (t : Int) :
    ((∀ calls, Later t calls → returns (s.purgeExpired t).1 calls = returns s calls) ↔
      ∀ (k : String) e, s.data[k]? = some e → e.expired t = false) ∧
    ∀ calls, Later t calls →
      (∀ c ∈ calls, ∀ k ∈ c.2.target, ∀ e, s.data[k]? = some e → e.expired t = false) →
        returns (s.purgeExpired t).1 calls = returns s calls := by
  have hquiet : ∀ calls, Later t calls →
      (∀ c ∈ calls, ∀ k ∈ c.2.target, ∀ e, s.data[k]? = some e → e.expired t = false) →
        returns (s.purgeExpired t).1 calls = returns s calls := by
    intro calls hlater htargets
    refine (ghosts_purgeExpired s t).returns hlater.le ?_
    intro c hc k hk hgone
    obtain ⟨e, he, hexp⟩ := mem_purgeExpired_keys.mp hgone
    exact absurd hexp (by simp [htargets c hc k hk e he])
  refine ⟨⟨?_, ?_⟩, hquiet⟩
  · intro hall k e he
    by_contra hexp
    rw [Bool.not_eq_false] at hexp
    have hgone : k ∈ (s.purgeExpired t).2 := mem_purgeExpired_keys.mpr ⟨e, he, hexp⟩
    -- `Delete` finds the expired entry, and does not find the purged one
    have hdelete := hall [(t, .delete k 0)] (by simp [Later])
    simp [returns, reply, KVStore.delete, getElem?_purgeExpired, hgone, he] at hdelete
  · intro hnone calls hlater
    exact hquiet calls hlater fun _ _ k _ => hnone k

/-- A key that was put at 0 with a time to live of 1 ms. -/
def lapsing : KVStore := ({} : KVStore).put 0 "k" "v" 1 (some 1)

theorem purge_unnoticed_fails :
    Later 2000000 [(2000000, .delete "k" 2)] ∧ Later 2000000 [(2000000, .cas "k" "v" "w" 2)] ∧
    returns lapsing [(2000000, .delete "k" 2)] = [.done true] ∧
      returns (lapsing.purgeExpired 2000000).1 [(2000000, .delete "k" 2)] = [.done false] ∧
    returns lapsing [(2000000, .cas "k" "v" "w" 2)] = [.done true] ∧
      returns (lapsing.purgeExpired 2000000).1 [(2000000, .cas "k" "v" "w" 2)] =
        [.done false] := by
  refine ⟨?_, ?_, ?_⟩
  · simp [Later]
  · simp [Later]
  · decide +kernel

end Proof
end OrcDb
