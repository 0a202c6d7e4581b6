import OrcDb.Storage.Watch
import OrcDb.Proof.Storage.Purge

/-!
# Watchers are told of the changes

What a call changes is the difference of the maps before and after it (`Lib/MapDiff.lean`),
whatever the call is. `mutate_due` says of each writing call that the notifications it makes
are that difference. What a watcher is owed is then read off the maps alone (`owed`): the
part under its pattern of every difference between its `Watch` and its `Unwatch`; and
`watchers_told` says that it is what its callback is called with.
-/

set_option autoImplicit false

namespace OrcDb
namespace Proof

open Lib

/-! ## What a call notifies of -/

variable {s : KVStore} {now : Int}

theorem entryAfterPut_ne (s : KVStore) (now : Int) (key value : String) (raftIndex : Nat)
    (ttlMs : Option Int) :
    s.data[key]? ≠ some (entryAfterPut s now key value raftIndex ttlMs) := by
  intro h
  have hversion : (entryAfterPut s now key value raftIndex ttlMs).version =
      s.data[key]?.elim 1 fun e => e.version + 1 := rfl
  rw [h, Option.elim_some] at hversion
  omega

/-- `CAS` finds the value and counts the version on, or leaves the store alone. -/
theorem cas_cases (s : KVStore) (now : Int) (key expectedValue newValue : String)
    (raftIndex : Nat) :
    s.cas now key expectedValue newValue raftIndex = (s, false) ∨
    ∃ e, s.data[key]? = some e ∧ s.cas now key expectedValue newValue raftIndex =
      ({ data := s.data.insert key
          { e with value := newValue, version := e.version + 1, updatedAt := now
                   raftIndex := raftIndex } }, true) := by
  unfold KVStore.cas
  cases hs : s.data[key]? with
  | none => exact Or.inl rfl
  | some e =>
    by_cases hval : e.value = expectedValue
    · exact Or.inr ⟨e, rfl, by simp [hval]⟩
    · exact Or.inl (by simp [hval])

/-- `Put` and `CAS` write an entry with another version. -/
theorem diff_insert {m : Std.ExtTreeMap String KVEntry} {key : String} {e : KVEntry}
    (hne : m[key]? ≠ some e) : diff m (m.insert key e) = [⟨key, some e⟩] := by
  have hat : (m.insert key e)[key]? = some e := by simp
  rw [diff_single (k := key), hat]
  · rw [hat]
    exact hne
  · intro k hk
    rw [Std.ExtTreeMap.getElem?_insert, if_neg]
    rw [compare_eq_iff_eq]
    exact fun h => hk h.symm

theorem diff_erase {m : Std.ExtTreeMap String KVEntry} {key : String}
    (hsome : m[key]? ≠ none) : diff m (m.erase key) = [⟨key, none⟩] := by
  have hat : (m.erase key)[key]? = none := by simp
  rw [diff_single (k := key), hat]
  · rw [hat]
    exact hsome
  · intro k hk
    rw [Std.ExtTreeMap.getElem?_erase, if_neg]
    rw [compare_eq_iff_eq]
    exact fun h => hk h.symm

theorem diff_purgeExpired (s : KVStore) (now : Int) :
    diff s.data (s.purgeExpired now).1.data =
      (s.purgeExpired now).2.map fun key => ⟨key, none⟩ := by
  symm
  apply eq_diff
  · rw [purgeExpired_keys, List.map_map, List.pairwise_map]
    exact Std.ExtTreeMap.ordered_keys_toList.filter _
  · intro c
    rw [List.mem_map, getElem?_purgeExpired]
    constructor
    · rintro ⟨k, hk, rfl⟩
      obtain ⟨e, he, -⟩ := mem_purgeExpired_keys.mp hk
      simp [hk, he]
    · rintro ⟨hne, hv⟩
      by_cases hk : c.key ∈ (s.purgeExpired now).2
      · rw [if_pos hk] at hv
        exact ⟨c.key, hk, by rw [← hv]⟩
      · rw [if_neg hk] at hne
        exact absurd rfl hne

theorem delete_absent {key : String} (h : s.data[key]? = none) : s.delete key = (s, false) := by
  have hsame : s.data.erase key = s.data := by
    apply Std.ExtTreeMap.ext_getElem?
    intro k
    rw [Std.ExtTreeMap.getElem?_erase]
    split
    · rename_i hk
      rw [← compare_eq_iff_eq.mp hk, h]
    · rfl
  rw [KVStore.delete, hsame, h, Option.isSome_none]

/-- **A call notifies of what it changed**, in key order. -/
theorem mutate_due (s : KVStore) (now : Int) (m : Mutation) :
    (s.mutate now m).2 = diff s.data (s.mutate now m).1.data := by
  cases m with
  | put key value raftIndex ttlMs =>
    simp only [KVStore.mutate, getElem?_put]
    rw [put_eq, diff_insert (entryAfterPut_ne s now key value raftIndex ttlMs)]
    rfl
  | delete key raftIndex =>
    cases hs : s.data[key]? with
    | none => simp [KVStore.mutate, delete_absent hs]
    | some e =>
      simp only [KVStore.mutate, KVStore.delete, hs, Option.isSome_some]
      rw [diff_erase (by simp [hs])]
  | cas key expectedValue newValue raftIndex =>
    rcases cas_cases s now key expectedValue newValue raftIndex with h | ⟨e, he, h⟩
    · simp [KVStore.mutate, h]
    · simp only [KVStore.mutate, h]
      rw [diff_insert]
      · simp
      · rw [he]
        intro heq
        have hversion := congrArg (Option.map KVEntry.version) heq
        simp at hversion
  | purgeExpired => exact (diff_purgeExpired s now).symm

/-! ## Who is told -/

/-- A watcher is called at most once for a notification. -/
theorem called_filter (watches : Watches) (key : String) (id : Nat) :
    (watches.called key).filter (· == id) =
      if (watches.lookup id).any (·.matches key) then [id] else [] := by
  have hnodup : (watches.called key).Nodup :=
    watches.keys_nodup.sublist (List.filter_sublist.map Sigma.fst)
  have hmem : id ∈ watches.called key ↔ (watches.lookup id).any (·.matches key) = true := by
    simp only [Watches.called, List.mem_map, List.mem_filter, Option.any_eq_true]
    constructor
    · rintro ⟨⟨i, w⟩, ⟨hw, hmatch⟩, rfl⟩
      exact ⟨w, AList.mem_lookup_iff.mpr hw, hmatch⟩
    · rintro ⟨w, hw, hmatch⟩
      exact ⟨⟨id, w⟩, ⟨AList.mem_lookup_iff.mp hw, hmatch⟩, rfl⟩
  rw [List.filter_beq]
  split
  · rename_i h
    rw [List.count_eq_one_of_mem hnodup (hmem.mpr h), List.replicate_one]
  · rename_i h
    rw [List.count_eq_zero_of_not_mem (fun hin => h (hmem.mp hin)), List.replicate_zero]

/-- What one watcher gets of a round of `NotifyWatchers`. -/
theorem received_called {α : Type} (watches : Watches) (key : String) (x : α) (id : Nat) :
    (((watches.called key).map fun i => (i, x)).filter fun c => c.1 == id).map Prod.snd =
      if (watches.lookup id).any (·.matches key) then [x] else [] := by
  rw [List.filter_map, List.map_map]
  have hcomp : ((fun c : Nat × α => c.1 == id) ∘ fun i => (i, x)) = (· == id) := rfl
  rw [hcomp, called_filter]
  split
  · rfl
  · rfl

namespace WatchedStore

open OrcDb.WatchedStore

variable (s : WatchedStore)

theorem received_notifyWatchers (n : Notification) (id : Nat) :
    (s.notifyWatchers n).received id = s.received id ++
      if (s.watches.lookup id).any (·.matches n.key) then [n] else [] := by
  simp only [received, notifyWatchers, List.filter_append, List.map_append, received_called]

theorem notifyAll (due : List Notification) (id : Nat) :
    (due.foldl notifyWatchers s).store = s.store ∧
    (due.foldl notifyWatchers s).watches = s.watches ∧
    (due.foldl notifyWatchers s).nextWatchId = s.nextWatchId ∧
    (due.foldl notifyWatchers s).received id = s.received id ++
      due.filter fun n => (s.watches.lookup id).any (·.matches n.key) := by
  induction due generalizing s with
  | nil => simp
  | cons n due ih =>
    obtain ⟨hstore, hwatches, hnext, hreceived⟩ := ih (s.notifyWatchers n)
    refine ⟨hstore, hwatches, hnext, ?_⟩
    rw [List.foldl_cons, hreceived, received_notifyWatchers, List.append_assoc, List.filter_cons]
    congr 1
    split
    · rfl
    · rfl

end WatchedStore

/-! ## What a watcher is owed -/

/-- What `id` watches after a call, if it watched `w` before. -/
def watching (id : Nat) (w : Option Watcher) (s : WatchedStore) : WatchCall → Option Watcher
  | .watch keyOrPrefix isPrefix =>
      if (s.watch keyOrPrefix isPrefix).2 = id then some { keyOrPrefix, isPrefix } else w
  | .unwatch watchId => if watchId = id then none else w
  | .mutate _ => w

/-- The changes a sequence of calls makes under what `id` watches, which is `w` at first. -/
def owed (id : Nat) : Option Watcher → WatchedStore → List (Int × WatchCall) → List Notification
  | _, _, [] => []
  | w, s, (now, c) :: calls =>
      (diff s.store.data (s.call now c).store.data).filter (fun n => w.any (·.matches n.key)) ++
        owed id (watching id w s c) (s.call now c) calls

theorem watching_watch (id : Nat) (w : Option Watcher) (s : WatchedStore) (keyOrPrefix : String)
    (isPrefix : Bool) : watching id w s (.watch keyOrPrefix isPrefix) =
      if s.nextWatchId = id then some { keyOrPrefix, isPrefix } else w := rfl

theorem lookup_call (s : WatchedStore) (now : Int) (c : WatchCall) (id : Nat) :
    (s.call now c).watches.lookup id = watching id (s.watches.lookup id) s c := by
  cases c with
  | mutate m =>
    simp only [WatchedStore.call]
    rw [(WatchedStore.notifyAll _ _ id).2.1]
    rfl
  | watch keyOrPrefix isPrefix =>
    rw [watching_watch]
    simp only [WatchedStore.call, WatchedStore.watch]
    split
    · rename_i h
      rw [← h, AList.lookup_insert]
    · rename_i h
      rw [AList.lookup_insert_ne (fun he => h he.symm)]
  | unwatch watchId =>
    simp only [WatchedStore.call, WatchedStore.unwatch, watching]
    split
    · rename_i h
      rw [← h, AList.lookup_erase]
    · rename_i h
      rw [AList.lookup_erase_ne (fun he => h he.symm)]

theorem received_call (s : WatchedStore) (now : Int) (c : WatchCall) (id : Nat) :
    (s.call now c).received id = s.received id ++
      (diff s.store.data (s.call now c).store.data).filter fun n =>
        (s.watches.lookup id).any (·.matches n.key) := by
  cases c with
  | mutate m =>
    obtain ⟨hstore, -, -, hreceived⟩ :=
      WatchedStore.notifyAll { s with store := (s.store.mutate now m).1 }
        (s.store.mutate now m).2 id
    simp only [WatchedStore.call]
    rw [hstore, hreceived, mutate_due]
    rfl
  | watch keyOrPrefix isPrefix =>
    simp [WatchedStore.call, WatchedStore.watch, WatchedStore.received]
  | unwatch watchId =>
    simp [WatchedStore.call, WatchedStore.unwatch, WatchedStore.received]

theorem received_run (s : WatchedStore) (calls : List (Int × WatchCall)) (id : Nat) :
    (s.run calls).received id =
      s.received id ++ owed id (s.watches.lookup id) s calls := by
  induction calls generalizing s with
  | nil => simp [WatchedStore.run, owed]
  | cons c calls ih =>
    obtain ⟨now, c⟩ := c
    have hrun : s.run ((now, c) :: calls) = (s.call now c).run calls := rfl
    rw [hrun, ih, received_call, lookup_call, List.append_assoc]
    rfl

/-! ## A copy of the map -/

/-- Ids are given out in order, and nobody else is called. -/
structure Issued (s : WatchedStore) : Prop where
  watches : ∀ id, s.nextWatchId ≤ id → s.watches.lookup id = none
  received : ∀ id, s.nextWatchId ≤ id → s.received id = []

theorem nextWatchId_le_call (s : WatchedStore) (now : Int) (c : WatchCall) :
    s.nextWatchId ≤ (s.call now c).nextWatchId := by
  cases c with
  | mutate m =>
    simp only [WatchedStore.call]
    rw [(WatchedStore.notifyAll _ _ 0).2.2.1]
  | watch keyOrPrefix isPrefix => exact Nat.le_succ _
  | unwatch watchId => exact Nat.le_refl _

theorem Issued.call {s : WatchedStore} (h : Issued s) (now : Int) (c : WatchCall) :
    Issued (s.call now c) where
  watches := by
    intro id hid
    have hle := nextWatchId_le_call s now c
    rw [lookup_call, h.watches id (by omega)]
    cases c with
    | mutate m => rfl
    | watch keyOrPrefix isPrefix =>
      simp only [WatchedStore.call, WatchedStore.watch] at hid
      rw [watching_watch, if_neg (by omega)]
    | unwatch watchId => simp [watching]
  received := by
    intro id hid
    have hle := nextWatchId_le_call s now c
    rw [received_call, h.watches id (by omega), h.received id (by omega)]
    simp

theorem Issued.run {s : WatchedStore} (h : Issued s) (calls : List (Int × WatchCall)) :
    Issued (s.run calls) := by
  induction calls generalizing s with
  | nil => exact h
  | cons c calls ih => exact ih (h.call c.1 c.2)

def everything : Watcher := { keyOrPrefix := "", isPrefix := true }

theorem everything_matches (key : String) : everything.matches key = true := by
  simp [Watcher.matches, everything, startsWith]

/-- What a watcher of everything is owed takes the map along. -/
theorem patch_owed {s : WatchedStore} {id : Nat} (hid : id < s.nextWatchId)
    {calls : List (Int × WatchCall)} (hcalls : ∀ c ∈ calls, c.2 ≠ .unwatch id) :
    patch s.store.data (owed id (some everything) s calls) = (s.run calls).store.data := by
  induction calls generalizing s with
  | nil => rfl
  | cons c calls ih =>
    obtain ⟨now, c⟩ := c
    rw [List.forall_mem_cons] at hcalls
    have hstill : watching id (some everything) s c = some everything := by
      cases c with
      | mutate m => rfl
      | watch keyOrPrefix isPrefix => rw [watching_watch, if_neg (by omega)]
      | unwatch watchId =>
        simp only [watching]
        rw [if_neg (fun h => hcalls.1 (by rw [h]))]
    have hall : ∀ cs : List Notification,
        cs.filter (fun n => (some everything).any (·.matches n.key)) = cs := by
      intro cs
      simp [everything_matches]
    rw [owed, hall, hstill, patch_append, patch_diff,
      ih (Nat.lt_of_lt_of_le hid (nextWatchId_le_call s now c)) hcalls.2]
    rfl

/-! ## The result -/

theorem call_delete_failed {s : WatchedStore} {key : String} (h : (s.store.delete key).2 = false)
    (now : Int) (raftIndex : Nat) : s.call now (.mutate (.delete key raftIndex)) = s := by
  have hnone : s.store.data[key]? = none :=
    Option.not_isSome_iff_eq_none.mp (Bool.eq_false_iff.mp h)
  simp [WatchedStore.call, KVStore.mutate, delete_absent hnone]

theorem call_cas_failed {s : WatchedStore} {now : Int} {key expectedValue newValue : String}
    {raftIndex : Nat} (h : (s.store.cas now key expectedValue newValue raftIndex).2 = false) :
    s.call now (.mutate (.cas key expectedValue newValue raftIndex)) = s := by
  rcases cas_cases s.store now key expectedValue newValue raftIndex with hcas | ⟨e, -, hcas⟩
  · simp [WatchedStore.call, KVStore.mutate, hcas]
  · rw [hcas] at h
    exact absurd h (by simp)

theorem issued_init (store : KVStore) : Issued { store } where
  watches := fun _ _ => AList.lookup_empty _
  received := fun _ _ => rfl

/-- **Watchers are told exactly the changes.** Whatever is called one after the other on a store
    without watchers, every watch id receives the changes it is owed; a watch on the empty
    prefix of an empty store, as long as it stands, receives what rebuilds the map; and a
    `Delete` or `CAS` that returns `false` changes nothing and calls nobody. -/
theorem watchers_told (store : KVStore) (calls : List (Int × WatchCall)) (id : Nat) :
    (({ store } : WatchedStore).run calls).received id = owed id none { store } calls ∧
    (∀ before now during, calls = before ++ (now, .watch "" true) :: during →
      (({ store } : WatchedStore).run before).store.data = ∅ →
      ((({ store } : WatchedStore).run before).watch "" true).2 = id →
      (∀ c ∈ during, c.2 ≠ .unwatch id) →
        patch ∅ ((({ store } : WatchedStore).run calls).received id) =
          (({ store } : WatchedStore).run calls).store.data) ∧
    (∀ (s : WatchedStore) (now : Int) key raftIndex, (s.store.delete key).2 = false →
      s.call now (.mutate (.delete key raftIndex)) = s) ∧
    (∀ (s : WatchedStore) (now : Int) key expectedValue newValue raftIndex,
      (s.store.cas now key expectedValue newValue raftIndex).2 = false →
        s.call now (.mutate (.cas key expectedValue newValue raftIndex)) = s) := by
  refine ⟨received_run { store } calls id, ?_, ?_, ?_⟩
  · rintro before now during rfl hempty rfl hstands
    have hissued := (issued_init store).run before
    generalize hs : ({ store } : WatchedStore).run before = s at hempty hissued hstands ⊢
    have hrun : ({ store } : WatchedStore).run (before ++ (now, .watch "" true) :: during) =
        (s.watch "" true).1.run during := by
      rw [← hs]
      simp [WatchedStore.run, WatchedStore.call]
    have hreceived : (s.watch "" true).1.received s.nextWatchId = [] :=
      hissued.received _ (Nat.le_refl _)
    have hwatches : (s.watch "" true).1.watches.lookup s.nextWatchId = some everything :=
      AList.lookup_insert _
    have hpatch := patch_owed (s := (s.watch "" true).1) (Nat.lt_succ_self s.nextWatchId) hstands
    rw [hrun, received_run]
    simp only [WatchedStore.watch] at hreceived hwatches hpatch ⊢
    rw [hreceived, hwatches, List.nil_append, ← hempty]
    exact hpatch
  · intro s now key raftIndex h
    exact call_delete_failed h now raftIndex
  · intro s now key expectedValue newValue raftIndex h
    exact call_cas_failed h

/-- Two keys are written, one is swapped and the other purged; another watcher comes and goes. -/
def mixedCalls : List (Int × WatchCall) :=
  [(1, .watch "" true), (2, .mutate (.put "a" "1" 1 none)), (3, .watch "b" false),
   (4, .mutate (.put "b" "2" 2 (some 1))), (5, .unwatch 2), (6, .mutate (.cas "a" "1" "3" 0)),
   (7, .mutate (.cas "a" "1" "4" 0)), (8, .mutate (.delete "c" 3)),
   (2000000, .mutate .purgeExpired)]

theorem watchers_told_copy :
    patch ∅ ((({} : WatchedStore).run mixedCalls).received 1) =
        (({} : WatchedStore).run mixedCalls).store.data ∧
      ((({} : WatchedStore).run mixedCalls).received 1).map Change.key = ["a", "b", "a", "b"] ∧
      ((({} : WatchedStore).run mixedCalls).received 2).map Change.key = ["b"] :=
  ⟨(watchers_told {} mixedCalls 1).2.1 [] 1 _ rfl rfl rfl (by decide), by decide +kernel⟩

end Proof
end OrcDb
