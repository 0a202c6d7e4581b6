import OrcDb.Proof.Storage.KVStore
import OrcDb.Lib.JsonText

/-!
# A store rebuilt from its snapshot

Two stores run side by side through the same applied entries and reads: the one a snapshot was
taken of at `t`, and the one rebuilt from that snapshot. `Alike t` relates them key by key.
They hold the same entry, or only the first holds one that had expired by `t` — of which
nothing can be seen any more, except that `Put` counts its version on.

Two things are lost on the way. The expired entries are left out, and with them their version
counters. And an expiry is stored in milliseconds with every negative number read as "none",
so an expiry between two milliseconds, or before the epoch, comes back as another instant.
`Faithful t` is what an entry must be like to come back as it was, and it is exact
(`snapshot_transparent`): one entry that is not `Faithful` makes some later read differ.
-/

set_option autoImplicit false

namespace OrcDb
namespace Proof

open Lib

/-! ## Operations and answers -/

/-- What reaches a store after the snapshot. -/
inductive StoreOp where
  | apply (e : LogEntry)
  | get (key : String)
  | scan (pattern : String) (limit : Option Nat)

/-- What a read shows. -/
inductive Answer where
  | got (entry : Option View)
  | scanned (entries : List (String × View))
deriving DecidableEq

/-- The answers to a sequence of operations, each at its own time. -/
def answers : KVStore → List (Int × StoreOp) → List Answer
  | _, [] => []
  | s, (now, .apply e) :: ops => answers (s.applyEntry now e) ops
  | s, (now, .get key) :: ops => .got ((s.get now key).map viewOf) :: answers s ops
  | s, (now, .scan pattern limit) :: ops =>
      .scanned ((s.scan now pattern limit).map fun p => (p.1, viewOf p.2)) :: answers s ops

/-- The clock does not go back, and starts at `t`. -/
def Timed (t : Int) (ops : List (Int × StoreOp)) : Prop :=
  (t :: ops.map Prod.fst).Pairwise (· ≤ ·)

/-- An entry that the snapshot at `t` keeps as it is. A version is at least 1 once `Put` has
    run, and `2 ^ 63` is where `time_point` ends. -/
def Faithful (t : Int) (e : KVEntry) : Prop :=
  ∀ x ∈ e.expiresAt,
    if x < t then e.version = 0 else 0 ≤ x ∧ x < 2 ^ 63 ∧ 1000000 ∣ x

variable {J : Json.Codec} {s s' : KVStore} {t t' now : Int} {k : String} {e : KVEntry}

/-! ## The snapshot, read back -/

/-- The expiry that comes back. -/
def restoredExpiry (e : KVEntry) : Option Int :=
  if KVStore.expiresMs e ≥ 0 then some (wrapInt64 (KVStore.expiresMs e * 1000000)) else none

/-- The entry that comes back at `t'`. -/
def rebuilt (t' : Int) (e : KVEntry) : KVEntry :=
  { e with createdAt := t', updatedAt := t', expiresAt := restoredExpiry e }

/-- What comes back of an entry, if anything. -/
def restoredEntry (t t' : Int) (e : KVEntry) : Option KVEntry :=
  if e.expired t then none else some (rebuilt t' e)

/-- The store that comes back. -/
def restored (s : KVStore) (t t' : Int) : KVStore :=
  { data := s.data.filterMap fun _ e => restoredEntry t t' e }

theorem itemJson_canonical (key : String) (e : KVEntry) :
    (KVStore.itemJson key e).Canonical :=
  .flat (by simp only [List.map_cons, List.map_nil]; decide) rfl

theorem readItem_itemJson (t' : Int) (key : String) (e : KVEntry) :
    KVStore.readItem t' (KVStore.itemJson key e) =
      some (key, rebuilt t' e) := by
  simp [KVStore.readItem, KVStore.itemJson, Json.field?, List.lookup, getString, getUInt64,
    getInt, rebuilt, restoredExpiry]

theorem ofList_toList (m : Std.ExtTreeMap String KVEntry) :
    m.toList.foldl (fun data item => data.insert item.1 item.2) ∅ = m := by
  rw [← Std.ExtTreeMap.insertMany_list_eq_foldl, ← Std.ExtTreeMap.ofList_eq_insertMany_empty]
  apply Std.ExtTreeMap.ext_getElem?
  intro k
  cases hk : m[k]? with
  | some e =>
    exact Std.ExtTreeMap.getElem?_ofList_of_mem Std.ReflCmp.compare_self
      Std.ExtTreeMap.distinct_keys_toList (Std.ExtTreeMap.mem_toList_iff_getElem?_eq_some.mpr hk)
  | none =>
    apply Std.ExtTreeMap.getElem?_ofList_of_contains_eq_false
    rw [← Bool.not_eq_true, List.contains_iff_mem, List.mem_map]
    rintro ⟨⟨k', e⟩, hmem, rfl⟩
    rw [Std.ExtTreeMap.mem_toList_iff_getElem?_eq_some, hk] at hmem
    exact absurd hmem (by simp)

/-- **What `RestoreSnapshot` makes of a snapshot.** -/
theorem restoreSnapshot_takeSnapshot (J : Json.Codec) (s : KVStore) (t t' : Int) :
    KVStore.restoreSnapshot J (s.takeSnapshot J t) t' = some (restored s t t') := by
  have hcanonical : (Json.arr ((s.data.toList.filter fun p => !p.2.expired t).map
      fun p => KVStore.itemJson p.1 p.2)).Canonical :=
    .arr_map fun p _ => itemJson_canonical p.1 p.2
  have hitems : ((s.data.toList.filter fun p => !p.2.expired t).map
      fun p => KVStore.itemJson p.1 p.2).mapM (KVStore.readItem t') =
        some (restored s t t').data.toList := by
    rw [restored, Std.ExtTreeMap.toList_filterMap]
    induction s.data.toList with
    | nil => rfl
    | cons p l ih =>
      cases hexp : p.2.expired t with
      | true =>
        rw [List.filter_cons_of_neg (by simp [hexp]), ih,
          List.filterMap_cons_none (by simp [restoredEntry, hexp])]
      | false =>
        rw [List.filter_cons_of_pos (by simp [hexp]), List.map_cons, List.mapM_cons, ih,
          readItem_itemJson, List.filterMap_cons_some (by simp only [restoredEntry, hexp]; rfl)]
        rfl
  unfold KVStore.restoreSnapshot KVStore.takeSnapshot
  rw [J.parse_dump _ hcanonical]
  simp only [Json.elements, Option.bind_eq_bind, Option.bind_some, hitems, ofList_toList]
  rfl

/-! ## Side by side -/

/-- What the two stores hold under one key. -/
inductive SameKey (t : Int) : Option KVEntry → Option KVEntry → Prop
  | absent : SameKey t none none
  | same {e e' : KVEntry} (view : viewOf e = viewOf e') (expiry : e.expiresAt = e'.expiresAt) :
      SameKey t (some e) (some e')
  /-- An entry that is gone, and was never counted. -/
  | dead {e : KVEntry} (version : e.version = 0) (expired : e.expired t = true) :
      SameKey t (some e) none

def Alike (t : Int) (s s' : KVStore) : Prop := ∀ k : String, SameKey t s.data[k]? s'.data[k]?

theorem expired_mono (h : e.expired t = true) (hle : t ≤ now) : e.expired now = true := by
  obtain ⟨x, hx, hlt⟩ := (Option.any_eq_true _ _).mp h
  refine (Option.any_eq_true _ _).mpr ⟨x, hx, ?_⟩
  simp only [decide_eq_true_eq] at hlt ⊢
  omega

theorem SameKey.visible {entry entry' : Option KVEntry} (h : SameKey t entry entry')
    (hle : t ≤ now) :
    (entry.bind fun e => if e.expired now then none else some (viewOf e)) =
      entry'.bind fun e => if e.expired now then none else some (viewOf e) := by
  cases h with
  | absent => rfl
  | @same e e' view expiry =>
    have hexp : e.expired now = e'.expired now := by simp only [KVEntry.expired, expiry]
    rw [Option.bind_some, Option.bind_some, hexp, view]
  | dead version expired => simp [expired_mono expired hle]

/-- The version `Put` counts on to. -/
theorem SameKey.next_version {entry entry' : Option KVEntry} (h : SameKey t entry entry') :
    entry.elim 1 (fun e => e.version + 1) = entry'.elim 1 fun e => e.version + 1 := by
  cases h with
  | absent => rfl
  | same view expiry => exact congrArg (fun v : View => v.version + 1) view
  | dead version expired => exact congrArg (· + 1) version

/-- From `t` on, the two show the same. -/
theorem Alike.visible (h : Alike t s s') (hle : t ≤ now) :
    Proof.visible s now = Proof.visible s' now := by
  apply Std.ExtTreeMap.ext_getElem?
  intro k
  rw [getElem?_visible, getElem?_visible]
  exact (h k).visible hle

theorem Alike.put (h : Alike t s s') (now : Int) (key value : String) (raftIndex : Nat)
    (ttlMs : Option Int) :
    Alike t (s.put now key value raftIndex ttlMs) (s'.put now key value raftIndex ttlMs) := by
  intro k
  rw [getElem?_put, getElem?_put]
  by_cases hkey : key = k
  · rw [if_pos hkey, if_pos hkey]
    refine .same ?_ rfl
    simp only [viewOf, entryAfterPut, (h key).next_version]
  · rw [if_neg hkey, if_neg hkey]
    exact h k

theorem Alike.delete (h : Alike t s s') (key : String) :
    Alike t (s.delete key).1 (s'.delete key).1 := by
  intro k
  rw [getElem?_delete, getElem?_delete]
  by_cases hkey : key = k
  · rw [if_pos hkey, if_pos hkey]
    exact .absent
  · rw [if_neg hkey, if_neg hkey]
    exact h k

theorem Alike.applyEntry (h : Alike t s s') (now : Int) (e : LogEntry) :
    Alike t (s.applyEntry now e) (s'.applyEntry now e) := by
  unfold KVStore.applyEntry
  cases e.opType with
  | Put => exact h.put now e.key e.value e.index _
  | Delete => exact h.delete e.key
  | NoOp => exact h
  | unnamed code => exact h

/-- **Stores that are alike answer alike**, for as long as they run. -/
theorem Alike.answers (h : Alike t s s') {ops : List (Int × StoreOp)}
    (hops : ∀ op ∈ ops, t ≤ op.1) : Proof.answers s' ops = Proof.answers s ops := by
  induction ops generalizing s s' with
  | nil => rfl
  | cons op ops ih =>
    obtain ⟨now, op⟩ := op
    have hrest : ∀ op ∈ ops, t ≤ op.1 := fun op hop => hops op (List.mem_cons_of_mem _ hop)
    have hnow : t ≤ now := hops _ List.mem_cons_self
    cases op with
    | apply e => exact ih (h.applyEntry now e) hrest
    | get key =>
      simp only [Proof.answers]
      rw [ih h hrest, get_view, get_view, h.visible hnow]
    | scan pattern limit =>
      simp only [Proof.answers]
      rw [ih h hrest, scan_view, scan_view, h.visible hnow]

/-! ## What comes back -/

/-- An expiry on a millisecond, not before the epoch, comes back. -/
theorem restoredExpiry_of_faithful (h : Faithful t e) (hexp : e.expired t = false) :
    restoredExpiry e = e.expiresAt := by
  cases hx : e.expiresAt with
  | none => simp [restoredExpiry, KVStore.expiresMs, hx]
  | some x =>
    have hlate : ¬x < t := by simpa [KVEntry.expired, hx] using hexp
    have hfaithful := h x hx
    rw [if_neg hlate] at hfaithful
    obtain ⟨hpos, hlt, ms, rfl⟩ := hfaithful
    have hms : (1000000 * ms).tdiv 1000000 = ms := Int.mul_tdiv_cancel_left ms (by decide)
    simp only [restoredExpiry, KVStore.expiresMs, hx, hms]
    rw [if_pos (by omega), Int.mul_comm, wrapInt64_eq_self_iff.mpr ⟨by omega, hlt⟩]

theorem restored_alike (h : ∀ (k : String) e, s.data[k]? = some e → Faithful t e) :
    Alike t s (restored s t t') := by
  intro k
  rw [restored, Std.ExtTreeMap.getElem?_filterMap']
  cases hk : s.data[k]? with
  | none => exact .absent
  | some e =>
    have hfaithful := h k e hk
    rw [Option.bind_some, restoredEntry]
    cases hexp : e.expired t with
    | true =>
      obtain ⟨x, hx, hlt⟩ := (Option.any_eq_true _ _).mp hexp
      have hversion := hfaithful x hx
      rw [if_pos (by simpa using hlt)] at hversion
      exact .dead hversion hexp
    | false => exact .same rfl (restoredExpiry_of_faithful hfaithful hexp).symm

/-! ## What does not -/

/-- An expired entry is missed by the next `Put`. -/
def putThenGet (t : Int) (k : String) : List (Int × StoreOp) :=
  [(t, .apply { opType := .Put, key := k }), (t, .get k)]

theorem answers_putThenGet (s : KVStore) (t : Int) (k : String) :
    answers s (putThenGet t k) =
      [.got (some { value := "", version := s.data[k]?.elim 1 fun e => e.version + 1,
                    raftIndex := 0 })] := by
  have hget : ((s.put t k "" 0 none).get t k).map viewOf =
      some { value := "", version := s.data[k]?.elim 1 fun e => e.version + 1,
             raftIndex := 0 } := by
    rw [get_view, getElem?_visible, getElem?_put, if_pos rfl]
    rfl
  simp only [putThenGet, answers, KVStore.applyEntry]
  exact congrArg (fun entry => [Answer.got entry]) hget

theorem answers_get (s : KVStore) (now : Int) (k : String) :
    answers s [(now, .get k)] = [.got (visible s now)[k]?] := by
  simp only [answers, get_view]

/-- Only a faithful expiry comes back as itself. -/
theorem faithful_of_restored {x : Int} (hx : e.expiresAt = some x)
    (hback : restoredExpiry e = some x) : 0 ≤ x ∧ x < 2 ^ 63 ∧ 1000000 ∣ x := by
  unfold restoredExpiry KVStore.expiresMs at hback
  rw [hx] at hback
  dsimp only at hback
  split at hback
  · rename_i hms
    rw [Option.some.injEq] at hback
    have hle := wrapInt64_le (x := x.tdiv 1000000 * 1000000) (by omega)
    rw [hback] at hle
    have hpos : 0 ≤ x := by
      by_contra hneg
      have hzero : x.tdiv 1000000 ≤ 0 := by
        have := Int.tdiv_nonneg (a := -x) (b := 1000000) (by omega) (by decide)
        rw [Int.neg_tdiv] at this
        omega
      have : x.tdiv 1000000 = 0 := by omega
      rw [this] at hback
      exact absurd hback (by simp [wrapInt64]; omega)
    refine ⟨hpos, hback ▸ (wrapInt64_bounds _).2, x.tdiv 1000000, ?_⟩
    rw [Int.tdiv_eq_ediv_of_nonneg hpos] at hle ⊢
    omega
  · exact absurd hback (by simp)

/-- If no later read differs, a read finds both entries expired or neither. -/
theorem expired_of_answers {now : Int} (hk : s.data[k]? = some e)
    (hback : (restored s t t').data[k]? = some (rebuilt t' e)) (hnow : t ≤ now)
    (h : ∀ ops, Timed t ops → answers (restored s t t') ops = answers s ops) :
    (rebuilt t' e).expired now = e.expired now := by
  have hsame := h [(now, .get k)] (by simp [Timed, hnow])
  rw [answers_get, answers_get, getElem?_visible, getElem?_visible, hback, hk,
    Option.bind_some, Option.bind_some] at hsame
  cases hback' : (rebuilt t' e).expired now with
  | true =>
    cases hlive : e.expired now with
    | true => rfl
    | false =>
      rw [hback', hlive] at hsame
      exact absurd hsame (by simp)
  | false =>
    cases hlive : e.expired now with
    | true =>
      rw [hback', hlive] at hsame
      exact absurd hsame (by simp)
    | false => rfl

/-- If no later read differs, the entry is kept as it is. -/
theorem faithful_of_answers (hk : s.data[k]? = some e)
    (h : ∀ ops, Timed t ops → answers (restored s t t') ops = answers s ops) : Faithful t e := by
  have hback : (restored s t t').data[k]? = restoredEntry t t' e := by
    rw [restored, Std.ExtTreeMap.getElem?_filterMap', hk]
    rfl
  intro x hx
  have hx : e.expiresAt = some x := hx
  split
  · rename_i hlt
    have hexp : e.expired t = true := by simp [KVEntry.expired, hx, hlt]
    have hsame := h (putThenGet t k) (by simp [Timed, putThenGet])
    rw [answers_putThenGet, answers_putThenGet, hback, hk, restoredEntry, if_pos hexp] at hsame
    simp only [Option.elim, List.cons.injEq, Answer.got.injEq, Option.some.injEq,
      View.mk.injEq, and_true, true_and] at hsame
    omega
  · rename_i hle
    have hexp : e.expired t = false := by simp [KVEntry.expired, hx, hle]
    rw [restoredEntry, if_neg (by simp [hexp])] at hback
    have hread : ∀ now, t ≤ now → (restoredExpiry e).any (· < now) = decide (x < now) := by
      intro now hnow
      have hlive : e.expired now = decide (x < now) := by simp [KVEntry.expired, hx]
      rw [← hlive]
      exact expired_of_answers hk hback hnow h
    -- so the expiry that comes back lies between a read at `x` and one directly after it
    have hlate := hread (x + 1) (by omega)
    have hearly := hread x (by omega)
    rw [decide_eq_true (by omega)] at hlate
    rw [decide_eq_false (by omega)] at hearly
    obtain ⟨y, hy, hlate⟩ := (Option.any_eq_true _ _).mp hlate
    rw [hy, Option.any_some, decide_eq_false_iff_not] at hearly
    rw [decide_eq_true_eq] at hlate
    obtain rfl : y = x := by omega
    exact faithful_of_restored hx hy

/-- **Snapshot plus replay is replay, exactly for faithful entries.** A snapshot can always be
    read back, and every later sequence of applied entries and reads has the same answers on
    the rebuilt store if and only if every entry was kept as it is. -/
theorem snapshot_transparent (J : Json.Codec) (s : KVStore) (t t' : Int) :
    ∃ s', KVStore.restoreSnapshot J (s.takeSnapshot J t) t' = some s' ∧
      ((∀ ops, Timed t ops → answers s' ops = answers s ops) ↔
        ∀ (k : String) e, s.data[k]? = some e → Faithful t e) := by
  refine ⟨restored s t t', restoreSnapshot_takeSnapshot J s t t', ?_, ?_⟩
  · intro h k e hk
    exact faithful_of_answers hk h
  · intro h ops hops
    refine (restored_alike h).answers ?_
    intro op hop
    rw [Timed, List.pairwise_cons] at hops
    exact hops.1 op.1 (List.mem_map_of_mem hop)

/-- A key put at the epoch with a TTL of one millisecond. -/
def shortLived : KVStore := KVStore.put {} 0 "k" "v" 1 (some 1)

/-- The key is put again two milliseconds after the epoch, and read. -/
def putAgain : List (Int × StoreOp) :=
  [(2000000, .apply { term := 1, index := 2, opType := .Put, key := "k", value := "w" }),
    (2000000, .get "k")]

/-- **A version that starts over**: the store reads version 2, the store rebuilt from its
    snapshot reads version 1. -/
theorem snapshot_transparent_fails :
    ∃ s', KVStore.restoreSnapshot Json.text (shortLived.takeSnapshot Json.text 2000000) 2000000 =
        some s' ∧ Timed 2000000 putAgain ∧
      answers shortLived putAgain =
        [.got (some { value := "w", version := 2, raftIndex := 2 })] ∧
      answers s' putAgain = [.got (some { value := "w", version := 1, raftIndex := 2 })] :=
  ⟨_, restoreSnapshot_takeSnapshot _ _ _ _, by simp [Timed, putAgain], by decide +kernel,
    by decide +kernel⟩

end Proof
end OrcDb
