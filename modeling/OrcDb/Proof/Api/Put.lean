import OrcDb.Api.KVHandler
import OrcDb.Lib.JsonText
import OrcDb.Proof.Storage.KVStore

/-!
# A PUT, from the request to the store

On a leader the handler reads the key off the path, the value and the TTL off the body and calls
`Propose`, which appends an entry; the entry goes over the wire and into the WAL as a document,
and in the end `ApplyEntry` hands it to the store. `afterPut` is that way in one piece, and
`afterPut_eq` what comes out of it.

The milliseconds of a TTL pass unchanged from the handler's `int64_t` up to `KVStore::Put`, where
they become nanoseconds and are added to the clock in 64 bits, without a look at the range:
`ttl_kept_iff`.
-/

set_option autoImplicit false

namespace OrcDb
namespace Proof

open Lib

/-- A request that the handler of `PUT /v1/kv/{key}` accepts. -/
structure AcceptedPut (J : Json.Codec) (req : HttpRequest) (key value : String) (ttlMs : Int) :
    Prop where
  path : KVHandler.pathKey req = some (toBytes key)
  nonempty : toBytes key ≠ []
  body : ∃ body, KVHandler.parseBody J req = some body ∧
    body.field? "value" = some (.str value) ∧ KVHandler.readTtl body = some ttlMs

/-- The store after a PUT on the node `n`, applied at `now`: the handler, `Propose`, the entry's
    document, `ApplyEntry`. -/
def afterPut (J : Json.Codec) (n : RaftNode) (id : Nat) (s : KVStore) (now : Int)
    (req : HttpRequest) : Option KVStore :=
  match KVHandler.put J req with
  | .isLeader k =>
      match k (n.role = .Leader) with
      | .propose key value op ttlMs _ => do
          let e ← LogEntry.deserialize J
            ((n.propose J id key value op ttlMs).1.log.back.serialize J)
          return s.applyEntry now e
      | _ => none
  | _ => none

section

variable {J : Json.Codec} {req : HttpRequest} {key value : String} {ttlMs : Int} {n : RaftNode}

/-- The handler of a leader proposes what the request asks for. -/
theorem put_proposes (h : AcceptedPut J req key value ttlMs) :
    ∃ k k', KVHandler.put J req = .isLeader k ∧ k true = .propose key value .Put ttlMs k' := by
  obtain ⟨body, hbody, hvalue, httl⟩ := h.body
  unfold KVHandler.put
  simp only [h.path, h.nonempty, hbody, hvalue, httl, Handling.orThrow, getString, if_false,
    ofBytes?_toBytes]
  exact ⟨_, _, rfl, rfl⟩

theorem back_propose (hleader : n.role = .Leader) (J : Json.Codec) (id : Nat)
    (key value : String) (op : OpType) (ttlMs : Int) :
    ∃ command, (n.propose J id key value op ttlMs).1.log.back =
      { term := n.currentTerm, index := n.log.lastIndex + 1, opType := op, key, value, ttlMs,
        command } := by
  unfold RaftNode.propose
  rw [if_neg (by simp [hleader])]
  simp only [RaftNode.appendLog, RaftLog.append, RaftLog.back, List.getLastD_concat]
  exact ⟨_, rfl⟩

/-- **What a PUT does to the store.** -/
theorem afterPut_eq (h : AcceptedPut J req key value ttlMs) (hleader : n.role = .Leader)
    (id : Nat) (s : KVStore) (now : Int) :
    afterPut J n id s now req =
      some (s.put now key value (n.log.lastIndex + 1)
        (if ttlMs > 0 then some ttlMs else none)) := by
  obtain ⟨k, k', hput, hk⟩ := put_proposes h
  obtain ⟨command, hback⟩ := back_propose hleader J id key value .Put ttlMs
  unfold afterPut
  simp only [hput, hleader, decide_true, hk, hback, LogEntry.deserialize_serialize]
  rfl

end

/-! ## The time to live -/

/-- The entry of the key expires exactly `ttlMs` milliseconds after `now`, and up to then every
    read returns the value. -/
def TtlKept (s : KVStore) (key value : String) (now ttlMs : Int) : Prop :=
  (∃ e, s.data[key]? = some e ∧ e.expiresAt = some (now + ttlMs * 1000000)) ∧
    ∀ t ≤ now + ttlMs * 1000000, (s.get t key).map KVEntry.value = some value

theorem ttlKept_put_iff {s : KVStore} {now ttlMs : Int} (hnow : -2 ^ 63 ≤ now) (hpos : 0 < ttlMs)
    (key value : String) (raftIndex : Nat) :
    TtlKept (s.put now key value raftIndex (some ttlMs)) key value now ttlMs ↔
      now + ttlMs * 1000000 < 2 ^ 63 := by
  have hentry : (s.put now key value raftIndex (some ttlMs)).data[key]? =
      some (entryAfterPut s now key value raftIndex (some ttlMs)) := by
    rw [getElem?_put, if_pos rfl]
  constructor
  · rintro ⟨⟨e, he, hexpires⟩, -⟩
    rw [hentry] at he
    cases he
    exact (wrapInt64_eq_self_iff.mp (Option.some.inj hexpires)).2
  · intro hlt
    have hexpires : (entryAfterPut s now key value raftIndex (some ttlMs)).expiresAt =
        some (now + ttlMs * 1000000) :=
      congrArg some (wrapInt64_eq_self_iff.mpr ⟨by omega, hlt⟩)
    refine ⟨⟨_, hentry, hexpires⟩, ?_⟩
    intro t ht
    have hlive : (entryAfterPut s now key value raftIndex (some ttlMs)).expired t = false := by
      simp only [KVEntry.expired, hexpires, Option.any_some, decide_eq_false_iff_not]
      omega
    simp only [KVStore.get, hentry, hlive, Bool.false_eq_true, if_false]
    rfl

/-- **When a TTL is kept.** A PUT with a positive `ttl_ms` that is applied at `now` leaves an entry
    that expires `ttl_ms` milliseconds later, and is seen until then, exactly if that instant is
    one that the 64 bits of the clock can hold. -/
theorem ttl_kept_iff {J : Json.Codec} {req : HttpRequest} {key value : String} {ttlMs : Int}
    (h : AcceptedPut J req key value ttlMs) (hpos : 0 < ttlMs) {n : RaftNode}
    (hleader : n.role = .Leader) (id : Nat) (s : KVStore) {now : Int} (hnow : -2 ^ 63 ≤ now) :
    ∃ s', afterPut J n id s now req = some s' ∧
      (TtlKept s' key value now ttlMs ↔ now + ttlMs * 1000000 < 2 ^ 63) := by
  refine ⟨_, afterPut_eq h hleader id s now, ?_⟩
  rw [if_pos hpos]
  exact ttlKept_put_iff hnow hpos key value _

/-- `PUT /v1/kv/k` with a value and a `ttl_ms`. -/
def ttlRequest (ttlMs : Int) : HttpRequest where
  method := toBytes "PUT"
  path := toBytes "/v1/kv/k"
  pathParams := AList.insert (toBytes "key") (toBytes "k") ∅
  body := toBytes (Json.text.dump (.obj [("ttl_ms", .num ttlMs), ("value", .str "v")]))

theorem acceptedPut_ttlRequest (ttlMs : Int) (h : -2 ^ 63 ≤ ttlMs ∧ ttlMs < 2 ^ 63) :
    AcceptedPut Json.text (ttlRequest ttlMs) "k" "v" ttlMs where
  path := AList.lookup_insert _
  nonempty := by decide
  body := by
    have hkeys : ["ttl_ms", "value"].Pairwise (· < ·) := by decide
    have hcanonical : Json.Canonical (.obj [("ttl_ms", .num ttlMs), ("value", .str "v")]) :=
      .flat hkeys rfl
    refine ⟨.obj [("ttl_ms", .num ttlMs), ("value", .str "v")], ?_, rfl,
      congrArg some (wrapInt64_eq_self_iff.mpr h)⟩
    rw [KVHandler.parseBody, ttlRequest, ofBytes?_toBytes, Option.bind_some,
      Json.text.parse_dump _ hcanonical]

theorem ttl_kept_iff_second :
    ∃ s', afterPut Json.text { role := .Leader } 0 {} 0 (ttlRequest 1000) = some s' ∧
      TtlKept s' "k" "v" 0 1000 := by
  obtain ⟨s', hs', hiff⟩ := ttl_kept_iff (acceptedPut_ttlRequest 1000 (by decide)) (by decide)
    (n := { role := .Leader }) rfl 0 {} (show (-2 ^ 63 : Int) ≤ 0 by decide)
  exact ⟨s', hs', hiff.mpr (by decide)⟩

/-- The longest TTL there is ends before it begins. -/
theorem ttl_kept_fails :
    ∃ s', afterPut Json.text { role := .Leader } 0 {} 0 (ttlRequest (2 ^ 63 - 1)) = some s' ∧
      ¬TtlKept s' "k" "v" 0 (2 ^ 63 - 1) ∧ s'.get 0 "k" = none := by
  refine ⟨_, afterPut_eq (acceptedPut_ttlRequest (2 ^ 63 - 1) (by decide)) rfl 0 {} 0, ?_, ?_⟩
  · rw [if_pos (by decide), ttlKept_put_iff (by decide) (by decide)]
    decide
  · decide +kernel

end Proof
end OrcDb
