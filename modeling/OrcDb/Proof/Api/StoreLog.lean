import OrcDb.Api.Service
import OrcDb.Proof.Raft.Commit
import OrcDb.Proof.Storage.KVStore

/-!
# The store as a function of the log

What a store holds of its keys — value, version and Raft index — does not depend on when the
entries were applied (`contents_applyEntry`), so it can be compared with the log. Of all that
happens on a node only `ApplyEntry` and `CAS` write to the store. `Told` follows the first: the
store holds what the entries it was given make of an empty one, also in the middle of an
application. What the node has applied is a prefix of its log as long as followers commit only
what was verified (`CommitInv`). So the law holds as long as no `CAS` succeeds, and the first
that does breaks it (`store_follows_log`).
-/

set_option autoImplicit false

namespace OrcDb
namespace Proof

open Lib

/-! ## Contents -/

/-- What the store holds under a key, expired or not. -/
def contents (st : KVStore) (k : String) : Option View := st.data[k]?.map viewOf

/-- The entries applied in order to an empty store, at the time `t`. -/
def replayed (t : Int) (es : List LogEntry) : KVStore :=
  es.foldl (fun st e => st.applyEntry t e) {}

theorem contents_put (st : KVStore) (now : Int) (key value : String) (raftIndex : Nat)
    (ttlMs : Option Int) (k : String) :
    contents (st.put now key value raftIndex ttlMs) k =
      if key = k then
        some { value, version := (contents st key).elim 1 fun v => v.version + 1, raftIndex }
      else contents st k := by
  unfold contents
  rw [getElem?_put]
  split
  · simp only [Option.map_some, viewOf, entryAfterPut]
    cases st.data[key]? with
    | none => rfl
    | some e => rfl
  · rfl

theorem contents_delete (st : KVStore) (key k : String) :
    contents (st.delete key).1 k = if key = k then none else contents st k := by
  unfold contents
  rw [getElem?_delete]
  split
  · rfl
  · rfl

/-- The clock does not show in the contents. -/
theorem contents_applyEntry {st st' : KVStore} (h : contents st = contents st') (now now' : Int)
    (e : LogEntry) : contents (st.applyEntry now e) = contents (st'.applyEntry now' e) := by
  funext k
  unfold KVStore.applyEntry
  cases e.opType with
  | Put => simp only [contents_put, h]
  | Delete => simp only [contents_delete, h]
  | NoOp => exact congrFun h k
  | unnamed code => exact congrFun h k

theorem replayed_concat (t : Int) (es : List LogEntry) (e : LogEntry) :
    replayed t (es ++ [e]) = (replayed t es).applyEntry t e := by
  unfold replayed
  rw [List.foldl_append]
  rfl

/-! ## The apply thread -/

variable {c : Cluster} {n n' : RaftNode}

/-- What `ApplyLoop` alone writes, `lastApplied_` apart. -/
def applyPart (n : RaftNode) : List LogEntry × Option (Nat × LogEntry) := (n.applied, n.applying)

theorem applyPart_adoptTerm (n : RaftNode) (term : Nat) (leaderId : String) :
    applyPart (n.adoptTerm term leaderId) = applyPart n := by
  unfold RaftNode.adoptTerm
  split
  · rfl
  · rfl

theorem applyPart_recvVote (n : RaftNode) (call : ElectionCall) (resp : RequestVoteResponse) :
    applyPart (n.recvVote call resp) = applyPart n := by
  have h' := voteAnswered n call resp
  generalize n.recvVote call resp = out at h' ⊢
  cases h' with
  | newer _ | vote _ _ _ _ | other _ _ => rfl

theorem applyPart_finishElection (J : Json.Codec) (cfg : RaftConfig) (n : RaftNode)
    (call : ElectionCall) : applyPart (n.finishElection J cfg call) = applyPart n := by
  unfold RaftNode.finishElection
  dsimp only
  split
  · rfl
  · rfl

theorem applyPart_handleRequestVote (n : RaftNode) (req : RequestVoteRequest) :
    applyPart (n.handleRequestVote req).1 = applyPart n := by
  have h' := voteHandled n req
  generalize n.handleRequestVote req = out at h' ⊢
  cases h' with
  | stale _ => rfl
  | granted _ _ | denied _ _ => exact applyPart_adoptTerm n req.term ""

theorem applyPart_handleAppendEntries (J : Json.Codec) (n : RaftNode)
    (req : AppendEntriesRequest) : applyPart (n.handleAppendEntries J req).1 = applyPart n := by
  have h' := handled J n req
  generalize n.handleAppendEntries J req = out at h' ⊢
  cases h' with
  | stale _ => rfl
  | rejected _ _ => exact applyPart_adoptTerm n req.term req.leaderId
  | accepted _ _ =>
    rw [acceptEntries_eq]
    exact applyPart_adoptTerm n req.term req.leaderId

theorem applyPart_finishReplicate (cfg : RaftConfig) (n : RaftNode) (call : ReplicateCall)
    (resp : AppendEntriesResponse) : applyPart (n.finishReplicate cfg call resp) = applyPart n := by
  have h' := finished cfg n call resp
  generalize n.finishReplicate cfg call resp = out at h' ⊢
  cases h' with
  | success _ _ _ =>
    rw [advanceCommitIndex_eq]
    rfl
  | newer _ | dropped _ _ | failure _ _ _ => rfl

theorem applyPart_propose (J : Json.Codec) (id : Nat) (n : RaftNode) (key value : String)
    (op : OpType) (ttlMs : Int) :
    applyPart (n.propose J id key value op ttlMs).1 = applyPart n := by
  unfold RaftNode.propose
  split
  · rfl
  · rfl

theorem applyPart_maybeSnapshot (cfg : RaftConfig) (n : RaftNode) (data : String) :
    applyPart (n.maybeSnapshot cfg data) = applyPart n := by
  unfold RaftNode.maybeSnapshot
  split
  · rfl
  · rfl

theorem applyPart_endApply (cfg : RaftConfig) (n : RaftNode) (next : Nat) (data : String) :
    applyPart (n.endApply cfg next data) = (n.applied, none) := by
  unfold RaftNode.endApply
  dsimp only
  split
  · exact applyPart_maybeSnapshot cfg _ data
  · rfl

/-- What a section does to the apply thread: nothing, unless it is one of its own two. -/
theorem Does.applyPart {s : State} {act : Action} {e : Effect} (h : Does c s act e) :
    applyPart e.node = applyPart (s.node e.actor) ∨
      (∃ data, act = .endApply e.actor data) ∧
        applyPart e.node = ((s.node e.actor).applied, none) ∨
      ∃ next x, applyPart e.node = ((s.node e.actor).applied ++ [x], some (next, x)) := by
  cases h with
  | startElection up | skipVote up | startReplicate up | abandonReplicate up | wakePropose up =>
    rw [up.node]
    exact Or.inl rfl
  | recvVote up =>
    rw [up.node]
    exact Or.inl (applyPart_recvVote ..)
  | finishElection up =>
    rw [up.node]
    exact Or.inl (applyPart_finishElection ..)
  | finishReplicate up =>
    rw [up.node]
    exact Or.inl (applyPart_finishReplicate ..)
  | handleRequestVote up =>
    rw [up.node]
    exact Or.inl (applyPart_handleRequestVote ..)
  | handleAppendEntries up =>
    rw [up.node]
    exact Or.inl (applyPart_handleAppendEntries ..)
  | propose up =>
    rw [up.node]
    exact Or.inl (applyPart_propose ..)
  | stallApply up =>
    rw [up.node]
    exact Or.inl (applyPart_maybeSnapshot ..)
  | endApply up =>
    rw [up.node]
    exact Or.inr (Or.inl ⟨⟨_, rfl⟩, applyPart_endApply ..⟩)
  | beginApply up =>
    rw [up.node]
    exact Or.inr (Or.inr ⟨_, _, rfl⟩)

/-! ## What the store was given -/

/-- The store `st` of node `n` has been given the first `told` entries that `n` has applied, all
    of them between two entries, and nothing else was written to it. -/
structure Told (n : RaftNode) (told : Nat) (st : KVStore) : Prop where
  le : told ≤ n.applied.length
  idle : n.applying = none → told = n.applied.length
  contents : ∀ t, contents st = contents (replayed t (n.applied.take told))

theorem told_start : Told {} 0 {} := ⟨Nat.le_refl _, fun _ => rfl, fun _ => rfl⟩

/-- A section keeps it; the second of `ApplyLoop` comes behind `ApplyEntry`. -/
theorem Told.act {told : Nat} {st : KVStore} {s : State} {act : Action} {e : Effect}
    (h : Told (s.node e.actor) told st) (hd : Does c s act e)
    (hend : ∀ data, act = .endApply e.actor data → told = (s.node e.actor).applied.length) :
    Told e.node told st := by
  obtain ⟨hle, hidle, hcontents⟩ := h
  rcases hd.applyPart with hsame | ⟨⟨data, hact⟩, hdone⟩ | ⟨next, x, hnew⟩
  · obtain ⟨happlied, happlying⟩ := Prod.mk.inj hsame
    rw [← happlied] at hle hidle hcontents
    rw [← happlying] at hidle
    exact ⟨hle, hidle, hcontents⟩
  · obtain ⟨happlied, _⟩ := Prod.mk.inj hdone
    have hall := hend data hact
    rw [← happlied] at hle hcontents hall
    exact ⟨hle, fun _ => hall, hcontents⟩
  · obtain ⟨happlied, happlying⟩ := Prod.mk.inj hnew
    refine ⟨?_, fun hnone => ?_, fun t => ?_⟩
    · rw [happlied, List.length_append]
      omega
    · rw [happlying] at hnone
      exact absurd hnone (by simp)
    · rw [happlied, List.take_append_of_le_length hle]
      exact hcontents t

/-- `ApplyEntry` gives the store one more. -/
theorem Told.applyEntry {told : Nat} {st : KVStore} {x : LogEntry} (h : Told n told st) (now : Int)
    (hx : n.applied[told]? = some x) : Told n (told + 1) (st.applyEntry now x) := by
  have hlt := (List.getElem?_eq_some_iff.mp hx).1
  refine ⟨hlt, fun hnone => ?_, fun t => ?_⟩
  · have := h.idle hnone
    omega
  · rw [List.take_add_one, hx, Option.toList_some, replayed_concat]
    exact contents_applyEntry (h.contents t) now t x

/-! ## Steps of the service -/

/-- No log has reached the size at which it is compacted. -/
def NoCompaction (c : Cluster) (s : Service) : Prop :=
  ∀ i ∈ c.ids, (s.raft.node i).log.size ≤ c.snapshotThreshold

instance (c : Cluster) (s : Service) : Decidable (NoCompaction c s) :=
  inferInstanceAs (Decidable (∀ i ∈ c.ids, (s.raft.node i).log.size ≤ c.snapshotThreshold))

/-- The handler of thread `k` is about to call `CAS`, and the store holds the expected value. -/
def casHits (s : Service) (k : Nat) : Bool :=
  match s.threads[k]? with
  | some (i, .running (.cas key expected _ _ _)) =>
      (s.store i).data[key]?.any fun e => e.value = expected
  | _ => false

/-- The step commits only what was verified, and writes nothing past the log. -/
def ThroughLog (s : Service) : ServiceEvent → Prop
  | .act a => Verified s.raft (.act a)
  | .call k _ _ => casHits s k = false
  | _ => True

instance (s : Service) (ev : ServiceEvent) : Decidable (ThroughLog s ev) :=
  match ev with
  | .act a => inferInstanceAs (Decidable (Verified s.raft (.act a)))
  | .call k _ _ => inferInstanceAs (Decidable (casHits s k = false))
  | .drop _ => .isTrue trivial
  | .applyEntry _ _ => .isTrue trivial
  | .request _ _ _ => .isTrue trivial

theorem cas_of_miss {st : KVStore} {key expected : String}
    (h : st.data[key]?.any (fun e => e.value = expected) = false) (now : Int) (newValue : String)
    (raftIndex : Nat) : st.cas now key expected newValue raftIndex = (st, false) := by
  unfold KVStore.cas
  cases hentry : st.data[key]? with
  | none => rfl
  | some e =>
    rw [hentry] at h
    have hne : e.value ≠ expected := by simpa using h
    simp only [if_pos hne]

/-- A call that does not hit writes nothing to the store, and takes at most one step of the
    cluster, in `Propose`. -/
theorem call_spec {s : Service} {k : Nat} {i : String} {thread : HandlerThread} {now : Int}
    {deadline : Bool} {called : Service.Called} (hk : s.threads[k]? = some (i, thread))
    (hmiss : casHits s k = false) (h : s.call c i now deadline thread = some called) :
    called.store = s.store i ∧
      (called.raft = s.raft ∨ ∃ a : Action, (∀ j data, a ≠ .endApply j data) ∧
        (∀ m, a ≠ .deliver m) ∧ Event.step c s.raft (.act a) = some called.raft) := by
  cases thread with
  | waiting id k =>
    simp only [Service.call, Option.bind_eq_bind, Option.bind_eq_some_iff] at h
    obtain ⟨n, _, proposal, _, result, _, raft, hraft, h⟩ := h
    cases h
    exact ⟨rfl, Or.inr ⟨_, by simp, by simp, hraft⟩⟩
  | running handling =>
    cases handling with
    | respond response => exact absurd h (by simp [Service.call])
    | throws => exact absurd h (by simp [Service.call])
    | isLeader k | getLeaderId k =>
      simp only [Service.call, Option.bind_eq_bind, Option.bind_eq_some_iff] at h
      obtain ⟨n, _, h⟩ := h
      cases h
      exact ⟨rfl, Or.inl rfl⟩
    | get key k =>
      cases h
      exact ⟨rfl, Or.inl rfl⟩
    | cas key expected newValue raftIndex k =>
      simp only [casHits, hk] at hmiss
      simp only [Service.call, cas_of_miss hmiss, Option.some.injEq] at h
      cases h
      exact ⟨rfl, Or.inl rfl⟩
    | propose key value op ttlMs k =>
      simp only [Service.call, Option.bind_eq_bind, Option.bind_eq_some_iff] at h
      obtain ⟨n, _, raft, hraft, h⟩ := h
      split at h
      · cases h
        exact ⟨rfl, Or.inr ⟨_, by simp, by simp, hraft⟩⟩
      · cases h
        exact ⟨rfl, Or.inr ⟨_, by simp, by simp, hraft⟩⟩

/-- The cluster of the service is in a run of its own, and every store was given its node's
    entries and nothing else. -/
structure ServiceOk (c : Cluster) (s : Service) : Prop where
  raft : ∃ tr, VerifiedRun c State.init tr s.raft
  stores : ∀ i, Told (s.raft.node i) (s.told i) (s.store i)

theorem serviceOk_start (c : Cluster) : ServiceOk c {} where
  raft := ⟨[], .refl _⟩
  stores := fun _ => told_start

/-- A step of the cluster, as a step of the service. -/
theorem ServiceOk.cluster {s : Service} (h : ServiceOk c s) (hsize : NoCompaction c s) {a : Action}
    (hverified : Verified s.raft (.act a))
    (hend : ∀ i data, a = .endApply i data → s.told i = (s.raft.node i).applied.length)
    {raft : State} (hstep : Event.step c s.raft (.act a) = some raft) :
    (∃ tr, VerifiedRun c State.init tr raft) ∧ ∀ i, Told (raft.node i) (s.told i) (s.store i) := by
  obtain ⟨tr, run⟩ := h.raft
  have hplain : (Event.act a).Plain c s.raft := hsize
  refine ⟨⟨_, run.tail ⟨hplain, hverified⟩ hstep⟩, ?_⟩
  obtain ⟨hd⟩ := stepped hstep
  exact (Function.forall_update_iff s.raft.node fun i n => Told n (s.told i) (s.store i)).mpr
    ⟨(h.stores _).act hd (hend _), fun i _ => h.stores i⟩

/-- **The step lemma.** -/
theorem ServiceOk.step {s s' : Service} {ev : ServiceEvent} (h : ServiceOk c s)
    (hsize : NoCompaction c s) (hlog : ThroughLog s ev) (hstep : ev.step c s = some s') :
    ServiceOk c s' := by
  cases ev with
  | act a =>
    simp only [ServiceEvent.step, Option.ite_none_right_eq_some, Option.map_eq_some_iff] at hstep
    obtain ⟨hmay, raft, hraft, rfl⟩ := hstep
    obtain ⟨hrun, hstores⟩ := h.cluster hsize hlog (fun i data ha => by
      subst ha
      exact of_decide_eq_true hmay) hraft
    exact ⟨hrun, hstores⟩
  | drop k =>
    simp only [ServiceEvent.step, Option.map_eq_some_iff] at hstep
    obtain ⟨raft, hraft, rfl⟩ := hstep
    obtain ⟨tr, run⟩ := h.raft
    have hplain : (Event.drop k).Plain c s.raft := hsize
    refine ⟨⟨_, run.tail ⟨hplain, trivial⟩ hraft⟩, ?_⟩
    cases hraft
    exact h.stores
  | applyEntry i now =>
    simp only [ServiceEvent.step, Option.bind_eq_bind, Option.bind_eq_some_iff] at hstep
    obtain ⟨x, hx, hstep⟩ := hstep
    cases hstep
    refine ⟨h.raft, fun j => ?_⟩
    by_cases hj : j = i
    · subst hj
      simp only [Function.update_self]
      exact (h.stores j).applyEntry now hx
    · simp only [Function.update_of_ne hj]
      exact h.stores j
  | request i route req =>
    cases hstep
    exact ⟨h.raft, h.stores⟩
  | call k now deadline =>
    simp only [ServiceEvent.step, Option.bind_eq_bind, Option.bind_eq_some_iff] at hstep
    obtain ⟨⟨i, thread⟩, hk, called, hcalled, hstep⟩ := hstep
    cases hstep
    obtain ⟨hstore, hraft⟩ := call_spec hk hlog hcalled
    simp only [hstore, Function.update_eq_self]
    rcases hraft with hraft | ⟨a, hend, hdeliver, hraft⟩
    · rw [hraft]
      exact ⟨h.raft, h.stores⟩
    · have hverified : Verified s.raft (.act a) := by
        unfold Verified
        split
        · rename_i m heq
          cases heq
          exact absurd rfl (hdeliver m)
        · trivial
      obtain ⟨hrun, hstores⟩ :=
        h.cluster hsize hverified (fun j data ha => absurd ha (hend j data)) hraft
      exact ⟨hrun, hstores⟩

/-! ## The law -/

/-- `es` are the entries 1 to `lastApplied_` of the log. -/
def AppliedEntries (n : RaftNode) (es : List LogEntry) : Prop :=
  es.length = n.lastApplied ∧ ∀ k < n.lastApplied, n.log.getEntry (k + 1) = es[k]?

/-- If the apply thread of node `i` is between two entries, its store holds what the entries of
    its log up to `lastApplied_` make of an empty store. -/
def FollowsLog (s : Service) (i : String) : Prop :=
  (s.raft.node i).applying = none →
    ∃ es, AppliedEntries (s.raft.node i) es ∧ ∀ t, contents (s.store i) = contents (replayed t es)

theorem AppliedEntries.unique {n n' : RaftNode} {es es' : List LogEntry}
    (h : AppliedEntries n es) (h' : AppliedEntries n' es') (hcount : n.lastApplied = n'.lastApplied)
    (hsame : ∀ k < n.lastApplied, n.log.getEntry (k + 1) = n'.log.getEntry (k + 1)) : es = es' := by
  obtain ⟨hlen, hget⟩ := h
  obtain ⟨hlen', hget'⟩ := h'
  apply List.ext_getElem?
  intro k
  by_cases hk : k < n.lastApplied
  · rw [← hget k hk, hsame k hk, hget' k (hcount ▸ hk)]
  · rw [List.getElem?_eq_none (by omega), List.getElem?_eq_none (by omega)]

theorem ServiceOk.followsLog (hc : c.FullMesh) {s : Service} (h : ServiceOk c s) (i : String) :
    FollowsLog s i := by
  intro hidle
  obtain ⟨tr, run⟩ := h.raft
  obtain ⟨a, -, sim, cinv⟩ := CommitInv.run hc run (sim_init c) (commitInv_init c)
  have hok := cinv.nodes i
  have hcount := hok.counts.idle hidle
  have htold := (h.stores i).idle hidle
  refine ⟨(s.raft.node i).applied, ⟨hcount, fun k hk => ?_⟩, fun t => ?_⟩
  · have hx := List.getElem?_eq_getElem (l := (s.raft.node i).applied) (i := k) (by omega)
    rw [((sim.nodes i).shaped sim.inv).getEntry_eq, hx]
    exact hok.applied k _ hx
  · have hcontents := (h.stores i).contents t
    rw [htold, List.take_length] at hcontents
    exact hcontents

/-- A `CAS` that hits changes the contents. -/
theorem contents_cas {st : KVStore} {key expected : String}
    (h : st.data[key]?.any (fun e => e.value = expected) = true) (now : Int) (newValue : String)
    (raftIndex : Nat) : contents (st.cas now key expected newValue raftIndex).1 ≠ contents st := by
  obtain ⟨e, he, hvalue⟩ := (Option.any_eq_true _ _).mp h
  intro hsame
  have hkey := congrFun hsame key
  have hcas : (st.cas now key expected newValue raftIndex).1.data[key]? =
      some { e with value := newValue, version := e.version + 1, updatedAt := now, raftIndex } := by
    unfold KVStore.cas
    simp only [he, of_decide_eq_true hvalue, ne_eq, not_true_eq_false, if_false]
    rw [Std.ExtTreeMap.getElem?_insert]
    simp
  unfold contents at hkey
  rw [hcas, he] at hkey
  simp [viewOf] at hkey

/-- A `CAS` on a node that follows its log keeps the law exactly if it misses. -/
theorem FollowsLog.cas_iff {s s' : Service} {k : Nat} {i key expected newValue : String}
    {raftIndex : Nat} {next : Bool → Handling} {now : Int} {deadline : Bool} (h : FollowsLog s i)
    (hk : s.threads[k]? = some (i, .running (.cas key expected newValue raftIndex next)))
    (hidle : (s.raft.node i).applying = none)
    (hstep : ServiceEvent.step c s (.call k now deadline) = some s') :
    FollowsLog s' i ↔ casHits s k = false := by
  simp only [ServiceEvent.step, Option.bind_eq_bind, Option.bind_eq_some_iff] at hstep
  obtain ⟨⟨i', thread⟩, hk', called, hcalled, hstep⟩ := hstep
  rw [hk, Option.some.injEq, Prod.mk.injEq] at hk'
  obtain ⟨rfl, rfl⟩ := hk'
  simp only [Service.call, Option.some.injEq] at hcalled
  subst hcalled
  cases hstep
  obtain ⟨es, hes, hcontents⟩ := h hidle
  constructor
  · intro hfollows
    obtain ⟨es', hes', hcontents'⟩ := hfollows hidle
    have hsame := hes'.unique hes rfl (fun _ _ => rfl)
    rw [← Bool.not_eq_true]
    intro hhits
    simp only [casHits, hk] at hhits
    refine contents_cas hhits now newValue raftIndex ?_
    have hnew := hcontents' 0
    simp only [Function.update_self, hsame] at hnew
    exact hnew.trans (hcontents 0).symm
  · intro hmiss _
    simp only [casHits, hk] at hmiss
    refine ⟨es, hes, fun t => ?_⟩
    simp only [Function.update_self, cas_of_miss hmiss]
    exact hcontents t

/-- **The store is a function of the applied log**, as long as followers commit only what was
    verified and no `CAS` finds the value it expects: on every node between two entries, and so
    alike on nodes with the same applied log. A `CAS` on such a node keeps the law exactly if it
    finds another value. -/
theorem store_follows_log (hc : c.FullMesh) {tr : List (Service × ServiceEvent)} {s : Service}
    (run : Runs (ServiceEvent.step c) (fun s ev => NoCompaction c s ∧ ThroughLog s ev) {} tr s) :
    (∀ i, FollowsLog s i) ∧
      (∀ i j, (s.raft.node i).applying = none → (s.raft.node j).applying = none →
        (s.raft.node i).lastApplied = (s.raft.node j).lastApplied →
        (∀ k < (s.raft.node i).lastApplied,
          (s.raft.node i).log.getEntry (k + 1) = (s.raft.node j).log.getEntry (k + 1)) →
        contents (s.store i) = contents (s.store j)) ∧
      ∀ k i key expected newValue raftIndex next now deadline s',
        s.threads[k]? = some (i, .running (.cas key expected newValue raftIndex next)) →
        (s.raft.node i).applying = none →
        ServiceEvent.step c s (.call k now deadline) = some s' →
          (FollowsLog s' i ↔ casHits s k = false) := by
  have hok : ServiceOk c s := run.invariant (I := ServiceOk c)
    (fun _ _ _ h hallowed hstep => h.step hallowed.1 hallowed.2 hstep) (serviceOk_start c)
  refine ⟨hok.followsLog hc, ?_, ?_⟩
  · intro i j hi hj hcount hsame
    obtain ⟨es, hes, hcontents⟩ := hok.followsLog hc i hi
    obtain ⟨es', hes', hcontents'⟩ := hok.followsLog hc j hj
    rw [hcontents 0, hcontents' 0, hes.unique hes' hcount hsame]
  · intro k i key expected newValue raftIndex next now deadline s' hk hidle hstep
    exact (hok.followsLog hc i).cas_iff hk hidle hstep

/-! ## A write and a swap on three nodes -/

/-- A request for the key `k`, as the router passes it on. -/
def keyed (body : String) : HttpRequest :=
  { pathParams := AList.singleton (toBytes "key") (toBytes "k"), body := toBytes body }

/-- `A` is elected and handles a PUT of `v` up to the wait. -/
def putOnA : List ServiceEvent :=
  [.act (.startElection "A"), .act (.deliver 0), .act (.deliver 0), .act (.recvVote "A" 0),
    .act (.recvVote "A" 0), .act (.finishElection "A"),
    .request "A" .put (keyed "\x7b\"value\":\"v\"\x7d"), .call 0 0 false, .call 0 0 false]

/-- A node applies its next entry. -/
def applyNext (i : String) : List ServiceEvent :=
  [.act (.beginApply i), .applyEntry i 0, .act (.endApply i "")]

/-- `A` sends its two entries to `B`, commits them, tells `B`, and both apply them. -/
def putApplied : List ServiceEvent :=
  putOnA ++ [.act (.startReplicate "A" "B"), .act (.deliver 0), .act (.finishReplicate "A" 0),
    .act (.startReplicate "A" "B"), .act (.deliver 0)] ++
  applyNext "A" ++ applyNext "A" ++ applyNext "B" ++ applyNext "B"

/-- Then `A` handles a swap of `expected` for `w`. -/
def swapOnA (expected : String) : List ServiceEvent :=
  putApplied ++ [.request "A" .compareAndSwap
      (keyed ("\x7b\"expected\":\"" ++ expected ++ "\",\"value\":\"w\"\x7d")),
    .call 1 0 false, .call 1 0 false]

/-- A swap that expects another value leaves the law alone. -/
theorem store_follows_log_missed : ∃ tr s,
    Runs (ServiceEvent.step three) (fun s ev => NoCompaction three s ∧ ThroughLog s ev) {} tr s ∧
      contents (s.store "A") "k" = some { value := "v", version := 1, raftIndex := 2 } ∧
      (s.raft.node "A").applying = none ∧ FollowsLog s "A" := by
  obtain ⟨s, hs, h⟩ := (Option.any_eq_true _ _).mp
    (show (exec (ServiceEvent.step three) (fun s ev => NoCompaction three s ∧ ThroughLog s ev) {}
      (swapOnA "u")).any (fun s => decide
        (contents (s.store "A") "k" = some { value := "v", version := 1, raftIndex := 2 } ∧
          (s.raft.node "A").applying = none)) = true by decide +kernel)
  have run := runs_of_exec hs
  obtain ⟨hcontents, hidle⟩ := of_decide_eq_true h
  exact ⟨_, s, run, hcontents, hidle, (store_follows_log three_fullMesh run).1 "A"⟩

/-- **A store that leaves its log**: the swap of `v` for `w` is made on `A` alone, and `A` and `B`,
    with the same applied log, hold different values. -/
theorem store_follows_log_fails : three.FullMesh ∧ ∃ tr s,
    Runs (ServiceEvent.step three) (fun s _ => NoCompaction three s) {} tr s ∧
      (s.raft.node "A").applying = none ∧ (s.raft.node "B").applying = none ∧
      (s.raft.node "A").lastApplied = 2 ∧ (s.raft.node "B").lastApplied = 2 ∧
      (∀ k < 2, (s.raft.node "A").log.getEntry (k + 1) = (s.raft.node "B").log.getEntry (k + 1)) ∧
      contents (s.store "A") "k" = some { value := "w", version := 2, raftIndex := 0 } ∧
      contents (s.store "B") "k" = some { value := "v", version := 1, raftIndex := 2 } := by
  obtain ⟨s, hs, h⟩ := (Option.any_eq_true _ _).mp
    (show (exec (ServiceEvent.step three) (fun s _ => NoCompaction three s) {}
      (swapOnA "v")).any (fun s => decide
        ((s.raft.node "A").applying = none ∧ (s.raft.node "B").applying = none ∧
          (s.raft.node "A").lastApplied = 2 ∧ (s.raft.node "B").lastApplied = 2 ∧
          (∀ k < 2,
            (s.raft.node "A").log.getEntry (k + 1) = (s.raft.node "B").log.getEntry (k + 1)) ∧
          contents (s.store "A") "k" = some { value := "w", version := 2, raftIndex := 0 } ∧
          contents (s.store "B") "k" = some { value := "v", version := 1, raftIndex := 2 })) = true
      by decide +kernel)
  exact ⟨three_fullMesh, _, s, runs_of_exec hs, of_decide_eq_true h⟩

end Proof
end OrcDb
