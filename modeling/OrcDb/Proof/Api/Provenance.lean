import OrcDb.Proof.Api.Consistency
import OrcDb.Proof.Raft.Entries

/-!
# Nothing is read that nobody wrote

Every value in a store was the `value` of the body of a PUT or CAS request for its key
(`reads_were_written`). All that is assumed of the run is that nobody restarts: followers may
commit what was never verified, a `CAS` may write past the log, logs may be compacted. Replication
can go wrong in many ways here, but it does not make values up.

`Honest` walks the tree of a handler's calls: it holds if every write in it has a source. A
handler starts honest (`handle_honest`) and each of its calls leaves an honest rest. What it
proposes is an entry with a source, and such entries are all there are (`Everywhere`).
-/

set_option autoImplicit false

namespace OrcDb
namespace Proof

open Lib

/-- Every write in the tree is one that `S` allows. -/
def Honest (S : String → String → Prop) : Handling → Prop
  | .respond _ => True
  | .throws => True
  | .isLeader k => ∀ b, Honest S (k b)
  | .getLeaderId k => ∀ id, Honest S (k id)
  | .propose key value op _ k => (op = .Put → S key value) ∧ ∀ r, Honest S (k r)
  | .get _ k => ∀ e, Honest S (k e)
  | .cas key _ newValue _ k => S key newValue ∧ ∀ b, Honest S (k b)

variable {S S' : String → String → Prop}

theorem Honest.mono (hS : ∀ key value, S key value → S' key value) :
    ∀ {h : Handling}, Honest S h → Honest S' h := by
  intro h
  induction h with
  | respond => exact fun _ => trivial
  | throws => exact fun _ => trivial
  | isLeader k ih => exact fun hk b => ih b (hk b)
  | getLeaderId k ih => exact fun hk id => ih id (hk id)
  | propose key value op ttlMs k ih =>
    exact fun hk => ⟨fun hop => hS _ _ (hk.1 hop), fun r => ih r (hk.2 r)⟩
  | get key k ih => exact fun hk e => ih e (hk e)
  | cas key expected newValue raftIndex k ih =>
    exact fun hk => ⟨hS _ _ hk.1, fun b => ih b (hk.2 b)⟩

theorem honest_orThrow {α : Type} {result : Option α} {k : α → Handling}
    (h : ∀ a, result = some a → Honest S (k a)) : Honest S (Handling.orThrow result k) := by
  cases result with
  | none => trivial
  | some a => exact h a rfl

/-- The request asks for this value under this key. -/
def AsksFor (J : Json.Codec) (route : KVHandler.Route) (req : HttpRequest) (key value : String) :
    Prop :=
  (route = .put ∨ route = .compareAndSwap) ∧ (KVHandler.pathKey req).bind ofBytes? = some key ∧
    ∃ body, KVHandler.parseBody J req = some body ∧
      (body.field? "value").bind getString = some value

theorem honest_redirect (J : Json.Codec) : Honest S (KVHandler.redirectToLeader J) := by
  intro id
  dsimp only
  split
  · trivial
  · trivial

theorem handle_honest (J : Json.Codec) (req : HttpRequest) (route : KVHandler.Route) :
    Honest (AsksFor J route req) (KVHandler.handle J req route) := by
  cases route with
  | get =>
    apply honest_orThrow
    intro key _ entry
    cases entry with
    | none => trivial
    | some e => trivial
  | put =>
    apply honest_orThrow
    intro pathText hpath
    split
    · trivial
    · split
      · trivial
      · rename_i body hbody
        split
        · trivial
        · rename_i field hfield
          apply honest_orThrow
          intro value hvalue
          apply honest_orThrow
          intro ttlMs _ leader
          dsimp only
          split
          · exact honest_redirect J
          · split
            · intro still
              dsimp only
              split
              · trivial
              · exact honest_redirect J
            · rename_i key hkey
              refine ⟨fun _ => ⟨Or.inl rfl, by rw [hpath]; exact hkey, body, hbody,
                by rw [hfield]; exact hvalue⟩, ?_⟩
              intro result
              dsimp only
              split
              · split
                · exact honest_redirect J
                · trivial
              · trivial
  | delete =>
    apply honest_orThrow
    intro pathText _ leader
    dsimp only
    split
    · exact honest_redirect J
    · apply honest_orThrow
      intro key _ entry
      dsimp only
      split
      · trivial
      · refine ⟨fun hop => absurd hop (by simp), ?_⟩
        intro result
        dsimp only
        split
        · trivial
        · trivial
  | compareAndSwap =>
    apply honest_orThrow
    intro pathText hpath
    split
    · trivial
    · rename_i body hbody
      split
      · rename_i expectedField valueField _ hfield
        apply honest_orThrow
        intro expected _
        apply honest_orThrow
        intro newValue hvalue leader
        dsimp only
        split
        · exact honest_redirect J
        · split
          · trivial
          · rename_i key hkey
            refine ⟨⟨Or.inr rfl, by rw [hpath]; exact hkey, body, hbody,
              by rw [hfield]; exact hvalue⟩, ?_⟩
            intro ok
            dsimp only
            split
            · trivial
            · trivial
      · trivial

/-! ## The cluster -/

variable {c : Cluster}

theorem mem_of_applyPart {n n' : RaftNode} {y : LogEntry} (h : applyPart n' = applyPart n)
    (hy : y ∈ n'.applied) : y ∈ n.applied := by
  rw [← (Prod.mk.inj h).1]
  exact hy

/-- What is applied is read from the log. -/
theorem Does.applies {x : State} {act : Action} {e : Effect} (hd : Does c x act e) :
    ∀ y ∈ e.node.applied, y ∈ (x.node e.actor).applied ∨ y ∈ (x.node e.actor).log.entries := by
  intro y hy
  cases hd with
  | @beginApply _ _ z up idle behind entry =>
    rw [up.node]
    rcases List.mem_append.mp hy with hy | hy
    · exact Or.inl hy
    · rw [List.mem_singleton.mp hy]
      exact Or.inr (List.mem_of_getElem? entry)
  | startElection up | skipVote up | startReplicate up | abandonReplicate up | wakePropose up =>
    rw [up.node]
    exact Or.inl hy
  | recvVote up =>
    rw [up.node]
    exact Or.inl (mem_of_applyPart (applyPart_recvVote ..) hy)
  | finishElection up =>
    rw [up.node]
    exact Or.inl (mem_of_applyPart (applyPart_finishElection ..) hy)
  | finishReplicate up =>
    rw [up.node]
    exact Or.inl (mem_of_applyPart (applyPart_finishReplicate ..) hy)
  | handleRequestVote up =>
    rw [up.node]
    exact Or.inl (mem_of_applyPart (applyPart_handleRequestVote ..) hy)
  | handleAppendEntries up =>
    rw [up.node]
    exact Or.inl (mem_of_applyPart (applyPart_handleAppendEntries ..) hy)
  | propose up =>
    rw [up.node]
    exact Or.inl (mem_of_applyPart (applyPart_propose ..) hy)
  | stallApply up =>
    rw [up.node]
    exact Or.inl (mem_of_applyPart (applyPart_maybeSnapshot ..) hy)
  | endApply up =>
    rw [up.node]
    dsimp only at hy
    rw [(Prod.mk.inj (applyPart_endApply ..)).1] at hy
    exact Or.inl hy

/-- A put in the log is one that `S` allows. -/
def Allowed (S : String → String → Prop) (e : LogEntry) : Prop := e.opType = .Put → S e.key e.value

theorem allowed_noOp (e : LogEntry) (h : e.opType = .NoOp) : Allowed S e := by
  intro hput
  rw [h] at hput
  exact absurd hput (by simp)

/-- The same of what is applied. -/
structure EntriesAllowed (S : String → String → Prop) (x : State) : Prop where
  everywhere : Everywhere (Allowed S) x
  applied : ∀ i, ∀ e ∈ (x.node i).applied, Allowed S e

theorem EntriesAllowed.act {x x' : State} {a : Action} (h : EntriesAllowed S x)
    (hstep : Event.step c x (.act a) = some x')
    (hnew : ∀ i key value op ttlMs, a = .propose i key value op ttlMs → op = .Put →
      S key value) : EntriesAllowed S x' := by
  refine ⟨h.everywhere.does allowed_noOp (fun i y hy hput => hnew _ _ _ _ _ hy hput) hstep, ?_⟩
  cases stepped hstep with
  | @act _ e hd =>
    intro i y hy
    by_cases hi : i = e.actor
    · subst hi
      simp only [Function.update_self] at hy
      rcases hd.applies y hy with hy | hy
      · exact h.applied _ y hy
      · exact h.everywhere.logs _ y hy
    · simp only [Function.update_of_ne hi] at hy
      exact h.applied i y hy

theorem EntriesAllowed.drop {x x' : State} {k : Nat} (h : EntriesAllowed S x)
    (hstep : Event.step c x (.drop k) = some x') : EntriesAllowed S x' := by
  refine ⟨h.everywhere.drop hstep, ?_⟩
  cases stepped hstep
  exact h.applied

/-! ## The service -/

def HonestThread (S : String → String → Prop) : HandlerThread → Prop
  | .running h => Honest S h
  | .waiting _ k => ∀ r, Honest S (k r)

theorem HonestThread.mono (hS : ∀ key value, S key value → S' key value) {t : HandlerThread}
    (h : HonestThread S t) : HonestThread S' t := by
  cases t with
  | running => exact Honest.mono hS h
  | waiting => exact fun r => Honest.mono hS (h r)

/-- Every value in a store is one that `S` allows. -/
def StoreAllowed (S : String → String → Prop) (st : KVStore) : Prop :=
  ∀ key e, st.data[key]? = some e → S key e.value

theorem StoreAllowed.applyEntry {st : KVStore} (h : StoreAllowed S st) {x : LogEntry}
    (hx : Allowed S x) (now : Int) : StoreAllowed S (st.applyEntry now x) := by
  intro key e he
  unfold KVStore.applyEntry at he
  split at he
  · rename_i hop
    rw [getElem?_put] at he
    split at he
    · rename_i hkey
      obtain rfl := Option.some.inj he
      rw [← hkey]
      exact hx hop
    · exact h key e he
  · rw [getElem?_delete] at he
    split at he
    · exact absurd he (by simp)
    · exact h key e he
  · exact h key e he

theorem StoreAllowed.cas {st : KVStore} (h : StoreAllowed S st) {key newValue : String}
    (hnew : S key newValue) (now : Int) (expected : String) (raftIndex : Nat) :
    StoreAllowed S (st.cas now key expected newValue raftIndex).1 := by
  intro k e he
  unfold KVStore.cas at he
  split at he
  · exact h k e he
  · split at he
    · exact h k e he
    · rw [Std.ExtTreeMap.getElem?_insert] at he
      split at he
      · rename_i hkey
        obtain rfl := Option.some.inj he
        rw [← (Std.LawfulEqCmp.compare_eq_iff_eq).mp hkey]
        exact hnew
      · exact h k e he

structure Sourced (S : String → String → Prop) (s : Service) : Prop where
  raft : EntriesAllowed S s.raft
  stores : ∀ i, StoreAllowed S (s.store i)
  threads : ∀ t ∈ s.threads, HonestThread S t.2

theorem Sourced.mono (hS : ∀ key value, S key value → S' key value) {s : Service}
    (h : Sourced S s) : Sourced S' s where
  raft :=
    { everywhere := h.raft.everywhere.mono fun _ hx hput => hS _ _ (hx hput)
      applied := fun i x hx hput => hS _ _ (h.raft.applied i x hx hput) }
  stores := fun i key e he => hS _ _ (h.stores i key e he)
  threads := fun t ht => (h.threads t ht).mono hS

theorem sourced_start : Sourced S {} where
  raft := ⟨everywhere_init allowed_noOp, fun _ _ h => absurd h (by simp [State.init])⟩
  stores := fun _ key e he => absurd he (by simp)
  threads := fun _ h => absurd h (by simp)

/-- What an honest thread's call leaves behind. -/
theorem Sourced.called {s : Service} (h : Sourced S s) {i : String} {thread : HandlerThread}
    (hthread : HonestThread S thread) {now : Int} {deadline : Bool} {called : Service.Called}
    (hcall : s.call c i now deadline thread = some called) :
    EntriesAllowed S called.raft ∧ StoreAllowed S called.store ∧ HonestThread S called.thread := by
  cases thread with
  | waiting id next =>
    simp only [Service.call, Option.bind_eq_bind, Option.bind_eq_some_iff] at hcall
    obtain ⟨n, _, proposal, _, result, _, raft, hraft, hcall⟩ := hcall
    cases hcall
    exact ⟨h.raft.act hraft (by simp), h.stores i, hthread result⟩
  | running handling =>
    cases handling with
    | respond response => exact absurd hcall (by simp [Service.call])
    | throws => exact absurd hcall (by simp [Service.call])
    | isLeader next | getLeaderId next =>
      simp only [Service.call, Option.bind_eq_bind, Option.bind_eq_some_iff] at hcall
      obtain ⟨n, _, hcall⟩ := hcall
      cases hcall
      exact ⟨h.raft, h.stores i, hthread _⟩
    | get key next =>
      cases hcall
      exact ⟨h.raft, h.stores i, hthread _⟩
    | cas key expected newValue raftIndex next =>
      cases hcall
      exact ⟨h.raft, (h.stores i).cas hthread.1 now expected raftIndex, hthread.2 _⟩
    | propose key value op ttlMs next =>
      simp only [Service.call, Option.bind_eq_bind, Option.bind_eq_some_iff] at hcall
      obtain ⟨n, _, raft, hraft, hcall⟩ := hcall
      have hentries : EntriesAllowed S raft := by
        apply h.raft.act hraft
        intro _ _ _ _ _ heq hop
        injection heq with _ hkey hvalue hop' _
        rw [← hkey, ← hvalue]
        exact hthread.1 (hop'.trans hop)
      split at hcall
      · cases hcall
        exact ⟨hentries, h.stores i, hthread.2 _⟩
      · cases hcall
        exact ⟨hentries, h.stores i, fun r => hthread.2 r⟩

/-- Proposals are made by handlers. -/
def byHandlers : ServiceEvent → Bool
  | .act (.propose ..) => false
  | _ => true

theorem Sourced.step {s s' : Service} {ev : ServiceEvent} (h : Sourced S s)
    (hev : byHandlers ev = true) (hasks : ∀ i route req, ev = .request i route req →
      ∀ key value, AsksFor c.json route req key value → S key value)
    (hstep : ev.step c s = some s') : Sourced S s' := by
  cases ev with
  | act a =>
    simp only [ServiceEvent.step, Option.ite_none_right_eq_some, Option.map_eq_some_iff] at hstep
    obtain ⟨-, raft, hraft, rfl⟩ := hstep
    refine ⟨h.raft.act hraft ?_, h.stores, h.threads⟩
    rintro _ _ _ _ _ rfl
    exact absurd hev (by simp [byHandlers])
  | drop k =>
    simp only [ServiceEvent.step, Option.map_eq_some_iff] at hstep
    obtain ⟨raft, hraft, rfl⟩ := hstep
    exact ⟨h.raft.drop hraft, h.stores, h.threads⟩
  | applyEntry i now =>
    simp only [ServiceEvent.step, Option.bind_eq_bind, Option.bind_eq_some_iff] at hstep
    obtain ⟨x, hx, hstep⟩ := hstep
    cases hstep
    refine ⟨h.raft, ?_, h.threads⟩
    exact (Function.forall_update_iff s.store fun _ st => StoreAllowed S st).mpr
      ⟨(h.stores i).applyEntry (h.raft.applied i x (List.mem_of_getElem? hx)) now,
        fun j _ => h.stores j⟩
  | request i route req =>
    cases hstep
    refine ⟨h.raft, h.stores, ?_⟩
    intro t ht
    rcases List.mem_append.mp ht with ht | ht
    · exact h.threads t ht
    · rw [List.mem_singleton.mp ht]
      exact Honest.mono (hasks i route req rfl) (handle_honest c.json req route)
  | call k now deadline =>
    simp only [ServiceEvent.step, Option.bind_eq_bind, Option.bind_eq_some_iff] at hstep
    obtain ⟨⟨i, thread⟩, hk, called, hcalled, hstep⟩ := hstep
    cases hstep
    obtain ⟨hraft, hstore, hthread⟩ :=
      h.called (h.threads _ (List.mem_of_getElem? hk)) hcalled
    refine ⟨hraft, ?_, ?_⟩
    · exact (Function.forall_update_iff s.store fun _ st => StoreAllowed S st).mpr
        ⟨hstore, fun j _ => h.stores j⟩
    · intro t ht
      rcases List.mem_or_eq_of_mem_set ht with ht | rfl
      · exact h.threads t ht
      · exact hthread

/-- **Nothing is read that nobody wrote**, without restarts: a value that a GET finds under a key
    on any node was asked for, under this key, by a PUT or a CAS request that reached a handler
    before. -/
theorem reads_were_written {tr : List (Service × ServiceEvent)} {s : Service}
    (run : Runs (ServiceEvent.step c) (fun _ ev => byHandlers ev = true) {} tr s) {i key : String}
    {now : Int} {e : KVEntry} (hget : (s.store i).get now key = some e) :
    ∃ s₀ j route req, (s₀, ServiceEvent.request j route req) ∈ tr ∧
      AsksFor c.json route req key e.value := by
  let S (tr : List (Service × ServiceEvent)) (key value : String) : Prop :=
    ∃ s₀ j route req, (s₀, ServiceEvent.request j route req) ∈ tr ∧
      AsksFor c.json route req key value
  have h : Sourced (S tr) s := by
    refine run.history (I := fun tr s => Sourced (S tr) s) ?_ sourced_start
    intro tr s ev s' h hev hstep
    have h' : Sourced (S (tr ++ [(s, ev)])) s := by
      refine h.mono ?_
      rintro key value ⟨s₀, j, route, req, hmem, hasks⟩
      exact ⟨s₀, j, route, req, List.mem_append_left _ hmem, hasks⟩
    refine h'.step hev ?_ hstep
    rintro j route req rfl key value hasks
    exact ⟨s, j, route, req, List.mem_append_right _ List.mem_cons_self, hasks⟩
  have hdata : (s.store i).data[key]? = some e := by
    unfold KVStore.get at hget
    split at hget
    · exact absurd hget (by simp)
    · rename_i x hx
      split at hget
      · exact absurd hget (by simp)
      · rw [hx, Option.some.inj hget]
  exact h.stores i key e hdata

theorem reads_were_written_put : ∃ tr s e,
    Runs (ServiceEvent.step three) (fun _ ev => byHandlers ev = true) {} tr s ∧
    (s.store "B").get 0 "k" = some e ∧ e.value = "v" ∧
    ∃ s₀ j route req, (s₀, ServiceEvent.request j route req) ∈ tr ∧
      AsksFor three.json route req "k" e.value := by
  obtain ⟨s, hs, h⟩ := (Option.any_eq_true _ _).mp
    (show (exec (ServiceEvent.step three) (fun _ ev => byHandlers ev = true) {} putApplied).any
      (fun s => ((s.store "B").get 0 "k").any fun e => decide (e.value = "v")) = true by
      decide +kernel)
  obtain ⟨e, hget, hvalue⟩ := (Option.any_eq_true _ _).mp h
  have run := runs_of_exec hs
  exact ⟨_, s, e, run, hget, of_decide_eq_true hvalue, reads_were_written run hget⟩

end Proof
end OrcDb
