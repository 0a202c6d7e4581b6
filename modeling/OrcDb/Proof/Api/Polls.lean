import OrcDb.Api.Polls
import OrcDb.Proof.Storage.WatchOrder

/-!
# What a long poll reports

`callbacks_alive`: a notification runs callbacks of handlers that have registered and not yet
removed theirs, and of nobody else. The callback writes to the handler's frame, so this is what
keeps it from writing to a frame that is gone.

`poll_answers`: the answer of a poll, from what was notified while it was there. It is a timeout
exactly if nothing that matches was notified from the registration to the end of the wait. If
something was, the answer is the last that was notified before `Unwatch`. What comes between a
timeout and `Unwatch` is dropped.
-/

set_option autoImplicit false

namespace OrcDb

/-- The callback is in `watches_`. -/
def Poll.registered (p : Poll) : Bool :=
  match p.stage with
  | .waiting _ => true
  | .waited _ _ => true
  | _ => false

/-- The handler is in `wait_for`. -/
def Poll.inWait (p : Poll) : Bool :=
  match p.stage with
  | .waiting _ => true
  | _ => false

namespace Proof

open Lib

variable {J : Json.Codec} {s s' : PolledStore} {ev : PollEvent} {k : Nat} {p : Poll}

/-- What a step can do. -/
inductive Polled (J : Json.Codec) (s : PolledStore) : PollEvent → PolledStore → Prop
  | mutate {now : Int} {m : Mutation} {store : ConcurrentStore}
      (step : s.store.step (.mutate now m) = some store) :
      Polled J s (.store (.mutate now m)) { s with store }
  | notify {thread : Nat} {t : Ticket} {rest : List Ticket} {store : ConcurrentStore}
      (pending : s.store.pending[thread]? = some (t :: rest))
      (step : s.store.step (.notify thread) = some store) :
      Polled J s (.store (.notify thread)) { s with store, polls := s.deliver t.change }
  | arrive {w : Watcher} : Polled J s (.arrive w) { s with polls := s.polls ++ [{ watcher := w }] }
  | number {k : Nat} {p : Poll} (poll : s.polls[k]? = some p) (stage : p.stage = .arrived) :
      Polled J s (.number k)
        { s with
          nextWatchId := s.nextWatchId + 1
          polls := s.polls.set k { p with stage := .numbered s.nextWatchId } }
  | register {k id : Nat} {p : Poll} (poll : s.polls[k]? = some p)
      (stage : p.stage = .numbered id) :
      Polled J s (.register k)
        { s with
          store := { s.store with watches := s.store.watches.insert id p.watcher }
          polls := s.polls.set k { p with stage := .waiting id } }
  | wake {k id : Nat} {p : Poll} {deadline : Bool} (poll : s.polls[k]? = some p)
      (stage : p.stage = .waiting id) :
      Polled J s (.wake k deadline)
        { s with polls := s.polls.set k { p with stage := .waited id p.fired } }
  | stay {k : Nat} {deadline : Bool} : Polled J s (.wake k deadline) s
  | unwatch {k id : Nat} {ok : Bool} {p : Poll} (poll : s.polls[k]? = some p)
      (stage : p.stage = .waited id ok) :
      Polled J s (.unwatch k)
        { s with
          store := { s.store with watches := s.store.watches.erase id }
          polls := s.polls.set k { p with stage := .answered id (p.response J ok) } }

theorem polled (h : s.step J ev = some s') : Polled J s ev s' := by
  cases ev with
  | store ev =>
    cases ev with
    | mutate now m =>
      simp only [PolledStore.step, Option.bind_eq_bind, Option.bind_eq_some_iff] at h
      obtain ⟨store, hstore, h⟩ := h
      cases h
      exact .mutate hstore
    | notify thread =>
      simp only [PolledStore.step, Option.bind_eq_bind, Option.bind_eq_some_iff] at h
      obtain ⟨store, hstore, t, ht, h⟩ := h
      cases h
      obtain ⟨t', rest, hpending, -⟩ := step_notify hstore
      rw [hpending] at ht
      obtain ⟨_, heq, hhead⟩ := ht
      cases heq
      cases hhead
      exact .notify hpending hstore
  | arrive w =>
    cases h
    exact .arrive
  | number k =>
    simp only [PolledStore.step, Option.bind_eq_bind, Option.bind_eq_some_iff] at h
    obtain ⟨p, hp, h⟩ := h
    split at h
    · rename_i hstage
      cases h
      exact .number hp hstage
    · exact absurd h (by simp)
  | register k =>
    simp only [PolledStore.step, Option.bind_eq_bind, Option.bind_eq_some_iff] at h
    obtain ⟨p, hp, h⟩ := h
    split at h
    · rename_i id hstage
      cases h
      exact .register hp hstage
    · exact absurd h (by simp)
  | wake k deadline =>
    simp only [PolledStore.step, Option.bind_eq_bind, Option.bind_eq_some_iff] at h
    obtain ⟨p, hp, h⟩ := h
    split at h
    · rename_i id hstage
      split at h
      · cases h
        exact .wake hp hstage
      · cases h
        exact .stay
    · exact absurd h (by simp)
  | unwatch k =>
    simp only [PolledStore.step, Option.bind_eq_bind, Option.bind_eq_some_iff] at h
    obtain ⟨p, hp, h⟩ := h
    split at h
    · rename_i id ok hstage
      cases h
      exact .unwatch hp hstage
    · exact absurd h (by simp)

/-! ## Ids and callbacks -/

structure PollsOk (s : PolledStore) : Prop where
  fresh : ∀ (k : Nat) (p : Poll) (id : Nat), s.polls[k]? = some p → p.stage.id? = some id →
    id < s.nextWatchId
  unique : ∀ (k k' : Nat) (p p' : Poll) (id : Nat), s.polls[k]? = some p →
    s.polls[k']? = some p' → p.stage.id? = some id → p'.stage.id? = some id → k = k'
  /-- A callback in `watches_` belongs to a handler that is still there. -/
  owned : ∀ (id : Nat) (w : Watcher), s.store.watches.lookup id = some w →
    ∃ (k : Nat) (p : Poll), s.polls[k]? = some p ∧ p.stage.id? = some id ∧
      p.registered = true ∧ p.watcher = w
  listed : ∀ (k : Nat) (p : Poll) (id : Nat), s.polls[k]? = some p → p.registered = true →
    p.stage.id? = some id → s.store.watches.lookup id = some p.watcher

theorem pollsOk_start (st : KVStore) : PollsOk { store := { store := st } } where
  fresh := fun _ _ _ h => absurd h (by simp)
  unique := fun _ _ _ _ _ h => absurd h (by simp)
  owned := fun _ _ h => absurd h (by simp)
  listed := fun _ _ _ h => absurd h (by simp)

theorem set_cases {polls : List Poll} {j : Nat} {q q' : Poll}
    (h : (polls.set k q)[j]? = some q') : j = k ∧ q' = q ∨ j ≠ k ∧ polls[j]? = some q' := by
  by_cases hj : j = k
  · subst hj
    rw [List.getElem?_set_self'] at h
    cases hq : polls[j]? with
    | none => rw [hq] at h; exact absurd h (by simp)
    | some x =>
      rw [hq] at h
      exact Or.inl ⟨rfl, (Option.some.inj h).symm⟩
  · rw [List.getElem?_set_ne (Ne.symm hj)] at h
    exact Or.inr ⟨hj, h⟩

theorem set_self {polls : List Poll} {q : Poll} (h : polls[k]? = some p) :
    (polls.set k q)[k]? = some q := by
  rw [List.getElem?_set_self']
  rw [h]
  rfl

theorem concat_cases {polls : List Poll} {j : Nat} {q q' : Poll}
    (h : (polls ++ [q])[j]? = some q') : polls[j]? = some q' ∨ q' = q := by
  by_cases hj : j < polls.length
  · rw [List.getElem?_append_left hj] at h
    exact Or.inl h
  · rw [List.getElem?_append_right (Nat.not_lt.mp hj)] at h
    exact Or.inr (List.mem_singleton.mp (List.mem_of_getElem? h))

/-- A poll goes on with the id it has, and `watches_` follows. -/
theorem PollsOk.set (h : PollsOk s) (hp : s.polls[k]? = some p) {q : Poll}
    (hw : q.watcher = p.watcher) (hid : q.stage.id? = p.stage.id?) {watches : Watches}
    (hother : ∀ id, p.stage.id? ≠ some id → watches.lookup id = s.store.watches.lookup id)
    (hown : ∀ id, p.stage.id? = some id →
      watches.lookup id = if q.registered then some p.watcher else none) :
    PollsOk { s with store := { s.store with watches }, polls := s.polls.set k q } where
  fresh := by
    intro j q' id hq' hid'
    rcases set_cases hq' with ⟨rfl, rfl⟩ | ⟨-, hold⟩
    · exact h.fresh j p id hp (hid ▸ hid')
    · exact h.fresh j q' id hold hid'
  unique := by
    intro j j' q₁ q₂ id hq₁ hq₂ hid₁ hid₂
    rcases set_cases hq₁ with ⟨rfl, rfl⟩ | ⟨-, hold₁⟩
    · rw [hid] at hid₁
      rcases set_cases hq₂ with ⟨rfl, -⟩ | ⟨-, hold₂⟩
      · rfl
      · exact h.unique _ _ _ _ id hp hold₂ hid₁ hid₂
    · rcases set_cases hq₂ with ⟨rfl, rfl⟩ | ⟨-, hold₂⟩
      · rw [hid] at hid₂
        exact h.unique _ _ _ _ id hold₁ hp hid₁ hid₂
      · exact h.unique _ _ _ _ id hold₁ hold₂ hid₁ hid₂
  owned := by
    intro id w hlook
    by_cases hpid : p.stage.id? = some id
    · rw [hown id hpid] at hlook
      split at hlook
      · rename_i hreg
        exact ⟨k, q, set_self hp, hid.trans hpid, hreg, hw.trans (Option.some.inj hlook)⟩
      · exact absurd hlook (by simp)
    · rw [hother id hpid] at hlook
      obtain ⟨j, p', hp', hid', hreg, hw'⟩ := h.owned id w hlook
      have hj : k ≠ j := by
        rintro rfl
        rw [hp] at hp'
        obtain rfl := Option.some.inj hp'
        exact hpid hid'
      exact ⟨j, p', by rw [List.getElem?_set_ne hj]; exact hp', hid', hreg, hw'⟩
  listed := by
    intro j q' id hq' hreg hid'
    rcases set_cases hq' with ⟨rfl, rfl⟩ | ⟨hj, hold⟩
    · rw [hid] at hid'
      rw [hown id hid', if_pos hreg, hw]
    · have hpid : p.stage.id? ≠ some id := fun hpid => hj (h.unique _ _ _ _ id hold hp hid' hpid)
      rw [hother id hpid]
      exact h.listed j q' id hold hreg hid'

/-- Callbacks change neither stages nor ids. -/
theorem deliver_cases {n : Notification} {j : Nat} {q : Poll}
    (h : (s.deliver n)[j]? = some q) :
    ∃ p, s.polls[j]? = some p ∧ q = if p.stage.id?.any (fun id => id ∈ s.store.watches.called n.key)
      then p.callback n else p := by
  unfold PolledStore.deliver at h
  rw [List.getElem?_map] at h
  obtain ⟨p, hp, rfl⟩ := Option.map_eq_some_iff.mp h
  exact ⟨p, hp, rfl⟩

theorem deliver_back {n : Notification} {j : Nat} {q : Poll}
    (hq : (s.deliver n)[j]? = some q) :
    ∃ p : Poll, s.polls[j]? = some p ∧ q.stage = p.stage ∧ q.watcher = p.watcher := by
  obtain ⟨p, hp, rfl⟩ := deliver_cases hq
  refine ⟨p, hp, ?_, ?_⟩
  · split
    · rfl
    · rfl
  · split
    · rfl
    · rfl

theorem deliver_forth (n : Notification) {j : Nat} (hp : s.polls[j]? = some p) :
    ∃ q : Poll, (s.deliver n)[j]? = some q ∧ q.stage = p.stage ∧ q.watcher = p.watcher := by
  obtain ⟨q, hq⟩ : ∃ q, (s.deliver n)[j]? = some q := by
    unfold PolledStore.deliver
    rw [List.getElem?_map, hp]
    exact ⟨_, rfl⟩
  obtain ⟨p', hp', hstage, hw⟩ := deliver_back hq
  rw [hp] at hp'
  obtain rfl := Option.some.inj hp'
  exact ⟨q, hq, hstage, hw⟩

theorem registered_congr {q : Poll} (h : q.stage = p.stage) : q.registered = p.registered := by
  unfold Poll.registered
  rw [h]

theorem PollsOk.deliver (h : PollsOk s) (n : Notification) {store : ConcurrentStore}
    (hwatches : store.watches = s.store.watches) :
    PollsOk { s with store, polls := s.deliver n } := by
  refine ⟨?_, ?_, ?_, ?_⟩
  · intro j q id hq hid
    obtain ⟨p, hp, hstage, -⟩ := deliver_back hq
    exact h.fresh j p id hp (hstage ▸ hid)
  · intro j j' q q' id hq hq' hid hid'
    obtain ⟨p, hp, hstage, -⟩ := deliver_back hq
    obtain ⟨p', hp', hstage', -⟩ := deliver_back hq'
    exact h.unique j j' p p' id hp hp' (hstage ▸ hid) (hstage' ▸ hid')
  · intro id w hlook
    have hlook : store.watches.lookup id = some w := hlook
    rw [hwatches] at hlook
    obtain ⟨j, p, hp, hid, hr, hw⟩ := h.owned id w hlook
    obtain ⟨q, hq, hstage, hw'⟩ := deliver_forth n hp
    exact ⟨j, q, hq, hstage ▸ hid, (registered_congr hstage).trans hr, hw'.trans hw⟩
  · intro j q id hq hr hid
    obtain ⟨p, hp, hstage, hw⟩ := deliver_back hq
    show store.watches.lookup id = some q.watcher
    rw [hwatches, hw]
    exact h.listed j p id hp ((registered_congr hstage).symm.trans hr) (hstage ▸ hid)

theorem PollsOk.arrive (h : PollsOk s) (w : Watcher) :
    PollsOk { s with polls := s.polls ++ [{ watcher := w }] } := by
  have hback : ∀ {j id : Nat} {q : Poll}, (s.polls ++ [{ watcher := w }])[j]? = some q →
      q.stage.id? = some id → s.polls[j]? = some q := by
    intro j id q hq hid
    rcases concat_cases hq with hq | rfl
    · exact hq
    · exact absurd hid (by simp [PollStage.id?])
  refine ⟨?_, ?_, ?_, ?_⟩
  · intro j q id hq hid
    exact h.fresh j q id (hback hq hid) hid
  · intro j j' q q' id hq hq' hid hid'
    exact h.unique j j' q q' id (hback hq hid) (hback hq' hid') hid hid'
  · intro id w' hlook
    obtain ⟨j, p, hp, hrest⟩ := h.owned id w' hlook
    have hlt := (List.getElem?_eq_some_iff.mp hp).1
    exact ⟨j, p, by rw [List.getElem?_append_left hlt]; exact hp, hrest⟩
  · intro j q id hq hreg hid
    exact h.listed j q id (hback hq hid) hreg hid

theorem PollsOk.number (h : PollsOk s) (hp : s.polls[k]? = some p) (hstage : p.stage = .arrived) :
    PollsOk { s with
      nextWatchId := s.nextWatchId + 1
      polls := s.polls.set k { p with stage := .numbered s.nextWatchId } } := by
  have hold : ∀ {j id : Nat} {q : Poll}, s.polls[j]? = some q → q.stage.id? = some id →
      id ≠ s.nextWatchId := by
    intro j id q hq hid
    exact Nat.ne_of_lt (h.fresh j q id hq hid)
  refine ⟨?_, ?_, ?_, ?_⟩
  · intro j q id hq hid
    rcases set_cases hq with ⟨-, rfl⟩ | ⟨-, hq⟩
    · obtain rfl := Option.some.inj hid
      exact Nat.lt_succ_self _
    · exact Nat.lt_succ_of_lt (h.fresh j q id hq hid)
  · intro j j' q q' id hq hq' hid hid'
    rcases set_cases hq with ⟨rfl, rfl⟩ | ⟨-, hold₁⟩
    · rcases set_cases hq' with ⟨rfl, -⟩ | ⟨-, hold₂⟩
      · rfl
      · exact absurd (Option.some.inj hid).symm (hold hold₂ hid')
    · rcases set_cases hq' with ⟨rfl, rfl⟩ | ⟨-, hold₂⟩
      · exact absurd (Option.some.inj hid').symm (hold hold₁ hid)
      · exact h.unique j j' q q' id hold₁ hold₂ hid hid'
  · intro id w hlook
    obtain ⟨j, q, hq, hid, hreg, hw⟩ := h.owned id w hlook
    have hj : k ≠ j := by
      rintro rfl
      rw [hp] at hq
      obtain rfl := Option.some.inj hq
      rw [hstage] at hid
      exact absurd hid (by simp [PollStage.id?])
    exact ⟨j, q, by rw [List.getElem?_set_ne hj]; exact hq, hid, hreg, hw⟩
  · intro j q id hq hreg hid
    rcases set_cases hq with ⟨-, rfl⟩ | ⟨-, hq⟩
    · exact absurd hreg (by simp [Poll.registered])
    · exact h.listed j q id hq hreg hid

theorem PollsOk.step (h : PollsOk s) (hstep : s.step J ev = some s') : PollsOk s' := by
  cases polled hstep with
  | mutate step =>
    obtain ⟨_, -, -, hwatches, -⟩ := step_mutate step
    refine ⟨h.fresh, h.unique, ?_, ?_⟩
    · rw [hwatches]
      exact h.owned
    · rw [hwatches]
      exact h.listed
  | notify pending step =>
    obtain ⟨_, _, -, rfl⟩ := step_notify step
    exact h.deliver _ rfl
  | @arrive w => exact h.arrive w
  | number poll stage => exact h.number poll stage
  | @register k id p poll stage =>
    refine h.set poll (q := { p with stage := .waiting id }) rfl (by rw [stage]; rfl) ?_ ?_
    · intro id' hne
      rw [stage] at hne
      rw [AList.lookup_insert_ne]
      rintro rfl
      exact hne rfl
    · intro id' heq
      rw [stage] at heq
      obtain rfl := Option.some.inj heq
      rw [AList.lookup_insert]
      rfl
  | @wake k id p deadline poll stage =>
    refine h.set poll (q := { p with stage := .waited id p.fired }) rfl (by rw [stage]; rfl)
      (fun _ _ => rfl) ?_
    intro id' heq
    exact h.listed k p id' poll (by simp [Poll.registered, stage]) heq
  | stay => exact h
  | @unwatch k id ok p poll stage =>
    refine h.set poll (q := { p with stage := .answered id (p.response J ok) }) rfl
      (by rw [stage]; rfl) ?_ ?_
    · intro id' hne
      rw [stage] at hne
      rw [AList.lookup_erase_ne]
      rintro rfl
      exact hne rfl
    · intro id' heq
      rw [stage] at heq
      obtain rfl := Option.some.inj heq
      rw [AList.lookup_erase]
      rfl

abbrev PollRun (J : Json.Codec) (st : KVStore) :=
  Runs (PolledStore.step J) (fun _ _ => True) { store := { store := st } }

variable {st : KVStore} {tr : List (PolledStore × PollEvent)}

theorem mem_called {watches : Watches} {key : String} {id : Nat} :
    id ∈ watches.called key ↔ (watches.lookup id).any (·.matches key) = true := by
  have hfilter : id ∈ (watches.called key).filter (· == id) ↔ id ∈ watches.called key := by
    simp [List.mem_filter]
  rw [← hfilter, called_filter]
  split
  · rename_i h
    simp [h]
  · rename_i h
    simp [h]

/-- A notification calls back a handler that has registered and not called `Unwatch`. -/
theorem PollsOk.called (h : PollsOk s) (hp : s.polls[k]? = some p) (key : String) :
    (p.stage.id?.any fun id => id ∈ s.store.watches.called key) =
      (p.registered && p.watcher.matches key) := by
  cases hid : p.stage.id? with
  | none =>
    have hreg : p.registered = false := by
      unfold Poll.registered
      split
      · rename_i hstage
        rw [hstage] at hid
        exact absurd hid (by simp [PollStage.id?])
      · rename_i hstage
        rw [hstage] at hid
        exact absurd hid (by simp [PollStage.id?])
      · rfl
    rw [hreg]
    rfl
  | some id =>
    apply Bool.eq_iff_iff.mpr
    rw [Option.any_some, decide_eq_true_eq, mem_called, Bool.and_eq_true]
    constructor
    · intro hany
      obtain ⟨w, hw, hmatch⟩ := (Option.any_eq_true _ _).mp hany
      obtain ⟨j, q, hq, hid', hreg, rfl⟩ := h.owned id w hw
      obtain rfl := h.unique _ _ _ _ id hp hq hid hid'
      rw [hp] at hq
      obtain rfl := Option.some.inj hq
      exact ⟨hreg, hmatch⟩
    · intro hboth
      rw [h.listed k p id hp hboth.1 hid]
      exact hboth.2

theorem PollRun.ok (run : PollRun J st tr s) : PollsOk s :=
  run.invariant (fun _ _ _ h _ hstep => h.step hstep) (pollsOk_start st)

/-- **Callbacks find their frames**: `NotifyWatchers` calls an id exactly if it belongs to a
    handler that watches the key, has registered and not yet called `Unwatch`. It never belongs
    to two. -/
theorem callbacks_alive (run : PollRun J st tr s) (key : String) (id : Nat) :
    id ∈ s.store.watches.called key ↔ ∃! k : Nat, ∃ p : Poll, s.polls[k]? = some p ∧
      p.stage.id? = some id ∧ p.registered = true ∧ p.watcher.matches key = true := by
  have hok : PollsOk s := PollRun.ok run
  constructor
  · intro hid
    obtain ⟨w, hw, hmatch⟩ := (Option.any_eq_true _ _).mp (mem_called.mp hid)
    obtain ⟨k, p, hp, hpid, hreg, rfl⟩ := hok.owned id w hw
    refine ⟨k, ⟨p, hp, hpid, hreg, hmatch⟩, ?_⟩
    intro k' hk'
    obtain ⟨p', hp', hid', -, -⟩ := hk'
    exact hok.unique k' k p' p id hp' hp hid' hpid
  · intro hex
    obtain ⟨k, ⟨p, hp, hid, hreg, hmatch⟩, -⟩ := hex
    have hany := hok.called hp key
    rw [hid, hreg, hmatch] at hany
    simpa using hany

/-- A poll of `k`. The key is put while it waits, and once more before it calls `Unwatch`. -/
def lateChange : List PollEvent :=
  [.arrive { keyOrPrefix := "k", isPrefix := false }, .number 0, .register 0,
    .store (.mutate 0 (.put "k" "v" 1 none)), .store (.notify 0), .wake 0 false,
    .store (.mutate 1 (.put "k" "w" 2 none)), .store (.notify 1)]

theorem callbacks_alive_late : ∃ tr s, PollRun Json.text {} tr s ∧
    1 ∈ s.store.watches.called "k" ∧ ∃! k : Nat, ∃ p : Poll, s.polls[k]? = some p ∧
      p.stage.id? = some 1 ∧ p.registered = true ∧ p.watcher.matches "k" = true := by
  obtain ⟨s, hs, hcalled⟩ := (Option.any_eq_true _ _).mp (show (exec (PolledStore.step Json.text)
    (fun _ _ => True) {} lateChange).any (fun s => decide (1 ∈ s.store.watches.called "k")) = true
      by decide +kernel)
  have run : PollRun Json.text {} _ s := runs_of_exec hs
  have hmem := decide_eq_true_eq.mp hcalled
  exact ⟨_, s, run, hmem, (callbacks_alive run "k" 1).mp hmem⟩

/-! ## What a poll hears -/

/-- What the step notifies of. -/
def tells (s : PolledStore) : PollEvent → Option Notification
  | .store (.notify thread) => (nextTicket s.store thread).map Ticket.change
  | _ => none

/-- What the step tells poll `k` of, if it is `live`. -/
def noticedBy (live : Poll → Bool) (k : Nat) (x : PolledStore × PollEvent) : Option Notification :=
  (tells x.1 x.2).filter fun n => x.1.polls[k]?.any fun p => live p && p.watcher.matches n.key

/-- What poll `k` was told while it was `live`, in order. -/
def noticed (live : Poll → Bool) (k : Nat) (tr : List (PolledStore × PollEvent)) :
    List Notification := tr.filterMap (noticedBy live k)

variable {live : Poll → Bool} {n : Notification}

theorem noticed_concat (x : PolledStore × PollEvent) :
    noticed live k (tr ++ [x]) = noticed live k tr ++ (noticedBy live k x).toList := by
  unfold noticed
  rw [List.filterMap_append]
  cases hx : noticedBy live k x with
  | none => simp [hx]
  | some n => simp [hx]

theorem noticed_quiet (h : tells s ev = none) :
    noticed live k (tr ++ [(s, ev)]) = noticed live k tr := by
  rw [noticed_concat]
  simp [noticedBy, h]

theorem noticed_absent (hp : s.polls[k]? = none) :
    noticed live k (tr ++ [(s, ev)]) = noticed live k tr := by
  rw [noticed_concat]
  simp [noticedBy, hp]

theorem noticed_told (h : tells s ev = some n) (hp : s.polls[k]? = some p) :
    noticed live k (tr ++ [(s, ev)]) =
      noticed live k tr ++ if live p && p.watcher.matches n.key then [n] else [] := by
  rw [noticed_concat]
  unfold noticedBy
  rw [h, hp, Option.filter_some]
  simp only [Option.any_some]
  split
  · rfl
  · rfl

theorem inWait_registered (h : p.inWait = true) : p.registered = true := by
  unfold Poll.inWait at h
  unfold Poll.registered
  split at h
  · rename_i hstage
    rw [hstage]
  · exact absurd h (by simp)

/-- What is heard in the wait is heard. -/
theorem noticed_inWait (h : n ∈ noticed Poll.inWait k tr) : n ∈ noticed Poll.registered k tr := by
  obtain ⟨x, hx, hby⟩ := List.mem_filterMap.mp h
  apply List.mem_filterMap.mpr
  refine ⟨x, hx, ?_⟩
  obtain ⟨hn, hany⟩ := Option.filter_eq_some_iff.mp hby
  apply Option.filter_eq_some_iff.mpr
  refine ⟨hn, ?_⟩
  obtain ⟨p, hp, hlive⟩ := (Option.any_eq_true _ _).mp hany
  apply (Option.any_eq_true _ _).mpr
  rw [Bool.and_eq_true] at hlive
  exact ⟨p, hp, by rw [inWait_registered hlive.1, hlive.2]; rfl⟩

/-- The three locals after the callback was called with these. -/
def localsAfter (ns : List Notification) : Bool × String × Option KVEntry :=
  match ns.getLast? with
  | none => (false, "", none)
  | some n => (true, n.key, n.value)

/-- Where the handler is, by what it heard `inTime` and in `all`. -/
def StageFits (J : Json.Codec) (inTime all : List Notification) : PollStage → Prop
  | .arrived => inTime = [] ∧ all = []
  | .numbered _ => inTime = [] ∧ all = []
  | .waiting _ => inTime = all
  | .waited _ ok => ok = !inTime.isEmpty
  | .answered _ r => (inTime = [] → r = .noContent) ∧
      (inTime ≠ [] → ∃ n, all.getLast? = some n ∧
        r = .ok (J.dump (WatchHandler.report n.key n.value)))

structure Records (J : Json.Codec) (tr : List (PolledStore × PollEvent)) (k : Nat) (p : Poll) :
    Prop where
  locals : (p.fired, p.changedKey, p.changedEntry) = localsAfter (noticed Poll.registered k tr)
  stage : StageFits J (noticed Poll.inWait k tr) (noticed Poll.registered k tr) p.stage

structure Kept (J : Json.Codec) (tr : List (PolledStore × PollEvent)) (s : PolledStore) :
    Prop where
  ok : PollsOk s
  absent : ∀ (k : Nat) (live : Poll → Bool), s.polls[k]? = none → noticed live k tr = []
  records : ∀ (k : Nat) (p : Poll), s.polls[k]? = some p → Records J tr k p

theorem Records.quiet (h : Records J tr k p) (hquiet : tells s ev = none) :
    Records J (tr ++ [(s, ev)]) k p := by
  refine ⟨?_, ?_⟩
  · rw [noticed_quiet hquiet]
    exact h.locals
  · rw [noticed_quiet hquiet, noticed_quiet hquiet]
    exact h.stage

/-- One handler goes on while nobody is notified. -/
theorem Kept.set (h : Kept J tr s) (hp : s.polls[k]? = some p) {q : Poll}
    (hok : PollsOk s') (hpolls : s'.polls = s.polls.set k q) (hquiet : tells s ev = none)
    (hlocals : (q.fired, q.changedKey, q.changedEntry) = (p.fired, p.changedKey, p.changedEntry))
    (hstage : StageFits J (noticed Poll.inWait k tr) (noticed Poll.registered k tr) q.stage) :
    Kept J (tr ++ [(s, ev)]) s' where
  ok := hok
  absent := by
    intro j live hj
    rw [noticed_quiet hquiet]
    apply h.absent
    rw [hpolls, List.getElem?_eq_none_iff, List.length_set] at hj
    exact List.getElem?_eq_none_iff.mpr hj
  records := by
    intro j q' hq'
    rw [hpolls] at hq'
    rcases set_cases hq' with ⟨rfl, rfl⟩ | ⟨-, hold⟩
    · have hnew : Records J tr j q' := ⟨hlocals.trans (h.records j p hp).locals, hstage⟩
      exact hnew.quiet hquiet
    · exact (h.records j q' hold).quiet hquiet

theorem Kept.quiet (h : Kept J tr s) (hok : PollsOk s') (hpolls : s'.polls = s.polls)
    (hquiet : tells s ev = none) : Kept J (tr ++ [(s, ev)]) s' where
  ok := hok
  absent := by
    intro j live hj
    rw [hpolls] at hj
    rw [noticed_quiet hquiet]
    exact h.absent j live hj
  records := by
    intro j q hq
    rw [hpolls] at hq
    exact (h.records j q hq).quiet hquiet

theorem localsAfter_concat (ns : List Notification) (n : Notification) :
    localsAfter (ns ++ [n]) = (true, n.key, n.value) := by
  unfold localsAfter
  rw [List.getLast?_concat]

theorem localsAfter_fired (ns : List Notification) : (localsAfter ns).1 = !ns.isEmpty := by
  unfold localsAfter
  split
  · rename_i h
    rw [List.getLast?_eq_none_iff.mp h]
    rfl
  · rename_i n h
    have hne : ns ≠ [] := List.ne_nil_of_mem (List.mem_of_getLast? h)
    rw [List.isEmpty_eq_false_iff.mpr hne]
    rfl

/-- The callback, as the lists see it. -/
theorem Records.told (h : Records J tr k p) (hn : tells s ev = some n)
    (hp : s.polls[k]? = some p) :
    Records J (tr ++ [(s, ev)]) k
      (if p.registered && p.watcher.matches n.key then p.callback n else p) := by
  cases hmatch : p.watcher.matches n.key with
  | false =>
    have hsame : ∀ live, noticed live k (tr ++ [(s, ev)]) = noticed live k tr := by
      intro live
      rw [noticed_told hn hp, hmatch]
      simp
    rw [Bool.and_false, if_neg Bool.false_ne_true]
    refine ⟨?_, ?_⟩
    · rw [hsame]
      exact h.locals
    · rw [hsame, hsame]
      exact h.stage
  | true =>
    have hmore : ∀ live, noticed live k (tr ++ [(s, ev)]) =
        noticed live k tr ++ if live p then [n] else [] := by
      intro live
      rw [noticed_told hn hp, hmatch, Bool.and_true]
    have hstage := h.stage
    rw [Bool.and_true]
    cases hst : p.stage with
    | waiting id =>
      have hreg : p.registered = true := by simp [Poll.registered, hst]
      have hin : p.inWait = true := by simp [Poll.inWait, hst]
      rw [hst] at hstage
      rw [if_pos hreg]
      refine ⟨?_, ?_⟩
      · rw [hmore, if_pos hreg, localsAfter_concat]
        rfl
      · rw [hmore, hmore, if_pos hreg, if_pos hin]
        show StageFits J _ _ p.stage
        rw [hst]
        exact congrArg (· ++ [n]) hstage
    | waited id ok =>
      have hreg : p.registered = true := by simp [Poll.registered, hst]
      have hin : ¬ p.inWait = true := by simp [Poll.inWait, hst]
      rw [hst] at hstage
      rw [if_pos hreg]
      refine ⟨?_, ?_⟩
      · rw [hmore, if_pos hreg, localsAfter_concat]
        rfl
      · rw [hmore, hmore, if_pos hreg, if_neg hin, List.append_nil]
        show StageFits J _ _ p.stage
        rw [hst]
        exact hstage
    | _ =>
      -- Not registered: nothing is heard.
      have hreg : ¬ p.registered = true := by simp [Poll.registered, hst]
      have hin : ¬ p.inWait = true := by simp [Poll.inWait, hst]
      rw [if_neg hreg]
      refine ⟨?_, ?_⟩
      · rw [hmore, if_neg hreg, List.append_nil]
        exact h.locals
      · rw [hmore, hmore, if_neg hreg, if_neg hin, List.append_nil, List.append_nil]
        exact h.stage

theorem Kept.deliver (h : Kept J tr s) (hn : tells s ev = some n) (hok : PollsOk s')
    (hpolls : s'.polls = s.deliver n) : Kept J (tr ++ [(s, ev)]) s' where
  ok := hok
  absent := by
    intro j live hj
    rw [hpolls, List.getElem?_eq_none_iff, PolledStore.deliver, List.length_map] at hj
    have hold : s.polls[j]? = none := List.getElem?_eq_none_iff.mpr hj
    rw [noticed_absent hold]
    exact h.absent j live hold
  records := by
    intro j q hq
    rw [hpolls] at hq
    obtain ⟨p, hp, rfl⟩ := deliver_cases hq
    rw [h.ok.called hp]
    exact (h.records j p hp).told hn hp

theorem Kept.arrive (h : Kept J tr s) (hok : PollsOk s') {w : Watcher}
    (hpolls : s'.polls = s.polls ++ [{ watcher := w }]) (hquiet : tells s ev = none) :
    Kept J (tr ++ [(s, ev)]) s' where
  ok := hok
  absent := by
    intro j live hj
    rw [hpolls, List.getElem?_eq_none_iff, List.length_append] at hj
    rw [noticed_quiet hquiet]
    exact h.absent j live (List.getElem?_eq_none_iff.mpr (Nat.le_of_add_right_le hj))
  records := by
    intro j q hq
    rw [hpolls] at hq
    rcases Nat.lt_or_ge j s.polls.length with hlt | hge
    · rw [List.getElem?_append_left hlt] at hq
      exact (h.records j q hq).quiet hquiet
    · have hnone : s.polls[j]? = none := List.getElem?_eq_none_iff.mpr hge
      rw [List.getElem?_append_right hge] at hq
      obtain rfl := List.mem_singleton.mp (List.mem_of_getElem? hq)
      have hnew : Records J tr j { watcher := w } :=
        ⟨by rw [h.absent j _ hnone]; rfl, h.absent j _ hnone, h.absent j _ hnone⟩
      exact hnew.quiet hquiet

/-- What the handler returns, from the lists. -/
theorem Records.answer {id : Nat} {ok : Bool} (h : Records J tr k p)
    (hstage : p.stage = .waited id ok) :
    StageFits J (noticed Poll.inWait k tr) (noticed Poll.registered k tr)
      (.answered id (p.response J ok)) := by
  have hok : ok = !(noticed Poll.inWait k tr).isEmpty := by
    have hfits := h.stage
    rw [hstage] at hfits
    exact hfits
  refine ⟨?_, ?_⟩
  · intro hnil
    rw [hnil] at hok
    rw [hok]
    rfl
  · intro hne
    obtain ⟨x, hx⟩ := List.exists_mem_of_ne_nil _ hne
    have hall : noticed Poll.registered k tr ≠ [] := List.ne_nil_of_mem (noticed_inWait hx)
    obtain ⟨n, hn⟩ : ∃ n, (noticed Poll.registered k tr).getLast? = some n :=
      ⟨_, List.getLast?_eq_some_getLast hall⟩
    have hlocals := h.locals
    unfold localsAfter at hlocals
    rw [hn] at hlocals
    obtain ⟨-, hrest⟩ := Prod.mk.inj hlocals
    obtain ⟨hkey, hentry⟩ := Prod.mk.inj hrest
    refine ⟨n, hn, ?_⟩
    have htrue : ok = true := by
      rw [hok, Bool.not_eq_true', List.isEmpty_eq_false_iff]
      exact hne
    unfold Poll.response
    rw [htrue, if_neg (by simp), hkey, hentry]

theorem Kept.step (h : Kept J tr s) (hstep : s.step J ev = some s') :
    Kept J (tr ++ [(s, ev)]) s' := by
  have hok := h.ok.step hstep
  cases polled hstep with
  | mutate step =>
    exact h.quiet hok rfl rfl
  | @notify thread t rest store pending step =>
    have hn : tells s (.store (.notify thread)) = some t.change := by
      simp [tells, nextTicket, pending]
    exact h.deliver hn hok rfl
  | arrive => exact h.arrive hok rfl rfl
  | @number k p poll stage =>
    have hfits := (h.records k p poll).stage
    rw [stage] at hfits
    exact h.set poll hok rfl rfl rfl hfits
  | @register k id p poll stage =>
    have hfits := (h.records k p poll).stage
    rw [stage] at hfits
    exact h.set poll hok rfl rfl rfl (hfits.1.trans hfits.2.symm)
  | @wake k id p deadline poll stage =>
    have hfits := (h.records k p poll).stage
    rw [stage] at hfits
    refine h.set poll hok rfl rfl rfl ?_
    show p.fired = !(noticed Poll.inWait k tr).isEmpty
    have hinTime : noticed Poll.inWait k tr = noticed Poll.registered k tr := hfits
    rw [hinTime, ← localsAfter_fired, ← (h.records k p poll).locals]
  | stay => exact h.quiet hok rfl rfl
  | @unwatch k id ok p poll stage =>
    exact h.set poll hok rfl rfl rfl ((h.records k p poll).answer stage)

/-! ## Where it comes from -/

/-- What is due is a change that was made. -/
def Due (s : PolledStore) : Prop := ∀ l ∈ s.store.pending, ∀ t ∈ l, t ∈ s.store.history

/-- What a later state keeps of an earlier one. -/
structure Continues (s s' : PolledStore) : Prop where
  history : s.store.history <+: s'.store.history
  watcher : ∀ (k : Nat) (p : Poll), s.polls[k]? = some p →
    ∃ p' : Poll, s'.polls[k]? = some p' ∧ p'.watcher = p.watcher

theorem continues_set (hp : s.polls[k]? = some p) {q : Poll}
    (hpolls : s'.polls = s.polls.set k q) (hq : q.watcher = p.watcher)
    (hhistory : s'.store.history = s.store.history) :
    Continues s s' where
  history := by
    rw [hhistory]
  watcher := by
    intro j p' hp'
    rw [hpolls]
    by_cases hj : k = j
    · subst hj
      rw [hp] at hp'
      obtain rfl := Option.some.inj hp'
      exact ⟨q, set_self hp, hq⟩
    · exact ⟨p', by rw [List.getElem?_set_ne hj]; exact hp', rfl⟩

theorem due_step (h : Due s) (hstep : s.step J ev = some s') : Due s' ∧ Continues s s' := by
  cases polled hstep with
  | mutate step =>
    obtain ⟨tickets, -, -, -, -, hhistory, hpending⟩ := step_mutate step
    refine ⟨?_, ?_, ?_⟩
    · intro l hl t ht
      show t ∈ _
      rw [hhistory]
      rw [hpending] at hl
      rcases List.mem_append.mp hl with hl | hl
      · exact List.mem_append_left _ (h l hl t ht)
      · rw [List.mem_singleton.mp hl] at ht
        exact List.mem_append_right _ ht
    · show _ <+: _
      rw [hhistory]
      exact List.prefix_append _ _
    · intro j p hp
      exact ⟨p, hp, rfl⟩
  | @notify thread t rest store pending step =>
    obtain ⟨t', rest', hpending, rfl⟩ := step_notify step
    refine ⟨?_, List.prefix_rfl, ?_⟩
    · intro l hl t₁ ht₁
      rcases List.mem_or_eq_of_mem_set hl with hl | rfl
      · exact h l hl t₁ ht₁
      · exact h _ (List.mem_of_getElem? hpending) t₁ (List.mem_cons_of_mem _ ht₁)
    · intro j p hp
      obtain ⟨q, hq, -, hw⟩ := deliver_forth t.change hp
      exact ⟨q, hq, hw⟩
  | arrive =>
    refine ⟨h, List.prefix_rfl, ?_⟩
    intro j p hp
    have hlt := (List.getElem?_eq_some_iff.mp hp).1
    exact ⟨p, by rw [List.getElem?_append_left hlt]; exact hp, rfl⟩
  | number poll stage => exact ⟨h, continues_set poll rfl rfl rfl⟩
  | register poll stage => exact ⟨h, continues_set poll rfl rfl rfl⟩
  | wake poll stage => exact ⟨h, continues_set poll rfl rfl rfl⟩
  | stay => exact ⟨h, List.prefix_rfl, fun j p hp => ⟨p, hp, rfl⟩⟩
  | unwatch poll stage => exact ⟨h, continues_set poll rfl rfl rfl⟩

/-- What a poll hears is a change that was made, of a key it watches. -/
theorem noticed_made (run : PollRun J st tr s) (hp : s.polls[k]? = some p)
    (hn : n ∈ noticed live k tr) :
    p.watcher.matches n.key = true ∧ ∃ t ∈ s.store.history, t.change = n := by
  obtain ⟨⟨s₁, ev⟩, hx, hby⟩ := List.mem_filterMap.mp hn
  obtain ⟨htells, hany⟩ := Option.filter_eq_some_iff.mp hby
  obtain ⟨p₁, hp₁, hlive⟩ := (Option.any_eq_true _ _).mp hany
  obtain ⟨tr₁, s₂, tr₂, run₁, -, hstep, run₂⟩ := run.split hx
  have hdue : Due s₁ := by
    refine run₁.invariant (fun _ _ _ h _ hstep => (due_step h hstep).1) ?_
    intro l hl
    exact absurd hl (by simp)
  have hgrows : Continues s₁ s := by
    refine (Runs.tail (.refl s₁) trivial hstep |>.trans run₂).monotone (I := Due) ?_ ?_ ?_ hdue
    · intro x
      exact ⟨List.prefix_rfl, fun j q hq => ⟨q, hq, rfl⟩⟩
    · intro x y z hxy hyz
      refine ⟨hxy.history.trans hyz.history, ?_⟩
      intro j q hq
      obtain ⟨q', hq', hw⟩ := hxy.watcher j q hq
      obtain ⟨q'', hq'', hw'⟩ := hyz.watcher j q' hq'
      exact ⟨q'', hq'', hw'.trans hw⟩
    · intro x ev y hx _ hstep
      exact due_step hx hstep
  obtain ⟨p', hp', hw⟩ := hgrows.watcher k p₁ hp₁
  rw [hp] at hp'
  obtain rfl := Option.some.inj hp'
  refine ⟨?_, ?_⟩
  · rw [hw]
    exact (Bool.and_eq_true _ _ ▸ hlive).2
  · cases ev with
    | store ev =>
      cases ev with
      | mutate now m => exact absurd htells (by simp [tells])
      | notify thread =>
        obtain ⟨t, ht, rfl⟩ := Option.map_eq_some_iff.mp htells
        obtain ⟨l, hl, hhead⟩ := Option.bind_eq_some_iff.mp ht
        have hmem := hdue l (List.mem_of_getElem? hl) t (List.mem_of_mem_head? hhead)
        exact ⟨t, hgrows.history.subset hmem, rfl⟩
    | _ => exact absurd htells (by simp [tells])

theorem PollRun.kept (run : PollRun J st tr s) : Kept J tr s := by
  refine run.history (fun _ _ _ _ h _ hstep => h.step hstep) ?_
  exact ⟨pollsOk_start st, fun _ _ _ => rfl, fun _ _ h => absurd h (by simp)⟩

/-- **What a long poll answers**: that the time is up exactly if nothing it watches was notified
    from its registration to the end of its wait, and otherwise the last change it was told of
    before `Unwatch`. That is a change that was made, of a key it watches. -/
theorem poll_answers (run : PollRun J st tr s) (hp : s.polls[k]? = some p) {id : Nat}
    {r : HttpResponse} (hstage : p.stage = .answered id r) :
    (noticed Poll.inWait k tr = [] → r = .noContent) ∧
    (noticed Poll.inWait k tr ≠ [] → ∃ n, (noticed Poll.registered k tr).getLast? = some n ∧
      r = .ok (J.dump (WatchHandler.report n.key n.value)) ∧
      p.watcher.matches n.key = true ∧ ∃ t ∈ s.store.history, t.change = n) := by
  have hfits := ((PollRun.kept run).records k p hp).stage
  rw [hstage] at hfits
  refine ⟨hfits.1, ?_⟩
  intro hne
  obtain ⟨n, hlast, hr⟩ := hfits.2 hne
  exact ⟨n, hlast, hr, noticed_made run hp (List.mem_of_getLast? hlast)⟩

/-- The answer is of the second change. -/
theorem poll_answers_late : ∃ (tr : List (PolledStore × PollEvent)) (s : PolledStore) (p : Poll)
    (n : Notification), PollRun Json.text {} tr s ∧ s.polls[0]? = some p ∧
      (noticed Poll.registered 0 tr).getLast? = some n ∧ n.value.map KVEntry.value = some "w" ∧
      p.stage = .answered 1 (.ok (Json.text.dump (WatchHandler.report n.key n.value))) := by
  obtain ⟨s, hs, hok⟩ := (Option.any_eq_true _ _).mp (show (exec (PolledStore.step Json.text)
    (fun _ _ => True) {} (lateChange ++ [.unwatch 0])).any (fun s => s.polls[0]?.any (fun p =>
      match p.stage with
      | .answered 1 _ => true
      | _ => false)) = true by decide +kernel)
  have hheard : decide (noticed Poll.inWait 0 (traceOf (PolledStore.step Json.text) {}
      (lateChange ++ [.unwatch 0])) ≠ []) = true := by decide +kernel
  have hlast : ((noticed Poll.registered 0 (traceOf (PolledStore.step Json.text) {}
      (lateChange ++ [.unwatch 0]))).getLast?.all fun n =>
        decide (n.value.map KVEntry.value = some "w")) = true := by decide +kernel
  have run : PollRun Json.text {} _ s := runs_of_exec hs
  obtain ⟨p, hp, hstage⟩ := (Option.any_eq_true _ _).mp hok
  split at hstage
  · rename_i r hst
    obtain ⟨n, hn, hr, -, -⟩ := (poll_answers run hp hst).2 (decide_eq_true_eq.mp hheard)
    rw [hn, Option.all_some, decide_eq_true_eq] at hlast
    exact ⟨_, s, p, n, run, hp, hn, hlast, by rw [hst, hr]⟩
  · exact absurd hstage (by simp)

end Proof
end OrcDb
