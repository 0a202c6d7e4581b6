import OrcDb.Proof.Storage.Watch
import OrcDb.Lib.Run

/-!
# Writers in parallel, as a watcher sees them

Between leaving `mu_` and taking `watchMu_` a writing call holds no lock, and another call may
change the same key and notify first. A watcher is then told of the two changes in the
reverse order, and the last thing it hears is not what the store holds
(`notified_in_order_fails`).

What keeps the order is that calls reach `NotifyWatchers` in the order in which they changed
the key (`OldestFirst`). The tickets of one key are three lists: those told, those
pending, and the history, of which the other two are a rearrangement (`Accounted`). As long
as what is told is the first part of the history, a ticket continues it exactly if it is the
oldest one pending (`next_iff_oldest`).
-/

set_option autoImplicit false

namespace OrcDb
namespace Proof

open Lib

def ofKey (k : String) (ts : List Ticket) : List Ticket :=
  ts.filter fun t => t.change.key = k

/-- The watcher has heard of the changes of each key it watches in the order they were made,
    without a gap. -/
def InOrder (id : Nat) (w : Watcher) (s : ConcurrentStore) : Prop :=
  ∀ k, w.matches k = true → ofKey k (s.received id) <+: ofKey k s.history

/-- What a thread notifies of next. -/
def nextTicket (s : ConcurrentStore) (thread : Nat) : Option Ticket :=
  s.pending[thread]?.bind List.head?

/-- Whoever notifies of a key that is watched is the one that changed it first, of those that
    have still to notify of it. -/
def OldestFirst (w : Watcher) (s : ConcurrentStore) : StoreEvent → Prop
  | .mutate _ _ => True
  | .notify thread => ∀ t ∈ nextTicket s thread, w.matches t.change.key = true →
      ∀ t' ∈ ofKey t.change.key s.pending.flatten, t.number ≤ t'.number

instance (w : Watcher) (s : ConcurrentStore) : ∀ ev, Decidable (OldestFirst w s ev)
  | .mutate _ _ => isTrue trivial
  | .notify thread => inferInstanceAs (Decidable (∀ t ∈ nextTicket s thread,
      w.matches t.change.key = true →
        ∀ t' ∈ ofKey t.change.key s.pending.flatten, t.number ≤ t'.number))

variable {s s' : ConcurrentStore} {id : Nat} {w : Watcher} {k : String} {t : Ticket}

@[simp]
theorem ofKey_append (k : String) (ts ts' : List Ticket) :
    ofKey k (ts ++ ts') = ofKey k ts ++ ofKey k ts' := List.filter_append _ _

theorem ofKey_cons_self (ts : List Ticket) :
    ofKey t.change.key (t :: ts) = t :: ofKey t.change.key ts := by
  simp [ofKey]

theorem ofKey_cons_ne (hk : t.change.key ≠ k) (ts : List Ticket) :
    ofKey k (t :: ts) = ofKey k ts := by
  simp [ofKey, hk]

/-! ## One step -/

theorem step_mutate {now : Int} {m : Mutation} (h : s.step (.mutate now m) = some s') :
    ∃ tickets, tickets.map Ticket.change = diff s.store.data s'.store.data ∧
      (∀ i t, tickets[i]? = some t → t.number = s.history.length + i) ∧
      s'.watches = s.watches ∧ s'.calls = s.calls ∧ s'.history = s.history ++ tickets ∧
      s'.pending = s.pending ++ [tickets] := by
  have hchanges : ∀ n cs, (ConcurrentStore.number n cs).map Ticket.change = cs := by
    intro n cs
    induction cs generalizing n with
    | nil => rfl
    | cons c cs ih => simp [ConcurrentStore.number, ih]
  have hnumbers : ∀ cs n i t, (ConcurrentStore.number n cs)[i]? = some t → t.number = n + i := by
    intro cs
    induction cs with
    | nil => intro n i t ht; simp [ConcurrentStore.number] at ht
    | cons c cs ih =>
      intro n i t ht
      cases i with
      | zero =>
        simp only [ConcurrentStore.number, List.getElem?_cons_zero, Option.some.injEq] at ht
        rw [← ht, Nat.add_zero]
      | succ i =>
        rw [ih (n + 1) i t ht]
        omega
  simp only [ConcurrentStore.step, Option.some.injEq] at h
  subst h
  exact ⟨_, by rw [hchanges, mutate_due], hnumbers _ _, rfl, rfl, rfl, rfl⟩

theorem step_notify {thread : Nat} (h : s.step (.notify thread) = some s') :
    ∃ t rest, s.pending[thread]? = some (t :: rest) ∧ s' = { s with
      pending := s.pending.set thread rest
      calls := s.calls ++ (s.watches.called t.change.key).map fun id => (id, t) } := by
  simp only [ConcurrentStore.step] at h
  split at h
  · rename_i t rest hpending
    cases h
    exact ⟨t, rest, hpending, rfl⟩
  · exact absurd h (by simp)

/-- A notification leaves the pending ones. -/
theorem flatten_set {α : Type} {x : α} {rest : List α} :
    ∀ {ls : List (List α)} {i : Nat}, ls[i]? = some (x :: rest) →
      ls.flatten.Perm (x :: (ls.set i rest).flatten)
  | [], i, h => absurd h (by simp)
  | l :: ls, 0, h => by
    simp only [List.getElem?_cons_zero, Option.some.injEq] at h
    subst h
    exact List.Perm.refl _
  | l :: ls, i + 1, h => by
    simp only [List.set_cons_succ, List.flatten_cons]
    rw [List.getElem?_cons_succ] at h
    exact ((flatten_set h).append_left l).trans List.perm_middle

/-! ## Where the tickets are -/

/-- Every change of a watched key has been told or is pending. -/
structure Accounted (id : Nat) (w : Watcher) (d : Std.ExtTreeMap String KVEntry)
    (s : ConcurrentStore) : Prop where
  watches : s.watches.lookup id = some w
  number : ∀ (i : Nat) (t : Ticket), s.history[i]? = some t → t.number = i
  told : ∀ k, w.matches k = true →
    (ofKey k (s.received id) ++ ofKey k s.pending.flatten).Perm (ofKey k s.history)
  data : patch d (s.history.map Ticket.change) = s.store.data

namespace Accounted

variable {d : Std.ExtTreeMap String KVEntry}

/-- The history of a key in the order of its tickets. -/
theorem ordered (h : Accounted id w d s) (k : String) :
    (ofKey k s.history).Pairwise fun t t' => t.number < t'.number := by
  refine List.Pairwise.filter _ ?_
  rw [List.pairwise_iff_getElem]
  intro i j hi hj hij
  rw [h.number i _ (List.getElem?_eq_getElem hi), h.number j _ (List.getElem?_eq_getElem hj)]
  exact hij

theorem mutate {now : Int} {m : Mutation} (h : Accounted id w d s)
    (hstep : s.step (.mutate now m) = some s') : Accounted id w d s' := by
  obtain ⟨tickets, hchanges, hnumber, hwatches, hcalls, hhistory, hpending⟩ := step_mutate hstep
  exact
    { watches := by rw [hwatches]; exact h.watches
      number := by
        intro i t ht
        rw [hhistory] at ht
        rcases Nat.lt_or_ge i s.history.length with hlt | hge
        · rw [List.getElem?_append_left hlt] at ht
          exact h.number i t ht
        · rw [List.getElem?_append_right hge] at ht
          rw [hnumber _ t ht]
          omega
      told := by
        intro k hk
        rw [ConcurrentStore.received, hcalls, hhistory, hpending]
        simp only [List.flatten_append, List.flatten_cons, List.flatten_nil, List.append_nil,
          ofKey_append]
        rw [← List.append_assoc]
        exact (h.told k hk).append_right _
      data := by rw [hhistory, List.map_append, patch_append, h.data, hchanges, patch_diff] }

theorem received_notify (h : Accounted id w d s) {pending : List (List Ticket)} :
    ConcurrentStore.received { s with
      pending
      calls := s.calls ++ (s.watches.called t.change.key).map fun id => (id, t) } id =
        s.received id ++ if w.matches t.change.key then [t] else [] := by
  simp only [ConcurrentStore.received, List.filter_append, List.map_append, received_called,
    h.watches, Option.any_some]

theorem notify {thread : Nat} (h : Accounted id w d s)
    (hstep : s.step (.notify thread) = some s') : Accounted id w d s' := by
  obtain ⟨t, rest, hnext, rfl⟩ := step_notify hstep
  refine { watches := h.watches, number := h.number, data := h.data, told := ?_ }
  intro k hk
  rw [h.received_notify]
  have hleft : (ofKey k s.pending.flatten).Perm
      (ofKey k (t :: (s.pending.set thread rest).flatten)) :=
    (flatten_set hnext).filter _
  refine List.Perm.trans ?_ (h.told k hk)
  rw [ofKey_append, List.append_assoc]
  refine List.Perm.append_left _ (List.Perm.trans ?_ hleft.symm)
  by_cases hkey : t.change.key = k
  · subst hkey
    rw [if_pos hk, ofKey_cons_self, ofKey_cons_self]
    exact List.Perm.refl _
  · rw [ofKey_cons_ne hkey]
    split
    · rw [ofKey_cons_ne hkey]
      exact List.Perm.refl _
    · exact List.Perm.refl _

end Accounted

/-! ## Order -/

/-- Behind the first part of an ordered list comes the least of the rest. -/
theorem next_iff_oldest {told pending history : List Ticket}
    (hord : history.Pairwise fun t t' => t.number < t'.number)
    (hperm : (told ++ pending).Perm history) (hfirst : told <+: history) (ht : t ∈ pending) :
    told ++ [t] <+: history ↔ ∀ t' ∈ pending, t.number ≤ t'.number := by
  obtain ⟨rest, rfl⟩ := hfirst
  have hrest : pending.Perm rest := (List.perm_append_left_iff told).mp hperm
  have hordered := (List.pairwise_append.mp hord).2.1
  rw [List.prefix_append_right_inj]
  cases rest with
  | nil => exact absurd (hrest.mem_iff.mp ht) (by simp)
  | cons x rest =>
    rw [List.cons_prefix_cons, and_iff_left List.nil_prefix]
    obtain ⟨hx, -⟩ := List.pairwise_cons.mp hordered
    constructor
    · rintro rfl t' ht'
      rcases List.mem_cons.mp (hrest.mem_iff.mp ht') with rfl | hmem
      · exact Nat.le_refl _
      · exact Nat.le_of_lt (hx t' hmem)
    · intro hleast
      rcases List.mem_cons.mp (hrest.mem_iff.mp ht) with rfl | hmem
      · rfl
      · have hle := hleast x (hrest.mem_iff.mpr List.mem_cons_self)
        have hlt := hx t hmem
        omega

/-- Along a run, order is kept by the steps that meet the condition, and by no others. -/
theorem Accounted.step {d : Std.ExtTreeMap String KVEntry} {ev : StoreEvent}
    (h : Accounted id w d s) (hin : InOrder id w s) (hstep : s.step ev = some s') :
    (OldestFirst w s ev ↔ InOrder id w s') ∧ Accounted id w d s' := by
  cases ev with
  | mutate now m =>
    refine ⟨iff_of_true trivial ?_, h.mutate hstep⟩
    obtain ⟨tickets, -, -, -, hcalls, hhistory, -⟩ := step_mutate hstep
    intro k hk
    rw [ConcurrentStore.received, hcalls, hhistory, ofKey_append]
    exact (hin k hk).trans (List.prefix_append _ _)
  | notify thread =>
    refine ⟨?_, h.notify hstep⟩
    obtain ⟨t, rest, hnext, rfl⟩ := step_notify hstep
    have hmem : t ∈ ofKey t.change.key s.pending.flatten := by
      refine List.mem_filter.mpr ⟨?_, by simp⟩
      exact List.mem_flatten.mpr ⟨_, List.mem_of_getElem? hnext, List.mem_cons_self⟩
    have hhead : nextTicket s thread = some t := by simp [nextTicket, hnext]
    constructor
    · intro hold k hk
      rw [h.received_notify, ofKey_append]
      by_cases hkey : t.change.key = k
      · subst hkey
        rw [if_pos hk, ofKey_cons_self]
        exact (next_iff_oldest (h.ordered _) (h.told _ hk) (hin _ hk) hmem).mpr
          (hold t hhead hk)
      · have hnone : ofKey k (if w.matches t.change.key then [t] else []) = [] := by
          split
          · exact ofKey_cons_ne hkey []
          · rfl
        rw [hnone, List.append_nil]
        exact hin k hk
    · intro hout t' hnext' hk
      rw [hhead, Option.mem_some_iff] at hnext'
      subst hnext'
      have hfirst := hout _ hk
      rw [h.received_notify, ofKey_append, if_pos hk, ofKey_cons_self] at hfirst
      exact (next_iff_oldest (h.ordered _) (h.told _ hk) (hin _ hk) hmem).mp hfirst

/-! ## Whole runs -/

/-- Any interleaving. -/
abbrev StoreRun : ConcurrentStore → List (ConcurrentStore × StoreEvent) → ConcurrentStore → Prop :=
  Runs ConcurrentStore.step fun _ _ => True

theorem accounted_init (store : KVStore) {watches : Watches} (hw : watches.lookup id = some w) :
    Accounted id w store.data { store, watches } where
  watches := hw
  number := fun _ _ h => absurd h (by simp)
  told := fun _ _ => List.Perm.refl _
  data := rfl

/-- When nothing is pending, the last thing heard of a key is what the store holds. -/
theorem Accounted.last {d : Std.ExtTreeMap String KVEntry} (h : Accounted id w d s)
    (hin : InOrder id w s) (hdone : ∀ l ∈ s.pending, l = []) (hk : w.matches k = true) :
    s.store.data[k]? = ((ofKey k (s.received id)).getLast?).elim d[k]? fun t => t.change.value := by
  have hempty : s.pending.flatten = [] := List.flatten_eq_nil_iff.mpr hdone
  have hlen := (h.told k hk).length_eq
  rw [hempty, List.length_append] at hlen
  have hall : ofKey k (s.received id) = ofKey k s.history :=
    (hin k hk).eq_of_length (by simpa [ofKey] using hlen)
  have hkey : ((fun c : Notification => decide (c.key = k)) ∘ Ticket.change) =
      fun t => decide (t.change.key = k) := rfl
  rw [hall, ← h.data, getElem?_patch_last, List.filter_map, List.getLast?_map, hkey, ofKey]
  cases (s.history.filter fun t => t.change.key = k).getLast? with
  | none => rfl
  | some t => rfl

/-- **A watcher hears of the changes of every key in order exactly if calls notify in the order in
    which they changed the key**; and then, once every call has returned, the last thing it
    heard of a key is what the store holds. -/
theorem notified_in_order (store : KVStore) (watches : Watches)
    (hw : watches.lookup id = some w) {tr : List (ConcurrentStore × StoreEvent)}
    (run : StoreRun { store, watches } tr s) :
    (((∀ p ∈ tr, InOrder id w p.1) ∧ InOrder id w s) ↔ ∀ p ∈ tr, OldestFirst w p.1 p.2) ∧
    ((∀ p ∈ tr, OldestFirst w p.1 p.2) → (∀ l ∈ s.pending, l = []) →
      ∀ k, w.matches k = true → s.store.data[k]? =
        ((ofKey k (s.received id)).getLast?).elim store.data[k]? fun t => t.change.value) := by
  have hinit := accounted_init store hw
  have hstart : InOrder id w { store, watches } := fun k _ => List.prefix_refl _
  have hexact := run.exact (I := Accounted id w store.data) (Q := InOrder id w)
    (C := OldestFirst w)
    (fun s ev s' hi hq _ hstep => ⟨(hi.step hq hstep).1, fun _ => (hi.step hq hstep).2⟩)
    hinit hstart
  refine ⟨hexact, fun hold hdone k hk => ?_⟩
  have hacc : Accounted id w store.data s := by
    refine run.invariant (I := Accounted id w store.data) ?_ hinit
    intro s ev s' hi _ hstep
    cases ev with
    | mutate now m => exact hi.mutate hstep
    | notify thread => exact hi.notify hstep
  exact hacc.last (hexact.mpr hold).2 hdone hk

/-- A watcher of the key `k`. -/
def watchK : Watches := AList.insert 1 { keyOrPrefix := "k", isPrefix := false } ∅

/-- `ApplyLoop` puts `k`, an HTTP thread swaps it. -/
def putAndSwap : List StoreEvent :=
  [.mutate 0 (.put "k" "v" 1 none), .mutate 1 (.cas "k" "v" "w" 0)]

theorem notified_in_order_sequence : ∃ tr s, StoreRun { watches := watchK } tr s ∧
    (∀ l ∈ s.pending, l = []) ∧ s.received 1 ≠ [] ∧ s.store.data["k"]? =
      ((ofKey "k" (s.received 1)).getLast?).elim none fun t => t.change.value := by
  have hrun : (exec ConcurrentStore.step (OldestFirst { keyOrPrefix := "k", isPrefix := false })
      { watches := watchK } (putAndSwap ++ [.notify 0, .notify 1])).any (fun s =>
        decide (∀ l ∈ s.pending, l = []) && decide (s.received 1 ≠ [])) = true := by
    decide +kernel
  obtain ⟨s, hs, hok⟩ := (Option.any_eq_true _ _).mp hrun
  rw [Bool.and_eq_true, decide_eq_true_eq, decide_eq_true_eq] at hok
  have run := runs_of_exec hs
  have hrest : StoreRun { watches := watchK } _ s := run.mono fun _ _ _ => trivial
  exact ⟨_, s, hrest, hok.1, hok.2,
    (notified_in_order {} watchK rfl hrest).2 run.allowed hok.1 "k" rfl⟩

theorem notified_in_order_fails : ∃ tr s, StoreRun { watches := watchK } tr s ∧
    (∀ l ∈ s.pending, l = []) ∧
    (s.received 1).map (fun t => t.change.value.map KVEntry.value) = [some "w", some "v"] ∧
    s.store.data["k"]?.map KVEntry.value = some "w" := by
  have hrun : (exec ConcurrentStore.step (fun _ _ => True) { watches := watchK }
      (putAndSwap ++ [.notify 1, .notify 0])).any (fun s =>
        decide (∀ l ∈ s.pending, l = []) &&
        decide ((s.received 1).map (fun t => t.change.value.map KVEntry.value) =
          [some "w", some "v"]) &&
        decide (s.store.data["k"]?.map KVEntry.value = some "w")) = true := by
    decide +kernel
  obtain ⟨s, hs, hok⟩ := (Option.any_eq_true _ _).mp hrun
  simp only [Bool.and_eq_true, decide_eq_true_eq] at hok
  exact ⟨_, s, runs_of_exec hs, hok.1.1, hok.1.2, hok.2⟩

end Proof
end OrcDb
