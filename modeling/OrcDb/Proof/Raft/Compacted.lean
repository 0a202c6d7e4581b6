import OrcDb.Proof.Raft.Handler
import OrcDb.Proof.Raft.Log
import OrcDb.Lib.JsonText

/-!
# A batch that reaches below the snapshot

`Offset` is an unsigned subtraction. For an index below the snapshot it wraps to an offset past
the end of every vector, and `AppendAll` pushes the entry at the end of the log. An entry at
the snapshot's own index meets the sentinel and is skipped, those above are merged, but into a
log with strange entries behind it (`appendAll_straddling`). What becomes of them is the
library's `merge_append_iff`: they stay, and may even stand in for the entries that belong
there, unless one of the entries above the snapshot clashes with the log or with the first of
them (`compacted_iff`).
-/

set_option autoImplicit false

namespace OrcDb
namespace Proof

open Lib

/-- The retained part of a log is well formed: the sentinel has the snapshot's term, every entry
    is at the offset its index says, and the indices are numbers of 64 bits. -/
structure Retained (log : RaftLog) : Prop where
  sentinel : log.entries[0]?.map LogEntry.term = some log.snapshotTerm
  index : ∀ (k : Nat) (e : LogEntry), log.entries[k]? = some e → e.index = log.snapshotIndex + k
  bound : log.snapshotIndex + log.entries.length ≤ 2 ^ 64

/-! ## Below the snapshot -/

theorem place_below {log : RaftLog} {e : LogEntry} (he : e.index < log.snapshotIndex)
    (hlen : log.entries.length + log.snapshotIndex ≤ 2 ^ 64 + e.index) :
    log.place e = { log with entries := log.entries ++ [e] } := by
  have hoff : log.entries[log.offset e.index]? = none := by
    rw [RaftLog.offset, if_neg (Nat.not_le.mpr he), List.getElem?_eq_none_iff]
    omega
  unfold RaftLog.place
  dsimp only
  rw [hoff]

theorem appendAll_below (J : Json.Codec) {log : RaftLog} {es : List LogEntry} {m : Nat}
    (hidx : ∀ (k : Nat) (e : LogEntry), es[k]? = some e → e.index = m + k)
    (hm : m + es.length ≤ log.snapshotIndex)
    (hlen : log.entries.length + log.snapshotIndex ≤ 2 ^ 64 + m) :
    (log.appendAll J es).1 = { log with entries := log.entries ++ es } := by
  induction es generalizing log m with
  | nil => rw [RaftLog.appendAll, List.append_nil]
  | cons e es ih =>
    have he : e.index = m := hidx 0 e rfl
    rw [List.length_cons] at hm
    have hplace : log.place e = { log with entries := log.entries ++ [e] } :=
      place_below (by omega) (by omega)
    have hrest : ∀ k x, es[k]? = some x → x.index = m + 1 + k := by
      intro k x hx
      rw [hidx (k + 1) x hx]
      omega
    rw [RaftLog.appendAll]
    dsimp only
    have hlen' : (log.entries ++ [e]).length + log.snapshotIndex ≤ 2 ^ 64 + (m + 1) := by
      rw [List.length_append, List.length_singleton]
      omega
    rw [hplace, ih hrest (by dsimp only; omega) hlen', List.append_assoc]
    rfl

theorem appendAll_append (J : Json.Codec) (log : RaftLog) (es es' : List LogEntry) :
    (log.appendAll J (es ++ es')).1 = ((log.appendAll J es).1.appendAll J es').1 := by
  induction es generalizing log with
  | nil => rfl
  | cons e es ih =>
    rw [List.cons_append, RaftLog.appendAll, RaftLog.appendAll]
    exact ih (log.place e)

/-! ## Across the snapshot -/

/-- Of entries numbered from `p + 1` those above `s` are the last ones. -/
theorem filter_above {es : List LogEntry} {p : Nat}
    (hidx : ∀ (k : Nat) (e : LogEntry), es[k]? = some e → e.index = p + 1 + k) (s : Nat) :
    es.filter (fun e => s < e.index) = es.drop (s - p) := by
  induction es generalizing p with
  | nil => simp
  | cons e es ih =>
    have he : e.index = p + 1 := hidx 0 e rfl
    have hrest : ∀ k x, es[k]? = some x → x.index = p + 1 + 1 + k := by
      intro k x hx
      rw [hidx (k + 1) x hx]
      omega
    rw [List.filter_cons, he, ih hrest]
    rcases Nat.lt_or_ge s (p + 1) with hlt | hge
    · rw [if_pos (by simpa using hlt), Nat.sub_eq_zero_of_le (by omega),
        Nat.sub_eq_zero_of_le (by omega), List.drop_zero, List.drop_zero]
    · have hsub : s - p = s - (p + 1) + 1 := by omega
      rw [if_neg (by simpa using hge), hsub, List.drop_succ_cons]

section Straddling

variable (J : Json.Codec) {log : RaftLog} {es : List LogEntry} {p : Nat}
  (hidx : ∀ (k : Nat) (e : LogEntry), es[k]? = some e → e.index = p + 1 + k)
  (hp : p + 1 ≤ log.snapshotIndex)
include hidx hp

theorem index_above (k : Nat) (e : LogEntry)
    (he : (es.drop (log.snapshotIndex - p))[k]? = some e) :
    e.index = log.snapshotIndex + 1 + k := by
  rw [List.getElem?_drop] at he
  rw [hidx _ e he]
  omega

/-- Merged as usual, the entries above the snapshot start right behind the sentinel. -/
theorem appendAll_above :
    (log.appendAll J (es.filter fun e => log.snapshotIndex < e.index)).1 =
      { log with
        entries := merge LogEntry.term log.entries 1 (es.drop (log.snapshotIndex - p)) } := by
  rw [filter_above hidx]
  exact appendAll_eq_merge J (index_above hidx hp)

/-- **A batch from below the snapshot.** The entries below it end up behind the log, and those
    above it are merged into that. -/
theorem appendAll_straddling (h : Retained log)
    (hagree : ∀ e ∈ es, e.index = log.snapshotIndex → e.term = log.snapshotTerm) :
    (log.appendAll J es).1 =
      { log with
        entries := merge LogEntry.term (log.entries ++ es.take (log.snapshotIndex - (p + 1))) 1
          (es.drop (log.snapshotIndex - p)) } := by
  have hsub : log.snapshotIndex - p = log.snapshotIndex - (p + 1) + 1 := by omega
  have hbelow : (log.appendAll J (es.take (log.snapshotIndex - (p + 1)))).1 =
      { log with entries := log.entries ++ es.take (log.snapshotIndex - (p + 1)) } := by
    apply appendAll_below J (m := p + 1)
    · intro k e he
      rw [List.getElem?_take] at he
      split at he
      · exact hidx k e he
      · exact absurd he (by simp)
    · rw [List.length_take]
      omega
    · have := h.bound
      omega
  have hsplit := appendAll_append J log (es.take (log.snapshotIndex - (p + 1)))
    (es.drop (log.snapshotIndex - (p + 1)))
  rw [List.take_append_drop, hbelow] at hsplit
  rw [hsplit, hsub, ← List.tail_drop]
  -- what is left starts at the snapshot's index, unless the batch ends below it
  cases hrest : es.drop (log.snapshotIndex - (p + 1)) with
  | nil => rfl
  | cons e rest =>
    have hdrop : ∀ k x, (e :: rest)[k]? = some x → x.index = log.snapshotIndex + 0 + k := by
      intro k x hx
      rw [← hrest, List.getElem?_drop] at hx
      rw [hidx _ x hx]
      omega
    have hterm : e.term = log.snapshotTerm := by
      apply hagree e
      · rw [← List.take_append_drop (log.snapshotIndex - (p + 1)) es, hrest]
        simp
      · exact hdrop 0 e rfl
    -- it meets the sentinel
    obtain ⟨x, hx, hxt⟩ := Option.map_eq_some_iff.mp h.sentinel
    have hlen := (List.getElem?_eq_some_iff.mp hx).1
    have hplace : placeAt LogEntry.term (log.entries ++ es.take (log.snapshotIndex - (p + 1))) 0 e =
        log.entries ++ es.take (log.snapshotIndex - (p + 1)) := by
      rw [placeAt, List.getElem?_append_left hlen, hx]
      dsimp only
      rw [if_neg (by rw [hxt, hterm]; exact fun hne => hne rfl)]
    refine Eq.trans (appendAll_eq_merge J (m := 0) ?_) ?_
    · exact hdrop
    · rw [List.tail_cons, merge, hplace]

end Straddling

/-! ## When the strange entries disappear -/

namespace Retained

variable {log : RaftLog} (h : Retained log)
include h

theorem length_pos : 0 < log.entries.length := by
  obtain ⟨x, hx, -⟩ := Option.map_eq_some_iff.mp h.sentinel
  exact (List.getElem?_eq_some_iff.mp hx).1

theorem lastIndex_eq : log.lastIndex + 1 = log.snapshotIndex + log.entries.length := by
  have hpos := h.length_pos
  have hback : log.entries[log.entries.length - 1]? = some log.back := by
    have hlt : log.entries.length - 1 < log.entries.length := by omega
    rw [RaftLog.back, List.getLastD_eq_getLast?, List.getLast?_eq_getElem?,
      List.getElem?_eq_getElem hlt, Option.getD_some]
  have := h.index _ _ hback
  rw [RaftLog.lastIndex]
  omega

end Retained

/-- Some entry above the snapshot differs in its term from the log's entry at its index, or, when
    it is the next one for the log, from the first entry of the batch. -/
def Displaces (log : RaftLog) (es : List LogEntry) : Prop :=
  ∃ e ∈ es, log.snapshotIndex < e.index ∧
    ((∃ old ∈ log.getEntry e.index, old.term ≠ e.term) ∨
      (e.index = log.lastIndex + 1 ∧ ∃ first ∈ es.head?, first.term ≠ e.term))

instance (log : RaftLog) (es : List LogEntry) : Decidable (Displaces log es) :=
  inferInstanceAs (Decidable (∃ e ∈ es, log.snapshotIndex < e.index ∧
    ((∃ old ∈ log.getEntry e.index, old.term ≠ e.term) ∨
      (e.index = log.lastIndex + 1 ∧ ∃ first ∈ es.head?, first.term ≠ e.term))))

theorem getEntry_above (log : RaftLog) (k : Nat) :
    log.getEntry (log.snapshotIndex + k) = log.entries[k]? := by
  rw [RaftLog.getEntry, RaftLog.offset, if_pos (Nat.le_add_right _ _), Nat.add_sub_cancel_left]

theorem displaces_iff {log : RaftLog} {y : LogEntry} {ys : List LogEntry} {p : Nat}
    (h : Retained log)
    (hidx : ∀ (k : Nat) (e : LogEntry), (y :: ys)[k]? = some e → e.index = p + 1 + k)
    (hp : p + 1 ≤ log.snapshotIndex) :
    Displaces log (y :: ys) ↔
      Clash LogEntry.term (log.entries ++ [y]) 1 ((y :: ys).drop (log.snapshotIndex - p)) := by
  have hlast := h.lastIndex_eq
  constructor
  · rintro ⟨e, he, habove, hdiff⟩
    obtain ⟨j, hj⟩ := List.getElem?_of_mem he
    have hje := hidx j e hj
    obtain ⟨k, rfl⟩ : ∃ k, j = log.snapshotIndex - p + k := ⟨j - (log.snapshotIndex - p), by omega⟩
    have hindex : e.index = log.snapshotIndex + (1 + k) := by omega
    rw [hindex, getEntry_above] at hdiff
    rcases hdiff with ⟨old, hold, hne⟩ | ⟨hend, first, hfirst, hne⟩
    · refine ⟨k, old, e, ?_, by rw [List.getElem?_drop]; exact hj, hne⟩
      rw [List.getElem?_append_left (List.getElem?_eq_some_iff.mp hold).1]
      exact hold
    · cases hfirst
      refine ⟨k, y, e, ?_, by rw [List.getElem?_drop]; exact hj, hne⟩
      have hk : 1 + k = log.entries.length := by omega
      rw [hk, List.getElem?_concat_length]
  · rintro ⟨k, old, e, hold, he, hne⟩
    have hindex := index_above hidx hp k e he
    refine ⟨e, List.mem_of_mem_drop (List.mem_of_getElem? he), by omega, ?_⟩
    rw [hindex, Nat.add_assoc, getEntry_above]
    rcases Nat.lt_or_ge (1 + k) log.entries.length with hlt | hge
    · rw [List.getElem?_append_left hlt] at hold
      exact Or.inl ⟨old, hold, hne⟩
    · have hk : 1 + k = log.entries.length := by
        have := (List.getElem?_eq_some_iff.mp hold).1
        simp only [List.length_append, List.length_singleton] at this
        omega
      rw [hk, List.getElem?_concat_length] at hold
      cases hold
      exact Or.inr ⟨by omega, y, rfl, hne⟩

/-- What a batch from below the snapshot should make of a log: its entries up to the snapshot
    change nothing, the others are merged, and every entry is where its index says. -/
structure Ignores (J : Json.Codec) (log : RaftLog) (es : List LogEntry) (log' : RaftLog) :
    Prop where
  merged : log' = (log.appendAll J (es.filter fun e => log.snapshotIndex < e.index)).1
  index : ∀ (k : Nat) (e : LogEntry), log'.entries[k]? = some e → e.index = log.snapshotIndex + k

theorem ignores_iff_eq (J : Json.Codec) {log log' : RaftLog} {es : List LogEntry} {p : Nat}
    (h : Retained log)
    (hidx : ∀ (k : Nat) (e : LogEntry), es[k]? = some e → e.index = p + 1 + k)
    (hp : p + 1 ≤ log.snapshotIndex) :
    Ignores J log es log' ↔
      log' = { log with
        entries := merge LogEntry.term log.entries 1 (es.drop (log.snapshotIndex - p)) } := by
  constructor
  · intro hi
    rw [hi.merged, appendAll_above J hidx hp]
  · rintro rfl
    refine ⟨(appendAll_above J hidx hp).symm, ?_⟩
    apply merge_forall h.length_pos h.index
    intro k e he
    rw [index_above hidx hp k e he, Nat.add_assoc]

/-- **A compacted follower and entries it has compacted.** They change nothing exactly if there
    are none below the snapshot, or an entry above it sweeps them away again. -/
theorem compacted_iff (J : Json.Codec) {n : RaftNode} {req : AppendEntriesRequest}
    (h : Retained n.log) (hentries : Contiguous (req.prevLogIndex + 1) req.entries)
    (hp : req.prevLogIndex + 1 ≤ n.log.snapshotIndex) (committed : Nat → LogEntry)
    (hsnapshot : (committed n.log.snapshotIndex).term = n.log.snapshotTerm)
    (hagree : ∀ e ∈ req.entries, e.index ≤ n.log.snapshotIndex → e = committed e.index)
    (hsuccess : (n.handleAppendEntries J req).2.success = true) :
    Ignores J n.log req.entries (n.handleAppendEntries J req).1.log ↔
      req.entries = [] ∨ req.prevLogIndex + 1 = n.log.snapshotIndex ∨
        Displaces n.log req.entries := by
  have hidx := hentries.index
  have hlog : (n.handleAppendEntries J req).1.log = (n.log.appendAll J req.entries).1 := by
    rw [(handleAppendEntries_of_success hsuccess).2.2, acceptEntries_eq, heard_log]
  have hsentinel : ∀ e ∈ req.entries, e.index = n.log.snapshotIndex →
      e.term = n.log.snapshotTerm := by
    intro e he heq
    rw [hagree e he (Nat.le_of_eq heq), heq, hsnapshot]
  rw [ignores_iff_eq J h hidx hp, hlog, appendAll_straddling J hidx hp h hsentinel]
  rcases Nat.eq_or_lt_of_le hp with heq | hlt
  · rw [← heq, Nat.sub_self, List.take_zero, List.append_nil]
    exact iff_of_true rfl (Or.inr (Or.inl rfl))
  · cases hes : req.entries with
    | nil =>
      rw [List.take_nil, List.append_nil]
      exact iff_of_true rfl (Or.inl rfl)
    | cons y ys =>
      rw [hes] at hidx
      have hsub : n.log.snapshotIndex - (req.prevLogIndex + 1) =
          n.log.snapshotIndex - (req.prevLogIndex + 1) - 1 + 1 := by omega
      have hy : y ∉ (y :: ys).drop (n.log.snapshotIndex - req.prevLogIndex) := by
        intro hmem
        obtain ⟨k, hk⟩ := List.getElem?_of_mem hmem
        have hhigh := index_above hidx hp k y hk
        have hlow := hidx 0 y rfl
        omega
      have hne : req.prevLogIndex + 1 ≠ n.log.snapshotIndex := Nat.ne_of_lt hlt
      rw [displaces_iff h hidx hp, hsub, List.take_succ_cons]
      simp only [RaftLog.mk.injEq, and_self, and_true, List.cons_ne_nil, hne, false_or]
      exact merge_append_iff h.length_pos hy

/-- A log right after a snapshot of everything. -/
def snapshotLog (s t : Nat) : RaftLog :=
  { entries := [RaftLog.sentinel s t], snapshotIndex := s, snapshotTerm := t }

theorem retained_snapshotLog {s : Nat} (hs : s < 2 ^ 64) (t : Nat) :
    Retained (snapshotLog s t) where
  sentinel := rfl
  index := by
    intro k e he
    cases k with
    | zero => cases he; rfl
    | succ k => exact absurd he (by simp [snapshotLog])
  bound := hs

/-- Four entries of term 1, of which a follower has compacted three. -/
def committedOne (i : Nat) : LogEntry := { term := 1, index := i, opType := .NoOp }

def compactedOne : RaftNode :=
  { currentTerm := 1, commitIndex := 3, lastApplied := 3, log := snapshotLog 3 1 }

/-- The leader, compacted itself, sends the third and the fourth. -/
def fromThird : AppendEntriesRequest :=
  { term := 1, leaderId := "A", prevLogIndex := 2, entries := [committedOne 3, committedOne 4] }

theorem compacted_iff_third :
    Ignores Json.text compactedOne.log fromThird.entries
      (compactedOne.handleAppendEntries Json.text fromThird).1.log :=
  (compacted_iff Json.text (retained_snapshotLog (by decide) 1) (by decide) (by decide)
    committedOne rfl (by decide) (by decide +kernel)).mpr (Or.inr (Or.inl rfl))

/-- The leader sends all four. -/
def fromFirst : AppendEntriesRequest :=
  { term := 1, leaderId := "A", entries := (List.range' 1 4).map committedOne }

/-- The first entry ends up at the place of the fourth, which is then taken to be there. -/
theorem compacted_fails :
    Retained compactedOne.log ∧ Contiguous 1 fromFirst.entries ∧
      (∀ e ∈ fromFirst.entries, e.index ≤ 3 → e = committedOne e.index) ∧
      (compactedOne.handleAppendEntries Json.text fromFirst).2.success = true ∧
      ¬Ignores Json.text compactedOne.log fromFirst.entries
        (compactedOne.handleAppendEntries Json.text fromFirst).1.log := by
  refine ⟨retained_snapshotLog (by decide) 1, by decide, by decide, by decide +kernel, fun h => ?_⟩
  exact absurd (h.index 1 (committedOne 1) (by decide +kernel)) (by decide)

end Proof
end OrcDb
