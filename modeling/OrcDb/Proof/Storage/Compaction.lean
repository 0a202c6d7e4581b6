import OrcDb.Proof.Storage.Mirror

/-!
# Compaction, in memory and on disk

`SetSnapshot(s, term)` is meant to discard the entries up to and including `s`, and `Recover`
the entries a snapshot covers. Both miss. The erase range `[begin, begin + off)` of
`SetSnapshot` takes the old sentinel instead of entry `s`, so behind the new sentinel every
entry sits one place too far (`setSnapshot_shifts`); and `Recover` clears every entry it has
read so far, also those above the snapshot's index (`snapshot_keeps`).
-/

set_option autoImplicit false

namespace OrcDb
namespace Proof

open Lib

variable {J : Json.Codec} {log : RaftLog} {es es' : List LogEntry} {s : Nat}

/-! ## `SetSnapshot` -/

/-- `Append` for one entry after the other. -/
def appendEach (J : Json.Codec) (log : RaftLog) (es : List LogEntry) : RaftLog :=
  es.foldl (fun log e => (log.append J e).1) log

theorem appendEach_eq (J : Json.Codec) (log : RaftLog) (es : List LogEntry) :
    appendEach J log es = { log with entries := log.entries ++ es } := by
  induction es generalizing log with
  | nil => simp [appendEach]
  | cons e es ih =>
    show appendEach J (log.append J e).1 es = _
    rw [ih]
    simp [RaftLog.append]

/-- What readers of the log can ask, answered alike from index `s` on. -/
structure Transparent (s : Nat) (full compacted : RaftLog) : Prop where
  getEntry : ∀ i, s < i → compacted.getEntry i = full.getEntry i
  getTerm : ∀ i, s ≤ i → compacted.getTerm i = full.getTerm i
  lastIndex : compacted.lastIndex = full.lastIndex
  lastTerm : compacted.lastTerm = full.lastTerm
  size : compacted.size = full.lastIndex - s

theorem Shaped.setSnapshot_eq (hs : Shaped log) (hle : s ≤ log.lastIndex) (term : Nat) :
    log.setSnapshot s term =
      { entries := RaftLog.sentinel s term :: log.entries.drop s, snapshotIndex := s,
        snapshotTerm := term } := by
  have hlt := hs.le_lastIndex_iff.mp hle
  simp [RaftLog.setSnapshot, hs.offset_eq, hlt]

theorem Shaped.appendEach (hs : Shaped log)
    (hes : ∀ (k : Nat) (e : LogEntry), es[k]? = some e → e.index = log.lastIndex + 1 + k) :
    Shaped (appendEach J log es) := by
  induction es generalizing log with
  | nil => exact hs
  | cons e es ih =>
    have he : e.index = log.lastIndex + 1 := hes 0 e rfl
    have hs' := hs.append e he J
    apply ih hs'
    intro k x hx
    have hlast : (log.append J e).1.lastIndex = log.lastIndex + 1 := by
      rw [hs'.lastIndex_eq, hs.lastIndex_eq]
      have := hs.length_pos
      simp only [RaftLog.append, List.length_append, List.length_singleton]
      omega
    rw [hlast, hes (k + 1) x hx]
    omega

/-- **`SetSnapshot` keeps the snapshot's own entry**: above the snapshot every index is answered
    with the entry one below, the size is one too large, and so a compacted log never answers
    as the full one does. -/
theorem setSnapshot_shifts (J : Json.Codec) (hs : Shaped log) (hle : s ≤ log.lastIndex)
    (hes : ∀ (k : Nat) (e : LogEntry), es[k]? = some e → e.index = log.lastIndex + 1 + k) :
    (∀ i, s < i → (appendEach J (log.setSnapshot s (log.getTerm s)) es).getEntry i =
        (appendEach J log es).getEntry (i - 1)) ∧
      (appendEach J (log.setSnapshot s (log.getTerm s)) es).size =
        (appendEach J log es).lastIndex - s + 1 ∧
      ¬ Transparent s (appendEach J log es)
        (appendEach J (log.setSnapshot s (log.getTerm s)) es) := by
  have hfull : Shaped (Proof.appendEach J log es) := hs.appendEach hes
  have hlt := hs.le_lastIndex_iff.mp hle
  have hsize : (Proof.appendEach J (log.setSnapshot s (log.getTerm s)) es).size =
      (Proof.appendEach J log es).lastIndex - s + 1 := by
    rw [hfull.lastIndex_eq, hs.setSnapshot_eq hle]
    simp only [appendEach_eq, RaftLog.size, List.length_append, List.length_cons,
      List.length_drop]
    omega
  refine ⟨?_, hsize, fun h => ?_⟩
  · intro i hi
    obtain ⟨k, rfl⟩ := Nat.exists_eq_add_of_lt hi
    rw [hfull.getEntry_eq, hs.setSnapshot_eq hle]
    have hoff : s + k + 1 - s = k + 1 := by omega
    simp only [appendEach_eq, RaftLog.getEntry, RaftLog.offset]
    rw [if_pos (by omega), hoff, List.cons_append, List.getElem?_cons_succ,
      ← List.drop_append_of_le_length (Nat.le_of_lt hlt), List.getElem?_drop]
    rfl
  · have := h.size
    omega

/-- A log with the entries 1 and 2. -/
def twoEntries : RaftLog :=
  appendEach Json.text RaftLog.empty [putEntry 1 1 "a", putEntry 1 2 "b"]

theorem twoEntries_index : ∀ (k : Nat) (e : LogEntry),
    [putEntry 1 1 "a", putEntry 1 2 "b"][k]? = some e → e.index = 1 + k := by
  intro k e he
  match k with
  | 0 => cases he; rfl
  | 1 => cases he; rfl
  | k + 2 => exact absurd he (by simp)

theorem twoEntries_shaped : Shaped twoEntries := by
  apply Shaped.appendEach shaped_empty
  intro k e he
  exact twoEntries_index k e he

theorem setSnapshot_shifts_two :
    (appendEach Json.text (twoEntries.setSnapshot 1 (twoEntries.getTerm 1)) []).getEntry 2 =
        twoEntries.getEntry 1 ∧
      ¬ Transparent 1 twoEntries (twoEntries.setSnapshot 1 (twoEntries.getTerm 1)) := by
  have h := @setSnapshot_shifts twoEntries [] 1 Json.text twoEntries_shaped (by decide) (by simp)
  exact ⟨h.1 2 (by decide), h.2.2⟩

/-- After `SetSnapshot(1, 1)` on the entries 1 and 2, `GetEntry(2)` is entry 1, `GetEntry(3)`
    does not throw, and `Size()` is 2. -/
theorem setSnapshot_not_transparent :
    (twoEntries.setSnapshot 1 1).getEntry 2 = some (putEntry 1 1 "a") ∧
      twoEntries.getEntry 2 = some (putEntry 1 2 "b") ∧
      (twoEntries.setSnapshot 1 1).getEntry 3 = some (putEntry 1 2 "b") ∧
      twoEntries.getEntry 3 = none ∧ (twoEntries.setSnapshot 1 1).size = 2 ∧
      twoEntries.getTerm 1 = 1 ∧ ¬ Transparent 1 twoEntries (twoEntries.setSnapshot 1 1) := by
  refine ⟨by decide, by decide, by decide, by decide, by decide, by decide, fun h => ?_⟩
  exact absurd h.size (by decide)

/-! ## Snapshots in the WAL -/

/-- A snapshot at `s` on disk keeps the entries `es` above it: `Recover` returns them, and the
    constructor puts each of them at its index. -/
def Keeps (J : Json.Codec) (w : WriteAheadLog) (rs : List WalRecord) (s : Nat)
    (es : List LogEntry) : Prop :=
  (∃ r, w.recover J = some r ∧ r.snapshotIndex = s ∧ r.entries = es.map (LogEntry.toRaw J)) ∧
    ∃ n, RaftNode.recover J rs = some n ∧ ∀ e ∈ es, n.log.getEntry e.index = some e

theorem recoveredEntries_eq {r : RecoveryResult} (h : r.entries = es.map (LogEntry.toRaw J)) :
    RaftNode.recoveredEntries J r = es := by
  have hmap : r.entries.map (fun raw => LogEntry.deserialize J raw.command) = es.map some := by
    rw [h, List.map_map]
    apply List.map_congr_left
    intro e _
    exact LogEntry.deserialize_serialize J e
  rw [RaftNode.recoveredEntries, hmap, List.takeWhile_eq_self_iff.mpr (by simp)]
  simp [List.reduceOption]

/-- The log the constructor builds: the recovered entries behind what the snapshot left. -/
theorem recover_log {rs : List WalRecord} (h : (replay rs).entries = es.map (LogEntry.toRaw J)) :
    ∃ n, RaftNode.recover J rs = some n ∧
      n.log = appendEach J (RaftNode.recoveredBase rs (replay rs)).log es := by
  have hes := recoveredEntries_eq h
  have hlen : es.length = (replay rs).entries.length := by rw [h, List.length_map]
  have hfold : ∀ (es : List LogEntry) (n : RaftNode),
      (es.foldl (fun n e => n.appendLog J e) n).log = appendEach J n.log es := by
    intro es
    induction es with
    | nil =>
      intro n
      rfl
    | cons e es ih =>
      intro n
      exact ih (n.appendLog J e)
  refine ⟨_, ?_, hfold es _⟩
  simp only [RaftNode.recover, hes, if_pos hlen]

/-- What `Recover` makes of a snapshot and the entries written after it: whatever came before
    is gone. -/
theorem replay_snapshot (rs : List WalRecord) (s term : Nat) (data : String) {m : Nat}
    (hes' : ∀ (k : Nat) (e : LogEntry), es'[k]? = some e → e.index = m + k) :
    (replay (rs ++ .snapshot s term data :: es'.map (LogEntry.record J))).entries =
        es'.map (LogEntry.toRaw J) ∧
      (replay (rs ++ .snapshot s term data :: es'.map (LogEntry.record J))).snapshotIndex = s ∧
      (replay (rs ++ .snapshot s term data :: es'.map (LogEntry.record J))).snapshotTerm = term ∧
      (replay (rs ++ .snapshot s term data :: es'.map (LogEntry.record J))).latestSnapshot =
        some data := by
  have hkeep : ∀ (es : List RawLogEntry) (r : RecoveryResult),
      ((es.map WalRecord.logEntry).foldl RecoveryResult.apply r).snapshotIndex =
          r.snapshotIndex ∧
        ((es.map WalRecord.logEntry).foldl RecoveryResult.apply r).snapshotTerm =
          r.snapshotTerm ∧
        ((es.map WalRecord.logEntry).foldl RecoveryResult.apply r).latestSnapshot =
          r.latestSnapshot := by
    intro es
    induction es with
    | nil =>
      intro r
      exact ⟨rfl, rfl, rfl⟩
    | cons e es ih =>
      intro r
      exact ih (r.apply (.logEntry e))
  rw [replay_append, List.foldl_cons, records_eq]
  refine ⟨?_, hkeep _ _⟩
  rw [foldl_of_below (m := m) (by simp [RecoveryResult.apply]) (from_map_toRaw hes')]
  simp [RecoveryResult.apply]

/-- The log as the constructor's `SetSnapshot` leaves it, before the entries are appended. At
    index 0 the fresh log's own sentinel stays behind the new one. -/
theorem recoveredBase_log {r : RecoveryResult} (rs : List WalRecord)
    (h : r.latestSnapshot.isSome) :
    (RaftNode.recoveredBase rs r).log =
      { entries := RaftLog.sentinel r.snapshotIndex r.snapshotTerm ::
          (if r.snapshotIndex = 0 then [RaftLog.sentinel 0 0] else [])
        snapshotIndex := r.snapshotIndex
        snapshotTerm := r.snapshotTerm } := by
  have hbase : (RaftNode.recoveredBase rs r).log =
      RaftLog.empty.setSnapshot r.snapshotIndex r.snapshotTerm := by
    simp only [RaftNode.recoveredBase, h, if_true]
  rw [hbase]
  by_cases h0 : r.snapshotIndex = 0
  · simp [RaftLog.setSnapshot, RaftLog.offset, RaftLog.empty, h0]
  · simp [RaftLog.setSnapshot, RaftLog.offset, RaftLog.empty, h0]

/-- **What a snapshot on disk keeps.** The entries `1..m` of the log are in the WAL, a snapshot at
    `s ≤ m` follows, then the entries `m + 1..k`. The entries above `s` survive exactly if nothing
    lay above the snapshot when it was written — and if the snapshot is at 0, where `SetSnapshot`
    leaves two sentinels, nothing may follow either. How the first `m` entries were written plays
    no part: `rs` is any sequence of records. -/
theorem snapshot_keeps (J : Json.Codec) (maxSegmentBytes : Nat) {rs : List WalRecord}
    {w : WriteAheadLog} (hle : s ≤ es.length) (term : Nat) (data : String)
    (hes' : ∀ (k : Nat) (e : LogEntry), es'[k]? = some e → e.index = es.length + 1 + k)
    (hw : (WriteAheadLog.openDir [] maxSegmentBytes).writeAll J
      (rs ++ .snapshot s term data :: es'.map (LogEntry.record J)) = some w) :
    Keeps J w (rs ++ .snapshot s term data :: es'.map (LogEntry.record J)) s
        ((es ++ es').drop s) ↔
      s = es.length ∧ (s = 0 → es' = []) := by
  have hh := (holds_empty J maxSegmentBytes).writeAll hw
  rw [List.nil_append] at hh
  obtain ⟨hentries, hindex, hterm, hdata⟩ := @replay_snapshot J es' rs s term data _ hes'
  obtain ⟨n, hn, hlog⟩ := recover_log hentries
  rw [recoveredBase_log _ (by rw [hdata]; rfl), appendEach_eq, hindex, hterm] at hlog
  constructor
  · rintro ⟨⟨r, hr, -, hre⟩, n', hn', hget⟩
    rw [hh.recover] at hr
    cases hr
    rw [hn] at hn'
    cases hn'
    have htail : es' = (es ++ es').drop s := (toRaw_injective J).list_map (hentries.symm.trans hre)
    have hlen := congrArg List.length htail
    rw [List.length_drop, List.length_append] at hlen
    refine ⟨by omega, fun h0 => ?_⟩
    -- behind two sentinels the first entry is read at the index of the second
    cases es' with
    | nil => rfl
    | cons e es' =>
      have he : e.index = 1 := by
        rw [hes' 0 e rfl]
        omega
      have := hget e (htail ▸ List.mem_cons_self)
      rw [hlog, he, h0] at this
      have hsentinel : RaftLog.sentinel 0 0 = e := Option.some.inj this
      rw [← hsentinel] at he
      exact absurd he (by simp [RaftLog.sentinel])
  · rintro ⟨rfl, h0⟩
    rw [List.drop_left]
    refine ⟨⟨_, hh.recover, hindex, hentries⟩, n, hn, fun e he => ?_⟩
    obtain ⟨k, hk⟩ := List.getElem?_of_mem he
    have hpos : es.length ≠ 0 := by
      intro hzero
      rw [h0 hzero] at he
      exact absurd he (by simp)
    rw [hlog, if_neg hpos, hes' k e hk]
    have hoff : es.length + 1 + k - es.length = k + 1 := by omega
    simp only [RaftLog.getEntry, RaftLog.offset]
    rw [if_pos (by omega), hoff]
    exact hk

/-- Entry 1, a snapshot at 1, entry 2. -/
def snapshotAtEnd : List WalRecord :=
  [(putEntry 1 1 "a").record Json.text] ++
    .snapshot 1 1 "a" :: [putEntry 1 2 "b"].map (LogEntry.record Json.text)

theorem snapshot_keeps_at_end : ∃ w,
    (WriteAheadLog.openDir [] 200).writeAll Json.text snapshotAtEnd = some w ∧
      Keeps Json.text w snapshotAtEnd 1 [putEntry 1 2 "b"] := by
  obtain ⟨w, hw⟩ := Option.isSome_iff_exists.mp
    (show ((WriteAheadLog.openDir [] 200).writeAll Json.text snapshotAtEnd).isSome = true
      by decide +kernel)
  have hone : ∀ (m : Nat) (x : LogEntry), x.index = m → ∀ (k : Nat) (e : LogEntry),
      [x][k]? = some e → e.index = m + k := by
    intro m x hx k e he
    cases k with
    | zero => cases he; exact hx
    | succ k => exact absurd he (by simp)
  refine ⟨w, hw, ?_⟩
  have hiff := @snapshot_keeps [putEntry 1 1 "a"] [putEntry 1 2 "b"] 1 Json.text 200 _ w
    (Nat.le_refl 1) 1 "a" (hone 2 _ rfl) hw
  exact hiff.mpr ⟨rfl, fun h => absurd h (by simp)⟩

/-- Entries 1 and 2, then a snapshot at 1: entry 2 is written, synced, and not recovered. -/
def snapshotBelowEnd : List WalRecord :=
  [putEntry 1 1 "a", putEntry 1 2 "b"].map (LogEntry.record Json.text) ++ [.snapshot 1 1 "a"]

theorem snapshot_keeps_fails : ∃ w,
    (WriteAheadLog.openDir [] 200).writeAll Json.text snapshotBelowEnd = some w ∧
      (w.recover Json.text).map RecoveryResult.entries = some [] ∧
      ¬ Keeps Json.text w snapshotBelowEnd 1 [putEntry 1 2 "b"] := by
  obtain ⟨w, hw⟩ := Option.isSome_iff_exists.mp
    (show ((WriteAheadLog.openDir [] 200).writeAll Json.text snapshotBelowEnd).isSome = true
      by decide +kernel)
  have hrecover := ((holds_empty Json.text 200).writeAll hw).recover
  have hentries : (replay ([] ++ snapshotBelowEnd)).entries = [] := rfl
  refine ⟨w, hw, by rw [hrecover, Option.map_some, hentries], ?_⟩
  rintro ⟨⟨r, hr, -, he⟩, -⟩
  rw [hrecover] at hr
  cases hr
  rw [hentries] at he
  exact absurd he (by simp)

end Proof
end OrcDb
