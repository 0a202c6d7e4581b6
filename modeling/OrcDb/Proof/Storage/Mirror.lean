import OrcDb.Raft.Persist
import OrcDb.Proof.Storage.Replay
import OrcDb.Proof.Raft.Log
import OrcDb.Lib.Run
import OrcDb.Lib.JsonText

/-!
# Does the WAL reproduce the log?

`RaftLog` and `Recover` truncate by different rules. `AppendAll` cuts the log only at an entry
of another term and keeps what lies behind a batch it already has; but it writes a record for
every entry of the batch, and `Recover` drops everything at or above each record's index. So
a shorter or repeated batch, which leaves the log alone, truncates what will be recovered
(`wal_mirrors_log_fails`).

`Retells` is the condition under which the two agree: the batch repeats the log word for word
until it runs past the log's end or meets another term. It is exact — from a state where WAL
and log agree, they agree after the call if and only if the call meets it — so along a run
they agree throughout if and only if every call does (`wal_mirrors_log`).
-/

set_option autoImplicit false

namespace OrcDb
namespace Proof

open Lib

/-- `Recover` returns the entries behind the sentinel. -/
def Mirrors (J : Json.Codec) (d : DiskLog) : Prop :=
  ∃ r, d.wal.recover J = some r ∧ r.entries = d.log.entries.tail.map (LogEntry.toRaw J)

/-- A batch starts above the sentinel and repeats the log's own entries until the log ends or
    holds an entry of another term. -/
def Retells (log : RaftLog) : LogCall → Prop
  | .append _ => True
  | .appendAll [] => True
  | .appendAll (e :: es) =>
      0 < e.index ∧ ∃ j ≤ es.length + 1,
        (∀ k < j, log.getEntry (e.index + k) = (e :: es)[k]?) ∧
          (log.lastIndex < e.index + j ∨ ∃ old ∈ log.getEntry (e.index + j),
            ∃ ne ∈ (e :: es)[j]?, old.term ≠ ne.term)

instance (log : RaftLog) : (call : LogCall) → Decidable (Retells log call)
  | .append _ => inferInstanceAs (Decidable True)
  | .appendAll [] => inferInstanceAs (Decidable True)
  | .appendAll (_ :: es) => inferInstanceAs (Decidable (_ ∧ ∃ j ≤ es.length + 1, _ ∧ _))

variable {J : Json.Codec} {d d' : DiskLog} {log : RaftLog} {es : List LogEntry} {m : Nat}

/-! ## Entries as the WAL stores them -/

/-- The WAL's copy of an entry determines the entry. -/
theorem toRaw_injective (J : Json.Codec) : Function.Injective (LogEntry.toRaw J) := by
  intro e e' h
  have hcmd : e.serialize J = e'.serialize J := congrArg RawLogEntry.command h
  have hback := LogEntry.deserialize_serialize J e
  rw [hcmd, LogEntry.deserialize_serialize J e'] at hback
  exact (Option.some.inj hback).symm

theorem from_map_toRaw (h : ∀ (k : Nat) (e : LogEntry), es[k]? = some e → e.index = m + k) :
    From m (es.map (LogEntry.toRaw J)) := by
  intro k x hx
  rw [List.getElem?_map, Option.map_eq_some_iff] at hx
  obtain ⟨e, he, rfl⟩ := hx
  exact h k e he

/-- What the WAL should hold of a shaped log is numbered from one. -/
theorem Shaped.from_tail (hs : Shaped log) : From 1 (log.entries.tail.map (LogEntry.toRaw J)) := by
  apply from_map_toRaw
  intro k e he
  rw [List.getElem?_tail] at he
  rw [hs.index _ e he]
  omega

theorem records_eq (J : Json.Codec) (es : List LogEntry) :
    es.map (LogEntry.record J) = (es.map (LogEntry.toRaw J)).map WalRecord.logEntry := by
  rw [List.map_map]
  rfl

/-! ## One call -/

/-- `Retells` reads the log by its indices, which are the positions of the vector. -/
theorem retells_iff_retold (hs : Shaped log) {e : LogEntry} :
    Retells log (.appendAll (e :: es)) ↔
      0 < e.index ∧ Retold LogEntry.term log.entries e.index (e :: es) := by
  have hlast := hs.lastIndex_eq
  have hlen := hs.length_pos
  refine and_congr_right fun _ => exists_congr fun j => and_congr_right fun _ =>
    and_congr ?_ (or_congr ?_ ?_)
  · simp only [hs.getEntry_eq]
  · omega
  · simp only [hs.getEntry_eq, Option.mem_def]
    constructor
    · rintro ⟨old, hold, ne, hne, hterm⟩
      exact ⟨old, ne, hold, hne, hterm⟩
    · rintro ⟨old, ne, hold, hne, hterm⟩
      exact ⟨old, hold, ne, hne, hterm⟩

/-- **A batch, in memory and on disk**: the WAL goes over to the part in front of the batch and
    then the batch; the log does so exactly if the batch retells it. -/
theorem retells_iff (hs : Shaped log) {e : LogEntry} (hle : e.index ≤ log.lastIndex + 1)
    (hidx : ∀ (k : Nat) (x : LogEntry), (e :: es)[k]? = some x → x.index = e.index + k) :
    Retells log (.appendAll (e :: es)) ↔
      (log.appendAll J (e :: es)).1.entries.tail =
        log.entries.tail.take (e.index - 1) ++ e :: es := by
  have hlast := hs.lastIndex_eq
  have hlen := hs.length_pos
  have hm : e.index ≤ log.entries.length := by omega
  obtain ⟨hentries, -, -⟩ := Shaped.appendAll_entries J hs.snapshotIndex hidx
  rw [hentries, retells_iff_retold hs, ← merge_eq_iff hm]
  rcases Nat.eq_zero_or_pos e.index with h0 | hpos
  · -- a batch at the sentinel's index: the record with index 0 is never in the log's tail
    refine ⟨fun h => absurd h.1 (by omega), fun h => ?_⟩
    have hone : (merge LogEntry.term log.entries e.index (e :: es))[1]? = some e := by
      rw [← List.getElem?_tail, h, h0]
      rfl
    have := merge_forall hm hs.index hidx 1 e hone
    omega
  · -- the sentinel stays in front of both sides
    obtain ⟨M₀, M, hM⟩ := List.exists_cons_of_length_pos hs.length_pos
    have hhead : (merge LogEntry.term log.entries e.index (e :: es))[0]? = some M₀ := by
      rw [getElem?_merge hpos hm, hM]
      rfl
    have htake : log.entries.take e.index = M₀ :: log.entries.tail.take (e.index - 1) := by
      rw [hM, List.take_cons hpos]
      rfl
    rw [htake, List.cons_append]
    cases hmerge : merge LogEntry.term log.entries e.index (e :: es) with
    | nil => exact absurd (hmerge ▸ hhead) (by simp)
    | cons N₀ N =>
      rw [hmerge, List.getElem?_cons_zero] at hhead
      cases hhead
      rw [List.cons.injEq, List.tail_cons]
      exact ⟨fun h => h.2.2, fun h => ⟨hpos, rfl, h⟩⟩

/-- After a batch that retells the log, the log still has its shape. -/
theorem Shaped.retold (hs : Shaped log) {e : LogEntry} (hle : e.index ≤ log.lastIndex + 1)
    (hidx : ∀ (k : Nat) (x : LogEntry), (e :: es)[k]? = some x → x.index = e.index + k)
    (hpos : 0 < e.index) : Shaped (log.appendAll J (e :: es)).1 := by
  have hpred : e.index - 1 + 1 = e.index := Nat.sub_add_cancel hpos
  apply hs.appendAll J (p := e.index - 1)
  · rw [hpred]
    exact hidx
  · exact Nat.sub_le_iff_le_add.mpr hle

/-- The records a call writes. -/
def LogCall.records (J : Json.Codec) : LogCall → List WalRecord
  | .append e => [e.record J]
  | .appendAll es => es.map (LogEntry.record J)

theorem run_holds {call : LogCall} {rs : List WalRecord} (hh : Holds J d.wal rs)
    (hrun : call.run J d = some d') : Holds J d'.wal (rs ++ LogCall.records J call) := by
  cases call with
  | append e =>
    simp only [LogCall.run, Option.bind_eq_bind, Option.bind_eq_some_iff] at hrun
    obtain ⟨wal, hw, h⟩ := hrun
    cases h
    exact hh.writeAll hw
  | appendAll es =>
    simp only [LogCall.run, Option.bind_eq_bind, Option.bind_eq_some_iff] at hrun
    obtain ⟨wal, hw, h⟩ := hrun
    cases h
    rw [appendAll_records] at hw
    exact hh.writeAll hw

/-- **The step lemma**: from a state where WAL and log agree, they agree after the call exactly
    if the call retells the log. -/
theorem mirrors_step {call : LogCall} (hs : Shaped d.log) {rs : List WalRecord}
    (hh : Holds J d.wal rs) (hq : Mirrors J d) (hfits : call.Fits d.log)
    (hrun : call.run J d = some d') :
    (Retells d.log call ↔ Mirrors J d') ∧
      (Retells d.log call → Shaped d'.log ∧ ∃ rs', Holds J d'.wal rs') := by
  have hentries : (replay rs).entries = d.log.entries.tail.map (LogEntry.toRaw J) := by
    obtain ⟨r, hr, he⟩ := hq
    rw [hh.recover] at hr
    cases hr
    exact he
  have hfrom : From 1 (replay rs).entries := by
    rw [hentries]
    exact hs.from_tail
  have hh' := run_holds hh hrun
  cases call with
  | append e =>
    simp only [LogCall.run, Option.bind_eq_bind, Option.bind_eq_some_iff] at hrun
    obtain ⟨wal, hw, h⟩ := hrun
    cases h
    have hfits' : e.index = d.log.lastIndex + 1 := hfits
    have hlen := hs.lastIndex_lt
    refine ⟨⟨fun _ => ⟨_, hh'.recover, ?_⟩, fun _ => trivial⟩,
      fun _ => ⟨hs.append e hfits' J, _, hh'⟩⟩
    obtain ⟨M₀, M, hM⟩ := List.exists_cons_of_length_pos hs.length_pos
    have hlast := hs.lastIndex_eq
    rw [hM] at hlast
    simp only [RaftLog.append, LogCall.records, LogEntry.record]
    rw [replay_concat, apply_of_from hfrom, hentries, hM, List.cons_append, List.tail_cons,
      List.tail_cons, List.take_of_length_le ?_, List.map_append, List.map_singleton]
    rw [List.length_map]
    show M.length ≤ e.index - 1
    rw [hfits', hlast]
    simp
  | appendAll es =>
    simp only [LogCall.run, Option.bind_eq_bind, Option.bind_eq_some_iff] at hrun
    obtain ⟨wal, hw, h⟩ := hrun
    cases h
    cases es with
    | nil =>
      cases hw
      exact ⟨⟨fun _ => hq, fun _ => trivial⟩, fun _ => ⟨hs, _, hh⟩⟩
    | cons e es =>
      have hidx := Contiguous.index hfits.2
      have hdisk : (replay (rs ++ LogCall.records J (.appendAll (e :: es)))).entries =
          (d.log.entries.tail.take (e.index - 1) ++ e :: es).map (LogEntry.toRaw J) := by
        rw [LogCall.records, records_eq, replay_append,
          foldl_of_from hfrom (from_map_toRaw hidx) (by simp), hentries, List.map_append,
          List.map_take]
      refine ⟨?_, fun h => ⟨hs.retold hfits.1 hidx h.1, _, hh'⟩⟩
      rw [@retells_iff J d.log es hs e hfits.1 hidx]
      constructor
      · intro h
        refine ⟨_, hh'.recover, ?_⟩
        rw [hdisk, h]
      · rintro ⟨r, hr, he⟩
        rw [hh'.recover] at hr
        cases hr
        rw [hdisk] at he
        exact ((toRaw_injective J).list_map he).symm

/-- **The WAL reproduces the log, exactly as long as the batches retell it**: over every
    sequence of `Append` and `AppendAll` calls on a fresh log with an empty WAL, `Recover`
    returns the in-memory entries in every state reached if and only if every batch repeats
    the log until it ends or holds another term. -/
theorem wal_mirrors_log (J : Json.Codec) (maxSegmentBytes : Nat) {tr : List (DiskLog × LogCall)}
    (run : Runs (LogCall.run J) (fun d call => call.Fits d.log)
      (DiskLog.fresh maxSegmentBytes) tr d) :
    ((∀ p ∈ tr, Mirrors J p.1) ∧ Mirrors J d) ↔ ∀ p ∈ tr, Retells p.1.log p.2 := by
  have hfresh := holds_empty J maxSegmentBytes
  have hinit : Mirrors J (DiskLog.fresh maxSegmentBytes) := ⟨_, hfresh.recover, rfl⟩
  refine Runs.exact (I := fun d => Shaped d.log ∧ ∃ rs, Holds J d.wal rs)
    (C := fun d call => Retells d.log call) ?_ run ⟨shaped_empty, [], hfresh⟩ hinit
  rintro d call d' ⟨hs, rs, hh⟩ hq hfits hrun
  exact mirrors_step hs hh hq hfits hrun

def putEntry (term index : Nat) (value : String) : LogEntry :=
  { term, index, opType := .Put, key := "k", value }

/-- Two entries, the second one sent again with a third behind it, then a conflict. -/
def retold : List LogCall :=
  [.append (putEntry 1 1 "a"), .append (putEntry 1 2 "b"),
    .appendAll [putEntry 1 2 "b", putEntry 1 3 "c"], .appendAll [putEntry 2 2 "d"]]

theorem wal_mirrors_log_retold : ∃ tr d,
    Runs (LogCall.run Json.text) (fun d call => call.Fits d.log) (DiskLog.fresh 200) tr d ∧
      (∀ p ∈ tr, Retells p.1.log p.2) ∧ (∀ p ∈ tr, Mirrors Json.text p.1) ∧
      Mirrors Json.text d := by
  obtain ⟨d, hd, -⟩ := (Option.any_eq_true _ _).mp
    (show (exec (LogCall.run Json.text) (fun d call => call.Fits d.log ∧ Retells d.log call)
      (DiskLog.fresh 200) retold).any (fun _ => true) = true by decide +kernel)
  have run := runs_of_exec hd
  have hretells : ∀ p ∈ traceOf (LogCall.run Json.text) (DiskLog.fresh 200) retold,
      Retells p.1.log p.2 := by
    intro p hp
    obtain ⟨_, _, _, _, hok, _⟩ := run.split hp
    exact hok.2
  have run' := run.mono (fun _ _ h => h.1)
  have hmirror := (wal_mirrors_log Json.text 200 run').mpr hretells
  exact ⟨_, d, run', hretells, hmirror.1, hmirror.2⟩

theorem holds_of_exec {as : List LogCall} {rs : List WalRecord} (hh : Holds J d.wal rs)
    (h : exec (LogCall.run J) (fun d call => call.Fits d.log) d as = some d') :
    Holds J d'.wal (rs ++ as.flatMap (LogCall.records J)) := by
  induction as generalizing d rs with
  | nil =>
    cases h
    rw [List.flatMap_nil, List.append_nil]
    exact hh
  | cons call as ih =>
    obtain ⟨-, d₁, h₁, h⟩ := exec_cons h
    rw [List.flatMap_cons, ← List.append_assoc]
    exact ih (run_holds hh h₁) h

/-- The first of two entries is sent once more: the log keeps both, `Recover` returns one. -/
def sentAgain : List LogCall :=
  [.append (putEntry 1 1 "a"), .append (putEntry 1 2 "b"), .appendAll [putEntry 1 1 "a"]]

/-- **A repeated batch truncates the WAL.** -/
theorem wal_mirrors_log_fails : ∃ tr d,
    Runs (LogCall.run Json.text) (fun d call => call.Fits d.log) (DiskLog.fresh 200) tr d ∧
      d.log.entries.tail = [putEntry 1 1 "a", putEntry 1 2 "b"] ∧
      (d.wal.recover Json.text).map RecoveryResult.entries =
        some [(putEntry 1 1 "a").toRaw Json.text] ∧ ¬ Mirrors Json.text d := by
  obtain ⟨d, hd, hlog⟩ := (Option.any_eq_true _ _).mp
    (show (exec (LogCall.run Json.text) (fun d call => call.Fits d.log)
      (DiskLog.fresh 200) sentAgain).any (fun d =>
        decide (d.log.entries.tail = [putEntry 1 1 "a", putEntry 1 2 "b"])) = true
      by decide +kernel)
  rw [decide_eq_true_eq] at hlog
  have hrecover := (holds_of_exec (holds_empty Json.text 200) hd).recover
  have hentries : (replay ([] ++ sentAgain.flatMap (LogCall.records Json.text))).entries =
      [(putEntry 1 1 "a").toRaw Json.text] := by
    decide +kernel
  refine ⟨_, d, runs_of_exec hd, hlog, ?_, ?_⟩
  · rw [hrecover, Option.map_some, hentries]
  · rintro ⟨r, hr, he⟩
    rw [hrecover] at hr
    cases hr
    rw [hentries, hlog] at he
    exact absurd (congrArg List.length he) (by simp)

end Proof
end OrcDb
