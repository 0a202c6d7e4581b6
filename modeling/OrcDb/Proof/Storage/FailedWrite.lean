import OrcDb.Raft.Persist
import OrcDb.Proof.Raft.Log
import OrcDb.Lib.JsonText

/-!
# What a failed write leaves in memory

`Append` and `AppendAll` change the vector and then write the record. So when the write fails,
the entry it was for is in the log, and whatever it displaced is gone. Nothing is undone.

The log should be left with the entries whose records were written and no other. `tryAppend`
always leaves one more. `tryAppendAll` leaves it so only where the entry that could not be
written was in the log by then and there was nothing to change (`undone_iff`). For a batch that
is numbered on from an index of the log this is a condition on the log before the call
(`nothingToUndo_iff`).
-/

set_option autoImplicit false

namespace OrcDb
namespace Proof

open Lib

/-! ## Writes that succeed -/

/-- The number of bytes `WriteRecord` asks `::write` for. -/
def recordLength (J : Json.Codec) (e : LogEntry) : Nat :=
  (Frame.bytes crc32 ⟨RecordType.LogEntry.toByte, toBytes (J.dump (e.toRaw J).toJson)⟩).length

variable {J : Json.Codec} {d : DiskLog} {w w' : WriteAheadLog} {log : RaftLog} {e : LogEntry}
  {written : Int}

theorem tryAppendLogEntry_ok :
    (w.tryAppendLogEntry J (e.toRaw J) written).2 = decide (written = recordLength J e) := by
  unfold WriteAheadLog.tryAppendLogEntry WriteAheadLog.tryWriteRecord
  by_cases h : written = recordLength J e
  · have hlen := h
    unfold recordLength at hlen
    simp [h, ← hlen]
  · have hlen := h
    unfold recordLength at hlen
    simp [h, hlen]

theorem tryAppendLogEntry_of_some (h : w.appendLogEntry J (e.toRaw J) = some w') :
    w.tryAppendLogEntry J (e.toRaw J) (recordLength J e) = (w', true) := by
  simp only [WriteAheadLog.appendLogEntry, WriteAheadLog.writeRecord] at h
  split at h
  · cases h
    simp [WriteAheadLog.tryAppendLogEntry, WriteAheadLog.tryWriteRecord, recordLength,
      WriteAheadLog.write]
  · exact absurd h (by simp)

/-- Where `::write` takes every record whole, the calls are the ones that do not fail. -/
theorem tryAppendAll_eq_run {es : List LogEntry} {d' : DiskLog}
    (h : (LogCall.appendAll es).run J d = some d') :
    d.tryAppendAll J (es.map fun e => (e, (recordLength J e : Int))) = (d', true) := by
  induction es generalizing d with
  | nil =>
    cases h
    rfl
  | cons e es ih =>
    simp only [LogCall.run, RaftLog.appendAll, WriteAheadLog.writeAll, List.foldlM_cons,
      Option.bind_eq_bind, Option.bind_eq_some_iff] at h
    obtain ⟨wal, ⟨w₁, hw₁, hwal⟩, hd'⟩ := h
    have hfirst := tryAppendLogEntry_of_some hw₁
    rw [List.map_cons, DiskLog.tryAppendAll, hfirst]
    refine ih (d := { log := d.log.place e, wal := w₁ }) ?_
    simp only [LogCall.run, WriteAheadLog.writeAll, hwal, Option.bind_eq_bind, Option.bind_some]
    exact hd'

theorem tryAppend_eq_run {d' : DiskLog} (h : (LogCall.append e).run J d = some d') :
    d.tryAppend J e (recordLength J e) = (d', true) := by
  simp only [LogCall.run, RaftLog.append, WriteAheadLog.writeAll, List.foldlM_cons,
    List.foldlM_nil, Option.bind_eq_bind, Option.bind_eq_some_iff] at h
  obtain ⟨wal, ⟨w₁, hw₁, hwal⟩, hd'⟩ := h
  cases hwal
  cases hd'
  rw [DiskLog.tryAppend, tryAppendLogEntry_of_some hw₁]

/-! ## Writes that fail -/

/-- Is the record of an entry written? -/
def Written (J : Json.Codec) (p : LogEntry × Int) : Prop := p.2 = recordLength J p.1

instance (p : LogEntry × Int) : Decidable (Written J p) := inferInstanceAs (Decidable (_ = _))

/-- The entries of a batch whose records are written. -/
def writtenOf (J : Json.Codec) (batch : List (LogEntry × Int)) : List LogEntry :=
  (batch.takeWhile fun p => decide (Written J p)).map Prod.fst

/-- The entry at which the loop stops. -/
def failing? (J : Json.Codec) (batch : List (LogEntry × Int)) : Option LogEntry :=
  (batch.find? fun p => decide (¬ Written J p)).map Prod.fst

/-- The log has an entry of the same term where `e` would go. -/
def Has (log : RaftLog) (e : LogEntry) : Prop :=
  KeyAt LogEntry.term log.entries (log.offset e.index) e

theorem place_eq_self_iff : log.place e = log ↔ Has log e := by
  refine Iff.trans ?_ (placeAt_eq_self_iff (m := log.offset e.index))
  rw [place_eq_placeAt]
  constructor
  · intro h
    exact congrArg RaftLog.entries h
  · intro h
    rw [h]

theorem tryAppendAll_spec (J : Json.Codec) (d : DiskLog) (batch : List (LogEntry × Int)) :
    (d.tryAppendAll J batch).2 = (failing? J batch).isNone ∧
      (d.tryAppendAll J batch).1.log =
        ((failing? J batch).elim id fun e log => log.place e)
          (d.log.appendAll J (writtenOf J batch)).1 := by
  induction batch generalizing d with
  | nil => exact ⟨rfl, rfl⟩
  | cons p batch ih =>
    obtain ⟨e, written⟩ := p
    have hok : (d.wal.tryAppendLogEntry J (e.toRaw J) written).2 =
        decide (Written J (e, written)) :=
      tryAppendLogEntry_ok
    rw [DiskLog.tryAppendAll]
    dsimp only
    by_cases hwritten : Written J (e, written)
    · have hwrittenOf : writtenOf J ((e, written) :: batch) = e :: writtenOf J batch := by
        simp [writtenOf, hwritten]
      have hfailing : failing? J ((e, written) :: batch) = failing? J batch := by
        simp [failing?, hwritten]
      rw [hok, decide_eq_true hwritten, if_pos rfl, hwrittenOf, hfailing]
      exact ih _
    · have hwrittenOf : writtenOf J ((e, written) :: batch) = [] := by
        simp [writtenOf, hwritten]
      have hfailing : failing? J ((e, written) :: batch) = some e := by
        simp [failing?, hwritten]
      rw [hok, decide_eq_false hwritten, if_neg Bool.false_ne_true, hwrittenOf, hfailing]
      exact ⟨rfl, rfl⟩

/-- One call, with what `::write` returns in it. -/
inductive Attempt where
  | append (e : LogEntry) (written : Int)
  | appendAll (batch : List (LogEntry × Int))

/-- A call that throws leaves no entry in memory whose record was not written: `Append` leaves
    the log as it was, `AppendAll` leaves it as after the entries that were written. -/
def Undone (J : Json.Codec) (d : DiskLog) : Attempt → Prop
  | .append e written => (d.tryAppend J e written).2 = false →
      (d.tryAppend J e written).1.log = d.log
  | .appendAll batch => (d.tryAppendAll J batch).2 = false →
      (d.tryAppendAll J batch).1.log = (d.log.appendAll J (writtenOf J batch)).1

/-- There is nothing to undo: the record of `Append` is written, or the entry at which
    `AppendAll` stops is in the log by then. -/
def NothingToUndo (J : Json.Codec) (d : DiskLog) : Attempt → Prop
  | .append e written => Written J (e, written)
  | .appendAll batch => ∀ e, failing? J batch = some e →
      Has (d.log.appendAll J (writtenOf J batch)).1 e

/-- A batch is numbered like the entries of the log, from no further than behind them on. -/
def InPlace (log : RaftLog) (es : List LogEntry) : Prop :=
  ∃ m ≤ log.entries.length, Contiguous (log.snapshotIndex + m) es

theorem has_appendAll_iff {done : List LogEntry} (hplace : InPlace log (done ++ [e])) :
    Has (log.appendAll J done).1 e ↔ ∀ x ∈ done ++ [e], Has log x := by
  obtain ⟨m, hm, hcontiguous⟩ := hplace
  have hoffset : ∀ (k : Nat) x, (done ++ [e])[k]? = some x → log.offset x.index = m + k := by
    intro k x hx
    rw [hcontiguous.index k x hx, RaftLog.offset, if_pos (by omega)]
    omega
  have hleft : ∀ (k : Nat) x, done[k]? = some x → (done ++ [e])[k]? = some x := by
    intro k x hx
    rw [List.getElem?_append_left (List.getElem?_eq_some_iff.mp hx).1, hx]
  have hlast : log.offset e.index = m + done.length := hoffset done.length e (by simp)
  have hmerge : (log.appendAll J done).1 =
      { log with entries := merge LogEntry.term log.entries m done } :=
    appendAll_eq_merge J fun k x hx => hcontiguous.index k x (hleft k x hx)
  have hbefore : (∀ x ∈ done, Has log x) ↔
      ∀ k x, done[k]? = some x → KeyAt LogEntry.term log.entries (m + k) x := by
    constructor
    · intro h k x hx
      rw [← hoffset k x (hleft k x hx)]
      exact h x (List.mem_of_getElem? hx)
    · intro h x hx
      obtain ⟨k, hk⟩ := List.mem_iff_getElem?.mp hx
      rw [Has, hoffset k x (hleft k x hk)]
      exact h k x hk
  rw [List.forall_mem_append, List.forall_mem_singleton, hbefore, hmerge]
  unfold Has
  rw [show
    ({ log with entries := merge LogEntry.term log.entries m done } : RaftLog).offset e.index =
    m + done.length from hlast, hlast]
  exact keyAt_merge_iff hm

/-- For such a batch the condition is one on the log before the call: the batch was there, up to
    and with the entry that could not be written. -/
theorem nothingToUndo_iff {batch : List (LogEntry × Int)} (hfailing : failing? J batch = some e)
    (hplace : InPlace d.log (writtenOf J batch ++ [e])) :
    NothingToUndo J d (.appendAll batch) ↔ ∀ x ∈ writtenOf J batch ++ [e], Has d.log x := by
  rw [NothingToUndo, hfailing]
  simp only [Option.some.injEq, forall_eq']
  exact has_appendAll_iff hplace

/-- **A failed write is never undone**: the log is left as it should be exactly where there is
    nothing to undo. -/
theorem undone_iff (J : Json.Codec) (d : DiskLog) (call : Attempt) :
    Undone J d call ↔ NothingToUndo J d call := by
  cases call with
  | append e written =>
    have hlog : (d.tryAppend J e written).1.log ≠ d.log := by
      intro h
      have := congrArg (fun log => log.entries.length) h
      simp [DiskLog.tryAppend] at this
    have hok : (d.tryAppend J e written).2 = decide (Written J (e, written)) :=
      tryAppendLogEntry_ok
    simp only [Undone, NothingToUndo, hok, decide_eq_false_iff_not, hlog, imp_false, not_not]
  | appendAll batch =>
    obtain ⟨hok, hlog⟩ := tryAppendAll_spec J d batch
    simp only [Undone, NothingToUndo, hok, hlog]
    cases failing? J batch with
    | none => simp
    | some e => simp [place_eq_self_iff]

/-- The disk is full: the first entry of a fresh log is in memory, and nothing on disk. -/
theorem undone_fails :
    let d := DiskLog.fresh 200
    let out := d.tryAppend Json.text { term := 1, index := 1 } (-1)
    out.2 = false ∧ out.1.wal = d.wal ∧ out.1.log.lastIndex = 1 ∧ d.log.lastIndex = 0 := by
  decide +kernel

end Proof
end OrcDb
