import OrcDb.Raft.Node
import OrcDb.Storage.Wal

/-!
# `RaftLog` and the constructor of `RaftNode` on the WAL's files

A `RaftLog` constructed with a WAL writes every entry it is handed to that WAL, inside the
call. `Append` and `AppendAll` are the two calls that do; `none` is an exception out of the
WAL. What such an exception leaves behind depends on how far the call has come: `tryAppend` and
`tryAppendAll` are the two calls given what each `::write` returns. The constructor of
`RaftNode` appends the entries it recovers in the same way, so a restart writes to the
directory it reads.
-/

set_option autoImplicit false

namespace OrcDb

open Lib

/-- The in-memory log and the WAL it writes to. -/
structure DiskLog where
  log : RaftLog
  wal : WriteAheadLog

/-- A fresh `RaftLog` on an empty directory. -/
def DiskLog.fresh (maxSegmentBytes : Nat) : DiskLog :=
  { log := RaftLog.empty, wal := WriteAheadLog.openDir [] maxSegmentBytes }

inductive LogCall where
  | append (e : LogEntry)
  | appendAll (es : List LogEntry)

namespace LogCall

def run (J : Json.Codec) (d : DiskLog) : LogCall → Option DiskLog
  | .append e => do
      let (log, records) := d.log.append J e
      let wal ← d.wal.writeAll J records
      return { log, wal }
  | .appendAll es => do
      let (log, records) := d.log.appendAll J es
      let wal ← d.wal.writeAll J records
      return { log, wal }

/-- What the callers keep to: `Append` continues the log, a batch is contiguous and starts no
    further than behind the last entry. -/
def Fits (log : RaftLog) : LogCall → Prop
  | .append e => e.index = log.lastIndex + 1
  | .appendAll [] => True
  | .appendAll (e :: es) =>
      e.index ≤ log.lastIndex + 1 ∧
        (e :: es).map LogEntry.index = List.range' e.index (es.length + 1)

instance (log : RaftLog) (call : LogCall) : Decidable (call.Fits log) := by
  unfold Fits
  split <;> infer_instance

end LogCall

/-! ## Writes that fail -/

namespace WriteAheadLog

/-- `WriteRecord`, where `::write` returns `written`: as many bytes are in the file, none for
    `-1`. The flag is `false` for the exception, which leaves `currentOffset_` as it was. -/
def tryWriteRecord (w : WriteAheadLog) (type : RecordType) (payload : List UInt8) (written : Int) :
    WriteAheadLog × Bool :=
  let record := Frame.bytes crc32 ⟨type.toByte, payload⟩
  let w' := w.write (record.take written.toNat)
  if written ≠ record.length then ({ w' with currentOffset := w.currentOffset }, false)
  else ({ w' with currentOffset := w.currentOffset + record.length }, true)

def tryAppendLogEntry (J : Json.Codec) (w : WriteAheadLog) (e : RawLogEntry) (written : Int) :
    WriteAheadLog × Bool :=
  let (w, ok) := w.tryWriteRecord .LogEntry (toBytes (J.dump e.toJson)) written
  if ok then (w.maybeRotate, true) else (w, false)

end WriteAheadLog

namespace DiskLog

/-- `Append`: the vector first, then the WAL. -/
def tryAppend (J : Json.Codec) (d : DiskLog) (e : LogEntry) (written : Int) : DiskLog × Bool :=
  let log := { d.log with entries := d.log.entries ++ [e] }
  let (wal, ok) := d.wal.tryAppendLogEntry J (e.toRaw J) written
  ({ log, wal }, ok)

/-- `AppendAll`, each entry with what its `::write` returns: the vector first, then the WAL,
    entry by entry up to an exception. -/
def tryAppendAll (J : Json.Codec) : DiskLog → List (LogEntry × Int) → DiskLog × Bool
  | d, [] => (d, true)
  | d, (ne, written) :: rest =>
      let log := d.log.place ne
      let (wal, ok) := d.wal.tryAppendLogEntry J (ne.toRaw J) written
      if ok then tryAppendAll J { log, wal } rest else ({ log, wal }, false)

end DiskLog

/-! ## The constructor -/

/-- The constructor on a directory, stopped after `k` of the appends of recovered entries: the
    files it leaves. -/
def RaftNode.restartInterrupted (J : Json.Codec) (maxSegmentBytes : Nat)
    (files : List (Nat × List UInt8)) (k : Nat) : Option (List (Nat × List UInt8)) := do
  let wal := WriteAheadLog.openDir files maxSegmentBytes
  let r ← wal.recover J
  let wal ← wal.writeAll J (((recoveredEntries J r).take k).map (LogEntry.record J))
  return wal.files

end OrcDb
