import OrcDb.Storage.Record

/-!
# `RaftLog` — the in-memory log over a WAL

`src/raft/RaftLog.{hpp,cpp}`. `entries_[0]` is a sentinel at the snapshot position, and
`Offset` turns an absolute index into a vector offset by an unsigned subtraction. The WAL
calls of `Append` and `AppendAll` are returned as the records they write, in order.

`GetEntries` and `TruncateFrom` have no caller outside the unit tests and are left out.
-/

set_option autoImplicit false

namespace OrcDb

open Lib

structure RaftLog where
  entries : List LogEntry
  snapshotIndex : Nat
  snapshotTerm : Nat
deriving DecidableEq

namespace RaftLog

/-- The entry at offset 0: no operation, at the snapshot's index and term. -/
def sentinel (index term : Nat) : LogEntry := { term, index, opType := .NoOp }

/-- The constructor. -/
def empty : RaftLog := { entries := [sentinel 0 0], snapshotIndex := 0, snapshotTerm := 0 }

/-- `static_cast<size_t>(index - snapshotIndex_)` — an index below the snapshot wraps. -/
def offset (log : RaftLog) (index : Nat) : Nat :=
  if log.snapshotIndex ≤ index then index - log.snapshotIndex
  else 2 ^ 64 - (log.snapshotIndex - index)

/-- `Append`: push, then write the record. -/
def append (J : Json.Codec) (log : RaftLog) (e : LogEntry) : RaftLog × List WalRecord :=
  ({ log with entries := log.entries ++ [e] }, [e.record J])

/-- What the body of `AppendAll`'s loop does to the vector for one new entry. -/
def place (log : RaftLog) (ne : LogEntry) : RaftLog :=
  let off := log.offset ne.index
  match log.entries[off]? with
  | some old =>
      -- a conflicting entry is cut off together with everything after it;
      -- the same term at the same index means the entry is already there
      if old.term ≠ ne.term then { log with entries := log.entries.take off ++ [ne] } else log
  | none => { log with entries := log.entries ++ [ne] }

/-- `AppendAll`. Every new entry is written to the WAL, also the ones that are skipped. -/
def appendAll (J : Json.Codec) : RaftLog → List LogEntry → RaftLog × List WalRecord
  | log, [] => (log, [])
  | log, ne :: rest =>
      let (log', records) := appendAll J (log.place ne) rest
      (log', ne.record J :: records)

/-- `GetEntry`; `none` is `std::out_of_range`. -/
def getEntry (log : RaftLog) (index : Nat) : Option LogEntry := log.entries[log.offset index]?

/-- `entries_.back()`; the vector always holds at least the sentinel. -/
def back (log : RaftLog) : LogEntry := log.entries.getLastD {}

def lastIndex (log : RaftLog) : Nat := log.back.index

def lastTerm (log : RaftLog) : Nat := log.back.term

/-- `GetTerm`; past the end it answers 0. -/
def getTerm (log : RaftLog) (index : Nat) : Nat :=
  if index = log.snapshotIndex then log.snapshotTerm
  else match log.entries[log.offset index]? with
    | some e => e.term
    | none => 0

/-- `SetSnapshot`: erase `[begin, begin + off)`, or everything when `off` is past the end,
    then insert the new sentinel in front. -/
def setSnapshot (log : RaftLog) (index term : Nat) : RaftLog :=
  let off := log.offset index
  let kept := if off < log.entries.length then log.entries.drop off else []
  { entries := sentinel index term :: kept, snapshotIndex := index, snapshotTerm := term }

/-- `Size`: the entries after the sentinel. -/
def size (log : RaftLog) : Nat := log.entries.length - 1

end RaftLog
end OrcDb
