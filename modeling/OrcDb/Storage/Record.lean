import OrcDb.Raft.Rpc

/-!
# `WriteAheadLog` — the records, and what `Recover` makes of them

`src/storage/WriteAheadLog.hpp` and the `switch` of `Recover`. Every write to the WAL is one
record: a log entry, a hard state or a snapshot. This file is the record level: a WAL is
the list of the records whose writes completed, and `replay` folds `Recover`'s per-record
rule over it. `Storage/Wal.lean` is the byte level under it — frames, checksums, segment
files — and `Proof/Storage/Wal.lean` is the theorem that the two answer alike.
-/

set_option autoImplicit false

namespace OrcDb

open Lib

/-- `WriteAheadLog::HardState`. -/
structure HardState where
  term : Nat := 0
  votedFor : String := ""
deriving DecidableEq

/-- `WriteAheadLog::RawLogEntry`; `command` is the entry's serialized JSON. -/
structure RawLogEntry where
  term : Nat
  index : Nat
  command : String
deriving DecidableEq

/-- One call on the WAL: `AppendLogEntry`, `WriteHardState` or `WriteSnapshot`. -/
inductive WalRecord where
  | logEntry (e : RawLogEntry)
  | hardState (hs : HardState)
  | snapshot (index term : Nat) (data : String)
deriving DecidableEq

/-- `WriteAheadLog::RecoveryResult`. -/
structure RecoveryResult where
  entries : List RawLogEntry := []
  hardState : HardState := {}
  latestSnapshot : Option String := none
  snapshotIndex : Nat := 0
  snapshotTerm : Nat := 0
deriving DecidableEq

/-- The entry a `RaftLog` hands to the WAL. -/
def LogEntry.toRaw (J : Json.Codec) (e : LogEntry) : RawLogEntry :=
  { term := e.term, index := e.index, command := e.serialize J }

/-- The record `wal_->AppendLogEntry(raw)` writes for an entry. -/
def LogEntry.record (J : Json.Codec) (e : LogEntry) : WalRecord := .logEntry (e.toRaw J)

/-- `Recover`'s rule for one record. A log entry first pops everything at or above its own
    index; a snapshot discards *all* entries read so far, whatever its index. -/
def RecoveryResult.apply (r : RecoveryResult) : WalRecord → RecoveryResult
  | .logEntry e =>
      { r with entries := r.entries.rdropWhile (fun x => e.index ≤ x.index) ++ [e] }
  | .hardState hs => { r with hardState := hs }
  | .snapshot index term data =>
      { r with snapshotIndex := index, snapshotTerm := term, latestSnapshot := some data,
               entries := [] }

/-- `Recover` on a WAL whose records are all intact. -/
def replay (rs : List WalRecord) : RecoveryResult := rs.foldl RecoveryResult.apply {}

theorem replay_append (rs rs' : List WalRecord) :
    replay (rs ++ rs') = rs'.foldl RecoveryResult.apply (replay rs) := by
  simp [replay]

@[simp] theorem replay_concat (rs : List WalRecord) (r : WalRecord) :
    replay (rs ++ [r]) = (replay rs).apply r := by
  simp [replay]

end OrcDb
