import OrcDb.Bytes
import OrcDb.Storage.Record
import OrcDb.Lib.Frames

/-!
# `WriteAheadLog` — frames, checksums and segment files

`src/storage/WriteAheadLog.cpp`, down to the bytes. The directory is a list of segment files
in whatever order the file system lists them; a segment is its number and its content. A
record is one frame, appended to the current segment — `O_APPEND`, so behind whatever the
file already holds.

`none` is a thrown exception. A write throws when it comes back short, which on Linux is a
record of more than `0x7ffff000` bytes; `Recover` throws when a frame whose checksum matches
does not hold the JSON its type byte promises. Failing system calls are not modelled, and
`fdatasync` has no effect here: a crash is described by the bytes it leaves in the files.
-/

set_option autoImplicit false

namespace OrcDb

open Lib

/-! ## CRC32 -/

/-- One turn of `BuildCrc32Table`'s inner loop. -/
def crc32Shift (crc : UInt32) : UInt32 :=
  if crc &&& 1 ≠ 0 then (0xEDB88320 : UInt32) ^^^ (crc >>> 1) else crc >>> 1

/-- `crc32_table[i]`. -/
def crc32Table (i : UInt32) : UInt32 := crc32Shift^[8] i

/-- `Crc32`. -/
def crc32 (bytes : List UInt8) : UInt32 :=
  bytes.foldl (fun crc b => crc32Table ((crc ^^^ b.toUInt32) &&& 0xFF) ^^^ (crc >>> 8))
    0xFFFFFFFF ^^^ 0xFFFFFFFF

-- the usual check value, the sum over the digits `1` to `9`
example : crc32 [0x31, 0x32, 0x33, 0x34, 0x35, 0x36, 0x37, 0x38, 0x39] = 0xCBF43926 := by
  decide +kernel

/-! ## Records as JSON -/

/-- `enum class RecordType : uint8_t`. -/
inductive RecordType where
  | LogEntry
  | HardState
  | Snapshot
deriving DecidableEq

def RecordType.toByte : RecordType → UInt8
  | .LogEntry => 0x01
  | .HardState => 0x02
  | .Snapshot => 0x03

/-- The `case` of `Recover`'s `switch`; a byte without a name falls through it. -/
def RecordType.ofByte? (b : UInt8) : Option RecordType :=
  if b = 0x01 then some .LogEntry
  else if b = 0x02 then some .HardState
  else if b = 0x03 then some .Snapshot
  else none

/-- The document `AppendLogEntry` prints; like the two below, its keys in `std::map` order. -/
def RawLogEntry.toJson (e : RawLogEntry) : Json :=
  .obj [("cmd", .str e.command), ("index", .num e.index), ("term", .num e.term)]

/-- The document `WriteHardState` prints. -/
def HardState.toJson (hs : HardState) : Json :=
  .obj [("term", .num hs.term), ("voted_for", .str hs.votedFor)]

/-- The document `WriteSnapshot` prints. -/
def snapshotJson (index term : Nat) (data : String) : Json :=
  .obj [("data", .str data), ("index", .num index), ("term", .num term)]

/-- The frame a record is written as. -/
def WalRecord.frame (J : Json.Codec) : WalRecord → Frame
  | .logEntry e => ⟨RecordType.LogEntry.toByte, toBytes (J.dump e.toJson)⟩
  | .hardState hs => ⟨RecordType.HardState.toByte, toBytes (J.dump hs.toJson)⟩
  | .snapshot index term data =>
      ⟨RecordType.Snapshot.toByte, toBytes (J.dump (snapshotJson index term data))⟩

/-- The bytes a call appends. -/
def WalRecord.bytes (J : Json.Codec) (rec : WalRecord) : List UInt8 :=
  (WalRecord.frame J rec).bytes crc32

/-- The body of `Recover`'s loop for a frame that passed its checksum. -/
def readRecord (J : Json.Codec) (r : RecoveryResult) (f : Frame) : Option RecoveryResult := do
  let j ← J.parse (← ofBytes? f.payload)
  match RecordType.ofByte? f.tag with
  | some .LogEntry =>
      let term ← getUInt64 (← j.field? "term")
      let index ← getUInt64 (← j.field? "index")
      let command ← getString (← j.field? "cmd")
      return r.apply (.logEntry { term, index, command })
  | some .HardState =>
      let term ← getUInt64 (← j.field? "term")
      let votedFor ← getString (← j.field? "voted_for")
      return r.apply (.hardState { term, votedFor })
  | some .Snapshot =>
      let index ← getUInt64 (← j.field? "index")
      let term ← getUInt64 (← j.field? "term")
      let data ← getString (← j.field? "data")
      return r.apply (.snapshot index term data)
  | none => return r

/-! ## The segment files -/

structure WriteAheadLog where
  /-- The directory: segment numbers and contents. -/
  files : List (Nat × List UInt8)
  maxSegmentBytes : Nat
  currentSegment : Nat
  currentOffset : Nat
deriving DecidableEq

namespace WriteAheadLog

/-- `OpenOrCreateSegment`: the offset is the size of the file as it is found. -/
def openOrCreateSegment (w : WriteAheadLog) (seg : Nat) : WriteAheadLog :=
  match w.files.lookup seg with
  | some content => { w with currentSegment := seg, currentOffset := content.length }
  | none =>
      { w with files := w.files ++ [(seg, [])], currentSegment := seg, currentOffset := 0 }

/-- The constructor: open the highest segment there is, or segment 0. -/
def openDir (files : List (Nat × List UInt8)) (maxSegmentBytes : Nat) : WriteAheadLog :=
  let highest := (files.map Prod.fst).foldl max 0
  openOrCreateSegment { files, maxSegmentBytes, currentSegment := highest, currentOffset := 0 }
    highest

def maybeRotate (w : WriteAheadLog) : WriteAheadLog :=
  if w.currentOffset ≥ w.maxSegmentBytes then w.openOrCreateSegment (w.currentSegment + 1) else w

/-- `::write` on the current descriptor: the bytes go to the end of the current file. -/
def write (w : WriteAheadLog) (bytes : List UInt8) : WriteAheadLog :=
  { w with
    files := w.files.map fun file =>
      if file.1 = w.currentSegment then (file.1, file.2 ++ bytes) else file
    currentOffset := w.currentOffset + bytes.length }

/-- The most bytes one `write` call transfers. -/
def maxWrite : Nat := 0x7ffff000

/-- `WriteRecord`. -/
def writeRecord (w : WriteAheadLog) (type : RecordType) (payload : List UInt8) :
    Option WriteAheadLog :=
  let record := Frame.bytes crc32 ⟨type.toByte, payload⟩
  if record.length ≤ maxWrite then some (w.write record) else none

/-- `AppendLogEntry`. -/
def appendLogEntry (J : Json.Codec) (w : WriteAheadLog) (e : RawLogEntry) :
    Option WriteAheadLog := do
  let w ← w.writeRecord .LogEntry (toBytes (J.dump e.toJson))
  return w.maybeRotate

/-- `WriteHardState`: neither synced nor followed by a rotation. -/
def writeHardState (J : Json.Codec) (w : WriteAheadLog) (hs : HardState) : Option WriteAheadLog :=
  w.writeRecord .HardState (toBytes (J.dump hs.toJson))

/-- `WriteSnapshot` always moves on to the next segment. -/
def writeSnapshot (J : Json.Codec) (w : WriteAheadLog) (index term : Nat) (data : String) :
    Option WriteAheadLog := do
  let w ← w.writeRecord .Snapshot (toBytes (J.dump (snapshotJson index term data)))
  return w.openOrCreateSegment (w.currentSegment + 1)

/-- One call on the WAL. -/
def writeOne (J : Json.Codec) (w : WriteAheadLog) : WalRecord → Option WriteAheadLog
  | .logEntry e => w.appendLogEntry J e
  | .hardState hs => w.writeHardState J hs
  | .snapshot index term data => w.writeSnapshot J index term data

/-- A sequence of calls. -/
def writeAll (J : Json.Codec) (w : WriteAheadLog) (rs : List WalRecord) : Option WriteAheadLog :=
  rs.foldlM (writeOne J) w

/-- One segment of `Recover`: its frames, up to the first that is short or fails its checksum. -/
def readSegment (J : Json.Codec) (r : RecoveryResult) (content : List UInt8) :
    Option RecoveryResult :=
  (frames crc32 content).foldlM (readRecord J) r

/-- `Recover`: the segments in the order of their numbers. -/
def recover (J : Json.Codec) (w : WriteAheadLog) : Option RecoveryResult :=
  ((w.files.map Prod.fst).insertionSort (· ≤ ·)).foldlM (fun r seg =>
    match w.files.lookup seg with
    | some content => readSegment J r content
    | none => some r) {}

end WriteAheadLog

/-- One `write` call takes the whole record. -/
def Small (J : Json.Codec) (rec : WalRecord) : Prop :=
  (WalRecord.bytes J rec).length ≤ WriteAheadLog.maxWrite

instance (J : Json.Codec) (rec : WalRecord) : Decidable (Small J rec) :=
  inferInstanceAs (Decidable (_ ≤ _))

/-- A record that is written whole is small enough for its length field. -/
theorem Small.payload {J : Json.Codec} {rec : WalRecord} (h : Small J rec) :
    (WalRecord.frame J rec).payload.length < 2 ^ 32 := by
  unfold Small WalRecord.bytes WriteAheadLog.maxWrite at h
  rw [Frame.length_bytes] at h
  omega

end OrcDb
