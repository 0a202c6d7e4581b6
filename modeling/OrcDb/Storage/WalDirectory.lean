import OrcDb.Storage.Wal

/-!
# The directory of the WAL, file by file

`Storage/Wal.lean` knows a segment by its number. Here it is a file with a name, in a directory
with other files, as the constructor, `SegmentPath`, `OpenOrCreateSegment` and `Recover` of
`src/storage/WriteAheadLog.cpp` find it. The number is printed with `%016llu` and read back with
`std::stoull` from between `wal-` and `.log`; a name of this shape without a number in it
makes the constructor and `Recover` throw.

`fs::directory_iterator` lists in no order. A listing is a list, and another one comes in between
any two calls: the same segments in another order, the other files as they are by then.

Writing is that of `Storage/Wal.lean`, to the file the descriptor is open on. `currentSegment_`
is a `uint64_t`.
-/

set_option autoImplicit false

namespace OrcDb

open Lib

/-- `snprintf` with `%016llu`. -/
def paddedDecimal (n : Nat) : Bytes :=
  let digits := toBytes (toString n)
  List.replicate (16 - digits.length) 48 ++ digits

/-- The file name in `SegmentPath`. -/
def segmentName (seg : Nat) : Bytes := toBytes "wal-" ++ paddedDecimal seg ++ toBytes ".log"

/-- `name.rfind("wal-", 0) == 0 && name.ends_with(".log")`. -/
def isSegmentName (name : Bytes) : Bool :=
  (toBytes "wal-").isPrefixOf name && (toBytes ".log").isSuffixOf name

/-- `std::stoull(name.substr(4, name.size() - 8))`. -/
def segmentNumber (name : Bytes) : Option Nat := stoull ((name.drop 4).take (name.length - 8))

/-- The calls on a WAL. In `tear` the process or the device fails `k` bytes into a record. -/
inductive WalCall where
  | write (rec : WalRecord)
  | tear (rec : WalRecord) (k : Nat)
  | reopen (maxSegmentBytes : Nat)

/-- The calls on segments with numbers. -/
def WriteAheadLog.step (J : Json.Codec) (w : WriteAheadLog) : WalCall → Option WriteAheadLog
  | .write rec => w.writeOne J rec
  | .tear rec k => some (w.write ((rec.bytes J).take k))
  | .reopen maxSegmentBytes => some (openDir w.files maxSegmentBytes)

structure WalDirectory where
  /-- The directory as it is listed: names and contents. -/
  files : List (Bytes × Bytes)
  maxSegmentBytes : Nat
  currentSegment : Nat
  currentOffset : Nat
deriving DecidableEq

namespace WalDirectory

/-- The loop over the directory in the constructor and in `Recover`. -/
def segments (files : List (Bytes × Bytes)) : Option (List Nat) :=
  (files.filter fun file => isSegmentName file.1).mapM fun file => segmentNumber file.1

def openOrCreateSegment (d : WalDirectory) (seg : Nat) : WalDirectory :=
  match d.files.lookup (segmentName seg) with
  | some content => { d with currentSegment := seg, currentOffset := content.length }
  | none =>
      { d with
        files := d.files ++ [(segmentName seg, [])]
        currentSegment := seg
        currentOffset := 0 }

/-- The constructor. -/
def openDir (files : List (Bytes × Bytes)) (maxSegmentBytes : Nat) : Option WalDirectory := do
  let highest := (← segments files).foldl max 0
  return openOrCreateSegment
    { files, maxSegmentBytes, currentSegment := highest, currentOffset := 0 } highest

def nextSegment (d : WalDirectory) : Nat := (d.currentSegment + 1) % 2 ^ 64

def maybeRotate (d : WalDirectory) : WalDirectory :=
  if d.currentOffset ≥ d.maxSegmentBytes then d.openOrCreateSegment d.nextSegment else d

def write (d : WalDirectory) (bytes : Bytes) : WalDirectory :=
  { d with
    files := d.files.map fun file =>
      if file.1 = segmentName d.currentSegment then (file.1, file.2 ++ bytes) else file
    currentOffset := d.currentOffset + bytes.length }

/-- `AppendLogEntry`, `WriteHardState` and `WriteSnapshot`. -/
def writeOne (J : Json.Codec) (d : WalDirectory) (rec : WalRecord) : Option WalDirectory :=
  if Small J rec then
    let d := d.write (rec.bytes J)
    match rec with
    | .logEntry _ => some d.maybeRotate
    | .hardState _ => some d
    | .snapshot _ _ _ => some (d.openOrCreateSegment d.nextSegment)
  else none

def recover (J : Json.Codec) (d : WalDirectory) : Option RecoveryResult := do
  ((← segments d.files).insertionSort (· ≤ ·)).foldlM (fun r seg =>
    match d.files.lookup (segmentName seg) with
    | some content => WriteAheadLog.readSegment J r content
    | none => some r) {}

end WalDirectory

inductive DirectoryEvent where
  | call (c : WalCall)
  /-- The next listing. -/
  | list (files : List (Bytes × Bytes))

def WalDirectory.step (J : Json.Codec) (d : WalDirectory) : DirectoryEvent → Option WalDirectory
  | .call (.write rec) => d.writeOne J rec
  | .call (.tear rec k) => some (d.write ((rec.bytes J).take k))
  | .call (.reopen maxSegmentBytes) => openDir d.files maxSegmentBytes
  | .list files =>
      if (files.filter fun file => isSegmentName file.1).Perm
          (d.files.filter fun file => isSegmentName file.1)
      then some { d with files } else none

end OrcDb
