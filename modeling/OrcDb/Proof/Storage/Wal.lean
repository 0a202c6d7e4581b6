import OrcDb.Storage.Wal

/-!
# The bytes answer like the records

`Storage/Record.lean` says what `Recover` makes of a list of records, `Storage/Wal.lean` what
it makes of the files. Here the two are tied together: a record's frame reads back as the
record (`readRecord_frame`), a write appends its frame to the stream of frames in the
directory, across rotations (`Layout.writeOne`), and so `Recover` on a WAL whose writes all
completed is `replay` of its records (`Holds.recover`).

`Layout` is the directory as a handle sees it — closed segments in ascending order, then the
current one. `Holds` adds that the current segment is clean, i.e. that nothing torn stands at
its end; that is the part a crash can break.
-/

set_option autoImplicit false

namespace OrcDb
namespace Proof

open Lib

/-! ## Records and their frames -/

theorem rawLogEntry_canonical (e : RawLogEntry) : e.toJson.Canonical :=
  .flat (by simp only [List.map_cons, List.map_nil]; decide) rfl

theorem hardState_canonical (hs : HardState) : hs.toJson.Canonical :=
  .flat (by simp only [List.map_cons, List.map_nil]; decide) rfl

theorem snapshot_canonical (index term : Nat) (data : String) :
    (snapshotJson index term data).Canonical :=
  .flat (by simp only [List.map_cons, List.map_nil]; decide) rfl

/-- **A record's frame is read as the record.** -/
theorem readRecord_frame (J : Json.Codec) (r : RecoveryResult) (rec : WalRecord) :
    readRecord J r (WalRecord.frame J rec) = some (r.apply rec) := by
  cases rec with
  | logEntry e =>
    simp only [readRecord, WalRecord.frame, ofBytes?_toBytes, Option.bind_eq_bind,
      Option.bind_some, J.parse_dump _ (rawLogEntry_canonical e)]
    simp [RecordType.ofByte?, RecordType.toByte, RawLogEntry.toJson, Json.field?, List.lookup,
      getUInt64, getString]
  | hardState hs =>
    simp only [readRecord, WalRecord.frame, ofBytes?_toBytes, Option.bind_eq_bind,
      Option.bind_some, J.parse_dump _ (hardState_canonical hs)]
    simp [RecordType.ofByte?, RecordType.toByte, HardState.toJson, Json.field?, List.lookup,
      getUInt64, getString]
  | snapshot index term data =>
    simp only [readRecord, WalRecord.frame, ofBytes?_toBytes, Option.bind_eq_bind,
      Option.bind_some, J.parse_dump _ (snapshot_canonical index term data)]
    simp [RecordType.ofByte?, RecordType.toByte, snapshotJson, Json.field?, List.lookup,
      getUInt64, getString]

theorem foldlM_frames (J : Json.Codec) (rs : List WalRecord) (r : RecoveryResult) :
    (rs.map (WalRecord.frame J)).foldlM (readRecord J) r =
      some (rs.foldl RecoveryResult.apply r) := by
  induction rs generalizing r with
  | nil => rfl
  | cons rec rs ih =>
    rw [List.map_cons, List.foldlM_cons, readRecord_frame]
    exact ih _

/-! ## The directory under a handle -/

/-- The closed segments, in ascending order, and the content of the current one. -/
structure Layout (w : WriteAheadLog) (closed : List (Nat × List UInt8)) (content : List UInt8) :
    Prop where
  files : w.files = closed ++ [(w.currentSegment, content)]
  offset : w.currentOffset = content.length
  ascending : (w.files.map Prod.fst).Pairwise (· < ·)

variable {w w' : WriteAheadLog} {closed : List (Nat × List UInt8)} {content : List UInt8}
  {J : Json.Codec}

/-- The frames of a list of segments, one after the other. -/
def segmentFrames (files : List (Nat × List UInt8)) : List Frame :=
  files.flatMap fun file => frames crc32 file.2

theorem lookup_of_ascending {files : List (Nat × List UInt8)}
    (h : (files.map Prod.fst).Pairwise (· < ·)) :
    ∀ file ∈ files, files.lookup file.1 = some file.2 := by
  induction files with
  | nil =>
    intro file hf
    exact absurd hf (by simp)
  | cons x files ih =>
    rw [List.map_cons, List.pairwise_cons] at h
    intro file hf
    rcases List.mem_cons.mp hf with rfl | hf
    · exact List.lookup_cons_self
    · have hlt := h.1 file.1 (List.mem_map_of_mem hf)
      rw [List.lookup_cons, beq_false_of_ne (Nat.ne_of_gt hlt)]
      exact ih h.2 file hf

/-- Reading the segments by their numbers is reading the stream of their frames. -/
theorem foldlM_segmentFrames {open? : RecoveryResult → Nat → Option RecoveryResult}
    {files : List (Nat × List UInt8)}
    (h : ∀ file ∈ files, ∀ r, open? r file.1 = WriteAheadLog.readSegment J r file.2)
    (r : RecoveryResult) :
    (files.map Prod.fst).foldlM open? r = (segmentFrames files).foldlM (readRecord J) r := by
  induction files generalizing r with
  | nil => rfl
  | cons file files ih =>
    rw [List.map_cons, List.foldlM_cons, h file (by simp), segmentFrames, List.flatMap_cons,
      List.foldlM_append]
    apply bind_congr
    intro r'
    exact ih (fun f hf => h f (by simp [hf])) r'

/-- `Recover` on segments in ascending order: sorting and opening them changes nothing. -/
theorem recover_eq (h : (w.files.map Prod.fst).Pairwise (· < ·)) :
    w.recover J = (segmentFrames w.files).foldlM (readRecord J) {} := by
  have hsorted : (w.files.map Prod.fst).insertionSort (· ≤ ·) = w.files.map Prod.fst :=
    List.Pairwise.insertionSort_eq (h.imp Nat.le_of_lt)
  unfold WriteAheadLog.recover
  rw [hsorted]
  apply foldlM_segmentFrames
  intro file hf r
  rw [lookup_of_ascending h file hf]

namespace Layout

theorem below (h : Layout w closed content) : ∀ file ∈ closed, file.1 < w.currentSegment := by
  intro file hf
  have hasc := h.ascending
  rw [h.files, List.map_append, List.pairwise_append] at hasc
  exact hasc.2.2 file.1 (List.mem_map_of_mem hf) _ (by simp)

/-- A write goes to the end of the current segment, and nowhere else. -/
theorem write (h : Layout w closed content) (bytes : List UInt8) :
    Layout (w.write bytes) closed (content ++ bytes) := by
  have hclosed : closed.map (fun file => if file.1 = w.currentSegment then
      (file.1, file.2 ++ bytes) else file) = closed := by
    conv => rhs; rw [← List.map_id closed]
    apply List.map_congr_left
    intro file hf
    rw [if_neg (Nat.ne_of_lt (h.below file hf))]
    rfl
  have hfiles : (w.write bytes).files = closed ++ [(w.currentSegment, content ++ bytes)] := by
    simp only [WriteAheadLog.write, h.files, List.map_append, hclosed, List.map_cons, if_pos,
      List.map_nil]
  refine ⟨hfiles, ?_, ?_⟩
  · simp [WriteAheadLog.write, h.offset]
  · have hasc := h.ascending
    rw [h.files] at hasc
    rw [hfiles]
    simpa using hasc

/-- The next segment does not exist yet. -/
theorem openNext (h : Layout w closed content) :
    Layout (w.openOrCreateSegment (w.currentSegment + 1))
        (closed ++ [(w.currentSegment, content)]) [] ∧
      (w.openOrCreateSegment (w.currentSegment + 1)).currentSegment = w.currentSegment + 1 := by
  have hle : ∀ file ∈ w.files, file.1 < w.currentSegment + 1 := by
    intro file hf
    rw [h.files] at hf
    rcases List.mem_append.mp hf with hf | hf
    · exact Nat.lt_succ_of_lt (h.below file hf)
    · rw [List.mem_singleton.mp hf]
      exact Nat.lt_succ_self _
  have hnone : w.files.lookup (w.currentSegment + 1) = none := by
    rw [List.lookup_eq_none_iff]
    intro file hf
    exact bne_iff_ne.mpr (Nat.ne_of_gt (hle file hf))
  have heq : w.openOrCreateSegment (w.currentSegment + 1) =
      { w with files := w.files ++ [(w.currentSegment + 1, [])]
               currentSegment := w.currentSegment + 1
               currentOffset := 0 } := by
    simp [WriteAheadLog.openOrCreateSegment, hnone]
  rw [heq]
  refine ⟨⟨by simp [h.files], rfl, ?_⟩, rfl⟩
  rw [List.map_append, List.pairwise_append]
  refine ⟨h.ascending, by simp, ?_⟩
  intro seg hseg seg' hseg'
  obtain ⟨file, hf, rfl⟩ := List.mem_map.mp hseg
  rw [List.map_singleton, List.mem_singleton] at hseg'
  rw [hseg']
  exact hle file hf

end Layout

theorem foldl_max_le {b : Nat} : ∀ (l : List Nat) {a : Nat}, a ≤ b → (∀ x ∈ l, x ≤ b) →
    l.foldl max a ≤ b := by
  intro l
  induction l with
  | nil =>
    intro a ha _
    exact ha
  | cons x l ih =>
    intro a ha hl
    exact ih (Nat.max_le.mpr ⟨ha, hl x (by simp)⟩) (fun y hy => hl y (by simp [hy]))

/-- The constructor opens the last segment where it ends. -/
theorem openDir_layout {files : List (Nat × List UInt8)} {seg : Nat}
    (hfiles : files = closed ++ [(seg, content)])
    (hasc : (files.map Prod.fst).Pairwise (· < ·)) (maxBytes : Nat) :
    Layout (WriteAheadLog.openDir files maxBytes) closed content ∧
      (WriteAheadLog.openDir files maxBytes).currentSegment = seg ∧
      (WriteAheadLog.openDir files maxBytes).files = files := by
  have hhigh : (files.map Prod.fst).foldl max 0 = seg := by
    have hasc' := hasc
    rw [hfiles, List.map_append, List.pairwise_append] at hasc'
    rw [hfiles, List.map_append, List.foldl_append]
    exact Nat.max_eq_right (foldl_max_le _ (Nat.zero_le _)
      (fun x hx => Nat.le_of_lt (hasc'.2.2 x hx seg (by simp))))
  have hlookup : files.lookup seg = some content :=
    lookup_of_ascending hasc (seg, content) (by simp [hfiles])
  have heq : WriteAheadLog.openDir files maxBytes =
      { files, maxSegmentBytes := maxBytes, currentSegment := seg,
        currentOffset := content.length } := by
    simp only [WriteAheadLog.openDir, WriteAheadLog.openOrCreateSegment, hhigh, hlookup]
  rw [heq]
  exact ⟨⟨hfiles, rfl, hasc⟩, rfl, rfl⟩

theorem layout_empty (maxBytes : Nat) : Layout (WriteAheadLog.openDir [] maxBytes) [] [] :=
  ⟨rfl, rfl, by simp [WriteAheadLog.openDir, WriteAheadLog.openOrCreateSegment]⟩

/-! ## What one call does -/

/-- The log after a call that returns. -/
def afterCall (J : Json.Codec) (w : WriteAheadLog) (rec : WalRecord) : WriteAheadLog :=
  let w := w.write (WalRecord.bytes J rec)
  match rec with
  | .logEntry _ => w.maybeRotate
  | .hardState _ => w
  | .snapshot _ _ _ => w.openOrCreateSegment (w.currentSegment + 1)

/-- A call throws exactly if its record is too large. -/
theorem writeOne_eq_ite (J : Json.Codec) (w : WriteAheadLog) (rec : WalRecord) :
    w.writeOne J rec = if Small J rec then some (afterCall J w rec) else none := by
  have hrecord : ∀ type payload, WalRecord.frame J rec = ⟨type.toByte, payload⟩ →
      w.writeRecord type payload =
        if Small J rec then some (w.write (WalRecord.bytes J rec)) else none := by
    intro type payload hframe
    simp only [WriteAheadLog.writeRecord, Small, WalRecord.bytes, hframe]
  cases rec with
  | logEntry e =>
    rw [WriteAheadLog.writeOne, WriteAheadLog.appendLogEntry, hrecord _ _ rfl]
    split <;> rfl
  | hardState hs => exact hrecord _ _ rfl
  | snapshot index term data =>
    rw [WriteAheadLog.writeOne, WriteAheadLog.writeSnapshot, hrecord _ _ rfl]
    split <;> rfl

/-- A call that returns has appended the record, all of it; after that it may have moved on to
    the next segment. -/
theorem writeOne_eq {rec : WalRecord} (h : w.writeOne J rec = some w') :
    Small J rec ∧
      (w' = w.write (WalRecord.bytes J rec) ∨
        w' = (w.write (WalRecord.bytes J rec)).openOrCreateSegment (w.currentSegment + 1)) := by
  rw [writeOne_eq_ite] at h
  split at h
  · rename_i hsmall
    cases h
    refine ⟨hsmall, ?_⟩
    cases rec with
    | logEntry e =>
      unfold afterCall WriteAheadLog.maybeRotate
      dsimp only
      split
      · exact Or.inr rfl
      · exact Or.inl rfl
    | hardState hs => exact Or.inl rfl
    | snapshot index term data => exact Or.inr rfl
  · exact absurd h (by simp)

/-- Only a record that is too large throws. -/
theorem writeOne_of_small {rec : WalRecord} (h : Small J rec) (w : WriteAheadLog) :
    ∃ w', w.writeOne J rec = some w' :=
  ⟨_, (writeOne_eq_ite J w rec).trans (if_pos h)⟩

theorem writeAll_of_small {rs : List WalRecord} (h : ∀ rec ∈ rs, Small J rec)
    (w : WriteAheadLog) : ∃ w', w.writeAll J rs = some w' := by
  induction rs generalizing w with
  | nil => exact ⟨w, rfl⟩
  | cons rec rs ih =>
    obtain ⟨w₁, h₁⟩ := writeOne_of_small (h rec (by simp)) w
    obtain ⟨w', h'⟩ := ih (fun r hr => h r (by simp [hr])) w₁
    refine ⟨w', ?_⟩
    rw [WriteAheadLog.writeAll, List.foldlM_cons, h₁]
    exact h'

/-- **One call, on the directory**: the record ends the current segment, or closes it. -/
theorem Layout.writeOne (h : Layout w closed content) {rec : WalRecord}
    (hw : w.writeOne J rec = some w') :
    (Layout w' closed (content ++ WalRecord.bytes J rec) ∧
        w'.currentSegment = w.currentSegment) ∨
      (Layout w' (closed ++ [(w.currentSegment, content ++ WalRecord.bytes J rec)]) [] ∧
        w'.currentSegment = w.currentSegment + 1) := by
  have hwrite := h.write (WalRecord.bytes J rec)
  rcases (writeOne_eq hw).2 with rfl | rfl
  · exact Or.inl ⟨hwrite, rfl⟩
  · exact Or.inr hwrite.openNext

/-! ## A WAL without torn records -/

/-- The files hold exactly the records `rs`, and the current one ends with a whole frame. -/
def Holds (J : Json.Codec) (w : WriteAheadLog) (rs : List WalRecord) : Prop :=
  ∃ closed content, Layout w closed content ∧ Clean crc32 content ∧
    segmentFrames w.files = rs.map (WalRecord.frame J) ∧ ∀ rec ∈ rs, Small J rec

variable {rs rs' : List WalRecord}

theorem holds_empty (J : Json.Codec) (maxBytes : Nat) :
    Holds J (WriteAheadLog.openDir [] maxBytes) [] :=
  ⟨[], [], layout_empty maxBytes, clean_nil, rfl, by simp⟩

theorem segmentFrames_append (files files' : List (Nat × List UInt8)) :
    segmentFrames (files ++ files') = segmentFrames files ++ segmentFrames files' :=
  List.flatMap_append

theorem segmentFrames_single (seg : Nat) (content : List UInt8) :
    segmentFrames [(seg, content)] = frames crc32 content := by
  simp [segmentFrames]

/-- A record written whole is one more record held. -/
theorem Holds.write (h : Holds J w rs) {rec : WalRecord} (hsmall : Small J rec) :
    Holds J (w.write (WalRecord.bytes J rec)) (rs ++ [rec]) := by
  obtain ⟨closed, content, hl, hclean, hframes, hall⟩ := h
  have hl' := hl.write (WalRecord.bytes J rec)
  refine ⟨_, _, hl', hclean.append (clean_bytes hsmall.payload), ?_, ?_⟩
  · rw [hl.files, segmentFrames_append, segmentFrames_single] at hframes
    rw [hl'.files, segmentFrames_append, segmentFrames_single, hclean, ← List.append_assoc,
      hframes, WalRecord.bytes, frames_bytes hsmall.payload, List.map_append, List.map_singleton]
  · intro x hx
    rcases List.mem_append.mp hx with hx | hx
    · exact hall x hx
    · rw [List.mem_singleton.mp hx]
      exact hsmall

theorem Holds.openNext (h : Holds J w rs) :
    Holds J (w.openOrCreateSegment (w.currentSegment + 1)) rs := by
  obtain ⟨closed, content, hl, hclean, hframes, hall⟩ := h
  obtain ⟨hl', -⟩ := hl.openNext
  refine ⟨_, _, hl', clean_nil, ?_, hall⟩
  rw [hl'.files, segmentFrames_append, segmentFrames_single, ← hl.files, hframes]
  exact List.append_nil _

theorem Holds.writeOne (h : Holds J w rs) {rec : WalRecord} (hw : w.writeOne J rec = some w') :
    Holds J w' (rs ++ [rec]) := by
  obtain ⟨hsmall, rfl | rfl⟩ := writeOne_eq hw
  · exact h.write hsmall
  · exact (h.write hsmall).openNext

theorem Holds.writeAll (h : Holds J w rs) (hw : w.writeAll J rs' = some w') :
    Holds J w' (rs ++ rs') := by
  induction rs' generalizing w rs with
  | nil =>
    cases hw
    rw [List.append_nil]
    exact h
  | cons rec rs' ih =>
    rw [WriteAheadLog.writeAll, List.foldlM_cons, Option.bind_eq_bind,
      Option.bind_eq_some_iff] at hw
    obtain ⟨w₁, h₁, hw⟩ := hw
    have := ih (h.writeOne h₁) hw
    rwa [List.append_assoc] at this

/-- **The bytes answer like the records.** -/
theorem Holds.recover (h : Holds J w rs) : w.recover J = some (replay rs) := by
  obtain ⟨closed, content, hl, -, hframes, -⟩ := h
  rw [recover_eq hl.ascending, hframes]
  exact foldlM_frames J rs {}

/-- Reopening the directory changes nothing. -/
theorem Holds.reopen (h : Holds J w rs) (maxBytes : Nat) :
    Holds J (WriteAheadLog.openDir w.files maxBytes) rs := by
  obtain ⟨closed, content, hl, hclean, hframes, hall⟩ := h
  obtain ⟨hl', -, hfiles⟩ := openDir_layout hl.files hl.ascending maxBytes
  exact ⟨closed, content, hl', hclean, by rw [hfiles]; exact hframes, hall⟩

theorem Holds.small (h : Holds J w rs) : ∀ rec ∈ rs, Small J rec := by
  obtain ⟨-, -, -, -, -, hall⟩ := h
  exact hall

end Proof
end OrcDb
