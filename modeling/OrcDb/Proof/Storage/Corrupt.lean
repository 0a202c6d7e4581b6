import OrcDb.Proof.Storage.Torn

/-!
# A corrupt record in the middle of the WAL

`Recover` ends the scan of a segment at a record that fails its checksum, and goes on with the
next segment. So what it returns is the history up to that record, without the rest of that
segment, and then everything that was rotated into later segments (`recover_corrupted`). It is a
prefix of the history exactly if nothing was (`recovered_prefix_iff`).

The place of a record is known from the handle it was written through: the current segment and
offset before the call.
-/

set_option autoImplicit false

namespace OrcDb
namespace Proof

open Lib

variable {J : Json.Codec} {w w' w₁ : WriteAheadLog} {closed : List (Nat × List UInt8)}
  {content : List UInt8} {rs : List WalRecord} {rec : WalRecord}

/-! ## Which records are in later segments -/

/-- A sequence of calls leaves the closed segments alone; the others hold what was in the current
    one and then the records, in order. -/
theorem Layout.writeAll_files (h : Layout w closed content) (hclean : Clean crc32 content)
    (hw : w.writeAll J rs = some w') :
    ∃ later, w'.files = closed ++ later ∧
      segmentFrames later = frames crc32 content ++ rs.map (WalRecord.frame J) ∧
      ∀ file ∈ later, w.currentSegment ≤ file.1 := by
  induction rs generalizing w closed content with
  | nil =>
    obtain rfl : w = w' := Option.some.inj hw
    refine ⟨[(w.currentSegment, content)], h.files, ?_, by simp⟩
    rw [segmentFrames_single, List.map_nil, List.append_nil]
  | cons rec rs ih =>
    rw [WriteAheadLog.writeAll, List.foldlM_cons, Option.bind_eq_bind,
      Option.bind_eq_some_iff] at hw
    obtain ⟨w₁, h₁, hw⟩ := hw
    have hsmall := (writeOne_eq h₁).1
    have hbytes : frames crc32 (content ++ WalRecord.bytes J rec) =
        frames crc32 content ++ [WalRecord.frame J rec] := by
      rw [hclean, WalRecord.bytes, frames_bytes hsmall.payload]
    rcases h.writeOne h₁ with ⟨hl, hseg⟩ | ⟨hl, hseg⟩
    · obtain ⟨later, hfiles, hframes, hge⟩ :=
        ih hl (hclean.append (clean_bytes hsmall.payload)) hw
      refine ⟨later, hfiles, ?_, hseg ▸ hge⟩
      rw [hframes, hbytes, List.append_assoc]
      rfl
    · obtain ⟨later, hfiles, hframes, hge⟩ := ih hl clean_nil hw
      refine ⟨(w.currentSegment, content ++ WalRecord.bytes J rec) :: later, ?_, ?_, ?_⟩
      · rw [hfiles, List.append_assoc]
        rfl
      · rw [segmentFrames, List.flatMap_cons, hbytes, ← segmentFrames, hframes]
        simp [frames, readFrames]
      · rw [List.forall_mem_cons]
        refine ⟨Nat.le_refl _, ?_⟩
        intro file hf
        have := hge file hf
        omega

/-- Behind a record: the rest of its segment, and the later segments with the records that were
    rotated into them. -/
theorem Layout.writeAll_later (h : Layout w closed content)
    (hw : w.writeAll J (rec :: rs) = some w') :
    ∃ t later rs₁ rs₂, rs = rs₁ ++ rs₂ ∧
      w'.files = closed ++ (w.currentSegment, content ++ t) :: later ∧
      segmentFrames later = rs₂.map (WalRecord.frame J) ∧
      (∀ file ∈ later, w.currentSegment < file.1) ∧
      ((∀ file ∈ later, file.2 = []) ↔ rs₂ = []) := by
  rcases h.writeAll_cases hw with ⟨t, hl, hseg⟩ | ⟨t, rs₁, rs₂, wm, hrs, hne, hlm, hseg, hwm⟩
  · refine ⟨t, [], rs, [], (List.append_nil rs).symm, ?_, rfl, by simp, by simp⟩
    rw [hl.files, hseg]
  · cases rs₁ with
    | nil => exact absurd rfl hne
    | cons r rs₁ =>
      rw [List.cons_append, List.cons.injEq] at hrs
      obtain ⟨later, hfiles, hframes, hge⟩ := hlm.writeAll_files clean_nil hwm
      refine ⟨t, later, rs₁, rs₂, hrs.2, ?_, ?_, ?_, ?_, ?_⟩
      · rw [hfiles, List.append_assoc]
        rfl
      · rw [hframes]
        rfl
      · intro file hf
        have := hge file hf
        omega
      · intro hempty
        have hnone : segmentFrames later = [] := by
          rw [segmentFrames, List.flatMap_eq_nil_iff]
          intro file hf
          rw [hempty file hf]
          rfl
        rw [hframes] at hnone
        exact List.map_eq_nil_iff.mp (List.append_eq_nil_iff.mp hnone).2
      · intro hnil
        subst hnil
        obtain rfl : wm = w' := Option.some.inj hwm
        have hlater := hlm.files.symm.trans hfiles
        rw [List.append_cancel_left_eq] at hlater
        simp [← hlater]

/-! ## The directory with a corrupt record -/

/-- The directory with the bytes from `off` to `off + len` of a segment replaced. -/
def corrupted (files : List (Nat × List UInt8)) (seg off len : Nat) (bytes : List UInt8) :
    List (Nat × List UInt8) :=
  files.map fun file =>
    if file.1 = seg then (file.1, file.2.take off ++ (bytes ++ file.2.drop (off + len))) else file

theorem corrupted_of_ne {files : List (Nat × List UInt8)} {seg off len : Nat} {bytes : List UInt8}
    (h : ∀ file ∈ files, file.1 ≠ seg) : corrupted files seg off len bytes = files := by
  conv => rhs; rw [← List.map_id files]
  apply List.map_congr_left
  intro file hf
  rw [if_neg (h file hf)]
  rfl

theorem corrupted_eq {later : List (Nat × List UInt8)} {seg len : Nat} {t bytes : List UInt8}
    (hbelow : ∀ file ∈ closed, file.1 < seg) (habove : ∀ file ∈ later, seg < file.1) :
    corrupted (closed ++ (seg, content ++ t) :: later) seg content.length len bytes =
      closed ++ (seg, content ++ (bytes ++ t.drop len)) :: later := by
  have hclosed : corrupted closed seg content.length len bytes = closed :=
    corrupted_of_ne fun file hf => Nat.ne_of_lt (hbelow file hf)
  have hlater : corrupted later seg content.length len bytes = later :=
    corrupted_of_ne fun file hf => Nat.ne_of_gt (habove file hf)
  unfold corrupted at hclosed hlater ⊢
  rw [List.map_append, List.map_cons, hclosed, hlater, if_pos rfl, List.take_left,
    List.drop_length_add_append]

theorem corrupted_numbers (files : List (Nat × List UInt8)) (seg off len : Nat)
    (bytes : List UInt8) :
    (corrupted files seg off len bytes).map Prod.fst = files.map Prod.fst := by
  rw [corrupted, List.map_map]
  apply List.map_congr_left
  intro file _
  rw [Function.comp_apply]
  split
  · rfl
  · rfl

/-- The constructor leaves a directory with segments as it is. -/
theorem openDir_files {files : List (Nat × List UInt8)} (hne : files ≠ [])
    (hasc : (files.map Prod.fst).Pairwise (· < ·)) (maxBytes : Nat) :
    (WriteAheadLog.openDir files maxBytes).files = files := by
  obtain ⟨closed, ⟨seg, content⟩, hfiles⟩ := (List.eq_nil_or_concat files).resolve_left hne
  rw [List.concat_eq_append] at hfiles
  exact (openDir_layout hfiles hasc maxBytes).2.2

variable {xs ys : List RawLogEntry} {e : RawLogEntry} {bytes : List UInt8}

/-- The record of `e`, written through `w₁`, is corrupt: with `bytes` in its place no frame that
    passes its checksum is at its offset. -/
def Corrupts (J : Json.Codec) (w₁ w : WriteAheadLog) (e : RawLogEntry) (bytes : List UInt8) :
    Prop :=
  ∀ content, (w.files.lookup w₁.currentSegment) = some content →
    readFrame crc32 (bytes ++ content.drop
      (w₁.currentOffset + (WalRecord.bytes J (.logEntry e)).length)) = none

instance (w₁ w : WriteAheadLog) (e : RawLogEntry) (bytes : List UInt8) :
    Decidable (Corrupts J w₁ w e bytes) :=
  decidable_of_iff ((w.files.lookup w₁.currentSegment).all fun content =>
      readFrame crc32 (bytes ++ content.drop
        (w₁.currentOffset + (WalRecord.bytes J (.logEntry e)).length)) = none)
    (by simp [Corrupts, Option.all_eq_true])

/-- The directory in which it is. -/
def corruptDir (J : Json.Codec) (w₁ w : WriteAheadLog) (e : RawLogEntry) (bytes : List UInt8) :
    List (Nat × List UInt8) :=
  corrupted w.files w₁.currentSegment w₁.currentOffset
    (WalRecord.bytes J (.logEntry e)).length bytes

/-- **What `Recover` returns**: the history up to the corrupt record, and what was rotated into
    later segments. -/
theorem recover_corrupted {first : Nat} (hfrom : From first (xs ++ e :: ys))
    (hxs : Holds J w₁ (xs.map WalRecord.logEntry))
    (hw : w₁.writeAll J ((e :: ys).map WalRecord.logEntry) = some w)
    (hbad : Corrupts J w₁ w e bytes) (maxSegmentBytes : Nat) :
    ∃ r ys₁ ys₂, ys = ys₁ ++ ys₂ ∧
      (WriteAheadLog.openDir (corruptDir J w₁ w e bytes) maxSegmentBytes).recover J = some r ∧
      r.entries = xs ++ ys₂ ∧
      ((∀ file ∈ w.files, w₁.currentSegment < file.1 → file.2 = []) ↔ ys₂ = []) := by
  obtain ⟨closed, content, hl, hclean, hframes, -⟩ := hxs
  obtain ⟨closed', content', hl', -, -⟩ := hl.writeAll hw
  obtain ⟨t, later, rs₁, rs₂, hrs, hfiles, hlater, habove, hempty⟩ := hl.writeAll_later hw
  obtain ⟨ys₁, ys₂, rfl, rfl, rfl⟩ := List.map_eq_append_iff.mp hrs
  -- the directory `Recover` is called on
  have hdir : corruptDir J w₁ w e bytes = closed ++ (w₁.currentSegment, content ++
      (bytes ++ t.drop (WalRecord.bytes J (.logEntry e)).length)) :: later := by
    rw [corruptDir, hfiles, hl.offset, corrupted_eq hl.below habove]
  have hasc : ((corruptDir J w₁ w e bytes).map Prod.fst).Pairwise (· < ·) := by
    rw [corruptDir, corrupted_numbers]
    exact hl'.ascending
  have hopen : (WriteAheadLog.openDir (corruptDir J w₁ w e bytes) maxSegmentBytes).files =
      corruptDir J w₁ w e bytes :=
    openDir_files (by simp [hdir]) hasc maxSegmentBytes
  -- the corrupt segment is read up to the record
  have hnone :
      readFrame crc32 (bytes ++ t.drop (WalRecord.bytes J (.logEntry e)).length) = none := by
    have hlookup : w.files.lookup w₁.currentSegment = some (content ++ t) :=
      lookup_of_ascending hl'.ascending (w₁.currentSegment, content ++ t) (by simp [hfiles])
    have := hbad _ hlookup
    rwa [hl.offset, List.drop_length_add_append] at this
  have hrecover : (WriteAheadLog.openDir (corruptDir J w₁ w e bytes) maxSegmentBytes).recover J =
      some (replay (xs.map WalRecord.logEntry ++ ys₂.map WalRecord.logEntry)) := by
    rw [hl.files, segmentFrames_append, segmentFrames_single] at hframes
    rw [recover_eq (by rw [hopen]; exact hasc), hopen, hdir, ← List.singleton_append,
      segmentFrames_append, segmentFrames_append, segmentFrames_single, hclean,
      frames_of_none hnone, List.append_nil, ← List.append_assoc, hframes, hlater,
      ← List.map_append]
    exact foldlM_frames J _ {}
  refine ⟨_, ys₁, ys₂, rfl, hrecover, ?_, ?_⟩
  · have hold : (replay (xs.map WalRecord.logEntry)).entries = xs :=
      foldl_of_below (by simp) hfrom.append_left
    have hnew : From (first + xs.length + 1 + ys₁.length) ys₂ :=
      hfrom.append_right.tail.append_right
    have hbelow : ∀ x ∈ (replay (xs.map WalRecord.logEntry)).entries,
        x.index < first + xs.length + 1 + ys₁.length := by
      rw [hold]
      intro x hx
      have := hfrom.append_left.lt x hx
      omega
    rw [replay_append, foldl_of_below hbelow hnew, hold]
  · rw [← List.map_eq_nil_iff, ← hempty, hfiles, List.forall_mem_append, List.forall_mem_cons]
    constructor
    · rintro ⟨-, -, h⟩ file hf
      exact h file hf (habove file hf)
    · intro h
      refine ⟨?_, fun hlt => absurd hlt (Nat.lt_irrefl _), fun file hf _ => h file hf⟩
      intro file hf hlt
      exact absurd hlt (Nat.lt_asymm (hl.below file hf))

/-- **A corrupt record leaves no hole** exactly if it is in the last segment that holds a record:
    then, and only then, is what `Recover` returns a prefix of the history. -/
theorem recovered_prefix_iff (J : Json.Codec) (maxSegmentBytes : Nat) {first : Nat}
    (hfrom : From first (xs ++ e :: ys))
    (hxs : (WriteAheadLog.openDir [] maxSegmentBytes).writeAll J (xs.map WalRecord.logEntry) =
      some w₁)
    (hw : w₁.writeAll J ((e :: ys).map WalRecord.logEntry) = some w)
    (hbad : Corrupts J w₁ w e bytes) :
    (∃ r, (WriteAheadLog.openDir (corruptDir J w₁ w e bytes) maxSegmentBytes).recover J = some r ∧
        r.entries <+: xs ++ e :: ys) ↔
      ∀ file ∈ w.files, w₁.currentSegment < file.1 → file.2 = [] := by
  have hholds := (holds_empty J maxSegmentBytes).writeAll hxs
  rw [List.nil_append] at hholds
  obtain ⟨r, ys₁, ys₂, rfl, hr, hentries, hlast⟩ :=
    recover_corrupted hfrom hholds hw hbad maxSegmentBytes
  rw [hr, hlast]
  simp only [Option.some.injEq, exists_eq_left', hentries, List.prefix_append_right_inj]
  constructor
  · intro hbegin
    cases ys₂ with
    | nil => rfl
    | cons y ys₂ =>
      -- the next entry that was recovered would be the corrupt one
      obtain ⟨rfl, -⟩ := List.cons_prefix_cons.mp hbegin
      have hhere := hfrom.append_right.head
      have hthere := hfrom.append_right.tail.append_right.head
      omega
  · rintro rfl
    exact List.nil_prefix

/-- One bit of the checksum flipped. -/
def flipped (J : Json.Codec) (e : RawLogEntry) : List UInt8 :=
  (WalRecord.bytes J (.logEntry e)).modify 0 (· ^^^ 1)

/-- Segments of one record each, the record of the last entry corrupt. -/
theorem recovered_prefix_iff_last : ∃ w₁ w r,
    (WriteAheadLog.openDir [] 1).writeAll Json.text [.logEntry (rawEntry 1 "x")] = some w₁ ∧
      w₁.writeAll Json.text [.logEntry (rawEntry 2 "y")] = some w ∧
      Corrupts Json.text w₁ w (rawEntry 2 "y") (flipped Json.text (rawEntry 2 "y")) ∧
      (WriteAheadLog.openDir (corruptDir Json.text w₁ w (rawEntry 2 "y")
        (flipped Json.text (rawEntry 2 "y"))) 1).recover Json.text = some r ∧
      r.entries <+: [rawEntry 1 "x", rawEntry 2 "y"] := by
  obtain ⟨w₁, hw₁, h⟩ := (Option.any_eq_true _ _).mp
    (show ((WriteAheadLog.openDir [] 1).writeAll Json.text [.logEntry (rawEntry 1 "x")]).any
      (fun w₁ => (w₁.writeAll Json.text [.logEntry (rawEntry 2 "y")]).any fun w =>
        decide (Corrupts Json.text w₁ w (rawEntry 2 "y") (flipped Json.text (rawEntry 2 "y")) ∧
          ∀ file ∈ w.files, w₁.currentSegment < file.1 → file.2 = [])) = true by decide +kernel)
  obtain ⟨w, hw, h⟩ := (Option.any_eq_true _ _).mp h
  obtain ⟨hbad, hlast⟩ := of_decide_eq_true h
  have hfrom : From 1 ([rawEntry 1 "x"] ++ rawEntry 2 "y" :: []) := by
    intro k x hx
    rcases k with _ | _ | k
    · cases hx
      rfl
    · cases hx
      rfl
    · exact absurd hx (by simp)
  obtain ⟨r, hr, hbegin⟩ := (recovered_prefix_iff Json.text 1 hfrom hw₁ hw hbad).mpr hlast
  exact ⟨w₁, w, r, hw₁, hw, hbad, hr, hbegin⟩

/-- Entry 3 is in the next segment, and comes back behind entry 1. -/
theorem recovered_prefix_fails : ∃ w₁ w r,
    (WriteAheadLog.openDir [] 1).writeAll Json.text [.logEntry (rawEntry 1 "x")] = some w₁ ∧
      w₁.writeAll Json.text [.logEntry (rawEntry 2 "y"), .logEntry (rawEntry 3 "z")] = some w ∧
      Corrupts Json.text w₁ w (rawEntry 2 "y") (flipped Json.text (rawEntry 2 "y")) ∧
      (WriteAheadLog.openDir (corruptDir Json.text w₁ w (rawEntry 2 "y")
        (flipped Json.text (rawEntry 2 "y"))) 1).recover Json.text = some r ∧
      r.entries = [rawEntry 1 "x", rawEntry 3 "z"] := by
  obtain ⟨w₁, hw₁, h⟩ := (Option.any_eq_true _ _).mp
    (show ((WriteAheadLog.openDir [] 1).writeAll Json.text [.logEntry (rawEntry 1 "x")]).any
      (fun w₁ => (w₁.writeAll Json.text
          [.logEntry (rawEntry 2 "y"), .logEntry (rawEntry 3 "z")]).any fun w =>
        decide (Corrupts Json.text w₁ w (rawEntry 2 "y") (flipped Json.text (rawEntry 2 "y"))) &&
          ((WriteAheadLog.openDir (corruptDir Json.text w₁ w (rawEntry 2 "y")
            (flipped Json.text (rawEntry 2 "y"))) 1).recover Json.text).any fun r =>
              decide (r.entries = [rawEntry 1 "x", rawEntry 3 "z"])) = true by decide +kernel)
  obtain ⟨w, hw, h⟩ := (Option.any_eq_true _ _).mp h
  rw [Bool.and_eq_true] at h
  obtain ⟨r, hr, hentries⟩ := (Option.any_eq_true _ _).mp h.2
  exact ⟨w₁, w, r, hw₁, hw, of_decide_eq_true h.1, hr, of_decide_eq_true hentries⟩

end Proof
end OrcDb
