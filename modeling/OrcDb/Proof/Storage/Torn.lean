import OrcDb.Proof.Storage.Replay
import OrcDb.Lib.JsonText

/-!
# Writing behind a torn record

A crash during a write leaves the first bytes of a record at the end of the last segment.
The constructor opens that segment again and appends behind them; nothing removes the torn
bytes. `Recover` stops reading a segment at the first frame that is short or fails its
checksum, so every record that follows in the same segment is lost, although its call
returned after `fdatasync` (`torn_write_fails`). What is written after the next rotation is
read again.

`Survives` is the condition for a record to come back (`torn_write_durable`): the tear left no
partial record, or the record went to a later segment while the torn bytes, with what was
written behind them, do not happen to read as a frame. The last clause is about snapshots:
one at a lower index still clears everything read before it.
-/

set_option autoImplicit false

namespace OrcDb
namespace Proof

open Lib

variable {J : Json.Codec} {w w' w₁ w₃ : WriteAheadLog} {closed : List (Nat × List UInt8)}
  {content base : List UInt8} {rs xs ys : List WalRecord} {rec : WalRecord} {e : RawLogEntry}

/-! ## Segments along a sequence of calls -/

/-- Closed segments stay as they are, and segment numbers only grow. -/
theorem Layout.writeAll (h : Layout w closed content) (hw : w.writeAll J rs = some w') :
    ∃ closed' content', Layout w' closed' content' ∧ closed ⊆ closed' ∧
      w.currentSegment ≤ w'.currentSegment := by
  induction rs generalizing w closed content with
  | nil =>
    cases hw
    exact ⟨closed, content, h, fun _ hf => hf, Nat.le_refl _⟩
  | cons rec rs ih =>
    rw [WriteAheadLog.writeAll, List.foldlM_cons, Option.bind_eq_bind,
      Option.bind_eq_some_iff] at hw
    obtain ⟨w₁, h₁, hw⟩ := hw
    rcases h.writeOne h₁ with ⟨hl, hseg⟩ | ⟨hl, hseg⟩
    · obtain ⟨closed', content', hl', hsub, hle⟩ := ih hl hw
      exact ⟨closed', content', hl', hsub, by omega⟩
    · obtain ⟨closed', content', hl', hsub, hle⟩ := ih hl hw
      exact ⟨closed', content', hl', fun f hf => hsub (List.mem_append_left _ hf), by omega⟩

/-- A sequence of calls fills the current segment, and either stays in it or closes it at some
    point and goes on from an empty one. -/
theorem Layout.writeAll_cases (h : Layout w closed base) (hw : w.writeAll J rs = some w') :
    (∃ t, Layout w' closed (base ++ t) ∧ w'.currentSegment = w.currentSegment) ∨
      ∃ t rs₁ rs₂ wm, rs = rs₁ ++ rs₂ ∧ rs₁ ≠ [] ∧
        Layout wm (closed ++ [(w.currentSegment, base ++ t)]) [] ∧
        wm.currentSegment = w.currentSegment + 1 ∧ wm.writeAll J rs₂ = some w' := by
  induction rs generalizing w base with
  | nil =>
    cases hw
    exact Or.inl ⟨[], by rw [List.append_nil]; exact h, rfl⟩
  | cons rec rs ih =>
    rw [WriteAheadLog.writeAll, List.foldlM_cons, Option.bind_eq_bind,
      Option.bind_eq_some_iff] at hw
    obtain ⟨w₁, h₁, hw⟩ := hw
    rcases h.writeOne h₁ with ⟨hl, hseg⟩ | ⟨hl, hseg⟩
    · rcases ih hl hw with ⟨t, hl', hseg'⟩ | ⟨t, rs₁, rs₂, wm, rfl, -, hl', hseg', hw'⟩
      · exact Or.inl ⟨_, by rw [← List.append_assoc]; exact hl', hseg'.trans hseg⟩
      · refine Or.inr ⟨WalRecord.bytes J rec ++ t, rec :: rs₁, rs₂, wm, rfl, by simp, ?_, ?_, hw'⟩
        · rw [← List.append_assoc, ← hseg]
          exact hl'
        · rw [hseg', hseg]
    · exact Or.inr ⟨_, [rec], rs, w₁, rfl, by simp, hl, hseg, hw⟩

/-! ## The directory after a crash -/

/-- The directory when the write of `rec` was cut off after `cut` bytes. -/
def crashed (J : Json.Codec) (w : WriteAheadLog) (rec : WalRecord) (cut : Nat) :
    List (Nat × List UInt8) :=
  (w.write ((WalRecord.bytes J rec).take cut)).files

/-- The tear left nothing of the record, or all of it. -/
def Whole (J : Json.Codec) (rec : WalRecord) (cut : Nat) : Prop :=
  cut = 0 ∨ (WalRecord.bytes J rec).length ≤ cut

/-- In the segment `w` was writing to, the bytes from `w`'s offset on do not read as a frame. -/
def Unreadable (w w' : WriteAheadLog) : Prop :=
  ∀ content, w'.files.lookup w.currentSegment = some content →
    readFrame crc32 (content.drop w.currentOffset) = none

/-- Without a partial record no harm is done. -/
theorem holds_crashed (h : Holds J w rs) (hsmall : Small J rec) {cut : Nat}
    (hcut : Whole J rec cut) (maxSegmentBytes : Nat) :
    ∃ rs', Holds J (WriteAheadLog.openDir (crashed J w rec cut) maxSegmentBytes) rs' := by
  rcases hcut with rfl | hcut
  · have hfiles : (crashed J w rec 0) = w.files := by
      obtain ⟨closed, content, hl, -⟩ := h
      have hl' := hl.write []
      rw [List.append_nil] at hl'
      rw [hl.files]
      exact hl'.files
    rw [hfiles]
    exact ⟨rs, h.reopen maxSegmentBytes⟩
  · rw [crashed, List.take_of_length_le hcut]
    exact ⟨_, (h.write hsmall).reopen maxSegmentBytes⟩

/-- A partial record, reopened: it ends the last segment. -/
theorem layout_crashed (hl : Layout w closed content) (rec : WalRecord)
    (cut maxSegmentBytes : Nat) :
    Layout (WriteAheadLog.openDir (crashed J w rec cut) maxSegmentBytes) closed
        (content ++ (WalRecord.bytes J rec).take cut) ∧
      (WriteAheadLog.openDir (crashed J w rec cut) maxSegmentBytes).currentSegment =
        w.currentSegment := by
  have hl' := hl.write ((WalRecord.bytes J rec).take cut)
  obtain ⟨h₁, h₂, -⟩ := openDir_layout hl'.files hl'.ascending maxSegmentBytes
  exact ⟨h₁, h₂⟩

/-- Once the torn segment is closed, and if it stays unreadable from the tear on, the WAL holds
    the records from before the crash and is clean again. -/
theorem holds_after_tear {t torn : List UInt8} {seg : Nat} (hclean : Clean crc32 content)
    (hframes : segmentFrames (closed ++ [(seg, content)]) = rs.map (WalRecord.frame J))
    (hall : ∀ rec ∈ rs, Small J rec)
    (hl : Layout w (closed ++ [(seg, content ++ torn ++ t)]) [])
    (hbad : readFrame crc32 (torn ++ t) = none) : Holds J w rs := by
  refine ⟨_, _, hl, clean_nil, ?_, hall⟩
  rw [segmentFrames_append, segmentFrames_single] at hframes
  rw [hl.files, segmentFrames_append, segmentFrames_append, segmentFrames_single,
    segmentFrames_single, List.append_assoc content, hclean, frames_of_none hbad, List.append_nil,
    hframes]
  exact List.append_nil _

/-- What `Recover` finds between the crash and the next write: the partial record is not read. -/
theorem recover_crashed (h : Holds J w rs) (hsmall : Small J rec) (cut maxSegmentBytes : Nat) :
    ∃ r, (WriteAheadLog.openDir (crashed J w rec cut) maxSegmentBytes).recover J = some r := by
  rcases Nat.lt_or_ge cut (WalRecord.bytes J rec).length with hlt | hge
  · obtain ⟨closed, content, hl, hclean, hframes, -⟩ := h
    obtain ⟨hl', -⟩ := @layout_crashed J w closed content hl rec cut maxSegmentBytes
    have htorn : frames crc32 ((WalRecord.bytes J rec).take cut) = [] :=
      frames_of_none (readFrame_take hsmall.payload hlt)
    rw [hl.files, segmentFrames_append, segmentFrames_single] at hframes
    rw [recover_eq hl'.ascending, hl'.files, segmentFrames_append, segmentFrames_single, hclean,
      htorn, List.append_nil, hframes]
    exact ⟨_, foldlM_frames J rs {}⟩
  · obtain ⟨rs', h'⟩ := holds_crashed h hsmall (Or.inr hge) maxSegmentBytes
    exact ⟨_, h'.recover⟩

/-! ## What comes back -/

/-- The condition for an entry written after the crash. `w` is the WAL the torn record was
    written to, `w₁` the WAL when the entry is written, `w₃` the one that is recovered. -/
def Survives (J : Json.Codec) (w : WriteAheadLog) (rec : WalRecord) (cut : Nat)
    (w₁ w₃ : WriteAheadLog) (e : RawLogEntry) (ys : List WalRecord) : Prop :=
  (Whole J rec cut ∨ w.currentSegment < w₁.currentSegment ∧ Unreadable w w₃) ∧
    ∀ i t d, WalRecord.snapshot i t d ∈ ys → e.index ≤ i

/-- In a WAL that holds the entry and what was written after it, the entry is recovered exactly
    if no snapshot follows. -/
theorem recovered_iff (h : Holds J w (rs ++ .logEntry e :: ys))
    (hover : ∀ e', WalRecord.logEntry e' ∈ ys → e.index < e'.index) :
    ((∀ i t d, WalRecord.snapshot i t d ∉ ys) → ∃ r, w.recover J = some r ∧ e ∈ r.entries) ∧
      (WalRecord.logEntry e ∉ ys → (∃ r, w.recover J = some r ∧ e ∈ r.entries) →
        ∀ i t d, WalRecord.snapshot i t d ∉ ys) := by
  have hsplit : rs ++ WalRecord.logEntry e :: ys = (rs ++ [.logEntry e]) ++ ys := by simp
  constructor
  · intro hsnap
    refine ⟨_, h.recover, ?_⟩
    rw [hsplit, replay_append]
    apply mem_foldl_of_above _ hover hsnap
    rw [replay_concat]
    exact List.mem_append_right _ List.mem_cons_self
  · rintro hnew ⟨r, hr, he⟩ i t d hsnap
    rw [h.recover] at hr
    cases hr
    -- after the snapshot only entries of the rest can be there
    obtain ⟨ys₁, ys₂, rfl⟩ := List.append_of_mem hsnap
    have hcut : rs ++ WalRecord.logEntry e :: (ys₁ ++ .snapshot i t d :: ys₂) =
        (rs ++ .logEntry e :: ys₁ ++ [.snapshot i t d]) ++ ys₂ := by simp
    rw [hcut, replay_append, replay_concat] at he
    rcases mem_of_foldl he with he | he
    · exact absurd he (by simp [RecoveryResult.apply])
    · exact hnew (List.mem_append_right _ (List.mem_cons_of_mem _ he))

section Tear

variable {cut maxSegmentBytes : Nat}

/-- The bytes from the tear on, once their segment is closed. -/
theorem Unreadable.readFrame {t torn : List UInt8} (hbad : Unreadable w w₃)
    (hoff : w.currentOffset = content.length)
    (hl : Layout w' (closed ++ [(w.currentSegment, content ++ torn ++ t)]) [])
    (hw : w'.writeAll J rs = some w₃) : readFrame crc32 (torn ++ t) = none := by
  obtain ⟨closed', content', hl', hsub, -⟩ := hl.writeAll hw
  have hmem : (w.currentSegment, content ++ torn ++ t) ∈ w₃.files := by
    rw [hl'.files]
    exact List.mem_append_left _ (hsub (by simp))
  have := hbad _ (lookup_of_ascending hl'.ascending _ hmem)
  rwa [hoff, List.append_assoc, List.drop_left] at this

/-- A record of a later segment stands behind whole records again. -/
theorem holds_beyond (h : Holds J w rs)
    (hx : (WriteAheadLog.openDir (crashed J w rec cut) maxSegmentBytes).writeAll J xs = some w₁)
    (hy : w₁.writeAll J ys = some w₃) (hlater : w.currentSegment < w₁.currentSegment)
    (hbad : Unreadable w w₃) : ∃ rs', Holds J w₃ (rs' ++ ys) := by
  obtain ⟨closed, content, hl, hclean, hframes, hall⟩ := h
  obtain ⟨hl₀, hseg₀⟩ := @layout_crashed J w closed content hl rec cut maxSegmentBytes
  rw [hl.files] at hframes
  rcases hl₀.writeAll_cases hx with ⟨t, -, hseg⟩ | ⟨t, xs₁, xs₂, wm, rfl, -, hlm, -, hxm⟩
  · exact absurd hlater (by omega)
  · have hym : wm.writeAll J (xs₂ ++ ys) = some w₃ := by
      rw [WriteAheadLog.writeAll, List.foldlM_append]
      exact Option.bind_eq_some_iff.mpr ⟨w₁, hxm, hy⟩
    rw [hseg₀] at hlm
    have hnone := hbad.readFrame hl.offset hlm hym
    have := (holds_after_tear hclean hframes hall hlm hnone).writeAll hym
    rw [← List.append_assoc] at this
    exact ⟨_, this⟩

/-- A record of the torn segment is not read: `Recover` answers as if it, and everything up to
    the next rotation, had not been written. -/
theorem recover_torn (h : Holds J w rs)
    (hx : (WriteAheadLog.openDir (crashed J w rec cut) maxSegmentBytes).writeAll J xs = some w₁)
    (hy : w₁.writeAll J (.logEntry e :: ys) = some w₃)
    (hsame : ¬ w.currentSegment < w₁.currentSegment) (hbad : Unreadable w w₃) :
    ∃ ys', ys' ⊆ ys ∧ w₃.recover J = some (replay (rs ++ ys')) := by
  obtain ⟨closed, content, hl, hclean, hframes, hall⟩ := h
  obtain ⟨hl₀, hseg₀⟩ := @layout_crashed J w closed content hl rec cut maxSegmentBytes
  rw [hl.files] at hframes
  rcases hl₀.writeAll_cases hx with ⟨t, hl₁, hseg⟩ | ⟨t, xs₁, xs₂, wm, -, -, hlm, hsegm, hxm⟩
  · rw [List.append_assoc] at hl₁
    rcases hl₁.writeAll_cases hy with ⟨t', hl₃, hseg₃⟩ | ⟨t', zs₁, zs₂, wm, heq, hne, hlm, -, hym⟩
    · -- everything stayed in the torn segment
      refine ⟨[], by simp, ?_⟩
      have hmem : (w.currentSegment, content ++ ((WalRecord.bytes J rec).take cut ++ t) ++ t') ∈
          w₃.files := by
        rw [hl₃.files, hseg₃, hseg, hseg₀]
        simp
      have hnone := hbad _ (lookup_of_ascending hl₃.ascending _ hmem)
      rw [hl.offset, List.append_assoc, List.drop_left] at hnone
      rw [segmentFrames_append, segmentFrames_single] at hframes
      rw [recover_eq hl₃.ascending, hl₃.files, segmentFrames_append, segmentFrames_single,
        List.append_assoc content, hclean, frames_of_none hnone, List.append_nil, hframes,
        List.append_nil]
      exact foldlM_frames J rs {}
    · -- the torn segment was closed behind the entry
      rw [hseg, hseg₀] at hlm
      have hnone := hbad.readFrame hl.offset hlm hym
      refine ⟨zs₂, ?_, ((holds_after_tear hclean hframes hall hlm hnone).writeAll hym).recover⟩
      cases zs₁ with
      | nil => exact absurd rfl hne
      | cons z zs₁ =>
        rw [List.cons_append, List.cons.injEq] at heq
        rw [heq.2]
        exact List.subset_append_right zs₁ zs₂
  · obtain ⟨-, -, -, -, hle⟩ := hlm.writeAll hxm
    exact absurd hsame (by omega)

/-- **Durability after a torn write.** The write of `rec` is cut off at byte `cut`; the
    directory is reopened and recovered, `xs` is written, then the entry `e`, then `ys`, which
    neither overwrites `e` nor covers it by a snapshot. If `e` survives the tear, the next
    `Recover` returns it. Conversely, unless the same entry was written elsewhere or the bytes
    from the tear on happen to read as a frame, only an entry that survives is returned. -/
theorem torn_write_durable (J : Json.Codec) (maxSegmentBytes cut : Nat)
    (hw : (WriteAheadLog.openDir [] maxSegmentBytes).writeAll J rs = some w)
    (hsmall : Small J rec)
    (hx : (WriteAheadLog.openDir (crashed J w rec cut) maxSegmentBytes).writeAll J xs = some w₁)
    (hy : w₁.writeAll J (.logEntry e :: ys) = some w₃)
    (hover : ∀ e', WalRecord.logEntry e' ∈ ys → e.index < e'.index)
    (hcover : ∀ i t d, WalRecord.snapshot i t d ∈ ys → i < e.index) :
    (∃ r, (WriteAheadLog.openDir (crashed J w rec cut) maxSegmentBytes).recover J = some r) ∧
      (Survives J w rec cut w₁ w₃ e ys → ∃ r, w₃.recover J = some r ∧ e ∈ r.entries) ∧
      (WalRecord.logEntry e ∉ rs ++ ys → Whole J rec cut ∨ Unreadable w w₃ →
        (∃ r, w₃.recover J = some r ∧ e ∈ r.entries) → Survives J w rec cut w₁ w₃ e ys) := by
  have hh := (holds_empty J maxSegmentBytes).writeAll hw
  rw [List.nil_append] at hh
  have hheld : Whole J rec cut ∨ w.currentSegment < w₁.currentSegment ∧ Unreadable w w₃ →
      ∃ rs', Holds J w₃ (rs' ++ .logEntry e :: ys) := by
    rintro (hcut | ⟨hlater, hbad⟩)
    · obtain ⟨rs', hh'⟩ := holds_crashed hh hsmall hcut maxSegmentBytes
      exact ⟨_, (hh'.writeAll hx).writeAll hy⟩
    · exact holds_beyond hh hx hy hlater hbad
  refine ⟨recover_crashed hh hsmall cut maxSegmentBytes, ?_, ?_⟩
  · rintro ⟨hplace, hsnap⟩
    obtain ⟨rs', hh'⟩ := hheld hplace
    apply (recovered_iff hh' hover).1
    intro i t d hmem
    exact absurd (hcover i t d hmem) (Nat.not_lt.mpr (hsnap i t d hmem))
  · intro hnew htear hrec
    rw [List.mem_append, not_or] at hnew
    have hplace : Whole J rec cut ∨
        w.currentSegment < w₁.currentSegment ∧ Unreadable w w₃ := by
      refine htear.imp_right fun hbad => ?_
      by_cases hlater : w.currentSegment < w₁.currentSegment
      · exact ⟨hlater, hbad⟩
      · -- in the torn segment only older and later records are read, and `e` is neither
        obtain ⟨ys', hsub, hr'⟩ := recover_torn hh hx hy hlater hbad
        obtain ⟨r, hr, he⟩ := hrec
        rw [hr'] at hr
        cases hr
        rcases List.mem_append.mp (mem_of_replay he) with hold | hlate
        · exact absurd hold hnew.1
        · exact absurd (hsub hlate) hnew.2
    obtain ⟨rs', hh'⟩ := hheld hplace
    refine ⟨hplace, fun i t d hmem => ?_⟩
    exact absurd hmem ((recovered_iff hh' hover).2 hnew.2 hrec i t d)

end Tear

def rawEntry (index : Nat) (command : String) : RawLogEntry := { term := 1, index, command }

/-- The record that is torn: entry 2, with a command longer than those that follow. -/
def tornRecord : WalRecord := .logEntry (rawEntry 2 "xxxxxxxxxxxxxxxxxxxxxxxxxxxxxxxxxxxxxxxx")

/-- Segments of one record each: entry 1, then entry 2 torn at byte 12 and written again behind
    the torn bytes, then entry 3 in the next segment. -/
theorem torn_write_durable_three : ∃ w w₁ w₃,
    (WriteAheadLog.openDir [] 1).writeAll Json.text [.logEntry (rawEntry 1 "x")] = some w ∧
      (WriteAheadLog.openDir (crashed Json.text w tornRecord 12) 1).writeAll Json.text
        [.logEntry (rawEntry 2 "y")] = some w₁ ∧
      w₁.writeAll Json.text [.logEntry (rawEntry 3 "z")] = some w₃ ∧
      Survives Json.text w tornRecord 12 w₁ w₃ (rawEntry 3 "z") [] ∧
      ∃ r, w₃.recover Json.text = some r ∧ rawEntry 3 "z" ∈ r.entries := by
  obtain ⟨w, hw, h⟩ := (Option.any_eq_true _ _).mp
    (show ((WriteAheadLog.openDir [] 1).writeAll Json.text [.logEntry (rawEntry 1 "x")]).any
      (fun w => ((WriteAheadLog.openDir (crashed Json.text w tornRecord 12) 1).writeAll Json.text
        [.logEntry (rawEntry 2 "y")]).any fun w₁ =>
          (w₁.writeAll Json.text [.logEntry (rawEntry 3 "z")]).any fun w₃ =>
            decide (w.currentSegment < w₁.currentSegment) &&
            ((w₃.files.lookup w.currentSegment).all fun content =>
              (readFrame crc32 (content.drop w.currentOffset)).isNone)) = true by decide +kernel)
  obtain ⟨w₁, hw₁, h⟩ := (Option.any_eq_true _ _).mp h
  obtain ⟨w₃, hw₃, h⟩ := (Option.any_eq_true _ _).mp h
  rw [Bool.and_eq_true, decide_eq_true_eq] at h
  have hbad : Unreadable w w₃ := by
    intro content hc
    have hnone := h.2
    rw [hc] at hnone
    exact Option.isNone_iff_eq_none.mp hnone
  have hsmall : Small Json.text tornRecord := by
    unfold Small
    decide +kernel
  have hsurvives : Survives Json.text w tornRecord 12 w₁ w₃ (rawEntry 3 "z") [] :=
    ⟨Or.inr ⟨h.1, hbad⟩, by simp⟩
  have hdurable := torn_write_durable Json.text 1 12 hw hsmall hw₁ hw₃ (by simp) (by simp)
  exact ⟨w, w₁, w₃, hw, hw₁, hw₃, hsurvives, hdurable.2.1 hsurvives⟩

/-- **A synced entry that does not come back**: the first record of the WAL is torn at byte 12,
    entry 1 is written behind the torn bytes, and `Recover` returns nothing. -/
theorem torn_write_fails : ∃ w₁ r,
    (WriteAheadLog.openDir (crashed Json.text (WriteAheadLog.openDir [] 1000) tornRecord 12)
        1000).recover Json.text = some {} ∧
      (WriteAheadLog.openDir (crashed Json.text (WriteAheadLog.openDir [] 1000) tornRecord 12)
        1000).appendLogEntry Json.text (rawEntry 1 "x") = some w₁ ∧
      w₁.recover Json.text = some r ∧ rawEntry 1 "x" ∉ r.entries := by
  obtain ⟨w₁, hw₁, h⟩ := (Option.any_eq_true _ _).mp
    (show ((WriteAheadLog.openDir (crashed Json.text (WriteAheadLog.openDir [] 1000) tornRecord
      12) 1000).appendLogEntry Json.text (rawEntry 1 "x")).any
        (fun w₁ => decide (w₁.recover Json.text = some {})) = true by decide +kernel)
  exact ⟨w₁, {}, by decide +kernel, hw₁, of_decide_eq_true h, by simp⟩

end Proof
end OrcDb
