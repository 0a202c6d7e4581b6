import OrcDb.Proof.Storage.Wal
import OrcDb.Lib.JsonText

/-!
# Recovery from a directory that was cut short

Calls on an empty directory, then the last segment file is cut at some byte. `places` says
for every call that returned where its record ended up: the segment, and the offset behind
its last byte. `Recover` answers with the fold over exactly the records that end before the
cut (`recover_truncated`), however the records were distributed over segments.

A record of more than `0x7ffff000` bytes is written in part before its call throws. The
calls end there, and the part that was written is one more thing the cut leaves behind; it
is not read either.
-/

set_option autoImplicit false

namespace OrcDb
namespace Proof

open Lib

/-- The directory after a sequence of calls; a call that throws is the last, and leaves the
    part of its record that `write` took. -/
def filesAfter (J : Json.Codec) : WriteAheadLog → List WalRecord → List (Nat × List UInt8)
  | w, [] => w.files
  | w, rec :: rs =>
      match w.writeOne J rec with
      | some w' => filesAfter J w' rs
      | none => (w.write ((WalRecord.bytes J rec).take WriteAheadLog.maxWrite)).files

/-- A record on disk: its segment, and the offset behind its last byte. -/
structure Place where
  record : WalRecord
  segment : Nat
  stop : Nat

/-- Where the next call puts its record. -/
def nextPlace (J : Json.Codec) (w : WriteAheadLog) (rec : WalRecord) : Place where
  record := rec
  segment := w.currentSegment
  stop := w.currentOffset + (WalRecord.bytes J rec).length

/-- Where the calls put their records. -/
def places (J : Json.Codec) : WriteAheadLog → List WalRecord → List Place
  | _, [] => []
  | w, rec :: rs =>
      match w.writeOne J rec with
      | some w' => nextPlace J w rec :: places J w' rs
      | none => []

/-- The number of the last segment. -/
def lastSegment (files : List (Nat × List UInt8)) : Nat := (files.map Prod.fst).foldl max 0

/-- The last segment file, cut at byte `cut`. -/
def cutLast (files : List (Nat × List UInt8)) (cut : Nat) : List (Nat × List UInt8) :=
  files.map fun file =>
    if file.1 = lastSegment files then (file.1, file.2.take cut) else file

/-- The records that lie wholly before the cut, in write order. -/
def recordsBefore (last cut : Nat) (ps : List Place) : List WalRecord :=
  (ps.filter fun p => p.segment < last ∨ p.stop ≤ cut).map Place.record

variable {J : Json.Codec} {w w' : WriteAheadLog} {ps cur : List Place} {rec : WalRecord}
  {closed : List (Nat × List UInt8)} {content : List UInt8}

/-! ## One segment -/

/-- The records of one segment stand one behind the other, from offset `off` on. -/
def Stacked (J : Json.Codec) : Nat → List Place → Prop
  | _, [] => True
  | off, p :: ps => p.stop = off + (WalRecord.bytes J p.record).length ∧ Stacked J p.stop ps

theorem Stacked.le_stop : ∀ {off : Nat} {ps : List Place}, Stacked J off ps →
    ∀ p ∈ ps, off ≤ p.stop := by
  intro off ps
  induction ps generalizing off with
  | nil =>
    intro _ p hp
    exact absurd hp (by simp)
  | cons q ps ih =>
    intro h p hp
    obtain ⟨hq, hrest⟩ := h
    rcases List.mem_cons.mp hp with rfl | hp
    · omega
    · have := ih hrest p hp
      omega

theorem Stacked.concat {off : Nat} (h : Stacked J off ps) {p : Place}
    (hp : p.stop = off + (ps.flatMap fun q => WalRecord.bytes J q.record).length +
      (WalRecord.bytes J p.record).length) : Stacked J off (ps ++ [p]) := by
  induction ps generalizing off with
  | nil => exact ⟨hp, trivial⟩
  | cons q ps ih =>
    obtain ⟨hq, hrest⟩ := h
    refine ⟨hq, ih hrest ?_⟩
    rw [List.flatMap_cons, List.length_append] at hp
    omega

/-- Once a record goes past the cut, so do those behind it. -/
theorem Stacked.filter_nil {off cut : Nat} {p : Place} (h : Stacked J off (p :: ps))
    (hstop : ¬p.stop ≤ cut) : (p :: ps).filter (fun q => q.stop ≤ cut) = [] := by
  rw [List.filter_eq_nil_iff]
  intro q hq
  have : p.stop ≤ q.stop := by
    rcases List.mem_cons.mp hq with rfl | hq
    · exact Nat.le_refl _
    · exact h.2.le_stop q hq
  simp only [decide_eq_true_eq]
  omega

/-- The records before a cut of one segment are the first ones. -/
theorem Stacked.filter_prefix {off cut : Nat} (h : Stacked J off ps) :
    ps.filter (fun p => p.stop ≤ cut) <+: ps := by
  induction ps generalizing off with
  | nil => exact List.prefix_refl []
  | cons p ps ih =>
    by_cases hstop : p.stop ≤ cut
    · rw [List.filter_cons_of_pos (by simpa using hstop)]
      exact List.cons_prefix_cons.mpr ⟨rfl, ih h.2⟩
    · rw [h.filter_nil hstop]
      exact List.nil_prefix

theorem Stacked.of_prefix {off : Nat} (h : Stacked J off ps) (hpre : cur <+: ps) :
    Stacked J off cur := by
  induction cur generalizing off ps with
  | nil => trivial
  | cons p cur ih =>
    obtain ⟨rest, rfl⟩ := hpre
    exact ⟨h.1, ih h.2 ⟨rest, rfl⟩⟩

/-- Cutting the segment keeps the records that stop before the cut. -/
theorem Stacked.within {off cut : Nat} (h : Stacked J off ps) (hoff : off ≤ cut) :
    framesWithin crc32 (cut - off) (ps.map fun p => WalRecord.frame J p.record) =
      (ps.filter fun p => p.stop ≤ cut).map fun p => WalRecord.frame J p.record := by
  induction ps generalizing off with
  | nil => rfl
  | cons p ps ih =>
    have hp := h.1
    rw [List.map_cons, framesWithin]
    change (if (WalRecord.bytes J p.record).length ≤ cut - off then _ else _) = _
    by_cases hstop : p.stop ≤ cut
    · rw [if_pos (by omega), List.filter_cons_of_pos (by simpa using hstop), List.map_cons,
        ← ih h.2 hstop]
      congr 2
      change cut - off - (WalRecord.bytes J p.record).length = cut - p.stop
      omega
    · rw [if_neg (by omega), h.filter_nil hstop]
      rfl

/-- A cut between two records leaves those in front of it and nothing else. -/
theorem Stacked.take_whole {off cut : Nat} (h : Stacked J off ps)
    (hcut : cut = off ∨ ∃ p ∈ ps, p.stop = cut) :
    (ps.flatMap fun p => WalRecord.bytes J p.record).take (cut - off) =
      (ps.filter fun p => p.stop ≤ cut).flatMap fun p => WalRecord.bytes J p.record := by
  induction ps generalizing off with
  | nil => simp
  | cons p ps ih =>
    have hp := h.1
    by_cases hstop : p.stop ≤ cut
    · have hrest : cut = p.stop ∨ ∃ q ∈ ps, q.stop = cut := by
        rcases hcut with rfl | ⟨q, hq, hqcut⟩
        · exact Or.inl (by omega)
        · rcases List.mem_cons.mp hq with rfl | hq
          · exact Or.inl hqcut.symm
          · exact Or.inr ⟨q, hq, hqcut⟩
      have hlen : cut - off = (WalRecord.bytes J p.record).length + (cut - p.stop) := by omega
      rw [List.filter_cons_of_pos (by simpa using hstop), List.flatMap_cons, List.flatMap_cons,
        hlen, List.take_length_add_append, ih h.2 hrest]
    · have hoff : cut - off = 0 := by
        rcases hcut with rfl | ⟨q, hq, hqcut⟩
        · exact Nat.sub_self _
        · rcases List.mem_cons.mp hq with rfl | hq
          · exact absurd (Nat.le_of_eq hqcut) hstop
          · have := h.2.le_stop q hq
            omega
      rw [hoff, h.filter_nil hstop]
      rfl

/-! ## The directory -/

/-- The places `ps` are where the files have their records. -/
def Stored (J : Json.Codec) (w : WriteAheadLog) (ps : List Place) : Prop :=
  ∃ closed old cur, ps = old ++ cur ∧
    Layout w closed (cur.flatMap fun p => WalRecord.bytes J p.record) ∧
    segmentFrames closed = old.map (fun p => WalRecord.frame J p.record) ∧
    (∀ p ∈ old, p.segment < w.currentSegment) ∧ (∀ p ∈ cur, p.segment = w.currentSegment) ∧
    Stacked J 0 cur ∧ ∀ p ∈ ps, Small J p.record

theorem stored_empty (J : Json.Codec) (maxSegmentBytes : Nat) :
    Stored J (WriteAheadLog.openDir [] maxSegmentBytes) [] :=
  ⟨[], [], [], rfl, layout_empty maxSegmentBytes, rfl, by simp, by simp, trivial, by simp⟩

theorem flatMap_bytes (ps : List Place) :
    (ps.map fun p => WalRecord.frame J p.record).flatMap (Frame.bytes crc32) =
      ps.flatMap fun p => WalRecord.bytes J p.record := by
  rw [List.flatMap_map]
  rfl

/-- The whole segment reads as its records. -/
theorem frames_stacked (hsmall : ∀ p ∈ ps, Small J p.record) :
    frames crc32 (ps.flatMap fun p => WalRecord.bytes J p.record) =
      ps.map fun p => WalRecord.frame J p.record := by
  induction ps with
  | nil => rfl
  | cons p ps ih =>
    have hp := (hsmall p List.mem_cons_self).payload
    rw [List.flatMap_cons, WalRecord.bytes, frames_of_some (readFrame_bytes hp _),
      ih (fun q hq => hsmall q (List.mem_cons_of_mem p hq)), List.map_cons]

/-- A record written whole adds one place. -/
theorem Stored.write (h : Stored J w ps) (hrec : Small J rec) :
    Stored J (w.write (WalRecord.bytes J rec)) (ps ++ [nextPlace J w rec]) := by
  obtain ⟨closed, old, cur, rfl, hl, hclosed, hold, hcur, hstack, hsmall⟩ := h
  refine ⟨closed, old, cur ++ [nextPlace J w rec], List.append_assoc _ _ _, ?_, hclosed, hold,
    ?_, hstack.concat (by simp [nextPlace, hl.offset]), ?_⟩
  · have hl' := hl.write (WalRecord.bytes J rec)
    rw [List.flatMap_append, List.flatMap_singleton]
    exact hl'
  · intro p hp
    rcases List.mem_append.mp hp with hp | hp
    · exact hcur p hp
    · rw [List.mem_singleton.mp hp]
      rfl
  · intro p hp
    rcases List.mem_append.mp hp with hp | hp
    · exact hsmall p hp
    · rw [List.mem_singleton.mp hp]
      exact hrec

/-- Moving on to the next segment closes the current one behind its records. -/
theorem Stored.openNext (h : Stored J w ps) :
    Stored J (w.openOrCreateSegment (w.currentSegment + 1)) ps := by
  obtain ⟨closed, old, cur, rfl, hl, hclosed, hold, hcur, hstack, hsmall⟩ := h
  obtain ⟨hl', hseg⟩ := hl.openNext
  refine ⟨_, old ++ cur, [], (List.append_nil _).symm, hl', ?_, ?_, by simp, trivial, hsmall⟩
  · rw [segmentFrames_append, segmentFrames_single, hclosed,
      frames_stacked (fun p hp => hsmall p (List.mem_append_right old hp)), ← List.map_append]
  · intro p hp
    rw [hseg]
    rcases List.mem_append.mp hp with hp | hp
    · exact Nat.lt_succ_of_lt (hold p hp)
    · rw [hcur p hp]
      exact Nat.lt_succ_self _

/-- A call that returns adds one place. -/
theorem Stored.writeOne (h : Stored J w ps) (hw : w.writeOne J rec = some w') :
    Stored J w' (ps ++ [nextPlace J w rec]) := by
  obtain ⟨hsmall, rfl | rfl⟩ := writeOne_eq hw
  · exact h.write hsmall
  · exact (h.write hsmall).openNext

theorem Stored.recover (h : Stored J w ps) :
    w.recover J = some (replay (ps.map Place.record)) := by
  obtain ⟨closed, old, cur, rfl, hl, hclosed, -, -, -, hsmall⟩ := h
  have hread : segmentFrames w.files =
      ((old ++ cur).map Place.record).map (WalRecord.frame J) := by
    rw [hl.files, segmentFrames_append, segmentFrames_single, hclosed,
      frames_stacked (fun p hp => hsmall p (List.mem_append_right old hp)), List.map_map,
      List.map_append]
    rfl
  rw [recover_eq hl.ascending, hread]
  exact foldlM_frames J _ {}

/-- The part of a record that a call which throws has written is not read, wherever it is
    cut. -/
theorem frames_thrown (hpay : (WalRecord.frame J rec).payload.length < 2 ^ 32)
    (hthrow : w.writeOne J rec = none) (k : Nat) :
    frames crc32 (((WalRecord.bytes J rec).take WriteAheadLog.maxWrite).take k) = [] := by
  have hlong : WriteAheadLog.maxWrite < (WalRecord.bytes J rec).length := by
    by_contra hle
    obtain ⟨w', hw'⟩ := writeOne_of_small (Nat.le_of_not_lt hle) w
    rw [hw'] at hthrow
    exact absurd hthrow (by simp)
  rw [List.take_take]
  exact frames_of_none (readFrame_take hpay (Nat.lt_of_le_of_lt (Nat.min_le_right _ _) hlong))

/-- **A sequence of calls, on the directory**: the places, and behind them what a throwing call
    has left. -/
theorem Stored.filesAfter (h : Stored J w ps) {rs : List WalRecord}
    (hpay : ∀ rec ∈ rs, (WalRecord.frame J rec).payload.length < 2 ^ 32) :
    ∃ w' torn, Stored J w' (ps ++ places J w rs) ∧
      Proof.filesAfter J w rs = (w'.write torn).files ∧
      ∀ k, frames crc32 (torn.take k) = [] := by
  induction rs generalizing w ps with
  | nil =>
    refine ⟨w, [], by rw [places, List.append_nil]; exact h, ?_, by simp [frames, readFrames]⟩
    obtain ⟨closed, old, cur, -, hl, -⟩ := h
    have hl' := hl.write []
    rw [List.append_nil] at hl'
    rw [hl'.files]
    exact hl.files
  | cons rec rs ih =>
    cases hw : w.writeOne J rec with
    | some w₁ =>
      obtain ⟨w', torn, hs, hfiles, htorn⟩ :=
        ih (h.writeOne hw) (fun r hr => hpay r (List.mem_cons_of_mem rec hr))
      refine ⟨w', torn, ?_, ?_, htorn⟩
      · rw [List.append_assoc] at hs
        simp only [places, hw]
        exact hs
      · simp only [Proof.filesAfter, hw]
        exact hfiles
    | none =>
      refine ⟨w, (WalRecord.bytes J rec).take WriteAheadLog.maxWrite, ?_, ?_,
        frames_thrown (hpay rec List.mem_cons_self) hw⟩
      · simp only [places, hw, List.append_nil]
        exact h
      · simp only [Proof.filesAfter, hw]

theorem Layout.lastSegment (h : Layout w closed content) :
    Proof.lastSegment w.files = w.currentSegment := by
  have := (openDir_layout h.files h.ascending 0).2.1
  unfold WriteAheadLog.openDir WriteAheadLog.openOrCreateSegment at this
  dsimp only at this
  split at this
  · exact this
  · exact this

/-- The cut leaves every other segment alone. -/
theorem Layout.cutLast (h : Layout w closed content) (cut : Nat) :
    Proof.cutLast w.files cut = closed ++ [(w.currentSegment, content.take cut)] := by
  unfold Proof.cutLast
  rw [h.lastSegment, h.files, List.map_append]
  congr 1
  · conv => rhs; rw [← List.map_id closed]
    apply List.map_congr_left
    intro file hf
    rw [if_neg (Nat.ne_of_lt (h.below file hf))]
    rfl
  · simp

theorem Layout.cutLast_ascending (h : Layout w closed content) (cut : Nat) :
    ((Proof.cutLast w.files cut).map Prod.fst).Pairwise (· < ·) := by
  have hasc := h.ascending
  rw [h.files] at hasc
  rw [h.cutLast]
  simpa using hasc

/-- What lies before a cut of the last segment: the records of the closed segments, and those
    of the last one that stop before the cut. -/
theorem filter_before {old : List Place} {seg : Nat} (cut : Nat)
    (hold : ∀ p ∈ old, p.segment < seg) (hcur : ∀ p ∈ cur, p.segment = seg) :
    (old ++ cur).filter (fun p => p.segment < seg ∨ p.stop ≤ cut) =
      old ++ cur.filter fun p => p.stop ≤ cut := by
  rw [List.filter_append]
  congr 1
  · rw [List.filter_eq_self]
    intro p hp
    simp [hold p hp]
  · apply List.filter_congr
    intro p hp
    simp [hcur p hp]

/-- The calls that returned are the first ones. -/
theorem places_extends (J : Json.Codec) (w : WriteAheadLog) (rs : List WalRecord) :
    (places J w rs).map Place.record <+: rs := by
  induction rs generalizing w with
  | nil => exact List.prefix_refl []
  | cons rec rs ih =>
    unfold places
    cases w.writeOne J rec with
    | some w' => exact List.cons_prefix_cons.mpr ⟨rfl, ih w'⟩
    | none => exact List.nil_prefix

/-- Where every call returns, the directory is that of the last handle. -/
theorem filesAfter_of_writeAll {rs : List WalRecord} (h : w.writeAll J rs = some w') :
    filesAfter J w rs = w'.files := by
  induction rs generalizing w with
  | nil =>
    cases h
    rfl
  | cons rec rs ih =>
    rw [WriteAheadLog.writeAll, List.foldlM_cons, Option.bind_eq_bind,
      Option.bind_eq_some_iff] at h
    obtain ⟨w₁, h₁, h⟩ := h
    simp only [filesAfter, h₁]
    exact ih h

/-! ## The directory, cut -/

/-- A directory with something unreadable behind its records, cut: what is read are the records
    before the cut, and these are the first ones. -/
theorem Stored.recover_cut (h : Stored J w ps) {torn : List UInt8}
    (htorn : ∀ k, frames crc32 (torn.take k) = []) (cut maxBytes : Nat) :
    (WriteAheadLog.openDir (cutLast (w.write torn).files cut) maxBytes).recover J =
        some (replay (recordsBefore (Proof.lastSegment (w.write torn).files) cut ps)) ∧
      recordsBefore (Proof.lastSegment (w.write torn).files) cut ps <+:
        ps.map Place.record := by
  obtain ⟨closed, old, cur, rfl, hl, hclosed, hold, hcur, hstack, hsmall⟩ := h
  have hlw := hl.write torn
  have hseg : Proof.lastSegment (w.write torn).files = w.currentSegment := hlw.lastSegment
  rw [hseg, recordsBefore, filter_before cut hold hcur]
  refine ⟨?_, (List.prefix_append_right_inj old |>.mpr hstack.filter_prefix).map _⟩
  have hcut := hlw.cutLast cut
  obtain ⟨hopen, -, hfiles⟩ := openDir_layout hcut (hlw.cutLast_ascending cut) maxBytes
  have hpay : ∀ f ∈ cur.map (fun p => WalRecord.frame J p.record), f.payload.length < 2 ^ 32 := by
    intro f hf
    obtain ⟨p, hp, rfl⟩ := List.mem_map.mp hf
    exact (hsmall p (List.mem_append_right old hp)).payload
  have hread : segmentFrames (cutLast (w.write torn).files cut) =
      ((old ++ cur.filter fun p => p.stop ≤ cut).map Place.record).map (WalRecord.frame J) := by
    rw [hcut, segmentFrames_append, segmentFrames_single, hclosed, ← flatMap_bytes,
      frames_take hpay htorn, List.map_map, List.map_append]
    exact congrArg _ (hstack.within (Nat.zero_le cut))
  rw [recover_eq hopen.ascending, hfiles, hread]
  exact foldlM_frames J _ {}

theorem write_nil (w : WriteAheadLog) : w.write [] = w := by
  simp [WriteAheadLog.write]

/-- A directory without anything behind its records, cut at any byte. -/
theorem Stored.cut (h : Stored J w ps) (cut maxBytes : Nat) :
    (WriteAheadLog.openDir (cutLast w.files cut) maxBytes).recover J =
        some (replay (recordsBefore w.currentSegment cut ps)) ∧
      recordsBefore w.currentSegment cut ps <+: ps.map Place.record := by
  have hnil : ∀ k, frames crc32 (([] : List UInt8).take k) = [] := by
    simp [frames, readFrames]
  have hcut := h.recover_cut hnil cut maxBytes
  obtain ⟨closed, old, cur, -, hl, -⟩ := h
  rw [write_nil, hl.lastSegment] at hcut
  exact hcut

/-- Cut between two records, it is a directory with the records in front of the cut. -/
theorem Stored.cut_whole (h : Stored J w ps) {cut : Nat} (maxBytes : Nat)
    (hcut : cut = 0 ∨ ∃ p ∈ ps, p.segment = w.currentSegment ∧ p.stop = cut) :
    Stored J (.openDir (cutLast w.files cut) maxBytes)
      (ps.filter fun p => p.segment < w.currentSegment ∨ p.stop ≤ cut) := by
  obtain ⟨closed, old, cur, rfl, hl, hclosed, hold, hcur, hstack, hsmall⟩ := h
  have hbetween : cut = 0 ∨ ∃ p ∈ cur, p.stop = cut := by
    rcases hcut with hzero | ⟨p, hp, hseg, hstop⟩
    · exact Or.inl hzero
    · rcases List.mem_append.mp hp with hp | hp
      · exact absurd hseg (Nat.ne_of_lt (hold p hp))
      · exact Or.inr ⟨p, hp, hstop⟩
  have hfiles := hl.cutLast cut
  have htake := hstack.take_whole hbetween
  rw [Nat.sub_zero] at htake
  rw [htake] at hfiles
  obtain ⟨hopen, hseg, -⟩ := openDir_layout hfiles (hl.cutLast_ascending cut) maxBytes
  have hkept : (old ++ cur).filter (fun p => p.segment < w.currentSegment ∨ p.stop ≤ cut) =
      old ++ cur.filter fun p => p.stop ≤ cut := filter_before cut hold hcur
  rw [hkept]
  refine ⟨closed, old, _, rfl, hopen, hclosed, by rw [hseg]; exact hold, ?_,
    hstack.of_prefix hstack.filter_prefix, ?_⟩
  · intro p hp
    rw [hseg]
    exact hcur p (List.mem_of_mem_filter hp)
  · intro p hp
    exact hsmall p ((List.append_sublist_append_left old).mpr List.filter_sublist |>.subset hp)

/-! ## Recovery -/

/-- **Recovery is exact on every truncated history.** Whatever the calls, the rotation limit and
    the cut, `Recover` folds its rule over the records that lie wholly before the cut. They are
    the first ones written, and all of them if nothing was cut and no call threw. -/
theorem recover_truncated (J : Json.Codec) (maxSegmentBytes maxSegmentBytes' cut : Nat)
    {rs : List WalRecord}
    (hpay : ∀ rec ∈ rs, (WalRecord.frame J rec).payload.length < 2 ^ 32) :
    let files := filesAfter J (.openDir [] maxSegmentBytes) rs
    let kept := recordsBefore (lastSegment files) cut (places J (.openDir [] maxSegmentBytes) rs)
    (WriteAheadLog.openDir (cutLast files cut) maxSegmentBytes').recover J = some (replay kept) ∧
      kept <+: rs ∧
      ((∀ rec ∈ rs, Small J rec) →
        (WriteAheadLog.openDir files maxSegmentBytes').recover J = some (replay rs)) := by
  intro files kept
  obtain ⟨w, torn, hstored, hfiles, htorn⟩ := (stored_empty J maxSegmentBytes).filesAfter hpay
  obtain ⟨hrec, hfirst⟩ := hstored.recover_cut htorn cut maxSegmentBytes'
  rw [← hfiles, List.nil_append] at hrec hfirst
  refine ⟨hrec, hfirst.trans (places_extends J _ rs), ?_⟩
  intro hsmall
  obtain ⟨w', hw'⟩ := writeAll_of_small hsmall (.openDir [] maxSegmentBytes)
  have hholds := (holds_empty J maxSegmentBytes).writeAll hw'
  rw [List.nil_append] at hholds
  change (WriteAheadLog.openDir (filesAfter J _ rs) _).recover J = _
  rw [filesAfter_of_writeAll hw']
  exact (hholds.reopen maxSegmentBytes').recover

/-- A vote and two entries; with segments of 60 bytes the second entry starts a new one. -/
def voteAndEntries : List WalRecord :=
  [.hardState { term := 1, votedFor := "A" },
    .logEntry { term := 1, index := 1, command := "x" },
    .logEntry { term := 1, index := 2, command := "y" }]

/-- The second segment is cut inside its first header: the vote and the first entry are left. -/
theorem recover_truncated_header :
    (WriteAheadLog.openDir
        (cutLast (filesAfter Json.text (.openDir [] 60) voteAndEntries) 5) 60).recover Json.text =
      some (replay (voteAndEntries.take 2)) := by
  have hpay : ∀ rec ∈ voteAndEntries,
      (WalRecord.frame Json.text rec).payload.length < 2 ^ 32 := by decide +kernel
  have hkept : recordsBefore
      (lastSegment (filesAfter Json.text (.openDir [] 60) voteAndEntries)) 5
      (places Json.text (.openDir [] 60) voteAndEntries) = voteAndEntries.take 2 := by
    decide +kernel
  rw [← hkept]
  exact (recover_truncated Json.text 60 60 5 hpay).1

end Proof
end OrcDb
