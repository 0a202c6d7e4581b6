import OrcDb.Proof.Storage.Compaction

/-!
# Crashing during a restart

The constructor appends the recovered entries through `RaftLog::Append`, which writes each of
them to the WAL it was just read from. The first of these records has index 1, and `Recover`
drops everything at or above it: until the last entry has been written again, the disk holds
fewer entries than before. A process that stops in between has lost the rest
(`restart_keeps_fails`), and no later restart brings it back.

The harmless points are before the first append and after the last one; with those, any number
of interrupted restarts keeps the log (`restart_keeps`).
-/

set_option autoImplicit false

namespace OrcDb
namespace Proof

open Lib

variable {J : Json.Codec} {es : List LogEntry} {rs : List WalRecord} {w : WriteAheadLog}

/-- The entries a restart leaves when it stops after `k` appends. -/
def cutAt (es : List LogEntry) (k : Nat) : List LogEntry := if k = 0 then es else es.take k

theorem length_foldl_cutAt (ks : List Nat) (es : List LogEntry) :
    (ks.foldl cutAt es).length ≤ es.length := by
  induction ks generalizing es with
  | nil => exact Nat.le_refl _
  | cons k ks ih =>
    refine Nat.le_trans (ih (cutAt es k)) ?_
    unfold cutAt
    split
    · exact Nat.le_refl _
    · exact List.length_take_le' k es

/-- Nothing that was cut off comes back. -/
theorem foldl_cutAt_eq_iff (ks : List Nat) (es : List LogEntry) :
    ks.foldl cutAt es = es ↔ ∀ k ∈ ks, k = 0 ∨ es.length ≤ k := by
  induction ks with
  | nil => simp
  | cons k ks ih =>
    rw [List.foldl_cons, List.forall_mem_cons, ← ih]
    by_cases hk : k = 0 ∨ es.length ≤ k
    · have hkeep : cutAt es k = es := by
        unfold cutAt
        split
        · rfl
        · rename_i h0
          exact List.take_of_length_le (hk.resolve_left h0)
      rw [hkeep]
      exact ⟨fun h => ⟨hk, h⟩, fun h => h.2⟩
    · refine ⟨fun h => ?_, fun h => absurd h.1 hk⟩
      have hshort : (cutAt es k).length < es.length := by
        unfold cutAt
        rw [if_neg (fun h0 => hk (Or.inl h0)), List.length_take]
        omega
      have hle := length_foldl_cutAt ks (cutAt es k)
      rw [h] at hle
      omega

/-- **One interrupted restart** goes through, and leaves the entries it has written again. -/
theorem restart_step (maxSegmentBytes : Nat) (hh : Holds J w rs)
    (hrs : (replay rs).entries = es.map (LogEntry.toRaw J))
    (hes : ∀ (k : Nat) (e : LogEntry), es[k]? = some e → e.index = 1 + k) (k : Nat) :
    ∃ w' rs', RaftNode.restartInterrupted J maxSegmentBytes w.files k = some w'.files ∧
      Holds J w' rs' ∧ (replay rs').entries = (cutAt es k).map (LogEntry.toRaw J) := by
  have hopen := hh.reopen maxSegmentBytes
  have hsmall : ∀ rec ∈ (es.take k).map (LogEntry.record J), Small J rec := by
    intro rec hrec
    obtain ⟨e, he, rfl⟩ := List.mem_map.mp hrec
    apply hh.small
    apply mem_of_replay
    rw [hrs]
    exact List.mem_map_of_mem (List.mem_of_mem_take he)
  obtain ⟨w', hw'⟩ := writeAll_of_small hsmall (WriteAheadLog.openDir w.files maxSegmentBytes)
  refine ⟨w', _, ?_, hopen.writeAll hw', ?_⟩
  · simp only [RaftNode.restartInterrupted, hopen.recover, recoveredEntries_eq hrs,
      Option.bind_eq_bind, Option.bind_some, hw']
    rfl
  · have hfrom : From 1 (replay rs).entries := by
      rw [hrs]
      exact from_map_toRaw hes
    rw [replay_append, records_eq]
    unfold cutAt
    cases htake : es.take k with
    | nil =>
      rw [List.map_nil, List.map_nil, List.foldl_nil, hrs]
      rcases List.take_eq_nil_iff.mp htake with h0 | hnil
      · rw [if_pos h0]
      · rw [hnil, ite_self]
    | cons e rest =>
      have hk : k ≠ 0 := by
        intro h0
        rw [h0, List.take_zero] at htake
        exact absurd htake (by simp)
      have hbatch : From 1 ((es.take k).map (LogEntry.toRaw J)) := by
        rw [List.map_take]
        exact (from_map_toRaw hes).take k
      rw [← htake, foldl_of_from hfrom hbatch (by simp [htake]), if_neg hk]
      rfl

/-- The restarts one after the other, with the entries that are left as the accumulator. -/
theorem restart_run (maxSegmentBytes : Nat) (hh : Holds J w rs)
    (hrs : (replay rs).entries = es.map (LogEntry.toRaw J))
    (hes : ∀ (k : Nat) (e : LogEntry), es[k]? = some e → e.index = 1 + k) (ks : List Nat) :
    ∃ w' rs', ks.foldlM (RaftNode.restartInterrupted J maxSegmentBytes) w.files = some w'.files ∧
      Holds J w' rs' ∧ (replay rs').entries = (ks.foldl cutAt es).map (LogEntry.toRaw J) := by
  induction ks generalizing w rs es with
  | nil => exact ⟨w, rs, rfl, hh, hrs⟩
  | cons k ks ih =>
    obtain ⟨w₁, rs₁, h₁, hh₁, hrs₁⟩ := restart_step maxSegmentBytes hh hrs hes k
    have hes₁ : ∀ (j : Nat) (e : LogEntry), (cutAt es k)[j]? = some e → e.index = 1 + j := by
      intro j e he
      unfold cutAt at he
      split at he
      · exact hes j e he
      · rw [List.getElem?_take] at he
        split at he
        · exact hes j e he
        · exact absurd he (by simp)
    obtain ⟨w', rs', h', hh', hrs'⟩ := ih hh₁ hrs₁ hes₁
    refine ⟨w', rs', ?_, hh', hrs'⟩
    rw [List.foldlM_cons, h₁]
    exact h'

/-- **Crashing during a restart**, any number of times: the WAL holds the entries `1..m`, and
    each of the restarts stops after some number of re-appended entries. The next `Recover`
    returns the same entries exactly if no restart stopped between the first append and the
    last. -/
theorem restart_keeps (J : Json.Codec) (maxSegmentBytes : Nat)
    (hw : (WriteAheadLog.openDir [] maxSegmentBytes).writeAll J rs = some w)
    (hrs : (replay rs).entries = es.map (LogEntry.toRaw J))
    (hes : ∀ (k : Nat) (e : LogEntry), es[k]? = some e → e.index = 1 + k) (ks : List Nat) :
    ∃ files r, ks.foldlM (RaftNode.restartInterrupted J maxSegmentBytes) w.files = some files ∧
      (WriteAheadLog.openDir files maxSegmentBytes).recover J = some r ∧
      (r.entries = es.map (LogEntry.toRaw J) ↔ ∀ k ∈ ks, k = 0 ∨ es.length ≤ k) := by
  have hh := (holds_empty J maxSegmentBytes).writeAll hw
  rw [List.nil_append] at hh
  obtain ⟨w', rs', hfiles, hh', hrs'⟩ := restart_run maxSegmentBytes hh hrs hes ks
  refine ⟨_, _, hfiles, (hh'.reopen maxSegmentBytes).recover, ?_⟩
  rw [hrs', (List.map_injective_iff.mpr (toRaw_injective J)).eq_iff]
  exact foldl_cutAt_eq_iff ks es

/-- Two entries on disk. -/
def twoRecords : List WalRecord :=
  [putEntry 1 1 "a", putEntry 1 2 "b"].map (LogEntry.record Json.text)

theorem twoRecords_written : ∃ w,
    (WriteAheadLog.openDir [] 200).writeAll Json.text twoRecords = some w :=
  Option.isSome_iff_exists.mp (by decide +kernel)

/-- Stopped before the first append, then after the last. -/
theorem restart_keeps_two : ∃ w files r,
    (WriteAheadLog.openDir [] 200).writeAll Json.text twoRecords = some w ∧
      [0, 2].foldlM (RaftNode.restartInterrupted Json.text 200) w.files = some files ∧
      (WriteAheadLog.openDir files 200).recover Json.text = some r ∧
      r.entries = [putEntry 1 1 "a", putEntry 1 2 "b"].map (LogEntry.toRaw Json.text) := by
  obtain ⟨w, hw⟩ := twoRecords_written
  obtain ⟨files, r, hfiles, hr, hiff⟩ :=
    restart_keeps Json.text 200 hw (by decide +kernel) twoEntries_index [0, 2]
  exact ⟨w, files, r, hw, hfiles, hr, hiff.mpr (by decide)⟩

/-- **Entry 2 is lost**: the restart stops after it has written entry 1 again. -/
theorem restart_keeps_fails : ∃ w files r,
    (WriteAheadLog.openDir [] 200).writeAll Json.text twoRecords = some w ∧
      (w.recover Json.text).map RecoveryResult.entries =
        some ([putEntry 1 1 "a", putEntry 1 2 "b"].map (LogEntry.toRaw Json.text)) ∧
      RaftNode.restartInterrupted Json.text 200 w.files 1 = some files ∧
      (WriteAheadLog.openDir files 200).recover Json.text = some r ∧
      r.entries = [putEntry 1 1 "a"].map (LogEntry.toRaw Json.text) ∧
      r.entries ≠ [putEntry 1 1 "a", putEntry 1 2 "b"].map (LogEntry.toRaw Json.text) := by
  obtain ⟨w, hw⟩ := twoRecords_written
  have hh := (holds_empty Json.text 200).writeAll hw
  have hrs : (replay ([] ++ twoRecords)).entries =
      [putEntry 1 1 "a", putEntry 1 2 "b"].map (LogEntry.toRaw Json.text) := by
    decide +kernel
  obtain ⟨w', rs', hfiles, hh', hrs'⟩ := restart_step 200 hh hrs twoEntries_index 1
  refine ⟨w, _, _, hw, by rw [hh.recover, Option.map_some, hrs], hfiles,
    (hh'.reopen 200).recover, hrs', fun h => ?_⟩
  rw [hrs'] at h
  exact absurd (congrArg List.length h) (by decide)

end Proof
end OrcDb
