import OrcDb.Raft.Node
import OrcDb.Lib.PrefixLog

/-!
# The log of a node that never compacted

`Shaped` is what such a log looks like: the sentinel in front, and every entry at the offset
its index says. On a shaped log the offset arithmetic of `RaftLog` disappears — `GetEntry(i)`
is position `i`, `AppendAll` is the library's `merge` keyed by the term — and the searches of
`RaftNode` get the bounds the replication proofs use.
-/

set_option autoImplicit false

namespace OrcDb
namespace Proof

open Lib

/-! ## `AppendAll` is the merge -/

theorem place_eq_placeAt (log : RaftLog) (ne : LogEntry) :
    log.place ne =
      { log with entries := placeAt LogEntry.term log.entries (log.offset ne.index) ne } := by
  unfold RaftLog.place placeAt
  dsimp only
  cases log.entries[log.offset ne.index]? with
  | none => rfl
  | some old =>
    dsimp only
    split
    · rfl
    · rfl

/-- At or behind the snapshot the offset does not wrap. -/
theorem place_eq {log : RaftLog} {ne : LogEntry} {m : Nat} (h : ne.index = log.snapshotIndex + m) :
    log.place ne = { log with entries := placeAt LogEntry.term log.entries m ne } := by
  have hoff : log.offset ne.index = m := by
    rw [RaftLog.offset, if_pos (by omega), h, Nat.add_sub_cancel_left]
  rw [place_eq_placeAt, hoff]

theorem appendAll_eq_merge (J : Json.Codec) {log : RaftLog} {es : List LogEntry} {m : Nat}
    (hidx : ∀ (k : Nat) (e : LogEntry), es[k]? = some e → e.index = log.snapshotIndex + m + k) :
    (log.appendAll J es).1 = { log with entries := merge LogEntry.term log.entries m es } := by
  induction es generalizing log m with
  | nil => rfl
  | cons e es ih =>
    have hplace : log.place e = { log with entries := placeAt LogEntry.term log.entries m e } :=
      place_eq (hidx 0 e rfl)
    have hrest : ∀ k x, es[k]? = some x → x.index = (log.place e).snapshotIndex + (m + 1) + k := by
      intro k x hx
      rw [hplace, hidx (k + 1) x hx]
      dsimp only
      omega
    rw [RaftLog.appendAll]
    dsimp only
    rw [ih hrest, hplace]
    rfl

/-! ## The shape -/

structure Shaped (log : RaftLog) : Prop where
  snapshotIndex : log.snapshotIndex = 0
  snapshotTerm : log.snapshotTerm = 0
  head : log.entries[0]? = some (RaftLog.sentinel 0 0)
  index : ∀ (k : Nat) (e : LogEntry), log.entries[k]? = some e → e.index = k

theorem shaped_empty : Shaped RaftLog.empty where
  snapshotIndex := rfl
  snapshotTerm := rfl
  head := rfl
  index := by
    intro k e h
    cases k with
    | zero => cases h; rfl
    | succ k => exact absurd h (by simp [RaftLog.empty])

namespace Shaped

variable {log : RaftLog} (hs : Shaped log)
include hs

theorem offset_eq (i : Nat) : log.offset i = i := by
  simp [RaftLog.offset, hs.snapshotIndex]

theorem getEntry_eq (i : Nat) : log.getEntry i = log.entries[i]? := by
  rw [RaftLog.getEntry, hs.offset_eq]

theorem length_pos : 0 < log.entries.length :=
  (List.getElem?_eq_some_iff.mp hs.head).1

theorem getTerm_zero : log.getTerm 0 = 0 := by
  simp [RaftLog.getTerm, hs.snapshotIndex, hs.snapshotTerm]

theorem getTerm_eq {i : Nat} {e : LogEntry} (h : log.entries[i]? = some e) :
    log.getTerm i = e.term := by
  cases i with
  | zero =>
    rw [hs.head] at h
    cases h
    rw [hs.getTerm_zero]
    rfl
  | succ i =>
    unfold RaftLog.getTerm
    rw [if_neg (by rw [hs.snapshotIndex]; omega), hs.offset_eq, h]

theorem back_eq : log.entries[log.entries.length - 1]? = some log.back := by
  have hne : log.entries ≠ [] := List.ne_nil_of_length_pos hs.length_pos
  rw [RaftLog.back, List.getLastD_eq_getLast?, List.getLast?_eq_getElem?]
  have hlt : log.entries.length - 1 < log.entries.length := by
    have := hs.length_pos
    omega
  rw [List.getElem?_eq_getElem hlt, Option.getD_some]

theorem lastIndex_eq : log.lastIndex = log.entries.length - 1 :=
  hs.index _ _ hs.back_eq

/-- An index is held by the log exactly up to `LastIndex()`. -/
theorem le_lastIndex_iff {i : Nat} : i ≤ log.lastIndex ↔ i < log.entries.length := by
  have := hs.length_pos
  rw [hs.lastIndex_eq]
  omega

theorem lastIndex_lt : log.lastIndex < log.entries.length :=
  hs.le_lastIndex_iff.mp (Nat.le_refl _)

theorem entry_lastIndex : log.entries[log.lastIndex]? = some log.back := by
  rw [hs.lastIndex_eq]
  exact hs.back_eq

theorem append (e : LogEntry) (he : e.index = log.lastIndex + 1) (J : Json.Codec) :
    Shaped (log.append J e).1 where
  snapshotIndex := hs.snapshotIndex
  snapshotTerm := hs.snapshotTerm
  head := by
    simp only [RaftLog.append]
    rw [List.getElem?_append_left hs.length_pos]
    exact hs.head
  index := by
    intro k x hx
    simp only [RaftLog.append] at hx
    rcases Nat.lt_or_ge k log.entries.length with hlt | hge
    · rw [List.getElem?_append_left hlt] at hx
      exact hs.index k x hx
    · have hk : k = log.entries.length := by
        have := (List.getElem?_eq_some_iff.mp hx).1
        simp only [List.length_append, List.length_cons, List.length_nil] at this
        omega
      subst hk
      rw [List.getElem?_concat_length] at hx
      cases hx
      rw [he, hs.lastIndex_eq]
      have := hs.length_pos
      omega

omit hs in
theorem appendAll_entries (J : Json.Codec) {es : List LogEntry} {m : Nat}
    (h0 : log.snapshotIndex = 0)
    (hidx : ∀ (k : Nat) (e : LogEntry), es[k]? = some e → e.index = m + k) :
    (log.appendAll J es).1.entries = merge LogEntry.term log.entries m es ∧
      (log.appendAll J es).1.snapshotIndex = 0 ∧
      (log.appendAll J es).1.snapshotTerm = log.snapshotTerm := by
  have heq : (log.appendAll J es).1 =
      { log with entries := merge LogEntry.term log.entries m es } :=
    appendAll_eq_merge J (by rw [h0, Nat.zero_add]; exact hidx)
  rw [heq]
  exact ⟨rfl, h0, rfl⟩

end Shaped

theorem appendAll_records (J : Json.Codec) (log : RaftLog) (es : List LogEntry) :
    (log.appendAll J es).2 = es.map (LogEntry.record J) := by
  induction es generalizing log with
  | nil => rfl
  | cons e es ih => simp [RaftLog.appendAll, ih]

/-- The entries are numbered from `m` on. -/
def Contiguous (m : Nat) (es : List LogEntry) : Prop :=
  es.map LogEntry.index = List.range' m es.length

instance (m : Nat) (es : List LogEntry) : Decidable (Contiguous m es) :=
  inferInstanceAs (Decidable (_ = _))

theorem Contiguous.index {m : Nat} {es : List LogEntry} (h : Contiguous m es) :
    ∀ (k : Nat) (e : LogEntry), es[k]? = some e → e.index = m + k := by
  intro k e he
  have hmap : (es.map LogEntry.index)[k]? = some e.index := by
    rw [List.getElem?_map, he]
    rfl
  have hk := (List.getElem?_eq_some_iff.mp he).1
  rw [h, List.getElem?_range' hk] at hmap
  simpa using (Option.some.inj hmap).symm

/-- Some entry of the batch meets an entry of another term at its index. -/
def Conflicts (log : RaftLog) (es : List LogEntry) : Prop :=
  ∃ e ∈ es, ∃ old ∈ log.getEntry e.index, old.term ≠ e.term

instance (log : RaftLog) (es : List LogEntry) : Decidable (Conflicts log es) :=
  inferInstanceAs (Decidable (∃ e ∈ es, ∃ old ∈ log.getEntry e.index, old.term ≠ e.term))

section Batch

variable {log : RaftLog} {es : List LogEntry} {p : Nat} (J : Json.Codec) (hs : Shaped log)
  (hidx : ∀ (k : Nat) (e : LogEntry), es[k]? = some e → e.index = p + 1 + k)
include hs hidx

theorem conflicts_iff_clash :
    Conflicts log es ↔ Clash LogEntry.term log.entries (p + 1) es := by
  constructor
  · rintro ⟨e, he, old, hold, hne⟩
    obtain ⟨k, hk⟩ := List.getElem?_of_mem he
    rw [hs.getEntry_eq, hidx k e hk] at hold
    exact ⟨k, old, e, hold, hk, hne⟩
  · rintro ⟨k, old, e, hold, hk, hne⟩
    refine ⟨e, List.mem_of_getElem? hk, old, ?_, hne⟩
    rw [hs.getEntry_eq, hidx k e hk]
    exact hold

/-- A batch that starts no further than behind the last entry keeps the shape. -/
theorem Shaped.appendAll (hp : p ≤ log.lastIndex) : Shaped (log.appendAll J es).1 := by
  have hm : p + 1 ≤ log.entries.length := hs.le_lastIndex_iff.mp hp
  obtain ⟨hentries, hsi, hst⟩ := Shaped.appendAll_entries J hs.snapshotIndex hidx
  refine ⟨hsi, hst.trans hs.snapshotTerm, ?_, ?_⟩
  · rw [hentries, getElem?_merge (Nat.succ_pos p) hm]
    exact hs.head
  · rw [hentries]
    exact merge_forall hm hs.index hidx

theorem Shaped.lastIndex_of_conflicts (hp : p ≤ log.lastIndex) (h : Conflicts log es) :
    (log.appendAll J es).1.lastIndex = p + es.length := by
  have hm : p + 1 ≤ log.entries.length := hs.le_lastIndex_iff.mp hp
  rw [(hs.appendAll J hidx hp).lastIndex_eq,
    (Shaped.appendAll_entries J hs.snapshotIndex hidx).1,
    length_merge_of_clash hm ((conflicts_iff_clash hs hidx).mp h)]
  omega

theorem Shaped.lastIndex_of_not_conflicts (hp : p ≤ log.lastIndex) (h : ¬Conflicts log es) :
    (log.appendAll J es).1.lastIndex = max log.lastIndex (p + es.length) := by
  have hm : p + 1 ≤ log.entries.length := hs.le_lastIndex_iff.mp hp
  rw [(hs.appendAll J hidx hp).lastIndex_eq,
    (Shaped.appendAll_entries J hs.snapshotIndex hidx).1,
    length_merge_of_not_clash hm (mt (conflicts_iff_clash hs hidx).mpr h), hs.lastIndex_eq]
  omega

end Batch

/-! ## Logs for examples -/

/-- A log with these terms behind the sentinel. -/
def logOfTerms (ts : List Nat) : RaftLog :=
  { RaftLog.empty with
    entries := RaftLog.sentinel 0 0 ::
      ts.mapIdx fun i t => { term := t, index := i + 1, opType := .NoOp } }

theorem shaped_logOfTerms (ts : List Nat) : Shaped (logOfTerms ts) where
  snapshotIndex := rfl
  snapshotTerm := rfl
  head := rfl
  index := by
    intro k e h
    cases k with
    | zero => cases h; rfl
    | succ k =>
      simp only [logOfTerms, List.getElem?_cons_succ, List.getElem?_mapIdx,
        Option.map_eq_some_iff] at h
      obtain ⟨t, -, rfl⟩ := h
      rfl

/-! ## The searches -/

/-- What `ReplicateToPeer` collects is a piece of its log. -/
theorem collectEntries_piece {log : RaftLog} (hs : Shaped log) (lastIndex : Nat) :
    ∀ (budget i : Nat), PieceOf log.entries i (RaftNode.collectEntries log lastIndex i budget) := by
  intro budget
  induction budget with
  | zero => intro i k hk; simp [RaftNode.collectEntries] at hk
  | succ budget ih =>
    intro i
    rw [RaftNode.collectEntries]
    split
    · rw [hs.getEntry_eq]
      split
      · rename_i e he
        intro k hk
        cases k with
        | zero => simpa using he
        | succ k =>
          have := ih (i + 1) k (by simpa using hk)
          rw [Nat.add_assoc, Nat.add_comm 1 k] at this
          simpa using this
      · intro k hk
        simp at hk
    · intro k hk
      simp at hk

theorem firstInTerm_le (log : RaftLog) (term : Nat) :
    ∀ ci, RaftNode.firstInTerm log term ci ≤ ci := by
  intro ci
  induction ci with
  | zero => exact Nat.le_refl 0
  | succ ci ih =>
    rw [RaftNode.firstInTerm]
    split
    · omega
    · exact Nat.le_refl _

/-- The search for a positive term stops above the sentinel. -/
theorem firstInTerm_pos {log : RaftLog} (hs : Shaped log) {term : Nat} (ht : 0 < term) :
    ∀ ci, 0 < ci → 0 < RaftNode.firstInTerm log term ci := by
  intro ci
  induction ci with
  | zero => intro h; exact absurd h (by omega)
  | succ ci ih =>
    intro _
    rw [RaftNode.firstInTerm]
    split
    · rename_i hc
      apply ih
      by_contra h0
      have hzero : ci = 0 := by omega
      rw [hzero, hs.getTerm_zero] at hc
      omega
    · omega

theorem lastInTerm_le (log : RaftLog) (term : Nat) :
    ∀ i, RaftNode.lastInTerm log term i ≤ i := by
  intro i
  induction i with
  | zero => exact Nat.le_refl 0
  | succ i ih =>
    rw [RaftNode.lastInTerm]
    split
    · split
      · exact Nat.le_refl _
      · omega
    · omega

/-- What `AdvanceCommitIndex` finds: an index above the commit index, of the current term,
    on a quorum as far as the leader knows. -/
theorem findCommit_spec {cfg : RaftConfig} {n : RaftNode} {m : Nat} :
    ∀ {k : Nat}, RaftNode.findCommit cfg n k = some m → m ≤ k ∧ n.commitIndex < m ∧
      n.log.getTerm m = n.currentTerm ∧ RaftNode.quorumSize cfg ≤ n.replicated m := by
  intro k
  induction k with
  | zero => intro h; exact absurd h (by simp [RaftNode.findCommit])
  | succ k ih =>
    intro h
    rw [RaftNode.findCommit] at h
    split at h
    · rename_i hlt
      split at h
      · rename_i hc
        cases h
        exact ⟨Nat.le_refl _, hlt, hc.1, hc.2⟩
      · obtain ⟨h₁, h₂⟩ := ih h
        exact ⟨by omega, h₂⟩
    · exact absurd h (by simp)

end Proof
end OrcDb
