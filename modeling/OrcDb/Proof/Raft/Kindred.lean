import OrcDb.Lib.Divergence
import OrcDb.Proof.Raft.Log

/-!
# Two logs of one history

What the logs of a leader and a follower have to do with each other, and what the code that
compares them finds. The follower's search (`firstInTerm`) ends at the first entry of a term,
the leader's (`lastInTerm`) at the last; `AppendAll` of a piece of the leader's log either
changes nothing or leaves a beginning of that log.
-/

set_option autoImplicit false

namespace OrcDb
namespace Proof

open Lib

/-- A log that was never compacted, with positive terms that never fall. -/
structure Intact (log : RaftLog) : Prop extends Shaped log where
  pos : ∀ (k : Nat) (e : LogEntry), log.entries[k]? = some e → 0 < k → 0 < e.term
  rising : Rising LogEntry.term log.entries

theorem Shaped.eq_cons {log : RaftLog} (hs : Shaped log) :
    ∃ es, log.entries = RaftLog.sentinel 0 0 :: es := by
  have hhead := hs.head
  cases hlog : log.entries with
  | nil =>
    rw [hlog] at hhead
    exact absurd hhead (by simp)
  | cons e es =>
    rw [hlog] at hhead
    cases hhead
    exact ⟨es, rfl⟩

/-- A beginning of a log has the shape, too. -/
theorem Shaped.take {log : RaftLog} (h : Shaped log) {n : Nat} (hn : 0 < n) :
    Shaped { log with entries := log.entries.take n } where
  snapshotIndex := h.snapshotIndex
  snapshotTerm := h.snapshotTerm
  head := by
    rw [List.getElem?_take_of_lt hn]
    exact h.head
  index := by
    intro k e he
    rw [List.getElem?_take] at he
    split at he
    · exact h.index k e he
    · exact absurd he (by simp)

theorem Intact.take {log : RaftLog} (h : Intact log) {n : Nat} (hn : 0 < n) :
    Intact { log with entries := log.entries.take n } where
  toShaped := h.toShaped.take hn
  pos := by
    intro k e he
    rw [List.getElem?_take] at he
    split at he
    · exact h.pos k e he
    · exact absurd he (by simp)
  rising := h.rising.take n

/-- Two logs of one history: the same term at an index makes them the same up to there, and
    the entries of a term start at one index in both. -/
structure Kindred (F L : RaftLog) : Prop where
  follower : Intact F
  leader : Intact L
  matching : Matching LogEntry.term F.entries L.entries
  starts : SameStarts LogEntry.term F.entries L.entries

theorem Kindred.take {L : RaftLog} (h : Intact L) {n : Nat} (hn : 0 < n) :
    Kindred { L with entries := L.entries.take n } L :=
  ⟨h.take hn, h, Matching.take _ _ _, SameStarts.take _ _ _⟩

/-! ## The searches find the ends of a term -/

section Searches

variable {log : RaftLog} {t : Nat}

theorem mem_positions_iff_getTerm (hs : Shaped log) (ht : 0 < t) {i : Nat} :
    i ∈ positions LogEntry.term log.entries t ↔ log.getTerm i = t := by
  rw [mem_positions]
  cases he : log.entries[i]? with
  | some e =>
    rw [hs.getTerm_eq he]
    simp
  | none =>
    have hi : i ≠ 0 := by
      rintro rfl
      rw [hs.head] at he
      exact absurd he (by simp)
    have hzero : log.getTerm i = 0 := by
      rw [RaftLog.getTerm, if_neg (by rw [hs.snapshotIndex]; exact hi), hs.offset_eq, he]
    rw [hzero]
    constructor
    · rintro ⟨x, hx, -⟩
      exact absurd hx (by simp)
    · intro h
      exact absurd h (by omega)

theorem zero_notMem_positions (hs : Shaped log) (ht : 0 < t) :
    0 ∉ positions LogEntry.term log.entries t := by
  rw [mem_positions_iff_getTerm hs ht, hs.getTerm_zero]
  omega

/-- The follower's search ends at the first entry of the term. -/
theorem firstInTerm_isLeast (hi : Intact log) (ht : 0 < t) :
    ∀ p, p ∈ positions LogEntry.term log.entries t →
      IsLeast (positions LogEntry.term log.entries t) (RaftNode.firstInTerm log t p) := by
  have hs := hi.toShaped
  intro p
  induction p with
  | zero => exact fun hp => absurd hp (zero_notMem_positions hs ht)
  | succ p ih =>
    intro hp
    rw [RaftNode.firstInTerm]
    split
    · rename_i hc
      exact ih ((mem_positions_iff_getTerm hs ht).mpr hc.2)
    · rename_i hc
      refine ⟨hp, fun j hj => ?_⟩
      -- an earlier entry of the term would put the one at `p` into the term, too
      by_contra hlt
      have hmid := hi.rising.between hj hp (Nat.le_of_lt_succ (Nat.lt_of_not_le hlt))
        (Nat.le_succ p)
      exact hc ⟨by rw [hs.snapshotIndex]; omega, (mem_positions_iff_getTerm hs ht).mp hmid⟩

theorem lastInTerm_spec (hs : Shaped log) (ht : 0 < t) : ∀ i,
    (0 < RaftNode.lastInTerm log t i →
      RaftNode.lastInTerm log t i ∈ positions LogEntry.term log.entries t) ∧
    ∀ j ≤ i, j ∈ positions LogEntry.term log.entries t → j ≤ RaftNode.lastInTerm log t i := by
  intro i
  induction i with
  | zero => exact ⟨fun h => absurd h (by simp [RaftNode.lastInTerm]), fun j hj _ => hj⟩
  | succ i ih =>
    rw [RaftNode.lastInTerm, if_pos (by rw [hs.snapshotIndex]; omega)]
    split
    · rename_i hterm
      exact ⟨fun _ => (mem_positions_iff_getTerm hs ht).mpr hterm, fun j hj _ => hj⟩
    · rename_i hterm
      refine ⟨ih.1, fun j hj hmem => ih.2 j ?_ hmem⟩
      have hne : j ≠ i + 1 := by
        rintro rfl
        exact hterm ((mem_positions_iff_getTerm hs ht).mp hmem)
      omega

/-- The leader's search ends at the last entry of the term, or at 0 when it has none. -/
theorem lastInTerm_cases (hs : Shaped log) (ht : 0 < t) :
    (0 < RaftNode.lastInTerm log t log.lastIndex ∧
      IsGreatest (positions LogEntry.term log.entries t)
        (RaftNode.lastInTerm log t log.lastIndex)) ∨
    (RaftNode.lastInTerm log t log.lastIndex = 0 ∧
      positions LogEntry.term log.entries t = ∅) := by
  obtain ⟨hmem, hmax⟩ := lastInTerm_spec hs ht log.lastIndex
  have hbound : ∀ j ∈ positions LogEntry.term log.entries t,
      j ≤ RaftNode.lastInTerm log t log.lastIndex :=
    fun j hj => hmax j (hs.le_lastIndex_iff.mpr (lt_length_of_mem_positions hj)) hj
  rcases Nat.eq_zero_or_pos (RaftNode.lastInTerm log t log.lastIndex) with h0 | hpos
  · refine Or.inr ⟨h0, Set.eq_empty_iff_forall_notMem.mpr fun j hj => ?_⟩
    have hj0 := hbound j hj
    rw [h0, Nat.le_zero] at hj0
    rw [hj0] at hj
    exact zero_notMem_positions hs ht hj
  · exact Or.inl ⟨hpos, hmem hpos, hbound⟩

end Searches

/-! ## The batch -/

theorem log_ext {a b : RaftLog} (he : a.entries = b.entries)
    (hi : a.snapshotIndex = b.snapshotIndex) (ht : a.snapshotTerm = b.snapshotTerm) : a = b := by
  cases a
  cases b
  cases he
  cases hi
  cases ht
  rfl

/-- Merging a piece of a matching log that continues a common beginning leaves the log as it
    is or turns it into a beginning of the other one. -/
theorem appendAll_cases (J : Json.Codec) {F L : RaftLog} {p : Nat} {es : List LogEntry}
    (hF : Shaped F) (hL : Shaped L) (hmatch : Matching LogEntry.term F.entries L.entries)
    (hpiece : PieceOf L.entries (p + 1) es) (hagree : AgreeUpTo F.entries L.entries p)
    (hp : p < F.entries.length) :
    AgreeUpTo (F.appendAll J es).1.entries L.entries (p + es.length) ∧
      ((F.appendAll J es).1 = F ∨
        (F.appendAll J es).1 = { L with entries := L.entries.take (p + 1 + es.length) }) := by
  have hidx : ∀ (k : Nat) (e : LogEntry), es[k]? = some e → e.index = p + 1 + k := by
    intro k e he
    have hlt := (List.getElem?_eq_some_iff.mp he).1
    exact hL.index _ _ ((hpiece k hlt).trans he)
  obtain ⟨hentries, hsi, hst⟩ := Shaped.appendAll_entries J hF.snapshotIndex hidx
  refine ⟨by rw [hentries]; exact merge_agreeUpTo hmatch hpiece hagree hp, ?_⟩
  by_cases hall : AgreeUpTo F.entries L.entries (p + es.length)
  · refine Or.inl (log_ext ?_ (hsi.trans hF.snapshotIndex.symm) hst)
    exact hentries.trans (merge_agree hpiece fun k hk => hall _ (by omega))
  · refine Or.inr (log_ext ?_ (hsi.trans hL.snapshotIndex.symm) ?_)
    · exact hentries.trans (merge_differ hmatch hpiece hagree hp hall)
    · exact hst.trans (hF.snapshotTerm.trans hL.snapshotTerm.symm)

theorem collectEntries_pos {log : RaftLog} (hs : Shaped log) {i : Nat} (hi : i ≤ log.lastIndex)
    (budget : Nat) :
    0 < (RaftNode.collectEntries log log.lastIndex i (budget + 1)).length := by
  have hget := List.getElem?_eq_getElem (hs.le_lastIndex_iff.mp hi)
  rw [RaftNode.collectEntries, if_pos hi, hs.getEntry_eq, hget]
  exact Nat.succ_pos _

end Proof
end OrcDb
