import OrcDb.Proof.Raft.Handler
import OrcDb.Proof.Raft.Kindred
import OrcDb.Lib.JsonText

/-!
# Batches of a leader's log

What `AppendAll` does to a follower that was never compacted. The leader's log and the
follower's match (the same term at an index makes them the same up to there), a batch is a
piece of the leader's log, and the consistency check has found the follower to agree with the
leader in front of it. Then nothing the two had in common is lost, and what is delivered stays
(`appendAll_keeps`), in whatever order and however often the batches come.

The entries behind the batch are another matter: without a conflict they stay, and nobody has
compared them with the leader's. `HandleAppendEntries` takes `min(leaderCommit, LastIndex())`
as its commit index, which may lie among them (`commit_verified_iff`).
-/

set_option autoImplicit false

namespace OrcDb
namespace Proof

open Lib

/-! ## The commit index -/

/-- The last index the request vouches for. -/
def reach (req : AppendEntriesRequest) : Nat := req.prevLogIndex + req.entries.length

theorem Consistent.prev_le {log : RaftLog} {req : AppendEntriesRequest} (h : Consistent log req) :
    req.prevLogIndex ≤ log.lastIndex := by
  rcases h with h0 | ⟨hle, -⟩
  · rw [h0]
    exact Nat.zero_le _
  · exact hle

/-- **What a follower commits.** The new commit index stays within what was committed before
    and what the request vouches for exactly if `leaderCommit` does, or the follower's log
    does, or the entries conflict with it, so that what lies behind them is cut off. -/
theorem commit_verified_iff (J : Json.Codec) {n : RaftNode} {req : AppendEntriesRequest}
    (hs : Shaped n.log) (hentries : Contiguous (req.prevLogIndex + 1) req.entries)
    (hsuccess : (n.handleAppendEntries J req).2.success = true) :
    (n.handleAppendEntries J req).1.commitIndex ≤
        max n.commitIndex (min req.leaderCommit (reach req)) ↔
      req.leaderCommit ≤ max n.commitIndex (reach req) ∨
        n.log.lastIndex ≤ max n.commitIndex (reach req) ∨ Conflicts n.log req.entries := by
  obtain ⟨-, hcons, heq⟩ := handleAppendEntries_of_success hsuccess
  have hprev := hcons.prev_le
  rw [heq, acceptEntries_eq, heard_log, heard_commitIndex]
  dsimp only
  split
  · by_cases hconf : Conflicts n.log req.entries
    · rw [hs.lastIndex_of_conflicts J hentries.index hprev hconf]
      exact iff_of_true (Nat.le_max_right _ _) (Or.inr (Or.inr hconf))
    · rw [hs.lastIndex_of_not_conflicts J hentries.index hprev hconf, or_iff_left hconf]
      unfold reach
      omega
  · rename_i hbehind
    refine iff_of_true (Nat.le_max_left _ _) (Or.inl ?_)
    exact Nat.le_trans (Nat.le_of_not_lt hbehind) (Nat.le_max_left _ _)

/-- A leader of term 3 has committed its 102 entries and sends the first hundred. -/
def hundred : AppendEntriesRequest :=
  (RaftNode.startReplicate { nodeId := "A", peers := ["B", "C"] } 0
    { currentTerm := 3, role := .Leader, commitIndex := 102,
      nextIndex := AList.insert "B" 1 ∅,
      log := logOfTerms (List.replicate 101 1 ++ [3]) } "B").2

/-- The follower holds the first 101 of them, and behind these one of term 2. -/
def leftover : RaftNode :=
  { currentTerm := 3, log := logOfTerms (List.replicate 101 1 ++ [2]) }

theorem commit_verified_iff_short :
    let n : RaftNode := { currentTerm := 3, log := logOfTerms [1, 1] }
    (n.handleAppendEntries Json.text hundred).2.success = true ∧
      (n.handleAppendEntries Json.text hundred).1.commitIndex ≤
        max n.commitIndex (min hundred.leaderCommit (reach hundred)) :=
  ⟨by decide +kernel,
    (commit_verified_iff Json.text (shaped_logOfTerms [1, 1]) (by decide +kernel)
      (by decide +kernel)).mpr (Or.inr (Or.inl (by decide +kernel)))⟩

/-- Entry 102 is of a leader that is gone, and is committed. -/
theorem commit_verified_fails :
    Shaped leftover.log ∧ Contiguous (hundred.prevLogIndex + 1) hundred.entries ∧
      (leftover.handleAppendEntries Json.text hundred).2.success = true ∧
      ¬(leftover.handleAppendEntries Json.text hundred).1.commitIndex ≤
        max leftover.commitIndex (min hundred.leaderCommit (reach hundred)) :=
  ⟨shaped_logOfTerms _, by decide +kernel, by decide +kernel, by decide +kernel⟩

/-! ## One batch -/

/-- The entries `p + 1` to `p + k` of a log. -/
def batch (L : RaftLog) (p k : Nat) : List LogEntry := (L.entries.drop (p + 1)).take k

/-- The two logs hold the same entries from index 1 to `n`. -/
def Agree (F L : RaftLog) (n : Nat) : Prop := ∀ i, 1 ≤ i → i ≤ n → F.getEntry i = L.getEntry i

/-- How many entries the two logs have in common at their beginning. -/
def inCommon (F L : RaftLog) : Nat := commonLength F.entries.tail L.entries.tail

/-- A follower's log that was never compacted and matches the leader's. -/
structure Matches (L F : RaftLog) : Prop extends Shaped F where
  matching : Matching LogEntry.term F.entries L.entries

theorem batch_piece (L : RaftLog) (p k : Nat) : PieceOf L.entries (p + 1) (batch L p k) := by
  intro i hi
  have hik : i < k := Nat.lt_of_lt_of_le hi (by rw [batch, List.length_take]; omega)
  rw [batch, List.getElem?_take_of_lt hik, List.getElem?_drop]

theorem agree_iff {F L : RaftLog} (hF : Shaped F) (hL : Shaped L) {n : Nat} :
    Agree F L n ↔ AgreeUpTo F.entries L.entries n := by
  constructor
  · intro h i hi
    rcases Nat.eq_zero_or_pos i with rfl | hpos
    · rw [hF.head, hL.head]
    · rw [← hF.getEntry_eq, ← hL.getEntry_eq]
      exact h i hpos hi
  · intro h i _ hi
    rw [hF.getEntry_eq, hL.getEntry_eq]
    exact h i hi

section Delivery

variable (J : Json.Codec) {L F : RaftLog} {p k : Nat} (hL : Shaped L) (hF : Matches L F)
include hL hF

omit hF in
theorem length_batch (hk : p + k ≤ L.lastIndex) : (batch L p k).length = k := by
  have := hL.lastIndex_lt
  rw [batch, List.length_take, List.length_drop]
  omega

omit hF in
theorem batch_index :
    ∀ (i : Nat) (e : LogEntry), (batch L p k)[i]? = some e → e.index = p + 1 + i := by
  intro i e he
  have hi := (List.getElem?_eq_some_iff.mp he).1
  exact hL.index _ _ ((batch_piece L p k i hi).trans he)

theorem agree_inCommon : Agree F L (inCommon F L) := by
  obtain ⟨xs, hxs⟩ := hF.eq_cons
  obtain ⟨ys, hys⟩ := hL.eq_cons
  rw [agree_iff hF.toShaped hL, inCommon, hxs, hys]
  apply AgreeUpTo.of_lt_commonLength
  rw [commonLength_cons]
  exact Nat.lt_succ_self _

/-- The consistency check for a batch of the leader's log finds out whether the follower agrees
    with the leader in front of it. -/
theorem consistent_iff (hp : p ≤ L.lastIndex) {req : AppendEntriesRequest}
    (hprev : req.prevLogIndex = p) (hterm : req.prevLogTerm = L.getTerm p) :
    Consistent F req ↔ Agree F L p := by
  have hget := List.getElem?_eq_getElem (hL.le_lastIndex_iff.mp hp)
  rw [agree_iff hF.toShaped hL]
  unfold Consistent
  rw [hprev, hterm, hL.getTerm_eq hget]
  constructor
  · rintro (rfl | ⟨hle, heq⟩)
    · intro i hi
      rw [Nat.le_zero.mp hi, hF.head, hL.head]
    · have hget' := List.getElem?_eq_getElem (hF.le_lastIndex_iff.mp hle)
      rw [hF.getTerm_eq hget'] at heq
      exact hF.matching _ _ _ hget' hget heq
  · intro hagree
    have hget' := (hagree p (Nat.le_refl p)).trans hget
    refine Or.inr ⟨hF.le_lastIndex_iff.mpr (List.getElem?_eq_some_iff.mp hget').1, ?_⟩
    rw [hF.getTerm_eq hget']

variable (hk : p + k ≤ L.lastIndex) (hp : Agree F L p)
include hk hp

theorem prev_le_lastIndex : p ≤ F.lastIndex := by
  rw [agree_iff hF.toShaped hL] at hp
  have hlt : p < L.entries.length := hL.le_lastIndex_iff.mp (Nat.le_trans (Nat.le_add_right p k) hk)
  exact hF.le_lastIndex_iff.mpr (hp.symm.length_lt hlt)

/-- A batch leaves the log as it is or turns it into a beginning of the leader's. -/
theorem appendAll_batch :
    Agree (F.appendAll J (batch L p k)).1 L (p + k) ∧
      ((F.appendAll J (batch L p k)).1 = F ∨
        (F.appendAll J (batch L p k)).1 = { L with entries := L.entries.take (p + 1 + k) }) := by
  have hlen := length_batch hL hk
  have hprev := prev_le_lastIndex hL hF hk hp
  have hshape := hF.toShaped.appendAll J (batch_index hL (k := k)) hprev
  obtain ⟨hagree, hcases⟩ := appendAll_cases J hF.toShaped hL hF.matching (batch_piece L p k)
    ((agree_iff hF.toShaped hL).mp hp) (hF.le_lastIndex_iff.mp hprev)
  rw [hlen] at hagree hcases
  exact ⟨(agree_iff hshape hL).mpr hagree, hcases⟩

theorem Matches.appendAll : Matches L (F.appendAll J (batch L p k)).1 := by
  obtain ⟨-, heq | heq⟩ := appendAll_batch J hL hF hk hp
  · rw [heq]
    exact hF
  · rw [heq]
    exact ⟨hL.take (by omega), Matching.take _ _ _⟩

/-- Nothing the logs had in common is lost. -/
theorem agree_appendAll {n : Nat} (h : Agree F L n) :
    Agree (F.appendAll J (batch L p k)).1 L n := by
  have hshape := (Matches.appendAll J hL hF hk hp).toShaped
  have hprev := prev_le_lastIndex hL hF hk hp
  rw [agree_iff hF.toShaped hL] at hp h
  rw [agree_iff hshape hL, (Shaped.appendAll_entries J hF.snapshotIndex (batch_index hL)).1]
  exact merge_keeps hF.matching (batch_piece L p k) hp (hF.le_lastIndex_iff.mp hprev) h

omit hp in
/-- A batch that is there already changes nothing. -/
theorem appendAll_held (h : ∀ i, p < i → i ≤ p + k → F.getEntry i = L.getEntry i) :
    (F.appendAll J (batch L p k)).1 = F := by
  have hlen := length_batch hL hk
  obtain ⟨hentries, hsi, hst⟩ := Shaped.appendAll_entries J hF.snapshotIndex
    (batch_index hL (p := p) (k := k))
  refine log_ext (hentries.trans (merge_agree (batch_piece L p k) fun i hi => ?_))
    (hsi.trans hF.snapshotIndex.symm) hst
  rw [← hF.getEntry_eq, ← hL.getEntry_eq]
  exact h _ (by omega) (by omega)

/-- Behind a batch that conflicts with the log nothing is left. -/
theorem appendAll_cut (hconf : Conflicts F (batch L p k)) {i : Nat} (hi : p + k < i) :
    (F.appendAll J (batch L p k)).1.getEntry i = none := by
  have hprev := prev_le_lastIndex hL hF hk hp
  have hshape := hF.toShaped.appendAll J (batch_index hL (k := k)) hprev
  have hlast := hF.toShaped.lastIndex_of_conflicts J (batch_index hL) hprev hconf
  rw [length_batch hL hk] at hlast
  rw [hshape.getEntry_eq, List.getElem?_eq_none_iff, ← Nat.not_lt, ← hshape.le_lastIndex_iff, hlast]
  exact Nat.not_le.mpr hi

/-- A batch that comes twice does what it did the first time. -/
theorem appendAll_twice :
    ((F.appendAll J (batch L p k)).1.appendAll J (batch L p k)).1 =
      (F.appendAll J (batch L p k)).1 := by
  have hagree := (appendAll_batch J hL hF hk hp).1
  exact appendAll_held J hL (Matches.appendAll J hL hF hk hp) hk
    fun i hi hik => hagree i (by omega) hik

end Delivery

/-! ## Many batches -/

/-- Deliver the batch `d.1 + 1` to `d.1 + d.2`; `none` when the consistency check fails. -/
def deliverOne (J : Json.Codec) (L F : RaftLog) (d : Nat × Nat) : Option RaftLog :=
  if Consistent F { prevLogIndex := d.1, prevLogTerm := L.getTerm d.1 } then
    some (F.appendAll J (batch L d.1 d.2)).1
  else none

def deliverAll (J : Json.Codec) (L F : RaftLog) (ds : List (Nat × Nat)) : Option RaftLog :=
  ds.foldlM (deliverOne J L) F

section Deliveries

variable {J : Json.Codec} {L F F' : RaftLog} (hL : Shaped L) (hF : Matches L F)
include hL hF

theorem deliverOne_spec {d : Nat × Nat} (hd : d.1 + d.2 ≤ L.lastIndex)
    (h : deliverOne J L F d = some F') :
    Matches L F' ∧ Agree F' L (d.1 + d.2) ∧ (∀ n, Agree F L n → Agree F' L n) ∧
      deliverOne J L F' d = some F' := by
  have hprev : d.1 ≤ L.lastIndex := Nat.le_trans (Nat.le_add_right _ _) hd
  unfold deliverOne at h
  split at h
  · rename_i hcheck
    have hp := (consistent_iff hL hF hprev rfl rfl).mp hcheck
    cases h
    have hF' := Matches.appendAll J hL hF hd hp
    have hp' := agree_appendAll J hL hF hd hp hp
    refine ⟨hF', (appendAll_batch J hL hF hd hp).1,
      fun n hn => agree_appendAll J hL hF hd hp hn, ?_⟩
    rw [deliverOne, if_pos ((consistent_iff hL hF' hprev rfl rfl).mpr hp'),
      appendAll_twice J hL hF hd hp]
  · exact absurd h (by simp)

theorem deliverAll_spec {ds : List (Nat × Nat)} (hds : ∀ d ∈ ds, d.1 + d.2 ≤ L.lastIndex)
    (h : deliverAll J L F ds = some F') :
    (∀ d ∈ ds, Agree F' L (d.1 + d.2)) ∧ ∀ n, Agree F L n → Agree F' L n := by
  induction ds generalizing F with
  | nil =>
    cases h
    exact ⟨fun d hd => absurd hd (by simp), fun n hn => hn⟩
  | cons d ds ih =>
    rw [deliverAll, List.foldlM_cons, Option.bind_eq_bind, Option.bind_eq_some_iff] at h
    obtain ⟨F₁, hfirst, hrest⟩ := h
    obtain ⟨hF₁, hagree, hkeep, -⟩ := deliverOne_spec hL hF (hds d List.mem_cons_self) hfirst
    obtain ⟨hdelivered, hkeep'⟩ := ih hF₁ (fun d' hd' => hds d' (List.mem_cons_of_mem d hd')) hrest
    refine ⟨fun d' hd' => ?_, fun n hn => hkeep' n (hkeep n hn)⟩
    rcases List.mem_cons.mp hd' with rfl | hd'
    · exact hkeep' _ hagree
    · exact hdelivered d' hd'

end Deliveries

/-- **`AppendAll` never undoes agreement.** -/
theorem appendAll_keeps (J : Json.Codec) {L F : RaftLog} (hL : Shaped L) (hF : Matches L F) :
    (∀ p k, p + k ≤ L.lastIndex → Agree F L p →
      Agree (F.appendAll J (batch L p k)).1 L (max (p + k) (inCommon F L)) ∧
      ((∀ i, p < i → i ≤ p + k → F.getEntry i = L.getEntry i) →
        (F.appendAll J (batch L p k)).1 = F) ∧
      (∀ i, p + k < i → (F.appendAll J (batch L p k)).1.getEntry i ≠ none →
        ¬Conflicts F (batch L p k))) ∧
    (∀ ds F', (∀ d ∈ ds, d.1 + d.2 ≤ L.lastIndex) → deliverAll J L F ds = some F' →
      ∀ d ∈ ds, Agree F' L (d.1 + d.2)) ∧
    ∀ d F', d.1 + d.2 ≤ L.lastIndex → deliverOne J L F d = some F' →
      deliverOne J L F' d = some F' := by
  refine ⟨fun p k hk hp => ⟨?_, appendAll_held J hL hF hk, fun i hi hsome hconf => ?_⟩, ?_, ?_⟩
  · intro i hpos hi
    rcases le_max_iff.mp hi with hi | hi
    · exact (appendAll_batch J hL hF hk hp).1 i hpos hi
    · exact agree_appendAll J hL hF hk hp (agree_inCommon hL hF) i hpos hi
  · exact hsome (appendAll_cut J hL hF hk hp hconf hi)
  · exact fun ds F' hds h => (deliverAll_spec hL hF hds h).1
  · exact fun d F' hd h => (deliverOne_spec hL hF hd h).2.2.2

/-- A follower with an entry of a leader that is gone gets the last two entries first in one
    batch and then, late, the third alone. -/
theorem appendAll_keeps_late :
    Matches (logOfTerms [1, 1, 2, 2]) (logOfTerms [1, 1, 1]) ∧
      ∃ F', deliverAll Json.text (logOfTerms [1, 1, 2, 2]) (logOfTerms [1, 1, 1])
          [(2, 2), (2, 1)] = some F' ∧ Agree F' (logOfTerms [1, 1, 2, 2]) 4 := by
  have hF : Matches (logOfTerms [1, 1, 2, 2]) (logOfTerms [1, 1, 1]) :=
    ⟨shaped_logOfTerms _, .of_forall (by decide)⟩
  obtain ⟨F', hdeliver⟩ : ∃ F', deliverAll Json.text (logOfTerms [1, 1, 2, 2])
      (logOfTerms [1, 1, 1]) [(2, 2), (2, 1)] = some F' :=
    Option.isSome_iff_exists.mp (by decide +kernel)
  have hkeeps := (appendAll_keeps Json.text (shaped_logOfTerms [1, 1, 2, 2]) hF).2.1
  exact ⟨hF, F', hdeliver, hkeeps _ F' (by decide) hdeliver (2, 2) (by simp)⟩

end Proof
end OrcDb
