import OrcDb.Proof.Raft.Kindred
import OrcDb.Proof.Raft.Refine

/-!
# Log repair

A leader and one peer, left alone: `ReplicateToPeer` builds a request from `nextIndex_`,
`HandleAppendEntries` answers, the leader takes the answer, and so on. `Repairable` is what
is asked of the two nodes at the start; it holds again after every exchange.

A rejection carries the term the follower has at `prevLogIndex` and where that term starts in
its log. Both searches find the end of that term's entries they look for, and by the library's
account of diverging logs the leader then neither stays where it is nor goes past the place
where the logs part. An acceptance moves `matchIndex_` to the end of the batch. `distance`
puts the two together: it falls with every exchange until it is 0, and then the whole log of
the leader is on the follower.
-/

set_option autoImplicit false

namespace OrcDb
namespace Proof

open Lib

/-! ## The exchange -/

structure Pair where
  leader : RaftNode
  follower : RaftNode

namespace Pair

section Exchange

variable (J : Json.Codec) (cfg : RaftConfig) (id : Nat) (peer : String)

/-- `nextIndex_` of the peer, as `ReplicateToPeer` reads it. -/
def nextIndex (s : Pair) : Nat :=
  (s.leader.nextIndex.lookup peer).getD (s.leader.log.lastIndex + 1)

def matchIndex (s : Pair) : Nat := s.leader.matchIndex.at peer

def request (s : Pair) : AppendEntriesRequest := (s.leader.startReplicate cfg id peer).2

def answer (s : Pair) : AppendEntriesResponse :=
  (s.follower.handleAppendEntries J (s.request cfg id peer)).2

/-- One round: the request, the follower's handling of it, and the leader's of the answer. -/
def exchange (s : Pair) : Pair :=
  let (leader, req) := s.leader.startReplicate cfg id peer
  let (follower, resp) := s.follower.handleAppendEntries J req
  { leader := match leader.replication with
      | some call => leader.finishReplicate cfg call resp
      | none => leader
    follower }

/-- How many entries the two logs have in common; the sentinel is not one of them. -/
def commonLength (s : Pair) : Nat :=
  Lib.commonLength s.leader.log.entries.tail s.follower.log.entries.tail

theorem exchange_eq (s : Pair) : s.exchange J cfg id peer =
    { leader := (s.leader.startReplicate cfg id peer).1.finishReplicate cfg
        { id, peerId := peer, term := s.leader.currentTerm,
          prevIndex := (s.request cfg id peer).prevLogIndex,
          count := (s.request cfg id peer).entries.length }
        (s.answer J cfg id peer)
      follower := (s.follower.handleAppendEntries J (s.request cfg id peer)).1 } := rfl

end Exchange
end Pair

structure Repairable (peer : String) (s : Pair) : Prop where
  logs : Kindred s.follower.log s.leader.log
  role : s.leader.role = .Leader
  term : s.follower.currentTerm = s.leader.currentTerm
  next_pos : 1 ≤ s.nextIndex peer
  next_le : s.nextIndex peer ≤ s.leader.log.lastIndex + 1
  match_lt : s.matchIndex peer < s.nextIndex peer
  agree : AgreeUpTo s.follower.log.entries s.leader.log.entries (s.matchIndex peer)

/-- What a rejection does: the leader goes back, to a place behind the common beginning. -/
structure WentBack (peer : String) (s s' : Pair) : Prop where
  leader : s'.leader.log = s.leader.log
  follower : s'.follower.log = s.follower.log
  match_eq : s'.matchIndex peer = s.matchIndex peer
  next_lt : s'.nextIndex peer < s.nextIndex peer
  beyond : ∀ q, AgreeUpTo s.follower.log.entries s.leader.log.entries q → q < s'.nextIndex peer

/-- What an acceptance of `count` entries does: the leader goes on behind them. -/
structure WentOn (peer : String) (count : Nat) (s s' : Pair) : Prop where
  leader : s'.leader.log = s.leader.log
  match_eq : s'.matchIndex peer = s.nextIndex peer - 1 + count
  next_eq : s'.nextIndex peer = s'.matchIndex peer + 1

/-! ## What one exchange does -/

section

variable {n : RaftNode} {req : AppendEntriesRequest}

/-- A request of the node's own term that fails the consistency check. -/
theorem handleAppendEntries_rejected {rej : AppendEntriesResponse} (J : Json.Codec)
    (ht : req.term = n.currentTerm) (h : n.rejection req { term := n.currentTerm } = some rej) :
    n.handleAppendEntries J req = ({ n with leaderId := req.leaderId }, rej) := by
  have h' := handled J n req
  generalize n.handleAppendEntries J req = out at h' ⊢
  cases h' with
  | stale hlt => exact absurd ht (Nat.ne_of_lt hlt)
  | rejected _ hcheck =>
    obtain rfl := Option.some.inj (h.symm.trans hcheck)
    rw [heard_of_eq ht.symm]
  | accepted _ hcheck => exact absurd (h.symm.trans hcheck) (by simp)

/-- And one that passes it. -/
theorem handleAppendEntries_accepted (J : Json.Codec) (ht : req.term = n.currentTerm)
    (h : n.rejection req { term := n.currentTerm } = none) :
    n.handleAppendEntries J req =
      (({ n with leaderId := req.leaderId } : RaftNode).acceptEntries J req,
        { term := n.currentTerm, success := true }) := by
  have h' := handled J n req
  generalize n.handleAppendEntries J req = out at h' ⊢
  cases h' with
  | stale hlt => exact absurd ht (Nat.ne_of_lt hlt)
  | rejected _ hcheck => exact absurd (h.symm.trans hcheck) (by simp)
  | accepted _ _ => rw [heard_of_eq ht.symm]

end

namespace Kindred

variable {f n : RaftNode} (h : Kindred f.log n.log) {req : AppendEntriesRequest}
  {resp rej : AppendEntriesResponse}
include h

/-- The follower's log ends in front of `prevLogIndex`. -/
theorem backUp_short (hprev : req.prevLogIndex < n.log.entries.length)
    (hshort : f.log.lastIndex < req.prevLogIndex) (ht : rej.conflictTerm = 0)
    (hi : rej.conflictIndex = f.log.lastIndex + 1) :
    n.backUp rej ≤ req.prevLogIndex ∧
      ∀ q, AgreeUpTo f.log.entries n.log.entries q → q < n.backUp rej := by
  have hback : n.backUp rej = f.log.lastIndex + 1 := by
    simp [RaftNode.backUp, ht, hi]
  rw [hback]
  refine ⟨hshort, fun q hq => ?_⟩
  by_contra hge
  have hend := hq (f.log.lastIndex + 1) (Nat.le_of_not_lt hge)
  have hnone : f.log.entries[f.log.lastIndex + 1]? = none := by
    rw [List.getElem?_eq_none_iff, h.follower.lastIndex_eq]
    omega
  rw [hnone, List.getElem?_eq_getElem (by omega)] at hend
  exact absurd hend (by simp)

/-- The follower has another term at `prevLogIndex`. -/
theorem backUp_conflict {p t : Nat} (ht : 0 < t) (hterm : f.log.getTerm p = t)
    (hne : n.log.getTerm p ≠ t) (hct : rej.conflictTerm = t)
    (hci : rej.conflictIndex = RaftNode.firstInTerm f.log t p) :
    n.backUp rej ≤ p ∧ ∀ q, AgreeUpTo f.log.entries n.log.entries q → q < n.backUp rej := by
  have hF := h.follower
  have hL := h.leader
  have hp := (mem_positions_iff_getTerm hF.toShaped ht).mpr hterm
  have hp' := mt (mem_positions_iff_getTerm hL.toShaped ht).mp hne
  have hfirst := firstInTerm_isLeast hF ht _ hp
  unfold RaftNode.backUp
  rw [hct, hci, if_pos ht]
  dsimp only
  rcases lastInTerm_cases hL.toShaped ht with ⟨hl, hlast⟩ | ⟨hl, hempty⟩
  · rw [if_pos hl]
    refine ⟨h.starts.last_lt hL.rising hp hp' hlast.1, fun q hq => Nat.lt_succ_of_le ?_⟩
    exact hq.le_of_last_key h.starts hF.rising hL.rising hp hp' hlast
  · rw [hl, if_neg (Nat.lt_irrefl 0)]
    exact ⟨hfirst.2 hp, fun q hq => hq.lt_of_no_key hfirst.1 hempty⟩

/-- Where a rejected leader goes: in front of where it was, and behind everything the logs
    have in common. -/
theorem backUp_spec (hrej : f.rejection req resp = some rej)
    (hprev : req.prevLogIndex < n.log.entries.length)
    (hterm : n.log.getTerm req.prevLogIndex = req.prevLogTerm) :
    n.backUp rej ≤ req.prevLogIndex ∧
      ∀ q, AgreeUpTo f.log.entries n.log.entries q → q < n.backUp rej := by
  obtain ⟨hpos, ⟨hshort, rfl⟩ | ⟨hle, hne, rfl⟩⟩ := rejection_cases hrej
  · exact h.backUp_short hprev hshort rfl rfl
  · have hget := List.getElem?_eq_getElem (h.follower.le_lastIndex_iff.mp hle)
    refine h.backUp_conflict ?_ rfl (by rw [hterm]; exact hne.symm) rfl rfl
    rw [h.follower.getTerm_eq hget]
    exact h.follower.pos _ _ hget hpos

end Kindred

namespace Repairable

variable {J : Json.Codec} {cfg : RaftConfig} {id : Nat} {peer : String} {s : Pair}
  (h : Repairable peer s)
include h

theorem request_eq : s.request cfg id peer =
    { term := s.leader.currentTerm, leaderId := cfg.nodeId, prevLogIndex := s.nextIndex peer - 1,
      prevLogTerm := s.leader.log.getTerm (s.nextIndex peer - 1),
      entries := RaftNode.collectEntries s.leader.log s.leader.log.lastIndex (s.nextIndex peer) 100,
      leaderCommit := s.leader.commitIndex } := by
  have hne : ¬ s.nextIndex peer = 0 := Nat.ne_of_gt h.next_pos
  unfold Pair.nextIndex at *
  simp only [Pair.request, RaftNode.startReplicate, if_neg hne]

theorem prev_lt : s.nextIndex peer - 1 < s.leader.log.entries.length := by
  have hle := h.next_le
  have hpos := h.next_pos
  exact h.logs.leader.le_lastIndex_iff.mp (by omega)

/-- Where a rejected leader goes: in front of where it was, and behind everything the logs
    have in common. -/
theorem backUp_spec {resp rej : AppendEntriesResponse}
    (hrej : s.follower.rejection (s.request cfg id peer) resp = some rej) :
    s.leader.backUp rej < s.nextIndex peer ∧
      ∀ q, AgreeUpTo s.follower.log.entries s.leader.log.entries q → q < s.leader.backUp rej := by
  have hpos := h.next_pos
  rw [h.request_eq] at hrej
  obtain ⟨hle, hbeyond⟩ := h.logs.backUp_spec hrej h.prev_lt rfl
  have hle' : s.leader.backUp rej ≤ s.nextIndex peer - 1 := hle
  exact ⟨by omega, hbeyond⟩

/-- A request that passes the check continues what the logs have in common. -/
theorem agree_prev {resp : AppendEntriesResponse}
    (hok : s.follower.rejection (s.request cfg id peer) resp = none) :
    AgreeUpTo s.follower.log.entries s.leader.log.entries (s.nextIndex peer - 1) ∧
      s.nextIndex peer - 1 < s.follower.log.entries.length := by
  have hF := h.logs.follower
  have hL := h.logs.leader
  rw [h.request_eq] at hok
  rcases rejection_eq_none hF.toShaped hok with h0 | ⟨e, he, ht⟩
  · have h0' : s.nextIndex peer - 1 = 0 := h0
    rw [h0']
    refine ⟨fun k hk => ?_, hF.length_pos⟩
    rw [Nat.le_zero.mp hk, hF.head, hL.head]
  · have hget := List.getElem?_eq_getElem h.prev_lt
    refine ⟨h.logs.matching _ _ _ he hget ?_, (List.getElem?_eq_some_iff.mp he).1⟩
    rw [ht, hL.getTerm_eq hget]

theorem request_term : (s.request cfg id peer).term = s.follower.currentTerm := by
  rw [h.request_eq, h.term]

/-- A rejection. It comes from the leader's own term, so it is not dropped. -/
theorem rejected {rej : AppendEntriesResponse}
    (hrej : s.follower.rejection (s.request cfg id peer) { term := s.follower.currentTerm } =
      some rej) :
    (s.answer J cfg id peer).success = false ∧
      s.exchange J cfg id peer =
        { leader := { s.leader with
            replication := none
            nextIndex := s.leader.nextIndex.insert peer (s.leader.backUp rej) }
          follower := { s.follower with leaderId := (s.request cfg id peer).leaderId } } := by
  have hhandle := handleAppendEntries_rejected J h.request_term hrej
  have hanswer : s.answer J cfg id peer = rej := by rw [Pair.answer, hhandle]
  have hresp : rej.success = false ∧ rej.term = s.leader.currentTerm := by
    rw [← h.term]
    obtain ⟨-, ⟨-, rfl⟩ | ⟨-, -, rfl⟩⟩ := rejection_cases hrej
    · exact ⟨rfl, rfl⟩
    · exact ⟨rfl, rfl⟩
  rw [Pair.exchange_eq, hhandle, hanswer]
  refine ⟨hresp.1, ?_⟩
  rw [finishReplicate_of_failure]
  · rfl
  · exact h.role
  · exact hresp.2
  · exact hresp.1

/-- An acceptance. -/
theorem accepted
    (hok : s.follower.rejection (s.request cfg id peer) { term := s.follower.currentTerm } =
      none) :
    (s.answer J cfg id peer).success = true ∧
      s.exchange J cfg id peer =
        { leader := RaftNode.advanceCommitIndex cfg { s.leader with
            replication := none
            matchIndex := s.leader.matchIndex.insert peer
              (s.nextIndex peer - 1 + (s.request cfg id peer).entries.length)
            nextIndex := s.leader.nextIndex.insert peer
              (s.nextIndex peer - 1 + (s.request cfg id peer).entries.length + 1) }
          follower := ({ s.follower with leaderId := (s.request cfg id peer).leaderId } :
            RaftNode).acceptEntries J (s.request cfg id peer) } := by
  have hhandle := handleAppendEntries_accepted J h.request_term hok
  have hanswer : s.answer J cfg id peer = { term := s.leader.currentTerm, success := true } := by
    rw [Pair.answer, hhandle, h.term]
  have hprev : (s.request cfg id peer).prevLogIndex = s.nextIndex peer - 1 := by
    rw [h.request_eq]
  have hmax : max (s.leader.matchIndex.at peer)
      (s.nextIndex peer - 1 + (s.request cfg id peer).entries.length) =
      s.nextIndex peer - 1 + (s.request cfg id peer).entries.length := by
    have hlt : s.leader.matchIndex.at peer < s.nextIndex peer := h.match_lt
    omega
  rw [Pair.exchange_eq, hhandle, hanswer, hprev]
  refine ⟨rfl, ?_⟩
  rw [finishReplicate_of_success]
  · simp only [recorded, RaftNode.startReplicate, hmax]
  · exact h.role
  · rfl
  · rfl

theorem wentBack {rej : AppendEntriesResponse}
    (hrej : s.follower.rejection (s.request cfg id peer) { term := s.follower.currentTerm } =
      some rej) : WentBack peer s (s.exchange J cfg id peer) := by
  obtain ⟨hlt, hbeyond⟩ := h.backUp_spec hrej
  have hnext : (s.exchange J cfg id peer).nextIndex peer = s.leader.backUp rej := by
    rw [(h.rejected hrej).2, Pair.nextIndex, AList.lookup_insert, Option.getD_some]
  refine ⟨?_, ?_, ?_, by rw [hnext]; exact hlt, by rw [hnext]; exact hbeyond⟩
  · rw [(h.rejected hrej).2]
  · rw [(h.rejected hrej).2]
  · rw [(h.rejected hrej).2]
    rfl

theorem wentOn
    (hok : s.follower.rejection (s.request cfg id peer) { term := s.follower.currentTerm } =
      none) :
    WentOn peer (s.request cfg id peer).entries.length s (s.exchange J cfg id peer) := by
  have hmatch : (s.exchange J cfg id peer).matchIndex peer =
      s.nextIndex peer - 1 + (s.request cfg id peer).entries.length := by
    rw [(h.accepted hok).2, advanceCommitIndex_eq, Pair.matchIndex, IndexMap.at,
      AList.lookup_insert, Option.getD_some]
  refine ⟨?_, hmatch, ?_⟩
  · rw [(h.accepted hok).2, advanceCommitIndex_eq]
  · rw [hmatch, (h.accepted hok).2, advanceCommitIndex_eq, Pair.nextIndex, AList.lookup_insert,
      Option.getD_some]

theorem of_wentBack {s' : Pair} (hb : WentBack peer s s') (hrole : s'.leader.role = .Leader)
    (hterm : s'.follower.currentTerm = s'.leader.currentTerm) : Repairable peer s' where
  logs := by
    rw [hb.leader, hb.follower]
    exact h.logs
  role := hrole
  term := hterm
  next_pos := Nat.lt_of_le_of_lt (Nat.zero_le _) (hb.beyond _ h.agree)
  next_le := by
    rw [hb.leader]
    exact Nat.le_trans (Nat.le_of_lt hb.next_lt) h.next_le
  match_lt := by
    rw [hb.match_eq]
    exact hb.beyond _ h.agree
  agree := by
    rw [hb.leader, hb.follower, hb.match_eq]
    exact h.agree

theorem of_wentOn {s' : Pair} {es : List LogEntry} (ho : WentOn peer es.length s s')
    (hpiece : PieceOf s.leader.log.entries (s.nextIndex peer) es)
    (hprev : AgreeUpTo s.follower.log.entries s.leader.log.entries (s.nextIndex peer - 1))
    (hlen : s.nextIndex peer - 1 < s.follower.log.entries.length)
    (hlog : s'.follower.log = (s.follower.log.appendAll J es).1)
    (hrole : s'.leader.role = .Leader)
    (hterm : s'.follower.currentTerm = s'.leader.currentTerm) : Repairable peer s' := by
  have hF := h.logs.follower
  have hL := h.logs.leader
  have hsucc : s.nextIndex peer - 1 + 1 = s.nextIndex peer := Nat.sub_add_cancel h.next_pos
  obtain ⟨hagree, hcases⟩ := appendAll_cases J hF.toShaped hL.toShaped h.logs.matching
    (by rw [hsucc]; exact hpiece) hprev hlen
  have hwithin : s.nextIndex peer + es.length ≤ s.leader.log.entries.length :=
    hpiece.length_le (by have := h.prev_lt; omega)
  rw [← hlog] at hagree hcases
  rw [← ho.match_eq, ← ho.leader] at hagree
  have hnext := ho.next_eq
  have hmatch := ho.match_eq
  refine ⟨?_, hrole, hterm, by omega, ?_, by omega, hagree⟩
  · rw [ho.leader]
    rcases hcases with heq | heq
    · rw [heq]
      exact h.logs
    · rw [heq]
      exact .take hL (by omega)
  · rw [ho.leader, hL.lastIndex_eq]
    omega

variable (J cfg id)

/-- **One exchange**: it keeps `Repairable`, and the leader goes back or on. -/
theorem exchange_cases :
    Repairable peer (s.exchange J cfg id peer) ∧
      (((s.answer J cfg id peer).success = false ∧ WentBack peer s (s.exchange J cfg id peer)) ∨
        ((s.answer J cfg id peer).success = true ∧
          WentOn peer (s.request cfg id peer).entries.length s (s.exchange J cfg id peer))) := by
  cases hcheck : s.follower.rejection (s.request cfg id peer)
    { term := s.follower.currentTerm } with
  | some rej =>
    have hb := h.wentBack (J := J) hcheck
    obtain ⟨hfail, heq⟩ := h.rejected (J := J) hcheck
    refine ⟨h.of_wentBack hb ?_ ?_, Or.inl ⟨hfail, hb⟩⟩
    · rw [heq]
      exact h.role
    · rw [heq]
      exact h.term
  | none =>
    have ho := h.wentOn (J := J) hcheck
    obtain ⟨hsucc, heq⟩ := h.accepted (J := J) hcheck
    obtain ⟨hprev, hlen⟩ := h.agree_prev hcheck
    have hpiece : PieceOf s.leader.log.entries (s.nextIndex peer)
        (s.request cfg id peer).entries := by
      rw [h.request_eq]
      exact collectEntries_piece h.logs.leader.toShaped _ 100 _
    refine ⟨h.of_wentOn ho hpiece hprev hlen (J := J) ?_ ?_ ?_, Or.inr ⟨hsucc, ho⟩⟩
    · rw [heq, acceptEntries_eq]
    · rw [heq, advanceCommitIndex_eq]
      exact h.role
    · rw [heq, advanceCommitIndex_eq, acceptEntries_eq]
      exact h.term

/-- A request is empty only at the end of the leader's log. -/
theorem entries_ne_nil (hlt : s.nextIndex peer ≤ s.leader.log.lastIndex) :
    0 < (s.request cfg id peer).entries.length := by
  rw [h.request_eq]
  exact collectEntries_pos h.logs.leader.toShaped hlt 99

end Repairable

/-! ## Over many exchanges -/

namespace Pair

variable (J : Json.Codec) (cfg : RaftConfig) (id : Nat) (peer : String)

/-- The two nodes after `n` exchanges. -/
def after (s : Pair) (n : Nat) : Pair := (exchange J cfg id peer)^[n] s

theorem after_succ (s : Pair) (n : Nat) :
    s.after J cfg id peer (n + 1) = (s.after J cfg id peer n).exchange J cfg id peer :=
  Function.iterate_succ_apply' _ n s

/-- What is not acknowledged yet, and how far the leader has to go back for it at most. -/
def distance (s : Pair) : Nat :=
  (s.leader.log.lastIndex - s.matchIndex peer) + (s.nextIndex peer - 1 - s.matchIndex peer)

end Pair

namespace Repairable

variable (J : Json.Codec) (cfg : RaftConfig) (id : Nat) {peer : String} {s : Pair}
  (h : Repairable peer s)
include h

theorem leader_log_exchange : (s.exchange J cfg id peer).leader.log = s.leader.log := by
  rcases (h.exchange_cases J cfg id).2 with ⟨-, hb⟩ | ⟨-, ho⟩
  · exact hb.leader
  · exact ho.leader

theorem distance_exchange :
    (s.exchange J cfg id peer).distance peer ≤ s.distance peer - 1 := by
  have hlt := h.match_lt
  have hle := h.next_le
  unfold Pair.distance
  rw [h.leader_log_exchange J cfg id]
  rcases (h.exchange_cases J cfg id).2 with ⟨-, hb⟩ | ⟨-, ho⟩
  · have hback := hb.next_lt
    have hbeyond := hb.beyond _ h.agree
    rw [hb.match_eq]
    omega
  · have hmatch := ho.match_eq
    have hnext := ho.next_eq
    rcases Nat.lt_or_ge s.leader.log.lastIndex (s.nextIndex peer) with hend | hmore
    · omega
    · have hcount := h.entries_ne_nil cfg id hmore
      omega

theorem after (n : Nat) : Repairable peer (s.after J cfg id peer n) ∧
    (s.after J cfg id peer n).leader.log = s.leader.log ∧
    (s.after J cfg id peer n).distance peer ≤ s.distance peer - n := by
  induction n with
  | zero => exact ⟨h, rfl, Nat.le_refl _⟩
  | succ n ih =>
    obtain ⟨hrep, hlog, hdist⟩ := ih
    have hstep := hrep.distance_exchange J cfg id
    rw [Pair.after_succ]
    refine ⟨(hrep.exchange_cases J cfg id).1, (hrep.leader_log_exchange J cfg id).trans hlog, ?_⟩
    omega

omit J cfg id in
/-- Everything in common lies in front of an index the logs do not agree up to. -/
theorem commonLength_lt {k : Nat}
    (hk : ∀ q, AgreeUpTo s.follower.log.entries s.leader.log.entries q → q < k) :
    s.commonLength < k := by
  apply hk
  obtain ⟨xs, hxs⟩ := h.logs.leader.eq_cons
  obtain ⟨ys, hys⟩ := h.logs.follower.eq_cons
  rw [Pair.commonLength, hxs, hys]
  apply AgreeUpTo.symm
  apply AgreeUpTo.of_lt_commonLength
  rw [commonLength_cons]
  exact Nat.lt_succ_self _

end Repairable

/-- **Log repair converges and never overshoots.** -/
theorem repair_converges (J : Json.Codec) (cfg : RaftConfig) (id : Nat) (peer : String) (s : Pair)
    (h : Repairable peer s) :
    (∀ n,
      ((s.after J cfg id peer n).answer J cfg id peer).success = false →
        (s.after J cfg id peer (n + 1)).nextIndex peer < (s.after J cfg id peer n).nextIndex peer ∧
        (s.after J cfg id peer n).commonLength < (s.after J cfg id peer (n + 1)).nextIndex peer ∧
        (s.after J cfg id peer (n + 1)).commonLength = (s.after J cfg id peer n).commonLength) ∧
    (∀ n,
      ((s.after J cfg id peer n).answer J cfg id peer).success = true →
      ((s.after J cfg id peer n).request cfg id peer).entries ≠ [] →
        (s.after J cfg id peer n).matchIndex peer <
          (s.after J cfg id peer (n + 1)).matchIndex peer) ∧
    (∀ n, (s.after J cfg id peer n).leader.log = s.leader.log) ∧
    ∀ n ≥ 2 * s.leader.log.lastIndex, ∀ i ≤ s.leader.log.lastIndex,
      (s.after J cfg id peer n).follower.log.getEntry i = s.leader.log.getEntry i := by
  refine ⟨fun n hfail => ?_, fun n hsucc hmore => ?_, fun n => (h.after J cfg id n).2.1,
    fun n hn i hi => ?_⟩
  · obtain ⟨hrep, -, -⟩ := h.after J cfg id n
    rw [Pair.after_succ]
    rcases (hrep.exchange_cases J cfg id).2 with ⟨-, hb⟩ | ⟨hsucc, -⟩
    · refine ⟨hb.next_lt, hrep.commonLength_lt hb.beyond, ?_⟩
      rw [Pair.commonLength, hb.leader, hb.follower]
      rfl
    · exact absurd (hfail.symm.trans hsucc) (by simp)
  · obtain ⟨hrep, -, -⟩ := h.after J cfg id n
    have hcount := List.length_pos_of_ne_nil hmore
    have hlt := hrep.match_lt
    rw [Pair.after_succ]
    rcases (hrep.exchange_cases J cfg id).2 with ⟨hfail, -⟩ | ⟨-, ho⟩
    · exact absurd (hfail.symm.trans hsucc) (by simp)
    · rw [ho.match_eq]
      omega
  · -- the distance is at most twice the length of the log, so it is used up
    obtain ⟨hrep, hlog, hdist⟩ := h.after J cfg id n
    have hle := h.next_le
    have hstart : s.distance peer ≤ 2 * s.leader.log.lastIndex := by
      unfold Pair.distance
      omega
    have hmatch : s.leader.log.lastIndex ≤ (s.after J cfg id peer n).matchIndex peer := by
      unfold Pair.distance at hdist
      rw [hlog] at hdist
      unfold Pair.distance at hstart
      omega
    rw [hrep.logs.follower.getEntry_eq, ← hlog, hrep.logs.leader.getEntry_eq]
    exact hrep.agree i (Nat.le_trans hi hmatch)

/-- A new leader of term 5, and a follower with entries of two leaders that did not get them
    through. -/
def parted : Pair where
  leader := { role := .Leader, currentTerm := 5, log := logOfTerms [1, 1, 3, 5] }
  follower := { currentTerm := 5, log := logOfTerms [1, 1, 1, 4, 4] }

theorem intact_of_all {log : RaftLog} (h0 : log.snapshotIndex = 0 ∧ log.snapshotTerm = 0)
    (hhead : log.entries[0]? = some (RaftLog.sentinel 0 0))
    (hall : ∀ k < log.entries.length, ∀ e ∈ log.entries[k]?,
      e.index = k ∧ (0 < k → 0 < e.term))
    (hrising : Rising LogEntry.term log.entries) : Intact log where
  snapshotIndex := h0.1
  snapshotTerm := h0.2
  head := hhead
  index := fun k e he => (hall k (List.getElem?_eq_some_iff.mp he).1 e he).1
  pos := fun k e he => (hall k (List.getElem?_eq_some_iff.mp he).1 e he).2
  rising := hrising

theorem parted_repairable : Repairable "B" parted where
  logs := {
    follower := intact_of_all ⟨rfl, rfl⟩ rfl (by decide) (by unfold Rising; decide)
    leader := intact_of_all ⟨rfl, rfl⟩ rfl (by decide) (by unfold Rising; decide)
    matching := .of_forall (by decide)
    starts := .of_forall (by decide) }
  role := rfl
  term := rfl
  next_pos := by decide
  next_le := by decide
  match_lt := by decide
  agree := by
    intro k hk
    rw [Nat.le_zero.mp (show k ≤ 0 from hk)]
    rfl

/-- Both branches of the leader's search are taken on the way. -/
theorem repair_converges_parted :
    Repairable "B" parted ∧
      ∀ n ≥ 8, ∀ i ≤ 4,
        (parted.after Json.text { nodeId := "A", peers := ["B"] } 0 "B" n).follower.log.getEntry i =
          parted.leader.log.getEntry i :=
  ⟨parted_repairable, (repair_converges Json.text { nodeId := "A", peers := ["B"] } 0 "B" parted
    parted_repairable).2.2.2⟩

end Proof
end OrcDb
