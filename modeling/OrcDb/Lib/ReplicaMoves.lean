import OrcDb.Lib.Replicas

/-!
# The moves keep the invariant

One `Shape` and one `Safe` lemma per move of `Lib/Replicas.lean`, and `Move.inv` over all of
them. Three facts hold of every move and are proved first: it only adds to the history
(`Move.grows`), it acknowledges in the current term only (`Move.ack_at`), and so it never
makes anything choosable (`Move.choosable`).

Only `lead` and `vote` need the safety argument. A vote goes to a log that is at least as
good, and by induction over the terms in between such a log holds what may be chosen; a
leader's quorum meets the quorum of anything choosable in a replica that acknowledged before
it voted.
-/

set_option autoImplicit false

namespace OrcDb
namespace Lib
namespace Replicas

variable {ι α : Type} [DecidableEq ι] {P : Protocol ι α} {a a' : Replicas ι α} {i : ι}

omit [DecidableEq ι] in
/-- A candidate with a quorum stands with a real log, in a positive term. -/
theorem Shape.standing (hs : Shape P a) {Q : Finset ι} (quorum : P.IsQuorum Q)
    (votes : ∀ j ∈ Q, a.voted (a.term i) j i) :
    Logged P a (a.cand (a.term i) i) ∧ 0 < a.term i := by
  obtain ⟨j, hj, -⟩ := P.inter Q Q quorum quorum
  have hlog := (hs.cand _ i (hs.voted _ j i (votes j hj)).2).1
  have hpos := hs.cand_key _ i 0 P.root (hs.head_of_logged hlog)
  exact ⟨hlog, by omega⟩

omit [DecidableEq ι] in
/-- What an accepted piece makes of a log: nothing, or the leader's log cut off. -/
theorem Shape.accept_log (hs : Shape P a) {x : ι} {t p : Nat} {batch : List α} {e e' : α}
    (leader : a.leader t = some x) (mine : (a.log i)[p]? = some e)
    (theirs : (a.leaderLog t)[p]? = some e') (match_ : P.key e = P.key e')
    (piece : PieceOf (a.leaderLog t) (p + 1) batch) :
    (merge P.key (a.log i) (p + 1) batch = a.log i ∨
      merge P.key (a.log i) (p + 1) batch = (a.leaderLog t).take (p + 1 + batch.length)) ∧
    AgreeUpTo (merge P.key (a.log i) (p + 1) batch) (a.leaderLog t) (p + batch.length) ∧
    ∀ n, AgreeUpTo (a.log i) (a.leaderLog t) n →
      AgreeUpTo (merge P.key (a.log i) (p + 1) batch) (a.leaderLog t) n := by
  have hm : Matching P.key (a.log i) (a.leaderLog t) := hs.matching_leaderLog leader
  have hag : AgreeUpTo (a.log i) (a.leaderLog t) p := hm p e e' mine theirs match_
  have hp : p < (a.log i).length := (List.getElem?_eq_some_iff.mp mine).1
  refine ⟨?_, merge_agreeUpTo hm piece hag hp, fun n hn => merge_keeps hm piece hag hp hn⟩
  by_cases h : AgreeUpTo (a.log i) (a.leaderLog t) (p + batch.length)
  · exact Or.inl (merge_agree piece (fun k hk => h _ (by omega)))
  · exact Or.inr (merge_differ hm piece hag hp h)

/-- A move only adds to the history. -/
theorem Move.grows (hs : Shape P a) (h : Move P i a a') : a ≤ a' := by
  cases h with
  | raise up =>
    refine ⟨fun j => ?_, fun _ _ _ h => h, fun _ _ _ => rfl, fun _ _ h => h,
      fun _ => List.prefix_rfl, fun _ _ => Nat.le_refl _⟩
    by_cases hj : j = i
    · subst hj; simpa [Replicas.raise] using up
    · simp [Replicas.raise, Function.update_of_ne hj]
  | stand =>
    refine ⟨fun j => ?_, fun _ _ _ h => Or.inl h, fun t j hne => ?_, fun _ _ h => h,
      fun _ => List.prefix_rfl, fun _ _ => Nat.le_refl _⟩
    · by_cases hj : j = i
      · subst hj; simp [Replicas.stand]
      · simp [Replicas.stand, Function.update_of_ne hj]
    · simp only [Replicas.stand]
      rw [if_neg]
      rintro ⟨rfl, rfl⟩
      have := (hs.cand _ j hne).2
      omega
  | vote =>
    exact ⟨fun _ => Nat.le_refl _, fun _ _ _ h => Or.inl h, fun _ _ _ => rfl, fun _ _ h => h,
      fun _ => List.prefix_rfl, fun _ _ => Nat.le_refl _⟩
  | lead quorum votes vacant same =>
    have hpos := (hs.standing quorum votes).2
    have hempty := hs.vacant _ (by omega) vacant
    refine ⟨fun _ => Nat.le_refl _, fun _ _ _ h => h, fun _ _ _ => rfl, fun t j h => ?_,
      fun t => ?_, fun t j => ?_⟩
    · by_cases ht : t = a.term i
      · rw [ht, vacant] at h
        exact absurd h (by simp)
      · simpa [Replicas.lead, Function.update_of_ne ht] using h
    · by_cases ht : t = a.term i
      · rw [ht, hempty]
        exact List.nil_prefix
      · simp [Replicas.lead, Function.update_of_ne ht]
    · simp only [Replicas.lead]
      split
      · rename_i htj
        have := hs.ack_lt t j
        rw [htj.1, hempty, htj.2] at this
        rw [htj.1, htj.2]
        simp at this
        omega
      · exact Nat.le_refl _
  | extend leads key fits =>
    have hlog := hs.leading i leads
    refine ⟨fun _ => Nat.le_refl _, fun _ _ _ h => h, fun _ _ _ => rfl, fun _ _ h => h,
      fun t => ?_, fun t j => ?_⟩
    · by_cases ht : t = a.term i
      · rw [ht, ← hlog]
        simp [Replicas.extend]
      · simp [Replicas.extend, Function.update_of_ne ht]
    · simp only [Replicas.extend]
      split
      · rename_i htj
        have := hs.ack_self _ i leads
        rw [htj.1, htj.2, hlog]
        omega
      · exact Nat.le_refl _
  | accept leader other mine theirs match_ piece =>
    refine ⟨fun _ => Nat.le_refl _, fun _ _ _ h => h, fun _ _ _ => rfl, fun _ _ h => h,
      fun _ => List.prefix_rfl, fun t j => ?_⟩
    simp only [Replicas.accept]
    split
    · exact Nat.le_max_left _ _
    · exact Nat.le_refl _

/-- Acknowledgements are given in the current term only. -/
theorem Move.ack_at (h : Move P i a a') (t : Nat) (j : ι) :
    a'.ack t j = a.ack t j ∨ j = i ∧ t = a.term i := by
  cases h with
  | raise | stand | vote => exact Or.inl rfl
  | lead | extend | accept =>
    simp only [Replicas.lead, Replicas.extend, Replicas.accept]
    split
    · rename_i htj
      exact Or.inr ⟨htj.2, htj.1⟩
    · exact Or.inl rfl

/-- So what is choosable afterwards was choosable before. -/
theorem Move.choosable (hs : Shape P a) (h : Move P i a a') {t n : Nat}
    (hc : Choosable P a' t n) : Choosable P a t n := by
  obtain ⟨Q, hQ, hq⟩ := hc
  refine ⟨Q, hQ, fun q hm => ?_⟩
  rcases hq q hm with hack | hterm
  · rcases h.ack_at t q with heq | ⟨rfl, rfl⟩
    · exact Or.inl (heq ▸ hack)
    · exact Or.inr (Nat.le_refl _)
  · exact Or.inr (Nat.le_trans ((h.grows hs).term q) hterm)

/-- Nobody acknowledges ahead of its term. -/
theorem Move.ack_term (hs : Shape P a) (h : Move P i a a') (t : Nat) (j : ι)
    (hpos : 0 < a'.ack t j) : t ≤ a'.term j := by
  have hle := (h.grows hs).term j
  rcases h.ack_at t j with heq | ⟨rfl, rfl⟩
  · rw [heq] at hpos
    exact Nat.le_trans (hs.ack_term t j hpos) hle
  · exact hle

/-! ### Raising the term -/

theorem Shape.raise (hs : Shape P a) {t : Nat} (up : a.term i ≤ t) : Shape P (a.raise i t) := by
  have hmove : Move P i a (a.raise i t) := .raise up
  have hle : ∀ j, a.term j ≤ (a.raise i t).term j := (hmove.grows hs).term
  exact
    { hs with
      log_key := fun j k e he => Nat.le_trans (hs.log_key j k e he) (hle j)
      cand := fun t' j h => ⟨(hs.cand t' j h).1, Nat.le_trans (hs.cand t' j h).2 (hle j)⟩
      voted := fun t' j x h => ⟨Nat.le_trans (hs.voted t' j x h).1 (hle j), (hs.voted t' j x h).2⟩
      ack_term := hmove.ack_term hs
      leading := by
        intro j h
        -- a leader of the new term would have been in that term already
        have hback := hs.leader_term_le h
        have heq : (a.raise i t).term j = a.term j := Nat.le_antisymm hback (hle j)
        rw [heq] at h ⊢
        exact hs.leading j h }

theorem Safe.raise (inv : Inv P a) {t : Nat} (up : a.term i ≤ t) : Safe P (a.raise i t) := by
  have hc := fun {t n} => (Move.raise (P := P) up).choosable (t := t) (n := n) inv.shape
  exact
    { log := fun t n j hn ho h => inv.safe.log t n j hn ho (hc h)
      cand := fun t n t' j x hv hlt hn ho h => inv.safe.cand t n t' j x hv hlt hn ho (hc h)
      leaderLog := fun t n t' x hl hlt ho h => inv.safe.leaderLog t n t' x hl hlt ho (hc h) }

/-! ### Standing for election -/

theorem Shape.stand (hs : Shape P a) : Shape P (a.stand i) := by
  have hmove : Move P i a (a.stand i) := .stand
  have hg : a ≤ a.stand i := hmove.grows hs
  have hcand : ∀ t j, (t = a.term i + 1 ∧ j = i) ∨ (a.stand i).cand t j = a.cand t j := by
    intro t j
    by_cases h : t = a.term i + 1 ∧ j = i
    · exact Or.inl h
    · exact Or.inr (by simp [Replicas.stand, h])
  exact
    { hs with
      log_key := fun j k e he => Nat.le_trans (hs.log_key j k e he) (hg.term j)
      ack_term := hmove.ack_term hs
      cand := by
        intro t j h
        rcases hcand t j with ⟨rfl, rfl⟩ | heq
        · rw [stand_cand_self, stand_term_self]
          exact ⟨hs.log j, Nat.le_refl _⟩
        · rw [heq] at h ⊢
          exact ⟨(hs.cand t j h).1, Nat.le_trans (hs.cand t j h).2 (hg.term j)⟩
      cand_key := by
        intro t j k e he
        rcases hcand t j with ⟨rfl, rfl⟩ | heq
        · rw [stand_cand_self] at he
          have := hs.log_key j k e he
          omega
        · rw [heq] at he
          exact hs.cand_key t j k e he
      voted := by
        rintro t j x (h | ⟨rfl, rfl, rfl⟩)
        · obtain ⟨hle, hne⟩ := hs.voted t j x h
          exact ⟨Nat.le_trans hle (hg.term j), by rw [hg.cand t x hne]; exact hne⟩
        · exact ⟨Nat.le_of_eq (stand_term_self a x).symm,
            by rw [stand_cand_self]; exact (hs.log x).1⟩
      one_vote := by
        -- nobody in term `t` has voted in `t + 1` yet
        have hnew : ∀ x, ¬ a.voted (a.term i + 1) i x := fun x h => by
          have := (hs.voted _ i x h).1
          omega
        rintro t j x x' (h | ⟨rfl, rfl, rfl⟩) (h' | ⟨h₁, h₂, h₃⟩)
        · exact hs.one_vote t j x x' h h'
        · subst h₁ h₂
          exact absurd h (hnew x)
        · exact absurd h' (hnew x')
        · exact h₃.symm
      elected := by
        intro t x h
        obtain ⟨Q, hQ, hv⟩ := hs.elected t x h
        exact ⟨Q, hQ, fun j hj => Or.inl (hv j hj)⟩
      leading := by
        intro j h
        have heq : (a.stand i).term j = a.term j :=
          Nat.le_antisymm (hs.leader_term_le h) (hg.term j)
        rw [heq] at h ⊢
        exact hs.leading j h }

theorem Safe.stand (inv : Inv P a) : Safe P (a.stand i) := by
  have hc := fun {t n} => (Move.stand (P := P) (i := i)).choosable (t := t) (n := n) inv.shape
  have hg : a ≤ a.stand i := (Move.stand (P := P)).grows inv.shape
  refine
    { log := fun t n j hn ho h => inv.safe.log t n j hn ho (hc h)
      cand := ?_
      leaderLog := fun t n t' x hl hlt ho h => inv.safe.leaderLog t n t' x hl hlt ho (hc h) }
  rintro t n t' j x (hv | ⟨rfl, rfl, rfl⟩) hlt hn ho h
  · rw [hg.cand t' x (inv.shape.voted t' j x hv).2]
    exact inv.safe.cand t n t' j x hv hlt hn ho (hc h)
  · rw [stand_cand_self]
    exact inv.safe.log t n x hn ho (hc h)

/-! ### Voting -/

omit [DecidableEq ι] in
theorem Shape.vote (hs : Shape P a) {x : ι} {m k : Nat}
    (free : ∀ y, a.voted (a.term i) i y → y = x)
    (theirs : LastIs P.key (a.cand (a.term i) x) m k) : Shape P (a.vote i x) := by
  have hne : a.cand (a.term i) x ≠ [] := by
    intro h
    have := theirs.1
    rw [h] at this
    exact absurd this (by simp)
  exact
    { hs with
      voted := by
        rintro t j y (h | ⟨rfl, rfl, rfl⟩)
        · exact hs.voted t j y h
        · exact ⟨Nat.le_refl _, hne⟩
      one_vote := by
        rintro t j y y' (h | ⟨rfl, rfl, rfl⟩) (h' | ⟨h₁, h₂, h₃⟩)
        · exact hs.one_vote t j y y' h h'
        · subst h₁ h₂ h₃
          exact free y h
        · exact (free y' h').symm
        · exact h₃.symm
      elected := by
        intro t y h
        obtain ⟨Q, hQ, hv⟩ := hs.elected t y h
        exact ⟨Q, hQ, fun j hj => Or.inl (hv j hj)⟩ }

omit [DecidableEq ι] in
theorem Safe.vote (inv : Inv P a) {x : ι} {m k m' k' : Nat}
    (mine : LastIs P.key (a.log i) m k) (theirs : LastIs P.key (a.cand (a.term i) x) m' k')
    (better : k < k' ∨ k = k' ∧ m ≤ m') : Safe P (a.vote i x) := by
  refine
    { log := inv.safe.log
      cand := ?_
      leaderLog := inv.safe.leaderLog }
  rintro t n t' j y (hv | ⟨rfl, rfl, rfl⟩) hlt hn ho h
  · exact inv.safe.cand t n t' j y hv hlt hn ho h
  · have hne : a.cand (a.term j) y ≠ [] := by
      intro h0
      have := theirs.1
      rw [h0] at this
      exact absurd this (by simp)
    exact inv.agree_of_better (inv.shape.log j) (inv.shape.cand _ y hne).1
      (inv.safe.log t n j hn ho h) ho h mine theirs better

/-! ### Taking the lead -/

theorem Shape.lead (hs : Shape P a) {Q : Finset ι} (quorum : P.IsQuorum Q)
    (votes : ∀ j ∈ Q, a.voted (a.term i) j i) (vacant : a.leader (a.term i) = none)
    (same : a.log i = a.cand (a.term i) i) : Shape P (a.lead i) := by
  have hmove : Move P i a (a.lead i) := .lead quorum votes vacant same
  have hg : a ≤ a.lead i := hmove.grows hs
  obtain ⟨-, hpos⟩ := hs.standing quorum votes
  have hempty : a.leaderLog (a.term i) = [] := hs.vacant _ (by omega) vacant
  have hlen : 0 < (a.log i).length := List.length_pos_iff.mpr (hs.log i).1
  exact
    { base_log := by rw [lead_leaderLog_of_ne a (by omega)]; exact hs.base_log
      base_leader := by rw [lead_leader_of_ne a (by omega)]; exact hs.base_leader
      vacant := by
        intro t ht h
        by_cases heq : t = a.term i
        · rw [heq, lead_leader_self] at h
          exact absurd h (by simp)
        · rw [lead_leader_of_ne a heq] at h
          rw [lead_leaderLog_of_ne a heq]
          exact hs.vacant t ht h
      termLog := by
        intro t
        by_cases heq : t = a.term i
        · rw [heq, lead_leaderLog_self]
          exact hs.termLog_of_logged (hs.log i) (hs.log_key i)
        · rw [lead_leaderLog_of_ne a heq]
          exact hs.termLog t
      log := fun j => (hs.log j).mono hg
      log_key := hs.log_key
      leaderLog := by
        intro t x h
        by_cases heq : t = a.term i
        · rw [heq, lead_leaderLog_self]
          exact (hs.log i).mono hg
        · rw [lead_leader_of_ne a heq] at h
          rw [lead_leaderLog_of_ne a heq]
          exact (hs.leaderLog t x h).mono hg
      cand := fun t j h => ⟨(hs.cand t j h).1.mono hg, (hs.cand t j h).2⟩
      cand_key := hs.cand_key
      voted := hs.voted
      one_vote := hs.one_vote
      elected := by
        intro t x h
        by_cases heq : t = a.term i
        · rw [heq, lead_leader_self] at h
          cases h
          exact ⟨Q, quorum, by rw [heq]; exact votes⟩
        · rw [lead_leader_of_ne a heq] at h
          exact hs.elected t x h
      leading := by
        intro j h
        by_cases heq : a.term j = a.term i
        · have hji : i = j := by
            have : (a.lead i).leader (a.term j) = some j := h
            rw [heq, lead_leader_self] at this
            exact Option.some.inj this
          subst hji
          exact (lead_leaderLog_self a i).symm
        · have h' : a.leader (a.term j) = some j := by rw [← lead_leader_of_ne a heq]; exact h
          exact (hs.leading j h').trans (lead_leaderLog_of_ne a heq).symm
      ack_lt := by
        intro t j
        rcases hmove.ack_at t j with heq | ⟨rfl, rfl⟩
        · rw [heq]
          by_cases ht : t = a.term i
          · have := hs.ack_lt t j
            rw [ht, hempty] at this
            rw [ht]
            exact Or.inl (this.resolve_right (by simp))
          · rw [lead_leaderLog_of_ne a ht]
            exact hs.ack_lt t j
        · rw [lead_ack_self, lead_leaderLog_self]
          omega
      ack_term := hmove.ack_term hs
      ack_self := by
        intro t x h
        by_cases heq : t = a.term i
        · rw [heq, lead_leader_self] at h
          cases h
          rw [heq, lead_ack_self, lead_leaderLog_self]
          omega
        · rw [lead_leader_of_ne a heq] at h
          rw [lead_leaderLog_of_ne a heq, (hmove.ack_at t x).resolve_right (fun h' => heq h'.2)]
          exact hs.ack_self t x h }

theorem Safe.lead (inv : Inv P a) {Q : Finset ι} (quorum : P.IsQuorum Q)
    (votes : ∀ j ∈ Q, a.voted (a.term i) j i) (vacant : a.leader (a.term i) = none)
    (same : a.log i = a.cand (a.term i) i) : Safe P (a.lead i) := by
  have hs := inv.shape
  have hmove : Move P i a (a.lead i) := .lead quorum votes vacant same
  -- the new leader has no entry of its own term yet
  have hown : ∀ t n, Own P (a.lead i) t n → t ≠ a.term i ∧ Own P a t n := by
    rintro t n ⟨e, he, hk⟩
    have hne : t ≠ a.term i := by
      rintro rfl
      rw [lead_leaderLog_self, same] at he
      have := hs.cand_key _ i n e he
      omega
    rw [lead_leaderLog_of_ne a hne] at he
    exact ⟨hne, e, he, hk⟩
  refine ⟨?_, ?_, ?_⟩
  · intro t n j hn ho h
    obtain ⟨hne, ho'⟩ := hown t n ho
    rw [(hmove.ack_at t j).resolve_right (fun h' => hne h'.2)] at hn
    rw [lead_leaderLog_of_ne a hne]
    exact inv.safe.log t n j hn ho' (hmove.choosable hs h)
  · intro t n t' j x hv hlt hn ho h
    obtain ⟨hne, ho'⟩ := hown t n ho
    rw [(hmove.ack_at t j).resolve_right (fun h' => hne h'.2)] at hn
    rw [lead_leaderLog_of_ne a hne]
    exact inv.safe.cand t n t' j x hv hlt hn ho' (hmove.choosable hs h)
  · intro t n t' x hl hlt ho h
    obtain ⟨hne, ho'⟩ := hown t n ho
    have hc := hmove.choosable hs h
    rw [lead_leaderLog_of_ne a hne]
    by_cases ht' : t' = a.term i
    · subst ht'
      -- a voter that is also in the quorum acknowledged before it voted
      obtain ⟨Q', hQ', hq⟩ := hc
      obtain ⟨q, hm, hm'⟩ := P.inter Q Q' quorum hQ'
      have hterm := (hs.voted _ q i (votes q hm)).1
      have hack : n ≤ a.ack t q := (hq q hm').resolve_right (by omega)
      rw [lead_leaderLog_self, same]
      exact inv.safe.cand t n _ q i (votes q hm) hlt hack ho' ⟨Q', hQ', hq⟩
    · rw [lead_leader_of_ne a ht'] at hl
      rw [lead_leaderLog_of_ne a ht']
      exact inv.safe.leaderLog t n t' x hl hlt ho' hc

/-! ### Extending the leader's log -/

theorem Shape.extend (hs : Shape P a) {e : α} (leads : a.leader (a.term i) = some i)
    (key : P.key e = a.term i) (fits : P.Fits (a.log i).length e) : Shape P (a.extend i e) := by
  have hmove : Move P i a (a.extend i e) := .extend leads key fits
  have hg : a ≤ a.extend i e := hmove.grows hs
  have hpos := hs.term_pos leads
  have hlog := hs.leading i leads
  have hlogged : Logged P (a.extend i e) (a.log i ++ [e]) :=
    ((hs.log i).mono hg).concat (by rw [key, extend_leaderLog_self])
  exact
    { base_log := by rw [extend_leaderLog_of_ne a e (by omega)]; exact hs.base_log
      base_leader := hs.base_leader
      vacant := by
        intro t ht h
        rw [extend_leaderLog_of_ne a e ?_]
        · exact hs.vacant t ht h
        · rintro rfl
          have : a.leader (a.term i) = none := h
          rw [leads] at this
          exact absurd this (by simp)
      termLog := by
        intro t
        by_cases heq : t = a.term i
        · rw [heq, extend_leaderLog_self]
          exact (hs.termLog_of_logged (hs.log i) (hs.log_key i)).concat (hs.log i).1 fits key
        · rw [extend_leaderLog_of_ne a e heq]
          exact hs.termLog t
      log := by
        intro j
        by_cases hj : j = i
        · subst hj
          rw [extend_log_self]
          exact hlogged
        · rw [extend_log_of_ne a e hj]
          exact (hs.log j).mono hg
      log_key := by
        intro j k x hx
        by_cases hj : j = i
        · subst hj
          rw [extend_log_self] at hx
          rcases getElem?_concat_iff.mp hx with hx | ⟨-, rfl⟩
          · exact hs.log_key j k x hx
          · exact Nat.le_of_eq key
        · rw [extend_log_of_ne a e hj] at hx
          exact hs.log_key j k x hx
      leaderLog := by
        intro t x h
        by_cases heq : t = a.term i
        · rw [heq, extend_leaderLog_self]
          exact hlogged
        · rw [extend_leaderLog_of_ne a e heq]
          exact (hs.leaderLog t x h).mono hg
      cand := fun t j h => ⟨(hs.cand t j h).1.mono hg, (hs.cand t j h).2⟩
      cand_key := hs.cand_key
      voted := hs.voted
      one_vote := hs.one_vote
      elected := hs.elected
      leading := by
        intro j h
        have h' : a.leader (a.term j) = some j := h
        by_cases hj : j = i
        · subst hj
          exact (extend_log_self a j e).trans (extend_leaderLog_self a j e).symm
        · rw [extend_log_of_ne a e hj]
          refine (hs.leading j h').trans (extend_leaderLog_of_ne a e ?_).symm
          intro heq
          rw [show a.term j = a.term i from heq, leads] at h'
          exact hj (Option.some.inj h').symm
      ack_lt := by
        intro t j
        rcases hmove.ack_at t j with heq | ⟨rfl, rfl⟩
        · rw [heq]
          have hlen := (hg.leaderLog t).length_le
          have := hs.ack_lt t j
          omega
        · rw [extend_ack_self, extend_leaderLog_self]
          simp
      ack_term := hmove.ack_term hs
      ack_self := by
        intro t x h
        have h' : a.leader t = some x := h
        by_cases heq : t = a.term i
        · rw [heq, leads] at h'
          cases h'
          rw [heq, extend_ack_self, extend_leaderLog_self]
          simp
        · rw [extend_leaderLog_of_ne a e heq, (hmove.ack_at t x).resolve_right (fun h' => heq h'.2)]
          exact hs.ack_self t x h' }

theorem Safe.extend (inv : Inv P a) {e : α} (leads : a.leader (a.term i) = some i)
    (key : P.key e = a.term i) (fits : P.Fits (a.log i).length e) : Safe P (a.extend i e) := by
  have hs := inv.shape
  have hmove : Move P i a (a.extend i e) := .extend leads key fits
  have hg : a ≤ a.extend i e := hmove.grows hs
  have hlog := hs.leading i leads
  have hlen : 0 < (a.log i).length := List.length_pos_iff.mpr (hs.log i).1
  -- an entry of its own term is an old one or the one just made
  have hown : ∀ t n, Own P (a.extend i e) t n →
      Own P a t n ∨ t = a.term i ∧ n = (a.log i).length := by
    rintro t n ⟨x, hx, hk⟩
    by_cases heq : t = a.term i
    · rw [heq, extend_leaderLog_self] at hx
      rcases getElem?_concat_iff.mp hx with hx | ⟨hn, -⟩
      · exact Or.inl ⟨x, by rw [heq, ← hlog]; exact hx, hk⟩
      · exact Or.inr ⟨heq, hn⟩
    · rw [extend_leaderLog_of_ne a e heq] at hx
      exact Or.inl ⟨x, hx, hk⟩
  -- and the one just made is acknowledged by the leader alone, who is still in its term
  have honly : ∀ j, (a.log i).length ≤ (a.extend i e).ack (a.term i) j → j = i := by
    intro j hj
    rcases hmove.ack_at (a.term i) j with heq | ⟨hji, -⟩
    · rw [heq] at hj
      have := hs.ack_lt (a.term i) j
      rw [← hlog] at this
      omega
    · exact hji
  refine ⟨?_, ?_, ?_⟩
  · intro t n j hn ho h
    by_cases hji : j = i ∧ t = a.term i
    · obtain ⟨rfl, rfl⟩ := hji
      rw [extend_log_self, extend_leaderLog_self]
      exact AgreeUpTo.refl _ _
    · rcases hown t n ho with ho' | ⟨rfl, rfl⟩
      · rw [(hmove.ack_at t j).resolve_right hji] at hn
        have hag := inv.safe.log t n j hn ho' (hmove.choosable hs h)
        by_cases hj : j = i
        · subst hj
          rw [extend_log_self]
          exact ho'.agree_mono hg
            (hag.symm.append (hag.symm.length_lt ho'.lt) [e]).symm
        · rw [extend_log_of_ne a e hj]
          exact ho'.agree_mono hg hag
      · exact absurd ⟨honly j hn, rfl⟩ hji
  · intro t n t' j x hv hlt hn ho h
    have hvt := (hs.voted t' j x hv).1
    rcases hmove.ack_at t j with heq | ⟨rfl, rfl⟩
    · rcases hown t n ho with ho' | ⟨rfl, rfl⟩
      · rw [heq] at hn
        exact ho'.agree_mono hg (inv.safe.cand t n t' j x hv hlt hn ho' (hmove.choosable hs h))
      · have := honly j hn
        subst this
        omega
    · omega
  · intro t n t' x hl hlt ho h
    rcases hown t n ho with ho' | ⟨rfl, rfl⟩
    · have hag := inv.safe.leaderLog t n t' x hl hlt ho' (hmove.choosable hs h)
      have hn := hag.symm.length_lt ho'.lt
      exact ho'.agree_mono hg (hag.symm.lengthen hn (hg.leaderLog t')).symm
    · -- a later leader's voters are past this term, so they cannot acknowledge the entry
      exfalso
      obtain ⟨Q, hQ, hv⟩ := hs.elected t' x hl
      obtain ⟨Q', hQ', hq⟩ := h
      obtain ⟨q, hm, hm'⟩ := P.inter Q Q' hQ hQ'
      have hterm := (hs.voted t' q x (hv q hm)).1
      have hack := (hq q hm').resolve_right (fun h' => by
        have : a.term q ≤ a.term i := h'
        omega)
      have := honly q hack
      subst this
      omega

/-! ### Accepting a piece -/

theorem Shape.accept (hs : Shape P a) {x : ι} {p : Nat} {batch : List α} {e e' : α}
    (leader : a.leader (a.term i) = some x) (other : x ≠ i)
    (mine : (a.log i)[p]? = some e) (theirs : (a.leaderLog (a.term i))[p]? = some e')
    (match_ : P.key e = P.key e') (piece : PieceOf (a.leaderLog (a.term i)) (p + 1) batch) :
    Shape P (a.accept P i p batch) := by
  have hmove : Move P i a (a.accept P i p batch) :=
    .accept leader other mine theirs match_ piece
  have hpiece := piece.length_le (List.getElem?_eq_some_iff.mp theirs).1
  obtain ⟨hmerge, -, -⟩ := hs.accept_log leader mine theirs match_ piece
  exact
    { hs with
      log := by
        intro j
        by_cases hj : j = i
        · subst hj
          rw [accept_log_self]
          rcases hmerge with h | h
          · rw [h]
            exact hs.log j
          · rw [h]
            exact (hs.leaderLog _ x leader).take (by omega)
        · rw [accept_log_of_ne P a p batch hj]
          exact hs.log j
      log_key := by
        intro j k y hy
        by_cases hj : j = i
        · subst hj
          rw [accept_log_self] at hy
          rcases hmerge with h | h
          · rw [h] at hy
            exact hs.log_key j k y hy
          · rw [h, List.getElem?_take] at hy
            split at hy
            · exact (hs.termLog _).key_le k y hy
            · exact absurd hy (by simp)
        · rw [accept_log_of_ne P a p batch hj] at hy
          exact hs.log_key j k y hy
      leading := by
        intro j h
        have h' : a.leader (a.term j) = some j := h
        by_cases hj : j = i
        · subst hj
          rw [leader] at h'
          exact absurd (Option.some.inj h') other
        · rw [accept_log_of_ne P a p batch hj]
          exact hs.leading j h'
      ack_lt := by
        intro t j
        rcases hmove.ack_at t j with heq | ⟨rfl, rfl⟩
        · rw [heq]
          exact hs.ack_lt t j
        · rw [accept_ack_self]
          have hlen : (a.accept P j p batch).leaderLog (a.term j) = a.leaderLog (a.term j) := rfl
          have := hs.ack_lt (a.term j) j
          rw [hlen]
          omega
      ack_term := hmove.ack_term hs
      ack_self := by
        intro t y h
        have h' : a.leader t = some y := h
        rw [(hmove.ack_at t y).resolve_right ?_]
        · exact hs.ack_self t y h'
        · rintro ⟨rfl, rfl⟩
          rw [leader] at h'
          exact other (Option.some.inj h') }

theorem Safe.accept (inv : Inv P a) {x : ι} {p : Nat} {batch : List α} {e e' : α}
    (leader : a.leader (a.term i) = some x) (other : x ≠ i)
    (mine : (a.log i)[p]? = some e) (theirs : (a.leaderLog (a.term i))[p]? = some e')
    (match_ : P.key e = P.key e') (piece : PieceOf (a.leaderLog (a.term i)) (p + 1) batch) :
    Safe P (a.accept P i p batch) := by
  have hs := inv.shape
  have hmove : Move P i a (a.accept P i p batch) :=
    .accept leader other mine theirs match_ piece
  obtain ⟨-, hreach, hkeep⟩ := hs.accept_log leader mine theirs match_ piece
  refine ⟨?_, ?_, ?_⟩
  · intro t n j hn ho h
    have hc := hmove.choosable hs h
    have ho' : Own P a t n := ho
    change AgreeUpTo _ (a.leaderLog t) n
    by_cases hj : j = i
    · subst hj
      rw [accept_log_self]
      rcases Nat.lt_trichotomy t (a.term j) with hlt | rfl | hgt
      · -- an earlier term: the current leader has it, so accepting from that leader keeps it
        rw [(hmove.ack_at t j).resolve_right (fun h' => by omega)] at hn
        have hlater := inv.safe.leaderLog t n _ x leader hlt ho' hc
        exact (hkeep n ((inv.safe.log t n j hn ho' hc).trans hlater.symm)).trans hlater
      · rw [accept_ack_self] at hn
        rcases le_max_iff.mp hn with hn | hn
        · exact hkeep n (inv.safe.log _ n j hn ho' hc)
        · exact hreach.mono hn
      · -- nothing is acknowledged ahead of time
        exfalso
        rw [(hmove.ack_at t j).resolve_right (fun h' => by omega)] at hn
        have hzero : a.ack t j = 0 := by
          by_contra h0
          have := hs.ack_term t j (by omega)
          omega
        obtain ⟨o, ho₁, ho₂⟩ := ho'
        rw [show n = 0 by omega] at ho₁
        rw [(hs.termLog t).head o ho₁, P.key_root] at ho₂
        omega
    · rw [accept_log_of_ne P a p batch hj]
      rw [(hmove.ack_at t j).resolve_right (fun h' => hj h'.1)] at hn
      exact inv.safe.log t n j hn ho' hc
  · intro t n t' j y hv hlt hn ho h
    have hvt := (hs.voted t' j y hv).1
    rcases hmove.ack_at t j with heq | ⟨rfl, rfl⟩
    · rw [heq] at hn
      exact inv.safe.cand t n t' j y hv hlt hn ho (hmove.choosable hs h)
    · omega
  · intro t n t' y hl hlt ho h
    exact inv.safe.leaderLog t n t' y hl hlt ho (hmove.choosable hs h)

/-! ### Every move -/

theorem Move.inv (inv : Inv P a) (h : Move P i a a') : Inv P a' := by
  have hs := inv.shape
  cases h with
  | raise up => exact ⟨hs.raise up, Safe.raise inv up⟩
  | stand => exact ⟨hs.stand, Safe.stand inv⟩
  | vote free mine theirs better => exact ⟨hs.vote free theirs, Safe.vote inv mine theirs better⟩
  | lead quorum votes vacant same =>
    exact ⟨hs.lead quorum votes vacant same, Safe.lead inv quorum votes vacant same⟩
  | extend leads key fits => exact ⟨hs.extend leads key fits, Safe.extend inv leads key fits⟩
  | accept leader other mine theirs match_ piece =>
    exact ⟨hs.accept leader other mine theirs match_ piece,
      Safe.accept inv leader other mine theirs match_ piece⟩

/-! ## Runs of one replica's moves -/

/-- What the moves of another replica leave alone. -/
structure Untouched (j : ι) (a a' : Replicas ι α) : Prop where
  term : a'.term j = a.term j
  log : a'.log j = a.log j
  voted : ∀ t x, a'.voted t j x ↔ a.voted t j x
  cand : ∀ t, a'.cand t j = a.cand t j
  leader : ∀ t, a'.leader t = some j ↔ a.leader t = some j

theorem Move.untouched (hs : Shape P a) (h : Move P i a a') {j : ι} (hj : j ≠ i) :
    Untouched j a a' := by
  cases h with
  | raise up =>
    exact ⟨by simp [Replicas.raise, Function.update_of_ne hj], rfl, fun _ _ => Iff.rfl,
      fun _ => rfl, fun _ => Iff.rfl⟩
  | stand =>
    refine ⟨by simp [Replicas.stand, Function.update_of_ne hj], rfl, fun t x => ?_,
      fun t => by simp [Replicas.stand, hj], fun _ => Iff.rfl⟩
    simp [Replicas.stand, hj]
  | vote free mine theirs better =>
    refine ⟨rfl, rfl, fun t x => ?_, fun _ => rfl, fun _ => Iff.rfl⟩
    simp [Replicas.vote, hj]
  | lead quorum votes vacant same =>
    refine ⟨rfl, rfl, fun _ _ => Iff.rfl, fun _ => rfl, fun t => ⟨fun h => ?_, fun h => ?_⟩⟩
    · by_cases ht : t = a.term i
      · subst ht
        simp only [Replicas.lead, Function.update_self, Option.some.injEq] at h
        exact absurd h.symm hj
      · simpa [Replicas.lead, Function.update_of_ne ht] using h
    · exact ((Move.lead quorum votes vacant same).grows hs).leader t j h
  | extend leads key fits =>
    exact ⟨rfl, by simp [Replicas.extend, Function.update_of_ne hj], fun _ _ => Iff.rfl,
      fun _ => rfl, fun _ => Iff.rfl⟩
  | accept leader other mine theirs match_ piece =>
    exact ⟨rfl, by simp [Replicas.accept, Function.update_of_ne hj], fun _ _ => Iff.rfl,
      fun _ => rfl, fun _ => Iff.rfl⟩

omit [DecidableEq ι] in
theorem Untouched.trans {j : ι} {a₁ a₂ a₃ : Replicas ι α} (h : Untouched j a₁ a₂)
    (h' : Untouched j a₂ a₃) : Untouched j a₁ a₃ where
  term := h'.term.trans h.term
  log := h'.log.trans h.log
  voted := fun t x => (h'.voted t x).trans (h.voted t x)
  cand := fun t => (h'.cand t).trans (h.cand t)
  leader := fun t => (h'.leader t).trans (h.leader t)

/-- Any number of moves of replica `i`. -/
def Moves (P : Protocol ι α) (i : ι) : Replicas ι α → Replicas ι α → Prop :=
  Relation.ReflTransGen (Move P i)

theorem Moves.inv (inv : Inv P a) (h : Moves P i a a') : Inv P a' := by
  induction h with
  | refl => exact inv
  | tail _ last ih => exact last.inv ih

theorem Moves.grows (inv : Inv P a) (h : Moves P i a a') : a ≤ a' := by
  induction h with
  | refl => exact le_refl a
  | tail run last ih => exact le_trans ih (last.grows (Moves.inv inv run).shape)

theorem Moves.untouched (inv : Inv P a) (h : Moves P i a a') {j : ι} (hj : j ≠ i) :
    Untouched j a a' := by
  induction h with
  | refl => exact ⟨rfl, rfl, fun _ _ => Iff.rfl, fun _ => rfl, fun _ => Iff.rfl⟩
  | tail run last ih => exact ih.trans (last.untouched (Moves.inv inv run).shape hj)

/-! ## Runs of all of them -/

/-- Any number of moves, of any replicas. -/
def Steps (P : Protocol ι α) : Replicas ι α → Replicas ι α → Prop :=
  Relation.ReflTransGen fun a a' => ∃ i, Move P i a a'

theorem Moves.steps (h : Moves P i a a') : Steps P a a' :=
  Relation.ReflTransGen.mono (fun _ _ (hm : Move P i _ _) => ⟨i, hm⟩) a a' h

theorem Steps.inv (inv : Inv P a) (h : Steps P a a') : Inv P a' := by
  induction h with
  | refl => exact inv
  | tail _ last ih =>
    obtain ⟨i, hm⟩ := last
    exact hm.inv ih

theorem Steps.grows (inv : Inv P a) (h : Steps P a a') : a ≤ a' := by
  induction h with
  | refl => exact le_refl a
  | tail run last ih =>
    obtain ⟨i, hm⟩ := last
    exact le_trans ih (hm.grows (Steps.inv inv run).shape)

end Replicas
end Lib
end OrcDb
