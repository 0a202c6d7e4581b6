import OrcDb.Lib.Divergence
import OrcDb.Lib.ReplicaMoves

/-!
# What was acknowledged is held

Two additions to the protocol of `Lib/Replicas.lean`, about one replica and the leader of its
term.

* `Held`: a replica's log agrees with its leader's as far as it has acknowledged it. This is
  true only while the replica stays in the term: a later leader may cut off what was
  acknowledged and never chosen. Within the term nothing is cut off (`Shape.accept_log`), and
  with a new term the acknowledgements start again from 0.
* `Logged.sameStarts`: the entries of a term start at one place in all logs, because all logs
  take them from the leader of that term. With terms that never fall this is what
  `Lib/Divergence.lean` asks for.
-/

set_option autoImplicit false

namespace OrcDb
namespace Lib
namespace Replicas

variable {ι α : Type} {P : Protocol ι α} {a a' : Replicas ι α} {i : ι}

def Held (a : Replicas ι α) : Prop :=
  ∀ j, 0 < a.ack (a.term j) j →
    AgreeUpTo (a.log j) (a.leaderLog (a.term j)) (a.ack (a.term j) j)

theorem held_init (P : Protocol ι α) : Held (init P) :=
  fun _ h => absurd h (Nat.lt_irrefl 0)

/-- How far a replica has acknowledged the log of a term it has not gone past. Position 0 is
    the root everywhere, so nobody needs to acknowledge it. -/
theorem Held.agree (hs : Shape P a) (h : Held a) {x j : ι} {t n : Nat} (hl : a.leader t = some x)
    (ht : a.term j ≤ t) (hn : n ≤ a.ack t j) : AgreeUpTo (a.log j) (a.leaderLog t) n := by
  rcases Nat.eq_zero_or_pos n with h0 | hpos
  · intro k hk
    rw [h0, Nat.le_zero] at hk
    rw [hk, hs.head_of_logged (hs.log j), hs.head_of_logged (hs.leaderLog t x hl)]
  · have hack : 0 < a.ack t j := Nat.lt_of_lt_of_le hpos hn
    obtain rfl : a.term j = t := Nat.le_antisymm ht (hs.ack_term t j hack)
    exact (h j hack).mono hn

/-- A replica has acknowledged nothing of a term it has not come to. -/
theorem Shape.ack_eq_zero (hs : Shape P a) {t : Nat} (h : a.term i < t) : a.ack t i = 0 := by
  by_contra hne
  exact absurd (hs.ack_term t i (Nat.pos_of_ne_zero hne)) (Nat.not_le.mpr h)

section Moves

variable [DecidableEq ι]

/-- For the replicas that do not move: their leader's log only gets longer. -/
theorem Held.other (hs : Shape P a) (h : Held a) (hm : Move P i a a') {j : ι} (hj : j ≠ i)
    (hpos : 0 < a'.ack (a'.term j) j) :
    AgreeUpTo (a'.log j) (a'.leaderLog (a'.term j)) (a'.ack (a'.term j) j) := by
  have hu := hm.untouched hs hj
  have hack : a'.ack (a.term j) j = a.ack (a.term j) j :=
    (hm.ack_at (a.term j) j).resolve_right fun h' => hj h'.1
  rw [hu.term, hack] at hpos
  rw [hu.term, hu.log, hack]
  have hlt := (hs.ack_lt (a.term j) j).resolve_left (Nat.ne_of_gt hpos)
  exact (h j hpos).lengthen hlt ((hm.grows hs).leaderLog _)

theorem Move.held (hs : Shape P a) (h : Held a) (hm : Move P i a a') : Held a' := by
  intro j hpos
  by_cases hj : j = i
  swap
  · exact h.other hs hm hj hpos
  subst hj
  cases hm with
  | @raise t up =>
    have hterm : (a.raise j t).term j = t := Function.update_self ..
    rcases Nat.eq_or_lt_of_le up with heq | hlt
    · rw [hterm, ← heq] at hpos ⊢
      exact h j hpos
    · rw [hterm] at hpos
      exact absurd (hs.ack_eq_zero hlt) (Nat.ne_of_gt hpos)
  | stand =>
    rw [stand_term_self] at hpos
    exact absurd (hs.ack_eq_zero (Nat.lt_succ_self _)) (Nat.ne_of_gt hpos)
  | vote => exact h j hpos
  | lead =>
    intro k _
    exact congrArg (fun xs => xs[k]?) (lead_leaderLog_self a j).symm
  | @extend e =>
    intro k _
    exact congrArg (fun xs => xs[k]?)
      ((extend_log_self a j e).trans (extend_leaderLog_self a j e).symm)
  | @accept x p batch e e' leader other mine theirs match_ piece =>
    obtain ⟨-, hnew, hkeep⟩ := hs.accept_log leader mine theirs match_ piece
    have hold : AgreeUpTo (a.log j) (a.leaderLog (a.term j)) (a.ack (a.term j) j) :=
      h.agree hs leader (Nat.le_refl _) (Nat.le_refl _)
    have hack := accept_ack_self P a j p batch
    intro k hk
    have hk' : k ≤ max (a.ack (a.term j) j) (p + batch.length) := hack ▸ hk
    rw [accept_log_self]
    rcases le_max_iff.mp hk' with hle | hle
    · exact hkeep _ hold k hle
    · exact hnew k hle

theorem Steps.held (inv : Inv P a) (h : Held a) (run : Steps P a a') : Held a' := by
  induction run with
  | refl => exact h
  | tail run last ih =>
    obtain ⟨i, hm⟩ := last
    exact hm.held (Steps.inv inv run).shape ih

end Moves

/-! ## Where terms start -/

theorem Logged.sameStarts {xs ys : List α} (hx : Logged P a xs) (hy : Logged P a ys) :
    SameStarts P.key xs ys := by
  intro t i j hi hj
  obtain ⟨x, hxi, hxt⟩ := mem_positions.mp hi.1
  obtain ⟨y, hyj, hyt⟩ := mem_positions.mp hj.1
  have hagx : AgreeUpTo xs (a.leaderLog t) i := hxt ▸ hx.2 i x hxi
  have hagy : AgreeUpTo ys (a.leaderLog t) j := hyt ▸ hy.2 j y hyj
  -- the earlier of the two starts is in the other log as well
  rcases Nat.le_total i j with hij | hji
  · have hmem : i ∈ positions P.key ys t :=
      (hagy.mem_positions_iff hij).mpr ((hagx.mem_positions_iff (Nat.le_refl i)).mp hi.1)
    exact Nat.le_antisymm hij (hj.2 hmem)
  · have hmem : j ∈ positions P.key xs t :=
      (hagx.mem_positions_iff hji).mpr ((hagy.mem_positions_iff (Nat.le_refl j)).mp hj.1)
    exact Nat.le_antisymm (hi.2 hmem) hji

end Replicas

theorem Ascending.rising {α : Type} {key : α → Nat} {xs : List α} (h : Ascending key xs) :
    Rising key xs := by
  unfold Rising
  rw [List.pairwise_iff_getElem]
  intro i j hi hj hij
  rw [List.length_map] at hi hj
  rw [List.getElem_map, List.getElem_map]
  exact h i j _ _ (Nat.le_of_lt hij) (List.getElem?_eq_getElem hi) (List.getElem?_eq_getElem hj)

end Lib
end OrcDb
