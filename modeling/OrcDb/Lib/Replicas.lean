import OrcDb.Lib.PrefixLog

/-!
# Replicated logs under elected leaders

The protocol without its network. Replicas have a term and a log; in a term at most one of
them is elected, and from then on the log of that term (`leaderLog t`) only grows. The other
replicas learn pieces of it, and acknowledge how far they have come (`ack t j`).

`Move` lists the six things a replica can do. There are no messages: a move reads the
history — the log a candidate stood with, the log of a term's leader — where an
implementation would read a packet, so a stale packet needs no case of its own.

Two results about every state the moves reach.

* `Logged.matching`: two logs that have the same term at one position agree up to it. Every
  log is a patchwork of leader logs (`Logged`).
* `Inv.chosen`: once a quorum has acknowledged position `n` of term `t`'s log, and the entry
  there is of term `t` itself, every later leader's log agrees with it up to `n`.

The induction for the second is over `Choosable t n`: a quorum each of whose members has
either acknowledged `n` or can still do so. It is implied by the quorum of acknowledgements
at any later time, and unlike that quorum it can only be lost, so the three facts of `Safe`
can be stated from the moment the entry exists.
-/

set_option autoImplicit false

namespace OrcDb
namespace Lib

/-- What the protocol is played with: entries know their term (`key`), every log starts with
    the same root entry, `Fits` is what an entry has to satisfy to stand at a position, and
    any two quorums meet. -/
structure Protocol (ι α : Type) where
  key : α → Nat
  root : α
  key_root : key root = 0
  Fits : Nat → α → Prop
  fits_root : Fits 0 root
  IsQuorum : Finset ι → Prop
  inter : ∀ Q Q', IsQuorum Q → IsQuorum Q' → ∃ j, j ∈ Q ∧ j ∈ Q'

structure Replicas (ι α : Type) where
  term : ι → Nat
  log : ι → List α
  /-- `voted t j i`: in term `t`, `j` voted for `i`. -/
  voted : Nat → ι → ι → Prop
  /-- The log a candidate stood with; empty when it did not stand. -/
  cand : Nat → ι → List α
  leader : Nat → Option ι
  leaderLog : Nat → List α
  /-- How far `j` has acknowledged the log of term `t`. -/
  ack : Nat → ι → Nat

/-- The last position of a log and the term there. -/
def LastIs {α : Type} (key : α → Nat) (xs : List α) (m k : Nat) : Prop :=
  xs.length = m + 1 ∧ ∃ e, xs[m]? = some e ∧ key e = k

/-- Terms do not go down along a log. -/
def Ascending {α : Type} (key : α → Nat) (xs : List α) : Prop :=
  ∀ (k k' : Nat) (e e' : α), k ≤ k' → xs[k]? = some e → xs[k']? = some e' → key e ≤ key e'

namespace Replicas

variable {ι α : Type}

def init (P : Protocol ι α) : Replicas ι α where
  term := fun _ => 0
  log := fun _ => [P.root]
  voted := fun _ _ _ => False
  cand := fun _ _ => []
  leader := fun _ => none
  leaderLog := fun t => if t = 0 then [P.root] else []
  ack := fun _ _ => 0

section Moves

variable [DecidableEq ι] (P : Protocol ι α) (a : Replicas ι α) (i : ι)

def raise (t : Nat) : Replicas ι α :=
  { a with term := Function.update a.term i t }

def stand : Replicas ι α :=
  { a with
    term := Function.update a.term i (a.term i + 1)
    cand := fun t j => if t = a.term i + 1 ∧ j = i then a.log i else a.cand t j
    voted := fun t j x => a.voted t j x ∨ t = a.term i + 1 ∧ j = i ∧ x = i }

def vote (x : ι) : Replicas ι α :=
  { a with voted := fun t j y => a.voted t j y ∨ t = a.term i ∧ j = i ∧ y = x }

def lead : Replicas ι α :=
  { a with
    leader := Function.update a.leader (a.term i) (some i)
    leaderLog := Function.update a.leaderLog (a.term i) (a.log i)
    ack := fun t j => if t = a.term i ∧ j = i then (a.log i).length - 1 else a.ack t j }

def extend (e : α) : Replicas ι α :=
  { a with
    log := Function.update a.log i (a.log i ++ [e])
    leaderLog := Function.update a.leaderLog (a.term i) (a.log i ++ [e])
    ack := fun t j => if t = a.term i ∧ j = i then (a.log i).length else a.ack t j }

def accept (p : Nat) (batch : List α) : Replicas ι α :=
  { a with
    log := Function.update a.log i (merge P.key (a.log i) (p + 1) batch)
    ack := fun t j =>
      if t = a.term i ∧ j = i then max (a.ack t j) (p + batch.length) else a.ack t j }

end Moves

section Fields

variable [DecidableEq ι] (P : Protocol ι α) (a : Replicas ι α) (i : ι)

@[simp] theorem stand_term_self : (a.stand i).term i = a.term i + 1 := Function.update_self ..

@[simp] theorem stand_cand_self : (a.stand i).cand (a.term i + 1) i = a.log i :=
  if_pos ⟨rfl, rfl⟩

@[simp] theorem lead_leader_self : (a.lead i).leader (a.term i) = some i :=
  Function.update_self ..

@[simp] theorem lead_leaderLog_self : (a.lead i).leaderLog (a.term i) = a.log i :=
  Function.update_self ..

@[simp] theorem lead_ack_self : (a.lead i).ack (a.term i) i = (a.log i).length - 1 :=
  if_pos ⟨rfl, rfl⟩

@[simp] theorem extend_log_self (e : α) : (a.extend i e).log i = a.log i ++ [e] :=
  Function.update_self ..

@[simp] theorem extend_leaderLog_self (e : α) :
    (a.extend i e).leaderLog (a.term i) = a.log i ++ [e] :=
  Function.update_self ..

@[simp] theorem extend_ack_self (e : α) : (a.extend i e).ack (a.term i) i = (a.log i).length :=
  if_pos ⟨rfl, rfl⟩

@[simp] theorem accept_log_self (p : Nat) (batch : List α) :
    (a.accept P i p batch).log i = merge P.key (a.log i) (p + 1) batch :=
  Function.update_self ..

@[simp] theorem accept_ack_self (p : Nat) (batch : List α) :
    (a.accept P i p batch).ack (a.term i) i = max (a.ack (a.term i) i) (p + batch.length) :=
  if_pos ⟨rfl, rfl⟩

variable {i}

theorem lead_leader_of_ne {t : Nat} (h : t ≠ a.term i) : (a.lead i).leader t = a.leader t :=
  Function.update_of_ne h _ _

theorem lead_leaderLog_of_ne {t : Nat} (h : t ≠ a.term i) :
    (a.lead i).leaderLog t = a.leaderLog t :=
  Function.update_of_ne h _ _

theorem extend_log_of_ne (e : α) {j : ι} (h : j ≠ i) : (a.extend i e).log j = a.log j :=
  Function.update_of_ne h _ _

theorem extend_leaderLog_of_ne (e : α) {t : Nat} (h : t ≠ a.term i) :
    (a.extend i e).leaderLog t = a.leaderLog t :=
  Function.update_of_ne h _ _

theorem accept_log_of_ne (p : Nat) (batch : List α) {j : ι} (h : j ≠ i) :
    (a.accept P i p batch).log j = a.log j :=
  Function.update_of_ne h _ _

end Fields

/-- What replica `i` can do. -/
inductive Move [DecidableEq ι] (P : Protocol ι α) (i : ι) : Replicas ι α → Replicas ι α → Prop
  | raise {a : Replicas ι α} {t : Nat} (up : a.term i ≤ t) : Move P i a (a.raise i t)
  | stand {a : Replicas ι α} : Move P i a (a.stand i)
  /-- A vote goes to a candidate whose log is at least as good, one candidate per term. -/
  | vote {a : Replicas ι α} {x : ι} {m k m' k' : Nat}
      (free : ∀ y, a.voted (a.term i) i y → y = x)
      (mine : LastIs P.key (a.log i) m k) (theirs : LastIs P.key (a.cand (a.term i) x) m' k')
      (better : k < k' ∨ k = k' ∧ m ≤ m') : Move P i a (a.vote i x)
  | lead {a : Replicas ι α} {Q : Finset ι} (quorum : P.IsQuorum Q)
      (votes : ∀ j ∈ Q, a.voted (a.term i) j i) (vacant : a.leader (a.term i) = none)
      (same : a.log i = a.cand (a.term i) i) : Move P i a (a.lead i)
  | extend {a : Replicas ι α} {e : α} (leads : a.leader (a.term i) = some i)
      (key : P.key e = a.term i) (fits : P.Fits (a.log i).length e) : Move P i a (a.extend i e)
  /-- A piece of the current leader's log, behind a position where the terms match. -/
  | accept {a : Replicas ι α} {x : ι} {p : Nat} {batch : List α} {e e' : α}
      (leader : a.leader (a.term i) = some x) (other : x ≠ i)
      (mine : (a.log i)[p]? = some e) (theirs : (a.leaderLog (a.term i))[p]? = some e')
      (match_ : P.key e = P.key e') (piece : PieceOf (a.leaderLog (a.term i)) (p + 1) batch) :
      Move P i a (a.accept P i p batch)

/-! ## History only grows -/

structure Grows (a a' : Replicas ι α) : Prop where
  term : ∀ i, a.term i ≤ a'.term i
  voted : ∀ t j i, a.voted t j i → a'.voted t j i
  cand : ∀ t i, a.cand t i ≠ [] → a'.cand t i = a.cand t i
  leader : ∀ t i, a.leader t = some i → a'.leader t = some i
  leaderLog : ∀ t, a.leaderLog t <+: a'.leaderLog t
  ack : ∀ t j, a.ack t j ≤ a'.ack t j

instance : Preorder (Replicas ι α) where
  le := Grows
  le_refl _ := ⟨fun _ => Nat.le_refl _, fun _ _ _ h => h, fun _ _ _ => rfl, fun _ _ h => h,
    fun _ => List.prefix_rfl, fun _ _ => Nat.le_refl _⟩
  le_trans _ _ _ h h' :=
    { term := fun i => Nat.le_trans (h.term i) (h'.term i)
      voted := fun t j i hv => h'.voted t j i (h.voted t j i hv)
      cand := fun t i hne => by
        have := h.cand t i hne
        rw [← this] at hne ⊢
        exact h'.cand t i hne
      leader := fun t i hl => h'.leader t i (h.leader t i hl)
      leaderLog := fun t => (h.leaderLog t).trans (h'.leaderLog t)
      ack := fun t j => Nat.le_trans (h.ack t j) (h'.ack t j) }

/-! ## The invariant -/

variable (P : Protocol ι α)

/-- A patchwork of leader logs: up to any of its entries, the log is the one of the leader
    of that entry's term. -/
def Logged (a : Replicas ι α) (xs : List α) : Prop :=
  xs ≠ [] ∧ ∀ (k : Nat) (e : α), xs[k]? = some e → AgreeUpTo xs (a.leaderLog (P.key e)) k

/-- Position `n` of term `t`'s log holds an entry made in term `t`. -/
def Own (a : Replicas ι α) (t n : Nat) : Prop :=
  ∃ e, (a.leaderLog t)[n]? = some e ∧ P.key e = t

/-- Nothing rules out yet that a quorum acknowledges position `n` of term `t`'s log. -/
def Choosable (a : Replicas ι α) (t n : Nat) : Prop :=
  ∃ Q, P.IsQuorum Q ∧ ∀ q ∈ Q, n ≤ a.ack t q ∨ a.term q ≤ t

/-- A quorum has acknowledged an entry of the leader's own term. -/
def Chosen (a : Replicas ι α) (t n : Nat) : Prop :=
  Own P a t n ∧ ∃ Q, P.IsQuorum Q ∧ ∀ q ∈ Q, n ≤ a.ack t q

/-- What the log of term `t` looks like by itself. -/
structure TermLog (t : Nat) (xs : List α) : Prop where
  head : ∀ x, xs[0]? = some x → x = P.root
  fits : ∀ (k : Nat) (e : α), xs[k]? = some e → P.Fits k e
  ascending : Ascending P.key xs
  key_le : ∀ (k : Nat) (e : α), xs[k]? = some e → P.key e ≤ t

structure Shape (a : Replicas ι α) : Prop where
  base_log : a.leaderLog 0 = [P.root]
  base_leader : a.leader 0 = none
  vacant : ∀ t, t ≠ 0 → a.leader t = none → a.leaderLog t = []
  termLog : ∀ t, TermLog P t (a.leaderLog t)
  log : ∀ i, Logged P a (a.log i)
  log_key : ∀ (i : ι) (k : Nat) (e : α), (a.log i)[k]? = some e → P.key e ≤ a.term i
  leaderLog : ∀ t i, a.leader t = some i → Logged P a (a.leaderLog t)
  cand : ∀ t i, a.cand t i ≠ [] → Logged P a (a.cand t i) ∧ t ≤ a.term i
  cand_key : ∀ (t : Nat) (i : ι) (k : Nat) (e : α), (a.cand t i)[k]? = some e → P.key e < t
  voted : ∀ t j i, a.voted t j i → t ≤ a.term j ∧ a.cand t i ≠ []
  one_vote : ∀ t j i i', a.voted t j i → a.voted t j i' → i = i'
  elected : ∀ t i, a.leader t = some i → ∃ Q, P.IsQuorum Q ∧ ∀ j ∈ Q, a.voted t j i
  leading : ∀ i, a.leader (a.term i) = some i → a.log i = a.leaderLog (a.term i)
  ack_lt : ∀ t j, a.ack t j = 0 ∨ a.ack t j < (a.leaderLog t).length
  ack_term : ∀ t j, 0 < a.ack t j → t ≤ a.term j
  ack_self : ∀ t i, a.leader t = some i → a.ack t i + 1 = (a.leaderLog t).length

/-- The safety argument: what may still be chosen is in the log of everyone who acknowledged
    it, in the log of every later candidate such a replica voted for, and in the log of every
    later leader. -/
structure Safe (a : Replicas ι α) : Prop where
  log : ∀ t n j, n ≤ a.ack t j → Own P a t n → Choosable P a t n →
    AgreeUpTo (a.log j) (a.leaderLog t) n
  cand : ∀ t n t' j i, a.voted t' j i → t < t' → n ≤ a.ack t j → Own P a t n →
    Choosable P a t n → AgreeUpTo (a.cand t' i) (a.leaderLog t) n
  leaderLog : ∀ t n t' i, a.leader t' = some i → t < t' → Own P a t n → Choosable P a t n →
    AgreeUpTo (a.leaderLog t') (a.leaderLog t) n

structure Inv (a : Replicas ι α) : Prop where
  shape : Shape P a
  safe : Safe P a

variable {P} {a a' : Replicas ι α}

/-! ### Logs -/

theorem Logged.matching {xs ys : List α} (hx : Logged P a xs) (hy : Logged P a ys) :
    Matching P.key xs ys := by
  intro k x y hxk hyk hkey
  have h₁ := hx.2 k x hxk
  have h₂ := hy.2 k y hyk
  rw [← hkey] at h₂
  exact h₁.trans h₂.symm

theorem Logged.mono (hg : a ≤ a') {xs : List α} (h : Logged P a xs) : Logged P a' xs := by
  refine ⟨h.1, fun k e he => ?_⟩
  have hag := h.2 k e he
  exact hag.lengthen (hag.length_lt (List.getElem?_eq_some_iff.mp he).1) (hg.leaderLog _)

theorem Logged.take {xs : List α} (h : Logged P a xs) {n : Nat} (hn : 0 < n) :
    Logged P a (xs.take n) := by
  refine ⟨?_, fun k e he => ?_⟩
  · rw [Ne, List.take_eq_nil_iff]
    rintro (h0 | h0)
    · omega
    · exact h.1 h0
  · have hk : k < n := by
      have := (List.getElem?_eq_some_iff.mp he).1
      rw [List.length_take] at this
      omega
    rw [List.getElem?_take_of_lt hk] at he
    exact (AgreeUpTo.of_take xs hk).trans (h.2 k e he)

theorem getElem?_concat_iff {xs : List α} {e x : α} {k : Nat} :
    (xs ++ [e])[k]? = some x ↔ xs[k]? = some x ∨ k = xs.length ∧ x = e := by
  rcases Nat.lt_trichotomy k xs.length with hlt | rfl | hgt
  · rw [List.getElem?_append_left hlt]
    exact ⟨Or.inl, fun h => h.resolve_right (fun h' => by omega)⟩
  · rw [List.getElem?_concat_length, List.getElem?_eq_none (Nat.le_refl _)]
    simp [eq_comm]
  · rw [List.getElem?_eq_none (by simp; omega), List.getElem?_eq_none (by omega)]
    constructor
    · intro h; exact absurd h (by simp)
    · rintro (h | h)
      · exact absurd h (by simp)
      · omega

/-- One more entry, if the leader log of its term has just become this log. -/
theorem Logged.concat {xs : List α} {e : α} (h : Logged P a xs)
    (he : a.leaderLog (P.key e) = xs ++ [e]) : Logged P a (xs ++ [e]) := by
  refine ⟨by simp, fun k x hx => ?_⟩
  rcases getElem?_concat_iff.mp hx with hx | ⟨-, rfl⟩
  · exact ((h.2 k x hx).symm.append (List.getElem?_eq_some_iff.mp hx).1 [e]).symm
  · rw [he]
    exact AgreeUpTo.refl _ _

theorem TermLog.concat {t : Nat} {xs : List α} {e : α} (h : TermLog P t xs) (hne : xs ≠ [])
    (hfits : P.Fits xs.length e) (hkey : P.key e = t) : TermLog P t (xs ++ [e]) where
  head := fun x hx => by
    rw [List.getElem?_append_left (List.length_pos_iff.mpr hne)] at hx
    exact h.head x hx
  fits := fun k x hx => by
    rcases getElem?_concat_iff.mp hx with hold | ⟨rfl, rfl⟩
    · exact h.fits k x hold
    · exact hfits
  ascending := fun k k' x x' hle hx hx' => by
    rcases getElem?_concat_iff.mp hx with hold | ⟨hk, hxe⟩
    · rcases getElem?_concat_iff.mp hx' with hold' | ⟨-, hxe'⟩
      · exact h.ascending k k' x x' hle hold hold'
      · rw [hxe', hkey]
        exact h.key_le k x hold
    · rcases getElem?_concat_iff.mp hx' with hold' | ⟨-, hxe'⟩
      · have := (List.getElem?_eq_some_iff.mp hold').1
        omega
      · rw [hxe, hxe']
  key_le := fun k x hx => by
    rcases getElem?_concat_iff.mp hx with hold | ⟨-, rfl⟩
    · exact h.key_le k x hold
    · exact Nat.le_of_eq hkey

namespace Shape

variable (hs : Shape P a)
include hs

theorem head_of_logged {xs : List α} (h : Logged P a xs) : xs[0]? = some P.root := by
  cases hx : xs[0]? with
  | none =>
    rw [List.getElem?_eq_none_iff, Nat.le_zero, List.length_eq_zero_iff] at hx
    exact absurd hx h.1
  | some x =>
    have := h.2 0 x hx 0 (Nat.le_refl 0)
    rw [hx] at this
    rw [(hs.termLog _).head x this.symm]

theorem fits_of_logged {xs : List α} (h : Logged P a xs) {k : Nat} {e : α}
    (he : xs[k]? = some e) : P.Fits k e := by
  have := h.2 k e he k (Nat.le_refl k)
  rw [he] at this
  exact (hs.termLog _).fits k e this.symm

theorem ascending_of_logged {xs : List α} (h : Logged P a xs) : Ascending P.key xs := by
  intro k k' e e' hle he he'
  have hag := h.2 k' e' he'
  exact (hs.termLog _).ascending k k' e e' hle (by rw [← hag k hle]; exact he)
    (by rw [← hag k' (Nat.le_refl _)]; exact he')

theorem termLog_of_logged {xs : List α} (h : Logged P a xs) {t : Nat}
    (hk : ∀ (k : Nat) (e : α), xs[k]? = some e → P.key e ≤ t) : TermLog P t xs where
  head := fun x hx => by
    rw [hs.head_of_logged h] at hx
    exact (Option.some.inj hx).symm
  fits := fun _ _ => hs.fits_of_logged h
  ascending := hs.ascending_of_logged h
  key_le := hk

/-- Only the root has term 0. -/
theorem key_pos {xs : List α} (h : Logged P a xs) {k : Nat} {e : α} (he : xs[k]? = some e)
    (hk : 0 < k) : 0 < P.key e := by
  rcases Nat.eq_zero_or_pos (P.key e) with h0 | hpos
  · have hag := h.2 k e he k (Nat.le_refl k)
    rw [h0, hs.base_log, he, List.getElem?_eq_none (by simp; omega)] at hag
    exact absurd hag (by simp)
  · exact hpos

/-- The term of an entry somewhere in a log had a leader, or is the root's. -/
theorem leader_of_entry {xs : List α} (h : Logged P a xs) {k : Nat} {e : α}
    (he : xs[k]? = some e) (hpos : 0 < P.key e) : ∃ i, a.leader (P.key e) = some i := by
  cases hl : a.leader (P.key e) with
  | some i => exact ⟨i, rfl⟩
  | none =>
    have hag := h.2 k e he k (Nat.le_refl k)
    rw [hs.vacant _ (by omega) hl, he] at hag
    exact absurd hag (by simp)

theorem matching_leaderLog {t : Nat} {i j : ι} (h : a.leader t = some i) :
    Matching P.key (a.log j) (a.leaderLog t) :=
  (hs.log j).matching (hs.leaderLog t i h)

theorem term_pos {t : Nat} {i : ι} (h : a.leader t = some i) : 0 < t := by
  rcases Nat.eq_zero_or_pos t with h0 | hpos
  · rw [h0, hs.base_leader] at h
    exact absurd h (by simp)
  · exact hpos

theorem leader_term_le {t : Nat} {i : ι} (h : a.leader t = some i) : t ≤ a.term i := by
  obtain ⟨Q, hQ, hv⟩ := hs.elected t i h
  obtain ⟨j, hj, -⟩ := P.inter Q Q hQ hQ
  exact (hs.cand t i (hs.voted t j i (hv j hj)).2).2

/-- Two replicas elected in one term are one. -/
theorem leader_unique {t : Nat} {i j : ι} {Q : Finset ι} (h : a.leader t = some i)
    (hQ : P.IsQuorum Q) (hv : ∀ k ∈ Q, a.voted t k j) : i = j := by
  obtain ⟨Q', hQ', hv'⟩ := hs.elected t i h
  obtain ⟨k, hk, hk'⟩ := P.inter Q Q' hQ hQ'
  exact hs.one_vote t k i j (hv' k hk') (hv k hk)

end Shape

theorem Own.lt {t n : Nat} (h : Own P a t n) : n < (a.leaderLog t).length :=
  let ⟨_, he, _⟩ := h
  (List.getElem?_eq_some_iff.mp he).1

theorem Own.mono (hg : a ≤ a') {t n : Nat} (h : Own P a t n) : Own P a' t n := by
  obtain ⟨e, he, hk⟩ := h
  obtain ⟨zs, hz⟩ := hg.leaderLog t
  refine ⟨e, ?_, hk⟩
  rw [← hz, List.getElem?_append_left (List.getElem?_eq_some_iff.mp he).1]
  exact he

/-- Agreement with a leader's log outlives the growth of that log. -/
theorem Own.agree_mono (hg : a ≤ a') {xs : List α} {t n : Nat} (ho : Own P a t n)
    (h : AgreeUpTo xs (a.leaderLog t) n) : AgreeUpTo xs (a'.leaderLog t) n :=
  h.lengthen ho.lt (hg.leaderLog t)

theorem Chosen.mono (hg : a ≤ a') {t n : Nat} (h : Chosen P a t n) : Chosen P a' t n := by
  obtain ⟨ho, Q, hQ, hq⟩ := h
  exact ⟨ho.mono hg, Q, hQ, fun q hm => Nat.le_trans (hq q hm) (hg.ack t q)⟩

/-! ## The results -/

/-- What was chosen in a term is in the log of every later leader, and of course in the
    leader's own. -/
theorem Inv.chosen (inv : Inv P a) {t n t' : Nat} {i : ι} (h : Chosen P a t n)
    (hl : a.leader t' = some i) (hle : t ≤ t') :
    AgreeUpTo (a.leaderLog t') (a.leaderLog t) n := by
  rcases Nat.lt_or_ge t t' with hlt | hge
  · obtain ⟨ho, Q, hQ, hq⟩ := h
    exact inv.safe.leaderLog t n t' i hl hlt ho ⟨Q, hQ, fun q hm => Or.inl (hq q hm)⟩
  · rw [Nat.le_antisymm hle hge]
    exact AgreeUpTo.refl _ _

/-- So two choices are about the same log. -/
theorem Inv.chosen_le (inv : Inv P a) {t n t' n' : Nat} (h : Chosen P a t n)
    (h' : Chosen P a t' n') (hle : t ≤ t') : AgreeUpTo (a.leaderLog t') (a.leaderLog t) n := by
  rcases Nat.lt_or_ge t t' with hlt | hge
  · cases hl : a.leader t' with
    | some i => exact inv.chosen h hl hle
    | none =>
      have := h'.1.lt
      rw [inv.shape.vacant t' (by omega) hl] at this
      exact absurd this (by simp)
  · rw [Nat.le_antisymm hle hge]
    exact AgreeUpTo.refl _ _

/-- A log at least as good as one that holds what may be chosen holds it too. -/
theorem Inv.agree_of_better (inv : Inv P a) {t n m k m' k' : Nat} {xs ys : List α}
    (hx : Logged P a xs) (hy : Logged P a ys) (hag : AgreeUpTo xs (a.leaderLog t) n)
    (ho : Own P a t n) (hc : Choosable P a t n) (mine : LastIs P.key xs m k)
    (theirs : LastIs P.key ys m' k') (better : k < k' ∨ k = k' ∧ m ≤ m') :
    AgreeUpTo ys (a.leaderLog t) n := by
  have hs := inv.shape
  obtain ⟨hlen, e, he, hek⟩ := mine
  obtain ⟨hlen', e', he', hek'⟩ := theirs
  obtain ⟨o, hot, hok⟩ := ho
  -- the entry of term `t` at `n` is in `xs`, so the last term of `xs` is at least `t`
  have hxn : xs[n]? = some o := (hag n (Nat.le_refl n)).trans hot
  have hnm : n ≤ m := by
    have := (List.getElem?_eq_some_iff.mp hxn).1
    omega
  have htk : t ≤ k := by
    rw [← hok, ← hek]
    exact hs.ascending_of_logged hx n m o e hnm hxn he
  have hlast := hy.2 m' e' he'
  rw [hek'] at hlast
  rcases Nat.lt_or_ge t k' with hlt | hge
  · -- a later leader's log, which agrees with `t`'s up to `n` and is past it at `m'`
    obtain ⟨i, hi⟩ := hs.leader_of_entry hy he' (by omega)
    rw [hek'] at hi
    have hlater := inv.safe.leaderLog t n k' i hi hlt ⟨o, hot, hok⟩ hc
    have hnm' : n ≤ m' := by
      by_contra hgt
      have h₁ : (a.leaderLog k')[m']? = some e' := (hlast m' (Nat.le_refl _)).symm.trans he'
      have h₂ : (a.leaderLog k')[n]? = some o := (hlater n (Nat.le_refl _)).trans hot
      have := (hs.termLog k').ascending m' n e' o (by omega) h₁ h₂
      omega
    exact (hlast.mono hnm').trans hlater
  · have hkt : k' = t := by omega
    subst hkt
    exact hlast.mono (by omega)

/-! ## The start -/

theorem inv_init (P : Protocol ι α) : Inv P (init P) := by
  have hroot : Logged P (init P) [P.root] := by
    refine ⟨by simp, fun k e he => ?_⟩
    cases k with
    | zero =>
      cases he
      simp only [init, P.key_root, if_true]
      exact AgreeUpTo.refl _ _
    | succ k => exact absurd he (by simp)
  have hone : ∀ (t k : Nat) (e : α), ((init P).leaderLog t)[k]? = some e →
      k = 0 ∧ t = 0 ∧ e = P.root := by
    intro t k e he
    simp only [init] at he
    split at he
    · cases k with
      | zero => cases he; exact ⟨rfl, by assumption, rfl⟩
      | succ k => exact absurd he (by simp)
    · exact absurd he (by simp)
  have hown : ∀ t n, Own P (init P) t n → t = 0 ∧ n = 0 := by
    rintro t n ⟨e, he, -⟩
    obtain ⟨hn, ht, -⟩ := hone t n e he
    exact ⟨ht, hn⟩
  have hnone : ∀ t i, (init P).leader t ≠ some i := fun _ _ h => absurd h (by simp [init])
  refine ⟨?_, ?_⟩
  · exact
      { base_log := by simp [init]
        base_leader := rfl
        vacant := fun t ht _ => by simp [init, ht]
        termLog := fun t =>
          { head := fun x hx => (hone t 0 x hx).2.2
            fits := fun k e he => by
              obtain ⟨rfl, -, rfl⟩ := hone t k e he
              exact P.fits_root
            ascending := fun k k' e e' _ he he' => by
              obtain ⟨-, -, rfl⟩ := hone t k e he
              obtain ⟨-, -, rfl⟩ := hone t k' e' he'
              exact Nat.le_refl _
            key_le := fun k e he => by
              obtain ⟨-, -, rfl⟩ := hone t k e he
              simp [P.key_root] }
        log := fun _ => hroot
        log_key := fun i k e he => by
          cases k with
          | zero => cases he; simp [P.key_root]
          | succ k => exact absurd he (by simp [init])
        leaderLog := fun t i h => absurd h (hnone t i)
        cand := fun t i h => absurd rfl h
        cand_key := fun t i k e he => absurd he (by simp [init])
        voted := fun t j i h => h.elim
        one_vote := fun t j i i' h => h.elim
        elected := fun t i h => absurd h (hnone t i)
        leading := fun i h => absurd h (hnone _ i)
        ack_lt := fun _ _ => Or.inl rfl
        ack_term := fun t j h => absurd h (by simp [init])
        ack_self := fun t i h => absurd h (hnone t i) }
  · exact
      { log := fun t n j _ ho _ => by
          obtain ⟨rfl, rfl⟩ := hown t n ho
          simp only [init, if_true]
          exact AgreeUpTo.refl _ _
        cand := fun t n t' j i h => h.elim
        leaderLog := fun t n t' i h => absurd h (hnone t' i) }

end Replicas
end Lib
end OrcDb
