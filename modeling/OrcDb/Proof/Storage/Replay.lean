import OrcDb.Proof.Storage.Wal

/-!
# Replaying log entries

`Recover` keeps the entries it has read as a stack: an entry pops everything at or above its
index and is pushed. Two facts cover every use of that rule. Entries that come in above
everything read so far are simply appended (`foldl_of_below`); on a stack numbered from
`m` on, an entry keeps what is below its index (`apply_of_from`).
-/

set_option autoImplicit false

namespace OrcDb
namespace Proof

open Lib

variable {r : RecoveryResult} {e : RawLogEntry} {es : List RawLogEntry} {m : Nat}

/-- The entries of a batch have the indices `m`, `m + 1`, and so on. -/
def From (m : Nat) (es : List RawLogEntry) : Prop :=
  ∀ (k : Nat) (e : RawLogEntry), es[k]? = some e → e.index = m + k

theorem From.head (h : From m (e :: es)) : e.index = m := h 0 e rfl

theorem From.tail (h : From m (e :: es)) : From (m + 1) es := by
  intro k x hx
  rw [h (k + 1) x hx]
  omega

theorem From.take (h : From m es) (n : Nat) : From m (es.take n) := by
  intro k x hx
  rw [List.getElem?_take] at hx
  split at hx
  · exact h k x hx
  · exact absurd hx (by simp)

theorem From.append_right {es' : List RawLogEntry} (h : From m (es ++ es')) :
    From (m + es.length) es' := by
  intro k x hx
  have hx' : (es ++ es')[es.length + k]? = some x := by
    rw [List.getElem?_append_right (by omega), Nat.add_sub_cancel_left, hx]
  rw [h _ x hx', Nat.add_assoc]

theorem From.append_left {es' : List RawLogEntry} (h : From m (es ++ es')) : From m es := by
  have := h.take es.length
  rwa [List.take_left] at this

theorem From.lt (h : From m es) : ∀ x ∈ es, x.index < m + es.length := by
  intro x hx
  obtain ⟨k, hk⟩ := List.getElem?_of_mem hx
  have hlt := (List.getElem?_eq_some_iff.mp hk).1
  rw [h k x hk]
  omega

/-- An entry above everything read so far is pushed. -/
theorem apply_of_below (h : ∀ x ∈ r.entries, x.index < e.index) :
    (r.apply (.logEntry e)).entries = r.entries ++ [e] := by
  have hself : r.entries.rdropWhile (fun x => e.index ≤ x.index) = r.entries := by
    rw [List.rdropWhile_eq_self_iff]
    intro hne
    have := h _ (List.getLast_mem hne)
    simpa using this
  simp only [RecoveryResult.apply, hself]

/-- Entries that come in above everything read so far are appended. -/
theorem foldl_of_below (h : ∀ x ∈ r.entries, x.index < m) (hes : From m es) :
    ((es.map WalRecord.logEntry).foldl RecoveryResult.apply r).entries = r.entries ++ es := by
  induction es generalizing r m with
  | nil => simp
  | cons e es ih =>
    have hpush : (r.apply (.logEntry e)).entries = r.entries ++ [e] := by
      apply apply_of_below
      intro x hx
      rw [hes.head]
      exact h x hx
    rw [List.map_cons, List.foldl_cons, @ih (r.apply (.logEntry e)) (m + 1) ?_ hes.tail, hpush,
      List.append_assoc]
    · rfl
    · intro x hx
      rw [hpush] at hx
      rcases List.mem_append.mp hx with hx | hx
      · exact Nat.lt_succ_of_lt (h x hx)
      · rw [List.mem_singleton.mp hx, hes.head]
        exact Nat.lt_succ_self m

/-- On entries numbered from `m` on, an entry keeps those below its index. -/
theorem apply_of_from (h : From m r.entries) :
    (r.apply (.logEntry e)).entries = r.entries.take (e.index - m) ++ [e] := by
  have hcut : r.entries.rdropWhile (fun x => e.index ≤ x.index) =
      r.entries.take (e.index - m) := by
    have hpos : ∀ x ∈ (r.entries.drop (e.index - m)).reverse,
        decide (e.index ≤ x.index) = true := by
      intro x hx
      obtain ⟨k, hk⟩ := List.getElem?_of_mem (List.mem_reverse.mp hx)
      rw [List.getElem?_drop] at hk
      have := h _ x hk
      exact decide_eq_true (by omega)
    have hneg : (r.entries.take (e.index - m)).rdropWhile (fun x => e.index ≤ x.index) =
        r.entries.take (e.index - m) := by
      rw [List.rdropWhile_eq_self_iff]
      intro hne
      have hmem := List.getLast_mem hne
      have hlt := (h.take (e.index - m)).lt _ hmem
      rw [List.length_take] at hlt
      have hpos' := List.length_pos_of_ne_nil hne
      rw [List.length_take] at hpos'
      simp only [decide_eq_true_eq, Nat.not_le]
      omega
    conv => lhs; rw [← List.take_append_drop (e.index - m) r.entries]
    rw [List.rdropWhile, List.reverse_append, List.dropWhile_append_of_pos hpos]
    exact hneg
  simp only [RecoveryResult.apply, hcut]

/-- What `Recover` returns was written. -/
theorem mem_of_foldl {rs : List WalRecord} {x : RawLogEntry}
    (h : x ∈ (rs.foldl RecoveryResult.apply r).entries) :
    x ∈ r.entries ∨ WalRecord.logEntry x ∈ rs := by
  induction rs generalizing r with
  | nil => exact Or.inl h
  | cons rec rs ih =>
    rcases ih h with h | h
    · cases rec with
      | logEntry e =>
        simp only [RecoveryResult.apply] at h
        have hkept := List.rdropWhile_prefix (fun x => decide (e.index ≤ x.index)) r.entries
        rcases List.mem_append.mp h with h | h
        · exact Or.inl (hkept.subset h)
        · rw [List.mem_singleton.mp h]
          exact Or.inr List.mem_cons_self
      | hardState hs => exact Or.inl h
      | snapshot i t d => exact absurd h (by simp [RecoveryResult.apply])
    · exact Or.inr (List.mem_cons_of_mem _ h)

theorem mem_of_replay {rs : List WalRecord} {x : RawLogEntry} (h : x ∈ (replay rs).entries) :
    WalRecord.logEntry x ∈ rs :=
  (mem_of_foldl h).resolve_left (by simp)

/-- An entry stays as long as only higher indices and no snapshots follow. -/
theorem mem_foldl_of_above {rs : List WalRecord} {x : RawLogEntry} (hx : x ∈ r.entries)
    (habove : ∀ e, WalRecord.logEntry e ∈ rs → x.index < e.index)
    (hsnap : ∀ i t d, WalRecord.snapshot i t d ∉ rs) :
    x ∈ (rs.foldl RecoveryResult.apply r).entries := by
  induction rs generalizing r with
  | nil => exact hx
  | cons rec rs ih =>
    refine ih ?_ (fun e he => habove e (List.mem_cons_of_mem _ he))
      (fun i t d h => hsnap i t d (List.mem_cons_of_mem _ h))
    cases rec with
    | logEntry e =>
      have hlt := habove e List.mem_cons_self
      have hmem : x ∈ r.entries.reverse := List.mem_reverse.mpr hx
      have hsplit := @List.takeWhile_append_dropWhile RawLogEntry
        (fun x => decide (e.index ≤ x.index)) r.entries.reverse
      rw [← hsplit] at hmem
      refine List.mem_append_left _ (List.mem_reverse.mpr ?_)
      rcases List.mem_append.mp hmem with hdrop | hkeep
      · have := List.mem_takeWhile_imp hdrop
        exact absurd (of_decide_eq_true this) (Nat.not_le.mpr hlt)
      · exact hkeep
    | hardState hs => exact hx
    | snapshot i t d => exact absurd List.mem_cons_self (hsnap i t d)

/-- **Replaying a batch** over entries numbered from `m₀` on keeps those in front of it. -/
theorem foldl_of_from {m₀ : Nat} (h : From m₀ r.entries) (hes : From m es) (hne : es ≠ []) :
    ((es.map WalRecord.logEntry).foldl RecoveryResult.apply r).entries =
      r.entries.take (m - m₀) ++ es := by
  cases es with
  | nil => exact absurd rfl hne
  | cons e es =>
    have hpush := @apply_of_from r e m₀ h
    rw [hes.head] at hpush
    rw [List.map_cons, List.foldl_cons, foldl_of_below ?_ hes.tail, hpush, List.append_assoc]
    · rfl
    · intro x hx
      rw [hpush] at hx
      rcases List.mem_append.mp hx with hx | hx
      · have hlt := (h.take (m - m₀)).lt x hx
        obtain ⟨k, hk⟩ := List.getElem?_of_mem hx
        have hlen := (List.getElem?_eq_some_iff.mp hk).1
        rw [List.length_take] at hlt hlen
        omega
      · rw [List.mem_singleton.mp hx, hes.head]
        exact Nat.lt_succ_self m

end Proof
end OrcDb
