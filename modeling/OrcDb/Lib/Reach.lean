import OrcDb.Lib.Run

/-!
# What a system can still do

`Can step P Q s`: some run from `s`, all of whose steps `P` allows, ends in a state with `Q`.
It is the possibility side of a transition system: where `Runs.invariant` says what no run
can do, the rules here put a run together that does something. `Can.descend` is the loop with
a measure, `Can.each` the loop over a list of things to be done, each of which leaves the
others done. `Can.carrying` brings along what every step preserves, so that the pieces of a
run need not be told again what holds in all of its states.
-/

set_option autoImplicit false

namespace OrcDb
namespace Lib

variable {σ α ι : Type} {step : σ → α → Option σ} {P : σ → α → Prop}

def Can (step : σ → α → Option σ) (P : σ → α → Prop) (Q : σ → Prop) (s : σ) : Prop :=
  ∃ tr s', Runs step P s tr s' ∧ Q s'

namespace Can

variable {Q R I : σ → Prop} {s s' : σ}

theorem now (h : Q s) : Can step P Q s := ⟨[], s, .refl s, h⟩

theorem mono (h : Can step P Q s) (hQR : ∀ s', Q s' → R s') : Can step P R s := by
  obtain ⟨tr, s', run, hQ⟩ := h
  exact ⟨tr, s', run, hQR s' hQ⟩

theorem bind (h : Can step P Q s) (next : ∀ s', Q s' → Can step P R s') : Can step P R s := by
  obtain ⟨tr, s', run, hQ⟩ := h
  obtain ⟨tr', s'', run', hR⟩ := next s' hQ
  exact ⟨tr ++ tr', s'', run.trans run', hR⟩

/-- First one step, then the rest. -/
theorem first {a : α} (ok : P s a) (h : step s a = some s') (next : Can step P Q s') :
    Can step P Q s := by
  obtain ⟨tr, s'', run, hQ⟩ := next
  exact ⟨[(s, a)] ++ tr, s'', (Runs.tail (.refl s) ok h).trans run, hQ⟩

/-- What every step preserves holds at the end, too. -/
theorem carrying (hstep : ∀ s a s', I s → P s a → step s a = some s' → I s') (hs : I s)
    (h : Can step P Q s) : Can step P (fun s' => I s' ∧ Q s') s := by
  obtain ⟨tr, s', run, hQ⟩ := h
  exact ⟨tr, s', run, run.invariant hstep hs, hQ⟩

/-- As long as the goal is not reached, something can be done that lowers the measure. -/
theorem descend (μ : σ → Nat)
    (progress : ∀ s, I s → ¬ Q s → Can step P (fun s' => I s' ∧ μ s' < μ s) s) (hs : I s) :
    Can step P (fun s' => I s' ∧ Q s') s := by
  induction hm : μ s using Nat.strong_induction_on generalizing s with
  | _ m ih =>
    by_cases hQ : Q s
    · exact .now ⟨hs, hQ⟩
    · apply (progress s hs hQ).bind
      rintro s' ⟨hs', hlt⟩
      exact ih (μ s') (by rw [← hm]; exact hlt) hs' rfl

/-- Each thing on the list can be done, and what is done stays done. -/
theorem each {D : ι → σ → Prop} {xs : List ι}
    (progress : ∀ x ∈ xs, ∀ s, I s →
      Can step P (fun s' => I s' ∧ D x s' ∧ ∀ y, D y s → D y s') s)
    (hs : I s) : Can step P (fun s' => I s' ∧ ∀ x ∈ xs, D x s') s := by
  induction xs with
  | nil => exact .now ⟨hs, fun _ hx => absurd hx (by simp)⟩
  | cons x xs ih =>
    apply (ih fun y hy => progress y (List.mem_cons_of_mem x hy)).bind
    rintro s₁ ⟨hs₁, hdone⟩
    apply (progress x List.mem_cons_self s₁ hs₁).mono
    rintro s₂ ⟨hs₂, hx, hkeep⟩
    refine ⟨hs₂, fun y hy => ?_⟩
    rcases List.mem_cons.mp hy with rfl | hy
    · exact hx
    · exact hkeep y (hdone y hy)

end Can
end Lib
end OrcDb
