import Mathlib

/-!
# Runs of a labelled transition function

A system is a partial function `step : σ → α → Option σ`: the label resolves every choice.
`Runs step P s tr s'` is a finite run from `s` to `s'`. Its trace `tr` lists every step
taken, as the state it was taken in and its label, and each of them is allowed by `P` — the
way to say "runs in which a certain kind of step does not happen".

Five rules. `Runs.invariant` is the usual one, `Runs.history` its form for a property that
also looks at the steps taken so far, `Runs.monotone` the one for a relation between the two
ends. `Runs.exact` says of a condition on steps that it is exactly what keeps
a property alive along the run. `Runs.ghost` carries an auxiliary value along: the invariant relates
the state to a ghost, every step finds the next ghost, and the ghosts only grow. It is how a
proof speaks of the past of a run without the system having to remember it.
-/

set_option autoImplicit false

namespace OrcDb
namespace Lib

variable {σ α γ : Type}

inductive Runs (step : σ → α → Option σ) (P : σ → α → Prop) : σ → List (σ × α) → σ → Prop
  | refl (s : σ) : Runs step P s [] s
  | tail {s s' s'' : σ} {tr : List (σ × α)} {a : α} (run : Runs step P s tr s') (ok : P s' a)
      (last : step s' a = some s'') : Runs step P s (tr ++ [(s', a)]) s''

namespace Runs

variable {step : σ → α → Option σ} {P Q : σ → α → Prop}
variable {s s' s'' : σ} {tr tr' : List (σ × α)}

theorem trans (h : Runs step P s tr s') (h' : Runs step P s' tr' s'') :
    Runs step P s (tr ++ tr') s'' := by
  induction h' with
  | refl => simpa using h
  | tail _ ok last ih => rw [← List.append_assoc]; exact .tail ih ok last

/-- A run under a stronger restriction is a run under a weaker one. -/
theorem mono (hPQ : ∀ s a, P s a → Q s a) (h : Runs step P s tr s') : Runs step Q s tr s' := by
  induction h with
  | refl => exact .refl _
  | tail _ ok last ih => exact .tail ih (hPQ _ _ ok) last

theorem allowed (h : Runs step P s tr s') : ∀ p ∈ tr, P p.1 p.2 := by
  induction h with
  | refl => exact fun _ hp => absurd hp (by simp)
  | tail _ ok last ih =>
    intro p hp
    rcases List.mem_append.mp hp with hp | hp
    · exact ih p hp
    · rw [List.mem_singleton.mp hp]
      exact ok

/-- What every step preserves, every run preserves. -/
theorem invariant {I : σ → Prop}
    (hstep : ∀ s a s', I s → P s a → step s a = some s' → I s')
    (h : Runs step P s tr s') (hs : I s) : I s' := by
  induction h with
  | refl => exact hs
  | tail _ ok last ih => exact hstep _ _ _ ih ok last

/-- The same for a property of the state and the steps that led to it. -/
theorem history {I : List (σ × α) → σ → Prop}
    (hstep : ∀ tr s a s', I tr s → P s a → step s a = some s' → I (tr ++ [(s, a)]) s')
    (h : Runs step P s tr s') (hs : I [] s) : I tr s' := by
  induction h with
  | refl => exact hs
  | tail _ ok last ih => exact hstep _ _ _ _ ih ok last

/-- A preorder that every step respects, a run respects. -/
theorem monotone {I : σ → Prop} {R : σ → σ → Prop} (hrefl : ∀ s, R s s)
    (htrans : ∀ s s' s'', R s s' → R s' s'' → R s s'')
    (hstep : ∀ s a s', I s → P s a → step s a = some s' → I s' ∧ R s s')
    (h : Runs step P s tr s') (hs : I s) : R s s' := by
  suffices hboth : I s' ∧ R s s' from hboth.2
  induction h with
  | refl => exact ⟨hs, hrefl _⟩
  | tail _ ok last ih =>
    obtain ⟨hi, hr⟩ := ih
    obtain ⟨hi', hr'⟩ := hstep _ _ _ hi ok last
    exact ⟨hi', htrans _ _ _ hr hr'⟩

/-- A property `Q` holds throughout a run exactly if every step meets the condition `C`, when
    `C` decides at each step whether `Q` survives; `I` is what `C` maintains besides. -/
theorem exact {I Q : σ → Prop} {C : σ → α → Prop}
    (hstep : ∀ s a s', I s → Q s → P s a → step s a = some s' →
      (C s a ↔ Q s') ∧ (C s a → I s'))
    (h : Runs step P s tr s') (hi : I s) (hq : Q s) :
    ((∀ p ∈ tr, Q p.1) ∧ Q s') ↔ ∀ p ∈ tr, C p.1 p.2 := by
  suffices hboth : (((∀ p ∈ tr, Q p.1) ∧ Q s') ↔ ∀ p ∈ tr, C p.1 p.2) ∧
      ((∀ p ∈ tr, C p.1 p.2) → I s') from hboth.1
  induction h with
  | refl => exact ⟨by simp [hq], fun _ => hi⟩
  | @tail s₁ s₂ tr₁ a run ok last ih =>
    obtain ⟨hiff, hinv⟩ := ih
    have hsplit : ∀ {R : σ × α → Prop}, (∀ p ∈ tr₁ ++ [(s₁, a)], R p) ↔
        (∀ p ∈ tr₁, R p) ∧ R (s₁, a) := by
      intro R
      simp [or_imp, forall_and]
    rw [hsplit, hsplit]
    refine ⟨⟨?_, ?_⟩, ?_⟩
    · rintro ⟨⟨hall, hlast⟩, hnext⟩
      have hC := hiff.mp ⟨hall, hlast⟩
      exact ⟨hC, (hstep _ _ _ (hinv hC) hlast ok last).1.mpr hnext⟩
    · rintro ⟨hC, hlast⟩
      obtain ⟨hall, hQ⟩ := hiff.mpr hC
      exact ⟨⟨hall, hQ⟩, (hstep _ _ _ (hinv hC) hQ ok last).1.mp hlast⟩
    · rintro ⟨hC, hlast⟩
      exact (hstep _ _ _ (hinv hC) (hiff.mpr hC).2 ok last).2 hlast

/-- The invariant rule with a ghost that grows along the run. -/
theorem ghost [Preorder γ] {I : σ → γ → Prop}
    (hstep : ∀ s a s' g, I s g → P s a → step s a = some s' → ∃ g', g ≤ g' ∧ I s' g')
    (h : Runs step P s tr s') {g : γ} (hs : I s g) : ∃ g', g ≤ g' ∧ I s' g' := by
  induction h with
  | refl => exact ⟨g, le_refl g, hs⟩
  | tail _ ok last ih =>
    obtain ⟨g₁, hle, hi⟩ := ih
    obtain ⟨g₂, hle', hi'⟩ := hstep _ _ _ _ hi ok last
    exact ⟨g₂, le_trans hle hle', hi'⟩

/-- A step of a run splits it into the run before, the step, and the run after. -/
theorem split {x : σ} {a : α} (h : Runs step P s tr s') (hx : (x, a) ∈ tr) :
    ∃ tr₁ x' tr₂, Runs step P s tr₁ x ∧ P x a ∧ step x a = some x' ∧ Runs step P x' tr₂ s' := by
  induction h with
  | refl => exact absurd hx (by simp)
  | tail run ok last ih =>
    rcases List.mem_append.mp hx with hmem | hmem
    · obtain ⟨tr₁, x', tr₂, h₁, hok, hstep, h₂⟩ := ih hmem
      exact ⟨tr₁, x', _, h₁, hok, hstep, .tail h₂ ok last⟩
    · simp only [List.mem_singleton, Prod.mk.injEq] at hmem
      obtain ⟨rfl, rfl⟩ := hmem
      exact ⟨_, _, [], run, ok, last, .refl _⟩

/-- Of two steps of one run, one state was reached from the other. -/
theorem ordered {x y : σ} {a b : α} (h : Runs step P s tr s') (hx : (x, a) ∈ tr)
    (hy : (y, b) ∈ tr) : (∃ tr', Runs step P x tr' y) ∨ (∃ tr', Runs step P y tr' x) := by
  induction h with
  | refl => exact absurd hx (by simp)
  | tail run ok last ih =>
    rcases List.mem_append.mp hx with hx' | hx' <;> rcases List.mem_append.mp hy with hy' | hy'
    · exact ih hx' hy'
    · simp only [List.mem_singleton, Prod.mk.injEq] at hy'
      obtain ⟨rfl, rfl⟩ := hy'
      obtain ⟨_, _, tr₂, _, hok, hstep, h₂⟩ := run.split hx'
      exact Or.inl ⟨_, (Runs.tail (.refl x) hok hstep).trans h₂⟩
    · simp only [List.mem_singleton, Prod.mk.injEq] at hx'
      obtain ⟨rfl, rfl⟩ := hx'
      obtain ⟨_, _, tr₂, _, hok, hstep, h₂⟩ := run.split hy'
      exact Or.inr ⟨_, (Runs.tail (.refl y) hok hstep).trans h₂⟩
    · simp only [List.mem_singleton, Prod.mk.injEq] at hx' hy'
      obtain ⟨rfl, rfl⟩ := hx'
      obtain ⟨rfl, rfl⟩ := hy'
      exact Or.inl ⟨[], .refl _⟩

end Runs

/-! ## Executing a list of labels -/

section Exec

variable (step : σ → α → Option σ) (P : σ → α → Prop) [∀ s a, Decidable (P s a)]

/-- Take the steps one after the other; `none` when one of them is not possible or not
    allowed. -/
def exec : σ → List α → Option σ
  | s, [] => some s
  | s, a :: as => if P s a then (step s a).bind fun s' => exec s' as else none

/-- The trace of that execution. -/
def traceOf : σ → List α → List (σ × α)
  | _, [] => []
  | s, a :: as => (s, a) :: (match step s a with
      | some s' => traceOf s' as
      | none => [])

variable {step P} {s s' : σ} {as : List α}

theorem exec_cons {a : α} (h : exec step P s (a :: as) = some s') :
    P s a ∧ ∃ s₁, step s a = some s₁ ∧ exec step P s₁ as = some s' := by
  simp only [exec] at h
  split at h
  · rename_i ok
    obtain ⟨s₁, hs₁, h⟩ := Option.bind_eq_some_iff.mp h
    exact ⟨ok, s₁, hs₁, h⟩
  · exact absurd h (by simp)

theorem runs_of_exec (h : exec step P s as = some s') :
    Runs step P s (traceOf step s as) s' := by
  induction as generalizing s with
  | nil =>
    cases h
    exact .refl _
  | cons a as ih =>
    obtain ⟨ok, s₁, hs₁, h⟩ := exec_cons h
    simp only [traceOf, hs₁]
    exact (Runs.tail (.refl s) ok hs₁).trans (ih h)

theorem map_snd_traceOf (h : exec step P s as = some s') :
    (traceOf step s as).map Prod.snd = as := by
  induction as generalizing s with
  | nil => rfl
  | cons a as ih =>
    obtain ⟨-, s₁, hs₁, h⟩ := exec_cons h
    simp only [traceOf, hs₁, List.map_cons, ih h]

/-- The state after the first labels is in the trace, with the label that comes next. -/
theorem mem_traceOf (h : exec step P s as = some s') (a : α) (as' : List α) :
    (s', a) ∈ traceOf step s (as ++ a :: as') := by
  induction as generalizing s with
  | nil =>
    cases h
    simp [traceOf]
  | cons b as ih =>
    obtain ⟨-, s₁, hs₁, h⟩ := exec_cons h
    simp only [List.cons_append, traceOf, hs₁, List.mem_cons]
    exact Or.inr (ih h)

end Exec

end Lib
end OrcDb
