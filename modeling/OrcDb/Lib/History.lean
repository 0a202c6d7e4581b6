import OrcDb.Lib.Run

/-!
# The states a run goes through

`visited tr s` are the states of a run, the last one included. What holds of each of them is
an invariant (`Runs.visited_invariant`), and what holds between any earlier and any later one is
a preorder that the steps respect (`Runs.visited_pairwise`).

`Runs.project` is for a system that contains another: if each of its steps is a step of the
smaller one or leaves it alone, its runs are runs of the smaller one.

`exists_longest`: lists that are prefixes of each other are prefixes of the longest.
-/

set_option autoImplicit false

namespace OrcDb
namespace Lib

variable {σ α τ β : Type}

def visited (tr : List (σ × α)) (s : σ) : List σ := tr.map Prod.fst ++ [s]

theorem mem_visited {tr : List (σ × α)} {s x : σ} :
    x ∈ visited tr s ↔ (∃ a, (x, a) ∈ tr) ∨ x = s := by
  simp [visited]

namespace Runs

variable {step : σ → α → Option σ} {P : σ → α → Prop} {s s' : σ} {tr : List (σ × α)}

theorem visited_invariant {I : σ → Prop}
    (hstep : ∀ s a s', I s → P s a → step s a = some s' → I s')
    (h : Runs step P s tr s') (hs : I s) : ∀ x ∈ visited tr s', I x := by
  induction h with
  | refl =>
    intro x hx
    rw [List.mem_singleton.mp hx]
    exact hs
  | @tail s₁ s₂ tr₁ a run ok last ih =>
    intro x hx
    rcases mem_visited.mp hx with ⟨b, hmem⟩ | rfl
    · rcases List.mem_append.mp hmem with hmem | hmem
      · exact ih x (mem_visited.mpr (Or.inl ⟨b, hmem⟩))
      · obtain ⟨rfl, rfl⟩ := Prod.mk.inj (List.mem_singleton.mp hmem)
        exact ih x (mem_visited.mpr (Or.inr rfl))
    · exact hstep _ _ _ (ih s₁ (mem_visited.mpr (Or.inr rfl))) ok last

theorem visited_pairwise {I : σ → Prop} {R : σ → σ → Prop} (hrefl : ∀ s, R s s)
    (htrans : ∀ s s' s'', R s s' → R s' s'' → R s s'')
    (hstep : ∀ s a s', I s → P s a → step s a = some s' → I s' ∧ R s s')
    (h : Runs step P s tr s') (hs : I s) :
    (visited tr s').Pairwise R ∧ ∀ x ∈ visited tr s', R x s' := by
  suffices hall : I s' ∧ (visited tr s').Pairwise R ∧ ∀ x ∈ visited tr s', R x s' from hall.2
  induction h with
  | refl =>
    refine ⟨hs, List.pairwise_singleton _ _, ?_⟩
    intro x hx
    rw [List.mem_singleton.mp hx]
    exact hrefl _
  | @tail s₁ s₂ tr₁ a run ok last ih =>
    obtain ⟨hi, hpair, hbound⟩ := ih
    obtain ⟨hi', hr⟩ := hstep _ _ _ hi ok last
    have heq : visited (tr₁ ++ [(s₁, a)]) s₂ = visited tr₁ s₁ ++ [s₂] := by simp [visited]
    have hbound' : ∀ x ∈ visited tr₁ s₁, R x s₂ := fun x hx => htrans _ _ _ (hbound x hx) hr
    rw [heq]
    refine ⟨hi', ?_, ?_⟩
    · apply List.pairwise_append.mpr
      refine ⟨hpair, List.pairwise_singleton _ _, ?_⟩
      intro x hx y hy
      rw [List.mem_singleton.mp hy]
      exact hbound' x hx
    · intro x hx
      rcases List.mem_append.mp hx with hx | hx
      · exact hbound' x hx
      · rw [List.mem_singleton.mp hx]
        exact hrefl s₂

theorem project {step' : τ → β → Option τ} {Q : τ → β → Prop} (f : σ → τ)
    (hstep : ∀ s a s', P s a → step s a = some s' →
      f s' = f s ∨ ∃ b, Q (f s) b ∧ step' (f s) b = some (f s'))
    (h : Runs step P s tr s') : ∃ tr', Runs step' Q (f s) tr' (f s') := by
  induction h with
  | refl => exact ⟨[], .refl _⟩
  | tail run ok last ih =>
    obtain ⟨tr', run'⟩ := ih
    rcases hstep _ _ _ ok last with heq | ⟨b, hok, hlast⟩
    · rw [heq]
      exact ⟨tr', run'⟩
    · exact ⟨_, .tail run' hok hlast⟩

end Runs

theorem exists_longest (xss : List (List α))
    (h : ∀ xs ∈ xss, ∀ ys ∈ xss, xs <+: ys ∨ ys <+: xs) :
    ∃ zs, (zs = [] ∨ zs ∈ xss) ∧ ∀ xs ∈ xss, xs <+: zs := by
  induction xss with
  | nil => exact ⟨[], Or.inl rfl, fun _ hx => absurd hx (by simp)⟩
  | cons xs xss ih =>
    obtain ⟨zs, hzs, hle⟩ := ih fun _ hx _ hy =>
      h _ (List.mem_cons_of_mem _ hx) _ (List.mem_cons_of_mem _ hy)
    have hcomp : xs <+: zs ∨ zs <+: xs := by
      rcases hzs with rfl | hmem
      · exact Or.inr List.nil_prefix
      · exact h _ List.mem_cons_self _ (List.mem_cons_of_mem _ hmem)
    rcases hcomp with hxz | hzx
    · refine ⟨zs, hzs.imp id (List.mem_cons_of_mem _), ?_⟩
      intro ys hys
      rcases List.mem_cons.mp hys with rfl | hys
      · exact hxz
      · exact hle ys hys
    · refine ⟨xs, Or.inr List.mem_cons_self, ?_⟩
      intro ys hys
      rcases List.mem_cons.mp hys with rfl | hys
      · exact List.prefix_rfl
      · exact (hle ys hys).trans hzx

end Lib
end OrcDb
