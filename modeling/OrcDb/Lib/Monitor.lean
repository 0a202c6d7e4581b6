import OrcDb.Lib.Run

/-!
# Sleeping on a condition

A state behind a mutex, sections that run with the mutex held, and threads that sleep until a
predicate of the state holds. To wait is to test the predicate with the mutex held and, if it
is false, to give up the mutex and fall asleep. For whoever needs the mutex this is one step.
For whoever does not it is two, and `holder` is the thread between them. A flag that is
cleared, and announced, without the mutex can fall between the two.

* `asleep_sound`: if every section that makes a condition true notifies those who sleep on it,
  nobody sleeps unnotified while the condition holds.
* `announce_missed`, `missed_unique`, `announce_missable`: an announcement made without the
  mutex is missed only by the thread that stands between its test and its sleep. There is at
  most one, and any thread can be it.
-/

set_option autoImplicit false

namespace OrcDb
namespace Lib

inductive Sleep where
  | awake
  | asleep
  /-- Notified, timed out or woken for no reason; the predicate is to be tested again. -/
  | woken
deriving DecidableEq

/-- How far the flag is: up, cleared, cleared and announced. -/
inductive FlagStage where
  | up
  | cleared
  | announced
deriving DecidableEq

structure Discipline (σ α ι : Type) where
  run : σ → α → Option σ
  /-- The thread that runs a section, if it is one that also sleeps. -/
  owner : α → Option ι
  /-- Whether a section notifies a sleeper. -/
  notifies : σ → α → ι → Bool
  /-- What a sleeper waits for. -/
  pred : ι → σ → Bool
  /-- Whether its predicate also looks at the flag. -/
  heeds : ι → Bool

structure Monitor (σ ι : Type) where
  data : σ
  sleep : ι → Sleep := fun _ => .awake
  holder : Option ι := none
  flag : FlagStage := .up

inductive MonitorEvent (α ι : Type) where
  | act (a : α)
  | test (i : ι)
  | block (i : ι)
  | wake (i : ι)
  | clear
  | announce

namespace Monitor

variable {σ α ι : Type} [DecidableEq ι]

/-- Those who sleep and are notified wake up. -/
def rouse (sleep : ι → Sleep) (notified : ι → Bool) : ι → Sleep := fun i =>
  if sleep i = .asleep ∧ notified i = true then .woken else sleep i

def step (D : Discipline σ α ι) (m : Monitor σ ι) : MonitorEvent α ι → Option (Monitor σ ι)
  | .act a =>
      if m.holder = none ∧ ∀ i ∈ D.owner a, m.sleep i ≠ .asleep then
        (D.run m.data a).map fun data =>
          { m with data, sleep := rouse m.sleep (D.notifies m.data a) }
      else none
  | .test i =>
      if m.holder = none ∧ m.sleep i ≠ .asleep then
        if D.pred i m.data ∨ D.heeds i ∧ m.flag ≠ .up then
          some { m with sleep := Function.update m.sleep i .awake }
        else some { m with sleep := Function.update m.sleep i .awake, holder := some i }
      else none
  | .block i =>
      if m.holder = some i then
        some { m with sleep := Function.update m.sleep i .asleep, holder := none }
      else none
  | .wake i =>
      if m.sleep i = .asleep then
        some { m with sleep := Function.update m.sleep i .woken }
      else none
  | .clear => if m.flag = .up then some { m with flag := .cleared } else none
  | .announce =>
      if m.flag = .cleared then
        some { m with flag := .announced, sleep := rouse m.sleep fun _ => true }
      else none

variable {D : Discipline σ α ι} {m m' : Monitor σ ι} {ev : MonitorEvent α ι}
  {tr : List (Monitor σ ι × MonitorEvent α ι)}

/-- What a step can do to the sleepers. -/
inductive Stepped (D : Discipline σ α ι) (m : Monitor σ ι) :
    MonitorEvent α ι → Monitor σ ι → Prop
  | act {a : α} {data : σ} (free : m.holder = none)
      (owner : ∀ i ∈ D.owner a, m.sleep i ≠ .asleep) (run : D.run m.data a = some data) :
      Stepped D m (.act a) { m with data, sleep := rouse m.sleep (D.notifies m.data a) }
  | pass {i : ι} (free : m.holder = none) (up : m.sleep i ≠ .asleep) :
      Stepped D m (.test i) { m with sleep := Function.update m.sleep i .awake }
  | fail {i : ι} (free : m.holder = none) (up : m.sleep i ≠ .asleep)
      (pred : D.pred i m.data = false) (flag : D.heeds i = true → m.flag = .up) :
      Stepped D m (.test i)
        { m with sleep := Function.update m.sleep i .awake, holder := some i }
  | block {i : ι} (holds : m.holder = some i) :
      Stepped D m (.block i)
        { m with sleep := Function.update m.sleep i .asleep, holder := none }
  | wake {i : ι} : Stepped D m (.wake i) { m with sleep := Function.update m.sleep i .woken }
  | clear (up : m.flag = .up) : Stepped D m .clear { m with flag := .cleared }
  | announce (cleared : m.flag = .cleared) :
      Stepped D m .announce { m with flag := .announced, sleep := rouse m.sleep fun _ => true }

theorem stepped (h : m.step D ev = some m') : Stepped D m ev m' := by
  cases ev with
  | act a =>
    simp only [step] at h
    split at h
    · rename_i hok
      obtain ⟨data, hrun, rfl⟩ := Option.map_eq_some_iff.mp h
      exact .act hok.1 hok.2 hrun
    · exact absurd h (by simp)
  | test i =>
    simp only [step] at h
    split at h
    · rename_i hok
      split at h
      · obtain rfl := Option.some.inj h
        exact .pass hok.1 hok.2
      · rename_i hpred
        obtain rfl := Option.some.inj h
        rw [not_or, Bool.not_eq_true] at hpred
        refine .fail hok.1 hok.2 hpred.1 fun hheeds => ?_
        by_contra hflag
        exact hpred.2 ⟨hheeds, hflag⟩
    · exact absurd h (by simp)
  | block i =>
    simp only [step] at h
    split at h
    · rename_i hok
      obtain rfl := Option.some.inj h
      exact .block hok
    · exact absurd h (by simp)
  | wake i =>
    simp only [step] at h
    split at h
    · obtain rfl := Option.some.inj h
      exact .wake
    · exact absurd h (by simp)
  | clear =>
    simp only [step] at h
    split at h
    · rename_i hok
      obtain rfl := Option.some.inj h
      exact .clear hok
    · exact absurd h (by simp)
  | announce =>
    simp only [step] at h
    split at h
    · rename_i hok
      obtain rfl := Option.some.inj h
      exact .announce hok
    · exact absurd h (by simp)

/-- The thread sleeps, or is about to. -/
def Resting (m : Monitor σ ι) (i : ι) : Prop := m.sleep i = .asleep ∨ m.holder = some i

omit [DecidableEq ι] in
theorem asleep_of_rouse {sleep : ι → Sleep} {notified : ι → Bool} {i : ι}
    (h : rouse sleep notified i = .asleep) : sleep i = .asleep ∧ notified i = false := by
  unfold rouse at h
  split at h
  · exact absurd h (by simp)
  · rename_i hn
    refine ⟨h, ?_⟩
    by_contra hnot
    exact hn ⟨h, by simpa using hnot⟩

theorem asleep_of_update {sleep : ι → Sleep} {i j : ι} {x : Sleep} (hx : x ≠ .asleep)
    (h : Function.update sleep j x i = .asleep) : sleep i = .asleep := by
  by_cases hij : i = j
  · subst hij
    rw [Function.update_self] at h
    exact absurd h hx
  · rw [Function.update_of_ne hij] at h
    exact h

/-- How a thread comes to rest, or goes on resting, in a step. -/
inductive Rests (D : Discipline σ α ι) (m : Monitor σ ι) (i : ι) :
    MonitorEvent α ι → Monitor σ ι → Prop
  | act {a : α} {m' : Monitor σ ι} (resting : Resting m i) (owner : D.owner a ≠ some i)
      (missed : D.notifies m.data a i = false) (run : D.run m.data a = some m'.data)
      (flag : m'.flag = m.flag) : Rests D m i (.act a) m'
  | test {m' : Monitor σ ι} (pred : D.pred i m.data = false)
      (up : D.heeds i = true → m.flag = .up) (data : m'.data = m.data)
      (flag : m'.flag = m.flag) : Rests D m i (.test i) m'
  | announce {m' : Monitor σ ι} (holds : m.holder = some i) (data : m'.data = m.data) :
      Rests D m i .announce m'
  | stays {ev : MonitorEvent α ι} {m' : Monitor σ ι} (resting : Resting m i)
      (data : m'.data = m.data) (flag : m'.flag = .announced → m.flag = .announced) :
      Rests D m i ev m'

theorem rests {i : ι} (hstep : m.step D ev = some m') (hi : Resting m' i) : Rests D m i ev m' := by
  cases stepped hstep with
  | @act a data free owner run =>
    rcases hi with hi | hi
    · obtain ⟨hold, hnot⟩ := asleep_of_rouse hi
      exact .act (.inl hold) (fun ho => owner i ho hold) hnot run rfl
    · have hi : m.holder = some i := hi
      rw [free] at hi
      exact absurd hi (by simp)
  | pass free => exact .stays (hi.imp (asleep_of_update (by simp)) id) rfl id
  | @fail j free up pred flag =>
    rcases hi with hi | hi
    · exact .stays (.inl (asleep_of_update (by simp) hi)) rfl id
    · obtain rfl := Option.some.inj hi
      exact .test pred flag rfl rfl
  | @block j holds =>
    rcases hi with hi | hi
    · by_cases hij : i = j
      · subst hij
        exact .stays (.inr holds) rfl id
      · have hi : Function.update m.sleep j .asleep i = .asleep := hi
        rw [Function.update_of_ne hij] at hi
        exact .stays (.inl hi) rfl id
    · exact absurd hi (by simp)
  | wake => exact .stays (hi.imp (asleep_of_update (by simp)) id) rfl id
  | clear up => exact .stays hi rfl (fun hf => absurd hf (by simp))
  | announce cleared =>
    rcases hi with hi | hi
    · have hi : rouse m.sleep (fun _ => true) i = .asleep := hi
      exact absurd (asleep_of_rouse hi).2 (by simp)
    · exact .announce hi rfl

/-- Sections notify the sleepers whose condition they make true. -/
def Signals (D : Discipline σ α ι) (guard : ι → σ → Prop) : Prop :=
  ∀ d a d' i, D.run d a = some d' → D.owner a ≠ some i → ¬ guard i d → guard i d' →
    D.notifies d a i = true

/-- **Nobody oversleeps.** -/
theorem asleep_sound {P : Monitor σ ι → MonitorEvent α ι → Prop} {guard : ι → σ → Prop} {d : σ}
    (hpred : ∀ i d, guard i d → D.pred i d = true) (hsig : Signals D guard)
    (run : Runs (step D) P { data := d } tr m) : ∀ i, Resting m i → ¬ guard i m.data := by
  refine run.invariant (I := fun m => ∀ i, Resting m i → ¬ guard i m.data) ?_
    (fun i hi => hi.elim (fun h => absurd h (by simp)) fun h => absurd h (by simp))
  intro m ev m' hm _ hstep i hi hg
  cases rests hstep hi with
  | act resting owner missed run =>
    have := hsig _ _ _ i run owner (hm i resting) hg
    rw [missed] at this
    exact absurd this (by simp)
  | test pred up data =>
    rw [data] at hg
    rw [hpred _ _ hg] at pred
    exact absurd pred (by simp)
  | announce holds data =>
    rw [data] at hg
    exact hm i (.inr holds) hg
  | stays resting data =>
    rw [data] at hg
    exact hm i resting hg

/-- **An announcement is missed only between test and sleep.** -/
theorem announce_missed {P : Monitor σ ι → MonitorEvent α ι → Prop} {d : σ} {i : ι}
    (run : Runs (step D) P { data := d } tr m) (hheeds : D.heeds i = true)
    (hflag : m.flag = .announced) (hi : Resting m i) :
    ∃ m₁, (m₁, MonitorEvent.announce) ∈ tr ∧ m₁.holder = some i := by
  refine run.history (I := fun tr m => m.flag = .announced → Resting m i →
    ∃ m₁, (m₁, MonitorEvent.announce) ∈ tr ∧ m₁.holder = some i) ?_
    (fun hf => absurd hf (by simp)) hflag hi
  intro tr m ev m' ih _ hstep hf hi
  have hbefore : m.flag = .announced → Resting m i →
      ∃ m₁, (m₁, MonitorEvent.announce) ∈ tr ++ [(m, ev)] ∧ m₁.holder = some i := by
    intro hf hi
    obtain ⟨m₁, hmem, hm₁⟩ := ih hf hi
    exact ⟨m₁, List.mem_append_left _ hmem, hm₁⟩
  cases rests hstep hi with
  | act resting owner missed run flag => exact hbefore (flag.symm.trans hf) resting
  | test pred up data flag =>
    have hup := up hheeds
    rw [flag, hup] at hf
    exact absurd hf (by simp)
  | announce holds => exact ⟨m, List.mem_append_right _ List.mem_cons_self, holds⟩
  | stays resting data flag => exact hbefore (flag hf) resting

/-- **At most one thread misses it.** After the flag is cleared nobody who looks at it goes to
    sleep, and before that the mutex lets one thread stand between test and sleep. -/
theorem missed_unique {P : Monitor σ ι → MonitorEvent α ι → Prop} {d : σ} {i j : ι}
    (run : Runs (step D) P { data := d } tr m) (hi : D.heeds i = true) (hj : D.heeds j = true)
    (hflag : m.flag = .announced) (hri : Resting m i) (hrj : Resting m j) : i = j := by
  refine run.invariant (I := fun m => m.flag = .announced → Resting m i → Resting m j → i = j) ?_
    (fun hf => absurd hf (by simp)) hflag hri hrj
  intro m ev m' ih _ hstep hf hri hrj
  -- a thread that rests now did so before, or holds the mutex while it is announced
  have hrested : ∀ k, D.heeds k = true → Resting m' k →
      Resting m k ∧ (m.flag = .announced ∨ m.holder = some k) := by
    intro k hk hrk
    cases rests hstep hrk with
    | act resting owner missed run flag => exact ⟨resting, Or.inl (flag.symm.trans hf)⟩
    | test pred up data flag =>
      rw [flag, up hk] at hf
      exact absurd hf (by simp)
    | announce holds => exact ⟨Or.inr holds, Or.inr holds⟩
    | stays resting data flag => exact ⟨resting, Or.inl (flag hf)⟩
  obtain ⟨hi', hi''⟩ := hrested i hi hri
  obtain ⟨hj', hj''⟩ := hrested j hj hrj
  rcases hi'' with hann | hhi
  · exact ih hann hi' hj'
  · rcases hj'' with hann | hhj
    · exact ih hann hi' hj'
    · rw [hhi] at hhj
      exact Option.some.inj hhj

/-- The events that wake a sleeper once the flag is announced. -/
def Wakes (D : Discipline σ α ι) (i : ι) (m : Monitor σ ι) : MonitorEvent α ι → Prop
  | .act a => D.notifies m.data a i = true
  | .wake j => j = i
  | _ => False

theorem asleep_step {i : ι} (hstep : m.step D ev = some m') (hflag : m.flag = .announced)
    (hi : m.sleep i = .asleep) (hw : ¬ Wakes D i m ev) :
    m'.flag = .announced ∧ m'.sleep i = .asleep := by
  cases stepped hstep with
  | act free owner run =>
    refine ⟨hflag, ?_⟩
    show rouse m.sleep _ i = .asleep
    rw [rouse, if_neg fun h => hw h.2]
    exact hi
  | @pass j free up | @fail j free up =>
    refine ⟨hflag, ?_⟩
    show Function.update m.sleep j .awake i = .asleep
    have hij : i ≠ j := by
      rintro rfl
      exact up hi
    rw [Function.update_of_ne hij]
    exact hi
  | @block j =>
    refine ⟨hflag, ?_⟩
    show Function.update m.sleep j .asleep i = .asleep
    by_cases hij : i = j
    · rw [hij, Function.update_self]
    · rw [Function.update_of_ne hij]
      exact hi
  | @wake j =>
    refine ⟨hflag, ?_⟩
    show Function.update m.sleep j .woken i = .asleep
    rw [Function.update_of_ne fun h => hw h.symm]
    exact hi
  | clear up => rw [hflag] at up; exact absurd up (by simp)
  | announce cleared => rw [hflag] at cleared; exact absurd cleared (by simp)

/-- Whoever has missed the announcement sleeps until something else wakes him. -/
theorem asleep_run {i : ι}
    (run : Runs (step D) (fun m ev => ¬ Wakes D i m ev) m tr m') (hflag : m.flag = .announced)
    (hi : m.sleep i = .asleep) : m'.sleep i = .asleep := by
  have h := run.invariant (I := fun m => m.flag = .announced ∧ m.sleep i = .asleep)
    (fun _ _ _ hm hw hstep => asleep_step hstep hm.1 hm.2 hw) ⟨hflag, hi⟩
  exact h.2

/-- **It can be missed.** A thread whose predicate is false tests it, the flag is cleared and
    announced, and only then does the thread fall asleep. -/
theorem announce_missable {i : ι} (hfree : m.holder = none) (hup : m.flag = .up)
    (hi : m.sleep i ≠ .asleep) (hpred : D.pred i m.data = false) :
    ∃ tr m', Runs (step D) (fun _ _ => True) m tr m' ∧
      tr.map Prod.snd = [.test i, .clear, .announce, .block i] ∧ m'.data = m.data ∧
      m'.flag = .announced ∧ m'.sleep i = .asleep := by
  have htest : ¬ (D.pred i m.data = true ∨ D.heeds i = true ∧ m.flag ≠ .up) := by
    simp [hpred, hup]
  have h₁ : m.step D (.test i) =
      some { m with sleep := Function.update m.sleep i .awake, holder := some i } := by
    rw [step, if_pos ⟨hfree, hi⟩, if_neg htest]
  have hclear : ∀ x : Monitor σ ι, x.flag = .up →
      x.step D .clear = some { x with flag := .cleared } := fun _ h => if_pos h
  have hannounce : ∀ x : Monitor σ ι, x.flag = .cleared → x.step D .announce =
      some { x with flag := .announced, sleep := rouse x.sleep fun _ => true } :=
    fun _ h => if_pos h
  have hblock : ∀ x : Monitor σ ι, x.holder = some i → x.step D (.block i) =
      some { x with sleep := Function.update x.sleep i .asleep, holder := none } :=
    fun _ h => if_pos h
  have run₁ := Runs.tail (P := fun _ _ => True) (Runs.refl m) trivial h₁
  have run₂ := Runs.tail run₁ trivial (hclear _ hup)
  have run₃ := Runs.tail run₂ trivial (hannounce _ rfl)
  have run₄ := Runs.tail run₃ trivial (hblock _ rfl)
  exact ⟨_, _, run₄, rfl, rfl, rfl, Function.update_self ..⟩

end Monitor
end Lib
end OrcDb
