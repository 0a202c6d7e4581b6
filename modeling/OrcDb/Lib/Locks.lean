import OrcDb.Lib.Run

/-!
# Scoped locks

What threads do with mutexes, and nothing else of them. `LockCode` is the part of a function that
is left: which scopes it opens under which guard, with sequence, choice and repetition
in between. A guard is released when its scope is left, whichever way. A scope can be left at any
point, so returning and throwing need no constructor of their own. `unlocked` is the one
exception: it gives the mutex of the innermost guard back for a while. A wait on a condition
variable is `unlocked skip`.

`Waits s t u`: thread `t` is at a mutex that `u` holds. Modes do not matter for it: with readers
and writers queueing in whatever order, somebody who is kept waiting waits for a holder in the
end.

The rule is the usual one. `may l held` says that `l` may be taken by a thread that holds `held`,
innermost first. `LockFits` is kept by every step if the code observes it (`LockCode.Observes`). If
mutexes are taken in the order of a rank, waiting leads to somebody who does not wait
(`waits_end`).
-/

set_option autoImplicit false

namespace OrcDb
namespace Lib

inductive LockMode where
  | shared
  | exclusive
deriving DecidableEq

inductive LockCode (L : Type) where
  | skip
  | seq (a b : LockCode L)
  | alt (a b : LockCode L)
  | any (f : Nat → LockCode L)
  /-- Zero times or more. -/
  | many (a : LockCode L)
  /-- A scope with a guard. -/
  | locked (l : L) (m : LockMode) (a : LockCode L)
  /-- Without the mutex of the innermost guard, which is taken again afterwards. -/
  | unlocked (a : LockCode L)

inductive LockGuard (L : Type) where
  | none
  | owns (l : L) (m : LockMode)
  /-- Unlocked for now. -/
  | away (l : L) (m : LockMode)

structure LockScope (L : Type) where
  guard : LockGuard L
  todo : List (LockCode L)

/-- The open scopes, innermost first. -/
abbrev LockThread (L : Type) := List (LockScope L)

/-- How a thread goes on, where it has a choice. -/
inductive LockMove where
  | go
  | other
  | pick (k : Nat)
  /-- Pass over what comes next. Repeated, this is `return`, `break` or an exception. -/
  | leave

variable {L : Type}

namespace LockThread

def holds : LockThread L → List (L × LockMode)
  | [] => []
  | ⟨.owns l m, _⟩ :: scopes => (l, m) :: holds scopes
  | ⟨_, _⟩ :: scopes => holds scopes

/-- The mutexes it holds, innermost first. -/
def held (t : LockThread L) : List L := t.holds.map Prod.fst

/-- The mutex it is at. -/
def wants : LockThread L → Option L
  | ⟨.away l _, _⟩ :: _ => some l
  | ⟨_, .locked l _ _ :: _⟩ :: _ => some l
  | _ => none

def step (free : L → LockMode → Bool) : LockThread L → LockMove → Option (LockThread L)
  | [], _ => none
  | ⟨.away l m, todo⟩ :: scopes, .go =>
      if free l m then some (⟨.owns l m, todo⟩ :: scopes) else none
  -- The scope ends without the mutex.
  | ⟨.away _ _, _⟩ :: scopes, .leave => some scopes
  | ⟨.away _ _, _⟩ :: _, _ => none
  | ⟨_, []⟩ :: scopes, .go => some scopes
  | ⟨_, []⟩ :: _, _ => none
  | ⟨g, _ :: todo⟩ :: scopes, .leave => some (⟨g, todo⟩ :: scopes)
  | ⟨g, .skip :: todo⟩ :: scopes, .go => some (⟨g, todo⟩ :: scopes)
  | ⟨g, .seq a b :: todo⟩ :: scopes, .go => some (⟨g, a :: b :: todo⟩ :: scopes)
  | ⟨g, .alt a _ :: todo⟩ :: scopes, .go => some (⟨g, a :: todo⟩ :: scopes)
  | ⟨g, .alt _ b :: todo⟩ :: scopes, .other => some (⟨g, b :: todo⟩ :: scopes)
  | ⟨g, .any f :: todo⟩ :: scopes, .pick k => some (⟨g, f k :: todo⟩ :: scopes)
  | ⟨g, .many a :: todo⟩ :: scopes, .go => some (⟨g, a :: .many a :: todo⟩ :: scopes)
  | ⟨g, .locked l m a :: todo⟩ :: scopes, .go =>
      if free l m then some (⟨.owns l m, [a]⟩ :: ⟨g, todo⟩ :: scopes) else none
  | ⟨.owns l m, .unlocked a :: todo⟩ :: scopes, .go =>
      some (⟨.none, [a]⟩ :: ⟨.away l m, todo⟩ :: scopes)
  | _ :: _, _ => none

end LockThread

inductive LockEvent (L : Type) where
  | spawn (c : LockCode L)
  | move (t : Nat) (m : LockMove)

/-- The threads of a process. -/
abbrev LockSystem (L : Type) := List (LockThread L)

namespace LockSystem

/-- Nobody holds it, or only readers do and this is one more. -/
def free [DecidableEq L] (s : LockSystem L) (l : L) (m : LockMode) : Bool :=
  s.all fun t => t.holds.all fun h => h.1 ≠ l ∨ (h.2 = .shared ∧ m = .shared)

def step [DecidableEq L] (s : LockSystem L) : LockEvent L → Option (LockSystem L)
  | .spawn c => some (s ++ [[⟨.none, [c]⟩]])
  | .move t m => do
      let thread ← s[t]?
      let thread' ← thread.step (free s) m
      return s.set t thread'

/-- Thread `t` is at a mutex that thread `u` holds. -/
def Waits (s : LockSystem L) (t u : Nat) : Prop :=
  ∃ x ∈ s[t]?, ∃ y ∈ s[u]?, ∃ l ∈ x.wants, l ∈ y.held

end LockSystem

/-! ## What code takes -/

/-- Every mutex is taken where `may` allows it, by a thread that holds `held` before, and given
    back for a while only by one that holds no other. -/
def LockCode.Observes (may : L → List L → Prop) : LockCode L → List L → Prop
  | .skip, _ => True
  | .seq a b, held => a.Observes may held ∧ b.Observes may held
  | .alt a b, held => a.Observes may held ∧ b.Observes may held
  | .any f, held => ∀ k, (f k).Observes may held
  | .many a, held => a.Observes may held
  | .locked l _ a, held => may l held ∧ a.Observes may (l :: held)
  | .unlocked a, held => held.length = 1 ∧ a.Observes may []

section Observes

variable {may : L → List L → Prop} {held : List L} {a b : LockCode L}

@[simp]
theorem observes_skip : LockCode.Observes may .skip held := trivial

@[simp]
theorem observes_seq : (LockCode.seq a b).Observes may held ↔
    a.Observes may held ∧ b.Observes may held := Iff.rfl

@[simp]
theorem observes_alt : (LockCode.alt a b).Observes may held ↔
    a.Observes may held ∧ b.Observes may held := Iff.rfl

@[simp]
theorem observes_any {f : Nat → LockCode L} :
    (LockCode.any f).Observes may held ↔ ∀ k, (f k).Observes may held := Iff.rfl

@[simp]
theorem observes_many : (LockCode.many a).Observes may held ↔ a.Observes may held := Iff.rfl

@[simp]
theorem observes_locked {l : L} {m : LockMode} : (LockCode.locked l m a).Observes may held ↔
    may l held ∧ a.Observes may (l :: held) := Iff.rfl

@[simp]
theorem observes_unlocked : (LockCode.unlocked a).Observes may held ↔
    held.length = 1 ∧ a.Observes may [] := Iff.rfl

end Observes

/-- What the rest of a scope may count on, over what the scopes below hold. -/
def LockGuard.over (below : List L) : LockGuard L → List L
  | .none => below
  | .owns l _ => l :: below
  | .away l _ => l :: below

def LockGuard.Allowed (may : L → List L → Prop) (below : List L) : LockGuard L → Prop
  | .none => True
  | .owns l _ => may l below
  | .away l _ => may l below ∧ below = []

def LockFits (may : L → List L → Prop) : LockThread L → Prop
  | [] => True
  | ⟨g, todo⟩ :: scopes =>
      g.Allowed may (LockThread.held scopes) ∧
      (∀ c ∈ todo, LockCode.Observes may c (g.over (LockThread.held scopes))) ∧
      LockFits may scopes

variable {may : L → List L → Prop} {free : L → LockMode → Bool}

theorem held_over {g : LockGuard L} (h : ∀ l m, g ≠ .away l m) (todo : List (LockCode L))
    (scopes : LockThread L) :
    LockThread.held (⟨g, todo⟩ :: scopes) = g.over (LockThread.held scopes) := by
  cases g with
  | none => rfl
  | owns l m => rfl
  | away l m => exact absurd rfl (h l m)

theorem lockFits_spawn {c : LockCode L} (h : c.Observes may []) :
    LockFits may [⟨LockGuard.none, [c]⟩] := by
  refine ⟨trivial, ?_, trivial⟩
  intro c' hc'
  rw [List.mem_singleton.mp hc']
  exact h

/-! ## What a step can do -/

/-- What takes the place of a piece of code that takes no mutex by itself. -/
inductive LockCode.Unfolds : LockCode L → List (LockCode L) → Prop
  | leave {c : LockCode L} : Unfolds c []
  | seq {a b : LockCode L} : Unfolds (.seq a b) [a, b]
  | left {a b : LockCode L} : Unfolds (.alt a b) [a]
  | right {a b : LockCode L} : Unfolds (.alt a b) [b]
  | pick {f : Nat → LockCode L} {k : Nat} : Unfolds (.any f) [f k]
  | again {a : LockCode L} : Unfolds (.many a) [a, .many a]

theorem LockCode.Observes.unfolds {c : LockCode L} {cs : List (LockCode L)} {held : List L}
    (h : c.Observes may held) (hcs : c.Unfolds cs) : ∀ c' ∈ cs, LockCode.Observes may c' held := by
  cases hcs with
  | leave => exact fun _ hc' => absurd hc' (by simp)
  | seq => exact List.forall_mem_cons.mpr ⟨h.1, List.forall_mem_singleton.mpr h.2⟩
  | left => exact List.forall_mem_singleton.mpr h.1
  | right => exact List.forall_mem_singleton.mpr h.2
  | pick => exact List.forall_mem_singleton.mpr (h _)
  | again => exact List.forall_mem_cons.mpr ⟨h, List.forall_mem_singleton.mpr h⟩

inductive LockMoved (free : L → LockMode → Bool) : LockThread L → LockThread L → Prop
  | close {scope : LockScope L} {scopes : LockThread L} : LockMoved free (scope :: scopes) scopes
  | unfold {g : LockGuard L} {c : LockCode L} {cs todo : List (LockCode L)}
      {scopes : LockThread L} (hcs : c.Unfolds cs) :
      LockMoved free (⟨g, c :: todo⟩ :: scopes) (⟨g, cs ++ todo⟩ :: scopes)
  | lock {g : LockGuard L} {l : L} {m : LockMode} {a : LockCode L} {todo : List (LockCode L)}
      {scopes : LockThread L} (here : ∀ l' m', g ≠ .away l' m') (hfree : free l m = true) :
      LockMoved free (⟨g, .locked l m a :: todo⟩ :: scopes)
        (⟨.owns l m, [a]⟩ :: ⟨g, todo⟩ :: scopes)
  | unlock {l : L} {m : LockMode} {a : LockCode L} {todo : List (LockCode L)}
      {scopes : LockThread L} :
      LockMoved free (⟨.owns l m, .unlocked a :: todo⟩ :: scopes)
        (⟨.none, [a]⟩ :: ⟨.away l m, todo⟩ :: scopes)
  | relock {l : L} {m : LockMode} {todo : List (LockCode L)} {scopes : LockThread L}
      (hfree : free l m = true) :
      LockMoved free (⟨.away l m, todo⟩ :: scopes) (⟨.owns l m, todo⟩ :: scopes)

theorem lockMoved {t t' : LockThread L} {m : LockMove} (h : t.step free m = some t') :
    LockMoved free t t' := by
  unfold LockThread.step at h
  split at h
  · cases h
  · split at h
    · rename_i hfree
      cases h
      exact .relock hfree
    · cases h
  · cases h
    exact .close
  · cases h
  · cases h
    exact .close
  · cases h
  · cases h
    exact .unfold .leave
  · cases h
    exact .unfold .leave
  · cases h
    exact .unfold .seq
  · cases h
    exact .unfold .left
  · cases h
    exact .unfold .right
  · cases h
    exact .unfold .pick
  · cases h
    exact .unfold .again
  · rename_i haway
    split at h
    · rename_i hfree
      cases h
      exact .lock haway hfree
    · cases h
  · cases h
    exact .unlock
  · cases h

theorem LockFits.step {t t' : LockThread L} (h : LockFits may t) (hmoved : LockMoved free t t') :
    LockFits may t' := by
  cases hmoved with
  | close => exact h.2.2
  | unfold hcs =>
    obtain ⟨hg, htodo, hrest⟩ := h
    obtain ⟨hc, htodo⟩ := List.forall_mem_cons.mp htodo
    refine ⟨hg, ?_, hrest⟩
    intro c' hc'
    rcases List.mem_append.mp hc' with hc' | hc'
    · exact hc.unfolds hcs c' hc'
    · exact htodo c' hc'
  | @lock g l m a todo scopes here hfree =>
    obtain ⟨hg, htodo, hrest⟩ := h
    obtain ⟨⟨hmay, ha⟩, htodo⟩ := List.forall_mem_cons.mp htodo
    rw [← held_over here todo] at hmay ha
    exact ⟨hmay, List.forall_mem_singleton.mpr ha, hg, htodo, hrest⟩
  | @unlock l m a todo scopes =>
    obtain ⟨hg, htodo, hrest⟩ := h
    obtain ⟨⟨hone, ha⟩, htodo⟩ := List.forall_mem_cons.mp htodo
    have hnil : LockThread.held scopes = [] := by
      simpa [LockGuard.over] using hone
    refine ⟨trivial, ?_, ⟨hg, hnil⟩, htodo, hrest⟩
    show ∀ c ∈ [a], LockCode.Observes may c (LockThread.held scopes)
    rw [hnil]
    exact List.forall_mem_singleton.mpr ha
  | relock hfree =>
    obtain ⟨hg, htodo, hrest⟩ := h
    exact ⟨hg.1, htodo, hrest⟩

/-- A thread is at a mutex that it may take. -/
theorem LockFits.wants {t : LockThread L} {l : L} (h : LockFits may t) (hl : l ∈ t.wants) :
    may l t.held := by
  unfold LockThread.wants at hl
  split at hl
  · cases hl
    obtain ⟨⟨hmay, hnil⟩, -, -⟩ := h
    exact hmay
  · rename_i g l' m a todo scopes haway
    cases hl
    obtain ⟨-, htodo, -⟩ := h
    obtain ⟨⟨hmay, -⟩, -⟩ := List.forall_mem_cons.mp htodo
    rw [← held_over haway] at hmay
    exact hmay
  · cases hl

/-- The mutex taken last was taken over the others. -/
theorem LockFits.innermost {t : LockThread L} {l : L} {outer : List L} (h : LockFits may t)
    (hheld : t.held = l :: outer) : may l outer := by
  induction t with
  | nil => exact absurd hheld (by simp [LockThread.held, LockThread.holds])
  | cons scope scopes ih =>
    obtain ⟨g, todo⟩ := scope
    obtain ⟨hg, -, hrest⟩ := h
    cases g with
    | none => exact ih hrest hheld
    | away l' m => exact ih hrest hheld
    | owns l' m =>
      have hheld : l' :: LockThread.held scopes = l :: outer := hheld
      obtain ⟨rfl, rfl⟩ := List.cons.inj hheld
      exact hg

/-- Where a mutex was given back for a while, the scopes around hold none. -/
theorem LockFits.away {scope : LockScope L} {l : L} {m : LockMode} {todo : List (LockCode L)}
    {scopes : LockThread L} (h : LockFits may (scope :: ⟨.away l m, todo⟩ :: scopes)) :
    LockThread.held scopes = [] :=
  h.2.2.1.2

/-! ## All threads -/

variable {s s' : LockSystem L}

def AllLockFit (may : L → List L → Prop) (s : LockSystem L) : Prop := ∀ t ∈ s, LockFits may t

theorem AllLockFit.step [DecidableEq L] {ev : LockEvent L} (h : AllLockFit may s)
    (hspawn : ∀ c, ev = .spawn c → c.Observes may []) (hstep : s.step ev = some s') :
    AllLockFit may s' := by
  cases ev with
  | spawn c =>
    cases hstep
    intro t ht
    rcases List.mem_append.mp ht with ht | ht
    · exact h t ht
    · rw [List.mem_singleton.mp ht]
      exact lockFits_spawn (hspawn c rfl)
  | move t m =>
    simp only [LockSystem.step, Option.bind_eq_bind, Option.bind_eq_some_iff] at hstep
    obtain ⟨x, hx, x', hx', hstep⟩ := hstep
    cases hstep
    intro y hy
    rcases List.mem_or_eq_of_mem_set hy with hy | rfl
    · exact h y hy
    · exact (h x (List.mem_of_getElem? hx)).step (lockMoved hx')

/-! ## Ranks -/

/-- The rank of the mutex a thread is at. -/
def LockSystem.AtRank (rank : L → Nat) (s : LockSystem L) (t r : Nat) : Prop :=
  ∃ x ∈ s[t]?, ∃ l ∈ x.wants, rank l = r

theorem LockSystem.Waits.atRank {t u : Nat} (rank : L → Nat) (h : s.Waits t u) :
    ∃ r, s.AtRank rank t r := by
  obtain ⟨x, hx, -, -, l, hl, -⟩ := h
  exact ⟨_, x, hx, l, hl, rfl⟩

section Ranked

variable {rank : L → Nat} (hfit : AllLockFit may s)
  (hrank : ∀ l held, may l held → ∀ l' ∈ held, rank l' < rank l)

include hfit hrank

/-- Along a chain of waits the ranks go up. -/
theorem waits_lt {t u r r' : Nat} (hw : s.Waits t u) (hr : s.AtRank rank t r)
    (hr' : s.AtRank rank u r') : r < r' := by
  obtain ⟨x, hx, y, hy, l, hl, hheld⟩ := hw
  obtain ⟨x', hx', l₁, hl₁, rfl⟩ := hr
  obtain ⟨y', hy', l₂, hl₂, rfl⟩ := hr'
  obtain rfl := Option.mem_unique hx hx'
  obtain rfl := Option.mem_unique hy hy'
  obtain rfl := Option.mem_unique hl hl₁
  exact hrank l₂ _ ((hfit y (List.mem_of_getElem? hy)).wants hl₂) l hheld

theorem waits_chain_lt {t u r r' : Nat} (hw : Relation.TransGen s.Waits t u)
    (hr : s.AtRank rank t r) (hr' : s.AtRank rank u r') : r < r' := by
  induction hw generalizing r' with
  | single hw => exact waits_lt hfit hrank hw hr hr'
  | tail _ hw ih =>
    obtain ⟨r₁, hr₁⟩ := hw.atRank rank
    exact Nat.lt_trans (ih hr₁) (waits_lt hfit hrank hw hr₁ hr')

/-- Nobody waits for itself, through however many others. -/
theorem waits_acyclic (t : Nat) : ¬ Relation.TransGen s.Waits t t := by
  intro hw
  obtain ⟨u, hu, -⟩ := Relation.TransGen.head'_iff.mp hw
  obtain ⟨r, hr⟩ := hu.atRank rank
  exact Nat.lt_irrefl r (waits_chain_lt hfit hrank hw hr hr)

/-- Whoever waits, waits for somebody who does not wait. -/
theorem waits_end {bound : Nat} (hbound : ∀ l, rank l ≤ bound) {t u : Nat} (hw : s.Waits t u) :
    ∃ v, Relation.TransGen s.Waits t v ∧ ∀ w, ¬ s.Waits v w := by
  obtain ⟨r, hr⟩ := hw.atRank rank
  -- The induction is on how far the rank is from the top.
  generalize hn : bound - r = n
  induction n using Nat.strong_induction_on generalizing t u r with
  | _ n ih =>
    by_cases hu : ∃ w, s.Waits u w
    · obtain ⟨w, hw'⟩ := hu
      obtain ⟨r', hr'⟩ := hw'.atRank rank
      have hlt : r < r' := waits_lt hfit hrank hw hr hr'
      have hle : r' ≤ bound := by
        obtain ⟨-, -, l, -, rfl⟩ := hr'
        exact hbound l
      obtain ⟨v, hv, hend⟩ := ih (bound - r') (by omega) hw' r' hr' rfl
      exact ⟨v, Relation.TransGen.head hw hv, hend⟩
    · exact ⟨u, .single hw, fun w hw' => hu ⟨w, hw'⟩⟩

end Ranked

end Lib
end OrcDb
