import Mathlib

/-!
# Items off a stream that arrives in pieces

A reader looks at the front of what has arrived. It needs more, or there is an item of some
length, or it goes wrong. `drain` takes items off the front until more is needed, `feed`
does so after a piece has arrived, `feedAll` for one piece after the other.

`Delimits ok enc read` is what a sender and a reader agree on: the encoding of an item is
recognised whatever stands behind it, and any shorter part of it asks for more. Then it does
not matter how a stream of encodings is cut: the items come out, each once and in order, and
nothing stays behind (`feedAll_pieces`).

`SteadyReader read` asks less and speaks of any buffer, not only of what a sender encodes: the
reader never goes wrong, an item lies inside the buffer and is not empty, and what arrives later
does not change it. Then every buffer is a list of items and a rest (`cut`), and `cut_append`
says how the two grow with the buffer.
-/

set_option autoImplicit false

namespace OrcDb
namespace Lib

/-- What a reader makes of the front of a buffer. -/
inductive Read (α : Type) where
  | more
  | item (x : α) (length : Nat)
  | bad
deriving DecidableEq

variable {α β : Type}

section

variable (read : List β → Read α)

/-- Take items off the front, at most `fuel` of them; `none` when the reader goes wrong or
    does not come to an end. -/
def drain : Nat → List β → Option (List α × List β)
  | 0, _ => none
  | fuel + 1, buf =>
      match read buf with
      | .more => some ([], buf)
      | .bad => none
      | .item x length => (drain fuel (buf.drop length)).map fun r => (x :: r.1, r.2)

/-- A piece arrives behind what was left; no item is empty unless the reader does not end. -/
def feed (s : List α × List β) (piece : List β) : Option (List α × List β) :=
  (drain read ((s.2 ++ piece).length + 1) (s.2 ++ piece)).map fun r => (s.1 ++ r.1, r.2)

def feedAll (s : List α × List β) (pieces : List (List β)) : Option (List α × List β) :=
  pieces.foldlM (feed read) s

/-- The buffers `drain` looks at, the first at most `fuel` of them. -/
def fronts : Nat → List β → List (List β)
  | 0, _ => []
  | fuel + 1, buf =>
      buf :: match read buf with
        | .item _ length => fronts fuel (buf.drop length)
        | .more => []
        | .bad => []

/-- The items at the front of a buffer, and what is behind them. -/
def cut (buf : List β) : List α × List β :=
  (drain read (buf.length + 1) buf).getD ([], buf)

end

theorem cut_of_more {read : List β → Read α} {buf : List β} (hread : read buf = .more) :
    cut read buf = ([], buf) := by
  simp only [cut, drain, hread, Option.getD_some]

structure Delimits (ok : α → Prop) (enc : α → List β) (read : List β → Read α) : Prop where
  nothing : read [] = .more
  whole : ∀ x, ok x → ∀ rest, read (enc x ++ rest) = .item x (enc x).length
  part : ∀ x, ok x → ∀ p q, p ++ q = enc x → q ≠ [] → read p = .more

namespace Delimits

variable {ok : α → Prop} {enc : α → List β} {read : List β → Read α} (h : Delimits ok enc read)
include h

theorem length_pos {x : α} (hx : ok x) : 0 < (enc x).length := by
  rw [List.length_pos_iff]
  intro hnil
  have := h.whole x hx []
  rw [hnil, List.append_nil, h.nothing] at this
  exact absurd this (by simp)

/-- Where more is needed there is no whole item. -/
theorem eq_nil_of_more {xs : List α} (hxs : ∀ x ∈ xs, ok x)
    (hmore : read (xs.map enc).flatten = .more) : xs = [] := by
  cases xs with
  | nil => rfl
  | cons x xs =>
    rw [List.map_cons, List.flatten_cons, h.whole x (hxs x List.mem_cons_self)] at hmore
    exact absurd hmore (by simp)

/-- An item that is read is the first one of the stream. -/
theorem read_item {xs : List α} (hxs : ∀ x ∈ xs, ok x) {p q : List β}
    (hp : p ++ q = (xs.map enc).flatten) {x : α} {n : Nat} (hread : read p = .item x n) :
    ∃ ys, xs = x :: ys ∧ p.drop n ++ q = (ys.map enc).flatten := by
  cases xs with
  | nil =>
    obtain ⟨rfl, -⟩ := List.append_eq_nil_iff.mp hp
    rw [h.nothing] at hread
    exact absurd hread (by simp)
  | cons y ys =>
    have hy := hxs y List.mem_cons_self
    rw [List.map_cons, List.flatten_cons] at hp
    have hwhole : ∃ p', p = enc y ++ p' ∧ p' ++ q = (ys.map enc).flatten := by
      rcases List.append_eq_append_iff.mp hp with ⟨t, ht, hq⟩ | ⟨p', hp', hq⟩
      · by_cases hnil : t = []
        · subst hnil
          exact ⟨[], by rw [ht, List.append_nil, List.append_nil], hq⟩
        · rw [h.part y hy p t ht.symm hnil] at hread
          exact absurd hread (by simp)
      · exact ⟨p', hp', hq.symm⟩
    obtain ⟨p', rfl, hq⟩ := hwhole
    rw [h.whole y hy, Read.item.injEq] at hread
    obtain ⟨rfl, rfl⟩ := hread
    exact ⟨ys, rfl, by rw [List.drop_left]; exact hq⟩

/-- What has arrived is drained up to an item that is not whole. -/
theorem drain {xs : List α} (hxs : ∀ x ∈ xs, ok x) {p q : List β}
    (hp : p ++ q = (xs.map enc).flatten) {fuel : Nat} (hfuel : p.length < fuel) :
    ∃ ys zs r, xs = ys ++ zs ∧ Lib.drain read fuel p = some (ys, r) ∧
      r ++ q = (zs.map enc).flatten ∧ read r = .more := by
  induction xs generalizing p fuel with
  | nil =>
    obtain ⟨rfl, rfl⟩ := List.append_eq_nil_iff.mp hp
    obtain ⟨fuel, rfl⟩ : ∃ f, fuel = f + 1 := ⟨fuel - 1, by omega⟩
    exact ⟨[], [], [], rfl, by simp [Lib.drain, h.nothing], rfl, h.nothing⟩
  | cons x xs ih =>
    rw [List.forall_mem_cons] at hxs
    obtain ⟨fuel, rfl⟩ : ∃ f, fuel = f + 1 := ⟨fuel - 1, by omega⟩
    have hpos := h.length_pos hxs.1
    rw [List.map_cons, List.flatten_cons] at hp
    rcases List.append_eq_append_iff.mp hp with ⟨t, hx, hq⟩ | ⟨p', rfl, hp'⟩
    · -- the piece ends inside the encoding of `x`, or right behind it
      by_cases ht : t = []
      · subst ht
        rw [List.append_nil] at hx
        have hfuel' : ([] : List β).length < fuel := by
          rw [hx] at hpos
          exact Nat.lt_of_lt_of_le hpos (Nat.le_of_lt_succ hfuel)
        obtain ⟨ys, zs, r, hsplit, hdrain, hrest, hmore⟩ :=
          ih hxs.2 (p := []) hq hfuel'
        refine ⟨x :: ys, zs, r, by rw [hsplit]; rfl, ?_, hrest, hmore⟩
        have hread := h.whole x hxs.1 []
        rw [List.append_nil] at hread
        rw [← hx, Lib.drain, hread]
        simp [hdrain]
      · have hmore := h.part x hxs.1 p t hx.symm ht
        exact ⟨[], x :: xs, p, rfl, by simp [Lib.drain, hmore], hp, hmore⟩
    · have hlen : p'.length < fuel := by
        rw [List.length_append] at hfuel
        omega
      obtain ⟨ys, zs, r, hsplit, hdrain, hrest, hmore⟩ := ih hxs.2 hp'.symm hlen
      refine ⟨x :: ys, zs, r, by rw [hsplit]; rfl, ?_, hrest, hmore⟩
      rw [Lib.drain, h.whole x hxs.1]
      simp [hdrain]

/-- **However a stream of items is cut**, the items come out and nothing is left. -/
theorem feedAll_pieces {xs : List α} (hxs : ∀ x ∈ xs, ok x) {pieces : List (List β)}
    (hpieces : pieces.flatten = (xs.map enc).flatten) :
    feedAll read ([], []) pieces = some (xs, []) := by
  suffices hstep : ∀ (pieces : List (List β)) (out zs : List α) (r : List β),
      (∀ x ∈ zs, ok x) → r ++ pieces.flatten = (zs.map enc).flatten → read r = .more →
        feedAll read (out, r) pieces = some (out ++ zs, []) from
    hstep pieces [] xs [] hxs (by simpa using hpieces) h.nothing
  intro pieces
  induction pieces with
  | nil =>
    intro out zs r hzs hr hmore
    rw [List.flatten_nil, List.append_nil] at hr
    have hnil := h.eq_nil_of_more hzs (hr ▸ hmore)
    subst hnil
    simp at hr
    simp [feedAll, hr]
  | cons piece pieces ih =>
    intro out zs r hzs hr _
    rw [List.flatten_cons, ← List.append_assoc] at hr
    obtain ⟨ys, zs', r', rfl, hdrain, hrest, hmore⟩ := h.drain hzs hr (Nat.lt_succ_self _)
    have hfeed : feed read (out, r) piece = some (out ++ ys, r') := by
      simp only [feed, hdrain, Option.map_some]
    have hnext := ih (out ++ ys) zs' r' (fun x hx => hzs x (List.mem_append_right _ hx)) hrest hmore
    rw [feedAll, List.foldlM_cons, hfeed, ← List.append_assoc]
    exact hnext

end Delimits

structure SteadyReader (read : List β → Read α) : Prop where
  good : ∀ buf, read buf ≠ .bad
  inside : ∀ {buf x n}, read buf = .item x n → 0 < n ∧ n ≤ buf.length
  stable : ∀ {buf x n}, read buf = .item x n → ∀ rest, read (buf ++ rest) = .item x n

namespace SteadyReader

variable {read : List β → Read α} (h : SteadyReader read)
include h

/-- Induction along the items of a buffer. -/
theorem induct {motive : List β → Prop} (more : ∀ buf, read buf = .more → motive buf)
    (item : ∀ buf x n, read buf = .item x n → motive (buf.drop n) → motive buf)
    (buf : List β) : motive buf := by
  induction hlen : buf.length using Nat.strongRecOn generalizing buf with
  | ind len ih =>
    cases hread : read buf with
    | more => exact more buf hread
    | bad => exact absurd hread (h.good buf)
    | item x n =>
      obtain ⟨hpos, hle⟩ := h.inside hread
      have hshort : (buf.drop n).length < len := by
        rw [List.length_drop]
        omega
      exact item buf x n hread (ih _ hshort _ rfl)

theorem drain_eq_cut (buf : List β) :
    ∀ fuel, buf.length < fuel → drain read fuel buf = some (cut read buf) := by
  suffices hsome : ∀ buf, ∃ out, ∀ fuel, buf.length < fuel → drain read fuel buf = some out by
    obtain ⟨out, hout⟩ := hsome buf
    intro fuel hfuel
    rw [hout fuel hfuel, cut, hout _ (Nat.lt_succ_self _)]
    rfl
  intro buf
  induction buf using h.induct with
  | more buf hread =>
    refine ⟨([], buf), ?_⟩
    intro fuel hfuel
    obtain ⟨fuel, rfl⟩ : ∃ f, fuel = f + 1 := ⟨fuel - 1, by omega⟩
    rw [drain, hread]
  | item buf x n hread ih =>
    obtain ⟨out, hout⟩ := ih
    refine ⟨(x :: out.1, out.2), ?_⟩
    intro fuel hfuel
    obtain ⟨hpos, hle⟩ := h.inside hread
    obtain ⟨fuel, rfl⟩ : ∃ f, fuel = f + 1 := ⟨fuel - 1, by omega⟩
    have hrest : (buf.drop n).length < fuel := by
      rw [List.length_drop]
      omega
    simp only [drain, hread, hout fuel hrest, Option.map_some]

theorem cut_of_item {buf : List β} {x : α} {n : Nat} (hread : read buf = .item x n) :
    cut read buf = (x :: (cut read (buf.drop n)).1, (cut read (buf.drop n)).2) := by
  obtain ⟨hpos, hle⟩ := h.inside hread
  have hrest : (buf.drop n).length < buf.length := by
    rw [List.length_drop]
    omega
  simp only [cut, drain, hread, h.drain_eq_cut _ _ hrest, Option.map_some, Option.getD_some]

end SteadyReader

end Lib
end OrcDb
