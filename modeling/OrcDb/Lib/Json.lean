import Mathlib

/-!
# JSON documents, and a text codec as an assumption

A document is a tree; an object lists its fields in strictly increasing key order,
which is how a library that keeps objects in an ordered map stores and prints them.
`Canonical` is that condition, all the way down.

The text side is a `Codec`: a printer, a parser, and the one law a client of such a
library relies on — what was printed parses back. The law is a field, so a pair that
does not obey it is not a `Codec`. Strings are `String`, i.e. valid UTF-8 by
construction: the printer of a library that refuses anything else is total here.
-/

set_option autoImplicit false

namespace OrcDb
namespace Lib

inductive Json where
  | null
  | bool (b : Bool)
  | num (n : Int)
  | str (s : String)
  | arr (xs : List Json)
  | obj (fields : List (String × Json))

namespace Json

/-- Every object in the document lists its keys in strictly increasing order. -/
inductive Canonical : Json → Prop
  | null : Canonical .null
  | bool (b : Bool) : Canonical (.bool b)
  | num (n : Int) : Canonical (.num n)
  | str (s : String) : Canonical (.str s)
  | arr {xs : List Json} (elems : ∀ x ∈ xs, Canonical x) : Canonical (.arr xs)
  | obj {fields : List (String × Json)}
      (keys : fields.Pairwise (fun a b => a.1 < b.1))
      (values : ∀ f ∈ fields, Canonical f.2) : Canonical (.obj fields)

/-- Neither an array nor an object. -/
def isScalar : Json → Bool
  | .arr _ => false
  | .obj _ => false
  | _ => true

theorem Canonical.of_isScalar {j : Json} (h : j.isScalar = true) : Canonical j := by
  cases j with
  | null => exact .null
  | bool b => exact .bool b
  | num n => exact .num n
  | str s => exact .str s
  | arr xs => exact absurd h (by simp [isScalar])
  | obj fields => exact absurd h (by simp [isScalar])

theorem Canonical.of_keys {fields : List (String × Json)}
    (hkeys : (fields.map Prod.fst).Pairwise (· < ·)) (hvalues : ∀ f ∈ fields, Canonical f.2) :
    Canonical (.obj fields) :=
  .obj (List.pairwise_map.mp hkeys) hvalues

/-- An object of scalars, its keys in order. -/
theorem Canonical.flat {fields : List (String × Json)}
    (hkeys : (fields.map Prod.fst).Pairwise (· < ·))
    (hvalues : fields.all (fun f => f.2.isScalar) = true) : Canonical (.obj fields) :=
  .of_keys hkeys fun f hf => .of_isScalar (List.all_eq_true.mp hvalues f hf)

theorem Canonical.arr_map {α : Type} {f : α → Json} {xs : List α}
    (h : ∀ x ∈ xs, Canonical (f x)) : Canonical (.arr (xs.map f)) := by
  refine .arr fun j hj => ?_
  obtain ⟨x, hx, rfl⟩ := List.mem_map.mp hj
  exact h x hx

/-- The field `k` of an object; nothing on any other document. -/
def field? : Json → String → Option Json
  | .obj fields, k => fields.lookup k
  | _, _ => none

/-- What a loop over a document visits: the elements of an array, the values of an object,
    anything else itself, `null` nothing. -/
def elements : Json → List Json
  | .arr xs => xs
  | .obj fields => fields.map Prod.snd
  | .null => []
  | j => [j]

/-- Elements that are read one by one, each of them successfully. -/
theorem mapM_eq_some_map {α β : Type} {f : α → Option β} {g : α → β} {xs : List α}
    (h : ∀ x ∈ xs, f x = some (g x)) : xs.mapM f = some (xs.map g) := by
  induction xs with
  | nil => rfl
  | cons x xs ih =>
    rw [List.forall_mem_cons] at h
    rw [List.mapM_cons, h.1, ih h.2]
    rfl

/-- A printer and a parser that inverts it on canonical documents. -/
structure Codec where
  dump : Json → String
  parse : String → Option Json
  parse_dump : ∀ j, Canonical j → parse (dump j) = some j

end Json
end Lib
end OrcDb
