import OrcDb.Api.Router

/-!
# Which route answers

The loop of `Dispatch` goes on until a route fits and then does not look further: it is
`List.find?` with what happens at the route that was found (`findRoute_eq`). Who wants to know
which handler is called, and whether one is, reads it off there. That is with all the stack the
matcher asks for; with less, it is the same as long as the matcher returns for every route that
is tried, and otherwise there is no response (`findRoute_returns`, `findRoute_exhausted`).
-/

set_option autoImplicit false

namespace OrcDb
namespace Proof

open Lib

variable {σ : Type} {J : Json.Codec} {req : HttpRequest} {auth : AuthContext}

/-- The method and the pattern of the route fit the request. -/
def fits (req : HttpRequest) (route : Route σ) : Bool :=
  (route.method = req.method || route.method = toBytes "*") &&
    (Router.matchRoute route req.path).isSome

theorem fits_iff {route : Route σ} : fits req route = true ↔
    (route.method = req.method ∨ route.method = toBytes "*") ∧
      ∃ params, Router.matchRoute route req.path = some params := by
  simp only [fits, Bool.and_eq_true, Bool.or_eq_true, decide_eq_true_eq, Option.isSome_iff_exists]

/-- The check of the roles. -/
def admits (auth : AuthContext) (route : Route σ) : Bool :=
  route.requiredRoles.isEmpty || route.requiredRoles.any auth.hasRole

theorem hasRole_iff {role : String} :
    auth.hasRole role = true ↔ role ∈ auth.roles ∨ "admin" ∈ auth.roles := by
  simp [AuthContext.hasRole]

theorem admits_iff {route : Route σ} : admits auth route = true ↔
    (route.requiredRoles ≠ [] →
      ∃ role ∈ route.requiredRoles, role ∈ auth.roles ∨ "admin" ∈ auth.roles) := by
  rw [admits, Bool.or_eq_true, List.isEmpty_iff, List.any_eq_true]
  simp only [hasRole_iff]
  constructor
  · rintro (hempty | hrole) hne
    · exact absurd hempty hne
    · exact hrole
  · intro h
    by_cases hempty : route.requiredRoles = []
    · exact Or.inl hempty
    · exact Or.inr (h hempty)

/-- The response when no route fits; its text has to be UTF-8. -/
def noRoute (J : Json.Codec) (req : HttpRequest) : Dispatched σ :=
  match ofBytes? (toBytes "no route for " ++ req.method ++ toBytes " " ++ req.path) with
  | some msg => .reply (.notFound J msg)
  | none => .throws

/-- What happens at the route that was found. -/
def atRoute (J : Json.Codec) (req : HttpRequest) (auth : AuthContext) (route : Route σ) :
    Dispatched σ :=
  if admits auth route then
    .handler route { req with pathParams := (Router.matchRoute route req.path).getD ∅ } auth
  else .reply (.forbidden J "insufficient role")

@[simp] theorem ideal_returns (parts : List Part) (path : Bytes) :
    RegexEngine.ideal.returns parts path = true := rfl

/-- **The first route that fits** decides. -/
theorem findRoute_eq (J : Json.Codec) (req : HttpRequest) (auth : AuthContext)
    (routes : List (Route σ)) :
    Router.findRoute .ideal J req auth routes =
      match routes.find? (fits req) with
      | none => noRoute J req
      | some route => atRoute J req auth route := by
  induction routes with
  | nil => rfl
  | cons route routes ih =>
    rw [Router.findRoute]
    by_cases hmethod : (route.method ≠ req.method && route.method ≠ toBytes "*") = true
    · have hno : fits req route = false := by
        simp only [ne_eq, Bool.and_eq_true, decide_eq_true_eq] at hmethod
        simp [fits, hmethod]
      rw [if_pos hmethod, List.find?_cons_of_neg (by simp [hno]), ih]
    · rw [if_neg hmethod, if_neg (by simp)]
      have hyes : (route.method = req.method || route.method = toBytes "*") = true := by
        simp only [ne_eq, Bool.and_eq_true, decide_eq_true_eq, not_and_or, not_not] at hmethod
        simpa using hmethod
      cases hmatch : Router.matchRoute route req.path with
      | none =>
        have hno : fits req route = false := by simp [fits, hmatch]
        rw [List.find?_cons_of_neg (by simp [hno]), ih]
      | some params =>
        have hfits : fits req route = true := by simp [fits, hyes, hmatch]
        rw [List.find?_cons_of_pos hfits]
        simp only [atRoute, admits, hmatch, Option.getD_some]

/-- The routes whose expression `Dispatch` tries: those of the method, up to the first that
    matches. -/
def tried (req : HttpRequest) : List (Route σ) → List (Route σ)
  | [] => []
  | route :: routes =>
      if route.method ≠ req.method && route.method ≠ toBytes "*" then tried req routes
      else if (Router.matchRoute route req.path).isSome then [route]
      else route :: tried req routes

/-- The matcher returns for every route that is tried. -/
def Returns (engine : RegexEngine) (req : HttpRequest) (routes : List (Route σ)) : Prop :=
  ∀ route ∈ tried req routes, engine.returns route.regex req.path = true

variable {engine : RegexEngine} {routes : List (Route σ)}

theorem findRoute_returns (J : Json.Codec) (auth : AuthContext) (h : Returns engine req routes) :
    Router.findRoute engine J req auth routes = Router.findRoute .ideal J req auth routes := by
  induction routes with
  | nil => rfl
  | cons route routes ih =>
    unfold Returns at h ih
    rw [tried] at h
    rw [Router.findRoute, Router.findRoute]
    by_cases hmethod : (route.method ≠ req.method && route.method ≠ toBytes "*") = true
    · rw [if_pos hmethod] at h ⊢
      rw [if_pos hmethod]
      exact ih h
    · rw [if_neg hmethod] at h
      have hhere : engine.returns route.regex req.path = true := by
        apply h route
        split
        · simp
        · simp
      rw [if_neg hmethod, if_neg hmethod, if_neg (by simp [hhere]), if_neg (by simp)]
      cases hmatch : Router.matchRoute route req.path with
      | none =>
        rw [hmatch, Option.isSome_none, if_neg (by simp), List.forall_mem_cons] at h
        exact ih h.2
      | some params => rfl

theorem findRoute_exhausted (J : Json.Codec) (auth : AuthContext)
    (h : ¬ Returns engine req routes) :
    Router.findRoute engine J req auth routes = .throws := by
  induction routes with
  | nil => exact absurd (by simp [Returns, tried]) h
  | cons route routes ih =>
    unfold Returns at h ih
    rw [tried] at h
    rw [Router.findRoute]
    by_cases hmethod : (route.method ≠ req.method && route.method ≠ toBytes "*") = true
    · rw [if_pos hmethod] at h ⊢
      exact ih h
    · rw [if_neg hmethod] at h ⊢
      by_cases hreturns : engine.returns route.regex req.path = true
      · rw [if_neg (by simp [hreturns])]
        cases hmatch : Router.matchRoute route req.path with
        | none =>
          rw [hmatch, Option.isSome_none, if_neg (by simp), List.forall_mem_cons] at h
          exact ih fun hrest => h ⟨hreturns, hrest⟩
        | some params =>
          rw [hmatch, Option.isSome_some, if_pos rfl, List.forall_mem_singleton] at h
          exact absurd hreturns h
      · rw [if_pos (Bool.eq_false_iff.mpr hreturns)]

/-- A handler is called with the context the routes were searched with, and the context has a
    role of the route. -/
theorem findRoute_handler {route : Route σ} {req' : HttpRequest} {auth' : AuthContext}
    (h : Router.findRoute engine J req auth routes = .handler route req' auth') :
    route ∈ routes ∧ auth' = auth ∧ (route.requiredRoles ≠ [] →
      ∃ role ∈ route.requiredRoles, role ∈ auth.roles ∨ "admin" ∈ auth.roles) := by
  by_cases hreturns : Returns engine req routes
  swap
  · rw [findRoute_exhausted J auth hreturns] at h
    exact absurd h (by simp)
  rw [findRoute_returns J auth hreturns, findRoute_eq] at h
  split at h
  · unfold noRoute at h
    split at h
    · exact absurd h (by simp)
    · exact absurd h (by simp)
  · rename_i found hfind
    unfold atRoute at h
    split at h
    · rename_i hadmits
      cases h
      exact ⟨List.mem_of_find?_eq_some hfind, rfl, admits_iff.mp hadmits⟩
    · exact absurd h (by simp)

end Proof
end OrcDb
