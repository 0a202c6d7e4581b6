import OrcDb.Auth.AuthMiddleware
import OrcDb.Lib.JsonText
import OrcDb.Proof.Api.Dispatch

/-!
# No way around the middleware

`makeMiddleware_cases` says what it takes to get past the middleware and with which context: a
public path, and then no roles, or a bearer token that `Validate` accepts, and then what
`Validate` says. `Dispatch` calls a handler only behind that, and the handler of a route that
asks for roles only with a context that has one of them (`findRoute_handler`). On a public path
there are none to have.
-/

set_option autoImplicit false

namespace OrcDb
namespace Proof

open Lib

variable {crypto : Crypto} {J : Json.Codec} {m : AuthMiddleware} {now : Int} {req : HttpRequest}
  {auth : AuthContext} {σ : Type}

/-- The request carries a token that `Validate` turns into an authenticated context. -/
def Bearer (crypto : Crypto) (J : Json.Codec) (v : JwtValidator) (now : Int) (req : HttpRequest)
    (auth : AuthContext) : Prop :=
  ∃ token, req.getHeader (toBytes "Authorization") = toBytes "Bearer " ++ token ∧
    v.validate crypto J now token = auth ∧ auth.authenticated = true

/-! ## The middleware -/

theorem isPublic_iff {path : Bytes} : m.isPublic path = true ↔ ∃ p ∈ m.publicPaths, p <+: path := by
  simp only [AuthMiddleware.isPublic, List.any_eq_true, Bool.or_eq_true, decide_eq_true_eq,
    List.prefix_iff_eq_take]
  constructor
  · rintro ⟨p, hp, h | h⟩
    · exact ⟨p, hp, by rw [h, List.take_length]⟩
    · exact ⟨p, hp, h.symm⟩
  · rintro ⟨p, hp, h⟩
    exact ⟨p, hp, Or.inr h.symm⟩

theorem extractBearerToken_iff {authHeader token : Bytes} :
    JwtValidator.extractBearerToken authHeader = some token ↔
      authHeader = toBytes "Bearer " ++ token := by
  have hlen : (toBytes "Bearer ").length = 7 := by decide
  unfold JwtValidator.extractBearerToken
  constructor
  · intro h
    split at h
    · exact absurd h (by simp)
    · rename_i htake
      rw [ne_eq, not_not] at htake
      cases h
      rw [← htake, List.take_append_drop]
  · rintro rfl
    rw [List.take_left' hlen, List.drop_left' hlen, if_neg (by simp)]

/-- **What gets past the middleware**, and what turns back with which response. -/
theorem makeMiddleware_cases (crypto : Crypto) (J : Json.Codec) (m : AuthMiddleware) (now : Int)
    (req : HttpRequest) (auth : AuthContext) :
    ((∃ p ∈ m.publicPaths, p <+: req.path) ∧
      m.makeMiddleware crypto J now req auth = (none, { auth with authenticated := true })) ∨
    ((∀ p ∈ m.publicPaths, ¬p <+: req.path) ∧ ∃ auth', Bearer crypto J m.validator now req auth' ∧
      m.makeMiddleware crypto J now req auth = (none, auth')) ∨
    ((∀ p ∈ m.publicPaths, ¬p <+: req.path) ∧
      (∀ auth', ¬Bearer crypto J m.validator now req auth') ∧
      ∃ msg auth', m.makeMiddleware crypto J now req auth =
        (some (.unauthorized J msg), auth')) := by
  unfold AuthMiddleware.makeMiddleware
  by_cases hpublic : m.isPublic req.path = true
  · rw [if_pos hpublic]
    exact Or.inl ⟨isPublic_iff.mp hpublic, rfl⟩
  · have hprivate : ∀ p ∈ m.publicPaths, ¬p <+: req.path := by
      intro p hp hparam
      exact hpublic (isPublic_iff.mpr ⟨p, hp, hparam⟩)
    rw [if_neg hpublic]
    refine Or.inr ?_
    cases htoken : JwtValidator.extractBearerToken (req.getHeader (toBytes "Authorization")) with
    | none =>
      refine Or.inr ⟨hprivate, ?_, _, _, rfl⟩
      rintro auth' ⟨token, hheader, -⟩
      rw [extractBearerToken_iff.mpr hheader] at htoken
      exact absurd htoken (by simp)
    | some token =>
      have hheader := extractBearerToken_iff.mp htoken
      cases hok : (m.validator.validate crypto J now token).authenticated with
      | true => exact Or.inl ⟨hprivate, _, ⟨token, hheader, rfl, hok⟩, by simp [hok]⟩
      | false =>
        refine Or.inr ⟨hprivate, ?_, "invalid or expired token",
          m.validator.validate crypto J now token, by simp only [hok, if_true]⟩
        rintro auth' ⟨token', hheader', rfl, hok'⟩
        rw [hheader] at hheader'
        rw [List.append_cancel_left hheader', hok'] at hok
        exact absurd hok (by simp)

/-! ## The result -/

/-- The router with the middleware in front of the given routes. -/
def guarded (crypto : Crypto) (J : Json.Codec) (m : AuthMiddleware) (now : Int)
    (routes : List (Route σ)) : Router σ :=
  { routes, authMiddleware := some (m.makeMiddleware crypto J now) }

/-- **Authentication and roles cannot be bypassed.** For every list of public paths, every time
    and every request, with a fresh context:
    without a public path and without a bearer token that `Validate` accepts there is one
    response with code 401, for every route table and every state of what is behind it, which
    stays as it is, and no handler is called; and a handler of a route that requires roles is
    called only for a bearer token that `Validate` accepted, whose roles contain one of them or
    `admin`. -/
theorem no_bypass (crypto : Crypto) (J : Json.Codec) (m : AuthMiddleware) (now : Int)
    (req : HttpRequest) :
    ((∀ p ∈ m.publicPaths, ¬p <+: req.path) →
      (∀ auth, ¬Bearer crypto J m.validator now req auth) →
      ∃ response, response.statusCode = 401 ∧
        ∀ (σ : Type) (routes : List (Route σ)),
          (guarded crypto J m now routes).choose J req {} = .reply response ∧
          ∀ s : σ, (guarded crypto J m now routes).dispatch J req {} s = (some response, s)) ∧
    (∀ (σ : Type) (routes : List (Route σ)) route req' auth,
      (guarded crypto J m now routes).choose J req {} = .handler route req' auth →
      route.requiredRoles ≠ [] →
      Bearer crypto J m.validator now req auth ∧
        ∃ role ∈ route.requiredRoles, role ∈ auth.roles ∨ "admin" ∈ auth.roles) := by
  rcases makeMiddleware_cases crypto J m now req {} with
    ⟨⟨p, hp, hparam⟩, hpass⟩ | ⟨hprivate, auth₀, hbearer, hpass⟩ |
    ⟨hprivate, hnone, msg, auth₀, hturn⟩
  · refine ⟨fun hprivate => absurd hparam (hprivate p hp), ?_⟩
    intro σ routes route req' auth h hroles
    simp only [Router.choose, guarded, hpass] at h
    obtain ⟨-, rfl, hrole⟩ := findRoute_handler h
    -- the context of a public path has no roles
    obtain ⟨role, -, hrole⟩ := hrole hroles
    exact absurd hrole (by simp)
  · refine ⟨fun _ hno => absurd hbearer (hno auth₀), ?_⟩
    intro σ routes route req' auth h hroles
    simp only [Router.choose, guarded, hpass] at h
    obtain ⟨-, rfl, hrole⟩ := findRoute_handler h
    exact ⟨hbearer, hrole hroles⟩
  · refine ⟨fun _ _ => ⟨.unauthorized J msg, rfl, fun σ routes => ?_⟩, ?_⟩
    · have hchoose : (guarded crypto J m now routes).choose J req {} =
          .reply (.unauthorized J msg) := by
        simp only [Router.choose, guarded, hturn]
      exact ⟨hchoose, fun s => by rw [Router.dispatch, hchoose]⟩
    · intro σ routes route req' auth h
      simp only [Router.choose, guarded, hturn] at h
      exact absurd h (by simp)

/-- A stand-in for OpenSSL: the signature is the secret. -/
def plainCrypto : Crypto where
  hmacSha256 := fun key _ => key
  isPublicKey := fun _ => false
  verifySha256 := fun _ _ _ => false

def plainMiddleware : AuthMiddleware := { validator := { config := { secret := toBytes "s" } } }

/-- `POST /admin` with the given `Authorization` header. -/
def adminRequest (authHeader : Bytes) : HttpRequest :=
  { method := toBytes "POST", path := toBytes "/admin"
    headers := AList.insert (toBytes "Authorization") authHeader ∅ }

def adminToken : Bytes :=
  plainMiddleware.validator.generateHS256Token plainCrypto Json.text
    { sub := "dave", iss := "orcdb", roles := ["admin"] }

/-- A route that counts the calls of its handler. -/
def adminRoute : Route Nat where
  method := toBytes "POST"
  pattern := toBytes "/admin"
  regex := compilePattern (toBytes "/admin")
  handler := fun _ _ n => (some .noContent, n + 1)
  requiredRoles := ["admin"]

/-- The roles of the route whose handler is called. -/
def calledRoles : Dispatched σ → Option (List String)
  | .handler route _ _ => some route.requiredRoles
  | _ => none

theorem of_calledRoles {d : Dispatched σ} {roles : List String} (h : calledRoles d = some roles) :
    ∃ route req auth, d = .handler route req auth ∧ route.requiredRoles = roles := by
  cases d with
  | reply response => exact absurd h (by simp [calledRoles])
  | throws => exact absurd h (by simp [calledRoles])
  | handler route req auth => exact ⟨route, req, auth, rfl, Option.some.inj h⟩

theorem no_bypass_admin :
    (∃ response, response.statusCode = 401 ∧ ∀ s : Nat,
      (guarded plainCrypto Json.text plainMiddleware 0 [adminRoute]).dispatch Json.text
        (adminRequest (toBytes "Basic dXNlcjpwYXNz")) {} s = (some response, s)) ∧
    ∃ auth, Bearer plainCrypto Json.text plainMiddleware.validator 0
        (adminRequest (toBytes "Bearer " ++ adminToken)) auth ∧
      ∃ role ∈ ["admin"], role ∈ auth.roles ∨ "admin" ∈ auth.roles := by
  constructor
  · obtain ⟨response, hcode, hall⟩ := (no_bypass plainCrypto Json.text plainMiddleware 0
      (adminRequest (toBytes "Basic dXNlcjpwYXNz"))).1 (by decide +kernel) (by
        rintro auth ⟨token, hheader, -⟩
        have hnone : JwtValidator.extractBearerToken
            ((adminRequest (toBytes "Basic dXNlcjpwYXNz")).getHeader (toBytes "Authorization")) =
              none := by
          decide +kernel
        rw [extractBearerToken_iff.mpr hheader] at hnone
        exact absurd hnone (by simp))
    exact ⟨response, hcode, (hall Nat [adminRoute]).2⟩
  · have hcalled : calledRoles ((guarded plainCrypto Json.text plainMiddleware 0
        [adminRoute]).choose Json.text (adminRequest (toBytes "Bearer " ++ adminToken)) {}) =
          some ["admin"] := by
      decide +kernel
    obtain ⟨route, req', auth, hchoose, hroles⟩ := of_calledRoles hcalled
    obtain ⟨hbearer, hrole⟩ := (no_bypass plainCrypto Json.text plainMiddleware 0 _).2 Nat
      [adminRoute] route req' auth hchoose (by rw [hroles]; simp)
    exact ⟨auth, hbearer, hroles ▸ hrole⟩

end Proof
end OrcDb
