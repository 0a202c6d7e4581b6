import OrcDb.Auth.AuthMiddleware

/-!
# `TokenStore` — revoked tokens

`src/auth/TokenStore.{hpp,cpp}`, and what `main` builds around it: the router has the middleware,
the middleware has the token store. `Revoke` may be called at any time between two requests;
every request is dispatched with a fresh context.
-/

set_option autoImplicit false

namespace OrcDb

open Lib

/-- `revoked_` is an `unordered_set`. -/
structure TokenStore where
  revoked : Finset String := ∅

namespace TokenStore

/-- `Revoke`. -/
def revoke (s : TokenStore) (jti : String) : TokenStore := { revoked := insert jti s.revoked }

/-- `IsRevoked`. -/
def isRevoked (s : TokenStore) (jti : String) : Bool := jti ∈ s.revoked

end TokenStore

/-- The router of `main`, its middleware and the token store the middleware holds. -/
structure Gateway (σ : Type) where
  middleware : AuthMiddleware
  tokenStore : TokenStore := {}
  routes : List (Route σ)

inductive GatewayEvent where
  | revoke (jti : String)
  /-- A request, and the time in seconds at which it is validated. -/
  | request (now : Int) (req : HttpRequest)

namespace Gateway

variable {σ : Type} (crypto : Crypto) (J : Json.Codec)

/-- `SetAuthMiddleware(authMw->MakeMiddleware())`. -/
def router (g : Gateway σ) (now : Int) : Router σ :=
  { routes := g.routes, authMiddleware := some (g.middleware.makeMiddleware crypto J now) }

/-- One event, with what `Dispatch` comes to if it is a request. No route of `main` asks the
    token store, and neither does the middleware. -/
def step (g : Gateway σ) : GatewayEvent → Gateway σ × Option (Dispatched σ)
  | .revoke jti => ({ g with tokenStore := g.tokenStore.revoke jti }, none)
  | .request now req => (g, some ((g.router crypto J now).choose J req {}))

/-- One event after the other. -/
def run (g : Gateway σ) (events : List GatewayEvent) : Gateway σ :=
  events.foldl (fun g ev => (g.step crypto J ev).1) g

end Gateway
end OrcDb
