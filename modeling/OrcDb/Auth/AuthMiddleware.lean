import OrcDb.Auth.JwtValidator

/-!
# `AuthMiddleware` — what runs before a route

`src/auth/AuthMiddleware.{hpp,cpp}`. The token store is a member that the middleware does not
look at, and is left out.
-/

set_option autoImplicit false

namespace OrcDb

open Lib

structure AuthMiddleware where
  validator : JwtValidator
  publicPaths : List Bytes := [toBytes "/healthz", toBytes "/readyz", toBytes "/metrics"]

namespace AuthMiddleware

/-- `AddPublicPath`. -/
def addPublicPath (m : AuthMiddleware) (path : Bytes) : AuthMiddleware :=
  { m with publicPaths := m.publicPaths ++ [path] }

/-- The test in the loop over the public paths. -/
def isPublic (m : AuthMiddleware) (path : Bytes) : Bool :=
  m.publicPaths.any fun p => path = p || path.take p.length = p

/-- The function `MakeMiddleware` returns, at a time `now`. -/
def makeMiddleware (crypto : Crypto) (J : Json.Codec) (m : AuthMiddleware) (now : Int) :
    MiddlewareFn := fun req auth =>
  if m.isPublic req.path then
    -- the context counts as authenticated, and has no roles
    (none, { auth with authenticated := true })
  else
    match JwtValidator.extractBearerToken (req.getHeader (toBytes "Authorization")) with
    | none => (some (.unauthorized J "missing Authorization header"), auth)
    | some token =>
        let auth := m.validator.validate crypto J now token
        if auth.authenticated = false then
          (some (.unauthorized J "invalid or expired token"), auth)
        else (none, auth)

end AuthMiddleware
end OrcDb
