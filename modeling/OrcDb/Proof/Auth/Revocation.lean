import OrcDb.Auth.TokenStore
import OrcDb.Proof.Auth.Token

/-!
# Revocation

`Revoke` puts a token's id into a set, and nothing reads the set: the middleware leaves the
check to the privileged routes, as it says, and no route makes it. So a run of the gateway
goes as it would go without the revocations (`dispatched_run`), and a request with a revoked
token reaches a handler whenever any other would: the token is accepted by `Validate`, and
the route that fits asks for no role it does not have (`reaches_iff`).
-/

set_option autoImplicit false

namespace OrcDb
namespace Proof

open Lib

variable {σ : Type} {crypto : Crypto} {J : Json.Codec}

/-- The request's bearer token carries the id. -/
def CarriesJti (J : Json.Codec) (req : HttpRequest) (jti : String) : Prop :=
  ∃ token headerPayload payload sig claims,
    req.getHeader (toBytes "Authorization") = toBytes "Bearer " ++ token ∧
    JwtValidator.splitToken token = some (headerPayload, payload, sig) ∧
    JwtValidator.parsePayload J (Base64.decode payload) = some claims ∧ claims.jti = jti

/-- `Dispatch` calls a handler. -/
def Reaches (d : Option (Dispatched σ)) : Prop :=
  ∃ route req auth, d = some (.handler route req auth)

/-- Revocation is honoured in a run: behind every `Revoke(jti)` no request on a path that is not
    public whose token carries `jti` reaches a handler. -/
def RevocationHonoured (crypto : Crypto) (J : Json.Codec) (g : Gateway σ)
    (events : List GatewayEvent) : Prop :=
  ∀ before jti between now req after,
    events = before ++ .revoke jti :: (between ++ .request now req :: after) →
    (∀ p ∈ g.middleware.publicPaths, ¬p <+: req.path) → CarriesJti J req jti →
    ¬Reaches ((g.run crypto J (before ++ .revoke jti :: between)).step crypto J
      (.request now req)).2

/-! ## What a run keeps -/

theorem step_keeps (crypto : Crypto) (J : Json.Codec) (g : Gateway σ) (ev : GatewayEvent) :
    (g.step crypto J ev).1.middleware = g.middleware ∧
      (g.step crypto J ev).1.routes = g.routes := by
  cases ev with
  | revoke jti => exact ⟨rfl, rfl⟩
  | request now req => exact ⟨rfl, rfl⟩

theorem run_keeps (crypto : Crypto) (J : Json.Codec) (g : Gateway σ)
    (events : List GatewayEvent) :
    (g.run crypto J events).middleware = g.middleware ∧
      (g.run crypto J events).routes = g.routes := by
  induction events generalizing g with
  | nil => exact ⟨rfl, rfl⟩
  | cons ev events ih =>
    obtain ⟨hm, hr⟩ := step_keeps crypto J g ev
    obtain ⟨hm', hr'⟩ := ih (g.step crypto J ev).1
    exact ⟨hm'.trans hm, hr'.trans hr⟩

/-- Whatever came before it, a request is dispatched as by the gateway the run began with. -/
theorem dispatched_run (g : Gateway σ) (events : List GatewayEvent) (now : Int)
    (req : HttpRequest) :
    ((g.run crypto J events).step crypto J (.request now req)).2 =
      (g.step crypto J (.request now req)).2 := by
  obtain ⟨hm, hr⟩ := run_keeps crypto J g events
  simp only [Gateway.step, Gateway.router, hm, hr]

/-! ## Which requests get through -/

/-- The request carries a token that `Validate` accepts at `now`, and the first route that fits
    asks for no role or for one of the token's. -/
def Welcome (crypto : Crypto) (J : Json.Codec) (g : Gateway σ) (now : Int) (req : HttpRequest) :
    Prop :=
  ∃ token claims route, req.getHeader (toBytes "Authorization") = toBytes "Bearer " ++ token ∧
    SignedToken crypto J g.middleware.validator token claims ∧
    g.middleware.validator.validateClaims now claims = true ∧
    g.routes.find? (fits req) = some route ∧
    (route.requiredRoles ≠ [] →
      ∃ role ∈ route.requiredRoles, role ∈ claims.roles ∨ "admin" ∈ claims.roles)

theorem bearer_iff {v : JwtValidator} {now : Int} {req : HttpRequest} {auth : AuthContext} :
    Bearer crypto J v now req auth ↔
      ∃ token claims, req.getHeader (toBytes "Authorization") = toBytes "Bearer " ++ token ∧
        SignedToken crypto J v token claims ∧ v.validateClaims now claims = true ∧
        auth = contextOf token claims := by
  constructor
  · rintro ⟨token, hheader, rfl, hauth⟩
    obtain ⟨claims, hsigned, hclaims⟩ := validate_authenticated hauth
    exact ⟨token, claims, hheader, hsigned, hclaims,
      by rw [validate_of_signed hsigned, if_pos hclaims]⟩
  · rintro ⟨token, claims, hheader, hsigned, hclaims, rfl⟩
    exact ⟨token, hheader, by rw [validate_of_signed hsigned, if_pos hclaims], rfl⟩

/-- On a path that is not public, a request reaches a handler exactly if it is welcome. -/
theorem reaches_iff {g : Gateway σ} {now : Int} {req : HttpRequest}
    (hprivate : ∀ p ∈ g.middleware.publicPaths, ¬p <+: req.path) :
    Reaches (g.step crypto J (.request now req)).2 ↔ Welcome crypto J g now req := by
  simp only [Gateway.step, Gateway.router, Router.choose]
  rcases makeMiddleware_cases crypto J g.middleware now req {} with
    ⟨⟨p, hp, hparam⟩, -⟩ | ⟨-, auth, hbearer, hpass⟩ | ⟨-, hnone, msg, auth, hturn⟩
  · exact absurd hparam (hprivate p hp)
  · obtain ⟨token, claims, hheader, hsigned, hclaims, rfl⟩ := bearer_iff.mp hbearer
    rw [hpass]
    dsimp only
    constructor
    · rintro ⟨route, req', auth', h⟩
      rw [Option.some.injEq, findRoute_eq] at h
      split at h
      · unfold noRoute at h
        split at h
        · exact absurd h (by simp)
        · exact absurd h (by simp)
      · rename_i found hfind
        unfold atRoute at h
        split at h
        · rename_i hadmits
          exact ⟨token, claims, found, hheader, hsigned, hclaims, hfind, admits_iff.mp hadmits⟩
        · exact absurd h (by simp)
    · rintro ⟨token', claims', route, hheader', hsigned', -, hfind, hroles⟩
      -- the header holds one token, and the token one payload
      rw [hheader] at hheader'
      obtain rfl := List.append_cancel_left hheader'
      obtain ⟨hp, payload, sig, hsplit, hparse, -⟩ := hsigned
      obtain ⟨hp', payload', sig', hsplit', hparse', -⟩ := hsigned'
      rw [hsplit] at hsplit'
      cases hsplit'
      rw [hparse] at hparse'
      cases hparse'
      rw [findRoute_eq, hfind]
      dsimp only
      have hadmits : admits (contextOf token claims) route = true := admits_iff.mpr hroles
      rw [atRoute, if_pos hadmits]
      exact ⟨_, _, _, rfl⟩
  · rw [hturn]
    refine iff_of_false ?_ ?_
    · rintro ⟨route, req', auth', h⟩
      exact absurd h (by simp)
    · rintro ⟨token, claims, route, hheader, hsigned, hclaims, -⟩
      exact hnone _ (bearer_iff.mpr ⟨token, claims, hheader, hsigned, hclaims, rfl⟩)

/-! ## The result -/

/-- **When revocation takes effect.** In a run of the gateway revocation is honoured exactly if no
    request that comes later with a revoked token on a path that is not public would be welcome
    anyway. -/
theorem revocation_iff (crypto : Crypto) (J : Json.Codec) (g : Gateway σ)
    (events : List GatewayEvent) :
    RevocationHonoured crypto J g events ↔
      ∀ before jti between now req after,
        events = before ++ .revoke jti :: (between ++ .request now req :: after) →
        (∀ p ∈ g.middleware.publicPaths, ¬p <+: req.path) → CarriesJti J req jti →
        ¬Welcome crypto J g now req := by
  constructor
  · intro h before jti between now req after hevents hprivate hjti
    rw [← reaches_iff hprivate, ← dispatched_run g (before ++ .revoke jti :: between)]
    exact h before jti between now req after hevents hprivate hjti
  · intro h before jti between now req after hevents hprivate hjti
    rw [dispatched_run, reaches_iff hprivate]
    exact h before jti between now req after hevents hprivate hjti

/-- A token of an administrator with an id. -/
def markedToken : Bytes :=
  plainMiddleware.validator.generateHS256Token plainCrypto Json.text
    { sub := "dave", iss := "orcdb", roles := ["admin"], jti := "t1" }

def plainGateway : Gateway Nat := { middleware := plainMiddleware, routes := [adminRoute] }

/-- A revoked token opens the door. -/
theorem revocation_fails :
    ¬RevocationHonoured plainCrypto Json.text plainGateway
      [.revoke "t1", .request 0 (adminRequest (toBytes "Bearer " ++ markedToken))] := by
  intro h
  refine h [] "t1" [] 0 _ [] rfl (by decide +kernel) ?_ ?_
  · have hsigned := signedToken_generated plainCrypto Json.text (v := plainMiddleware.validator) rfl
      { sub := "dave", iss := "orcdb", roles := ["admin"], jti := "t1" }
    obtain ⟨hp, payload, sig, hsplit, hparse, -⟩ := hsigned
    exact ⟨markedToken, hp, payload, sig, _, by decide +kernel, hsplit, hparse, rfl⟩
  · have hcalled : calledRoles ((plainGateway.router plainCrypto Json.text 0).choose Json.text
        (adminRequest (toBytes "Bearer " ++ markedToken)) {}) = some ["admin"] := by
      decide +kernel
    obtain ⟨route, req', auth, hchoose, -⟩ := of_calledRoles hcalled
    exact ⟨route, req', auth, congrArg some hchoose⟩

end Proof
end OrcDb
