import OrcDb.Proof.Auth.Base64
import OrcDb.Proof.Auth.Bypass

/-!
# Tokens

A token that `GenerateHS256Token` has issued is accepted while its claims say so, and gives
the context its claims describe (`issued_validates`). The way there is long but every
step of it is an equation: the document is printed and parsed, its bytes come back from
Base64url (`decode_encode`), and no character of Base64url is a dot, so the three parts are
found where they were joined (`splitToken_join`).

In the other direction everything rests on the signature: `validate_authenticated` says what
an accepted token must have, and the signature is part of it.

The expiry is where code and intent part. `ValidateClaims` takes an `exp` that is not positive
for no expiry, and adds the skew in 64 bits (`expiry_iff`).
-/

set_option autoImplicit false

namespace OrcDb
namespace Proof

open Lib

/-! ## The parts of a token -/

theorem takeWhile_append_dot {part : Bytes} (h : 46 ∉ part) (rest : Bytes) :
    (part ++ 46 :: rest).takeWhile (· ≠ 46) = part ∧
      (part ++ 46 :: rest).dropWhile (· ≠ 46) = 46 :: rest := by
  have hall : ∀ c ∈ part, decide (c ≠ 46) = true := by
    intro c hc
    exact decide_eq_true fun heq => h (heq ▸ hc)
  rw [List.takeWhile_append_of_pos hall, List.dropWhile_append_of_pos hall]
  simp

/-- The parts are found where they were joined; the signature may hold anything. -/
theorem splitToken_join {header payload : Bytes} (hheader : 46 ∉ header) (hpayload : 46 ∉ payload)
    (sig : Bytes) :
    JwtValidator.splitToken ((header ++ 46 :: payload) ++ 46 :: sig) =
      some (header ++ 46 :: payload, payload, sig) := by
  have hfirst := takeWhile_append_dot hheader (payload ++ 46 :: sig)
  have hsecond := takeWhile_append_dot hpayload sig
  rw [List.append_assoc, List.cons_append]
  simp only [JwtValidator.splitToken, hfirst.1, hfirst.2, List.tail_cons, hsecond.1, hsecond.2,
    List.mem_append, List.mem_cons, true_or, or_true, if_true]

/-! ## What `Validate` makes of the parts -/

section Validate

variable {crypto : Crypto} {J : Json.Codec} {v : JwtValidator} {now : Int} {token : Bytes}
  {claims : JwtClaims}

/-- The signature check `Validate` runs under its configuration. -/
def Signed (crypto : Crypto) (v : JwtValidator) (headerPayload sig : Bytes) : Prop :=
  (v.config.algorithm = "HS256" ∧ v.verifyHS256 crypto headerPayload sig = true) ∨
    (v.config.algorithm = "RS256" ∧ v.verifyRS256 crypto headerPayload sig = true)

/-- A token whose payload holds the claims, with a signature that `Validate` accepts. -/
def SignedToken (crypto : Crypto) (J : Json.Codec) (v : JwtValidator) (token : Bytes)
    (claims : JwtClaims) : Prop :=
  ∃ headerPayload payload sig, JwtValidator.splitToken token = some (headerPayload, payload, sig) ∧
    JwtValidator.parsePayload J (Base64.decode payload) = some claims ∧
    Signed crypto v headerPayload sig

/-- The context of an accepted token. -/
def contextOf (token : Bytes) (claims : JwtClaims) : AuthContext :=
  { authenticated := true, subject := claims.sub, rawToken := token, roles := claims.roles }

theorem validate_of_signed (h : SignedToken crypto J v token claims) :
    v.validate crypto J now token =
      if v.validateClaims now claims then contextOf token claims else { rawToken := token } := by
  obtain ⟨headerPayload, payload, sig, hsplit, hparse, hsigned⟩ := h
  rcases hsigned with ⟨halg, hverify⟩ | ⟨halg, hverify⟩
  · simp [JwtValidator.validate, hsplit, hparse, halg, hverify, contextOf]
  · simp [JwtValidator.validate, hsplit, hparse, halg, hverify, contextOf]

/-- Whatever is accepted is signed. -/
theorem validate_authenticated (h : (v.validate crypto J now token).authenticated = true) :
    ∃ claims, SignedToken crypto J v token claims ∧ v.validateClaims now claims = true := by
  unfold JwtValidator.validate at h
  dsimp only at h
  split at h
  · exact absurd h (by simp)
  · rename_i headerPayload payload sig hsplit
    split at h
    · exact absurd h (by simp)
    · rename_i claims hparse
      split at h
      · rename_i halg
        split at h
        · rename_i hok
          obtain ⟨hsig, hclaims⟩ := Bool.and_eq_true_iff.mp hok
          exact ⟨claims, ⟨headerPayload, payload, sig, hsplit, hparse, Or.inl ⟨halg, hsig⟩⟩,
            hclaims⟩
        · exact absurd h (by simp)
      · split at h
        · rename_i halg
          split at h
          · rename_i hok
            obtain ⟨hsig, hclaims⟩ := Bool.and_eq_true_iff.mp hok
            exact ⟨claims, ⟨headerPayload, payload, sig, hsplit, hparse, Or.inr ⟨halg, hsig⟩⟩,
              hclaims⟩
          · exact absurd h (by simp)
        · exact absurd h (by simp)

theorem validateClaims_iff : v.validateClaims now claims = true ↔
    (claims.exp ≤ 0 ∨ now ≤ wrapInt64 (claims.exp + v.config.clockSkewSeconds)) ∧
      (v.config.issuer = "" ∨ claims.iss = v.config.issuer) := by
  unfold JwtValidator.validateClaims
  split
  · rename_i hexpired
    simp only [Bool.and_eq_true, decide_eq_true_eq] at hexpired
    refine iff_of_false (by simp) ?_
    rintro ⟨hle | hle, -⟩
    · omega
    · omega
  · rename_i hlive
    simp only [Bool.and_eq_true, decide_eq_true_eq, not_and] at hlive
    have htime : claims.exp ≤ 0 ∨ now ≤ wrapInt64 (claims.exp + v.config.clockSkewSeconds) := by
      by_cases hpos : claims.exp > 0
      · exact Or.inr (not_lt.mp (hlive hpos))
      · exact Or.inl (not_lt.mp hpos)
    split
    · rename_i hissuer
      simp only [Bool.and_eq_true, decide_eq_true_eq] at hissuer
      refine iff_of_false (by simp) ?_
      rintro ⟨-, hnone | hsame⟩
      · exact hissuer.1 hnone
      · exact hissuer.2 hsame
    · rename_i hissuer
      simp only [Bool.and_eq_true, decide_eq_true_eq, not_and, not_not] at hissuer
      refine iff_of_true rfl ⟨htime, ?_⟩
      by_cases hnone : v.config.issuer = ""
      · exact Or.inl hnone
      · exact Or.inr (hissuer hnone)

theorem authenticated_iff_of_signed (h : SignedToken crypto J v token claims) :
    (v.validate crypto J now token).authenticated = true ↔ v.validateClaims now claims = true := by
  rw [validate_of_signed h]
  split
  · rename_i hok
    exact iff_of_true rfl hok
  · rename_i hno
    exact iff_of_false (by simp) hno

end Validate

/-! ## Issued tokens -/

/-- The document of the claims. -/
def claimsJson (claims : JwtClaims) : Json :=
  .obj [("exp", .num claims.exp), ("iat", .num claims.iat), ("iss", .str claims.iss),
    ("jti", .str claims.jti), ("roles", .arr (claims.roles.map .str)), ("sub", .str claims.sub)]

theorem canonical_claimsJson (claims : JwtClaims) : (claimsJson claims).Canonical := by
  have hkeys : ["exp", "iat", "iss", "jti", "roles", "sub"].Pairwise (· < ·) := by decide
  refine .of_keys hkeys ?_
  intro f hf
  simp only [List.mem_cons, List.not_mem_nil, or_false] at hf
  rcases hf with rfl | rfl | rfl | rfl | rfl | rfl
  · exact .num _
  · exact .num _
  · exact .str _
  · exact .str _
  · exact .arr_map fun role _ => .str role
  · exact .str _

/-- The claims come back; the two times as `int64_t`s. -/
theorem parsePayload_dump (J : Json.Codec) (claims : JwtClaims) :
    JwtValidator.parsePayload J (toBytes (J.dump (claimsJson claims))) =
      some { claims with exp := wrapInt64 claims.exp, iat := wrapInt64 claims.iat } := by
  have hsub : valueString (claimsJson claims) "sub" "" = some claims.sub := rfl
  have hiss : valueString (claimsJson claims) "iss" "" = some claims.iss := rfl
  have hjti : valueString (claimsJson claims) "jti" "" = some claims.jti := rfl
  have hexp : JwtValidator.valueInt64 (claimsJson claims) "exp" = some (wrapInt64 claims.exp) := rfl
  have hiat : JwtValidator.valueInt64 (claimsJson claims) "iat" = some (wrapInt64 claims.iat) := rfl
  have hfield : (claimsJson claims).field? "roles" = some (.arr (claims.roles.map .str)) := rfl
  have hroles : (claims.roles.map Json.str).mapM getString = some claims.roles := by
    have hread : claims.roles.mapM (getString ∘ Json.str) = some (claims.roles.map id) :=
      Json.mapM_eq_some_map fun _ _ => rfl
    rw [List.mapM_map, hread, List.map_id]
  unfold JwtValidator.parsePayload
  rw [ofBytes?_toBytes, Option.bind_some, J.parse_dump _ (canonical_claimsJson claims)]
  simp only [Option.bind_eq_bind, Option.bind_some, hsub, hiss, hexp, hiat, hjti, hfield, hroles]
  rfl

/-- A token out of `GenerateHS256Token` is signed, and carries the claims it was made for. -/
theorem signedToken_generated (crypto : Crypto) (J : Json.Codec) {v : JwtValidator}
    (halg : v.config.algorithm = "HS256") (claims : JwtClaims) :
    SignedToken crypto J v (v.generateHS256Token crypto J claims)
      { claims with exp := wrapInt64 claims.exp, iat := wrapInt64 claims.iat } := by
  refine ⟨_, _, _, splitToken_join (dot_notMem_encode _) (dot_notMem_encode _) _, ?_,
    Or.inl ⟨halg, decide_eq_true rfl⟩⟩
  rw [decode_encode]
  exact parsePayload_dump J claims

/-- **Issued tokens validate, and only under their signature.** With a skew that is not negative,
    a token is accepted up to its `exp` (0 being none) and gives the subject and the roles it
    was issued for; and whatever the header and the payload of a token say, it is rejected if
    its third part is not the encoded HMAC of the first two. -/
theorem issued_validates (crypto : Crypto) (J : Json.Codec) {v : JwtValidator}
    (halg : v.config.algorithm = "HS256") :
    (∀ (claims : JwtClaims) (now : Int),
      v.config.issuer = "" ∨ v.config.issuer = claims.iss →
      0 ≤ v.config.clockSkewSeconds →
      claims.exp = 0 ∨ (0 ≤ now ∧ now ≤ claims.exp) →
      claims.exp + v.config.clockSkewSeconds < 2 ^ 63 →
      (v.validate crypto J now (v.generateHS256Token crypto J claims)).authenticated = true ∧
        (v.validate crypto J now (v.generateHS256Token crypto J claims)).subject = claims.sub ∧
        (v.validate crypto J now (v.generateHS256Token crypto J claims)).roles = claims.roles) ∧
    ∀ (header payload sig : Bytes) (now : Int), 46 ∉ header → 46 ∉ payload →
      sig ≠ Base64.encode (crypto.hmacSha256 v.config.secret (header ++ 46 :: payload)) →
      (v.validate crypto J now ((header ++ 46 :: payload) ++ 46 :: sig)).authenticated = false := by
  constructor
  · intro claims now hissuer hskew htime hover
    have hsigned := signedToken_generated crypto J halg claims
    have hexp : wrapInt64 claims.exp = claims.exp := wrapInt64_eq_self_iff.mpr (by omega)
    have hsum : wrapInt64 (claims.exp + v.config.clockSkewSeconds) =
        claims.exp + v.config.clockSkewSeconds := wrapInt64_eq_self_iff.mpr (by omega)
    have hok : v.validateClaims now
        { claims with exp := wrapInt64 claims.exp, iat := wrapInt64 claims.iat } = true := by
      refine validateClaims_iff.mpr ⟨?_, hissuer.imp_right Eq.symm⟩
      dsimp only
      rw [hexp, hsum]
      omega
    rw [validate_of_signed hsigned, if_pos hok]
    exact ⟨rfl, rfl, rfl⟩
  · intro header payload sig now hheader hpayload hsig
    rw [← Bool.not_eq_true]
    intro hauth
    obtain ⟨claims, ⟨headerPayload, payload', sig', hsplit, -, hsigned⟩, -⟩ :=
      validate_authenticated hauth
    rw [splitToken_join hheader hpayload] at hsplit
    cases hsplit
    rcases hsigned with ⟨-, hverify⟩ | ⟨hother, -⟩
    · exact hsig (of_decide_eq_true hverify).symm
    · rw [halg] at hother
      exact absurd hother (by decide)

theorem issued_validates_dave :
    (plainMiddleware.validator.validate plainCrypto Json.text 5
      (plainMiddleware.validator.generateHS256Token plainCrypto Json.text
        { sub := "dave", iss := "orcdb", roles := ["read", "write"], exp := 5 })).roles =
      ["read", "write"] ∧
    (plainMiddleware.validator.validate plainCrypto Json.text 5
      ((toBytes "e30" ++ 46 :: toBytes "e30") ++ 46 :: toBytes "xx")).authenticated = false := by
  have h := issued_validates plainCrypto Json.text (v := plainMiddleware.validator) rfl
  exact ⟨(h.1 _ 5 (Or.inr rfl) (by decide) (Or.inr (by decide)) (by decide)).2.2,
    h.2 _ _ _ 5 (by decide) (by decide) (by decide +kernel)⟩

/-- A validator that wants tokens to be good for another second. -/
def strictValidator : JwtValidator :=
  { config := { secret := toBytes "s", clockSkewSeconds := -1 } }

/-- With a negative skew a token is rejected before its `exp`. -/
theorem issued_validates_fails :
    strictValidator.config.algorithm = "HS256" ∧ strictValidator.config.issuer = "orcdb" ∧
    (strictValidator.validate plainCrypto Json.text 100
      (strictValidator.generateHS256Token plainCrypto Json.text
        { sub := "dave", iss := "orcdb", exp := 100 })).authenticated = false := by
  refine ⟨rfl, rfl, ?_⟩
  rw [← Bool.not_eq_true, authenticated_iff_of_signed (signedToken_generated _ _ rfl _)]
  decide

/-! ## Expiry -/

/-- **When expiry is enforced.** For a signed token of the configured issuer with the expiry `exp`,
    `Validate` decides `now ≤ exp + clockSkewSeconds`, and forms no sum that an `int64_t` does not
    hold, in two cases only: `exp` is positive and the sum fits, or `exp` is negative and
    the skew reaches over it to `now`. -/
theorem expiry_iff {crypto : Crypto} {J : Json.Codec} {v : JwtValidator} {token : Bytes}
    {claims : JwtClaims} (hsigned : SignedToken crypto J v token claims)
    (hissuer : v.config.issuer = "" ∨ claims.iss = v.config.issuer) (hexp : claims.exp ≠ 0)
    (now : Int) (hskew : 0 ≤ v.config.clockSkewSeconds ∧ v.config.clockSkewSeconds < 2 ^ 31) :
    (((v.validate crypto J now token).authenticated = true ↔
        now ≤ claims.exp + v.config.clockSkewSeconds) ∧
      (0 < claims.exp → wrapInt64 (claims.exp + v.config.clockSkewSeconds) =
        claims.exp + v.config.clockSkewSeconds)) ↔
    (0 < claims.exp ∧ claims.exp + v.config.clockSkewSeconds < 2 ^ 63) ∨
      (claims.exp < 0 ∧ now ≤ claims.exp + v.config.clockSkewSeconds) := by
  rw [authenticated_iff_of_signed hsigned, validateClaims_iff, and_iff_left hissuer]
  rcases lt_or_gt_of_ne hexp with hneg | hpos
  · -- no expiry at all
    have haccept : claims.exp ≤ 0 ∨
        now ≤ wrapInt64 (claims.exp + v.config.clockSkewSeconds) := Or.inl (le_of_lt hneg)
    constructor
    · rintro ⟨hiff, -⟩
      exact Or.inr ⟨hneg, hiff.mp haccept⟩
    · rintro (⟨hpos, -⟩ | ⟨-, hle⟩)
      · omega
      · exact ⟨iff_of_true haccept hle, by omega⟩
  · constructor
    · rintro ⟨-, hfits⟩
      exact Or.inl ⟨hpos, (wrapInt64_eq_self_iff.mp (hfits hpos)).2⟩
    · rintro (⟨-, hlt⟩ | ⟨hneg, -⟩)
      · have hsum : wrapInt64 (claims.exp + v.config.clockSkewSeconds) =
            claims.exp + v.config.clockSkewSeconds := wrapInt64_eq_self_iff.mpr (by omega)
        rw [hsum]
        exact ⟨or_iff_right (by omega), fun _ => rfl⟩
      · omega

/-- A token for `dave` that expires at `exp`. -/
def expiringToken (exp : Int) : Bytes :=
  plainMiddleware.validator.generateHS256Token plainCrypto Json.text
    { sub := "dave", iss := "orcdb", exp }

theorem expiry_iff_soon :
    (plainMiddleware.validator.validate plainCrypto Json.text 35 (expiringToken 5)).authenticated =
      true ∧
    (plainMiddleware.validator.validate plainCrypto Json.text 36 (expiringToken 5)).authenticated =
      false := by
  have hsigned := signedToken_generated plainCrypto Json.text (v := plainMiddleware.validator) rfl
    { sub := "dave", iss := "orcdb", exp := 5 }
  have h := fun now =>
    ((expiry_iff hsigned (Or.inr rfl) (by decide) now (by decide)).mpr (Or.inl (by decide))).1
  refine ⟨(h 35).mpr (by decide), ?_⟩
  rw [← Bool.not_eq_true]
  exact mt (h 36).mp (by decide)

/-- A negative `exp` is long over and the token is accepted; at the end of the range the sum
    wraps and the token is rejected although it is not over. -/
theorem expiry_fails :
    (plainMiddleware.validator.validate plainCrypto Json.text 1700000000
      (expiringToken (-1))).authenticated = true ∧
    (plainMiddleware.validator.validate plainCrypto Json.text 1700000000
      (expiringToken (2 ^ 63 - 1))).authenticated = false := by
  have hsigned := fun exp => signedToken_generated plainCrypto Json.text
    (v := plainMiddleware.validator) rfl { sub := "dave", iss := "orcdb", exp }
  refine ⟨(authenticated_iff_of_signed (hsigned (-1))).mpr (by decide), ?_⟩
  rw [← Bool.not_eq_true]
  exact mt (authenticated_iff_of_signed (hsigned (2 ^ 63 - 1))).mp (by decide)

end Proof
end OrcDb
