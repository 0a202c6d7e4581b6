import OrcDb.Api.Router
import OrcDb.Raft.Rpc

/-!
# `JwtValidator` — bearer tokens

`src/auth/JwtValidator.{hpp,cpp}`: Base64url, the three parts of a token, its claims and its
signature. The cryptography is OpenSSL's; `Crypto` is what the code asks of it.

`decoding` is an array of 256 integers of which the first 128 are written down: the bytes from
128 on decode to 0, as zero initialisation has it, not to -1.
-/

set_option autoImplicit false

namespace OrcDb

open Lib

/-! ## Base64url -/

namespace Base64

/-- `B64_CHARS[i]`. -/
def char (i : Nat) : UInt8 :=
  if i < 26 then UInt8.ofNat (65 + i)
  else if i < 52 then UInt8.ofNat (97 + (i - 26))
  else if i < 62 then UInt8.ofNat (48 + (i - 52))
  else if i = 62 then 43
  else 47

/-- The character with index `(val >> shift) & 0x3F`. -/
def charAt (val shift : Nat) : UInt8 := char (val / 2 ^ shift % 64)

/-- The first loop of `Base64UrlEncode`: three bytes become four characters. -/
def encodeGroups : Bytes → Bytes
  | [] => []
  | [a] =>
      let val := a.toNat * 2 ^ 16
      [charAt val 18, charAt val 12, 61, 61]
  | [a, b] =>
      let val := a.toNat * 2 ^ 16 + b.toNat * 2 ^ 8
      [charAt val 18, charAt val 12, charAt val 6, 61]
  | a :: b :: c :: rest =>
      let val := a.toNat * 2 ^ 16 + b.toNat * 2 ^ 8 + c.toNat
      [charAt val 18, charAt val 12, charAt val 6, charAt val 0] ++ encodeGroups rest

/-- `+` to `-` and `/` to `_`. -/
def toUrl (c : UInt8) : UInt8 := if c = 43 then 45 else if c = 47 then 95 else c

/-- `-` to `+` and `_` to `/`. -/
def ofUrl (c : UInt8) : UInt8 := if c = 45 then 43 else if c = 95 then 47 else c

/-- `Base64UrlEncode`. -/
def encode (data : Bytes) : Bytes :=
  ((encodeGroups data).map toUrl).rdropWhile (· = 61)

/-- `decoding[c]`, -1 being `none`. -/
def decoding (c : UInt8) : Option Nat :=
  if 128 ≤ c then some 0
  else if 65 ≤ c && c ≤ 90 then some (c.toNat - 65)
  else if 97 ≤ c && c ≤ 122 then some (c.toNat - 97 + 26)
  else if 48 ≤ c && c ≤ 57 then some (c.toNat - 48 + 52)
  else if c = 43 then some 62
  else if c = 47 then some 63
  else none

/-- The loop of `Base64UrlDecode` over groups of four. -/
def decodeGroups : Bytes → Bytes
  | c₀ :: c₁ :: c₂ :: c₃ :: rest =>
      match decoding c₀, decoding c₁ with
      | some v₀, some v₁ =>
          let v₂ := decoding c₂
          let v₃ := decoding c₃
          [UInt8.ofNat (v₀ * 4 + v₁ / 16)] ++
            (match v₂ with
              | some v₂ => [UInt8.ofNat (v₁ % 16 * 16 + v₂ / 4)]
              | none => []) ++
            (match v₃ with
              -- `-1 & 0x3` is 3
              | some v₃ => [UInt8.ofNat ((v₂.elim 3 (· % 4)) * 64 + v₃)]
              | none => []) ++
            decodeGroups rest
      | _, _ => []
  | _ => []

/-- `Base64UrlDecode`. -/
def decode (input : Bytes) : Bytes :=
  let s := input.map ofUrl
  decodeGroups (s ++ List.replicate ((4 - s.length % 4) % 4) 61)

end Base64

/-! ## Tokens -/

structure JwtClaims where
  sub : String := ""
  iss : String := ""
  roles : List String := []
  exp : Int := 0
  iat : Int := 0
  jti : String := ""
deriving DecidableEq

/-- What the code asks of OpenSSL. -/
structure Crypto where
  /-- `HMAC(EVP_sha256(), key, message)`. -/
  hmacSha256 : Bytes → Bytes → Bytes
  /-- `PEM_read_bio_PUBKEY` finds a key. -/
  isPublicKey : Bytes → Bool
  /-- `EVP_DigestVerify` with a key, a message and a signature. -/
  verifySha256 : Bytes → Bytes → Bytes → Bool

structure JwtConfig where
  algorithm : String := "HS256"
  secret : Bytes := []
  publicKeyPem : Bytes := []
  issuer : String := "orcdb"
  clockSkewSeconds : Int := 30

structure JwtValidator where
  config : JwtConfig
  /-- `rsaKey_`, by its PEM text. -/
  rsaKey : Option Bytes := none

namespace JwtValidator

variable (crypto : Crypto) (J : Json.Codec)

/-- The constructor; it throws when the key does not load. -/
def make (config : JwtConfig) : Option JwtValidator :=
  if config.algorithm = "RS256" && config.publicKeyPem ≠ [] then
    if crypto.isPublicKey config.publicKeyPem then
      some { config, rsaKey := some config.publicKeyPem }
    else none
  else some { config }

/-- `ExtractBearerToken`. -/
def extractBearerToken (authHeader : Bytes) : Option Bytes :=
  if authHeader.take 7 ≠ toBytes "Bearer " then none else some (authHeader.drop 7)

/-- `j.value(k, int64_t{0})`. -/
def valueInt64 (j : Json) (k : String) : Option Int := (valueInt j k 0).map wrapInt64

/-- `ParsePayload`; `none` is an exception. -/
def parsePayload (payloadJson : Bytes) : Option JwtClaims := do
  let j ← (ofBytes? payloadJson).bind J.parse
  -- `value` throws on anything but an object
  let .obj _ := j | none
  let sub ← valueString j "sub" ""
  let iss ← valueString j "iss" ""
  let exp ← valueInt64 j "exp"
  let iat ← valueInt64 j "iat"
  let jti ← valueString j "jti" ""
  let roles ← match j.field? "roles" with
    | some (.arr rs) => rs.mapM getString
    | _ => some []
  return { sub, iss, roles, exp, iat, jti }

/-- `VerifyHS256`: the comparison looks at every byte. -/
def verifyHS256 (v : JwtValidator) (headerPayload sigBase64Url : Bytes) : Bool :=
  Base64.encode (crypto.hmacSha256 v.config.secret headerPayload) = sigBase64Url

/-- `VerifyRS256`. -/
def verifyRS256 (v : JwtValidator) (headerPayload sigBase64Url : Bytes) : Bool :=
  match v.rsaKey with
  | none => false
  | some key => crypto.verifySha256 key headerPayload (Base64.decode sigBase64Url)

/-- `ValidateClaims` at `now`, in seconds since the epoch. -/
def validateClaims (v : JwtValidator) (now : Int) (claims : JwtClaims) : Bool :=
  if claims.exp > 0 && now > wrapInt64 (claims.exp + v.config.clockSkewSeconds) then false
  else if v.config.issuer ≠ "" && claims.iss ≠ v.config.issuer then false
  else true

/-- The header with the payload, the payload and the signature: a token up to its second dot
    (46), between the dots, and behind the second. -/
def splitToken (token : Bytes) : Option (Bytes × Bytes × Bytes) :=
  if 46 ∈ token then
    let header := token.takeWhile (· ≠ 46)
    let rest := (token.dropWhile (· ≠ 46)).tail
    if 46 ∈ rest then
      let payload := rest.takeWhile (· ≠ 46)
      some (header ++ 46 :: payload, payload, (rest.dropWhile (· ≠ 46)).tail)
    else none
  else none

/-- `Validate`. -/
def validate (v : JwtValidator) (now : Int) (token : Bytes) : AuthContext :=
  let ctx : AuthContext := { rawToken := token }
  match splitToken token with
  | none => ctx
  | some (headerPayload, payloadB64, sigPart) =>
      match parsePayload J (Base64.decode payloadB64) with
      | none => ctx
      | some claims =>
          let sigOk :=
            if v.config.algorithm = "HS256" then v.verifyHS256 crypto headerPayload sigPart
            else if v.config.algorithm = "RS256" then v.verifyRS256 crypto headerPayload sigPart
            else false
          if sigOk && v.validateClaims now claims then
            { ctx with authenticated := true, subject := claims.sub, roles := claims.roles }
          else ctx

/-- `GenerateHS256Token`. -/
def generateHS256Token (v : JwtValidator) (claims : JwtClaims) : Bytes :=
  let header := Base64.encode (toBytes "\x7b\"alg\":\"HS256\",\"typ\":\"JWT\"\x7d")
  let payload := Base64.encode (toBytes (J.dump (.obj
    [("exp", .num claims.exp), ("iat", .num claims.iat), ("iss", .str claims.iss),
     ("jti", .str claims.jti), ("roles", .arr (claims.roles.map .str)), ("sub", .str claims.sub)])))
  let headerPayload := header ++ 46 :: payload
  headerPayload ++ 46 :: Base64.encode (crypto.hmacSha256 v.config.secret headerPayload)

end JwtValidator
end OrcDb
