import OrcDb.Lib.Json
import OrcDb.Network.HttpParser

/-!
# `HttpResponse` — responses and their bytes

`src/network/HttpResponse.hpp` and `HttpResponse.cpp`. The convenience constructors differ in
their code and in the headers they set; those that report an error put the message into a
JSON document. Those that the router and the handlers in `Api` call are here. The field
`statusText` is never read and is left out: `Serialise` takes the text from the code.
-/

set_option autoImplicit false

namespace OrcDb

open Lib

structure HttpResponse where
  statusCode : Nat := 200
  headers : Table := ∅
  body : Bytes := []
deriving DecidableEq

namespace HttpResponse

/-- `SetHeader`. -/
def setHeader (r : HttpResponse) (key value : String) : HttpResponse :=
  { r with headers := r.headers.insert (toBytes key) (toBytes value) }

/-- A response with a body and its `Content-Type`. -/
def withBody (statusCode : Nat) (body : String) (contentType : String) : HttpResponse :=
  setHeader { statusCode, body := toBytes body } "Content-Type" contentType

def ok (body : String) : HttpResponse := withBody 200 body "application/json"

def created (body : String) : HttpResponse := withBody 201 body "application/json"

def noContent : HttpResponse := { statusCode := 204 }

section Errors

variable (J : Json.Codec)

def jsonError (msg : String) : String := J.dump (.obj [("error", .str msg)])

/-- The constructors for errors. -/
def error (statusCode : Nat) (msg : String) : HttpResponse :=
  withBody statusCode (jsonError J msg) "application/json"

def badRequest (msg : String) : HttpResponse := error J 400 msg

def unauthorized (msg : String) : HttpResponse :=
  setHeader (error J 401 msg) "WWW-Authenticate" "Bearer realm=\"orcdb\""

def forbidden (msg : String) : HttpResponse := error J 403 msg

def notFound (msg : String) : HttpResponse := error J 404 msg

def conflict (msg : String) : HttpResponse := error J 409 msg

def internalError (msg : String) : HttpResponse := error J 500 msg

def serviceUnavailable (msg : String) : HttpResponse := error J 503 msg

end Errors

/-- `StatusText`. -/
def statusText : Nat → String
  | 200 => "OK"
  | 201 => "Created"
  | 204 => "No Content"
  | 307 => "Temporary Redirect"
  | 400 => "Bad Request"
  | 401 => "Unauthorized"
  | 403 => "Forbidden"
  | 404 => "Not Found"
  | 409 => "Conflict"
  | 500 => "Internal Server Error"
  | 503 => "Service Unavailable"
  | _ => "Unknown"

/-- `Serialise`; the headers come in the order of the map. -/
def serialise (r : HttpResponse) (keepAlive : Bool) : Bytes :=
  toBytes "HTTP/1.1 " ++ toBytes (toString r.statusCode) ++ toBytes " " ++
    toBytes (statusText r.statusCode) ++ toBytes "\r\n" ++
    r.headers.entries.flatMap (fun e => e.1 ++ toBytes ": " ++ e.2 ++ toBytes "\r\n") ++
    toBytes "Content-Length: " ++ toBytes (toString r.body.length) ++ toBytes "\r\n" ++
    toBytes "Connection: " ++ toBytes (if keepAlive then "keep-alive" else "close") ++
    toBytes "\r\n" ++ toBytes "\r\n" ++ r.body

end HttpResponse

end OrcDb
