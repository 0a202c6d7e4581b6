import OrcDb.Network.HttpResponse
import OrcDb.Lib.Regex

/-!
# `Router` — from a request to a handler

`src/api/Router.{hpp,cpp}`. A handler is code over some state `σ` — the store, the Raft node,
the watchers — and returns a response, or throws (`none`).

`CompilePattern` writes a regular expression in which every character of the pattern stands
for itself and every `{name}` is a group `(.+)`; `Part` is that expression, piece by piece, and
`regexText` its text. `std::regex_match` in its ECMAScript grammar asks for a match of the whole
path; a `.` does not match a line feed or a carriage return; `+` is greedy, and the first group
takes as much as it can. The library matches by recursion, character by character, and a path
can be longer than the stack is deep: `RegexEngine` says where there is a result at all.
-/

set_option autoImplicit false

namespace OrcDb

open Lib

structure AuthContext where
  authenticated : Bool := false
  subject : String := ""
  rawToken : Bytes := []
  roles : List String := []
deriving DecidableEq

/-- `HasRole`. -/
def AuthContext.hasRole (auth : AuthContext) (role : String) : Bool :=
  auth.roles.contains role || auth.roles.contains "admin"

/-! ## Patterns -/

/-- A piece of the regular expression: a character, or a group `(.+)`. -/
inductive Part where
  | char (c : UInt8)
  | param (name : Bytes)
deriving DecidableEq

/-- The loop of `CompilePattern` from position `i` on. -/
def compileFrom : Nat → Bytes → List Part
  | 0, _ => []
  | _, [] => []
  | fuel + 1, c :: rest =>
      -- `{` is 123 and `}` is 125
      if c = 123 then
        if 125 ∈ rest then
          .param (rest.takeWhile (· ≠ 125)) ::
            compileFrom fuel (rest.dropWhile (· ≠ 125)).tail
        else (c :: rest).map .char
      else .char c :: compileFrom fuel rest

/-- `CompilePattern`. -/
def compilePattern (pattern : Bytes) : List Part := compileFrom pattern.length pattern

/-- The characters `CompilePattern` puts a backslash in front of. -/
def escapedChars : Bytes := toBytes ".+*?^$|[]()\\"

/-- Those its `regex_replace` does, in what follows a brace that is not closed. -/
def escapedRest : Bytes := toBytes ".+*?^$\x7b\x7d()|[]\\"

/-- The same loop, with the text it appends to `regexStr`. -/
def regexTextFrom : Nat → Bytes → Bytes
  | 0, _ => []
  | _, [] => []
  | fuel + 1, c :: rest =>
      if c = 123 then
        if 125 ∈ rest then
          toBytes "(.+)" ++ regexTextFrom fuel (rest.dropWhile (· ≠ 125)).tail
        else (c :: rest).flatMap fun b => if b ∈ escapedRest then [92, b] else [b]
      else (if c ∈ escapedChars then [92, c] else [c]) ++ regexTextFrom fuel rest

/-- `regexStr` of `CompilePattern`. -/
def regexText (pattern : Bytes) : Bytes :=
  toBytes "^" ++ (regexTextFrom pattern.length pattern ++ toBytes "$")

/-- `.` of the ECMAScript grammar. -/
def isDot (c : UInt8) : Bool := c ≠ 10 && c ≠ 13

/-- `std::regex_match`: what the groups match, in order. -/
def regexMatch : List Part → Bytes → Option (List Bytes)
  | [], path => if path = [] then some [] else none
  | .char _ :: _, [] => none
  | .char c :: parts, b :: path => if b = c then regexMatch parts path else none
  | .param _ :: parts, path =>
      -- the longest first, and at least one character
      ((List.range (path.takeWhile isDot).length).reverse.map (· + 1)).findSome? fun n =>
        (regexMatch parts (path.drop n)).map (path.take n :: ·)

/-- How far the recursion of `std::regex_match` gets. Where it does not return, the stack is
    exhausted and the process ends; up to `limit` characters it returns. -/
structure RegexEngine where
  returns : List Part → Bytes → Bool
  limit : Nat
  returns_short : ∀ (parts : List Part) (path : Bytes), path.length ≤ limit →
    returns parts path = true

/-- One with all the stack it needs. -/
def RegexEngine.ideal : RegexEngine where
  returns _ _ := true
  limit := 0
  returns_short _ _ _ := rfl

/-- The names of the groups. -/
def paramNames (parts : List Part) : List Bytes :=
  parts.filterMap fun p =>
    match p with
    | .char _ => none
    | .param name => some name

/-! ## Routes -/

abbrev HandlerFn (σ : Type) : Type := HttpRequest → AuthContext → σ → Option HttpResponse × σ

/-- A middleware answers itself or lets the request pass, with the context it has filled in. -/
abbrev MiddlewareFn : Type := HttpRequest → AuthContext → Option HttpResponse × AuthContext

structure Route (σ : Type) where
  method : Bytes
  pattern : Bytes
  regex : List Part
  handler : HandlerFn σ
  requiredRoles : List String := []

structure Router (σ : Type) where
  routes : List (Route σ) := []
  authMiddleware : Option MiddlewareFn := none
  /-- The library the process is linked with. -/
  engine : RegexEngine := .ideal

/-- What `Dispatch` comes to: a response of its own, an exception or the end of the stack, or the
    call of a handler. -/
inductive Dispatched (σ : Type) where
  | reply (response : HttpResponse)
  | throws
  | handler (route : Route σ) (req : HttpRequest) (auth : AuthContext)

namespace Router

variable {σ : Type}

/-- `AddRoute`. -/
def addRoute (router : Router σ) (method pattern : Bytes) (handler : HandlerFn σ)
    (requiredRoles : List String) : Router σ :=
  { router with
      routes := router.routes ++
        [{ method, pattern, regex := compilePattern pattern, handler, requiredRoles }] }

/-- `MatchRoute`, with `params`. -/
def matchRoute (route : Route σ) (path : Bytes) : Option Table :=
  (regexMatch route.regex path).map fun groups =>
    ((paramNames route.regex).zip groups).foldl (fun params p => params.insert p.1 p.2) ∅

/-- `MatchRoute` with the expression as the text it is compiled from, and `m[i + 1]` as the group of
    that number. -/
def matchText (pattern path : Bytes) : Option Table := do
  let regex ← Regex.parse (regexText pattern)
  let m ← Regex.fullMatch path regex
  return ((paramNames (compilePattern pattern)).zipIdx 1).foldl
    (fun params p => params.insert p.1 ((m.lookup p.2).getD [])) ∅

/-- The loop of `Dispatch` over the routes. -/
def findRoute (engine : RegexEngine) (J : Json.Codec) (req : HttpRequest) (auth : AuthContext) :
    List (Route σ) → Dispatched σ
  | [] =>
      -- the JSON library throws on a text that is not UTF-8
      match ofBytes? (toBytes "no route for " ++ req.method ++ toBytes " " ++ req.path) with
      | some msg => .reply (.notFound J msg)
      | none => .throws
  | route :: routes =>
      if route.method ≠ req.method && route.method ≠ toBytes "*" then
        findRoute engine J req auth routes
      else if engine.returns route.regex req.path = false then .throws
      else match matchRoute route req.path with
        | none => findRoute engine J req auth routes
        | some params =>
            let req := { req with pathParams := params }
            if route.requiredRoles.isEmpty || route.requiredRoles.any auth.hasRole then
              .handler route req auth
            else .reply (.forbidden J "insufficient role")

/-- `Dispatch` up to the call of the handler. -/
def choose (J : Json.Codec) (router : Router σ) (req : HttpRequest) (auth : AuthContext) :
    Dispatched σ :=
  match router.authMiddleware with
  | none => findRoute router.engine J req auth router.routes
  | some middleware =>
      match middleware req auth with
      | (some response, _) => .reply response
      | (none, auth) => findRoute router.engine J req auth router.routes

/-- `Dispatch`. -/
def dispatch (J : Json.Codec) (router : Router σ) (req : HttpRequest) (auth : AuthContext)
    (s : σ) : Option HttpResponse × σ :=
  match router.choose J req auth with
  | .reply response => (some response, s)
  | .throws => (none, s)
  | .handler route req auth => route.handler req auth s

end Router
end OrcDb
