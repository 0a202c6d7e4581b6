import OrcDb.Lib.Scan
import OrcDb.Bytes

/-!
# `HttpParser` — requests out of a byte stream

`src/network/HttpParser.hpp` and `HttpParser.cpp`. The parser keeps what it was fed and not
yet used in `buffer`; every `Feed` appends to it and enters `ParseRequestLine`, which goes on
to `ParseHeaders` and `ParseBody` as far as the buffer reaches. `none` is the exception of
`std::stoull`, which nothing in the server catches.

The two `unordered_map`s are association lists with distinct keys. Parameters are only ever
looked up by their key. The headers are walked as well, for a name that agrees up to case, and of
two such names the one that comes first is taken. The standard leaves the order to the library:
the entries of the list are those of the map as it is walked, and `MapOrder` is what the library
does with them.
-/

set_option autoImplicit false

namespace OrcDb

open Lib

/-- `std::unordered_map<std::string, std::string>`. -/
abbrev Table := AList fun _ : Bytes => Bytes

/-- What the library decides about a map: where a new entry comes. A rehash may move the others
    as well. -/
structure MapOrder where
  emplace : Table → Bytes → Bytes → Table
  emplace_perm : ∀ (t : Table) (k v : Bytes), k ∉ t →
    (emplace t k v).entries.Perm (⟨k, v⟩ :: t.entries)

namespace MapOrder

/-- `m[k] = v`. An entry that is there keeps its place. -/
def assign (order : MapOrder) (t : Table) (k v : Bytes) : Table :=
  if k ∈ t then t.replace k v else order.emplace t k v

/-- A library that puts the newest entry in front. -/
def newestFirst : MapOrder where
  emplace t k v := t.insert k v
  emplace_perm _ _ _ h := .of_eq (AList.entries_insert_of_notMem h)

end MapOrder

/-- `HttpRequest`. -/
structure HttpRequest where
  method : Bytes := []
  path : Bytes := []
  version : Bytes := toBytes "HTTP/1.1"
  headers : Table := ∅
  body : Bytes := []
  queryParams : Table := ∅
  pathParams : Table := ∅
deriving DecidableEq

namespace HttpRequest

/-- `GetHeader`: the first header whose name agrees up to case. -/
def getHeader (r : HttpRequest) (name : Bytes) : Bytes :=
  match r.headers.entries.find? fun e => e.1.map toLower = name.map toLower with
  | some e => e.2
  | none => []

def isKeepAlive (r : HttpRequest) : Bool :=
  let conn := (r.getHeader (toBytes "connection")).map toLower
  if r.version = toBytes "HTTP/1.1" then conn ≠ toBytes "close" else conn = toBytes "keep-alive"

end HttpRequest

/-! ## Query strings -/

/-- The value of a hexadecimal digit; any other character leaves the bits zero. -/
def nibble (c : UInt8) : Nat :=
  if 48 ≤ c && c ≤ 57 then c.toNat - 48
  else if 97 ≤ c && c ≤ 102 then c.toNat - 97 + 10
  else if 65 ≤ c && c ≤ 70 then c.toNat - 65 + 10
  else 0

/-- A character of `UrlDecode`'s input that does not begin an escape. -/
def decodePlain (c : UInt8) : UInt8 := if c = 43 then 32 else c

/-- `UrlDecode`. A `%` with fewer than two characters behind it stands for itself. -/
def urlDecode : Bytes → Bytes
  | [] => []
  | [c] => [decodePlain c]
  | [c, d] => [decodePlain c, decodePlain d]
  | c :: d :: e :: rest =>
      if c = 37 then UInt8.ofNat (16 * nibble d + nibble e) :: urlDecode rest
      else decodePlain c :: urlDecode (d :: e :: rest)

/-- One pass of `ParseQueryString`'s loop. -/
def addQueryPair (params : Table) (pair : Bytes) : Table :=
  match cutAt 61 pair with
  | none => params.insert (urlDecode pair) []
  | some (k, v) => params.insert (urlDecode k) (urlDecode v)

/-- `ParseQueryString`, on the parameters read so far. -/
def parseQueryString (params : Table) (raw : Bytes) : Table :=
  (pieces 38 raw).foldl addQueryPair params

/-! ## The parser -/

inductive ParseResult where
  | Complete
  | Incomplete
  | Error
deriving DecidableEq

/-- `HttpParser::State`. -/
inductive HttpParser.State where
  | RequestLine
  | Headers
  | Body
  | Complete
  | Error
deriving DecidableEq

structure HttpParser where
  state : HttpParser.State := .RequestLine
  buffer : Bytes := []
  current : HttpRequest := {}
  contentLength : Nat := 0
  bodyBytesRead : Nat := 0
  consumed : Nat := 0
deriving DecidableEq

namespace HttpParser

/-- `buffer_.find("\r\n")`: the line before it and what stays behind. -/
def nextLine (p : HttpParser) : Option (Bytes × Bytes) := cutLine 13 10 p.buffer

/-- The `erase` and the count of the two places that take a line. -/
def dropLine (p : HttpParser) (line rest : Bytes) : HttpParser :=
  { p with buffer := rest, consumed := p.consumed + (line.length + 2) }

/-- `ParseBody`. `needed` is a `size_t`, so the subtraction wraps. -/
def parseBody (p : HttpParser) : HttpParser × ParseResult :=
  if p.contentLength = 0 then ({ p with state := .Complete }, .Complete)
  else
    let needed := (p.contentLength + 2 ^ 64 - p.bodyBytesRead) % 2 ^ 64
    let take := min p.buffer.length needed
    let p := { p with
      current := { p.current with body := p.current.body ++ p.buffer.take take }
      buffer := p.buffer.drop take
      consumed := p.consumed + take
      bodyBytesRead := p.bodyBytesRead + take }
    if p.bodyBytesRead ≥ p.contentLength then ({ p with state := .Complete }, .Complete)
    else (p, .Incomplete)

/-- The header the end of the header section looks for: the name in lower case if it is
    there, otherwise the first that agrees up to case. -/
def lengthHeader (headers : Table) : Option Bytes :=
  match headers.lookup (toBytes "content-length") with
  | some v => some v
  | none =>
      (headers.entries.find? fun e => e.1.map toLower = toBytes "content-length").map Sigma.snd

/-- What `contentLength_` becomes; it keeps its value when no header gives one. -/
def readLength (p : HttpParser) : Option Nat :=
  match lengthHeader p.current.headers with
  | some v => stoull v
  | none => some p.contentLength

/-- The end of the header section: the length is known and the body begins. -/
def beginBody (p : HttpParser) (n : Nat) : HttpParser :=
  { p with contentLength := n, state := .Body }

section

variable (order : MapOrder)

/-- `headers[key] = value` for a line that has a colon. -/
def addHeader (headers : Table) (key value : Bytes) : Table :=
  order.assign headers key (value.dropWhile fun c => c = 32 || c = 9)

/-- `ParseHeaders`: the first argument bounds the number of lines. -/
def parseHeadersLoop : Nat → HttpParser → Option (HttpParser × ParseResult)
  | 0, p => some (p, .Incomplete)
  | fuel + 1, p =>
      match p.nextLine with
      | none => some (p, .Incomplete)
      | some (line, rest) =>
          let p := p.dropLine line rest
          if line = [] then
            (readLength p).map fun n => parseBody (p.beginBody n)
          else match cutAt 58 line with
            | none => some ({ p with state := .Error }, .Error)
            | some (key, value) =>
                parseHeadersLoop fuel { p with
                  current := { p.current with
                    headers := addHeader order p.current.headers key value } }

/-- Each line takes at least its two terminating bytes off the buffer, so the bound is never
    reached. -/
def parseHeaders (p : HttpParser) : Option (HttpParser × ParseResult) :=
  parseHeadersLoop order (p.buffer.length + 1) p

/-- What `ParseRequestLine` makes of the second token. -/
def setTarget (r : HttpRequest) (fullPath : Bytes) : HttpRequest :=
  match cutAt 63 fullPath with
  | some (path, query) =>
      { r with path := path, queryParams := parseQueryString r.queryParams query }
  | none => { r with path := fullPath }

def parseRequestLine (p : HttpParser) : Option (HttpParser × ParseResult) :=
  if p.state = .Complete ∨ p.state = .Error then some (p, .Error)
  else match p.nextLine with
    | none => some (p, .Incomplete)
    | some (line, rest) =>
        let p := p.dropLine line rest
        let method := token isSpace line
        let fullPath := token isSpace method.2
        let version := token isSpace fullPath.2
        if method.1 = [] ∨ fullPath.1 = [] then some ({ p with state := .Error }, .Error)
        else
          let r := setTarget { p.current with method := method.1, version := version.1 } fullPath.1
          parseHeaders order { p with current := r, state := .Headers }

/-- `Feed`: whatever the state, it is `ParseRequestLine` that reads on. -/
def feed (p : HttpParser) (data : Bytes) : Option (HttpParser × ParseResult) :=
  parseRequestLine order { p with buffer := p.buffer ++ data }

end

def bytesConsumed (p : HttpParser) : Nat := p.consumed

/-- `Reset` keeps the bytes that were not used. -/
def reset (p : HttpParser) : HttpParser := { buffer := p.buffer }

def takeRequest (p : HttpParser) : HttpRequest × HttpParser := (p.current, p.reset)

end HttpParser

end OrcDb
