import OrcDb.Proof.Network.Message

/-!
# A request in several pieces

TCP may cut a request anywhere. `deliver` feeds the pieces one by one and answers with the
request if every piece but the last left the parser waiting and the last completed it.

`Feed` always enters `ParseRequestLine`. As long as no line ending has arrived the buffer just
grows, and nothing is lost. Once the request line has been taken the next `Feed` takes another
line for a request line: a header, or a part of the body. `Off` says where the parser can be
from then on, and every feed keeps it there or ends with a wrong request (`off_feed`): its
method has the colon of a header, or bytes of the body are missing.
-/

set_option autoImplicit false

namespace OrcDb
namespace Proof

open Lib HttpParser

variable {order : MapOrder}

/-! ## Feeding pieces -/

/-- Feed the pieces to a parser: `Incomplete` for each but the last, then `Complete` and the
    request. -/
def deliver (order : MapOrder) (p : HttpParser) : List Bytes → Option HttpRequest
  | [] => none
  | [c] =>
      (p.feed order c).bind fun q => if q.2 = .Complete then some q.1.takeRequest.1 else none
  | c :: cs =>
      (p.feed order c).bind fun q => if q.2 = .Incomplete then deliver order q.1 cs else none

/-- A request whose method and header names are tokens: there is no colon in the method and no
    blank in a name. -/
structure TokenRequest extends Request where
  method_colon : 58 ∉ toRequest.method
  names : ∀ e ∈ fields, ∀ c ∈ e.1, isSpace c = false

/-- A way of cutting the bytes of a request into non-empty pieces. -/
structure Cutting (m : TokenRequest) where
  chunks : List Bytes
  nonempty : ∀ c ∈ chunks, c ≠ []
  joined : chunks.flatten = m.wire

/-- The same method, path, query parameters, headers and body. -/
def SameRequest (r r' : HttpRequest) : Prop :=
  r.method = r'.method ∧ r.path = r'.path ∧
    (∀ k, r.queryParams.lookup k = r'.queryParams.lookup k) ∧
    (∀ k, r.headers.lookup k = r'.headers.lookup k) ∧ r.body = r'.body

/-- The pieces give what the whole gives in one feed. -/
def ReadsAlike (order : MapOrder) {m : TokenRequest} (cut : Cutting m) : Prop :=
  ∃ r r', deliver order {} cut.chunks = some r ∧ deliver order {} [m.wire] = some r' ∧
    SameRequest r r'

theorem deliver_last {p : HttpParser} {c : Bytes} {r : HttpRequest}
    (h : deliver order p [c] = some r) :
    ∃ q, p.feed order c = some (q, .Complete) ∧ q.current = r := by
  obtain ⟨⟨q, res⟩, hfeed, hq⟩ := Option.bind_eq_some_iff.mp h
  simp only [Option.ite_none_right_eq_some, Option.some.injEq] at hq
  obtain ⟨rfl, rfl⟩ := hq
  exact ⟨q, hfeed, rfl⟩

theorem deliver_more {p : HttpParser} {c c' : Bytes} {cs : List Bytes} {r : HttpRequest}
    (h : deliver order p (c :: c' :: cs) = some r) :
    ∃ q, p.feed order c = some (q, .Incomplete) ∧ deliver order q (c' :: cs) = some r := by
  obtain ⟨⟨q, res⟩, hfeed, hq⟩ := Option.bind_eq_some_iff.mp h
  simp only [Option.ite_none_right_eq_some] at hq
  obtain ⟨rfl, hq⟩ := hq
  exact ⟨q, hfeed, hq⟩

theorem deliver_wire (m : Request) : deliver order {} [m.wire] = some (m.request order) := by
  have hfeed := feed_wire m order []
  rw [List.append_nil] at hfeed
  simp only [deliver, hfeed, Option.bind_some, if_true]
  rfl

/-! ## Off the track -/

variable {m : TokenRequest} {p p' : HttpParser} {r : ParseResult} {later : Bytes}

/-- The parser among the header lines of the request: `todo` are those before it, `later` the
    bytes it has not been given. -/
structure Track (m : TokenRequest) (p : HttpParser) (todo : List Field) (later : Bytes) :
    Prop where
  bytes : p.buffer ++ later = headerText todo ++ 13 :: 10 :: m.body
  written : ∀ e ∈ todo, e ∈ m.fields
  state : p.state = .Headers
  body : p.current.body = []

/-- Where the parser waits once it has taken a request line: among the headers, in the body, or
    with too few bytes left for the body. -/
inductive Off (m : TokenRequest) (p : HttpParser) (later : Bytes) : Prop
  | headers (todo : List Field) (h : Track m p todo later)
  | body (hstate : p.state = .Body) (h : material p + later.length ≤ m.body.length)
  | short (h : material p + later.length < m.body.length)

/-- A header was taken for the request line, or a part of the body is lost. -/
def Wrong (m : TokenRequest) (req : HttpRequest) : Prop :=
  58 ∈ req.method ∨ req.body.length < m.body.length

theorem request_method (m : Request) : (m.request order).method = m.method := setTarget_method _ _

theorem not_wrong_of_same {req : HttpRequest} (h : SameRequest req (m.request order)) :
    ¬Wrong m req := by
  obtain ⟨hmethod, _, _, _, hbody⟩ := h
  rw [Wrong, hmethod, hbody, request_method]
  rintro (hcolon | hshort)
  · exact m.method_colon hcolon
  · exact Nat.lt_irrefl _ hshort

/-- The line the parser finds is the line that is there in the whole. -/
theorem line_of_whole {line rest line' rest' : Bytes} (h : p.nextLine = some (line, rest))
    (hwhole : p.buffer ++ later = line' ++ 13 :: 10 :: rest')
    (hline : cutLine 13 10 line' = none) : line = line' ∧ rest ++ later = rest' := by
  have hfound := cutLine_append h later
  rw [hwhole, cutLine_line (by decide) hline] at hfound
  cases hfound
  exact ⟨rfl, rfl⟩

/-- Where only the blank line is left of the headers, the parser finds it. -/
theorem Track.blankLine {line rest : Bytes} (h : Track m p [] later)
    (hline : p.nextLine = some (line, rest)) : line = [] ∧ rest ++ later = m.body := by
  have hbytes : p.buffer ++ later = [] ++ 13 :: 10 :: m.body := h.bytes
  exact line_of_whole hline hbytes rfl

/-- Where a header is left, the parser finds its line. -/
theorem Track.fieldLine {e : Field} {todo : List Field} {line rest : Bytes}
    (h : Track m p (e :: todo) later) (hline : p.nextLine = some (line, rest)) :
    line = headerLine e ∧ rest ++ later = headerText todo ++ 13 :: 10 :: m.body :=
  line_of_whole hline (h.bytes.trans (headerText_cons e todo _))
    (cutLine_headerLine (m.plainFields e (h.written e List.mem_cons_self)))

/-- Behind the blank line the body begins. -/
theorem Track.blank {rest : Bytes} (h : Track m p [] later) (hline : p.nextLine = some ([], rest))
    (hrest : rest ++ later = m.body) (hparse : parseHeaders order p = some (p', r)) :
    p'.current.method = p.current.method ∧ (r = .Incomplete → Off m p' later) := by
  rw [parseHeaders_blank hline] at hparse
  obtain ⟨n, _, hbody⟩ := Option.map_eq_some_iff.mp hparse
  have hmethod := parseBody_method ((p.dropLine [] rest).beginBody n)
  have hmaterial := material_parseBody ((p.dropLine [] rest).beginBody n)
  have hstate := @parseBody_state ((p.dropLine [] rest).beginBody n)
  rw [hbody] at hmethod hmaterial hstate
  refine ⟨hmethod, fun hr => .body (hstate hr) ?_⟩
  rw [hmaterial, ← hrest]
  simp [material, beginBody, dropLine, h.body]

/-- A header line is taken, as a header or for a request line. -/
theorem Track.next {e : Field} {todo : List Field} {q : HttpParser}
    (h : Track m p (e :: todo) later)
    (hbytes : q.buffer ++ later = headerText todo ++ 13 :: 10 :: m.body)
    (hstate : q.state = .Headers) (hbody : q.current.body = p.current.body) :
    Track m q todo later :=
  ⟨hbytes, fun e' he' => h.written e' (List.mem_cons_of_mem _ he'), hstate, hbody.trans h.body⟩

/-- `ParseHeaders` on the track: it keeps the method, and it waits at a place that is off for the
    next feed. -/
theorem Track.parseHeaders {todo : List Field} (h : Track m p todo later)
    (hparse : parseHeaders order p = some (p', r)) :
    p'.current.method = p.current.method ∧ (r = .Incomplete → Off m p' later) := by
  induction todo generalizing p with
  | nil =>
    cases hline : p.nextLine with
    | none =>
      rw [parseHeaders_none hline] at hparse
      cases hparse
      exact ⟨rfl, fun _ => .headers [] h⟩
    | some found =>
      obtain ⟨line, rest⟩ := found
      obtain ⟨rfl, hrest⟩ := h.blankLine hline
      exact h.blank hline hrest hparse
  | cons e todo ih =>
    cases hline : p.nextLine with
    | none =>
      rw [parseHeaders_none hline] at hparse
      cases hparse
      exact ⟨rfl, fun _ => .headers (e :: todo) h⟩
    | some found =>
      obtain ⟨line, rest⟩ := found
      obtain ⟨rfl, hrest⟩ := h.fieldLine hline
      rw [parseHeaders_field (m.plainFields e (h.written e List.mem_cons_self))
        (nextLine_eq hline)] at hparse
      have htrack : Track m { p.dropLine (headerLine e) rest with
          current := { p.current with
            headers := addHeader order p.current.headers e.1 e.2 } } todo later :=
        h.next hrest h.state rfl
      obtain ⟨hmethod, hoff⟩ := ih htrack hparse
      exact ⟨hmethod, hoff⟩

/-! ## The next feed -/

/-- The first word of a header line has its colon. -/
theorem colon_mem_token {e : Field} (he : e ∈ m.fields) :
    58 ∈ (token isSpace (headerLine e)).1 := by
  have hplain : ∀ c ∈ e.1 ++ [58], isSpace c = false := by
    intro c hc
    rcases List.mem_append.mp hc with hc | hc
    · exact m.names e he c hc
    · rw [List.mem_singleton.mp hc]
      decide
  have hline : headerLine e = (e.1 ++ [58]) ++ e.2 := by simp [headerLine]
  rw [hline]
  exact mem_token hplain e.2 (by simp)

/-- A feed among the headers takes one of them for a request line. -/
theorem Track.parseRequestLine {todo : List Field} (h : Track m p todo later)
    (hparse : parseRequestLine order p = some (p', r)) :
    (r = .Incomplete → Off m p' later) ∧ (r = .Complete → Wrong m p'.current) := by
  have hopen : ¬(p.state = .Complete ∨ p.state = .Error) := by
    rw [h.state]
    decide
  cases hline : p.nextLine with
  | none =>
    rw [HttpParser.parseRequestLine, if_neg hopen, hline] at hparse
    cases hparse
    exact ⟨fun _ => .headers todo h, fun hr => absurd hr (by simp)⟩
  | some found =>
    obtain ⟨line, rest⟩ := found
    rcases parseRequestLine_line hopen hline with herror | ⟨hne, current, hbody, hmethod, hnext⟩
    · rw [herror] at hparse
      cases hparse
      exact ⟨fun hr => absurd hr (by simp), fun hr => absurd hr (by simp)⟩
    · cases todo with
      | nil => exact absurd (h.blankLine hline).1 hne
      | cons e todo =>
        obtain ⟨rfl, hrest⟩ := h.fieldLine hline
        rw [hnext] at hparse
        obtain ⟨hkept, hoff⟩ := (h.next hrest rfl hbody).parseHeaders hparse
        refine ⟨hoff, fun _ => Or.inl ?_⟩
        rw [hkept, hmethod]
        exact colon_mem_token (h.written e List.mem_cons_self)

theorem wrong_of_short (h : material p + later.length < m.body.length) : Wrong m p.current := by
  right
  simp only [material] at h
  omega

/-- Off the track, a feed stays off or ends with something missing. -/
theorem off_feed {c : Bytes} (h : Off m p (c ++ later)) (hfeed : p.feed order c = some (p', r)) :
    (r = .Incomplete → Off m p' later) ∧ (r = .Complete → Wrong m p'.current) := by
  cases h with
  | headers todo h =>
    have hfed : Track m { p with buffer := p.buffer ++ c } todo later :=
      { h with bytes := (List.append_assoc _ _ _).trans h.bytes }
    exact hfed.parseRequestLine hfeed
  | body hstate h =>
    have hopen : ¬(p.state = .Complete ∨ p.state = .Error) := by
      rw [hstate]
      decide
    have hfed : material { p with buffer := p.buffer ++ c } + later.length ≤ m.body.length := by
      simp only [material, List.length_append] at h ⊢
      omega
    cases hline : nextLine { p with buffer := p.buffer ++ c } with
    | none =>
      rw [HttpParser.feed, HttpParser.parseRequestLine, if_neg hopen, hline] at hfeed
      cases hfeed
      exact ⟨fun _ => .body hstate hfed, fun hr => absurd hr (by simp)⟩
    | some found =>
      have hlost := material_line (p := { p with buffer := p.buffer ++ c }) hopen hline hfeed
      have hshort : material p' + later.length < m.body.length := by omega
      exact ⟨fun _ => .short hshort, fun _ => wrong_of_short hshort⟩
  | short h =>
    have hkept := material_feed hfeed
    have hshort : material p' + later.length < m.body.length := by
      rw [List.length_append] at h
      omega
    exact ⟨fun _ => .short hshort, fun _ => wrong_of_short hshort⟩

/-- From off the track no pieces deliver the request. -/
theorem off_deliver {cs : List Bytes} {req : HttpRequest} (h : Off m p cs.flatten)
    (hdeliver : deliver order p cs = some req) : Wrong m req := by
  induction cs generalizing p with
  | nil => exact absurd hdeliver (by simp [deliver])
  | cons c cs ih =>
    rw [List.flatten_cons] at h
    cases cs with
    | nil =>
      obtain ⟨q, hfeed, rfl⟩ := deliver_last hdeliver
      exact (off_feed h hfeed).2 rfl
    | cons c' cs =>
      obtain ⟨q, hfeed, hrest⟩ := deliver_more hdeliver
      exact ih ((off_feed h hfeed).1 rfl) hrest

/-! ## The first line ending -/

/-- The feed that takes the request line and waits has left the track. -/
theorem off_of_first {b : Bytes} {found : Bytes × Bytes} (hwire : b ++ later = m.wire)
    (hfound : cutLine 13 10 b = some found)
    (hparse : parseRequestLine order { buffer := b } = some (p', .Incomplete)) :
    Off m p' later := by
  obtain ⟨line, rest⟩ := found
  have hline : nextLine { buffer := b } = some (line, rest) := hfound
  obtain ⟨rfl, hrest⟩ := line_of_whole hline hwire m.line_ends
  rw [parseRequestLine_request m.toRequest rfl (cutLine_eq hfound)] at hparse
  have htrack : Track m { dropLine { buffer := b } m.line rest with
      current := setTarget { method := m.method, version := m.version } m.target
      state := .Headers } m.fields later :=
    ⟨hrest, fun e he => he, rfl, setTarget_body _ _⟩
  exact (htrack.parseHeaders hparse).2 rfl

theorem feed_waiting {b c : Bytes} (h : cutLine 13 10 (b ++ c) = none) :
    HttpParser.feed order { buffer := b } c = some ({ buffer := b ++ c }, .Incomplete) := by
  have hline : nextLine { buffer := b ++ c } = none := h
  rw [HttpParser.feed, HttpParser.parseRequestLine, if_neg (by simp), hline]

/-- As long as no line ending has arrived the pieces are as good as the whole. -/
theorem deliver_waiting {b : Bytes} {cs : List Bytes} (hwire : b ++ cs.flatten = m.wire)
    (hne : cs ≠ []) (h : cutLine 13 10 (b ++ cs.dropLast.flatten) = none) :
    deliver order { buffer := b } cs = some (m.request order) := by
  induction cs generalizing b with
  | nil => exact absurd rfl hne
  | cons c cs ih =>
    rw [List.flatten_cons, ← List.append_assoc] at hwire
    cases cs with
    | nil =>
      have hfeed : HttpParser.feed order { buffer := b } c = HttpParser.feed order {} m.wire := by
        rw [← hwire]
        simp [HttpParser.feed]
      rw [← deliver_wire m.toRequest]
      simp only [deliver, hfeed]
    | cons c' cs =>
      rw [List.dropLast_cons_cons, List.flatten_cons, ← List.append_assoc] at h
      have hrest := ih hwire (by simp) h
      simp only [deliver, feed_waiting (cutLine_none_left h), Option.bind_some, if_true]
      exact hrest

/-- Pieces that deliver the whole request leave the first line ending to the last. -/
theorem waiting_of_deliver {b : Bytes} {cs : List Bytes} {req : HttpRequest}
    (hb : cutLine 13 10 b = none) (hwire : b ++ cs.flatten = m.wire)
    (hdeliver : deliver order { buffer := b } cs = some req) (hright : ¬Wrong m req) :
    cutLine 13 10 (b ++ cs.dropLast.flatten) = none := by
  induction cs generalizing b with
  | nil => simpa using hb
  | cons c cs ih =>
    rw [List.flatten_cons, ← List.append_assoc] at hwire
    cases cs with
    | nil => simpa using hb
    | cons c' cs =>
      obtain ⟨q, hfeed, hrest⟩ := deliver_more hdeliver
      rw [List.dropLast_cons_cons, List.flatten_cons, ← List.append_assoc]
      cases hfound : cutLine 13 10 (b ++ c) with
      | none =>
        rw [feed_waiting hfound] at hfeed
        cases hfeed
        exact ih hfound hwire hrest
      | some found => exact absurd (off_deliver (off_of_first hwire hfound hfeed) hrest) hright

/-- Pieces of a request give what the whole gives exactly if no line ending arrives before the
    last piece. -/
theorem readsAlike_iff (order : MapOrder) {m : TokenRequest} (cut : Cutting m) :
    ReadsAlike order cut ↔ cutLine 13 10 cut.chunks.dropLast.flatten = none := by
  constructor
  · rintro ⟨r, r', hr, hr', hsame⟩
    rw [deliver_wire, Option.some.injEq] at hr'
    subst hr'
    exact waiting_of_deliver (b := []) rfl cut.joined hr (not_wrong_of_same hsame)
  · intro h
    have hne : cut.chunks ≠ [] := by
      intro hnil
      have := cut.joined
      rw [hnil] at this
      exact absurd this (by simp [Request.wire])
    exact ⟨m.request order, m.request order, deliver_waiting (b := []) cut.joined hne h,
      deliver_wire m.toRequest, rfl, rfl, fun _ => rfl, fun _ => rfl, rfl⟩

/-- `GET /health` with a `Host` header. -/
def healthRequest : TokenRequest where
  toRequest := healthMessage.toRequest
  method_colon := by decide +kernel
  names := by decide +kernel

/-- The same, cut behind the request line. -/
def splitHealth : Cutting healthRequest where
  chunks := [toBytes "GET /health HTTP/1.1\r\n", toBytes "Host: x\r\n\r\n"]
  nonempty := by decide +kernel
  joined := by decide +kernel

/-- The second piece completes a request whose method is `Host:`. -/
theorem readsAlike_fails : ¬ReadsAlike .newestFirst splitHealth := by
  rintro ⟨r, r', hr, hr', hmethod, _⟩
  have hpieces : (deliver .newestFirst {} splitHealth.chunks).map HttpRequest.method =
      some (toBytes "Host:") := by
    decide +kernel
  have hwhole : (deliver .newestFirst {} [healthRequest.wire]).map HttpRequest.method =
      some (toBytes "GET") := by
    decide +kernel
  rw [hr] at hpieces
  rw [hr'] at hwhole
  simp only [Option.map_some, Option.some.injEq] at hpieces hwhole
  rw [← hmethod, hpieces] at hwhole
  exact absurd hwhole (by decide +kernel)

end Proof
end OrcDb
