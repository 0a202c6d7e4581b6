import OrcDb.Proof.Network.Parser

/-!
# A request on the wire

`Request` is one well-formed request as bytes: a request line with at least two words, header
lines, a blank line, and a body as long as the headers say. It is kept apart from any
particular way of writing requests: blanks may or may not follow a colon, a name may come
twice, and the words of the request line may stand as far apart as one likes.

One `Feed` reads such a request and stops exactly behind it, whatever follows (`feed_wire`).
The rules of the three sections are `parseRequestLine_request`, `parseHeaders_fields` and
`readLength_table`.
-/

set_option autoImplicit false

namespace OrcDb
namespace Proof

open Lib HttpParser

variable {order : MapOrder}

/-! ## Header lines -/

/-- What stands before the colon, and what behind it. -/
abbrev Field := Bytes × Bytes

def headerLine (e : Field) : Bytes := e.1 ++ 58 :: e.2

def headerText (es : List Field) : Bytes := es.flatMap fun e => headerLine e ++ [13, 10]

/-- A field that can be written as one line. -/
structure PlainField (e : Field) : Prop where
  colon : 58 ∉ e.1
  name : cutLine 13 10 e.1 = none
  value : cutLine 13 10 e.2 = none

/-- The table after the fields in order; a later one replaces an earlier one of its name. -/
def assigned (order : MapOrder) (t : Table) (es : List Field) : Table :=
  es.foldl (fun t e => addHeader order t e.1 e.2) t

/-- The name of the header that tells the length of the body, in any mixture of cases. -/
def NamesLength (name : Bytes) : Prop := name.map toLower = toBytes "content-length"

instance (name : Bytes) : Decidable (NamesLength name) :=
  inferInstanceAs (Decidable (name.map toLower = toBytes "content-length"))

/-- A numeral of `n` with blanks or tabs around it. -/
def GivesLength (value : Bytes) (n : Nat) : Prop :=
  ∃ before v after, value = before ++ (v ++ after) ∧
    (∀ c ∈ before, c = 32 ∨ c = 9) ∧ (∀ c ∈ after, c = 32 ∨ c = 9) ∧ Decimal v n

/-- One well-formed request. The body is a `std::string`, whose size a `size_t` holds. -/
structure Request where
  line : Bytes
  fields : List Field
  body : Bytes
  line_ends : cutLine 13 10 line = none
  method_given : (token isSpace line).1 ≠ []
  target_given : (token isSpace (token isSpace line).2).1 ≠ []
  plainFields : ∀ e ∈ fields, PlainField e
  lengths : ∀ e ∈ fields, NamesLength e.1 → GivesLength e.2 body.length
  lengthGiven : body ≠ [] → ∃ e ∈ fields, NamesLength e.1
  sized : body.length < 2 ^ 64

namespace Request

variable (r : Request)

def method : Bytes := (token isSpace r.line).1

def target : Bytes := (token isSpace (token isSpace r.line).2).1

def version : Bytes := (token isSpace (token isSpace (token isSpace r.line).2).2).1

def wire : Bytes := r.line ++ 13 :: 10 :: (headerText r.fields ++ 13 :: 10 :: r.body)

/-- The request a parser makes of it. -/
def request (order : MapOrder) : HttpRequest :=
  { setTarget { method := r.method, version := r.version } r.target with
    headers := assigned order ∅ r.fields
    body := r.body }

end Request

/-! ## The request line -/

variable (r : Request)

/-- A request line with two words. -/
theorem parseRequestLine_words {p : HttpParser} {line rest : Bytes}
    (hopen : ¬(p.state = .Complete ∨ p.state = .Error)) (hline : p.nextLine = some (line, rest))
    (hmethod : (token isSpace line).1 ≠ [])
    (htarget : (token isSpace (token isSpace line).2).1 ≠ []) :
    parseRequestLine order p = parseHeaders order { p.dropLine line rest with
      current := setTarget { p.current with
        method := (token isSpace line).1
        version := (token isSpace (token isSpace (token isSpace line).2).2).1 }
        (token isSpace (token isSpace line).2).1
      state := .Headers } := by
  have hne : ¬((token isSpace line).1 = [] ∨ (token isSpace (token isSpace line).2).1 = []) :=
    not_or.mpr ⟨hmethod, htarget⟩
  unfold parseRequestLine
  simp only [if_neg hopen, hline, if_neg hne]
  rfl

theorem parseRequestLine_request {p : HttpParser} {rest : Bytes}
    (hstate : p.state = .RequestLine) (hbuffer : p.buffer = r.line ++ 13 :: 10 :: rest) :
    parseRequestLine order p = parseHeaders order { p.dropLine r.line rest with
      current := setTarget { p.current with method := r.method, version := r.version } r.target
      state := .Headers } := by
  have hline : p.nextLine = some (r.line, rest) := by
    rw [nextLine, hbuffer]
    exact cutLine_line (by decide) r.line_ends rest
  have hopen : ¬(p.state = .Complete ∨ p.state = .Error) := by
    rw [hstate]
    decide
  exact parseRequestLine_words hopen hline r.method_given r.target_given

/-! ## The headers -/

theorem cutLine_headerLine {e : Field} (he : PlainField e) :
    cutLine 13 10 (headerLine e) = none :=
  cutLine_join he.name (by decide) (by decide) he.value

theorem headerText_cons (e : Field) (es : List Field) (rest : Bytes) :
    headerText (e :: es) ++ rest = headerLine e ++ 13 :: 10 :: (headerText es ++ rest) := by
  simp [headerText]

theorem nextLine_headerLine {p : HttpParser} {e : Field} {rest : Bytes} (he : PlainField e)
    (hbuffer : p.buffer = headerLine e ++ 13 :: 10 :: rest) :
    p.nextLine = some (headerLine e, rest) := by
  rw [nextLine, hbuffer]
  exact cutLine_line (by decide) (cutLine_headerLine he) rest

/-- One header line is one assignment. -/
theorem parseHeaders_field {p : HttpParser} {e : Field} {rest : Bytes} (he : PlainField e)
    (hbuffer : p.buffer = headerLine e ++ 13 :: 10 :: rest) :
    parseHeaders order p = parseHeaders order { p.dropLine (headerLine e) rest with
      current := { p.current with headers := addHeader order p.current.headers e.1 e.2 } } :=
  parseHeaders_header (nextLine_headerLine he hbuffer) (by simp [headerLine])
    (cutAt_sep he.colon _)

/-- The header lines are the assignments in order. -/
theorem parseHeaders_fields {es : List Field} (hes : ∀ e ∈ es, PlainField e) {p : HttpParser}
    {rest : Bytes} (hbuffer : p.buffer = headerText es ++ rest) :
    parseHeaders order p = parseHeaders order { p with
      buffer := rest
      consumed := p.consumed + (headerText es).length
      current := { p.current with headers := assigned order p.current.headers es } } := by
  induction es generalizing p with
  | nil =>
    have hrest : rest = p.buffer := hbuffer.symm
    subst hrest
    rfl
  | cons e es ih =>
    have hfirst := hbuffer.trans (headerText_cons e es rest)
    rw [parseHeaders_field (hes e List.mem_cons_self) hfirst,
      ih (fun e he => hes e (List.mem_cons_of_mem _ he)) rfl]
    congr 2
    simp [dropLine, headerText]
    omega

/-! ## The length of the body -/

theorem lengthHeader_some {t : Table} {v : Bytes} (h : lengthHeader t = some v) :
    ∃ k, NamesLength k ∧ t.lookup k = some v := by
  unfold lengthHeader at h
  split at h
  · rename_i w hw
    exact ⟨_, by decide +kernel, hw.trans h⟩
  · obtain ⟨e, he, rfl⟩ := Option.map_eq_some_iff.mp h
    have hnames : NamesLength e.1 := by simpa [NamesLength] using List.find?_some he
    exact ⟨e.1, hnames, AList.mem_lookup_iff.mpr (List.mem_of_find?_eq_some he)⟩

theorem lengthHeader_none {t : Table} (h : lengthHeader t = none) {k : Bytes} (hk : k ∈ t) :
    ¬NamesLength k := by
  unfold lengthHeader at h
  split at h
  · exact absurd h (by simp)
  · obtain ⟨v, hv⟩ := Option.isSome_iff_exists.mp (AList.lookup_isSome.mpr hk)
    have := List.find?_eq_none.mp (Option.map_eq_none_iff.mp h) ⟨k, v⟩
      (AList.mem_lookup_iff.mp hv)
    simpa [NamesLength] using this

theorem mem_assigned {t : Table} {es : List Field} {k : Bytes} :
    k ∈ assigned order t es ↔ (∃ e ∈ es, e.1 = k) ∨ k ∈ t := by
  induction es generalizing t with
  | nil => simp [assigned]
  | cons e es ih =>
    have hstep : assigned order t (e :: es) = assigned order (addHeader order t e.1 e.2) es := rfl
    rw [hstep, ih, addHeader, mem_assign]
    simp only [List.exists_mem_cons_iff, @eq_comm _ k e.1]
    exact or_left_comm.trans or_assoc.symm

/-- What the table holds was in one of the fields. -/
theorem lookup_assigned {t : Table} {es : List Field} {k v : Bytes}
    (h : (assigned order t es).lookup k = some v) :
    (∃ e ∈ es, e.1 = k ∧ e.2.dropWhile (fun c => c = 32 || c = 9) = v) ∨ t.lookup k = some v := by
  induction es generalizing t with
  | nil => exact Or.inr h
  | cons e es ih =>
    rcases ih h with ⟨e', he', hkey, hvalue⟩ | hadd
    · exact Or.inl ⟨e', List.mem_cons_of_mem _ he', hkey, hvalue⟩
    · replace hadd := (lookup_assign order t e.1 _ k).symm.trans hadd
      split at hadd
      · rename_i hk
        exact Or.inl ⟨e, List.mem_cons_self, hk.symm, Option.some.inj hadd⟩
      · exact Or.inr hadd

theorem stoull_givesLength {value : Bytes} {n : Nat} (h : GivesLength value n) (hn : n < 2 ^ 64) :
    stoull (value.dropWhile fun c => c = 32 || c = 9) = some n := by
  obtain ⟨before, v, after, rfl, hbefore, hafter, hv⟩ := h
  have hblank : ∀ c ∈ before, (decide (c = 32) || decide (c = 9)) = true := by
    intro c hc
    simpa using hbefore c hc
  have hplain : ∀ c ∈ v, (decide (c = 32) || decide (c = 9)) = false := by
    intro c hc
    have hdigit := isDigit_iff.mp (hv.digits c hc)
    simp only [← UInt8.toNat_inj, Bool.or_eq_false_iff, decide_eq_false_iff_not]
    exact ⟨fun h => absurd (h ▸ hdigit) (by decide), fun h => absurd (h ▸ hdigit) (by decide)⟩
  rw [List.dropWhile_append_of_pos hblank, dropWhile_plain hplain hv.nonempty]
  refine stoull_decimal hv (fun c hc => ?_) hn
  rcases hafter c hc with rfl | rfl
  · decide
  · decide

/-- All the fields together give the length of the body. -/
theorem readLength_table {p : HttpParser} (hlength : p.contentLength = 0)
    (hheaders : p.current.headers = assigned order ∅ r.fields) :
    readLength p = some r.body.length := by
  unfold readLength
  rw [hheaders]
  cases h : lengthHeader (assigned order ∅ r.fields) with
  | some v =>
    obtain ⟨k, hk, hlookup⟩ := lengthHeader_some h
    rcases lookup_assigned hlookup with ⟨e, he, rfl, rfl⟩ | hempty
    · exact stoull_givesLength (r.lengths e he hk) r.sized
    · exact absurd hempty (by simp)
  | none =>
    have hbody : r.body = [] := by
      by_contra hne
      obtain ⟨e, he, hnames⟩ := r.lengthGiven hne
      exact lengthHeader_none h (mem_assigned.mpr (Or.inl ⟨e, he, rfl⟩)) hnames
    simp [hlength, hbody]

/-! ## One feed -/

/-- The parser after it has read the request and been given `rest` behind it. -/
def parsed (order : MapOrder) (r : Request) (rest : Bytes) : HttpParser where
  state := .Complete
  buffer := rest
  current := r.request order
  contentLength := r.body.length
  bodyBytesRead := r.body.length
  consumed := r.wire.length

/-- One `Feed` reads the request and stops behind it. -/
theorem feed_wire (order : MapOrder) (rest : Bytes) :
    HttpParser.feed order {} (r.wire ++ rest) = some (parsed order r rest, .Complete) := by
  have hbuffer : r.wire ++ rest = r.line ++ 13 :: 10 ::
      (headerText r.fields ++ (13 :: 10 :: (r.body ++ rest))) := by
    simp [Request.wire]
  have hheaders := setTarget_headers { method := r.method, version := r.version } r.target
  have hbody := setTarget_body { method := r.method, version := r.version } r.target
  unfold HttpParser.feed
  rw [List.nil_append, hbuffer, parseRequestLine_request r rfl rfl,
    parseHeaders_fields r.plainFields rfl, parseHeaders_blank (b := r.body ++ rest) rfl]
  rw [readLength_table r rfl (congrArg (assigned order · r.fields) hheaders)]
  simp only [Option.map_some]
  rw [parseBody_start rfl r.sized]
  simp [parsed, Request.request, Request.wire, dropLine, beginBody, hheaders, hbody]
  omega

end Proof
end OrcDb
