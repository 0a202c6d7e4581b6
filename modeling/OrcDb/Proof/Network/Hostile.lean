import OrcDb.Proof.Network.Request

/-!
# Any bytes at all

`Feed` on a parser in any state it can get into, with any bytes. It can only go wrong where a
header section ends (`feed_cases`): there the value of the length header goes to `std::stoull`,
and nothing looks at it before or after. `stoull` throws where there is no digit or too many,
and takes signs, blanks and whatever follows the digits.

The other thing that can go wrong is older. A parser that waits for the rest of a body starts
over at the request line with the next bytes, but keeps the body and its count. A second header
section may then give a length that is less than what has been read.

So a call does what it should exactly if the section it ends gives a plain number that is not
less than that count (`feed_total_iff`).
-/

set_option autoImplicit false

namespace OrcDb
namespace Proof

open Lib HttpParser

variable {order : MapOrder}

/-! ## The end of a header section -/

/-- The bytes a call of `Feed` finds are a request line of two words or more, header lines and
    a blank line, and `rest`. -/
structure Ends (p : HttpParser) (data line : Bytes) (fields : List Field) (rest : Bytes) :
    Prop where
  notEnded : ¬(p.state = .Complete ∨ p.state = .Error)
  buffer : p.buffer ++ data = line ++ 13 :: 10 :: (headerText fields ++ 13 :: 10 :: rest)
  line_ends : cutLine 13 10 line = none
  method_given : (token isSpace line).1 ≠ []
  target_given : (token isSpace (token isSpace line).2).1 ≠ []
  plainFields : ∀ e ∈ fields, PlainField e

/-- What the request line and the header lines leave alone. -/
structure Reads (order : MapOrder) (p q : HttpParser) (fields : List Field) : Prop where
  headers : q.current.headers = assigned order p.current.headers fields
  body : q.current.body = p.current.body
  contentLength : q.contentLength = p.contentLength
  bodyBytesRead : q.bodyBytesRead = p.bodyBytesRead

variable {p q : HttpParser} {data line rest : Bytes} {fields : List Field}

theorem parseHeaders_ends (hfields : ∀ e ∈ fields, PlainField e)
    (hbuffer : p.buffer = headerText fields ++ 13 :: 10 :: rest) :
    ∃ q, Reads order p q fields ∧
      parseHeaders order p = (readLength q).map fun n => parseBody (q.beginBody n) := by
  rw [parseHeaders_fields hfields hbuffer, parseHeaders_blank (b := rest) rfl]
  refine ⟨_, ?_, rfl⟩
  exact ⟨rfl, rfl, rfl, rfl⟩

/-- A line that is not blank and has a colon is a field. -/
theorem plainField_of_line {key value : Bytes} (hcolon : cutAt 58 line = some (key, value))
    (hends : cutLine 13 10 line = none) :
    line = headerLine (key, value) ∧ PlainField (key, value) := by
  obtain ⟨rfl, hkey⟩ := cutAt_eq hcolon
  refine ⟨rfl, hkey, cutLine_none_left hends, ?_⟩
  rw [List.append_cons] at hends
  exact cutLine_none_right hends

/-- The header lines: the call stops among them, or they come to an end. -/
theorem parseHeaders_cases (order : MapOrder) (p : HttpParser) :
    (∃ fields q r, parseHeaders order p = some (q, r) ∧ r ≠ .Complete ∧
      Reads order p q fields) ∨
      ∃ fields rest, (∀ e ∈ fields, PlainField e) ∧
        p.buffer = headerText fields ++ 13 :: 10 :: rest := by
  induction hlen : p.buffer.length using Nat.strongRecOn generalizing p with
  | ind len ih =>
    cases hline : p.nextLine with
    | none => exact .inl ⟨[], p, _, parseHeaders_none hline, by simp, ⟨rfl, rfl, rfl, rfl⟩⟩
    | some found =>
      obtain ⟨line, rest⟩ := found
      have hbuffer := nextLine_eq hline
      by_cases hne : line = []
      · subst hne
        exact .inr ⟨[], rest, by simp, hbuffer⟩
      · cases hcolon : cutAt 58 line with
        | none =>
          exact .inl ⟨[], _, _, parseHeaders_noColon hline hne hcolon, by simp,
            ⟨rfl, rfl, rfl, rfl⟩⟩
        | some e =>
          obtain ⟨key, value⟩ := e
          obtain ⟨hfield, hplain⟩ := plainField_of_line hcolon (cutLine_found hline)
          rw [parseHeaders_header hline hne hcolon]
          have hshort := nextLine_length hline
          rcases ih rest.length (by omega) { p.dropLine line rest with
              current := { p.current with
                headers := addHeader order p.current.headers key value } } rfl
            with ⟨fields, q, r, hq, hr, hreads⟩ | ⟨fields, rest', hfields, hrest⟩
          · refine .inl ⟨(key, value) :: fields, q, r, hq, hr, ?_⟩
            exact ⟨hreads.headers, hreads.body, hreads.contentLength, hreads.bodyBytesRead⟩
          · refine .inr ⟨(key, value) :: fields, rest', ?_, ?_⟩
            · rw [List.forall_mem_cons]
              exact ⟨hplain, hfields⟩
            · rw [hbuffer, headerText_cons, ← hfield]
              exact congrArg (fun b => line ++ 13 :: 10 :: b) hrest

/-- The parser behind a request line of two words. -/
def afterLine (p : HttpParser) (line rest : Bytes) : HttpParser :=
  { p.dropLine line rest with
    current := setTarget { p.current with
      method := (token isSpace line).1
      version := (token isSpace (token isSpace (token isSpace line).2).2).1 }
      (token isSpace (token isSpace line).2).1
    state := .Headers }

theorem Reads.of_afterLine {b : Bytes}
    (h : Reads order (afterLine { p with buffer := b } line rest) q fields) :
    Reads order p q fields where
  headers := by
    rw [h.headers, afterLine]
    exact congrArg (assigned order · fields) (setTarget_headers _ _)
  body := h.body.trans (setTarget_body _ _)
  contentLength := h.contentLength
  bodyBytesRead := h.bodyBytesRead

/-- **One call of `Feed`**: it stops before the end of a header section, without an exception and
    without a request, or a section ends. -/
theorem feed_cases (order : MapOrder) (p : HttpParser) (data : Bytes) :
    (∃ fields q r, p.feed order data = some (q, r) ∧ r ≠ .Complete ∧ Reads order p q fields) ∨
      ∃ line fields rest, Ends p data line fields rest := by
  unfold HttpParser.feed
  by_cases hstate : p.state = .Complete ∨ p.state = .Error
  · refine .inl ⟨[], { p with buffer := p.buffer ++ data }, .Error, ?_, by simp, ?_⟩
    · rw [parseRequestLine, if_pos hstate]
    · exact ⟨rfl, rfl, rfl, rfl⟩
  · cases hline : nextLine { p with buffer := p.buffer ++ data } with
    | none =>
      refine .inl ⟨[], { p with buffer := p.buffer ++ data }, .Incomplete, ?_, by simp, ?_⟩
      · rw [parseRequestLine, if_neg hstate, hline]
      · exact ⟨rfl, rfl, rfl, rfl⟩
    | some found =>
      obtain ⟨line, rest⟩ := found
      by_cases hwords : (token isSpace line).1 = [] ∨ (token isSpace (token isSpace line).2).1 = []
      · refine .inl ⟨[], { dropLine { p with buffer := p.buffer ++ data } line rest with
          state := .Error }, .Error, ?_, by simp, ?_⟩
        · rw [parseRequestLine, if_neg hstate, hline]
          dsimp only
          rw [if_pos hwords]
        · exact ⟨rfl, rfl, rfl, rfl⟩
      · obtain ⟨hmethod, htarget⟩ := not_or.mp hwords
        rw [parseRequestLine_words (p := { p with buffer := p.buffer ++ data }) hstate hline
          hmethod htarget]
        rcases parseHeaders_cases order (afterLine { p with buffer := p.buffer ++ data } line rest)
          with ⟨fields, q, r, hq, hr, hreads⟩ | ⟨fields, rest', hfields, hrest⟩
        · exact .inl ⟨fields, q, r, hq, hr, hreads.of_afterLine⟩
        · refine .inr ⟨line, fields, rest', hstate, ?_, cutLine_found hline, hmethod, htarget,
            hfields⟩
          have hbuffer : p.buffer ++ data = line ++ 13 :: 10 :: rest := nextLine_eq hline
          rw [hbuffer]
          exact congrArg (fun b => line ++ 13 :: 10 :: b) hrest

/-- Where a section ends the length is read and the body begins. -/
theorem Ends.feed (h : Ends p data line fields rest) :
    ∃ q, Reads order p q fields ∧
      p.feed order data = (readLength q).map fun n => parseBody (q.beginBody n) := by
  have hline : nextLine { p with buffer := p.buffer ++ data } =
      some (line, headerText fields ++ 13 :: 10 :: rest) := by
    rw [nextLine, h.buffer]
    exact cutLine_line (by decide) h.line_ends _
  unfold HttpParser.feed
  rw [parseRequestLine_words (p := { p with buffer := p.buffer ++ data }) h.notEnded hline
    h.method_given h.target_given]
  obtain ⟨q, hreads, hq⟩ := parseHeaders_ends
    (p := afterLine { p with buffer := p.buffer ++ data } line _) h.plainFields rfl
  exact ⟨q, hreads.of_afterLine, hq⟩

/-! ## The body -/

/-- What `ParseBody` leaves alone, and what it keeps in step. -/
theorem parseBody_frame (p : HttpParser) :
    (parseBody p).1.current.headers = p.current.headers ∧
      (parseBody p).1.contentLength = p.contentLength ∧
      (parseBody p).2 ≠ .Error ∧
      (p.current.body.length = p.bodyBytesRead →
        (parseBody p).1.current.body.length = (parseBody p).1.bodyBytesRead) := by
  unfold parseBody
  split
  · exact ⟨rfl, rfl, by simp, id⟩
  · have hcount : ∀ take : Nat, take ≤ p.buffer.length → p.current.body.length = p.bodyBytesRead →
        (p.current.body ++ p.buffer.take take).length = p.bodyBytesRead + take := by
      intro take htake hbody
      simp [hbody]
      omega
    dsimp only
    split
    · exact ⟨rfl, rfl, by simp, hcount _ (Nat.min_le_left _ _)⟩
    · exact ⟨rfl, rfl, by simp, hcount _ (Nat.min_le_left _ _)⟩

/-- As long as no more was read than is asked for, `ParseBody` reads what is missing and is done
    when nothing is. -/
theorem parseBody_exact (hn : p.contentLength < 2 ^ 64) (hle : p.bodyBytesRead ≤ p.contentLength)
    (hdone : (parseBody p).2 = .Complete) : (parseBody p).1.bodyBytesRead = p.contentLength := by
  unfold parseBody at hdone ⊢
  split
  · rename_i hzero
    dsimp only
    omega
  · rename_i hzero
    rw [if_neg hzero] at hdone
    have hneeded : (p.contentLength + 2 ^ 64 - p.bodyBytesRead) % 2 ^ 64 =
        p.contentLength - p.bodyBytesRead := by omega
    dsimp only at hdone ⊢
    rw [hneeded] at hdone ⊢
    split at hdone
    · rename_i hall
      rw [if_pos hall]
      dsimp only
      omega
    · exact absurd hdone (by simp)

/-- Where more was read than is asked for, `ParseBody` is done with a body that is too long. -/
theorem parseBody_over (hgt : p.contentLength < p.bodyBytesRead) :
    (parseBody p).2 = .Complete ∧ p.contentLength < (parseBody p).1.bodyBytesRead := by
  unfold parseBody
  split
  · exact ⟨rfl, hgt⟩
  · dsimp only
    rw [if_pos (by omega)]
    dsimp only
    exact ⟨rfl, by omega⟩

/-! ## The parsers there are -/

/-- The parsers a connection can have: a new one, and what the calls make of it. -/
inductive Reachable (order : MapOrder) : HttpParser → Prop
  | fresh : Reachable order {}
  | feed {p p' : HttpParser} {data : Bytes} {r : ParseResult} (h : Reachable order p)
      (hfeed : p.feed order data = some (p', r)) : Reachable order p'
  | takeRequest {p : HttpParser} (h : Reachable order p) : Reachable order p.takeRequest.2
  | reset {p : HttpParser} (h : Reachable order p) : Reachable order p.reset

/-- The count is that of the body, and without a length header there is neither. -/
structure Counted (p : HttpParser) : Prop where
  body : p.current.body.length = p.bodyBytesRead
  absent : lengthHeader p.current.headers = none → p.contentLength = 0 ∧ p.bodyBytesRead = 0

/-- A length header stays. -/
theorem lengthHeader_of_assigned {t : Table}
    (h : lengthHeader (assigned order t fields) = none) :
    lengthHeader t = none := by
  cases ht : lengthHeader t with
  | none => rfl
  | some v =>
    obtain ⟨k, hk, hlookup⟩ := lengthHeader_some ht
    have hmem : k ∈ t := AList.lookup_isSome.mp (by rw [hlookup]; rfl)
    exact absurd hk (lengthHeader_none h (mem_assigned.mpr (.inr hmem)))

theorem Counted.of_reads (h : Counted p) (hreads : Reads order p q fields) : Counted q where
  body := by rw [hreads.body, hreads.bodyBytesRead, h.body]
  absent := by
    intro hnone
    rw [hreads.headers] at hnone
    rw [hreads.contentLength, hreads.bodyBytesRead]
    exact h.absent (lengthHeader_of_assigned hnone)

theorem Counted.beginBody (h : Counted q) {n : Nat} (hn : readLength q = some n) :
    Counted (parseBody (q.beginBody n)).1 := by
  obtain ⟨hheaders, hlength, -, hbody⟩ := parseBody_frame (q.beginBody n)
  refine ⟨hbody h.body, ?_⟩
  rw [hheaders, hlength]
  intro hnone
  have habsent := h.absent hnone
  have hzero : n = 0 := by
    rw [readLength, show lengthHeader q.current.headers = none from hnone] at hn
    exact (Option.some.inj hn).symm.trans habsent.1
  subst hzero
  exact ⟨rfl, habsent.2⟩

theorem Reachable.counted (h : Reachable order p) : Counted p := by
  induction h with
  | fresh => exact ⟨rfl, fun _ => ⟨rfl, rfl⟩⟩
  | takeRequest _ _ => exact ⟨rfl, fun _ => ⟨rfl, rfl⟩⟩
  | reset _ _ => exact ⟨rfl, fun _ => ⟨rfl, rfl⟩⟩
  | @feed p p' data r _ hfeed ih =>
    rcases feed_cases order p data with ⟨fields, q, r', hq, -, hreads⟩ | ⟨line, fields, rest, hends⟩
    · rw [hfeed] at hq
      cases hq
      exact ih.of_reads hreads
    · obtain ⟨q, hreads, hq⟩ := hends.feed
      rw [hfeed] at hq
      obtain ⟨n, hn, hbody⟩ := Option.map_eq_some_iff.mp hq.symm
      have := (ih.of_reads hreads).beginBody hn
      rwa [hbody] at this

/-! ## The result -/

/-- A plain decimal number that a `uint64_t` holds. -/
def Plain (v : Bytes) : Prop := ∃ n < 2 ^ 64, Decimal v n

/-- The length a table of headers gives: the number in the length header, zero without one. -/
def LengthIs (headers : Table) (n : Nat) : Prop :=
  match lengthHeader headers with
  | some v => Decimal v n
  | none => n = 0

/-- The call ends a header section whose length header has the value `v`. -/
def EndsWith (order : MapOrder) (p : HttpParser) (data v : Bytes) : Prop :=
  ∃ line fields rest, Ends p data line fields rest ∧
    lengthHeader (assigned order p.current.headers fields) = some v

/-- `Feed` is total: it returns and throws nothing, a complete request has a body of the length
    its headers give, and a length that is no plain number is an error. -/
def Total (order : MapOrder) (p : HttpParser) (data : Bytes) : Prop :=
  ∃ p' r, p.feed order data = some (p', r) ∧
    (r = .Complete → LengthIs p'.current.headers p'.current.body.length) ∧
    ∀ v, EndsWith order p data v → ¬ Plain v → r = .Error

/-- A body that begins with a plain length, not less than what has been read, has that length
    when it is complete. -/
theorem complete_length (h : Counted q) {n : Nat} (hn : n < 2 ^ 64) (hle : q.bodyBytesRead ≤ n)
    (hdone : (parseBody (q.beginBody n)).2 = .Complete) :
    (parseBody (q.beginBody n)).1.current.body.length = n := by
  obtain ⟨-, -, -, hbody⟩ := parseBody_frame (q.beginBody n)
  rw [hbody h.body]
  exact parseBody_exact (p := q.beginBody n) hn hle hdone

/-- A call that is total has read a plain length, not less than what had been read. -/
theorem Total.plain (h : Counted p) (htotal : Total order p data) {v : Bytes}
    (hv : EndsWith order p data v) :
    ∃ n < 2 ^ 64, Decimal v n ∧ p.bodyBytesRead ≤ n := by
  obtain ⟨p', r, hfeed, hcomplete, herror⟩ := htotal
  obtain ⟨line, fields, rest, hends, hvalue⟩ := id hv
  obtain ⟨q, hreads, hq⟩ := hends.feed
  rw [hfeed] at hq
  obtain ⟨n, hn, hout⟩ := Option.map_eq_some_iff.mp hq.symm
  obtain ⟨hheaders, -, hnoError, hbody⟩ := parseBody_frame (q.beginBody n)
  rw [hout] at hheaders hnoError hbody
  -- `ParseBody` gives no error, so the value is a plain number, the one that was read
  have hplain : Plain v := by
    by_contra hplain
    exact hnoError (herror v hv hplain)
  obtain ⟨m, hm, hdecimal⟩ := hplain
  have hread : readLength q = some m := by
    rw [readLength, hreads.headers, hvalue]
    exact stoull_of_decimal hdecimal hm
  obtain rfl : m = n := Option.some.inj (hread.symm.trans hn)
  refine ⟨m, hm, hdecimal, ?_⟩
  by_contra hgt
  have hover := parseBody_over (p := q.beginBody m) (by
    rw [HttpParser.beginBody]
    dsimp only
    rw [hreads.bodyBytesRead]
    omega)
  rw [hout] at hover
  have hlength := hcomplete hover.1
  rw [LengthIs, hheaders,
    show (q.beginBody m).current.headers = assigned order p.current.headers fields
      from hreads.headers, hvalue] at hlength
  have hcount : p'.current.body.length = p'.bodyBytesRead := hbody (h.of_reads hreads).body
  have hsame := hlength.value.symm.trans hdecimal.value
  have hlt : m < p'.bodyBytesRead := hover.2
  omega

/-- **`Feed` on hostile input** is total exactly if a header section that ends gives, in its
    length header, a plain number below `2^64` that is not less than what has been read. -/
theorem feed_total_iff (h : Reachable order p) (data : Bytes) :
    Total order p data ↔
      ∀ v, EndsWith order p data v → ∃ n < 2 ^ 64, Decimal v n ∧ p.bodyBytesRead ≤ n := by
  refine ⟨fun htotal v hv => htotal.plain h.counted hv, ?_⟩
  intro hplain
  have hvalues : ∀ r : ParseResult, ∀ v, EndsWith order p data v → ¬ Plain v → r = .Error := by
    intro r v hv hnot
    obtain ⟨n, hn, hdecimal, -⟩ := hplain v hv
    exact absurd ⟨n, hn, hdecimal⟩ hnot
  rcases feed_cases order p data with ⟨fields, q, r, hq, hr, -⟩ | ⟨line, fields, rest, hends⟩
  · exact ⟨q, r, hq, fun hc => absurd hc hr, hvalues r⟩
  · obtain ⟨q, hreads, hq⟩ := hends.feed
    have hcounted := h.counted.of_reads hreads
    obtain ⟨n, hread, hn, hle, hlength⟩ : ∃ n, readLength q = some n ∧ n < 2 ^ 64 ∧
        q.bodyBytesRead ≤ n ∧ LengthIs q.current.headers n := by
      unfold readLength LengthIs
      cases hvalue : lengthHeader q.current.headers with
      | none =>
        obtain ⟨hlength, hcount⟩ := hcounted.absent hvalue
        exact ⟨0, by rw [hlength], by decide, by omega, rfl⟩
      | some v =>
        have hv : EndsWith order p data v :=
          ⟨line, fields, rest, hends, by rw [← hreads.headers, hvalue]⟩
        obtain ⟨n, hn, hdecimal, hle⟩ := hplain v hv
        exact ⟨n, stoull_of_decimal hdecimal hn, hn, by rw [hreads.bodyBytesRead]; exact hle,
          hdecimal⟩
    rw [hread, Option.map_some] at hq
    refine ⟨(parseBody (q.beginBody n)).1, (parseBody (q.beginBody n)).2, hq, ?_, hvalues _⟩
    intro hdone
    rw [(parseBody_frame (q.beginBody n)).1, complete_length hcounted hn hle hdone]
    exact hlength

/-- A request whose body is to have two bytes, and the first of them. -/
def firstByte : Bytes := toBytes "POST / HTTP/1.1\r\nContent-Length: 2\r\n\r\na"

theorem feed_total_iff_waiting : ∃ p, Reachable .newestFirst p ∧ p.bodyBytesRead = 1 ∧
    Total .newestFirst p (toBytes "b") := by
  obtain ⟨⟨p, r⟩, hfeed, h⟩ := (Option.any_eq_true _ _).mp
    (show (HttpParser.feed .newestFirst {} firstByte).any (fun out =>
      decide (out.1.bodyBytesRead = 1 ∧
        cutLine 13 10 (out.1.buffer ++ toBytes "b") = none)) = true by decide +kernel)
  obtain ⟨hcount, hnone⟩ := of_decide_eq_true h
  have hreachable : Reachable .newestFirst p := .feed .fresh hfeed
  refine ⟨p, hreachable, hcount, (feed_total_iff hreachable _).mpr ?_⟩
  -- there is no line, so no section ends
  rintro v ⟨line, fields, rest, hends, -⟩
  have hline := cutLine_line (by decide) hends.line_ends (headerText fields ++ 13 :: 10 :: rest)
  rw [← hends.buffer, hnone] at hline
  exact absurd hline (by simp)

/-- A length that is no number ends the process. A sign and a suffix are read over. And a second
    header section may ask for less than the body has. -/
theorem feed_total_fails :
    HttpParser.feed .newestFirst {}
      (toBytes "GET / HTTP/1.1\r\nContent-Length: x\r\n\r\n") = none ∧
    (HttpParser.feed .newestFirst {}
      (toBytes "GET / HTTP/1.1\r\nContent-Length: +1x\r\n\r\na")).any
      (fun out => out.2 = .Complete ∧ out.1.current.body = toBytes "a") ∧
    ((HttpParser.feed .newestFirst {} firstByte).bind fun out =>
        out.1.feed .newestFirst (toBytes "GET / HTTP/1.1\r\ncontent-length: 0\r\n\r\n")).any
      (fun out => out.2 = .Complete ∧ out.1.current.body = toBytes "a") := by
  decide +kernel

end Proof
end OrcDb
