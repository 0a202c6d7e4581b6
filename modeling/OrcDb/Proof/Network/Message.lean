import OrcDb.Proof.Network.Request

/-!
# Parsing inverts serialisation

`Message` is a request as a client has it, with everything that makes it well formed as a
field, and `Message.wire` its serialisation. The levels have delimiters of their own: blanks
cut the request line, `?`, `&` and `=` the target, a colon a header line, CRLF the lines, and a
count ends the body. A level's text may hold the delimiters of the others. A serialised message
is a `Request`, so one `Feed` reads it as its lines say; what is left is that the words of the
request line are the message's (`token_requestLine`), the target gives back the path and the
decoded parameters (`setTarget_target`) and the header lines the headers (`assigned_written`).
-/

set_option autoImplicit false

namespace OrcDb
namespace Proof

open Lib HttpParser

variable {order : MapOrder}

/-! ## Tables -/

/-- An assignment as a lookup sees it, wherever the entry is put. -/
def KeyAssigned (assign : Table → Bytes → Bytes → Table) : Prop :=
  ∀ t k v k', (assign t k v).lookup k' = if k' = k then some v else t.lookup k'

theorem keyAssigned_insert : KeyAssigned fun t k v => t.insert k v := by
  intro t k v k'
  split
  · rename_i h
    rw [h, AList.lookup_insert]
  · rename_i h
    exact AList.lookup_insert_ne h

variable {assign : Table → Bytes → Bytes → Table}

/-- Assigning entries with distinct keys in order. -/
theorem lookup_foldl_entries (hassign : KeyAssigned assign) {es : List ((_ : Bytes) × Bytes)}
    (hes : es.NodupKeys) (t : Table) (k : Bytes) :
    (es.foldl (fun t e => assign t e.1 e.2) t).lookup k = (es.dlookup k).or (t.lookup k) := by
  induction es generalizing t with
  | nil => rfl
  | cons e es ih =>
    obtain ⟨hfresh, hes'⟩ := List.nodupKeys_cons.mp hes
    rw [List.foldl_cons, ih hes', hassign]
    by_cases hk : k = e.1
    · subst hk
      rw [List.dlookup_eq_none.mpr hfresh, if_pos rfl, List.dlookup_cons_eq]
      rfl
    · rw [if_neg hk, List.dlookup_cons_ne _ _ hk]

/-- The table after the assignments of another one's entries. -/
def reassigned (assign : Table → Bytes → Bytes → Table) (t : Table) : Table :=
  t.entries.foldl (fun t e => assign t e.1 e.2) ∅

/-- It answers alike. -/
theorem lookup_reassigned (hassign : KeyAssigned assign) (t : Table) (k : Bytes) :
    (reassigned assign t).lookup k = t.lookup k := by
  rw [reassigned, lookup_foldl_entries hassign t.nodupKeys, AList.lookup_empty, Option.or_none]
  rfl

/-! ## Percent-coding -/

def isHex (c : UInt8) : Bool := isDigit c || (97 ≤ c && c ≤ 102) || (65 ≤ c && c ≤ 70)

/-- A byte that may stand in a query for itself, or that begins no part of one. -/
def Safe (c : UInt8) : Prop := c ≠ 38 ∧ c ≠ 61 ∧ isSpace c = false

instance (c : UInt8) : Decidable (Safe c) :=
  inferInstanceAs (Decidable (c ≠ 38 ∧ c ≠ 61 ∧ isSpace c = false))

/-- `Coded text meaning`: every byte stands for itself, or is written as an escape, or is a
    blank written as `+`. -/
inductive Coded : Bytes → Bytes → Prop
  | nil : Coded [] []
  | plain {c : UInt8} {text meaning : Bytes} (hc : Safe c) (hpercent : c ≠ 37) (hplus : c ≠ 43)
      (h : Coded text meaning) : Coded (c :: text) (c :: meaning)
  | blank {text meaning : Bytes} (h : Coded text meaning) : Coded (43 :: text) (32 :: meaning)
  | escape {c d e : UInt8} {text meaning : Bytes} (hd : isHex d = true) (he : isHex e = true)
      (hc : 16 * nibble d + nibble e = c.toNat) (h : Coded text meaning) :
      Coded (37 :: d :: e :: text) (c :: meaning)

theorem safe_of_isHex {c : UInt8} (h : isHex c = true) : Safe c := by
  have hrange : 48 ≤ c.toNat ∧ c.toNat ≤ 57 ∨ 97 ≤ c.toNat ∧ c.toNat ≤ 102 ∨
      65 ≤ c.toNat ∧ c.toNat ≤ 70 := by
    simpa [isHex, isDigit_iff, UInt8.le_iff_toNat_le, or_assoc] using h
  have hspace : isSpace c = false := by
    rw [Bool.eq_false_iff, ne_eq, isSpace_iff]
    omega
  refine ⟨?_, ?_, hspace⟩
  · rintro rfl
    exact absurd h (by decide)
  · rintro rfl
    exact absurd h (by decide)

theorem Coded.safe {text meaning : Bytes} (h : Coded text meaning) : ∀ c ∈ text, Safe c := by
  induction h with
  | nil => simp
  | plain hc _ _ _ ih =>
    rw [List.forall_mem_cons]
    exact ⟨hc, ih⟩
  | blank _ ih =>
    rw [List.forall_mem_cons]
    exact ⟨by decide, ih⟩
  | escape hd he _ _ ih =>
    simp only [List.forall_mem_cons]
    exact ⟨by decide, safe_of_isHex hd, safe_of_isHex he, ih⟩

theorem urlDecode_coded {text meaning : Bytes} (h : Coded text meaning) :
    urlDecode text = meaning := by
  induction h with
  | nil => rfl
  | plain _ hpercent hplus _ ih => rw [urlDecode_plain hpercent, ih, decodePlain, if_neg hplus]
  | blank _ ih =>
    rw [urlDecode_plain (by decide), ih]
    rfl
  | escape _ _ hc _ ih => rw [urlDecode_escape, ih, hc, UInt8.ofNat_toNat]

/-! ## Messages -/

/-- A header as one line, with a blank behind the colon. -/
def written (e : (_ : Bytes) × Bytes) : Field := (e.1, 32 :: e.2)

/-- A header that comes back from its line. -/
structure PlainHeader (e : (_ : Bytes) × Bytes) : Prop where
  colon : 58 ∉ e.1
  name : cutLine 13 10 e.1 = none
  value : cutLine 13 10 e.2 = none
  start : ∀ c ∈ e.2.head?, c ≠ 32 ∧ c ≠ 9

/-- A request and a way of writing it: `queryText` is the coded text of `query`, pair by pair.
    The body is a `std::string`, whose size a `size_t` holds. -/
structure Message where
  method : Bytes
  path : Bytes
  version : Bytes
  query : Table
  queryText : List (Bytes × Bytes)
  headers : Table
  body : Bytes
  method_nonempty : method ≠ []
  method_plain : ∀ c ∈ method, isSpace c = false
  path_nonempty : path ≠ []
  path_plain : ∀ c ∈ path, isSpace c = false
  path_mark : 63 ∉ path
  version_plain : ∀ c ∈ version, isSpace c = false
  coded : List.Forall₂ (fun text e => Coded text.1 e.1 ∧ Coded text.2 e.2) queryText query.entries
  plainHeaders : ∀ e ∈ headers.entries, PlainHeader e
  lengths : ∀ e ∈ headers.entries, NamesLength e.1 → Decimal e.2 body.length
  lengthGiven : body ≠ [] → ∃ e ∈ headers.entries, NamesLength e.1
  sized : body.length < 2 ^ 64

def queryPair (text : Bytes × Bytes) : Bytes := text.1 ++ 61 :: text.2

namespace Message

/-- The path, and the parameters behind a `?` if there are any. -/
def target (m : Message) : Bytes :=
  if m.queryText = [] then m.path
  else m.path ++ 63 :: [38].intercalate (m.queryText.map queryPair)

def requestLine (m : Message) : Bytes := m.method ++ 32 :: (m.target ++ 32 :: m.version)

/-- The serialised request. -/
def wire (m : Message) : Bytes :=
  m.requestLine ++ 13 :: 10 :: (headerText (m.headers.entries.map written) ++ 13 :: 10 :: m.body)

end Message

/-! ## The request line -/

theorem addQueryPair_coded {text : Bytes × Bytes} {e : (_ : Bytes) × Bytes}
    (h : Coded text.1 e.1 ∧ Coded text.2 e.2) (t : Table) :
    addQueryPair t (queryPair text) = t.insert e.1 e.2 := by
  have hsep : 61 ∉ text.1 := fun hmem => (h.1.safe 61 hmem).2.1 rfl
  unfold addQueryPair queryPair
  rw [cutAt_sep hsep]
  simp only [urlDecode_coded h.1, urlDecode_coded h.2]

theorem foldl_addQueryPair {texts : List (Bytes × Bytes)} {es : List ((_ : Bytes) × Bytes)}
    (h : List.Forall₂ (fun text e => Coded text.1 e.1 ∧ Coded text.2 e.2) texts es) (t : Table) :
    (texts.map queryPair).foldl addQueryPair t = es.foldl (fun t e => t.insert e.1 e.2) t := by
  induction h generalizing t with
  | nil => rfl
  | cons hpair _ ih =>
    rw [List.map_cons, List.foldl_cons, addQueryPair_coded hpair, ih]
    rfl

variable (m : Message)

/-- What stands in the coded query: safe bytes, and the `=` of each pair. -/
theorem mem_queryPair {text : Bytes × Bytes} (h : text ∈ m.queryText) {c : UInt8}
    (hc : c ∈ queryPair text) : c = 61 ∨ Safe c := by
  obtain ⟨i, hi, rfl⟩ := List.mem_iff_getElem.mp h
  have hlen := m.coded.length_eq
  obtain ⟨hkey, hvalue⟩ := (List.forall₂_iff_get.mp m.coded).2 i hi (by omega)
  rcases List.mem_append.mp hc with hc | hc
  · exact Or.inr (hkey.safe c hc)
  · rcases List.mem_cons.mp hc with hc | hc
    · exact Or.inl hc
    · exact Or.inr (hvalue.safe c hc)

theorem pieces_query :
    pieces 38 ([38].intercalate (m.queryText.map queryPair)) = m.queryText.map queryPair := by
  apply pieces_intercalate
  intro piece hpiece
  obtain ⟨text, htext, rfl⟩ := List.mem_map.mp hpiece
  constructor
  · intro hmem
    rcases mem_queryPair m htext hmem with h | h
    · exact absurd h (by decide)
    · exact h.1 rfl
  · simp [queryPair]

/-- The second token gives back the path and the decoded parameters. -/
theorem setTarget_target {r : HttpRequest} (hr : r.queryParams = ∅) :
    setTarget r m.target = { r with
      path := m.path
      queryParams := reassigned (fun t k v => t.insert k v) m.query } := by
  unfold setTarget Message.target reassigned
  by_cases hempty : m.queryText = []
  · have hentries : m.query.entries = [] := by
      have := m.coded.length_eq
      rw [hempty] at this
      exact List.eq_nil_of_length_eq_zero this.symm
    rw [if_pos hempty, cutAt_of_not_mem m.path_mark, hentries, List.foldl_nil, ← hr]
  · rw [if_neg hempty, cutAt_sep m.path_mark]
    simp only [parseQueryString, pieces_query, foldl_addQueryPair m.coded, hr]

theorem target_plain : ∀ c ∈ m.target, isSpace c = false := by
  intro c hc
  unfold Message.target at hc
  split at hc
  · exact m.path_plain c hc
  · rcases List.mem_append.mp hc with hc | hc
    · exact m.path_plain c hc
    · rcases List.mem_cons.mp hc with rfl | hc
      · decide
      · rcases mem_intercalate hc with rfl | ⟨piece, hpiece, hc⟩
        · decide
        · obtain ⟨text, htext, rfl⟩ := List.mem_map.mp hpiece
          rcases mem_queryPair m htext hc with rfl | hsafe
          · decide
          · exact hsafe.2.2

theorem target_nonempty : m.target ≠ [] := by
  unfold Message.target
  split
  · exact m.path_nonempty
  · simp

/-- The line holds no CRLF: no carriage return at all. -/
theorem cutLine_requestLine : cutLine 13 10 m.requestLine = none := by
  have hno : ∀ {s : Bytes}, (∀ c ∈ s, isSpace c = false) → 13 ∉ s := by
    intro s hs hmem
    exact absurd (hs 13 hmem) (by decide)
  apply cutLine_of_not_mem
  unfold Message.requestLine
  simp [hno m.method_plain, hno (target_plain m), hno m.version_plain]

/-- The three words of the request line. -/
theorem token_requestLine :
    token isSpace m.requestLine = (m.method, 32 :: (m.target ++ 32 :: m.version)) ∧
      token isSpace (32 :: (m.target ++ 32 :: m.version)) = (m.target, 32 :: m.version) ∧
      token isSpace (32 :: m.version) = (m.version, []) := by
  refine ⟨?_, ?_, ?_⟩
  · exact token_blank m.method_plain (by decide) _ m.method_nonempty
  · rw [token_cons_blank (by decide)]
    exact token_blank (target_plain m) (by decide) _ (target_nonempty m)
  · rw [token_cons_blank (by decide)]
    exact token_end m.version_plain

/-! ## The headers -/

theorem addHeader_written {e : (_ : Bytes) × Bytes} (he : PlainHeader e) (t : Table) :
    addHeader order t (written e).1 (written e).2 = order.assign t e.1 e.2 := by
  have htrim : e.2.dropWhile (fun c => c = 32 || c = 9) = e.2 := by
    cases hv : e.2 with
    | nil => rfl
    | cons c v =>
      have hc := he.start c (by simp [hv])
      rw [List.dropWhile_cons_of_neg]
      simp [hc.1, hc.2]
  unfold addHeader written
  rw [List.dropWhile_cons_of_pos (by decide), htrim]

/-- The header lines give back the headers. -/
theorem assigned_written {es : List ((_ : Bytes) × Bytes)} (hes : ∀ e ∈ es, PlainHeader e)
    (t : Table) :
    assigned order t (es.map written) = es.foldl (fun t e => order.assign t e.1 e.2) t := by
  induction es generalizing t with
  | nil => rfl
  | cons e es ih =>
    have hstep : assigned order t ((e :: es).map written) =
        assigned order (addHeader order t (written e).1 (written e).2) (es.map written) := rfl
    rw [hstep, addHeader_written (hes e List.mem_cons_self),
      ih fun e' he' => hes e' (List.mem_cons_of_mem _ he')]
    rfl

theorem plainField_written {e : (_ : Bytes) × Bytes} (he : PlainHeader e) :
    PlainField (written e) :=
  ⟨he.colon, he.name, cutLine_join (x := []) rfl (by decide) (by decide) he.value⟩

theorem givesLength_written {e : (_ : Bytes) × Bytes} {n : Nat} (h : Decimal e.2 n) :
    GivesLength (written e).2 n :=
  ⟨[32], e.2, [], by simp [written], by simp, by simp, h⟩

/-! ## One feed -/

/-- A serialised message is a well-formed request. -/
def Message.toRequest (m : Message) : Request where
  line := m.requestLine
  fields := m.headers.entries.map written
  body := m.body
  line_ends := cutLine_requestLine m
  method_given := by
    rw [(token_requestLine m).1]
    exact m.method_nonempty
  target_given := by
    rw [(token_requestLine m).1, (token_requestLine m).2.1]
    exact target_nonempty m
  plainFields := by
    intro field hfield
    obtain ⟨e, he, rfl⟩ := List.mem_map.mp hfield
    exact plainField_written (m.plainHeaders e he)
  lengths := by
    intro field hfield hnames
    obtain ⟨e, he, rfl⟩ := List.mem_map.mp hfield
    exact givesLength_written (m.lengths e he hnames)
  lengthGiven := by
    intro hbody
    obtain ⟨e, he, hnames⟩ := m.lengthGiven hbody
    exact ⟨written e, List.mem_map_of_mem he, hnames⟩
  sized := m.sized

/-- Its words are those of the message. -/
theorem toRequest_words : m.toRequest.method = m.method ∧ m.toRequest.target = m.target ∧
    m.toRequest.version = m.version := by
  obtain ⟨hmethod, htarget, hversion⟩ := token_requestLine m
  unfold Request.method Request.target Request.version Message.toRequest
  simp only [hmethod, htarget, hversion, and_self]

/-- What the parser makes of it. -/
theorem request_toRequest : m.toRequest.request order =
    { method := m.method
      path := m.path
      version := m.version
      headers := reassigned order.assign m.headers
      body := m.body
      queryParams := reassigned (fun t k v => t.insert k v) m.query } := by
  obtain ⟨hmethod, htarget, hversion⟩ := toRequest_words m
  unfold Request.request
  rw [hmethod, htarget, hversion, setTarget_target m rfl]
  simp only [Message.toRequest, assigned_written m.plainHeaders, reassigned]

/-- Feeding a serialised request and any bytes behind it to a fresh parser gives the request
    back, counts its bytes and keeps the others. -/
theorem feed_serialised (order : MapOrder) (m : Message) (rest : Bytes) :
    ∃ p, HttpParser.feed order {} (m.wire ++ rest) = some (p, .Complete) ∧
      p.bytesConsumed = m.wire.length ∧
      p.takeRequest.1.method = m.method ∧
      p.takeRequest.1.path = m.path ∧
      p.takeRequest.1.version = m.version ∧
      (∀ k, p.takeRequest.1.queryParams.lookup k = m.query.lookup k) ∧
      (∀ k, p.takeRequest.1.headers.lookup k = m.headers.lookup k) ∧
      p.takeRequest.1.body = m.body ∧
      p.takeRequest.2 = { buffer := rest } := by
  refine ⟨parsed order m.toRequest rest, feed_wire m.toRequest order rest, rfl, ?_⟩
  have hrequest : (parsed order m.toRequest rest).takeRequest.1 = m.toRequest.request order := rfl
  rw [hrequest, request_toRequest]
  exact ⟨rfl, rfl, rfl, lookup_reassigned keyAssigned_insert m.query,
    lookup_reassigned (lookup_assign order) m.headers, rfl, rfl⟩

theorem get_nonempty : toBytes "GET" ≠ [] := by decide +kernel

theorem get_plain : ∀ c ∈ toBytes "GET", isSpace c = false := by decide +kernel

theorem http11_plain : ∀ c ∈ toBytes "HTTP/1.1", isSpace c = false := by decide +kernel

theorem coded_nil :
    List.Forall₂ (fun (text : Bytes × Bytes) e => Coded text.1 e.1 ∧ Coded text.2 e.2) []
      (∅ : Table).entries :=
  .nil

theorem sized_nil : ([] : Bytes).length < 2 ^ 64 := by decide

/-- `GET /health` with a `Host` header. -/
def healthMessage : Message where
  method := toBytes "GET"
  path := toBytes "/health"
  version := toBytes "HTTP/1.1"
  query := ∅
  queryText := []
  headers := AList.singleton (toBytes "Host") (toBytes "x")
  body := []
  method_nonempty := get_nonempty
  method_plain := get_plain
  path_nonempty := by decide +kernel
  path_plain := by decide +kernel
  path_mark := by decide +kernel
  version_plain := http11_plain
  coded := coded_nil
  plainHeaders := by
    intro e he
    cases List.mem_singleton.mp he
    exact ⟨by decide +kernel, by decide +kernel, by decide +kernel, by decide +kernel⟩
  lengths := by
    intro e he hnames
    cases List.mem_singleton.mp he
    exact absurd hnames (by decide +kernel)
  lengthGiven := fun h => absurd rfl h
  sized := sized_nil

end Proof
end OrcDb
