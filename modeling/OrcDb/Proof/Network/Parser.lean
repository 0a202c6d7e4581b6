import OrcDb.Network.HttpParser
import OrcDb.Proof.Decimal

/-!
# Rules for the HTTP parser

What the pieces of the parser do, each stated once: the assignment of a header, the decoding of
an escape or of a plain character, the four ways `ParseHeaders` treats a line, and `ParseBody` on a
body that is begun. `ParseHeaders` is a loop bounded by the length of its buffer; the rules speak
of `parseHeaders` itself, so that no proof above them counts rounds.

Last comes the bookkeeping of bytes. A byte the parser holds is in the buffer or in the body;
no step makes one, and a line that is taken leaves both (`material_feed`, `material_line`).
-/

set_option autoImplicit false

namespace OrcDb
namespace Proof

open Lib HttpParser

variable {order : MapOrder}

/-! ## Assignments -/

/-- Replacing the value under a key, as a lookup of any key sees it. -/
theorem dlookup_kreplace {es : List ((_ : Bytes) × Bytes)} {k : Bytes} (hk : k ∈ es.keys)
    (v k' : Bytes) :
    (es.kreplace k v).dlookup k' = if k' = k then some v else es.dlookup k' := by
  induction es with
  | nil => exact absurd hk (by simp)
  | cons e es ih =>
    by_cases he : k = e.1
    · have hfirst : (e :: es).kreplace k v = ⟨k, v⟩ :: es :=
        List.lookmap_cons_some _ _ (if_pos he)
      rw [hfirst]
      split
      · rename_i h
        rw [h, List.dlookup_cons_eq]
      · rename_i h
        rw [List.dlookup_cons_ne _ _ h, List.dlookup_cons_ne _ _ (he ▸ h)]
    · have hrest : k ∈ es.keys := by
        rw [List.keys_cons, List.mem_cons] at hk
        exact hk.resolve_left he
      have hlater : (e :: es).kreplace k v = e :: es.kreplace k v :=
        List.lookmap_cons_none _ _ (if_neg he)
      rw [hlater]
      by_cases hk' : k' = e.1
      · subst hk'
        rw [List.dlookup_cons_eq, List.dlookup_cons_eq, if_neg (Ne.symm he)]
      · rw [List.dlookup_cons_ne _ _ hk', List.dlookup_cons_ne _ _ hk']
        exact ih hrest

theorem lookup_emplace {t : Table} {k : Bytes} (hk : k ∉ t) (v k' : Bytes) :
    (order.emplace t k v).lookup k' = if k' = k then some v else t.lookup k' := by
  have hperm : (order.emplace t k v).entries.Perm (t.insert k v).entries := by
    rw [AList.entries_insert_of_notMem hk]
    exact order.emplace_perm t k v hk
  rw [AList.perm_lookup hperm]
  split
  · rename_i h
    rw [h, AList.lookup_insert]
  · rename_i h
    exact AList.lookup_insert_ne h

/-- Whatever the order, an assignment is one for a lookup. -/
theorem lookup_assign (order : MapOrder) (t : Table) (k v k' : Bytes) :
    (order.assign t k v).lookup k' = if k' = k then some v else t.lookup k' := by
  unfold MapOrder.assign
  by_cases hk : k ∈ t
  · rw [if_pos hk]
    exact dlookup_kreplace hk v k'
  · rw [if_neg hk, lookup_emplace hk]

theorem mem_assign {t : Table} {k v k' : Bytes} :
    k' ∈ order.assign t k v ↔ k' = k ∨ k' ∈ t := by
  rw [← AList.lookup_isSome, lookup_assign, ← AList.lookup_isSome]
  split
  · rename_i h
    simp [h]
  · rename_i h
    simp [h]

/-! ## Characters and numerals -/

theorem urlDecode_plain {c : UInt8} (h : c ≠ 37) (s : Bytes) :
    urlDecode (c :: s) = decodePlain c :: urlDecode s := by
  cases s with
  | nil => rfl
  | cons d s =>
    cases s with
    | nil => rfl
    | cons e s => exact if_neg h

theorem urlDecode_escape (d e : UInt8) (s : Bytes) :
    urlDecode (37 :: d :: e :: s) = UInt8.ofNat (16 * nibble d + nibble e) :: urlDecode s :=
  if_pos rfl

/-! ## Taking lines -/

section Lines

variable {p : HttpParser} {line rest : Bytes}

theorem nextLine_eq (h : p.nextLine = some (line, rest)) :
    p.buffer = line ++ 13 :: 10 :: rest := cutLine_eq h

theorem nextLine_length (h : p.nextLine = some (line, rest)) :
    p.buffer.length = line.length + 2 + rest.length := by
  rw [nextLine_eq h]
  simp
  omega

/-- Enough rounds are enough: the bound of the loop does not show. -/
theorem parseHeadersLoop_fuel {n m : Nat} (hn : p.buffer.length < n) (hm : p.buffer.length < m) :
    parseHeadersLoop order n p = parseHeadersLoop order m p := by
  induction n generalizing m p with
  | zero => exact absurd hn (by omega)
  | succ n ih =>
    cases m with
    | zero => exact absurd hm (by omega)
    | succ m =>
      unfold parseHeadersLoop
      cases hline : p.nextLine with
      | none => rfl
      | some found =>
        have hlen := nextLine_length hline
        simp only
        split
        · rfl
        · split
          · rfl
          · exact ih (by simp only [dropLine]; omega) (by simp only [dropLine]; omega)

theorem parseHeaders_none (h : p.nextLine = none) :
    parseHeaders order p = some (p, .Incomplete) := by
  unfold parseHeaders parseHeadersLoop
  rw [h]

theorem parseHeaders_blank {b : Bytes} (h : p.nextLine = some ([], b)) :
    parseHeaders order p = (readLength (p.dropLine [] b)).map fun n =>
      parseBody ((p.dropLine [] b).beginBody n) := by
  unfold parseHeaders parseHeadersLoop
  simp only [h, if_true]

theorem parseHeaders_header {key value : Bytes} (h : p.nextLine = some (line, rest))
    (hne : line ≠ []) (hcolon : cutAt 58 line = some (key, value)) :
    parseHeaders order p = parseHeaders order { p.dropLine line rest with
      current := { p.current with headers := addHeader order p.current.headers key value } } := by
  have hlen := nextLine_length h
  conv_lhs => unfold parseHeaders parseHeadersLoop
  simp only [h, if_neg hne, hcolon]
  exact parseHeadersLoop_fuel (by simp only [dropLine]; omega) (by simp only [dropLine]; omega)

theorem parseHeaders_noColon (h : p.nextLine = some (line, rest)) (hne : line ≠ [])
    (hcolon : cutAt 58 line = none) :
    parseHeaders order p = some ({ p.dropLine line rest with state := .Error }, .Error) := by
  unfold parseHeaders parseHeadersLoop
  simp only [h, if_neg hne, hcolon]

end Lines

/-! ## The request line -/

theorem setTarget_body (r : HttpRequest) (fullPath : Bytes) :
    (setTarget r fullPath).body = r.body := by
  unfold setTarget
  split <;> rfl

theorem setTarget_method (r : HttpRequest) (fullPath : Bytes) :
    (setTarget r fullPath).method = r.method := by
  unfold setTarget
  split <;> rfl

theorem setTarget_headers (r : HttpRequest) (fullPath : Bytes) :
    (setTarget r fullPath).headers = r.headers := by
  unfold setTarget
  split <;> rfl

/-- A line that `ParseRequestLine` takes is an error, or it gives the method, leaves the body as
    it is and goes on to the header lines. -/
theorem parseRequestLine_line {p : HttpParser} {line rest : Bytes}
    (hopen : ¬(p.state = .Complete ∨ p.state = .Error)) (hline : p.nextLine = some (line, rest)) :
    parseRequestLine order p = some ({ p.dropLine line rest with state := .Error }, .Error) ∨
      line ≠ [] ∧ ∃ current : HttpRequest,
        current.body = p.current.body ∧ current.method = (token isSpace line).1 ∧
        parseRequestLine order p =
          parseHeaders order { p.dropLine line rest with
            current := current
            state := .Headers } := by
  unfold parseRequestLine
  rw [if_neg hopen, hline]
  simp only
  split
  · exact Or.inl rfl
  · rename_i htokens
    refine Or.inr ⟨?_, _, ?_, ?_, rfl⟩
    · rintro rfl
      exact htokens (Or.inl rfl)
    · exact setTarget_body _ _
    · exact setTarget_method _ _

/-! ## The body -/

/-- `ParseBody` when nothing of the body has been read yet. -/
theorem parseBody_start {p : HttpParser} (hread : p.bodyBytesRead = 0)
    (hlen : p.contentLength < 2 ^ 64) :
    parseBody p =
      ({ p with
          current := { p.current with body := p.current.body ++ p.buffer.take p.contentLength }
          buffer := p.buffer.drop p.contentLength
          consumed := p.consumed + min p.buffer.length p.contentLength
          bodyBytesRead := min p.buffer.length p.contentLength
          state := if p.contentLength ≤ p.buffer.length then .Complete else p.state },
        if p.contentLength ≤ p.buffer.length then .Complete else .Incomplete) := by
  obtain ⟨state, buffer, current, contentLength, bodyBytesRead, consumed⟩ := p
  simp only at hread hlen
  subst hread
  unfold parseBody
  by_cases hzero : contentLength = 0
  · subst hzero
    simp
  · have hneeded : (contentLength + 2 ^ 64 - 0) % 2 ^ 64 = contentLength := by omega
    simp only [if_neg hzero, hneeded, Nat.zero_add]
    by_cases hfits : contentLength ≤ buffer.length
    · simp [hfits]
    · have hshort : min buffer.length contentLength = buffer.length := by omega
      have htake : buffer.take contentLength = buffer := List.take_of_length_le (by omega)
      have hdrop : buffer.drop contentLength = [] := List.drop_eq_nil_of_le (by omega)
      simp [hfits, hshort, htake, hdrop]

theorem parseBody_method (p : HttpParser) :
    (parseBody p).1.current.method = p.current.method := by
  unfold parseBody
  split
  · rfl
  · simp only
    split <;> rfl

theorem parseBody_state {p : HttpParser} (h : (parseBody p).2 = .Incomplete) :
    (parseBody p).1.state = p.state := by
  unfold parseBody at h ⊢
  split at h
  · exact absurd h (by simp)
  · rename_i hzero
    rw [if_neg hzero]
    simp only at h ⊢
    split at h
    · exact absurd h (by simp)
    · rename_i hmore
      rw [if_neg hmore]

/-! ## Bytes are not made -/

/-- The bytes the parser holds for the request it is reading. -/
def material (p : HttpParser) : Nat := p.current.body.length + p.buffer.length

theorem material_parseBody (p : HttpParser) : material (parseBody p).1 = material p := by
  unfold parseBody
  split
  · rfl
  · have hsum : ∀ take : Nat, take ≤ p.buffer.length →
        (p.current.body ++ p.buffer.take take).length + (p.buffer.drop take).length =
          material p := by
      intro take htake
      simp [material]
      omega
    simp only
    split <;> exact hsum _ (Nat.min_le_left _ _)

theorem material_parseHeadersLoop {n : Nat} {p p' : HttpParser} {r : ParseResult}
    (h : parseHeadersLoop order n p = some (p', r)) : material p' ≤ material p := by
  induction n generalizing p with
  | zero =>
    cases h
    exact le_rfl
  | succ n ih =>
    unfold parseHeadersLoop at h
    cases hline : p.nextLine with
    | none =>
      rw [hline] at h
      cases h
      exact le_rfl
    | some found =>
      have hlen := nextLine_length hline
      rw [hline] at h
      simp only at h
      split at h
      · obtain ⟨n, _, hbody⟩ := Option.map_eq_some_iff.mp h
        have hmat := material_parseBody ((p.dropLine found.1 found.2).beginBody n)
        rw [hbody] at hmat
        rw [hmat]
        simp only [material, dropLine, beginBody]
        omega
      · split at h
        · cases h
          simp only [material, dropLine]
          omega
        · have := ih h
          simp only [material, dropLine] at this ⊢
          omega

/-- A call of `ParseRequestLine` that finds a line loses it. -/
theorem material_line {p p' : HttpParser} {r : ParseResult} {found : Bytes × Bytes}
    (hopen : ¬(p.state = .Complete ∨ p.state = .Error)) (hline : p.nextLine = some found)
    (h : parseRequestLine order p = some (p', r)) : material p' < material p := by
  have hlen := nextLine_length hline
  rcases parseRequestLine_line hopen hline with herror | ⟨_, current, hbody, _, hnext⟩
  · rw [herror] at h
    cases h
    simp only [material, dropLine]
    omega
  · rw [hnext] at h
    have := material_parseHeadersLoop h
    simp only [material, dropLine, hbody] at this ⊢
    omega

theorem material_feed {p p' : HttpParser} {r : ParseResult} {data : Bytes}
    (h : p.feed order data = some (p', r)) : material p' ≤ material p + data.length := by
  have happend : material { p with buffer := p.buffer ++ data } = material p + data.length := by
    simp [material]
    omega
  rw [← happend]
  unfold HttpParser.feed at h
  by_cases hstate : p.state = .Complete ∨ p.state = .Error
  · rw [parseRequestLine, if_pos hstate] at h
    cases h
    exact le_rfl
  · cases hline : nextLine { p with buffer := p.buffer ++ data } with
    | none =>
      rw [parseRequestLine, if_neg hstate, hline] at h
      cases h
      exact le_rfl
    | some found =>
      exact (material_line (p := { p with buffer := p.buffer ++ data }) hstate hline h).le

end Proof
end OrcDb
