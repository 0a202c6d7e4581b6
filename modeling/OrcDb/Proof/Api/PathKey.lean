import OrcDb.Proof.Api.Answers
import OrcDb.Proof.Api.Put
import OrcDb.Proof.Network.Message

/-!
# A key in the path and a key in the query

`ParseQueryString` decodes what it reads, `ParseRequestLine` and the router do not: a key that is
percent-coded in the path of a PUT is stored as it is written there. So a client that codes a key
in both places finds it again exactly if there is nothing in it to code (`path_query_key_iff`).
-/

set_option autoImplicit false

namespace OrcDb
namespace Proof

open Lib

/-! ## Percent-coding of any bytes -/

/-- The characters of a URI that stand for themselves: letters, digits and `-._~`. -/
def unreserved (c : UInt8) : Bool :=
  (65 ≤ c && c ≤ 90) || (97 ≤ c && c ≤ 122) || isDigit c || c = 45 || c = 46 || c = 95 || c = 126

def hexDigit (n : Nat) : UInt8 := if n < 10 then UInt8.ofNat (48 + n) else UInt8.ofNat (55 + n)

def encodeByte (c : UInt8) : Bytes :=
  if unreserved c then [c] else [37, hexDigit (c.toNat / 16), hexDigit (c.toNat % 16)]

def percentEncode (k : Bytes) : Bytes := k.flatMap encodeByte

theorem forall_byte {P : UInt8 → Prop} (h : ∀ n < 256, P (UInt8.ofNat n)) (c : UInt8) : P c := by
  have hc := h c.toNat c.toNat_lt
  rwa [UInt8.ofNat_toNat] at hc

/-- What may be in a coded text. -/
structure Bare (c : UInt8) : Prop where
  safe : Safe c
  mark : c ≠ 63
  plus : c ≠ 43
  ascii : c.toNat < 128
  dot : isDot c = true

theorem bare_percent : Bare 37 := ⟨by decide, by decide, by decide, by decide, by decide⟩

theorem bare_of_unreserved {c : UInt8} (h : unreserved c = true) : Bare c ∧ c ≠ 37 := by
  have hall : ∀ n < 256, unreserved (UInt8.ofNat n) = true →
      (Safe (UInt8.ofNat n) ∧ UInt8.ofNat n ≠ 63 ∧ UInt8.ofNat n ≠ 43 ∧
        (UInt8.ofNat n).toNat < 128 ∧ isDot (UInt8.ofNat n) = true) ∧ UInt8.ofNat n ≠ 37 := by
    decide +kernel
  obtain ⟨⟨hsafe, hmark, hplus, hascii, hdot⟩, hpercent⟩ :=
    forall_byte (P := fun c => unreserved c = true →
      (Safe c ∧ c ≠ 63 ∧ c ≠ 43 ∧ c.toNat < 128 ∧ isDot c = true) ∧ c ≠ 37) hall c h
  exact ⟨⟨hsafe, hmark, hplus, hascii, hdot⟩, hpercent⟩

theorem hexDigit_spec : ∀ n < 16, unreserved (hexDigit n) = true ∧ isHex (hexDigit n) = true ∧
    nibble (hexDigit n) = n := by
  decide +kernel

theorem percentEncode_cons (c : UInt8) (k : Bytes) :
    percentEncode (c :: k) = encodeByte c ++ percentEncode k :=
  List.flatMap_cons

theorem bare_percentEncode (k : Bytes) : ∀ c ∈ percentEncode k, Bare c := by
  intro c hc
  obtain ⟨b, -, hb⟩ := List.mem_flatMap.mp hc
  have hlt := b.toNat_lt
  unfold encodeByte at hb
  split at hb
  · rename_i hplain
    obtain rfl := List.mem_singleton.mp hb
    exact (bare_of_unreserved hplain).1
  · simp only [List.mem_cons, List.not_mem_nil, or_false] at hb
    rcases hb with rfl | rfl | rfl
    · exact bare_percent
    · exact (bare_of_unreserved (hexDigit_spec _ (by omega)).1).1
    · exact (bare_of_unreserved (hexDigit_spec _ (by omega)).1).1

theorem coded_percentEncode (k : Bytes) : Coded (percentEncode k) k := by
  induction k with
  | nil => exact .nil
  | cons c k ih =>
    have hlt := c.toNat_lt
    rw [percentEncode_cons]
    unfold encodeByte
    split
    · rename_i hplain
      obtain ⟨hbare, hpercent⟩ := bare_of_unreserved hplain
      exact .plain hbare.safe hpercent hbare.plus ih
    · obtain ⟨-, hd, hdn⟩ := hexDigit_spec (c.toNat / 16) (by omega)
      obtain ⟨-, he, hen⟩ := hexDigit_spec (c.toNat % 16) (by omega)
      refine .escape hd he ?_ ih
      rw [hdn, hen, Nat.div_add_mod]

theorem percentEncode_ne_nil {k : Bytes} (hk : k ≠ []) : percentEncode k ≠ [] := by
  cases k with
  | nil => exact absurd rfl hk
  | cons c k =>
    rw [percentEncode_cons]
    unfold encodeByte
    split
    · simp
    · simp

theorem length_encodeByte (c : UInt8) :
    (encodeByte c).length = if unreserved c = true then 1 else 3 := by
  unfold encodeByte
  split
  · rfl
  · rfl

theorem length_le_percentEncode (k : Bytes) : k.length ≤ (percentEncode k).length := by
  induction k with
  | nil => exact Nat.le_refl _
  | cons c k ih =>
    rw [percentEncode_cons, List.length_append, length_encodeByte, List.length_cons]
    split
    · omega
    · omega

/-- A key is its own code if there is nothing in it to code. -/
theorem percentEncode_eq_self_iff {k : Bytes} :
    percentEncode k = k ↔ ∀ c ∈ k, unreserved c = true := by
  constructor
  · intro h
    have hlen := congrArg List.length h
    clear h
    induction k with
    | nil => simp
    | cons c k ih =>
      have hle := length_le_percentEncode k
      rw [percentEncode_cons, List.length_append, length_encodeByte, List.length_cons] at hlen
      rw [List.forall_mem_cons]
      split at hlen
      · rename_i hplain
        exact ⟨hplain, ih (by omega)⟩
      · omega
  · intro h
    induction k with
    | nil => rfl
    | cons c k ih =>
      rw [List.forall_mem_cons] at h
      rw [percentEncode_cons, encodeByte, if_pos h.1, ih h.2]
      rfl

/-! ## The two requests -/

/-- The request that a server reads. -/
def readRequest (order : MapOrder) (wire : Bytes) : Option HttpRequest :=
  match HttpParser.feed order {} wire with
  | some (p, .Complete) => some p.takeRequest.1
  | _ => none

theorem readRequest_wire (order : MapOrder) (r : Request) :
    readRequest order r.wire = some (r.request order) := by
  have hfeed := feed_wire r order []
  rw [List.append_nil] at hfeed
  rw [readRequest, hfeed]
  rfl

def putTarget (k : Bytes) : Bytes := toBytes "/v1/kv/" ++ percentEncode k

def listTarget (k : Bytes) : Bytes := toBytes "/v1/kv?prefix=" ++ percentEncode k

theorem isSpace_putTarget (k : Bytes) : ∀ c ∈ putTarget k, isSpace c = false := by
  have htext : ∀ c ∈ toBytes "/v1/kv/", isSpace c = false := by decide +kernel
  rw [putTarget, List.forall_mem_append]
  exact ⟨htext, fun c hc => (bare_percentEncode k c hc).safe.2.2⟩

theorem mark_notMem_putTarget (k : Bytes) : 63 ∉ putTarget k := by
  have htext : 63 ∉ toBytes "/v1/kv/" := by decide +kernel
  rw [putTarget, List.mem_append, not_or]
  exact ⟨htext, fun hmem => (bare_percentEncode k 63 hmem).mark rfl⟩

theorem listTarget_eq (k : Bytes) : listTarget k =
    toBytes "/v1/kv" ++ 63 :: (toBytes "prefix" ++ 61 :: percentEncode k) := by
  have htext : toBytes "/v1/kv?prefix=" =
      toBytes "/v1/kv" ++ 63 :: (toBytes "prefix" ++ [61]) := by
    decide +kernel
  rw [listTarget, htext]
  simp

variable {order : MapOrder} {J : Json.Codec} {k : Bytes} {r : Request} {auth : AuthContext}

/-- The path is as it was written. -/
theorem request_put (order : MapOrder) (hmethod : r.method = toBytes "PUT")
    (htarget : r.target = putTarget k) :
    (r.request order).method = toBytes "PUT" ∧ (r.request order).path = putTarget k ∧
      (r.request order).body = r.body := by
  unfold Request.request HttpParser.setTarget
  rw [htarget, cutAt_of_not_mem (mark_notMem_putTarget k)]
  exact ⟨hmethod, rfl, rfl⟩

/-- The parameter is decoded. -/
theorem request_list (order : MapOrder) (hmethod : r.method = toBytes "GET")
    (htarget : r.target = listTarget k) :
    (r.request order).method = toBytes "GET" ∧ (r.request order).path = toBytes "/v1/kv" ∧
      (r.request order).queryParams = AList.insert (toBytes "prefix") k ∅ := by
  have hpair : addQueryPair ∅ (toBytes "prefix" ++ 61 :: percentEncode k) =
      AList.insert (toBytes "prefix") k ∅ := by
    have hname : urlDecode (toBytes "prefix") = toBytes "prefix" := by decide +kernel
    unfold addQueryPair
    rw [cutAt_sep (by decide +kernel)]
    simp only [hname, urlDecode_coded (coded_percentEncode k)]
  have hpieces : pieces 38 (toBytes "prefix" ++ 61 :: percentEncode k) =
      [toBytes "prefix" ++ 61 :: percentEncode k] := by
    refine pieces_of_not_mem ?_ (by simp)
    rw [List.mem_append, List.mem_cons, not_or, not_or]
    exact ⟨by decide +kernel, by decide, fun hmem => (bare_percentEncode k 38 hmem).safe.1 rfl⟩
  unfold Request.request HttpParser.setTarget
  rw [htarget, listTarget_eq, cutAt_sep (by decide +kernel)]
  refine ⟨hmethod, rfl, ?_⟩
  show parseQueryString ∅ (toBytes "prefix" ++ 61 :: percentEncode k) = _
  rw [parseQueryString, hpieces, List.foldl_cons, hpair, List.foldl_nil]

/-! ## The way of the key -/

/-- The parameters of the path of a PUT. -/
theorem matchRoute_put {path : Bytes} (hne : path ≠ []) (hdots : ∀ b ∈ path, isDot b = true) :
    Router.matchRoute (Endpoint.route J .put) (toBytes "/v1/kv/" ++ path) =
      some (AList.insert (toBytes "key") path ∅) := by
  have hregex : (Endpoint.route J .put).regex =
      (toBytes "/v1/kv/").map .char ++ [.param (toBytes "key")] := by
    show compilePattern (toBytes "/v1/kv/\x7bkey\x7d") = _
    decide +kernel
  rw [Router.matchRoute, hregex, regexMatch_chars, regexMatch_last _ hne hdots]
  rfl

theorem endpointOf_put {req : HttpRequest} (hmethod : req.method = toBytes "PUT")
    (hfits : fits req (Endpoint.route J .put) = true) : endpointOf J req = some .put := by
  have hmethods : ∀ e ∈ [Endpoint.liveness, .readiness, .compareAndSwap, .list, .get],
      e.method ≠ toBytes "PUT" ∧ e.method ≠ toBytes "*" := by
    decide +kernel
  rw [endpointOf, List.find?_eq_some_iff_append]
  refine ⟨hfits, [.liveness, .readiness, .compareAndSwap, .list, .get],
    [.delete, .watch, .status, .leader, .metrics], rfl, ?_⟩
  intro e he
  have hroute : (e.route J).method ≠ req.method ∧ (e.route J).method ≠ toBytes "*" := by
    rw [hmethod]
    exact hmethods e he
  simp [fits, hroute]

/-- `Dispatch` calls the handler of the endpoint. -/
theorem choose_endpoint {req : HttpRequest} {e : Endpoint} {params : Table}
    (hendpoint : endpointOf J req = some e)
    (hmatch : Router.matchRoute (e.route J) req.path = some params)
    (hroles : admits auth (e.route J) = true) :
    (mainRouter J .ideal none).choose J req auth =
      .handler (e.route J) { req with pathParams := params } auth := by
  have hfind : (mainRouter J .ideal none).routes.find? (fits req) = some (e.route J) := by
    rw [mainRouter_routes, List.find?_map]
    exact congrArg (Option.map (Endpoint.route J)) hendpoint
  show Router.findRoute .ideal J req auth (mainRouter J .ideal none).routes = _
  rw [findRoute_eq, hfind]
  simp only [atRoute, hroles, if_true, hmatch, Option.getD_some]

/-- The store of the node `n` when a PUT has been read off the wire, routed, proposed and
    applied, and it was empty before. -/
def storedBy (order : MapOrder) (J : Json.Codec) (n : RaftNode) (id : Nat) (now : Int)
    (auth : AuthContext) (wire : Bytes) : Option KVStore := do
  let req ← readRequest order wire
  match (mainRouter J .ideal none).choose J req auth with
  | .handler route req _ =>
      if route.method = toBytes "PUT" then afterPut J n id {} now req else none
  | _ => none

/-- The keys in the answer to a listing. -/
def itemKeys (J : Json.Codec) (response : HttpResponse) : Option (List Bytes) := do
  let j ← J.parse (← ofBytes? response.body)
  let items ← j.field? "items"
  items.elements.mapM fun item => do
    let key ← getString (← item.field? "key")
    return toBytes key

/-- What a client reads off the answer when the store is `s` and the clock at `t`. -/
def listedBy (order : MapOrder) (J : Json.Codec) (s : KVStore) (t : Int) (auth : AuthContext)
    (wire : Bytes) : Option (List Bytes) := do
  let req ← readRequest order wire
  let response ← ((mainRouter J .ideal none).dispatch J req auth
    { moment := fun n => { fresh.moment n with store := s, now := t } }).1
  itemKeys J response

/-- Any PUT that is applied puts some value under the key of its path. -/
theorem afterPut_some {n : RaftNode} {id : Nat} {s s' : KVStore} {now : Int} {req : HttpRequest}
    {key : String} (hpath : KVHandler.pathKey req = some (toBytes key)) (hne : toBytes key ≠ [])
    (hleader : n.role = .Leader) (h : afterPut J n id s now req = some s') :
    ∃ value ttl, s' = s.put now key value (n.log.lastIndex + 1) ttl := by
  have haccepted : ∃ value ttlMs, AcceptedPut J req key value ttlMs := by
    unfold afterPut KVHandler.put at h
    simp only [hpath, Handling.orThrow, if_neg hne] at h
    cases hbody : KVHandler.parseBody J req with
    | none => simp [hbody] at h
    | some body =>
      simp only [hbody] at h
      cases hfield : body.field? "value" with
      | none => simp [hfield] at h
      | some field =>
        simp only [hfield] at h
        cases hvalue : getString field with
        | none => simp [hvalue] at h
        | some value =>
          cases httl : KVHandler.readTtl body with
          | none => simp [hvalue, httl] at h
          | some ttlMs =>
            rw [getString_eq_some] at hvalue
            exact ⟨value, ttlMs, hpath, hne, body, hbody, hvalue ▸ hfield, httl⟩
  obtain ⟨value, ttlMs, haccepted⟩ := haccepted
  rw [afterPut_eq haccepted hleader] at h
  exact ⟨value, _, (Option.some.inj h).symm⟩

/-- The handler of a PUT gets the key as it is coded. -/
theorem storedBy_eq {n : RaftNode} {id : Nat} {now : Int} (hk : k ≠ [])
    (hmethod : r.method = toBytes "PUT") (htarget : r.target = putTarget k)
    (hroles : admits auth (Endpoint.route J .put) = true) :
    storedBy order J n id now auth r.wire = afterPut J n id {} now
      { r.request order with pathParams := AList.insert (toBytes "key") (percentEncode k) ∅ } := by
  obtain ⟨hm, hp, -⟩ := request_put order hmethod htarget
  have hmatch : Router.matchRoute (Endpoint.route J .put) (r.request order).path =
      some (AList.insert (toBytes "key") (percentEncode k) ∅) := by
    rw [hp]
    exact matchRoute_put (percentEncode_ne_nil hk) fun c hc => (bare_percentEncode k c hc).dot
  have hfits : fits (r.request order) (Endpoint.route J .put) = true :=
    fits_iff.mpr ⟨.inl hm.symm, _, hmatch⟩
  unfold storedBy
  rw [readRequest_wire, Option.bind_eq_bind, Option.bind_some,
    choose_endpoint (endpointOf_put hm hfits) hmatch hroles]
  rfl

/-- And so it is stored. -/
theorem storedBy_put {n : RaftNode} {id : Nat} {now : Int} {s : KVStore} (hk : k ≠ [])
    (hmethod : r.method = toBytes "PUT") (htarget : r.target = putTarget k)
    (hroles : admits auth (Endpoint.route J .put) = true) (hleader : n.role = .Leader)
    (h : storedBy order J n id now auth r.wire = some s) :
    ∃ key e, toBytes key = percentEncode k ∧ s.data = (∅ : Std.ExtTreeMap _ _).insert key e := by
  obtain ⟨key, hkey⟩ := exists_toBytes fun c hc => (bare_percentEncode k c hc).ascii
  have hpath : KVHandler.pathKey { r.request order with
      pathParams := AList.insert (toBytes "key") (percentEncode k) ∅ } = some (toBytes key) := by
    rw [hkey]
    exact AList.lookup_insert _
  rw [storedBy_eq hk hmethod htarget hroles] at h
  obtain ⟨value, ttl, rfl⟩ :=
    afterPut_some hpath (by rw [hkey]; exact percentEncode_ne_nil hk) hleader h
  exact ⟨key, _, hkey, rfl⟩

/-- A map with one entry. -/
theorem toList_insert_empty {κ ε : Type} [Ord κ] [Std.TransOrd κ] [Std.LawfulEqOrd κ] (x : κ)
    (v : ε) : ((∅ : Std.ExtTreeMap κ ε).insert x v).toList = [(x, v)] := by
  have hmem : (x, v) ∈ ((∅ : Std.ExtTreeMap κ ε).insert x v).toList := by
    rw [Std.ExtTreeMap.mem_toList_iff_getElem?_eq_some, Std.ExtTreeMap.getElem?_insert_self]
  have hlen : ((∅ : Std.ExtTreeMap κ ε).insert x v).toList.length = 1 := by
    rw [Std.ExtTreeMap.length_toList, Std.ExtTreeMap.size_insert]
    simp
  obtain ⟨p, hp⟩ := List.length_eq_one_iff.mp hlen
  rw [hp, List.mem_singleton] at hmem
  rw [hp, hmem]

/-- The listing of a store with one entry. -/
theorem scan_insert_empty {s : KVStore} {key : String} {e : KVEntry} {t : Int}
    (hs : s.data = (∅ : Std.ExtTreeMap _ _).insert key e) (hlive : e.expired t = false)
    (pattern : Bytes) :
    s.raw.scan t pattern none = if pattern <+: toBytes key then [(toBytes key, e.raw)] else [] := by
  have hraw : s.raw.data.toList = [(toBytes key, e.raw)] := by
    rw [KVStore.raw, hs, toList_insert_empty, List.foldl_cons, List.foldl_nil]
    exact toList_insert_empty _ _
  have hexpired : e.raw.expired t = false := hlive
  rw [rawScan_eq, limited, live, hraw]
  by_cases hbegin : pattern <+: toBytes key
  · simp [hbegin, hexpired]
  · simp [hbegin]

/-! ## The listing -/

/-- The document of a listing. -/
def listingJson (entries : List (String × KVEntry)) : Json :=
  .obj [("count", .num entries.length), ("items", .arr (entries.map fun p => itemJson p.1 p.2))]

theorem canonical_listingJson (entries : List (String × KVEntry)) :
    (listingJson entries).Canonical := by
  have hkeys : ["count", "items"].Pairwise (· < ·) := by decide
  have hitem : ["key", "value", "version"].Pairwise (· < ·) := by decide
  refine Json.Canonical.of_keys hkeys ?_
  intro f hf
  rcases List.mem_cons.mp hf with rfl | hf
  · exact .num _
  · obtain rfl := List.mem_singleton.mp hf
    exact .arr_map fun p _ => .flat hitem rfl

/-- A client reads the keys off it. -/
theorem itemKeys_listingJson (J : Json.Codec) (entries : List (String × KVEntry)) :
    itemKeys J (.ok (J.dump (listingJson entries))) =
      some (entries.map fun p => toBytes p.1) := by
  have hbody : ofBytes? (HttpResponse.ok (J.dump (listingJson entries))).body =
      some (J.dump (listingJson entries)) :=
    ofBytes?_toBytes _
  have hitems : (entries.map fun p => itemJson p.1 p.2).mapM (fun item => do
      let key ← getString (← item.field? "key")
      return toBytes key) = some (entries.map fun p => toBytes p.1) :=
    List.mapM_map.trans (Json.mapM_eq_some_map fun _ _ => rfl)
  unfold itemKeys
  rw [hbody, Option.bind_eq_bind, Option.bind_some,
    J.parse_dump _ (canonical_listingJson entries), Option.bind_eq_bind, Option.bind_some]
  exact hitems

theorem list_response {req : HttpRequest} {b : Backend} (entries : List (String × KVEntry))
    (hlimit : req.getQueryParam "limit" = none)
    (hscan : b.here.store.raw.scan b.here.now ((req.getQueryParam "prefix").getD []) none =
      entries.map fun p => (toBytes p.1, p.2.raw)) :
    (KVHandler.list J req auth b).1 = some (.ok (J.dump (listingJson entries))) := by
  have hitems : (entries.map fun p => (toBytes p.1, p.2.raw)).mapM KVHandler.listItem =
      some (entries.map fun p => itemJson p.1 p.2) :=
    List.mapM_map.trans (Json.mapM_eq_some_map fun p _ => listItem_raw p.1 p.2)
  unfold KVHandler.list HttpRequest.numericParam
  rw [hlimit]
  simp only [hscan, hitems, List.length_map]
  rfl

/-- What is listed under a prefix when there is one entry. -/
theorem listedBy_list {s : KVStore} {key : String} {e : KVEntry} {t : Int}
    (hmethod : r.method = toBytes "GET") (htarget : r.target = listTarget k)
    (hroles : admits auth (Endpoint.route J .list) = true)
    (hs : s.data = (∅ : Std.ExtTreeMap _ _).insert key e) (hlive : e.expired t = false) :
    listedBy order J s t auth r.wire = some (if k <+: toBytes key then [toBytes key] else []) := by
  obtain ⟨hm, hp, hquery⟩ := request_list order hmethod htarget
  have hmatch : Router.matchRoute (Endpoint.route J .list) (r.request order).path = some ∅ := by
    have hregex : regexMatch (compilePattern (toBytes "/v1/kv")) (toBytes "/v1/kv") = some [] := by
      decide +kernel
    have hnames : paramNames (compilePattern (toBytes "/v1/kv")) = [] := by decide +kernel
    rw [hp, Router.matchRoute]
    show (regexMatch (compilePattern (toBytes "/v1/kv")) (toBytes "/v1/kv")).map _ = _
    rw [hregex, Option.map_some]
    show some (((paramNames (compilePattern (toBytes "/v1/kv"))).zip []).foldl _ ∅) = _
    rw [hnames]
    rfl
  have hlimit :
      HttpRequest.getQueryParam { r.request order with pathParams := ∅ } "limit" = none := by
    show (r.request order).queryParams.lookup (toBytes "limit") = none
    rw [hquery, AList.lookup_insert_ne (by decide +kernel), AList.lookup_empty]
  have hparam :
      HttpRequest.getQueryParam { r.request order with pathParams := ∅ } "prefix" = some k := by
    show (r.request order).queryParams.lookup (toBytes "prefix") = some k
    rw [hquery, AList.lookup_insert]
  unfold listedBy Router.dispatch
  rw [readRequest_wire, Option.bind_eq_bind, Option.bind_some,
    choose_endpoint (endpointOf_list hm hp) hmatch hroles]
  show (KVHandler.list J _ auth _).1.bind (itemKeys J) = _
  by_cases hfound : k <+: toBytes key
  · rw [list_response [(key, e)] hlimit ?_, Option.bind_some, itemKeys_listingJson,
      if_pos hfound]
    · rfl
    · rw [hparam]
      exact (scan_insert_empty hs hlive k).trans (if_pos hfound)
  · rw [list_response [] hlimit ?_, Option.bind_some, itemKeys_listingJson,
      if_neg hfound]
    · rfl
    · rw [hparam]
      exact (scan_insert_empty hs hlive k).trans (if_neg hfound)

/-- **When a key means the same in the path and in the query.** A PUT of the coded key is applied to
    an empty store; the listing under the coded key then returns the key, and nothing else, exactly
    if every byte of the key is unreserved. -/
theorem path_query_key_iff {put list : Request} (hk : k ≠ [])
    (hput : put.method = toBytes "PUT" ∧ put.target = putTarget k)
    (hlist : list.method = toBytes "GET" ∧ list.target = listTarget k)
    (hread : auth.hasRole "read" = true) (hwrite : auth.hasRole "write" = true)
    {n : RaftNode} (hleader : n.role = .Leader) {id : Nat} {now t : Int} {s : KVStore}
    (hstored : storedBy order J n id now auth put.wire = some s)
    (hlive : ∀ (key : String) (e : KVEntry), s.data[key]? = some e → e.expired t = false) :
    listedBy order J s t auth list.wire = some [k] ↔ ∀ c ∈ k, unreserved c = true := by
  have hroles : admits auth (Endpoint.route J .list) = true ∧
      admits auth (Endpoint.route J .put) = true := by
    simp [admits, Endpoint.route, Endpoint.requiredRoles, hread, hwrite]
  obtain ⟨key, e, hkey, hs⟩ := storedBy_put hk hput.1 hput.2 hroles.2 hleader hstored
  have hexpired : e.expired t = false :=
    hlive key e (by rw [hs, Std.ExtTreeMap.getElem?_insert_self])
  rw [listedBy_list hlist.1 hlist.2 hroles.1 hs hexpired, hkey, ← percentEncode_eq_self_iff,
    Option.some.injEq]
  constructor
  · intro h
    split at h
    · exact (List.cons.inj h).1
    · exact absurd h (by simp)
  · intro h
    rw [h, if_pos (List.prefix_refl k)]

/-- The document `{"value": "v"}`. -/
def valueJson : Json := .obj [("value", .str "v")]

/-- The PUT of a key. -/
def putMessage (k : Bytes) : Message where
  method := toBytes "PUT"
  path := putTarget k
  version := toBytes "HTTP/1.1"
  query := ∅
  queryText := []
  headers := AList.singleton (toBytes "Content-Length") (toBytes "13")
  body := toBytes (Json.text.dump valueJson)
  method_nonempty := by decide +kernel
  method_plain := by decide +kernel
  path_nonempty := by
    have htext : toBytes "/v1/kv/" ≠ [] := by decide +kernel
    simp [putTarget, htext]
  path_plain := isSpace_putTarget k
  path_mark := mark_notMem_putTarget k
  version_plain := http11_plain
  coded := coded_nil
  plainHeaders := by
    intro e he
    cases List.mem_singleton.mp he
    exact ⟨by decide +kernel, by decide +kernel, by decide +kernel, by decide +kernel⟩
  lengths := by
    intro e he _
    cases List.mem_singleton.mp he
    exact ⟨by decide +kernel, by decide +kernel, by decide +kernel⟩
  lengthGiven := by
    intro _
    exact ⟨_, List.mem_singleton_self _, by decide +kernel⟩
  sized := by decide +kernel

/-- The listing under a key. -/
def listMessage (k : Bytes) : Message where
  method := toBytes "GET"
  path := toBytes "/v1/kv"
  version := toBytes "HTTP/1.1"
  query := AList.singleton (toBytes "prefix") k
  queryText := [(toBytes "prefix", percentEncode k)]
  headers := ∅
  body := []
  method_nonempty := get_nonempty
  method_plain := get_plain
  path_nonempty := by decide +kernel
  path_plain := by decide +kernel
  path_mark := by decide +kernel
  version_plain := http11_plain
  coded := by
    have hname : percentEncode (toBytes "prefix") = toBytes "prefix" := by decide +kernel
    have hcoded := coded_percentEncode (toBytes "prefix")
    rw [hname] at hcoded
    exact .cons ⟨hcoded, coded_percentEncode k⟩ .nil
  plainHeaders := by simp
  lengths := by simp
  lengthGiven := fun h => absurd rfl h
  sized := sized_nil

theorem target_listMessage (k : Bytes) : (listMessage k).toRequest.target = listTarget k := by
  rw [(toRequest_words _).2.1, listTarget_eq]
  simp [Message.target, listMessage, queryPair]

theorem storedBy_putMessage (hk : k ≠ []) {key : String} (hkey : toBytes key = percentEncode k) :
    storedBy .newestFirst Json.text { role := .Leader } 0 0 { roles := ["admin"] }
        (putMessage k).toRequest.wire =
      some (({} : KVStore).put 0 key "v" 1 none) := by
  have hbody : AcceptedPut Json.text { (putMessage k).toRequest.request .newestFirst with
      pathParams := AList.insert (toBytes "key") (percentEncode k) ∅ } key "v" (-1) := by
    refine ⟨?_, ?_, valueJson, ?_, rfl, rfl⟩
    · rw [hkey]
      exact AList.lookup_insert _
    · rw [hkey]
      exact percentEncode_ne_nil hk
    · have hkeys : ["value"].Pairwise (· < ·) := by decide
      have hcanonical : valueJson.Canonical := .flat hkeys rfl
      show (ofBytes? (toBytes (Json.text.dump valueJson))).bind Json.text.parse = some valueJson
      rw [ofBytes?_toBytes, Option.bind_some, Json.text.parse_dump _ hcanonical]
  rw [storedBy_eq hk (toRequest_words _).1 (toRequest_words _).2.1 (by decide +kernel),
    afterPut_eq hbody rfl]
  rfl

theorem path_query_key_iff_plain : ∃ s,
    storedBy .newestFirst Json.text { role := .Leader } 0 0 { roles := ["admin"] }
        (putMessage (toBytes "a-1")).toRequest.wire = some s ∧
      listedBy .newestFirst Json.text s 0 { roles := ["admin"] }
        (listMessage (toBytes "a-1")).toRequest.wire = some [toBytes "a-1"] := by
  have hkey : toBytes "a-1" = percentEncode (toBytes "a-1") := by decide +kernel
  have hstored := storedBy_putMessage (by decide +kernel) hkey
  refine ⟨_, hstored, ?_⟩
  refine (path_query_key_iff (by decide +kernel) ⟨(toRequest_words _).1, (toRequest_words _).2.1⟩
    ⟨(toRequest_words _).1, target_listMessage _⟩ (by decide) (by decide) rfl hstored ?_).mpr
    (by decide +kernel)
  intro key e he
  rw [KVStore.put, Std.ExtTreeMap.getElem?_insert] at he
  split at he
  · cases he
    rfl
  · exact absurd he (by simp)

/-- A key with a blank is stored as `a%20b`, and not found. -/
theorem path_query_key_fails : ∃ s,
    storedBy .newestFirst Json.text { role := .Leader } 0 0 { roles := ["admin"] }
        (putMessage (toBytes "a b")).toRequest.wire = some s ∧
      listedBy .newestFirst Json.text s 0 { roles := ["admin"] }
        (listMessage (toBytes "a b")).toRequest.wire = some [] := by
  have hkey : toBytes "a%20b" = percentEncode (toBytes "a b") := by decide +kernel
  refine ⟨_, storedBy_putMessage (by decide +kernel) hkey, ?_⟩
  refine (listedBy_list (toRequest_words _).1 (target_listMessage _) (by decide +kernel) rfl
    rfl).trans ?_
  decide +kernel

end Proof
end OrcDb
