import OrcDb.Proof.Api.Dispatch
import OrcDb.Proof.Api.Pattern
import OrcDb.Lib.JsonText

/-!
# Route matching is exact

A pattern of literal characters and placeholders is read as what it is (`compilePattern_text`). A
path matches if and only if the placeholders can be filled in so that the pattern becomes the
path: what is captured fills them in (`fill_of_regexMatch`), and where something does, the
backtracking finds it or something longer (`regexMatch_of_fill`). `Dispatch` goes through the
routes in the order in which they were added.
-/

set_option autoImplicit false

namespace OrcDb
namespace Proof

open Lib

variable {parts : List Part} {path : Bytes} {groups : List Bytes}

/-! ## Patterns as text -/

/-- The pattern as it is written. -/
def patternText (parts : List Part) : Bytes :=
  parts.flatMap fun part =>
    match part with
    | .char c => [c]
    | .param name => 123 :: (name ++ [125])

/-- No braces but those of the placeholders. -/
def NoBrace : Part → Prop
  | .char c => c ≠ 123 ∧ c ≠ 125
  | .param name => 123 ∉ name ∧ 125 ∉ name

instance : DecidablePred NoBrace
  | .char c => inferInstanceAs (Decidable (c ≠ 123 ∧ c ≠ 125))
  | .param name => inferInstanceAs (Decidable (123 ∉ name ∧ 125 ∉ name))

/-- Literal characters and placeholders with distinct names. -/
structure PlainPattern (parts : List Part) : Prop where
  noBrace : ∀ part ∈ parts, NoBrace part
  distinct : (paramNames parts).Nodup

theorem takeWhile_close {name : Bytes} (h : 125 ∉ name) (rest : Bytes) :
    (name ++ 125 :: rest).takeWhile (· ≠ 125) = name ∧
      (name ++ 125 :: rest).dropWhile (· ≠ 125) = 125 :: rest := by
  have hall : ∀ b ∈ name, (decide (b ≠ 125)) = true := by
    intro b hb
    rw [decide_eq_true_eq]
    rintro rfl
    exact h hb
  constructor
  · rw [List.takeWhile_append_of_pos hall]
    simp
  · rw [List.dropWhile_append_of_pos hall]
    simp

theorem compileFrom_text (h : ∀ part ∈ parts, NoBrace part) {fuel : Nat}
    (hfuel : (patternText parts).length ≤ fuel) : compileFrom fuel (patternText parts) = parts := by
  induction parts generalizing fuel with
  | nil =>
    cases fuel with
    | zero => rfl
    | succ fuel => rfl
  | cons part parts ih =>
    rw [List.forall_mem_cons] at h
    cases part with
    | char c =>
      have htext : patternText (.char c :: parts) = c :: patternText parts := rfl
      rw [htext, List.length_cons] at hfuel
      obtain ⟨fuel, rfl⟩ := Nat.exists_eq_add_of_le' (Nat.le_trans (Nat.le_add_left 1 _) hfuel)
      rw [htext, compileFrom, if_neg h.1.1, ih h.2 (by omega)]
    | param name =>
      have htext : patternText (.param name :: parts) =
          123 :: (name ++ 125 :: patternText parts) := by
        simp [patternText]
      obtain ⟨htake, hdrop⟩ := takeWhile_close h.1.2 (patternText parts)
      rw [htext, List.length_cons, List.length_append, List.length_cons] at hfuel
      obtain ⟨fuel, rfl⟩ := Nat.exists_eq_add_of_le' (Nat.le_trans (Nat.le_add_left 1 _) hfuel)
      rw [htext, compileFrom, if_pos rfl, if_pos (by simp), htake, hdrop, List.tail_cons,
        ih h.2 (by omega)]

theorem compilePattern_text (h : PlainPattern parts) : compilePattern (patternText parts) = parts :=
  compileFrom_text h.noBrace (Nat.le_refl _)

/-! ## Filling in -/

/-- The pattern with values for its placeholders. -/
def substitute (value : Bytes → Bytes) (parts : List Part) : Bytes :=
  parts.flatMap fun part =>
    match part with
    | .char c => [c]
    | .param name => value name

theorem substitute_char (value : Bytes → Bytes) (c : UInt8) (parts : List Part) :
    substitute value (.char c :: parts) = c :: substitute value parts := rfl

theorem substitute_param (value : Bytes → Bytes) (name : Bytes) (parts : List Part) :
    substitute value (.param name :: parts) = value name ++ substitute value parts := rfl

/-- The pattern with values for its placeholders in their order. -/
def fill : List Part → List Bytes → Bytes
  | [], _ => []
  | .char c :: parts, groups => c :: fill parts groups
  | .param _ :: parts, groups => groups.headD [] ++ fill parts groups.tail

/-- What the groups have matched fills the pattern in. -/
theorem fill_of_regexMatch (h : regexMatch parts path = some groups) :
    fill parts groups = path ∧ ∀ g ∈ groups, g ≠ [] := by
  induction parts generalizing path groups with
  | nil =>
    rw [regexMatch] at h
    split at h
    · rename_i hpath
      cases h
      exact ⟨hpath.symm, by simp⟩
    · exact absurd h (by simp)
  | cons part parts ih =>
    cases part with
    | char c =>
      cases path with
      | nil => exact absurd h (by simp [regexMatch])
      | cons b path =>
        rw [regexMatch] at h
        split at h
        · rename_i hb
          subst hb
          obtain ⟨hfill, hne⟩ := ih h
          exact ⟨congrArg (b :: ·) hfill, hne⟩
        · exact absurd h (by simp)
    | param name =>
      rw [regexMatch] at h
      obtain ⟨n, hn, hgroups⟩ := List.exists_of_findSome?_eq_some h
      obtain ⟨groups', hgroups', rfl⟩ := Option.map_eq_some_iff.mp hgroups
      obtain ⟨hfill, hne⟩ := ih hgroups'
      simp only [List.mem_map, List.mem_reverse, List.mem_range] at hn
      obtain ⟨m, hm, rfl⟩ := hn
      refine ⟨?_, ?_⟩
      · show path.take (m + 1) ++ fill parts groups' = path
        rw [hfill, List.take_append_drop]
      · rw [List.forall_mem_cons]
        refine ⟨?_, hne⟩
        intro hnil
        have hempty := (List.take_eq_nil_iff.mp hnil).resolve_left (by omega)
        rw [hempty] at hm
        exact absurd hm (by simp)

/-- Where values fill the pattern in, there is a match. -/
theorem regexMatch_of_fill (hdots : ∀ b ∈ path, isDot b = true)
    (hlen : (paramNames parts).length = groups.length) (hne : ∀ g ∈ groups, g ≠ [])
    (h : fill parts groups = path) : (regexMatch parts path).isSome = true := by
  induction parts generalizing path groups with
  | nil =>
    rw [fill] at h
    subst h
    rfl
  | cons part parts ih =>
    cases part with
    | char c =>
      rw [fill] at h
      subst h
      rw [regexMatch, if_pos rfl]
      exact ih (fun b hb => hdots b (List.mem_cons_of_mem _ hb)) hlen hne rfl
    | param name =>
      cases groups with
      | nil => exact absurd hlen (by simp [paramNames])
      | cons g groups =>
        have hpath : g ++ fill parts groups = path := h
        subst hpath
        have hrest := @ih (fill parts groups) groups
          (fun b hb => hdots b (List.mem_append_right _ hb)) (Nat.succ.inj hlen)
          (fun g' hg' => hne g' (List.mem_cons_of_mem _ hg')) rfl
        have hg : 0 < g.length := List.length_pos_iff.mpr (hne g List.mem_cons_self)
        have htake : (g ++ fill parts groups).takeWhile isDot = g ++ fill parts groups :=
          List.takeWhile_eq_self_iff.mpr hdots
        rw [regexMatch, List.findSome?_isSome_iff]
        -- the group may take exactly this value, though it will take a longer one if it can
        refine ⟨g.length, ?_, ?_⟩
        · rw [htake]
          simp only [List.mem_map, List.mem_reverse, List.mem_range, List.length_append]
          exact ⟨g.length - 1, by omega, by omega⟩
        · rw [List.drop_left, Option.isSome_map]
          exact hrest

theorem regexMatch_chars (literal : Bytes) (parts : List Part) (path : Bytes) :
    regexMatch (literal.map .char ++ parts) (literal ++ path) = regexMatch parts path := by
  induction literal with
  | nil => rfl
  | cons c literal ih =>
    rw [List.map_cons, List.cons_append, List.cons_append, regexMatch, if_pos rfl, ih]

/-- A placeholder at the end takes all there is. -/
theorem regexMatch_last (name : Bytes) (hne : path ≠ []) (hdots : ∀ b ∈ path, isDot b = true) :
    regexMatch [.param name] path = some [path] := by
  have htake : path.takeWhile isDot = path := List.takeWhile_eq_self_iff.mpr hdots
  obtain ⟨n, hn⟩ := Nat.exists_eq_succ_of_ne_zero (fun h => hne (List.eq_nil_of_length_eq_zero h))
  have hall : path.take (n + 1) = path ∧ path.drop (n + 1) = [] := by
    rw [← Nat.succ_eq_add_one, ← hn]
    exact ⟨List.take_length, List.drop_length⟩
  rw [regexMatch, htake, hn, Nat.succ_eq_add_one, List.range_succ, List.reverse_append,
    List.reverse_singleton, List.singleton_append, List.map_cons, List.findSome?_cons, hall.1,
    hall.2]
  rfl

/-! ## Names -/

/-- The table `MatchRoute` fills. -/
def paramTable (names groups : List Bytes) : Table :=
  (names.zip groups).foldl (fun params p => params.insert p.1 p.2) ∅

theorem lookup_foldl_zip_of_notMem {names groups : List Bytes} {name : Bytes} (t : Table)
    (h : name ∉ names) :
    ((names.zip groups).foldl (fun params p => params.insert p.1 p.2) t).lookup name =
      t.lookup name := by
  induction names generalizing groups t with
  | nil => rfl
  | cons n names ih =>
    rw [List.mem_cons, not_or] at h
    cases groups with
    | nil => rfl
    | cons g groups =>
      rw [List.zip_cons_cons, List.foldl_cons, ih _ h.2, AList.lookup_insert_ne h.1]

/-- Distinct names look their groups up. -/
theorem map_lookup_foldl_zip {names groups : List Bytes} (hnodup : names.Nodup)
    (hlen : names.length = groups.length) (t : Table) :
    (names.map fun name => (((names.zip groups).foldl
      (fun params p => params.insert p.1 p.2) t).lookup name).getD []) = groups := by
  induction names generalizing groups t with
  | nil =>
    cases groups with
    | nil => rfl
    | cons g groups => exact absurd hlen (by simp)
  | cons name names ih =>
    cases groups with
    | nil => exact absurd hlen (by simp)
    | cons g groups =>
      rw [List.nodup_cons] at hnodup
      rw [List.map_cons, List.zip_cons_cons, List.foldl_cons, ih hnodup.2 (Nat.succ.inj hlen),
        lookup_foldl_zip_of_notMem _ hnodup.1, AList.lookup_insert]
      rfl

/-- The value a table has for a placeholder. -/
def valueOf (params : Table) (name : Bytes) : Bytes := (params.lookup name).getD []

theorem fill_map (value : Bytes → Bytes) (parts : List Part) :
    fill parts ((paramNames parts).map value) = substitute value parts := by
  induction parts with
  | nil => rfl
  | cons part parts ih =>
    cases part with
    | char c => exact congrArg (c :: ·) ih
    | param name => exact congrArg (value name ++ ·) ih

/-- A pattern without placeholders stands for itself. -/
theorem substitute_of_none (h : paramNames parts = []) (value value' : Bytes → Bytes) :
    substitute value parts = substitute value' parts := by
  rw [← fill_map, ← fill_map, h]
  rfl

/-- With one placeholder the value is between what is in front and what is behind. -/
theorem substitute_single {name : Bytes} (h : paramNames parts = [name]) :
    ∃ before after, ∀ value, substitute value parts = before ++ (value name ++ after) := by
  induction parts with
  | nil => exact absurd h (by simp [paramNames])
  | cons part parts ih =>
    cases part with
    | char c =>
      obtain ⟨before, after, hall⟩ := ih h
      refine ⟨c :: before, after, ?_⟩
      intro value
      rw [substitute_char, hall]
      rfl
    | param n =>
      have hnames : n :: paramNames parts = [name] := h
      obtain ⟨rfl, hnone⟩ := List.cons.inj hnames
      refine ⟨[], substitute (fun _ => []) parts, ?_⟩
      intro value
      rw [substitute_param, substitute_of_none hnone value]
      rfl

/-! ## Routes -/

/-- A call of `AddRoute`. -/
structure Registration (σ : Type) where
  method : Bytes
  parts : List Part
  plain : PlainPattern parts
  handler : HandlerFn σ
  requiredRoles : List String

variable {σ : Type}

/-- The router after some calls. -/
def registered (router : Router σ) (regs : List (Registration σ)) : Router σ :=
  regs.foldl (fun router reg =>
    router.addRoute reg.method (patternText reg.parts) reg.handler reg.requiredRoles) router

/-- The route of a call. -/
def Registration.route (reg : Registration σ) : Route σ where
  method := reg.method
  pattern := patternText reg.parts
  regex := compilePattern (patternText reg.parts)
  handler := reg.handler
  requiredRoles := reg.requiredRoles

theorem registered_routes (router : Router σ) (regs : List (Registration σ)) :
    (registered router regs).routes = router.routes ++ regs.map Registration.route := by
  induction regs generalizing router with
  | nil => simp [registered]
  | cons reg regs ih =>
    rw [registered, List.foldl_cons, ← registered, ih, List.map_cons, List.append_cons]
    rfl

theorem registered_engine (router : Router σ) (regs : List (Registration σ)) :
    (registered router regs).engine = router.engine := by
  induction regs generalizing router with
  | nil => rfl
  | cons reg regs ih => exact ih _

/-- The path is the pattern with non-empty strings for the placeholders. -/
def Obtainable (parts : List Part) (path : Bytes) : Prop :=
  ∃ value : Bytes → Bytes, (∀ name ∈ paramNames parts, value name ≠ []) ∧
    substitute value parts = path

theorem matchRoute_eq (reg : Registration σ) (path : Bytes) :
    Router.matchRoute reg.route path =
      (regexMatch reg.parts path).map (paramTable (paramNames reg.parts)) := by
  rw [Router.matchRoute, Registration.route, compilePattern_text reg.plain]
  rfl

/-- What a match returns fills the pattern in, with non-empty values. -/
theorem matchRoute_some {reg : Registration σ} {params : Table}
    (h : Router.matchRoute reg.route path = some params) :
    substitute (valueOf params) reg.parts = path ∧
      ∀ name ∈ paramNames reg.parts, valueOf params name ≠ [] := by
  rw [matchRoute_eq] at h
  obtain ⟨groups, hgroups, rfl⟩ := Option.map_eq_some_iff.mp h
  obtain ⟨hfill, hne⟩ := fill_of_regexMatch hgroups
  have hvalues : (paramNames reg.parts).map
      (valueOf (paramTable (paramNames reg.parts) groups)) = groups :=
    map_lookup_foldl_zip reg.plain.distinct (regexMatch_length hgroups) ∅
  constructor
  · rw [← fill_map, hvalues, hfill]
  · intro name hname
    have hmem := List.mem_map_of_mem
      (f := valueOf (paramTable (paramNames reg.parts) groups)) hname
    rw [hvalues] at hmem
    exact hne _ hmem

theorem matchRoute_isSome_iff (reg : Registration σ) (hdots : ∀ b ∈ path, isDot b = true) :
    (Router.matchRoute reg.route path).isSome = true ↔ Obtainable reg.parts path := by
  constructor
  · intro h
    obtain ⟨params, hparams⟩ := Option.isSome_iff_exists.mp h
    obtain ⟨hsub, hne⟩ := matchRoute_some hparams
    exact ⟨valueOf params, hne, hsub⟩
  · rintro ⟨value, hne, hsub⟩
    rw [← fill_map] at hsub
    rw [matchRoute_eq, Option.isSome_map]
    refine regexMatch_of_fill hdots (by rw [List.length_map]) ?_ hsub
    intro g hg
    obtain ⟨name, hname, rfl⟩ := List.mem_map.mp hg
    exact hne name hname

/-- With one placeholder only one value fills the pattern in. -/
theorem matchRoute_single {reg : Registration σ} {params : Table} {name : Bytes}
    (hname : paramNames reg.parts = [name])
    (h : Router.matchRoute reg.route path = some params) {value : Bytes → Bytes}
    (hvalue : substitute value reg.parts = path) : valueOf params name = value name := by
  obtain ⟨before, after, hall⟩ := substitute_single hname
  have hsame := (matchRoute_some h).1.trans hvalue.symm
  rw [hall, hall] at hsame
  exact List.append_cancel_right (List.append_cancel_left hsame)

/-- The request reaches the routes with the context `auth'`. -/
def Passes (router : Router σ) (req : HttpRequest) (auth auth' : AuthContext) : Prop :=
  match router.authMiddleware with
  | none => auth' = auth
  | some middleware => middleware req auth = (none, auth')

theorem choose_of_passes (J : Json.Codec) {router : Router σ} {req : HttpRequest}
    {auth auth' : AuthContext} (h : Passes router req auth auth') :
    router.choose J req auth = Router.findRoute router.engine J req auth' router.routes := by
  unfold Passes at h
  unfold Router.choose
  cases hmiddleware : router.authMiddleware with
  | none =>
    rw [hmiddleware] at h
    have hsame : auth' = auth := h
    rw [hsame]
  | some middleware =>
    rw [hmiddleware] at h
    have hpass : middleware req auth = (none, auth') := h
    simp only [hpass]

/-- The method and the pattern of the registration are those of the request. -/
def Meant (req : HttpRequest) (reg : Registration σ) : Prop :=
  (reg.method = req.method ∨ reg.method = toBytes "*") ∧ Obtainable reg.parts req.path

theorem fits_route {req : HttpRequest} (hdots : ∀ b ∈ req.path, isDot b = true)
    (reg : Registration σ) : fits req reg.route = true ↔ Meant req reg := by
  rw [fits_iff, ← Option.isSome_iff_exists, matchRoute_isSome_iff reg hdots]
  rfl

/-- **Routes match exactly.** `MatchRoute` succeeds if and only if the placeholders can be filled
    in, its parameters do so, and with a single placeholder there is no other value. `Dispatch`
    takes the first registration that is meant, and no route if none is. -/
theorem route_matching (J : Json.Codec) :
    (∀ (reg : Registration σ) (path : Bytes),
      Router.matchRoute reg.route path = Router.matchText (patternText reg.parts) path) ∧
    (∀ (reg : Registration σ) (path : Bytes), (∀ b ∈ path, isDot b = true) →
      ((Router.matchRoute reg.route path).isSome = true ↔ Obtainable reg.parts path) ∧
      ∀ params, Router.matchRoute reg.route path = some params →
        substitute (valueOf params) reg.parts = path ∧
        ∀ name, paramNames reg.parts = [name] → ∀ v, v ≠ [] →
          (substitute (fun _ => v) reg.parts = path ↔ params.lookup name = some v)) ∧
    ∀ (middleware : Option MiddlewareFn) (regs : List (Registration σ)) (req : HttpRequest)
      (auth auth' : AuthContext), (∀ b ∈ req.path, isDot b = true) →
      Passes (registered { authMiddleware := middleware } regs) req auth auth' →
      (∀ before reg after, regs = before ++ reg :: after → Meant req reg →
        (∀ earlier ∈ before, ¬Meant req earlier) →
          (registered { authMiddleware := middleware } regs).choose J req auth =
            atRoute J req auth' reg.route) ∧
      ((∀ reg ∈ regs, ¬Meant req reg) →
        (registered { authMiddleware := middleware } regs).choose J req auth = noRoute J req) := by
  refine ⟨?_, ?_, ?_⟩
  · intro reg path
    rw [matchText_eq, matchRoute_eq, compilePattern_text reg.plain]
    rfl
  · intro reg path hdots
    refine ⟨matchRoute_isSome_iff reg hdots, ?_⟩
    intro params hparams
    obtain ⟨hsub, hne⟩ := matchRoute_some hparams
    refine ⟨hsub, ?_⟩
    intro name hname v hv
    have hvalue : valueOf params name ≠ [] := hne name (by simp [hname])
    constructor
    · intro hfilled
      have heq := matchRoute_single hname hparams hfilled
      unfold valueOf at heq hvalue
      cases hlook : params.lookup name with
      | none =>
        rw [hlook] at hvalue
        exact absurd rfl hvalue
      | some v' =>
        rw [hlook] at heq
        exact congrArg some heq
    · intro hlook
      obtain ⟨before, after, hall⟩ := substitute_single hname
      rw [← hsub, hall, hall, valueOf, hlook]
      rfl
  · intro middleware regs req auth auth' hdots hpasses
    rw [choose_of_passes J hpasses, registered_routes, registered_engine, List.nil_append,
      findRoute_eq]
    constructor
    · rintro before reg after rfl hmeant hearlier
      have hfind : ((before ++ reg :: after).map Registration.route).find? (fits req) =
          some reg.route := by
        rw [List.find?_eq_some_iff_append]
        refine ⟨(fits_route hdots reg).mpr hmeant, before.map Registration.route,
          after.map Registration.route, by simp, ?_⟩
        intro route hroute
        obtain ⟨earlier, hmem, rfl⟩ := List.mem_map.mp hroute
        rw [Bool.not_eq_true', ← Bool.not_eq_true, fits_route hdots]
        exact hearlier earlier hmem
      rw [hfind]
    · intro hnone
      have hfind : (regs.map Registration.route).find? (fits req) = none := by
        rw [List.find?_eq_none]
        intro route hroute
        obtain ⟨reg, hmem, rfl⟩ := List.mem_map.mp hroute
        rw [fits_route hdots]
        exact hnone reg hmem
      rw [hfind]

/-- The pattern of the compare-and-swap route. -/
def casParts : List Part :=
  (toBytes "/v1/kv/").map .char ++ .param (toBytes "key") :: (toBytes "/cas").map .char

theorem plain_casParts : PlainPattern casParts := ⟨by decide +kernel, by decide +kernel⟩

/-- The placeholder takes the first `/cas` of two, for the last one is the pattern's. -/
theorem route_matching_cas : ∃ params,
    Router.matchRoute (σ := Unit)
        (Registration.route ⟨toBytes "POST", casParts, plain_casParts, fun _ _ s => (none, s), []⟩)
        (toBytes "/v1/kv/a/cas/cas") = some params ∧
      params.lookup (toBytes "key") = some (toBytes "a/cas") := by
  obtain ⟨hiff, hsome⟩ := (route_matching (σ := Unit) Json.text).2.1
    ⟨toBytes "POST", casParts, plain_casParts, fun _ _ s => (none, s), []⟩
    (toBytes "/v1/kv/a/cas/cas") (by decide +kernel)
  have hfilled : substitute (fun _ => toBytes "a/cas") casParts = toBytes "/v1/kv/a/cas/cas" := by
    decide +kernel
  obtain ⟨params, hparams⟩ := Option.isSome_iff_exists.mp
    (hiff.mpr ⟨fun _ => toBytes "a/cas", by decide +kernel, hfilled⟩)
  refine ⟨params, hparams, ?_⟩
  exact ((hsome params hparams).2 (toBytes "key") (by decide +kernel) _
    (by decide +kernel)).mp hfilled

end Proof
end OrcDb
