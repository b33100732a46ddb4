import Mathlib.Data.List.Nodup
import Mathlib.Data.List.Perm.Subperm
import TigerClaw.Gateway.Router
import TigerClaw.Library.Segments

/-!
# What the router resolves

`resolve` of `src/gateway/router.zig` takes the first route that matches, and a wildcard is to
capture the rest of the path as it is.

* `SegsMatch`, `RouteMatches`: what it is for a route to match, with its parameters and with the
  segments under its wildcard.  `SegsMatch.functional`: there is one way only.
* `paramsMet`: how many parameters the loop meets.  `matchSegments_cases`: what the loop finds.
* `Resolves`: the answer that is asked for.  `Tried`: the routes that come into question for it.
* `resolve_iff`: it is given exactly where no route has too many parameters, and the wildcard that
  answers has something behind the first segment under it, or nothing under it at all.
-/

namespace TigerClaw
namespace Gateway

open Segments (headed)

/-! ## Routes that match -/

/-- The target without its query. -/
def pathOf (target : Bytes) : Bytes := target.take ((target.idxOf? 0x3F).getD target.length)

/-- `:name`. -/
def IsParam (p : Bytes) : Prop := p.length > 1 ∧ p.head? = some 0x3A

instance decidableIsParam (p : Bytes) : Decidable (IsParam p) := inferInstanceAs (Decidable (_ ∧ _))

/-- The segments of a pattern match those of a target.  At the end stand the segments under the
wildcard, if there is one. -/
inductive SegsMatch : List Bytes → List Bytes → List Param → Option (List Bytes) → Prop
  | done : SegsMatch [] [] [] none
  | wildcard (rest : List Bytes) : SegsMatch [ascii "*"] rest [] (some rest)
  | param {p v : Bytes} {pattern target : List Bytes} {params : List Param}
      {rest : Option (List Bytes)} : IsParam p → SegsMatch pattern target params rest →
      SegsMatch (p :: pattern) (v :: target) (⟨p.tail, v⟩ :: params) rest
  | literal {seg : Bytes} {pattern target : List Bytes} {params : List Param}
      {rest : Option (List Bytes)} : seg ≠ ascii "*" → ¬ IsParam seg →
      SegsMatch pattern target params rest → SegsMatch (seg :: pattern) (seg :: target) params rest

/-- A route matches the path of a target. -/
def RouteMatches (route : Route) (target : Bytes) (params : List Param)
    (rest : Option (List Bytes)) : Prop :=
  ∃ path pattern, pathOf target = 0x2F :: path ∧ route.pattern = 0x2F :: pattern ∧
    SegsMatch (pattern.splitOn 0x2F) (path.splitOn 0x2F) params rest

def MatchesPath (route : Route) (target : Bytes) : Prop :=
  ∃ params rest, RouteMatches route target params rest

theorem IsParam.ne_star {p : Bytes} (h : IsParam p) : p ≠ ascii "*" := by
  rintro rfl
  exact absurd h (by decide)

theorem SegsMatch.functional {pattern target : List Bytes} {params params' : List Param}
    {rest rest' : Option (List Bytes)} (h : SegsMatch pattern target params rest)
    (h' : SegsMatch pattern target params' rest') : params = params' ∧ rest = rest' := by
  induction h generalizing params' rest' with
  | done =>
    cases h'
    exact ⟨rfl, rfl⟩
  | wildcard rest =>
    cases h' with
    | wildcard => exact ⟨rfl, rfl⟩
    | param hp => exact absurd rfl hp.ne_star
    | literal hstar => exact absurd rfl hstar
  | param hp _ ih =>
    cases h' with
    | wildcard => exact absurd rfl hp.ne_star
    | param _ h' =>
      obtain ⟨rfl, rfl⟩ := ih h'
      exact ⟨rfl, rfl⟩
    | literal _ hnot => exact absurd hp hnot
  | literal hstar hnot _ ih =>
    cases h' with
    | wildcard => exact absurd rfl hstar
    | param hp => exact absurd hp hnot
    | literal _ _ h' => exact ih h'

/-- The segments in front of the wildcard and those under it are all there are. -/
theorem SegsMatch.split {pattern target rest : List Bytes} {params : List Param}
    (h : SegsMatch pattern target params (some rest)) :
    ∃ front, target = front ++ rest ∧ pattern.length = front.length + 1 := by
  generalize hsome : some rest = found at h
  induction h with
  | done => cases hsome
  | wildcard rest' => exact ⟨[], by rw [Option.some.inj hsome, List.nil_append], rfl⟩
  | param _ _ ih =>
    obtain ⟨front, rfl, hlen⟩ := ih hsome
    exact ⟨_ :: front, rfl, congrArg (· + 1) hlen⟩
  | literal _ _ _ ih =>
    obtain ⟨front, rfl, hlen⟩ := ih hsome
    exact ⟨_ :: front, rfl, congrArg (· + 1) hlen⟩

/-- **What is under the wildcard is the rest of the path**, behind the segments in front of it. -/
theorem RouteMatches.verbatim {route : Route} {target : Bytes} {params : List Param}
    {rest : List Bytes} (h : RouteMatches route target params (some rest)) :
    ∃ front, pathOf target = headed 0x2F front ++ headed 0x2F rest := by
  obtain ⟨path, pattern, hpath, -, hsegs⟩ := h
  obtain ⟨front, hfront, -⟩ := hsegs.split
  exact ⟨front, by rw [hpath, ← Segments.headed_splitOn path, hfront, Segments.headed_append]⟩

theorem RouteMatches.functional {route : Route} {target : Bytes} {params params' : List Param}
    {rest rest' : Option (List Bytes)} (h : RouteMatches route target params rest)
    (h' : RouteMatches route target params' rest') : params = params' ∧ rest = rest' := by
  obtain ⟨path, pattern, hpath, hpattern, hsegs⟩ := h
  obtain ⟨path', pattern', hpath', hpattern', hsegs'⟩ := h'
  rw [hpath] at hpath'
  rw [hpattern] at hpattern'
  obtain rfl := (List.cons.inj hpath').2
  obtain rfl := (List.cons.inj hpattern').2
  exact hsegs.functional hsegs'

/-! ## The loop over the segments -/

/-- The parameters that are met before a segment decides otherwise. -/
def paramsMet : List Bytes → List Bytes → ℕ
  | p :: pattern, t :: target =>
    if p = ascii "*" then 0
    else if IsParam p then paramsMet pattern target + 1
    else if p ≠ t then 0
    else paramsMet pattern target
  | _, _ => 0

theorem not_segsMatch_star {pattern target : List Bytes} {params : List Param}
    {rest : Option (List Bytes)} (hpattern : pattern ≠ []) :
    ¬ SegsMatch (ascii "*" :: pattern) target params rest := by
  intro h
  cases h with
  | wildcard => exact hpattern rfl
  | param hp => exact hp.ne_star rfl
  | literal hstar => exact hstar rfl

theorem matchSegments_param {p t : Bytes} (hp : IsParam p) (params : List Param)
    (pattern target : List Bytes) :
    matchSegments params (p :: pattern) (t :: target) =
      if params.length ≥ maxParams then .error .tooManyParams
      else matchSegments (params ++ [⟨p.tail, t⟩]) pattern target := by
  have hcolon : p.length > 1 ∧ p.head? = some 0x3A := hp
  rw [matchSegments, if_neg hp.ne_star]
  exact if_pos hcolon

theorem matchSegments_literal {p t : Bytes} (hstar : p ≠ ascii "*") (hnot : ¬ IsParam p)
    (params : List Param) (pattern target : List Bytes) :
    matchSegments params (p :: pattern) (t :: target) =
      if p ≠ t then .ok none else matchSegments params pattern target := by
  have hcolon : ¬ (p.length > 1 ∧ p.head? = some 0x3A) := hnot
  rw [matchSegments, if_neg hstar]
  exact if_neg hcolon

/-- What the loop finds: too many parameters, a match, or none. -/
def Finds (params : List Param) (pattern target : List Bytes) : Prop :=
  maxParams < params.length + paramsMet pattern target ∧
      matchSegments params pattern target = .error .tooManyParams ∨
    params.length + paramsMet pattern target ≤ maxParams ∧
      ((∃ params' rest, SegsMatch pattern target params' rest ∧
          matchSegments params pattern target =
            .ok (some (params ++ params', rest.map wildcardTail))) ∨
        (∀ params' rest, ¬ SegsMatch pattern target params' rest) ∧
          matchSegments params pattern target = .ok none)

theorem finds_star {params : List Param} (hparams : params.length ≤ maxParams)
    (pattern target : List Bytes) : Finds params (ascii "*" :: pattern) target := by
  have hzero : paramsMet (ascii "*" :: pattern) target = 0 := by
    cases target with
    | nil => rfl
    | cons t target => rw [paramsMet, if_pos rfl]
  unfold Finds matchSegments
  rw [hzero, if_pos rfl]
  refine .inr ⟨hparams, ?_⟩
  by_cases hpattern : pattern = []
  · subst hpattern
    rw [if_neg (not_not.mpr rfl)]
    exact .inl ⟨[], some target, .wildcard target, by rw [List.append_nil]; rfl⟩
  · rw [if_pos hpattern]
    exact .inr ⟨fun _ _ => not_segsMatch_star hpattern, rfl⟩

theorem finds_param {p t : Bytes} (hp : IsParam p) {params : List Param}
    {pattern target : List Bytes}
    (ih : params.length < maxParams → Finds (params ++ [⟨p.tail, t⟩]) pattern target)
    (hparams : params.length ≤ maxParams) : Finds params (p :: pattern) (t :: target) := by
  unfold Finds
  rw [matchSegments_param hp, paramsMet, if_neg hp.ne_star, if_pos hp]
  by_cases hroom : params.length ≥ maxParams
  · rw [if_pos hroom]
    exact .inl ⟨by omega, rfl⟩
  · rw [if_neg hroom]
    have hlen : (params ++ [(⟨p.tail, t⟩ : Param)]).length = params.length + 1 := by
      rw [List.length_append, List.length_singleton]
    rcases ih (by omega) with ⟨hmany, h⟩ | ⟨hfew, ⟨params', rest, hmatch, h⟩ | ⟨hnone, h⟩⟩
    · exact .inl ⟨by omega, h⟩
    · refine .inr ⟨by omega, .inl ⟨_, rest, .param hp hmatch, ?_⟩⟩
      rw [h, List.append_assoc, List.singleton_append]
    · refine .inr ⟨by omega, .inr ⟨fun _ _ hmatch => ?_, h⟩⟩
      cases hmatch with
      | wildcard => exact hp.ne_star rfl
      | param _ hmatch => exact hnone _ _ hmatch
      | literal _ hnot => exact hnot hp

theorem finds_literal {p t : Bytes} (hstar : p ≠ ascii "*") (hnot : ¬ IsParam p)
    {params : List Param} {pattern target : List Bytes} (ih : Finds params pattern target)
    (hparams : params.length ≤ maxParams) : Finds params (p :: pattern) (t :: target) := by
  unfold Finds
  rw [matchSegments_literal hstar hnot, paramsMet, if_neg hstar, if_neg hnot]
  by_cases hseg : p = t
  · subst hseg
    rw [if_neg (not_not.mpr rfl), if_neg (not_not.mpr rfl)]
    rcases ih with h | ⟨hfew, ⟨params', rest, hmatch, h⟩ | ⟨hnone, h⟩⟩
    · exact .inl h
    · exact .inr ⟨hfew, .inl ⟨params', rest, .literal hstar hnot hmatch, h⟩⟩
    · refine .inr ⟨hfew, .inr ⟨fun _ _ hmatch => ?_, h⟩⟩
      cases hmatch with
      | wildcard => exact hstar rfl
      | param hp => exact hnot hp
      | literal _ _ hmatch => exact hnone _ _ hmatch
  · rw [if_pos hseg, if_pos hseg]
    refine .inr ⟨hparams, .inr ⟨fun _ _ hmatch => ?_, rfl⟩⟩
    cases hmatch with
    | wildcard => exact hstar rfl
    | param hp => exact hnot hp
    | literal => exact hseg rfl

theorem finds {params : List Param} (pattern target : List Bytes)
    (hparams : params.length ≤ maxParams) : Finds params pattern target := by
  induction pattern generalizing target params with
  | nil =>
    cases target with
    | nil =>
      exact .inr ⟨hparams, .inl ⟨[], none, .done, by rw [matchSegments, List.append_nil]; rfl⟩⟩
    | cons t target =>
      refine .inr ⟨hparams, .inr ⟨fun _ _ h => ?_, by rw [matchSegments]⟩⟩
      cases h
  | cons p pattern ih =>
    by_cases hstar : p = ascii "*"
    · subst hstar
      exact finds_star hparams pattern target
    cases target with
    | nil =>
      refine .inr ⟨hparams, .inr ⟨fun _ _ h => ?_, by rw [matchSegments, if_neg hstar]⟩⟩
      cases h with
      | wildcard => exact hstar rfl
    | cons t target =>
      by_cases hparam : IsParam p
      · refine finds_param hparam (fun hroom => ih target ?_) hparams
        rw [List.length_append, List.length_singleton]
        exact hroom
      · exact finds_literal hstar hparam (ih target hparams) hparams

/-! ## One route -/

/-- The parameters that are met on the way through a route. -/
def routeParams (route : Route) (target : Bytes) : ℕ :=
  match pathOf target, route.pattern with
  | 0x2F :: path, 0x2F :: pattern => paramsMet (pattern.splitOn 0x2F) (path.splitOn 0x2F)
  | _, _ => 0

theorem matchRoute_cases (route : Route) (target : Bytes) :
    maxParams < routeParams route target ∧ matchRoute route target = .error .tooManyParams ∨
      routeParams route target ≤ maxParams ∧
        ((∃ params rest, RouteMatches route target params rest ∧
            matchRoute route target = .ok (some (params, rest.map wildcardTail))) ∨
          ¬ MatchesPath route target ∧ matchRoute route target = .ok none) := by
  have hpath : matchRoute route target =
      match pathOf target, route.pattern with
      | 0x2F :: path, 0x2F :: pattern =>
        matchSegments [] (pattern.splitOn 0x2F) (path.splitOn 0x2F)
      | _, _ => .ok none := rfl
  rw [hpath, routeParams]
  split
  · rename_i path pattern htarget hpattern
    have hmatch : ∀ params rest, RouteMatches route target params rest ↔
        SegsMatch (pattern.splitOn 0x2F) (path.splitOn 0x2F) params rest := by
      intro params rest
      constructor
      · rintro ⟨path', pattern', htarget', hpattern', h⟩
        rw [htarget] at htarget'
        rw [hpattern] at hpattern'
        rwa [(List.cons.inj htarget').2, (List.cons.inj hpattern').2]
      · exact fun h => ⟨path, pattern, htarget, hpattern, h⟩
    have hfinds := @finds [] (pattern.splitOn 0x2F) (path.splitOn 0x2F) (Nat.zero_le _)
    unfold Finds at hfinds
    rw [List.length_nil, Nat.zero_add] at hfinds
    rcases hfinds with h | ⟨hfew, ⟨params, rest, hsegs, h⟩ | ⟨hnone, h⟩⟩
    · exact .inl h
    · exact .inr ⟨hfew, .inl ⟨params, rest, (hmatch _ _).mpr hsegs, h⟩⟩
    · exact .inr ⟨hfew, .inr ⟨fun ⟨_, _, hm⟩ => hnone _ _ ((hmatch _ _).mp hm), h⟩⟩
  · rename_i hno
    refine .inr ⟨Nat.zero_le _, .inr ⟨?_, rfl⟩⟩
    rintro ⟨params, rest, path, pattern, htarget, hpattern, -⟩
    exact hno path pattern htarget hpattern

/-- The slice is the rest of the path, unless there is just one segment under the wildcard, or just
one in front of the last slash. -/
theorem wildcardTail_eq_iff (rest : List Bytes) :
    wildcardTail rest = headed 0x2F rest ↔
      ∀ first rem, rest = first :: rem → [0x2F].intercalate rem ≠ [] := by
  cases rest with
  | nil => exact iff_of_true rfl fun _ _ h => nomatch h
  | cons first rem =>
    have hform : (∀ first' rem', first :: rem = first' :: rem' →
        ([0x2F] : Bytes).intercalate rem' ≠ []) ↔ ([0x2F] : Bytes).intercalate rem ≠ [] :=
      ⟨fun h => h first rem rfl, fun h _ _ heq => (List.cons.inj heq).2 ▸ h⟩
    rw [hform, wildcardTail]
    by_cases hrem : ([0x2F] : Bytes).intercalate rem = []
    · refine iff_of_false (fun h => ?_) (not_not.mpr hrem)
      have hlen := congrArg List.length h
      rw [hrem, if_pos List.length_nil, Segments.headed_eq_cons (List.cons_ne_nil _ _),
        List.length_cons] at hlen
      have hle : first.length ≤ (([0x2F] : Bytes).intercalate (first :: rem)).length := by
        cases rem with
        | nil => rw [List.intercalate_singleton]
        | cons r rem =>
          rw [List.intercalate_cons_cons, List.append_assoc, List.length_append]
          exact Nat.le_add_right _ _
      omega
    · have hne : rem ≠ [] := by
        rintro rfl
        exact hrem rfl
      have hlen : (([0x2F] : Bytes).intercalate rem).length ≠ 0 := fun h =>
        hrem (List.eq_nil_of_length_eq_zero h)
      refine iff_of_true ?_ hrem
      rw [if_neg hlen, headed, List.flatMap_cons, ← headed, Segments.headed_eq_cons hne]

/-! ## The table -/

/-- The route answers the request. -/
def Answers (method : Method) (target : Bytes) (route : Route) : Prop :=
  MatchesPath route target ∧ route.method = method

/-- No route in front of this one answers. -/
def Tried (method : Method) (target : Bytes) (routes : List Route) (route : Route) : Prop :=
  ∃ before after, routes = before ++ route :: after ∧ ∀ r ∈ before, ¬ Answers method target r

/-- What is to be resolved: the first route that answers, with its parameters and with the rest of
the path under its wildcard; else the methods of the routes that match the path; else nothing. -/
def Resolves (routes : List Route) (method : Method) (target : Bytes) :
    Except DispatchError Resolved → Prop
  | .error _ => False
  | .ok (.match m) =>
    Tried method target routes m.route ∧ m.route.method = method ∧
      ∃ rest, RouteMatches m.route target m.params rest ∧ m.tail = rest.map (headed 0x2F)
  | .ok (.methodNotAllowed allowed) =>
    (∀ route ∈ routes, ¬ Answers method target route) ∧ allowed ≠ [] ∧ allowed.Nodup ∧
      ∀ x, x ∈ allowed ↔ ∃ route ∈ routes, MatchesPath route target ∧ route.method = x
  | .ok .noMatch => ∀ route ∈ routes, ¬ MatchesPath route target

/-- A route that is tried: its parameters fit, and if it answers by a wildcard, there is more behind
the first segment under it. -/
def Served (method : Method) (target : Bytes) (route : Route) : Prop :=
  routeParams route target ≤ maxParams ∧
    ∀ params first rem, route.method = method →
      RouteMatches route target params (some (first :: rem)) → [0x2F].intercalate rem ≠ []

/-- The same behind routes that do not answer, some of which match the path under the methods
`allowed`. -/
def ResolvesFrom (routes : List Route) (method : Method) (target : Bytes) (allowed : List Method) :
    Except DispatchError Resolved → Prop
  | .ok (.methodNotAllowed allowed') =>
    (∀ route ∈ routes, ¬ Answers method target route) ∧ allowed' ≠ [] ∧ allowed'.Nodup ∧
      ∀ x, x ∈ allowed' ↔
        x ∈ allowed ∨ ∃ route ∈ routes, MatchesPath route target ∧ route.method = x
  | .ok .noMatch => allowed = [] ∧ ∀ route ∈ routes, ¬ MatchesPath route target
  | r => Resolves routes method target r

theorem resolvesFrom_nil {routes : List Route} {method : Method} {target : Bytes}
    {r : Except DispatchError Resolved} :
    ResolvesFrom routes method target [] r ↔ Resolves routes method target r := by
  match r with
  | .error _ => exact Iff.rfl
  | .ok (.match _) => exact Iff.rfl
  | .ok .noMatch => exact and_iff_right rfl
  | .ok (.methodNotAllowed allowed) => simp [ResolvesFrom, Resolves]

theorem tried_cons {method : Method} {target : Bytes} {r route : Route} {routes : List Route} :
    Tried method target (r :: routes) route ↔
      route = r ∨ ¬ Answers method target r ∧ Tried method target routes route := by
  constructor
  · rintro ⟨before, after, hsplit, hbefore⟩
    cases before with
    | nil => exact .inl (List.cons.inj hsplit).1.symm
    | cons b before =>
      obtain ⟨rfl, rfl⟩ := List.cons.inj hsplit
      rw [List.forall_mem_cons] at hbefore
      exact .inr ⟨hbefore.1, before, after, rfl, hbefore.2⟩
  · rintro (rfl | ⟨hr, before, after, rfl, hbefore⟩)
    · exact ⟨[], routes, rfl, by simp⟩
    · exact ⟨r :: before, after, rfl, List.forall_mem_cons.mpr ⟨hr, hbefore⟩⟩

/-- A route that does not answer is passed over, with its method if it matches the path. -/
theorem resolvesFrom_cons {method : Method} {target : Bytes} {r : Route} {routes : List Route}
    {allowed allowed' : List Method} {result : Except DispatchError Resolved}
    (hr : ¬ Answers method target r)
    (hallowed : ∀ x, x ∈ allowed' ↔ x ∈ allowed ∨ MatchesPath r target ∧ r.method = x) :
    ResolvesFrom (r :: routes) method target allowed result ↔
      ResolvesFrom routes method target allowed' result := by
  match result with
  | .error _ => exact Iff.rfl
  | .ok (.match m) =>
    refine and_congr_left fun hrest => ?_
    rw [tried_cons, and_iff_right hr]
    refine or_iff_right ?_
    rintro rfl
    obtain ⟨rest, hmatch, -⟩ := hrest.2
    exact hr ⟨⟨_, _, hmatch⟩, hrest.1⟩
  | .ok .noMatch =>
    have hnil : allowed' = [] ↔ allowed = [] ∧ ¬ MatchesPath r target := by
      rw [List.eq_nil_iff_forall_not_mem, List.eq_nil_iff_forall_not_mem]
      simp only [hallowed, not_or, forall_and]
      exact and_congr_right fun _ => ⟨fun h hm => h r.method ⟨hm, rfl⟩, fun h _ hm => h hm.1⟩
    show (allowed = [] ∧ ∀ route ∈ r :: routes, ¬ MatchesPath route target) ↔
      allowed' = [] ∧ ∀ route ∈ routes, ¬ MatchesPath route target
    rw [List.forall_mem_cons, hnil, and_assoc]
  | .ok (.methodNotAllowed found) =>
    unfold ResolvesFrom
    rw [List.forall_mem_cons, and_iff_right hr]
    refine and_congr_right fun _ => and_congr_right fun _ => and_congr_right fun _ => ?_
    refine forall_congr' fun x => ?_
    rw [hallowed, List.exists_mem_cons_iff, or_assoc]

/-- There are five methods. -/
theorem mem_of_length_eq_five {allowed : List Method} (hnodup : allowed.Nodup)
    (hlen : 5 ≤ allowed.length) (x : Method) : x ∈ allowed := by
  by_contra hx
  have hsub : (x :: allowed) ⊆ [.GET, .POST, .PUT, .PATCH, .DELETE] := by
    intro y _
    cases y <;> decide
  have hle := (List.Nodup.subperm (List.nodup_cons.mpr ⟨hx, hnodup⟩) hsub).length_le
  rw [List.length_cons] at hle
  have hfive : ([.GET, .POST, .PUT, .PATCH, .DELETE] : List Method).length = 5 := rfl
  omega

/-- A method is not listed twice. -/
theorem nodup_add {allowed : List Method} (hnodup : allowed.Nodup) (x : Method) :
    (if allowed.length < 5 ∧ x ∉ allowed then allowed ++ [x] else allowed).Nodup ∧
      ∀ y, y ∈ (if allowed.length < 5 ∧ x ∉ allowed then allowed ++ [x] else allowed) ↔
        y ∈ allowed ∨ x = y := by
  split_ifs with h
  · refine ⟨List.nodup_append.mpr ⟨hnodup, List.nodup_singleton x, ?_⟩, fun y => ?_⟩
    · rintro a ha b hb rfl
      rw [List.mem_singleton.mp hb] at ha
      exact h.2 ha
    · rw [List.mem_append, List.mem_singleton, eq_comm]
  · have hx : x ∈ allowed := by
      by_contra hx
      exact hx (mem_of_length_eq_five hnodup (not_lt.mp fun hlen => h ⟨hlen, hx⟩) x)
    refine ⟨hnodup, fun y => ⟨.inl, ?_⟩⟩
    rintro (hy | rfl)
    · exact hy
    · exact hx

theorem forall_tried_cons {method : Method} {target : Bytes} {r : Route} {routes : List Route}
    {P : Route → Prop} :
    (∀ route, Tried method target (r :: routes) route → P route) ↔
      P r ∧ (¬ Answers method target r → ∀ route, Tried method target routes route → P route) := by
  constructor
  · exact fun h => ⟨h r (tried_cons.mpr (.inl rfl)), fun hr route ht =>
      h route (tried_cons.mpr (.inr ⟨hr, ht⟩))⟩
  · rintro ⟨hr, hrest⟩ route ht
    rcases tried_cons.mp ht with rfl | ⟨hnot, ht⟩
    · exact hr
    · exact hrest hnot route ht

/-- A route that matches and answers is served if its tail is right. -/
theorem served_iff_of_match {method : Method} {target : Bytes} {route : Route}
    {params : List Param} {rest : Option (List Bytes)} (hmethod : route.method = method)
    (hfew : routeParams route target ≤ maxParams) (hmatch : RouteMatches route target params rest) :
    Served method target route ↔ rest.map wildcardTail = rest.map (headed 0x2F) := by
  unfold Served
  rw [and_iff_right hfew]
  cases rest with
  | none =>
    refine iff_of_true (fun params' first rem _ hm => ?_) rfl
    cases (hmatch.functional hm).2
  | some rest =>
    rw [Option.map_some, Option.map_some, Option.some.injEq, wildcardTail_eq_iff]
    constructor
    · rintro h first rem rfl
      exact h params first rem hmethod hmatch
    · intro h params' first rem _ hm
      exact h first rem (Option.some.inj (hmatch.functional hm).2)

theorem resolveFrom_iff (routes : List Route) (method : Method) (target : Bytes)
    {allowed : List Method} (hnodup : allowed.Nodup) :
    ResolvesFrom routes method target allowed (resolveFrom method target allowed routes) ↔
      ∀ route, Tried method target routes route → Served method target route := by
  induction routes generalizing allowed with
  | nil =>
    refine iff_of_true ?_ fun route ⟨before, after, hsplit, _⟩ => ?_
    · rw [resolveFrom]
      split_ifs with h
      · exact ⟨by simp, h, hnodup, by simp⟩
      · exact ⟨not_not.mp h, by simp⟩
    · cases before <;> cases hsplit
  | cons r routes ih =>
    rw [forall_tried_cons, resolveFrom]
    rcases matchRoute_cases r target with
      ⟨hmany, h⟩ | ⟨hfew, ⟨params, rest, hmatch, h⟩ | ⟨hnone, h⟩⟩
    · rw [h]
      exact iff_of_false id fun hserved => absurd hserved.1.1 (not_le.mpr hmany)
    · rw [h]
      dsimp only
      by_cases hmethod : r.method = method
      · rw [if_pos hmethod, served_iff_of_match hmethod hfew hmatch,
          and_iff_left fun hr => absurd ⟨⟨params, rest, hmatch⟩, hmethod⟩ hr]
        constructor
        · rintro ⟨-, -, rest', hmatch', htail⟩
          obtain rfl := (hmatch.functional hmatch').2
          exact htail
        · exact fun htail => ⟨tried_cons.mpr (.inl rfl), hmethod, rest, hmatch, htail⟩
      · have hr : ¬ Answers method target r := fun ha => hmethod ha.2
        have hpath : MatchesPath r target := ⟨params, rest, hmatch⟩
        have hserved : Served method target r := ⟨hfew, fun _ _ _ hm => absurd hm hmethod⟩
        obtain ⟨hnodup', hmem⟩ := nodup_add hnodup r.method
        rw [if_neg hmethod, and_iff_right hserved, imp_iff_right hr, ← ih hnodup']
        refine resolvesFrom_cons hr fun x => ?_
        rw [hmem, and_iff_right hpath]
    · have hr : ¬ Answers method target r := fun ha => hnone ha.1
      have hserved : Served method target r :=
        ⟨hfew, fun _ _ _ _ hm => absurd ⟨_, _, hm⟩ hnone⟩
      rw [h, and_iff_right hserved, imp_iff_right hr, ← ih hnodup]
      refine resolvesFrom_cons hr fun x => ?_
      rw [or_iff_left fun hm => hnone hm.1]

/-- **A request is resolved as it should be** exactly where every route in front of the answer, and
the answer itself, has no more parameters than there is room for, and where a wildcard that answers
has nothing under it or something behind the first segment under it. -/
theorem resolve_iff (routes : List Route) (method : Method) (target : Bytes) :
    Resolves routes method target (resolve routes method target) ↔
      ∀ route, Tried method target routes route → Served method target route := by
  rw [← resolvesFrom_nil]
  exact resolveFrom_iff routes method target List.nodup_nil

/-- One segment under a wildcard comes without its slash. -/
theorem resolve_one_segment :
    resolve [⟨.GET, ascii "/static/*", ascii "static"⟩] .GET (ascii "/static/main.css") =
        .ok (.match ⟨⟨.GET, ascii "/static/*", ascii "static"⟩, [], some (ascii "main.css")⟩) ∧
      ¬ Resolves [⟨.GET, ascii "/static/*", ascii "static"⟩] .GET (ascii "/static/main.css")
        (resolve [⟨.GET, ascii "/static/*", ascii "static"⟩] .GET (ascii "/static/main.css")) := by
  have hresult : resolve [⟨.GET, ascii "/static/*", ascii "static"⟩] .GET
      (ascii "/static/main.css") =
        .ok (.match ⟨⟨.GET, ascii "/static/*", ascii "static"⟩, [], some (ascii "main.css")⟩) := by
    decide
  refine ⟨hresult, ?_⟩
  rw [hresult]
  rintro ⟨-, -, rest, -, htail⟩
  cases rest with
  | none => cases htail
  | some rest =>
    -- what is headed by a slash does not start with a letter
    cases rest with
    | nil => cases Option.some.inj htail
    | cons first rem => cases (List.cons.inj (Option.some.inj htail)).1

end Gateway
end TigerClaw
