import TigerClaw.Basic

/-!
# Router and dispatcher of the gateway

`src/gateway/http.zig`, `router.zig` and `dispatcher.zig`: requests and responses, the matching of
a target against a table of routes, and the call of the handler under the tag of the route.

* `matchRoute`, `resolve`, `dispatch`: the code.
* `tail_eq_none`: a route without a wildcard has no tail to hand to its handler.
* `resolve_match`: what is resolved is a route of the table, under the method of the request.
-/

namespace TigerClaw
namespace Gateway

inductive Method where
  | GET
  | POST
  | PUT
  | PATCH
  | DELETE
  deriving DecidableEq

structure Header where
  name : Bytes
  value : Bytes

structure Request where
  method : Method
  target : Bytes
  headers : List Header
  body : Bytes := []

inductive Status where
  | ok
  | created
  | accepted
  | noContent
  | badRequest
  | unauthorized
  | forbidden
  | notFound
  | methodNotAllowed
  | unsupportedMediaType
  | tooManyRequests
  | internalServerError
  | serviceUnavailable
  deriving DecidableEq

structure Response where
  status : Status
  headers : List Header := []
  body : Bytes := []
  streamingHandled : Bool := false

def Response.notFound : Response :=
  { status := .notFound
    headers := [⟨ascii "content-type", ascii "text/plain; charset=utf-8"⟩]
    body := ascii "not found\n" }

/-! ## Router -/

def maxParams : ℕ := 8

structure Param where
  name : Bytes
  value : Bytes
  deriving DecidableEq

structure Route where
  method : Method
  pattern : Bytes
  tag : Bytes
  deriving DecidableEq

structure Match where
  route : Route
  params : List Param
  tail : Option Bytes
  deriving DecidableEq

inductive Resolved where
  | match (m : Match)
  | methodNotAllowed (allowed : List Method)
  | noMatch
  deriving DecidableEq

/-- `MatchError` and the errors of `dispatch`. -/
inductive DispatchError where
  | tooManyParams
  | handlerMissing
  | badRequest
  | internalServerError
  deriving DecidableEq

/-- The rest of the target from the segment that meets a wildcard.  When there is more behind that
segment, the slice starts at the slash in front of it. -/
def wildcardTail : List Bytes → Bytes
  | [] => []
  | first :: rest =>
    let rem := [0x2F].intercalate rest
    if rem.length = 0 then first else 0x2F :: first ++ 0x2F :: rem

/-- The loop of `matchRoute`, over the segments of the pattern and of the target. -/
def matchSegments (params : List Param) :
    List Bytes → List Bytes → Except DispatchError (Option (List Param × Option Bytes))
  | [], [] => .ok (some (params, none))
  | [], _ :: _ => .ok none
  | p :: pattern, target =>
    if p = ascii "*" then
      if pattern ≠ [] then .ok none else .ok (some (params, some (wildcardTail target)))
    else
      match target with
      | [] => .ok none
      | t :: target =>
        if p.length > 1 ∧ p.head? = some 0x3A then
          if params.length ≥ maxParams then .error .tooManyParams
          else matchSegments (params ++ [⟨p.tail, t⟩]) pattern target
        else if p ≠ t then .ok none
        else matchSegments params pattern target

/-- `matchRoute`. -/
def matchRoute (route : Route) (target : Bytes) :
    Except DispatchError (Option (List Param × Option Bytes)) :=
  let path := target.take ((target.idxOf? 0x3F).getD target.length)
  match path, route.pattern with
  | 0x2F :: path, 0x2F :: pattern =>
    matchSegments [] (pattern.splitOn 0x2F) (path.splitOn 0x2F)
  | _, _ => .ok none

/-- The loop of `resolve`, with the methods of the routes that matched the path only. -/
def resolveFrom (method : Method) (target : Bytes) (allowed : List Method) :
    List Route → Except DispatchError Resolved
  | [] => .ok (if allowed ≠ [] then .methodNotAllowed allowed else .noMatch)
  | route :: routes =>
    match matchRoute route target with
    | .error e => .error e
    | .ok none => resolveFrom method target allowed routes
    | .ok (some (params, tail)) =>
      if route.method = method then .ok (.match { route, params, tail })
      else
        resolveFrom method target
          (if allowed.length < 5 ∧ route.method ∉ allowed then allowed ++ [route.method]
            else allowed)
          routes

/-- `resolve`. -/
def resolve (routes : List Route) (method : Method) (target : Bytes) :
    Except DispatchError Resolved :=
  resolveFrom method target [] routes

/-! ## Dispatcher -/

/-- A pointer to the connection, or null. -/
abbrev StreamHook : Type := Option ℕ

universe u

/-- A handler may change the state `σ` of the process. -/
abbrev Handler (σ : Type u) : Type u :=
  Request → List Param → Option Bytes → StreamHook → σ → Except DispatchError Response × σ

structure HandlerEntry (σ : Type u) where
  tag : Bytes
  handler : Handler σ

variable {σ : Type u}

/-- `dispatch`. -/
def dispatch (routes : List Route) (handlers : List (HandlerEntry σ)) (req : Request)
    (streamHook : StreamHook) (s : σ) : Except DispatchError Response × σ :=
  match resolve routes req.method req.target with
  | .error e => (.error e, s)
  | .ok (.match m) =>
    match handlers.find? fun entry => entry.tag == m.route.tag with
    | some entry => entry.handler req m.params m.tail streamHook s
    | none => (.error .handlerMissing, s)
  | .ok (.methodNotAllowed _) =>
    (.ok { status := .methodNotAllowed, body := ascii "method not allowed\n" }, s)
  | .ok .noMatch => (.ok .notFound, s)

/-! ## What is resolved -/

theorem matchSegments_tail {params params' : List Param} {pattern target : List Bytes}
    {tail : Option Bytes} (hwild : ascii "*" ∉ pattern)
    (h : matchSegments params pattern target = .ok (some (params', tail))) : tail = none := by
  induction pattern generalizing params target with
  | nil =>
    cases target with
    | nil =>
      rw [matchSegments] at h
      exact (Prod.mk.inj (Option.some.inj (Except.ok.inj h))).2.symm
    | cons t target => simp [matchSegments] at h
  | cons p pattern ih =>
    rw [List.mem_cons, not_or] at hwild
    unfold matchSegments at h
    rw [if_neg (Ne.symm hwild.1)] at h
    cases target with
    | nil => simp at h
    | cons t target =>
      dsimp only at h
      split_ifs at h
      · exact ih hwild.2 h
      · simp at h
      · exact ih hwild.2 h

/-- **A route without a wildcard has no tail.** -/
theorem tail_eq_none {route : Route} {target : Bytes} {params : List Param} {tail : Option Bytes}
    (hwild : ascii "*" ∉ route.pattern.tail.splitOn 0x2F)
    (h : matchRoute route target = .ok (some (params, tail))) : tail = none := by
  unfold matchRoute at h
  dsimp only at h
  split at h
  · rename_i path pattern hpath hpattern
    rw [hpattern] at hwild
    exact matchSegments_tail hwild h
  · simp at h

/-- **What is resolved is a route of the table that matches, under the method of the request.** -/
theorem resolve_match {routes : List Route} {method : Method} {target : Bytes} {m : Match}
    (h : resolve routes method target = .ok (.match m)) :
    m.route ∈ routes ∧ m.route.method = method ∧
      matchRoute m.route target = .ok (some (m.params, m.tail)) := by
  suffices ∀ allowed, resolveFrom method target allowed routes = .ok (.match m) →
      m.route ∈ routes ∧ m.route.method = method ∧
        matchRoute m.route target = .ok (some (m.params, m.tail)) from this [] h
  clear h
  induction routes with
  | nil =>
    intro allowed h
    rw [resolveFrom] at h
    split at h <;> simp at h
  | cons route routes ih =>
    intro allowed h
    rw [resolveFrom] at h
    split at h
    · simp at h
    · obtain ⟨hmem, hrest⟩ := ih _ h
      exact ⟨List.mem_cons_of_mem _ hmem, hrest⟩
    · rename_i params tail hmatch
      split at h
      · rename_i hmethod
        obtain rfl := Resolved.match.inj (Except.ok.inj h)
        exact ⟨List.mem_cons_self, hmethod, hmatch⟩
      · obtain ⟨hmem, hrest⟩ := ih _ h
        exact ⟨List.mem_cons_of_mem _ hmem, hrest⟩

end Gateway
end TigerClaw
