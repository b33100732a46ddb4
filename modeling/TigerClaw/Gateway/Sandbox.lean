import TigerClaw.Channels.Log
import TigerClaw.Gateway.Router
import TigerClaw.Library.Json.Tree

/-!
# The sandbox of the gateway's runner

`POST /sandbox` is to bring the runner behind the gateway into the sandbox mode that the terminal
has just set.  The body comes from `sendSandbox` in `src/runtime/gateway_runner.zig`; the route
table and the handler are those of `src/gateway/routes.zig`.

* `routes`, `handlers`: the tables.  The other handlers are parameters.
* `sandboxSetHandler`: the handler.  It takes its third argument for the body.
* `sandboxSetHandler_body`: given the body there, it sets mode and path as sent.
* `dispatch_sandbox`: the dispatcher gives it the tail of the match there, and the route has none.
* `sandbox_not_propagated`: so the request never reaches the runner.
-/

namespace TigerClaw
namespace Gateway

open Json (Token Tree)
open Channels (FloatInt parseSlice sliceValue)

universe u

inductive SandboxMode where
  | unlocked
  | locked
  | plan
  deriving DecidableEq

def SandboxMode.name : SandboxMode → Bytes
  | .unlocked => ascii "unlocked"
  | .locked => ascii "locked"
  | .plan => ascii "plan"

/-! ## The client -/

/-- The body that `sendSandbox` builds. -/
def sandboxBody (mode : SandboxMode) (path : Bytes) : Bytes :=
  Json.write (Json.objectTokens [(ascii "mode", sliceValue mode.name),
    (ascii "path", sliceValue path)])

/-- The request that `sendSandbox` makes. -/
def sandboxRequest (headers : List Header) (mode : SandboxMode) (path : Bytes) : Request :=
  { method := .POST, target := ascii "/sandbox", headers, body := sandboxBody mode path }

/-! ## The handler -/

/-- The runner behind the gateway.  The slot of its vtable says whether an implementation accepts a
change; the calls are kept. -/
structure AgentRunner where
  setSandboxFn : Option (SandboxMode → Bytes → Bool)
  sandboxCalls : List (SandboxMode × Bytes) := []

/-- `setSandbox`: whether it succeeds, and the runner after it.  Without the slot it does
nothing. -/
def AgentRunner.setSandbox (self : AgentRunner) (mode : SandboxMode) (path : Bytes) :
    Bool × AgentRunner :=
  ((self.setSandboxFn.map fun f => f mode path).getD true,
    { self with sandboxCalls := self.sandboxCalls ++ [(mode, path)] })

/-- `active_context`, as far as the handler uses it, and what else there is in the process. -/
structure Process (ω : Type u) where
  activeContext : Option AgentRunner
  rest : ω

/-- The fields of `Args` that have been read. -/
structure Args where
  mode : Option Bytes := none
  path : Option Bytes := none

/-- A scalar as a token. -/
def scalarToken : Tree → Option Token
  | .null => some .null
  | .bool b => some (.bool b)
  | .number s => some (.number s)
  | .string s => some (.string s)
  | .array _ | .object _ => none

/-- A value as `parseSlice` takes it. -/
def sliceTokens : Tree → Option (List Token)
  | .array elems => (elems.mapM scalarToken).map fun ts => [.arrayBegin] ++ ts ++ [.arrayEnd]
  | v => (scalarToken v).map fun t => [t]

/-- One field.  Unknown ones are ignored; one that is there already is an error. -/
def Args.set (floatInt : FloatInt) (self : Args) (field : Bytes × Tree) : Option Args :=
  if field.1 = ascii "mode" then
    if self.mode.isSome then none
    else ((sliceTokens field.2).bind (parseSlice floatInt)).map fun s =>
        { self with mode := some s }
  else if field.1 = ascii "path" then
    if self.path.isSome then none
    else ((sliceTokens field.2).bind (parseSlice floatInt)).map fun s =>
        { self with path := some s }
  else some self

/-- `std.json.parseFromSlice(Args, raw, .{ .ignore_unknown_fields = true })`: mode and path. -/
def parseArgs (floatInt : FloatInt) (raw : Bytes) : Option (Bytes × Bytes) :=
  match Json.Tree.parse false raw with
  | some (.object fields) => do
    let args ← fields.foldlM (Args.set floatInt) {}
    let mode ← args.mode
    some (mode, args.path.getD [])
  | _ => none

def parseMode (mode : Bytes) : Option SandboxMode :=
  if mode = ascii "unlocked" then some .unlocked
  else if mode = ascii "locked" then some .locked
  else if mode = ascii "plan" then some .plan
  else none

variable {ω : Type u}

/-- `sandboxSetHandler`. -/
def sandboxSetHandler (floatInt : FloatInt) : Handler (Process ω) := fun _ _ body _ s =>
  match s.activeContext with
  | none => (.error .internalServerError, s)
  | some runner =>
    match body with
    | none => (.error .badRequest, s)
    | some raw =>
      match parseArgs floatInt raw with
      | none => (.error .badRequest, s)
      | some (modeName, path) =>
        match parseMode modeName with
        | none => (.error .badRequest, s)
        | some mode =>
          let (accepted, runner) := runner.setSandbox mode path
          let s := { s with activeContext := some runner }
          if accepted then (.ok { status := .noContent }, s) else (.error .internalServerError, s)

/-! ## The tables -/

def routes : List Route :=
  [⟨.GET, ascii "/health", ascii "health"⟩,
    ⟨.POST, ascii "/config/reload", ascii "config.reload"⟩,
    ⟨.GET, ascii "/sessions", ascii "sessions.list"⟩,
    ⟨.POST, ascii "/sessions", ascii "sessions.create"⟩,
    ⟨.GET, ascii "/sessions/:id", ascii "sessions.get"⟩,
    ⟨.DELETE, ascii "/sessions/:id", ascii "sessions.delete"⟩,
    ⟨.POST, ascii "/sessions/:id/messages", ascii "sessions.message"⟩,
    ⟨.POST, ascii "/sessions/:id/turns", ascii "sessions.turn"⟩,
    ⟨.DELETE, ascii "/sessions/:id/turns/current", ascii "sessions.turn.cancel"⟩,
    ⟨.POST, ascii "/sandbox", ascii "sandbox.set"⟩,
    ⟨.GET, ascii "/instances", ascii "instances.list"⟩,
    ⟨.POST, ascii "/instances/register", ascii "instances.register"⟩,
    ⟨.POST, ascii "/instances/:id/heartbeat", ascii "instances.heartbeat"⟩,
    ⟨.DELETE, ascii "/instances/:id", ascii "instances.delete"⟩]

/-- The handlers besides `sandboxSetHandler`. -/
structure OtherHandlers (ω : Type u) where
  health : Handler (Process ω)
  configReload : Handler (Process ω)
  sessionsList : Handler (Process ω)
  sessionsCreate : Handler (Process ω)
  sessionsGet : Handler (Process ω)
  sessionsDelete : Handler (Process ω)
  sessionsMessage : Handler (Process ω)
  sessionsTurn : Handler (Process ω)
  sessionsTurnCancel : Handler (Process ω)
  instancesList : Handler (Process ω)
  instancesRegister : Handler (Process ω)
  instancesHeartbeat : Handler (Process ω)
  instancesDelete : Handler (Process ω)

def handlers (floatInt : FloatInt) (others : OtherHandlers ω) : List (HandlerEntry (Process ω)) :=
  [⟨ascii "health", others.health⟩,
    ⟨ascii "config.reload", others.configReload⟩,
    ⟨ascii "sessions.list", others.sessionsList⟩,
    ⟨ascii "sessions.create", others.sessionsCreate⟩,
    ⟨ascii "sessions.get", others.sessionsGet⟩,
    ⟨ascii "sessions.delete", others.sessionsDelete⟩,
    ⟨ascii "sessions.message", others.sessionsMessage⟩,
    ⟨ascii "sessions.turn", others.sessionsTurn⟩,
    ⟨ascii "sessions.turn.cancel", others.sessionsTurnCancel⟩,
    ⟨ascii "sandbox.set", sandboxSetHandler floatInt⟩,
    ⟨ascii "instances.list", others.instancesList⟩,
    ⟨ascii "instances.register", others.instancesRegister⟩,
    ⟨ascii "instances.heartbeat", others.instancesHeartbeat⟩,
    ⟨ascii "instances.delete", others.instancesDelete⟩]

/-! ## The seam -/

theorem resolve_sandbox :
    resolve routes .POST (ascii "/sandbox") =
      .ok (.match ⟨⟨.POST, ascii "/sandbox", ascii "sandbox.set"⟩, [], none⟩) := by
  decide

/-- **The handler is called, without a body.** -/
theorem dispatch_sandbox (floatInt : FloatInt) (others : OtherHandlers ω) (headers : List Header)
    (mode : SandboxMode) (path : Bytes) (hook : StreamHook) (s : Process ω) :
    dispatch routes (handlers floatInt others) (sandboxRequest headers mode path) hook s =
      sandboxSetHandler floatInt (sandboxRequest headers mode path) [] none hook s := by
  rw [dispatch, sandboxRequest, resolve_sandbox]
  rfl

/-! ### The handler with a body -/

theorem sliceValue_of_utf8 {s : Bytes} (h : Json.utf8Valid s = true) :
    sliceValue s = .scalar (.string s) (Token.isScalar_string s) :=
  if_pos h

theorem parseArgs_sandboxBody (floatInt : FloatInt) (mode : SandboxMode) {path : Bytes}
    (h : Json.utf8Valid path = true) :
    parseArgs floatInt (sandboxBody mode path) = some (mode.name, path) := by
  have hname : Json.utf8Valid mode.name = true := by cases mode <;> decide
  have hbody : sandboxBody mode path =
      Json.write (Json.stringObject [(ascii "mode", mode.name), (ascii "path", path)]) := by
    rw [sandboxBody, sliceValue_of_utf8 hname, sliceValue_of_utf8 h]
    rfl
  have hutf8 : ∀ field ∈ [(ascii "mode", mode.name), (ascii "path", path)],
      Json.utf8Valid field.1 = true ∧ Json.utf8Valid field.2 = true := by
    simp only [List.forall_mem_cons]
    exact ⟨⟨by decide, hname⟩, ⟨by decide, h⟩, by simp⟩
  have hnodup : ([(ascii "mode", mode.name), (ascii "path", path)].map Prod.fst).Nodup := by
    show [ascii "mode", ascii "path"].Nodup
    decide
  rw [parseArgs, hbody, Json.Tree.parse_write hnodup hutf8]
  rfl

/-- **Given the body where it looks for it, the handler sets mode and path as they were sent.** -/
theorem sandboxSetHandler_body (floatInt : FloatInt) (req : Request) (params : List Param)
    (hook : StreamHook) (mode : SandboxMode) {path : Bytes} (h : Json.utf8Valid path = true)
    (runner : AgentRunner) (rest : ω) :
    sandboxSetHandler floatInt req params (some (sandboxBody mode path)) hook ⟨some runner, rest⟩ =
      (if (runner.setSandbox mode path).1 then .ok { status := .noContent }
        else .error .internalServerError,
        ⟨some (runner.setSandbox mode path).2, rest⟩) := by
  have hmode : parseMode mode.name = some mode := by cases mode <;> decide
  simp only [sandboxSetHandler, parseArgs_sandboxBody floatInt mode h, hmode]
  split <;> rfl

/-! ### The whole way -/

/-- The request is answered with 204, and the runner has been asked for this mode and this path. -/
def Propagates (floatInt : FloatInt) (others : OtherHandlers ω) (headers : List Header)
    (hook : StreamHook) (s : Process ω) (mode : SandboxMode) (path : Bytes) : Prop :=
  ∃ runner, s.activeContext = some runner ∧
    dispatch routes (handlers floatInt others) (sandboxRequest headers mode path) hook s =
      (.ok { status := .noContent },
        { s with activeContext := some (runner.setSandbox mode path).2 })

/-- **The sandbox of the terminal never reaches the runner.**  Whatever the mode and the path, and
whatever the runner would accept, the request is an error and nothing has changed. -/
theorem sandbox_not_propagated (floatInt : FloatInt) (others : OtherHandlers ω)
    (headers : List Header) (hook : StreamHook) (s : Process ω) (mode : SandboxMode)
    (path : Bytes) :
    dispatch routes (handlers floatInt others) (sandboxRequest headers mode path) hook s =
        (.error (if s.activeContext.isSome then .badRequest else .internalServerError), s) ∧
      ¬ Propagates floatInt others headers hook s mode path := by
  have hresult :
      dispatch routes (handlers floatInt others) (sandboxRequest headers mode path) hook s =
      (.error (if s.activeContext.isSome then .badRequest else .internalServerError), s) := by
    rw [dispatch_sandbox, sandboxSetHandler]
    cases s.activeContext <;> rfl
  refine ⟨hresult, ?_⟩
  rintro ⟨runner, -, hdispatch⟩
  rw [hresult] at hdispatch
  cases (Prod.mk.inj hdispatch).1

/-- `/lock /w` at a terminal whose gateway has a runner that accepts everything. -/
theorem lock_not_propagated :
    ¬ Propagates (fun _ => none)
      ({ health := fun _ _ _ _ s => (.ok .notFound, s)
         configReload := fun _ _ _ _ s => (.ok .notFound, s)
         sessionsList := fun _ _ _ _ s => (.ok .notFound, s)
         sessionsCreate := fun _ _ _ _ s => (.ok .notFound, s)
         sessionsGet := fun _ _ _ _ s => (.ok .notFound, s)
         sessionsDelete := fun _ _ _ _ s => (.ok .notFound, s)
         sessionsMessage := fun _ _ _ _ s => (.ok .notFound, s)
         sessionsTurn := fun _ _ _ _ s => (.ok .notFound, s)
         sessionsTurnCancel := fun _ _ _ _ s => (.ok .notFound, s)
         instancesList := fun _ _ _ _ s => (.ok .notFound, s)
         instancesRegister := fun _ _ _ _ s => (.ok .notFound, s)
         instancesHeartbeat := fun _ _ _ _ s => (.ok .notFound, s)
         instancesDelete := fun _ _ _ _ s => (.ok .notFound, s) } : OtherHandlers Unit)
      [] none ⟨some ⟨some fun _ _ => true, []⟩, ()⟩ .locked (ascii "/w") := by
  rintro ⟨runner, -, hdispatch⟩
  rw [dispatch_sandbox] at hdispatch
  cases (Prod.mk.inj hdispatch).1

end Gateway
end TigerClaw
