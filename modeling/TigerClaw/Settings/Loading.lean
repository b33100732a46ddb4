import TigerClaw.Basic
import TigerClaw.Library.Checked
import TigerClaw.Library.Json.Typed
import TigerClaw.Library.StepMachine

/-!
# Loading and changing the settings

The settings come from a file, overlaid with the environment and validated; a change of one field is
validated before it is installed in the cache.

* `Values`: the settings with their defaults; `Values.text`: the file that is written.
* `Values.parse`: a document as settings.  Unknown fields are passed over, and a missing field has
  its default.  `Values.parse_text`: a file that was written is read as its settings.
* `issues`: the rules that settings break; `validate`: the code, which appends an issue for each and
  takes for granted that there is room.
* `applyEnv`, `loadFromBytes`: the layered load.  `setup`, `gate`: what writes the file, and what
  asks whether there is one.
* `apply`, `Cache.step`: a patch, and one call after another.
* `load_setup`: what setup has written is what every reader finds.
* `cache_run`: in every run of patches the cached settings are valid, and no issue lacks room.
-/

namespace TigerClaw
namespace Settings

open Json (Tree)

/-- `std.meta.stringToEnum`, for the tags of an enumeration. -/
def stringToEnum {α : Type} (tagName : α → Bytes) (all : List α) (s : Bytes) : Option α :=
  all.find? fun v => tagName v == s

inductive LogLevel where
  | debug
  | info
  | warn
  | err

namespace LogLevel

def tagName : LogLevel → Bytes
  | .debug => ascii "debug"
  | .info => ascii "info"
  | .warn => ascii "warn"
  | .err => ascii "err"

def ofTag : Bytes → Option LogLevel := stringToEnum tagName [.debug, .info, .warn, .err]

@[simp] theorem ofTag_tagName (v : LogLevel) : ofTag v.tagName = some v := by
  cases v <;> rfl

end LogLevel

inductive Mode where
  | run
  | bench
  | replay
  | eval

namespace Mode

def tagName : Mode → Bytes
  | .run => ascii "run"
  | .bench => ascii "bench"
  | .replay => ascii "replay"
  | .eval => ascii "eval"

def ofTag : Bytes → Option Mode := stringToEnum tagName [.run, .bench, .replay, .eval]

@[simp] theorem ofTag_tagName (v : Mode) : ofTag v.tagName = some v := by
  cases v <;> rfl

end Mode

structure Gateway where
  url : Bytes := []
  token : Bytes := []

structure Provider where
  name : Bytes := []
  model : Bytes := []

structure AgentConfig where
  timeoutSecs : UInt32 := 60
  maxRetries : UInt32 := 3

/-- `schema.Settings`; the defaults are those of `constants/defaults.zig`. -/
structure Values where
  logLevel : LogLevel := .info
  mode : Mode := .run
  maxToolIterations : UInt32 := 1000
  maxHistoryMessages : UInt32 := 100
  monthlyBudgetCents : UInt64 := 0
  gateway : Gateway := {}
  provider : Provider := {}
  agent : AgentConfig := {}

/-! ## Settings as a document -/

def Gateway.fields (self : Gateway) : List (Bytes × Tree) :=
  [(ascii "url", .ofBytes self.url), (ascii "token", .ofBytes self.token)]

def Provider.fields (self : Provider) : List (Bytes × Tree) :=
  [(ascii "name", .ofBytes self.name), (ascii "model", .ofBytes self.model)]

def AgentConfig.fields (self : AgentConfig) : List (Bytes × Tree) :=
  [(ascii "timeout_secs", .ofInt self.timeoutSecs.toNat),
    (ascii "max_retries", .ofInt self.maxRetries.toNat)]

def Values.fields (self : Values) : List (Bytes × Tree) :=
  [(ascii "log_level", .string self.logLevel.tagName), (ascii "mode", .string self.mode.tagName),
    (ascii "max_tool_iterations", .ofInt self.maxToolIterations.toNat),
    (ascii "max_history_messages", .ofInt self.maxHistoryMessages.toNat),
    (ascii "monthly_budget_cents", .ofInt self.monthlyBudgetCents.toNat),
    (ascii "gateway", .object self.gateway.fields),
    (ascii "provider", .object self.provider.fields),
    (ascii "agent", .object self.agent.fields)]

/-- What `writeToPath` writes. -/
def Values.text (self : Values) : Bytes := Tree.writeIndented (.object self.fields)

/-! ## A document as settings -/

section

-- how a number is read that is not written like an integer
variable (floatInt : Bytes → Option ℤ)

def readU32 (v : Tree) : Option UInt32 :=
  (v.int? floatInt 0 (2 ^ 32 - 1)).map fun n => UInt32.ofNat n.toNat

def readU64 (v : Tree) : Option UInt64 :=
  (v.int? floatInt 0 (2 ^ 64 - 1)).map fun n => UInt64.ofNat n.toNat

def Gateway.ofTree (v : Tree) : Option Gateway := do
  let fields ← v.members?
  let url ← Tree.fieldOr fields (ascii "url") [] (Tree.bytes? floatInt)
  let token ← Tree.fieldOr fields (ascii "token") [] (Tree.bytes? floatInt)
  some { url, token }

def Provider.ofTree (v : Tree) : Option Provider := do
  let fields ← v.members?
  let name ← Tree.fieldOr fields (ascii "name") [] (Tree.bytes? floatInt)
  let model ← Tree.fieldOr fields (ascii "model") [] (Tree.bytes? floatInt)
  some { name, model }

def AgentConfig.ofTree (v : Tree) : Option AgentConfig := do
  let fields ← v.members?
  let timeoutSecs ← Tree.fieldOr fields (ascii "timeout_secs") 60 (readU32 floatInt)
  let maxRetries ← Tree.fieldOr fields (ascii "max_retries") 3 (readU32 floatInt)
  some { timeoutSecs, maxRetries }

def Values.ofTree (v : Tree) : Option Values := do
  let fields ← v.members?
  let logLevel ← Tree.fieldOr fields (ascii "log_level") .info (Tree.tag? LogLevel.ofTag)
  let mode ← Tree.fieldOr fields (ascii "mode") .run (Tree.tag? Mode.ofTag)
  let maxToolIterations ← Tree.fieldOr fields (ascii "max_tool_iterations") 1000 (readU32 floatInt)
  let maxHistoryMessages ← Tree.fieldOr fields (ascii "max_history_messages") 100 (readU32 floatInt)
  let monthlyBudgetCents ← Tree.fieldOr fields (ascii "monthly_budget_cents") 0 (readU64 floatInt)
  let gateway ← Tree.fieldOr fields (ascii "gateway") {} (Gateway.ofTree floatInt)
  let provider ← Tree.fieldOr fields (ascii "provider") {} (Provider.ofTree floatInt)
  let agent ← Tree.fieldOr fields (ascii "agent") {} (AgentConfig.ofTree floatInt)
  some { logLevel, mode, maxToolIterations, maxHistoryMessages, monthlyBudgetCents, gateway
         provider, agent }

/-- `std.json.parseFromSlice(Settings, .., .{ .ignore_unknown_fields = true })`. -/
def Values.parse (text : Bytes) : Option Values :=
  (Tree.parse false text).bind (Values.ofTree floatInt)

end

/-! ## What is written is read -/

variable {floatInt : Bytes → Option ℤ}

theorem readU32_ofInt (n : UInt32) : readU32 floatInt (.ofInt n.toNat) = some n := by
  have hlt := n.toNat_lt
  rw [readU32, Tree.int?_ofInt (by omega) (by omega)]
  simp

theorem readU64_ofInt (n : UInt64) : readU64 floatInt (.ofInt n.toNat) = some n := by
  have hlt := n.toNat_lt
  rw [readU64, Tree.int?_ofInt (by omega) (by omega)]
  simp

theorem Gateway.ofTree_fields (self : Gateway) :
    ofTree floatInt (.object self.fields) = some self := by
  have hurl : Tree.once self.fields (ascii "url") = some (some (.ofBytes self.url)) := rfl
  have htoken : Tree.once self.fields (ascii "token") = some (some (.ofBytes self.token)) := rfl
  simp only [ofTree, Tree.members?, Tree.fieldOr_of_once hurl, Tree.fieldOr_of_once htoken,
    Tree.bytes?_ofBytes, Option.bind_eq_bind, Option.bind_some]

theorem Provider.ofTree_fields (self : Provider) :
    ofTree floatInt (.object self.fields) = some self := by
  have hname : Tree.once self.fields (ascii "name") = some (some (.ofBytes self.name)) := rfl
  have hmodel : Tree.once self.fields (ascii "model") = some (some (.ofBytes self.model)) := rfl
  simp only [ofTree, Tree.members?, Tree.fieldOr_of_once hname, Tree.fieldOr_of_once hmodel,
    Tree.bytes?_ofBytes, Option.bind_eq_bind, Option.bind_some]

theorem AgentConfig.ofTree_fields (self : AgentConfig) :
    ofTree floatInt (.object self.fields) = some self := by
  have htimeout : Tree.once self.fields (ascii "timeout_secs") =
    some (some (.ofInt self.timeoutSecs.toNat)) := rfl
  have hretries : Tree.once self.fields (ascii "max_retries") =
    some (some (.ofInt self.maxRetries.toNat)) := rfl
  simp only [ofTree, Tree.members?, Tree.fieldOr_of_once htimeout, Tree.fieldOr_of_once hretries,
    readU32_ofInt, Option.bind_eq_bind, Option.bind_some]

theorem Values.ofTree_fields (self : Values) :
    ofTree floatInt (.object self.fields) = some self := by
  have hlevel : Tree.once self.fields (ascii "log_level") =
    some (some (.string self.logLevel.tagName)) := rfl
  have hmode : Tree.once self.fields (ascii "mode") =
    some (some (.string self.mode.tagName)) := rfl
  have htools : Tree.once self.fields (ascii "max_tool_iterations") =
    some (some (.ofInt self.maxToolIterations.toNat)) := rfl
  have hhistory : Tree.once self.fields (ascii "max_history_messages") =
    some (some (.ofInt self.maxHistoryMessages.toNat)) := rfl
  have hbudget : Tree.once self.fields (ascii "monthly_budget_cents") =
    some (some (.ofInt self.monthlyBudgetCents.toNat)) := rfl
  have hgateway : Tree.once self.fields (ascii "gateway") =
    some (some (.object self.gateway.fields)) := rfl
  have hprovider : Tree.once self.fields (ascii "provider") =
    some (some (.object self.provider.fields)) := rfl
  have hagent : Tree.once self.fields (ascii "agent") =
    some (some (.object self.agent.fields)) := rfl
  simp only [ofTree, Tree.members?, Tree.fieldOr_of_once hlevel, Tree.fieldOr_of_once hmode,
    Tree.fieldOr_of_once htools, Tree.fieldOr_of_once hhistory, Tree.fieldOr_of_once hbudget,
    Tree.fieldOr_of_once hgateway, Tree.fieldOr_of_once hprovider, Tree.fieldOr_of_once hagent,
    Tree.tag?,
    LogLevel.ofTag_tagName, Mode.ofTag_tagName, readU32_ofInt, readU64_ofInt,
    Gateway.ofTree_fields, Provider.ofTree_fields, AgentConfig.ofTree_fields,
    Option.bind_eq_bind, Option.bind_some]

theorem utf8Valid_tagName_logLevel (v : LogLevel) : Json.utf8Valid v.tagName = true := by
  cases v <;> rfl

theorem utf8Valid_tagName_mode (v : Mode) : Json.utf8Valid v.tagName = true := by
  cases v <;> rfl

theorem Gateway.tame_fields (self : Gateway) : Tree.Tame (.object self.fields) := by
  refine Tree.tame_object ?_
  simp only [fields, List.forall_mem_cons, List.not_mem_nil, false_implies, implies_true, and_true]
  exact ⟨⟨rfl, Tree.tame_ofBytes _⟩, rfl, Tree.tame_ofBytes _⟩

theorem Provider.tame_fields (self : Provider) : Tree.Tame (.object self.fields) := by
  refine Tree.tame_object ?_
  simp only [fields, List.forall_mem_cons, List.not_mem_nil, false_implies, implies_true, and_true]
  exact ⟨⟨rfl, Tree.tame_ofBytes _⟩, rfl, Tree.tame_ofBytes _⟩

theorem AgentConfig.tame_fields (self : AgentConfig) : Tree.Tame (.object self.fields) := by
  refine Tree.tame_object ?_
  simp only [fields, List.forall_mem_cons, List.not_mem_nil, false_implies, implies_true, and_true]
  exact ⟨⟨rfl, Tree.tame_ofInt _⟩, rfl, Tree.tame_ofInt _⟩

theorem Values.tame_fields (self : Values) : Tree.Tame (.object self.fields) := by
  refine Tree.tame_object ?_
  simp only [fields, List.forall_mem_cons, List.not_mem_nil, false_implies, implies_true, and_true]
  exact ⟨⟨rfl, Tree.tame_string (utf8Valid_tagName_logLevel _)⟩,
    ⟨rfl, Tree.tame_string (utf8Valid_tagName_mode _)⟩, ⟨rfl, Tree.tame_ofInt _⟩,
    ⟨rfl, Tree.tame_ofInt _⟩, ⟨rfl, Tree.tame_ofInt _⟩, ⟨rfl, self.gateway.tame_fields⟩,
    ⟨rfl, self.provider.tame_fields⟩, rfl, self.agent.tame_fields⟩

/-- **A settings file is read as the settings that were written.** -/
theorem Values.parse_text (self : Values) : parse floatInt self.text = some self := by
  rw [parse, text, Tree.parse_writeIndented fun t ht => (self.tame_fields t ht).writable]
  exact self.ofTree_fields

/-- A part of a settings file is not read. -/
theorem Values.parse_take_text (self : Values) {n : ℕ} (hn : n < self.text.length) :
    parse floatInt (self.text.take n) = none := by
  rw [parse, text, Tree.parse_take_writeIndented (fun t ht => (self.tame_fields t ht).writable) hn]
  rfl

/-! ## Validation -/

structure Issue where
  field : Bytes
  reason : Bytes

/-- `std.array_list.Aligned(Issue, null)`: the issues, and how many there is room for. -/
structure IssueList where
  items : List Issue := []
  capacity : ℕ

def IssueList.appendAssumeCapacity {ε : Type} (self : IssueList) (issue : Issue) :
    Outcome ε IssueList :=
  if self.items.length < self.capacity then .ok { self with items := self.items ++ [issue] }
  else .trap .bounds

inductive ValidationError where
  | invalidSettings

def isValidHttpUrl (url : Bytes) : Bool :=
  (ascii "http://").isPrefixOf url || (ascii "https://").isPrefixOf url

/-- A rule of `validate`: whether it is broken, and the issue. -/
structure Rule where
  broken : Bool
  issue : Issue

def Values.rules (s : Values) : List Rule :=
  [⟨s.maxToolIterations = 0, ascii "max_tool_iterations", ascii "must be greater than 0"⟩,
    ⟨s.maxHistoryMessages = 0, ascii "max_history_messages", ascii "must be greater than 0"⟩,
    ⟨s.monthlyBudgetCents > 100 * 1000000, ascii "monthly_budget_cents",
      ascii "exceeds sanity cap of $1,000,000"⟩,
    ⟨s.gateway.url.length > 0 && !isValidHttpUrl s.gateway.url, ascii "gateway.url",
      ascii "must start with http:// or https://"⟩,
    ⟨s.gateway.url.length > 0 && s.gateway.token.length == 0, ascii "gateway.token",
      ascii "required when gateway.url is set"⟩,
    ⟨s.agent.timeoutSecs = 0, ascii "agent.timeout_secs", ascii "must be greater than 0"⟩,
    ⟨s.agent.maxRetries = 0, ascii "agent.max_retries", ascii "must be greater than 0"⟩]

/-- `if (..) out.appendAssumeCapacity(..);` -/
def IssueList.note {ε : Type} (out : IssueList) (rule : Rule) : Outcome ε IssueList :=
  if rule.broken then out.appendAssumeCapacity rule.issue else .ok out

/-- The issues are appended to `out`, also when there is an error. -/
def validate {ε : Type} (s : Values) (out : IssueList) :
    Outcome ε (IssueList × Except ValidationError Unit) := do
  let out' ← s.rules.foldlM IssueList.note out
  pure (out', if out'.items.length ≠ out.items.length then .error .invalidSettings else .ok ())

/-- The issues of settings. -/
def Values.issues (s : Values) : List Issue := (s.rules.filter Rule.broken).map Rule.issue

def Values.Valid (s : Values) : Prop := s.issues = []

instance (s : Values) : Decidable s.Valid := inferInstanceAs (Decidable (s.issues = []))

theorem foldlM_note {ε : Type} {rules : List Rule} {out : IssueList}
    (hroom : out.items.length + (rules.filter Rule.broken).length ≤ out.capacity) :
    (rules.foldlM IssueList.note out : Outcome ε IssueList) =
      .ok { out with items := out.items ++ (rules.filter Rule.broken).map Rule.issue } := by
  induction rules generalizing out with
  | nil => simp
  | cons rule rules ih =>
    rw [List.foldlM_cons, IssueList.note]
    by_cases hbroken : rule.broken = true
    · rw [List.filter_cons_of_pos hbroken, List.length_cons] at hroom
      have hrest : (out.items ++ [rule.issue]).length + (rules.filter Rule.broken).length ≤
          out.capacity := by
        rw [List.length_append, List.length_singleton]
        omega
      rw [if_pos hbroken, IssueList.appendAssumeCapacity, if_pos (by omega), Outcome.ok_bind,
        ih hrest, List.filter_cons_of_pos hbroken]
      simp
    · rw [List.filter_cons_of_neg hbroken] at hroom ⊢
      rw [if_neg hbroken, Outcome.ok_bind, ih hroom]

/-- With room for the issues, `validate` says whether there are any. -/
theorem validate_eq {ε : Type} {s : Values} {capacity : ℕ} (hroom : s.issues.length ≤ capacity) :
    (validate s { capacity } : Outcome ε _) = .ok ({ items := s.issues, capacity },
      if s.Valid then .ok () else .error .invalidSettings) := by
  rw [Values.issues, List.length_map] at hroom
  rw [validate, foldlM_note (by simpa using hroom), Outcome.ok_bind, Outcome.pure_eq]
  by_cases hvalid : s.Valid
  · rw [if_pos hvalid, if_neg]
    · rfl
    · rw [not_not]
      exact congrArg List.length hvalid
  · rw [if_neg hvalid, if_pos]
    · rfl
    · intro hlength
      exact hvalid (List.eq_nil_of_length_eq_zero hlength)

theorem length_issues_le (s : Values) : s.issues.length ≤ 7 := by
  rw [Values.issues, List.length_map]
  exact List.length_filter_le _ _

/-! ## The layered load -/

/-- `Lookup`: the value of a variable of the environment. -/
abbrev Lookup : Type := Bytes → Option Bytes

inductive LoadError where
  | invalidJson
  | invalidEnvValue
  | invalidSettings

/-- `if (env.get(prefix ++ name)) |v| ..`: the variable, read as a value of the field. -/
def overlay {α : Type} (env : Lookup) (name : String) (read : Bytes → Option α) (old : α) :
    Except LoadError α :=
  match env (ascii "TIGERCLAW_" ++ ascii name) with
  | none => .ok old
  | some v => match read v with
    | some new => .ok new
    | none => .error .invalidEnvValue

/-- `std.fmt.parseInt(u32, v, 10)`. -/
def parseU32 (v : Bytes) : Option UInt32 :=
  ((Digits.parseInt v).filter fun n => decide (0 ≤ n) && decide (n ≤ 2 ^ 32 - 1)).map fun n =>
    UInt32.ofNat n.toNat

/-- `std.fmt.parseInt(u64, v, 10)`. -/
def parseU64 (v : Bytes) : Option UInt64 :=
  ((Digits.parseInt v).filter fun n => decide (0 ≤ n) && decide (n ≤ 2 ^ 64 - 1)).map fun n =>
    UInt64.ofNat n.toNat

/-- `env_overrides.apply`. -/
def applyEnv (s : Values) (env : Lookup) : Except LoadError Values := do
  let logLevel ← overlay env "LOG_LEVEL" LogLevel.ofTag s.logLevel
  let mode ← overlay env "MODE" Mode.ofTag s.mode
  let maxToolIterations ← overlay env "MAX_TOOL_ITERATIONS" parseU32 s.maxToolIterations
  let maxHistoryMessages ← overlay env "MAX_HISTORY_MESSAGES" parseU32 s.maxHistoryMessages
  let monthlyBudgetCents ← overlay env "MONTHLY_BUDGET_CENTS" parseU64 s.monthlyBudgetCents
  let url ← overlay env "GATEWAY_URL" some s.gateway.url
  let token ← overlay env "GATEWAY_TOKEN" some s.gateway.token
  let name ← overlay env "PROVIDER" some s.provider.name
  let model ← overlay env "MODEL" some s.provider.model
  let timeoutSecs ← overlay env "AGENT_TIMEOUT_SECS" parseU32 s.agent.timeoutSecs
  let maxRetries ← overlay env "AGENT_MAX_RETRIES" parseU32 s.agent.maxRetries
  .ok { logLevel, mode, maxToolIterations, maxHistoryMessages, monthlyBudgetCents
        gateway := { url, token }, provider := { name, model }
        agent := { timeoutSecs, maxRetries } }

/-- The answer of the allocator to `ensureTotalCapacity(n)`: the capacity, or out of memory. -/
structure Room (n : ℕ) where
  capacity : Option ℕ
  enough : ∀ c, capacity = some c → n ≤ c

/-- The capacity that was asked for is enough. -/
theorem Room.enough_some (n : ℕ) : ∀ c, some n = some c → n ≤ c :=
  fun _ h => Nat.le_of_eq (Option.some.inj h)

section

variable (floatInt : Bytes → Option ℤ)

/-- `loader.loadFromBytes`. -/
def loadFromBytes (bytes : Bytes) (env : Lookup) (room : Room 8) : Outcome LoadError Values :=
  match Values.parse floatInt (if bytes.length = 0 then ascii "\x7b\x7d" else bytes) with
  | none => .error .invalidJson
  | some parsed =>
    match applyEnv parsed env with
    | .error e => .error e
    | .ok s =>
      match room.capacity with
      | none => .error .invalidSettings
      | some capacity => do
        match (← validate s { capacity }).2 with
        | .error .invalidSettings => .error .invalidSettings
        | .ok () => .ok s

/-! ## Setup -/

inductive SetupError where
  | invalidConfig
  | outOfMemory

/-- `loadExisting`: the settings of the file, or else the defaults. -/
def loadExisting (file : Option Bytes) : Values :=
  ((file.map fun bytes => bytes.take (128 * 1024)).bind (Values.parse floatInt)).getD {}

/-- `setup.run`, from a resolved path to the file that is written; `sections` are the answers that
the user gives when shown the existing settings. -/
def setup (file : Option Bytes) (sections : Values → Values) (room : Room 16) :
    Outcome SetupError Bytes :=
  let settings := sections (loadExisting floatInt file)
  match room.capacity with
  | none => .error .outOfMemory
  | some capacity => do
    match (← validate settings { capacity }).2 with
    | .error .invalidSettings => .error .invalidConfig
    | .ok () => .ok settings.text

inductive Reason where
  | noConfigFile
  | noGatewayOrProvider

inductive Status where
  | ready
  | setupRequired (reason : Reason)

/-- `setup_gate.check`, from the bytes of the file. -/
def gate (file : Option Bytes) : Status :=
  match (file.map fun bytes => bytes.take (128 * 1024)).bind (Values.parse floatInt) with
  | none => .setupRequired .noConfigFile
  | some s =>
    if s.gateway.url.length > 0 ∨ s.provider.name.length > 0 then .ready
    else .setupRequired .noGatewayOrProvider

end

variable {floatInt : Bytes → Option ℤ}

theorem applyEnv_unset (s : Values) : applyEnv s (fun _ => none) = .ok s := rfl

theorem Values.text_ne_nil (s : Values) : s.text ≠ [] := by
  intro hnil
  have h := @Values.parse_text (fun _ => none) s
  rw [hnil] at h
  cases h

/-- Setup writes the text of valid settings, or nothing. -/
theorem setup_eq_ok {file : Option Bytes} {sections : Values → Values} {room : Room 16}
    {text : Bytes} (h : setup floatInt file sections room = .ok text) :
    ∃ s : Values, s = sections (loadExisting floatInt file) ∧ s.Valid ∧ text = s.text := by
  rw [setup] at h
  cases hroom : room.capacity with
  | none =>
    rw [hroom] at h
    cases h
  | some capacity =>
    have henough := room.enough capacity hroom
    have hle := length_issues_le (sections (loadExisting floatInt file))
    rw [hroom] at h
    simp only [validate_eq (Nat.le_trans hle (Nat.le_trans (by omega) henough)),
      Outcome.ok_bind] at h
    by_cases hvalid : (sections (loadExisting floatInt file)).Valid
    · rw [if_pos hvalid] at h
      exact ⟨_, rfl, hvalid, (Outcome.ok.inj h).symm⟩
    · rw [if_neg hvalid] at h
      cases h

theorem loadFromBytes_text {s : Values} (hvalid : s.Valid) {room : Room 8} {capacity : ℕ}
    (hroom : room.capacity = some capacity) :
    loadFromBytes floatInt s.text (fun _ => none) room = .ok s := by
  have henough := room.enough capacity hroom
  have hle : s.issues.length ≤ capacity :=
    Nat.le_trans (length_issues_le s) (Nat.le_trans (by omega) henough)
  rw [loadFromBytes, if_neg fun h => s.text_ne_nil (List.eq_nil_of_length_eq_zero h),
    s.parse_text]
  simp only [applyEnv_unset, hroom, validate_eq hle, Outcome.ok_bind, if_pos hvalid]

/-- **What setup has written is what is found**: the gateway loads these settings.  Setup starts
from them the next time, and the terminal interface opens exactly if they name a gateway or a
provider, unless the file is longer than what these two read of it, and then there are none. -/
theorem load_setup {file : Option Bytes} {sections : Values → Values} {room : Room 16}
    {text : Bytes} (h : setup floatInt file sections room = .ok text) :
    ∃ s : Values, s = sections (loadExisting floatInt file) ∧ s.Valid ∧
      (∀ room : Room 8, room.capacity ≠ none →
        loadFromBytes floatInt text (fun _ => none) room = .ok s) ∧
      (text.length ≤ 128 * 1024 → loadExisting floatInt (some text) = s ∧
        (gate floatInt (some text) = .ready ↔
          0 < s.gateway.url.length ∨ 0 < s.provider.name.length)) ∧
      (128 * 1024 < text.length → loadExisting floatInt (some text) = {} ∧
        gate floatInt (some text) = .setupRequired .noConfigFile) := by
  obtain ⟨s, hs, hvalid, rfl⟩ := setup_eq_ok h
  refine ⟨s, hs, hvalid, fun room hroom => ?_, fun hlength => ?_, fun hlength => ?_⟩
  · obtain ⟨capacity, hcapacity⟩ := Option.ne_none_iff_exists'.mp hroom
    exact loadFromBytes_text hvalid hcapacity
  · have hread : ((some s.text).map fun bytes => bytes.take (128 * 1024)).bind
        (Values.parse floatInt) = some s := by
      rw [Option.map_some, List.take_of_length_le hlength, Option.bind_some, s.parse_text]
    refine ⟨by rw [loadExisting, hread]; rfl, ?_⟩
    simp only [gate, hread]
    by_cases hnamed : s.gateway.url.length > 0 ∨ s.provider.name.length > 0
    · rw [if_pos hnamed]
      exact iff_of_true rfl hnamed
    · rw [if_neg hnamed]
      exact iff_of_false nofun hnamed
  · have hread : ((some s.text).map fun bytes => bytes.take (128 * 1024)).bind
        (Values.parse floatInt) = none := by
      rw [Option.map_some, Option.bind_some, s.parse_take_text hlength]
    refine ⟨by rw [loadExisting, hread]; rfl, ?_⟩
    simp only [gate, hread]

theorem load_setup_first :
    let s : Values := { gateway := { url := ascii "http://box", token := ascii "t" } }
    loadFromBytes (fun _ => none) s.text (fun _ => none) ⟨some 8, Room.enough_some 8⟩ = .ok s ∧
      (s.text.length ≤ 128 * 1024 → gate (fun _ => none) (some s.text) = .ready) := by
  obtain ⟨s, rfl, -, hload, hread⟩ := @load_setup (fun _ => none) none
    (fun s => { s with gateway := { url := ascii "http://box", token := ascii "t" } })
    ⟨some 16, Room.enough_some 16⟩ _ rfl
  exact ⟨hload ⟨some 8, Room.enough_some 8⟩ (by simp),
    fun hlength => (hread.1 hlength).2.mpr (by decide)⟩

/-! ## Changes -/

/-- A change of one field. -/
inductive Patch where
  | logLevel (v : LogLevel)
  | mode (v : Mode)
  | maxToolIterations (v : UInt32)
  | maxHistoryMessages (v : UInt32)
  | monthlyBudgetCents (v : UInt64)
  | gatewayUrl (v : Bytes)
  | gatewayToken (v : Bytes)
  | providerName (v : Bytes)
  | providerModel (v : Bytes)
  | agentTimeoutSecs (v : UInt32)
  | agentMaxRetries (v : UInt32)

/-- `next`, with the field of the patch. -/
def Patch.next (patch : Patch) (s : Values) : Values :=
  match patch with
  | .logLevel v => { s with logLevel := v }
  | .mode v => { s with mode := v }
  | .maxToolIterations v => { s with maxToolIterations := v }
  | .maxHistoryMessages v => { s with maxHistoryMessages := v }
  | .monthlyBudgetCents v => { s with monthlyBudgetCents := v }
  | .gatewayUrl v => { s with gateway := { s.gateway with url := v } }
  | .gatewayToken v => { s with gateway := { s.gateway with token := v } }
  | .providerName v => { s with provider := { s.provider with name := v } }
  | .providerModel v => { s with provider := { s.provider with model := v } }
  | .agentTimeoutSecs v => { s with agent := { s.agent with timeoutSecs := v } }
  | .agentMaxRetries v => { s with agent := { s.agent with maxRetries := v } }

structure Cache where
  current : Values := {}
  /-- A `u64`. -/
  generation : ℕ := 0

def Cache.install {ε : Type} (self : Cache) (next : Values) : Outcome ε Cache :=
  if self.generation + 1 < 2 ^ 64 then .ok { current := next, generation := self.generation + 1 }
  else .trap .overflow

/-- `apply_change.apply`, which makes room for four issues. -/
def apply (c : Cache) (patch : Patch) (room : Room 4) : Outcome ValidationError Cache :=
  match room.capacity with
  | none => .error .invalidSettings
  | some capacity => do
    match (← validate (patch.next c.current) { capacity }).2 with
    | .error e => .error e
    | .ok () => c.install (patch.next c.current)

/-- One call; a refused patch leaves the cache as it was. -/
def Cache.step (c : Cache) (call : Patch × Room 4) : Option Cache :=
  match apply c call.1 call.2 with
  | .ok c' => some c'
  | .error _ => some c
  | .trap _ => none

/-- The settings that a list of calls installs, one after the other. -/
def installs : Values → List (Patch × Room 4) → List Values
  | _, [] => []
  | s, (patch, room) :: calls =>
    if room.capacity ≠ none ∧ (patch.next s).Valid then
      patch.next s :: installs (patch.next s) calls
    else installs s calls

theorem Values.Valid.filter_rules {s : Values} (h : s.Valid) : s.rules.filter Rule.broken = [] :=
  List.map_eq_nil_iff.mp h

/-- Settings whose rules are those of valid settings but for `n` in a row break `n` at most. -/
theorem length_issues_le_of_agree {s t : Values} (h : s.Valid) (k n : ℕ)
    (hbefore : t.rules.take k = s.rules.take k)
    (hbehind : (t.rules.drop k).drop n = (s.rules.drop k).drop n) : t.issues.length ≤ n := by
  have hnil := h.filter_rules
  rw [← List.take_append_drop k s.rules, ← List.take_append_drop n (s.rules.drop k),
    List.filter_append, List.filter_append, List.append_eq_nil_iff, List.append_eq_nil_iff] at hnil
  obtain ⟨hbefore', -, hbehind'⟩ := hnil
  rw [Values.issues, List.length_map, ← List.take_append_drop k t.rules,
    ← List.take_append_drop n (t.rules.drop k), List.filter_append, List.filter_append, hbefore,
    hbehind, hbefore', hbehind', List.nil_append, List.append_nil]
  exact Nat.le_trans (List.length_filter_le _ _) (List.length_take_le _ _)

/-- A change of one field of valid settings breaks two rules at most. -/
theorem length_issues_next_le {s : Values} (h : s.Valid) (patch : Patch) :
    (patch.next s).issues.length ≤ 2 := by
  cases patch with
  | logLevel | mode | providerName | providerModel | maxToolIterations =>
    exact length_issues_le_of_agree h 0 2 rfl rfl
  | maxHistoryMessages => exact length_issues_le_of_agree h 1 2 rfl rfl
  | monthlyBudgetCents => exact length_issues_le_of_agree h 2 2 rfl rfl
  -- a url without a token breaks two
  | gatewayUrl => exact length_issues_le_of_agree h 3 2 rfl rfl
  | gatewayToken => exact length_issues_le_of_agree h 4 2 rfl rfl
  | agentTimeoutSecs => exact length_issues_le_of_agree h 5 2 rfl rfl
  | agentMaxRetries => exact length_issues_le_of_agree h 6 2 rfl rfl

/-- What one call does to a cache of valid settings. -/
theorem Cache.step_eq {c : Cache} (h : c.current.Valid) (hgen : c.generation + 1 < 2 ^ 64)
    (call : Patch × Room 4) :
    c.step call = some (if call.2.capacity ≠ none ∧ (call.1.next c.current).Valid then
      { current := call.1.next c.current, generation := c.generation + 1 } else c) := by
  obtain ⟨patch, room⟩ := call
  rw [step, apply]
  cases hroom : room.capacity with
  | none => simp
  | some capacity =>
    have hle : (patch.next c.current).issues.length ≤ capacity :=
      Nat.le_trans (length_issues_next_le h patch)
        (Nat.le_trans (by omega) (room.enough capacity hroom))
    simp only [validate_eq hle, Outcome.ok_bind]
    by_cases hvalid : (patch.next c.current).Valid
    · rw [if_pos hvalid, if_pos ⟨nofun, hvalid⟩]
      simp only [install, if_pos hgen]
    · rw [if_neg hvalid, if_neg fun h => hvalid h.2]

theorem Cache.run_eq {c : Cache} (h : c.current.Valid) (calls : List (Patch × Room 4))
    (hgen : c.generation + calls.length < 2 ^ 64) :
    StepMachine.run step c calls = some { current := (installs c.current calls).getLastD c.current
                                          generation := c.generation +
                                            (installs c.current calls).length } ∧
      ∀ s ∈ installs c.current calls, s.Valid := by
  induction calls generalizing c with
  | nil => exact ⟨rfl, by simp [installs]⟩
  | cons call calls ih =>
    obtain ⟨patch, room⟩ := call
    rw [List.length_cons] at hgen
    rw [StepMachine.run_cons, step_eq h (by omega), Option.bind_some, installs]
    by_cases hok : room.capacity ≠ none ∧ (patch.next c.current).Valid
    · rw [if_pos hok, if_pos hok]
      obtain ⟨hrun, hall⟩ := ih (c := { current := patch.next c.current
                                        generation := c.generation + 1 }) hok.2 (by
        show c.generation + 1 + calls.length < 2 ^ 64
        omega)
      refine ⟨?_, List.forall_mem_cons.mpr ⟨hok.2, hall⟩⟩
      rw [hrun, List.getLastD_cons, List.length_cons, Nat.add_assoc,
        Nat.add_comm 1 (installs _ calls).length]
    · rw [if_neg hok, if_neg hok]
      exact ih h (by omega)

/-- **The cached settings are always valid.**  Whatever patches are applied, and however often
memory runs out, no call trips a check; what is cached are the last settings that were accepted, all
of which are valid, and the generation counts them. -/
theorem cache_run (calls : List (Patch × Room 4)) (hcalls : calls.length < 2 ^ 64) :
    StepMachine.run Cache.step {} calls = some
        { current := (installs {} calls).getLastD {}, generation := (installs {} calls).length } ∧
      (∀ s ∈ installs {} calls, s.Valid) ∧ ((installs {} calls).getLastD {}).Valid := by
  have hdefault : (({} : Cache).current).Valid := by decide
  obtain ⟨hrun, hall⟩ := Cache.run_eq hdefault calls (by rw [Nat.zero_add]; exact hcalls)
  refine ⟨by rw [hrun, Nat.zero_add], hall, ?_⟩
  rcases List.mem_cons.mp (List.getLastD_mem_cons (l := installs {} calls)) with hlast | hlast
  · rw [hlast]
    exact hdefault
  · exact hall _ hlast

theorem cache_run_url :
    let room : Room 4 := ⟨some 4, Room.enough_some 4⟩
    StepMachine.run Cache.step {} [(.gatewayUrl (ascii "http://box"), room),
      (.gatewayToken (ascii "t"), room), (.gatewayUrl (ascii "http://box"), room)] =
        some ⟨{ gateway := { url := ascii "http://box", token := ascii "t" } }, 2⟩ :=
  (cache_run _ (by decide)).1

end Settings
end TigerClaw
