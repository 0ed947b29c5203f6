import PiCloud.Lib.Record

/-!
# Runtime.SessionLogEnvelope

The compact records of the Session log, `session-log-envelope.ts`: what a writer sends for a fact
and how a reader expands it again. A record is the value of its JSON text.

* `SessionLogFact`: the facts. A native commit and a path probe with an execution are written in a
  compact form; every other fact is its own record.
* `encodeSessionLogFact`, `expandSessionLogEnvelope`: the two directions.
* `Limits`: the bounds that the reader puts on identities, epochs and reply topics.

A field that only the domain checks look at is a `Field`, what the object holds under that name.
-/

namespace PiCloud
namespace Runtime
namespace SessionLog

open Lib

structure AcceptedFactScope where
  tenantId : JsString
  sessionId : JsString
  runId : JsString
  turnId : JsString
  fencingToken : Rat
  piSessionId : JsString
  writerId : JsString
deriving DecidableEq

/-! ## Facts -/

/-- The request of a Cube dispatch, less its two protocol constants. -/
structure CubeRequest where
  members : Members
  lacksType : members.has "type" = false
  lacksVersion : members.has "toolBrokerProtocolVersion" = false

structure CubeToolDispatch where
  taskId : Field
  request : CubeRequest
  occurredAt : Field
  traceContext : Field := none

structure ControlToolDispatch where
  operationId : Field
  taskId : Field
  conversationId : Field
  toolName : Field
  contextAnchor : Field
  bindingId : Field := none
  sourceDocumentId : Field := none
  recovery : Field := none
  replyMode : Field := none
  workflowKey : Field := none

structure ExecutorToolDispatch where
  operationId : Field
  bindingId : Field
  taskId : Field
  conversationId : Field
  toolName : Field

inductive ToolDescriptor where
  | cube (dispatch : CubeToolDispatch)
  | control (dispatch : ControlToolDispatch)
  | executor (dispatch : ExecutorToolDispatch)

structure DurableToolDispatch where
  descriptor : ToolDescriptor
  scope : AcceptedFactScope
  replyTopic : Option JsString

structure AcceptedToolCancellation where
  scope : AcceptedFactScope
  activationId : Field
  operationId : Field
  /-- `target: "executor"` -/
  executor : Bool := false

structure DisplayEvent where
  schemaVersion : Rat := 1
  sessionId : JsString
  turnId : JsString
  metadata : Members
  lacksVersion : metadata.has "schemaVersion" = false
  lacksSession : metadata.has "sessionId" = false
  lacksTurn : metadata.has "turnId" = false

structure DurableDisplayDescription where
  event : DisplayEvent
  members : Members
  lacksEvent : members.has "event" = false

structure Display where
  scope : AcceptedFactScope
  events : List DurableDisplayDescription
  coveredThrough : Field := none

structure AcceptedDurableCommitFact where
  factId : Field
  scope : AcceptedFactScope
  commit : Field
  origins : Field
  inputQueueSessions : Field := none
  tools : List DurableToolDispatch
  cancellations : List AcceptedToolCancellation
  display : List Display
  occurredAt : Field

structure ProbeBinding where
  bindingId : Field
  scope : AcceptedFactScope
  probe : Field

def probeNames : List String := ["kind", "scope", "execution", "closesWriter", "retireWriter"]

/-- A path probe that names an execution. -/
structure PathProbe where
  members : Members
  scope : AcceptedFactScope
  execution : Members
  bindings : List ProbeBinding
  lacksOwn : ∀ name ∈ probeNames, members.has name = false
  lacksBindings : execution.has "bindings" = false

def isKind (value : Members) (kind : String) : Bool := isText (value.get "kind") kind

def isObsolete (value : Members) : Bool :=
  value.has "closesWriter" || value.has "retireWriter" || isKind value "tool_cancel" ||
    isKind value "tool_command"

def isProbe (value : Members) : Bool := isKind value "path_probe" && truthy (value.get "execution")

def isPlain (value : Members) : Bool :=
  !isObsolete value && !isKind value "durable_commit" && !isProbe value

/-- `plain` has the other kinds: `agent_event`, `work_finished`, `runtime_keepalive`,
`execution_seal`, `control_change`, and a path probe without an execution. -/
inductive SessionLogFact where
  | durableCommit (fact : AcceptedDurableCommitFact)
  | pathProbe (fact : PathProbe)
  | plain (fact : { value : Members // isPlain value = true })

/-! ## The writer -/

def AcceptedFactScope.fields (s : AcceptedFactScope) : List (String × Field) :=
  [("tenantId", some (.str s.tenantId)), ("sessionId", some (.str s.sessionId)),
    ("runId", some (.str s.runId)), ("turnId", some (.str s.turnId)),
    ("fencingToken", some (.num s.fencingToken)), ("piSessionId", some (.str s.piSessionId)),
    ("writerId", some (.str s.writerId))]

def AcceptedFactScope.viewFields (s : AcceptedFactScope) : List (String × Field) :=
  [("sessionId", some (.str s.sessionId)), ("turnId", some (.str s.turnId))]

def AcceptedFactScope.owner (s : AcceptedFactScope) :
    JsString × JsString × JsString × JsString × Rat :=
  (s.tenantId, s.piSessionId, s.runId, s.writerId, s.fencingToken)

def view (scope root : AcceptedFactScope) : Except String Json :=
  if scope.owner = root.owner then .ok (.obj (record scope.viewFields))
  else .error "Nested publication owner changed"

def CubeToolDispatch.fields (t : CubeToolDispatch) : List (String × Field) :=
  [("target", some (.str (ascii "cube"))), ("taskId", t.taskId),
    ("request", some (.obj t.request.members)), ("occurredAt", t.occurredAt),
    ("traceContext", t.traceContext)]

def ControlToolDispatch.fields (t : ControlToolDispatch) : List (String × Field) :=
  [("target", some (.str (ascii "control"))), ("operationId", t.operationId),
    ("taskId", t.taskId), ("conversationId", t.conversationId), ("toolName", t.toolName),
    ("contextAnchor", t.contextAnchor), ("bindingId", t.bindingId),
    ("sourceDocumentId", t.sourceDocumentId), ("recovery", t.recovery),
    ("replyMode", t.replyMode), ("workflowKey", t.workflowKey)]

def ExecutorToolDispatch.fields (t : ExecutorToolDispatch) : List (String × Field) :=
  [("target", some (.str (ascii "executor"))), ("operationId", t.operationId),
    ("bindingId", t.bindingId), ("taskId", t.taskId), ("conversationId", t.conversationId),
    ("toolName", t.toolName)]

def ToolDescriptor.fields : ToolDescriptor → List (String × Field)
  | .cube t => t.fields
  | .control t => t.fields
  | .executor t => t.fields

def encodeTool (root : AcceptedFactScope) (tool : DurableToolDispatch) : Except String Json := do
  let address ← view tool.scope root
  return .obj (record (("view", some address) :: tool.descriptor.fields))

def AcceptedToolCancellation.fields (cancel : AcceptedToolCancellation) (address : Json) :
    List (String × Field) :=
  [("view", some address), ("activationId", cancel.activationId),
    ("operationId", cancel.operationId),
    ("target", if cancel.executor then some (.str (ascii "executor")) else none)]

def encodeCancellation (root : AcceptedFactScope) (cancel : AcceptedToolCancellation) :
    Except String Json := do
  let address ← view cancel.scope root
  return .obj (record (cancel.fields address))

def compactEvent (address : AcceptedFactScope) (description : DurableDisplayDescription) :
    Except String Json :=
  let event := description.event
  if event.sessionId ≠ address.sessionId ∨ event.turnId ≠ address.turnId ∨
      event.schemaVersion ≠ 1 then
    .error "Display event belongs to another Conversation view"
  else .ok (.obj (description.members ++ [(ascii "event", Json.obj event.metadata)]))

def Display.fields (display : Display) (address : Json) (events : List Json) :
    List (String × Field) :=
  [("view", some address), ("events", some (.arr events)),
    ("coveredThrough", display.coveredThrough)]

def encodeDisplay (root : AcceptedFactScope) (display : Display) : Except String Json := do
  let address ← view display.scope root
  let events ← display.events.mapM (compactEvent display.scope)
  return .obj (record (display.fields address events))

/-- The one reply topic of a commit's tools. -/
def sharedReplyTopic (tools : List DurableToolDispatch) : Except String (Option JsString) :=
  let replyTopic := tools.head?.bind (·.replyTopic)
  if tools.any (fun tool => tool.replyTopic ≠ replyTopic) ||
      (tools ≠ [] && (replyTopic = none || replyTopic = some [])) then
    .error "One native commit must use its original Worker reply Topic"
  else .ok replyTopic

def AcceptedDurableCommitFact.fields (fact : AcceptedDurableCommitFact)
    (replyTopic : Option JsString) (tools cancellations display : List Json) :
    List (String × Field) :=
  [("kind", some (.str (ascii "durable_commit"))), ("factId", fact.factId),
    ("scope", some (.obj (record fact.scope.fields))), ("commit", fact.commit),
    ("origins", fact.origins), ("inputQueueSessions", fact.inputQueueSessions),
    ("occurredAt", fact.occurredAt), ("replyTopic", replyTopic.map .str),
    ("tools", some (.arr tools)), ("cancellations", some (.arr cancellations)),
    ("display", some (.arr display))]

def encodeCommit (fact : AcceptedDurableCommitFact) : Except String Json := do
  let replyTopic ← sharedReplyTopic fact.tools
  let tools ← fact.tools.mapM (encodeTool fact.scope)
  let cancellations ← fact.cancellations.mapM (encodeCancellation fact.scope)
  let display ← fact.display.mapM (encodeDisplay fact.scope)
  return .obj (record (fact.fields replyTopic tools cancellations display))

def ProbeBinding.fields (binding : ProbeBinding) (address : Json) : List (String × Field) :=
  [("bindingId", binding.bindingId), ("probe", binding.probe), ("view", some address)]

def encodeBinding (root : AcceptedFactScope) (binding : ProbeBinding) : Except String Json := do
  let address ← view binding.scope root
  return .obj (record (binding.fields address))

def PathProbe.fields (fact : PathProbe) (bindings : List Json) : List (String × Field) :=
  [("kind", some (.str (ascii "path_probe"))), ("scope", some (.obj (record fact.scope.fields))),
    ("execution", some (.obj (fact.execution ++ [(ascii "bindings", Json.arr bindings)])))]

def encodeProbe (fact : PathProbe) : Except String Json := do
  let bindings ← fact.bindings.mapM (encodeBinding fact.scope)
  return .obj (fact.members ++ record (fact.fields bindings))

def encodeSessionLogFact : SessionLogFact → Except String Json
  | .durableCommit fact => encodeCommit fact
  | .pathProbe fact => encodeProbe fact
  | .plain fact => .ok (.obj fact.val)

/-! ## The reader -/

structure Limits where
  id : JsString → Bool
  epoch : Rat → Bool
  topic : JsString → Bool

def wireLimits : Limits where
  id s := s ≠ [] && s.length ≤ 512
  epoch q := safeInteger 1 (some (.num q))
  topic s := s ≠ [] && s.length ≤ 249

def object : Field → Except String Members
  | some (.obj m) => .ok m
  | _ => .error "Invalid Session log envelope object"

def list : Field → Except String (List Json)
  | some (.arr items) => .ok items
  | _ => .error "Invalid Session log envelope list"

def keys (value : Members) (allowed : List String) : Except String Unit :=
  if value.onlyKeys allowed then .ok () else .error "Unexpected Session log envelope field"

def boundedId (l : Limits) (message : String) : Field → Except String JsString
  | some (.str s) => if l.id s then .ok s else .error message
  | _ => .error message

def boundedEpoch (l : Limits) : Field → Except String Rat
  | some (.num q) => if l.epoch q then .ok q else .error "Invalid publication epoch"
  | _ => .error "Invalid publication epoch"

def scope (l : Limits) (root : AcceptedFactScope) (value : Field) :
    Except String AcceptedFactScope := do
  let address ← object value
  keys address ["sessionId", "turnId"]
  let sessionId ← boundedId l "Invalid Conversation view address" (address.get "sessionId")
  let turnId ← boundedId l "Invalid Conversation view address" (address.get "turnId")
  return { root with sessionId, turnId }

def rootScope (l : Limits) (value : Field) : Except String AcceptedFactScope := do
  let root ← object value
  keys root ["tenantId", "piSessionId", "runId", "writerId", "fencingToken", "sessionId", "turnId"]
  let tenantId ← boundedId l "Invalid publication identity" (root.get "tenantId")
  let piSessionId ← boundedId l "Invalid publication identity" (root.get "piSessionId")
  let runId ← boundedId l "Invalid publication identity" (root.get "runId")
  let writerId ← boundedId l "Invalid publication identity" (root.get "writerId")
  let sessionId ← boundedId l "Invalid publication identity" (root.get "sessionId")
  let turnId ← boundedId l "Invalid publication identity" (root.get "turnId")
  let fencingToken ← boundedEpoch l (root.get "fencingToken")
  return { tenantId, sessionId, runId, turnId, fencingToken, piSessionId, writerId }

def expandRequest (value : Field) : Except String CubeRequest := do
  let request ← object value
  if h : request.has "type" = false ∧ request.has "toolBrokerProtocolVersion" = false then
    return ⟨request, h.1, h.2⟩
  else throw "Cube dispatch duplicates protocol constants"

def expandTool (l : Limits) (root : AcceptedFactScope) (replyTopic : Option JsString)
    (item : Json) : Except String DurableToolDispatch := do
  let tool ← object (some item)
  if isText (tool.get "target") "executor" then
    keys tool ["target", "operationId", "bindingId", "taskId", "conversationId", "toolName", "view"]
    let scope ← scope l root (tool.get "view")
    return {
      descriptor := .executor {
        operationId := tool.get "operationId", bindingId := tool.get "bindingId"
        taskId := tool.get "taskId", conversationId := tool.get "conversationId"
        toolName := tool.get "toolName" }
      scope, replyTopic }
  else if isText (tool.get "target") "control" then
    keys tool ["target", "operationId", "taskId", "conversationId", "toolName", "contextAnchor",
      "bindingId", "sourceDocumentId", "recovery", "replyMode", "workflowKey", "view"]
    let scope ← scope l root (tool.get "view")
    return {
      descriptor := .control {
        operationId := tool.get "operationId", taskId := tool.get "taskId"
        conversationId := tool.get "conversationId", toolName := tool.get "toolName"
        contextAnchor := tool.get "contextAnchor", bindingId := tool.get "bindingId"
        sourceDocumentId := tool.get "sourceDocumentId", recovery := tool.get "recovery"
        replyMode := tool.get "replyMode", workflowKey := tool.get "workflowKey" }
      scope, replyTopic }
  else if isText (tool.get "target") "cube" then
    keys tool ["target", "taskId", "request", "occurredAt", "traceContext", "view"]
    let request ← expandRequest (tool.get "request")
    let scope ← scope l root (tool.get "view")
    return {
      descriptor := .cube {
        taskId := tool.get "taskId", request, occurredAt := tool.get "occurredAt"
        traceContext := tool.get "traceContext" }
      scope, replyTopic }
  else throw "Unknown Tool dispatch target"

/-- `target`, where it is set, is `"executor"` or fails the schema of a cancellation. -/
def expandTarget (target : Field) : Except String Bool :=
  if !truthy target then .ok false
  else if isText target "executor" then .ok true
  else .error "Invalid Tool cancellation"

def expandCancellation (l : Limits) (root : AcceptedFactScope) (item : Json) :
    Except String AcceptedToolCancellation := do
  let cancel ← object (some item)
  keys cancel ["view", "activationId", "operationId", "target"]
  let scope ← scope l root (cancel.get "view")
  let executor ← expandTarget (cancel.get "target")
  return {
    scope, activationId := cancel.get "activationId", operationId := cancel.get "operationId"
    executor }

def expandEvent (address : AcceptedFactScope) (description : Json) :
    Except String DurableDisplayDescription := do
  let value ← object (some description)
  let event ← object (value.get "event")
  if h : event.has "schemaVersion" = false ∧ event.has "sessionId" = false ∧
      event.has "turnId" = false then
    return {
      event := {
        schemaVersion := 1, sessionId := address.sessionId, turnId := address.turnId
        metadata := event, lacksVersion := h.1, lacksSession := h.2.1, lacksTurn := h.2.2 }
      members := value.without ["event"]
      lacksEvent := Members.without_lacks List.mem_cons_self }
  else throw "Display envelope duplicates its Conversation view"

def expandDisplay (l : Limits) (root : AcceptedFactScope) (item : Json) :
    Except String Display := do
  let display ← object (some item)
  keys display ["view", "events", "coveredThrough"]
  let target ← scope l root (display.get "view")
  let texts ← list (display.get "events")
  let events ← texts.mapM (expandEvent target)
  return { scope := target, events, coveredThrough := display.get "coveredThrough" }

/-- The reply topic of a record: there with tools only. -/
def commitReplyTopic (l : Limits) (tools : List Json) (replyTopic : Field) :
    Except String (Option JsString) :=
  match tools, replyTopic with
  | [], none => .ok none
  | _ :: _, some (.str topic) =>
    if l.topic topic then .ok (some topic) else .error "Invalid original Worker reply Topic"
  | _, _ => .error "Invalid original Worker reply Topic"

def expandCommit (l : Limits) (value : Members) : Except String AcceptedDurableCommitFact := do
  keys value ["kind", "factId", "scope", "commit", "origins", "inputQueueSessions", "tools",
    "cancellations", "display", "occurredAt", "replyTopic"]
  let root ← rootScope l (value.get "scope")
  let items ← list (value.get "tools")
  let replyTopic ← commitReplyTopic l items (value.get "replyTopic")
  let tools ← items.mapM (expandTool l root replyTopic)
  let cancels ← list (value.get "cancellations")
  let cancellations ← cancels.mapM (expandCancellation l root)
  let views ← list (value.get "display")
  let display ← views.mapM (expandDisplay l root)
  return {
    factId := value.get "factId", scope := root, commit := value.get "commit"
    origins := value.get "origins", inputQueueSessions := value.get "inputQueueSessions"
    tools, cancellations, display, occurredAt := value.get "occurredAt" }

def expandBinding (l : Limits) (root : AcceptedFactScope) (item : Json) :
    Except String ProbeBinding := do
  let binding ← object (some item)
  keys binding ["bindingId", "probe", "view"]
  let scope ← scope l root (binding.get "view")
  return { bindingId := binding.get "bindingId", scope, probe := binding.get "probe" }

theorem probe_lacks {value : Members} (h : isObsolete value = false) :
    ∀ name ∈ probeNames, (value.without ["kind", "scope", "execution"]).has name = false := by
  simp only [isObsolete, Bool.or_eq_false_iff] at h
  intro name hname
  simp only [probeNames, List.mem_cons, List.not_mem_nil, or_false] at hname
  rcases hname with rfl | rfl | rfl | rfl | rfl
  · exact Members.without_lacks (by simp)
  · exact Members.without_lacks (by simp)
  · exact Members.without_lacks (by simp)
  · exact Members.has_without_le h.1.1.1
  · exact Members.has_without_le h.1.1.2

def expandProbe (l : Limits) (value : Members) (h : isObsolete value = false) :
    Except String PathProbe := do
  let execution ← object (value.get "execution")
  let root ← rootScope l (value.get "scope")
  let items ← list (execution.get "bindings")
  let bindings ← items.mapM (expandBinding l root)
  return {
    members := value.without ["kind", "scope", "execution"], scope := root
    execution := execution.without ["bindings"], bindings, lacksOwn := probe_lacks h
    lacksBindings := Members.without_lacks List.mem_cons_self }

def expandSessionLogEnvelope (l : Limits) (input : Json) : Except String SessionLogFact := do
  let value ← object (some input)
  if h : isObsolete value = false then
    if isKind value "durable_commit" then
      return .durableCommit (← expandCommit l value)
    else if hplain : isPlain value = true then
      return .plain ⟨value, hplain⟩
    else
      return .pathProbe (← expandProbe l value h)
  else throw "Obsolete Session log envelope"

end SessionLog
end Runtime
end PiCloud
