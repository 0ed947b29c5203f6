import PiCloud.Runtime.SessionLogEnvelope

/-!
# Runtime.KafkaAcceptedFact

The domain checks on the facts of the Session log, which a writer makes before it publishes and a
reader after it has expanded a record: `kafka-accepted-fact.ts`, `tool-invocation-fact.ts`,
`durable-session.ts`, `durable-display.ts` and `direct-session-kafka.ts`.

* `Checker`: the verdicts of the schema library and of the date parser.
* `prepareAcceptedFact`: the checks of one fact, and the commands that its tools stand for.
* `assertSessionPublication`, `decodeSessionLogFact`: the writer's and the reader's side.
-/

namespace PiCloud
namespace Runtime
namespace SessionLog

open Lib

inductive Schema where
  | piCloudEvent
  | toolSandboxOperationRequest
  | executorToolDispatch
  | acceptedToolCancellation
  | pathProbe
  | runtimeKeepalive
  | sessionControlChange

structure Checker where
  check : Schema → Json → Bool
  dateParses : Field → Bool

def Checker.parse (c : Checker) (schema : Schema) (value : Json) (message : String) :
    Except String Unit :=
  if c.check schema value then .ok () else .error message

/-! ## Native commits -/

def writeKinds : List String :=
  ["conversation", "entry", "task", "submission", "document.create", "document.change",
    "document.retire"]

/-- `item.value?.id ?? item.record?.id ?? item.id` -/
def recordIdentity (item : Members) : Field :=
  let value := at? (item.get "value") "id"
  let record := at? (item.get "record") "id"
  if !nullish value then value else if !nullish record then record else item.get "id"

def checkWrite (item : Json) : Except String Unit :=
  match item with
  | .obj m =>
    if !writeKinds.any (isText (Members.get m "type")) then .error "Invalid native write kind"
    else if !safeInteger 1 (recordIdentity m) then .error "Invalid native record identity"
    else .ok ()
  | _ => .error "Invalid native write kind"

/-- The position after the last id may be one past the safe integers. -/
def isNextId (v : Field) : Bool :=
  match v with
  | some (.num q) => q.den = 1 && 2 ≤ q.num && q.num ≤ maxSafeInteger + 1
  | _ => false

def parseDurableSessionCommit (commit : Field) : Except String (List Json) := do
  match commit with
  | some (.obj _) => pure ()
  | _ => throw "Invalid native commit"
  match at? commit "writes" with
  | some (.arr writes) =>
    if !safeInteger 1 (at? commit "seq") || !isNextId (at? commit "nextId") then
      throw "Invalid native commit position"
    writes.forM checkWrite
    return writes
  | _ => throw "Invalid native commit position"

structure DurableCommitIndex where
  tasks : List (Field × Json) := []
  documents : List (Field × Json) := []

namespace DurableCommitIndex

def find (entries : List (Field × Json)) (id : Field) : Field :=
  (entries.find? fun entry => same entry.1 id).map (·.2)

def task (index : DurableCommitIndex) (id : Field) : Field := find index.tasks id

def document (index : DurableCommitIndex) (id : Field) : Field := find index.documents id

/-- One write; the first write of an identity stands. A value without members has no `id` to read. -/
def add (index : DurableCommitIndex) (write : Json) : Except String DurableCommitIndex :=
  let type := at? (some write) "type"
  let value := at? (some write) "value"
  let record := at? (some write) "record"
  if isText type "task" then
    match value with
    | some task =>
      if nullish value then .error "Cannot read properties of null"
      else .ok { index with tasks := index.tasks ++ [(at? value "id", task)] }
    | none => .error "Cannot read properties of undefined"
  else if isText type "document.create" then
    if nullish record then .error "Cannot read properties of undefined"
    else .ok { index with documents := index.documents ++ [(at? record "id", write)] }
  else .ok index

def ofWrites (writes : List Json) : Except String DurableCommitIndex := writes.foldlM add {}

end DurableCommitIndex

structure ToolIntent where
  callId : JsString
  arguments : Members

def durableToolIntent (index : DurableCommitIndex) (taskId : Field) : Except String ToolIntent :=
  let task := index.task taskId
  let checkpoint := at? (at? task "state") "checkpoint"
  match at? (at? task "input") "callId", at? checkpoint "arguments" with
  | some (.str callId), some (.obj arguments) =>
    if isText (at? task "kind") "pi.tool" && !truthy (at? task "abortRequested") &&
        isText (at? checkpoint "phase") "execute" then
      .ok { callId, arguments }
    else .error "Tool handoff requires its admitted native execution intent"
  | _, _ => .error "Tool handoff requires its admitted native execution intent"

/-- The record of a task's own document, under a kind and a key. -/
def isTaskDocument (record : Field) (kind : String) (key taskId : Field) : Bool :=
  isText (at? record "kind") kind && same (at? record "key") key &&
    isText (at? (at? record "scope") "kind") "task" &&
    same (at? (at? record "scope") "taskId") taskId

def durableControlIntent (index : DurableCommitIndex) (reference : ControlToolDispatch) :
    Except String ToolIntent :=
  if reference.sourceDocumentId = none then durableToolIntent index reference.taskId
  else
    let write := index.document reference.sourceDocumentId
    let content := at? write "content"
    let value := at? content "value"
    match at? value "callId", at? value "arguments" with
    | some (.str callId), some (.obj arguments) =>
      if isTaskDocument (at? write "record") "pi-cloud.tool-hostcall" reference.operationId
            reference.taskId &&
          isText (at? content "kind") "base" &&
          same (at? value "conversationId") reference.conversationId &&
          same (at? value "toolName") reference.toolName then
        .ok { callId, arguments }
      else .error "Control Tool requires its committed native hostcall"
    | _, _ => .error "Control Tool requires its committed native hostcall"

/-- The names of an object are these, in any order. -/
def hasExactly (v : Field) (names : List String) : Bool :=
  match v with
  | some (.obj m) => (m.map (·.1)).isPerm (names.map ascii)
  | _ => false

def below (a b : Field) : Bool :=
  match a, b with
  | some (.num p), some (.num q) => p < q
  | _, _ => false

def durableControlRecovery (index : DurableCommitIndex) (commit : Field)
    (reference : ControlToolDispatch) : Except String Unit :=
  let recovery := reference.recovery
  let write := index.document (at? recovery "documentId")
  let content := at? write "content"
  let value := at? content "value"
  if truthy recovery && below (at? recovery "sequence") (at? commit "seq") &&
      isTaskDocument (at? write "record") "pi-cloud.tool-recovery" reference.operationId
        reference.taskId &&
      isText (at? content "kind") "base" && truthy value &&
      same (at? value "sequence") (at? recovery "sequence") &&
      same (at? value "operationId") (at? recovery "operationId") &&
      hasExactly value ["operationId", "sequence"] then
    .ok ()
  else .error "Control recovery requires its committed native reference"

/-! ## Tool dispatches -/

/-- `/^[a-z][a-z0-9_-]{0,63}$/` -/
def isControlDispatchToolName (v : Field) : Bool :=
  match v with
  | some (.str (u :: rest)) =>
    isLower u && rest.length ≤ 63 && rest.all fun u => isLower u || isDigit u || u = 0x5F || u = 0x2D
  | _ => false
where
  isLower (u : CodeUnit) : Bool := 0x61 ≤ u && u ≤ 0x7A
  isDigit (u : CodeUnit) : Bool := 0x30 ≤ u && u ≤ 0x39

def isNonEmpty (v : Field) : Bool := isString v && truthy v

def controlRecoveryOk (v : ControlToolDispatch) : Bool :=
  let recovery := v.recovery
  isText v.toolName "subagent" && v.sourceDocumentId.isNone && v.replyMode.isNone &&
    v.workflowKey.isNone && v.bindingId.isNone && safeInteger 1 (at? recovery "documentId") &&
    safeInteger 1 (at? recovery "sequence") && isNonEmpty (at? recovery "operationId") &&
    !same (at? recovery "operationId") v.operationId &&
    hasExactly recovery ["documentId", "operationId", "sequence"]

def parseControlToolDispatch (v : ControlToolDispatch) (replyTopic : Option JsString) :
    Except String Unit :=
  if !isNonEmpty v.operationId || !safeInteger 1 v.taskId || !safeInteger 1 v.conversationId ||
      !isControlDispatchToolName v.toolName ||
      !(v.contextAnchor matches some .null || safeInteger 1 v.contextAnchor) ||
      !(v.bindingId.isNone || isNonEmpty v.bindingId) ||
      !(v.sourceDocumentId.isNone || safeInteger 1 v.sourceDocumentId) ||
      !(v.replyMode.isNone || isText v.replyMode "hostcall") ||
      (isText v.replyMode "hostcall" && v.sourceDocumentId.isNone) ||
      !(v.workflowKey.isNone || isNonEmpty v.workflowKey) ||
      (replyTopic = none || replyTopic = some []) then
    .error "Invalid control Tool dispatch reference"
  else if v.recovery.isSome && !controlRecoveryOk v then
    .error "Invalid control Tool recovery reference"
  else .ok ()

def parseExecutorToolDispatch (c : Checker) (v : ExecutorToolDispatch)
    (replyTopic : Option JsString) : Except String Unit :=
  c.parse .executorToolDispatch
    (.obj (record (v.fields ++ [("replyTopic", replyTopic.map .str)])))
    "Invalid executor Tool dispatch"

/-- What a tool of a commit stands for, with the arguments of its native intent. -/
inductive ToolCommand where
  | cube (dispatch : CubeToolDispatch) (scope : AcceptedFactScope) (replyTopic : Option JsString)
      (request : Json)
  | executor (dispatch : ExecutorToolDispatch) (scope : AcceptedFactScope)
      (replyTopic : Option JsString) (nativeCallId : JsString) (arguments : Members)
      (operationIndex : Nat)

def cubeRequest (request : CubeRequest) (intent : ToolIntent) : Json :=
  let constants := record [("type", some (Json.str (ascii "tool_sandbox.operation"))),
    ("toolBrokerProtocolVersion", some (.num 1))]
  let native :=
    if isText (request.members.get "operation") "tool.execute" then
      [("args", some (.obj intent.arguments))]
    else [("script", Members.get intent.arguments "script")]
  .obj (request.members ++ constants ++
    record (native ++ [("toolCallId", some (Json.str intent.callId))]))

def toolCommand (c : Checker) (index : DurableCommitIndex) (tool : DurableToolDispatch)
    (operationIndex : Nat) : Except String (Option ToolCommand) := do
  match tool.descriptor with
  | .control _ => return none
  | .executor dispatch =>
    parseExecutorToolDispatch c dispatch tool.replyTopic
    let intent ← durableToolIntent index dispatch.taskId
    if !same (at? (index.task dispatch.taskId) "conversationId") dispatch.conversationId then
      throw "Executor Tool conversation changed"
    return some (.executor dispatch tool.scope tool.replyTopic intent.callId intent.arguments
      operationIndex)
  | .cube dispatch =>
    let intent ← durableToolIntent index dispatch.taskId
    let request := dispatch.request
    if request.members.has "args" || request.members.has "script" ||
        request.members.has "toolCallId" then
      throw "Tool dispatch duplicates native intent"
    let command := cubeRequest request intent
    c.parse .toolSandboxOperationRequest command "Invalid Tool Sandbox operation request"
    return some (.cube dispatch tool.scope tool.replyTopic command)

def toolCommandsForFact (c : Checker) (index : DurableCommitIndex)
    (tools : List DurableToolDispatch) : Except String (List ToolCommand) := do
  let commands ← tools.zipIdx.mapM fun tool => toolCommand c index tool.1 tool.2
  return commands.filterMap id

def checkControlReference (index : DurableCommitIndex) (commit : Field)
    (tool : DurableToolDispatch) : Except String Unit := do
  match tool.descriptor with
  | .control reference =>
    parseControlToolDispatch reference tool.replyTopic
    if reference.recovery.isSome then durableControlRecovery index commit reference
    else
      let _ ← durableControlIntent index reference
      if reference.sourceDocumentId.isNone &&
          !same (at? (index.task reference.taskId) "conversationId") reference.conversationId then
        throw "Control Tool conversation changed"
  | _ => return ()

/-! ## Display descriptions -/

def DisplayEvent.value (event : DisplayEvent) : Members :=
  event.metadata ++ record [("schemaVersion", some (.num event.schemaVersion)),
    ("sessionId", some (.str event.sessionId)), ("turnId", some (.str event.turnId))]

def isPath (v : Field) : Bool :=
  match v with
  | some (.arr path) =>
    path.length ≤ 64 && path.all fun part => isString (some part) || safeInteger 0 (some part)
  | _ => false

/-- `start` and `end` of a range of text -/
def isRange (source : Field) : Bool :=
  safeInteger 0 (at? source "start") && safeInteger 0 (at? source "end") &&
    !below (at? source "end") (at? source "start")

def writeSource (source : Field) (ranged : Bool) : Except String Unit :=
  if isText (at? source "kind") "write" && safeInteger 0 (at? source "ordinal") &&
      isPath (at? source "path") && (!ranged || isRange source) then
    .ok ()
  else .error "Invalid native display write reference"

/-- The event with one field of its payload filled in passes the event's schema. -/
def checkFilled (c : Checker) (event : DisplayEvent) (name : String) (filler : Json) :
    Except String Unit :=
  let payload := spread (event.metadata.get "payload")
  c.parse .piCloudEvent (.obj (event.value.set "payload" (.obj (payload.set name filler))))
    "Invalid PiCloud event"

def parseDurableTextDescription (c : Checker) (v : DurableDisplayDescription) :
    Except String Unit := do
  let payload := v.event.metadata.get "payload"
  if !truthy payload || (spread payload).has "text" then
    throw "Native display must reference text, not carry a copied body"
  checkFilled c v.event "text" (.str [])
  let source := v.members.get "source"
  if isText (at? source "kind") "empty" then return ()
  let selected :=
    if isText (at? source "kind") "write" then safeInteger 0 (at? source "ordinal")
    else isText (at? source "kind") "document" && safeInteger 1 (at? source "id")
  if !(selected && isRange source && isPath (at? source "path")) then
    throw "Invalid native display reference"

def checkOutputPart (part : Json) : Except String Unit := do
  if isText (at? (some part) "kind") "image" then
    match at? (some part) "mimeType" with
    | some (.str mimeType) =>
      if mimeType = [] || mimeType.length > 256 then throw "Invalid Tool image description"
    | _ => throw "Invalid Tool image description"
    if (at? (some part) "source").isSome then writeSource (at? (some part) "source") false
  else writeSource (some part) true

def checkOutput (output : Field) : Except String Unit := do
  if isText (at? output "kind") "missing" then return ()
  match at? output "parts" with
  | some (.arr parts) =>
    if !isText (at? output "kind") "parts" || !safeInteger 1 (at? output "maximumBytes") then
      throw "Invalid Tool output description"
    parts.forM checkOutputPart
    if (at? output "details").isSome then writeSource (at? output "details") false
  | _ => throw "Invalid Tool output description"

def parseDurableDisplayDescription (c : Checker) (v : DurableDisplayDescription) :
    Except String Unit := do
  let type := v.event.metadata.get "type"
  let payload := v.event.metadata.get "payload"
  if isText type "assistant.text.delta" then parseDurableTextDescription c v
  else if isText type "tool.started" && v.members.has "source" then
    if (spread payload).has "input" then throw "Tool display must not copy input"
    checkFilled c v.event "input" (.obj [])
    writeSource (v.members.get "source") false
  else if isText type "tool.completed" && v.members.has "output" then
    if (spread payload).has "output" then throw "Tool display must not copy output"
    checkFilled c v.event "output" (.str [])
    checkOutput (v.members.get "output")
  else throw "Invalid native display description"

/-! ## Facts -/

def checkDisplay (c : Checker) (display : Display) : Except String Unit := do
  if display.coveredThrough.isSome && !safeInteger 0 display.coveredThrough then
    throw "Invalid native display coverage"
  display.events.forM (parseDurableDisplayDescription c)

def parseToolCancellation (c : Checker) (cancel : AcceptedToolCancellation) : Except String Unit :=
  let request := record [("activationId", cancel.activationId), ("operationId", cancel.operationId),
    ("target", if cancel.executor then some (.str (ascii "executor")) else none)]
  c.parse .acceptedToolCancellation
    (.obj (record [("kind", some (.str (ascii "tool_cancel"))),
      ("scope", some (.obj (record cancel.scope.fields))), ("request", some (.obj request))]))
    "Invalid Tool cancellation"

def ProbeBinding.value (binding : ProbeBinding) : Json :=
  .obj (record [("bindingId", binding.bindingId), ("probe", binding.probe),
    ("scope", some (.obj (record binding.scope.fields)))])

def PathProbe.value (fact : PathProbe) : Members :=
  fact.members ++ record (fact.fields (fact.bindings.map (·.value)))

def parsePathProbe (c : Checker) (value : Members) : Except String Unit :=
  if c.check .pathProbe (.obj value) && c.dateParses (value.get "occurredAt") then .ok ()
  else .error "Invalid path probe"

/-- The terminal event that a finished work stands for. -/
def terminalEvent (fact : Members) (baseSequence : Rat) : Json :=
  let scope := fact.get "scope"
  .obj (record [("schemaVersion", some (.num 1)), ("eventId", fact.get "factId"),
    ("sessionId", at? scope "sessionId"), ("turnId", at? scope "turnId"),
    ("agentId", fact.get "agentId"), ("seq", some (.num (baseSequence + 1))),
    ("occurredAt", fact.get "occurredAt")] ++ spread (fact.get "terminal"))

def checkWorkFinished (c : Checker) (fact : Members) : Except String Unit :=
  match fact.get "baseSequence" with
  | some (.num baseSequence) =>
    if !safeInteger 0 (fact.get "nativeSequence") || !safeInteger 0 (some (.num baseSequence)) then
      .error "Invalid work completion boundary"
    else c.parse .piCloudEvent (terminalEvent fact baseSequence) "Invalid PiCloud event"
  | _ => .error "Invalid work completion boundary"

def checkPlain (c : Checker) (fact : Members) : Except String Unit :=
  if isKind fact "agent_event" then
    match fact.get "event" with
    | some event => c.parse .piCloudEvent event "Invalid PiCloud event"
    | none => .error "Invalid PiCloud event"
  else if isKind fact "path_probe" then parsePathProbe c fact
  else if isKind fact "runtime_keepalive" then
    if c.check .runtimeKeepalive (.obj fact) && c.dateParses (fact.get "occurredAt") then .ok ()
    else .error "Invalid runtime keepalive"
  else if isKind fact "execution_seal" then .ok ()
  else if isKind fact "work_finished" then checkWorkFinished c fact
  else .error "Kafka AcceptedFact kind is invalid"

structure PreparedSessionLogFact where
  fact : SessionLogFact
  tools : List ToolCommand

def prepareCommit (c : Checker) (fact : AcceptedDurableCommitFact) :
    Except String (List ToolCommand) := do
  let writes ← parseDurableSessionCommit fact.commit
  fact.display.forM (checkDisplay c)
  fact.cancellations.forM (parseToolCancellation c)
  let index ← DurableCommitIndex.ofWrites writes
  fact.tools.forM (checkControlReference index fact.commit)
  toolCommandsForFact c index fact.tools

def prepareAcceptedFact (c : Checker) (fact : SessionLogFact) :
    Except String PreparedSessionLogFact :=
  match fact with
  | .durableCommit commit => do
    let tools ← prepareCommit c commit
    return { fact, tools }
  | .pathProbe probe => do
    parsePathProbe c probe.value
    return { fact, tools := [] }
  | .plain value => do
    checkPlain c value.val
    return { fact, tools := [] }

/-! ## The two sides of the log -/

structure ExecutionPublication where
  scope : AcceptedFactScope

/-- The owner fields of a value that is no scope of a commit or a probe. -/
def isOwner (root : AcceptedFactScope) (scope : Field) : Bool :=
  isStr (at? scope "tenantId") root.tenantId && isStr (at? scope "piSessionId") root.piSessionId &&
    isStr (at? scope "runId") root.runId && isStr (at? scope "writerId") root.writerId &&
    same (at? scope "fencingToken") (some (.num root.fencingToken))

def SessionLogFact.ownedBy (fact : SessionLogFact) (root : AcceptedFactScope) : Bool :=
  match fact with
  | .durableCommit commit => commit.scope.owner = root.owner
  | .pathProbe probe => probe.scope.owner = root.owner
  | .plain value => isOwner root (value.val.get "scope")

def isSeal : SessionLogFact → Bool
  | .plain value => isKind value.val "execution_seal"
  | _ => false

def nestedScopes : SessionLogFact → List AcceptedFactScope
  | .durableCommit commit => commit.tools.map (·.scope) ++ commit.cancellations.map (·.scope) ++
      commit.display.map (·.scope)
  | _ => []

def assertSessionPublication (c : Checker) (publication : ExecutionPublication)
    (fact : SessionLogFact) : Except String Unit := do
  let root := publication.scope
  if !fact.ownedBy root then throw "Record belongs to another Session writer"
  if isSeal fact then throw "Workers publish only native intents and work records"
  let _ ← prepareAcceptedFact c fact
  if !(nestedScopes fact).all fun scope => scope.owner = root.owner then
    throw "Record belongs to another Session writer"

def isControlChange : SessionLogFact → Bool
  | .plain value => isKind value.val "control_change"
  | _ => false

def decodeSessionLogFact (c : Checker) (input : Json) : Except String PreparedSessionLogFact := do
  let parsed ← expandSessionLogEnvelope wireLimits input
  if isControlChange parsed then
    c.parse .sessionControlChange input "Invalid Session control change"
    return { fact := parsed, tools := [] }
  else prepareAcceptedFact c parsed

end SessionLog
end Runtime
end PiCloud
