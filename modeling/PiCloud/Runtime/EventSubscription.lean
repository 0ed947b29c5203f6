import PiCloud.Lib.InsertionMap
import PiCloud.Protocol.Event
import PiCloud.Protocol.ToolPreview

/-!
# Runtime.EventSubscription

`SessionEventSubscription` of `session-event-hub.ts`, with all it queues: events, previews of tool
progress, run observations and the latest input queue.

* `SessionEventSubscription.apply`: one call, of the hub, of the reader or of a heartbeat timer.
* `Watch`: a subscription, the events it was notified of and what its reader was given.
-/

namespace PiCloud
namespace Runtime

open Lib Protocol

/-! ## What is delivered -/

structure ToolProgress where
  sessionId : JsString
  turnId : JsString
  toolCallId : JsString
  operationId : JsString
  update : ToolPreviewUpdate

inductive RunPhase where
  | preparing | waitingModel | receivingModel | preparingTool | executingTool | waitingChild
  | retrying | compacting | cancelling | settling

inductive ChildState where
  | running | completed | failed | cancelled

inductive RunObservationBody where
  | childActivity (state : ChildState) (childSessionId childTurnId parentToolCallId : JsString)
      (revision observedAt lastActivityAt : Nat) (phase : RunPhase)
  | execution (revision observedAt : Nat) (execution : Json)
  | activity (revision observedAt lastActivityAt : Nat) (phase : RunPhase)
  | path (sentAt observedAt : Nat)

structure RunObservation where
  sessionId : JsString
  turnId : JsString
  runId : JsString
  generation : Nat
  body : RunObservationBody

structure InputQueueResource where
  sessionId : JsString
  revision : JsString
  activeTurnId : Option JsString
  hasReturnedInputs : Bool
  viewVersion : Nat
  afterPosition : Nat
  hasMore : Bool
  items : List Json

structure SessionEventWake where
  throughSequence : Option Nat
  event : Option PiCloudEvent := none
  progress : Option ToolProgress := none
  observation : Option RunObservation := none
  inputQueue : Option InputQueueResource := none

/-- What a promise of `next` resolves to. -/
inductive Delivered where
  | wake (wake : SessionEventWake)
  | heartbeat
  /-- `undefined` -/
  | ended

namespace Delivered

def event? : Delivered → Option PiCloudEvent
  | wake w => w.event
  | _ => none

def resync : Delivered := wake { throughSequence := none }

end Delivered

/-! ## The subscription -/

inductive SubscriptionError where
  /-- "Invalid pending Session event byte budget" -/
  | budget
  /-- "Session event wake belongs to a different Session" -/
  | eventSession
  /-- "Tool progress belongs to another Session" -/
  | progressSession
  /-- "Input queue belongs to another Session" -/
  | inputQueueSession
  /-- "Only one pending session-event read is allowed" -/
  | secondRead

structure QueuedWake where
  wake : SessionEventWake
  bytes : Nat

structure ProgressPreview where
  header : ToolProgress
  channel : ToolPreviewChannel := {}

/-- A read that waits; its timer was set where `next` was given a heartbeat interval. -/
structure PendingRead where
  id : Nat
  timer : Bool

/-- The turn, the type and, for a child's activity, the child. -/
structure ObservationKey where
  turnId : JsString
  type : Nat
  childSessionId : Option JsString
deriving DecidableEq

namespace RunObservation

def key (o : RunObservation) : ObservationKey :=
  match o.body with
  | .childActivity _ childSessionId .. => ⟨o.turnId, 0, some childSessionId⟩
  | .execution .. => ⟨o.turnId, 1, none⟩
  | .activity .. => ⟨o.turnId, 2, none⟩
  | .path .. => ⟨o.turnId, 3, none⟩

def position (o : RunObservation) : Nat :=
  match o.body with
  | .childActivity _ _ _ _ revision .. => revision
  | .execution revision .. => revision
  | .activity revision .. => revision
  | .path sentAt _ => sentAt

end RunObservation

structure SessionEventSubscription where
  tenantId : JsString
  sessionId : JsString
  maximumPendingBytes : Nat
  queuedWakes : List QueuedWake := []
  queuedBytes : Nat := 0
  resync : Bool := false
  pendingRead : Option PendingRead := none
  /-- how many reads were ever left waiting -/
  reads : Nat := 0
  closed : Bool := false
  progress : InsertionMap JsString ProgressPreview := {}
  observations : InsertionMap ObservationKey RunObservation := {}
  inputQueue : Option InputQueueResource := none

namespace SessionEventSubscription

/-- The fields the constructor starts with. -/
def opened (tenantId sessionId : JsString) (maximumPendingBytes : Nat) :
    SessionEventSubscription where
  tenantId
  sessionId
  maximumPendingBytes

def create (tenantId sessionId : JsString) (maximumPendingBytes : Nat) :
    Except SubscriptionError SessionEventSubscription :=
  if Protocol.maxSafeInteger < maximumPendingBytes ∨ maximumPendingBytes < 1 then .error .budget
  else .ok (opened tenantId sessionId maximumPendingBytes)

/-- What a call leaves behind, and what it gives the reader. -/
abbrev Outcome := SessionEventSubscription × Option Delivered

def clearPending (s : SessionEventSubscription) : SessionEventSubscription :=
  { s with queuedWakes := [], queuedBytes := 0, progress := {}, observations := {}
           inputQueue := none }

/-- `pending.resolve`: the read that waits is given `d`. -/
def resolve (s : SessionEventSubscription) (d : Delivered) : Outcome :=
  ({ s with pendingRead := none }, some d)

def askResync (s : SessionEventSubscription) : Outcome :=
  if s.closed || s.resync then (s, none)
  else
    let s := { s with resync := true }.clearPending
    match s.pendingRead with
    | some _ => s.resolve .resync
    | none =>
      ({ s with queuedWakes := s.queuedWakes ++ [⟨{ throughSequence := none }, 0⟩] }, none)

def push (s : SessionEventSubscription) (event : PiCloudEvent) (encodedBytes : Nat) : Outcome :=
  let wake : SessionEventWake := { throughSequence := some event.seq, event := some event }
  match s.pendingRead with
  | some _ => s.resolve (.wake wake)
  | none =>
    if 1024 ≤ s.queuedWakes.length then s.askResync
    else if s.maximumPendingBytes < s.queuedBytes + encodedBytes then s.askResync
    else
      ({ s with queuedBytes := s.queuedBytes + encodedBytes
                queuedWakes := s.queuedWakes ++ [⟨wake, encodedBytes⟩] }, none)

/-- Whether `event` ends the tool call whose progress has this header. -/
def finishes (event : PiCloudEvent) (header : ToolProgress) : Bool :=
  some header.turnId = event.turnId &&
    match event.body with
    | .toolCompleted toolCallId .. => header.toolCallId = toolCallId
    | body => body.isTerminal

def notifyEvent (s : SessionEventSubscription) (event : PiCloudEvent) (encodedBytes : Nat) :
    Except SubscriptionError Outcome :=
  if s.closed || s.resync then .ok (s, none)
  else if event.sessionId ≠ s.sessionId then .error .eventSession
  else
    .ok ({ s with progress := s.progress.filter fun _ preview => !finishes event preview.header }.push
      event encodedBytes)

/-- The end of `notifyProgress`, for the preview found or made. An update the channel refuses
changes nothing. -/
def acceptProgress (s : SessionEventSubscription) (progress : ToolProgress)
    (preview : ProgressPreview) : Outcome :=
  match preview.channel.accept progress.update with
  | .error _ => (s, none)
  | .ok (false, _) => (s, none)
  | .ok (true, channel) =>
    match s.pendingRead with
    | none => ({ s with progress := s.progress.set progress.operationId ⟨progress, channel⟩ }, none)
    | some _ =>
      match channel.take with
      | none =>
        ({ s with progress := s.progress.set progress.operationId ⟨progress, channel⟩ }, none)
      | some (update, taken) =>
        { s with progress := s.progress.set progress.operationId ⟨progress, taken⟩ }.resolve
          (.wake { throughSequence := none, progress := some { progress with update } })

def notifyProgress (s : SessionEventSubscription) (progress : ToolProgress) :
    Except SubscriptionError Outcome :=
  if s.closed || s.resync then .ok (s, none)
  else if progress.sessionId ≠ s.sessionId then .error .progressSession
  else
    match s.progress.get progress.operationId with
    | none =>
      let room := if 64 ≤ s.progress.size then s.progress.deleteOldest else s.progress
      .ok ({ s with progress := room.set progress.operationId ⟨progress, {}⟩ }.acceptProgress
        progress ⟨progress, {}⟩)
    | some preview =>
      if preview.header.turnId ≠ progress.turnId ∨
          preview.header.toolCallId ≠ progress.toolCallId then .ok (s, none)
      else .ok (s.acceptProgress progress preview)

def forgetProgress (s : SessionEventSubscription) (operationId : JsString) :
    SessionEventSubscription :=
  { s with progress := s.progress.delete operationId }

def outdated (s : SessionEventSubscription) (o : RunObservation) : Bool :=
  s.observations.entries.any fun e => e.2.turnId = o.turnId && o.generation < e.2.generation

/-- The observations without those of older generations of the turn. -/
def observationsFor (s : SessionEventSubscription) (o : RunObservation) :
    InsertionMap ObservationKey RunObservation :=
  s.observations.filter fun _ pending =>
    !(pending.turnId = o.turnId && pending.generation < o.generation)

/-- What is kept under the same key is as recent. -/
def superseded (s : SessionEventSubscription) (o : RunObservation) : Bool :=
  match (s.observationsFor o).get o.key with
  | some previous => o.position ≤ previous.position
  | none => false

def notifyObservation (s : SessionEventSubscription) (o : RunObservation) : Outcome :=
  if s.closed || s.resync then (s, none)
  else
    match s.pendingRead with
    | some _ => s.resolve (.wake { throughSequence := none, observation := some o })
    | none =>
      if s.outdated o then (s, none)
      else
        let kept := s.observationsFor o
        if s.superseded o then ({ s with observations := kept }, none)
        else
          let room := if 64 ≤ kept.size && (kept.get o.key).isNone then kept.deleteOldest else kept
          ({ s with observations := room.set o.key o }, none)

def notifyInputQueue (s : SessionEventSubscription) (inputQueue : InputQueueResource) :
    Except SubscriptionError Outcome :=
  if s.closed || s.resync then .ok (s, none)
  else if inputQueue.sessionId ≠ s.sessionId then .error .inputQueueSession
  else if s.inputQueue.any fun kept => inputQueue.viewVersion < kept.viewVersion then .ok (s, none)
  else
    match s.pendingRead with
    | some _ => .ok (s.resolve (.wake { throughSequence := none, inputQueue := some inputQueue }))
    | none => .ok ({ s with inputQueue := some inputQueue }, none)

/-- The first preview with something to send, its update and what taking it leaves. -/
def takeProgress (s : SessionEventSubscription) :
    Option (JsString × ToolProgress × ToolPreviewUpdate × ToolPreviewChannel) :=
  s.progress.entries.findSome? fun e =>
    e.2.channel.take.map fun taken => (e.1, e.2.header, taken.1, taken.2)

/-- `next`; with `heartbeat`, a timer is set for a read that has to wait. -/
def next (s : SessionEventSubscription) (heartbeat : Bool) : Except SubscriptionError Outcome :=
  match s.queuedWakes with
  | queued :: rest =>
    .ok ({ s with queuedWakes := rest, queuedBytes := s.queuedBytes - queued.bytes },
      some (.wake queued.wake))
  | [] =>
    if s.closed || s.resync then .ok (s, some .ended)
    else
      match s.inputQueue with
      | some inputQueue =>
        .ok ({ s with inputQueue := none },
          some (.wake { throughSequence := none, inputQueue := some inputQueue }))
      | none =>
        match s.observations.entries with
        | (id, observation) :: _ =>
          .ok ({ s with observations := s.observations.delete id },
            some (.wake { throughSequence := none, observation := some observation }))
        | [] =>
          match s.takeProgress with
          | some (id, header, update, channel) =>
            .ok ({ s with progress := s.progress.set id ⟨header, channel⟩ },
              some (.wake { throughSequence := none, progress := some { header with update } }))
          | none =>
            match s.pendingRead with
            | some _ => .error .secondRead
            | none =>
              .ok ({ s with pendingRead := some ⟨s.reads, heartbeat⟩, reads := s.reads + 1 }, none)

/-- The timer of a read fires. -/
def beat (s : SessionEventSubscription) (read : Nat) : Outcome :=
  match s.pendingRead with
  | none => (s, none)
  | some pending => if pending.id = read && pending.timer then s.resolve .heartbeat else (s, none)

def close (s : SessionEventSubscription) : Outcome :=
  if s.closed then (s, none)
  else
    let s := { s with closed := true }.clearPending
    match s.pendingRead with
    | some _ => s.resolve .ended
    | none => (s, none)

end SessionEventSubscription

/-! ## Calls in any order -/

inductive SubscriptionCall where
  | notifyEvent (event : PiCloudEvent) (encodedBytes : Nat)
  | notifyProgress (progress : ToolProgress)
  | forgetProgress (operationId : JsString)
  | notifyObservation (observation : RunObservation)
  | notifyInputQueue (inputQueue : InputQueueResource)
  | resync
  | next (heartbeat : Bool)
  | beat (read : Nat)
  | close

namespace SubscriptionCall

def event? : SubscriptionCall → Option PiCloudEvent
  | notifyEvent event _ => some event
  | _ => none

end SubscriptionCall

/-- One call; an error is thrown before anything has changed. -/
def SessionEventSubscription.apply (s : SessionEventSubscription) :
    SubscriptionCall → Except SubscriptionError SessionEventSubscription.Outcome
  | .notifyEvent event encodedBytes => s.notifyEvent event encodedBytes
  | .notifyProgress progress => s.notifyProgress progress
  | .forgetProgress operationId => .ok (s.forgetProgress operationId, none)
  | .notifyObservation observation => .ok (s.notifyObservation observation)
  | .notifyInputQueue inputQueue => s.notifyInputQueue inputQueue
  | .resync => .ok s.askResync
  | .next heartbeat => s.next heartbeat
  | .beat read => .ok (s.beat read)
  | .close => .ok s.close

/-- A subscription with its past: the events it was notified of, unless the call threw, and what
its reader was given, both oldest first. -/
structure Watch where
  subscription : SessionEventSubscription
  notified : List PiCloudEvent := []
  delivered : List Delivered := []

namespace Watch

def opened (tenantId sessionId : JsString) (maximumPendingBytes : Nat) : Watch where
  subscription := .opened tenantId sessionId maximumPendingBytes

def step (w : Watch) (call : SubscriptionCall) : Watch :=
  match w.subscription.apply call with
  | .error _ => w
  | .ok (s, d) =>
    { subscription := s
      notified := w.notified ++ call.event?.toList
      delivered := w.delivered ++ d.toList }

def run (w : Watch) (calls : List SubscriptionCall) : Watch := calls.foldl step w

end Watch

end Runtime
end PiCloud
