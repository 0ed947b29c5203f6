import PiCloud.Runtime.TurnProjection

/-!
# Web.SessionView

The browser's reducer: a session view, the events it applies and the conversation it loads. An item
of the browser is an item of the transcript with a key and what else only the browser needs.

* `applyItems`: what one event makes of the items of its turn.
* `applyEvent`: one event applied to the whole view.
* `loadConversation`: the view a `conversation.loaded` action starts from.
-/

namespace PiCloud
namespace Web

open Lib Protocol PiCloud.Runtime

/-! ## The view -/

inductive TurnViewStatus where
  | queued | running | cancelling | completed | failed | cancelled
deriving DecidableEq

inductive CompactState where
  | queued | summarizing | awaitingPlacement | applied | noOp | stale | cancelled | failed
deriving DecidableEq

structure TranscriptItem where
  key : JsString
  pageKey : Option JsString := none
  historyCursor : Option JsString := none
  /-- text recovered before this browser attached -/
  recoveredTextLength : Option Nat := none
  body : ItemBody

structure CancellationView where
  reason : JsString
  forced : Bool

structure TurnView where
  turnId : JsString
  status : TurnViewStatus
  items : List TranscriptItem := []
  operation : Option CompactState := none
  scheduledOrigin : Option Json := none
  prompt : Option JsString := none
  startedSequence : Option Nat := none
  terminalSequence : Option Nat := none
  stopReason : Option JsString := none
  failure : Option TurnFailure := none
  cancellation : Option CancellationView := none

structure SessionViewState where
  /-- the session's identity, once there is one -/
  session : Option JsString := none
  sessionState : Option SessionState := none
  turns : List TurnView := []

def unknownTurn (turnId : JsString) : TurnView := { turnId, status := .running }

def updateCompleted (update : TurnView → TurnView) (turn : TurnView) : TurnView :=
  if turn.status = .completed then { update turn with status := .completed } else update turn

def updateTurn (turns : List TurnView) (turnId : JsString) (update : TurnView → TurnView) :
    List TurnView :=
  match turns.findIdx? (fun turn => turn.turnId == turnId) with
  | none => turns ++ [update (unknownTurn turnId)]
  | some i => turns.modify i (updateCompleted update)

/-! ## Items -/

abbrev ViewItems := List TranscriptItem

namespace TranscriptItem

def mapBody (f : ItemBody → ItemBody) (item : TranscriptItem) : TranscriptItem :=
  { item with body := f item.body }

def ofBody (key : JsString) (body : ItemBody) : TranscriptItem := { key, body }

end TranscriptItem

def keyOf (kind : String) (id : JsString) : JsString := ascii kind ++ ascii ":" ++ id

def ViewItems.any (items : ViewItems) (p : ItemBody → Bool) : Bool :=
  List.any items (fun item => p item.body)

def appendTextTail (items : ViewItems) (delta : TextDelta) (seq : Nat) : ViewItems :=
  if items.getLast?.any (fun last => last.body.continuedBy delta) then
    items.modify (items.length - 1) (.mapBody (.continueText delta seq))
  else items ++ [TranscriptItem.ofBody (keyOf "text" (jsonNat seq)) (.text (.ofDelta delta seq))]

def appendText (items : ViewItems) (delta : TextDelta) (seq : Nat) : ViewItems :=
  match delta.messageId with
  | none => appendTextTail items delta seq
  | some messageId =>
    match items.findIdx? (fun item => item.body.isText messageId) with
    | some i => items.modify i (.mapBody (.extendText delta seq))
    | none => appendTextTail items delta seq

/-- What a completed hosted search makes of the item that has its identity. -/
def completeHosted (outcome : HostedToolOutcome) (action : Option Json) (seq : Nat) :
    ItemBody → ItemBody
  | .hostedSearch i => .hostedSearch { i with
      status := .ofOutcome outcome
      action := match action with
        | none => i.action
        | some value => some value
      lastSequence := some seq }
  | b => b

/-- A preparation or a tool of the call becomes a running tool in its place. -/
def startTool (toolName : JsString) (input : Json) (at_ : JsString) (item : TranscriptItem) :
    TranscriptItem :=
  match item.body with
  | .tool i =>
    { key := item.key, pageKey := item.pageKey, historyCursor := item.historyCursor
      body := .tool { toolCallId := i.toolCallId, toolName, input, status := .running,
                      firstSequence := i.firstSequence, startedAt := at_ } }
  | .toolPreparing i =>
    { key := item.key, pageKey := item.pageKey, historyCursor := item.historyCursor
      body := .tool { toolCallId := i.toolCallId, toolName, input, status := .running,
                      firstSequence := i.firstSequence, startedAt := at_ } }
  | _ => item

/-- A preparation or a tool of the call becomes a completed tool in its place. -/
def completeTool (outcome : ToolOutcome) (output : Option Json) (seq : Nat) (at_ : JsString) :
    ItemBody → ItemBody
  | .tool i => ItemBody.complete outcome output seq at_ (.tool i)
  | .toolPreparing i =>
    .tool { toolCallId := i.toolCallId, toolName := i.toolName, input := .null, output,
            status := .ofOutcome outcome, firstSequence := i.firstSequence,
            lastSequence := some seq, startedAt := at_, completedAt := some at_ }
  | b => b

def isCall (toolCallId : JsString) (b : ItemBody) : Bool :=
  b.isTool toolCallId || b.isPreparing toolCallId

/-- Every item that `p` picks updated, or a new item where it picks none. -/
def updateMatching (items : ViewItems) (p : ItemBody → Bool) (f : TranscriptItem → TranscriptItem)
    (new : TranscriptItem) : ViewItems :=
  if items.any p then List.map (fun item => if p item.body then f item else item) items
  else items ++ [new]

def findLastRunningCompaction (items : ViewItems) : Option Nat :=
  (items.reverse.findIdx? (fun item => item.body.isRunningCompaction)).map
    (fun i => items.length - 1 - i)

/-- The completed item keeps the key and the first sequence of the running one. -/
def refineCompaction (result : CompactionResult) (seq : Nat) (old : TranscriptItem) :
    TranscriptItem :=
  match old.body with
  | .compaction c => .ofBody old.key (.compaction (.ofResult result c.firstSequence seq))
  | _ => old

def completeCompaction (items : ViewItems) (result : CompactionResult) (seq : Nat) : ViewItems :=
  match findLastRunningCompaction items with
  | none =>
    items ++ [.ofBody (keyOf "compaction" (jsonNat seq)) (.compaction (.ofResult result seq seq))]
  | some i => items.modify i (refineCompaction result seq)

def dropPreparations (items : ViewItems) : ViewItems :=
  items.filter (fun item => !item.body.isAnyPreparing)

/-- The items of a turn after one of its events. -/
def applyItems (items : ViewItems) (event : PiCloudEvent) : ViewItems :=
  match event.body with
  | .userInput input =>
    if items.any (ItemBody.isUser input.inputId) then items
    else items ++ [.ofBody (keyOf "user" input.inputId) (.user ⟨input, event.seq, event.seq⟩)]
  | .assistantTextDelta delta => appendText items delta event.seq
  | .hostedToolStarted activityId =>
    if items.any (ItemBody.isHosted activityId) then items
    else items ++ [.ofBody (keyOf "hosted-search" activityId)
      (.hostedSearch { activityId, status := .running, firstSequence := event.seq })]
  | .hostedToolCompleted activityId outcome action =>
    updateMatching items (ItemBody.isHosted activityId)
      (.mapBody (completeHosted outcome action event.seq))
      (.ofBody (keyOf "hosted-search" activityId)
        (.hostedSearch { activityId, status := .ofOutcome outcome, action,
                         firstSequence := event.seq, lastSequence := some event.seq }))
  | .toolCallPreparing toolCallId toolName =>
    if items.any (isCall toolCallId) then items
    else items ++ [.ofBody (keyOf "tool" toolCallId)
      (.toolPreparing ⟨toolCallId, toolName, event.seq, event.occurredAt⟩)]
  | .toolStarted toolCallId toolName input _ =>
    updateMatching items (isCall toolCallId) (startTool toolName input event.occurredAt)
      (.ofBody (keyOf "tool" toolCallId)
        (.tool { toolCallId, toolName, input, status := .running, firstSequence := event.seq,
                 startedAt := event.occurredAt }))
  | .toolCompleted toolCallId outcome output _ =>
    updateMatching items (isCall toolCallId)
      (.mapBody (completeTool outcome output event.seq event.occurredAt))
      (.ofBody (keyOf "tool" toolCallId)
        (.tool { toolCallId, toolName := ascii "unknown", input := .null, output,
                 status := .ofOutcome outcome, firstSequence := event.seq,
                 lastSequence := some event.seq, startedAt := event.occurredAt,
                 completedAt := some event.occurredAt }))
  | .uiNotification message level =>
    items ++ [.ofBody (keyOf "notification" (jsonNat event.seq))
      (.notification ⟨level, message, event.seq⟩)]
  | .contextCompactionStarted reason =>
    items ++ [.ofBody (keyOf "compaction" (jsonNat event.seq))
      (.compaction { reason, status := .running, willRetry := false, firstSequence := event.seq })]
  | .contextCompactionCompleted result => completeCompaction items result event.seq
  | .modelSamplingRetryScheduled retry =>
    dropPreparations items ++ [.ofBody (keyOf "retry" (jsonNat event.seq))
      (.retry ⟨retry.nextSamplingAttempt, some retry.maximumSamplingAttempts, some retry.delayMs,
        event.seq⟩)]
  | .modelSamplingCompleted _ outcome _ =>
    if outcome = .failed ∨ outcome = .aborted then
      (dropPreparations items).map (.mapBody (.settleHosted .failed event.seq))
    else items
  | .turnCompleted _ => (dropPreparations items).map (.mapBody (.settleHosted .completed event.seq))
  | .turnFailed _ =>
    (dropPreparations items).map (.mapBody (fun b =>
      (b.abandon .failed event.seq event.occurredAt).settleHosted .failed event.seq))
  | .turnCancelled _ =>
    (dropPreparations items).map (.mapBody (fun b =>
      (b.abandon .aborted event.seq event.occurredAt).settleHosted .failed event.seq))
  | _ => items

/-! ## Events -/

def completedOperation (stopReason : JsString) : CompactState :=
  if stopReason = ascii "compact_no_op" then .noOp
  else if stopReason = ascii "compact_stale" then .stale
  else .applied

def cancellationReason : TurnCancellationReason → JsString
  | .userRequest => ascii "user_request"
  | .timeout => ascii "timeout"
  | .sessionLeaseRevoked => ascii "session_lease_revoked"
  | .shutdown => ascii "shutdown"

def CancellationView.ofTurn (c : TurnCancellation) : CancellationView :=
  ⟨cancellationReason c.reason, c.forced⟩

/-- What an event sets in its turn beside the items, `terminalTurnOutcome` included. -/
def noteTurn (turn : TurnView) (event : PiCloudEvent) : TurnView :=
  match event.body with
  | .turnStarted inputKind scheduledOrigin =>
    let turn := { turn with status := .running, startedSequence := some event.seq,
                            failure := none, cancellation := none }
    let turn := match scheduledOrigin with
      | none => turn
      | some origin => { turn with scheduledOrigin := some origin }
    if inputKind = .compact then { turn with operation := some .summarizing, prompt := some [] }
    else turn
  | .userInput input =>
    if turn.items.any (fun item => item.body.isUser input.inputId) then turn
    else { turn with status := .running }
  | .assistantTextDelta _ => { turn with status := .running }
  | .hostedToolStarted _ => { turn with status := .running }
  | .toolCallPreparing _ _ => { turn with status := .running }
  | .toolStarted _ _ _ _ => { turn with status := .running }
  | .turnCompleted stopReason =>
    { turn with status := .completed, terminalSequence := some event.seq,
                stopReason := some stopReason,
                operation := turn.operation.map (fun _ => completedOperation stopReason) }
  | .turnFailed failure =>
    { turn with status := .failed, terminalSequence := some event.seq, failure := some failure,
                operation := turn.operation.map (fun _ => .failed) }
  | .turnCancelled cancellation =>
    { turn with status := .cancelled, terminalSequence := some event.seq,
                stopReason := some (ascii "cancelled"),
                cancellation := some (.ofTurn cancellation),
                operation := turn.operation.map (fun _ => .cancelled) }
  | _ => turn

def applyTurn (event : PiCloudEvent) (turn : TurnView) : TurnView :=
  { noteTurn turn event with items := applyItems turn.items event }

/-- New items of a turn whose last item came with a page join that page. -/
def tagTail (turnId pageKey : JsString) (turn : TurnView) : TurnView :=
  if turn.turnId = turnId then
    { turn with items := turn.items.map (fun item =>
        if item.pageKey.isSome then item else { item with pageKey := some pageKey }) }
  else turn

def nextSessionState (event : PiCloudEvent) (state : Option SessionState) : Option SessionState :=
  match event.body with
  | .turnCompleted _ => some .idle
  | .turnFailed _ => some .idle
  | .turnCancelled _ => some .idle
  | .turnStarted _ _ => some .running
  | _ => state

def EventBody.isStart : EventBody → Bool
  | .turnStarted _ _ => true
  | _ => false

def applyEvent (state : SessionViewState) (event : PiCloudEvent) : SessionViewState :=
  if state.session.any (fun session => event.sessionId != session) then state
  else if EventBody.isStart event.body ∧
      state.turns.any (fun turn => some turn.turnId == event.turnId && turn.status == .completed) then
    state
  else
    match event.body, event.turnId with
    | .sessionStateChanged _ toState _, _ => { state with sessionState := some toState }
    | _, none => state
    | _, some turnId =>
      let turns := updateTurn state.turns turnId (applyTurn event)
      let tailPageKey := ((state.turns.find? (fun turn => turn.turnId == turnId)).bind
        (fun turn => turn.items.getLast?)).bind TranscriptItem.pageKey
      { state with
        turns := match tailPageKey with
          | none => turns
          | some pageKey => turns.map (tagTail turnId pageKey)
        sessionState := nextSessionState event state.sessionState }

/-! ## Loading a conversation -/

structure ConversationTurn where
  turnId : JsString
  state : TurnViewStatus
  transcript : Option ConversationTurnTranscript := none
  operation : Option CompactState := none
  scheduledOrigin : Option Json := none
  prompt : JsString := []

structure ConversationDetail where
  sessionId : JsString
  sessionState : SessionState
  turns : List ConversationTurn
  /-- `history.before` -/
  before : Option JsString := none

/-- `transcriptItem` -/
def transcriptItem (item : ConversationTranscriptItem) : TranscriptItem where
  key := match item.body with
    | .user i => keyOf "user" i.input.inputId
    | .toolPreparing i => keyOf "tool-preparing" i.toolCallId
    | .text i => keyOf "text" (i.messageId.getD (item.historyCursor.getD (jsonNat i.firstSequence)))
    | .hostedSearch i => keyOf "hosted-search" i.activityId
    | .tool i => keyOf "tool" i.toolCallId
    | .notification i => keyOf "notification" (item.historyCursor.getD (jsonNat i.sequence))
    | .compaction i => keyOf "compaction" (item.historyCursor.getD (jsonNat i.firstSequence))
    | .retry i => keyOf "retry" (item.historyCursor.getD (jsonNat i.sequence))
  historyCursor := item.historyCursor
  body := item.body

def recoverText (item : TranscriptItem) : TranscriptItem :=
  match item.body with
  | .text i => { item with recoveredTextLength := some i.text.length }
  | _ => item

def runFailedMessage : JsString :=
  [0x8FD9, 0x6B21, 0x8FD0, 0x884C, 0x5931, 0x8D25, 0x4E86, 0xFF0C, 0x8BF7, 0x91CD, 0x8BD5, 0x3002]

def loadTurn (pageKey : JsString) (turn : ConversationTurn) : TurnView :=
  let shared : TurnView :=
    { turnId := turn.turnId, status := turn.state, operation := turn.operation
      scheduledOrigin := turn.scheduledOrigin, prompt := some turn.prompt }
  match turn.transcript with
  | none =>
    { shared with
      failure :=
        if turn.state = .failed then some ⟨ascii "run_failed", runFailedMessage, true⟩ else none
      cancellation :=
        if turn.state = .cancelled then some ⟨ascii "cancelled", false⟩ else none }
  | some t =>
    { shared with
      items := t.items.map (fun item =>
        recoverText { transcriptItem item with pageKey := some pageKey })
      startedSequence := t.startedSequence, terminalSequence := t.terminalSequence
      stopReason := t.stopReason, failure := t.failure
      cancellation := t.cancellation.map .ofTurn }

/-- `conversation.loaded` -/
def loadConversation (conversation : ConversationDetail) : SessionViewState where
  session := some conversation.sessionId
  sessionState := some conversation.sessionState
  turns := conversation.turns.map
    (loadTurn (conversation.before.getD conversation.sessionId))

end Web
end PiCloud
