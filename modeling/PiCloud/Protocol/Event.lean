import PiCloud.Lib.Json

/-!
# Protocol.Event

The events of a session: one envelope, and one constructor of `EventBody` for each event type.
Attachments, schedule origins and the inputs and outputs of tools are carried as JSON.
-/

namespace PiCloud
namespace Protocol

open Lib

inductive SessionState where
  | cold | idle | running | cancelling | failed
deriving DecidableEq

inductive AssistantMessagePhase where
  | commentary | finalAnswer
deriving DecidableEq

inductive TurnCancellationReason where
  | userRequest | timeout | sessionLeaseRevoked | shutdown
deriving DecidableEq

inductive InputKind where
  | prompt | compact
deriving DecidableEq

inductive SamplingOutcome where
  | completed | failed | aborted
deriving DecidableEq

inductive SamplingStopReason where
  | stop | length | toolUse | error | aborted
deriving DecidableEq

inductive HostedToolOutcome where
  | completed | failed
deriving DecidableEq

inductive ToolOutcome where
  | completed | failed | unknown
deriving DecidableEq

inductive CompactionReason where
  | manual | threshold | overflow
deriving DecidableEq

inductive CompactionOutcome where
  | completed | aborted | failed
deriving DecidableEq

inductive NotificationLevel where
  | info | warning | error
deriving DecidableEq

/-- `ModelSamplingIdentityProperties` -/
structure SamplingIdentity where
  stepSequence : Nat
  stepSha256 : JsString
  samplingAttempt : Nat
deriving DecidableEq

/-- The sampling step a tool event may name, field by field. -/
structure ToolStep where
  stepSequence : Option Nat := none
  stepSha256 : Option JsString := none
  samplingAttempt : Option Nat := none
deriving DecidableEq

structure SamplingRetry where
  stepSequence : Nat
  stepSha256 : JsString
  completedSamplingAttempt : Nat
  nextSamplingAttempt : Nat
  maximumSamplingAttempts : Nat
  delayMs : Nat
deriving DecidableEq

structure TextDelta where
  text : JsString
  messageId : Option JsString := none
  /-- the message identity a finished live text moves to -/
  settledMessageId : Option JsString := none
  replace : Option Bool := none
  phase : Option AssistantMessagePhase := none
deriving DecidableEq

structure UserInput where
  messageId : JsString
  inputId : JsString
  text : JsString
  uploads : Option Json := none

structure CompactionResult where
  reason : CompactionReason
  status : CompactionOutcome
  willRetry : Bool
  tokensBefore : Option Nat := none
  estimatedTokensAfter : Option Nat := none
  firstKeptEntryId : Option JsString := none
  summarySha256 : Option JsString := none
  summaryVersion : Option Nat := none
deriving DecidableEq

structure TurnFailure where
  code : JsString
  message : JsString
  retryable : Bool
deriving DecidableEq

structure TurnCancellation where
  reason : TurnCancellationReason
  forced : Bool
deriving DecidableEq

inductive EventBody where
  | turnStarted (inputKind : InputKind) (scheduledOrigin : Option Json)
  | sessionStateChanged (fromState toState : SessionState) (reason : Option JsString)
  | modelSamplingStarted (step : SamplingIdentity)
  | modelSamplingCompleted (step : SamplingIdentity) (outcome : SamplingOutcome)
      (stopReason : SamplingStopReason)
  | modelSamplingRetryScheduled (retry : SamplingRetry)
  | hostedToolStarted (activityId : JsString)
  | hostedToolCompleted (activityId : JsString) (outcome : HostedToolOutcome)
      (action : Option Json)
  | assistantTextDelta (delta : TextDelta)
  | userInput (input : UserInput)
  | toolCallPreparing (toolCallId toolName : JsString)
  | toolStarted (toolCallId toolName : JsString) (input : Json) (step : ToolStep)
  | toolCompleted (toolCallId : JsString) (outcome : ToolOutcome) (output : Option Json)
      (step : ToolStep)
  | contextCompactionStarted (reason : CompactionReason)
  | contextCompactionCompleted (result : CompactionResult)
  | uiNotification (message : JsString) (level : NotificationLevel)
  | turnCompleted (stopReason : JsString)
  | turnFailed (failure : TurnFailure)
  | turnCancelled (cancellation : TurnCancellation)

structure PiCloudEvent where
  eventId : JsString
  sessionId : JsString
  agentId : JsString
  turnId : Option JsString
  seq : Nat
  occurredAt : JsString
  body : EventBody

namespace EventBody

def isTerminal : EventBody → Bool
  | turnCompleted _ => true
  | turnFailed _ => true
  | turnCancelled _ => true
  | _ => false

end EventBody

end Protocol
end PiCloud
