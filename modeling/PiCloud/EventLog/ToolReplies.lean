import PiCloud.Lib.InsertionMap
import PiCloud.Lib.Run
import PiCloud.Protocol.ToolResult

/-!
# EventLog.ToolReplies

The mailbox of one Worker boot, in which Tool calls and probes wait for their replies.

* `ToolReplyMailbox`: the two maps of waits, the listeners on their signals, and what was settled.
* `finish`: takes a wait out of its map and off its signal, and settles it.
* `act`: `wait`, `waitProbe`, the abort of a signal, `accept` and `close`.
-/

namespace PiCloud
namespace EventLog

open Lib Protocol

/-- What a caller waits for, and the signal it gave. -/
inductive Ask where
  | tool (operationId toolCallId toolName : JsString) (signal : Nat)
  | probe (probeId bindingId : JsString) (signal : Nat)
deriving DecidableEq

def Ask.signal : Ask → Nat
  | .tool _ _ _ signal => signal
  | .probe _ _ signal => signal

/-- A place in one of the two maps. -/
inductive Place where
  | tool (operationId : JsString)
  | probe (key : JsString)
deriving DecidableEq

/-- A reply to a probe, or any other object that calls itself a Tool reply. -/
inductive WorkerReply where
  | executionProbe (probeId : JsString) (bindingIds : List JsString) (rest : Members)
  | tool (members : Members)

/-- How the promise of a wait settles: the first two resolve it. -/
inductive Settlement where
  | result (value : Field)
  | probed (reply : WorkerReply)
  | failed (failure : ToolExecutionFailureData)
  /-- The failure of the reply could not be read. -/
  | unreadable (error : String)
  /-- "Tool completion did not match the final reply protocol; …" -/
  | protocolError
  /-- "Tool reply identity/order changed" -/
  | identityChanged
  | aborted
  | closed

structure Pending where
  toolCallId : JsString
  toolName : JsString
  wait : Nat

/-- The listener `abort` of a wait. -/
structure Listener where
  signal : Nat
  place : Place
  wait : Nat
deriving DecidableEq

/-- Waits are numbered in the order of the calls. -/
structure ToolReplyMailbox where
  pending : InsertionMap JsString Pending
  probes : InsertionMap JsString Nat
  asks : List Ask
  listeners : List Listener
  /-- The signals that are aborted. -/
  aborted : List Nat
  /-- The calls of `resolve` and `reject`, in their order. -/
  settled : List (Nat × Settlement)
  /-- The waits whose `executionSettled` says so. -/
  executions : List Nat
  /-- The calls of `onExecutionEvidence`. -/
  evidence : List (JsString × Field)

namespace ToolReplyMailbox

def initial : ToolReplyMailbox where
  pending := {}
  probes := {}
  asks := []
  listeners := []
  aborted := []
  settled := []
  executions := []
  evidence := []

def probeKey (probeId bindingId : JsString) : JsString := probeId ++ ascii ":" ++ bindingId

/-- `delete` in the map of the place. -/
def delete (s : ToolReplyMailbox) : Place → ToolReplyMailbox
  | .tool operationId => { s with pending := s.pending.delete operationId }
  | .probe key => { s with probes := s.probes.delete key }

/-- Every way to settle a wait: `delete`, `cleanup` or `removeEventListener`, `resolve` or
`reject`. -/
def finish (s : ToolReplyMailbox) (place : Place) (wait : Nat) (outcome : Settlement) :
    ToolReplyMailbox :=
  let s := s.delete place
  { s with
    listeners := s.listeners.filter (·.wait ≠ wait)
    settled := s.settled ++ [(wait, outcome)] }

/-- `pending.settleExecution()` -/
def settleExecution (s : ToolReplyMailbox) (wait : Nat) : ToolReplyMailbox :=
  { s with executions := wait :: s.executions }

/-- `wait`; what it throws leaves everything as it is. -/
def wait (s : ToolReplyMailbox) (operationId toolCallId toolName : JsString) (signal : Nat) :
    ToolReplyMailbox :=
  if signal ∈ s.aborted then s
  else if (s.pending.get operationId).isSome then s
  else
    let wait := s.asks.length
    { s with
      pending := s.pending.set operationId ⟨toolCallId, toolName, wait⟩
      asks := s.asks ++ [.tool operationId toolCallId toolName signal]
      listeners := s.listeners ++ [⟨signal, .tool operationId, wait⟩] }

def waitProbe (s : ToolReplyMailbox) (probeId bindingId : JsString) (signal : Nat) :
    ToolReplyMailbox :=
  let key := probeKey probeId bindingId
  if signal ∈ s.aborted then s
  else if 1024 ≤ s.probes.size ∨ (s.probes.get key).isSome then s
  else
    let wait := s.asks.length
    { s with
      probes := s.probes.set key wait
      asks := s.asks ++ [.probe probeId bindingId signal]
      listeners := s.listeners ++ [⟨signal, .probe key, wait⟩] }

/-- A signal is aborted, and its listeners hear of it in the order in which they came. -/
def abort (s : ToolReplyMailbox) (signal : Nat) : ToolReplyMailbox :=
  if signal ∈ s.aborted then s
  else
    (s.listeners.filter (·.signal = signal)).foldl (fun s l => s.finish l.place l.wait .aborted)
      { s with aborted := signal :: s.aborted }

def identity (m : Members) : Field :=
  if isText (m.get "kind") "tool_result" then m.get "result" else some (.obj m)

/-- The reply is the first of this call, and of a kind that ends it. -/
def matches? (m : Members) (toolCallId toolName : JsString) : Bool :=
  isStr (at? (identity m) "toolCallId") toolCallId && isStr (at? (identity m) "toolName") toolName &&
    same (m.get "sequence") (some (.num 1)) &&
    (isText (m.get "kind") "execution_failure" || isText (m.get "kind") "tool_result")

/-- `accept`, for a pending call that the reply names. -/
def acceptTool (size : JsString → Nat) (s : ToolReplyMailbox) (m : Members) (operationId : JsString)
    (pending : Pending) : ToolReplyMailbox :=
  let finish := fun s => finish s (.tool operationId) pending.wait
  if !matches? m pending.toolCallId pending.toolName then finish s .identityChanged
  else if isText (m.get "kind") "execution_failure" then
    match parseToolExecutionFailure size (m.get "failure") with
    | .ok failure =>
      let s := if failure.effect = .notStarted then s.settleExecution pending.wait else s
      finish s (.failed failure)
    | .error error => finish s (.unreadable error)
  else
    match parsePackedToolResultPayload (m.get "result") with
    | .error _ => finish s .protocolError
    | .ok result =>
      let s := finish (s.settleExecution pending.wait) (.result result)
      if truthy (m.get "execution") then
        { s with evidence := s.evidence ++ [(operationId, m.get "execution")] }
      else s

/-- The body of the loop over `bindingIds`. -/
def acceptBinding (reply : WorkerReply) (probeId : JsString) (s : ToolReplyMailbox)
    (bindingId : JsString) : ToolReplyMailbox :=
  let key := probeKey probeId bindingId
  match s.probes.get key with
  | none => s
  | some wait => s.finish (.probe key) wait (.probed reply)

def accept (size : JsString → Nat) (s : ToolReplyMailbox) (reply : WorkerReply) :
    ToolReplyMailbox :=
  match reply with
  | .executionProbe probeId bindingIds _ => bindingIds.foldl (acceptBinding reply probeId) s
  | .tool m =>
    match m.get "operationId" with
    | some (.str operationId) =>
      match s.pending.get operationId with
      | none => s
      | some pending => acceptTool size s m operationId pending
    | _ => s

def close (s : ToolReplyMailbox) : ToolReplyMailbox :=
  let s := s.probes.entries.foldl (fun s e => s.finish (.probe e.1) e.2 .closed) s
  s.pending.entries.foldl (fun s e => s.finish (.tool e.1) e.2.wait .closed) s

inductive Action where
  | wait (operationId toolCallId toolName : JsString) (signal : Nat)
  | waitProbe (probeId bindingId : JsString) (signal : Nat)
  | abort (signal : Nat)
  | accept (reply : WorkerReply)
  | close

def act (size : JsString → Nat) (s : ToolReplyMailbox) : Action → ToolReplyMailbox
  | .wait operationId toolCallId toolName signal => s.wait operationId toolCallId toolName signal
  | .waitProbe probeId bindingId signal => s.waitProbe probeId bindingId signal
  | .abort signal => s.abort signal
  | .accept reply => s.accept size reply
  | .close => s.close

def mailboxes (size : JsString → Nat) : System ToolReplyMailbox Action where
  init s := s = .initial
  step s a t := t = act size s a

end ToolReplyMailbox

end EventLog
end PiCloud
