import PiCloud.Lib.Run
import PiCloud.Lib.Table

/-!
# Runtime.SessionQuarantine

The session row and its Runs as the operations of the control plane and of the Kafka projector
read and write them: input acceptance, admission, failure, cancellation, recovery, seal and
work-finished projection, exit confirmation and prune. Each operation is one transaction; `none`
is a transaction that throws and rolls back.

* `Run`, `Lane`: a Run row, and a session row with its Runs.
* `laneDependenciesReady`, `advanceLaneReadiness`: when a queued Run may start.
* `recoverQuarantinedSession`: the guarded way out of `failed`.
* `Op`, `Lane.apply`, `Db.step`: the operations.
-/

namespace PiCloud
namespace Runtime
namespace Quarantine

open Lib

inductive SessionState where
  | cold | idle | running | cancelling | failed
  deriving DecidableEq, Repr

inductive RunState where
  | queued | running | settling | cancelRequested | completed | failed | cancelled | timedOut
  deriving DecidableEq, Repr

def sessionTransitions : SessionState → List SessionState
  | .cold => [.running]
  | .idle => [.running, .failed]
  | .running => [.idle, .cancelling, .failed]
  | .cancelling => [.idle, .failed]
  | .failed => [.idle]

def runTransitions : RunState → List RunState
  | .queued => [.running, .cancelRequested, .failed, .cancelled]
  | .running => [.queued, .settling, .cancelRequested, .completed, .failed, .timedOut]
  | .settling => [.queued, .cancelRequested, .completed, .failed, .timedOut]
  | .cancelRequested => [.queued, .completed, .cancelled, .failed, .timedOut]
  | .completed | .failed | .cancelled | .timedOut => []

def transitionSession (before after : SessionState) : Option SessionState :=
  if after ∈ sessionTransitions before then some after else none

def transitionRun (before after : RunState) : Option RunState :=
  if after ∈ runTransitions before then some after else none

/-- The state that `transitionLockedRun` writes. -/
def transitionLockedRun (before after : RunState) : Option RunState :=
  if before = after then some before else transitionRun before after

def isTerminalRunState (s : RunState) : Bool :=
  s = .completed || s = .failed || s = .cancelled || s = .timedOut

/-- The states of `runs_one_active_lane`. -/
def RunState.active (s : RunState) : Bool :=
  s = .running || s = .settling || s = .cancelRequested

/-- The event that ends a turn. A failure keeps whether its code is a timeout. -/
inductive Terminal where
  | completed
  | failed (timedOut : Bool)
  | cancelled
  deriving DecidableEq, Repr

inductive SealBody where
  | recover
  | terminal (event : Terminal)
  deriving DecidableEq, Repr

/-- The seal queued under `output_seal_id`. -/
structure SealFact where
  factId : Nat
  body : SealBody
  deriving DecidableEq, Repr

structure Run where
  mailboxPosition : Nat
  state : RunState := .queued
  readyAt : Bool := false
  startedAt : Bool := false
  leaseId : Option Nat := none
  executionReleasedAt : Bool := false
  recoveryRequestedAt : Bool := false
  outputSeal : Option SealFact := none
  outputSealedAt : Bool := false
  agentExitedAt : Bool := false
  prunedAt : Bool := false
  /-- a chat input that no schedule sent: the pending inputs a user may edit -/
  chat : Bool := true
  deriving DecidableEq, Repr

namespace Run

def pendingSeal (r : Run) : Bool := r.outputSeal.isSome && !r.outputSealedAt

def begun (r : Run) : Bool := r.startedAt || r.leaseId.isSome

/-- `active_execution_scopes`: the lease is the Run's and its scope is not released. -/
def currentGrant (r : Run) (lease : Nat) : Bool :=
  r.leaseId = some lease && !r.executionReleasedAt

def editable (r : Run) : Bool :=
  r.chat && r.state = .queued && r.leaseId.isNone && !r.startedAt

/-- The columns that the recovery of a Run clears. -/
def requeued (r : Run) (state : RunState) : Run :=
  { r with
    state, leaseId := none, executionReleasedAt := false, agentExitedAt := false
    outputSeal := none, outputSealedAt := false, readyAt := false }

end Run

inductive SessionKind where
  | conversation | subagent
  deriving DecidableEq, Repr

structure Lane where
  state : SessionState := .cold
  kind : SessionKind := .conversation
  prunedAt : Bool := false
  nextMailboxPosition : Nat := 1
  runs : Table Nat Run := .empty
  /-- a native task that is not terminal, or a submission that is not consumed -/
  pendingNative : Bool := false
  /-- ghost: the Run whose failure moved the session to `failed` last; no operation reads it -/
  failing : Option Nat := none

namespace Lane

variable (l : Lane)

def setRun (run : Nat) (r : Run) : Lane := { l with runs := l.runs.set run r }

def laneDependenciesReady (mailbox : Nat) : Bool :=
  (l.state = .cold || l.state = .idle) && !l.prunedAt &&
    l.runs.rows.all (fun prior => !decide (prior.mailboxPosition < mailbox) ||
      (isTerminalRunState prior.state && !prior.recoveryRequestedAt)) &&
    l.runs.rows.all (fun prior => !prior.pendingSeal)

def advanceLaneReadiness : Lane :=
  { l with runs := l.runs.mapRows fun _ c =>
      if c.state = .queued && !c.readyAt && l.laneDependenciesReady c.mailboxPosition then
        { c with readyAt := true }
      else c }

/-- The Run that a recovery was called for has exit and seal, and no later execution began. -/
def exitConfirmed (run : Nat) : Bool :=
  match l.runs.get run with
  | some r => (r.state = .failed || r.state = .timedOut || r.state = .cancelled) &&
      r.agentExitedAt && r.outputSealedAt &&
      l.runs.rows.all fun later =>
        !decide (r.mailboxPosition < later.mailboxPosition) || !later.begun
  | none => false

def recoverQuarantinedSession (run : Nat) : Lane :=
  if l.state = .failed && !l.prunedAt && l.exitConfirmed run &&
      l.runs.rows.all (fun r => !r.state.active) && l.runs.rows.all (fun r => !r.pendingSeal) then
    advanceLaneReadiness { l with state := .idle }
  else l

end Lane

/-- A seal already requested stays as it is. -/
def requestExecutionStreamSeal (r : Run) (factId : Nat) (body : SealBody) : Option Run :=
  if r.leaseId.isNone then none
  else match r.outputSeal with
    | some _ => some r
    | none => some { r with
        outputSeal := some { factId, body }
        recoveryRequestedAt := r.recoveryRequestedAt || body = .recover }

/-- The operations on one session. The columns of a lease that no field here names (worker,
validity, fencing token) decide only whether an operation runs. -/
inductive LaneOp where
  | acceptInput (run : Nat) (chat : Bool)
  /-- `#mutateInitial`: the input and the neighbour it changes places with -/
  | moveInput (run other : Nat)
  | cancelInput (run : Nat)
  /-- `cancelTurn` on a Run that has never owned a writer -/
  | cancelTurn (run : Nat)
  | claim (run lease : Nat)
  /-- the projection of a native commit -/
  | projectNative (run writer : Nat) (pending : Bool)
  | recordFailure (run lease factId : Nat) (timedOut quarantineSession : Bool)
  | requestRecovery (run lease factId : Nat)
  /-- the assignment reconciler, on an expired or abandoned lease -/
  | reconcile (run lease factId : Nat)
  | markStarted (run lease : Nat)
  /-- `#recordFailure` of an acknowledged cancellation -/
  | cancellationFailed (run lease factId : Nat)
  | projectSeal (run writer factId : Nat) (writerSealed : Bool)
  | workFinished (run writer : Nat) (terminal : Terminal)
  | confirmAgentExit (run lease : Nat)
  | recover (run : Nat)
  /-- the mailbox position of the completed final entry to keep -/
  | prune (anchor : Nat)
  deriving DecidableEq, Repr

namespace Lane

variable (l : Lane)

/-- `TURN_ACCEPTING_SESSION_STATES` excludes a failed session. -/
def acceptInput (run : Nat) (chat : Bool) : Option Lane := do
  guard (!l.prunedAt && l.state ≠ .failed && (l.runs.get run).isNone)
  some { l with
    nextMailboxPosition := l.nextMailboxPosition + 1
    runs := l.runs.set run {
      mailboxPosition := l.nextMailboxPosition
      readyAt := l.laneDependenciesReady l.nextMailboxPosition
      chat } }

def moveInput (run other : Nat) : Option Lane := do
  let r ← l.runs.get run
  let o ← l.runs.get other
  guard (r.editable && o.editable && !o.prunedAt && run ≠ other)
  -- `rows[at - 1]` or `rows[at + 1]`: no pending input lies between the two
  guard (l.runs.rows.all fun q => !q.editable || q.prunedAt ||
    (!(decide (r.mailboxPosition < q.mailboxPosition) && decide (q.mailboxPosition < o.mailboxPosition)) &&
      !(decide (o.mailboxPosition < q.mailboxPosition) && decide (q.mailboxPosition < r.mailboxPosition))))
  some (advanceLaneReadiness ((l.setRun run
      { r with mailboxPosition := o.mailboxPosition, readyAt := false }).setRun other
      { o with mailboxPosition := r.mailboxPosition, readyAt := false }))

def cancelInput (run : Nat) : Option Lane := do
  let r ← l.runs.get run
  guard r.editable
  some (advanceLaneReadiness (l.setRun run { r with state := .cancelled, readyAt := false }))

def cancelTurn (run : Nat) : Option Lane := do
  let r ← l.runs.get run
  guard (!r.chat && r.state = .queued && r.leaseId.isNone && !r.startedAt && !r.recoveryRequestedAt)
  some (advanceLaneReadiness (l.setRun run { r with state := .cancelled, readyAt := false }))

/-- `#claimNext` and `#startAdmittedRun`. -/
def claim (run lease : Nat) : Option Lane := do
  let r ← l.runs.get run
  guard (r.state = .queued && r.readyAt && r.leaseId.isNone && l.kind = .conversation)
  guard (l.state = .cold || l.state = .idle)
  some { l.setRun run { r with
      state := .running, readyAt := false, startedAt := true, recoveryRequestedAt := false
      leaseId := some lease } with state := .running }

def projectNative (run writer : Nat) (pending : Bool) : Option Lane := do
  let r ← l.runs.get run
  guard (r.leaseId = some writer && !r.outputSealedAt)
  some { l with pendingNative := pending }

def recordFailure (run lease factId : Nat) (timedOut quarantineSession : Bool) : Option Lane := do
  let r ← l.runs.get run
  guard (r.state = .running && r.currentGrant lease)
  let state ← transitionLockedRun r.state (if timedOut then .timedOut else .failed)
  let sealed ← requestExecutionStreamSeal { r with state } factId (.terminal (.failed timedOut))
  guard (l.state = .running)
  let next ← transitionSession l.state (if quarantineSession then .failed else .idle)
  some { l.setRun run { sealed with executionReleasedAt := true } with
    state := next
    failing := if quarantineSession then some run else l.failing }

def requestRecovery (run lease factId : Nat) : Option Lane := do
  let r ← l.runs.get run
  if r.leaseId ≠ some lease || (r.outputSealedAt && isTerminalRunState r.state) ||
      r.outputSeal.isSome then
    some l
  else
    guard (r.currentGrant lease)
    let sealed ← requestExecutionStreamSeal r factId .recover
    some (l.setRun run { sealed with executionReleasedAt := true })

def reconcile (run lease factId : Nat) : Option Lane := do
  let r ← l.runs.get run
  guard (r.currentGrant lease)
  if r.state.active then
    guard (l.state = .running || l.state = .cancelling)
    let sealed ← requestExecutionStreamSeal r factId .recover
    some (l.setRun run { sealed with executionReleasedAt := true })
  else
    guard (!(l.state = .running || l.state = .cancelling))
    some (l.setRun run { r with executionReleasedAt := true })

def markStarted (run lease : Nat) : Option Lane := do
  let r ← l.runs.get run
  guard (r.state = .running && l.state = .running && r.currentGrant lease)
  let state ← transitionLockedRun r.state .cancelRequested
  let next ← transitionSession l.state .cancelling
  some { l.setRun run { r with state } with state := next }

def cancellationFailed (run lease factId : Nat) : Option Lane := do
  let r ← l.runs.get run
  guard (r.state = .cancelRequested && l.state = .cancelling)
  let state ← transitionLockedRun r.state .failed
  let next ← transitionSession l.state .failed
  let sealed ← requestExecutionStreamSeal { r with state } factId (.terminal (.failed false))
  guard (r.currentGrant lease)
  some { l.setRun run { sealed with executionReleasedAt := true } with
    state := next, failing := some run }

/-- `#seal`. -/
def projectSeal (run writer factId : Nat) (writerSealed : Bool) : Option Lane := do
  let r ← l.runs.get run
  if r.leaseId ≠ some writer && writerSealed then some l
  else
    let fact ← r.outputSeal
    guard (fact.factId = factId)
    if r.outputSealedAt then some l
    else
      let r := if r.leaseId = some writer then { r with executionReleasedAt := true } else r
      match fact.body with
      | .recover =>
        let state ← transitionLockedRun r.state .queued
        some (advanceLaneReadiness
          { l.setRun run (r.requeued state) with state := .idle })
      | .terminal event =>
        let l := l.setRun run { r with outputSealedAt := true }
        let l := match event with
          | .failed _ => l.recoverQuarantinedSession run
          | _ => l
        some l.advanceLaneReadiness

def terminalState : Terminal → RunState
  | .completed => .completed
  | .cancelled => .cancelled
  | .failed true => .timedOut
  | .failed false => .failed

/-- A native abort is recorded as a requested cancellation first. -/
def requestedFirst (state target : RunState) : Option RunState :=
  if target = .cancelled && state ≠ .cancelRequested then
    transitionLockedRun state .cancelRequested
  else some state

def finishWorkIn (run : Nat) (r : Run) (terminal : Terminal) : Option Lane := do
  if isTerminalRunState r.state then
    -- the other decision keeps its pending seal; only the exit is recorded
    some (l.setRun run { r with agentExitedAt := true, executionReleasedAt := true })
  else
    let current ← requestedFirst r.state (terminalState terminal)
    let state ← transitionLockedRun current (terminalState terminal)
    some (advanceLaneReadiness { l.setRun run { r with
        state, outputSealedAt := true, executionReleasedAt := true, agentExitedAt := true
        recoveryRequestedAt := false } with state := .idle })

/-- `#finishWork`. -/
def workFinished (run writer : Nat) (terminal : Terminal) : Option Lane := do
  let r ← l.runs.get run
  if r.leaseId ≠ some writer || r.outputSealedAt then some l
  else l.finishWorkIn run r terminal

def confirmAgentExit (run lease : Nat) : Option Lane := do
  let r ← l.runs.get run
  if r.leaseId ≠ some lease then some l
  else some ((l.setRun run { r with agentExitedAt := true }).recoverQuarantinedSession run)

def prune (anchor : Nat) : Option Lane := do
  guard (!l.prunedAt && l.kind = .conversation)
  guard (l.state = .cold || l.state = .idle || l.state = .failed)
  guard (l.runs.rows.all fun r => r.prunedAt || !(r.state = .queued || r.state.active))
  guard (l.runs.rows.all fun r => !r.pendingSeal)
  guard (!l.pendingNative)
  some { l with
    state := .idle
    runs := l.runs.mapRows fun _ r =>
      if anchor < r.mailboxPosition then { r with prunedAt := true } else r }

def apply : LaneOp → Option Lane
  | .acceptInput run chat => l.acceptInput run chat
  | .moveInput run other => l.moveInput run other
  | .cancelInput run => l.cancelInput run
  | .cancelTurn run => l.cancelTurn run
  | .claim run lease => l.claim run lease
  | .projectNative run writer pending => l.projectNative run writer pending
  | .recordFailure run lease factId timedOut q => l.recordFailure run lease factId timedOut q
  | .requestRecovery run lease factId => l.requestRecovery run lease factId
  | .reconcile run lease factId => l.reconcile run lease factId
  | .markStarted run lease => l.markStarted run lease
  | .cancellationFailed run lease factId => l.cancellationFailed run lease factId
  | .projectSeal run writer factId writerSealed => l.projectSeal run writer factId writerSealed
  | .workFinished run writer terminal => l.workFinished run writer terminal
  | .confirmAgentExit run lease => l.confirmAgentExit run lease
  | .recover run => some (l.recoverQuarantinedSession run)
  | .prune anchor => l.prune anchor

end Lane

inductive Op where
  /-- a new conversation, fork or subagent session; a fork continues its source's positions -/
  | create (session : Nat) (kind : SessionKind) (nextMailboxPosition : Nat)
  | on (session : Nat) (op : LaneOp)
  /-- the subagent sessions that a prune of their parent hides -/
  | hide (sessions : List Nat)
  deriving DecidableEq, Repr

abbrev Db : Type := Table Nat Lane

def Db.step (db : Db) : Op → Option Db
  | .create session kind nextMailboxPosition => do
    guard (db.get session).isNone
    some (db.set session { kind, nextMailboxPosition })
  | .on session op => do
    let l ← db.get session
    let l' ← l.apply op
    some (db.set session l')
  | .hide sessions => some (db.mapRows fun session l =>
      if session ∈ sessions then { l with prunedAt := true } else l)

end Quarantine
end Runtime
end PiCloud
