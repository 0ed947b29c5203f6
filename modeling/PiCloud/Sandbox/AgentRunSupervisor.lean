import PiCloud.Lib.InsertionMap

/-!
# Sandbox.AgentRunSupervisor

The supervisor of the Agent runs of one worker: what it has admitted, which assignment is the current one
of each session, and the owner it remembers of each family.

* `ExecuteTurnCommand`, `CancelTurnCommand`: the payloads of the commands.
* `Assignment`, `Cancellation`: an admitted execution, and a cancellation of one.
* `Supervisor.prepare`: the admission, with the texts of its refusals.
* `Supervisor.act`: one step between two suspensions. Its `log` records what has happened.
-/

namespace PiCloud
namespace Sandbox

open Lib

/-- A parsed execution reference. -/
structure ExecutionReference where
  leaseId : Nat
  runId : Nat
  fencingToken : Nat
deriving DecidableEq

structure PiSession where
  id : Nat
  conversationId : Nat
  writerId : Nat
deriving DecidableEq

structure Family where
  tenantId : Nat
  piSessionId : Nat
deriving DecidableEq

/-- `resume` tells a child continuation from other input; `content` is the rest of the payload. -/
structure ExecuteTurnCommand where
  tenantId : Nat
  projectId : Nat := 0
  workspaceId : Nat := 0
  sessionId : Nat
  turnId : Nat := 0
  agentId : Nat := 0
  piSession : PiSession
  runId : Nat
  executionReference : ExecutionReference
  nextEventSeq : Int := 1
  resume : Bool := false
  content : Nat := 0
deriving DecidableEq

structure CancelTurnCommand where
  tenantId : Nat
  projectId : Nat
  workspaceId : Nat
  sessionId : Nat
  turnId : Nat
  agentId : Nat
  runId : Nat
  targetRunId : Nat
  executionReference : ExecutionReference
  controlRequestId : Nat
  reason : Nat
  gracePeriodMs : Option Nat := none
deriving DecidableEq

def ExecuteTurnCommand.family (c : ExecuteTurnCommand) : Family where
  tenantId := c.tenantId
  piSessionId := c.piSession.id

def CancelTurnCommand.key (c : CancelTurnCommand) : ExecutionReference × Nat :=
  (c.executionReference, c.controlRequestId)

/-- What a runner ends with: `PiTurnCancelledError` carries its reason. -/
inductive RunOutcome where
  | completed
  | cancelled (reason : Nat)
  | failed
deriving DecidableEq

/-- `runPromise`: not there, the runner at work, its end not handled yet, handled, or settled. -/
inductive RunPromise where
  | idle
  | running
  | ended (outcome : RunOutcome)
  | handled (outcome : RunOutcome)
  | settled (outcome : RunOutcome)
deriving DecidableEq

inductive AssignmentState where
  | prepared
  | running
  | cancelling
  | completed
  | failed
  | cancelled
  | superseded
deriving DecidableEq

structure Assignment where
  command : ExecuteTurnCommand
  /-- `publishEvent` is there -/
  publishEvent : Bool := true
  aborted : Bool := false
  state : AssignmentState := .prepared
  settled : Bool := false
  runPromise : RunPromise := .idle
  lastProducedSeq : Int := command.nextEventSeq - 1
  lastAcknowledgedSeq : Int := command.nextEventSeq - 1

inductive CancellationState where
  | prepared
  | running
  | completed
  | failed
deriving DecidableEq

structure Cancellation where
  command : CancelTurnCommand
  assignment : Nat
  state : CancellationState := .prepared

/-- The owner that a family was last admitted with. `admission` is its object. -/
structure Owner where
  epoch : Nat
  leaseId : Nat
  writerId : Nat
  lastRunId : Nat
  admission : Nat
deriving DecidableEq

inductive RejectionCode where
  | staleSessionLease
  | invalidState
  | capacity
  | invalidCommand
  | unsupported
  | workerShutdown
deriving DecidableEq

structure Rejection where
  code : RejectionCode
  message : String
  retryable : Bool
deriving DecidableEq

inductive AckStatus where
  | accepted
  | duplicate
  | rejected (rejection : Rejection)
deriving DecidableEq

structure CommandAck where
  requestId : Nat
  sessionId : Nat
  turnId : Nat
  executionReference : ExecutionReference
  status : AckStatus
deriving DecidableEq

def ExecuteTurnCommand.ack (c : ExecuteTurnCommand) (status : AckStatus) : CommandAck where
  requestId := c.runId
  sessionId := c.sessionId
  turnId := c.turnId
  executionReference := c.executionReference
  status

def CancelTurnCommand.ack (c : CancelTurnCommand) (status : AckStatus) : CommandAck where
  requestId := c.controlRequestId
  sessionId := c.sessionId
  turnId := c.turnId
  executionReference := c.executionReference
  status

structure FamilyObservation where
  tenantId : Nat
  piSessionId : Nat
  leaseId : Nat
  writerId : Nat
  fencingToken : Nat

/-- A heartbeat, and when it was issued; an acknowledgement takes `started` away. -/
structure Heartbeat where
  messageId : Nat
  connectionId : Nat
  families : List FamilyObservation
  started : Option Int

structure LeaseRenewal where
  leaseId : Nat
  fencingToken : Nat
  validUntil : Int

structure LeaseDeferral where
  leaseId : Nat
  fencingToken : Nat

structure HeartbeatAck where
  acknowledgedMessageId : Nat
  connectionId : Nat
  sentAt : Int
  familyLeaseRenewals : List LeaseRenewal
  familyLeaseDeferrals : List LeaseDeferral

structure AppliedHeartbeatResult where
  renewedAssignments : Nat := 0
  revokedAssignments : Nat := 0
  revokedSessionIds : List Nat := []

structure RevokedSupervisorAssignments where
  releasedPreparations : Nat := 0
  releasedCancellations : Nat := 0
  revokedExecutions : Nat := 0

/-- A `reapSettled` that waits for the Run authority. -/
structure Reap where
  completed : List Nat
  owners : List (Family × Owner)

/-- What has happened. `settled` ends an assignment; `ended` is the end of its runner. -/
inductive Event where
  | admitted (i : Nat) (command : ExecuteTurnCommand)
  | started (i : Nat) (command : ExecuteTurnCommand)
  | published (i : Nat) (command : ExecuteTurnCommand) (seq : Int)
  | ended (i : Nat)
  | settled (i : Nat)
  /-- an execution is dropped, with the Runs that the authority reported retired -/
  | reaped (i : Nat) (command : ExecuteTurnCommand) (retired : List Nat)
  /-- the owner of a family is dropped -/
  | forgot (family : Family) (retired : List Nat)
  | retired
deriving DecidableEq

namespace Assignment

def revoke (a : Assignment) : Assignment :=
  if (a.state = .running ∨ a.state = .cancelling) ∧ a.aborted = false then
    { a with state := .cancelling, aborted := true }
  else a

/-- The handlers of a runner that has ended. A completion does not confirm a termination. -/
def handle (a : Assignment) (outcome : RunOutcome) : Assignment :=
  match outcome with
  | .completed =>
    if a.state = .cancelling then { a with runPromise := .handled .failed }
    else { a with state := .completed, runPromise := .handled .completed }
  | .cancelled reason =>
    if a.state = .cancelling then
      { a with state := .cancelled, runPromise := .handled (.cancelled reason) }
    else if a.state ≠ .superseded then
      { a with state := .failed, runPromise := .handled (.cancelled reason) }
    else { a with runPromise := .handled (.cancelled reason) }
  | .failed =>
    if a.state ≠ .superseded then { a with state := .failed, runPromise := .handled .failed }
    else { a with runPromise := .handled .failed }

end Assignment

def noCommand : ExecuteTurnCommand where
  tenantId := 0
  sessionId := 0
  piSession := { id := 0, conversationId := 0, writerId := 0 }
  runId := 0
  executionReference := { leaseId := 0, runId := 0, fencingToken := 0 }

def noCancellation : CancelTurnCommand where
  tenantId := 0
  projectId := 0
  workspaceId := 0
  sessionId := 0
  turnId := 0
  agentId := 0
  runId := 0
  targetRunId := 0
  executionReference := { leaseId := 0, runId := 0, fencingToken := 0 }
  controlRequestId := 0
  reason := 0

/-- Assignments and cancellations are cells; `fresh` and `nextCancellation` are the cells to come. -/
structure Supervisor where
  maxConcurrentSessions : Option Nat := none
  retiring : Bool := false
  assignments : Nat → Assignment := fun _ => { command := noCommand }
  fresh : Nat := 0
  cancellations : Nat → Cancellation := fun _ => { command := noCancellation, assignment := 0 }
  nextCancellation : Nat := 0
  currentBySession : InsertionMap Nat Nat := {}
  byExecution : InsertionMap ExecutionReference Nat := {}
  cancellationsByRequest : InsertionMap (ExecutionReference × Nat) Nat := {}
  highestEpochByFamily : InsertionMap Family Owner := {}
  heartbeats : List Heartbeat := []
  reaps : List Reap := []
  /-- events that a runner has published and that are not acknowledged yet -/
  publishing : List (Nat × Int) := []
  log : List Event := []

inductive Admission where
  | accepted
  | duplicate (i : Nat)
  | rejected (rejection : Rejection)

inductive SupervisorAction where
  | prepare (command : ExecuteTurnCommand)
  /-- `run` of a handle -/
  | run (i : Nat)
  | releaseBeforeStart (i : Nat)
  | revokeExecution (i : Nat)
  | runnerEnds (i : Nat) (outcome : RunOutcome)
  | handled (i : Nat)
  | settled (i : Nat)
  | publish (i : Nat) (executionReference : ExecutionReference) (seq : Int)
  /-- an event is acknowledged, or its delivery fails -/
  | acknowledged (j : Nat) (ok : Bool)
  | prepareCancellation (command : CancelTurnCommand)
  | runCancellation (k : Nat)
  | cancellationSettled (k : Nat)
  | releaseCancellation (k : Nat)
  | createHeartbeat (messageId connectionId : Nat) (now : Int)
  | acknowledgeHeartbeat (j : Nat) (ack : HeartbeatAck) (now : Int)
  | revokeAllAssignments
  | retire
  | reapSettled
  /-- the Run authority has answered, or could not be asked -/
  | retiredRuns (j : Nat) (retired : Option (List Nat))

namespace Supervisor

/-- The values of `currentBySession`, in the order of the map. -/
def currents (s : Supervisor) : List Nat := s.currentBySession.entries.map Prod.snd

def families (s : Supervisor) : List Family := s.currents.map fun i => (s.assignments i).command.family

def activeSessionCount (s : Supervisor) : Nat := s.families.dedup.length

def edit (s : Supervisor) (i : Nat) (f : Assignment → Assignment) : Supervisor :=
  { s with assignments := Function.update s.assignments i (f (s.assignments i)) }

def editCancellation (s : Supervisor) (k : Nat) (state : CancellationState) : Supervisor :=
  { s with
    cancellations := Function.update s.cancellations k { s.cancellations k with state := state } }

def isStaleExecution (s : Supervisor) (c : ExecuteTurnCommand) : Bool :=
  match s.highestEpochByFamily.get c.family with
  | none => false
  | some owner =>
    c.executionReference.fencingToken < owner.epoch ||
      (c.executionReference.fencingToken = owner.epoch &&
        (c.executionReference.leaseId ≠ owner.leaseId || c.piSession.writerId ≠ owner.writerId))

def highestGeneration (s : Supervisor) (family : Family) : Nat :=
  ((s.highestEpochByFamily.get family).map (·.epoch)).getD 0

/-! ### Assignments -/

/-- Takes an assignment out of `currentBySession`, if it is there. -/
def leave (s : Supervisor) (i : Nat) : InsertionMap Nat Nat :=
  if s.currentBySession.get (s.assignments i).command.sessionId = some i then
    s.currentBySession.delete (s.assignments i).command.sessionId
  else s.currentBySession

def releaseBeforeStart (s : Supervisor) (i : Nat) : Supervisor :=
  if (s.assignments i).state = .prepared then
    { s.edit i fun a => { a with publishEvent := false, state := .failed, settled := true } with
      currentBySession := s.leave i
      byExecution :=
        if s.byExecution.get (s.assignments i).command.executionReference = some i then
          s.byExecution.delete (s.assignments i).command.executionReference
        else s.byExecution
      log := s.log ++ [.settled i] }
  else s

def revokeExecution (s : Supervisor) (i : Nat) : Supervisor := s.edit i (·.revoke)

def run (s : Supervisor) (i : Nat) : Supervisor :=
  if (s.assignments i).runPromise ≠ .idle then s
  else if s.currentBySession.get (s.assignments i).command.sessionId ≠ some i ∨
      (s.assignments i).state ≠ .prepared then s
  else
    { s.edit i fun a => { a with state := .running, runPromise := .running } with
      log := s.log ++ [.started i (s.assignments i).command] }

def runnerEnds (s : Supervisor) (i : Nat) (outcome : RunOutcome) : Supervisor :=
  if (s.assignments i).runPromise = .running then
    { s.edit i fun a => { a with runPromise := .ended outcome } with log := s.log ++ [.ended i] }
  else s

def handled (s : Supervisor) (i : Nat) : Supervisor :=
  match (s.assignments i).runPromise with
  | .ended outcome => s.edit i (·.handle outcome)
  | _ => s

/-- The `finally` of a run. -/
def settle (s : Supervisor) (i : Nat) : Supervisor :=
  match (s.assignments i).runPromise with
  | .handled outcome =>
    { s.edit i fun a =>
        { a with publishEvent := false, settled := true, runPromise := .settled outcome } with
      currentBySession := s.leave i
      log := s.log ++ [.settled i] }
  | _ => s

/-- The callback that a runner publishes with, up to its wait for the acknowledgement. -/
def publish (s : Supervisor) (i : Nat) (reference : ExecutionReference) (seq : Int) : Supervisor :=
  let a := s.assignments i
  if a.runPromise = .idle then s
  else if s.currentBySession.get a.command.sessionId ≠ some i ∨
      (a.state ≠ .running ∧ a.state ≠ .cancelling) then s
  else if reference ≠ a.command.executionReference ∨ seq ≤ a.lastProducedSeq then s
  else if a.publishEvent then
    { s.edit i fun a => { a with lastProducedSeq := seq } with
      publishing := s.publishing ++ [(i, seq)]
      log := s.log ++ [.published i a.command seq] }
  else s.edit i fun a => { a with lastProducedSeq := seq }

def acknowledged (s : Supervisor) (j : Nat) (ok : Bool) : Supervisor :=
  match s.publishing[j]? with
  | none => s
  | some (i, seq) =>
    if ok then
      { s.edit i fun a => { a with lastAcknowledgedSeq := seq } with
        publishing := s.publishing.eraseIdx j }
    else { s with publishing := s.publishing.eraseIdx j }

/-! ### Admission -/

def admission (s : Supervisor) (c : ExecuteTurnCommand) : Admission :=
  let current := s.currentBySession.get c.sessionId
  let generation := c.executionReference.fencingToken
  if s.retiring then .rejected ⟨.workerShutdown, "Worker execution admission is closed", true⟩
  else if s.isStaleExecution c then
    .rejected ⟨.staleSessionLease, "Session lease is no longer current", false⟩
  else
    match s.byExecution.get c.executionReference with
    | some i =>
      if (s.assignments i).command ≠ c then
        .rejected ⟨.invalidCommand, "Command identity changed", false⟩
      else .duplicate i
    | none =>
      if c.resume then
        .rejected ⟨.unsupported, "Child continuation belongs to its active family", false⟩
      else if current = none ∧ c.family ∉ s.families ∧
          (s.maxConcurrentSessions.any fun m => m ≤ s.activeSessionCount) = true then
        .rejected ⟨.capacity, "Supervisor Session capacity is full", true⟩
      else if current = none ∧ generation = s.highestGeneration c.family ∧ c.family ∈ s.families then
        .rejected ⟨.capacity, "Session already has an active root work item", true⟩
      else if generation = s.highestGeneration c.family ∧
          (current.any fun i => (s.assignments i).state ∈
            [AssignmentState.prepared, .running, .cancelling]) = true then
        .rejected ⟨.capacity, "Lane already has an active task", true⟩
      else .accepted

/-- A prior assignment of the family of `c` gives way to a higher epoch. -/
def supersede (c : ExecuteTurnCommand) (s : Supervisor) (i : Nat) : Supervisor :=
  if (s.assignments i).command.family = c.family ∧
      (s.assignments i).command.executionReference.fencingToken <
        c.executionReference.fencingToken then
    if (s.assignments i).state = .prepared then s.releaseBeforeStart i
    else s.edit i fun a => { a.revoke with state := .superseded }
  else s

/-- The new assignment of an admitted command. -/
def assign (s : Supervisor) (c : ExecuteTurnCommand) : Supervisor :=
  { s with
    assignments := Function.update s.assignments s.fresh { command := c }
    fresh := s.fresh + 1
    highestEpochByFamily := s.highestEpochByFamily.set c.family
      { epoch := c.executionReference.fencingToken, leaseId := c.executionReference.leaseId,
        writerId := c.piSession.writerId, lastRunId := c.runId, admission := s.fresh }
    currentBySession := s.currentBySession.set c.sessionId s.fresh
    byExecution := s.byExecution.set c.executionReference s.fresh
    log := s.log ++ [.admitted s.fresh c] }

/-- The loop over the prior assignments, for a higher epoch. -/
def supersedePrior (s : Supervisor) (c : ExecuteTurnCommand) : Supervisor :=
  if s.highestGeneration c.family < c.executionReference.fencingToken then
    s.currents.foldl (supersede c) s
  else s

def accept (s : Supervisor) (c : ExecuteTurnCommand) : Supervisor :=
  match s.currentBySession.get c.sessionId with
  | none => (s.supersedePrior c).assign c
  | some current =>
    ((s.supersedePrior c).edit current fun a => { a with state := .superseded }).assign c

def prepare (s : Supervisor) (c : ExecuteTurnCommand) : Supervisor × CommandAck :=
  match s.admission c with
  | .accepted => (s.accept c, c.ack .accepted)
  | .duplicate i => (s, (s.assignments i).command.ack .duplicate)
  | .rejected rejection => (s, c.ack (.rejected rejection))

/-! ### Cancellations -/

/-- The cancellation names the target that it cancels. -/
def targets (c : CancelTurnCommand) (target : ExecuteTurnCommand) : Bool :=
  c.runId = c.targetRunId && c.targetRunId = target.runId && c.tenantId = target.tenantId &&
    c.projectId = target.projectId && c.workspaceId = target.workspaceId &&
    c.sessionId = target.sessionId && c.turnId = target.turnId && c.agentId = target.agentId &&
    c.executionReference = target.executionReference

def prepareCancellation (s : Supervisor) (c : CancelTurnCommand) : Supervisor × CommandAck :=
  let assignment := s.byExecution.get c.executionReference
  let current := s.currentBySession.get c.sessionId
  let duplicate := s.cancellationsByRequest.get c.key
  let known := assignment <|> duplicate.map fun k => (s.cancellations k).assignment
  let rejected (code : RejectionCode) (message : String) : Supervisor × CommandAck :=
    (s, c.ack (.rejected ⟨code, message, false⟩))
  let invalidState := rejected .invalidState "Target execution is not running"
  if (known.any fun i => s.isStaleExecution (s.assignments i).command) = true ∨ (known = none ∧
      (current.any fun i => (s.assignments i).command.executionReference ≠ c.executionReference)) then
    rejected .staleSessionLease "Cancellation execution is no longer current"
  else
    match duplicate with
    | some k =>
      if (s.cancellations k).command ≠ c then
        rejected .invalidCommand "Cancellation command identity changed"
      else (s, (s.cancellations k).command.ack .duplicate)
    | none =>
      match assignment with
      | none => invalidState
      | some i =>
        if current ≠ some i ∨ (s.assignments i).state ≠ .running ∨
            (s.assignments i).runPromise = .idle then invalidState
        else if targets c (s.assignments i).command then
          ({ s with
              cancellations := Function.update s.cancellations s.nextCancellation
                { command := c, assignment := i }
              nextCancellation := s.nextCancellation + 1
              cancellationsByRequest := s.cancellationsByRequest.set c.key s.nextCancellation },
            c.ack .accepted)
        else
          rejected .invalidCommand "Cancellation identity does not match its target assignment"

def runCancellation (s : Supervisor) (k : Nat) : Supervisor :=
  let i := (s.cancellations k).assignment
  if (s.cancellations k).state ≠ .prepared ∨ (s.assignments i).state ≠ .running ∨
      (s.assignments i).runPromise = .idle ∨
      s.currentBySession.get (s.assignments i).command.sessionId ≠ some i then s
  else
    (s.editCancellation k .running).edit i fun a => { a with state := .cancelling, aborted := true }

/-- A cancellation goes on after the run of its target. -/
def cancellationSettled (s : Supervisor) (k : Nat) : Supervisor :=
  if (s.cancellations k).state = .running then
    match (s.assignments (s.cancellations k).assignment).runPromise with
    | .settled (.cancelled reason) =>
      s.editCancellation k
        (if reason = (s.cancellations k).command.reason then .completed else .failed)
    | .settled _ => s.editCancellation k .failed
    | _ => s
  else s

def releaseCancellation (s : Supervisor) (k : Nat) : Supervisor :=
  if (s.cancellations k).state = .prepared then
    { s.editCancellation k .failed with
      cancellationsByRequest :=
        if s.cancellationsByRequest.get (s.cancellations k).command.key = some k then
          s.cancellationsByRequest.delete (s.cancellations k).command.key
        else s.cancellationsByRequest }
  else s

/-! ### Heartbeats, revocation and retirement -/

def observe (a : Assignment) : FamilyObservation where
  tenantId := a.command.tenantId
  piSessionId := a.command.piSession.id
  leaseId := a.command.executionReference.leaseId
  writerId := a.command.piSession.writerId
  fencingToken := a.command.executionReference.fencingToken

def createHeartbeat (s : Supervisor) (messageId connectionId : Nat) (now : Int) : Supervisor :=
  let observed := (s.currents.map s.assignments).filter fun a =>
    a.state = .running || a.state = .cancelling
  let families := observed.foldl
    (fun m a => m.set a.command.executionReference.leaseId (observe a))
    ({} : InsertionMap Nat FamilyObservation)
  { s with
    heartbeats := s.heartbeats ++
      [{ messageId, connectionId, families := families.entries.map Prod.snd, started := some now }] }

def Observed (families : List FamilyObservation) (leaseId : Nat) : Option FamilyObservation :=
  families.reverse.find? fun f => f.leaseId = leaseId

/-- `#assertHeartbeatRenewalScope`. -/
def inScope (heartbeat : Heartbeat) (ack : HeartbeatAck) : Bool :=
  (ack.familyLeaseRenewals.map (fun r => (r.leaseId, r.fencingToken)) ++
      ack.familyLeaseDeferrals.map fun d => (d.leaseId, d.fencingToken)).all fun r =>
    (Observed heartbeat.families r.1).any fun f => f.fencingToken = r.2

/-- What an acknowledgement does to one current assignment. -/
def acknowledgeFamily (heartbeat : Heartbeat) (ack : HeartbeatAck) (requestedAt now : Int)
    (r : Supervisor × AppliedHeartbeatResult) (i : Nat) : Supervisor × AppliedHeartbeatResult :=
  let command := (r.1.assignments i).command
  let reference := command.executionReference
  match Observed heartbeat.families reference.leaseId with
  | none => r
  | some sent =>
    if sent.fencingToken ≠ reference.fencingToken then r
    else if ack.familyLeaseDeferrals.any fun d => d.leaseId = reference.leaseId then r
    else if (ack.familyLeaseRenewals.reverse.find? fun l => l.leaseId = reference.leaseId).any
        fun renewal => renewal.fencingToken = reference.fencingToken &&
          now < requestedAt + renewal.validUntil - ack.sentAt then
      (r.1, { r.2 with renewedAssignments := r.2.renewedAssignments + 1 })
    else
      (r.1.revokeExecution i,
        { r.2 with
          revokedAssignments := r.2.revokedAssignments + 1
          revokedSessionIds := r.2.revokedSessionIds ++ [command.sessionId] })

def applyHeartbeatAcknowledgement (s : Supervisor) (j : Nat) (ack : HeartbeatAck) (now : Int) :
    Except String (Supervisor × AppliedHeartbeatResult) :=
  match s.heartbeats[j]? with
  | none => .error "Heartbeat was not issued by this runtime"
  | some heartbeat =>
    if ack.acknowledgedMessageId ≠ heartbeat.messageId ∨
        ack.connectionId ≠ heartbeat.connectionId then
      .error "Heartbeat acknowledgement identity did not match"
    else if inScope heartbeat ack = false then
      .error "Heartbeat acknowledgement renewed an unobserved assignment"
    else if heartbeat.families = [] then .ok (s, {})
    else
      match heartbeat.started with
      | none => .error "Heartbeat was not issued by this runtime"
      | some requestedAt =>
        let taken := { s with heartbeats := s.heartbeats.set j { heartbeat with started := none } }
        .ok (s.currents.foldl (acknowledgeFamily heartbeat ack requestedAt now) (taken, {}))

def revokeCancellation (r : Supervisor × RevokedSupervisorAssignments) (k : Nat) :
    Supervisor × RevokedSupervisorAssignments :=
  if (r.1.cancellations k).state ≠ .prepared then r
  else
    (r.1.releaseCancellation k,
      { r.2 with releasedCancellations := r.2.releasedCancellations + 1 })

def revokeAssignment (r : Supervisor × RevokedSupervisorAssignments) (i : Nat) :
    Supervisor × RevokedSupervisorAssignments :=
  if (r.1.assignments i).state = .prepared then
    (r.1.releaseBeforeStart i, { r.2 with releasedPreparations := r.2.releasedPreparations + 1 })
  else if (r.1.assignments i).state = .running ∨ (r.1.assignments i).state = .cancelling then
    (r.1.revokeExecution i, { r.2 with revokedExecutions := r.2.revokedExecutions + 1 })
  else r

def revokeAllAssignments (s : Supervisor) : Supervisor × RevokedSupervisorAssignments :=
  s.currents.foldl revokeAssignment
    ((s.cancellationsByRequest.entries.map Prod.snd).foldl revokeCancellation (s, {}))

def retire (s : Supervisor) : Supervisor × RevokedSupervisorAssignments :=
  let revoked := { s with retiring := true }.revokeAllAssignments
  ({ revoked.1 with log := revoked.1.log ++ [Event.retired] }, revoked.2)

/-! ### Reaping -/

def reapSettled (s : Supervisor) : Supervisor :=
  let completed := (s.byExecution.entries.map Prod.snd).filter fun i => (s.assignments i).settled
  let owners := s.highestEpochByFamily.entries
  if completed = [] ∧ owners = [] then s
  else { s with reaps := s.reaps ++ [{ completed, owners }] }

/-- An execution is dropped if its Run is retired or a later owner fences it. -/
def reapExecution (retired : List Nat) (r : Supervisor × List Nat) (i : Nat) :
    Supervisor × List Nat :=
  let command := (r.1.assignments i).command
  if (command.runId ∉ retired ∧ r.1.isStaleExecution command = false) ∨
      r.1.byExecution.get command.executionReference ≠ some i then r
  else
    ({ r.1 with
        byExecution := r.1.byExecution.delete command.executionReference
        log := r.1.log ++ [.reaped i command retired] },
      r.2 ++ [i])

def reapCancellation (removed : List Nat) (s : Supervisor) (e : (ExecutionReference × Nat) × Nat) :
    Supervisor :=
  if (s.cancellations e.2).assignment ∈ removed then
    { s with cancellationsByRequest := s.cancellationsByRequest.delete e.1 }
  else s

def retainedFamilies (s : Supervisor) : List Family :=
  (s.byExecution.entries.map Prod.snd).map fun i => (s.assignments i).command.family

def reapOwner (retired : List Nat) (retained : List Family) (s : Supervisor) (e : Family × Owner) :
    Supervisor :=
  if e.2.lastRunId ∈ retired ∧ e.1 ∉ retained ∧ s.highestEpochByFamily.get e.1 = some e.2 then
    { s with
      highestEpochByFamily := s.highestEpochByFamily.delete e.1
      log := s.log ++ [.forgot e.1 retired] }
  else s

/-- `reapSettled` goes on with the answer of the Run authority. -/
def reap (s : Supervisor) (r : Reap) (retired : List Nat) : Supervisor :=
  let reaped := r.completed.foldl (reapExecution retired) (s, [])
  let pruned := reaped.1.cancellationsByRequest.entries.foldl (reapCancellation reaped.2) reaped.1
  r.owners.foldl (reapOwner retired pruned.retainedFamilies) pruned

def retiredRuns (s : Supervisor) (j : Nat) (retired : Option (List Nat)) : Supervisor :=
  match s.reaps[j]? with
  | none => s
  | some r =>
    match retired with
    | none => { s with reaps := s.reaps.eraseIdx j }
    | some retired => { s with reaps := s.reaps.eraseIdx j }.reap r retired

def withHandle (s : Supervisor) (i : Nat) (f : Supervisor → Nat → Supervisor) : Supervisor :=
  if i < s.fresh then f s i else s

def act (s : Supervisor) : SupervisorAction → Supervisor
  | .prepare command => (s.prepare command).1
  | .run i => s.withHandle i run
  | .releaseBeforeStart i => s.withHandle i releaseBeforeStart
  | .revokeExecution i => s.withHandle i revokeExecution
  | .runnerEnds i outcome => s.withHandle i fun s i => s.runnerEnds i outcome
  | .handled i => s.withHandle i handled
  | .settled i => s.withHandle i settle
  | .publish i reference seq => s.withHandle i fun s i => s.publish i reference seq
  | .acknowledged j ok => s.acknowledged j ok
  | .prepareCancellation command => (s.prepareCancellation command).1
  | .runCancellation k => s.runCancellation k
  | .cancellationSettled k => s.cancellationSettled k
  | .releaseCancellation k => s.releaseCancellation k
  | .createHeartbeat messageId connectionId now => s.createHeartbeat messageId connectionId now
  | .acknowledgeHeartbeat j ack now =>
    match s.applyHeartbeatAcknowledgement j ack now with
    | .error _ => s
    | .ok r => r.1
  | .revokeAllAssignments => s.revokeAllAssignments.1
  | .retire => s.retire.1
  | .reapSettled => s.reapSettled
  | .retiredRuns j retired => s.retiredRuns j retired

def runs (s : Supervisor) (actions : List SupervisorAction) : Supervisor := actions.foldl act s

end Supervisor

end Sandbox
end PiCloud
