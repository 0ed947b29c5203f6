import PiCloud.Lib.KeyIndex
import PiCloud.Lib.Run
import PiCloud.Runtime.EventSubscription

/-!
# Runtime.RunObservations

`RunObservations` of `run-observations.ts`: which runs are active, as the records of the projector
say, and what is reported of them to the readers of their sessions.

* `record`, `activity`, `executionTargets`, `execution`, `sweep`, `reset`: the calls.
* `Op`, `apply`: one call with the readings of the clock that it makes.
* `observing`: the runs of the component under its projector.
-/

namespace PiCloud
namespace Runtime

open Lib Protocol

structure RuntimeObservationScope where
  tenantId : JsString
  sessionId : JsString
  turnId : JsString
  runId : JsString
  piSessionId : JsString
  writerId : JsString
  fencingToken : Nat
deriving DecidableEq

def observationKey (scope : RuntimeObservationScope) : JsString :=
  scope.writerId ++ ascii ":" ++ scope.runId ++ ascii ":" ++ scope.sessionId

/-! ## What is observed -/

structure RunActivityParent where
  sessionId : JsString
  turnId : JsString
  toolCallId : JsString

structure RunActivityDelivery where
  scope : RuntimeObservationScope
  parent : Option RunActivityParent := none
  partition : Nat
  revision : Nat
  observedAt : Nat
  lastActivityAt : Nat
  phase : RunPhase

structure ProbeBinding where
  bindingId : JsString
  scope : RuntimeObservationScope
  probe : Bool

inductive PathState where
  | notApplicable | pending | confirmed | unavailable
deriving DecidableEq

inductive PathStage where
  | projector | cube | worker
deriving DecidableEq

structure ExecutionPathStatus where
  status : PathState
  stage : PathStage
  bindingId : Option JsString := none
  targetId : Option JsString := none
  confirmedAt : Option Nat := none
  sentAt : Int

namespace ExecutionPathStatus

def statusText : PathState → String
  | .notApplicable => "not_applicable"
  | .pending => "pending"
  | .confirmed => "confirmed"
  | .unavailable => "unavailable"

def stageText : PathStage → String
  | .projector => "projector"
  | .cube => "cube"
  | .worker => "worker"

def toJson (v : ExecutionPathStatus) : Json :=
  .obj ([(ascii "status", Json.str (ascii (statusText v.status))),
    (ascii "stage", .str (ascii (stageText v.stage)))]
    ++ v.bindingId.toList.map (fun id => (ascii "bindingId", Json.str id))
    ++ [(ascii "sentAt", Json.num v.sentAt)]
    ++ v.confirmedAt.toList.map (fun t => (ascii "confirmedAt", Json.num t))
    ++ v.targetId.toList.map (fun id => (ascii "targetId", Json.str id)))

end ExecutionPathStatus

/-- What a record reports, as far as it is looked at. -/
inductive ObservedFact where
  | executionSeal
  | workFinished
  | pathProbe
  | agentEvent (event : EventBody)
  | other

namespace ObservedFact

/-- How a turn that this fact ends has ended. -/
def ended? : ObservedFact → Option ChildState
  | agentEvent (.turnCompleted _) => some .completed
  | agentEvent (.turnFailed _) => some .failed
  | agentEvent (.turnCancelled _) => some .cancelled
  | _ => none

end ObservedFact

structure ObservedRecord where
  fact : ObservedFact
  scope : RuntimeObservationScope
  /-- `Date.parse(fact.occurredAt)`, where that is a date -/
  occurredAt : Option Int
  partition : Nat
  offset : Nat

/-! ## The state -/

structure Active where
  scope : RuntimeObservationScope
  partition : Nat
  revision : Nat := 0
  activityAt : Nat := 0
  pathAt : Nat := 0
  touched : Nat
  executionRevision : Nat := 0
  execution : Option ExecutionPathStatus := none
  parent : Option RunActivityParent := none
  /-- the how-manyth entry this is -/
  admission : Nat

namespace Active

def writerId (a : Active) : JsString := a.scope.writerId

/-- An observation of this run, for the readers of a turn of a session. -/
def observation (a : Active) (sessionId turnId : JsString) (body : RunObservationBody) :
    RunObservation where
  sessionId
  turnId
  runId := a.scope.runId
  generation := a.scope.fencingToken
  body

end Active

/-- A call of the `SessionEventHub`. An observation also names the entry and the writer it is of. -/
inductive HubCall where
  | publishObservation (tenantId : JsString) (observation : RunObservation) (admission : Nat)
      (writerId : JsString)
  | resyncSession (tenantId sessionId : JsString)

def staleMs : Nat := 45000

/-- `#fresh` -/
def fresh (time : Int) (now : Nat) : Bool := time ≤ now + 5000 && (now : Int) - staleMs ≤ time

def capacityOfRuns : Nat := 65536

structure RunObservations where
  runs : InsertionMap JsString Active := {}
  families : InsertionMap JsString (List JsString) := {}
  positions : InsertionMap Nat Nat := {}
  /-- the calls of the hub, oldest first -/
  hub : List HubCall := []
  /-- how many entries were ever made -/
  admissions : Nat := 0
  /-- the writers whose seal was recorded -/
  sealed : List JsString := []
  /-- the writers whose work is finished, and of which no open record came after that -/
  finished : List JsString := []

namespace RunObservations

variable (o : RunObservations)

def family (writerId : JsString) : List JsString := (o.families.get writerId).getD []

def put (key : JsString) (a : Active) : RunObservations := { o with runs := o.runs.set key a }

def publish (active : Active) (sessionId turnId : JsString) (body : RunObservationBody) :
    RunObservations :=
  { o with hub := o.hub ++ [.publishObservation active.scope.tenantId
      (active.observation sessionId turnId body) active.admission active.writerId] }

def resyncOf (resync : Bool) (active : Active) : List HubCall :=
  if resync then [.resyncSession active.scope.tenantId active.scope.sessionId] else []

def remove (id : JsString) (resync : Bool) : RunObservations :=
  match o.runs.get id with
  | none => o
  | some active => { o with
      runs := o.runs.delete id
      hub := o.hub ++ resyncOf resync active
      families := o.families.leave active.writerId id }

def reset : RunObservations := { o with runs := {}, families := {}, positions := {} }

/-! ## Activity -/

def childActivity (active : Active) (revision observedAt lastActivityAt : Nat) (phase : RunPhase)
    (state : ChildState) : RunObservations :=
  match active.parent with
  | none => o
  | some parent =>
    if parent.sessionId = active.scope.sessionId then o
    else match o.runs.get (observationKey { active.scope with sessionId := parent.sessionId }) with
      | none => o
      | some target =>
        if target.scope.tenantId ≠ active.scope.tenantId ∨ target.scope.turnId ≠ parent.turnId ∨
            target.scope.piSessionId ≠ active.scope.piSessionId then o
        else o.publish active parent.sessionId parent.turnId
          (.childActivity state active.scope.sessionId active.scope.turnId parent.toolCallId revision
            observedAt lastActivityAt phase)

def activity (delivery : RunActivityDelivery) (now : Nat) : RunObservations :=
  match o.runs.get (observationKey delivery.scope) with
  | none => o
  | some active =>
    if active.partition ≠ delivery.partition ∨ active.scope ≠ delivery.scope ∨
        delivery.revision ≤ active.revision ∨ !fresh delivery.observedAt now ∨
        delivery.observedAt < delivery.lastActivityAt ∨
        delivery.lastActivityAt < active.activityAt then o
    else
      let active := { active with
        revision := delivery.revision
        activityAt := delivery.lastActivityAt
        touched := now
        parent := delivery.parent.or active.parent }
      ((o.put (observationKey delivery.scope) active).publish active active.scope.sessionId
        active.scope.turnId (.activity delivery.revision delivery.observedAt delivery.lastActivityAt
          delivery.phase)).childActivity active delivery.revision delivery.observedAt
            delivery.lastActivityAt delivery.phase .running

/-! ## The path to a VM -/

/-- The fields that an older status of the same path still has to say. -/
def inherit (old : Option ExecutionPathStatus) (value : ExecutionPathStatus) : ExecutionPathStatus :=
  let same := value.bindingId.any (fun id => id ≠ []) && old.any fun old =>
    old.bindingId = value.bindingId &&
      (value.targetId.all (fun id => id = []) || old.targetId.all (fun id => id = []) ||
        old.targetId = value.targetId)
  { value with
    confirmedAt := value.confirmedAt.or (if same then old.bind fun old => old.confirmedAt else none)
    targetId := value.targetId.or (if same then old.bind fun old => old.targetId else none) }

def outdated (old : Option ExecutionPathStatus) (value : ExecutionPathStatus) : Bool :=
  old.any fun old => value.sentAt < old.sentAt ||
    (value.sentAt = old.sentAt && old.stage = .worker && value.stage ≠ .worker)

def execution (scope : RuntimeObservationScope) (value : ExecutionPathStatus) (now : Nat) :
    RunObservations :=
  match o.runs.get (observationKey scope) with
  | none => o
  | some active =>
    if active.scope ≠ scope ∨ !fresh value.sentAt now then o
    else if outdated active.execution value then o
    else
      let status := inherit active.execution value
      let active := { active with
        execution := some status
        executionRevision := active.executionRevision + 1
        touched := now }
      (o.put (observationKey scope) active).publish active scope.sessionId scope.turnId
        (.execution active.executionRevision now status.toJson)

/-- One round of the loop of `executionTargets`. -/
def executionTarget (bindings : List ProbeBinding) (sentAt : Int) (key : JsString) (now : Nat) :
    RunObservations :=
  match o.runs.get key with
  | none => o
  | some active =>
    match bindings.find? fun b => b.scope = active.scope with
    | none => o.execution active.scope { status := .notApplicable, stage := .projector, sentAt } now
    | some binding =>
      if binding.probe ∨ active.execution.bind (fun e => e.bindingId) ≠ some binding.bindingId then
        o.execution active.scope
          { status := .pending, stage := .projector, bindingId := some binding.bindingId, sentAt } now
      else o

def executionTargets (writerId : JsString) (bindings : List ProbeBinding) (sentAt : Int)
    (clock : Nat → Nat) : RunObservations :=
  (o.family writerId).zipIdx.foldl
    (fun o e => o.executionTarget bindings sentAt e.1 (clock e.2)) o

/-! ## Records -/

/-- A new entry; the oldest one goes where there are too many. -/
def admitRun (record : ObservedRecord) (touched : Nat) : RunObservations :=
  let key := observationKey record.scope
  let o := { o with
    runs := o.runs.set key
      { scope := record.scope, partition := record.partition, touched, admission := o.admissions }
    families := o.families.join record.scope.writerId key
    admissions := o.admissions + 1 }
  if capacityOfRuns < o.runs.size then
    match o.runs.entries.head? with
    | none => o
    | some e => o.remove e.1 true
  else o

/-- One physical probe of a session is evidence for all its active lanes. -/
def path (sentAt : Int) (now : Nat) (key : JsString) : RunObservations :=
  match o.runs.get key with
  | none => o
  | some target =>
    if sentAt ≤ target.pathAt then o
    else if sentAt - target.pathAt < 1000 then o
    else
      let target := { target with pathAt := sentAt.toNat, touched := now }
      (o.put key target).publish target target.scope.sessionId target.scope.turnId
        (.path sentAt.toNat now)

def paths (writerId : JsString) (sentAt : Int) (now : Nat) : RunObservations :=
  (o.family writerId).foldl (fun o key => o.path sentAt now key) o

def readTo (partition offset : Nat) : RunObservations :=
  { o with positions := o.positions.set partition offset }

/-- What an open record does with the entry of its run. -/
def observe (record : ObservedRecord) (active : Active) (touched now : Nat) : RunObservations :=
  let o := o.put (observationKey record.scope) { active with touched }
  if (o.positions.get record.partition).any fun previous => record.offset ≤ previous then o
  else
    let o := o.readTo record.partition record.offset
    match record.occurredAt with
    | none => o
    | some sentAt => if fresh sentAt now then o.paths record.scope.writerId sentAt now else o

def removeFamily (writerId : JsString) : RunObservations :=
  (o.family writerId).foldl (fun o id => o.remove id false) o

/-- The end of a turn, or a record of a run that is not open. -/
def closeRun (record : ObservedRecord) (clock : Nat → Nat) : RunObservations :=
  let key := observationKey record.scope
  let told := match o.runs.get key, record.fact.ended? with
    | some ended, some state =>
      o.childActivity ended (ended.revision + 1) (clock 0) (clock 1) .settling state
    | _, _ => o
  told.remove key false

def recordOpen (record : ObservedRecord) (clock : Nat → Nat) : RunObservations :=
  let o := { o with finished := o.finished.filter fun w => w ≠ record.scope.writerId }
  let key := observationKey record.scope
  match o.runs.get key, record.fact with
  | some active, _ => o.observe record active (clock 1) (clock 2)
  | none, .pathProbe => o
  | none, _ =>
    let o := o.admitRun record (clock 0)
    match o.runs.get key with
    | some active => o.observe record active (clock 1) (clock 2)
    | none => o

def record (record : ObservedRecord) (isOpen : Bool) (clock : Nat → Nat) : RunObservations :=
  match record.fact with
  | .executionSeal =>
    { o.removeFamily record.scope.writerId with sealed := record.scope.writerId :: o.sealed }
  | .workFinished =>
    { o.removeFamily record.scope.writerId with finished := record.scope.writerId :: o.finished }
  | fact =>
    if !isOpen || fact.ended?.isSome then o.closeRun record clock else o.recordOpen record clock

/-! ## Sweeping -/

/-- One round of the loop of `sweep`. -/
def sweepOne (e : JsString × Active) (now : Nat) : RunObservations :=
  if e.2.touched + 300000 < now then o.remove e.1 true else o

def sweep (clock : Nat → Nat) : RunObservations :=
  o.runs.entries.zipIdx.foldl (fun o e => o.sweepOne e.1 (clock e.2)) o

def isActive (scope : RuntimeObservationScope) (partition : Option Nat) : Bool :=
  match o.runs.get (observationKey scope) with
  | none => false
  | some active => partition.all (fun p => active.partition = p) && active.scope = scope

end RunObservations

/-! ## Runs -/

/-- A call, with what the clock says at each place that reads it. -/
inductive ObservationOp where
  | record (record : ObservedRecord) (isOpen : Bool) (clock : Nat → Nat)
  | activity (delivery : RunActivityDelivery) (now : Nat)
  | executionTargets (writerId : JsString) (bindings : List ProbeBinding) (sentAt : Int)
      (clock : Nat → Nat)
  | execution (scope : RuntimeObservationScope) (value : ExecutionPathStatus) (now : Nat)
  | sweep (clock : Nat → Nat)
  | reset

namespace ObservationOp

/-- The projector reports no record of a sealed writer as open: `observes` of its boundary. -/
def Promised (o : RunObservations) : ObservationOp → Prop
  | record r isOpen _ => isOpen = true → r.scope.writerId ∉ o.sealed
  | _ => True

/-- The calls that end the observation of a run. -/
def Closes (key : JsString) (a : Active) : ObservationOp → Prop
  | record r isOpen _ =>
    ((r.fact = .executionSeal ∨ r.fact = .workFinished) ∧ r.scope.writerId = a.writerId) ∨
      (observationKey r.scope = key ∧ (isOpen = false ∨ r.fact.ended?.isSome = true))
  | reset => True
  | _ => False

end ObservationOp

namespace RunObservations

def apply (o : RunObservations) : ObservationOp → RunObservations
  | .record r isOpen clock => o.record r isOpen clock
  | .activity delivery now => o.activity delivery now
  | .executionTargets writerId bindings sentAt clock =>
    o.executionTargets writerId bindings sentAt clock
  | .execution scope value now => o.execution scope value now
  | .sweep clock => o.sweep clock
  | .reset => o.reset

def observing : System RunObservations ObservationOp where
  init o := o = {}
  step o op o' := op.Promised o ∧ o' = o.apply op

end RunObservations
end Runtime
end PiCloud
