import PiCloud.Lib.Table

/-!
# Control.SupervisorStore

The rows of one supervisor host and its boots, and the transactions' common parts.

* `Db`: hosts, workers, boot credentials, connections, retirements and session leases.
* `transitionWorker`: the worker states that may follow one another.
* `fenceSandbox`: closes the connections of a worker, fails it and leaves its retirement.
* `canRetainBoot`, `expireLockedConnection`: a boot that may outlive a transport.
-/

namespace PiCloud
namespace Supervisor

open Lib (Table)

abbrev Time := Nat

inductive WorkerState where
  | provisioning | ready | draining | failed | terminated
deriving DecidableEq

def workerTransitions : WorkerState → List WorkerState
  | .provisioning => [.ready, .failed, .terminated]
  | .ready => [.draining, .failed]
  | .draining => [.terminated, .failed]
  | .failed => [.terminated]
  | .terminated => []

/-- `none` is the `DomainTransitionError`. -/
def transitionWorker (source target : WorkerState) : Option WorkerState :=
  if target ∈ workerTransitions source then some target else none

def WorkerState.Stopped (state : WorkerState) : Prop := state = .failed ∨ state = .terminated

instance (state : WorkerState) : Decidable state.Stopped := inferInstanceAs (Decidable (_ ∨ _))

structure HostRow where
  maximumCapacity : Option Nat
  managementBaseUrl : Nat
deriving DecidableEq

structure WorkerRow where
  supervisorId : Nat
  bootId : Nat
  state : WorkerState
  maxConcurrentSessions : Option Nat
deriving DecidableEq

structure CredentialRow where
  credentialSha256 : Nat
  provisionRequestId : Nat
  workerId : Nat
  supervisorId : Nat
  bootId : Nat
  createdAt : Time
  expiresAt : Time
  revokedAt : Option Time
deriving DecidableEq

inductive RetirementReason where
  | heartbeatTimeout | newBoot | workerFailed
deriving DecidableEq

/-- `state`, `close_reason` and `closed_at`, which one check constraint ties together. -/
inductive ConnectionState where
  | active
  | superseded (closedAt : Time)
  | expired (closedAt : Time)
  | fenced (reason : RetirementReason) (closedAt : Time)
deriving DecidableEq

def ConnectionState.isExpired : ConnectionState → Bool
  | .expired _ => true
  | _ => false

structure ConnectionRow where
  transportId : Nat
  registrationMessageId : Nat
  registeredMessageId : Nat
  workerId : Nat
  supervisorId : Nat
  bootId : Nat
  controlPlaneInstanceId : Nat
  state : ConnectionState
  registrationFingerprint : Nat
  heartbeatIntervalMs : Nat
  heartbeatTimeoutMs : Nat
  acceptingAssignments : Bool
  registeredAt : Time
  lastHeartbeatAt : Time
  expiresAt : Time
deriving DecidableEq

/-- `state` with the columns of a claim and `completed_at`, which one check constraint ties
together. -/
inductive RetirementState where
  | pending
  | claimed (claimId claimOwnerId : Nat) (claimUntil : Time)
  | blocked
  | completed (completedAt : Time)
deriving DecidableEq

structure RetirementRow where
  supervisorId : Nat
  bootId : Nat
  reason : RetirementReason
  state : RetirementState
  attempts : Nat
  availableAt : Time
  lastError : Option Nat
  createdAt : Time
deriving DecidableEq

structure LeaseRow where
  workerId : Nat
  releasedAt : Option Time
  validUntil : Time
  renewedAt : Time
deriving DecidableEq

structure Db where
  hosts : Table Nat HostRow
  workers : Table Nat WorkerRow
  credentials : Table Nat CredentialRow
  connections : Table Nat ConnectionRow
  retirements : Table Nat RetirementRow
  leases : Table Nat LeaseRow
  /-- The workers that were fenced, newest first: a history that nothing reads. -/
  fences : List Nat

/-- The answers of `clock_timestamp()` to one transaction, in the order it asks. -/
structure Readings where
  now : Time
  authorized : Time
  retained : Time
  fresh : Time
  write : Time

namespace Db

/-- Closes the active connections of a worker: `update supervisor_connections … where
worker_id = … and state = 'active'`. -/
def closeConnections (db : Db) (workerId : Nat) (reason : RetirementReason) (now : Time) : Db :=
  { db with connections := db.connections.mapRows fun _ c =>
      if c.workerId = workerId ∧ c.state = .active then { c with state := .fenced reason now }
      else c }

def setWorker (db : Db) (workerId : Nat) (w : WorkerRow) : Db :=
  { db with workers := db.workers.set workerId w }

def setRetirement (db : Db) (workerId : Nat) (r : RetirementRow) : Db :=
  { db with retirements := db.retirements.set workerId r }

def setConnection (db : Db) (connectionId : Nat) (c : ConnectionRow) : Db :=
  { db with connections := db.connections.set connectionId c }

/-- `insert into worker_retirements … on conflict do nothing`. -/
def admitRetirement (db : Db) (workerId : Nat) (w : WorkerRow) (reason : RetirementReason)
    (now : Time) : Db :=
  match db.retirements.get workerId with
  | some _ => db
  | none => db.setRetirement workerId
      { supervisorId := w.supervisorId, bootId := w.bootId, reason, state := .pending,
        attempts := 0, availableAt := now, lastError := none, createdAt := now }

/-- `#fenceSandbox` of a worker whose locked row is `w`. -/
def fenceSandbox (db : Db) (workerId : Nat) (w : WorkerRow) (reason : RetirementReason)
    (now : Time) : Option Db :=
  let closed := { db.closeConnections workerId reason now with fences := workerId :: db.fences }
  if w.state = .terminated then some closed
  else if w.state = .failed then some (closed.admitRetirement workerId w reason now)
  else do
    let state ← transitionWorker w.state .failed
    some ((closed.setWorker workerId { w with state }).admitRetirement workerId w reason now)

/-- `#bootAuthorized`. -/
def bootAuthorized (db : Db) (workerId : Nat) (w : WorkerRow) (clock : Time) : Bool :=
  db.credentials.entries.any fun e =>
    e.2.workerId = workerId ∧ e.2.supervisorId = w.supervisorId ∧ e.2.bootId = w.bootId ∧
      e.2.revokedAt = none ∧ clock < e.2.expiresAt

/-- `#hasFreshExecution`. -/
def hasFreshExecution (db : Db) (heartbeatTimeoutMs workerId : Nat) (clock : Time) : Bool :=
  db.leases.entries.any fun e =>
    e.2.workerId = workerId ∧ e.2.releasedAt = none ∧ clock < e.2.validUntil ∧
      clock < e.2.renewedAt + heartbeatTimeoutMs

/-- `#canRetainBoot`. -/
def canRetainBoot (db : Db) (heartbeatTimeoutMs workerId : Nat) (w : WorkerRow)
    (r : Readings) : Bool :=
  w.state = .ready && db.bootAuthorized workerId w r.retained &&
    (db.retirements.get workerId).isNone &&
    (db.hasFreshExecution heartbeatTimeoutMs workerId r.fresh ||
      !(db.leases.entries.any fun e => e.2.workerId = workerId ∧ e.2.releasedAt = none))

/-- `#expireLockedConnection`: whether the boot is retained, and what the transaction leaves. -/
def expireLockedConnection (db : Db) (heartbeatTimeoutMs workerId : Nat) (w : WorkerRow)
    (connectionId : Nat) (r : Readings) : Option (Bool × Db) :=
  if db.canRetainBoot heartbeatTimeoutMs workerId w r then
    match db.connections.get connectionId with
    | some c =>
      if c.state = .active then
        some (true, db.setConnection connectionId { c with state := .expired r.now })
      else none
    | none => none
  else do
    let fenced ← db.fenceSandbox workerId w .heartbeatTimeout r.now
    some (false, fenced)

end Db

end Supervisor
end PiCloud
