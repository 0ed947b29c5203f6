import PiCloud.Control.SupervisorStore

/-!
# Control.SupervisorRegistration

The transactions that give a host a boot and a boot its connections.

* `provision`: a host's next boot, its worker and its one credential.
* `register`: a transport of the current boot, replayed, reconnecting or first.
* `heartbeat`, `staleConnection`: an active connection lives longer, another is answered.
* `expireConnection`, `admitFailedWorker`: one candidate of a sweep.

A transaction that throws is `none` and leaves nothing.
-/

namespace PiCloud
namespace Supervisor

open Lib (Table)

/-! ## Provisioning -/

structure BootConfig where
  /-- The identifier and the management route are inside deployment policy. -/
  allowed : Nat → Nat → Bool
  maximumCapacity : Option Nat
  credentialTtlMs : Nat

structure ProvisionRequest where
  requestId : Nat
  supervisorId : Nat
  bootId : Nat
  sandboxId : Nat
  credentialId : Nat
  credentialSha256 : Nat
  maxConcurrentSessions : Option Nat
  managementBaseUrl : Nat

structure Provisioned where
  credentialId : Nat
  expiresAt : Time
  idempotent : Bool
deriving DecidableEq

/-- The deployment policy, which no transaction sees. -/
def provisionAllowed (cfg : BootConfig) (q : ProvisionRequest) : Bool :=
  cfg.allowed q.supervisorId q.managementBaseUrl &&
    match cfg.maximumCapacity, q.maxConcurrentSessions with
    | none, _ => true
    | some _, none => false
    | some most, some n => n ≤ most

def findConflict (db : Db) (q : ProvisionRequest) : Option (Nat × CredentialRow) :=
  db.credentials.entries.find? fun e =>
    e.1 = q.credentialId ∨ e.2.provisionRequestId = q.requestId ∨ e.2.workerId = q.sandboxId ∨
      (e.2.supervisorId = q.supervisorId ∧ e.2.bootId = q.bootId)

def sameProvision (q : ProvisionRequest) (credentialId : Nat) (c : CredentialRow)
    (worker : Option WorkerRow) (host : HostRow) : Bool :=
  credentialId = q.credentialId ∧ c.credentialSha256 = q.credentialSha256 ∧
    c.provisionRequestId = q.requestId ∧ c.workerId = q.sandboxId ∧
    c.supervisorId = q.supervisorId ∧ c.bootId = q.bootId ∧
    worker.map WorkerRow.maxConcurrentSessions = some q.maxConcurrentSessions ∧
    host.managementBaseUrl = q.managementBaseUrl

def revokeCredentials (db : Db) (supervisorId : Nat) (now : Time) : Db :=
  { db with credentials := db.credentials.mapRows fun _ c =>
      if c.supervisorId = supervisorId ∧ c.revokedAt = none then { c with revokedAt := some now }
      else c }

def setHost (db : Db) (supervisorId : Nat) (h : HostRow) : Db :=
  { db with hosts := db.hosts.set supervisorId h }

/-- The row of a worker that was provisioned and has not registered. -/
def ProvisionRequest.worker (q : ProvisionRequest) : WorkerRow where
  supervisorId := q.supervisorId
  bootId := q.bootId
  state := .provisioning
  maxConcurrentSessions := q.maxConcurrentSessions

def ProvisionRequest.credential (q : ProvisionRequest) (now expiresAt : Time) :
    CredentialRow where
  credentialSha256 := q.credentialSha256
  provisionRequestId := q.requestId
  workerId := q.sandboxId
  supervisorId := q.supervisorId
  bootId := q.bootId
  createdAt := now
  expiresAt := expiresAt
  revokedAt := none

def insertCredential (db : Db) (q : ProvisionRequest) (now expiresAt : Time) : Db :=
  { db with credentials := db.credentials.set q.credentialId (q.credential now expiresAt) }

/-- `now` is the clock of the provisioner, not of the database. -/
def provision (cfg : BootConfig) (db : Db) (q : ProvisionRequest) (now : Time) :
    Option (Provisioned × Db) := do
  guard (provisionAllowed cfg q)
  let expiresAt := now + cfg.credentialTtlMs
  let host := (db.hosts.get q.supervisorId).getD ⟨cfg.maximumCapacity, q.managementBaseUrl⟩
  guard (host.managementBaseUrl = q.managementBaseUrl)
  let hosted := setHost db q.supervisorId { host with maximumCapacity := cfg.maximumCapacity }
  match findConflict hosted q with
  | some (credentialId, c) =>
    guard (sameProvision q credentialId c (hosted.workers.get c.workerId) host)
    guard (c.revokedAt = none ∧ now < c.expiresAt)
    some (⟨credentialId, c.expiresAt, true⟩, hosted)
  | none =>
    -- the unique columns of `workers` and of the credentials, and the check of a revocation
    guard (hosted.workers.get q.sandboxId = none)
    guard (hosted.credentials.entries.all fun e => e.2.credentialSha256 ≠ q.credentialSha256)
    guard (hosted.credentials.entries.all fun e =>
      e.2.supervisorId = q.supervisorId → e.2.revokedAt = none → e.2.createdAt ≤ now)
    let revoked := revokeCredentials (hosted.setWorker q.sandboxId q.worker) q.supervisorId now
    some (⟨q.credentialId, expiresAt, false⟩, insertCredential revoked q now expiresAt)

/-! ## Registration -/

structure ManagerConfig where
  expectedSupervisorVersion : Nat
  expectedPiPackageName : Nat
  expectedPiVersion : Nat
  requiredCapabilities : List Nat
  heartbeatIntervalMs : Nat
  heartbeatTimeoutMs : Nat
  retirementRetryDelayMs : Nat
  retirementClaimDurationMs : Nat

/-- What the upgrade authorized of a transport. -/
structure Authority where
  supervisorId : Nat
  bootId : Nat
  sandboxId : Nat
  transportId : Nat

structure RegisterMessage where
  messageId : Nat
  supervisorId : Nat
  bootId : Nat
  sandboxId : Nat
  supervisorVersion : Nat
  piPackageName : Nat
  piVersion : Nat
  supportedProtocolVersions : List Nat
  capabilities : List Nat
  acceptingAssignments : Bool
  maxConcurrentSessions : Option Nat
  /-- `registrationFingerprint` of the message. -/
  fingerprint : Nat

inductive RejectionCode where
  | unauthorizedSandbox | bootIdentityCollision | capacityMismatch | sandboxUnavailable
  | bootUnavailable | registrationConflict | staleRegistration | registrationReplay
  | registrationInvariant
deriving DecidableEq

structure Rejection where
  code : RejectionCode
  message : String
  retryable : Bool
deriving DecidableEq

inductive Registration where
  | accepted (connectionId : Nat) (c : ConnectionRow)
  | rejected (r : Rejection)
deriving DecidableEq

def validateAuthority (a : Authority) (supervisorId bootId sandboxId : Nat) : Bool :=
  a.supervisorId = supervisorId ∧ a.bootId = bootId ∧ a.sandboxId = sandboxId

def validateRegistrationPolicy (cfg : ManagerConfig) (m : RegisterMessage) : Bool :=
  m.supervisorVersion = cfg.expectedSupervisorVersion ∧
    m.piPackageName = cfg.expectedPiPackageName ∧ m.piVersion = cfg.expectedPiVersion ∧
    1 ∈ m.supportedProtocolVersions ∧ ∀ c ∈ cfg.requiredCapabilities, c ∈ m.capabilities

/-- `#registrationRejection`: the transaction commits what it has done so far. -/
def reject (db : Db) (code : RejectionCode) (message : String) (retryable : Bool) :
    Option (Registration × Db) :=
  some (.rejected ⟨code, message, retryable⟩, db)

def Db.workersOf (db : Db) (supervisorId : Nat) : List (Nat × WorkerRow) :=
  db.workers.entries.filter fun e => e.2.supervisorId = supervisorId

def Db.connectionsOf (db : Db) (supervisorId : Nat) : List (Nat × ConnectionRow) :=
  db.connections.entries.filter fun e =>
    (db.workersOf supervisorId).any fun w => w.1 = e.2.workerId

def Db.history (db : Db) (workerId : Nat) : List (Nat × ConnectionRow) :=
  db.connections.entries.filter fun e => e.2.workerId = workerId

def Db.activeOf (db : Db) (workerId : Nat) : Option (Nat × ConnectionRow) :=
  (db.history workerId).find? fun e => e.2.state = .active

/-- Fences every worker of `workers` but the current one and those that are terminated. -/
def fenceOthers (current : Nat) (now : Time) : List (Nat × WorkerRow) → Db → Option Db
  | [], db => some db
  | (id, w) :: workers, db =>
    if id = current ∨ w.state = .terminated then fenceOthers current now workers db
    else do
      let fenced ← db.fenceSandbox id w .newBoot now
      fenceOthers current now workers fenced

/-- The connection that takes the place of the current one gets `superseded`. -/
def supersede (db : Db) (now : Time) : Option (Nat × ConnectionRow) → Option Db
  | none => some db
  | some (id, _) =>
    match db.connections.get id with
    | some c =>
      if c.state = .active then
        some (db.setConnection id { c with state := .superseded now })
      else none
    | none => none

def makeReady (db : Db) (workerId : Nat) (w : WorkerRow) : Option Db :=
  if w.state = .provisioning then do
    let state ← transitionWorker w.state .ready
    some (db.setWorker workerId { w with state })
  else some db

def newConnection (cfg : ManagerConfig) (instanceId : Nat) (m : RegisterMessage) (a : Authority)
    (registeredMessageId : Nat) (write : Time) : ConnectionRow where
  transportId := a.transportId
  registrationMessageId := m.messageId
  registeredMessageId := registeredMessageId
  workerId := a.sandboxId
  supervisorId := a.supervisorId
  bootId := a.bootId
  controlPlaneInstanceId := instanceId
  state := .active
  registrationFingerprint := m.fingerprint
  heartbeatIntervalMs := cfg.heartbeatIntervalMs
  heartbeatTimeoutMs := cfg.heartbeatTimeoutMs
  acceptingAssignments := m.acceptingAssignments
  registeredAt := write
  lastHeartbeatAt := write
  expiresAt := write + cfg.heartbeatTimeoutMs

/-- The identifiers that one registration draws. -/
structure Drawn where
  connectionId : Nat
  registeredMessageId : Nat

/-- The unique columns of `supervisor_connections`. Its index on the active rows of a worker is left
out: no insertion ever meets it. -/
def insertConnection (db : Db) (connectionId : Nat) (c : ConnectionRow) : Option Db := do
  guard (db.connections.get connectionId = none)
  guard (db.connections.entries.all fun e =>
    e.2.transportId ≠ c.transportId ∧ e.2.registrationMessageId ≠ c.registrationMessageId ∧
      e.2.registeredMessageId ≠ c.registeredMessageId)
  some (db.setConnection connectionId c)

/-- The end of an accepted registration: `active` is the connection that is superseded. -/
def connect (cfg : ManagerConfig) (instanceId : Nat) (db : Db) (m : RegisterMessage)
    (a : Authority) (r : Readings) (ids : Drawn) (current : WorkerRow)
    (active : Option (Nat × ConnectionRow)) : Option (Registration × Db) := do
  guard (validateRegistrationPolicy cfg m)
  let fenced ← fenceOthers a.sandboxId r.now (db.workersOf a.supervisorId) db
  let alone ← supersede fenced r.now active
  let opened ← makeReady alone a.sandboxId current
  let c := newConnection cfg instanceId m a ids.registeredMessageId r.write
  let connected ← insertConnection opened ids.connectionId c
  some (.accepted ids.connectionId c, connected)

/-- A transport that has registered before. -/
def registerReplay (cfg : ManagerConfig) (instanceId : Nat) (db : Db) (m : RegisterMessage)
    (a : Authority) (r : Readings) (current : WorkerRow) (connectionId : Nat)
    (c : ConnectionRow) : Option (Registration × Db) :=
  if c.registrationMessageId ≠ m.messageId ∨ c.registrationFingerprint ≠ m.fingerprint ∨
      c.supervisorId ≠ a.supervisorId ∨ c.bootId ≠ a.bootId ∨ c.workerId ≠ a.sandboxId ∨
      c.controlPlaneInstanceId ≠ instanceId then
    reject db .registrationConflict "Transport registration identity changed" false
  else if c.state = .active ∧ r.now < c.expiresAt then
    some (.accepted connectionId c, db)
  else if c.state = .active then do
    let (retained, expired) ←
      db.expireLockedConnection cfg.heartbeatTimeoutMs a.sandboxId current connectionId r
    reject expired .staleRegistration "Expired transport must reconnect" retained
  else
    reject db .staleRegistration "Supervisor registration is no longer current"
      (c.state.isExpired && (db.activeOf a.sandboxId).isNone &&
        db.canRetainBoot cfg.heartbeatTimeoutMs a.sandboxId current r)

/-- A transport that has not registered before. -/
def registerNew (cfg : ManagerConfig) (instanceId : Nat) (db : Db) (m : RegisterMessage)
    (a : Authority) (r : Readings) (ids : Drawn) (current : WorkerRow) :
    Option (Registration × Db) :=
  if current.state = .provisioning ∧ db.history a.sandboxId ≠ [] then
    reject db .registrationInvariant "Provisioning sandbox already has connection history" false
  else
    match db.activeOf a.sandboxId with
    | none =>
      if current.state = .ready ∧ db.history a.sandboxId ≠ [] ∧
          ¬ ((db.history a.sandboxId).any (fun e => e.2.state.isExpired) ∧
            db.canRetainBoot cfg.heartbeatTimeoutMs a.sandboxId current r) then
        reject db .staleRegistration "Supervisor sandbox has no current connection" false
      else connect cfg instanceId db m a r ids current none
    | some (connectionId, c) =>
      if c.expiresAt ≤ r.now then
        match db.expireLockedConnection cfg.heartbeatTimeoutMs a.sandboxId current connectionId r with
        | none => none
        | some (true, expired) => connect cfg instanceId expired m a r ids current none
        | some (false, expired) =>
          reject expired .staleRegistration "Expired supervisor connection cannot be revived" false
      else connect cfg instanceId db m a r ids current (some (connectionId, c))

/-- `register` of the control plane `instanceId`. -/
def register (cfg : ManagerConfig) (instanceId : Nat) (db : Db) (m : RegisterMessage)
    (a : Authority) (r : Readings) (ids : Drawn) : Option (Registration × Db) := do
  guard (validateAuthority a m.supervisorId m.bootId m.sandboxId)
  guard ((db.hosts.get a.supervisorId).isSome)
  match db.workers.get a.sandboxId with
  | none =>
    reject db .unauthorizedSandbox
      "Supervisor registration does not match a provisioned sandbox" false
  | some current =>
    if current.supervisorId ≠ a.supervisorId ∨ current.bootId ≠ a.bootId then
      reject db .unauthorizedSandbox
        "Supervisor registration does not match a provisioned sandbox" false
    else if (db.workersOf a.supervisorId).any
        (fun w => w.1 ≠ a.sandboxId ∧ w.2.bootId = a.bootId) then
      reject db .bootIdentityCollision
        "Supervisor boot is already bound to another sandbox" false
    else if m.maxConcurrentSessions ≠ current.maxConcurrentSessions then
      reject db .capacityMismatch
        "Supervisor capacity does not match its provisioned sandbox" false
    else if ¬ (current.state = .provisioning ∨ current.state = .ready) then
      reject db .sandboxUnavailable "Supervisor sandbox cannot be registered" false
    else if ¬ db.bootAuthorized a.sandboxId current r.authorized then
      reject db .bootUnavailable "Supervisor boot authorization is no longer current" false
    else
      match (db.connectionsOf a.supervisorId).find? (fun e => e.2.transportId = a.transportId) with
      | some (connectionId, c) => registerReplay cfg instanceId db m a r current connectionId c
      | none =>
        if db.connections.entries.any (fun e => e.2.registrationMessageId = m.messageId) then
          reject db .registrationReplay
            "Registration message was already used by another transport" false
        else registerNew cfg instanceId db m a r ids current

/-! ## Heartbeats and stale connections -/

structure Heartbeat where
  supervisorId : Nat
  bootId : Nat
  connectionId : Nat
  acceptingAssignments : Bool
  /-- The session leases it names, which must be none. -/
  families : List Nat

/-- `none` where no row is updated: the answer is that of `staleConnection`. -/
def heartbeat (cfg : ManagerConfig) (instanceId : Nat) (db : Db) (m : Heartbeat) (a : Authority)
    (now write : Time) : Option Db := do
  guard (validateAuthority a m.supervisorId m.bootId a.sandboxId ∧ m.families = [])
  let c ← db.connections.get m.connectionId
  guard (c.workerId = a.sandboxId ∧ c.supervisorId = a.supervisorId ∧ c.bootId = a.bootId ∧
    c.transportId = a.transportId ∧ c.controlPlaneInstanceId = instanceId ∧ c.state = .active ∧
    now < c.expiresAt)
  some (db.setConnection m.connectionId { c with
    acceptingAssignments := m.acceptingAssignments, lastHeartbeatAt := write,
    expiresAt := write + cfg.heartbeatTimeoutMs })

/-- `#staleConnection`: whether the transport may register again, and what is committed. -/
def staleConnection (cfg : ManagerConfig) (instanceId : Nat) (db : Db) (connectionId : Nat)
    (a : Authority) (r : Readings) : Option (Bool × Db) := do
  guard ((db.hosts.get a.supervisorId).isSome)
  match db.workers.get a.sandboxId with
  | none => some (false, db)
  | some w =>
    if w.supervisorId ≠ a.supervisorId ∨ w.bootId ≠ a.bootId then some (false, db)
    else
      match db.connections.get connectionId with
      | none => some (false, db)
      | some c =>
        if c.workerId ≠ a.sandboxId ∨ c.bootId ≠ w.bootId ∨ c.transportId ≠ a.transportId ∨
            c.controlPlaneInstanceId ≠ instanceId then some (false, db)
        else if c.state = .active ∧ c.expiresAt ≤ r.now then
          db.expireLockedConnection cfg.heartbeatTimeoutMs a.sandboxId w connectionId r
        else
          some (c.state.isExpired && db.canRetainBoot cfg.heartbeatTimeoutMs a.sandboxId w r &&
            (db.activeOf a.sandboxId).isNone, db)

/-! ## Sweeps -/

structure ConnectionCandidate where
  connectionId : Nat
  workerId : Nat
  supervisorId : Nat
deriving DecidableEq

/-- `#expireConnection`. -/
def expireConnection (cfg : ManagerConfig) (db : Db) (candidate : ConnectionCandidate)
    (r : Readings) : Option (Bool × Db) := do
  guard ((db.hosts.get candidate.supervisorId).isSome)
  let w ← db.workers.get candidate.workerId
  match db.connections.get candidate.connectionId with
  | none => some (false, db)
  | some c =>
    if c.state ≠ .active ∨ r.now < c.expiresAt then some (false, db)
    else do
      let (_, expired) ← db.expireLockedConnection cfg.heartbeatTimeoutMs candidate.workerId w
        candidate.connectionId r
      some (true, expired)

structure WorkerCandidate where
  workerId : Nat
  supervisorId : Nat
  bootId : Nat
deriving DecidableEq

/-- The transaction of `admitFailedWorkers` for one candidate. -/
def admitFailedWorker (db : Db) (candidate : WorkerCandidate) (now : Time) :
    Option (Nat × Db) := do
  guard ((db.hosts.get candidate.supervisorId).isSome)
  match db.workers.get candidate.workerId with
  | none => some (0, db)
  | some w =>
    if w.state ≠ .failed ∨ w.bootId ≠ candidate.bootId ∨
        w.supervisorId ≠ candidate.supervisorId then some (0, db)
    else if (db.retirements.get candidate.workerId).isSome then some (0, db)
    else do
      let fenced ← db.fenceSandbox candidate.workerId w .workerFailed now
      some (1, fenced)

end Supervisor
end PiCloud
