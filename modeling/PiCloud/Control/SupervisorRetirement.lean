import PiCloud.Control.SupervisorRegistration
import PiCloud.Lib.Run

/-!
# Control.SupervisorRetirement

The retirement of a fenced worker, and all control planes over one database.

* `claimRetirement`, `renewClaim`, `completeClaim`, `failClaim`: the row of a retirement.
* `beginRetirement`, `finalizeRetirement`, `quarantineWorker`: the row of its worker.
* `Retiring`: where one call of `processNextRetirement` stands, between two awaits.
* `act`: one transaction of any control plane, or one step of a retirement.
-/

namespace PiCloud
namespace Supervisor

open Lib (Table)

/-! ## Claims -/

/-- What `#claimRetirement` returns. -/
structure Claim where
  supervisorId : Nat
  bootId : Nat
  sandboxId : Nat
  claimId : Nat
  attempt : Nat
deriving DecidableEq

/-- A retirement that `#claimRetirement` may take. -/
def RetirementRow.available (r : RetirementRow) (now : Time) : Bool :=
  match r.state with
  | .pending => r.availableAt ≤ now
  | .claimed _ _ claimUntil => claimUntil ≤ now
  | _ => false

/-- `#claimRetirement` of the row of `workerId`: rows that another transaction has locked are
skipped, so any available row may be the one. -/
def claimRetirement (cfg : ManagerConfig) (instanceId : Nat) (db : Db) (workerId claimId : Nat)
    (now : Time) : Option (Claim × Db) := do
  let r ← db.retirements.get workerId
  guard (r.available now)
  some (⟨r.supervisorId, r.bootId, workerId, claimId, r.attempts + 1⟩,
    db.setRetirement workerId { r with
      state := .claimed claimId instanceId (now + cfg.retirementClaimDurationMs)
      attempts := r.attempts + 1 })

/-- The row that a claim names, while the claim is the current one. -/
def claimedRow (instanceId : Nat) (db : Db) (k : Claim) : Option (RetirementRow × Time) := do
  let r ← db.retirements.get k.sandboxId
  match r.state with
  | .claimed claimId claimOwnerId claimUntil =>
    if claimId = k.claimId ∧ claimOwnerId = instanceId then some (r, claimUntil) else none
  | _ => none

/-- `#renewRetirementClaim`. -/
def renewClaim (cfg : ManagerConfig) (instanceId : Nat) (db : Db) (k : Claim) (now : Time) :
    Option Db := do
  let (r, claimUntil) ← claimedRow instanceId db k
  guard (now < claimUntil)
  some (db.setRetirement k.sandboxId { r with
    state := .claimed k.claimId instanceId (now + cfg.retirementClaimDurationMs) })

/-- `#completeRetirementClaim`. -/
def completeClaim (instanceId : Nat) (db : Db) (k : Claim) (now : Time) : Option Db := do
  let w ← db.workers.get k.sandboxId
  guard (w.supervisorId = k.supervisorId ∧ w.bootId = k.bootId ∧ w.state = .terminated)
  let (r, _) ← claimedRow instanceId db k
  some (db.setRetirement k.sandboxId { r with state := .completed now, lastError := none })

/-- `#failRetirementClaim`. -/
def failClaim (cfg : ManagerConfig) (instanceId : Nat) (db : Db) (k : Claim) (errorCode : Nat)
    (retryable : Bool) (now : Time) : Option Db := do
  let (r, _) ← claimedRow instanceId db k
  some (db.setRetirement k.sandboxId { r with
    state := if retryable then .pending else .blocked
    availableAt := if retryable then now + cfg.retirementRetryDelayMs else now
    lastError := some errorCode })

/-! ## The worker of a retirement -/

def moveWorker (db : Db) (workerId : Nat) (w : WorkerRow) (target : WorkerState) : Option Db := do
  let state ← transitionWorker w.state target
  some (db.setWorker workerId { w with state })

/-- `#beginRetirement`. -/
def beginRetirement (db : Db) (workerId : Nat) : Option Db := do
  let w ← db.workers.get workerId
  match w.state with
  | .terminated | .draining | .failed => some db
  | .provisioning => moveWorker db workerId w .failed
  | .ready => moveWorker db workerId w .draining

/-- The worker's part of `#finalizeRetirement`, once no execution scope is left. -/
def finalizeRetirement (db : Db) (workerId : Nat) : Option Db := do
  let w ← db.workers.get workerId
  match w.state with
  | .terminated => some db
  | .draining | .failed | .provisioning => moveWorker db workerId w .terminated
  | .ready => none

/-- `quarantineWorker` of a lease coordinator, and `#quarantineWorker` of a retirement. -/
def quarantineWorker (db : Db) (workerId : Nat) : Option Db :=
  match db.workers.get workerId with
  | none => some db
  | some w => if w.state.Stopped then some db else moveWorker db workerId w .failed

/-! ## One retirement -/

/-- A normalized error, by what `processNextRetirement` asks of its code. -/
structure Failure where
  /-- `supervisor_management_unavailable` or `boot_generation_unknown`. -/
  unreachable : Bool
  errorCode : Nat
  retryable : Bool
deriving DecidableEq

/-- Where a call of `processNextRetirement` stands. `fenced` tells `retireFencedWorker` from
`retireWorker`. -/
inductive Retiring where
  | stopping (k : Claim)
  | confirming (k : Claim)
  | renewing (k : Claim) (fenced : Bool)
  | beginning (k : Claim) (fenced : Bool)
  | finalizing (k : Claim) (fenced : Bool)
  | quarantining (k : Claim) (fenced : Bool) (f : Failure)
  | completing (k : Claim)
  | failing (k : Claim) (f : Failure)
deriving DecidableEq

def Retiring.claim : Retiring → Claim
  | .stopping k | .confirming k | .renewing k _ | .beginning k _ | .finalizing k _
  | .quarantining k _ _ | .completing k | .failing k _ => k

/-- The inner `catch`: the retirement goes on with `retireFencedWorker`, or it fails. -/
def caught (retiresFenced : Bool) (k : Claim) (ownerStopConfirmed : Bool) (f : Failure) :
    Retiring :=
  if ¬ retiresFenced ∨ (¬ ownerStopConfirmed ∧ ¬ f.unreachable) ∨
      (ownerStopConfirmed ∧ ¬ f.retryable) then .failing k f
  else .renewing k true

def failedAttempt (retiresFenced : Bool) (k : Claim) (fenced : Bool) (f : Failure) : Retiring :=
  if fenced then .failing k f else caught retiresFenced k true f

def invariantFailure (errorCode : Nat) : Failure := ⟨false, errorCode, false⟩

/-- One step of a retirement: `answer` is the error that the awaited call of another component ended
with, if any, and `now` the clock of the control plane. -/
def Retiring.step (cfg : ManagerConfig) (retiresFenced : Bool) (instanceId : Nat) (db : Db)
    (answer : Option Failure) (now : Time) : Retiring → Option Retiring × Db
  | .stopping k =>
    match answer with
    | some f => (caught retiresFenced k false f, db)
    | none => (some (.confirming k), db)
  | .confirming k =>
    match answer with
    | some f => (caught retiresFenced k true f, db)
    | none => (some (.renewing k false), db)
  | .renewing k fenced =>
    match answer, renewClaim cfg instanceId db k now with
    | some f, _ => (failedAttempt retiresFenced k fenced f, db)
    | none, none => (failedAttempt retiresFenced k fenced (invariantFailure 0), db)
    | none, some renewed => (some (.beginning k fenced), renewed)
  | .beginning k fenced =>
    match answer, beginRetirement db k.sandboxId with
    | some f, _ => (some (.quarantining k fenced f), db)
    | none, none => (some (.quarantining k fenced (invariantFailure 1)), db)
    | none, some begun => (some (.finalizing k fenced), begun)
  | .finalizing k fenced =>
    match answer, finalizeRetirement db k.sandboxId with
    | some f, _ => (some (.quarantining k fenced f), db)
    | none, none => (some (.quarantining k fenced (invariantFailure 2)), db)
    | none, some final => (some (.completing k), final)
  | .quarantining k fenced f =>
    -- an error of the quarantine itself is swallowed
    match answer, quarantineWorker db k.sandboxId with
    | none, some quarantined => (failedAttempt retiresFenced k fenced f, quarantined)
    | _, _ => (failedAttempt retiresFenced k fenced f, db)
  | .completing k =>
    match answer, completeClaim instanceId db k now with
    | some f, _ => (some (.failing k f), db)
    | none, none => (some (.failing k (invariantFailure 3)), db)
    | none, some completed => (none, completed)
  | .failing k f =>
    match answer, failClaim cfg instanceId db k f.errorCode f.retryable now with
    | none, some released => (none, released)
    | _, _ => (none, db)

/-! ## All control planes -/

/-- A sweep of one control plane: where it goes on, what of the last scan is left, and whether that
scan reached the end. -/
structure Sweep (α : Type) where
  cursor : Option Nat
  rest : List α
  whole : Bool

def Sweep.fresh {α : Type} : Sweep α := ⟨none, [], false⟩

/-- The rows after the cursor that meet a condition, in the order of their identifiers. -/
def Sweep.scan {α ρ : Type} (s : Sweep α) (table : Table Nat ρ) (wanted : Nat → ρ → Bool)
    (candidate : Nat → ρ → α) (limit : Nat) : Sweep α :=
  let found := ((table.entries.filter fun e =>
    wanted e.1 e.2 && s.cursor.all (· < e.1)).mergeSort fun e f => e.1 ≤ f.1).take limit
  { cursor := if found.length < limit ∧ found = [] then none else s.cursor
    rest := found.map fun e => candidate e.1 e.2
    whole := found.length < limit }

/-- After one candidate of the scan, `id`. -/
def Sweep.next {α : Type} (s : Sweep α) (id : Nat) (rest : List α) : Sweep α :=
  { s with cursor := if rest = [] ∧ s.whole then none else some id, rest }

def Sweep.abort {α : Type} (s : Sweep α) (id : Nat) : Sweep α :=
  { s with cursor := some id, rest := [] }

structure State where
  db : Db
  /-- `expireConnections` of each control plane. -/
  expiry : Nat → Sweep ConnectionCandidate
  /-- `admitFailedWorkers` of each control plane. -/
  admission : Nat → Sweep WorkerCandidate
  /-- `processNextRetirement`, any number of calls in each control plane. -/
  retiring : Nat → Nat → Option Retiring
  /-- The claim identifiers that were drawn: a history that nothing but the draw reads. -/
  claimIds : List Nat

structure Settings where
  manager : Nat → ManagerConfig
  boot : Nat → BootConfig
  /-- The retirer offers `retireFencedWorker`. -/
  retiresFenced : Nat → Bool

inductive Action where
  | provision (i : Nat) (q : ProvisionRequest) (now : Time)
  | register (i : Nat) (m : RegisterMessage) (a : Authority) (r : Readings) (ids : Drawn)
  | heartbeat (i : Nat) (m : Heartbeat) (a : Authority) (now write : Time)
  | staleConnection (i connectionId : Nat) (a : Authority) (r : Readings)
  | scanConnections (i limit : Nat) (now : Time)
  | expireNext (i : Nat) (busy : Bool) (r : Readings)
  | scanFailedWorkers (i limit : Nat)
  | admitNext (i : Nat) (busy : Bool) (now : Time)
  | claimRetirement (i n workerId claimId : Nat) (now : Time)
  | retire (i n : Nat) (answer : Option Failure) (now : Time)
  | restart (i : Nat)
  | quarantineWorker (workerId : Nat)
  | acquireLease (leaseId workerId : Nat) (now validUntil : Time)
  | renewLease (leaseId : Nat) (now validUntil : Time)
  | releaseLease (leaseId : Nat) (now : Time)

def commit {β : Type} (db : Db) (t : Option (β × Db)) : Db := (t.map Prod.snd).getD db

namespace State

def scanConnections (s : State) (i limit : Nat) (now : Time) : Option State := do
  guard ((s.expiry i).rest = [])
  some { s with expiry := Function.update s.expiry i ((s.expiry i).scan s.db.connections
    (fun _ c => c.state = .active ∧ c.expiresAt ≤ now)
    (fun id c => ⟨id, c.workerId, c.supervisorId⟩) limit) }

def expireNext (set : Settings) (s : State) (i : Nat) (busy : Bool) (r : Readings) :
    Option State :=
  match (s.expiry i).rest with
  | [] => none
  | candidate :: rest =>
    let next := Function.update s.expiry i ((s.expiry i).next candidate.connectionId rest)
    if busy then some { s with expiry := next }
    else
      match expireConnection (set.manager i) s.db candidate r with
      | some (_, expired) => some { s with db := expired, expiry := next }
      | none => some { s with
          expiry := Function.update s.expiry i ((s.expiry i).abort candidate.connectionId) }

def scanFailedWorkers (s : State) (i limit : Nat) : Option State := do
  guard ((s.admission i).rest = [])
  some { s with admission := Function.update s.admission i ((s.admission i).scan s.db.workers
    (fun id w => w.state = .failed ∧ s.db.retirements.get id = none)
    (fun id w => ⟨id, w.supervisorId, w.bootId⟩) limit) }

def admitNext (s : State) (i : Nat) (busy : Bool) (now : Time) : Option State :=
  match (s.admission i).rest with
  | [] => none
  | candidate :: rest =>
    let next := Function.update s.admission i ((s.admission i).next candidate.workerId rest)
    if busy then some { s with admission := next }
    else
      match admitFailedWorker s.db candidate now with
      | some (_, admitted) => some { s with db := admitted, admission := next }
      | none => some { s with
          admission := Function.update s.admission i ((s.admission i).abort candidate.workerId) }

def setRetiring (s : State) (i n : Nat) (pc : Option Retiring) : State :=
  { s with retiring := Function.update s.retiring i (Function.update (s.retiring i) n pc) }

/-- A claim identifier is drawn once. -/
def claimRetirement (set : Settings) (s : State) (i n workerId claimId : Nat) (now : Time) :
    Option State := do
  guard (s.retiring i n = none ∧ claimId ∉ s.claimIds)
  let (k, claimed) ← Supervisor.claimRetirement (set.manager i) i s.db workerId claimId now
  some (State.setRetiring { s with db := claimed, claimIds := claimId :: s.claimIds } i n
    (some (.stopping k)))

def retire (set : Settings) (s : State) (i n : Nat) (answer : Option Failure) (now : Time) :
    Option State := do
  let pc ← s.retiring i n
  let (next, db) := pc.step (set.manager i) (set.retiresFenced i) i s.db answer now
  some (State.setRetiring { s with db } i n next)

/-- A control plane that starts again has forgotten its sweeps and its retirements. -/
def restart (s : State) (i : Nat) : State :=
  { s with
    expiry := Function.update s.expiry i .fresh
    admission := Function.update s.admission i .fresh
    retiring := Function.update s.retiring i fun _ => none }

def setLease (s : State) (leaseId : Nat) (l : LeaseRow) : State :=
  { s with db := { s.db with leases := s.db.leases.set leaseId l } }

/-- A session lease is admitted by a worker that is ready. -/
def acquireLease (s : State) (leaseId workerId : Nat) (now validUntil : Time) : Option State := do
  let w ← s.db.workers.get workerId
  guard (w.state = .ready ∧ s.db.leases.get leaseId = none)
  some (s.setLease leaseId ⟨workerId, none, validUntil, now⟩)

def renewLease (s : State) (leaseId : Nat) (now validUntil : Time) : Option State := do
  let l ← s.db.leases.get leaseId
  guard (l.releasedAt = none)
  some (s.setLease leaseId { l with validUntil, renewedAt := now })

def releaseLease (s : State) (leaseId : Nat) (now : Time) : Option State := do
  let l ← s.db.leases.get leaseId
  some (s.setLease leaseId { l with releasedAt := some now })

end State

def act (set : Settings) (s : State) : Action → Option State
  | .provision i q now => some { s with db := commit s.db (provision (set.boot i) s.db q now) }
  | .register i m a r ids =>
    some { s with db := commit s.db (register (set.manager i) i s.db m a r ids) }
  | .heartbeat i m a now write =>
    some { s with db := (heartbeat (set.manager i) i s.db m a now write).getD s.db }
  | .staleConnection i connectionId a r =>
    some { s with db := commit s.db (staleConnection (set.manager i) i s.db connectionId a r) }
  | .scanConnections i limit now => s.scanConnections i limit now
  | .expireNext i busy r => s.expireNext set i busy r
  | .scanFailedWorkers i limit => s.scanFailedWorkers i limit
  | .admitNext i busy now => s.admitNext i busy now
  | .claimRetirement i n workerId claimId now => s.claimRetirement set i n workerId claimId now
  | .retire i n answer now => s.retire set i n answer now
  | .restart i => some (s.restart i)
  | .quarantineWorker workerId =>
    some { s with db := (quarantineWorker s.db workerId).getD s.db }
  | .acquireLease leaseId workerId now validUntil => s.acquireLease leaseId workerId now validUntil
  | .renewLease leaseId now validUntil => s.renewLease leaseId now validUntil
  | .releaseLease leaseId now => s.releaseLease leaseId now

def Db.empty : Db where
  hosts := .empty
  workers := .empty
  credentials := .empty
  connections := .empty
  retirements := .empty
  leases := .empty
  fences := []

def State.initial : State where
  db := .empty
  expiry := fun _ => .fresh
  admission := fun _ => .fresh
  retiring := fun _ _ => none
  claimIds := []

def system (set : Settings) : Lib.System State Action where
  init s := s = .initial
  step s a t := act set s a = some t

end Supervisor
end PiCloud
