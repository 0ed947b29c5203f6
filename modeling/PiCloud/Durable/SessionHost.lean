import PiCloud.Lib.InsertionMap
import PiCloud.Lib.PromiseTail

/-!
# Durable.SessionHost

The owners of native storage in one process: an owner for each lease incarnation, to which the
conversations of the session attach.

* `Owner`: its storage, the attached conversations, its publications and its releases, each behind a
  tail promise, and how far its closing has come.
* `Host`: the owners by key, the observed leases, and the calls that wait.
* `Host.act`: one step between two suspensions of `open`, `release`, a closing, a publication or
  `close`.
-/

namespace PiCloud
namespace Durable

open Lib

structure LeaseKey where
  tenantId : Nat
  piSessionId : Nat
  leaseId : Nat
  fencingToken : Nat
deriving DecidableEq

/-- `identity` is the parsed execution reference. -/
structure ExecutionIdentity where
  leaseId : Nat
  runId : Nat
  fencingToken : Nat

structure DurableRunBinding where
  tenantId : Nat
  piSessionId : Nat
  conversationId : Nat
  runId : Nat
  writerId : Nat
  identity : ExecutionIdentity

def DurableRunBinding.key (b : DurableRunBinding) : LeaseKey where
  tenantId := b.tenantId
  piSessionId := b.piSessionId
  leaseId := b.identity.leaseId
  fencingToken := b.identity.fencingToken

inductive StorageStatus where
  | opening
  | opened
  | failed
  | closed
deriving DecidableEq

/-- Where `#closeOwner` is suspended: on `runtime.close()`, on `owner.storage`, on `storage.close()`,
on `authority.close()`, or settled. -/
inductive ClosingStage where
  | runtime
  | storage
  | storageClose
  | authority
  | settled
deriving DecidableEq

structure Closing where
  stage : ClosingStage := .runtime
  failed : Bool := false

/-- An attached conversation: its `open` waits for the storage, it has its handle, or it is being
released. -/
inductive RunPhase where
  | loading
  | ready
  | releasing
deriving DecidableEq

inductive ReleaseStage where
  | closing
  /-- on the publication that was last -/
  | publications (tail : Option Nat)

/-- `last` records that no other conversation was attached when the release began. -/
structure Release where
  conversationId : Nat
  stage : ReleaseStage := .closing
  last : Bool := false

/-- A `confirmed` callback of a prepared publication. -/
structure Confirmation where
  id : Nat
  throws : Bool := false

/-- A piece of serialised work: a publication of the storage of `publisher`, or other work. `calls` are
the callbacks that have run. -/
structure Publication where
  publisher : Option Nat := none
  confirmations : List Confirmation := []
  acknowledged : Bool := false
  calls : List Nat := []

structure Owner where
  key : LeaseKey
  storage : StorageStatus := .opening
  runs : InsertionMap Nat RunPhase := {}
  closing : Option Closing := none
  interrupted : Bool := false
  publications : PromiseTail Publication := .resolved
  releases : PromiseTail Release := .resolved

def confirm : List Confirmation → List Nat
  | [] => []
  | c :: cs => if c.throws then [c.id] else c.id :: confirm cs

inductive PublishOutcome where
  | acknowledged
  | notSent
  | failed
deriving DecidableEq

namespace Owner

def attach (owner : Owner) (conversationId : Nat) : Owner :=
  { owner with runs := owner.runs.set conversationId .loading }

/-- `release()`, once for each handle. -/
def release (owner : Owner) (conversationId : Nat) : Owner :=
  { owner with
    runs := owner.runs.set conversationId .releasing
    releases := owner.releases.push { conversationId } }

/-- `#closeOwner`: a closing that has begun goes on. -/
def close (owner : Owner) : Owner :=
  { owner with closing := some (owner.closing.getD {}) }

/-- A release begins: with the closing, where nothing else is attached. -/
def startRelease (owner : Owner) (i : Nat) : Owner :=
  match owner.releases.links[i]? with
  | none => owner
  | some l =>
    if l.status = .waiting ∧ owner.releases.free l.after = true then
      if owner.runs.size = 1 then
        { owner with
          releases := owner.releases.start i fun r => { r with stage := .closing, last := true } }.close
      else
        { owner with
          releases := owner.releases.start i fun r =>
            { r with stage := .publications owner.publications.tail } }
    else owner

/-- The `finally` of a release. -/
def finishRelease (owner : Owner) (i : Nat) (conversationId : Nat) : Owner :=
  { owner with
    runs := owner.runs.delete conversationId
    releases := owner.releases.settle i id }

/-- A release goes on after what it waited for. -/
def continueRelease (owner : Owner) (i : Nat) : Owner :=
  match owner.releases.links[i]? with
  | none => owner
  | some l =>
    if l.status = .running then
      match l.value.stage with
      | .closing =>
        match owner.closing with
        | some { stage := .settled, failed := true } => owner.finishRelease i l.value.conversationId
        | some { stage := .settled, failed := false } =>
          { owner with
            releases := owner.releases.edit i fun r =>
              { r with stage := .publications owner.publications.tail } }
        | _ => owner
      | .publications tail =>
        if owner.publications.free tail then owner.finishRelease i l.value.conversationId else owner
    else owner

/-- The `work` of a publication ends. -/
def settleWork (owner : Owner) (i : Nat) (outcome : PublishOutcome) : Owner :=
  match outcome with
  | .acknowledged =>
    { owner with
      publications := owner.publications.settle i fun p =>
        { p with acknowledged := true, calls := p.calls ++ confirm p.confirmations }
      interrupted := owner.interrupted ||
        owner.publications.links[i]?.any fun l => l.value.confirmations.any (·.throws) }
  | .notSent => { owner with publications := owner.publications.settle i id }
  | .failed => { owner with publications := owner.publications.settle i id, interrupted := true }

end Owner

/-- An `open` that waits for a closing owner. -/
structure WaitingOpen where
  key : LeaseKey
  conversationId : Nat
  owner : Nat

/-- A `close` of the host: the owners that it closes, and whether it has completed. -/
structure HostClose where
  owners : List Nat
  done : Bool := false

/-- Owners are cells of `heap`; `leases` are those that the lease observer has. -/
structure Host where
  owners : InsertionMap LeaseKey Nat := {}
  heap : Nat → Owner := fun _ => { key := { tenantId := 0, piSessionId := 0, leaseId := 0, fencingToken := 0 } }
  fresh : Nat := 0
  leases : InsertionMap LeaseKey Nat := {}
  leasesClosed : Bool := false
  closed : Bool := false
  waiting : List WaitingOpen := []
  closes : List HostClose := []

inductive HostAction where
  | openSession (binding : DurableRunBinding)
  /-- an `open` goes on after the closing that it waited for -/
  | resumeOpen (i : Nat)
  /-- the storage of an owner has opened, or could not be opened -/
  | storageSettled (o : Nat) (ok : Bool)
  /-- `open` returns its handle, or releases what it attached -/
  | opened (o conversationId : Nat) (ok : Bool)
  | interrupt (o : Nat)
  | release (o conversationId : Nat)
  | startRelease (o i : Nat)
  | continueRelease (o i : Nat)
  | runtimeClosed (o : Nat) (ok : Bool)
  | storageAwaited (o : Nat)
  | storageClosed (o : Nat) (ok : Bool)
  | authorityClosed (o : Nat)
  | publish (o : Nat) (confirmations : List Confirmation)
  | serialize (o : Nat)
  | startWork (o i : Nat)
  | settleWork (o i : Nat) (outcome : PublishOutcome)
  | close
  | closed (i : Nat)

namespace Host

def setOwner (h : Host) (o : Nat) (owner : Owner) : Host :=
  { h with heap := Function.update h.heap o owner }

def on (h : Host) (o : Nat) (f : Owner → Owner) : Host :=
  if o < h.fresh then h.setOwner o (f (h.heap o)) else h

/-- A new owner with its first conversation. The lease observer refuses a lease that it has. -/
def create (h : Host) (key : LeaseKey) (conversationId : Nat) : Host :=
  if h.leasesClosed = true ∨ (h.leases.get key).isSome then h
  else
    { h.setOwner h.fresh (Owner.attach { key } conversationId) with
      owners := h.owners.set key h.fresh
      leases := h.leases.set key h.fresh
      fresh := h.fresh + 1 }

def openSession (h : Host) (b : DurableRunBinding) : Host :=
  if h.closed then h
  else if b.identity.leaseId ≠ b.writerId ∨ b.identity.runId ≠ b.runId ∨ b.conversationId < 1 then h
  else
    match h.owners.get b.key with
    | none => h.create b.key b.conversationId
    | some o =>
      match (h.heap o).closing with
      | some _ =>
        { h with
          waiting := h.waiting ++
            [{ key := b.key, conversationId := b.conversationId, owner := o }] }
      | none =>
        if ((h.heap o).runs.get b.conversationId).isSome then h
        else h.setOwner o ((h.heap o).attach b.conversationId)

/-- The closing that an `open` waited for has settled: it fails with it, or begins anew. -/
def resumeOpen (h : Host) (i : Nat) : Host :=
  match h.waiting[i]? with
  | none => h
  | some w =>
    match (h.heap w.owner).closing with
    | some { stage := .settled, failed := true } => { h with waiting := h.waiting.eraseIdx i }
    | some { stage := .settled, failed := false } =>
      { h.create w.key w.conversationId with waiting := h.waiting.eraseIdx i }
    | _ => h

/-- `lease.close()`, and the wait for it. -/
def closeAuthority (h : Host) (o : Nat) (owner : Owner) (failed : Bool) : Host :=
  { h.setOwner o { owner with closing := some { stage := .authority, failed } } with
    leases := if h.leases.get owner.key = some o then h.leases.delete owner.key else h.leases }

/-- A closing goes on. -/
def advance (h : Host) (o : Nat) (stage : ClosingStage) (ok : Bool) : Host :=
  match (h.heap o).closing with
  | none => h
  | some c =>
    if h.fresh ≤ o ∨ c.stage ≠ stage then h
    else
      let failed := c.failed || !ok
      match stage with
      | .runtime => h.setOwner o { h.heap o with closing := some { stage := .storage, failed } }
      | .storage =>
        match (h.heap o).storage with
        | .opening => h
        | .opened => h.setOwner o { h.heap o with closing := some { stage := .storageClose, failed } }
        | _ => h.closeAuthority o (h.heap o) true
      | .storageClose => h.closeAuthority o { h.heap o with storage := .closed } failed
      | .authority =>
        { h.setOwner o { h.heap o with closing := some { stage := .settled, failed } } with
          owners := if h.owners.get (h.heap o).key = some o then h.owners.delete (h.heap o).key
            else h.owners }
      | .settled => h

/-- `close()`, up to its wait for the closings. -/
def close (h : Host) : Host :=
  { h with
    closed := true
    heap := fun o =>
      if h.owners.get (h.heap o).key = some o then { (h.heap o).close with interrupted := true }
      else h.heap o
    closes := h.closes ++ [{ owners := h.owners.entries.map Prod.snd }] }

def settled (h : Host) (o : Nat) : Bool :=
  (h.heap o).closing.any fun c => c.stage = .settled

/-- `close()` completes. -/
def closeDone (h : Host) (i : Nat) : Host :=
  match h.closes[i]? with
  | none => h
  | some c =>
    if c.owners.all h.settled then
      { h with leases := {}, leasesClosed := true, closes := h.closes.set i { c with done := true } }
    else h

/-- The storage of an owner publishes: the work is serialised behind the owner that has the key. -/
def publish (h : Host) (o : Nat) (confirmations : List Confirmation) : Host :=
  if o < h.fresh ∧ (h.heap o).storage = .opened then
    match h.owners.get (h.heap o).key with
    | none => h
    | some current =>
      h.on current fun owner =>
        { owner with
          publications := owner.publications.push { publisher := some o, confirmations } }
  else h

def act (h : Host) : HostAction → Host
  | .openSession binding => h.openSession binding
  | .resumeOpen i => h.resumeOpen i
  | .storageSettled o ok =>
    h.on o fun owner =>
      if owner.storage = .opening then
        { owner with storage := if ok then .opened else .failed }
      else owner
  | .opened o conversationId ok =>
    h.on o fun owner =>
      if owner.runs.get conversationId = some .loading ∧ owner.storage ≠ .opening then
        if ok = true ∧ owner.storage = .opened then
          { owner with runs := owner.runs.set conversationId .ready }
        else owner.release conversationId
      else owner
  | .interrupt o => h.on o fun owner => { owner with interrupted := true }
  | .release o conversationId =>
    h.on o fun owner =>
      if owner.runs.get conversationId = some .ready then owner.release conversationId else owner
  | .startRelease o i => h.on o fun owner => owner.startRelease i
  | .continueRelease o i => h.on o fun owner => owner.continueRelease i
  | .runtimeClosed o ok => h.advance o .runtime ok
  | .storageAwaited o => h.advance o .storage true
  | .storageClosed o ok => h.advance o .storageClose ok
  | .authorityClosed o => h.advance o .authority true
  | .publish o confirmations => h.publish o confirmations
  | .serialize o =>
    h.on o fun owner => { owner with publications := owner.publications.push {} }
  | .startWork o i =>
    h.on o fun owner => { owner with publications := owner.publications.start i id }
  | .settleWork o i outcome => h.on o fun owner => owner.settleWork i outcome
  | .close => h.close
  | .closed i => h.closeDone i

def run (h : Host) (actions : List HostAction) : Host := actions.foldl act h

end Host

end Durable
end PiCloud
