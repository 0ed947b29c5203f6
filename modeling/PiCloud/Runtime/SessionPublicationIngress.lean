import PiCloud.Lib.InsertionMap
import PiCloud.Lib.PromiseTail
import PiCloud.Runtime.WorkerExecutionLog

/-!
# Runtime.SessionPublicationIngress

Control publications of one process: a queue for each session of an owned partition, and one budget
for all of them.

* `SessionPublicationIngress`: the partitions, their queues, the counters and the calls of `append`.
* `act`: the calls, the turns of the queued publications, the answers of the transports.
* `Promised`: what the projector and its transports do.
-/

namespace PiCloud
namespace Runtime

open Lib

/-- `MAX_EXECUTION_FACT_BYTES` -/
def maxExecutionFactBytes : Nat := 900 * 1024

/-- How the promise of a publication settles. -/
inductive PublicationOutcome where
  | receipt
  /-- "Publication commit receipt mismatch" -/
  | mismatch
  | failed
  | notOwner
deriving DecidableEq

/-- What a transport answers to `append`. -/
inductive AppendAnswer where
  | receipt (factId : Nat) (durable : Bool)
  | rejected
deriving DecidableEq

/-- An accepted publication; `item` is its place in the order of the submissions. -/
structure Publication where
  item : Nat
  factId : Nat
  bytes : Nat
  sent : Bool := false
  outcome : Option PublicationOutcome := none
deriving DecidableEq

def Publication.inFlight (p : Publication) : Bool := p.sent && p.outcome.isNone

/-- A queue object, with the key and the partition whose closures hold it. -/
structure SessionQueue (κ : Type) where
  key : κ
  generation : Nat
  tail : PromiseTail Publication := .resolved
  pending : Nat := 0

/-- A partition object; `closed` says that the promise of `transport.close()` has settled. -/
structure Generation (κ : Type) where
  partition : Nat := 0
  current : Bool := false
  closed : Bool := false
  queues : InsertionMap κ Nat := {}

/-- Objects are numbered in the order of their creation. -/
structure SessionPublicationIngress (κ : Type) where
  partitions : Nat → Option Nat
  generations : Nat → Generation κ
  nextGeneration : Nat
  queues : Nat → Option (SessionQueue κ)
  nextQueue : Nat
  pendingBytes : Nat
  pendingFacts : Nat
  submitted : Nat
  /-- The calls of `append`, in their order: session, publication, partition object. -/
  sent : List (κ × Nat × Nat)

inductive IngressAction (κ : Type) where
  | installPartition (partition : Nat)
  | revoke (partition : Nat)
  /-- `transport.close()` settles. -/
  | closed (generation : Nat)
  | control (owner : Nat) (key : κ) (factId bytes : Nat)
  /-- The callback of a queued publication runs. -/
  | turn (queue position : Nat)
  /-- The transport answers, and the callback ends. -/
  | answer (queue position : Nat) (answer : AppendAnswer)
  /-- `finally` -/
  | settle (queue position : Nat)
  /-- `close`, before and after it has awaited everything. -/
  | close
  | clear
deriving DecidableEq

namespace SessionPublicationIngress

variable {κ : Type}

def initial : SessionPublicationIngress κ where
  partitions _ := none
  generations _ := {}
  nextGeneration := 0
  queues _ := none
  nextQueue := 0
  pendingBytes := 0
  pendingFacts := 0
  submitted := 0
  sent := []

def setGeneration (s : SessionPublicationIngress κ) (g : Nat) (generation : Generation κ) :
    SessionPublicationIngress κ :=
  { s with generations := Function.update s.generations g generation }

def setQueue (s : SessionPublicationIngress κ) (q : Nat) (queue : SessionQueue κ) :
    SessionPublicationIngress κ :=
  { s with queues := Function.update s.queues q (some queue) }

/-- `#owned` -/
def owned (s : SessionPublicationIngress κ) (owner : Nat) : Bool :=
  s.partitions (s.generations owner).partition = some owner && (s.generations owner).current

def installPartition (s : SessionPublicationIngress κ) (partition : Nat) :
    Option (SessionPublicationIngress κ) := do
  guard ((s.partitions partition).all fun g => !(s.generations g).current)
  return { s.setGeneration s.nextGeneration { partition, current := true } with
    partitions := Function.update s.partitions partition (some s.nextGeneration)
    nextGeneration := s.nextGeneration + 1 }

def revoke (s : SessionPublicationIngress κ) (partition : Nat) : SessionPublicationIngress κ :=
  match s.partitions partition with
  | none => s
  | some g => s.setGeneration g { s.generations g with current := false }

section Keys
variable [DecidableEq κ]

/-- The queue of a session, a new one where it has none. -/
def queueOf (s : SessionPublicationIngress κ) (g : Nat) (key : κ) :
    SessionPublicationIngress κ × Nat × SessionQueue κ :=
  match (s.generations g).queues.get key with
  | some q => (s, q, (s.queues q).getD { key, generation := g })
  | none =>
    let generation := s.generations g
    ({ s.setGeneration g { generation with queues := generation.queues.set key s.nextQueue } with
        nextQueue := s.nextQueue + 1 }, s.nextQueue, { key, generation := g })

/-- `control` and `#enqueue`; what it throws leaves everything as it is. -/
def control (capacity : ProducerCapacity) (s : SessionPublicationIngress κ) (owner : Nat) (key : κ)
    (factId bytes : Nat) : Option (SessionPublicationIngress κ) := do
  guard (s.owned owner)
  guard (bytes ≤ maxExecutionFactBytes)
  guard (s.pendingFacts < capacity.maximumPendingFacts ∧
    s.pendingBytes + bytes ≤ capacity.maximumPendingBytes)
  let item := s.submitted
  let (s, q, queue) := s.queueOf owner key
  return { s.setQueue q { queue with
      tail := queue.tail.push { item, factId, bytes }
      pending := queue.pending + 1 } with
    pendingFacts := s.pendingFacts + 1
    pendingBytes := s.pendingBytes + bytes
    submitted := item + 1 }

/-- A queued publication runs when the one before it is done: `#owned`, then `append`. -/
def turn (s : SessionPublicationIngress κ) (q position : Nat) :
    Option (SessionPublicationIngress κ) := do
  let queue ← s.queues q
  let link ← queue.tail.links[position]?
  guard (link.status = .waiting ∧ queue.tail.free link.after)
  if s.owned queue.generation then
    return { s.setQueue q { queue with
        tail := queue.tail.start position fun p => { p with sent := true } } with
      sent := s.sent ++ [(queue.key, link.value.item, queue.generation)] }
  else
    return s.setQueue q { queue with
      tail := queue.tail.start position fun p => { p with outcome := some .notOwner } }

def outcomeOf (factId : Nat) : AppendAnswer → PublicationOutcome
  | .receipt id durable => if durable ∧ id = factId then .receipt else .mismatch
  | .rejected => .failed

def answer (s : SessionPublicationIngress κ) (q position : Nat) (reply : AppendAnswer) :
    Option (SessionPublicationIngress κ) := do
  let queue ← s.queues q
  let link ← queue.tail.links[position]?
  guard (link.status = .running ∧ link.value.inFlight)
  return s.setQueue q { queue with
    tail := queue.tail.edit position fun p =>
      { p with outcome := some (outcomeOf p.factId reply) } }

def settle (s : SessionPublicationIngress κ) (q position : Nat) :
    Option (SessionPublicationIngress κ) := do
  let queue ← s.queues q
  let link ← queue.tail.links[position]?
  guard (link.status = .running ∧ link.value.outcome.isSome)
  let s := { s.setQueue q { queue with
      tail := queue.tail.settle position id
      pending := queue.pending - 1 } with
    pendingFacts := s.pendingFacts - 1
    pendingBytes := s.pendingBytes - link.value.bytes }
  let generation := s.generations queue.generation
  if queue.pending - 1 = 0 ∧ generation.queues.get queue.key = some q then
    return s.setGeneration queue.generation
      { generation with queues := generation.queues.delete queue.key }
  else return s

def act (capacity : ProducerCapacity) (s : SessionPublicationIngress κ) :
    IngressAction κ → Option (SessionPublicationIngress κ)
  | .installPartition partition => s.installPartition partition
  | .revoke partition => some (s.revoke partition)
  | .closed g => some (s.setGeneration g { s.generations g with closed := true })
  | .control owner key factId bytes => s.control capacity owner key factId bytes
  | .turn q position => s.turn q position
  | .answer q position reply => s.answer q position reply
  | .settle q position => s.settle q position
  | .close => some { s with generations := fun g =>
      { s.generations g with current :=
          (s.generations g).current && s.partitions (s.generations g).partition ≠ some g } }
  | .clear => some { s with partitions := fun _ => none }

end Keys

def Sending (s : SessionPublicationIngress κ) (g : Nat) : Prop :=
  ∃ q queue, s.queues q = some queue ∧ queue.generation = g ∧
    ∃ (i : Nat) (l : Link Publication), queue.tail.links[i]? = some l ∧ l.value.inFlight = true

/-- A session has its partition, `publicationPartition`, and its changes go to the owner of that
one. `transport.close()` settles when every `append` has, and the projector awaits it before it
installs the partition again, and before `close` ends. -/
def Promised (lane : κ → Nat) (s : SessionPublicationIngress κ) : IngressAction κ → Prop
  | .control owner key _ _ => (s.generations owner).partition = lane key
  | .closed g => g < s.nextGeneration ∧ (s.generations g).current = false ∧ ¬ s.Sending g
  | .installPartition partition => ∀ g < s.nextGeneration,
      (s.generations g).partition = partition → (s.generations g).closed = true
  | .clear => ∀ g < s.nextGeneration, (s.generations g).current = false
  | _ => True

def ingress (capacity : ProducerCapacity) (lane : κ → Nat) [DecidableEq κ] :
    System (SessionPublicationIngress κ) (IngressAction κ) where
  init s := s = initial
  step s a t := Promised lane s a ∧ act capacity s a = some t

end SessionPublicationIngress
end Runtime
end PiCloud
