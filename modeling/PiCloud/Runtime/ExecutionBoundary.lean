import PiCloud.Lib.InsertionMap
import PiCloud.Lib.Run
import PiCloud.Lib.Table

/-!
# Runtime.ExecutionBoundary

`ExecutionStreamBoundary` decides whether a record of an execution is still accepted. It keeps the
closures it has seen in three bounded maps, and reads the Run and its lease where they say nothing.

* `RunRow`, `Writer`, `Rows`: the columns that the decision reads.
* `Boundary`: the caches, with `close`, `closeWriter` and `isOpen`.
* `Rows.seal`, `Rows.finishWork`: what `#seal` and `#finishWork` commit.
* `Projector.step`: admission, requests of seals, publication and projection in log order.
-/

namespace PiCloud
namespace Runtime
namespace ExecutionStream

open Lib

/-- `runs` -/
structure RunRow where
  leaseId : Option Nat := none
  /-- the `state` is terminal -/
  terminal : Bool := false
  outputSealId : Option Nat := none
  outputSealedAt : Bool := false
  outputSealOffset : Option Int := none
  /-- `output_first_partition` and `output_first_offset` -/
  outputFirst : Option (Nat × Nat) := none
  deriving DecidableEq, Repr

/-- `session_leases` -/
structure Writer where
  /-- the partition of its Pi session -/
  partition : Nat
  writerFailedAt : Bool := false
  writerSealOffset : Option Int := none
  deriving DecidableEq, Repr

structure Rows where
  runs : Table Nat RunRow := .empty
  leases : Table Nat Writer := .empty

/-- The row of the query of `isOpen`. -/
def Rows.owner (rows : Rows) (run writer : Nat) : Option (RunRow × Writer) := do
  let r ← rows.runs.get run
  let w ← rows.leases.get writer
  some (r, w)

/-- The scope and the position of a `KafkaAcceptedFactRecord`. -/
structure Record where
  run : Nat
  writer : Nat
  partition : Nat
  offset : Nat
  deriving DecidableEq, Repr

inductive Failure where
  /-- Previous execution owner has no closure proof -/
  | ownerUnclosed
  /-- Unsealed execution prefix is missing or changed Kafka partition -/
  | prefixMissing
  deriving DecidableEq, Repr

/-! ## The caches -/

def capacity : Nat := 65536

structure Boundary where
  opened : List (Nat × Nat) := []
  closed : InsertionMap (Nat × Nat) Int := {}
  writers : InsertionMap Nat Int := {}

namespace Boundary

variable (b : Boundary)

def closedWriters (writer : Nat) (offset : Int) : InsertionMap Nat Int :=
  match b.writers.get writer with
  | none => b.writers.set writer offset
  | some prior => if offset < prior then b.writers.set writer offset else b.writers

def closeWriter (writer : Nat) (offset : Int) : Boundary :=
  let writers := b.closedWriters writer offset
  -- open scopes must reload the cutoff of the group after an eviction
  if capacity < writers.size then { b with writers := writers.deleteOldest, opened := [] }
  else { b with writers }

def reinsert (identity : Nat × Nat) (cutoff : Int) : InsertionMap (Nat × Nat) Int :=
  (b.closed.delete identity).set identity cutoff

def earliest (identity : Nat × Nat) (offset : Int) : Int :=
  match b.closed.get identity with
  | none => offset
  | some previous => if offset < previous then offset else previous

def close (run writer : Nat) (offset : Int) : Boundary :=
  let closed := b.reinsert (writer, run) (b.earliest (writer, run) offset)
  { b with
    opened := b.opened.filter fun identity => identity ≠ (writer, run)
    closed := if capacity < closed.size then closed.deleteOldest else closed }

/-- The durable part of `isOpen`. -/
def reload (rows : Rows) (record : Record) (canonical : Bool) : Except Failure Bool × Boundary :=
  match rows.owner record.run record.writer with
  | none =>
    (.ok (!canonical && decide ((record.offset : Int) < -1)), b.close record.run record.writer (-1))
  | some (r, w) =>
    if r.leaseId ≠ some record.writer then
      match w.writerSealOffset with
      | none => (.error .ownerUnclosed, b)
      | some sealed => (.ok false, b.closeWriter record.writer sealed)
    else
      let b := match w.writerSealOffset with
        | none => b
        | some sealed => b.closeWriter record.writer sealed
      if w.writerSealOffset.any fun sealed => sealed ≤ (record.offset : Int) then (.ok false, b)
      else if r.outputSealedAt then
        let cutoff := r.outputSealOffset.getD (-1)
        (.ok (!canonical && decide ((record.offset : Int) < cutoff)),
          b.close record.run record.writer cutoff)
      else if canonical && r.outputFirst.any fun first => first ≠ (record.partition, record.offset) then
        (.error .prefixMissing, b)
      else (.ok true, { b with opened := (record.writer, record.run) :: b.opened })

def isOpen (rows : Rows) (record : Record) (canonical : Bool) : Except Failure Bool × Boundary :=
  if (b.writers.get record.writer).any fun cutoff => cutoff ≤ (record.offset : Int) then
    (.ok false, b)
  else match b.closed.get (record.writer, record.run) with
    | some cutoff => (.ok (!canonical && decide ((record.offset : Int) < cutoff)),
        { b with closed := b.reinsert (record.writer, record.run) cutoff })
    | none =>
      if (record.writer, record.run) ∈ b.opened then (.ok true, b)
      else b.reload rows record canonical

def observes (run writer : Nat) : Bool :=
  decide ((writer, run) ∈ b.opened) && (b.closed.get (writer, run)).isNone &&
    (b.writers.get writer).isNone

end Boundary

/-! ## The projections -/

structure SealFact where
  factId : Nat
  run : Nat
  writer : Nat
  recover : Bool
  deriving DecidableEq, Repr

inductive Fact where
  /-- a native commit or a display event -/
  | output (run writer : Nat)
  | sealing (fact : SealFact)
  | workFinished (run writer : Nat)
  deriving DecidableEq, Repr

def Fact.run : Fact → Nat
  | .output run _ => run
  | .sealing fact => fact.run
  | .workFinished run _ => run

def Fact.writer : Fact → Nat
  | .output _ writer => writer
  | .sealing fact => fact.writer
  | .workFinished _ writer => writer

def Fact.requestedIn (outbox : List SealFact) : Fact → Bool
  | .sealing fact => fact ∈ outbox
  | _ => true

namespace Rows

variable (rows : Rows)

def setRun (run : Nat) (r : RunRow) : Rows := { rows with runs := rows.runs.set run r }

/-- The first accepted record of an execution is its replay floor. -/
def anchor (run partition offset : Nat) : Rows :=
  match rows.runs.get run with
  | none => rows
  | some r => rows.setRun run { r with outputFirst := some (r.outputFirst.getD (partition, offset)) }

def sealWriter (writer : Nat) (offset : Int) : Rows :=
  { rows with leases := rows.leases.modify writer fun w =>
      { w with writerSealOffset := some (w.writerSealOffset.getD offset) } }

def failWriter (writer : Nat) : Rows :=
  { rows with leases := rows.leases.modify writer fun w => { w with writerFailedAt := true } }

/-- `#seal`; `none` is a throw. -/
def sealRun (fact : SealFact) (partition offset : Nat) : Option Rows :=
  match rows.owner fact.run fact.writer with
  | none => some rows
  | some (r, w) =>
    if r.leaseId ≠ some fact.writer && w.writerSealOffset.isSome then some rows
    else if r.outputSealId ≠ some fact.factId then none
    else if r.outputSealedAt then some (rows.sealWriter fact.writer offset)
    else if fact.recover then
      -- no transition leads from a terminal state to the queue
      if r.terminal then none
      else some ((rows.sealWriter fact.writer offset).setRun fact.run { r with
        leaseId := none, outputSealId := none, outputSealedAt := false
        outputSealOffset := none, outputFirst := none })
    else some ((rows.sealWriter fact.writer offset).setRun fact.run { r with
      outputSealedAt := true, outputSealOffset := some offset
      outputFirst := some (r.outputFirst.getD (partition, offset)) })

/-- `#finishWork`: the rows, and the closures of the Run and of the writer that it found or made. -/
def finishWork (run writer partition offset : Nat) : Option (Rows × Option Int × Option Int) :=
  match rows.owner run writer with
  | none => some (rows, none, none)
  | some (r, w) =>
    if r.leaseId ≠ some writer || w.writerSealOffset.any (fun sealed => sealed < (offset : Int)) then
      if w.writerSealOffset.isNone then none else some (rows, none, w.writerSealOffset)
    else if r.outputSealedAt then some (rows, r.outputSealOffset, w.writerSealOffset)
    else if r.terminal then some (rows, none, w.writerSealOffset)
    else
      let finished := rows.setRun run { r with
        terminal := true, outputSealedAt := true, outputSealOffset := some (offset : Int)
        outputFirst := some (r.outputFirst.getD (partition, offset)) }
      if w.writerFailedAt then some (finished, some offset, w.writerSealOffset)
      else some (finished.sealWriter writer offset, some offset, some offset)

end Rows

/-! ## The projector and what it reads -/

structure Projector where
  rows : Rows := {}
  outbox : List SealFact := []
  log : Nat → List Fact := fun _ => []
  /-- the next offset to read -/
  position : Nat → Nat := fun _ => 0
  /-- the offsets below are projected -/
  projected : Nat → Nat := fun _ => 0
  boundary : Boundary := {}

inductive Op where
  | accept (run : Nat)
  | startAdmittedRun (run writer partition : Nat)
  /-- a terminal decision, or a recovery, asks for the seal of the execution -/
  | request (run factId : Nat) (recover : Bool)
  /-- a fact of an admitted execution, or a row of the outbox, perhaps once more -/
  | publish (fact : Fact)
  | isOpen (record : Record) (canonical : Bool)
  | project (partition : Nat)
  /-- the caches are emptied, and reading starts again at the recovery floor -/
  | reset (floor : Nat → Nat)

namespace Projector

variable (p : Projector)

def startAdmittedRun (run writer partition : Nat) : Option Projector := do
  let r ← p.rows.runs.get run
  guard (r.leaseId.isNone && !r.terminal && (p.rows.leases.get writer).isNone)
  some { p with rows := {
    runs := p.rows.runs.set run { r with leaseId := some writer }
    leases := p.rows.leases.set writer { partition } } }

/-- A seal already requested stays as it is. -/
def request (run factId : Nat) (recover : Bool) : Option Projector := do
  let r ← p.rows.runs.get run
  let writer ← r.leaseId
  guard (!r.terminal && p.outbox.all fun f => f.factId ≠ factId)
  match r.outputSealId with
  | some _ => some { p with rows := p.rows.setRun run { r with terminal := !recover } }
  | none => some { p with
      rows := (p.rows.failWriter writer).setRun run
        { r with terminal := !recover, outputSealId := some factId }
      outbox := p.outbox ++ [{ factId, run, writer, recover }] }

def publish (fact : Fact) : Option Projector := do
  let (_, w) ← p.rows.owner fact.run fact.writer
  guard (fact.requestedIn p.outbox)
  some { p with log := Function.update p.log w.partition (p.log w.partition ++ [fact]) }

def advance (partition : Nat) (rows : Rows) (boundary : Boundary) : Projector :=
  { p with
    rows, boundary
    position := Function.update p.position partition (p.position partition + 1)
    projected := Function.update p.projected partition
      (max (p.projected partition) (p.position partition + 1)) }

/-- A native commit, or a display event: it is projected where the execution is open. -/
def projectOutput (run writer partition : Nat) : Option Projector :=
  let offset := p.position partition
  match p.boundary.isOpen p.rows { run, writer, partition, offset } true with
  | (.error _, _) => none
  | (.ok false, b) => some (p.advance partition p.rows b)
  | (.ok true, b) => some (p.advance partition (p.rows.anchor run partition offset) b)

def projectSeal (fact : SealFact) (partition : Nat) : Option Projector :=
  let offset := p.position partition
  match p.boundary.isOpen p.rows { run := fact.run, writer := fact.writer, partition, offset } true with
  | (.error _, _) => none
  | (.ok _, b) => do
    let rows ← p.rows.sealRun fact partition offset
    some (p.advance partition rows
      ((b.close fact.run fact.writer offset).closeWriter fact.writer offset))

/-- The closures that completed work found or made. -/
def closeBoth (run writer : Nat) (rootClosed writerClosed : Option Int) : Boundary :=
  let b := match rootClosed with
    | none => p.boundary
    | some cutoff => p.boundary.close run writer cutoff
  match writerClosed with
  | none => b
  | some cutoff => b.closeWriter writer cutoff

def projectWork (run writer partition : Nat) : Option Projector := do
  let (rows, rootClosed, writerClosed) ← p.rows.finishWork run writer partition (p.position partition)
  some (p.advance partition rows (p.closeBoth run writer rootClosed writerClosed))

/-- `project` on the next record of a partition. -/
def project (partition : Nat) : Option Projector := do
  let fact ← (p.log partition)[p.position partition]?
  match fact with
  | .output run writer => p.projectOutput run writer partition
  | .sealing fact => p.projectSeal fact partition
  | .workFinished run writer => p.projectWork run writer partition

def step : Op → Option Projector
  | .accept run => do
    guard (p.rows.runs.get run).isNone
    some { p with rows := p.rows.setRun run {} }
  | .startAdmittedRun run writer partition => p.startAdmittedRun run writer partition
  | .request run factId recover => p.request run factId recover
  | .publish fact => p.publish fact
  | .isOpen record canonical => do
    guard (p.rows.owner record.run record.writer).isSome
    some { p with boundary := (p.boundary.isOpen p.rows record canonical).2 }
  | .project partition => p.project partition
  | .reset floor => some { p with
      boundary := {}
      position := fun partition => min (floor partition) (p.projected partition) }

def run (ops : List Op) : Projector := ops.foldl (fun p op => (p.step op).getD p) p

end Projector

end ExecutionStream
end Runtime
end PiCloud
