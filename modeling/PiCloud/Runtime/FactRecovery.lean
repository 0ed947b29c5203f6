import PiCloud.Lib.InsertionMap
import PiCloud.Lib.Run
import PiCloud.Lib.Table

/-!
# Runtime.FactRecovery

The database rows from which a partition of the accepted-fact log is recovered, and what projecting
one record does to them.

* `Rows`: checkpoint, Runs, Session leases, current states and native commits of one partition.
* `loadFactReplayOffset`, `retentionFloor`: where a recovery starts, and what the sweep may delete.
* `projectFact`: the transaction of each kind of record; one that throws leaves the rows.

Positions are offsets of one partition, and the rows are those that name it.
-/

namespace PiCloud
namespace Runtime

open Lib

/-! ## Rows -/

structure RunRow where
  session : Nat
  lease : Option Nat := none
  sealId : Option Nat := none
  /-- `output_seal_offset`, set together with `output_sealed_at` -/
  sealOffset : Option Nat := none
  firstOffset : Option Nat := none
  /-- the state of the Run is a terminal one -/
  terminal : Bool := false

structure LeaseRow where
  piSession : Nat
  /-- `writer_seal_offset` -/
  sealOffset : Option Nat := none
  /-- `writer_failed_at` is set -/
  failed : Bool := false

structure Rows where
  /-- `accepted_fact_projection_offsets.next_offset` -/
  checkpoint : Option Nat := none
  runs : Table Nat RunRow := .empty
  leases : Table Nat LeaseRow := .empty
  /-- `pi_durable_current.replay_offset` by native Session and document -/
  current : Table (Nat × Nat) (Option Nat) := .empty
  /-- `pi_durable_commits`: native Session and sequence -/
  commits : List (Nat × Nat) := []

namespace Rows

/-- `recordFactProjection` -/
def recordFactProjection (db : Rows) (offset : Nat) : Rows :=
  { db with checkpoint := some (max (db.checkpoint.getD 0) (offset + 1)) }

def required (db : Rows) : List Nat :=
  (db.runs.rows.filter (fun run => run.sealOffset.isNone)).filterMap RunRow.firstOffset ++
    db.current.rows.filterMap id

/-- `pending.first_offset` -/
def pending (db : Rows) : Option Nat := db.required.min?

/-- `acceptedFactRetentionFloors`; `least` ignores nulls. -/
def retentionFloor (db : Rows) : Option Nat :=
  match db.checkpoint with
  | none => none
  | some nextOffset => some ((db.pending.map (min nextOffset)).getD nextOffset)

end Rows

structure KafkaPartitionBounds where
  low : Nat
  high : Nat

/-- `loadFactReplayOffsets`; the error is "Required execution recovery position expired from
Kafka". -/
def loadFactReplayOffset (db : Rows) (bound : KafkaPartitionBounds) : Except Unit Nat :=
  let checkpoint := db.checkpoint.getD bound.low
  let pending := db.pending.getD bound.high
  let start := min (min (if checkpoint < bound.low then bound.low else checkpoint) pending)
    bound.high
  if pending < bound.low then .error () else .ok start

/-- The offset a sweep deletes below, from the ends and ages it read before the floor. -/
def sweepOffset (floor : Option Nat) (end_ : Nat) (time : Option Nat) : Option Nat :=
  match floor with
  | none => none
  | some floor =>
    let limit := time.getD end_
    let offset := min (min floor end_) limit
    if 0 < offset then some offset else none

/-! ## Records -/

structure FactScope where
  run : Nat
  writer : Nat
  session : Nat
  piSession : Nat

/-- A record of the partition, with what its projection reads. -/
inductive FactRecord where
  /-- a native commit; `pins` and `settles` are the documents it leaves live and at rest -/
  | durableCommit (scope : FactScope) (seq : Nat) (pins settles : List Nat)
  /-- a display event without a native sequence -/
  | agentEvent (scope : FactScope)
  /-- a display event with one; `terminal` ends a child Conversation -/
  | coveredEvent (scope : FactScope) (terminal : Bool)
  | workFinished (scope : FactScope) (nativeSequence : Nat)
  | executionSeal (scope : FactScope) (factId : Nat) (recover : Bool)
  | controlChange
  /-- a probe, a keepalive or a transaction marker -/
  | observation

def FactRecord.scope : FactRecord → Option FactScope
  | .durableCommit scope _ _ _ => some scope
  | .agentEvent scope => some scope
  | .coveredEvent scope _ => some scope
  | .workFinished scope _ => some scope
  | .executionSeal scope _ _ => some scope
  | .controlChange => none
  | .observation => none

namespace Rows

def head (db : Rows) (piSession : Nat) : Nat :=
  (((db.commits.filter (fun c => c.1 == piSession)).map Prod.snd).max?).getD 0

/-- `ExecutionStreamBoundary.isOpen` for a canonical read of a scope it does not know yet. -/
def isOpen (db : Rows) (scope : FactScope) (offset : Nat) : Except Unit Bool :=
  match db.runs.get scope.run, db.leases.get scope.writer with
  | some run, some writer =>
    if writer.piSession ≠ scope.piSession then .ok false
    else if run.lease ≠ some scope.writer then
      -- "Previous execution owner has no closure proof"
      if writer.sealOffset.isNone then .error () else .ok false
    else if writer.sealOffset.any (fun cutoff => cutoff ≤ offset) then .ok false
    else if run.sealOffset.isSome then .ok false
    -- "Unsealed execution prefix is missing or changed Kafka partition"
    else if run.firstOffset.any (fun first => first ≠ offset) then .error ()
    else .ok true
  | _, _ => .ok false

def checkpointRows (db : Rows) (piSession : Nat) (settles : List Nat) : Rows :=
  { db with current := settles.foldl (fun t id => t.set (piSession, id) none) db.current }

/-- One live document is pinned to its first commit since it was at rest. -/
def pin (piSession offset : Nat) (t : Table (Nat × Nat) (Option Nat)) (id : Nat) :
    Except Unit (Table (Nat × Nat) (Option Nat)) :=
  match t.get (piSession, id) with
  -- "Native live document requires a settled initial checkpoint"
  | none => .error ()
  | some none => .ok (t.set (piSession, id) (some offset))
  -- "Native live replay reference changed Kafka stream"
  | some (some before) => if offset < before then .error () else .ok t

/-- `DurablePostgresProjection.applyIn` -/
def applyIn (db : Rows) (piSession seq : Nat) (pins settles : List Nat) (offset : Nat) :
    Except Unit Rows :=
  if (piSession, seq) ∈ db.commits then .ok db
  -- "Native commit sequence or ID watermark is not contiguous"
  else if seq ≠ db.head piSession + 1 then .error ()
  else
    let db := { db.checkpointRows piSession settles with commits := (piSession, seq) :: db.commits }
    (pins.foldlM (pin piSession offset) db.current).map (fun current => { db with current })

/-- `PostgresDurableCommitProjector.project` -/
def projectCommit (db : Rows) (scope : FactScope) (seq : Nat) (pins settles : List Nat)
    (offset : Nat) : Except Unit Rows :=
  match db.runs.get scope.run, db.leases.get scope.writer with
  | some run, some writer =>
    if writer.sealOffset.any (fun cutoff => cutoff < offset) then .ok db
    else if run.lease ≠ some scope.writer ∨ run.session ≠ scope.session ∨
        run.sealOffset.any (fun cutoff => cutoff ≤ offset) then .ok db
    else
      (db.applyIn scope.piSession seq pins settles offset).map (fun db =>
        let db := { db with
          runs := db.runs.modify scope.run (fun run =>
            { run with firstOffset := run.firstOffset.or (some offset) }) }
        db.recordFactProjection offset)
  | _, _ => .ok db

/-- `checkpointLiveIn`: every live document of the native Session comes to rest. -/
def checkpointLiveIn (db : Rows) (piSession : Nat) : Rows :=
  { db with
    current := db.current.mapRows (fun k replay => if k.1 = piSession then none else replay) }

/-- `#finishWork` and `finishWorkIn` -/
def finishWork (db : Rows) (scope : FactScope) (nativeSequence offset : Nat) : Except Unit Rows :=
  match db.runs.get scope.run, db.leases.get scope.writer with
  | some run, some writer =>
    if run.lease ≠ some scope.writer ∨ writer.sealOffset.any (fun closed => closed < offset) then
      -- "Work completion owner changed without closure proof"
      if writer.sealOffset.isNone then .error () else .ok (db.recordFactProjection offset)
    -- "Root completion scope changed"
    else if run.session ≠ scope.session ∨ writer.piSession ≠ scope.piSession then .error ()
    else if run.sealOffset.isSome then .ok (db.recordFactProjection offset)
    -- "Root completion does not follow its final native commit"
    else if 0 < nativeSequence ∧ db.head scope.piSession ≠ nativeSequence then .error ()
    else
      let db := db.checkpointLiveIn scope.piSession
      if run.terminal then .ok (db.recordFactProjection offset)
      else
        let db := { db with
          runs := db.runs.modify scope.run (fun run =>
            { run with terminal := true
                       sealOffset := some offset
                       firstOffset := run.firstOffset.or (some offset) })
          leases := if writer.failed then db.leases
            else db.leases.modify scope.writer (fun w => { w with sealOffset := some offset }) }
        .ok (db.recordFactProjection offset)
  | _, _ => .ok db

/-- `#seal` -/
def sealRun (db : Rows) (scope : FactScope) (factId : Nat) (recover : Bool) (offset : Nat) :
    Except Unit Rows :=
  match db.runs.get scope.run, db.leases.get scope.writer with
  | some run, some writer =>
    if run.lease ≠ some scope.writer ∧ writer.sealOffset.isSome then
      .ok (db.recordFactProjection offset)
    -- "Execution seal does not match its requested Run": a lease has a fencing token of its own
    else if run.sealId ≠ some factId ∨ run.lease ≠ some scope.writer then .error ()
    else if run.sealOffset.isSome then
      if writer.sealOffset.isNone then
        let db := db.checkpointLiveIn scope.piSession
        let db := { db with
          leases := db.leases.modify scope.writer (fun w => { w with sealOffset := some offset }) }
        .ok (db.recordFactProjection offset)
      else .ok (db.recordFactProjection offset)
    else
      let db := db.checkpointLiveIn scope.piSession
      let db := { db with
        leases := db.leases.modify scope.writer (fun w =>
          { w with sealOffset := w.sealOffset.or (some offset) }) }
      if recover then
        -- a terminal Run cannot be queued again
        if run.terminal then .error ()
        else
          let db := { db with
            runs := db.runs.modify scope.run (fun run =>
              { run with lease := none, sealId := none, sealOffset := none, firstOffset := none }) }
          .ok (db.recordFactProjection offset)
      else
        let db := { db with
          runs := db.runs.modify scope.run (fun run =>
            { run with sealOffset := some offset
                       firstOffset := run.firstOffset.or (some offset) }) }
        .ok (db.recordFactProjection offset)
  | _, _ => .ok db

/-- The transaction in which a record is projected; `known` tells that the boundary already holds
the scope for open. The anchor of a display event is written apart. -/
def projectFact (db : Rows) (fact : FactRecord) (offset : Nat) (known : Bool) : Except Unit Rows :=
  let isOpen := fun scope => if known then .ok true else db.isOpen scope offset
  match fact with
  | .durableCommit scope seq pins settles =>
    match isOpen scope with
    | .error e => .error e
    -- a replay reads the rows only
    | .ok false => .ok db
    | .ok true => db.projectCommit scope seq pins settles offset
  | .agentEvent _ => .ok db
  | .coveredEvent scope terminal =>
    match isOpen scope with
    | .error e => .error e
    | .ok open_ => .ok (if open_ && terminal then db.recordFactProjection offset else db)
  | .workFinished scope nativeSequence => db.finishWork scope nativeSequence offset
  | .executionSeal scope factId recover =>
    match isOpen scope with
    | .error e => .error e
    | .ok _ => db.sealRun scope factId recover offset
  | .controlChange => .ok (db.recordFactProjection offset)
  | .observation => .ok db

/-- A Session is leased to a writer, where it is not yet. -/
def openLease (db : Rows) (writer piSession : Nat) : Rows :=
  { db with
    leases := if (db.leases.get writer).isSome then db.leases
      else db.leases.set writer { piSession } }

def leaseRun (db : Rows) (run : Nat) (row : RunRow) (writer : Nat) : Rows :=
  { db with runs := db.runs.set run { row with lease := some writer } }

def anchorRun (db : Rows) (run offset : Nat) : Rows :=
  { db with runs := db.runs.modify run (fun run =>
      { run with firstOffset := run.firstOffset.or (some offset) }) }

end Rows

end Runtime
end PiCloud
