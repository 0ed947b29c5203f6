import Mathlib.Logic.Function.Basic
import PiCloud.Runtime.FactRecovery

/-!
# EventLog.PartitionReader

The readers of one partition: `kafka-partition-reader.ts` under `kafka-log-consumer.ts`, with the
start that the Session projector asks for.

* `Client`: the native consumer. It hands out the records of its position in order, reports an end
  after the records before it, and from the call of a seek on nothing until the seek is done.
* `Reader`: the poll loop, the record in hand, the epochs; the consumer's own position and retries.
* `ReadingGroup.act`: the turns. A rebalance, a retry or the end of the reader can fall anywhere.

`Slots` is the whole log of a run; a record is handed out once it is below `high`.
-/

namespace PiCloud
namespace EventLog

open Lib
open PiCloud.Runtime (FactRecord KafkaPartitionBounds Rows loadFactReplayOffset)

inductive Slot where
  | record (fact : FactRecord)
  /-- a transaction marker or an aborted record -/
  | gap

abbrev Slots := Nat → Slot

def Slot.isRecord : Slot → Bool
  | .record _ => true
  | .gap => false

/-! ## The start of an assignment -/

/-- The group's position, moved up to where the partition begins; the error is "Kafka group
delivery position is outside retention". -/
def deliveryOffset (bound : KafkaPartitionBounds) (saved : Option Nat) : Except Unit Nat :=
  let offset := max (saved.getD 0) bound.low
  if bound.high < offset then .error () else .ok offset

/-- The recovery floor, or the group's position where that is lower. -/
def startOffset (db : Rows) (bound : KafkaPartitionBounds) (saved : Option Nat) :
    Except Unit Nat :=
  match loadFactReplayOffset db bound, deliveryOffset bound saved with
  | .error e, _ => .error e
  | .ok _, .error e => .error e
  | .ok floor, .ok delivery => .ok (if floor < delivery then floor else delivery)

/-! ## The native client -/

structure Client where
  assigned : Bool := false
  position : Nat := 0
  paused : Bool := false
  /-- where a seek goes that is not done yet -/
  seeking : Option Nat := none

namespace Client

def next (c : Client) : Nat := c.seeking.getD c.position

/-- The client moves on to `offset`, past slots that hold no record. -/
def reaches (c : Client) (log : Slots) (high offset : Nat) : Bool :=
  c.assigned && !c.paused && c.seeking.isNone && decide (c.position ≤ offset ∧ offset ≤ high) &&
    decide (∀ o, o < offset → c.position ≤ o → (log o).isRecord = false)

end Client

/-! ## The reader -/

inductive TaskStage where
  | called
  | handling
  /-- the handler has ended; the batch is not left yet -/
  | tail
deriving DecidableEq

/-- A record in the hands of the handler (`#active`). -/
structure Task where
  record : Nat
  generation : Nat
  epoch : Nat
  stage : TaskStage := .called

/-- What an end of the partition was seen at. -/
structure Eof where
  offset : Nat
  epoch : Nat

/-- A call of `consume(1)`: at most one record, and the last end it came across. -/
structure Poll where
  generation : Nat
  record : Option Nat := none
  ended : Option Nat := none

structure Plan where
  generation : Nat
  bound : KafkaPartitionBounds
  offset : Except Unit Nat

structure Reader where
  generation : Nat := 0
  epoch : Nat := 0
  assigned : Bool := false
  /-- `#starts` -/
  start : Option Nat := none
  /-- `#paused`: by the consumer, not for a record in hand -/
  paused : Bool := false
  active : Option Task := none
  eof : Option Eof := none
  poll : Option Poll := none
  client : Client := {}
  ready : Bool := false
  blocked : Bool := false
  /-- the partition is in `#retries` -/
  retrying : Bool := false
  /-- and its timer has not fired -/
  timer : Bool := false
  /-- the consumer has given up this reader, or is closing -/
  retired : Bool := false
  /-- `#processedOffsets` -/
  processed : Option Nat := none
  plan : Option Plan := none
  /-- where the reported position was set to begin -/
  begun : Nat := 0

namespace Reader

def current (r : Reader) (t : Task) : Bool :=
  t.generation == r.generation && t.epoch == r.epoch

def retire (r : Reader) : Reader := { r with retired := true, ready := false }

def pause (r : Reader) : Reader :=
  { r with paused := true, client := { r.client with paused := true } }

def seek (r : Reader) (offset : Nat) : Reader :=
  { r with
    epoch := r.epoch + 1
    eof := none
    client := { r.client with seeking := some offset } }

/-- The consumer's callback; it never lowers the position. -/
def onPosition (r : Reader) (offset : Nat) : Reader :=
  if r.retired || !r.ready || r.blocked || r.retrying then r
  else if r.processed.all (· < offset) then { r with processed := some offset }
  else r

/-- `#advance` -/
def advance (r : Reader) : Reader :=
  if r.poll.isSome || r.active.isSome || !r.assigned then r
  else
    match r.eof with
    | some e => if e.epoch = r.epoch then { r.onPosition e.offset with eof := none } else r
    | none => r

/-- `#deliver`; "Kafka delivered a paused partition twice" ends the reader. -/
def deliver (r : Reader) (record : Nat) : Reader :=
  if r.assigned then
    if r.active.isSome then r.retire
    else
      { r with
        client := { r.client with paused := true }
        active := some { record, generation := r.generation, epoch := r.epoch } }
  else r

/-- The `partition.eof` events of a poll come before its callback. -/
def observe (r : Reader) (p : Poll) : Reader :=
  match p.ended with
  | some offset =>
    if p.generation = r.generation ∧ r.assigned then
      { r with eof := some { offset, epoch := r.epoch } }
    else r
  | none => r

def endPoll (r : Reader) (p : Poll) : Reader :=
  let r := { r.observe p with poll := none }
  if p.generation = r.generation then
    match p.record with
    | some record => (r.deliver record).advance
    | none => r.advance
  else
    -- the poll spans an assignment: what it took is handed out again
    match r.start with
    | some offset => r.seek offset
    | none => r

def setStage (r : Reader) (t : Task) (stage : TaskStage) : Reader :=
  { r with active := some { t with stage } }

/-- The checks of `#batch` before the handler is called. -/
def begin (r : Reader) (t : Task) : Reader :=
  if r.retired || !r.current t || !r.ready then r.setStage t .tail
  else if r.blocked then (r.pause.seek t.record).setStage t .tail
  else r.setStage t .handling

/-- The handler has returned, or thrown. -/
def settle (r : Reader) (t : Task) (ok : Bool) : Reader :=
  if r.retired || !r.current t then r.setStage t .tail
  else if ok then
    { r.setStage t .tail with
      processed := some (t.record + 1), retrying := false, timer := false }
  else
    { (r.pause.seek t.record).setStage t .tail with retrying := true, timer := true }

def finish (r : Reader) (t : Task) : Reader :=
  let r := { r with active := none }
  if r.current t then
    let r := r.advance
    if r.paused then r else { r with client := { r.client with paused := false } }
  else r

def resume (r : Reader) : Reader :=
  let r := { r with timer := false, paused := false }
  if r.active.isSome then r else { r with client := { r.client with paused := false } }

/-- What every rebalance clears. -/
def rebalance (r : Reader) : Reader :=
  { r with
    generation := r.generation + 1
    assigned := false
    start := none
    paused := false
    eof := none
    client := {}
    ready := false
    blocked := false
    retrying := false
    timer := false }

/-- A partition whose start is an error is assigned at its end, and paused. -/
def install (r : Reader) (plan : Plan) : Reader :=
  match plan.offset with
  | .ok start =>
    { r with
      plan := none
      assigned := true
      ready := true
      start := some start
      processed := some start
      begun := start
      client := { assigned := true, position := start } }
  | .error _ =>
    { r with
      plan := none
      assigned := true
      ready := true
      blocked := true
      paused := true
      start := some plan.bound.high
      processed := some plan.bound.low
      begun := plan.bound.low
      client := { assigned := true, position := plan.bound.high, paused := true } }

end Reader

/-! ## The group -/

structure ReadingGroup where
  high : Nat := 0
  db : Rows := {}
  readers : Nat → Reader := fun _ => {}
  /-- records whose handler returned while its assignment was current -/
  settled : List Nat := []
  /-- those, and the records whose transaction was committed -/
  projected : List Nat := []

inductive ReadTurn where
  | append (high : Nat)
  /-- any transaction that leaves the checkpoint -/
  | database (db : Rows)
  | rebalance (reader : Nat)
  | recover (reader : Nat) (bound : KafkaPartitionBounds) (saved : Option Nat)
  | install (reader : Nat)
  | startPoll (reader : Nat)
  | fetchRecord (reader offset : Nat)
  | fetchEnd (reader offset : Nat)
  | endPoll (reader : Nat)
  | begin (reader : Nat)
  | project (reader : Nat) (known : Bool)
  | settle (reader : Nat) (ok : Bool)
  | finish (reader : Nat)
  | resume (reader : Nat)
  | sought (reader : Nat)
  | retire (reader : Nat)
  /-- a new reader in the same process -/
  | restart (reader : Nat)
  | crash (reader : Nat)
  /-- `captureEndOffsets` -/
  | capture (reader : Nat)

namespace ReadingGroup

def setReader (s : ReadingGroup) (i : Nat) (r : Reader) : ReadingGroup :=
  { s with readers := Function.update s.readers i r }

/-- What a turn does, or nothing where it cannot be taken. The partition begins at `low`. -/
def act (log : Slots) (low : Nat) (s : ReadingGroup) : ReadTurn → Option ReadingGroup
  | .append high => if s.high ≤ high then some { s with high } else none
  | .database db => if db.checkpoint = s.db.checkpoint then some { s with db } else none
  | .rebalance i => some (s.setReader i (s.readers i).rebalance)
  | .recover i bound saved =>
    let r := s.readers i
    -- the handlers of earlier assignments are awaited
    if r.retired = false ∧ r.assigned = false ∧ r.active.isNone ∧
        bound.low = low ∧ low ≤ bound.high ∧ bound.high ≤ s.high then
      some (s.setReader i { r with
        plan := some
          { generation := r.generation, bound, offset := startOffset s.db bound saved } })
    else none
  | .install i =>
    let r := s.readers i
    match r.plan with
    | some plan =>
      if r.retired = false ∧ r.assigned = false ∧ plan.generation = r.generation then
        some (s.setReader i (r.install plan))
      else none
    | none => none
  | .startPoll i =>
    let r := s.readers i
    match r.poll with
    | some _ => none
    | none => some (s.setReader i { r with poll := some { generation := r.generation } })
  | .fetchRecord i offset =>
    let r := s.readers i
    match r.poll with
    | some p =>
      if p.record.isNone ∧ r.client.reaches log s.high offset ∧ (log offset).isRecord ∧
          offset < s.high then
        some (s.setReader i { r with
          poll := some { p with record := some offset }
          client := { r.client with position := offset + 1 } })
      else none
    | none => none
  | .fetchEnd i offset =>
    let r := s.readers i
    match r.poll with
    | some p =>
      if r.client.reaches log s.high offset then
        some (s.setReader i { r with
          poll := some { p with ended := some offset }
          client := { r.client with position := offset } })
      else none
    | none => none
  | .endPoll i =>
    let r := s.readers i
    match r.poll with
    | some p => some (s.setReader i (r.endPoll p))
    | none => none
  | .begin i =>
    let r := s.readers i
    match r.active with
    | some t => if t.stage = .called then some (s.setReader i (r.begin t)) else none
    | none => none
  | .project i known =>
    match (s.readers i).active with
    | some t =>
      match log t.record with
      | .record fact =>
        if t.stage = .handling then
          match s.db.projectFact fact t.record known with
          | .ok db => some { s with db, projected := t.record :: s.projected }
          | .error _ => none
        else none
      | .gap => none
    | none => none
  | .settle i ok =>
    let r := s.readers i
    match r.active with
    | some t =>
      if t.stage = .handling then
        if ok ∧ r.retired = false ∧ r.current t then
          some { s.setReader i (r.settle t ok) with
            settled := t.record :: s.settled
            projected := t.record :: s.projected }
        else some (s.setReader i (r.settle t ok))
      else none
    | none => none
  | .finish i =>
    let r := s.readers i
    match r.active with
    | some t => if t.stage = .tail then some (s.setReader i (r.finish t)) else none
    | none => none
  | .resume i =>
    let r := s.readers i
    if r.timer ∧ r.retired = false then some (s.setReader i r.resume) else none
  | .sought i =>
    let r := s.readers i
    match r.client.seeking with
    | some offset =>
      some (s.setReader i { r with
        client := { r.client with position := offset, seeking := none } })
    | none => none
  | .retire i => some (s.setReader i (s.readers i).retire)
  | .restart i =>
    let r := s.readers i
    if r.retired ∧ r.active.isNone then
      some (s.setReader i { processed := r.processed, begun := r.begun })
    else none
  | .crash i => some (s.setReader i {})
  | .capture i =>
    let r := s.readers i
    if r.processed.isNone then
      some (s.setReader i { r with processed := some low, begun := low })
    else none

end ReadingGroup

/-- A group in front of a log whose first `low` slots were reclaimed. -/
def readingGroup (log : Slots) (low : Nat) : System ReadingGroup ReadTurn where
  init s := (∀ c ∈ s.db.checkpoint, c ≤ low) ∧ (∀ i, s.readers i = {}) ∧ s.settled = [] ∧
    s.projected = []
  step s a t := s.act log low a = some t

end EventLog
end PiCloud
