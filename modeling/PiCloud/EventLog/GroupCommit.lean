import Mathlib.Logic.Function.Basic
import PiCloud.Lib.Register
import PiCloud.Lib.Run

/-!
# EventLog.GroupCommit

The group offset of one partition: the members of the consumer group that write it, and the broker
that fences the writes of an earlier generation.

* `Member`: one process, its reader (`kafka-partition-reader.ts`) with its consumer
  (`kafka-log-consumer.ts`), and the publication writers that borrow the reader.
* `EffectGroup.act`: what a turn of a member or of the broker does.
* A transaction that was opened ends either way, also after its member has given up on it.
-/

namespace PiCloud
namespace EventLog

open Lib

/-! ## A member -/

inductive EffectStage where
  | idle
  /-- `commitBeforeEffect` waits for the partition's commit lock -/
  | queued
  | sending
deriving DecidableEq

/-- A record in the hands of the handler. -/
structure Handling where
  record : Nat
  /-- the assignment it was delivered in -/
  generation : Nat
  stage : EffectStage := .idle

/-- A caller of `commitOffset` or `commitPublication` that waits for the lock. -/
inductive Request where
  | progress (offset generation : Nat)
  | publication (generation : Nat)

inductive Write where
  | effect (record : Nat)
  | progress (offset : Nat)
  | publication (offset : Nat)

/-- The group offset it writes. -/
def Write.offset : Write → Nat
  | .effect record => record + 1
  | .progress offset => offset
  | .publication offset => offset

def Write.isCommit : Write → Bool
  | .publication _ => false
  | _ => true

inductive SendStage where
  /-- the records of the transaction are sent first -/
  | producing
  | inFlight
  /-- the broker has taken it; the member has no receipt yet -/
  | accepted
deriving DecidableEq

/-- What the holder of the commit lock is at. -/
structure Sending where
  write : Write
  generation : Nat
  /-- the group generation the write carries -/
  group : Nat
  stage : SendStage

structure Member where
  /-- `#generation` of the reader and `#epoch` of the consumer, which every rebalance raises -/
  generation : Nat := 0
  group : Option Nat := none
  /-- assigned by the broker; the start is being determined -/
  joining : Bool := false
  assigned : Bool := false
  /-- `#committed` of the reader -/
  committed : Option Nat := none
  /-- `#committedOffsets` of the consumer -/
  seen : Option Nat := none
  low : Nat := 0
  position : Nat := 0
  processed : Nat := 0
  handling : Option Handling := none
  requests : List Request := []
  sending : Option Sending := none
  /-- the highest commit of this assignment that was taken while its receipt was lost -/
  doubt : Nat := 0

namespace Member

/-- What every rebalance clears. -/
def revoke (m : Member) : Member :=
  { m with
    generation := m.generation + 1
    joining := false
    assigned := false
    committed := none }

/-- The lock is passed to a caller whose assignment is current. -/
def start (m : Member) (write : Write) (stage : SendStage) : Member :=
  match m.group with
  | some group => { m with sending := some { write, generation := m.generation, group, stage } }
  | none => m

def setStage (m : Member) (stage : EffectStage) : Member :=
  { m with handling := m.handling.map (fun h => { h with stage }) }

/-- `commitOffset` or `commitPublication` once it has the lock. -/
def serve (m : Member) : Request → Member
  | .progress offset generation =>
    if generation = m.generation ∧ m.assigned then
      if m.committed.all (· < offset) then m.start (.progress offset) .inFlight else m
    else m
  | .publication generation =>
    if generation = m.generation ∧ m.assigned then
      match m.committed with
      | some offset => m.start (.publication offset) .producing
      | none => m
    else m

/-- The lock is released. -/
def release (m : Member) (x : Sending) : Member :=
  match x.write with
  | .effect _ => { m with sending := none }.setStage .idle
  | _ => { m with sending := none }

/-- The receipt of the broker. -/
def receive (m : Member) (x : Sending) : Member :=
  if x.generation = m.generation then
    match x.write with
    | .effect record =>
      { m.release x with committed := some (record + 1), seen := some (record + 1) }
    | .progress offset =>
      { m.release x with
        committed := some offset
        seen := if m.seen.all (· < offset) then some offset else m.seen }
    | .publication _ => m.release x
  else m.release x

/-- No receipt comes: an error of the broker or of the connection. -/
def lose (m : Member) (x : Sending) : Member :=
  if x.stage = .accepted ∧ x.write.isCommit ∧ x.generation = m.generation then
    { m.release x with doubt := max m.doubt x.write.offset }
  else m.release x

end Member

/-! ## The group -/

structure EffectGroup where
  generation : Nat := 0
  /-- the member that has the partition, by generation -/
  owners : Nat → Option Nat := fun _ => none
  log : List (Register.Entry Nat) := []
  members : Nat → Member := fun _ => {}
  /-- the records whose `commitBeforeEffect` has returned true, the last one first -/
  ran : List Nat := []

inductive EffectTurn where
  | rebalance (owner : Option Nat)
  | revoked (member : Nat)
  | joined (member group : Nat)
  | seed (member low : Nat)
  | assign (member start : Nat)
  | deliver (member record : Nat)
  | callEffect (member : Nat)
  | settle (member : Nat) (ok : Bool)
  /-- the end of the partition, past the records delivered so far -/
  | position (member offset : Nat)
  | progress (member : Nat)
  | publish (member : Nat)
  | acquireEffect (member : Nat)
  | acquire (member : Nat)
  | offer (member : Nat)
  | accept (member : Nat)
  | resolve (entry : Nat) (keep : Bool)
  | acknowledge (member : Nat)
  | lose (member : Nat)
  | crash (member : Nat)

namespace EffectGroup

def offset (s : EffectGroup) : Option Nat := Register.current s.log

def setMember (s : EffectGroup) (i : Nat) (m : Member) : EffectGroup :=
  { s with members := Function.update s.members i m }

/-- `commitBeforeEffect` returns true. -/
def runEffect (s : EffectGroup) (record : Nat) : EffectGroup := { s with ran := record :: s.ran }

/-- What a turn does, or nothing where it cannot be taken. -/
def act (s : EffectGroup) : EffectTurn → Option EffectGroup
  | .rebalance owner =>
    some { s with
      generation := s.generation + 1
      owners := Function.update s.owners (s.generation + 1) owner }
  | .revoked i => some (s.setMember i (s.members i).revoke)
  | .joined i group =>
    if group ≤ s.generation ∧ s.owners group = some i ∧ (s.members i).group.all (· < group) then
      some (s.setMember i
        { (s.members i).revoke with group := some group, joining := true, doubt := 0 })
    else none
  | .seed i low =>
    let m := s.members i
    -- the handlers of earlier assignments are awaited, and the offsets read are stable ones
    if m.joining ∧ m.handling.isNone ∧ Register.Stable s.log then
      some (s.setMember i { m with
        committed := some (max low (s.offset.getD 0))
        seen := s.offset
        low })
    else none
  | .assign i start =>
    let m := s.members i
    if m.joining ∧ m.committed.isSome ∧ m.low ≤ start then
      some (s.setMember i { m with
        joining := false, assigned := true, position := start, processed := start })
    else none
  | .deliver i record =>
    let m := s.members i
    if m.assigned ∧ m.handling.isNone ∧ m.position ≤ record then
      some (s.setMember i { m with
        position := record + 1
        handling := some { record, generation := m.generation } })
    else none
  | .callEffect i =>
    let m := s.members i
    match m.handling with
    | some h =>
      if h.stage = .idle then
        if h.generation = m.generation ∧ m.seen.all (· < h.record + 1) then
          some (s.setMember i (m.setStage .queued))
        else some s
      else none
    | none => none
  | .settle i ok =>
    let m := s.members i
    match m.handling with
    | some h =>
      if h.stage = .idle then
        if h.generation = m.generation then
          if ok then
            some (s.setMember i { m with handling := none, processed := h.record + 1 })
          else some (s.setMember i { m with handling := none, position := h.record })
        else some (s.setMember i { m with handling := none })
      else none
    | none => none
  | .position i offset =>
    let m := s.members i
    if m.assigned ∧ m.handling.isNone ∧ m.position ≤ offset then
      some (s.setMember i { m with position := offset, processed := max m.processed offset })
    else none
  | .progress i =>
    let m := s.members i
    if m.assigned ∧ m.seen.all (· < m.processed) then
      some (s.setMember i { m with
        requests := m.requests ++ [.progress m.processed m.generation] })
    else none
  | .publish i =>
    let m := s.members i
    some (s.setMember i { m with requests := m.requests ++ [.publication m.generation] })
  | .acquireEffect i =>
    let m := s.members i
    match m.handling with
    | some h =>
      if h.stage = .queued ∧ m.sending.isNone then
        if h.generation = m.generation ∧ m.assigned then
          if m.committed.all (· < h.record + 1) then
            some (s.setMember i ((m.setStage .sending).start (.effect h.record) .inFlight))
          else
            -- `commitOffset` resolves at once
            some ((s.setMember i { m.setStage .idle with seen := some (h.record + 1) }).runEffect
              h.record)
        else some (s.setMember i (m.setStage .idle))
      else none
    | none => none
  | .acquire i =>
    let m := s.members i
    match m.requests with
    | r :: rest =>
      if m.sending.isNone then some (s.setMember i ({ m with requests := rest }.serve r)) else none
    | [] => none
  | .offer i =>
    let m := s.members i
    match m.sending with
    | some x =>
      if x.stage = .producing then
        if x.generation = m.generation ∧ m.assigned then
          some (s.setMember i { m with sending := some { x with stage := .inFlight } })
        else some (s.setMember i (m.release x))
      else none
    | none => none
  | .accept i =>
    let m := s.members i
    match m.sending with
    | some x =>
      if x.stage = .inFlight ∧ x.group = s.generation then
        some { s.setMember i { m with sending := some { x with stage := .accepted } } with
          log :=
            { value := x.write.offset
              status := if x.write.isCommit then .taken else .undecided } :: s.log }
      else none
    | none => none
  | .resolve entry keep => some { s with log := Register.resolve s.log entry keep }
  | .acknowledge i =>
    let m := s.members i
    match m.sending with
    | some x =>
      if x.stage = .accepted then
        match x.write with
        | .effect record =>
          if x.generation = m.generation then
            some ((s.setMember i (m.receive x)).runEffect record)
          else some (s.setMember i (m.receive x))
        | _ => some (s.setMember i (m.receive x))
      else none
    | none => none
  | .lose i =>
    let m := s.members i
    match m.sending with
    | some x => some (s.setMember i (m.lose x))
    | none => none
  | .crash i => some (s.setMember i {})

def Guard (s : EffectGroup) : EffectTurn → Prop
  | .accept i => ∀ x ∈ (s.members i).sending, (s.members i).doubt ≤ x.write.offset
  | _ => True

end EffectGroup

def effectGroup : System EffectGroup EffectTurn where
  init s := s = {}
  step s a t := s.act a = some t

end EventLog
end PiCloud
