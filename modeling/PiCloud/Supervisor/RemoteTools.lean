import PiCloud.Lib.InsertionMap
import PiCloud.Lib.Run

/-!
# Supervisor.RemoteTools

The hand-over of remote tools: `DurableRemoteTools` of `remote-tools.ts`, the publications of control
tools in `agent-session.ts`, and the acknowledgement of a publication in `session-host.ts`.

* `Command`, `TaskRecord`, `Write`: what is handed over, and what a commit records.
* `prepareRemote`, `prepareControls`: the commands and cancellations that go out with a commit.
* `State`, `act`: preparations, executions, recoveries, publications and their answers.
* `Lawful`: what the native session sees to.
-/

namespace PiCloud
namespace Supervisor
namespace Remote

open Lib

/-! ## Commands and commits -/

structure Definition where
  name : String
  replaySafe : Bool
deriving DecidableEq

/-- What is asked of an executor, of the control plane, or of the workspace: there a tool call, or a
workflow with its script. -/
inductive Body (α σ : Type) where
  | executor (arguments : α)
  | control (conversation : Nat) (arguments : α) (recovery : Bool)
  | toolExecute (args : α)
  | workflow (script : σ)
deriving DecidableEq

/-- `CandidateToolEffect`. `task` is what `toolCallId` names, `operation` a random identity. -/
structure Command (α σ : Type) where
  operation : Nat
  task : Nat
  callId : Nat
  toolName : String
  binding : Nat
  body : Body α σ
deriving DecidableEq

namespace Command

variable {α σ : Type}

def isControl (c : Command α σ) : Bool :=
  match c.body with
  | .control .. => true
  | _ => false

end Command

/-- `CandidateToolCancellation` -/
structure Cancellation where
  conversation : Nat
  binding : Nat
  operation : Nat
  executor : Bool
deriving DecidableEq

/-- Nothing is cancelled of a control tool. -/
def cancellationsOf {α σ : Type} (conversation : Nat) (c : Command α σ) : List Cancellation :=
  match c.body with
  | .executor _ => [⟨conversation, c.binding, c.operation, true⟩]
  | .control .. => []
  | .toolExecute _ | .workflow _ => [⟨conversation, c.binding, c.operation, false⟩]

inductive Status where
  | pending | running | waiting | terminal
deriving DecidableEq

structure Checkpoint (α : Type) where
  execute : Bool
  arguments : Option α
deriving DecidableEq

/-- A task as a commit records it. -/
structure TaskRecord (α : Type) where
  id : Nat
  conversation : Nat
  isTool : Bool
  abortRequested : Bool
  status : Status
  callId : Option Nat
  checkpoint : Option (Checkpoint α)
deriving DecidableEq

/-- The checkpoint's phase is `execute`. -/
def TaskRecord.executing {α : Type} (r : TaskRecord α) : Bool := r.checkpoint.any (·.execute)

/-- A write of a commit. `control` creates the document of a host call or of a recovery. -/
inductive Write (α : Type) where
  | task (r : TaskRecord α)
  | control (operation task : Nat)
  | other
deriving DecidableEq

section Commits

variable {α : Type}

def tasksOf (writes : List (Write α)) : List (TaskRecord α) :=
  writes.filterMap fun
    | .task r => some r
    | _ => none

def controlsOf (writes : List (Write α)) : List (Nat × Nat) :=
  writes.filterMap fun
    | .control operation task => some (operation, task)
    | _ => none

/-- `durableToolIntent`: the call and its arguments as the commit records them. -/
def durableToolIntent (writes : List (Write α)) (task : Nat) : Option (Nat × α) := do
  let r ← (tasksOf writes).find? (·.id = task)
  let checkpoint ← r.checkpoint
  guard (r.isTool && !r.abortRequested && checkpoint.execute)
  return (← r.callId, ← checkpoint.arguments)

end Commits

/-! ## Publications -/

variable {α σ : Type} [DecidableEq α] [DecidableEq σ]

/-- `completed` is what the wait for a reply knows. -/
structure Pending (α σ : Type) where
  command : Command α σ
  dispatched : Bool := false
  cancelled : Bool := false
  completed : Bool := false

abbrev Pendings (α σ : Type) := InsertionMap Nat (Pending α σ)

/-- The command that was prepared is the one that is recorded; `script` is the script of a workflow's
arguments. -/
def Command.fits (script : α → σ) (c : Command α σ) (intent : Nat × α) : Bool :=
  c.callId = intent.1 &&
    match c.body with
    | .executor arguments | .control _ arguments _ | .toolExecute arguments => arguments = intent.2
    | .workflow s => s = script intent.2

structure Preparation (α σ : Type) where
  tools : List (Nat × Command α σ) := []
  cancellations : List Cancellation := []
  terminal : List Nat := []
  /-- Task and operation of the entries that are cancelled. -/
  cancelling : List (Nat × Nat) := []

def Pending.ends (e : Pending α σ) (r : TaskRecord α) : Bool :=
  r.abortRequested && e.dispatched && !e.cancelled && !e.completed

def Pending.starts (e : Pending α σ) (r : TaskRecord α) : Bool :=
  !r.abortRequested && r.executing && !e.dispatched

namespace Preparation

variable (acc : Preparation α σ) (r : TaskRecord α)

def abort (e : Pending α σ) : Preparation α σ :=
  if e.ends r then
    { acc with
      cancellations := acc.cancellations ++ cancellationsOf r.conversation e.command
      cancelling := acc.cancelling ++ [(r.id, e.command.operation)] }
  else acc

/-- None where the command differs from the intent that is recorded. -/
def start (script : α → σ) (writes : List (Write α)) (e : Pending α σ) : Option (Preparation α σ) :=
  if e.starts r then do
    let intent ← durableToolIntent writes r.id
    guard (e.command.fits script intent)
    return { acc with tools := acc.tools ++ [(r.id, e.command)] }
  else some acc

def finish : Preparation α σ :=
  if r.status = .terminal then { acc with terminal := acc.terminal ++ [r.id] } else acc

end Preparation

/-- One task of a commit. -/
def prepareTask (script : α → σ) (pending : Pendings α σ) (writes : List (Write α))
    (acc : Preparation α σ) (r : TaskRecord α) : Option (Preparation α σ) :=
  match pending.get r.id with
  | none => some acc
  | some e =>
    if r.isTool = false then some acc
    else do
      let acc ← (acc.abort r e).start r script writes e
      return acc.finish r

/-- `DurableRemoteTools.preparePublication`; none where it throws. -/
def prepareRemote (script : α → σ) (pending : Pendings α σ) (writes : List (Write α)) :
    Option (Preparation α σ) :=
  (tasksOf writes).foldlM (prepareTask script pending writes) {}

/-- The commands that `publishControl` is publishing, by operation. -/
abbrev Controls (α σ : Type) := InsertionMap Nat (Nat × Command α σ)

/-- The second part of `DurableAgentSession.preparePublication`. -/
def prepareControls (controls : Controls α σ) (writes : List (Write α)) :
    Option (List (Nat × Command α σ)) :=
  (controlsOf writes).mapM fun w => controls.get w.1

abbrev Records (α : Type) := InsertionMap Nat (TaskRecord α)

/-- A commit with what goes out with it. `intents` are the commands of prepared calls, `controls`
those of `publishControl`. `completed` are the tasks that were known to be complete when it was
prepared, and `records` the tasks as they were acknowledged then. -/
structure Publication (α σ : Type) where
  writes : List (Write α)
  intents : List (Nat × Command α σ)
  controls : List (Nat × Command α σ)
  cancellations : List Cancellation
  terminal : List Nat
  cancelling : List (Nat × Nat)
  completed : List Nat
  records : Records α

def Publication.tools (p : Publication α σ) : List (Nat × Command α σ) := p.intents ++ p.controls

/-! ## The session -/

structure Invocation where
  task : Nat
  toolName : String
deriving DecidableEq

/-- A recovery that waits: for `prepareRemote`, or for the commit of its operation. -/
structure Recovery (α σ : Type) where
  invocation : Invocation
  command : Option (Command α σ) := none

/-- `hooks` are the sets of names that hooks were made with, `handed` the definitions that were
handed out, `preparing` the calls in `beforeTool`, `recovering` those in a recovery. `records` and
`documents` are what was acknowledged, `waits` the replies that were waited for. -/
structure State (α σ : Type) where
  names : List String := []
  hooks : List (List String) := []
  handed : List Definition := []
  pending : Pendings α σ := {}
  preparing : List Invocation := []
  recovering : List (Recovery α σ) := []
  controls : Controls α σ := {}
  records : Records α := {}
  documents : List Nat := []
  inFlight : Option (Publication α σ) := none
  interrupted : Bool := false
  closed : Bool := false
  operations : Nat := 0
  published : List (Publication α σ) := []
  waits : List (Nat × Nat) := []

inductive Action (α σ : Type) where
  | replaceDefinitions (definitions : List Definition)
  | beforeTool (hook : Nat) (i : Invocation)
  /-- `prepare` answers, or fails. `aborted` is the call's signal. -/
  | prepared (i : Nat) (command : Command α σ) (aborted : Bool)
  | prepareFailed (i : Nat)
  | execute (d : Definition) (task : Nat)
  /-- The recovered command is prepared and handed to `publishControl`. -/
  | publishRecovery (i : Nat) (command : Command α σ)
  | recovered (i : Nat) (aborted : Bool)
  | recoverFailed (i : Nat)
  | publishControl (task : Nat) (command : Command α σ)
  | controlSettled (operation : Nat)
  | completed (task : Nat)
  | commit (writes : List (Write α))
  | acknowledge
  /-- `PublicationNotSentError` -/
  | refuse
  /-- Any other failure of a publication. -/
  | fail
  | close

/-- What `publishControl` asks of its task inside the commit. -/
def runs (records : Records α) (task : Nat) (c : Command α σ) : Bool :=
  match records.get task, c.body with
  | some r, .control conversation _ _ =>
    r.isTool && r.conversation = conversation && !r.abortRequested && r.status = .running &&
      r.executing
  | _, _ => false

namespace State

/-- The publication of a commit, if it can be prepared. -/
def publication (script : α → σ) (s : State α σ) (writes : List (Write α)) :
    Option (Publication α σ) := do
  let remote ← prepareRemote script s.pending writes
  let controls ← prepareControls s.controls writes
  return {
    writes, controls
    intents := remote.tools
    cancellations := remote.cancellations
    terminal := remote.terminal
    cancelling := remote.cancelling
    completed := (tasksOf writes).filterMap fun r =>
      if (s.pending.get r.id).any (·.completed) then some r.id else none
    records := s.records }

def dispatch (pending : Pendings α σ) (tasks : List Nat) : Pendings α σ :=
  tasks.foldl (fun m t => m.update t fun e => { e with dispatched := true }) pending

def cancel (pending : Pendings α σ) (cancelling : List (Nat × Nat)) : Pendings α σ :=
  cancelling.foldl (fun m c => m.update c.1 fun e =>
    if e.command.operation = c.2 then { e with cancelled := true } else e) pending

/-- `confirmed`, where every dispatched call is still pending. -/
def confirm (pending : Pendings α σ) (p : Publication α σ) : Pendings α σ :=
  p.terminal.foldl InsertionMap.delete
    (cancel (dispatch pending (p.intents.map Prod.fst)) p.cancelling)

/-- The answer to a publication. Where a dispatched call is not pending any more, `confirmed` throws
at that call. -/
def acknowledge (s : State α σ) (p : Publication α σ) : State α σ :=
  let s := { s with inFlight := none, published := s.published ++ [p] }
  if p.intents.all fun t => (s.pending.get t.1).isSome then
    { s with
      pending := confirm s.pending p
      records := (tasksOf p.writes).foldl (fun m (r : TaskRecord α) => m.set r.id r) s.records
      documents := s.documents ++ (controlsOf p.writes).map Prod.fst }
  else
    let present := p.intents.takeWhile fun t => (s.pending.get t.1).isSome
    { s with pending := dispatch s.pending (present.map Prod.fst), interrupted := true }

def wait (s : State α σ) (task : Nat) (e : Pending α σ) : State α σ :=
  { s with waits := s.waits ++ [(task, e.command.operation)] }

end State

def act (script : α → σ) (s : State α σ) : Action α σ → Option (State α σ)
  | .replaceDefinitions definitions =>
    some { s with
      names := definitions.map Definition.name
      hooks := s.hooks ++ [definitions.map Definition.name]
      handed := s.handed ++ definitions }
  | .beforeTool hook i => do
    let names ← s.hooks[hook]?
    -- a name that the hook does not know is none of its business, a withdrawn one is blocked
    if i.toolName ∈ names ∧ i.toolName ∈ s.names then
      return { s with preparing := s.preparing ++ [i] }
    else return s
  | .prepared k command aborted => do
    let i ← s.preparing[k]?
    let command := { command with operation := s.operations }
    let s := { s with preparing := s.preparing.eraseIdx k, operations := s.operations + 1 }
    if command.task ≠ i.task ∨ command.toolName ≠ i.toolName ∨ aborted = true ∨
        (s.pending.get i.task).isSome then return s
    else return { s with pending := s.pending.set i.task { command } }
  | .prepareFailed k => do
    guard (k < s.preparing.length)
    return { s with preparing := s.preparing.eraseIdx k }
  | .execute d task => do
    guard (d ∈ s.handed)
    match s.pending.get task with
    | some e => if e.dispatched then return s.wait task e else return s
    | none =>
      if d.name ∈ s.names ∧ d.replaySafe then
        return { s with recovering := s.recovering ++ [{ invocation := ⟨task, d.name⟩ }] }
      else return s
  | .publishRecovery k command => do
    let r ← s.recovering[k]?
    guard (r.command = none)
    match command.body with
    | .control _ _ true =>
      let command := { command with operation := s.operations }
      return { s with
        operations := s.operations + 1
        controls := s.controls.set command.operation (r.invocation.task, command)
        recovering := s.recovering.set k { r with command := some command } }
    | _ => return { s with recovering := s.recovering.eraseIdx k }
  | .recovered k aborted => do
    let r ← s.recovering[k]?
    let command ← r.command
    -- `publishControl` returns when its commit is acknowledged
    guard (command.operation ∈ s.documents)
    let s := { s with recovering := s.recovering.eraseIdx k }
    if aborted then return s
    else
      let e : Pending α σ := { command, dispatched := true }
      return { s with pending := s.pending.set r.invocation.task e }.wait r.invocation.task e
  | .recoverFailed k => do
    guard (k < s.recovering.length)
    return { s with recovering := s.recovering.eraseIdx k }
  | .publishControl task command => do
    let command := { command with operation := s.operations }
    return { s with
      operations := s.operations + 1
      controls := s.controls.set command.operation (task, command) }
  | .controlSettled operation => some { s with controls := s.controls.delete operation }
  | .completed task =>
    some { s with pending := s.pending.update task fun e => { e with completed := true } }
  | .commit writes => do
    guard (s.inFlight.isNone ∧ s.interrupted = false ∧ s.closed = false)
    guard ((controlsOf writes).all fun w =>
      (s.controls.get w.1).all fun c => c.1 = w.2 && runs s.records c.1 c.2)
    match s.publication script writes with
    | none => return s
    | some p => return { s with inFlight := some p }
  | .acknowledge => do
    let p ← s.inFlight
    return s.acknowledge p
  | .refuse => do
    guard s.inFlight.isSome
    return { s with inFlight := none }
  | .fail => do
    guard s.inFlight.isSome
    return { s with inFlight := none, interrupted := true }
  | .close => some { s with pending := {}, closed := true }

def session (script : α → σ) : System (State α σ) (Action α σ) where
  init s := ∃ records, s = { records }
  step s a t := act script s a = some t

/-- What the native session sees to. A commit writes a task once, writes no task again that has ended,
and creates a document once. A task is invoked once at a time, and its hooks have ended before a commit
to execute it is under way. -/
def Lawful (s : State α σ) : Action α σ → Prop
  | .commit writes =>
    ((tasksOf writes).map TaskRecord.id).Nodup ∧
      (∀ r ∈ tasksOf writes, ∀ old, s.records.get r.id = some old → old.status ≠ .terminal) ∧
      ((controlsOf writes).map Prod.fst).Nodup ∧
      ∀ w ∈ controlsOf writes, w.1 ∉ s.documents
  | .prepared k _ _ => ∀ i ∈ s.preparing[k]?, ∀ p ∈ s.inFlight, i.task ∉ p.intents.map Prod.fst
  | .recovered k _ => ∀ r ∈ s.recovering[k]?, s.pending.get r.invocation.task = none
  | _ => True

end Remote
end Supervisor
end PiCloud
