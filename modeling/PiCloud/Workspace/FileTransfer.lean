import Mathlib.Logic.Function.Basic
import PiCloud.Lib.Run

/-!
# Workspace.FileTransfer

One resumable upload into a Workspace: the admission row of the control plane, the staging directory
of the receiver with the requests that work in it, and the destination.

* `Upload`, `Request`, `Metadata`: what was declared, what is asked, what the receiver keeps.
* `State`: row, staging, destination, the request that holds the lock, and the answers so far.
* `State.proceed`: the next file operation of `workspaceFileTransfer`, point by point.
* `Op`, `apply`: the operations of control plane, receiver, reaper and user, each of them atomic. A
  request may stop at every point.
-/

namespace PiCloud
namespace Workspace

open Lib

/-- `WORKSPACE_TRANSFER_TTL_MS` -/
def transferTtl : Nat := 24 * 60 * 60 * 1000

/-- `WORKSPACE_TRANSFER_CHUNK_BYTES` -/
def transferChunkBytes : Nat := 8 * 1024 * 1024

/-- The declared file, and the digest function. -/
structure Upload (δ : Type) where
  byteLength : Nat
  sha256 : δ
  digest : List UInt8 → δ

inductive Action where
  | create
  | status
  | append (offset chunkLength : Nat)
  | cancel
  deriving DecidableEq, Repr

structure Request where
  action : Action
  expiresAt : Nat
  deriving DecidableEq, Repr

/-- `parseWorkspaceFileTransferRequest`, the fields of an action. -/
def Request.valid {δ : Type} (u : Upload δ) (r : Request) : Bool :=
  match r.action with
  | .append offset chunkLength =>
    1 ≤ chunkLength && chunkLength ≤ transferChunkBytes && offset + chunkLength ≤ u.byteLength
  | _ => true

inductive TransferState where
  | uploading | publishing | ready | cancelled | failed
  deriving DecidableEq, Repr

/-- `parent` is the directory at the destination path, `inode` the body that is being published. -/
structure Metadata where
  parent : Option Nat
  expiresAt : Nat
  state : TransferState
  inode : Option Nat := none
  deriving DecidableEq, Repr

/-- A file, by its inode: its bytes, how many of them are on the disk, and whether it was created as a
body in the staging directory. -/
structure Stored where
  data : List UInt8 := []
  synced : Nat := 0
  staged : Bool := false
  deriving DecidableEq, Repr

def Stored.sync (f : Stored) : Stored := { f with synced := f.data.length }

inductive AnswerState where
  | uploading | ready | cancelled
  deriving DecidableEq, Repr

/-- A snapshot that a request returned, with the bytes of the body on the disk at that time. -/
structure Answer where
  state : AnswerState
  offset : Nat
  stored : Nat
  deriving DecidableEq, Repr

inductive RowState where
  | uploading | ready | cancelled
  deriving DecidableEq, Repr

/-- The next file operation of a request, with the metadata it works on or is about to write. -/
inductive Point where
  | readMetadata
  | saveTombstone (m : Metadata)
  | removeBody
  | saveCreated (m : Metadata)
  | saveRenewed (m : Metadata)
  | openBody (m : Metadata)
  | receive (m : Metadata) (start received : Nat)
  | syncBody (m : Metadata) (size : Nat)
  | savePublishing (m : Metadata)
  | link (m : Metadata)
  | saveFailed (m : Metadata)
  | saveReady (m : Metadata)
  | removePublished
  deriving DecidableEq, Repr

/-- The request that holds the lock of the upload, and the parent it has opened. -/
structure Critical where
  request : Request
  parent : Nat := 0
  point : Point := .readMetadata
  deriving DecidableEq, Repr

structure State where
  now : Nat
  -- the row of `workspace_file_transfers`, and the requests that it has admitted
  rowState : RowState := .uploading
  rowExpiresAt : Nat
  admitted : List Request := []
  -- the staging directory of the upload
  directory : Bool := false
  metadata : Option Metadata := none
  body : Option Nat := none
  -- the directory at the destination path, and the file of the declared name in each directory
  parent : Nat
  target : Nat → Option Nat
  files : Nat → Stored
  nextInode : Nat
  -- requests that have opened the directory, and the one with its lock
  waiting : List Request := []
  critical : Option Critical := none
  reaping : Bool := false
  /-- the bodies that were linked to the destination -/
  linked : List Nat := []
  /-- the latest first -/
  answers : List Answer := []

namespace State

variable {δ : Type} (u : Upload δ) (s : State) (c : Critical)

def leave : State := { s with critical := none }

def bodyStored : Nat := s.body.elim 0 fun i => (s.files i).synced

def reply (state : AnswerState) (offset : Nat) : State :=
  { s with critical := none, answers := ⟨state, offset, s.bodyStored⟩ :: s.answers }

def goto (point : Point) : State := { s with critical := some { c with point } }

def setFile (i : Nat) (f : Stored) : State := { s with files := Function.update s.files i f }

/-- `writeMetadata`: the rename, or the exchange with a recovery file. -/
def writeMetadata (m : Metadata) : State := { s with metadata := some m }

/-- Retain a tombstone: a delayed create cannot resurrect it. -/
def tombstone : Metadata where
  parent := s.metadata.bind (·.parent)
  expiresAt := max (s.metadata.elim 0 (·.expiresAt)) (s.now + transferTtl)
  state := .cancelled

/-- The `cancel` branch. -/
def decideCancel : State :=
  match s.metadata.map Metadata.state with
  | some .cancelled => s.goto c .removeBody
  | some .ready => s.reply .ready u.byteLength
  | _ => s.goto c (.saveTombstone s.tombstone)

/-- `create`, `status` and `append`, up to the body. -/
def decideWork : State :=
  match s.metadata with
  | none =>
    if c.request.expiresAt ≤ s.now then s.leave
    else if c.request.action = .create then
      s.goto { c with parent := s.parent }
        (.saveCreated { parent := some s.parent, expiresAt := c.request.expiresAt, state := .uploading })
    else s.leave
  | some m =>
    if m.state = .cancelled ∨ m.state = .failed then s.leave
    else if m.expiresAt ≤ s.now ∨ c.request.expiresAt ≤ s.now then s.leave
    else if m.state = .ready then s.reply .ready u.byteLength
    else if m.parent ≠ some s.parent then s.leave
    else if m.expiresAt < c.request.expiresAt then
      s.goto { c with parent := s.parent } (.saveRenewed { m with expiresAt := c.request.expiresAt })
    else s.goto { c with parent := s.parent } (.openBody m)

/-- After the body is open. -/
def checkBody (m : Metadata) (size : Nat) : State :=
  if u.byteLength < size then s.leave
  else match c.request.action with
    | .append offset _ =>
      if m.state ≠ .uploading ∨ offset ≠ size then s.leave else s.goto c (.receive m size 0)
    | _ => s.goto c (.syncBody m size)

/-- An empty body. -/
def createBody : State :=
  { s.setFile s.nextInode { staged := true } with
    body := some s.nextInode
    nextInode := s.nextInode + 1 }

/-- A `create` makes the body where it is missing. -/
def openBody (m : Metadata) : State :=
  match s.body with
  | some i => s.checkBody u c m (s.files i).data.length
  | none =>
    if c.request.action = .create then
      s.createBody.checkBody u c m 0
    else s.leave

variable [DecidableEq δ]

/-- A body of full length: a publication that was interrupted is recognised by its inode, and else the
digest decides. -/
def verify (m : Metadata) (i : Nat) : State :=
  if m.state = .publishing then
    if (s.target c.parent).isSome ∧ s.target c.parent = m.inode then
      s.goto c (.saveReady { m with state := .ready })
    else s.leave
  else if u.digest (s.files i).data = u.sha256 then
    s.goto c (.savePublishing { m with state := .publishing, inode := some i })
  else s.goto c (.saveFailed { m with state := .failed })

def syncBody (m : Metadata) (size i : Nat) : State :=
  let s := s.setFile i (s.files i).sync
  if size ≠ u.byteLength then s.reply .uploading size else s.verify u c m i

def putLink (directory i : Nat) : State :=
  { s with
    target := Function.update s.target directory (some i)
    linked := i :: s.linked }

/-- `link`, which never replaces. -/
def link (m : Metadata) (i : Nat) : State :=
  match s.target c.parent with
  | some _ => s.goto c (.saveFailed { m with state := .failed })
  | none => (s.putLink c.parent i).goto c (.saveReady { m with state := .ready })

/-- The next file operation of the request with the lock; chunks arrive by `write` and `finish`. -/
def proceed : Option State :=
  s.critical.bind fun c =>
    match c.point with
    | .readMetadata =>
      some (if c.request.action = .cancel then s.decideCancel u c else s.decideWork u c)
    | .saveTombstone m => some ((s.writeMetadata m).goto c .removeBody)
    | .removeBody => some ({ s with body := none }.reply .cancelled 0)
    | .saveCreated m => some ((s.writeMetadata m).goto c (.openBody m))
    | .saveRenewed m => some ((s.writeMetadata m).goto c (.openBody m))
    | .openBody m => some (s.openBody u c m)
    | .receive _ _ _ => none
    | .syncBody m size => s.body.map (s.syncBody u c m size)
    | .savePublishing m => some ((s.writeMetadata m).goto c (.link m))
    | .link m => s.body.map (s.link c m)
    | .saveFailed m => some (s.writeMetadata m).leave
    | .saveReady m => some ((s.writeMetadata m).goto c .removePublished)
    | .removePublished => some ({ s with body := none }.reply .ready u.byteLength)

end State

namespace State

variable (s : State)

/-- A part of a chunk is written at the end of the body. -/
def write (bytes : List UInt8) : Option State := do
  let c ← s.critical
  let i ← s.body
  match c.point, c.request.action with
  | .receive m start received, .append _ chunkLength =>
    if bytes = [] then none
    else if chunkLength < received + bytes.length then
      some (s.setFile i (s.files i).sync).leave
    else
      some ((s.setFile i { s.files i with data := (s.files i).data ++ bytes }).goto c
        (.receive m start (received + bytes.length)))
  | _, _ => none

/-- The chunk has ended, or was interrupted. -/
def finish : Option State := do
  let c ← s.critical
  let i ← s.body
  match c.point, c.request.action with
  | .receive m _ received, .append _ chunkLength =>
    let s := s.setFile i (s.files i).sync
    some (if received ≠ chunkLength then s.leave
      else s.goto c (.syncBody m (s.files i).data.length))
  | _, _ => none

/-- An error or a crash: the lock is free again, and bytes that are not on the disk may be lost. -/
def stop (kept : Nat) : Option State := do
  let _ ← s.critical
  match s.body with
  | none => some s.leave
  | some i => do
    guard ((s.files i).synced ≤ kept)
    some (s.setFile i { s.files i with data := (s.files i).data.take kept }).leave

end State

inductive Op where
  | tick (ms : Nat)
  -- the user
  | place (directory : Nat) (data : List UInt8)
  | remove (directory : Nat)
  | replaceParent (directory : Nat)
  -- the control plane
  | admitCreate
  | admitStatus
  | admitAppend (offset chunkLength : Nat)
  | admitCancel
  | settle (answer : Answer)
  -- requests at the receiver
  | arrive (r : Request)
  | abandon (r : Request)
  | lock (r : Request)
  | proceed
  | write (bytes : List UInt8)
  | finish
  | stop (kept : Nat)
  -- maintenance
  | reap (mtime : Nat)
  | reapMetadata
  | reapBody
  | reapEnd
  | reapStop
  deriving DecidableEq, Repr

namespace State

variable {δ : Type} (u : Upload δ) (s : State)

/-- `#admit` renews an upload that is going on and not expired; a request that does not parse is not
sent. -/
def admitRequest (action : Action) : Option State := do
  guard (s.rowState = .uploading ∧ s.now < s.rowExpiresAt)
  let r : Request := { action, expiresAt := s.now + transferTtl }
  some { s with
    rowExpiresAt := s.now + transferTtl
    admitted := if r.valid u then r :: s.admitted else s.admitted }

/-- `create` of an upload that is known. -/
def admitCreate : Option State := do
  guard (s.rowState = .uploading ∧ s.now < s.rowExpiresAt)
  some { s with admitted := { action := .create, expiresAt := s.rowExpiresAt } :: s.admitted }

/-- `cancel`, of a user or of an expired upload. -/
def admitCancel : Option State := do
  guard (s.rowState ≠ .ready)
  some { s with
    rowState := .cancelled
    admitted := { action := .cancel, expiresAt := s.rowExpiresAt } :: s.admitted }

/-- `#execute`, when the answer has come. -/
def settle (a : Answer) : Option State := do
  guard (a ∈ s.answers)
  match a.state with
  | .uploading => none
  | .ready => some { s with rowState := .ready }
  | .cancelled => some { s with rowState := .cancelled }

/-- A request opens the directory, which a `create` or a `cancel` makes. It uses the staging area, and
so no reaping is going on. -/
def arrive (r : Request) : Option State := do
  guard (r ∈ s.admitted ∧ s.reaping = false)
  guard (s.directory = true ∨ r.action = .create ∨ r.action = .cancel)
  some { s with directory := true, waiting := r :: s.waiting }

def lock (r : Request) : Option State := do
  guard (r ∈ s.waiting ∧ s.critical = none)
  some { s with waiting := s.waiting.erase r, critical := some { request := r } }

/-- `reapWorkspaceFileTransfer` has the staging area for itself. -/
def reap (mtime : Nat) : Option State := do
  guard (s.reaping = false ∧ s.waiting = [] ∧ s.critical = none ∧ s.directory = true)
  guard (s.metadata.elim (mtime + transferTtl) (·.expiresAt) ≤ s.now)
  some { s with reaping := true }

def reapEnd : Option State := do
  guard (s.reaping = true ∧ s.metadata = none ∧ s.body = none)
  some { s with directory := false, reaping := false }

def placeFile (directory : Nat) (data : List UInt8) : State :=
  { s.setFile s.nextInode { data } with
    target := Function.update s.target directory (some s.nextInode)
    nextInode := s.nextInode + 1 }

def place (directory : Nat) (data : List UInt8) : Option State := do
  guard (s.target directory = none)
  some (s.placeFile directory data)

end State

section Transfer

variable {δ : Type} [DecidableEq δ] (u : Upload δ)

def apply (s : State) : Op → Option State
  | .tick ms => some { s with now := s.now + ms }
  | .place directory data => s.place directory data
  | .remove directory => some { s with target := Function.update s.target directory none }
  | .replaceParent directory => some { s with parent := directory }
  | .admitCreate => s.admitCreate
  | .admitStatus => s.admitRequest u .status
  | .admitAppend offset chunkLength => s.admitRequest u (.append offset chunkLength)
  | .admitCancel => s.admitCancel
  | .settle a => s.settle a
  | .arrive r => s.arrive r
  | .abandon r => some { s with waiting := s.waiting.erase r }
  | .lock r => s.lock r
  | .proceed => s.proceed u
  | .write bytes => s.write bytes
  | .finish => s.finish
  | .stop kept => s.stop kept
  | .reap mtime => s.reap mtime
  | .reapMetadata => if s.reaping then some { s with metadata := none } else none
  | .reapBody => if s.reaping then some { s with body := none } else none
  | .reapEnd => s.reapEnd
  | .reapStop => if s.reaping then some { s with reaping := false } else none

/-- The row is new, and the receiver knows nothing of the upload. -/
structure Initial (s : State) : Prop where
  row : s.rowState = .uploading ∧ s.rowExpiresAt = s.now + transferTtl ∧ s.admitted = []
  staging : s.metadata = none ∧ s.body = none
  files : ∀ i, (s.files i).staged = false
  target : ∀ p i, s.target p = some i → i < s.nextInode
  idle : s.waiting = [] ∧ s.critical = none ∧ s.reaping = false
  fresh : s.linked = [] ∧ s.answers = []

def transferSystem : System State Op where
  init := Initial
  step s op s' := apply u s op = some s'

end Transfer

end Workspace
end PiCloud
