import PiCloud.Lib.InsertionMap
import Mathlib.Logic.Function.Basic

/-!
# Attachments.Inventory

The inventory of attachments: PostgreSQL rows that own the reachability of objects in a blob store, with
any number of uploads, retaining transactions and reapers between them.

* `Writer`: a `put` or a `putStream`, with its one request to the blob store.
* `Retention`: a transaction that calls `retainSessionAttachments`, with the rows that it has locked.
* `Reaper`: a `reap`, from its candidates to the deletion of their objects.
* `AttachmentStore.act`: one statement, one network event, or what the rest of the program does to
  uploads, Runs and Sessions.

A crash is a process that takes no further step. A request that its caller gave up may still take effect.
-/

namespace PiCloud
namespace Attachments
namespace Inventory

open Lib

structure AttachmentKey where
  tenantId : Nat
  id : Nat
deriving DecidableEq

structure Contents where
  sha256 : Nat
  byteLength : Nat
  mimeType : Nat
deriving DecidableEq

inductive ObjectState where
  | uploading
  | ready
  | deleting
deriving DecidableEq

/-- A row of `session_attachment_objects`; `writeCompleted` says that `write_completed_at` is set. -/
structure InventoryRow where
  contents : Contents
  sourceRunId : Option Nat
  state : ObjectState := .uploading
  writeCompleted : Bool := false
  createdAt : Int
  cleanupAvailableAt : Int
  cleanupFailures : Nat := 0
deriving DecidableEq

inductive UploadState where
  | uploading
  | ready
  | failed
deriving DecidableEq

/-- A row of `session_uploads`; `pinned` says that `session_upload_pins` has it. -/
structure SessionUpload where
  tenantId : Nat
  claimToken : Nat
  state : UploadState
  leaseExpiresAt : Int
  expiresAt : Int
  accepted : Bool := false
  pinned : Bool := false
  attachmentId : Option Nat := none
deriving DecidableEq

/-- The tables that refer to attachments, beside the uploads. -/
inductive ReferenceTable where
  | session
  | historyRecord
  | historyHeader
deriving DecidableEq

structure Reference where
  table : ReferenceTable
  owner : Nat
  key : AttachmentKey
deriving DecidableEq

/-- The request of a writer to the blob store: not sent, without an effect so far, or done. -/
inductive Request where
  | none
  | pending
  | done
deriving DecidableEq

inductive WriterPhase where
  /-- before its row is there -/
  | inserting
  | inserted
  | transferring
  /-- before its `#writeCompleted` -/
  | completing (ready : Bool)
  | finished
deriving DecidableEq

structure UploadClaim where
  uploadId : Nat
  claimToken : Nat
deriving DecidableEq

/-- A `put`, or with a claim a `putStream`. `length` counts the bytes of its source, `sent` those that its
transport was given. -/
structure Writer where
  tenantId : Nat
  contents : Contents
  runId : Option Nat := none
  claim : Option UploadClaim := none
  phase : WriterPhase := .inserting
  request : Request := .none
  length : Nat := 0
  sent : Nat := 0
  ended : Bool := false
  complete : Bool := false

/-- A transaction with the rows that it has locked for share, and references that it has inserted. -/
structure Retention where
  tenantId : Nat
  locked : List (Nat × Contents) := []
  inserted : List Reference := []

/-- A deletion that a reaper has sent, and whether it took effect. -/
structure Deletion where
  key : AttachmentKey
  done : Bool := false

/-- A `reap`. In its transaction it has `candidates`, `locked` rows and then those that it has claimed,
with their `write_completed_at`; after it a queue of them. -/
structure Reaper where
  candidates : AttachmentKey → Bool := fun _ => false
  locked : List AttachmentKey := []
  claimed : Option (List (AttachmentKey × Bool)) := none
  queue : List (AttachmentKey × Bool) := []
  deletion : Option Deletion := none
  /-- deletions that it gave up -/
  abandoned : List Deletion := []

structure AttachmentStore where
  inventory : AttachmentKey → Option InventoryRow := fun _ => none
  blobs : AttachmentKey → Bool := fun _ => false
  references : List Reference := []
  uploads : InsertionMap Nat SessionUpload := {}
  /-- Runs whose output is not sealed -/
  unsealedRuns : List Nat := []
  writers : Nat → Writer := fun _ =>
    { tenantId := 0, contents := { sha256 := 0, byteLength := 0, mimeType := 0 } }
  nextWriter : Nat := 0
  retentions : Nat → Retention := fun _ => { tenantId := 0 }
  nextRetention : Nat := 0
  reapers : Nat → Reaper := fun _ => {}
  nextReaper : Nat := 0
  /-- rows that were removed -/
  removed : List AttachmentKey := []

inductive StoreAction where
  | put (tenantId : Nat) (contents : Contents) (runId : Option Nat)
  | putStream (tenantId : Nat) (contents : Contents) (claim : UploadClaim)
  | insert (w : Nat) (now : Int)
  /-- the signal has aborted before the transfer -/
  | abortBefore (w : Nat)
  | transfer (w : Nat)
  | chunk (w bytes : Nat)
  | endOfStream (w : Nat) (digestMatches : Bool)
  /-- the request takes effect in the blob store -/
  | objectPut (w : Nat)
  | putSucceeded (w : Nat)
  | putFailed (w : Nat)
  | writeCompleted (w : Nat)
  | begin (tenantId : Nat)
  /-- `select … for share` reaches a row -/
  | lockForShare (t id : Nat)
  | retain (t sessionId : Nat) (refs : List (Nat × Contents))
  | referHistory (t : Nat) (table : ReferenceTable) (owner id : Nat)
  | commit (t : Nat)
  | rollback (t : Nat)
  /-- `reap` deletes drafts -/
  | reapDrafts (uploads : List Nat) (now : Int)
  | reap (graceMs now : Int)
  /-- `for update skip locked` reaches a row -/
  | lockForUpdate (r : Nat) (key : AttachmentKey)
  | claim (r : Nat)
  | commitReap (r : Nat)
  | rollbackReap (r : Nat)
  | deleteObject (r : Nat)
  /-- the deletion takes effect in the blob store -/
  | objectDeleted (r : Nat)
  | abandonedDeleted (r j : Nat)
  | deleteSucceeded (r : Nat) (now : Int)
  | deleteFailed (r : Nat) (now : Int)
  /-- what the upload service does to an upload, its attachment apart -/
  | setUpload (id : Nat) (upload : SessionUpload)
  | setUnsealed (runs : List Nat)
  | dropReferences (table : ReferenceTable) (owner : Nat)

namespace AttachmentStore

def key (s : AttachmentStore) (w : Nat) : AttachmentKey where
  tenantId := (s.writers w).tenantId
  id := w

def setRow (s : AttachmentStore) (k : AttachmentKey) (row : Option InventoryRow) : AttachmentStore :=
  { s with inventory := Function.update s.inventory k row }

def setWriter (s : AttachmentStore) (w : Nat) (f : Writer → Writer) : AttachmentStore :=
  { s with writers := Function.update s.writers w (f (s.writers w)) }

def setReaper (s : AttachmentStore) (r : Nat) (f : Reaper → Reaper) : AttachmentStore :=
  { s with reapers := Function.update s.reapers r (f (s.reapers r)) }

def setRetention (s : AttachmentStore) (t : Nat) (f : Retention → Retention) : AttachmentStore :=
  { s with retentions := Function.update s.retentions t (f (s.retentions t)) }

/-! ### Row locks -/

def lockedForUpdate (s : AttachmentStore) (k : AttachmentKey) : Bool :=
  (List.range s.nextReaper).any fun r => k ∈ (s.reapers r).locked

def Retention.keys (t : Retention) : List AttachmentKey :=
  t.locked.map fun e => { tenantId := t.tenantId, id := e.1 }

def lockedForShare (s : AttachmentStore) (k : AttachmentKey) : Bool :=
  (List.range s.nextRetention).any fun t => k ∈ Retention.keys (s.retentions t)

def unlocked (s : AttachmentStore) (k : AttachmentKey) : Bool :=
  !s.lockedForUpdate k && !s.lockedForShare k

/-! ### Reachability -/

def referenced (s : AttachmentStore) (k : AttachmentKey) : Bool := s.references.any fun r => r.key = k

def uploaded (s : AttachmentStore) (k : AttachmentKey) : Bool :=
  s.uploads.entries.any fun e => e.2.tenantId = k.tenantId && e.2.attachmentId = some k.id

def unsealed (s : AttachmentStore) (row : InventoryRow) : Bool :=
  row.sourceRunId.any fun run => run ∈ s.unsealedRuns

/-- The `not exists` conditions of `reap`. -/
def unreachable (s : AttachmentStore) (k : AttachmentKey) (row : InventoryRow) : Bool :=
  !s.referenced k && !s.uploaded k && !s.unsealed row

/-! ### Uploads -/

def createWriter (s : AttachmentStore) (writer : Writer) : AttachmentStore :=
  { s with
    writers := Function.update s.writers s.nextWriter writer
    nextWriter := s.nextWriter + 1 }

def newRow (writer : Writer) (now : Int) : InventoryRow where
  contents := writer.contents
  sourceRunId := writer.runId
  createdAt := now
  cleanupAvailableAt := now

/-- The row of a writer; a `putStream` claims its upload with it, or inserts nothing. -/
def insert (s : AttachmentStore) (w : Nat) (now : Int) : AttachmentStore :=
  let writer := s.writers w
  if writer.phase ≠ .inserting then s
  else
    match writer.claim with
    | none =>
      (s.setRow (s.key w) (some (newRow writer now))).setWriter w fun x => { x with phase := .inserted }
    | some claim =>
      match s.uploads.get claim.uploadId with
      | none => s.setWriter w fun x => { x with phase := .finished }
      | some upload =>
        if upload.tenantId = writer.tenantId ∧ upload.claimToken = claim.claimToken ∧
            upload.state = .uploading ∧ now < upload.leaseExpiresAt then
          { (s.setRow (s.key w) (some (newRow writer now))).setWriter w fun x =>
              { x with phase := .inserted } with
            uploads := s.uploads.set claim.uploadId { upload with attachmentId := some w } }
        else s.setWriter w fun x => { x with phase := .finished }

def abortBefore (s : AttachmentStore) (w : Nat) : AttachmentStore :=
  if (s.writers w).phase = .inserted then
    s.setWriter w fun x => { x with phase := .completing false }
  else s

def transfer (s : AttachmentStore) (w : Nat) : AttachmentStore :=
  if (s.writers w).phase = .inserted then
    s.setWriter w fun x => { x with phase := .transferring, request := .pending }
  else s

/-- The next chunk of a streamed source. A source that is too long fails instead of yielding it. -/
def chunk (s : AttachmentStore) (w bytes : Nat) : AttachmentStore :=
  let writer := s.writers w
  if writer.phase ≠ .transferring ∨ writer.claim = none ∨ writer.ended = true then s
  else if writer.contents.byteLength < writer.length + bytes then
    s.setWriter w fun x => { x with length := x.length + bytes, ended := true }
  else s.setWriter w fun x => { x with length := x.length + bytes, sent := x.sent + bytes }

def endOfStream (s : AttachmentStore) (w : Nat) (digestMatches : Bool) : AttachmentStore :=
  let writer := s.writers w
  if writer.phase ≠ .transferring ∨ writer.claim = none ∨ writer.ended = true then s
  else
    s.setWriter w fun x =>
      { x with
        ended := true
        complete := x.length = x.contents.byteLength && digestMatches }

def Writer.transmitted (x : Writer) : Bool := x.claim = none || x.contents.byteLength ≤ x.sent

def objectPut (s : AttachmentStore) (w : Nat) : AttachmentStore :=
  if (s.writers w).request = .pending ∧ Writer.transmitted (s.writers w) = true then
    { s.setWriter w fun x => { x with request := .done } with
      blobs := Function.update s.blobs (s.key w) true }
  else s

def putSucceeded (s : AttachmentStore) (w : Nat) : AttachmentStore :=
  let writer := s.writers w
  if writer.phase = .transferring ∧ writer.request = .done then
    s.setWriter w fun x => { x with phase := .completing (x.claim = none || x.complete) }
  else s

/-- A stream that has not given all its bytes cannot arrive any more. -/
def putFailed (s : AttachmentStore) (w : Nat) : AttachmentStore :=
  let writer := s.writers w
  if writer.phase ≠ .transferring then s
  else if writer.claim ≠ none ∧ writer.length < writer.contents.byteLength then
    s.setWriter w fun x => { x with phase := .completing false }
  else s.setWriter w fun x => { x with phase := .finished }

/-- `#writeCompleted` waits for the row. -/
def writeCompleted (s : AttachmentStore) (w : Nat) : AttachmentStore :=
  match (s.writers w).phase with
  | .completing ready =>
    if s.unlocked (s.key w) then
      match s.inventory (s.key w) with
      | none => s.setWriter w fun x => { x with phase := .finished }
      | some row =>
        (s.setRow (s.key w) (some
          { row with
            writeCompleted := true
            state := if row.state = .uploading ∧ ready = true then .ready else row.state })).setWriter w
          fun x => { x with phase := .finished }
    else s
  | _ => s

/-! ### Retaining transactions -/

/-- Waits for a reaper that has the row, then reads the row as it is. -/
def lockForShare (s : AttachmentStore) (t id : Nat) : AttachmentStore :=
  let k : AttachmentKey := { tenantId := (s.retentions t).tenantId, id }
  if s.lockedForUpdate k then s
  else
    match s.inventory k with
    | none => s
    | some row =>
      if row.state = .ready then
        s.setRetention t fun x => { x with locked := x.locked ++ [(id, row.contents)] }
      else s

/-- `retainSessionAttachments`: every reference names a locked row with its contents. -/
def retain (s : AttachmentStore) (t sessionId : Nat) (refs : List (Nat × Contents)) : AttachmentStore :=
  if refs.all fun ref => ref ∈ (s.retentions t).locked then
    s.setRetention t fun x =>
      { x with
        inserted := x.inserted ++ refs.map fun ref =>
          { table := .session, owner := sessionId, key := { tenantId := x.tenantId, id := ref.1 } } }
  else s

/-- The history tables get references to what the transaction has retained. -/
def referHistory (s : AttachmentStore) (t : Nat) (table : ReferenceTable) (owner id : Nat) :
    AttachmentStore :=
  if (s.retentions t).locked.any fun e => e.1 = id then
    s.setRetention t fun x =>
      { x with inserted := x.inserted ++ [{ table, owner, key := { tenantId := x.tenantId, id } }] }
  else s

/-- `on conflict do nothing`. -/
def addReference (references : List Reference) (reference : Reference) : List Reference :=
  if reference ∈ references then references else references ++ [reference]

def finishRetention (t : Retention) : Retention := { t with locked := [], inserted := [] }

def commit (s : AttachmentStore) (t : Nat) : AttachmentStore :=
  { s.setRetention t finishRetention with
    references := (s.retentions t).inserted.foldl addReference s.references }

/-! ### Reaping -/

def expired (upload : SessionUpload) (now : Int) : Bool :=
  !upload.accepted && upload.expiresAt < now &&
    (upload.state ≠ .uploading || upload.leaseExpiresAt ≤ now) && !upload.pinned

def reapDraft (now : Int) (uploads : InsertionMap Nat SessionUpload) (id : Nat) :
    InsertionMap Nat SessionUpload :=
  if (uploads.get id).any fun upload => expired upload now then uploads.delete id else uploads

def due (s : AttachmentStore) (graceMs now : Int) (k : AttachmentKey) : Bool :=
  (s.inventory k).any fun row =>
    row.createdAt < now - graceMs && row.cleanupAvailableAt ≤ now && s.unreachable k row

def reap (s : AttachmentStore) (graceMs now : Int) : AttachmentStore :=
  if graceMs < 0 then s
  else
    { s with
      reapers := Function.update s.reapers s.nextReaper { candidates := s.due graceMs now }
      nextReaper := s.nextReaper + 1 }

/-- Skips a row that anyone has locked. -/
def lockForUpdate (s : AttachmentStore) (r : Nat) (k : AttachmentKey) : AttachmentStore :=
  let reaper := s.reapers r
  if reaper.claimed = none ∧ reaper.candidates k = true ∧ reaper.locked.length < 32 ∧
      (s.inventory k).isSome ∧ s.unlocked k = true then
    s.setReaper r fun x => { x with locked := x.locked ++ [k] }
  else s

/-- A locked row that is unreachable in a fresh snapshot, with its `write_completed_at`. -/
def claimRow (s : AttachmentStore) (k : AttachmentKey) : Option (AttachmentKey × Bool) :=
  match s.inventory k with
  | none => none
  | some row => if s.unreachable k row then some (k, row.writeCompleted) else none

/-- No more candidates are looked for after this. -/
def claim (s : AttachmentStore) (r : Nat) : AttachmentStore :=
  if (s.reapers r).claimed = none then
    s.setReaper r fun x =>
      { x with claimed := some (x.locked.filterMap s.claimRow), candidates := fun _ => false }
  else s

def toDeleting (s : AttachmentStore) (e : AttachmentKey × Bool) : AttachmentStore :=
  s.setRow e.1 ((s.inventory e.1).map fun row => { row with state := .deleting })

def commitReap (s : AttachmentStore) (r : Nat) : AttachmentStore :=
  match (s.reapers r).claimed with
  | none => s
  | some rows =>
    (rows.foldl toDeleting s).setReaper r fun x =>
      { x with locked := [], claimed := none, queue := x.queue ++ rows }

def rollbackReap (s : AttachmentStore) (r : Nat) : AttachmentStore :=
  s.setReaper r fun x =>
    { x with locked := [], claimed := none, candidates := fun _ => false }

def deleteObject (s : AttachmentStore) (r : Nat) : AttachmentStore :=
  match (s.reapers r).queue, (s.reapers r).deletion with
  | e :: _, none => s.setReaper r fun x => { x with deletion := some { key := e.1 } }
  | _, _ => s

def objectDeleted (s : AttachmentStore) (r : Nat) : AttachmentStore :=
  match (s.reapers r).deletion with
  | none => s
  | some d =>
    if d.done then s
    else
      { s.setReaper r fun x => { x with deletion := some { d with done := true } } with
        blobs := Function.update s.blobs d.key false }

def abandonedDeleted (s : AttachmentStore) (r j : Nat) : AttachmentStore :=
  match (s.reapers r).abandoned[j]? with
  | none => s
  | some d =>
    if d.done then s
    else
      { s.setReaper r fun x => { x with abandoned := x.abandoned.set j { d with done := true } } with
        blobs := Function.update s.blobs d.key false }

def nextRow (x : Reaper) : Reaper := { x with queue := x.queue.tail, deletion := none }

/-- After its deletion a row is removed, if its write was known to be completed before; else it gets
another pass. -/
def deleteSucceeded (s : AttachmentStore) (r : Nat) (now : Int) : AttachmentStore :=
  match (s.reapers r).queue, (s.reapers r).deletion with
  | (k, completed) :: _, some d =>
    if d.done = true ∧ s.unlocked k = true then
      match s.inventory k with
      | none => s.setReaper r nextRow
      | some row =>
        if row.state ≠ .deleting then s.setReaper r nextRow
        else if completed = true then
          if row.writeCompleted = true then
            { (s.setRow k none).setReaper r nextRow with removed := s.removed ++ [k] }
          else s.setReaper r nextRow
        else
          (s.setRow k (some { row with cleanupAvailableAt := now + 60000 })).setReaper r nextRow
    else s
  | _, _ => s

/-- The deletion was given up; the row waits longer each time. -/
def deleteFailed (s : AttachmentStore) (r : Nat) (now : Int) : AttachmentStore :=
  match (s.reapers r).queue, (s.reapers r).deletion with
  | (k, _) :: _, some d =>
    if s.unlocked k = true then
      let giveUp (x : Reaper) : Reaper := { nextRow x with abandoned := x.abandoned ++ [d] }
      match s.inventory k with
      | none => s.setReaper r giveUp
      | some row =>
        if row.state ≠ .deleting then s.setReaper r giveUp
        else
          (s.setRow k (some
            { row with
              cleanupAvailableAt := now + 1000 * min 300 (2 ^ min row.cleanupFailures 8)
              cleanupFailures := min (row.cleanupFailures + 1) 16 })).setReaper r giveUp
    else s
  | _, _ => s

/-! ### Elsewhere -/

def setUpload (s : AttachmentStore) (id : Nat) (upload : SessionUpload) : AttachmentStore :=
  match s.uploads.get id with
  | none => { s with uploads := s.uploads.set id { upload with attachmentId := none } }
  | some old =>
    { s with
      uploads := s.uploads.set id
        { upload with tenantId := old.tenantId, attachmentId := old.attachmentId } }

def withWriter (s : AttachmentStore) (w : Nat) (f : AttachmentStore → Nat → AttachmentStore) :
    AttachmentStore := if w < s.nextWriter then f s w else s

def withRetention (s : AttachmentStore) (t : Nat) (f : AttachmentStore → Nat → AttachmentStore) :
    AttachmentStore := if t < s.nextRetention then f s t else s

def withReaper (s : AttachmentStore) (r : Nat) (f : AttachmentStore → Nat → AttachmentStore) :
    AttachmentStore := if r < s.nextReaper then f s r else s

def act (s : AttachmentStore) : StoreAction → AttachmentStore
  | .put tenantId contents runId => s.createWriter { tenantId, contents, runId }
  | .putStream tenantId contents claim => s.createWriter { tenantId, contents, claim := some claim }
  | .insert w now => s.withWriter w fun s w => s.insert w now
  | .abortBefore w => s.withWriter w abortBefore
  | .transfer w => s.withWriter w transfer
  | .chunk w bytes => s.withWriter w fun s w => s.chunk w bytes
  | .endOfStream w digestMatches => s.withWriter w fun s w => s.endOfStream w digestMatches
  | .objectPut w => s.withWriter w objectPut
  | .putSucceeded w => s.withWriter w putSucceeded
  | .putFailed w => s.withWriter w putFailed
  | .writeCompleted w => s.withWriter w writeCompleted
  | .begin tenantId =>
    { s with
      retentions := Function.update s.retentions s.nextRetention { tenantId }
      nextRetention := s.nextRetention + 1 }
  | .lockForShare t id => s.withRetention t fun s t => s.lockForShare t id
  | .retain t sessionId refs => s.withRetention t fun s t => s.retain t sessionId refs
  | .referHistory t table owner id => s.withRetention t fun s t => s.referHistory t table owner id
  | .commit t => s.withRetention t commit
  | .rollback t => s.withRetention t fun s t => s.setRetention t finishRetention
  | .reapDrafts ids now => { s with uploads := (ids.take 32).foldl (reapDraft now) s.uploads }
  | .reap graceMs now => s.reap graceMs now
  | .lockForUpdate r k => s.withReaper r fun s r => s.lockForUpdate r k
  | .claim r => s.withReaper r claim
  | .commitReap r => s.withReaper r commitReap
  | .rollbackReap r => s.withReaper r rollbackReap
  | .deleteObject r => s.withReaper r deleteObject
  | .objectDeleted r => s.withReaper r objectDeleted
  | .abandonedDeleted r j => s.withReaper r fun s r => s.abandonedDeleted r j
  | .deleteSucceeded r now => s.withReaper r fun s r => s.deleteSucceeded r now
  | .deleteFailed r now => s.withReaper r fun s r => s.deleteFailed r now
  | .setUpload id upload => s.setUpload id upload
  | .setUnsealed runs => { s with unsealedRuns := runs }
  | .dropReferences table owner =>
    { s with references := s.references.filter fun r => r.table ≠ table || r.owner ≠ owner }

def run (s : AttachmentStore) (actions : List StoreAction) : AttachmentStore := actions.foldl act s

end AttachmentStore

end Inventory
end Attachments
end PiCloud
