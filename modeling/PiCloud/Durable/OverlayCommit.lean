import PiCloud.Durable.OverlayStore

/-!
# Durable.OverlayCommit

`commit` of `PublishedDurableStorage`: a batch is validated and prepared against the overlay and the
projection, published, and only then adopted.

* `StorageWrite`, `Batch`: the writes of a batch, and the batch as it is published.
* `claimWrite`, `prepareAction`, `prepare`: `#prepare`, with its maps.
* `flush`, `adopt`, `commit`: the drain of a full buffer, the adoption of what was acknowledged, and
  the whole commit with what it ends in.
* `Action`, `perform`: what callers do with a storage.
-/

namespace PiCloud
namespace Durable
namespace Overlay

open Lib
open Published (DocumentPoint)

/-! ## Batches -/

inductive StorageWrite (Op : Type) where
  | value (value : Value)
  | documentCreate (record : DocumentCreate) (content : DocumentContent Op)
  | documentChange (id : Nat) (content : DocumentContent Op)
  | documentRetire (id : Nat)
  | documentCopy (record : DocumentCreate) (source : Nat) (point : DocumentPoint)

namespace StorageWrite

variable {Op : Type}

/-- What a write claims: an id, for a record of a kind. -/
def claim : StorageWrite Op → Option (Nat × DurableRecordKind)
  | .value v => some (v.id, .value v.kind)
  | .documentCreate record _ | .documentCopy record .. => some (record.id, .document)
  | .documentChange .. | .documentRetire _ => none

/-- The document that a write is about. -/
def documentId : StorageWrite Op → Option Nat
  | .value _ => none
  | .documentCreate record _ | .documentCopy record .. => some record.id
  | .documentChange id _ | .documentRetire id => some id

/-- The document whose content a write carries. -/
def contentId : StorageWrite Op → Option Nat
  | .documentCreate record _ => some record.id
  | .documentChange id _ => some id
  | _ => none

def created : StorageWrite Op → Option DocumentCreate
  | .documentCreate record _ | .documentCopy record .. => some record
  | _ => none

def retired : StorageWrite Op → Option Nat
  | .documentRetire id => some id
  | _ => none

def value? : StorageWrite Op → Option Value
  | .value v => some v
  | _ => none

end StorageWrite

structure Batch (Op : Type) where
  seq : Nat
  nextId : Nat
  writes : List (StorageWrite Op)

structure DocumentAction (Op : Type) where
  create : Option DocumentCreate := none
  content : Option (DocumentContent Op) := none
  retire : Bool := false

/-- The maps of the first pass over the writes. -/
structure Claims (Op : Type) where
  claimed : InsertionMap Nat DurableRecordKind := {}
  actions : InsertionMap Nat (DocumentAction Op) := {}
  nextId : Nat

/-- The maps of the pass over the documents. -/
structure Changes (Op : Type) where
  records : List IndexedRecord := []
  revisions : List (Nat × DocumentRevision Op) := []
  resetRevisions : List Nat := []
  retiredCurrent : List Nat := []
  inputConversations : List Nat := []
  live : InsertionMap Nat (Option StoredDocument) := {}
  liveCounts : InsertionMap Address Int := {}

structure Prepared (Op : Type) where
  batch : Batch Op
  changes : Changes Op

/-! ## The preparation -/

section Prepare

variable {Op : Type} (o : Options Op) (w : World Op)

def kindName : DurableRecordKind → String
  | .value .conversation => "conversation"
  | .value .entry => "entry"
  | .value .task => "task"
  | .value .submission => "submission"
  | .document => "document"

def isRewritten (kind : DurableRecordKind) : Bool :=
  kind = .value .task || kind = .value .submission

/-- A copy is checked against its source, and becomes a creation. -/
def resolveCopy (changed : List Nat) : StorageWrite Op → Work Op (StorageWrite Op)
  | .documentCopy record source point => do
    let rejected := "Document copy " ++ toString record.id ++ " was rejected"
    if source ∈ changed then throw rejected
    else
      match ← readDocument o w source point with
      | none => throw rejected
      | some found =>
        if found.record.scope.isConversation && record.scope.isConversation &&
            found.record.kind = record.kind && found.record.key = record.key &&
            found.record.history = record.history && found.record.fork = record.fork then
          return .documentCreate record (.base found.version found.value)
        else throw rejected
  | write => return write

/-- The content and the retirement of a document, gathered from its writes. -/
def gatherAction (action : DocumentAction Op) (id : Nat) :
    StorageWrite Op → Except String (DocumentAction Op)
  | .documentRetire _ =>
    if action.retire then .error ("Document " ++ toString id ++ " is retired more than once")
    else .ok { action with retire := true }
  | .documentCreate record content =>
    if action.content.isSome then
      .error ("Document " ++ toString id ++ " has more than one content command")
    else .ok { action with content := some content, create := some record }
  | .documentChange _ content =>
    if action.content.isSome then
      .error ("Document " ++ toString id ++ " has more than one content command")
    else .ok { action with content := some content }
  | _ => .ok action

/-- The id that a write claims. -/
def claimId (c : Claims Op) (id : Nat) (kind : DurableRecordKind) : Work Op (Claims Op) := do
  let existing ← get o w id
  if existing.any fun r => r.kind ≠ kind || !isRewritten kind then
    throw ("ID " ++ toString id ++ " already belongs to " ++
      ((existing.map fun r => kindName r.kind).getD ""))
  else if (c.claimed.get id).any fun earlier => earlier ≠ kind || !isRewritten kind then
    throw ("ID " ++ toString id ++ " is written more than once")
  else return { c with claimed := c.claimed.set id kind, nextId := max c.nextId (id + 1) }

def claim (c : Claims Op) (write : StorageWrite Op) : Work Op (Claims Op) :=
  match write.claim with
  | none => return c
  | some (id, kind) => claimId o w c id kind

def gather (c : Claims Op) (write : StorageWrite Op) : Except String (Claims Op) :=
  match write.documentId with
  | none => .ok c
  | some id =>
    (gatherAction ((c.actions.get id).getD {}) id write).map fun action =>
      { c with actions := c.actions.set id action }

def claimWrite (c : Claims Op) (write : StorageWrite Op) : Work Op (Claims Op) := do
  let c ← claim o w c write
  lift (gather c write)

/-- The owner of a document's scope, where it is a record. -/
def ownerOf : DocumentScope → Option (Nat × DurableRecordKind)
  | .session => none
  | .conversation id => some (id, .value .conversation)
  | .task id => some (id, .value .task)

/-- The owner has been created since the last flush, or is in the batch. -/
def isNewOwner (s : Store Op) (claimed : InsertionMap Nat DurableRecordKind)
    (scope : DocumentScope) : Bool :=
  (ownerOf scope).any fun owner =>
    s.coldNextId ≤ owner.1 &&
      (claimed.get owner.1 = some owner.2 || (s.records.get owner.1).any (·.kind = owner.2))

/-- How many documents are current at an address. -/
def countCurrent (claimed : InsertionMap Nat DurableRecordKind) (a : Address) : Work Op Int := do
  let s ← store
  if isNewOwner s claimed a.scope then return if (s.currentAt a).isSome then 1 else 0
  else return if (← findDocument w a .current).isSome then 1 else 0

/-- The record of a document after the batch. -/
def recordAfter (seq : Nat) (existing : Option Document) (action : DocumentAction Op) :
    Option Document :=
  let retired (d : Document) : Document := if action.retire then { d with retiredAt := some seq } else d
  match action.create with
  | some create => some (retired { create with createdAt := seq })
  | none => existing.map retired

def isInput (record : Document) : Bool :=
  record.scope.isConversation && (record.kind = "pi.inbox" || record.kind = nativeHumanInputDocument)

def ordinalOf (writes : List (StorageWrite Op)) (id : Nat) : Nat :=
  writes.findIdx fun write => write.contentId = some id

/-- The content of a document, against its last revision. -/
def checkContent (id : Nat) (previous : Option (Nat × Nat)) :
    DocumentContent Op → Except String Unit
  | .base .. => .ok ()
  | .delta version _ =>
    match previous with
    | none => .error ("Document " ++ toString id ++ " delta has no base")
    | some previous =>
      if previous.1 = version then .ok ()
      else .error ("Document " ++ toString id ++ " version transition requires a base")

/-- The live document that a content leaves. -/
def nextLive (record : Document) (deltaCount : Nat) (before : Option StoredDocument) :
    DocumentContent Op → Except String StoredDocument
  | .base version value => .ok { record, version, value, deltasSinceBase := deltaCount }
  | .delta version ops =>
    match before with
    | none => .error "Native live delta has no current value"
    | some before =>
      (o.applyImmutableBatches before.value [ops]).map fun value =>
        { record, version, value, deltasSinceBase := deltaCount }

/-- The count of an address so far. -/
def knownCount (claimed : InsertionMap Nat DurableRecordKind) (p : Changes Op) (a : Address) :
    Work Op Int :=
  match p.liveCounts.get a with
  | some count => return count
  | none => countCurrent w claimed a

/-- What the batch does to a document changes the count of its address. -/
def countAction (claimed : InsertionMap Nat DurableRecordKind) (p : Changes Op)
    (existing : Bool) (action : DocumentAction Op) (record : Document) : Work Op (Changes Op) := do
  if !(action.create.isSome || action.retire) then return p
  else
    let a := documentAddress record.toDocumentCreate
    let count ← knownCount w claimed p a
    let count := if existing && action.retire then count - 1 else count
    let count := if action.create.isSome && !action.retire then count + 1 else count
    return { p with liveCounts := p.liveCounts.set a count }

def beforeContent (id : Nat) (action : DocumentAction Op) : Work Op (Option StoredDocument) :=
  if action.create.isSome then return none else readDocument o w id .current

def nextCount (previous : Option (Nat × Nat)) : DocumentContent Op → Nat
  | .base .. => 0
  | .delta .. => previous.elim 0 fun previous => previous.2 + 1

def Changes.reset (p : Changes Op) (id : Nat) (content : DocumentContent Op) (record : Document) :
    Changes Op :=
  if content.baseValue.isSome && currentOnly record.toDocumentRecord then
    { p with resetRevisions := id :: p.resetRevisions }
  else p

def contentAction (seq id ordinal : Nat) (p : Changes Op) (action : DocumentAction Op)
    (record : Document) : Work Op (Changes Op) :=
  match action.content with
  | none => return p
  | some content => do
    let previous ← latestRevision w id
    lift (checkContent id previous content)
    let deltaCount := nextCount previous content
    let p := p.reset id content record
    if !isLiveDocument record.toDocumentRecord then
      return { p with revisions := p.revisions ++ [(id, { seq, ordinal, content, deltaCount })] }
    else if action.retire then return p
    else
      let before ← beforeContent o w id action
      let after ← lift (nextLive o record deltaCount before content)
      return { p with live := p.live.set id (some after) }

def Changes.addInput (p : Changes Op) (record : Document) : Changes Op :=
  match record.scope with
  | .conversation conversationId =>
    if isInput record && conversationId ∉ p.inputConversations then
      { p with inputConversations := p.inputConversations ++ [conversationId] }
    else p
  | _ => p

def lookAgain (id : Nat) (action : DocumentAction Op) : Work Op Unit :=
  if action.create.isNone && action.retire then (fun _ => ()) <$> get o w id else return ()

/-- The record of a document that is created or retired. -/
def Changes.addRecord (p : Changes Op) (action : DocumentAction Op) (record : Document) : Changes Op :=
  if action.create.isSome || action.retire then
    { p with records := p.records ++ [.document record] }
  else p

/-- What is left of a document that is retired. -/
def Changes.retire (p : Changes Op) (id : Nat) (action : DocumentAction Op) (record : Document) :
    Changes Op :=
  let p := if action.retire && currentOnly record.toDocumentRecord then
      { p with retiredCurrent := id :: p.retiredCurrent } else p
  if action.retire && isLiveDocument record.toDocumentRecord then
    { p with live := p.live.set id none }
  else p

/-- What the batch does to one document. -/
def prepareAction (seq : Nat) (writes : List (StorageWrite Op))
    (claimed : InsertionMap Nat DurableRecordKind) (p : Changes Op) (id : Nat)
    (action : DocumentAction Op) : Work Op (Changes Op) := do
  let existing ← document o w id
  if (existing.bind (·.retiredAt)).isSome then throw ("Document " ++ toString id ++ " is retired")
  else
    match recordAfter seq existing action with
    | none => throw ("Unknown document: " ++ toString id)
    | some record =>
      let p ← countAction w claimed (p.addInput record) existing.isSome action record
      lookAgain o w id action
      let p ← contentAction o w seq id (ordinalOf writes id) (p.addRecord action record) action record
      return p.retire id action record

def valueRecords (seq : Nat) (writes : List (StorageWrite Op)) : List IndexedRecord :=
  writes.zipIdx.filterMap fun write => write.1.value?.map fun v => .value v seq write.2

/-- `#prepare` -/
def prepare (input : List (StorageWrite Op)) : Work Op (Prepared Op) := do
  let s ← store
  if Published.maxSafeInteger < s.seq + 1 then throw "Commit sequence space is exhausted"
  else
    let seq := s.seq + 1
    let writes ← input.mapM (resolveCopy o w (input.filterMap StorageWrite.documentId))
    let c ← writes.foldlM (claimWrite o w) { nextId := s.nextId }
    let p ← c.actions.entries.foldlM (fun p e => prepareAction o w seq writes c.claimed p e.1 e.2) {}
    if p.liveCounts.entries.any fun e => 1 < e.2 then
      throw "Document address already has a current incarnation"
    else
      return { batch := { seq, nextId := c.nextId, writes }
               changes := { p with records := p.records ++ valueRecords seq writes } }

end Prepare

/-! ## The commit -/

namespace Store

variable {Op : Type} (s : Store Op)

/-- `#flush`, once the projection has come to the last commit. -/
def drained : Store Op :=
  { s with
    records := {}, revisions := {}, revisionResets := [], readCache := {}, addresses := {}
    live := s.live.filter fun _ d => !isSettledLiveValue d.value
    coldSeq := s.seq, coldNextId := s.nextId, bufferedBytes := 0, bufferedWrites := 0 }

def refreshAddress (a : Address) : Store Op :=
  let cached := if (s.addresses.get a).isSome then s.addresses else bounded s.addresses
  { s with addresses := cached.set a (s.currentAt a) }

/-- The maps after a batch is acknowledged. `minted` ids were given out while it was under way. -/
def put (prepared : Prepared Op) (bytes minted : Nat) : Store Op :=
  let changes := prepared.changes
  let revisions := changes.resetRevisions.foldl (·.delete ·) s.revisions
  let revisions := changes.revisions.foldl (fun m r => m.set r.1 ((m.get r.1).getD [] ++ [r.2])) revisions
  let revisions := changes.retiredCurrent.foldl (·.delete ·) revisions
  { s with
    records := changes.records.foldl (fun m r => m.set r.id r) s.records
    revisions
    revisionResets := changes.retiredCurrent ++ changes.resetRevisions ++ s.revisionResets
    live := changes.live.entries.foldl (fun m e => match e.2 with
      | none => m.delete e.1
      | some d => m.set e.1 d) s.live
    seq := prepared.batch.seq
    nextId := max (s.nextId + minted) prepared.batch.nextId
    bufferedWrites := s.bufferedWrites + max 1 prepared.batch.writes.length
    bufferedBytes := s.bufferedBytes + bytes
    readCache := changes.records.foldl (fun m r => m.delete r.id) s.readCache }

/-- `changedAddresses`: those of the documents that a batch puts. -/
def changedAddresses (records : List IndexedRecord) : List Address :=
  records.filterMap fun r => r.document?.map fun d => documentAddress d.toDocumentCreate

def adopt (prepared : Prepared Op) (bytes minted : Nat) : Store Op :=
  (changedAddresses prepared.changes.records).eraseDups.foldl refreshAddress (s.put prepared bytes minted)

end Store

inductive PublishOutcome where
  | acknowledged
  /-- `PublicationNotSentError`, `StorageRejected` -/
  | notSent
  /-- any other error -/
  | uncertain

/-- What happens around a commit. -/
structure Surroundings (Op : Type) where
  world : World Op
  /-- `assertCurrent` passes, before and after the preparation -/
  current : Bool := true
  currentStill : Bool := true
  /-- `waitProjected` comes to an end -/
  projected : Bool := true
  /-- ids that are given out before the preparation and after it -/
  mintedBefore : Nat := 0
  mintedAfter : Nat := 0
  publish : PublishOutcome := .acknowledged
  /-- bytes of the batch -/
  bytes : Nat := 0

inductive CommitResult (Op : Type) where
  | accepted (batch : Batch Op)
  | rejected (message : String)
  | uncertain

section Commit

variable {Op : Type} (o : Options Op)

def refusal (s : Store Op) : Option String :=
  if s.closed then some "Durable storage is closed"
  else if s.failed then some "Durable storage owner failed after uncertain publication"
  else none

def isFull (s : Store Op) : Bool :=
  o.maximumBufferedWrites ≤ s.bufferedWrites || o.maximumBufferedBytes ≤ s.bufferedBytes

def makeRoom (s : Store Op) : Store Op :=
  if isFull o s && s.bufferedWrites ≠ 0 then s.drained else s

def commit (around : Surroundings Op) (input : List (StorageWrite Op)) (s : Store Op) :
    CommitResult Op × Store Op :=
  match refusal s with
  | some message => (.rejected message, s)
  | none =>
    if !around.current then (.rejected "not current", s)
    else if isFull o s && s.bufferedWrites ≠ 0 && !around.projected then
      (.rejected "Native Session data could not be read", s)
    else
      let s := makeRoom o s
      let s := { s with nextId := s.nextId + around.mintedBefore }
      match (prepare o around.world input).run { store := s } with
      | (.error message, at_) =>
        (.rejected message, { at_.store with nextId := at_.store.nextId + around.mintedAfter })
      | (.ok prepared, at_) =>
        let later := { at_.store with nextId := at_.store.nextId + around.mintedAfter }
        if !around.currentStill then (.rejected "not current", later)
        else
          match around.publish with
          | .notSent => (.rejected "not sent", later)
          | .uncertain => (.uncertain, { later with failed := true })
          | .acknowledged =>
            (.accepted prepared.batch, at_.store.adopt prepared around.bytes around.mintedAfter)

/-! ## All that callers do -/

inductive Action (Op : Type) where
  | commit (around : Surroundings Op) (input : List (StorageWrite Op))
  | read (world : World Op) (read : Read)
  | mintId
  | flush (projected : Bool)
  | close

inductive Outcome (Op : Type) where
  | committed (result : CommitResult Op)
  | answered (answer : Except String Answer)
  | minted (id : Except String Nat)
  | flushed (done : Except String Unit)
  | closed

def mintId (s : Store Op) : Except String Nat × Store Op :=
  match refusal s with
  | some message => (.error message, s)
  | none =>
    if Published.maxSafeInteger < s.nextId then (.error "ID space is exhausted", s)
    else (.ok s.nextId, { s with nextId := s.nextId + 1 })

def flush (projected : Bool) (s : Store Op) : Except String Unit × Store Op :=
  match refusal s with
  | some message => (.error message, s)
  | none =>
    if s.bufferedWrites = 0 then (.ok (), s)
    else if projected then (.ok (), s.drained)
    else (.error "Native Session data could not be read", s)

def close (s : Store Op) : Store Op :=
  { s with closed := true, records := {}, revisions := {}, readCache := {}, live := {} }

def readNow (world : World Op) (r : Read) (s : Store Op) : Except String Answer × Store Op :=
  match refusal s with
  | some message => (.error message, s)
  | none =>
    let (result, after) := (answer o world r).run { store := s }
    (result, after.store)

def perform (s : Store Op) : Action Op → Outcome Op × Store Op
  | .commit around input =>
    let (result, s) := commit o around input s
    (.committed result, s)
  | .read world r =>
    let (result, s) := readNow o world r s
    (.answered result, s)
  | .mintId =>
    let (result, s) := mintId s
    (.minted result, s)
  | .flush projected =>
    let (result, s) := flush projected s
    (.flushed result, s)
  | .close => (.closed, close s)

end Commit

end Overlay
end Durable
end PiCloud
