import PiCloud.Lib.InsertionMap
import PiCloud.Lib.Outcome
import PiCloud.Durable.DocumentRevisions
import PiCloud.Durable.PublishedStorage

/-!
# Durable.OverlayStore

`PublishedDurableStorage` with everything that it keeps: acknowledged records, revisions and live
documents that wait for their projection, and two caches of what PostgreSQL answered.

* `IndexedRecord`, `Query`, `matchesRecord`: a record and what selects it.
* `Database`: the projection at one moment, as queries find it.
* `Store`: the fields of the storage.
* `get`, `scan`, `findDocument`, `readDocument`, …: the reads, on the overlay and on the projection.
* `Read`, `answer`: the reads that callers have.
-/

namespace PiCloud
namespace Durable
namespace Overlay

open Lib
open Published (FieldValue Parent DocumentPoint RecordKind RecordQuery Ancestor EntryQuery Scan rangesOf
  rangeOf)

/-! ## Records -/

structure DocumentCreate extends DocumentRecord where
  key : Option JsString := none
  fork : Option String := none
deriving DecidableEq

structure Document extends DocumentCreate where
  createdAt : Nat
  retiredAt : Option Nat := none
deriving DecidableEq

structure Address where
  kind : String
  scope : DocumentScope
  key : Option JsString
deriving DecidableEq

def documentAddress (record : DocumentCreate) : Address where
  kind := record.kind
  scope := record.scope
  key := record.key

/-- A conversation, an entry, a task or a submission, with the fields that it is indexed by. -/
structure Value where
  kind : ValueKind
  id : Nat
  fields : List (Published.Field × FieldValue) := []
  /-- of an entry -/
  conversationId : Nat := 0
  /-- of a conversation -/
  parent : Option Parent := none
  /-- of a submission -/
  requestId : Option JsString := none
  content : Members := []

/-- The sequence of a document is that of its creation. -/
inductive IndexedRecord where
  | value (value : Value) (seq ordinal : Nat)
  | document (document : Document)

def DocumentScope.published : DocumentScope → Published.DocumentScope
  | .session => .session
  | .conversation id => .conversation id
  | .task id => .task id

def ValueKind.record : ValueKind → RecordKind
  | .conversation => .conversation
  | .entry => .entry
  | .task => .task
  | .submission => .submission

namespace IndexedRecord

def id : IndexedRecord → Nat
  | .value v _ _ => v.id
  | .document d => d.id

def kind : IndexedRecord → DurableRecordKind
  | .value v _ _ => .value v.kind
  | .document _ => .document

def document? : IndexedRecord → Option Document
  | .value .. => none
  | .document d => some d

def value? : IndexedRecord → Option Value
  | .value v _ _ => some v
  | .document _ => none

def sequence? : IndexedRecord → Option Nat
  | .value _ seq _ => some seq
  | .document _ => none

/-- `indexNative`, with the address and the request apart. -/
def index : IndexedRecord → Published.IndexedRecord
  | .value v _ _ =>
    { id := v.id, kind := ValueKind.record v.kind, fields := v.fields
      conversationId := v.conversationId, parent := v.parent }
  | .document d =>
    { id := d.id, kind := .document
      fields := [(.scope, .scope (DocumentScope.published d.scope)), (.nativeKind, .text d.kind)]
      createdSeq := some d.createdAt, retiredSeq := d.retiredAt }

def isCurrentAt (r : IndexedRecord) (a : Address) : Bool :=
  r.document?.any fun d => documentAddress d.toDocumentCreate = a && d.retiredAt.isNone

end IndexedRecord

structure Query extends RecordQuery where
  address : Option Address := none
  requestId : Option JsString := none

def matchesRecord (r : IndexedRecord) (query : Query) : Bool :=
  Published.matchesRecord r.index query.toRecordQuery &&
    query.address.all (fun a => r.document?.any fun d => documentAddress d.toDocumentCreate = a) &&
    query.requestId.all fun id => r.value?.any fun v => v.requestId = some id

structure StoredDocument where
  record : Document
  version : Nat
  value : Members
  deltasSinceBase : Nat

/-! ## The storage -/

section Stores

variable {Op : Type}

/-- `order by id` -/
def inOrder (descending : Bool) (rows : List IndexedRecord) : List IndexedRecord :=
  if descending then sortBy (fun r => OrderDual.toDual r.id) rows else sortBy (·.id) rows

/-- The projection, as a query finds it. -/
structure Database (Op : Type) where
  /-- `pi_durable_records` -/
  rows : InsertionMap Nat IndexedRecord
  revisions : Nat → Nat → Except String (List (DocumentRevision Op))
  /-- the version and the deltas of the last revision -/
  latestRevision : Nat → Except String (Option (Nat × Nat))

namespace Database

variable (db : Database Op)

def records : List IndexedRecord := db.rows.entries.map Prod.snd

def scan (query : Query) (limit : Nat) (exclude : List Nat) : List IndexedRecord :=
  (inOrder query.descending
    (db.records.filter fun r => matchesRecord r query && r.id ∉ exclude)).take limit

def conversationOf (id : Nat) : Option Value :=
  (db.rows.get id).bind fun r => r.value?.filter fun v => v.kind = .conversation

/-- `conversationAncestry`: `union` ends where a conversation comes again. -/
def ancestryFrom : Nat → List Nat → Nat → List Value
  | 0, _, _ => []
  | fuel + 1, visited, id =>
    if id ∈ visited then []
    else
      match db.conversationOf id with
      | none => []
      | some v => v :: (v.parent.map fun p => ancestryFrom fuel (id :: visited) p.conversationId).getD []

def conversationAncestry (id : Nat) : List Value := db.ancestryFrom (db.rows.size + 1) [] id

/-- The entries of an ancestry, by position and then by falling id. -/
def scanEntryRanges (ranges : List Ancestor) (limit minimum : Nat) (head : Bool)
    (exclude : List Nat) : List IndexedRecord :=
  (sortBy (fun r => Published.entryKey ranges r.index)
    (db.records.filter fun r =>
      Published.inRange ranges minimum head r.index && r.id ∉ exclude)).take limit

end Database

structure Store (Op : Type) where
  seq : Nat
  nextId : Nat
  coldSeq : Nat
  coldNextId : Nat
  /-- acknowledged, and waiting for the projection -/
  records : InsertionMap Nat IndexedRecord := {}
  revisions : InsertionMap Nat (List (DocumentRevision Op)) := {}
  live : InsertionMap Nat StoredDocument := {}
  revisionResets : List Nat := []
  readCache : InsertionMap Nat (Option IndexedRecord) := {}
  addresses : InsertionMap Address (Option Document) := {}
  bufferedWrites : Nat := 0
  bufferedBytes : Nat := 0
  closed : Bool := false
  failed : Bool := false

/-- The storage at work: how many queries PostgreSQL has answered by now. -/
structure Working (Op : Type) where
  store : Store Op
  queries : Nat := 0

/-- The projection as each query finds it; `none`: it does not answer. -/
abbrev World (Op : Type) := Nat → Option (Database Op)

/-- What is outside of the storage, or set for it. -/
structure Options (Op : Type) where
  applyImmutableBatches : Members → List (List Op) → Except String Members
  /-- bytes of `JSON.stringify` -/
  recordBytes : IndexedRecord → Nat
  maximumBufferedWrites : Nat := 2048
  maximumBufferedBytes : Nat := 16777216

end Stores

abbrev Work (Op : Type) := Program (Working Op)

def bounded {κ ν : Type} [DecidableEq κ] (m : InsertionMap κ ν) : InsertionMap κ ν :=
  if 128 ≤ m.size then m.deleteOldest else m

namespace Store

variable {Op : Type} (s : Store Op)

def overlay : List IndexedRecord := s.records.entries.map Prod.snd

def overlayIds : List Nat := s.records.entries.map Prod.fst

def cacheRecord (id : Nat) (found : Option IndexedRecord) : Store Op :=
  { s with readCache := (bounded s.readCache).set id found }

def cacheAddress (a : Address) (found : Option Document) : Store Op :=
  { s with addresses := (bounded s.addresses).set a found }

def currentAt (a : Address) : Option Document :=
  (s.overlay.find? fun r => r.isCurrentAt a).bind IndexedRecord.document?

end Store

/-! ## Ancestries -/

/-- A walk from a conversation to its last ancestor, with the path so far where it ends early. -/
inductive Walk where
  | ended (path : List Ancestor)
  | cycle
  | unknown (path : List Ancestor) (current : Nat) (through : Int)

/-- Every step adds a known conversation to the path, so that there are no more steps than these. -/
def walkAncestry (known : Nat → Option Value) : Nat → List Ancestor → Nat → Int → Walk
  | 0, _, _, _ => .cycle
  | fuel + 1, path, current, through =>
    if path.any (·.conversationId = current) then .cycle
    else
      match known current with
      | none => .unknown path current through
      | some v =>
        let path := path ++ [{ conversationId := current, through }]
        match v.parent with
        | none => .ended path
        | some parent => walkAncestry known fuel path parent.conversationId (min through parent.entry)

/-! ## Reads -/

section Reads

variable {Op : Type} (o : Options Op) (w : World Op)

def store : Work Op (Store Op) := do
  return (← getThe (Working Op)).store

def change (f : Store Op → Store Op) : Work Op Unit :=
  modifyThe (Working Op) fun s => { s with store := f s.store }

def ask : Work Op (Database Op) := do
  let s ← getThe (Working Op)
  MonadStateOf.set { s with queries := s.queries + 1 }
  match w s.queries with
  | some db => return db
  | none => throw "Native Session data could not be read"

def lift {α : Type} : Except String α → Work Op α
  | .ok a => return a
  | .error e => throw e

/-- `#get` -/
def get (id : Nat) : Work Op (Option IndexedRecord) := do
  let s ← store
  match s.records.get id with
  | some r => return some r
  | none =>
    if s.coldSeq = 0 || s.coldNextId ≤ id then return none
    else
      match s.readCache.get id with
      | some found => return found
      | none =>
        let record := (← ask w).rows.get id
        if record.all fun r => o.recordBytes r ≤ 131072 then
          change (·.cacheRecord id record)
        return record

/-- `#scan` -/
def scan (query : Query) (limit : Nat) : Work Op (List IndexedRecord) := do
  if limit < 1 || Published.maxSafeInteger < limit then throw "Storage scan limit must be positive"
  else
    let s ← store
    let cold ← if s.coldSeq = 0 || query.minId.any (s.coldNextId ≤ ·) then pure []
      else (·.scan query limit s.overlayIds) <$> ask w
    return (inOrder query.descending
      (cold ++ s.overlay.filter (matchesRecord · query))).take limit

/-- `#record` -/
def value (kind : ValueKind) (id : Nat) : Work Op (Option Value) := do
  return (← get o w id).bind fun r => r.value?.filter fun v => v.kind = kind

/-- `#conversation` -/
def conversation (id : Nat) : Work Op Value := do
  match ← value o w .conversation id with
  | some v => return v
  | none => throw ("Unknown conversation: " ++ toString id)

/-- `#record(id, "document")` -/
def document (id : Nat) : Work Op (Option Document) := do
  return (← get o w id).bind IndexedRecord.document?

def localConversation (s : Store Op) (id : Nat) : Option Value :=
  (s.records.get id).bind fun r => r.value?.filter fun v => v.kind = .conversation

/-- `#ancestry`: what the overlay knows, and from the first conversation on that it does not, what the
projection does. -/
def ancestry (id : Nat) : Work Op (List Ancestor) := do
  let s ← store
  match walkAncestry (localConversation s) (s.overlay.length + 1) [] id Published.maxSafeInteger with
  | .ended path => return path
  | .cycle => throw "Native conversation ancestry has a cycle"
  | .unknown path current through =>
    if s.coldSeq = 0 then throw ("Unknown conversation: " ++ toString current)
    else
      let cold := (← ask w).conversationAncestry current
      let known (id : Nat) := (localConversation s id).or (cold.find? fun v => v.id = id)
      match walkAncestry known (s.overlay.length + cold.length + 1) path current through with
      | .ended path => return path
      | .cycle => throw "Native conversation ancestry has a cycle"
      | .unknown _ current _ => throw ("Unknown conversation: " ++ toString current)

def cursorId (cursor : Option Nat) : Work Op (Option Nat) :=
  if cursor.all (· ≤ Published.maxSafeInteger) then return cursor else throw "Invalid storage cursor"

/-- `#entries` -/
def entries (query : EntryQuery) (limit : Nat) (cursor : Option Nat) (head : Bool) :
    Work Op (List IndexedRecord) := do
  let after ← cursorId cursor
  let maximum : Int := min (query.maxEntryId.getD Published.maxSafeInteger)
    ((after.getD (Published.maxSafeInteger + 1) : Nat) - 1)
  let path ← ancestry w query.conversationId
  let minimum := query.minEntryId.getD 0
  let ranges := rangesOf path minimum maximum
  let s ← store
  let local_ := s.overlay.filter fun r => Published.inRange ranges minimum head r.index
  let cold ← if s.coldSeq = 0 || ranges.isEmpty then pure []
    else (·.scanEntryRanges ranges limit minimum head s.overlayIds) <$> ask w
  return (sortBy (fun r => Published.entryKey ranges r.index) (local_ ++ cold)).take limit

def page (values : List IndexedRecord) (limit : Nat) : Page IndexedRecord :=
  Page.cut (·.id) values limit

/-- A page of the records of a kind, after the cursor. -/
def scanKind (kind : RecordKind) (fields : List (Published.Field × FieldValue)) (point : Option DocumentPoint)
    (limit : Nat) (cursor : Option Nat) : Work Op (Page IndexedRecord) := do
  let after ← cursorId cursor
  let rows ← scan w { kind, fields, point, minId := some (after.elim 0 (· + 1)) } (limit + 1)
  return page rows limit

/-- `scanConversations` to `scanDocuments` -/
def scanPage (limit : Nat) (cursor : Option Nat) : Scan → Work Op (Page IndexedRecord)
  | .conversations query => scanKind w .conversation query.fields none limit cursor
  | .entries query => do return page (← entries w query (limit + 1) cursor false) limit
  | .tasks query => scanKind w .task query.fields none limit cursor
  | .submissions query => scanKind w .submission query.fields none limit cursor
  | .documents query => scanKind w .document query.fields (some query.point) limit cursor

def submissionByRequest (conversationId : Nat) (requestId : JsString) :
    Work Op (Option IndexedRecord) := do
  let rows ← scan w
    { kind := .submission, fields := [(.conversation, .number conversationId)]
      requestId := some requestId } 1
  return rows.head?

def findLatestHeadMarker (conversationId : Nat) (atOrBefore : Option Nat) :
    Work Op (Option IndexedRecord) := do
  let rows ← entries w { conversationId, maxEntryId := atOrBefore } 1 none true
  return rows.head?

/-- What `entry` makes of a record: an entry of the conversation, or of its ancestry. -/
def entryWithin (conversation : Option Value) : Option IndexedRecord → Work Op (Option IndexedRecord)
  | some (.value v seq ordinal) =>
    if v.kind ≠ .entry then return none
    else
      match conversation with
      | none => return some (.value v seq ordinal)
      | some conversation =>
        if conversation.id = v.conversationId then return some (.value v seq ordinal)
        else do
          match rangeOf (← ancestry w conversation.id) v.conversationId with
          | none => return none
          | some row =>
            return if row.through < (v.id : Int) then none else some (.value v seq ordinal)
  | _ => return none

/-- `entry`: within the ancestry of a conversation, where one is given. -/
def entry (conversationId : Option Nat) (id : Nat) : Work Op (Option IndexedRecord) := do
  let conversation ← match conversationId with
    | none => pure none
    | some conversationId => some <$> conversation o w conversationId
  entryWithin w conversation (← get o w id)

/-- `#findDocument` -/
def findDocument (a : Address) (point : DocumentPoint) : Work Op (Option Document) := do
  let query : Query := { kind := .document, address := some a, point := some point, descending := true }
  match point with
  | .at _ => return (← scan w query 1).head?.bind IndexedRecord.document?
  | .current =>
    let s ← store
    match s.addresses.get a with
    | some found => return found
    | none =>
      match s.currentAt a with
      | some d => return some d
      | none =>
        let found := (← scan w query 1).head?.bind IndexedRecord.document?
        change (·.cacheAddress a found)
        return found

/-- The revisions of a document by their sequence: a projected whole value wins over the delta of
the same sequence that the overlay still has. -/
def mergeRevisions (cold local_ : List (DocumentRevision Op)) : List (DocumentRevision Op) :=
  let projected := cold.foldl (fun m r => m.set r.seq r) ({} : InsertionMap Nat (DocumentRevision Op))
  let merged := local_.foldl (fun m r =>
    if (m.get r.seq).any (·.checkpoint.isSome) then m else m.set r.seq r) projected
  sortBy (·.seq) (merged.entries.map Prod.snd)

/-- The rest of `#document`, on the revisions that the overlay and the projection have. -/
def materialize (id : Nat) (record : Document) (point : DocumentPoint) : Work Op StoredDocument := do
  let s ← store
  let through := match point with
    | .current => s.seq
    | .at seq => seq
  let local_ := ((s.revisions.get id).getD []).filter (·.seq ≤ through)
  let completeLocal := local_.any fun r => r.content.baseValue.isSome
  let cold ← if id ∈ s.revisionResets || completeLocal then pure []
    else do lift ((← ask w).revisions id through)
  let stored ← lift (materializeNativeDocument o.applyImmutableBatches record.toDocumentRecord
    (mergeRevisions cold local_))
  return { record, version := stored.version, value := stored.value
           deltasSinceBase := stored.deltasSinceBase }

/-- `#document` -/
def readDocument (id : Nat) (point : DocumentPoint) : Work Op (Option StoredDocument) := do
  match ← document o w id with
  | none => return none
  | some record =>
    if point ≠ .current && currentOnly record.toDocumentRecord then
      throw ("Document " ++ toString id ++ " does not retain historical content")
    else if !Published.matchesPoint (IndexedRecord.document record).index point then return none
    else
      let s ← store
      match (s.live.get id).filter fun _ => isLiveDocument record.toDocumentRecord with
      | some live => return some live
      | none => some <$> materialize o w id record point

/-- `#latestRevision`: the version and the deltas of the last revision. -/
def latestRevision (id : Nat) : Work Op (Option (Nat × Nat)) := do
  let s ← store
  match s.live.get id with
  | some live => return some (live.version, live.deltasSinceBase)
  | none =>
    match ((s.revisions.get id).getD []).getLast? with
    | some last => return some (last.content.version, last.deltaCount)
    | none =>
      if id ∈ s.revisionResets || s.coldSeq = 0 || s.coldNextId ≤ id then return none
      else lift ((← ask w).latestRevision id)

/-- `recordSequence`, of a record that is no document -/
def recordSequence (id : Nat) : Work Op (Option Nat) := do
  let s ← store
  match s.records.get id with
  | some r => return r.sequence?
  | none =>
    if s.coldSeq = 0 || s.coldNextId ≤ id then return none
    else
      match s.readCache.get id with
      | some found => return found.bind IndexedRecord.sequence?
      | none => return ((← ask w).rows.get id).bind IndexedRecord.sequence?

end Reads

/-! ## What callers read -/

inductive Read where
  | value (kind : ValueKind) (id : Nat)
  | entry (conversationId : Option Nat) (id : Nat)
  | scan (scan : Scan) (limit : Nat) (cursor : Option Nat)
  | submissionByRequest (conversationId : Nat) (requestId : JsString)
  | findLatestHeadMarker (conversationId : Nat) (atOrBefore : Option Nat)
  | findDocument (address : Address) (point : DocumentPoint)
  | document (id : Nat) (point : DocumentPoint)
  | recordSequence (id : Nat)

inductive Answer where
  | value (value : Option Value)
  | record (record : Option IndexedRecord)
  | page (page : Page IndexedRecord)
  | address (document : Option Document)
  | document (document : Option StoredDocument)
  | sequence (seq : Option Nat)

section Answers

variable {Op : Type} (o : Options Op) (w : World Op)

def answer : Read → Work Op Answer
  | .value kind id => do return .value (← value o w kind id)
  | .entry conversationId id => do return .record (← entry o w conversationId id)
  | .scan scan limit cursor => do return .page (← scanPage w limit cursor scan)
  | .submissionByRequest conversationId requestId => do
    return .record (← submissionByRequest w conversationId requestId)
  | .findLatestHeadMarker conversationId atOrBefore => do
    return .record (← findLatestHeadMarker w conversationId atOrBefore)
  | .findDocument address point => do return .address (← findDocument w address point)
  | .document id point => do return .document (← readDocument o w id point)
  | .recordSequence id => do return .sequence (← recordSequence w id)

end Answers

end Overlay
end Durable
end PiCloud
