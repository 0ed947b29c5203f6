import Mathlib.Data.Prod.Lex
import Mathlib.Order.OrderDual
import PiCloud.Lib.Paging

/-!
# Durable.PublishedStorage

The scans of `PublishedDurableStorage`: acknowledged records that wait for their projection lie over
the records of PostgreSQL, and a scan merges both, page by page.

* `IndexedRecord`, `RecordQuery`, `matchesRecord`: a record and what selects it.
* `Storage`: the overlay and the two halves of the durable records.
* `Storage.scanRows`, `Storage.entries`: one scan, by id and along an ancestry.
* `Storage.scan`, `Storage.paged`, `Storage.all`: a page of each kind of scan, all of its pages, and
  the scan without a limit.
-/

namespace PiCloud
namespace Durable
namespace Published

open Lib

/-- `Number.MAX_SAFE_INTEGER` -/
def maxSafeInteger : Nat := 9007199254740991

inductive RecordKind where
  | conversation | entry | task | submission | document
  deriving DecidableEq, Repr

inductive DocumentScope where
  | session
  | conversation (id : Nat)
  | task (id : Nat)
  deriving DecidableEq, Repr

/-- The indexed fields that a query or a scan may name. -/
inductive Field where
  | ownerConversation | ownerTask | conversation | nativeKind | status | abortRequested | background
  | scope | head
  deriving DecidableEq, Repr

/-- The texts of `fields`, before `String` and `JSON.stringify`. -/
inductive FieldValue where
  | number (value : Nat)
  | text (value : String)
  | flag (value : Bool)
  | scope (value : DocumentScope)
  deriving DecidableEq, Repr

/-- `parent` of a conversation: the entry of another one that it continues from. -/
structure Parent where
  conversationId : Nat
  entry : Nat
  deriving DecidableEq, Repr

structure IndexedRecord where
  id : Nat
  kind : RecordKind
  fields : List (Field × FieldValue) := []
  /-- of an entry -/
  conversationId : Nat := 0
  /-- of a conversation -/
  parent : Option Parent := none
  createdSeq : Option Nat := none
  retiredSeq : Option Nat := none
  deriving DecidableEq, Repr

def IndexedRecord.field (r : IndexedRecord) (f : Field) : Option FieldValue := r.fields.lookup f

inductive DocumentPoint where
  | current
  | at (seq : Nat)
  deriving DecidableEq, Repr

structure RecordQuery where
  kind : RecordKind
  fields : List (Field × FieldValue) := []
  minId : Option Nat := none
  maxId : Option Nat := none
  head : Bool := false
  point : Option DocumentPoint := none
  descending : Bool := false

def matchesPoint (r : IndexedRecord) : DocumentPoint → Bool
  | .current => r.retiredSeq.isNone
  | .at seq => r.createdSeq.any (· ≤ seq) && r.retiredSeq.all (seq < ·)

def matchesRecord (r : IndexedRecord) (query : RecordQuery) : Bool :=
  r.kind = query.kind &&
    query.minId.all (· ≤ r.id) &&
    query.maxId.all (r.id ≤ ·) &&
    (!query.head || (r.field .head).isSome) &&
    query.fields.all (fun f => r.field f.1 = some f.2) &&
    query.point.all (matchesPoint r)

/-- One storage: no id is given twice in the overlay or among the durable records, and ids are safe
integers. -/
structure Storage where
  /-- acknowledged, and waiting for the projection -/
  records : List IndexedRecord := []
  owned : List IndexedRecord := []
  /-- the records of a shared base -/
  inherited : List IndexedRecord := []
  coldSeq : Nat := 0
  coldNextId : Nat := 0
  distinct : (records.map (·.id)).Nodup
  coldDistinct : ((owned ++ inherited).map (·.id)).Nodup
  /-- a durable record that the last flush did not cover is in the overlay still -/
  below : ∀ r ∈ owned ++ inherited, r.id < coldNextId ∨ r.id ∈ records.map (·.id)
  safe : ∀ r ∈ records ++ (owned ++ inherited), r.id ≤ maxSafeInteger

/-- A cursor from outside is checked; `none` is a throw. -/
def cursorId : Option Nat → Option (Option Nat)
  | none => some none
  | some after => if after ≤ maxSafeInteger then some (some after) else none

def page (values : List IndexedRecord) (limit : Nat) : Page IndexedRecord :=
  Page.cut (·.id) values limit

/-- `order by id` -/
def inOrder (descending : Bool) (rows : List IndexedRecord) : List IndexedRecord :=
  if descending then sortBy (fun r => OrderDual.toDual r.id) rows else sortBy (·.id) rows

/-- A row of an ancestry: the entries of the conversation up to an id are on the path. -/
structure Ancestor where
  conversationId : Nat
  through : Int
  deriving DecidableEq, Repr

structure EntryQuery where
  conversationId : Nat
  minEntryId : Option Nat := none
  maxEntryId : Option Nat := none

namespace Storage

variable (s : Storage)

def overlayIds : List Nat := s.records.map (·.id)

def uncovered (rows : List IndexedRecord) : List IndexedRecord :=
  rows.filter fun r => r.id ∉ s.overlayIds

/-! ## Scans by id -/

/-- `projection.scan` -/
def projectionScan (query : RecordQuery) (limit : Nat) : List IndexedRecord :=
  (inOrder query.descending
    ((s.uncovered (s.owned ++ s.inherited)).filter (matchesRecord · query))).take limit

/-- `#scan` -/
def scanRows (query : RecordQuery) (limit : Nat) : Option (List IndexedRecord) :=
  if limit < 1 || maxSafeInteger < limit then none
  else
    let cold := if s.coldSeq = 0 || query.minId.any (s.coldNextId ≤ ·) then []
      else s.projectionScan query limit
    let local_ := s.records.filter (matchesRecord · query)
    some ((inOrder query.descending (cold ++ local_)).take limit)

/-- A page of the records of a kind, after the cursor. -/
def scanKind (kind : RecordKind) (fields : List (Field × FieldValue)) (point : Option DocumentPoint)
    (limit : Nat) (cursor : Option Nat) : Option (Page IndexedRecord) := do
  let after ← cursorId cursor
  let rows ← s.scanRows { kind, fields, point, minId := some (after.elim 0 (· + 1)) } (limit + 1)
  some (page rows limit)

/-! ## Entries along an ancestry -/

/-- A conversation in the overlay, or else in the durable records. -/
def conversation (id : Nat) : Option IndexedRecord :=
  match s.records.find? (fun r => r.id = id && r.kind = .conversation) with
  | some r => some r
  | none =>
    if s.coldSeq = 0 then none
    else (s.owned ++ s.inherited).find? fun r => r.id = id && r.kind = .conversation

/-- `none` is a throw: an unknown conversation, or a cycle. No path is longer than the table. -/
def ancestryFrom : Nat → List Nat → Nat → Int → Option (List Ancestor)
  | 0, _, _, _ => none
  | fuel + 1, visited, current, through => do
    guard (current ∉ visited)
    let r ← s.conversation current
    let row : Ancestor := { conversationId := current, through }
    match r.parent with
    | none => some [row]
    | some parent =>
      let rest ← ancestryFrom fuel (current :: visited) parent.conversationId
        (min through parent.entry)
      some (row :: rest)

def ancestry (id : Nat) : Option (List Ancestor) :=
  s.ancestryFrom (s.records.length + (s.owned ++ s.inherited).length + 1) [] id maxSafeInteger

end Storage

/-- `ranges` of `#entries`: the ancestors with entries between the bounds. -/
def rangesOf (path : List Ancestor) (minimum : Nat) (maximum : Int) : List Ancestor :=
  (path.map fun row => { row with through := min maximum row.through }).filter
    fun row => (minimum : Int) ≤ row.through

def rangeOf (ranges : List Ancestor) (conversationId : Nat) : Option Ancestor :=
  ranges.find? fun row => row.conversationId = conversationId

def entryKey (ranges : List Ancestor) (r : IndexedRecord) : Nat ×ₗ Natᵒᵈ :=
  toLex (ranges.findIdx fun row => row.conversationId = r.conversationId, OrderDual.toDual r.id)

def inRange (ranges : List Ancestor) (minimum : Nat) (head : Bool) (r : IndexedRecord) : Bool :=
  r.kind = .entry &&
    (rangeOf ranges r.conversationId).any (fun row => (r.id : Int) ≤ row.through) &&
    minimum ≤ r.id && (!head || (r.field .head).isSome)

namespace Storage

variable (s : Storage)

/-- `projection.scanEntryRanges` -/
def scanEntryRanges (ranges : List Ancestor) (limit minimum : Nat) (head : Bool) :
    List IndexedRecord :=
  if ranges.isEmpty then []
  else
    let select (rows : List IndexedRecord) :=
      (sortBy (entryKey ranges) ((s.uncovered rows).filter (inRange ranges minimum head))).take limit
    (sortBy (entryKey ranges) (select s.owned ++ select s.inherited)).take limit

/-- `#entries` -/
def entries (query : EntryQuery) (limit : Nat) (cursor : Option Nat) (head : Bool) :
    Option (List IndexedRecord) := do
  let after ← cursorId cursor
  let maximum : Int := min (query.maxEntryId.getD maxSafeInteger)
    ((after.getD (maxSafeInteger + 1) : Nat) - 1)
  let path ← s.ancestry query.conversationId
  let minimum := query.minEntryId.getD 0
  let ranges := rangesOf path minimum maximum
  let local_ := s.records.filter (inRange ranges minimum head)
  let cold := if s.coldSeq = 0 then [] else s.scanEntryRanges ranges limit minimum head
  some ((sortBy (entryKey ranges) (local_ ++ cold)).take limit)

end Storage

/-! ## The scans -/

structure ConversationQuery where
  ownerConversationId : Option Nat := none
  ownerTaskId : Option Nat := none

structure TaskQuery where
  conversationId : Option Nat := none
  kind : Option String := none
  status : Option String := none
  abortRequested : Option Bool := none
  background : Option Bool := none

structure SubmissionQuery where
  conversationId : Option Nat := none
  status : Option String := none

structure DocumentQuery where
  scope : DocumentScope
  kind : Option String := none
  point : DocumentPoint

inductive Scan where
  | conversations (query : ConversationQuery)
  | entries (query : EntryQuery)
  | tasks (query : TaskQuery)
  | submissions (query : SubmissionQuery)
  | documents (query : DocumentQuery)

def given {α : Type} (f : Field) (value : α → FieldValue) (x : Option α) : List (Field × FieldValue) :=
  x.toList.map fun v => (f, value v)

def ConversationQuery.fields (query : ConversationQuery) : List (Field × FieldValue) :=
  given .ownerConversation .number query.ownerConversationId ++ given .ownerTask .number query.ownerTaskId

def TaskQuery.fields (query : TaskQuery) : List (Field × FieldValue) :=
  given .conversation .number query.conversationId ++ given .nativeKind .text query.kind ++
    given .status .text query.status ++ given .abortRequested .flag query.abortRequested ++
    given .background .flag query.background

def SubmissionQuery.fields (query : SubmissionQuery) : List (Field × FieldValue) :=
  given .conversation .number query.conversationId ++ given .status .text query.status

def DocumentQuery.fields (query : DocumentQuery) : List (Field × FieldValue) :=
  (.scope, .scope query.scope) :: given .nativeKind .text query.kind

namespace Storage

variable (s : Storage) (limit : Nat) (cursor : Option Nat)

def scanConversations (query : ConversationQuery) : Option (Page IndexedRecord) :=
  s.scanKind .conversation query.fields none limit cursor

def scanEntries (query : EntryQuery) : Option (Page IndexedRecord) := do
  let rows ← s.entries query (limit + 1) cursor false
  some (page rows limit)

def scanTasks (query : TaskQuery) : Option (Page IndexedRecord) :=
  s.scanKind .task query.fields none limit cursor

def scanSubmissions (query : SubmissionQuery) : Option (Page IndexedRecord) :=
  s.scanKind .submission query.fields none limit cursor

def scanDocuments (query : DocumentQuery) : Option (Page IndexedRecord) :=
  s.scanKind .document query.fields (some query.point) limit cursor

def scan (scan : Scan) : Option (Page IndexedRecord) :=
  match scan with
  | .conversations query => s.scanConversations limit cursor query
  | .entries query => s.scanEntries limit cursor query
  | .tasks query => s.scanTasks limit cursor query
  | .submissions query => s.scanSubmissions limit cursor query
  | .documents query => s.scanDocuments limit cursor query

end Storage

namespace Storage

variable (s : Storage)

def size : Nat := s.records.length + (s.owned ++ s.inherited).length

def paged (scan : Scan) (limit : Nat) : Option (List IndexedRecord) :=
  follow (fun cursor => s.scan limit cursor scan) (s.size + 1) none

def cold (rows : List IndexedRecord) : List IndexedRecord :=
  if s.coldSeq = 0 then [] else s.uncovered rows

def rows : List IndexedRecord := s.records ++ (s.cold s.owned ++ s.cold s.inherited)

def allKind (kind : RecordKind) (fields : List (Field × FieldValue)) (point : Option DocumentPoint) :
    List IndexedRecord :=
  sortBy (·.id) (s.rows.filter (matchesRecord · { kind, fields, point }))

/-- The entries of an ancestry, without a limit. -/
def allEntries (query : EntryQuery) : Option (List IndexedRecord) := do
  let path ← s.ancestry query.conversationId
  let minimum := query.minEntryId.getD 0
  let ranges := rangesOf path minimum (query.maxEntryId.getD maxSafeInteger)
  some (sortBy (entryKey ranges) (s.rows.filter (inRange ranges minimum false)))

def all : Scan → Option (List IndexedRecord)
  | .conversations query => some (s.allKind .conversation query.fields none)
  | .entries query => s.allEntries query
  | .tasks query => some (s.allKind .task query.fields none)
  | .submissions query => some (s.allKind .submission query.fields none)
  | .documents query => some (s.allKind .document query.fields (some query.point))

end Storage

end Published
end Durable
end PiCloud
