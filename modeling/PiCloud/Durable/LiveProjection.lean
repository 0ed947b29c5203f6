import PiCloud.Durable.DocumentRevisions
import PiCloud.Lib.Table

/-!
# Durable.LiveProjection

The projection of native commits into PostgreSQL (`postgres-projection.ts`), with the rows of
unfinished live documents kept in memory (`live-state.ts`) and pinned in their table rows by the
position of the log from which they can be made again.

* `applyIn`: one commit in its transaction; a commit that is there already is replayed.
* `replayLiveIn`, `checkpointLiveIn`: what brings the memory up to the head, and what empties it.
* `checkpointRows_ok`, `pinRows_ok`: what the statements of a transaction change.
-/

namespace PiCloud
namespace Durable

open Lib

/-- `NativeReplayPosition` -/
structure ReplayPosition where
  topic : JsString
  partition : Nat
  offset : Nat
deriving DecidableEq

/-- A commit as the log delivers it. `elsewhere` is how the rest of its transaction fails
(attachments, retained history, the revisions of other documents). -/
structure DeliveredCommit (Op : Type) where
  batch : DurableBatch Op
  origins : Nat → Option Origin
  position : ReplayPosition
  elsewhere : Option String := none

/-- A row of `pi_durable_commits`, with the commit that it stands for. -/
structure CommitRow (Op D : Type) where
  fact : DeliveredCommit Op
  fingerprint : D
  currentHashes : List (Nat × D)

/-- A row of `pi_durable_current`. -/
structure CurrentEntry where
  row : CurrentStateRow
  replay : Option ReplayReference := none

/-- The tables of one native Session. The commit of sequence `k + 1` stands at `k`. -/
structure ProjectionTables (Op D : Type) where
  commits : List (CommitRow Op D) := []
  index : Nat → Option IndexedRecord := fun _ => none
  current : Table Nat CurrentEntry := Table.empty

structure NativeLiveState where
  through : Option Nat := none
  rows : Nat → Option CurrentStateRow := fun _ => none

/-- `currentStateFingerprint` and the fingerprint of a commit. -/
structure Digests (Op D : Type) where
  row : CurrentStateRow → D
  commit : DurableBatch Op → (Nat → Option Origin) → D

def Digests.commitRow {Op D : Type} (digests : Digests Op D) (fact : DeliveredCommit Op)
    (rows : List CurrentStateRow) : CommitRow Op D where
  fact := fact
  fingerprint := digests.commit fact.batch fact.origins
  currentHashes := rows.map fun r => (r.id, digests.row r)

namespace ProjectionTables

variable {Op D : Type}

def head (db : ProjectionTables Op D) : Nat := db.commits.length

def nextId (db : ProjectionTables Op D) : Nat :=
  (db.commits.getLast?.map fun c => c.fact.batch.nextId).getD 2

def commit (db : ProjectionTables Op D) (seq : Nat) : Option (CommitRow Op D) :=
  match seq with
  | 0 => none
  | k + 1 => db.commits[k]?

def source (db : ProjectionTables Op D) (id : Nat) : Option CurrentStateSource :=
  (db.index id).map fun indexed =>
    { indexedId := id, indexed
      row := (db.current.get id).map (·.row)
      replay := (db.current.get id).bind (·.replay) }

def sources (db : ProjectionTables Op D) (ids : List Nat) : List CurrentStateSource :=
  ids.filterMap db.source

/-- Whether `on conflict … do update` replaces an indexed record. -/
def mayReplace (found : Option IndexedRecord) (record : IndexedRecord) (current : Bool) : Bool :=
  match found with
  | none => true
  | some existing =>
    existing.kind = record.kind &&
      (existing.kind = .value .task || existing.kind = .value .submission ||
        (current && existing.kind = .document && existing.createdSeq = record.createdSeq))

def writeIndex (db : ProjectionTables Op D) (id : Nat) (record : IndexedRecord) (current : Bool) :
    Except String (ProjectionTables Op D) :=
  if mayReplace (db.index id) record current then
    .ok { db with index := Function.update db.index id (some record) }
  else .error "Native record ID ownership changed"

/-- `currentStateIndex` -/
def currentStateIndex (row : CurrentStateRow) : Except String IndexedRecord :=
  match row.body with
  | .submission .. => .ok { kind := .value .submission }
  | .document record _ _ =>
    if isCurrentStateDocument record then .ok (indexDocument record row.createdSeq)
    else .error "Invalid native current-state body"

/-- What `on conflict … do update` makes of a checkpointed row; the creation stays. -/
def storedRow (found : Option CurrentEntry) (row : CurrentStateRow) :
    Except String CurrentStateRow :=
  match found with
  | none => .ok row
  | some existing =>
    if existing.row.kind = row.kind ∧ existing.row.seq ≤ row.seq then
      .ok { row with createdSeq := existing.row.createdSeq }
    else .error "Native current checkpoint changed identity or regressed"

/-- One row of `#checkpointRows`. -/
def checkpointRow (db : ProjectionTables Op D) (row : CurrentStateRow) :
    Except String (ProjectionTables Op D) := do
  let stored ← storedRow (db.current.get row.id) row
  let record ← currentStateIndex row
  writeIndex { db with current := db.current.set row.id { row := stored } } row.id record true

def checkpointRows (db : ProjectionTables Op D) (rows : List CurrentStateRow) :
    Except String (ProjectionTables Op D) := rows.foldlM checkpointRow db

/-- The records of the writes that are not current state. -/
def indexWrite (seq : Nat) (omitted : List Nat) (db : ProjectionTables Op D)
    (write : StorageWrite Op × Nat) : Except String (ProjectionTables Op D) :=
  if write.2 ∈ omitted then .ok db
  else
    match write.1 with
    | .value kind id _ => db.writeIndex id { kind := .value kind } false
    | .documentCreate record _ => db.writeIndex record.id (indexDocument record (some seq)) false
    | .documentCopy _ => .error "Published document copies must carry their resolved native base"
    | _ => .ok db

def indexBatch (db : ProjectionTables Op D) (batch : DurableBatch Op) (omitted : List Nat) :
    Except String (ProjectionTables Op D) :=
  batch.writes.zipIdx.foldlM (indexWrite batch.seq omitted) db

/-- The reference to the first commit that the table row of a pending document lacks. -/
def pinRow (inputs : List CurrentStateSource) (position : ReplayPosition) (seq : Nat)
    (db : ProjectionTables Op D) (row : CurrentStateRow) : Except String (ProjectionTables Op D) :=
  match inputs.find? fun source => source.row.isSome && source.indexedId = row.id with
  | none => .error "Native live document requires a settled initial checkpoint"
  | some before =>
    match before.replay with
    | some reference =>
      if reference.topic = position.topic ∧ reference.partition = position.partition ∧
          reference.offset ≤ position.offset then .ok db
      else .error "Native live replay reference changed Kafka stream"
    | none =>
      match db.current.get row.id with
      | some ⟨stored, none⟩ =>
        if stored.seq < seq then
          .ok { db with
            current := db.current.set row.id
              { row := stored
                replay := some { topic := position.topic, partition := position.partition
                                 offset := position.offset, seq } } }
        else .error "Native live recovery reference was not installed"
      | _ => .error "Native live recovery reference was not installed"

/-- `#liveCheckpoints` -/
def liveCheckpoints (db : ProjectionTables Op D) : Except String (List CurrentEntry) :=
  let pinned := db.current.scan.filter (·.replay.isSome)
  if !pinned.all (isLiveRow ·.row) then
    .error "Replay reference does not address native live state"
  else if !pinned.all fun e => (db.index e.row.id).isSome then
    .error "Native live checkpoint index is missing"
  else .ok pinned

/-- The newest digest of a row from `first` on. -/
def latestProof (db : ProjectionTables Op D) (id first : Nat) : Option (Nat × D) :=
  ((List.range (db.head + 1)).reverse.filter fun seq => first ≤ seq).findSome? fun seq =>
    (db.commit seq).bind fun c => (c.currentHashes.lookup id).map fun hash => (seq, hash)

end ProjectionTables

open ProjectionTables

/-- One checkpoint of `NativeLiveState.initialize`. -/
def NativeLiveState.addCheckpoint (live : NativeLiveState) (e : CurrentEntry) : NativeLiveState :=
  match e.replay with
  | none => live
  | some reference =>
    { through := live.through.map fun t => min t (reference.seq - 1)
      rows := Function.update live.rows e.row.id (some e.row) }

def NativeLiveState.initialize (live : NativeLiveState) (head : Nat)
    (checkpoints : List CurrentEntry) : NativeLiveState :=
  match live.through with
  | some _ => live
  | none => checkpoints.foldl NativeLiveState.addCheckpoint { live with through := some head }

/-- The row that the next batch finds: the newer of the two. -/
def liveRow (live : NativeLiveState) (id : Nat) (row : CurrentStateRow) : CurrentStateRow :=
  match live.rows id with
  | none => row
  | some cached => if cached.seq < row.seq then row else cached

def liveSources (sources : List CurrentStateSource) (live : NativeLiveState) :
    List CurrentStateSource :=
  sources.map fun source => { source with row := source.row.map (liveRow live source.indexedId) }

def NativeLiveState.take (live : NativeLiveState) (row : CurrentStateRow) : NativeLiveState :=
  { live with
    rows := Function.update live.rows row.id (if isPendingLiveRow row then some row else none) }

section Projection

variable {Op D : Type} [DecidableEq D]
  (applyImmutableBatches : Members → List (List Op) → Except String Members)
  (digests : Digests Op D)

def initializeLive (db : ProjectionTables Op D) (live : NativeLiveState) :
    Except String NativeLiveState :=
  match live.through with
  | some _ => .ok live
  | none => do return live.initialize db.head (← db.liveCheckpoints)

/-- Whether a document takes part in the replay of `seq`, and the memory after looking at it. -/
def eligibleRow (seq : Nat) (position : ReplayPosition) (state : NativeLiveState × List Nat)
    (source : CurrentStateSource) : Except String (NativeLiveState × List Nat) :=
  let (live, eligible) := state
  match source.row with
  | none => .ok state
  | some row =>
    if !isLiveRow row then .ok state
    else
      let cached := live.rows source.indexedId
      match source.replay with
      | none =>
        if cached.any fun c => c.seq ≤ row.seq then
          .ok ({ live with rows := Function.update live.rows source.indexedId none }, eligible)
        else .ok state
      | some reference =>
        if seq < reference.seq ∨ seq ≤ max row.seq ((cached.map (·.seq)).getD 0) then .ok state
        else if reference.topic ≠ position.topic ∨ reference.partition ≠ position.partition ∨
            position.offset < reference.offset then
          .error "Native live replay changed its protected Kafka range"
        else .ok (live, eligible ++ [source.indexedId])

/-- A replayed row is the one that was projected. -/
def replayRow (hashes : List (Nat × D)) (live : NativeLiveState) (row : CurrentStateRow) :
    Except String NativeLiveState :=
  if hashes.lookup row.id = some (digests.row row) then .ok (live.take row)
  else .error "Native live replay integrity check failed"

def replayLiveIn (db : ProjectionTables Op D) (batch : DurableBatch Op) (hashes : List (Nat × D))
    (live : NativeLiveState) (position : ReplayPosition) : Except String NativeLiveState := do
  let live ← initializeLive db live
  let through := live.through.getD 0
  if batch.seq ≤ through then return live
  else if batch.seq ≠ through + 1 then .error "Native live Kafka recovery has a sequence gap"
  else
    let found := db.sources (currentStateIds batch)
    let (live, eligible) ← found.foldlM (eligibleRow batch.seq position) (live, [])
    let states ← prepareCurrentStates applyImmutableBatches batch (fun _ => none)
      (liveSources (found.filter (·.row.isSome)) live)
      fun write _ => write.isEdit && eligible.contains write.id
    let live ← states.rows.foldlM (replayRow digests hashes) live
    return { live with through := some batch.seq }

/-- The branch of `applyIn` for a new commit. -/
def projectIn (db : ProjectionTables Op D) (fact : DeliveredCommit Op) (live : NativeLiveState) :
    Except String (ProjectionTables Op D × NativeLiveState) := do
  let batch := fact.batch
  if batch.seq ≠ db.head + 1 ∨ batch.nextId < db.nextId then
    .error "Native commit sequence or ID watermark is not contiguous"
  else
    let live ← initializeLive db live
    if live.through ≠ some db.head then
      .error "Native live replay has not reached the projected head"
    else
      let inputs := db.sources (currentStateIds batch)
      let states ← prepareCurrentStates applyImmutableBatches batch fact.origins
        (liveSources inputs live) fun _ _ => true
      match fact.elsewhere with
      | some e => .error e
      | none =>
        let row := digests.commitRow fact states.rows
        let db ← indexBatch { db with commits := db.commits ++ [row] } batch states.omitted
        let db ← db.checkpointRows (states.rows.filter fun r => !isPendingLiveRow r)
        let db ← (states.rows.filter isPendingLiveRow).foldlM
          (pinRow inputs fact.position batch.seq) db
        return (db, { (states.rows.filter isLiveRow).foldl NativeLiveState.take live with
          through := some batch.seq })

/-- `applyIn`, with the position that the log projector always passes. The result says whether the
commit is new. -/
def applyIn (db : ProjectionTables Op D) (fact : DeliveredCommit Op) (live : NativeLiveState) :
    Except String (ProjectionTables Op D × NativeLiveState × Bool) :=
  match db.commit fact.batch.seq with
  | some prior =>
    if prior.fingerprint ≠ digests.commit fact.batch fact.origins then
      .error "Native commit position changed bytes"
    else do
      let live ← replayLiveIn applyImmutableBatches digests db fact.batch prior.currentHashes live
        fact.position
      return (db, live, false)
  | none => do
    let (db, live) ← projectIn applyImmutableBatches digests db fact live
    return (db, live, true)

/-- The row of a pending document for its handoff, which must be the one that was projected last. -/
def handoffRow (db : ProjectionTables Op D) (live : NativeLiveState) (e : CurrentEntry) :
    Except String CurrentStateRow :=
  let latest := live.rows e.row.id
  let proof := db.latestProof e.row.id ((e.replay.map (·.seq)).getD 0)
  match latest, proof with
  | some row, some (seq, hash) =>
    if row.seq = seq ∧ digests.row row = hash then .ok row
    else .error "Native live handoff checkpoint is incomplete or changed"
  | _, _ => .error "Native live handoff checkpoint is incomplete or changed"

/-- `checkpointLiveIn` -/
def checkpointLiveIn (db : ProjectionTables Op D) (live : NativeLiveState) :
    Except String (ProjectionTables Op D × NativeLiveState) := do
  let pending ← db.liveCheckpoints
  if pending.isEmpty then return (db, { through := some db.head })
  else if live.through ≠ some db.head then
    .error "Native live handoff must replay through the projected head"
  else
    let checkpoints ← pending.mapM (handoffRow digests db live)
    return (← db.checkpointRows checkpoints, { live with rows := fun _ => none })

end Projection

/-! ## What the statements change -/

namespace ProjectionTables

variable {Op D : Type} {db db' : ProjectionTables Op D}

theorem source_id {id : Nat} {source : CurrentStateSource} (h : db.source id = some source) :
    source.indexedId = id := by
  unfold ProjectionTables.source at h
  obtain ⟨_, _, rfl⟩ := Option.map_eq_some_iff.mp h
  rfl

theorem mem_sources {ids : List Nat} {source : CurrentStateSource} :
    source ∈ db.sources ids ↔ source.indexedId ∈ ids ∧ db.source source.indexedId = some source := by
  unfold sources
  rw [List.mem_filterMap]
  constructor
  · rintro ⟨id, hmem, hsource⟩
    rw [source_id hsource]
    exact ⟨hmem, hsource⟩
  · rintro ⟨hmem, hsource⟩
    exact ⟨_, hmem, hsource⟩

theorem source_row {id : Nat} {source : CurrentStateSource} (h : db.source id = some source) :
    source.row = (db.current.get id).map (·.row) ∧
      source.replay = (db.current.get id).bind (·.replay) := by
  unfold ProjectionTables.source at h
  obtain ⟨_, _, rfl⟩ := Option.map_eq_some_iff.mp h
  exact ⟨rfl, rfl⟩

theorem source_isSome {id : Nat} : (db.source id).isSome = (db.index id).isSome := by
  unfold ProjectionTables.source
  rw [Option.isSome_map]

theorem writeIndex_ok {id : Nat} {record : IndexedRecord} {current : Bool}
    (h : db.writeIndex id record current = .ok db') :
    db' = { db with index := Function.update db.index id (some record) } := by
  unfold writeIndex at h
  split at h
  · cases h
    rfl
  · cases h

theorem update_isSome {index : Nat → Option IndexedRecord} {id : Nat} {record : IndexedRecord}
    {j : Nat} (h : (index j).isSome) : (Function.update index id (some record) j).isSome := by
  by_cases hj : j = id
  · subst hj
    rw [Function.update_self]
    rfl
  · rw [Function.update_of_ne hj]
    exact h

theorem indexWrite_ok {seq : Nat} {omitted : List Nat} {write : StorageWrite Op × Nat}
    (h : indexWrite seq omitted db write = .ok db') :
    db'.commits = db.commits ∧ db'.current = db.current ∧
      ∀ id, (db.index id).isSome → (db'.index id).isSome := by
  unfold indexWrite at h
  split at h
  · cases h
    exact ⟨rfl, rfl, fun _ hs => hs⟩
  · split at h
    · rw [writeIndex_ok h]
      exact ⟨rfl, rfl, fun _ => update_isSome⟩
    · rw [writeIndex_ok h]
      exact ⟨rfl, rfl, fun _ => update_isSome⟩
    · cases h
    · cases h
      exact ⟨rfl, rfl, fun _ hs => hs⟩

theorem indexBatch_ok {batch : DurableBatch Op} {omitted : List Nat}
    (h : indexBatch db batch omitted = .ok db') :
    db'.commits = db.commits ∧ db'.current = db.current ∧
      ∀ id, (db.index id).isSome → (db'.index id).isSome := by
  unfold indexBatch at h
  generalize batch.writes.zipIdx = writes at h
  induction writes generalizing db with
  | nil =>
    cases h
    exact ⟨rfl, rfl, fun _ hs => hs⟩
  | cons write writes ih =>
    obtain ⟨next, hnext, hrest⟩ := bind_eq_ok.mp h
    obtain ⟨hc, ht, hi⟩ := indexWrite_ok hnext
    obtain ⟨hc', ht', hi'⟩ := ih hrest
    exact ⟨hc'.trans hc, ht'.trans ht, fun id hs => hi' id (hi id hs)⟩

theorem indexWrite_created {seq : Nat} {omitted : List Nat} {record : DocumentRecord}
    {content : DocumentContent Op} {ordinal : Nat} (ho : ordinal ∉ omitted)
    (h : indexWrite seq omitted db (.documentCreate record content, ordinal) = .ok db') :
    db.index record.id = none := by
  unfold indexWrite at h
  rw [if_neg ho] at h
  dsimp only at h
  unfold writeIndex mayReplace at h
  cases hfound : db.index record.id with
  | none => rfl
  | some existing =>
    rw [hfound] at h
    obtain ⟨kind, scope, nativeKind, only, createdSeq⟩ := existing
    cases kind with
    | document => simp [indexDocument] at h
    | value kind => cases kind <;> simp [indexDocument] at h

theorem indexBatch_created {batch : DurableBatch Op} {omitted : List Nat}
    (h : indexBatch db batch omitted = .ok db') {record : DocumentRecord}
    {content : DocumentContent Op} {ordinal : Nat}
    (hw : (.documentCreate record content, ordinal) ∈ batch.writes.zipIdx)
    (ho : ordinal ∉ omitted) : db.index record.id = none := by
  unfold indexBatch at h
  generalize batch.writes.zipIdx = writes at h hw
  induction writes generalizing db with
  | nil => cases hw
  | cons write writes ih =>
    obtain ⟨next, hnext, hrest⟩ := bind_eq_ok.mp h
    obtain rfl | hw := List.mem_cons.mp hw
    · exact indexWrite_created ho hnext
    · have hnone := ih hrest hw
      by_contra hsome
      have := (indexWrite_ok hnext).2.2 record.id (Option.ne_none_iff_isSome.mp hsome)
      rw [hnone] at this
      cases this

/-- What the table holds for a row that has been checkpointed over `found`. -/
def StoredAs (row : CurrentStateRow) (found after : Option CurrentEntry) : Prop :=
  match found with
  | none => after = some { row }
  | some e => e.row.kind = row.kind ∧
      after = some { row := { row with createdSeq := e.row.createdSeq } }

theorem checkpointRow_ok {row : CurrentStateRow} (h : db.checkpointRow row = .ok db') :
    db'.commits = db.commits ∧ (∀ id, (db.index id).isSome → (db'.index id).isSome) ∧
      (db'.index row.id).isSome ∧
      StoredAs row (db.current.get row.id) (db'.current.get row.id) ∧
      ∀ id, id ≠ row.id → db'.current.get id = db.current.get id := by
  unfold checkpointRow at h
  obtain ⟨stored, hstored, h⟩ := bind_eq_ok.mp h
  obtain ⟨record, _, h⟩ := bind_eq_ok.mp h
  rw [writeIndex_ok h]
  refine ⟨rfl, fun _ => update_isSome, ?_, ?_, fun id hid => ?_⟩
  · dsimp only
    rw [Function.update_self]
    rfl
  · dsimp only
    rw [Table.get_set_self]
    unfold StoredAs
    unfold storedRow at hstored
    cases hget : db.current.get row.id with
    | none =>
      rw [hget] at hstored
      cases hstored
      rfl
    | some e =>
      rw [hget] at hstored
      dsimp only at hstored ⊢
      split at hstored
      · rename_i hcond
        cases hstored
        exact ⟨hcond.1, rfl⟩
      · cases hstored
  · dsimp only
    rw [Table.get_set, if_neg hid]

theorem checkpointRows_ok {rows : List CurrentStateRow}
    (hnodup : (rows.map CurrentStateRow.id).Nodup) (h : db.checkpointRows rows = .ok db') :
    db'.commits = db.commits ∧ (∀ id, (db.index id).isSome → (db'.index id).isSome) ∧
      (∀ row ∈ rows, (db'.index row.id).isSome ∧
        StoredAs row (db.current.get row.id) (db'.current.get row.id)) ∧
      ∀ id, id ∉ rows.map CurrentStateRow.id → db'.current.get id = db.current.get id := by
  unfold checkpointRows at h
  induction rows generalizing db with
  | nil =>
    cases h
    exact ⟨rfl, fun _ hs => hs, by simp, fun _ _ => rfl⟩
  | cons row rows ih =>
    obtain ⟨next, hnext, hrest⟩ := bind_eq_ok.mp h
    rw [List.map_cons, List.nodup_cons] at hnodup
    obtain ⟨hc, hi, hrowi, hrow, hother⟩ := checkpointRow_ok hnext
    obtain ⟨hc', hi', hrows, hother'⟩ := ih hnodup.2 hrest
    refine ⟨hc'.trans hc, fun id hs => hi' id (hi id hs), ?_, ?_⟩
    · intro q hq
      obtain rfl | hq := List.mem_cons.mp hq
      · rw [hother' _ hnodup.1]
        exact ⟨hi' _ hrowi, hrow⟩
      · have hne : q.id ≠ row.id := fun heq => hnodup.1 (heq ▸ List.mem_map_of_mem hq)
        rw [← hother _ hne]
        exact hrows q hq
    · intro id hid
      rw [List.map_cons, List.mem_cons, not_or] at hid
      rw [hother' id hid.2, hother id hid.1]

/-- What the table holds for a pending row over `found`. -/
def PinnedAs (position : ReplayPosition) (seq : Nat) (found after : Option CurrentEntry) : Prop :=
  ∃ e, found = some e ∧
    match e.replay with
    | some reference => after = found ∧ reference.topic = position.topic ∧
        reference.partition = position.partition ∧ reference.offset ≤ position.offset
    | none => after = some { row := e.row
                             replay := some { topic := position.topic, partition := position.partition
                                              offset := position.offset, seq } }

theorem pinRow_ok {origin : ProjectionTables Op D} {ids : List Nat} {position : ReplayPosition}
    {seq : Nat} {row : CurrentStateRow}
    (hget : db.current.get row.id = origin.current.get row.id)
    (h : pinRow (origin.sources ids) position seq db row = .ok db') :
    db'.commits = db.commits ∧ db'.index = db.index ∧
      PinnedAs position seq (db.current.get row.id) (db'.current.get row.id) ∧
      ∀ id, id ≠ row.id → db'.current.get id = db.current.get id := by
  unfold pinRow at h
  cases hfind : (origin.sources ids).find? fun source =>
      source.row.isSome && source.indexedId = row.id with
  | none =>
    rw [hfind] at h
    cases h
  | some before =>
    rw [hfind] at h
    have hcond := List.find?_some hfind
    simp only [Bool.and_eq_true, decide_eq_true_eq] at hcond
    have hsource := (mem_sources.mp (List.mem_of_find?_eq_some hfind)).2
    rw [hcond.2] at hsource
    obtain ⟨hrow, hreplay⟩ := source_row hsource
    rw [← hget] at hrow hreplay
    obtain ⟨e, he⟩ : ∃ e, db.current.get row.id = some e := by
      rw [hrow, Option.isSome_map] at hcond
      exact Option.isSome_iff_exists.mp hcond.1
    rw [he, Option.bind_some] at hreplay
    unfold PinnedAs
    dsimp only at h
    rw [hreplay] at h
    obtain ⟨stored, replay⟩ := e
    cases replay with
    | some reference =>
      dsimp only at h
      split at h
      · rename_i hcond'
        cases h
        exact ⟨rfl, rfl, ⟨_, he, rfl, hcond'⟩, fun _ _ => rfl⟩
      · cases h
    | none =>
      dsimp only at h
      rw [he] at h
      dsimp only at h
      split at h
      · cases h
        refine ⟨rfl, rfl, ⟨_, he, Table.get_set_self ..⟩, fun id hid => ?_⟩
        dsimp only
        rw [Table.get_set, if_neg hid]
      · cases h

theorem pinRows_ok {origin : ProjectionTables Op D} {ids : List Nat} {position : ReplayPosition}
    {seq : Nat} {rows : List CurrentStateRow} (hnodup : (rows.map CurrentStateRow.id).Nodup)
    (hget : ∀ row ∈ rows, db.current.get row.id = origin.current.get row.id)
    (h : rows.foldlM (pinRow (origin.sources ids) position seq) db = .ok db') :
    db'.commits = db.commits ∧ db'.index = db.index ∧
      (∀ row ∈ rows, PinnedAs position seq (db.current.get row.id) (db'.current.get row.id)) ∧
      ∀ id, id ∉ rows.map CurrentStateRow.id → db'.current.get id = db.current.get id := by
  induction rows generalizing db with
  | nil =>
    cases h
    exact ⟨rfl, rfl, by simp, fun _ _ => rfl⟩
  | cons row rows ih =>
    obtain ⟨next, hnext, hrest⟩ := bind_eq_ok.mp h
    rw [List.map_cons, List.nodup_cons] at hnodup
    obtain ⟨hc, hi, hrow, hother⟩ := pinRow_ok (hget row List.mem_cons_self) hnext
    have hne : ∀ q ∈ rows, q.id ≠ row.id := fun q hq heq =>
      hnodup.1 (heq ▸ List.mem_map_of_mem hq)
    obtain ⟨hc', hi', hrows, hother'⟩ := ih hnodup.2
      (fun q hq => (hother _ (hne q hq)).trans (hget q (List.mem_cons_of_mem _ hq))) hrest
    refine ⟨hc'.trans hc, hi'.trans hi, ?_, ?_⟩
    · intro q hq
      obtain rfl | hq := List.mem_cons.mp hq
      · rw [hother' _ hnodup.1]
        exact hrow
      · rw [← hother _ (hne q hq)]
        exact hrows q hq
    · intro id hid
      rw [List.map_cons, List.mem_cons, not_or] at hid
      rw [hother' id hid.2, hother id hid.1]

end ProjectionTables

end Durable
end PiCloud
